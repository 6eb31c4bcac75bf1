import ChipTools.Rtime
import ChipTools.Loop

/-! Which places `jffs2_rtime_decompress` reads and writes. The function has no use for `srclen`
and looks at `destlen` before a pair only, so a run that the source asks for can go anywhere. Here
each access is checked, and the first one that leaves its buffer ends the run. `mkfs.jffs2 -t` gives
it what the compressor has made of a part of a page. -/
namespace ChipTools.Jffs2
open Bytes Loop

/-- What the decompressor does that it must not do. -/
inductive RtimeFault
  /-- `data_in[pos]` is read at or behind `srclen`. -/
  | source (pos : ℕ)
  /-- `cpage_out[outpos]` is written at or behind `destlen`. -/
  | dest (outpos : ℕ)
  /-- `cpage_out[backoffs]` is read in front of the output or where nothing is written yet. -/
  | back (backoffs : ℤ)
  /-- `pos` or `outpos` leaves the range of an `int`. -/
  | overflow
  /-- The loop is not at its end. -/
  | unfinished
  deriving DecidableEq

def intMax : ℕ := 2^31-1

/-- `data_in[pos++]`. -/
def takeByte (data_in : List Byte) (pos : ℕ) : Except RtimeFault Byte :=
  if data_in.length ≤ pos then .error (.source pos)
  else if intMax ≤ pos then .error .overflow
  else .ok (data_in.getD pos 0#8)

/-- `cpage_out[outpos++] = value`, where `outpos` is the number of bytes that are written. -/
def putByte (destlen : ℕ) (cpage_out : List Byte) (value : Byte) : Except RtimeFault (List Byte) :=
  if destlen ≤ cpage_out.length then .error (.dest cpage_out.length)
  else if intMax ≤ cpage_out.length then .error .overflow
  else .ok (cpage_out ++ [value])

/-- `cpage_out[backoffs]`. -/
def backByte (cpage_out : List Byte) (backoffs : ℤ) : Except RtimeFault Byte :=
  if backoffs < 0 ∨ cpage_out.length ≤ backoffs then .error (.back backoffs)
  else .ok (cpage_out.getD backoffs.toNat 0#8)

/-- The loop that copies byte by byte. -/
def copyLoop (destlen : ℕ) : ℕ → ℤ → List Byte → Except RtimeFault (List Byte)
  | 0, _, cpage_out => .ok cpage_out
  | repeats+1, backoffs, cpage_out => do
    let value ← backByte cpage_out backoffs
    let cpage_out ← putByte destlen cpage_out value
    copyLoop destlen repeats (backoffs+1) cpage_out

/-- `memcpy(&cpage_out[outpos],&cpage_out[backoffs],repeat)` and `outpos+=repeat`. -/
def memcpyRun (destlen repeats : ℕ) (backoffs : ℤ) (cpage_out : List Byte) :
    Except RtimeFault (List Byte) :=
  if backoffs < 0 ∨ cpage_out.length < backoffs+repeats then .error (.back backoffs)
  else if destlen < cpage_out.length+repeats then .error (.dest destlen)
  else if intMax < cpage_out.length+repeats then .error .overflow
  else .ok (cpage_out ++ (cpage_out.drop backoffs.toNat).take repeats)

/-- `if (repeat)` with its two ways to copy. -/
def repeatRun (destlen repeats : ℕ) (backoffs : ℤ) (cpage_out : List Byte) :
    Except RtimeFault (List Byte) :=
  if repeats = 0 then .ok cpage_out
  else if cpage_out.length ≤ backoffs+repeats then copyLoop destlen repeats backoffs cpage_out
  else memcpyRun destlen repeats backoffs cpage_out

/-- The variables of the decompressor; `outpos` is the length of `cpage_out`. -/
structure Decompressing where
  pos : ℕ
  positions : Byte → ℤ
  cpage_out : List Byte

/-- One pass of the loop, which takes a byte and the length of its run. -/
def decompressPair (data_in : List Byte) (destlen : ℕ) (s : Decompressing) :
    Except RtimeFault Decompressing := do
  let value ← takeByte data_in s.pos
  let cpage_out ← putByte destlen s.cpage_out value
  let repeats ← takeByte data_in (s.pos+1)
  let backoffs := s.positions value
  let positions := setPosition s.positions value cpage_out.length
  let cpage_out ← repeatRun destlen repeats.toNat backoffs cpage_out
  return ⟨s.pos+2, positions, cpage_out⟩

def decompressPairs (data_in : List Byte) (destlen : ℕ) :
    ℕ → Decompressing → Except RtimeFault (List Byte)
  | 0, _ => .error .unfinished
  | k+1, s =>
    if s.cpage_out.length < destlen then do
      let s ← decompressPair data_in destlen s
      decompressPairs data_in destlen k s
    else .ok s.cpage_out

/-- `jffs2_rtime_decompress` on a source of `srclen` bytes and an output of `destlen` bytes. -/
def rtimeDecompressIn (data_in : List Byte) (destlen : ℕ) : Except RtimeFault (List Byte) :=
  decompressPairs data_in destlen (destlen+1) ⟨0, fun _ => 0, []⟩

section Passes

variable {data_in : List Byte} {destlen : ℕ} {cpage_out out : List Byte} {backoffs : ℤ} {repeats : ℕ}

theorem takeByte_ok {pos : ℕ} {b : Byte} (h : takeByte data_in pos = .ok b) :
    pos < data_in.length ∧ pos < intMax ∧ b = data_in.getD pos 0#8 := by
  unfold takeByte at h
  split_ifs at h with hlen hint
  exact ⟨not_le.mp hlen, not_le.mp hint, (Except.ok.inj h).symm⟩

theorem takeByte_of {pos : ℕ} (h1 : pos < data_in.length) (h2 : pos < intMax) :
    takeByte data_in pos = .ok (data_in.getD pos 0#8) := by
  rw [takeByte, if_neg (not_le.mpr h1), if_neg (not_le.mpr h2)]

theorem putByte_ok {value : Byte} (h : putByte destlen cpage_out value = .ok out) :
    cpage_out.length < destlen ∧ cpage_out.length < intMax ∧ out = cpage_out ++ [value] := by
  unfold putByte at h
  split_ifs at h with hlen hint
  exact ⟨not_le.mp hlen, not_le.mp hint, (Except.ok.inj h).symm⟩

theorem putByte_of (value : Byte) (h1 : cpage_out.length < destlen)
    (h2 : cpage_out.length < intMax) : putByte destlen cpage_out value = .ok (cpage_out ++ [value]) := by
  rw [putByte, if_neg (not_le.mpr h1), if_neg (not_le.mpr h2)]

/-- A run whose bytes have their places in the output and in front of it. -/
structure SafeRun (destlen repeats : ℕ) (backoffs : ℤ) (cpage_out : List Byte) : Prop where
  back : repeats ≠ 0 → 0 ≤ backoffs
  dest : cpage_out.length+repeats ≤ destlen
  int : cpage_out.length+repeats ≤ intMax

theorem copyLoop_of (hs : SafeRun destlen repeats backoffs cpage_out)
    (hlt : backoffs < cpage_out.length) :
    copyLoop destlen repeats backoffs cpage_out = .ok (copyRun backoffs.toNat repeats cpage_out) := by
  induction repeats generalizing backoffs cpage_out with
  | zero => rfl
  | succ r ih =>
    have hback := hs.back (Nat.succ_ne_zero r)
    have hdest := hs.dest
    have hint := hs.int
    have hread : backByte cpage_out backoffs = .ok (cpage_out.getD backoffs.toNat 0#8) := by
      rw [backByte, if_neg (by omega)]
    rw [copyLoop, hread, ok_bind, putByte_of _ (by omega) (by omega), ok_bind, copyRun]
    have hnext : (backoffs+1).toNat = backoffs.toNat+1 := by omega
    rw [← hnext]
    apply ih
    · constructor
      · exact fun _ => by omega
      · rw [List.length_append, List.length_singleton]
        omega
      · rw [List.length_append, List.length_singleton]
        omega
    · rw [List.length_append, List.length_singleton]
      omega

theorem copyLoop_ok (hdest : cpage_out.length ≤ destlen) (hint : cpage_out.length ≤ intMax)
    (h : copyLoop destlen repeats backoffs cpage_out = .ok out) :
    SafeRun destlen repeats backoffs cpage_out := by
  induction repeats generalizing backoffs cpage_out with
  | zero => exact ⟨fun h0 => absurd rfl h0, hdest, hint⟩
  | succ r ih =>
    obtain ⟨value, hread, h⟩ := bind_eq_ok h
    obtain ⟨next, hput, h⟩ := bind_eq_ok h
    obtain ⟨hlt, hlt', rfl⟩ := putByte_ok hput
    have hback : 0 ≤ backoffs := by
      unfold backByte at hread
      split_ifs at hread with hb
      omega
    have hlen : (cpage_out ++ [value]).length = cpage_out.length+1 := by
      rw [List.length_append, List.length_singleton]
    obtain ⟨-, hdest', hint'⟩ := ih (by omega) (by omega) h
    rw [hlen] at hdest' hint'
    exact ⟨fun _ => hback, by omega, by omega⟩

theorem repeatRun_of (hs : SafeRun destlen repeats backoffs cpage_out)
    (hlt : backoffs < cpage_out.length) :
    repeatRun destlen repeats backoffs cpage_out =
      .ok (putRun backoffs.toNat repeats cpage_out) := by
  unfold repeatRun putRun
  split
  · rfl
  next h0 =>
    have hback := hs.back h0
    have hdest := hs.dest
    have hint := hs.int
    split
    next hle =>
      rw [if_pos (by omega)]
      exact copyLoop_of hs hlt
    next hle =>
      -- the run of `memcpy` ends in front of the place it is written to
      rw [if_neg (by omega), memcpyRun, if_neg (by omega), if_neg (by omega), if_neg (by omega)]

theorem repeatRun_ok (hdest : cpage_out.length ≤ destlen) (hint : cpage_out.length ≤ intMax)
    (h : repeatRun destlen repeats backoffs cpage_out = .ok out) :
    SafeRun destlen repeats backoffs cpage_out := by
  unfold repeatRun at h
  split at h
  next h0 =>
    rw [h0]
    exact ⟨fun hne => absurd rfl hne, hdest, hint⟩
  next h0 =>
    split at h
    · exact copyLoop_ok hdest hint h
    · unfold memcpyRun at h
      split_ifs at h with hb hd hi
      exact ⟨fun _ => by omega, by omega, by omega⟩

/-- What the pass of the unchecked decompressor makes of its variables. -/
def nextPair (data_in : List Byte) (s : Decompressing) : Decompressing :=
  let value := data_in.getD s.pos 0#8
  let repeats := (data_in.getD (s.pos+1) 0#8).toNat
  ⟨s.pos+2, setPosition s.positions value (s.cpage_out.length+1),
    putRun (s.positions value).toNat repeats (s.cpage_out ++ [value])⟩

/-- A pass that stays in its buffers. -/
structure SafePair (data_in : List Byte) (destlen : ℕ) (s : Decompressing) : Prop where
  source : s.pos+2 ≤ data_in.length
  int : s.pos+2 ≤ intMax
  run : SafeRun destlen (data_in.getD (s.pos+1) 0#8).toNat
    (s.positions (data_in.getD s.pos 0#8)) (s.cpage_out ++ [data_in.getD s.pos 0#8])

theorem decompressPair_of {s : Decompressing} (hs : SafePair data_in destlen s)
    (hback : ∀ v, s.positions v ≤ s.cpage_out.length) :
    decompressPair data_in destlen s = .ok (nextPair data_in s) := by
  have hsource := hs.source
  have hint := hs.int
  have hlen (v : Byte) : (s.cpage_out ++ [v]).length = s.cpage_out.length+1 := by
    rw [List.length_append, List.length_singleton]
  have hdest := hs.run.dest
  have hint' := hs.run.int
  rw [hlen] at hdest hint'
  have hlt := hback (data_in.getD s.pos 0#8)
  unfold decompressPair
  rw [takeByte_of (by omega) (by omega), ok_bind, putByte_of _ (by omega) (by omega), ok_bind,
    takeByte_of (by omega) (by omega), ok_bind]
  dsimp only
  rw [repeatRun_of hs.run (by rw [hlen]; omega), ok_bind, hlen]
  rfl

theorem decompressPair_ok {s t : Decompressing} (h : decompressPair data_in destlen s = .ok t) :
    SafePair data_in destlen s := by
  obtain ⟨value, hvalue, h⟩ := bind_eq_ok h
  obtain ⟨next, hput, h⟩ := bind_eq_ok h
  obtain ⟨repeats, hrepeat, h⟩ := bind_eq_ok h
  obtain ⟨out, hrun, -⟩ := bind_eq_ok h
  obtain ⟨-, -, rfl⟩ := takeByte_ok hvalue
  obtain ⟨hsource, hint, rfl⟩ := takeByte_ok hrepeat
  obtain ⟨hdest, hint', rfl⟩ := putByte_ok hput
  refine ⟨hsource, hint, repeatRun_ok ?_ ?_ hrun⟩
  · rw [List.length_append, List.length_singleton]
    exact hdest
  · rw [List.length_append, List.length_singleton]
    exact hint'

end Passes

section Pairs

/-- The byte of pair number `i`. -/
def pairValue (data_in : List Byte) (i : ℕ) : Byte := data_in.getD (2*i) 0#8

/-- The length of its run. -/
def pairRun (data_in : List Byte) (i : ℕ) : ℕ := (data_in.getD (2*i+1) 0#8).toNat

/-- Where the output of pair number `i` starts. -/
def outStart (data_in : List Byte) : ℕ → ℕ
  | 0 => 0
  | i+1 => outStart data_in i+1+pairRun data_in i

/-- Pair number `j` is the last one in front of pair number `i` that has its byte. -/
def LastBefore (data_in : List Byte) (i j : ℕ) : Prop :=
  j < i ∧ pairValue data_in j = pairValue data_in i ∧
    ∀ k, j < k → k < i → pairValue data_in k ≠ pairValue data_in i

/-- The first `n` pairs of the source are an output of `destlen` bytes. -/
structure PairsFill (data_in : List Byte) (destlen n : ℕ) : Prop where
  fill : outStart data_in n = destlen
  source : 2*n ≤ data_in.length
  source_int : 2*n ≤ intMax
  dest_int : destlen ≤ intMax
  /-- No run starts at a place that is negative as a `short`. -/
  back : ∀ i < n, pairRun data_in i ≠ 0 → ∀ j, LastBefore data_in i j →
    0 ≤ short (outStart data_in j+1)

/-- The table `positions` in front of pair number `i`. -/
def positionsAt (data_in : List Byte) : ℕ → Byte → ℤ
  | 0 => fun _ => 0
  | i+1 => setPosition (positionsAt data_in i) (pairValue data_in i) (outStart data_in i+1)

variable {data_in : List Byte} {destlen : ℕ}

theorem positionsAt_none {v : Byte} {i : ℕ} (h : ∀ j < i, pairValue data_in j ≠ v) :
    positionsAt data_in i v = 0 := by
  induction i with
  | zero => rfl
  | succ i ih =>
    have hne : v ≠ pairValue data_in i := (h i (Nat.lt_succ_self i)).symm
    rw [positionsAt, setPosition, Function.update_of_ne hne]
    exact ih fun j hj => h j (Nat.lt_succ_of_lt hj)

theorem positionsAt_last {v : Byte} {i j : ℕ} (hj : j < i) (hv : pairValue data_in j = v)
    (hlast : ∀ k, j < k → k < i → pairValue data_in k ≠ v) :
    positionsAt data_in i v = short (outStart data_in j+1) := by
  induction i with
  | zero => exact absurd hj (Nat.not_lt_zero j)
  | succ i ih =>
    rw [positionsAt, setPosition]
    rcases Nat.lt_succ_iff_lt_or_eq.mp hj with hlt | rfl
    · have hne : v ≠ pairValue data_in i := (hlast i hlt (Nat.lt_succ_self i)).symm
      rw [Function.update_of_ne hne]
      exact ih hlt fun k hk hki => hlast k hk (Nat.lt_succ_of_lt hki)
    · rw [← hv, Function.update_self]

theorem short_le (n : ℕ) : short n ≤ n := by
  unfold short
  rw [Int.bmod_def]
  omega

theorem outStart_lt (i : ℕ) : outStart data_in i < outStart data_in (i+1) := by
  rw [outStart]
  omega

theorem outStart_mono : Monotone (outStart data_in) :=
  monotone_nat_of_le_succ fun i => (outStart_lt i).le

/-- A run starts in front of the place that it is written to. -/
theorem positionsAt_le (i : ℕ) (v : Byte) : positionsAt data_in i v ≤ outStart data_in i := by
  induction i with
  | zero => exact le_refl _
  | succ i ih =>
    rw [positionsAt, setPosition]
    by_cases hv : v = pairValue data_in i
    · rw [hv, Function.update_self, outStart]
      have := short_le (outStart data_in i+1)
      omega
    · rw [Function.update_of_ne hv, outStart]
      omega

/-- The variables in front of pair number `i`. -/
def pairState (data_in : List Byte) (i : ℕ) (cpage_out : List Byte) : Decompressing :=
  ⟨2*i, positionsAt data_in i, cpage_out⟩

theorem copyRun_length (repeats : ℕ) (backoffs : ℕ) (cpage_out : List Byte) :
    (copyRun backoffs repeats cpage_out).length = cpage_out.length+repeats := by
  induction repeats generalizing backoffs cpage_out with
  | zero => rfl
  | succ r ih =>
    rw [copyRun, ih, List.length_append, List.length_singleton]
    omega

theorem putRun_length {repeats backoffs : ℕ} {cpage_out : List Byte} :
    (putRun backoffs repeats cpage_out).length = cpage_out.length+repeats := by
  unfold putRun
  split_ifs with h0 hle
  · rw [h0, Nat.add_zero]
  · exact copyRun_length _ _ _
  · rw [List.length_append, List.length_take, List.length_drop, min_eq_left (by omega)]

theorem nextPair_state {i : ℕ} {cpage_out : List Byte} (hlen : cpage_out.length = outStart data_in i) :
    ∃ out, nextPair data_in (pairState data_in i cpage_out) = pairState data_in (i+1) out ∧
      out.length = outStart data_in (i+1) := by
  refine ⟨(nextPair data_in (pairState data_in i cpage_out)).cpage_out, ?_, ?_⟩
  · unfold nextPair pairState
    dsimp only
    rw [hlen]
    rfl
  · unfold nextPair
    rw [putRun_length, List.length_append, List.length_singleton]
    exact congrArg (fun n => n+1+pairRun data_in i) hlen

/-- The pass over pair number `i` stays in its buffers, said in terms of the source. -/
structure SafeAt (data_in : List Byte) (destlen i : ℕ) : Prop where
  source : 2*(i+1) ≤ data_in.length
  source_int : 2*(i+1) ≤ intMax
  dest : outStart data_in (i+1) ≤ destlen
  dest_int : outStart data_in (i+1) ≤ intMax
  back : pairRun data_in i ≠ 0 → 0 ≤ positionsAt data_in i (pairValue data_in i)

theorem safePair_iff {i : ℕ} {cpage_out : List Byte} (hlen : cpage_out.length = outStart data_in i) :
    SafePair data_in destlen (pairState data_in i cpage_out) ↔ SafeAt data_in destlen i := by
  have hlen' (v : Byte) : (cpage_out ++ [v]).length+pairRun data_in i = outStart data_in (i+1) := by
    rw [List.length_append, List.length_singleton, hlen, outStart]
  constructor
  · rintro ⟨hsource, hint, hback, hdest, hint'⟩
    have hd := (hlen' _).symm.trans_le hdest
    have hi := (hlen' _).symm.trans_le hint'
    exact ⟨hsource, hint, hd, hi, hback⟩
  · rintro ⟨hsource, hint, hdest, hint', hback⟩
    exact ⟨hsource, hint, hback, (hlen' _).trans_le hdest, (hlen' _).trans_le hint'⟩

/-- From pair number `i` on, the loop comes to its end without a fault if and only if the pairs up
to the end of the output are safe. -/
theorem decompressPairs_ok_iff (k i : ℕ) (cpage_out : List Byte)
    (hlen : cpage_out.length = outStart data_in i) (hle : outStart data_in i ≤ destlen)
    (hk : destlen < outStart data_in i+k) :
    (∃ out, decompressPairs data_in destlen k (pairState data_in i cpage_out) = .ok out) ↔
      ∃ n, i ≤ n ∧ outStart data_in n = destlen ∧ ∀ m, i ≤ m → m < n → SafeAt data_in destlen m := by
  induction k generalizing i cpage_out with
  | zero => omega
  | succ k ih =>
    rw [decompressPairs]
    have hlen' : (pairState data_in i cpage_out).cpage_out.length = outStart data_in i := hlen
    rw [hlen']
    split
    next hlt =>
      have hmore : ∀ n, i ≤ n → outStart data_in n = destlen → i < n := by
        intro n hin hn
        refine lt_of_le_of_ne hin ?_
        rintro rfl
        omega
      by_cases hsafe : SafeAt data_in destlen i
      · obtain ⟨out, hnext, hout⟩ := nextPair_state hlen
        have hstep := decompressPair_of ((safePair_iff hlen).mpr hsafe) fun v => by
          rw [hlen']
          exact positionsAt_le i v
        have hgrow := @outStart_lt data_in i
        rw [hstep, ok_bind, hnext, ih (i+1) out hout hsafe.dest (by omega)]
        constructor
        · rintro ⟨n, hin, hn, hall⟩
          refine ⟨n, by omega, hn, fun m him hmn => ?_⟩
          rcases Nat.eq_or_lt_of_le him with rfl | hlt'
          · exact hsafe
          · exact hall m hlt' hmn
        · rintro ⟨n, hin, hn, hall⟩
          exact ⟨n, hmore n hin hn, hn, fun m him hmn => hall m (by omega) hmn⟩
      · constructor
        · rintro ⟨out, hrun⟩
          obtain ⟨t, hstep, -⟩ := bind_eq_ok hrun
          exact absurd ((safePair_iff hlen).mp (decompressPair_ok hstep)) hsafe
        · rintro ⟨n, hin, hn, hall⟩
          exact absurd (hall i (le_refl i) (hmore n hin hn)) hsafe
    next hge =>
      have heq : outStart data_in i = destlen := by omega
      exact ⟨fun _ => ⟨i, le_refl i, heq, fun m him hmi => by omega⟩, fun _ => ⟨_, rfl⟩⟩

/-- The pairs are safe one by one if and only if they fill the output. -/
theorem safeAt_all_iff {n : ℕ} (hn : outStart data_in n = destlen) :
    (∀ m < n, SafeAt data_in destlen m) ↔ PairsFill data_in destlen n := by
  constructor
  · intro h
    cases n with
    | zero =>
      have h0 : destlen = 0 := hn.symm
      exact ⟨hn, by omega, by omega, by omega, fun i hi => absurd hi (Nat.not_lt_zero i)⟩
    | succ n =>
      have hlast := h n (Nat.lt_succ_self n)
      refine ⟨hn, hlast.source, hlast.source_int, hn ▸ hlast.dest_int, ?_⟩
      rintro i hi hrun j ⟨hj, hv, hk⟩
      have := (h i hi).back hrun
      rwa [positionsAt_last hj hv hk] at this
  · intro h m hm
    have hle : outStart data_in (m+1) ≤ destlen := hn ▸ outStart_mono hm
    have hsource := h.source
    have hint := h.source_int
    refine ⟨by omega, by omega, hle, hle.trans h.dest_int, fun hrun => ?_⟩
    by_cases hex : ∃ j < m, pairValue data_in j = pairValue data_in m
    · -- the last of the pairs with this byte
      have hmax := Nat.findGreatest_spec
        (P := fun j => j < m ∧ pairValue data_in j = pairValue data_in m) hex.choose_spec.1.le hex.choose_spec
      have hlast : LastBefore data_in m
          (Nat.findGreatest (fun j => j < m ∧ pairValue data_in j = pairValue data_in m) m) := by
        refine ⟨hmax.1, hmax.2, fun k hk hkm hv => ?_⟩
        exact absurd (Nat.le_findGreatest hkm.le ⟨hkm, hv⟩) (not_le.mpr hk)
      rw [positionsAt_last hlast.1 hlast.2.1 hlast.2.2]
      exact h.back m hm hrun _ hlast
    · have hnone : ∀ j < m, pairValue data_in j ≠ pairValue data_in m :=
        fun j hj hv => hex ⟨j, hj, hv⟩
      rw [positionsAt_none hnone]

end Pairs

section Result

variable {data_in : List Byte} {destlen : ℕ}

theorem copyLoop_ends (repeats : ℕ) (backoffs : ℤ) (cpage_out : List Byte) :
    copyLoop destlen repeats backoffs cpage_out ≠ .error .unfinished := by
  induction repeats generalizing backoffs cpage_out with
  | zero => exact nofun
  | succ r ih =>
    apply bind_ne_error
    · unfold backByte
      split_ifs <;> exact nofun
    · intro value _
      apply bind_ne_error
      · unfold putByte
        split_ifs <;> exact nofun
      · exact fun next _ => ih (backoffs+1) next

theorem decompressPair_ends (s : Decompressing) :
    decompressPair data_in destlen s ≠ .error .unfinished := by
  have htake (pos : ℕ) : takeByte data_in pos ≠ .error .unfinished := by
    unfold takeByte
    split_ifs <;> exact nofun
  apply bind_ne_error (htake _)
  intro value _
  apply bind_ne_error
  · unfold putByte
    split_ifs <;> exact nofun
  intro next _
  apply bind_ne_error (htake _)
  intro repeats _
  refine bind_ne_error ?_ fun out _ => nofun
  unfold repeatRun memcpyRun
  split_ifs
  · exact nofun
  · exact copyLoop_ends _ _ _
  all_goals exact nofun

/-- Each pass makes the output longer. -/
theorem decompressPairs_ends (k i : ℕ) (cpage_out : List Byte)
    (hlen : cpage_out.length = outStart data_in i) (hle : outStart data_in i ≤ destlen)
    (hk : destlen < outStart data_in i+k) :
    decompressPairs data_in destlen k (pairState data_in i cpage_out) ≠ .error .unfinished := by
  induction k generalizing i cpage_out with
  | zero => omega
  | succ k ih =>
    rw [decompressPairs]
    split
    next hlt =>
      have hlt' : outStart data_in i < destlen := hlen ▸ hlt
      cases hstep : decompressPair data_in destlen (pairState data_in i cpage_out) with
      | error e =>
        intro herr
        exact decompressPair_ends _ (hstep.trans (congrArg Except.error (Except.error.inj herr)))
      | ok t =>
        have hsafe := decompressPair_ok hstep
        rw [decompressPair_of hsafe fun v => by
          have := @positionsAt_le data_in i v
          exact hlen.symm ▸ this] at hstep
        obtain rfl := Except.ok.inj hstep
        obtain ⟨out, hnext, hout⟩ := nextPair_state hlen
        have hgrow := @outStart_lt data_in i
        rw [ok_bind, hnext]
        exact ih (i+1) out hout ((safePair_iff hlen).mp hsafe).dest (by omega)
    · exact nofun

/-- The bytes of a run without a fault are those of the unchecked decompressor. -/
theorem decompressPairs_bytes (k i : ℕ) (cpage_out out : List Byte)
    (hlen : cpage_out.length = outStart data_in i)
    (hrun : decompressPairs data_in destlen k (pairState data_in i cpage_out) = .ok out)
    (j : ℕ) (hj : destlen ≤ outStart data_in i+j) :
    decompressLoop data_in destlen j (2*i) (positionsAt data_in i) cpage_out = out := by
  induction k generalizing i cpage_out j with
  | zero => cases hrun
  | succ k ih =>
    rw [decompressPairs] at hrun
    split at hrun
    next hlt =>
      have hlt' : outStart data_in i < destlen := hlen ▸ hlt
      obtain ⟨t, hstep, hrun⟩ := bind_eq_ok hrun
      have hsafe := decompressPair_ok hstep
      rw [decompressPair_of hsafe fun v => by
        have := @positionsAt_le data_in i v
        exact hlen.symm ▸ this] at hstep
      obtain rfl := Except.ok.inj hstep
      obtain ⟨next, hnext, hout⟩ := nextPair_state hlen
      have hgrow := @outStart_lt data_in i
      rw [hnext] at hrun
      cases j with
      | zero => omega
      | succ j =>
        rw [decompressLoop, if_pos (hlen ▸ hlt')]
        dsimp only
        have hfields : 2*i+2 = 2*(i+1) ∧ setPosition (positionsAt data_in i) (pairValue data_in i)
            (cpage_out ++ [pairValue data_in i]).length = positionsAt data_in (i+1) ∧
            putRun (positionsAt data_in i (pairValue data_in i)).toNat (pairRun data_in i)
              (cpage_out ++ [pairValue data_in i]) = next := by
          refine ⟨rfl, ?_, congrArg Decompressing.cpage_out hnext⟩
          rw [List.length_append, List.length_singleton, hlen]
          rfl
        obtain ⟨hpos, hpositions, hput⟩ := hfields
        unfold pairValue at hpositions hput
        unfold pairRun at hput
        rw [hpos, hpositions, hput]
        exact ih (i+1) next hout hrun j (by omega)
    next hge =>
      obtain rfl := Except.ok.inj hrun
      have hge' : ¬ cpage_out.length < destlen := hge
      cases j with
      | zero => rfl
      | succ j =>
        rw [decompressLoop, if_neg hge']
        rfl

theorem rtimeDecompressIn_bytes {out : List Byte} (h : rtimeDecompressIn data_in destlen = .ok out) :
    jffs2RtimeDecompress data_in destlen = out :=
  decompressPairs_bytes (destlen+1) 0 [] out rfl h destlen (Nat.le_add_left _ _)

/-- There is no fault if and only if the pairs at the front of the source fill the output. -/
theorem rtimeDecompressIn_ok_iff (data_in : List Byte) (destlen : ℕ) :
    (∃ out, rtimeDecompressIn data_in destlen = .ok out) ↔ ∃ n, PairsFill data_in destlen n := by
  have hfuel : destlen < outStart data_in 0+(destlen+1) := by
    rw [outStart]
    omega
  unfold rtimeDecompressIn
  refine (decompressPairs_ok_iff (destlen+1) 0 [] rfl (Nat.zero_le _) hfuel).trans ?_
  constructor
  · rintro ⟨n, -, hn, hall⟩
    exact ⟨n, (safeAt_all_iff hn).mp fun m hm => hall m (Nat.zero_le m) hm⟩
  · rintro ⟨n, hfill⟩
    exact ⟨n, Nat.zero_le n, hfill.fill, fun m _ hm => (safeAt_all_iff hfill.fill).mpr hfill m hm⟩

/-- The decompressor comes to its end or to a fault. It has no fault if and only if the pairs at the
front of the source fill the output. -/
theorem rtime_in_bounds_iff (data_in : List Byte) (destlen : ℕ) :
    rtimeDecompressIn data_in destlen ≠ .error .unfinished ∧
      ((∃ out, rtimeDecompressIn data_in destlen = .ok out) ↔ ∃ n, PairsFill data_in destlen n) := by
  refine ⟨decompressPairs_ends (destlen+1) 0 [] rfl (Nat.zero_le _) ?_,
    rtimeDecompressIn_ok_iff data_in destlen⟩
  rw [outStart]
  omega

end Result

section Received

/-- The inner loop of `jffs2_rtime_compress` where the source is a part of the buffer of
`write_regular_file`: a place that is negative as a `short` is in front of it. -/
def runLengthAround (buf : ℤ → Byte) (sourcelen : ℕ) : ℕ → ℤ → ℕ → ℕ → ℕ
  | 0, _, _, runlen => runlen
  | k+1, backpos, pos, runlen =>
    if backpos < pos ∧ pos < sourcelen ∧ buf pos = buf backpos ∧ runlen < 255 then
      runLengthAround buf sourcelen k (backpos+1) (pos+1) (runlen+1)
    else runlen

def compressStepAround (buf : ℤ → Byte) (sourcelen : ℕ) (s : Compressing) : Compressing :=
  let value := buf s.pos
  let pos := s.pos+1
  let runlen := runLengthAround buf sourcelen 256 (s.positions value) pos 0
  ⟨pos+runlen, setPosition s.positions value pos, s.cpage_out ++ [value, BitVec.ofNat 8 runlen]⟩

def compressLoopAround (buf : ℤ → Byte) (sourcelen dstlen : ℕ) : ℕ → Compressing → Compressing
  | 0, s => s
  | k+1, s =>
    if s.pos < sourcelen ∧ s.cpage_out.length+2 ≤ dstlen then
      compressLoopAround buf sourcelen dstlen k (compressStepAround buf sourcelen s)
    else s

/-- `jffs2_rtime_compress` of a source of any length, with what stands around it. -/
def rtimeCompressAround (buf : ℤ → Byte) (sourcelen dstlen : ℕ) : Option (List Byte × ℕ) :=
  let s := compressLoopAround buf sourcelen dstlen sourcelen ⟨0, fun _ => 0, []⟩
  if s.pos ≤ s.cpage_out.length then none else some (s.cpage_out, s.pos)

variable {buf : ℤ → Byte} {sourcelen dstlen : ℕ}

theorem runLengthAround_eq (k backpos pos runlen : ℕ) :
    runLengthAround buf sourcelen k backpos pos runlen =
      runLength (fun i => buf i) sourcelen k backpos pos runlen := by
  induction k generalizing backpos pos runlen with
  | zero => rfl
  | succ k ih =>
    have hnext := ih (backpos+1) (pos+1) (runlen+1)
    rw [Nat.cast_add, Nat.cast_one] at hnext
    rw [runLengthAround, runLength, hnext]
    simp only [Nat.cast_lt]

theorem setPosition_nonneg {positions : Byte → ℤ} (hp : ∀ v, 0 ≤ positions v) {n : ℕ}
    (hn : n ≤ 32767) (value : Byte) : ∀ v, 0 ≤ setPosition positions value n v := by
  intro v
  unfold setPosition
  by_cases hv : v = value
  · rw [hv, Function.update_self, short_eq hn]
    exact Int.natCast_nonneg n
  · rw [Function.update_of_ne hv]
    exact hp v

/-- A source of at most 32767 bytes is compressed without a look at what stands around it. -/
theorem compressLoopAround_eq (hlen : sourcelen ≤ 32767) (k : ℕ) (s : Compressing)
    (hp : ∀ v, 0 ≤ s.positions v) :
    compressLoopAround buf sourcelen dstlen k s =
      compressLoop (fun i => buf i) sourcelen dstlen k s := by
  induction k generalizing s with
  | zero => rfl
  | succ k ih =>
    rw [compressLoopAround, compressLoop]
    split
    next hgo =>
      have hstep : compressStepAround buf sourcelen s = compressStep (fun i => buf i) sourcelen s := by
        unfold compressStepAround compressStep
        dsimp only
        rw [← runLengthAround_eq, Int.toNat_of_nonneg (hp _)]
      rw [hstep]
      exact ih _ (setPosition_nonneg hp (by omega) _)
    · rfl

theorem rtimeCompressAround_eq (hlen : sourcelen ≤ 32767) :
    rtimeCompressAround buf sourcelen dstlen =
      jffs2RtimeCompress (fun i => buf i) sourcelen dstlen := by
  unfold rtimeCompressAround jffs2RtimeCompress
  rw [compressLoopAround_eq hlen _ _ fun _ => le_rfl]

/-- A run goes on while the bytes are the same. -/
theorem runLengthAround_same {k r pos runlen : ℕ} {backpos : ℤ} (hr : r+runlen = 255) (hk : r < k)
    (hback : backpos < pos) (hin : pos+r ≤ sourcelen)
    (hsame : ∀ j < r, buf (pos+j) = buf (backpos+j)) :
    runLengthAround buf sourcelen k backpos pos runlen = 255 := by
  induction r generalizing k pos runlen backpos with
  | zero =>
    cases k with
    | zero => omega
    | succ k =>
      rw [runLengthAround, if_neg (by omega)]
      omega
  | succ r ih =>
    cases k with
    | zero => omega
    | succ k =>
      have hfirst := hsame 0 (Nat.succ_pos r)
      rw [Nat.cast_zero, add_zero, add_zero] at hfirst
      rw [runLengthAround, if_pos ⟨hback, by omega, hfirst, by omega⟩]
      refine ih (by omega) (by omega) (by omega) (by omega) fun j hj => ?_
      have := hsame (j+1) (by omega)
      rw [Nat.cast_add, Nat.cast_one] at this ⊢
      convert this using 2 <;> ring

/-- A source of zeros, with zeros where a run begins that is copied from a negative place. -/
structure ZerosAround (buf : ℤ → Byte) (n : ℕ) : Prop where
  inside : ∀ i : ℤ, 0 ≤ i → i < 256*n → buf i = 0#8
  front : ∀ i : ℤ, -32767 ≤ i → i < -32512 → buf i = 0#8

/-- `n` pairs of a zero and a run of 255 bytes. -/
def zeroPairs (n : ℕ) : List Byte := (List.replicate n [0#8, 255#8]).flatten

theorem zeroPairs_succ (n : ℕ) : zeroPairs (n+1) = zeroPairs n ++ [0#8, 255#8] := by
  unfold zeroPairs
  rw [List.replicate_succ', List.flatten_concat]

theorem zeroPairs_length (n : ℕ) : (zeroPairs n).length = 2*n := by
  induction n with
  | zero => rfl
  | succ n ih =>
    rw [zeroPairs_succ, List.length_append, ih]
    rfl

/-- The table behind `i` pairs. -/
def zeroPositions : ℕ → Byte → ℤ
  | 0 => fun _ => 0
  | i+1 => setPosition (zeroPositions i) 0#8 (256*i+1)

/-- The place of the last zero is in the source, or 32767 bytes in front of it. -/
theorem zeroPositions_zero {i : ℕ} (hi : i < 130) :
    (0 ≤ zeroPositions i 0#8 ∧ zeroPositions i 0#8 ≤ 256*i) ∨ zeroPositions i 0#8 = -32767 := by
  cases i with
  | zero => exact Or.inl ⟨le_rfl, le_rfl⟩
  | succ i =>
    rw [zeroPositions, setPosition, Function.update_self]
    by_cases hlast : i = 128
    · right
      rw [hlast]
      rfl
    · left
      rw [short_eq (by omega)]
      omega

/-- A pass of the compressor on the zeros. -/
theorem compressStepAround_zeros (hz : ZerosAround buf 130) {i : ℕ} (hi : i < 130) :
    compressStepAround buf (256*130) ⟨256*i, zeroPositions i, zeroPairs i⟩ =
      ⟨256*(i+1), zeroPositions (i+1), zeroPairs (i+1)⟩ := by
  have hvalue : buf ((256*i : ℕ) : ℤ) = 0#8 := hz.inside _ (by omega) (by omega)
  have hrun : runLengthAround buf (256*130) 256 (zeroPositions i 0#8) (256*i+1) 0 = 255 := by
    refine runLengthAround_same (r := 255) rfl (by omega) ?_ (by omega) fun j hj => ?_
    · rcases zeroPositions_zero hi with ⟨-, hle⟩ | hneg <;> omega
    · rw [hz.inside _ (by omega) (by omega)]
      rcases zeroPositions_zero hi with ⟨hnonneg, hle⟩ | hneg
      · exact (hz.inside _ (by omega) (by omega)).symm
      · rw [hneg]
        exact (hz.front _ (by omega) (by omega)).symm
  unfold compressStepAround
  dsimp only
  rw [hvalue, hrun, zeroPairs_succ]
  rfl

/-- They are compressed to pairs with a run of 255 bytes each. -/
theorem rtimeCompressAround_zeros (hz : ZerosAround buf 130) (hdst : 260 ≤ dstlen) :
    rtimeCompressAround buf (256*130) dstlen = some (zeroPairs 130, 256*130) := by
  have hloop (k i : ℕ) (hi : i ≤ 130) (hk : 130 ≤ i+k) :
      compressLoopAround buf (256*130) dstlen k ⟨256*i, zeroPositions i, zeroPairs i⟩ =
        ⟨256*130, zeroPositions 130, zeroPairs 130⟩ := by
    induction k generalizing i with
    | zero =>
      obtain rfl : i = 130 := by omega
      rfl
    | succ k ih =>
      rw [compressLoopAround, zeroPairs_length]
      split
      next hgo =>
        dsimp only at hgo
        have hlt : i < 130 := by omega
        rw [compressStepAround_zeros hz hlt]
        exact ih (i+1) hlt (by omega)
      next hstop =>
        dsimp only at hstop
        obtain rfl : i = 130 := by omega
        rfl
  unfold rtimeCompressAround
  have hall := hloop (256*130) 0 (by omega) (by omega)
  have hstart : (⟨256*0, zeroPositions 0, zeroPairs 0⟩ : Compressing) = ⟨0, fun _ => 0, []⟩ := rfl
  rw [hstart] at hall
  rw [hall]
  dsimp only
  rw [zeroPairs_length, if_neg (by omega)]

/-- The buffer of `write_regular_file` around its last 33280 bytes, which are zeros: there are few runs
in front of them, and the zeros of one run 32767 bytes in front. -/
def zeroTail (i : ℤ) : Byte :=
  if 0 ≤ i ∨ (-32767 ≤ i ∧ i < -32512) then 0#8
  else BitVec.ofNat 8 (1+((i+40516).toNat^2/3)%251)

/-- What the compressor makes of the zeros is decompressed with a fault: the run of the last pair begins
32767 bytes in front of the output. -/
theorem rtime_overruns :
    rtimeCompressAround zeroTail 33280 8112 = some (zeroPairs 130, 33280) ∧
      ¬ ∃ out, rtimeDecompressIn (zeroPairs 130) 33280 = .ok out := by
  refine ⟨rtimeCompressAround_zeros ⟨?_, ?_⟩ (by decide), fun hok => ?_⟩
  · intro i hi _
    exact if_pos (Or.inl hi)
  · intro i hi hi'
    exact if_pos (Or.inr ⟨hi, hi'⟩)
  · obtain ⟨n, hfill⟩ := (rtimeDecompressIn_ok_iff _ _).mp hok
    have hruns : ∀ m < 130, pairRun (zeroPairs 130) m = 255 := by decide +kernel
    have hstart : ∀ m ≤ 130, outStart (zeroPairs 130) m = 256*m := by
      intro m hm
      induction m with
      | zero => rfl
      | succ m ih =>
        rw [outStart, hruns m hm, ih (Nat.le_of_succ_le hm)]
        omega
    have hn : 130 ≤ n := by
      by_contra hlt
      have := hfill.fill
      rw [hstart n (by omega)] at this
      omega
    -- the pair in front of it is behind 32768 bytes
    have hlast : LastBefore (zeroPairs 130) 129 128 :=
      ⟨by omega, by decide +kernel, fun k h1 h2 => by omega⟩
    have hback := hfill.back 129 (by omega) (by rw [hruns 129 (by omega)]; decide) 128 hlast
    rw [hstart 128 (by omega)] at hback
    exact absurd hback (by decide)

end Received

end ChipTools.Jffs2
