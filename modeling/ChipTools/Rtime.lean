import ChipTools.Bytes

/-! The `rtime` compressor of JFFS2. Compressor and decompressor keep the place behind the last
occurrence of each byte, and a run is copied from there. -/
namespace ChipTools.Jffs2
open Bytes

/-- What a `short` keeps of an `int`. -/
def short (n : ℕ) : ℤ := Int.bmod n (2^16)

/-- The table `positions`, as it is after `positions[value] = pos`. -/
def setPosition (positions : Byte → ℤ) (value : Byte) (pos : ℕ) : Byte → ℤ :=
  Function.update positions value (short pos)

/-- The inner loop of `jffs2_rtime_compress`: the length of the run. -/
def runLength (data_in : ℕ → Byte) (sourcelen : ℕ) : ℕ → ℕ → ℕ → ℕ → ℕ
  | 0, _, _, runlen => runlen
  | k+1, backpos, pos, runlen =>
    if backpos < pos ∧ pos < sourcelen ∧ data_in pos = data_in backpos ∧ runlen < 255 then
      runLength data_in sourcelen k (backpos+1) (pos+1) (runlen+1)
    else runlen

structure Compressing where
  pos : ℕ
  positions : Byte → ℤ
  cpage_out : List Byte

/-- One pass of the outer loop. -/
def compressStep (data_in : ℕ → Byte) (sourcelen : ℕ) (s : Compressing) : Compressing :=
  let value := data_in s.pos
  let pos := s.pos+1
  let runlen := runLength data_in sourcelen 256 (s.positions value).toNat pos 0
  ⟨pos+runlen, setPosition s.positions value pos, s.cpage_out ++ [value, BitVec.ofNat 8 runlen]⟩

def compressLoop (data_in : ℕ → Byte) (sourcelen dstlen : ℕ) : ℕ → Compressing → Compressing
  | 0, s => s
  | k+1, s =>
    if s.pos < sourcelen ∧ s.cpage_out.length+2 ≤ dstlen then
      compressLoop data_in sourcelen dstlen k (compressStep data_in sourcelen s)
    else s

/-- `jffs2_rtime_compress`: the output and the updated `*sourcelen`, or nothing for `-1`. -/
def jffs2RtimeCompress (data_in : ℕ → Byte) (sourcelen dstlen : ℕ) : Option (List Byte × ℕ) :=
  let s := compressLoop data_in sourcelen dstlen sourcelen ⟨0, fun _ => 0, []⟩
  if s.pos ≤ s.cpage_out.length then none else some (s.cpage_out, s.pos)

/-- The loop that copies byte by byte, from what it may have written itself. -/
def copyRun (backoffs : ℕ) : ℕ → List Byte → List Byte
  | 0, cpage_out => cpage_out
  | repeats+1, cpage_out =>
    copyRun (backoffs+1) repeats (cpage_out ++ [cpage_out.getD backoffs 0#8])

/-- A run, by the loop when it overlaps the output and by `memcpy` else. -/
def putRun (backoffs repeats : ℕ) (cpage_out : List Byte) : List Byte :=
  if repeats = 0 then cpage_out
  else if cpage_out.length ≤ backoffs+repeats then copyRun backoffs repeats cpage_out
  else cpage_out ++ (cpage_out.drop backoffs).take repeats

/-- The loop of `jffs2_rtime_decompress`. -/
def decompressLoop (data_in : List Byte) (destlen : ℕ) :
    ℕ → ℕ → (Byte → ℤ) → List Byte → List Byte
  | 0, _, _, cpage_out => cpage_out
  | k+1, pos, positions, cpage_out =>
    if cpage_out.length < destlen then
      let value := data_in.getD pos 0#8
      let cpage_out := cpage_out ++ [value]
      let repeats := (data_in.getD (pos+1) 0#8).toNat
      decompressLoop data_in destlen k (pos+2) (setPosition positions value cpage_out.length)
        (putRun (positions value).toNat repeats cpage_out)
    else cpage_out

def jffs2RtimeDecompress (data_in : List Byte) (destlen : ℕ) : List Byte :=
  decompressLoop data_in destlen destlen 0 (fun _ => 0) []

section Runs

variable {data_in : ℕ → Byte} {sourcelen : ℕ}

/-- A run repeats what stands at its back position, and is short and inside the input. -/
theorem runLength_spec (k backpos pos runlen : ℕ) (hrun : runlen ≤ 255) :
    ∃ r, runLength data_in sourcelen k backpos pos runlen = runlen+r ∧ runlen+r ≤ 255 ∧
      (r = 0 ∨ pos+r ≤ sourcelen) ∧ ∀ j < r, data_in (pos+j) = data_in (backpos+j) := by
  induction k generalizing backpos pos runlen with
  | zero => exact ⟨0, rfl, hrun, Or.inl rfl, fun j hj => absurd hj (Nat.not_lt_zero j)⟩
  | succ k ih =>
    rw [runLength]
    split
    next h =>
      obtain ⟨-, hpos, hbyte, hlt⟩ := h
      obtain ⟨r, heq, hle, hin, hsame⟩ := ih (backpos+1) (pos+1) (runlen+1) hlt
      refine ⟨r+1, by rw [heq]; omega, by omega, Or.inr (by omega), fun j hj => ?_⟩
      cases j with
      | zero => exact hbyte
      | succ j =>
        have := hsame j (by omega)
        rwa [Nat.add_right_comm, Nat.add_right_comm backpos] at this
    · exact ⟨0, rfl, hrun, Or.inl rfl, fun j hj => absurd hj (Nat.not_lt_zero j)⟩

/-- The input up to `n` is what the decompressor has when it has written `n` bytes. -/
theorem getD_done {n j : ℕ} (hj : j < n) : (readBytes data_in 0 n).getD j 0#8 = data_in j := by
  have hlt : j < (readBytes data_in 0 n).length := by rwa [readBytes_length]
  rw [List.getD_eq_getElem?_getD, List.getElem?_eq_getElem hlt]
  simp only [readBytes, List.getElem_map, List.getElem_range, Nat.zero_add, Option.getD_some]

theorem done_concat (n : ℕ) : readBytes data_in 0 n ++ [data_in n] = readBytes data_in 0 (n+1) := by
  rw [readBytes_add, Nat.zero_add]
  rfl

theorem copyRun_spec (r b n : ℕ) (hb : b < n) (hsame : ∀ j < r, data_in (n+j) = data_in (b+j)) :
    copyRun b r (readBytes data_in 0 n) = readBytes data_in 0 (n+r) := by
  induction r generalizing b n with
  | zero => rfl
  | succ r ih =>
    have hfirst : data_in n = data_in b := hsame 0 (Nat.succ_pos r)
    rw [copyRun, getD_done hb, ← hfirst, done_concat, ih (b+1) (n+1) (by omega) fun j hj => ?_]
    · rw [Nat.add_right_comm, Nat.add_assoc]
    · have := hsame (j+1) (by omega)
      rwa [← Nat.add_assoc, ← Nat.add_assoc, Nat.add_right_comm, Nat.add_right_comm b] at this

theorem putRun_spec (r b n : ℕ) (hb : b < n) (hsame : ∀ j < r, data_in (n+j) = data_in (b+j)) :
    putRun b r (readBytes data_in 0 n) = readBytes data_in 0 (n+r) := by
  unfold putRun
  split
  next h => rw [h, Nat.add_zero]
  · rw [readBytes_length]
    split
    · exact copyRun_spec r b n hb hsame
    next hgt =>
      -- the run lies before the output, as `memcpy` needs it
      rw [readBytes_drop _ _ hb.le, Nat.zero_add, readBytes_take _ _ (by omega), readBytes_add,
        Nat.zero_add]
      congr 1
      exact List.map_congr_left fun j hj => (hsame j (List.mem_range.mp hj)).symm

end Runs

section RoundTrip

variable {data_in : ℕ → Byte} {sourcelen dstlen : ℕ}

theorem short_eq {n : ℕ} (h : n ≤ 32767) : short n = n := by
  unfold short
  rw [Int.bmod_eq_of_le] <;> omega

/-- The places in the table are behind bytes that are done. -/
structure Compressing.Fits (s : Compressing) (sourcelen dstlen : ℕ) : Prop where
  pos_le : s.pos ≤ sourcelen
  out_le : s.cpage_out.length ≤ dstlen
  back_le : ∀ v, (s.positions v).toNat ≤ s.pos

theorem setPosition_le {positions : Byte → ℤ} {p n : ℕ} (hp : ∀ v, (positions v).toNat ≤ p)
    (hn : p < n) (h : n ≤ 32767) (value : Byte) : ∀ v, (setPosition positions value n v).toNat ≤ n := by
  intro v
  by_cases hv : v = value
  · rw [hv, setPosition, Function.update_self, short_eq h, Int.toNat_natCast]
  · rw [setPosition, Function.update_of_ne hv]
    exact (hp v).trans hn.le

/-- A pass makes one byte and its run, which the decompressor repeats. -/
theorem compressStep_spec (hlen : sourcelen ≤ 32767) {s : Compressing}
    (hs : s.Fits sourcelen dstlen) (hpos : s.pos < sourcelen) (hout : s.cpage_out.length+2 ≤ dstlen) :
    ∃ r ≤ 255, compressStep data_in sourcelen s =
        ⟨s.pos+1+r, setPosition s.positions (data_in s.pos) (s.pos+1),
          s.cpage_out ++ [data_in s.pos, BitVec.ofNat 8 r]⟩ ∧
      (compressStep data_in sourcelen s).Fits sourcelen dstlen ∧
      putRun (s.positions (data_in s.pos)).toNat r (readBytes data_in 0 (s.pos+1)) =
        readBytes data_in 0 (s.pos+1+r) := by
  obtain ⟨r, hrun, hle, hin, hsame⟩ := @runLength_spec data_in sourcelen 256
    (s.positions (data_in s.pos)).toNat (s.pos+1) 0 (by decide)
  rw [Nat.zero_add] at hrun hle
  have hback := hs.back_le (data_in s.pos)
  have hstep : compressStep data_in sourcelen s =
      ⟨s.pos+1+r, setPosition s.positions (data_in s.pos) (s.pos+1),
        s.cpage_out ++ [data_in s.pos, BitVec.ofNat 8 r]⟩ := by
    rw [compressStep, hrun]
  refine ⟨r, hle, hstep, ?_, putRun_spec r _ _ (by omega) hsame⟩
  rw [hstep]
  refine ⟨by dsimp only; omega, by rw [List.length_append]; exact hout, fun v => ?_⟩
  exact (setPosition_le hs.back_le (Nat.lt_succ_self _) (by omega) _ v).trans (Nat.le_add_right _ r)

theorem decompressLoop_done (c : List Byte) (n j p : ℕ) (positions : Byte → ℤ) :
    decompressLoop c n j p positions (readBytes data_in 0 n) = readBytes data_in 0 n := by
  cases j with
  | zero => rfl
  | succ j => rw [decompressLoop, readBytes_length, if_neg (lt_irrefl n)]

/-- The decompressor goes the same way as the compressor, from any pass on to the last one. -/
theorem decompress_follows (hlen : sourcelen ≤ 32767) (k : ℕ) (s t : Compressing)
    (hs : s.Fits sourcelen dstlen) (ht : compressLoop data_in sourcelen dstlen k s = t) :
    t.Fits sourcelen dstlen ∧ s.pos ≤ t.pos ∧ ∃ rest, t.cpage_out = s.cpage_out ++ rest ∧
      ∀ j, t.pos-s.pos ≤ j →
        decompressLoop t.cpage_out t.pos j s.cpage_out.length s.positions
          (readBytes data_in 0 s.pos) = readBytes data_in 0 t.pos := by
  induction k generalizing s with
  | zero =>
    rw [compressLoop] at ht
    subst ht
    exact ⟨hs, le_refl _, [], (List.append_nil _).symm, fun j _ => decompressLoop_done _ _ _ _ _⟩
  | succ k ih =>
    rw [compressLoop] at ht
    split at ht
    next hgo =>
      obtain ⟨r, hr, hstep, hfits, hput⟩ := @compressStep_spec data_in _ _ hlen _ hs hgo.1 hgo.2
      obtain ⟨htfits, hle, rest, hout, hdec⟩ := ih _ hfits ht
      rw [hstep] at hle hout hdec
      dsimp only at hle hout hdec
      rw [List.append_assoc] at hout
      refine ⟨htfits, by omega, _, hout, fun j hj => ?_⟩
      cases j with
      | zero => omega
      | succ j =>
        -- the two bytes that this pass of the compressor has written
        have hvalue : t.cpage_out.getD s.cpage_out.length 0#8 = data_in s.pos := by
          rw [hout, List.getD_eq_getElem?_getD, List.getElem?_append_right (le_refl _), Nat.sub_self]
          rfl
        have hrepeat : (t.cpage_out.getD (s.cpage_out.length+1) 0#8).toNat = r := by
          rw [hout, List.getD_eq_getElem?_getD, List.getElem?_append_right (Nat.le_add_right _ 1),
            Nat.add_sub_cancel_left]
          change (BitVec.ofNat 8 r).toNat = r
          rw [BitVec.toNat_ofNat, Nat.mod_eq_of_lt (by omega)]
        have hmore := hdec j (by omega)
        rw [decompressLoop, readBytes_length, if_pos (by omega)]
        dsimp only
        rw [hvalue, hrepeat, done_concat, readBytes_length, hput]
        rw [List.length_append] at hmore
        exact hmore
    · subst ht
      exact ⟨hs, le_refl _, [], (List.append_nil _).symm, fun j _ => decompressLoop_done _ _ _ _ _⟩

/-- What the compressor returns is short, and is decompressed to the input. -/
theorem rtime_round_trip (data_in : ℕ → Byte) (sourcelen dstlen : ℕ) (hlen : sourcelen ≤ 32767)
    {out : List Byte} {len : ℕ} (h : jffs2RtimeCompress data_in sourcelen dstlen = some (out, len)) :
    out.length ≤ dstlen ∧ out.length < len ∧ len ≤ sourcelen ∧
      jffs2RtimeDecompress out len = readBytes data_in 0 len := by
  have hstart : (⟨0, fun _ => 0, []⟩ : Compressing).Fits sourcelen dstlen :=
    ⟨Nat.zero_le _, Nat.zero_le _, fun _ => Nat.le_refl 0⟩
  obtain ⟨hfits, -, -, -, hdec⟩ := @decompress_follows data_in _ _ hlen sourcelen _ _ hstart rfl
  unfold jffs2RtimeCompress at h
  dsimp only at h
  split at h
  · cases h
  next hlt =>
    cases h
    exact ⟨hfits.out_le, not_le.mp hlt, hfits.pos_le, hdec _ (le_refl _)⟩

theorem rtime_round_trip_run : ∃ out len,
    jffs2RtimeCompress (fun j => BitVec.ofNat 8 (j%3)) 64 20 = some (out, len) ∧
    jffs2RtimeDecompress out len = readBytes (fun j => BitVec.ofNat 8 (j%3)) 0 len := by
  have h : jffs2RtimeCompress (fun j => BitVec.ofNat 8 (j%3)) 64 20 =
      some ([0#8, 0#8, 1#8, 0#8, 2#8, 61#8], 64) := by decide +kernel
  exact ⟨_, _, h, (rtime_round_trip _ 64 20 (by decide) h).2.2.2⟩

end RoundTrip

end ChipTools.Jffs2
