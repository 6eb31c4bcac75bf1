import ChipTools.NandWriteMain

/-! `nandwrite --input-size`: which pages of the input are written, and which stay on the device. -/
namespace ChipTools.Nand
open Bytes Loop Ubi CNumber

section Spec

variable (mtd : OobDev) (args : MainArgs) (env : WriteEnv)

/-- The number of pages that the first `N` bytes fill. -/
def wholeUnits (N : ℕ) : ℕ := (N+pageLen mtd args-1)/pageLen mtd args

/-- What is to be written of a page, with ones behind the end. -/
def unitBytes (data : List Byte) (k : ℕ) : List Byte :=
  handed mtd args
    (readBytes (fun x => data.getD x 0xff#8) (k*pageLen mtd args) (pageLen mtd args))

/-- The pages of the first `N` bytes, and only these, are written, and they stay on the device in
their order. -/
structure WritesFirst (data : List Byte) (N : ℕ) (s : MainState) : Prop where
  only : ∀ c ∈ s.calls, c.unit < wholeUnits mtd args N ∧
    c.bytes = unitBytes mtd args (data.take N) c.unit
  all : (List.range (wholeUnits mtd args N)).Sublist (s.kept.map UnitCall.unit)

variable (input : List Byte) (flash : Flash) (garbage : ℕ → Byte)

/-- What is behind the part that is skipped. -/
def restInput : List Byte := input.drop args.inputskip.toNat

/-- What the input, and the steps of the run, are to be like. -/
structure InputFits (N : ℕ) : Prop where
  -- what follows in the last page looks like padding
  tail : ∀ i, N ≤ i → i < (restInput args input).length →
    i < wholeUnits mtd args N*pageLen mtd args →
    (args.onlyoob = true → mtd.min_io_size ≤ i%pageLen mtd args) →
    (restInput args input).getD i 0xff#8 = 0xff#8
  -- without a size, a file is read to its end
  file : args.stdin = false → N = 0 → restInput args input = []
  -- a pipe is read to its end
  ends : args.stdin = true → ∀ s, Reached mtd args env input flash garbage s → s.Looping mtd →
    s.writebuf.getD 0 = s.filebuf_len → wholeUnits mtd args N ≤ s.units → s.input = []
  -- the end of the device is no error there
  room : args.stdin = true → ∀ s, Reached mtd args env input flash garbage s →
    mtd.size ≤ s.mtdoffset → wholeUnits mtd args N ≤ s.units
  -- a new group takes all of the buffer
  fits : ∀ s, Reached mtd args env input flash garbage s → s.Looping mtd →
    s.blockstart ≠ groupStart mtd args s.toWriteState →
    s.writebuf.getD 0 = 0 ∨ s.writebuf.getD 0 = s.filebuf_len
  -- what is erased is in the buffer
  rewinds : ∀ s t, Reached mtd args env input flash garbage s → s.Looping mtd →
    nextUnit mtd args env s = .ok (false, t) → env.write t.mtdoffset = .eio →
    (List.range (t.base mtd args)).Sublist ((t.unerased mtd args).map UnitCall.unit)

end Spec

section Buffer

variable {mtd : OobDev} {args : MainArgs} {env : WriteEnv} {data : List Byte} {s t : MainState}
  {b a : ℕ}

/-- The buffer: the pages of the input from `b` on, of which `a` is the next one. -/
structure Holds (mtd : OobDev) (args : MainArgs) (data : List Byte) (b a : ℕ) (s : MainState) :
    Prop where
  len : s.filebuf_len = (s.units-b)*pageLen mtd args
  ptr : s.writebuf.getD 0 = (a-b)*pageLen mtd args
  null : s.writebuf = none → s.units = 0 ∧ s.blockstart = -1
  base : b ≤ a
  next : a ≤ s.units
  bytes : ∀ x < (s.units-b)*pageLen mtd args,
    s.filebuf x = data.getD (b*pageLen mtd args+x) 0xff#8
  input : s.input = data.drop (s.units*pageLen mtd args)

theorem pageLen_pos (hio : 0 < mtd.min_io_size) : 0 < pageLen mtd args :=
  Nat.add_pos_left hio _

theorem Holds.next_eq (hio : 0 < mtd.min_io_size) (h : Holds mtd args data b a s) :
    s.next mtd args = a := by
  have hb := h.base
  have ha := h.next
  unfold MainState.next
  rw [h.len, h.ptr, ← Nat.sub_mul, Nat.mul_div_cancel _ (pageLen_pos hio)]
  omega

theorem Holds.base_eq (hio : 0 < mtd.min_io_size) (h : Holds mtd args data b a s) :
    s.base mtd args = b := by
  have hb := h.base
  have ha := h.next
  unfold MainState.base
  rw [h.len, Nat.mul_div_cancel _ (pageLen_pos hio)]
  omega

theorem Holds.pending_iff (hio : 0 < mtd.min_io_size) (h : Holds mtd args data b a s) :
    s.writebuf.getD 0 = s.filebuf_len ↔ a = s.units := by
  have hb := h.base
  have ha := h.next
  rw [h.len, h.ptr, Nat.mul_left_inj (Nat.ne_of_gt (pageLen_pos hio))]
  omega

theorem Holds.at_start (hio : 0 < mtd.min_io_size) (h : Holds mtd args data b a s) :
    s.writebuf.getD 0 = 0 ↔ a = b := by
  have hb := h.base
  rw [h.ptr, Nat.mul_eq_zero, or_iff_left (Nat.ne_of_gt (pageLen_pos hio))]
  omega

/-- The bytes of the page at the pointer. -/
theorem Holds.page (h : Holds mtd args data b a s) (ha : a < s.units) :
    readBytes s.filebuf (s.writebuf.getD 0) (pageLen mtd args) =
      readBytes (fun x => data.getD x 0xff#8) (a*pageLen mtd args) (pageLen mtd args) := by
  unfold readBytes
  apply List.map_congr_left
  intro i hi
  have hi := List.mem_range.mp hi
  have hb := h.base
  have hin : (a-b)*pageLen mtd args+i < (s.units-b)*pageLen mtd args := by
    calc (a-b)*pageLen mtd args+i
      _ < (a-b+1)*pageLen mtd args := by rw [Nat.succ_mul]; omega
      _ ≤ (s.units-b)*pageLen mtd args := Nat.mul_le_mul_right _ (by omega)
  have hat : b*pageLen mtd args+((a-b)*pageLen mtd args+i) = a*pageLen mtd args+i := by
    rw [← Nat.add_assoc, ← Nat.add_mul, Nat.add_sub_cancel' hb]
  rw [h.ptr, h.bytes _ hin, hat]

/-- The call for the page at the pointer. -/
theorem Holds.call_eq (hio : 0 < mtd.min_io_size) (h : Holds mtd args data b a s) (ha : a < s.units)
    (done : Bool) :
    s.call mtd args done = ⟨a, s.mtdoffset, unitBytes mtd args data a, done⟩ := by
  unfold MainState.call unitBytes
  rw [h.page ha, h.next_eq hio]

end Buffer

section Reading

variable {mtd : OobDev} {args : MainArgs} {env : WriteEnv} {data : List Byte} {s t u : MainState}
  {b a : ℕ} {eof : Bool}

/-- A new group: the buffer stays where it is to be written again, otherwise it is emptied. -/
theorem Holds.moved (hio : 0 < mtd.min_io_size) (h : Holds mtd args data b a s) (o : ℕ) :
    (a = b ∧ Holds mtd args data b a (s.moved mtd args o)) ∨
      ((a = b → a = s.units) ∧ Holds mtd args data s.units s.units (s.moved mtd args o)) := by
  have hb := h.base
  by_cases h0 : s.writebuf = some 0
  · have hab : a = b := (h.at_start hio).mp (by rw [h0]; rfl)
    refine Or.inl ⟨hab, ?_⟩
    unfold MainState.moved
    rw [freshBuf_replay h0]
    have hsome : s.writebuf ≠ none := by
      rw [h0]
      exact Option.some_ne_none 0
    exact ⟨h.len, h.ptr, fun hnone => absurd hnone hsome, h.base, h.next, h.bytes, h.input⟩
  · have hreset : s.moved mtd args o = { s with toWriteState := { s.toWriteState with
        filebuf := setTo s.filebuf 0 s.filebuf_len 0xff#8, filebuf_len := 0, writebuf := some 0
        blockstart := (alignDown o (groupSize mtd args) : ℕ), mtdoffset := o } } := by
      unfold MainState.moved
      rw [freshBuf, if_pos h0]
    refine Or.inr ⟨fun hab => ?_, ?_⟩
    · -- the pointer is at the start, so it is NULL, and nothing was read
      cases hw : s.writebuf with
      | none =>
        have hzero := (h.null hw).1
        have ha := h.next
        omega
      | some w =>
        have hz := (h.at_start hio).mpr hab
        rw [hw, Option.getD_some] at hz
        rw [hz] at hw
        exact absurd hw h0
    · rw [hreset]
      refine ⟨?_, ?_, fun hnone => absurd hnone (Option.some_ne_none 0), le_refl _, le_refl _, ?_, h.input⟩
      · dsimp only
        rw [Nat.sub_self, Nat.zero_mul]
      · dsimp only
        rw [Nat.sub_self, Nat.zero_mul, Option.getD_some]
      · intro x hx
        dsimp only at hx
        rw [Nat.sub_self, Nat.zero_mul] at hx
        exact absurd hx (Nat.not_lt_zero x)

/-- The length that is left: for a file what was not read, for a pipe whether there may be more. -/
structure Counted (mtd : OobDev) (args : MainArgs) (start : ℤ) (data : List Byte) (s : MainState) :
    Prop where
  file : args.stdin = false →
    s.imglen = start-(min data.length (s.units*pageLen mtd args) : ℕ)
  pipe : args.stdin = true → s.imglen ≤ 0 → data.length ≤ s.units*pageLen mtd args

/-- A page that is in the buffer is not read. -/
theorem readData_held (h : Holds mtd args data b a s) (ha : a < s.units) :
    readData mtd args env s = .ok (false, s) ∧ readOob mtd args env s = .ok s := by
  have hb := h.base
  have hroom : (a-b)*pageLen mtd args+pageLen mtd args ≤ s.filebuf_len := by
    rw [h.len, ← Nat.succ_mul]
    exact Nat.mul_le_mul_right _ (by omega)
  have hp : pageLen mtd args = mtd.min_io_size+if args.writeoob then mtd.oob_size else 0 := rfl
  constructor
  · unfold readData
    dsimp only
    rw [h.ptr, if_neg (by omega)]
  · unfold readOob
    dsimp only
    rw [h.ptr, if_neg]
    rintro ⟨hoob, hlt⟩
    rw [if_pos hoob] at hp
    omega

/-- What is read of the data of a page. -/
structure ReadsData (mtd : OobDev) (args : MainArgs) (data : List Byte) (s t : MainState) : Prop where
  more : s.units*pageLen mtd args < data.length
  group : 0 < groupSize mtd args
  filebuf : ∀ x < s.filebuf_len+mtd.min_io_size, t.filebuf x =
    if x < s.filebuf_len then s.filebuf x
    else data.getD (s.units*pageLen mtd args+(x-s.filebuf_len)) 0xff#8
  filebuf_len : t.filebuf_len = s.filebuf_len+mtd.min_io_size
  writebuf : t.writebuf = s.writebuf
  units : t.units = s.units+1
  input : t.input = data.drop (min data.length (s.units*pageLen mtd args+mtd.min_io_size))
  file : args.stdin = false → t.imglen = s.imglen-
    ((min data.length (s.units*pageLen mtd args+mtd.min_io_size) : ℕ)-
      (min data.length (s.units*pageLen mtd args) : ℕ))
  pipe : args.stdin = true → t.imglen = s.imglen ∨
    data.length ≤ s.units*pageLen mtd args+mtd.min_io_size
  calls : t.calls = s.calls
  kept : t.kept = s.kept

theorem filebufMax_zero (h : groupSize mtd args = 0) : filebufMax mtd args = 0 := by
  unfold filebufMax
  rw [h, Nat.zero_div, Nat.zero_mul]
  decide

theorem readData_reads (hio : 0 < mtd.min_io_size) (h : Holds mtd args data b s.units s)
    (hr : readData mtd args env s = .ok (eof, t)) :
    (eof = true ∧ data.length ≤ s.units*pageLen mtd args ∧
      t = { s with imglen := if args.stdin then 0 else s.imglen }) ∨
    (eof = false ∧ ReadsData mtd args data s t) := by
  have hlen : s.writebuf.getD 0 = s.filebuf_len := by rw [h.ptr, h.len]
  have hgot : (s.input.take mtd.min_io_size).length =
      min mtd.min_io_size (data.length-s.units*pageLen mtd args) := by
    rw [h.input, List.length_take, List.length_drop]
  unfold readData at hr
  dsimp only at hr
  rw [hlen, if_pos (by omega), Nat.sub_self, Nat.sub_zero, Nat.zero_add, Nat.add_zero,
    Nat.sub_zero] at hr
  split at hr
  · cases hr
  next hmax =>
    split at hr
    · cases hr
    · split at hr
      next hzero =>
        cases hr
        rw [hgot] at hzero
        exact Or.inl ⟨rfl, by omega, rfl⟩
      next hsome =>
        split at hr
        · cases hr
        · cases hr
          rw [hgot] at hsome
          refine Or.inr ⟨rfl, by omega, ?_, ?_, rfl, rfl, rfl, ?_, ?_, ?_, rfl, rfl⟩
          · by_contra hz
            rw [filebufMax_zero (by omega)] at hmax
            omega
          · intro x hx
            dsimp only
            rw [h.input, read_bytes hx]
          · dsimp only
            rw [h.input, List.drop_drop, ← h.input, hgot]
            by_cases hfull : mtd.min_io_size ≤ data.length-s.units*pageLen mtd args
            · rw [Nat.min_eq_left hfull, Nat.min_eq_right (by omega)]
            · rw [Nat.min_eq_right (by omega), Nat.min_eq_left (by omega)]
              congr 1
              omega
          · intro hf
            dsimp only
            rw [hf, if_neg Bool.false_ne_true, hgot]
            omega
          · intro hp
            dsimp only
            rw [hp, if_pos rfl, hgot]
            split
            · exact Or.inr (by omega)
            · exact Or.inl rfl

/-- The buffer with a page that was read behind it. -/
theorem ReadsData.holds (h : Holds mtd args data b s.units s) (hready : s.writebuf ≠ none)
    (hd : ReadsData mtd args data s t)
    (hunits : u.units = t.units) (hwb : u.writebuf = t.writebuf)
    (hlen : u.filebuf_len = s.filebuf_len+pageLen mtd args)
    (hbytes : ∀ x < s.filebuf_len+pageLen mtd args, u.filebuf x = if x < s.filebuf_len then s.filebuf x
      else data.getD (s.units*pageLen mtd args+(x-s.filebuf_len)) 0xff#8)
    (hinput : u.input = data.drop ((s.units+1)*pageLen mtd args)) :
    Holds mtd args data b s.units u := by
  have hb := h.base
  have hu : u.units = s.units+1 := hunits.trans hd.units
  have hsum : (u.units-b)*pageLen mtd args = s.filebuf_len+pageLen mtd args := by
    rw [hu, h.len, Nat.succ_sub hb, Nat.succ_mul]
  refine ⟨hlen.trans hsum.symm, ?_, ?_, hb, by omega, ?_, by rw [hu]; exact hinput⟩
  · rw [hwb, hd.writebuf]
    exact h.ptr
  · rw [hwb, hd.writebuf]
    exact fun hnone => absurd hnone hready
  · intro x hx
    rw [hsum] at hx
    rw [hbytes x hx]
    split
    next hlt =>
      rw [h.len] at hlt
      exact h.bytes x hlt
    next hge =>
      -- the pages before it fill the buffer
      have hfill : b*pageLen mtd args+s.filebuf_len = s.units*pageLen mtd args := by
        rw [h.len, ← Nat.add_mul, Nat.add_sub_cancel' hb]
      congr 1
      omega

/-- A page with its OOB data, where there are any. -/
theorem readOob_reads (hio : 0 < mtd.min_io_size) (h : Holds mtd args data b s.units s)
    (hready : s.writebuf ≠ none) (hd : ReadsData mtd args data s t)
    (hr : readOob mtd args env t = .ok u) :
    Holds mtd args data b s.units u ∧ u.units = s.units+1 ∧ u.calls = s.calls ∧ u.kept = s.kept ∧
      ∀ start, Counted mtd args start data s → Counted mtd args start data u := by
  have hp : pageLen mtd args = mtd.min_io_size+if args.writeoob then mtd.oob_size else 0 := rfl
  have hlen : t.writebuf.getD 0+mtd.min_io_size = t.filebuf_len := by
    rw [hd.writebuf, h.ptr, ← h.len, hd.filebuf_len]
  have hstep : (s.units+1)*pageLen mtd args = s.units*pageLen mtd args+pageLen mtd args :=
    Nat.succ_mul _ _
  unfold readOob at hr
  dsimp only at hr
  rw [hlen, Nat.sub_self, Nat.sub_zero, Nat.zero_add, Nat.add_zero, Nat.sub_zero] at hr
  split at hr
  next hoob =>
    rw [if_pos hoob.1] at hp
    have hgot : (t.input.take mtd.oob_size).length = min mtd.oob_size
        (data.length-min data.length (s.units*pageLen mtd args+mtd.min_io_size)) := by
      rw [hd.input, List.length_take, List.length_drop]
    split at hr
    · cases hr
    · split at hr
      · cases hr
      · split at hr
        · cases hr
        next hfull =>
          cases hr
          rw [hgot] at hfull
          have hall : s.units*pageLen mtd args+pageLen mtd args ≤ data.length := by omega
          have hinput : t.input = data.drop (s.units*pageLen mtd args+mtd.min_io_size) := by
            rw [hd.input, Nat.min_eq_right (by omega)]
          refine ⟨hd.holds h hready rfl rfl ?_ ?_ ?_, hd.units, hd.calls, hd.kept, fun start hc => ⟨?_, ?_⟩⟩
          · dsimp only
            rw [hd.filebuf_len]
            omega
          · intro x hx
            dsimp only
            by_cases hdata : x < t.filebuf_len
            · rw [copyTo_below hdata, hd.filebuf x (by rw [← hd.filebuf_len]; exact hdata)]
            · have hfl := hd.filebuf_len
              rw [if_neg (by omega), copyTo, if_pos (by omega), hinput, List.getD_eq_getElem?_getD,
                List.getElem?_take, if_pos (by omega), List.getElem?_drop,
                List.getD_eq_getElem?_getD, List.getElem?_eq_getElem (by omega),
                List.getElem?_eq_getElem (by omega)]
              dsimp only [Option.getD_some]
              congr 1
              omega
          · dsimp only
            rw [hgot, hinput, List.drop_drop, hstep]
            congr 1
            omega
          · intro hf
            dsimp only
            rw [hf, if_neg Bool.false_ne_true, hd.file hf, hc.file hf, hd.units, hgot, hstep]
            omega
          · intro hpipe himg
            dsimp only at himg ⊢
            rw [hpipe, if_pos rfl] at himg
            rw [hd.units, hstep]
            rcases hd.pipe hpipe with heq | hle
            · rw [heq] at himg
              have := hc.pipe hpipe himg
              omega
            · omega
  next hno =>
    cases hr
    have hsame : pageLen mtd args = mtd.min_io_size := by
      by_cases hw : args.writeoob = true
      · rw [if_pos hw] at hp
        have : ¬ t.filebuf_len < t.filebuf_len+mtd.oob_size := fun hlt => hno ⟨hw, hlt⟩
        omega
      · rw [if_neg hw] at hp
        exact hp
    refine ⟨hd.holds h hready rfl rfl ?_ ?_ ?_, hd.units, hd.calls, hd.kept, fun start hc => ⟨?_, ?_⟩⟩
    · rw [hd.filebuf_len, hsame]
    · intro x hx
      rw [hsame] at hx
      exact hd.filebuf x hx
    · rw [hd.input, hstep]
      by_cases hle : data.length ≤ s.units*pageLen mtd args+pageLen mtd args
      · rw [List.drop_eq_nil_of_le hle, List.drop_eq_nil_of_le (by omega)]
      · rw [Nat.min_eq_right (by omega), ← hsame]
    · intro hf
      rw [hd.file hf, hc.file hf, hd.units, hstep, ← hsame]
      omega
    · intro hpipe himg
      rw [hd.units, hstep]
      rcases hd.pipe hpipe with heq | hle
      · rw [heq] at himg
        have := hc.pipe hpipe himg
        omega
      · omega

end Reading

section Passes

variable {mtd : OobDev} {args : MainArgs} {env : WriteEnv} {data : List Byte} {s t u : MainState}
  {b a : ℕ} {eof : Bool} {start : ℤ}

/-- What a pass up to its write does to the buffer: the next page is kept, or all pages of the buffer
are left behind. -/
structure Turned (mtd : OobDev) (args : MainArgs) (s : MainState) (b a b' a' : ℕ) : Prop where
  base : b ≤ b'
  next : a ≤ a'
  kind : (b' = b ∧ a' = a ∧ (s.blockstart = groupStart mtd args s.toWriteState ∨ a = b)) ∨
    (b' = s.units ∧ a' = s.units ∧ (a = b → a = s.units) ∧
    s.blockstart ≠ groupStart mtd args s.toWriteState)

theorem Holds.group (hio : 0 < mtd.min_io_size) (h : Holds mtd args data b a s)
    (hr : nextGroup mtd args env s = .ok t) :
    ∃ b' a', Turned mtd args s b a b' a' ∧ Holds mtd args data b' a' t ∧ t.writebuf ≠ none ∧
      t.units = s.units ∧ t.calls = s.calls ∧ t.kept = s.kept ∧
      ∀ start, Counted mtd args start data s → Counted mtd args start data t := by
  have hb := h.base
  have ha := h.next
  rcases nextGroup_frame hr with ⟨heq, rfl⟩ | ⟨hne, o, rfl⟩
  · refine ⟨b, a, ⟨le_refl b, le_refl a, Or.inl ⟨rfl, rfl, Or.inl heq⟩⟩, h, ?_, rfl, rfl, rfl, fun _ hc => hc⟩
    intro hnone
    have hstart := (h.null hnone).2
    omega
  · have hready : (s.moved mtd args o).writebuf ≠ none := by
      have hwb : (s.moved mtd args o).writebuf = some 0 := freshBuf_writebuf s.toWriteState
      rw [hwb]
      exact Option.some_ne_none 0
    have himg : (s.moved mtd args o).imglen = s.imglen := (freshBuf_frame s.toWriteState).2.2.2.2.1
    have hcount (start : ℤ) (hc : Counted mtd args start data s) :
        Counted mtd args start data (s.moved mtd args o) := by
      obtain ⟨hfile, hpipe⟩ := hc
      refine ⟨fun hf => ?_, fun hp hz => ?_⟩
      · rw [himg]
        exact hfile hf
      · rw [himg] at hz
        exact hpipe hp hz
    rcases h.moved hio o with ⟨hab, hm⟩ | ⟨hab, hm⟩
    · exact ⟨b, a, ⟨le_refl b, le_refl a, Or.inl ⟨rfl, rfl, Or.inr hab⟩⟩, hm, hready, rfl, rfl, rfl, hcount⟩
    · exact ⟨s.units, s.units, ⟨by omega, ha, Or.inr ⟨rfl, rfl, hab, hne⟩⟩, hm, hready, rfl, rfl,
        rfl, hcount⟩

/-- What a pass up to its write has done: the page at the pointer is in the buffer, and was read
where none was left. -/
structure Fetched (mtd : OobDev) (args : MainArgs) (data : List Byte) (b a : ℕ) (s t : MainState) :
    Prop where
  holds : Holds mtd args data b a t
  lt : a < t.units
  calls : t.calls = s.calls
  kept : t.kept = s.kept
  units : t.units = s.units ∨
    (t.units = s.units+1 ∧ a = s.units ∧ s.units*pageLen mtd args < data.length)

theorem Holds.fetch (hio : 0 < mtd.min_io_size) (h : Holds mtd args data b a s)
    (hr : nextUnit mtd args env s = .ok (false, t)) :
    ∃ b' a', Turned mtd args s b a b' a' ∧ Fetched mtd args data b' a' s t ∧
      ∀ start, Counted mtd args start data s → Counted mtd args start data t := by
  obtain ⟨s₁, s₂, hgroup, hdata, hoob⟩ := nextUnit_steps hr
  obtain ⟨b', a', hturn, hh, hready, hu, hcalls, hkept, hcount⟩ := h.group hio hgroup
  refine ⟨b', a', hturn, ?_⟩
  rcases Nat.lt_or_ge a' s₁.units with hin | hout
  · -- the page is in the buffer
    rw [(readData_held hh hin).1] at hdata
    cases hdata
    rw [(readData_held hh hin).2] at hoob
    cases hoob
    exact ⟨⟨hh, hin, hcalls, hkept, Or.inl hu⟩, hcount⟩
  · -- it is read
    obtain rfl := le_antisymm hh.next hout
    rcases readData_reads hio hh hdata with ⟨heof, -⟩ | ⟨-, hd⟩
    · cases heof
    · obtain ⟨hu', hunits, hcalls', hkept', hcount'⟩ := readOob_reads hio hh hready hd hoob
      refine ⟨⟨hu', by omega, hcalls'.trans hcalls, hkept'.trans hkept, Or.inr ⟨by omega, hu, ?_⟩⟩,
        fun start hc => hcount' start (hcount start hc)⟩
      rw [← hu]
      exact hd.more

/-- Where the input has ended, all pages of the buffer were written. -/
theorem Holds.ended (hio : 0 < mtd.min_io_size) (h : Holds mtd args data b a s)
    (hr : nextUnit mtd args env s = .ok (true, t)) :
    ∃ b', Turned mtd args s b a b' s.units ∧ t.units = s.units ∧ t.calls = s.calls ∧
      t.kept = s.kept ∧ data.length ≤ s.units*pageLen mtd args := by
  obtain ⟨s₁, hgroup, hr⟩ := Loop.bind_eq_ok hr
  obtain ⟨⟨eof, s₂⟩, hdata, hr⟩ := Loop.bind_eq_ok hr
  dsimp only at hr
  obtain ⟨b', a', hturn, hh, -, hu, hcalls, hkept, -⟩ := h.group hio hgroup
  split at hr
  next heof =>
    cases hr
    rw [heof] at hdata
    rcases Nat.lt_or_ge a' s₁.units with hin | hout
    · rw [(readData_held hh hin).1] at hdata
      cases hdata
    · obtain rfl := le_antisymm hh.next hout
      rcases readData_reads hio hh hdata with ⟨-, hlen, rfl⟩ | ⟨heof, -⟩
      · rw [hu] at hturn hlen
        exact ⟨b', hturn, hu, hcalls, hkept, hlen⟩
      · cases heof
  · obtain ⟨s₃, -, hr⟩ := Loop.bind_eq_ok hr
    cases hr

/-- What the write has done: the page is on the device, or the pointer is back at the start of the
buffer. -/
inductive Wrote (mtd : OobDev) (args : MainArgs) (env : WriteEnv) (data : List Byte) (b a : ℕ)
    (t u : MainState) : Prop
  | done : env.write t.mtdoffset = .done → Holds mtd args data b (a+1) u →
    u.calls = t.calls ++ [t.call mtd args true] → u.kept = t.kept ++ [t.call mtd args true] →
    Wrote mtd args env data b a t u
  | failed : env.write t.mtdoffset = .eio → Holds mtd args data b b u →
    u.calls = t.calls ++ [t.call mtd args false] → u.kept = t.unerased mtd args →
    Wrote mtd args env data b a t u

theorem Fetched.write (h : Fetched mtd args data b a s t) (hr : writeUnit mtd args env t = .ok u) :
    Wrote mtd args env data b a t u ∧ u.units = t.units ∧ u.imglen = t.imglen := by
  obtain ⟨hlen, hptr, -, hbase, -, hbytes, hinput⟩ := h.holds
  have hlt := h.lt
  unfold writeUnit at hr
  dsimp only at hr
  split at hr
  · cases hr
  · split at hr
    · cases hr
    next hfail =>
      obtain ⟨flash', -, hr⟩ := Loop.bind_eq_ok hr
      dsimp only at hr
      split at hr
      · cases hr
      · cases hr
        refine ⟨Wrote.failed hfail ⟨hlen, ?_, ?_, le_refl b, by dsimp only; omega, hbytes, hinput⟩
          rfl rfl, rfl, rfl⟩
        · dsimp only
          rw [Option.getD_some, Nat.sub_self, Nat.zero_mul]
        · exact fun hnone => absurd hnone (Option.some_ne_none 0)
    next hdone =>
      cases hr
      refine ⟨Wrote.done hdone ⟨hlen, ?_, ?_, by omega, hlt, hbytes, hinput⟩ rfl rfl, rfl, rfl⟩
      · dsimp only
        rw [Option.getD_some, hptr, ← Nat.succ_mul, Nat.succ_sub hbase]
      · exact fun hnone => absurd hnone (Option.some_ne_none _)

end Passes

section Runs

variable {mtd : OobDev} {args : MainArgs} {env : WriteEnv} {input : List Byte} {flash : Flash}
  {garbage : ℕ → Byte} {data : List Byte} {r s t u v : MainState} {b a k n : ℕ} {start : ℤ}

/-- The calls so far: each page that was read has one, and a page that waits in the buffer with the
last one behind it, or is the last one, has not. -/
structure Sent (mtd : OobDev) (args : MainArgs) (data : List Byte) (s : MainState) : Prop where
  each : ∀ k < s.units, ∃ c ∈ s.calls, c.unit = k
  calls : ∀ c ∈ s.calls, c.unit < s.units ∧ c.bytes = unitBytes mtd args data c.unit
  kept : ∀ c ∈ s.kept, c ∈ s.calls
  waits : s.writebuf.getD 0 ≠ s.filebuf_len → ∀ c ∈ s.kept, c.unit+1 < s.units

/-- The write of a pass, as it is added to the calls. -/
theorem Sent.write (hio : 0 < mtd.min_io_size) (hs : Sent mtd args data s)
    (h : Holds mtd args data b a s) {b' a' : ℕ} (hturn : Turned mtd args s b a b' a')
    (ht : Fetched mtd args data b' a' s t) (hw : Wrote mtd args env data b' a' t u)
    (hunits : u.units = t.units) : Sent mtd args data u := by
  have hlt := ht.lt
  have hnext := hturn.next
  have hle : s.units ≤ t.units := by
    rcases ht.units with heq | ⟨heq, -⟩
    · exact le_of_eq heq.symm
    · omega
  -- a call is added
  have hcalls : ∃ done, u.calls = s.calls ++
      [⟨a', t.mtdoffset, unitBytes mtd args data a', done⟩] := by
    rcases hw with ⟨-, -, hc, -⟩ | ⟨-, -, hc, -⟩
    · exact ⟨true, by rw [hc, ht.calls, ht.holds.call_eq hio hlt]⟩
    · exact ⟨false, by rw [hc, ht.calls, ht.holds.call_eq hio hlt]⟩
  -- where a page waits in the buffer, those that were kept are before the last one
  have hold (hwait : a' < s.units ∨ t.units = s.units+1) : ∀ c ∈ s.kept, c.unit+1 < u.units := by
    intro c hc
    rcases ht.units with heq | ⟨heq, -⟩
    · have hin : a ≠ s.units := by omega
      have := hs.waits (fun hp => hin ((h.pending_iff hio).mp hp)) c hc
      omega
    · have := (hs.calls c (hs.kept c hc)).1
      omega
  obtain ⟨done, hcalls⟩ := hcalls
  refine ⟨fun k hk => ?_, fun c hc => ?_, ?_, ?_⟩
  · rw [hcalls]
    by_cases hin : k < s.units
    · obtain ⟨c, hc, hck⟩ := hs.each k hin
      exact ⟨c, List.mem_append_left _ hc, hck⟩
    · refine ⟨_, List.mem_append_right _ (List.mem_singleton_self _), ?_⟩
      dsimp only
      rcases ht.units with heq | ⟨heq, ha', -⟩
      · omega
      · omega
  · rw [hcalls] at hc
    rcases List.mem_append.mp hc with hc | hc
    · obtain ⟨hlt', hbytes⟩ := hs.calls c hc
      exact ⟨by omega, hbytes⟩
    · obtain rfl := List.mem_singleton.mp hc
      exact ⟨by dsimp only; omega, rfl⟩
  · rcases hw with ⟨-, -, hc, hk⟩ | ⟨-, -, hc, hk⟩
    · intro c hmem
      rw [hk, ht.kept] at hmem
      rw [hc, ht.calls]
      rcases List.mem_append.mp hmem with hmem | hmem
      · exact List.mem_append_left _ (hs.kept c hmem)
      · exact List.mem_append_right _ hmem
    · intro c hmem
      rw [hk] at hmem
      have hmem := (List.mem_filter.mp hmem).1
      rw [ht.kept] at hmem
      rw [hc, ht.calls]
      exact List.mem_append_left _ (hs.kept c hmem)
  · intro hpend c hmem
    rcases hw with ⟨-, hh, -, hk⟩ | ⟨-, hh, -, hk⟩
    · have hne : a'+1 ≠ u.units := fun heq => hpend ((hh.pending_iff hio).mpr heq)
      have hin : a' < s.units := by
        rcases ht.units with heq | ⟨heq, ha', -⟩
        · omega
        · omega
      rw [hk, ht.kept] at hmem
      rcases List.mem_append.mp hmem with hmem | hmem
      · exact hold (Or.inl hin) c hmem
      · obtain rfl := List.mem_singleton.mp hmem
        rw [ht.holds.call_eq hio hlt]
        dsimp only
        omega
    · rw [hk] at hmem
      have hmem := (List.mem_filter.mp hmem).1
      rw [ht.kept] at hmem
      refine hold ?_ c hmem
      rcases ht.units with heq | ⟨heq, -⟩
      · exact Or.inl (by omega)
      · exact Or.inr heq

/-- What holds in each state that the loop comes to. -/
structure Steady (mtd : OobDev) (args : MainArgs) (data : List Byte) (start : ℤ) (b a : ℕ)
    (s : MainState) : Prop where
  holds : Holds mtd args data b a s
  sent : Sent mtd args data s
  counted : Counted mtd args start data s

end Runs

section Ends

variable {mtd : OobDev} {args : MainArgs} {env : WriteEnv} {input : List Byte} {flash : Flash}
  {garbage : ℕ → Byte} {r s t u v : MainState} {b a k n N : ℕ}

/-- A pass, with what it reads and what it writes. -/
theorem Steady.pass {data : List Byte} {start : ℤ} (hio : 0 < mtd.min_io_size)
    (h : Steady mtd args data start b a s) (hnext : nextUnit mtd args env s = .ok (false, t))
    (hwrite : writeUnit mtd args env t = .ok u) :
    ∃ b' a' a'', Turned mtd args s b a b' a' ∧ Fetched mtd args data b' a' s t ∧
      Wrote mtd args env data b' a' t u ∧ u.units = t.units ∧
      Steady mtd args data start b' a'' u := by
  obtain ⟨b', a', hturn, hfetch, hcount⟩ := h.holds.fetch hio hnext
  obtain ⟨hw, hunits, himg⟩ := hfetch.write hwrite
  have hcounted : Counted mtd args start data u := by
    obtain ⟨hfile, hpipe⟩ := hcount start h.counted
    refine ⟨fun hf => ?_, fun hp hz => ?_⟩
    · rw [himg, hunits]
      exact hfile hf
    · rw [himg] at hz
      rw [hunits]
      exact hpipe hp hz
  have hsent := h.sent.write hio h.holds hturn hfetch hw hunits
  cases hw with
  | done hd hh hc hk =>
    exact ⟨b', a', a'+1, hturn, hfetch, Wrote.done hd hh hc hk, hunits, hh, hsent, hcounted⟩
  | failed hf hh hc hk =>
    exact ⟨b', a', b', hturn, hfetch, Wrote.failed hf hh hc hk, hunits, hh, hsent, hcounted⟩

theorem startLen_pos (hio : 0 < mtd.min_io_size) (hN : args.inputsize = N)
    (hp : args.stdin = true) : 0 < startLen mtd args input := by
  unfold startLen
  rw [if_pos hp]
  split
  · omega
  · have hp : 0 < pageLen mtd args := pageLen_pos hio
    omega

theorem Reached.steady (hio : 0 < mtd.min_io_size) (hN : args.inputsize = N)
    (h : Reached mtd args env input flash garbage s) :
    ∃ b a, Steady mtd args (restInput args input) (startLen mtd args input) b a s := by
  induction h with
  | start =>
    refine ⟨0, 0, ⟨(Nat.zero_mul _).symm, (Nat.zero_mul _).symm, fun _ => ⟨rfl, rfl⟩, le_refl 0,
      le_refl 0, fun x hx => ?_, ?_⟩, ⟨fun k hk => ?_, fun c hc => ?_, fun c hc => ?_,
      fun _ c hc => ?_⟩, ⟨fun _ => ?_, fun hp hz => ?_⟩⟩
    · have hx : x < 0*pageLen mtd args := hx
      rw [Nat.zero_mul] at hx
      exact absurd hx (Nat.not_lt_zero x)
    · change input.drop args.inputskip.toNat = (restInput args input).drop (0*pageLen mtd args)
      rw [Nat.zero_mul, List.drop_zero, restInput]
    · exact absurd hk (Nat.not_lt_zero k)
    · cases hc
    · cases hc
    · cases hc
    · change startLen mtd args input = _-((min _ (0*pageLen mtd args) : ℕ) : ℤ)
      rw [Nat.zero_mul, Nat.min_zero, Nat.cast_zero, sub_zero]
    · have hz : startLen mtd args input ≤ 0 := hz
      exact absurd (startLen_pos hio hN hp) (not_lt.mpr hz)
  | pass _ _ hnext hwrite ih =>
    obtain ⟨b, a, hsteady⟩ := ih
    obtain ⟨b', -, a'', -, -, -, -, hu⟩ := hsteady.pass hio hnext hwrite
    exact ⟨b', a'', hu⟩

/-- The rest of the run, from a state that the loop comes to. -/
theorem Reached.run (hrun : mainLoop mtd args env n (mainStart mtd args input flash garbage) = .ok v)
    (h : Reached mtd args env input flash garbage s) : ∃ m, mainLoop mtd args env m s = .ok v := by
  induction h with
  | start => exact ⟨n, hrun⟩
  | pass _ hloop hnext hwrite ih =>
    obtain ⟨m, hm⟩ := ih
    cases m with
    | zero => cases hm
    | succ m =>
      rw [mainLoop, if_pos hloop, hnext] at hm
      rw [Loop.ok_bind] at hm
      dsimp only at hm
      rw [if_neg Bool.false_ne_true, hwrite] at hm
      exact ⟨m, hm⟩

/-- How the loop ends: its condition fails, or the input has ended. -/
theorem Reached.last (h : Reached mtd args env input flash garbage s)
    (hrun : mainLoop mtd args env n s = .ok v) :
    ∃ r, Reached mtd args env input flash garbage r ∧
      ((v = r ∧ ¬ r.Looping mtd) ∨ (r.Looping mtd ∧ nextUnit mtd args env r = .ok (true, v))) := by
  induction n generalizing s with
  | zero => cases hrun
  | succ n ih =>
    rw [mainLoop] at hrun
    split at hrun
    next hloop =>
      obtain ⟨⟨eof, t⟩, hnext, hrest⟩ := Loop.bind_eq_ok hrun
      dsimp only at hrest
      split at hrest
      next heof =>
        cases hrest
        exact ⟨s, h, Or.inr ⟨hloop, heof ▸ hnext⟩⟩
      next heof =>
        rw [Bool.not_eq_true] at heof
        obtain ⟨u, hwrite, hrest⟩ := Loop.bind_eq_ok hrest
        exact ih (Reached.pass h hloop (heof ▸ hnext) hwrite) hrest
    next hstop =>
      cases hrun
      exact ⟨_, h, Or.inl ⟨rfl, hstop⟩⟩

/-- A run that succeeds went through the checks, and nothing is left. -/
theorem nandwriteMain_ok (h : nandwriteMain mtd args env input flash garbage = .ok v) :
    Begun mtd args input ∧
    mainLoop mtd args env (mtd.size+2) (mainStart mtd args input flash garbage) = .ok v ∧
    (args.stdin = false → v.imglen ≤ 0) ∧ ¬ v.Pending := by
  unfold nandwriteMain at h
  dsimp only at h
  split at h
  · cases h
  next hsize =>
    split at h
    · cases h
    next hpage =>
      split at h
      · cases h
      next hseek =>
        split at h
        · cases h
        next hskip =>
          split at h
          · cases h
          next hpad =>
            split at h
            · cases h
            next hfits =>
              split at h
              · cases h
              next hmax =>
                obtain ⟨v', hloop, h⟩ := Loop.bind_eq_ok h
                split at h
                · cases h
                next hend =>
                  cases h
                  rw [not_or, not_and] at hend
                  refine ⟨⟨not_le.mp hsize, not_not.mp hpage, fun hp => ?_, not_lt.mp hskip,
                    fun hp => ?_, not_lt.mp hfits, not_lt.mp hmax⟩, hloop, fun hf => ?_, hend.2⟩
                  · by_contra hne
                    exact hseek ⟨hp, hne⟩
                  · by_contra hne
                    exact hpad ⟨by rw [hp]; rfl, hne⟩
                  · refine not_lt.mp (hend.1 ?_)
                    rw [hf]
                    exact Bool.false_ne_true

end Ends

section Exact

variable {mtd : OobDev} {args : MainArgs} {env : WriteEnv} {input : List Byte} {flash : Flash}
  {garbage : ℕ → Byte} {r s t u v : MainState} {b a k n N : ℕ}

theorem wholeUnits_le_iff (hio : 0 < mtd.min_io_size) :
    wholeUnits mtd args N ≤ k ↔ N ≤ k*pageLen mtd args := by
  have hp : 0 < pageLen mtd args := pageLen_pos hio
  unfold wholeUnits
  rw [← Nat.lt_succ_iff, Nat.div_lt_iff_lt_mul hp, Nat.succ_mul]
  omega

/-- Where the part of a page that is written begins. -/
def handedFrom (mtd : OobDev) (args : MainArgs) : ℕ := if args.onlyoob then mtd.min_io_size else 0

theorem handed_eq (page : List Byte) : handed mtd args page = page.drop (handedFrom mtd args) := by
  unfold handed handedFrom
  split
  · rfl
  · rw [List.drop_zero]

theorem handedFrom_le {y : ℕ} :
    handedFrom mtd args ≤ y ↔ (args.onlyoob = true → mtd.min_io_size ≤ y) := by
  unfold handedFrom
  split
  next ho => exact ⟨fun h _ => h, fun h => h ho⟩
  next ho => exact ⟨fun _ h => absurd h ho, fun _ => Nat.zero_le y⟩

theorem unitBytes_getElem? (d : List Byte) (y : ℕ) : (unitBytes mtd args d k)[y]? =
    if handedFrom mtd args+y < pageLen mtd args then
      some (d.getD (k*pageLen mtd args+(handedFrom mtd args+y)) 0xff#8) else none := by
  unfold unitBytes
  rw [handed_eq, List.getElem?_drop]
  split
  next hin =>
    rw [readBytes, List.getElem?_map, List.getElem?_range hin]
    rfl
  next hout =>
    rw [List.getElem?_eq_none]
    rw [readBytes_length]
    omega

/-- Two inputs have the same page where they have the same bytes in the part that is written. -/
theorem unitBytes_eq_iff {d d' : List Byte} : unitBytes mtd args d k = unitBytes mtd args d' k ↔
    ∀ y < pageLen mtd args, (args.onlyoob = true → mtd.min_io_size ≤ y) →
      d.getD (k*pageLen mtd args+y) 0xff#8 = d'.getD (k*pageLen mtd args+y) 0xff#8 := by
  constructor
  · intro h y hy hoob
    have hle : handedFrom mtd args ≤ y := handedFrom_le.mpr hoob
    have hat : (unitBytes mtd args d k)[y-handedFrom mtd args]? =
        (unitBytes mtd args d' k)[y-handedFrom mtd args]? := by rw [h]
    rw [unitBytes_getElem?, unitBytes_getElem?, Nat.add_sub_cancel' hle, if_pos hy, if_pos hy] at hat
    exact Option.some.inj hat
  · intro h
    apply List.ext_getElem?
    intro y
    rw [unitBytes_getElem?, unitBytes_getElem?]
    split
    next hin => rw [h _ hin (handedFrom_le.mp (Nat.le_add_right _ y))]
    · rfl

/-- The pages of the first `N` bytes are those of the input, where what follows in the last one looks
like padding. -/
theorem unitBytes_take_iff {data : List Byte} (hio : 0 < mtd.min_io_size) :
    (∀ k < wholeUnits mtd args N, unitBytes mtd args data k = unitBytes mtd args (data.take N) k) ↔
      ∀ i, N ≤ i → i < data.length → i < wholeUnits mtd args N*pageLen mtd args →
        (args.onlyoob = true → mtd.min_io_size ≤ i%pageLen mtd args) →
        data.getD i 0xff#8 = 0xff#8 := by
  have hp : 0 < pageLen mtd args := pageLen_pos hio
  have htake (i : ℕ) : (data.take N).getD i 0xff#8 = if i < N then data.getD i 0xff#8 else 0xff#8 := by
    rw [List.getD_eq_getElem?_getD, List.getElem?_take]
    split
    · rw [List.getD_eq_getElem?_getD]
    · rfl
  constructor
  · intro h i hN hi hT hoob
    have hk : i/pageLen mtd args < wholeUnits mtd args N := (Nat.div_lt_iff_lt_mul hp).mpr hT
    have := unitBytes_eq_iff.mp (h _ hk) _ (Nat.mod_lt i hp) hoob
    rw [Nat.div_add_mod', htake, if_neg (not_lt.mpr hN)] at this
    exact this
  · intro h k hk
    rw [unitBytes_eq_iff]
    intro y hy hoob
    rw [htake]
    split
    · rfl
    next hN =>
      by_cases hi : k*pageLen mtd args+y < data.length
      · refine h _ (not_lt.mp hN) hi ?_ fun ho => ?_
        · calc k*pageLen mtd args+y
            _ < (k+1)*pageLen mtd args := by rw [Nat.succ_mul]; omega
            _ ≤ wholeUnits mtd args N*pageLen mtd args := Nat.mul_le_mul_right _ hk
        · rw [Nat.add_comm, Nat.add_mul_mod_self_right, Nat.mod_eq_of_lt hy]
          exact hoob ho
      · rw [List.getD_eq_getElem?_getD, List.getElem?_eq_none (not_lt.mp hi)]
        rfl

end Exact

section Forward

variable {mtd : OobDev} {args : MainArgs} {env : WriteEnv} {input : List Byte} {flash : Flash}
  {garbage : ℕ → Byte} {r s t u v : MainState} {b a b' a' k n N : ℕ}

theorem startLen_file (hN : args.inputsize = N) (hf : args.stdin = false) (hne : N ≠ 0) :
    startLen mtd args input = N := by
  unfold startLen
  rw [hf, if_neg Bool.false_ne_true, if_neg (by omega), hN]

/-- Where a new group takes all of the buffer, no page is left behind. -/
theorem InputFits.turned (hio : 0 < mtd.min_io_size)
    (hf : InputFits mtd args env input flash garbage N)
    (hs : Reached mtd args env input flash garbage s) (hloop : s.Looping mtd)
    (h : Holds mtd args (restInput args input) b a s) (hturn : Turned mtd args s b a b' a') :
    a' = a := by
  rcases hturn.kind with ⟨-, ha, -⟩ | ⟨-, ha, hstart, hne⟩
  · exact ha
  · rcases hf.fits s hs hloop hne with hz | hend
    · rw [ha, hstart ((h.at_start hio).mp hz)]
    · rw [ha, (h.pending_iff hio).mp hend]

/-- A page is read only as long as there are pages of the first `N` bytes. -/
theorem InputFits.reads (hio : 0 < mtd.min_io_size) (hN : args.inputsize = N)
    (hf : InputFits mtd args env input flash garbage N)
    (hs : Reached mtd args env input flash garbage s) (hloop : s.Looping mtd)
    (h : Steady mtd args (restInput args input) (startLen mtd args input) b s.units s)
    (hmore : s.units*pageLen mtd args < (restInput args input).length) :
    s.units < wholeUnits mtd args N := by
  by_contra hge
  have hge := not_lt.mp hge
  have hbytes := (wholeUnits_le_iff hio).mp hge
  cases hstdin : args.stdin with
  | true =>
    have hnil := hf.ends hstdin s hs hloop ((h.holds.pending_iff hio).mpr rfl) hge
    rw [h.holds.input, List.drop_eq_nil_iff] at hnil
    omega
  | false =>
    have hzero : N ≠ 0 := by
      intro hz
      rw [hf.file hstdin hz] at hmore
      exact absurd hmore (Nat.not_lt_zero _)
    have himg := h.counted.file hstdin
    rw [startLen_file hN hstdin hzero, Nat.min_eq_right (Nat.le_of_lt hmore)] at himg
    -- the length is used up, so that the loop goes on for a page in the buffer only
    rcases hloop.1 with hpos | hpend
    · omega
    · cases hw : s.writebuf with
      | none =>
        have := (h.holds.null hw).1
        rw [this, Nat.zero_mul] at hbytes
        omega
      | some w =>
        have hlt := hpend w hw
        have heq := (h.holds.pending_iff hio).mpr rfl
        rw [hw, Option.getD_some] at heq
        omega

/-- Each state has all pages up to the next one on the device, and none behind the first `N` bytes
was sent there. -/
theorem Reached.full (hio : 0 < mtd.min_io_size) (hN : args.inputsize = N)
    (hf : InputFits mtd args env input flash garbage N)
    (hs : Reached mtd args env input flash garbage s) :
    ∃ b a, Steady mtd args (restInput args input) (startLen mtd args input) b a s ∧
      (List.range a).Sublist (s.kept.map UnitCall.unit) ∧
      ∀ c ∈ s.calls, c.unit < wholeUnits mtd args N := by
  induction hs with
  | start =>
    have hs : Reached mtd args env input flash garbage (mainStart mtd args input flash garbage) :=
      Reached.start
    obtain ⟨b, a, h⟩ := hs.steady hio hN
    have hzero : a = 0 := Nat.le_zero.mp h.holds.next
    subst hzero
    exact ⟨b, 0, h, List.nil_sublist _, fun c hc => by cases hc⟩
  | @pass s t u hs hloop hnext hwrite ih =>
    obtain ⟨b, a, h, hfull, hwithin⟩ := ih
    obtain ⟨b', a', a'', hturn, hfetch, hw, hunits, hu⟩ := h.pass hio hnext hwrite
    obtain rfl := hf.turned hio hs hloop h.holds hturn
    have hlt : a' < wholeUnits mtd args N := by
      rcases Nat.lt_or_ge a' s.units with hin | hout
      · obtain ⟨c, hc, hca⟩ := h.sent.each a' hin
        rw [← hca]
        exact hwithin c hc
      · obtain rfl := le_antisymm h.holds.next hout
        rcases hfetch.units with heq | ⟨-, -, hmore⟩
        · have := hfetch.lt
          omega
        · exact hf.reads hio hN hs hloop h hmore
    have hcall (done : Bool) : ∀ c ∈ s.calls ++ [t.call mtd args done],
        c.unit < wholeUnits mtd args N := by
      intro c hc
      rcases List.mem_append.mp hc with hc | hc
      · exact hwithin c hc
      · rw [List.mem_singleton.mp hc, hfetch.holds.call_eq hio hfetch.lt]
        exact hlt
    rcases hw with ⟨-, hh, hc, hk⟩ | ⟨hfail, hh, hc, hk⟩
    · refine ⟨b', a'+1, ⟨hh, hu.sent, hu.counted⟩, ?_, ?_⟩
      · rw [hk, hfetch.kept, hfetch.holds.call_eq hio hfetch.lt, List.map_append, List.range_succ]
        exact hfull.append (List.Sublist.refl _)
      · rw [hc, hfetch.calls]
        exact hcall true
    · refine ⟨b', b', ⟨hh, hu.sent, hu.counted⟩, ?_, ?_⟩
      · rw [hk, ← hfetch.holds.base_eq hio]
        exact hf.rewinds s t hs hloop hnext hfail
      · rw [hc, hfetch.calls]
        exact hcall false

/-- Where nothing is pending, all pages of the buffer were written. -/
theorem Holds.written {data : List Byte} (hio : 0 < mtd.min_io_size)
    (h : Holds mtd args data b a s) (hpend : ¬ s.Pending) : a = s.units := by
  have hb := h.base
  have hlen := h.len
  have hptr := h.ptr
  unfold WriteState.Pending at hpend
  push Not at hpend
  obtain ⟨w, hw, hge⟩ := hpend
  rw [Option.mem_def.mp hw, Option.getD_some] at hptr
  rw [hptr, hlen] at hge
  have := Nat.le_of_mul_le_mul_right hge (pageLen_pos hio)
  have ha := h.next
  omega

/-- Where the condition of the loop fails with nothing pending, all pages were read. -/
theorem InputFits.stops (hio : 0 < mtd.min_io_size) (hN : args.inputsize = N)
    (hlen : N ≤ (restInput args input).length)
    (hf : InputFits mtd args env input flash garbage N)
    (hs : Reached mtd args env input flash garbage s)
    (h : Steady mtd args (restInput args input) (startLen mtd args input) b a s)
    (hstop : ¬ s.Looping mtd) (himg : args.stdin = false → s.imglen ≤ 0) :
    wholeUnits mtd args N ≤ s.units := by
  rw [wholeUnits_le_iff hio]
  cases hstdin : args.stdin with
  | true =>
    by_cases hroom : s.mtdoffset < mtd.size
    · have hle : s.imglen ≤ 0 := not_lt.mp fun hlt => hstop ⟨Or.inl hlt, hroom⟩
      exact hlen.trans (h.counted.pipe hstdin hle)
    · exact (wholeUnits_le_iff hio).mp (hf.room hstdin s hs (not_lt.mp hroom))
  | false =>
    rcases Nat.eq_zero_or_pos N with rfl | hpos
    · exact Nat.zero_le _
    · have hleft := h.counted.file hstdin
      have hle := himg hstdin
      rw [startLen_file hN hstdin (Nat.ne_of_gt hpos)] at hleft
      omega

theorem InputFits.writes (hio : 0 < mtd.min_io_size) (hN : args.inputsize = N)
    (hlen : N ≤ (restInput args input).length)
    (hf : InputFits mtd args env input flash garbage N)
    (hrun : nandwriteMain mtd args env input flash garbage = .ok v) :
    WritesFirst mtd args (restInput args input) N v := by
  obtain ⟨hbegun, hloop, himg, hpend⟩ := nandwriteMain_ok hrun
  obtain ⟨r, hr, hlast⟩ := Reached.start.last hloop
  obtain ⟨b, a, h, hfull, hwithin⟩ := hr.full hio hN hf
  have hend : v.calls = r.calls ∧ v.kept = r.kept ∧ a = r.units ∧ wholeUnits mtd args N ≤ r.units := by
    rcases hlast with ⟨rfl, hstop⟩ | ⟨hgo, hnext⟩
    · exact ⟨rfl, rfl, h.holds.written hio hpend,
        hf.stops hio hN hlen hr h hstop himg⟩
    · obtain ⟨b', hturn, -, hcalls, hkept, hread⟩ := h.holds.ended hio hnext
      have hall := hf.turned hio hr hgo h.holds hturn
      exact ⟨hcalls, hkept, hall.symm, (wholeUnits_le_iff hio).mpr (hlen.trans hread)⟩
  obtain ⟨hcalls, hkept, rfl, hT⟩ := hend
  refine ⟨fun c hc => ?_, ?_⟩
  · rw [hcalls] at hc
    have hlt := hwithin c hc
    refine ⟨hlt, ?_⟩
    rw [(h.sent.calls c hc).2]
    exact (unitBytes_take_iff hio).mpr hf.tail c.unit hlt
  · rw [hkept]
    exact (List.range_sublist.mpr hT).trans hfull

end Forward

section Backward

variable {mtd : OobDev} {args : MainArgs} {env : WriteEnv} {input : List Byte} {flash : Flash}
  {garbage : ℕ → Byte} {data : List Byte} {r s t u v : MainState} {b a b' a' k n N : ℕ} {start : ℤ}

/-- A later state of a run: the calls go on, with pages from `k` on, and what was on the device may
be erased. -/
structure Later (k : ℕ) (s u : MainState) : Prop where
  calls : ∃ new, u.calls = s.calls ++ new
  kept : ∃ old new, u.kept = old ++ new ∧ old.Sublist s.kept ∧ ∀ c ∈ new, k ≤ c.unit

/-- Nothing was sent. -/
theorem Later.same (hcalls : u.calls = s.calls) (hkept : u.kept = s.kept) : Later k s u :=
  ⟨⟨[], by rw [hcalls, List.append_nil]⟩, s.kept, [], by rw [hkept, List.append_nil],
    List.Sublist.refl _, fun _ hc => absurd hc List.not_mem_nil⟩

theorem Later.trans (h : Later k s t) (h' : Later k t u) : Later k s u := by
  obtain ⟨⟨new, hcalls⟩, old, ks, hkept, hold, hks⟩ := h
  obtain ⟨⟨new', hcalls'⟩, old', ks', hkept', hold', hks'⟩ := h'
  refine ⟨⟨new ++ new', by rw [hcalls', hcalls, List.append_assoc]⟩, ?_⟩
  rw [hkept] at hold'
  obtain ⟨x, y, rfl, hx, hy⟩ := List.sublist_append_iff.mp hold'
  refine ⟨x, y ++ ks', by rw [hkept', List.append_assoc], hx.trans hold, fun c hc => ?_⟩
  rcases List.mem_append.mp hc with hc | hc
  · exact hks c (hy.subset hc)
  · exact hks' c hc

theorem Fetched.later (hio : 0 < mtd.min_io_size) (h : Fetched mtd args data b a s t)
    (hw : Wrote mtd args env data b a t u) (hk : k ≤ a) : Later k s u := by
  rcases hw with ⟨-, -, hc, hkept⟩ | ⟨-, -, hc, hkept⟩
  · refine ⟨⟨_, by rw [hc, h.calls]⟩, s.kept, _, by rw [hkept, h.kept], List.Sublist.refl _,
      fun c hmem => ?_⟩
    rw [List.mem_singleton.mp hmem, h.holds.call_eq hio h.lt]
    exact hk
  · refine ⟨⟨_, by rw [hc, h.calls]⟩, u.kept, [], (List.append_nil _).symm, ?_,
      fun _ hmem => absurd hmem List.not_mem_nil⟩
    rw [hkept, MainState.unerased, h.kept]
    exact List.filter_sublist

/-- What is sent after a state are pages from those in the buffer on. -/
theorem Steady.later (hio : 0 < mtd.min_io_size) (h : Steady mtd args data start b a s) (hk : k ≤ b)
    (hrun : mainLoop mtd args env n s = .ok v) : Later k s v := by
  induction n generalizing s b a with
  | zero => cases hrun
  | succ n ih =>
    rw [mainLoop] at hrun
    split at hrun
    · obtain ⟨⟨eof, t⟩, hnext, hrest⟩ := Loop.bind_eq_ok hrun
      dsimp only at hrest
      split at hrest
      next heof =>
        cases hrest
        rw [heof] at hnext
        obtain ⟨b', -, -, hcalls, hkept, -⟩ := h.holds.ended hio hnext
        exact Later.same hcalls hkept
      next heof =>
        rw [Bool.not_eq_true] at heof
        rw [heof] at hnext
        obtain ⟨u, hwrite, hrest⟩ := Loop.bind_eq_ok hrest
        obtain ⟨b', a', a'', hturn, hfetch, hw, -, hu⟩ := h.pass hio hnext hwrite
        have hkb : k ≤ b' := hk.trans hturn.base
        exact (hfetch.later hio hw (hkb.trans hfetch.holds.base)).trans (ih hu hkb hrest)
    · cases hrun
      exact Later.same rfl rfl

/-- A run goes on from a state in which the loop does. -/
theorem Reached.goes (hloop : mainLoop mtd args env n (mainStart mtd args input flash garbage) = .ok v)
    (hs : Reached mtd args env input flash garbage s) (hgo : s.Looping mtd) :
    nextUnit mtd args env s = .ok (true, v) ∨ ∃ t u m, nextUnit mtd args env s = .ok (false, t) ∧
      writeUnit mtd args env t = .ok u ∧ mainLoop mtd args env m u = .ok v := by
  obtain ⟨m, hm⟩ := hs.run hloop
  cases m with
  | zero => cases hm
  | succ m =>
    rw [mainLoop, if_pos hgo] at hm
    obtain ⟨⟨eof, t⟩, hnext, hrest⟩ := Loop.bind_eq_ok hm
    dsimp only at hrest
    split at hrest
    next heof =>
      cases hrest
      exact Or.inl (heof ▸ hnext)
    next heof =>
      rw [Bool.not_eq_true] at heof
      obtain ⟨u, hwrite, hrest⟩ := Loop.bind_eq_ok hrest
      exact Or.inr ⟨t, u, m, heof ▸ hnext, hwrite, hrest⟩

/-- In a run that writes the first `N` bytes, the pages before each state are theirs. -/
theorem WritesFirst.units_le (hw : WritesFirst mtd args data N v) (h : Sent mtd args data s)
    (hlater : Later k s v) : s.units ≤ wholeUnits mtd args N := by
  rcases Nat.eq_zero_or_pos s.units with hz | hpos
  · rw [hz]
    exact Nat.zero_le _
  · obtain ⟨c, hc, hunit⟩ := h.each (s.units-1) (by omega)
    obtain ⟨new, hcalls⟩ := hlater.calls
    have := (hw.only c (by rw [hcalls]; exact List.mem_append_left _ hc)).1
    omega

/-- In a run that writes the first `N` bytes, the pages before those that are still to be sent are
on the device. -/
theorem WritesFirst.before (hw : WritesFirst mtd args data N v) (hk : k ≤ wholeUnits mtd args N)
    (hlater : Later k s v) : (List.range k).Sublist (s.kept.map UnitCall.unit) := by
  obtain ⟨old, new, hkept, hold, hnew⟩ := hlater.kept
  have hsub := hw.all.filter (fun i => decide (i < k))
  have hrange : (List.range (wholeUnits mtd args N)).filter (fun i => decide (i < k)) =
      List.range k := by
    obtain ⟨d, hd⟩ := Nat.exists_eq_add_of_le hk
    rw [hd, List.range_add, List.filter_append, List.filter_eq_self.mpr, List.filter_eq_nil_iff.mpr,
      List.append_nil]
    · intro i hi hlt
      obtain ⟨j, -, rfl⟩ := List.mem_map.mp hi
      exact absurd (of_decide_eq_true hlt) (not_lt.mpr (Nat.le_add_right k j))
    · exact fun i hi => decide_eq_true (List.mem_range.mp hi)
  have hnil : (new.map UnitCall.unit).filter (fun i => decide (i < k)) = [] := by
    rw [List.filter_eq_nil_iff]
    intro i hi hlt
    obtain ⟨c, hc, rfl⟩ := List.mem_map.mp hi
    exact absurd (of_decide_eq_true hlt) (not_lt.mpr (hnew c hc))
  rw [hrange, hkept, List.map_append, List.filter_append, hnil, List.append_nil] at hsub
  exact hsub.trans (List.filter_sublist.trans (hold.map _))

end Backward

section Needs

variable {mtd : OobDev} {args : MainArgs} {env : WriteEnv} {input : List Byte} {flash : Flash}
  {garbage : ℕ → Byte} {r s t u v : MainState} {b a b' a' k n N : ℕ}

/-- The calls of a run are those of the last state that its loop came to. -/
theorem sent_of_run (hio : 0 < mtd.min_io_size) (hN : args.inputsize = N)
    (hloop : mainLoop mtd args env n (mainStart mtd args input flash garbage) = .ok v) :
    ∃ s, Sent mtd args (restInput args input) s ∧ v.calls = s.calls ∧ v.kept = s.kept := by
  obtain ⟨s, hs, hlast⟩ := Reached.start.last hloop
  obtain ⟨b, a, h⟩ := hs.steady hio hN
  rcases hlast with ⟨rfl, -⟩ | ⟨-, hnext⟩
  · exact ⟨v, h.sent, rfl, rfl⟩
  · obtain ⟨b', -, -, hcalls, hkept, -⟩ := h.holds.ended hio hnext
    exact ⟨s, h.sent, hcalls, hkept⟩

/-- What a run that succeeds has sent is what its input has. -/
theorem WritesFirst.tail (hio : 0 < mtd.min_io_size) (hN : args.inputsize = N)
    (hw : WritesFirst mtd args (restInput args input) N v)
    (hloop : mainLoop mtd args env n (mainStart mtd args input flash garbage) = .ok v) :
    ∀ i, N ≤ i → i < (restInput args input).length →
      i < wholeUnits mtd args N*pageLen mtd args →
      (args.onlyoob = true → mtd.min_io_size ≤ i%pageLen mtd args) →
      (restInput args input).getD i 0xff#8 = 0xff#8 := by
  obtain ⟨s, hs, hcalls, hkept⟩ := sent_of_run hio hN hloop
  apply (unitBytes_take_iff hio).mp
  intro k hk
  have hmem : k ∈ v.kept.map UnitCall.unit := hw.all.subset (List.mem_range.mpr hk)
  obtain ⟨c, hc, rfl⟩ := List.mem_map.mp hmem
  rw [hkept] at hc
  have hin := hs.kept c hc
  rw [← (hs.calls c hin).2]
  rw [← hcalls] at hin
  exact (hw.only c hin).2

/-- A page that is read is one of those of the first `N` bytes. -/
theorem WritesFirst.reads (hio : 0 < mtd.min_io_size) (hN : args.inputsize = N)
    (hw : WritesFirst mtd args (restInput args input) N v)
    (hloop : mainLoop mtd args env n (mainStart mtd args input flash garbage) = .ok v)
    (hs : Reached mtd args env input flash garbage s) (hgo : s.Looping mtd)
    (hall : s.writebuf.getD 0 = s.filebuf_len) (hmore : s.input ≠ []) :
    s.units < wholeUnits mtd args N := by
  obtain ⟨b, a, h⟩ := hs.steady hio hN
  have ha := (h.holds.pending_iff hio).mp hall
  rcases hs.goes hloop hgo with hnext | ⟨t, u, m, hnext, hwrite, hrest⟩
  · obtain ⟨-, -, -, -, -, hread⟩ := h.holds.ended hio hnext
    rw [h.holds.input] at hmore
    exact absurd (List.drop_eq_nil_of_le hread) hmore
  · obtain ⟨b', a', a'', hturn, hfetch, hwr, hunits, hu⟩ := h.pass hio hnext hwrite
    have hle := hw.units_le hu.sent (hu.later hio (Nat.zero_le _) hrest)
    have hlt := hfetch.lt
    have hnext := hturn.next
    omega

/-- No page is left behind in a run that writes the first `N` bytes. -/
theorem WritesFirst.fits (hio : 0 < mtd.min_io_size) (hN : args.inputsize = N)
    (hw : WritesFirst mtd args (restInput args input) N v)
    (hloop : mainLoop mtd args env n (mainStart mtd args input flash garbage) = .ok v)
    (hs : Reached mtd args env input flash garbage s) (hgo : s.Looping mtd)
    (hgroup : s.blockstart ≠ groupStart mtd args s.toWriteState) :
    s.writebuf.getD 0 = 0 ∨ s.writebuf.getD 0 = s.filebuf_len := by
  obtain ⟨b, a, h⟩ := hs.steady hio hN
  rw [h.holds.at_start hio, h.holds.pending_iff hio]
  by_contra hnot
  rw [not_or] at hnot
  have hpend : s.writebuf.getD 0 ≠ s.filebuf_len :=
    fun heq => hnot.2 ((h.holds.pending_iff hio).mp heq)
  have hreset {b' a' : ℕ} (hturn : Turned mtd args s b a b' a') : b' = s.units ∧ a' = s.units := by
    rcases hturn.kind with ⟨-, -, hsame | hab⟩ | ⟨hb', ha', -⟩
    · exact absurd hsame hgroup
    · exact absurd hab hnot.1
    · exact ⟨hb', ha'⟩
  -- the pages of the buffer are not sent again
  have hlater : Later s.units s v := by
    rcases hs.goes hloop hgo with hnext | ⟨t, u, m, hnext, hwrite, hrest⟩
    · obtain ⟨b', -, -, hcalls, hkept, -⟩ := h.holds.ended hio hnext
      exact Later.same hcalls hkept
    · obtain ⟨b', a', a'', hturn, hfetch, hwr, -, hu⟩ := h.pass hio hnext hwrite
      obtain ⟨rfl, rfl⟩ := hreset hturn
      exact (hfetch.later hio hwr (le_refl _)).trans (hu.later hio (le_refl _) hrest)
  have hlt : a < s.units := lt_of_le_of_ne h.holds.next hnot.2
  have hsub := hw.before (hw.units_le h.sent hlater) hlater
  have hmem := hsub.subset (List.mem_range.mpr (Nat.sub_lt (Nat.zero_lt_of_lt hlt) Nat.one_pos))
  obtain ⟨c, hc, hunit⟩ := List.mem_map.mp hmem
  have := h.sent.waits hpend c hc
  omega

/-- What was sent before the buffer is still there after an erasure. -/
theorem WritesFirst.rewinds (hio : 0 < mtd.min_io_size) (hN : args.inputsize = N)
    (hw : WritesFirst mtd args (restInput args input) N v)
    (hloop : mainLoop mtd args env n (mainStart mtd args input flash garbage) = .ok v)
    (hs : Reached mtd args env input flash garbage s) (hgo : s.Looping mtd)
    (hnext : nextUnit mtd args env s = .ok (false, t)) (hfail : env.write t.mtdoffset = .eio) :
    (List.range (t.base mtd args)).Sublist ((t.unerased mtd args).map UnitCall.unit) := by
  obtain ⟨b, a, h⟩ := hs.steady hio hN
  rcases hs.goes hloop hgo with hend | ⟨t', u, m, hnext', hwrite, hrest⟩
  · rw [hend] at hnext
    cases hnext
  · rw [hnext] at hnext'
    cases hnext'
    obtain ⟨b', a', a'', hturn, hfetch, hwr, hunits, hu⟩ := h.pass hio hnext hwrite
    have hkept : u.kept = t.unerased mtd args := by
      rcases hwr with ⟨hdone, -, -, -⟩ | ⟨-, -, -, hk⟩
      · rw [hdone] at hfail
        cases hfail
      · exact hk
    have hlater := hu.later hio (le_refl b') hrest
    have hle : b' ≤ wholeUnits mtd args N := by
      have h1 := hw.units_le hu.sent hlater
      have h2 := hfetch.holds.base
      have h3 := hfetch.holds.next
      omega
    rw [hfetch.holds.base_eq hio, ← hkept]
    exact hw.before hle hlater

/-- All of the input is read where no size was given. -/
theorem WritesFirst.file (hio : 0 < mtd.min_io_size) (hN : args.inputsize = N)
    (hw : WritesFirst mtd args (restInput args input) N v) (hbegun : Begun mtd args input)
    (hloop : mainLoop mtd args env n (mainStart mtd args input flash garbage) = .ok v)
    (himg : args.stdin = false → v.imglen ≤ 0) (hstdin : args.stdin = false) (hzero : N = 0) :
    restInput args input = [] := by
  obtain ⟨r, hr, hlast⟩ := Reached.start.last hloop
  obtain ⟨b, a, h⟩ := hr.steady hio hN
  obtain ⟨m, hm⟩ := hr.run hloop
  have hread : (restInput args input).length ≤ r.units*pageLen mtd args := by
    rcases hlast with ⟨rfl, -⟩ | ⟨-, hnext⟩
    · have hleft := h.counted.file hstdin
      have hle := himg hstdin
      have hstart : startLen mtd args input = input.length-args.inputskip := by
        unfold startLen
        rw [hstdin, if_neg Bool.false_ne_true, if_pos (by omega)]
      have hrest : (restInput args input).length = input.length-args.inputskip.toNat :=
        List.length_drop
      have hskip := hbegun.2.2.2.1
      omega
    · obtain ⟨-, -, -, -, -, hread⟩ := h.holds.ended hio hnext
      exact hread
  have hle := hw.units_le h.sent (h.later hio (Nat.zero_le _) hm)
  have hT : wholeUnits mtd args N ≤ 0 := (wholeUnits_le_iff hio).mpr (by omega)
  rw [Nat.le_zero.mp (hle.trans hT), Nat.zero_mul] at hread
  exact List.length_eq_zero_iff.mp (Nat.le_zero.mp hread)

/-- A run that succeeds writes the first `N` bytes, and nothing behind them, exactly where the input
and its steps are like that. -/
theorem input_size_iff (hio : 0 < mtd.min_io_size) (hN : args.inputsize = N)
    (hlen : N ≤ (restInput args input).length)
    (hrun : nandwriteMain mtd args env input flash garbage = .ok v) :
    WritesFirst mtd args (restInput args input) N v ↔
      InputFits mtd args env input flash garbage N := by
  constructor
  · intro hw
    obtain ⟨hbegun, hloop, himg, -⟩ := nandwriteMain_ok hrun
    refine ⟨hw.tail hio hN hloop, hw.file hio hN hbegun hloop himg, ?_, ?_, ?_, ?_⟩
    · intro hstdin s hs hgo hall hT
      by_contra hmore
      exact absurd hT (not_le.mpr (hw.reads hio hN hloop hs hgo hall hmore))
    · intro hstdin s hs hroom
      obtain ⟨m, hm⟩ := hs.run hloop
      obtain ⟨b, a, h⟩ := hs.steady hio hN
      cases m with
      | zero => cases hm
      | succ m =>
        rw [mainLoop, if_neg fun hgo => absurd hgo.2 (not_lt.mpr hroom)] at hm
        cases hm
        by_contra hlt
        have hmem := hw.all.subset (List.mem_range.mpr (not_le.mp hlt))
        obtain ⟨c, hc, hunit⟩ := List.mem_map.mp hmem
        have := (h.sent.calls c (h.sent.kept c hc)).1
        omega
    · exact fun s hs hgo hgroup => hw.fits hio hN hloop hs hgo hgroup
    · exact fun s t hs hgo hnext hfail => hw.rewinds hio hN hloop hs hgo hnext hfail
  · intro hf
    exact hf.writes hio hN hlen hrun

end Needs

section Calm

variable {mtd : OobDev} {args : MainArgs} {env : WriteEnv} {input : List Byte} {flash : Flash}
  {garbage : ℕ → Byte} {s v : MainState} {N : ℕ}

/-- Where no write fails, each page is written before the next one is read. -/
theorem Reached.calm (hio : 0 < mtd.min_io_size) (hN : args.inputsize = N)
    (hcalm : ∀ offs, env.write offs ≠ .eio) (hs : Reached mtd args env input flash garbage s) :
    s.writebuf.getD 0 = s.filebuf_len := by
  induction hs with
  | start => rfl
  | pass hs _ hnext hwrite ih =>
    obtain ⟨b, a, h⟩ := hs.steady hio hN
    obtain ⟨b', a', a'', hturn, hfetch, hw, hunits, -⟩ := h.pass hio hnext hwrite
    have ha := (h.holds.pending_iff hio).mp ih
    have hle := hturn.next
    have hlt := hfetch.lt
    rcases hw with ⟨-, hh, -, -⟩ | ⟨hfail, -, -, -⟩
    · rw [hh.pending_iff hio]
      rcases hfetch.units with heq | ⟨heq, -⟩
      · omega
      · omega
    · exact absurd hfail (hcalm _)

/-- A file of which no write fails: the first `N` bytes are written where what follows in the last
page looks like padding, and, without a size, where there is none. -/
theorem input_size_calm_iff (hio : 0 < mtd.min_io_size) (hN : args.inputsize = N)
    (hlen : N ≤ (restInput args input).length) (hcalm : ∀ offs, env.write offs ≠ .eio)
    (hstdin : args.stdin = false)
    (hrun : nandwriteMain mtd args env input flash garbage = .ok v) :
    WritesFirst mtd args (restInput args input) N v ↔
      (∀ i, N ≤ i → i < (restInput args input).length →
        i < wholeUnits mtd args N*pageLen mtd args →
        (args.onlyoob = true → mtd.min_io_size ≤ i%pageLen mtd args) →
        (restInput args input).getD i 0xff#8 = 0xff#8) ∧ (N = 0 → restInput args input = []) := by
  have hpipe : args.stdin ≠ true := by
    rw [hstdin]
    exact Bool.false_ne_true
  constructor
  · intro hw
    obtain ⟨hbegun, hloop, himg, -⟩ := nandwriteMain_ok hrun
    exact ⟨hw.tail hio hN hloop, hw.file hio hN hbegun hloop himg hstdin⟩
  · rintro ⟨htail, hfile⟩
    have hf : InputFits mtd args env input flash garbage N :=
      ⟨htail, fun _ => hfile, fun hp => absurd hp hpipe, fun hp => absurd hp hpipe,
        fun s hs _ _ => Or.inr (hs.calm hio hN hcalm), fun _ t _ _ _ hfail => absurd hfail (hcalm _)⟩
    exact hf.writes hio hN hlen hrun

theorem no_onlyoob : false = true → false = true := id

theorem no_writeoob : false = false → ¬ (true = true ∧ false = true) := fun _ h => by cases h.2

/-- `--input-size=513 -p` -/
def oddArgs : MainArgs where
  mtdoffset := 0
  inputskip := 0
  blockalign := 1
  markbad := false
  noskipbad := false
  pad := true
  inputsize := 513
  stdin := false
  writeoob := false
  onlyoob := false
  quiet := false
  only_writes := no_onlyoob
  pad_data := no_writeoob

/-- 513 bytes, and ones behind them up to the end of the second page. -/
def paddedFile : List Byte := List.replicate 513 0#8 ++ List.replicate 511 0xff#8

/-- The size ends in the second page, and what follows there looks like padding. -/
theorem input_size_small : 0 < smallChip.min_io_size ∧ oddArgs.inputsize = (513 : ℕ) ∧
    513 ≤ (restInput oddArgs paddedFile).length ∧
    ∃ v, nandwriteMain smallChip oddArgs calmEnv paddedFile thirdBad (fun _ => 0xff#8) = .ok v ∧
      InputFits smallChip oddArgs calmEnv paddedFile thirdBad (fun _ => 0xff#8) 513 ∧
      WritesFirst smallChip oddArgs (restInput oddArgs paddedFile) 513 v := by
  have hsome : (nandwriteMain smallChip oddArgs calmEnv paddedFile thirdBad
    (fun _ => 0xff#8)).toOption.isSome = true := by decide +kernel
  have hlen : 513 ≤ (restInput oddArgs paddedFile).length := by decide +kernel
  have hnofail : ∀ offs, calmEnv.write offs ≠ .eio := fun _ h => by cases h
  have hfits : InputFits smallChip oddArgs calmEnv paddedFile thirdBad (fun _ => 0xff#8) 513 := by
    constructor
    · intro i h513 _ _ _
      change paddedFile.getD i 0xff#8 = 0xff#8
      rw [paddedFile, List.getD_eq_getElem?_getD,
        List.getElem?_append_right (by rwa [List.length_replicate]), List.getElem?_replicate]
      split <;> rfl
    · intro _ h0
      cases h0
    · intro hpipe
      cases hpipe
    · intro hpipe
      cases hpipe
    · exact fun s hs _ _ => .inr (hs.calm (by decide) rfl hnofail)
    · exact fun _ t _ _ _ hfail => absurd hfail (hnofail t.mtdoffset)
  cases hrun : nandwriteMain smallChip oddArgs calmEnv paddedFile thirdBad (fun _ => 0xff#8) with
  | error e =>
    rw [hrun] at hsome
    cases hsome
  | ok v =>
    exact ⟨by decide, rfl, hlen, v, rfl, hfits,
      (input_size_iff (by decide) rfl hlen hrun).mpr hfits⟩

/-- Of a file of two pages, all of the second one is written. -/
theorem writes_behind_size : 513 ≤ (restInput oddArgs (List.replicate 1024 0#8)).length ∧
    ∃ v, nandwriteMain smallChip oddArgs calmEnv (List.replicate 1024 0#8) thirdBad
        (fun _ => 0xff#8) = .ok v ∧
      ¬ WritesFirst smallChip oddArgs (restInput oddArgs (List.replicate 1024 0#8)) 513 v := by
  have hrun : (nandwriteMain smallChip oddArgs calmEnv (List.replicate 1024 0#8) thirdBad
      (fun _ => 0xff#8)).toOption.any (fun v => v.calls.any fun c =>
        c.unit == 1 && c.bytes[1]? == some 0#8) = true := by decide +kernel
  have hpage : (unitBytes smallChip oddArgs
      ((restInput oddArgs (List.replicate 1024 0#8)).take 513) 1)[1]? = some 0xff#8 := by
    decide +kernel
  refine ⟨by decide +kernel, ?_⟩
  cases hv : nandwriteMain smallChip oddArgs calmEnv (List.replicate 1024 0#8) thirdBad
      (fun _ => 0xff#8) with
  | error e =>
    rw [hv] at hrun
    cases hrun
  | ok v =>
    rw [hv] at hrun
    have hrun : (v.calls.any fun c => c.unit == 1 && c.bytes[1]? == some 0#8) = true := hrun
    obtain ⟨c, hc, hbyte⟩ := List.any_eq_true.mp hrun
    rw [Bool.and_eq_true, beq_iff_eq, beq_iff_eq] at hbyte
    refine ⟨v, rfl, fun hw => ?_⟩
    have := (hw.only c hc).2
    rw [hbyte.1] at this
    rw [this, hpage] at hbyte
    cases hbyte.2

end Calm

end ChipTools.Nand
