import ChipTools.NandWrite

/-! `main` of `nandwrite` with all of its options: a file or standard input, pages with OOB data,
and groups of eraseblocks. The eraseblocks that are written, against those that were asked for. -/
namespace ChipTools.Nand
open Bytes Loop Ubi CNumber

section Main

/-- A device with the size of its OOB areas. -/
structure OobDev extends NandDev where
  oob_size : ℕ

/-- The options as `process_options` accepts them. -/
structure MainArgs extends WriteArgs where
  inputsize : ℤ
  stdin : Bool
  writeoob : Bool
  onlyoob : Bool
  quiet : Bool
  only_writes : onlyoob = true → writeoob = true
  pad_data : onlyoob = false → ¬ (pad = true ∧ writeoob = true)

/-- A call of `mtd_write`: the number of the page in the input, and what is written of it, with the
OOB data behind the page. -/
structure UnitCall where
  unit : ℕ
  offs : ℕ
  bytes : List Byte
  done : Bool
deriving DecidableEq

/-- The variables of `main`, how many pages were read, the calls of `mtd_write`, and those of them
whose page was written and not erased since. -/
structure MainState extends WriteState where
  units : ℕ
  calls : List UnitCall
  kept : List UnitCall

variable (mtd : OobDev) (args : MainArgs) (env : WriteEnv)

/-- `ebsize_aligned`. -/
def groupSize : ℕ := ebsizeAligned mtd.toNandDev args.toWriteArgs

/-- `pagelen`. -/
def pageLen : ℕ := mtd.min_io_size+(if args.writeoob then mtd.oob_size else 0)

/-- `filebuf_max`, as an `int`. -/
def filebufMax : ℤ := toInt32 ((groupSize mtd args/mtd.min_io_size*pageLen mtd args : ℕ) : ℤ)

/-- The start of the group of the current offset. -/
def groupStart (s : WriteState) : ℕ := alignDown s.mtdoffset (groupSize mtd args)

/-- The loop that looks for a group without a bad eraseblock. The number of a group that is
printed, and the one that is asked for, is a quotient of its size. -/
def nextGroup (s : MainState) : Except Stop MainState := do
  if s.blockstart = groupStart mtd args s.toWriteState then .ok s
  else if groupSize mtd args = 0 ∧ ¬ (args.quiet ∧ args.noskipbad) then .error .signal
  else
    let w ← skipBlocks mtd.toNandDev args.toWriteArgs env (mtd.size+2) s.toWriteState
    .ok { s with toWriteState := w }

/-- A page is read where the buffer has none, and whether the input has ended. For standard input
`imglen` only tells that there may be more. -/
def readData (s : MainState) : Except Stop (Bool × MainState) :=
  let writebuf := s.writebuf.getD 0
  if s.filebuf_len < writebuf+mtd.min_io_size then
    let readlen := mtd.min_io_size
    let alreadyread := s.filebuf_len-writebuf
    let got := s.input.take (readlen-alreadyread)
    let tinycnt := alreadyread+got.length
    -- behind the end of the buffer
    if filebufMax mtd args < (writebuf+mtd.min_io_size : ℕ) then .error .signal
    else if !env.input s.input.length then .error (.errmsg "File I/O error on input")
    else if tinycnt = 0 then .ok (true, { s with imglen := if args.stdin then 0 else s.imglen })
    else if tinycnt < readlen ∧ !args.pad then
      .error (.errmsg (s!"Unexpected EOF. Expecting at least {readlen-tinycnt} more bytes. " ++
        "Use the padding option."))
    else .ok (false, { s with
      filebuf := setTo (copyTo s.filebuf (writebuf+alreadyread) got) (writebuf+tinycnt)
        (readlen-tinycnt) 0xff#8
      filebuf_len := s.filebuf_len+(readlen-alreadyread)
      imglen := if args.stdin then (if tinycnt < readlen then 0 else s.imglen)
        else s.imglen-(tinycnt-alreadyread : ℕ)
      input := s.input.drop got.length
      units := s.units+1 })
  else .ok (false, s)

/-- The OOB data of the page. -/
def readOob (s : MainState) : Except Stop MainState :=
  let oobbuf := s.writebuf.getD 0+mtd.min_io_size
  if args.writeoob ∧ s.filebuf_len < oobbuf+mtd.oob_size then
    let readlen := mtd.oob_size
    let alreadyread := s.filebuf_len-oobbuf
    let got := s.input.take (readlen-alreadyread)
    let tinycnt := alreadyread+got.length
    if filebufMax mtd args < (oobbuf+mtd.oob_size : ℕ) then .error .signal
    else if !env.input s.input.length then .error (.errmsg "File I/O error on input")
    else if tinycnt < readlen then
      .error (.errmsg s!"Unexpected EOF. Expecting at least {readlen-tinycnt} more bytes for OOB")
    else .ok { s with
      filebuf := copyTo s.filebuf (oobbuf+alreadyread) got
      filebuf_len := s.filebuf_len+(readlen-alreadyread)
      imglen := if args.stdin then s.imglen else s.imglen-(tinycnt-alreadyread : ℕ)
      input := s.input.drop got.length }
  else .ok s

/-- A pass of the loop of `main` up to the write. -/
def nextUnit (s : MainState) : Except Stop (Bool × MainState) := do
  let s ← nextGroup mtd args env s
  let (eof, s) ← readData mtd args env s
  if eof then .ok (true, s)
  else
    let s ← readOob mtd args env s
    .ok (false, s)

/-- An eraseblock of the group. -/
def groupEb (blockstart i : ℕ) : ℕ := (blockstart+i*mtd.eb_size)/mtd.eb_size

/-- A pass of the loop that erases after a failed write: `mtd_erase` knows no eraseblock behind the
device. -/
def eraseMember (blockstart i : ℕ) (flash : Flash) : Except Stop Flash :=
  if mtd.eb_cnt ≤ groupEb mtd blockstart i then .error (.errmsg "MTD Erase failure")
  else eraseFailed mtd.toNandDev env blockstart i flash

/-- What stays on the device where the group is erased. -/
def MainState.unerased (s : MainState) : List UnitCall :=
  s.kept.filter fun c =>
    c.offs/mtd.eb_size ∉ (List.range args.blockalign).map (groupEb mtd s.blockstart.toNat)

/-- What is done about a write that has failed. -/
def recoverGroup (s : MainState) : Except Stop MainState := do
  let flash ← forRange (eraseMember mtd env s.blockstart.toNat) args.blockalign 0 s.flash
  let eb := s.mtdoffset/mtd.eb_size
  if args.markbad ∧ (!mtd.bb_allowed ∨ mtd.eb_cnt ≤ eb ∨ !env.mark eb) then
    .error (.errmsg "MTD Mark bad block failure")
  else .ok { s with
    flash := if args.markbad then
        { flash with bad := fun i => if i = eb then true else flash.bad i } else flash
    writebuf := some 0
    mtdoffset := s.blockstart.toNat+groupSize mtd args
    kept := s.unerased mtd args }

/-- The number of the page at the pointer: those behind it in the buffer were read after it. -/
def MainState.next (s : MainState) : ℕ :=
  s.units-(s.filebuf_len-s.writebuf.getD 0)/pageLen mtd args

/-- The number of the first page in the buffer. -/
def MainState.base (s : MainState) : ℕ := s.units-s.filebuf_len/pageLen mtd args

/-- What `mtd_write` gets of a page: with `--onlyoob`, its OOB data. -/
def handed (page : List Byte) : List Byte :=
  if args.onlyoob then page.drop mtd.min_io_size else page

/-- The call of `mtd_write` for the page at the pointer. -/
def MainState.call (s : MainState) (done : Bool) : UnitCall :=
  ⟨s.next mtd args, s.mtdoffset,
    handed mtd args (readBytes s.filebuf (s.writebuf.getD 0) (pageLen mtd args)), done⟩

/-- What `mtd_write` checks before it writes. -/
def MainState.Valid (s : MainState) : Prop :=
  let offs := s.mtdoffset%mtd.eb_size
  let len := if args.onlyoob then 0 else mtd.min_io_size
  s.mtdoffset/mtd.eb_size < mtd.eb_cnt ∧ offs+len ≤ mtd.eb_size ∧ offs%mtd.subpage_size = 0 ∧
    len%mtd.subpage_size = 0

instance (s : MainState) : Decidable (s.Valid mtd args) :=
  inferInstanceAs (Decidable (_ ∧ _ ∧ _ ∧ _))

/-- The page is written. -/
def writeUnit (s : MainState) : Except Stop MainState :=
  let eb := s.mtdoffset/mtd.eb_size
  let writebuf := s.writebuf.getD 0
  if ¬ s.Valid mtd args then .error (.errmsg "MTD write failure")
  else
    match env.write s.mtdoffset with
    | .other => .error (.errmsg "MTD write failure")
    | .eio => recoverGroup mtd args env { s with calls := s.calls ++ [s.call mtd args false] }
    | .done => .ok { s with
        flash := if args.onlyoob then s.flash
          else putEb s.flash eb (copyTo (s.flash.data eb) (s.mtdoffset%mtd.eb_size)
            (readBytes s.filebuf writebuf mtd.min_io_size))
        calls := s.calls ++ [s.call mtd args true]
        kept := s.kept ++ [s.call mtd args true]
        mtdoffset := s.mtdoffset+mtd.min_io_size
        writebuf := some (writebuf+pageLen mtd args) }

/-- The condition of the loop of `main`. -/
def MainState.Looping (s : MainState) : Prop := (0 < s.imglen ∨ s.Pending) ∧ s.mtdoffset < mtd.size

instance (s : MainState) : Decidable (s.Looping mtd) := inferInstanceAs (Decidable (_ ∧ _))

/-- The loop of `main`, of at most `n` passes. -/
def mainLoop : ℕ → MainState → Except Stop MainState
  | 0, _ => .error .hang
  | n+1, s =>
    if s.Looping mtd then do
      let (eof, s) ← nextUnit mtd args env s
      if eof then .ok s
      else
        let s ← writeUnit mtd args env s
        mainLoop n s
    else .ok s

variable (input : List Byte) (flash : Flash) (garbage : ℕ → Byte)

/-- The length that `main` begins with. -/
def startLen : ℤ :=
  if args.stdin then (if args.inputsize ≠ 0 then args.inputsize else (pageLen mtd args : ℤ))
  else if args.inputsize = 0 then input.length-args.inputskip
  else args.inputsize

def mainStart : MainState where
  flash := flash
  mtdoffset := args.mtdoffset
  blockstart := -1
  filebuf := setTo garbage 0 (filebufMax mtd args).toNat 0xff#8
  filebuf_len := 0
  writebuf := none
  imglen := startLen mtd args input
  input := input.drop args.inputskip.toNat
  log := []
  units := 0
  calls := []
  kept := []

/-- `main`, with what the input has. -/
def nandwriteMain : Except Stop MainState := do
  let imglen := startLen mtd args input
  -- an `int` that overflows: nothing is known of what follows
  if 2^31 ≤ groupSize mtd args then .error .signal
  else if args.mtdoffset &&& (mtd.min_io_size-1) ≠ 0 then
    .error (.errmsg "The start address is not page-aligned !")
  else if args.stdin ∧ args.inputskip ≠ 0 then .error (.errmsg "seeking stdin not supported")
  else if args.inputskip < 0 then .error (.errmsg "lseek input failed")
  else if !args.pad ∧ imglen.tmod (pageLen mtd args) ≠ 0 then
    .error (.errmsg "Input file is not page-aligned. Use the padding option.")
  else if (mtd.size : ℤ)-args.mtdoffset < imglen.tdiv (pageLen mtd args)*mtd.min_io_size then
    .error (.errmsg "Input file does not fit into device")
  else if filebufMax mtd args < 0 then .error (.errmsg "out of memory")
  else
    let s ← mainLoop mtd args env (mtd.size+2) (mainStart mtd args input flash garbage)
    if (¬ args.stdin ∧ 0 < s.imglen) ∨ s.Pending then
      .error (.errmsg "Data was only partially written due to error")
    else .ok s

/-- The states that the loop of `main` comes to. -/
inductive Reached : MainState → Prop
  | start : Reached (mainStart mtd args input flash garbage)
  | pass {s t u : MainState} : Reached s → s.Looping mtd → nextUnit mtd args env s = .ok (false, t) →
    writeUnit mtd args env t = .ok u → Reached u

/-- The states at which the loop that looks for a group begins a pass, before it has asked. -/
inductive Sought : WriteState → Prop
  | first {s : MainState} : Reached mtd args env input flash garbage s → s.Looping mtd →
    s.blockstart ≠ groupStart mtd args s.toWriteState → Sought s.toWriteState
  | next {v w : WriteState} : Sought v →
    newBlock mtd.toNandDev args.toWriteArgs env v = .ok w →
    w.blockstart ≠ groupStart mtd args w → Sought w

/-- What `main` has checked before its loop. -/
def Begun : Prop :=
  groupSize mtd args < 2^31 ∧ args.mtdoffset &&& (mtd.min_io_size-1) = 0 ∧
  (args.stdin = true → args.inputskip = 0) ∧ 0 ≤ args.inputskip ∧
  (args.pad = false → (startLen mtd args input).tmod (pageLen mtd args) = 0) ∧
  (startLen mtd args input).tdiv (pageLen mtd args)*mtd.min_io_size ≤ (mtd.size : ℤ)-args.mtdoffset ∧
  0 ≤ filebufMax mtd args

/-- A write that `main` issues, with the state before it. -/
def Issued (t : MainState) : Prop :=
  Begun mtd args input ∧ ∃ s, Reached mtd args env input flash garbage s ∧ s.Looping mtd ∧
    nextUnit mtd args env s = .ok (false, t) ∧ t.Valid mtd args

end Main

section Groups

variable {mtd : NandDev} {args : WriteArgs} {env : WriteEnv} {flash : Flash} {s s' : WriteState}

/-- What the mask leaves of an offset, and what it takes away. -/
theorem alignDown_add_and {x A : ℕ} (hA : 0 < A) (hA' : A ≤ 2^64) (hx : x < 2^64) :
    alignDown x A+(x &&& (A-1)) = x := by
  let v := BitVec.ofNat 64 x
  let low := BitVec.ofNat 64 (A-1)
  have hdisjoint : (v &&& ~~~low) &&& (v &&& low) = 0#64 := by
    ext i
    simp only [BitVec.getElem_and, BitVec.getElem_not, BitVec.getElem_zero]
    cases v[i] <;> cases low[i] <;> rfl
  have hjoin : (v &&& ~~~low)+(v &&& low) = v := by
    rw [BitVec.add_eq_or_of_and_eq_zero _ _ hdisjoint]
    ext i
    simp only [BitVec.getElem_or, BitVec.getElem_and, BitVec.getElem_not]
    cases v[i] <;> cases low[i] <;> rfl
  have hv : v.toNat = x := Nat.mod_eq_of_lt hx
  have hlow : low.toNat = A-1 := Nat.mod_eq_of_lt (by omega)
  have hhigh : (~~~low).toNat = 2^64-A := by
    rw [BitVec.toNat_not, hlow]
    omega
  have hsum := BitVec.toNat_add_of_and_eq_zero hdisjoint
  rw [hjoin, BitVec.toNat_and, BitVec.toNat_and, hv, hlow, hhigh] at hsum
  exact hsum.symm

theorem alignDown_le (x A : ℕ) : alignDown x A ≤ x := Nat.and_le_left

theorem lt_alignDown_add {x A : ℕ} (hA : 0 < A) (hA' : A ≤ 2^64) (hx : x < 2^64) :
    x < alignDown x A+A := by
  have hsplit := alignDown_add_and hA hA' hx
  have hlow : x &&& (A-1) ≤ A-1 := Nat.and_le_right
  omega

/-- The offsets of the pages behind an offset, up to the next that is in another group. -/
inductive PageFrom (page A : ℕ) (o : ℕ) : ℕ → Prop
  | here : PageFrom page A o o
  | next {x : ℕ} : PageFrom page A o x → alignDown (x+page) A = alignDown x A →
    PageFrom page A o (x+page)

theorem PageFrom.start {page A o x : ℕ} (h : PageFrom page A o x) :
    alignDown x A = alignDown o A := by
  induction h with
  | here => rfl
  | next _ hsame ih => exact hsame.trans ih

/-- Where a group is left, the next offset is not in it. -/
theorem alignDown_next {b A : ℕ} (hA : 0 < A) (hA' : A ≤ 2^64) (hb : b+A < 2^64) :
    alignDown (b+A) A ≠ b := by
  intro heq
  have := lt_alignDown_add hA hA' hb
  omega

/-- The number that is asked for. -/
def askedEb (mtd : NandDev) (args : WriteArgs) (blockstart i : ℕ) : ℕ :=
  (blockstart+i*mtd.eb_size)/ebsizeAligned mtd args

/-- None of the numbers that are asked for is bad. -/
def AskedGood (mtd : NandDev) (args : WriteArgs) (flash : Flash) (blockstart : ℕ) : Prop :=
  ∀ i < args.blockalign, askedEb mtd args blockstart i < mtd.eb_cnt ∧
    isBad mtd flash (askedEb mtd args blockstart i) = false

theorem checkBlock_ok {blockstart i : ℕ} {r r' : Bool × WriteState} (hb : 0 < args.blockalign)
    (h : checkBlock mtd args env blockstart i r = .ok r') :
    askedEb mtd args blockstart i < mtd.eb_cnt ∧
    ((r.1 = false ∧ isBad mtd r.2.flash (askedEb mtd args blockstart i) = false ∧ r' = (false, r.2)) ∨
      (blockstart+ebsizeAligned mtd args ≤ mtd.size ∧
        r' = (true, { r.2 with mtdoffset := blockstart+ebsizeAligned mtd args }))) := by
  unfold checkBlock at h
  dsimp only at h
  rw [ebsizeAligned, Nat.mul_div_cancel _ hb, ← ebsizeAligned] at h
  obtain ⟨bad, hbad, h⟩ := Loop.bind_eq_ok h
  obtain ⟨hlt, rfl⟩ := mtdIsBad_ok hbad
  refine ⟨hlt, ?_⟩
  split at h
  · split at h
    · cases h
    next hsize =>
      cases h
      exact Or.inr ⟨not_lt.mp hsize, rfl⟩
  next hgood =>
    cases h
    rw [Bool.not_eq_true, Bool.or_eq_false_iff] at hgood
    exact Or.inl ⟨hgood.1, hgood.2, rfl⟩

/-- The loop over the eraseblocks of a group: where none that was asked for is bad the offset stays,
otherwise it is set behind the group. -/
theorem checkBlocks_ok {blockstart : ℕ} {r : Bool × WriteState}
    (h : forRange (checkBlock mtd args env blockstart) args.blockalign 0 (false, s) = .ok r) :
    (AskedGood mtd args s.flash blockstart ∧ r = (false, s)) ∨
      (blockstart+ebsizeAligned mtd args ≤ mtd.size ∧
        r = (true, { s with mtdoffset := blockstart+ebsizeAligned mtd args })) := by
  have hinv := forRange_inv (P := fun j r =>
    ((∀ i < j, askedEb mtd args blockstart i < mtd.eb_cnt ∧
        isBad mtd s.flash (askedEb mtd args blockstart i) = false) ∧ r = (false, s)) ∨
      (blockstart+ebsizeAligned mtd args ≤ mtd.size ∧
        r = (true, { s with mtdoffset := blockstart+ebsizeAligned mtd args }))) ?_ ?_ h
  · rw [Nat.zero_add] at hinv
    exact hinv
  · rintro j t t' - hj hcase hpass
    have hb : 0 < args.blockalign := by omega
    rcases hcase with ⟨hgood, rfl⟩ | ⟨hsize, rfl⟩
    · obtain ⟨hlt, ⟨-, hnot, rfl⟩ | ⟨hle, rfl⟩⟩ := checkBlock_ok hb hpass
      · refine Or.inl ⟨fun i hi => ?_, rfl⟩
        rcases Nat.lt_succ_iff_lt_or_eq.mp hi with hi | rfl
        · exact hgood i hi
        · exact ⟨hlt, hnot⟩
      · exact Or.inr ⟨hle, rfl⟩
    · obtain ⟨-, ⟨hfalse, -⟩ | ⟨hle, rfl⟩⟩ := checkBlock_ok hb hpass
      · cases hfalse
      · exact Or.inr ⟨hle, rfl⟩
  · exact Or.inl ⟨fun i hi => absurd hi (Nat.not_lt_zero i), rfl⟩

theorem freshBuf_place (s : WriteState) (b : ℤ) :
    freshBuf { s with blockstart := b } = { freshBuf s with blockstart := b } := by
  by_cases h : s.writebuf = some 0
  · rw [freshBuf_replay h, freshBuf_replay (s := { s with blockstart := b }) h]
  · rw [freshBuf, if_pos h, freshBuf, if_pos h]

/-- A pass of the search for a group. -/
theorem newBlock_cases (h : newBlock mtd args env s = .ok s') :
    ∃ o, s' = { freshBuf s with
        blockstart := (alignDown s.mtdoffset (ebsizeAligned mtd args) : ℕ), mtdoffset := o } ∧
      ((o = s.mtdoffset ∧ (args.noskipbad = false →
          AskedGood mtd args s.flash (alignDown s.mtdoffset (ebsizeAligned mtd args)))) ∨
        (args.noskipbad = false ∧ o ≤ mtd.size ∧
          o = alignDown s.mtdoffset (ebsizeAligned mtd args)+ebsizeAligned mtd args)) := by
  obtain ⟨hoff, -, hflash, -⟩ := freshBuf_frame s
  unfold newBlock at h
  dsimp only at h
  rw [freshBuf_place] at h
  split at h
  next hno =>
    cases h
    refine ⟨s.mtdoffset, by rw [← hoff], Or.inl ⟨rfl, fun hn => ?_⟩⟩
    rw [hno] at hn
    cases hn
  next hno =>
    rw [Bool.not_eq_true] at hno
    obtain ⟨r, hr, h⟩ := Loop.bind_eq_ok h
    rcases checkBlocks_ok hr with ⟨hgood, rfl⟩ | ⟨hsize, rfl⟩
    · cases h
      refine ⟨s.mtdoffset, by rw [← hoff], Or.inl ⟨rfl, fun _ => ?_⟩⟩
      dsimp only at hgood
      rwa [hflash] at hgood
    · cases h
      exact ⟨_, rfl, Or.inr ⟨hno, hsize, rfl⟩⟩

/-- The search for a group changes the place, and the buffer once. -/
theorem skipBlocks_frame {n : ℕ} (h : skipBlocks mtd args env n s = .ok s')
    (hne : s.blockstart ≠ alignDown s.mtdoffset (ebsizeAligned mtd args)) :
    ∃ o, s' = { freshBuf s with
      blockstart := (alignDown o (ebsizeAligned mtd args) : ℕ), mtdoffset := o } := by
  induction n generalizing s with
  | zero => cases h
  | succ n ih =>
    rw [skipBlocks, if_neg hne] at h
    obtain ⟨s₁, hnew, hrest⟩ := Loop.bind_eq_ok h
    obtain ⟨o, rfl, -⟩ := newBlock_cases hnew
    by_cases hstop : alignDown s.mtdoffset (ebsizeAligned mtd args) =
        alignDown o (ebsizeAligned mtd args)
    · cases n with
      | zero => cases hrest
      | succ n =>
        rw [skipBlocks, if_pos (by dsimp only; rw [hstop])] at hrest
        cases hrest
        exact ⟨o, by rw [hstop]⟩
    · obtain ⟨o', rfl⟩ := ih hrest fun heq => hstop (Int.ofNat_inj.mp heq)
      have hwb : (freshBuf s).writebuf = some 0 := freshBuf_writebuf s
      refine ⟨o', ?_⟩
      rw [freshBuf_replay (by exact hwb)]

/-- The last pass of the search for a group. -/
theorem skipBlocks_last {P : WriteState → Prop} {n : ℕ}
    (hnext : ∀ v w, P v → newBlock mtd args env v = .ok w →
      w.blockstart ≠ alignDown w.mtdoffset (ebsizeAligned mtd args) → P w) (hs : P s)
    (hne : s.blockstart ≠ alignDown s.mtdoffset (ebsizeAligned mtd args))
    (h : skipBlocks mtd args env n s = .ok s') :
    ∃ w, P w ∧ newBlock mtd args env w = .ok s' ∧
      s'.blockstart = alignDown s'.mtdoffset (ebsizeAligned mtd args) := by
  induction n generalizing s with
  | zero => cases h
  | succ n ih =>
    rw [skipBlocks, if_neg hne] at h
    obtain ⟨w, hnew, hrest⟩ := Loop.bind_eq_ok h
    by_cases hstop : w.blockstart = alignDown w.mtdoffset (ebsizeAligned mtd args)
    · cases n with
      | zero => cases hrest
      | succ n =>
        rw [skipBlocks, if_pos hstop] at hrest
        cases hrest
        exact ⟨s, hs, hnew, hstop⟩
    · exact ih (hnext s w hs hnew hstop) hstop hrest

/-- The pass after which a group is kept leaves the offset. -/
theorem newBlock_kept (hA : 0 < ebsizeAligned mtd args) (hA' : ebsizeAligned mtd args ≤ 2^64)
    (hsize : mtd.size < 2^64) (h : newBlock mtd args env s = .ok s')
    (hkept : s'.blockstart = alignDown s'.mtdoffset (ebsizeAligned mtd args)) :
    s'.mtdoffset = s.mtdoffset ∧ s'.flash = s.flash := by
  obtain ⟨-, -, hflash, -⟩ := freshBuf_frame s
  obtain ⟨o, rfl, ⟨rfl, -⟩ | ⟨-, hle, ho⟩⟩ := newBlock_cases h
  · exact ⟨rfl, hflash⟩
  · have hnext := alignDown_next hA hA' (ho ▸ hle.trans_lt hsize)
    rw [← ho] at hnext
    exact absurd (Int.ofNat_inj.mp hkept).symm hnext

/-- The search for a group: it ends at the start of one of which nothing that was asked for is bad,
with the buffer of a new group. -/
theorem skipBlocks_cases (hA : args.noskipbad = false → 0 < ebsizeAligned mtd args)
    (hA' : ebsizeAligned mtd args ≤ 2^64) (hsize : mtd.size < 2^64) {n : ℕ}
    (h : skipBlocks mtd args env n s = .ok s') :
    (s.blockstart = alignDown s.mtdoffset (ebsizeAligned mtd args) ∧ s' = s) ∨
      (s.blockstart ≠ alignDown s.mtdoffset (ebsizeAligned mtd args) ∧ ∃ o,
        s' = { freshBuf s with
          blockstart := (alignDown o (ebsizeAligned mtd args) : ℕ), mtdoffset := o } ∧
        (o = s.mtdoffset ∨ o ≤ mtd.size) ∧
        (args.noskipbad = false →
          AskedGood mtd args s.flash (alignDown o (ebsizeAligned mtd args)))) := by
  induction n generalizing s with
  | zero => cases h
  | succ n ih =>
    rw [skipBlocks] at h
    split at h
    next heq =>
      cases h
      exact Or.inl ⟨heq, rfl⟩
    next hne =>
      refine Or.inr ⟨hne, ?_⟩
      obtain ⟨s₁, hnew, hrest⟩ := Loop.bind_eq_ok h
      obtain ⟨o, rfl, hcase⟩ := newBlock_cases hnew
      have hwb : (freshBuf s).writebuf = some 0 := freshBuf_writebuf s
      obtain ⟨-, -, hflash, -⟩ := freshBuf_frame s
      rcases ih hrest with ⟨hstop, rfl⟩ | ⟨-, o', hs', ho', hgood'⟩
      · dsimp only at hstop
        rcases hcase with ⟨rfl, hgood⟩ | ⟨hno, hle, ho⟩
        · exact ⟨_, rfl, Or.inl rfl, hgood⟩
        · -- behind a group with a bad eraseblock, the search goes on
          have hnext := alignDown_next (hA hno) hA' (ho ▸ hle.trans_lt hsize)
          rw [← ho] at hnext
          exact absurd (Int.ofNat_inj.mp hstop).symm hnext
      · -- the buffer is at its start: a further pass keeps it
        rw [freshBuf_replay (by exact hwb)] at hs'
        refine ⟨o', hs', ?_, fun hn => hflash ▸ hgood' hn⟩
        rcases ho' with rfl | ho'
        · rcases hcase with ⟨rfl, -⟩ | ⟨-, hle, -⟩
          · exact Or.inl rfl
          · exact Or.inr hle
        · exact Or.inr ho'

end Groups

section Safe

variable {mtd : OobDev} {args : MainArgs} {env : WriteEnv} {input : List Byte} {flash : Flash}
  {garbage : ℕ → Byte} {s t u : MainState} {eof : Bool}

/-- The start of a new group: its place, and the buffer. -/
def MainState.moved (mtd : OobDev) (args : MainArgs) (s : MainState) (o : ℕ) : MainState :=
  { s with toWriteState := { freshBuf s.toWriteState with
      blockstart := (alignDown o (groupSize mtd args) : ℕ), mtdoffset := o } }

/-- What the numbers that are asked for tell of the group of an offset. -/
abbrev MainState.Asked (mtd : OobDev) (args : MainArgs) (s : MainState) : Prop :=
  AskedGood mtd.toNandDev args.toWriteArgs s.flash (groupStart mtd args s.toWriteState)

theorem nextGroup_cases (hA : groupSize mtd args < 2^31) (hsize : mtd.size < 2^63)
    (h : nextGroup mtd args env s = .ok t) :
    (s.blockstart = groupStart mtd args s.toWriteState ∧ t = s) ∨
      (s.blockstart ≠ groupStart mtd args s.toWriteState ∧ ∃ o, t = s.moved mtd args o ∧
        (o = s.mtdoffset ∨ o ≤ mtd.size) ∧
        (args.noskipbad = false → 0 < groupSize mtd args ∧ t.Asked mtd args)) := by
  unfold nextGroup at h
  split at h
  next heq =>
    cases h
    exact Or.inl ⟨heq, rfl⟩
  next hne =>
    refine Or.inr ⟨hne, ?_⟩
    split at h
    · cases h
    next hzero =>
      have hpos (hn : args.noskipbad = false) : 0 < ebsizeAligned mtd.toNandDev args.toWriteArgs := by
        rcases Nat.eq_zero_or_pos (ebsizeAligned mtd.toNandDev args.toWriteArgs) with h0 | h0
        · exact absurd ⟨h0, fun hq => by rw [hn] at hq; cases hq.2⟩ hzero
        · exact h0
      have hle : ebsizeAligned mtd.toNandDev args.toWriteArgs ≤ 2^64 := by
        have : groupSize mtd args = ebsizeAligned mtd.toNandDev args.toWriteArgs := rfl
        omega
      obtain ⟨w, hw, h⟩ := Loop.bind_eq_ok h
      cases h
      rcases skipBlocks_cases hpos hle (by omega) hw with ⟨heq, -⟩ | ⟨-, o, rfl, ho, hgood⟩
      · exact absurd heq hne
      · refine ⟨o, rfl, ho, fun hn => ?_⟩
        obtain ⟨-, -, hflash, -⟩ := freshBuf_frame s.toWriteState
        have := hgood hn
        rw [← hflash] at this
        exact ⟨hpos hn, this⟩

/-- A pass up to its write begins a new group where the offset has left the old one. -/
theorem nextGroup_frame (h : nextGroup mtd args env s = .ok t) :
    (s.blockstart = groupStart mtd args s.toWriteState ∧ t = s) ∨
      (s.blockstart ≠ groupStart mtd args s.toWriteState ∧ ∃ o, t = s.moved mtd args o) := by
  unfold nextGroup at h
  split at h
  next heq =>
    cases h
    exact Or.inl ⟨heq, rfl⟩
  next hne =>
    refine Or.inr ⟨hne, ?_⟩
    split at h
    · cases h
    · obtain ⟨w, hw, h⟩ := Loop.bind_eq_ok h
      cases h
      obtain ⟨o, rfl⟩ := skipBlocks_frame hw hne
      exact ⟨o, rfl⟩

/-- Reading changes neither the device nor the place on it. -/
theorem readData_frame (h : readData mtd args env s = .ok (eof, t)) :
    t.flash = s.flash ∧ t.mtdoffset = s.mtdoffset ∧ t.blockstart = s.blockstart := by
  unfold readData at h
  dsimp only at h
  split at h
  · split at h
    · cases h
    · split at h
      · cases h
      · split at h
        · cases h
          exact ⟨rfl, rfl, rfl⟩
        · split at h
          · cases h
          · cases h
            exact ⟨rfl, rfl, rfl⟩
  · cases h
    exact ⟨rfl, rfl, rfl⟩

theorem readOob_frame (h : readOob mtd args env s = .ok t) :
    t.flash = s.flash ∧ t.mtdoffset = s.mtdoffset ∧ t.blockstart = s.blockstart := by
  unfold readOob at h
  dsimp only at h
  split at h
  · split at h
    · cases h
    · split at h
      · cases h
      · split at h
        · cases h
        · cases h
          exact ⟨rfl, rfl, rfl⟩
  · cases h
    exact ⟨rfl, rfl, rfl⟩

/-- A pass up to its write: a group, a page of data, and its OOB data. -/
theorem nextUnit_steps (h : nextUnit mtd args env s = .ok (false, u)) :
    ∃ s₁ s₂, nextGroup mtd args env s = .ok s₁ ∧ readData mtd args env s₁ = .ok (false, s₂) ∧
      readOob mtd args env s₂ = .ok u := by
  obtain ⟨s₁, hgroup, h⟩ := Loop.bind_eq_ok h
  obtain ⟨⟨eof, s₂⟩, hdata, h⟩ := Loop.bind_eq_ok h
  dsimp only at h
  split at h
  · cases h
  next heof =>
    rw [Bool.not_eq_true] at heof
    obtain ⟨s₃, hoob, h⟩ := Loop.bind_eq_ok h
    cases h
    exact ⟨s₁, s₂, hgroup, heof ▸ hdata, hoob⟩

/-- The group of the offset was looked for: the loop has asked for it where the bad eraseblocks were
the same, and the page is one of those that follow. -/
def MainState.Found (mtd : OobDev) (args : MainArgs) (env : WriteEnv) (input : List Byte)
    (flash : Flash) (garbage : ℕ → Byte) (s : MainState) : Prop :=
  ∃ w, Sought mtd args env input flash garbage w ∧ w.flash.bad = s.flash.bad ∧
    PageFrom mtd.min_io_size (groupSize mtd args) w.mtdoffset s.mtdoffset

/-- In a group that was begun, nothing that was asked for is bad. -/
def MainState.Checked (mtd : OobDev) (args : MainArgs) (env : WriteEnv) (input : List Byte)
    (flash : Flash) (garbage : ℕ → Byte) (s : MainState) : Prop :=
  s.blockstart = groupStart mtd args s.toWriteState →
    0 < groupSize mtd args ∧ s.Asked mtd args ∧ s.Found mtd args env input flash garbage

/-- What holds where a write is issued. -/
structure Ready (mtd : OobDev) (args : MainArgs) (env : WriteEnv) (input : List Byte)
    (flash : Flash) (garbage : ℕ → Byte) (t : MainState) : Prop where
  pos : 0 < groupSize mtd args
  start : t.blockstart = groupStart mtd args t.toWriteState
  asked : t.Asked mtd args
  found : t.Found mtd args env input flash garbage
  within : t.mtdoffset ≤ mtd.size

/-- A new group was looked for from the offset of the pass. -/
theorem nextGroup_found (hA : groupSize mtd args < 2^31) (hpos : 0 < groupSize mtd args)
    (hsize : mtd.size < 2^63) (hs : Reached mtd args env input flash garbage s)
    (hloop : s.Looping mtd) (hne : s.blockstart ≠ groupStart mtd args s.toWriteState)
    (h : nextGroup mtd args env s = .ok t) : t.Found mtd args env input flash garbage := by
  unfold nextGroup at h
  rw [if_neg hne] at h
  split at h
  · cases h
  · obtain ⟨w, hw, h⟩ := Loop.bind_eq_ok h
    cases h
    obtain ⟨v, hv, hnew, hkept⟩ := skipBlocks_last
      (P := Sought mtd args env input flash garbage) (fun _ _ => Sought.next)
      (Sought.first hs hloop hne) hne hw
    have hle : groupSize mtd args ≤ 2^64 := by omega
    obtain ⟨hoff, hflash⟩ := newBlock_kept hpos hle (by omega) hnew hkept
    refine ⟨v, hv, congrArg Flash.bad hflash.symm, ?_⟩
    dsimp only
    rw [hoff]
    exact PageFrom.here

theorem nextUnit_ready (hA : groupSize mtd args < 2^31) (hsize : mtd.size < 2^63)
    (hn : args.noskipbad = false) (hr : Reached mtd args env input flash garbage s)
    (hs : s.Checked mtd args env input flash garbage) (hloop : s.Looping mtd)
    (h : nextUnit mtd args env s = .ok (false, u)) :
    Ready mtd args env input flash garbage u := by
  obtain ⟨s₁, s₂, hgroup, hdata, hoob⟩ := nextUnit_steps h
  have hready : Ready mtd args env input flash garbage s₁ := by
    rcases nextGroup_cases hA hsize hgroup with ⟨heq, rfl⟩ | ⟨hne, o, rfl, ho, hgood⟩
    · exact ⟨(hs heq).1, heq, (hs heq).2.1, (hs heq).2.2, Nat.le_of_lt hloop.2⟩
    · refine ⟨(hgood hn).1, rfl, (hgood hn).2,
        nextGroup_found hA (hgood hn).1 hsize hr hloop hne hgroup, ?_⟩
      rcases ho with rfl | ho
      · exact Nat.le_of_lt hloop.2
      · exact ho
  obtain ⟨hflash, hoff, hstart⟩ := readData_frame hdata
  obtain ⟨hflash', hoff', hstart'⟩ := readOob_frame hoob
  obtain ⟨hpos, hplace, hasked, hfound, hle⟩ := hready
  have hgs : groupStart mtd args u.toWriteState = groupStart mtd args s₁.toWriteState := by
    unfold groupStart
    rw [hoff', hoff]
  refine ⟨hpos, ?_, ?_, ?_, ?_⟩
  · rw [hstart', hstart, hgs]
    exact hplace
  · unfold MainState.Asked
    rw [hflash', hflash, hgs]
    exact hasked
  · unfold MainState.Found
    rw [hflash', hflash, hoff', hoff]
    exact hfound
  · rw [hoff', hoff]
    exact hle

/-- A write that fails is followed by one behind the group. -/
theorem recoverGroup_place (h : recoverGroup mtd args env s = .ok u) :
    u.mtdoffset = s.blockstart.toNat+groupSize mtd args ∧ u.blockstart = s.blockstart := by
  obtain ⟨flash', -, h⟩ := Loop.bind_eq_ok h
  dsimp only at h
  split at h
  · cases h
  · cases h
    exact ⟨rfl, rfl⟩

/-- The write itself: the map of the bad eraseblocks changes where it fails only, and then the group
is left. -/
theorem writeUnit_cases (h : writeUnit mtd args env t = .ok u) :
    (u.blockstart = t.blockstart ∧ u.flash.bad = t.flash.bad ∧
        u.mtdoffset = t.mtdoffset+mtd.min_io_size) ∨
      (u.mtdoffset = t.blockstart.toNat+groupSize mtd args ∧ u.blockstart = t.blockstart) := by
  unfold writeUnit at h
  dsimp only at h
  split at h
  · cases h
  · split at h
    · cases h
    · exact Or.inr (recoverGroup_place (s := { t with calls := t.calls ++ [t.call mtd args false] }) h)
    · cases h
      refine Or.inl ⟨rfl, ?_, rfl⟩
      dsimp only
      split <;> rfl

theorem writeUnit_checked (hA : groupSize mtd args < 2^31) (hsize : mtd.size < 2^63)
    (ht : Ready mtd args env input flash garbage t) (h : writeUnit mtd args env t = .ok u) :
    u.Checked mtd args env input flash garbage := by
  intro hsame
  rcases writeUnit_cases h with ⟨hstart, hbad, hoff⟩ | ⟨hoff, hstart⟩
  · have hgs : groupStart mtd args u.toWriteState = groupStart mtd args t.toWriteState := by
      rw [← Int.ofNat_inj, ← hsame, hstart, ht.start]
    refine ⟨ht.pos, fun i hi => ?_, ?_⟩
    · have := ht.asked i hi
      unfold isBad at this ⊢
      rw [hbad, hgs]
      exact this
    · -- the next page of the same group
      obtain ⟨w, hw, hmap, hpage⟩ := ht.found
      unfold groupStart at hgs
      rw [hoff] at hgs
      exact ⟨w, hw, hmap.trans hbad.symm, hoff ▸ hpage.next hgs⟩
  · -- behind the group, which is another one
    have hplace := ht.start
    have hle : groupStart mtd args t.toWriteState ≤ t.mtdoffset := alignDown_le _ _
    have hin := ht.within
    have hnext := @alignDown_next (groupStart mtd args t.toWriteState) (groupSize mtd args) ht.pos
      (by omega) (by omega)
    rw [hplace, Int.toNat_natCast] at hoff
    rw [hstart, hplace, Int.ofNat_inj] at hsame
    unfold groupStart at hsame hnext hoff
    rw [hoff] at hsame
    exact absurd hsame.symm hnext

/-- In each state that the loop comes to, what was asked for is good. -/
theorem Reached.checked (hA : groupSize mtd args < 2^31) (hsize : mtd.size < 2^63)
    (hn : args.noskipbad = false) (h : Reached mtd args env input flash garbage s) :
    s.Checked mtd args env input flash garbage := by
  induction h with
  | start =>
    intro hneg
    have hneg : (-1 : ℤ) = _ := hneg
    omega
  | pass hs hloop hnext hwrite ih =>
    exact writeUnit_checked hA hsize (nextUnit_ready hA hsize hn hs ih hloop hnext) hwrite

/-- Without `--markbad` the map of the bad eraseblocks stays as it is. -/
theorem recoverGroup_bad (hm : args.markbad = false) (h : recoverGroup mtd args env s = .ok u) :
    u.flash.bad = s.flash.bad := by
  obtain ⟨flash', herase, h⟩ := Loop.bind_eq_ok h
  have hmap : flash'.bad = s.flash.bad := by
    refine forRange_inv (P := fun _ (f : Flash) => f.bad = s.flash.bad) ?_ rfl herase
    intro j f f' _ _ hf hpass
    unfold eraseMember eraseFailed at hpass
    split at hpass
    · cases hpass
    · dsimp only at hpass
      split at hpass
      · cases hpass
      · cases hpass
        exact hf
  dsimp only at h
  split at h
  · cases h
  · cases h
    dsimp only
    rw [hm, if_neg Bool.false_ne_true]
    exact hmap

theorem writeUnit_bad (hm : args.markbad = false) (h : writeUnit mtd args env t = .ok u) :
    u.flash.bad = t.flash.bad := by
  unfold writeUnit at h
  dsimp only at h
  split at h
  · cases h
  · split at h
    · cases h
    · exact recoverGroup_bad (s := { t with calls := t.calls ++ [t.call mtd args false] }) hm h
    · cases h
      dsimp only
      split <;> rfl

theorem nextUnit_bad (h : nextUnit mtd args env s = .ok (false, u)) :
    u.flash.bad = s.flash.bad := by
  obtain ⟨s₁, s₂, hgroup, hdata, hoob⟩ := nextUnit_steps h
  have hmap : s₁.flash = s.flash := by
    rcases nextGroup_frame hgroup with ⟨-, rfl⟩ | ⟨-, o, rfl⟩
    · rfl
    · exact (freshBuf_frame s.toWriteState).2.2.1
  rw [(readOob_frame hoob).1, (readData_frame hdata).1, hmap]

theorem Reached.bad (hm : args.markbad = false)
    (h : Reached mtd args env input flash garbage s) : s.flash.bad = flash.bad := by
  induction h with
  | start => rfl
  | pass _ _ hnext hwrite ih => exact ((writeUnit_bad hm hwrite).trans (nextUnit_bad hnext)).trans ih

theorem Sought.bad (hm : args.markbad = false) {w : WriteState}
    (h : Sought mtd args env input flash garbage w) : w.flash.bad = flash.bad := by
  induction h with
  | first hs _ _ => exact hs.bad hm
  | next _ hnew _ ih =>
    obtain ⟨o, rfl, -⟩ := newBlock_cases hnew
    rename_i v _ _
    exact (congrArg Flash.bad (freshBuf_frame v).2.2.1).trans ih

end Safe

section Target

variable {mtd : OobDev} {args : MainArgs} {env : WriteEnv} {input : List Byte} {flash : Flash}
  {garbage : ℕ → Byte} {t : MainState}

/-- An eraseblock that a write is about: the one of the page and, with `--blockalign`, those of its
group. -/
def MainState.Target (mtd : OobDev) (args : MainArgs) (t : MainState) (eb : ℕ) : Prop :=
  eb = t.mtdoffset/mtd.eb_size ∨
    (1 < args.blockalign ∧ eb < mtd.eb_cnt ∧
      ∃ i < args.blockalign, eb = groupEb mtd (groupStart mtd args t.toWriteState) i)

/-- None of these is bad. -/
def MainState.WriteSafe (mtd : OobDev) (args : MainArgs) (t : MainState) : Prop :=
  ∀ eb, t.Target mtd args eb → eb < mtd.eb_cnt ∧ isBad mtd.toNandDev t.flash eb = false

/-- An eraseblock with a page that follows at an offset, or one of the group of the offset. -/
def Meant (mtd : OobDev) (args : MainArgs) (o eb : ℕ) : Prop :=
  (∃ x, PageFrom mtd.min_io_size (groupSize mtd args) o x ∧ eb = x/mtd.eb_size) ∨
    (1 < args.blockalign ∧
      ∃ i < args.blockalign, eb = groupEb mtd (alignDown o (groupSize mtd args)) i)

/-- Where one of these is bad, so is one of the numbers that the loop is going to ask for. -/
def AsksBad (mtd : OobDev) (args : MainArgs) (w : WriteState) : Prop :=
  ∀ eb < mtd.eb_cnt, Meant mtd args w.mtdoffset eb → isBad mtd.toNandDev w.flash eb = true →
    ∃ i < args.blockalign, isBad mtd.toNandDev w.flash (askedEb mtd.toNandDev args.toWriteArgs
      (groupStart mtd args w) i) = true

theorem Issued.ready (hsize : mtd.size < 2^63) (hn : args.noskipbad = false)
    (h : Issued mtd args env input flash garbage t) :
    Ready mtd args env input flash garbage t := by
  obtain ⟨hbegun, s, hs, hloop, hnext, -⟩ := h
  exact nextUnit_ready hbegun.1 hsize hn hs (hs.checked hbegun.1 hsize hn) hloop hnext

/-- What a write is about is meant from the offset on at which its group was looked for. -/
theorem MainState.Target.meant {w : WriteState} {eb : ℕ} (h : t.Target mtd args eb)
    (hpage : PageFrom mtd.min_io_size (groupSize mtd args) w.mtdoffset t.mtdoffset) :
    Meant mtd args w.mtdoffset eb := by
  rcases h with rfl | ⟨hb, -, i, hi, rfl⟩
  · exact Or.inl ⟨_, hpage, rfl⟩
  · refine Or.inr ⟨hb, i, hi, ?_⟩
    unfold groupStart
    rw [hpage.start]

/-- Without `--noskipbad`, in a run in which the loop asks for a bad eraseblock wherever a group has
one, no write goes to a bad eraseblock. -/
theorem spares_bad (hsize : mtd.size < 2^63) (hn : args.noskipbad = false)
    (hasks : ∀ w, Sought mtd args env input flash garbage w → AsksBad mtd args w) :
    ∀ t, Issued mtd args env input flash garbage t → t.WriteSafe mtd args := by
  intro t ht eb heb
  have hready := ht.ready hsize hn
  obtain ⟨-, s, -, -, -, hvalid⟩ := ht
  have hlt : eb < mtd.eb_cnt := by
    rcases heb with rfl | ⟨-, hlt, -⟩
    · exact hvalid.1
    · exact hlt
  refine ⟨hlt, ?_⟩
  by_contra hbad
  obtain ⟨w, hw, hmap, hpage⟩ := hready.found
  have hsame (e : ℕ) : isBad mtd.toNandDev w.flash e = isBad mtd.toNandDev t.flash e := by
    unfold isBad
    rw [hmap]
  -- the loop has asked for a bad eraseblock, and would have left the group
  obtain ⟨i, hi, hask⟩ := hasks w hw eb hlt (heb.meant hpage) (by
    rw [hsame]
    exact Bool.not_eq_false _ ▸ hbad)
  have hgroup : groupStart mtd args w = groupStart mtd args t.toWriteState := hpage.start.symm
  rw [hsame, hgroup, (hready.asked i hi).2] at hask
  cases hask

/-- A group of one eraseblock is asked for by its own number, where the size is a power of two. -/
theorem asksBad_single (hg : Geometry mtd.toNandDev) (hb : args.blockalign = 1) (w : WriteState) :
    AsksBad mtd args w := by
  rintro eb hlt (⟨x, hpage, rfl⟩ | ⟨hmore, -⟩) hbad
  · refine ⟨0, by rw [hb]; exact Nat.one_pos, ?_⟩
    have hone : ebsizeAligned mtd.toNandDev args.toWriteArgs = mtd.eb_size := ebsizeAligned_one hb
    have hx : x ≤ mtd.size := by
      have hpos := hg.eb_pos
      rw [mtd.eb_cnt_eq] at hlt
      exact le_of_lt (lt_of_not_ge fun hge => absurd (Nat.div_le_div_right hge) (not_le.mpr hlt))
    have hstart : groupStart mtd args w = x/mtd.eb_size*mtd.eb_size := by
      calc groupStart mtd args w
          = alignDown x (groupSize mtd args) := hpage.start.symm
        _ = alignDown x mtd.eb_size := by rw [groupSize, hone]
        _ = x/mtd.eb_size*mtd.eb_size := hg.align hx
    rw [askedEb, hstart, hone, Nat.zero_mul, Nat.add_zero, Nat.mul_div_cancel _ hg.eb_pos]
    exact hbad
  · rw [hb] at hmore
    exact absurd hmore (lt_irrefl 1)

/-- The write of the first pass. -/
theorem issued_first {P : MainState → Prop} [DecidablePred P] (hbegun : Begun mtd args input)
    (hloop : (mainStart mtd args input flash garbage).Looping mtd)
    (hrun : (nextUnit mtd args env (mainStart mtd args input flash garbage)).toOption.any
      (fun r => !r.1 && decide (r.2.Valid mtd args ∧ P r.2)) = true) :
    ∃ t, Issued mtd args env input flash garbage t ∧ P t := by
  cases hnext : nextUnit mtd args env (mainStart mtd args input flash garbage) with
  | error e =>
    rw [hnext] at hrun
    cases hrun
  | ok r =>
    obtain ⟨eof, t⟩ := r
    rw [hnext] at hrun
    have hrun : (!eof && decide (t.Valid mtd args ∧ P t)) = true := hrun
    rw [Bool.and_eq_true, Bool.not_eq_true', decide_eq_true_eq] at hrun
    obtain ⟨rfl, hvalid, hp⟩ := hrun
    exact ⟨t, ⟨hbegun, _, Reached.start, hloop, hnext, hvalid⟩, hp⟩

/-- A chip of eight eraseblocks with 32 pages each. -/
def smallChip : OobDev := ⟨⟨⟨8, 16384, 512, 512, true⟩, 131072, rfl⟩, 16⟩

/-- `-b 2 -s 0x8000` -/
def pairArgs : MainArgs where
  mtdoffset := 32768
  inputskip := 0
  blockalign := 2
  markbad := false
  noskipbad := false
  pad := false
  inputsize := 0
  stdin := false
  writeoob := false
  onlyoob := false
  quiet := false
  only_writes := fun h => by cases h
  pad_data := fun _ h => by cases h.1

def calmEnv : WriteEnv := ⟨fun _ => true, fun _ => true, fun _ => .done, fun _ => .done,
  fun _ => true, fun _ _ => 0xff#8⟩

/-- The third eraseblock is bad. -/
def thirdBad : Flash := ⟨fun eb => eb == 2, fun _ _ => 0xff#8⟩

/-- The first two eraseblocks are bad. -/
def firstBad : Flash := ⟨fun eb => decide (eb < 2), fun _ _ => 0xff#8⟩

/-- With `-b 2` they are the first group, which the loop asks for by the number of the first. -/
theorem asksBad_first {w : WriteState} (hmap : w.flash.bad = firstBad.bad) :
    AsksBad smallChip pairArgs w := by
  intro eb _ hmeant hbad
  have heb : eb < 2 := by
    have : w.flash.bad eb = true := hbad
    rw [hmap] at this
    exact of_decide_eq_true this
  have hstart : groupStart smallChip pairArgs w < 32768 := by
    rcases hmeant with ⟨x, hpage, rfl⟩ | ⟨-, i, -, rfl⟩
    · have hx : x/16384 < 2 := heb
      have hle : groupStart smallChip pairArgs w ≤ x := hpage.start.symm.trans_le (alignDown_le x _)
      omega
    · have hmember : (groupStart smallChip pairArgs w+i*16384)/16384 < 2 := heb
      omega
  refine ⟨0, by decide, ?_⟩
  have hask : askedEb smallChip.toNandDev pairArgs.toWriteArgs (groupStart smallChip pairArgs w) 0 =
      0 := by
    have hgroup : (groupStart smallChip pairArgs w+0*16384)/32768 = 0 := by omega
    exact hgroup
  rw [hask]
  have hzero : w.flash.bad 0 = true := by
    rw [hmap]
    rfl
  exact hzero

/-- A page of a file goes behind the second group then: the loop asks for its number, which is that of
a bad eraseblock, and no write of a run goes to one. -/
theorem spares_bad_first :
    (∃ t, Issued smallChip pairArgs calmEnv (List.replicate 512 0#8) firstBad (fun _ => 0xff#8) t ∧
      t.mtdoffset = 65536) ∧
    ∀ t, Issued smallChip pairArgs calmEnv (List.replicate 512 0#8) firstBad (fun _ => 0xff#8) t →
      t.WriteSafe smallChip pairArgs := by
  refine ⟨?_, spares_bad (by decide) rfl fun w hw => asksBad_first (hw.bad rfl)⟩
  exact issued_first (by unfold Begun; decide +kernel) (by decide +kernel) (by decide +kernel)

/-- The page of a file of one page goes to it: the loop has asked for the second eraseblock. -/
theorem writes_to_bad : ∃ t,
    Issued smallChip pairArgs calmEnv (List.replicate 512 0#8) thirdBad (fun _ => 0xff#8) t ∧
    t.mtdoffset/smallChip.eb_size = 2 ∧ isBad smallChip.toNandDev t.flash 2 = true ∧
    ¬ t.WriteSafe smallChip pairArgs := by
  have hissued : ∃ t, Issued smallChip pairArgs calmEnv (List.replicate 512 0#8) thirdBad
      (fun _ => 0xff#8) t ∧ t.mtdoffset = 32768 ∧ t.flash.bad 2 = true :=
    issued_first (by unfold Begun; decide +kernel) (by decide +kernel) (by decide +kernel)
  obtain ⟨t, ht, hoff, hbad⟩ := hissued
  have heb : t.mtdoffset/smallChip.eb_size = 2 := by
    rw [hoff]
    rfl
  have hisbad : isBad smallChip.toNandDev t.flash 2 = true := hbad
  refine ⟨t, ht, heb, hisbad, ?_⟩
  intro hsafe
  have := (hsafe 2 (Or.inl heb.symm)).2
  rw [hisbad] at this
  cases this

end Target

end ChipTools.Nand
