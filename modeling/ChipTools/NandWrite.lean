import ChipTools.UbiScan
import Mathlib.Data.Nat.Count
import Mathlib.Data.Nat.Prime.Basic

/-! `nandwrite` of a file without OOB data: the pages of an eraseblock are kept in a buffer, and
written again to the next one where a write fails. -/
namespace ChipTools.Nand
open Bytes Loop Ubi

/-- A device: its size, from which libmtd has the number of eraseblocks. -/
structure NandDev extends Mtd where
  size : ℕ
  eb_cnt_eq : eb_cnt = size/eb_size

/-- The options. -/
structure WriteArgs where
  mtdoffset : ℕ
  inputskip : ℤ
  blockalign : ℕ
  markbad : Bool
  noskipbad : Bool
  pad : Bool

/-- What is not up to the program: which calls fail, the writes by the offset in the device, and
what a failed write and the erasure after it leave. -/
structure WriteEnv where
  query : ℕ → Bool
  input : ℕ → Bool
  write : ℕ → Outcome
  erase : ℕ → Outcome
  mark : ℕ → Bool
  left : ℕ → ℕ → Byte

/-- A call of `mtd_write`. -/
structure PageWrite where
  offs : ℕ
  data : List Byte
  done : Bool
deriving DecidableEq, Repr

/-- The variables of `main`, and the device: `writebuf` is an offset in `filebuf`, or NULL, and
`input` is what is left of the file. The calls of `mtd_write` are kept in their order. -/
structure WriteState where
  flash : Flash
  mtdoffset : ℕ
  blockstart : ℤ
  filebuf : ℕ → Byte
  filebuf_len : ℕ
  writebuf : Option ℕ
  imglen : ℤ
  input : List Byte
  log : List PageWrite

/-- `offset & (~ebsize + 1)`. -/
def alignDown (offset ebsize : ℕ) : ℕ := offset &&& (2^64-ebsize)

/-- There are bytes in the buffer that were not written, as the pointers compare. -/
def WriteState.Pending (s : WriteState) : Prop := ∀ w ∈ s.writebuf, w < s.filebuf_len

instance (s : WriteState) : Decidable s.Pending :=
  inferInstanceAs (Decidable (∀ w ∈ s.writebuf, w < s.filebuf_len))

variable (mtd : NandDev) (args : WriteArgs) (env : WriteEnv)

def ebsizeAligned : ℕ := mtd.eb_size*args.blockalign

/-- `mtd_is_bad`. -/
def mtdIsBad (flash : Flash) (eb : ℕ) : Except Stop Bool :=
  if mtd.eb_cnt ≤ eb then
    .error (.errmsg s!"bad eraseblock number {eb}, mtd has {mtd.eb_cnt} eraseblocks")
  else if !mtd.bb_allowed then .ok false
  else if !env.query eb then .error (.errmsg "MTD get bad block failed")
  else .ok (flash.bad eb)

/-- A pass of the loop over the eraseblocks of an aligned one: once one of them is bad,
`mtdoffset` is set behind them. -/
def checkBlock (blockstart i : ℕ) (s : Bool × WriteState) : Except Stop (Bool × WriteState) := do
  let offs := blockstart+i*(ebsizeAligned mtd args/args.blockalign)
  let bad ← mtdIsBad mtd env s.2.flash (offs/ebsizeAligned mtd args)
  let baderaseblock := s.1 || bad
  if baderaseblock then
    if mtd.size < blockstart+ebsizeAligned mtd args then
      .error (.errmsg "too many bad blocks, cannot complete request")
    else .ok (true, { s.2 with mtdoffset := blockstart+ebsizeAligned mtd args })
  else .ok (false, s.2)

/-- The buffer at a new eraseblock: it is emptied, unless it is to be written again. -/
def freshBuf (s : WriteState) : WriteState :=
  if s.writebuf ≠ some 0 then
    { s with filebuf := setTo s.filebuf 0 s.filebuf_len 0xff#8, filebuf_len := 0, writebuf := some 0 }
  else s

/-- The body of the loop that looks for an eraseblock that is not bad. -/
def newBlock (s : WriteState) : Except Stop WriteState := do
  let blockstart := alignDown s.mtdoffset (ebsizeAligned mtd args)
  let s := freshBuf { s with blockstart := blockstart }
  if args.noskipbad then .ok s
  else
    let (_, s) ← forRange (checkBlock mtd args env blockstart) args.blockalign 0 (false, s)
    .ok s

/-- The loop itself, of at most `n` passes. -/
def skipBlocks : ℕ → WriteState → Except Stop WriteState
  | 0, _ => .error .hang
  | n+1, s =>
    if s.blockstart = alignDown s.mtdoffset (ebsizeAligned mtd args) then .ok s
    else do
      let s ← newBlock mtd args env s
      skipBlocks n s

/-- A page is read where the buffer has none, and whether the input has ended. -/
def readPage (s : WriteState) : Except Stop (Bool × WriteState) :=
  let writebuf := s.writebuf.getD 0
  if s.filebuf_len < writebuf+mtd.min_io_size then
    let readlen := mtd.min_io_size
    let alreadyread := s.filebuf_len-writebuf
    let got := s.input.take (readlen-alreadyread)
    let tinycnt := alreadyread+got.length
    if !env.input s.input.length then .error (.errmsg "File I/O error on input")
    else if tinycnt = 0 then .ok (true, s)
    else if tinycnt < readlen ∧ !args.pad then
      .error (.errmsg (s!"Unexpected EOF. Expecting at least {readlen-tinycnt} more bytes. " ++
        "Use the padding option."))
    else .ok (false, { s with
      filebuf := setTo (copyTo s.filebuf (writebuf+alreadyread) got) (writebuf+tinycnt)
        (readlen-tinycnt) 0xff#8
      filebuf_len := s.filebuf_len+(readlen-alreadyread)
      imglen := s.imglen-(tinycnt-alreadyread : ℕ)
      input := s.input.drop got.length })
  else .ok (false, s)

/-- The bytes of an eraseblock are changed. -/
def putEb (flash : Flash) (eb : ℕ) (buf : ℕ → Byte) : Flash :=
  { flash with data := fun i => if i = eb then buf else flash.data i }

/-- A pass of the loop that erases after a failed write. -/
def eraseFailed (blockstart i : ℕ) (flash : Flash) : Except Stop Flash :=
  let eb := (blockstart+i*mtd.eb_size)/mtd.eb_size
  match env.erase eb with
  | .other => .error (.errmsg "MTD Erase failure")
  | _ => .ok (putEb flash eb (env.left eb))

/-- What is done about a write that has failed: the buffer is to be written again behind the
eraseblock. -/
def recover (s : WriteState) : Except Stop WriteState := do
  let flash ← forRange (eraseFailed mtd env s.blockstart.toNat) args.blockalign 0 s.flash
  let eb := s.mtdoffset/mtd.eb_size
  if args.markbad ∧ (!mtd.bb_allowed ∨ mtd.eb_cnt ≤ eb ∨ !env.mark eb) then
    .error (.errmsg "MTD Mark bad block failure")
  else .ok { s with
    flash := if args.markbad then
        { flash with bad := fun i => if i = eb then true else flash.bad i } else flash
    writebuf := some 0
    mtdoffset := s.blockstart.toNat+ebsizeAligned mtd args }

/-- The page is written. -/
def writePage (s : WriteState) : Except Stop WriteState :=
  let eb := s.mtdoffset/mtd.eb_size
  let offs := s.mtdoffset%mtd.eb_size
  let writebuf := s.writebuf.getD 0
  let data := readBytes s.filebuf writebuf mtd.min_io_size
  if mtd.eb_cnt ≤ eb ∨ mtd.eb_size < offs+mtd.min_io_size ∨ offs%mtd.subpage_size ≠ 0 ∨
      mtd.min_io_size%mtd.subpage_size ≠ 0 then
    .error (.errmsg "MTD write failure")
  else
    match env.write s.mtdoffset with
    | .other => .error (.errmsg "MTD write failure")
    | .eio => recover mtd args env { s with log := s.log ++ [⟨s.mtdoffset, data, false⟩] }
    | .done => .ok { s with
        flash := putEb s.flash eb (copyTo (s.flash.data eb) offs data)
        log := s.log ++ [⟨s.mtdoffset, data, true⟩]
        mtdoffset := s.mtdoffset+mtd.min_io_size
        writebuf := some (writebuf+mtd.min_io_size) }

/-- The loop of `main`, of at most `n` passes. -/
def writeLoop : ℕ → WriteState → Except Stop WriteState
  | 0, _ => .error .hang
  | n+1, s =>
    if (0 < s.imglen ∨ s.Pending) ∧ s.mtdoffset < mtd.size then do
      let s ← skipBlocks mtd args env (mtd.size+2) s
      let (eof, s) ← readPage mtd args env s
      if eof then .ok s
      else
        let s ← writePage mtd args env s
        writeLoop n s
    else .ok s

/-- The variables before the loop. -/
def startState (file : List Byte) (flash : Flash) (garbage : ℕ → Byte) : WriteState where
  flash := flash
  mtdoffset := args.mtdoffset
  blockstart := -1
  filebuf := setTo garbage 0 (ebsizeAligned mtd args/mtd.min_io_size*mtd.min_io_size) 0xff#8
  filebuf_len := 0
  writebuf := none
  imglen := file.length-args.inputskip
  input := file.drop args.inputskip.toNat
  log := []

/-- `main`, with a regular file as the input. -/
def nandwrite (file : List Byte) (flash : Flash) (garbage : ℕ → Byte) : Except Stop WriteState := do
  let pagelen := mtd.min_io_size
  let imglen := (file.length : ℤ)-args.inputskip
  if args.mtdoffset &&& (mtd.min_io_size-1) ≠ 0 then
    .error (.errmsg "The start address is not page-aligned !")
  else if args.inputskip < 0 then .error (.errmsg "lseek input failed")
  else if !args.pad ∧ imglen.tmod pagelen ≠ 0 then
    .error (.errmsg "Input file is not page-aligned. Use the padding option.")
  else if (mtd.size : ℤ)-args.mtdoffset < imglen.tdiv pagelen*mtd.min_io_size then
    .error (.errmsg "Input file does not fit into device")
  else
    let s ← writeLoop mtd args env (mtd.size+2) (startState mtd args file flash garbage)
    if 0 < s.imglen ∨ s.Pending then
      .error (.errmsg "Data was only partially written due to error")
    else .ok s

section Spec

/-- The pages of an eraseblock. -/
def pagesPerEb (mtd : NandDev) : ℕ := mtd.eb_size/mtd.min_io_size

/-- What is written of the file. -/
def image (args : WriteArgs) (file : List Byte) : List Byte := file.drop args.inputskip.toNat

/-- Page `k` of the image, with ones behind its end. -/
def imagePage (mtd : NandDev) (img : List Byte) (k : ℕ) : List Byte :=
  readBytes (fun x => img.getD x 0xff#8) (k*mtd.min_io_size) mtd.min_io_size

def imagePages (mtd : NandDev) (img : List Byte) : ℕ :=
  (img.length+mtd.min_io_size-1)/mtd.min_io_size

def isBad (mtd : NandDev) (flash : Flash) (eb : ℕ) : Bool := mtd.bb_allowed && flash.bad eb

/-- The eraseblocks in which a write has failed. -/
def failedEbs (mtd : NandDev) (log : List PageWrite) : List ℕ :=
  (log.filter fun w => !w.done).map fun w => w.offs/mtd.eb_size

/-- A page from the start offset on, in an eraseblock that is not bad and in which no write has
failed. -/
def GoodPage (mtd : NandDev) (args : WriteArgs) (flash : Flash) (failed : List ℕ) (q : ℕ) : Prop :=
  args.mtdoffset ≤ q*mtd.min_io_size ∧ isBad mtd flash (q/pagesPerEb mtd) = false ∧
    q/pagesPerEb mtd ∉ failed

instance (mtd : NandDev) (args : WriteArgs) (flash : Flash) (failed : List ℕ) :
    DecidablePred (GoodPage mtd args flash failed) := fun q =>
  inferInstanceAs (Decidable (args.mtdoffset ≤ q*mtd.min_io_size ∧
    isBad mtd flash (q/pagesPerEb mtd) = false ∧ q/pagesPerEb mtd ∉ failed))

/-- The number of good pages before a page. -/
def rank (mtd : NandDev) (args : WriteArgs) (flash : Flash) (failed : List ℕ) (q : ℕ) : ℕ :=
  Nat.count (GoodPage mtd args flash failed) q

/-- The image is on the device: the good pages have its pages in their order, and those that
were sent to an eraseblock before a write failed in it are in the next good one. -/
structure Delivered (mtd : NandDev) (args : WriteArgs) (flash : Flash) (img : List Byte)
    (s : WriteState) : Prop where
  aligned : args.pad = false → img.length%mtd.min_io_size = 0
  each : ∀ k < imagePages mtd img, ∃! q, q < mtd.eb_cnt*pagesPerEb mtd ∧
    GoodPage mtd args flash (failedEbs mtd s.log) q ∧ rank mtd args flash (failedEbs mtd s.log) q = k
  content : ∀ q, GoodPage mtd args flash (failedEbs mtd s.log) q →
    rank mtd args flash (failedEbs mtd s.log) q < imagePages mtd img →
    ⟨q*mtd.min_io_size, imagePage mtd img (rank mtd args flash (failedEbs mtd s.log) q), true⟩ ∈ s.log ∧
    readBytes (s.flash.data (q/pagesPerEb mtd)) (q%pagesPerEb mtd*mtd.min_io_size) mtd.min_io_size =
      imagePage mtd img (rank mtd args flash (failedEbs mtd s.log) q)
  once : s.log.Pairwise fun v w => v.offs < w.offs
  sent : ∀ v ∈ s.log, v.offs/mtd.eb_size ∉ failedEbs mtd s.log →
    ∃ q, v.offs = q*mtd.min_io_size ∧ GoodPage mtd args flash (failedEbs mtd s.log) q ∧
      rank mtd args flash (failedEbs mtd s.log) q < imagePages mtd img
  again : ∀ v ∈ s.log, v.offs/mtd.eb_size ∈ failedEbs mtd s.log →
    ∃ q, GoodPage mtd args flash (failedEbs mtd s.log) q ∧
      rank mtd args flash (failedEbs mtd s.log) q < imagePages mtd img ∧
      v.data = imagePage mtd img (rank mtd args flash (failedEbs mtd s.log) q) ∧
      v.offs/mtd.eb_size < q/pagesPerEb mtd ∧
      ∀ b, v.offs/mtd.eb_size < b → b < q/pagesPerEb mtd →
        isBad mtd flash b = true ∨ b ∈ failedEbs mtd s.log

end Spec

section Geometry

/-- What the program relies on: the eraseblock size is a power of two, and pages divide it. -/
structure Geometry (mtd : NandDev) : Prop where
  eb_pow : ∃ k < 31, mtd.eb_size = 2^k
  io_dvd : mtd.min_io_size ∣ mtd.eb_size
  size_lt : mtd.size < 2^63

variable {mtd : NandDev} {args : WriteArgs} {env : WriteEnv} {flash : Flash} {img : List Byte}

theorem alignDown_eq {k offset : ℕ} (hk : k ≤ 64) (h : offset < 2^64) :
    alignDown offset (2^k) = offset/2^k*2^k := by
  have hmask : 2^64-2^k = 2^k*(2^(64-k)-1) := by
    rw [Nat.mul_sub, Nat.mul_one, ← pow_add, Nat.add_sub_of_le hk]
  unfold alignDown
  rw [hmask, Nat.mul_comm (offset/2^k)]
  apply Nat.eq_of_testBit_eq
  intro i
  rw [Nat.testBit_and, Nat.testBit_two_pow_mul, Nat.testBit_two_pow_mul, Nat.testBit_two_pow_sub_one,
    Nat.testBit_div_two_pow]
  by_cases hi : k ≤ i
  · by_cases h64 : i < 64
    · simp [hi, show i-k < 64-k by omega]
    · have : offset.testBit i = false :=
        Nat.testBit_lt_two_pow (h.trans_le (Nat.pow_le_pow_right (by decide) (by omega)))
      simp [hi, this]
  · simp [hi]

theorem Geometry.io_pos (hg : Geometry mtd) : 0 < mtd.min_io_size := by
  obtain ⟨k, -, hk⟩ := hg.eb_pow
  exact Nat.pos_of_dvd_of_pos hg.io_dvd (by rw [hk]; exact Nat.two_pow_pos k)

theorem Geometry.eb_eq (hg : Geometry mtd) : mtd.eb_size = pagesPerEb mtd*mtd.min_io_size :=
  (Nat.div_mul_cancel hg.io_dvd).symm

theorem Geometry.eb_pos (hg : Geometry mtd) : 0 < mtd.eb_size := by
  obtain ⟨k, -, hk⟩ := hg.eb_pow
  rw [hk]
  exact Nat.two_pow_pos k

theorem Geometry.pages_pos (hg : Geometry mtd) : 0 < pagesPerEb mtd :=
  Nat.div_pos (Nat.le_of_dvd hg.eb_pos hg.io_dvd) hg.io_pos

theorem Geometry.align (hg : Geometry mtd) {offset : ℕ} (h : offset ≤ mtd.size) :
    alignDown offset mtd.eb_size = offset/mtd.eb_size*mtd.eb_size := by
  obtain ⟨k, hk, heq⟩ := hg.eb_pow
  have := hg.size_lt
  rw [heq]
  exact alignDown_eq (by omega) (by omega)

/-- The start offset is on a page. -/
theorem Geometry.page_aligned (hg : Geometry mtd) {offset : ℕ}
    (h : offset &&& (mtd.min_io_size-1) = 0) : offset = offset/mtd.min_io_size*mtd.min_io_size := by
  obtain ⟨k, hk, heq⟩ := hg.eb_pow
  obtain ⟨j, -, hj⟩ := (Nat.dvd_prime_pow Nat.prime_two).mp (heq ▸ hg.io_dvd)
  rw [hj, Nat.and_two_pow_sub_one_eq_mod, ← hj] at h
  have := Nat.div_add_mod' offset mtd.min_io_size
  omega

theorem Geometry.page_block (hg : Geometry mtd) (q : ℕ) :
    q*mtd.min_io_size/mtd.eb_size = q/pagesPerEb mtd := by
  rw [hg.eb_eq]
  exact Nat.mul_div_mul_right q _ hg.io_pos

theorem Geometry.page_offs (hg : Geometry mtd) (q : ℕ) :
    q*mtd.min_io_size%mtd.eb_size = q%pagesPerEb mtd*mtd.min_io_size := by
  rw [hg.eb_eq]
  exact Nat.mul_mod_mul_right _ _ _

end Geometry

section Rank

variable {mtd : NandDev} {args : WriteArgs} {flash : Flash} {failed : List ℕ}

theorem goodPage_append {b q : ℕ} : GoodPage mtd args flash (failed ++ [b]) q ↔
    GoodPage mtd args flash failed q ∧ q/pagesPerEb mtd ≠ b := by
  unfold GoodPage
  rw [List.mem_append, List.mem_singleton, not_or]
  tauto

theorem rank_congr {failed' : List ℕ} {n : ℕ} (h : ∀ q < n, GoodPage mtd args flash failed q ↔
    GoodPage mtd args flash failed' q) :
    rank mtd args flash failed n = rank mtd args flash failed' n :=
  le_antisymm (Nat.count_mono_left fun q hq => (h q hq).mp)
    (Nat.count_mono_left fun q hq => (h q hq).mpr)

/-- Over good pages the rank goes up with the page. -/
theorem rank_add_good {f j : ℕ} (h : ∀ q, f ≤ q → q < f+j → GoodPage mtd args flash failed q) :
    rank mtd args flash failed (f+j) = rank mtd args flash failed f+j := by
  unfold rank
  rw [Nat.count_add, (Nat.count_iff_forall (p := fun k => GoodPage mtd args flash failed (f+k))).mpr]
  exact fun k hk => h _ (by omega) (by omega)

theorem rank_skip {f p : ℕ} (hle : f ≤ p)
    (h : ∀ q, f ≤ q → q < p → ¬ GoodPage mtd args flash failed q) :
    rank mtd args flash failed p = rank mtd args flash failed f := by
  obtain ⟨j, rfl⟩ := Nat.exists_eq_add_of_le hle
  unfold rank
  rw [Nat.count_add,
    (Nat.count_iff_forall_not (p := fun k => GoodPage mtd args flash failed (f+k))).mpr]
  · rfl
  · exact fun k hk => h _ (by omega) (by omega)

/-- Each rank below that of a page is the rank of a good page before it. -/
theorem exists_rank {p k : ℕ} (h : k < rank mtd args flash failed p) :
    ∃ q < p, GoodPage mtd args flash failed q ∧ rank mtd args flash failed q = k := by
  induction p with
  | zero => exact absurd h (by simp [rank])
  | succ p ih =>
    by_cases hk : k < rank mtd args flash failed p
    · obtain ⟨q, hq, hgood, hr⟩ := ih hk
      exact ⟨q, by omega, hgood, hr⟩
    · have hs : rank mtd args flash failed (p+1) = rank mtd args flash failed p+
        if GoodPage mtd args flash failed p then 1 else 0 := Nat.count_succ _ p
      split at hs
      next hgood => exact ⟨p, by omega, hgood, by omega⟩
      · omega

theorem failedEbs_done (log : List PageWrite) (offs : ℕ) (data : List Byte) :
    failedEbs mtd (log ++ [⟨offs, data, true⟩]) = failedEbs mtd log := by
  simp [failedEbs]

theorem failedEbs_fail (log : List PageWrite) (offs : ℕ) (data : List Byte) :
    failedEbs mtd (log ++ [⟨offs, data, false⟩]) = failedEbs mtd log ++ [offs/mtd.eb_size] := by
  simp [failedEbs]

end Rank

section Invariants

/-- The buffer: `L` pages of the image from page `i` on, of which `w` were written. -/
structure Buffered (mtd : NandDev) (img : List Byte) (imglen : ℤ) (i L w : ℕ) (s : WriteState) :
    Prop where
  len : s.filebuf_len = L*mtd.min_io_size
  writebuf : s.writebuf.getD 0 = w*mtd.min_io_size
  null : s.writebuf = none → L = 0
  le : w ≤ L
  bytes : ∀ x < L*mtd.min_io_size, s.filebuf x = img.getD (i*mtd.min_io_size+x) 0xff#8
  input : s.input = img.drop ((i+L)*mtd.min_io_size)
  imglen : s.imglen = imglen-(min img.length ((i+L)*mtd.min_io_size) : ℕ)
  pages : i+L ≤ imagePages mtd img

/-- The calls of `mtd_write` for the pages before `p`, and what they have left. -/
structure Logged (mtd : NandDev) (args : WriteArgs) (flash : Flash) (img : List Byte) (p : ℕ)
    (s : WriteState) : Prop where
  entry : ∀ v ∈ s.log, ∃ q < p, v.offs = q*mtd.min_io_size ∧ args.mtdoffset ≤ q*mtd.min_io_size ∧
    q/pagesPerEb mtd < mtd.eb_cnt ∧ isBad mtd flash (q/pagesPerEb mtd) = false
  once : s.log.Pairwise fun v w => v.offs < w.offs
  good : ∀ v ∈ s.log, ∀ q, v.offs = q*mtd.min_io_size →
    q/pagesPerEb mtd ∉ failedEbs mtd s.log →
    v.data = imagePage mtd img (rank mtd args flash (failedEbs mtd s.log) q) ∧
    rank mtd args flash (failedEbs mtd s.log) q < imagePages mtd img
  filled : ∀ q < p, GoodPage mtd args flash (failedEbs mtd s.log) q →
    ⟨q*mtd.min_io_size, imagePage mtd img (rank mtd args flash (failedEbs mtd s.log) q), true⟩ ∈ s.log ∧
    readBytes (s.flash.data (q/pagesPerEb mtd)) (q%pagesPerEb mtd*mtd.min_io_size) mtd.min_io_size =
      imagePage mtd img (rank mtd args flash (failedEbs mtd s.log) q)
  failed : ∀ v ∈ s.log, ∀ q, v.offs = q*mtd.min_io_size → q/pagesPerEb mtd ∈ failedEbs mtd s.log →
    ∃ j < pagesPerEb mtd,
      rank mtd args flash (failedEbs mtd s.log) ((q/pagesPerEb mtd+1)*pagesPerEb mtd)+j <
        imagePages mtd img ∧
      v.data = imagePage mtd img
        (rank mtd args flash (failedEbs mtd s.log) ((q/pagesPerEb mtd+1)*pagesPerEb mtd)+j)
  bad : ∀ b, p/pagesPerEb mtd ≤ b → s.flash.bad b = flash.bad b

/-- Page `p` is the next one: the good pages before it have the image up to what is to be
written. -/
structure Core (mtd : NandDev) (args : WriteArgs) (flash : Flash) (img : List Byte) (imglen : ℤ)
    (p i L w : ℕ) (s : WriteState) : Prop where
  mtdoffset : s.mtdoffset = p*mtd.min_io_size
  start : args.mtdoffset ≤ p*mtd.min_io_size
  buffered : Buffered mtd img imglen i L w s
  logged : Logged mtd args flash img p s
  next : rank mtd args flash (failedEbs mtd s.log) p = i+w

/-- In eraseblock `b`, whose pages are written from `f` on. -/
structure Inside (mtd : NandDev) (args : WriteArgs) (flash : Flash) (img : List Byte) (imglen : ℤ)
    (b f i L w : ℕ) (s : WriteState) : Prop where
  core : Core mtd args flash img imglen (f+w) i L w s
  blockstart : s.blockstart = (b*mtd.eb_size : ℕ)
  ready : s.writebuf ≠ none
  le : b*pagesPerEb mtd ≤ f
  first : f = b*pagesPerEb mtd ∨ f*mtd.min_io_size = args.mtdoffset
  room : f+L ≤ (b+1)*pagesPerEb mtd
  lt : b < mtd.eb_cnt
  fresh : b ∉ failedEbs mtd s.log
  good : isBad mtd flash b = false
  start : args.mtdoffset ≤ f*mtd.min_io_size
  base : rank mtd args flash (failedEbs mtd s.log) f = i

/-- Before an eraseblock that was not looked at: the buffer was written, or is to be written
again. -/
structure Between (mtd : NandDev) (args : WriteArgs) (flash : Flash) (img : List Byte) (imglen : ℤ)
    (p i L w : ℕ) (s : WriteState) : Prop where
  core : Core mtd args flash img imglen p i L w s
  blockstart : s.blockstart ≠ (p/pagesPerEb mtd*mtd.eb_size : ℕ)
  first : p%pagesPerEb mtd = 0 ∨ p*mtd.min_io_size = args.mtdoffset
  room : w = L ∨ (w = 0 ∧ p%pagesPerEb mtd+L ≤ pagesPerEb mtd)
  fresh : ∀ b ∈ failedEbs mtd s.log, b < p/pagesPerEb mtd

end Invariants

section Steps

variable {mtd : NandDev} {args : WriteArgs} {env : WriteEnv} {flash : Flash} {img : List Byte}
  {imglen : ℤ} {s s' : WriteState}

/-- What a pass of the search for an eraseblock does. -/
structure NewBlock (mtd : NandDev) (s s' : WriteState) : Prop where
  lt : s.mtdoffset/mtd.eb_size < mtd.eb_cnt
  blockstart : s'.blockstart = (s.mtdoffset/mtd.eb_size*mtd.eb_size : ℕ)
  writebuf : s'.writebuf = some 0
  flash : s'.flash = s.flash
  log : s'.log = s.log
  imglen : s'.imglen = s.imglen
  input : s'.input = s.input
  replay : s.writebuf = some 0 → s'.filebuf = s.filebuf ∧ s'.filebuf_len = s.filebuf_len
  reset : s.writebuf ≠ some 0 → s'.filebuf_len = 0
  offset : (isBad mtd s.flash (s.mtdoffset/mtd.eb_size) = false ∧ s'.mtdoffset = s.mtdoffset) ∨
    (isBad mtd s.flash (s.mtdoffset/mtd.eb_size) = true ∧
      s'.mtdoffset = (s.mtdoffset/mtd.eb_size+1)*mtd.eb_size ∧ s'.mtdoffset ≤ mtd.size)

theorem ebsizeAligned_one (hb : args.blockalign = 1) : ebsizeAligned mtd args = mtd.eb_size := by
  rw [ebsizeAligned, hb, Nat.mul_one]

theorem mtdIsBad_ok {eb : ℕ} {r : Bool} (h : mtdIsBad mtd env flash eb = .ok r) :
    eb < mtd.eb_cnt ∧ r = isBad mtd flash eb := by
  unfold mtdIsBad at h
  split at h
  · cases h
  next hlt =>
    refine ⟨not_le.mp hlt, ?_⟩
    unfold isBad
    split at h
    next hbb =>
      obtain rfl := Except.ok.inj h
      rw [Bool.not_eq_true'] at hbb
      rw [hbb, Bool.false_and]
    next hbb =>
      rw [Bool.not_eq_true', Bool.not_eq_false] at hbb
      split at h
      · cases h
      · obtain rfl := Except.ok.inj h
        rw [hbb, Bool.true_and]

theorem freshBuf_frame (s : WriteState) : (freshBuf s).mtdoffset = s.mtdoffset ∧
    (freshBuf s).blockstart = s.blockstart ∧ (freshBuf s).flash = s.flash ∧
    (freshBuf s).log = s.log ∧ (freshBuf s).imglen = s.imglen ∧ (freshBuf s).input = s.input := by
  unfold freshBuf
  split <;> exact ⟨rfl, rfl, rfl, rfl, rfl, rfl⟩

theorem freshBuf_writebuf (s : WriteState) : (freshBuf s).writebuf = some 0 := by
  unfold freshBuf
  split
  · rfl
  next h => exact not_not.mp h

theorem freshBuf_replay (h : s.writebuf = some 0) : freshBuf s = s := if_neg (not_not.mpr h)

theorem freshBuf_reset (h : s.writebuf ≠ some 0) : (freshBuf s).filebuf_len = 0 := by
  rw [freshBuf, if_pos h]

theorem newBlock_ok (hg : Geometry mtd) (hb : args.blockalign = 1) (hn : args.noskipbad = false)
    (hle : s.mtdoffset ≤ mtd.size) (h : newBlock mtd args env s = .ok s') : NewBlock mtd s s' := by
  unfold newBlock at h
  rw [ebsizeAligned_one hb, hg.align hle] at h
  dsimp only at h
  rw [hn, if_neg Bool.false_ne_true, hb] at h
  obtain ⟨⟨bad, s₂⟩, hcheck, h⟩ := Loop.bind_eq_ok h
  obtain rfl := Except.ok.inj h
  obtain ⟨hoff, hstart, hflash, hlog, himg, hin⟩ :=
    freshBuf_frame { s with blockstart := (s.mtdoffset/mtd.eb_size*mtd.eb_size : ℕ) }
  have hwb := freshBuf_writebuf { s with blockstart := (s.mtdoffset/mtd.eb_size*mtd.eb_size : ℕ) }
  have hreplay (h0 : s.writebuf = some 0) := freshBuf_replay
    (s := { s with blockstart := (s.mtdoffset/mtd.eb_size*mtd.eb_size : ℕ) }) h0
  have hreset (h0 : s.writebuf ≠ some 0) := freshBuf_reset
    (s := { s with blockstart := (s.mtdoffset/mtd.eb_size*mtd.eb_size : ℕ) }) h0
  generalize freshBuf { s with blockstart := (s.mtdoffset/mtd.eb_size*mtd.eb_size : ℕ) } = s₁ at *
  rw [forRange] at hcheck
  split at hcheck
  next r hr =>
    rw [forRange] at hcheck
    obtain rfl := Except.ok.inj hcheck
    obtain ⟨bad', hbad, h⟩ := Loop.bind_eq_ok hr
    rw [hb, Nat.zero_mul, Nat.add_zero, ebsizeAligned_one hb, Nat.mul_div_cancel _ hg.eb_pos,
      hflash] at hbad
    obtain ⟨hlt, rfl⟩ := mtdIsBad_ok hbad
    dsimp only at h
    rw [ebsizeAligned_one hb, ← Nat.succ_mul, Bool.false_or] at h
    have hkeep (h0 : s.writebuf = some 0) : s₁.filebuf = s.filebuf ∧
        s₁.filebuf_len = s.filebuf_len := by
      rw [hreplay h0]
      exact ⟨rfl, rfl⟩
    split at h
    next hbad =>
      split at h
      · cases h
      next hsz =>
        cases h
        exact ⟨hlt, hstart, hwb, hflash, hlog, himg, hin, hkeep, hreset,
          Or.inr ⟨hbad, rfl, not_lt.mp hsz⟩⟩
    next hbad =>
      cases h
      exact ⟨hlt, hstart, hwb, hflash, hlog, himg, hin, hkeep, hreset,
        Or.inl ⟨Bool.eq_false_iff.mpr hbad, hoff⟩⟩
  · cases hcheck

end Steps

section Blocks

variable {mtd : NandDev} {args : WriteArgs} {env : WriteEnv} {flash : Flash} {img : List Byte}
  {imglen : ℤ} {s s' : WriteState} {p b f i L w : ℕ}

theorem Buffered.newBlock (hg : Geometry mtd) (h : Buffered mtd img imglen i L w s)
    (hw : w = L ∨ w = 0) (hn : NewBlock mtd s s') : ∃ L', Buffered mtd img imglen (i+w) L' 0 s' ∧
      (L' = 0 ∨ (w = 0 ∧ L' = L)) := by
  have hio := hg.io_pos
  by_cases h0 : s.writebuf = some 0
  · obtain ⟨hbuf, hlen⟩ := hn.replay h0
    have hwz : w = 0 := by
      have := h.writebuf
      rw [h0, Option.getD_some] at this
      exact (Nat.mul_eq_zero.mp this.symm).resolve_right (Nat.ne_of_gt hio)
    subst hwz
    refine ⟨L, ⟨hlen.trans h.len, ?_, ?_, Nat.zero_le L, ?_, hn.input.trans h.input,
      hn.imglen.trans h.imglen, h.pages⟩, Or.inr ⟨rfl, rfl⟩⟩
    · rw [hn.writebuf, Option.getD_some, Nat.zero_mul]
    · rw [hn.writebuf]
      exact fun hnone => absurd hnone (Option.some_ne_none 0)
    · rw [hbuf]
      exact h.bytes
  · have hwl : w = L := by
      rcases hw with hw | hw
      · exact hw
      · rw [hw]
        refine (h.null ?_).symm
        cases hs : s.writebuf with
        | none => rfl
        | some x =>
          have := h.writebuf
          rw [hs, hw, Option.getD_some, Nat.zero_mul] at this
          rw [hs, this] at h0
          exact absurd rfl h0
    subst hwl
    refine ⟨0, ⟨?_, ?_, fun _ => rfl, le_refl 0, ?_, hn.input.trans h.input,
      hn.imglen.trans h.imglen, h.pages⟩, Or.inl rfl⟩
    · rw [hn.reset h0, Nat.zero_mul]
    · rw [hn.writebuf, Option.getD_some, Nat.zero_mul]
    · intro x hx
      rw [Nat.zero_mul] at hx
      exact absurd hx (Nat.not_lt_zero x)

theorem Logged.frame (h : Logged mtd args flash img p s) (hlog : s'.log = s.log)
    (hflash : s'.flash = s.flash) : Logged mtd args flash img p s' := by
  refine ⟨?_, ?_, ?_, ?_, ?_, ?_⟩
  · rw [hlog]
    exact h.entry
  · rw [hlog]
    exact h.once
  · rw [hlog]
    exact h.good
  · rw [hlog, hflash]
    exact h.filled
  · rw [hlog]
    exact h.failed
  · rw [hflash]
    exact h.bad

/-- Pages that are not good are passed over. -/
theorem Logged.skip (h : Logged mtd args flash img p s) {p' : ℕ} (hle : p ≤ p')
    (hno : ∀ q, p ≤ q → q < p' → ¬ GoodPage mtd args flash (failedEbs mtd s.log) q) :
    Logged mtd args flash img p' s := by
  refine ⟨?_, h.once, h.good, ?_, h.failed, fun b hb => h.bad b ((Nat.div_le_div_right hle).trans hb)⟩
  · intro v hv
    obtain ⟨q, hq, hrest⟩ := h.entry v hv
    exact ⟨q, by omega, hrest⟩
  · intro q hq hgood
    by_cases hqp : q < p
    · exact h.filled q hqp hgood
    · exact absurd hgood (hno q (by omega) hq)

theorem Between.newBlock (hg : Geometry mtd) (h : Between mtd args flash img imglen p i L w s)
    (hn : NewBlock mtd s s') : ∃ L',
      Inside mtd args flash img imglen (p/pagesPerEb mtd) p (i+w) L' 0 s' ∨
      Between mtd args flash img imglen ((p/pagesPerEb mtd+1)*pagesPerEb mtd) (i+w) L' 0 s' := by
  have hB := hg.pages_pos
  have hblock : s.mtdoffset/mtd.eb_size = p/pagesPerEb mtd := by
    rw [h.core.mtdoffset, hg.page_block]
  obtain ⟨L', hbuf, hL'⟩ := h.core.buffered.newBlock hg (h.room.imp_right And.left) hn
  have hlog := h.core.logged.frame hn.log hn.flash
  have hdiv := Nat.div_add_mod' p (pagesPerEb mtd)
  have hmod := Nat.mod_lt p hB
  have hbad : isBad mtd s.flash (p/pagesPerEb mtd) = isBad mtd flash (p/pagesPerEb mtd) := by
    rw [isBad, isBad, h.core.logged.bad _ (le_refl _)]
  have hroom : p%pagesPerEb mtd+L' ≤ pagesPerEb mtd := by
    have := h.room
    omega
  have hstart := hn.blockstart
  rw [hblock] at hstart
  refine ⟨L', ?_⟩
  rcases hn.offset with ⟨hgood, hoff⟩ | ⟨hisbad, hoff, -⟩
  · rw [hblock, hbad] at hgood
    have hrank := h.core.next
    rw [← hn.log] at hrank
    refine Or.inl ⟨⟨hoff.trans h.core.mtdoffset, h.core.start, hbuf, hlog, hrank⟩, hstart,
      ?_, by omega, ?_, ?_, ?_, ?_, hgood, h.core.start, hrank⟩
    · rw [hn.writebuf]
      exact Option.some_ne_none 0
    · exact h.first.imp_left fun h0 => by omega
    · rw [Nat.succ_mul]
      omega
    · rw [← hblock]
      exact hn.lt
    · intro hmem
      rw [hn.log] at hmem
      exact absurd (h.fresh _ hmem) (lt_irrefl _)
  · rw [hblock, hbad] at hisbad
    have hle : p ≤ (p/pagesPerEb mtd+1)*pagesPerEb mtd := by
      rw [Nat.succ_mul]
      omega
    have hno : ∀ q, p ≤ q → q < (p/pagesPerEb mtd+1)*pagesPerEb mtd →
        ¬ GoodPage mtd args flash (failedEbs mtd s'.log) q := by
      rintro q hpq hq ⟨-, hq', -⟩
      have hqb : q/pagesPerEb mtd = p/pagesPerEb mtd :=
        le_antisymm (Nat.lt_succ_iff.mp ((Nat.div_lt_iff_lt_mul hB).mpr hq)) (Nat.div_le_div_right hpq)
      rw [hqb, hisbad] at hq'
      cases hq'
    refine Or.inr ⟨⟨?_, h.core.start.trans (Nat.mul_le_mul_right _ hle), hbuf, hlog.skip hle hno, ?_⟩,
      ?_, Or.inl (Nat.mul_mod_left _ _), Or.inr ⟨rfl, ?_⟩, ?_⟩
    · rw [hoff, hblock, hg.eb_eq, Nat.mul_assoc]
    · rw [rank_skip hle hno, hn.log]
      exact h.core.next
    · rw [hstart, Nat.mul_div_cancel _ hB]
      intro heq
      have := Nat.eq_of_mul_eq_mul_right hg.eb_pos (Int.ofNat.inj heq)
      omega
    · rw [Nat.mul_mod_left]
      omega
    · intro c hc
      rw [Nat.mul_div_cancel _ hB]
      rw [hn.log] at hc
      exact (h.fresh c hc).trans (Nat.lt_succ_self _)

/-- What holds where the loop of `main` begins a pass. -/
def Head (mtd : NandDev) (args : WriteArgs) (flash : Flash) (img : List Byte) (imglen : ℤ)
    (s : WriteState) : Prop :=
  (∃ b f i L w, Inside mtd args flash img imglen b f i L w s) ∨
    ∃ p i L w, Between mtd args flash img imglen p i L w s

/-- At the end of an eraseblock all pages of the buffer were written. -/
theorem Inside.between (hg : Geometry mtd) (h : Inside mtd args flash img imglen b f i L w s)
    (hend : f+w = (b+1)*pagesPerEb mtd) :
    Between mtd args flash img imglen (f+w) i L w s := by
  have hB := hg.pages_pos
  have hw := h.core.buffered.le
  have hroom := h.room
  refine ⟨h.core, ?_, ?_, Or.inl (by omega), ?_⟩
  · rw [h.blockstart, hend, Nat.mul_div_cancel _ hB]
    intro heq
    have := Nat.eq_of_mul_eq_mul_right hg.eb_pos (Int.ofNat.inj heq)
    omega
  · rw [hend]
    exact Or.inl (Nat.mul_mod_left _ _)
  · intro c hc
    obtain ⟨v, hv, rfl⟩ := List.mem_map.mp hc
    obtain ⟨q, hq, hoffs, -⟩ := h.core.logged.entry v (List.mem_of_mem_filter hv)
    rw [hoffs, hg.page_block, hend, Nat.mul_div_cancel _ hB]
    rw [hend] at hq
    exact (Nat.div_lt_iff_lt_mul hB).mpr hq

theorem skipBlocks_inside (hg : Geometry mtd) (hb : args.blockalign = 1)
    (hn : args.noskipbad = false) {n : ℕ} (h : Head mtd args flash img imglen s)
    (hle : s.mtdoffset ≤ mtd.size) (hrun : skipBlocks mtd args env n s = .ok s') :
    ∃ b f i L w, Inside mtd args flash img imglen b f i L w s' ∧ f+w < (b+1)*pagesPerEb mtd := by
  have hB := hg.pages_pos
  induction n generalizing s with
  | zero => cases hrun
  | succ n ih =>
    rw [skipBlocks, ebsizeAligned_one hb, hg.align hle] at hrun
    -- a finished eraseblock is left, and one in which pages are still to come is not
    have hcases : (∃ b f i L w, Inside mtd args flash img imglen b f i L w s ∧
        f+w < (b+1)*pagesPerEb mtd) ∨ ∃ p i L w, Between mtd args flash img imglen p i L w s := by
      rcases h with ⟨b, f, i, L, w, h⟩ | h
      · by_cases hend : f+w < (b+1)*pagesPerEb mtd
        · exact Or.inl ⟨b, f, i, L, w, h, hend⟩
        · have hw := h.core.buffered.le
          have hroom := h.room
          exact Or.inr ⟨_, _, _, _, h.between hg (by omega)⟩
      · exact Or.inr h
    rcases hcases with ⟨b, f, i, L, w, h, hlt⟩ | ⟨p, i, L, w, h⟩
    · have hblock : (f+w)/pagesPerEb mtd = b :=
        le_antisymm (Nat.lt_succ_iff.mp ((Nat.div_lt_iff_lt_mul hB).mpr hlt))
          ((Nat.le_div_iff_mul_le hB).mpr (h.le.trans (Nat.le_add_right f w)))
      rw [h.core.mtdoffset, hg.page_block, hblock, if_pos h.blockstart] at hrun
      cases hrun
      exact ⟨b, f, i, L, w, h, hlt⟩
    · rw [h.core.mtdoffset, hg.page_block, if_neg h.blockstart] at hrun
      obtain ⟨s₁, hs₁, hrun⟩ := Loop.bind_eq_ok hrun
      have hnb := newBlock_ok hg hb hn hle hs₁
      have hle₁ : s₁.mtdoffset ≤ mtd.size := by
        rcases hnb.offset with ⟨-, hoff⟩ | ⟨-, -, hoff⟩
        · rw [hoff]
          exact hle
        · exact hoff
      obtain ⟨L', h' | h'⟩ := h.newBlock hg hnb
      · exact ih (Or.inl ⟨_, _, _, _, _, h'⟩) hle₁ hrun
      · exact ih (Or.inr ⟨_, _, _, _, h'⟩) hle₁ hrun

end Blocks

section Pages

variable {mtd : NandDev} {args : WriteArgs} {env : WriteEnv} {flash : Flash} {img : List Byte}
  {imglen : ℤ} {s s' : WriteState} {p b f i L w : ℕ}

/-- The pages of an image cover it. -/
theorem imagePages_lt (hio : 0 < mtd.min_io_size) {k : ℕ} :
    k < imagePages mtd img ↔ k*mtd.min_io_size < img.length := by
  rw [imagePages, ← Nat.succ_le_iff, Nat.le_div_iff_mul_le hio, Nat.succ_mul]
  omega

/-- The bytes behind the buffer after a page was read to there. -/
theorem read_bytes {buf : ℕ → Byte} {o n X : ℕ} {x : ℕ} (hx : x < o+n) :
    setTo (copyTo buf o ((img.drop X).take n)) (o+((img.drop X).take n).length)
        (n-((img.drop X).take n).length) 0xff#8 x =
      if x < o then buf x else img.getD (X+(x-o)) 0xff#8 := by
  have hlen : ((img.drop X).take n).length = min n (img.length-X) := by
    rw [List.length_take, List.length_drop]
  by_cases ho : x < o
  · rw [if_pos ho, setTo_below (by omega), copyTo_below ho]
  · rw [if_neg ho]
    by_cases hin : x < o+((img.drop X).take n).length
    · rw [setTo_below hin, copyTo, if_pos (by omega), List.getD_eq_getElem?_getD,
        List.getElem?_take, if_pos (by omega), List.getElem?_drop, List.getD_eq_getElem?_getD,
        List.getElem?_eq_getElem (by omega)]
      rfl
    · rw [setTo, if_pos (by omega), List.getD_eq_getElem?_getD, List.getElem?_eq_none (by omega)]
      rfl

theorem Buffered.readPage (hg : Geometry mtd) (h : Buffered mtd img imglen i L w s)
    (hready : s.writebuf ≠ none) {eof : Bool} (hr : readPage mtd args env s = .ok (eof, s')) : (eof = true ∧ s' = s) ∨
      (eof = false ∧ s'.flash = s.flash ∧ s'.log = s.log ∧ s'.mtdoffset = s.mtdoffset ∧
        s'.blockstart = s.blockstart ∧ ∃ L', w < L' ∧ L' ≤ max L (w+1) ∧
          Buffered mtd img imglen i L' w s') := by
  have hio := hg.io_pos
  have hle := h.le
  unfold Nand.readPage at hr
  dsimp only at hr
  rw [h.writebuf, h.len, ← Nat.succ_mul] at hr
  split at hr
  next hlt =>
    obtain rfl : w = L := by
      have := Nat.lt_of_mul_lt_mul_right hlt
      omega
    rw [Nat.sub_self, Nat.sub_zero, Nat.zero_add, Nat.add_zero, Nat.sub_zero] at hr
    split at hr
    · cases hr
    split at hr
    · cases hr
      exact Or.inl ⟨rfl, rfl⟩
    next hnz =>
      split at hr
      · cases hr
      · cases hr
        have hgot := hnz
        rw [h.input, List.length_take, List.length_drop] at hgot
        have hX : (i+(w+1))*mtd.min_io_size = (i+w)*mtd.min_io_size+mtd.min_io_size := by
          rw [← Nat.add_assoc, Nat.succ_mul]
        refine Or.inr ⟨rfl, rfl, rfl, rfl, rfl, w+1, Nat.lt_succ_self w, le_max_right _ _,
          ?_, h.writebuf, ?_, Nat.le_succ w, ?_, ?_, ?_, ?_⟩
        · dsimp only
          rw [Nat.succ_mul]
        · exact fun hnone => absurd hnone hready
        · intro x hx
          rw [Nat.succ_mul] at hx
          dsimp only
          rw [h.input, read_bytes hx]
          split
          next hxo => exact h.bytes x hxo
          next hxo =>
            congr 1
            rw [Nat.add_mul]
            omega
        · dsimp only
          rw [h.input, List.drop_drop, List.length_take, List.length_drop, hX]
          by_cases hfull : mtd.min_io_size ≤ img.length-(i+w)*mtd.min_io_size
          · rw [Nat.min_eq_left hfull]
          · rw [List.drop_eq_nil_of_le (by omega), List.drop_eq_nil_of_le (by omega)]
        · dsimp only
          rw [h.imglen, h.input, List.length_take, List.length_drop, hX]
          omega
        · rw [← Nat.add_assoc, Nat.succ_le_iff, imagePages_lt hio]
          omega
  next hge =>
    cases hr
    have := Nat.le_of_mul_le_mul_right (not_lt.mp hge) hio
    exact Or.inr ⟨rfl, rfl, rfl, rfl, rfl, L, this, le_max_left _ _, h⟩

theorem Inside.readPage (hg : Geometry mtd) (h : Inside mtd args flash img imglen b f i L w s)
    (hlt : f+w < (b+1)*pagesPerEb mtd) {eof : Bool} (hr : readPage mtd args env s = .ok (eof, s')) :
    (eof = true ∧ s' = s) ∨
      (eof = false ∧ ∃ L', w < L' ∧ Inside mtd args flash img imglen b f i L' w s') := by
  rcases h.core.buffered.readPage hg h.ready hr with heof | ⟨heof, hflash, hlog, hoff, hstart, L', hw, hL', hbuf⟩
  · exact Or.inl heof
  · have hroom := h.room
    refine Or.inr ⟨heof, L', hw, ⟨hoff.trans h.core.mtdoffset, h.core.start, hbuf,
      h.core.logged.frame hlog hflash, ?_⟩, hstart.trans h.blockstart, ?_, h.le, h.first, by omega,
      h.lt, ?_, h.good, h.start, ?_⟩
    · rw [hlog]
      exact h.core.next
    · intro hnone
      have hL := hbuf.null hnone
      omega
    · rw [hlog]
      exact h.fresh
    · rw [hlog]
      exact h.base

/-- The page that is to be written. -/
theorem Buffered.page (h : Buffered mtd img imglen i L w s) (hw : w < L) :
    readBytes s.filebuf (s.writebuf.getD 0) mtd.min_io_size = imagePage mtd img (i+w) := by
  rw [h.writebuf, imagePage, readBytes, readBytes]
  apply List.map_congr_left
  intro x hx
  have hx' := List.mem_range.mp hx
  have hin : w*mtd.min_io_size+x < L*mtd.min_io_size := by
    have := Nat.mul_le_mul_right mtd.min_io_size (Nat.succ_le_of_lt hw)
    rw [Nat.succ_mul] at this
    omega
  rw [h.bytes _ hin, Nat.add_mul, Nat.add_assoc]

theorem Inside.goodPage (hg : Geometry mtd) (h : Inside mtd args flash img imglen b f i L w s) {q : ℕ}
    (hf : f ≤ q) (hq : q < (b+1)*pagesPerEb mtd) :
    q/pagesPerEb mtd = b ∧ GoodPage mtd args flash (failedEbs mtd s.log) q := by
  have hB := hg.pages_pos
  have hblock : q/pagesPerEb mtd = b :=
    le_antisymm (Nat.lt_succ_iff.mp ((Nat.div_lt_iff_lt_mul hB).mpr hq))
      ((Nat.le_div_iff_mul_le hB).mpr (h.le.trans hf))
  refine ⟨hblock, h.start.trans (Nat.mul_le_mul_right _ hf), ?_, ?_⟩
  · rw [hblock]
    exact h.good
  · rw [hblock]
    exact h.fresh

/-- The pages of the flash after one was written. -/
theorem readBytes_putEb {fl : Flash} {p q : ℕ} {data : List Byte}
    (hlen : data.length = mtd.min_io_size) :
    readBytes ((putEb fl (p/pagesPerEb mtd) (copyTo (fl.data (p/pagesPerEb mtd))
      (p%pagesPerEb mtd*mtd.min_io_size) data)).data (q/pagesPerEb mtd))
      (q%pagesPerEb mtd*mtd.min_io_size) mtd.min_io_size =
    if q = p then data else
      readBytes (fl.data (q/pagesPerEb mtd)) (q%pagesPerEb mtd*mtd.min_io_size) mtd.min_io_size := by
  unfold putEb
  dsimp only
  by_cases hb : q/pagesPerEb mtd = p/pagesPerEb mtd
  · rw [if_pos hb, hb]
    split
    next heq =>
      rw [heq]
      exact readBytes_copyTo_of_length hlen
    next hne =>
      have hq := Nat.div_add_mod q (pagesPerEb mtd)
      have hp := Nat.div_add_mod p (pagesPerEb mtd)
      rw [hb] at hq
      apply readBytes_copyTo_outside
      rcases Nat.lt_or_ge (q%pagesPerEb mtd) (p%pagesPerEb mtd) with hlt | hge
      · have := Nat.mul_le_mul_right mtd.min_io_size (Nat.succ_le_of_lt hlt)
        rw [Nat.succ_mul] at this
        omega
      · have hgt : p%pagesPerEb mtd < q%pagesPerEb mtd := by omega
        have := Nat.mul_le_mul_right mtd.min_io_size (Nat.succ_le_of_lt hgt)
        rw [Nat.succ_mul] at this
        omega
  · rw [if_neg hb, if_neg]
    intro heq
    exact hb (by rw [heq])

end Pages

section Writes

variable {mtd : NandDev} {args : WriteArgs} {env : WriteEnv} {flash : Flash} {img : List Byte}
  {imglen : ℤ} {s s' : WriteState} {p b f i L w : ℕ}

theorem imagePage_length (mtd : NandDev) (img : List Byte) (k : ℕ) :
    (imagePage mtd img k).length = mtd.min_io_size := readBytes_length _ _ _

theorem Logged.write (hg : Geometry mtd) (h : Logged mtd args flash img p s)
    (hgood : GoodPage mtd args flash (failedEbs mtd s.log) p) (hlt : p/pagesPerEb mtd < mtd.eb_cnt)
    (hn : rank mtd args flash (failedEbs mtd s.log) p < imagePages mtd img)
    (hlog : s'.log = s.log ++ [⟨p*mtd.min_io_size,
      imagePage mtd img (rank mtd args flash (failedEbs mtd s.log) p), true⟩])
    (hflash : s'.flash = putEb s.flash (p/pagesPerEb mtd) (copyTo (s.flash.data (p/pagesPerEb mtd))
      (p%pagesPerEb mtd*mtd.min_io_size)
      (imagePage mtd img (rank mtd args flash (failedEbs mtd s.log) p)))) :
    Logged mtd args flash img (p+1) s' := by
  have hio := hg.io_pos
  have hfailed : failedEbs mtd s'.log = failedEbs mtd s.log := by rw [hlog, failedEbs_done]
  have hpage {q : ℕ} (hq : p*mtd.min_io_size = q*mtd.min_io_size) : q = p :=
    (Nat.eq_of_mul_eq_mul_right hio hq).symm
  refine ⟨?_, ?_, ?_, ?_, ?_, ?_⟩
  · rw [hlog]
    intro v hv
    rcases List.mem_append.mp hv with hv | hv
    · obtain ⟨q, hq, hrest⟩ := h.entry v hv
      exact ⟨q, by omega, hrest⟩
    · rw [List.mem_singleton.mp hv]
      exact ⟨p, Nat.lt_succ_self p, rfl, hgood.1, hlt, hgood.2.1⟩
  · rw [hlog, List.pairwise_append]
    refine ⟨h.once, List.pairwise_singleton _ _, ?_⟩
    intro v hv v' hv'
    obtain ⟨q, hq, hoffs, -⟩ := h.entry v hv
    rw [List.mem_singleton.mp hv', hoffs]
    exact Nat.mul_lt_mul_of_pos_right hq hio
  · rw [hfailed, hlog]
    intro v hv q hoffs hq
    rcases List.mem_append.mp hv with hv | hv
    · exact h.good v hv q hoffs hq
    · rw [List.mem_singleton.mp hv] at hoffs ⊢
      obtain rfl := hpage hoffs
      exact ⟨rfl, hn⟩
  · rw [hfailed, hlog, hflash]
    intro q hq hgq
    rw [readBytes_putEb (imagePage_length _ _ _)]
    by_cases hqp : q = p
    · rw [if_pos hqp, hqp]
      exact ⟨List.mem_append_right _ (List.mem_singleton.mpr rfl), rfl⟩
    · rw [if_neg hqp]
      obtain ⟨hmem, hread⟩ := h.filled q (by omega) hgq
      exact ⟨List.mem_append_left _ hmem, hread⟩
  · rw [hfailed, hlog]
    intro v hv q hoffs hq
    rcases List.mem_append.mp hv with hv | hv
    · exact h.failed v hv q hoffs hq
    · rw [List.mem_singleton.mp hv] at hoffs
      rw [hpage hoffs] at hq
      exact absurd hq hgood.2.2
  · rw [hflash]
    intro c hc
    exact h.bad c ((Nat.div_le_div_right (Nat.le_succ p)).trans hc)

/-- The ranks before an eraseblock do not change when a write in it fails. -/
theorem rank_failed_before (hB : 0 < pagesPerEb mtd) {failed : List ℕ} {q : ℕ} (hq : q ≤ b*pagesPerEb mtd) :
    rank mtd args flash (failed ++ [b]) q = rank mtd args flash failed q := by
  apply rank_congr
  intro r hr
  rw [goodPage_append]
  refine and_iff_left ?_
  have := (Nat.div_lt_iff_lt_mul hB).mpr (hr.trans_le hq)
  exact Nat.ne_of_lt this

/-- After a failure the good pages end before the eraseblock. -/
theorem Inside.rank_failed (hg : Geometry mtd) (h : Inside mtd args flash img imglen b f i L w s) :
    rank mtd args flash (failedEbs mtd s.log ++ [b]) ((b+1)*pagesPerEb mtd) = i := by
  have hB := hg.pages_pos
  have hle : b*pagesPerEb mtd ≤ (b+1)*pagesPerEb mtd := Nat.mul_le_mul_right _ (Nat.le_succ b)
  rw [rank_skip hle, rank_failed_before hB (le_refl _), ← h.base]
  · refine (rank_skip h.le ?_).symm
    rintro q hbq hqf ⟨hstart, -⟩
    rcases h.first with hf | hf
    · omega
    · rw [← hf] at hstart
      exact absurd (Nat.le_of_mul_le_mul_right hstart hg.io_pos) (not_le.mpr hqf)
  · intro q hbq hq
    rw [goodPage_append]
    rintro ⟨-, hne⟩
    exact hne (le_antisymm (Nat.lt_succ_iff.mp ((Nat.div_lt_iff_lt_mul hB).mpr hq))
      ((Nat.le_div_iff_mul_le hB).mpr hbq))

/-- The pages that were sent to an eraseblock. -/
theorem Inside.sent (hg : Geometry mtd) (h : Inside mtd args flash img imglen b f i L w s) {v : PageWrite}
    (hv : v ∈ s.log) {q : ℕ} (hoffs : v.offs = q*mtd.min_io_size) (hq : q/pagesPerEb mtd = b) :
    ∃ j < w, i+j < imagePages mtd img ∧ v.data = imagePage mtd img (i+j) := by
  have hB := hg.pages_pos
  obtain ⟨q', hq', hoffs', hstart, -⟩ := h.core.logged.entry v hv
  obtain rfl := Nat.eq_of_mul_eq_mul_right hg.io_pos (hoffs'.symm.trans hoffs)
  have hfq : f ≤ q' := by
    rcases h.first with hf | hf
    · rw [hf]
      exact (Nat.le_div_iff_mul_le hB).mp (le_of_eq hq.symm)
    · rw [← hf] at hstart
      exact Nat.le_of_mul_le_mul_right hstart hg.io_pos
  obtain ⟨j, rfl⟩ := Nat.exists_eq_add_of_le hfq
  have hw := h.core.buffered.le
  have hroom := h.room
  obtain ⟨hdata, hn⟩ := h.core.logged.good v hv _ hoffs (by rw [hq]; exact h.fresh)
  rw [rank_add_good fun r hr hrj => (h.goodPage hg hr (by omega)).2, h.base] at hdata hn
  exact ⟨j, by omega, hn, hdata⟩

theorem Inside.logged_fail (hg : Geometry mtd) (h : Inside mtd args flash img imglen b f i L w s)
    (hw : w < L) (hlog : s'.log = s.log ++ [⟨(f+w)*mtd.min_io_size, imagePage mtd img (i+w), false⟩])
    (hdata : ∀ c, c ≠ b → s'.flash.data c = s.flash.data c)
    (hbad : ∀ c, c ≠ b → s'.flash.bad c = s.flash.bad c) :
    Logged mtd args flash img ((b+1)*pagesPerEb mtd) s' := by
  have hB := hg.pages_pos
  have hio := hg.io_pos
  have hroom := h.room
  have hl := h.core.logged
  obtain ⟨hpb, hpgood⟩ := h.goodPage hg (q := f+w) (Nat.le_add_right f w) (by omega)
  have hfailed : failedEbs mtd s'.log = failedEbs mtd s.log ++ [b] := by
    rw [hlog, failedEbs_fail, hg.page_block, hpb]
  have hpage {q : ℕ} (hq : (f+w)*mtd.min_io_size = q*mtd.min_io_size) : q = f+w :=
    (Nat.eq_of_mul_eq_mul_right hio hq).symm
  -- pages before the current one are in eraseblocks before `b`, or in `b` itself
  have hbefore {q : ℕ} (hq : q < f+w) (hne : q/pagesPerEb mtd ≠ b) : q/pagesPerEb mtd < b := by
    have := Nat.div_le_div_right (c := pagesPerEb mtd) (Nat.le_of_lt hq)
    omega
  have hrank {q : ℕ} (hq : q/pagesPerEb mtd < b) :
      rank mtd args flash (failedEbs mtd s.log ++ [b]) q = rank mtd args flash (failedEbs mtd s.log) q :=
    rank_failed_before hB (Nat.le_of_lt ((Nat.div_lt_iff_lt_mul hB).mp hq))
  refine ⟨?_, ?_, ?_, ?_, ?_, ?_⟩
  · rw [hlog]
    intro v hv
    rcases List.mem_append.mp hv with hv | hv
    · obtain ⟨q, hq, hrest⟩ := hl.entry v hv
      exact ⟨q, by omega, hrest⟩
    · rw [List.mem_singleton.mp hv]
      refine ⟨f+w, by omega, rfl, hpgood.1, ?_, hpgood.2.1⟩
      rw [hpb]
      exact h.lt
  · rw [hlog, List.pairwise_append]
    refine ⟨hl.once, List.pairwise_singleton _ _, ?_⟩
    intro v hv v' hv'
    obtain ⟨q, hq, hoffs, -⟩ := hl.entry v hv
    rw [List.mem_singleton.mp hv', hoffs]
    exact Nat.mul_lt_mul_of_pos_right hq hio
  · rw [hfailed, hlog]
    intro v hv q hoffs hq
    rw [List.mem_append, List.mem_singleton, not_or] at hq
    rcases List.mem_append.mp hv with hv | hv
    · obtain ⟨q', hq', hoffs', -⟩ := hl.entry v hv
      obtain rfl := Nat.eq_of_mul_eq_mul_right hio (hoffs'.symm.trans hoffs)
      rw [hrank (hbefore hq' hq.2)]
      exact hl.good v hv q' hoffs hq.1
    · rw [List.mem_singleton.mp hv] at hoffs
      rw [hpage hoffs] at hq
      exact absurd hpb hq.2
  · rw [hfailed, hlog]
    intro q hq hgq
    rw [goodPage_append] at hgq
    have hqb : q/pagesPerEb mtd < b := by
      have := (Nat.div_lt_iff_lt_mul hB).mpr hq
      omega
    have hqp : q < f+w := by
      have := (Nat.div_lt_iff_lt_mul hB).mp hqb
      have := h.le
      omega
    rw [hrank hqb, hdata _ hgq.2]
    obtain ⟨hmem, hread⟩ := hl.filled q hqp hgq.1
    exact ⟨List.mem_append_left _ hmem, hread⟩
  · rw [hfailed, hlog]
    intro v hv q hoffs hq
    have hle := h.le
    rw [Nat.succ_mul] at hroom
    by_cases hqb : q/pagesPerEb mtd = b
    · rw [hqb, h.rank_failed hg]
      rcases List.mem_append.mp hv with hv | hv
      · obtain ⟨j, hj, hn, hdata⟩ := h.sent hg hv hoffs hqb
        exact ⟨j, by omega, hn, hdata⟩
      · rw [List.mem_singleton.mp hv]
        have := h.core.buffered.pages
        exact ⟨w, by omega, by omega, rfl⟩
    · have hq' : q/pagesPerEb mtd ∈ failedEbs mtd s.log := by
        rcases List.mem_append.mp hq with hq | hq
        · exact hq
        · exact absurd (List.mem_singleton.mp hq) hqb
      rcases List.mem_append.mp hv with hv | hv
      · obtain ⟨q', hlt, hoffs', -⟩ := hl.entry v hv
        obtain rfl := Nat.eq_of_mul_eq_mul_right hio (hoffs'.symm.trans hoffs)
        rw [rank_failed_before hB (Nat.mul_le_mul_right _ (hbefore hlt hqb))]
        exact hl.failed v hv q' hoffs hq'
      · rw [List.mem_singleton.mp hv] at hoffs
        rw [hpage hoffs] at hqb
        exact absurd hpb hqb
  · intro c hc
    rw [Nat.mul_div_cancel _ hB] at hc
    rw [hbad c (by omega)]
    apply hl.bad
    rw [hpb]
    omega

end Writes

section Run

variable {mtd : NandDev} {args : WriteArgs} {env : WriteEnv} {flash : Flash} {img : List Byte}
  {imglen : ℤ} {s s' : WriteState} {p b f i L w : ℕ}

/-- What the recovery from a failed write changes. -/
structure Recovered (mtd : NandDev) (s s' : WriteState) : Prop where
  mtdoffset : s'.mtdoffset = s.blockstart.toNat+mtd.eb_size
  blockstart : s'.blockstart = s.blockstart
  writebuf : s'.writebuf = some 0
  filebuf : s'.filebuf = s.filebuf
  filebuf_len : s'.filebuf_len = s.filebuf_len
  imglen : s'.imglen = s.imglen
  input : s'.input = s.input
  log : s'.log = s.log
  data : ∀ c, c ≠ s.blockstart.toNat/mtd.eb_size → s'.flash.data c = s.flash.data c
  bad : ∀ c, c ≠ s.mtdoffset/mtd.eb_size → s'.flash.bad c = s.flash.bad c

theorem recover_ok (hb : args.blockalign = 1) (h : recover mtd args env s = .ok s') :
    Recovered mtd s s' := by
  unfold recover at h
  rw [hb] at h
  obtain ⟨flash', hflash, h⟩ := Loop.bind_eq_ok h
  rw [forRange] at hflash
  split at hflash
  next flash₁ herase =>
    rw [forRange] at hflash
    obtain rfl := Except.ok.inj hflash
    have hput : flash₁ = putEb s.flash (s.blockstart.toNat/mtd.eb_size)
        (env.left (s.blockstart.toNat/mtd.eb_size)) := by
      unfold eraseFailed at herase
      rw [Nat.zero_mul, Nat.add_zero] at herase
      dsimp only at herase
      split at herase
      · cases herase
      · exact (Except.ok.inj herase).symm
    dsimp only at h
    rw [ebsizeAligned_one hb] at h
    split at h
    · cases h
    · cases h
      refine ⟨rfl, rfl, rfl, rfl, rfl, rfl, rfl, rfl, ?_, ?_⟩
      · intro c hc
        have hd : flash₁.data c = s.flash.data c := by
          rw [hput]
          exact if_neg hc
        dsimp only
        split
        · exact hd
        · exact hd
      · intro c hc
        have hd : flash₁.bad c = s.flash.bad c := by rw [hput]; rfl
        dsimp only
        split
        · exact (if_neg hc).trans hd
        · exact hd
  · cases hflash

theorem Inside.fail (hg : Geometry mtd) (h : Inside mtd args flash img imglen b f i L w s)
    (hw : w < L) (hr : Recovered mtd { s with
      mtdoffset := (f+w)*mtd.min_io_size
      log := s.log ++ [⟨(f+w)*mtd.min_io_size, imagePage mtd img (i+w), false⟩] } s') :
    Between mtd args flash img imglen ((b+1)*pagesPerEb mtd) i L 0 s' := by
  have hB := hg.pages_pos
  have hroom := h.room
  have hle := h.le
  obtain ⟨hpb, -⟩ := h.goodPage hg (q := f+w) (Nat.le_add_right f w) (by omega)
  have hstart : s.blockstart.toNat = b*mtd.eb_size := by rw [h.blockstart, Int.toNat_natCast]
  have hdata := hr.data
  dsimp only at hdata
  rw [hstart, Nat.mul_div_cancel _ hg.eb_pos] at hdata
  have hbad := hr.bad
  dsimp only at hbad
  rw [hg.page_block, hpb] at hbad
  have hlogged := h.logged_fail hg hw hr.log hdata hbad
  have hfailed : failedEbs mtd s'.log = failedEbs mtd s.log ++ [b] := by
    rw [hr.log, failedEbs_fail, hg.page_block, hpb]
  have hbuf := h.core.buffered
  have hbuf' : Buffered mtd img imglen i L 0 s' := by
    refine ⟨hr.filebuf_len.trans hbuf.len, ?_, ?_, Nat.zero_le L, ?_, hr.input.trans hbuf.input,
      hr.imglen.trans hbuf.imglen, hbuf.pages⟩
    · rw [hr.writebuf, Option.getD_some, Nat.zero_mul]
    · rw [hr.writebuf]
      exact fun hnone => absurd hnone (Option.some_ne_none 0)
    · rw [hr.filebuf]
      exact hbuf.bytes
  refine ⟨⟨?_, ?_, hbuf', hlogged, ?_⟩, ?_, Or.inl (Nat.mul_mod_left _ _), Or.inr ⟨rfl, ?_⟩, ?_⟩
  · rw [hr.mtdoffset]
    dsimp only
    rw [hstart, ← Nat.succ_mul, hg.eb_eq, Nat.mul_assoc]
  · exact h.core.start.trans (Nat.mul_le_mul_right _ (by omega))
  · rw [hfailed]
    exact h.rank_failed hg
  · rw [hr.blockstart]
    dsimp only
    rw [h.blockstart, Nat.mul_div_cancel _ hB]
    intro heq
    have := Nat.eq_of_mul_eq_mul_right hg.eb_pos (Int.ofNat.inj heq)
    omega
  · rw [Nat.mul_mod_left]
    rw [Nat.succ_mul] at hroom
    omega
  · intro c hc
    obtain ⟨v, hv, rfl⟩ := List.mem_map.mp hc
    obtain ⟨q, hq, hoffs, -⟩ := hlogged.entry v (List.mem_of_mem_filter hv)
    rw [hoffs, hg.page_block, Nat.mul_div_cancel _ hB]
    exact (Nat.div_lt_iff_lt_mul hB).mpr hq

theorem Inside.writePage (hg : Geometry mtd) (hb : args.blockalign = 1)
    (h : Inside mtd args flash img imglen b f i L w s) (hw : w < L)
    (hr : writePage mtd args env s = .ok s') : Head mtd args flash img imglen s' := by
  have hB := hg.pages_pos
  have hroom := h.room
  obtain ⟨hpb, hpgood⟩ := h.goodPage hg (q := f+w) (Nat.le_add_right f w) (by omega)
  have hbuf := h.core.buffered
  unfold Nand.writePage at hr
  dsimp only at hr
  rw [hbuf.page hw, h.core.mtdoffset, hg.page_block, hg.page_offs, hbuf.writebuf] at hr
  split at hr
  · cases hr
  split at hr
  · cases hr
  · exact Or.inr ⟨_, _, _, _, h.fail hg hw (recover_ok hb hr)⟩
  · cases hr
    have hnext := h.core.next
    refine Or.inl ⟨b, f, i, L, w+1, ⟨?_, ?_, ?_, ?_, ?_⟩, h.blockstart, Option.some_ne_none _, h.le,
      h.first, hroom, h.lt, ?_, h.good, h.start, ?_⟩
    · dsimp only
      rw [← Nat.add_assoc, Nat.succ_mul]
    · exact h.core.start.trans (Nat.mul_le_mul_right _ (Nat.le_succ _))
    · refine ⟨hbuf.len, ?_, fun hnone => absurd hnone (Option.some_ne_none _), hw, hbuf.bytes,
        hbuf.input, hbuf.imglen, hbuf.pages⟩
      rw [Option.getD_some, Nat.succ_mul]
    · have := hbuf.pages
      refine Logged.write (p := f+w) hg h.core.logged hpgood (by rw [hpb]; exact h.lt) (by omega) ?_ ?_
      · rw [hnext]
      · rw [hnext]
    · rw [failedEbs_done, ← Nat.add_assoc, rank_add_good (j := 1), hnext, Nat.add_assoc]
      intro q h1 h2
      rw [show q = f+w by omega]
      exact hpgood
    · rw [failedEbs_done]
      exact h.fresh
    · rw [failedEbs_done]
      exact h.base

theorem writeLoop_head (hg : Geometry mtd) (hb : args.blockalign = 1) (hn : args.noskipbad = false)
    {n : ℕ} (h : Head mtd args flash img imglen s) (hrun : writeLoop mtd args env n s = .ok s') :
    Head mtd args flash img imglen s' := by
  induction n generalizing s with
  | zero => cases hrun
  | succ n ih =>
    rw [writeLoop] at hrun
    split at hrun
    next hcond =>
      obtain ⟨s₁, hskip, hrun⟩ := Loop.bind_eq_ok hrun
      obtain ⟨b, f, i, L, w, h₁, hlt⟩ := skipBlocks_inside hg hb hn h (Nat.le_of_lt hcond.2) hskip
      obtain ⟨⟨eof, s₂⟩, hread, hrest⟩ := Loop.bind_eq_ok hrun
      dsimp only at hrest
      rcases h₁.readPage hg hlt hread with ⟨rfl, rfl⟩ | ⟨rfl, L', hw, h₂⟩
      · rw [if_pos rfl] at hrest
        cases hrest
        exact Or.inl ⟨_, _, _, _, _, h₁⟩
      · rw [if_neg Bool.false_ne_true] at hrest
        obtain ⟨s₃, hwrite, hrest⟩ := Loop.bind_eq_ok hrest
        exact ih (h₂.writePage hg hb hw hwrite) hrest
    · cases hrun
      exact h

end Run

section Exits

variable {mtd : NandDev} {args : WriteArgs} {env : WriteEnv} {s s' : WriteState} {α β : Type}

/-- A result, or the error exit. -/
def Clean (r : Except Stop α) : Prop := ∀ e, r = .error e → ∃ text, e = .errmsg text

theorem clean_ok (a : α) : Clean (.ok a : Except Stop α) := fun _ h => by cases h

theorem clean_errmsg (text : String) : Clean (.error (.errmsg text) : Except Stop α) := by
  intro e h
  cases h
  exact ⟨text, rfl⟩

theorem clean_bind {r : Except Stop α} {k : α → Except Stop β} (hr : Clean r)
    (hk : ∀ a, r = .ok a → Clean (k a)) : Clean (r >>= k) := by
  cases r with
  | ok a => exact hk a rfl
  | error e =>
    intro e' h
    cases h
    exact hr e rfl

theorem clean_forRange {g : ℕ → α → Except Stop α} (h : ∀ i a, Clean (g i a)) (n i : ℕ) (a : α) :
    Clean (forRange g n i a) := by
  induction n generalizing i a with
  | zero => exact clean_ok a
  | succ n ih =>
    rw [forRange]
    split
    · exact ih _ _
    next e he =>
      intro e' h'
      cases h'
      exact h i a e he

theorem newBlock_clean : Clean (newBlock mtd args env s) := by
  unfold newBlock
  dsimp only
  split
  · exact clean_ok _
  · refine clean_bind (clean_forRange ?_ _ _ _) fun _ _ => clean_ok _
    intro i a
    unfold checkBlock
    refine clean_bind ?_ fun bad _ => ?_
    · unfold mtdIsBad
      split
      · exact clean_errmsg _
      · split
        · exact clean_ok _
        · split
          · exact clean_errmsg _
          · exact clean_ok _
    · dsimp only
      split
      · split
        · exact clean_errmsg _
        · exact clean_ok _
      · exact clean_ok _

theorem readPage_clean : Clean (readPage mtd args env s) := by
  unfold readPage
  dsimp only
  split
  · split
    · exact clean_errmsg _
    · split
      · exact clean_ok _
      · split
        · exact clean_errmsg _
        · exact clean_ok _
  · exact clean_ok _

theorem writePage_clean : Clean (writePage mtd args env s) := by
  unfold writePage
  dsimp only
  split
  · exact clean_errmsg _
  · split
    · exact clean_errmsg _
    · unfold recover
      refine clean_bind (clean_forRange ?_ _ _ _) fun flash' _ => ?_
      · intro i a
        unfold eraseFailed
        dsimp only
        split
        · exact clean_errmsg _
        · exact clean_ok _
      · dsimp only
        split
        · exact clean_errmsg _
        · exact clean_ok _
    · exact clean_ok _

/-- Each pass of the search goes to a later eraseblock, or is the last but one. -/
theorem skipBlocks_clean (hg : Geometry mtd) (hb : args.blockalign = 1) (hn : args.noskipbad = false)
    {n : ℕ} (hle : s.mtdoffset ≤ mtd.size) (hfuel : mtd.size+2 ≤ n+s.mtdoffset) :
    Clean (skipBlocks mtd args env n s) := by
  induction n generalizing s with
  | zero => omega
  | succ n ih =>
    rw [skipBlocks]
    split
    · exact clean_ok _
    · refine clean_bind newBlock_clean fun s₁ hs₁ => ?_
      have hnb := newBlock_ok hg hb hn hle hs₁
      rcases hnb.offset with ⟨-, hoff⟩ | ⟨-, hoff, hsz⟩
      · obtain ⟨n, rfl⟩ : ∃ m, n = m+1 := ⟨n-1, by omega⟩
        rw [skipBlocks, if_pos]
        · exact clean_ok _
        · rw [hnb.blockstart, hoff, ebsizeAligned_one hb, hg.align hle]
      · apply ih hsz
        have := Nat.lt_div_mul_add (a := s.mtdoffset) hg.eb_pos
        rw [Nat.succ_mul] at hoff
        omega

theorem skipBlocks_offset (hg : Geometry mtd) (hb : args.blockalign = 1) (hn : args.noskipbad = false)
    {n : ℕ} (hle : s.mtdoffset ≤ mtd.size) (hrun : skipBlocks mtd args env n s = .ok s') :
    s.mtdoffset ≤ s'.mtdoffset ∧ s'.blockstart = (s'.mtdoffset/mtd.eb_size*mtd.eb_size : ℕ) := by
  induction n generalizing s with
  | zero => cases hrun
  | succ n ih =>
    rw [skipBlocks] at hrun
    split at hrun
    next heq =>
      cases hrun
      rw [ebsizeAligned_one hb, hg.align hle] at heq
      exact ⟨le_refl _, heq⟩
    · obtain ⟨s₁, hs₁, hrun⟩ := Loop.bind_eq_ok hrun
      have hnb := newBlock_ok hg hb hn hle hs₁
      have hmono : s.mtdoffset ≤ s₁.mtdoffset ∧ s₁.mtdoffset ≤ mtd.size := by
        rcases hnb.offset with ⟨-, hoff⟩ | ⟨-, hoff, hsz⟩
        · rw [hoff]
          exact ⟨le_refl _, hle⟩
        · have := Nat.lt_div_mul_add (a := s.mtdoffset) hg.eb_pos
          rw [Nat.succ_mul] at hoff
          exact ⟨by omega, hsz⟩
      obtain ⟨h1, h2⟩ := ih hmono.2 hrun
      exact ⟨hmono.1.trans h1, h2⟩

theorem readPage_frame {eof : Bool} (h : readPage mtd args env s = .ok (eof, s')) :
    s'.mtdoffset = s.mtdoffset ∧ s'.blockstart = s.blockstart := by
  unfold readPage at h
  dsimp only at h
  split at h
  · split at h
    · cases h
    · split at h
      · cases h
        exact ⟨rfl, rfl⟩
      · split at h
        · cases h
        · cases h
          exact ⟨rfl, rfl⟩
  · cases h
    exact ⟨rfl, rfl⟩

theorem writePage_offset (hg : Geometry mtd) (hb : args.blockalign = 1)
    (hstart : s.blockstart = (s.mtdoffset/mtd.eb_size*mtd.eb_size : ℕ))
    (h : writePage mtd args env s = .ok s') : s.mtdoffset < s'.mtdoffset := by
  unfold writePage at h
  dsimp only at h
  split at h
  · cases h
  split at h
  · cases h
  · have hoff := (recover_ok hb h).mtdoffset
    dsimp only at hoff
    rw [hstart, Int.toNat_natCast] at hoff
    have := Nat.lt_div_mul_add (a := s.mtdoffset) hg.eb_pos
    omega
  · cases h
    exact Nat.lt_add_of_pos_right hg.io_pos

theorem writeLoop_clean (hg : Geometry mtd) (hb : args.blockalign = 1) (hn : args.noskipbad = false)
    {n : ℕ} (hpos : 0 < n) (hfuel : mtd.size < n+s.mtdoffset) : Clean (writeLoop mtd args env n s) := by
  induction n generalizing s with
  | zero => omega
  | succ n ih =>
    rw [writeLoop]
    split
    next hcond =>
      have hle := Nat.le_of_lt hcond.2
      refine clean_bind (skipBlocks_clean hg hb hn hle (by omega)) fun s₁ hs₁ => ?_
      obtain ⟨hmono, hstart⟩ := skipBlocks_offset hg hb hn hle hs₁
      refine clean_bind readPage_clean fun r hr => ?_
      obtain ⟨eof, s₂⟩ := r
      obtain ⟨hoff₂, hstart₂⟩ := readPage_frame hr
      dsimp only
      split
      · exact clean_ok _
      · refine clean_bind writePage_clean fun s₃ hs₃ => ?_
        have := writePage_offset hg hb (by rw [hstart₂, hoff₂, hstart]) hs₃
        exact ih (by omega) (by omega)
    · exact clean_ok _

end Exits

section Delivery

variable {mtd : NandDev} {args : WriteArgs} {env : WriteEnv} {flash : Flash} {img : List Byte}
  {imglen : ℤ} {s : WriteState} {p i L w : ℕ}

/-- Where the program succeeds, the good pages before the next one are those of the image. -/
theorem Core.all_written (hg : Geometry mtd) (himg : (img.length : ℤ) = max imglen 0)
    (h : Core mtd args flash img imglen p i L w s) (hend : ¬ (0 < s.imglen ∨ s.Pending)) :
    rank mtd args flash (failedEbs mtd s.log) p = imagePages mtd img := by
  have hbuf := h.buffered
  rw [not_or] at hend
  have hwl : w = L := by
    refine le_antisymm hbuf.le (not_lt.mp fun hlt => hend.2 ?_)
    intro x hx
    have hwb := hbuf.writebuf
    rw [hx, Option.getD_some] at hwb
    rw [hwb, hbuf.len]
    exact Nat.mul_lt_mul_of_pos_right hlt hg.io_pos
  have hlen : img.length ≤ (i+L)*mtd.min_io_size := by
    have := hbuf.imglen
    omega
  have hge : ¬ i+L < imagePages mtd img := by
    rw [imagePages_lt hg.io_pos]
    omega
  have := hbuf.pages
  rw [h.next, hwl]
  omega

/-- The next good eraseblock behind `b` has the pages of the ranks from there on. -/
theorem next_good (hg : Geometry mtd) {failed : List ℕ} {b q j : ℕ}
    (hstart : args.mtdoffset ≤ (b+1)*pagesPerEb mtd*mtd.min_io_size)
    (hq : GoodPage mtd args flash failed q) (hj : j < pagesPerEb mtd)
    (hrank : rank mtd args flash failed q = rank mtd args flash failed ((b+1)*pagesPerEb mtd)+j) :
    b < q/pagesPerEb mtd ∧ ∀ c, b < c → c < q/pagesPerEb mtd → isBad mtd flash c = true ∨ c ∈ failed := by
  have hB := hg.pages_pos
  have hbq : (b+1)*pagesPerEb mtd ≤ q := by
    by_contra hlt
    have : rank mtd args flash failed q < rank mtd args flash failed ((b+1)*pagesPerEb mtd) :=
      Nat.count_strict_mono hq (not_le.mp hlt)
    omega
  refine ⟨(Nat.le_div_iff_mul_le hB).mpr hbq, fun c hbc hcq => ?_⟩
  by_contra hcon
  rw [not_or, Bool.not_eq_true] at hcon
  have hpages : ∀ r, c*pagesPerEb mtd ≤ r → r < c*pagesPerEb mtd+pagesPerEb mtd →
      GoodPage mtd args flash failed r := by
    intro r hr hr'
    have hrc : r/pagesPerEb mtd = c := by
      rw [← Nat.succ_mul] at hr'
      exact le_antisymm (Nat.lt_succ_iff.mp ((Nat.div_lt_iff_lt_mul hB).mpr hr'))
        ((Nat.le_div_iff_mul_le hB).mpr hr)
    refine ⟨hstart.trans (Nat.mul_le_mul_right _ ((Nat.mul_le_mul_right _ hbc).trans hr)), ?_, ?_⟩
    · rw [hrc]
      exact hcon.1
    · rw [hrc]
      exact hcon.2
  have h1 : rank mtd args flash failed ((b+1)*pagesPerEb mtd) ≤
      rank mtd args flash failed (c*pagesPerEb mtd) :=
    Nat.count_monotone _ (Nat.mul_le_mul_right _ hbc)
  have h2 := rank_add_good hpages
  have h3 : rank mtd args flash failed (c*pagesPerEb mtd+pagesPerEb mtd) ≤
      rank mtd args flash failed q := by
    apply Nat.count_monotone
    rw [← Nat.succ_mul]
    exact (Nat.le_div_iff_mul_le hB).mp hcq
  omega

theorem Core.delivered (hg : Geometry mtd) (himg : (img.length : ℤ) = max imglen 0)
    (halign : args.pad = false → img.length%mtd.min_io_size = 0)
    (h : Core mtd args flash img imglen p i L w s) (hend : ¬ (0 < s.imglen ∨ s.Pending)) :
    Delivered mtd args flash img s := by
  have hB := hg.pages_pos
  have hl := h.logged
  have hall := h.all_written hg himg hend
  have hin {q : ℕ} (hr : rank mtd args flash (failedEbs mtd s.log) q < imagePages mtd img) : q < p := by
    by_contra hge
    have : rank mtd args flash (failedEbs mtd s.log) p ≤ rank mtd args flash (failedEbs mtd s.log) q :=
      Nat.count_monotone _ (not_lt.mp hge)
    omega
  refine ⟨halign, ?_, fun q hq hr => hl.filled q (hin hr) hq, hl.once, ?_, ?_⟩
  · intro k hk
    obtain ⟨q, hq, hgood, hr⟩ := exists_rank (k := k) (hall ▸ hk)
    refine ⟨q, ⟨?_, hgood, hr⟩, fun q' hq' => Nat.count_injective hq'.2.1 hgood (hq'.2.2.trans hr.symm)⟩
    obtain ⟨q', -, hoffs, -, hlt, -⟩ := hl.entry _ (hl.filled q hq hgood).1
    obtain rfl := Nat.eq_of_mul_eq_mul_right hg.io_pos hoffs
    exact (Nat.div_lt_iff_lt_mul hB).mp hlt
  · intro v hv hnot
    obtain ⟨q, -, hoffs, hstart, -, hbad⟩ := hl.entry v hv
    rw [hoffs, hg.page_block] at hnot
    exact ⟨q, hoffs, ⟨hstart, hbad, hnot⟩, (hl.good v hv q hoffs hnot).2⟩
  · intro v hv hmem
    obtain ⟨q₀, -, hoffs, hstart, -, -⟩ := hl.entry v hv
    rw [hoffs, hg.page_block] at hmem ⊢
    obtain ⟨j, hj, hn, hdata⟩ := hl.failed v hv q₀ hoffs hmem
    obtain ⟨q, -, hgood, hr⟩ := exists_rank (p := p) (hall ▸ hn)
    have hstart' : args.mtdoffset ≤ (q₀/pagesPerEb mtd+1)*pagesPerEb mtd*mtd.min_io_size := by
      refine hstart.trans (Nat.mul_le_mul_right _ (Nat.le_of_lt ?_))
      exact (Nat.div_lt_iff_lt_mul hB).mp (Nat.lt_succ_self _)
    obtain ⟨hlt, hnext⟩ := next_good hg hstart' hgood hj hr
    exact ⟨q, hgood, by rw [hr]; exact hn, by rw [hr]; exact hdata, hlt, hnext⟩

theorem startState_head (hg : Geometry mtd) (hp : args.mtdoffset &&& (mtd.min_io_size-1) = 0)
    (file : List Byte) (flash : Flash) (garbage : ℕ → Byte) :
    Head mtd args flash (image args file) ((file.length : ℤ)-args.inputskip)
      (startState mtd args file flash garbage) := by
  have hpage := hg.page_aligned hp
  have hnone (v : PageWrite) : v ∉ (startState mtd args file flash garbage).log := List.not_mem_nil
  have hbefore : ∀ q < args.mtdoffset/mtd.min_io_size,
      ¬ GoodPage mtd args flash (failedEbs mtd []) q := by
    rintro q hq ⟨hle, -⟩
    rw [hpage] at hle
    exact absurd (Nat.le_of_mul_le_mul_right hle hg.io_pos) (not_le.mpr hq)
  refine Or.inr ⟨args.mtdoffset/mtd.min_io_size, 0, 0, 0, ⟨hpage, le_of_eq hpage, ?_, ?_, ?_⟩, ?_,
    Or.inr hpage.symm, Or.inl rfl, fun b hb => absurd hb List.not_mem_nil⟩
  · refine ⟨(Nat.zero_mul _).symm, (Nat.zero_mul _).symm, fun _ => rfl, le_refl 0, ?_, ?_, ?_,
      Nat.zero_le _⟩
    · intro x hx
      rw [Nat.zero_mul] at hx
      exact absurd hx (Nat.not_lt_zero x)
    · rw [Nat.zero_mul, List.drop_zero]
      rfl
    · rw [Nat.zero_mul, Nat.min_zero, Nat.cast_zero, sub_zero]
      rfl
  · exact ⟨fun v hv => absurd hv (hnone v), List.Pairwise.nil, fun v hv => absurd hv (hnone v),
      fun q hq hgood => absurd hgood (hbefore q hq), fun v hv => absurd hv (hnone v), fun _ _ => rfl⟩
  · exact Nat.count_iff_forall_not.mpr hbefore
  · intro h
    have hneg : (-1 : ℤ) = _ := h
    omega

/-- A run that succeeds went through the checks, and its loop has come to the end. -/
theorem nandwrite_ok {file : List Byte} {garbage : ℕ → Byte}
    (h : nandwrite mtd args env file flash garbage = .ok s) :
    args.mtdoffset &&& (mtd.min_io_size-1) = 0 ∧ 0 ≤ args.inputskip ∧
    (args.pad = false → ((file.length : ℤ)-args.inputskip).tmod mtd.min_io_size = 0) ∧
    writeLoop mtd args env (mtd.size+2) (startState mtd args file flash garbage) = .ok s ∧
    ¬ (0 < s.imglen ∨ s.Pending) := by
  unfold nandwrite at h
  dsimp only at h
  split at h
  · cases h
  next hpage =>
    split at h
    · cases h
    next hskip =>
      split at h
      · cases h
      next hpad =>
        split at h
        · cases h
        · obtain ⟨s', hloop, h⟩ := Loop.bind_eq_ok h
          split at h
          · cases h
          next hend =>
            cases h
            refine ⟨not_not.mp hpage, not_lt.mp hskip, fun hp => ?_, hloop, hend⟩
            by_contra hne
            exact hpad ⟨by rw [hp]; rfl, hne⟩

theorem delivered_of_ok (hg : Geometry mtd) (hb : args.blockalign = 1) (hn : args.noskipbad = false)
    {file : List Byte} {garbage : ℕ → Byte}
    (h : nandwrite mtd args env file flash garbage = .ok s) :
    Delivered mtd args flash (image args file) s := by
  obtain ⟨hpage, hskip, hpad, hloop, hend⟩ := nandwrite_ok h
  have himg : ((image args file).length : ℤ) = max ((file.length : ℤ)-args.inputskip) 0 := by
    rw [image, List.length_drop]
    omega
  have halign : args.pad = false → (image args file).length%mtd.min_io_size = 0 := by
    intro hp
    have hdvd := Int.dvd_of_tmod_eq_zero (hpad hp)
    rw [← Int.natCast_eq_zero, Int.natCast_mod, himg]
    rcases le_total 0 ((file.length : ℤ)-args.inputskip) with hpos | hneg
    · rw [max_eq_left hpos]
      exact Int.emod_eq_zero_of_dvd hdvd
    · rw [max_eq_right hneg, Int.zero_emod]
  have hhead := startState_head hg hpage file flash garbage
  rcases writeLoop_head hg hb hn hhead hloop with ⟨b, f, i, L, w, h⟩ | ⟨p, i, L, w, h⟩
  · exact h.core.delivered hg himg halign hend
  · exact h.core.delivered hg himg halign hend

theorem nandwrite_clean (hg : Geometry mtd) (hb : args.blockalign = 1) (hn : args.noskipbad = false)
    (file : List Byte) (flash : Flash) (garbage : ℕ → Byte) :
    Clean (nandwrite mtd args env file flash garbage) := by
  unfold nandwrite
  dsimp only
  split
  · exact clean_errmsg _
  · split
    · exact clean_errmsg _
    · split
      · exact clean_errmsg _
      · split
        · exact clean_errmsg _
        · refine clean_bind (writeLoop_clean hg hb hn (by omega) (by omega)) fun s _ => ?_
          split
          · exact clean_errmsg _
          · exact clean_ok _

/-- The image is delivered, or the program ends with an error. -/
theorem nandwrite_delivers (hg : Geometry mtd) (hb : args.blockalign = 1)
    (hn : args.noskipbad = false) (file : List Byte) (flash : Flash) (garbage : ℕ → Byte) :
    (∃ s, nandwrite mtd args env file flash garbage = .ok s ∧
      Delivered mtd args flash (image args file) s) ∨
    ∃ text, nandwrite mtd args env file flash garbage = .error (.errmsg text) := by
  cases hrun : nandwrite mtd args env file flash garbage with
  | ok s => exact Or.inl ⟨s, rfl, delivered_of_ok hg hb hn hrun⟩
  | error e =>
    obtain ⟨text, rfl⟩ := nandwrite_clean hg hb hn file flash garbage e hrun
    exact Or.inr ⟨text, rfl⟩

/-- A device of four eraseblocks with four pages each, of which the first one is bad. -/
def smallDev : NandDev := ⟨⟨4, 8, 2, 2, true⟩, 32, rfl⟩

/-- The second page of the second eraseblock cannot be written. -/
def failingPage : WriteEnv := ⟨fun _ => true, fun _ => true,
  fun offs => if offs = 10 then .eio else .done, fun _ => .done, fun _ => true, fun _ _ => 0xff#8⟩

def smallArgs : WriteArgs := ⟨0, 0, 1, true, false, true⟩

def smallFlash : Flash := ⟨fun eb => eb == 0, fun _ _ => 0xff#8⟩

theorem nandwrite_failing_page : Geometry smallDev ∧
    ∃ s, nandwrite smallDev smallArgs failingPage [1#8, 2#8, 3#8, 4#8, 5#8] smallFlash
        (fun _ => 0#8) = .ok s ∧
      Delivered smallDev smallArgs smallFlash [1#8, 2#8, 3#8, 4#8, 5#8] s := by
  have hg : Geometry smallDev := ⟨⟨3, by decide, rfl⟩, by decide, by decide⟩
  have hsome : (nandwrite smallDev smallArgs failingPage [1#8, 2#8, 3#8, 4#8, 5#8] smallFlash
    (fun _ => 0#8)).toOption.isSome = true := by decide +kernel
  refine ⟨hg, (nandwrite_delivers hg rfl rfl _ _ _).resolve_right ?_⟩
  rintro ⟨text, h⟩
  rw [h] at hsome
  cases hsome

end Delivery

section Quiet

variable {mtd : NandDev} {args : WriteArgs} {env : WriteEnv} {flash : Flash} {s s' : WriteState}

/-- No write has failed so far. -/
structure Quiet (flash : Flash) (s : WriteState) : Prop where
  done : ∀ v ∈ s.log, v.done = true
  bad : s.flash.bad = flash.bad

theorem skipBlocks_quiet (hg : Geometry mtd) (hb : args.blockalign = 1) (hn : args.noskipbad = false)
    {n : ℕ} (hle : s.mtdoffset ≤ mtd.size) (hrun : skipBlocks mtd args env n s = .ok s')
    (h : Quiet flash s) : Quiet flash s' := by
  induction n generalizing s with
  | zero => cases hrun
  | succ n ih =>
    rw [skipBlocks] at hrun
    split at hrun
    · cases hrun
      exact h
    · obtain ⟨s₁, hs₁, hrun⟩ := Loop.bind_eq_ok hrun
      have hnb := newBlock_ok hg hb hn hle hs₁
      have hle₁ : s₁.mtdoffset ≤ mtd.size := by
        rcases hnb.offset with ⟨-, hoff⟩ | ⟨-, -, hoff⟩
        · rw [hoff]
          exact hle
        · exact hoff
      exact ih hle₁ hrun ⟨by rw [hnb.log]; exact h.done, by rw [hnb.flash]; exact h.bad⟩

theorem readPage_quiet {eof : Bool} (hrun : readPage mtd args env s = .ok (eof, s'))
    (h : Quiet flash s) : Quiet flash s' := by
  unfold readPage at hrun
  dsimp only at hrun
  split at hrun
  · split at hrun
    · cases hrun
    · split at hrun
      · cases hrun
        exact h
      · split at hrun
        · cases hrun
        · cases hrun
          exact ⟨h.done, h.bad⟩
  · cases hrun
    exact h

theorem writePage_quiet (hw : ∀ offs, env.write offs ≠ .eio)
    (hrun : writePage mtd args env s = .ok s') (h : Quiet flash s) : Quiet flash s' := by
  unfold writePage at hrun
  dsimp only at hrun
  split at hrun
  · cases hrun
  · split at hrun
    · cases hrun
    next heio => exact absurd heio (hw _)
    · cases hrun
      refine ⟨fun v hv => ?_, h.bad⟩
      rcases List.mem_append.mp hv with hv | hv
      · exact h.done v hv
      · rw [List.mem_singleton.mp hv]

/-- Without failed writes no eraseblock becomes bad. -/
theorem writeLoop_quiet (hg : Geometry mtd) (hb : args.blockalign = 1) (hn : args.noskipbad = false)
    (hw : ∀ offs, env.write offs ≠ .eio) {n : ℕ} (hrun : writeLoop mtd args env n s = .ok s')
    (h : Quiet flash s) : Quiet flash s' := by
  induction n generalizing s with
  | zero => cases hrun
  | succ n ih =>
    rw [writeLoop] at hrun
    split at hrun
    next hcond =>
      obtain ⟨s₁, hskip, hrun⟩ := Loop.bind_eq_ok hrun
      obtain ⟨⟨eof, s₂⟩, hread, hrest⟩ := Loop.bind_eq_ok hrun
      dsimp only at hrest
      have h₂ := readPage_quiet hread (skipBlocks_quiet hg hb hn (Nat.le_of_lt hcond.2) hskip h)
      split at hrest
      · cases hrest
        exact h₂
      · obtain ⟨s₃, hwrite, hrest⟩ := Loop.bind_eq_ok hrest
        exact ih hrest (writePage_quiet hw hwrite h₂)
    · cases hrun
      exact h

theorem failedEbs_quiet (h : Quiet flash s) : failedEbs mtd s.log = [] := by
  rw [failedEbs, List.map_eq_nil_iff, List.filter_eq_nil_iff]
  intro v hv hnot
  rw [h.done v hv] at hnot
  cases hnot

/-- A run that succeeds has found an eraseblock that is not bad, also for an empty image. -/
theorem good_block_of_ok (hg : Geometry mtd) (hb : args.blockalign = 1) (hn : args.noskipbad = false)
    {file : List Byte} {garbage : ℕ → Byte}
    (h : nandwrite mtd args env file flash garbage = .ok s) :
    ∃ b, args.mtdoffset/mtd.eb_size ≤ b ∧ b < mtd.eb_cnt ∧ isBad mtd flash b = false := by
  obtain ⟨hpage, -, -, hloop, hend⟩ := nandwrite_ok h
  have hpending : (startState mtd args file flash garbage).Pending := fun w hw => by cases hw
  rw [show mtd.size+2 = (mtd.size+1)+1 from rfl, writeLoop] at hloop
  split at hloop
  next hcond =>
    obtain ⟨s₁, hskip, -⟩ := Loop.bind_eq_ok hloop
    obtain ⟨b, f, i, L, w, hin, hlt⟩ := skipBlocks_inside hg hb hn
      (startState_head hg hpage file flash garbage) (Nat.le_of_lt hcond.2) hskip
    refine ⟨b, ?_, hin.lt, hin.good⟩
    have hf : f < (b+1)*pagesPerEb mtd := by omega
    have hoff : f*mtd.min_io_size < (b+1)*mtd.eb_size := by
      rw [hg.eb_eq, ← Nat.mul_assoc]
      exact Nat.mul_lt_mul_of_pos_right hf hg.io_pos
    exact Nat.lt_succ_iff.mp ((Nat.div_lt_iff_lt_mul hg.eb_pos).mpr (hin.start.trans_lt hoff))
  next hcond =>
    cases hloop
    exact absurd (Or.inr hpending) hend

end Quiet

end ChipTools.Nand
