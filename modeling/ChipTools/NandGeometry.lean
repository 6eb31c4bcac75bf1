import ChipTools.CNumber

/-! The geometry of `sunxi-nand-image-builder`: what `main` makes of its options and
`check_image_info` accepts, and the parts of a page that `write_page` fills. -/
namespace ChipTools.NandImage
open Bytes CNumber

section Check

/-- What was given on the command line, as `strtol` and `strtoull` return it; zero is left out. -/
structure Options where
  ecc_strength : ℤ := 0
  ecc_step_size : ℤ := 0
  page_size : ℤ := 0
  oob_size : ℤ := 0
  usable_page_size : ℤ := 0
  eraseblock_size : ℤ := 0
  scramble : Bool := false
  boot0 : Bool := false
  offset : ℤ := 0

/-- `struct image_info` without the file names; the numbers are of type `int` and `off_t`. -/
structure ImageInfo where
  ecc_strength : ℤ
  ecc_step_size : ℤ
  page_size : ℤ
  oob_size : ℤ
  usable_page_size : ℤ
  eraseblock_size : ℤ
  scramble : Bool
  boot0 : Bool
  offset : ℤ

/-- The fields as `main` sets them. -/
def Options.info (o : Options) : ImageInfo :=
  let page_size := toInt32 o.page_size
  let usable_page_size := toInt32 o.usable_page_size
  { ecc_strength := toInt32 o.ecc_strength
    ecc_step_size := toInt32 o.ecc_step_size
    page_size := page_size
    oob_size := toInt32 o.oob_size
    usable_page_size :=
      if !o.boot0 then page_size
      else if usable_page_size = 0 then
        if 8192 < page_size then 8192
        else if 4096 < page_size then 4096
        else 1024
      else usable_page_size
    eraseblock_size := toInt32 o.eraseblock_size
    scramble := o.scramble
    boot0 := o.boot0
    offset := toInt64 o.offset }

def valid_ecc_strengths : List ℤ := [16, 24, 28, 32, 40, 48, 56, 60, 64]

def DIV_ROUND_UP (n d : ℤ) : ℤ := (n+d-1).tdiv d

namespace ImageInfo

variable (info : ImageInfo)

/-- The ECC bytes of a step, an even number. -/
def eccbytes : ℤ :=
  let eccbytes := DIV_ROUND_UP (info.ecc_strength*14) 8
  if eccbytes.tmod 2 ≠ 0 then eccbytes+1 else eccbytes

def steps : ℤ := info.usable_page_size.tdiv info.ecc_step_size

/-- `check_image_info`, with the message that it prints. The size of the OOB is asked for, but the
test is on the page size again. -/
def check : Except String Unit :=
  if info.page_size = 0 then .error "--page is missing\n"
  else if info.page_size = 0 then .error "--oob is missing\n"
  else if info.eraseblock_size = 0 then .error "--eraseblock is missing\n"
  else if info.ecc_step_size ≠ 512 ∧ info.ecc_step_size ≠ 1024 then
    .error ("Invalid ECC step argument: " ++ toString info.ecc_step_size ++ "\n")
  else if info.ecc_strength ∉ valid_ecc_strengths then
    .error ("Invalid ECC strength argument: " ++ toString info.ecc_strength ++ "\n")
  else if toInt32 (info.page_size+info.oob_size) <
      toInt32 (info.usable_page_size+toInt32 (info.steps*(info.eccbytes+4))) then
    .error "ECC bytes do not fit in the NAND page, choose a weaker ECC\n"
  else .ok ()

end ImageInfo

end Check

section Page

/-- What `write_page` writes into a page that it has filled with ones: the data of a step, its four
spare bytes and ECC, the rest of a scrambled page, and the bad block marker. -/
inductive Part
  | data (i : ℕ)
  | spare (i : ℕ)
  | filler
  | marker
deriving DecidableEq

namespace ImageInfo

variable (info : ImageInfo)

def dataOffs (i : ℕ) : ℤ :=
  if info.boot0 then toInt32 (i*(info.ecc_step_size+info.eccbytes+4))
  else toInt32 (i*info.ecc_step_size)

def eccOffs (i : ℕ) : ℤ :=
  if info.boot0 then toInt32 (info.dataOffs i+info.ecc_step_size+4)
  else toInt32 (info.page_size+4+toInt32 (i*(info.eccbytes+4)))

def fillerOffs : ℤ :=
  if info.boot0 then toInt32 (info.steps*(info.ecc_step_size+info.eccbytes+4))
  else toInt32 (info.page_size+toInt32 (info.steps*(info.eccbytes+4)))

/-- Where a part starts in the page, and its length. -/
def start : Part → ℤ
  | .data i => info.dataOffs i
  | .spare i => info.eccOffs i-4
  | .filler => info.fillerOffs
  | .marker => info.page_size

def length : Part → ℤ
  | .data _ => info.ecc_step_size
  | .spare _ => info.eccbytes+4
  -- stored to a `size_t`
  | .filler => toInt32 (toInt32 (info.page_size+info.oob_size)-info.fillerOffs)%2^64
  | .marker => 2

/-- The parts in the order in which they are written. -/
def parts : List Part :=
  (if info.scramble then [.filler] else []) ++
    ((List.range info.steps.toNat).flatMap fun i => [.data i, .spare i]) ++ [.marker]

/-- The number of seeds that `scramble` divides the page number by, if it does. -/
def seedmod : Option ℕ :=
  if info.boot0 then none
  else if !info.scramble then none
  else some (min ((info.eraseblock_size.tdiv info.page_size)%2^32).toNat 128)

/-- The byte `x` of the page belongs to the part `p`. -/
def Covers (p : Part) (x : ℤ) : Prop := info.start p ≤ x ∧ x < info.start p+info.length p

/-- No byte in common, but for a marker in the four spare bytes of the first step. -/
def Apart (p q : Part) : Prop :=
  ∀ x, info.Covers p x → info.Covers q x →
    p = .spare 0 ∧ q = .marker ∧ x < info.start (.spare 0)+4

/-- The same where the marker of a boot0 page may also replace bytes of the filler. -/
def ApartOrFixed (p q : Part) : Prop :=
  ∀ x, info.Covers p x → info.Covers q x →
    (p = .spare 0 ∧ q = .marker ∧ x < info.start (.spare 0)+4) ∨
      (info.boot0 = true ∧ p = .filler ∧ q = .marker)

end ImageInfo

end Page

section Source

/-- The source file: what is left of it, and whether a read has met its end. -/
structure Source where
  rest : List Byte
  eof : Bool
deriving DecidableEq

def Source.fread (s : Source) (n : ℕ) : List Byte × Source :=
  (s.rest.take n, ⟨s.rest.drop n, s.eof || decide (s.rest.length < n)⟩)

namespace ImageInfo

variable (info : ImageInfo)

/-- The reads of the loop over the steps. -/
def freadSteps (s : Source) : ℕ → Source
  | 0 => s
  | n+1 => freadSteps (s.fread (info.ecc_step_size%2^64).toNat).2 n

/-- What `write_page` reads. A page of ones is left empty; else the source pointer is set back, which
also takes back the end of file, and the page is read again step by step. -/
def pageSource (s : Source) : Source :=
  let r := s.fread (info.usable_page_size%2^64).toNat
  if r.1 = [] then r.2
  else if r.1.all (· = 0xff#8) then r.2
  else info.freadSteps ⟨s.rest, false⟩ info.steps.toNat

/-- The loop of `create_image`, with a bound on its passes: the number of pages. -/
def createImage : ℕ → Source → Option ℕ
  | 0, s => if s.eof then some 0 else none
  | n+1, s => if s.eof then some 0 else (createImage n (info.pageSource s)).map (·+1)

end ImageInfo

end Source

section Layout

/-- A page is well laid out: its steps take all of the usable bytes, its parts lie inside of it and
keep apart, no remainder by zero is taken, and the image is finished. -/
structure ImageInfo.Laid (info : ImageInfo) (apart : Part → Part → Prop) : Prop where
  steps : 1 ≤ info.steps
  exact : info.steps*info.ecc_step_size = info.usable_page_size
  inside : ∀ p ∈ info.parts,
    0 ≤ info.start p ∧ info.start p+info.length p ≤ info.page_size+info.oob_size
  apart : info.parts.Pairwise apart
  seedmod : info.seedmod ≠ some 0
  progress : ∀ s, s.rest ≠ [] → (info.pageSource s).rest.length < s.rest.length
  finished : ∀ s, ∃ n, (info.createImage n s).isSome = true

/-- The marker of a boot0 page comes after the steps, or is in the spare bytes of the first one. -/
def ImageInfo.MarkerRoom (info : ImageInfo) : Prop :=
  info.steps*(info.ecc_step_size+info.eccbytes+4) ≤ info.page_size ∨
    (info.ecc_step_size ≤ info.page_size ∧ info.page_size ≤ info.ecc_step_size+2)

instance (info : ImageInfo) : Decidable info.MarkerRoom := inferInstanceAs (Decidable (_ ∨ _))

/-- What `check_image_info` does not ask for: whole steps, room for the marker behind the steps (or
in the spare bytes of the first one), a page in the erase block, and sums that are no more than an
`int`. -/
structure ImageInfo.Regular (info : ImageInfo) : Prop where
  pos : 0 < info.usable_page_size
  whole : info.ecc_step_size ∣ info.usable_page_size
  oob : 2 ≤ info.oob_size
  boot0 : info.boot0 = true → info.MarkerRoom
  eraseblock : info.boot0 = false → info.scramble = true →
    info.page_size ≤ info.eraseblock_size ∨ info.eraseblock_size ≤ -info.page_size
  sums : info.page_size+info.oob_size < 2^31 ∧
    info.usable_page_size+info.steps*(info.eccbytes+4) < 2^31

/-- What the check ensures, of an image that `main` describes. -/
structure ImageInfo.Accepted (info : ImageInfo) : Prop where
  page : info.page_size ≠ 0
  eraseblock : info.eraseblock_size ≠ 0
  step : info.ecc_step_size = 512 ∨ info.ecc_step_size = 1024
  ecc : 28 ≤ info.eccbytes ∧ info.eccbytes ≤ 112
  fits : ¬toInt32 (info.page_size+info.oob_size) <
    toInt32 (info.usable_page_size+toInt32 (info.steps*(info.eccbytes+4)))

theorem eccbytes_bounds {info : ImageInfo} (h : info.ecc_strength ∈ valid_ecc_strengths) :
    28 ≤ info.eccbytes ∧ info.eccbytes ≤ 112 := by
  unfold ImageInfo.eccbytes
  generalize info.ecc_strength = n at h
  revert n
  decide

theorem accepted {info : ImageInfo} (h : info.check = .ok ()) : info.Accepted := by
  unfold ImageInfo.check at h
  by_cases hp : info.page_size = 0
  · simp [hp] at h
  by_cases he : info.eraseblock_size = 0
  · simp [hp, he] at h
  by_cases hs : info.ecc_step_size ≠ 512 ∧ info.ecc_step_size ≠ 1024
  · simp [hp, he, hs] at h
  by_cases hv : info.ecc_strength ∉ valid_ecc_strengths
  · simp [hp, he, hs, hv] at h
  rw [if_neg hp, if_neg hp, if_neg he, if_neg hs, if_neg hv] at h
  by_cases hf : toInt32 (info.page_size+info.oob_size) <
      toInt32 (info.usable_page_size+toInt32 (info.steps*(info.eccbytes+4)))
  · rw [if_pos hf] at h
    cases h
  · exact ⟨hp, he, by omega, eccbytes_bounds (not_not.mp hv), hf⟩

/-- A page that is not boot0 uses all of its main area. -/
theorem usable_of_boot0 {o : Options} (h : o.info.boot0 = false) :
    o.info.usable_page_size = o.info.page_size := by
  have hb : o.boot0 = false := h
  simp [Options.info, hb]

end Layout

section Plan

/-- The numbers of a regular page: `n` steps of `step` bytes with `e` spare and ECC bytes each. -/
structure ImageInfo.Plan (info : ImageInfo) (n : ℕ) (step e : ℤ) : Prop where
  steps : info.steps = n
  stepSize : info.ecc_step_size = step
  eccbytes : info.eccbytes = e-4
  pos : 1 ≤ n ∧ 512 ≤ step ∧ step ≤ 1024 ∧ 32 ≤ e ∧ e ≤ 116
  usable : info.usable_page_size = n*step
  page : 0 < info.page_size
  oob : 2 ≤ info.oob_size
  total : info.page_size+info.oob_size < 2^31
  fits : n*step+n*e ≤ info.page_size+info.oob_size
  plain : info.boot0 = false → info.page_size = n*step

theorem plan {o : Options} (ha : o.info.Accepted) (hpage : 0 < o.info.page_size)
    (hpos : 0 < o.info.usable_page_size) (hwhole : o.info.ecc_step_size ∣ o.info.usable_page_size)
    (hoob : 2 ≤ o.info.oob_size) (hsums : o.info.page_size+o.info.oob_size < 2^31 ∧
      o.info.usable_page_size+o.info.steps*(o.info.eccbytes+4) < 2^31) :
    ∃ n step e, o.info.Plan n step e := by
  obtain ⟨step, hstep⟩ : ∃ step, o.info.ecc_step_size = step := ⟨_, rfl⟩
  obtain ⟨e, he⟩ : ∃ e, o.info.eccbytes+4 = e := ⟨_, rfl⟩
  have hsize := ha.step
  have hecc := ha.ecc
  obtain ⟨htotal, hsum⟩ := hsums
  obtain ⟨k, hk⟩ := hwhole
  rw [hstep] at hsize hk
  have hkpos : 0 < k := by
    by_contra hneg
    have hprod : step*k ≤ 0 := Int.mul_nonpos_of_nonneg_of_nonpos (by omega) (by omega)
    omega
  obtain ⟨n, rfl⟩ := Int.eq_ofNat_of_zero_le (Int.le_of_lt hkpos)
  have hsteps : o.info.steps = n := by
    unfold ImageInfo.steps
    rw [hstep, hk, Int.mul_tdiv_cancel_left]
    omega
  rw [Int.mul_comm] at hk
  rw [hsteps, he, hk] at hsum
  have hnstep : 1*step ≤ n*step := Int.mul_le_mul_of_nonneg_right (by omega) (by omega)
  have hne : 0 ≤ (n : ℤ)*e := Int.mul_nonneg (by omega) (by omega)
  have hplain (hb : o.info.boot0 = false) : o.info.page_size = n*step := by
    rw [← usable_of_boot0 hb, hk]
  have hfits : n*step+n*e ≤ o.info.page_size+o.info.oob_size := by
    have h := ha.fits
    rw [hsteps, he, hk, toInt32_of_lt (by omega) htotal, toInt32_of_lt hne (by omega),
      toInt32_of_lt (by omega) hsum] at h
    omega
  exact ⟨n, step, e, hsteps, hstep, by omega, by omega, hk, hpage, hoob, htotal, hfits, hplain⟩

variable {info : ImageInfo} {n : ℕ} {step e : ℤ}

theorem mul_add_le {i n : ℕ} {b : ℤ} (hi : i < n) (hb : 0 ≤ b) : 0 ≤ i*b ∧ i*b+b ≤ n*b := by
  refine ⟨Int.mul_nonneg (by omega) hb, ?_⟩
  have h : ((i : ℤ)+1)*b ≤ n*b := Int.mul_le_mul_of_nonneg_right (by omega) hb
  rw [Int.add_mul, Int.one_mul] at h
  exact h

/-- The room of one step in a boot0 page. -/
theorem Plan.room (h : info.Plan n step e) : info.ecc_step_size+info.eccbytes+4 = step+e := by
  rw [h.stepSize, h.eccbytes]
  omega

theorem start_data (h : info.Plan n step e) {i : ℕ} (hi : i < n) :
    info.start (.data i) = if info.boot0 then i*(step+e) else i*step := by
  have hp := h.pos
  have hfits := h.fits
  have htotal := h.total
  have h1 := mul_add_le hi (b := step+e) (by omega)
  have h2 := mul_add_le hi (b := step) (by omega)
  rw [Int.mul_add n] at h1
  have hne : 0 ≤ (n : ℤ)*e := Int.mul_nonneg (by omega) (by omega)
  change info.dataOffs i = _
  unfold ImageInfo.dataOffs
  rw [Plan.room h, h.stepSize, toInt32_of_lt h1.1 (by omega), toInt32_of_lt h2.1 (by omega)]

theorem start_spare (h : info.Plan n step e) {i : ℕ} (hi : i < n) :
    info.start (.spare i) = if info.boot0 then i*(step+e)+step else info.page_size+i*e := by
  have hp := h.pos
  have hfits := h.fits
  have htotal := h.total
  have hpage := h.page
  have h1 := mul_add_le hi (b := step+e) (by omega)
  have h2 := mul_add_le hi (b := e) (by omega)
  have hs : 0 ≤ (n : ℤ)*step := Int.mul_nonneg (by omega) (by omega)
  rw [Int.mul_add n] at h1
  have hdata := start_data h hi
  change info.dataOffs i = _ at hdata
  change info.eccOffs i-4 = _
  unfold ImageInfo.eccOffs
  rw [hdata, h.stepSize, h.eccbytes, show e-4+4 = e from by omega, toInt32_of_lt h2.1 (by omega)]
  cases hb : info.boot0 with
  | false =>
    have hplain := h.plain hb
    rw [if_neg Bool.false_ne_true, if_neg Bool.false_ne_true,
      toInt32_of_lt (by omega) (by omega)]
    omega
  | true =>
    rw [if_pos rfl, if_pos rfl, if_pos rfl, toInt32_of_lt (by omega) (by omega)]
    omega

theorem start_filler (h : info.Plan n step e) :
    info.start .filler = if info.boot0 then n*(step+e) else info.page_size+n*e := by
  have hp := h.pos
  have hfits := h.fits
  have htotal := h.total
  have hpage := h.page
  have hs : 0 ≤ (n : ℤ)*step := Int.mul_nonneg (by omega) (by omega)
  have he : 0 ≤ (n : ℤ)*e := Int.mul_nonneg (by omega) (by omega)
  change info.fillerOffs = _
  unfold ImageInfo.fillerOffs
  rw [Plan.room h, h.eccbytes, h.steps, show e-4+4 = e from by omega, Int.mul_add,
    toInt32_of_lt (by omega) (by omega), toInt32_of_lt he (by omega)]
  cases hb : info.boot0 with
  | false =>
    have hplain := h.plain hb
    rw [if_neg Bool.false_ne_true, if_neg Bool.false_ne_true,
      toInt32_of_lt (by omega) (by omega)]
  | true => rw [if_pos rfl, if_pos rfl]

/-- The filler takes the rest of the page. -/
theorem filler_end (h : info.Plan n step e) : 0 ≤ info.start .filler ∧
    info.start .filler ≤ info.page_size+info.oob_size ∧
    info.start .filler+info.length .filler = info.page_size+info.oob_size := by
  have hp := h.pos
  have hfits := h.fits
  have htotal := h.total
  have hpage := h.page
  have hoob := h.oob
  have hs : 0 ≤ (n : ℤ)*step := Int.mul_nonneg (by omega) (by omega)
  have he : 0 ≤ (n : ℤ)*e := Int.mul_nonneg (by omega) (by omega)
  have hstart := start_filler h
  have hbounds : 0 ≤ info.start .filler ∧
      info.start .filler ≤ info.page_size+info.oob_size := by
    cases hb : info.boot0 with
    | false =>
      have hplain := h.plain hb
      rw [hb, if_neg Bool.false_ne_true] at hstart
      omega
    | true =>
      rw [hb, if_pos rfl, Int.mul_add] at hstart
      omega
  refine ⟨hbounds.1, hbounds.2, ?_⟩
  change info.start .filler+toInt32 (toInt32 (info.page_size+info.oob_size)-info.start .filler)%2^64
    = _
  rw [toInt32_of_lt (by omega) htotal, toInt32_of_lt (by omega) (by omega),
    Int.emod_eq_of_lt (by omega) (by omega)]
  omega

end Plan

section Regular

variable {info : ImageInfo} {n : ℕ} {step e : ℤ}

theorem mem_parts {p : Part} (h : info.Plan n step e) : p ∈ info.parts ↔
    (info.scramble = true ∧ p = .filler) ∨ (∃ i < n, p = .data i ∨ p = .spare i) ∨ p = .marker := by
  unfold ImageInfo.parts
  rw [h.steps]
  cases info.scramble with
  | false => simp
  | true => simp

theorem parts_inside (h : info.Plan n step e) {p : Part} (hp : p ∈ info.parts) :
    0 ≤ info.start p ∧ info.start p+info.length p ≤ info.page_size+info.oob_size := by
  have hpos := h.pos
  have hfits := h.fits
  have hpage := h.page
  have hoob := h.oob
  have hs : 0 ≤ (n : ℤ)*step := Int.mul_nonneg (by omega) (by omega)
  have he : 0 ≤ (n : ℤ)*e := Int.mul_nonneg (by omega) (by omega)
  rcases (mem_parts h).mp hp with ⟨-, rfl⟩ | ⟨i, hi, rfl | rfl⟩ | rfl
  · have hend := filler_end h
    omega
  · have hlen : info.length (.data i) = step := h.stepSize
    have h1 := mul_add_le hi (b := step+e) (by omega)
    have h2 := mul_add_le hi (b := step) (by omega)
    rw [Int.mul_add n] at h1
    rw [start_data h hi, hlen]
    split <;> omega
  · have hlen : info.length (.spare i) = e := by
      change info.eccbytes+4 = e
      rw [h.eccbytes]
      omega
    have h1 := mul_add_le hi (b := step+e) (by omega)
    have h2 := mul_add_le hi (b := e) (by omega)
    rw [Int.mul_add n] at h1
    rw [start_spare h hi, hlen]
    split
    · omega
    next hb =>
      have hplain := h.plain (Bool.eq_false_iff.mpr hb)
      omega
  · exact ⟨Int.le_of_lt hpage, by change info.page_size+2 ≤ _; omega⟩

/-- The bytes of the parts of step `i`. -/
theorem covers_data (h : info.Plan n step e) {i : ℕ} (hi : i < n) {x : ℤ} :
    info.Covers (.data i) x ↔ if info.boot0 then i*(step+e) ≤ x ∧ x < i*(step+e)+step
      else i*step ≤ x ∧ x < i*step+step := by
  have hlen : info.length (.data i) = step := h.stepSize
  unfold ImageInfo.Covers
  rw [start_data h hi, hlen]
  cases info.boot0 <;> rfl

theorem covers_spare (h : info.Plan n step e) {i : ℕ} (hi : i < n) {x : ℤ} :
    info.Covers (.spare i) x ↔ if info.boot0 then i*(step+e)+step ≤ x ∧ x < i*(step+e)+(step+e)
      else info.page_size+i*e ≤ x ∧ x < info.page_size+i*e+e := by
  have hlen : info.length (.spare i) = e := by
    change info.eccbytes+4 = e
    rw [h.eccbytes]
    omega
  unfold ImageInfo.Covers
  rw [start_spare h hi, hlen]
  cases info.boot0 with
  | false => rfl
  | true => simp only [if_true, Int.add_assoc]

/-- In a step the data comes first, in a boot0 page right before the spare bytes. -/
theorem apart_data_spare (h : info.Plan n step e) {i : ℕ} (hi : i < n) :
    info.ApartOrFixed (.data i) (.spare i) := by
  intro x hx hy
  have hpos := h.pos
  rw [covers_data h hi] at hx
  rw [covers_spare h hi] at hy
  cases hb : info.boot0 with
  | false =>
    have hplain := h.plain hb
    have h1 := mul_add_le hi (b := step) (by omega)
    have h2 := mul_add_le hi (b := e) (by omega)
    simp only [hb, Bool.false_eq_true, if_false] at hx hy
    omega
  | true =>
    simp only [hb, if_true] at hx hy
    omega

/-- Two steps. -/
theorem apart_steps (h : info.Plan n step e) {i j : ℕ} (hij : i < j) (hj : j < n) {p q : Part}
    (hp : p = .data i ∨ p = .spare i) (hq : q = .data j ∨ q = .spare j) :
    info.ApartOrFixed p q := by
  intro x hx hy
  have hpos := h.pos
  have hi : i < n := by omega
  have h1 := mul_add_le hij (b := step+e) (by omega)
  have h2 := mul_add_le hij (b := step) (by omega)
  have h3 := mul_add_le hij (b := e) (by omega)
  have h4 := mul_add_le hi (b := step) (by omega)
  have h5 := mul_add_le hj (b := step) (by omega)
  cases hb : info.boot0 with
  | false =>
    have hplain := h.plain hb
    rcases hp with rfl | rfl <;> rcases hq with rfl | rfl <;>
      simp only [covers_data h hi, covers_spare h hi, covers_data h hj, covers_spare h hj, hb,
        Bool.false_eq_true, if_false] at hx hy <;> omega
  | true =>
    rcases hp with rfl | rfl <;> rcases hq with rfl | rfl <;>
      simp only [covers_data h hi, covers_spare h hi, covers_data h hj, covers_spare h hj, hb,
        if_true] at hx hy <;> omega

/-- The marker and a step. -/
theorem apart_marker (h : info.Plan n step e) (hroom : info.boot0 = true → info.MarkerRoom) {i : ℕ}
    (hi : i < n) {p : Part} (hp : p = .data i ∨ p = .spare i) : info.ApartOrFixed p .marker := by
  intro x hx hy
  have hpos := h.pos
  have hmarker : info.page_size ≤ x ∧ x < info.page_size+2 := hy
  have h1 := mul_add_le hi (b := step+e) (by omega)
  have h2 := mul_add_le hi (b := step) (by omega)
  have h3 := mul_add_le hi (b := e) (by omega)
  cases hb : info.boot0 with
  | false =>
    have hplain := h.plain hb
    rcases hp with rfl | rfl
    · simp only [covers_data h hi, hb, Bool.false_eq_true, if_false] at hx
      omega
    · simp only [covers_spare h hi, hb, Bool.false_eq_true, if_false] at hx
      have hfirst : i = 0 := by
        by_contra hne
        have h4 := mul_add_le (i := 0) (n := i) (b := e) (by omega) (by omega)
        omega
      subst hfirst
      left
      refine ⟨rfl, rfl, ?_⟩
      rw [start_spare h hi, hb, if_neg Bool.false_ne_true]
      omega
  | true =>
    have hroom := hroom hb
    unfold ImageInfo.MarkerRoom at hroom
    rw [Plan.room h, h.steps, h.stepSize] at hroom
    -- a later step starts behind the spare bytes of the first one
    have hlater (hne : i ≠ 0) : step+e ≤ i*(step+e) := by
      have h4 := mul_add_le (i := 0) (n := i) (b := step+e) (by omega) (by omega)
      omega
    rcases hp with rfl | rfl
    · simp only [covers_data h hi, hb, if_true] at hx
      by_cases hfirst : i = 0
      · subst hfirst
        omega
      · have := hlater hfirst
        omega
    · simp only [covers_spare h hi, hb, if_true] at hx
      by_cases hfirst : i = 0
      · subst hfirst
        left
        refine ⟨rfl, rfl, ?_⟩
        rw [start_spare h hi, hb, if_pos rfl]
        omega
      · have := hlater hfirst
        omega

/-- The filler comes after all steps. -/
theorem apart_filler (h : info.Plan n step e) {i : ℕ} (hi : i < n) {p : Part}
    (hp : p = .data i ∨ p = .spare i) : info.ApartOrFixed .filler p := by
  intro x hx hy
  have hpos := h.pos
  have hstart := start_filler h
  have hx' := hx.1
  have h1 := mul_add_le hi (b := step+e) (by omega)
  have h2 := mul_add_le hi (b := step) (by omega)
  have h3 := mul_add_le hi (b := e) (by omega)
  cases hb : info.boot0 with
  | false =>
    have hplain := h.plain hb
    rw [hb, if_neg Bool.false_ne_true] at hstart
    rcases hp with rfl | rfl <;>
      simp only [covers_data h hi, covers_spare h hi, hb, Bool.false_eq_true, if_false] at hy <;>
      omega
  | true =>
    rw [hb, if_pos rfl] at hstart
    rcases hp with rfl | rfl <;>
      simp only [covers_data h hi, covers_spare h hi, hb, if_true] at hy <;> omega

theorem apart_filler_marker (h : info.Plan n step e) : info.ApartOrFixed .filler .marker := by
  intro x hx hy
  cases hb : info.boot0 with
  | false =>
    have hpos := h.pos
    have hstart := start_filler h
    have hmarker : info.page_size ≤ x ∧ x < info.page_size+2 := hy
    have hx' := hx.1
    have h1 := mul_add_le (i := 0) (n := n) (b := e) (by omega) (by omega)
    rw [hb, if_neg Bool.false_ne_true] at hstart
    omega
  | true => exact Or.inr ⟨rfl, rfl, rfl⟩

theorem parts_apart (h : info.Plan n step e) (hroom : info.boot0 = true → info.MarkerRoom) :
    info.parts.Pairwise info.ApartOrFixed := by
  have hsteps {p : Part} (hp : p ∈ (List.range n).flatMap fun i => [Part.data i, Part.spare i]) :
      ∃ i < n, p = .data i ∨ p = .spare i := by
    obtain ⟨i, hi, hmem⟩ := List.mem_flatMap.mp hp
    exact ⟨i, List.mem_range.mp hi, by simpa using hmem⟩
  unfold ImageInfo.parts
  rw [h.steps, Int.toNat_natCast, List.pairwise_append, List.pairwise_append,
    List.pairwise_flatMap]
  refine ⟨⟨by split <;> simp, ⟨?_, ?_⟩, ?_⟩, List.pairwise_singleton _ _, ?_⟩
  · intro i hi
    rw [List.pairwise_pair]
    exact apart_data_spare h (List.mem_range.mp hi)
  · refine List.pairwise_lt_range.imp_of_mem ?_
    intro i j _ hj hij p hp q hq
    exact apart_steps h hij (List.mem_range.mp hj) (by simpa using hp) (by simpa using hq)
  · intro p hp q hq
    obtain ⟨i, hi, hq⟩ := hsteps hq
    have hfiller : p = .filler := by
      split at hp
      · exact List.mem_singleton.mp hp
      · exact absurd hp List.not_mem_nil
    rw [hfiller]
    exact apart_filler h hi hq
  · intro p hp q hq
    rw [List.mem_singleton.mp hq]
    rcases List.mem_append.mp hp with hp | hp
    · have hfiller : p = .filler := by
        split at hp
        · exact List.mem_singleton.mp hp
        · exact absurd hp List.not_mem_nil
      rw [hfiller]
      exact apart_filler_marker h
    · obtain ⟨i, hi, hp⟩ := hsteps hp
      exact apart_marker h hroom hi hp

/-- A quotient of at least one in size, of which the low 32 bits are taken. -/
theorem quotient_ne_zero {a b : ℤ} (hb : 0 < b) (hle : b ≤ a ∨ a ≤ -b)
    (hrange : -2^31 ≤ a ∧ a < 2^31) : a.tdiv b%2^32 ≠ 0 := by
  have hquot {a : ℤ} (hle : b ≤ a) : 1 ≤ a.tdiv b ∧ a.tdiv b ≤ a := by
    rw [Int.tdiv_eq_ediv_of_nonneg (by omega)]
    exact ⟨Int.le_ediv_of_mul_le hb (by omega), Int.ediv_le_self _ (by omega)⟩
  rcases hle with hle | hle
  · have h := hquot hle
    omega
  · have h := hquot (a := -a) (by omega)
    rw [Int.neg_tdiv] at h
    omega

/-- A page in the erase block leaves a seed to choose. -/
theorem seedmod_ne_zero {o : Options} (hpage : 0 < o.info.page_size)
    (he : o.info.boot0 = false → o.info.scramble = true →
      o.info.page_size ≤ o.info.eraseblock_size ∨ o.info.eraseblock_size ≤ -o.info.page_size) :
    o.info.seedmod ≠ some 0 := by
  have hrange := toInt32_range o.eraseblock_size
  change -2^31 ≤ o.info.eraseblock_size ∧ o.info.eraseblock_size < 2^31 at hrange
  unfold ImageInfo.seedmod
  cases hb : o.info.boot0 with
  | true => simp
  | false =>
    cases hs : o.info.scramble with
    | false => simp
    | true =>
      have h := quotient_ne_zero hpage (he hb hs) hrange
      intro hzero
      have hzero := Option.some.inj hzero
      omega

end Regular

section Progress

variable {info : ImageInfo} {n : ℕ} {step e : ℤ}

theorem freadSteps_rest (s : Source) (k : ℕ) :
    (info.freadSteps s k).rest = s.rest.drop (k*(info.ecc_step_size%2^64).toNat) := by
  induction k generalizing s with
  | zero => simp [ImageInfo.freadSteps]
  | succ k ih =>
    rw [ImageInfo.freadSteps, ih]
    simp only [Source.fread, List.drop_drop]
    congr 1
    ring

theorem pageSource_progress (h : info.Plan n step e) (hsize : (n : ℤ)*step < 2^63) (s : Source)
    (hs : s.rest ≠ []) : (info.pageSource s).rest.length < s.rest.length := by
  have hpos := h.pos
  have hlen := List.length_pos_iff.mpr hs
  have hone : 1*step ≤ n*step := Int.mul_le_mul_of_nonneg_right (by omega) (by omega)
  have husable : 0 < (info.usable_page_size%2^64).toNat := by
    rw [h.usable]
    omega
  have hread : (s.fread (info.usable_page_size%2^64).toNat).2.rest.length < s.rest.length := by
    simp only [Source.fread, List.length_drop]
    omega
  unfold ImageInfo.pageSource
  dsimp only
  split
  · exact hread
  split
  · exact hread
  · have hstep : (info.ecc_step_size%2^64).toNat = step.toNat := by
      rw [h.stepSize]
      omega
    have hprod : 1*step.toNat ≤ n*step.toNat := Nat.mul_le_mul_right _ hpos.1
    rw [freadSteps_rest, h.steps, Int.toNat_natCast, hstep, List.length_drop]
    dsimp only
    omega

/-- A read that meets the end says so. -/
theorem pageSource_nil (h : info.Plan n step e) (hsize : (n : ℤ)*step < 2^63) (s : Source)
    (hs : s.rest = []) : (info.pageSource s).eof = true := by
  have hpos := h.pos
  have hone : 1*step ≤ n*step := Int.mul_le_mul_of_nonneg_right (by omega) (by omega)
  have husable : 0 < (info.usable_page_size%2^64).toNat := by
    rw [h.usable]
    omega
  unfold ImageInfo.pageSource
  simp only [Source.fread, hs, List.take_nil, if_true, List.length_nil, husable, decide_true,
    Bool.or_true]

/-- The loop ends: each pass takes something from the source, or meets its end. -/
theorem createImage_finished (h : info.Plan n step e) (hsize : (n : ℤ)*step < 2^63) {k : ℕ}
    {s : Source} (hk : s.rest.length < k) : (info.createImage k s).isSome = true := by
  induction k generalizing s with
  | zero => exact absurd hk (Nat.not_lt_zero _)
  | succ k ih =>
    unfold ImageInfo.createImage
    split
    · rfl
    rw [Option.isSome_map]
    by_cases hs : s.rest = []
    · have hnil := pageSource_nil h hsize s hs
      cases k with
      | zero => simp [ImageInfo.createImage, hnil]
      | succ k => simp [ImageInfo.createImage, hnil]
    · have hless := pageSource_progress h hsize s hs
      exact ih (by omega)

end Progress

section Exact

variable {o : Options}

/-- A regular page has positive size: where it is not the usable size, it is at least a step. -/
theorem page_pos (ha : o.info.Accepted) (hr : o.info.Regular) : 0 < o.info.page_size := by
  have hpos := hr.pos
  have hstep := ha.step
  cases hb : o.info.boot0 with
  | false =>
    rw [← usable_of_boot0 hb]
    exact hpos
  | true =>
    have hecc := ha.ecc
    have hsteps : 0 ≤ o.info.steps := Int.tdiv_nonneg (by omega) (by omega)
    have hprod : 0 ≤ o.info.steps*(o.info.ecc_step_size+o.info.eccbytes+4) :=
      Int.mul_nonneg hsteps (by omega)
    have hne := ha.page
    rcases hr.boot0 hb with h | h <;> omega

theorem laid_of_regular (hcheck : o.info.check = .ok ()) (hr : o.info.Regular) :
    o.info.Laid o.info.ApartOrFixed := by
  have ha := accepted hcheck
  obtain ⟨n, step, e, h⟩ := plan ha (page_pos ha hr) hr.pos hr.whole hr.oob hr.sums
  have hpos := h.pos
  have hfits := h.fits
  have htotal := h.total
  have he : 0 ≤ (n : ℤ)*e := Int.mul_nonneg (by omega) (by omega)
  have hsize : (n : ℤ)*step < 2^63 := by omega
  refine ⟨?_, ?_, fun p hp => parts_inside h hp, parts_apart h hr.boot0,
    seedmod_ne_zero h.page hr.eraseblock, pageSource_progress h hsize,
    fun s => ⟨_, createImage_finished h hsize (Nat.lt_succ_self _)⟩⟩
  · rw [h.steps]
    omega
  · rw [h.steps, h.stepSize, h.usable]

/-- The byte of the marker lies in some step, if it is not behind all of them. -/
theorem markerRoom_of_apart {info : ImageInfo} {n : ℕ} {step e : ℤ} (h : info.Plan n step e)
    (hb : info.boot0 = true) (hapart : info.parts.Pairwise info.ApartOrFixed) :
    info.MarkerRoom := by
  have hpos := h.pos
  have hpage := h.page
  have hmarker {p : Part} (i : ℕ) (hi : i < n) (hp : p = .data i ∨ p = .spare i) :
      info.ApartOrFixed p .marker := by
    unfold ImageInfo.parts at hapart
    refine (List.pairwise_append.mp hapart).2.2 p ?_ .marker (List.mem_singleton.mpr rfl)
    rw [h.steps, Int.toNat_natCast]
    refine List.mem_append_right _ (List.mem_flatMap.mpr ⟨i, List.mem_range.mpr hi, ?_⟩)
    simpa using hp
  have hcover (x : ℤ) (h0 : info.page_size ≤ x) (h1 : x < info.page_size+2) :
      info.Covers .marker x := ⟨h0, h1⟩
  unfold ImageInfo.MarkerRoom
  rw [Plan.room h, h.steps, h.stepSize]
  by_contra hroom
  rw [not_or] at hroom
  obtain ⟨q, hq⟩ := Int.eq_ofNat_of_zero_le
    (Int.ediv_nonneg (a := info.page_size) (b := step+e) (by omega) (by omega))
  have hmod := Int.emod_add_mul_ediv info.page_size (step+e)
  have hlt := Int.emod_lt_of_pos info.page_size (b := step+e) (by omega)
  have hge := Int.emod_nonneg info.page_size (b := step+e) (by omega)
  rw [hq, Int.mul_comm] at hmod
  have hqn : q < n := by
    by_contra hle
    have hprod : (n : ℤ)*(step+e) ≤ q*(step+e) :=
      Int.mul_le_mul_of_nonneg_right (by omega) (by omega)
    omega
  by_cases hdata : info.page_size%(step+e) < step
  · have hin : info.Covers (.data q) info.page_size := by
      rw [covers_data h hqn, hb, if_pos rfl]
      omega
    rcases hmarker q hqn (.inl rfl) info.page_size hin (hcover _ (by omega) (by omega)) with hx | hx
    · exact absurd hx.1 (by simp)
    · exact absurd hx.2.1 (by simp)
  · have hin : info.Covers (.spare q) info.page_size := by
      rw [covers_spare h hqn, hb, if_pos rfl]
      omega
    rcases hmarker q hqn (.inr rfl) info.page_size hin (hcover _ (by omega) (by omega)) with hx | hx
    · obtain rfl : q = 0 := Part.spare.inj hx.1
      have hstart := start_spare h hqn
      rw [hb, if_pos rfl] at hstart
      -- the first byte is in the spare bytes of the first step, so the second one is the byte behind
      have hnext : info.Covers (.spare 0) (info.page_size+1) := by
        rw [covers_spare h hqn, hb, if_pos rfl]
        omega
      rcases hmarker 0 hqn (.inr rfl) _ hnext (hcover _ (by omega) (by omega)) with hy | hy
      · omega
      · exact absurd hy.2.1 (by simp)
    · exact absurd hx.2.1 (by simp)

/-- Without an overflow in its sums, no other page is well laid out. -/
theorem laid_iff_regular (hcheck : o.info.check = .ok ())
    (hsums : o.info.page_size+o.info.oob_size < 2^31 ∧
      o.info.usable_page_size+o.info.steps*(o.info.eccbytes+4) < 2^31) :
    o.info.Laid o.info.ApartOrFixed ↔ o.info.Regular := by
  refine ⟨fun hl => ?_, laid_of_regular hcheck⟩
  have ha := accepted hcheck
  have hstep := ha.step
  have hsteps := hl.steps
  have hexact := hl.exact
  have hmarker := hl.inside .marker (by simp [ImageInfo.parts])
  have hpage : 0 < o.info.page_size := by
    have hne := ha.page
    have h0 : 0 ≤ o.info.page_size := hmarker.1
    omega
  have hoob : 2 ≤ o.info.oob_size := by
    have h2 : o.info.page_size+2 ≤ o.info.page_size+o.info.oob_size := hmarker.2
    omega
  have hpos : 0 < o.info.usable_page_size := by
    rw [← hexact]
    exact Int.mul_pos (by omega) (by omega)
  have hwhole : o.info.ecc_step_size ∣ o.info.usable_page_size := ⟨_, by rw [← hexact, Int.mul_comm]⟩
  obtain ⟨n, step, e, h⟩ := plan ha hpage hpos hwhole hoob hsums
  refine ⟨hpos, hwhole, hoob, fun hb => markerRoom_of_apart h hb hl.apart, fun hb hs => ?_, hsums⟩
  by_contra hsmall
  rw [not_or] at hsmall
  apply hl.seedmod
  have hzero : o.info.eraseblock_size.tdiv o.info.page_size = 0 := by
    by_cases hneg : 0 ≤ o.info.eraseblock_size
    · exact Int.tdiv_eq_zero_of_lt hneg (by omega)
    · have h0 := Int.tdiv_eq_zero_of_lt (a := -o.info.eraseblock_size) (b := o.info.page_size)
        (by omega) (by omega)
      rw [Int.neg_tdiv] at h0
      omega
  simp [ImageInfo.seedmod, hb, hs, hzero]

end Exact

/-- Every page that the check accepts and that is regular is well laid out, if the marker of a boot0
page may replace two bytes of its filler. -/
theorem check_image_info_regular (o : Options) (hcheck : o.info.check = .ok ())
    (hr : o.info.Regular) : o.info.Laid o.info.ApartOrFixed := laid_of_regular hcheck hr

/-- The boot0 image of the help text. -/
def helpBoot0 : Options :=
  { page_size := 16384, oob_size := 1280, eraseblock_size := 0x400000, scramble := true
    boot0 := true, usable_page_size := 4096, ecc_strength := 64, ecc_step_size := 1024 }

theorem helpBoot0_laid : helpBoot0.info.Laid helpBoot0.info.ApartOrFixed := by
  refine check_image_info_regular helpBoot0 (by decide +kernel) ⟨?_, ?_, ?_, ?_, ?_, ?_⟩
  all_goals decide +kernel

/-- Its marker is in the filler. -/
theorem helpBoot0_marker_in_filler :
    helpBoot0.info.check = .ok () ∧ ¬helpBoot0.info.Laid helpBoot0.info.Apart := by
  refine ⟨by decide +kernel, fun h => ?_⟩
  have hparts : helpBoot0.info.parts = [.filler, .data 0, .spare 0, .data 1, .spare 1, .data 2,
      .spare 2, .data 3, .spare 3, .marker] := by decide +kernel
  have hapart := h.apart
  rw [hparts] at hapart
  have hmarker := (List.pairwise_cons.mp hapart).1 .marker (by decide)
  have hboth := hmarker 16384 ⟨by decide +kernel, by decide +kernel⟩
    ⟨by decide +kernel, by decide +kernel⟩
  exact absurd hboth.1 (by decide)

end ChipTools.NandImage
