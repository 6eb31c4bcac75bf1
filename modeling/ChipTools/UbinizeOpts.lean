import ChipTools.Ubinize
import Mathlib.Algebra.Order.Floor.Div
import Mathlib.Data.Int.ConditionallyCompleteOrder
import Mathlib.Order.CompletePartialOrder
import Mathlib.Order.ConditionallyCompleteLattice.Basic
import Mathlib.Order.Interval.Set.Disjoint

/-! The options of `ubinize`, and the geometry of the eraseblocks that follows from them. -/
namespace ChipTools.Ubi
open Bytes CNumber

section Options

/-- `is_power_of_2`. -/
def isPowerOf2 (n : ℕ) : Bool := n ≠ 0 && n &&& (n-1) = 0

/-- `simple_strtoul`, nothing where it sets `error`. -/
def simpleStrtoul (snum : List Byte) : Option ℕ :=
  let s := subject snum
  if s.digits = [] ∨ s.endp ≠ [] then none else some (strtoull snum)

/-- The options as `getopt_long` returns them. -/
inductive Opt
  | output (optarg : List Byte)
  | pebSize (optarg : List Byte)
  | minIoSize (optarg : List Byte)
  | subPageSize (optarg : List Byte)
  | vidHdrOffset (optarg : List Byte)
  | eraseCounter (optarg : List Byte)
  | ubiVer (optarg : List Byte)
  | imageSeq (optarg : List Byte)
  | verbose
  | help
  | version
  | unknown

/-- `struct args`. The name of the output file is set with the file open. -/
structure Options where
  f_in : List Byte
  f_out : Option (List Byte)
  peb_size : ℤ
  min_io_size : ℤ
  subpage_size : ℤ
  vid_hdr_offs : ℤ
  ec : ℤ
  ubi_ver : ℤ
  image_seq : BitVec 32
  verbose : Bool
deriving DecidableEq

/-- What the options are before any is parsed. The sequence number is that of `rand`. -/
def Options.init (rand : BitVec 32) : Options := ⟨[], none, -1, -1, -1, 0, 0, 1, rand, false⟩

/-- How the options end the program: by a message, or by `exit(EXIT_SUCCESS)`. -/
inductive Quit
  | errmsg (text : String)
  | exit
deriving DecidableEq

def reject (bad : Bool) (msg : String) : Except Quit Unit :=
  if bad then .error (.errmsg msg) else .ok ()

/-- The argument of a size, which is cut to an `int`. -/
def sizeArg (what : String) (optarg : List Byte) : Except Quit ℤ := do
  let n := toInt32 (ubiutilsGetBytes optarg)
  reject (n ≤ 0) s!"bad {what}: \"{text optarg}\""
  .ok n

def unitArg (what : String) (optarg : List Byte) : Except Quit ℤ := do
  let n ← sizeArg what optarg
  reject (!isPowerOf2 n.toNat) s!"{what} should be power of 2"
  .ok n

/-- The argument of a number, which is stored to an `int`. -/
def numberArg (what : String) (optarg : List Byte) : Except Quit ℤ :=
  match simpleStrtoul optarg with
  | none => .error (.errmsg s!"bad {what}: \"{text optarg}\"")
  | some n => do
    reject (toInt32 n < 0) s!"bad {what}: \"{text optarg}\""
    .ok (toInt32 n)

/-- A pass of the loop of `parse_opt`. -/
def parseOption (opens : List Byte → Bool) (o : Options) : Opt → Except Quit Options
  | .output optarg => do
    reject (!opens optarg) s!"cannot open file \"{text optarg}\""
    .ok { o with f_out := some optarg }
  | .pebSize optarg => do
    let n ← sizeArg "physical eraseblock size" optarg
    .ok { o with peb_size := n }
  | .minIoSize optarg => do
    let n ← unitArg "min. I/O unit size" optarg
    .ok { o with min_io_size := n }
  | .subPageSize optarg => do
    let n ← unitArg "sub-page size" optarg
    .ok { o with subpage_size := n }
  | .vidHdrOffset optarg => do
    let n ← numberArg "VID header offset" optarg
    .ok { o with vid_hdr_offs := n }
  | .eraseCounter optarg => do
    let n ← numberArg "erase counter value" optarg
    .ok { o with ec := n }
  | .ubiVer optarg => do
    let n ← numberArg "UBI version" optarg
    .ok { o with ubi_ver := n }
  | .imageSeq optarg =>
    match simpleStrtoul optarg with
    | none => .error (.errmsg s!"bad UBI image sequence number: \"{text optarg}\"")
    | some n => do
      reject (0xFFFFFFFF < n) s!"bad UBI image sequence number: \"{text optarg}\""
      .ok { o with image_seq := BitVec.ofNat 32 n }
  | .verbose => .ok { o with verbose := true }
  | .help | .version => .error .exit
  | .unknown => .error (.errmsg "Use -h for help")

/-- The loop of `parse_opt`. Where it ends the program, the options before are what is left. -/
def parseOptions (opens : List Byte → Bool) : List Opt → Options → Except (Quit × Options) Options
  | [], o => .ok o
  | opt :: opts, o =>
    match parseOption opens o opt with
    | .ok o' => parseOptions opens opts o'
    | .error q => .error (q, o)

/-- What `parse_opt` checks behind its loop, with the arguments that are not options. -/
def checkOptions (o : Options) : List (List Byte) → Except Quit Options
  | [] => .error (.errmsg "input configuration file was not specified (use -h for help)")
  | [f_in] => do
    reject (o.peb_size < 0) "physical eraseblock size was not specified (use -h for help)"
    reject (UBI_MAX_PEB_SZ < o.peb_size) s!"too high physical eraseblock size {o.peb_size}"
    reject (o.min_io_size < 0) "min. I/O unit size was not specified (use -h for help)"
    let subpage_size := if o.subpage_size < 0 then o.min_io_size else o.subpage_size
    reject (o.min_io_size < subpage_size) "sub-page cannot be larger then min. I/O unit"
    reject (o.peb_size.tmod o.min_io_size ≠ 0)
      "physical eraseblock should be multiple of min. I/O units"
    reject (o.min_io_size.tmod subpage_size ≠ 0)
      "min. I/O unit size should be multiple of sub-page size"
    reject o.f_out.isNone "output file was not specified (use -h for help)"
    -- an `int` with an `int`: the sum wraps
    reject (o.vid_hdr_offs ≠ 0 ∧ o.peb_size ≤ toInt32 (o.vid_hdr_offs+UBI_VID_HDR_SIZE))
      "bad VID header position"
    reject (o.vid_hdr_offs ≠ 0 ∧ o.vid_hdr_offs.tmod 8 ≠ 0)
      "VID header offset has to be multiple of min. I/O unit size"
    .ok { o with f_in := f_in, subpage_size := subpage_size }
  | _ :: _ :: _ => .error (.errmsg "more then one configuration file was specified (use -h for help)")

/-- `parse_opt`. -/
def parseOpt (opens : List Byte → Bool) (rand : BitVec 32) (opts : List Opt) (rest : List (List Byte)) :
    Except (Quit × Options) Options :=
  match parseOptions opens opts (.init rand) with
  | .error e => .error e
  | .ok o =>
    match checkOptions o rest with
    | .ok o' => .ok o'
    | .error q => .error (q, o)

end Options

section Parsing

variable {opens : List Byte → Bool} {o o' : Options}

/-- What the loop over the options keeps: a size is missing or was checked. -/
structure Options.Parsed (o : Options) : Prop where
  peb : o.peb_size = -1 ∨ 0 < o.peb_size
  min_io : o.min_io_size = -1 ∨ ∃ k : ℕ, o.min_io_size = 2^k
  subpage : o.subpage_size = -1 ∨ ∃ k : ℕ, o.subpage_size = 2^k
  vid : 0 ≤ o.vid_hdr_offs ∧ o.vid_hdr_offs < 2^31
  ec : 0 ≤ o.ec ∧ o.ec < 2^31
  ubi_ver : 0 ≤ o.ubi_ver ∧ o.ubi_ver < 2^31

/-- What `parse_opt` makes sure of. -/
structure Options.Accepted (o : Options) : Prop where
  peb_pos : 0 < o.peb_size
  peb_max : o.peb_size ≤ UBI_MAX_PEB_SZ
  min_io : ∃ k : ℕ, o.min_io_size = 2^k
  subpage : ∃ k : ℕ, o.subpage_size = 2^k
  subpage_le : o.subpage_size ≤ o.min_io_size
  peb_io : o.min_io_size ∣ o.peb_size
  f_out : ∃ f, o.f_out = some f
  vid : 0 ≤ o.vid_hdr_offs ∧ o.vid_hdr_offs < 2^31
  vid_end : o.vid_hdr_offs ≠ 0 → toInt32 (o.vid_hdr_offs+UBI_VID_HDR_SIZE) < o.peb_size
  vid_mod : o.vid_hdr_offs%8 = 0
  ec : 0 ≤ o.ec ∧ o.ec < 2^31
  ubi_ver : 0 ≤ o.ubi_ver ∧ o.ubi_ver < 2^31

/-- Behind a check, what it rejects is not the case. -/
theorem reject_bind {α : Type} {bad : Bool} {msg : String} {f : Unit → Except Quit α} {a : α}
    (h : reject bad msg >>= f = .ok a) : bad = false ∧ f () = .ok a := by
  unfold reject at h
  split at h
  · cases h
  next hb => exact ⟨Bool.eq_false_iff.mpr hb, h⟩

theorem isPowerOf2_iff {n : ℕ} : isPowerOf2 n = true ↔ ∃ k, n = 2^k := by
  rw [isPowerOf2, Bool.and_eq_true, decide_eq_true_eq, decide_eq_true_eq]
  exact Nat.ne_zero_and_sub_one_eq_zero_iff_isPowerOfTwo

theorem sizeArg_ok {what : String} {optarg : List Byte} {n : ℤ} (h : sizeArg what optarg = .ok n) :
    0 < n := by
  obtain ⟨hr, h⟩ := reject_bind h
  obtain rfl := Except.ok.inj h
  have := of_decide_eq_false hr
  omega

theorem unitArg_ok {what : String} {optarg : List Byte} {n : ℤ} (h : unitArg what optarg = .ok n) :
    ∃ k : ℕ, n = 2^k := by
  obtain ⟨m, hm, h⟩ := Loop.bind_eq_ok h
  obtain ⟨hr, h⟩ := reject_bind h
  obtain rfl := Except.ok.inj h
  have hpos := sizeArg_ok hm
  rw [Bool.not_eq_false', isPowerOf2_iff] at hr
  obtain ⟨k, hk⟩ := hr
  refine ⟨k, ?_⟩
  have : m = (m.toNat : ℤ) := (Int.toNat_of_nonneg hpos.le).symm
  rw [this, hk, Nat.cast_pow, Nat.cast_ofNat]

theorem numberArg_ok {what : String} {optarg : List Byte} {n : ℤ}
    (h : numberArg what optarg = .ok n) : 0 ≤ n ∧ n < 2^31 := by
  unfold numberArg at h
  split at h
  · cases h
  · obtain ⟨hr, h⟩ := reject_bind h
    obtain rfl := Except.ok.inj h
    have := of_decide_eq_false hr
    exact ⟨by omega, (toInt32_range _).2⟩

/-- A pass of the loop keeps it: each option sets one field, and has it checked. -/
theorem parseOption_parsed {opt : Opt} (h : parseOption opens o opt = .ok o') (hp : o.Parsed) :
    o'.Parsed := by
  cases opt with
  | output optarg =>
    obtain ⟨-, h⟩ := reject_bind h
    obtain rfl := Except.ok.inj h
    exact { hp with }
  | pebSize optarg =>
    obtain ⟨n, hn, h⟩ := Loop.bind_eq_ok h
    obtain rfl := Except.ok.inj h
    exact { hp with peb := Or.inr (sizeArg_ok hn) }
  | minIoSize optarg =>
    obtain ⟨n, hn, h⟩ := Loop.bind_eq_ok h
    obtain rfl := Except.ok.inj h
    exact { hp with min_io := Or.inr (unitArg_ok hn) }
  | subPageSize optarg =>
    obtain ⟨n, hn, h⟩ := Loop.bind_eq_ok h
    obtain rfl := Except.ok.inj h
    exact { hp with subpage := Or.inr (unitArg_ok hn) }
  | vidHdrOffset optarg =>
    obtain ⟨n, hn, h⟩ := Loop.bind_eq_ok h
    obtain rfl := Except.ok.inj h
    exact { hp with vid := numberArg_ok hn }
  | eraseCounter optarg =>
    obtain ⟨n, hn, h⟩ := Loop.bind_eq_ok h
    obtain rfl := Except.ok.inj h
    exact { hp with ec := numberArg_ok hn }
  | ubiVer optarg =>
    obtain ⟨n, hn, h⟩ := Loop.bind_eq_ok h
    obtain rfl := Except.ok.inj h
    exact { hp with ubi_ver := numberArg_ok hn }
  | imageSeq optarg =>
    rw [parseOption] at h
    split at h
    · cases h
    · obtain ⟨-, h⟩ := reject_bind h
      obtain rfl := Except.ok.inj h
      exact { hp with }
  | verbose =>
    obtain rfl := Except.ok.inj h
    exact { hp with }
  | help => cases h
  | version => cases h
  | unknown => cases h

theorem parseOptions_parsed {opts : List Opt} (h : parseOptions opens opts o = .ok o')
    (hp : o.Parsed) : o'.Parsed := by
  induction opts generalizing o with
  | nil =>
    obtain rfl := Except.ok.inj h
    exact hp
  | cons opt opts ih =>
    rw [parseOptions] at h
    split at h
    next o1 ho => exact ih h (parseOption_parsed ho hp)
    next => cases h

theorem checkOptions_accepted {rest : List (List Byte)} (h : checkOptions o rest = .ok o')
    (hp : o.Parsed) : o'.Accepted := by
  unfold checkOptions at h
  split at h
  · cases h
  next f_in =>
    obtain ⟨hpeb, h⟩ := reject_bind h
    obtain ⟨hmax, h⟩ := reject_bind h
    obtain ⟨hio, h⟩ := reject_bind h
    obtain ⟨hle, h⟩ := reject_bind h
    obtain ⟨hmod, h⟩ := reject_bind h
    obtain ⟨-, h⟩ := reject_bind h
    obtain ⟨hout, h⟩ := reject_bind h
    obtain ⟨hend, h⟩ := reject_bind h
    obtain ⟨hvmod, h⟩ := reject_bind h
    obtain rfl := Except.ok.inj h
    have hpeb := of_decide_eq_false hpeb
    have hmax := of_decide_eq_false hmax
    have hio := of_decide_eq_false hio
    have hle := of_decide_eq_false hle
    have hmod := of_decide_eq_false hmod
    have hend := of_decide_eq_false hend
    have hvmod := of_decide_eq_false hvmod
    have hmin : ∃ k : ℕ, o.min_io_size = 2^k := hp.min_io.resolve_left (by omega)
    have hvid := hp.vid
    -- the sub-page is the unit itself where it was not given
    have hsub : ∃ k : ℕ, (if o.subpage_size < 0 then o.min_io_size else o.subpage_size) = 2^k := by
      split
      · exact hmin
      next hs => exact hp.subpage.resolve_left (by omega)
    refine ⟨?_, not_lt.mp hmax, hmin, hsub, not_lt.mp hle, ?_, ?_, hvid, ?_, ?_, hp.ec,
      hp.ubi_ver⟩
    · exact hp.peb.resolve_left (by omega)
    · apply Int.dvd_of_tmod_eq_zero
      exact not_not.mp hmod
    · exact Option.isSome_iff_exists.mp (by simpa using hout)
    · intro hv
      by_contra hc
      exact hend ⟨hv, not_lt.mp hc⟩
    · by_contra hc
      refine hvmod ⟨?_, ?_⟩
      · intro h0
        rw [h0] at hc
        exact hc rfl
      · rwa [Int.tmod_eq_emod_of_nonneg hvid.1]
  · cases h

theorem parseOpt_accepted {rand : BitVec 32} {opts : List Opt} {rest : List (List Byte)}
    (h : parseOpt opens rand opts rest = .ok o) : o.Accepted := by
  unfold parseOpt at h
  split at h
  · cases h
  next o1 ho =>
    split at h
    next o2 ho2 =>
      obtain rfl := Except.ok.inj h
      apply checkOptions_accepted ho2
      apply parseOptions_parsed ho
      exact ⟨Or.inl rfl, Or.inl rfl, Or.inl rfl, ⟨le_refl _, by simp [Options.init]⟩,
        ⟨le_refl _, by simp [Options.init]⟩, ⟨by simp [Options.init], by simp [Options.init]⟩⟩
    next => cases h

end Parsing

section Geometry

/-- What `ubigen_info_init` computes of the layout of an eraseblock. -/
structure Geometry where
  vid_hdr_offs : ℤ
  data_offs : ℤ
  leb_size : ℤ
  max_volumes : ℤ
  vtbl_size : ℤ

/-- `ubigen_info_init` in its own arithmetic: a sum with the size of a header is a `size_t`,
which is cut to an `int` where it is stored. -/
def infoInit (peb_size min_io_size subpage_size vid_hdr_offs : ℤ) : Geometry :=
  let vid_hdr_offs := if vid_hdr_offs = 0
    then (toInt32 (UBI_EC_HDR_SIZE+subpage_size-1)).tdiv subpage_size*subpage_size
    else vid_hdr_offs
  let data_offs := (toInt32 (vid_hdr_offs+UBI_VID_HDR_SIZE+min_io_size-1)).tdiv min_io_size*min_io_size
  let leb_size := toInt32 (peb_size-data_offs)
  let max_volumes := min (toInt32 (leb_size%2^64/UBI_VTBL_RECORD_SIZE)) UBI_MAX_VOLUMES
  ⟨vid_hdr_offs, data_offs, leb_size, max_volumes, toInt32 (max_volumes*UBI_VTBL_RECORD_SIZE)⟩

def Options.geometry (o : Options) : Geometry :=
  infoInit o.peb_size o.min_io_size o.subpage_size o.vid_hdr_offs

/-- The options that the generator of the image works with. -/
def Options.args (o : Options) : Args :=
  ⟨o.peb_size.toNat, o.min_io_size.toNat, o.subpage_size.toNat, o.vid_hdr_offs.toNat, o.ec.toNat,
    o.ubi_ver.toNat, o.image_seq⟩

def UbigenInfo.geometry (ui : UbigenInfo) : Geometry :=
  ⟨ui.vid_hdr_offs, ui.data_offs, ui.leb_size, ui.max_volumes, ui.vtbl_size⟩

/-- A layout that an eraseblock can have: the headers and the data lie apart and inside of it,
there is room for a volume table, and nothing was divided by zero. -/
structure Geometry.Sound (peb_size min_io_size subpage_size : ℤ) (g : Geometry) : Prop where
  ec_vid : Disjoint (Set.Ico 0 (UBI_EC_HDR_SIZE : ℤ))
    (Set.Ico g.vid_hdr_offs (g.vid_hdr_offs+UBI_VID_HDR_SIZE))
  ec_data : Disjoint (Set.Ico 0 (UBI_EC_HDR_SIZE : ℤ)) (Set.Ico g.data_offs peb_size)
  vid_data : Disjoint (Set.Ico g.vid_hdr_offs (g.vid_hdr_offs+UBI_VID_HDR_SIZE))
    (Set.Ico g.data_offs peb_size)
  ec_inside : Set.Ico 0 (UBI_EC_HDR_SIZE : ℤ) ⊆ Set.Ico 0 peb_size
  vid_inside : Set.Ico g.vid_hdr_offs (g.vid_hdr_offs+UBI_VID_HDR_SIZE) ⊆ Set.Ico 0 peb_size
  data_inside : Set.Ico g.data_offs peb_size ⊆ Set.Ico 0 peb_size
  data_mult : min_io_size ∣ g.data_offs
  leb_pos : 0 < g.leb_size
  leb_eq : g.leb_size = peb_size-g.data_offs
  volumes : 1 ≤ g.max_volumes
  vtbl_fits : g.vtbl_size ≤ g.leb_size
  min_io_ne : min_io_size ≠ 0
  subpage_ne : subpage_size ≠ 0

/-- The first multiple of `a` that is not below `n`. -/
def roundUp (n a : ℕ) : ℕ := (n+a-1)/a*a

/-- The VID header is behind the EC header, and one record of the volume table, in whole I/O
units, fits behind it. -/
def Options.Fit (o : Options) : Prop :=
  let vid : ℤ := if o.vid_hdr_offs = 0 then roundUp UBI_EC_HDR_SIZE o.subpage_size.toNat
    else o.vid_hdr_offs
  UBI_EC_HDR_SIZE ≤ vid ∧
    vid+UBI_VID_HDR_SIZE+roundUp UBI_VTBL_RECORD_SIZE o.min_io_size.toNat ≤ o.peb_size

variable {o : Options}

theorem le_roundUp {a : ℕ} (ha : 0 < a) (n : ℕ) : n ≤ roundUp n a := by
  have h : n ≤ a*(n ⌈/⌉ a) := le_smul_ceilDiv ha
  rwa [Nat.ceilDiv_eq_add_pred_div, mul_comm] at h

theorem dvd_roundUp (n a : ℕ) : a ∣ roundUp n a := Nat.dvd_mul_left a _

/-- Every multiple that is not below `n` is at least the first one. -/
theorem roundUp_le {n a q : ℕ} (ha : 0 < a) (hq : a ∣ q) : roundUp n a ≤ q ↔ n ≤ q := by
  obtain ⟨c, rfl⟩ := hq
  have h : n ⌈/⌉ a ≤ c ↔ n ≤ a*c := ceilDiv_le_iff_le_smul ha
  rw [← h, roundUp, ← Nat.ceilDiv_eq_add_pred_div, mul_comm, Nat.mul_le_mul_left_iff ha]

theorem roundUp_lt {a : ℕ} (ha : 0 < a) (n : ℕ) : roundUp n a < n+a := by
  have := Nat.div_mul_le_self (n+a-1) a
  unfold roundUp
  omega

/-- Where no offset leaves an `int`, the layout is that of the generator. -/
theorem infoInit_eq {peb min sub vid : ℕ} (ver : ℕ) (seq : BitVec 32) (hmin : 0 < min)
    (hsub : 0 < sub) (hpeb : peb < 2^30) (hm : min < 2^29) (hs : sub < 2^29) (hv : vid < 2^30) :
    infoInit peb min sub vid = (ubigenInfoInit peb min sub vid ver seq).geometry := by
  have hvid : (if (vid : ℤ) = 0 then (toInt32 (UBI_EC_HDR_SIZE+sub-1)).tdiv sub*sub else (vid : ℤ)) =
      ((if vid = 0 then (UBI_EC_HDR_SIZE+sub-1)/sub*sub else vid : ℕ) : ℤ) := by
    rw [UBI_EC_HDR_SIZE]
    split_ifs
    · rw [toInt32_of_mem (by omega) (by omega), Int.tdiv_eq_ediv_of_nonneg (by omega)]
      push_cast [show 1 ≤ 64+sub by omega]
      rfl
    · omega
    · omega
    · rfl
  have hlt : (if vid = 0 then (UBI_EC_HDR_SIZE+sub-1)/sub*sub else vid) < 2^30 := by
    have h1 : (64+sub-1)/sub*sub < 64+sub := roundUp_lt hsub 64
    rw [UBI_EC_HDR_SIZE]
    split_ifs <;> omega
  unfold infoInit ubigenInfoInit UbigenInfo.geometry
  dsimp only
  rw [hvid]
  generalize (if vid = 0 then (UBI_EC_HDR_SIZE+sub-1)/sub*sub else vid) = v at hlt ⊢
  have hdata : (toInt32 ((v : ℤ)+UBI_VID_HDR_SIZE+min-1)).tdiv min*min =
      ((v+UBI_VID_HDR_SIZE+min-1)/min*min : ℕ) := by
    rw [UBI_VID_HDR_SIZE, toInt32_of_mem (by omega) (by omega),
      Int.tdiv_eq_ediv_of_nonneg (by omega)]
    push_cast [show 1 ≤ v+64+min by omega]
    rfl
  have hd : (v+UBI_VID_HDR_SIZE+min-1)/min*min < v+64+min := roundUp_lt hmin (v+64)
  rw [hdata]
  generalize (v+UBI_VID_HDR_SIZE+min-1)/min*min = d at hd ⊢
  rw [@toInt32_of_mem ((peb : ℤ)-d) (by omega) (by omega)]

/-- A layout is one for an eraseblock where the header and one record have room in it. -/
theorem info_sound_iff {peb min sub vid ver : ℕ} {seq : BitVec 32} (hmin : 0 < min)
    (hsub : 0 < sub) (hdvd : min ∣ peb) (hpeb : peb < 2^31) :
    let ui := ubigenInfoInit peb min sub vid ver seq
    ui.geometry.Sound peb min sub ↔ UBI_EC_HDR_SIZE ≤ ui.vid_hdr_offs ∧
      ui.vid_hdr_offs+UBI_VID_HDR_SIZE+roundUp UBI_VTBL_RECORD_SIZE min ≤ peb := by
  intro ui
  have hdata : ui.data_offs = roundUp (ui.vid_hdr_offs+UBI_VID_HDR_SIZE) min := rfl
  have hleb : ui.leb_size = peb-ui.data_offs := rfl
  have hvid : ui.vid_hdr_offs+UBI_VID_HDR_SIZE ≤ ui.data_offs := by
    rw [hdata]
    exact le_roundUp hmin _
  have hmult : min ∣ ui.data_offs := dvd_roundUp _ _
  have hvols : ui.max_volumes =
    Min.min (toInt32 (ui.leb_size%2^64/UBI_VTBL_RECORD_SIZE)) UBI_MAX_VOLUMES := rfl
  -- what is left behind the headers is a multiple of the I/O unit
  have hroom (h : ui.data_offs ≤ peb) : UBI_VTBL_RECORD_SIZE ≤ peb-ui.data_offs ↔
      ui.vid_hdr_offs+UBI_VID_HDR_SIZE+roundUp UBI_VTBL_RECORD_SIZE min ≤ peb := by
    rw [← roundUp_le hmin (Nat.dvd_sub hdvd hmult)]
    have hr := roundUp_le (n := ui.vid_hdr_offs+UBI_VID_HDR_SIZE) hmin
      (Nat.dvd_sub hdvd (dvd_roundUp UBI_VTBL_RECORD_SIZE min))
    rw [← hdata] at hr
    omega
  constructor
  · intro h
    have hd : ui.data_offs ≤ peb := by
      have := h.leb_pos
      have : ui.geometry.leb_size = peb-ui.data_offs := rfl
      omega
    have hec := h.ec_vid
    rw [Set.Ico_disjoint_Ico] at hec
    refine ⟨?_, (hroom hd).mp ?_⟩
    · have : ui.geometry.vid_hdr_offs = ui.vid_hdr_offs := rfl
      rw [UBI_EC_HDR_SIZE, UBI_VID_HDR_SIZE] at *
      omega
    · have hv : 1 ≤ ui.max_volumes := h.volumes
      rw [hvols, max_volumes_eq (by omega) (by omega), UBI_VTBL_RECORD_SIZE] at hv
      rw [UBI_VTBL_RECORD_SIZE]
      omega
  · rintro ⟨hec, hfit⟩
    have hd : ui.data_offs ≤ peb := by
      rw [hdata, roundUp_le hmin hdvd]
      omega
    have hlen := (hroom hd).mpr hfit
    have h0 : 0 ≤ ui.leb_size := by
      rw [hleb]
      omega
    have hs : ui.Sane := ubigenInfoInit_sane hmin hpeb h0
    have hec' : (UBI_EC_HDR_SIZE : ℤ) ≤ ui.vid_hdr_offs := by exact_mod_cast hec
    have hvid' : (ui.vid_hdr_offs : ℤ)+UBI_VID_HDR_SIZE ≤ ui.data_offs := by exact_mod_cast hvid
    have hd' : (ui.data_offs : ℤ) ≤ peb := by exact_mod_cast hd
    refine ⟨?_, ?_, ?_, ?_, ?_, ?_, Int.natCast_dvd_natCast.mpr hmult, ?_, rfl, ?_, hs.vtbl_le,
      by omega, by omega⟩
    · exact Set.Ico_disjoint_Ico.mpr ((min_le_left _ _).trans (hec'.trans (le_max_right _ _)))
    · exact Set.Ico_disjoint_Ico.mpr ((min_le_left _ _).trans (le_max_of_le_right (by
        change (64 : ℤ) ≤ ui.data_offs
        rw [UBI_EC_HDR_SIZE] at hec'
        omega)))
    · exact Set.Ico_disjoint_Ico.mpr ((min_le_left _ _).trans (hvid'.trans (le_max_right _ _)))
    · exact Set.Ico_subset_Ico_right (by omega)
    · exact Set.Ico_subset_Ico (Int.natCast_nonneg _) (by exact hvid'.trans hd')
    · exact Set.Ico_subset_Ico_left (Int.natCast_nonneg _)
    · change 0 < ui.leb_size
      rw [UBI_VTBL_RECORD_SIZE] at hlen
      omega
    · change 1 ≤ ui.max_volumes
      rw [hvols, max_volumes_eq (by omega) (by omega), UBI_MAX_VOLUMES]
      rw [UBI_VTBL_RECORD_SIZE] at hlen ⊢
      omega

/-- The sizes of accepted options are small naturals. -/
theorem Options.Accepted.sizes (h : o.Accepted) : (o.peb_size.toNat : ℤ) = o.peb_size ∧
    (o.min_io_size.toNat : ℤ) = o.min_io_size ∧ (o.subpage_size.toNat : ℤ) = o.subpage_size ∧
    (o.vid_hdr_offs.toNat : ℤ) = o.vid_hdr_offs ∧ 0 < o.min_io_size ∧ 0 < o.subpage_size ∧
    o.min_io_size ≤ o.peb_size ∧ o.peb_size ≤ 2^21 := by
  obtain ⟨k, hk⟩ := h.min_io
  obtain ⟨j, hj⟩ := h.subpage
  have hk0 : (0 : ℤ) < 2^k := Int.pow_pos (by decide)
  have hj0 : (0 : ℤ) < 2^j := Int.pow_pos (by decide)
  have hle := Int.le_of_dvd h.peb_pos h.peb_io
  have hmax := h.peb_max
  have hpos := h.peb_pos
  have hvid := h.vid
  rw [UBI_MAX_PEB_SZ] at hmax
  refine ⟨?_, ?_, ?_, ?_, ?_, ?_, hle, ?_⟩ <;> omega

/-- Where the VID header of the options does not leave the eraseblock, they are what the
generator asks of its arguments. -/
theorem Options.Accepted.args (h : o.Accepted)
    (hvid : o.vid_hdr_offs+UBI_VID_HDR_SIZE < 2^31) : o.args.Accepted := by
  obtain ⟨hpeb, hmin, hsub, hv, hmin0, hsub0, -, -⟩ := h.sizes
  have hcast {n : ℤ} {k : ℕ} (hn : n = 2^k) : n.toNat = 2^k := by
    rw [hn]
    exact Int.toNat_pow_of_nonneg (by decide) k
  obtain ⟨k, hk⟩ := h.min_io
  obtain ⟨j, hj⟩ := h.subpage
  have hle := h.subpage_le
  have hmax := h.peb_max
  have hpos := h.peb_pos
  have hmod := h.vid_mod
  have hend := h.vid_end
  rw [UBI_VID_HDR_SIZE] at hvid hend
  rw [toInt32_of_mem (by have := h.vid; omega) (by omega)] at hend
  have hec := h.ec
  refine ⟨?_, ?_, ⟨k, hcast hk⟩, ⟨j, hcast hj⟩, ?_, ?_, ?_, ?_⟩
  · change 0 < o.peb_size.toNat
    omega
  · change o.peb_size.toNat ≤ UBI_MAX_PEB_SZ
    omega
  · change o.subpage_size.toNat ≤ o.min_io_size.toNat
    omega
  · apply Nat.mod_eq_zero_of_dvd
    apply Int.natCast_dvd_natCast.mp
    change (o.min_io_size.toNat : ℤ) ∣ (o.peb_size.toNat : ℤ)
    rw [hmin, hpeb]
    exact h.peb_io
  · change o.vid_hdr_offs.toNat ≠ 0 → o.vid_hdr_offs.toNat+UBI_VID_HDR_SIZE < o.peb_size.toNat ∧
      o.vid_hdr_offs.toNat%8 = 0
    rw [UBI_VID_HDR_SIZE]
    omega
  · change o.ec.toNat < 2^31
    omega

theorem Options.Accepted.geometry_eq (h : o.Accepted) (hvid : o.vid_hdr_offs < 2^30) :
    o.geometry = o.args.info.geometry := by
  obtain ⟨hpeb, hmin, hsub, hv, hmin0, hsub0, hle, hmax⟩ := h.sizes
  have hs := h.subpage_le
  have heq := @infoInit_eq o.peb_size.toNat o.min_io_size.toNat o.subpage_size.toNat
    o.vid_hdr_offs.toNat o.ubi_ver.toNat o.image_seq (by omega) (by omega)
    (by omega) (by omega) (by omega) (by omega)
  rw [hpeb, hmin, hsub, hv] at heq
  exact heq

/-- Options that are accepted give a layout that an eraseblock can have if and only if its
headers and one record of a volume table have room in it. -/
theorem parse_opt_geometry_iff {opens : List Byte → Bool} {rand : BitVec 32} {opts : List Opt}
    {rest : List (List Byte)} (h : parseOpt opens rand opts rest = .ok o) :
    o.geometry.Sound o.peb_size o.min_io_size o.subpage_size ↔ o.Fit := by
  have hacc := parseOpt_accepted h
  obtain ⟨hpeb, hmin, hsub, hv, hmin0, hsub0, hle, hmax⟩ := hacc.sizes
  by_cases hbig : o.vid_hdr_offs < 2^30
  · rw [hacc.geometry_eq hbig]
    have hiff := @info_sound_iff o.peb_size.toNat o.min_io_size.toNat o.subpage_size.toNat
      o.vid_hdr_offs.toNat o.ubi_ver.toNat o.image_seq (by omega) (by omega)
      (by
        apply Int.natCast_dvd_natCast.mp
        rw [hmin, hpeb]
        exact hacc.peb_io) (by omega)
    dsimp only at hiff
    rw [hpeb, hmin, hsub] at hiff
    refine hiff.trans ?_
    have hoffs : ((ubigenInfoInit o.peb_size.toNat o.min_io_size.toNat o.subpage_size.toNat
        o.vid_hdr_offs.toNat o.ubi_ver.toNat o.image_seq).vid_hdr_offs : ℤ) =
        if o.vid_hdr_offs = 0 then (roundUp UBI_EC_HDR_SIZE o.subpage_size.toNat : ℤ)
        else o.vid_hdr_offs := by
      change ((if o.vid_hdr_offs.toNat = 0 then roundUp UBI_EC_HDR_SIZE o.subpage_size.toNat
        else o.vid_hdr_offs.toNat : ℕ) : ℤ) = _
      split_ifs <;> omega
    unfold Options.Fit
    dsimp only
    rw [← hoffs]
    omega
  · -- the header itself is outside
    have hne : o.vid_hdr_offs ≠ 0 := by omega
    constructor
    · intro hs
      have hin := hs.vid_inside
      have hvid : o.geometry.vid_hdr_offs = o.vid_hdr_offs := if_neg hne
      rw [hvid, UBI_VID_HDR_SIZE] at hin
      have := (hin ⟨le_refl _, by omega⟩).2
      omega
    · rintro ⟨-, hfit⟩
      rw [if_neg hne, UBI_VID_HDR_SIZE] at hfit
      omega

def nandOptions (vid_hdr_offs : ℤ) : Options :=
  ⟨literal "cfg.ini", some (literal "ubi.img"), 131072, 2048, 2048, vid_hdr_offs, 0, 1, 0#32, false⟩

theorem parseOpt_nand : parseOpt (fun _ => true) 0#32 [.output (literal "ubi.img"),
    .pebSize (literal "128KiB"), .minIoSize (literal "2048")] [literal "cfg.ini"] =
      .ok (nandOptions 0) := by decide +kernel

theorem parseOpt_overlap : parseOpt (fun _ => true) 0#32 [.output (literal "ubi.img"),
    .pebSize (literal "128KiB"), .minIoSize (literal "2048"), .vidHdrOffset (literal "8")]
      [literal "cfg.ini"] = .ok (nandOptions 8) := by decide +kernel

/-- With the default offset there is room for all, and with the offset 8 there is not. -/
theorem parse_opt_geometry_nand :
    ((nandOptions 0).Fit ∧ (nandOptions 0).geometry.Sound 131072 2048 2048) ∧
      ¬(nandOptions 8).Fit ∧ ¬(nandOptions 8).geometry.Sound 131072 2048 2048 := by
  have hfit : (nandOptions 0).Fit := by
    refine ⟨by decide, ?_⟩
    decide
  have hover : ¬(nandOptions 8).Fit := fun h => absurd h.1 (by decide)
  exact ⟨⟨hfit, (parse_opt_geometry_iff parseOpt_nand).mpr hfit⟩, hover,
    fun h => hover ((parse_opt_geometry_iff parseOpt_overlap).mp h)⟩

/-- An offset of 8 is accepted, and puts the VID header into the EC header. -/
theorem parse_opt_geometry_overlap : ∃ o,
    parseOpt (fun _ => true) 0#32 [.output (literal "ubi.img"), .pebSize (literal "128KiB"),
      .minIoSize (literal "2048"), .vidHdrOffset (literal "8")] [literal "cfg.ini"] = .ok o ∧
    ¬ o.geometry.Sound o.peb_size o.min_io_size o.subpage_size := by
  refine ⟨nandOptions 8, parseOpt_overlap, ?_⟩
  intro h
  have hmem : ∀ x : ℤ, x = 8 → x ∈ Set.Ico (0 : ℤ) UBI_EC_HDR_SIZE ∧
      x ∈ Set.Ico (8 : ℤ) (8+UBI_VID_HDR_SIZE) := by
    rintro x rfl
    exact ⟨⟨by decide, by decide⟩, ⟨by decide, by decide⟩⟩
  exact Set.disjoint_left.mp h.ec_vid (hmem 8 rfl).1 (hmem 8 rfl).2

end Geometry

end ChipTools.Ubi
