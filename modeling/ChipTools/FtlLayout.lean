import ChipTools.FtlFormat

/-! `ftl_format`: how many transfer units it spreads over a partition, how it numbers the others, and
what size it puts into the header. -/
namespace ChipTools.Ftl
open Bytes

section Sizes

variable (RegionSize BlockSize Spare Reserve BootSize : BitVec 32)

/-- The steps of `__FormattedSize`: the region without the boot area and the transfer units, the
control blocks of the other units, and what is left then. -/
def usedBytes : BitVec 32 := (Spare+bootUnits BlockSize BootSize) <<< eraseUnitSize BlockSize

def unitBytes : BitVec 32 := RegionSize-usedBytes BlockSize Spare BootSize

def mapBytes : BitVec 32 := BitVec.ofNat 32 (mapBlocks (2^(eraseUnitSize BlockSize-9))) <<< 9

def dataUnits : BitVec 32 := (numEraseUnits RegionSize BlockSize BootSize).setWidth 32-Spare

def capacity : BitVec 32 :=
  unitBytes RegionSize BlockSize Spare BootSize-
    dataUnits RegionSize BlockSize Spare BootSize*mapBytes BlockSize

/-- The reserve, down to 4 KiB. -/
def reserveBytes (size : BitVec 32) : BitVec 32 := (size*Reserve/100)&&&~~~0xfff

theorem formattedSize_eq : formattedSize RegionSize BlockSize Spare Reserve BootSize =
    capacity RegionSize BlockSize Spare BootSize-
      reserveBytes Reserve (capacity RegionSize BlockSize Spare BootSize) := rfl

/-- No operation of `build_header` leaves the numbers of 32 bits. -/
structure NoWrap : Prop where
  round : ¬BootSize.uaddOverflow (BlockSize-1)
  boot : ¬RegionSize.usubOverflow (bootBytes BlockSize BootSize)
  spare : ¬Spare.uaddOverflow (bootUnits BlockSize BootSize)
  used : (Spare+bootUnits BlockSize BootSize).toNat*2^eraseUnitSize BlockSize < 2^32
  left : ¬RegionSize.usubOverflow (usedBytes BlockSize Spare BootSize)
  units : ¬((numEraseUnits RegionSize BlockSize BootSize).setWidth 32).usubOverflow Spare
  maps : ¬(dataUnits RegionSize BlockSize Spare BootSize).umulOverflow (mapBytes BlockSize)
  control : ¬(unitBytes RegionSize BlockSize Spare BootSize).usubOverflow
    (dataUnits RegionSize BlockSize Spare BootSize*mapBytes BlockSize)
  product : ¬(capacity RegionSize BlockSize Spare BootSize).umulOverflow Reserve
  rest : ¬(capacity RegionSize BlockSize Spare BootSize).usubOverflow
    (reserveBytes Reserve (capacity RegionSize BlockSize Spare BootSize))

end Sizes

section Layout

variable (m : Mtd) (spare reserve bootsize : BitVec 32)

/-- The erase units of the boot area. -/
def bootCount : ℕ := (bootsize.toNat+m.erasesize.toNat-1)/m.erasesize.toNat

/-- The erase units behind the boot area. -/
def unitCount : ℕ :=
  (m.size.toNat-bootCount m bootsize*m.erasesize.toNat)/m.erasesize.toNat

/-- What of a unit is left for data behind its control blocks. -/
def dataBytes : ℕ := m.erasesize.toNat-512*mapBlocks (m.erasesize.toNat/512)

/-- A percentage of a size, down to 4 KiB. -/
def reserved (size percent : ℕ) : ℕ := size*percent/100/4096*4096

/-- The numbers that are written to the units, in their order. -/
def eunsOf (units : List FormattedUnit) : List (BitVec 16) := units.map (·.LogicalEUN)

/-- The units that are no transfer units. -/
def dataEuns (units : List FormattedUnit) : List (BitVec 16) :=
  (eunsOf units).filter (· ≠ 0xffff#16)

/-- A partition with a consistent layout. -/
structure LaidOut (hdr : EraseUnitHeader) (units : List FormattedUnit) : Prop where
  first : hdr.FirstPhysicalEUN.toNat = bootCount m bootsize
  number : hdr.NumEraseUnits.toNat = unitCount m bootsize
  all : units.length = hdr.NumEraseUnits.toNat
  transfer : (eunsOf units).count 0xffff#16 = hdr.NumTransferUnits.toNat
  numbered : (dataEuns units).map BitVec.toNat = List.range (dataEuns units).length
  size : hdr.FormattedSize.toNat+reserved ((dataEuns units).length*dataBytes m) reserve.toNat =
    (dataEuns units).length*dataBytes m
  exact : NoWrap m.size m.erasesize spare reserve bootsize

/-- `format_partition` leaves such a partition. -/
def Lays (time : BitVec 32) (cells : ℕ → Byte) : Prop :=
  ∃ hdr r, buildHeader m.size m.erasesize spare reserve bootsize time = some hdr ∧
    formatPartition m spare reserve bootsize time cells = some r ∧
    LaidOut m spare reserve bootsize hdr r.1

/-- The bytes that the reserve is taken of: those for data, and the part behind the last unit. -/
def leftBytes : ℕ :=
  (unitCount m bootsize-spare.toNat)*dataBytes m+m.size.toNat%m.erasesize.toNat

/-- The arguments for which there is such a layout. -/
structure Fits : Prop where
  block : 512 ≤ m.erasesize.toNat
  boot : bootCount m bootsize*m.erasesize.toNat ≤ m.size.toNat
  first : bootCount m bootsize < 2^16
  number : unitCount m bootsize < 2^16
  units : spare.toNat ≤ unitCount m bootsize
  transfer : spare.toNat < 2^8
  even : spare = 0 ∨ unitCount m bootsize/(unitCount m bootsize/spare.toNat) = spare.toNat
  product : leftBytes m spare bootsize*reserve.toNat < 2^32
  rest : reserved (leftBytes m spare bootsize) reserve.toNat ≤ leftBytes m spare bootsize
  tail : reserved (leftBytes m spare bootsize) reserve.toNat =
    reserved ((unitCount m bootsize-spare.toNat)*dataBytes m) reserve.toNat+
      m.size.toNat%m.erasesize.toNat

end Layout

section Numbers

/-- The numbers that the loop over the units writes from the unit `i` on. -/
def euns (step : ℕ) : ℕ → ℕ → ℕ → List (BitVec 16)
  | 0, _, _ => []
  | n+1, i, lun =>
    if (i+1)%step = 0 then 0xffff#16 :: euns step n (i+1) lun
    else BitVec.ofNat 16 lun :: euns step n (i+1) (lun+1)

variable {hdr : EraseUnitHeader} {nbam step n i lun : ℕ} {cells : ℕ → Byte}
  {r : List FormattedUnit × (ℕ → Byte)}

theorem writeUnits_euns (h : writeUnits hdr nbam step n i lun cells = some r) :
    eunsOf r.1 = euns step n i lun := by
  induction n generalizing i lun cells r with
  | zero =>
    obtain rfl := Option.some.inj h
    rfl
  | succ n ih =>
    unfold writeUnits at h
    split at h
    next => cases h
    next =>
      obtain ⟨r', hrun, rfl⟩ := Option.map_eq_some_iff.mp h
      have hrest := ih hrun
      unfold eunsOf at hrest ⊢
      rw [List.map_cons, hrest, euns]
      by_cases htransfer : (i+1)%step = 0
      · rw [if_pos htransfer, if_pos htransfer, if_pos htransfer]
      · rw [if_neg htransfer, if_neg htransfer, if_neg htransfer]

theorem writeUnits_isSome (hstep : step ≠ 0) (n i lun : ℕ) (cells : ℕ → Byte) :
    (writeUnits hdr nbam step n i lun cells).isSome := by
  induction n generalizing i lun cells with
  | zero => rfl
  | succ n ih =>
    unfold writeUnits
    rw [if_neg hstep, Option.isSome_map]
    exact ih _ _ _

theorem euns_length (step n i lun : ℕ) : (euns step n i lun).length = n := by
  induction n generalizing i lun with
  | zero => rfl
  | succ n ih =>
    rw [euns]
    split <;> rw [List.length_cons, ih]

theorem lun_ne (h : lun < 0xffff) : BitVec.ofNat 16 lun ≠ 0xffff#16 := by
  intro heq
  have hnat := congrArg BitVec.toNat heq
  rw [BitVec.toNat_ofNat, Nat.mod_eq_of_lt (by omega)] at hnat
  exact absurd hnat (Nat.ne_of_lt h)

theorem filter_data {x : BitVec 16} (h : x ≠ 0xffff#16) (l : List (BitVec 16)) :
    (x :: l).filter (· ≠ 0xffff#16) = x :: l.filter (· ≠ 0xffff#16) := by
  rw [List.filter_cons, if_pos]
  exact decide_eq_true h

/-- Each `step`-th unit is a transfer unit. -/
theorem euns_count (hlun : lun+n ≤ 0xffff) :
    (euns step n i lun).count 0xffff#16+i/step = (i+n)/step := by
  induction n generalizing i lun with
  | zero => exact Nat.zero_add _
  | succ n ih =>
    have hnext : (i+1)/step = i/step+if step ∣ i+1 then 1 else 0 := Nat.succ_div
    rw [euns, show i+(n+1) = i+1+n by omega]
    by_cases htransfer : (i+1)%step = 0
    · have hrest := @ih (i+1) lun (by omega)
      rw [if_pos (Nat.dvd_of_mod_eq_zero htransfer)] at hnext
      rw [if_pos htransfer, List.count_cons_self]
      omega
    · have hrest := @ih (i+1) (lun+1) (by omega)
      rw [if_neg fun hdvd => htransfer (Nat.mod_eq_zero_of_dvd hdvd)] at hnext
      rw [if_neg htransfer, List.count_cons_of_ne (lun_ne (by omega))]
      omega

/-- The other units are numbered one after the other. -/
theorem euns_numbered (hlun : lun+n ≤ 0xffff) :
    ((euns step n i lun).filter (· ≠ 0xffff#16)).map BitVec.toNat =
      List.range' lun ((euns step n i lun).filter (· ≠ 0xffff#16)).length := by
  induction n generalizing i lun with
  | zero => rfl
  | succ n ih =>
    rw [euns]
    split
    · rw [List.filter_cons_of_neg (by decide)]
      exact ih (by omega)
    · have hsmall : (BitVec.ofNat 16 lun).toNat = lun := by
        rw [BitVec.toNat_ofNat, Nat.mod_eq_of_lt (by omega)]
      rw [filter_data (lun_ne (by omega)), List.map_cons, List.length_cons, List.range'_succ,
        ih (by omega), hsmall]

theorem euns_data_length (step n i lun : ℕ) :
    ((euns step n i lun).filter (· ≠ 0xffff#16)).length+(euns step n i lun).count 0xffff#16 = n := by
  induction n generalizing i lun with
  | zero => rfl
  | succ n ih =>
    rw [euns]
    split
    · rw [List.filter_cons_of_neg (by decide), List.count_cons_self, ← Nat.add_assoc, ih]
    · by_cases heq : BitVec.ofNat 16 lun = 0xffff#16
      · rw [heq, List.filter_cons_of_neg (by decide), List.count_cons_self, ← Nat.add_assoc, ih]
      · rw [filter_data heq, List.length_cons, List.count_cons_of_ne heq, Nat.add_right_comm, ih]

end Numbers

section Values

variable {m : Mtd} {spare percent bootsize : BitVec 32} {k : ℕ}

/-- A mask of the high bits rounds down. -/
theorem mask_toNat {low : BitVec 32} (hlow : low.toNat = 2^k-1) (x : BitVec 32) :
    (x &&& ~~~low).toNat = x.toNat/2^k*2^k := by
  have hdisjoint : (x &&& ~~~low) &&& (x &&& low) = 0#32 := by
    ext i
    simp only [BitVec.getElem_and, BitVec.getElem_not, BitVec.getElem_zero]
    cases x[i] <;> cases low[i] <;> rfl
  have hjoin : (x &&& ~~~low)+(x &&& low) = x := by
    rw [BitVec.add_eq_or_of_and_eq_zero _ _ hdisjoint]
    ext i
    simp only [BitVec.getElem_or, BitVec.getElem_and, BitVec.getElem_not]
    cases x[i] <;> cases low[i] <;> rfl
  have hsum := BitVec.toNat_add_of_and_eq_zero hdisjoint
  rw [hjoin, BitVec.toNat_and x low, hlow, Nat.and_two_pow_sub_one_eq_mod] at hsum
  have hdiv := Nat.div_add_mod' x.toNat (2^k)
  omega

theorem erasesize_sub_one (hsize : m.erasesize.toNat = 2^k) :
    (m.erasesize-1).toNat = 2^k-1 := by
  have hpos := Nat.two_pow_pos k
  rw [BitVec.toNat_sub_of_le]
  · rw [hsize]
    rfl
  · rw [BitVec.le_def, hsize]
    exact hpos

theorem bootCount_eq (hsize : m.erasesize.toNat = 2^k) :
    bootCount m bootsize = (bootsize.toNat+(2^k-1))/2^k := by
  unfold bootCount
  rw [hsize, Nat.add_sub_assoc (Nat.two_pow_pos k)]

theorem bootBytes_toNat (hsize : m.erasesize.toNat = 2^k)
    (hround : bootsize.toNat+(2^k-1) < 2^32) :
    (bootBytes m.erasesize bootsize).toNat = bootCount m bootsize*2^k := by
  have hlow := erasesize_sub_one hsize
  unfold bootBytes
  rw [mask_toNat hlow, BitVec.toNat_add, hlow, Nat.mod_eq_of_lt hround, bootCount_eq hsize]

theorem bootUnits_toNat (hsize : m.erasesize.toNat = 2^k)
    (hround : bootsize.toNat+(2^k-1) < 2^32) :
    (bootUnits m.erasesize bootsize).toNat = bootCount m bootsize := by
  rw [bootUnits, BitVec.toNat_udiv, bootBytes_toNat hsize hround, hsize,
    Nat.mul_div_cancel _ (Nat.two_pow_pos k)]

theorem erasesize_shift (hsize : m.erasesize.toNat = 2^k) : k < 32 ∧ eraseUnitSize m.erasesize = k := by
  have hlt := m.erasesize.isLt
  rw [hsize] at hlt
  have hk : k < 32 := (Nat.pow_lt_pow_iff_right (by decide)).mp hlt
  refine ⟨hk, ?_⟩
  rw [eraseUnitSize, hsize, shiftCount_pow (by omega)]

/-- A boot area inside of the region does not wrap when it is rounded up. -/
theorem round_lt (hsize : m.erasesize.toNat = 2^k) (hboot : bootCount m bootsize*2^k < 2^32) :
    bootsize.toNat+(2^k-1) < 2^32 := by
  obtain ⟨hk, -⟩ := erasesize_shift hsize
  rw [bootCount_eq hsize] at hboot
  by_contra hmore
  have hsplit : 2^32 = 2^(32-k)*2^k := by
    rw [← Nat.pow_add, Nat.sub_add_cancel hk.le]
  have hdiv : 2^(32-k) ≤ (bootsize.toNat+(2^k-1))/2^k := by
    rw [Nat.le_div_iff_mul_le (Nat.two_pow_pos k), ← hsplit]
    exact Nat.not_lt.mp hmore
  have hmul := Nat.mul_le_mul_right (2^k) hdiv
  omega

/-- The number of units that the header has, before its 16 bits are taken. -/
theorem numEraseUnits_toNat (hsize : m.erasesize.toNat = 2^k)
    (hround : bootsize.toNat+(2^k-1) < 2^32) (hboot : bootCount m bootsize*2^k ≤ m.size.toNat) :
    (numEraseUnits m.size m.erasesize bootsize).toNat = unitCount m bootsize%2^16 := by
  have hbytes := bootBytes_toNat hsize hround
  obtain ⟨-, heus⟩ := erasesize_shift hsize
  unfold numEraseUnits unitCount
  rw [heus, BitVec.toNat_setWidth, BitVec.toNat_ushiftRight, BitVec.toNat_sub_of_le
    (by rw [BitVec.le_def, hbytes]; exact hboot), hbytes, hsize, Nat.shiftRight_eq_div_pow]

theorem mapBlocks_le {q : ℕ} (hq : 0 < q) : mapBlocks q ≤ q := by
  unfold mapBlocks
  omega

theorem mapBytes_toNat (hsize : m.erasesize.toNat = 2^k) (hk9 : 9 ≤ k) :
    (mapBytes m.erasesize).toNat = 512*mapBlocks (2^(k-9)) ∧
      512*mapBlocks (2^(k-9)) ≤ 2^k ∧ dataBytes m = 2^k-512*mapBlocks (2^(k-9)) := by
  obtain ⟨hk, heus⟩ := erasesize_shift hsize
  have hpow : 2^k = 512*2^(k-9) := by
    rw [show (512 : ℕ) = 2^9 from rfl, ← Nat.pow_add, Nat.add_sub_cancel' hk9]
  have hle := mapBlocks_le (Nat.two_pow_pos (k-9))
  have hlt : 2^k < 2^32 := Nat.pow_lt_pow_right (by decide) hk
  refine ⟨?_, by omega, ?_⟩
  · unfold mapBytes
    rw [heus, BitVec.toNat_shiftLeft, BitVec.toNat_ofNat, Nat.mod_eq_of_lt (by omega),
      Nat.shiftLeft_eq, Nat.mod_eq_of_lt (by omega)]
    omega
  · unfold dataBytes
    rw [hsize, show 2^k/512 = 2^(k-9) by omega]

theorem reserveBytes_toNat {size : BitVec 32} (h : size.toNat*percent.toNat < 2^32) :
    (reserveBytes percent size).toNat = reserved size.toNat percent.toNat := by
  unfold reserveBytes reserved
  rw [mask_toNat (k := 12) (by decide), BitVec.toNat_udiv, BitVec.toNat_mul, Nat.mod_eq_of_lt h]
  rfl

/-- The region in whole units: the boot area, the units behind it, and a part behind those. -/
theorem region_split (hsize : m.erasesize.toNat = 2^k)
    (hboot : bootCount m bootsize*2^k ≤ m.size.toNat) :
    m.size.toNat = bootCount m bootsize*2^k+unitCount m bootsize*2^k+m.size.toNat%2^k := by
  have hdiv := Nat.div_add_mod' (m.size.toNat-bootCount m bootsize*2^k) (2^k)
  have hmod : (m.size.toNat-bootCount m bootsize*2^k)%2^k = m.size.toNat%2^k := by
    rw [Nat.mul_comm, Nat.sub_mul_mod (by rwa [Nat.mul_comm])]
  rw [hmod] at hdiv
  unfold unitCount
  rw [hsize]
  omega

end Values

section Capacity

variable {m : Mtd} {spare percent bootsize : BitVec 32} {k : ℕ}

/-- The bounds on the units of a region. -/
structure Whole (m : Mtd) (spare bootsize : BitVec 32) (k : ℕ) : Prop where
  size : m.erasesize.toNat = 2^k
  shift : 9 ≤ k
  round : bootsize.toNat+(2^k-1) < 2^32
  boot : bootCount m bootsize*2^k ≤ m.size.toNat
  number : unitCount m bootsize < 2^16
  units : spare.toNat ≤ unitCount m bootsize

/-- The steps of the size that `build_header` computes, where none of them wraps. -/
structure Steps (m : Mtd) (spare bootsize : BitVec 32) (k : ℕ) : Prop where
  sum : spare.toNat+(bootUnits m.erasesize bootsize).toNat < 2^32
  used : (spare+bootUnits m.erasesize bootsize).toNat*2^k ≤ m.size.toNat
  left : (usedBytes m.erasesize spare bootsize).toNat ≤ m.size.toNat
  number : ((numEraseUnits m.size m.erasesize bootsize).setWidth 32).toNat = unitCount m bootsize
  maps : (dataUnits m.size m.erasesize spare bootsize).toNat*(mapBytes m.erasesize).toNat < 2^32
  control : (dataUnits m.size m.erasesize spare bootsize*mapBytes m.erasesize).toNat ≤
    (unitBytes m.size m.erasesize spare bootsize).toNat
  capacity : (capacity m.size m.erasesize spare bootsize).toNat = leftBytes m spare bootsize

theorem Whole.steps (h : Whole m spare bootsize k) : Steps m spare bootsize k := by
  obtain ⟨hk, heus⟩ := erasesize_shift h.size
  obtain ⟨hmap, hmaple, hdata⟩ := mapBytes_toNat h.size h.shift
  have hsplit := region_split h.size h.boot
  have hunits := bootUnits_toNat h.size h.round
  have hpos := Nat.two_pow_pos k
  have hlt := m.size.isLt
  have hnum : ((numEraseUnits m.size m.erasesize bootsize).setWidth 32).toNat =
      unitCount m bootsize := by
    rw [BitVec.toNat_setWidth, numEraseUnits_toNat h.size h.round h.boot, Nat.mod_eq_of_lt h.number,
      Nat.mod_eq_of_lt (lt_trans h.number (by decide))]
  -- the units without the transfer units
  obtain ⟨n, hn⟩ := Nat.exists_eq_add_of_le h.units
  have hmul : unitCount m bootsize*2^k = spare.toNat*2^k+n*2^k := by
    rw [hn, Nat.add_mul]
  have hused : (spare.toNat+bootCount m bootsize)*2^k =
      spare.toNat*2^k+bootCount m bootsize*2^k := Nat.add_mul _ _ _
  have hle : spare.toNat+bootCount m bootsize ≤ (spare.toNat+bootCount m bootsize)*2^k :=
    Nat.le_mul_of_pos_right _ hpos
  have hspare : spare.toNat+(bootUnits m.erasesize bootsize).toNat < 2^32 := by
    rw [hunits]
    omega
  have hsum : (spare+bootUnits m.erasesize bootsize).toNat = spare.toNat+bootCount m bootsize := by
    rw [BitVec.toNat_add, Nat.mod_eq_of_lt hspare, hunits]
  have husedNat : (usedBytes m.erasesize spare bootsize).toNat =
      (spare.toNat+bootCount m bootsize)*2^k := by
    unfold usedBytes
    rw [heus, BitVec.toNat_shiftLeft, hsum, Nat.shiftLeft_eq, Nat.mod_eq_of_lt (by omega)]
  have hunitNat : (unitBytes m.size m.erasesize spare bootsize).toNat =
      n*2^k+m.size.toNat%2^k := by
    unfold unitBytes
    rw [BitVec.toNat_sub_of_le (by rw [BitVec.le_def, husedNat]; omega), husedNat]
    omega
  have hdataUnits : (dataUnits m.size m.erasesize spare bootsize).toNat = n := by
    unfold dataUnits
    rw [BitVec.toNat_sub_of_le (by rw [BitVec.le_def, hnum]; exact h.units), hnum]
    omega
  have hmaps : n*(512*mapBlocks (2^(k-9))) ≤ n*2^k := Nat.mul_le_mul_left n hmaple
  have hcontrol : (dataUnits m.size m.erasesize spare bootsize*mapBytes m.erasesize).toNat =
      n*(512*mapBlocks (2^(k-9))) := by
    rw [BitVec.toNat_mul, hdataUnits, hmap, Nat.mod_eq_of_lt (by omega)]
  refine ⟨hspare, ?_, ?_, hnum, ?_, ?_, ?_⟩
  · rw [hsum]
    omega
  · rw [husedNat]
    omega
  · rw [hdataUnits, hmap]
    omega
  · rw [hcontrol, hunitNat]
    omega
  · have hn' : unitCount m bootsize-spare.toNat = n := by omega
    unfold capacity leftBytes
    rw [BitVec.toNat_sub_of_le (by rw [BitVec.le_def, hcontrol, hunitNat]; omega), hcontrol,
      hunitNat, hdata, hn', h.size, Nat.mul_sub]
    omega

/-- In a whole region, the size of the header is the one without the reserve, less the reserve. -/
theorem Whole.formattedSize (h : Whole m spare bootsize k)
    (hproduct : leftBytes m spare bootsize*percent.toNat < 2^32)
    (hrest : reserved (leftBytes m spare bootsize) percent.toNat ≤ leftBytes m spare bootsize) :
    (formattedSize m.size m.erasesize spare percent bootsize).toNat =
      leftBytes m spare bootsize-reserved (leftBytes m spare bootsize) percent.toNat := by
  have hcap := h.steps.capacity
  have hreserve := @reserveBytes_toNat percent (capacity m.size m.erasesize spare bootsize)
    (by rwa [hcap])
  rw [hcap] at hreserve
  rw [formattedSize_eq, BitVec.toNat_sub_of_le (by rw [BitVec.le_def, hreserve, hcap]; exact hrest),
    hreserve, hcap]

/-- What the sum of `NoWrap` says of a whole region. -/
theorem Whole.noWrap_iff (h : Whole m spare bootsize k) :
    NoWrap m.size m.erasesize spare percent bootsize ↔
      leftBytes m spare bootsize*percent.toNat < 2^32 ∧
        reserved (leftBytes m spare bootsize) percent.toNat ≤ leftBytes m spare bootsize := by
  obtain ⟨hspare, hused, hleft, hnum, hmaps, hcontrol, hcap⟩ := h.steps
  obtain ⟨-, heus⟩ := erasesize_shift h.size
  have hbytes := bootBytes_toNat h.size h.round
  have hlow := erasesize_sub_one h.size
  have hlt := m.size.isLt
  constructor
  · intro hn
    have hproduct := hn.product
    have hrest := hn.rest
    rw [BitVec.umulOverflow, decide_eq_true_iff, Nat.not_le, hcap] at hproduct
    rw [BitVec.usubOverflow, decide_eq_true_iff, Nat.not_lt,
      reserveBytes_toNat (by rwa [hcap]), hcap] at hrest
    exact ⟨hproduct, hrest⟩
  · rintro ⟨hproduct, hrest⟩
    refine ⟨?_, ?_, ?_, ?_, ?_, ?_, ?_, ?_, ?_, ?_⟩
    · rw [BitVec.uaddOverflow, decide_eq_true_iff, Nat.not_le, hlow]
      exact h.round
    · rw [BitVec.usubOverflow, decide_eq_true_iff, Nat.not_lt, hbytes]
      exact h.boot
    · rw [BitVec.uaddOverflow, decide_eq_true_iff, Nat.not_le]
      exact hspare
    · rw [heus]
      omega
    · rw [BitVec.usubOverflow, decide_eq_true_iff, Nat.not_lt]
      exact hleft
    · rw [BitVec.usubOverflow, decide_eq_true_iff, Nat.not_lt, hnum]
      exact h.units
    · rw [BitVec.umulOverflow, decide_eq_true_iff, Nat.not_le]
      exact hmaps
    · rw [BitVec.usubOverflow, decide_eq_true_iff, Nat.not_lt]
      exact hcontrol
    · rw [BitVec.umulOverflow, decide_eq_true_iff, Nat.not_le, hcap]
      exact hproduct
    · rw [BitVec.usubOverflow, decide_eq_true_iff, Nat.not_lt, reserveBytes_toNat (by rwa [hcap]),
        hcap]
      exact hrest

end Capacity

section Main

variable {m : Mtd} {spare percent bootsize time : BitVec 32} {k : ℕ} {cells : ℕ → Byte}

theorem eraseUnits_isSome {n : ℕ} {start : BitVec 32}
    (h : start.toNat+n*m.erasesize.toNat ≤ m.size.toNat) : (eraseUnits m n start cells).isSome := by
  induction n generalizing start cells with
  | zero => rfl
  | succ n ih =>
    have hmul : (n+1)*m.erasesize.toNat = n*m.erasesize.toNat+m.erasesize.toNat := Nat.succ_mul _ _
    have hlt := m.size.isLt
    unfold eraseUnits
    rw [if_pos (by omega)]
    apply ih
    rw [BitVec.toNat_add, Nat.mod_eq_of_lt (by omega)]
    omega

/-- The step of the loop over the units. -/
def stepOf (n spare : ℕ) : ℕ := if spare ≠ 0 then n/spare else n+1

/-- The transfer units that the loop writes. -/
theorem transfer_count {n : ℕ} (hn : n < 2^16) (step : ℕ) :
    (euns step n 0 0).count 0xffff#16 = n/step := by
  have hcount := @euns_count step n 0 0 (by omega)
  rwa [Nat.zero_div, Nat.add_zero, Nat.zero_add] at hcount

/-- As many transfer units are written as the header says just when the spare count is a number of
8 bits and spreads evenly. -/
theorem transfers_iff {n : ℕ} (hspare : spare.toNat ≤ n) :
    n/stepOf n spare.toNat = (spare.setWidth 8).toNat ↔
      spare.toNat < 2^8 ∧ (spare = 0 ∨ n/(n/spare.toNat) = spare.toNat) := by
  rw [BitVec.toNat_setWidth]
  by_cases hzero : spare = 0
  · subst hzero
    have hstep : n/stepOf n (0 : BitVec 32).toNat = 0 := Nat.div_eq_of_lt (Nat.lt_succ_self n)
    rw [hstep]
    exact iff_of_true rfl ⟨by decide, Or.inl rfl⟩
  · have hpos : spare.toNat ≠ 0 := fun h => hzero (BitVec.eq_of_toNat_eq h)
    have hstep : stepOf n spare.toNat = n/spare.toNat := if_pos hpos
    have hquot : 0 < n/spare.toNat := Nat.div_pos hspare (Nat.pos_of_ne_zero hpos)
    have hle : spare.toNat ≤ n/(n/spare.toNat) := by
      rw [Nat.le_div_iff_mul_le hquot, Nat.mul_comm]
      exact Nat.div_mul_le_self n spare.toNat
    rw [hstep]
    constructor
    · intro heq
      have hmod : spare.toNat%2^8 ≤ spare.toNat := Nat.mod_le _ _
      have hlt : spare.toNat%2^8 < 2^8 := Nat.mod_lt _ (by decide)
      exact ⟨by omega, Or.inr (by omega)⟩
    · rintro ⟨hlt, heq | heq⟩
      · exact absurd heq hzero
      · rw [heq, Nat.mod_eq_of_lt hlt]

theorem Fits.whole (h : Fits m spare percent bootsize) (hsize : m.erasesize.toNat = 2^k) :
    Whole m spare bootsize k := by
  have hboot := h.boot
  have hblock := h.block
  rw [hsize] at hboot hblock
  have hlt := m.size.isLt
  refine ⟨hsize, ?_, round_lt hsize (by omega), hboot, h.number, h.units⟩
  exact (Nat.pow_le_pow_iff_right (a := 2) (by decide)).mp hblock

/-- The units of a partition that is formatted. -/
theorem formatPartition_euns {r : List FormattedUnit × (ℕ → Byte)} {hdr : EraseUnitHeader}
    (hbuild : buildHeader m.size m.erasesize spare percent bootsize time = some hdr)
    (h : formatPartition m spare percent bootsize time cells = some r) :
    eunsOf r.1 = euns (stepOf hdr.NumEraseUnits.toNat spare.toNat) hdr.NumEraseUnits.toNat 0 0 := by
  unfold formatPartition at h
  obtain ⟨hdr', hbuild', h⟩ := Option.bind_eq_some_iff.mp h
  obtain rfl := Option.some.inj (hbuild.symm.trans hbuild')
  obtain ⟨erased, -, h⟩ := Option.bind_eq_some_iff.mp h
  have heuns := writeUnits_euns h
  have hstep : (if spare ≠ 0 then hdr.NumEraseUnits.toNat/spare.toNat
      else hdr.NumEraseUnits.toNat+1) = stepOf hdr.NumEraseUnits.toNat spare.toNat := by
    unfold stepOf
    by_cases hzero : spare = 0
    · have hnat : ¬spare.toNat ≠ 0 := not_not.mpr (congrArg BitVec.toNat hzero)
      rw [if_neg (not_not.mpr hzero), if_neg hnat]
    · have hnat : spare.toNat ≠ 0 := fun h => hzero (BitVec.eq_of_toNat_eq h)
      rw [if_pos hzero, if_pos hnat]
  rwa [hstep] at heuns

/-- A region of whole units with room for the transfer units is formatted. -/
theorem formatPartition_isSome {hdr : EraseUnitHeader} (hw : Whole m spare bootsize k)
    (hfirst : bootCount m bootsize < 2^16)
    (hbuild : buildHeader m.size m.erasesize spare percent bootsize time = some hdr)
    (hnum : hdr.NumEraseUnits.toNat = unitCount m bootsize)
    (heun : hdr.FirstPhysicalEUN = (bootUnits m.erasesize bootsize).setWidth 16) :
    (formatPartition m spare percent bootsize time cells).isSome := by
  have hsplit := region_split hw.size hw.boot
  have hstart : (m.erasesize*hdr.FirstPhysicalEUN.setWidth 32).toNat =
      bootCount m bootsize*2^k := by
    rw [heun, first_unit hw.size, BitVec.toNat_setWidth, bootUnits_toNat hw.size hw.round,
      Nat.mod_eq_of_lt hfirst]
  obtain ⟨erased, herased⟩ := Option.isSome_iff_exists.mp (@eraseUnits_isSome m cells
    hdr.NumEraseUnits.toNat (m.erasesize*hdr.FirstPhysicalEUN.setWidth 32) (by
      rw [hstart, hnum, hw.size]
      omega))
  have hstep : (if spare ≠ 0 then hdr.NumEraseUnits.toNat/spare.toNat
      else hdr.NumEraseUnits.toNat+1) ≠ 0 := by
    by_cases hzero : spare = 0
    · rw [if_neg (not_not.mpr hzero)]
      exact Nat.succ_ne_zero _
    · have hpos : 0 < spare.toNat := Nat.pos_of_ne_zero fun h => hzero (BitVec.eq_of_toNat_eq h)
      rw [if_pos hzero, hnum]
      exact Nat.ne_of_gt (Nat.div_pos hw.units hpos)
  unfold formatPartition
  rw [hbuild]
  change (Option.bind (eraseUnits m hdr.NumEraseUnits.toNat _ cells) _).isSome = true
  rw [herased]
  exact writeUnits_isSome hstep _ _ _ _

/-- The header of a partition with erase units of at least 512 bytes. -/
theorem buildHeader_some (hsize : m.erasesize.toNat = 2^k) (hk9 : 9 ≤ k) :
    ∃ hdr, buildHeader m.size m.erasesize spare percent bootsize time = some hdr ∧
      hdr.NumTransferUnits = spare.setWidth 8 ∧
      hdr.FirstPhysicalEUN = (bootUnits m.erasesize bootsize).setWidth 16 ∧
      hdr.NumEraseUnits = numEraseUnits m.size m.erasesize bootsize ∧
      hdr.FormattedSize = formattedSize m.size m.erasesize spare percent bootsize := by
  obtain ⟨-, heus⟩ := erasesize_shift hsize
  unfold buildHeader
  rw [heus, if_neg (Nat.not_lt.mpr hk9)]
  exact ⟨_, rfl, rfl, rfl, rfl, rfl⟩

theorem dataEuns_length {units : List FormattedUnit} {step n : ℕ}
    (h : eunsOf units = euns step n 0 0) (hn : n < 2^16) :
    (dataEuns units).length = n-n/step := by
  have hlen := euns_data_length step n 0 0
  rw [transfer_count hn step] at hlen
  unfold dataEuns
  rw [h]
  omega

/-- A layout needs a region and arguments that fit. -/
theorem Lays.fits (hsize : m.erasesize.toNat = 2^k) (h : Lays m spare percent bootsize time cells) :
    Fits m spare percent bootsize := by
  obtain ⟨hdr, r, hbuild, hformat, hlaid⟩ := h
  obtain ⟨-, heus⟩ := erasesize_shift hsize
  have hk9 : 9 ≤ k := by
    unfold buildHeader at hbuild
    rw [heus] at hbuild
    split at hbuild
    · cases hbuild
    · omega
  obtain ⟨hdr', hbuild', htrans, hfirst, hnum, hfs⟩ := @buildHeader_some m spare percent bootsize
    time k hsize hk9
  obtain rfl := Option.some.inj (hbuild.symm.trans hbuild')
  have hround : bootsize.toNat+(2^k-1) < 2^32 := by
    have h := hlaid.exact.round
    rwa [BitVec.uaddOverflow, decide_eq_true_iff, Nat.not_le, erasesize_sub_one hsize] at h
  have hboot : bootCount m bootsize*2^k ≤ m.size.toNat := by
    have h := hlaid.exact.boot
    rwa [BitVec.usubOverflow, decide_eq_true_iff, Nat.not_lt, bootBytes_toNat hsize hround] at h
  have hcount : unitCount m bootsize < 2^16 := by
    rw [← hlaid.number]
    exact hdr.NumEraseUnits.isLt
  have hspare : spare.toNat ≤ unitCount m bootsize := by
    have h := hlaid.exact.units
    rwa [BitVec.usubOverflow, decide_eq_true_iff, Nat.not_lt, ← hnum, BitVec.toNat_setWidth,
      hlaid.number, Nat.mod_eq_of_lt (lt_trans hcount (by decide))] at h
  have hw : Whole m spare bootsize k := ⟨hsize, hk9, hround, hboot, hcount, hspare⟩
  obtain ⟨hproduct, hrest⟩ := hw.noWrap_iff.mp hlaid.exact
  have heuns := formatPartition_euns hbuild hformat
  rw [hlaid.number] at heuns
  have htransfer := hlaid.transfer
  rw [heuns, transfer_count hcount, htrans] at htransfer
  obtain ⟨hbyte, heven⟩ := (transfers_iff hspare).mp htransfer
  refine ⟨?_, by rwa [hsize], ?_, hcount, hspare, hbyte, heven, hproduct, hrest, ?_⟩
  · rw [hsize]
    exact Nat.pow_le_pow_right (n := 2) (by decide) hk9
  · rw [← hlaid.first]
    exact hdr.FirstPhysicalEUN.isLt
  · -- the data of the units against what the header has
    have hdata := dataEuns_length heuns hcount
    have hquot : unitCount m bootsize/stepOf (unitCount m bootsize) spare.toNat = spare.toNat := by
      rw [htransfer, BitVec.toNat_setWidth, Nat.mod_eq_of_lt hbyte]
    have hfits := hlaid.size
    rw [hfs, hw.formattedSize hproduct hrest, hdata, hquot] at hfits
    have hleft : leftBytes m spare bootsize =
      (unitCount m bootsize-spare.toNat)*dataBytes m+m.size.toNat%m.erasesize.toNat := rfl
    omega

/-- Where they fit, the layout is consistent. -/
theorem Fits.lays (h : Fits m spare percent bootsize) (hsize : m.erasesize.toNat = 2^k)
    (time : BitVec 32) (cells : ℕ → Byte) : Lays m spare percent bootsize time cells := by
  have hw := h.whole hsize
  obtain ⟨hdr, hbuild, htrans, hfirst, hnum, hfs⟩ := @buildHeader_some m spare percent bootsize
    time k hsize hw.shift
  have hnumNat : hdr.NumEraseUnits.toNat = unitCount m bootsize := by
    rw [hnum, numEraseUnits_toNat hsize hw.round hw.boot, Nat.mod_eq_of_lt h.number]
  obtain ⟨r, hformat⟩ := Option.isSome_iff_exists.mp
    (@formatPartition_isSome m spare percent bootsize time k cells hdr hw h.first hbuild hnumNat hfirst)
  have heuns := formatPartition_euns hbuild hformat
  rw [hnumNat] at heuns
  have htransfer := (transfers_iff h.units).mpr ⟨h.transfer, h.even⟩
  have hquot : unitCount m bootsize/stepOf (unitCount m bootsize) spare.toNat = spare.toNat := by
    rw [htransfer, BitVec.toNat_setWidth, Nat.mod_eq_of_lt h.transfer]
  have hnumber := h.number
  refine ⟨hdr, r, hbuild, hformat, ?_, hnumNat, ?_, ?_, ?_, ?_, hw.noWrap_iff.mpr ⟨h.product, h.rest⟩⟩
  · rw [hfirst, BitVec.toNat_setWidth, bootUnits_toNat hsize hw.round, Nat.mod_eq_of_lt h.first]
  · have hlen := congrArg List.length heuns
    unfold eunsOf at hlen
    rw [List.length_map, euns_length] at hlen
    rw [hlen, hnumNat]
  · rw [heuns, transfer_count h.number, htransfer, htrans]
  · unfold dataEuns
    rw [heuns, euns_numbered (by omega), List.range_eq_range']
  · have hdata := dataEuns_length heuns h.number
    have htail := h.tail
    have hrest := h.rest
    rw [hfs, hw.formattedSize h.product h.rest, hdata, hquot]
    have hleft : leftBytes m spare bootsize =
      (unitCount m bootsize-spare.toNat)*dataBytes m+m.size.toNat%m.erasesize.toNat := rfl
    omega

/-- `ftl_format` writes as many transfer units as its header says, numbers the other units one after
the other and computes their size without a wrap, just when the region and the arguments fit. -/
theorem ftl_format_lays_iff (m : Mtd) (spare percent bootsize time : BitVec 32) (cells : ℕ → Byte)
    (k : ℕ) (hsize : m.erasesize.toNat = 2^k) :
    Lays m spare percent bootsize time cells ↔ Fits m spare percent bootsize :=
  ⟨fun h => h.fits hsize, fun h => h.lays hsize time cells⟩

/-- Four units with one transfer unit. -/
theorem ftl_format_four_units :
    Lays ⟨16384#32, 4096#32⟩ 1#32 5#32 0#32 7#32 (fun _ => 0#8) := by
  rw [ftl_format_lays_iff ⟨16384#32, 4096#32⟩ 1#32 5#32 0#32 7#32 (fun _ => 0#8) 12 rfl]
  exact ⟨by decide, by decide, by decide, by decide, by decide, by decide, by decide, by decide,
    by decide, by decide⟩

/-- Of five units with three transfer units, all are made transfer units. -/
theorem ftl_format_five_units :
    ¬Lays ⟨20480#32, 4096#32⟩ 3#32 5#32 0#32 7#32 (fun _ => 0#8) := by
  intro h
  have heven := (h.fits (k := 12) rfl).even
  exact absurd heven (by decide)

end Main

end ChipTools.Ftl
