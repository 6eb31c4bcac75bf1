import ChipTools.Bytes

/-! `ftl_format` and `ftl_check`: the headers and block maps that the one writes into the erase units
of a partition, and what the other one reports of them. -/
namespace ChipTools.Ftl
open Bytes

section Header

/-- `erase_unit_header_t`. -/
structure EraseUnitHeader where
  LinkTargetTuple : List Byte
  DataOrgTuple : List Byte
  NumTransferUnits : BitVec 8
  EraseCount : BitVec 32
  LogicalEUN : BitVec 16
  BlockSize : BitVec 8
  EraseUnitSize : BitVec 8
  FirstPhysicalEUN : BitVec 16
  NumEraseUnits : BitVec 16
  FormattedSize : BitVec 32
  FirstVMAddress : BitVec 32
  NumVMPages : BitVec 16
  Flags : BitVec 8
  Code : BitVec 8
  SerialNumber : BitVec 32
  AltEUHOffset : BitVec 32
  BAMOffset : BitVec 32
  Reserved : List Byte
  EndTuple : List Byte

def HEADER_SZ : ℕ := 68

/-- The header in memory, with two bytes of padding. -/
def EraseUnitHeader.bytes (h : EraseUnitHeader) : List Byte :=
  h.LinkTargetTuple ++ (h.DataOrgTuple ++ (le 1 h.NumTransferUnits.toNat ++
    (le 4 h.EraseCount.toNat ++ (le 2 h.LogicalEUN.toNat ++ (le 1 h.BlockSize.toNat ++
    (le 1 h.EraseUnitSize.toNat ++ (le 2 h.FirstPhysicalEUN.toNat ++
    (le 2 h.NumEraseUnits.toNat ++ (le 4 h.FormattedSize.toNat ++
    (le 4 h.FirstVMAddress.toNat ++ (le 2 h.NumVMPages.toNat ++ (le 1 h.Flags.toNat ++
    (le 1 h.Code.toNat ++ (le 4 h.SerialNumber.toNat ++ (le 4 h.AltEUHOffset.toNat ++
    (le 4 h.BAMOffset.toNat ++ (h.Reserved ++ (h.EndTuple ++ [0xff#8, 0xff#8]))))))))))))))))))

def EraseUnitHeader.ofBytes (bs : List Byte) : EraseUnitHeader where
  LinkTargetTuple := (bs.drop 0).take 5
  DataOrgTuple := (bs.drop 5).take 10
  NumTransferUnits := BitVec.ofNat 8 (field bs 15 1)
  EraseCount := BitVec.ofNat 32 (field bs 16 4)
  LogicalEUN := BitVec.ofNat 16 (field bs 20 2)
  BlockSize := BitVec.ofNat 8 (field bs 22 1)
  EraseUnitSize := BitVec.ofNat 8 (field bs 23 1)
  FirstPhysicalEUN := BitVec.ofNat 16 (field bs 24 2)
  NumEraseUnits := BitVec.ofNat 16 (field bs 26 2)
  FormattedSize := BitVec.ofNat 32 (field bs 28 4)
  FirstVMAddress := BitVec.ofNat 32 (field bs 32 4)
  NumVMPages := BitVec.ofNat 16 (field bs 36 2)
  Flags := BitVec.ofNat 8 (field bs 38 1)
  Code := BitVec.ofNat 8 (field bs 39 1)
  SerialNumber := BitVec.ofNat 32 (field bs 40 4)
  AltEUHOffset := BitVec.ofNat 32 (field bs 44 4)
  BAMOffset := BitVec.ofNat 32 (field bs 48 4)
  Reserved := (bs.drop 52).take 12
  EndTuple := (bs.drop 64).take 2

def LinkTarget : List Byte := [0x13#8, 0x03#8, 0x43#8, 0x49#8, 0x53#8]

def DataOrg : List Byte :=
  [0x46#8, 0x39#8, 0x00#8, 0x46#8, 0x54#8, 0x4c#8, 0x31#8, 0x30#8, 0x30#8, 0x00#8]

end Header

section Format

/-- The size and the erase size of the partition. -/
structure Mtd where
  size : BitVec 32
  erasesize : BitVec 32

/-- The loop that counts the bits of the erase size. -/
def shiftCount : ℕ → ℕ → ℕ
  | 0, _ => 0
  | n+1, i => if 1 < i then shiftCount n (i/2)+1 else 0

def BLOCK_CONTROL : ℕ := 0x30
def BLOCK_DATA : ℕ := 0x40

section Build

variable (RegionSize BlockSize Spare Reserve BootSize : BitVec 32)

/-- The boot area, up to the next erase unit. -/
def bootBytes : BitVec 32 := (BootSize+(BlockSize-1))&&&~~~(BlockSize-1)

def bootUnits : BitVec 32 := bootBytes BlockSize BootSize/BlockSize

def eraseUnitSize : ℕ := shiftCount 32 BlockSize.toNat

def numEraseUnits : BitVec 16 :=
  ((RegionSize-bootBytes BlockSize BootSize) >>> eraseUnitSize BlockSize).setWidth 16

/-- The blocks of a unit that its header and block map take. -/
def mapBlocks (blocks : ℕ) : ℕ := (blocks*4+0x80+512-1)/512

def formattedSize : BitVec 32 :=
  let size := RegionSize-((Spare+bootUnits BlockSize BootSize) <<< eraseUnitSize BlockSize)
  let nbam := BitVec.ofNat 32 (mapBlocks (2^(eraseUnitSize BlockSize-9)))
  let size := size-((numEraseUnits RegionSize BlockSize BootSize).setWidth 32-Spare)*(nbam <<< 9)
  size-((size*Reserve/100)&&&~~~0xfff)

/-- `build_header` at a given time; none where it shifts by a negative number. -/
def buildHeader (time : BitVec 32) : Option EraseUnitHeader :=
  if eraseUnitSize BlockSize < 9 then none
  else some
    { LinkTargetTuple := LinkTarget
      DataOrgTuple := DataOrg
      NumTransferUnits := Spare.setWidth 8
      EraseCount := 0
      LogicalEUN := 0xffff
      BlockSize := 9
      EraseUnitSize := BitVec.ofNat 8 (eraseUnitSize BlockSize)
      FirstPhysicalEUN := (bootUnits BlockSize BootSize).setWidth 16
      NumEraseUnits := numEraseUnits RegionSize BlockSize BootSize
      FormattedSize := formattedSize RegionSize BlockSize Spare Reserve BootSize
      FirstVMAddress := 0xffffffff
      NumVMPages := 0
      Flags := 0
      Code := 0xff
      SerialNumber := time
      AltEUHOffset := 0xffffffff
      BAMOffset := 0x80
      Reserved := List.replicate 12 0xff#8
      EndTuple := [0xff#8, 0xff#8] }

end Build

/-- An erase unit that was formatted: where it is, its logical number, and how many control blocks
its map lists. -/
structure FormattedUnit where
  ofs : ℕ
  LogicalEUN : BitVec 16
  nbam : ℕ

/-- The erase loop. The device takes only what is inside of it. -/
def eraseUnits (m : Mtd) : ℕ → BitVec 32 → (ℕ → Byte) → Option (ℕ → Byte)
  | 0, _, cells => some cells
  | n+1, start, cells =>
    if start.toNat+m.erasesize.toNat ≤ m.size.toNat then
      eraseUnits m n (start+m.erasesize) (setTo cells start.toNat m.erasesize.toNat 0xff#8)
    else none

/-- A block map with `nbam` control blocks. -/
def controlMap (nbam : ℕ) : List Byte := (List.replicate nbam (le 4 BLOCK_CONTROL)).flatten

/-- The loop over the erase units; none where it divides by zero. -/
def writeUnits (hdr : EraseUnitHeader) (nbam step : ℕ) :
    ℕ → ℕ → ℕ → (ℕ → Byte) → Option (List FormattedUnit × (ℕ → Byte))
  | 0, _, _, cells => some ([], cells)
  | n+1, i, lun, cells =>
    if step = 0 then none
    else
      let ofs := (i+hdr.FirstPhysicalEUN.toNat) <<< hdr.EraseUnitSize.toNat
      let transfer := (i+1)%step = 0
      let LogicalEUN := if transfer then 0xffff#16 else BitVec.ofNat 16 lun
      let cells := copyTo cells ofs ({ hdr with LogicalEUN := LogicalEUN }).bytes
      let cells := copyTo cells (ofs+hdr.BAMOffset.toNat) (controlMap nbam)
      (writeUnits hdr nbam step n (i+1) (if transfer then lun else lun+1) cells).map fun r =>
        (⟨ofs, LogicalEUN, nbam⟩ :: r.1, r.2)

/-- `format_partition`: the units that were formatted and what the partition holds then, or none
where it does not return success. -/
def formatPartition (m : Mtd) (spare reserve bootsize time : BitVec 32) (cells : ℕ → Byte) :
    Option (List FormattedUnit × (ℕ → Byte)) := do
  let hdr ← buildHeader m.size m.erasesize spare reserve bootsize time
  let nbam := mapBlocks (m.erasesize.toNat/512)
  let cells ← eraseUnits m hdr.NumEraseUnits.toNat
    (m.erasesize*hdr.FirstPhysicalEUN.setWidth 32) cells
  -- the transfer units are distributed over the entire region
  let step := if spare ≠ 0 then hdr.NumEraseUnits.toNat/spare.toNat else hdr.NumEraseUnits.toNat+1
  writeUnits hdr nbam step hdr.NumEraseUnits.toNat 0 0 cells

end Format

section Check

/-- What `check_partition` prints of an erase unit. -/
inductive Report
  | corrupt
  | transfer (eraseCount : BitVec 32)
  | logical (LogicalEUN : BitVec 16) (eraseCount : BitVec 32) (control data free deleted : ℕ)
deriving DecidableEq

/-- The kinds of blocks in a map. -/
inductive BlockKind
  | free
  | deleted
  | control
  | data
  | other
deriving DecidableEq

def blockKind (b : ℕ) : BlockKind :=
  if b = 0xffffffff then .free
  else if b = 0 ∨ b = 0xfffffffe then .deleted
  else if b%128 = BLOCK_CONTROL then .control
  else if b%128 = BLOCK_DATA then .data
  else .other

variable (m : Mtd) (cells : ℕ → Byte)

def headerAt (p : ℕ) : EraseUnitHeader := .ofBytes (readBytes cells p HEADER_SZ)

/-- The test for a header. -/
def validHeader (hdr : EraseUnitHeader) : Prop :=
  0 < hdr.FormattedSize.toNat ∧ hdr.FormattedSize.toNat ≤ m.size.toNat ∧
    0 < hdr.NumEraseUnits.toNat ∧
    hdr.NumEraseUnits.toNat ≤ m.size.toNat/m.erasesize.toNat

instance (hdr : EraseUnitHeader) : Decidable (validHeader m hdr) :=
  inferInstanceAs (Decidable (_ ∧ _))

/-- The search for the first header, with `n` units to go. -/
def findHeader : ℕ → ℕ → Option EraseUnitHeader
  | 0, _ => none
  | n+1, i =>
    let hdr := headerAt cells (i*m.erasesize.toNat)
    if validHeader m hdr then some hdr else findHeader n (i+1)

/-- The entries of the block map at `p`. -/
def mapKinds (p nbam : ℕ) : List BlockKind :=
  (List.range nbam).map fun j => blockKind (leVal (readBytes cells (p+4*j) 4))

/-- One erase unit, at the address where it is looked for. -/
def checkUnit (hdr : EraseUnitHeader) (i : ℕ) : ℕ × Report :=
  let p := i <<< hdr.EraseUnitSize.toNat
  let hdr2 := headerAt cells p
  let kinds := mapKinds cells (p+hdr.BAMOffset.toNat) (m.erasesize.toNat >>> hdr.BlockSize.toNat)
  (p,
    if hdr2.FormattedSize ≠ hdr.FormattedSize ∨ hdr2.NumEraseUnits ≠ hdr.NumEraseUnits ∨
        hdr2.SerialNumber ≠ hdr.SerialNumber then .corrupt
    else if hdr2.LogicalEUN = 0xffff then .transfer hdr2.EraseCount
    else .logical hdr2.LogicalEUN hdr2.EraseCount (kinds.count .control) (kinds.count .data)
      (kinds.count .free) (kinds.count .deleted))

/-- `check_partition`: the erase units that it visits, none without a valid header. -/
def checkPartition : Option (List (ℕ × Report)) :=
  (findHeader m cells (m.size.toNat/m.erasesize.toNat) 0).map fun hdr =>
    (List.range hdr.NumEraseUnits.toNat).map (checkUnit m cells hdr)

/-- A report says of a unit what was written into it. -/
def Agrees (u : FormattedUnit) (r : ℕ × Report) : Prop :=
  r.1 = u.ofs ∧
    match r.2 with
    | .corrupt => False
    | .transfer _ => u.LogicalEUN = 0xffff
    | .logical LogicalEUN _ control _ _ _ => LogicalEUN = u.LogicalEUN ∧ control = u.nbam

/-- The reports are those of the formatted units. -/
def Understands (units : List FormattedUnit) (reports : Option (List (ℕ × Report))) : Prop :=
  ∃ rs, reports = some rs ∧ List.Forall₂ Agrees units rs

end Check

section RoundTrip

/-- The tuples and the reserved bytes have their sizes. -/
structure EraseUnitHeader.Sized (h : EraseUnitHeader) : Prop where
  link : h.LinkTargetTuple.length = 5
  org : h.DataOrgTuple.length = 10
  reserved : h.Reserved.length = 12
  ends : h.EndTuple.length = 2

theorem bytes_length {h : EraseUnitHeader} (hs : h.Sized) : h.bytes.length = HEADER_SZ := by
  simp [EraseUnitHeader.bytes, hs.link, hs.org, hs.reserved, hs.ends, HEADER_SZ]

theorem ofBytes_bytes {h : EraseUnitHeader} (hs : h.Sized) : .ofBytes h.bytes = h := by
  obtain ⟨h1, h2, h3, h4⟩ := hs
  have e8 (v : BitVec 8) := ofNat_mod_toNat v 1 rfl
  have e16 (v : BitVec 16) := ofNat_mod_toNat v 2 rfl
  have e32 (v : BitVec 32) := ofNat_mod_toNat v 4 rfl
  simp (disch := simp [h1, h2, h3, h4]) only [EraseUnitHeader.ofBytes, EraseUnitHeader.bytes,
    field_skip, slice_skip, slice_head, field_le, le_length, h1, h2, h3, Nat.reduceSub, e8, e16,
    e32]

end RoundTrip

section Units

variable {m : Mtd} {cells cells' : ℕ → Byte} {hdr : EraseUnitHeader} {nbam step k : ℕ}

theorem shiftCount_pow {n k : ℕ} (h : k ≤ n) : shiftCount n (2^k) = k := by
  induction n generalizing k with
  | zero => exact (Nat.le_zero.mp h).symm
  | succ n ih =>
    cases k with
    | zero => rfl
    | succ k =>
      have hpos := Nat.two_pow_pos k
      have hhalf : 2^(k+1)/2 = 2^k := by omega
      rw [shiftCount, if_pos (by omega), hhalf, ih (by omega)]

/-- Erased units are inside of the partition and hold ones. -/
theorem eraseUnits_spec {n : ℕ} {start : BitVec 32}
    (h : eraseUnits m n start cells = some cells') :
    (n = 0 ∨ start.toNat+n*m.erasesize.toNat ≤ m.size.toNat) ∧
      (∀ x, start.toNat ≤ x → x < start.toNat+n*m.erasesize.toNat → cells' x = 0xff#8) ∧
      ∀ x < start.toNat, cells' x = cells x := by
  induction n generalizing start cells with
  | zero =>
    obtain rfl := Option.some.inj h
    exact ⟨.inl rfl, fun x h1 h2 => by omega, fun x _ => rfl⟩
  | succ n ih =>
    unfold eraseUnits at h
    split at h
    next hin =>
      have hsize := m.size.isLt
      have hnext : (start+m.erasesize).toNat = start.toNat+m.erasesize.toNat := by
        rw [BitVec.toNat_add]
        omega
      have hmul : (n+1)*m.erasesize.toNat = n*m.erasesize.toNat+m.erasesize.toNat :=
        Nat.succ_mul _ _
      obtain ⟨hend, hones, hframe⟩ := ih h
      rw [hnext] at hend hones hframe
      rw [hmul]
      refine ⟨.inr ?_, ?_, ?_⟩
      · rcases hend with rfl | hend
        · omega
        · omega
      · intro x h1 h2
        by_cases hx : x < start.toNat+m.erasesize.toNat
        · rw [hframe x hx]
          exact if_pos ⟨h1, hx⟩
        · exact hones x (by omega) (by omega)
      · intro x hx
        rw [hframe x (by omega)]
        exact setTo_below hx
    next => cases h

/-- The entries of a map of control blocks. -/
theorem controlMap_slice {n j : ℕ} (hj : j < n) :
    ((controlMap n).drop (4*j)).take 4 = le 4 BLOCK_CONTROL := by
  induction n generalizing j with
  | zero => exact absurd hj (Nat.not_lt_zero j)
  | succ n ih =>
    have hcons : controlMap (n+1) = le 4 BLOCK_CONTROL ++ controlMap n := rfl
    rw [hcons]
    cases j with
    | zero => exact slice_head (le_length 4 _)
    | succ j =>
      rw [slice_skip (by rw [le_length]; omega), le_length, show 4*(j+1)-4 = 4*j from by omega]
      exact ih (by omega)

theorem controlMap_length (n : ℕ) : (controlMap n).length = 4*n := by
  simp [controlMap, Nat.mul_comm]

/-- What a formatted unit of `size` bytes holds. -/
structure UnitHolds (cells : ℕ → Byte) (hdr : EraseUnitHeader) (size : ℕ) (u : FormattedUnit) :
    Prop where
  header : headerAt cells u.ofs = { hdr with LogicalEUN := u.LogicalEUN }
  map : ∀ j < u.nbam, readBytes cells (u.ofs+0x80+4*j) 4 = le 4 BLOCK_CONTROL
  rest : ∀ x, u.ofs+0x80+4*u.nbam ≤ x → x < u.ofs+size → cells x = 0xff#8

/-- Formatted units, one behind the other from `p` on. -/
def UnitsHold (cells : ℕ → Byte) (hdr : EraseUnitHeader) (nbam size : ℕ) :
    ℕ → List FormattedUnit → Prop
  | _, [] => True
  | p, u :: us => (u.ofs = p ∧ u.nbam = nbam ∧ UnitHolds cells hdr size u) ∧
      UnitsHold cells hdr nbam size (p+size) us

theorem UnitHolds.congr {size : ℕ} {u : FormattedUnit} (h : UnitHolds cells hdr size u)
    (hroom : 0x80+4*u.nbam ≤ size)
    (heq : ∀ x, u.ofs ≤ x → x < u.ofs+size → cells' x = cells x) : UnitHolds cells' hdr size u := by
  constructor
  · rw [← h.header]
    unfold headerAt
    rw [readBytes_congr fun i hi => heq _ (by omega) (by unfold HEADER_SZ at hi; omega)]
  · intro j hj
    rw [← h.map j hj]
    exact readBytes_congr fun i hi => heq _ (by omega) (by omega)
  · intro x h1 h2
    rw [heq x (by omega) h2]
    exact h.rest x h1 h2

/-- One unit, written into erased cells. -/
theorem unit_written {size ofs : ℕ} {eun : BitVec 16} (hs : hdr.Sized)
    (hones : ∀ x, ofs ≤ x → x < ofs+size → cells x = 0xff#8) :
    UnitHolds (copyTo (copyTo cells ofs ({ hdr with LogicalEUN := eun }).bytes) (ofs+0x80)
      (controlMap nbam)) hdr size ⟨ofs, eun, nbam⟩ := by
  have hsized : ({ hdr with LogicalEUN := eun } : EraseUnitHeader).Sized :=
    ⟨hs.link, hs.org, hs.reserved, hs.ends⟩
  have hlen := bytes_length hsized
  have hmap := controlMap_length nbam
  constructor
  · unfold headerAt
    dsimp only
    rw [readBytes_copyTo_outside (by unfold HEADER_SZ; omega),
      readBytes_copyTo_of_length hlen, ofBytes_bytes hsized]
  · intro j hj
    dsimp only at hj ⊢
    rw [readBytes_sub _ _ (n := 4*nbam) (by omega), ← hmap, readBytes_copyTo, controlMap_slice hj]
  · intro x h1 h2
    dsimp only at h1 h2
    rw [copyTo_outside (by omega), copyTo_outside (by unfold HEADER_SZ at hlen; omega)]
    exact hones x (by omega) h2

/-- The loop over the units. -/
theorem writeUnits_spec {n i lun : ℕ} {r : List FormattedUnit × (ℕ → Byte)}
    (h : writeUnits hdr nbam step n i lun cells = some r) (hs : hdr.Sized)
    (hbam : hdr.BAMOffset.toNat = 0x80) (hroom : 0x80+4*nbam ≤ 2^hdr.EraseUnitSize.toNat)
    (hones : ∀ x, (i+hdr.FirstPhysicalEUN.toNat)*2^hdr.EraseUnitSize.toNat ≤ x →
      x < (i+hdr.FirstPhysicalEUN.toNat)*2^hdr.EraseUnitSize.toNat+n*2^hdr.EraseUnitSize.toNat →
      cells x = 0xff#8) :
    UnitsHold r.2 hdr nbam (2^hdr.EraseUnitSize.toNat)
        ((i+hdr.FirstPhysicalEUN.toNat)*2^hdr.EraseUnitSize.toNat) r.1 ∧
      r.1.length = n ∧
      ∀ x < (i+hdr.FirstPhysicalEUN.toNat)*2^hdr.EraseUnitSize.toNat, r.2 x = cells x := by
  induction n generalizing i lun cells r with
  | zero =>
    obtain rfl := Option.some.inj h
    exact ⟨trivial, rfl, fun x _ => rfl⟩
  | succ n ih =>
    unfold writeUnits at h
    split at h
    next => cases h
    next =>
      obtain ⟨r', hrun, rfl⟩ := Option.map_eq_some_iff.mp h
      rw [hbam, Nat.shiftLeft_eq] at hrun
      have hnext : (i+1+hdr.FirstPhysicalEUN.toNat)*2^hdr.EraseUnitSize.toNat =
          (i+hdr.FirstPhysicalEUN.toNat)*2^hdr.EraseUnitSize.toNat+2^hdr.EraseUnitSize.toNat := by
        ring
      have hmul : (n+1)*2^hdr.EraseUnitSize.toNat =
          n*2^hdr.EraseUnitSize.toNat+2^hdr.EraseUnitSize.toNat := Nat.succ_mul _ _
      rw [hmul] at hones
      have hunit := @unit_written cells hdr nbam (2^hdr.EraseUnitSize.toNat) _
        (if (i+1)%step = 0 then 0xffff#16 else BitVec.ofNat 16 lun) hs
        fun x h1 h2 => hones x h1 (by omega)
      have hbytes : ∀ eun, ({ hdr with LogicalEUN := eun } : EraseUnitHeader).bytes.length = 68 :=
        fun eun => bytes_length ⟨hs.link, hs.org, hs.reserved, hs.ends⟩
      have hmap := controlMap_length nbam
      have hout (x : ℕ) (hx : x < (i+hdr.FirstPhysicalEUN.toNat)*2^hdr.EraseUnitSize.toNat ∨
          (i+hdr.FirstPhysicalEUN.toNat)*2^hdr.EraseUnitSize.toNat+2^hdr.EraseUnitSize.toNat ≤ x) :
          copyTo (copyTo cells ((i+hdr.FirstPhysicalEUN.toNat)*2^hdr.EraseUnitSize.toNat)
            ({ hdr with LogicalEUN := if (i+1)%step = 0 then 0xffff#16 else BitVec.ofNat 16 lun } :
              EraseUnitHeader).bytes)
            ((i+hdr.FirstPhysicalEUN.toNat)*2^hdr.EraseUnitSize.toNat+0x80) (controlMap nbam) x =
          cells x := by
        rw [copyTo_outside (by omega), copyTo_outside (by rw [hbytes]; omega)]
      obtain ⟨hhold, hlen, hframe⟩ := ih hrun (by
        intro x h1 h2
        rw [hnext] at h1 h2
        rw [hout x (by omega)]
        exact hones x (by omega) (by omega))
      rw [hnext] at hhold hframe
      refine ⟨⟨⟨Nat.shiftLeft_eq _ _, rfl, ?_⟩, hhold⟩, ?_, ?_⟩
      · rw [Nat.shiftLeft_eq]
        exact hunit.congr hroom fun x _ hx => hframe x hx
      · rw [List.length_cons, hlen]
      · intro x hx
        rw [hframe x (by omega)]
        exact hout x (by omega)

end Units

section Visit

variable {m : Mtd} {cells : ℕ → Byte} {hdr hdr0 : EraseUnitHeader} {nbam k : ℕ}

/-- The map of a formatted unit: control blocks and then free ones. -/
theorem mapKinds_unit {u : FormattedUnit} {blocks : ℕ}
    (h : UnitHolds cells hdr (512*blocks) u) (hle : u.nbam ≤ blocks) (hpos : 1 ≤ blocks) :
    mapKinds cells (u.ofs+0x80) blocks =
      List.replicate u.nbam .control ++ List.replicate (blocks-u.nbam) .free := by
  apply List.ext_getElem
  · simp [mapKinds]
    omega
  · intro j hj hj'
    simp only [mapKinds, List.length_map, List.length_range] at hj
    simp only [mapKinds, List.getElem_map, List.getElem_range]
    by_cases hlt : j < u.nbam
    · rw [h.map j hlt, List.getElem_append_left (by simpa using hlt), List.getElem_replicate]
      decide
    · have hfree : readBytes cells (u.ofs+0x80+4*j) 4 = List.replicate 4 0xff#8 :=
        readBytes_const fun i hi => h.rest _ (by omega) (by omega)
      rw [hfree, List.getElem_append_right (by simpa using hlt), List.getElem_replicate]
      decide

theorem checkUnit_agrees {u : FormattedUnit} {i : ℕ} (h : UnitHolds cells hdr (2^k) u)
    (hofs : u.ofs = i*2^k) (hk : 9 ≤ k) (hsize : m.erasesize.toNat = 2^k)
    (hle : u.nbam ≤ 2^(k-9)) (heus : hdr0.EraseUnitSize.toNat = k)
    (hblock : hdr0.BlockSize.toNat = 9) (hbam : hdr0.BAMOffset.toNat = 0x80)
    (hsame : hdr.FormattedSize = hdr0.FormattedSize ∧ hdr.NumEraseUnits = hdr0.NumEraseUnits ∧
      hdr.SerialNumber = hdr0.SerialNumber) :
    Agrees u (checkUnit m cells hdr0 i) := by
  have hpow : 2^k = 512*2^(k-9) := by
    rw [show (512 : ℕ) = 2^9 from rfl, ← Nat.pow_add, Nat.add_sub_cancel' hk]
  have hplace : i <<< hdr0.EraseUnitSize.toNat = u.ofs := by
    rw [heus, Nat.shiftLeft_eq, hofs]
  have hblocks : m.erasesize.toNat >>> hdr0.BlockSize.toNat = 2^(k-9) := by
    rw [hsize, hblock, Nat.shiftRight_eq_div_pow, hpow]
    omega
  have hkinds := mapKinds_unit (hpow ▸ h) hle Nat.one_le_two_pow
  unfold checkUnit
  dsimp only
  rw [hplace, hblocks, hbam, h.header, hkinds]
  dsimp only
  rw [if_neg (by simp [hsame.1, hsame.2.1, hsame.2.2])]
  refine ⟨rfl, ?_⟩
  by_cases heun : u.LogicalEUN = 0xffff
  · rw [if_pos heun]
    exact heun
  · rw [if_neg heun]
    simp [List.count_replicate]

/-- All formatted units, visited in their order. -/
theorem checkUnits_agree {us : List FormattedUnit} {i : ℕ}
    (h : UnitsHold cells hdr nbam (2^k) (i*2^k) us) (hk : 9 ≤ k)
    (hsize : m.erasesize.toNat = 2^k) (hle : nbam ≤ 2^(k-9))
    (heus : hdr0.EraseUnitSize.toNat = k) (hblock : hdr0.BlockSize.toNat = 9)
    (hbam : hdr0.BAMOffset.toNat = 0x80)
    (hsame : hdr.FormattedSize = hdr0.FormattedSize ∧ hdr.NumEraseUnits = hdr0.NumEraseUnits ∧
      hdr.SerialNumber = hdr0.SerialNumber) :
    List.Forall₂ Agrees us ((List.range' i us.length).map (checkUnit m cells hdr0)) := by
  induction us generalizing i with
  | nil => exact .nil
  | cons u us ih =>
    obtain ⟨⟨hofs, hnbam, hunit⟩, hrest⟩ := h
    rw [List.length_cons, List.range'_succ, List.map_cons]
    refine .cons (checkUnit_agrees hunit hofs hk hsize (by omega) heus hblock hbam hsame) ?_
    apply ih
    rw [Nat.succ_mul]
    exact hrest

end Visit

section Main

variable {m : Mtd} {cells : ℕ → Byte} {spare reserve bootsize time : BitVec 32} {k : ℕ}

theorem findHeader_valid {n i : ℕ} {hdr : EraseUnitHeader}
    (h : findHeader m cells n i = some hdr) : validHeader m hdr := by
  induction n generalizing i with
  | zero => cases h
  | succ n ih =>
    unfold findHeader at h
    dsimp only at h
    split at h
    next hv =>
      obtain rfl := Option.some.inj h
      exact hv
    next => exact ih h

/-- The boot area is whole units, so the first unit behind it is at a number of 32 bits. -/
theorem first_unit (hsize : m.erasesize.toNat = 2^k) :
    (m.erasesize*((bootUnits m.erasesize bootsize).setWidth 16).setWidth 32).toNat =
      ((bootUnits m.erasesize bootsize).setWidth 16).toNat*2^k := by
  have hboot := (bootBytes m.erasesize bootsize).isLt
  have hunits : (bootUnits m.erasesize bootsize).toNat =
      (bootBytes m.erasesize bootsize).toNat/2^k := by
    rw [bootUnits, BitVec.toNat_udiv, hsize]
  have hle : ((bootUnits m.erasesize bootsize).setWidth 16).toNat ≤
      (bootUnits m.erasesize bootsize).toNat := by
    rw [BitVec.toNat_setWidth]
    exact Nat.mod_le _ _
  have hmul : ((bootUnits m.erasesize bootsize).setWidth 16).toNat*2^k < 2^32 := by
    have h1 := Nat.mul_le_mul_right (2^k) hle
    have h2 := Nat.div_mul_le_self (bootBytes m.erasesize bootsize).toNat (2^k)
    rw [hunits] at h1
    omega
  generalize (bootUnits m.erasesize bootsize).setWidth 16 = first at hmul
  have h16 := first.isLt
  rw [BitVec.toNat_mul, hsize, BitVec.toNat_setWidth, Nat.mod_eq_of_lt (a := first.toNat) (by omega),
    Nat.mul_comm, Nat.mod_eq_of_lt hmul]

/-- The fields of the header that the checker looks at. -/
theorem buildHeader_fields {hdr : EraseUnitHeader}
    (h : buildHeader m.size m.erasesize spare reserve bootsize time = some hdr) :
    hdr.BlockSize = 9 ∧ hdr.BAMOffset = 0x80 ∧
      hdr.EraseUnitSize = BitVec.ofNat 8 (eraseUnitSize m.erasesize) ∧
      hdr.NumEraseUnits = numEraseUnits m.size m.erasesize bootsize ∧
      hdr.FormattedSize = formattedSize m.size m.erasesize spare reserve bootsize := by
  unfold buildHeader at h
  split at h
  next => cases h
  next =>
    obtain rfl := Option.some.inj h
    exact ⟨rfl, rfl, rfl, rfl, rfl⟩

/-- A successful format: the erase units from the boot area on hold their headers and maps, and are
inside of the partition. -/
structure Formatted (m : Mtd) (spare reserve bootsize time : BitVec 32) (k : ℕ)
    (hdr : EraseUnitHeader) (r : List FormattedUnit × (ℕ → Byte)) : Prop where
  shift : 9 ≤ k
  unitSize : hdr.EraseUnitSize.toNat = k
  header : buildHeader m.size m.erasesize spare reserve bootsize time = some hdr
  units : UnitsHold r.2 hdr (mapBlocks (2^(k-9))) (2^k)
    (((bootUnits m.erasesize bootsize).setWidth 16).toNat*2^k) r.1
  count : r.1.length = (numEraseUnits m.size m.erasesize bootsize).toNat
  inside : r.1 = [] ∨ ((bootUnits m.erasesize bootsize).setWidth 16).toNat*2^k+
    r.1.length*2^k ≤ m.size.toNat

theorem formatted {r : List FormattedUnit × (ℕ → Byte)} (hsize : m.erasesize.toNat = 2^k)
    (h : formatPartition m spare reserve bootsize time cells = some r) :
    ∃ hdr, Formatted m spare reserve bootsize time k hdr r := by
  have hk32 : k < 32 := by
    have hlt := m.erasesize.isLt
    rw [hsize] at hlt
    exact (Nat.pow_lt_pow_iff_right (by decide)).mp hlt
  have heus : eraseUnitSize m.erasesize = k := by
    rw [eraseUnitSize, hsize, shiftCount_pow (by omega)]
  unfold formatPartition at h
  obtain ⟨hdr, hbuild, h⟩ := Option.bind_eq_some_iff.mp h
  obtain ⟨erased, herase, h⟩ := Option.bind_eq_some_iff.mp h
  have hb := hbuild
  unfold buildHeader at hb
  rw [heus] at hb
  split at hb
  next => cases hb
  next hk =>
    have hpow : 2^k = 512*2^(k-9) := by
      rw [show (512 : ℕ) = 2^9 from rfl, ← Nat.pow_add, Nat.add_sub_cancel' (by omega)]
    have hpos := Nat.two_pow_pos (k-9)
    have hblocks : m.erasesize.toNat/512 = 2^(k-9) := by
      rw [hsize, hpow, Nat.mul_div_cancel_left _ (by decide)]
    obtain rfl := Option.some.inj hb
    have hshift : (BitVec.ofNat 8 k).toNat = k := by
      rw [BitVec.toNat_ofNat]
      omega
    obtain ⟨hin, hones, -⟩ := eraseUnits_spec herase
    dsimp only at hin hones h
    rw [first_unit hsize, hsize] at hin hones
    rw [hblocks] at h
    have hspec := writeUnits_spec h ⟨rfl, rfl, by simp, rfl⟩ rfl
      (by dsimp only; rw [hshift, hpow, mapBlocks]; omega)
      (by
        dsimp only
        rw [hshift, Nat.zero_add]
        exact hones)
    dsimp only at hspec
    rw [hshift, Nat.zero_add] at hspec
    obtain ⟨hunits, hcount, -⟩ := hspec
    refine ⟨_, by omega, hshift, hbuild, hunits, hcount, ?_⟩
    rcases hin with hin | hin
    · left
      apply List.length_eq_zero_iff.mp
      omega
    · right
      rw [hcount]
      exact hin

/-- What the checker needs: no boot area (in the 16 bits that the header has for it), some erase unit
(in the 16 bits of their number), and a formatted size that its test takes. -/
structure Checkable (m : Mtd) (spare reserve bootsize : BitVec 32) : Prop where
  boot : (bootUnits m.erasesize bootsize).setWidth 16 = 0#16
  units : numEraseUnits m.size m.erasesize bootsize ≠ 0#16
  pos : 0 < (formattedSize m.size m.erasesize spare reserve bootsize).toNat
  le : (formattedSize m.size m.erasesize spare reserve bootsize).toNat ≤ m.size.toNat

variable {hdr : EraseUnitHeader} {r : List FormattedUnit × (ℕ → Byte)}

theorem Formatted.checkable (hf : Formatted m spare reserve bootsize time k hdr r)
    (hu : Understands r.1 (checkPartition m r.2)) : Checkable m spare reserve bootsize := by
  obtain ⟨-, -, -, -, hformatted⟩ := buildHeader_fields hf.header
  have hpos := Nat.two_pow_pos k
  obtain ⟨rs, hcheck, hall⟩ := hu
  obtain ⟨found, hfind, rfl⟩ := Option.map_eq_some_iff.mp hcheck
  have hvalid := findHeader_valid hfind
  obtain ⟨n, hn⟩ : ∃ n, found.NumEraseUnits.toNat = n+1 :=
    ⟨found.NumEraseUnits.toNat-1, by have := hvalid.2.2.1; omega⟩
  rw [hn, List.range_succ_eq_map, List.map_cons] at hall
  -- the first unit that is visited is the one at the start of the partition
  cases hunits : r.1 with
  | nil =>
    rw [hunits] at hall
    cases hall
  | cons u us =>
    have hlen := hf.count
    have hold := hf.units
    rw [hunits] at hall hold hlen
    obtain ⟨⟨hofs, -, hunit⟩, -⟩ := hold
    have hfirst := List.forall₂_cons.mp hall
    have hzero : u.ofs = 0 := by
      have hplace := hfirst.1.1
      rw [checkUnit, Nat.zero_shiftLeft] at hplace
      exact hplace.symm
    have hboot : ((bootUnits m.erasesize bootsize).setWidth 16).toNat = 0 := by
      rw [hzero] at hofs
      exact (Nat.mul_eq_zero.mp hofs.symm).resolve_right (by omega)
    have hsame : hdr.FormattedSize = found.FormattedSize := by
      by_contra hne
      have hreport := hfirst.1.2
      have hhead := hunit.header
      rw [hzero] at hhead
      simp only [checkUnit, Nat.zero_shiftLeft, hhead] at hreport
      rw [if_pos (.inl hne)] at hreport
      exact hreport
    unfold validHeader at hvalid
    rw [← hsame, hformatted] at hvalid
    refine ⟨BitVec.eq_of_toNat_eq hboot, fun hnone => ?_, hvalid.1, hvalid.2.1⟩
    rw [hnone] at hlen
    cases hlen

theorem Formatted.understands (hf : Formatted m spare reserve bootsize time k hdr r)
    (hsize : m.erasesize.toNat = 2^k) (hc : Checkable m spare reserve bootsize) :
    Understands r.1 (checkPartition m r.2) := by
  obtain ⟨hblock, hbam, -, hcount, hformatted⟩ := buildHeader_fields hf.header
  have hpos := Nat.two_pow_pos k
  obtain ⟨hboot, hnone, hlow, hhigh⟩ := hc
  have hhold := hf.units
  have hin := hf.inside
  rw [hboot] at hhold hin
  rw [show (0#16).toNat = 0 from rfl, Nat.zero_mul] at hhold hin
  cases hunits : r.1 with
  | nil =>
    have hlen := hf.count
    rw [hunits] at hlen
    exact absurd (BitVec.eq_of_toNat_eq hlen.symm) hnone
  | cons u us =>
    have hlen := hf.count
    rw [hunits] at hhold hin hlen
    have hroom : r.1.length ≤ m.size.toNat/m.erasesize.toNat := by
      rw [hsize, Nat.le_div_iff_mul_le hpos, hunits]
      rcases hin with hin | hin
      · cases hin
      · omega
    obtain ⟨hdr0, hhdr0⟩ : ∃ hdr0 : EraseUnitHeader,
        { hdr with LogicalEUN := u.LogicalEUN } = hdr0 := ⟨_, rfl⟩
    have hsame : hdr.FormattedSize = hdr0.FormattedSize ∧
        hdr.NumEraseUnits = hdr0.NumEraseUnits ∧ hdr.SerialNumber = hdr0.SerialNumber := by
      rw [← hhdr0]
      exact ⟨rfl, rfl, rfl⟩
    have hplaces : hdr0.EraseUnitSize.toNat = k ∧ hdr0.BlockSize.toNat = 9 ∧
        hdr0.BAMOffset.toNat = 0x80 := by
      rw [← hhdr0]
      exact ⟨hf.unitSize, congrArg BitVec.toNat hblock, congrArg BitVec.toNat hbam⟩
    have hnum : hdr0.NumEraseUnits.toNat = (u :: us).length := by
      rw [← hsame.2.1, hcount, hlen]
    have hhead : headerAt r.2 0 = hdr0 := by
      rw [← hhdr0, ← hhold.1.2.2.header, hhold.1.1]
    have hvalid : validHeader m hdr0 := by
      unfold validHeader
      rw [hnum, ← hsame.1, hformatted, ← hunits]
      exact ⟨hlow, hhigh, by rw [hunits]; exact Nat.succ_pos _, hroom⟩
    have hfind : findHeader m r.2 (m.size.toNat/m.erasesize.toNat) 0 = some hdr0 := by
      obtain ⟨n, hn⟩ : ∃ n, m.size.toNat/m.erasesize.toNat = n+1 :=
        ⟨m.size.toNat/m.erasesize.toNat-1, by
          rw [hunits, List.length_cons] at hroom
          omega⟩
      rw [hn, findHeader]
      simp only [Nat.zero_mul, hhead, hvalid, if_true]
    refine ⟨_, congrArg (Option.map _) hfind, ?_⟩
    dsimp only
    rw [hnum, List.range_eq_range']
    have hblocks := Nat.two_pow_pos (k-9)
    exact checkUnits_agree (i := 0) (by rw [Nat.zero_mul]; exact hhold) hf.shift hsize
      (by unfold mapBlocks; omega) hplaces.1 hplaces.2.1 hplaces.2.2 hsame

theorem understands_iff {r : List FormattedUnit × (ℕ → Byte)} (hsize : m.erasesize.toNat = 2^k)
    (h : formatPartition m spare reserve bootsize time cells = some r) :
    Understands r.1 (checkPartition m r.2) ↔ Checkable m spare reserve bootsize := by
  obtain ⟨hdr, hf⟩ := formatted hsize h
  exact ⟨hf.checkable, hf.understands hsize⟩

end Main

/-- `ftl_check` understands what `ftl_format` left, for whatever the partition held before, just when
there is no boot area and the header's own counts pass the test. -/
theorem ftl_check_understands_iff (m : Mtd) (spare reserve bootsize time : BitVec 32)
    (cells : ℕ → Byte) (k : ℕ) (r : List FormattedUnit × (ℕ → Byte))
    (hsize : m.erasesize.toNat = 2^k)
    (h : formatPartition m spare reserve bootsize time cells = some r) :
    Understands r.1 (checkPartition m r.2) ↔ Checkable m spare reserve bootsize :=
  understands_iff hsize h

/-- The counts of a partition of four units without a boot area pass the test. -/
theorem checkable_four_units : Checkable ⟨16384#32, 4096#32⟩ 1#32 5#32 0#32 := by
  constructor <;> decide +kernel

theorem ftl_check_four_units :
    ∃ r, formatPartition ⟨16384#32, 4096#32⟩ 1#32 5#32 0#32 7#32 (fun _ => 0#8) = some r ∧
      Checkable ⟨16384#32, 4096#32⟩ 1#32 5#32 0#32 ∧
      Understands r.1 (checkPartition ⟨16384#32, 4096#32⟩ r.2) := by
  obtain ⟨r, hr⟩ := Option.isSome_iff_exists.mp (show (formatPartition ⟨16384#32, 4096#32⟩ 1#32 5#32
    0#32 7#32 (fun _ => 0#8)).isSome = true by decide +kernel)
  have hiff := ftl_check_understands_iff ⟨16384#32, 4096#32⟩ 1#32 5#32 0#32 7#32 _ 12 r rfl hr
  exact ⟨r, hr, checkable_four_units, hiff.mpr checkable_four_units⟩

/-- One unit is set aside for a boot image: the checker looks for the units from the start on. -/
theorem ftl_check_misses_boot_area :
    ∃ r, formatPartition ⟨16384#32, 4096#32⟩ 1#32 5#32 4096#32 7#32 (fun _ => 0#8) = some r ∧
      ¬Understands r.1 (checkPartition ⟨16384#32, 4096#32⟩ r.2) := by
  obtain ⟨r, hr⟩ := Option.isSome_iff_exists.mp (show (formatPartition ⟨16384#32, 4096#32⟩ 1#32 5#32
    4096#32 7#32 (fun _ => 0#8)).isSome = true by decide +kernel)
  refine ⟨r, hr, fun hu => ?_⟩
  have hc := (understands_iff (k := 12) rfl hr).mp hu
  exact absurd hc.boot (by decide +kernel)

end ChipTools.Ftl
