import ChipTools.CNumber
import Mathlib.Tactic.IntervalCases

/-! `docfdisk`: the new INFTL media header that it makes from the sizes on the command line, and
what its own `show_header` says of a header. -/
namespace ChipTools.Docfdisk
open Bytes CNumber

section Header

inductive Host
  | little
  | big
deriving DecidableEq

/-- `swab32`. -/
def swab32 (x : BitVec 32) : BitVec 32 :=
  (x &&& 0x000000ff#32) <<< 24 ||| (x &&& 0x0000ff00#32) <<< 8 |||
    (x &&& 0x00ff0000#32) >>> 8 ||| (x &&& 0xff000000#32) >>> 24

def cpu_to_le32 : Host → BitVec 32 → BitVec 32
  | .little, x => x
  | .big, x => swab32 x

def le32_to_cpu : Host → BitVec 32 → BitVec 32 := cpu_to_le32

/-- `struct INFTLPartition`, with its members as the host loads them. -/
structure INFTLPartition where
  virtualUnits : BitVec 32
  firstUnit : BitVec 32
  lastUnit : BitVec 32
  flags : BitVec 32
  spareUnits : BitVec 32
deriving DecidableEq

structure INFTLMediaHeader where
  bootRecordID : List Byte
  NoOfBootImageBlocks : BitVec 32
  NoOfBinaryPartitions : BitVec 32
  NoOfBDTLPartitions : BitVec 32
  BlockMultiplierBits : BitVec 32
  FormatFlags : BitVec 32
  OsakVersion : BitVec 32
  PercentUsed : BitVec 32
  Partitions : List INFTLPartition
  four : Partitions.length = 4
deriving DecidableEq

def INFTL_BINARY : BitVec 32 := 0x20000000#32

def INFTL_LAST : BitVec 32 := 0x80000000#32

/-- What an erase block holds, or why it was not read. -/
inductive BlockRead
  | ecc
  | failed
  | short
  | full (mh : INFTLMediaHeader)

/-- The geometry of the device and its contents. What is read in full is inside. -/
structure Device where
  size : BitVec 32
  erasesize : BitVec 32
  pread : BitVec 32 → BlockRead
  inside : ∀ offset mh, pread offset = .full mh → offset.toNat+erasesize.toNat ≤ size.toNat

/-- `erasesize >> bmbits`. The shift has no meaning from the width on, and with no unit size the
division that follows traps. -/
def unitSize (d : Device) (bmbits : BitVec 32) : Option (BitVec 32) :=
  let unitsize := d.erasesize >>> bmbits.toNat
  if bmbits.toNat < 32 ∧ unitsize ≠ 0#32 then some unitsize else none

end Header

section Show

/-- The lines of `show_header` behind the members of the header. -/
inductive Report
  | units (unitsize numunits : BitVec 32)
  | tooMany
  | largeMultiplier
  | overlapping
  | unpartitioned (bytes virtualUnits firstUnit lastUnit : BitVec 32)
  | partition (i : ℕ) (bdk : Bool) (bytes virtualUnits firstUnit lastUnit flags spareUnits : BitVec 32)
  | inconsistent
  | notLast
  | wrongNumber
  | beyond
deriving DecidableEq

/-- The lines that begin with `ERROR`. -/
def Report.IsError : Report → Prop
  | overlapping => True
  | inconsistent => True
  | wrongNumber => True
  | beyond => True
  | _ => False

instance (r : Report) : Decidable r.IsError := by
  cases r <;> unfold Report.IsError <;> infer_instance

/-- The lines for one partition. -/
def showPartition (host : Host) (unitsize nextunit : BitVec 32) (i : ℕ) (ip : INFTLPartition) :
    List Report :=
  let flags := le32_to_cpu host ip.flags
  let start := le32_to_cpu host ip.firstUnit
  let endUnit := le32_to_cpu host ip.lastUnit
  let num := le32_to_cpu host ip.virtualUnits
  (if start.slt nextunit then [.overlapping] else []) ++
  (if nextunit.slt start then
    [.unpartitioned ((start-nextunit)*unitsize) (start-nextunit) nextunit (start-1)] else []) ++
  [.partition (i+1) (flags &&& INFTL_BINARY ≠ 0#32) (num*unitsize) num start endUnit flags
    (le32_to_cpu host ip.spareUnits)] ++
  (if (1+endUnit-start).slt num then [.inconsistent] else [])

/-- The unit behind a partition. -/
def nextUnit (host : Host) (nextunit : BitVec 32) (ip : INFTLPartition) : BitVec 32 :=
  let endUnit := le32_to_cpu host ip.lastUnit+1
  if nextunit.slt endUnit then endUnit else nextunit

/-- The loop over the partitions from `i` on: the lines, the unit behind them, and the `i` with
which it ends. -/
def showPartitions (host : Host) (unitsize : BitVec 32) :
    ℕ → BitVec 32 → List INFTLPartition → List Report × BitVec 32 × ℕ
  | i, nextunit, [] => ([], nextunit, i)
  | i, nextunit, ip :: ips =>
    let lines := showPartition host unitsize nextunit i ip
    let nextunit := nextUnit host nextunit ip
    if le32_to_cpu host ip.flags &&& INFTL_LAST ≠ 0#32 then (lines, nextunit, i)
    else
      let (rest, nextunit, i) := showPartitions host unitsize (i+1) nextunit ips
      (lines ++ rest, nextunit, i)

/-- `show_header`, where it does not trap. -/
def showHeader (host : Host) (d : Device) (mhoffs : BitVec 32) (mh : INFTLMediaHeader) :
    Option (List Report) :=
  let bmbits := le32_to_cpu host mh.BlockMultiplierBits
  let numpart := le32_to_cpu host mh.NoOfBinaryPartitions+le32_to_cpu host mh.NoOfBDTLPartitions
  match unitSize d bmbits with
  | none => none
  | some unitsize =>
    let numunits := d.size/unitsize
    let nextunit := mhoffs.sdiv unitsize+1
    let (lines, nextunit, i) := showPartitions host unitsize 0 nextunit mh.Partitions
    let (odd, i) := if 4 ≤ i then ([Report.notLast], i-1) else ([], i)
    some ([.units unitsize numunits] ++
      (if (32768#32).slt numunits then [.tooMany] else []) ++
      (if bmbits ≠ 0#32 ∧ numunits.sle 16384#32 then [.largeMultiplier] else []) ++
      lines ++ odd ++
      (if BitVec.ofNat 32 (i+1) ≠ numpart then [.wrongNumber] else []) ++
      (if numunits.slt nextunit then [.beyond] else []) ++
      (if nextunit.slt numunits then
        [.unpartitioned ((numunits-nextunit)*unitsize) (numunits-nextunit) nextunit (numunits-1)]
      else []))

end Show

section Main

def MAXSCAN : ℕ := 10

/-- Where `main` ends without a new header. -/
inductive Stop
  | maxPartitions
  | noSizesAfterZero
  | readEraseblock
  | shortRead
  | noMediaHeader
  | trap
  | shown
  | beyondEnd
deriving DecidableEq

/-- The sizes behind one, each cut off to 32 bits. -/
def readSizes : BitVec 32 → List (List Byte) → Except Stop (List (BitVec 32))
  | _, [] => .ok []
  | prev, arg :: args =>
    if prev = 0#32 then .error .noSizesAfterZero
    else do
      let size := BitVec.ofNat 32 (strtoull arg)
      let sizes ← readSizes size args
      return size :: sizes

/-- `BNAND` with its end. -/
def BNAND : List Byte := literal "BNAND"

/-- The loop over the erase blocks, `k` of them from `mhblock` on. -/
def findHeader (d : Device) : ℕ → ℕ → Except Stop (BitVec 32 × INFTLMediaHeader)
  | 0, _ => .error .noMediaHeader
  | k+1, mhblock =>
    match d.pread (BitVec.ofNat 32 mhblock*d.erasesize) with
    | .ecc => findHeader d k (mhblock+1)
    | .failed => .error .readEraseblock
    | .short => .error .shortRead
    | .full mh =>
      if mh.bootRecordID.takeWhile (· ≠ 0#8) = BNAND then
        .ok (BitVec.ofNat 32 mhblock*d.erasesize, mh)
      else findHeader d k (mhblock+1)

def setPartition (host : Host) (block nblocks : BitVec 32) (ip : INFTLPartition) :
    INFTLPartition :=
  { ip with
    firstUnit := cpu_to_le32 host block
    virtualUnits := cpu_to_le32 host nblocks
    lastUnit := cpu_to_le32 host (block+nblocks-1)
    spareUnits := 0#32
    flags := cpu_to_le32 host INFTL_BINARY }

/-- The loop over the sizes: the partitions, and the block behind them. -/
def setPartitions (host : Host) (totblocks : BitVec 32) :
    BitVec 32 → List (BitVec 32) → List INFTLPartition → List INFTLPartition × BitVec 32
  | block, size :: sizes, ip :: ips =>
    let nblocks := if size = 0#32 then totblocks-block else size
    let (ips, next) := setPartitions host totblocks (block+nblocks) sizes ips
    (setPartition host block nblocks ip :: ips, next)
  | block, _, ips => (ips, block)

theorem setPartitions_length (host : Host) (totblocks block : BitVec 32) (sizes : List (BitVec 32))
    (ips : List INFTLPartition) :
    (setPartitions host totblocks block sizes ips).1.length = ips.length := by
  induction sizes generalizing block ips with
  | nil => cases ips <;> rfl
  | cons size sizes ih =>
    cases ips with
    | nil => rfl
    | cons ip ips =>
      rw [setPartitions, List.length_cons, List.length_cons, ih]

def markLast (host : Host) (ip : INFTLPartition) : INFTLPartition :=
  { ip with flags := cpu_to_le32 host (INFTL_BINARY ||| INFTL_LAST) }

/-- The header with the new partitions, and the block behind them. -/
def setHeader (host : Host) (totblocks block : BitVec 32) (sizes : List (BitVec 32))
    (mh : INFTLMediaHeader) : INFTLMediaHeader × BitVec 32 :=
  let set := setPartitions host totblocks block sizes mh.Partitions
  ({ mh with
      NoOfBDTLPartitions := 0#32
      -- this one is stored without `cpu_to_le32`
      NoOfBinaryPartitions := BitVec.ofNat 32 sizes.length
      Partitions := set.1.modify (sizes.length-1) (markLast host)
      four := by rw [List.length_modify, setPartitions_length, mh.four] }, set.2)

/-- The header that is proposed, and its place. -/
structure Proposal where
  mhoffs : BitVec 32
  mh : INFTLMediaHeader
deriving DecidableEq

/-- `main` up to the question at its end, for the sizes in `args`. -/
def propose (host : Host) (d : Device) (args : List (List Byte)) : Except Stop Proposal :=
  if 4 < args.length then .error .maxPartitions
  else do
    let sizes ← readSizes 1#32 args
    let (mhoffs, mh) ← findHeader d MAXSCAN 0
    match showHeader host d mhoffs mh with
    | none => .error .trap
    | some _ =>
      if sizes = [] then .error .shown
      else match unitSize d (le32_to_cpu host mh.BlockMultiplierBits) with
        | none => .error .trap
        | some unitsize =>
          let totblocks := d.size/unitsize
          let block := mhoffs.sdiv unitsize+1
          let (mh, block) := setHeader host totblocks block sizes mh
          if totblocks < block then .error .beyondEnd else .ok ⟨mhoffs, mh⟩

end Main

section Approved

variable {host : Host} {d : Device}

/-- The partitions up to the one that is marked as the last. -/
def listed (host : Host) : List INFTLPartition → List INFTLPartition
  | [] => []
  | ip :: ips => if le32_to_cpu host ip.flags &&& INFTL_LAST ≠ 0#32 then [ip]
    else ip :: listed host ips

/-- Partitions from a unit on, in order and apart, on a device of `units` units. The members are
read as numbers, so that nothing wraps around. -/
def InOrder (host : Host) (units : ℕ) : ℕ → List INFTLPartition → Prop
  | _, [] => True
  | next, ip :: ips =>
    next ≤ (le32_to_cpu host ip.firstUnit).toNat ∧
    (le32_to_cpu host ip.firstUnit).toNat+(le32_to_cpu host ip.virtualUnits).toNat =
      (le32_to_cpu host ip.lastUnit).toNat+1 ∧
    (le32_to_cpu host ip.lastUnit).toNat < units ∧
    InOrder host units ((le32_to_cpu host ip.lastUnit).toNat+1) ips

/-- A header is consistent: `show_header` finds no error, and neither does one who counts without
a limit. -/
structure Approved (host : Host) (d : Device) (p : Proposal) : Prop where
  checked : ∃ lines, showHeader host d p.mhoffs p.mh = some lines ∧ ∀ r ∈ lines, ¬r.IsError
  marked : ∃ ip ∈ p.mh.Partitions, le32_to_cpu host ip.flags &&& INFTL_LAST ≠ 0#32
  count : (listed host p.mh.Partitions).length =
    (le32_to_cpu host p.mh.NoOfBinaryPartitions).toNat+
      (le32_to_cpu host p.mh.NoOfBDTLPartitions).toNat
  ordered : ∃ unitsize, unitSize d (le32_to_cpu host p.mh.BlockMultiplierBits) = some unitsize ∧
    InOrder host (d.size.toNat/unitsize.toNat) (p.mhoffs.toNat/unitsize.toNat+1)
      (listed host p.mh.Partitions)

/-- The size that an argument asks for. -/
def sizeOf (arg : List Byte) : ℕ := strtoull arg%2^32

/-- The partitions fit behind the header, counted without a limit, and `int` can tell the units of
the device apart. -/
def Room (host : Host) (d : Device) (args : List (List Byte)) : Prop :=
  ∃ mhoffs mh unitsize, findHeader d MAXSCAN 0 = .ok (mhoffs, mh) ∧
    unitSize d (le32_to_cpu host mh.BlockMultiplierBits) = some unitsize ∧
    mhoffs.toNat/unitsize.toNat+1+(args.map sizeOf).sum ≤ d.size.toNat/unitsize.toNat ∧
    (mhoffs.toNat < 2^31 ∧ d.size.toNat/unitsize.toNat < 2^31 ∨
      2^31 ≤ mhoffs.toNat+1 ∧ unitsize = 1#32)

end Approved

section Words

variable {host : Host} {x y u : BitVec 32}

theorem swab32_swab32 (x : BitVec 32) : swab32 (swab32 x) = x := by
  apply BitVec.eq_of_getLsbD_eq
  intro i hi
  unfold swab32
  interval_cases i <;> simp

@[simp] theorem le32_to_cpu_cpu_to_le32 (host : Host) (x : BitVec 32) :
    le32_to_cpu host (cpu_to_le32 host x) = x := by
  cases host with
  | little => rfl
  | big => exact swab32_swab32 x

/-- Numbers in the same half of the words have the same order with and without a sign. -/
theorem slt_of_half (h : x.toNat < 2^31 ∧ y.toNat < 2^31 ∨ 2^31 ≤ x.toNat ∧ 2^31 ≤ y.toNat) :
    x.slt y = decide (x.toNat < y.toNat) := by
  have hx := x.isLt
  have hy := y.isLt
  unfold BitVec.slt
  apply decide_eq_decide.mpr
  rw [BitVec.toInt_eq_toNat_cond, BitVec.toInt_eq_toNat_cond]
  split_ifs <;> omega

theorem sdiv_toNat (hx : x.toNat < 2^31) (hu : x.toNat+u.toNat < 2^32) :
    (x.sdiv u).toNat = x.toNat/u.toNat := by
  have hmx : x.msb = false := by
    rw [BitVec.msb_eq_false_iff_two_mul_lt]
    omega
  rw [BitVec.sdiv_eq, hmx]
  cases hmu : u.msb with
  | false => exact BitVec.toNat_udiv
  | true =>
    -- the unit is larger than the offset, so both quotients are zero
    rw [BitVec.msb_eq_true_iff_two_mul_ge] at hmu
    have hneg : (-u).toNat = 2^32-u.toNat := by
      rw [BitVec.toNat_neg, Nat.mod_eq_of_lt (by omega)]
    dsimp only
    rw [BitVec.toNat_neg, BitVec.udiv_eq, BitVec.toNat_udiv, hneg, Nat.div_eq_of_lt (by omega),
      Nat.div_eq_of_lt (by omega)]

/-- Where an offset has the sign of an `int`. -/
theorem sdiv_toNat_neg (hx : 2^31 ≤ x.toNat) (hu : x.toNat+u.toNat < 2^32) :
    (x.sdiv u).toNat = (2^32-(2^32-x.toNat)/u.toNat)%2^32 := by
  have hmx : x.msb = true := by
    rw [BitVec.msb_eq_true_iff_two_mul_ge]
    omega
  have hmu : u.msb = false := by
    rw [BitVec.msb_eq_false_iff_two_mul_lt]
    omega
  have hneg : (-x).toNat = 2^32-x.toNat := by
    rw [BitVec.toNat_neg, Nat.mod_eq_of_lt (by omega)]
  rw [BitVec.sdiv_eq, hmx, hmu]
  dsimp only
  rw [BitVec.toNat_neg, BitVec.udiv_eq, BitVec.toNat_udiv, hneg]

end Words

section Sizes

variable {host : Host} {d : Device} {prev : BitVec 32} {args : List (List Byte)}
  {sizes : List (BitVec 32)}

/-- Only the last size may be zero. -/
def ZeroLast : List (BitVec 32) → Prop
  | [] => True
  | size :: sizes => (sizes ≠ [] → size ≠ 0#32) ∧ ZeroLast sizes

theorem readSizes_ok (h : readSizes prev args = .ok sizes) :
    ZeroLast sizes ∧ (args ≠ [] → prev ≠ 0#32) ∧ sizes.map BitVec.toNat = args.map sizeOf := by
  induction args generalizing prev sizes with
  | nil =>
    obtain rfl := Except.ok.inj h
    exact ⟨trivial, fun hne => absurd rfl hne, rfl⟩
  | cons arg args ih =>
    rw [readSizes] at h
    split at h
    · cases h
    next hprev =>
      cases hrest : readSizes (BitVec.ofNat 32 (strtoull arg)) args with
      | error e =>
        simp only [hrest] at h
        cases h
      | ok rest =>
        simp only [hrest] at h
        obtain rfl := Except.ok.inj h
        obtain ⟨hzero, hsize, hmap⟩ := ih hrest
        refine ⟨⟨fun hne => hsize ?_, hzero⟩, fun _ => hprev, ?_⟩
        · rintro rfl
          obtain rfl := Except.ok.inj hrest
          exact hne rfl
        · rw [List.map_cons, List.map_cons, hmap, BitVec.toNat_ofNat]
          rfl

/-- What `main` has done when it comes to its question. -/
theorem propose_ok {p : Proposal} (h : propose host d args = .ok p) :
    ∃ sizes mhoffs mh unitsize, readSizes 1#32 args = .ok sizes ∧
      findHeader d MAXSCAN 0 = .ok (mhoffs, mh) ∧
      unitSize d (le32_to_cpu host mh.BlockMultiplierBits) = some unitsize ∧
      sizes ≠ [] ∧ sizes.length ≤ 4 ∧
      p = ⟨mhoffs, (setHeader host (d.size/unitsize) (mhoffs.sdiv unitsize+1) sizes mh).1⟩ ∧
      ¬d.size/unitsize < (setHeader host (d.size/unitsize) (mhoffs.sdiv unitsize+1) sizes mh).2 := by
  unfold propose at h
  split at h
  · cases h
  next hlen =>
    cases hsizes : readSizes 1#32 args with
    | error e =>
      simp only [hsizes] at h
      cases h
    | ok sizes =>
      cases hfind : findHeader d MAXSCAN 0 with
      | error e =>
        simp only [hsizes, hfind] at h
        cases h
      | ok found =>
        obtain ⟨mhoffs, mh⟩ := found
        simp only [hsizes, hfind] at h
        change (match showHeader host d mhoffs mh with
          | none => _
          | some _ => _) = Except.ok p at h
        split at h
        · cases h
        split at h
        · cases h
        next hne =>
          split at h
          · cases h
          next unitsize hunit =>
            split at h
            · cases h
            next hroom =>
              obtain rfl := Except.ok.inj h
              have hmap := congrArg List.length (readSizes_ok hsizes).2.2
              rw [List.length_map, List.length_map] at hmap
              exact ⟨sizes, mhoffs, mh, unitsize, rfl, rfl, hunit, hne, by omega, rfl, hroom⟩

/-- A header that is found is inside. -/
theorem findHeader_inside {k mhblock : ℕ} {mhoffs : BitVec 32} {mh : INFTLMediaHeader}
    (h : findHeader d k mhblock = .ok (mhoffs, mh)) :
    mhoffs.toNat+d.erasesize.toNat ≤ d.size.toNat := by
  induction k generalizing mhblock with
  | zero => cases h
  | succ k ih =>
    rw [findHeader] at h
    split at h
    · exact ih h
    · cases h
    · cases h
    next hread =>
      split at h
      · obtain ⟨rfl, rfl⟩ := Prod.mk.inj (Except.ok.inj h)
        exact d.inside _ _ hread
      · exact ih h

theorem unitSize_some {bmbits unitsize : BitVec 32} (h : unitSize d bmbits = some unitsize) :
    0 < unitsize.toNat ∧ unitsize.toNat ≤ d.erasesize.toNat := by
  unfold unitSize at h
  dsimp only at h
  split at h
  next hok =>
    obtain rfl := Option.some.inj h
    refine ⟨?_, ?_⟩
    · apply Nat.pos_of_ne_zero
      intro hzero
      exact hok.2 (BitVec.eq_of_toNat_eq hzero)
    · rw [BitVec.toNat_ushiftRight]
      exact Nat.shiftRight_le _ _
  · cases h

end Sizes

section Set

variable {host : Host} {totblocks block next : BitVec 32} {size : BitVec 32}
  {sizes : List (BitVec 32)} {ip : INFTLPartition} {ips : List INFTLPartition}

/-- The partitions of the new header, with the last of them marked. -/
def markedPartitions (host : Host) (totblocks block : BitVec 32) (sizes : List (BitVec 32))
    (ips : List INFTLPartition) : List INFTLPartition :=
  (setPartitions host totblocks block sizes ips).1.modify (sizes.length-1) (markLast host)

/-- The units that a size stands for. -/
def given (totblocks block size : BitVec 32) : BitVec 32 :=
  if size = 0#32 then totblocks-block else size

theorem markedPartitions_one :
    markedPartitions host totblocks block [size] (ip :: ips) =
      markLast host (setPartition host block (given totblocks block size) ip) :: ips := by
  cases ips <;> rfl

theorem markedPartitions_cons (hne : sizes ≠ []) :
    markedPartitions host totblocks block (size :: sizes) (ip :: ips) =
      setPartition host block (given totblocks block size) ip ::
        markedPartitions host totblocks (block+given totblocks block size) sizes ips := by
  have hlen : sizes.length-1+1 = sizes.length := Nat.sub_add_cancel (List.length_pos_iff.mpr hne)
  unfold markedPartitions
  rw [setPartitions, List.length_cons, Nat.add_sub_cancel, ← hlen]
  rfl

theorem marked_flag (ip : INFTLPartition) :
    le32_to_cpu host (markLast host ip).flags &&& INFTL_LAST ≠ 0#32 := by
  rw [markLast, le32_to_cpu_cpu_to_le32]
  decide

theorem unmarked_flag (nblocks : BitVec 32) (ip : INFTLPartition) :
    ¬le32_to_cpu host (setPartition host block nblocks ip).flags &&& INFTL_LAST ≠ 0#32 := by
  rw [setPartition, le32_to_cpu_cpu_to_le32]
  decide

/-- The loop of the sizes and the list that it makes, one size after the other. -/
theorem listed_one : listed host (markedPartitions host totblocks block [size] (ip :: ips)) =
    [markLast host (setPartition host block (given totblocks block size) ip)] := by
  rw [markedPartitions_one, listed, if_pos (marked_flag _)]

theorem listed_cons (hne : sizes ≠ []) :
    listed host (markedPartitions host totblocks block (size :: sizes) (ip :: ips)) =
      setPartition host block (given totblocks block size) ip :: listed host
        (markedPartitions host totblocks (block+given totblocks block size) sizes ips) := by
  rw [markedPartitions_cons hne, listed, if_neg (unmarked_flag _ _)]

theorem listed_length (hne : sizes ≠ []) (hlen : sizes.length ≤ ips.length) :
    (listed host (markedPartitions host totblocks block sizes ips)).length = sizes.length := by
  induction sizes generalizing block ips with
  | nil => exact absurd rfl hne
  | cons size sizes ih =>
    cases ips with
    | nil => exact absurd hlen (by simp)
    | cons ip ips =>
      by_cases hnil : sizes = []
      · rw [hnil, listed_one]
        rfl
      · rw [listed_cons hnil, List.length_cons, List.length_cons,
          ih hnil (Nat.le_of_succ_le_succ hlen)]

theorem exists_marked (hne : sizes ≠ []) (hlen : sizes.length ≤ ips.length) :
    ∃ ip ∈ markedPartitions host totblocks block sizes ips,
      le32_to_cpu host ip.flags &&& INFTL_LAST ≠ 0#32 := by
  induction sizes generalizing block ips with
  | nil => exact absurd rfl hne
  | cons size sizes ih =>
    cases ips with
    | nil => exact absurd hlen (by simp)
    | cons ip ips =>
      by_cases hnil : sizes = []
      · rw [hnil, markedPartitions_one]
        exact ⟨_, List.mem_cons_self, marked_flag _⟩
      · rw [markedPartitions_cons hnil]
        obtain ⟨ip', hmem, hflag⟩ := @ih (block+given totblocks block size) ips hnil
          (Nat.le_of_succ_le_succ hlen)
        exact ⟨ip', List.mem_cons_of_mem _ hmem, hflag⟩

end Set

section Order

variable {host : Host} {totblocks block nblocks size : BitVec 32} {sizes : List (BitVec 32)}
  {units next i : ℕ} {ip : INFTLPartition} {ips : List INFTLPartition}

/-- The members that a partition of the new header has. -/
theorem inOrder_set {p : INFTLPartition} (hfirst : le32_to_cpu host p.firstUnit = block)
    (hvirtual : le32_to_cpu host p.virtualUnits = nblocks)
    (hlast : le32_to_cpu host p.lastUnit = block+nblocks-1) :
    InOrder host units next (p :: ips) ↔ next ≤ block.toNat ∧
      block.toNat+nblocks.toNat = (block+nblocks-1).toNat+1 ∧
      (block+nblocks-1).toNat < units ∧
      InOrder host units ((block+nblocks-1).toNat+1) ips := by
  rw [InOrder, hfirst, hvirtual, hlast]

theorem inOrder_setPartition : InOrder host units next (setPartition host block nblocks ip :: ips) ↔
    next ≤ block.toNat ∧ block.toNat+nblocks.toNat = (block+nblocks-1).toNat+1 ∧
      (block+nblocks-1).toNat < units ∧ InOrder host units ((block+nblocks-1).toNat+1) ips :=
  inOrder_set (le32_to_cpu_cpu_to_le32 _ _) (le32_to_cpu_cpu_to_le32 _ _)
    (le32_to_cpu_cpu_to_le32 _ _)

theorem inOrder_markLast :
    InOrder host units next (markLast host (setPartition host block nblocks ip) :: ips) ↔
    next ≤ block.toNat ∧ block.toNat+nblocks.toNat = (block+nblocks-1).toNat+1 ∧
      (block+nblocks-1).toNat < units ∧ InOrder host units ((block+nblocks-1).toNat+1) ips :=
  inOrder_set (le32_to_cpu_cpu_to_le32 _ _) (le32_to_cpu_cpu_to_le32 _ _)
    (le32_to_cpu_cpu_to_le32 _ _)

/-- The unit behind a partition whose members agree as numbers. -/
theorem behind_toNat (h : (block+nblocks-1).toNat < units) (hu : units < 2^32) :
    (block+nblocks).toNat = (block+nblocks-1).toNat+1 := by
  have hb : block+nblocks = block+nblocks-1+1 := by rw [BitVec.sub_add_cancel]
  have hadd : (block+nblocks-1+1).toNat = ((block+nblocks-1).toNat+1)%2^32 := BitVec.toNat_add _ _
  rw [hb, hadd, ← hb, Nat.mod_eq_of_lt (by omega)]

/-- Partitions in order take the sum of their sizes. -/
theorem sum_of_inOrder (hne : sizes ≠ []) (hlen : sizes.length ≤ ips.length) (hu : units < 2^32)
    (h : InOrder host units next
      (listed host (markedPartitions host totblocks block sizes ips))) :
    next ≤ block.toNat ∧ block.toNat+(sizes.map BitVec.toNat).sum ≤ units := by
  induction sizes generalizing block next ips with
  | nil => exact absurd rfl hne
  | cons size sizes ih =>
    cases ips with
    | nil => exact absurd hlen (by simp)
    | cons ip ips =>
      have hsize : size.toNat ≤ (given totblocks block size).toNat := by
        unfold given
        split
        next hzero => rw [hzero]; exact Nat.zero_le _
        next => exact Nat.le_refl _
      by_cases hnil : sizes = []
      · subst hnil
        rw [listed_one, inOrder_markLast] at h
        obtain ⟨hnext, hlast, hin, -⟩ := h
        rw [List.map_singleton, List.sum_singleton]
        exact ⟨hnext, by omega⟩
      · rw [listed_cons hnil, inOrder_setPartition] at h
        obtain ⟨hnext, hlast, hin, hrest⟩ := h
        obtain ⟨-, hsum⟩ := ih hnil (Nat.le_of_succ_le_succ hlen) hrest
        rw [behind_toNat hin hu] at hsum
        rw [List.map_cons, List.sum_cons]
        exact ⟨hnext, by omega⟩

/-- A size that fits, or the rest of the device. -/
theorem given_toNat (hb : block.toNat+size.toNat ≤ totblocks.toNat) :
    block.toNat+(given totblocks block size).toNat ≤ totblocks.toNat ∧
    (block+given totblocks block size).toNat = block.toNat+(given totblocks block size).toNat ∧
    (size ≠ 0#32 → given totblocks block size = size) := by
  have htot := totblocks.isLt
  have hle : block.toNat+(given totblocks block size).toNat ≤ totblocks.toNat := by
    unfold given
    split
    · rw [BitVec.toNat_sub_of_le (by rw [BitVec.le_def]; omega)]
      omega
    · exact hb
  refine ⟨hle, ?_, fun hsize => if_neg hsize⟩
  rw [BitVec.toNat_add, Nat.mod_eq_of_lt (by omega)]

theorem last_toNat (h0 : 1 ≤ block.toNat)
    (h : (block+nblocks).toNat = block.toNat+nblocks.toNat) :
    (block+nblocks-1).toNat+1 = block.toNat+nblocks.toNat := by
  have hone : (1#32).toNat = 1 := rfl
  have hsub : (block+nblocks-1#32).toNat = (block+nblocks).toNat-(1#32).toNat :=
    BitVec.toNat_sub_of_le (by rw [BitVec.le_def]; omega)
  change (block+nblocks-1#32).toNat+1 = _
  omega

theorem inOrder_of_sum (hne : sizes ≠ []) (hlen : sizes.length ≤ ips.length) (hz : ZeroLast sizes)
    (h0 : 1 ≤ block.toNat) (hnext : next ≤ block.toNat)
    (hsum : block.toNat+(sizes.map BitVec.toNat).sum ≤ totblocks.toNat) :
    InOrder host totblocks.toNat next
      (listed host (markedPartitions host totblocks block sizes ips)) := by
  induction sizes generalizing block next ips with
  | nil => exact absurd rfl hne
  | cons size sizes ih =>
    cases ips with
    | nil => exact absurd hlen (by simp)
    | cons ip ips =>
      rw [List.map_cons, List.sum_cons] at hsum
      obtain ⟨hle, hadd, hgiven⟩ := @given_toNat totblocks block size (by omega)
      have hlast := last_toNat h0 hadd
      by_cases hnil : sizes = []
      · rw [hnil, listed_one, inOrder_markLast]
        exact ⟨hnext, hlast.symm, by omega, trivial⟩
      · rw [listed_cons hnil, inOrder_setPartition]
        refine ⟨hnext, hlast.symm, by omega, ?_⟩
        rw [hgiven (hz.1 hnil)] at hadd hlast ⊢
        apply ih hnil (Nat.le_of_succ_le_succ hlen) hz.2
        · omega
        · omega
        · omega

/-- No line about a partition that begins at the next unit and has its units is an error. -/
theorem showPartition_clean {p : INFTLPartition} {unitsize nextunit : BitVec 32}
    (hfirst : le32_to_cpu host p.firstUnit = nextunit)
    (hvirtual : le32_to_cpu host p.virtualUnits = nblocks)
    (hlast : le32_to_cpu host p.lastUnit = nextunit+nblocks-1) :
    ∀ r ∈ showPartition host unitsize nextunit i p, ¬r.IsError := by
  have hnum : 1+(nextunit+nblocks-1)-nextunit = nblocks := by
    rw [BitVec.add_comm, BitVec.sub_add_cancel, BitVec.add_comm, BitVec.add_sub_cancel]
  have hself (x : BitVec 32) : x.slt x = false := by
    unfold BitVec.slt
    exact decide_eq_false (lt_irrefl _)
  intro r hr
  unfold showPartition at hr
  dsimp only at hr
  rw [hfirst, hvirtual, hlast, hnum, hself, hself, if_neg (by decide), if_neg (by decide),
    if_neg (by decide), List.append_nil, List.nil_append, List.nil_append,
    List.mem_singleton] at hr
  rw [hr]
  exact id

theorem nextUnit_set {p : INFTLPartition}
    (hlast : le32_to_cpu host p.lastUnit = block+nblocks-1)
    (hadd : (block+nblocks).toNat = block.toNat+nblocks.toNat)
    (hhalf : (block+nblocks).toNat < 2^31 ∨ 2^31 ≤ block.toNat) :
    nextUnit host block p = block+nblocks := by
  unfold nextUnit
  dsimp only
  rw [hlast, BitVec.sub_add_cancel, slt_of_half (by omega)]
  split
  · rfl
  next hle =>
    -- no units
    rw [decide_eq_true_eq, hadd] at hle
    exact BitVec.eq_of_toNat_eq (by omega)

/-- The loop of `show_header` over the partitions of the new header. -/
theorem showPartitions_clean (unitsize : BitVec 32) (hne : sizes ≠ [])
    (hlen : sizes.length ≤ ips.length) (hz : ZeroLast sizes)
    (hsum : block.toNat+(sizes.map BitVec.toNat).sum ≤ totblocks.toNat)
    (hhalf : totblocks.toNat < 2^31 ∨ 2^31 ≤ block.toNat) :
    ∃ lines next, showPartitions host unitsize i block
        (markedPartitions host totblocks block sizes ips) = (lines, next, i+(sizes.length-1)) ∧
      (∀ r ∈ lines, ¬r.IsError) ∧ block.toNat ≤ next.toNat ∧ next.toNat ≤ totblocks.toNat := by
  induction sizes generalizing block i ips with
  | nil => exact absurd rfl hne
  | cons size sizes ih =>
    cases ips with
    | nil => exact absurd hlen (by simp)
    | cons ip ips =>
      rw [List.map_cons, List.sum_cons] at hsum
      obtain ⟨hle, hadd, hgiven⟩ := @given_toNat totblocks block size (by omega)
      by_cases hnil : sizes = []
      · rw [hnil, markedPartitions_one, showPartitions, if_pos (marked_flag _),
          nextUnit_set (le32_to_cpu_cpu_to_le32 _ _) hadd (by omega)]
        refine ⟨_, _, rfl, showPartition_clean (le32_to_cpu_cpu_to_le32 _ _)
          (le32_to_cpu_cpu_to_le32 _ _) (le32_to_cpu_cpu_to_le32 _ _), by omega, by omega⟩
      · have hsize := hgiven (hz.1 hnil)
        rw [hsize] at hadd
        obtain ⟨lines, next, hrest, hclean, hlo, hhi⟩ := @ih (block+size) (i+1) ips hnil
          (Nat.le_of_succ_le_succ hlen) hz.2 (by omega) (by omega)
        have hpos := List.length_pos_iff.mpr hnil
        rw [markedPartitions_cons hnil, showPartitions, if_neg (unmarked_flag _ _), hsize,
          nextUnit_set (le32_to_cpu_cpu_to_le32 _ _) hadd (by omega), hrest]
        refine ⟨_, _, by rw [List.length_cons, show i+1+(sizes.length-1) = i+(sizes.length+1-1) by omega],
          fun r hr => ?_, by omega, hhi⟩
        rcases List.mem_append.mp hr with hr | hr
        · exact showPartition_clean (le32_to_cpu_cpu_to_le32 _ _) (le32_to_cpu_cpu_to_le32 _ _)
            (le32_to_cpu_cpu_to_le32 _ _) r hr
        · exact hclean r hr

/-- The next unit of `show_header` never goes back. -/
theorem showPartitions_mono (unitsize nextunit : BitVec 32) :
    nextunit.toInt ≤ (showPartitions host unitsize i nextunit ips).2.1.toInt := by
  induction ips generalizing i nextunit with
  | nil => exact le_refl _
  | cons ip ips ih =>
    have hstep : nextunit.toInt ≤ (nextUnit host nextunit ip).toInt := by
      unfold nextUnit
      dsimp only
      split
      next hlt => exact le_of_lt (of_decide_eq_true hlt)
      next => exact le_refl _
    rw [showPartitions]
    split
    · exact hstep
    · exact hstep.trans (ih _)

end Order

section Verdict

variable {host : Host} {d : Device} {args : List (List Byte)} {mhoffs unitsize : BitVec 32}
  {mh : INFTLMediaHeader} {lines : List Report}

theorem room_iff (hfind : findHeader d MAXSCAN 0 = .ok (mhoffs, mh))
    (hunit : unitSize d (le32_to_cpu host mh.BlockMultiplierBits) = some unitsize) :
    Room host d args ↔
      mhoffs.toNat/unitsize.toNat+1+(args.map sizeOf).sum ≤ d.size.toNat/unitsize.toNat ∧
      (mhoffs.toNat < 2^31 ∧ d.size.toNat/unitsize.toNat < 2^31 ∨
        2^31 ≤ mhoffs.toNat+1 ∧ unitsize = 1#32) := by
  constructor
  · rintro ⟨mhoffs', mh', unitsize', hfind', hunit', hroom⟩
    obtain ⟨rfl, rfl⟩ := Prod.mk.inj (Except.ok.inj (hfind.symm.trans hfind'))
    obtain rfl := Option.some.inj (hunit.symm.trans hunit')
    exact hroom
  · intro hroom
    exact ⟨mhoffs, mh, unitsize, hfind, hunit, hroom⟩

/-- A number of units that is negative as an `int` is below every next unit. -/
theorem units_lt_of_checked (hunit : unitSize d (le32_to_cpu host mh.BlockMultiplierBits) =
      some unitsize) (hshow : showHeader host d mhoffs mh = some lines)
    (hclean : ∀ r ∈ lines, ¬r.IsError) (hnext : (mhoffs.sdiv unitsize+1).toNat < 2^31) :
    (d.size/unitsize).toNat < 2^31 := by
  by_contra hge
  have hmono := @showPartitions_mono host 0 mh.Partitions unitsize (mhoffs.sdiv unitsize+1)
  have hslt : (d.size/unitsize).slt
      (showPartitions host unitsize 0 (mhoffs.sdiv unitsize+1) mh.Partitions).2.1 = true := by
    have hlt := (d.size/unitsize).isLt
    unfold BitVec.slt
    apply decide_eq_true
    rw [BitVec.toInt_eq_toNat_cond] at hmono ⊢
    rw [if_pos (by omega)] at hmono
    rw [if_neg (by omega)]
    omega
  unfold showHeader at hshow
  simp only [hunit] at hshow
  rw [hslt, if_pos rfl] at hshow
  apply hclean .beyond _ trivial
  rw [← Option.some.inj hshow]
  simp only [List.mem_append, List.mem_singleton, true_or, or_true]

/-- The checks of `show_header` on a header whose partitions pass the loop. -/
theorem showHeader_clean {rows : List Report} {next : BitVec 32} {i : ℕ}
    (hunit : unitSize d (le32_to_cpu host mh.BlockMultiplierBits) = some unitsize)
    (hrows : showPartitions host unitsize 0 (mhoffs.sdiv unitsize+1) mh.Partitions =
      (rows, next, i)) (hclean : ∀ r ∈ rows, ¬r.IsError) (hi : i < 4)
    (hcount : BitVec.ofNat 32 (i+1) = le32_to_cpu host mh.NoOfBinaryPartitions+
      le32_to_cpu host mh.NoOfBDTLPartitions)
    (hnext : (d.size/unitsize).slt next = false) :
    ∃ lines, showHeader host d mhoffs mh = some lines ∧ ∀ r ∈ lines, ¬r.IsError := by
  unfold showHeader
  simp only [hunit, hrows]
  rw [if_neg (show ¬4 ≤ i by omega)]
  dsimp only
  rw [if_neg (not_not_intro hcount), hnext]
  refine ⟨_, rfl, fun r hr => ?_⟩
  simp only [List.mem_append, or_assoc] at hr
  rcases hr with hr | hr | hr | hr | hr | hr | hr | hr
  · rw [List.mem_singleton.mp hr]
    exact id
  · split at hr
    · rw [List.mem_singleton.mp hr]
      exact id
    · cases hr
  · split at hr
    · rw [List.mem_singleton.mp hr]
      exact id
    · cases hr
  · exact hclean r hr
  · cases hr
  · cases hr
  · cases hr
  · split at hr
    · rw [List.mem_singleton.mp hr]
      exact id
    · cases hr

/-- Where the offset of the header is not one of an `int`, its unit is only right for units of one
byte. -/
theorem unitsize_of_order (hin : mhoffs.toNat+unitsize.toNat ≤ d.size.toNat)
    (hpos : 0 < unitsize.toNat) (hneg : 2^31 ≤ mhoffs.toNat)
    (hlo : mhoffs.toNat/unitsize.toNat+1 ≤ (mhoffs.sdiv unitsize+1).toNat)
    (hhi : (mhoffs.sdiv unitsize+1).toNat ≤ d.size.toNat/unitsize.toNat) : unitsize = 1#32 := by
  have hsize := d.size.isLt
  have hsdiv := sdiv_toNat_neg hneg (show mhoffs.toNat+unitsize.toNat < 2^32 by omega)
  have hx : 1 ≤ (2^32-mhoffs.toNat)/unitsize.toNat := by
    rw [Nat.le_div_iff_mul_le hpos]
    omega
  have hxle : (2^32-mhoffs.toNat)/unitsize.toNat ≤ 2^31 :=
    (Nat.div_le_self _ _).trans (by omega)
  have hone : (1#32).toNat = 1 := rfl
  have hblock : (mhoffs.sdiv unitsize+1#32).toNat =
      (2^32-(2^32-mhoffs.toNat)/unitsize.toNat+1)%2^32 := by
    rw [BitVec.toNat_add, hsdiv, hone, Nat.mod_eq_of_lt (show 2^32-(2^32-mhoffs.toNat)/unitsize.toNat <
      2^32 by omega)]
  change mhoffs.toNat/unitsize.toNat+1 ≤ (mhoffs.sdiv unitsize+1#32).toNat at hlo
  change (mhoffs.sdiv unitsize+1#32).toNat ≤ d.size.toNat/unitsize.toNat at hhi
  have hlo1 := (Nat.le_add_left 1 _).trans hlo
  rw [hblock] at hlo1 hhi
  by_contra hne
  have h2 : 2 ≤ unitsize.toNat := by
    by_contra hlt
    exact hne (BitVec.eq_of_toNat_eq (show unitsize.toNat = (1#32).toNat by omega))
  -- half of the words are too few to come around to the device
  have hxle' : (2^32-mhoffs.toNat)/unitsize.toNat ≤ 2^31/2 :=
    (Nat.div_le_div_right (by omega)).trans (Nat.div_le_div_left h2 (by decide))
  have htot : d.size.toNat/unitsize.toNat ≤ (2^32-1)/2 :=
    (Nat.div_le_div_right (by omega)).trans (Nat.div_le_div_left h2 (by decide))
  omega

theorem block_toNat (hin : mhoffs.toNat+unitsize.toNat ≤ d.size.toNat)
    (hrange : mhoffs.toNat < 2^31 ∨ unitsize = 1#32) :
    (mhoffs.sdiv unitsize+1).toNat = mhoffs.toNat/unitsize.toNat+1 := by
  have hsize := d.size.isLt
  have hone : (1#32).toNat = 1 := rfl
  change (mhoffs.sdiv unitsize+1#32).toNat = _
  rcases hrange with hlt | rfl
  · have hle : mhoffs.toNat/unitsize.toNat ≤ mhoffs.toNat := Nat.div_le_self _ _
    rw [BitVec.toNat_add, sdiv_toNat hlt (by omega), hone, Nat.mod_eq_of_lt (by omega)]
  · rw [BitVec.toNat_add, BitVec.sdiv_one, hone, Nat.div_one, Nat.mod_eq_of_lt (by omega)]

/-- Of the counts of one to four, the host of the other byte order reads none as it is. -/
theorem count_little {k : ℕ} (h1 : 1 ≤ k) (h4 : k ≤ 4)
    (h : k = (le32_to_cpu host (BitVec.ofNat 32 k)).toNat+(le32_to_cpu host 0#32).toNat) :
    host = .little := by
  cases host with
  | little => rfl
  | big => interval_cases k <;> exact absurd h (by decide)

/-- The new header is consistent exactly where the sizes, counted without a limit, fit behind the
header, on a host that stores the number of partitions as the header needs it. -/
theorem propose_approved_iff {p : Proposal} (h : propose host d args = .ok p) :
    Approved host d p ↔ host = .little ∧ Room host d args := by
  obtain ⟨sizes, mhoffs, mh, unitsize, hsizes, hfind, hunit, hne, hlen, rfl, -⟩ := propose_ok h
  obtain ⟨hz, -, hmap⟩ := readSizes_ok hsizes
  obtain ⟨hpos, hle⟩ := unitSize_some hunit
  have hin := findHeader_inside hfind
  have hinu : mhoffs.toNat+unitsize.toNat ≤ d.size.toNat := by omega
  have htot : (d.size/unitsize).toNat = d.size.toNat/unitsize.toNat := BitVec.toNat_udiv
  have hlt := (d.size/unitsize).isLt
  have hlen' : sizes.length ≤ mh.Partitions.length := by rw [mh.four]; exact hlen
  have hnpart := List.length_pos_iff.mpr hne
  obtain ⟨new, hnew, hparts, hbits, hbinary, hbdtl⟩ : ∃ new,
      (setHeader host (d.size/unitsize) (mhoffs.sdiv unitsize+1) sizes mh).1 = new ∧
      new.Partitions = markedPartitions host (d.size/unitsize) (mhoffs.sdiv unitsize+1) sizes
        mh.Partitions ∧
      new.BlockMultiplierBits = mh.BlockMultiplierBits ∧
      new.NoOfBinaryPartitions = BitVec.ofNat 32 sizes.length ∧
      new.NoOfBDTLPartitions = 0#32 := ⟨_, rfl, rfl, rfl, rfl, rfl⟩
  have hlisted := @listed_length host (d.size/unitsize) (mhoffs.sdiv unitsize+1) sizes
    mh.Partitions hne hlen'
  rw [hnew, room_iff hfind hunit, ← hmap, ← htot]
  rw [← hparts] at hlisted
  rw [← hbits] at hunit
  constructor
  · rintro ⟨⟨lines, hshow, hclean⟩, -, hcount, unitsize', hunit', horder⟩
    obtain rfl := Option.some.inj (hunit.symm.trans hunit')
    rw [hlisted, hbinary, hbdtl] at hcount
    dsimp only at horder hshow
    rw [← htot, hparts] at horder
    obtain ⟨hlo, hhi⟩ := sum_of_inOrder hne hlen' hlt horder
    refine ⟨count_little hnpart hlen hcount, ?_⟩
    by_cases hneg : mhoffs.toNat < 2^31
    · have hblock := block_toNat hinu (Or.inl hneg)
      by_cases hfull : (mhoffs.sdiv unitsize+1).toNat < 2^31
      · exact ⟨by omega, Or.inl ⟨hneg, units_lt_of_checked hunit hshow hclean hfull⟩⟩
      · -- the quotient is the largest `int`, so it is the offset itself
        have hself : mhoffs.toNat/unitsize.toNat = mhoffs.toNat := by
          have := Nat.div_le_self mhoffs.toNat unitsize.toNat
          omega
        have hone : unitsize.toNat = (1#32).toNat := by
          have hmul := Nat.div_mul_le_self mhoffs.toNat unitsize.toNat
          rw [hself] at hmul
          have hle1 : mhoffs.toNat*unitsize.toNat ≤ mhoffs.toNat*1 := by
            rw [Nat.mul_one]
            exact hmul
          exact le_antisymm (Nat.le_of_mul_le_mul_left hle1 (by omega)) hpos
        exact ⟨by omega, Or.inr ⟨by omega, BitVec.eq_of_toNat_eq hone⟩⟩
    · have hone := unitsize_of_order hinu hpos (by omega) hlo (by omega)
      have hblock := block_toNat hinu (Or.inr hone)
      exact ⟨by omega, Or.inr ⟨by omega, hone⟩⟩
  · rintro ⟨rfl, hroom, hrange⟩
    have hblock := block_toNat hinu (hrange.imp And.left And.right)
    have hhalf : (d.size/unitsize).toNat < 2^31 ∨ 2^31 ≤ (mhoffs.sdiv unitsize+1).toNat := by
      rcases hrange with ⟨-, hint⟩ | ⟨hint, rfl⟩
      · exact Or.inl hint
      · refine Or.inr ?_
        rw [hblock, show (1#32).toNat = 1 from rfl, Nat.div_one]
        exact hint
    rw [← hblock] at hroom
    obtain ⟨rows, next, hrows, hclean, hlo, hhi⟩ := @showPartitions_clean .little
      (d.size/unitsize) (mhoffs.sdiv unitsize+1) sizes 0 mh.Partitions unitsize hne hlen' hz hroom
      hhalf
    rw [← hparts] at hrows
    refine ⟨?_, ?_, ?_, unitsize, hunit, ?_⟩
    · apply showHeader_clean hunit hrows hclean (by omega)
      · rw [hbinary, hbdtl, show 0+(sizes.length-1)+1 = sizes.length by omega]
        exact (BitVec.add_zero _).symm
      · have hslt := @slt_of_half (d.size/unitsize) next (by omega)
        rw [hslt]
        exact decide_eq_false (by omega)
    · dsimp only
      rw [hparts]
      exact exists_marked hne hlen'
    · dsimp only
      rw [hlisted, hbinary, hbdtl]
      change _ = (BitVec.ofNat 32 sizes.length).toNat+(0#32).toNat
      rw [BitVec.toNat_ofNat, Nat.mod_eq_of_lt (by omega)]
      rfl
    · dsimp only
      rw [← htot, hparts]
      have hfirst : 1 ≤ (mhoffs.sdiv unitsize+1).toNat := by
        rw [hblock]
        exact Nat.le_add_left 1 _
      exact inOrder_of_sum hne hlen' hz hfirst (le_of_eq hblock.symm) hroom

end Verdict

section Small

/-- A partition that nothing is known of. -/
def blankPartition : INFTLPartition := ⟨0#32, 0#32, 0#32, 0#32, 0#32⟩

/-- A header for units of the size of the erase blocks. -/
def smallHeader : INFTLMediaHeader where
  bootRecordID := [0x42#8, 0x4e#8, 0x41#8, 0x4e#8, 0x44#8, 0#8, 0#8, 0#8]
  NoOfBootImageBlocks := 0#32
  NoOfBinaryPartitions := 1#32
  NoOfBDTLPartitions := 0#32
  BlockMultiplierBits := 0#32
  FormatFlags := 0#32
  OsakVersion := 0x5120#32
  PercentUsed := 98#32
  Partitions := [blankPartition, blankPartition, blankPartition, blankPartition]
  four := rfl

/-- A device of 64 erase blocks, with the header in the first one. -/
def smallDevice : Device where
  size := 0x100000#32
  erasesize := 0x4000#32
  pread := fun offset => if offset = 0#32 then .full smallHeader else .short
  inside := by
    intro offset mh h
    split at h
    next hzero =>
      rw [hzero]
      decide
    next => cases h

/-- Ten units, and the rest of the device. -/
def smallSizes : List (List Byte) := [[0x31#8, 0x30#8], [0x30#8]]

/-- A hundred units, and what is left of a device of 64. -/
def overlongSizes : List (List Byte) := [[0x31#8, 0x30#8, 0x30#8], [0x30#8]]

theorem propose_approved_small : ∃ p, propose .little smallDevice smallSizes = .ok p ∧
    Approved .little smallDevice p := by
  refine ⟨_, rfl, ?_⟩
  rw [@propose_approved_iff _ _ smallSizes _ rfl]
  exact ⟨rfl, 0#32, smallHeader, 0x4000#32, rfl, rfl, by decide, Or.inl (by decide)⟩

/-- The rest of the device is counted backwards, and the test at the end does not see it. -/
theorem propose_overlong : ∃ p, propose .little smallDevice overlongSizes = .ok p ∧
    ¬Approved .little smallDevice p := by
  refine ⟨_, rfl, fun h => ?_⟩
  obtain ⟨lines, hshow, hclean⟩ := h.checked
  apply hclean .beyond _ trivial
  rw [← Option.some.inj hshow]
  decide

end Small

end ChipTools.Docfdisk
