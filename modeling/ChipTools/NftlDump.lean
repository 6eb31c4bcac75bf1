import ChipTools.Docfdisk
import ChipTools.LinkWalk
import ChipTools.Loop

/-! `nftldump`: the unit control information of a partition is read into tables, and the chain of
each virtual unit is followed through them. -/
namespace ChipTools.Nftl
open Bytes Loop Docfdisk LinkWalk

def MAX_ERASE_ZONES : ℕ := 8192-512
def ERASESIZE : ℕ := 0x2000
def NUMVUNITS : ℕ := 40*1024*1024/ERASESIZE
def ERASE_MARK : BitVec 16 := 0x3c69
def SECTOR_FREE : Byte := 0xff
def SECTOR_USED : Byte := 0x55
def ZONE_BAD_ORIGINAL : Byte := 0
def ZONE_BAD_MARKED : Byte := 7

section Tables

/-- `struct NFTLMediaHeader`, with its numbers in host order. -/
structure NFTLMediaHeader where
  NumEraseUnits : BitVec 16
  FirstPhysicalEUN : BitVec 16
  FormattedSize : BitVec 32

/-- The unit control information of a unit, from its first and its second sector. -/
structure UnitControl where
  VirtUnitNum : BitVec 16
  ReplUnitNum : BitVec 16
  EraseMark : BitVec 16

def swab16 (x : BitVec 16) : BitVec 16 := x <<< 8 ||| x >>> 8

def le16_to_cpu : Host → BitVec 16 → BitVec 16
  | .little, x => x
  | .big, x => swab16 x

/-- The swaps of a unit with the mark. -/
def UnitControl.swap (host : Host) (u : UnitControl) : UnitControl :=
  ⟨le16_to_cpu host u.VirtUnitNum, le16_to_cpu host u.ReplUnitNum, le16_to_cpu host u.EraseMark⟩

/-- A medium: the header that was found, the table behind it, what `oobbuf` holds after the reads for
a unit, and the status of a sector `j` of a unit when a virtual unit is written out. -/
structure Medium where
  host : Host
  erasesize : ℕ
  MedHead : NFTLMediaHeader
  BadUnitTable : ℕ → Byte
  oob : ℕ → UnitControl
  status : ℕ → ℕ → ℕ → Byte
  ofd : Bool
  pos : 0 < erasesize

/-- An access outside of a table, or a walk that is still under way. -/
inductive Fault
  | outside
  | running

/-- An access to the place `i` of a table. -/
def access {α : Type} (size : ℕ) (t : ℕ → α) (i : ℕ) : Except Fault α :=
  if i < size then .ok (t i) else .error .outside

inductive Line
  | noMark (i : ℕ) (EraseMark : BitVec 16)
  | duplicate (vuc i old : ℕ)
  | badOriginal (i : ℕ)
  | badMarked (i : ℕ)
  | free (i : ℕ)
  | inChain (i chain : ℕ) (replacement : Bool)
  | notPresent (i : ℕ)
  | chain (i : ℕ) (units : List ℕ)
deriving DecidableEq

/-- The tables, what is printed, and the sectors that are written, each with the unit it is from. -/
structure State where
  UCItable : ℕ → UnitControl
  VUCtable : ℕ → ℕ
  out : List Line
  written : List (ℕ × ℕ)

def State.print (s : State) (l : Line) : State := { s with out := s.out ++ [l] }

end Tables

section Dump

variable (d : Medium)

/-- The lines that end a pass of `dump_erase_units`. -/
def unitLine (i : ℕ) (zone : Byte) (u : UnitControl) : Line :=
  if zone = ZONE_BAD_ORIGINAL then .badOriginal i
  else if zone = ZONE_BAD_MARKED then .badMarked i
  else if u.VirtUnitNum = 0xffff then .free i
  else .inChain i (u.VirtUnitNum &&& 0x7fff).toNat (u.VirtUnitNum &&& 0x8000 ≠ 0)

/-- A properly formatted unit that is the first in a chain goes to the table of the chains. -/
def startChain (i : ℕ) (u : UnitControl) (s : State) : Except Fault State := do
  let v := (u.VirtUnitNum &&& 0x7fff).toNat
  let old ← access d.MedHead.NumEraseUnits.toNat s.VUCtable v
  let s := if old ≠ 0 then s.print (.duplicate v i old) else s
  .ok { s with VUCtable := Function.update s.VUCtable v (i%2^16) }

/-- The table entry of one unit. -/
def readUnit (i : ℕ) (s : State) : Except Fault State := do
  let _ ← access NUMVUNITS s.UCItable i
  let u := d.oob i
  if u.EraseMark ≠ le16_to_cpu d.host ERASE_MARK then
    .ok ({ s with UCItable := Function.update s.UCItable i u }.print (.noMark i u.EraseMark))
  else
    let u := u.swap d.host
    let s := { s with UCItable := Function.update s.UCItable i u }
    if u.VirtUnitNum &&& 0x8000 = 0 then startChain d i u s else .ok s

/-- A pass of `dump_erase_units`. -/
def dumpEraseUnit (i : ℕ) (s : State) : Except Fault State := do
  let s ← readUnit d i s
  let zone ← access MAX_ERASE_ZONES d.BadUnitTable i
  .ok (s.print (unitLine i zone (s.UCItable i)))

def dumpEraseUnits (s : State) : Except Fault State :=
  forRange (dumpEraseUnit d) d.MedHead.NumEraseUnits.toNat d.MedHead.FirstPhysicalEUN.toNat s

def nextEUN (UCItable : ℕ → UnitControl) (curEUN : ℕ) : Except Fault ℕ := do
  let u ← access NUMVUNITS UCItable curEUN
  .ok u.ReplUnitNum.toNat

/-- The walk through a chain that prints its units. -/
def walk (UCItable : ℕ → UnitControl) : ℕ → ℕ → Except Fault (List ℕ)
  | 0, _ => .error .running
  | fuel+1, curEUN => do
    let curEUN ← nextEUN UCItable curEUN
    if curEUN = 0xffff then .ok []
    else
      let rest ← walk UCItable fuel curEUN
      .ok ((curEUN &&& 0x7fff) :: rest)

/-- The walk through a chain that looks for the last good copy of a sector. -/
def sectorWalk (UCItable : ℕ → UnitControl) (status : ℕ → Byte) :
    ℕ → ℕ → ℕ → Except Fault ℕ
  | 0, _, _ => .error .running
  | fuel+1, thisEUN, lastgoodEUN =>
    if thisEUN ≠ 0 ∧ thisEUN &&& 0x7fff ≠ 0x7fff then
      if status thisEUN = SECTOR_FREE then sectorWalk UCItable status fuel 0 lastgoodEUN
      else
        let lastgoodEUN := if status thisEUN = SECTOR_USED then thisEUN else lastgoodEUN
        do
          let next ← nextEUN UCItable thisEUN
          sectorWalk UCItable status fuel (next &&& 0x7fff) lastgoodEUN
    else .ok lastgoodEUN

/-- A sector of a virtual unit is written out. -/
def writeSector (fuel i j : ℕ) (s : State) : Except Fault State := do
  let thisEUN ← access d.MedHead.NumEraseUnits.toNat s.VUCtable i
  let thisEUN := if thisEUN = 0xffff then 0 else thisEUN
  let lastgoodEUN ← sectorWalk s.UCItable (d.status i j) fuel thisEUN 0xffff
  .ok { s with written := s.written ++ [(j, lastgoodEUN)] }

/-- A pass of `dump_virtual_units`. -/
def dumpVirtualUnit (fuel i : ℕ) (s : State) : Except Fault State := do
  let curEUN ← access d.MedHead.NumEraseUnits.toNat s.VUCtable i
  if curEUN = 0 then .ok (s.print (.notPresent i))
  else
    let units ← walk s.UCItable fuel curEUN
    let s := s.print (.chain i (curEUN :: units))
    if d.ofd then forRange (fun j => writeSector d fuel i j) (d.erasesize/512) 0 s else .ok s

def dumpVirtualUnits (fuel : ℕ) (s : State) : Except Fault State :=
  forRange (dumpVirtualUnit d fuel) (d.MedHead.FormattedSize.toNat/d.erasesize) 0 s

/-- Both functions, with the table of the units as it was left before. -/
def dump (before : ℕ → UnitControl) (fuel : ℕ) : Except Fault State := do
  let s ← dumpEraseUnits d ⟨before, fun _ => 0, [], []⟩
  dumpVirtualUnits d fuel s

end Dump

section Medium

variable (d : Medium)

/-- The units of the partition. -/
def Medium.InRange (i : ℕ) : Prop :=
  d.MedHead.FirstPhysicalEUN.toNat ≤ i ∧
    i < d.MedHead.FirstPhysicalEUN.toNat+d.MedHead.NumEraseUnits.toNat

instance (i : ℕ) : Decidable (d.InRange i) := inferInstanceAs (Decidable (_ ∧ _))

/-- A properly formatted unit. -/
def Medium.Marked (i : ℕ) : Prop := (d.oob i).EraseMark = le16_to_cpu d.host ERASE_MARK

instance (i : ℕ) : Decidable (d.Marked i) := inferInstanceAs (Decidable (_ = _))

/-- The entry of a unit in the table. -/
def Medium.unit (i : ℕ) : UnitControl := if d.Marked i then (d.oob i).swap d.host else d.oob i

/-- A unit that is the first in a chain, and the number of the chain. -/
def Medium.Heads (i : ℕ) : Prop := d.Marked i ∧ (d.unit i).VirtUnitNum &&& 0x8000 = 0

instance (i : ℕ) : Decidable (d.Heads i) := inferInstanceAs (Decidable (_ ∧ _))

def Medium.chainOf (i : ℕ) : ℕ := ((d.unit i).VirtUnitNum &&& 0x7fff).toNat

/-- The last one of the units below `k` that are the first in the chain `v`. -/
structure Medium.Starts (k v c : ℕ) : Prop where
  ge : d.MedHead.FirstPhysicalEUN.toNat ≤ c
  lt : c < k
  heads : d.Heads c
  chain : d.chainOf c = v
  last : ∀ i, c < i → i < k → d.Heads i → d.chainOf i ≠ v

/-- The table of the units, of which those outside of the partition are as they were. -/
def Medium.table (before : ℕ → UnitControl) (i : ℕ) : UnitControl :=
  if d.InRange i then d.unit i else before i

/-- The unit behind a unit in its chain. -/
def Medium.link (before : ℕ → UnitControl) (i : ℕ) : ℕ := (d.table before i).ReplUnitNum.toNat

/-- What a header and the units must be like: the partition fits into the table of the units, the
chains have numbers below the number of units, the formatted size is not larger than the partition,
and no chain leads out of the table or to a unit twice. -/
structure Medium.Sane (before : ℕ → UnitControl) : Prop where
  units : ∀ i, d.InRange i → i < NUMVUNITS
  heads : ∀ i, d.InRange i → d.Heads i → d.chainOf i < d.MedHead.NumEraseUnits.toNat
  size : d.MedHead.FormattedSize.toNat/d.erasesize ≤ d.MedHead.NumEraseUnits.toNat
  chains : ∀ v < d.MedHead.FormattedSize.toNat/d.erasesize, ∀ c, c ≠ 0 →
    d.Starts (d.MedHead.FirstPhysicalEUN.toNat+d.MedHead.NumEraseUnits.toNat) v c →
    Linear (d.link before) 0xffff (Finset.range NUMVUNITS) c

end Medium

section EraseUnits

variable {d : Medium} {i k : ℕ} {s s' : State}

theorem access_ok {α : Type} {size : ℕ} {t : ℕ → α} (h : i < size) : access size t i = .ok (t i) :=
  if_pos h

theorem access_error {α : Type} {size : ℕ} {t : ℕ → α} (h : ¬i < size) :
    access size t i = .error .outside := if_neg h

/-- What a pass of `dump_erase_units` puts into the tables. -/
structure Entered (d : Medium) (i : ℕ) (s s' : State) : Prop where
  unit : s'.UCItable = Function.update s.UCItable i (d.unit i)
  starts : d.Heads i → s'.VUCtable = Function.update s.VUCtable (d.chainOf i) (i%2^16)
  same : ¬d.Heads i → s'.VUCtable = s.VUCtable

/-- A unit that goes into the tables. -/
def Enters (d : Medium) (i : ℕ) : Prop :=
  i < NUMVUNITS ∧ (d.Heads i → d.chainOf i < d.MedHead.NumEraseUnits.toNat)

theorem Entered.print (h : Entered d i s s') (l : Line) : Entered d i s (s'.print l) :=
  ⟨h.unit, h.starts, h.same⟩

theorem readUnit_entered (h : Enters d i) (s : State) :
    ∃ s', readUnit d i s = .ok s' ∧ Entered d i s s' := by
  obtain ⟨hi, hv⟩ := h
  unfold readUnit
  rw [access_ok hi, ok_bind]
  by_cases hmark : d.Marked i
  · have hunit : (d.oob i).swap d.host = d.unit i := (if_pos hmark).symm
    have hsame : ¬(d.oob i).EraseMark ≠ le16_to_cpu d.host ERASE_MARK := not_not.mpr hmark
    dsimp only
    rw [if_neg hsame, hunit]
    by_cases hfirst : (d.unit i).VirtUnitNum &&& 0x8000 = 0
    · have hheads : d.Heads i := ⟨hmark, hfirst⟩
      rw [if_pos hfirst]
      unfold startChain
      dsimp only
      rw [access_ok (show ((d.unit i).VirtUnitNum &&& 0x7fff).toNat < _ from hv hheads), ok_bind]
      refine ⟨_, rfl, ?_⟩
      -- the line about a duplicate changes no table
      split <;> exact ⟨rfl, fun _ => rfl, fun hnot => absurd hheads hnot⟩
    · have hheads : ¬d.Heads i := fun h => hfirst h.2
      rw [if_neg hfirst]
      exact ⟨_, rfl, rfl, fun h => absurd h hheads, fun _ => rfl⟩
  · have hunit : d.oob i = d.unit i := (if_neg hmark).symm
    have hheads : ¬d.Heads i := fun h => hmark h.1
    have hother : (d.oob i).EraseMark ≠ le16_to_cpu d.host ERASE_MARK := hmark
    dsimp only
    rw [if_pos hother, hunit]
    exact ⟨_, rfl, rfl, fun h => absurd h hheads, fun _ => rfl⟩

theorem readUnit_error (h : ¬Enters d i) (s : State) : readUnit d i s = .error .outside := by
  unfold readUnit
  by_cases hi : i < NUMVUNITS
  · have hv : ¬(d.Heads i → d.chainOf i < d.MedHead.NumEraseUnits.toNat) := fun hv => h ⟨hi, hv⟩
    obtain ⟨⟨hmark, hfirst⟩, hlarge⟩ := Classical.not_imp.mp hv
    have hunit : (d.oob i).swap d.host = d.unit i := (if_pos hmark).symm
    have hsame : ¬(d.oob i).EraseMark ≠ le16_to_cpu d.host ERASE_MARK := not_not.mpr hmark
    rw [access_ok hi, ok_bind]
    dsimp only
    rw [if_neg hsame, hunit, if_pos hfirst]
    unfold startChain
    dsimp only
    rw [access_error (show ¬((d.unit i).VirtUnitNum &&& 0x7fff).toNat < _ from hlarge)]
    rfl
  · rw [access_error hi]
    rfl

theorem dumpEraseUnit_entered (h : Enters d i) (s : State) :
    ∃ s', dumpEraseUnit d i s = .ok s' ∧ Entered d i s s' := by
  obtain ⟨s', hread, hentered⟩ := readUnit_entered h s
  have hzone : i < MAX_ERASE_ZONES := lt_trans h.1 (by decide)
  unfold dumpEraseUnit
  rw [hread, ok_bind, access_ok hzone, ok_bind]
  exact ⟨_, rfl, hentered.print _⟩

theorem dumpEraseUnit_ok_iff (i : ℕ) (s : State) :
    (∃ s', dumpEraseUnit d i s = .ok s') ↔ Enters d i := by
  constructor
  · rintro ⟨s', hrun⟩
    by_contra hnot
    unfold dumpEraseUnit at hrun
    rw [readUnit_error hnot] at hrun
    cases hrun
  · intro h
    obtain ⟨s', hrun, -⟩ := dumpEraseUnit_entered h s
    exact ⟨s', hrun⟩

/-- The tables when the units below `k` are read. -/
structure Read (d : Medium) (before : ℕ → UnitControl) (k : ℕ) (s : State) : Prop where
  units : ∀ i, s.UCItable i =
    if d.MedHead.FirstPhysicalEUN.toNat ≤ i ∧ i < k then d.unit i else before i
  starts : ∀ v c, d.Starts k v c → s.VUCtable v = c
  none : ∀ v, (∀ c, ¬d.Starts k v c) → s.VUCtable v = 0

theorem Medium.Starts.succ {v c : ℕ} (h : d.Starts k v c) (hk : d.Heads k → d.chainOf k ≠ v) :
    d.Starts (k+1) v c := by
  refine ⟨h.ge, Nat.lt_succ_of_lt h.lt, h.heads, h.chain, fun i hci hik hi => ?_⟩
  rcases Nat.eq_or_lt_of_le (Nat.lt_succ_iff.mp hik) with rfl | hik
  · exact hk hi
  · exact h.last i hci hik hi

theorem Medium.Starts.pred {v c : ℕ} (h : d.Starts (k+1) v c) (hk : d.Heads k → d.chainOf k ≠ v) :
    d.Starts k v c := by
  have hne : c ≠ k := by
    rintro rfl
    exact hk h.heads h.chain
  exact ⟨h.ge, lt_of_le_of_ne (Nat.lt_succ_iff.mp h.lt) hne, h.heads, h.chain,
    fun i hci hik => h.last i hci (Nat.lt_succ_of_lt hik)⟩

/-- A unit more. -/
theorem Read.next {before : ℕ → UnitControl} (h : Read d before k s)
    (hfirst : d.MedHead.FirstPhysicalEUN.toNat ≤ k) (hk : k < NUMVUNITS) (he : Entered d k s s') :
    Read d before (k+1) s' := by
  have hsmall : k%2^16 = k := Nat.mod_eq_of_lt (lt_trans hk (by decide))
  refine ⟨fun i => ?_, fun v c hc => ?_, fun v hnone => ?_⟩
  · rw [he.unit]
    by_cases hi : i = k
    · subst hi
      rw [Function.update_self, if_pos ⟨hfirst, Nat.lt_succ_self i⟩]
    · rw [Function.update_of_ne hi, h.units]
      by_cases hin : d.MedHead.FirstPhysicalEUN.toNat ≤ i ∧ i < k
      · rw [if_pos hin, if_pos ⟨hin.1, Nat.lt_succ_of_lt hin.2⟩]
      · rw [if_neg hin, if_neg fun h' => hin ⟨h'.1, by omega⟩]
  · by_cases hheads : d.Heads k
    · rw [he.starts hheads]
      by_cases hv : v = d.chainOf k
      · -- the unit itself is the last one of the chain
        rw [hv, Function.update_self, hsmall]
        by_contra hne
        exact hc.last k (lt_of_le_of_ne (Nat.lt_succ_iff.mp hc.lt) (Ne.symm hne))
          (Nat.lt_succ_self k) hheads hv.symm
      · rw [Function.update_of_ne hv]
        exact h.starts v c (hc.pred fun _ => Ne.symm hv)
    · rw [he.same hheads]
      exact h.starts v c (hc.pred fun hh => absurd hh hheads)
  · by_cases hheads : d.Heads k
    · rw [he.starts hheads]
      by_cases hv : v = d.chainOf k
      · exact absurd ⟨hfirst, Nat.lt_succ_self k, hheads, hv.symm, fun i h1 h2 => by omega⟩ (hnone k)
      · rw [Function.update_of_ne hv]
        exact h.none v fun c hc => hnone c (hc.succ fun _ => Ne.symm hv)
    · rw [he.same hheads]
      exact h.none v fun c hc => hnone c (hc.succ fun hh => absurd hh hheads)

/-- The tables that `dump_erase_units` leaves. -/
theorem dumpEraseUnits_read {before : ℕ → UnitControl}
    (hrun : dumpEraseUnits d ⟨before, fun _ => 0, [], []⟩ = .ok s) :
    Read d before (d.MedHead.FirstPhysicalEUN.toNat+d.MedHead.NumEraseUnits.toNat) s := by
  refine forRange_inv (P := Read d before) (fun j t t' hj _ ht hstep => ?_) ?_ hrun
  · have henters := (dumpEraseUnit_ok_iff j t).mp ⟨t', hstep⟩
    obtain ⟨t'', hstep', hentered⟩ := dumpEraseUnit_entered henters t
    obtain rfl := Except.ok.inj (hstep.symm.trans hstep')
    exact ht.next hj henters.1 hentered
  · refine ⟨fun i => ?_, fun v c hc => ?_, fun v _ => rfl⟩
    · rw [if_neg fun h => by omega]
    · exact absurd hc.ge (Nat.not_le.mpr hc.lt)

theorem dumpEraseUnits_ok_iff (s : State) :
    (∃ s', dumpEraseUnits d s = .ok s') ↔ ∀ i, d.InRange i → Enters d i := by
  unfold dumpEraseUnits
  rw [forRange_ok_iff (P := fun _ => True) (fun j t _ => dumpEraseUnit_ok_iff j t)
    (fun _ _ _ _ _ => trivial) trivial]
  exact ⟨fun h i hi => h i hi.1 hi.2, fun h i h1 h2 => h i ⟨h1, h2⟩⟩

end EraseUnits

section VirtualUnits

variable {d : Medium} {T : ℕ → UnitControl} {c k fuel : ℕ} {s s' : State}

/-- The unit behind a unit in a table. -/
def replUnit (T : ℕ → UnitControl) (i : ℕ) : ℕ := (T i).ReplUnitNum.toNat

theorem nextEUN_ok (h : c ∈ Finset.range NUMVUNITS) : nextEUN T c = .ok (replUnit T c) := by
  unfold nextEUN
  rw [access_ok (Finset.mem_range.mp h)]
  rfl

theorem nextEUN_error (h : c ∉ Finset.range NUMVUNITS) : nextEUN T c = .error .outside := by
  unfold nextEUN
  rw [access_error fun hlt => h (Finset.mem_range.mpr hlt)]
  rfl

theorem ne_mark (h : c ∈ Finset.range NUMVUNITS) : c ≠ 0xffff := by
  rintro rfl
  exact absurd (Finset.mem_range.mp h) (by decide)

/-- The chain of a unit in the table, as it is printed, where it ends. -/
theorem walk_ok (h : EndsAt (replUnit T) 0xffff (Finset.range NUMVUNITS) c (k+1)) (hk : k < fuel) :
    ∃ l, walk T fuel c = .ok l := by
  induction k generalizing c fuel with
  | zero =>
    obtain ⟨fuel, rfl⟩ := Nat.exists_eq_add_of_lt hk
    have hlast : replUnit T c = 0xffff := h.last
    rw [Nat.zero_add, walk, nextEUN_ok h.mem, ok_bind, if_pos hlast]
    exact ⟨_, rfl⟩
  | succ k ih =>
    obtain ⟨fuel, rfl⟩ : ∃ n, fuel = n+1 := ⟨fuel-1, by omega⟩
    have hmore : replUnit T c ≠ 0xffff := h.alive 1 (by omega)
    obtain ⟨l, hl⟩ := ih h.next (Nat.lt_of_succ_lt_succ hk)
    rw [walk, nextEUN_ok h.mem, ok_bind, if_neg hmore, hl, ok_bind]
    exact ⟨_, rfl⟩

/-- A walk that comes to its end was in the table up to there. -/
theorem endsAt_of_walk {l : List ℕ} (h : walk T fuel c = .ok l) :
    ∃ k, EndsAt (replUnit T) 0xffff (Finset.range NUMVUNITS) c (k+1) := by
  induction fuel generalizing c l with
  | zero => cases h
  | succ fuel ih =>
    rw [walk] at h
    by_cases hin : c ∈ Finset.range NUMVUNITS
    · rw [nextEUN_ok hin, ok_bind] at h
      by_cases hlast : replUnit T c = 0xffff
      · have hzero : EndsAt (replUnit T) 0xffff (Finset.range NUMVUNITS) (replUnit T c) 0 :=
          ⟨hlast, fun j hj => absurd hj (Nat.not_lt_zero j), fun j hj => absurd hj (Nat.not_lt_zero j)⟩
        exact ⟨0, hzero.cons hin (ne_mark hin)⟩
      · rw [if_neg hlast] at h
        obtain ⟨rest, hrest, -⟩ := bind_eq_ok h
        obtain ⟨k, hk⟩ := ih hrest
        exact ⟨k+1, hk.cons hin (ne_mark hin)⟩
    · rw [nextEUN_error hin] at h
      cases h

/-- Exactly the lists without an end, or with a place outside of the table, are not walked through. -/
theorem walk_ok_iff (hfuel : NUMVUNITS < fuel) :
    (∃ l, walk T fuel c = .ok l) ↔ Linear (replUnit T) 0xffff (Finset.range NUMVUNITS) c ∧
      c ≠ 0xffff := by
  constructor
  · rintro ⟨l, hl⟩
    obtain ⟨k, hk⟩ := endsAt_of_walk hl
    exact ⟨hk.linear, ne_mark hk.mem⟩
  · rintro ⟨hlinear, hne⟩
    obtain ⟨k, hle, hk⟩ := hlinear.endsAt
    rw [Finset.card_range] at hle
    cases k with
    | zero => exact absurd hk.last hne
    | succ k => exact walk_ok hk (by omega)

theorem mask_eq {x : ℕ} (h : x ∈ Finset.range NUMVUNITS) : x &&& 0x7fff = x := by
  rw [show (0x7fff : ℕ) = 2^15-1 from rfl, Nat.and_two_pow_sub_one_eq_mod]
  exact Nat.mod_eq_of_lt (lt_trans (Finset.mem_range.mp h) (by decide))

theorem sectorWalk_stop {status : ℕ → Byte} {thisEUN last : ℕ} (hfuel : 0 < fuel)
    (h : thisEUN = 0 ∨ thisEUN = 0x7fff) : sectorWalk T status fuel thisEUN last = .ok last := by
  obtain ⟨fuel, rfl⟩ := Nat.exists_eq_add_of_lt hfuel
  rw [Nat.zero_add, sectorWalk, if_neg]
  rintro ⟨h0, h1⟩
  rcases h with rfl | rfl
  · exact h0 rfl
  · exact h1 rfl

/-- The walk for a sector ends where the chain ends, if not before. -/
theorem sectorWalk_ok {status : ℕ → Byte}
    (h : EndsAt (replUnit T) 0xffff (Finset.range NUMVUNITS) c (k+1)) (hk : k+1 < fuel) (last : ℕ) :
    ∃ r, sectorWalk T status fuel c last = .ok r := by
  induction k generalizing c fuel last with
  | zero =>
    obtain ⟨fuel, rfl⟩ : ∃ n, fuel = n+1 := ⟨fuel-1, by omega⟩
    have hin := h.mem
    have hlast : replUnit T c = 0xffff := h.last
    rw [sectorWalk]
    split
    · split
      · exact ⟨_, sectorWalk_stop (by omega) (Or.inl rfl)⟩
      · dsimp only
        rw [nextEUN_ok hin, ok_bind, hlast]
        exact ⟨_, sectorWalk_stop (by omega) (Or.inr rfl)⟩
    · exact ⟨_, rfl⟩
  | succ k ih =>
    obtain ⟨fuel, rfl⟩ : ∃ n, fuel = n+1 := ⟨fuel-1, by omega⟩
    have hin := h.mem
    have hmask : replUnit T c &&& 0x7fff = replUnit T c := mask_eq h.next.mem
    rw [sectorWalk]
    split
    · split
      · exact ⟨_, sectorWalk_stop (by omega) (Or.inl rfl)⟩
      · dsimp only
        rw [nextEUN_ok hin, ok_bind, hmask]
        exact ih h.next (Nat.lt_of_succ_lt_succ hk) _
    · exact ⟨_, rfl⟩

/-- What a sector that is written out leaves as it is. -/
theorem writeSector_ok {i j : ℕ} (hi : i < d.MedHead.NumEraseUnits.toNat)
    (h : EndsAt (replUnit s.UCItable) 0xffff (Finset.range NUMVUNITS) (s.VUCtable i) (k+1))
    (hk : k+1 < fuel) : ∃ s', writeSector d fuel i j s = .ok s' ∧ s'.UCItable = s.UCItable ∧
      s'.VUCtable = s.VUCtable := by
  have hne : s.VUCtable i ≠ 0xffff := ne_mark h.mem
  obtain ⟨r, hr⟩ := @sectorWalk_ok _ _ _ _ (d.status i j) h hk 0xffff
  unfold writeSector
  rw [access_ok hi, ok_bind]
  dsimp only
  rw [if_neg hne, hr, ok_bind]
  exact ⟨_, rfl, rfl, rfl⟩

/-- The tables are not changed any more. -/
structure SameTables (s s' : State) : Prop where
  units : s'.UCItable = s.UCItable
  starts : s'.VUCtable = s.VUCtable

/-- A virtual unit that can be dumped. -/
def Follows (d : Medium) (s : State) (i : ℕ) : Prop :=
  i < d.MedHead.NumEraseUnits.toNat ∧ (s.VUCtable i ≠ 0 →
    Linear (replUnit s.UCItable) 0xffff (Finset.range NUMVUNITS) (s.VUCtable i) ∧
      s.VUCtable i ≠ 0xffff)

theorem dumpVirtualUnit_ok {i : ℕ} (h : Follows d s i) (hfuel : NUMVUNITS < fuel) :
    ∃ s', dumpVirtualUnit d fuel i s = .ok s' ∧ SameTables s s' := by
  obtain ⟨hi, hchain⟩ := h
  unfold dumpVirtualUnit
  rw [access_ok hi, ok_bind]
  by_cases hzero : s.VUCtable i = 0
  · rw [if_pos hzero]
    exact ⟨_, rfl, rfl, rfl⟩
  · obtain ⟨hlinear, hne⟩ := hchain hzero
    obtain ⟨l, hl⟩ := (walk_ok_iff (T := s.UCItable) hfuel).mpr ⟨hlinear, hne⟩
    rw [if_neg hzero, hl, ok_bind]
    dsimp only
    split
    · -- the sectors, with the same chain each
      obtain ⟨k, hle, hk⟩ := hlinear.endsAt
      rw [Finset.card_range] at hle
      cases k with
      | zero => exact absurd hk.last hne
      | succ k =>
        apply forRange_total (P := fun _ t => SameTables s t)
        · intro j t _ _ ht
          rw [← ht.units, ← ht.starts] at hk
          have hlt : k+1 < fuel := by omega
          obtain ⟨t', hrun, hu, hs⟩ := @writeSector_ok d k fuel t i j hi hk hlt
          exact ⟨t', hrun, hu.trans ht.units, hs.trans ht.starts⟩
        · exact ⟨rfl, rfl⟩
    · exact ⟨_, rfl, rfl, rfl⟩

theorem follows_of_ok {i : ℕ} (h : dumpVirtualUnit d fuel i s = .ok s') : Follows d s i := by
  unfold dumpVirtualUnit at h
  by_cases hi : i < d.MedHead.NumEraseUnits.toNat
  · rw [access_ok hi, ok_bind] at h
    refine ⟨hi, fun hzero => ?_⟩
    rw [if_neg hzero] at h
    obtain ⟨l, hl, -⟩ := bind_eq_ok h
    obtain ⟨k, hk⟩ := endsAt_of_walk hl
    exact ⟨hk.linear, ne_mark hk.mem⟩
  · rw [access_error hi] at h
    cases h

end VirtualUnits

section Total

variable {d : Medium} {before : ℕ → UnitControl} {s s' : State} {fuel : ℕ}

theorem writeSector_same {i j : ℕ} (h : writeSector d fuel i j s = .ok s') : SameTables s s' := by
  unfold writeSector at h
  obtain ⟨thisEUN, -, h⟩ := bind_eq_ok h
  obtain ⟨r, -, h⟩ := bind_eq_ok h
  obtain rfl := Except.ok.inj h
  exact ⟨rfl, rfl⟩

theorem dumpVirtualUnit_same {i : ℕ} (h : dumpVirtualUnit d fuel i s = .ok s') :
    SameTables s s' := by
  unfold dumpVirtualUnit at h
  obtain ⟨curEUN, -, h⟩ := bind_eq_ok h
  split at h
  · obtain rfl := Except.ok.inj h
    exact ⟨rfl, rfl⟩
  · obtain ⟨units, -, h⟩ := bind_eq_ok h
    dsimp only at h
    split at h
    · have hprint : SameTables s (s.print (.chain i (curEUN :: units))) := ⟨rfl, rfl⟩
      refine forRange_inv (P := fun _ t => SameTables s t) (fun j t t' _ _ ht hrun => ?_) hprint h
      have hsame := writeSector_same hrun
      exact ⟨hsame.units.trans ht.units, hsame.starts.trans ht.starts⟩
    · obtain rfl := Except.ok.inj h
      exact ⟨rfl, rfl⟩

theorem Follows.same {i : ℕ} (h : SameTables s s') : Follows d s' i ↔ Follows d s i := by
  unfold Follows
  rw [h.units, h.starts]

/-- In a run that comes to its end, all of the chains were followed to their ends. -/
theorem dumpVirtualUnits_follows (h : dumpVirtualUnits d fuel s = .ok s') :
    ∀ i < d.MedHead.FormattedSize.toNat/d.erasesize, Follows d s i := by
  have hall := forRange_inv (P := fun k t => SameTables s t ∧ ∀ i < k, Follows d s i)
    (fun k t t' _ _ ht hrun => by
      have hsame := dumpVirtualUnit_same hrun
      refine ⟨⟨hsame.units.trans ht.1.units, hsame.starts.trans ht.1.starts⟩, fun i hi => ?_⟩
      rcases Nat.eq_or_lt_of_le (Nat.lt_succ_iff.mp hi) with rfl | hi
      · exact (Follows.same ht.1).mp (follows_of_ok hrun)
      · exact ht.2 i hi) ⟨⟨rfl, rfl⟩, fun i hi => absurd hi (Nat.not_lt_zero i)⟩ h
  rw [Nat.zero_add] at hall
  exact hall.2

theorem dumpVirtualUnits_total (hfuel : NUMVUNITS < fuel)
    (h : ∀ i < d.MedHead.FormattedSize.toNat/d.erasesize, Follows d s i) :
    ∃ s', dumpVirtualUnits d fuel s = .ok s' := by
  obtain ⟨s', hrun, -⟩ := forRange_total (f := dumpVirtualUnit d fuel)
    (P := fun _ t => SameTables s t) (i := 0) (fun j t _ hj ht => by
      rw [Nat.zero_add] at hj
      obtain ⟨t', hrun, ht'⟩ := dumpVirtualUnit_ok ((Follows.same ht).mpr (h j hj)) hfuel
      exact ⟨t', hrun, ht'.units.trans ht.units, ht'.starts.trans ht.starts⟩) ⟨rfl, rfl⟩
  exact ⟨s', hrun⟩

theorem Read.units_eq
    (h : Read d before (d.MedHead.FirstPhysicalEUN.toNat+d.MedHead.NumEraseUnits.toNat) s) :
    s.UCItable = d.table before := by
  funext i
  rw [h.units]
  rfl

/-- The virtual units are followed through the tables of a sane medium, and of no other one. -/
theorem Read.follows_iff
    (h : Read d before (d.MedHead.FirstPhysicalEUN.toNat+d.MedHead.NumEraseUnits.toNat) s)
    (hunits : ∀ i, d.InRange i → i < NUMVUNITS) (v : ℕ) :
    Follows d s v ↔ v < d.MedHead.NumEraseUnits.toNat ∧ ∀ c, c ≠ 0 →
      d.Starts (d.MedHead.FirstPhysicalEUN.toNat+d.MedHead.NumEraseUnits.toNat) v c →
      Linear (d.link before) 0xffff (Finset.range NUMVUNITS) c := by
  have hlink : replUnit s.UCItable = d.link before := by
    rw [h.units_eq]
    rfl
  unfold Follows
  rw [hlink]
  refine and_congr_right fun _ => ⟨fun hfollow c hc hstart => ?_, fun hall hzero => ?_⟩
  · have heq := h.starts v c hstart
    rw [heq] at hfollow
    exact (hfollow hc).1
  · -- the table holds the last unit that is the first in this chain
    have hsome : ∃ c, d.Starts (d.MedHead.FirstPhysicalEUN.toNat+d.MedHead.NumEraseUnits.toNat) v c := by
      by_contra hnone
      exact hzero (h.none v fun c hc => hnone ⟨c, hc⟩)
    obtain ⟨c, hc⟩ := hsome
    have heq := h.starts v c hc
    rw [heq] at hzero ⊢
    exact ⟨hall c hzero hc, ne_mark (Finset.mem_range.mpr (hunits c ⟨hc.ge, hc.lt⟩))⟩

theorem dump_sane {fuel : ℕ} (h : dump d before fuel = .ok s') : d.Sane before := by
  obtain ⟨s, hread, hrun⟩ := bind_eq_ok h
  have henters := (dumpEraseUnits_ok_iff _).mp ⟨s, hread⟩
  have hunits (i : ℕ) (hi : d.InRange i) : i < NUMVUNITS := (henters i hi).1
  have hfollow := dumpVirtualUnits_follows hrun
  have hiff := (dumpEraseUnits_read hread).follows_iff hunits
  refine ⟨hunits, fun i hi => (henters i hi).2, ?_, fun v hv c hc hstart => ?_⟩
  · by_contra hmore
    exact absurd (hfollow _ (Nat.not_le.mp hmore)).1 (lt_irrefl _)
  · exact ((hiff v).mp (hfollow v hv)).2 c hc hstart

theorem Medium.Sane.dump (h : d.Sane before) (hfuel : NUMVUNITS < fuel) :
    ∃ s', dump d before fuel = .ok s' := by
  obtain ⟨s, hread⟩ := (dumpEraseUnits_ok_iff ⟨before, fun _ => 0, [], []⟩).mpr
    fun i hi => ⟨h.units i hi, h.heads i hi⟩
  have hiff := (dumpEraseUnits_read hread).follows_iff h.units
  obtain ⟨s', hrun⟩ := dumpVirtualUnits_total hfuel fun v hv =>
    (hiff v).mpr ⟨lt_of_lt_of_le hv h.size, h.chains v hv⟩
  unfold Nftl.dump
  rw [hread, ok_bind]
  exact ⟨s', hrun⟩

/-- `dump_erase_units` and `dump_virtual_units` come to their ends inside of the tables exactly on a
sane medium, with walks of no more units than there are in the table. -/
theorem dump_total_iff (d : Medium) (before : ℕ → UnitControl) :
    ((∃ fuel s, dump d before fuel = .ok s) ↔ d.Sane before) ∧
      ((∃ s, dump d before (NUMVUNITS+1) = .ok s) ↔ d.Sane before) := by
  constructor
  · constructor
    · rintro ⟨fuel, s, h⟩
      exact dump_sane h
    · intro h
      exact ⟨NUMVUNITS+1, h.dump (Nat.lt_succ_self _)⟩
  · constructor
    · rintro ⟨s, h⟩
      exact dump_sane h
    · intro h
      exact h.dump (Nat.lt_succ_self _)

/-- A medium with two units of 8 KiB, of which the first one is the first in the chain 0, and `repl`
follows the second one. -/
def twoUnits (repl : BitVec 16) : Medium where
  host := .little
  erasesize := 0x2000
  MedHead := ⟨2, 1, 0x2000⟩
  BadUnitTable _ := 0xff
  oob i := if i = 1 then ⟨0, 2, ERASE_MARK⟩ else ⟨0x8000, repl, ERASE_MARK⟩
  status _ _ _ := SECTOR_USED
  ofd := false
  pos := by decide

/-- The second unit leads back to the first one. -/
theorem dump_cycle : ¬∃ fuel s, dump (twoUnits 1) (fun _ => ⟨0, 0, 0⟩) fuel = .ok s := by
  rintro ⟨fuel, s, h⟩
  have hsane := dump_sane h
  have hstart : (twoUnits 1).Starts 3 0 1 :=
    ⟨by decide, by decide, by decide, by decide, fun i h1 h2 hheads => by
      obtain rfl : i = 2 := by omega
      exact absurd hheads (by decide)⟩
  have hlinear := hsane.chains 0 (by decide) 1 (by decide) hstart
  refine hlinear.new 2 (fun j hj => ?_) 0 (by decide) (by decide)
  rcases j with _ | _ | _ | j
  · decide
  · decide
  · decide
  · omega

end Total

end ChipTools.Nftl
