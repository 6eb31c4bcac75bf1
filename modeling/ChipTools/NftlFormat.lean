import ChipTools.NftlDump

/-! `nftl_format`: the zones of a partition are checked and erased, and two of them get a media
header. -/
namespace ChipTools.Nftl
open Bytes Loop

def ZONE_GOOD : Byte := 0xff

section Zones

/-- A flash with an erase size that `nftl_format` takes. `oob` is the sixth byte of the OOB data at an
offset, `erases` whether the erase `n` of a zone succeeds, and `reads` whether the sector `j` of a
zone holds the pattern `n` when it is read back. -/
structure Flash where
  erasesize : ℕ
  size : ℕ
  oob : ℕ → Option Byte
  erases : ℕ → ℕ → Bool
  reads : ℕ → ℕ → ℕ → Bool
  known : erasesize ∈ [0x1000, 0x2000, 0x4000, 0x8000]
  size_lt : size < 2^32

/-- The command line, with the table at 0x800 if it can be read. -/
structure Args where
  startofs : ℕ
  part_size : ℕ
  do_bbt : Bool
  bbt : Option (ℕ → Byte)
  startofs_lt : startofs < 2^64
  part_size_lt : part_size < 2^64

variable (d : Flash) (a : Args)

def check_block_1 (block : ℕ) : Byte :=
  let start := block*d.erasesize%2^32
  match d.oob start with
  | none => ZONE_BAD_ORIGINAL
  | some b =>
    if b = 0 then ZONE_BAD_ORIGINAL
    else
      match d.oob ((start+512)%2^32) with
      | none => ZONE_BAD_ORIGINAL
      | some b => if b = 0 then ZONE_BAD_ORIGINAL else ZONE_GOOD

def check_block_2 (block : ℕ) : Byte :=
  let sectors := List.range (d.erasesize/512)
  if !sectors.all fun j => d.reads block 0 j && d.reads block 1 j then ZONE_BAD_ORIGINAL
  else if !d.erases block 1 then ZONE_BAD_ORIGINAL
  else if !sectors.all (d.reads block 2) then ZONE_BAD_ORIGINAL
  else if !d.erases block 2 then ZONE_BAD_ORIGINAL
  else if !sectors.all (d.reads block 3) then ZONE_BAD_ORIGINAL
  else if !d.erases block 3 then ZONE_BAD_ORIGINAL
  else ZONE_GOOD

/-- `erase_block`. With a table on the flash there is no other check than the erase. -/
def eraseBlock (block : ℕ) : Byte :=
  let status := if a.do_bbt then ZONE_GOOD else check_block_1 d block
  if status ≠ ZONE_GOOD then status
  else if !d.erases block 0 then ZONE_BAD_ORIGINAL
  else if a.do_bbt then status else check_block_2 d block

/-- `checkbbt`: two bits for each of the first zones. -/
def checkbbt (BadUnitTable : ℕ → Byte) : ℕ → Byte :=
  match a.bbt with
  | none => BadUnitTable
  | some bbt => fun i =>
    if i < 512 ∧ bbt (i/4) &&& (0x3#8 <<< (i%4*2)) = 0 then ZONE_BAD_ORIGINAL else BadUnitTable i

/-- The table before the zones are checked. -/
def initialTable : ℕ → Byte :=
  if a.do_bbt then checkbbt a fun _ => ZONE_GOOD else fun _ => ZONE_GOOD

end Zones

section Format

variable (d : Flash) (a : Args)

/-- What is behind the start offset, in 64 bits. -/
def behind : ℕ := (d.size+2^64-a.startofs)%2^64

/-- The size of the partition, before it is cut down. -/
def wantedSize : ℕ :=
  if a.part_size = 0 ∨ behind d a < a.part_size then behind d a else a.part_size

def partSize : ℕ :=
  if MAX_ERASE_ZONES < wantedSize d a/d.erasesize then d.erasesize*MAX_ERASE_ZONES
  else wantedSize d a

def ezones : ℕ :=
  if MAX_ERASE_ZONES < wantedSize d a/d.erasesize then MAX_ERASE_ZONES
  else wantedSize d a/d.erasesize

/-- The first zone of the partition. -/
def firstZone : ℕ := a.startofs/d.erasesize

/-- The variables of `main`, with the zones that get unit control information at the end. -/
structure FormatState where
  BadUnitTable : ℕ → Byte
  MediaUnit1 : ℤ
  MediaUnit2 : ℤ
  bad_zones : ℕ
  NFTLhdr : NFTLMediaHeader
  tagged : List ℕ

/-- A pass of phase 1. -/
def checkZone (ezone : ℕ) (s : FormatState) : Except Fault FormatState := do
  let zone ← access MAX_ERASE_ZONES s.BadUnitTable ezone
  if zone ≠ ZONE_GOOD then .ok s
  else
    let status := eraseBlock d a ezone
    let s := { s with BadUnitTable := Function.update s.BadUnitTable ezone status }
    if status = ZONE_GOOD then
      if s.MediaUnit1 = -1 then .ok { s with MediaUnit1 := ezone }
      else if s.MediaUnit2 = -1 then .ok { s with MediaUnit2 := ezone }
      else .ok s
    else .ok { s with bad_zones := s.bad_zones+1 }

def mediaHeader (s : FormatState) : NFTLMediaHeader where
  NumEraseUnits := BitVec.ofNat 16 (partSize d a/d.erasesize)
  FirstPhysicalEUN := BitVec.ofInt 16 s.MediaUnit1
  FormattedSize := BitVec.ofInt 32 (partSize d a-(5+s.bad_zones)*d.erasesize)

/-- A part of the table is written behind a media header. -/
def writeTable (k : ℕ) (s : FormatState) : Except Fault FormatState :=
  if 512*k+512 ≤ MAX_ERASE_ZONES then .ok s else .error .outside

/-- A pass of phase 3. -/
def tagZone (ezone : ℕ) (s : FormatState) : Except Fault FormatState := do
  let zone ← access MAX_ERASE_ZONES s.BadUnitTable ezone
  if zone ≠ ZONE_GOOD then .ok s else .ok { s with tagged := s.tagged ++ [ezone] }

/-- `main` for NFTL, from the sizes on. -/
def format : Except Fault FormatState := do
  let s ← forRange (checkZone d a) (ezones d a) (firstZone d a)
    ⟨initialTable a, -1, -1, 0, ⟨0, 0, 0⟩, []⟩
  let s := { s with NFTLhdr := mediaHeader d a s }
  let chunks := (d.size/d.erasesize+511)/512
  let s ← forRange writeTable chunks 0 s
  let s ← forRange writeTable chunks 0 s
  -- as an unsigned number, no unit at all is behind every zone
  if s.MediaUnit1 = -1 then .ok s
  else
    forRange tagZone (firstZone d a+ezones d a-s.MediaUnit1.toNat) s.MediaUnit1.toNat s

/-- A zone of the partition. -/
def InPartition (z : ℕ) : Prop := firstZone d a ≤ z ∧ z < firstZone d a+ezones d a

/-- The good zones of the partition. -/
def goodZones (s : FormatState) : ℕ :=
  (List.range' (firstZone d a) (ezones d a)).countP fun z => s.BadUnitTable z = ZONE_GOOD

/-- A media header that agrees with the partition, and two good zones for it. -/
structure Consistent (s : FormatState) : Prop where
  units : s.NFTLhdr.FirstPhysicalEUN.toNat+s.NFTLhdr.NumEraseUnits.toNat ≤
    firstZone d a+ezones d a
  size : s.NFTLhdr.FormattedSize.toNat+5*d.erasesize ≤ goodZones d a s*d.erasesize
  exact : (s.NFTLhdr.FormattedSize.toNat : ℤ) = partSize d a-(5+s.bad_zones)*d.erasesize
  copies : ∃ x y, s.MediaUnit1 = (x : ℕ) ∧ s.MediaUnit2 = (y : ℕ) ∧ x ≠ y ∧
    InPartition d a x ∧ InPartition d a y ∧ s.BadUnitTable x = ZONE_GOOD ∧
    s.BadUnitTable y = ZONE_GOOD

/-- The zones of the partition that are found bad. -/
def failedZones : ℕ :=
  (List.range' (firstZone d a) (ezones d a)).countP fun z => eraseBlock d a z ≠ ZONE_GOOD

/-- The flashes and arguments for which there is such a header. -/
structure Suitable : Prop where
  inside : firstZone d a+ezones d a ≤ MAX_ERASE_ZONES
  device : d.size/d.erasesize ≤ MAX_ERASE_ZONES
  whole : partSize d a%d.erasesize = 0
  unmarked : ∀ z, InPartition d a z → initialTable a z = ZONE_GOOD
  first : eraseBlock d a (firstZone d a) = ZONE_GOOD
  room : 5+failedZones d a ≤ ezones d a

end Format

section Checked

variable {d : Flash} {a : Args} {k : ℕ} {s s' : FormatState}

/-- A zone that is neither marked nor found bad. -/
def Good (d : Flash) (a : Args) (z : ℕ) : Prop :=
  initialTable a z = ZONE_GOOD ∧ eraseBlock d a z = ZONE_GOOD

/-- A zone that is not marked, and is found bad. -/
def Failed (d : Flash) (a : Args) (z : ℕ) : Prop :=
  initialTable a z = ZONE_GOOD ∧ eraseBlock d a z ≠ ZONE_GOOD

instance (z : ℕ) : Decidable (Good d a z) := inferInstanceAs (Decidable (_ ∧ _))

instance (z : ℕ) : Decidable (Failed d a z) := inferInstanceAs (Decidable (_ ∧ _))

/-- The variables when the zones below `k` are checked. -/
structure Checked (d : Flash) (a : Args) (k : ℕ) (s : FormatState) : Prop where
  table : ∀ z, s.BadUnitTable z =
    if firstZone d a ≤ z ∧ z < k ∧ initialTable a z = ZONE_GOOD then eraseBlock d a z
    else initialTable a z
  bad : s.bad_zones =
    (List.range' (firstZone d a) (k-firstZone d a)).countP fun z => Failed d a z
  none1 : s.MediaUnit1 = -1 → ∀ z, firstZone d a ≤ z → z < k → ¬Good d a z
  some1 : s.MediaUnit1 ≠ -1 → ∃ x : ℕ, s.MediaUnit1 = x ∧ firstZone d a ≤ x ∧ x < k ∧ Good d a x ∧
    ∀ z, firstZone d a ≤ z → z < x → ¬Good d a z
  none2 : s.MediaUnit2 = -1 → ∀ z : ℕ, firstZone d a ≤ z → z < k → Good d a z → s.MediaUnit1 = z
  some2 : s.MediaUnit2 ≠ -1 → ∃ y : ℕ, s.MediaUnit2 = y ∧ firstZone d a ≤ y ∧ y < k ∧
    Good d a y ∧ s.MediaUnit1 ≠ y

/-- A zone that is not counted as good changes neither media unit. -/
theorem Checked.skip (h : Checked d a k s) (hgood : ¬Good d a k) (T : ℕ → Byte) (bad : ℕ)
    (hT : ∀ z, T z = if firstZone d a ≤ z ∧ z < k+1 ∧ initialTable a z = ZONE_GOOD then
      eraseBlock d a z else initialTable a z)
    (hbad : bad =
      (List.range' (firstZone d a) (k+1-firstZone d a)).countP fun z => Failed d a z) :
    Checked d a (k+1) { s with BadUnitTable := T, bad_zones := bad } := by
  have hlast {z : ℕ} (hz : z < k+1) (hg : Good d a z) : z < k := by
    rcases Nat.eq_or_lt_of_le (Nat.lt_succ_iff.mp hz) with rfl | hz
    · exact absurd hg hgood
    · exact hz
  refine ⟨hT, hbad, fun h1 z hz hzk hg => ?_, fun h1 => ?_, fun h2 z hz hzk hg => ?_, fun h2 => ?_⟩
  · exact h.none1 h1 z hz (hlast hzk hg) hg
  · obtain ⟨x, hx, hge, hlt, hg, hmin⟩ := h.some1 h1
    exact ⟨x, hx, hge, Nat.lt_succ_of_lt hlt, hg, hmin⟩
  · exact h.none2 h2 z hz (hlast hzk hg) hg
  · obtain ⟨y, hy, hge, hlt, hg, hne⟩ := h.some2 h2
    exact ⟨y, hy, hge, Nat.lt_succ_of_lt hlt, hg, hne⟩

/-- The count of the zones that failed, with one zone more. -/
theorem failed_succ (hk : firstZone d a ≤ k) :
    (List.range' (firstZone d a) (k+1-firstZone d a)).countP (fun z => Failed d a z) =
      (List.range' (firstZone d a) (k-firstZone d a)).countP (fun z => Failed d a z)+
        if Failed d a k then 1 else 0 := by
  rw [Nat.succ_sub hk, Nat.succ_eq_add_one, List.range'_1_concat, List.countP_append,
    Nat.add_sub_cancel' hk, List.countP_singleton]
  by_cases hf : Failed d a k
  · rw [if_pos (decide_eq_true hf), if_pos hf]
  · rw [if_neg (by rwa [decide_eq_true_iff]), if_neg hf]

/-- A zone more is checked. -/
theorem checkZone_checked (h : Checked d a k s) (hk : firstZone d a ≤ k) (hmax : k < MAX_ERASE_ZONES) :
    ∃ s', checkZone d a k s = .ok s' ∧ Checked d a (k+1) s' := by
  have hnew := failed_succ hk
  have hcur : s.BadUnitTable k = initialTable a k := by
    rw [h.table, if_neg fun h => lt_irrefl k h.2.1]
  have hother (z : ℕ) (hz : z ≠ k) :
      (firstZone d a ≤ z ∧ z < k+1 ∧ initialTable a z = ZONE_GOOD) ↔
        (firstZone d a ≤ z ∧ z < k ∧ initialTable a z = ZONE_GOOD) := by
    constructor
    · rintro ⟨h1, h2, h3⟩
      exact ⟨h1, by omega, h3⟩
    · rintro ⟨h1, h2, h3⟩
      exact ⟨h1, by omega, h3⟩
  unfold checkZone
  rw [access_ok hmax, ok_bind, hcur]
  by_cases hmark : initialTable a k = ZONE_GOOD
  · have htable (z : ℕ) : Function.update s.BadUnitTable k (eraseBlock d a k) z =
        if firstZone d a ≤ z ∧ z < k+1 ∧ initialTable a z = ZONE_GOOD then eraseBlock d a z
        else initialTable a z := by
      by_cases hz : z = k
      · subst hz
        rw [Function.update_self, if_pos ⟨hk, Nat.lt_succ_self z, hmark⟩]
      · rw [Function.update_of_ne hz, h.table]
        by_cases hin : firstZone d a ≤ z ∧ z < k ∧ initialTable a z = ZONE_GOOD
        · rw [if_pos hin, if_pos ((hother z hz).mpr hin)]
        · rw [if_neg hin, if_neg fun h' => hin ((hother z hz).mp h')]
    rw [if_neg (not_not.mpr hmark)]
    dsimp only
    by_cases hst : eraseBlock d a k = ZONE_GOOD
    · have hgood : Good d a k := ⟨hmark, hst⟩
      have hfail : ¬Failed d a k := fun h => h.2 hst
      rw [if_neg hfail, Nat.add_zero] at hnew
      have hbad : s.bad_zones = (List.range' (firstZone d a) (k+1-firstZone d a)).countP
          fun z => Failed d a z := by rw [hnew]; exact h.bad
      rw [if_pos hst]
      by_cases h1 : s.MediaUnit1 = -1
      · -- the first good zone
        rw [if_pos h1]
        have h2 : s.MediaUnit2 = -1 := by
          by_contra h2
          obtain ⟨y, -, hge, hlt, hg, -⟩ := h.some2 h2
          exact h.none1 h1 y hge hlt hg
        refine ⟨_, rfl, htable, hbad, fun h => ?_, fun _ => ?_, fun _ z hz hzk hg => ?_, fun hne => ?_⟩
        · exact absurd h (by dsimp only; omega)
        · exact ⟨k, rfl, hk, Nat.lt_succ_self k, hgood, fun z hz hzk => h.none1 h1 z hz hzk⟩
        · rcases Nat.eq_or_lt_of_le (Nat.lt_succ_iff.mp hzk) with rfl | hzk
          · rfl
          · exact absurd hg (h.none1 h1 z hz hzk)
        · exact absurd h2 hne
      · obtain ⟨x, hx, hge, hlt, hg, hmin⟩ := h.some1 h1
        rw [if_neg h1]
        have hsome1 : ∃ x : ℕ, s.MediaUnit1 = x ∧ firstZone d a ≤ x ∧ x < k+1 ∧ Good d a x ∧
            ∀ z, firstZone d a ≤ z → z < x → ¬Good d a z :=
          ⟨x, hx, hge, Nat.lt_succ_of_lt hlt, hg, hmin⟩
        by_cases h2 : s.MediaUnit2 = -1
        · rw [if_pos h2]
          refine ⟨_, rfl, htable, hbad, fun h => absurd h h1, fun _ => hsome1, fun h => ?_, fun _ => ?_⟩
          · exact absurd h (by dsimp only; omega)
          · exact ⟨k, rfl, hk, Nat.lt_succ_self k, hgood, by dsimp only; omega⟩
        · rw [if_neg h2]
          obtain ⟨y, hy, hyge, hylt, hyg, hne⟩ := h.some2 h2
          exact ⟨_, rfl, htable, hbad, fun h => absurd h h1, fun _ => hsome1,
            fun h => absurd h h2, fun _ => ⟨y, hy, hyge, Nat.lt_succ_of_lt hylt, hyg, hne⟩⟩
    · rw [if_neg hst]
      rw [if_pos ⟨hmark, hst⟩, ← h.bad] at hnew
      exact ⟨_, rfl, h.skip (fun hg => hst hg.2) _ _ htable hnew.symm⟩
  · have hfail : ¬Failed d a k := fun h => hmark h.1
    rw [if_neg hfail, Nat.add_zero, ← h.bad] at hnew
    rw [if_pos hmark]
    refine ⟨s, rfl, h.skip (fun hg => hmark hg.1) s.BadUnitTable s.bad_zones (fun z => ?_) hnew.symm⟩
    rw [h.table]
    by_cases hz : z = k
    · subst hz
      rw [if_neg fun h => hmark h.2.2, if_neg fun h => hmark h.2.2]
    · by_cases hin : firstZone d a ≤ z ∧ z < k ∧ initialTable a z = ZONE_GOOD
      · rw [if_pos hin, if_pos ((hother z hz).mpr hin)]
      · rw [if_neg hin, if_neg fun h' => hin ((hother z hz).mp h')]

theorem checkZone_error (hmax : ¬k < MAX_ERASE_ZONES) (s : FormatState) :
    checkZone d a k s = .error .outside := by
  unfold checkZone
  rw [access_error hmax]
  rfl

/-- Before the first zone. -/
theorem checked_initial (d : Flash) (a : Args) :
    Checked d a (firstZone d a) ⟨initialTable a, -1, -1, 0, ⟨0, 0, 0⟩, []⟩ := by
  refine ⟨fun z => ?_, ?_, fun _ z hz hlt => by omega, fun h => absurd rfl h,
    fun _ z hz hlt => by omega, fun h => absurd rfl h⟩
  · rw [if_neg fun h => by omega]
  · rw [Nat.sub_self]
    rfl

end Checked

section Run

variable {d : Flash} {a : Args} {k n : ℕ} {s s' : FormatState}

/-- What is left of a state when phases 2 and 3 are done: all but the zones that are tagged. -/
structure SameZones (s s' : FormatState) : Prop where
  table : s'.BadUnitTable = s.BadUnitTable
  unit1 : s'.MediaUnit1 = s.MediaUnit1
  unit2 : s'.MediaUnit2 = s.MediaUnit2
  bad : s'.bad_zones = s.bad_zones
  header : s'.NFTLhdr = s.NFTLhdr

theorem SameZones.refl (s : FormatState) : SameZones s s := ⟨rfl, rfl, rfl, rfl, rfl⟩

theorem SameZones.trans {s'' : FormatState} (h : SameZones s s') (h' : SameZones s' s'') :
    SameZones s s'' :=
  ⟨h'.table.trans h.table, h'.unit1.trans h.unit1, h'.unit2.trans h.unit2, h'.bad.trans h.bad,
    h'.header.trans h.header⟩

theorem Checked.same (h : Checked d a k s) (hs : SameZones s s') : Checked d a k s' := by
  obtain ⟨htable, hbad, hnone1, hsome1, hnone2, hsome2⟩ := h
  refine ⟨?_, ?_, ?_, ?_, ?_, ?_⟩
  · rwa [hs.table]
  · rwa [hs.bad]
  · rwa [hs.unit1]
  · rwa [hs.unit1]
  · rwa [hs.unit1, hs.unit2]
  · rwa [hs.unit1, hs.unit2]

theorem writeTable_ok_iff (j : ℕ) (s : FormatState) :
    (∃ s', writeTable j s = .ok s') ↔ 512*j+512 ≤ MAX_ERASE_ZONES := by
  unfold writeTable
  split
  next h => exact iff_of_true ⟨s, rfl⟩ h
  next h => exact iff_of_false (fun ⟨_, h⟩ => by cases h) h

/-- The loop over the parts of the table. -/
theorem writeTables_ok_iff (chunks : ℕ) (s : FormatState) :
    (∃ s', forRange writeTable chunks 0 s = .ok s') ↔ 512*chunks ≤ MAX_ERASE_ZONES := by
  rw [forRange_ok_iff (P := fun _ => True) (fun j t _ => writeTable_ok_iff j t)
    (fun _ _ _ _ _ => trivial) trivial]
  constructor
  · intro h
    cases chunks with
    | zero => exact Nat.zero_le _
    | succ c => exact h c (Nat.zero_le c) (by omega)
  · intro h j _ hj
    omega

theorem writeTables_same {chunks : ℕ} (h : forRange writeTable chunks 0 s = .ok s') : s' = s := by
  refine forRange_inv (P := fun _ t => t = s) (fun j t t' _ _ ht hrun => ?_) rfl h
  unfold writeTable at hrun
  split at hrun
  · exact (Except.ok.inj hrun).symm.trans ht
  · cases hrun

theorem tagZone_ok (hk : k < MAX_ERASE_ZONES) (s : FormatState) :
    ∃ s', tagZone k s = .ok s' ∧ SameZones s s' := by
  unfold tagZone
  rw [access_ok hk, ok_bind]
  split
  · exact ⟨s, rfl, .refl s⟩
  · exact ⟨_, rfl, rfl, rfl, rfl, rfl, rfl⟩

theorem tagZone_same (h : tagZone k s = .ok s') : SameZones s s' := by
  unfold tagZone at h
  obtain ⟨zone, -, h⟩ := bind_eq_ok h
  split at h
  · obtain rfl := Except.ok.inj h
    exact .refl s
  · obtain rfl := Except.ok.inj h
    exact ⟨rfl, rfl, rfl, rfl, rfl⟩

theorem checkZone_ok_iff (j : ℕ) (s : FormatState) :
    (∃ s', checkZone d a j s = .ok s') ↔ j < MAX_ERASE_ZONES := by
  constructor
  · rintro ⟨s', hrun⟩
    by_contra hmax
    rw [checkZone_error hmax] at hrun
    cases hrun
  · intro hj
    unfold checkZone
    rw [access_ok hj, ok_bind]
    split
    · exact ⟨_, rfl⟩
    · dsimp only
      split
      · split
        · exact ⟨_, rfl⟩
        · split <;> exact ⟨_, rfl⟩
      · exact ⟨_, rfl⟩

/-- A run of `main`: the zones are checked, the header is the one for them, and the table was accessed
inside. -/
structure Ran (d : Flash) (a : Args) (s : FormatState) : Prop where
  zones : Checked d a (firstZone d a+ezones d a) s
  header : s.NFTLhdr = mediaHeader d a s
  inside : 0 < ezones d a → firstZone d a+ezones d a ≤ MAX_ERASE_ZONES
  device : d.size/d.erasesize ≤ MAX_ERASE_ZONES

theorem chunks_le_iff (units : ℕ) :
    512*((units+511)/512) ≤ MAX_ERASE_ZONES ↔ units ≤ MAX_ERASE_ZONES := by
  change 512*((units+511)/512) ≤ 7680 ↔ units ≤ 7680
  omega

theorem format_ran (h : format d a = .ok s) : Ran d a s := by
  obtain ⟨s₁, hcheck, h⟩ := bind_eq_ok h
  dsimp only at h
  obtain ⟨s₂, hwrite, h⟩ := bind_eq_ok h
  obtain ⟨s₃, hwrite', h⟩ := bind_eq_ok h
  have hzones : Checked d a (firstZone d a+ezones d a) s₁ := by
    refine forRange_inv (P := Checked d a) (fun j t t' hj _ ht hrun => ?_) (checked_initial d a) hcheck
    have hmax := (checkZone_ok_iff j t).mp ⟨t', hrun⟩
    obtain ⟨t'', hrun', ht'⟩ := checkZone_checked ht hj hmax
    obtain rfl := Except.ok.inj (hrun.symm.trans hrun')
    exact ht'
  have hinside : 0 < ezones d a → firstZone d a+ezones d a ≤ MAX_ERASE_ZONES := by
    intro hpos
    have hall := (forRange_ok_iff (P := fun _ => True) (fun j t _ => checkZone_ok_iff j t)
      (fun _ _ _ _ _ => trivial) trivial).mp ⟨s₁, hcheck⟩ (firstZone d a+ezones d a-1) (by omega)
      (by omega)
    omega
  have hdevice := (chunks_le_iff (d.size/d.erasesize)).mp ((writeTables_ok_iff _ _).mp ⟨s₂, hwrite⟩)
  obtain rfl := writeTables_same hwrite
  obtain rfl := writeTables_same hwrite'
  have hsame : SameZones { s₁ with NFTLhdr := mediaHeader d a s₁ } s := by
    split at h
    · obtain rfl := Except.ok.inj h
      exact .refl _
    · exact forRange_inv (P := fun _ t => SameZones { s₁ with NFTLhdr := mediaHeader d a s₁ } t)
        (fun j t t' _ _ ht hrun => ht.trans (tagZone_same hrun)) (.refl _) h
  have hzones' : Checked d a (firstZone d a+ezones d a) { s₁ with NFTLhdr := mediaHeader d a s₁ } :=
    ⟨hzones.table, hzones.bad, hzones.none1, hzones.some1, hzones.none2, hzones.some2⟩
  refine ⟨hzones'.same hsame, ?_, hinside, hdevice⟩
  have hunit := hsame.unit1
  have hbad := hsame.bad
  dsimp only at hunit hbad
  rw [hsame.header]
  unfold mediaHeader
  rw [hunit, hbad]

/-- Where the zones are in the table, `main` comes to its end. -/
theorem format_total (hinside : firstZone d a+ezones d a ≤ MAX_ERASE_ZONES)
    (hdevice : d.size/d.erasesize ≤ MAX_ERASE_ZONES) : ∃ s, format d a = .ok s := by
  obtain ⟨s₁, hcheck, hzones⟩ := forRange_total (f := checkZone d a) (P := Checked d a)
    (n := ezones d a) (fun j t hj hlt ht => checkZone_checked ht hj (by omega)) (checked_initial d a)
  have hchunks := (chunks_le_iff (d.size/d.erasesize)).mpr hdevice
  obtain ⟨s₂, hwrite⟩ := (writeTables_ok_iff _ { s₁ with NFTLhdr := mediaHeader d a s₁ }).mpr hchunks
  have hsame := writeTables_same hwrite
  rw [hsame] at hwrite
  unfold format
  rw [hcheck, ok_bind]
  dsimp only
  rw [hwrite, ok_bind, hwrite, ok_bind]
  dsimp only
  split
  · exact ⟨_, rfl⟩
  next hunit =>
    obtain ⟨x, hx, -, hlt, -⟩ := hzones.some1 hunit
    obtain ⟨s₃, htag, -⟩ := forRange_total (f := tagZone) (P := fun _ _ => True)
      (n := firstZone d a+ezones d a-s₁.MediaUnit1.toNat) (i := s₁.MediaUnit1.toNat)
      (s := { s₁ with NFTLhdr := mediaHeader d a s₁ }) (fun j t _ hj _ => by
        have hmax : j < MAX_ERASE_ZONES := by
          rw [hx, Int.toNat_natCast] at hj
          omega
        obtain ⟨t', ht', -⟩ := tagZone_ok hmax t
        exact ⟨t', ht', trivial⟩) trivial
    exact ⟨s₃, htag⟩

end Run

section Main

variable {d : Flash} {a : Args} {s : FormatState}

/-- The zones of a list are marked, or found good, or found bad. -/
theorem zones_count (d : Flash) (a : Args) (l : List ℕ) :
    l.countP (fun z => Good d a z)+l.countP (fun z => Failed d a z)+
      l.countP (fun z => initialTable a z ≠ ZONE_GOOD) = l.length := by
  induction l with
  | nil => rfl
  | cons z l ih =>
    rw [List.countP_cons, List.countP_cons, List.countP_cons, List.length_cons, ← ih]
    by_cases hmark : initialTable a z = ZONE_GOOD
    · by_cases hst : eraseBlock d a z = ZONE_GOOD
      · have hgood : Good d a z := ⟨hmark, hst⟩
        have hfail : ¬Failed d a z := fun h => h.2 hst
        simp only [hgood, hfail, hmark, ne_eq, not_true, decide_true, decide_false, if_true, if_false,
          Bool.false_eq_true]
        omega
      · have hgood : ¬Good d a z := fun h => hst h.2
        have hfail : Failed d a z := ⟨hmark, hst⟩
        simp only [hgood, hfail, hmark, ne_eq, not_true, decide_true, decide_false, if_true, if_false,
          Bool.false_eq_true]
        omega
    · have hgood : ¬Good d a z := fun h => hmark h.1
      have hfail : ¬Failed d a z := fun h => hmark h.1
      simp only [hgood, hfail, hmark, ne_eq, not_false_eq_true, decide_true, decide_false, if_true,
        if_false, Bool.false_eq_true]
      omega

theorem erasesize_bounds (d : Flash) : 0 < d.erasesize ∧ d.erasesize ≤ 0x8000 := by
  have hknown := d.known
  simp only [List.mem_cons, List.not_mem_nil, or_false] at hknown
  omega

/-- The size of the partition, in whole zones and a part of one. -/
theorem partSize_eq (d : Flash) (a : Args) :
    partSize d a = ezones d a*d.erasesize+partSize d a%d.erasesize ∧
      partSize d a/d.erasesize = ezones d a ∧ ezones d a ≤ MAX_ERASE_ZONES := by
  obtain ⟨hpos, -⟩ := erasesize_bounds d
  have hquot : partSize d a/d.erasesize = ezones d a := by
    unfold partSize ezones
    by_cases hmore : MAX_ERASE_ZONES < wantedSize d a/d.erasesize
    · rw [if_pos hmore, if_pos hmore, Nat.mul_div_cancel_left _ hpos]
    · rw [if_neg hmore, if_neg hmore]
  refine ⟨?_, hquot, ?_⟩
  · rw [← hquot]
    exact (Nat.div_add_mod' _ _).symm
  · unfold ezones
    split
    · exact le_refl _
    · omega

/-- A zone of the partition is good in the table that is written just when it was found good. -/
theorem Ran.good_iff (h : Ran d a s) {z : ℕ} (hz : InPartition d a z) :
    s.BadUnitTable z = ZONE_GOOD ↔ Good d a z := by
  rw [h.zones.table]
  by_cases hmark : initialTable a z = ZONE_GOOD
  · rw [if_pos ⟨hz.1, hz.2, hmark⟩]
    exact ⟨fun hst => ⟨hmark, hst⟩, fun hg => hg.2⟩
  · rw [if_neg fun h => hmark h.2.2]
    exact ⟨fun hg => absurd hg hmark, fun hg => hg.1⟩

/-- The good zones, those that failed and those that were marked are all of the zones. -/
theorem Ran.counts (h : Ran d a s) :
    goodZones d a s+s.bad_zones+(List.range' (firstZone d a) (ezones d a)).countP
      (fun z => initialTable a z ≠ ZONE_GOOD) = ezones d a := by
  have hcount := zones_count d a (List.range' (firstZone d a) (ezones d a))
  have hbad := h.zones.bad
  rw [Nat.add_sub_cancel_left] at hbad
  have hgood : goodZones d a s =
      (List.range' (firstZone d a) (ezones d a)).countP fun z => Good d a z := by
    unfold goodZones
    apply List.countP_congr
    intro z hz
    rw [List.mem_range'_1] at hz
    rw [decide_eq_true_iff, decide_eq_true_iff]
    exact h.good_iff hz
  rwa [List.length_range', ← hgood, ← hbad] at hcount

theorem Ran.header_eq (h : Ran d a s) : s.NFTLhdr.NumEraseUnits.toNat = ezones d a ∧
    (∀ x : ℕ, s.MediaUnit1 = x → x < 2^16 → s.NFTLhdr.FirstPhysicalEUN.toNat = x) ∧
    ((5+s.bad_zones)*d.erasesize ≤ partSize d a →
      s.NFTLhdr.FormattedSize.toNat = partSize d a-(5+s.bad_zones)*d.erasesize) := by
  obtain ⟨hpos, hes⟩ := erasesize_bounds d
  obtain ⟨hpart, hquot, hmax⟩ := partSize_eq d a
  have hmod := Nat.mod_lt (partSize d a) hpos
  have hmul : ezones d a*d.erasesize ≤ MAX_ERASE_ZONES*0x8000 := Nat.mul_le_mul hmax hes
  have hlarge : MAX_ERASE_ZONES*0x8000 = 251658240 := rfl
  have hzones : MAX_ERASE_ZONES = 7680 := rfl
  rw [h.header]
  refine ⟨?_, fun x hx hlt => ?_, fun hle => ?_⟩
  · change (BitVec.ofNat 16 (partSize d a/d.erasesize)).toNat = _
    rw [hquot, BitVec.toNat_ofNat, Nat.mod_eq_of_lt (by omega)]
  · change (BitVec.ofInt 16 s.MediaUnit1).toNat = _
    rw [hx, BitVec.ofInt_natCast, BitVec.toNat_ofNat, Nat.mod_eq_of_lt hlt]
  · have hcast : (partSize d a : ℤ)-(5+s.bad_zones)*d.erasesize =
        (partSize d a-(5+s.bad_zones)*d.erasesize : ℕ) := by
      rw [Nat.cast_sub hle]
      push_cast
      rfl
    change (BitVec.ofInt 32 _).toNat = _
    rw [hcast, BitVec.ofInt_natCast, BitVec.toNat_ofNat, Nat.mod_eq_of_lt (by omega)]

theorem countP_marked_eq_zero {l : List ℕ} :
    l.countP (fun z => initialTable a z ≠ ZONE_GOOD) = 0 ↔ ∀ z ∈ l, initialTable a z = ZONE_GOOD := by
  rw [List.countP_eq_zero]
  refine forall₂_congr fun z _ => ?_
  rw [decide_eq_true_iff, not_not]

/-- Without marked zones, the zones that failed are those that are found bad. -/
theorem Ran.bad_eq (h : Ran d a s) (hmark : ∀ z, InPartition d a z → initialTable a z = ZONE_GOOD) :
    s.bad_zones = failedZones d a := by
  have hbad := h.zones.bad
  rw [Nat.add_sub_cancel_left] at hbad
  rw [hbad]
  unfold failedZones
  apply List.countP_congr
  intro z hz
  rw [List.mem_range'_1] at hz
  rw [decide_eq_true_iff, decide_eq_true_iff]
  exact ⟨fun hf => hf.2, fun hf => ⟨hmark z hz, hf⟩⟩

theorem Ran.suitable (h : Ran d a s) (hc : Consistent d a s) : Suitable d a := by
  obtain ⟨hpos, -⟩ := erasesize_bounds d
  obtain ⟨hpart, -, hmax⟩ := partSize_eq d a
  obtain ⟨x, y, hx, -, -, hxin, -, hxg, -⟩ := hc.copies
  obtain ⟨hnum, hfirst, hsize⟩ := h.header_eq
  have hzones : MAX_ERASE_ZONES = 7680 := rfl
  have hinside : firstZone d a+ezones d a ≤ MAX_ERASE_ZONES := by
    apply h.inside
    have := hxin.1
    have := hxin.2
    omega
  -- the first header is in the first zone
  have hxlt := hxin.2
  have hxge := hxin.1
  have hunits := hc.units
  rw [hnum, hfirst x hx (by omega)] at hunits
  obtain rfl : x = firstZone d a := by omega
  have hexact := hc.exact
  have hle : (5+s.bad_zones)*d.erasesize ≤ partSize d a := by
    apply Int.ofNat_le.mp
    push_cast
    omega
  -- a part of a zone, or a zone that was marked, would be formatted too
  have hfit := hc.size
  have hcounts := h.counts
  rw [hsize hle] at hfit
  obtain ⟨marked, hmarked⟩ : ∃ n, n = (List.range' (firstZone d a) (ezones d a)).countP
      fun z => initialTable a z ≠ ZONE_GOOD := ⟨_, rfl⟩
  rw [← hmarked] at hcounts
  have hmul : ezones d a*d.erasesize =
      goodZones d a s*d.erasesize+s.bad_zones*d.erasesize+marked*d.erasesize := by
    rw [← hcounts, Nat.add_mul, Nat.add_mul]
  have hfive : (5+s.bad_zones)*d.erasesize = 5*d.erasesize+s.bad_zones*d.erasesize :=
    Nat.add_mul _ _ _
  have hzero : marked*d.erasesize = 0 := by omega
  have hnone : marked = 0 := (Nat.mul_eq_zero.mp hzero).resolve_right (Nat.ne_of_gt hpos)
  have hunmarked : ∀ z, InPartition d a z → initialTable a z = ZONE_GOOD := by
    intro z hz
    exact countP_marked_eq_zero.mp (hmarked.symm.trans hnone) z (List.mem_range'_1.mpr hz)
  have hwhole : partSize d a%d.erasesize = 0 := by omega
  refine ⟨hinside, h.device, hwhole, hunmarked, ((h.good_iff hxin).mp hxg).2, ?_⟩
  rw [← h.bad_eq hunmarked]
  rw [hpart, hwhole, Nat.add_zero] at hle
  exact Nat.le_of_mul_le_mul_right hle hpos

/-- Two good zones are found where there are two of them. -/
theorem Ran.copies (h : Ran d a s) (hs : Suitable d a) : ∃ x y, s.MediaUnit1 = (x : ℕ) ∧
    s.MediaUnit2 = (y : ℕ) ∧ x ≠ y ∧ InPartition d a x ∧ InPartition d a y ∧
    s.BadUnitTable x = ZONE_GOOD ∧ s.BadUnitTable y = ZONE_GOOD ∧ x = firstZone d a := by
  have hroom := hs.room
  have hgoodFirst : Good d a (firstZone d a) :=
    ⟨hs.unmarked _ ⟨le_refl _, by omega⟩, hs.first⟩
  have h1 : s.MediaUnit1 ≠ -1 := fun h1 =>
    h.zones.none1 h1 (firstZone d a) (le_refl _) (by omega) hgoodFirst
  obtain ⟨x, hx, hxge, hxlt, hxg, hmin⟩ := h.zones.some1 h1
  have hxfirst : x = firstZone d a := by
    by_contra hne
    exact hmin (firstZone d a) (le_refl _) (by omega) hgoodFirst
  have h2 : s.MediaUnit2 ≠ -1 := by
    intro h2
    -- one good zone alone is too few
    have hcounts := h.counts
    have hmarked := countP_marked_eq_zero.mpr fun z hz => hs.unmarked z (List.mem_range'_1.mp hz)
    rw [hmarked, h.bad_eq hs.unmarked] at hcounts
    obtain ⟨n, hn⟩ : ∃ n, ezones d a = n+1 := ⟨ezones d a-1, by omega⟩
    have hone : goodZones d a s ≤ 1 := by
      unfold goodZones
      rw [hn, List.range'_succ, List.countP_cons]
      have hrest : (List.range' (firstZone d a+1) n).countP
          (fun z => s.BadUnitTable z = ZONE_GOOD) = 0 := by
        rw [List.countP_eq_zero]
        intro z hz hgood
        rw [List.mem_range'_1] at hz
        have hzin : InPartition d a z := ⟨by omega, by omega⟩
        have hzg := (h.good_iff hzin).mp (of_decide_eq_true hgood)
        have heq := h.zones.none2 h2 z hzin.1 hzin.2 hzg
        rw [hx] at heq
        omega
      rw [hrest]
      split <;> omega
    omega
  obtain ⟨y, hy, hyge, hylt, hyg, hne⟩ := h.zones.some2 h2
  refine ⟨x, y, hx, hy, ?_, ⟨hxge, hxlt⟩, ⟨hyge, hylt⟩, (h.good_iff ⟨hxge, hxlt⟩).mpr hxg,
    (h.good_iff ⟨hyge, hylt⟩).mpr hyg, hxfirst⟩
  rintro rfl
  exact hne hx

theorem Ran.consistent (h : Ran d a s) (hs : Suitable d a) : Consistent d a s := by
  obtain ⟨hpart, -, hmax⟩ := partSize_eq d a
  obtain ⟨x, y, hx, hy, hne, hxin, hyin, hxg, hyg, hxfirst⟩ := h.copies hs
  obtain ⟨hnum, hfirst, hsize⟩ := h.header_eq
  have hzones : MAX_ERASE_ZONES = 7680 := rfl
  have hinside := hs.inside
  have hbad := h.bad_eq hs.unmarked
  have hroom := Nat.mul_le_mul_right d.erasesize hs.room
  rw [hs.whole, Nat.add_zero] at hpart
  rw [← hbad, ← hpart] at hroom
  refine ⟨?_, ?_, ?_, x, y, hx, hy, hne, hxin, hyin, hxg, hyg⟩
  · have hxlt := hxin.2
    rw [hnum, hfirst x hx (by omega), hxfirst]
  · have hcounts := h.counts
    have hmarked := countP_marked_eq_zero.mpr fun z hz => hs.unmarked z (List.mem_range'_1.mp hz)
    rw [hmarked, Nat.add_zero] at hcounts
    have hmul : ezones d a*d.erasesize = goodZones d a s*d.erasesize+s.bad_zones*d.erasesize := by
      rw [← hcounts, Nat.add_mul]
    have hfive : (5+s.bad_zones)*d.erasesize = 5*d.erasesize+s.bad_zones*d.erasesize :=
      Nat.add_mul _ _ _
    rw [hsize hroom]
    omega
  · rw [hsize hroom, Nat.cast_sub hroom]
    push_cast
    rfl

/-- The media header agrees with the partition and gets two good zones, and the table of bad units is
accessed inside, exactly for a partition that has its first zone good, no zone marked in a table on
the flash, whole zones in the table and five good ones. -/
theorem nftl_format_consistent_iff (d : Flash) (a : Args) :
    (∃ s, format d a = .ok s ∧ Consistent d a s) ↔ Suitable d a := by
  constructor
  · rintro ⟨s, hrun, hc⟩
    exact (format_ran hrun).suitable hc
  · intro hs
    obtain ⟨s, hrun⟩ := format_total hs.inside hs.device
    exact ⟨s, hrun, (format_ran hrun).consistent hs⟩

/-- A flash of 16 zones of 8 KiB, of which the first one cannot be erased. -/
def badStart : Flash where
  erasesize := 0x2000
  size := 16*0x2000
  oob _ := some 0xff
  erases block _ := block ≠ 0
  reads _ _ _ := true
  known := by decide
  size_lt := by decide

/-- The header is in the second zone then, and counts all of the zones from there on. -/
theorem nftl_format_bad_start :
    ¬∃ s, format badStart ⟨0, 0, false, none, by decide, by decide⟩ = .ok s ∧
      Consistent badStart ⟨0, 0, false, none, by decide, by decide⟩ s := by
  rintro ⟨s, hrun, hc⟩
  exact absurd ((format_ran hrun).suitable hc).first (by decide)

end Main

end ChipTools.Nftl
