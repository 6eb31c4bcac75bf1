import ChipTools.Loop
import ChipTools.UbiGen
import Mathlib.Algebra.BigOperators.Intervals
import Mathlib.Algebra.BigOperators.Ring.Finset
import Mathlib.Algebra.Order.BigOperators.Group.Finset

/-! `ubi_scan`: what is known of the eraseblocks of an MTD device by their EC headers. -/
namespace ChipTools.Ubi
open Bytes CNumber Loop

def EC_MAX : ℕ := 0x7FFFFFFF

/-- What stands for a counter where there is none. -/
def EB_EMPTY : ℕ := 0xFFFFFFFF
def EB_CORRUPTED : ℕ := 0xFFFFFFFE
def EB_ALIEN : ℕ := 0xFFFFFFFD
def EB_BAD : ℕ := 0xFFFFFFFC

/-- `struct mtd_dev_info`. -/
structure Mtd where
  eb_cnt : ℕ
  eb_size : ℕ
  min_io_size : ℕ
  subpage_size : ℕ
  bb_allowed : Bool

/-- The flash: the bad eraseblocks, and the bytes of each one. -/
structure Flash where
  bad : ℕ → Bool
  data : ℕ → ℕ → Byte

/-- How an operation on an eraseblock ends. -/
inductive Outcome
  | done
  | eio
  | other
deriving DecidableEq, Repr

/-- `struct ubi_scan_info`. -/
structure ScanInfo where
  ec : ℕ → ℕ
  mean_ec : ℕ
  ok_cnt : ℕ
  empty_cnt : ℕ
  corrupted_cnt : ℕ
  alien_cnt : ℕ
  bad_cnt : ℕ
  good_cnt : ℤ
  vid_hdr_offs : ℤ
  data_offs : ℤ

def ScanInfo.setEc (si : ScanInfo) (eb ec : ℕ) : ScanInfo :=
  { si with ec := fun i => if i = eb then ec else si.ec i }

/-- The eraseblock is taken for corrupted. -/
def ScanInfo.corrupted (si : ScanInfo) (eb : ℕ) : ScanInfo :=
  { si with corrupted_cnt := si.corrupted_cnt+1 }.setEc eb EB_CORRUPTED

def ScanInfo.valid (si : ScanInfo) (eb ec : ℕ) : ScanInfo :=
  { si with ok_cnt := si.ok_cnt+1 }.setEc eb ec

/-- A pass of the loop of `ubi_scan`. -/
def scanEb (mtd : Mtd) (flash : Flash) (eb : ℕ) (si : ScanInfo) : Except Stop ScanInfo :=
  if flash.bad eb then .ok ({ si with bad_cnt := si.bad_cnt+1 }.setEc eb EB_BAD)
  else
    let ech := readBytes (flash.data eb) 0 UBI_EC_HDR_SIZE
    if beField ech 0 4 ≠ UBI_EC_HDR_MAGIC then
      if ∀ b ∈ ech, b = 0xff#8 then .ok ({ si with empty_cnt := si.empty_cnt+1 }.setEc eb EB_EMPTY)
      else .ok ({ si with alien_cnt := si.alien_cnt+1 }.setEc eb EB_ALIEN)
    else if beField ech 60 4 ≠ (mtdCrc32 UBI_CRC32_INIT (ech.take 60)).toNat then
      .ok (si.corrupted eb)
    else
      let ec := beField ech 8 8
      if EC_MAX < ec then
        .error (.errmsg (s!"erase counter in EB {eb} is {ec}, while this " ++
          s!"program expects them to be less than {EC_MAX}"))
      else
        let vid_hdr_offs := toInt32 (beField ech 16 4)
        let data_offs := toInt32 (beField ech 20 4)
        if si.vid_hdr_offs = -1 then
          let si := { si with vid_hdr_offs := vid_hdr_offs, data_offs := data_offs }
          if data_offs.tmod mtd.min_io_size ≠ 0 then .ok (si.corrupted eb)
          else .ok (si.valid eb ec)
        else if vid_hdr_offs ≠ si.vid_hdr_offs then .ok (si.corrupted eb)
        else if data_offs ≠ si.data_offs then .ok (si.corrupted eb)
        else .ok (si.valid eb ec)

/-- The mean of the counters. -/
def meanEc (mtd : Mtd) (si : ScanInfo) : ℕ :=
  if si.ok_cnt = 0 then si.mean_ec
  else ((List.range mtd.eb_cnt).map fun eb => if EC_MAX < si.ec eb then 0 else si.ec eb).sum/si.ok_cnt

/-- `ubi_scan`. -/
def ubiScan (mtd : Mtd) (flash : Flash) : Except Stop ScanInfo := do
  let si ← forRange (scanEb mtd flash) mtd.eb_cnt 0 ⟨fun _ => 0, 0, 0, 0, 0, 0, 0, 0, -1, -1⟩
  .ok { si with mean_ec := meanEc mtd si, good_cnt := mtd.eb_cnt-si.bad_cnt }

section Scan

variable {mtd : Mtd} {flash : Flash} {ui : UbigenInfo} {eb : ℕ} {si si' : ScanInfo}

/-- What a pass does: the eraseblock gets `v`, which is a counter where it is counted as OK. -/
structure ScanStep (flash : Flash) (eb v : ℕ) (si si' : ScanInfo) : Prop where
  ec : si'.ec = fun i => if i = eb then v else si.ec i
  mean_ec : si'.mean_ec = si.mean_ec
  bad : v = EB_BAD ↔ flash.bad eb = true
  ok_cnt : si'.ok_cnt = si.ok_cnt+if v ≤ EC_MAX then 1 else 0

theorem scanEb_step (h : scanEb mtd flash eb si = .ok si') : ∃ v, ScanStep flash eb v si si' := by
  unfold scanEb at h
  split at h
  next hb =>
    obtain rfl := Except.ok.inj h
    exact ⟨EB_BAD, rfl, rfl, by simp [hb], rfl⟩
  next hb =>
    have hne {v : ℕ} (hv : v ≠ EB_BAD) : v = EB_BAD ↔ flash.bad eb = true := by
      simp [hv, hb]
    dsimp only at h
    split at h
    · split at h
      · obtain rfl := Except.ok.inj h
        exact ⟨EB_EMPTY, rfl, rfl, hne (by decide), rfl⟩
      · obtain rfl := Except.ok.inj h
        exact ⟨EB_ALIEN, rfl, rfl, hne (by decide), rfl⟩
    · split at h
      · obtain rfl := Except.ok.inj h
        exact ⟨EB_CORRUPTED, rfl, rfl, hne (by decide), rfl⟩
      · split at h
        · cases h
        next hec =>
          generalize beField (readBytes (flash.data eb) 0 UBI_EC_HDR_SIZE) 8 8 = ec at h hec
          have hle : ec ≤ EC_MAX := not_lt.mp hec
          have hvalid : ec = EB_BAD ↔ flash.bad eb = true := by
            apply hne
            rw [EC_MAX] at hle
            rw [EB_BAD]
            omega
          have hcnt (n : ℕ) : n+1 = n+if ec ≤ EC_MAX then 1 else 0 := by rw [if_pos hle]
          split at h
          · split at h
            · obtain rfl := Except.ok.inj h
              exact ⟨EB_CORRUPTED, rfl, rfl, hne (by decide), rfl⟩
            · obtain rfl := Except.ok.inj h
              exact ⟨ec, rfl, rfl, hvalid, hcnt _⟩
          · split at h
            · obtain rfl := Except.ok.inj h
              exact ⟨EB_CORRUPTED, rfl, rfl, hne (by decide), rfl⟩
            · split at h
              · obtain rfl := Except.ok.inj h
                exact ⟨EB_CORRUPTED, rfl, rfl, hne (by decide), rfl⟩
              · obtain rfl := Except.ok.inj h
                exact ⟨ec, rfl, rfl, hvalid, hcnt _⟩

/-- The counts after the first `n` eraseblocks. -/
structure ScanInv (flash : Flash) (n : ℕ) (si : ScanInfo) : Prop where
  mean_ec : si.mean_ec = 0
  bad : ∀ eb < n, si.ec eb = EB_BAD ↔ flash.bad eb = true
  ok_cnt : si.ok_cnt = ∑ eb ∈ Finset.range n, if si.ec eb ≤ EC_MAX then 1 else 0

theorem ScanInv.step {n : ℕ} (h : ScanInv flash n si) (hs : scanEb mtd flash n si = .ok si') :
    ScanInv flash (n+1) si' := by
  obtain ⟨v, hec, hmean, hbad, hok⟩ := scanEb_step hs
  have hother {eb : ℕ} (hlt : eb < n) : si'.ec eb = si.ec eb := by
    rw [hec]
    exact if_neg (Nat.ne_of_lt hlt)
  have hself : si'.ec n = v := by
    rw [hec]
    exact if_pos rfl
  refine ⟨hmean.trans h.mean_ec, ?_, ?_⟩
  · intro eb heb
    rcases Nat.lt_succ_iff_lt_or_eq.mp heb with hlt | rfl
    · rw [hother hlt]
      exact h.bad eb hlt
    · rw [hself]
      exact hbad
  · rw [Finset.sum_range_succ, hok, h.ok_cnt, hself]
    congr 1
    apply Finset.sum_congr rfl
    intro eb heb
    rw [hother (Finset.mem_range.mp heb)]

theorem scan_inv {n : ℕ} (h : forRange (scanEb mtd flash) n 0 ⟨fun _ => 0, 0, 0, 0, 0, 0, 0, 0, -1, -1⟩ =
    .ok si) : ScanInv flash n si := by
  have hinv := forRange_inv (P := ScanInv flash) (fun j t t' _ _ hP hs => hP.step hs)
    ⟨rfl, fun eb heb => absurd heb (Nat.not_lt_zero eb), rfl⟩ h
  rwa [Nat.zero_add] at hinv

/-- The mean is not above the maximum. -/
theorem meanEc_le (h : ScanInv flash mtd.eb_cnt si) : meanEc mtd si ≤ EC_MAX := by
  unfold meanEc
  split
  · rw [h.mean_ec]
    exact Nat.zero_le _
  next h0 =>
    apply Nat.div_le_of_le_mul
    rw [h.ok_cnt, ← List.sum_toFinset _ List.nodup_range, List.toFinset_range, Finset.sum_mul]
    apply Finset.sum_le_sum
    intro eb _
    by_cases hle : si.ec eb ≤ EC_MAX
    · rw [if_neg (not_lt.mpr hle), if_pos hle, one_mul]
      exact hle
    · rw [if_pos (not_le.mp hle)]
      exact Nat.zero_le _

/-- What the scan of a device is known to give. -/
structure Scanned (mtd : Mtd) (flash : Flash) (si : ScanInfo) : Prop where
  bad : ∀ eb < mtd.eb_cnt, si.ec eb = EB_BAD ↔ flash.bad eb = true
  mean_ec : si.mean_ec ≤ EC_MAX

theorem ubiScan_scanned (h : ubiScan mtd flash = .ok si) : Scanned mtd flash si := by
  obtain ⟨si', hs, h⟩ := Loop.bind_eq_ok h
  obtain rfl := Except.ok.inj h
  have hinv := scan_inv hs
  exact ⟨hinv.bad, meanEc_le hinv⟩

/-- The offsets of a scan are not known yet, or those of the info. -/
def OffsKnown (ui : UbigenInfo) (si : ScanInfo) : Prop :=
  si.vid_hdr_offs = -1 ∨ (si.vid_hdr_offs = ui.vid_hdr_offs ∧ si.data_offs = ui.data_offs)

/-- An eraseblock with an EC header of the info is OK. -/
theorem scanEb_valid (hs : ui.Sane) (hio : ui.data_offs%mtd.min_io_size = 0) {ec : ℕ}
    (hbad : flash.bad eb = false)
    (hhdr : EcHdrAt ui ec (readBytes (flash.data eb) 0 UBI_EC_HDR_SIZE)) (hec : ec ≤ EC_MAX)
    (hoffs : OffsKnown ui si) : ∃ si', scanEb mtd flash eb si = .ok si' ∧
      si'.ec = (fun i => if i = eb then ec else si.ec i) ∧
      si'.vid_hdr_offs = ui.vid_hdr_offs ∧ si'.data_offs = ui.data_offs := by
  have h1 := hs.vid_data
  have h2 := hs.data_peb
  have h3 := hs.peb_lt
  unfold scanEb
  rw [hbad, if_neg Bool.false_ne_true]
  dsimp only
  rw [if_neg (not_not.mpr hhdr.magic), if_neg (not_not.mpr hhdr.hdr_crc), hhdr.ec,
    if_neg (not_lt.mpr hec), hhdr.vid_hdr_offset, hhdr.data_offset,
    toInt32_of_lt (by omega) (by omega), toInt32_of_lt (by omega) (by omega)]
  have hmod : ((ui.data_offs : ℤ).tmod mtd.min_io_size) = 0 := by
    rw [← Int.ofNat_tmod, hio]
    rfl
  rw [if_neg (not_not.mpr hmod)]
  rcases hoffs with h | ⟨hv, hd⟩
  · rw [if_pos h]
    exact ⟨_, rfl, rfl, rfl, rfl⟩
  · rw [if_neg (by rw [hv]; omega), if_neg (not_not.mpr hv.symm), if_neg (not_not.mpr hd.symm)]
    exact ⟨_, rfl, rfl, hv, hd⟩

/-- The first `n` eraseblocks are bad, or OK with the counters `ec`. -/
structure AllValid (ui : UbigenInfo) (flash : Flash) (ec : ℕ → ℕ) (n : ℕ) (si : ScanInfo) : Prop where
  offs : OffsKnown ui si
  ec_eq : ∀ eb < n, flash.bad eb = false → si.ec eb = ec eb
  known : (∃ eb < n, flash.bad eb = false) →
    si.vid_hdr_offs = ui.vid_hdr_offs ∧ si.data_offs = ui.data_offs

theorem AllValid.step (hs : ui.Sane) (hio : ui.data_offs%mtd.min_io_size = 0) {ec : ℕ → ℕ} {n : ℕ}
    (h : AllValid ui flash ec n si)
    (hhdr : flash.bad n = false → ec n ≤ EC_MAX ∧
      EcHdrAt ui (ec n) (readBytes (flash.data n) 0 UBI_EC_HDR_SIZE)) :
    ∃ si', scanEb mtd flash n si = .ok si' ∧ AllValid ui flash ec (n+1) si' := by
  by_cases hbad : flash.bad n = true
  · refine ⟨_, if_pos hbad, h.offs, ?_, ?_⟩
    · intro eb heb hgood
      rcases Nat.lt_succ_iff_lt_or_eq.mp heb with hlt | rfl
      · exact (if_neg (Nat.ne_of_lt hlt)).trans (h.ec_eq eb hlt hgood)
      · rw [hbad] at hgood
        cases hgood
    · rintro ⟨eb, heb, hgood⟩
      rcases Nat.lt_succ_iff_lt_or_eq.mp heb with hlt | rfl
      · exact h.known ⟨eb, hlt, hgood⟩
      · rw [hbad] at hgood
        cases hgood
  · have hgood : flash.bad n = false := Bool.eq_false_iff.mpr hbad
    obtain ⟨hec, hh⟩ := hhdr hgood
    obtain ⟨si', hs', hec', hv, hd⟩ := scanEb_valid hs hio hgood hh hec h.offs
    refine ⟨si', hs', Or.inr ⟨hv, hd⟩, ?_, fun _ => ⟨hv, hd⟩⟩
    intro eb heb hg
    rw [hec']
    rcases Nat.lt_succ_iff_lt_or_eq.mp heb with hlt | rfl
    · exact (if_neg (Nat.ne_of_lt hlt)).trans (h.ec_eq eb hlt hg)
    · exact if_pos rfl

/-- Where each eraseblock that is not bad has an EC header of the info, the scan finds all of
them OK. -/
theorem ubiScan_valid (hs : ui.Sane) (hio : ui.data_offs%mtd.min_io_size = 0) {ec : ℕ → ℕ}
    (hgood : ∃ eb < mtd.eb_cnt, flash.bad eb = false)
    (hhdr : ∀ eb < mtd.eb_cnt, flash.bad eb = false → ec eb ≤ EC_MAX ∧
      EcHdrAt ui (ec eb) (readBytes (flash.data eb) 0 UBI_EC_HDR_SIZE)) :
    ∃ si, ubiScan mtd flash = .ok si ∧ si.vid_hdr_offs = ui.vid_hdr_offs ∧
      si.data_offs = ui.data_offs ∧
      ∀ eb < mtd.eb_cnt, flash.bad eb = false → si.ec eb = ec eb := by
  have hstart : AllValid ui flash ec 0 ⟨fun _ => 0, 0, 0, 0, 0, 0, 0, 0, -1, -1⟩ :=
    ⟨Or.inl rfl, fun eb heb => absurd heb (Nat.not_lt_zero eb),
      fun ⟨eb, heb, _⟩ => absurd heb (Nat.not_lt_zero eb)⟩
  obtain ⟨si, hrun, hP⟩ := forRange_total (n := mtd.eb_cnt)
    (fun j t _ hj hP => hP.step hs hio (hhdr j (by omega))) hstart
  rw [Nat.zero_add] at hP
  obtain ⟨hv, hd⟩ := hP.known hgood
  refine ⟨{ si with mean_ec := meanEc mtd si, good_cnt := mtd.eb_cnt-si.bad_cnt }, ?_, hv, hd,
    hP.ec_eq⟩
  unfold ubiScan
  rw [hrun]
  rfl

end Scan

end ChipTools.Ubi
