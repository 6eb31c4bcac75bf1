import ChipTools.UbiScan

/-! What `ubi_scan` says of an eraseblock as a function of its EC header and of the headers before
it, and what becomes of the others where the header of a corrupted one is emptied. -/
namespace ChipTools.Ubi
open Bytes CNumber Loop

section Headers

variable (mtd : Mtd) (flash : Flash)

/-- The bytes of the EC header. -/
def ecHdr (eb : ℕ) : List Byte := readBytes (flash.data eb) 0 UBI_EC_HDR_SIZE

/-- The eraseblock is not bad, and has an EC header with the right CRC. -/
def Headed (eb : ℕ) : Prop :=
  flash.bad eb = false ∧ beField (ecHdr flash eb) 0 4 = UBI_EC_HDR_MAGIC ∧
    beField (ecHdr flash eb) 60 4 = (mtdCrc32 UBI_CRC32_INIT ((ecHdr flash eb).take 60)).toNat

instance (eb : ℕ) : Decidable (Headed flash eb) := inferInstanceAs (Decidable (_ ∧ _ ∧ _))

def ecAt (eb : ℕ) : ℕ := beField (ecHdr flash eb) 8 8

/-- The offsets in the header: of the VID header and of the data. -/
def hdrOffs (eb : ℕ) : ℤ × ℤ :=
  (toInt32 (beField (ecHdr flash eb) 16 4), toInt32 (beField (ecHdr flash eb) 20 4))

/-- The headers before an eraseblock, in their order. -/
def headersBefore (eb : ℕ) : List (ℤ × ℤ) :=
  ((List.range eb).filter fun i => Headed flash i).map (hdrOffs flash)

/-- The offsets of the last header before an eraseblock, which is none at the start. -/
def lastOffs (eb : ℕ) : ℤ × ℤ := (headersBefore flash eb).getLast?.getD (-1, -1)

/-- No header before the eraseblock has a VID header offset. The bytes ff ff ff ff are none. -/
def First (eb : ℕ) : Prop := ∀ i < eb, Headed flash i → (hdrOffs flash i).1 = -1

/-- The eraseblock is the first one with a header, and its data offset is not on a page. -/
def Spoils (eb : ℕ) : Prop :=
  Headed flash eb ∧ First flash eb ∧ (hdrOffs flash eb).2.tmod mtd.min_io_size ≠ 0

/-- No header is remembered of an eraseblock that is rejected: neither its VID header offset, nor
its data offset where this is the last one and new. -/
def Unspoiled : Prop :=
  ∀ eb < mtd.eb_cnt, Spoils mtd flash eb → (hdrOffs flash eb).1 = -1 ∧
    ((∃ j < mtd.eb_cnt, eb < j ∧ Headed flash j) ∨ (hdrOffs flash eb).2 = (lastOffs flash eb).2)

/-- The eraseblock with an empty EC header. -/
def emptied (eb : ℕ) : Flash :=
  { flash with data := fun i x =>
      if i = eb ∧ x < UBI_EC_HDR_SIZE then 0xff#8 else flash.data i x }

/-- The counters of the eraseblocks that are OK. -/
def okCounters (si : ScanInfo) : List ℕ :=
  ((List.range mtd.eb_cnt).map si.ec).filter (· ≤ EC_MAX)

/-- The counts of a scan add up, and the mean is that of the counters. -/
structure CountsOk (si : ScanInfo) : Prop where
  total : si.ok_cnt+si.corrupted_cnt+si.empty_cnt+si.alien_cnt+si.bad_cnt = mtd.eb_cnt
  ok_cnt : si.ok_cnt = (okCounters mtd si).length
  mean : si.mean_ec = (okCounters mtd si).sum/(okCounters mtd si).length

/-- An eraseblock that is taken for corrupted is of no account for the others. -/
def Independent (si : ScanInfo) : Prop :=
  ∀ eb < mtd.eb_cnt, si.ec eb = EB_CORRUPTED →
    ∃ si', ubiScan mtd (emptied flash eb) = .ok si' ∧
      (∀ i < mtd.eb_cnt, i ≠ eb → si'.ec i = si.ec i) ∧
      si'.vid_hdr_offs = si.vid_hdr_offs ∧ si'.data_offs = si.data_offs

end Headers

section Passes

variable {mtd : Mtd} {flash : Flash} {eb : ℕ} {si si' : ScanInfo}

/-- What the scan says of an eraseblock where it remembers the offsets `o`. -/
def scanCode (mtd : Mtd) (flash : Flash) (o : ℤ × ℤ) (eb : ℕ) : ℕ :=
  if flash.bad eb then EB_BAD
  else if Headed flash eb then
    if o.1 = -1 then
      if (hdrOffs flash eb).2.tmod mtd.min_io_size ≠ 0 then EB_CORRUPTED else ecAt flash eb
    else if hdrOffs flash eb ≠ o then EB_CORRUPTED
    else ecAt flash eb
  else if beField (ecHdr flash eb) 0 4 = UBI_EC_HDR_MAGIC then EB_CORRUPTED
  else if (ecHdr flash eb).all (· = 0xff#8) then EB_EMPTY
  else EB_ALIEN

/-- The offsets that are remembered behind an eraseblock. -/
def nextOffs (flash : Flash) (o : ℤ × ℤ) (eb : ℕ) : ℤ × ℤ :=
  if Headed flash eb ∧ o.1 = -1 then hdrOffs flash eb else o

def offsBefore (flash : Flash) : ℕ → ℤ × ℤ
  | 0 => (-1, -1)
  | n+1 => nextOffs flash (offsBefore flash n) n

theorem offsBefore_succ (flash : Flash) (n : ℕ) :
    offsBefore flash (n+1) = nextOffs flash (offsBefore flash n) n := rfl

/-- The counter of an eraseblock is too large for the scan. -/
def TooWorn (flash : Flash) (eb : ℕ) : Prop := Headed flash eb ∧ EC_MAX < ecAt flash eb

/-- What a pass does. -/
structure Pass (mtd : Mtd) (flash : Flash) (eb : ℕ) (si si' : ScanInfo) : Prop where
  ec : si'.ec = fun i =>
    if i = eb then scanCode mtd flash (si.vid_hdr_offs, si.data_offs) eb else si.ec i
  offs : (si'.vid_hdr_offs, si'.data_offs) = nextOffs flash (si.vid_hdr_offs, si.data_offs) eb
  mean_ec : si'.mean_ec = si.mean_ec
  total : si'.ok_cnt+si'.corrupted_cnt+si'.empty_cnt+si'.alien_cnt+si'.bad_cnt =
    si.ok_cnt+si.corrupted_cnt+si.empty_cnt+si.alien_cnt+si.bad_cnt+1
  ok_cnt : si'.ok_cnt = si.ok_cnt +
    if scanCode mtd flash (si.vid_hdr_offs, si.data_offs) eb ≤ EC_MAX then 1 else 0

/-- The codes are no counters. -/
theorem codes_above : ¬ EB_BAD ≤ EC_MAX ∧ ¬ EB_EMPTY ≤ EC_MAX ∧ ¬ EB_ALIEN ≤ EC_MAX ∧
    ¬ EB_CORRUPTED ≤ EC_MAX := by decide

theorem scanEb_eq (mtd : Mtd) (flash : Flash) (eb : ℕ) (si : ScanInfo) : scanEb mtd flash eb si =
    if flash.bad eb then .ok ({ si with bad_cnt := si.bad_cnt+1 }.setEc eb EB_BAD)
    else if beField (ecHdr flash eb) 0 4 ≠ UBI_EC_HDR_MAGIC then
      if ∀ b ∈ ecHdr flash eb, b = 0xff#8 then
        .ok ({ si with empty_cnt := si.empty_cnt+1 }.setEc eb EB_EMPTY)
      else .ok ({ si with alien_cnt := si.alien_cnt+1 }.setEc eb EB_ALIEN)
    else if beField (ecHdr flash eb) 60 4 ≠
        (mtdCrc32 UBI_CRC32_INIT ((ecHdr flash eb).take 60)).toNat then .ok (si.corrupted eb)
    else if EC_MAX < ecAt flash eb then
      .error (.errmsg (s!"erase counter in EB {eb} is {ecAt flash eb}, while this " ++
        s!"program expects them to be less than {EC_MAX}"))
    else if si.vid_hdr_offs = -1 then
      if (hdrOffs flash eb).2.tmod mtd.min_io_size ≠ 0 then
        .ok ({ si with vid_hdr_offs := (hdrOffs flash eb).1,
                       data_offs := (hdrOffs flash eb).2 }.corrupted eb)
      else .ok ({ si with vid_hdr_offs := (hdrOffs flash eb).1,
                          data_offs := (hdrOffs flash eb).2 }.valid eb (ecAt flash eb))
    else if (hdrOffs flash eb).1 ≠ si.vid_hdr_offs then .ok (si.corrupted eb)
    else if (hdrOffs flash eb).2 ≠ si.data_offs then .ok (si.corrupted eb)
    else .ok (si.valid eb (ecAt flash eb)) := by
  unfold scanEb ecAt hdrOffs ecHdr
  dsimp only

/-- A pass stops at a counter that is too large, and at nothing else. -/
theorem scanEb_pass (mtd : Mtd) (flash : Flash) (eb : ℕ) (si : ScanInfo) :
    (TooWorn flash eb ∧ ∃ text, scanEb mtd flash eb si = .error (.errmsg text)) ∨
    (¬ TooWorn flash eb ∧ ∃ si', scanEb mtd flash eb si = .ok si' ∧ Pass mtd flash eb si si') := by
  obtain ⟨hbad, hempty, halien, hcorr⟩ := codes_above
  -- what is not headed is never too worn, and leaves the offsets alone
  have hplain {si' : ScanInfo} {v : ℕ} (hh : ¬ Headed flash eb) (hs : scanEb mtd flash eb si = .ok si')
      (hv : scanCode mtd flash (si.vid_hdr_offs, si.data_offs) eb = v) (hle : ¬ v ≤ EC_MAX)
      (hec : si'.ec = fun i => if i = eb then v else si.ec i)
      (hoffs : (si'.vid_hdr_offs, si'.data_offs) = (si.vid_hdr_offs, si.data_offs))
      (hmean : si'.mean_ec = si.mean_ec)
      (htotal : si'.ok_cnt+si'.corrupted_cnt+si'.empty_cnt+si'.alien_cnt+si'.bad_cnt =
        si.ok_cnt+si.corrupted_cnt+si.empty_cnt+si.alien_cnt+si.bad_cnt+1)
      (hok : si'.ok_cnt = si.ok_cnt) :
      ¬ TooWorn flash eb ∧ ∃ si', scanEb mtd flash eb si = .ok si' ∧ Pass mtd flash eb si si' := by
    refine ⟨fun hw => hh hw.1, si', hs, ?_, ?_, hmean, htotal, ?_⟩
    · rw [hv]
      exact hec
    · rw [hoffs, nextOffs, if_neg (fun h => hh h.1)]
    · rw [hv, if_neg hle]
      exact hok
  by_cases hb : flash.bad eb = true
  · right
    have hh : ¬ Headed flash eb := fun hh => by
      rw [hh.1] at hb
      cases hb
    apply hplain (v := EB_BAD) hh
    · exact if_pos hb
    · exact if_pos hb
    · exact hbad
    · rfl
    · rfl
    · rfl
    · change si.ok_cnt+si.corrupted_cnt+si.empty_cnt+si.alien_cnt+(si.bad_cnt+1) = _
      omega
    · rfl
  by_cases hm : beField (ecHdr flash eb) 0 4 = UBI_EC_HDR_MAGIC
  · by_cases hc : beField (ecHdr flash eb) 60 4 =
        (mtdCrc32 UBI_CRC32_INIT ((ecHdr flash eb).take 60)).toNat
    · have hh : Headed flash eb := ⟨Bool.eq_false_iff.mpr hb, hm, hc⟩
      by_cases hw : EC_MAX < ecAt flash eb
      · left
        rw [scanEb_eq, if_neg hb, if_neg (not_not.mpr hm), if_neg (not_not.mpr hc), if_pos hw]
        exact ⟨⟨hh, hw⟩, _, rfl⟩
      · right
        refine ⟨fun h => hw h.2, ?_⟩
        have hle : ecAt flash eb ≤ EC_MAX := not_lt.mp hw
        rw [scanEb_eq, if_neg hb, if_neg (not_not.mpr hm), if_neg (not_not.mpr hc), if_neg hw]
        by_cases hf : si.vid_hdr_offs = -1
        · -- the offsets are remembered before the data offset is looked at
          have hnext : nextOffs flash (si.vid_hdr_offs, si.data_offs) eb = hdrOffs flash eb :=
            if_pos ⟨hh, hf⟩
          rw [if_pos hf]
          by_cases hd : (hdrOffs flash eb).2.tmod mtd.min_io_size ≠ 0
          · have hcode : scanCode mtd flash (si.vid_hdr_offs, si.data_offs) eb = EB_CORRUPTED := by
              rw [scanCode, if_neg hb, if_pos hh, if_pos hf, if_pos hd]
            rw [if_pos hd]
            refine ⟨_, rfl, by rw [hcode]; rfl, by simp only [hnext, ScanInfo.corrupted, ScanInfo.setEc], rfl, ?_, ?_⟩
            · change si.ok_cnt+(si.corrupted_cnt+1)+si.empty_cnt+si.alien_cnt+si.bad_cnt = _
              omega
            · rw [hcode, if_neg hcorr]
              rfl
          · have hcode : scanCode mtd flash (si.vid_hdr_offs, si.data_offs) eb = ecAt flash eb := by
              rw [scanCode, if_neg hb, if_pos hh, if_pos hf, if_neg hd]
            rw [if_neg hd]
            refine ⟨_, rfl, by rw [hcode]; rfl, by simp only [hnext, ScanInfo.valid, ScanInfo.setEc], rfl, ?_, ?_⟩
            · change si.ok_cnt+1+si.corrupted_cnt+si.empty_cnt+si.alien_cnt+si.bad_cnt = _
              omega
            · rw [hcode, if_pos hle]
              rfl
        · have hnext : nextOffs flash (si.vid_hdr_offs, si.data_offs) eb =
              (si.vid_hdr_offs, si.data_offs) := if_neg (fun h => hf h.2)
          rw [if_neg hf]
          by_cases ho : hdrOffs flash eb = (si.vid_hdr_offs, si.data_offs)
          · have hcode : scanCode mtd flash (si.vid_hdr_offs, si.data_offs) eb = ecAt flash eb := by
              rw [scanCode, if_neg hb, if_pos hh, if_neg hf, if_neg (not_not.mpr ho)]
            rw [if_neg (not_not.mpr (congrArg Prod.fst ho)), if_neg (not_not.mpr (congrArg Prod.snd ho))]
            refine ⟨_, rfl, by rw [hcode]; rfl, by rw [hnext]; rfl, rfl, ?_, ?_⟩
            · change si.ok_cnt+1+si.corrupted_cnt+si.empty_cnt+si.alien_cnt+si.bad_cnt = _
              omega
            · rw [hcode, if_pos hle]
              rfl
          · have hcode : scanCode mtd flash (si.vid_hdr_offs, si.data_offs) eb = EB_CORRUPTED := by
              rw [scanCode, if_neg hb, if_pos hh, if_neg hf, if_pos ho]
            have hstep : Pass mtd flash eb si (si.corrupted eb) := by
              refine ⟨by rw [hcode]; rfl, by rw [hnext]; rfl, rfl, ?_, ?_⟩
              · change si.ok_cnt+(si.corrupted_cnt+1)+si.empty_cnt+si.alien_cnt+si.bad_cnt = _
                omega
              · rw [hcode, if_neg hcorr]
                rfl
            by_cases hv : (hdrOffs flash eb).1 = si.vid_hdr_offs
            · have hd : (hdrOffs flash eb).2 ≠ si.data_offs := fun hd => ho (Prod.ext hv hd)
              rw [if_neg (not_not.mpr hv), if_pos hd]
              exact ⟨_, rfl, hstep⟩
            · rw [if_pos hv]
              exact ⟨_, rfl, hstep⟩
    · right
      have hh : ¬ Headed flash eb := fun hh => hc hh.2.2
      apply hplain (v := EB_CORRUPTED) hh
      · rw [scanEb_eq, if_neg hb, if_neg (not_not.mpr hm), if_pos hc]
      · rw [scanCode, if_neg hb, if_neg hh, if_pos hm]
      · exact hcorr
      · rfl
      · rfl
      · rfl
      · change si.ok_cnt+(si.corrupted_cnt+1)+si.empty_cnt+si.alien_cnt+si.bad_cnt = _
        omega
      · rfl
  · right
    have hh : ¬ Headed flash eb := fun hh => hm hh.2.1
    have hall : (ecHdr flash eb).all (· = 0xff#8) = true ↔ ∀ b ∈ ecHdr flash eb, b = 0xff#8 := by
      simp only [List.all_eq_true, decide_eq_true_eq]
    by_cases hff : ∀ b ∈ ecHdr flash eb, b = 0xff#8
    · apply hplain (v := EB_EMPTY) hh
      · rw [scanEb_eq, if_neg hb, if_pos hm, if_pos hff]
      · rw [scanCode, if_neg hb, if_neg hh, if_neg hm, if_pos (hall.mpr hff)]
      · exact hempty
      · rfl
      · rfl
      · rfl
      · change si.ok_cnt+si.corrupted_cnt+(si.empty_cnt+1)+si.alien_cnt+si.bad_cnt = _
        omega
      · rfl
    · apply hplain (v := EB_ALIEN) hh
      · rw [scanEb_eq, if_neg hb, if_pos hm, if_neg hff]
      · rw [scanCode, if_neg hb, if_neg hh, if_neg hm, if_neg (mt hall.mp hff)]
      · exact halien
      · rfl
      · rfl
      · rfl
      · change si.ok_cnt+si.corrupted_cnt+si.empty_cnt+(si.alien_cnt+1)+si.bad_cnt = _
        omega
      · rfl

end Passes

section Whole

variable {mtd : Mtd} {flash : Flash} {eb n : ℕ} {si si' : ScanInfo}

/-- What is known after the first `n` eraseblocks. -/
structure Described (mtd : Mtd) (flash : Flash) (n : ℕ) (si : ScanInfo) : Prop where
  ec : ∀ eb < n, si.ec eb = scanCode mtd flash (offsBefore flash eb) eb
  offs : (si.vid_hdr_offs, si.data_offs) = offsBefore flash n
  mean_ec : si.mean_ec = 0
  total : si.ok_cnt+si.corrupted_cnt+si.empty_cnt+si.alien_cnt+si.bad_cnt = n
  ok_cnt : si.ok_cnt = (((List.range n).map si.ec).filter (· ≤ EC_MAX)).length

theorem Described.pass (h : Described mtd flash n si) (hp : Pass mtd flash n si si') :
    Described mtd flash (n+1) si' := by
  have hother : ∀ eb < n, si'.ec eb = si.ec eb := by
    intro eb heb
    rw [hp.ec]
    exact if_neg (Nat.ne_of_lt heb)
  have hself : si'.ec n = scanCode mtd flash (si.vid_hdr_offs, si.data_offs) n := by
    rw [hp.ec]
    exact if_pos rfl
  constructor
  · intro eb heb
    rcases Nat.lt_succ_iff_lt_or_eq.mp heb with hlt | rfl
    · rw [hother eb hlt]
      exact h.ec eb hlt
    · rw [hself, h.offs]
  · rw [hp.offs, h.offs]
    rfl
  · exact hp.mean_ec.trans h.mean_ec
  · rw [hp.total, h.total]
  · have hmap : (List.range n).map si'.ec = (List.range n).map si.ec :=
      List.map_congr_left fun eb heb => hother eb (List.mem_range.mp heb)
    rw [List.range_succ, List.map_append, List.filter_append, List.length_append, hmap, ← h.ok_cnt,
      hp.ok_cnt, List.map_singleton, hself, List.filter_singleton]
    generalize scanCode mtd flash (si.vid_hdr_offs, si.data_offs) n = v
    by_cases hv : v ≤ EC_MAX <;> simp [hv]

/-- The scan comes to its end just where no counter is too large, and what it finds then. -/
theorem ubiScan_described : (∀ eb < mtd.eb_cnt, ¬ TooWorn flash eb) ↔ ∃ si, ubiScan mtd flash = .ok si := by
  constructor
  · intro hw
    have hstart : Described mtd flash 0 ⟨fun _ => 0, 0, 0, 0, 0, 0, 0, 0, -1, -1⟩ :=
      ⟨fun eb heb => absurd heb (Nat.not_lt_zero eb), rfl, rfl, rfl, rfl⟩
    have hpass : ∀ j t, 0 ≤ j → j < 0+mtd.eb_cnt → Described mtd flash j t →
        ∃ t', scanEb mtd flash j t = .ok t' ∧ Described mtd flash (j+1) t' := by
      intro j t _ hj hP
      rcases scanEb_pass mtd flash j t with ⟨hbad, -⟩ | ⟨-, t', ht', hp⟩
      · exact absurd hbad (hw j (by omega))
      · exact ⟨t', ht', hP.pass hp⟩
    obtain ⟨s, hs, -⟩ := forRange_total hpass hstart
    unfold ubiScan
    rw [hs]
    exact ⟨_, rfl⟩
  · rintro ⟨si, h⟩
    obtain ⟨s, hs, -⟩ := Loop.bind_eq_ok h
    have hpass : ∀ j t t', 0 ≤ j → j < 0+mtd.eb_cnt → (∀ eb < j, ¬ TooWorn flash eb) →
        scanEb mtd flash j t = .ok t' → ∀ eb < j+1, ¬ TooWorn flash eb := by
      intro j t t' _ _ hP ht eb heb
      rcases Nat.lt_succ_iff_lt_or_eq.mp heb with hlt | rfl
      · exact hP eb hlt
      · rcases scanEb_pass mtd flash eb t with ⟨-, text, herr⟩ | ⟨hok, -⟩
        · rw [herr] at ht
          cases ht
        · exact hok
    have hrun := forRange_inv hpass (fun eb heb => absurd heb (Nat.not_lt_zero eb)) hs
    rwa [Nat.zero_add] at hrun

theorem sum_counters (f : ℕ → ℕ) (l : List ℕ) :
    (l.map fun eb => if EC_MAX < f eb then 0 else f eb).sum = ((l.map f).filter (· ≤ EC_MAX)).sum := by
  induction l with
  | nil => rfl
  | cons a l ih =>
    rw [List.map_cons, List.sum_cons, ih, List.map_cons, List.filter_cons]
    by_cases h : EC_MAX < f a
    · rw [if_pos h, if_neg (by simpa using h), Nat.zero_add]
    · rw [if_neg h, if_pos (by simpa using h), List.sum_cons]

/-- The codes, the offsets and the counts of a scan that has come to its end. -/
theorem ubiScan_spec (h : ubiScan mtd flash = .ok si) :
    (∀ eb < mtd.eb_cnt, si.ec eb = scanCode mtd flash (offsBefore flash eb) eb) ∧
    (si.vid_hdr_offs, si.data_offs) = offsBefore flash mtd.eb_cnt ∧ CountsOk mtd si := by
  obtain ⟨s, hs, h⟩ := Loop.bind_eq_ok h
  have hpass : ∀ j t t', 0 ≤ j → j < 0+mtd.eb_cnt → Described mtd flash j t →
      scanEb mtd flash j t = .ok t' → Described mtd flash (j+1) t' := by
    intro j t t' _ _ hP ht
    rcases scanEb_pass mtd flash j t with ⟨-, text, herr⟩ | ⟨-, t₁, ht₁, hp⟩
    · rw [herr] at ht
      cases ht
    · obtain rfl := Except.ok.inj (ht₁.symm.trans ht)
      exact hP.pass hp
  have hd := forRange_inv hpass
    ⟨fun eb heb => absurd heb (Nat.not_lt_zero eb), rfl, rfl, rfl, rfl⟩ hs
  rw [Nat.zero_add] at hd
  obtain rfl := Except.ok.inj h
  refine ⟨hd.ec, hd.offs, hd.total, hd.ok_cnt, ?_⟩
  change meanEc mtd s = _
  have hok : s.ok_cnt = (okCounters mtd s).length := hd.ok_cnt
  unfold meanEc
  split
  next h0 =>
    -- with no counter the mean stays at its start
    rw [hd.mean_ec]
    change 0 = (okCounters mtd s).sum/(okCounters mtd s).length
    rw [← hok, h0, Nat.div_zero]
  next =>
    rw [sum_counters, hok]
    rfl

end Whole

section Emptied

variable {mtd : Mtd} {flash : Flash} {eb i n : ℕ}

theorem ecHdr_emptied (hi : i ≠ eb) : ecHdr (emptied flash eb) i = ecHdr flash i := by
  apply readBytes_congr
  intro x _
  exact if_neg fun h => hi h.1

/-- All but the eraseblock itself is as before. -/
theorem emptied_same (hi : i ≠ eb) : (Headed (emptied flash eb) i ↔ Headed flash i) ∧
    hdrOffs (emptied flash eb) i = hdrOffs flash i ∧ ecAt (emptied flash eb) i = ecAt flash i := by
  have hhdr := @ecHdr_emptied flash _ _ hi
  refine ⟨?_, by rw [hdrOffs, hhdr, hdrOffs], by rw [ecAt, hhdr, ecAt]⟩
  unfold Headed
  rw [hhdr]
  rfl

theorem scanCode_emptied (hi : i ≠ eb) (o : ℤ × ℤ) :
    scanCode mtd (emptied flash eb) o i = scanCode mtd flash o i := by
  obtain ⟨h1, h2, h3⟩ := @emptied_same flash _ _ hi
  unfold scanCode
  simp only [h1, h2, h3, ecHdr_emptied hi]
  rfl

theorem not_headed_emptied : ¬ Headed (emptied flash eb) eb := by
  rintro ⟨-, hmagic, -⟩
  have hhdr : ecHdr (emptied flash eb) eb = List.replicate 64 0xff#8 := by
    apply readBytes_const
    intro x hx
    rw [Nat.zero_add]
    exact if_pos ⟨rfl, hx⟩
  rw [hhdr] at hmagic
  exact absurd hmagic (by decide)

/-- The scan of the emptied flash comes to its end too. -/
theorem emptied_scans {si : ScanInfo} (h : ubiScan mtd flash = .ok si) :
    ∃ si', ubiScan mtd (emptied flash eb) = .ok si' := by
  have hw := ubiScan_described.mpr ⟨si, h⟩
  apply ubiScan_described.mp
  rintro i hi ⟨hheaded, hec⟩
  by_cases hie : i = eb
  · rw [hie] at hheaded
    exact not_headed_emptied hheaded
  · obtain ⟨h1, -, h3⟩ := @emptied_same flash _ _ hie
    rw [h3] at hec
    exact hw i hi ⟨h1.mp hheaded, hec⟩

theorem nextOffs_emptied (hi : i ≠ eb) (o : ℤ × ℤ) :
    nextOffs (emptied flash eb) o i = nextOffs flash o i := by
  obtain ⟨h1, h2, -⟩ := @emptied_same flash _ _ hi
  unfold nextOffs
  simp only [h1, h2]

/-- Up to the eraseblock the offsets are the same. -/
theorem offsBefore_emptied (hn : n ≤ eb) : offsBefore (emptied flash eb) n = offsBefore flash n := by
  induction n with
  | zero => rfl
  | succ n ih =>
    rw [offsBefore_succ, offsBefore_succ, ih (by omega)]
    exact nextOffs_emptied (by omega) _

/-- And behind it they are those that were known before it. -/
theorem offsBefore_emptied_succ : offsBefore (emptied flash eb) (eb+1) = offsBefore flash eb := by
  rw [offsBefore_succ, offsBefore_emptied (le_refl eb), nextOffs, if_neg fun h => not_headed_emptied h.1]

/-- Nothing is known of the offsets as long as no header has a VID header offset. -/
theorem first_iff : First flash n ↔ (offsBefore flash n).1 = -1 := by
  induction n with
  | zero =>
    constructor
    · intro _
      rfl
    · intro _ i hi
      exact absurd hi (Nat.not_lt_zero i)
  | succ n ih =>
    rw [offsBefore_succ, nextOffs]
    constructor
    · intro h
      have hn := ih.mp fun i hi => h i (by omega)
      split
      next hh => exact h n (Nat.lt_succ_self n) hh.1
      next => exact hn
    · intro h i hi hh
      split at h
      next hcond =>
        rcases Nat.lt_succ_iff_lt_or_eq.mp hi with hlt | rfl
        · exact ih.mpr hcond.2 i hlt hh
        · exact h
      next hcond =>
        rcases Nat.lt_succ_iff_lt_or_eq.mp hi with hlt | rfl
        · exact ih.mpr h i hlt hh
        · exact absurd ⟨hh, h⟩ hcond

/-- Until then they are those of the last header. -/
theorem offsBefore_first (h : First flash n) : offsBefore flash n = lastOffs flash n := by
  induction n with
  | zero => rfl
  | succ n ih =>
    have hn : First flash n := fun i hi => h i (by omega)
    have hknown := first_iff.mp hn
    have hsucc : headersBefore flash (n+1) =
        headersBefore flash n ++ if Headed flash n then [hdrOffs flash n] else [] := by
      rw [headersBefore, List.range_succ, List.filter_append, List.map_append, List.filter_singleton]
      congr 1
      by_cases hh : Headed flash n <;> simp [hh]
    rw [offsBefore_succ, nextOffs, lastOffs, hsucc]
    by_cases hh : Headed flash n
    · rw [if_pos ⟨hh, hknown⟩, if_pos hh, List.getLast?_append]
      rfl
    · rw [if_neg fun hc => hh hc.1, if_neg hh, List.append_nil]
      exact ih hn

/-- Offsets that are known stay. -/
theorem offsBefore_known {a b : ℕ} (hab : a ≤ b) (h : (offsBefore flash a).1 ≠ -1) :
    offsBefore flash b = offsBefore flash a := by
  induction b, hab using Nat.le_induction with
  | base => rfl
  | succ b _ ih =>
    rw [offsBefore_succ, nextOffs, ih]
    exact if_neg fun hc => h hc.2

/-- Where offsets have become known, a header behind has them. -/
theorem exists_known {a b : ℕ} (hab : a ≤ b) (ha : (offsBefore flash a).1 = -1)
    (hb : (offsBefore flash b).1 ≠ -1) : ∃ k, a ≤ k ∧ k < b ∧ Headed flash k ∧
      (offsBefore flash k).1 = -1 ∧ offsBefore flash b = hdrOffs flash k := by
  induction b, hab using Nat.le_induction with
  | base => exact absurd ha hb
  | succ b hab ih =>
    by_cases hkb : (offsBefore flash b).1 = -1
    · -- the last step has set them
      rw [offsBefore_succ, nextOffs] at hb
      split at hb
      next hcond =>
        refine ⟨b, hab, Nat.lt_succ_self b, hcond.1, hkb, ?_⟩
        rw [offsBefore_succ, nextOffs, if_pos hcond]
      next => exact absurd hkb hb
    · obtain ⟨k, h1, h2, h3, h4, h5⟩ := ih hkb
      refine ⟨k, h1, by omega, h3, h4, ?_⟩
      rw [← h5]
      exact offsBefore_known (Nat.le_succ b) hkb

end Emptied

section Law

variable {mtd : Mtd} {flash : Flash} {eb : ℕ} {si : ScanInfo}

/-- Where the offsets are the same behind the emptied eraseblock, they stay the same. -/
theorem offsBefore_same {a b : ℕ} (heb : eb < a) (hab : a ≤ b)
    (h : offsBefore (emptied flash eb) a = offsBefore flash a) :
    offsBefore (emptied flash eb) b = offsBefore flash b := by
  induction b, hab using Nat.le_induction with
  | base => exact h
  | succ b hab ih =>
    rw [offsBefore_succ, offsBefore_succ, ih]
    exact nextOffs_emptied (by omega) _

/-- A header behind an eraseblock sets the offsets anew, as long as they are not known. -/
theorem offsBefore_later {j n : ℕ} (hfirst : (offsBefore flash eb).1 = -1)
    (hvid : (offsBefore flash (eb+1)).1 = -1) (hj : eb < j) (hjn : j < n) (hh : Headed flash j) :
    offsBefore (emptied flash eb) n = offsBefore flash n := by
  -- up to the first such header neither run knows the offsets
  have hboth : ∀ b, eb+1 ≤ b → offsBefore (emptied flash eb) b = offsBefore flash b ∨
      ((offsBefore (emptied flash eb) b).1 = -1 ∧ (offsBefore flash b).1 = -1 ∧
        ∀ i, eb < i → i < b → ¬ Headed flash i) := by
    intro b hb
    induction b, hb using Nat.le_induction with
    | base =>
      refine Or.inr ⟨?_, hvid, fun i h1 h2 => by omega⟩
      rw [offsBefore_emptied_succ]
      exact hfirst
    | succ b hb ih =>
      rcases ih with heq | ⟨h1, h2, h3⟩
      · exact Or.inl (offsBefore_same (by omega) (Nat.le_succ b) heq)
      · by_cases hh : Headed flash b
        · left
          rw [offsBefore_succ, offsBefore_succ, nextOffs_emptied (by omega), nextOffs, nextOffs,
            if_pos ⟨hh, h1⟩, if_pos ⟨hh, h2⟩]
        · right
          rw [offsBefore_succ, offsBefore_succ, nextOffs_emptied (by omega), nextOffs, nextOffs,
            if_neg fun hc => hh hc.1, if_neg fun hc => hh hc.1]
          refine ⟨h1, h2, ?_⟩
          intro i hi hib
          rcases Nat.lt_succ_iff_lt_or_eq.mp hib with hlt | rfl
          · exact h3 i hi hlt
          · exact hh
  rcases hboth n (by omega) with heq | ⟨-, -, hnone⟩
  · exact heq
  · exact absurd hh (hnone j hj hjn)

/-- Where no header is behind, they stay as they are. -/
theorem offsBefore_none {n : ℕ} (hn : eb < n) (hnone : ∀ j, eb < j → j < n → ¬ Headed flash j) :
    offsBefore flash n = offsBefore flash (eb+1) ∧
      offsBefore (emptied flash eb) n = offsBefore flash eb := by
  have hstep : ∀ b, eb+1 ≤ b → (∀ j, eb < j → j < b → ¬ Headed flash j) →
      offsBefore flash b = offsBefore flash (eb+1) ∧
        offsBefore (emptied flash eb) b = offsBefore flash eb := by
    intro b hb
    induction b, hb using Nat.le_induction with
    | base =>
      intro _
      exact ⟨rfl, offsBefore_emptied_succ⟩
    | succ b hb ih =>
      intro hno
      obtain ⟨h1, h2⟩ := ih fun j hj hjb => hno j hj (by omega)
      have hh := hno b (by omega) (Nat.lt_succ_self b)
      rw [← h1, ← h2, offsBefore_succ, offsBefore_succ, nextOffs_emptied (by omega), nextOffs, nextOffs,
        if_neg fun hc => hh hc.1, if_neg fun hc => hh hc.1]
      exact ⟨rfl, rfl⟩
  exact hstep n (by omega) hnone

/-- A counter that the scan has accepted is no code. -/
theorem ecAt_ne_corrupted (hw : ¬ TooWorn flash eb) (hh : Headed flash eb) :
    ecAt flash eb ≠ EB_CORRUPTED := by
  intro h
  have hle : ecAt flash eb ≤ EC_MAX := by
    by_contra hlt
    exact hw ⟨hh, not_le.mp hlt⟩
  rw [h] at hle
  exact codes_above.2.2.2 hle

/-- A corrupted eraseblock that sets offsets is the first one with a header. -/
theorem spoils_of_set (hw : ¬ TooWorn flash eb)
    (hcode : scanCode mtd flash (offsBefore flash eb) eb = EB_CORRUPTED)
    (hset : offsBefore flash (eb+1) ≠ offsBefore flash eb) : Spoils mtd flash eb := by
  have hcond : Headed flash eb ∧ (offsBefore flash eb).1 = -1 := by
    by_contra hno
    rw [offsBefore_succ, nextOffs, if_neg hno] at hset
    exact hset rfl
  refine ⟨hcond.1, first_iff.mpr hcond.2, ?_⟩
  intro hd
  have hbad : ¬ flash.bad eb = true := by
    rw [hcond.1.1]
    exact Bool.false_ne_true
  rw [scanCode, if_neg hbad, if_pos hcond.1, if_pos hcond.2, if_neg (not_not.mpr hd)] at hcode
  exact ecAt_ne_corrupted hw hcond.1 hcode

theorem Spoils.code (h : Spoils mtd flash eb) :
    scanCode mtd flash (offsBefore flash eb) eb = EB_CORRUPTED := by
  obtain ⟨hh, hf, hd⟩ := h
  have hbad : ¬ flash.bad eb = true := by
    rw [hh.1]
    exact Bool.false_ne_true
  rw [scanCode, if_neg hbad, if_pos hh, if_pos (first_iff.mp hf), if_pos hd]

/-- One that has a VID header offset is not of no account. -/
theorem Spoils.vid_account (h : Spoils mtd flash eb) (hw : ∀ i < mtd.eb_cnt, ¬ TooWorn flash i)
    (heb : eb < mtd.eb_cnt) (hvid : (hdrOffs flash eb).1 ≠ -1)
    (hcodes : ∀ i < mtd.eb_cnt, i ≠ eb →
      scanCode mtd flash (offsBefore (emptied flash eb) i) i = scanCode mtd flash (offsBefore flash i) i)
    (hoffs : offsBefore (emptied flash eb) mtd.eb_cnt = offsBefore flash mtd.eb_cnt) : False := by
  obtain ⟨hh, hf, hd⟩ := h
  have hfirst := first_iff.mp hf
  have hset : offsBefore flash (eb+1) = hdrOffs flash eb := by
    rw [offsBefore_succ, nextOffs, if_pos ⟨hh, hfirst⟩]
  have hstay {b : ℕ} (hb : eb+1 ≤ b) : offsBefore flash b = hdrOffs flash eb := by
    rw [← hset]
    exact offsBefore_known hb (by rw [hset]; exact hvid)
  -- in the other run a later header has to give the same offsets
  obtain ⟨k, hek, hk, hkh, hkf, hko⟩ := @exists_known (emptied flash eb) (eb+1) mtd.eb_cnt heb
    (by rw [offsBefore_emptied_succ]; exact hfirst) (by rw [hoffs, hstay heb]; exact hvid)
  have hne : k ≠ eb := by omega
  obtain ⟨h1, h2, -⟩ := @emptied_same flash _ _ hne
  have hkheaded := h1.mp hkh
  have hsame : hdrOffs flash k = hdrOffs flash eb := by rw [← h2, ← hko, hoffs, hstay heb]
  have hbad : ¬ flash.bad k = true := by
    rw [hkheaded.1]
    exact Bool.false_ne_true
  -- there it is the first, and corrupted; here it agrees with the first, and is OK
  have hthere : scanCode mtd flash (offsBefore (emptied flash eb) k) k = EB_CORRUPTED := by
    rw [scanCode, if_neg hbad, if_pos hkheaded, if_pos hkf, hsame, if_pos hd]
  have hhere : scanCode mtd flash (offsBefore flash k) k = ecAt flash k := by
    rw [hstay (by omega), scanCode, if_neg hbad, if_pos hkheaded, if_neg hvid,
      if_neg (not_not.mpr hsame)]
  have := hcodes k hk hne
  rw [hthere, hhere] at this
  exact ecAt_ne_corrupted (hw k hk) hkheaded this.symm

/-- Corrupted eraseblocks are of no account for the others just where the first header is not one of
a corrupted eraseblock. The counts always add up. -/
theorem scan_independent_iff (hscan : ubiScan mtd flash = .ok si) :
    (Independent mtd flash si ∧ CountsOk mtd si) ↔ Unspoiled mtd flash := by
  obtain ⟨hec, hoffs, hcounts⟩ := ubiScan_spec hscan
  have hw := ubiScan_described.mpr ⟨si, hscan⟩
  -- the law for one eraseblock, in terms of codes and offsets
  have hlaw : ∀ eb < mtd.eb_cnt, (∃ si', ubiScan mtd (emptied flash eb) = .ok si' ∧
        (∀ i < mtd.eb_cnt, i ≠ eb → si'.ec i = si.ec i) ∧
        si'.vid_hdr_offs = si.vid_hdr_offs ∧ si'.data_offs = si.data_offs) ↔
      (∀ i < mtd.eb_cnt, i ≠ eb → scanCode mtd flash (offsBefore (emptied flash eb) i) i =
        scanCode mtd flash (offsBefore flash i) i) ∧
      offsBefore (emptied flash eb) mtd.eb_cnt = offsBefore flash mtd.eb_cnt := by
    intro eb _
    obtain ⟨si₁, hsi₁⟩ := @emptied_scans mtd flash eb si hscan
    obtain ⟨hec₁, hoffs₁, -⟩ := ubiScan_spec hsi₁
    constructor
    · rintro ⟨si', hsi', hcodes, hv, hd⟩
      obtain rfl := Except.ok.inj (hsi₁.symm.trans hsi')
      refine ⟨?_, ?_⟩
      · intro i hi hie
        rw [← scanCode_emptied hie, ← hec₁ i hi, hcodes i hi hie, hec i hi]
      · rw [← hoffs₁, ← hoffs, hv, hd]
    · rintro ⟨hcodes, ho⟩
      refine ⟨si₁, hsi₁, ?_, ?_⟩
      · intro i hi hie
        rw [hec₁ i hi, scanCode_emptied hie, hcodes i hi hie, hec i hi]
      · rw [← hoffs₁, ← hoffs] at ho
        exact Prod.mk.inj ho
  constructor
  · rintro ⟨hind, -⟩ eb heb hs
    have hcode := hs.code
    obtain ⟨hcodes, ho⟩ := (hlaw eb heb).mp (hind eb heb ((hec eb heb).trans hcode))
    have hvid : (hdrOffs flash eb).1 = -1 := by
      by_contra hvid
      exact hs.vid_account hw heb hvid hcodes ho
    refine ⟨hvid, ?_⟩
    by_cases hlater : ∃ j < mtd.eb_cnt, eb < j ∧ Headed flash j
    · exact Or.inl hlater
    · right
      have hnone : ∀ j, eb < j → j < mtd.eb_cnt → ¬ Headed flash j :=
        fun j h1 h2 h3 => hlater ⟨j, h2, h1, h3⟩
      obtain ⟨h1, h2⟩ := offsBefore_none heb hnone
      have hset : offsBefore flash (eb+1) = hdrOffs flash eb := by
        rw [offsBefore_succ, nextOffs, if_pos ⟨hs.1, first_iff.mp hs.2.1⟩]
      rw [h1, h2, hset] at ho
      rw [← offsBefore_first hs.2.1, ho]
  · intro hun
    refine ⟨?_, hcounts⟩
    intro eb heb hcorr
    apply (hlaw eb heb).mpr
    have hcode := (hec eb heb).symm.trans hcorr
    by_cases hset : offsBefore flash (eb+1) = offsBefore flash eb
    · -- the eraseblock has not changed the offsets
      have hall : ∀ b, offsBefore (emptied flash eb) b = offsBefore flash b := by
        intro b
        rcases le_or_gt b eb with hle | hgt
        · exact offsBefore_emptied hle
        · apply offsBefore_same (Nat.lt_succ_self eb) hgt
          rw [offsBefore_emptied_succ, hset]
      exact ⟨fun i _ _ => by rw [hall], hall _⟩
    · have hs := spoils_of_set (hw eb heb) hcode hset
      obtain ⟨hvid, hrest⟩ := hun eb heb hs
      have hfirst := first_iff.mp hs.2.1
      have hnext : offsBefore flash (eb+1) = hdrOffs flash eb := by
        rw [offsBefore_succ, nextOffs, if_pos ⟨hs.1, hfirst⟩]
      have hvid' : (offsBefore flash (eb+1)).1 = -1 := by
        rw [hnext]
        exact hvid
      rcases hrest with ⟨j, hj, hebj, hjh⟩ | hlast
      · refine ⟨?_, offsBefore_later hfirst hvid' hebj hj hjh⟩
        intro i hi hie
        -- neither run knows the offsets before the next header, and both have them behind it
        by_cases hbefore : ∃ k, eb < k ∧ k < i ∧ Headed flash k
        · obtain ⟨k, h1, h2, h3⟩ := hbefore
          rw [offsBefore_later hfirst hvid' h1 h2 h3]
        · rcases lt_or_gt_of_ne hie with hlt | hgt
          · rw [offsBefore_emptied hlt.le]
          · have hnone : ∀ k, eb < k → k < i → ¬ Headed flash k :=
              fun k h1 h2 h3 => hbefore ⟨k, h1, h2, h3⟩
            obtain ⟨h1, h2⟩ := offsBefore_none hgt hnone
            rw [h1, h2]
            unfold scanCode
            rw [if_pos hfirst, if_pos hvid']
      · refine absurd ?_ hset
        rw [hnext, offsBefore_first hs.2.1]
        apply Prod.ext
        · rw [hvid, ← offsBefore_first hs.2.1, hfirst]
        · exact hlast

/-- Eraseblocks of a device with pages of 64 bytes. -/
def pageMtd : Mtd := ⟨2, 4096, 64, 64, true⟩

/-- Two eraseblocks whose EC headers have the same offsets. -/
def headedFlash (data_offs : ℕ) : Flash :=
  ⟨fun _ => false, fun _ x => (ubigenInitEcHdr ⟨0, 4096, 64, 64, data_offs, 1, 0, 0, 7#32⟩ 9).getD x 0#8⟩

/-- Both headers are right, with the counter nine. -/
theorem headedFlash_at {d : ℕ} (hd : d < 2^31) (eb : ℕ) : Headed (headedFlash d) eb ∧
    hdrOffs (headedFlash d) eb = (64, (d : ℤ)) ∧ ecAt (headedFlash d) eb = 9 := by
  let ui : UbigenInfo := ⟨0, 4096, 64, 64, d, 1, 0, 0, 7#32⟩
  have hhdr : ecHdr (headedFlash d) eb = ubigenInitEcHdr ui 9 ++ [] := by
    have hlen : (ubigenInitEcHdr ui 9).length = UBI_EC_HDR_SIZE := ubigenInitEcHdr_length 9
    rw [List.append_nil, ecHdr, ← hlen]
    apply readBytes_eq
    intro i hi
    rw [Nat.zero_add]
    change (ubigenInitEcHdr ui 9).getD i 0#8 = _
    rw [List.getD_eq_getElem?_getD, List.getElem?_eq_getElem hi]
    rfl
  have h : EcHdrAt ui 9 (ubigenInitEcHdr ui 9 ++ []) :=
    ubigenInitEcHdr_at (by decide) (show 64 < 2^32 by decide) (hd.trans (by decide)) []
  rw [← hhdr] at h
  refine ⟨⟨rfl, h.magic, h.hdr_crc⟩, ?_, h.ec⟩
  have h16 : beField (ecHdr (headedFlash d) eb) 16 4 = 64 := h.vid_hdr_offset
  have h20 : beField (ecHdr (headedFlash d) eb) 20 4 = d := h.data_offset
  have hvid : toInt32 ((64 : ℕ) : ℤ) = 64 := toInt32_of_lt (by decide) (by decide)
  have hdata : toInt32 (d : ℤ) = d := toInt32_of_lt (Int.natCast_nonneg d) (by exact_mod_cast hd)
  rw [hdrOffs, h16, h20, hvid, hdata]

theorem headedFlash_ok {d : ℕ} (hd : d < 2^31) : ∃ si, ubiScan pageMtd (headedFlash d) = .ok si := by
  apply ubiScan_described.mp
  rintro eb - ⟨-, hec⟩
  rw [(headedFlash_at hd eb).2.2] at hec
  exact absurd hec (by decide)

/-- What the scan finds on these devices. -/
theorem headedFlash_scans :
    (ubiScan pageMtd (headedFlash 128)).toOption.isSome = true ∧
      (∀ eb < 2, (hdrOffs (headedFlash 128) eb).2.tmod 64 = 0) ∧
      (ubiScan pageMtd (headedFlash 100)).toOption.map (fun si => (si.ec 0, si.ec 1)) =
        some (EB_CORRUPTED, 9) ∧
      (ubiScan pageMtd (emptied (headedFlash 100) 0)).toOption.map
        (fun si => (si.ec 0, si.ec 1)) = some (EB_EMPTY, EB_CORRUPTED) := by
  have hat (eb : ℕ) : Headed (headedFlash 100) eb ∧ hdrOffs (headedFlash 100) eb = (64, 100) ∧
      ecAt (headedFlash 100) eb = 9 := headedFlash_at (by decide) eb
  have hbad {eb : ℕ} : ¬(headedFlash 100).bad eb = true := Bool.false_ne_true
  obtain ⟨si, hsi⟩ := @headedFlash_ok 100 (by decide)
  obtain ⟨si', hsi'⟩ := @emptied_scans pageMtd (headedFlash 100) 0 si hsi
  have hec := (ubiScan_spec hsi).1
  have hec' := (ubiScan_spec hsi').1
  have hfirst (o : ℤ × ℤ) (h : o.1 = -1) (eb : ℕ) :
      scanCode pageMtd (headedFlash 100) o eb = EB_CORRUPTED := by
    unfold scanCode
    rw [if_neg hbad, if_pos (hat eb).1, if_pos h, (hat eb).2.1, if_pos (by decide)]
  refine ⟨?_, ?_, ?_, ?_⟩
  · obtain ⟨si, hsi⟩ := @headedFlash_ok 128 (by decide)
    rw [hsi]
    rfl
  · intro eb _
    rw [(headedFlash_at (by decide) eb).2.1]
    decide
  · -- the offsets of the first header are remembered
    have hnext : offsBefore (headedFlash 100) 1 = (64, 100) := by
      rw [offsBefore_succ, nextOffs, if_pos ⟨(hat 0).1, rfl⟩, (hat 0).2.1]
    have hsecond : scanCode pageMtd (headedFlash 100) (64, 100) 1 = 9 := by
      unfold scanCode
      rw [if_neg hbad, if_pos (hat 1).1, if_neg (by decide), (hat 1).2.1,
        if_neg (not_not_intro rfl), (hat 1).2.2]
    rw [hsi]
    refine congrArg some (Prod.ext ?_ ?_)
    · exact (hec 0 (by decide)).trans (hfirst _ rfl 0)
    · refine (hec 1 (by decide)).trans ?_
      rw [hnext, hsecond]
  · have hempty : scanCode pageMtd (emptied (headedFlash 100) 0) (-1, -1) 0 = EB_EMPTY := by
      have hhdr : ecHdr (emptied (headedFlash 100) 0) 0 = List.replicate 64 0xff#8 := by
        apply readBytes_const
        intro x hx
        exact if_pos ⟨rfl, by rwa [Nat.zero_add]⟩
      unfold scanCode
      have hgood : ¬(emptied (headedFlash 100) 0).bad 0 = true := Bool.false_ne_true
      rw [if_neg hgood, if_neg not_headed_emptied, hhdr, if_neg (by decide), if_pos (by decide)]
    have hnext : offsBefore (emptied (headedFlash 100) 0) 1 = (-1, -1) := by
      rw [offsBefore_succ, nextOffs, if_neg fun h => not_headed_emptied h.1]
      rfl
    rw [hsi']
    refine congrArg some (Prod.ext ?_ ?_)
    · exact (hec' 0 (by decide)).trans hempty
    · refine (hec' 1 (by decide)).trans ?_
      rw [hnext, scanCode_emptied (by decide)]
      exact hfirst _ rfl 1

theorem scan_independent_headed : ∃ si, ubiScan pageMtd (headedFlash 128) = .ok si ∧
    Independent pageMtd (headedFlash 128) si ∧ CountsOk pageMtd si := by
  obtain ⟨hsome, hpage, -⟩ := headedFlash_scans
  cases hscan : ubiScan pageMtd (headedFlash 128) with
  | error e =>
    rw [hscan] at hsome
    cases hsome
  | ok si =>
    refine ⟨si, rfl, (scan_independent_iff hscan).mpr ?_⟩
    intro eb heb hs
    exact absurd (hpage eb heb) hs.2.2

/-- With a data offset within a page the first eraseblock is corrupted, and the second is OK only as
long as the first has its header. -/
theorem scan_dependent : ¬ ∀ mtd flash si, ubiScan mtd flash = .ok si →
    Independent mtd flash si ∧ CountsOk mtd si := by
  intro h
  obtain ⟨-, -, hcodes, hcodes'⟩ := headedFlash_scans
  cases hscan : ubiScan pageMtd (headedFlash 100) with
  | error e =>
    rw [hscan] at hcodes
    cases hcodes
  | ok si =>
    rw [hscan] at hcodes
    obtain ⟨h0, h1⟩ := Prod.mk.inj (Option.some.inj hcodes)
    obtain ⟨si', hsi', hsame, -⟩ := (h pageMtd (headedFlash 100) si hscan).1 0 (by decide) h0
    rw [hsi'] at hcodes'
    obtain ⟨-, h1'⟩ := Prod.mk.inj (Option.some.inj hcodes')
    have heq := hsame 1 (by decide) (by decide)
    rw [h1, h1'] at heq
    exact absurd heq (by decide)

end Law

end ChipTools.Ubi
