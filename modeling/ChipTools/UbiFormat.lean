import ChipTools.UbiScan

/-! `ubiformat`: eraseblocks are erased and get their EC headers, and a UBI image is written to
those that are not bad. -/
namespace ChipTools.Ubi
open Bytes CNumber Loop

def MAX_CONSECUTIVE_BAD_BLOCKS : ℕ := 4

/-- What is not up to the program: how the operations end for each eraseblock, what is left in
one after a failure, and the answers to the question whether to mark it. -/
structure Env where
  erase : ℕ → Outcome
  write : ℕ → Outcome
  mark : ℕ → Outcome
  layout : Outcome
  answer : ℕ → Bool
  left : ℕ → ℕ → Byte

/-- The options. -/
structure FormatArgs where
  override_ec : Option ℕ
  yes : Bool

/-- The state of the program and of the device: the scan is kept up to date, and
`consecutive_bad_check` has two variables of its own. -/
structure Device where
  si : ScanInfo
  flash : Flash
  consecutive_bad_blocks : ℕ
  prev_bb : ℤ

/-- `consecutive_bad_check`. -/
def consecutiveBadCheck (eb : ℕ) (dev : Device) : Except Stop Device :=
  let prev_bb := if dev.prev_bb = -1 then (eb : ℤ) else dev.prev_bb
  let consecutive := if (eb : ℤ) = prev_bb+1 then dev.consecutive_bad_blocks+1 else 1
  if MAX_CONSECUTIVE_BAD_BLOCKS ≤ consecutive then
    .error (.errmsg s!"consecutive bad blocks exceed limit: {MAX_CONSECUTIVE_BAD_BLOCKS}, bad flash?")
  else .ok { dev with consecutive_bad_blocks := consecutive, prev_bb := eb }

/-- `mark_bad`. -/
def markBad (mtd : Mtd) (args : FormatArgs) (env : Env) (eb : ℕ) (dev : Device) :
    Except Stop Device :=
  if !args.yes && !env.answer eb then .error (.errmsg "")
  else if !mtd.bb_allowed then .error (.errmsg "bad blocks not supported by this flash")
  else if env.mark eb ≠ .done then .error (.errmsg "")
  else consecutiveBadCheck eb { dev with
    si := { dev.si with bad_cnt := dev.si.bad_cnt+1 }.setEc eb EB_BAD
    flash := { dev.flash with bad := fun i => if i = eb then true else dev.flash.bad i } }

/-- The bytes of an eraseblock are changed. -/
def Device.put (dev : Device) (eb : ℕ) (buf : ℕ → Byte) : Device :=
  { dev with flash := { dev.flash with data := fun i => if i = eb then buf else dev.flash.data i } }

/-- An erased eraseblock. -/
def erased : ℕ → Byte := fun _ => 0xff#8

/-- The new erase counter of an eraseblock. -/
def newEc (args : FormatArgs) (si : ScanInfo) (eb : ℕ) : ℕ :=
  match args.override_ec with
  | some ec => ec
  | none => if si.ec eb ≤ EC_MAX then si.ec eb+1 else si.mean_ec

section Format

/-- The state of `format`: the two eraseblocks for the volume table, with their counters. -/
structure FormatState where
  dev : Device
  eb1 : Option (ℕ × ℕ)
  eb2 : Option (ℕ × ℕ)

/-- The size of the write of an EC header. -/
def writeSize (mtd : Mtd) : ℕ :=
  (UBI_EC_HDR_SIZE+mtd.subpage_size-1)/mtd.subpage_size*mtd.subpage_size

variable (mtd : Mtd) (ui : UbigenInfo) (args : FormatArgs) (env : Env)

/-- A pass of the loop of `format`. -/
def formatEb (novtbl : Bool) (eb : ℕ) (s : FormatState) : Except Stop FormatState :=
  let dev := s.dev
  if dev.si.ec eb = EB_BAD then .ok s
  else
    let ec := newEc args dev.si eb
    let hdr := ubigenInitEcHdr ui ec ++ List.replicate (writeSize mtd-UBI_EC_HDR_SIZE) 0xff#8
    match env.erase eb with
    | .other => .error (.errmsg s!"failed to erase eraseblock {eb}")
    | .eio => do
      let dev ← markBad mtd args env eb (dev.put eb (env.left eb))
      .ok { s with dev := dev }
    | .done =>
      let dev := dev.put eb erased
      if !novtbl && s.eb1.isNone then .ok { s with dev := dev, eb1 := some (eb, ec) }
      else if !novtbl && s.eb2.isNone then .ok { s with dev := dev, eb2 := some (eb, ec) }
      else
        match env.write eb with
        | .done => .ok { s with dev := dev.put eb (copyTo (dev.flash.data eb) 0 hdr) }
        | .other => .error (.errmsg
            (s!"cannot write EC header ({writeSize mtd} bytes buffer) to eraseblock {eb}"))
        | .eio => do
          -- `mtd_torture` gives -1 also for an eraseblock that passes its test
          let dev ← markBad mtd args env eb (dev.put eb (env.left eb))
          .ok { s with dev := dev }

/-- `format`. -/
def format (start_eb : ℕ) (novtbl : Bool) (outbuf : ℕ → Byte) (dev : Device) :
    Except Stop Device := do
  let s ← forRange (formatEb mtd ui args env novtbl) (mtd.eb_cnt-start_eb) start_eb ⟨dev, none, none⟩
  if novtbl then .ok s.dev
  else
    match s.eb1, s.eb2 with
    | some (eb1, ec1), some (eb2, ec2) =>
      let vtbl ← ubigenCreateEmptyVtbl ui
      if env.layout ≠ .done then .error (.errmsg "cannot write layout volume")
      else
        let pebs := layoutPebs ui ec1 ec2 vtbl outbuf
        let dev := s.dev.put eb1 (copyTo (s.dev.flash.data eb1) 0 pebs.1)
        .ok (dev.put eb2 (copyTo (dev.flash.data eb2) 0 pebs.2))
    | _, _ => .error (.errmsg "no eraseblocks for volume table")

end Format

section Steps

variable {mtd : Mtd} {ui : UbigenInfo} {args : FormatArgs} {env : Env} {eb : ℕ}

/-- What `mark_bad` does where it succeeds. -/
structure Marked (eb : ℕ) (dev dev' : Device) : Prop where
  ec : dev'.si.ec = fun i => if i = eb then EB_BAD else dev.si.ec i
  mean_ec : dev'.si.mean_ec = dev.si.mean_ec
  bad : dev'.flash.bad = fun i => if i = eb then true else dev.flash.bad i
  data : dev'.flash.data = dev.flash.data

theorem consecutiveBadCheck_ok {dev dev' : Device} (h : consecutiveBadCheck eb dev = .ok dev') :
    dev'.si = dev.si ∧ dev'.flash = dev.flash := by
  unfold consecutiveBadCheck at h
  extract_lets prev_bb consecutive at h
  split at h
  · cases h
  · obtain rfl := Except.ok.inj h
    exact ⟨rfl, rfl⟩

theorem markBad_marked {dev dev' : Device} (h : markBad mtd args env eb dev = .ok dev') :
    Marked eb dev dev' := by
  unfold markBad at h
  split at h
  · cases h
  · split at h
    · cases h
    · split at h
      · cases h
      · obtain ⟨hsi, hflash⟩ := consecutiveBadCheck_ok h
        exact ⟨by rw [hsi]; rfl, by rw [hsi]; rfl, by rw [hflash], by rw [hflash]⟩

/-- An eraseblock that was formatted: its EC header, and nothing else. -/
structure HeaderOnly (ui : UbigenInfo) (ec : ℕ) (buf : ℕ → Byte) : Prop where
  hdr : readBytes buf 0 UBI_EC_HDR_SIZE = ubigenInitEcHdr ui ec
  rest : ∀ i, UBI_EC_HDR_SIZE ≤ i → buf i = 0xff#8

theorem headerOnly_write (ui : UbigenInfo) (ec n : ℕ) :
    HeaderOnly ui ec (copyTo erased 0 (ubigenInitEcHdr ui ec ++ List.replicate n 0xff#8)) := by
  have hlen := @ubigenInitEcHdr_length ui ec
  constructor
  · rw [← copyTo_append erased (p := UBI_EC_HDR_SIZE) _ _ (by omega), readBytes_copyTo_outside
      (by omega), readBytes_copyTo_of_length hlen]
  · intro i hi
    rw [copyTo, if_pos (Nat.zero_le i), Nat.sub_zero, List.getD_eq_getElem?_getD,
      List.getElem?_append_right (by omega), List.getElem?_replicate]
    split <;> rfl

/-- The passes of `format` with a volume table, where writes succeed. -/
inductive FormatStep (mtd : Mtd) (ui : UbigenInfo) (args : FormatArgs) (env : Env) (eb : ℕ)
    (s : FormatState) : FormatState → Prop
  | bad (h : s.dev.si.ec eb = EB_BAD) : FormatStep mtd ui args env eb s s
  | marked (h : s.dev.si.ec eb ≠ EB_BAD) (he : env.erase eb ≠ .done) {dev' : Device}
      (hm : Marked eb (s.dev.put eb (env.left eb)) dev') :
      FormatStep mtd ui args env eb s { s with dev := dev' }
  | first (h : s.dev.si.ec eb ≠ EB_BAD) (he : env.erase eb = .done) (h1 : s.eb1 = none) :
      FormatStep mtd ui args env eb s
        { s with dev := s.dev.put eb erased, eb1 := some (eb, newEc args s.dev.si eb) }
  | second (h : s.dev.si.ec eb ≠ EB_BAD) (he : env.erase eb = .done) (h1 : s.eb1 ≠ none)
      (h2 : s.eb2 = none) : FormatStep mtd ui args env eb s
        { s with dev := s.dev.put eb erased, eb2 := some (eb, newEc args s.dev.si eb) }
  | header (h : s.dev.si.ec eb ≠ EB_BAD) (he : env.erase eb = .done) (h1 : s.eb1 ≠ none)
      (h2 : s.eb2 ≠ none) {buf : ℕ → Byte} (hb : HeaderOnly ui (newEc args s.dev.si eb) buf) :
      FormatStep mtd ui args env eb s { s with dev := s.dev.put eb buf }

theorem put_put (dev : Device) (eb : ℕ) (buf buf' : ℕ → Byte) :
    (dev.put eb buf).put eb buf' = dev.put eb buf' := by
  unfold Device.put
  dsimp only
  congr 2
  funext i
  split <;> rfl

theorem formatEb_step {s s' : FormatState} (hw : env.write eb = .done)
    (h : formatEb mtd ui args env false eb s = .ok s') : FormatStep mtd ui args env eb s s' := by
  unfold formatEb at h
  dsimp only at h
  split at h
  next hb =>
    obtain rfl := Except.ok.inj h
    exact .bad hb
  next hb =>
    split at h
    · cases h
    next he =>
      obtain ⟨dev', hm, h⟩ := Loop.bind_eq_ok h
      obtain rfl := Except.ok.inj h
      exact .marked hb (by rw [he]; decide) (markBad_marked hm)
    next he =>
      split at h
      next h1 =>
        obtain rfl := Except.ok.inj h
        exact .first hb he (by simpa using h1)
      next h1 =>
        have h1' : s.eb1 ≠ none := by simpa [Option.isNone_iff_eq_none] using h1
        split at h
        next h2 =>
          obtain rfl := Except.ok.inj h
          exact .second hb he h1' (by simpa using h2)
        next h2 =>
          have h2' : s.eb2 ≠ none := by simpa [Option.isNone_iff_eq_none] using h2
          rw [hw] at h
          obtain rfl := Except.ok.inj h
          rw [put_put]
          apply FormatStep.header hb he h1' h2'
          have hself : (s.dev.put eb erased).flash.data eb = erased := if_pos rfl
          rw [hself]
          exact headerOnly_write ui _ _

end Steps

section Run

variable {mtd : Mtd} {ui : UbigenInfo} {args : FormatArgs} {env : Env} {si₀ : ScanInfo}
  {flash₀ : Flash} {n : ℕ} {s s' : FormatState}

/-- An eraseblock that is kept for the volume table. -/
structure Kept (args : FormatArgs) (si₀ : ScanInfo) (n : ℕ) (dev : Device) (p : ℕ × ℕ) : Prop where
  lt : p.1 < n
  good : dev.flash.bad p.1 = false
  ec : p.2 = newEc args si₀ p.1

/-- The device after the first `n` eraseblocks: those that were bad or could not be erased are
bad, two are kept, and the others have their EC headers. -/
structure FormatInv (ui : UbigenInfo) (args : FormatArgs) (env : Env) (si₀ : ScanInfo)
    (flash₀ : Flash) (n : ℕ) (s : FormatState) : Prop where
  ec_above : ∀ eb, n ≤ eb → s.dev.si.ec eb = si₀.ec eb
  mean_ec : s.dev.si.mean_ec = si₀.mean_ec
  bad_above : ∀ eb, n ≤ eb → s.dev.flash.bad eb = flash₀.bad eb
  bad_below : ∀ eb < n, s.dev.flash.bad eb = true ↔ flash₀.bad eb = true ∨ env.erase eb ≠ .done
  good : ∀ eb < n, s.dev.flash.bad eb = false → (∃ ec, s.eb1 = some (eb, ec)) ∨
    (∃ ec, s.eb2 = some (eb, ec)) ∨ HeaderOnly ui (newEc args si₀ eb) (s.dev.flash.data eb)
  eb1 : ∀ p, s.eb1 = some p → Kept args si₀ n s.dev p
  eb2 : ∀ p, s.eb2 = some p → Kept args si₀ n s.dev p ∧ ∃ q, s.eb1 = some q ∧ q.1 ≠ p.1

theorem newEc_congr {si : ScanInfo} {eb : ℕ} (hec : si.ec eb = si₀.ec eb)
    (hmean : si.mean_ec = si₀.mean_ec) : newEc args si eb = newEc args si₀ eb := by
  unfold newEc
  rw [hec, hmean]

/-- The eraseblocks before the one of a pass stay as they are. -/
structure Leaves (n : ℕ) (dev dev' : Device) : Prop where
  ec : ∀ eb, eb ≠ n → dev'.si.ec eb = dev.si.ec eb
  mean_ec : dev'.si.mean_ec = dev.si.mean_ec
  bad : ∀ eb, eb ≠ n → dev'.flash.bad eb = dev.flash.bad eb
  data : ∀ eb, eb ≠ n → dev'.flash.data eb = dev.flash.data eb

theorem leaves_put (dev : Device) (buf : ℕ → Byte) : Leaves n dev (dev.put n buf) :=
  ⟨fun _ _ => rfl, rfl, fun _ _ => rfl, fun _ h => if_neg h⟩

theorem Marked.leaves {dev dev' : Device} {buf : ℕ → Byte} (h : Marked n (dev.put n buf) dev') :
    Leaves n dev dev' := by
  refine ⟨fun eb hne => ?_, h.mean_ec, fun eb hne => ?_, fun eb hne => ?_⟩
  · rw [h.ec]
    exact if_neg hne
  · rw [h.bad]
    exact if_neg hne
  · rw [h.data]
    exact if_neg hne

theorem Kept.leaves {dev dev' : Device} {p : ℕ × ℕ} (h : Kept args si₀ n dev p)
    (hl : Leaves n dev dev') : Kept args si₀ (n+1) dev' p := by
  have hlt := h.lt
  exact ⟨by omega, (hl.bad _ (by omega)).trans h.good, h.ec⟩

theorem put_self (dev : Device) (eb : ℕ) (buf : ℕ → Byte) : (dev.put eb buf).flash.data eb = buf :=
  if_pos rfl

theorem put_other (dev : Device) {eb i : ℕ} (buf : ℕ → Byte) (h : i ≠ eb) :
    (dev.put eb buf).flash.data i = dev.flash.data i := if_neg h

/-- What is left to show of a pass over the eraseblock `n`. -/
theorem FormatInv.extend (h : FormatInv ui args env si₀ flash₀ n s) (hl : Leaves n s.dev s'.dev)
    (hbad : s'.dev.flash.bad n = true ↔ flash₀.bad n = true ∨ env.erase n ≠ .done)
    (hself : s'.dev.flash.bad n = false → (∃ ec, s'.eb1 = some (n, ec)) ∨
      (∃ ec, s'.eb2 = some (n, ec)) ∨ HeaderOnly ui (newEc args si₀ n) (s'.dev.flash.data n))
    (h1 : ∀ p, s.eb1 = some p → s'.eb1 = some p) (h2 : ∀ p, s.eb2 = some p → s'.eb2 = some p)
    (h1' : ∀ p, s'.eb1 = some p → s.eb1 = some p ∨ Kept args si₀ (n+1) s'.dev p)
    (h2' : ∀ p, s'.eb2 = some p → s.eb2 = some p ∨
      (Kept args si₀ (n+1) s'.dev p ∧ ∃ q, s.eb1 = some q ∧ q.1 ≠ p.1)) :
    FormatInv ui args env si₀ flash₀ (n+1) s' := by
  refine ⟨?_, hl.mean_ec.trans h.mean_ec, ?_, ?_, ?_, ?_, ?_⟩
  · intro eb heb
    rw [hl.ec eb (by omega)]
    exact h.ec_above eb (by omega)
  · intro eb heb
    rw [hl.bad eb (by omega)]
    exact h.bad_above eb (by omega)
  · intro eb heb
    rcases Nat.lt_succ_iff_lt_or_eq.mp heb with hlt | rfl
    · rw [hl.bad eb (Nat.ne_of_lt hlt)]
      exact h.bad_below eb hlt
    · exact hbad
  · intro eb heb hg
    rcases Nat.lt_succ_iff_lt_or_eq.mp heb with hlt | rfl
    · rw [hl.bad eb (Nat.ne_of_lt hlt)] at hg
      rw [hl.data eb (Nat.ne_of_lt hlt)]
      rcases h.good eb hlt hg with ⟨ec, he⟩ | ⟨ec, he⟩ | hh
      · exact Or.inl ⟨ec, h1 _ he⟩
      · exact Or.inr (Or.inl ⟨ec, h2 _ he⟩)
      · exact Or.inr (Or.inr hh)
    · exact hself hg
  · intro p hp
    rcases h1' p hp with hp | hk
    · exact (h.eb1 p hp).leaves hl
    · exact hk
  · intro p hp
    rcases h2' p hp with hp | ⟨hk, q, hq, hne⟩
    · obtain ⟨hk, q, hq, hne⟩ := h.eb2 p hp
      exact ⟨hk.leaves hl, q, h1 q hq, hne⟩
    · exact ⟨hk, q, h1 q hq, hne⟩

theorem FormatInv.step (h : FormatInv ui args env si₀ flash₀ n s)
    (hscan : si₀.ec n = EB_BAD ↔ flash₀.bad n = true) (hs : FormatStep mtd ui args env n s s') :
    FormatInv ui args env si₀ flash₀ (n+1) s' := by
  have hec := h.ec_above n (le_refl n)
  have hbn := h.bad_above n (le_refl n)
  have hnew : newEc args s.dev.si n = newEc args si₀ n := newEc_congr hec h.mean_ec
  have hgood (hb : s.dev.si.ec n ≠ EB_BAD) : s.dev.flash.bad n = false := by
    rw [hbn]
    apply Bool.eq_false_iff.mpr
    intro ht
    exact hb (hec.trans (hscan.mpr ht))
  have hbad (hb : s.dev.si.ec n ≠ EB_BAD) (he : env.erase n = .done) :
      s.dev.flash.bad n = true ↔ flash₀.bad n = true ∨ env.erase n ≠ .done := by
    rw [hbn, he]
    simp
  cases hs with
  | bad hb =>
    have ht : s.dev.flash.bad n = true := by rw [hbn, ← hscan, ← hec, hb]
    refine h.extend ⟨fun _ _ => rfl, rfl, fun _ _ => rfl, fun _ _ => rfl⟩ ?_ ?_ (fun _ hp => hp)
      (fun _ hp => hp) (fun _ hp => Or.inl hp) fun _ hp => Or.inl hp
    · rw [ht, ← hbn, ht]
      simp
    · intro hf
      rw [ht] at hf
      cases hf
  | marked hb he hm =>
    have ht := congrFun hm.bad n
    rw [if_pos rfl] at ht
    refine h.extend hm.leaves ?_ ?_ (fun _ hp => hp) (fun _ hp => hp) (fun _ hp => Or.inl hp)
      fun _ hp => Or.inl hp
    · simp [ht, he]
    · intro hf
      rw [ht] at hf
      cases hf
  | first hb he h1 =>
    refine h.extend (leaves_put _ _) (hbad hb he) (fun _ => Or.inl ⟨_, rfl⟩) ?_ (fun _ hp => hp) ?_
      fun _ hp => Or.inl hp
    · intro p hp
      rw [h1] at hp
      cases hp
    · intro p hp
      obtain rfl := Option.some.inj hp
      exact Or.inr ⟨Nat.lt_succ_self n, hgood hb, hnew⟩
  | second hb he h1 h2 =>
    refine h.extend (leaves_put _ _) (hbad hb he) (fun _ => Or.inr (Or.inl ⟨_, rfl⟩))
      (fun _ hp => hp) ?_ (fun _ hp => Or.inl hp) ?_
    · intro p hp
      rw [h2] at hp
      cases hp
    · intro p hp
      obtain rfl := Option.some.inj hp
      obtain ⟨q, hq⟩ := Option.ne_none_iff_exists'.mp h1
      exact Or.inr ⟨⟨Nat.lt_succ_self n, hgood hb, hnew⟩, q, hq, Nat.ne_of_lt (h.eb1 q hq).lt⟩
  | header hb he h1 h2 hh =>
    refine h.extend (leaves_put _ _) (hbad hb he) (fun _ => Or.inr (Or.inr ?_)) (fun _ hp => hp)
      (fun _ hp => hp) (fun _ hp => Or.inl hp) fun _ hp => Or.inl hp
    dsimp only
    rw [put_self, ← hnew]
    exact hh

theorem formatLoop_inv (hw : ∀ eb, env.write eb = .done) (hscan : Scanned mtd flash₀ si₀)
    {c : ℕ} {b : ℤ} (h : forRange (formatEb mtd ui args env false) mtd.eb_cnt 0
      ⟨⟨si₀, flash₀, c, b⟩, none, none⟩ = .ok s) :
    FormatInv ui args env si₀ flash₀ mtd.eb_cnt s := by
  have hstart : FormatInv ui args env si₀ flash₀ 0 ⟨⟨si₀, flash₀, c, b⟩, none, none⟩ :=
    ⟨fun _ _ => rfl, rfl, fun _ _ => rfl, fun eb heb => absurd heb (Nat.not_lt_zero eb),
      fun eb heb => absurd heb (Nat.not_lt_zero eb), fun _ hp => (by cases hp),
      fun _ hp => (by cases hp)⟩
  have := forRange_inv (fun j t t' _ hj hP hs =>
    FormatInv.step hP (hscan.bad j (by omega)) (formatEb_step (hw j) hs)) hstart h
  rwa [Nat.zero_add] at this

end Run

section Rescan

variable {mtd : Mtd} {ui : UbigenInfo} {args : FormatArgs} {env : Env} {si : ScanInfo}
  {flash : Flash} {dev' : Device} {outbuf : ℕ → Byte}

/-- The geometry of the device and of the headers are of one kind. -/
structure Consistent (mtd : Mtd) (ui : UbigenInfo) : Prop where
  sane : ui.Sane
  peb_size : ui.peb_size = mtd.eb_size
  vid_hdr_offs : UBI_EC_HDR_SIZE ≤ ui.vid_hdr_offs
  data_offs : ui.data_offs%mtd.min_io_size = 0

/-- The bytes from the place of the VID header on. -/
def vidHdr (mtd : Mtd) (ui : UbigenInfo) (flash : Flash) (eb : ℕ) : List Byte :=
  (readBytes (flash.data eb) 0 mtd.eb_size).drop ui.vid_hdr_offs

/-- The eraseblock has LEB `lnum` of the layout volume. -/
structure LayoutEb (mtd : Mtd) (ui : UbigenInfo) (flash : Flash) (lnum eb : ℕ) : Prop where
  lt : eb < mtd.eb_cnt
  good : flash.bad eb = false
  magic : beField (vidHdr mtd ui flash eb) 0 4 = UBI_VID_HDR_MAGIC
  vol_id : (beField (vidHdr mtd ui flash eb) 8 4 : ℤ) = UBI_LAYOUT_VOLUME_ID
  lnum : beField (vidHdr mtd ui flash eb) 12 4 = lnum
  hdr_crc : beField (vidHdr mtd ui flash eb) 60 4 =
    (mtdCrc32 UBI_CRC32_INIT ((vidHdr mtd ui flash eb).take 60)).toNat

/-- The scan of the flash finds what `format` is meant to leave. -/
structure Reformatted (mtd : Mtd) (ui : UbigenInfo) (args : FormatArgs) (si : ScanInfo)
    (flash : Flash) : Prop where
  scan : ∃ si', ubiScan mtd flash = .ok si' ∧ si'.vid_hdr_offs = ui.vid_hdr_offs ∧
    si'.data_offs = ui.data_offs ∧ ∀ eb < mtd.eb_cnt, flash.bad eb = false →
      si'.ec eb ≤ EC_MAX ∧ si'.ec eb = newEc args si eb
  layout : ∃ eb1 eb2, eb1 ≠ eb2 ∧ LayoutEb mtd ui flash 0 eb1 ∧ LayoutEb mtd ui flash 1 eb2 ∧
    ∀ eb < mtd.eb_cnt, flash.bad eb = false → eb ≠ eb1 → eb ≠ eb2 →
      beField (vidHdr mtd ui flash eb) 0 4 ≠ UBI_VID_HDR_MAGIC

/-- No counter at its maximum is to be counted up. -/
def CountersBelow (mtd : Mtd) (args : FormatArgs) (env : Env) (si : ScanInfo) : Prop :=
  args.override_ec.isSome ∨ ∀ eb < mtd.eb_cnt, si.ec eb = EC_MAX → env.erase eb ≠ .done

theorem EcHdrAt.take {ec : ℕ} {peb : List Byte} (h : EcHdrAt ui ec peb) :
    EcHdrAt ui ec (peb.take UBI_EC_HDR_SIZE) := by
  obtain ⟨h1, h2, h3, h4, h5, h6, h7, h8⟩ := h
  rw [UBI_EC_HDR_SIZE]
  refine ⟨?_, ?_, ?_, ?_, ?_, ?_, ?_, ?_⟩
  · rwa [beField_take _ (by decide)]
  · rwa [List.getD_eq_getElem?_getD, List.getElem?_take, if_pos (by decide),
      ← List.getD_eq_getElem?_getD]
  · rwa [beField_take _ (by decide)]
  · rwa [beField_take _ (by decide)]
  · rwa [beField_take _ (by decide)]
  · rwa [beField_take _ (by decide)]
  · rwa [List.drop_take, List.take_take]
  · rwa [beField_take _ (by decide), List.take_take]

theorem newEc_le (hov : ∀ ec ∈ args.override_ec, ec ≤ EC_MAX) (hmean : si.mean_ec ≤ EC_MAX) (eb : ℕ) :
    newEc args si eb ≤ EC_MAX+1 := by
  unfold newEc
  split
  next ec he => exact (hov ec he).trans (Nat.le_succ _)
  · split
    · omega
    · exact hmean.trans (Nat.le_succ _)

/-- The layout volume in an eraseblock. -/
theorem LayoutPeb.layoutEb (hc : Consistent mtd ui) {ec lnum : ℕ} {vtbl : List (List Byte)}
    {peb : List Byte} (h : LayoutPeb ui ec lnum vtbl peb) (hl : lnum < 2^32) {eb : ℕ} (hlt : eb < mtd.eb_cnt)
    (hgood : flash.bad eb = false) {buf : ℕ → Byte} (hbuf : flash.data eb = copyTo buf 0 peb) :
    LayoutEb mtd ui flash lnum eb ∧
      EcHdrAt ui ec (readBytes (flash.data eb) 0 UBI_EC_HDR_SIZE) := by
  have hlen : peb.length = mtd.eb_size := h.length.trans hc.peb_size
  have hread : readBytes (flash.data eb) 0 mtd.eb_size = peb := by
    rw [hbuf, readBytes_copyTo_of_length hlen]
  have hsz : UBI_EC_HDR_SIZE ≤ mtd.eb_size := by
    have h1 := hc.vid_hdr_offs
    have h2 := hc.sane.vid_data
    have h3 := hc.sane.data_peb
    have h4 := hc.peb_size
    omega
  constructor
  · have hv := h.vid
    rw [← hread] at hv
    refine ⟨hlt, hgood, hv.magic, ?_, ?_, hv.hdr_crc⟩
    · refine (congrArg Nat.cast hv.vol_id).trans ?_
      change ((BitVec.ofInt 32 UBI_LAYOUT_VOLUME_ID).toNat : ℤ) = UBI_LAYOUT_VOLUME_ID
      decide
    · refine hv.lnum.trans ?_
      exact Nat.mod_eq_of_lt hl
  · have he := (h.ec hc.vid_hdr_offs).take
    rwa [← hread, readBytes_take _ _ hsz] at he

/-- A formatted eraseblock has no VID header. -/
theorem HeaderOnly.no_vid (hc : Consistent mtd ui) {ec eb : ℕ}
    (h : HeaderOnly ui ec (flash.data eb)) :
    beField (vidHdr mtd ui flash eb) 0 4 ≠ UBI_VID_HDR_MAGIC := by
  have h1 := hc.vid_hdr_offs
  have h2 := hc.sane.vid_data
  have h3 := hc.sane.data_peb
  have h4 := hc.peb_size
  have hff : readBytes (flash.data eb) ui.vid_hdr_offs 4 = List.replicate 4 0xff#8 :=
    readBytes_const fun i _ => h.rest _ (by omega)
  rw [vidHdr, beField_drop, beField, readBytes_drop _ _ (by omega), readBytes_take _ _ (by omega),
    Nat.add_zero, Nat.zero_add, hff]
  decide

theorem HeaderOnly.ecHdrAt (hc : Consistent mtd ui) {ec : ℕ} {buf : ℕ → Byte}
    (h : HeaderOnly ui ec buf) (hec : ec < 2^64) :
    EcHdrAt ui ec (readBytes buf 0 UBI_EC_HDR_SIZE) := by
  have h2 := hc.sane.vid_data
  have h3 := hc.sane.data_peb
  have h4 := hc.sane.peb_lt
  rw [h.hdr, ← List.append_nil (ubigenInitEcHdr ui ec)]
  exact ubigenInitEcHdr_at hec (by omega) (by omega) []

/-- The device as `format` leaves it. -/
theorem format_result (hc : Consistent mtd ui) (hscan : Scanned mtd flash si)
    (hov : ∀ ec ∈ args.override_ec, ec ≤ EC_MAX) (hw : ∀ eb, env.write eb = .done) {c : ℕ} {b : ℤ}
    (h : format mtd ui args env 0 false outbuf ⟨si, flash, c, b⟩ = .ok dev') :
    (∀ eb < mtd.eb_cnt, dev'.flash.bad eb = true ↔ flash.bad eb = true ∨ env.erase eb ≠ .done) ∧
    (∀ eb < mtd.eb_cnt, dev'.flash.bad eb = false →
      EcHdrAt ui (newEc args si eb) (readBytes (dev'.flash.data eb) 0 UBI_EC_HDR_SIZE)) ∧
    ∃ eb1 eb2, eb1 ≠ eb2 ∧ LayoutEb mtd ui dev'.flash 0 eb1 ∧ LayoutEb mtd ui dev'.flash 1 eb2 ∧
      ∀ eb < mtd.eb_cnt, dev'.flash.bad eb = false → eb ≠ eb1 → eb ≠ eb2 →
        beField (vidHdr mtd ui dev'.flash eb) 0 4 ≠ UBI_VID_HDR_MAGIC := by
  obtain ⟨s, hloop, h⟩ := Loop.bind_eq_ok h
  rw [Nat.sub_zero] at hloop
  have hinv := formatLoop_inv hw hscan hloop
  rw [if_neg Bool.false_ne_true] at h
  split at h
  next eb1 ec1 eb2 ec2 he1 he2 =>
    obtain ⟨vtbl, hvtbl, h⟩ := Loop.bind_eq_ok h
    split at h
    · cases h
    obtain ⟨htable, hrecords⟩ := emptyVtbl_records hvtbl
    have hlen := table_length hc.sane htable hrecords
    have hk1 := hinv.eb1 _ he1
    obtain ⟨hk2, q, hq, hne⟩ := hinv.eb2 _ he2
    obtain rfl := Option.some.inj (he1.symm.trans hq)
    have hec (eb : ℕ) : newEc args si eb < 2^64 := by
      have := newEc_le hov hscan.mean_ec eb
      rw [EC_MAX] at this
      omega
    have hl := layoutPebs_spec hc.sane (hec eb1) (hec eb2) hlen outbuf
    have hk1e : ec1 = newEc args si eb1 := hk1.ec
    have hk2e : ec2 = newEc args si eb2 := hk2.ec
    rw [hk1e, hk2e] at h
    obtain ⟨hl1, hl2⟩ := hl
    generalize layoutPebs ui (newEc args si eb1) (newEc args si eb2) vtbl outbuf = pebs at h hl1 hl2
    have hdev := (Except.ok.inj h).symm
    dsimp only at hne
    have hbad : dev'.flash.bad = s.dev.flash.bad := by
      rw [hdev]
      rfl
    have hd1 : dev'.flash.data eb1 = copyTo (s.dev.flash.data eb1) 0 pebs.1 := by
      rw [hdev, put_other _ _ hne, put_self]
    have hd2 : ∃ buf, dev'.flash.data eb2 = copyTo buf 0 pebs.2 := by
      rw [hdev, put_self]
      exact ⟨_, rfl⟩
    obtain ⟨buf2, hd2⟩ := hd2
    have hd (eb : ℕ) (h1 : eb ≠ eb1) (h2 : eb ≠ eb2) :
        dev'.flash.data eb = s.dev.flash.data eb := by
      rw [hdev, put_other _ _ h2, put_other _ _ h1]
    obtain ⟨hlay1, hec1⟩ := hl1.layoutEb hc (by decide) hk1.lt (by rw [hbad]; exact hk1.good) hd1
    obtain ⟨hlay2, hec2⟩ := hl2.layoutEb hc (by decide) hk2.lt (by rw [hbad]; exact hk2.good) hd2
    have hother (eb : ℕ) (heb : eb < mtd.eb_cnt) (hg : dev'.flash.bad eb = false)
        (h1 : eb ≠ eb1) (h2 : eb ≠ eb2) : HeaderOnly ui (newEc args si eb) (dev'.flash.data eb) := by
      rw [hd eb h1 h2]
      rw [hbad] at hg
      rcases hinv.good eb heb hg with ⟨ec, he⟩ | ⟨ec, he⟩ | hh
      · rw [he1] at he
        cases he
        exact absurd rfl h1
      · rw [he2] at he
        cases he
        exact absurd rfl h2
      · exact hh
    refine ⟨by rw [hbad]; exact hinv.bad_below, ?_, eb1, eb2, hne, hlay1, hlay2, ?_⟩
    · intro eb heb hg
      by_cases h1 : eb = eb1
      · rw [h1]
        exact hec1
      · by_cases h2 : eb = eb2
        · rw [h2]
          exact hec2
        · exact (hother eb heb hg h1 h2).ecHdrAt hc (hec eb)
    · intro eb heb hg h1 h2
      exact (hother eb heb hg h1 h2).no_vid hc
  · cases h

theorem format_good (hc : Consistent mtd ui) (hscan : Scanned mtd flash si)
    (hov : ∀ ec ∈ args.override_ec, ec ≤ EC_MAX) (hw : ∀ eb, env.write eb = .done) {c : ℕ} {b : ℤ}
    (h : format mtd ui args env 0 false outbuf ⟨si, flash, c, b⟩ = .ok dev') {eb : ℕ}
    (heb : eb < mtd.eb_cnt) :
    dev'.flash.bad eb = false ↔ flash.bad eb = false ∧ env.erase eb = .done := by
  have hbad := (format_result hc hscan hov hw h).1
  rw [← Bool.not_eq_true, hbad eb heb, not_or, Bool.not_eq_true, not_not]

/-- A counter that was counted up from its maximum is not one any more. -/
theorem Reformatted.below (hc : Consistent mtd ui) (hscan : Scanned mtd flash si)
    (hov : ∀ ec ∈ args.override_ec, ec ≤ EC_MAX) (hw : ∀ eb, env.write eb = .done) {c : ℕ} {b : ℤ}
    (h : format mtd ui args env 0 false outbuf ⟨si, flash, c, b⟩ = .ok dev')
    (hr : Reformatted mtd ui args si dev'.flash) : CountersBelow mtd args env si := by
  obtain ⟨⟨si', -, -, -, hec⟩, -⟩ := hr
  by_contra hcon
  unfold CountersBelow at hcon
  push Not at hcon
  obtain ⟨hnone, eb, heb, hmax, herase⟩ := hcon
  have hnb : flash.bad eb = false := by
    apply Bool.eq_false_iff.mpr
    intro ht
    have := (hscan.bad eb heb).mpr ht
    rw [hmax] at this
    exact absurd this (by decide)
  obtain ⟨hle, heq⟩ := hec eb heb ((format_good hc hscan hov hw h heb).mpr ⟨hnb, herase⟩)
  have hnew : newEc args si eb = EC_MAX+1 := by
    unfold newEc
    rw [show args.override_ec = none by simpa using hnone]
    dsimp only
    rw [hmax, if_pos (le_refl _)]
  omega

/-- What was formatted is scanned to what it was meant to be, exactly where no counter at its
maximum was counted up. -/
theorem format_scan_iff (hc : Consistent mtd ui) (hscan : ubiScan mtd flash = .ok si)
    (hov : ∀ ec ∈ args.override_ec, ec ≤ EC_MAX) (hw : ∀ eb, env.write eb = .done) (c : ℕ) (b : ℤ)
    (h : format mtd ui args env 0 false outbuf ⟨si, flash, c, b⟩ = .ok dev') :
    Reformatted mtd ui args si dev'.flash ↔ CountersBelow mtd args env si := by
  have hsc := ubiScan_scanned hscan
  obtain ⟨-, hhdr, hlayout⟩ := format_result hc hsc hov hw h
  refine ⟨Reformatted.below hc hsc hov hw h, fun hcond => ⟨?_, hlayout⟩⟩
  have hle (eb : ℕ) (heb : eb < mtd.eb_cnt) (hg : dev'.flash.bad eb = false) :
      newEc args si eb ≤ EC_MAX := by
    unfold newEc
    split
    next ec he => exact hov ec he
    next he =>
      split
      next hmax =>
        rcases hcond with hsome | hcond
        · rw [he] at hsome
          cases hsome
        · have hdone := ((format_good hc hsc hov hw h heb).mp hg).2
          have := mt (hcond eb heb) (not_not.mpr hdone)
          omega
      · exact hsc.mean_ec
  obtain ⟨eb1, eb2, -, hl1, -⟩ := hlayout
  obtain ⟨si', hs', hv, hd, hec⟩ := @ubiScan_valid _ _ _ hc.sane hc.data_offs (newEc args si)
    ⟨eb1, hl1.lt, hl1.good⟩ fun eb heb hg => ⟨hle eb heb hg, hhdr eb heb hg⟩
  refine ⟨si', hs', hv, hd, fun eb heb hg => ?_⟩
  rw [hec eb heb hg]
  exact ⟨hle eb heb hg, rfl⟩

/-- Where nothing fails, a device of two or more good eraseblocks is formatted. -/
theorem format_total (hmv : 0 ≤ ui.vtbl_size) (hcnt : 2 ≤ mtd.eb_cnt)
    (hgood : ∀ eb < mtd.eb_cnt, si.ec eb ≠ EB_BAD) (he : ∀ eb, env.erase eb = .done)
    (hw : ∀ eb, env.write eb = .done) (hl : env.layout = .done) (c : ℕ) (b : ℤ) :
    ∃ dev', format mtd ui args env 0 false outbuf ⟨si, flash, c, b⟩ = .ok dev' := by
  obtain ⟨s, hrun, hec, h1, h2⟩ := forRange_total (f := formatEb mtd ui args env false)
    (P := fun n s => s.dev.si = si ∧ (1 ≤ n → s.eb1 ≠ none) ∧ (2 ≤ n → s.eb2 ≠ none))
    (n := mtd.eb_cnt) (i := 0) (s := ⟨⟨si, flash, c, b⟩, none, none⟩)
    (by
      rintro n s - hn ⟨hsi, h1, h2⟩
      unfold formatEb
      dsimp only
      rw [hsi, if_neg (hgood n (by omega)), he n]
      dsimp only
      cases he1 : s.eb1 with
      | none =>
        refine ⟨_, if_pos rfl, hsi, fun _ => Option.some_ne_none _, fun hn2 => ?_⟩
        exact absurd he1 (h1 (by omega))
      | some p =>
        rw [if_neg (by simp)]
        cases he2 : s.eb2 with
        | none => exact ⟨_, if_pos rfl, hsi, fun _ => by simp, fun _ => Option.some_ne_none _⟩
        | some q =>
          rw [if_neg (by simp), hw n]
          exact ⟨_, rfl, hsi, fun _ => by simp, fun _ => by simp⟩)
    ⟨rfl, fun h => absurd h (by decide), fun h => absurd h (by decide)⟩
  rw [Nat.zero_add] at h1 h2
  obtain ⟨⟨eb1, ec1⟩, he1⟩ := Option.ne_none_iff_exists'.mp (h1 (by omega))
  obtain ⟨⟨eb2, ec2⟩, he2⟩ := Option.ne_none_iff_exists'.mp (h2 hcnt)
  unfold format
  rw [Nat.sub_zero, hrun, Loop.ok_bind, if_neg Bool.false_ne_true, he1, he2]
  dsimp only
  rw [ubigenCreateEmptyVtbl, if_neg (by omega), Loop.ok_bind, if_neg (not_not.mpr hl)]
  exact ⟨_, rfl⟩

/-- A NAND flash of four eraseblocks. -/
def nandMtd : Mtd := ⟨4, 131072, 2048, 2048, true⟩

def nandInfo : UbigenInfo := ubigenInfoInit 131072 2048 2048 0 1 0#32

/-- Nothing fails. -/
def calm : Env := ⟨fun _ => .done, fun _ => .done, fun _ => .done, .done, fun _ => true,
  fun _ => erased⟩

theorem nandInfo_consistent : Consistent nandMtd nandInfo :=
  ⟨ubigenInfoInit_sane (by decide) (by decide) (by decide), rfl, by decide, by decide⟩

/-- All eraseblocks have an EC header with the counter `ec`. -/
def wornFlash (ec : ℕ) : Flash := ⟨fun _ => false, fun _ => copyTo erased 0 (ubigenInitEcHdr nandInfo ec)⟩

theorem wornFlash_scan {ec : ℕ} (hec : ec ≤ EC_MAX) :
    ∃ si, ubiScan nandMtd (wornFlash ec) = .ok si ∧ ∀ eb < 4, si.ec eb = ec := by
  have hc := nandInfo_consistent
  have hhdr : HeaderOnly nandInfo ec (copyTo erased 0 (ubigenInitEcHdr nandInfo ec)) := by
    have := headerOnly_write nandInfo ec 0
    rwa [List.replicate_zero, List.append_nil] at this
  have hat := hhdr.ecHdrAt hc (by rw [EC_MAX] at hec; omega)
  obtain ⟨si, hsi, -, -, h⟩ := @ubiScan_valid nandMtd (wornFlash ec) _ hc.sane hc.data_offs
    (fun _ => ec) ⟨0, by decide, rfl⟩ fun _ _ _ => ⟨hec, hat⟩
  exact ⟨si, hsi, fun eb heb => h eb heb rfl⟩

theorem format_scan_worn : ∃ si dev', ubiScan nandMtd (wornFlash 7) = .ok si ∧
    format nandMtd nandInfo ⟨none, true⟩ calm 0 false erased ⟨si, wornFlash 7, 1, -1⟩ = .ok dev' ∧
    Reformatted nandMtd nandInfo ⟨none, true⟩ si dev'.flash := by
  obtain ⟨si, hsi, hec⟩ := @wornFlash_scan 7 (by decide)
  obtain ⟨dev', hdev⟩ := @format_total nandMtd nandInfo ⟨none, true⟩
    calm si (wornFlash 7) erased (by decide) (by decide)
    (fun eb heb => by rw [hec eb heb]; decide) (fun _ => rfl) (fun _ => rfl) rfl 1 (-1)
  refine ⟨si, dev', hsi, hdev, ?_⟩
  refine (format_scan_iff nandInfo_consistent hsi (fun _ h => (by cases h)) (fun _ => rfl) 1 (-1)
    hdev).mpr (Or.inr fun eb heb hmax => ?_)
  rw [hec eb heb] at hmax
  exact absurd hmax (by decide)

/-- At the maximum the counters are counted up to what the scan does not accept. -/
theorem format_scan_maximum : ∃ si dev', ubiScan nandMtd (wornFlash EC_MAX) = .ok si ∧
    format nandMtd nandInfo ⟨none, true⟩ calm 0 false erased ⟨si, wornFlash EC_MAX, 1, -1⟩ =
      .ok dev' ∧ ¬ Reformatted nandMtd nandInfo ⟨none, true⟩ si dev'.flash := by
  obtain ⟨si, hsi, hec⟩ := wornFlash_scan (le_refl EC_MAX)
  obtain ⟨dev', hdev⟩ := @format_total nandMtd nandInfo ⟨none, true⟩
    calm si (wornFlash EC_MAX) erased (by decide) (by decide)
    (fun eb heb => by rw [hec eb heb]; decide) (fun _ => rfl) (fun _ => rfl) rfl 1 (-1)
  refine ⟨si, dev', hsi, hdev, fun hr => ?_⟩
  have hbelow := hr.below nandInfo_consistent (ubiScan_scanned hsi) (fun _ h => (by cases h))
    (fun _ => rfl) hdev
  rcases hbelow with h | h
  · cases h
  · exact h 0 (by decide) (hec 0 (by decide)) rfl

end Rescan

end ChipTools.Ubi
