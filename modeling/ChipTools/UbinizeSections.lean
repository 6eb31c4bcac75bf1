import ChipTools.Ubinize

/-! A section of the configuration of `ubinize`: what is read of it before its alignment is
used, and the divisors that the alignment becomes. -/
namespace ChipTools.Ubi
open Bytes CNumber

section Fields

/-- What `read_section` has read where its checks are behind it. -/
structure Fields where
  type : VolType
  image : Option (List Byte)
  id : ℤ
  bytes : ℤ
  name : List Byte
  alignment : ℤ
  flags : Byte

variable (ui : UbigenInfo) (d : Dict) (fs : Files) (sname : List Byte)

/-- What `read_section` reads of a section for UBI, up to its first division. -/
def readUbiFields : Except Stop Fields := do
  let type ← readType d sname
  let image ← readImage d fs sname type
  let id ← readId ui d sname
  let bytes ← readSize d sname image
  let name ← readName d sname
  let alignment ← readAlignment d sname id
  let flags ← readFlags d sname
  .ok ⟨type, image, id, bytes, name, alignment, flags⟩

/-- `read_section` up to its first division. -/
def readFields : Except Stop (Option Fields) :=
  if 128 < sname.length then .error (.errmsg s!"too long section name \"{text sname}\"")
  else match d.getstring (keyOf sname "mode") with
    | none => .error (.errmsg s!"\"mode\" key not found in section \"{text sname}\"")
    | some mode => do
      if mode ≠ literal "ubi" then .ok none
      else
        let f ← readUbiFields ui d fs sname
        .ok (some f)

/-- The rest of `read_section`. -/
def Fields.finish (f : Fields) : Except Stop (Option Section) :=
  if f.alignment = 0 then .error .signal
  else
    let data_pad := ui.leb_size.tmod f.alignment
    let usable_leb_size := ui.leb_size-data_pad
    if usable_leb_size = 0 then .error .signal
    else
      let size := if f.type = .dynamic then f.bytes else ((f.image.getD []).length : ℤ)
      .ok (some ⟨⟨f.id, f.type, f.alignment, data_pad, usable_leb_size, f.name, 0#8,
        usedEbs size usable_leb_size, f.bytes, f.flags⟩, f.image⟩)

/-- A volume as `calloc` leaves it, which is what `main` has of a section that is skipped. Its
type is none of the two, and no volume with the alignment zero lives to have it read. -/
def skippedVolume : UbigenVolInfo := ⟨0, .dynamic, 0, 0, 0, [], 0#8, 0, 0, 0#8⟩

/-- The volume that `main` has for a section. -/
def Section.volume : Option Section → UbigenVolInfo
  | none => skippedVolume
  | some sec => sec.vi

/-- `read_section`, and `ubigen_add_volume` behind it. -/
def addRead (vtbl : List (List Byte)) : Except Stop (UbigenVolInfo × List (List Byte)) := do
  let sec ← readSection ui d fs sname
  let vtbl ← ubigenAddVolume ui (Section.volume sec) vtbl
  .ok (Section.volume sec, vtbl)

/-- The divisors of `read_section` in their order: that of `data_pad`, and that of `used_ebs`. A
division by zero is the last one. -/
def Fields.divisors (f : Fields) : List ℤ :=
  if f.alignment = 0 then [0] else [f.alignment, ui.leb_size-ui.leb_size.tmod f.alignment]

def readDivisors : List ℤ :=
  match readFields ui d fs sname with
  | .ok (some f) => f.divisors ui
  | _ => []

/-- The divisors of `ubigen_add_volume`: those of `reserved_pebs` and of `data_pad`. -/
def addDivisors : List ℤ :=
  match readSection ui d fs sname with
  | .error _ => []
  | .ok sec =>
    match checkVolume ui (Section.volume sec) with
    | .error _ => []
    | .ok () => [ui.leb_size, (Section.volume sec).alignment]

/-- What is asked of the alignment of a section: an error is reported, or the alignment is below
the size of a LEB, and no division is by zero or by a negative number. -/
structure AlignmentValidated (vtbl : List (List Byte)) : Prop where
  outcome : (∃ msg, addRead ui d fs sname vtbl = .error (.errmsg msg)) ∨
    ∃ vi vtbl', addRead ui d fs sname vtbl = .ok (vi, vtbl') ∧ 1 ≤ vi.alignment ∧
      vi.alignment < ui.leb_size
  read : ∀ n ∈ readDivisors ui d fs sname, 0 < n
  add : ∀ n ∈ addDivisors ui d fs sname, 0 < n

/-- The section is for UBI, and all that is read of it before the alignment is accepted. -/
structure BeforeAlignment (id : ℤ) : Prop where
  length : sname.length ≤ 128
  mode : d.getstring (keyOf sname "mode") = some (literal "ubi")
  values : ∃ type image bytes name, readType d sname = .ok type ∧
    readImage d fs sname type = .ok image ∧ readId ui d sname = .ok id ∧
    readSize d sname image = .ok bytes ∧ readName d sname = .ok name

/-- The sections that are safe. A section that is skipped finds no room for a volume, a key that
is taken for a number has a value, and an alignment that gets as far as the divisions is neither
zero nor negative, nor above the size of a LEB. -/
structure AlignmentFits : Prop where
  skipped : sname.length ≤ 128 → ∀ mode, d.getstring (keyOf sname "mode") = some mode →
    mode ≠ literal "ubi" → ui.max_volumes ≤ 0 ∨ ui.leb_size ≤ 0
  id : sname.length ≤ 128 → d.getstring (keyOf sname "mode") = some (literal "ubi") →
    ∀ type image, readType d sname = .ok type → readImage d fs sname type = .ok image →
      d.get (keyOf sname "vol_id") ≠ some none
  alignment : ∀ id, BeforeAlignment ui d fs sname id →
    d.get (keyOf sname "vol_alignment") ≠ some none ∧
    ∀ n flags, d.getint (keyOf sname "vol_alignment") (-1) = .ok n → readFlags d sname = .ok flags →
      (n = -1 ∧ 1 ≤ ui.leb_size) ∨ (1 ≤ n ∧ n ≤ ui.leb_size)

end Fields

section Alignment

variable {ui : UbigenInfo} {d : Dict} {fs : Files} {sname : List Byte} {vtbl : List (List Byte)}

theorem readSection_eq : readSection ui d fs sname = (do
    match ← readFields ui d fs sname with
    | none => .ok none
    | some f => f.finish ui) := by
  unfold readSection readFields readUbiFields
  split
  · rfl
  · cases d.getstring (keyOf sname "mode") with
    | none => rfl
    | some mode =>
      dsimp only
      split
      · rfl
      · simp only [bind_assoc]
        rfl

/-- A step that stops only with a message. -/
def Reports {α : Type} (x : Except Stop α) : Prop :=
  (∃ a, x = .ok a) ∨ ∃ msg, x = .error (.errmsg msg)

theorem Reports.ok {α : Type} (a : α) : Reports (.ok a) := Or.inl ⟨a, rfl⟩

theorem Reports.errmsg {α : Type} (msg : String) : Reports (.error (.errmsg msg) : Except Stop α) :=
  Or.inr ⟨msg, rfl⟩

theorem readType_reports : Reports (readType d sname) := by
  unfold readType
  repeat' split
  all_goals first | exact .ok _ | exact .errmsg _

theorem readImage_reports (type : VolType) : Reports (readImage d fs sname type) := by
  unfold readImage
  repeat' split
  all_goals first | exact .ok _ | exact .errmsg _

theorem readSize_reports (image : Option (List Byte)) : Reports (readSize d sname image) := by
  unfold readSize
  dsimp only
  repeat' split
  all_goals first | exact .ok _ | exact .errmsg _

theorem readName_reports : Reports (readName d sname) := by
  unfold readName
  repeat' split
  all_goals first | exact .ok _ | exact .errmsg _

theorem readFlags_reports : Reports (readFlags d sname) := by
  unfold readFlags
  repeat' split
  all_goals first | exact .ok _ | exact .errmsg _

/-- A number is read, or its key has no value. -/
theorem getint_cases (key : List Byte) (notfound : ℤ) :
    (∃ n, d.getint key notfound = .ok n ∧ d.get key ≠ some none) ∨
      (d.getint key notfound = .error .signal ∧ d.get key = some none) := by
  unfold Dict.getint
  cases d.get key with
  | none => exact Or.inl ⟨_, rfl, by simp⟩
  | some v =>
    cases v with
    | none => exact Or.inr ⟨rfl, rfl⟩
    | some s => exact Or.inl ⟨_, rfl, by simp⟩

theorem readId_reports {n : ℤ} (h : d.getint (keyOf sname "vol_id") (-1) = .ok n) :
    Reports (readId ui d sname) := by
  unfold readId
  rw [h, Loop.ok_bind]
  repeat' split
  all_goals first | exact .ok _ | exact .errmsg _

theorem readAlignment_of_value {n id : ℤ} (h : d.getint (keyOf sname "vol_alignment") (-1) = .ok n)
    (hid : 0 ≤ id) : readAlignment d sname id = .ok (if n = -1 then 1 else n) := by
  unfold readAlignment
  rw [h, Loop.ok_bind, if_neg (not_lt.mpr hid)]
  split <;> rfl

theorem checkVolume_reports (vi : UbigenVolInfo) : Reports (checkVolume ui vi) := by
  unfold checkVolume
  repeat' split
  all_goals first | exact .ok _ | exact .errmsg _

theorem checkVolume_ok_iff {vi : UbigenVolInfo} :
    checkVolume ui vi = .ok () ↔ vi.id < ui.max_volumes ∧ vi.alignment < ui.leb_size := by
  unfold checkVolume
  split
  next h => exact iff_of_false (by simp) (fun hc => absurd hc.1 (not_lt.mpr h))
  next h1 =>
    split
    next h => exact iff_of_false (by simp) (fun hc => absurd hc.2 (not_lt.mpr h))
    next h2 => exact iff_of_true rfl ⟨not_le.mp h1, not_le.mp h2⟩

theorem checkVolume_errmsg {vi : UbigenVolInfo}
    (h : ¬ (vi.id < ui.max_volumes ∧ vi.alignment < ui.leb_size)) :
    ∃ msg, checkVolume ui vi = .error (.errmsg msg) := by
  rcases @checkVolume_reports ui vi with ⟨⟨⟩, hok⟩ | hmsg
  · exact absurd (checkVolume_ok_iff.mp hok) h
  · exact hmsg

theorem AlignmentValidated.of_errmsg {msg : String}
    (h : readFields ui d fs sname = .error (.errmsg msg)) :
    AlignmentValidated ui d fs sname vtbl := by
  have hsec : readSection ui d fs sname = .error (.errmsg msg) := by
    rw [readSection_eq, h]
    rfl
  refine ⟨Or.inl ⟨msg, ?_⟩, ?_, ?_⟩
  · rw [addRead, hsec]
    rfl
  · rw [readDivisors, h]
    exact fun n hn => absurd hn List.not_mem_nil
  · rw [addDivisors, hsec]
    exact fun n hn => absurd hn List.not_mem_nil

/-- A signal is not a report. -/
theorem not_validated_of_signal (h : readSection ui d fs sname = .error .signal) :
    ¬ AlignmentValidated ui d fs sname vtbl := by
  intro hv
  have hadd : addRead ui d fs sname vtbl = .error .signal := by
    rw [addRead, h]
    rfl
  rcases hv.outcome with ⟨msg, hmsg⟩ | ⟨vi, vtbl', hok, -⟩
  · rw [hadd] at hmsg
    cases hmsg
  · rw [hadd] at hok
    cases hok

/-- Behind a section that is skipped, a volume with the alignment zero is added. -/
theorem validated_of_skipped (h : readFields ui d fs sname = .ok none) :
    AlignmentValidated ui d fs sname vtbl ↔ ui.max_volumes ≤ 0 ∨ ui.leb_size ≤ 0 := by
  have hsec : readSection ui d fs sname = .ok none := by
    rw [readSection_eq, h]
    rfl
  have hread : ∀ n ∈ readDivisors ui d fs sname, 0 < n := by
    rw [readDivisors, h]
    exact fun n hn => absurd hn List.not_mem_nil
  constructor
  · intro hv
    by_contra hc
    rw [not_or, not_le, not_le] at hc
    have hck : checkVolume ui skippedVolume = .ok () := checkVolume_ok_iff.mpr hc
    have hadd : addRead ui d fs sname vtbl = .error .signal := by
      rw [addRead, hsec, Loop.ok_bind, Section.volume, ubigenAddVolume, hck]
      rfl
    rcases hv.outcome with ⟨msg, hmsg⟩ | ⟨vi, vtbl', hok, -⟩
    · rw [hadd] at hmsg
      cases hmsg
    · rw [hadd] at hok
      cases hok
  · intro hc
    -- one of the two checks of the volume reports it
    obtain ⟨msg, hck⟩ := @checkVolume_errmsg ui skippedVolume (by
      rintro ⟨h1, h2⟩
      exact hc.elim (not_le.mpr h1) (not_le.mpr h2))
    refine ⟨Or.inl ⟨msg, ?_⟩, hread, ?_⟩
    · rw [addRead, hsec, Loop.ok_bind, Section.volume, ubigenAddVolume, hck]
      rfl
    · rw [addDivisors, hsec]
      dsimp only [Section.volume]
      rw [hck]
      exact fun n hn => absurd hn List.not_mem_nil

/-- The remainder of a LEB is below the alignment, and the rest of the LEB is a multiple of it
with at least one in it. -/
theorem usable_pos {leb_size a : ℤ} (h1 : 1 ≤ a) (h2 : a ≤ leb_size) :
    0 < leb_size-leb_size.tmod a := by
  rw [Int.tmod_eq_emod_of_nonneg (by omega)]
  have := Int.emod_lt_of_pos leb_size (show 0 < a by omega)
  omega

theorem usable_nonpos {leb_size a : ℤ} (h1 : 1 ≤ a) (h2 : leb_size < a) :
    leb_size-leb_size.tmod a ≤ 0 := by
  rcases lt_or_ge leb_size 0 with hneg | hpos
  · obtain ⟨n, hn⟩ := Int.eq_ofNat_of_zero_le (a := -leb_size) (by omega)
    obtain ⟨m, hm⟩ := Int.eq_ofNat_of_zero_le (a := a) (by omega)
    have hmod := Nat.mod_le n m
    rw [show leb_size = -(n : ℤ) by omega, hm, Int.neg_tmod, ← Int.ofNat_tmod]
    omega
  · rw [Int.tmod_eq_of_lt hpos h2]
    omega

/-- The section whose fields are all accepted. -/
theorem validated_of_fields {f : Fields} (h : readFields ui d fs sname = .ok (some f))
    (hid : f.id < ui.max_volumes) :
    AlignmentValidated ui d fs sname vtbl ↔ 1 ≤ f.alignment ∧ f.alignment ≤ ui.leb_size := by
  have hsec : readSection ui d fs sname = f.finish ui := by
    rw [readSection_eq, h]
    rfl
  have hdiv : readDivisors ui d fs sname = f.divisors ui := by rw [readDivisors, h]
  constructor
  · intro hv
    have hread := hv.read
    rw [hdiv] at hread
    by_cases h0 : f.alignment = 0
    · refine absurd (hread 0 ?_) (lt_irrefl 0)
      rw [Fields.divisors, if_pos h0]
      exact List.mem_singleton_self 0
    · rw [Fields.divisors, if_neg h0] at hread
      have h1 := hread _ List.mem_cons_self
      have h2 := hread _ (List.mem_cons_of_mem _ List.mem_cons_self)
      refine ⟨h1, ?_⟩
      by_contra hc
      have := usable_nonpos h1 (not_le.mp hc)
      omega
  · rintro ⟨h1, h2⟩
    have hu := usable_pos h1 h2
    have hne : f.alignment ≠ 0 := by omega
    obtain ⟨sec, hfin, hsid, hsal⟩ : ∃ sec, f.finish ui = .ok (some sec) ∧ sec.vi.id = f.id ∧
        sec.vi.alignment = f.alignment := by
      unfold Fields.finish
      rw [if_neg hne]
      dsimp only
      rw [if_neg hu.ne']
      exact ⟨_, rfl, rfl, rfl⟩
    rw [hfin] at hsec
    have hread : ∀ n ∈ readDivisors ui d fs sname, 0 < n := by
      rw [hdiv, Fields.divisors, if_neg hne]
      intro n hn
      rcases List.mem_cons.mp hn with rfl | hn
      · exact h1
      · rw [List.mem_singleton.mp hn]
        exact hu
    -- the alignment that is a whole LEB is reported, a smaller one is used
    rcases eq_or_lt_of_le h2 with heq | hlt
    · obtain ⟨msg, hck⟩ := @checkVolume_errmsg ui sec.vi (fun hc => absurd hc.2 (by rw [hsal]; omega))
      refine ⟨Or.inl ⟨msg, ?_⟩, hread, ?_⟩
      · rw [addRead, hsec, Loop.ok_bind, Section.volume, ubigenAddVolume, hck]
        rfl
      · rw [addDivisors, hsec]
        dsimp only [Section.volume]
        rw [hck]
        exact fun n hn => absurd hn List.not_mem_nil
    · have hck : checkVolume ui sec.vi = .ok () :=
        checkVolume_ok_iff.mpr ⟨by rw [hsid]; exact hid, by rw [hsal]; exact hlt⟩
      obtain ⟨vtbl', hadd⟩ : ∃ vtbl', ubigenAddVolume ui sec.vi vtbl = .ok vtbl' := by
        rw [ubigenAddVolume, hck, Loop.ok_bind, if_neg (by rw [hsal]; exact hne)]
        exact ⟨_, rfl⟩
      refine ⟨Or.inr ⟨sec.vi, vtbl', ?_, by rw [hsal]; exact h1, by rw [hsal]; exact hlt⟩, hread, ?_⟩
      · rw [addRead, hsec, Loop.ok_bind, Section.volume, hadd]
        rfl
      · rw [addDivisors, hsec]
        dsimp only [Section.volume]
        rw [hck]
        intro n hn
        rcases List.mem_cons.mp hn with rfl | hn
        · omega
        · rw [List.mem_singleton.mp hn, hsal]
          exact h1

theorem readFields_ubi (hlen : sname.length ≤ 128)
    (hmode : d.getstring (keyOf sname "mode") = some (literal "ubi")) :
    readFields ui d fs sname = (do
      let f ← readUbiFields ui d fs sname
      .ok (some f)) := by
  rw [readFields, if_neg (not_lt.mpr hlen), hmode]
  dsimp only
  rw [if_neg (not_not.mpr rfl)]

/-- A section for UBI that does not come to its alignment. -/
theorem AlignmentFits.of_before (hmode : d.getstring (keyOf sname "mode") = some (literal "ubi"))
    (hid : ∀ type image, readType d sname = .ok type → readImage d fs sname type = .ok image →
      d.get (keyOf sname "vol_id") ≠ some none)
    (hbefore : ∀ id, ¬ BeforeAlignment ui d fs sname id) : AlignmentFits ui d fs sname := by
  refine ⟨?_, fun _ _ => hid, fun id h => absurd h (hbefore id)⟩
  intro _ mode hm hne
  rw [hmode] at hm
  exact absurd (Option.some.inj hm).symm hne

/-- The values of a section, one by one. The first one that is not accepted decides. -/
theorem validated_iff_of_ubi (hlen : sname.length ≤ 128)
    (hmode : d.getstring (keyOf sname "mode") = some (literal "ubi")) :
    AlignmentValidated ui d fs sname vtbl ↔ AlignmentFits ui d fs sname := by
  have hubi := @readFields_ubi ui d fs sname hlen hmode
  rw [readUbiFields] at hubi
  rcases @readType_reports d sname with ⟨type, htype⟩ | ⟨msg, htype⟩
  swap
  · refine iff_of_true (@AlignmentValidated.of_errmsg ui d fs sname vtbl msg ?_)
      (.of_before hmode ?_ ?_)
    · rw [hubi, htype]
      rfl
    · intro type image h _
      rw [htype] at h
      cases h
    · rintro id ⟨-, -, type, image, bytes, name, h, -⟩
      rw [htype] at h
      cases h
  rw [htype, Loop.ok_bind] at hubi
  rcases @readImage_reports d fs sname type with ⟨image, himage⟩ | ⟨msg, himage⟩
  swap
  · have hno (type' : VolType) (image : Option (List Byte)) (h1 : readType d sname = .ok type')
        (h2 : readImage d fs sname type' = .ok image) : False := by
      obtain rfl := Except.ok.inj (htype.symm.trans h1)
      rw [himage] at h2
      cases h2
    refine iff_of_true (@AlignmentValidated.of_errmsg ui d fs sname vtbl msg ?_)
      (.of_before hmode ?_ ?_)
    · rw [hubi, himage]
      rfl
    · exact fun type image h1 h2 => (hno type image h1 h2).elim
    · rintro id ⟨-, -, type, image, bytes, name, h1, h2, -⟩
      exact hno type image h1 h2
  rw [himage, Loop.ok_bind] at hubi
  rcases @getint_cases d (keyOf sname "vol_id") (-1) with ⟨n, hn, hkey⟩ | ⟨hsig, hkey⟩
  swap
  · -- the null pointer of the key comes before all that could report anything
    refine iff_of_false (not_validated_of_signal ?_) (fun h => h.id hlen hmode type image htype himage hkey)
    rw [readSection_eq, hubi, readId, hsig]
    rfl
  have hid' : ∀ type image, readType d sname = .ok type → readImage d fs sname type = .ok image →
      d.get (keyOf sname "vol_id") ≠ some none := fun _ _ _ _ => hkey
  rcases @readId_reports ui d sname n hn with ⟨id, hid⟩ | ⟨msg, hid⟩
  swap
  · refine iff_of_true (@AlignmentValidated.of_errmsg ui d fs sname vtbl msg ?_)
      (.of_before hmode hid' ?_)
    · rw [hubi, hid]
      rfl
    · rintro id ⟨-, -, type, image, bytes, name, -, -, h, -⟩
      rw [hid] at h
      cases h
  rw [hid, Loop.ok_bind] at hubi
  rcases @readSize_reports d sname image with ⟨bytes, hbytes⟩ | ⟨msg, hbytes⟩
  swap
  · refine iff_of_true (@AlignmentValidated.of_errmsg ui d fs sname vtbl msg ?_)
      (.of_before hmode hid' ?_)
    · rw [hubi, hbytes]
      rfl
    · rintro id ⟨-, -, type', image', bytes, name, h1, h2, -, h, -⟩
      obtain rfl := Except.ok.inj (htype.symm.trans h1)
      obtain rfl := Except.ok.inj (himage.symm.trans h2)
      rw [hbytes] at h
      cases h
  rw [hbytes, Loop.ok_bind] at hubi
  rcases @readName_reports d sname with ⟨name, hname⟩ | ⟨msg, hname⟩
  swap
  · refine iff_of_true (@AlignmentValidated.of_errmsg ui d fs sname vtbl msg ?_)
      (.of_before hmode hid' ?_)
    · rw [hubi, hname]
      rfl
    · rintro id ⟨-, -, type', image', bytes, name, -, -, -, -, h⟩
      rw [hname] at h
      cases h
  have hbefore : BeforeAlignment ui d fs sname id :=
    ⟨hlen, hmode, type, image, bytes, name, htype, himage, hid, hbytes, hname⟩
  rw [hname, Loop.ok_bind] at hubi
  rcases @getint_cases d (keyOf sname "vol_alignment") (-1) with ⟨a, ha, hakey⟩ | ⟨hsig, hakey⟩
  swap
  · refine iff_of_false (not_validated_of_signal ?_) (fun h => (h.alignment id hbefore).1 hakey)
    rw [readSection_eq, hubi, readAlignment, hsig]
    rfl
  have hal := readAlignment_of_value ha (readId_ok hid).1
  rw [hal, Loop.ok_bind] at hubi
  rcases @readFlags_reports d sname with ⟨flags, hflags⟩ | ⟨msg, hflags⟩
  swap
  · refine iff_of_true (@AlignmentValidated.of_errmsg ui d fs sname vtbl msg ?_)
      ⟨?_, fun _ _ => hid', ?_⟩
    · rw [hubi, hflags]
      rfl
    · intro _ mode hm hne
      rw [hmode] at hm
      exact absurd (Option.some.inj hm).symm hne
    · intro id _
      refine ⟨hakey, ?_⟩
      intro n flags _ h
      rw [hflags] at h
      cases h
  have hfields : readFields ui d fs sname = .ok (some ⟨type, image, id, bytes, name,
      if a = -1 then 1 else a, flags⟩) := by
    rw [hubi, hflags]
    rfl
  rw [validated_of_fields hfields (readId_ok hid).2]
  constructor
  · rintro ⟨h1, h2⟩
    refine ⟨?_, fun _ _ => hid', ?_⟩
    · intro _ mode hm hne
      rw [hmode] at hm
      exact absurd (Option.some.inj hm).symm hne
    · intro id _
      refine ⟨hakey, ?_⟩
      intro n flags h _
      obtain rfl := Except.ok.inj (ha.symm.trans h)
      dsimp only at h1 h2
      split at h1
      next hn => exact Or.inl ⟨hn, by rwa [if_pos hn] at h2⟩
      next hn => exact Or.inr ⟨h1, by rwa [if_neg hn] at h2⟩
  · intro h
    dsimp only
    rcases (h.alignment id hbefore).2 a flags ha hflags with ⟨rfl, hl⟩ | ⟨h1, h2⟩
    · exact ⟨le_refl _, hl⟩
    · rw [if_neg (by omega)]
      exact ⟨h1, h2⟩

/-- The alignment of a section is validated before it is used if and only if the section is
skipped where there is no room for a volume, has a value for each key that is taken for a
number, and an alignment from one to the size of a LEB. -/
theorem alignment_validated_iff (ui : UbigenInfo) (d : Dict) (fs : Files) (sname : List Byte)
    (vtbl : List (List Byte)) :
    AlignmentValidated ui d fs sname vtbl ↔ AlignmentFits ui d fs sname := by
  by_cases hlen : 128 < sname.length
  · refine iff_of_true (.of_errmsg (by rw [readFields, if_pos hlen])) ?_
    exact ⟨fun h => absurd h (not_le.mpr hlen), fun h => absurd h (not_le.mpr hlen),
      fun _ h => absurd h.length (not_le.mpr hlen)⟩
  · cases hmode : d.getstring (keyOf sname "mode") with
    | none =>
      refine iff_of_true (.of_errmsg (by rw [readFields, if_neg hlen, hmode])) ⟨?_, ?_, ?_⟩
      · intro _ mode h
        rw [hmode] at h
        cases h
      · intro _ h
        rw [hmode] at h
        cases h
      · intro _ h
        have := h.mode
        rw [hmode] at this
        cases this
    | some mode =>
      by_cases hubi : mode = literal "ubi"
      · rw [hubi] at hmode
        exact validated_iff_of_ubi (not_lt.mp hlen) hmode
      · have hskip : readFields ui d fs sname = .ok none := by
          rw [readFields, if_neg hlen, hmode]
          dsimp only
          rw [if_pos hubi]
        rw [validated_of_skipped hskip]
        constructor
        · intro h
          refine ⟨fun _ _ _ _ => h, ?_, ?_⟩
          · intro _ hm
            rw [hmode] at hm
            exact absurd (Option.some.inj hm) hubi
          · intro _ hb
            have hm := hb.mode
            rw [hmode] at hm
            exact absurd (Option.some.inj hm) hubi
        · intro h
          exact h.skipped (not_lt.mp hlen) mode hmode hubi

/-- The alignment zero is accepted, and divides. -/
theorem alignment_zero_divides : ¬ AlignmentValidated nandArgs.info (oneVolume "0")
    (fun _ => none) (literal "v") emptyTable := by
  intro h
  refine absurd (h.read 0 ?_) (lt_irrefl 0)
  decide +kernel

end Alignment

end ChipTools.Ubi
