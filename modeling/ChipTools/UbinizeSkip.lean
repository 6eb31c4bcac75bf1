import ChipTools.UbinizeMain
import Mathlib.Data.List.TakeWhile

/-! The sections of a configuration of `ubinize` that are not for UBI: what the program does with
them, against the same configuration without them. -/
namespace ChipTools.Ubi
open Bytes CNumber

section Dropping

/-- A section whose mode is not `ubi`. -/
def isNonUbi (d : Dict) (sname : List Byte) : Bool :=
  match d.getstring (keyOf sname "mode") with
  | none => false
  | some mode => mode ≠ literal "ubi"

/-- The section that a key of the dictionary belongs to. -/
def sectionOf (key : List Byte) : List Byte := key.takeWhile fun b => b ≠ 0x3a#8

/-- The dictionary of the file without the sections that are not for UBI. -/
def dropNonUbi (d : Dict) : Dict := d.filter fun e => !isNonUbi d (sectionOf e.1)

def World.dropping (w : World) : World := { w with ini := fun f_in => (w.ini f_in).map dropNonUbi }

variable {d : Dict} {sname : List Byte}

theorem strlwc_append (s t : List Byte) : strlwc (s ++ t) = strlwc s ++ strlwc t :=
  List.map_append

theorem lower_lower (b : Byte) :
    (if 0x41#8 ≤ (if 0x41#8 ≤ b ∧ b ≤ 0x5a#8 then b+0x20#8 else b) ∧
        (if 0x41#8 ≤ b ∧ b ≤ 0x5a#8 then b+0x20#8 else b) ≤ 0x5a#8
      then (if 0x41#8 ≤ b ∧ b ≤ 0x5a#8 then b+0x20#8 else b)+0x20#8
      else (if 0x41#8 ≤ b ∧ b ≤ 0x5a#8 then b+0x20#8 else b)) =
    if 0x41#8 ≤ b ∧ b ≤ 0x5a#8 then b+0x20#8 else b := by
  by_cases h : 0x41#8 ≤ b ∧ b ≤ 0x5a#8
  · rw [if_pos h]
    exact if_neg (by bv_omega)
  · rw [if_neg h]
    exact if_neg h

theorem strlwc_strlwc (s : List Byte) : strlwc (strlwc s) = strlwc s := by
  rw [strlwc, strlwc, List.map_map]
  exact List.map_congr_left fun b _ => lower_lower b

/-- Lower case makes no colon. -/
theorem colon_mem_strlwc {s : List Byte} : 0x3a#8 ∈ strlwc s ↔ 0x3a#8 ∈ s := by
  have hlower (b : Byte) : (if 0x41#8 ≤ b ∧ b ≤ 0x5a#8 then b+0x20#8 else b) = 0x3a#8 ↔
      b = 0x3a#8 := by
    split_ifs with h
    · constructor
      · intro hb
        bv_omega
      · rintro rfl
        exact absurd h (by decide)
    · exact Iff.rfl
  rw [strlwc, List.mem_map]
  constructor
  · rintro ⟨b, hb, hc⟩
    rwa [← (hlower b).mp hc]
  · exact fun h => ⟨_, h, (hlower _).mpr rfl⟩

theorem sectionOf_of_notMem {s : List Byte} (h : 0x3a#8 ∉ s) : sectionOf s = s := by
  apply List.takeWhile_eq_self_iff.mpr
  intro b hb
  exact decide_eq_true fun hc => h (hc ▸ hb)

theorem sectionOf_key {s : List Byte} (h : 0x3a#8 ∉ s) (key : String) :
    sectionOf (strlwc (keyOf s key)) = strlwc s := by
  have hcolon : strlwc (literal (":" ++ key)) = 0x3a#8 :: strlwc (literal key) := by
    rw [literal, String.toList_append, List.map_append, ← literal, strlwc_append]
    rfl
  have hs : ∀ b ∈ strlwc s, decide (b ≠ 0x3a#8) = true := by
    intro b hb
    exact decide_eq_true fun hc => h (colon_mem_strlwc.mp (hc ▸ hb))
  rw [keyOf, strlwc_append, hcolon, sectionOf, List.takeWhile_append_of_pos hs]
  simp

theorem get_strlwc (key : List Byte) : d.get (strlwc key) = d.get key := by
  rw [Dict.get, Dict.get, strlwc_strlwc]

/-- The mode of a section does not depend on its case. -/
theorem isNonUbi_strlwc (s : List Byte) : isNonUbi d (strlwc s) = isNonUbi d s := by
  have hkey : d.get (keyOf (strlwc s) "mode") = d.get (keyOf s "mode") := by
    rw [← get_strlwc, keyOf, strlwc_append, strlwc_strlwc, ← strlwc_append, ← keyOf, get_strlwc]
  rw [isNonUbi, isNonUbi, Dict.getstring, Dict.getstring, hkey]

theorem find?_filter_of_imp {α : Type} {p q : α → Bool} {l : List α}
    (h : ∀ a, q a = true → p a = true) : (l.filter p).find? q = l.find? q := by
  rw [List.find?_filter]
  congr 1
  funext a
  cases hq : q a with
  | false => exact decide_eq_false fun hc => Bool.false_ne_true hc.2
  | true => exact decide_eq_true ⟨h a hq, rfl⟩

/-- The keys of a section that stays are found as before. -/
theorem dropNonUbi_get (hcolon : 0x3a#8 ∉ sname) (hubi : isNonUbi d sname = false) (key : String) :
    (dropNonUbi d).get (keyOf sname key) = d.get (keyOf sname key) := by
  unfold Dict.get dropNonUbi
  rw [find?_filter_of_imp]
  intro e he
  rw [of_decide_eq_true he, sectionOf_key hcolon, isNonUbi_strlwc, hubi]
  rfl

/-- The sections that stay. -/
def keptNames (d : Dict) : List (List Byte) := d.secnames.filter fun sname => !isNonUbi d sname

theorem dropNonUbi_secnames : (dropNonUbi d).secnames = keptNames d := by
  unfold Dict.secnames dropNonUbi keptNames Dict.secnames
  rw [List.filter_map, List.filter_map, List.filter_filter, List.filter_map, List.filter_filter]
  congr 1
  apply List.filter_congr
  intro e _
  by_cases hc : 0x3a#8 ∈ e.1
  · simp [hc]
  · simp [hc, sectionOf_of_notMem hc]

end Dropping

section Congruence

variable {w : World} {args : Args} {d d' : Dict} {sname : List Byte} {outbuf : ℕ → Byte}

/-- A section is read by its own keys. -/
theorem readSectionIn_congr {ui : UbigenInfo}
    (h : ∀ key : String, d'.get (keyOf sname key) = d.get (keyOf sname key)) :
    readSectionIn w ui d' sname = readSectionIn w ui d sname := by
  have hs (key : String) : d'.getstring (keyOf sname key) = d.getstring (keyOf sname key) :=
    congrArg Option.join (h key)
  have hi (key : String) (n : ℤ) : d'.getint (keyOf sname key) n = d.getint (keyOf sname key) n := by
    rw [Dict.getint, Dict.getint, h]
  have htype : readType d' sname = readType d sname := by rw [readType, readType, hs]
  have himage (type : VolType) :
      readImage d' (w.stat sname) sname type = readImage d (w.stat sname) sname type := by
    rw [readImage, readImage, hs]
  have hid : readId ui d' sname = readId ui d sname := by rw [readId, readId, hi]
  have hsize (image : Option (List Byte)) :
      readSizeIn w d' sname image = readSizeIn w d sname image := by
    unfold readSizeIn readSize
    rw [hs, hs]
  have hname : readName d' sname = readName d sname := by rw [readName, readName, hs]
  have halign (id : ℤ) : readAlignment d' sname id = readAlignment d sname id := by
    rw [readAlignment, readAlignment, hi]
  have hflags : readFlags d' sname = readFlags d sname := by rw [readFlags, readFlags, hs]
  have hfields : readUbiFieldsIn w ui d' sname = readUbiFieldsIn w ui d sname := by
    unfold readUbiFieldsIn
    simp only [htype, himage, hid, hsize, hname, halign, hflags]
  rw [readSectionIn, readSectionIn, hs, hfields]

/-- A pass takes no more of the configuration than its section. -/
theorem passSection_congr {p : Progress}
    (h : ∀ key : String, d'.get (keyOf sname key) = d.get (keyOf sname key)) :
    passSection w args d' sname outbuf p = passSection w args d sname outbuf p := by
  rw [passSection, passSection, readSectionIn_congr h]

theorem writeLoopIn_dropping {ui : UbigenInfo} {vi : UbigenVolInfo} (fuel lnum : ℕ) (buf : ℕ → Byte)
    (len bytes : ℕ) (inp : List Byte) (out : OutFile) :
    writeLoopIn w.dropping ui sname vi fuel lnum buf len bytes inp out =
      writeLoopIn w ui sname vi fuel lnum buf len bytes inp out := by
  induction fuel generalizing lnum buf len bytes inp out with
  | zero => cases bytes <;> rfl
  | succ fuel ih =>
    cases bytes with
    | zero => rfl
    | succ bytes =>
      rw [writeLoopIn.eq_3 _ _ _ _ _ _ _ _ _ _ _ (Nat.succ_ne_zero _),
        writeLoopIn.eq_3 _ _ _ _ _ _ _ _ _ _ _ (Nat.succ_ne_zero _)]
      dsimp only
      rw [ih]
      rfl

theorem passSection_dropping {p : Progress} :
    passSection w.dropping args d sname outbuf p = passSection w args d sname outbuf p := by
  have himage (vi : UbigenVolInfo) (out : OutFile) (image : Option (List Byte)) :
      addImage w.dropping args sname outbuf vi out image =
        addImage w args sname outbuf vi out image := by
    cases image with
    | none => rfl
    | some content =>
      unfold addImage
      dsimp only
      rw [writeLoopIn_dropping]
      rfl
  unfold passSection
  simp only [himage]
  rfl

theorem runSections_dropping {names : List (List Byte)} {p : Progress} :
    runSections w.dropping args d outbuf names p = runSections w args d outbuf names p := by
  have hpass : (fun p sname => passSection w.dropping args d sname outbuf p) =
      fun p sname => passSection w args d sname outbuf p := by
    funext p sname
    exact passSection_dropping
  rw [runSections, runSections, hpass]
  rfl

/-- The loop over sections that stay. -/
theorem runSections_dropNonUbi {names : List (List Byte)} {p : Progress}
    (h : ∀ sname ∈ names, 0x3a#8 ∉ sname ∧ isNonUbi d sname = false) :
    runSections w args (dropNonUbi d) outbuf names p = runSections w args d outbuf names p := by
  have hfold : names.foldlM (fun p sname => passSection w args (dropNonUbi d) sname outbuf p) p =
      names.foldlM (fun p sname => passSection w args d sname outbuf p) p := by
    induction names generalizing p with
    | nil => rfl
    | cons sname names ih =>
      obtain ⟨hcolon, hubi⟩ := h sname List.mem_cons_self
      rw [List.foldlM_cons, List.foldlM_cons, passSection_congr (dropNonUbi_get hcolon hubi)]
      congr 1
      funext p1
      exact ih fun s hs => h s (List.mem_cons_of_mem _ hs)
  rw [runSections, runSections, hfold]

theorem mem_keptNames (h : sname ∈ keptNames d) : 0x3a#8 ∉ sname ∧ isNonUbi d sname = false := by
  obtain ⟨hmem, hubi⟩ := List.mem_filter.mp h
  refine ⟨of_decide_eq_true (List.mem_filter.mp hmem).2, ?_⟩
  rwa [Bool.not_eq_true'] at hubi

end Congruence

section Ignored

variable (w : World) (args : Args) (d : Dict) (outbuf : ℕ → Byte)

/-- What the pass for a section that is not for UBI ends with. -/
def nonUbiHalt (ui : UbigenInfo) (sname : List Byte) (p : Progress) : Halt :=
  if 128 < sname.length then .goto (-1) p.out else skipHalt ui p

/-- The loop comes to no section that is not for UBI: a section for UBI before the first of them ends
it. And these sections do not make the sections too many. -/
structure Unmet (vtbl : List (List Byte)) : Prop where
  count : args.info.max_volumes < d.secnames.length →
    args.info.max_volumes < (keptNames d).length ∨ keptNames d = [] ∨ w.fails .seek = true
  before : d.secnames.length ≤ args.info.max_volumes → w.fails .seek = false →
    ∀ before sname behind, d.secnames = before ++ sname :: behind →
    (∀ s ∈ before, isNonUbi d s = false) → isNonUbi d sname = true →
    ∃ halt, before.foldlM (fun p s => passSection w args d s outbuf p) (firstProgress args.info vtbl) =
      .error halt

/-- The first section that is not for UBI is the end of the run. It makes no difference where the
loop does not come to it, and where the sections for UBI behind it happen to end in the same way:
with the same status or signal and the same file. -/
structure SkipFits (vtbl : List (List Byte)) : Prop where
  /-- Too many sections, but not too many for UBI. -/
  count : args.info.max_volumes < d.secnames.length → (keptNames d).length ≤ args.info.max_volumes →
    keptNames d ≠ [] → w.fails .seek = false →
    runSections w args d outbuf (keptNames d) (firstProgress args.info vtbl) = finish w 0 ⟨[], 0⟩
  met : d.secnames.length ≤ args.info.max_volumes → w.fails .seek = false →
    ∀ before sname behind p, d.secnames = before ++ sname :: behind →
    (∀ s ∈ before, isNonUbi d s = false) → isNonUbi d sname = true →
    before.foldlM (fun p s => passSection w args d s outbuf p) (firstProgress args.info vtbl) = .ok p →
    keptNames d ≠ [] ∧
      runSections w args d outbuf (behind.filter fun s => !isNonUbi d s) p =
        (nonUbiHalt args.info sname p).ending w

variable {w args d outbuf} {names : List (List Byte)} {p : Progress} {sname : List Byte}

theorem passSection_nonUbi (h : isNonUbi d sname = true) (hmax : 0 < args.info.max_volumes) :
    passSection w args d sname outbuf p = .error (nonUbiHalt args.info sname p) := by
  unfold isNonUbi at h
  cases hmode : d.getstring (keyOf sname "mode") with
  | none =>
    rw [hmode] at h
    cases h
  | some mode =>
    rw [hmode] at h
    unfold nonUbiHalt
    by_cases hlen : 128 < sname.length
    · rw [if_pos hlen, passSection, readSectionIn, if_pos hlen]
    · rw [if_neg hlen]
      apply passSection_skipped _ hmax
      rw [readSectionIn, if_neg hlen, hmode]
      exact if_pos (of_decide_eq_true h)

theorem runSections_append {before behind : List (List Byte)} {p1 : Progress}
    (h : before.foldlM (fun p s => passSection w args d s outbuf p) p = .ok p1) :
    runSections w args d outbuf (before ++ behind) p = runSections w args d outbuf behind p1 := by
  rw [runSections, runSections, List.foldlM_append, h, Loop.ok_bind]

theorem runSections_append_error {before behind : List (List Byte)} {halt : Halt}
    (h : before.foldlM (fun p s => passSection w args d s outbuf p) p = .error halt) :
    runSections w args d outbuf (before ++ behind) p = halt.ending w := by
  rw [runSections, List.foldlM_append, h]
  rfl

/-- The first element of a list that a test finds. -/
theorem exists_first {α : Type} {q : α → Bool} {l : List α} (h : l.filter (fun a => !q a) ≠ l) :
    ∃ before a behind, l = before ++ a :: behind ∧ (∀ b ∈ before, q b = false) ∧ q a = true := by
  induction l with
  | nil => exact absurd rfl h
  | cons a l ih =>
    cases hq : q a with
    | true => exact ⟨[], a, l, rfl, fun b hb => absurd hb List.not_mem_nil, hq⟩
    | false =>
      obtain ⟨before, b, behind, hl, hbefore, hb⟩ := ih (by
        intro hc
        apply h
        rw [List.filter_cons_of_pos (by rw [hq]; rfl), hc])
      refine ⟨a :: before, b, behind, by rw [hl]; rfl, ?_, hb⟩
      intro c hc
      rcases List.mem_cons.mp hc with rfl | hc
      · exact hq
      · exact hbefore c hc

/-- There is one first element that a test finds. -/
theorem first_unique {α : Type} {q : α → Bool} {b1 b2 c1 c2 : List α} {a1 a2 : α}
    (h : b1 ++ a1 :: c1 = b2 ++ a2 :: c2) (h1 : ∀ b ∈ b1, q b = false)
    (h2 : ∀ b ∈ b2, q b = false) (ha1 : q a1 = true) (ha2 : q a2 = true) :
    b1 = b2 ∧ a1 = a2 ∧ c1 = c2 := by
  induction b1 generalizing b2 with
  | nil =>
    cases b2 with
    | nil =>
      obtain ⟨rfl, rfl⟩ := List.cons_eq_cons.mp h
      exact ⟨rfl, rfl, rfl⟩
    | cons b b2 =>
      obtain ⟨rfl, -⟩ := List.cons_eq_cons.mp h
      rw [h2 a1 List.mem_cons_self] at ha1
      cases ha1
  | cons b b1 ih =>
    cases b2 with
    | nil =>
      obtain ⟨rfl, -⟩ := List.cons_eq_cons.mp h
      rw [h1 b List.mem_cons_self] at ha2
      cases ha2
    | cons b' b2 =>
      obtain ⟨rfl, hrest⟩ := List.cons_eq_cons.mp h
      obtain ⟨rfl, ha, hc⟩ := ih hrest (fun c hc => h1 c (List.mem_cons_of_mem _ hc))
        (fun c hc => h2 c (List.mem_cons_of_mem _ hc))
      exact ⟨rfl, ha, hc⟩

/-- No section is dropped. -/
theorem SkipFits.of_all {vtbl : List (List Byte)} (h : keptNames d = d.secnames) :
    SkipFits w args d outbuf vtbl := by
  refine ⟨fun h1 h2 => absurd (h ▸ h2) (not_le.mpr h1), ?_⟩
  intro _ _ before sname behind p hnames _ hs _
  have hmem : sname ∈ keptNames d := by
    rw [h, hnames]
    exact List.mem_append_right _ List.mem_cons_self
  rw [(mem_keptNames hmem).2] at hs
  cases hs

theorem keptNames_split {before behind : List (List Byte)}
    (hnames : d.secnames = before ++ sname :: behind) (hbefore : ∀ s ∈ before, isNonUbi d s = false)
    (hs : isNonUbi d sname = true) :
    keptNames d = before ++ behind.filter fun s => !isNonUbi d s := by
  have hself : before.filter (fun s => !isNonUbi d s) = before := by
    apply List.filter_eq_self.mpr
    intro s hmem
    rw [hbefore s hmem]
    rfl
  rw [keptNames, hnames, List.filter_append, hself,
    List.filter_cons_of_neg (by rw [hs]; exact Bool.false_ne_true)]

/-- The two configurations from the volume table on. -/
theorem runConfig_dropping_iff (vtbl : List (List Byte)) :
    runConfig w.dropping args (dropNonUbi d) outbuf vtbl = runConfig w args d outbuf vtbl ↔
      SkipFits w args d outbuf vtbl := by
  have hrun : runSections w.dropping args (dropNonUbi d) outbuf (keptNames d)
      (firstProgress args.info vtbl) =
        runSections w args d outbuf (keptNames d) (firstProgress args.info vtbl) := by
    rw [runSections_dropping]
    exact runSections_dropNonUbi fun s hs => mem_keptNames hs
  by_cases hall : keptNames d = d.secnames
  · -- nothing to drop
    refine iff_of_true ?_ (.of_all hall)
    rw [runConfig, runConfig, dropNonUbi_secnames, hrun, hall]
    rfl
  obtain ⟨before, sname, behind, hnames, hbefore, hs⟩ := exists_first hall
  have hkept := keptNames_split hnames hbefore hs
  have hne : d.secnames ≠ [] := by
    rw [hnames]
    simp
  have hle : (keptNames d).length ≤ d.secnames.length := List.length_filter_le _ _
  have hleft : runConfig w.dropping args (dropNonUbi d) outbuf vtbl =
      if keptNames d = [] then finish w 0 ⟨[], 0⟩
      else if args.info.max_volumes < (keptNames d).length then finish w 0 ⟨[], 0⟩
      else if w.fails .seek then finish w 0 ⟨[], 0⟩
      else runSections w args d outbuf (keptNames d) (firstProgress args.info vtbl) := by
    rw [runConfig, dropNonUbi_secnames, hrun]
    rfl
  rw [hleft, runConfig, if_neg hne]
  by_cases hmany : args.info.max_volumes < d.secnames.length
  · rw [if_pos hmany]
    constructor
    · intro heq
      refine ⟨fun _ h1 h2 h3 => ?_, fun h1 => absurd h1 (not_le.mpr hmany)⟩
      rwa [if_neg h2, if_neg (not_lt.mpr h1), if_neg (by rw [h3]; decide)] at heq
    · intro hfits
      split_ifs with h1 h2 h3
      · rfl
      · rfl
      · rfl
      · exact hfits.count hmany (not_lt.mp h2) h1 (Bool.eq_false_iff.mpr h3)
  · rw [if_neg hmany]
    have hfew : ¬ args.info.max_volumes < (keptNames d).length := by omega
    have hmax : 0 < args.info.max_volumes := by
      have := List.length_pos_iff.mpr hne
      omega
    rw [if_neg hfew]
    by_cases hseek : w.fails .seek = true
    · rw [if_pos hseek, if_pos hseek, ite_self]
      refine iff_of_true rfl ⟨fun h1 => absurd h1 hmany, fun _ h2 => ?_⟩
      rw [hseek] at h2
      cases h2
    · rw [if_neg hseek, if_neg hseek]
      cases hpre : before.foldlM (fun p s => passSection w args d s outbuf p)
          (firstProgress args.info vtbl) with
      | error halt =>
        -- the section is not come to
        have hkeep : keptNames d ≠ [] := by
          intro hc
          rw [hkept] at hc
          rw [(List.append_eq_nil_iff.mp hc).1] at hpre
          cases hpre
        refine iff_of_true ?_ ⟨fun h1 => absurd h1 hmany, ?_⟩
        · rw [if_neg hkeep, hkept, hnames, runSections_append_error hpre,
            runSections_append_error hpre]
        · intro _ _ before' sname' behind' p' hnames' hbefore' hs' hp'
          obtain ⟨rfl, -⟩ := first_unique (hnames.symm.trans hnames') hbefore hbefore' hs hs'
          rw [hpre] at hp'
          cases hp'
      | ok p1 =>
        have hright : runSections w args d outbuf d.secnames (firstProgress args.info vtbl) =
            (nonUbiHalt args.info sname p1).ending w := by
          rw [hnames, runSections_append hpre, runSections, List.foldlM_cons,
            passSection_nonUbi hs hmax]
          rfl
        have hfits : SkipFits w args d outbuf vtbl ↔ keptNames d ≠ [] ∧
            runSections w args d outbuf (behind.filter fun s => !isNonUbi d s) p1 =
              (nonUbiHalt args.info sname p1).ending w := by
          constructor
          · intro h
            exact h.met (not_lt.mp hmany) (Bool.eq_false_iff.mpr hseek) before sname behind p1 hnames
              hbefore hs hpre
          · intro h
            refine ⟨fun h1 => absurd h1 hmany, ?_⟩
            intro _ _ before' sname' behind' p' hnames' hbefore' hs' hp'
            obtain ⟨rfl, rfl, rfl⟩ := first_unique (hnames.symm.trans hnames') hbefore hbefore' hs hs'
            obtain rfl := Except.ok.inj (hpre.symm.trans hp')
            exact h
        rw [hright, hfits]
        by_cases hnil : keptNames d = []
        · rw [if_pos hnil]
          refine iff_of_false ?_ (fun h => h.1 hnil)
          -- alone in the file, the section is never taken for a file without sections
          rw [hkept] at hnil
          rw [(List.append_eq_nil_iff.mp hnil).1] at hpre
          obtain rfl := Except.ok.inj hpre
          unfold nonUbiHalt skipHalt firstProgress finish
          dsimp only
          split_ifs <;> exact fun hc => by cases hc
        · rw [if_neg hnil, hkept, runSections_append hpre]
          exact ⟨fun h => ⟨fun hc => hnil (hkept.trans hc), h⟩, fun h => h.2⟩

theorem Unmet.skipFits {vtbl : List (List Byte)} (h : Unmet w args d outbuf vtbl) :
    SkipFits w args d outbuf vtbl := by
  constructor
  · intro hmany hfew hne hseek
    rcases h.count hmany with hkept | hkept | hfail
    · exact absurd hfew (not_le.mpr hkept)
    · exact absurd hkept hne
    · rw [hseek] at hfail
      cases hfail
  · intro hfew hseek before sname behind p hnames hbefore hs hp
    obtain ⟨halt, herr⟩ := h.before hfew hseek before sname behind hnames hbefore hs
    rw [hp] at herr
    cases herr

/-- What `main` does before the label `out`, with the status 0 and an image in the file, it has done
over the sections. -/
theorem runConfig_image {d : Dict} {vtbl : List (List Byte)} {image : List Byte} (hne : image ≠ [])
    (h : runConfig w args d outbuf vtbl = .returned 0 (some image)) :
    d.secnames ≠ [] ∧ d.secnames.length ≤ args.info.max_volumes ∧ w.fails .seek = false ∧
      runSections w args d outbuf d.secnames (firstProgress args.info vtbl) =
        .returned 0 (some image) := by
  have hfinish : finish w 0 ⟨[], 0⟩ ≠ .returned 0 (some image) := by
    unfold finish World.closed
    rw [List.take_nil, ite_self]
    intro hc
    split at hc
    · exact hne (Option.some.inj (Ending.returned.inj hc).2).symm
    · cases (Ending.returned.inj hc).2
  unfold runConfig at h
  split at h
  · exact absurd h hfinish
  next hnames =>
    split at h
    · exact absurd h hfinish
    next hfew =>
      split at h
      · exact absurd h hfinish
      next hseek => exact ⟨hnames, not_lt.mp hfew, Bool.eq_false_iff.mpr hseek, h⟩

/-- A section that is not for UBI never ends the run with the status 0. -/
theorem nonUbiHalt_ending (ui : UbigenInfo) (sname : List Byte) (p : Progress)
    (file : Option (List Byte)) : (nonUbiHalt ui sname p).ending w ≠ .returned 0 file := by
  have hstatus {n : ℤ} (hn : n ≠ 0) : (Halt.goto n p.out).ending w ≠ .returned 0 file :=
    fun hc => hn (Ending.returned.inj hc).1
  unfold nonUbiHalt skipHalt
  by_cases hlen : 128 < sname.length
  · rw [if_pos hlen]
    exact hstatus (by decide)
  rw [if_neg hlen]
  cases p.vis with
  | nil =>
    dsimp only
    split_ifs
    · exact hstatus (by decide)
    · exact fun hc => by cases hc
  | cons v vis =>
    dsimp only
    split_ifs
    · exact hstatus (by decide)
    · exact fun hc => by cases hc

/-- Where the sections for UBI alone make an image, the runs do not end the same by chance. -/
theorem SkipFits.unmet {vtbl : List (List Byte)} {image : List Byte} (hne : image ≠ [])
    (h : SkipFits w args d outbuf vtbl)
    (hrun : runConfig w.dropping args (dropNonUbi d) outbuf vtbl = .returned 0 (some image)) :
    Unmet w args d outbuf vtbl := by
  obtain ⟨hnil, hkept, hseek, hsections⟩ := runConfig_image hne hrun
  have hseek' : w.fails .seek = false := hseek
  rw [dropNonUbi_secnames] at hnil hkept hsections
  rw [runSections_dropping, runSections_dropNonUbi fun s hs => mem_keptNames hs] at hsections
  constructor
  · intro hmany
    have hend := h.count hmany hkept hnil hseek'
    rw [hsections] at hend
    unfold finish World.closed at hend
    rw [List.take_nil, ite_self] at hend
    split at hend
    · exact absurd (Option.some.inj (Ending.returned.inj hend).2) hne
    · cases (Ending.returned.inj hend).2
  · intro hfew _ before sname behind hnames hbefore hs
    cases hp : before.foldlM (fun p s => passSection w args d s outbuf p)
        (firstProgress args.info vtbl) with
    | error halt => exact ⟨halt, rfl⟩
    | ok p =>
      obtain ⟨-, hend⟩ := h.met hfew hseek' before sname behind p hnames hbefore hs hp
      rw [keptNames_split hnames hbefore hs, runSections_append hp, hend] at hsections
      exact absurd hsections (nonUbiHalt_ending _ _ _ _)

theorem main_eq_runConfig {rand : BitVec 32} {opts : List Opt} {rest : List (List Byte)} {o : Options}
    {vtbl : List (List Byte)} (ho : parseOpt w.opens rand opts rest = .ok o)
    (hvid : o.vid_hdr_offs+UBI_VID_HDR_SIZE < 2^31)
    (hvtbl : ubigenCreateEmptyVtbl o.args.info = .ok vtbl) (hini : w.ini o.f_in = some d) :
    main w outbuf rand opts rest = runConfig w o.args d outbuf vtbl := by
  unfold main
  rw [ho]
  dsimp only
  rw [if_neg (not_le.mpr hvid)]
  unfold runArgs
  rw [hvtbl]
  dsimp only
  rw [hini]

/-- The runs with and without the sections that are not for UBI, from the options on. -/
theorem main_dropping_iff {rand : BitVec 32} {opts : List Opt} {rest : List (List Byte)} :
    main w.dropping outbuf rand opts rest = main w outbuf rand opts rest ↔
      ∀ o vtbl d, parseOpt w.opens rand opts rest = .ok o →
        o.vid_hdr_offs+UBI_VID_HDR_SIZE < 2^31 →
        ubigenCreateEmptyVtbl o.args.info = .ok vtbl → w.ini o.f_in = some d →
        SkipFits w o.args d outbuf vtbl := by
  have hopens : w.dropping.opens = w.opens := rfl
  unfold main
  rw [hopens]
  cases hparse : parseOpt w.opens rand opts rest with
  | error e =>
    obtain ⟨quit, o⟩ := e
    refine iff_of_true ?_ (fun o vtbl d ho => by cases ho)
    cases quit <;> rfl
  | ok o =>
    dsimp only
    by_cases hover : 2^31 ≤ o.vid_hdr_offs+UBI_VID_HDR_SIZE
    · rw [if_pos hover, if_pos hover]
      refine iff_of_true rfl ?_
      rintro _ vtbl d ⟨rfl⟩ hvid
      exact absurd hvid (not_lt.mpr hover)
    rw [if_neg hover, if_neg hover]
    unfold runArgs
    cases hvtbl : ubigenCreateEmptyVtbl o.args.info with
    | error e =>
      refine iff_of_true rfl ?_
      rintro _ vtbl d ⟨rfl⟩ _ hc
      rw [hvtbl] at hc
      cases hc
    | ok vtbl =>
      cases hini : w.ini o.f_in with
      | none =>
        have hnone : w.dropping.ini o.f_in = none := congrArg (Option.map dropNonUbi) hini
        rw [hnone]
        refine iff_of_true rfl ?_
        rintro _ vtbl d ⟨rfl⟩ _ _ hc
        rw [hini] at hc
        cases hc
      | some d =>
        have hsome : w.dropping.ini o.f_in = some (dropNonUbi d) :=
          congrArg (Option.map dropNonUbi) hini
        rw [hsome]
        dsimp only
        rw [runConfig_dropping_iff]
        constructor
        · rintro h _ _ _ ⟨rfl⟩ _ hv hd
          obtain rfl := Except.ok.inj (hvtbl.symm.trans hv)
          obtain rfl := Option.some.inj (hini.symm.trans hd)
          exact h
        · exact fun h => h o vtbl d rfl (not_le.mp hover) hvtbl hini

variable (w outbuf) in
/-- The condition on a run of `main`, for what it comes to behind the options. -/
def MainUnmet (rand : BitVec 32) (opts : List Opt) (rest : List (List Byte)) : Prop :=
  ∀ o vtbl d, parseOpt w.opens rand opts rest = .ok o → o.vid_hdr_offs+UBI_VID_HDR_SIZE < 2^31 →
    ubigenCreateEmptyVtbl o.args.info = .ok vtbl → w.ini o.f_in = some d →
    Unmet w o.args d outbuf vtbl

/-- Sections that are not for UBI are ignored where the loop comes to none of them and they do not
make the sections too many. Where the sections for UBI alone make an image, they are ignored in no
other run. -/
theorem non_ubi_ignored (w : World) (outbuf : ℕ → Byte) (rand : BitVec 32) (opts : List Opt)
    (rest : List (List Byte)) :
    (MainUnmet w outbuf rand opts rest →
      main w outbuf rand opts rest = main w.dropping outbuf rand opts rest) ∧
    ∀ image, image ≠ [] → main w.dropping outbuf rand opts rest = .returned 0 (some image) →
      (main w outbuf rand opts rest = main w.dropping outbuf rand opts rest ↔
        MainUnmet w outbuf rand opts rest) := by
  have hsame (h : MainUnmet w outbuf rand opts rest) :
      main w outbuf rand opts rest = main w.dropping outbuf rand opts rest :=
    (main_dropping_iff.mpr fun o vtbl d ho hvid hvtbl hini =>
      (h o vtbl d ho hvid hvtbl hini).skipFits).symm
  refine ⟨hsame, fun image hne himage => ⟨fun heq o vtbl d ho hvid hvtbl hini => ?_, hsame⟩⟩
  have hfits := main_dropping_iff.mp heq.symm o vtbl d ho hvid hvtbl hini
  have hdrop : w.dropping.ini o.f_in = some (dropNonUbi d) := by
    change (w.ini o.f_in).map dropNonUbi = _
    rw [hini]
    rfl
  refine hfits.unmet hne ?_
  rw [← himage]
  exact (main_eq_runConfig (w := w.dropping) ho hvid hvtbl hdrop).symm

/-- The configuration has one section, with another mode. -/
def otherIni : Dict := [(literal "n", none), (literal "n:mode", some (literal "other"))]

def otherWorld : World :=
  ⟨fun _ => true, fun _ => some otherIni, fun _ => none, fun _ => false, fun _ => 0, 0⟩

/-- The run over a configuration for a NAND flash. -/
theorem main_nand (w : World) {d : Dict} (hopens : w.opens = fun _ => true)
    (hini : w.ini (literal "cfg.ini") = some d) : ∃ vtbl,
    main w (fun _ => 0#8) 0#32 [.output (literal "ubi.img"), .pebSize (literal "128KiB"),
      .minIoSize (literal "2048")] [literal "cfg.ini"] =
      runConfig w (nandOptions 0).args d (fun _ => 0#8) vtbl := by
  obtain ⟨vtbl, hvtbl⟩ : ∃ vtbl, ubigenCreateEmptyVtbl (nandOptions 0).args.info = .ok vtbl := by
    rw [ubigenCreateEmptyVtbl, if_neg (by decide)]
    exact ⟨_, rfl⟩
  have hfile : (nandOptions 0).f_in = literal "cfg.ini" := rfl
  refine ⟨vtbl, ?_⟩
  unfold main
  rw [hopens, parseOpt_nand]
  dsimp only
  rw [if_neg (by decide)]
  unfold runArgs
  rw [hvtbl, hfile]
  dsimp only
  rw [hini]

/-- A section for UBI of a type that is none, and one with another mode behind it. -/
def badIni : Dict :=
  [(literal "v", none), (literal "v:mode", some (literal "ubi")),
    (literal "v:vol_type", some (literal "none")),
    (literal "n", none), (literal "n:mode", some (literal "other"))]

def badWorld : World := { otherWorld with ini := fun _ => some badIni }

/-- The run ends with the section for UBI, and both configurations are refused. -/
theorem non_ubi_ignored_bad :
    MainUnmet badWorld (fun _ => 0#8) 0#32 [.output (literal "ubi.img"), .pebSize (literal "128KiB"),
      .minIoSize (literal "2048")] [literal "cfg.ini"] ∧
    main badWorld (fun _ => 0#8) 0#32 [.output (literal "ubi.img"), .pebSize (literal "128KiB"),
      .minIoSize (literal "2048")] [literal "cfg.ini"] = .returned (-1) none ∧
    main badWorld (fun _ => 0#8) 0#32 [.output (literal "ubi.img"), .pebSize (literal "128KiB"),
      .minIoSize (literal "2048")] [literal "cfg.ini"] =
      main badWorld.dropping (fun _ => 0#8) 0#32 [.output (literal "ubi.img"),
        .pebSize (literal "128KiB"), .minIoSize (literal "2048")] [literal "cfg.ini"] := by
  have hnames : badIni.secnames = [literal "v"] ++ literal "n" :: [] := by decide +kernel
  have hubi : ∀ s ∈ [literal "v"], isNonUbi badIni s = false := by decide +kernel
  have hskip : isNonUbi badIni (literal "n") = true := by decide +kernel
  have hmode : badIni.getstring (keyOf (literal "v") "mode") = some (literal "ubi") := by decide +kernel
  obtain ⟨msg, htype⟩ : ∃ msg, readType badIni (literal "v") = .error (.errmsg msg) := by
    have hvalue : badIni.getstring (keyOf (literal "v") "vol_type") = some (literal "none") := by
      decide +kernel
    rw [readType, hvalue]
    dsimp only
    rw [if_neg (by decide), if_neg (by decide)]
    exact ⟨_, rfl⟩
  have hpass (args : Args) (p : Progress) :
      passSection badWorld args badIni (literal "v") (fun _ => 0#8) p = .error (.goto (-1) p.out) := by
    rw [passSection, readSectionIn, if_neg (by decide), hmode]
    dsimp only
    rw [if_neg (by decide), readUbiFieldsIn, htype]
    rfl
  have hunmet : MainUnmet badWorld (fun _ => 0#8) 0#32 [.output (literal "ubi.img"),
      .pebSize (literal "128KiB"), .minIoSize (literal "2048")] [literal "cfg.ini"] := by
    intro o vtbl d ho _ _ hini
    obtain rfl := Option.some.inj hini
    rw [show badWorld.opens = fun _ => true from rfl, parseOpt_nand] at ho
    obtain rfl := Except.ok.inj ho
    refine ⟨fun hmany => ?_, fun _ _ before sname behind hsplit hbefore hs => ?_⟩
    · rw [hnames] at hmany
      exact absurd hmany (by decide)
    · obtain ⟨rfl, -⟩ := first_unique (hnames.symm.trans hsplit) hubi hbefore hskip hs
      exact ⟨_, by rw [List.foldlM_cons, hpass]; rfl⟩
  obtain ⟨vtbl, hrun⟩ := @main_nand badWorld badIni rfl rfl
  refine ⟨hunmet, hrun.trans ?_, (non_ubi_ignored _ _ _ _ _).1 hunmet⟩
  rw [runConfig, hnames, if_neg (by decide), if_neg (by decide), if_neg (by decide), runSections,
    List.singleton_append, List.foldlM_cons, hpass]
  rfl

/-- The volume of the section that is skipped is added with the alignment zero. -/
theorem non_ubi_divides :
    main otherWorld (fun _ => 0#8) 0#32 [.output (literal "ubi.img"), .pebSize (literal "128KiB"),
      .minIoSize (literal "2048")] [literal "cfg.ini"] = .killed .fpe (some []) ∧
    main otherWorld.dropping (fun _ => 0#8) 0#32 [.output (literal "ubi.img"),
      .pebSize (literal "128KiB"), .minIoSize (literal "2048")] [literal "cfg.ini"] =
      .returned 0 none := by
  have hnames : otherIni.secnames = [literal "n"] := by decide +kernel
  have hskip : isNonUbi otherIni (literal "n") = true := by decide +kernel
  have hempty : (dropNonUbi otherIni).secnames = [] := by decide +kernel
  have hshort : ¬ 128 < (literal "n").length := by decide
  obtain ⟨v1, h1⟩ := @main_nand otherWorld otherIni rfl rfl
  obtain ⟨v2, h2⟩ := @main_nand otherWorld.dropping (dropNonUbi otherIni) rfl rfl
  refine ⟨h1.trans ?_, h2.trans ?_⟩
  · have hseek : otherWorld.fails .seek = false := rfl
    rw [runConfig, hnames, if_neg (by decide), if_neg (by decide), hseek, if_neg (by decide),
      runSections, List.foldlM_cons, passSection_nonUbi hskip (by decide), nonUbiHalt, if_neg hshort]
    rfl
  · rw [runConfig, if_pos hempty]
    rfl

end Ignored

end ChipTools.Ubi
