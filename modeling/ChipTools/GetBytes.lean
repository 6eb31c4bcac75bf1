import ChipTools.FexGrammar
import ChipTools.Ubinize

/-! Amounts of bytes in the options of the UBI tools and of `mkfs.ubifs`: a number of the C
library, with a unit behind it. -/
namespace ChipTools.Ubi
open Bytes CNumber

/-- `get_bytes` of `mkfs.ubifs`. Its `err_msg` returns -1. -/
def mkfsGetBytes (str : List Byte) : ℤ :=
  let bytes := toInt64 (strtoull str)
  let s := subject str
  if s.digits = [] ∨ bytes < 0 then -1
  else if s.endp = [] then bytes
  else match getMultiplier s.endp with
    | none => -1
    | some mult => toInt64 (bytes*mult)

theorem mkfsGetBytes_eq (str : List Byte) : mkfsGetBytes str = ubiutilsGetBytes str := rfl

section Texts

inductive SizeUnit
  | bytes
  | kib
  | mib
  | gib
deriving DecidableEq, Repr

def SizeUnit.mult : SizeUnit → ℤ
  | bytes => 1
  | kib => 1024
  | mib => 1024*1024
  | gib => 1024*1024*1024

def SizeUnit.text : SizeUnit → List Byte
  | bytes => []
  | kib => literal "KiB"
  | mib => literal "MiB"
  | gib => literal "GiB"

/-- An amount as it is written: white space, a number, blanks, and a unit. -/
structure SizeText where
  spaces : List Byte
  numeral : Fex.Numeral
  blanks : List Byte
  unit : SizeUnit
  spaces_ok : ∀ b ∈ spaces, isSpace b = true
  blanks_ok : ∀ b ∈ blanks, b = 0x20#8 ∨ b = 9#8
  blanks_unit : unit = .bytes → blanks = []

namespace SizeText

variable (t : SizeText)

def suffix : List Byte := t.blanks ++ t.unit.text

def text : List Byte := t.spaces ++ (t.numeral.text ++ t.suffix)

/-- The number of bytes that the text denotes. -/
def value : ℤ := t.numeral.value*t.unit.mult

end SizeText

/-- What a conversion is to do: it fails, or it gives the amount that the whole string denotes,
and the number in it is not negative. -/
def ExactBytes (getBytes : List Byte → ℤ) (str : List Byte) : Prop :=
  getBytes str = -1 ∨ ∃ t : SizeText, t.text = str ∧ 0 ≤ t.numeral.value ∧ getBytes str = t.value

/-- Numbers below `-2^63` that still have 64 bits do not occur, and no number of 63 bits leaves
them with its unit. -/
def BytesFit (str : List Byte) : Prop :=
  ∀ t : SizeText, t.text = str →
    ¬ (-2^64 < t.numeral.value ∧ t.numeral.value < -2^63) ∧
    ¬ (0 ≤ t.numeral.value ∧ t.numeral.value < 2^63 ∧ 2^63 ≤ t.value)

end Texts

section Conversion

variable {str : List Byte}

theorem SizeText.ends (t : SizeText) : Fex.Ends t.suffix := by
  intro b s h
  unfold SizeText.suffix at h
  cases hb : t.blanks with
  | nil =>
    rw [hb, List.nil_append] at h
    cases hu : t.unit with
    | bytes =>
      rw [hu] at h
      cases h
    | kib =>
      rw [hu] at h
      obtain ⟨rfl, -⟩ := List.cons.inj h
      decide
    | mib =>
      rw [hu] at h
      obtain ⟨rfl, -⟩ := List.cons.inj h
      decide
    | gib =>
      rw [hu] at h
      obtain ⟨rfl, -⟩ := List.cons.inj h
      decide
  | cons c cs =>
    rw [hb] at h
    obtain ⟨rfl, -⟩ := List.cons.inj h
    rcases t.blanks_ok c (by rw [hb]; exact List.mem_cons_self) with rfl | rfl
    · decide
    · decide

/-- What the library finds in an amount. -/
theorem SizeText.subject_text (t : SizeText) : subject t.text =
    ⟨t.numeral.sign = .minus, t.numeral.radix.base, t.numeral.body, t.suffix⟩ :=
  t.numeral.subject_before t.spaces_ok t.ends

theorem getMultiplier_text {blanks : List Byte} (hb : ∀ b ∈ blanks, b = 0x20#8 ∨ b = 9#8)
    {unit : SizeUnit} (hu : unit ≠ .bytes) : getMultiplier (blanks ++ unit.text) = some unit.mult := by
  have hdrop : ∀ b ∈ blanks, (b = 0x20#8 || b = 9#8) = true := by
    intro b hmem
    rw [Bool.or_eq_true, decide_eq_true_eq, decide_eq_true_eq]
    exact hb b hmem
  unfold getMultiplier
  rw [List.dropWhile_append_of_pos hdrop]
  cases unit with
  | bytes => exact absurd rfl hu
  | kib => rfl
  | mib => rfl
  | gib => rfl

/-- A suffix with a multiplier is blanks and a unit. -/
theorem getMultiplier_sound {s : List Byte} {mult : ℤ} (h : getMultiplier s = some mult) :
    ∃ (blanks : List Byte) (unit : SizeUnit), (∀ b ∈ blanks, b = 0x20#8 ∨ b = 9#8) ∧
      unit ≠ .bytes ∧ s = blanks ++ unit.text := by
  have hblanks : ∀ b ∈ s.takeWhile fun b => b = 0x20#8 || b = 9#8, b = 0x20#8 ∨ b = 9#8 := by
    intro b hb
    simpa using List.mem_takeWhile_imp hb
  have hsplit := List.takeWhile_append_dropWhile (p := fun b : Byte => b = 0x20#8 || b = 9#8) (l := s)
  unfold getMultiplier at h
  dsimp only at h
  split at h
  next hk => exact ⟨_, .kib, hblanks, by decide, by rw [SizeUnit.text, ← hk, hsplit]⟩
  next =>
    split at h
    next hm => exact ⟨_, .mib, hblanks, by decide, by rw [SizeUnit.text, ← hm, hsplit]⟩
    next =>
      split at h
      next hg => exact ⟨_, .gib, hblanks, by decide, by rw [SizeUnit.text, ← hg, hsplit]⟩
      next => cases h

/-- What the conversion of an amount leaves in a `long long`. -/
theorem SizeText.stored (t : SizeText) : toInt64 (strtoull t.text) =
    if -2^64 < t.numeral.value ∧ t.numeral.value < 2^64 then toInt64 t.numeral.value else -1 := by
  have hm : (subject t.text).magnitude = t.numeral.magnitude := by
    rw [t.subject_text]
    exact t.numeral.magnitude_body
  have hneg : (subject t.text).neg = decide (t.numeral.sign = .minus) := by rw [t.subject_text]
  unfold strtoull Fex.Numeral.value
  dsimp only
  rw [hm, hneg]
  generalize t.numeral.magnitude = m
  have hover : toInt64 ((2^64-1 : ℕ) : ℤ) = -1 := by decide
  -- of a number that has too many digits there is the largest value, which is -1 here
  by_cases hs : t.numeral.sign = .minus
  · simp only [hs, decide_true, if_true]
    by_cases hbig : 2^64 ≤ m
    · rw [if_pos hbig, if_neg (by omega), hover]
    · rw [if_neg hbig, if_pos (by omega)]
      apply toInt64_congr
      omega
  · simp only [hs, decide_false, if_false, Bool.false_eq_true]
    by_cases hbig : 2^64 ≤ m
    · rw [if_pos hbig, if_neg (by omega), hover]
    · rw [if_neg hbig, if_pos (by omega)]

/-- What the tools make of an amount. A number from `-2^63` to -1 is taken for negative, and one
below it is not. -/
theorem SizeText.getBytes_text (t : SizeText) : ubiutilsGetBytes t.text =
    if -2^64 < t.numeral.value ∧ t.numeral.value < -2^63 ∨
      0 ≤ t.numeral.value ∧ t.numeral.value < 2^63 then toInt64 t.value else -1 := by
  have hstored := t.stored
  have hrange := toInt64_range t.numeral.value
  unfold ubiutilsGetBytes SizeText.value
  dsimp only
  rw [hstored, t.subject_text]
  dsimp only
  by_cases hok : -2^64 < t.numeral.value ∧ t.numeral.value < -2^63 ∨
      0 ≤ t.numeral.value ∧ t.numeral.value < 2^63
  · rw [if_pos hok, if_pos (by omega : -2^64 < t.numeral.value ∧ t.numeral.value < 2^64), if_neg]
    · by_cases hu : t.unit = .bytes
      · have hsuffix : t.suffix = [] := by
          rw [SizeText.suffix, t.blanks_unit hu, hu]
          rfl
        rw [if_pos hsuffix, hu, SizeUnit.mult, mul_one]
      · have hmult := getMultiplier_text t.blanks_ok hu
        have hsuffix : t.suffix ≠ [] := by
          intro hnil
          rw [SizeText.suffix] at hnil
          rw [hnil] at hmult
          cases hmult
        rw [if_neg hsuffix, SizeText.suffix, hmult]
        apply toInt64_congr
        rw [Int.mul_emod, hrange.2.2, ← Int.mul_emod]
    · rintro (hnil | hneg)
      · exact t.numeral.body_ne_nil hnil
      · omega
  · rw [if_neg hok, if_pos]
    right
    split
    · omega
    · decide

/-- A string that is not refused is an amount. -/
theorem exists_sizeText (h : ubiutilsGetBytes str ≠ -1) : ∃ t : SizeText, t.text = str := by
  unfold ubiutilsGetBytes at h
  dsimp only at h
  split at h
  · exact absurd rfl h
  next hok =>
    rw [not_or] at hok
    obtain ⟨spaces, n, hspaces, hstr⟩ := Fex.exists_numeral_before hok.1
    split at h
    next hend =>
      refine ⟨⟨spaces, n, [], .bytes, hspaces, by simp, fun _ => rfl⟩, ?_⟩
      rw [hend] at hstr
      exact hstr.symm
    next =>
      split at h
      · exact absurd rfl h
      next mult hmult =>
        obtain ⟨blanks, unit, hblanks, hunit, hend⟩ := getMultiplier_sound hmult
        refine ⟨⟨spaces, n, blanks, unit, hspaces, hblanks, fun hu => absurd hu hunit⟩, ?_⟩
        rw [hend] at hstr
        exact hstr.symm

/-- A string is an amount in one way only. -/
theorem SizeText.unique {t t' : SizeText} (h : t.text = t'.text) :
    t.numeral.value = t'.numeral.value ∧ t.value = t'.value := by
  have hsub : subject t.text = subject t'.text := by rw [h]
  have hmag : t.numeral.magnitude = t'.numeral.magnitude := by
    calc t.numeral.magnitude = (subject t.text).magnitude := by
          rw [t.subject_text]
          exact t.numeral.magnitude_body.symm
      _ = (subject t'.text).magnitude := by rw [hsub]
      _ = t'.numeral.magnitude := by
          rw [t'.subject_text]
          exact t'.numeral.magnitude_body
  rw [t.subject_text, t'.subject_text] at hsub
  have hsign : (t.numeral.sign = .minus) ↔ (t'.numeral.sign = .minus) :=
    decide_eq_decide.mp (congrArg Subject.neg hsub)
  have hsuffix : t.suffix = t'.suffix := congrArg Subject.endp hsub
  have hvalue : t.numeral.value = t'.numeral.value := by
    unfold Fex.Numeral.value
    rw [hmag]
    exact if_congr hsign rfl rfl
  have hmult : t.unit.mult = t'.unit.mult := by
    have hread (t : SizeText) : t.suffix = [] ∧ t.unit.mult = 1 ∨
        getMultiplier t.suffix = some t.unit.mult := by
      by_cases hu : t.unit = .bytes
      · left
        rw [SizeText.suffix, t.blanks_unit hu, hu]
        exact ⟨rfl, rfl⟩
      · exact Or.inr (getMultiplier_text t.blanks_ok hu)
    have hnil : getMultiplier [] = none := rfl
    rcases hread t with ⟨h0, h1⟩ | h1 <;> rcases hread t' with ⟨h0', h1'⟩ | h1'
    · rw [h1, h1']
    · rw [← hsuffix, h0, hnil] at h1'
      cases h1'
    · rw [hsuffix, h0', hnil] at h1
      cases h1
    · rw [hsuffix, h1'] at h1
      exact (Option.some.inj h1).symm
  exact ⟨hvalue, by rw [SizeText.value, SizeText.value, hvalue, hmult]⟩

theorem SizeUnit.mult_cases (u : SizeUnit) : u.mult = 1 ∨ u.mult = 1024 ∨ u.mult = 1048576 ∨
    u.mult = 1073741824 := by cases u <;> simp [SizeUnit.mult]

/-- The conversion is exact where no number is below `-2^63`, and no product above `2^63`. -/
theorem exactBytes_iff (str : List Byte) : ExactBytes ubiutilsGetBytes str ↔ BytesFit str := by
  have hwrap (t : SizeText) : toInt64 t.value = -1 →
      t.unit.mult = 1 ∧ t.value%2^64 = (-1)%2^64 := by
    intro h
    have hr := (toInt64_range t.value).2.2
    rw [h] at hr
    refine ⟨?_, hr.symm⟩
    rw [SizeText.value] at hr
    rcases t.unit.mult_cases with hm | hm | hm | hm <;> rw [hm] at hr ⊢ <;> omega
  constructor
  · intro h t ht
    have hget := t.getBytes_text
    rw [ht] at hget
    have hexact (hv : ubiutilsGetBytes str ≠ -1) :
        0 ≤ t.numeral.value ∧ ubiutilsGetBytes str = t.value := by
      obtain ⟨t', ht', h0, hv'⟩ := h.resolve_left hv
      obtain ⟨h1, h2⟩ := SizeText.unique (ht.trans ht'.symm)
      rw [h1, h2]
      exact ⟨h0, hv'⟩
    constructor
    · -- a negative number that is taken for a positive one
      rintro ⟨hlow, hhigh⟩
      rw [if_pos (Or.inl ⟨hlow, hhigh⟩)] at hget
      have hne : ubiutilsGetBytes str ≠ -1 := by
        intro hm
        obtain ⟨h1, hr⟩ := hwrap t (hget.symm.trans hm)
        rw [SizeText.value, h1] at hr
        omega
      have := (hexact hne).1
      omega
    · -- a product that has lost its high bits
      rintro ⟨hlow, hhigh, hbig⟩
      rw [if_pos (Or.inr ⟨hlow, hhigh⟩)] at hget
      have hne : ubiutilsGetBytes str ≠ -1 := by
        intro hm
        obtain ⟨h1, hr⟩ := hwrap t (hget.symm.trans hm)
        rw [SizeText.value, h1] at hbig
        omega
      have h1 := (hexact hne).2
      have h2 := toInt64_range t.value
      omega
  · intro h
    by_cases hm : ubiutilsGetBytes str = -1
    · exact Or.inl hm
    · obtain ⟨t, ht⟩ := exists_sizeText hm
      obtain ⟨hlow, hbig⟩ := h t ht
      have hget := t.getBytes_text
      rw [ht] at hget
      have hok : 0 ≤ t.numeral.value ∧ t.numeral.value < 2^63 := by
        by_contra hno
        rw [if_neg (by rintro (hn | hp); exacts [hlow hn, hno hp])] at hget
        exact hm hget
      rw [if_pos (Or.inr hok)] at hget
      refine Or.inr ⟨t, ht, hok.1, ?_⟩
      rw [hget]
      apply toInt64_of_lt
      · rw [SizeText.value]
        rcases t.unit.mult_cases with hu | hu | hu | hu <;> rw [hu] <;> omega
      · by_contra hge
        exact hbig ⟨hok.1, hok.2, not_lt.mp hge⟩

end Conversion

section Exact

/-- Both conversions are exact just where `BytesFit` holds. -/
theorem get_bytes_exact_iff (str : List Byte) :
    (ExactBytes ubiutilsGetBytes str ∧ ExactBytes mkfsGetBytes str) ↔ BytesFit str := by
  have hsame : mkfsGetBytes = ubiutilsGetBytes := by
    ext str
    exact mkfsGetBytes_eq str
  rw [hsame, and_self]
  exact exactBytes_iff str

def hugeNumeral : Fex.Numeral :=
  ⟨.none, .dec, literal "17179869184", by decide +kernel, fun _ => ⟨0x31#8, _, rfl, by decide⟩, by simp⟩

/-- 2^64 bytes. -/
def hugeAmount : SizeText := ⟨[], hugeNumeral, [], .gib, by simp, by simp, fun _ => rfl⟩

theorem get_bytes_overflows : ubiutilsGetBytes (literal "17179869184GiB") = 0 ∧
    ubiutilsGetBytes (literal "-18446744073709551615") = 1 ∧
    ¬ ∀ str, ExactBytes ubiutilsGetBytes str ∧ ExactBytes mkfsGetBytes str := by
  refine ⟨by decide +kernel, by decide +kernel, ?_⟩
  intro h
  have hfit := (exactBytes_iff hugeAmount.text).mp (h hugeAmount.text).1
  exact (hfit hugeAmount rfl).2 (by decide +kernel)

end Exact

end ChipTools.Ubi
