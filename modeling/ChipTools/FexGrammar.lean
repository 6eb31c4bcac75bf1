import ChipTools.FexParse
import ChipTools.Loop
import Mathlib.Data.Int.ModEq

/-! The grammar of numbers and GPIOs in fex files, and what `script_parse_fex` makes of the values
that are in it and of those that are not. -/
namespace ChipTools.Fex
open Bytes CNumber Loop

section Subjects

/-- The base of a number, and its digits with what is behind them. -/
def radixOf (s : List Byte) : ℕ × List Byte :=
  match s with
  | 0x30#8 :: 0x78#8 :: b :: rest => if isDigit 16 b then (16, b :: rest) else (8, s)
  | 0x30#8 :: 0x58#8 :: b :: rest => if isDigit 16 b then (16, b :: rest) else (8, s)
  | 0x30#8 :: _ => (8, s)
  | _ => (10, s)

theorem subject_eq (str : List Byte) : subject str =
    (let s := signOf (str.dropWhile isSpace)
    let r := radixOf s.2
    let digits := r.2.takeWhile (isDigit r.1)
    ⟨s.1, r.1, digits, if digits = [] then str else r.2.dropWhile (isDigit r.1)⟩) := rfl

end Subjects

section Numerals

inductive Sign
  | none
  | plus
  | minus
deriving DecidableEq, Repr

def Sign.text : Sign → List Byte
  | none => []
  | plus => [0x2b#8]
  | minus => [0x2d#8]

inductive Radix
  | dec
  | oct
  | hex (upper : Bool)
deriving DecidableEq, Repr

def Radix.base : Radix → ℕ
  | dec => 10
  | oct => 8
  | hex _ => 16

def Radix.text : Radix → List Byte
  | dec => []
  | oct => [0x30#8]
  | hex true => [0x30#8, 0x58#8]
  | hex false => [0x30#8, 0x78#8]

/-- A number as it is written: decimal without a leading zero, octal behind a zero, or
hexadecimal behind `0x`. -/
structure Numeral where
  sign : Sign
  radix : Radix
  digits : List Byte
  digits_ok : ∀ b ∈ digits, isDigit radix.base b = true
  dec_ok : radix = .dec → ∃ b rest, digits = b :: rest ∧ b ≠ 0x30#8
  hex_ok : ∀ upper, radix = .hex upper → digits ≠ []

namespace Numeral

variable (n : Numeral)

def text : List Byte := n.sign.text ++ (n.radix.text ++ n.digits)

def magnitude : ℕ := n.digits.foldl (fun v b => v*n.radix.base+digitVal b) 0

/-- The integer that the text denotes. -/
def value : ℤ := if n.sign = .minus then -n.magnitude else n.magnitude

/-- The digits with the zero of an octal number. -/
def body : List Byte := if n.radix = .oct then 0x30#8 :: n.digits else n.digits

end Numeral

theorem decimal_facts : ∀ b : Byte, isDigit 10 b = true →
    b ≠ 0x2d#8 ∧ b ≠ 0x2b#8 ∧ isSpace b = false ∧ isDecimal b = true := by decide +kernel

theorem octal_facts : ∀ b : Byte, isDigit 8 b = true → b ≠ 0x78#8 ∧ b ≠ 0x58#8 := by decide +kernel

theorem signOf_eq {b : Byte} {s : List Byte} (h1 : b ≠ 0x2d#8) (h2 : b ≠ 0x2b#8) :
    signOf (b :: s) = (false, b :: s) := by
  unfold signOf
  split
  · simp_all
  · simp_all
  · rfl

/-- What is behind the sign starts with a decimal digit. -/
theorem Numeral.behind_sign (n : Numeral) :
    ∃ b s, n.radix.text ++ n.digits = b :: s ∧ isDigit 10 b = true := by
  cases hr : n.radix with
  | dec =>
    obtain ⟨b, rest, hd, -⟩ := n.dec_ok hr
    have hb := n.digits_ok b (by rw [hd]; exact List.mem_cons_self)
    rw [hr] at hb
    exact ⟨b, rest, hd, hb⟩
  | oct => exact ⟨_, _, rfl, by decide⟩
  | hex upper => cases upper <;> exact ⟨_, _, rfl, by decide⟩

/-- What may be behind the digits of a number: no digit, and no letter of a prefix. -/
def Ends (rest : List Byte) : Prop :=
  ∀ b s, rest = b :: s → isDigit 16 b = false ∧ b ≠ 0x78#8 ∧ b ≠ 0x58#8

theorem ends_nil : Ends [] := fun _ _ h => by cases h

theorem Numeral.radixOf_before (n : Numeral) {rest : List Byte} (hrest : Ends rest) :
    radixOf (n.radix.text ++ (n.digits ++ rest)) = (n.radix.base, n.body ++ rest) := by
  unfold Numeral.body
  cases hr : n.radix with
  | dec =>
    obtain ⟨b, s, hd, hne⟩ := n.dec_ok hr
    rw [hd]
    change radixOf (b :: (s ++ rest)) = (10, b :: (s ++ rest))
    unfold radixOf
    split
    · simp_all
    · simp_all
    · simp_all
    · rfl
  | oct =>
    have hdig := n.digits_ok
    rw [hr] at hdig
    -- neither a digit of the number nor what is behind it makes the zero a prefix
    have hhead : ∀ b s, n.digits ++ rest = b :: s → b ≠ 0x78#8 ∧ b ≠ 0x58#8 := by
      intro b s heq
      cases hd : n.digits with
      | nil =>
        rw [hd, List.nil_append] at heq
        exact (hrest b s heq).2
      | cons c cs =>
        rw [hd] at heq
        obtain ⟨rfl, -⟩ := List.cons.inj heq
        exact octal_facts c (hdig c (by rw [hd]; exact List.mem_cons_self))
    change radixOf (0x30#8 :: (n.digits ++ rest)) = (8, 0x30#8 :: (n.digits ++ rest))
    cases htail : n.digits ++ rest with
    | nil => rfl
    | cons b s =>
      obtain ⟨h1, h2⟩ := hhead b s htail
      unfold radixOf
      split
      · simp_all
      · simp_all
      · rfl
      · simp_all
  | hex upper =>
    have hdig := n.digits_ok
    rw [hr] at hdig
    cases hd : n.digits with
    | nil => exact absurd hd (n.hex_ok upper hr)
    | cons b s =>
      have hb : isDigit 16 b = true := hdig b (by rw [hd]; exact List.mem_cons_self)
      cases upper
      · change (if isDigit 16 b = true then (16, b :: (s ++ rest)) else _) = _
        rw [if_pos hb]
        rfl
      · change (if isDigit 16 b = true then (16, b :: (s ++ rest)) else _) = _
        rw [if_pos hb]
        rfl

theorem Numeral.body_digits (n : Numeral) : ∀ b ∈ n.body, isDigit n.radix.base b = true := by
  unfold Numeral.body
  split
  next hr =>
    intro b hb
    rcases List.mem_cons.mp hb with rfl | hb
    · rw [hr]
      decide
    · exact n.digits_ok b hb
  next => exact n.digits_ok

theorem Numeral.body_ne_nil (n : Numeral) : n.body ≠ [] := by
  unfold Numeral.body
  cases hr : n.radix with
  | dec =>
    obtain ⟨b, rest, hd, -⟩ := n.dec_ok hr
    rw [hd]
    exact List.cons_ne_nil _ _
  | oct => exact List.cons_ne_nil _ _
  | hex upper => exact n.hex_ok upper hr

theorem isDigit_mono {base : ℕ} (h : base ≤ 16) {b : Byte} (hb : isDigit 16 b = false) :
    isDigit base b = false := by
  unfold isDigit at *
  rw [decide_eq_false_iff_not] at *
  omega

theorem Radix.base_le (r : Radix) : r.base ≤ 16 := by
  cases r with
  | dec => decide
  | oct => decide
  | hex upper => exact le_refl 16

/-- The library finds the number behind white space, and stops where it ends. -/
theorem Numeral.subject_before (n : Numeral) {spaces rest : List Byte}
    (hspaces : ∀ b ∈ spaces, isSpace b = true) (hrest : Ends rest) :
    subject (spaces ++ (n.text ++ rest)) = ⟨n.sign = .minus, n.radix.base, n.body, rest⟩ := by
  obtain ⟨b, s, hs, hb⟩ := n.behind_sign
  obtain ⟨h1, h2, hspace, -⟩ := decimal_facts b hb
  have hbehind : n.radix.text ++ (n.digits ++ rest) = b :: (s ++ rest) := by
    rw [← List.append_assoc, hs]
    rfl
  have hsign : signOf ((spaces ++ (n.text ++ rest)).dropWhile isSpace) =
      (decide (n.sign = .minus), n.radix.text ++ (n.digits ++ rest)) := by
    rw [List.dropWhile_append_of_pos hspaces, Numeral.text, List.append_assoc, List.append_assoc,
      hbehind]
    cases n.sign with
    | none =>
      change signOf ((b :: (s ++ rest)).dropWhile isSpace) = _
      rw [List.dropWhile_cons_of_neg (by rw [hspace]; decide)]
      exact signOf_eq h1 h2
    | plus => rfl
    | minus => rfl
  have htake : (n.body ++ rest).takeWhile (isDigit n.radix.base) = n.body ∧
      (n.body ++ rest).dropWhile (isDigit n.radix.base) = rest := by
    rw [List.takeWhile_append_of_pos n.body_digits, List.dropWhile_append_of_pos n.body_digits]
    cases rest with
    | nil => exact ⟨List.append_nil _, rfl⟩
    | cons c cs =>
      have hc := isDigit_mono n.radix.base_le (hrest c cs rfl).1
      rw [List.takeWhile_cons_of_neg (by rw [hc]; decide),
        List.dropWhile_cons_of_neg (by rw [hc]; decide)]
      exact ⟨List.append_nil _, rfl⟩
  rw [subject_eq]
  simp only [hsign, n.radixOf_before hrest, htake, if_neg n.body_ne_nil]

/-- The library finds the whole number. -/
theorem Numeral.subject_text (n : Numeral) :
    subject n.text = ⟨n.sign = .minus, n.radix.base, n.body, []⟩ := by
  have h := @Numeral.subject_before n [] [] (fun _ hb => absurd hb List.not_mem_nil) ends_nil
  rwa [List.nil_append, List.append_nil] at h

theorem Numeral.magnitude_body (n : Numeral) :
    (Subject.mk (n.sign = .minus) n.radix.base n.body []).magnitude = n.magnitude := by
  unfold Subject.magnitude Numeral.magnitude Numeral.body
  split
  next hr =>
    rw [List.foldl_cons]
    congr 1
    rw [hr]
    rfl
  next => rfl

end Numerals

section Numbers

theorem decimal_head : ∀ b : Byte, isDecimal b = true →
    isDigit 10 b = true ∧ b ≠ 0x22#8 ∧ b ≠ 0x70#8 := by decide +kernel

/-- The digits in the base that the prefix tells make a numeral. -/
theorem exists_numeral (sign : Sign) {u : List Byte}
    (hu : (radixOf u).2.takeWhile (isDigit (radixOf u).1) ≠ []) :
    ∃ n : Numeral, n.sign = sign ∧
      n.radix.text ++ (n.digits ++ (radixOf u).2.dropWhile (isDigit (radixOf u).1)) = u := by
  have hdigits (p : Byte → Bool) (s : List Byte) : ∀ c ∈ s.takeWhile p, p c = true := by
    intro c hc
    exact List.mem_takeWhile_imp hc
  -- a zero by itself, with the octal digits behind it
  have hoct (s : List Byte) : ∃ n : Numeral, n.sign = sign ∧
      n.radix.text ++ (n.digits ++ (0x30#8 :: s).dropWhile (isDigit 8)) = 0x30#8 :: s := by
    refine ⟨⟨sign, .oct, s.takeWhile (isDigit 8), hdigits _ _, by simp, by simp⟩, rfl, ?_⟩
    rw [List.dropWhile_cons_of_pos (by decide), List.takeWhile_append_dropWhile]
    rfl
  unfold radixOf at hu ⊢
  split at hu
  next c rest =>
    split at hu
    next hc =>
      rw [if_pos hc]
      refine ⟨⟨sign, .hex false, (c :: rest).takeWhile (isDigit 16), hdigits _ _, by simp,
        fun _ _ => hu⟩, rfl, ?_⟩
      dsimp only
      rw [List.takeWhile_append_dropWhile]
      rfl
    next hc =>
      rw [if_neg hc]
      exact hoct _
  next c rest =>
    split at hu
    next hc =>
      rw [if_pos hc]
      refine ⟨⟨sign, .hex true, (c :: rest).takeWhile (isDigit 16), hdigits _ _, by simp,
        fun _ _ => hu⟩, rfl, ?_⟩
      dsimp only
      rw [List.takeWhile_append_dropWhile]
      rfl
    next hc =>
      rw [if_neg hc]
      exact hoct _
  next rest h1 h2 => exact hoct _
  next h1 h2 h3 =>
    have hdec : ∃ b rest, u.takeWhile (isDigit 10) = b :: rest ∧ b ≠ 0x30#8 := by
      obtain ⟨b, s, rfl⟩ := List.exists_cons_of_ne_nil (l := u) (by rintro rfl; exact hu rfl)
      have hb : isDigit 10 b = true := by
        by_contra hb
        exact hu (List.takeWhile_cons_of_neg hb)
      refine ⟨b, s.takeWhile (isDigit 10), List.takeWhile_cons_of_pos hb, ?_⟩
      rintro rfl
      exact h3 s rfl
    refine ⟨⟨sign, .dec, u.takeWhile (isDigit 10), hdigits _ _, fun _ => hdec, by simp⟩, rfl, ?_⟩
    dsimp only
    rw [List.takeWhile_append_dropWhile]
    rfl

theorem signOf_split (s : List Byte) :
    ∃ sign : Sign, s = sign.text ++ (signOf s).2 ∧ (signOf s).1 = decide (sign = .minus) := by
  unfold signOf
  split
  · exact ⟨.minus, rfl, rfl⟩
  · exact ⟨.plus, rfl, rfl⟩
  · exact ⟨.none, rfl, rfl⟩

/-- Where the library finds digits, it has read a number behind white space. -/
theorem exists_numeral_before {str : List Byte} (hne : (subject str).digits ≠ []) :
    ∃ (spaces : List Byte) (n : Numeral), (∀ b ∈ spaces, isSpace b = true) ∧
      str = spaces ++ (n.text ++ (subject str).endp) := by
  rw [subject_eq] at hne ⊢
  dsimp only at hne ⊢
  obtain ⟨sign, hs, -⟩ := signOf_split (str.dropWhile isSpace)
  obtain ⟨n, hn, htext⟩ := exists_numeral sign hne
  refine ⟨str.takeWhile isSpace, n, fun b hb => List.mem_takeWhile_imp hb, ?_⟩
  rw [if_neg hne, Numeral.text, hn, List.append_assoc, List.append_assoc, htext, ← hs,
    List.takeWhile_append_dropWhile]

/-- A text that the library reads to its end is a numeral. -/
theorem exists_numeral_of_endp {t : List Byte} (hstart : startsNumber t = true)
    (hend : (subject t).endp = []) : ∃ n : Numeral, n.sign ≠ .plus ∧ t = n.text := by
  -- it starts with a minus or a digit, so there is no white space and no plus
  have hhead : ∃ b s, t = b :: s ∧ isSpace b = false ∧ b ≠ 0x2b#8 := by
    unfold startsNumber at hstart
    split at hstart
    next b s => exact ⟨_, _, rfl, by decide, by decide⟩
    next b s _ =>
      obtain ⟨-, h2, hspace, -⟩ := decimal_facts b (decimal_head b hstart).1
      exact ⟨b, s, rfl, hspace, h2⟩
    next => cases hstart
  obtain ⟨b, s, rfl, hspace, hplus⟩ := hhead
  have hdig : (subject (b :: s)).digits ≠ [] := by
    intro hnil
    rw [subject_eq] at hend hnil
    dsimp only at hend hnil
    rw [if_pos hnil] at hend
    cases hend
  obtain ⟨spaces, n, hsp, ht⟩ := exists_numeral_before hdig
  rw [hend, List.append_nil] at ht
  cases spaces with
  | nil =>
    refine ⟨n, ?_, ht⟩
    intro hn
    rw [List.nil_append, Numeral.text, hn] at ht
    exact hplus (List.cons.inj ht).1
  | cons c cs =>
    obtain ⟨rfl, -⟩ := List.cons.inj ht
    rw [hsp _ List.mem_cons_self] at hspace
    cases hspace

/-- What the library makes of an integer. -/
def saturated (v : ℤ) : ℤ := max (-2^63) (min (2^63-1) v)

theorem Numeral.strtoll_text (n : Numeral) : strtoll n.text = saturated n.value := by
  have hmag := n.magnitude_body
  unfold strtoll saturated Numeral.value
  rw [n.subject_text]
  simp only [decide_eq_true_eq]
  split
  next hneg =>
    rw [show (Subject.mk (decide (n.sign = .minus)) n.radix.base n.body []).magnitude =
      n.magnitude from hmag]
    omega
  next hneg =>
    rw [show (Subject.mk (decide (n.sign = .minus)) n.radix.base n.body []).magnitude =
      n.magnitude from hmag]
    omega

/-- A numeral without a plus sign is taken as a number. -/
theorem parseValue_numeral (pe : ℕ) (n : Numeral) (hplus : n.sign ≠ .plus) :
    parseValue pe n.text = if 2^32-1 < saturated n.value then
      .error (.numberRange (saturated n.value)) else .ok (.single (.ofInt 32 (saturated n.value))) := by
  obtain ⟨b, s, hs, hb⟩ := n.behind_sign
  obtain ⟨h1, h2, hspace, hdec⟩ := decimal_facts b hb
  obtain ⟨-, hquote, hport⟩ := decimal_head b hdec
  have hends : (subject n.text).endp = [] := by rw [n.subject_text]
  have hstart : n.text ≠ [] ∧ isQuoted n.text = false ∧
      (literal "port:").isPrefixOf n.text = false ∧ startsNumber n.text = true := by
    unfold Numeral.text
    rw [hs]
    cases hsg : n.sign with
    | none =>
      refine ⟨List.cons_ne_nil _ _, ?_, ?_, ?_⟩
      · simp [isQuoted, hquote, Sign.text]
      · simp [literal, List.isPrefixOf, hport.symm, Sign.text]
      · change startsNumber (b :: s) = true
        unfold startsNumber
        split
        next heq => exact absurd (List.cons.inj heq).1 h1
        next heq =>
          obtain ⟨rfl, -⟩ := List.cons.inj heq
          exact hdec
        next heq => cases heq
    | plus => exact absurd hsg hplus
    | minus =>
      refine ⟨List.cons_ne_nil _ _, ?_, ?_, ?_⟩
      · simp [isQuoted, Sign.text]
      · rfl
      · exact hdec
  obtain ⟨hne, hq, hp, hn⟩ := hstart
  simp only [parseValue, if_neg hne, hq, hp, hn, Bool.false_eq_true, if_false, if_true, numberValue,
    hends, ne_eq, not_true_eq_false, n.strtoll_text]

/-- With a plus sign it is taken as a string. -/
theorem parseValue_plus (pe : ℕ) (n : Numeral) (hplus : n.sign = .plus) :
    parseValue pe n.text = .ok (.string n.text) := by
  have htext : n.text = 0x2b#8 :: (n.radix.text ++ n.digits) := by rw [Numeral.text, hplus]; rfl
  have hq : isQuoted n.text = false := by
    rw [htext]
    simp [isQuoted]
  have hp : (literal "port:").isPrefixOf n.text = false := by
    rw [htext]
    rfl
  have hs : startsNumber n.text = false := by
    rw [htext]
    rfl
  simp only [parseValue, if_neg (by rw [htext]; exact List.cons_ne_nil _ _ : n.text ≠ []), hq, hp, hs,
    Bool.false_eq_true, if_false]

theorem toNat_ofInt_modEq (v : ℤ) : ((BitVec.ofInt 32 v).toNat : ℤ) ≡ v [ZMOD 2^32] := by
  rw [BitVec.toNat_ofInt, Int.toNat_of_nonneg (Int.emod_nonneg _ (by decide))]
  exact Int.mod_modEq v _

theorem saturated_of_mem {v : ℤ} (h1 : -2^31 ≤ v) (h2 : v ≤ 2^32-1) : saturated v = v := by
  unfold saturated
  omega

/-- The value of a numeral is not altered: what is stored is in range and the same modulo `2^32`,
and what is out of range is refused. -/
structure Unaltered (pe : ℕ) (n : Numeral) : Prop where
  stored : ∀ w, parseValue pe n.text = .ok (.single w) →
    -2^31 ≤ n.value ∧ n.value ≤ 2^32-1 ∧ (w.toNat : ℤ) ≡ n.value [ZMOD 2^32]
  refused : n.value < -2^31 ∨ 2^32-1 < n.value → ∃ e, parseValue pe n.text = .error e

theorem unaltered_of_le (pe : ℕ) {n : Numeral} (h : -2^31 ≤ n.value)
    (hplus : n.sign = .plus → n.value ≤ 2^32-1) : Unaltered pe n := by
  by_cases hp : n.sign = .plus
  · have hle := hplus hp
    refine ⟨fun w hw => ?_, fun hout => by omega⟩
    rw [parseValue_plus pe n hp] at hw
    cases hw
  · have hparse := parseValue_numeral pe n hp
    by_cases hle : n.value ≤ 2^32-1
    · rw [saturated_of_mem h hle, if_neg (by omega)] at hparse
      refine ⟨fun w hw => ⟨h, hle, ?_⟩, fun hout => by omega⟩
      rw [hparse] at hw
      cases hw
      exact toNat_ofInt_modEq _
    · have hbig : 2^32-1 < saturated n.value := by
        unfold saturated
        omega
      rw [if_pos hbig] at hparse
      refine ⟨fun w hw => ?_, fun _ => ⟨_, hparse⟩⟩
      rw [hparse] at hw
      cases hw

/-- A negative number out of range is stored, and one with a plus sign becomes a string. -/
theorem le_of_unaltered {pe : ℕ} {n : Numeral} (h : Unaltered pe n) :
    -2^31 ≤ n.value ∧ (n.sign = .plus → n.value ≤ 2^32-1) := by
  constructor
  · by_contra hlt
    obtain ⟨e, he⟩ := h.refused (.inl (not_le.mp hlt))
    have hp : n.sign ≠ .plus := by
      intro hp
      rw [parseValue_plus pe n hp] at he
      cases he
    have hsmall : ¬2^32-1 < saturated n.value := by
      unfold saturated
      omega
    rw [parseValue_numeral pe n hp, if_neg hsmall] at he
    cases he
  · intro hp
    by_contra hlt
    obtain ⟨e, he⟩ := h.refused (.inr (not_le.mp hlt))
    rw [parseValue_plus pe n hp] at he
    cases he

theorem gpioPin_ne_single {pe port : ℕ} {w : BitVec 32} (p : List Byte) :
    gpioPin pe port p ≠ .ok (.single w) := by
  intro h
  unfold gpioPin at h
  dsimp only at h
  split at h
  next => cases h
  next =>
    split at h
    next => cases h
    next =>
      obtain ⟨r, -, h⟩ := bind_eq_ok h
      split at h <;> cases h

theorem gpioValue_ne_single {pe : ℕ} {w : BitVec 32} (p : List Byte) :
    gpioValue pe p ≠ .ok (.single w) := by
  intro h
  unfold gpioValue at h
  split at h
  next =>
    split at h
    next => cases h
    next => exact gpioPin_ne_single _ h
  next =>
    split at h
    next => exact gpioPin_ne_single _ h
    next => cases h

/-- Numbers are numerals, and keep their value just when it is not below the range, nor above it
behind a plus sign. -/
theorem numbers_unaltered_iff (pe : ℕ) :
    (∀ t w, parseValue pe t = .ok (.single w) → ∃ n : Numeral, n.sign ≠ .plus ∧ t = n.text) ∧
      ∀ n : Numeral, Unaltered pe n ↔
        -2^31 ≤ n.value ∧ (n.sign = .plus → n.value ≤ 2^32-1) := by
  refine ⟨fun t w h => ?_, fun n => ⟨le_of_unaltered, fun h => unaltered_of_le pe h.1 h.2⟩⟩
  unfold parseValue at h
  split at h
  next => cases h
  next =>
    split at h
    next => cases h
    next =>
      split at h
      next => exact absurd h (gpioValue_ne_single _)
      next =>
        split at h
        next hstart =>
          unfold numberValue at h
          dsimp only at h
          split at h
          next => cases h
          next hend => exact exists_numeral_of_endp hstart (not_not.mp hend)
        next => cases h

/-- `-9223372036854775809`. -/
def farBelow : Numeral where
  sign := .minus
  radix := .dec
  digits := literal "9223372036854775809"
  digits_ok := by decide
  dec_ok _ := ⟨0x39#8, literal "223372036854775809", by decide, by decide⟩
  hex_ok _ h := by cases h

/-- It is stored as 0. -/
theorem farBelow_altered : parseValue 0 (literal "-9223372036854775809") = .ok (.single 0#32) ∧
    farBelow.text = literal "-9223372036854775809" ∧ farBelow.value = -9223372036854775809 ∧
    ¬Unaltered 0 farBelow := by
  have hvalue : farBelow.value = -9223372036854775809 := by decide +kernel
  refine ⟨by decide +kernel, by decide +kernel, hvalue, fun h => ?_⟩
  have := (le_of_unaltered h).1
  rw [hvalue] at this
  exact absurd this (by decide)

end Numbers

section Pins

/-- A decimal number as `strtol` takes it. -/
structure LooseNum where
  spaces : List Byte
  sign : Sign
  digits : List Byte
  spaces_ok : ∀ b ∈ spaces, isSpace b = true
  digits_ok : ∀ b ∈ digits, isDigit 10 b = true
  ne_nil : digits ≠ []

namespace LooseNum

variable (n : LooseNum)

def text : List Byte := n.spaces ++ (n.sign.text ++ n.digits)

def magnitude : ℕ := n.digits.foldl (fun v b => v*10+digitVal b) 0

def value : ℤ := if n.sign = .minus then -n.magnitude else n.magnitude

/-- Only digits. -/
def Plain : Prop := n.spaces = [] ∧ n.sign = .none

end LooseNum

/-- What follows a number does not start with a digit. -/
def Stops (rest : List Byte) : Prop := ∀ b s, rest = b :: s → isDigit 10 b = false

theorem takeWhile_stops {digits rest : List Byte} (h : ∀ b ∈ digits, isDigit 10 b = true)
    (hrest : Stops rest) : (digits ++ rest).takeWhile (isDigit 10) = digits ∧
      (digits ++ rest).dropWhile (isDigit 10) = rest := by
  rw [List.takeWhile_append_of_pos h, List.dropWhile_append_of_pos h]
  cases rest with
  | nil => exact ⟨List.append_nil _, rfl⟩
  | cons b s =>
    have hb := hrest b s rfl
    constructor
    · rw [List.takeWhile_cons_of_neg (by rw [hb]; decide), List.append_nil]
    · rw [List.dropWhile_cons_of_neg (by rw [hb]; decide)]

theorem LooseNum.subjectDec_text (n : LooseNum) {rest : List Byte} (hrest : Stops rest) :
    subjectDec (n.text ++ rest) = ⟨n.sign = .minus, 10, n.digits, rest⟩ := by
  obtain ⟨b, s, hd⟩ := List.exists_cons_of_ne_nil n.ne_nil
  obtain ⟨h1, h2, hspace, -⟩ := decimal_facts b (n.digits_ok b (by rw [hd]; exact List.mem_cons_self))
  have hsign : signOf ((n.text ++ rest).dropWhile isSpace) =
      (decide (n.sign = .minus), n.digits ++ rest) := by
    unfold LooseNum.text
    rw [List.append_assoc, List.dropWhile_append_of_pos n.spaces_ok, List.append_assoc]
    cases n.sign with
    | none =>
      rw [hd]
      change signOf ((b :: (s ++ rest)).dropWhile isSpace) = _
      rw [List.dropWhile_cons_of_neg (by rw [hspace]; decide)]
      exact signOf_eq h1 h2
    | plus => rfl
    | minus => rfl
  obtain ⟨htake, hdrop⟩ := takeWhile_stops n.digits_ok hrest
  unfold subjectDec
  simp only [hsign, htake, hdrop, if_neg n.ne_nil]

theorem LooseNum.strtolDec_text (n : LooseNum) {rest : List Byte} (hrest : Stops rest) :
    strtolDec (n.text ++ rest) = saturated n.value := by
  have hmag : (Subject.mk (decide (n.sign = .minus)) 10 n.digits rest).magnitude = n.magnitude := rfl
  unfold strtolDec saturated LooseNum.value
  rw [n.subjectDec_text hrest]
  simp only [decide_eq_true_eq, hmag]
  split <;> omega

/-- A text that `strtol` takes something of starts with a number. -/
theorem exists_looseNum {q : List Byte} (h : (subjectDec q).endp ≠ q) :
    ∃ n : LooseNum, q = n.text ++ (subjectDec q).endp ∧ Stops (subjectDec q).endp := by
  have hq : ∃ (spaces : List Byte) (sign : Sign) (u : List Byte),
      (∀ b ∈ spaces, isSpace b = true) ∧ q = spaces ++ (sign.text ++ u) ∧
      signOf (q.dropWhile isSpace) = (decide (sign = .minus), u) := by
    refine ⟨q.takeWhile isSpace, ?_⟩
    have hsplit := List.takeWhile_append_dropWhile (p := isSpace) (l := q)
    have hspaces : ∀ b ∈ q.takeWhile isSpace, isSpace b = true := fun b hb =>
      List.mem_takeWhile_imp hb
    cases hu : q.dropWhile isSpace with
    | nil =>
      rw [hu] at hsplit
      exact ⟨.none, [], hspaces, hsplit.symm, rfl⟩
    | cons b u =>
      rw [hu] at hsplit
      by_cases hm : b = 0x2d#8
      · subst hm
        exact ⟨.minus, u, hspaces, hsplit.symm, rfl⟩
      by_cases hp : b = 0x2b#8
      · subst hp
        exact ⟨.plus, u, hspaces, hsplit.symm, rfl⟩
      exact ⟨.none, b :: u, hspaces, hsplit.symm, signOf_eq hm hp⟩
  obtain ⟨spaces, sign, u, hspaces, hq, hsign⟩ := hq
  unfold subjectDec at h ⊢
  simp only [hsign] at h ⊢
  split at h
  next => exact absurd rfl h
  next hne =>
    refine ⟨⟨spaces, sign, u.takeWhile (isDigit 10), hspaces, fun b hb => List.mem_takeWhile_imp hb,
      hne⟩, ?_, ?_⟩
    · rw [if_neg hne, LooseNum.text, List.append_assoc, List.append_assoc,
        List.takeWhile_append_dropWhile]
      exact hq
    · intro b s hb
      rw [if_neg hne] at hb
      have := List.head?_dropWhile_not (isDigit 10) u
      rw [hb] at this
      simpa using this

end Pins

section Groups

/-- A group behind a pin. -/
inductive Group
  | default
  | value (n : LooseNum)

namespace Group

def text : Group → List Byte
  | default => literal "<default>"
  | value n => 0x3c#8 :: (n.text ++ [0x3e#8])

def val : Group → ℤ
  | default => -1
  | value n => n.value

def Ok : Group → Prop
  | default => True
  | value n => 0 ≤ n.value ∧ n.value ≤ 2^31-1

def Plain : Group → Prop
  | default => True
  | value n => n.Plain

end Group

/-- A group that is cut off at the end of the line. -/
inductive Cut
  | none
  | bracket
  | number (n : LooseNum)

namespace Cut

def text : Cut → List Byte
  | none => []
  | bracket => [0x3c#8]
  | number n => 0x3c#8 :: n.text

def Ok : Cut → Prop
  | number n => 0 ≤ n.value ∧ n.value ≤ 2^31-1
  | _ => True

end Cut

theorem stops_nil : Stops [] := fun _ _ h => by cases h

theorem stops_cons {b : Byte} {s : List Byte} (h : isDigit 10 b = false) : Stops (b :: s) := by
  intro c t heq
  obtain ⟨rfl, -⟩ := List.cons.inj heq
  exact h

theorem looseNum_head (n : LooseNum) : ∃ b s, n.text = b :: s ∧ b ≠ 0x64#8 := by
  have hspace : ∀ b : Byte, isSpace b = true → b ≠ 0x64#8 := by decide +kernel
  have hdigit : ∀ b : Byte, isDigit 10 b = true → b ≠ 0x64#8 := by decide +kernel
  unfold LooseNum.text
  cases hs : n.spaces with
  | cons b s => exact ⟨b, _, rfl, hspace b (n.spaces_ok b (by rw [hs]; exact List.mem_cons_self))⟩
  | nil =>
    cases n.sign with
    | none =>
      obtain ⟨b, s, hd⟩ := List.exists_cons_of_ne_nil n.ne_nil
      exact ⟨b, s, hd, hdigit b (n.digits_ok b (by rw [hd]; exact List.mem_cons_self))⟩
    | plus => exact ⟨_, _, rfl, by decide⟩
    | minus => exact ⟨_, _, rfl, by decide⟩

/-- A number behind a bracket is not `<default>`. -/
theorem not_default (n : LooseNum) (rest : List Byte) :
    (literal "<default>").isPrefixOf (0x3c#8 :: (n.text ++ rest)) = false := by
  obtain ⟨b, s, hb, hne⟩ := looseNum_head n
  have hlit : literal "<default>" = 0x3c#8 :: 0x64#8 :: literal "efault>" := by decide
  rw [Bool.eq_false_iff, Ne, List.isPrefixOf_iff_prefix, hlit, hb]
  rintro ⟨t, ht⟩
  injection ht with _ ht
  injection ht with ht _
  exact hne ht.symm

variable {pe : ℕ}

/-- The number of a group. -/
theorem gpioGroups_number (k : ℕ) (n : LooseNum) {rest : List Byte}
    {r : Except FexError (List ℤ × List Byte)}
    (hr : (match rest with
      | 0x3e#8 :: rest => do
        let r ← gpioGroups pe k rest
        .ok (n.value :: r.1, r.2)
      | _ => .ok ([], rest)) = r)
    (hok : 0 ≤ n.value ∧ n.value ≤ 2^31-1) (hrest : Stops rest) :
    gpioGroups pe (k+1) (0x3c#8 :: (n.text ++ rest)) = r := by
  have hne : rest ≠ n.text ++ rest := by
    intro h
    obtain ⟨b, s, hb, -⟩ := looseNum_head n
    have := congrArg List.length h
    rw [List.length_append, hb, List.length_cons] at this
    omega
  have hval : saturated n.value = n.value := saturated_of_mem (by omega) (by omega)
  rw [gpioGroups, not_default, if_neg (by decide)]
  simp only [n.subjectDec_text hrest, n.strtolDec_text hrest, if_neg hne, hval]
  rw [if_neg (by omega)]
  exact hr

theorem gpioGroups_default (k : ℕ) (rest : List Byte) :
    gpioGroups pe (k+1) (literal "<default>" ++ rest) =
      (gpioGroups pe k rest >>= fun r => .ok (-1 :: r.1, r.2)) := by
  have hpre : (literal "<default>").isPrefixOf (literal "<default>" ++ rest) = true := by
    rw [List.isPrefixOf_iff_prefix]
    exact List.prefix_append _ _
  conv_lhs => unfold gpioGroups
  rw [if_pos hpre, List.drop_left' (by decide)]

/-- Groups are read, with a cut off one ignored. -/
theorem gpioGroups_text (groups : List Group) (hgroups : ∀ g ∈ groups, g.Ok) (cut : Cut)
    (hcut : cut.Ok) (k : ℕ) (hk : groups.length ≤ k) (hlast : cut ≠ .none → groups.length < k) :
    gpioGroups pe k (groups.flatMap Group.text ++ cut.text) = .ok (groups.map Group.val, []) := by
  induction groups generalizing k with
  | nil =>
    cases k with
    | zero =>
      cases cut with
      | none => rfl
      | bracket => exact absurd (hlast (by simp)) (by simp)
      | number n => exact absurd (hlast (by simp)) (by simp)
    | succ k =>
      cases cut with
      | none => rfl
      | bracket => rfl
      | number n =>
        have h := @gpioGroups_number pe k n _ _ rfl hcut stops_nil
        rw [List.append_nil] at h
        exact h
  | cons g groups ih =>
    cases k with
    | zero => simp at hk
    | succ k =>
      have hrec := ih (fun g' hg => hgroups g' (List.mem_cons_of_mem _ hg)) k
        (by rw [List.length_cons] at hk; omega)
        (fun h => by have := hlast h; rw [List.length_cons] at this; omega)
      rw [List.flatMap_cons, List.append_assoc]
      cases g with
      | default =>
        change gpioGroups pe (k+1) (literal "<default>" ++ _) = _
        rw [gpioGroups_default, hrec]
        rfl
      | value n =>
        have hok := hgroups (.value n) List.mem_cons_self
        change gpioGroups pe (k+1) (0x3c#8 :: ((n.text ++ [0x3e#8]) ++ _)) = _
        rw [List.append_assoc]
        refine gpioGroups_number k n ?_ hok (stops_cons (by decide))
        change (gpioGroups pe k (groups.flatMap Group.text ++ cut.text) >>= _) = _
        rw [hrec]
        rfl

end Groups

section Gpios

variable {pe : ℕ}

/-- Everything that is read is a list of groups, the last one perhaps cut off. -/
theorem gpioGroups_sound {k : ℕ} {p : List Byte} {vs : List ℤ}
    (h : gpioGroups pe k p = .ok (vs, [])) :
    ∃ (groups : List Group) (cut : Cut), (∀ g ∈ groups, g.Ok) ∧ cut.Ok ∧ groups.length ≤ k ∧
      (cut ≠ .none → groups.length < k) ∧ p = groups.flatMap Group.text ++ cut.text ∧
      vs = groups.map Group.val := by
  induction k generalizing p vs with
  | zero =>
    obtain ⟨rfl, rfl⟩ := Prod.mk.inj (Except.ok.inj h)
    exact ⟨[], .none, by simp, trivial, le_rfl, fun h => absurd rfl h, rfl, rfl⟩
  | succ k ih =>
    rw [gpioGroups.eq_def] at h
    dsimp only at h
    split at h
    next hpre =>
      rw [List.isPrefixOf_iff_prefix] at hpre
      obtain ⟨rest, rfl⟩ := hpre
      rw [List.drop_left' (by decide)] at h
      obtain ⟨⟨vs', left⟩, h₁, h₂⟩ := bind_eq_ok h
      obtain ⟨rfl, rfl⟩ := Prod.mk.inj (Except.ok.inj h₂)
      obtain ⟨groups, cut, hg, hc, hlen, hlast, rfl, rfl⟩ := ih h₁
      refine ⟨.default :: groups, cut, ?_, hc, by rw [List.length_cons]; omega,
        fun hne => by rw [List.length_cons]; have := hlast hne; omega, rfl, rfl⟩
      intro g hmem
      rcases List.mem_cons.mp hmem with rfl | hmem
      · trivial
      · exact hg g hmem
    next =>
      split at h
      next q _ =>
        split at h
        next =>
          obtain ⟨rfl, rfl⟩ := Prod.mk.inj (Except.ok.inj h)
          exact ⟨[], .bracket, by simp, trivial, Nat.zero_le _, fun _ => Nat.succ_pos k, rfl, rfl⟩
        next hne =>
          obtain ⟨n, hq, hstops⟩ := exists_looseNum hne
          have hval : strtolDec q = saturated n.value := by
            conv_lhs => rw [hq]
            exact n.strtolDec_text hstops
          split at h
          next => cases h
          next hrange =>
            have hok : 0 ≤ n.value ∧ n.value ≤ 2^31-1 := by
              rw [hval] at hrange
              unfold saturated at hrange
              omega
            have hsat : strtolDec q = n.value := by
              rw [hval]
              exact saturated_of_mem (by omega) (by omega)
            split at h
            next rest hend =>
              obtain ⟨⟨vs', left⟩, h₁, h₂⟩ := bind_eq_ok h
              obtain ⟨rfl, rfl⟩ := Prod.mk.inj (Except.ok.inj h₂)
              obtain ⟨groups, cut, hg, hc, hlen, hlast, hrest, rfl⟩ := ih h₁
              refine ⟨.value n :: groups, cut, ?_, hc, by rw [List.length_cons]; omega,
                fun hne => by rw [List.length_cons]; have := hlast hne; omega, ?_, ?_⟩
              · intro g hmem
                rcases List.mem_cons.mp hmem with rfl | hmem
                · exact hok
                · exact hg g hmem
              · rw [hend, hrest] at hq
                rw [hq, List.flatMap_cons, Group.text]
                simp
              · rw [hsat]
                rfl
            next hend =>
              obtain ⟨rfl, hnil⟩ := Prod.mk.inj (Except.ok.inj h)
              rw [hnil, List.append_nil] at hq
              exact ⟨[], .number n, by simp, hok, Nat.zero_le _, fun _ => Nat.succ_pos k,
                by rw [hq]; rfl, rfl⟩
      next =>
        obtain ⟨rfl, rfl⟩ := Prod.mk.inj (Except.ok.inj h)
        exact ⟨[], .none, by simp, trivial, Nat.zero_le _, fun h => absurd rfl h, rfl, rfl⟩

/-- A bank: a letter from `A` on, or `power`. -/
inductive Bank
  | letter (i : ℕ)
  | power
deriving DecidableEq, Repr

namespace Bank

def text : Bank → List Byte
  | letter i => [0x50#8, BitVec.ofNat 8 (0x41+i)]
  | power => literal "power"

def port : Bank → ℕ
  | letter i => i+1
  | power => 0xffff

/-- The supported banks. -/
def Supported : Bank → Prop
  | letter i => i < GPIO_BANK_MAX
  | power => True

end Bank

/-- A GPIO as the parser takes it: one bank too many, numbers with spaces and signs, and a group
that is cut off at the end. -/
structure LooseGpio where
  bank : Bank
  pin : LooseNum
  groups : List Group
  cut : Cut
  bank_ok : ∀ i, bank = .letter i → i ≤ GPIO_BANK_MAX
  pin_ok : 0 ≤ pin.value ∧ pin.value ≤ 255
  groups_ok : ∀ g ∈ groups, g.Ok
  cut_ok : cut.Ok
  length_le : groups.length ≤ 4
  cut_lt : cut ≠ .none → groups.length < 4

namespace LooseGpio

variable (l : LooseGpio)

def text : List Byte :=
  l.bank.text ++ (l.pin.text ++ (l.groups.flatMap Group.text ++ l.cut.text))

/-- The entry: the port, the pin and one word for each group. -/
def value : Value :=
  .gpio (.ofNat 32 l.bank.port) (.ofInt 32 l.pin.value) (gpioData (l.groups.map Group.val))

/-- In the grammar: a supported bank, plain numbers and whole groups. -/
structure Strict : Prop where
  bank : l.bank.Supported
  pin : l.pin.Plain
  groups : ∀ g ∈ l.groups, g.Plain
  cut : l.cut = .none

end LooseGpio

theorem stops_groups (groups : List Group) (cut : Cut) :
    Stops (groups.flatMap Group.text ++ cut.text) := by
  cases groups with
  | nil =>
    cases cut with
    | none => exact stops_nil
    | bracket => exact stops_cons (by decide)
    | number n => exact stops_cons (by decide)
  | cons g groups =>
    cases g with
    | default => exact stops_cons (by decide)
    | value n => exact stops_cons (by decide)

theorem gpioPin_text (l : LooseGpio) :
    gpioPin pe l.bank.port (l.pin.text ++ (l.groups.flatMap Group.text ++ l.cut.text)) =
      .ok l.value := by
  have hstops := stops_groups l.groups l.cut
  have hpin := l.pin_ok
  have hne : l.groups.flatMap Group.text ++ l.cut.text ≠
      l.pin.text ++ (l.groups.flatMap Group.text ++ l.cut.text) := by
    intro h
    obtain ⟨b, s, hb, -⟩ := looseNum_head l.pin
    have hlen := congrArg List.length h
    rw [hb, List.cons_append, List.length_cons, @List.length_append _ s _] at hlen
    omega
  have hval : saturated l.pin.value = l.pin.value := saturated_of_mem (by omega) (by omega)
  unfold gpioPin
  simp only [l.pin.subjectDec_text hstops, l.pin.strtolDec_text hstops, if_neg hne, hval]
  rw [if_neg (by omega), gpioGroups_text l.groups l.groups_ok l.cut l.cut_ok 4 l.length_le l.cut_lt]
  rfl

theorem gpioValue_letter (c : Byte) (rest : List Byte) : gpioValue pe (0x50#8 :: c :: rest) =
    if c < 0x41#8 ∨ BitVec.ofNat 8 (0x41+GPIO_BANK_MAX) < c then
      .error (.parseError (pe-(0x50#8 :: c :: rest).length))
    else gpioPin pe (c.toNat-0x41+1) rest := rfl

/-- The parser takes what is loosely a GPIO. -/
theorem gpioValue_text (l : LooseGpio) : gpioValue pe l.text = .ok l.value := by
  have hpin := @gpioPin_text pe l
  unfold LooseGpio.text
  cases hb : l.bank with
  | letter i =>
    have hi := l.bank_ok i hb
    unfold GPIO_BANK_MAX at hi
    rw [hb] at hpin
    have hc : (BitVec.ofNat 8 (0x41+i)).toNat = 0x41+i := by
      rw [BitVec.toNat_ofNat]
      omega
    change gpioValue pe (0x50#8 :: BitVec.ofNat 8 (0x41+i) :: (l.pin.text ++ _)) = _
    rw [gpioValue_letter, if_neg]
    · rw [hc, Nat.add_sub_cancel_left]
      exact hpin
    · rw [BitVec.lt_def, BitVec.lt_def, hc]
      unfold GPIO_BANK_MAX
      simp only [BitVec.toNat_ofNat]
      omega
  | power =>
    rw [hb] at hpin
    have hpre : (literal "power").isPrefixOf (literal "power" ++
        (l.pin.text ++ (l.groups.flatMap Group.text ++ l.cut.text))) = true := by
      rw [List.isPrefixOf_iff_prefix]
      exact List.prefix_append _ _
    change gpioValue pe (literal "power" ++ _) = _
    unfold gpioValue
    split
    next heq => simp [literal] at heq
    next =>
      rw [if_pos hpre, List.drop_left' (by decide)]
      exact hpin

end Gpios

section Grammar

variable {pe : ℕ}

theorem gpioPin_sound {port : ℕ} {p : List Byte} {v : Value} (h : gpioPin pe port p = .ok v) :
    ∃ (pin : LooseNum) (groups : List Group) (cut : Cut), (0 ≤ pin.value ∧ pin.value ≤ 255) ∧
      (∀ g ∈ groups, g.Ok) ∧ cut.Ok ∧ groups.length ≤ 4 ∧ (cut ≠ .none → groups.length < 4) ∧
      p = pin.text ++ (groups.flatMap Group.text ++ cut.text) ∧
      v = .gpio (.ofNat 32 port) (.ofInt 32 pin.value) (gpioData (groups.map Group.val)) := by
  unfold gpioPin at h
  dsimp only at h
  split at h
  next => cases h
  next hne =>
    obtain ⟨pin, hp, hstops⟩ := exists_looseNum hne
    have hval : strtolDec p = saturated pin.value := by
      conv_lhs => rw [hp]
      exact pin.strtolDec_text hstops
    split at h
    next => cases h
    next hrange =>
      have hok : 0 ≤ pin.value ∧ pin.value ≤ 255 := by
        rw [hval] at hrange
        unfold saturated at hrange
        omega
      obtain ⟨⟨vs, left⟩, h₁, h₂⟩ := bind_eq_ok h
      dsimp only at h₂
      split at h₂
      next => cases h₂
      next hleft =>
        obtain rfl := not_not.mp hleft
        obtain rfl := Except.ok.inj h₂
        obtain ⟨groups, cut, hg, hc, hlen, hlast, hrest, rfl⟩ := gpioGroups_sound h₁
        refine ⟨pin, groups, cut, hok, hg, hc, hlen, hlast, ?_, ?_⟩
        · conv_lhs => rw [hp]
          rw [hrest]
        · rw [hval, saturated_of_mem (by omega) (by omega)]

/-- What the parser takes is loosely a GPIO. -/
theorem gpioValue_sound {p : List Byte} {v : Value} (h : gpioValue pe p = .ok v) :
    ∃ l : LooseGpio, p = l.text ∧ v = l.value := by
  unfold gpioValue at h
  split at h
  next c rest =>
    split at h
    next => cases h
    next hc =>
      rw [not_or, BitVec.not_lt, BitVec.not_lt, BitVec.le_def, BitVec.le_def] at hc
      obtain ⟨hlo, hhi⟩ := hc
      change 0x41 ≤ c.toNat at hlo
      change c.toNat ≤ 0x4f at hhi
      obtain ⟨pin, groups, cut, hok, hg, hcut, hlen, hlast, rfl, rfl⟩ := gpioPin_sound h
      have hbyte : BitVec.ofNat 8 (0x41+(c.toNat-0x41)) = c := by
        rw [Nat.add_sub_cancel' hlo, BitVec.ofNat_toNat, BitVec.setWidth_eq]
      refine ⟨⟨.letter (c.toNat-0x41), pin, groups, cut, ?_, hok, hg, hcut, hlen, hlast⟩, ?_, rfl⟩
      · rintro i hi
        injection hi with hi
        unfold GPIO_BANK_MAX
        omega
      · change _ = 0x50#8 :: BitVec.ofNat 8 (0x41+(c.toNat-0x41)) :: _
        rw [hbyte]
        rfl
  next =>
    split at h
    next hpre =>
      rw [List.isPrefixOf_iff_prefix] at hpre
      obtain ⟨rest, rfl⟩ := hpre
      rw [List.drop_left' (by decide)] at h
      obtain ⟨pin, groups, cut, hok, hg, hcut, hlen, hlast, rfl, rfl⟩ := gpioPin_sound h
      exact ⟨⟨.power, pin, groups, cut, (fun i hi => by cases hi), hok, hg, hcut, hlen, hlast⟩, rfl, rfl⟩
    next => cases h

/-- A byte that is no part of a text in the grammar. -/
def isStray (b : Byte) : Bool := isSpace b || b = 0x2b#8 || b = 0x2d#8

/-- What tells the texts of the grammar from the others that the parser takes. -/
structure Clean (t : List Byte) : Prop where
  stray : ∀ b ∈ t, isStray b = false
  bank : t.take 2 ≠ [0x50#8, 0x4f#8]
  brackets : t.count 0x3c#8 = t.count 0x3e#8

theorem LooseNum.mem_text {n : LooseNum} {b : Byte} (h : b ∈ n.text) :
    isStray b = true ∨ isDigit 10 b = true := by
  unfold LooseNum.text at h
  rcases List.mem_append.mp h with h | h
  · left
    rw [isStray, n.spaces_ok b h]
    rfl
  · rcases List.mem_append.mp h with h | h
    · left
      cases hs : n.sign with
      | none =>
        rw [hs] at h
        cases h
      | plus =>
        rw [hs] at h
        obtain rfl := List.mem_singleton.mp h
        decide
      | minus =>
        rw [hs] at h
        obtain rfl := List.mem_singleton.mp h
        decide
    · exact .inr (n.digits_ok b h)

theorem digit_not_stray : ∀ b : Byte, isDigit 10 b = true → isStray b = false := by decide +kernel

theorem bracket_facts : ∀ b : Byte, isStray b = true ∨ isDigit 10 b = true →
    b ≠ 0x3c#8 ∧ b ≠ 0x3e#8 := by decide +kernel

theorem LooseNum.count_text (n : LooseNum) :
    n.text.count 0x3c#8 = 0 ∧ n.text.count 0x3e#8 = 0 := by
  constructor
  · exact List.count_eq_zero.mpr fun h => (bracket_facts _ (mem_text h)).1 rfl
  · exact List.count_eq_zero.mpr fun h => (bracket_facts _ (mem_text h)).2 rfl

/-- A number is plain if it has no stray byte. -/
theorem LooseNum.plain_iff (n : LooseNum) : n.Plain ↔ ∀ b ∈ n.text, isStray b = false := by
  constructor
  · rintro ⟨hs, hsign⟩ b hb
    unfold LooseNum.text at hb
    rw [hs, hsign] at hb
    exact digit_not_stray b (n.digits_ok b hb)
  · intro h
    constructor
    · by_contra hne
      obtain ⟨b, s, hb⟩ := List.exists_cons_of_ne_nil hne
      have hmem : b ∈ n.spaces := by
        rw [hb]
        exact List.mem_cons_self
      have := h b (List.mem_append_left _ hmem)
      rw [isStray, n.spaces_ok b hmem] at this
      cases this
    · cases hs : n.sign with
      | none => rfl
      | plus =>
        have := h 0x2b#8 (by rw [LooseNum.text, hs]; simp [Sign.text])
        exact absurd this (by decide)
      | minus =>
        have := h 0x2d#8 (by rw [LooseNum.text, hs]; simp [Sign.text])
        exact absurd this (by decide)

theorem Group.count_text (g : Group) : g.text.count 0x3c#8 = 1 ∧ g.text.count 0x3e#8 = 1 := by
  cases g with
  | default => decide
  | value n =>
    obtain ⟨h1, h2⟩ := n.count_text
    simp only [Group.text, List.count_cons, List.count_append, h1, h2]
    decide

theorem groups_count (groups : List Group) :
    (groups.flatMap Group.text).count 0x3c#8 = groups.length ∧
      (groups.flatMap Group.text).count 0x3e#8 = groups.length := by
  induction groups with
  | nil => exact ⟨rfl, rfl⟩
  | cons g groups ih =>
    obtain ⟨h1, h2⟩ := g.count_text
    rw [List.flatMap_cons, List.count_append, List.count_append, h1, h2, ih.1, ih.2,
      List.length_cons]
    omega

/-- A group is plain if it has no stray byte. -/
theorem Group.plain_iff (g : Group) : g.Plain ↔ ∀ b ∈ g.text, isStray b = false := by
  cases g with
  | default => exact ⟨fun _ => by decide, fun _ => trivial⟩
  | value n =>
    refine n.plain_iff.trans ⟨fun h b hb => ?_, fun h b hb => h b ?_⟩
    · rcases List.mem_cons.mp hb with rfl | hb
      · decide
      · rcases List.mem_append.mp hb with hb | hb
        · exact h b hb
        · obtain rfl := List.mem_singleton.mp hb
          decide
    · exact List.mem_cons_of_mem _ (List.mem_append_left _ hb)

theorem bank_byte : ∀ i < 15, isStray (BitVec.ofNat 8 (0x41+i)) = false ∧
    BitVec.ofNat 8 (0x41+i) ≠ 0x3c#8 ∧ BitVec.ofNat 8 (0x41+i) ≠ 0x3e#8 ∧
    (BitVec.ofNat 8 (0x41+i) = 0x4f#8 → ¬i < GPIO_BANK_MAX) := by decide

theorem LooseGpio.bank_mem (l : LooseGpio) :
    ∀ b ∈ l.bank.text, isStray b = false ∧ b ≠ 0x3c#8 ∧ b ≠ 0x3e#8 := by
  cases hb : l.bank with
  | letter i =>
    have hi := l.bank_ok i hb
    obtain ⟨h1, h2, h3, -⟩ := bank_byte i (by unfold GPIO_BANK_MAX at hi; omega)
    intro b hmem
    rcases List.mem_cons.mp hmem with rfl | hmem
    · decide
    · obtain rfl := List.mem_singleton.mp hmem
      exact ⟨h1, h2, h3⟩
  | power => decide

theorem LooseGpio.brackets (l : LooseGpio) :
    l.text.count 0x3c#8 = l.text.count 0x3e#8 ↔ l.cut = .none := by
  obtain ⟨hp1, hp2⟩ := l.pin.count_text
  obtain ⟨hg1, hg2⟩ := groups_count l.groups
  have hb1 : l.bank.text.count 0x3c#8 = 0 :=
    List.count_eq_zero.mpr fun h => (l.bank_mem _ h).2.1 rfl
  have hb2 : l.bank.text.count 0x3e#8 = 0 :=
    List.count_eq_zero.mpr fun h => (l.bank_mem _ h).2.2 rfl
  unfold LooseGpio.text
  simp only [List.count_append, hb1, hb2, hp1, hp2, hg1, hg2]
  cases l.cut with
  | none => simp [Cut.text]
  | bracket => simp [Cut.text]
  | number n =>
    obtain ⟨h1, h2⟩ := n.count_text
    simp [Cut.text, h1, h2]

theorem LooseGpio.supported_iff (l : LooseGpio) :
    l.bank.Supported ↔ l.text.take 2 ≠ [0x50#8, 0x4f#8] := by
  unfold LooseGpio.text
  cases hb : l.bank with
  | letter i =>
    have hi := l.bank_ok i hb
    have hbyte := (bank_byte i (by unfold GPIO_BANK_MAX at hi; omega)).2.2.2
    change i < GPIO_BANK_MAX ↔ [0x50#8, BitVec.ofNat 8 (0x41+i)] ≠ [0x50#8, 0x4f#8]
    constructor
    · intro h heq
      injection heq with _ heq
      injection heq with heq _
      exact hbyte heq h
    · intro h
      by_contra hlt
      have : i = 14 := by
        unfold GPIO_BANK_MAX at hi hlt
        omega
      exact h (by rw [this])
  | power =>
    refine ⟨fun _ h => ?_, fun _ => trivial⟩
    have hlit : literal "power" = 0x70#8 :: 0x6f#8 :: literal "wer" := by decide
    rw [Bank.text, hlit] at h
    injection h with h _
    exact absurd h (by decide)

/-- Whether a text is in the grammar can be seen from its bytes. -/
theorem LooseGpio.strict_iff_clean (l : LooseGpio) : l.Strict ↔ Clean l.text := by
  have hmem (b : Byte) : b ∈ l.text ↔ b ∈ l.bank.text ∨ b ∈ l.pin.text ∨
      b ∈ l.groups.flatMap Group.text ∨ b ∈ l.cut.text := by
    unfold LooseGpio.text
    simp only [List.mem_append]
  constructor
  · intro h
    refine ⟨fun b hb => ?_, l.supported_iff.mp h.bank, l.brackets.mpr h.cut⟩
    rcases (hmem b).mp hb with hb | hb | hb | hb
    · exact (l.bank_mem b hb).1
    · exact l.pin.plain_iff.mp h.pin b hb
    · obtain ⟨g, hg, hb⟩ := List.mem_flatMap.mp hb
      exact g.plain_iff.mp (h.groups g hg) b hb
    · rw [h.cut] at hb
      cases hb
  · intro h
    refine ⟨l.supported_iff.mpr h.bank, l.pin.plain_iff.mpr fun b hb => ?_, fun g hg => ?_,
      l.brackets.mp h.brackets⟩
    · exact h.stray b ((hmem b).mpr (.inr (.inl hb)))
    · refine g.plain_iff.mpr fun b hb => h.stray b ((hmem b).mpr (.inr (.inr (.inl ?_))))
      exact List.mem_flatMap.mpr ⟨g, hg, hb⟩

theorem parseValue_port (t : List Byte) : parseValue pe (literal "port:" ++ t) = gpioValue pe t := by
  have hne : literal "port:" ++ t ≠ [] := by simp [literal]
  have hq : isQuoted (literal "port:" ++ t) = false := by
    have hhead : (literal "port:" ++ t).head? = some 0x70#8 := rfl
    simp [isQuoted, hhead]
  have hpre : (literal "port:").isPrefixOf (literal "port:" ++ t) = true := by
    rw [List.isPrefixOf_iff_prefix]
    exact List.prefix_append _ _
  simp only [parseValue, if_neg hne, hq, hpre, Bool.false_eq_true, if_false, if_true,
    List.drop_left' (by decide : (literal "port:").length = 5)]

/-- The parser and the grammar agree on a text behind `port:`, and the entry is the one that the
text denotes. -/
structure FollowsGrammar (pe : ℕ) (t : List Byte) : Prop where
  accepts : (∃ v, parseValue pe (literal "port:" ++ t) = .ok v) ↔
    ∃ l : LooseGpio, l.Strict ∧ t = l.text
  stores : ∀ v, parseValue pe (literal "port:" ++ t) = .ok v →
    ∀ l : LooseGpio, l.Strict → t = l.text → v = l.value

/-- They agree just on the texts that are no loose form of a GPIO. -/
theorem gpio_follows_grammar_iff (pe : ℕ) (t : List Byte) :
    FollowsGrammar pe t ↔ ∀ l : LooseGpio, t = l.text → l.Strict := by
  constructor
  · rintro h l rfl
    have hacc := h.accepts.mp ⟨l.value, by rw [parseValue_port, gpioValue_text]⟩
    obtain ⟨l', hstrict, heq⟩ := hacc
    rw [l.strict_iff_clean, heq]
    exact l'.strict_iff_clean.mp hstrict
  · intro h
    refine ⟨⟨?_, ?_⟩, ?_⟩
    · rintro ⟨v, hv⟩
      rw [parseValue_port] at hv
      obtain ⟨l, hl, -⟩ := gpioValue_sound hv
      exact ⟨l, h l hl, hl⟩
    · rintro ⟨l, -, rfl⟩
      exact ⟨l.value, by rw [parseValue_port, gpioValue_text]⟩
    · rintro v hv l - rfl
      rw [parseValue_port, gpioValue_text] at hv
      exact (Except.ok.inj hv).symm

/-- A group without its last bracket is taken, and its value is dropped. -/
theorem gpio_drops_group :
    parseValue 0 (literal "port:PA00<5") =
      .ok (.gpio 1#32 0#32 ⟨0xffffffff#32, 0xffffffff#32, 0xffffffff#32, 0xffffffff#32⟩) ∧
      ¬FollowsGrammar 0 (literal "PA00<5") := by
  have hparse : parseValue 0 (literal "port:PA00<5") =
      .ok (.gpio 1#32 0#32 ⟨0xffffffff#32, 0xffffffff#32, 0xffffffff#32, 0xffffffff#32⟩) := by
    decide +kernel
  refine ⟨hparse, fun h => ?_⟩
  obtain ⟨l, hstrict, heq⟩ := h.accepts.mp ⟨_, hparse⟩
  have hcount := (l.strict_iff_clean.mp hstrict).brackets
  rw [← heq] at hcount
  exact absurd hcount (by decide)

end Grammar

end ChipTools.Fex
