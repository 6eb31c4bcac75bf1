import ChipTools.CNumber
import Mathlib.Data.Nat.Digits.Lemmas

/-! Numbers as `printf` writes them: the digits of a base, zeros in front of them, and a sign. -/
namespace ChipTools.CNumber
open Bytes

section Digits

/-- The digit of a value below 16, with small letters. -/
def digitByte (d : ℕ) : Byte := BitVec.ofNat 8 (if d < 10 then 0x30+d else 0x57+d)

/-- `%u` and `%x`: the digits of the base, the highest one first. -/
def numberText (base n : ℕ) : List Byte :=
  if n = 0 then [0x30#8] else (Nat.digits base n).reverse.map digitByte

/-- The zeros of a width, as in `%02u`. -/
def padZeros (width : ℕ) (s : List Byte) : List Byte :=
  List.replicate (width-s.length) 0x30#8 ++ s

/-- `%d`. -/
def intText (v : ℤ) : List Byte :=
  if v < 0 then 0x2d#8 :: numberText 10 v.natAbs else numberText 10 v.natAbs

/-- The number that digits stand for. -/
def digitsValue (base : ℕ) (digits : List Byte) : ℕ :=
  digits.foldl (fun v b => v*base+digitVal b) 0

variable {r n w : ℕ}

theorem digitVal_digitByte : ∀ d < 16, digitVal (digitByte d) = d := by decide

theorem digitByte_ne_zero : ∀ d < 16, d ≠ 0 → digitByte d ≠ 0x30#8 := by decide

theorem mem_digits_lt (hb : 1 < r) (hle : r ≤ 16) {d : ℕ} (hd : d ∈ Nat.digits r n) :
    d < r ∧ d < 16 := by
  have h := Nat.digits_lt_base hb hd
  exact ⟨h, h.trans_le hle⟩

theorem numberText_digits (hb : 1 < r) (hle : r ≤ 16) :
    ∀ b ∈ numberText r n, isDigit r b = true := by
  intro b hmem
  unfold numberText at hmem
  split at hmem
  next =>
    obtain rfl := List.mem_singleton.mp hmem
    have hzero : digitVal 0x30#8 = 0 := by decide
    unfold isDigit
    rw [hzero]
    exact decide_eq_true (by omega)
  next =>
    obtain ⟨d, hd, rfl⟩ := List.mem_map.mp hmem
    obtain ⟨hlt, h16⟩ := mem_digits_lt hb hle (List.mem_reverse.mp hd)
    unfold isDigit
    rw [digitVal_digitByte d h16]
    exact decide_eq_true hlt

theorem numberText_ne_nil (r n : ℕ) : numberText r n ≠ [] := by
  unfold numberText
  split
  next => exact List.cons_ne_nil _ _
  next hn =>
    intro h
    rw [List.map_eq_nil_iff, List.reverse_eq_nil_iff] at h
    exact Nat.digits_ne_nil_iff_ne_zero.mpr hn h

/-- The digits stand for the number. -/
theorem digitsValue_numberText (hb : 1 < r) (hle : r ≤ 16) :
    digitsValue r (numberText r n) = n := by
  unfold numberText digitsValue
  split
  next h =>
    have hzero : digitVal 0x30#8 = 0 := by decide
    simp only [List.foldl_cons, List.foldl_nil, hzero, h]
    omega
  next =>
    have hfold (l : List ℕ) (hl : ∀ d ∈ l, d < 16) :
        l.foldr (fun d v => v*r+digitVal (digitByte d)) 0 = Nat.ofDigits r l := by
      induction l with
      | nil => rfl
      | cons d l ih =>
        have htail := ih fun x hx => hl x (List.mem_cons_of_mem _ hx)
        have hd := digitVal_digitByte d (hl d List.mem_cons_self)
        calc (d :: l).foldr (fun d v => v*r+digitVal (digitByte d)) 0
            = Nat.ofDigits r l*r+d := by rw [List.foldr_cons, htail, hd]
          _ = Nat.ofDigits r (d :: l) := by
            rw [Nat.ofDigits_cons, Nat.mul_comm, Nat.add_comm]
    rw [List.foldl_map, List.foldl_reverse,
      hfold _ fun d hd => (mem_digits_lt hb hle hd).2, Nat.ofDigits_digits]

/-- Only zero starts with a zero. -/
theorem numberText_head (hb : 1 < r) (hle : r ≤ 16) (hn : n ≠ 0) :
    ∃ b rest, numberText r n = b :: rest ∧ b ≠ 0x30#8 := by
  have hne : Nat.digits r n ≠ [] := Nat.digits_ne_nil_iff_ne_zero.mpr hn
  have hlast := Nat.getLast_digit_ne_zero r hn
  have hlt := (mem_digits_lt hb hle (List.getLast_mem hne)).2
  refine ⟨digitByte ((Nat.digits r n).getLast hne),
    (Nat.digits r n).dropLast.reverse.map digitByte, ?_, digitByte_ne_zero _ hlt hlast⟩
  unfold numberText
  rw [if_neg hn]
  conv_lhs => rw [← List.dropLast_concat_getLast hne]
  rw [List.reverse_append, List.reverse_singleton, List.singleton_append, List.map_cons]

theorem numberText_length (hb : 1 < r) {k : ℕ} (hk : 0 < k) (hn : n < r^k) :
    (numberText r n).length ≤ k := by
  unfold numberText
  split
  next => exact hk
  next =>
    rw [List.length_map, List.length_reverse]
    exact (Nat.digits_length_le_iff hb n).mpr hn

theorem padZeros_digits {s : List Byte} (hs : ∀ b ∈ s, isDigit 10 b = true) :
    ∀ b ∈ padZeros w s, isDigit 10 b = true := by
  intro b hb
  rcases List.mem_append.mp hb with hb | hb
  · obtain rfl := List.eq_of_mem_replicate hb
    decide
  · exact hs b hb

theorem digitsValue_zeros (k : ℕ) (s : List Byte) :
    digitsValue r (List.replicate k 0x30#8 ++ s) = digitsValue r s := by
  have hzero : digitVal 0x30#8 = 0 := by decide
  induction k with
  | zero => rfl
  | succ k ih =>
    unfold digitsValue at ih ⊢
    rw [List.replicate_succ, List.cons_append, List.foldl_cons, hzero, Nat.zero_mul]
    exact ih

theorem digitsValue_padZeros (s : List Byte) :
    digitsValue r (padZeros w s) = digitsValue r s :=
  digitsValue_zeros _ s

theorem padZeros_length (s : List Byte) : (padZeros w s).length = max w s.length := by
  unfold padZeros
  rw [List.length_append, List.length_replicate]
  omega

end Digits

end ChipTools.CNumber
