import Mathlib.Algebra.Field.ZMod
import Mathlib.Data.Nat.Bitwise
import Mathlib.Data.ZMod.Basic
import Mathlib.GroupTheory.OrderOfElement
import Mathlib.RingTheory.AdjoinRoot

/-! Numbers as polynomials over the field of two elements, with a bit for each coefficient, and
the powers of `X` modulo such a polynomial. They are reached by shifts, and `X` has the largest
order that it can have exactly when none of them but the first is one. -/
namespace ChipTools.BinaryPoly
open Polynomial

section Coefficients

variable {x y m : ℕ}

/-- The polynomial of the bits of a number. -/
noncomputable def toPoly (x : ℕ) : (ZMod 2)[X] :=
  ∑ i ∈ Finset.range x, if x.testBit i then X^i else 0

theorem coeff_toPoly (x i : ℕ) : (toPoly x).coeff i = if x.testBit i then 1 else 0 := by
  unfold toPoly
  rw [finsetSum_coeff, Finset.sum_eq_single i]
  · split
    · exact coeff_X_pow_self i
    · exact coeff_zero i
  · intro j _ hne
    split
    · rw [coeff_X_pow, if_neg hne.symm]
    · exact coeff_zero i
  · intro hi
    have hlt : x < 2^i := (Nat.lt_two_pow_self).trans_le
      (Nat.pow_le_pow_right (by decide) (by simpa using hi))
    rw [Nat.testBit_lt_two_pow hlt, if_neg (by decide), coeff_zero]

theorem toPoly_injective (h : toPoly x = toPoly y) : x = y := by
  have hbit (i : ℕ) : (if x.testBit i then 1 else 0 : ZMod 2) = if y.testBit i then 1 else 0 := by
    rw [← coeff_toPoly, ← coeff_toPoly, h]
  apply Nat.eq_of_testBit_eq
  intro i
  have hi := hbit i
  cases hx : x.testBit i with
  | false =>
    rw [hx, if_neg Bool.false_ne_true] at hi
    by_contra hy
    rw [if_pos (Bool.of_not_eq_false (Ne.symm hy))] at hi
    exact zero_ne_one hi
  | true =>
    rw [hx, if_pos rfl] at hi
    by_contra hy
    rw [if_neg (Ne.symm hy)] at hi
    exact one_ne_zero hi

theorem toPoly_zero : toPoly 0 = 0 := rfl

theorem toPoly_one : toPoly 1 = 1 := by
  unfold toPoly
  rw [Finset.sum_range_one, if_pos (by decide), pow_zero]

theorem toPoly_xor (x y : ℕ) : toPoly (x ^^^ y) = toPoly x+toPoly y := by
  ext i
  rw [coeff_add, coeff_toPoly, coeff_toPoly, coeff_toPoly, Nat.testBit_xor]
  cases x.testBit i <;> cases y.testBit i <;> decide

theorem toPoly_double (x : ℕ) : toPoly (2*x) = X*toPoly x := by
  ext i
  cases i with
  | zero =>
    rw [coeff_toPoly, mul_comm X, coeff_mul_X_zero, Nat.testBit_zero, Nat.mul_mod_right,
      if_neg (by decide)]
  | succ i =>
    rw [coeff_toPoly, mul_comm X, coeff_mul_X, coeff_toPoly, Nat.testBit_succ,
      Nat.mul_div_cancel_left _ (by decide)]

theorem degree_toPoly_lt (h : x < 2^m) : (toPoly x).degree < m := by
  rw [degree_lt_iff_coeff_zero]
  intro i hi
  have hlt : x < 2^i := h.trans_le (Nat.pow_le_pow_right (by decide) hi)
  rw [coeff_toPoly, Nat.testBit_lt_two_pow hlt, if_neg (by decide)]

theorem coeff_toPoly_top (hlo : 2^m ≤ x) (hhi : x < 2^(m+1)) : (toPoly x).coeff m = 1 := by
  have htop : x.testBit m = true := by
    rw [Nat.testBit_eq_decide_div_mod_eq, Nat.div_eq_of_lt_le (k := 1) (by omega)
      (by rw [pow_succ] at hhi; omega)]
    decide
  rw [coeff_toPoly, htop, if_pos rfl]

/-- The highest bit is the degree. -/
theorem natDegree_toPoly (hlo : 2^m ≤ x) (hhi : x < 2^(m+1)) : (toPoly x).natDegree = m := by
  apply natDegree_eq_of_le_of_coeff_ne_zero
  · rw [natDegree_le_iff_degree_le]
    exact Order.le_of_lt_succ (degree_toPoly_lt hhi)
  · rw [coeff_toPoly_top hlo hhi]
    exact one_ne_zero

theorem monic_toPoly (hlo : 2^m ≤ x) (hhi : x < 2^(m+1)) : (toPoly x).Monic := by
  unfold Monic leadingCoeff
  rw [natDegree_toPoly hlo hhi, coeff_toPoly_top hlo hhi]

end Coefficients

section Step

/-- A polynomial of degree `m` with a constant term. -/
structure Modulus (m poly : ℕ) : Prop where
  pos : 1 ≤ m
  lo : 2^m ≤ poly
  hi : poly < 2^(m+1)
  odd : poly.testBit 0 = true

variable {m poly x y : ℕ}

/-- Multiplication by `X`, with one subtraction of the modulus. -/
def step (m poly x : ℕ) : ℕ := if (2*x).testBit m then (2*x) ^^^ poly else 2*x

/-- The power of `X` as a number. -/
def powX (m poly i : ℕ) : ℕ := (step m poly)^[i] 1

theorem powX_succ (i : ℕ) : powX m poly (i+1) = step m poly (powX m poly i) :=
  Function.iterate_succ_apply' _ _ _

theorem step_lt (h : Modulus m poly) (hx : x < 2^m) : step m poly x < 2^m := by
  have hpow : 2^(m+1) = 2*2^m := by rw [pow_succ, Nat.mul_comm]
  unfold step
  split
  next hbit =>
    apply Nat.lt_pow_two_of_testBit
    intro i hi
    rw [Nat.testBit_xor]
    rcases Nat.eq_or_lt_of_le hi with rfl | hlt
    · -- the highest bits of both cancel
      have htop : poly.testBit m = true := by
        rw [Nat.testBit_eq_decide_div_mod_eq, Nat.div_eq_of_lt_le (k := 1) (by have := h.lo; omega)
          (by have := h.hi; omega)]
        decide
      rw [hbit, htop]
      rfl
    · have hle : 2^(m+1) ≤ 2^i := Nat.pow_le_pow_right (by decide) hlt
      rw [Nat.testBit_lt_two_pow (by omega), Nat.testBit_lt_two_pow (h.hi.trans_le hle)]
      rfl
  next hbit =>
    by_contra hge
    apply hbit
    rw [Nat.testBit_eq_decide_div_mod_eq, Nat.div_eq_of_lt_le (k := 1) (by omega) (by omega)]
    decide

theorem powX_lt (h : Modulus m poly) (i : ℕ) : powX m poly i < 2^m := by
  induction i with
  | zero => exact Nat.one_lt_two_pow (Nat.one_le_iff_ne_zero.mp h.pos)
  | succ i ih =>
    rw [powX_succ]
    exact step_lt h ih

/-- The class of a number modulo the polynomial. -/
noncomputable def elem (poly x : ℕ) : AdjoinRoot (toPoly poly) := AdjoinRoot.mk _ (toPoly x)

theorem elem_step (x : ℕ) :
    elem poly (step m poly x) = AdjoinRoot.root (toPoly poly)*elem poly x := by
  have hdouble : elem poly (2*x) = AdjoinRoot.root (toPoly poly)*elem poly x := by
    unfold elem
    rw [toPoly_double, map_mul, AdjoinRoot.mk_X]
  unfold step
  split
  · rw [← hdouble]
    unfold elem
    rw [toPoly_xor, map_add, AdjoinRoot.mk_self, add_zero]
  · exact hdouble

theorem elem_powX (i : ℕ) : elem poly (powX m poly i) = AdjoinRoot.root (toPoly poly)^i := by
  induction i with
  | zero =>
    rw [pow_zero]
    unfold elem
    rw [show powX m poly 0 = 1 from rfl, toPoly_one, map_one]
  | succ i ih => rw [powX_succ, elem_step, ih, pow_succ']

/-- Numbers below the modulus are the remainders of their classes. -/
theorem elem_eq_iff (h : Modulus m poly) (hx : x < 2^m) (p : (ZMod 2)[X]) :
    elem poly x = AdjoinRoot.mk _ p ↔ toPoly x = p %ₘ toPoly poly := by
  have hmonic := monic_toPoly h.lo h.hi
  have hdeg : (toPoly x).degree < (toPoly poly).degree := by
    rw [degree_eq_natDegree hmonic.ne_zero, natDegree_toPoly h.lo h.hi]
    exact degree_toPoly_lt hx
  unfold elem
  rw [AdjoinRoot.mk_eq_mk]
  constructor
  · intro hdvd
    rw [← (modByMonic_eq_self_iff hmonic).mpr hdeg]
    exact modByMonic_eq_of_dvd_sub hmonic hdvd
  · intro heq
    have hdiv := modByMonic_add_div p (toPoly poly)
    refine ⟨-(p /ₘ toPoly poly), ?_⟩
    rw [heq, mul_neg, eq_neg_iff_add_eq_zero, sub_add_eq_add_sub, hdiv, sub_self]

theorem elem_injective (h : Modulus m poly) (hx : x < 2^m) (hy : y < 2^m)
    (heq : elem poly x = elem poly y) : x = y := by
  have hx' := (elem_eq_iff h hx (toPoly y)).mp heq
  have hy' := (elem_eq_iff h hy (toPoly y)).mp rfl
  exact toPoly_injective (hx'.trans hy'.symm)

end Step

section Order

variable {m poly : ℕ} {i j : ℕ}

/-- A constant term makes `X` invertible. -/
theorem root_isUnit (h : Modulus m poly) : IsUnit (AdjoinRoot.root (toPoly poly)) := by
  have hsplit : toPoly poly = X*(toPoly poly).divX+1 := by
    have hc : (toPoly poly).coeff 0 = 1 := by rw [coeff_toPoly, h.odd, if_pos rfl]
    have hdiv := X_mul_divX_add (toPoly poly)
    rw [hc, map_one] at hdiv
    exact hdiv.symm
  have hzero : AdjoinRoot.root (toPoly poly)*AdjoinRoot.mk _ (toPoly poly).divX+1 = 0 := by
    have hself := AdjoinRoot.mk_self (f := toPoly poly)
    rw [← AdjoinRoot.mk_X, ← map_mul, ← map_one (AdjoinRoot.mk (toPoly poly)), ← map_add, ← hsplit]
    exact hself
  apply IsUnit.of_mul_eq_one (-AdjoinRoot.mk _ (toPoly poly).divX)
  rw [mul_neg, ← eq_neg_of_add_eq_zero_right hzero]

theorem elem_one : elem poly 1 = 1 := by
  unfold elem
  rw [toPoly_one, map_one]

theorem elem_zero : elem poly 0 = 0 := by
  unfold elem
  rw [toPoly_zero, map_zero]

theorem powX_eq_one_iff (h : Modulus m poly) :
    powX m poly i = 1 ↔ AdjoinRoot.root (toPoly poly)^i = 1 := by
  rw [← @elem_powX m poly i, ← @elem_one poly]
  constructor
  · intro heq
    rw [heq]
  · exact elem_injective h (powX_lt h i) (powX_lt h 0)

theorem powX_pos (h : Modulus m poly) (i : ℕ) : 0 < powX m poly i := by
  apply Nat.pos_of_ne_zero
  intro hzero
  have hpow := @elem_powX m poly i
  rw [hzero, elem_zero] at hpow
  have hunit := (root_isUnit h).pow i
  rw [← hpow] at hunit
  -- in the zero ring, one and zero would be the same number
  have hone : elem poly 1 = elem poly 0 := by
    rw [elem_one, elem_zero]
    exact (isUnit_zero_iff.mp hunit).symm
  have hlt : 1 < 2^m := powX_lt h 0
  exact absurd (elem_injective h hlt (Nat.two_pow_pos m) hone) Nat.one_ne_zero

/-- Equal powers of `X` leave a power that is one. -/
theorem powX_sub (h : Modulus m poly) (hij : i ≤ j) (heq : powX m poly i = powX m poly j) :
    powX m poly (j-i) = 1 := by
  rw [powX_eq_one_iff h]
  have hpow : AdjoinRoot.root (toPoly poly)^i*AdjoinRoot.root (toPoly poly)^(j-i) =
      AdjoinRoot.root (toPoly poly)^i*1 := by
    rw [← pow_add, Nat.add_sub_cancel' hij, mul_one, ← elem_powX (m := m), ← heq, elem_powX]
  exact ((root_isUnit h).pow i).mul_left_cancel hpow

/-- No power of `X` before the last one comes back to one. -/
def Late (m poly : ℕ) : Prop := ∀ i, 0 < i → i < 2^m-1 → powX m poly i ≠ 1

theorem Late.injective (hl : Late m poly) (h : Modulus m poly) (hi : i < 2^m-1) (hj : j < 2^m-1)
    (heq : powX m poly i = powX m poly j) : i = j := by
  rcases Nat.lt_trichotomy i j with hlt | rfl | hlt
  · exact absurd (powX_sub h hlt.le heq) (hl (j-i) (by omega) (by omega))
  · rfl
  · exact absurd (powX_sub h hlt.le heq.symm) (hl (i-j) (by omega) (by omega))

/-- There are as many powers as numbers, so each number is one of them. -/
theorem Late.surjective (hl : Late m poly) (h : Modulus m poly) {x : ℕ} (h0 : 0 < x)
    (hx : x < 2^m) : ∃ i < 2^m-1, powX m poly i = x := by
  have hsub : (Finset.range (2^m-1)).image (powX m poly) ⊆ Finset.Ico 1 (2^m) := by
    intro y hy
    obtain ⟨i, -, rfl⟩ := Finset.mem_image.mp hy
    exact Finset.mem_Ico.mpr ⟨powX_pos h i, powX_lt h i⟩
  have hcard : ((Finset.range (2^m-1)).image (powX m poly)).card = 2^m-1 := by
    rw [Finset.card_image_of_injOn, Finset.card_range]
    intro i hi j hj heq
    exact hl.injective h (Finset.mem_range.mp hi) (Finset.mem_range.mp hj) heq
  have heq := Finset.eq_of_subset_of_card_le hsub (by rw [hcard, Nat.card_Ico])
  have hmem : x ∈ (Finset.range (2^m-1)).image (powX m poly) := by
    rw [heq]
    exact Finset.mem_Ico.mpr ⟨h0, hx⟩
  obtain ⟨i, hi, rfl⟩ := Finset.mem_image.mp hmem
  exact ⟨i, Finset.mem_range.mp hi, rfl⟩

theorem Late.last (hl : Late m poly) (h : Modulus m poly) : powX m poly (2^m-1) = 1 := by
  obtain ⟨i, hi, heq⟩ := hl.surjective h (powX_pos h (2^m-1)) (powX_lt h (2^m-1))
  have hone := powX_sub h hi.le heq
  by_cases h0 : i = 0
  · rw [h0, Nat.sub_zero] at hone
    exact hone
  · exact absurd hone (hl _ (by omega) (by omega))

/-- `X` has the largest order that it can have. -/
theorem orderOf_root_iff (h : Modulus m poly) :
    orderOf (AdjoinRoot.root (toPoly poly)) = 2^m-1 ↔ Late m poly := by
  have hpow : 2^1 ≤ 2^m := Nat.pow_le_pow_right Nat.two_pos h.pos
  rw [orderOf_eq_iff (by omega)]
  constructor
  · rintro ⟨-, hlate⟩ i h0 hi heq
    exact hlate i hi h0 ((powX_eq_one_iff h).mp heq)
  · intro hl
    refine ⟨(powX_eq_one_iff h).mp (hl.last h), fun i hi h0 hone => ?_⟩
    exact hl i h0 hi ((powX_eq_one_iff h).mpr hone)

end Order

end ChipTools.BinaryPoly
