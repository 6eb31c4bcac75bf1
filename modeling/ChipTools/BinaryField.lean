import ChipTools.WordPoly
import Mathlib.FieldTheory.Minpoly.Field
import Mathlib.Algebra.CharP.Algebra
import Mathlib.Algebra.CharP.Two
import Mathlib.Algebra.CharP.Frobenius
import Mathlib.Algebra.Polynomial.Roots

/-! The field of two to the `m` elements that a primitive polynomial makes: its elements are the
numbers below that power of two, and each of them but zero is a power of `X`. Products over roots
whose exponents are closed under doubling have their coefficients in the field of two elements, and
`x²+x` takes every value of trace zero. -/
namespace ChipTools.BinaryPoly
open Polynomial

section Elements

variable {m poly : ℕ}

theorem elem_xor (x y : ℕ) : elem poly (x ^^^ y) = elem poly x+elem poly y := by
  unfold elem
  rw [toPoly_xor, map_add]

/-- Every class is that of a number of `m` bits. -/
theorem exists_elem (h : Modulus m poly) (f : AdjoinRoot (toPoly poly)) :
    ∃ x < 2^m, elem poly x = f := by
  induction f using AdjoinRoot.induction_on with
  | ih p =>
    induction p using Polynomial.induction_on' with
    | add p q hp hq =>
      obtain ⟨x, hx, hpx⟩ := hp
      obtain ⟨y, hy, hqy⟩ := hq
      refine ⟨x ^^^ y, Nat.xor_lt_two_pow hx hy, ?_⟩
      rw [elem_xor, hpx, hqy, map_add]
    | monomial n a =>
      have ha : a = 0 ∨ a = 1 := by
        revert a
        decide
      rcases ha with rfl | rfl
      · refine ⟨0, Nat.two_pow_pos m, ?_⟩
        rw [elem_zero, monomial_zero_right, map_zero]
      · refine ⟨powX m poly n, powX_lt h n, ?_⟩
        rw [elem_powX, monomial_one_right_eq_X_pow, map_pow, AdjoinRoot.mk_X]

/-- Every class but zero is a power of `X`. -/
theorem Late.exists_pow (hl : Late m poly) (h : Modulus m poly) {f : AdjoinRoot (toPoly poly)}
    (hf : f ≠ 0) : ∃ i < 2^m-1, AdjoinRoot.root (toPoly poly)^i = f := by
  obtain ⟨x, hx, rfl⟩ := exists_elem h f
  have h0 : 0 < x := by
    apply Nat.pos_of_ne_zero
    rintro rfl
    exact hf elem_zero
  obtain ⟨i, hi, rfl⟩ := hl.surjective h h0 hx
  exact ⟨i, hi, (elem_powX i).symm⟩

theorem Late.root_pow (hl : Late m poly) (h : Modulus m poly) :
    AdjoinRoot.root (toPoly poly)^(2^m-1) = 1 := (powX_eq_one_iff h).mp (hl.last h)

/-- Exponents count modulo the order of `X`. -/
theorem Late.root_pow_mod (hl : Late m poly) (h : Modulus m poly) (i : ℕ) :
    AdjoinRoot.root (toPoly poly)^(i%(2^m-1)) = AdjoinRoot.root (toPoly poly)^i := by
  conv_rhs => rw [← Nat.mod_add_div i (2^m-1), pow_add, pow_mul, hl.root_pow h, one_pow, mul_one]

theorem Late.root_pow_injective (hl : Late m poly) (h : Modulus m poly) {i j : ℕ} (hi : i < 2^m-1)
    (hj : j < 2^m-1) (heq : AdjoinRoot.root (toPoly poly)^i = AdjoinRoot.root (toPoly poly)^j) :
    i = j := by
  rw [← elem_powX (m := m), ← elem_powX (m := m)] at heq
  exact hl.injective h hi hj (elem_injective h (powX_lt h i) (powX_lt h j) heq)

/-- A primitive polynomial has no factors. -/
theorem Late.irreducible (hl : Late m poly) (h : Modulus m poly) : Irreducible (toPoly poly) := by
  have hne : toPoly poly ≠ 0 := (monic_toPoly h.lo h.hi).ne_zero
  have hunit {a : (ZMod 2)[X]} (ha : ¬toPoly poly ∣ a) : IsUnit (AdjoinRoot.mk (toPoly poly) a) := by
    have hmk : AdjoinRoot.mk (toPoly poly) a ≠ 0 := fun h0 => ha (AdjoinRoot.mk_eq_zero.mp h0)
    obtain ⟨i, -, hi⟩ := hl.exists_pow h hmk
    rw [← hi]
    exact (root_isUnit h).pow i
  -- a factor that the polynomial divides leaves a unit for the other one
  have hother {a b : (ZMod 2)[X]} (hab : toPoly poly = a*b) (ha : toPoly poly ∣ a) : IsUnit b := by
    obtain ⟨c, hc⟩ := ha
    apply IsUnit.of_mul_eq_one c
    apply mul_left_cancel₀ hne
    calc toPoly poly*(b*c) = toPoly poly*c*b := by ring
      _ = toPoly poly*1 := by rw [← hc, ← hab, mul_one]
  constructor
  · intro hu
    have hdeg := natDegree_eq_zero_of_isUnit hu
    rw [natDegree_toPoly h.lo h.hi] at hdeg
    exact absurd h.pos (by omega)
  · intro a b hab
    by_cases ha : toPoly poly ∣ a
    · exact .inr (hother hab ha)
    · left
      apply hother (hab.trans (mul_comm a b))
      have hzero : AdjoinRoot.mk (toPoly poly) a*AdjoinRoot.mk (toPoly poly) b = 0 := by
        rw [← map_mul, ← hab, AdjoinRoot.mk_self]
      exact AdjoinRoot.mk_eq_zero.mp ((hunit ha).mul_right_eq_zero.mp hzero)

end Elements

section Roots

variable {m poly : ℕ} [hirr : Fact (Irreducible (toPoly poly))]

instance charTwo : CharP (AdjoinRoot (toPoly poly)) 2 :=
  charP_of_injective_algebraMap (algebraMap (ZMod 2) (AdjoinRoot (toPoly poly))).injective 2

/-- Squaring goes through a polynomial over the field of two elements. -/
theorem aeval_sq (p : (ZMod 2)[X]) (x : AdjoinRoot (toPoly poly)) : aeval (x^2) p = (aeval x p)^2 := by
  have hbase : (frobenius (AdjoinRoot (toPoly poly)) 2).comp (algebraMap (ZMod 2) _) =
      algebraMap (ZMod 2) _ := Subsingleton.elim _ _
  calc aeval (x^2) p = p.eval₂ ((frobenius _ 2).comp (algebraMap (ZMod 2) _)) (frobenius _ 2 x) := by
        rw [hbase, frobenius_def]
        rfl
    _ = (aeval x p)^2 := by
        rw [← hom_eval₂, frobenius_def]
        rfl

/-- With a root, its square and all squares of squares are roots. -/
theorem aeval_two_pow {p : (ZMod 2)[X]} {x : AdjoinRoot (toPoly poly)} (h : aeval x p = 0) (j : ℕ) :
    aeval (x^2^j) p = 0 := by
  induction j with
  | zero => rwa [pow_zero, pow_one]
  | succ j ih => rw [pow_succ, pow_mul, aeval_sq, ih, zero_pow two_ne_zero]

/-- The product over the powers of `X` with these exponents. -/
noncomputable def rootsPoly (poly : ℕ) (s : Finset ℕ) : (AdjoinRoot (toPoly poly))[X] :=
  ∏ i ∈ s, (X+C (AdjoinRoot.root (toPoly poly)^i))

theorem rootsPoly_monic (s : Finset ℕ) : (rootsPoly poly s).Monic :=
  monic_prod_of_monic _ _ fun _ _ => monic_X_add_C _

theorem rootsPoly_natDegree (s : Finset ℕ) : (rootsPoly poly s).natDegree = s.card := by
  unfold rootsPoly
  rw [natDegree_prod_of_monic _ _ fun _ _ => monic_X_add_C _]
  simp only [natDegree_X_add_C, Finset.sum_const, smul_eq_mul, mul_one]

/-- Exponents below the order of `X` that are closed under doubling. -/
structure Doubling (m : ℕ) (s : Finset ℕ) : Prop where
  lt : ∀ i ∈ s, i < 2^m-1
  double : ∀ i ∈ s, 2*i%(2^m-1) ∈ s

/-- Doubling an exponent permutes a set that is closed under it, since their modulus is odd. -/
theorem Doubling.image_eq {s : Finset ℕ} (hs : Doubling m s) (hm : 1 ≤ m) :
    s.image (fun i => 2*i%(2^m-1)) = s := by
  have hsub : s.image (fun i => 2*i%(2^m-1)) ⊆ s := by
    intro j hj
    obtain ⟨i, hi, rfl⟩ := Finset.mem_image.mp hj
    exact hs.double i hi
  apply Finset.eq_of_subset_of_card_le hsub
  rw [Finset.card_image_of_injOn]
  intro i hi j hj heq
  have hil := hs.lt i hi
  have hjl := hs.lt j hj
  have hpow : 2^m = 2*2^(m-1) := by rw [← pow_succ', Nat.sub_add_cancel hm]
  have hmod : 2*i ≡ 2*j [MOD 2^m-1] := heq
  have hcop : Nat.gcd (2^m-1) 2 = 1 := by
    rw [← Nat.Coprime, Nat.coprime_two_right, Nat.odd_iff]
    have := Nat.two_pow_pos (m-1)
    omega
  have hij := Nat.ModEq.cancel_left_of_coprime hcop hmod
  exact Nat.ModEq.eq_of_lt_of_lt hij hil hjl

/-- A product over such a set has its coefficients in the field of two elements. -/
theorem coeff_rootsPoly {s : Finset ℕ} (hs : Doubling m s) (h : Modulus m poly) (hl : Late m poly)
    (k : ℕ) : (rootsPoly poly s).coeff k = 0 ∨ (rootsPoly poly s).coeff k = 1 := by
  have hmap : (rootsPoly poly s).map (frobenius _ 2) = rootsPoly poly s := by
    have hfactor (i : ℕ) : (X+C (AdjoinRoot.root (toPoly poly)^i)).map (frobenius _ 2) =
        X+C (AdjoinRoot.root (toPoly poly)^(2*i%(2^m-1))) := by
      rw [Polynomial.map_add, map_X, map_C, frobenius_def, ← pow_mul, hl.root_pow_mod h,
        Nat.mul_comm]
    calc (rootsPoly poly s).map (frobenius _ 2)
        = ∏ i ∈ s, (X+C (AdjoinRoot.root (toPoly poly)^(2*i%(2^m-1)))) := by
          unfold rootsPoly
          rw [Polynomial.map_prod]
          exact Finset.prod_congr rfl fun i _ => hfactor i
      _ = ∏ i ∈ s.image (fun i => 2*i%(2^m-1)), (X+C (AdjoinRoot.root (toPoly poly)^i)) := by
          rw [Finset.prod_image]
          -- as many images as elements, so no two of them are the same
          apply Finset.card_image_iff.mp
          rw [hs.image_eq h.pos]
      _ = rootsPoly poly s := by rw [hs.image_eq h.pos]; rfl
  have hsq : (rootsPoly poly s).coeff k*((rootsPoly poly s).coeff k-1) = 0 := by
    have hcoeff := congrArg (coeff · k) hmap
    rw [coeff_map, frobenius_def] at hcoeff
    rw [mul_sub, mul_one, ← pow_two, hcoeff, sub_self]
  rcases mul_eq_zero.mp hsq with h0 | h1
  · exact .inl h0
  · exact .inr (sub_eq_zero.mp h1)

end Roots

section Minimal

variable {m poly : ℕ} [hirr : Fact (Irreducible (toPoly poly))]

open Classical in
/-- The product of the distinct minimal polynomials of powers of `X`. -/
noncomputable def minimalProduct (poly : ℕ) (A : Finset ℕ) : (ZMod 2)[X] :=
  ∏ p ∈ A.image fun a => minpoly (ZMod 2) (AdjoinRoot.root (toPoly poly)^a), p

theorem isIntegral_root_pow (h : Modulus m poly) (a : ℕ) :
    IsIntegral (ZMod 2) (AdjoinRoot.root (toPoly poly)^a) :=
  (AdjoinRoot.isIntegral_root' (monic_toPoly h.lo h.hi)).pow a

/-- What the product of the minimal polynomials divides: the polynomials with all of the roots. -/
theorem minimalProduct_dvd_iff (h : Modulus m poly) {A : Finset ℕ} {c : (ZMod 2)[X]} :
    minimalProduct poly A ∣ c ↔ ∀ a ∈ A, aeval (AdjoinRoot.root (toPoly poly)^a) c = 0 := by
  classical
  have hirr (a : ℕ) := minpoly.irreducible (isIntegral_root_pow h a)
  have hmonic (a : ℕ) := minpoly.monic (isIntegral_root_pow h a)
  constructor
  · intro hdvd a ha
    have hmem := Finset.mem_image_of_mem
      (fun a => minpoly (ZMod 2) (AdjoinRoot.root (toPoly poly)^a)) ha
    have hfactor := (Finset.dvd_prod_of_mem (fun p => p) hmem).trans hdvd
    exact minpoly.dvd_iff.mp hfactor
  · intro hroots
    apply Finset.prod_dvd_of_coprime
    · intro p hp q hq hne
      obtain ⟨a, -, rfl⟩ := Finset.mem_image.mp (Finset.mem_coe.mp hp)
      obtain ⟨b, -, rfl⟩ := Finset.mem_image.mp (Finset.mem_coe.mp hq)
      apply (hirr a).coprime_iff_not_dvd.mpr
      intro hdvd
      exact hne (eq_of_monic_of_associated (hmonic a) (hmonic b)
        ((hirr a).associated_of_dvd (hirr b) hdvd))
    · intro p hp
      obtain ⟨a, ha, rfl⟩ := Finset.mem_image.mp hp
      exact minpoly.dvd _ _ (hroots a ha)

theorem minimalProduct_monic (h : Modulus m poly) (A : Finset ℕ) : (minimalProduct poly A).Monic := by
  classical
  apply monic_prod_of_monic
  intro p hp
  obtain ⟨a, -, rfl⟩ := Finset.mem_image.mp hp
  exact minpoly.monic (isIntegral_root_pow h a)

/-- A product over the powers of `X` that are squares of squares of those in a set is the product of
the minimal polynomials of these. -/
theorem eq_minimalProduct (h : Modulus m poly) (hl : Late m poly) {A s : Finset ℕ} {g : (ZMod 2)[X]}
    (hg : g.map (algebraMap (ZMod 2) (AdjoinRoot (toPoly poly))) = rootsPoly poly s)
    (hlt : ∀ i ∈ s, i < 2^m-1) (hmem : ∀ a ∈ A, a ∈ s)
    (hof : ∀ i ∈ s, ∃ a ∈ A, ∃ j, AdjoinRoot.root (toPoly poly)^i =
      (AdjoinRoot.root (toPoly poly)^a)^2^j) : g = minimalProduct poly A := by
  have hroot (i : ℕ) : X+C (AdjoinRoot.root (toPoly poly)^i) =
      X-C (AdjoinRoot.root (toPoly poly)^i) := by rw [CharTwo.sub_eq_add]
  have hdvd : minimalProduct poly A ∣ g := by
    rw [minimalProduct_dvd_iff h]
    intro a ha
    rw [aeval_def, ← eval_map, hg, rootsPoly, eval_prod]
    apply Finset.prod_eq_zero (hmem a ha)
    rw [hroot, eval_sub, eval_X, eval_C, sub_self]
  have hdvd' : g ∣ minimalProduct poly A := by
    rw [← map_dvd_map' (algebraMap (ZMod 2) (AdjoinRoot (toPoly poly))), hg]
    apply Finset.prod_dvd_of_coprime
    · intro i hi j hj hne
      have hpow : AdjoinRoot.root (toPoly poly)^i ≠ AdjoinRoot.root (toPoly poly)^j :=
        fun heq => hne (hl.root_pow_injective h (hlt i hi) (hlt j hj) heq)
      change IsCoprime (X+C _) (X+C _)
      rw [hroot, hroot]
      apply isCoprime_X_sub_C_of_isUnit_sub
      exact (sub_ne_zero_of_ne hpow).isUnit
    · intro i hi
      obtain ⟨a, ha, j, hij⟩ := hof i hi
      rw [hroot, dvd_iff_isRoot, IsRoot, eval_map, ← aeval_def, hij]
      exact aeval_two_pow ((minimalProduct_dvd_iff h).mp dvd_rfl a ha) j
  have hmonic : g.Monic := by
    have hinj := (algebraMap (ZMod 2) (AdjoinRoot (toPoly poly))).injective
    apply hinj.monic_map_iff.mpr
    rw [hg]
    exact rootsPoly_monic s
  exact eq_of_monic_of_associated hmonic (minimalProduct_monic h A) (associated_of_dvd_dvd hdvd' hdvd)

end Minimal

section Trace

variable {m poly : ℕ}

/-- The trace to the field of two elements. -/
noncomputable def trace (m : ℕ) (x : AdjoinRoot (toPoly poly)) : AdjoinRoot (toPoly poly) :=
  ∑ j ∈ Finset.range m, x^2^j

variable [hirr : Fact (Irreducible (toPoly poly))]

theorem trace_add (x y : AdjoinRoot (toPoly poly)) : trace m (x+y) = trace m x+trace m y := by
  unfold trace
  rw [← Finset.sum_add_distrib]
  apply Finset.sum_congr rfl
  intro j _
  exact add_pow_char_pow _ _ _ _

theorem pow_two_pow (h : Modulus m poly) (hl : Late m poly) (x : AdjoinRoot (toPoly poly)) :
    x^2^m = x := by
  by_cases hx : x = 0
  · rw [hx, zero_pow (Nat.two_pow_pos m).ne']
  · obtain ⟨i, -, rfl⟩ := hl.exists_pow h hx
    calc (AdjoinRoot.root (toPoly poly)^i)^2^m
        = (AdjoinRoot.root (toPoly poly)^(2^m-1))^i*AdjoinRoot.root (toPoly poly)^i := by
          rw [← pow_mul, ← pow_mul, ← pow_add, Nat.mul_comm (2^m-1), ← Nat.mul_succ,
            Nat.succ_eq_add_one, Nat.sub_add_cancel (Nat.two_pow_pos m)]
      _ = AdjoinRoot.root (toPoly poly)^i := by rw [hl.root_pow h, one_pow, one_mul]

theorem trace_sq (h : Modulus m poly) (hl : Late m poly) (x : AdjoinRoot (toPoly poly)) :
    trace m (x^2) = trace m x := by
  have hshift : trace m (x^2) = ∑ j ∈ Finset.range m, x^2^(j+1) := by
    apply Finset.sum_congr rfl
    intro j _
    rw [← pow_mul, pow_succ']
  have hends : ∑ j ∈ Finset.range m, x^2^(j+1)+x = trace m x+x := by
    calc ∑ j ∈ Finset.range m, x^2^(j+1)+x = ∑ j ∈ Finset.range (m+1), x^2^j := by
          rw [Finset.sum_range_succ', pow_zero, pow_one]
      _ = trace m x+x := by rw [Finset.sum_range_succ, pow_two_pow h hl]; rfl
  rw [hshift]
  exact add_right_cancel hends

theorem trace_eq (h : Modulus m poly) (hl : Late m poly) (x : AdjoinRoot (toPoly poly)) :
    trace m x = 0 ∨ trace m x = 1 := by
  have hsq : (trace m x)^2 = trace m x := by
    calc (trace m x)^2 = ∑ j ∈ Finset.range m, (x^2^j)^2 := CharTwo.sum_sq _ _
      _ = trace m (x^2) := Finset.sum_congr rfl fun j _ => pow_right_comm x _ _
      _ = trace m x := trace_sq h hl x
  have hmul : trace m x*(trace m x-1) = 0 := by rw [mul_sub, mul_one, ← pow_two, hsq, sub_self]
  rcases mul_eq_zero.mp hmul with h0 | h1
  · exact .inl h0
  · exact .inr (sub_eq_zero.mp h1)

theorem trace_sq_add (h : Modulus m poly) (hl : Late m poly) (x : AdjoinRoot (toPoly poly)) :
    trace m (x^2+x) = 0 := by rw [trace_add, trace_sq h hl, CharTwo.add_self_eq_zero]

/-- The trace as a polynomial: half of the elements at most are roots of it. -/
theorem card_trace_zero (h : Modulus m poly) {Z : Finset (AdjoinRoot (toPoly poly))}
    (hZ : ∀ y ∈ Z, trace m y = 0) : Z.card ≤ 2^(m-1) := by
  classical
  let T : (AdjoinRoot (toPoly poly))[X] := ∑ j ∈ Finset.range m, X^2^j
  have hne : T ≠ 0 := by
    intro h0
    have hcoeff : T.coeff 1 = 1 := by
      change (∑ j ∈ Finset.range m, X^2^j : (AdjoinRoot (toPoly poly))[X]).coeff 1 = 1
      rw [finsetSum_coeff, Finset.sum_eq_single 0]
      · rw [pow_zero, coeff_X_pow_self]
      · intro j _ hj
        rw [coeff_X_pow, if_neg (Nat.one_lt_two_pow hj).ne]
      · intro hm
        exact absurd (Finset.mem_range.mpr h.pos) hm
    rw [h0, coeff_zero] at hcoeff
    exact zero_ne_one hcoeff
  have hdeg : T.natDegree ≤ 2^(m-1) := by
    apply natDegree_sum_le_of_forall_le
    intro j hj
    rw [natDegree_X_pow]
    exact Nat.pow_le_pow_right Nat.two_pos (by have := Finset.mem_range.mp hj; omega)
  have hsub : Z ⊆ T.roots.toFinset := by
    intro y hy
    rw [Multiset.mem_toFinset, mem_roots hne, IsRoot, eval_finsetSum]
    simp only [eval_pow, eval_X]
    exact hZ y hy
  calc Z.card ≤ T.roots.toFinset.card := Finset.card_le_card hsub
    _ ≤ Multiset.card T.roots := Multiset.toFinset_card_le _
    _ ≤ T.natDegree := card_roots' T
    _ ≤ 2^(m-1) := hdeg

open Classical in
/-- All elements of the field. -/
noncomputable def elements (m poly : ℕ) : Finset (AdjoinRoot (toPoly poly)) :=
  (Finset.range (2^m)).image (elem poly)

omit hirr in
theorem card_elements (h : Modulus m poly) : (elements m poly).card = 2^m := by
  unfold elements
  rw [Finset.card_image_of_injOn, Finset.card_range]
  intro x hx y hy heq
  exact elem_injective h (Finset.mem_range.mp hx) (Finset.mem_range.mp hy) heq

omit hirr in
theorem two_pow_eq (h : Modulus m poly) : 2^m = 2*2^(m-1) := by
  rw [← pow_succ', Nat.sub_add_cancel h.pos]

/-- Every element of trace zero is a value of `x²+x`: no value is taken more than twice, so half of
the elements are values. -/
theorem exists_sq_add (h : Modulus m poly) (hl : Late m poly) {y : AdjoinRoot (toPoly poly)}
    (hy : trace m y = 0) : ∃ x, x^2+x = y := by
  classical
  let Y := (elements m poly).image fun x => x^2+x
  have hY : ∀ y ∈ Y, trace m y = 0 := by
    intro y hy
    obtain ⟨x, -, rfl⟩ := Finset.mem_image.mp hy
    exact trace_sq_add h hl x
  have htwice : ∀ b ∈ Y, ((elements m poly).filter fun x => x^2+x = b).card ≤ 2 := by
    intro b hb
    obtain ⟨z, -, rfl⟩ := Finset.mem_image.mp hb
    have hsub : ((elements m poly).filter fun x => x^2+x = z^2+z) ⊆ {z, z+1} := by
      intro x hx
      have heq := (Finset.mem_filter.mp hx).2
      have hprod : (x+z)*(x+z+1) = 0 := by
        calc (x+z)*(x+z+1) = (x+z)^2+(x+z) := by ring
          _ = (x^2+x)+(z^2+z) := by rw [CharTwo.add_sq]; ring
          _ = 0 := by rw [heq, CharTwo.add_self_eq_zero]
      rw [Finset.mem_insert, Finset.mem_singleton]
      rcases mul_eq_zero.mp hprod with h0 | h1
      · exact .inl (CharTwo.add_eq_zero.mp h0)
      · right
        rw [add_assoc] at h1
        exact CharTwo.add_eq_zero.mp h1
    exact (Finset.card_le_card hsub).trans Finset.card_le_two
  have hhalf : 2^(m-1) ≤ Y.card := by
    have hle := Finset.card_le_mul_card_image (elements m poly) 2 htwice
    rw [card_elements h, two_pow_eq h] at hle
    exact Nat.le_of_mul_le_mul_left hle Nat.two_pos
  -- with one element more there would be too many of trace zero
  by_contra hnot
  have hmem : y ∉ Y := by
    intro hmem
    obtain ⟨x, -, hx⟩ := Finset.mem_image.mp hmem
    exact hnot ⟨x, hx⟩
  have hmore : ∀ z ∈ insert y Y, trace m z = 0 := by
    intro z hz
    rcases Finset.mem_insert.mp hz with rfl | hz
    · exact hy
    · exact hY z hz
  have hcard := card_trace_zero h hmore
  rw [Finset.card_insert_of_notMem hmem] at hcard
  omega

/-- One of the powers of `X` below `m` has trace one. -/
theorem exists_trace (h : Modulus m poly) (hl : Late m poly) :
    ∃ i < m, trace m (AdjoinRoot.root (toPoly poly)^i) = 1 := by
  by_contra hnot
  have hzero : ∀ i < m, trace m (AdjoinRoot.root (toPoly poly)^i) = 0 := by
    intro i hi
    rcases trace_eq h hl (AdjoinRoot.root (toPoly poly)^i) with h0 | h1
    · exact h0
    · exact absurd ⟨i, hi, h1⟩ hnot
  -- then all sums of them have trace zero, which are all elements
  have hsum : ∀ k ≤ m, ∀ x < 2^k, trace m (elem poly x) = 0 := by
    intro k hk
    induction k with
    | zero =>
      intro x hx
      obtain rfl : x = 0 := by rw [pow_zero] at hx; omega
      rw [elem_zero, trace]
      exact Finset.sum_eq_zero fun j _ => zero_pow (Nat.two_pow_pos j).ne'
    | succ k ih =>
      intro x hx
      have hlow := ih (by omega) (x%2^k) (Nat.mod_lt _ (Nat.two_pow_pos k))
      have hhigh : x/2^k < 2 := by
        rw [Nat.div_lt_iff_lt_mul (Nat.two_pow_pos k), ← pow_succ']
        exact hx
      have hsplit : elem poly x = elem poly (x/2^k)*AdjoinRoot.root (toPoly poly)^k+
          elem poly (x%2^k) := by
        unfold elem
        rw [toPoly_split x k, map_add, map_mul, map_pow, AdjoinRoot.mk_X]
      rw [hsplit, trace_add, hlow, add_zero]
      interval_cases x/2^k
      · rw [elem_zero, zero_mul, trace]
        exact Finset.sum_eq_zero fun j _ => zero_pow (Nat.two_pow_pos j).ne'
      · rw [elem_one, one_mul]
        exact hzero k (by omega)
  have hcard := card_trace_zero h (Z := elements m poly) fun y hy => by
    obtain ⟨x, hx, rfl⟩ := Finset.mem_image.mp hy
    exact hsum m le_rfl x (Finset.mem_range.mp hx)
  rw [card_elements h, two_pow_eq h] at hcard
  have := Nat.two_pow_pos (m-1)
  omega

end Trace

section Distance

variable {F : Type} [Field F]

/-- Vectors of powers: of numbers that are all different, no more than as many exponents as there
are numbers have sum zero. -/
theorem sum_pow_ne_zero {B : Finset F} {w : ℕ} (hB : B.card ≤ w) (hne : B.Nonempty)
    (hpos : ∀ β ∈ B, β ≠ 0) : ∃ i, 1 ≤ i ∧ i ≤ w ∧ ∑ β ∈ B, β^i ≠ 0 := by
  by_contra hnot
  have hzero (i : ℕ) (h1 : 1 ≤ i) (hi : i ≤ w) : ∑ β ∈ B, β^i = 0 := by
    by_contra h
    exact hnot ⟨i, h1, hi, h⟩
  obtain ⟨β₀, hβ₀⟩ := hne
  classical
  -- a polynomial that is zero at all of them but one
  let p : F[X] := ∏ β ∈ B.erase β₀, (X-C β)
  have hdeg : p.natDegree < w := by
    rw [natDegree_prod_of_monic _ _ fun β _ => monic_X_sub_C β]
    simp only [natDegree_X_sub_C, Finset.sum_const, smul_eq_mul, mul_one]
    rw [Finset.card_erase_of_mem hβ₀]
    have := Finset.card_pos.mpr ⟨β₀, hβ₀⟩
    omega
  have hsum : ∑ β ∈ B, β*p.eval β = 0 := by
    calc ∑ β ∈ B, β*p.eval β
        = ∑ β ∈ B, ∑ i ∈ Finset.range w, p.coeff i*β^(i+1) := by
          apply Finset.sum_congr rfl
          intro β _
          rw [eval_eq_sum_range' hdeg, Finset.mul_sum]
          apply Finset.sum_congr rfl
          intro i _
          ring
      _ = ∑ i ∈ Finset.range w, p.coeff i*∑ β ∈ B, β^(i+1) := by
          rw [Finset.sum_comm]
          simp only [Finset.mul_sum]
      _ = 0 := by
          apply Finset.sum_eq_zero
          intro i hi
          rw [hzero (i+1) (by omega) (Finset.mem_range.mp hi), mul_zero]
  rw [Finset.sum_eq_single β₀] at hsum
  · rcases mul_eq_zero.mp hsum with h | h
    · exact hpos β₀ hβ₀ h
    · rw [eval_prod] at h
      obtain ⟨β, hβ, hroot⟩ := Finset.prod_eq_zero_iff.mp h
      rw [eval_sub, eval_X, eval_C, sub_eq_zero] at hroot
      exact (Finset.mem_erase.mp hβ).1 hroot.symm
  · intro β hβ hdiff
    rw [eval_prod, Finset.prod_eq_zero (Finset.mem_erase.mpr ⟨hdiff, hβ⟩), mul_zero]
    rw [eval_sub, eval_X, eval_C, sub_self]
  · exact fun h => absurd hβ₀ h

variable [Algebra (ZMod 2) F]

/-- Where the powers of an element are different below some degree, a polynomial below it that is
zero at the first `w` powers of the element has more than `w` coefficients that are not zero. -/
theorem card_support_of_roots {p : (ZMod 2)[X]} (hp : p ≠ 0) {α : F} {n w : ℕ} (hα : α ≠ 0)
    (hinj : ∀ i < n, ∀ j < n, α^i = α^j → i = j) (hdeg : p.degree < n)
    (hroots : ∀ i, 1 ≤ i → i ≤ w → aeval (α^i) p = 0) : w < p.support.card := by
  classical
  by_contra hle
  have hlt (k : ℕ) (hk : k ∈ p.support) : k < n := by
    by_contra hge
    exact mem_support_iff.mp hk ((degree_lt_iff_coeff_zero _ _).mp hdeg k (not_lt.mp hge))
  have hinj' : Set.InjOn (fun k => α^k) p.support := by
    intro i hi j hj heq
    exact hinj i (hlt i hi) j (hlt j hj) heq
  obtain ⟨i, h1, hi, hsum⟩ := sum_pow_ne_zero (B := p.support.image fun k => α^k) (w := w)
    (Finset.card_image_le.trans (not_lt.mp hle))
    (Finset.image_nonempty.mpr (nonempty_support_iff.mpr hp)) (by
      intro β hβ
      obtain ⟨k, -, rfl⟩ := Finset.mem_image.mp hβ
      exact pow_ne_zero k hα)
  apply hsum
  rw [Finset.sum_image hinj', ← hroots i h1 hi, aeval_eq_sum_range' p.natDegree.lt_succ_self,
    ← Finset.sum_subset (supp_subset_range_natDegree_succ)]
  · apply Finset.sum_congr rfl
    intro k hk
    have hcases : ∀ c : ZMod 2, c ≠ 0 → c = 1 := by decide
    have hone : p.coeff k = 1 := hcases _ (mem_support_iff.mp hk)
    rw [hone, one_smul, ← pow_mul, ← pow_mul, Nat.mul_comm]
  · intro k _ hk
    rw [notMem_support_iff.mp hk, zero_smul]

end Distance

section Power

/-- The product of two numbers: the bits of the second one from number `k` down. -/
def mulBits (m poly a b : ℕ) : ℕ → ℕ
  | 0 => 0
  | k+1 => step m poly (mulBits m poly a (b/2) k) ^^^ if b%2 = 1 then a else 0

/-- A power of `X`, by squaring, for an exponent of `k` bits. -/
def powBits (m poly : ℕ) : ℕ → ℕ → ℕ
  | 0, _ => 1
  | k+1, e =>
    let half := powBits m poly k (e/2)
    let square := mulBits m poly half half m
    if e%2 = 1 then step m poly square else square

variable {m poly : ℕ}

theorem mulBits_eq (h : Modulus m poly) {a b k : ℕ} (ha : a < 2^m) (hb : b < 2^k) :
    mulBits m poly a b k < 2^m ∧ elem poly (mulBits m poly a b k) = elem poly a*elem poly b := by
  induction k generalizing b with
  | zero =>
    obtain rfl : b = 0 := by rw [pow_zero] at hb; omega
    exact ⟨Nat.two_pow_pos m, by rw [mulBits, elem_zero, mul_zero]⟩
  | succ k ih =>
    obtain ⟨hlt, helem⟩ := @ih (b/2) (by rw [pow_succ] at hb; omega)
    have hstep := step_lt h hlt
    have hsplit : elem poly b = elem poly (b/2)*AdjoinRoot.root (toPoly poly)+elem poly (b%2) := by
      unfold elem
      rw [toPoly_split b 1, pow_one, pow_one, map_add, map_mul, AdjoinRoot.mk_X]
    rw [mulBits, elem_xor, elem_step, helem, hsplit]
    rcases Nat.mod_two_eq_zero_or_one b with h0 | h1
    · rw [h0, if_neg (by decide)]
      refine ⟨Nat.xor_lt_two_pow hstep (Nat.two_pow_pos m), ?_⟩
      rw [elem_zero]
      ring
    · rw [h1, if_pos rfl]
      refine ⟨Nat.xor_lt_two_pow hstep ha, ?_⟩
      rw [elem_one]
      ring

theorem powBits_eq (h : Modulus m poly) {e k : ℕ} (he : e < 2^k) :
    powBits m poly k e < 2^m ∧ elem poly (powBits m poly k e) = AdjoinRoot.root (toPoly poly)^e := by
  induction k generalizing e with
  | zero =>
    obtain rfl : e = 0 := by rw [pow_zero] at he; omega
    exact ⟨Nat.one_lt_two_pow_iff.mpr (Nat.ne_of_gt h.pos), by rw [powBits, elem_one, pow_zero]⟩
  | succ k ih =>
    obtain ⟨hlt, helem⟩ := @ih (e/2) (by rw [pow_succ] at he; omega)
    obtain ⟨hlt', hsq⟩ := mulBits_eq h hlt hlt
    rw [helem, ← pow_add] at hsq
    rw [powBits]
    by_cases h1 : e%2 = 1
    · rw [if_pos h1, elem_step, hsq, ← pow_succ']
      refine ⟨step_lt h hlt', ?_⟩
      congr 1
      omega
    · rw [if_neg h1, hsq]
      refine ⟨hlt', ?_⟩
      congr 1
      omega

/-- The order of `X`, from its powers with the exponents `2^m` and `(2^m-1)/p`. -/
theorem orderOf_root_of_powBits (h : Modulus m poly) {ps : List ℕ}
    (hps : ∀ p, p.Prime → p ∣ 2^m-1 → p ∈ ps) (hlast : powBits m poly m (2^m-1) = 1)
    (hne : ∀ p ∈ ps, powBits m poly m ((2^m-1)/p) ≠ 1) :
    orderOf (AdjoinRoot.root (toPoly poly)) = 2^m-1 := by
  have hpos : 0 < 2^m-1 := by
    have := Nat.one_lt_two_pow_iff.mpr (Nat.ne_of_gt h.pos)
    omega
  have hone {e : ℕ} (he : e < 2^m) :
      AdjoinRoot.root (toPoly poly)^e = 1 ↔ powBits m poly m e = 1 := by
    obtain ⟨hlt, helem⟩ := powBits_eq h he
    rw [← helem]
    constructor
    · intro h1
      exact elem_injective h hlt (Nat.one_lt_two_pow_iff.mpr (Nat.ne_of_gt h.pos))
        (h1.trans elem_one.symm)
    · intro h1
      rw [h1, elem_one]
  apply orderOf_eq_of_pow_and_pow_div_prime hpos
  · exact (hone (by omega)).mpr hlast
  · intro p hp hdvd h1
    have hle : (2^m-1)/p ≤ 2^m-1 := Nat.div_le_self _ _
    exact hne p (hps p hp hdvd) ((hone (by omega)).mp h1)

end Power

end ChipTools.BinaryPoly
