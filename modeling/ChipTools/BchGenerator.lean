import ChipTools.BinaryField
import ChipTools.GfTables
import ChipTools.WordPoly

/-! The generator polynomial of the BCH code of `nand-image-builder`. Its roots are powers of the
primitive element, its coefficients come out as zeros and ones, and it is the product of the
distinct minimal polynomials of the first `t` odd powers. -/
namespace ChipTools.Bch
open BinaryPoly Polynomial

section Model

def DIV_ROUND_UP (n d : ℕ) : ℕ := (n+d-1)/d

/-- `struct gf_poly`. -/
structure GfPoly where
  deg : ℕ
  c : ℕ → ℕ

/-- The exponents of one row of roots are marked, for `count` more of them. -/
def markRoots (bch : BchControl) : ℕ → ℕ → (ℕ → Bool) → ℕ → Bool
  | 0, _, roots => roots
  | count+1, r, roots =>
    markRoots bch count (mod_s bch (2*r)) (Function.update roots r true)

/-- All roots of the generator polynomial. -/
def enumRoots (bch : BchControl) (t : ℕ) : ℕ → Bool :=
  (List.range t).foldl (fun roots i => markRoots bch bch.m (2*i+1) roots) fun _ => false

/-- The loop over the coefficients, from number `j` down. -/
def mulLoop (bch : BchControl) (r : ℕ) : ℕ → (ℕ → ℕ) → ℕ → ℕ
  | 0, c => Function.update c 0 (gfMul bch (c 0) r)
  | j+1, c => mulLoop bch r j (Function.update c (j+1) (gfMul bch (c (j+1)) r ^^^ c j))

/-- Multiplication by `X+root`. -/
def GfPoly.mulRoot (bch : BchControl) (g : GfPoly) (r : ℕ) : GfPoly :=
  ⟨g.deg+1, mulLoop bch r g.deg (Function.update g.c (g.deg+1) 1)⟩

def buildPoly (bch : BchControl) (roots : ℕ → Bool) (count : ℕ) : GfPoly :=
  (List.range count).foldl
    (fun g i => if roots i then g.mulRoot bch (bch.a_pow_tab i).toNat else g)
    ⟨0, Function.update (fun _ => 0) 0 1⟩

/-- The first `j` bits of the word for the coefficients below `n`. -/
def genWord (c : ℕ → ℕ) (n : ℕ) : ℕ → BitVec 32
  | 0 => 0#32
  | j+1 =>
    let word := genWord c n j
    if c (n-1-j) ≠ 0 then word ||| 1#32 <<< (31-j) else word

/-- The left-justified words of the coefficients below `n`. -/
def genWords (c : ℕ → ℕ) (n : ℕ) : List (BitVec 32) :=
  if n = 0 then []
  else
    let nbits := if 32 < n then 32 else n
    genWord c n nbits :: genWords c (n-nbits)
termination_by n
decreasing_by
  split <;> omega

/-- `compute_generator_polynomial`: the words, and `ecc_bits`. -/
def computeGeneratorPolynomial (bch : BchControl) (t : ℕ) : List (BitVec 32) × ℕ :=
  let g := buildPoly bch (enumRoots bch t) bch.n
  (genWords g.c (g.deg+1), g.deg)

/-- The product of the distinct minimal polynomials of the first `t` odd powers of the root of a
polynomial. -/
noncomputable def generator (poly t : ℕ) : (ZMod 2)[X] :=
  minimalProduct poly ((Finset.range t).image fun i => 2*i+1)

end Model

section Exponents

variable {bch : BchControl} {t : ℕ}

theorem mod_s_eq {v : ℕ} (h : v < 2*bch.n) : mod_s bch v = v%bch.n := by
  unfold mod_s
  by_cases hv : v < bch.n
  · rw [if_pos hv, Nat.mod_eq_of_lt hv]
  · rw [if_neg hv, Nat.mod_eq_sub_mod (Nat.not_lt.mp hv), Nat.mod_eq_of_lt (by omega)]

theorem markRoots_iff {count r : ℕ} (hr : r < bch.n) (roots : ℕ → Bool) (k : ℕ) :
    markRoots bch count r roots k = true ↔
      roots k = true ∨ ∃ j < count, k = r*2^j%bch.n := by
  induction count generalizing r roots with
  | zero =>
    constructor
    · exact Or.inl
    · rintro (h | ⟨j, hj, -⟩)
      · exact h
      · exact absurd hj (Nat.not_lt_zero j)
  | succ count ih =>
    have hdouble : mod_s bch (2*r) = 2*r%bch.n := mod_s_eq (by omega)
    have hnext (j : ℕ) : mod_s bch (2*r)*2^j%bch.n = r*2^(j+1)%bch.n := by
      rw [hdouble, Nat.mod_mul_mod, pow_succ']
      congr 1
      ring
    rw [markRoots, ih (hdouble ▸ Nat.mod_lt _ bch.n_pos), Function.update_apply]
    constructor
    · rintro (h | ⟨j, hj, rfl⟩)
      · by_cases hk : k = r
        · refine .inr ⟨0, Nat.succ_pos _, ?_⟩
          rw [pow_zero, Nat.mul_one, Nat.mod_eq_of_lt hr, hk]
        · rw [if_neg hk] at h
          exact .inl h
      · exact .inr ⟨j+1, Nat.succ_lt_succ hj, hnext j⟩
    · rintro (h | ⟨j, hj, rfl⟩)
      · left
        split
        · rfl
        · exact h
      · cases j with
        | zero =>
          left
          rw [pow_zero, Nat.mul_one, Nat.mod_eq_of_lt hr, if_pos rfl]
        | succ j => exact .inr ⟨j, Nat.lt_of_succ_lt_succ hj, (hnext j).symm⟩

theorem enumRoots_iff (ht : 2*t ≤ bch.n) (k : ℕ) :
    enumRoots bch t k = true ↔ ∃ i < t, ∃ j < bch.m, k = (2*i+1)*2^j%bch.n := by
  induction t with
  | zero =>
    constructor
    · exact fun h => absurd h Bool.false_ne_true
    · rintro ⟨i, hi, -⟩
      exact absurd hi (Nat.not_lt_zero i)
  | succ t ih =>
    unfold enumRoots at ih ⊢
    rw [List.range_succ, List.foldl_append, List.foldl_cons, List.foldl_nil,
      markRoots_iff (by omega), ih (by omega)]
    constructor
    · rintro (⟨i, hi, h⟩ | h)
      · exact ⟨i, Nat.lt_succ_of_lt hi, h⟩
      · exact ⟨t, Nat.lt_succ_self t, h⟩
    · rintro ⟨i, hi, h⟩
      rcases Nat.lt_succ_iff_lt_or_eq.mp hi with hi | rfl
      · exact .inl ⟨i, hi, h⟩
      · exact .inr h

/-- The exponents of the roots. -/
def exponents (bch : BchControl) (t : ℕ) : Finset ℕ :=
  (Finset.range bch.n).filter fun i => enumRoots bch t i = true

theorem mem_exponents (ht : 2*t ≤ bch.n) {k : ℕ} :
    k ∈ exponents bch t ↔ ∃ i < t, ∃ j < bch.m, k = (2*i+1)*2^j%bch.n := by
  unfold exponents
  rw [Finset.mem_filter, Finset.mem_range, enumRoots_iff ht]
  constructor
  · exact fun h => h.2
  · rintro ⟨i, hi, j, hj, rfl⟩
    exact ⟨Nat.mod_lt _ bch.n_pos, i, hi, j, hj, rfl⟩

theorem exponents_doubling (ht : 2*t ≤ bch.n) : Doubling bch.m (exponents bch t) := by
  constructor
  · intro i hi
    rw [← bch.n_eq]
    exact Finset.mem_range.mp (Finset.mem_filter.mp hi).1
  · intro k hk
    obtain ⟨i, hi, j, hj, rfl⟩ := (mem_exponents ht).mp hk
    rw [mem_exponents ht, ← bch.n_eq, Nat.mul_mod_mod]
    have hnext : 2*((2*i+1)*2^j) = (2*i+1)*2^(j+1) := by ring
    rcases Nat.lt_or_eq_of_le (Nat.succ_le_of_lt hj) with hlt | heq
    · exact ⟨i, hi, j+1, hlt, by rw [hnext]⟩
    · -- the row closes: two to the `m` is one
      refine ⟨i, hi, 0, bch.pos, ?_⟩
      have hpow : 2^(j+1) = bch.n+1 := by
        rw [bch.n_eq, Nat.sub_add_cancel (Nat.two_pow_pos _), ← heq]
      rw [hnext, hpow, pow_zero, Nat.mul_one, Nat.mul_succ, Nat.mul_comm _ bch.n,
        Nat.mul_add_mod]

/-- There are no more roots than `t` rows of `m`. -/
theorem card_exponents (ht : 2*t ≤ bch.n) : (exponents bch t).card ≤ bch.m*t := by
  have hsub : exponents bch t ⊆ (Finset.range t ×ˢ Finset.range bch.m).image
      fun p => (2*p.1+1)*2^p.2%bch.n := by
    intro k hk
    obtain ⟨i, hi, j, hj, rfl⟩ := (mem_exponents ht).mp hk
    exact Finset.mem_image.mpr ⟨(i, j), Finset.mem_product.mpr
      ⟨Finset.mem_range.mpr hi, Finset.mem_range.mpr hj⟩, rfl⟩
  calc (exponents bch t).card ≤ (Finset.range t ×ˢ Finset.range bch.m).card :=
        (Finset.card_le_card hsub).trans Finset.card_image_le
    _ = bch.m*t := by rw [Finset.card_product, Finset.card_range, Finset.card_range, Nat.mul_comm]

end Exponents

section Product

variable {bch : BchControl} {poly : BitVec 32} {g : GfPoly}

/-- The coefficients are those of a polynomial over the field. -/
structure GfPoly.Is (bch : BchControl) (poly : BitVec 32) (g : GfPoly)
    (p : (AdjoinRoot (toPoly poly.toNat))[X]) : Prop where
  monic : p.Monic
  deg : p.natDegree = g.deg
  lt : ∀ k ≤ g.deg, g.c k < 2^bch.m
  coeff : ∀ k ≤ g.deg, elem poly.toNat (g.c k) = p.coeff k

theorem mulLoop_eq (r j : ℕ) (c : ℕ → ℕ) (k : ℕ) : mulLoop bch r j c k =
    if j < k then c k
    else if k = 0 then gfMul bch (c 0) r
    else gfMul bch (c k) r ^^^ c (k-1) := by
  induction j generalizing c with
  | zero =>
    rw [mulLoop, Function.update_apply]
    by_cases hk : k = 0
    · rw [if_pos hk, if_neg (by omega), if_pos hk]
    · rw [if_neg hk, if_pos (by omega)]
  | succ j ih =>
    rw [mulLoop, ih]
    rcases Nat.lt_trichotomy k (j+1) with hlt | rfl | hgt
    · -- the entries that come later in the loop were not touched yet
      rw [if_neg (show ¬j < k by omega), if_neg (show ¬j+1 < k by omega),
        Function.update_of_ne (by omega), Function.update_of_ne (by omega),
        Function.update_of_ne (by omega)]
    · rw [if_pos (by omega), if_neg (by omega), if_neg (by omega), Function.update_self,
        Nat.add_sub_cancel]
    · rw [if_pos (by omega), if_pos hgt, Function.update_of_ne (by omega)]

variable [Fact (Irreducible (toPoly poly.toNat))]

theorem GfPoly.Is.mulRoot {p : (AdjoinRoot (toPoly poly.toNat))[X]} (h : g.Is bch poly p)
    (he : Entries bch poly) {i : ℕ} (hi : i < bch.n) :
    (g.mulRoot bch (bch.a_pow_tab i).toNat).Is bch poly
      (p*(X+C (AdjoinRoot.root (toPoly poly.toNat)^i))) := by
  have hpow := he.pow i hi
  have hlt := powX_lt he.modulus i
  have hmul {k : ℕ} (hk : k ≤ g.deg) := he.gfMul_eq (h.lt k hk) hlt
  have hc (k : ℕ) : (g.mulRoot bch (bch.a_pow_tab i).toNat).c k =
      if g.deg < k then Function.update g.c (g.deg+1) 1 k
      else if k = 0 then gfMul bch (g.c 0) (powX bch.m poly.toNat i)
      else gfMul bch (g.c k) (powX bch.m poly.toNat i) ^^^ g.c (k-1) := by
    have hle (k : ℕ) (hk : ¬g.deg < k) : Function.update g.c (g.deg+1) 1 k = g.c k :=
      Function.update_of_ne (by omega) _ _
    change mulLoop bch (bch.a_pow_tab i).toNat g.deg (Function.update g.c (g.deg+1) 1) k = _
    rw [mulLoop_eq, hpow, hle 0 (Nat.not_lt_zero _)]
    by_cases hk : g.deg < k
    · rw [if_pos hk, if_pos hk]
    · rw [if_neg hk, if_neg hk, hle k hk, hle (k-1) (by omega)]
  have hdeg : (g.mulRoot bch (bch.a_pow_tab i).toNat).deg = g.deg+1 := rfl
  constructor
  · exact h.monic.mul (monic_X_add_C _)
  · rw [h.monic.natDegree_mul (monic_X_add_C _), natDegree_X_add_C, h.deg, hdeg]
  · intro k hk
    rw [hc]
    by_cases hk' : g.deg < k
    · obtain rfl : k = g.deg+1 := by omega
      rw [if_pos hk', Function.update_self]
      exact Nat.one_lt_two_pow (Nat.one_le_iff_ne_zero.mp bch.pos)
    · rw [if_neg hk']
      split
      · exact (hmul (Nat.zero_le _)).1
      · exact Nat.xor_lt_two_pow (hmul (Nat.not_lt.mp hk')).1 (h.lt _ (by omega))
  · intro k hk
    rw [hc, mul_add, coeff_add, coeff_mul_C]
    by_cases hk' : g.deg < k
    · obtain rfl : k = g.deg+1 := by omega
      have htop : p.coeff g.deg = 1 := by rw [← h.deg]; exact h.monic.leadingCoeff
      rw [if_pos hk', Function.update_self, elem_one, coeff_mul_X, htop,
        coeff_eq_zero_of_natDegree_lt (by rw [h.deg]; exact hk'), zero_mul, add_zero]
    · have hle := Nat.not_lt.mp hk'
      rw [if_neg hk']
      cases k with
      | zero =>
        rw [if_pos rfl, (hmul hle).2, h.coeff 0 hle, elem_powX, mul_coeff_zero, coeff_X_zero,
          mul_zero, zero_add]
      | succ k =>
        rw [if_neg (Nat.succ_ne_zero k), elem_xor, (hmul hle).2, h.coeff _ hle, elem_powX,
          coeff_mul_X, Nat.add_sub_cancel, h.coeff k (by omega), add_comm]

theorem buildPoly_is (he : Entries bch poly) (roots : ℕ → Bool) {count : ℕ} (hcount : count ≤ bch.n) :
    (buildPoly bch roots count).Is bch poly
      (rootsPoly poly.toNat ((Finset.range count).filter fun i => roots i = true)) := by
  induction count with
  | zero =>
    have hempty : (Finset.range 0).filter (fun i => roots i = true) = ∅ := rfl
    rw [hempty]
    unfold rootsPoly
    rw [Finset.prod_empty]
    constructor
    · exact monic_one
    · exact natDegree_one
    · rintro k hk
      obtain rfl := Nat.le_zero.mp hk
      exact Nat.one_lt_two_pow (Nat.one_le_iff_ne_zero.mp bch.pos)
    · rintro k hk
      obtain rfl := Nat.le_zero.mp hk
      rw [coeff_one_zero]
      exact elem_one
  | succ count ih =>
    have ih := ih (by omega)
    unfold buildPoly at ih ⊢
    rw [List.range_succ, List.foldl_append, List.foldl_cons, List.foldl_nil, Finset.range_add_one,
      Finset.filter_insert]
    by_cases hroot : roots count = true
    · rw [if_pos hroot, if_pos hroot]
      unfold rootsPoly
      rw [Finset.prod_insert (by simp), mul_comm]
      exact ih.mulRoot he (by omega)
    · rw [if_neg hroot, if_neg hroot]
      exact ih

end Product

section Generator

variable {bch : BchControl} {poly : BitVec 32} {t : ℕ} {c : ℕ → ℕ} {n : ℕ}

/-- The polynomial with the coefficients that are not zero. -/
noncomputable def bitPoly (c : ℕ → ℕ) (n : ℕ) : (ZMod 2)[X] :=
  ∑ i ∈ Finset.range n, if c i ≠ 0 then X^i else 0

theorem coeff_bitPoly (c : ℕ → ℕ) (n k : ℕ) :
    (bitPoly c n).coeff k = if k < n ∧ c k ≠ 0 then 1 else 0 := by
  unfold bitPoly
  rw [finsetSum_coeff]
  by_cases hk : k < n
  · rw [Finset.sum_eq_single k]
    · by_cases hc : c k ≠ 0
      · rw [if_pos hc, if_pos ⟨hk, hc⟩, coeff_X_pow_self]
      · rw [if_neg hc, if_neg fun h => hc h.2, coeff_zero]
    · intro i _ hne
      split
      · rw [coeff_X_pow, if_neg hne.symm]
      · exact coeff_zero k
    · intro hmem
      exact absurd (Finset.mem_range.mpr hk) hmem
  · rw [if_neg fun h => hk h.1]
    apply Finset.sum_eq_zero
    intro i hi
    have hi := Finset.mem_range.mp hi
    split
    · rw [coeff_X_pow, if_neg (by omega)]
    · exact coeff_zero k

theorem getLsbD_genWord (c : ℕ → ℕ) (n : ℕ) {j : ℕ} (hj : j ≤ 32) (k : ℕ) :
    (genWord c n j).getLsbD k = decide (k < 32 ∧ 31-k < j ∧ c (n-1-(31-k)) ≠ 0) := by
  induction j with
  | zero =>
    rw [genWord, decide_eq_false (by omega)]
    exact BitVec.getLsbD_zero
  | succ j ih =>
    have ih := ih (by omega)
    rw [genWord]
    by_cases hk : k < 32
    · by_cases hjk : 31-k = j
      · -- the bit of this pass
        have hbit : (1#32 <<< (31-j)).getLsbD k = true := by
          rw [BitVec.getLsbD_shiftLeft, decide_eq_true hk, decide_eq_false (by omega),
            show k-(31-j) = 0 by omega]
          rfl
        by_cases hc : c (n-1-j) ≠ 0
        · rw [if_pos hc, BitVec.getLsbD_or, hbit, Bool.or_true, decide_eq_true]
          exact ⟨hk, by omega, hjk ▸ hc⟩
        · rw [if_neg hc, ih, decide_eq_false (by omega), decide_eq_false]
          exact fun h => hc (hjk ▸ h.2.2)
      · have hbit : (1#32 <<< (31-j)).getLsbD k = false := by
          rw [BitVec.getLsbD_shiftLeft]
          by_cases hlt : k < 31-j
          · rw [decide_eq_true hlt, Bool.not_true, Bool.and_false, Bool.false_and]
          · rw [BitVec.getLsbD_one, decide_eq_false (show ¬k-(31-j) = 0 by omega), Bool.and_false,
              Bool.and_false]
        have hsame : (k < 32 ∧ 31-k < j+1 ∧ c (n-1-(31-k)) ≠ 0) ↔
            (k < 32 ∧ 31-k < j ∧ c (n-1-(31-k)) ≠ 0) := by
          constructor
          · exact fun h => ⟨h.1, by omega, h.2.2⟩
          · exact fun h => ⟨h.1, by omega, h.2.2⟩
        rw [decide_eq_decide.mpr hsame]
        split
        · rw [BitVec.getLsbD_or, hbit, Bool.or_false, ih]
        · exact ih
    · rw [BitVec.getLsbD_of_ge _ _ (by omega), decide_eq_false fun h => hk h.1]

theorem coeff_genWord (c : ℕ → ℕ) (n : ℕ) {j : ℕ} (hj : j ≤ 32) (k : ℕ) :
    (toPoly (genWord c n j).toNat).coeff k =
      if k < 32 ∧ 31-k < j ∧ c (n-1-(31-k)) ≠ 0 then 1 else 0 := by
  rw [coeff_toPoly]
  change (if (genWord c n j).getLsbD k = true then 1 else 0 : ZMod 2) = _
  rw [getLsbD_genWord c n hj]
  simp only [decide_eq_true_eq]

theorem genWords_succ (c : ℕ → ℕ) (h0 : n ≠ 0) : genWords c n =
    genWord c n (if 32 < n then 32 else n) :: genWords c (n-(if 32 < n then 32 else n)) := by
  rw [genWords, if_neg h0]

/-- The words hold the coefficients from the left, with zeros after the last one. -/
theorem genWords_eq (c : ℕ → ℕ) (n : ℕ) : (genWords c n).length = DIV_ROUND_UP n 32 ∧
    wordsPoly (genWords c n) = bitPoly c n*X^(32*DIV_ROUND_UP n 32-n) := by
  induction n using Nat.strong_induction_on with
  | _ n ih =>
    by_cases h0 : n = 0
    · subst h0
      rw [genWords, if_pos rfl]
      refine ⟨rfl, ?_⟩
      rw [wordsPoly, bitPoly, Finset.range_zero, Finset.sum_empty, zero_mul]
    rw [genWords_succ c h0]
    by_cases hn : 32 < n
    · obtain ⟨hlen, hpoly⟩ := ih (n-32) (by omega)
      have hdiv : DIV_ROUND_UP n 32 = DIV_ROUND_UP (n-32) 32+1 := by
        unfold DIV_ROUND_UP
        omega
      have hle : n-32 ≤ 32*DIV_ROUND_UP (n-32) 32 := by
        unfold DIV_ROUND_UP
        omega
      have hsplit : bitPoly c n = toPoly (genWord c n 32).toNat*X^(n-32)+bitPoly c (n-32) := by
        ext k
        rw [coeff_add, coeff_mul_X_pow', coeff_bitPoly, coeff_bitPoly]
        by_cases hk : k < n-32
        · rw [if_neg (Nat.not_le.mpr hk), zero_add]
          simp only [hk, show k < n by omega]
        · rw [if_pos (Nat.not_lt.mp hk), coeff_genWord c n le_rfl,
            if_neg (show ¬(k < n-32 ∧ c k ≠ 0) from fun h => hk h.1), add_zero]
          by_cases hkn : k < n
          · have hi : n-1-(31-(k-(n-32))) = k := by omega
            rw [hi]
            simp only [hkn, show k-(n-32) < 32 by omega, show 31-(k-(n-32)) < 32 by omega, true_and]
          · rw [if_neg fun h => hkn h.1, if_neg fun h => by omega]
      rw [if_pos hn, List.length_cons, hlen, wordsPoly, hlen, hpoly, hdiv]
      refine ⟨rfl, ?_⟩
      have hexp : 32*DIV_ROUND_UP (n-32) 32 = n-32+(32*DIV_ROUND_UP (n-32) 32-(n-32)) :=
        (Nat.add_sub_cancel' hle).symm
      have hexp' : 32*(DIV_ROUND_UP (n-32) 32+1)-n = 32*DIV_ROUND_UP (n-32) 32-(n-32) := by omega
      rw [hsplit, hexp']
      conv_lhs => rw [hexp, Nat.add_sub_cancel_left, pow_add]
      ring
    · have hdiv : DIV_ROUND_UP n 32 = 1 := by
        unfold DIV_ROUND_UP
        omega
      have hword : toPoly (genWord c n n).toNat = bitPoly c n*X^(32-n) := by
        ext k
        rw [coeff_mul_X_pow', coeff_genWord c n (by omega)]
        by_cases hk : 32-n ≤ k
        · rw [if_pos hk, coeff_bitPoly]
          by_cases hk' : k < 32
          · have hi : n-1-(31-k) = k-(32-n) := by omega
            rw [hi]
            simp only [hk', show 31-k < n by omega, show k-(32-n) < n by omega, true_and]
          · rw [if_neg fun h => hk' h.1, if_neg fun h => by omega]
        · rw [if_neg hk, if_neg fun h => by omega]
      rw [if_neg hn, Nat.sub_self, genWords, if_pos rfl, hdiv, Nat.mul_one]
      refine ⟨rfl, ?_⟩
      rw [wordsPoly, wordsPoly, List.length_nil, Nat.mul_zero, pow_zero, mul_one, add_zero, hword]

/-- What `compute_generator_polynomial` returns: the number of ECC bits, and the words of a
polynomial with as many roots. -/
structure Generated (words : List (BitVec 32)) (ecc_bits : ℕ) (g : (ZMod 2)[X]) : Prop where
  monic : g.Monic
  deg : g.natDegree = ecc_bits
  length : words.length = DIV_ROUND_UP (ecc_bits+1) 32
  words : wordsPoly words = g*X^(32*DIV_ROUND_UP (ecc_bits+1) 32-(ecc_bits+1))

/-- The generator polynomial of a field: it has no more than `m*t` roots. -/
theorem computeGeneratorPolynomial_eq (he : Entries bch poly) (h1 : 1 ≤ t) (ht : 2*t ≤ bch.n) :
    Generated (computeGeneratorPolynomial bch t).1 (computeGeneratorPolynomial bch t).2
      (generator poly.toNat t) ∧
    1 ≤ (computeGeneratorPolynomial bch t).2 ∧ (computeGeneratorPolynomial bch t).2 ≤ bch.m*t := by
  have : Fact (Irreducible (toPoly poly.toNat)) := ⟨he.late.irreducible he.modulus⟩
  have hdouble := exponents_doubling ht
  have his := buildPoly_is he (enumRoots bch t) (le_refl bch.n)
  change (buildPoly bch (enumRoots bch t) bch.n).Is bch poly
    (rootsPoly poly.toNat (exponents bch t)) at his
  generalize hg : buildPoly bch (enumRoots bch t) bch.n = g at his
  -- the coefficients are zeros and ones
  have hbits : ∀ k ≤ g.deg, g.c k = 0 ∨ g.c k = 1 := by
    intro k hk
    have hone : 1 < 2^bch.m := Nat.one_lt_two_pow (Nat.one_le_iff_ne_zero.mp bch.pos)
    have hcoeff := his.coeff k hk
    rcases coeff_rootsPoly hdouble he.modulus he.late k with h | h
    · rw [h, ← @elem_zero poly.toNat] at hcoeff
      exact .inl (elem_injective he.modulus (his.lt k hk) (Nat.two_pow_pos _) hcoeff)
    · rw [h, ← @elem_one poly.toNat] at hcoeff
      exact .inr (elem_injective he.modulus (his.lt k hk) hone hcoeff)
  have hmap : (bitPoly g.c (g.deg+1)).map (algebraMap (ZMod 2) _) =
      rootsPoly poly.toNat (exponents bch t) := by
    ext k
    rw [coeff_map, coeff_bitPoly]
    by_cases hk : k ≤ g.deg
    · rw [← his.coeff k hk]
      rcases hbits k hk with h | h
      · rw [h, if_neg fun h => h.2 rfl, map_zero, elem_zero]
      · rw [h, if_pos ⟨Nat.lt_succ_of_le hk, one_ne_zero⟩, map_one, elem_one]
    · rw [if_neg fun h => hk (Nat.le_of_lt_succ h.1), map_zero,
        coeff_eq_zero_of_natDegree_lt (by rw [his.deg]; omega)]
  have heq : bitPoly g.c (g.deg+1) = generator poly.toNat t := by
    apply eq_minimalProduct he.modulus he.late hmap hdouble.lt
    · intro a ha
      obtain ⟨i, hi, rfl⟩ := Finset.mem_image.mp ha
      have hi := Finset.mem_range.mp hi
      refine (mem_exponents ht).mpr ⟨i, hi, 0, bch.pos, ?_⟩
      rw [pow_zero, Nat.mul_one, Nat.mod_eq_of_lt (by omega)]
    · intro k hk
      obtain ⟨i, hi, j, -, rfl⟩ := (mem_exponents ht).mp hk
      refine ⟨2*i+1, Finset.mem_image_of_mem _ (Finset.mem_range.mpr hi), j, ?_⟩
      rw [bch.n_eq, he.late.root_pow_mod he.modulus, pow_mul]
  have hcard : g.deg = (exponents bch t).card := by rw [← his.deg, rootsPoly_natDegree]
  have hpos : 0 < (exponents bch t).card := by
    apply Finset.card_pos.mpr
    exact ⟨1, (mem_exponents ht).mpr ⟨0, h1, 0, bch.pos, by
      rw [pow_zero, Nat.mul_one, Nat.mod_eq_of_lt (by omega)]⟩⟩
  have hmonic := minimalProduct_monic he.modulus ((Finset.range t).image fun i => 2*i+1)
  have hinj := (algebraMap (ZMod 2) (AdjoinRoot (toPoly poly.toNat))).injective
  have hdeg : (generator poly.toNat t).natDegree = g.deg := by
    rw [← heq, ← natDegree_map_eq_of_injective hinj, hmap, his.deg]
  unfold computeGeneratorPolynomial
  dsimp only
  rw [hg]
  obtain ⟨hlen, hwords⟩ := genWords_eq g.c (g.deg+1)
  refine ⟨⟨hmonic, hdeg, hlen, ?_⟩, by omega, ?_⟩
  · rw [hwords, heq]
  · rw [hcard]
    exact card_exponents ht

/-- A polynomial is a multiple of the generator if and only if the first `2t` powers of the
primitive element are roots of it. -/
theorem generator_dvd_iff (he : Entries bch poly) {p : (ZMod 2)[X]} : generator poly.toNat t ∣ p ↔
    ∀ i, 1 ≤ i → i ≤ 2*t → aeval (AdjoinRoot.root (toPoly poly.toNat)^i) p = 0 := by
  have : Fact (Irreducible (toPoly poly.toNat)) := ⟨he.late.irreducible he.modulus⟩
  unfold generator
  rw [minimalProduct_dvd_iff he.modulus]
  constructor
  · intro h i h1 hi
    -- an odd number, doubled some times
    obtain ⟨j, a, ha, rfl⟩ := Nat.exists_eq_two_pow_mul_odd (Nat.one_le_iff_ne_zero.mp h1)
    obtain ⟨b, rfl⟩ := ha
    have hle : 2*b+1 ≤ 2^j*(2*b+1) := Nat.le_mul_of_pos_left _ (Nat.two_pow_pos j)
    have hroot := h (2*b+1) (Finset.mem_image_of_mem _ (Finset.mem_range.mpr (by omega)))
    rw [Nat.mul_comm, pow_mul]
    exact aeval_two_pow hroot j
  · intro h a ha
    obtain ⟨i, hi, rfl⟩ := Finset.mem_image.mp ha
    have hi := Finset.mem_range.mp hi
    exact h _ (by omega) (by omega)

end Generator

end ChipTools.Bch
