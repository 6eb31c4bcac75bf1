import ChipTools.BinaryPoly

/-! Words of one width, the most significant first, as the polynomial of all of their bits: shifts
across the words, and the numbers below a power of two as the elements of the field. -/
namespace ChipTools.BinaryPoly
open Polynomial

section Concat

variable {a b k : ℕ}

theorem two_eq_zero : (2 : (ZMod 2)[X]) = 0 := by
  have h : (C 2 : (ZMod 2)[X]) = C 0 := congrArg C (by decide)
  rwa [map_zero] at h

/-- A number that is put together from two. -/
theorem toPoly_concat (a : ℕ) (hb : b < 2^k) : toPoly (2^k*a+b) = toPoly a*X^k+toPoly b := by
  ext i
  rw [coeff_add, coeff_mul_X_pow', coeff_toPoly, coeff_toPoly, coeff_toPoly,
    Nat.testBit_two_pow_mul_add _ hb]
  by_cases hi : i < k
  · rw [if_pos hi, if_neg (Nat.not_le.mpr hi), zero_add]
  · rw [if_neg hi, if_pos (Nat.not_lt.mp hi), Nat.testBit_lt_two_pow
      (hb.trans_le (Nat.pow_le_pow_right Nat.two_pos (Nat.not_lt.mp hi))), if_neg Bool.false_ne_true,
      add_zero]

theorem toPoly_two_pow_mul (a k : ℕ) : toPoly (2^k*a) = toPoly a*X^k := by
  have h := toPoly_concat a (Nat.two_pow_pos k)
  rwa [Nat.add_zero, toPoly_zero, add_zero] at h

/-- The high and the low bits of a number. -/
theorem toPoly_split (a k : ℕ) : toPoly a = toPoly (a/2^k)*X^k+toPoly (a%2^k) := by
  rw [← toPoly_concat _ (Nat.mod_lt _ (Nat.two_pow_pos k)), Nat.div_add_mod]

end Concat

section Words

variable {w : ℕ}

/-- The polynomial of a list of words. -/
noncomputable def wordsPoly : List (BitVec w) → (ZMod 2)[X]
  | [] => 0
  | x :: xs => toPoly x.toNat*X^(w*xs.length)+wordsPoly xs

theorem wordsPoly_nil : wordsPoly ([] : List (BitVec w)) = 0 := rfl

theorem wordsPoly_cons (x : BitVec w) (xs : List (BitVec w)) :
    wordsPoly (x :: xs) = toPoly x.toNat*X^(w*xs.length)+wordsPoly xs := rfl

theorem wordsPoly_append (xs ys : List (BitVec w)) :
    wordsPoly (xs ++ ys) = wordsPoly xs*X^(w*ys.length)+wordsPoly ys := by
  induction xs with
  | nil => rw [List.nil_append, wordsPoly_nil, zero_mul, zero_add]
  | cons x xs ih =>
    rw [List.cons_append, wordsPoly_cons, wordsPoly_cons, ih, List.length_append, Nat.mul_add, pow_add]
    ring

theorem wordsPoly_singleton (x : BitVec w) : wordsPoly [x] = toPoly x.toNat := by
  rw [wordsPoly_cons, wordsPoly_nil, List.length_nil, Nat.mul_zero, pow_zero, mul_one, add_zero]

theorem wordsPoly_replicate_zero (n : ℕ) : wordsPoly (List.replicate n (0 : BitVec w)) = 0 := by
  induction n with
  | zero => rfl
  | succ n ih =>
    rw [List.replicate_succ, wordsPoly_cons, ih, show (0 : BitVec w).toNat = 0 from BitVec.toNat_zero,
      toPoly_zero, zero_mul, zero_add]

theorem wordsPoly_degree (xs : List (BitVec w)) : (wordsPoly xs).degree < (w*xs.length : ℕ) := by
  induction xs with
  | nil =>
    rw [wordsPoly_nil, degree_zero]
    exact WithBot.bot_lt_coe _
  | cons x xs ih =>
    have hmono : w*xs.length ≤ w*(x :: xs).length := Nat.mul_le_mul_left _ (Nat.le_succ _)
    apply lt_of_le_of_lt (degree_add_le _ _)
    apply max_lt
    · rw [degree_mul_X_pow, List.length_cons, Nat.mul_succ, Nat.add_comm, Nat.cast_add]
      exact WithBot.add_lt_add_right (WithBot.coe_ne_bot) (degree_toPoly_lt x.isLt)
    · exact ih.trans_le (Nat.cast_le.mpr hmono)

/-- Lists of one length with the same polynomial are the same. -/
theorem wordsPoly_injective {xs ys : List (BitVec w)} (hlen : xs.length = ys.length)
    (h : wordsPoly xs = wordsPoly ys) : xs = ys := by
  induction xs generalizing ys with
  | nil => exact (List.length_eq_zero_iff.mp hlen.symm).symm
  | cons x xs ih =>
    cases ys with
    | nil => exact absurd hlen (Nat.succ_ne_zero _)
    | cons y ys =>
      have hlen' : xs.length = ys.length := Nat.succ.inj hlen
      rw [wordsPoly_cons, wordsPoly_cons, hlen'] at h
      have hx : ((wordsPoly xs).degree < (w*ys.length : ℕ)) := hlen' ▸ wordsPoly_degree xs
      -- the coefficients from the first word on and those below it
      have hcoeff (i : ℕ) := congrArg (coeff · i) h
      have hlow : wordsPoly xs = wordsPoly ys := by
        ext i
        by_cases hi : i < w*ys.length
        · have := hcoeff i
          rwa [coeff_add, coeff_add, coeff_mul_X_pow', coeff_mul_X_pow', if_neg (Nat.not_le.mpr hi),
            if_neg (Nat.not_le.mpr hi), zero_add, zero_add] at this
        · have hle : w*ys.length ≤ i := Nat.not_lt.mp hi
          rw [(degree_lt_iff_coeff_zero _ _).mp hx i hle,
            (degree_lt_iff_coeff_zero _ _).mp (wordsPoly_degree ys) i hle]
      rw [hlow, add_left_inj] at h
      have hhead := mul_right_cancel₀ (pow_ne_zero _ X_ne_zero) h
      rw [ih hlen' hlow, BitVec.eq_of_toNat_eq (toPoly_injective hhead)]

/-- A table of words, the polynomial of its first entries. -/
theorem wordsPoly_range_succ (f : ℕ → BitVec w) (n : ℕ) :
    wordsPoly ((List.range (n+1)).map f) =
      wordsPoly ((List.range n).map f)*X^w+toPoly (f n).toNat := by
  rw [List.range_succ, List.map_append, wordsPoly_append, List.map_singleton, wordsPoly_singleton,
    List.length_singleton, Nat.mul_one]

theorem wordsPoly_range_xor (f g : ℕ → BitVec w) (n : ℕ) :
    wordsPoly ((List.range n).map fun i => f i ^^^ g i) =
      wordsPoly ((List.range n).map f)+wordsPoly ((List.range n).map g) := by
  induction n with
  | zero => exact (add_zero _).symm
  | succ n ih =>
    rw [wordsPoly_range_succ, wordsPoly_range_succ, wordsPoly_range_succ, ih, BitVec.toNat_xor,
      toPoly_xor]
    ring

/-- The words after the first one move up. -/
theorem wordsPoly_range_tail (f : ℕ → BitVec w) (n : ℕ) :
    wordsPoly ((List.range n).map fun i => f (i+1))+toPoly (f 0).toNat*X^(w*n) =
      wordsPoly ((List.range (n+1)).map f) := by
  rw [List.range_succ_eq_map, List.map_cons, wordsPoly_cons, List.map_map, List.length_map,
    List.length_range, add_comm]
  rfl

theorem wordsPoly_range_zero (n : ℕ) : wordsPoly ((List.range n).map fun _ => (0 : BitVec w)) = 0 := by
  rw [List.map_const', List.length_range]
  exact wordsPoly_replicate_zero n

end Words

section Shift

variable {w k : ℕ}

/-- A word shifted left, with the high bits of the next one. -/
def shiftWord (k : ℕ) (x y : BitVec w) : BitVec w := x <<< k ||| y >>> (w-k)

theorem toNat_shiftWord (hk : k ≤ w) (x y : BitVec w) :
    (shiftWord k x y).toNat = 2^k*(x.toNat%2^(w-k))+y.toNat/2^(w-k) := by
  have hy : y.toNat/2^(w-k) < 2^k := by
    rw [Nat.div_lt_iff_lt_mul (Nat.two_pow_pos _), ← pow_add, Nat.add_sub_cancel' hk]
    exact y.isLt
  apply Nat.eq_of_testBit_eq
  intro i
  rw [Nat.testBit_two_pow_mul_add _ hy]
  change (x <<< k ||| y >>> (w-k)).getLsbD i = _
  rw [BitVec.getLsbD_or, BitVec.getLsbD_shiftLeft, BitVec.getLsbD_ushiftRight]
  by_cases hi : i < k
  · rw [if_pos hi, decide_eq_true hi, Nat.testBit_div_two_pow, Bool.not_true, Bool.and_false,
      Bool.false_and, Bool.false_or, Nat.add_comm]
    rfl
  · rw [if_neg hi, decide_eq_false hi, Nat.testBit_mod_two_pow, Bool.not_false, Bool.and_true,
      BitVec.getLsbD_of_ge y _ (by omega), Bool.or_false,
      decide_eq_decide.mpr (show i < w ↔ i-k < w-k by omega)]
    rfl

theorem toPoly_shiftWord (hk : k ≤ w) (x y : BitVec w) :
    toPoly (shiftWord k x y).toNat = toPoly x.toNat*X^k+toPoly (x >>> (w-k)).toNat*X^w+
      toPoly (y >>> (w-k)).toNat := by
  have hy : y.toNat/2^(w-k) < 2^k := by
    rw [Nat.div_lt_iff_lt_mul (Nat.two_pow_pos _), ← pow_add, Nat.add_sub_cancel' hk]
    exact y.isLt
  have hpow : (X^w : (ZMod 2)[X]) = X^(w-k)*X^k := by rw [← pow_add, Nat.sub_add_cancel hk]
  rw [toNat_shiftWord hk, toPoly_concat _ hy, toPoly_split x.toNat (w-k), BitVec.toNat_ushiftRight,
    BitVec.toNat_ushiftRight, Nat.shiftRight_eq_div_pow, Nat.shiftRight_eq_div_pow, hpow]
  linear_combination -(toPoly (x.toNat/2^(w-k))*X^(w-k)*X^k)*two_eq_zero

/-- Shifted words: what leaves the first one at the top, and what comes in behind the last one. -/
theorem wordsPoly_shift (hk : k ≤ w) (f : ℕ → BitVec w) (n : ℕ) :
    wordsPoly ((List.range n).map fun i => shiftWord k (f i) (f (i+1))) =
      wordsPoly ((List.range n).map f)*X^k+toPoly (f 0 >>> (w-k)).toNat*X^(w*n)+
        toPoly (f n >>> (w-k)).toNat := by
  induction n with
  | zero =>
    rw [List.range_zero, List.map_nil, List.map_nil, wordsPoly_nil, Nat.mul_zero, pow_zero]
    linear_combination -toPoly (f 0 >>> (w-k)).toNat*two_eq_zero
  | succ n ih =>
    rw [wordsPoly_range_succ, wordsPoly_range_succ, ih, toPoly_shiftWord hk, Nat.mul_succ, pow_add]
    linear_combination toPoly (f n >>> (w-k)).toNat*X^w*two_eq_zero

end Shift

end ChipTools.BinaryPoly
