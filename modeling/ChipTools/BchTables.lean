import ChipTools.BchGenerator
import ChipTools.Loop

/-! The tables that `build_mod8_tables` makes for the BCH encoder: the remainders, left-justified in
words, of the polynomials of eight bits at the four places of a word. -/
namespace ChipTools.Bch
open BinaryPoly Polynomial Loop

section Model

/-- Why a function returns no structure: it returns `NULL`, or a loop takes more passes than its
bound. -/
inductive Stop
  | null
  | passes
deriving DecidableEq, Repr

/-- Words from `base` on are changed by those of a row. -/
def xorRow (tab : ℕ → BitVec 32) (base count : ℕ) (row : ℕ → BitVec 32) : ℕ → BitVec 32 :=
  fun k => if base ≤ k ∧ k < base+count then tab k ^^^ row (k-base) else tab k

/-- `hi|lo` of the word `j`. -/
def subWord (g : ℕ → BitVec 32) (plen d j : ℕ) : BitVec 32 :=
  let hi := if d < 31 then g j <<< (d+1) else 0#32
  let lo := if j+1 < plen then g (j+1) >>> (31-d) else 0#32
  hi ||| lo

/-- The loop over the bits of `data`, with a bound on its passes. -/
def reduceData (g : ℕ → BitVec 32) (plen ecclen base : ℕ) :
    ℕ → BitVec 32 → (ℕ → BitVec 32) → Except Stop (ℕ → BitVec 32)
  | 0, data, tab => if data = 0#32 then .ok tab else .error .passes
  | fuel+1, data, tab =>
    if data = 0#32 then .ok tab
    else
      let d := deg data
      -- subtract X^d.g(X) from p(X).X^(8*b+deg(g))
      reduceData g plen ecclen base fuel (data ^^^ g 0 >>> (31-d))
        (xorRow tab base ecclen (subWord g plen d))

/-- `build_mod8_tables`, for `l` words in a row. -/
def buildMod8Tables (fuel l ecc_bits : ℕ) (g : List (BitVec 32)) : Except Stop (ℕ → BitVec 32) :=
  let plen := DIV_ROUND_UP (ecc_bits+1) 32
  let ecclen := DIV_ROUND_UP ecc_bits 32
  forRange (fun i tab =>
      forRange (fun b tab =>
        reduceData (fun j => g.getD j 0#32) plen ecclen ((b*256+i)*l) fuel
          (BitVec.ofNat 32 i <<< (8*b)) tab) 4 0 tab)
    256 0 fun _ => 0#32

/-- A row of the table. -/
def tabRow (tab : ℕ → BitVec 32) (base l : ℕ) : List (BitVec 32) :=
  (List.range l).map fun j => tab (base+j)

/-- A polynomial of degree `32*l` with the same remainders, but for the zeros on the right. -/
noncomputable def padded (g : (ZMod 2)[X]) (l : ℕ) : (ZMod 2)[X] := g*X^(32*l-g.natDegree)

/-- Each row of the tables is the remainder of the bits of its number at its place. -/
def Remainders (g : (ZMod 2)[X]) (l : ℕ) (tab : ℕ → BitVec 32) : Prop :=
  ∀ b < 4, ∀ i < 256, padded g l ∣
    wordsPoly (tabRow tab ((b*256+i)*l) l)+toPoly i*X^(8*b+32*l)

end Model

section Words

variable {words : List (BitVec 32)} {ecc_bits : ℕ} {g : (ZMod 2)[X]}

theorem list_eq_range (xs : List (BitVec 32)) :
    (List.range xs.length).map (fun j => xs.getD j 0#32) = xs := by
  apply List.ext_getElem
  · rw [List.length_map, List.length_range]
  · intro j hj hj'
    rw [List.getElem_map, List.getElem_range, List.getD_eq_getElem?_getD,
      List.getElem?_eq_getElem hj', Option.getD_some]

theorem getD_beyond (xs : List (BitVec 32)) {j : ℕ} (h : xs.length ≤ j) : xs.getD j 0#32 = 0#32 := by
  rw [List.getD_eq_getElem?_getD, List.getElem?_eq_none h, Option.getD_none]

/-- The highest bit of the first word is that of the polynomial. -/
theorem Generated.top (h : Generated words ecc_bits g) : 2^31 ≤ (words.getD 0 0#32).toNat := by
  have hlen := h.length
  have hpos : 1 ≤ DIV_ROUND_UP (ecc_bits+1) 32 := by unfold DIV_ROUND_UP; omega
  have hle : ecc_bits+1 ≤ 32*DIV_ROUND_UP (ecc_bits+1) 32 := by unfold DIV_ROUND_UP; omega
  cases words with
  | nil => rw [List.length_nil] at hlen; omega
  | cons x xs =>
    rw [List.length_cons] at hlen
    have hcoeff := congrArg (coeff · (32*DIV_ROUND_UP (ecc_bits+1) 32-1)) h.words
    have hxs := (degree_lt_iff_coeff_zero _ _).mp (wordsPoly_degree xs)
      (32*DIV_ROUND_UP (ecc_bits+1) 32-1) (by omega)
    have hone : g.coeff ecc_bits = 1 := by rw [← h.deg]; exact h.monic.leadingCoeff
    rw [wordsPoly, coeff_add, hxs, add_zero, coeff_mul_X_pow', if_pos (by omega), coeff_mul_X_pow',
      if_pos (by omega), show 32*DIV_ROUND_UP (ecc_bits+1) 32-1-32*xs.length = 31 by omega,
      show 32*DIV_ROUND_UP (ecc_bits+1) 32-1-(32*DIV_ROUND_UP (ecc_bits+1) 32-(ecc_bits+1)) =
        ecc_bits by omega, hone, coeff_toPoly] at hcoeff
    have hbit : x.toNat.testBit 31 = true := by
      by_contra hbit
      rw [if_neg hbit] at hcoeff
      exact zero_ne_one hcoeff
    exact Nat.ge_two_pow_of_testBit hbit

theorem subWord_eq {f : ℕ → BitVec 32} {plen d : ℕ} (hd : d < 32) (hf : ∀ j, plen ≤ j → f j = 0#32)
    (j : ℕ) : subWord f plen d j = shiftWord (d+1) (f j) (f (j+1)) := by
  have hhi : (if d < 31 then f j <<< (d+1) else 0#32) = f j <<< (d+1) := by
    by_cases h : d < 31
    · rw [if_pos h]
    · rw [if_neg h, show d+1 = 32 by omega, BitVec.shiftLeft_eq_zero le_rfl]
  have hlo : (if j+1 < plen then f (j+1) >>> (31-d) else 0#32) = f (j+1) >>> (31-d) := by
    by_cases h : j+1 < plen
    · rw [if_pos h]
    · rw [if_neg h, hf _ (Nat.not_lt.mp h), BitVec.zero_ushiftRight]
  unfold subWord shiftWord
  rw [hhi, hlo, show 32-(d+1) = 31-d by omega]

/-- The words that are subtracted in a pass, with the bits that leave `data`. -/
theorem Generated.sub (h : Generated words ecc_bits g) {d : ℕ} (hd : d < 32) :
    wordsPoly ((List.range (DIV_ROUND_UP ecc_bits 32)).map
      (subWord (fun j => words.getD j 0#32) (DIV_ROUND_UP (ecc_bits+1) 32) d))+
      toPoly (words.getD 0 0#32 >>> (31-d)).toNat*X^(32*DIV_ROUND_UP ecc_bits 32) =
    g*X^(32*DIV_ROUND_UP ecc_bits 32-ecc_bits+d) := by
  generalize hE : DIV_ROUND_UP ecc_bits 32 = E
  have hlo : ecc_bits ≤ 32*E := by rw [← hE]; unfold DIV_ROUND_UP; omega
  have hbeyond (j : ℕ) (hj : DIV_ROUND_UP (ecc_bits+1) 32 ≤ j) : words.getD j 0#32 = 0#32 :=
    getD_beyond words (by rw [h.length]; exact hj)
  have hsub : (List.range E).map (subWord (fun j => words.getD j 0#32)
      (DIV_ROUND_UP (ecc_bits+1) 32) d) =
      (List.range E).map fun j => shiftWord (d+1) (words.getD j 0#32) (words.getD (j+1) 0#32) :=
    List.map_congr_left fun j _ => subWord_eq hd hbeyond j
  rw [hsub, wordsPoly_shift (show d+1 ≤ 32 by omega) (fun j => words.getD j 0#32) E,
    show 32-(d+1) = 31-d by omega]
  have hwords := h.words
  rw [← list_eq_range words, h.length] at hwords
  have hcancel (a b : (ZMod 2)[X]) : a+b+b = a := by linear_combination b*two_eq_zero
  rw [add_right_comm, hcancel]
  by_cases hplen : DIV_ROUND_UP (ecc_bits+1) 32 = E
  · -- no word behind those of the remainder
    rw [hplen] at hwords
    have hlt : ecc_bits+1 ≤ 32*E := by rw [← hplen]; unfold DIV_ROUND_UP; omega
    rw [hwords, hbeyond E (by rw [hplen]), BitVec.zero_ushiftRight, BitVec.toNat_zero, toPoly_zero,
      add_zero, mul_assoc, ← pow_add, show 32*E-(ecc_bits+1)+(d+1) = 32*E-ecc_bits+d by omega]
  · -- one more word, for the last coefficient alone
    have hnext : DIV_ROUND_UP (ecc_bits+1) 32 = E+1 ∧ ecc_bits = 32*E := by
      unfold DIV_ROUND_UP at hE hplen ⊢
      omega
    rw [hnext.1, wordsPoly_range_succ, show 32*(E+1)-(ecc_bits+1) = 31 by omega] at hwords
    generalize words.getD E 0#32 = x at hwords ⊢
    have hlow : toPoly (x.toNat%2^31) = 0 := by
      apply eq_zero_of_dvd_of_degree_lt (p := X^31)
      · rw [toPoly_split x.toNat 31] at hwords
        refine ⟨g+wordsPoly ((List.range E).map fun j => words.getD j 0#32)*X+
          toPoly (x.toNat/2^31), ?_⟩
        linear_combination hwords-(wordsPoly ((List.range E).map fun j => words.getD j 0#32)*X^32+
          toPoly (x.toNat/2^31)*X^31)*two_eq_zero
      · rw [degree_X_pow]
        exact degree_toPoly_lt (Nat.mod_lt _ (Nat.two_pow_pos 31))
    have hdvd : 2^31*(x.toNat/2^31) = x.toNat := by
      have hzero := toPoly_injective (hlow.trans toPoly_zero.symm)
      have := Nat.div_add_mod x.toNat (2^31)
      omega
    have hshift : toPoly (x >>> (31-d)).toNat = toPoly (x.toNat/2^31)*X^d := by
      have hsplit : x.toNat = 2^(31-d)*(2^d*(x.toNat/2^31)) := by
        rw [← Nat.mul_assoc, ← pow_add, show 31-d+d = 31 by omega, hdvd]
      rw [← toPoly_two_pow_mul, BitVec.toNat_ushiftRight, Nat.shiftRight_eq_div_pow]
      conv_lhs => rw [hsplit]
      rw [Nat.mul_div_cancel_left _ (Nat.two_pow_pos _)]
    have hg : wordsPoly ((List.range E).map fun j => words.getD j 0#32)*X+toPoly (x.toNat/2^31) =
        g := by
      apply mul_right_cancel₀ (pow_ne_zero 31 X_ne_zero)
      rw [toPoly_split x.toNat 31, hlow] at hwords
      linear_combination hwords
    rw [hshift, ← hnext.2, Nat.sub_self, Nat.zero_add, ← hg]
    ring

end Words

section Rows

variable {words : List (BitVec 32)} {ecc_bits : ℕ} {g : (ZMod 2)[X]} {tab tab' : ℕ → BitVec 32}
variable {base l fuel : ℕ} {data : BitVec 32}

/-- Numbers with the same highest bit: their difference does not have it. -/
theorem xor_lt_two_pow {a b d : ℕ} (ha : 2^d ≤ a) (ha' : a < 2^(d+1)) (hb : 2^d ≤ b)
    (hb' : b < 2^(d+1)) : a ^^^ b < 2^d := by
  have htop {x : ℕ} (hx : 2^d ≤ x) (hx' : x < 2^(d+1)) : x.testBit d = true := by
    rw [Nat.testBit_eq_decide_div_mod_eq, Nat.div_eq_of_lt_le (k := 1) (by omega)
      (by rw [pow_succ] at hx'; omega)]
    decide
  apply Nat.lt_pow_two_of_testBit
  intro i hi
  rw [Nat.testBit_xor]
  rcases Nat.eq_or_lt_of_le hi with rfl | hlt
  · rw [htop ha ha', htop hb hb', Bool.xor_self]
  · have hpow : 2^(d+1) ≤ 2^i := Nat.pow_le_pow_right Nat.two_pos hlt
    rw [Nat.testBit_lt_two_pow (ha'.trans_le hpow), Nat.testBit_lt_two_pow (hb'.trans_le hpow),
      Bool.xor_self]

theorem xorRow_outside {count k : ℕ} {row : ℕ → BitVec 32} (h : k < base ∨ base+count ≤ k) :
    xorRow tab base count row k = tab k := if_neg (by omega)

/-- A changed row, where the change has no more words than the row. -/
theorem wordsPoly_xorRow {count : ℕ} (hcount : count ≤ l) (row : ℕ → BitVec 32) :
    wordsPoly (tabRow (xorRow tab base count row) base l) = wordsPoly (tabRow tab base l)+
      wordsPoly ((List.range count).map row)*X^(32*(l-count)) := by
  have hrow : tabRow (xorRow tab base count row) base l =
      (List.range l).map fun j => tab (base+j) ^^^ if j < count then row j else 0#32 := by
    apply List.map_congr_left
    intro j _
    unfold xorRow
    by_cases hj : j < count
    · rw [if_pos (by omega), if_pos hj, Nat.add_sub_cancel_left]
    · rw [if_neg (by omega), if_neg hj, BitVec.xor_zero]
  have htail (n : ℕ) : wordsPoly ((List.range (count+n)).map
      fun j => if j < count then row j else 0#32) =
      wordsPoly ((List.range count).map row)*X^(32*n) := by
    induction n with
    | zero =>
      rw [Nat.add_zero, Nat.mul_zero, pow_zero, mul_one]
      congr 1
      exact List.map_congr_left fun j hj => if_pos (List.mem_range.mp hj)
    | succ n ih =>
      rw [← Nat.add_assoc, wordsPoly_range_succ, ih, if_neg (by omega), BitVec.toNat_zero,
        toPoly_zero, add_zero, mul_assoc, ← pow_add, Nat.mul_succ]
  rw [hrow, wordsPoly_range_xor, ← htail, Nat.add_sub_cancel' hcount]
  rfl

/-- The loop subtracts multiples of the polynomial until nothing of `data` is left, and changes no
other row. -/
theorem reduceData_ok (h : Generated words ecc_bits g) (hl : ecc_bits ≤ 32*l)
    (hdata : data.toNat < 2^fuel) (hfuel : fuel ≤ 32) :
    ∃ tab', reduceData (fun j => words.getD j 0#32) (DIV_ROUND_UP (ecc_bits+1) 32)
        (DIV_ROUND_UP ecc_bits 32) base fuel data tab = .ok tab' ∧
      (∀ k, k < base ∨ base+l ≤ k → tab' k = tab k) ∧
      padded g l ∣ wordsPoly (tabRow tab' base l)+
        (wordsPoly (tabRow tab base l)+toPoly data.toNat*X^(32*l)) := by
  have hdone (tab : ℕ → BitVec 32) : padded g l ∣ wordsPoly (tabRow tab base l)+
      (wordsPoly (tabRow tab base l)+toPoly (0#32).toNat*X^(32*l)) := by
    refine ⟨0, ?_⟩
    rw [BitVec.toNat_zero, toPoly_zero]
    linear_combination wordsPoly (tabRow tab base l)*two_eq_zero
  -- the number of bits that are left bounds the passes
  induction fuel generalizing data tab with
  | zero =>
    have hzero : data = 0#32 := BitVec.eq_of_toNat_eq (by rw [pow_zero] at hdata; simpa using hdata)
    subst hzero
    exact ⟨tab, rfl, fun _ _ => rfl, hdone tab⟩
  | succ fuel ih =>
    rw [reduceData]
    by_cases hzero : data = 0#32
    · rw [if_pos hzero, hzero]
      exact ⟨tab, rfl, fun _ _ => rfl, hdone tab⟩
    · rw [if_neg hzero]
      have hpos : 0 < data.toNat := by
        apply Nat.pos_of_ne_zero
        intro h0
        exact hzero (BitVec.eq_of_toNat_eq h0)
      obtain ⟨h1, hlo, hhi⟩ := Ubifs.fls_bounds hpos data.isLt
      have hdeg : deg data+1 = Ubifs.fls data.toNat := Nat.sub_add_cancel h1
      rw [← hdeg] at hhi
      have hlo : 2^deg data ≤ data.toNat := hlo
      have hd : deg data ≤ fuel := by
        by_contra hgt
        have := Nat.pow_le_pow_right Nat.two_pos (show fuel+1 ≤ deg data by omega)
        omega
      have hd' : deg data < 32 := by omega
      have htop := h.top
      have hshift : (words.getD 0 0#32 >>> (31-deg data)).toNat =
          (words.getD 0 0#32).toNat/2^(31-deg data) := by
        rw [BitVec.toNat_ushiftRight, Nat.shiftRight_eq_div_pow]
      have hnext : (data ^^^ words.getD 0 0#32 >>> (31-deg data)).toNat < 2^deg data := by
        rw [BitVec.toNat_xor, hshift]
        apply xor_lt_two_pow hlo hhi
        · rw [Nat.le_div_iff_mul_le (Nat.two_pow_pos _), ← pow_add,
            show deg data+(31-deg data) = 31 by omega]
          exact htop
        · rw [Nat.div_lt_iff_lt_mul (Nat.two_pow_pos _), ← pow_add,
            show deg data+1+(31-deg data) = 32 by omega]
          exact (words.getD 0 0#32).isLt
      obtain ⟨tab', hok, hsame, hdvd⟩ := @ih (xorRow tab base (DIV_ROUND_UP ecc_bits 32)
        (subWord (fun j => words.getD j 0#32) (DIV_ROUND_UP (ecc_bits+1) 32) (deg data)))
        (data ^^^ words.getD 0 0#32 >>> (31-deg data))
        (hnext.trans_le (Nat.pow_le_pow_right Nat.two_pos hd)) (by omega)
      have hE : DIV_ROUND_UP ecc_bits 32 ≤ l := by unfold DIV_ROUND_UP; omega
      have hE' : ecc_bits ≤ 32*DIV_ROUND_UP ecc_bits 32 := by unfold DIV_ROUND_UP; omega
      refine ⟨tab', hok, fun k hk => ?_, ?_⟩
      · rw [hsame k hk, xorRow_outside (by omega)]
      · -- what is subtracted is a multiple of the polynomial
        have hsub := h.sub hd'
        have hpow : (X^(32*l) : (ZMod 2)[X]) = X^(32*DIV_ROUND_UP ecc_bits 32)*
            X^(32*(l-DIV_ROUND_UP ecc_bits 32)) := by
          rw [← pow_add]
          congr 1
          omega
        have hmultiple : padded g l*X^deg data =
            g*X^(32*DIV_ROUND_UP ecc_bits 32-ecc_bits+deg data)*
              X^(32*(l-DIV_ROUND_UP ecc_bits 32)) := by
          unfold padded
          rw [h.deg, mul_assoc, mul_assoc, ← pow_add, ← pow_add]
          congr 2
          omega
        rw [wordsPoly_xorRow hE, BitVec.toNat_xor, toPoly_xor] at hdvd
        have hsum := dvd_add hdvd (Dvd.intro (X^deg data) rfl : padded g l ∣ padded g l*X^deg data)
        rw [hmultiple, ← hsub] at hsum
        refine hsum.trans (dvd_of_eq ?_)
        rw [hpow]
        linear_combination (wordsPoly ((List.range (DIV_ROUND_UP ecc_bits 32)).map
          (subWord (fun j => words.getD j 0#32) (DIV_ROUND_UP (ecc_bits+1) 32) (deg data)))*
            X^(32*(l-DIV_ROUND_UP ecc_bits 32))+
          toPoly (words.getD 0 0#32 >>> (31-deg data)).toNat*X^(32*DIV_ROUND_UP ecc_bits 32)*
            X^(32*(l-DIV_ROUND_UP ecc_bits 32)))*two_eq_zero

/-- A loop that has come to its end takes no more passes. -/
theorem reduceData_mono {f : ℕ → BitVec 32} {plen ecclen fuel' : ℕ}
    (h : reduceData f plen ecclen base fuel data tab = .ok tab') (hle : fuel ≤ fuel') :
    reduceData f plen ecclen base fuel' data tab = .ok tab' := by
  induction fuel generalizing fuel' data tab with
  | zero =>
    rw [reduceData] at h
    by_cases hzero : data = 0#32
    · rw [if_pos hzero] at h
      cases fuel' with
      | zero => rw [reduceData, if_pos hzero, h]
      | succ fuel' => rw [reduceData, if_pos hzero, h]
    · rw [if_neg hzero] at h
      cases h
  | succ fuel ih =>
    obtain ⟨fuel', rfl⟩ := Nat.exists_eq_add_of_le' (show 1 ≤ fuel' by omega)
    rw [reduceData] at h ⊢
    by_cases hzero : data = 0#32
    · rw [if_pos hzero] at h ⊢
      exact h
    · rw [if_neg hzero] at h ⊢
      exact ih h (by omega)

/-- The rows before number `i`, and those of number `i` at the first `b` places, are filled, and the
others are zero. -/
def Filled (g : (ZMod 2)[X]) (l i b : ℕ) (tab : ℕ → BitVec 32) : Prop :=
  ∀ b' < 4, ∀ i' < 256,
    if i' < i ∨ (i' = i ∧ b' < b) then
      padded g l ∣ wordsPoly (tabRow tab ((b'*256+i')*l) l)+toPoly i'*X^(8*b'+32*l)
    else ∀ j < l, tab ((b'*256+i')*l+j) = 0#32

theorem tabRow_congr (h : ∀ j < l, tab' (base+j) = tab (base+j)) :
    tabRow tab' base l = tabRow tab base l :=
  List.map_congr_left fun j hj => h j (List.mem_range.mp hj)

/-- Different rows have no entry in common. -/
theorem rows_apart {p q j : ℕ} (hpq : p ≠ q) (hj : j < l) : p*l+j < q*l ∨ q*l+l ≤ p*l+j := by
  rcases Nat.lt_or_gt_of_ne hpq with hlt | hgt
  · have := Nat.mul_le_mul_right l (Nat.succ_le_of_lt hlt)
    rw [Nat.succ_mul] at this
    omega
  · have := Nat.mul_le_mul_right l (Nat.succ_le_of_lt hgt)
    rw [Nat.succ_mul] at this
    omega

theorem Filled.step (h : Generated words ecc_bits g) (hl : ecc_bits ≤ 32*l) (hfuel : 32 ≤ fuel)
    {i b : ℕ} (hi : i < 256) (hb : b < 4) (hf : Filled g l i b tab) :
    ∃ tab', reduceData (fun j => words.getD j 0#32) (DIV_ROUND_UP (ecc_bits+1) 32)
        (DIV_ROUND_UP ecc_bits 32) ((b*256+i)*l) fuel (BitVec.ofNat 32 i <<< (8*b)) tab = .ok tab' ∧
      Filled g l i (b+1) tab' := by
  have hdata : (BitVec.ofNat 32 i <<< (8*b)).toNat = 2^(8*b)*i := by
    have hpow : 2^(8*b) ≤ 2^24 := Nat.pow_le_pow_right Nat.two_pos (by omega)
    have hle : i*2^(8*b) ≤ 255*2^24 := Nat.mul_le_mul (by omega) hpow
    have hmod : i%2^32 = i := Nat.mod_eq_of_lt (by omega)
    rw [BitVec.toNat_shiftLeft, BitVec.toNat_ofNat, hmod, Nat.shiftLeft_eq,
      Nat.mod_eq_of_lt (by omega), Nat.mul_comm]
  -- more passes than 32 change nothing
  obtain ⟨tab', hok, hsame, hdvd⟩ := @reduceData_ok words ecc_bits g tab ((b*256+i)*l) l 32
    (BitVec.ofNat 32 i <<< (8*b)) h hl (BitVec.isLt _) le_rfl
  have hmono := reduceData_mono hok hfuel
  refine ⟨tab', hmono, ?_⟩
  intro b' hb' i' hi'
  have hrow := hf b' hb' i' hi'
  by_cases heq : b' = b ∧ i' = i
  · obtain ⟨rfl, rfl⟩ := heq
    rw [if_neg (by omega)] at hrow
    rw [if_pos (by omega)]
    have hzero : wordsPoly (tabRow tab ((b'*256+i')*l) l) = 0 := by
      unfold tabRow
      rw [List.map_congr_left (g := fun _ => 0#32) fun j hj => hrow j (List.mem_range.mp hj)]
      exact wordsPoly_range_zero l
    rw [hzero, zero_add, hdata, toPoly_two_pow_mul, mul_assoc, ← pow_add] at hdvd
    exact hdvd
  · have hne : b'*256+i' ≠ b*256+i := by omega
    have hkeep (j : ℕ) (hj : j < l) : tab' ((b'*256+i')*l+j) = tab ((b'*256+i')*l+j) :=
      hsame _ (rows_apart hne hj)
    have hiff : (i' < i ∨ (i' = i ∧ b' < b+1)) ↔ (i' < i ∨ (i' = i ∧ b' < b)) := by omega
    by_cases hdone : i' < i ∨ (i' = i ∧ b' < b)
    · rw [if_pos hdone] at hrow
      rw [if_pos (hiff.mpr hdone), tabRow_congr hkeep]
      exact hrow
    · rw [if_neg hdone] at hrow
      rw [if_neg fun h => hdone (hiff.mp h)]
      intro j hj
      rw [hkeep j hj, hrow j hj]

/-- `build_mod8_tables` comes to its end, with the remainders of all bytes at all places. -/
theorem buildMod8Tables_ok (h : Generated words ecc_bits g) (hl : ecc_bits ≤ 32*l)
    (hfuel : 32 ≤ fuel) :
    ∃ tab, buildMod8Tables fuel l ecc_bits words = .ok tab ∧ Remainders g l tab := by
  have hstart : Filled g l 0 0 fun _ => 0#32 := by
    intro b _ i _
    rw [if_neg (by omega)]
    exact fun _ _ => rfl
  obtain ⟨tab, hok, hfilled⟩ := forRange_total (n := 256) (i := 0)
    (P := fun i tab => Filled g l i 0 tab) (fun i tab _ hi hf => by
      obtain ⟨tab', hok, hf'⟩ := forRange_total (n := 4) (i := 0)
        (P := fun b tab => Filled g l i b tab)
        (fun b tab _ hb hf => hf.step h hl hfuel (by omega) (by omega)) hf
      refine ⟨tab', hok, ?_⟩
      -- all four places of a number, none of the next one
      intro b hb i' hi'
      have hrow := hf' b hb i' hi'
      have hiff : (i' < i+1 ∨ (i' = i+1 ∧ b < 0)) ↔ (i' < i ∨ (i' = i ∧ b < 0+4)) := by omega
      by_cases hdone : i' < i ∨ (i' = i ∧ b < 0+4)
      · rw [if_pos hdone] at hrow
        rw [if_pos (hiff.mpr hdone)]
        exact hrow
      · rw [if_neg hdone] at hrow
        rw [if_neg fun h => hdone (hiff.mp h)]
        exact hrow) hstart
  refine ⟨tab, hok, fun b hb i hi => ?_⟩
  have hrow := hfilled b hb i hi
  rw [if_pos (by omega)] at hrow
  exact hrow

end Rows

end ChipTools.Bch
