import ChipTools.Bytes

/-! Bit fields of little-endian 32-bit registers. A memory of bytes is also a memory of bits, where
a register that is read, changed in one field and written back is an update of one interval. -/
namespace ChipTools.BitField
open Bytes

/-- A little-endian word. -/
def load32 (m : ℕ → Byte) (o : ℕ) : BitVec 32 := m (o+3) ++ (m (o+2) ++ (m (o+1) ++ m o))

def store32 (m : ℕ → Byte) (o : ℕ) (v : BitVec 32) : ℕ → Byte :=
  fun x => if o ≤ x ∧ x < o+4 then v.extractLsb' (8*(x-o)) 8 else m x

/-- The bits of a memory, lowest first in each byte. -/
def bits (m : ℕ → Byte) (n : ℕ) : Bool := (m (n/8)).getLsbD (n%8)

theorem bits_byte (m : ℕ → Byte) (x : ℕ) {i : ℕ} (hi : i < 8) : bits m (8*x+i) = (m x).getLsbD i := by
  unfold bits
  rw [show (8*x+i)/8 = x by omega, show (8*x+i)%8 = i by omega]

/-- A memory is known by its bits. -/
theorem ext_bits {m m' : ℕ → Byte} (h : ∀ n, bits m n = bits m' n) : m = m' := by
  funext x
  apply BitVec.eq_of_getLsbD_eq
  intro i hi
  have hn := h (8*x+i)
  rwa [bits_byte m x hi, bits_byte m' x hi] at hn

theorem getLsbD_load32 (m : ℕ → Byte) (o : ℕ) {i : ℕ} (hi : i < 32) :
    (load32 m o).getLsbD i = bits m (8*o+i) := by
  have hbyte : ∀ j < 4, 8*j ≤ i → i < 8*j+8 → bits m (8*o+i) = (m (o+j)).getLsbD (i-8*j) := by
    intro j hj hlo hhi
    rw [← bits_byte m (o+j) (show i-8*j < 8 by omega)]
    congr 1
    omega
  -- one case for each byte of the register
  unfold load32
  simp only [BitVec.getLsbD_append]
  split_ifs with h0 h1 h2
  · exact (hbyte 0 (by omega) (by omega) (by omega)).symm
  · exact (hbyte 1 (by omega) (by omega) (by omega)).symm
  · exact (hbyte 2 (by omega) (by omega) (by omega)).symm
  · exact (hbyte 3 (by omega) (by omega) (by omega)).symm

theorem bits_store32 (m : ℕ → Byte) (o : ℕ) (v : BitVec 32) (n : ℕ) :
    bits (store32 m o v) n =
      if 8*o ≤ n ∧ n < 8*o+32 then v.getLsbD (n-8*o) else bits m n := by
  unfold bits store32
  by_cases h : 8*o ≤ n ∧ n < 8*o+32
  · rw [if_pos (by omega), if_pos h, BitVec.getLsbD_extractLsb', decide_eq_true (by omega),
      Bool.true_and]
    congr 1
    omega
  · rw [if_neg (by omega), if_neg h]

section Words

variable {w : ℕ}

/-- `k` bits that are set. -/
def ones (w k : ℕ) : BitVec w := BitVec.ofNat w (2^k-1)

def getField (v : BitVec w) (off k : ℕ) : BitVec w := v >>> off &&& ones w k

def setField (v : BitVec w) (off k : ℕ) (x : BitVec w) : BitVec w :=
  v &&& ~~~(ones w k <<< off) ||| (x &&& ones w k) <<< off

theorem getLsbD_ones (k : ℕ) {i : ℕ} (hi : i < w) : (ones w k).getLsbD i = decide (i < k) := by
  unfold ones
  rw [BitVec.getLsbD_ofNat, decide_eq_true hi, Bool.true_and, Nat.testBit_two_pow_sub_one]

theorem getLsbD_getField (v : BitVec w) (off k : ℕ) {i : ℕ} (hi : i < w) :
    (getField v off k).getLsbD i = (decide (i < k) && v.getLsbD (off+i)) := by
  unfold getField
  rw [BitVec.getLsbD_and, getLsbD_ones k hi, BitVec.getLsbD_ushiftRight, Bool.and_comm]

theorem getLsbD_setField (v x : BitVec w) (off k : ℕ) {i : ℕ} (hi : i < w) :
    (setField v off k x).getLsbD i =
      if off ≤ i ∧ i < off+k then x.getLsbD (i-off) else v.getLsbD i := by
  unfold setField
  rw [BitVec.getLsbD_or, BitVec.getLsbD_and, BitVec.getLsbD_not, BitVec.getLsbD_shiftLeft,
    BitVec.getLsbD_shiftLeft, BitVec.getLsbD_and, getLsbD_ones k (by omega), decide_eq_true hi]
  by_cases hlo : i < off
  · rw [if_neg (by omega)]
    simp [hlo]
  · by_cases hk : i < off+k
    · rw [if_pos (by omega)]
      simp [hlo, show i-off < k by omega]
    · rw [if_neg (by omega)]
      simp [hlo, show ¬i-off < k by omega]

end Words

/-- A field of the register at an address. -/
structure Field where
  addr : ℕ
  off : ℕ
  width : ℕ
  fits : off+width ≤ 32

namespace Field

/-- The first bit of the field. -/
def lo (f : Field) : ℕ := 8*f.addr+f.off

def get (f : Field) (m : ℕ → Byte) : BitVec 32 := getField (load32 m f.addr) f.off f.width

def put (f : Field) (x : BitVec 32) (m : ℕ → Byte) : ℕ → Byte :=
  store32 m f.addr (setField (load32 m f.addr) f.off f.width x)

/-- No bit is in both fields. -/
def Apart (f g : Field) : Prop := f.lo+f.width ≤ g.lo ∨ g.lo+g.width ≤ f.lo

variable {f g : Field} {m m' : ℕ → Byte} {x y : BitVec 32}

theorem getLsbD_get (f : Field) (m : ℕ → Byte) {i : ℕ} (hi : i < 32) :
    (f.get m).getLsbD i = (decide (i < f.width) && bits m (f.lo+i)) := by
  have hfits := f.fits
  unfold get
  rw [getLsbD_getField _ _ _ hi]
  by_cases hw : i < f.width
  · rw [getLsbD_load32 _ _ (by omega), lo, Nat.add_assoc]
  · rw [decide_eq_false hw, Bool.false_and, Bool.false_and]

theorem bits_put (f : Field) (x : BitVec 32) (m : ℕ → Byte) (n : ℕ) :
    bits (f.put x m) n =
      if f.lo ≤ n ∧ n < f.lo+f.width then x.getLsbD (n-f.lo) else bits m n := by
  have hfits := f.fits
  unfold put lo
  rw [bits_store32]
  by_cases h : 8*f.addr ≤ n ∧ n < 8*f.addr+32
  · rw [if_pos h, getLsbD_setField _ _ _ _ (by omega)]
    split_ifs with h1 h2 h2
    · congr 1
      omega
    · omega
    · omega
    · rw [getLsbD_load32 _ _ (by omega)]
      congr 1
      omega
  · rw [if_neg h, if_neg (by omega)]

/-- A field is known by the bits of its interval. -/
theorem get_congr (h : ∀ n, f.lo ≤ n → n < f.lo+f.width → bits m n = bits m' n) :
    f.get m = f.get m' := by
  apply BitVec.eq_of_getLsbD_eq
  intro i hi
  rw [getLsbD_get f m hi, getLsbD_get f m' hi]
  by_cases hw : i < f.width
  · rw [h _ (Nat.le_add_right _ _) (by omega)]
  · rw [decide_eq_false hw, Bool.false_and, Bool.false_and]

theorem get_put (hx : x.toNat < 2^f.width) : f.get (f.put x m) = x := by
  apply BitVec.eq_of_getLsbD_eq
  intro i hi
  rw [getLsbD_get f _ hi, bits_put]
  by_cases hw : i < f.width
  · rw [if_pos (by omega), decide_eq_true hw, Bool.true_and, Nat.add_sub_cancel_left]
  · rw [decide_eq_false hw, Bool.false_and, BitVec.getLsbD]
    exact (Nat.testBit_lt_two_pow (hx.trans_le (Nat.pow_le_pow_right (by decide) (by omega)))).symm

theorem get_put_apart (h : f.Apart g) : f.get (g.put x m) = f.get m := by
  apply get_congr
  intro n hlo hhi
  rw [bits_put, if_neg]
  unfold Apart at h
  omega

theorem put_comm (h : f.Apart g) : f.put x (g.put y m) = g.put y (f.put x m) := by
  apply ext_bits
  intro n
  simp only [bits_put]
  unfold Apart at h
  split_ifs <;> first | rfl | omega

/-- What a field holds already. -/
theorem put_get (hx : x = f.get m) : f.put x m = m := by
  apply ext_bits
  intro n
  have hfits := f.fits
  rw [bits_put]
  split_ifs with h
  · rw [hx, getLsbD_get f m (by omega), decide_eq_true (by omega), Bool.true_and]
    congr 1
    omega
  · rfl

end Field

end ChipTools.BitField
