import ChipTools.BitField

/-! Fields of different widths that are put together to one number, the first one lowest, and the
memory that holds this number as its lowest byte first. -/
namespace ChipTools.BitField
open Bytes

section Concat

variable {fs : List (ℕ × ℕ)} {v w : ℕ}

/-- The fields, each a value and a width, one behind the other. -/
def concat : List (ℕ × ℕ) → ℕ
  | [] => 0
  | (v, w) :: fs => 2^w*concat fs+v

/-- The values of fields of the given widths. -/
def extract : List ℕ → ℕ → List ℕ
  | [], _ => []
  | w :: ws, x => x%2^w :: extract ws (x/2^w)

/-- Every value has at most its width. -/
def Narrow (fs : List (ℕ × ℕ)) : Prop := ∀ f ∈ fs, f.1 < 2^f.2

theorem Narrow.head (h : Narrow ((v, w) :: fs)) : v < 2^w := h (v, w) List.mem_cons_self

theorem Narrow.tail (h : Narrow ((v, w) :: fs)) : Narrow fs :=
  fun f hf => h f (List.mem_cons_of_mem _ hf)

theorem extract_concat (h : Narrow fs) :
    extract (fs.map Prod.snd) (concat fs) = fs.map Prod.fst := by
  induction fs with
  | nil => rfl
  | cons f fs ih =>
    obtain ⟨v, w⟩ := f
    have hlow : (2^w*concat fs+v)%2^w = v := by
      rw [Nat.mul_add_mod, Nat.mod_eq_of_lt h.head]
    have hhigh : (2^w*concat fs+v)/2^w = concat fs := by
      rw [Nat.mul_add_div (Nat.two_pow_pos w), Nat.div_eq_of_lt h.head, Nat.add_zero]
    rw [List.map_cons, List.map_cons, extract, concat, hlow, hhigh, ih h.tail]

theorem concat_lt (h : Narrow fs) : concat fs < 2^(fs.map Prod.snd).sum := by
  induction fs with
  | nil => exact Nat.zero_lt_one
  | cons f fs ih =>
    obtain ⟨v, w⟩ := f
    have hhead := h.head
    have htail := ih h.tail
    rw [List.map_cons, List.sum_cons, concat]
    calc 2^w*concat fs+v < 2^w*concat fs+2^w := Nat.add_lt_add_left hhead _
      _ = 2^w*(concat fs+1) := (Nat.mul_succ _ _).symm
      _ ≤ 2^w*2^(fs.map Prod.snd).sum := Nat.mul_le_mul_left _ htail
      _ = 2^(w+(fs.map Prod.snd).sum) := (pow_add _ _ _).symm

theorem testBit_concat_cons (hv : v < 2^w) (i : ℕ) :
    (concat ((v, w) :: fs)).testBit i =
      if i < w then v.testBit i else (concat fs).testBit (i-w) := by
  rw [concat]
  exact Nat.testBit_two_pow_mul_add _ hv i

end Concat

section Number

variable {m : ℕ → Byte} {o k x : ℕ}

theorem testBit_leVal (bs : List Byte) (n : ℕ) :
    (leVal bs).testBit n = (bs.getD (n/8) 0#8).getLsbD (n%8) := by
  induction bs generalizing n with
  | nil => simp [leVal]
  | cons b bs ih =>
    have hb : b.toNat < 2^8 := b.isLt
    rw [leVal, Nat.add_comm, show 256 = 2^8 from rfl, Nat.testBit_two_pow_mul_add _ hb]
    by_cases hn : n < 8
    · rw [if_pos hn, Nat.div_eq_of_lt hn, Nat.mod_eq_of_lt hn]
      rfl
    · rw [if_neg hn, ih, show n/8 = (n-8)/8+1 by omega, show n%8 = (n-8)%8 by omega,
        List.getD_cons_succ]

theorem testBit_leVal_readBytes {n : ℕ} (hn : n < 8*k) :
    (leVal (readBytes m o k)).testBit n = bits m (8*o+n) := by
  have hlt : n/8 < k := by omega
  rw [testBit_leVal, readBytes, List.getD_eq_getElem?_getD, List.getElem?_map,
    List.getElem?_range hlt, bits, show (8*o+n)/8 = o+n/8 by omega,
    show (8*o+n)%8 = n%8 by omega]
  rfl

/-- The bytes that hold a number. -/
theorem leVal_readBytes_eq (hx : x < 2^(8*k)) (h : ∀ n < 8*k, bits m (8*o+n) = x.testBit n) :
    leVal (readBytes m o k) = x := by
  have hlt := leVal_lt (readBytes m o k)
  rw [readBytes_length, show 256 = 2^8 from rfl, ← pow_mul] at hlt
  apply Nat.eq_of_testBit_eq
  intro n
  by_cases hn : n < 8*k
  · rw [testBit_leVal_readBytes hn, h n hn]
  · have hpow : 2^(8*k) ≤ 2^n := Nat.pow_le_pow_right (by decide) (by omega)
    rw [Nat.testBit_lt_two_pow (hlt.trans_le hpow), Nat.testBit_lt_two_pow (hx.trans_le hpow)]

end Number

end ChipTools.BitField
