import Mathlib.Data.Nat.Notation
import Mathlib.Tactic.Common
import Mathlib.Tactic.Ring

/-! Byte strings: fields of either byte order, and buffers that strings are copied to. -/
namespace ChipTools.Bytes

abbrev Byte := BitVec 8

/-- The `k` low bytes of `v`, lowest first. -/
def le : ℕ → ℕ → List Byte
  | 0, _ => []
  | k+1, v => BitVec.ofNat 8 v :: le k (v/256)

def leVal : List Byte → ℕ
  | [] => 0
  | b :: bs => b.toNat+256*leVal bs

/-- The field of `k` bytes at offset `o`. -/
def field (bs : List Byte) (o k : ℕ) : ℕ := leVal ((bs.drop o).take k)

@[simp] theorem le_length (k v : ℕ) : (le k v).length = k := by
  induction k generalizing v with
  | zero => rfl
  | succ k ih => rw [le, List.length_cons, ih]

theorem leVal_le (k v : ℕ) : leVal (le k v) = v%256^k := by
  induction k generalizing v with
  | zero => rw [pow_zero, Nat.mod_one]; rfl
  | succ k ih =>
    have hpow : 256^(k+1) = 256*256^k := by rw [pow_succ, Nat.mul_comm]
    rw [le, leVal, ih, BitVec.toNat_ofNat, hpow, Nat.mod_mul]

theorem leVal_le_of_lt {k v : ℕ} (h : v < 256^k) : leVal (le k v) = v := by
  rw [leVal_le, Nat.mod_eq_of_lt h]

theorem leVal_lt (bs : List Byte) : leVal bs < 256^bs.length := by
  induction bs with
  | nil => decide
  | cons b bs ih =>
    have hb := b.isLt
    rw [leVal, List.length_cons, pow_succ]
    omega

theorem leVal_append (as bs : List Byte) :
    leVal (as ++ bs) = leVal as+256^as.length*leVal bs := by
  induction as with
  | nil => rw [List.nil_append, List.length_nil, pow_zero, Nat.one_mul, leVal, Nat.zero_add]
  | cons a as ih =>
    rw [List.cons_append, leVal, leVal, ih, List.length_cons, pow_succ]
    ring

/-- The `k` low bytes of `v`, highest first. -/
def be (k v : ℕ) : List Byte := (le k v).reverse

def beVal (bs : List Byte) : ℕ := leVal bs.reverse

/-- The big-endian field of `k` bytes at offset `o`. -/
def beField (bs : List Byte) (o k : ℕ) : ℕ := beVal ((bs.drop o).take k)

@[simp] theorem be_length (k v : ℕ) : (be k v).length = k := by
  rw [be, List.length_reverse, le_length]

theorem beVal_be (k v : ℕ) : beVal (be k v) = v%256^k := by
  rw [beVal, be, List.reverse_reverse, leVal_le]

theorem beVal_be_of_lt {k v : ℕ} (h : v < 256^k) : beVal (be k v) = v := by
  rw [beVal_be, Nat.mod_eq_of_lt h]

/-- Four bytes as a word and back. -/
def word (bs : List Byte) (o : ℕ) : BitVec 32 := BitVec.ofNat 32 (field bs o 4)

/-- A field behind a part of known length. -/
theorem field_append {pre mid post : List Byte} {o k : ℕ} (ho : pre.length = o)
    (hk : mid.length = k) : field (pre ++ (mid ++ post)) o k = leVal mid := by
  subst ho hk
  unfold field
  rw [List.drop_left, List.take_left]

/-- The `k` bytes at an offset behind a first part, or at the start. -/
theorem slice_skip {pre post : List Byte} {o k : ℕ} (ho : pre.length ≤ o) :
    ((pre ++ post).drop o).take k = (post.drop (o-pre.length)).take k := by
  rw [List.drop_append, List.drop_eq_nil_of_le ho, List.nil_append]

theorem slice_head {mid post : List Byte} {k : ℕ} (hk : mid.length = k) :
    ((mid ++ post).drop 0).take k = mid := by
  rw [List.drop_zero, List.take_left' hk]

theorem field_skip {pre post : List Byte} {o k : ℕ} (ho : pre.length ≤ o) :
    field (pre ++ post) o k = field post (o-pre.length) k := by
  rw [field, field, slice_skip ho]

theorem field_le (k v : ℕ) (post : List Byte) : field (le k v ++ post) 0 k = v%256^k := by
  have h := @field_append [] _ post _ _ rfl (le_length k v)
  exact h.trans (leVal_le k v)

/-- A number of `w` bits that is read back. -/
theorem ofNat_mod_toNat {w : ℕ} (v : BitVec w) (k : ℕ) (hk : 256^k = 2^w) :
    BitVec.ofNat w (v.toNat%256^k) = v := by
  rw [hk, Nat.mod_eq_of_lt v.isLt, BitVec.ofNat_toNat, BitVec.setWidth_eq]

theorem beField_append {pre mid post : List Byte} {o k : ℕ} (ho : pre.length = o)
    (hk : mid.length = k) : beField (pre ++ (mid ++ post)) o k = beVal mid := by
  subst ho hk
  unfold beField
  rw [List.drop_left, List.take_left]

/-- A field behind a part, from where that ends. -/
theorem beField_skip {pre post : List Byte} {o k : ℕ} (ho : pre.length ≤ o) :
    beField (pre ++ post) o k = beField post (o-pre.length) k := by
  unfold beField
  rw [List.drop_append, List.drop_eq_nil_of_le ho, List.nil_append]

/-- The field of a number at the start. -/
theorem beField_be (k v : ℕ) (post : List Byte) : beField (be k v ++ post) 0 k = v%256^k := by
  have := @beField_append [] _ post _ _ rfl (be_length k v)
  exact this.trans (beVal_be k v)

theorem beField_be_of_lt {k v : ℕ} (h : v < 256^k) (post : List Byte) :
    beField (be k v ++ post) 0 k = v := (beField_be k v post).trans (Nat.mod_eq_of_lt h)

/-- A field in two parts. -/
theorem beField_add (bs : List Byte) {o m n : ℕ} (h : o+(m+n) ≤ bs.length) :
    beField bs o (m+n) = beField bs o m*256^n+beField bs (o+m) n := by
  have hlen : ((bs.drop (o+m)).take n).length = n := by
    rw [List.length_take, List.length_drop]
    omega
  unfold beField beVal
  rw [List.take_add, List.drop_drop, List.reverse_append, leVal_append, List.length_reverse, hlen,
    Nat.mul_comm]
  exact Nat.add_comm _ _

theorem beField_drop (bs : List Byte) (p o k : ℕ) : beField (bs.drop p) o k = beField bs (p+o) k := by
  rw [beField, beField, List.drop_drop]

theorem beField_take (bs : List Byte) {o k n : ℕ} (h : o+k ≤ n) :
    beField (bs.take n) o k = beField bs o k := by
  rw [beField, beField, List.drop_take, List.take_take, Nat.min_eq_left (by omega)]

theorem beField_lt (bs : List Byte) (o k : ℕ) : beField bs o k < 256^k := by
  have h := leVal_lt ((bs.drop o).take k).reverse
  rw [List.length_reverse] at h
  exact h.trans_le (Nat.pow_le_pow_right (by decide) (List.length_take_le _ _))

theorem beField_cons (b : Byte) (post : List Byte) (o k : ℕ) :
    beField (b :: post) (o+1) k = beField post o k := rfl

/-- A number in four bytes, read as a word. -/
theorem word_append_le {pre post : List Byte} {o : ℕ} (v : ℕ) (ho : pre.length = o) :
    word (pre ++ (le 4 v ++ post)) o = BitVec.ofNat 32 v := by
  rw [word, field_append ho (le_length 4 _), leVal_le]
  apply BitVec.eq_of_toNat_eq
  rw [BitVec.toNat_ofNat, BitVec.toNat_ofNat]
  exact Nat.mod_mod v (2^32)

theorem word_append {pre post : List Byte} {o : ℕ} (w : BitVec 32) (ho : pre.length = o) :
    word (pre ++ (le 4 w.toNat ++ post)) o = w := by
  rw [word_append_le _ ho, BitVec.ofNat_toNat, BitVec.setWidth_eq]

section Buffers

/-- `memcpy` of `bs` to offset `o` of a buffer. -/
def copyTo (buf : ℕ → Byte) (o : ℕ) (bs : List Byte) : ℕ → Byte :=
  fun x => if o ≤ x then bs.getD (x-o) (buf x) else buf x

/-- `memset` of `n` bytes at offset `o`. -/
def setTo (buf : ℕ → Byte) (o n : ℕ) (b : Byte) : ℕ → Byte :=
  fun x => if o ≤ x ∧ x < o+n then b else buf x

/-- The `n` bytes at offset `o`. -/
def readBytes (f : ℕ → Byte) (o n : ℕ) : List Byte := (List.range n).map fun i => f (o+i)

variable {buf : ℕ → Byte} {o n x : ℕ} {b : Byte} {bs : List Byte}

theorem setTo_below (h : x < o) : setTo buf o n b x = buf x := if_neg (by omega)

theorem setTo_above (h : o+n ≤ x) : setTo buf o n b x = buf x := if_neg (by omega)

theorem copyTo_below (h : x < o) : copyTo buf o bs x = buf x := if_neg (by omega)

theorem readBytes_length (f : ℕ → Byte) (o n : ℕ) : (readBytes f o n).length = n := by
  simp [readBytes]

theorem readBytes_eq {f : ℕ → Byte} {o : ℕ} {bs : List Byte}
    (h : ∀ i (hi : i < bs.length), f (o+i) = bs.get ⟨i, hi⟩) :
    readBytes f o bs.length = bs := by
  apply List.ext_getElem (readBytes_length f o _)
  intro i hi hi'
  simpa [readBytes] using h i hi'

theorem readBytes_congr {f g : ℕ → Byte} {o n : ℕ} (h : ∀ i < n, f (o+i) = g (o+i)) :
    readBytes f o n = readBytes g o n := by
  apply List.map_congr_left
  intro i hi
  exact h i (List.mem_range.mp hi)

theorem copyTo_get (i : ℕ) (hi : i < bs.length) :
    copyTo buf o bs (o+i) = bs.get ⟨i, hi⟩ := by
  rw [copyTo, if_pos (Nat.le_add_right o i), Nat.add_sub_cancel_left]
  simp [hi]

/-- Outside of the copied string a buffer stays as it is. -/
theorem copyTo_outside (h : x < o ∨ o+bs.length ≤ x) : copyTo buf o bs x = buf x := by
  rcases h with h | h
  · exact copyTo_below h
  · rw [copyTo, if_pos (by omega), List.getD_eq_getElem?_getD, List.getElem?_eq_none (by omega)]
    rfl

theorem readBytes_add (f : ℕ → Byte) (o n k : ℕ) :
    readBytes f o (n+k) = readBytes f o n ++ readBytes f (o+n) k := by
  simp only [readBytes, List.range_add, List.map_append, List.map_map]
  congr 1
  apply List.map_congr_left
  intro i _
  rw [Function.comp_apply, Nat.add_assoc]

/-- A part of what was read. -/
theorem readBytes_sub (f : ℕ → Byte) {o n : ℕ} (p : ℕ) {k : ℕ} (h : o+k ≤ n) :
    readBytes f (p+o) k = ((readBytes f p n).drop o).take k := by
  obtain ⟨r, rfl⟩ := Nat.exists_eq_add_of_le h
  rw [Nat.add_assoc, readBytes_add, List.drop_left' (readBytes_length f p o), readBytes_add,
    List.take_left' (readBytes_length f (p+o) k)]

theorem readBytes_drop (f : ℕ → Byte) (p : ℕ) {o n : ℕ} (h : o ≤ n) :
    (readBytes f p n).drop o = readBytes f (p+o) (n-o) := by
  obtain ⟨r, rfl⟩ := Nat.exists_eq_add_of_le h
  rw [readBytes_add, List.drop_left' (readBytes_length f p o), Nat.add_sub_cancel_left]

theorem readBytes_take (f : ℕ → Byte) (p : ℕ) {o n : ℕ} (h : o ≤ n) :
    (readBytes f p n).take o = readBytes f p o := by
  obtain ⟨r, rfl⟩ := Nat.exists_eq_add_of_le h
  rw [readBytes_add, List.take_left' (readBytes_length f p o)]

theorem readBytes_copyTo (buf : ℕ → Byte) (o : ℕ) (bs : List Byte) :
    readBytes (copyTo buf o bs) o bs.length = bs := readBytes_eq fun i hi => copyTo_get i hi

theorem readBytes_copyTo_of_length (h : bs.length = n) : readBytes (copyTo buf o bs) o n = bs := by
  rw [← h, readBytes_copyTo]

/-- Two copies, one behind the other. -/
theorem copyTo_append (buf : ℕ → Byte) {o p : ℕ} (as bs : List Byte) (hp : p = o+as.length) :
    copyTo (copyTo buf o as) p bs = copyTo buf o (as ++ bs) := by
  subst hp
  funext x
  by_cases hx : o+as.length ≤ x
  · rw [copyTo, copyTo, copyTo, if_pos hx, if_pos (by omega), if_pos (by omega),
      List.getD_eq_getElem?_getD, List.getD_eq_getElem?_getD, List.getD_eq_getElem?_getD,
      List.getElem?_append_right (by omega), List.getElem?_eq_none (l := as) (by omega),
      Nat.sub_add_eq]
    rfl
  · rw [copyTo_below (by omega)]
    by_cases ho : o ≤ x
    · rw [copyTo, copyTo, if_pos ho, if_pos ho, List.getD_eq_getElem?_getD,
        List.getD_eq_getElem?_getD, List.getElem?_append_left (by omega)]
    · rw [copyTo_below (by omega), copyTo_below (by omega)]

theorem readBytes_copyTo_outside {p : ℕ} (h : p+n ≤ o ∨ o+bs.length ≤ p) :
    readBytes (copyTo buf o bs) p n = readBytes buf p n := by
  apply readBytes_congr
  intro i hi
  exact copyTo_outside (by omega)

theorem readBytes_const (h : ∀ i < n, buf (o+i) = b) : readBytes buf o n = List.replicate n b := by
  rw [List.eq_replicate_iff]
  refine ⟨readBytes_length buf o n, ?_⟩
  intro b' hb
  obtain ⟨i, hi, rfl⟩ := List.mem_map.mp hb
  exact h i (List.mem_range.mp hi)

theorem readBytes_setTo (buf : ℕ → Byte) (o n : ℕ) (b : Byte) :
    readBytes (setTo buf o n b) o n = List.replicate n b :=
  readBytes_const fun i hi => if_pos ⟨by omega, by omega⟩

theorem readBytes_setTo_below {p k : ℕ} (h : p+k ≤ o) :
    readBytes (setTo buf o n b) p k = readBytes buf p k :=
  readBytes_congr fun i hi => setTo_below (by omega)

end Buffers

end ChipTools.Bytes
