import ChipTools.BchTables
import ChipTools.Bytes

/-! The BCH encoder of `nand-image-builder`: byte for byte, and on the words between the unaligned
bytes at both ends of the data. Both ways leave the remainder of the data in the parity words. -/
namespace ChipTools.Bch
open BinaryPoly Polynomial Bytes

section Model

/-- The members of `struct bch_control` that `init_bch` sets, without the buffers of the decoder. -/
structure BchCodec extends BchControl where
  t : ℕ
  ecc_bits : ℕ
  ecc_bytes : ℕ
  mod8_tab : ℕ → BitVec 32
  xi_tab : ℕ → ℕ

namespace BchCodec

variable (bch : BchCodec)

/-- `BCH_ECC_WORDS`. -/
def eccWords : ℕ := DIV_ROUND_UP (bch.m*bch.t) 32

/-- `BCH_ECC_BYTES`. -/
def eccBytes : ℕ := DIV_ROUND_UP (bch.m*bch.t) 8

/-- A pass of the loop of `encode_bch_unaligned`. -/
def encodeByte (ecc : List (BitVec 32)) (b : Byte) : List (BitVec 32) :=
  let l := bch.eccWords-1
  let p := (l+1)*((ecc.getD 0 0#32 >>> 24 ^^^ b.setWidth 32) &&& 0xff#32).toNat
  ((List.range l).map fun i =>
    (ecc.getD i 0#32 <<< 8 ||| ecc.getD (i+1) 0#32 >>> 24) ^^^ bch.mod8_tab (p+i)) ++
    [ecc.getD l 0#32 <<< 8 ^^^ bch.mod8_tab (p+l)]

def encodeBchUnaligned (data : List Byte) (ecc : List (BitVec 32)) : List (BitVec 32) :=
  data.foldl bch.encodeByte ecc

/-- A pass of the loop over the aligned words, for a word of the data. -/
def encodeWord (r : List (BitVec 32)) (d : BitVec 32) : List (BitVec 32) :=
  let l := bch.eccWords-1
  let w := r.getD 0 0#32 ^^^ d
  let tab1 := 256*(l+1)
  let tab2 := tab1+256*(l+1)
  let tab3 := tab2+256*(l+1)
  let p0 := (l+1)*(w >>> 0 &&& 0xff#32).toNat
  let p1 := tab1+(l+1)*(w >>> 8 &&& 0xff#32).toNat
  let p2 := tab2+(l+1)*(w >>> 16 &&& 0xff#32).toNat
  let p3 := tab3+(l+1)*(w >>> 24 &&& 0xff#32).toNat
  let tab := bch.mod8_tab
  ((List.range l).map fun i =>
    r.getD (i+1) 0#32 ^^^ tab (p0+i) ^^^ tab (p1+i) ^^^ tab (p2+i) ^^^ tab (p3+i)) ++
    [tab (p0+l) ^^^ tab (p1+l) ^^^ tab (p2+l) ^^^ tab (p3+l)]

end BchCodec

/-- Four bytes in big-endian format. -/
def beWord (b0 b1 b2 b3 : Byte) : BitVec 32 := b0 ++ (b1 ++ (b2 ++ b3))

def wordBytes (w : BitVec 32) : List Byte :=
  [(w >>> 24).setWidth 8, (w >>> 16).setWidth 8, (w >>> 8).setWidth 8, (w >>> 0).setWidth 8]

namespace BchCodec

variable (bch : BchCodec)

/-- The loop over the aligned words. -/
def encodeWords : ℕ → List Byte → List (BitVec 32) → List (BitVec 32)
  | 0, _, r => r
  | mlen+1, data, r =>
    let d := beWord (data.getD 0 0#8) (data.getD 1 0#8) (data.getD 2 0#8) (data.getD 3 0#8)
    encodeWords mlen (data.drop 4) (bch.encodeWord r d)

/-- `load_ecc8`. -/
def loadEcc8 (src : List Byte) : List (BitVec 32) :=
  let nwords := bch.eccWords-1
  let pad := (src.drop (4*nwords)).take (bch.eccBytes-4*nwords)
  ((List.range nwords).map fun i => beWord (src.getD (4*i) 0#8) (src.getD (4*i+1) 0#8)
    (src.getD (4*i+2) 0#8) (src.getD (4*i+3) 0#8)) ++
    [beWord (pad.getD 0 0#8) (pad.getD 1 0#8) (pad.getD 2 0#8) (pad.getD 3 0#8)]

/-- `store_ecc8`. -/
def storeEcc8 (src : List (BitVec 32)) : List Byte :=
  let nwords := bch.eccWords-1
  ((List.range nwords).flatMap fun i => wordBytes (src.getD i 0#32)) ++
    (wordBytes (src.getD nwords 0#32)).take (bch.eccBytes-4*nwords)

/-- The data of `encode_bch` at an address, from the parity words on. -/
def encodeData (addr : ℕ) (data : List Byte) (ecc_buf : List (BitVec 32)) : List (BitVec 32) :=
  -- process first unaligned data bytes
  let m := addr%4
  let mlen := if m ≠ 0 then if data.length < 4-m then data.length else 4-m else 0
  let ecc_buf := bch.encodeBchUnaligned (data.take mlen) ecc_buf
  let data := data.drop mlen
  -- process 32-bit aligned data words
  let r := bch.encodeWords (data.length/4) data ecc_buf
  -- process last unaligned bytes
  bch.encodeBchUnaligned (data.drop (4*(data.length/4))) r

/-- `encode_bch`: what it leaves in `ecc_buf` and, where there is one, in the parity buffer. -/
def encodeBch (addr : ℕ) (data : List Byte) (ecc : Option (List Byte)) :
    List (BitVec 32) × Option (List Byte) :=
  let ecc_buf := match ecc with
    | some ecc => bch.loadEcc8 ecc
    | none => List.replicate bch.eccWords 0#32
  let ecc_buf := bch.encodeData addr data ecc_buf
  (ecc_buf, ecc.map fun _ => bch.storeEcc8 ecc_buf)

/-- Calls for the parts of some data, each at its address, with one parity buffer that is zero at
the start. -/
def encodeCalls (calls : List (ℕ × List Byte)) : Option (List Byte) :=
  calls.foldl (fun ecc call => (bch.encodeBch call.1 call.2 ecc).2)
    (some (List.replicate bch.eccBytes 0#8))

end BchCodec

end Model

section Steps

variable {bch : BchCodec} {g : (ZMod 2)[X]}

theorem toPoly_and_ff (w : BitVec 32) (k : ℕ) :
    (w >>> (8*k) &&& 0xff#32).toNat = w.toNat/2^(8*k)%2^8 := by
  rw [BitVec.toNat_and, BitVec.toNat_ushiftRight, Nat.shiftRight_eq_div_pow]
  exact Nat.and_two_pow_sub_one_eq_mod _ 8

/-- A word as four polynomials of eight coefficients. -/
theorem toPoly_bytes (w : BitVec 32) : toPoly w.toNat =
    toPoly (w.toNat/2^(8*0)%2^8)*X^(8*0)+toPoly (w.toNat/2^(8*1)%2^8)*X^(8*1)+
      toPoly (w.toNat/2^(8*2)%2^8)*X^(8*2)+toPoly (w.toNat/2^(8*3)%2^8)*X^(8*3) := by
  have htop : w.toNat/2^(8*3)%2^8 = w.toNat/2^(8*3) := by
    apply Nat.mod_eq_of_lt
    rw [Nat.div_lt_iff_lt_mul (by decide)]
    exact w.isLt
  have hdiv (k : ℕ) : w.toNat/2^(8*k)/2^8 = w.toNat/2^(8*(k+1)) := by
    rw [Nat.div_div_eq_div_mul, ← pow_add, Nat.mul_succ]
  have h0 := toPoly_split w.toNat 8
  have h1 := toPoly_split (w.toNat/2^(8*1)) 8
  have h2 := toPoly_split (w.toNat/2^(8*2)) 8
  rw [htop]
  rw [hdiv] at h1 h2
  simp only [Nat.mul_zero, Nat.mul_one, pow_zero, Nat.div_one] at h0 h1 h2 ⊢
  rw [h0, h1, h2]
  ring

theorem getD_length (xs : List (BitVec 32)) : xs.getD xs.length 0#32 = 0#32 := getD_beyond xs le_rfl

/-- What the table has for the number of a row. -/
theorem row_dvd {l : ℕ} {tab : ℕ → BitVec 32} (h : Remainders g l tab) {b i p : ℕ} (hb : b < 4)
    (hi : i < 256) (hp : p = b*(256*l)+l*i) : padded g l ∣
      wordsPoly ((List.range l).map fun j => tab (p+j))+toPoly i*X^(8*b+32*l) := by
  have hbase : p = (b*256+i)*l := by rw [hp]; ring
  rw [hbase]
  exact h b hb i hi

theorem encodeByte_eq (hl : 1 ≤ bch.eccWords) {ecc : List (BitVec 32)}
    (hlen : ecc.length = bch.eccWords) (b : Byte) : bch.encodeByte ecc b =
      (List.range bch.eccWords).map fun i => shiftWord 8 (ecc.getD i 0#32) (ecc.getD (i+1) 0#32) ^^^
        bch.mod8_tab (bch.eccWords*
          ((ecc.getD 0 0#32 >>> 24 ^^^ b.setWidth 32) &&& 0xff#32).toNat+i) := by
  unfold BchCodec.encodeByte
  obtain ⟨l, hl'⟩ := Nat.exists_eq_add_of_le' hl
  have hzero : ecc.getD (l+1) 0#32 = 0#32 := by rw [← hl', ← hlen, getD_length]
  rw [hl', Nat.add_sub_cancel, List.range_succ, List.map_append, List.map_singleton]
  unfold shiftWord
  rw [hzero, BitVec.zero_ushiftRight, BitVec.or_zero]

theorem encodeByte_length (hl : 1 ≤ bch.eccWords) {ecc : List (BitVec 32)}
    (hlen : ecc.length = bch.eccWords) (b : Byte) :
    (bch.encodeByte ecc b).length = bch.eccWords := by
  rw [encodeByte_eq hl hlen, List.length_map, List.length_range]

/-- A byte of the data: the parity words move by eight bits. -/
theorem encodeByte_dvd (h : Remainders g bch.eccWords bch.mod8_tab) (hl : 1 ≤ bch.eccWords)
    {ecc : List (BitVec 32)} (hlen : ecc.length = bch.eccWords) (b : Byte) :
    padded g bch.eccWords ∣ wordsPoly (bch.encodeByte ecc b)+
      (wordsPoly ecc*X^8+toPoly b.toNat*X^(32*bch.eccWords)) := by
  have hi : ((ecc.getD 0 0#32 >>> 24 ^^^ b.setWidth 32) &&& 0xff#32).toNat =
      (ecc.getD 0 0#32 >>> 24).toNat ^^^ b.toNat := by
    have htop : (ecc.getD 0 0#32 >>> 24).toNat < 2^8 := by
      rw [BitVec.toNat_ushiftRight, Nat.shiftRight_eq_div_pow, Nat.div_lt_iff_lt_mul (by decide)]
      exact (ecc.getD 0 0#32).isLt
    have hset : (b.setWidth 32).toNat = b.toNat := by
      rw [BitVec.toNat_setWidth, Nat.mod_eq_of_lt (b.isLt.trans (by decide))]
    rw [BitVec.toNat_and, BitVec.toNat_xor, hset]
    exact (Nat.and_two_pow_sub_one_eq_mod _ 8).trans
      (Nat.mod_eq_of_lt (Nat.xor_lt_two_pow htop b.isLt))
  have hlt : (ecc.getD 0 0#32 >>> 24).toNat ^^^ b.toNat < 256 := by
    rw [← hi, BitVec.toNat_and]
    exact Nat.lt_succ_of_le Nat.and_le_right
  have hrow := row_dvd h (p := bch.eccWords*((ecc.getD 0 0#32 >>> 24).toNat ^^^ b.toNat))
    (show 0 < 4 by decide) hlt (by rw [Nat.zero_mul, Nat.zero_add])
  rw [encodeByte_eq hl hlen, hi, wordsPoly_range_xor,
    wordsPoly_shift (show 8 ≤ 32 by decide) (fun i => ecc.getD i 0#32)]
  have hlast : ecc.getD bch.eccWords 0#32 = 0#32 := by rw [← hlen, getD_length]
  have hall : (List.range bch.eccWords).map (fun i => ecc.getD i 0#32) = ecc := by
    rw [← hlen, list_eq_range]
  rw [hall, hlast, BitVec.zero_ushiftRight, BitVec.toNat_zero, toPoly_zero]
  rw [toPoly_xor, Nat.mul_zero, Nat.zero_add] at hrow
  refine hrow.trans (dvd_of_eq ?_)
  linear_combination -(wordsPoly ecc*X^8)*two_eq_zero

/-- The bytes of the data in a row. -/
theorem encodeBchUnaligned_dvd (h : Remainders g bch.eccWords bch.mod8_tab)
    (hl : 1 ≤ bch.eccWords) (data : List Byte) {ecc : List (BitVec 32)}
    (hlen : ecc.length = bch.eccWords) :
    (bch.encodeBchUnaligned data ecc).length = bch.eccWords ∧
    padded g bch.eccWords ∣ wordsPoly (bch.encodeBchUnaligned data ecc)+
      (wordsPoly ecc*X^(8*data.length)+wordsPoly data*X^(32*bch.eccWords)) := by
  induction data generalizing ecc with
  | nil =>
    refine ⟨hlen, 0, ?_⟩
    change wordsPoly ecc+(wordsPoly ecc*X^(8*0)+0*_) = _
    linear_combination wordsPoly ecc*two_eq_zero
  | cons b data ih =>
    obtain ⟨hlen', hdvd⟩ := ih (encodeByte_length hl hlen b)
    refine ⟨hlen', ?_⟩
    have hbyte := (encodeByte_dvd h hl hlen b).mul_right (X^(8*data.length))
    have hsum := dvd_add hdvd hbyte
    refine hsum.trans (dvd_of_eq ?_)
    rw [wordsPoly, List.length_cons, Nat.mul_succ, pow_add]
    change wordsPoly (bch.encodeBchUnaligned data (bch.encodeByte ecc b))+_+_ =
      wordsPoly (bch.encodeBchUnaligned data (bch.encodeByte ecc b))+_
    linear_combination wordsPoly (bch.encodeByte ecc b)*X^(8*data.length)*two_eq_zero

theorem encodeWord_eq (hl : 1 ≤ bch.eccWords) {r : List (BitVec 32)}
    (hlen : r.length = bch.eccWords) (d : BitVec 32) :
    let w := r.getD 0 0#32 ^^^ d
    let row := fun b i => bch.mod8_tab
      (b*(256*bch.eccWords)+bch.eccWords*(w >>> (8*b) &&& 0xff#32).toNat+i)
    bch.encodeWord r d = (List.range bch.eccWords).map fun i =>
      r.getD (i+1) 0#32 ^^^ row 0 i ^^^ row 1 i ^^^ row 2 i ^^^ row 3 i := by
  unfold BchCodec.encodeWord
  obtain ⟨l, hl'⟩ := Nat.exists_eq_add_of_le' hl
  have hzero : r.getD (l+1) 0#32 = 0#32 := by rw [← hl', ← hlen, getD_length]
  dsimp only
  rw [hl', Nat.add_sub_cancel, List.range_succ, List.map_append, List.map_singleton, hzero,
    BitVec.zero_xor]
  have h2 : 256*(l+1)+256*(l+1) = 2*(256*(l+1)) := by ring
  have h3 : 2*(256*(l+1))+256*(l+1) = 3*(256*(l+1)) := by ring
  rw [h2, h3]
  simp only [Nat.zero_mul, Nat.zero_add, Nat.one_mul, Nat.mul_zero, Nat.mul_one, Nat.reduceMul]

/-- A word of the data: the parity words move by one. -/
theorem encodeWord_dvd (h : Remainders g bch.eccWords bch.mod8_tab) (hl : 1 ≤ bch.eccWords)
    {r : List (BitVec 32)} (hlen : r.length = bch.eccWords) (d : BitVec 32) :
    padded g bch.eccWords ∣ wordsPoly (bch.encodeWord r d)+
      (wordsPoly r*X^32+toPoly d.toNat*X^(32*bch.eccWords)) := by
  let w := r.getD 0 0#32 ^^^ d
  have hbyte (b : ℕ) : (w >>> (8*b) &&& 0xff#32).toNat < 256 := by
    rw [BitVec.toNat_and]
    exact Nat.lt_succ_of_le Nat.and_le_right
  have hrow (b : ℕ) (hb : b < 4) := row_dvd h hb (hbyte b) rfl
  have hsplit : toPoly w.toNat = toPoly (w >>> (8*0) &&& 0xff#32).toNat*X^(8*0)+
      toPoly (w >>> (8*1) &&& 0xff#32).toNat*X^(8*1)+
      toPoly (w >>> (8*2) &&& 0xff#32).toNat*X^(8*2)+
      toPoly (w >>> (8*3) &&& 0xff#32).toNat*X^(8*3) := by
    rw [toPoly_and_ff, toPoly_and_ff, toPoly_and_ff, toPoly_and_ff]
    exact toPoly_bytes w
  have htail := wordsPoly_range_tail (fun i => r.getD i 0#32) bch.eccWords
  have hlast : r.getD bch.eccWords 0#32 = 0#32 := by rw [← hlen, getD_length]
  have hall : (List.range bch.eccWords).map (fun i => r.getD i 0#32) = r := by
    rw [← hlen, list_eq_range]
  rw [wordsPoly_range_succ, hall, hlast, BitVec.toNat_zero, toPoly_zero, add_zero] at htail
  rw [encodeWord_eq hl hlen, wordsPoly_range_xor, wordsPoly_range_xor, wordsPoly_range_xor,
    wordsPoly_range_xor]
  have hsum := dvd_add (dvd_add (dvd_add (hrow 0 (by decide)) (hrow 1 (by decide)))
    (hrow 2 (by decide))) (hrow 3 (by decide))
  refine hsum.trans (dvd_of_eq ?_)
  have hw : toPoly w.toNat = toPoly (r.getD 0 0#32).toNat+toPoly d.toNat := by
    rw [← toPoly_xor, ← BitVec.toNat_xor]
  rw [hsplit] at hw
  simp only [pow_add]
  linear_combination X^(32*bch.eccWords)*hw+htail-
    wordsPoly ((List.range bch.eccWords).map fun i => r.getD (i+1) 0#32)*two_eq_zero

end Steps

section Data

variable {bch : BchCodec} {g : (ZMod 2)[X]}

theorem beWord_poly (b0 b1 b2 b3 : Byte) :
    toPoly (beWord b0 b1 b2 b3).toNat = wordsPoly [b0, b1, b2, b3] := by
  have hcat {n : ℕ} (a : Byte) (x : BitVec n) :
      toPoly (a ++ x).toNat = toPoly a.toNat*X^n+toPoly x.toNat := by
    rw [BitVec.toNat_append, ← Nat.shiftLeft_add_eq_or_of_lt x.isLt, Nat.shiftLeft_eq, Nat.mul_comm,
      toPoly_concat _ x.isLt]
  unfold beWord
  rw [hcat, hcat, hcat]
  simp only [wordsPoly, List.length_cons, List.length_nil]
  ring

/-- The bytes of a word, the highest one first. -/
theorem wordBytes_poly (w : BitVec 32) : wordsPoly (wordBytes w) = toPoly w.toNat := by
  have hbyte (k : ℕ) : ((w >>> (8*k)).setWidth 8).toNat = w.toNat/2^(8*k)%2^8 := by
    rw [BitVec.toNat_setWidth, BitVec.toNat_ushiftRight, Nat.shiftRight_eq_div_pow]
  rw [toPoly_bytes w]
  change toPoly ((w >>> (8*3)).setWidth 8).toNat*X^(8*3)+
    (toPoly ((w >>> (8*2)).setWidth 8).toNat*X^(8*2)+
    (toPoly ((w >>> (8*1)).setWidth 8).toNat*X^(8*1)+
    (toPoly ((w >>> (8*0)).setWidth 8).toNat*X^(8*0)+0))) = _
  rw [hbyte, hbyte, hbyte, hbyte]
  ring

theorem take_four {data : List Byte} (h : 4 ≤ data.length) :
    data = [data.getD 0 0#8, data.getD 1 0#8, data.getD 2 0#8, data.getD 3 0#8] ++ data.drop 4 := by
  match data, h with
  | _ :: _ :: _ :: _ :: _, _ => rfl

theorem encodeWord_length (hl : 1 ≤ bch.eccWords) {r : List (BitVec 32)}
    (hlen : r.length = bch.eccWords) (d : BitVec 32) :
    (bch.encodeWord r d).length = bch.eccWords := by
  rw [encodeWord_eq hl hlen, List.length_map, List.length_range]

/-- The aligned words of the data. -/
theorem encodeWords_dvd (h : Remainders g bch.eccWords bch.mod8_tab) (hl : 1 ≤ bch.eccWords)
    {mlen : ℕ} {data : List Byte} (hdata : 4*mlen ≤ data.length) {r : List (BitVec 32)}
    (hlen : r.length = bch.eccWords) :
    (bch.encodeWords mlen data r).length = bch.eccWords ∧
    padded g bch.eccWords ∣ wordsPoly (bch.encodeWords mlen data r)+
      (wordsPoly r*X^(32*mlen)+wordsPoly (data.take (4*mlen))*X^(32*bch.eccWords)) := by
  induction mlen generalizing data r with
  | zero =>
    refine ⟨hlen, 0, ?_⟩
    change wordsPoly r+(wordsPoly r*X^(32*0)+0*_) = _
    linear_combination wordsPoly r*two_eq_zero
  | succ mlen ih =>
    let d := beWord (data.getD 0 0#8) (data.getD 1 0#8) (data.getD 2 0#8) (data.getD 3 0#8)
    obtain ⟨hlen', hdvd⟩ := @ih (data.drop 4) (by rw [List.length_drop]; omega)
      (bch.encodeWord r d) (encodeWord_length hl hlen d)
    refine ⟨hlen', ?_⟩
    have hword := (encodeWord_dvd h hl hlen d).mul_right (X^(32*mlen))
    have htake : wordsPoly (data.take (4*(mlen+1))) =
        toPoly d.toNat*X^(32*mlen)+wordsPoly ((data.drop 4).take (4*mlen)) := by
      have hsplit := take_four (show 4 ≤ data.length by omega)
      have hrest : ((data.drop 4).take (4*mlen)).length = 4*mlen := by
        rw [List.length_take, List.length_drop]
        omega
      have htail : data.take (4*(mlen+1)) = [data.getD 0 0#8, data.getD 1 0#8, data.getD 2 0#8,
          data.getD 3 0#8] ++ (data.drop 4).take (4*mlen) := by
        conv_lhs => rw [hsplit]
        rw [Nat.mul_succ, Nat.add_comm]
        exact @List.take_length_add_append _ [data.getD 0 0#8, data.getD 1 0#8, data.getD 2 0#8,
          data.getD 3 0#8] (data.drop 4) (4*mlen)
      rw [htail, wordsPoly_append, beWord_poly, hrest, ← Nat.mul_assoc]
    have hsum := dvd_add hdvd hword
    refine hsum.trans (dvd_of_eq ?_)
    rw [htake, Nat.mul_succ, pow_add, BchCodec.encodeWords]
    linear_combination wordsPoly (bch.encodeWord r d)*X^(32*mlen)*two_eq_zero

/-- All of the data, wherever it is in memory. -/
theorem encodeData_dvd (h : Remainders g bch.eccWords bch.mod8_tab) (hl : 1 ≤ bch.eccWords)
    (addr : ℕ) (data : List Byte) {ecc_buf : List (BitVec 32)}
    (hlen : ecc_buf.length = bch.eccWords) :
    (bch.encodeData addr data ecc_buf).length = bch.eccWords ∧
    padded g bch.eccWords ∣ wordsPoly (bch.encodeData addr data ecc_buf)+
      (wordsPoly ecc_buf*X^(8*data.length)+wordsPoly data*X^(32*bch.eccWords)) := by
  unfold BchCodec.encodeData
  dsimp only
  generalize (if addr%4 ≠ 0 then if data.length < 4-addr%4 then data.length else 4-addr%4 else 0) =
    mlen
  obtain ⟨hlen₁, hdvd₁⟩ := encodeBchUnaligned_dvd h hl (data.take mlen) hlen
  generalize bch.encodeBchUnaligned (data.take mlen) ecc_buf = buf₁ at hlen₁ hdvd₁
  obtain ⟨hlen₂, hdvd₂⟩ := encodeWords_dvd h hl
    (show 4*((data.drop mlen).length/4) ≤ (data.drop mlen).length by omega) hlen₁
  generalize hrest : data.drop mlen = rest at hlen₂ hdvd₂
  generalize hk : rest.length/4 = k at hlen₂ hdvd₂
  generalize bch.encodeWords k rest buf₁ = buf₂ at hlen₂ hdvd₂
  obtain ⟨hlen₃, hdvd₃⟩ := encodeBchUnaligned_dvd h hl (rest.drop (4*k)) hlen₂
  refine ⟨hlen₃, ?_⟩
  -- the three parts of the data
  have hdata : data = data.take mlen ++ (rest.take (4*k) ++ rest.drop (4*k)) := by
    rw [List.take_append_drop, ← hrest, List.take_append_drop]
  have hpoly : wordsPoly data = wordsPoly (data.take mlen)*X^(8*rest.length)+
      (wordsPoly (rest.take (4*k))*X^(8*(rest.drop (4*k)).length)+wordsPoly (rest.drop (4*k))) := by
    conv_lhs => rw [hdata]
    rw [wordsPoly_append, wordsPoly_append, List.take_append_drop]
  have hlength : 8*data.length = 8*(data.take mlen).length+8*rest.length := by
    rw [← Nat.mul_add, ← hrest, ← List.length_append, List.take_append_drop]
  have hlength' : 8*rest.length = 32*k+8*(rest.drop (4*k)).length := by
    rw [List.length_drop]
    omega
  have hsum := dvd_add (dvd_add hdvd₃ (hdvd₂.mul_right (X^(8*(rest.drop (4*k)).length))))
    (hdvd₁.mul_right (X^(8*rest.length)))
  refine hsum.trans (dvd_of_eq ?_)
  rw [hpoly, hlength, pow_add, hlength', pow_add]
  linear_combination (wordsPoly buf₂*X^(8*(rest.drop (4*k)).length)+
    wordsPoly buf₁*X^(32*k)*X^(8*(rest.drop (4*k)).length))*two_eq_zero

/-- Words with the same remainder are the same. -/
theorem words_unique (hg : g.Monic) {l : ℕ} (hle : g.natDegree ≤ 32*l) {xs ys : List (BitVec 32)}
    (hxs : xs.length = l) (hys : ys.length = l) {p : (ZMod 2)[X]}
    (hx : padded g l ∣ wordsPoly xs+p) (hy : padded g l ∣ wordsPoly ys+p) : xs = ys := by
  apply wordsPoly_injective (hxs.trans hys.symm)
  have hmonic : (padded g l).Monic := hg.mul (monic_X_pow _)
  have hdeg : (padded g l).degree = (32*l : ℕ) := by
    rw [degree_eq_natDegree hmonic.ne_zero, padded, hg.natDegree_mul (monic_X_pow _),
      natDegree_X_pow, Nat.add_sub_cancel' hle]
  have hdvd : padded g l ∣ wordsPoly xs-wordsPoly ys := by
    rw [show wordsPoly xs-wordsPoly ys = wordsPoly xs+p-(wordsPoly ys+p) by ring]
    exact dvd_sub hx hy
  have hlt : (wordsPoly xs-wordsPoly ys).degree < (padded g l).degree := by
    rw [hdeg]
    apply (degree_sub_le _ _).trans_lt
    exact max_lt (hxs ▸ wordsPoly_degree xs) (hys ▸ wordsPoly_degree ys)
  exact sub_eq_zero.mp (eq_zero_of_dvd_of_degree_lt hdvd hlt)

end Data

section Bytes

variable {bch : BchCodec} {g : (ZMod 2)[X]}

/-- Four bytes in each word. -/
theorem beWords_poly {n : ℕ} {bs : List Byte} (h : bs.length = 4*n) :
    wordsPoly ((List.range n).map fun i => beWord (bs.getD (4*i) 0#8) (bs.getD (4*i+1) 0#8)
      (bs.getD (4*i+2) 0#8) (bs.getD (4*i+3) 0#8)) = wordsPoly bs := by
  induction n generalizing bs with
  | zero =>
    rw [Nat.mul_zero] at h
    rw [List.length_eq_zero_iff.mp h]
    rfl
  | succ n ih =>
    have hsplit := take_four (show 4 ≤ bs.length by omega)
    have hrest : (bs.drop 4).length = 4*n := by rw [List.length_drop]; omega
    have hshift (i k : ℕ) : bs.getD (4*(i+1)+k) 0#8 = (bs.drop 4).getD (4*i+k) 0#8 := by
      rw [List.getD_eq_getElem?_getD, List.getD_eq_getElem?_getD, List.getElem?_drop]
      congr 2
      omega
    have htail : ((List.range n).map fun i => beWord (bs.getD (4*(i+1)) 0#8)
        (bs.getD (4*(i+1)+1) 0#8) (bs.getD (4*(i+1)+2) 0#8) (bs.getD (4*(i+1)+3) 0#8)) =
        (List.range n).map fun i => beWord ((bs.drop 4).getD (4*i) 0#8)
          ((bs.drop 4).getD (4*i+1) 0#8) ((bs.drop 4).getD (4*i+2) 0#8)
          ((bs.drop 4).getD (4*i+3) 0#8) := by
      apply List.map_congr_left
      intro i _
      rw [hshift i 1, hshift i 2, hshift i 3]
      exact congrArg (beWord · _ _ _) (hshift i 0)
    rw [List.range_succ_eq_map, List.map_cons, List.map_map, wordsPoly, List.length_map,
      List.length_range]
    change _+wordsPoly ((List.range n).map fun i => beWord (bs.getD (4*(i+1)) 0#8)
      (bs.getD (4*(i+1)+1) 0#8) (bs.getD (4*(i+1)+2) 0#8) (bs.getD (4*(i+1)+3) 0#8)) = _
    rw [htail, ih hrest, beWord_poly]
    conv_rhs => rw [hsplit, wordsPoly_append, hrest]
    rw [← Nat.mul_assoc]

theorem wordBytes_flatMap (f : ℕ → BitVec 32) (n : ℕ) :
    ((List.range n).flatMap fun i => wordBytes (f i)).length = 4*n ∧
    wordsPoly ((List.range n).flatMap fun i => wordBytes (f i)) =
      wordsPoly ((List.range n).map f) := by
  induction n with
  | zero => exact ⟨rfl, rfl⟩
  | succ n ih =>
    have hsplit : ((List.range (n+1)).flatMap fun i => wordBytes (f i)) =
        ((List.range n).flatMap fun i => wordBytes (f i)) ++ wordBytes (f n) := by
      rw [List.range_succ, List.flatMap_append, List.flatMap_singleton]
    constructor
    · rw [hsplit, List.length_append, ih.1]
      rfl
    · rw [hsplit, wordsPoly_append, ih.2, wordBytes_poly, wordsPoly_range_succ]
      rfl

/-- The numbers of words and bytes of the parity fit. -/
theorem eccBytes_bounds (h : 1 ≤ bch.m*bch.t) : 1 ≤ bch.eccWords ∧
    4*(bch.eccWords-1) < bch.eccBytes ∧ bch.eccBytes ≤ 4*bch.eccWords := by
  unfold BchCodec.eccWords BchCodec.eccBytes DIV_ROUND_UP
  omega

/-- `load_ecc8` reads the bytes with zeros behind them. -/
theorem loadEcc8_poly (hmt : 1 ≤ bch.m*bch.t) {ecc : List Byte} (hlen : ecc.length = bch.eccBytes) :
    (bch.loadEcc8 ecc).length = bch.eccWords ∧
    wordsPoly (bch.loadEcc8 ecc) = wordsPoly ecc*X^(32*bch.eccWords-8*bch.eccBytes) := by
  obtain ⟨hl, hlow, hhigh⟩ := eccBytes_bounds hmt
  have hlength : (bch.loadEcc8 ecc).length = bch.eccWords := by
    unfold BchCodec.loadEcc8
    rw [List.length_append, List.length_map, List.length_range, List.length_singleton,
      Nat.sub_add_cancel hl]
  refine ⟨hlength, ?_⟩
  generalize hzeros : List.replicate (4*bch.eccWords-bch.eccBytes) 0#8 = zeros
  have hfull : (ecc ++ zeros).length = 4*bch.eccWords := by
    rw [List.length_append, hlen, ← hzeros, List.length_replicate]
    omega
  have hget (k : ℕ) : (ecc ++ zeros).getD k 0#8 = ecc.getD k 0#8 := by
    rw [List.getD_eq_getElem?_getD, List.getD_eq_getElem?_getD]
    by_cases hk : k < ecc.length
    · rw [List.getElem?_append_left hk]
    · rw [List.getElem?_append_right (Nat.not_lt.mp hk),
        List.getElem?_eq_none (Nat.not_lt.mp hk), ← hzeros, List.getElem?_replicate]
      split <;> rfl
  have hpad (k : ℕ) : ((ecc.drop (4*(bch.eccWords-1))).take
      (bch.eccBytes-4*(bch.eccWords-1))).getD k 0#8 = ecc.getD (4*(bch.eccWords-1)+k) 0#8 := by
    rw [List.take_of_length_le (by rw [List.length_drop, hlen]), List.getD_eq_getElem?_getD,
      List.getD_eq_getElem?_getD, List.getElem?_drop]
  have hwords : bch.loadEcc8 ecc = (List.range bch.eccWords).map fun i =>
      beWord ((ecc ++ zeros).getD (4*i) 0#8) ((ecc ++ zeros).getD (4*i+1) 0#8)
        ((ecc ++ zeros).getD (4*i+2) 0#8) ((ecc ++ zeros).getD (4*i+3) 0#8) := by
    unfold BchCodec.loadEcc8
    dsimp only
    conv_rhs => rw [← Nat.sub_add_cancel hl, List.range_succ, List.map_append, List.map_singleton]
    simp only [hget, hpad]
    rfl
  rw [hwords, beWords_poly hfull, wordsPoly_append, ← hzeros, List.length_replicate, Nat.mul_sub,
    ← Nat.mul_assoc]
  have hzero := wordsPoly_replicate_zero (w := 8) (4*bch.eccWords-bch.eccBytes)
  rw [show List.replicate (4*bch.eccWords-bch.eccBytes) 0#8 =
    List.replicate (4*bch.eccWords-bch.eccBytes) (0 : Byte) from rfl, hzero, add_zero]

/-- `store_ecc8` leaves out only zeros, where the words end in as many. -/
theorem storeEcc8_poly (hmt : 1 ≤ bch.m*bch.t) {words : List (BitVec 32)}
    (hlen : words.length = bch.eccWords)
    (hdvd : X^(32*bch.eccWords-8*bch.eccBytes) ∣ wordsPoly words) :
    (bch.storeEcc8 words).length = bch.eccBytes ∧
    wordsPoly (bch.storeEcc8 words)*X^(32*bch.eccWords-8*bch.eccBytes) = wordsPoly words := by
  obtain ⟨hl, hlow, hhigh⟩ := eccBytes_bounds hmt
  generalize hall : ((List.range bch.eccWords).flatMap fun i => wordBytes (words.getD i 0#32)) =
    all
  have hbytes := wordBytes_flatMap (fun i => words.getD i 0#32) bch.eccWords
  rw [hall, show (List.range bch.eccWords).map (fun i => words.getD i 0#32) = words by
    rw [← hlen, list_eq_range]] at hbytes
  have hstore : bch.storeEcc8 words = all.take bch.eccBytes := by
    have hfirst := (wordBytes_flatMap (fun i => words.getD i 0#32) (bch.eccWords-1)).1
    rw [← hall, ← Nat.sub_add_cancel hl, List.range_succ, List.flatMap_append,
      List.flatMap_singleton, List.take_append, hfirst,
      List.take_of_length_le (by rw [hfirst]; omega)]
    rfl
  have hlength : (bch.storeEcc8 words).length = bch.eccBytes := by
    rw [hstore, List.length_take, hbytes.1]
    omega
  refine ⟨hlength, ?_⟩
  -- what is left out is a multiple of a power of X of higher degree
  have hsplit := wordsPoly_append (all.take bch.eccBytes) (all.drop bch.eccBytes)
  have hdrop : 8*(all.drop bch.eccBytes).length = 32*bch.eccWords-8*bch.eccBytes := by
    rw [List.length_drop, hbytes.1]
    omega
  rw [List.take_append_drop, hbytes.2, hdrop] at hsplit
  have hrest : wordsPoly (all.drop bch.eccBytes) = 0 := by
    apply eq_zero_of_dvd_of_degree_lt (p := X^(32*bch.eccWords-8*bch.eccBytes))
    · rw [hsplit] at hdvd
      exact (dvd_add_right (dvd_mul_left _ _)).mp hdvd
    · rw [degree_X_pow, ← hdrop]
      exact wordsPoly_degree _
  rw [hstore, hsplit, hrest, add_zero]

end Bytes

section Parity

variable {bch : BchCodec} {g : (ZMod 2)[X]}

/-- What the members of the structure have to do with each other: a generator polynomial, and the
remainders by it in the tables. -/
structure Encoder (bch : BchCodec) (g : (ZMod 2)[X]) : Prop where
  pos : 1 ≤ bch.m*bch.t
  monic : g.Monic
  deg : g.natDegree = bch.ecc_bits
  le : bch.ecc_bits ≤ bch.m*bch.t
  tab : Remainders g bch.eccWords bch.mod8_tab

/-- A parity buffer that is right for some data: the data with the parity bits behind it is a
multiple of the generator polynomial. -/
structure Parity (bch : BchCodec) (g : (ZMod 2)[X]) (data ecc : List Byte) : Prop where
  length : ecc.length = bch.eccBytes
  dvd : g*X^(8*bch.eccBytes-bch.ecc_bits) ∣ wordsPoly ecc+wordsPoly data*X^(8*bch.eccBytes)

theorem Encoder.bits_le (h : Encoder bch g) :
    bch.ecc_bits ≤ 8*bch.eccBytes ∧ 8*bch.eccBytes ≤ 32*bch.eccWords := by
  have hle := h.le
  unfold BchCodec.eccBytes BchCodec.eccWords DIV_ROUND_UP
  omega

theorem Parity.start : Parity bch g [] (List.replicate bch.eccBytes 0#8) where
  length := List.length_replicate
  dvd := by
    refine ⟨0, ?_⟩
    rw [show List.replicate bch.eccBytes 0#8 = List.replicate bch.eccBytes (0 : Byte) from rfl,
      wordsPoly_replicate_zero, wordsPoly, zero_mul, add_zero, mul_zero]

/-- A call of `encode_bch` for more data. -/
theorem Parity.encode (h : Encoder bch g) {data ecc : List Byte} (hp : Parity bch g data ecc)
    (addr : ℕ) (more : List Byte) :
    ∃ ecc', (bch.encodeBch addr more (some ecc)).2 = some ecc' ∧
      Parity bch g (data ++ more) ecc' := by
  obtain ⟨hn, hB⟩ := h.bits_le
  obtain ⟨hlen, hload⟩ := loadEcc8_poly h.pos hp.length
  obtain ⟨hlen', hdvd⟩ := encodeData_dvd h.tab (eccBytes_bounds h.pos).1 addr more hlen
  generalize hbuf : bch.encodeData addr more (bch.loadEcc8 ecc) = buf at hlen' hdvd
  have hpow : (X^(32*bch.eccWords) : (ZMod 2)[X]) =
      X^(8*bch.eccBytes)*X^(32*bch.eccWords-8*bch.eccBytes) := by
    rw [← pow_add, Nat.add_sub_cancel' hB]
  have hpadded : padded g bch.eccWords =
      g*X^(8*bch.eccBytes-bch.ecc_bits)*X^(32*bch.eccWords-8*bch.eccBytes) := by
    unfold padded
    rw [h.deg, mul_assoc, ← pow_add]
    congr 2
    omega
  rw [hload, hpadded] at hdvd
  have hlow : X^(32*bch.eccWords-8*bch.eccBytes) ∣ wordsPoly buf := by
    have hsum := (dvd_mul_left _ _).trans hdvd
    apply (dvd_add_left (dvd_add _ _)).mp hsum
    · exact (dvd_mul_left _ _).mul_right _
    · rw [hpow]
      exact (dvd_mul_left _ _).mul_left _
  obtain ⟨hlength, hstore⟩ := storeEcc8_poly h.pos hlen' hlow
  refine ⟨bch.storeEcc8 buf, ?_, hlength, ?_⟩
  · rw [← hbuf]
    rfl
  · -- the same with as many zeros behind it
    have hne : (X^(32*bch.eccWords-8*bch.eccBytes) : (ZMod 2)[X]) ≠ 0 :=
      pow_ne_zero _ X_ne_zero
    rw [← hstore, hpow] at hdvd
    have hdvd' : g*X^(8*bch.eccBytes-bch.ecc_bits) ∣ wordsPoly (bch.storeEcc8 buf)+
        (wordsPoly ecc*X^(8*more.length)+wordsPoly more*X^(8*bch.eccBytes)) := by
      apply (mul_dvd_mul_iff_right hne).mp
      refine hdvd.trans (dvd_of_eq ?_)
      ring
    have hsum := dvd_add hdvd' (hp.dvd.mul_right (X^(8*more.length)))
    refine hsum.trans (dvd_of_eq ?_)
    rw [wordsPoly_append]
    linear_combination wordsPoly ecc*X^(8*more.length)*two_eq_zero

/-- The parity is the remainder, left-justified in the buffer. -/
theorem Parity.remainder (h : Encoder bch g) {data ecc : List Byte} (hp : Parity bch g data ecc) :
    wordsPoly ecc =
      (wordsPoly data*X^bch.ecc_bits %ₘ g)*X^(8*bch.eccBytes-bch.ecc_bits) := by
  obtain ⟨hn, -⟩ := h.bits_le
  have hne : (X^(8*bch.eccBytes-bch.ecc_bits) : (ZMod 2)[X]) ≠ 0 := pow_ne_zero _ X_ne_zero
  have hpow : (X^(8*bch.eccBytes) : (ZMod 2)[X]) =
      X^bch.ecc_bits*X^(8*bch.eccBytes-bch.ecc_bits) := by
    rw [← pow_add, Nat.add_sub_cancel' hn]
  have hmod := modByMonic_add_div (wordsPoly data*X^bch.ecc_bits) g
  apply sub_eq_zero.mp
  apply eq_zero_of_dvd_of_degree_lt (p := g*X^(8*bch.eccBytes-bch.ecc_bits))
  · have hsub := dvd_sub hp.dvd ((Dvd.intro _ rfl : g*X^(8*bch.eccBytes-bch.ecc_bits) ∣
      g*X^(8*bch.eccBytes-bch.ecc_bits)*(wordsPoly data*X^bch.ecc_bits /ₘ g)))
    refine hsub.trans (dvd_of_eq ?_)
    rw [hpow]
    linear_combination -X^(8*bch.eccBytes-bch.ecc_bits)*hmod+
      (wordsPoly data*X^bch.ecc_bits %ₘ g)*X^(8*bch.eccBytes-bch.ecc_bits)*two_eq_zero
  · have hmonic : (g*X^(8*bch.eccBytes-bch.ecc_bits)).Monic := h.monic.mul (monic_X_pow _)
    have hdeg : (g*X^(8*bch.eccBytes-bch.ecc_bits) : (ZMod 2)[X]).degree =
        ((8*bch.eccBytes : ℕ) : WithBot ℕ) := by
      rw [degree_eq_natDegree hmonic.ne_zero, h.monic.natDegree_mul (monic_X_pow _),
        natDegree_X_pow, h.deg, Nat.add_sub_cancel' hn]
    rw [hdeg]
    apply (degree_sub_le _ _).trans_lt
    apply max_lt
    · rw [← hp.length]
      exact wordsPoly_degree ecc
    · have hlt := degree_modByMonic_lt (wordsPoly data*X^bch.ecc_bits) h.monic
      rw [degree_mul, degree_X_pow]
      rw [degree_eq_natDegree h.monic.ne_zero, h.deg] at hlt
      calc (wordsPoly data*X^bch.ecc_bits %ₘ g).degree+
          ((8*bch.eccBytes-bch.ecc_bits : ℕ) : WithBot ℕ)
        _ < ((bch.ecc_bits : ℕ) : WithBot ℕ)+((8*bch.eccBytes-bch.ecc_bits : ℕ) : WithBot ℕ) :=
            WithBot.add_lt_add_right WithBot.coe_ne_bot hlt
        _ = ((8*bch.eccBytes : ℕ) : WithBot ℕ) := by rw [← Nat.cast_add, Nat.add_sub_cancel' hn]

/-- Calls in a row, from any buffer that is right. -/
theorem Parity.calls (h : Encoder bch g) (calls : List (ℕ × List Byte)) {data ecc : List Byte}
    (hp : Parity bch g data ecc) :
    ∃ ecc', calls.foldl (fun ecc call => (bch.encodeBch call.1 call.2 ecc).2) (some ecc) =
      some ecc' ∧ Parity bch g (data ++ calls.flatMap Prod.snd) ecc' := by
  induction calls generalizing data ecc with
  | nil =>
    refine ⟨ecc, rfl, ?_⟩
    rwa [List.flatMap_nil, List.append_nil]
  | cons call calls ih =>
    obtain ⟨ecc₁, hcall, hp₁⟩ := hp.encode h call.1 call.2
    obtain ⟨ecc₂, hcalls, hp₂⟩ := ih hp₁
    refine ⟨ecc₂, ?_, ?_⟩
    · rw [List.foldl_cons, hcall]
      exact hcalls
    · rw [List.flatMap_cons, ← List.append_assoc]
      exact hp₂

end Parity

end ChipTools.Bch
