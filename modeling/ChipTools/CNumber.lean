import ChipTools.Bytes

/-! Numbers in C strings: the `strto` functions of the C library with base 0, and what their
results are stored to. -/
namespace ChipTools.CNumber
open Bytes

/-- A string literal. -/
def literal (s : String) : List Byte := s.toList.map fun c => BitVec.ofNat 8 c.toNat

/-- `isspace` of the C locale. -/
def isSpace (b : Byte) : Bool := b = 0x20#8 || (9#8 ≤ b && b ≤ 13#8)

/-- The value of a digit, of a base up to 36. -/
def digitVal (b : Byte) : ℕ :=
  if 0x30#8 ≤ b ∧ b ≤ 0x39#8 then b.toNat-0x30
  else if 0x41#8 ≤ b ∧ b ≤ 0x5a#8 then b.toNat-0x41+10
  else if 0x61#8 ≤ b ∧ b ≤ 0x7a#8 then b.toNat-0x61+10
  else 36

def isDigit (base : ℕ) (b : Byte) : Bool := digitVal b < base

/-- What a conversion finds: the sign, the digits with their base, and the string behind
them. -/
structure Subject where
  neg : Bool
  base : ℕ
  digits : List Byte
  endp : List Byte

def Subject.magnitude (s : Subject) : ℕ := s.digits.foldl (fun v b => v*s.base+digitVal b) 0

/-- The subject sequence for base 0. Where there are no digits, the string is not moved on. -/
def subject (str : List Byte) : Subject :=
  let s := str.dropWhile isSpace
  let (neg, s) := match s with
    | 0x2d#8 :: rest => (true, rest)
    | 0x2b#8 :: rest => (false, rest)
    | _ => (false, s)
  let (base, s) := match s with
    | 0x30#8 :: 0x78#8 :: b :: rest => if isDigit 16 b then (16, b :: rest) else (8, s)
    | 0x30#8 :: 0x58#8 :: b :: rest => if isDigit 16 b then (16, b :: rest) else (8, s)
    | 0x30#8 :: _ => (8, s)
    | _ => (10, s)
  let digits := s.takeWhile (isDigit base)
  ⟨neg, base, digits, if digits = [] then str else s.dropWhile (isDigit base)⟩

/-- `strtol` and `strtoll`, both of 64 bits. -/
def strtoll (str : List Byte) : ℤ :=
  let s := subject str
  if s.neg then max (-2^63) (-s.magnitude) else min (2^63-1) s.magnitude

/-- The sign of a number, and what is behind it. -/
def signOf (s : List Byte) : Bool × List Byte :=
  match s with
  | 0x2d#8 :: rest => (true, rest)
  | 0x2b#8 :: rest => (false, rest)
  | _ => (false, s)

/-- The subject sequence for base 10. -/
def subjectDec (str : List Byte) : Subject :=
  let s := signOf (str.dropWhile isSpace)
  let digits := s.2.takeWhile (isDigit 10)
  ⟨s.1, 10, digits, if digits = [] then str else s.2.dropWhile (isDigit 10)⟩

/-- `strtol` with base 10. -/
def strtolDec (str : List Byte) : ℤ :=
  let s := subjectDec str
  if s.neg then max (-2^63) (-s.magnitude) else min (2^63-1) s.magnitude

/-- `strtoul` and `strtoull`. -/
def strtoull (str : List Byte) : ℕ :=
  let s := subject str
  if 2^64 ≤ s.magnitude then 2^64-1
  else if s.neg then (2^64-s.magnitude)%2^64
  else s.magnitude

/-- An `int`, and a `long long`, that a wider value is stored to. -/
def toInt32 (x : ℤ) : ℤ := x.bmod (2^32)

def toInt64 (x : ℤ) : ℤ := x.bmod (2^64)

theorem toInt64_of_lt {x : ℤ} (h0 : 0 ≤ x) (h : x < 2^63) : toInt64 x = x := by
  apply Int.bmod_eq_of_le <;> omega

/-- What an `int` can hold, it holds. -/
theorem toInt32_of_mem {x : ℤ} (h0 : -2^31 ≤ x) (h : x < 2^31) : toInt32 x = x := by
  apply Int.bmod_eq_of_le <;> omega

theorem toInt32_of_lt {x : ℤ} (h0 : 0 ≤ x) (h : x < 2^31) : toInt32 x = x :=
  toInt32_of_mem (by omega) h

theorem toInt32_range (x : ℤ) : -2^31 ≤ toInt32 x ∧ toInt32 x < 2^31 := by
  have h1 := Int.le_bmod (x := x) (m := 2^32) (by decide)
  have h2 := Int.bmod_lt (x := x) (m := 2^32) (by decide)
  unfold toInt32
  omega

theorem toInt64_congr {x y : ℤ} (h : x%2^64 = y%2^64) : toInt64 x = toInt64 y := by
  have hx := Int.emod_bmod x (2^64)
  have hy := Int.emod_bmod y (2^64)
  simp only [Nat.cast_pow, Nat.cast_ofNat] at hx hy
  rw [toInt64, toInt64, ← hx, ← hy, h]

theorem toInt64_range (x : ℤ) : -2^63 ≤ toInt64 x ∧ toInt64 x < 2^63 ∧ toInt64 x%2^64 = x%2^64 := by
  have h1 := @Int.le_bmod x (2^64) (by decide)
  have h2 := @Int.bmod_lt x (2^64) (by decide)
  have h3 := @Int.bmod_emod x (2^64)
  simp only [Nat.cast_pow, Nat.cast_ofNat] at h1 h2 h3
  unfold toInt64
  omega

end ChipTools.CNumber
