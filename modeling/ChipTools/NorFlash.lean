import Mathlib.Data.Nat.Notation
import Mathlib.Tactic.Ring

/-! A serial NOR flash with 24-bit addresses. A transaction is the bytes that are clocked
in while the chip is selected, and answers with as many bytes. -/
namespace ChipTools.Nor

abbrev Byte := BitVec 8
abbrev Cells := ℕ → Byte

/-- What is left open: the number of status polls that an operation takes, and the bytes
that the chip puts on its output when it has nothing to say. Both by transaction. -/
structure Env where
  delay : ℕ → ℕ
  miso : ℕ → ℕ → Byte

/-- `busy` counts the polls that will still find the chip busy. -/
structure Chip where
  cells : Cells
  writeEnable : Bool
  busy : ℕ
  clock : ℕ

/-- An erase sets the sector of `size` bytes that holds `a` to ones. -/
def erase (c : Cells) (size a : ℕ) : Cells :=
  fun x => if x/size = a/size then 0xFF#8 else c x

/-- Programming clears bits. Byte `i` of the data that a command at `a` brings goes to the
page of 256 bytes that holds `a`, with a wrap at its end. -/
def programFrom (c : Cells) (a i : ℕ) : List Byte → Cells
  | [] => c
  | d :: ds => programFrom (fun x => if x = a/256*256+(a+i)%256 then c x &&& d else c x) a (i+1) ds

def program (c : Cells) (a : ℕ) (data : List Byte) : Cells := programFrom c a 0 data

def address (hi mid lo : Byte) : ℕ := hi.toNat*65536+mid.toNat*256+lo.toNat

namespace Chip

/-- An erase or program is carried out when it has been enabled, and takes its time. -/
def modify (env : Env) (s : Chip) (f : Cells → Cells) : Chip :=
  if s.writeEnable then
    { s with cells := f s.cells, writeEnable := false, busy := env.delay s.clock }
  else s

def sectorErase (env : Env) (s : Chip) (size : ℕ) : List Byte → Chip
  | [hi, mid, lo] => s.modify env fun c => erase c size (address hi mid lo)
  | _ => s

def pageProgram (env : Env) (s : Chip) : List Byte → Chip
  | hi :: mid :: lo :: d :: ds => s.modify env fun c => program c (address hi mid lo) (d :: ds)
  | _ => s

/-- Commands of an idle chip. -/
def command (env : Env) (s : Chip) (op : Byte) (args : List Byte) : Chip :=
  if op = 0x06#8 then { s with writeEnable := true }
  else if op = 0x20#8 then s.sectorErase env 4096 args
  else if op = 0xD8#8 then s.sectorErase env 65536 args
  else if op = 0x02#8 then s.pageProgram env args
  else s

/-- What an idle chip puts out: a read command is followed by the cells from its address on, with a
wrap at the last address. -/
def reply (s : Chip) (op : Byte) (args junk : List Byte) : List Byte :=
  match args with
  | hi :: mid :: lo :: rest =>
    if op = 0x03#8 ∧ s.busy = 0 then
      junk.take 4 ++ (List.range rest.length).map fun i => s.cells ((address hi mid lo+i)%2^24)
    else junk
  | _ => junk

/-- One transaction: only the status can be read while the chip is busy. -/
def transact (env : Env) (s : Chip) (tx : List Byte) : Chip × List Byte :=
  let junk := (List.range tx.length).map (env.miso s.clock)
  match tx with
  | [] => (s, junk)
  | op :: args =>
    if op = 0x05#8 then
      ({ s with busy := s.busy-1, clock := s.clock+1 },
        junk.take 1 ++ List.replicate args.length (if s.busy = 0 then 0#8 else 1#8))
    else
      ({ (if s.busy = 0 then s.command env op args else s) with clock := s.clock+1 },
        s.reply op args junk)

end Chip

theorem reply_length (s : Chip) (op : Byte) (args junk : List Byte)
    (h : junk.length = args.length+1) : (s.reply op args junk).length = junk.length := by
  unfold Chip.reply
  split
  next hi mid lo rest =>
    split
    · simp only [List.length_cons] at h
      simp only [List.length_append, List.length_take, List.length_map, List.length_range]
      omega
    · rfl
  next => rfl

theorem transact_length (env : Env) (s : Chip) (tx : List Byte) :
    (s.transact env tx).2.length = tx.length := by
  unfold Chip.transact
  cases tx with
  | nil => rfl
  | cons op args =>
    by_cases hop : op = 0x05#8
    · simp [hop]
      omega
    · simp only [if_neg hop]
      rw [reply_length _ _ _ _ (by simp), List.length_map, List.length_range]

theorem programFrom_outside {a i x : ℕ} (c : Cells) (data : List Byte) (ha : a%256 = 0)
    (hd : i+data.length ≤ 256) (hx : x < a+i ∨ a+i+data.length ≤ x) :
    programFrom c a i data x = c x := by
  induction data generalizing c i with
  | nil => rfl
  | cons d ds ih =>
    rw [List.length_cons] at hd hx
    unfold programFrom
    rw [ih _ (by omega) (by omega), if_neg (by omega)]

theorem programFrom_inside {a i k : ℕ} (c : Cells) (data : List Byte) (ha : a%256 = 0)
    (hd : i+data.length ≤ 256) (hk : k < data.length) :
    programFrom c a i data (a+i+k) = c (a+i+k) &&& data[k] := by
  induction data generalizing c i k with
  | nil => exact absurd hk (Nat.not_lt_zero k)
  | cons d ds ih =>
    rw [List.length_cons] at hd hk
    unfold programFrom
    cases k with
    | zero =>
      rw [programFrom_outside _ ds ha (by omega) (by omega), if_pos (by omega)]
      rfl
    | succ k =>
      have h := ih (fun x => if x = a/256*256+(a+i)%256 then c x &&& d else c x) (i := i+1)
        (k := k) (by omega) (by omega)
      rw [show a+(i+1)+k = a+i+(k+1) from by omega, if_neg (by omega)] at h
      exact h

/-- A program that starts a page and fits into it, on erased cells. -/
theorem program_erased {a k : ℕ} (c : Cells) (data : List Byte) (ha : a%256 = 0)
    (hd : data.length ≤ 256) (hk : k < data.length) (hc : c (a+k) = 0xFF#8) :
    program c a data (a+k) = data[k] := by
  have h := programFrom_inside c data ha (i := 0) (by omega) hk
  rw [Nat.add_zero, hc] at h
  rw [program, h, show (0xFF#8 : Byte) = BitVec.allOnes 8 from rfl, BitVec.allOnes_and]

theorem program_outside {a x : ℕ} (c : Cells) (data : List Byte) (ha : a%256 = 0)
    (hd : data.length ≤ 256) (hx : x < a ∨ a+data.length ≤ x) : program c a data x = c x :=
  programFrom_outside c data ha (by omega) (by omega)

end ChipTools.Nor
