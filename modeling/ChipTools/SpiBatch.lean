import Mathlib.Logic.Relation
import ChipTools.NorFlash

/-! `spi_batch_data_transfer`: the interpreter on the device, which takes a batch of SPI
transfers from a buffer and puts the answers into the same buffer. -/
namespace ChipTools.Spi
open Nor

/-- The interpreter with `buf` as an offset into the memory `sram`. `wait` is the second byte
of `wait_for_completion_cmd`, the first one is set before every use. -/
structure BatchState where
  buf : ℕ
  sram : ℕ → Byte
  wait : Byte
  chip : Chip

def readBytes (sram : ℕ → Byte) (p n : ℕ) : List Byte := (List.range n).map fun i => sram (p+i)

def writeBytes (sram : ℕ → Byte) (p : ℕ) (bs : List Byte) : ℕ → Byte :=
  fun x => if p ≤ x then bs.getD (x-p) (sram x) else sram x

namespace BatchState

def code (s : BatchState) : ℕ := (s.sram s.buf).toNat*256+(s.sram (s.buf+1)).toNat

/-- A normal buffer: `spi_data_transfer` sends it and receives the answer in place. -/
def transfer (env : Env) (s : BatchState) : BatchState :=
  let answer := s.chip.transact env (readBytes s.sram (s.buf+2) s.code)
  { s with buf := s.buf+2+s.code, sram := writeBytes s.sram (s.buf+2) answer.2, chip := answer.1 }

/-- One poll of the status register, which is repeated while the chip is busy. -/
def poll (env : Env) (s : BatchState) : BatchState :=
  let answer := s.chip.transact env [0x05#8, s.wait]
  let wait := answer.2.getD 1 0#8
  { s with buf := if wait &&& 1#8 ≠ 0#8 then s.buf else s.buf+2, wait := wait, chip := answer.1 }

/-- One pass of the loop, none at the end of data. -/
def step (env : Env) (s : BatchState) : Option BatchState :=
  if s.code = 0 then none
  else if s.code = 0xFFFF then some (s.poll env)
  else some (s.transfer env)

def Runs (env : Env) : BatchState → BatchState → Prop :=
  Relation.ReflTransGen fun s t => s.step env = some t

end BatchState

/-- The bytes of `bs` lie ahead at `p`. -/
def Ahead (sram : ℕ → Byte) (p : ℕ) (bs : List Byte) : Prop :=
  ∀ i b, bs[i]? = some b → sram (p+i) = b

theorem Ahead.head {sram : ℕ → Byte} {p : ℕ} {b : Byte} {bs : List Byte}
    (h : Ahead sram p (b :: bs)) : sram p = b := h 0 b rfl

theorem Ahead.tail {sram : ℕ → Byte} {p : ℕ} {b : Byte} {bs : List Byte}
    (h : Ahead sram p (b :: bs)) : Ahead sram (p+1) bs := by
  intro i c hi
  rw [Nat.add_assoc, Nat.add_comm 1 i]
  exact h (i+1) c hi

theorem Ahead.drop {sram : ℕ → Byte} {p : ℕ} {as bs : List Byte}
    (h : Ahead sram p (as ++ bs)) : Ahead sram (p+as.length) bs := by
  intro i c hi
  rw [Nat.add_assoc]
  apply h
  rw [List.getElem?_append_right (by omega), Nat.add_sub_cancel_left, hi]

theorem Ahead.read {sram : ℕ → Byte} {p : ℕ} {as bs : List Byte} (h : Ahead sram p (as ++ bs)) :
    readBytes sram p as.length = as := by
  apply List.ext_getElem?
  intro i
  unfold readBytes
  rw [List.getElem?_map]
  by_cases hi : i < as.length
  · rw [List.getElem?_range hi, Option.map_some, List.getElem?_eq_getElem hi]
    apply congrArg some
    apply h
    rw [List.getElem?_append_left hi, List.getElem?_eq_getElem hi]
  · rw [List.getElem?_eq_none (by simpa using hi), List.getElem?_eq_none (by omega)]
    rfl

/-- Answers stay behind the rest of the batch. -/
theorem Ahead.write {sram : ℕ → Byte} {p q : ℕ} {bs rx : List Byte} (h : Ahead sram q bs)
    (hq : p+rx.length ≤ q) : Ahead (writeBytes sram p rx) q bs := by
  intro i b hi
  unfold writeBytes
  rw [if_pos (by omega), List.getD_eq_getElem?_getD, List.getElem?_eq_none (by omega),
    Option.getD_none]
  exact h i b hi

/-- Run from a chip in `P`, the bytes `bs` of a batch are used up and leave the chip in `Q`,
whatever follows them. -/
def Performs (env : Env) (P : Chip → Prop) (bs : List Byte) (Q : Chip → Prop) : Prop :=
  ∀ s : BatchState, ∀ rest, P s.chip → Ahead s.sram s.buf (bs ++ rest) →
    ∃ t, s.Runs env t ∧ Q t.chip ∧ Ahead t.sram t.buf rest

section Rules

variable {env : Env} {P Q R : Chip → Prop}

theorem Performs.nil : Performs env P [] P := by
  intro s rest hp ha
  exact ⟨s, .refl, hp, ha⟩

theorem Performs.append {as bs : List Byte} (h1 : Performs env P as Q)
    (h2 : Performs env Q bs R) : Performs env P (as ++ bs) R := by
  intro s rest hp ha
  rw [List.append_assoc] at ha
  obtain ⟨t, ht, hq, hat⟩ := h1 s _ hp ha
  obtain ⟨u, hu, hr, hau⟩ := h2 t _ hq hat
  exact ⟨u, ht.trans hu, hr, hau⟩

theorem toNat_code (n : ℕ) (hn : n < 65536) :
    (BitVec.ofNat 8 (n >>> 8)).toNat*256+(BitVec.ofNat 8 n).toNat = n := by
  rw [BitVec.toNat_ofNat, BitVec.toNat_ofNat, Nat.shiftRight_eq_div_pow]
  omega

/-- A transfer of `tx`, with its length in front. -/
theorem Performs.transfer (tx : List Byte) (h0 : tx ≠ []) (hlen : tx.length < 0xFFFF)
    {n : ℕ} (hn : tx.length = n) (hq : ∀ s, P s → Q (s.transact env tx).1) :
    Performs env P (BitVec.ofNat 8 (n >>> 8) :: BitVec.ofNat 8 n :: tx) Q := by
  subst hn
  intro s rest hp ha
  have hcode : s.code = tx.length := by
    unfold BatchState.code
    rw [ha.head, ha.tail.head, toNat_code _ (by omega)]
  have hpos := List.length_pos_iff.mpr h0
  have ha2 := ha.tail.tail
  have hread : readBytes s.sram (s.buf+2) s.code = tx := by
    rw [hcode]
    exact ha2.read
  have hstep : s.step env = some (s.transfer env) := by
    unfold BatchState.step
    rw [if_neg (by omega), if_neg (by omega)]
  refine ⟨_, .single hstep, ?_, ?_⟩
  · change Q (s.chip.transact env (readBytes s.sram (s.buf+2) s.code)).1
    rw [hread]
    exact hq s.chip hp
  · change Ahead (writeBytes s.sram (s.buf+2) _) (s.buf+2+s.code) rest
    rw [hread, hcode]
    apply ha2.drop.write
    exact Nat.le_of_eq (congrArg (s.buf+2+·) (transact_length ..))

theorem step_poll {s : BatchState} {rest : List Byte}
    (ha : Ahead s.sram s.buf (0xFF#8 :: 0xFF#8 :: rest)) : s.step env = some (s.poll env) := by
  have hcode : s.code = 0xFFFF := by
    unfold BatchState.code
    rw [ha.head, ha.tail.head]
    rfl
  unfold BatchState.step
  rw [if_neg (by omega), if_pos hcode]

/-- The wait polls until the chip is idle. -/
theorem Performs.wait (c : Cells) :
    Performs env (fun s => s.cells = c) [0xFF#8, 0xFF#8] (fun s => s.busy = 0 ∧ s.cells = c) := by
  intro s rest hp ha
  obtain ⟨n, hn⟩ : ∃ n, s.chip.busy = n := ⟨_, rfl⟩
  induction n generalizing s with
  | zero =>
    have hstep := @step_poll env _ _ ha
    have hwait : ((s.chip.transact env [0x05#8, s.wait]).2.getD 1 0#8) = 0#8 := by
      simp [Chip.transact, hn]
    have hbuf : (s.poll env).buf = s.buf+2 := by
      unfold BatchState.poll
      simp only [hwait]
      rfl
    refine ⟨_, .single hstep, ⟨?_, hp⟩, ?_⟩
    · change s.chip.busy-1 = 0
      omega
    · rw [hbuf]
      exact ha.tail.tail
  | succ n ih =>
    have hstep := @step_poll env _ _ ha
    have hwait : ((s.chip.transact env [0x05#8, s.wait]).2.getD 1 0#8) = 1#8 := by
      simp [Chip.transact, hn]
    have hbuf : (s.poll env).buf = s.buf := by
      unfold BatchState.poll
      simp only [hwait]
      rfl
    obtain ⟨t, ht, hq, hat⟩ := ih (s.poll env) hp (by rw [hbuf]; exact ha) (by
      change s.chip.busy-1 = n
      omega)
    exact ⟨t, .head hstep ht, hq, hat⟩

end Rules

end ChipTools.Spi
