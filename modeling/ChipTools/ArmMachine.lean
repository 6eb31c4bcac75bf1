import Mathlib.Data.Nat.Notation
import Mathlib.Logic.Function.Basic
import Mathlib.Logic.Relation
import Mathlib.Tactic.Ring

/-! A byte-addressed 32-bit ARM machine for the instructions that small position
independent routines are made of. Instructions are decoded from memory at every
step, so a program is the words it is loaded as. -/
namespace ChipTools.Arm

abbrev Word := BitVec 32
abbrev Reg := BitVec 4
abbrev Mem := Word → BitVec 8

/-- Little-endian word load. Unaligned addresses load the four bytes that follow. -/
def load32 (m : Mem) (a : Word) : Word := m (a+3#32) ++ m (a+2#32) ++ m (a+1#32) ++ m a

def store8 (m : Mem) (a : Word) (b : BitVec 8) : Mem := fun x => if x = a then b else m x

def store32 (m : Mem) (a w : Word) : Mem :=
  store8 (store8 (store8 (store8 m a (w.extractLsb' 0 8))
    (a+1#32) (w.extractLsb' 8 8)) (a+2#32) (w.extractLsb' 16 8)) (a+3#32) (w.extractLsb' 24 8)

/-- `r` holds r0 to r14, the program counter is kept apart. -/
structure Cpu where
  r : Reg → Word
  pc : Word
  n : Bool
  z : Bool
  c : Bool
  v : Bool
  mem : Mem

inductive Cond where
  | eq | ne | cs | cc | mi | pl | vs | vc | hi | ls | ge | lt | gt | le | al
deriving DecidableEq, Repr

inductive AluOp where
  | sub | add | tst | cmp | orr | mov | bic
deriving DecidableEq, Repr

/-- The flexible second operand and the offset of a load or store: an immediate or
a register shifted left by a constant. -/
inductive Operand where
  | imm (v : Word)
  | reg (rm : Reg) (lsl : ℕ)
deriving DecidableEq, Repr

inductive Instr where
  | alu (op : AluOp) (setFlags : Bool) (rd rn : Reg) (op2 : Operand)
  | movHalf (top : Bool) (rd : Reg) (imm : BitVec 16)
  | transfer (load byte : Bool) (rt rn : Reg) (offset : Operand) (up pre writeback : Bool)
  | branch (offset : Word)
  | bx (rm : Reg)
deriving DecidableEq, Repr

def decodeCond (w : Word) : Option Cond :=
  match (w.extractLsb' 28 4).toNat with
  | 0 => some .eq | 1 => some .ne | 2 => some .cs | 3 => some .cc
  | 4 => some .mi | 5 => some .pl | 6 => some .vs | 7 => some .vc
  | 8 => some .hi | 9 => some .ls | 10 => some .ge | 11 => some .lt
  | 12 => some .gt | 13 => some .le | 14 => some .al | _ => none

def decodeAluOp (w : Word) : Option AluOp :=
  match (w.extractLsb' 21 4).toNat with
  | 2 => some .sub | 4 => some .add | 8 => some .tst | 10 => some .cmp
  | 12 => some .orr | 13 => some .mov | 14 => some .bic | _ => none

/-- Register operand with an immediate left shift. Other shifts are not decoded. -/
def decodeRegOperand (w : Word) : Option Operand :=
  if w.extractLsb' 4 3 = 0#3 then
    some (.reg (w.extractLsb' 0 4) (w.extractLsb' 7 5).toNat)
  else none

def decodeImmOperand (w : Word) : Operand :=
  .imm (((w.extractLsb' 0 8).setWidth 32).rotateRight (2*(w.extractLsb' 8 4).toNat))

/-- Whether the shifter leaves the carry flag alone, as the logical operations that
set flags need here. -/
def Operand.keepsCarry (w : Word) : Operand → Bool
  | .imm _ => w.extractLsb' 8 4 = 0#4
  | .reg _ lsl => lsl = 0

def decodeAlu (w : Word) (op2 : Operand) : Option Instr :=
  let setFlags := w.getLsbD 20
  let rd := w.extractLsb' 12 4
  (decodeAluOp w).bind fun op =>
    match op with
    | .tst => if setFlags && op2.keepsCarry w then
        some (.alu .tst true 0#4 (w.extractLsb' 16 4) op2) else none
    | .cmp => if setFlags then some (.alu .cmp true 0#4 (w.extractLsb' 16 4) op2) else none
    | .sub => if rd = 15#4 then none else some (.alu .sub setFlags rd (w.extractLsb' 16 4) op2)
    | .add => if rd = 15#4 then none else some (.alu .add setFlags rd (w.extractLsb' 16 4) op2)
    | op => if rd = 15#4 || setFlags then none
        else some (.alu op false rd (w.extractLsb' 16 4) op2)

def decodeTransfer (w : Word) : Option Instr :=
  let rt := w.extractLsb' 12 4
  let rn := w.extractLsb' 16 4
  let pre := w.getLsbD 24
  let wb := w.getLsbD 21
  let offset := if w.getLsbD 25 then decodeRegOperand w
    else some (.imm ((w.extractLsb' 0 12).setWidth 32))
  if rt = 15#4 || (!pre && wb) || ((!pre || wb) && (rn = 15#4 || rn = rt)) then none
  else offset.map fun o =>
    .transfer (w.getLsbD 20) (w.getLsbD 22) rt rn o (w.getLsbD 23) pre (!pre || wb)

/-- Words outside the modelled subset decode to `none`. -/
def decodeInstr (w : Word) : Option Instr :=
  if w.extractLsb' 4 24 = 0x12fff1#24 then some (.bx (w.extractLsb' 0 4))
  else if w.extractLsb' 20 8 = 0x30#8 || w.extractLsb' 20 8 = 0x34#8 then
    some (.movHalf (w.getLsbD 22) (w.extractLsb' 12 4) (w.extractLsb' 16 4 ++ w.extractLsb' 0 12))
  else if w.extractLsb' 25 3 = 1#3 then decodeAlu w (decodeImmOperand w)
  else if w.extractLsb' 25 3 = 0#3 then (decodeRegOperand w).bind (decodeAlu w)
  else if w.extractLsb' 26 2 = 1#2 then decodeTransfer w
  else if w.extractLsb' 24 4 = 0xa#4 then
    some (.branch (((w.extractLsb' 0 24).signExtend 32) <<< 2))
  else none

def decode (w : Word) : Option (Cond × Instr) :=
  (decodeCond w).bind fun c => (decodeInstr w).map fun i => (c, i)

namespace Cpu

/-- Reading r15 gives the address of the instruction plus 8. -/
def reg (s : Cpu) (k : Reg) : Word := if k = 15#4 then s.pc+8#32 else s.r k

def set (s : Cpu) (k : Reg) (w : Word) : Cpu := { s with r := Function.update s.r k w }

def next (s : Cpu) : Cpu := { s with pc := s.pc+4#32 }

def value (s : Cpu) : Operand → Word
  | .imm w => w
  | .reg rm lsl => s.reg rm <<< lsl

def subFlags (s : Cpu) (a b : Word) : Cpu :=
  { s with n := (a-b).msb, z := decide (a-b = 0#32), c := decide (b ≤ a),
           v := (a.msb ^^ b.msb) && (a.msb ^^ (a-b).msb) }

def addFlags (s : Cpu) (a b : Word) : Cpu :=
  { s with n := (a+b).msb, z := decide (a+b = 0#32), c := decide (2^32 ≤ a.toNat+b.toNat),
           v := (a.msb == b.msb) && (a.msb ^^ (a+b).msb) }

def logicFlags (s : Cpu) (a : Word) : Cpu :=
  { s with n := a.msb, z := decide (a = 0#32) }

def holds (s : Cpu) : Cond → Bool
  | .eq => s.z | .ne => !s.z | .cs => s.c | .cc => !s.c
  | .mi => s.n | .pl => !s.n | .vs => s.v | .vc => !s.v
  | .hi => s.c && !s.z | .ls => !s.c || s.z
  | .ge => s.n == s.v | .lt => s.n != s.v
  | .gt => !s.z && s.n == s.v | .le => s.z || s.n != s.v
  | .al => true

end Cpu

def execAlu (op : AluOp) (setFlags : Bool) (rd : Reg) (a b : Word) (s : Cpu) : Cpu :=
  match op with
  | .sub => ((if setFlags then s.subFlags a b else s).set rd (a-b)).next
  | .add => ((if setFlags then s.addFlags a b else s).set rd (a+b)).next
  | .tst => (s.logicFlags (a &&& b)).next
  | .cmp => (s.subFlags a b).next
  | .orr => (s.set rd (a ||| b)).next
  | .mov => (s.set rd b).next
  | .bic => (s.set rd (a &&& ~~~b)).next

/-- `ea` is the accessed address and `moved` the updated base. -/
def execTransfer (load byte : Bool) (rt rn : Reg) (ea moved : Word) (writeback : Bool)
    (s : Cpu) : Cpu :=
  let t := if writeback then s.set rn moved else s
  match load, byte with
  | true, true => (t.set rt ((s.mem ea).setWidth 32)).next
  | true, false => (t.set rt (load32 s.mem ea)).next
  | false, true => { t with mem := store8 s.mem ea ((s.r rt).extractLsb' 0 8) }.next
  | false, false => { t with mem := store32 s.mem ea (s.r rt) }.next

def exec (i : Instr) (s : Cpu) : Cpu :=
  match i with
  | .alu op setFlags rd rn op2 => execAlu op setFlags rd (s.reg rn) (s.value op2) s
  | .movHalf top rd imm =>
    (s.set rd (if top then imm ++ (s.r rd).extractLsb' 0 16 else imm.setWidth 32)).next
  | .transfer load byte rt rn offset up pre writeback =>
    let base := s.reg rn
    let moved := if up then base+s.value offset else base-s.value offset
    execTransfer load byte rt rn (if pre then moved else base) moved writeback s
  | .branch offset => { s with pc := s.pc+8#32+offset }
  | .bx rm => { s with pc := s.reg rm }

def step (s : Cpu) : Option Cpu :=
  (decode (load32 s.mem s.pc)).map fun (c, i) => if s.holds c then exec i s else s.next

/-- The next step is a return: a `bx lr` whose condition holds. -/
def returning (s : Cpu) : Bool :=
  match decode (load32 s.mem s.pc) with
  | some (c, .bx rm) => decide (rm = 14#4) && s.holds c
  | _ => false

def Cont (s t : Cpu) : Prop := returning s = false ∧ step s = some t

abbrev Runs : Cpu → Cpu → Prop := Relation.ReflTransGen Cont

/-- The routine entered at `s` reaches its `bx lr`, which leaves the machine in `t`. -/
def Returns (s t : Cpu) : Prop := ∃ u, Runs s u ∧ returning u = true ∧ step u = some t

theorem Runs.returns {s t u : Cpu} (h : Runs s t) (hr : Returns t u) : Returns s u := by
  obtain ⟨v, hv, hret, hstep⟩ := hr
  exact ⟨v, h.trans hv, hret, hstep⟩

/-- A routine returns in at most one way. -/
theorem Returns.unique {s t u : Cpu} (ht : Returns s t) (hu : Returns s u) : t = u := by
  obtain ⟨v, hv, hvr, hvs⟩ := ht
  obtain ⟨w, hw, hwr, hws⟩ := hu
  have hvw : v = w := by
    clear hvs hws
    induction hv using Relation.ReflTransGen.head_induction_on with
    | refl =>
      rcases hw.cases_head with h | ⟨x, hx, _⟩
      · exact h
      · exact absurd hx.1 (by simp [hvr])
    | head hab _ ih =>
      rcases hw.cases_head with h | ⟨x, hx, hxw⟩
      · rw [← h] at hwr
        exact absurd hab.1 (by simp [hwr])
      · have he := hab.2.symm.trans hx.2
        exact ih (by rw [Option.some.inj he]; exact hxw)
  subst hvw
  exact Option.some.inj (hvs.symm.trans hws)

/-- The words at `base` decode to the listed instructions. -/
def Loaded (asm : List (Cond × Instr)) (base : Word) (m : Mem) : Prop :=
  ∀ i ci, asm[i]? = some ci → decode (load32 m (base+BitVec.ofNat 32 (4*i))) = some ci

/-- Control is at instruction `i` of a loaded program. -/
structure At (asm : List (Cond × Instr)) (base : Word) (i : ℕ) (s : Cpu) : Prop where
  pc : s.pc = base+BitVec.ofNat 32 (4*i)
  code : Loaded asm base s.mem

namespace At

variable {asm : List (Cond × Instr)} {base : Word} {i : ℕ} {s : Cpu} {c : Cond} {ins : Instr}

theorem fetch (h : At asm base i s) (hi : asm[i]? = some (c, ins)) :
    decode (load32 s.mem s.pc) = some (c, ins) := by
  rw [h.pc]
  exact h.code i _ hi

theorem taken (h : At asm base i s) (hi : asm[i]? = some (c, ins)) (hc : s.holds c = true)
    (hb : ins ≠ .bx 14#4) : Cont s (exec ins s) := by
  have hf := h.fetch hi
  constructor
  · unfold returning
    rw [hf]
    cases ins with
    | bx rm =>
      have hrm : rm ≠ 14#4 := fun hh => hb (by rw [hh])
      simp [hrm]
    | _ => rfl
  · unfold step
    rw [hf]
    simp [hc]

theorem skipped (h : At asm base i s) (hi : asm[i]? = some (c, ins)) (hc : s.holds c = false) :
    Cont s s.next := by
  have hf := h.fetch hi
  constructor
  · unfold returning
    rw [hf]
    cases ins <;> simp [hc]
  · unfold step
    rw [hf]
    simp [hc]

theorem returns (h : At asm base i s) (hi : asm[i]? = some (c, .bx 14#4))
    (hc : s.holds c = true) : Returns s { s with pc := s.r 14#4 } := by
  have hf := h.fetch hi
  refine ⟨s, .refl, ?_, ?_⟩
  · unfold returning
    rw [hf]
    simp [hc]
  · unfold step
    rw [hf]
    simp [hc, exec, Cpu.reg]

/-- Control after an instruction that does not branch. -/
theorem advance (h : At asm base i s) {t : Cpu} (hpc : t.pc = s.pc+4#32)
    (hm : Loaded asm base t.mem) : At asm base (i+1) t := by
  refine ⟨?_, hm⟩
  rw [hpc, h.pc, Nat.mul_add, BitVec.ofNat_add, BitVec.add_assoc]

theorem next (h : At asm base i s) {t : Cpu} (hpc : t.pc = s.pc) (hm : Loaded asm base t.mem) :
    At asm base (i+1) t.next := by
  apply h.advance (t := t.next) _ hm
  change t.pc+4#32 = _
  rw [hpc]

theorem jump (h : At asm base i s) (offset : Word) (j : ℕ)
    (hj : BitVec.ofNat 32 (4*i)+8#32+offset = BitVec.ofNat 32 (4*j)) :
    At asm base j { s with pc := s.pc+8#32+offset } := by
  refine ⟨?_, h.code⟩
  change s.pc+8#32+offset = _
  rw [h.pc, ← hj]
  simp only [BitVec.add_assoc]

end At

/-! Frame lemmas for memory. -/

@[simp] theorem store8_same (m : Mem) (a : Word) (b : BitVec 8) : store8 m a b a = b :=
  if_pos rfl

theorem store8_other {m : Mem} {a x : Word} (b : BitVec 8) (h : x ≠ a) :
    store8 m a b x = m x := if_neg h

theorem add_ofNat_ne (a : Word) {i j : ℕ} (hi : i < 2^32) (hj : j < 2^32) (hij : i ≠ j) :
    a+BitVec.ofNat 32 i ≠ a+BitVec.ofNat 32 j := by
  intro h
  have hh := congrArg BitVec.toNat ((BitVec.add_right_inj a).mp h)
  rw [BitVec.toNat_ofNat, BitVec.toNat_ofNat, Nat.mod_eq_of_lt hi, Nat.mod_eq_of_lt hj] at hh
  exact hij hh

theorem store32_other {m : Mem} {a x : Word} (w : Word) (h : 4 ≤ (x-a).toNat) :
    store32 m a w x = m x := by
  have hne (k : ℕ) (hk : k < 4) : x ≠ a+BitVec.ofNat 32 k := by
    intro hx
    have he : x-a = BitVec.ofNat 32 k := by
      rw [hx, BitVec.add_comm, BitVec.add_sub_cancel]
    rw [he, BitVec.toNat_ofNat] at h
    omega
  unfold store32
  rw [store8_other _ (hne 3 (by decide)), store8_other _ (hne 2 (by decide)),
    store8_other _ (hne 1 (by decide)), store8_other _ (by simpa using hne 0 (by decide))]

theorem store32_byte (m : Mem) (a w : Word) (k : ℕ) (hk : k < 4) :
    store32 m a w (a+BitVec.ofNat 32 k) = w.extractLsb' (8*k) 8 := by
  have hne (i j : ℕ) (hi : i < 4) (hj : j < 4) (hij : i ≠ j) :=
    add_ofNat_ne a (i := i) (j := j) (by omega) (by omega) hij
  have h0 : a = a+BitVec.ofNat 32 0 := by simp
  unfold store32
  rcases (by omega : k = 0 ∨ k = 1 ∨ k = 2 ∨ k = 3) with rfl | rfl | rfl | rfl
  · rw [store8_other _ (hne 0 3 (by decide) (by decide) (by decide)),
      store8_other _ (hne 0 2 (by decide) (by decide) (by decide)),
      store8_other _ (hne 0 1 (by decide) (by decide) (by decide)), ← h0, store8_same]
  · rw [store8_other _ (hne 1 3 (by decide) (by decide) (by decide)),
      store8_other _ (hne 1 2 (by decide) (by decide) (by decide)), store8_same]
  · rw [store8_other _ (hne 2 3 (by decide) (by decide) (by decide)), store8_same]
  · rw [store8_same]

theorem load32_byte (m : Mem) (a : Word) (k : ℕ) (hk : k < 4) :
    (load32 m a).extractLsb' (8*k) 8 = m (a+BitVec.ofNat 32 k) := by
  have h0 : a = a+BitVec.ofNat 32 0 := by simp
  unfold load32
  apply BitVec.eq_of_getLsbD_eq
  intro i hi
  simp only [BitVec.getLsbD_extractLsb', BitVec.getLsbD_append]
  rcases (by omega : k = 0 ∨ k = 1 ∨ k = 2 ∨ k = 3) with rfl | rfl | rfl | rfl
  · rw [← h0]
    grind
  · grind
  · grind
  · grind

/-- A load depends on its four bytes only. -/
theorem load32_congr {m m' : Mem} {a a' : Word}
    (h : ∀ k < 4, m (a+BitVec.ofNat 32 k) = m' (a'+BitVec.ofNat 32 k)) :
    load32 m a = load32 m' a' := by
  have h0 := h 0 (by decide)
  simp only [BitVec.add_zero] at h0
  unfold load32
  rw [h 3 (by decide), h 2 (by decide), h 1 (by decide), h0]

theorem load32_of_bytes {m : Mem} {a w : Word}
    (h : ∀ k < 4, m (a+BitVec.ofNat 32 k) = w.extractLsb' (8*k) 8) : load32 m a = w := by
  have h0 := h 0 (by decide)
  simp only [BitVec.add_zero] at h0
  unfold load32
  rw [h 3 (by decide), h 2 (by decide), h 1 (by decide), h0]
  apply BitVec.eq_of_getLsbD_eq
  intro i hi
  simp only [BitVec.getLsbD_extractLsb', BitVec.getLsbD_append]
  grind

/-- A program stays loaded when its own bytes do not change. -/
theorem Loaded.frame {asm : List (Cond × Instr)} {base : Word} {m m' : Mem}
    (h : Loaded asm base m)
    (hm : ∀ k < 4*asm.length, m' (base+BitVec.ofNat 32 k) = m (base+BitVec.ofNat 32 k)) :
    Loaded asm base m' := by
  intro i ci hi
  rw [← h i ci hi]
  have hlen : i < asm.length := (List.getElem?_eq_some_iff.mp hi).1
  apply congrArg decode
  apply load32_congr
  intro k hk
  rw [BitVec.add_assoc, ← BitVec.ofNat_add]
  exact hm _ (by omega)

end ChipTools.Arm
