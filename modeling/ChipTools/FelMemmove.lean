import ChipTools.FelMemory

/-! `fel_memmove`: the two copy thunks that the host uploads to the scratch area,
run instruction by instruction. -/
namespace ChipTools.Fel
open Arm

/-- The words that `fel_memcpy_up` uploads. -/
def felMemcpyUpCode (dst_addr src_addr size : Word) : List Word :=
  [0xe59f0054#32, 0xe59f1054#32, 0xe59f2054#32, 0xe0413000#32, 0xe3130003#32, 0x1a00000b#32,
   -- copyup_head
   0xe3110003#32, 0x0a000004#32, 0xe4d13001#32, 0xe4c03001#32, 0xe2522001#32, 0x5afffff9#32,
   0xe12fff1e#32,
   -- copyup_loop
   0xe2522004#32, 0x54913004#32, 0x54803004#32, 0x5afffffb#32, 0xe2822004#32,
   -- copyup_tail
   0xe2522001#32, 0x412fff1e#32, 0xe4d13001#32, 0xe4c03001#32, 0xeafffffa#32,
   dst_addr, src_addr, size]

/-- The words that `fel_memcpy_down` uploads. -/
def felMemcpyDownCode (dst_addr src_addr size : Word) : List Word :=
  [0xe59f0058#32, 0xe59f1058#32, 0xe59f2058#32, 0xe0403001#32, 0xe3130003#32, 0x1a00000c#32,
   -- copydn_head
   0xe0813002#32, 0xe3130003#32, 0x0a000004#32, 0xe2522001#32, 0x412fff1e#32, 0xe7d13002#32,
   0xe7c03002#32, 0xeafffff7#32,
   -- copydn_loop
   0xe2522004#32, 0x57913002#32, 0x57803002#32, 0x5afffffb#32, 0xe2822004#32,
   -- copydn_tail
   0xe2522001#32, 0x412fff1e#32, 0xe7d13002#32, 0xe7c03002#32, 0xeafffffa#32,
   dst_addr, src_addr, size]

/-- `size` is a `size_t` of 64 bits, so the comparison of `fel_memmove` does not wrap. -/
def felMemmoveDown (dst_addr src_addr : Word) (size : ℕ) : Bool :=
  src_addr.toNat ≤ dst_addr.toNat && dst_addr.toNat < src_addr.toNat+size

def felMemmoveCode (dst_addr src_addr : Word) (size : ℕ) : List Word :=
  if felMemmoveDown dst_addr src_addr size then
    felMemcpyDownCode dst_addr src_addr (BitVec.ofNat 32 size)
  else felMemcpyUpCode dst_addr src_addr (BitVec.ofNat 32 size)

/-- Memory after the upload. Both thunks are skipped for an empty block. -/
def felMemmoveUpload (scratch dst_addr src_addr : Word) (size : ℕ) (m : Mem) : Mem :=
  if size = 0 then m
  else awFelWrite m (leBytes (felMemmoveCode dst_addr src_addr size)) scratch

/-- `fel_memmove` on a device in state `s`: upload, then call the thunk and wait for
its return in state `t`. -/
def FelMemmove (scratch dst_addr src_addr : Word) (size : ℕ) (s t : Cpu) : Prop :=
  if size = 0 then t = s
  else Returns
    { s with pc := scratch, mem := felMemmoveUpload scratch dst_addr src_addr size s.mem } t

/-- Disassembly of the upward thunk from `copyup_head` on. -/
def copyUpAsm : List (Cond × Instr) :=
  [(.al, .alu .tst true 0#4 1#4 (.imm 3#32)),
   (.eq, .branch 16#32),
   (.al, .transfer true true 3#4 1#4 (.imm 1#32) true false true),
   (.al, .transfer false true 3#4 0#4 (.imm 1#32) true false true),
   (.al, .alu .sub true 2#4 2#4 (.imm 1#32)),
   (.pl, .branch (-28#32)),
   (.al, .bx 14#4),
   (.al, .alu .sub true 2#4 2#4 (.imm 4#32)),
   (.pl, .transfer true false 3#4 1#4 (.imm 4#32) true false true),
   (.pl, .transfer false false 3#4 0#4 (.imm 4#32) true false true),
   (.pl, .branch (-20#32)),
   (.al, .alu .add false 2#4 2#4 (.imm 4#32)),
   (.al, .alu .sub true 2#4 2#4 (.imm 1#32)),
   (.mi, .bx 14#4),
   (.al, .transfer true true 3#4 1#4 (.imm 1#32) true false true),
   (.al, .transfer false true 3#4 0#4 (.imm 1#32) true false true),
   (.al, .branch (-24#32))]

/-- Disassembly of the downward thunk from `copydn_head` on. -/
def copyDownAsm : List (Cond × Instr) :=
  [(.al, .alu .add false 3#4 1#4 (.reg 2#4 0)),
   (.al, .alu .tst true 0#4 3#4 (.imm 3#32)),
   (.eq, .branch 16#32),
   (.al, .alu .sub true 2#4 2#4 (.imm 1#32)),
   (.mi, .bx 14#4),
   (.al, .transfer true true 3#4 1#4 (.reg 2#4 0) true true false),
   (.al, .transfer false true 3#4 0#4 (.reg 2#4 0) true true false),
   (.al, .branch (-36#32)),
   (.al, .alu .sub true 2#4 2#4 (.imm 4#32)),
   (.pl, .transfer true false 3#4 1#4 (.reg 2#4 0) true true false),
   (.pl, .transfer false false 3#4 0#4 (.reg 2#4 0) true true false),
   (.pl, .branch (-20#32)),
   (.al, .alu .add false 2#4 2#4 (.imm 4#32)),
   (.al, .alu .sub true 2#4 2#4 (.imm 1#32)),
   (.mi, .bx 14#4),
   (.al, .transfer true true 3#4 1#4 (.reg 2#4 0) true true false),
   (.al, .transfer false true 3#4 0#4 (.reg 2#4 0) true true false),
   (.al, .branch (-24#32))]

/-- The six instructions that both thunks start with: three literals are loaded, and a
block whose two ends are aligned differently goes to the bytewise tail. -/
def memcpyPrologue (lit : Word) (rn rm : Reg) (tail : Word) : List (Cond × Instr) :=
  [(.al, .transfer true false 0#4 15#4 (.imm lit) true true false),
   (.al, .transfer true false 1#4 15#4 (.imm lit) true true false),
   (.al, .transfer true false 2#4 15#4 (.imm lit) true true false),
   (.al, .alu .sub false 3#4 rn (.reg rm 0)),
   (.al, .alu .tst true 0#4 3#4 (.imm 3#32)),
   (.ne, .branch tail)]

theorem felMemcpyUpCode_decode (dst src size : Word) :
    ((felMemcpyUpCode dst src size).take 23).map decode =
      (memcpyPrologue 84#32 1#4 0#4 44#32 ++ copyUpAsm).map some := by
  rfl

theorem felMemcpyDownCode_decode (dst src size : Word) :
    ((felMemcpyDownCode dst src size).take 24).map decode =
      (memcpyPrologue 88#32 0#4 1#4 48#32 ++ copyDownAsm).map some := by
  rfl

theorem loaded_copied {asm : List (Cond × Instr)} {body : Word} {m : Mem}
    (h : Loaded asm body m) (dst src : Word) (lo hi : ℕ)
    (hc : ∀ k < 4*asm.length, hi ≤ (body+BitVec.ofNat 32 k-dst).toNat) :
    Loaded asm body (copied m dst src lo hi) := by
  apply h.frame
  intro k hk
  have := hc k hk
  unfold copied
  rw [if_neg (by omega)]

theorem msb_ofNat_sub (n k : ℕ) (hn : n < 2^31) (hk : k < 2^31) :
    (BitVec.ofNat 32 n-BitVec.ofNat 32 k).msb = decide (n < k) := by
  rw [BitVec.msb_eq_decide, BitVec.toNat_sub, BitVec.toNat_ofNat, BitVec.toNat_ofNat]
  apply decide_eq_decide.mpr
  omega

theorem ofNat_sub_ofNat (n k : ℕ) (hk : k ≤ n) :
    BitVec.ofNat 32 n-BitVec.ofNat 32 k = BitVec.ofNat 32 (n-k) := by
  obtain ⟨d, rfl⟩ := Nat.exists_eq_add_of_le hk
  rw [Nat.add_sub_cancel_left, BitVec.ofNat_add, BitVec.add_comm, BitVec.add_sub_cancel]

theorem byte_of_loaded (b : BitVec 8) : (b.setWidth 32).extractLsb' 0 8 = b := by
  apply BitVec.eq_of_getLsbD_eq
  intro i hi
  simp [hi, show i < 32 from by omega]

theorem succ_offset (a : Word) (j k : ℕ) :
    a+BitVec.ofNat 32 j+BitVec.ofNat 32 k = a+BitVec.ofNat 32 (j+k) := by
  rw [BitVec.ofNat_add, BitVec.add_assoc]

/-- Bytes from `a` to the next multiple of four. -/
def headBytes (a : Word) : ℕ := (4-a.toNat%4)%4

/-- Bytes that `copyup_head` and the loops after it copy for a count of `n`. -/
def upCount (src : Word) (n : ℕ) : ℕ := if headBytes src ≤ n then n else n+1

theorem and_three_headBytes (w : Word) : (w &&& 3#32 = 0#32) ↔ headBytes w = 0 := by
  rw [← BitVec.toNat_inj, BitVec.toNat_and, show (3#32).toNat = 2^2-1 from rfl,
    Nat.and_two_pow_sub_one_eq_mod]
  change w.toNat%4 = 0 ↔ _
  unfold headBytes
  omega

theorem headBytes_succ (w : Word) (h : headBytes w ≠ 0) :
    headBytes w = headBytes (w+BitVec.ofNat 32 1)+1 := by
  unfold headBytes at *
  rw [BitVec.toNat_add, BitVec.toNat_ofNat]
  omega

section Registers

variable {asm : List (Cond × Instr)} {body lr : Word}

/-- Control is at instruction `i` of a copy loop: r0 and r1 hold the two pointers, r2 the
count, and the memory is `mem`. -/
structure CopyAt (asm : List (Cond × Instr)) (body lr : Word) (i : ℕ) (r0 r1 r2 : Word)
    (mem : Mem) (s : Cpu) : Prop where
  pos : At asm body i s
  r0 : s.r 0#4 = r0
  r1 : s.r 1#4 = r1
  r2 : s.r 2#4 = r2
  lr : s.r 14#4 = lr
  mem : s.mem = mem

namespace CopyAt

variable {i : ℕ} {r0 r1 r2 : Word} {mem : Mem} {s : Cpu}

theorem loaded (h : CopyAt asm body lr i r0 r1 r2 mem s) : Loaded asm body mem := by
  rw [← h.mem]
  exact h.pos.code

theorem subs (h : CopyAt asm body lr i r0 r1 r2 mem s) (k : Word)
    (hi : asm[i]? = some (.al, .alu .sub true 2#4 2#4 (.imm k))) :
    ∃ t, Cont s t ∧ CopyAt asm body lr (i+1) r0 r1 (r2-k) mem t ∧ t.n = (r2-k).msb := by
  have c0 := h.pos.taken hi rfl (by simp)
  refine ⟨_, c0, ⟨h.pos.advance rfl h.pos.code, h.r0, h.r1, ?_, h.lr, h.mem⟩, ?_⟩
  · change s.r 2#4-k = r2-k
    rw [h.r2]
  · change (s.r 2#4-k).msb = _
    rw [h.r2]

theorem add (h : CopyAt asm body lr i r0 r1 r2 mem s) (k : Word)
    (hi : asm[i]? = some (.al, .alu .add false 2#4 2#4 (.imm k))) :
    ∃ t, Cont s t ∧ CopyAt asm body lr (i+1) r0 r1 (r2+k) mem t := by
  have c0 := h.pos.taken hi rfl (by simp)
  refine ⟨_, c0, h.pos.advance rfl h.pos.code, h.r0, h.r1, ?_, h.lr, h.mem⟩
  change s.r 2#4+k = r2+k
  rw [h.r2]

/-- An instruction whose condition fails. -/
theorem skip (h : CopyAt asm body lr i r0 r1 r2 mem s) {c : Cond} {ins : Instr}
    (hi : asm[i]? = some (c, ins)) (hc : s.holds c = false) :
    Cont s s.next ∧ CopyAt asm body lr (i+1) r0 r1 r2 mem s.next :=
  ⟨h.pos.skipped hi hc, h.pos.next rfl h.pos.code, h.r0, h.r1, h.r2, h.lr, h.mem⟩

theorem goto (h : CopyAt asm body lr i r0 r1 r2 mem s) {c : Cond} {offset : Word} (j : ℕ)
    (hi : asm[i]? = some (c, .branch offset)) (hc : s.holds c = true)
    (hj : BitVec.ofNat 32 (4*i)+8#32+offset = BitVec.ofNat 32 (4*j)) :
    ∃ t, Cont s t ∧ CopyAt asm body lr j r0 r1 r2 mem t :=
  ⟨_, h.pos.taken hi hc (by simp), h.pos.jump offset j hj, h.r0, h.r1, h.r2, h.lr, h.mem⟩

theorem bxlr (h : CopyAt asm body lr i r0 r1 r2 mem s) {c : Cond}
    (hi : asm[i]? = some (c, .bx 14#4)) (hc : s.holds c = true) :
    ∃ t, Returns s t ∧ t.pc = lr ∧ t.mem = mem :=
  ⟨_, h.pos.returns hi hc, h.lr, h.mem⟩

theorem tst (h : CopyAt asm body lr i r0 r1 r2 mem s) (rn : Reg)
    (hi : asm[i]? = some (.al, .alu .tst true 0#4 rn (.imm 3#32))) :
    ∃ t, Cont s t ∧ CopyAt asm body lr (i+1) r0 r1 r2 mem t ∧
      t.z = decide (s.reg rn &&& 3#32 = 0#32) :=
  ⟨_, h.pos.taken hi rfl (by simp), ⟨h.pos.advance rfl h.pos.code, h.r0, h.r1, h.r2, h.lr, h.mem⟩,
    rfl⟩

end CopyAt

theorem loaded_copied_of_clear {m : Mem} (hl : Loaded asm body m) {dst src : Word} {size lo hi : ℕ}
    (hc : ∀ k < 4*asm.length, size < (body+BitVec.ofNat 32 k-dst).toNat) (hhi : hi ≤ size+1) :
    Loaded asm body (copied m dst src lo hi) := by
  apply loaded_copied hl
  intro k hk
  have := hc k hk
  omega

end Registers

section Up

variable (m : Mem) (dst src body lr : Word)

/-- `j` bytes have been copied upwards and r2 holds the count `n`. -/
def UpAt (i j n : ℕ) : Cpu → Prop :=
  CopyAt copyUpAsm body lr i (dst+BitVec.ofNat 32 j) (src+BitVec.ofNat 32 j) (BitVec.ofNat 32 n)
    (copied m dst src 0 j)

variable {m dst src body lr}
variable {size : ℕ}

theorem UpAt.start {i n : ℕ} {s : Cpu}
    (h : CopyAt copyUpAsm body lr i dst src (BitVec.ofNat 32 n) m s) :
    UpAt m dst src body lr i 0 n s := by
  unfold UpAt
  rw [copied_empty, BitVec.add_zero, BitVec.add_zero]
  exact h

/-- `ldrb r3, [r1], #1` and `strb r3, [r0], #1`. -/
theorem UpAt.copyByte {i j n : ℕ} {s : Cpu} (h : UpAt m dst src body lr i j n s)
    (hl : Loaded copyUpAsm body (copied m dst src 0 (j+1)))
    (h0 : copyUpAsm[i]? = some (.al, .transfer true true 3#4 1#4 (.imm 1#32) true false true))
    (h1 : copyUpAsm[i+1]? = some (.al, .transfer false true 3#4 0#4 (.imm 1#32) true false true))
    (hd : (src-dst).toNat+j < 2^32) :
    ∃ t, Runs s t ∧ UpAt m dst src body lr (i+2) (j+1) n t := by
  have c0 := h.pos.taken h0 rfl (by decide)
  have a0 := h.pos.next
    (t := (s.set 1#4 (s.r 1#4+1#32)).set 3#4 ((s.mem (s.r 1#4)).setWidth 32)) rfl h.pos.code
  have c1 := a0.taken h1 rfl (by decide)
  have hm : store8 s.mem (s.r 0#4) (((s.mem (s.r 1#4)).setWidth 32).extractLsb' 0 8) =
      copied m dst src 0 (j+1) := by
    rw [byte_of_loaded, h.mem, h.r0, h.r1]
    exact copy_up_byte m dst src j hd
  refine ⟨_, .head c0 (.single c1), ?_, ?_, ?_, h.r2, h.lr, hm⟩
  · apply a0.advance rfl
    rw [← hm] at hl
    exact hl
  · change s.r 0#4+1#32 = _
    rw [h.r0, succ_offset]
  · change s.r 1#4+1#32 = _
    rw [h.r1, succ_offset]

/-- `ldrpl r3, [r1], #4` and `strpl r3, [r0], #4`, both executed. -/
theorem UpAt.copyWord {j n : ℕ} {s : Cpu} (h : UpAt m dst src body lr 8 j n s)
    (hl : Loaded copyUpAsm body (copied m dst src 0 (j+4)))
    (hn : s.n = false) (hd : (src-dst).toNat+(j+3) < 2^32) :
    ∃ t, Runs s t ∧ UpAt m dst src body lr 10 (j+4) n t ∧ t.n = false := by
  have hp : s.holds .pl = true := by simp [Cpu.holds, hn]
  have c0 := h.pos.taken (i := 8) rfl hp (by decide)
  have a0 := h.pos.next
    (t := (s.set 1#4 (s.r 1#4+4#32)).set 3#4 (load32 s.mem (s.r 1#4))) rfl h.pos.code
  have c1 := a0.taken (i := 9) rfl hp (by decide)
  have hm : store32 s.mem (s.r 0#4) (load32 s.mem (s.r 1#4)) = copied m dst src 0 (j+4) := by
    rw [h.mem, h.r0, h.r1]
    exact copy_up_word m dst src j hd
  refine ⟨_, .head c0 (.single c1), ⟨?_, ?_, ?_, h.r2, h.lr, hm⟩, hn⟩
  · apply a0.advance rfl
    rw [← hm] at hl
    exact hl
  · change s.r 0#4+4#32 = _
    rw [h.r0, succ_offset]
  · change s.r 1#4+4#32 = _
    rw [h.r1, succ_offset]

section Loops

variable (hl : Loaded copyUpAsm body m)
variable (hc : ∀ k < 4*copyUpAsm.length, size < (body+BitVec.ofNat 32 k-dst).toNat)

include hl hc

/-- `copyup_tail` copies the remaining bytes one by one. -/
theorem UpAt.tail {n j : ℕ} {s : Cpu} (h : UpAt m dst src body lr 12 j n s)
    (hd : (src-dst).toNat+(j+n) ≤ 2^32) (hj : j+n ≤ size) (hn : n < 2^31) :
    ∃ t, Returns s t ∧ t.pc = lr ∧ t.mem = copied m dst src 0 (j+n) := by
  induction n generalizing j s with
  | zero =>
    obtain ⟨t, c0, h0, hmi⟩ := CopyAt.subs h 1#32 rfl
    obtain ⟨u, hu, hpc, hmem⟩ := h0.bxlr (c := .mi) rfl hmi
    exact ⟨u, Runs.returns (.single c0) hu, hpc, hmem⟩
  | succ n ih =>
    obtain ⟨t, c0, h0, hmi⟩ := CopyAt.subs h 1#32 rfl
    have hpl : t.n = false := by
      rw [hmi, msb_ofNat_sub (n+1) 1 hn (by decide)]
      simp
    obtain ⟨c1, h1⟩ := h0.skip (c := .mi) rfl hpl
    rw [ofNat_sub_ofNat (n+1) 1 (by omega), Nat.add_sub_cancel] at h1
    obtain ⟨u, hu, h2⟩ := UpAt.copyByte h1
      (loaded_copied_of_clear hl hc (by omega)) rfl rfl (by omega)
    obtain ⟨v, c2, h3⟩ := CopyAt.goto h2 12 (c := .al) rfl rfl (by decide)
    obtain ⟨w, hw, hpc, hmem⟩ := ih h3 (by omega) (by omega) (by omega)
    refine ⟨w, Runs.returns (.head c0 (.head c1 (hu.tail c2))) hw, hpc, ?_⟩
    rw [hmem, Nat.add_assoc, Nat.add_comm 1 n]

/-- `copyup_loop` moves words while at least four bytes remain. -/
theorem UpAt.loop {n j : ℕ} {s : Cpu} (h : UpAt m dst src body lr 7 j n s)
    (hd : (src-dst).toNat+(j+n) ≤ 2^32) (hj : j+n ≤ size) (hn : n < 2^31) :
    ∃ t, Returns s t ∧ t.pc = lr ∧ t.mem = copied m dst src 0 (j+n) := by
  induction n using Nat.strongRecOn generalizing j s with
  | ind n ih =>
    obtain ⟨t, c0, h0, hmi⟩ := CopyAt.subs h 4#32 rfl
    rw [msb_ofNat_sub n 4 hn (by decide)] at hmi
    by_cases h4 : n < 4
    · -- the conditional instructions fall through and the count is restored
      have hpl : t.holds .pl = false := by simp [Cpu.holds, hmi, h4]
      obtain ⟨c1, h1⟩ := h0.skip (c := .pl) rfl hpl
      obtain ⟨c2, h2⟩ := h1.skip (c := .pl) rfl hpl
      obtain ⟨c3, h3⟩ := h2.skip (c := .pl) rfl hpl
      obtain ⟨u, c4, h5⟩ := h3.add 4#32 rfl
      rw [BitVec.sub_add_cancel] at h5
      obtain ⟨w, hw, hpc, hmem⟩ := UpAt.tail hl hc h5 hd hj hn
      exact ⟨w, Runs.returns (.head c0 (.head c1 (.head c2 (.head c3 (.single c4))))) hw, hpc, hmem⟩
    · rw [ofNat_sub_ofNat n 4 (by omega)] at h0
      obtain ⟨u, hu, h1, hun⟩ := UpAt.copyWord h0
        (loaded_copied_of_clear hl hc (by omega)) (by simp [hmi, h4]) (by omega)
      obtain ⟨v, c2, h2⟩ := CopyAt.goto h1 7 (c := .pl) rfl (by simp [Cpu.holds, hun]) (by decide)
      obtain ⟨w, hw, hpc, hmem⟩ := ih (n-4) (by omega) h2 (by omega) (by omega) (by omega)
      refine ⟨w, Runs.returns (.head c0 (hu.tail c2)) hw, hpc, ?_⟩
      rw [hmem, show j+4+(n-4) = j+n from by omega]

/-- With r1 aligned `copyup_head` goes on to `copyup_loop`. -/
theorem UpAt.headAligned {n j : ℕ} {s : Cpu} (h : UpAt m dst src body lr 0 j n s)
    (ha : headBytes (src+BitVec.ofNat 32 j) = 0)
    (hd : (src-dst).toNat+(j+n) ≤ 2^32) (hj : j+n ≤ size) (hn : n < 2^31) :
    ∃ t, Returns s t ∧ t.pc = lr ∧ t.mem = copied m dst src 0 (j+n) := by
  obtain ⟨t, c0, h0, hz⟩ := CopyAt.tst h 1#4 rfl
  rw [show s.reg 1#4 = src+BitVec.ofNat 32 j from h.r1] at hz
  obtain ⟨u, c1, h1⟩ := h0.goto 7 (c := .eq) rfl
    (by simp [Cpu.holds, hz, and_three_headBytes, ha]) (by decide)
  obtain ⟨w, hw, hpc, hmem⟩ := UpAt.loop hl hc h1 hd hj hn
  exact ⟨w, Runs.returns (.head c0 (.single c1)) hw, hpc, hmem⟩

/-- Otherwise it copies a byte and decrements the count. -/
theorem UpAt.headByte {n j : ℕ} {s : Cpu} (h : UpAt m dst src body lr 0 j n s)
    (ha : headBytes (src+BitVec.ofNat 32 j) ≠ 0)
    (hd : (src-dst).toNat+j < 2^32) (hj : j ≤ size) :
    ∃ t, Runs s t ∧ t.n = (BitVec.ofNat 32 n-1#32).msb ∧
      CopyAt copyUpAsm body lr 5 (dst+BitVec.ofNat 32 (j+1)) (src+BitVec.ofNat 32 (j+1))
        (BitVec.ofNat 32 n-1#32) (copied m dst src 0 (j+1)) t := by
  obtain ⟨t, c0, h0, hz⟩ := CopyAt.tst h 1#4 rfl
  rw [show s.reg 1#4 = src+BitVec.ofNat 32 j from h.r1] at hz
  obtain ⟨c1, h1⟩ := h0.skip (c := .eq) rfl (by simp [Cpu.holds, hz, and_three_headBytes, ha])
  obtain ⟨u, hu, h2⟩ := UpAt.copyByte h1
    (loaded_copied_of_clear hl hc (by omega)) rfl rfl hd
  obtain ⟨v, c2, h3, hmi⟩ := CopyAt.subs h2 1#32 rfl
  exact ⟨v, .head c0 (.head c1 (hu.tail c2)), hmi, h3⟩

/-- `copyup_head` leaves only after the count has gone below zero, so a block that ends
before the first aligned address gets one byte too many. -/
theorem UpAt.head {n j : ℕ} {s : Cpu} (h : UpAt m dst src body lr 0 j n s)
    (hd : (src-dst).toNat+(j+n) ≤ 2^32)
    (hs : n < headBytes (src+BitVec.ofNat 32 j) → (src-dst).toNat+(j+n) < 2^32)
    (hj : j+n ≤ size) (hn : n < 2^31) :
    ∃ t, Returns s t ∧ t.pc = lr ∧
      t.mem = copied m dst src 0 (j+upCount (src+BitVec.ofNat 32 j) n) := by
  by_cases ha : headBytes (src+BitVec.ofNat 32 j) = 0
  · rw [upCount, if_pos (by omega)]
    exact UpAt.headAligned hl hc h ha hd hj hn
  induction n generalizing j s with
  | zero =>
    obtain ⟨t, ht, hmi, h0⟩ := UpAt.headByte hl hc h ha (by omega) (by omega)
    have hpl : t.holds .pl = false := by
      simp only [Cpu.holds, hmi, msb_ofNat_sub 0 1 (by decide) (by decide)]
      rfl
    obtain ⟨c0, h1⟩ := h0.skip (c := .pl) rfl hpl
    obtain ⟨w, hw, hpc, hmem⟩ := h1.bxlr (c := .al) rfl rfl
    refine ⟨w, Runs.returns (ht.tail c0) hw, hpc, ?_⟩
    rw [hmem, upCount, if_neg (by omega)]
  | succ n ih =>
    obtain ⟨t, ht, hmi, h0⟩ := UpAt.headByte hl hc h ha (by omega) (by omega)
    rw [msb_ofNat_sub (n+1) 1 hn (by decide)] at hmi
    rw [ofNat_sub_ofNat (n+1) 1 (by omega), Nat.add_sub_cancel] at h0
    obtain ⟨u, c0, h1⟩ := h0.goto 0 (c := .pl) rfl (by simp [Cpu.holds, hmi]) (by decide)
    have hb := headBytes_succ (src+BitVec.ofNat 32 j) ha
    rw [succ_offset] at hb
    have hcount : j+upCount (src+BitVec.ofNat 32 j) (n+1) =
        j+1+upCount (src+BitVec.ofNat 32 (j+1)) n := by
      unfold upCount
      split_ifs <;> omega
    rw [hcount]
    by_cases ha' : headBytes (src+BitVec.ofNat 32 (j+1)) = 0
    · obtain ⟨w, hw, hpc, hmem⟩ :=
        UpAt.headAligned hl hc h1 ha' (by omega) (by omega) (by omega)
      refine ⟨w, Runs.returns (ht.tail c0) hw, hpc, ?_⟩
      rw [hmem, upCount, if_pos (by omega)]
    · obtain ⟨w, hw, hpc, hmem⟩ := ih h1 (by omega) (by omega) (by omega) (by omega) ha'
      exact ⟨w, Runs.returns (ht.tail c0) hw, hpc, hmem⟩

end Loops

end Up

section Down

variable (m : Mem) (dst src body lr : Word)

/-- The bytes from `lo` on have been copied and r2 holds the count `n`. -/
def DownAt (size i lo n : ℕ) : Cpu → Prop :=
  CopyAt copyDownAsm body lr i dst src (BitVec.ofNat 32 n) (copied m dst src lo size)

variable {m dst src body lr}
variable {size : ℕ}

theorem DownAt.start {i : ℕ} {s : Cpu}
    (h : CopyAt copyDownAsm body lr i dst src (BitVec.ofNat 32 size) m s) :
    DownAt m dst src body lr size i size size s := by
  unfold DownAt
  rw [copied_empty]
  exact h

/-- `ldrb r3, [r1, r2]` and `strb r3, [r0, r2]`. -/
theorem DownAt.copyByte {i n : ℕ} {s : Cpu} (h : DownAt m dst src body lr size i (n+1) n s)
    (hl : Loaded copyDownAsm body (copied m dst src n size))
    (h0 : copyDownAsm[i]? =
      some (.al, .transfer true true 3#4 1#4 (.reg 2#4 0) true true false))
    (h1 : copyDownAsm[i+1]? =
      some (.al, .transfer false true 3#4 0#4 (.reg 2#4 0) true true false))
    (hn : n < size) (hd : (dst-src).toNat+size ≤ 2^32) :
    ∃ t, Runs s t ∧ DownAt m dst src body lr size (i+2) n n t := by
  have c0 := h.pos.taken h0 rfl (by decide)
  have a0 := h.pos.next
    (t := s.set 3#4 ((s.mem (s.r 1#4+s.r 2#4 <<< 0)).setWidth 32)) rfl h.pos.code
  have c1 := a0.taken h1 rfl (by decide)
  have hm : store8 s.mem (s.r 0#4+s.r 2#4 <<< 0)
      (((s.mem (s.r 1#4+s.r 2#4 <<< 0)).setWidth 32).extractLsb' 0 8) =
        copied m dst src n size := by
    rw [byte_of_loaded, h.mem, h.r0, h.r1, h.r2, BitVec.shiftLeft_zero]
    exact copy_down_byte m dst src n size hn hd
  refine ⟨_, .head c0 (.single c1), ?_, h.r0, h.r1, h.r2, h.lr, hm⟩
  apply a0.advance rfl
  rw [← hm] at hl
  exact hl

/-- `ldrpl r3, [r1, r2]` and `strpl r3, [r0, r2]`, both executed. -/
theorem DownAt.copyWord {n : ℕ} {s : Cpu} (h : DownAt m dst src body lr size 9 (n+4) n s)
    (hl : Loaded copyDownAsm body (copied m dst src n size))
    (hs : s.n = false) (hn : n+4 ≤ size) (hd : (dst-src).toNat+size ≤ 2^32) :
    ∃ t, Runs s t ∧ DownAt m dst src body lr size 11 n n t ∧ t.n = false := by
  have hp : s.holds .pl = true := by simp [Cpu.holds, hs]
  have c0 := h.pos.taken (i := 9) rfl hp (by decide)
  have a0 := h.pos.next
    (t := s.set 3#4 (load32 s.mem (s.r 1#4+s.r 2#4 <<< 0))) rfl h.pos.code
  have c1 := a0.taken (i := 10) rfl hp (by decide)
  have hm : store32 s.mem (s.r 0#4+s.r 2#4 <<< 0) (load32 s.mem (s.r 1#4+s.r 2#4 <<< 0)) =
      copied m dst src n size := by
    rw [h.mem, h.r0, h.r1, h.r2, BitVec.shiftLeft_zero]
    exact copy_down_word m dst src n size hn hd
  refine ⟨_, .head c0 (.single c1), ⟨?_, h.r0, h.r1, h.r2, h.lr, hm⟩, hs⟩
  apply a0.advance rfl
  rw [← hm] at hl
  exact hl

section Loops

variable (hl : Loaded copyDownAsm body m)
variable (hc : ∀ k < 4*copyDownAsm.length, size < (body+BitVec.ofNat 32 k-dst).toNat)

include hl hc

/-- A byte moved by `subs r2, #1`, `bxmi lr`, `ldrb`, `strb`, as head and tail both do. -/
theorem DownAt.byteStep {i n : ℕ} {s : Cpu} (h : DownAt m dst src body lr size i (n+1) (n+1) s)
    (h0 : copyDownAsm[i]? = some (.al, .alu .sub true 2#4 2#4 (.imm 1#32)))
    (h1 : copyDownAsm[i+1]? = some (.mi, .bx 14#4))
    (h2 : copyDownAsm[i+2]? =
      some (.al, .transfer true true 3#4 1#4 (.reg 2#4 0) true true false))
    (h3 : copyDownAsm[i+3]? =
      some (.al, .transfer false true 3#4 0#4 (.reg 2#4 0) true true false))
    (hn : n < size) (hsz : size < 2^31) (hd : (dst-src).toNat+size ≤ 2^32) :
    ∃ t, Runs s t ∧ DownAt m dst src body lr size (i+4) n n t := by
  obtain ⟨t, c0, a0, hmi⟩ := CopyAt.subs h 1#32 h0
  have hpl : t.n = false := by
    rw [hmi, msb_ofNat_sub (n+1) 1 (by omega) (by decide)]
    simp
  obtain ⟨c1, a1⟩ := a0.skip h1 hpl
  rw [ofNat_sub_ofNat (n+1) 1 (by omega), Nat.add_sub_cancel] at a1
  obtain ⟨u, hu, a2⟩ := DownAt.copyByte a1
    (loaded_copied_of_clear hl hc (by omega)) h2 h3 hn hd
  exact ⟨u, .head c0 (.head c1 hu), a2⟩

omit hl hc in
/-- With the count at zero `subs r2, #1` and `bxmi lr` leave. -/
theorem DownAt.leave {i : ℕ} {s : Cpu} (h : DownAt m dst src body lr size i 0 0 s)
    (h0 : copyDownAsm[i]? = some (.al, .alu .sub true 2#4 2#4 (.imm 1#32)))
    (h1 : copyDownAsm[i+1]? = some (.mi, .bx 14#4)) :
    ∃ t, Returns s t ∧ t.pc = lr ∧ t.mem = copied m dst src 0 size := by
  obtain ⟨t, c0, a0, hmi⟩ := CopyAt.subs h 1#32 h0
  obtain ⟨u, hu, hpc, hmem⟩ := a0.bxlr h1 hmi
  exact ⟨u, Runs.returns (.single c0) hu, hpc, hmem⟩

/-- `copydn_tail` copies the remaining bytes one by one. -/
theorem DownAt.tail {n : ℕ} {s : Cpu} (h : DownAt m dst src body lr size 13 n n s)
    (hn : n ≤ size) (hsz : size < 2^31) (hd : (dst-src).toNat+size ≤ 2^32) :
    ∃ t, Returns s t ∧ t.pc = lr ∧ t.mem = copied m dst src 0 size := by
  induction n generalizing s with
  | zero => exact DownAt.leave h rfl rfl
  | succ n ih =>
    obtain ⟨t, ht, h0⟩ := DownAt.byteStep hl hc h rfl rfl rfl rfl (by omega) hsz hd
    obtain ⟨u, c1, h1⟩ := CopyAt.goto h0 13 (c := .al) rfl rfl (by decide)
    obtain ⟨w, hw, hpc, hmem⟩ := ih h1 (by omega)
    exact ⟨w, Runs.returns (ht.tail c1) hw, hpc, hmem⟩

/-- `copydn_loop` moves words while at least four bytes remain. -/
theorem DownAt.loop {n : ℕ} {s : Cpu} (h : DownAt m dst src body lr size 8 n n s)
    (hn : n ≤ size) (hsz : size < 2^31) (hd : (dst-src).toNat+size ≤ 2^32) :
    ∃ t, Returns s t ∧ t.pc = lr ∧ t.mem = copied m dst src 0 size := by
  induction n using Nat.strongRecOn generalizing s with
  | ind n ih =>
    obtain ⟨t, c0, h0, hmi⟩ := CopyAt.subs h 4#32 rfl
    rw [msb_ofNat_sub n 4 (by omega) (by decide)] at hmi
    by_cases h4 : n < 4
    · -- the conditional instructions fall through and the count is restored
      have hpl : t.holds .pl = false := by simp [Cpu.holds, hmi, h4]
      obtain ⟨c1, h1⟩ := h0.skip (c := .pl) rfl hpl
      obtain ⟨c2, h2⟩ := h1.skip (c := .pl) rfl hpl
      obtain ⟨c3, h3⟩ := h2.skip (c := .pl) rfl hpl
      obtain ⟨u, c4, h5⟩ := h3.add 4#32 rfl
      rw [BitVec.sub_add_cancel] at h5
      obtain ⟨w, hw, hpc, hmem⟩ := DownAt.tail hl hc h5 hn hsz hd
      exact ⟨w, Runs.returns (.head c0 (.head c1 (.head c2 (.head c3 (.single c4))))) hw, hpc, hmem⟩
    · rw [ofNat_sub_ofNat n 4 (by omega)] at h0
      have h1 : DownAt m dst src body lr size 9 (n-4+4) (n-4) t := by
        rw [Nat.sub_add_cancel (by omega)]
        exact h0
      obtain ⟨u, hu, h2, hun⟩ := DownAt.copyWord h1
        (loaded_copied_of_clear hl hc (by omega)) (by simp [hmi, h4]) (by omega) hd
      obtain ⟨v, c2, h3⟩ := CopyAt.goto h2 8 (c := .pl) rfl (by simp [Cpu.holds, hun]) (by decide)
      obtain ⟨w, hw, hpc, hmem⟩ := ih (n-4) (by omega) h3 (by omega)
      exact ⟨w, Runs.returns (.head c0 (hu.tail c2)) hw, hpc, hmem⟩

omit hl hc in
/-- The first three instructions of `copydn_head` choose between the word loop and
another byte. -/
theorem DownAt.headTest {n : ℕ} {s : Cpu} (h : DownAt m dst src body lr size 0 n n s) :
    ∃ t, Runs s t ∧
      (DownAt m dst src body lr size 8 n n t ∨ DownAt m dst src body lr size 3 n n t) := by
  have c0 := h.pos.taken (i := 0) rfl rfl (by decide)
  have h0 : CopyAt copyDownAsm body lr 1 dst src (BitVec.ofNat 32 n) (copied m dst src n size)
      (s.set 3#4 (s.r 1#4+s.r 2#4 <<< 0)).next :=
    ⟨h.pos.next rfl h.pos.code, h.r0, h.r1, h.r2, h.lr, h.mem⟩
  obtain ⟨t, c1, h1, hz⟩ := h0.tst 3#4 rfl
  by_cases ht : t.z = true
  · obtain ⟨u, c2, h2⟩ := h1.goto 8 (c := .eq) rfl ht (by decide)
    exact ⟨u, .head c0 (.head c1 (.single c2)), .inl h2⟩
  · obtain ⟨c2, h2⟩ := h1.skip (c := .eq) rfl (by simpa [Cpu.holds] using ht)
    exact ⟨_, .head c0 (.head c1 (.single c2)), .inr h2⟩

/-- `copydn_head` copies bytes until r1 plus the count is aligned, and checks the count
before every byte. -/
theorem DownAt.head {n : ℕ} {s : Cpu} (h : DownAt m dst src body lr size 0 n n s)
    (hn : n ≤ size) (hsz : size < 2^31) (hd : (dst-src).toNat+size ≤ 2^32) :
    ∃ t, Returns s t ∧ t.pc = lr ∧ t.mem = copied m dst src 0 size := by
  induction n generalizing s with
  | zero =>
    obtain ⟨t, ht, h0⟩ := DownAt.headTest h
    rcases h0 with h0 | h0
    · obtain ⟨w, hw, hpc, hmem⟩ := DownAt.loop hl hc h0 hn hsz hd
      exact ⟨w, Runs.returns ht hw, hpc, hmem⟩
    · obtain ⟨w, hw, hpc, hmem⟩ := DownAt.leave h0 rfl rfl
      exact ⟨w, Runs.returns ht hw, hpc, hmem⟩
  | succ n ih =>
    obtain ⟨t, ht, h0⟩ := DownAt.headTest h
    rcases h0 with h0 | h0
    · obtain ⟨w, hw, hpc, hmem⟩ := DownAt.loop hl hc h0 hn hsz hd
      exact ⟨w, Runs.returns ht hw, hpc, hmem⟩
    · obtain ⟨u, hu, h1⟩ := DownAt.byteStep hl hc h0 rfl rfl rfl rfl (by omega) hsz hd
      obtain ⟨v, c1, h2⟩ := CopyAt.goto h1 0 (c := .al) rfl rfl (by decide)
      obtain ⟨w, hw, hpc, hmem⟩ := ih h2 (by omega)
      exact ⟨w, Runs.returns (ht.trans (hu.tail c1)) hw, hpc, hmem⟩

end Loops

end Down

section Prologue

variable {asm : List (Cond × Instr)} {lit : Word} {rn rm : Reg} {br : Word}

/-- The instructions behind the prologue, taken as a program of their own. -/
theorem CopyAt.body {base lr r0 r1 r2 : Word} {mem : Mem} {s : Cpu} {i : ℕ}
    (h : CopyAt (memcpyPrologue lit rn rm br ++ asm) base lr (6+i) r0 r1 r2 mem s) :
    CopyAt asm (base+24#32) lr i r0 r1 r2 mem s := by
  have hoff (k : ℕ) : base+BitVec.ofNat 32 (4*(6+k)) = base+24#32+BitVec.ofNat 32 (4*k) := by
    rw [Nat.mul_add, BitVec.ofNat_add, ← BitVec.add_assoc]
  refine ⟨⟨?_, ?_⟩, h.r0, h.r1, h.r2, h.lr, h.mem⟩
  · rw [h.pos.pc, hoff]
  · intro k ci hk
    rw [← hoff]
    apply h.pos.code
    rw [List.getElem?_append_right (by simp [memcpyPrologue])]
    simpa [memcpyPrologue] using hk

/-- `ldr rd, [pc, #lit]`. -/
theorem ldr_literal {prog : List (Cond × Instr)} {base : Word} {i : ℕ} {s : Cpu} {rd : Reg}
    (h : At prog base i s)
    (hi : prog[i]? = some (.al, .transfer true false rd 15#4 (.imm lit) true true false)) :
    Cont s (s.set rd (load32 s.mem (base+BitVec.ofNat 32 (4*i)+8#32+lit))).next ∧
    At prog base (i+1) (s.set rd (load32 s.mem (base+BitVec.ofNat 32 (4*i)+8#32+lit))).next := by
  have c0 := h.taken hi rfl (by simp)
  rw [← h.pc]
  exact ⟨c0, h.next rfl h.code⟩

theorem sub_and_three (a b : Word) : (a-b &&& 3#32 = 0#32) ↔ a.toNat%4 = b.toNat%4 := by
  rw [← BitVec.toNat_inj, BitVec.toNat_and, show (3#32).toNat = 2^2-1 from rfl,
    Nat.and_two_pow_sub_one_eq_mod, BitVec.toNat_sub]
  change (2^32-b.toNat+a.toNat)%2^32%4 = 0 ↔ _
  omega

theorem prologue_literals {base dst src cnt : Word} {s : Cpu}
    (h : At (memcpyPrologue lit rn rm br ++ asm) base 0 s)
    (hdst : load32 s.mem (base+BitVec.ofNat 32 (4*0)+8#32+lit) = dst)
    (hsrc : load32 s.mem (base+BitVec.ofNat 32 (4*1)+8#32+lit) = src)
    (hcnt : load32 s.mem (base+BitVec.ofNat 32 (4*2)+8#32+lit) = cnt) :
    ∃ t, Runs s t ∧
      CopyAt (memcpyPrologue lit rn rm br ++ asm) base (s.r 14#4) 3 dst src cnt s.mem t := by
  obtain ⟨c0, a0⟩ := ldr_literal h rfl
  obtain ⟨c1, a1⟩ := ldr_literal a0 rfl
  obtain ⟨c2, a2⟩ := ldr_literal a1 rfl
  exact ⟨_, .head c0 (.head c1 (.single c2)), a2, hdst, hsrc, hcnt, rfl, rfl⟩

/-- `sub r3, rn, rm` and `tst r3, #3`. -/
theorem prologue_test {base lr dst src cnt : Word} {mem : Mem} {s : Cpu}
    (h : CopyAt (memcpyPrologue lit rn rm br ++ asm) base lr 3 dst src cnt mem s)
    (hr : rn = 1#4 ∧ rm = 0#4 ∨ rn = 0#4 ∧ rm = 1#4) :
    ∃ t, Runs s t ∧ CopyAt (memcpyPrologue lit rn rm br ++ asm) base lr 5 dst src cnt mem t ∧
      t.z = decide (dst.toNat%4 = src.toNat%4) := by
  have c0 := h.pos.taken rfl rfl (by simp)
  have h0 : CopyAt (memcpyPrologue lit rn rm br ++ asm) base lr 4 dst src cnt mem
      (s.set 3#4 (s.reg rn-s.reg rm <<< 0)).next :=
    ⟨h.pos.next rfl h.pos.code, h.r0, h.r1, h.r2, h.lr, h.mem⟩
  obtain ⟨t, c1, h1, hz⟩ := h0.tst 3#4 rfl
  refine ⟨t, .head c0 (.single c1), h1, ?_⟩
  rw [hz]
  change decide (s.reg rn-s.reg rm <<< 0 &&& 3#32 = 0#32) = _
  apply decide_eq_decide.mpr
  rw [BitVec.shiftLeft_zero, sub_and_three]
  rcases hr with ⟨rfl, rfl⟩ | ⟨rfl, rfl⟩
  · change (s.r 1#4).toNat%4 = (s.r 0#4).toNat%4 ↔ _
    rw [h.r0, h.r1]
    exact eq_comm
  · change (s.r 0#4).toNat%4 = (s.r 1#4).toNat%4 ↔ _
    rw [h.r0, h.r1]

/-- Both prologues end at the head when the two addresses agree modulo four and at the
tail, instruction `j`, when they do not. -/
theorem prologue_runs {base dst src cnt : Word} {s : Cpu} (j : ℕ)
    (h : At (memcpyPrologue lit rn rm br ++ asm) base 0 s)
    (hr : rn = 1#4 ∧ rm = 0#4 ∨ rn = 0#4 ∧ rm = 1#4)
    (hj : BitVec.ofNat 32 (4*5)+8#32+br = BitVec.ofNat 32 (4*(6+j)))
    (hdst : load32 s.mem (base+BitVec.ofNat 32 (4*0)+8#32+lit) = dst)
    (hsrc : load32 s.mem (base+BitVec.ofNat 32 (4*1)+8#32+lit) = src)
    (hcnt : load32 s.mem (base+BitVec.ofNat 32 (4*2)+8#32+lit) = cnt) :
    ∃ t, Runs s t ∧ CopyAt asm (base+24#32) (s.r 14#4)
      (if dst.toNat%4 = src.toNat%4 then 0 else j) dst src cnt s.mem t := by
  obtain ⟨t, ht, h0⟩ := prologue_literals h hdst hsrc hcnt
  obtain ⟨u, hu, h1, hz⟩ := prologue_test h0 hr
  by_cases ha : dst.toNat%4 = src.toNat%4
  · obtain ⟨c2, h2⟩ := h1.skip (c := .ne) rfl (by simp [Cpu.holds, hz, ha])
    rw [if_pos ha]
    exact ⟨_, ht.trans (hu.tail c2), CopyAt.body (i := 0) h2⟩
  · obtain ⟨v, c2, h2⟩ := h1.goto (6+j) (c := .ne) rfl (by simp [Cpu.holds, hz, ha]) hj
    rw [if_neg ha]
    exact ⟨v, ht.trans (hu.tail c2), h2.body⟩

/-- An uploaded thunk whose literals start at word `l`, from its entry to the loops. -/
theorem thunk_entered (s : Cpu) (scratch : Word) {dst src cnt : Word} {ws : List Word}
    {n : ℕ} (l j : ℕ) (hlen : 4*ws.length ≤ 2^32)
    (hd : (ws.take n).map decode = (memcpyPrologue lit rn rm br ++ asm).map some)
    (hr : rn = 1#4 ∧ rm = 0#4 ∨ rn = 0#4 ∧ rm = 1#4)
    (hj : BitVec.ofNat 32 (4*5)+8#32+br = BitVec.ofNat 32 (4*(6+j)))
    (hl : 8#32+lit = BitVec.ofNat 32 (4*l))
    (hdst : ws[l]? = some dst) (hsrc : ws[l+1]? = some src) (hcnt : ws[l+2]? = some cnt) :
    ∃ t, Runs { s with pc := scratch, mem := awFelWrite s.mem (leBytes ws) scratch } t ∧
      CopyAt asm (scratch+24#32) (s.r 14#4) (if dst.toNat%4 = src.toNat%4 then 0 else j)
        dst src cnt (awFelWrite s.mem (leBytes ws) scratch) t := by
  have hlit (i : ℕ) (w : Word) (hi : ws[l+i]? = some w) :
      load32 (awFelWrite s.mem (leBytes ws) scratch)
        (scratch+BitVec.ofNat 32 (4*i)+8#32+lit) = w := by
    obtain ⟨hiw, he⟩ := List.getElem?_eq_some_iff.mp hi
    rw [← he, ← load32_upload s.mem ws scratch (l+i) hiw hlen, Nat.mul_add,
      BitVec.ofNat_add, ← hl, BitVec.add_assoc, BitVec.add_assoc, BitVec.add_comm (8#32+lit)]
  have h0 : At (memcpyPrologue lit rn rm br ++ asm) scratch 0
      { s with pc := scratch, mem := awFelWrite s.mem (leBytes ws) scratch } :=
    ⟨(BitVec.add_zero scratch).symm, loaded_upload s.mem ws scratch _ n hlen hd⟩
  exact prologue_runs j h0 hr hj (hlit 0 dst hdst) (hlit 1 src hsrc) (hlit 2 cnt hcnt)

end Prologue

/-- What the caller promises: no address wraps, and neither block meets the area that the
thunk is uploaded to. -/
structure MoveArgs (scratch dst_addr src_addr : Word) (size : ℕ) : Prop where
  size_lt : size < 2^31
  dst_le : dst_addr.toNat+size ≤ 2^32
  src_le : src_addr.toNat+size ≤ 2^32
  scratch_le : scratch.toNat+4*(felMemmoveCode dst_addr src_addr size).length ≤ 2^32
  dst_clear : dst_addr.toNat+size ≤ scratch.toNat ∨
    scratch.toNat+4*(felMemmoveCode dst_addr src_addr size).length ≤ dst_addr.toNat
  src_clear : src_addr.toNat+size ≤ scratch.toNat ∨
    scratch.toNat+4*(felMemmoveCode dst_addr src_addr size).length ≤ src_addr.toNat

/-- The case that `copyup_head` gets wrong. -/
def overrun (dst_addr src_addr : Word) (size : ℕ) : Bool :=
  !felMemmoveDown dst_addr src_addr size && decide (dst_addr.toNat%4 = src_addr.toNat%4) &&
    decide (size ≠ 0) && decide (size < headBytes src_addr)

section Main

variable {scratch dst src : Word} {size : ℕ}

theorem MoveArgs.code_clear (h : MoveArgs scratch dst src size) (k : ℕ) (hk : k < 80)
    (hlen : 104 ≤ 4*(felMemmoveCode dst src size).length) :
    size < (scratch+24#32+BitVec.ofNat 32 k-dst).toNat := by
  have h1 := h.dst_le
  have h2 := h.scratch_le
  have hoff : (scratch+24#32+BitVec.ofNat 32 k).toNat = scratch.toNat+24+k := by
    rw [BitVec.toNat_add, BitVec.toNat_add, BitVec.toNat_ofNat, BitVec.toNat_ofNat]
    omega
  rw [BitVec.toNat_sub, hoff]
  rcases h.dst_clear with hb | ha
  · omega
  · omega

theorem upCount_overrun (hup : felMemmoveDown dst src size = false)
    (ha : dst.toNat%4 = src.toNat%4) (hs : size ≠ 0) :
    upCount src size = if overrun dst src size then size+1 else size := by
  have ho : overrun dst src size = decide (size < headBytes src) := by
    simp [overrun, hup, ha, hs]
  by_cases hb : headBytes src ≤ size
  · rw [upCount, if_pos hb, ho, if_neg (by simpa using hb)]
  · rw [upCount, if_neg hb, ho, if_pos (by simpa using hb)]

/-- The upward thunk copies `size` bytes, and one more in the case of `overrun`. -/
theorem felMemcpyUp_returns (h : MoveArgs scratch dst src size) (hs : size ≠ 0)
    (hup : felMemmoveDown dst src size = false) (s : Cpu) :
    ∃ t, FelMemmove scratch dst src size s t ∧
      t.mem = copied (felMemmoveUpload scratch dst src size s.mem) dst src 0
        (if overrun dst src size then size+1 else size) := by
  have hcode : felMemmoveCode dst src size = felMemcpyUpCode dst src (BitVec.ofNat 32 size) := by
    rw [felMemmoveCode, hup]
    rfl
  have hup' : ¬(src.toNat ≤ dst.toNat ∧ dst.toNat < src.toNat+size) := by
    simpa [felMemmoveDown] using hup
  have hd : (src-dst).toNat+(0+size) ≤ 2^32 := by
    have := h.src_le
    rw [BitVec.toNat_sub]
    omega
  have hclear (k : ℕ) (hk : k < 4*copyUpAsm.length) :=
    h.code_clear k (Nat.lt_trans hk (by decide)) (by rw [hcode]; exact Nat.le_refl 104)
  unfold FelMemmove felMemmoveUpload
  simp only [if_neg hs, hcode]
  obtain ⟨t, ht, h0⟩ := thunk_entered s scratch 23 12 (Nat.le_of_ble_eq_true rfl)
    (felMemcpyUpCode_decode dst src (BitVec.ofNat 32 size)) (.inl ⟨rfl, rfl⟩) (by decide)
    (by decide) rfl rfl rfl
  have h1 := UpAt.start h0
  by_cases ha : dst.toNat%4 = src.toNat%4
  · rw [if_pos ha] at h1
    -- the extra byte stays clear of a wrap because the count is not a multiple of four
    have hov : size < headBytes (src+BitVec.ofNat 32 0) → (src-dst).toNat+(0+size) < 2^32 := by
      unfold headBytes
      rw [BitVec.toNat_sub, BitVec.add_zero] at *
      omega
    obtain ⟨u, hu, -, hmem⟩ := UpAt.head h0.loaded hclear h1 hd hov (by omega) h.size_lt
    refine ⟨u, Runs.returns ht hu, ?_⟩
    rw [hmem, Nat.zero_add, BitVec.add_zero, upCount_overrun hup ha hs]
  · rw [if_neg ha] at h1
    obtain ⟨u, hu, -, hmem⟩ := UpAt.tail h0.loaded hclear h1 hd (by omega) h.size_lt
    refine ⟨u, Runs.returns ht hu, ?_⟩
    rw [hmem, Nat.zero_add]
    simp [overrun, ha]

theorem felMemcpyDown_returns (h : MoveArgs scratch dst src size) (hs : size ≠ 0)
    (hdown : felMemmoveDown dst src size = true) (s : Cpu) :
    ∃ t, FelMemmove scratch dst src size s t ∧
      t.mem = copied (felMemmoveUpload scratch dst src size s.mem) dst src 0 size := by
  have hcode : felMemmoveCode dst src size =
      felMemcpyDownCode dst src (BitVec.ofNat 32 size) := by
    rw [felMemmoveCode, hdown]
    rfl
  have hdown' : src.toNat ≤ dst.toNat ∧ dst.toNat < src.toNat+size := by
    simpa [felMemmoveDown] using hdown
  have hd : (dst-src).toNat+size ≤ 2^32 := by
    have := h.dst_le
    rw [BitVec.toNat_sub]
    omega
  have hclear (k : ℕ) (hk : k < 4*copyDownAsm.length) :=
    h.code_clear k (Nat.lt_trans hk (by decide)) (by rw [hcode]; exact Nat.le_of_ble_eq_true rfl)
  unfold FelMemmove felMemmoveUpload
  simp only [if_neg hs, hcode]
  obtain ⟨t, ht, h0⟩ := thunk_entered s scratch 24 13 (Nat.le_of_ble_eq_true rfl)
    (felMemcpyDownCode_decode dst src (BitVec.ofNat 32 size)) (.inr ⟨rfl, rfl⟩) (by decide)
    (by decide) rfl rfl rfl
  have h1 := DownAt.start h0
  by_cases ha : dst.toNat%4 = src.toNat%4
  · rw [if_pos ha] at h1
    obtain ⟨u, hu, -, hmem⟩ := DownAt.head h0.loaded hclear h1 (Nat.le_refl size) h.size_lt hd
    exact ⟨u, Runs.returns ht hu, hmem⟩
  · rw [if_neg ha] at h1
    obtain ⟨u, hu, -, hmem⟩ := DownAt.tail h0.loaded hclear h1 (Nat.le_refl size) h.size_lt hd
    exact ⟨u, Runs.returns ht hu, hmem⟩

/-- Memory `m'` is `m`, as the upload left it, with the block moved. -/
def Moved (m old m' : Mem) (dst_addr src_addr : Word) (size : ℕ) : Prop :=
  (∀ k < size, m' (dst_addr+BitVec.ofNat 32 k) = old (src_addr+BitVec.ofNat 32 k)) ∧
  ∀ x, size ≤ (x-dst_addr).toNat → m' x = m x

theorem upload_outside (m : Mem) (x : Word)
    (hx : 4*(felMemmoveCode dst src size).length ≤ (x-scratch).toNat) :
    felMemmoveUpload scratch dst src size m x = m x := by
  unfold felMemmoveUpload
  split_ifs
  · rfl
  · exact awFelWrite_outside _ _ _ _ (by rw [leBytes_length]; exact hx)

/-- The source block is not touched by the upload. -/
theorem upload_source (h : MoveArgs scratch dst src size) (m : Mem) (k : ℕ) (hk : k < size) :
    felMemmoveUpload scratch dst src size m (src+BitVec.ofNat 32 k) =
      m (src+BitVec.ofNat 32 k) := by
  have h1 := h.src_le
  have h2 := h.scratch_le
  apply upload_outside
  rw [BitVec.toNat_sub, BitVec.toNat_add, BitVec.toNat_ofNat]
  rcases h.src_clear with hb | ha
  · omega
  · omega

theorem moved_copied (h : MoveArgs scratch dst src size) (m : Mem) :
    Moved (felMemmoveUpload scratch dst src size m) m
      (copied (felMemmoveUpload scratch dst src size m) dst src 0 size) dst src size := by
  have hlt := h.size_lt
  constructor
  · intro k hk
    unfold copied
    rw [sub_dst_toNat dst k (by omega), if_pos (by omega), BitVec.add_comm dst,
      BitVec.add_sub_cancel, upload_source h m k hk]
  · intro x hx
    unfold copied
    rw [if_neg (by omega)]

/-- With one byte more the move is right only if that byte changes nothing. -/
theorem moved_copied_succ (h : MoveArgs scratch dst src size) (m : Mem) :
    Moved (felMemmoveUpload scratch dst src size m) m
        (copied (felMemmoveUpload scratch dst src size m) dst src 0 (size+1)) dst src size ↔
      felMemmoveUpload scratch dst src size m (src+BitVec.ofNat 32 size) =
        felMemmoveUpload scratch dst src size m (dst+BitVec.ofNat 32 size) := by
  have hlt := h.size_lt
  have hlast : copied (felMemmoveUpload scratch dst src size m) dst src 0 (size+1)
      (dst+BitVec.ofNat 32 size) =
        felMemmoveUpload scratch dst src size m (src+BitVec.ofNat 32 size) := by
    unfold copied
    rw [sub_dst_toNat dst size (by omega), if_pos (by omega), BitVec.add_comm dst,
      BitVec.add_sub_cancel]
  constructor
  · intro hm
    rw [← hlast]
    exact hm.2 _ (Nat.le_of_eq (sub_dst_toNat dst size (by omega)).symm)
  · intro he
    have heq : copied (felMemmoveUpload scratch dst src size m) dst src 0 (size+1) =
        copied (felMemmoveUpload scratch dst src size m) dst src 0 size := by
      funext x
      by_cases hx : (x-dst).toNat = size
      · rw [eq_add_of_offset dst x size hx, hlast, he]
        unfold copied
        rw [sub_dst_toNat dst size (by omega), if_neg (by omega)]
      · unfold copied
        split_ifs <;> first | rfl | omega
    rw [heq]
    exact moved_copied h m

/-- Either thunk returns, with the block and perhaps one more byte copied. -/
theorem felMemmove_returns (h : MoveArgs scratch dst src size) (hs : size ≠ 0) (s : Cpu) :
    ∃ t, FelMemmove scratch dst src size s t ∧
      t.mem = copied (felMemmoveUpload scratch dst src size s.mem) dst src 0
        (if overrun dst src size then size+1 else size) := by
  cases hdir : felMemmoveDown dst src size with
  | false => exact felMemcpyUp_returns h hs hdir s
  | true =>
    have ho : overrun dst src size = false := by simp [overrun, hdir]
    rw [ho]
    exact felMemcpyDown_returns h hs hdir s

theorem moved_iff (h : MoveArgs scratch dst src size) (hs : size ≠ 0) (s : Cpu) :
    (∃ t, FelMemmove scratch dst src size s t ∧
      Moved (felMemmoveUpload scratch dst src size s.mem) s.mem t.mem dst src size) ↔
    (overrun dst src size = false ∨
      felMemmoveUpload scratch dst src size s.mem (src+BitVec.ofNat 32 size) =
        felMemmoveUpload scratch dst src size s.mem (dst+BitVec.ofNat 32 size)) := by
  obtain ⟨t, ht, hmem⟩ := felMemmove_returns h hs s
  have hex : (∃ u, FelMemmove scratch dst src size s u ∧
      Moved (felMemmoveUpload scratch dst src size s.mem) s.mem u.mem dst src size) ↔
        Moved (felMemmoveUpload scratch dst src size s.mem) s.mem t.mem dst src size := by
    constructor
    · rintro ⟨u, hu, hmoved⟩
      rw [FelMemmove, if_neg hs] at ht hu
      rw [Returns.unique ht hu]
      exact hmoved
    · intro hmoved
      exact ⟨t, ht, hmoved⟩
  rw [hex, hmem]
  cases ho : overrun dst src size with
  | false => simpa using moved_copied h s.mem
  | true => simpa using moved_copied_succ h s.mem

end Main

/-- `fel_memmove` moves the block and nothing else, except when the upward thunk is used on
equally aligned addresses and the block ends before the first word boundary: one more byte
is copied then, which shows unless the two bytes behind the blocks agree. -/
theorem fel_memmove_moves_iff (scratch dst src : Word) (size : ℕ)
    (h : MoveArgs scratch dst src size) (s : Cpu) :
    (∃ t, FelMemmove scratch dst src size s t ∧
      Moved (felMemmoveUpload scratch dst src size s.mem) s.mem t.mem dst src size) ↔
    (overrun dst src size = false ∨
      felMemmoveUpload scratch dst src size s.mem (src+BitVec.ofNat 32 size) =
        felMemmoveUpload scratch dst src size s.mem (dst+BitVec.ofNat 32 size)) := by
  by_cases hs : size = 0
  · have ho : overrun dst src size = false := by simp [overrun, hs]
    refine iff_of_true ⟨s, ?_, ?_⟩ (.inl ho)
    · rw [FelMemmove, if_pos hs]
    · have hmoved := moved_copied h s.mem
      rw [hs, copied_empty] at hmoved
      rw [hs]
      simpa [felMemmoveUpload] using hmoved
  · exact moved_iff h hs s

/-- A machine about to call a thunk, with one byte set. -/
def callerWith (a : Word) : Cpu :=
  { r := fun _ => 0#32, pc := 0#32, n := false, z := false, c := false, v := false,
    mem := fun x => if x = a then 1#8 else 0#8 }

/-- Seven bytes moved by one to a higher, overlapping address. -/
theorem fel_memmove_moves_overlapping :
    MoveArgs 0x2000#32 0x1001#32 0x1000#32 7 ∧
    ∃ t, FelMemmove 0x2000#32 0x1001#32 0x1000#32 7 (callerWith 0x1003#32) t ∧
      Moved (felMemmoveUpload 0x2000#32 0x1001#32 0x1000#32 7 (callerWith 0x1003#32).mem)
        (callerWith 0x1003#32).mem t.mem 0x1001#32 0x1000#32 7 := by
  have h : MoveArgs 0x2000#32 0x1001#32 0x1000#32 7 := by
    constructor <;> decide
  exact ⟨h, (fel_memmove_moves_iff _ _ _ _ h _).mpr (.inl (by decide))⟩

/-- One byte from `0x1101` to `0x1001`: the byte behind it is overwritten as well. -/
theorem fel_memmove_overrun :
    MoveArgs 0x2000#32 0x1001#32 0x1101#32 1 ∧
    ¬∃ t, FelMemmove 0x2000#32 0x1001#32 0x1101#32 1 (callerWith 0x1102#32) t ∧
      Moved (felMemmoveUpload 0x2000#32 0x1001#32 0x1101#32 1 (callerWith 0x1102#32).mem)
        (callerWith 0x1102#32).mem t.mem 0x1001#32 0x1101#32 1 := by
  have h : MoveArgs 0x2000#32 0x1001#32 0x1101#32 1 := by
    constructor <;> decide
  refine ⟨h, ?_⟩
  rw [moved_iff h (by decide)]
  intro hh
  rcases hh with ho | he
  · exact absurd ho (by decide)
  · have hsrc : felMemmoveUpload 0x2000#32 0x1001#32 0x1101#32 1 (callerWith 0x1102#32).mem
        (0x1101#32+BitVec.ofNat 32 1) = 1#8 := upload_outside _ _ (by decide)
    have hdst : felMemmoveUpload 0x2000#32 0x1001#32 0x1101#32 1 (callerWith 0x1102#32).mem
        (0x1001#32+BitVec.ofNat 32 1) = 0#8 := upload_outside _ _ (by decide)
    rw [hsrc, hdst] at he
    exact absurd he (by decide)

end ChipTools.Fel
