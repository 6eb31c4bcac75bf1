import ChipTools.FelMemmove

/-! `fel_readl_n` and `fel_writel_n`: memory is accessed word by word, by ARM code that shares the
scratch area with its address, its count and its data. -/
namespace ChipTools.Fel
open Arm

def LCODE_ARM_WORDS : ℕ := 12
def LCODE_MAX_TOTAL : ℕ := 0x100
def LCODE_MAX_WORDS : ℕ := LCODE_MAX_TOTAL-LCODE_ARM_WORDS

/-- The scratch code. It is the same for both directions but for the two accesses. -/
def lcode (ldr str addr : Word) (count : ℕ) : List Word :=
  [0xe59f0020#32, 0xe28f1024#32, 0xe59f201c#32,
   0xe3520000#32+BitVec.ofNat 32 LCODE_MAX_WORDS, 0xc3a02000#32+BitVec.ofNat 32 LCODE_MAX_WORDS,
   -- read_loop, write_loop
   0xe2522001#32, 0x412fff1e#32, ldr, str, 0xeafffffa#32,
   addr, BitVec.ofNat 32 count]

def readlCode (addr : Word) (count : ℕ) : List Word := lcode 0xe4903004#32 0xe4813004#32 addr count

/-- The data follows the code. -/
def writelCode (addr : Word) (src : List Word) : List Word :=
  lcode 0xe4913004#32 0xe4803004#32 addr src.length ++ src

/-- `aw_fel_read` of `n` words, after `le32toh`. -/
def wordsAt (m : Mem) (addr : Word) (n : ℕ) : List Word :=
  (List.range n).map fun i => load32 m (addr+BitVec.ofNat 32 (4*i))

/-- The data in the scratch area. -/
def lcodeData (scratch : Word) : Word := scratch+BitVec.ofNat 32 (4*LCODE_ARM_WORDS)

/-- `aw_fel_readl_n` on a device in state `s`, which is left in state `t`. -/
def AwFelReadlN (scratch addr : Word) (count : ℕ) (s : Cpu) (dst : List Word) (t : Cpu) : Prop :=
  if count = 0 then dst = [] ∧ t = s
  else
    let count := min count LCODE_MAX_WORDS
    Returns { s with pc := scratch
                     mem := awFelWrite s.mem (leBytes (readlCode addr count)) scratch } t ∧
      dst = wordsAt t.mem (lcodeData scratch) count

/-- `aw_fel_writel_n`. -/
def AwFelWritelN (scratch addr : Word) (src : List Word) (s t : Cpu) : Prop :=
  if src = [] then t = s
  else Returns
    { s with pc := scratch
             mem := awFelWrite s.mem (leBytes (writelCode addr (src.take LCODE_MAX_WORDS))) scratch } t

/-- `fel_readl_n`. The device executes with the registers of `cpu k` at the `k`-th time. -/
inductive FelReadlN (scratch : Word) (cpu : ℕ → Cpu) :
    ℕ → Word → ℕ → Mem → List Word → Mem → Prop
  | done (k : ℕ) (addr : Word) (m : Mem) : FelReadlN scratch cpu k addr 0 m [] m
  | chunk {k : ℕ} {addr : Word} {count : ℕ} {m m' : Mem} {vals dst : List Word} {t : Cpu}
      (h0 : 0 < count)
      (one : AwFelReadlN scratch addr (min count LCODE_MAX_WORDS) { cpu k with mem := m } vals t)
      (rest : FelReadlN scratch cpu (k+1) (addr+BitVec.ofNat 32 (4*min count LCODE_MAX_WORDS))
        (count-min count LCODE_MAX_WORDS) t.mem dst m') :
      FelReadlN scratch cpu k addr count m (vals ++ dst) m'

/-- `fel_writel_n`. -/
inductive FelWritelN (scratch : Word) (cpu : ℕ → Cpu) : ℕ → Word → List Word → Mem → Mem → Prop
  | done (k : ℕ) (addr : Word) (m : Mem) : FelWritelN scratch cpu k addr [] m m
  | chunk {k : ℕ} {addr : Word} {src : List Word} {m m' : Mem} {t : Cpu} (h0 : src ≠ [])
      (one : AwFelWritelN scratch addr (src.take LCODE_MAX_WORDS) { cpu k with mem := m } t)
      (rest : FelWritelN scratch cpu (k+1)
        (addr+BitVec.ofNat 32 (4*(src.take LCODE_MAX_WORDS).length)) (src.drop LCODE_MAX_WORDS)
        t.mem m') :
      FelWritelN scratch cpu k addr src m m'

/-- Disassembly of the scratch code, with the registers that a word is loaded from and stored to. -/
def lcodeAsm (rs rd : Reg) : List (Cond × Instr) :=
  [(.al, .transfer true false 0#4 15#4 (.imm 32#32) true true false),
   (.al, .alu .add false 1#4 15#4 (.imm 36#32)),
   (.al, .transfer true false 2#4 15#4 (.imm 28#32) true true false),
   (.al, .alu .cmp true 0#4 2#4 (.imm 244#32)),
   (.gt, .alu .mov false 2#4 0#4 (.imm 244#32)),
   (.al, .alu .sub true 2#4 2#4 (.imm 1#32)),
   (.mi, .bx 14#4),
   (.al, .transfer true false 3#4 rs (.imm 4#32) true false true),
   (.al, .transfer false false 3#4 rd (.imm 4#32) true false true),
   (.al, .branch (-24#32))]

theorem readlCode_decode (addr : Word) (count : ℕ) :
    ((readlCode addr count).take 10).map decode = (lcodeAsm 0#4 1#4).map some := by
  rfl

theorem writelCode_decode (addr : Word) (src : List Word) :
    ((writelCode addr src).take 10).map decode = (lcodeAsm 1#4 0#4).map some := by
  rfl

section Loop

/-- Both pointers are in the first two registers. -/
def LoopRegs (rs rd : Reg) : Prop := rs = 0#4 ∧ rd = 1#4 ∨ rs = 1#4 ∧ rd = 0#4

/-- Control is at instruction `i` of the scratch code: `j` words have been copied and r2 holds the
count `n`. -/
structure WordsAt (rs rd : Reg) (m : Mem) (dst src base lr : Word) (i j n : ℕ) (s : Cpu) : Prop where
  pos : At (lcodeAsm rs rd) base i s
  load : s.r rs = src+BitVec.ofNat 32 (4*j)
  store : s.r rd = dst+BitVec.ofNat 32 (4*j)
  cnt : s.r 2#4 = BitVec.ofNat 32 n
  lr : s.r 14#4 = lr
  mem : s.mem = copied m dst src 0 (4*j)

variable {rs rd : Reg} {m : Mem} {dst src base lr : Word}

/-- `ldr r3, [rs], #4` and `str r3, [rd], #4`. -/
theorem WordsAt.copyWord (hr : LoopRegs rs rd) {j n : ℕ} {s : Cpu}
    (h : WordsAt rs rd m dst src base lr 7 j n s)
    (hl : Loaded (lcodeAsm rs rd) base (copied m dst src 0 (4*j+4)))
    (hd : (src-dst).toNat+(4*j+3) < 2^32) :
    ∃ t, Runs s t ∧ WordsAt rs rd m dst src base lr 9 (j+1) n t := by
  have hm : store32 s.mem (s.r rd) (load32 s.mem (s.r rs)) = copied m dst src 0 (4*j+4) := by
    rw [h.mem, h.load, h.store]
    exact copy_up_word m dst src (4*j) hd
  have hnext (a : Word) : a+BitVec.ofNat 32 (4*j)+4#32 = a+BitVec.ofNat 32 (4*(j+1)) :=
    succ_offset a (4*j) 4
  have c0 := h.pos.taken (i := 7) rfl rfl (by simp)
  rcases hr with ⟨rfl, rfl⟩ | ⟨rfl, rfl⟩
  · have a0 := h.pos.next
      (t := (s.set 0#4 (s.r 0#4+4#32)).set 3#4 (load32 s.mem (s.r 0#4))) rfl h.pos.code
    have c1 := a0.taken (i := 8) rfl rfl (by simp)
    refine ⟨_, .head c0 (.single c1), a0.advance rfl ?_, ?_, ?_, h.cnt, h.lr, hm⟩
    · rw [← hm] at hl
      exact hl
    · exact (congrArg (·+4#32) h.load).trans (hnext src)
    · exact (congrArg (·+4#32) h.store).trans (hnext dst)
  · have a0 := h.pos.next
      (t := (s.set 1#4 (s.r 1#4+4#32)).set 3#4 (load32 s.mem (s.r 1#4))) rfl h.pos.code
    have c1 := a0.taken (i := 8) rfl rfl (by simp)
    refine ⟨_, .head c0 (.single c1), a0.advance rfl ?_, ?_, ?_, h.cnt, h.lr, hm⟩
    · rw [← hm] at hl
      exact hl
    · exact (congrArg (·+4#32) h.load).trans (hnext src)
    · exact (congrArg (·+4#32) h.store).trans (hnext dst)

theorem WordsAt.subs {j n : ℕ} {s : Cpu} (h : WordsAt rs rd m dst src base lr 5 j n s)
    (hr : LoopRegs rs rd) :
    ∃ t, Cont s t ∧ t.n = (BitVec.ofNat 32 n-1#32).msb ∧
      (0 < n → WordsAt rs rd m dst src base lr 6 j (n-1) t) ∧
      At (lcodeAsm rs rd) base 6 t ∧ t.r 14#4 = lr ∧ t.mem = copied m dst src 0 (4*j) := by
  have c0 := h.pos.taken (i := 5) rfl rfl (by simp)
  have hn : (s.r 2#4-1#32).msb = (BitVec.ofNat 32 n-1#32).msb := by rw [h.cnt]
  have a0 : At (lcodeAsm rs rd) base 6
      (exec (.alu .sub true 2#4 2#4 (.imm 1#32)) s) := h.pos.advance rfl h.pos.code
  refine ⟨_, c0, hn, fun h0 => ⟨a0, ?_, ?_, ?_, h.lr, h.mem⟩, a0, h.lr, h.mem⟩
  · rcases hr with ⟨rfl, rfl⟩ | ⟨rfl, rfl⟩
    · exact h.load
    · exact h.load
  · rcases hr with ⟨rfl, rfl⟩ | ⟨rfl, rfl⟩
    · exact h.store
    · exact h.store
  · change s.r 2#4-1#32 = _
    rw [h.cnt]
    exact ofNat_sub_ofNat n 1 h0

/-- The loop copies the words that are left. -/
theorem WordsAt.loop (hr : LoopRegs rs rd) (hl : Loaded (lcodeAsm rs rd) base m) {size : ℕ}
    (hc : ∀ k < 4*(lcodeAsm rs rd).length, 4*size ≤ (base+BitVec.ofNat 32 k-dst).toNat)
    (hd : (src-dst).toNat+4*size ≤ 2^32) {n j : ℕ} {s : Cpu}
    (h : WordsAt rs rd m dst src base lr 5 j n s) (hj : j+n ≤ size) (hn : n < 2^31) :
    ∃ t, Returns s t ∧ t.mem = copied m dst src 0 (4*(j+n)) := by
  induction n generalizing j s with
  | zero =>
    obtain ⟨t, c0, hmi, -, a0, -, hmem⟩ := h.subs hr
    exact ⟨_, Runs.returns (.single c0) (a0.returns (c := .mi) rfl hmi), hmem⟩
  | succ n ih =>
    obtain ⟨t, c0, hmi, h0, -⟩ := h.subs hr
    have h1 := h0 (Nat.succ_pos n)
    have hpl : t.n = false := by
      rw [hmi, msb_ofNat_sub (n+1) 1 hn (by decide)]
      simp
    have c1 := h1.pos.skipped (c := .mi) rfl hpl
    have h2 : WordsAt rs rd m dst src base lr 7 j n t.next :=
      ⟨h1.pos.next rfl h1.pos.code, h1.load, h1.store, h1.cnt, h1.lr, h1.mem⟩
    obtain ⟨u, hu, h3⟩ := h2.copyWord hr
      (loaded_copied hl dst src 0 _ fun k hk => le_trans (by omega) (hc k hk)) (by omega)
    have c3 := h3.pos.taken (c := .al) rfl rfl (by simp)
    have h4 : WordsAt rs rd m dst src base lr 5 (j+1) n { u with pc := u.pc+8#32+(-24#32) } :=
      ⟨h3.pos.jump (-24#32) 5 (by decide), h3.load, h3.store, h3.cnt, h3.lr, h3.mem⟩
    obtain ⟨v, hv, hmem⟩ := ih h4 (by omega) (by omega)
    refine ⟨v, Runs.returns (.head c0 (.head c1 (hu.tail c3))) hv, ?_⟩
    rw [hmem, Nat.add_assoc, Nat.add_comm 1 n]

/-- `cmp r2, #LCODE_MAX_WORDS` does not find more. -/
theorem cmp_not_gt {n : ℕ} (hn : n ≤ 244) (s : Cpu) :
    (s.subFlags (BitVec.ofNat 32 n) 244#32).holds .gt = false := by
  have hmsb : (BitVec.ofNat 32 n).msb = false := by
    rw [BitVec.msb_eq_decide, BitVec.toNat_ofNat]
    exact decide_eq_false (by omega)
  have hneg := msb_ofNat_sub n 244 (by omega) (by decide)
  rcases Nat.eq_or_lt_of_le hn with rfl | hlt
  · simp [Cpu.holds, Cpu.subFlags]
  · have hn1 : (BitVec.ofNat 32 n-244#32).msb = true := hneg.trans (decide_eq_true hlt)
    have h244 : (244#32).msb = false := by decide
    simp [Cpu.holds, Cpu.subFlags, hn1, hmsb, h244]

theorem next_holds (s : Cpu) (c : Cond) : s.next.holds c = s.holds c := by
  cases c <;> rfl

/-- The instructions before the loop: the literals are loaded, and the count is left alone. -/
theorem lcode_entered {addr : Word} {n : ℕ} {s : Cpu} (h : At (lcodeAsm rs rd) base 0 s)
    (haddr : load32 s.mem (base+BitVec.ofNat 32 40) = addr)
    (hcnt : load32 s.mem (base+BitVec.ofNat 32 44) = BitVec.ofNat 32 n) (hn : n ≤ 244) :
    ∃ t, Runs s t ∧ At (lcodeAsm rs rd) base 5 t ∧ t.r 0#4 = addr ∧
      t.r 1#4 = base+BitVec.ofNat 32 48 ∧ t.r 2#4 = BitVec.ofNat 32 n ∧ t.r 14#4 = s.r 14#4 ∧
      t.mem = s.mem := by
  obtain ⟨c0, a0⟩ := ldr_literal h rfl
  have c1 := a0.taken (i := 1) rfl rfl (by simp)
  have a1 : At (lcodeAsm rs rd) base 2 _ := a0.next
    (t := (s.set 0#4 (load32 s.mem (base+BitVec.ofNat 32 (4*0)+8#32+32#32))).next.set 1#4
      (s.pc+4#32+8#32+36#32)) rfl a0.code
  obtain ⟨c2, a2⟩ := ldr_literal a1 rfl
  have c3 := a2.taken (i := 3) rfl rfl (by simp)
  have hr2 : load32 s.mem (base+BitVec.ofNat 32 (4*2)+8#32+28#32) = BitVec.ofNat 32 n := by
    rw [← hcnt]
    congr 1
    bv_omega
  -- the count is not above the limit
  have hgt := cmp_not_gt hn
    (((s.set 0#4 (load32 s.mem (base+BitVec.ofNat 32 (4*0)+8#32+32#32))).next.set 1#4
      (s.pc+4#32+8#32+36#32)).next.set 2#4
      (load32 s.mem (base+BitVec.ofNat 32 (4*2)+8#32+28#32))).next
  rw [← hr2] at hgt
  have a3 : At (lcodeAsm rs rd) base 4 _ := a2.next
    (t := (((s.set 0#4 (load32 s.mem (base+BitVec.ofNat 32 (4*0)+8#32+32#32))).next.set 1#4
      (s.pc+4#32+8#32+36#32)).next.set 2#4
      (load32 s.mem (base+BitVec.ofNat 32 (4*2)+8#32+28#32))).next.subFlags
        (load32 s.mem (base+BitVec.ofNat 32 (4*2)+8#32+28#32)) 244#32) rfl a2.code
  have c4 := a3.skipped (i := 4) (c := .gt) rfl ((next_holds _ _).trans hgt)
  refine ⟨_, .head c0 (.head c1 (.head c2 (.head c3 (.single c4)))), a3.next rfl a3.code, ?_, ?_,
    hr2, rfl, rfl⟩
  · rw [← haddr]
    change load32 s.mem _ = _
    congr 1
    bv_omega
  · change s.pc+4#32+8#32+36#32 = _
    rw [h.pc]
    bv_omega

end Loop

section Call

variable {scratch addr : Word}

/-- The scratch area of 0x400 bytes, where there is the code with its data. -/
def InScratch (scratch x : Word) : Prop := (x-scratch).toNat < 4*LCODE_MAX_TOTAL

/-- The `count` words from `addr` on do not meet the scratch area. -/
def ScratchClear (scratch addr : Word) (count : ℕ) : Prop :=
  ∀ k < 4*count, ¬InScratch scratch (addr+BitVec.ofNat 32 k)

/-- Counted from the scratch area, the words come before the addresses wrap. -/
theorem ScratchClear.bounds {count : ℕ} (h : ScratchClear scratch addr count) (h0 : 0 < count) :
    1024 ≤ (addr-scratch).toNat ∧ (addr-scratch).toNat+4*count ≤ 2^32 := by
  have hoff (k : ℕ) : (addr+BitVec.ofNat 32 k-scratch).toNat = ((addr-scratch).toNat+k)%2^32 := by
    bv_omega
  have hclear (k : ℕ) (hk : k < 4*count) : 1024 ≤ ((addr-scratch).toNat+k)%2^32 := by
    rw [← hoff]
    exact not_lt.mp (h k hk)
  have hlt := (addr-scratch).isLt
  constructor
  · have := hclear 0 (by omega)
    omega
  · by_contra hwrap
    have := hclear (2^32-(addr-scratch).toNat) (by omega)
    omega

theorem ScratchClear.mono {n count : ℕ} (h : ScratchClear scratch addr count) (hn : n ≤ count) :
    ScratchClear scratch addr n := fun k hk => h k (by omega)

theorem ScratchClear.rest {n count : ℕ} (h : ScratchClear scratch addr count) (hn : n ≤ count) :
    ScratchClear scratch (addr+BitVec.ofNat 32 (4*n)) (count-n) := by
  intro k hk
  rw [succ_offset]
  exact h _ (by omega)

theorem copied_at (m : Mem) (dst src : Word) {hi j : ℕ} (hj : j < hi) (hhi : hi ≤ 2^32) :
    copied m dst src 0 hi (dst+BitVec.ofNat 32 j) = m (src+BitVec.ofNat 32 j) := by
  have hoff : dst+BitVec.ofNat 32 j-dst = BitVec.ofNat 32 j := by
    rw [BitVec.add_comm, BitVec.add_sub_cancel]
  unfold copied
  rw [sub_dst_toNat dst j (by omega), if_pos ⟨Nat.zero_le _, hj⟩, hoff]

/-- The two pointers as the code sets them up. -/
def Pointers (rs rd : Reg) (addr data dst src : Word) : Prop :=
  rs = 0#4 ∧ rd = 1#4 ∧ src = addr ∧ dst = data ∨ rs = 1#4 ∧ rd = 0#4 ∧ src = data ∧ dst = addr

/-- The scratch code returns and has copied its words. -/
theorem lcode_returns {rs rd : Reg} {dst src : Word} {ws : List Word} {n : ℕ}
    (hp : Pointers rs rd addr (lcodeData scratch) dst src)
    (hd : (ws.take 10).map decode = (lcodeAsm rs rd).map some) (hlen : 4*ws.length ≤ 2^32)
    (haddr : ws[10]? = some addr) (hcnt : ws[11]? = some (BitVec.ofNat 32 n)) (hn : n ≤ 244)
    (hc : ∀ k < 40, 4*n ≤ (scratch+BitVec.ofNat 32 k-dst).toNat)
    (hmove : (src-dst).toNat+4*n ≤ 2^32) (s : Cpu) :
    ∃ t, Returns { s with pc := scratch, mem := awFelWrite s.mem (leBytes ws) scratch } t ∧
      t.mem = copied (awFelWrite s.mem (leBytes ws) scratch) dst src 0 (4*n) := by
  have hl := loaded_upload s.mem ws scratch _ 10 hlen hd
  have hlit (i : ℕ) (w : Word) (hi : ws[i]? = some w) :
      load32 (awFelWrite s.mem (leBytes ws) scratch) (scratch+BitVec.ofNat 32 (4*i)) = w := by
    obtain ⟨hiw, he⟩ := List.getElem?_eq_some_iff.mp hi
    rw [← he]
    exact load32_upload s.mem ws scratch i hiw hlen
  have h0 : At (lcodeAsm rs rd) scratch 0
      { s with pc := scratch, mem := awFelWrite s.mem (leBytes ws) scratch } :=
    ⟨(BitVec.add_zero scratch).symm, hl⟩
  obtain ⟨t, ht, hpos, hr0, hr1, hr2, hlr, hmem⟩ := lcode_entered h0 (hlit 10 _ haddr)
    (hlit 11 _ hcnt) hn
  have hptr : t.r rs = src ∧ t.r rd = dst ∧ LoopRegs rs rd := by
    rcases hp with ⟨rfl, rfl, rfl, rfl⟩ | ⟨rfl, rfl, rfl, rfl⟩
    · exact ⟨hr0, hr1, Or.inl ⟨rfl, rfl⟩⟩
    · exact ⟨hr1, hr0, Or.inr ⟨rfl, rfl⟩⟩
  obtain ⟨hload, hstore, hregs⟩ := hptr
  have hstart : WordsAt rs rd (awFelWrite s.mem (leBytes ws) scratch) dst src scratch (s.r 14#4)
      5 0 n t := by
    refine ⟨hpos, ?_, ?_, hr2, hlr, ?_⟩
    · rw [hload]
      exact (BitVec.add_zero src).symm
    · rw [hstore]
      exact (BitVec.add_zero dst).symm
    · rw [hmem, Nat.mul_zero, copied_empty]
  obtain ⟨u, hu, hdone⟩ := hstart.loop hregs hl hc hmove (Nat.zero_add n).le (by omega)
  refine ⟨u, Runs.returns ht hu, ?_⟩
  rw [hdone, Nat.zero_add]

theorem lcodeData_sub (k : ℕ) (hk : k < 40) {n : ℕ} (hn : n ≤ 244) :
    4*n ≤ (scratch+BitVec.ofNat 32 k-lcodeData scratch).toNat := by
  have hoff : (scratch+BitVec.ofNat 32 k-lcodeData scratch).toNat = (2^32-48+k)%2^32 := by
    unfold lcodeData LCODE_ARM_WORDS
    bv_omega
  rw [hoff]
  omega

theorem wordsAt_getElem {m : Mem} {n i : ℕ} (hi : i < (wordsAt m addr n).length) :
    (wordsAt m addr n)[i] = load32 m (addr+BitVec.ofNat 32 (4*i)) := by
  simp [wordsAt]

/-- A call of `aw_fel_readl_n` has one outcome: the words, and nothing outside of the scratch area
is touched. -/
theorem awFelReadlN_reads {n : ℕ} (h : ScratchClear scratch addr n) (h0 : 0 < n)
    (hn : n ≤ LCODE_MAX_WORDS) (s : Cpu) :
    ∃ t, (∀ x, ¬InScratch scratch x → t.mem x = s.mem x) ∧
      ∀ dst u, AwFelReadlN scratch addr n s dst u ↔ dst = wordsAt s.mem addr n ∧ u = t := by
  have hlimit : LCODE_MAX_WORDS = 244 := rfl
  obtain ⟨hlo, hhi⟩ := h.bounds h0
  have hmove : (addr-lcodeData scratch).toNat+4*n ≤ 2^32 := by
    have hoff : (addr-lcodeData scratch).toNat = (addr-scratch).toNat-48 := by
      unfold lcodeData LCODE_ARM_WORDS
      bv_omega
    omega
  obtain ⟨t, ht, hmem⟩ := lcode_returns (Or.inl ⟨rfl, rfl, rfl, rfl⟩) (readlCode_decode addr n)
    (show 4*12 ≤ 2^32 by decide) rfl rfl (by omega) (fun k hk => lcodeData_sub k hk (by omega)) hmove s
  have hlen : (leBytes (readlCode addr n)).length = 48 := rfl
  have hupload (x : Word) (hx : ¬InScratch scratch x) :
      awFelWrite s.mem (leBytes (readlCode addr n)) scratch x = s.mem x := by
    apply awFelWrite_outside
    have := not_lt.mp hx
    rw [LCODE_MAX_TOTAL] at this
    omega
  have hwords : wordsAt t.mem (lcodeData scratch) n = wordsAt s.mem addr n := by
    apply List.map_congr_left
    intro i hi
    have := List.mem_range.mp hi
    apply load32_congr
    intro k hk
    rw [succ_offset, succ_offset, hmem, copied_at _ _ _ (by omega) (by omega)]
    exact hupload _ (h _ (by omega))
  refine ⟨t, fun x hx => ?_, fun dst u => ?_⟩
  · rw [hmem, ← hupload x hx]
    have hout := not_lt.mp hx
    rw [LCODE_MAX_TOTAL] at hout
    unfold copied
    rw [if_neg]
    have hoff : (x-lcodeData scratch).toNat = (x-scratch).toNat-48 := by
      unfold lcodeData LCODE_ARM_WORDS
      bv_omega
    omega
  · unfold AwFelReadlN
    rw [if_neg (by omega), Nat.min_eq_left hn]
    constructor
    · rintro ⟨hu, rfl⟩
      obtain rfl := Returns.unique ht hu
      exact ⟨hwords, rfl⟩
    · rintro ⟨rfl, rfl⟩
      exact ⟨ht, hwords.symm⟩

/-- A call of `aw_fel_writel_n` has one outcome as well. -/
theorem awFelWritelN_writes {src : List Word} (h : ScratchClear scratch addr src.length)
    (h0 : src ≠ []) (hn : src.length ≤ LCODE_MAX_WORDS) (s : Cpu) :
    ∃ t, (∀ u, AwFelWritelN scratch addr src s u ↔ u = t) ∧ wordsAt t.mem addr src.length = src ∧
      ∀ x, ¬InScratch scratch x → 4*src.length ≤ (x-addr).toNat → t.mem x = s.mem x := by
  have hlimit : LCODE_MAX_WORDS = 244 := rfl
  have hpos := List.length_pos_iff.mpr h0
  obtain ⟨hlo, hhi⟩ := h.bounds hpos
  have hmove : (lcodeData scratch-addr).toNat+4*src.length ≤ 2^32 := by
    have hoff : (lcodeData scratch-addr).toNat = 2^32+48-(addr-scratch).toNat := by
      unfold lcodeData LCODE_ARM_WORDS
      bv_omega
    omega
  have hcode (k : ℕ) (hk : k < 40) : 4*src.length ≤ (scratch+BitVec.ofNat 32 k-addr).toNat := by
    have hoff : (scratch+BitVec.ofNat 32 k-addr).toNat = 2^32-(addr-scratch).toNat+k := by
      bv_omega
    omega
  have hlen : (writelCode addr src).length = 12+src.length := by
    unfold writelCode
    rw [List.length_append]
    rfl
  obtain ⟨t, ht, hmem⟩ := lcode_returns (Or.inr ⟨rfl, rfl, rfl, rfl⟩) (writelCode_decode addr src)
    (by omega) rfl rfl (by omega) hcode hmove s
  refine ⟨t, fun u => ?_, ?_, fun x hx hout => ?_⟩
  · unfold AwFelWritelN
    rw [if_neg h0, List.take_of_length_le hn]
    exact ⟨fun hu => (Returns.unique ht hu).symm, fun hu => hu ▸ ht⟩
  · -- the words are those behind the code in the upload
    apply List.ext_getElem
    · simp [wordsAt]
    · intro i hi hi'
      have hup := load32_upload s.mem (writelCode addr src) scratch (12+i) (by omega) (by omega)
      have hsrc : (writelCode addr src)[12+i] = src[i] := by
        unfold writelCode
        rw [List.getElem_append_right (Nat.le_add_right 12 i)]
        congr 1
        exact Nat.add_sub_cancel_left 12 i
      rw [hsrc] at hup
      rw [← hup, wordsAt_getElem]
      apply load32_congr
      intro k hk
      rw [succ_offset, hmem, copied_at _ _ _ (by omega) (by omega), succ_offset]
      congr 1
      unfold lcodeData LCODE_ARM_WORDS
      rw [succ_offset]
      congr 2
      omega
  · rw [hmem]
    unfold copied
    rw [if_neg (by omega)]
    apply awFelWrite_outside
    rw [leBytes_length, hlen]
    have := not_lt.mp hx
    rw [LCODE_MAX_TOTAL] at this
    omega

end Call

section Chunks

variable {scratch : Word}

theorem wordsAt_add (m : Mem) (addr : Word) (i j : ℕ) :
    wordsAt m addr (i+j) = wordsAt m addr i ++ wordsAt m (addr+BitVec.ofNat 32 (4*i)) j := by
  unfold wordsAt
  rw [List.range_add, List.map_append, List.map_map]
  congr 1
  apply List.map_congr_left
  intro k _
  rw [Function.comp_apply, succ_offset, Nat.mul_add]

/-- Words are known by their bytes. -/
theorem wordsAt_congr {m m' : Mem} {addr : Word} {n : ℕ}
    (h : ∀ k < 4*n, m' (addr+BitVec.ofNat 32 k) = m (addr+BitVec.ofNat 32 k)) :
    wordsAt m' addr n = wordsAt m addr n := by
  apply List.map_congr_left
  intro i hi
  have := List.mem_range.mp hi
  apply load32_congr
  intro k hk
  rw [succ_offset]
  exact h _ (by omega)

/-- `fel_readl_n`, chunk by chunk: there is one run, and it gives the words. -/
theorem felReadlN_reads (cpu : ℕ → Cpu) (k : ℕ) (addr : Word) (count : ℕ)
    (h : ScratchClear scratch addr count) (m : Mem) :
    ∃ m', (∀ x, ¬InScratch scratch x → m' x = m x) ∧
      ∀ dst m'', FelReadlN scratch cpu k addr count m dst m'' ↔
        dst = wordsAt m addr count ∧ m'' = m' := by
  induction count using Nat.strongRecOn generalizing k addr m with
  | ind count ih =>
    rcases Nat.eq_zero_or_pos count with rfl | h0
    · refine ⟨m, fun _ _ => rfl, fun dst m'' => ⟨fun hr => ?_, ?_⟩⟩
      · cases hr with
        | done => exact ⟨rfl, rfl⟩
        | chunk hpos => exact absurd hpos (Nat.lt_irrefl 0)
      · rintro ⟨rfl, rfl⟩
        exact .done k addr m''
    · obtain ⟨n, hn⟩ : ∃ n, n = min count LCODE_MAX_WORDS := ⟨_, rfl⟩
      have hlimit : LCODE_MAX_WORDS = 244 := rfl
      obtain ⟨t, hframe, hone⟩ := awFelReadlN_reads (h.mono (n := n) (by omega)) (by omega) (by omega)
        { cpu k with mem := m }
      obtain ⟨m', hframe', hrest⟩ := ih (count-n) (by omega) (k+1) (addr+BitVec.ofNat 32 (4*n))
        (h.rest (by omega)) t.mem
      have hwords : wordsAt m addr count =
          wordsAt m addr n ++ wordsAt t.mem (addr+BitVec.ofNat 32 (4*n)) (count-n) := by
        -- the first chunk has not changed the rest
        have hkeep : wordsAt t.mem (addr+BitVec.ofNat 32 (4*n)) (count-n) =
            wordsAt m (addr+BitVec.ofNat 32 (4*n)) (count-n) :=
          wordsAt_congr fun j hj => hframe _ (h.rest (by omega) j hj)
        rw [hkeep, ← wordsAt_add, Nat.add_sub_cancel' (by omega)]
      refine ⟨m', fun x hx => (hframe' x hx).trans (hframe x hx), fun dst m'' => ⟨fun hr => ?_, ?_⟩⟩
      · cases hr with
        | done => exact absurd h0 (Nat.lt_irrefl 0)
        | chunk _ one rest =>
          rw [← hn] at one rest
          obtain ⟨rfl, rfl⟩ := (hone _ _).mp one
          obtain ⟨rfl, rfl⟩ := (hrest _ _).mp rest
          exact ⟨hwords.symm, rfl⟩
      · rintro ⟨rfl, rfl⟩
        rw [hwords]
        refine .chunk h0 (t := t) ?_ ?_
        · rw [← hn]
          exact (hone _ _).mpr ⟨rfl, rfl⟩
        · rw [← hn]
          exact (hrest _ _).mpr ⟨rfl, rfl⟩

/-- `fel_writel_n`: there is one run, and it stores the words and changes nothing else. -/
theorem felWritelN_writes (cpu : ℕ → Cpu) (k : ℕ) (addr : Word) (src : List Word)
    (h : ScratchClear scratch addr src.length) (m : Mem) :
    ∃ m', wordsAt m' addr src.length = src ∧
      (∀ x, ¬InScratch scratch x → 4*src.length ≤ (x-addr).toNat → m' x = m x) ∧
      ∀ m'', FelWritelN scratch cpu k addr src m m'' ↔ m'' = m' := by
  obtain ⟨count, hcount⟩ : ∃ count, src.length = count := ⟨_, rfl⟩
  induction count using Nat.strongRecOn generalizing k addr src m with
  | ind count ih =>
    by_cases h0 : src = []
    · subst h0
      refine ⟨m, rfl, fun _ _ _ => rfl, fun m'' => ⟨fun hr => ?_, ?_⟩⟩
      · cases hr with
        | done => rfl
        | chunk hne => exact absurd rfl hne
      · rintro rfl
        exact .done k addr m''
    · have hpos := List.length_pos_iff.mpr h0
      have hlimit : LCODE_MAX_WORDS = 244 := rfl
      obtain ⟨n, hn⟩ : ∃ n, n = (src.take LCODE_MAX_WORDS).length := ⟨_, rfl⟩
      have hmin : n = min LCODE_MAX_WORDS src.length := hn.trans List.length_take
      have hdrop : (src.drop LCODE_MAX_WORDS).length = src.length-n := by
        rw [List.length_drop]
        omega
      have hne : src.take LCODE_MAX_WORDS ≠ [] := List.ne_nil_of_length_pos (by omega)
      obtain ⟨t, hone, hwords, hframe⟩ := awFelWritelN_writes
        (h.mono (n := (src.take LCODE_MAX_WORDS).length) (by omega)) hne (by omega)
        { cpu k with mem := m }
      have hclear := h.rest (n := n) (by omega)
      rw [← hdrop] at hclear
      obtain ⟨m', hwords', hframe', hrest⟩ := ih (src.drop LCODE_MAX_WORDS).length (by omega) (k+1)
        (addr+BitVec.ofNat 32 (4*n)) (src.drop LCODE_MAX_WORDS) hclear t.mem rfl
      rw [hdrop] at hwords' hframe'
      rw [← hn] at hwords hframe
      obtain ⟨hlo, hhi⟩ := h.bounds hpos
      refine ⟨m', ?_, fun x hx hout => ?_, fun m'' => ⟨fun hr => ?_, ?_⟩⟩
      · -- the second run leaves the words of the first one
        have hkeep : wordsAt m' addr n = wordsAt t.mem addr n := by
          apply wordsAt_congr
          intro j hj
          apply hframe' _ (h j (by omega))
          have hoff : (addr+BitVec.ofNat 32 j-(addr+BitVec.ofNat 32 (4*n))).toNat =
              2^32-4*n+j := by
            bv_omega
          omega
        calc wordsAt m' addr src.length = wordsAt m' addr (n+(src.length-n)) := by
              rw [Nat.add_sub_cancel' (by omega)]
          _ = src.take LCODE_MAX_WORDS ++ src.drop LCODE_MAX_WORDS := by
              rw [wordsAt_add, hkeep, hwords, hwords']
          _ = src := List.take_append_drop _ _
      · have hoff : (x-(addr+BitVec.ofNat 32 (4*n))).toNat = (x-addr).toNat-4*n := by
          bv_omega
        exact (hframe' x hx (by omega)).trans (hframe x hx (by omega))
      · cases hr with
        | done => exact absurd rfl h0
        | chunk _ one rest =>
          obtain rfl := (hone _).mp one
          rw [← hn] at rest
          exact (hrest _).mp rest
      · rintro rfl
        refine .chunk h0 ((hone t).mpr rfl) ?_
        rw [← hn]
        exact (hrest _).mpr rfl

end Chunks

/-- Word access: a run of `fel_readl_n` gives the words in memory, a run of `fel_writel_n` stores
the given words, and both leave the rest of the memory outside of the scratch area alone. There is
exactly one run of each, with any registers, and no chunk needs more than the scratch area. -/
theorem fel_words (scratch addr : Word) (src : List Word)
    (h : ScratchClear scratch addr src.length) (cpu : ℕ → Cpu) (m : Mem) :
    (∃ m', (∀ x, ¬InScratch scratch x → m' x = m x) ∧
      ∀ dst m'', FelReadlN scratch cpu 0 addr src.length m dst m'' ↔
        dst = wordsAt m addr src.length ∧ m'' = m') ∧
    (∃ m', wordsAt m' addr src.length = src ∧
      (∀ x, ¬InScratch scratch x → 4*src.length ≤ (x-addr).toNat → m' x = m x) ∧
      ∀ m'', FelWritelN scratch cpu 0 addr src m m'' ↔ m'' = m') ∧
    ∀ a (chunk : List Word), chunk.length ≤ LCODE_MAX_WORDS →
      (readlCode a chunk.length).length+chunk.length ≤ LCODE_MAX_TOTAL ∧
      (writelCode a chunk).length ≤ LCODE_MAX_TOTAL := by
  refine ⟨felReadlN_reads cpu 0 addr _ h m, felWritelN_writes cpu 0 addr src h m, ?_⟩
  intro a chunk hlen
  have hlimit : LCODE_MAX_WORDS+12 = LCODE_MAX_TOTAL := rfl
  have hcode (w v : Word) : (lcode w v a chunk.length).length = 12 := rfl
  unfold readlCode writelCode
  rw [List.length_append, hcode, hcode]
  omega

/-- Words behind the scratch area, without a wrap. -/
theorem scratchClear_of_le {scratch addr : Word} {count : ℕ}
    (h1 : scratch.toNat+1024 ≤ addr.toNat) (h2 : addr.toNat+4*count ≤ 2^32) :
    ScratchClear scratch addr count := by
  intro k hk
  unfold InScratch LCODE_MAX_TOTAL
  bv_omega

/-- 300 words of the DRAM, in two chunks. -/
theorem fel_words_dram :
    (∃ m', (∀ x, ¬InScratch 0x1000#32 x → m' x = 0#8) ∧
      ∀ dst m'', FelReadlN 0x1000#32 (fun _ => callerWith 0#32) 0 0x40000000#32 300 (fun _ => 0#8)
          dst m'' ↔ dst = wordsAt (fun _ => 0#8) 0x40000000#32 300 ∧ m'' = m') ∧
    ∃ m', wordsAt m' 0x40000000#32 300 = List.replicate 300 5#32 ∧
      ∀ m'', FelWritelN 0x1000#32 (fun _ => callerWith 0#32) 0 0x40000000#32
        (List.replicate 300 5#32) (fun _ => 0#8) m'' ↔ m'' = m' := by
  have hclear : ScratchClear 0x1000#32 0x40000000#32 (List.replicate 300 5#32).length := by
    rw [List.length_replicate]
    exact scratchClear_of_le (by decide) (by decide)
  obtain ⟨hread, ⟨m', hwords, -, hwrite⟩, -⟩ := fel_words 0x1000#32 0x40000000#32
    (List.replicate 300 5#32) hclear (fun _ => callerWith 0#32) fun _ => 0#8
  rw [List.length_replicate] at hread hwords
  exact ⟨hread, m', hwords, hwrite⟩

end ChipTools.Fel
