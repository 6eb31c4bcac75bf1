import ChipTools.FelSpl
import Mathlib.Algebra.BigOperators.Group.Finset.Basic
import Mathlib.Data.BitVec

/-! The two checks of an eGON image: the one that `aw_fel_write_and_execute_spl` makes before
the upload, and `verify_checksum` of the thunk. -/
namespace ChipTools.Fel
open Arm

/-- What a checksum starts from. -/
def egonStamp : Word := 0x5F0A6C39#32

/-- The messages for a buffer that is no eGON image. -/
def egonErrors : List String :=
  ["SPL: eGON header is not found\n", "SPL: bad length in the eGON header\n",
   "SPL: checksum check failed\n"]

/-- The buffer gets past the checks of its header and its checksum. -/
def SplAccepted (soc : SocInfo) (tt : Bool) (buf : List (BitVec 8)) : Prop :=
  ∀ msg ∈ egonErrors, awFelWriteAndExecuteSpl soc tt buf ≠ .error msg

/-- The rule for eGON images. The length covers the header as far as the length itself. -/
structure EgonRule (buf : List (BitVec 8)) : Prop where
  size : 32 ≤ buf.length
  signature : (buf.drop 4).take 8 = egonSignature
  words : (splLen buf).toNat%4 = 0
  header : 20 ≤ (splLen buf).toNat
  fits : (splLen buf).toNat ≤ buf.length
  checksum : buf32 buf 3 =
    egonStamp+∑ i ∈ (Finset.range ((splLen buf).toNat/4)).erase 3, buf32 buf i

/-- A length that ends before its own word does, where the checksum happens to agree. -/
structure ShortLength (buf : List (BitVec 8)) : Prop where
  size : 32 ≤ buf.length
  signature : (buf.drop 4).take 8 = egonSignature
  short : splLen buf ∈ [4#32, 8#32, 12#32, 16#32]
  checksum : 2#32*buf32 buf 3 =
    egonStamp+∑ i ∈ Finset.range ((splLen buf).toNat/4), buf32 buf i

section Host

variable {soc : SocInfo} {tt : Bool} {buf : List (BitVec 8)}

theorem splChecksum_eq (buf : List (BitVec 8)) : splChecksum buf =
    2#32*buf32 buf 3-egonStamp-∑ i ∈ Finset.range ((splLen buf).toNat/4), buf32 buf i := by
  unfold splChecksum
  generalize (splLen buf).toNat/4 = n
  induction n with
  | zero => exact (sub_zero _).symm
  | succ n ih =>
    rw [List.range_succ, List.foldl_append, ih, Finset.sum_range_succ]
    change _-_-_-buf32 buf n = _
    ring

/-- The loop ends at zero when twice the stored value is the sum over all words. -/
theorem splChecksum_eq_zero (buf : List (BitVec 8)) : splChecksum buf = 0#32 ↔
    2#32*buf32 buf 3 = egonStamp+∑ i ∈ Finset.range ((splLen buf).toNat/4), buf32 buf i := by
  rw [splChecksum_eq, sub_sub]
  exact sub_eq_zero

/-- Once the stored value is among the words, that is the rule. -/
theorem splChecksum_rule (h : 16 ≤ (splLen buf).toNat) : splChecksum buf = 0#32 ↔
    buf32 buf 3 = egonStamp+∑ i ∈ (Finset.range ((splLen buf).toNat/4)).erase 3, buf32 buf i := by
  have hmem : 3 ∈ Finset.range ((splLen buf).toNat/4) := Finset.mem_range.mpr (by omega)
  have hdouble : 2#32*buf32 buf 3 = buf32 buf 3+buf32 buf 3 := two_mul _
  rw [splChecksum_eq_zero, ← Finset.add_sum_erase _ _ hmem, hdouble, add_left_comm]
  exact add_right_inj _

/-- The stamp is odd, so it takes a word. -/
theorem splLen_ne_zero (h : splChecksum buf = 0#32) : splLen buf ≠ 0#32 := by
  intro h0
  rw [splChecksum_eq_zero, h0] at h
  change 2#32*buf32 buf 3 = egonStamp+0#32 at h
  unfold egonStamp at h
  generalize buf32 buf 3 = w at h
  have htwo := congrArg (fun x => x.toNat%2) h
  rw [BitVec.toNat_mul] at htwo
  change (2*w.toNat%2^32)%2 = 1 at htwo
  omega

/-- A message that begins otherwise is none of the three. -/
theorem append_notMem {a : String} (b : String) (ha : 10 ≤ a.toList.length)
    (h : ∀ e ∈ egonErrors, a.toList.take 10 ≠ e.toList.take 10) : a ++ b ∉ egonErrors := by
  intro hmem
  apply h _ hmem
  rw [String.toList_append, List.take_append_of_le_length ha]

theorem error_ne {α : Type} {e msg : String} (hmsg : msg ∈ egonErrors) (he : e ∉ egonErrors) :
    (Except.error e : Except String α) ≠ .error msg := by
  intro h
  rw [Except.error.inj h] at he
  exact he hmsg

/-- The later errors are about the SoC. -/
theorem splAccepted_iff (hs : soc.swap_buffers ≠ []) : SplAccepted soc tt buf ↔
    32 ≤ buf.length ∧ (buf.drop 4).take 8 = egonSignature ∧
    (splLen buf).toNat ≤ buf.length ∧ (splLen buf).toNat%4 = 0 ∧ splChecksum buf = 0#32 := by
  constructor
  · intro h
    have hsig := h _ (List.mem_cons_self)
    have hlen := h _ (List.mem_cons_of_mem _ List.mem_cons_self)
    have hsum := h _ (List.mem_cons_of_mem _ (List.mem_cons_of_mem _ List.mem_cons_self))
    unfold awFelWriteAndExecuteSpl at hsig hlen hsum
    rw [if_neg hs] at hsig hlen hsum
    by_cases h1 : buf.length < 32 ∨ (buf.drop 4).take 8 ≠ egonSignature
    · exact absurd (if_pos h1) hsig
    rw [if_neg h1] at hlen hsum
    by_cases h2 : buf.length < (splLen buf).toNat ∨ (splLen buf).toNat%4 ≠ 0
    · exact absurd (if_pos h2) hlen
    rw [if_neg h2] at hsum
    by_cases h3 : splChecksum buf ≠ 0#32
    · exact absurd (if_pos h3) hsum
    push Not at h1 h2 h3
    exact ⟨h1.1, h1.2, h2.1, h2.2, h3⟩
  · rintro ⟨hsize, hsig, hfits, hwords, hsum⟩ msg hmsg
    have h1 : ¬(buf.length < 32 ∨ (buf.drop 4).take 8 ≠ egonSignature) := by
      rintro (h | h)
      · omega
      · exact h hsig
    have h2 : ¬(buf.length < (splLen buf).toNat ∨ (splLen buf).toNat%4 ≠ 0) := by omega
    unfold awFelWriteAndExecuteSpl
    rw [if_neg hs, if_neg h1, if_neg h2, if_neg (not_not.mpr hsum)]
    by_cases h4 : !tt ∧ soc.mmu_tt_addr ≠ 0#32 ∧ soc.mmu_tt_addr &&& 0x3FFF#32 ≠ 0#32
    · rw [if_pos h4]
      exact error_ne hmsg (by decide)
    rw [if_neg h4]
    dsimp only
    generalize (if soc.thunk_addr < (splUpload soc buf).spl_len_limit then soc.thunk_addr
      else (splUpload soc buf).spl_len_limit) = limit
    split_ifs
    · apply error_ne hmsg
      simp only [String.append_assoc]
      exact append_notMem _ (by decide) (by decide)
    · apply error_ne hmsg
      simp only [String.append_assoc]
      exact append_notMem _ (by decide) (by decide)
    · exact nofun

/-- The check of the host differs from the rule only where a length ends too early. -/
theorem splAccepted_rule (hs : soc.swap_buffers ≠ []) :
    (SplAccepted soc tt buf ↔ EgonRule buf) ↔ ¬ShortLength buf := by
  rw [splAccepted_iff hs]
  constructor
  · rintro hiff ⟨hsize, hsig, hshort, hsum⟩
    have hlen : (splLen buf).toNat < 20 ∧ (splLen buf).toNat%4 = 0 := by
      revert hshort
      generalize splLen buf = w
      intro hw
      simp only [List.mem_cons, List.not_mem_nil, or_false] at hw
      rcases hw with rfl | rfl | rfl | rfl <;> decide
    have hr := (hiff.mp ⟨hsize, hsig, by omega, hlen.2, (splChecksum_eq_zero buf).mpr hsum⟩).header
    omega
  · intro hshort
    constructor
    · rintro ⟨hsize, hsig, hfits, hwords, hsum⟩
      have hheader : 20 ≤ (splLen buf).toNat := by
        by_contra hlt
        apply hshort
        refine ⟨hsize, hsig, ?_, (splChecksum_eq_zero buf).mp hsum⟩
        have hne := splLen_ne_zero hsum
        have hmem (n : Word) (h0 : n ≠ 0#32) (h4 : n.toNat%4 = 0) (hlt : n.toNat < 20) :
            n ∈ [4#32, 8#32, 12#32, 16#32] := by
          simp only [List.mem_cons, List.not_mem_nil, or_false]
          bv_omega
        exact hmem _ hne hwords (by omega)
      exact ⟨hsize, hsig, hwords, hheader, hfits, (splChecksum_rule (by omega)).mp hsum⟩
    · intro hr
      have := hr.header
      exact ⟨hr.size, hr.signature, hr.fits, hr.words,
        (splChecksum_rule (by omega)).mpr hr.checksum⟩

end Host


section Device

/-- Disassembly of `verify_checksum`. -/
def verifyAsm : List (Cond × Instr) :=
  [(.al, .movHalf false 7#4 0x6c39#16),
   (.al, .movHalf true 7#4 0x5f0a#16),
   (.al, .alu .mov false 0#4 0#4 (.reg 8#4 0)),
   (.al, .transfer true false 5#4 0#4 (.imm 16#32) true true false),
   (.al, .transfer true false 2#4 0#4 (.imm 4#32) true false true),
   (.al, .alu .sub true 5#4 5#4 (.imm 4#32)),
   (.al, .alu .add false 7#4 7#4 (.reg 2#4 0)),
   (.ne, .branch (-20#32)),
   (.al, .transfer true false 2#4 8#4 (.imm 12#32) true true false),
   (.al, .alu .sub true 7#4 7#4 (.reg 2#4 1)),
   (.ne, .branch 40#32)]

/-- Address of `verify_checksum` in a thunk at `thunk_addr`. -/
def verifyChecksum (thunk_addr : Word) : Word := thunk_addr+0x90#32

/-- Where it goes on with an image that it lets through. -/
def changeToFel (thunk_addr : Word) : Word := thunk_addr+0xbc#32

def checksumIsBad (thunk_addr : Word) : Word := thunk_addr+0xe8#32

theorem verifyAsm_decode : ((felToSplThunk.drop 36).take 11).map decode = verifyAsm.map some := by
  rfl

/-- Sum of `n` words of the memory. -/
def wordSum (m : Mem) (addr : Word) (n : ℕ) : Word :=
  ∑ i ∈ Finset.range n, load32 m (addr+BitVec.ofNat 32 (4*i))

/-- Control is at instruction `i`: `j` words have been added up and `n` are left. -/
structure SumAt (base spl_addr : Word) (m : Mem) (i j n : ℕ) (s : Cpu) : Prop where
  pos : At verifyAsm base i s
  buf1 : s.r 0#4 = spl_addr+BitVec.ofNat 32 (4*j)
  fullsize : s.r 5#4 = BitVec.ofNat 32 (4*n)
  checksum : s.r 7#4 = egonStamp+wordSum m spl_addr j
  spl_addr : s.r 8#4 = spl_addr
  mem : s.mem = m

variable {base spl_addr : Word} {m : Mem}

/-- The four instructions of `check_next_word`, up to its branch. -/
theorem SumAt.word {j n : ℕ} {s : Cpu} (h : SumAt base spl_addr m 4 j (n+1) s)
    (hn : 4*(n+1) < 2^32) : ∃ t, Runs s t ∧ t.z = decide (n = 0) ∧
      SumAt base spl_addr m 7 (j+1) n t := by
  have c0 := h.pos.taken (i := 4) rfl rfl (by simp)
  have a0 := h.pos.next
    (t := (s.set 0#4 (s.r 0#4+4#32)).set 2#4 (load32 s.mem (s.r 0#4))) rfl h.pos.code
  have c1 := a0.taken (i := 5) rfl rfl (by simp)
  have a1 : At verifyAsm base 6 (exec (.alu .sub true 5#4 5#4 (.imm 4#32))
      ((s.set 0#4 (s.r 0#4+4#32)).set 2#4 (load32 s.mem (s.r 0#4))).next) :=
    a0.advance rfl a0.code
  have c2 := a1.taken (i := 6) rfl rfl (by simp)
  refine ⟨_, .head c0 (.head c1 (.single c2)), ?_, a1.advance rfl a1.code, ?_, ?_, ?_,
    h.spl_addr, h.mem⟩
  · change decide (s.r 5#4-4#32 = 0#32) = _
    rw [h.fullsize]
    apply decide_eq_decide.mpr
    bv_omega
  · change s.r 0#4+4#32 = _
    rw [h.buf1, BitVec.add_assoc]
    congr 1
    bv_omega
  · change s.r 5#4-4#32 = _
    rw [h.fullsize]
    bv_omega
  · change s.r 7#4+load32 s.mem (s.r 0#4) <<< 0 = _
    rw [h.checksum, h.mem, h.buf1, BitVec.shiftLeft_zero, BitVec.add_assoc]
    congr 1
    exact (Finset.sum_range_succ _ j).symm

theorem SumAt.loop {n j : ℕ} {s : Cpu} (h : SumAt base spl_addr m 4 j (n+1) s)
    (hn : 4*(n+1) < 2^32) : ∃ t, Runs s t ∧ SumAt base spl_addr m 8 (j+n+1) 0 t := by
  induction n generalizing j s with
  | zero =>
    obtain ⟨t, hr, hz, h1⟩ := h.word hn
    have c1 := h1.pos.skipped (c := .ne) rfl (by
      change (!t.z) = false
      rw [hz]
      rfl)
    exact ⟨_, hr.tail c1, h1.pos.next rfl h1.pos.code, h1.buf1, h1.fullsize, h1.checksum,
      h1.spl_addr, h1.mem⟩
  | succ n ih =>
    obtain ⟨t, hr, hz, h1⟩ := h.word hn
    have c1 := h1.pos.taken (c := .ne) rfl (by
      change (!t.z) = true
      rw [hz]
      simp) (by simp)
    have h2 : SumAt base spl_addr m 4 (j+1) (n+1) { t with pc := t.pc+8#32+(-20#32) } :=
      ⟨h1.pos.jump (-20#32) 4 (by decide), h1.buf1, h1.fullsize, h1.checksum, h1.spl_addr, h1.mem⟩
    obtain ⟨u, hu, h3⟩ := ih h2 (by omega)
    refine ⟨u, hr.trans (.head c1 hu), ?_⟩
    rw [show j+(n+1)+1 = j+1+n+1 from by omega]
    exact h3

/-- An unconditional instruction that stays out of the memory. -/
theorem ran {asm : List (Cond × Instr)} {i : ℕ} {s : Cpu} {ins : Instr} (h : At asm base i s)
    (hi : asm[i]? = some (.al, ins)) (hb : ins ≠ .bx 14#4) (hpc : (exec ins s).pc = s.pc+4#32)
    (hm : (exec ins s).mem = s.mem) :
    Cont s (exec ins s) ∧ At asm base (i+1) (exec ins s) :=
  ⟨h.taken hi rfl hb, h.advance hpc (hm ▸ h.code)⟩

/-- `lsl #1` doubles. -/
theorem shiftLeft_one_eq (w : Word) : w <<< 1 = 2#32*w := by
  rw [BitVec.shiftLeft_eq_mul_twoPow, BitVec.mul_comm]
  rfl

/-- Up to `check_next_word`. -/
theorem sum_entered {n : ℕ} {s : Cpu} (h : At verifyAsm base 0 s) (h8 : s.r 8#4 = spl_addr)
    (hlen : load32 s.mem (spl_addr+16#32) = BitVec.ofNat 32 (4*n)) :
    ∃ t, Runs s t ∧ SumAt base spl_addr s.mem 4 0 n t := by
  obtain ⟨c0, a0⟩ := ran (i := 0) h rfl nofun rfl rfl
  obtain ⟨c1, a1⟩ := ran a0 rfl nofun rfl rfl
  obtain ⟨c2, a2⟩ := ran a1 rfl nofun rfl rfl
  obtain ⟨c3, a3⟩ := ran a2 rfl nofun rfl rfl
  have hr0 : s.r 8#4 <<< 0 = spl_addr := by rw [h8, BitVec.shiftLeft_zero]
  refine ⟨_, .head c0 (.head c1 (.head c2 (.single c3))), a3, ?_, ?_, ?_, h8, rfl⟩
  · exact hr0.trans (BitVec.add_zero _).symm
  · change load32 s.mem (s.r 8#4 <<< 0+16#32) = _
    rw [hr0, hlen]
  · change 0x5f0a#16 ++ (BitVec.setWidth 32 0x6c39#16).extractLsb' 0 16 = egonStamp+0#32
    rfl

/-- `verify_checksum` for a length of `n+1` words in memory. -/
theorem verify_checksum_runs {n : ℕ} {s : Cpu} (h : At verifyAsm base 0 s)
    (h8 : s.r 8#4 = spl_addr) (hlen : load32 s.mem (spl_addr+16#32) = BitVec.ofNat 32 (4*(n+1)))
    (hn : 4*(n+1) < 2^32) :
    ∃ t, Runs s t ∧ t.mem = s.mem ∧ t.pc =
      if egonStamp+wordSum s.mem spl_addr (n+1) = 2#32*load32 s.mem (spl_addr+12#32)
      then base+44#32 else base+88#32 := by
  obtain ⟨u, hu, h4⟩ := sum_entered h h8 hlen
  obtain ⟨t, hr, h8'⟩ := h4.loop hn
  rw [Nat.zero_add] at h8'
  obtain ⟨c8, a8⟩ := ran h8'.pos rfl nofun rfl rfl
  obtain ⟨c9, a9⟩ := ran a8 rfl nofun rfl rfl
  have hrun := ((hu.trans hr).tail c8).tail c9
  have hz : (exec (.alu .sub true 7#4 7#4 (.reg 2#4 1))
      (exec (.transfer true false 2#4 8#4 (.imm 12#32) true true false) t)).z =
      decide (egonStamp+wordSum s.mem spl_addr (n+1) = 2#32*load32 s.mem (spl_addr+12#32)) := by
    change decide (t.r 7#4-load32 t.mem (t.r 8#4+12#32) <<< 1 = 0#32) = _
    rw [h8'.checksum, h8'.spl_addr, h8'.mem]
    apply decide_eq_decide.mpr
    rw [shiftLeft_one_eq]
    exact sub_eq_zero
  split_ifs with hsum
  · have c10 := a9.skipped (c := .ne) rfl (by
      change (!(Cpu.z _)) = false
      rw [hz, decide_eq_true hsum]
      rfl)
    refine ⟨_, hrun.tail c10, h8'.mem, ?_⟩
    change _+4#32 = _
    rw [a9.pc, BitVec.add_assoc]
    rfl
  · have c10 := a9.taken (c := .ne) rfl (by
      change (!(Cpu.z _)) = true
      rw [hz, decide_eq_false hsum]
      rfl) nofun
    refine ⟨_, hrun.tail c10, h8'.mem, ?_⟩
    change _+8#32+40#32 = _
    rw [a9.pc, BitVec.add_assoc, BitVec.add_assoc]
    rfl


/-- The first `n` bytes of a buffer are in memory from `addr` on. -/
def HeldAt (m : Mem) (addr : Word) (buf : List (BitVec 8)) (n : ℕ) : Prop :=
  ∀ k < n, buf[k]? = some (m (addr+BitVec.ofNat 32 k))

/-- The thunk is about to check: its words from `verify_checksum` on are in place, and
SPL_ADDR is loaded. -/
structure Verifying (thunk_addr spl_addr : Word) (s : Cpu) : Prop where
  pc : s.pc = verifyChecksum thunk_addr
  code : ∀ i w, 36 ≤ i → felToSplThunk[i]? = some w →
    load32 s.mem (thunk_addr+BitVec.ofNat 32 (4*i)) = w
  spl_addr : s.r 8#4 = spl_addr

/-- The checksum routine lets the image through. -/
def Verified (thunk_addr : Word) (s : Cpu) : Prop :=
  ∃ t, Runs s t ∧ t.pc = changeToFel thunk_addr ∧ t.mem = s.mem

section Image

variable {m : Mem} {addr thunk_addr spl_addr : Word} {buf : List (BitVec 8)}

theorem HeldAt.word {n i : ℕ} (h : HeldAt m addr buf n) (hi : 4*i+4 ≤ n) :
    load32 m (addr+BitVec.ofNat 32 (4*i)) = buf32 buf i := by
  have hbyte (k : ℕ) (hk : k < 4) :
      m (addr+BitVec.ofNat 32 (4*i)+BitVec.ofNat 32 k) = buf.getD (4*i+k) 0#8 := by
    rw [BitVec.add_assoc, ← BitVec.ofNat_add, List.getD_eq_getElem?_getD, h _ (by omega),
      Option.getD_some]
  have h0 := hbyte 0 (by decide)
  simp only [BitVec.add_zero, Nat.add_zero] at h0
  unfold load32 buf32
  rw [h0, ← hbyte 1 (by decide), ← hbyte 2 (by decide), ← hbyte 3 (by decide)]

theorem HeldAt.wordSum {n k : ℕ} (h : HeldAt m addr buf n) (hk : 4*k ≤ n) :
    wordSum m addr k = ∑ i ∈ Finset.range k, buf32 buf i := by
  apply Finset.sum_congr rfl
  intro i hi
  have := Finset.mem_range.mp hi
  exact h.word (by omega)

theorem Verifying.at_start {s : Cpu} (h : Verifying thunk_addr spl_addr s) :
    At verifyAsm (verifyChecksum thunk_addr) 0 s := by
  refine ⟨by rw [h.pc, Nat.mul_zero, BitVec.add_zero], ?_⟩
  intro i ci hi
  have hd : (((felToSplThunk.drop 36).take 11).map decode)[i]? = some (some ci) := by
    rw [verifyAsm_decode, List.getElem?_map, hi, Option.map_some]
  rw [List.getElem?_map, Option.map_eq_some_iff] at hd
  obtain ⟨w, hw, hdw⟩ := hd
  have hlt : i < 11 := (List.getElem?_eq_some_iff.mp hi).1
  rw [List.getElem?_take, if_pos hlt, List.getElem?_drop] at hw
  have hload := h.code _ w (Nat.le_add_right 36 i) hw
  rw [Nat.mul_add, BitVec.ofNat_add, ← BitVec.add_assoc] at hload
  rw [← hdw, ← hload]
  rfl

/-- An image with a length that covers its header is checked as the host does it. -/
theorem Verifying.image {s : Cpu} (h : Verifying thunk_addr spl_addr s)
    (hheld : HeldAt s.mem spl_addr buf (splLen buf).toNat) (hheader : 20 ≤ (splLen buf).toNat)
    (hwords : (splLen buf).toNat%4 = 0) (hsum : splChecksum buf = 0#32) :
    Verified thunk_addr s := by
  have hlt := (splLen buf).isLt
  obtain ⟨n, hn⟩ : ∃ n, (splLen buf).toNat = 4*(n+1) := ⟨(splLen buf).toNat/4-1, by omega⟩
  have hlen : load32 s.mem (spl_addr+16#32) = BitVec.ofNat 32 (4*(n+1)) := by
    rw [← hn, BitVec.ofNat_toNat, BitVec.setWidth_eq]
    exact hheld.word (i := 4) hheader
  obtain ⟨t, hr, hmem, hpc⟩ := verify_checksum_runs h.at_start h.spl_addr hlen (by omega)
  refine ⟨t, hr, ?_, hmem⟩
  have hstored : load32 s.mem (spl_addr+12#32) = buf32 buf 3 := hheld.word (i := 3) (by omega)
  have hagree := (splChecksum_eq_zero buf).mp hsum
  rw [hn, Nat.mul_div_cancel_left _ (by decide)] at hagree
  rw [hpc, hheld.wordSum (by omega), hstored, if_pos hagree.symm]
  unfold verifyChecksum changeToFel
  rw [BitVec.add_assoc]
  rfl

end Image

/-- The host and the thunk both follow the rule just when no length ends before its own
word with a checksum that agrees. -/
theorem spl_acceptance_iff (soc : SocInfo) (tt : Bool) (buf : List (BitVec 8))
    (hs : soc.swap_buffers ≠ []) :
    ((SplAccepted soc tt buf ↔ EgonRule buf) ∧
      (SplAccepted soc tt buf → ∀ s, Verifying soc.thunk_addr soc.spl_addr s →
        HeldAt s.mem soc.spl_addr buf (splLen buf).toNat → Verified soc.thunk_addr s)) ↔
    ¬ShortLength buf := by
  constructor
  · rintro ⟨hiff, -⟩
    exact (splAccepted_rule hs).mp hiff
  · intro hshort
    have hiff : SplAccepted soc tt buf ↔ EgonRule buf := (splAccepted_rule hs).mpr hshort
    refine ⟨hiff, ?_⟩
    intro hacc s hv hheld
    have hrule := hiff.mp hacc
    exact hv.image hheld hrule.header hrule.words
      ((splChecksum_rule (le_trans (by decide) hrule.header)).mpr hrule.checksum)

/-- After the upload and `swap_all_buffers` the thunk lets the image through. -/
theorem spl_upload_verified (soc : SocInfo) (es : List SramSwapBuffers) (tt : Bool)
    (buf : List (BitVec 8)) (ws : List FelWrite) (m : Mem) (htab : SplTable soc es)
    (hok : awFelWriteAndExecuteSpl soc tt buf = .ok ws)
    (harea : ThunkArea soc es (splLen buf).toNat) (hshort : ¬ShortLength buf) {s t s' : Cpu}
    (hpc : s.pc = soc.thunk_addr+40#32)
    (hs : ∀ x, ¬InRange (soc.thunk_addr+4#32) 36 x → s.mem x = applyWrites m ws x)
    (ht : Returns s t) (hpc' : s'.pc = verifyChecksum soc.thunk_addr)
    (h8 : s'.r 8#4 = soc.spl_addr) (hmem : s'.mem = t.mem) : Verified soc.thunk_addr s' := by
  have ha := accepted_of_ok hok
  have hsize := ha.thunk
  have hle := harea.le
  have hlen := htab.thunkWords_length
  have hsoc : soc.swap_buffers ≠ [] := by
    intro h0
    unfold awFelWriteAndExecuteSpl at hok
    rw [if_pos h0] at hok
    exact nomatch hok
  have hacc : SplAccepted soc tt buf := by
    intro msg _ herr
    exact nomatch hok.symm.trans herr
  have hrule := ((splAccepted_rule hsoc).mpr hshort).mp hacc
  -- the call returns in one way only, with the image in place
  obtain ⟨u, hu, himage, -⟩ := (spl_upload_swapped soc es tt buf ws m htab hok harea).2 s hpc hs
  obtain ⟨v, hv, hswap⟩ := htab.swap_returns harea hsize hpc (htab.uploaded_ready ha harea hs)
  rw [Returns.unique hu ht] at himage
  rw [Returns.unique hv ht] at hswap
  have hverify : Verifying soc.thunk_addr soc.spl_addr s' := by
    refine ⟨hpc', ?_, h8⟩
    intro i w hi hw
    have hlt : i < 66 := (List.getElem?_eq_some_iff.mp hw).1
    have hget : (thunkWords soc)[i]? = some w := by
      unfold thunkWords
      rw [List.getElem?_append_left hlt, hw]
    obtain ⟨hiw, he⟩ := List.getElem?_eq_some_iff.mp hget
    rw [← he, ← load32_upload (applyWrites m (splUpload soc buf).finish) (thunkWords soc)
      soc.thunk_addr i hiw (by omega)]
    apply load32_congr
    intro k hk
    -- neither the swap nor the stack reaches these words
    rw [hmem, hswap, thunk_offset]
    change s.mem (swapAddr es _) = _
    rw [swapAddr_other (fun e hmem => harea.clear hmem (by omega)), hs, ha.writes,
      applyWrites_append]
    unfold InRange
    rw [add_ofNat_toNat (k := 4) (by omega), add_ofNat_toNat (by omega)]
    omega
  apply hverify.image _ hrule.header hrule.words
    ((splChecksum_rule (le_trans (by decide) hrule.header)).mpr hrule.checksum)
  intro k hk
  rw [hmem]
  exact himage k hk

/-- The small image is no such buffer. -/
theorem spl_acceptance_small :
    (getSocInfoFromId 0x1625#32).swap_buffers ≠ [] ∧
    (((SplAccepted (getSocInfoFromId 0x1625#32) false smallImage ↔ EgonRule smallImage) ∧
      (SplAccepted (getSocInfoFromId 0x1625#32) false smallImage →
        ∀ s, Verifying 0xA200#32 0#32 s → HeldAt s.mem 0#32 smallImage 32 →
          Verified 0xA200#32 s)) ↔ ¬ShortLength smallImage) :=
  ⟨by decide, spl_acceptance_iff (getSocInfoFromId 0x1625#32) false smallImage (by decide)⟩

/-- An image of one word and a header that says so. -/
def shortImage : List (BitVec 8) :=
  [0xc7#8, 0x93#8, 0xf5#8, 0xa0#8, 0x65#8, 0x47#8, 0x4f#8, 0x4e#8,
   0x2e#8, 0x42#8, 0x54#8, 0x30#8, 0x00#8, 0x00#8, 0x00#8, 0x00#8,
   0x04#8, 0x00#8, 0x00#8, 0x00#8, 0x00#8, 0x00#8, 0x00#8, 0x00#8,
   0x00#8, 0x00#8, 0x00#8, 0x00#8, 0x00#8, 0x00#8, 0x00#8, 0x00#8]

/-- A device with the thunk and this image, and the header of another one behind it. -/
def shortImageCpu : Cpu :=
  { r := fun _ => 0#32, pc := verifyChecksum 0xA200#32
    n := false, z := false, c := false, v := false
    mem := awFelWrite (awFelWrite (fun _ => 0#8) (shortImage.set 12 1#8) 0#32)
      (leBytes felToSplThunk) 0xA200#32 }

theorem shortImageCpu_verifying : Verifying 0xA200#32 0#32 shortImageCpu := by
  refine ⟨rfl, ?_, rfl⟩
  intro i w _ hw
  obtain ⟨hi, he⟩ := List.getElem?_eq_some_iff.mp hw
  rw [← he]
  exact load32_upload _ felToSplThunk 0xA200#32 i hi (by decide)

/-- The host takes it for an image, although its length leaves out the stored checksum, and
the thunk may find it bad. -/
theorem spl_acceptance_short :
    SplAccepted (getSocInfoFromId 0x1625#32) false shortImage ∧ ¬EgonRule shortImage ∧
    Verifying 0xA200#32 0#32 shortImageCpu ∧ HeldAt shortImageCpu.mem 0#32 shortImage 4 ∧
    ∃ t, Runs shortImageCpu t ∧ t.pc = checksumIsBad 0xA200#32 := by
  refine ⟨?_, fun h => absurd h.header (by decide), shortImageCpu_verifying, ?_, ?_⟩
  · apply (splAccepted_iff (by decide)).mpr
    decide
  · unfold HeldAt
    decide
  · obtain ⟨t, hr, -, hpc⟩ := @verify_checksum_runs (verifyChecksum 0xA200#32) 0#32 0
      shortImageCpu shortImageCpu_verifying.at_start rfl (by decide) (by decide)
    refine ⟨t, hr, ?_⟩
    rw [hpc, if_neg (by decide)]
    rfl

end Device

end ChipTools.Fel
