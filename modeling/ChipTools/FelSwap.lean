import ChipTools.FelMemory
import ChipTools.SocInfo

/-! `swap_all_buffers` of the FEL to SPL thunk: the exchange of address ranges that it is
for, and its instructions. -/
namespace ChipTools.Fel
open Arm

/-- `x` lies in the `n` bytes at `b`. -/
def InRange (b : Word) (n : ℕ) (x : Word) : Prop := b.toNat ≤ x.toNat ∧ x.toNat < b.toNat+n

instance (b : Word) (n : ℕ) (x : Word) : Decidable (InRange b n x) := instDecidableAnd

/-- Two ranges of `n` and `k` bytes have no byte in common. -/
def Apart (a : Word) (n : ℕ) (b : Word) (k : ℕ) : Prop :=
  a.toNat+n ≤ b.toNat ∨ b.toNat+k ≤ a.toNat

instance (a : Word) (n : ℕ) (b : Word) (k : ℕ) : Decidable (Apart a n b k) := instDecidableOr

theorem Apart.symm {a b : Word} {n k : ℕ} (h : Apart a n b k) : Apart b k a n := Or.symm h

theorem Apart.not_both {a b x : Word} {n k : ℕ} (h : Apart a n b k) (ha : InRange a n x) :
    ¬InRange b k x := by
  unfold Apart InRange at *
  omega

/-- The address that the exchange of `n` bytes at `a` and at `b` puts in the place of `x`. -/
def exchange (a b : Word) (n : ℕ) (x : Word) : Word :=
  if InRange a n x then x-a+b else if InRange b n x then x-b+a else x

section Exchange

variable {a b x : Word} {n : ℕ}

theorem exchange_first (hx : InRange a n x) : exchange a b n x = x-a+b := if_pos hx

theorem exchange_second (hab : Apart a n b n) (hx : InRange b n x) :
    exchange a b n x = x-b+a := by
  unfold exchange
  rw [if_neg (hab.symm.not_both hx), if_pos hx]

theorem exchange_other (ha : ¬InRange a n x) (hb : ¬InRange b n x) : exchange a b n x = x := by
  unfold exchange
  rw [if_neg ha, if_neg hb]

theorem inRange_shift (hb : b.toNat+n ≤ 2^32) (hx : InRange a n x) :
    InRange b n (x-a+b) ∧ x-a+b-b+a = x := by
  have hsub : (x-a).toNat = x.toNat-a.toNat := by
    rw [BitVec.toNat_sub_of_le (BitVec.le_def.mpr hx.1)]
  have hadd : (x-a+b).toNat = x.toNat-a.toNat+b.toNat := by
    rw [BitVec.toNat_add, hsub]
    unfold InRange at hx
    omega
  constructor
  · unfold InRange at *
    omega
  · rw [BitVec.add_sub_cancel, BitVec.sub_add_cancel]

theorem exchange_exchange (ha : a.toNat+n ≤ 2^32) (hb : b.toNat+n ≤ 2^32) (hab : Apart a n b n)
    (x : Word) : exchange a b n (exchange a b n x) = x := by
  by_cases hxa : InRange a n x
  · obtain ⟨hm, he⟩ := inRange_shift hb hxa
    rw [exchange_first hxa, exchange_second hab hm, he]
  by_cases hxb : InRange b n x
  · obtain ⟨hm, he⟩ := inRange_shift ha hxb
    rw [exchange_second hab hxb, exchange_first hm, he]
  · rw [exchange_other hxa hxb, exchange_other hxa hxb]

/-- The exchange stays inside its two ranges. -/
theorem exchange_mem (ha : a.toNat+n ≤ 2^32) (hb : b.toNat+n ≤ 2^32) (hab : Apart a n b n)
    (x : Word) : InRange a n (exchange a b n x) ∨ InRange b n (exchange a b n x) ↔
      InRange a n x ∨ InRange b n x := by
  by_cases hxa : InRange a n x
  · have hm := (inRange_shift hb hxa).1
    rw [exchange_first hxa]
    exact iff_of_true (.inr hm) (.inl hxa)
  by_cases hxb : InRange b n x
  · have hm := (inRange_shift ha hxb).1
    rw [exchange_second hab hxb]
    exact iff_of_true (.inl hm) (.inr hxb)
  · rw [exchange_other hxa hxb]

end Exchange

namespace SramSwapBuffers

/-- Neither buffer wraps, and the two have no byte in common. -/
structure Valid (e : SramSwapBuffers) : Prop where
  buf1_le : e.buf1.toNat+e.size.toNat ≤ 2^32
  buf2_le : e.buf2.toNat+e.size.toNat ≤ 2^32
  apart : Apart e.buf1 e.size.toNat e.buf2 e.size.toNat

/-- `x` lies in one of the two buffers. -/
def Covers (e : SramSwapBuffers) (x : Word) : Prop :=
  InRange e.buf1 e.size.toNat x ∨ InRange e.buf2 e.size.toNat x

/-- The buffers of two entries have no byte in common. -/
structure Separate (e f : SramSwapBuffers) : Prop where
  buf11 : Apart e.buf1 e.size.toNat f.buf1 f.size.toNat
  buf12 : Apart e.buf1 e.size.toNat f.buf2 f.size.toNat
  buf21 : Apart e.buf2 e.size.toNat f.buf1 f.size.toNat
  buf22 : Apart e.buf2 e.size.toNat f.buf2 f.size.toNat

theorem Separate.not_both {e f : SramSwapBuffers} {x : Word} (h : Separate e f)
    (he : e.Covers x) : ¬f.Covers x := by
  intro hf
  rcases he with h1 | h2
  · rcases hf with hf | hf
    · exact h.buf11.not_both h1 hf
    · exact h.buf12.not_both h1 hf
  · rcases hf with hf | hf
    · exact h.buf21.not_both h2 hf
    · exact h.buf22.not_both h2 hf

def swap (e : SramSwapBuffers) (x : Word) : Word := exchange e.buf1 e.buf2 e.size.toNat x

theorem swap_other {e : SramSwapBuffers} {x : Word} (h : ¬e.Covers x) : e.swap x = x :=
  exchange_other (fun hx => h (.inl hx)) (fun hx => h (.inr hx))

theorem swap_swap {e : SramSwapBuffers} (h : e.Valid) (x : Word) : e.swap (e.swap x) = x :=
  exchange_exchange h.buf1_le h.buf2_le h.apart x

theorem swap_covers {e : SramSwapBuffers} (h : e.Valid) (x : Word) :
    e.Covers (e.swap x) ↔ e.Covers x := exchange_mem h.buf1_le h.buf2_le h.apart x

end SramSwapBuffers

/-- The entries of a table, with all ranges pairwise disjoint. -/
structure Entries (es : List SramSwapBuffers) : Prop where
  valid : ∀ e ∈ es, e.Valid
  separate : es.Pairwise SramSwapBuffers.Separate

theorem Entries.tail {e : SramSwapBuffers} {es : List SramSwapBuffers} (h : Entries (e :: es)) :
    Entries es :=
  ⟨fun f hf => h.valid f (List.mem_cons_of_mem e hf), (List.pairwise_cons.mp h.separate).2⟩

/-- All exchanges of a table, as a permutation of the addresses. -/
def swapAddr (es : List SramSwapBuffers) (x : Word) : Word := es.foldr SramSwapBuffers.swap x

theorem swapAddr_other {es : List SramSwapBuffers} {x : Word} (h : ∀ e ∈ es, ¬e.Covers x) :
    swapAddr es x = x := by
  induction es with
  | nil => rfl
  | cons e es ih =>
    change e.swap (swapAddr es x) = x
    rw [ih (fun f hf => h f (List.mem_cons_of_mem e hf)),
      SramSwapBuffers.swap_other (h e List.mem_cons_self)]

/-- Only the entry that covers an address moves it. -/
theorem swapAddr_of_covers {es : List SramSwapBuffers} (h : Entries es) {e : SramSwapBuffers}
    (he : e ∈ es) {x : Word} (hx : e.Covers x) : swapAddr es x = e.swap x := by
  induction es with
  | nil => exact absurd he List.not_mem_nil
  | cons f es ih =>
    have hsep := (List.pairwise_cons.mp h.separate).1
    change f.swap (swapAddr es x) = e.swap x
    rcases List.mem_cons.mp he with rfl | he'
    · rw [swapAddr_other (fun g hg => (hsep g hg).not_both hx)]
    · rw [ih h.tail he']
      apply SramSwapBuffers.swap_other
      intro hf
      apply (hsep e he').not_both hf
      exact (SramSwapBuffers.swap_covers (h.valid e he) x).mpr hx

theorem swapAddr_swapAddr {es : List SramSwapBuffers} (h : Entries es) (x : Word) :
    swapAddr es (swapAddr es x) = x := by
  by_cases hx : ∃ e ∈ es, e.Covers x
  · obtain ⟨e, he, hc⟩ := hx
    rw [swapAddr_of_covers h he hc,
      swapAddr_of_covers h he ((SramSwapBuffers.swap_covers (h.valid e he) x).mpr hc),
      SramSwapBuffers.swap_swap (h.valid e he)]
  · have hx' : ∀ e ∈ es, ¬e.Covers x := fun e he hc => hx ⟨e, he, hc⟩
    rw [swapAddr_other hx', swapAddr_other hx']

/-- Words of `fel-to-spl-thunk.h`. -/
def felToSplThunk : List Word :=
  [0xea000015#32,
   -- stack_begin
   0xe1a00000#32, 0xe1a00000#32, 0xe1a00000#32, 0xe1a00000#32, 0xe1a00000#32, 0xe1a00000#32,
   0xe1a00000#32, 0xe1a00000#32,
   -- stack_end
   0xe1a00000#32,
   -- swap_all_buffers
   0xe28f40dc#32,
   -- swap_next_buffer
   0xe4940004#32, 0xe4941004#32, 0xe4946004#32, 0xe3560000#32, 0x012fff1e#32,
   -- swap_next_word
   0xe5902000#32, 0xe5913000#32, 0xe2566004#32, 0xe4812004#32, 0xe4803004#32, 0x1afffff9#32,
   0xeafffff3#32,
   -- setup_stack
   0xe59f80a4#32, 0xe24f0044#32, 0xe520d004#32, 0xe1a0d000#32, 0xe10f2000#32, 0xe92d4004#32,
   0xe38220c0#32, 0xe121f002#32, 0xee112f10#32, 0xe3013004#32, 0xe1120003#32, 0x1a000012#32,
   0xebffffe5#32,
   -- verify_checksum
   0xe3067c39#32, 0xe3457f0a#32, 0xe1a00008#32, 0xe5905010#32,
   -- check_next_word
   0xe4902004#32, 0xe2555004#32, 0xe0877002#32, 0x1afffffb#32, 0xe598200c#32, 0xe0577082#32,
   0x1a00000a#32, 0xe304262e#32, 0xe3442c45#32, 0xe5882008#32, 0xf57ff04f#32, 0xf57ff06f#32,
   0xe12fff38#32, 0xea000006#32,
   -- cache_is_unsupported
   0xe3032f2e#32, 0xe3432f3f#32, 0xe5882008#32, 0xea000003#32,
   -- checksum_is_bad
   0xe304222e#32, 0xe3442441#32, 0xe5882008#32,
   -- return_to_fel
   0xebffffcb#32,
   -- return_to_fel_noswap
   0xe8bd4004#32, 0xe121f002#32, 0xe59dd000#32, 0xe12fff1e#32]

/-- Disassembly of `swap_all_buffers`. -/
def swapAsm : List (Cond × Instr) :=
  [(.al, .alu .add false 4#4 15#4 (.imm 220#32)),
   (.al, .transfer true false 0#4 4#4 (.imm 4#32) true false true),
   (.al, .transfer true false 1#4 4#4 (.imm 4#32) true false true),
   (.al, .transfer true false 6#4 4#4 (.imm 4#32) true false true),
   (.al, .alu .cmp true 0#4 6#4 (.imm 0#32)),
   (.eq, .bx 14#4),
   (.al, .transfer true false 2#4 0#4 (.imm 0#32) true true false),
   (.al, .transfer true false 3#4 1#4 (.imm 0#32) true true false),
   (.al, .alu .sub true 6#4 6#4 (.imm 4#32)),
   (.al, .transfer false false 2#4 1#4 (.imm 4#32) true false true),
   (.al, .transfer false false 3#4 0#4 (.imm 4#32) true false true),
   (.ne, .branch (-28#32)),
   (.al, .branch (-52#32))]

theorem felToSplThunk_decode :
    ((felToSplThunk.drop 10).take 13).map decode = swapAsm.map some := by
  rfl

section Word

variable {a b : Word} {n j : ℕ}

theorem offset_lt_four (c x : Word) (k : ℕ) (hk : c.toNat+k+4 ≤ 2^32) :
    (x-(c+BitVec.ofNat 32 k)).toNat < 4 ↔
      c.toNat+k ≤ x.toNat ∧ x.toNat < c.toNat+k+4 := by
  have hc : (c+BitVec.ofNat 32 k).toNat = c.toNat+k := by
    rw [BitVec.toNat_add, BitVec.toNat_ofNat]
    omega
  rw [BitVec.toNat_sub, hc]
  omega

/-- A word read after the first `j` bytes have been exchanged and the `j` of the other side. -/
theorem exchange_untouched (hab : Apart a n b n) (hj : j+4 ≤ n) {x : Word}
    (hx : a.toNat+j ≤ x.toNat ∧ x.toNat < a.toNat+j+4 ∨
      b.toNat+j ≤ x.toNat ∧ x.toNat < b.toNat+j+4) : exchange a b j x = x := by
  apply exchange_other
  · unfold InRange Apart at *
    omega
  · unfold InRange Apart at *
    omega

/-- One pass of `swap_next_word` over the memory. -/
theorem exchange_word (m : Mem) (ha : a.toNat+n ≤ 2^32) (hb : b.toNat+n ≤ 2^32)
    (hab : Apart a n b n) (hj : j+4 ≤ n) :
    store32 (store32 (fun x => m (exchange a b j x)) (b+BitVec.ofNat 32 j)
        (load32 (fun x => m (exchange a b j x)) (a+BitVec.ofNat 32 j))) (a+BitVec.ofNat 32 j)
        (load32 (fun x => m (exchange a b j x)) (b+BitVec.ofNat 32 j)) =
      fun x => m (exchange a b (j+4) x) := by
  funext x
  have hxa := offset_lt_four a x j (by omega)
  have hxb := offset_lt_four b x j (by omega)
  rw [store32_load32]
  split_ifs with h1
  · have h1' := hxa.mp h1
    have hr : InRange a (j+4) x := by
      unfold InRange
      omega
    have he : b+BitVec.ofNat 32 j+(x-(a+BitVec.ofNat 32 j)) = x-a+b := by
      bv_omega
    have hsub : (x-a+b).toNat = x.toNat-a.toNat+b.toNat := by
      bv_omega
    rw [he, exchange_first hr, exchange_untouched hab hj (.inr (by omega))]
  rw [store32_load32]
  split_ifs with h2
  · have h2' := hxb.mp h2
    have hr : InRange b (j+4) x := by
      unfold InRange
      omega
    have hab' : Apart a (j+4) b (j+4) := by
      unfold Apart at *
      omega
    have he : a+BitVec.ofNat 32 j+(x-(b+BitVec.ofNat 32 j)) = x-b+a := by
      bv_omega
    have hsub : (x-b+a).toNat = x.toNat-b.toNat+a.toNat := by
      bv_omega
    rw [he, exchange_second hab' hr, exchange_untouched hab hj (.inl (by omega))]
  · have e1 : InRange a (j+4) x ↔ InRange a j x := by
      unfold InRange
      omega
    have e2 : InRange b (j+4) x ↔ InRange b j x := by
      unfold InRange
      omega
    simp only [exchange, e1, e2]

end Word

section Thunk

variable {base lr : Word}

/-- Control is at instruction `i` of `swap_all_buffers`, with r4 at `tbl`. -/
structure SwapAt (base lr : Word) (i : ℕ) (tbl : Word) (mem : Mem) (s : Cpu) : Prop where
  pos : At swapAsm base i s
  r4 : s.r 4#4 = tbl
  lr : s.r 14#4 = lr
  mem : s.mem = mem

/-- The words of a table, up to the size of its last entry. -/
def TableAt (m : Mem) : List SramSwapBuffers → Word → Prop
  | [], p => load32 m (p+8#32) = 0#32
  | e :: es, p => load32 m p = e.buf1 ∧ load32 m (p+4#32) = e.buf2 ∧
      load32 m (p+8#32) = e.size ∧ TableAt m es (p+12#32)

/-- `ldr rd, [r4], #4`. -/
theorem SwapAt.ldrTable {i : ℕ} {p : Word} {m : Mem} {s : Cpu} (h : SwapAt base lr i p m s)
    (rd : Reg) (hrd : rd ≠ 4#4 ∧ rd ≠ 14#4)
    (hi : swapAsm[i]? = some (.al, .transfer true false rd 4#4 (.imm 4#32) true false true)) :
    ∃ t, Cont s t ∧ SwapAt base lr (i+1) (p+4#32) m t ∧ t.r rd = load32 m p ∧
      ∀ k, k ≠ rd → k ≠ 4#4 → t.r k = s.r k := by
  have c0 := h.pos.taken hi rfl (by simp)
  have a0 := h.pos.next
    (t := (s.set 4#4 (s.r 4#4+4#32)).set rd (load32 s.mem (s.r 4#4))) rfl h.pos.code
  refine ⟨_, c0, ⟨a0, ?_, ?_, h.mem⟩, ?_, ?_⟩
  · change Function.update (Function.update s.r 4#4 (s.r 4#4+4#32)) rd _ 4#4 = _
    rw [Function.update_of_ne hrd.1.symm, Function.update_self, h.r4]
  · change Function.update (Function.update s.r 4#4 (s.r 4#4+4#32)) rd _ 14#4 = _
    rw [Function.update_of_ne hrd.2.symm, Function.update_of_ne (by decide), h.lr]
  · change Function.update (Function.update s.r 4#4 (s.r 4#4+4#32)) rd
      (load32 s.mem (s.r 4#4)) rd = _
    rw [Function.update_self, h.r4, h.mem]
  · intro k hk h4
    change Function.update (Function.update s.r 4#4 (s.r 4#4+4#32)) rd _ k = _
    rw [Function.update_of_ne hk, Function.update_of_ne h4]

/-- `swap_next_buffer` reads an entry and compares its size with zero. -/
theorem SwapAt.entry {p : Word} {m : Mem} {s : Cpu} (h : SwapAt base lr 1 p m s) :
    ∃ t, Runs s t ∧ SwapAt base lr 5 (p+12#32) m t ∧ t.r 0#4 = load32 m p ∧
      t.r 1#4 = load32 m (p+4#32) ∧ t.r 6#4 = load32 m (p+8#32) ∧
      t.z = decide (load32 m (p+8#32) = 0#32) := by
  obtain ⟨t, c0, h0, e0, k0⟩ := h.ldrTable 0#4 (by decide) rfl
  obtain ⟨u, c1, h1, e1, k1⟩ := h0.ldrTable 1#4 (by decide) rfl
  obtain ⟨v, c2, h2, e2, k2⟩ := h1.ldrTable 6#4 (by decide) rfl
  have c3 := h2.pos.taken rfl rfl (by decide)
  have h3 : SwapAt base lr 5 (p+12#32) m (v.subFlags (v.r 6#4) 0#32).next := by
    refine ⟨h2.pos.next rfl h2.pos.code, ?_, h2.lr, h2.mem⟩
    change v.r 4#4 = _
    rw [h2.r4, BitVec.add_assoc, BitVec.add_assoc]
    rfl
  refine ⟨_, .head c0 (.head c1 (.head c2 (.single c3))), h3, ?_, ?_, ?_, ?_⟩
  · change v.r 0#4 = _
    rw [k2 _ (by decide) (by decide), k1 _ (by decide) (by decide), e0]
  · change v.r 1#4 = _
    rw [k2 _ (by decide) (by decide), e1]
  · change v.r 6#4 = _
    rw [e2, BitVec.add_assoc]
    rfl
  · change decide (v.r 6#4-0#32 = 0#32) = _
    rw [e2, BitVec.add_assoc, BitVec.sub_zero]
    rfl

/-- The registers of the inner loop. -/
structure WordAt (base lr : Word) (i : ℕ) (tbl r0 r1 r2 r3 r6 : Word) (mem : Mem) (s : Cpu) :
    Prop extends SwapAt base lr i tbl mem s where
  r0 : s.r 0#4 = r0
  r1 : s.r 1#4 = r1
  r2 : s.r 2#4 = r2
  r3 : s.r 3#4 = r3
  r6 : s.r 6#4 = r6

/-- The two loads and two stores of `swap_next_word`. -/
theorem SwapAt.word {p r0 r1 r6 : Word} {m m' : Mem} {s : Cpu} (h : SwapAt base lr 6 p m s)
    (h0 : s.r 0#4 = r0) (h1 : s.r 1#4 = r1) (h6 : s.r 6#4 = r6)
    (hm : store32 (store32 m r1 (load32 m r0)) r0 (load32 m r1) = m')
    (hl : Loaded swapAsm base (store32 m r1 (load32 m r0))) (hl' : Loaded swapAsm base m') :
    ∃ t, Runs s t ∧ SwapAt base lr 11 p m' t ∧ t.r 0#4 = r0+4#32 ∧ t.r 1#4 = r1+4#32 ∧
      t.r 6#4 = r6-4#32 ∧ t.z = decide (r6-4#32 = 0#32) := by
  have k0 : load32 s.mem (s.r 0#4+0#32) = load32 m r0 := by rw [h.mem, h0, BitVec.add_zero]
  obtain ⟨t, c0, w0⟩ : ∃ t, Cont s t ∧
      WordAt base lr 7 p r0 r1 (load32 m r0) (s.r 3#4) r6 m t :=
    ⟨_, h.pos.taken rfl rfl (by decide), ⟨h.pos.advance rfl h.pos.code, h.r4, h.lr, h.mem⟩,
      h0, h1, k0, rfl, h6⟩
  have k1 : load32 t.mem (t.r 1#4+0#32) = load32 m r1 := by rw [w0.mem, w0.r1, BitVec.add_zero]
  obtain ⟨u, c1, w1⟩ : ∃ u, Cont t u ∧
      WordAt base lr 8 p r0 r1 (load32 m r0) (load32 m r1) r6 m u :=
    ⟨_, w0.pos.taken rfl rfl (by decide),
      ⟨w0.pos.advance rfl w0.pos.code, w0.r4, w0.lr, w0.mem⟩, w0.r0, w0.r1, w0.r2, k1, w0.r6⟩
  have k2 : u.r 6#4-4#32 = r6-4#32 := by rw [w1.r6]
  obtain ⟨v, c2, w2, hz⟩ : ∃ v, Cont u v ∧
      WordAt base lr 9 p r0 r1 (load32 m r0) (load32 m r1) (r6-4#32) m v ∧
        v.z = decide (u.r 6#4-4#32 = 0#32) :=
    ⟨_, w1.pos.taken rfl rfl (by decide),
      ⟨⟨w1.pos.advance rfl w1.pos.code, w1.r4, w1.lr, w1.mem⟩, w1.r0, w1.r1, w1.r2, w1.r3, k2⟩,
      rfl⟩
  have k3 : store32 v.mem (v.r 1#4) (v.r 2#4) = store32 m r1 (load32 m r0) := by
    rw [w2.mem, w2.r1, w2.r2]
  rw [← k3] at hl
  have k4 : v.r 1#4+4#32 = r1+4#32 := by rw [w2.r1]
  obtain ⟨w, c3, w3, hz3⟩ : ∃ w, Cont v w ∧
      WordAt base lr 10 p r0 (r1+4#32) (load32 m r0) (load32 m r1) (r6-4#32)
        (store32 m r1 (load32 m r0)) w ∧ w.z = v.z :=
    ⟨_, w2.pos.taken rfl rfl (by decide),
      ⟨⟨w2.pos.advance rfl hl, w2.r4, w2.lr, k3⟩, w2.r0, k4, w2.r2, w2.r3, w2.r6⟩, rfl⟩
  have k5 : store32 w.mem (w.r 0#4) (w.r 3#4) = m' := by
    rw [w3.mem, w3.r0, w3.r3, hm]
  rw [← k5] at hl'
  have k6 : w.r 0#4+4#32 = r0+4#32 := by rw [w3.r0]
  obtain ⟨x, c4, w4, hz4⟩ : ∃ x, Cont w x ∧
      WordAt base lr 11 p (r0+4#32) (r1+4#32) (load32 m r0) (load32 m r1) (r6-4#32) m' x ∧
        x.z = w.z :=
    ⟨_, w3.pos.taken rfl rfl (by decide),
      ⟨⟨w3.pos.advance rfl hl', w3.r4, w3.lr, k5⟩, k6, w3.r1, w3.r2, w3.r3, w3.r6⟩, rfl⟩
  refine ⟨x, .head c0 (.head c1 (.head c2 (.head c3 (.single c4)))), w4.toSwapAt, w4.r0, w4.r1,
    w4.r6, ?_⟩
  rw [hz4, hz3, hz, k2]

/-- Code and table are outside of every buffer. -/
def Clear (es : List SramSwapBuffers) (a : Word) (n : ℕ) : Prop :=
  ∀ e ∈ es, ∀ k < n, ¬e.Covers (a+BitVec.ofNat 32 k)

theorem exchange_clear {e : SramSwapBuffers} {x : Word} (hx : ¬e.Covers x) {j : ℕ}
    (hj : j ≤ e.size.toNat) : exchange e.buf1 e.buf2 j x = x := by
  unfold SramSwapBuffers.Covers InRange at hx
  apply exchange_other
  · unfold InRange
    omega
  · unfold InRange
    omega

theorem loaded_exchange {e : SramSwapBuffers} {m : Mem} (hl : Loaded swapAsm base m)
    (hc : ∀ k < 52, ¬e.Covers (base+BitVec.ofNat 32 k)) {j : ℕ} (hj : j ≤ e.size.toNat) :
    Loaded swapAsm base (fun x => m (exchange e.buf1 e.buf2 j x)) := by
  apply hl.frame
  intro k hk
  rw [exchange_clear (hc k hk) hj]

section Entry

variable {e : SramSwapBuffers} {m : Mem} (he : e.Valid) (hl : Loaded swapAsm base m)
variable (hc : ∀ k < 52, ¬e.Covers (base+BitVec.ofNat 32 k))

include he hl hc

/-- One word of an entry. -/
theorem SwapAt.entryWord {p r6 : Word} {j : ℕ} {s : Cpu} (hj : j+4 ≤ e.size.toNat)
    (h : SwapAt base lr 6 p (fun x => m (exchange e.buf1 e.buf2 j x)) s)
    (h0 : s.r 0#4 = e.buf1+BitVec.ofNat 32 j) (h1 : s.r 1#4 = e.buf2+BitVec.ofNat 32 j)
    (h6 : s.r 6#4 = r6) :
    ∃ t, Runs s t ∧ SwapAt base lr 11 p (fun x => m (exchange e.buf1 e.buf2 (j+4) x)) t ∧
      t.r 0#4 = e.buf1+BitVec.ofNat 32 (j+4) ∧ t.r 1#4 = e.buf2+BitVec.ofNat 32 (j+4) ∧
      t.r 6#4 = r6-4#32 ∧ t.z = decide (r6-4#32 = 0#32) := by
  have hb := he.buf2_le
  -- between the two stores the code is still in place
  have hl1 : Loaded swapAsm base (store32 (fun x => m (exchange e.buf1 e.buf2 j x))
      (e.buf2+BitVec.ofNat 32 j)
      (load32 (fun x => m (exchange e.buf1 e.buf2 j x)) (e.buf1+BitVec.ofNat 32 j))) := by
    apply hl.frame
    intro k hk
    have hck := hc k hk
    rw [store32_load32, if_neg, exchange_clear hck (by omega)]
    intro hlt
    apply hck
    have hr := (offset_lt_four e.buf2 _ j (by omega)).mp hlt
    apply Or.inr
    unfold InRange
    omega
  obtain ⟨t, ht, h2, e0, e1, e6, hz⟩ := h.word h0 h1 h6
    (exchange_word m he.buf1_le he.buf2_le he.apart hj) hl1 (loaded_exchange hl hc hj)
  refine ⟨t, ht, h2, ?_, ?_, e6, hz⟩
  · rw [e0, BitVec.ofNat_add, ← BitVec.add_assoc]
  · rw [e1, BitVec.ofNat_add, ← BitVec.add_assoc]

/-- `swap_next_word` exchanges the rest of one entry, `n+1` words of it being left. -/
theorem SwapAt.words {p : Word} {n j : ℕ} {s : Cpu} (hn : j+4*(n+1) = e.size.toNat)
    (h : SwapAt base lr 6 p (fun x => m (exchange e.buf1 e.buf2 j x)) s)
    (h0 : s.r 0#4 = e.buf1+BitVec.ofNat 32 j) (h1 : s.r 1#4 = e.buf2+BitVec.ofNat 32 j)
    (h6 : s.r 6#4 = BitVec.ofNat 32 (4*(n+1))) :
    ∃ t, Runs s t ∧ SwapAt base lr 1 p (fun x => m (e.swap x)) t := by
  have hlt := e.size.isLt
  induction n generalizing j s with
  | zero =>
    obtain ⟨t, ht, h2, -, -, -, hz⟩ := SwapAt.entryWord he hl hc (by omega) h h0 h1 h6
    have c0 := h2.pos.skipped (c := .ne) rfl (by simp [Cpu.holds, hz])
    have a0 := h2.pos.next rfl h2.pos.code
    have c1 := a0.taken rfl rfl (by decide)
    have hend : j+4 = e.size.toNat := by omega
    rw [hend] at h2
    have h3 : SwapAt base lr 1 p (fun x => m (e.swap x))
        { t.next with pc := t.next.pc+8#32+(-52#32) } :=
      ⟨a0.jump (-52#32) 1 (by decide), h2.r4, h2.lr, h2.mem⟩
    exact ⟨_, ht.trans (.head c0 (.single c1)), h3⟩
  | succ n ih =>
    obtain ⟨t, ht, h2, e0, e1, e6, hz⟩ := SwapAt.entryWord he hl hc (by omega) h h0 h1 h6
    have hrest : BitVec.ofNat 32 (4*(n+1+1))-4#32 = BitVec.ofNat 32 (4*(n+1)) := by
      bv_omega
    rw [hrest] at e6 hz
    have hne : t.holds .ne = true := by
      have : BitVec.ofNat 32 (4*(n+1)) ≠ 0#32 := by
        intro hh
        have := congrArg BitVec.toNat hh
        rw [BitVec.toNat_ofNat] at this
        change _ = 0 at this
        omega
      simp only [Cpu.holds, hz, this, decide_false, Bool.not_false]
    have c0 := h2.pos.taken (c := .ne) rfl hne (by decide)
    have h3 : SwapAt base lr 6 p (fun x => m (exchange e.buf1 e.buf2 (j+4) x))
        { t with pc := t.pc+8#32+(-28#32) } :=
      ⟨h2.pos.jump (-28#32) 6 (by decide), h2.r4, h2.lr, h2.mem⟩
    obtain ⟨u, hu, h4⟩ := ih (by omega) h3 e0 e1 e6
    exact ⟨u, ht.trans (.head c0 hu), h4⟩

end Entry

/-- A table depends on its own bytes only. -/
theorem TableAt.frame {m m' : Mem} {es : List SramSwapBuffers} {p : Word} (h : TableAt m es p)
    (hm : ∀ k < 12*(es.length+1), m' (p+BitVec.ofNat 32 k) = m (p+BitVec.ofNat 32 k)) :
    TableAt m' es p := by
  have hload (k : ℕ) (hk : k+4 ≤ 12*(es.length+1)) :
      load32 m' (p+BitVec.ofNat 32 k) = load32 m (p+BitVec.ofNat 32 k) := by
    apply load32_congr
    intro i hi
    rw [BitVec.add_assoc, ← BitVec.ofNat_add, hm (k+i) (by omega)]
  induction es generalizing p with
  | nil => exact (hload 8 (by simp)).trans h
  | cons f es ih =>
    obtain ⟨h1, h2, h3, h4⟩ := h
    rw [List.length_cons] at hm hload
    have hoff (k : ℕ) : p+12#32+BitVec.ofNat 32 k = p+BitVec.ofNat 32 (12+k) := by
      rw [BitVec.ofNat_add, BitVec.add_assoc]
    have h0 := hload 0 (by omega)
    rw [BitVec.add_zero] at h0
    refine ⟨h0.trans h1, (hload 4 (by omega)).trans h2, (hload 8 (by omega)).trans h3, ?_⟩
    apply ih h4
    · intro k hk
      rw [hoff]
      exact hm _ (by omega)
    · intro k hk
      rw [hoff]
      exact hload _ (by omega)

/-- The loop over the table, from any of its entries on. -/
theorem SwapAt.table {es : List SramSwapBuffers} (hes : Entries es)
    (hsize : ∀ e ∈ es, e.size ≠ 0#32 ∧ e.size.toNat%4 = 0) {m : Mem} {p : Word} {s : Cpu}
    (hcode : Clear es base 52) (htbl : Clear es p (12*(es.length+1)))
    (ht : TableAt m es p) (h : SwapAt base lr 1 p m s) :
    ∃ t, Returns s t ∧ t.pc = lr ∧ t.mem = fun x => m (swapAddr es x) := by
  induction es generalizing m p s with
  | nil =>
    obtain ⟨t, ht', h0, -, -, -, hz⟩ := h.entry
    have hz' : t.z = true := by
      rw [hz]
      exact decide_eq_true ht
    have hr := h0.pos.returns (c := .eq) rfl hz'
    exact ⟨_, Runs.returns ht' hr, h0.lr, h0.mem⟩
  | cons e es ih =>
    obtain ⟨h1, h2, h3, h4⟩ := ht
    obtain ⟨hs0, hs4⟩ := hsize e List.mem_cons_self
    have he := hes.valid e List.mem_cons_self
    obtain ⟨t, ht', h0, e0, e1, e6, hz⟩ := h.entry
    rw [h1] at e0
    rw [h2] at e1
    rw [h3] at e6 hz
    have c0 := h0.pos.skipped (c := .eq) rfl (by simp [Cpu.holds, hz, hs0])
    have hl : Loaded swapAsm base m := by
      rw [← h0.mem]
      exact h0.pos.code
    have hzero : (fun x => m (exchange e.buf1 e.buf2 0 x)) = m := by
      funext x
      rw [exchange_other (by unfold InRange; omega) (by unfold InRange; omega)]
    obtain ⟨n, hn⟩ : ∃ n, 0+4*(n+1) = e.size.toNat := by
      have : e.size.toNat ≠ 0 := fun hh => hs0 (BitVec.eq_of_toNat_eq hh)
      exact ⟨e.size.toNat/4-1, by omega⟩
    have h5 : SwapAt base lr 6 (p+12#32) (fun x => m (exchange e.buf1 e.buf2 0 x)) t.next := by
      rw [hzero]
      exact ⟨h0.pos.next rfl h0.pos.code, h0.r4, h0.lr, h0.mem⟩
    obtain ⟨u, hu, h6⟩ := SwapAt.words he hl (hcode e List.mem_cons_self) hn h5
      (by rw [BitVec.add_zero]; exact e0) (by rw [BitVec.add_zero]; exact e1)
      (by rw [← Nat.zero_add (4*(n+1)), hn, BitVec.ofNat_toNat, BitVec.setWidth_eq]; exact e6)
    have hoff (k : ℕ) : p+12#32+BitVec.ofNat 32 k = p+BitVec.ofNat 32 (12+k) := by
      rw [BitVec.ofNat_add, BitVec.add_assoc]
    rw [List.length_cons] at htbl
    have htail : Clear (e :: es) (p+12#32) (12*(es.length+1)) := by
      intro f hf k hk
      rw [hoff]
      exact htbl f hf _ (by omega)
    obtain ⟨v, hv, hpc, hmem⟩ := ih hes.tail
      (fun f hf => hsize f (List.mem_cons_of_mem e hf))
      (fun f hf => hcode f (List.mem_cons_of_mem e hf))
      (fun f hf => htail f (List.mem_cons_of_mem e hf))
      (h4.frame fun k hk => by
        rw [SramSwapBuffers.swap_other (htail e List.mem_cons_self k hk)]) h6
    exact ⟨v, Runs.returns (ht'.trans (.head c0 hu)) hv, hpc, hmem⟩

/-- `swap_all_buffers`, called with the table behind the thunk, permutes the memory. -/
theorem swapAllBuffers_returns {es : List SramSwapBuffers} (hes : Entries es)
    (hsize : ∀ e ∈ es, e.size ≠ 0#32 ∧ e.size.toNat%4 = 0) {s : Cpu}
    (hpos : At swapAsm base 0 s) (hcode : Clear es base 52)
    (htbl : Clear es (base+228#32) (12*(es.length+1)))
    (ht : TableAt s.mem es (base+228#32)) :
    ∃ t, Returns s t ∧ t.pc = s.r 14#4 ∧ t.mem = fun x => s.mem (swapAddr es x) := by
  have c0 := hpos.taken rfl rfl (by decide)
  have h0 : SwapAt base (s.r 14#4) 1 (base+228#32) s.mem
      (s.set 4#4 (s.pc+8#32+220#32)).next := by
    refine ⟨hpos.next rfl hpos.code, ?_, rfl, rfl⟩
    change s.pc+8#32+220#32 = _
    rw [hpos.pc, BitVec.add_assoc, BitVec.add_assoc]
    rfl
  obtain ⟨t, hr, hpc, hmem⟩ := SwapAt.table hes hsize hcode htbl ht h0
  exact ⟨t, Runs.returns (.single c0) hr, hpc, hmem⟩

end Thunk

end ChipTools.Fel
