import Mathlib.Data.List.Basic
import Mathlib.Logic.Function.Basic
import Mathlib.Logic.Relation
import Mathlib.Tactic.Ring

/-! The full-duplex transfer loop `spi_data_transfer` of the SPI remote function,
run against a controller that shifts bytes on its own. The CPU side is one small
step per register or memory access, so every interleaving with the shifts of the
controller is a path of `Step`. -/
namespace ChipTools.Spi

/-- Access width of a transfer loop: the fast loop moves 32-bit words, the
trailing loop moves bytes. -/
inductive Width where
  | word
  | byte
deriving DecidableEq, Repr

def Width.bytes : Width → ℕ
  | .word => 4
  | .byte => 1

/-- Program points of `spi_data_transfer` with the locals that are live there.
`head`, `loop` stand before the status read of a polling loop, `headRx`, `rx` and
`tx` after it, with the two fill levels that were read. -/
inductive Pc where
  | fill (cnt : ℕ)
  | xch
  | head (cnt : ℕ)
  | headRx (cnt rxfifo : ℕ)
  | loop (w : Width)
  | rx (w : Width) (rxfifo txfifo : ℕ)
  | tx (w : Width) (txfifo : ℕ)
  | done
deriving DecidableEq, Repr

/-- `buf` is the caller's buffer by offset, `rxpos` and `txpos` are the offsets of
`rxbuf` and `txbuf`. `wire` and `got` are the bytes the controller has shifted out
and in so far. -/
structure Engine where
  pc : Pc
  buf : ℕ → UInt8
  rxpos : ℕ
  txpos : ℕ
  rxsize : ℕ
  txsize : ℕ
  started : Bool
  txFifo : List UInt8
  rxFifo : List UInt8
  wire : List UInt8
  got : List UInt8

/-- The unaligned head of a buffer, `-(u32)buf & 3`. -/
def headBytes (addr : BitVec 32) : ℕ := (-addr &&& 3#32).toNat

/-- State after the register setup, with the initial fill count computed. -/
def spiDataTransfer (addr : BitVec 32) (buf : ℕ → UInt8) (bufsize : ℕ) : Engine where
  pc := .fill (min (headBytes addr+60) bufsize)
  buf := buf
  rxpos := 0
  txpos := 0
  rxsize := bufsize
  txsize := bufsize
  started := false
  txFifo := []
  rxFifo := []
  wire := []
  got := []

/-- Store consecutive bytes at an offset. -/
def storeBytes (buf : ℕ → UInt8) (pos : ℕ) (bs : List UInt8) : ℕ → UInt8 :=
  fun i => if pos ≤ i then bs.getD (i-pos) (buf i) else buf i

/-- Pop `k` bytes of the RX FIFO into the buffer. A 32-bit access takes the four
oldest bytes, least significant first, which is also their order in memory. -/
def Engine.readRx (s : Engine) (k : ℕ) : Engine :=
  { s with
    buf := storeBytes s.buf s.rxpos (s.rxFifo.take k)
    rxFifo := s.rxFifo.drop k
    rxpos := s.rxpos+k
    rxsize := s.rxsize-k }

/-- Push the next `k` bytes of the buffer into the TX FIFO. -/
def Engine.writeTx (s : Engine) (k : ℕ) : Engine :=
  { s with
    txFifo := s.txFifo ++ (List.range k).map (fun i => s.buf (s.txpos+i))
    txpos := s.txpos+k
    txsize := s.txsize-k }

/-- One CPU step. `none` is the return from the function. -/
def cpuStep (addr : BitVec 32) (s : Engine) : Option Engine :=
  match s.pc with
  | .fill 0 => some { s with pc := .xch }
  | .fill (cnt+1) => some { s.writeTx 1 with pc := .fill cnt }
  | .xch => some { s with started := true, pc := .head (min (headBytes addr) s.rxsize) }
  | .head 0 => some { s with pc := .loop .word }
  | .head (cnt+1) => some { s with pc := .headRx (cnt+1) (s.rxFifo.length%128) }
  | .headRx cnt rxfifo =>
    if 0 < rxfifo then some { s.readRx 1 with pc := .head (cnt-1) }
    else some { s with pc := .head cnt }
  | .loop w =>
    if w.bytes ≤ s.rxsize then
      some { s with pc := .rx w (s.rxFifo.length%128) (s.txFifo.length%128) }
    else match w with
      | .word => some { s with pc := .loop .byte }
      | .byte => some { s with pc := .done }
  | .rx w rxfifo txfifo =>
    if w.bytes ≤ rxfifo then some { s.readRx w.bytes with pc := .tx w txfifo }
    else some { s with pc := .tx w txfifo }
  | .tx w txfifo =>
    if txfifo < 60 ∧ w.bytes ≤ s.txsize then some { s.writeTx w.bytes with pc := .loop w }
    else some { s with pc := .loop w }
  | .done => none

/-- One shift of the controller: a byte leaves the TX FIFO and the byte `r` of the
peer enters the RX FIFO. -/
def shiftStep (r : UInt8) (s : Engine) : Option Engine :=
  match s.started, s.txFifo with
  | true, b :: rest =>
    some { s with txFifo := rest, wire := s.wire ++ [b], rxFifo := s.rxFifo ++ [r],
                  got := s.got ++ [r] }
  | _, _ => none

inductive Step (addr : BitVec 32) (s t : Engine) : Prop where
  | cpu (h : cpuStep addr s = some t)
  | shift (r : UInt8) (h : shiftStep r s = some t)

abbrev Steps (addr : BitVec 32) : Engine → Engine → Prop := Relation.ReflTransGen (Step addr)

/-- Run a given schedule: `none` is a CPU step, `some r` a shift that receives `r`. -/
def schedule (addr : BitVec 32) : List (Option UInt8) → Engine → Option Engine
  | [], s => some s
  | none :: acts, s => (cpuStep addr s).bind (schedule addr acts)
  | some r :: acts, s => (shiftStep r s).bind (schedule addr acts)

theorem steps_of_schedule {addr : BitVec 32} {acts : List (Option UInt8)} {s t : Engine}
    (h : schedule addr acts s = some t) : Steps addr s t := by
  induction acts generalizing s with
  | nil =>
    obtain rfl := Option.some.inj h
    exact .refl
  | cons act acts ih =>
    cases act with
    | none =>
      obtain ⟨u, hu, ht⟩ := Option.bind_eq_some_iff.mp h
      exact .head (.cpu hu) (ih ht)
    | some r =>
      obtain ⟨u, hu, ht⟩ := Option.bind_eq_some_iff.mp h
      exact .head (.shift r hu) (ih ht)

/-- What every program point keeps: the bytes handed to the controller are a
prefix of the original buffer, the bytes received are the stored ones followed by
the RX FIFO, and at most 64 bytes are in flight. -/
structure Base (buf : ℕ → UInt8) (n : ℕ) (s : Engine) : Prop where
  rx : s.rxpos+s.rxsize = n
  tx : s.txpos+s.txsize = n
  sent : s.wire ++ s.txFifo = (List.range s.txpos).map buf
  received : s.got = (List.range s.rxpos).map s.buf ++ s.rxFifo
  balance : s.got.length = s.wire.length
  unsent : ∀ i, s.txpos ≤ i → s.buf i = buf i
  flight : s.txpos-s.rxpos ≤ 64

def LoopInv (w : Width) (flight txsize rxsize : ℕ) : Prop :=
  match w with
  | .word => txsize = 0 ∨ flight%4 = 0
  | .byte => rxsize ≤ 3

/-- The part of the invariant that depends on the program point. In the word loop
the number of bytes in flight is a multiple of four as long as anything is left to
send, which is what keeps a write without a read below 64. -/
def PointInv (addr : BitVec 32) (n : ℕ) (s : Engine) : Prop :=
  match s.pc with
  | .fill cnt => s.txpos+cnt = min (headBytes addr+60) n ∧ s.rxpos = 0
  | .xch => s.txpos = min (headBytes addr+60) n ∧ s.rxpos = 0
  | .head cnt => s.started = true ∧ s.txpos = min (headBytes addr+60) n ∧
      s.rxpos+cnt = min (headBytes addr) n
  | .headRx cnt rxfifo => s.started = true ∧ s.txpos = min (headBytes addr+60) n ∧
      s.rxpos+cnt = min (headBytes addr) n ∧ 0 < cnt ∧ rxfifo ≤ s.rxFifo.length
  | .loop w => s.started = true ∧ LoopInv w (s.txpos-s.rxpos) s.txsize s.rxsize
  | .rx w rxfifo txfifo => s.started = true ∧
      LoopInv w (s.txpos-s.rxpos) s.txsize s.rxsize ∧ w.bytes ≤ s.rxsize ∧
      rxfifo ≤ s.rxFifo.length ∧ rxfifo+txfifo = s.txpos-s.rxpos
  | .tx w txfifo => s.started = true ∧ LoopInv w (s.txpos-s.rxpos) s.txsize s.rxsize ∧
      (txfifo < 60 → w.bytes ≤ s.txsize → s.txpos-s.rxpos+w.bytes ≤ 64)
  | .done => s.rxsize = 0

structure Inv (addr : BitVec 32) (buf : ℕ → UInt8) (n : ℕ) (s : Engine) : Prop where
  base : Base buf n s
  point : PointInv addr n s

theorem headBytes_le (addr : BitVec 32) : headBytes addr ≤ 3 := by
  unfold headBytes
  rw [BitVec.toNat_and]
  exact Nat.and_le_right

namespace Base

variable {buf : ℕ → UInt8} {n : ℕ} {s : Engine}

/-- The bytes in flight are exactly the contents of the two FIFOs. -/
theorem flight_eq (h : Base buf n s) :
    s.rxpos+s.rxFifo.length+s.txFifo.length = s.txpos := by
  have hs := congrArg List.length h.sent
  have hr := congrArg List.length h.received
  have hb := h.balance
  simp only [List.length_append, List.length_map, List.length_range] at hs hr
  omega

theorem rxFifo_le (h : Base buf n s) : s.rxFifo.length ≤ 64 := by
  have := h.flight_eq
  have := h.flight
  omega

theorem txFifo_le (h : Base buf n s) : s.txFifo.length ≤ 64 := by
  have := h.flight_eq
  have := h.flight
  omega

theorem with_pc (h : Base buf n s) (pc : Pc) : Base buf n { s with pc := pc } :=
  ⟨h.rx, h.tx, h.sent, h.received, h.balance, h.unsent, h.flight⟩

theorem readRx (h : Base buf n s) (k : ℕ) (hk : k ≤ s.rxFifo.length) :
    Base buf n (s.readRx k) := by
  have hf := h.flight_eq
  have hrx := h.rx
  have htx := h.tx
  have hfl := h.flight
  refine ⟨?_, h.tx, h.sent, ?_, h.balance, ?_, ?_⟩
  · change s.rxpos+k+(s.rxsize-k) = n
    omega
  · change s.got = (List.range (s.rxpos+k)).map (storeBytes s.buf s.rxpos (s.rxFifo.take k)) ++
      s.rxFifo.drop k
    have hold : (List.range s.rxpos).map (storeBytes s.buf s.rxpos (s.rxFifo.take k)) =
        (List.range s.rxpos).map s.buf := by
      apply List.map_congr_left
      intro i hi
      have hi' := List.mem_range.mp hi
      simp only [storeBytes, show ¬ s.rxpos ≤ i from by omega, ↓reduceIte]
    have hnew : ((List.range k).map (s.rxpos+·)).map
        (storeBytes s.buf s.rxpos (s.rxFifo.take k)) = s.rxFifo.take k := by
      apply List.ext_getElem
      · simp only [List.length_map, List.length_range, List.length_take]
        omega
      · intro i hi hi'
        simp only [List.length_take] at hi'
        simp [storeBytes, List.getD_eq_getElem?_getD, show i < k from by omega,
          List.getElem?_eq_getElem (show i < s.rxFifo.length from by omega)]
    rw [List.range_add, List.map_append, hold, hnew, List.append_assoc, List.take_append_drop]
    exact h.received
  · intro i hi
    change s.txpos ≤ i at hi
    change storeBytes s.buf s.rxpos (s.rxFifo.take k) i = buf i
    rw [← h.unsent i hi]
    unfold storeBytes
    rw [if_pos (by omega), List.getD_eq_getElem?_getD, List.getElem?_eq_none, Option.getD_none]
    rw [List.length_take]
    omega
  · change s.txpos-(s.rxpos+k) ≤ 64
    omega

theorem writeTx (h : Base buf n s) (k : ℕ) (hk : k ≤ s.txsize)
    (hf : s.txpos-s.rxpos+k ≤ 64) : Base buf n (s.writeTx k) := by
  have hfl := h.flight_eq
  have htx := h.tx
  refine ⟨h.rx, ?_, ?_, h.received, h.balance, ?_, ?_⟩
  · change s.txpos+k+(s.txsize-k) = n
    omega
  · change s.wire ++ (s.txFifo ++ (List.range k).map (fun i => s.buf (s.txpos+i))) =
      (List.range (s.txpos+k)).map buf
    rw [← List.append_assoc, h.sent, List.range_add, List.map_append, List.map_map]
    congr 1
    apply List.map_congr_left
    intro i _
    exact h.unsent _ (by omega)
  · intro i hi
    exact h.unsent i (by change s.txpos+k ≤ i at hi; omega)
  · change s.txpos+k-s.rxpos ≤ 64
    omega

end Base

theorem initial_inv (addr : BitVec 32) (buf : ℕ → UInt8) (n : ℕ) :
    Inv addr buf n (spiDataTransfer addr buf n) := by
  refine ⟨⟨?_, ?_, rfl, rfl, rfl, fun _ _ => rfl, ?_⟩, ?_, rfl⟩ <;>
    simp [spiDataTransfer]

theorem shiftStep_inv {addr : BitVec 32} {buf : ℕ → UInt8} {n : ℕ} {s t : Engine} {r : UInt8}
    (h : Inv addr buf n s) (hst : shiftStep r s = some t) : Inv addr buf n t := by
  obtain ⟨hb, hp⟩ := h
  unfold shiftStep at hst
  split at hst
  · rename_i b rest hstart htx
    obtain rfl := Option.some.inj hst
    refine ⟨⟨hb.rx, hb.tx, ?_, ?_, ?_, hb.unsent, hb.flight⟩, ?_⟩
    · have := hb.sent
      simp only [htx] at this
      simpa only [List.append_assoc, List.singleton_append] using this
    · simp only [hb.received, List.append_assoc]
    · simp only [List.length_append, List.length_singleton, hb.balance]
    · -- a shift only lengthens the RX FIFO, so the levels read earlier stay lower bounds
      unfold PointInv at hp ⊢
      cases hpc : s.pc with
      | headRx cnt rxfifo =>
        simp only [hpc] at hp ⊢
        obtain ⟨h1, h2, h3, h4, h5⟩ := hp
        exact ⟨h1, h2, h3, h4, by simp only [List.length_append]; omega⟩
      | rx w rxfifo txfifo =>
        simp only [hpc] at hp ⊢
        obtain ⟨h1, h2, h3, h4, h5⟩ := hp
        exact ⟨h1, h2, h3, by simp only [List.length_append]; omega, h5⟩
      | loop w => simpa only [hpc] using hp
      | tx w txfifo => simpa only [hpc] using hp
      | fill cnt => simpa only [hpc] using hp
      | xch => simpa only [hpc] using hp
      | head cnt => simpa only [hpc] using hp
      | done => simpa only [hpc] using hp
  · exact absurd hst (by simp)

theorem Base.rx_mod {buf : ℕ → UInt8} {n : ℕ} {s : Engine} (h : Base buf n s) :
    s.rxFifo.length%128 = s.rxFifo.length :=
  Nat.mod_eq_of_lt (by have := h.rxFifo_le; omega)

theorem Base.tx_mod {buf : ℕ → UInt8} {n : ℕ} {s : Engine} (h : Base buf n s) :
    s.txFifo.length%128 = s.txFifo.length :=
  Nat.mod_eq_of_lt (by have := h.txFifo_le; omega)

theorem LoopInv.read {w : Width} {flight txsize rxsize : ℕ}
    (hl : LoopInv w flight txsize rxsize) (hk : w.bytes ≤ flight) :
    LoopInv w (flight-w.bytes) txsize (rxsize-w.bytes) := by
  cases w with
  | word =>
    change txsize = 0 ∨ (flight-4)%4 = 0
    change txsize = 0 ∨ flight%4 = 0 at hl
    change 4 ≤ flight at hk
    omega
  | byte =>
    change rxsize-1 ≤ 3
    change rxsize ≤ 3 at hl
    omega

theorem LoopInv.write {w : Width} {flight txsize rxsize : ℕ}
    (hl : LoopInv w flight txsize rxsize) (hk : w.bytes ≤ txsize) :
    LoopInv w (flight+w.bytes) (txsize-w.bytes) rxsize := by
  cases w with
  | word =>
    change txsize-4 = 0 ∨ (flight+4)%4 = 0
    change txsize = 0 ∨ flight%4 = 0 at hl
    change 4 ≤ txsize at hk
    omega
  | byte => exact hl

/-- The room for one more access after a status read that paid for no RX access:
a flight that is a multiple of four and below 64 is at most 60. -/
theorem LoopInv.room {w : Width} {flight txsize rxsize rxfifo txfifo : ℕ}
    (hl : LoopInv w flight txsize rxsize) (hr : rxfifo < w.bytes) (he : rxfifo+txfifo = flight)
    (ht : txfifo < 60) (hk : w.bytes ≤ txsize) : flight+w.bytes ≤ 64 := by
  cases w with
  | word =>
    change rxfifo < 4 at hr
    change 4 ≤ txsize at hk
    change flight+4 ≤ 64
    change txsize = 0 ∨ flight%4 = 0 at hl
    omega
  | byte =>
    change rxfifo < 1 at hr
    change flight+1 ≤ 64
    omega

theorem cpuStep_inv {addr : BitVec 32} {buf : ℕ → UInt8} {n : ℕ} {s t : Engine}
    (h : Inv addr buf n s) (hst : cpuStep addr s = some t) : Inv addr buf n t := by
  obtain ⟨hb, hp⟩ := h
  have hf := hb.flight_eq
  have hrx := hb.rx
  have htx := hb.tx
  have hh := headBytes_le addr
  unfold cpuStep at hst
  unfold PointInv at hp
  split at hst <;> rename_i hpc <;> simp only [hpc] at hp
  · obtain rfl := Option.some.inj hst
    exact ⟨hb.with_pc _, by simpa using hp.1, hp.2⟩
  · obtain rfl := Option.some.inj hst
    refine ⟨(hb.writeTx 1 (by omega) (by omega)).with_pc _, ?_, hp.2⟩
    change s.txpos+1+_ = _
    omega
  · obtain rfl := Option.some.inj hst
    refine ⟨⟨hb.rx, hb.tx, hb.sent, hb.received, hb.balance, hb.unsent, hb.flight⟩, rfl, hp.1, ?_⟩
    change s.rxpos+min (headBytes addr) s.rxsize = _
    omega
  · obtain rfl := Option.some.inj hst
    refine ⟨hb.with_pc _, hp.1, ?_⟩
    change s.txsize = 0 ∨ (s.txpos-s.rxpos)%4 = 0
    omega
  · obtain rfl := Option.some.inj hst
    exact ⟨hb.with_pc _, hp.1, hp.2.1, hp.2.2, by omega, Nat.le_of_eq hb.rx_mod⟩
  · rename_i cnt rxfifo
    split at hst
    · obtain rfl := Option.some.inj hst
      refine ⟨(hb.readRx 1 (by omega)).with_pc _, hp.1, hp.2.1, ?_⟩
      change s.rxpos+1+(cnt-1) = _
      omega
    · obtain rfl := Option.some.inj hst
      exact ⟨hb.with_pc _, hp.1, hp.2.1, hp.2.2.1⟩
  · rename_i w
    split at hst
    · rename_i hw
      obtain rfl := Option.some.inj hst
      refine ⟨hb.with_pc _, hp.1, hp.2, hw, Nat.le_of_eq hb.rx_mod, ?_⟩
      change s.rxFifo.length%128+s.txFifo.length%128 = s.txpos-s.rxpos
      rw [hb.rx_mod, hb.tx_mod]
      omega
    · rename_i hw
      cases w with
      | word =>
        obtain rfl := Option.some.inj hst
        refine ⟨hb.with_pc _, hp.1, ?_⟩
        change s.rxsize ≤ 3
        change ¬ 4 ≤ s.rxsize at hw
        omega
      | byte =>
        obtain rfl := Option.some.inj hst
        refine ⟨hb.with_pc _, ?_⟩
        change s.rxsize = 0
        change ¬ 1 ≤ s.rxsize at hw
        omega
  · rename_i w rxfifo txfifo
    obtain ⟨hs, hl, hw, hr, he⟩ := hp
    split at hst
    · rename_i hr4
      obtain rfl := Option.some.inj hst
      refine ⟨(hb.readRx w.bytes (by omega)).with_pc _, hs, ?_, ?_⟩
      · have := hl.read (show w.bytes ≤ s.txpos-s.rxpos by omega)
        rwa [Nat.sub_sub] at this
      · intro _ _
        change s.txpos-(s.rxpos+w.bytes)+w.bytes ≤ 64
        have := hb.flight
        omega
    · rename_i hr4
      obtain rfl := Option.some.inj hst
      refine ⟨hb.with_pc _, hs, hl, ?_⟩
      intro ht hk
      exact hl.room (by omega) he ht hk
  · rename_i w txfifo
    obtain ⟨hs, hl, hroom⟩ := hp
    split at hst
    · rename_i hc
      obtain rfl := Option.some.inj hst
      refine ⟨(hb.writeTx w.bytes hc.2 (hroom hc.1 hc.2)).with_pc _, hs, ?_⟩
      have := hl.write hc.2
      rwa [← Nat.sub_add_comm (by omega)] at this
    · obtain rfl := Option.some.inj hst
      exact ⟨hb.with_pc _, hs, hl⟩
  · exact absurd hst (by simp)

theorem step_inv {addr : BitVec 32} {buf : ℕ → UInt8} {n : ℕ} {s t : Engine}
    (h : Inv addr buf n s) (hst : Step addr s t) : Inv addr buf n t := by
  cases hst with
  | cpu hc => exact cpuStep_inv h hc
  | shift r hc => exact shiftStep_inv h hc

theorem steps_inv {addr : BitVec 32} {buf : ℕ → UInt8} {n : ℕ} {s t : Engine}
    (h : Inv addr buf n s) (hst : Steps addr s t) : Inv addr buf n t := by
  induction hst with
  | refl => exact h
  | tail _ hlast ih => exact step_inv ih hlast

/-- Phases of the function in the order they are left. -/
def Pc.rank : Pc → ℕ
  | .fill _ => 5
  | .xch => 4
  | .head _ => 3
  | .headRx _ _ => 3
  | .loop .word => 2
  | .rx .word _ _ => 2
  | .tx .word _ => 2
  | .loop .byte => 1
  | .rx .byte _ _ => 1
  | .tx .byte _ => 1
  | .done => 0

/-- Bytes still to move, then phases still to leave. -/
def Engine.weight (s : Engine) : ℕ := 8*(s.rxsize+s.txsize)+s.pc.rank

def Pc.polling : Pc → Bool
  | .headRx _ _ => false
  | .rx _ _ _ => false
  | .tx _ _ => false
  | _ => true

theorem Pc.rank_rx (w : Width) (r t : ℕ) : (Pc.rx w r t).rank = (Pc.loop w).rank := by
  cases w <;> rfl

theorem Pc.rank_tx (w : Width) (t : ℕ) : (Pc.tx w t).rank = (Pc.loop w).rank := by
  cases w <;> rfl

/-- The write half of an iteration, from the status that was read. -/
theorem settle_tx (addr : BitVec 32) (s : Engine) (w : Width) (t : ℕ) (hpc : s.pc = .tx w t) :
    ∃ u, Step addr s u ∧ u.pc = .loop w ∧ u.rxsize = s.rxsize ∧ u.txsize ≤ s.txsize ∧
      (t < 60 → w.bytes ≤ s.txsize → u.txsize = s.txsize-w.bytes) := by
  by_cases hc : t < 60 ∧ w.bytes ≤ s.txsize
  · refine ⟨{ s.writeTx w.bytes with pc := .loop w }, .cpu ?_, rfl, rfl, Nat.sub_le _ _,
      fun _ _ => rfl⟩
    simp only [cpuStep, hpc, hc, and_self, ↓reduceIte]
  · refine ⟨{ s with pc := .loop w }, .cpu ?_, rfl, rfl, Nat.le_refl _,
      fun h1 h2 => absurd ⟨h1, h2⟩ hc⟩
    simp only [cpuStep, hpc, hc, ↓reduceIte]

/-- Both halves of an iteration, from the status that was read. -/
theorem settle_rx (addr : BitVec 32) (s : Engine) (w : Width) (r t : ℕ)
    (hpc : s.pc = .rx w r t) :
    ∃ u, Steps addr s u ∧ u.pc = .loop w ∧ u.rxsize ≤ s.rxsize ∧ u.txsize ≤ s.txsize ∧
      (w.bytes ≤ r → u.rxsize = s.rxsize-w.bytes) ∧
      (t < 60 → w.bytes ≤ s.txsize → u.txsize = s.txsize-w.bytes) := by
  by_cases hc : w.bytes ≤ r
  · have h1 : Step addr s { s.readRx w.bytes with pc := .tx w t } := by
      refine .cpu ?_
      simp only [cpuStep, hpc, hc, ↓reduceIte]
    obtain ⟨u, h2, hu, hrx, htx, hw⟩ :=
      settle_tx addr { s.readRx w.bytes with pc := .tx w t } w t rfl
    refine ⟨u, .head h1 (.single h2), hu, ?_, htx, fun _ => hrx, hw⟩
    rw [hrx]
    exact Nat.sub_le _ _
  · have h1 : Step addr s { s with pc := .tx w t } := by
      refine .cpu ?_
      simp only [cpuStep, hpc, hc, ↓reduceIte]
    obtain ⟨u, h2, hu, hrx, htx, hw⟩ := settle_tx addr { s with pc := .tx w t } w t rfl
    exact ⟨u, .head h1 (.single h2), hu, Nat.le_of_eq hrx, htx, fun h => absurd h hc, hw⟩

/-- Every state can finish the iteration it is in. -/
theorem settle (addr : BitVec 32) (s : Engine) :
    ∃ u, Steps addr s u ∧ u.pc.polling = true ∧ u.weight ≤ s.weight := by
  cases hpc : s.pc with
  | headRx cnt r =>
    by_cases hr : 0 < r
    · refine ⟨{ s.readRx 1 with pc := .head (cnt-1) }, .single (.cpu ?_), rfl, ?_⟩
      · simp only [cpuStep, hpc, hr, ↓reduceIte]
      · simp only [Engine.weight, Engine.readRx, hpc, Pc.rank]
        omega
    · refine ⟨{ s with pc := .head cnt }, .single (.cpu ?_), rfl, ?_⟩
      · simp only [cpuStep, hpc, hr, ↓reduceIte]
      · simp only [Engine.weight, hpc, Pc.rank, Nat.le_refl]
  | rx w r t =>
    obtain ⟨u, hst, hu, hrx, htx, _⟩ := settle_rx addr s w r t hpc
    refine ⟨u, hst, by rw [hu]; rfl, ?_⟩
    simp only [Engine.weight, hu, hpc, Pc.rank_rx]
    omega
  | tx w t =>
    obtain ⟨u, hst, hu, hrx, htx, _⟩ := settle_tx addr s w t hpc
    refine ⟨u, .single hst, by rw [hu]; rfl, ?_⟩
    simp only [Engine.weight, hu, hpc, Pc.rank_tx]
    omega
  | fill cnt => exact ⟨s, .refl, by rw [hpc]; rfl, Nat.le_refl _⟩
  | xch => exact ⟨s, .refl, by rw [hpc]; rfl, Nat.le_refl _⟩
  | head cnt => exact ⟨s, .refl, by rw [hpc]; rfl, Nat.le_refl _⟩
  | loop w => exact ⟨s, .refl, by rw [hpc]; rfl, Nat.le_refl _⟩
  | done => exact ⟨s, .refl, by rw [hpc]; rfl, Nat.le_refl _⟩

/-- A started controller can shift until its TX FIFO is empty. -/
theorem drain (addr : BitVec 32) (s : Engine) (hs : s.started = true) :
    ∃ u, Steps addr s u ∧ u.txFifo = [] ∧ u.pc = s.pc ∧ u.weight = s.weight := by
  generalize hl : s.txFifo.length = k
  induction k generalizing s with
  | zero => exact ⟨s, .refl, List.length_eq_zero_iff.mp hl, rfl, rfl⟩
  | succ k ih =>
    obtain ⟨b, rest, hcons⟩ := List.exists_cons_of_length_eq_add_one hl
    let v : Engine := { s with txFifo := rest, wire := s.wire ++ [b], rxFifo := s.rxFifo ++ [0],
                               got := s.got ++ [0] }
    have hv : Step addr s v := by
      refine .shift 0 ?_
      simp only [shiftStep, hs, hcons, v]
    obtain ⟨u, hst, hu, hpc, hw⟩ := ih v hs (by
      rw [hcons] at hl
      simpa [v] using hl)
    exact ⟨u, .head hv hst, hu, hpc, hw⟩

theorem LoopInv.moves {w : Width} {flight txsize rxsize : ℕ}
    (hl : LoopInv w flight txsize rxsize) (he : flight+txsize = rxsize) (hw : w.bytes ≤ rxsize) :
    w.bytes ≤ flight ∨ w.bytes ≤ txsize := by
  cases w with
  | word =>
    change 4 ≤ rxsize at hw
    change txsize = 0 ∨ flight%4 = 0 at hl
    change 4 ≤ flight ∨ 4 ≤ txsize
    omega
  | byte =>
    change 1 ≤ rxsize at hw
    change 1 ≤ flight ∨ 1 ≤ txsize
    omega

theorem Width.bytes_pos (w : Width) : 0 < w.bytes := by
  cases w <;> decide

/-- A polling point whose controller has drained gets closer to the return. -/
theorem advance {addr : BitVec 32} {buf : ℕ → UInt8} {n : ℕ} {s : Engine}
    (h : Inv addr buf n s) (hp : s.pc.polling = true) (hd : s.pc ≠ .done)
    (hdrained : s.started = true → s.txFifo = []) :
    ∃ u, Steps addr s u ∧ u.weight < s.weight := by
  obtain ⟨hb, hpt⟩ := h
  have hf := hb.flight_eq
  have hrx := hb.rx
  have htx := hb.tx
  unfold PointInv at hpt
  cases hpc : s.pc with
  | headRx cnt r => rw [hpc] at hp; exact absurd hp (by simp [Pc.polling])
  | rx w r t => rw [hpc] at hp; exact absurd hp (by simp [Pc.polling])
  | tx w t => rw [hpc] at hp; exact absurd hp (by simp [Pc.polling])
  | done => exact absurd hpc hd
  | fill cnt =>
    cases cnt with
    | zero =>
      refine ⟨{ s with pc := .xch }, .single (.cpu ?_), ?_⟩
      · simp only [cpuStep, hpc]
      · simp only [Engine.weight, hpc, Pc.rank]
        omega
    | succ cnt =>
      simp only [hpc] at hpt
      refine ⟨{ s.writeTx 1 with pc := .fill cnt }, .single (.cpu ?_), ?_⟩
      · simp only [cpuStep, hpc]
      · simp only [Engine.weight, Engine.writeTx, hpc, Pc.rank]
        omega
  | xch =>
    refine ⟨{ s with started := true, pc := .head (min (headBytes addr) s.rxsize) },
      .single (.cpu ?_), ?_⟩
    · simp only [cpuStep, hpc]
    · simp only [Engine.weight, hpc, Pc.rank]
      omega
  | head cnt =>
    simp only [hpc] at hpt
    cases cnt with
    | zero =>
      refine ⟨{ s with pc := .loop .word }, .single (.cpu ?_), ?_⟩
      · simp only [cpuStep, hpc]
      · simp only [Engine.weight, hpc, Pc.rank]
        omega
    | succ cnt =>
      have hempty := hdrained hpt.1
      rw [hempty, List.length_nil] at hf
      let v : Engine := { s with pc := .headRx (cnt+1) (s.rxFifo.length%128) }
      have h1 : Step addr s v := .cpu (by simp only [cpuStep, hpc, v])
      have hpos : 0 < s.rxFifo.length%128 := by
        rw [hb.rx_mod]
        omega
      have h2 : Step addr v { v.readRx 1 with pc := .head cnt } := by
        refine .cpu ?_
        simp only [cpuStep, v, hpos, ↓reduceIte, Nat.add_sub_cancel]
      refine ⟨_, .head h1 (.single h2), ?_⟩
      simp only [Engine.weight, Engine.readRx, hpc, Pc.rank, v]
      omega
  | loop w =>
    simp only [hpc] at hpt
    have hempty := hdrained hpt.1
    rw [hempty, List.length_nil] at hf
    by_cases hw : w.bytes ≤ s.rxsize
    · let v : Engine := { s with pc := .rx w (s.rxFifo.length%128) (s.txFifo.length%128) }
      have h1 : Step addr s v := .cpu (by simp only [cpuStep, hpc, hw, ↓reduceIte, v])
      obtain ⟨u, hst, hu, hr, ht, hmr, hmt⟩ := settle_rx addr v w _ _ rfl
      refine ⟨u, .head h1 hst, ?_⟩
      have hv : v.rxsize = s.rxsize ∧ v.txsize = s.txsize := ⟨rfl, rfl⟩
      have hmoves := hpt.2.moves (by omega) hw
      rw [hb.rx_mod] at hmr
      rw [hempty] at hmt
      have hbp := w.bytes_pos
      simp only [Engine.weight, hu, hpc]
      rcases hmoves with hm | hm
      · have := hmr (by omega)
        omega
      · have := hmt (by simp) (by omega)
        omega
    · cases w with
      | word =>
        refine ⟨{ s with pc := .loop .byte }, .single (.cpu ?_), ?_⟩
        · simp only [cpuStep, hpc, hw, ↓reduceIte]
        · simp only [Engine.weight, hpc, Pc.rank]
          omega
      | byte =>
        refine ⟨{ s with pc := .done }, .single (.cpu ?_), ?_⟩
        · simp only [cpuStep, hpc, hw, ↓reduceIte]
        · simp only [Engine.weight, hpc, Pc.rank]
          omega

/-- No state that the transfer can be in is stuck: the return stays reachable. -/
theorem steps_to_done {addr : BitVec 32} {buf : ℕ → UInt8} {n : ℕ} {s : Engine}
    (h : Inv addr buf n s) : ∃ u, Steps addr s u ∧ u.pc = .done := by
  induction hw : s.weight using Nat.strongRecOn generalizing s with
  | ind k ih =>
    obtain ⟨v, hsv, hpv, hwv⟩ := settle addr s
    by_cases hd : v.pc = .done
    · exact ⟨v, hsv, hd⟩
    · have hv := steps_inv h hsv
      obtain ⟨x, hvx, hix, hpx, hdx, hwx, hex⟩ : ∃ x, Steps addr v x ∧ Inv addr buf n x ∧
          x.pc.polling = true ∧ x.pc ≠ .done ∧ x.weight = v.weight ∧
          (x.started = true → x.txFifo = []) := by
        by_cases hs : v.started = true
        · obtain ⟨x, hvx, he, hpc, hwx⟩ := drain addr v hs
          exact ⟨x, hvx, steps_inv hv hvx, by rw [hpc]; exact hpv, by rw [hpc]; exact hd, hwx,
            fun _ => he⟩
        · exact ⟨v, .refl, hv, hpv, hd, rfl, fun h => absurd h hs⟩
      obtain ⟨y, hxy, hwy⟩ := advance hix hpx hdx hex
      have hsy := (hsv.trans hvx).trans hxy
      obtain ⟨u, hyu, hu⟩ := ih y.weight (by omega) (steps_inv h hsy) rfl
      exact ⟨u, hsy.trans hyu, hu⟩

/-- At the return everything has been sent and received, and the reply lies in
the buffer. -/
theorem done_complete {addr : BitVec 32} {buf : ℕ → UInt8} {n : ℕ} {s : Engine}
    (h : Inv addr buf n s) (hd : s.pc = .done) :
    s.wire = (List.range n).map buf ∧ s.got = (List.range n).map s.buf := by
  obtain ⟨hb, hp⟩ := h
  unfold PointInv at hp
  simp only [hd] at hp
  have hf := hb.flight_eq
  have hrx := hb.rx
  have htx := hb.tx
  have hrn : s.rxpos = n := by omega
  have htn : s.txpos = n := by omega
  have hre : s.rxFifo = [] := List.length_eq_zero_iff.mp (by omega)
  have hte : s.txFifo = [] := List.length_eq_zero_iff.mp (by omega)
  have hs := hb.sent
  have hr := hb.received
  rw [hte, List.append_nil, htn] at hs
  rw [hre, List.append_nil, hrn] at hr
  exact ⟨hs, hr⟩

/-- The transfer engine over every interleaving of CPU steps and shifts: what has
left is a prefix of the buffer, byte `i` received is stored at offset `i`, no unsent
byte is overwritten, the FIFOs stay within 64 bytes, the return can always still be
reached, and at the return all bytes have been sent and received. -/
theorem spi_data_transfer_interleavings (addr : BitVec 32) (buf : ℕ → UInt8) (bufsize : ℕ)
    (s : Engine) (hs : Steps addr (spiDataTransfer addr buf bufsize) s) :
    s.wire <+: (List.range bufsize).map buf ∧
    s.got.length = s.wire.length ∧
    (∀ i < s.rxpos, s.got[i]? = some (s.buf i)) ∧
    (∀ i, s.txpos ≤ i → s.buf i = buf i) ∧
    s.txFifo.length ≤ 64 ∧ s.rxFifo.length ≤ 64 ∧
    (∃ t, Steps addr s t ∧ t.pc = .done) ∧
    (s.pc = .done → s.wire = (List.range bufsize).map buf ∧
      s.got.length = bufsize ∧ ∀ i < bufsize, s.got[i]? = some (s.buf i)) := by
  have h := steps_inv (initial_inv addr buf bufsize) hs
  have hb := h.base
  refine ⟨?_, hb.balance, ?_, hb.unsent, hb.txFifo_le, hb.rxFifo_le, steps_to_done h, ?_⟩
  · have hpre : s.wire <+: (List.range s.txpos).map buf := ⟨s.txFifo, hb.sent⟩
    have htx : s.txpos ≤ bufsize := by have := hb.tx; omega
    refine hpre.trans (List.IsPrefix.map buf ?_)
    refine ⟨(List.range (bufsize-s.txpos)).map (s.txpos+·), ?_⟩
    rw [← List.range_add, Nat.add_sub_cancel' htx]
  · intro i hi
    rw [hb.received, List.getElem?_append_left (by simpa using hi)]
    simp [hi]
  · intro hd
    obtain ⟨hw, hg⟩ := done_complete h hd
    refine ⟨hw, by simp [hg], ?_⟩
    intro i hi
    rw [hg]
    simp [hi]

/-- The transfer of 67 bytes from two bytes in front of a word on: two bytes at its head, sixteen words
with more to send in the first of them, and one byte at its end, with shifts before, between and
after the accesses. -/
def wordsSchedule : List (Option UInt8) :=
  List.replicate 64 none ++ (List.range 62).map (fun i => some (UInt8.ofNat (i+100))) ++
    List.replicate 50 none ++ (List.range 4).map (fun i => some (UInt8.ofNat (i+162))) ++
    List.replicate 7 none ++ [some 166] ++ List.replicate 4 none

theorem wordsSchedule_runs : (schedule 2#32 wordsSchedule (spiDataTransfer 2#32 UInt8.ofNat 67)).map
    (fun t => (t.pc, (List.range 67).map t.buf)) =
      some (.done, (List.range 67).map fun i => UInt8.ofNat (i+100)) := by
  decide +kernel

theorem spi_data_transfer_words :
    ∃ t, schedule 2#32 wordsSchedule (spiDataTransfer 2#32 UInt8.ofNat 67) = some t ∧
      t.wire = (List.range 67).map UInt8.ofNat ∧ t.got.length = 67 ∧
      (∀ i < 67, t.got[i]? = some (t.buf i)) ∧
      (List.range 67).map t.buf = (List.range 67).map fun i => UInt8.ofNat (i+100) := by
  obtain ⟨t, ht, hrun⟩ := Option.map_eq_some_iff.mp wordsSchedule_runs
  obtain ⟨hd, hv⟩ := Prod.mk.inj hrun
  have h := spi_data_transfer_interleavings 2#32 UInt8.ofNat 67 t (steps_of_schedule ht)
  obtain ⟨hw, hlen, hg⟩ := h.2.2.2.2.2.2.2 hd
  exact ⟨t, ht, hw, hlen, hg, hv⟩

end ChipTools.Spi
