import ChipTools.McastImage

/-! Where `recv_image` puts the blocks of an image. The offsets of the allocation and of the moves
while packets come are taken from the cursor once each. A block that is moved at the end does not
take its offset from the cursor, so a second one goes to the same place. -/
namespace ChipTools.Mcast
open Bytes Loop

section Run

variable {m : Meminfo}

/-- A read that gives a packet, or is too short and skipped. -/
def Read.Good : Read → Prop
  | .error => False
  | .short => True
  | .packet a => a.pkt.data.length = PKT_SIZE

/-- A property of the variables, which holds of nothing before the first packet. -/
def Phase.Sat (P : Recv → Prop) : Phase → Prop
  | .waiting _ => True
  | .receiving s => P s

/-- What the loop keeps: the blocks are in their places. -/
def Phase.Placed (m : Meminfo) : Phase → Prop := Phase.Sat (Mcast.Placed m)

/-- A complete block for every number. -/
def Recv.Complete (m : Meminfo) (s : Recv) : Prop :=
  ∀ b < s.nr_blocks, (s.eraseblocks b).pkt_indices.length = m.pkts_per_block

/-- The last packet of all completes every block. -/
theorem complete_of_total {s : Recv} (h : Placed m s)
    (ht : s.total_pkts = s.nr_blocks*m.pkts_per_block) : s.Complete m := by
  have hle : ∀ b ∈ Finset.range s.nr_blocks,
      (s.eraseblocks b).pkt_indices.length ≤ m.pkts_per_block := by
    intro b hb
    rw [(h.block b (Finset.mem_range.mp hb)).length]
    exact Nat.min_le_right _ _
  have hsum : ∑ b ∈ Finset.range s.nr_blocks, (s.eraseblocks b).pkt_indices.length =
      ∑ _b ∈ Finset.range s.nr_blocks, m.pkts_per_block := by
    rw [← h.total, ht, Finset.sum_const_nat fun _ _ => rfl, Finset.card_range]
  intro b hb
  exact (Finset.sum_eq_sum_iff_of_le hle).mp hsum b (Finset.mem_range.mpr hb)

theorem settle_complete {s s' : Recv} {p : Packet} (h : Placed m s)
    (hset : settle m p s = (true, s')) : s'.Complete m := by
  unfold settle at hset
  dsimp only at hset
  split at hset
  · obtain ⟨h1, rfl⟩ := Prod.mk.injEq .. ▸ hset
    have hc := complete_of_total h (of_decide_eq_true h1)
    intro b hb
    change (Function.update s.eraseblocks p.block_nr _ b).pkt_indices.length = _
    by_cases hbp : b = p.block_nr
    · subst hbp
      rw [Function.update_self]
      exact hc _ hb
    · rw [Function.update_of_ne hbp]
      exact hc b hb
  · cases hset

/-- The loop is left for the last packet only. -/
theorem admit_complete {s s' : Recv} {a : Arrival} (h : Placed m s) (hes : 0 < m.erasesize)
    (hd : a.pkt.data.length = PKT_SIZE) (hrun : admitPkt m s a = .ok (true, s')) :
    s'.Complete m := by
  obtain ⟨-, hb, ⟨hl, -⟩ | ⟨hl, -⟩ | ⟨-, hn, -, s₁, h₁, h₂⟩⟩ := admit_cases hrun
  · cases hl
  · cases hl
  · exact settle_complete (pktAgain_placed h hes hb hn hd h₁) h₂

variable (m) in
/-- The image of the first packet is not too large for a file. -/
def Fits (reads : List Read) : Prop :=
  ∀ a, .packet a ∈ reads → m.file_mode = true → a.pkt.nr_blocks*m.erasesize ≤ 2^32

/-- What holds after the first packet and is kept by each pass holds along a run, and where the loop
is left also what its last pass gives. -/
theorem recvLoop_inv {P Q : Recv → Prop} {reads : List Read} (hgood : ∀ r ∈ reads, r ≠ .error)
    (hstart : ∀ a flash s, .packet a ∈ reads → start m flash a.pkt = .ok s → P s)
    (hstep : ∀ a s last s', .packet a ∈ reads → P s → admitPkt m s a = .ok (last, s') →
      P s' ∧ (last = true → Q s')) {st : Phase} (h : st.Sat P) :
    (∀ st', recvLoop m st reads = .more st' → st'.Sat P) ∧
      ∀ st', recvLoop m st reads = .left st' → ∃ s, st' = .receiving s ∧ P s ∧ Q s := by
  induction reads generalizing st with
  | nil =>
    refine ⟨fun st' hst => ?_, fun st' hst => ?_⟩
    · cases hst
      exact h
    · cases hst
  | cons r reads ih =>
    have ih' := fun st h => @ih (fun r hr => hgood r (List.mem_cons_of_mem _ hr))
      (fun a flash s ha => hstart a flash s (List.mem_cons_of_mem _ ha))
      (fun a s last s' ha => hstep a s last s' (List.mem_cons_of_mem _ ha)) st h
    cases r with
    | error => exact (hgood .error List.mem_cons_self rfl).elim
    | short => exact ih' st h
    | packet a =>
      rw [recvLoop]
      cases hbegin : begin m st a.pkt with
      | error e => exact ⟨fun _ hst => (by cases hst), fun _ hst => (by cases hst)⟩
      | ok s =>
        have hs : P s := by
          cases st with
          | waiting flash => exact hstart a flash s List.mem_cons_self hbegin
          | receiving t =>
            obtain rfl := Except.ok.inj hbegin
            exact h
        dsimp only
        cases hadmit : admitPkt m s a with
        | error e => exact ⟨fun _ hst => (by cases hst), fun _ hst => (by cases hst)⟩
        | ok ls =>
          obtain ⟨last, s'⟩ := ls
          obtain ⟨hs', hlast⟩ := hstep a s last s' List.mem_cons_self hs hadmit
          cases last with
          | false => exact ih' (.receiving s') hs'
          | true =>
            refine ⟨fun _ hst => (by cases hst), fun st' hst => ?_⟩
            cases hst
            exact ⟨s', rfl, hs', hlast rfl⟩

/-- A whole run of the loop: every state is in place, and it is left with complete blocks. -/
theorem recvLoop_placed {reads : List Read} (hes : 0 < m.erasesize)
    (hgood : ∀ r ∈ reads, r.Good) (hfits : Fits m reads) {st : Phase} (h : st.Placed m) :
    (∀ st', recvLoop m st reads = .more st' → st'.Placed m) ∧
      ∀ st', recvLoop m st reads = .left st' → ∃ s, st' = .receiving s ∧ Placed m s ∧
        s.Complete m := by
  apply recvLoop_inv (P := Mcast.Placed m) (Q := Recv.Complete m)
  · rintro r hr rfl
    exact hgood _ hr
  · intro a flash s ha hrun
    exact (start_placed hes (hfits a ha) hrun).1
  · intro a s last s' ha hs hrun
    have hd : a.pkt.data.length = PKT_SIZE := hgood _ ha
    refine ⟨admit_placed hs hes hd hrun, ?_⟩
    rintro rfl
    exact admit_complete hs hes hd hrun
  · exact h

end Run

section Start

variable {m : Meminfo} {eb : Eraseblock}

theorem pkts_per_block_mul_le (m : Meminfo) : m.pkts_per_block*PKT_SIZE ≤ m.erasesize+(PKT_SIZE-1) := by
  have := Nat.div_mul_le_self (m.erasesize+PKT_SIZE-1) PKT_SIZE
  change (m.erasesize+PKT_SIZE-1)/PKT_SIZE*PKT_SIZE ≤ _
  exact this.trans (by unfold PKT_SIZE; omega)

/-- Where the data of a complete block goes, if `MEMERASE` takes the offset at all: to the place
of its packets. -/
theorem startOffset_spec (h : BlockPlaced m eb) (hf : m.file_mode = false) (hes : 0 < m.erasesize)
    (hc : eb.pkt_indices.length = m.pkts_per_block) (hmod : startOffset m eb%m.erasesize = 0)
    (hlt : startOffset m eb < m.size) :
    startOffset m eb+m.erasesize = eb.home+eb.flushed ∧ eb.flushed ≤ m.erasesize ∧
      (eb.flushed ≠ 0 → startOffset m eb = eb.home) := by
  have hsize := m.size_lt
  have hoff := h.offset_eq hf
  have hhome := h.home_lt
  have htop : eb.home+eb.flushed < 2^32 := by
    by_cases h0 : eb.flushed = 0
    · omega
    · have := h.top hf h0
      omega
  have hroom : startOffset m eb+m.erasesize ≤ m.size := by
    apply aligned_le (n := m.erasesize) _ m.size_mod (by omega)
    rw [Nat.add_mod_right, hmod]
  have hstart : startOffset m eb+m.erasesize = eb.home+eb.flushed := by
    unfold startOffset at hroom ⊢
    rw [hoff] at hroom ⊢
    omega
  have hdvd : m.erasesize ∣ eb.flushed := by
    have h1 : m.erasesize ∣ eb.home+eb.flushed := by
      rw [← hstart]
      exact Nat.dvd_add (Nat.dvd_of_mod_eq_zero hmod) (Nat.dvd_refl _)
    exact (Nat.dvd_add_right (Nat.dvd_of_mod_eq_zero h.home_mod)).mp h1
  have hle : eb.flushed ≤ m.erasesize := by
    by_contra hgt
    have h2 : m.erasesize+m.erasesize ≤ eb.flushed := by
      apply aligned_le (n := m.erasesize) (by simp) (Nat.mod_eq_zero_of_dvd hdvd)
      omega
    have h3 := pkts_per_block_mul_le m
    have h4 : eb.flushed ≤ m.pkts_per_block*PKT_SIZE := by
      unfold Eraseblock.flushed
      rw [hc]
      exact Nat.div_mul_le_self _ _
    have h5 : m.pkts_per_block*PKT_SIZE < WBUF_SIZE := by
      have : m.pkts_per_block ≤ 1 := by
        unfold PKT_SIZE at *
        omega
      have := Nat.mul_le_mul_right PKT_SIZE this
      unfold PKT_SIZE WBUF_SIZE at *
      omega
    have h6 : eb.flushed = 0 := by
      unfold Eraseblock.flushed
      rw [hc, Nat.div_eq_of_lt h5, Nat.zero_mul]
    omega
  refine ⟨hstart, hle, fun h0 => ?_⟩
  have := Nat.le_of_dvd (by omega) hdvd
  omega

end Start

section Final

variable {m : Meminfo} {b : ℕ} {data : List Byte}

/-- The loop over bad blocks ends with one that is not bad. -/
theorem skipBad_good (m : Meminfo) (hes : 0 < m.erasesize) {fuel offset : ℕ}
    (h : m.size ≤ offset+fuel) : m.isBad (m.skipBad fuel offset) = false := by
  induction fuel generalizing offset with
  | zero =>
    rw [Meminfo.skipBad, Meminfo.isBad, decide_eq_false (by omega), Bool.false_and]
  | succ fuel ih =>
    rw [Meminfo.skipBad]
    split
    · exact ih (by omega)
    next hb => exact Bool.eq_false_of_not_eq_true hb

/-- The cursor is not moved on: at a good block it gives that block again. -/
theorem nextGood_again (hes : 0 < m.erasesize) {c c' : ℕ} (h : m.nextGood c = .ok c') :
    m.nextGood c' = .ok c' := by
  obtain ⟨-, hlt, -, heq⟩ := nextGood_ok h
  have hgood : m.isBad c' = false := by
    rw [heq]
    exact skipBad_good m hes (by omega)
  have hskip : m.skipBad m.size c' = c' := by
    obtain ⟨k, hk⟩ : ∃ k, m.size = k+1 := ⟨m.size-1, by omega⟩
    rw [hk, Meminfo.skipBad, hgood]
    rfl
  unfold Meminfo.nextGood
  rw [if_neg (by omega)]
  dsimp only
  rw [hskip, if_neg (by omega)]

theorem withOffset_withOffset (eb : Eraseblock) (o p : ℕ) :
    (eb.withOffset o).withOffset p = eb.withOffset p := rfl

theorem stores_inside {offset len : ℕ} (hf : m.file_mode = false) (h : offset+len ≤ m.size)
    (written : ℕ) : m.stores offset len written = min written len := by
  unfold Meminfo.stores
  rw [hf]
  simp only [Bool.false_eq_true, if_false]
  omega

/-- What the tries to write a block do: the first one succeeds in place, or the block ends at the
good block of the cursor. -/
theorem writeAgain_spec (hf : m.file_mode = false) (hes : 0 < m.erasesize) {tries : List Try}
    {s s' : Final} (hrun : writeAgain m b data tries s = .ok s')
    (hin : (s.eraseblocks b).flash_offset+m.erasesize ≤ m.size)
    (hcur : s.mtdoffset%m.erasesize = 0) :
    ∃ t ts, tries = t :: ts ∧
      ((m.erasesize ≤ t.written ∧ s'.eraseblocks = s.eraseblocks ∧ s'.mtdoffset = s.mtdoffset ∧
        s'.log = s.log ++ [(b, (s.eraseblocks b).flash_offset)]) ∨
      (t.written < m.erasesize ∧ ∃ next extra, m.nextGood s.mtdoffset = .ok next ∧
        s'.eraseblocks =
          Function.update s.eraseblocks b ((s.eraseblocks b).withOffset next) ∧
        s'.mtdoffset = next ∧ s'.log = s.log ++ extra ∧
        ∀ e ∈ extra, e = (b, (s.eraseblocks b).flash_offset) ∨ e = (b, next))) := by
  induction tries generalizing s with
  | nil => cases hrun
  | cons t ts ih =>
    refine ⟨t, ts, rfl, ?_⟩
    rw [writeAgain] at hrun
    dsimp only at hrun
    rw [stores_inside hf hin, hf] at hrun
    split at hrun
    next hshort =>
      have ht : t.written < m.erasesize := by omega
      simp only [Bool.false_eq_true, if_false] at hrun
      cases herase : m.memErase t.erase (s.touch b (s.eraseblocks b).flash_offset
          (copyTo s.flash (s.eraseblocks b).flash_offset
            (data.take (min t.written m.erasesize)))).flash (s.eraseblocks b).flash_offset with
      | error e => rw [herase] at hrun; cases hrun
      | ok flash =>
        rw [herase] at hrun
        dsimp only at hrun
        cases hnext : m.nextGood (s.touch b (s.eraseblocks b).flash_offset
          (copyTo s.flash (s.eraseblocks b).flash_offset
            (data.take (min t.written m.erasesize)))).mtdoffset with
        | error e => rw [hnext] at hrun; cases hrun
        | ok next =>
          rw [hnext] at hrun
          dsimp only at hrun
          have hgood : m.nextGood s.mtdoffset = .ok next := hnext
          obtain ⟨h1, h2, h3, -⟩ := nextGood_ok hgood
          have hmod : next%m.erasesize = 0 := h3.trans hcur
          have hsize := m.size_lt
          have hnext' : next%2^32 = next := Nat.mod_eq_of_lt (by omega)
          have hfit : next+m.erasesize ≤ m.size := by
            apply aligned_le (n := m.erasesize) _ m.size_mod (by omega)
            rw [Nat.add_mod_right, hmod]
          refine .inr ⟨ht, next, ?_⟩
          -- the state of the next try: the block is at the cursor
          generalize hs₁ : ({ ((s.touch b _ _).touch b _ flash).moveTo b next with
            mtdoffset := next } : Final) = s₁ at hrun
          have hblk : s₁.eraseblocks =
              Function.update s.eraseblocks b ((s.eraseblocks b).withOffset next) := by
            rw [← hs₁]
            rfl
          have hcur₁ : s₁.mtdoffset = next := by rw [← hs₁]
          have hlog : s₁.log = s.log ++ [(b, (s.eraseblocks b).flash_offset)] ++
              [(b, (s.eraseblocks b).flash_offset)] := by
            rw [← hs₁]
            rfl
          have hoff₁ : (s₁.eraseblocks b).flash_offset = next := by
            rw [hblk, Function.update_self]
            exact hnext'
          obtain ⟨t', ts', -, ⟨-, h4, h5, h6⟩ | ⟨-, next₂, extra, h4, h5, h6, h7, h8⟩⟩ :=
            ih hrun (by rw [hoff₁]; exact hfit) (by rw [hcur₁]; exact hmod)
          · refine ⟨[(b, (s.eraseblocks b).flash_offset), (b, (s.eraseblocks b).flash_offset),
              (b, next)], hgood, h4.trans hblk, h5.trans hcur₁, ?_, by simp⟩
            rw [h6, hlog, hoff₁, List.append_assoc, List.append_assoc]
            rfl
          · rw [hcur₁, nextGood_again hes hgood] at h4
            obtain rfl := Except.ok.inj h4
            refine ⟨(b, (s.eraseblocks b).flash_offset) :: (b, (s.eraseblocks b).flash_offset) ::
              extra, hgood, ?_, h6, ?_, ?_⟩
            · rw [h5, hblk, Function.update_self, withOffset_withOffset, Function.update_idem]
            · rw [h7, hlog, List.append_assoc, List.append_assoc]
              rfl
            · intro e he
              rw [hoff₁] at h8
              simp only [List.mem_cons] at he
              rcases he with he | he | he
              · exact .inl he
              · exact .inl he
              · rcases h8 e he with he | he <;> exact .inr he
    next hall =>
      refine .inl ⟨by omega, ?_⟩
      rw [← Except.ok.inj hrun]
      exact ⟨rfl, rfl, rfl⟩

end Final

section Finish

variable {m : Meminfo} {fec_decode : List ℕ → List Byte → Option (List Byte)} {envs : ℕ → BlockEnv}

variable (m) in
/-- The first write of a decoded block is short. -/
def BlockEnv.shortFirst (env : BlockEnv) : Bool :=
  env.tries.head?.any fun t => t.written < m.erasesize

theorem startOffset_lt (eb : Eraseblock) : startOffset m eb < 2^32 := Nat.mod_lt _ (by decide)

/-- What one block of the second part does to the places. -/
theorem finishBlock_spec (hf : m.file_mode = false) (hes : 0 < m.erasesize) {b : ℕ} {s s' : Final}
    (hrun : finishBlock m fec_decode envs b s = .ok s') (hcur : s.mtdoffset%m.erasesize = 0) :
    startOffset m (s.eraseblocks b)%m.erasesize = 0 ∧ startOffset m (s.eraseblocks b) < m.size ∧
    ∃ extra, s'.log = s.log ++ extra ∧
      (((envs b).shortFirst m = false ∧ s'.mtdoffset = s.mtdoffset ∧
        s'.eraseblocks = Function.update s.eraseblocks b
          ((s.eraseblocks b).withOffset (startOffset m (s.eraseblocks b))) ∧
        ∀ e ∈ extra, e = (b, startOffset m (s.eraseblocks b))) ∨
      ((envs b).shortFirst m = true ∧ m.nextGood s.mtdoffset = .ok s'.mtdoffset ∧
        s'.eraseblocks = Function.update s.eraseblocks b
          ((s.eraseblocks b).withOffset s'.mtdoffset) ∧
        ∀ e ∈ extra, e = (b, startOffset m (s.eraseblocks b)) ∨ e = (b, s'.mtdoffset))) := by
  have hlt := startOffset_lt (m := m) (s.eraseblocks b)
  unfold finishBlock at hrun
  dsimp only at hrun
  generalize hoff : startOffset m (s.eraseblocks b) = offset at *
  split at hrun
  · cases hrun
  split at hrun
  · cases hrun
  next decode_buf hdec =>
  split at hrun
  · cases hrun
  rw [hf] at hrun
  simp only [Bool.false_eq_true, if_false] at hrun
  split at hrun
  · cases hrun
  next flash herase =>
  obtain ⟨hmod, hsz, -⟩ := memErase_ok herase
  have hfit : offset+m.erasesize ≤ m.size := by
    apply aligned_le (n := m.erasesize) _ m.size_mod (by omega)
    rw [Nat.add_mod_right, hmod]
  have hblk : ((s.moveTo b offset).touch b offset flash).eraseblocks =
      Function.update s.eraseblocks b ((s.eraseblocks b).withOffset offset) := rfl
  have hflash : (((s.moveTo b offset).touch b offset flash).eraseblocks b).flash_offset =
      offset := by
    rw [hblk, Function.update_self]
    exact Nat.mod_eq_of_lt hlt
  have hlog : ((s.moveTo b offset).touch b offset flash).log = s.log ++ [(b, offset)] := rfl
  refine ⟨hmod, hsz, ?_⟩
  obtain ⟨t, ts, htries, ⟨h1, h2, h3, h4⟩ | ⟨h1, next, extra, h2, h3, h4, h5, h6⟩⟩ :=
    writeAgain_spec hf hes hrun (by rw [hflash]; exact hfit) hcur
  · refine ⟨[(b, offset), (b, offset)], ?_, .inl ⟨?_, h3, h2.trans hblk, by simp⟩⟩
    · rw [h4, hlog, hflash, List.append_assoc]
      rfl
    · rw [BlockEnv.shortFirst, htries]
      simpa using h1
  · rw [hflash] at h6
    refine ⟨(b, offset) :: extra, ?_, .inr ⟨?_, h4 ▸ h2, ?_, ?_⟩⟩
    · rw [h5, hlog, List.append_assoc]
      rfl
    · rw [BlockEnv.shortFirst, htries]
      simpa using h1
    · rw [h3, hblk, Function.update_self, withOffset_withOffset, Function.update_idem, h4]
    · intro e he
      rw [h4]
      rcases List.mem_cons.mp he with rfl | he
      · exact .inl rfl
      · exact h6 e he

/-- The places of the blocks that are done. -/
structure Finished (m : Meminfo) (envs : ℕ → BlockEnv) (s : Recv) (i : ℕ) (f : Final) : Prop where
  rest : ∀ b, i ≤ b → f.eraseblocks b = s.eraseblocks b
  cursor : f.mtdoffset = s.mtdoffset ∨ m.nextGood s.mtdoffset = .ok f.mtdoffset
  start : ∀ b < i, startOffset m (s.eraseblocks b)%m.erasesize = 0 ∧
    startOffset m (s.eraseblocks b) < m.size
  kept : ∀ b < i, (envs b).shortFirst m = false →
    (f.eraseblocks b).flash_offset = startOffset m (s.eraseblocks b)
  moved : ∀ b < i, (envs b).shortFirst m = true →
    m.nextGood s.mtdoffset = .ok (f.eraseblocks b).flash_offset
  log : ∀ e ∈ f.log, e.1 < i ∧ (e.2 = startOffset m (s.eraseblocks e.1) ∨
    ((envs e.1).shortFirst m = true ∧ m.nextGood s.mtdoffset = .ok e.2))

theorem finishBlock_finished (hf : m.file_mode = false) (hes : 0 < m.erasesize) {s : Recv}
    (hcur : s.mtdoffset%m.erasesize = 0) {i : ℕ} {f f' : Final} (h : Finished m envs s i f)
    (hrun : finishBlock m fec_decode envs i f = .ok f') : Finished m envs s (i+1) f' := by
  have hmod : f.mtdoffset%m.erasesize = 0 := by
    rcases h.cursor with h1 | h1
    · rw [h1, hcur]
    · rw [(nextGood_ok h1).2.2.1, hcur]
  have hagain {next : ℕ} (hn : m.nextGood f.mtdoffset = .ok next) :
      m.nextGood s.mtdoffset = .ok next := by
    rcases h.cursor with h1 | h1
    · rwa [← h1]
    · rw [nextGood_again hes h1] at hn
      rw [h1, Except.ok.inj hn]
  obtain ⟨h1, h2, extra, hlog, hcase⟩ := finishBlock_spec hf hes hrun hmod
  rw [h.rest i le_rfl] at h1 h2 hcase
  -- in both cases the block is at some offset, and the others are where they were
  obtain ⟨off, hblk⟩ : ∃ off, f'.eraseblocks =
      Function.update f.eraseblocks i ((s.eraseblocks i).withOffset off) := by
    rcases hcase with ⟨-, -, hb, -⟩ | ⟨-, -, hb, -⟩
    · exact ⟨_, hb⟩
    · exact ⟨_, hb⟩
  have hother {b : ℕ} (hb : b ≠ i) : f'.eraseblocks b = f.eraseblocks b := by
    rw [hblk, Function.update_of_ne hb]
  have hwith {o : ℕ} (ho : f'.eraseblocks =
      Function.update f.eraseblocks i ((s.eraseblocks i).withOffset o)) (hlt : o < 2^32) :
      (f'.eraseblocks i).flash_offset = o := by
    rw [ho, Function.update_self]
    exact Nat.mod_eq_of_lt hlt
  refine ⟨fun b hb => ?_, ?_, fun b hb => ?_, fun b hb hs => ?_, fun b hb hs => ?_, fun e he => ?_⟩
  · rw [hother (by omega), h.rest b (by omega)]
  · rcases hcase with ⟨-, hm, -, -⟩ | ⟨-, hn, -, -⟩
    · rw [hm]
      exact h.cursor
    · exact .inr (hagain hn)
  · by_cases hbi : b = i
    · exact hbi ▸ ⟨h1, h2⟩
    · exact h.start b (by omega)
  · by_cases hbi : b = i
    · subst hbi
      rcases hcase with ⟨-, -, hb', -⟩ | ⟨hs', -⟩
      · exact hwith hb' (startOffset_lt _)
      · rw [hs] at hs'
        cases hs'
    · rw [hother hbi]
      exact h.kept b (by omega) hs
  · by_cases hbi : b = i
    · subst hbi
      rcases hcase with ⟨hs', -⟩ | ⟨-, hn, hb', -⟩
      · rw [hs] at hs'
        cases hs'
      · have hsize := m.size_lt
        obtain ⟨-, hlt, -⟩ := nextGood_ok hn
        rw [hwith hb' (by omega)]
        exact hagain hn
    · rw [hother hbi]
      exact h.moved b (by omega) hs
  · rw [hlog] at he
    rcases List.mem_append.mp he with he | he
    · obtain ⟨hlt, hplace⟩ := h.log e he
      exact ⟨by omega, hplace⟩
    · rcases hcase with ⟨-, -, -, hex⟩ | ⟨hs, hn, -, hex⟩
      · rw [hex e he]
        exact ⟨Nat.lt_succ_self i, .inl rfl⟩
      · rcases hex e he with rfl | rfl
        · exact ⟨Nat.lt_succ_self i, .inl rfl⟩
        · exact ⟨Nat.lt_succ_self i, .inr ⟨hs, hagain hn⟩⟩

/-- All blocks of a run that comes to its end. -/
theorem finish_finished (hf : m.file_mode = false) (hes : 0 < m.erasesize) {s : Recv}
    (hcur : s.mtdoffset%m.erasesize = 0) {f : Final}
    (hrun : finish m fec_decode envs s = .ok f) : Finished m envs s s.nr_blocks f := by
  have h0 : Finished m envs s 0 ⟨s.eraseblocks, s.mtdoffset, s.flash, []⟩ :=
    ⟨fun _ _ => rfl, .inl rfl, fun b hb => absurd hb (Nat.not_lt_zero b),
      fun b hb => absurd hb (Nat.not_lt_zero b), fun b hb => absurd hb (Nat.not_lt_zero b),
      fun e he => absurd he List.not_mem_nil⟩
  have := forRange_inv (P := Finished m envs s) (fun j t t' _ _ ht hstep =>
    finishBlock_finished hf hes hcur ht hstep) h0 hrun
  rwa [Nat.zero_add] at this

end Finish

section Placement

variable {m : Meminfo}

/-- The erase of a block that is moved while packets come is not at the place of another. -/
def StagingApart (m : Meminfo) (s : Recv) : Prop :=
  ∀ b < s.nr_blocks, ∀ c < s.nr_blocks, b ≠ c →
    (s.eraseblocks b).nr_pkts < m.pkts_per_block →
    WBUF_SIZE ≤ (s.eraseblocks b).wbuf.length+PKT_SIZE →
    eraseStart m (s.eraseblocks b)%m.erasesize = 0 →
    eraseStart m (s.eraseblocks b) ≠ (s.eraseblocks c).home

/-- The image blocks are in eraseblocks of their own at the end, and no erase or write of one of
them was in the place of another: of its data if it was done before, of its packets if it was not. -/
structure FinalApart (s : Recv) (f : Final) : Prop where
  apart : ∀ b < s.nr_blocks, ∀ c < s.nr_blocks, b ≠ c →
    (f.eraseblocks b).flash_offset ≠ (f.eraseblocks c).flash_offset
  data : ∀ e ∈ f.log, ∀ c < e.1, e.2 ≠ (f.eraseblocks c).flash_offset
  packets : ∀ e ∈ f.log, ∀ c < s.nr_blocks, e.1 < c → (s.eraseblocks c).flushed ≠ 0 →
    e.2 ≠ (s.eraseblocks c).home

/-- The erase of a failed write is at the place of its own block, where `MEMERASE` takes it. -/
theorem eraseStart_home {eb : Eraseblock} (h : BlockPlaced m eb) (hf : m.file_mode = false)
    (hn : eb.nr_pkts < m.pkts_per_block) (hfull : WBUF_SIZE ≤ eb.wbuf.length+PKT_SIZE)
    (hmod : eraseStart m eb%m.erasesize = 0) (hes : 0 < m.erasesize) :
    eraseStart m eb = eb.home := by
  have hoff := h.offset_eq hf
  have hlen := h.length_lt hn
  have hlt : eb.flushed < m.erasesize := by
    have h1 : eb.flushed+eb.wbuf.length = eb.pkt_indices.length*PKT_SIZE := by
      rw [h.wbuf]
      exact Nat.div_add_mod' _ _
    have h2 : (eb.pkt_indices.length+1)*PKT_SIZE ≤ m.pkts_per_block*PKT_SIZE :=
      Nat.mul_le_mul_right _ (by omega)
    have h3 := pkts_per_block_mul_le m
    rw [Nat.succ_mul] at h2
    unfold PKT_SIZE WBUF_SIZE at *
    omega
  have hmask : eb.flash_offset &&& (m.erasesize-1) ≤ m.erasesize-1 := Nat.and_le_right
  have hle : eb.flash_offset &&& (m.erasesize-1) ≤ eb.flash_offset := Nat.and_le_left
  apply Nat.le_antisymm
  · apply aligned_le hmod h.home_mod
    unfold eraseStart
    omega
  · apply aligned_le h.home_mod hmod
    unfold eraseStart
    omega

theorem staging_apart {s : Recv} (h : Placed m s) (hf : m.file_mode = false)
    (hes : 0 < m.erasesize) : StagingApart m s := by
  intro b hb c hc hne hn hfull hmod
  rw [eraseStart_home (h.block b hb) hf hn hfull hmod hes]
  exact h.apart b hb c hc hne

/-- The places at the end are apart when only one block was moved. -/
theorem finalApart_of_one {envs : ℕ → BlockEnv} {s : Recv} {f : Final} (hp : Placed m s)
    (hc : s.Complete m) (hf : m.file_mode = false) (hes : 0 < m.erasesize)
    (h : Finished m envs s s.nr_blocks f)
    (hone : ∀ b < s.nr_blocks, ∀ c < s.nr_blocks, (envs b).shortFirst m = true →
      (envs c).shortFirst m = true → b = c) : FinalApart s f := by
  have hstart {b : ℕ} (hb : b < s.nr_blocks) := startOffset_spec (hp.block b hb) hf hes (hc b hb)
    (h.start b hb).1 (h.start b hb).2
  have hflushed {b : ℕ} (hb : b < s.nr_blocks) : (s.eraseblocks b).flushed =
      m.pkts_per_block*PKT_SIZE/WBUF_SIZE*WBUF_SIZE := by
    unfold Eraseblock.flushed
    rw [hc b hb]
  have hne {b c : ℕ} (hb : b < s.nr_blocks) (hcn : c < s.nr_blocks) (hbc : b ≠ c) :
      startOffset m (s.eraseblocks b) ≠ startOffset m (s.eraseblocks c) := by
    intro heq
    have h1 := (hstart hb).1
    have h2 := (hstart hcn).1
    rw [hflushed hb] at h1
    rw [hflushed hcn] at h2
    exact hp.apart b hb c hcn hbc (by omega)
  have hmoved {c next : ℕ} (hcn : c < s.nr_blocks) (hn : m.nextGood s.mtdoffset = .ok next) :
      next ≠ startOffset m (s.eraseblocks c) ∧ next ≠ (s.eraseblocks c).home := by
    have h1 := (hstart hcn).1
    have h2 := (hstart hcn).2.1
    have h3 := hp.below c hcn
    have h4 := (nextGood_ok hn).1
    omega
  -- the place of a block at the end
  have hplace {b : ℕ} (hb : b < s.nr_blocks) :
      ((envs b).shortFirst m = false ∧
        (f.eraseblocks b).flash_offset = startOffset m (s.eraseblocks b)) ∨
      ((envs b).shortFirst m = true ∧
        m.nextGood s.mtdoffset = .ok (f.eraseblocks b).flash_offset) := by
    cases hs : (envs b).shortFirst m with
    | false => exact .inl ⟨rfl, h.kept b hb hs⟩
    | true => exact .inr ⟨rfl, h.moved b hb hs⟩
  -- an eraseblock that one block has written or erased is not that of another one at the end
  have hforeign {b c o : ℕ} (hb : b < s.nr_blocks) (hcn : c < s.nr_blocks) (hbc : b ≠ c)
      (ho : o = startOffset m (s.eraseblocks b) ∨
        ((envs b).shortFirst m = true ∧ m.nextGood s.mtdoffset = .ok o)) :
      o ≠ (f.eraseblocks c).flash_offset := by
    rcases ho with rfl | ⟨hs, ho⟩
    · rcases hplace hcn with ⟨-, hpl⟩ | ⟨-, hpl⟩
      · rw [hpl]
        exact hne hb hcn hbc
      · exact (hmoved hb hpl).1.symm
    · rcases hplace hcn with ⟨-, hpl⟩ | ⟨hs', -⟩
      · rw [hpl]
        exact (hmoved hcn ho).1
      · exact absurd (hone b hb c hcn hs hs') hbc
  refine ⟨fun b hb c hcn hbc => ?_, fun e he c hce => ?_, fun e he c hcn hce h0 => ?_⟩
  · apply hforeign hb hcn hbc
    rcases hplace hb with ⟨-, hpl⟩ | hpl
    · exact .inl hpl
    · exact .inr hpl
  · obtain ⟨hlt, ho⟩ := h.log e he
    exact hforeign hlt (by omega) (by omega) ho
  · obtain ⟨hlt, ho | ⟨-, ho⟩⟩ := h.log e he
    · rw [ho, ← (hstart hcn).2.2 h0]
      exact hne hlt hcn (by omega)
    · exact (hmoved hcn ho).2

/-- In a run of `recv_image` on flash that comes to its end, the image blocks are kept apart
exactly when no more than one of them had to be moved at the end. -/
theorem recv_placement_iff (m : Meminfo) (hf : m.file_mode = false) (hes : 0 < m.erasesize)
    (flash : ℕ → Byte) (reads : List Read) (hgood : ∀ r ∈ reads, r.Good) (s : Recv)
    (hleft : recvLoop m (.waiting flash) reads = .left (.receiving s))
    (fec_decode : List ℕ → List Byte → Option (List Byte)) (envs : ℕ → BlockEnv) (f : Final)
    (hfin : finish m fec_decode envs s = .ok f) :
    ((∀ n s', recvLoop m (.waiting flash) (reads.take n) = .more (.receiving s') →
        StagingApart m s') ∧ FinalApart s f) ↔
      ∀ b < s.nr_blocks, ∀ c < s.nr_blocks, (envs b).shortFirst m = true →
        (envs c).shortFirst m = true → b = c := by
  have hfits : ∀ reads, Fits m reads := fun _ _ _ hfm => by rw [hf] at hfm; cases hfm
  obtain ⟨s₁, hs₁, hp, hc⟩ := (@recvLoop_placed _ _ hes hgood (hfits _) (.waiting flash)
    trivial).2 _ hleft
  obtain rfl := Phase.receiving.inj hs₁
  have hdone := finish_finished hf hes hp.cursor_mod hfin
  constructor
  · rintro ⟨-, hapart⟩ b hb c hcn hsb hsc
    by_contra hbc
    have h1 := hdone.moved b hb hsb
    have h2 := hdone.moved c hcn hsc
    rw [h1] at h2
    exact hapart.apart b hb c hcn hbc (Except.ok.inj h2)
  · intro hone
    refine ⟨fun n s' hrun => ?_, finalApart_of_one hp hc hf hes hdone hone⟩
    have hgood' : ∀ r ∈ reads.take n, r.Good := fun r hr => hgood r (List.mem_of_mem_take hr)
    exact staging_apart ((@recvLoop_placed _ _ hes hgood' (hfits _) (.waiting flash)
      trivial).1 _ hrun) hf hes

end Placement

section Example

/-- A flash of five eraseblocks of 4 KiB, all of them good. -/
def smallFlash : Meminfo := ⟨false, 4096, 5*4096, fun _ => false, by decide, by decide, by decide⟩

/-- A packet of an image of two equal blocks, `data` being that of all its packets and `block` that
of the blocks. -/
def evenPacket (tot : BitVec 32) (data block : List Byte) (b i : ℕ) : Packet :=
  { totcrc := tot
    nr_blocks := 2
    blocksize := 4096
    block_crc := mtdCrc32 (-1) (block.take 4096)
    block_nr := b
    pkt_nr := i
    nr_pkts := 3
    thiscrc := mtdCrc32 (-1) data
    data := data }

variable (tot : BitVec 32) (data block : List Byte)

/-- The packet as it is read, while the flash takes every write. -/
def evenArrival (b i : ℕ) : Arrival := ⟨evenPacket tot data block b i, false, 4096, true⟩

def evenReads : List Read :=
  [.packet (evenArrival tot data block 0 0), .packet (evenArrival tot data block 0 1),
    .packet (evenArrival tot data block 1 0), .packet (evenArrival tot data block 1 1)]

theorem admit_take {m : Meminfo} {s s' : Recv} {a : Arrival} (hcrc : s.image_crc = a.pkt.totcrc)
    (hint : a.pkt.block_nr < 2^31) (hb : a.pkt.block_nr < s.nr_blocks) {eb : Eraseblock}
    (heb : s.eraseblocks a.pkt.block_nr = eb)
    (hnew : a.pkt.pkt_nr ∉ eb.pkt_indices) (hn : eb.nr_pkts < m.pkts_per_block)
    (hthis : mtdCrc32 (-1) a.pkt.data = a.pkt.thiscrc) (hrun : pktAgain m s a = .ok s') :
    admitPkt m s a = .ok (settle m a.pkt s') := by
  have hdup : ¬duplicate m eb a := by
    rintro (h | ⟨h, -⟩)
    · exact hnew h
    · omega
  unfold admitPkt
  dsimp only
  rw [if_neg (not_not.mpr hcrc), if_neg (by omega), if_neg (by omega), heb, if_neg hdup,
    if_neg (by omega), if_neg (not_not.mpr hthis), hrun]

theorem pktAgain_buffer {m : Meminfo} {s : Recv} {a : Arrival} {eb : Eraseblock}
    (heb : s.eraseblocks a.pkt.block_nr = eb) (hfit : eb.wbuf.length+PKT_SIZE < WBUF_SIZE) :
    pktAgain m s a = .ok ((s.withTotal (s.total_pkts+1)).update a.pkt.block_nr
      ((eb.count a.pkt.pkt_nr).buffer a.pkt.data)) := by
  unfold pktAgain
  dsimp only
  rw [heb, Eraseblock.count_wbuf, if_pos hfit]

theorem pktAgain_flush {m : Meminfo} {s : Recv} {a : Arrival} {eb : Eraseblock}
    (heb : s.eraseblocks a.pkt.block_nr = eb) (hfull : WBUF_SIZE ≤ eb.wbuf.length+PKT_SIZE)
    (hw : eb.wbuf.length < WBUF_SIZE)
    (hst : m.stores eb.flash_offset WBUF_SIZE a.written = WBUF_SIZE) :
    pktAgain m s a = .ok (((s.withTotal (s.total_pkts+1)).withFlash
      (copyTo s.flash eb.flash_offset
        (eb.wbuf ++ a.pkt.data.take (WBUF_SIZE-eb.wbuf.length)))).update a.pkt.block_nr
      ((eb.count a.pkt.pkt_nr).flush (a.pkt.data.drop (WBUF_SIZE-eb.wbuf.length)))) := by
  have hpage : (eb.wbuf ++ a.pkt.data.take (WBUF_SIZE-eb.wbuf.length)).length ≤ WBUF_SIZE := by
    rw [List.length_append, List.length_take]
    omega
  unfold pktAgain
  dsimp only
  rw [heb, Eraseblock.count_wbuf, Eraseblock.count_flash_offset, if_neg (by omega), hst,
    if_neg (by omega), List.take_of_length_le hpage]
  rfl

/-- A block of the example after its two packets. -/
def evenBlock (home : ℕ) : Eraseblock :=
  ⟨Eraseblock.advance home, data.drop (WBUF_SIZE-PKT_SIZE), 2, [0, 1],
    mtdCrc32 (-1) (block.take 4096), home⟩

variable {tot data block}

/-- Both packets of a block, as they come one after the other. -/
theorem even_block (hd : data.length = PKT_SIZE) {s : Recv} {b home : ℕ} (hb : b < 2)
    (hnr : s.nr_blocks = 2) (hcrc : s.image_crc = tot) (heb : s.eraseblocks b = .fresh 0 home)
    (hhome : home < 4*4096) (reads : List Read) :
    ∃ s', s'.nr_blocks = 2 ∧ s'.image_crc = tot ∧ s'.mtdoffset = s.mtdoffset ∧
      s'.total_pkts = s.total_pkts+2 ∧
      s'.eraseblocks = Function.update s.eraseblocks b (evenBlock data block home) ∧
      recvLoop smallFlash (.receiving s) (.packet (evenArrival tot data block b 0) ::
          .packet (evenArrival tot data block b 1) :: reads) =
        if s.total_pkts+2 = 4 then .left (.receiving s')
        else recvLoop smallFlash (.receiving s') reads := by
  have hmod : home%2^32 = home := Nat.mod_eq_of_lt (by omega)
  have hppb : smallFlash.pkts_per_block = 2 := by decide
  have hint : b < 2^31 := by omega
  let a₀ := evenArrival tot data block b 0
  let a₁ := evenArrival tot data block b 1
  -- the first packet stays in the buffer
  let eb₁ := ((Eraseblock.fresh 0 home).count 0).buffer data
  let s₁ := (s.withTotal (s.total_pkts+1)).update b eb₁
  have heb₁ : s₁.eraseblocks b = eb₁ := Function.update_self _ _ _
  have hnr₁ : eb₁.nr_pkts = 1 := rfl
  have h₁ : admitPkt smallFlash s a₀ = .ok (false, s₁) := by
    rw [admit_take (s := s) (a := a₀) hcrc hint (by rw [hnr]; exact hb) heb List.not_mem_nil
      (by rw [hppb, Eraseblock.fresh_nr_pkts]; decide) rfl
      (pktAgain_buffer heb (by rw [Eraseblock.fresh_wbuf]; decide))]
    change Except.ok (settle smallFlash (evenPacket tot data block b 0) s₁) = _
    have hset : (s₁.eraseblocks (evenPacket tot data block b 0).block_nr).nr_pkts ≠
        smallFlash.pkts_per_block := by
      rw [hppb]
      change (s₁.eraseblocks b).nr_pkts ≠ 2
      rw [heb₁, hnr₁]
      decide
    unfold settle
    rw [if_neg hset]
  -- the second one fills it and completes the block
  have hlen : eb₁.wbuf.length = PKT_SIZE := by simp [eb₁, hd]
  have hst : smallFlash.stores eb₁.flash_offset WBUF_SIZE 4096 = WBUF_SIZE := by
    rw [stores_inside rfl]
    · decide
    · change home%2^32+4096 ≤ 5*4096
      omega
  have hagain := pktAgain_flush (m := smallFlash) (s := s₁) (a := a₁) heb₁
    (by rw [hlen]; decide) (by rw [hlen]; decide) hst
  let eb₂ := (eb₁.count 1).flush (data.drop (WBUF_SIZE-eb₁.wbuf.length))
  let flash := copyTo s₁.flash eb₁.flash_offset
    (eb₁.wbuf ++ data.take (WBUF_SIZE-eb₁.wbuf.length))
  let s₂ := ((s₁.withTotal (s₁.total_pkts+1)).withFlash flash).update b eb₂
  have heb₂ : s₂.eraseblocks b = eb₂ := Function.update_self _ _ _
  let s₃ := s₂.update b (eb₂.withCrc (mtdCrc32 (-1) (block.take 4096)))
  have h₂ : admitPkt smallFlash s₁ a₁ = .ok (decide (s.total_pkts+2 = 4), s₃) := by
    rw [admit_take (s := s₁) (a := a₁) hcrc hint
      (by rw [show s₁.nr_blocks = s.nr_blocks from rfl, hnr]; exact hb)
      heb₁ (by simp [eb₁, a₁, evenArrival, evenPacket])
      (by rw [hppb, hnr₁]; decide) rfl hagain]
    change Except.ok (settle smallFlash (evenPacket tot data block b 1) s₂) = _
    have hset : (s₂.eraseblocks (evenPacket tot data block b 1).block_nr).nr_pkts =
        smallFlash.pkts_per_block := by
      rw [hppb]
      change (s₂.eraseblocks b).nr_pkts = 2
      rw [heb₂]
      rfl
    have hnr₂ : s₂.nr_blocks = 2 := hnr
    unfold settle
    rw [if_pos hset, hppb, hnr₂]
    change Except.ok (decide (s.total_pkts+1+1 = 2*2), s₂.update b ((s₂.eraseblocks b).withCrc _)) = _
    rw [heb₂]
    rfl
  refine ⟨s₃, hnr, hcrc, rfl, rfl, ?_, ?_⟩
  · have hblk : eb₂.withCrc (mtdCrc32 (-1) (block.take 4096)) = evenBlock data block home := by
      unfold eb₂ evenBlock
      rw [hlen]
      have hflash : eb₁.flash_offset = home := hmod
      have hh : eb₁.home = home := hmod
      simp only [Eraseblock.withCrc, Eraseblock.flush, Eraseblock.count, hflash, hh]
      rfl
    change Function.update (Function.update (Function.update s.eraseblocks b eb₁) b eb₂) b _ = _
    rw [Function.update_idem, Function.update_idem, hblk]
  · rw [recvLoop, show begin smallFlash (.receiving s) a₀.pkt = .ok s from rfl]
    dsimp only
    rw [h₁]
    dsimp only
    rw [recvLoop, show begin smallFlash (.receiving s₁) a₁.pkt = .ok s₁ from rfl]
    dsimp only
    rw [h₂]
    by_cases h4 : s.total_pkts+2 = 4
    · rw [if_pos h4, decide_eq_true h4]
    · rw [if_neg h4, decide_eq_false h4]

theorem recvLoop_start {m : Meminfo} {flash : ℕ → Byte} {a : Arrival} {s : Recv}
    (h : start m flash a.pkt = .ok s) (reads : List Read) :
    recvLoop m (.waiting flash) (.packet a :: reads) =
      recvLoop m (.receiving s) (.packet a :: reads) := by
  rw [recvLoop, recvLoop, begin, h]
  rfl

theorem even_start (flash : ℕ → Byte) : ∃ s,
    start smallFlash flash (evenPacket tot data block 0 0) = .ok s ∧ s.nr_blocks = 2 ∧
      s.image_crc = tot ∧ s.total_pkts = 0 ∧ s.mtdoffset = 8192 ∧
      s.eraseblocks 0 = .fresh 0 0 ∧ s.eraseblocks 1 = .fresh 0 4096 := by
  have hskip (offset : ℕ) : smallFlash.skipBad smallFlash.size offset = offset := by
    rw [show smallFlash.size = 20479+1 from rfl, Meminfo.skipBad, Meminfo.isBad]
    simp [smallFlash]
  have halloc (i : ℕ) (s : Recv) (h : s.mtdoffset < smallFlash.size) : allocate smallFlash i s =
      .ok ((s.update i (.fresh 0 s.mtdoffset)).withCursor (s.mtdoffset+4096)) := by
    unfold allocate
    rw [show smallFlash.file_mode = false from rfl, if_neg (by decide), if_neg (Nat.not_le.mpr h)]
    dsimp only
    rw [hskip]
    rfl
  have hsame : smallFlash.erasesize = (evenPacket tot data block 0 0).blocksize := rfl
  have hint : ¬2^31 ≤ (evenPacket tot data block 0 0).nr_blocks := show ¬2^31 ≤ 2 by decide
  unfold start
  rw [if_neg (not_not.mpr hsame), if_neg hint]
  change ∃ s, forRange (allocate smallFlash) 2 0 _ = .ok s ∧ _
  rw [forRange, halloc _ _ (show 0 < smallFlash.size by decide)]
  dsimp only
  rw [forRange, halloc _ _ (show 4096 < smallFlash.size by decide)]
  dsimp only
  rw [forRange]
  exact ⟨_, rfl, rfl, rfl, rfl, rfl, rfl, rfl⟩

/-- The receive loop on the four packets: the two blocks are complete, side by side. -/
theorem even_received (hd : data.length = PKT_SIZE) (flash : ℕ → Byte) :
    ∃ s, recvLoop smallFlash (.waiting flash) (evenReads tot data block) = .left (.receiving s) ∧
      s.nr_blocks = 2 ∧ s.mtdoffset = 8192 ∧ s.eraseblocks 0 = evenBlock data block 0 ∧
      s.eraseblocks 1 = evenBlock data block 4096 := by
  obtain ⟨s₀, hstart, hnr, hcrc, htot, hcur, h0, h1⟩ := @even_start tot data
    block flash
  unfold evenReads
  rw [recvLoop_start (a := evenArrival tot data block 0 0) hstart]
  obtain ⟨s₁, hnr₁, hcrc₁, hcur₁, htot₁, hblk₁, hrun₁⟩ := even_block hd (b := 0) (by decide) hnr hcrc
    h0 (by decide) [.packet (evenArrival tot data block 1 0),
      .packet (evenArrival tot data block 1 1)]
  have h1' : s₁.eraseblocks 1 = .fresh 0 4096 := by
    rw [hblk₁, Function.update_of_ne (by decide), h1]
  obtain ⟨s₂, hnr₂, -, hcur₂, -, hblk₂, hrun₂⟩ := even_block hd (b := 1) (by decide) hnr₁ hcrc₁
    h1' (by decide) []
  rw [hrun₁, if_neg (by omega), hrun₂, if_pos (by omega)]
  refine ⟨s₂, rfl, hnr₂, by rw [hcur₂, hcur₁, hcur], ?_, ?_⟩
  · rw [hblk₂, Function.update_of_ne (by decide), hblk₁, Function.update_self]
  · rw [hblk₂, Function.update_self]

/-- The answers of the flash at the end. The first write of the blocks of `short` fails. -/
def evenEnv (short : ℕ → Bool) (b : ℕ) : BlockEnv :=
  ⟨true, true, if short b then [⟨0, true⟩, ⟨4096, true⟩] else [⟨4096, true⟩]⟩

theorem small_nextGood : smallFlash.nextGood 8192 = .ok 8192 := by decide +kernel

theorem small_write {f : Final} {b : ℕ} (hcur : f.mtdoffset = 8192) (short : ℕ → Bool)
    (hoff : (f.eraseblocks b).flash_offset = 0 ∨ (f.eraseblocks b).flash_offset = 4096) :
    ∃ f', writeAgain smallFlash b data (evenEnv short b).tries f = .ok f' ∧ f'.mtdoffset = 8192 ∧
      ∀ c ≠ b, f'.eraseblocks c = f.eraseblocks c := by
  have hlast (g : Final) (hg : (g.eraseblocks b).flash_offset+4096 ≤ 5*4096) :
      writeAgain smallFlash b data [⟨4096, true⟩] g =
        .ok (g.touch b (g.eraseblocks b).flash_offset
          (copyTo g.flash (g.eraseblocks b).flash_offset (data.take 4096))) := by
    rw [writeAgain, stores_inside rfl hg]
    rfl
  unfold evenEnv
  cases short b with
  | false =>
    refine ⟨_, hlast f (by omega), hcur, fun _ _ => rfl⟩
  | true =>
    have hst : smallFlash.stores (f.eraseblocks b).flash_offset smallFlash.erasesize 0 = 0 := by
      rw [stores_inside rfl (show _ ≤ 5*4096 by change _+4096 ≤ _; omega)]
      rfl
    have herase (g : ℕ → Byte) : smallFlash.memErase true g (f.eraseblocks b).flash_offset =
        .ok (setTo g (f.eraseblocks b).flash_offset 4096 0xff#8) := by
      unfold Meminfo.memErase
      rw [if_neg]
      · rfl
      · rcases hoff with h | h <;> rw [h] <;> decide
    have hnext : smallFlash.nextGood f.mtdoffset = .ok 8192 := by
      rw [hcur]
      exact small_nextGood
    rw [if_pos rfl, writeAgain]
    dsimp only
    rw [hst, if_pos (by decide), if_neg (by decide), herase]
    dsimp only
    rw [show (f.touch b (f.eraseblocks b).flash_offset _).mtdoffset = f.mtdoffset from rfl, hnext]
    dsimp only
    rw [hlast]
    · refine ⟨_, rfl, rfl, fun c hc => ?_⟩
      change Function.update f.eraseblocks b _ c = _
      rw [Function.update_of_ne hc]
    · change (Function.update f.eraseblocks b _ b).flash_offset+4096 ≤ _
      rw [Function.update_self]
      exact (by decide : 8192%2^32+4096 ≤ 5*4096)

/-- One block of the example at the end. -/
theorem even_finishBlock {f : Final} {b home : ℕ} (hblk : f.eraseblocks b = evenBlock data block home)
    (hhome : home = 0 ∨ home = 4096) (hcur : f.mtdoffset = 8192) (short : ℕ → Bool) :
    ∃ f', finishBlock smallFlash (fun _ _ => some block) (evenEnv short) b f = .ok f' ∧
      f'.mtdoffset = 8192 ∧ ∀ c ≠ b, f'.eraseblocks c = f.eraseblocks c := by
  have hstart : startOffset smallFlash (f.eraseblocks b) = home := by
    rw [hblk]
    unfold startOffset evenBlock
    dsimp only
    rw [Eraseblock.advance_eq]
    rcases hhome with rfl | rfl <;> decide
  have hcrc : (f.eraseblocks b).crc = mtdCrc32 (-1) (block.take smallFlash.erasesize) := by
    rw [hblk]
    rfl
  have hread : (evenEnv short b).read = true := rfl
  have hmod : home%2^32 = home := by omega
  unfold finishBlock
  dsimp only
  rw [hstart, hcrc, hread, if_neg (by decide), if_neg (not_not.mpr rfl), if_neg (by decide)]
  have herase (g : ℕ → Byte) : smallFlash.memErase true g home =
      .ok (setTo g home 4096 0xff#8) := by
    unfold Meminfo.memErase
    rw [if_neg]
    · rfl
    · rcases hhome with h | h <;> rw [h] <;> decide
  rw [show (evenEnv short b).erase = true from rfl, herase]
  dsimp only
  obtain ⟨f', hw, hc, ho⟩ := @small_write (block.take smallFlash.erasesize)
    ((f.moveTo b home).touch b home
      (setTo (f.moveTo b home).flash home 4096 0xff#8)) b hcur short (by
    change (Function.update f.eraseblocks b _ b).flash_offset = 0 ∨
      (Function.update f.eraseblocks b _ b).flash_offset = 4096
    rw [Function.update_self]
    change home%2^32 = 0 ∨ home%2^32 = 4096
    rw [hmod]
    exact hhome)
  refine ⟨f', hw, hc, fun c hcb => ?_⟩
  rw [ho c hcb]
  change Function.update f.eraseblocks b _ c = _
  rw [Function.update_of_ne hcb]

/-- The example comes to its end, whichever of the two writes fail. -/
theorem even_finished (hd : data.length = PKT_SIZE) (flash : ℕ → Byte) (short : ℕ → Bool) :
    ∃ s f, recvLoop smallFlash (.waiting flash) (evenReads tot data block) =
        .left (.receiving s) ∧ s.nr_blocks = 2 ∧
      finish smallFlash (fun _ _ => some block) (evenEnv short) s = .ok f := by
  obtain ⟨s, hrun, hnr, hcur, h0, h1⟩ := @even_received tot _ block hd flash
  obtain ⟨f₁, hf₁, hc₁, ho₁⟩ := even_finishBlock (f := ⟨s.eraseblocks, s.mtdoffset, s.flash, []⟩) h0
    (.inl rfl) hcur short
  obtain ⟨f₂, hf₂, -, -⟩ := even_finishBlock (f := f₁) ((ho₁ 1 (by decide)).trans h1) (.inr rfl) hc₁
    short
  refine ⟨s, f₂, hrun, hnr, ?_⟩
  unfold finish
  rw [hnr, forRange, hf₁]
  dsimp only
  rw [forRange, hf₂]
  rfl

theorem evenReads_good (hd : data.length = PKT_SIZE) :
    ∀ r ∈ evenReads tot data block, r.Good := by
  intro r hr
  simp only [evenReads, List.mem_cons, List.not_mem_nil, or_false] at hr
  rcases hr with rfl | rfl | rfl | rfl <;> exact hd

end Example

/-- One block of two is moved at the end, and the blocks are apart. -/
theorem recv_placement_one_moved : ∃ s f,
    recvLoop smallFlash (.waiting fun _ => 0xff#8) (evenReads (mtdCrc32 (-1) (List.replicate 8192 0))
      (List.replicate PKT_SIZE 0) (List.replicate (2*PKT_SIZE) 0)) = .left (.receiving s) ∧
    finish smallFlash (fun _ _ => some (List.replicate (2*PKT_SIZE) 0)) (evenEnv (· = 0)) s = .ok f ∧
    FinalApart s f := by
  obtain ⟨s, f, hrun, hnr, hfin⟩ := @even_finished (mtdCrc32 (-1) (List.replicate 8192 0)) _
    (List.replicate (2*PKT_SIZE) 0) (List.length_replicate (n := PKT_SIZE) (a := 0#8))
    (fun _ => 0xff#8) (· = 0)
  refine ⟨s, f, hrun, hfin, ((recv_placement_iff smallFlash rfl (by decide) _ _
    (evenReads_good List.length_replicate) s hrun _ _ f hfin).mpr ?_).2⟩
  intro b _ c _ hb hc
  have hshort (x : ℕ) (hx : (evenEnv (· = 0) x).shortFirst smallFlash = true) : x = 0 := by
    by_contra h0
    simp [BlockEnv.shortFirst, evenEnv, h0, smallFlash] at hx
  rw [hshort b hb, hshort c hc]

/-- Both blocks are moved at the end, and they are in one eraseblock. -/
theorem recv_placement_both_moved : ∃ s f,
    recvLoop smallFlash (.waiting fun _ => 0xff#8) (evenReads (mtdCrc32 (-1) (List.replicate 8192 0))
      (List.replicate PKT_SIZE 0) (List.replicate (2*PKT_SIZE) 0)) = .left (.receiving s) ∧
    finish smallFlash (fun _ _ => some (List.replicate (2*PKT_SIZE) 0)) (evenEnv fun _ => true) s =
      .ok f ∧
    s.nr_blocks = 2 ∧ (f.eraseblocks 0).flash_offset = (f.eraseblocks 1).flash_offset ∧
    ¬FinalApart s f := by
  obtain ⟨s, f, hrun, hnr, hfin⟩ := @even_finished (mtdCrc32 (-1) (List.replicate 8192 0)) _
    (List.replicate (2*PKT_SIZE) 0) (List.length_replicate (n := PKT_SIZE) (a := 0#8))
    (fun _ => 0xff#8) (fun _ => true)
  obtain ⟨s₁, hs₁, hp, -⟩ := (@recvLoop_placed smallFlash _ (by decide)
    (evenReads_good List.length_replicate) (fun _ _ hfm => by cases hfm)
    (.waiting fun _ => 0xff#8) trivial).2 _ hrun
  obtain rfl := Phase.receiving.inj hs₁
  have hdone := finish_finished rfl (by decide) hp.cursor_mod hfin
  have h0 := hdone.moved 0 (by omega) rfl
  have h1 := hdone.moved 1 (by omega) rfl
  rw [h0] at h1
  have heq := Except.ok.inj h1
  exact ⟨s, f, hrun, hfin, hnr, heq, fun hapart => hapart.apart 0 (by omega) 1 (by omega)
    (by decide) heq⟩

end ChipTools.Mcast
