import ChipTools.McastPlacement

/-! The image that `serve_image` sends is the image that `recv_image` writes. What is staged for a
block are the payloads of its packets in the order of their indices, through every loss, repetition
and move of a block, and at the end each block is decoded from them. -/
namespace ChipTools.Mcast
open Bytes Loop

def Packet.withData (p : Packet) (data : List Byte) : Packet := { p with data := data }

/-- A packet of the server as it is read: its data may be damaged, but then its CRC is wrong. -/
def Server.Arrives (srv : Server) (p : Packet) : Prop :=
  ∃ q ∈ srv.cycle, ∃ data, p = q.withData data ∧ data.length = PKT_SIZE ∧
    (data = q.data ∨ mtdCrc32 (-1) data ≠ q.thiscrc)

/-- A read of the socket that gives a packet of the server. -/
def Server.Gives (srv : Server) : Read → Prop
  | .error => False
  | .short => True
  | .packet a => srv.Arrives a.pkt

/-- What is asked of the image and of the code: `fec_encode` gives packets of the right size. -/
structure Server.Fine (srv : Server) : Prop where
  erasesize_pos : 0 < srv.erasesize
  erasesize_mod : srv.erasesize%WBUF_SIZE = 0
  image_mod : srv.image.length%srv.erasesize = 0
  payload : ∀ src i, src.length = PKT_SIZE*srv.pkts_per_block →
    (srv.fec_encode src i).length = PKT_SIZE

section Packets

variable {srv : Server}

theorem mem_cycle {q : Packet} (h : q ∈ srv.cycle) :
    ∃ b < srv.nr_blocks, ∃ i < srv.total_pkts_per_block, q = srv.packet b i := by
  unfold Server.cycle at h
  obtain ⟨k, hk, hq⟩ := List.mem_flatMap.mp h
  obtain ⟨b, hb, rfl⟩ := List.mem_map.mp hq
  rw [List.mem_range] at hk hb
  refine ⟨b, hb, srv.actualpkt b k, ?_, rfl⟩
  unfold Server.actualpkt
  split <;> omega

/-- What the receiver can rely on once the CRC of a packet is right. -/
theorem arrives_spec {p : Packet} (h : srv.Arrives p) :
    p.totcrc = mtdCrc32 (-1) srv.image ∧ p.nr_blocks = srv.nr_blocks ∧
    p.blocksize = srv.erasesize ∧ p.data.length = PKT_SIZE ∧ p.block_nr < srv.nr_blocks ∧
    p.pkt_nr < srv.total_pkts_per_block ∧ p.block_crc = srv.block_crc p.block_nr ∧
    (mtdCrc32 (-1) p.data = p.thiscrc → p.data = srv.payload p.block_nr p.pkt_nr) := by
  obtain ⟨q, hq, data, rfl, hlen, hdata⟩ := h
  obtain ⟨b, hb, i, hi, rfl⟩ := mem_cycle hq
  refine ⟨rfl, rfl, rfl, hlen, hb, hi, rfl, fun hcrc => ?_⟩
  exact hdata.resolve_right (not_not.mpr hcrc)

end Packets

section Staged

/-- The bytes that are staged for a block: those in the flash from its place up to `flash_offset`,
and those in its buffer. -/
def Recv.staged (s : Recv) (b : ℕ) : List Byte :=
  let eb := s.eraseblocks b
  readBytes s.flash eb.home ((eb.flash_offset+2^32-eb.home)%2^32) ++ eb.wbuf

/-- The packets of a block are distinct, and their payloads are staged in their order. -/
structure BlockStaged (srv : Server) (m : Meminfo) (s : Recv) (b : ℕ) : Prop where
  length : (s.eraseblocks b).pkt_indices.length =
    min (s.eraseblocks b).nr_pkts m.pkts_per_block
  nodup : (s.eraseblocks b).pkt_indices.Nodup
  bytes : s.staged b = ((s.eraseblocks b).pkt_indices.map (srv.payload b)).flatten

/-- The same for the invariant, with the length of the part in the flash. -/
structure BlockHolds (srv : Server) (flash : ℕ → Byte) (b : ℕ) (eb : Eraseblock) : Prop where
  nodup : eb.pkt_indices.Nodup
  range : ∀ i ∈ eb.pkt_indices, i < srv.total_pkts_per_block
  bytes : readBytes flash eb.home eb.flushed ++ eb.wbuf =
    (eb.pkt_indices.map (srv.payload b)).flatten

structure Holds (srv : Server) (m : Meminfo) (s : Recv) : Prop where
  placed : Placed m s
  erasesize : m.erasesize = srv.erasesize
  crc : s.image_crc = mtdCrc32 (-1) srv.image
  nr : s.nr_blocks = srv.nr_blocks
  size : srv.nr_blocks*srv.erasesize ≤ 2^32
  block : ∀ b < s.nr_blocks, BlockHolds srv s.flash b (s.eraseblocks b)
  complete : ∀ b < s.nr_blocks, m.pkts_per_block ≤ (s.eraseblocks b).nr_pkts →
    (s.eraseblocks b).crc = srv.block_crc b

variable {srv : Server} {m : Meminfo} {s s' : Recv} {a : Arrival}

theorem flushed_mod (eb : Eraseblock) : eb.flushed%WBUF_SIZE = 0 := Nat.mul_mod_left _ _

/-- The packets of a block fit its eraseblock and the buffer. -/
theorem flushed_le {eb : Eraseblock} (h : BlockPlaced m eb) (hw : m.erasesize%WBUF_SIZE = 0) :
    eb.flushed ≤ m.erasesize := by
  apply aligned_le (flushed_mod eb) hw
  have h1 : eb.flushed ≤ eb.pkt_indices.length*PKT_SIZE := Nat.div_mul_le_self _ _
  have h2 : eb.pkt_indices.length*PKT_SIZE ≤ m.pkts_per_block*PKT_SIZE :=
    Nat.mul_le_mul_right _ (by rw [h.length]; exact Nat.min_le_right _ _)
  have h3 := pkts_per_block_mul_le m
  unfold PKT_SIZE WBUF_SIZE at *
  omega

theorem flushed_lt {eb : Eraseblock} (h : BlockPlaced m eb) (hw : m.erasesize%WBUF_SIZE = 0)
    (hn : eb.nr_pkts < m.pkts_per_block) (hfull : WBUF_SIZE ≤ eb.wbuf.length+PKT_SIZE) :
    eb.flushed+WBUF_SIZE ≤ m.erasesize := by
  apply aligned_le (by rw [Nat.add_mod_right]; exact flushed_mod eb) hw
  have h1 : eb.flushed+eb.wbuf.length = eb.pkt_indices.length*PKT_SIZE := by
    rw [h.wbuf]
    exact Nat.div_add_mod' _ _
  have h2 : (eb.pkt_indices.length+1)*PKT_SIZE ≤ m.pkts_per_block*PKT_SIZE :=
    Nat.mul_le_mul_right _ (by rw [h.length_lt hn]; omega)
  have h3 := pkts_per_block_mul_le m
  rw [Nat.succ_mul] at h2
  unfold PKT_SIZE WBUF_SIZE at *
  omega

/-- An incomplete block is written where its packets end. -/
theorem offset_of_lt {eb : Eraseblock} (h : BlockPlaced m eb) (hlt : eb.flushed < m.erasesize) :
    eb.flash_offset = eb.home+eb.flushed := by
  cases hf : m.file_mode with
  | false => exact h.offset_eq hf
  | true =>
    have := h.file hf
    rw [h.offset]
    exact Nat.mod_eq_of_lt (by omega)

/-- Two places are at least an eraseblock apart. -/
theorem homes_apart (h : Placed m s) {b c : ℕ} (hb : b < s.nr_blocks) (hc : c < s.nr_blocks)
    (hne : b ≠ c) : (s.eraseblocks b).home+m.erasesize ≤ (s.eraseblocks c).home ∨
      (s.eraseblocks c).home+m.erasesize ≤ (s.eraseblocks b).home := by
  have hbc := h.apart b hb c hc hne
  have hmb := (h.block b hb).home_mod
  have hmc := (h.block c hc).home_mod
  by_contra hcon
  rw [not_or] at hcon
  have h1 := aligned_le hmb hmc (by omega)
  have h2 := aligned_le hmc hmb (by omega)
  omega

/-- A change of the flash inside the eraseblock of one block leaves the others. -/
theorem holds_other (h : Holds srv m s) (hw : m.erasesize%WBUF_SIZE = 0) {b c : ℕ}
    (hb : b < s.nr_blocks) (hc : c < s.nr_blocks) (hne : c ≠ b) {flash : ℕ → Byte}
    (hflash : ∀ x, x < (s.eraseblocks b).home ∨ (s.eraseblocks b).home+m.erasesize ≤ x →
      flash x = s.flash x) : BlockHolds srv flash c (s.eraseblocks c) := by
  have hblk := h.block c hc
  refine ⟨hblk.nodup, hblk.range, ?_⟩
  rw [← hblk.bytes]
  congr 1
  apply readBytes_congr
  intro i hi
  apply hflash
  have hle := flushed_le (h.placed.block c hc) hw
  have := homes_apart h.placed hc hb hne
  omega

end Staged

section Step

variable {srv : Server} {m : Meminfo} {s s' : Recv} {a : Arrival}

theorem flatten_snoc (f : ℕ → List Byte) (is : List ℕ) (i : ℕ) :
    ((is ++ [i]).map f).flatten = (is.map f).flatten ++ f i := by simp

/-- A new index with its payload behind the others. -/
theorem BlockHolds.snoc {flash flash' : ℕ → Byte} {b i : ℕ} {eb eb' : Eraseblock}
    (h : BlockHolds srv flash b eb) (hi : i ∉ eb.pkt_indices) (hlt : i < srv.total_pkts_per_block)
    (hidx : eb'.pkt_indices = eb.pkt_indices ++ [i])
    (hbytes : readBytes flash' eb'.home eb'.flushed ++ eb'.wbuf =
      readBytes flash eb.home eb.flushed ++ eb.wbuf ++ srv.payload b i) :
    BlockHolds srv flash' b eb' := by
  refine ⟨?_, ?_, ?_⟩
  · rw [hidx]
    exact h.nodup.append (List.nodup_singleton i) (by simpa using hi)
  · rw [hidx]
    intro j hj
    rcases List.mem_append.mp hj with hj | hj
    · exact h.range j hj
    · rw [List.mem_singleton.mp hj]
      exact hlt
  · rw [hbytes, h.bytes, hidx, flatten_snoc]

/-- A packet with a right CRC is staged, in the buffer or in the flash, or alone at a new place. -/
theorem pktAgain_holds (h : Holds srv m s) (hw : m.erasesize%WBUF_SIZE = 0)
    (hes : 0 < m.erasesize) (hb : a.pkt.block_nr < s.nr_blocks)
    (hnew : a.pkt.pkt_nr ∉ (s.eraseblocks a.pkt.block_nr).pkt_indices)
    (hn : (s.eraseblocks a.pkt.block_nr).nr_pkts < m.pkts_per_block)
    (hi : a.pkt.pkt_nr < srv.total_pkts_per_block) (hd : a.pkt.data.length = PKT_SIZE)
    (hpay : a.pkt.data = srv.payload a.pkt.block_nr a.pkt.pkt_nr)
    (hrun : pktAgain m s a = .ok s') :
    s'.image_crc = s.image_crc ∧
    (∀ c < s.nr_blocks, BlockHolds srv s'.flash c (s'.eraseblocks c)) ∧
    ∀ c ≠ a.pkt.block_nr, s'.eraseblocks c = s.eraseblocks c := by
  have hplaced := h.placed.block _ hb
  have hold := h.block _ hb
  have hother {flash : ℕ → Byte} (hflash : ∀ x, x < (s.eraseblocks a.pkt.block_nr).home ∨
      (s.eraseblocks a.pkt.block_nr).home+m.erasesize ≤ x → flash x = s.flash x) {c : ℕ}
      (hc : c < s.nr_blocks) (hne : c ≠ a.pkt.block_nr) :=
    holds_other h hw hb hc hne hflash
  generalize heb : s.eraseblocks a.pkt.block_nr = eb at hplaced hnew hn hold hother
  have hwl := wbuf_lt hplaced
  -- in every case one block is replaced, and the flash is changed inside its eraseblock
  have hreplace {f : ℕ → Byte} {eb' : Eraseblock} (hs' : s'.eraseblocks =
      Function.update s.eraseblocks a.pkt.block_nr eb') (hfl : s'.flash = f)
      (hcrc : s'.image_crc = s.image_crc)
      (hown : BlockHolds srv f a.pkt.block_nr eb')
      (hflash : ∀ x, x < eb.home ∨ eb.home+m.erasesize ≤ x → f x = s.flash x) :
      s'.image_crc = s.image_crc ∧
      (∀ c < s.nr_blocks, BlockHolds srv s'.flash c (s'.eraseblocks c)) ∧
      ∀ c ≠ a.pkt.block_nr, s'.eraseblocks c = s.eraseblocks c := by
    refine ⟨hcrc, fun c hc => ?_, fun c hc => ?_⟩
    · rw [hs', hfl]
      by_cases hcb : c = a.pkt.block_nr
      · subst hcb
        rwa [Function.update_self]
      · rw [Function.update_of_ne hcb]
        exact hother hflash hc hcb
    · rw [hs', Function.update_of_ne hc]
  rcases pktAgain_cases hrun heb hwl with ⟨hfit, rfl⟩ | ⟨hfull, hst, rfl⟩ |
    ⟨hfull, hf, offset, start, bs, hbs, htop, hstart, hmod, -, hnext, rfl⟩
  · obtain ⟨-, hfl⟩ := hplaced.buffer hn hfit a.pkt.pkt_nr hd
    refine hreplace rfl rfl rfl (hold.snoc (i := a.pkt.pkt_nr) hnew hi rfl ?_) fun _ _ => rfl
    rw [hfl, ← hpay]
    exact (List.append_assoc _ _ _).symm
  · have hlt := flushed_lt hplaced hw hn hfull
    have hoff := offset_of_lt hplaced (by unfold WBUF_SIZE at hlt; omega)
    have hrest : (a.pkt.data.drop (WBUF_SIZE-eb.wbuf.length)).length =
        eb.wbuf.length+PKT_SIZE-WBUF_SIZE := by
      rw [List.length_drop, hd]
      omega
    obtain ⟨-, hfl⟩ := hplaced.flush hn hfull a.pkt.pkt_nr hrest
      (fun hf => stores_top hf hst (by decide))
    have hpage : (eb.wbuf ++ a.pkt.data.take (WBUF_SIZE-eb.wbuf.length)).length = WBUF_SIZE := by
      rw [List.length_append, List.length_take, hd]
      omega
    refine hreplace (f := copyTo s.flash eb.flash_offset (eb.wbuf ++
      a.pkt.data.take (WBUF_SIZE-eb.wbuf.length))) rfl rfl rfl
      (hold.snoc (i := a.pkt.pkt_nr) hnew hi rfl ?_) fun x hx => ?_
    · rw [hfl, Eraseblock.flush_home, Eraseblock.count_home, Eraseblock.flush_wbuf, readBytes_add,
        hoff, readBytes_copyTo_of_length hpage, readBytes_copyTo_outside (.inl le_rfl), ← hpay]
      simp only [List.append_assoc, List.take_append_drop]
    · apply copyTo_outside
      rw [hpage, hoff]
      omega
  · have hlt := flushed_lt hplaced hw hn hfull
    have hoff := hplaced.offset_eq hf
    have hhome : start = eb.home := by
      rw [hstart]
      exact eraseStart_home hplaced hf hn hfull (hstart ▸ hmod) hes
    refine hreplace (f := setTo (copyTo s.flash eb.flash_offset bs) start m.erasesize 0xff#8)
      rfl rfl rfl ?_ fun x hx => ?_
    · refine ⟨by simp, by simpa using hi, ?_⟩
      have hfl : (((Eraseblock.fresh eb.crc offset).count a.pkt.pkt_nr).buffer
          a.pkt.data).flushed = 0 := by
        simp [Eraseblock.flushed, PKT_SIZE, WBUF_SIZE]
      rw [hfl]
      simp [readBytes, hpay]
    · rw [hhome]
      have hset : setTo (copyTo s.flash eb.flash_offset bs) eb.home m.erasesize 0xff#8 x =
          copyTo s.flash eb.flash_offset bs x := by
        rcases hx with hx | hx
        · exact setTo_below hx
        · exact setTo_above hx
      rw [hset]
      apply copyTo_outside
      rw [hoff]
      omega

end Step

section Run

variable {srv : Server} {m : Meminfo} {s s' : Recv} {a : Arrival}

/-- A block whose bytes, packets and place stay the same. -/
theorem BlockHolds.congr {flash : ℕ → Byte} {b : ℕ} {eb eb' : Eraseblock}
    (h : BlockHolds srv flash b eb) (hidx : eb'.pkt_indices = eb.pkt_indices)
    (hhome : eb'.home = eb.home) (hwbuf : eb'.wbuf = eb.wbuf) : BlockHolds srv flash b eb' := by
  refine ⟨hidx ▸ h.nodup, hidx ▸ h.range, ?_⟩
  have hfl : eb'.flushed = eb.flushed := by rw [Eraseblock.flushed, Eraseblock.flushed, hidx]
  rw [hfl, hhome, hwbuf, hidx]
  exact h.bytes

/-- A packet that is not needed is only counted. -/
theorem extra_holds (h : Holds srv m s) (hes : 0 < m.erasesize) {b : ℕ} (hb : b < s.nr_blocks)
    (hn : m.pkts_per_block ≤ (s.eraseblocks b).nr_pkts) :
    Holds srv m (s.update b (s.eraseblocks b).extra) := by
  have hplaced : Placed m (s.update b (s.eraseblocks b).extra) :=
    h.placed.update hb ((h.placed.block b hb).extra hn) s.total_pkts s.mtdoffset s.flash rfl
      h.placed.cursor_mod le_rfl (.inl rfl) (h.placed.below b hb) hes
  refine ⟨hplaced, h.erasesize, h.crc, h.nr, h.size, fun c hc => ?_, fun c hc => ?_⟩
  · change BlockHolds srv s.flash c (Function.update s.eraseblocks b _ c)
    by_cases hcb : c = b
    · subst hcb
      rw [Function.update_self]
      exact (h.block c hb).congr rfl rfl rfl
    · rw [Function.update_of_ne hcb]
      exact h.block c hc
  · change m.pkts_per_block ≤ (Function.update s.eraseblocks b _ c).nr_pkts →
      (Function.update s.eraseblocks b _ c).crc = _
    by_cases hcb : c = b
    · subst hcb
      rw [Function.update_self]
      exact fun _ => h.complete c hb hn
    · rw [Function.update_of_ne hcb]
      exact h.complete c hc

/-- The number of packets of a block goes up by one, or starts again at one. -/
theorem pktAgain_nr_pkts (hrun : pktAgain m s a = .ok s')
    (hw : (s.eraseblocks a.pkt.block_nr).wbuf.length < WBUF_SIZE) :
    (s'.eraseblocks a.pkt.block_nr).nr_pkts ≤ (s.eraseblocks a.pkt.block_nr).nr_pkts+1 := by
  rcases pktAgain_cases hrun rfl hw with ⟨-, rfl⟩ | ⟨-, -, rfl⟩ |
    ⟨-, -, offset, start, bs, -, -, -, -, -, -, rfl⟩
  · change (Function.update s.eraseblocks a.pkt.block_nr _ a.pkt.block_nr).nr_pkts ≤ _
    rw [Function.update_self]
    exact le_rfl
  · change (Function.update s.eraseblocks a.pkt.block_nr _ a.pkt.block_nr).nr_pkts ≤ _
    rw [Function.update_self]
    exact le_rfl
  · change (Function.update s.eraseblocks a.pkt.block_nr _ a.pkt.block_nr).nr_pkts ≤ _
    rw [Function.update_self]
    exact Nat.le_add_left 1 _

/-- The end of a pass keeps the CRC of a block that is now complete. -/
theorem settle_holds {s₁ : Recv} {p : Packet} {last : Bool} (h : Holds srv m s)
    (hplaced : Placed m s₁) (hes : 0 < m.erasesize) (hb : p.block_nr < s.nr_blocks)
    (hnr : s₁.nr_blocks = s.nr_blocks) (hcrc : s₁.image_crc = s.image_crc)
    (hblock : ∀ c < s.nr_blocks, BlockHolds srv s₁.flash c (s₁.eraseblocks c))
    (hother : ∀ c ≠ p.block_nr, s₁.eraseblocks c = s.eraseblocks c)
    (hn : (s₁.eraseblocks p.block_nr).nr_pkts ≤ m.pkts_per_block)
    (hpcrc : p.block_crc = srv.block_crc p.block_nr) (hset : settle m p s₁ = (last, s')) :
    Holds srv m s' := by
  have hplaced' : Placed m s' := by
    have := settle_placed (p := p) hplaced hes (hnr ▸ hb)
    rwa [hset] at this
  have hothercrc (c : ℕ) (hc : c < s.nr_blocks) (hcb : c ≠ p.block_nr)
      (hcn : m.pkts_per_block ≤ (s₁.eraseblocks c).nr_pkts) :
      (s₁.eraseblocks c).crc = srv.block_crc c := by
    rw [hother c hcb] at hcn ⊢
    exact h.complete c hc hcn
  unfold settle at hset
  dsimp only at hset
  split at hset
  next heq =>
    obtain ⟨-, rfl⟩ := Prod.mk.injEq .. ▸ hset
    refine ⟨hplaced', h.erasesize, hcrc.trans h.crc, hnr.trans h.nr, h.size, fun c hc => ?_,
      fun c hc => ?_⟩
    · change BlockHolds srv s₁.flash c (Function.update s₁.eraseblocks p.block_nr _ c)
      by_cases hcb : c = p.block_nr
      · subst hcb
        rw [Function.update_self]
        exact (hblock _ hb).congr rfl rfl rfl
      · rw [Function.update_of_ne hcb]
        exact hblock c (hnr ▸ hc)
    · change m.pkts_per_block ≤ (Function.update s₁.eraseblocks p.block_nr _ c).nr_pkts →
        (Function.update s₁.eraseblocks p.block_nr _ c).crc = _
      by_cases hcb : c = p.block_nr
      · subst hcb
        rw [Function.update_self]
        exact fun _ => hpcrc
      · rw [Function.update_of_ne hcb]
        exact hothercrc c (hnr ▸ hc) hcb
  next hneq =>
    obtain ⟨-, rfl⟩ := Prod.mk.injEq .. ▸ hset
    refine ⟨hplaced', h.erasesize, hcrc.trans h.crc, hnr.trans h.nr, h.size,
      fun c hc => hblock c (hnr ▸ hc), fun c hc hcn => ?_⟩
    by_cases hcb : c = p.block_nr
    · subst hcb
      omega
    · exact hothercrc c (hnr ▸ hc) hcb hcn

/-- A pass of the loop keeps what is staged. -/
theorem admit_holds (h : Holds srv m s) (hw : m.erasesize%WBUF_SIZE = 0) (hes : 0 < m.erasesize)
    (hp : srv.Arrives a.pkt) {last : Bool} (hrun : admitPkt m s a = .ok (last, s')) :
    Holds srv m s' := by
  obtain ⟨-, -, -, hd, -, hi, hpcrc, hpay⟩ := arrives_spec hp
  obtain ⟨-, hb, ⟨-, rfl⟩ | ⟨-, hn, rfl⟩ | ⟨hnew, hn, hthis, s₁, h₁, h₂⟩⟩ := admit_cases hrun
  · exact h
  · exact extra_holds h hes hb hn
  · obtain ⟨hcrc, hblock, hother⟩ := pktAgain_holds h hw hes hb hnew hn hi hd (hpay hthis) h₁
    have hle := pktAgain_nr_pkts h₁ (wbuf_lt (h.placed.block _ hb))
    exact settle_holds h (pktAgain_placed h.placed hes hb hn hd h₁) hes hb (pktAgain_nr_blocks h₁)
      hcrc hblock hother (by omega) hpcrc h₂

/-- The first packet gives every block a place, and there is nothing in it yet. -/
theorem start_holds {flash : ℕ → Byte} {p : Packet} (hfine : srv.Fine) (hp : srv.Arrives p)
    (hsize : m.file_mode = true → srv.nr_blocks*srv.erasesize ≤ 2^32)
    (hrun : start m flash p = .ok s) : Holds srv m s := by
  obtain ⟨hcrc, hnr, hbs, -⟩ := arrives_spec hp
  have hsame : m.erasesize = p.blocksize := by
    unfold start at hrun
    split at hrun
    · cases hrun
    next hsame => exact not_not.mp hsame
  have hes := hsame.trans hbs
  obtain ⟨hplaced, hall, -⟩ := start_placed (m := m) (by rw [hes]; exact hfine.erasesize_pos)
    (fun hf => by rw [hnr, hes]; exact hsize hf) hrun
  have hlt := m.size_lt
  refine ⟨hplaced, hes, hall.crc.trans hcrc, hall.nr.trans hnr, ?_, fun b _ => ?_, fun b hb => ?_⟩
  · cases hf : m.file_mode with
    | true => exact hsize hf
    | false =>
      have := hall.room hf
      rw [hnr, hes] at this
      omega
  · obtain ⟨hidx, hwbuf⟩ := hall.empty b
    refine ⟨by rw [hidx]; exact List.nodup_nil, by simp [hidx], ?_⟩
    rw [Eraseblock.flushed, hidx, hwbuf]
    rfl
  · intro hn
    have hpos : 0 < m.pkts_per_block := by
      have := hfine.erasesize_pos
      change 0 < (m.erasesize+PKT_SIZE-1)/PKT_SIZE
      exact Nat.div_pos (by omega) (by decide)
    have hlen := (hplaced.block b hb).length
    rw [(hall.empty b).1, List.length_nil] at hlen
    omega

theorem recvLoop_holds (hfine : srv.Fine)
    (hsize : m.file_mode = true → srv.nr_blocks*srv.erasesize ≤ 2^32) {reads : List Read}
    (hgives : ∀ r ∈ reads, srv.Gives r) {st : Phase} (h : st.Sat (Holds srv m)) :
    (∀ st', recvLoop m st reads = .more st' → st'.Sat (Holds srv m)) ∧
      ∀ st', recvLoop m st reads = .left st' → ∃ s, st' = .receiving s ∧ Holds srv m s ∧
        s.Complete m := by
  refine recvLoop_inv ?_ ?_ ?_ h
  · rintro r hr rfl
    exact hgives _ hr
  · intro a flash s ha hrun
    exact start_holds hfine (hgives (.packet a) ha) hsize hrun
  · intro a s last s' ha hs hrun
    have hp : srv.Arrives a.pkt := hgives (.packet a) ha
    have hes : 0 < m.erasesize := hs.erasesize ▸ hfine.erasesize_pos
    obtain ⟨-, -, -, hd, -⟩ := arrives_spec hp
    refine ⟨admit_holds hs (hs.erasesize ▸ hfine.erasesize_mod) hes hp hrun, ?_⟩
    rintro rfl
    exact admit_complete hs.placed hes hd hrun

end Run

section Image

variable {srv : Server} {b : ℕ}

/-- A block of the image. -/
def Server.imageBlock (srv : Server) (b : ℕ) : List Byte :=
  (srv.image.drop (srv.erasesize*b)).take srv.erasesize

theorem Server.Fine.length (h : srv.Fine) : srv.image.length = srv.nr_blocks*srv.erasesize :=
  (Nat.div_mul_cancel (Nat.dvd_of_mod_eq_zero h.image_mod)).symm

/-- Up to 4 GiB the product of 32 bits is the offset of the block. -/
theorem blockOffset_eq (h : srv.Fine) (hsize : srv.nr_blocks*srv.erasesize ≤ 2^32)
    (hb : b < srv.nr_blocks) : srv.blockOffset b = srv.erasesize*b := by
  have := Nat.mul_lt_mul_of_pos_left hb h.erasesize_pos
  rw [Nat.mul_comm srv.erasesize srv.nr_blocks] at this
  exact Nat.mod_eq_of_lt (by omega)

theorem pktsPerBlock_bounds (srv : Server) : srv.erasesize ≤ PKT_SIZE*srv.pkts_per_block ∧
    PKT_SIZE*srv.pkts_per_block < srv.erasesize+PKT_SIZE := by
  unfold Server.pkts_per_block pktsPerBlock PKT_SIZE
  omega

theorem block_room (h : srv.Fine) (hb : b < srv.nr_blocks) :
    srv.erasesize*b+srv.erasesize ≤ srv.image.length := by
  rw [h.length, ← Nat.mul_succ, Nat.mul_comm srv.nr_blocks]
  exact Nat.mul_le_mul_left _ hb

/-- What the packets of a block are made of starts with the block. -/
theorem blockptr_take (h : srv.Fine) (hsize : srv.nr_blocks*srv.erasesize ≤ 2^32)
    (hb : b < srv.nr_blocks) : (srv.blockptr b).take srv.erasesize = srv.imageBlock b := by
  obtain ⟨hle, -⟩ := pktsPerBlock_bounds srv
  unfold Server.blockptr
  split
  next hlast =>
    have hlen : ((srv.image.drop (srv.blockOffset (srv.nr_blocks-1))).take srv.erasesize).length =
        srv.erasesize := by
      rw [← hlast, blockOffset_eq h hsize hb, List.length_take, List.length_drop]
      have := block_room h hb
      omega
    unfold Server.last_block
    rw [List.take_left' hlen, ← hlast, blockOffset_eq h hsize hb]
    rfl
  · rw [List.take_take, Nat.min_eq_left hle, blockOffset_eq h hsize hb]
    rfl

theorem blockptr_length (h : srv.Fine) (hsize : srv.nr_blocks*srv.erasesize ≤ 2^32)
    (hb : b < srv.nr_blocks) : (srv.blockptr b).length = PKT_SIZE*srv.pkts_per_block := by
  obtain ⟨hle, hlt⟩ := pktsPerBlock_bounds srv
  have hroom := block_room h hb
  unfold Server.blockptr
  split
  next hlast =>
    unfold Server.last_block
    rw [← hlast, blockOffset_eq h hsize hb, List.length_append, List.length_replicate,
      List.length_take, List.length_drop]
    omega
  next hlast =>
    -- the packets run on into the next block, which is larger than one of them
    have hnext := block_room h (b := b+1) (by omega)
    have hmod := h.erasesize_mod
    have hpos := h.erasesize_pos
    rw [Nat.mul_succ] at hnext
    rw [blockOffset_eq h hsize hb, List.length_take, List.length_drop]
    unfold PKT_SIZE WBUF_SIZE at *
    omega

theorem block_crc_eq (h : srv.Fine) (hsize : srv.nr_blocks*srv.erasesize ≤ 2^32)
    (hb : b < srv.nr_blocks) : srv.block_crc b = mtdCrc32 (-1) (srv.imageBlock b) := by
  unfold Server.block_crc
  rw [blockOffset_eq h hsize hb]
  rfl

/-- `fec_decode` gives the data of a block back from any sufficient number of its packets. -/
def Server.Recovers (srv : Server) (fec_decode : List ℕ → List Byte → Option (List Byte)) : Prop :=
  ∀ src is, src.length = PKT_SIZE*srv.pkts_per_block → is.Nodup → is.length = srv.pkts_per_block →
    (∀ i ∈ is, i < srv.total_pkts_per_block) →
    fec_decode is (is.map (srv.fec_encode src)).flatten = some src

end Image

section Deliver

variable {srv : Server} {m : Meminfo} {fec_decode : List ℕ → List Byte → Option (List Byte)}
  {envs : ℕ → BlockEnv} {b : ℕ}

variable (m) in
/-- The packets of a block can be read back, and its erase and its write succeed. -/
structure BlockEnv.Succeeds (env : BlockEnv) : Prop where
  read : env.read = true
  erase : env.erase = true
  write : ∃ t ts, env.tries = t :: ts ∧ m.erasesize ≤ t.written

/-- The whole buffers of a complete block are its eraseblock. -/
theorem flushed_complete {eb : Eraseblock} (hes : m.erasesize%WBUF_SIZE = 0)
    (hc : eb.pkt_indices.length = m.pkts_per_block) : eb.flushed = m.erasesize := by
  have h1 : m.erasesize ≤ m.pkts_per_block*PKT_SIZE ∧
      m.pkts_per_block*PKT_SIZE < m.erasesize+PKT_SIZE := by
    unfold Meminfo.pkts_per_block pktsPerBlock PKT_SIZE
    omega
  unfold Eraseblock.flushed
  rw [hc]
  unfold PKT_SIZE WBUF_SIZE at *
  omega

/-- The data of a complete block goes to the place of its packets. -/
theorem startOffset_home {eb : Eraseblock} (h : BlockPlaced m eb) (hes : m.erasesize%WBUF_SIZE = 0)
    (hc : eb.pkt_indices.length = m.pkts_per_block) : startOffset m eb = eb.home := by
  have hlt := m.erasesize_lt
  have hhome := h.home_lt
  unfold startOffset
  rw [h.offset, flushed_complete hes hc]
  omega

/-- A block whose write succeeds: the decoded data is at its place, and the rest is unchanged. -/
theorem finishBlock_writes {f : Final} {home : ℕ} {buf : List Byte}
    (hstart : startOffset m (f.eraseblocks b) = home) (henv : (envs b).Succeeds m)
    (hlt : home < 2^32)
    (hroom : m.file_mode = false → home%m.erasesize = 0 ∧ home+m.erasesize ≤ m.size)
    (hes : 0 < m.erasesize)
    (hdec : fec_decode (f.eraseblocks b).pkt_indices
      (readBytes f.flash home m.erasesize ++ (f.eraseblocks b).wbuf) = some buf)
    (hlen : (buf.take m.erasesize).length = m.erasesize)
    (hcrc : mtdCrc32 (-1) (buf.take m.erasesize) = (f.eraseblocks b).crc) :
    ∃ f', finishBlock m fec_decode envs b f = .ok f' ∧
      f'.eraseblocks = Function.update f.eraseblocks b ((f.eraseblocks b).withOffset home) ∧
      (∀ x, x < home ∨ home+m.erasesize ≤ x → f'.flash x = f.flash x) ∧
      readBytes f'.flash home m.erasesize = buf.take m.erasesize := by
  obtain ⟨t, ts, htries, ht⟩ := henv.write
  -- the write, from a flash that differs inside the eraseblock only
  have hwrite (g : Final) (hg : g.eraseblocks =
      Function.update f.eraseblocks b ((f.eraseblocks b).withOffset home))
      (hout : ∀ x, x < home ∨ home+m.erasesize ≤ x → g.flash x = f.flash x) :
      ∃ f', writeAgain m b (buf.take m.erasesize) (envs b).tries g = .ok f' ∧
        f'.eraseblocks = Function.update f.eraseblocks b ((f.eraseblocks b).withOffset home) ∧
        (∀ x, x < home ∨ home+m.erasesize ≤ x → f'.flash x = f.flash x) ∧
        readBytes f'.flash home m.erasesize = buf.take m.erasesize := by
    have hoff : (g.eraseblocks b).flash_offset = home := by
      rw [hg, Function.update_self]
      exact Nat.mod_eq_of_lt hlt
    have hst : m.stores home m.erasesize t.written = m.erasesize := by
      unfold Meminfo.stores
      split
      · omega
      next hf =>
        have := (hroom (Bool.eq_false_of_not_eq_true hf)).2
        omega
    rw [htries, writeAgain]
    dsimp only
    rw [hoff, hst, if_neg (lt_irrefl _), List.take_take, Nat.min_self]
    refine ⟨_, rfl, hg, fun x hx => ?_, readBytes_copyTo_of_length hlen⟩
    exact (copyTo_outside (by rw [hlen]; exact hx)).trans (hout x hx)
  have hread : (!(envs b).read) = false := by rw [henv.read]; rfl
  have hdec' : fec_decode (f.eraseblocks b).pkt_indices
      (readBytes (f.moveTo b home).flash home m.erasesize ++ (f.eraseblocks b).wbuf) = some buf :=
    hdec
  unfold finishBlock
  dsimp only
  rw [hstart, hread, hdec']
  dsimp only
  rw [if_neg (by decide), if_neg (not_not.mpr hcrc)]
  split
  · exact hwrite _ rfl fun _ _ => rfl
  next hf =>
    obtain ⟨hmod, hle⟩ := hroom (Bool.eq_false_of_not_eq_true hf)
    have herase : m.memErase (envs b).erase (f.moveTo b home).flash home =
        .ok (setTo f.flash home m.erasesize 0xff#8) := by
      unfold Meminfo.memErase
      rw [henv.erase, hmod, if_neg]
      · rfl
      · rw [not_or, not_or]
        exact ⟨by decide, fun h => h rfl, by omega⟩
    rw [herase]
    dsimp only
    refine hwrite _ rfl fun x hx => ?_
    rcases hx with hx | hx
    · exact setTo_below hx
    · exact setTo_above hx

/-- The blocks below `i` are the blocks of the image, and the others are still staged. -/
structure Delivered (srv : Server) (s : Recv) (i : ℕ) (f : Final) : Prop where
  done : ∀ b < i, (f.eraseblocks b).flash_offset = (s.eraseblocks b).home ∧
    readBytes f.flash (s.eraseblocks b).home srv.erasesize = srv.imageBlock b
  todo : ∀ b, i ≤ b → b < s.nr_blocks → f.eraseblocks b = s.eraseblocks b ∧
    readBytes f.flash (s.eraseblocks b).home srv.erasesize =
      readBytes s.flash (s.eraseblocks b).home srv.erasesize

/-- One complete block is decoded and written. -/
theorem finishBlock_delivered {s : Recv} {f : Final} (hfine : srv.Fine) (h : Holds srv m s)
    (hc : s.Complete m) (hrec : srv.Recovers fec_decode) (hb : b < s.nr_blocks)
    (henv : (envs b).Succeeds m) (hf : Delivered srv s b f) :
    ∃ f', finishBlock m fec_decode envs b f = .ok f' ∧ Delivered srv s (b+1) f' := by
  have hw : m.erasesize%WBUF_SIZE = 0 := h.erasesize ▸ hfine.erasesize_mod
  have hes : 0 < m.erasesize := h.erasesize ▸ hfine.erasesize_pos
  have hplaced := h.placed.block b hb
  have hbn : b < srv.nr_blocks := h.nr ▸ hb
  have hppb : m.pkts_per_block = srv.pkts_per_block := by
    unfold Meminfo.pkts_per_block Server.pkts_per_block
    rw [h.erasesize]
  have hflushed := flushed_complete hw (hc b hb)
  obtain ⟨hsame, hstaged⟩ := hf.todo b le_rfl hb
  have hbytes := (h.block b hb).bytes
  rw [hflushed] at hbytes
  have hdec : fec_decode (f.eraseblocks b).pkt_indices
      (readBytes f.flash (s.eraseblocks b).home m.erasesize ++ (f.eraseblocks b).wbuf) =
        some (srv.blockptr b) := by
    rw [hsame, h.erasesize, hstaged, ← h.erasesize, hbytes]
    exact hrec (srv.blockptr b) _ (blockptr_length hfine h.size hbn) (h.block b hb).nodup
      ((hc b hb).trans hppb) (h.block b hb).range
  have htake : (srv.blockptr b).take m.erasesize = srv.imageBlock b := by
    rw [h.erasesize]
    exact blockptr_take hfine h.size hbn
  have hcrc : mtdCrc32 (-1) ((srv.blockptr b).take m.erasesize) = (f.eraseblocks b).crc := by
    rw [htake, hsame, h.complete b hb, block_crc_eq hfine h.size hbn]
    have := hplaced.length
    have := hc b hb
    omega
  have hlen : ((srv.blockptr b).take m.erasesize).length = m.erasesize := by
    rw [List.length_take, blockptr_length hfine h.size hbn, h.erasesize]
    exact Nat.min_eq_left (pktsPerBlock_bounds srv).1
  obtain ⟨f', hrun, hblk, hout, hin⟩ := finishBlock_writes (f := f)
    (by rw [hsame]; exact startOffset_home hplaced hw (hc b hb)) henv hplaced.home_lt
    (fun hfm => ⟨hplaced.home_mod, by
      have := hplaced.top hfm (by omega)
      omega⟩) hes hdec hlen hcrc
  -- the eraseblocks of the others are as they were
  have hother (c : ℕ) (hcn : c < s.nr_blocks) (hcb : c ≠ b) :
      readBytes f'.flash (s.eraseblocks c).home srv.erasesize =
        readBytes f.flash (s.eraseblocks c).home srv.erasesize := by
    apply readBytes_congr
    intro i hi
    apply hout
    have := homes_apart h.placed hcn hb hcb
    have := h.erasesize
    omega
  refine ⟨f', hrun, fun c hcb => ?_, fun c hle hcn => ?_⟩
  · by_cases heq : c = b
    · subst heq
      rw [hblk, Function.update_self, ← h.erasesize, hin, htake]
      exact ⟨Nat.mod_eq_of_lt hplaced.home_lt, rfl⟩
    · rw [hblk, Function.update_of_ne heq, hother c (by omega) heq]
      exact hf.done c (by omega)
  · rw [hblk, Function.update_of_ne (by omega), hother c hcn (by omega)]
    exact hf.todo c (by omega) hcn

/-- The second part of `main` writes the image. -/
theorem finish_delivered {s : Recv} (hfine : srv.Fine) (h : Holds srv m s) (hc : s.Complete m)
    (hrec : srv.Recovers fec_decode) (henv : ∀ b < s.nr_blocks, (envs b).Succeeds m) :
    ∃ f, finish m fec_decode envs s = .ok f ∧ Delivered srv s s.nr_blocks f := by
  have := forRange_total (f := finishBlock m fec_decode envs) (P := Delivered srv s)
    (n := s.nr_blocks) (i := 0) (s := ⟨s.eraseblocks, s.mtdoffset, s.flash, []⟩)
    (fun j f _ hj hf => finishBlock_delivered hfine h hc hrec (by omega) (henv j (by omega)) hf)
    ⟨fun b hb => absurd hb (Nat.not_lt_zero b), fun _ _ _ => ⟨rfl, rfl⟩⟩
  rwa [Nat.zero_add] at this

end Deliver

/-- What is staged, in the terms of the offset of the block. -/
theorem holds_staged {srv : Server} {m : Meminfo} {s : Recv} (hfine : srv.Fine) (h : Holds srv m s)
    {b : ℕ} (hb : b < s.nr_blocks) : BlockStaged srv m s b := by
  have hplaced := h.placed.block b hb
  have hblock := h.block b hb
  refine ⟨hplaced.length, hblock.nodup, ?_⟩
  have hle := flushed_le hplaced (h.erasesize ▸ hfine.erasesize_mod)
  have hlt := m.erasesize_lt
  have hhome := hplaced.home_lt
  have hlen : ((s.eraseblocks b).flash_offset+2^32-(s.eraseblocks b).home)%2^32 =
      (s.eraseblocks b).flushed := by
    rw [hplaced.offset]
    omega
  unfold Recv.staged
  dsimp only
  rw [hlen]
  exact hblock.bytes

/-- For an image that fits 32 bits, which every image in flash does: in every state of the loop the
packets of each block are distinct and staged in their order, the loop is left with all blocks
complete, and then the image is written. -/
theorem recv_image_delivers (srv : Server) (hfine : srv.Fine) (m : Meminfo)
    (hsize : m.file_mode = true → srv.image.length ≤ 2^32) (flash : ℕ → Byte) (reads : List Read)
    (hgives : ∀ r ∈ reads, srv.Gives r) :
    (∀ st, recvLoop m (.waiting flash) reads = .more st →
      st.Sat fun s => s.nr_blocks = srv.nr_blocks ∧ ∀ b < s.nr_blocks, BlockStaged srv m s b) ∧
    ∀ st, recvLoop m (.waiting flash) reads = .left st →
      ∃ s, st = .receiving s ∧ s.nr_blocks = srv.nr_blocks ∧
        (∀ b < s.nr_blocks, BlockStaged srv m s b ∧
          (s.eraseblocks b).pkt_indices.length = m.pkts_per_block) ∧
        ∀ fec_decode, srv.Recovers fec_decode → ∀ envs, (∀ b < s.nr_blocks, (envs b).Succeeds m) →
          ∃ f, finish m fec_decode envs s = .ok f ∧ ∀ b < srv.nr_blocks,
            readBytes f.flash (f.eraseblocks b).flash_offset srv.erasesize = srv.imageBlock b := by
  obtain ⟨hmore, hleft⟩ := @recvLoop_holds _ m hfine
    (fun hf => hfine.length ▸ hsize hf) _ hgives (.waiting flash) trivial
  refine ⟨fun st hst => ?_, fun st hst => ?_⟩
  · have h := hmore st hst
    cases st with
    | waiting flash' => trivial
    | receiving s => exact ⟨h.nr, fun b hb => holds_staged hfine h hb⟩
  · obtain ⟨s, rfl, h, hc⟩ := hleft st hst
    refine ⟨s, rfl, h.nr, fun b hb => ⟨holds_staged hfine h hb, hc b hb⟩,
      fun fec_decode hrec envs henv => ?_⟩
    obtain ⟨f, hrun, hdone⟩ := finish_delivered hfine h hc hrec henv
    refine ⟨f, hrun, fun b hb => ?_⟩
    obtain ⟨hoff, hbytes⟩ := hdone.done b (h.nr ▸ hb)
    rw [hoff, hbytes]

section Parity

/-- The packets of the data, and one with the sum of them. -/
def chunk (src : List Byte) (i : ℕ) : List Byte := (src.drop (PKT_SIZE*i)).take PKT_SIZE

def parityEncode (k : ℕ) (src : List Byte) (i : ℕ) : List Byte :=
  if i < k then chunk src i
  else (List.range k).foldr (fun j acc => List.zipWith (· ^^^ ·) (chunk src j) acc)
    (List.replicate PKT_SIZE 0)

/-- The decoder for two packets of data. -/
def parityDecode (is : List ℕ) (buf : List Byte) : Option (List Byte) :=
  let p := buf.take PKT_SIZE
  let q := buf.drop PKT_SIZE
  let r := List.zipWith (· ^^^ ·) p q
  match is with
  | [0, 1] => some (p ++ q)
  | [1, 0] => some (q ++ p)
  | [0, 2] => some (p ++ r)
  | [2, 0] => some (q ++ r)
  | [1, 2] => some (r ++ p)
  | [2, 1] => some (r ++ q)
  | _ => none

theorem chunk_length {src : List Byte} {k i : ℕ} (hsrc : src.length = PKT_SIZE*k) (hi : i < k) :
    (chunk src i).length = PKT_SIZE := by
  have := Nat.mul_le_mul_left PKT_SIZE hi
  rw [Nat.mul_succ] at this
  unfold chunk
  rw [List.length_take, List.length_drop]
  omega

theorem parityEncode_length {src : List Byte} {k : ℕ} (hsrc : src.length = PKT_SIZE*k) (i : ℕ) :
    (parityEncode k src i).length = PKT_SIZE := by
  unfold parityEncode
  split
  next hi => exact chunk_length hsrc hi
  · have hall (js : List ℕ) (hjs : ∀ j ∈ js, j < k) :
        (js.foldr (fun j acc => List.zipWith (· ^^^ ·) (chunk src j) acc)
          (List.replicate PKT_SIZE 0)).length = PKT_SIZE := by
      induction js with
      | nil => exact List.length_replicate
      | cons j js ih =>
        rw [List.foldr_cons, List.length_zipWith, chunk_length hsrc (hjs j List.mem_cons_self),
          ih fun j hj => hjs j (List.mem_cons_of_mem _ hj), Nat.min_self]
    exact hall _ fun j hj => List.mem_range.mp hj

theorem zipWith_xor_cancel {p q : List Byte} (h : p.length = q.length) :
    List.zipWith (· ^^^ ·) p (List.zipWith (· ^^^ ·) p q) = q := by
  induction p generalizing q with
  | nil => rw [List.zipWith_nil_left, List.eq_nil_of_length_eq_zero h.symm]
  | cons x p ih =>
    cases q with
    | nil => cases h
    | cons y q =>
      rw [List.zipWith_cons_cons, List.zipWith_cons_cons, ih (Nat.succ.inj h), ← BitVec.xor_assoc,
        BitVec.xor_self, BitVec.zero_xor]

theorem zipWith_xor_comm (p q : List Byte) :
    List.zipWith (· ^^^ ·) p q = List.zipWith (· ^^^ ·) q p :=
  List.zipWith_comm_of_comm BitVec.xor_comm

theorem zipWith_xor_zero {p : List Byte} {n : ℕ} (h : p.length = n) :
    List.zipWith (· ^^^ ·) p (List.replicate n 0) = p := by
  subst h
  induction p with
  | nil => rfl
  | cons x p ih =>
    rw [List.length_cons, List.replicate_succ, List.zipWith_cons_cons, ih]
    exact congrArg (· :: p) (BitVec.xor_zero)

/-- Any two of the three packets are enough. -/
theorem parityDecode_parityEncode {src : List Byte} (hsrc : src.length = PKT_SIZE*2) {i j : ℕ}
    (hi : i < 3) (hj : j < 3) (hij : i ≠ j) :
    parityDecode [i, j] (parityEncode 2 src i ++ parityEncode 2 src j) = some src := by
  have hp := chunk_length hsrc (i := 0) (by decide)
  have hq := chunk_length hsrc (i := 1) (by decide)
  have hsplit : src = chunk src 0 ++ chunk src 1 := by
    unfold chunk
    rw [Nat.mul_zero, List.drop_zero, Nat.mul_one, List.take_of_length_le (l := src.drop PKT_SIZE)
      (by rw [List.length_drop]; omega), List.take_append_drop]
  have h0 : parityEncode 2 src 0 = chunk src 0 := if_pos (by decide)
  have h1 : parityEncode 2 src 1 = chunk src 1 := if_pos (by decide)
  have h2 : parityEncode 2 src 2 = List.zipWith (· ^^^ ·) (chunk src 0) (chunk src 1) := by
    unfold parityEncode
    rw [if_neg (by decide), show List.range 2 = [0, 1] from rfl, List.foldr_cons, List.foldr_cons,
      List.foldr_nil, zipWith_xor_zero hq]
  generalize chunk src 0 = p at *
  generalize chunk src 1 = q at *
  have hr : (List.zipWith (· ^^^ ·) p q).length = PKT_SIZE := by
    rw [List.length_zipWith, hp, hq, Nat.min_self]
  have hpr : List.zipWith (· ^^^ ·) p (List.zipWith (· ^^^ ·) p q) = q :=
    zipWith_xor_cancel (hp.trans hq.symm)
  have hqr : List.zipWith (· ^^^ ·) q (List.zipWith (· ^^^ ·) p q) = p := by
    rw [zipWith_xor_comm p q]
    exact zipWith_xor_cancel (hq.trans hp.symm)
  rw [congrArg some hsplit]
  obtain rfl | rfl | rfl : i = 0 ∨ i = 1 ∨ i = 2 := by omega
  all_goals obtain rfl | rfl | rfl : j = 0 ∨ j = 1 ∨ j = 2 := by omega
  all_goals first | exact absurd rfl hij | skip
  all_goals simp only [parityDecode, h0, h1, h2, List.take_left' hp, List.drop_left' hp,
    List.take_left' hq, List.drop_left' hq, List.take_left' hr, List.drop_left' hr, hpr, hqr]
  · rw [zipWith_xor_comm _ p, hpr]
  · rw [zipWith_xor_comm _ q, hqr]

end Parity

section Example

/-- The place of a packet in the cycle. -/
theorem packet_mem_cycle {srv : Server} {b i : ℕ} (hb : b < srv.nr_blocks)
    (hi : i < srv.total_pkts_per_block) : srv.packet b i ∈ srv.cycle := by
  have hinv : srv.actualpkt b (srv.actualpkt b i) = i := by
    unfold Server.actualpkt
    split <;> omega
  have hlt : srv.actualpkt b i < srv.total_pkts_per_block := by
    unfold Server.actualpkt
    split <;> omega
  unfold Server.cycle
  refine List.mem_flatMap.mpr ⟨srv.actualpkt b i, List.mem_range.mpr hlt, ?_⟩
  refine List.mem_map.mpr ⟨b, List.mem_range.mpr hb, ?_⟩
  rw [hinv]

theorem packet_arrives {srv : Server} (hfine : srv.Fine) {b i : ℕ} (hb : b < srv.nr_blocks)
    (hlen : (srv.blockptr b).length = PKT_SIZE*srv.pkts_per_block)
    (hi : i < srv.total_pkts_per_block) : srv.Arrives (srv.packet b i) :=
  ⟨srv.packet b i, packet_mem_cycle hb hi, srv.payload b i, rfl, hfine.payload _ _ hlen, .inl rfl⟩

/-- An image of two blocks of zeroes. -/
def zeroServer : Server := ⟨List.replicate 8192 0, 4096, parityEncode 2⟩

theorem zeroServer_length : zeroServer.image.length = 8192 := List.length_replicate

theorem zeroServer_fine : zeroServer.Fine where
  erasesize_pos := by decide
  erasesize_mod := by decide
  image_mod := by
    rw [zeroServer_length]
    decide
  payload src i hsrc := parityEncode_length (k := 2) hsrc i

theorem zeroServer_nr_blocks : zeroServer.nr_blocks = 2 := by
  unfold Server.nr_blocks
  rw [zeroServer_length]
  decide

theorem zeroServer_blockptr {b : ℕ} (hb : b < 2) :
    zeroServer.blockptr b = List.replicate (2*PKT_SIZE) 0 := by
  have himage : zeroServer.image = List.replicate 8192 0 := rfl
  have hes : zeroServer.erasesize = 4096 := rfl
  have hppb : zeroServer.pkts_per_block = 2 := by decide
  unfold Server.blockptr Server.last_block Server.blockOffset
  rw [zeroServer_nr_blocks, himage, hes, hppb]
  obtain rfl | rfl : b = 0 ∨ b = 1 := by omega
  · rw [if_neg (by decide), Nat.mul_zero, Nat.zero_mod, List.drop_zero, List.take_replicate]
    rfl
  · rw [if_pos rfl, List.drop_replicate, List.take_replicate, List.replicate_append_replicate]
    rfl

theorem zeroServer_payload {b : ℕ} (hb : b < 2) (i : ℕ) :
    zeroServer.payload b i = List.replicate PKT_SIZE 0 := by
  have hchunk (j : ℕ) (hj : j < 2) :
      chunk (List.replicate (2*PKT_SIZE) 0) j = List.replicate PKT_SIZE 0 := by
    unfold chunk
    rw [List.drop_replicate, List.take_replicate]
    obtain rfl | rfl : j = 0 ∨ j = 1 := by omega
    · rfl
    · rfl
  change parityEncode 2 (zeroServer.blockptr b) i = _
  rw [zeroServer_blockptr hb]
  unfold parityEncode
  split
  next hlt => exact hchunk i hlt
  · rw [show List.range 2 = [0, 1] from rfl, List.foldr_cons, List.foldr_cons, List.foldr_nil,
      hchunk 0 (by decide), hchunk 1 (by decide), zipWith_xor_zero List.length_replicate,
      zipWith_xor_zero List.length_replicate]

theorem zeroServer_packet {b : ℕ} (hb : b < 2) (i : ℕ) : zeroServer.packet b i =
    evenPacket (mtdCrc32 (-1) zeroServer.image) (List.replicate PKT_SIZE 0)
      (List.replicate (2*PKT_SIZE) 0) b i := by
  have himage : zeroServer.image = List.replicate 8192 0 := rfl
  have hes : zeroServer.erasesize = 4096 := rfl
  have hcrc : zeroServer.block_crc b =
      mtdCrc32 (-1) ((List.replicate (2*PKT_SIZE) (0 : Byte)).take 4096) := by
    unfold Server.block_crc Server.blockOffset
    rw [himage, hes, List.drop_replicate, List.take_replicate, List.take_replicate]
    obtain rfl | rfl : b = 0 ∨ b = 1 := by omega
    · rfl
    · rfl
  have htotal : zeroServer.total_pkts_per_block = 3 := by decide
  unfold Server.packet evenPacket
  rw [hcrc, zeroServer_payload hb i, zeroServer_nr_blocks, htotal, hes]

theorem zeroServer_gives : ∀ r ∈ evenReads (mtdCrc32 (-1) zeroServer.image)
    (List.replicate PKT_SIZE 0) (List.replicate (2*PKT_SIZE) 0), zeroServer.Gives r := by
  have harr {b i : ℕ} (hb : b < 2) (hi : i < 3) : zeroServer.Arrives
      (evenArrival (mtdCrc32 (-1) zeroServer.image) (List.replicate PKT_SIZE 0)
        (List.replicate (2*PKT_SIZE) 0) b i).pkt := by
    change zeroServer.Arrives (evenPacket _ _ _ b i)
    rw [← zeroServer_packet hb i]
    refine packet_arrives zeroServer_fine (by rw [zeroServer_nr_blocks]; exact hb) ?_ hi
    rw [zeroServer_blockptr hb, List.length_replicate]
    rfl
  intro r hr
  simp only [evenReads, List.mem_cons, List.not_mem_nil, or_false] at hr
  rcases hr with rfl | rfl | rfl | rfl
  · exact harr (by decide) (by decide)
  · exact harr (by decide) (by decide)
  · exact harr (by decide) (by decide)
  · exact harr (by decide) (by decide)

theorem zeroServer_recovers : zeroServer.Recovers parityDecode := by
  intro src is hsrc hnodup hlen hlt
  have hppb : zeroServer.pkts_per_block = 2 := by decide
  have htotal : zeroServer.total_pkts_per_block = 3 := by decide
  rw [hppb] at hsrc hlen
  rw [htotal] at hlt
  obtain ⟨i, j, rfl⟩ := List.length_eq_two.mp hlen
  have hij : i ≠ j := by
    rintro rfl
    simp at hnodup
  have hbuf : ([i, j].map (zeroServer.fec_encode src)).flatten =
      parityEncode 2 src i ++ parityEncode 2 src j := by
    rw [List.map_cons, List.map_cons, List.map_nil, List.flatten_cons, List.flatten_cons,
      List.flatten_nil, List.append_nil]
    rfl
  rw [hbuf]
  exact parityDecode_parityEncode hsrc (hlt i List.mem_cons_self)
    (hlt j (List.mem_cons_of_mem _ List.mem_cons_self)) hij

end Example

/-- The four packets of the example come to the flash, and the image is written. -/
theorem recv_image_delivers_zeroes : ∃ s f,
    recvLoop smallFlash (.waiting fun _ => 0xff#8) (evenReads (mtdCrc32 (-1) zeroServer.image)
      (List.replicate PKT_SIZE 0) (List.replicate (2*PKT_SIZE) 0)) = .left (.receiving s) ∧
    finish smallFlash parityDecode (evenEnv fun _ => false) s = .ok f ∧
    ∀ b < 2, readBytes f.flash (f.eraseblocks b).flash_offset 4096 = zeroServer.imageBlock b := by
  obtain ⟨s, hrun, -⟩ := @even_received (mtdCrc32 (-1) zeroServer.image) _
    (List.replicate (2*PKT_SIZE) 0) (List.length_replicate (n := PKT_SIZE) (a := 0#8))
    (fun _ => 0xff#8)
  obtain ⟨s', hs', -, -, hfinish⟩ := (recv_image_delivers zeroServer zeroServer_fine smallFlash
    (fun hf => by cases hf) (fun _ => 0xff#8) _ zeroServer_gives).2 _ hrun
  obtain rfl := Phase.receiving.inj hs'
  obtain ⟨f, hf, hblocks⟩ := hfinish parityDecode zeroServer_recovers (evenEnv fun _ => false)
    fun b _ => ⟨rfl, rfl, ⟨4096, true⟩, [], rfl, le_rfl⟩
  rw [zeroServer_nr_blocks] at hblocks
  exact ⟨s, f, hrun, hf, hblocks⟩

section Large

variable {m : Meminfo}

/-- A block after its first two packets. -/
def afterTwo (home : ℕ) (a₀ a₁ : Arrival) : Eraseblock :=
  ((((Eraseblock.fresh 0 home).count a₀.pkt.pkt_nr).buffer a₀.pkt.data).count a₁.pkt.pkt_nr).flush
    (a₁.pkt.data.drop (WBUF_SIZE-PKT_SIZE))

/-- The first two packets of a block fill its buffer. -/
theorem recvLoop_two {s : Recv} {b home : ℕ} {a₀ a₁ : Arrival} (h₀ : a₀.pkt.block_nr = b)
    (h₁ : a₁.pkt.block_nr = b) (hint : b < 2^31) (hb : b < s.nr_blocks) (heb : s.eraseblocks b = .fresh 0 home)
    (hppb : 2 < m.pkts_per_block) (hne : a₁.pkt.pkt_nr ≠ a₀.pkt.pkt_nr)
    (hc₀ : s.image_crc = a₀.pkt.totcrc) (hc₁ : s.image_crc = a₁.pkt.totcrc)
    (hd₀ : a₀.pkt.data.length = PKT_SIZE)
    (ht₀ : mtdCrc32 (-1) a₀.pkt.data = a₀.pkt.thiscrc)
    (ht₁ : mtdCrc32 (-1) a₁.pkt.data = a₁.pkt.thiscrc)
    (hst : m.stores (home%2^32) WBUF_SIZE a₁.written = WBUF_SIZE) (reads : List Read) :
    ∃ s', s'.nr_blocks = s.nr_blocks ∧ s'.image_crc = s.image_crc ∧
      s'.eraseblocks = Function.update s.eraseblocks b (afterTwo home a₀ a₁) ∧
      s'.flash = copyTo s.flash (home%2^32)
        (a₀.pkt.data ++ a₁.pkt.data.take (WBUF_SIZE-PKT_SIZE)) ∧
      recvLoop m (.receiving s) (.packet a₀ :: .packet a₁ :: reads) =
        recvLoop m (.receiving s') reads := by
  subst h₀
  have hpos : 0 < m.pkts_per_block := by omega
  let eb₁ := ((Eraseblock.fresh 0 home).count a₀.pkt.pkt_nr).buffer a₀.pkt.data
  let s₁ := (s.withTotal (s.total_pkts+1)).update a₀.pkt.block_nr eb₁
  have heb₁ : s₁.eraseblocks a₁.pkt.block_nr = eb₁ := by
    rw [h₁]
    exact Function.update_self _ _ _
  have hnr₁ : eb₁.nr_pkts = 1 := rfl
  have hlen : eb₁.wbuf.length = PKT_SIZE := hd₀
  have hset (p : Packet) (t : Recv) (h : (t.eraseblocks p.block_nr).nr_pkts < m.pkts_per_block) :
      settle m p t = (false, t) := by
    unfold settle
    rw [if_neg (by omega)]
  have hadmit₀ : admitPkt m s a₀ = .ok (false, s₁) := by
    rw [admit_take hc₀ hint hb heb List.not_mem_nil hpos ht₀
      (pktAgain_buffer heb (by rw [Eraseblock.fresh_wbuf]; decide))]
    rw [hset]
    change (Function.update s.eraseblocks _ _ _).nr_pkts < _
    rw [Function.update_self]
    change 1 < m.pkts_per_block
    omega
  have hagain := pktAgain_flush (m := m) (s := s₁) (a := a₁) heb₁
    (by rw [hlen]; decide) (by rw [hlen]; decide) hst
  have hadmit₁ := admit_take (m := m) (s := s₁) (a := a₁) hc₁ (by rwa [h₁])
    (by rw [h₁]; exact hb) heb₁ (by simpa [eb₁] using hne) (by rw [hnr₁]; omega) ht₁ hagain
  rw [hlen, h₁, hset _ _ (by
    rw [h₁]
    change (Function.update s₁.eraseblocks _ _ _).nr_pkts < _
    rw [Function.update_self]
    exact hppb)] at hadmit₁
  refine ⟨((s₁.withTotal (s₁.total_pkts+1)).withFlash (copyTo s₁.flash eb₁.flash_offset
    (eb₁.wbuf ++ a₁.pkt.data.take (WBUF_SIZE-PKT_SIZE)))).update a₀.pkt.block_nr
      ((eb₁.count a₁.pkt.pkt_nr).flush (a₁.pkt.data.drop (WBUF_SIZE-PKT_SIZE))),
    rfl, rfl, ?_, rfl, ?_⟩
  rotate_left
  · rw [recvLoop, show begin m (.receiving s) a₀.pkt = .ok s from rfl]
    dsimp only
    rw [hadmit₀]
    dsimp only
    rw [recvLoop, show begin m (.receiving s₁) a₁.pkt = .ok s₁ from rfl]
    dsimp only
    rw [hadmit₁]
  · change Function.update (Function.update s.eraseblocks _ _) _ _ = _
    rw [Function.update_idem]
    rfl

/-- In a file the blocks are side by side, but for the 32 bits of their offsets. -/
theorem start_file {flash : ℕ → Byte} {p : Packet} (hf : m.file_mode = true)
    (hes : m.erasesize = p.blocksize) (hint : p.nr_blocks < 2^31) :
    ∃ s, start m flash p = .ok s ∧ s.nr_blocks = p.nr_blocks ∧ s.image_crc = p.totcrc ∧
      ∀ b < p.nr_blocks, s.eraseblocks b = .fresh 0 (b*m.erasesize) := by
  have h := forRange_total (f := allocate m) (n := p.nr_blocks) (i := 0)
    (s := ⟨p.totcrc, p.nr_blocks, fun _ => .fresh 0 0, 0, 0, flash⟩)
    (P := fun i s => s.nr_blocks = p.nr_blocks ∧ s.image_crc = p.totcrc ∧
      s.mtdoffset = i*m.erasesize ∧ ∀ b < i, s.eraseblocks b = .fresh 0 (b*m.erasesize))
    (fun i t _ _ ht => by
      obtain ⟨h1, h2, h3, h4⟩ := ht
      refine ⟨(t.update i (.fresh 0 t.mtdoffset)).withCursor (t.mtdoffset+m.erasesize), ?_, h1, h2,
        ?_, fun b hb => ?_⟩
      · unfold allocate
        rw [if_pos hf]
      · change t.mtdoffset+m.erasesize = _
        rw [h3, Nat.succ_mul]
      · change Function.update t.eraseblocks i _ b = _
        by_cases hbi : b = i
        · subst hbi
          rw [Function.update_self, h3]
        · rw [Function.update_of_ne hbi]
          exact h4 b (by omega))
    ⟨rfl, rfl, (Nat.zero_mul _).symm, fun b hb => absurd hb (Nat.not_lt_zero b)⟩
  obtain ⟨s, hrun, h1, h2, -, h4⟩ := h
  rw [Nat.zero_add] at h4
  refine ⟨s, ?_, h1, h2, h4⟩
  unfold start
  rw [if_neg (not_not.mpr hes), if_neg (Nat.not_le.mpr hint)]
  exact hrun

/-- A server with blocks of 128 KiB, and a file for its image. -/
def largeServer (image : List Byte) : Server := ⟨image, 131072, parityEncode 47⟩

def largeFile : Meminfo := ⟨true, 131072, 0, fun _ => false, by decide, by decide, by decide⟩

/-- A packet of it that is read, and the write after it succeeds. -/
def largeArrival (image : List Byte) (b i : ℕ) : Arrival :=
  ⟨(largeServer image).packet b i, false, WBUF_SIZE, true⟩

/-- Two packets of the first block and two of the block behind 4 GiB. -/
def largeReads (image : List Byte) : List Read :=
  [.packet (largeArrival image 0 0), .packet (largeArrival image 0 1),
    .packet (largeArrival image 32768 2), .packet (largeArrival image 32768 3)]

variable {image : List Byte}

theorem large_ppb (image : List Byte) : (largeServer image).pkts_per_block = 47 :=
  (by decide : pktsPerBlock 131072 = 47)

theorem large_nr_blocks (hlen : image.length = 2^32+131072) :
    (largeServer image).nr_blocks = 32769 := by
  change image.length/131072 = 32769
  omega

theorem large_fine (hlen : image.length = 2^32+131072) : (largeServer image).Fine where
  erasesize_pos := (by decide : 0 < 131072)
  erasesize_mod := (by decide : 131072%WBUF_SIZE = 0)
  image_mod := by
    change image.length%131072 = 0
    omega
  payload src i hsrc := parityEncode_length (k := 47) (by rwa [large_ppb] at hsrc) i

/-- The first block and the last one are sent from the start of the image. -/
theorem large_blockptr (hlen : image.length = 2^32+131072) {b : ℕ} (hb : b = 0 ∨ b = 32768) :
    ∃ rest, (largeServer image).blockptr b = image.take 131072 ++ rest ∧
      ((largeServer image).blockptr b).length = PKT_SIZE*47 := by
  have hes : (largeServer image).erasesize = 131072 := rfl
  have himage : (largeServer image).image = image := rfl
  have hl : (image.take 131072).length = 131072 := by
    rw [List.length_take, hlen]
    decide
  unfold Server.blockptr Server.last_block Server.blockOffset
  rw [large_nr_blocks hlen, large_ppb, hes, himage]
  rcases hb with rfl | rfl
  · refine ⟨(image.take (PKT_SIZE*47)).drop 131072, ?_, ?_⟩
    · have hsplit := List.take_append_drop 131072 (image.take (PKT_SIZE*47))
      rw [List.take_take, show min 131072 (PKT_SIZE*47) = 131072 by decide] at hsplit
      rw [if_neg (by decide), Nat.mul_zero, Nat.zero_mod, List.drop_zero, hsplit]
    · rw [if_neg (by decide), Nat.mul_zero, Nat.zero_mod, List.drop_zero, List.length_take, hlen]
      decide
  · rw [if_pos (by decide), show 131072*(32769-1)%2^32 = 0 by decide, List.drop_zero]
    refine ⟨List.replicate (PKT_SIZE*47-131072) 0, rfl, ?_⟩
    rw [List.length_append, hl, List.length_replicate]
    decide

/-- The packets of data of these blocks start with the bytes of the image. -/
theorem large_payload (hlen : image.length = 2^32+131072) {b i : ℕ} (hb : b = 0 ∨ b = 32768)
    (hi : i < 46) : ((largeServer image).payload b i)[0]? = image[PKT_SIZE*i]? ∧
      ((largeServer image).payload b i).length = PKT_SIZE := by
  obtain ⟨rest, hptr, hplen⟩ := large_blockptr hlen hb
  have hpay : (largeServer image).payload b i = chunk ((largeServer image).blockptr b) i :=
    if_pos (show i < 47 by omega)
  rw [hpay]
  refine ⟨?_, chunk_length hplen (by omega)⟩
  have hlt : PKT_SIZE*i < 131072 := by
    unfold PKT_SIZE
    omega
  rw [hptr]
  unfold chunk
  rw [List.getElem?_take_of_lt (by decide), List.getElem?_drop, Nat.add_zero,
    List.getElem?_append_left (by rw [List.length_take, hlen]; omega),
    List.getElem?_take_of_lt hlt]

theorem large_arrives (hlen : image.length = 2^32+131072) {b i : ℕ} (hb : b = 0 ∨ b = 32768)
    (hi : i < 46) : (largeServer image).Arrives (largeArrival image b i).pkt := by
  have hbn : b < (largeServer image).nr_blocks := by
    rw [large_nr_blocks hlen]
    omega
  obtain ⟨-, -, hplen⟩ := large_blockptr hlen hb
  have htotal : (largeServer image).total_pkts_per_block = 70 :=
    (by decide : pktsPerBlock 131072*3/2 = 70)
  exact packet_arrives (large_fine hlen) hbn (by rw [large_ppb]; exact hplen) (by omega)

/-- The block behind 4 GiB is staged over the first one. -/
theorem large_overwritten (hlen : image.length = 2^32+131072)
    (hbyte : image[0]? ≠ image[PKT_SIZE*2]?) (flash : ℕ → Byte) :
    ∃ s, recvLoop largeFile (.waiting flash) (largeReads image) = .more (.receiving s) ∧
      0 < s.nr_blocks ∧ ¬BlockStaged (largeServer image) largeFile s 0 := by
  have hnr : ((largeServer image).packet 0 0).nr_blocks = 32769 := large_nr_blocks hlen
  have hstores (offset : ℕ) : largeFile.stores offset WBUF_SIZE WBUF_SIZE = WBUF_SIZE := by
    unfold Meminfo.stores
    rw [show largeFile.file_mode = true from rfl, if_pos rfl, Nat.min_self]
  have hppb : 2 < largeFile.pkts_per_block := by decide
  obtain ⟨h00, hl00⟩ := large_payload hlen (b := 0) (i := 0) (.inl rfl) (by decide)
  obtain ⟨-, hl01⟩ := large_payload hlen (b := 0) (i := 1) (.inl rfl) (by decide)
  obtain ⟨h22, hl22⟩ := large_payload hlen (b := 32768) (i := 2) (.inr rfl) (by decide)
  obtain ⟨-, hl23⟩ := large_payload hlen (b := 32768) (i := 3) (.inr rfl) (by decide)
  obtain ⟨s₀, hstart, hnr₀, hcrc₀, hblk₀⟩ := @start_file largeFile flash
    ((largeServer image).packet 0 0) rfl rfl (by rw [hnr]; decide)
  rw [hnr] at hnr₀ hblk₀
  obtain ⟨s₁, hnr₁, hcrc₁, hblk₁, -, hrun₁⟩ := @recvLoop_two largeFile s₀
    0 _ (largeArrival image 0 0) (largeArrival image 0 1) rfl rfl (by decide)
    (by rw [hnr₀]; exact (by decide : 0 < 32769)) (hblk₀ 0 (by decide)) hppb
    (by decide : 1 ≠ 0) hcrc₀ hcrc₀ hl00 rfl rfl
    (hstores _) [.packet (largeArrival image 32768 2), .packet (largeArrival image 32768 3)]
  have hlast : s₁.eraseblocks 32768 = .fresh 0 (32768*131072) := by
    rw [hblk₁, Function.update_of_ne (by decide : 32768 ≠ 0)]
    exact hblk₀ 32768 (by decide)
  obtain ⟨s₂, hnr₂, -, hblk₂, hflash₂, hrun₂⟩ := @recvLoop_two largeFile s₁
    32768 _ (largeArrival image 32768 2) (largeArrival image 32768 3) rfl rfl (by decide)
    (by rw [hnr₁, hnr₀]; exact (by decide : 32768 < 32769)) hlast hppb (by decide : 3 ≠ 2)
    (hcrc₁.trans hcrc₀) (hcrc₁.trans hcrc₀)
    hl22 rfl rfl (hstores _) []
  refine ⟨s₂, ?_, by rw [hnr₂, hnr₁, hnr₀]; decide, fun hst => ?_⟩
  · unfold largeReads
    rw [recvLoop_start (a := largeArrival image 0 0) hstart, hrun₁, hrun₂]
    rfl
  · have heb : s₂.eraseblocks 0 =
        afterTwo (0*131072) (largeArrival image 0 0) (largeArrival image 0 1) := by
      rw [hblk₂, Function.update_of_ne (by decide), hblk₁, Function.update_self]
      rfl
    have hbytes := hst.bytes
    unfold Recv.staged at hbytes
    dsimp only at hbytes
    rw [heb, hflash₂] at hbytes
    have hhome : (afterTwo (0*131072) (largeArrival image 0 0) (largeArrival image 0 1)).home =
        0 := rfl
    have hoff : (afterTwo (0*131072) (largeArrival image 0 0)
        (largeArrival image 0 1)).flash_offset = WBUF_SIZE := by
      unfold afterTwo
      rw [Eraseblock.flush_flash_offset, Eraseblock.advance_eq, Eraseblock.count_flash_offset,
        Eraseblock.buffer_flash_offset, Eraseblock.count_flash_offset,
        Eraseblock.fresh_flash_offset]
      decide
    have hidx : (afterTwo (0*131072) (largeArrival image 0 0)
        (largeArrival image 0 1)).pkt_indices = [0, 1] := rfl
    have hzero : 32768*131072%2^32 = 0 := by decide
    have hlenpage : ((largeArrival image 32768 2).pkt.data ++
        (largeArrival image 32768 3).pkt.data.take (WBUF_SIZE-PKT_SIZE)).length = WBUF_SIZE := by
      rw [List.length_append, List.length_take]
      change ((largeServer image).payload 32768 2).length+
        min _ ((largeServer image).payload 32768 3).length = _
      rw [hl22, hl23]
      decide
    rw [hhome, hoff, hidx, hzero, show (WBUF_SIZE+2^32-0)%2^32 = WBUF_SIZE by decide,
      readBytes_copyTo_of_length hlenpage] at hbytes
    -- the first byte is that of the other block
    have hfirst := congrArg (·[0]?) hbytes
    simp only [List.map_cons, List.flatten_cons, List.append_assoc] at hfirst
    rw [List.getElem?_append_left (by
        change 0 < ((largeServer image).payload 32768 2).length
        rw [hl22]
        decide),
      List.getElem?_append_left (by rw [hl00]; decide), h00] at hfirst
    change ((largeServer image).payload 32768 2)[0]? = _ at hfirst
    rw [h22] at hfirst
    exact hbyte hfirst.symm

end Large

/-- An image of 4 GiB and one more block, its first packet being of ones. -/
def largeImage : List Byte :=
  List.replicate PKT_SIZE 1 ++ List.replicate (2^32+131072-PKT_SIZE) 0

theorem largeImage_length : largeImage.length = 2^32+131072 := by
  unfold largeImage
  rw [List.length_append, List.length_replicate, List.length_replicate]
  decide

/-- Two blocks of an image that is larger than 4 GiB have one place in the file. -/
theorem recv_image_overwrites : (largeServer largeImage).Fine ∧ largeFile.file_mode = true ∧
    (∀ r ∈ largeReads largeImage, (largeServer largeImage).Gives r) ∧
    ∃ s, recvLoop largeFile (.waiting fun _ => 0xff#8) (largeReads largeImage) =
        .more (.receiving s) ∧
      0 < s.nr_blocks ∧ ¬BlockStaged (largeServer largeImage) largeFile s 0 := by
  have hlen := largeImage_length
  have hbyte : largeImage[0]? ≠ largeImage[PKT_SIZE*2]? := by
    unfold largeImage
    rw [List.getElem?_append_left (by rw [List.length_replicate]; decide),
      List.getElem?_append_right (by rw [List.length_replicate]; decide),
      List.getElem?_replicate, List.getElem?_replicate, List.length_replicate]
    decide
  refine ⟨large_fine hlen, rfl, ?_, large_overwritten hlen hbyte _⟩
  intro r hr
  simp only [largeReads, List.mem_cons, List.not_mem_nil, or_false] at hr
  rcases hr with rfl | rfl | rfl | rfl
  · exact large_arrives hlen (.inl rfl) (by decide)
  · exact large_arrives hlen (.inl rfl) (by decide)
  · exact large_arrives hlen (.inr rfl) (by decide)
  · exact large_arrives hlen (.inr rfl) (by decide)

end ChipTools.Mcast
