import ChipTools.McastPlacement

/-! `recv_image`: the array `pkt_indices` of a block. Its counter goes on where there are more packets
than places, and the search for duplicates follows the counter. -/
namespace ChipTools.Mcast
open Loop

section Checked

variable (m : Meminfo)

/-- The loop that looks for a packet among those of its block, at the place `i` with `n` places to go.
There is no result when it reads outside of the `cap` places of the array. -/
def search (cap : ℕ) (pkt_indices : List ℕ) (pkt_nr : ℕ) : ℕ → ℕ → Option Bool
  | 0, _ => some false
  | n+1, i =>
    if i < cap then
      if pkt_indices[i]? = some pkt_nr then some true else search cap pkt_indices pkt_nr n (i+1)
    else none

/-- The places that a packet is put to. Where the block is started again, it is the first packet
there. -/
def places (s : Recv) (a : Arrival) : List ℕ :=
  let eb := s.eraseblocks a.pkt.block_nr
  match pktAgain m s a with
  | .error _ => [eb.nr_pkts]
  | .ok _ =>
    if WBUF_SIZE ≤ eb.wbuf.length+PKT_SIZE ∧ m.stores eb.flash_offset WBUF_SIZE a.written < WBUF_SIZE
    then [eb.nr_pkts, 0] else [eb.nr_pkts]

/-- A pass of the loop for one packet, with no result when it accesses the array outside of its
places, or takes an array for one that is none. -/
def checkedPkt (s : Recv) (a : Arrival) : Option (Except Exit (Bool × Recv)) :=
  let p := a.pkt
  if s.image_crc ≠ p.totcrc then some (.error .imageCrcChanged)
  else if 2^31 ≤ p.block_nr then none
  else if s.nr_blocks ≤ p.block_nr then some (.error .erroneousBlock)
  else
    let eb := s.eraseblocks p.block_nr
    match search m.pkts_per_block eb.pkt_indices p.pkt_nr eb.nr_pkts 0 with
    | none => none
    | some true => some (.ok (false, s))
    | some false =>
      if m.pkts_per_block ≤ eb.nr_pkts then some (.ok (false, s.update p.block_nr eb.extra))
      else if mtdCrc32 (-1) p.data ≠ p.thiscrc then some (.ok (false, s))
      else if (places m s a).all (· < m.pkts_per_block) then
        match pktAgain m s a with
        | .error e => some (.error e)
        | .ok s => some (.ok (settle m p s))
      else none

/-- The receive loop with each access to the array checked. -/
def checkedLoop : Phase → List Read → Option Result
  | st, [] => some (.more st)
  | st, .error :: _ => some (.left st)
  | st, .short :: reads => checkedLoop st reads
  | st, .packet a :: reads =>
    match begin m st a.pkt with
    | .error e => some (.exit e)
    | .ok s =>
      match checkedPkt m s a with
      | none => none
      | some (.error e) => some (.exit e)
      | some (.ok (true, s)) => some (.left (.receiving s))
      | some (.ok (false, s)) => checkedLoop (.receiving s) reads

/-- Before the pass for a packet: the number of its block is not negative as an `int`, and the block
got no more packets than it has places, or the packet is one of those in their places. -/
def Searchable (s : Recv) (a : Arrival) : Prop :=
  s.image_crc = a.pkt.totcrc → a.pkt.block_nr < 2^31 ∧ (a.pkt.block_nr < s.nr_blocks →
    (s.eraseblocks a.pkt.block_nr).nr_pkts ≤ m.pkts_per_block ∨
      a.pkt.pkt_nr ∈ (s.eraseblocks a.pkt.block_nr).pkt_indices)

/-- Each pass of a run finds its block so. -/
def AllSearchable : Phase → List Read → Prop
  | _, [] => True
  | _, .error :: _ => True
  | st, .short :: reads => AllSearchable st reads
  | st, .packet a :: reads => ∀ s, begin m st a.pkt = .ok s →
    Searchable m s a ∧ ∀ s', admitPkt m s a = .ok (false, s') → AllSearchable (.receiving s') reads

end Checked

section Search

variable {cap pkt_nr : ℕ} {pkt_indices : List ℕ}

/-- The search over the counted packets, of which those up to `cap` are in the array. -/
theorem search_eq {n i : ℕ} (hlen : pkt_indices.length = min (i+n) cap) (hi : i ≤ cap)
    (hseen : pkt_nr ∉ pkt_indices.take i) : search cap pkt_indices pkt_nr n i =
      if pkt_nr ∈ pkt_indices then some true else if i+n ≤ cap then some false else none := by
  induction n generalizing i with
  | zero =>
    have hall : pkt_indices.take i = pkt_indices := List.take_of_length_le (by omega)
    rw [hall] at hseen
    rw [search, if_neg hseen, Nat.add_zero, if_pos hi]
  | succ n ih =>
    rw [search]
    by_cases hlt : i < cap
    · have hin : i < pkt_indices.length := by omega
      rw [if_pos hlt, List.getElem?_eq_getElem hin]
      by_cases heq : pkt_indices[i] = pkt_nr
      · rw [if_pos (congrArg some heq), if_pos]
        rw [← heq]
        exact List.getElem_mem hin
      · rw [if_neg fun h => heq (Option.some.inj h), ih (by omega) hlt, Nat.succ_add_eq_add_succ]
        rw [List.take_succ_eq_append_getElem hin, List.mem_append, List.mem_singleton]
        rintro (h | h)
        · exact hseen h
        · exact heq h.symm
    · -- the array ends in front of the counter
      have hall : pkt_indices.take i = pkt_indices := List.take_of_length_le (by omega)
      rw [hall] at hseen
      rw [if_neg hlt, if_neg hseen, if_neg (by omega)]

end Search

section Counted

variable {m : Meminfo} {s s' : Recv} {a : Arrival} {b : ℕ} {eb : Eraseblock}

/-- The array of each block holds the indices of the packets up to its places. -/
def Counted (m : Meminfo) (s : Recv) : Prop :=
  ∀ b, (s.eraseblocks b).pkt_indices.length = min (s.eraseblocks b).nr_pkts m.pkts_per_block

theorem Counted.update (h : Counted m s)
    (heb : eb.pkt_indices.length = min eb.nr_pkts m.pkts_per_block) : Counted m (s.update b eb) := by
  intro c
  by_cases hc : c = b
  · subst hc
    change (Function.update s.eraseblocks c eb c).pkt_indices.length =
      min (Function.update s.eraseblocks c eb c).nr_pkts m.pkts_per_block
    rwa [Function.update_self]
  · change (Function.update s.eraseblocks b eb c).pkt_indices.length =
      min (Function.update s.eraseblocks b eb c).nr_pkts m.pkts_per_block
    rw [Function.update_of_ne hc]
    exact h c

theorem allocate_counted {i : ℕ} (h : Counted m s) (hrun : allocate m i s = .ok s') :
    Counted m s' := by
  have hfresh (offset : ℕ) : Counted m (s.update i (.fresh 0 offset)) :=
    h.update (Nat.zero_min _).symm
  unfold allocate at hrun
  split at hrun
  · obtain rfl := Except.ok.inj hrun
    exact hfresh _
  · split at hrun
    · cases hrun
    · obtain rfl := Except.ok.inj hrun
      exact hfresh _

theorem start_counted {flash : ℕ → Bytes.Byte} {p : Packet} (hrun : start m flash p = .ok s) :
    Counted m s := by
  unfold start at hrun
  split at hrun
  · cases hrun
  split at hrun
  · cases hrun
  · refine forRange_inv (P := fun _ => Counted m) (fun j t t' _ _ ht hstep =>
      allocate_counted ht hstep) ?_ hrun
    exact fun b => (Nat.zero_min _).symm

theorem pktAgain_counted (h : Counted m s)
    (hn : (s.eraseblocks a.pkt.block_nr).nr_pkts < m.pkts_per_block)
    (hrun : pktAgain m s a = .ok s') : Counted m s' := by
  have hb := h a.pkt.block_nr
  generalize heb : s.eraseblocks a.pkt.block_nr = eb at hb hn
  have hcount : (eb.pkt_indices ++ [a.pkt.pkt_nr]).length = min (eb.nr_pkts+1) m.pkts_per_block := by
    rw [List.length_append, List.length_singleton]
    omega
  unfold pktAgain at hrun
  dsimp only at hrun
  rw [heb] at hrun
  split at hrun
  · obtain rfl := Except.ok.inj hrun
    exact Counted.update (s := s.withTotal _) h hcount
  · split at hrun
    · split at hrun
      · cases hrun
      · -- the block starts again with the one packet
        unfold relocate at hrun
        obtain ⟨flash, -, hrun⟩ := bind_eq_ok hrun
        obtain ⟨offset, -, hrun⟩ := bind_eq_ok hrun
        obtain rfl := Except.ok.inj hrun
        exact Counted.update (s := s) h (by
          change 1 = min 1 m.pkts_per_block
          omega)
    · obtain rfl := Except.ok.inj hrun
      exact Counted.update (s := s.withTotal _) h hcount

theorem settle_counted (h : Counted m s) (p : Packet) : Counted m (settle m p s).2 := by
  unfold settle
  dsimp only
  split
  · exact h.update (h p.block_nr)
  · exact h

theorem admit_counted (h : Counted m s) {last : Bool} (hrun : admitPkt m s a = .ok (last, s')) :
    Counted m s' := by
  obtain ⟨-, -, ⟨-, rfl⟩ | ⟨-, hn, rfl⟩ | ⟨-, hn, -, s₁, h₁, h₂⟩⟩ := admit_cases hrun
  · exact h
  · -- only the counter goes on
    apply h.update
    have := h a.pkt.block_nr
    change (s.eraseblocks a.pkt.block_nr).pkt_indices.length =
      min ((s.eraseblocks a.pkt.block_nr).nr_pkts+1) m.pkts_per_block
    omega
  · have hset := settle_counted (pktAgain_counted h hn h₁) a.pkt
    rwa [h₂] at hset

end Counted

section Run

variable {m : Meminfo} {s s' : Recv} {a : Arrival} {st : Phase} {reads : List Read}

/-- The search of a block: without its result, the packet is none of those in their places, and there
were more packets than places. -/
theorem search_block (h : Counted m s) (a : Arrival) :
    search m.pkts_per_block (s.eraseblocks a.pkt.block_nr).pkt_indices a.pkt.pkt_nr
        (s.eraseblocks a.pkt.block_nr).nr_pkts 0 =
      if a.pkt.pkt_nr ∈ (s.eraseblocks a.pkt.block_nr).pkt_indices then some true
      else if (s.eraseblocks a.pkt.block_nr).nr_pkts ≤ m.pkts_per_block then some false else none := by
  have hlen := h a.pkt.block_nr
  rw [search_eq (by rwa [Nat.zero_add]) (Nat.zero_le _) (by rw [List.take_zero]; exact List.not_mem_nil),
    Nat.zero_add]

theorem places_lt (hn : (s.eraseblocks a.pkt.block_nr).nr_pkts < m.pkts_per_block) :
    (places m s a).all (· < m.pkts_per_block) = true := by
  have hzero : 0 < m.pkts_per_block := Nat.zero_lt_of_lt hn
  unfold places
  dsimp only
  split
  · simp [hn]
  · split <;> simp [hn, hzero]

/-- A pass that finds its block searchable accesses no place outside of the array. -/
theorem checkedPkt_eq (h : Counted m s) (hs : Searchable m s a) :
    checkedPkt m s a = some (admitPkt m s a) := by
  unfold checkedPkt admitPkt
  dsimp only
  by_cases hcrc : s.image_crc = a.pkt.totcrc
  · obtain ⟨hint, hknown⟩ := hs hcrc
    have hint : ¬2^31 ≤ a.pkt.block_nr := Nat.not_le.mpr hint
    rw [if_neg (not_not.mpr hcrc), if_neg (not_not.mpr hcrc), if_neg hint, if_neg hint]
    by_cases hb : s.nr_blocks ≤ a.pkt.block_nr
    · rw [if_pos hb, if_pos hb]
    · have hknown := hknown (Nat.lt_of_not_le hb)
      rw [if_neg hb, if_neg hb, search_block h]
      by_cases hmem : a.pkt.pkt_nr ∈ (s.eraseblocks a.pkt.block_nr).pkt_indices
      · have hdup : duplicate m (s.eraseblocks a.pkt.block_nr) a := Or.inl hmem
        rw [if_pos hmem, if_pos hdup]
      · have hle := hknown.resolve_right hmem
        have hdup : ¬duplicate m (s.eraseblocks a.pkt.block_nr) a := by
          rintro (hin | ⟨hlt, -⟩)
          · exact hmem hin
          · exact absurd hlt (Nat.not_lt.mpr hle)
        rw [if_neg hmem, if_pos hle, if_neg hdup]
        dsimp only
        split
        · rfl
        next hn =>
          split
          · rfl
          · rw [if_pos (places_lt (Nat.lt_of_not_le hn))]
            cases pktAgain m s a <;> rfl
  · rw [if_pos hcrc, if_pos hcrc]

/-- A pass that does not reads behind the array. -/
theorem checkedPkt_none (h : Counted m s) (hs : ¬Searchable m s a) : checkedPkt m s a = none := by
  unfold Searchable at hs
  push Not at hs
  obtain ⟨hcrc, hbad⟩ := hs
  unfold checkedPkt
  dsimp only
  rw [if_neg (not_not.mpr hcrc)]
  by_cases hint : 2^31 ≤ a.pkt.block_nr
  · rw [if_pos hint]
  · obtain ⟨hb, hmore, hmem⟩ := hbad (Nat.lt_of_not_le hint)
    rw [if_neg hint, if_neg (Nat.not_le.mpr hb), search_block h, if_neg hmem,
      if_neg (Nat.not_le.mpr hmore)]

theorem begin_counted (h : st.Sat (Counted m)) {p : Packet} (hrun : begin m st p = .ok s) :
    Counted m s := by
  cases st with
  | waiting flash => exact start_counted hrun
  | receiving t =>
    obtain rfl := Except.ok.inj hrun
    exact h

/-- A whole run. -/
theorem checkedLoop_spec (h : st.Sat (Counted m)) :
    (AllSearchable m st reads → checkedLoop m st reads = some (recvLoop m st reads)) ∧
      (checkedLoop m st reads ≠ none → AllSearchable m st reads) := by
  induction reads generalizing st with
  | nil => exact ⟨fun _ => rfl, fun _ => trivial⟩
  | cons r reads ih =>
    cases r with
    | error => exact ⟨fun _ => rfl, fun _ => trivial⟩
    | short => exact ih h
    | packet a =>
      rw [checkedLoop, recvLoop, AllSearchable]
      cases hbegin : begin m st a.pkt with
      | error e => exact ⟨fun _ => rfl, fun _ s hs => by cases hs⟩
      | ok s =>
        have hs := begin_counted h hbegin
        dsimp only
        by_cases hsearch : Searchable m s a
        · rw [checkedPkt_eq hs hsearch]
          cases hpass : admitPkt m s a with
          | error e =>
            refine ⟨fun _ => rfl, fun _ t ht => ?_⟩
            obtain rfl := Except.ok.inj ht
            exact ⟨hsearch, fun s' hs' => by rw [hpass] at hs'; cases hs'⟩
          | ok ls =>
            obtain ⟨last, s'⟩ := ls
            cases last with
            | true =>
              refine ⟨fun _ => rfl, fun _ t ht => ?_⟩
              obtain rfl := Except.ok.inj ht
              exact ⟨hsearch, fun s' hs' => by rw [hpass] at hs'; cases hs'⟩
            | false =>
              obtain ⟨hrun, hback⟩ := @ih (.receiving s') (admit_counted hs hpass)
              refine ⟨fun hall => hrun ((hall s rfl).2 s' hpass), fun hne t ht => ?_⟩
              obtain rfl := Except.ok.inj ht
              refine ⟨hsearch, fun t' ht' => ?_⟩
              rw [hpass] at ht'
              cases ht'
              exact hback hne
        · rw [checkedPkt_none hs hsearch]
          exact ⟨fun hall => absurd (hall s rfl).1 hsearch, fun hne => absurd rfl hne⟩

/-- The receive loop accesses the indices of a block in their array only, in a run in which no packet
comes for a block in front of the first one, and none for a block that got more packets than it has
places, unless it is one of those in their places; and in no other run. -/
theorem checkedLoop_iff (m : Meminfo) (flash : ℕ → Bytes.Byte) (reads : List Read) :
    (checkedLoop m (.waiting flash) reads ≠ none ↔ AllSearchable m (.waiting flash) reads) ∧
      (checkedLoop m (.waiting flash) reads = none ∨
        checkedLoop m (.waiting flash) reads = some (recvLoop m (.waiting flash) reads)) := by
  obtain ⟨hrun, hback⟩ := @checkedLoop_spec m (.waiting flash) reads trivial
  refine ⟨⟨hback, fun hall => ?_⟩, ?_⟩
  · rw [hrun hall]
    exact Option.some_ne_none _
  · by_cases hnone : checkedLoop m (.waiting flash) reads = none
    · exact Or.inl hnone
    · exact Or.inr (hrun (hback hnone))

end Run

section Example

variable {m : Meminfo} {st st' : Phase} {pre post : List Read}

/-- What holds of the passes of a run holds of the later ones. -/
theorem AllSearchable.later (h : AllSearchable m st (pre ++ post))
    (hrun : recvLoop m st pre = .more st') : AllSearchable m st' post := by
  induction pre generalizing st with
  | nil =>
    obtain rfl := Result.more.inj hrun
    exact h
  | cons r pre ih =>
    cases r with
    | error => cases hrun
    | short => exact ih h hrun
    | packet a =>
      rw [recvLoop] at hrun
      cases hbegin : begin m st a.pkt with
      | error e =>
        rw [hbegin] at hrun
        cases hrun
      | ok s =>
        rw [hbegin] at hrun
        dsimp only at hrun
        cases hpass : admitPkt m s a with
        | error e =>
          rw [hpass] at hrun
          cases hrun
        | ok ls =>
          obtain ⟨last, s'⟩ := ls
          rw [hpass] at hrun
          cases last with
          | true => cases hrun
          | false => exact ih ((h s hbegin).2 s' hpass) hrun

variable (data : List Bytes.Byte)

/-- The first block is complete with two packets, of which it has room for no more. A third one comes
for it, and a fourth one. -/
def surplusReads : List Read :=
  [.packet (evenArrival 0#32 data data 0 0), .packet (evenArrival 0#32 data data 0 1)] ++
    [.packet (evenArrival 0#32 data data 0 2), .packet (evenArrival 0#32 data data 0 3)]

theorem surplus_not_searchable (hd : data.length = PKT_SIZE) (flash : ℕ → Bytes.Byte) :
    ¬AllSearchable smallFlash (.waiting flash) (surplusReads data) := by
  intro h
  obtain ⟨s₀, hstart, hnr, hcrc, htot, -, h0, -⟩ := @even_start 0#32 data data flash
  obtain ⟨s₁, hnr₁, hcrc₁, -, -, hblk₁, hrun₁⟩ := @even_block 0#32 data data hd s₀ 0 0 (by decide)
    hnr hcrc h0 (by decide) []
  rw [if_neg (by omega)] at hrun₁
  have heb : s₁.eraseblocks 0 = evenBlock data data 0 := by
    rw [hblk₁, Function.update_self]
  have hlater := h.later ((@recvLoop_start _ _ (evenArrival 0#32 data data 0 0) _ hstart _).trans hrun₁)
  -- the third packet only counts
  have hextra : admitPkt smallFlash s₁ (evenArrival 0#32 data data 0 2) =
      .ok (false, s₁.update 0 (evenBlock data data 0).extra) := by
    have hdup : ¬duplicate smallFlash (evenBlock data data 0) (evenArrival 0#32 data data 0 2) := by
      rintro (hin | ⟨hlt, -⟩)
      · exact absurd hin (show 2 ∉ [0, 1] by decide)
      · exact absurd hlt (show ¬smallFlash.pkts_per_block < 2 by decide)
    have hfull : smallFlash.pkts_per_block ≤ (evenBlock data data 0).nr_pkts :=
      show smallFlash.pkts_per_block ≤ 2 by decide
    have htotcrc : ¬s₁.image_crc ≠ (evenArrival 0#32 data data 0 2).pkt.totcrc := not_not.mpr hcrc₁
    have hint : ¬2^31 ≤ (evenArrival 0#32 data data 0 2).pkt.block_nr := show ¬2^31 ≤ 0 by decide
    have hblock : ¬s₁.nr_blocks ≤ (evenArrival 0#32 data data 0 2).pkt.block_nr := by
      rw [hnr₁]
      exact show ¬2 ≤ 0 by decide
    have hget : s₁.eraseblocks (evenArrival 0#32 data data 0 2).pkt.block_nr =
      evenBlock data data 0 := heb
    unfold admitPkt
    dsimp only
    rw [if_neg htotcrc, if_neg hint, if_neg hblock, hget, if_neg hdup, if_pos hfull]
    rfl
  have hlast := (((hlater s₁ rfl).2 _ hextra _ rfl).1 hcrc₁).2 (by
    change 0 < s₁.nr_blocks
    omega)
  have hget : (s₁.update 0 (evenBlock data data 0).extra).eraseblocks 0 =
      (evenBlock data data 0).extra := by
    unfold Recv.update
    dsimp only
    rw [Function.update_self]
  change ((s₁.update 0 _).eraseblocks 0).nr_pkts ≤ smallFlash.pkts_per_block ∨
    3 ∈ ((s₁.update 0 _).eraseblocks 0).pkt_indices at hlast
  rw [hget] at hlast
  rcases hlast with hle | hin
  · exact absurd hle (show ¬3 ≤ smallFlash.pkts_per_block by decide)
  · exact absurd hin (show 3 ∉ [0, 1] by decide)

/-- The search for the fourth packet reads behind the array. -/
theorem checkedLoop_surplus : checkedLoop smallFlash (.waiting fun _ => 0xff#8)
    (surplusReads (List.replicate PKT_SIZE 0#8)) = none := by
  by_contra hne
  exact surplus_not_searchable _ (List.length_replicate ..) _
    ((@checkedLoop_spec smallFlash (.waiting fun _ => 0xff#8) _ trivial).2 hne)

end Example

end ChipTools.Mcast
