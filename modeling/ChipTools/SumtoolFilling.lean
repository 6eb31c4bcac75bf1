import ChipTools.SumtoolLayout

/-! How `sumtool` fills eraseblocks. As long as the test for room does not wrap, what is written is a
sequence of eraseblocks with summaries; after the first time that it does, a copy leaves its buffer
sooner or later. -/
namespace ChipTools.Sumtool
open Bytes Jffs2 Loop

section Level

/-- How far an eraseblock is filled, and the size of its entries. -/
structure Level where
  ofs : ℕ
  sum : ℕ
deriving DecidableEq

def State.level (s : State) : Level := ⟨s.data_ofs, s.sum_size⟩

/-- What has to fit behind the end of a node for it to be added. -/
def Level.needed (l : Level) (n : Node) : ℕ := pad4 (n.totlen+(entry 0 n).size+l.sum+32+8)

/-- After a node, where eraseblocks start with `m` bytes. -/
def Level.next (ebs m : ℕ) (l : Level) (n : Node) : Level :=
  let l' : Level := if ebs < l.ofs+n.totlen+l.needed n then ⟨0, 0⟩ else l
  ⟨(if l'.ofs = 0 then m else l'.ofs)+pad4 n.totlen, l'.sum+(entry 0 n).size⟩

/-- No node that comes to a begun eraseblock is too large for what the entries leave of a whole
one. -/
def Roomy (ebs m : ℕ) : Level → List Node → Prop
  | _, [] => True
  | l, n :: ns => (l.ofs = 0 ∨ l.needed n ≤ ebs) ∧ Roomy ebs m (l.next ebs m n) ns

/-- A node fits in an eraseblock of its own. -/
def FitsAlone (ebs m : ℕ) (n : Node) : Prop := m+pad4 n.totlen+(entry 0 n).size+32+8 ≤ ebs

theorem entry_lt {n : Node} (hc : Copied n) : (entry 0 n).size+15 ≤ n.totlen := by
  cases n with
  | inode n => exact (by decide : 18+15 ≤ 68).trans (Nat.le_add_right _ _)
  | dirent n =>
    change 24+n.name.length+15 ≤ 40+n.name.length
    omega
  | xattr n =>
    have hdata : n.data.length = n.name.length+(n.value.length+1) := List.length_append
    change 18+15 ≤ 32+n.data.length+n.rest.length
    omega
  | xref n => exact (by decide : 6+15 ≤ 28)
  | cleanmarker rest => exact hc.elim
  | padding rest => exact hc.elim
  | summary n => exact hc.elim

theorem entry_le {n : Node} (hfit : n.Fit) : (entry 0 n).size ≤ 279 := by
  cases n with
  | dirent n =>
    have hname : n.name.length < 256 := hfit (1, n.name.length) (by simp [Dirent.fields])
    change 24+n.name.length ≤ 279
    omega
  | inode n => exact (by decide : 18 ≤ 279)
  | xattr n => exact (by decide : 18 ≤ 279)
  | _ => exact (by decide : 6 ≤ 279)

end Level

section Steps

variable {cfg : Config} {s : State} {n : Node}

/-- The cleanmarker of the state can be written. -/
structure State.Marks (cfg : Config) (s : State) : Prop where
  length : s.cleanmarker.length = 12
  size : 12 ≤ s.cleanmarker_size

theorem State.Marks.blockMarker_length (h : s.Marks cfg) :
    (blockMarker cfg s).length = pad4 (clnMkr cfg s) := by
  have hle := le_pad4 s.cleanmarker_size
  have hsize := h.size
  unfold blockMarker clnMkr
  split
  · rw [List.length_append, h.length, List.length_replicate]
    omega
  · rfl

/-- The entries take less than the nodes. -/
structure Counted (cfg : Config) (s : State) : Prop where
  aligned : s.data_ofs%4 = 0
  below : s.sum_size+15*s.sum_list.length+clnMkr cfg s ≤ s.data_ofs
  bound : s.sum_size ≤ 279*s.sum_list.length

theorem append_data_ofs : (append cfg n s).data_ofs = s.data_ofs+pad4 n.totlen := by
  change (s.data_buffer ++ stored cfg.target_endian n).length = _
  rw [List.length_append, stored_length]
  rfl

theorem append_sum_size : (append cfg n s).sum_size = s.sum_size+(entry 0 n).size := by
  change ((s.sum_list ++ [entry s.data_ofs n]).map SumRecord.size).sum = _
  rw [List.map_append, List.sum_append, List.map_singleton, List.sum_singleton, entry_size]
  rfl

theorem Counted.append (h : Counted cfg s) (hc : Copied n) (hfit : n.Fit) :
    Counted cfg (append cfg n s) := by
  obtain ⟨haligned, hbelow, hbound⟩ := h
  have hlt := entry_lt hc
  have hle := entry_le hfit
  have hpad := le_pad4 n.totlen
  have hlen : (Sumtool.append cfg n s).sum_list.length = s.sum_list.length+1 := List.length_append
  have hofs0 : clnMkr cfg (Sumtool.append cfg n s) = clnMkr cfg s := rfl
  refine ⟨?_, ?_, ?_⟩
  · rw [append_data_ofs]
    unfold pad4
    omega
  · rw [append_data_ofs, append_sum_size, hlen, hofs0]
    omega
  · rw [append_sum_size, hlen]
    omega

/-- The test for room, where the difference does not wrap. -/
theorem room_eq {w size : ℕ} (hw : 32 ≤ w) (hebs : cfg.erase_block_size < 2^32)
    (h : pad4 size ≤ cfg.erase_block_size) :
    room cfg w size = cfg.erase_block_size-pad4 size := by
  have hpow : 2^32 ≤ 2^w := Nat.pow_le_pow_right (by decide) hw
  unfold room
  rw [Nat.mod_eq_of_lt (by omega : pad4 size < 2^32),
    show 2^w+cfg.erase_block_size-pad4 size = (cfg.erase_block_size-pad4 size)+2^w by omega,
    Nat.add_mod_right, Nat.mod_eq_of_lt (by omega)]

/-- The test where it does. -/
theorem room_wraps {size : ℕ} (h : cfg.erase_block_size < pad4 size) (hlt : pad4 size < 2^32) :
    room cfg 32 size = 2^32+cfg.erase_block_size-pad4 size := by
  unfold room
  rw [Nat.mod_eq_of_lt hlt, Nat.mod_eq_of_lt (by omega)]

end Steps

section Run

variable {cfg : Config} {s : State} {n : Node}

/-- The eraseblocks that are written and the open one, which is not begun while it has no nodes. -/
structure Inv (cfg : Config) (marker : List Byte) (cln_mkr : ℕ) (blocks : List Closed) (cur : List Node)
    (s : State) : Prop where
  marks : s.Marks cfg
  marker_eq : marker = blockMarker cfg s
  cln_eq : cln_mkr = clnMkr cfg s
  output : s.output = blocks.flatMap (Closed.bytes cfg)
  valid : ∀ c ∈ blocks, c.Valid cfg ∧ c.nodes ≠ [] ∧ c.marker = marker ∧ c.cln_mkr = cln_mkr
  buffer : s.data_buffer = if cur = [] then [] else (Block.mk marker cur).body cfg.target_endian
  list : s.sum_list = entries marker.length cur
  counted : cur ≠ [] → Counted cfg s
  full : cur ≠ [] → s.data_ofs+(32+(s.sum_size+8)) ≤ cfg.erase_block_size

variable {marker : List Byte} {cln_mkr : ℕ} {blocks : List Closed} {cur : List Node}

/-- All nodes so far. -/
def nodesOf (blocks : List Closed) (cur : List Node) : List Node :=
  blocks.flatMap (fun c => c.nodes) ++ cur

theorem Inv.aligned (h : Inv cfg marker cln_mkr blocks cur s) : marker.length%4 = 0 := by
  rw [h.marker_eq, h.marks.blockMarker_length]
  exact Nat.mul_mod_left _ _

theorem Inv.begun (h : Inv cfg marker cln_mkr blocks cur s) (hcur : cur ≠ []) :
    s.sum_list ≠ [] ∧ 15+clnMkr cfg s ≤ s.data_ofs ∧
      s.data_buffer = (Block.mk marker cur).body cfg.target_endian := by
  have hlist := h.list
  have hbuf := h.buffer
  have hbelow := (h.counted hcur).below
  rw [if_neg hcur] at hbuf
  cases cur with
  | nil => exact absurd rfl hcur
  | cons n ns =>
    rw [entries] at hlist
    rw [hlist, List.length_cons] at hbelow
    exact ⟨by rw [hlist]; exact List.cons_ne_nil _ _, by omega, hbuf⟩

theorem Inv.fresh (h : Inv cfg marker cln_mkr blocks [] s) :
    s.data_buffer = [] ∧ s.sum_list = [] := ⟨h.buffer, h.list⟩

/-- One more node in the open eraseblock. -/
theorem Inv.add (h : Inv cfg marker cln_mkr blocks cur s) (hc : Copied n) (hfit : n.Fit)
    (hcur : cur ≠ [])
    (hfull : s.data_ofs+pad4 n.totlen+(32+(s.sum_size+(entry 0 n).size+8)) ≤ cfg.erase_block_size) :
    Inv cfg marker cln_mkr blocks (cur ++ [n]) (append cfg n s) := by
  obtain ⟨-, -, hbuf⟩ := h.begun hcur
  have hne : cur ++ [n] ≠ [] := List.append_ne_nil_of_right_ne_nil _ (List.cons_ne_nil _ _)
  have hofs : s.data_ofs = marker.length+(cur.flatMap (stored cfg.target_endian)).length := by
    rw [State.data_ofs, hbuf, Block.body, List.length_append]
  refine ⟨⟨h.marks.length, h.marks.size⟩, h.marker_eq, h.cln_eq, h.output, h.valid, ?_, ?_,
    fun _ => (h.counted hcur).append hc hfit, fun _ => ?_⟩
  · rw [if_neg hne, body_snoc, ← hbuf]
    rfl
  · rw [entries_snoc (e := cfg.target_endian), ← hofs, ← h.list]
    rfl
  · rw [append_data_ofs, append_sum_size]
    exact hfull

/-- The first node of an eraseblock. -/
theorem Inv.start (h : Inv cfg marker cln_mkr blocks [] s) (hc : Copied n) (hfit : n.Fit)
    (halone : FitsAlone cfg.erase_block_size marker.length n) :
    startBlock cfg s >>= copyNode cfg n =
        .ok (append cfg n { s with data_buffer := marker }) ∧
      Inv cfg marker cln_mkr blocks [n] (append cfg n { s with data_buffer := marker }) := by
  obtain ⟨hbuf, hlist⟩ := h.fresh
  unfold FitsAlone at halone
  have hmod := h.aligned
  have hmarker := h.marker_eq
  have hlen := h.marks.blockMarker_length
  rw [← hmarker] at hlen
  have hcounted : Counted cfg { s with data_buffer := marker } := by
    refine ⟨hmod, ?_, ?_⟩
    · change (s.sum_list.map SumRecord.size).sum+15*s.sum_list.length+clnMkr cfg s ≤ marker.length
      rw [hlist, hlen, List.map_nil, List.sum_nil, List.length_nil]
      have := le_pad4 (clnMkr cfg s)
      omega
    · change (s.sum_list.map SumRecord.size).sum ≤ _
      rw [hlist]
      exact Nat.zero_le _
  have hofs : ({ s with data_buffer := marker } : State).data_ofs = marker.length := rfl
  have hsum : ({ s with data_buffer := marker } : State).sum_size = 0 := by
    change (s.sum_list.map SumRecord.size).sum = 0
    rw [hlist]
    rfl
  constructor
  · rw [startBlock_empty hbuf h.marks.length h.marks.size (by rw [← hmarker]; omega), ok_bind,
      ← hmarker]
    exact copyNode_ok hmod (by rw [hofs]; omega)
  · refine ⟨⟨h.marks.length, h.marks.size⟩, h.marker_eq, h.cln_eq, h.output, h.valid, ?_, ?_,
      fun _ => hcounted.append hc hfit, fun _ => ?_⟩
    · rw [if_neg (List.cons_ne_nil _ _), ← List.nil_append [n], body_snoc]
      change marker ++ stored cfg.target_endian n = _
      simp [Block.body]
    · change s.sum_list ++ [entry marker.length n] = _
      rw [hlist]
      rfl
    · rw [append_data_ofs, append_sum_size, hofs, hsum]
      omega

/-- The eraseblock that the open one becomes. -/
def closedOf (marker : List Byte) (cln_mkr : ℕ) (cur : List Node) : Closed := ⟨⟨marker, cur⟩, cln_mkr⟩

theorem Inv.dump (h : Inv cfg marker cln_mkr blocks cur s) (hcur : cur ≠ []) :
    ∃ s', dumpSumRecords cfg s = .ok s' ∧
      Inv cfg marker cln_mkr (blocks ++ [closedOf marker cln_mkr cur]) [] s'.writeBuffToFile := by
  obtain ⟨hlist, -, hbuf⟩ := h.begun hcur
  have hfull := h.full hcur
  refine ⟨_, dumpSumRecords_ok hlist hfull, ?_⟩
  have hofs : s.data_ofs = ((Block.mk marker cur).body cfg.target_endian).length := by
    rw [State.data_ofs, hbuf]
  have hsize : s.sum_size = (closedOf marker cln_mkr cur).sumSize := by
    rw [State.sum_size, h.list]
    rfl
  have hsum : Summary.mk (clnMkr cfg s) 0 s.sum_list (List.replicate
      (cfg.erase_block_size-s.data_ofs-(32+(s.sum_size+8))) 0xff#8) s.data_ofs =
      (closedOf marker cln_mkr cur).summary cfg := by
    rw [← h.cln_eq, h.list, hsize, hofs]
    rfl
  have hvalid : (closedOf marker cln_mkr cur).Valid cfg := by
    refine Closed.valid h.aligned ?_
    rw [← hsize]
    exact hofs ▸ hfull
  refine ⟨⟨h.marks.length, h.marks.size⟩, h.marker_eq, h.cln_eq, ?_, ?_, rfl, rfl,
    fun h => absurd rfl h, fun h => absurd rfl h⟩
  · change s.output ++ (s.data_buffer ++ _) = _
    rw [hsum, hbuf, h.output, List.flatMap_append, List.flatMap_singleton]
    rfl
  · intro c hc
    rcases List.mem_append.mp hc with hc | hc
    · exact h.valid c hc
    · obtain rfl := List.mem_singleton.mp hc
      exact ⟨hvalid, hcur, rfl, rfl⟩

theorem nodesOf_dump : nodesOf (blocks ++ [closedOf marker cln_mkr cur]) [n] =
    nodesOf blocks cur ++ [n] := by
  simp [nodesOf, closedOf]

end Run

section Nodes

variable {cfg : Config} {s : State} {n : Node} {marker : List Byte} {cln_mkr : ℕ}
  {blocks : List Closed} {cur : List Node}

theorem padBlock_fresh (hbuf : s.data_buffer = []) (hlist : s.sum_list = []) (req plus : ℕ) :
    padBlockIfLessThan cfg req plus s = startBlock cfg s := by
  have hwrite : s.writeBuffToFile = s := by
    cases s
    simp_all [State.writeBuffToFile]
  unfold padBlockIfLessThan dumpSumRecords
  rw [if_pos hlist, ok_bind, hwrite, ite_self]

/-- A write for which the test does not wrap. -/
theorem writeNode_roomy (hebs : cfg.erase_block_size < 2^31)
    (h : Inv cfg marker cln_mkr blocks cur s) (hc : Copied n) (hfit : n.Fit)
    (halone : FitsAlone cfg.erase_block_size marker.length n)
    (hroom : s.data_ofs = 0 ∨ s.level.needed n ≤ cfg.erase_block_size) :
    ∃ s' blocks' cur', writeNode cfg n s = .ok s' ∧ Inv cfg marker cln_mkr blocks' cur' s' ∧
      nodesOf blocks' cur' = nodesOf blocks cur ++ [n] ∧
      s'.level = s.level.next cfg.erase_block_size marker.length n := by
  have hfirst (s : State) {blocks : List Closed} (h : Inv cfg marker cln_mkr blocks [] s) :
      (append cfg n { s with data_buffer := marker }).level =
        ⟨marker.length+pad4 n.totlen, (entry 0 n).size⟩ := by
    unfold State.level
    rw [append_data_ofs, append_sum_size]
    change Level.mk _ ((s.sum_list.map SumRecord.size).sum+_) = _
    rw [h.fresh.2, List.map_nil, List.sum_nil, Nat.zero_add]
    rfl
  rw [writeNode_eq]
  by_cases hcur : cur = []
  · subst hcur
    obtain ⟨hbuf, hlist⟩ := h.fresh
    obtain ⟨hrun, hinv⟩ := h.start hc hfit halone
    refine ⟨_, blocks, [n], ?_, hinv, by simp [nodesOf], ?_⟩
    · rw [padBlock_fresh hbuf hlist, hrun]
    · have hzero : s.level = ⟨0, 0⟩ := by
        rw [State.level, State.data_ofs, State.sum_size, hbuf, hlist]
        rfl
      rw [hfirst s h, hzero]
      unfold Level.next
      rw [ite_self]
      dsimp only
      rw [if_pos rfl, Nat.zero_add]
  · obtain ⟨hlist, hofs0, hbuf⟩ := h.begun hcur
    have hne : s.data_ofs ≠ 0 := by omega
    have hneeded := hroom.resolve_left hne
    have hfull := h.full hcur
    have hle := le_pad4 n.totlen
    unfold FitsAlone at halone
    have hX : s.level.needed n = pad4 (n.totlen+(entry 0 n).size+s.sum_size+32+8) := rfl
    have htest : room cfg 32 (n.totlen+(entry 0 n).size+s.sum_size+32+8) < (s.data_ofs+n.totlen)%2^32 ↔
        cfg.erase_block_size < s.data_ofs+n.totlen+s.level.needed n := by
      rw [room_eq le_rfl (by omega) (hX ▸ hneeded), Nat.mod_eq_of_lt (by omega), ← hX]
      omega
    by_cases hclose : cfg.erase_block_size < s.data_ofs+n.totlen+s.level.needed n
    · obtain ⟨s', hdump, hinv'⟩ := h.dump hcur
      obtain ⟨hrun, hinv⟩ := hinv'.start hc hfit (by unfold FitsAlone; omega)
      refine ⟨_, _, _, ?_, hinv, nodesOf_dump, ?_⟩
      · unfold padBlockIfLessThan
        rw [if_pos (htest.mpr hclose), hdump, ok_bind, hrun]
      · rw [hfirst _ hinv']
        unfold Level.next
        rw [if_pos (show cfg.erase_block_size < s.level.ofs+n.totlen+s.level.needed n from hclose)]
        dsimp only
        rw [if_pos rfl, Nat.zero_add]
    · have hopen : s.data_buffer ≠ [] := fun h0 => hne (by rw [State.data_ofs, h0, List.length_nil])
      have hfits : s.data_ofs+pad4 n.totlen+(32+(s.sum_size+(entry 0 n).size+8)) ≤
          cfg.erase_block_size := by
        have hX : n.totlen+(entry 0 n).size+s.sum_size+32+8 ≤ s.level.needed n := le_pad4 _
        have := n.le_totlen
        unfold pad4
        omega
      refine ⟨_, blocks, cur ++ [n], ?_, h.add hc hfit hcur hfits, ?_, ?_⟩
      · unfold padBlockIfLessThan
        rw [if_neg (fun h => hclose (htest.mp h)), startBlock_open hopen, ok_bind]
        exact copyNode_ok (h.counted hcur).aligned (by omega)
      · rw [nodesOf, nodesOf, List.append_assoc]
      · unfold State.level at hclose ⊢
        unfold Level.next
        rw [if_neg hclose, append_data_ofs, append_sum_size]
        dsimp only
        rw [if_neg hne]

/-- More is in the buffer than leaves room for the summary. -/
structure Bad (cfg : Config) (s : State) : Prop where
  counted : Counted cfg s
  entries : s.sum_list ≠ []
  inside : s.data_ofs ≤ cfg.erase_block_size
  full : cfg.erase_block_size < s.data_ofs+(32+(s.sum_size+8))

theorem Bad.open (h : Bad cfg s) : s.data_buffer ≠ [] := by
  intro h0
  have hbelow := h.counted.below
  have hpos := List.length_pos_iff.mpr h.entries
  rw [State.data_ofs, h0, List.length_nil] at hbelow
  omega

/-- A write with a test that wraps, or to a buffer that is too full. -/
theorem copyNode_bad (hcounted : Counted cfg s) (hc : Copied n) (hfit : n.Fit)
    (hfull : cfg.erase_block_size < s.data_ofs+pad4 n.totlen+(32+(s.sum_size+(entry 0 n).size+8))) :
    (∃ s', copyNode cfg n s = .ok s' ∧ Bad cfg s') ∨ copyNode cfg n s = .error .overrun := by
  rcases copyNode_cases (n := n) hcounted.aligned with ⟨hin, hok⟩ | herr
  · refine .inl ⟨_, hok, hcounted.append hc hfit,
      List.append_ne_nil_of_right_ne_nil _ (List.cons_ne_nil _ _), ?_, ?_⟩
    · rwa [append_data_ofs]
    · rwa [append_data_ofs, append_sum_size]
  · exact .inr herr

theorem Bad.writeNode (h : Bad cfg s) (hc : Copied n) (hfit : n.Fit) :
    (∃ s', writeNode cfg n s = .ok s' ∧ Bad cfg s') ∨ Sumtool.writeNode cfg n s = .error .overrun := by
  have hfull := h.full
  have hle := le_pad4 n.totlen
  rw [writeNode_eq]
  unfold padBlockIfLessThan
  split
  · rw [dumpSumRecords_error h.entries h.full]
    exact .inr rfl
  · rw [startBlock_open h.open, ok_bind]
    exact copyNode_bad h.counted hc hfit (by omega)

/-- A write for which the test wraps. -/
theorem writeNode_wraps (hebs : cfg.erase_block_size < 2^31)
    (h : Inv cfg marker cln_mkr blocks cur s) (hc : Copied n) (hfit : n.Fit)
    (halone : FitsAlone cfg.erase_block_size marker.length n) (hne : s.data_ofs ≠ 0)
    (hwrap : cfg.erase_block_size < s.level.needed n) :
    (∃ s', writeNode cfg n s = .ok s' ∧ Bad cfg s') ∨ writeNode cfg n s = .error .overrun := by
  have hcur : cur ≠ [] := by
    rintro rfl
    exact hne (by rw [State.data_ofs, h.fresh.1, List.length_nil])
  have hopen : s.data_buffer ≠ [] := fun h0 => hne (by rw [State.data_ofs, h0, List.length_nil])
  have hfull := h.full hcur
  have hofs0 := (h.begun hcur).2.1
  have hmod := (h.counted hcur).aligned
  have hle := le_pad4 n.totlen
  unfold FitsAlone at halone
  have hX : s.level.needed n = pad4 (n.totlen+(entry 0 n).size+s.sum_size+32+8) := rfl
  have hX3 : s.level.needed n ≤ n.totlen+(entry 0 n).size+s.sum_size+32+8+3 := by
    rw [hX]
    unfold pad4
    omega
  have htest : ¬room cfg 32 (n.totlen+(entry 0 n).size+s.sum_size+32+8) <
      (s.data_ofs+n.totlen)%2^32 := by
    rw [room_wraps (hX ▸ hwrap) (by rw [← hX]; omega), Nat.mod_eq_of_lt (by omega), ← hX]
    omega
  rw [writeNode_eq]
  unfold padBlockIfLessThan
  rw [if_neg htest, startBlock_open hopen, ok_bind]
  exact copyNode_bad (h.counted hcur) hc hfit (by omega)

/-- The nodes of the input, one after the other. -/
def writeNodes (cfg : Config) (ns : List Node) (s : State) : Except Fault State :=
  ns.foldlM (fun s n => writeNode cfg n s) s

theorem Bad.writeNodes {ns : List Node} (h : Bad cfg s) (hc : ∀ n ∈ ns, Copied n ∧ n.Fit) :
    (∃ s', writeNodes cfg ns s = .ok s' ∧ Bad cfg s') ∨
      Sumtool.writeNodes cfg ns s = .error .overrun := by
  induction ns generalizing s with
  | nil => exact .inl ⟨s, rfl, h⟩
  | cons n ns ih =>
    obtain ⟨hn, hfit⟩ := hc n List.mem_cons_self
    unfold Sumtool.writeNodes
    rw [List.foldlM_cons]
    rcases h.writeNode hn hfit with ⟨s', hs', hbad⟩ | herr
    · rw [hs']
      exact ih hbad fun m hm => hc m (List.mem_cons_of_mem _ hm)
    · rw [herr]
      exact .inr rfl

/-- All writes: if no test wraps there is the invariant at the end, and else there is a fault or the
buffer is too full. -/
theorem writeNodes_cases (hebs : cfg.erase_block_size < 2^31) {ns : List Node}
    (hns : ∀ n ∈ ns, Copied n ∧ n.Fit ∧ FitsAlone cfg.erase_block_size marker.length n)
    (h : Inv cfg marker cln_mkr blocks cur s) :
    (Roomy cfg.erase_block_size marker.length s.level ns ∧
      ∃ s' blocks' cur', writeNodes cfg ns s = .ok s' ∧ Inv cfg marker cln_mkr blocks' cur' s' ∧
        nodesOf blocks' cur' = nodesOf blocks cur ++ ns) ∨
    (¬Roomy cfg.erase_block_size marker.length s.level ns ∧
      ((∃ s', writeNodes cfg ns s = .ok s' ∧ Bad cfg s') ∨ writeNodes cfg ns s = .error .overrun)) := by
  induction ns generalizing s blocks cur with
  | nil => exact .inl ⟨trivial, s, blocks, cur, rfl, h, (List.append_nil _).symm⟩
  | cons n ns ih =>
    obtain ⟨hc, hfit, halone⟩ := hns n List.mem_cons_self
    have hns' := fun m hm => hns m (List.mem_cons_of_mem n hm)
    have hcons : writeNodes cfg (n :: ns) s = writeNode cfg n s >>= writeNodes cfg ns :=
      List.foldlM_cons
    rw [hcons]
    by_cases hroom : s.data_ofs = 0 ∨ s.level.needed n ≤ cfg.erase_block_size
    · obtain ⟨s', blocks', cur', hrun, hinv, hnodes, hlevel⟩ :=
        writeNode_roomy hebs h hc hfit halone hroom
      rw [hrun, ok_bind]
      unfold Roomy
      rw [← hlevel]
      rcases ih hns' hinv with ⟨hr, s'', blocks'', cur'', hrun', hinv', hnodes'⟩ | ⟨hr, hbad⟩
      · refine .inl ⟨⟨hroom, hr⟩, s'', blocks'', cur'', hrun', hinv', ?_⟩
        rw [hnodes', hnodes, List.append_assoc]
        rfl
      · exact .inr ⟨fun h => hr h.2, hbad⟩
    · right
      obtain ⟨hne, hwrap⟩ := not_or.mp hroom
      refine ⟨fun h => hroom h.1, ?_⟩
      rcases writeNode_wraps hebs h hc hfit halone hne (Nat.not_le.mp hwrap) with
        ⟨s', hs', hbad⟩ | herr
      · rw [hs', ok_bind]
        exact hbad.writeNodes fun m hm => ⟨(hns' m hm).1, (hns' m hm).2.1⟩
      · rw [herr]
        exact .inr rfl

end Nodes

section Output

variable {cfg : Config} {s : State} {marker : List Byte} {cln_mkr : ℕ} {blocks : List Closed}
  {cur : List Node}

/-- What is behind the nodes of the last eraseblock: the summary, or `0xff` up to its end, or
nothing. -/
def Ending (cfg : Config) (cln_mkr : ℕ) (last : Block) (ending : List Byte) : Prop :=
  (last.nodes ≠ [] ∧ (closedOf last.marker cln_mkr last.nodes).Valid cfg ∧
    last.body cfg.target_endian ++ ending = (closedOf last.marker cln_mkr last.nodes).bytes cfg) ∨
  (cfg.padto = true ∧ (last.body cfg.target_endian ++ ending).length = cfg.erase_block_size ∧
    ∀ b ∈ ending, b = 0xff#8) ∨
  ((cfg.padto = false ∨ last.nodes = []) ∧ ending = [] ∧
    (last.body cfg.target_endian).length ≤ cfg.erase_block_size)

/-- The output for the nodes: whole eraseblocks with a summary, and a last one that may have none. -/
def Layout (cfg : Config) (marker : List Byte) (cln_mkr : ℕ) (ns : List Node) (out : List Byte) :
    Prop :=
  ∃ (blocks : List Closed) (last : Block) (ending : List Byte),
    out = blocks.flatMap (Closed.bytes cfg) ++ (last.body cfg.target_endian ++ ending) ∧
    blocks.flatMap (fun c => c.nodes) ++ last.nodes = ns ∧
    (∀ c ∈ blocks, c.Valid cfg ∧ c.nodes ≠ [] ∧ c.marker = marker ∧ c.cln_mkr = cln_mkr) ∧
    (last.marker = if last.nodes = [] then [] else marker) ∧
    last.Holds cfg.target_endian (last.body cfg.target_endian ++ ending) ∧
    Ending cfg cln_mkr last ending

theorem flushBuffers_eq (s : State) : flushBuffers cfg s =
    if s.data_ofs ≠ clnMkr cfg s then
      if room cfg 64 (s.sum_size+32+8) < s.data_ofs+68+2*JFFS2_MIN_DATA_LEN then
        dumpSumRecords cfg s >>= fun s => .ok s.writeBuffToFile
      else if cfg.padto then
        pad cfg (cfg.erase_block_size-s.data_ofs) s >>= fun s => .ok s.writeBuffToFile
      else .ok s.writeBuffToFile
    else .ok s := rfl

/-- Everything that was not dumped goes to the output. -/
theorem Inv.flush (hlo : 0x2000 ≤ cfg.erase_block_size) (hhi : cfg.erase_block_size < 2^31)
    (h : Inv cfg marker cln_mkr blocks cur s) : ∃ s', flushBuffers cfg s = .ok s' ∧
      Layout cfg marker cln_mkr (nodesOf blocks cur) s'.output := by
  by_cases hcur : cur = []
  · -- nothing was copied since the last dump
    subst hcur
    obtain ⟨hbuf, hlist⟩ := h.fresh
    have hofs : s.data_ofs = 0 := by rw [State.data_ofs, hbuf, List.length_nil]
    have hsum : s.sum_size = 0 := by rw [State.sum_size, hlist]; rfl
    have hholds (post : List Byte) : (Block.mk [] []).Holds cfg.target_endian
        ((Block.mk [] []).body cfg.target_endian ++ post) := Block.holds rfl post
    have hroom : ¬room cfg 64 (s.sum_size+32+8) < s.data_ofs+68+2*JFFS2_MIN_DATA_LEN := by
      have hpad : pad4 (s.sum_size+32+8) = 40 := by rw [hsum]; rfl
      rw [room_eq (by decide) (by omega) (by omega), hpad, hofs, JFFS2_MIN_DATA_LEN]
      omega
    have hempty {s' : State} (tail : List Byte) (hout : s'.output = s.output ++ tail)
        (hend : Ending cfg cln_mkr ⟨[], []⟩ tail) :
        Layout cfg marker cln_mkr (nodesOf blocks []) s'.output := by
      refine ⟨blocks, ⟨[], []⟩, tail, ?_, rfl, h.valid, (if_pos rfl).symm, hholds _, hend⟩
      rw [hout, h.output]
      rfl
    rw [flushBuffers_eq, if_neg hroom]
    split
    · by_cases hpadto : cfg.padto = true
      · rw [if_pos hpadto]
        unfold pad
        rw [fullWrite_ok (by rw [List.length_replicate]; omega), ok_bind]
        refine ⟨_, rfl, hempty (List.replicate (cfg.erase_block_size-s.data_ofs) 0xff#8) ?_ ?_⟩
        · change s.output ++ (s.data_buffer ++ _) = _
          rw [hbuf]
          rfl
        · refine .inr (.inl ⟨hpadto, ?_, fun b hb => List.eq_of_mem_replicate hb⟩)
          change (List.replicate _ _).length = _
          rw [List.length_replicate, hofs, Nat.sub_zero]
      · rw [if_neg hpadto]
        refine ⟨_, rfl, hempty [] ?_ (.inr (.inr ⟨.inr rfl, rfl, Nat.zero_le _⟩))⟩
        change s.output ++ s.data_buffer = _
        rw [hbuf]
    · exact ⟨s, rfl, hempty [] (List.append_nil _).symm
        (.inr (.inr ⟨.inr rfl, rfl, Nat.zero_le _⟩))⟩
  · obtain ⟨hlist, hofs0, hbuf⟩ := h.begun hcur
    have hfull := h.full hcur
    have hne : s.data_ofs ≠ clnMkr cfg s := by omega
    have hbody : ((Block.mk marker cur).body cfg.target_endian).length = s.data_ofs := by
      rw [State.data_ofs, hbuf]
    have hlast {s' : State} (ending : List Byte)
        (hout : s'.output = s.output ++ (s.data_buffer ++ ending))
        (hend : Ending cfg cln_mkr ⟨marker, cur⟩ ending) :
        Layout cfg marker cln_mkr (nodesOf blocks cur) s'.output := by
      refine ⟨blocks, ⟨marker, cur⟩, ending, ?_, rfl, h.valid, (if_neg hcur).symm,
        Block.holds h.aligned _, hend⟩
      rw [hout, h.output, hbuf]
    rw [flushBuffers_eq, if_pos hne]
    split
    · obtain ⟨s', hdump, hinv⟩ := h.dump hcur
      obtain ⟨hvalid, -⟩ := hinv.valid (closedOf marker cln_mkr cur)
        (List.mem_append_right _ List.mem_cons_self)
      rw [hdump, ok_bind]
      refine ⟨_, rfl, blocks, ⟨marker, cur⟩,
        ((closedOf marker cln_mkr cur).summary cfg).encode cfg.target_endian, ?_, rfl, h.valid,
        (if_neg hcur).symm, Block.holds h.aligned _, .inl ⟨hcur, hvalid, rfl⟩⟩
      rw [hinv.output, List.flatMap_append, List.flatMap_singleton]
      rfl
    · by_cases hpadto : cfg.padto = true
      · rw [if_pos hpadto]
        unfold pad
        rw [fullWrite_ok (by rw [List.length_replicate]; omega), ok_bind]
        refine ⟨_, rfl, hlast _ rfl (.inr (.inl ⟨hpadto, ?_, fun b hb => List.eq_of_mem_replicate hb⟩))⟩
        rw [List.length_append, hbody, List.length_replicate]
        omega
      · rw [if_neg hpadto]
        refine ⟨_, rfl, hlast [] ?_
          (.inr (.inr ⟨.inl (Bool.eq_false_of_not_eq_true hpadto), rfl, by omega⟩))⟩
        rw [List.append_nil]
        rfl

theorem Bad.flush (hlo : 0x2000 ≤ cfg.erase_block_size) (hhi : cfg.erase_block_size < 2^31)
    (h : Bad cfg s) : flushBuffers cfg s = .error .overrun := by
  obtain ⟨⟨-, hbelow, hbound⟩, hlist, hinside, hfull⟩ := h
  have hpos := List.length_pos_iff.mpr hlist
  have hne : s.data_ofs ≠ clnMkr cfg s := by omega
  have hpad : pad4 (s.sum_size+32+8) ≤ cfg.erase_block_size := by
    unfold pad4
    omega
  have hroom : room cfg 64 (s.sum_size+32+8) < s.data_ofs+68+2*JFFS2_MIN_DATA_LEN := by
    have := le_pad4 (s.sum_size+32+8)
    rw [room_eq (by decide) (by omega) hpad]
    omega
  rw [flushBuffers_eq, if_pos hne, if_pos hroom, dumpSumRecords_error hlist hfull]
  rfl

end Output

section Input

variable {cfg : Config}

/-- A part of the input that is passed over, or a live node of a kind that is copied. Inputs with
cleanmarker nodes are left out, also those with padding or summary nodes, obsolete nodes or nodes with
a wrong CRC; a cleanmarker at the start of an output comes from the options alone. -/
def Part.Plain : Part → Prop
  | .word _ => True
  | .element .gap => True
  | .element (.live n _) => Copied n
  | _ => False

/-- The node of a part. -/
def Part.node? : Part → Option Node
  | .element (.live n _) => some n
  | _ => none

def nodesIn (ps : List Part) : List Node := ps.filterMap Part.node?

theorem nodeEffect_copied {n : Node} (hc : Copied n) (s : State) :
    nodeEffect cfg n s = writeNode cfg n s := by
  cases n with
  | cleanmarker rest => exact hc.elim
  | padding rest => exact hc.elim
  | summary n => exact hc.elim
  | _ => rfl

theorem effects_plain {ps : List Part} (h : ∀ part ∈ ps, part.Plain) (s : State) :
    ps.foldlM (fun s part => part.effect cfg s) s = writeNodes cfg (nodesIn ps) s := by
  induction ps generalizing s with
  | nil => rfl
  | cons part ps ih =>
    have hps := ih fun p hp => h p (List.mem_cons_of_mem _ hp)
    have hpart := h part List.mem_cons_self
    rw [List.foldlM_cons]
    cases part with
    | word w => exact hps s
    | broken bytes => exact hpart.elim
    | element el =>
      cases el with
      | gap => exact hps s
      | obsolete n fill => exact hpart.elim
      | live n fill =>
        have hcons : writeNodes cfg (nodesIn (.element (.live n fill) :: ps)) s =
            writeNode cfg n s >>= writeNodes cfg (nodesIn ps) := List.foldlM_cons
        rw [hcons]
        change nodeEffect cfg n s >>= _ = _
        rw [nodeEffect_copied hpart]
        cases writeNode cfg n s with
        | error x => rfl
        | ok s' => exact hps s'

theorem copied_of_plain {ps : List Part} (h : ∀ part ∈ ps, part.Plain) {n : Node}
    (hn : n ∈ nodesIn ps) : Copied n := by
  obtain ⟨part, hpart, hnode⟩ := List.mem_filterMap.mp hn
  cases part with
  | word w => cases hnode
  | broken bytes => cases hnode
  | element el =>
    cases el with
    | gap => cases hnode
    | obsolete n fill => cases hnode
    | live m fill =>
      obtain rfl := Option.some.inj hnode
      exact h _ hpart

theorem fit_of_blocked {blocks : List (List Part)} (h : Blocked cfg blocks) {n : Node}
    (hn : n ∈ nodesIn blocks.flatten) : n.Fit := by
  have hfits (ps : List Part) (hps : Fits cfg.target_endian ps) (hn : n ∈ nodesIn ps) : n.Fit := by
    induction ps with
    | nil => cases hn
    | cons part ps ih =>
      obtain ⟨hpart, hps⟩ := hps
      obtain ⟨p, hp, hnode⟩ := List.mem_filterMap.mp hn
      rcases List.mem_cons.mp hp with rfl | hp
      · cases p with
        | word w => cases hnode
        | broken bytes => cases hnode
        | element el =>
          cases el with
          | gap => cases hnode
          | obsolete n fill => cases hnode
          | live m fill =>
            obtain rfl := Option.some.inj hnode
            exact hpart.1
      · exact ih hps (List.mem_filterMap.mpr ⟨p, hp, hnode⟩)
  induction blocks with
  | nil => cases hn
  | cons ps blocks ih =>
    obtain ⟨hps, -, -, hrest⟩ := h
    rw [List.flatten_cons, nodesIn, List.filterMap_append, List.mem_append] at hn
    rcases hn with hn | hn
    · exact hfits ps hps hn
    · exact ih hrest hn

/-- The bytes at the start of an eraseblock, and the size of the cleanmarker for the summaries, for
input without cleanmarkers. -/
def optionMarker (cfg : Config) (c : Option (ℕ × Endian)) : List Byte := blockMarker cfg (initial c)

def optionSize (cfg : Config) (c : Option (ℕ × Endian)) : ℕ := clnMkr cfg (initial c)

theorem initial_inv (cfg : Config) (c : Option (ℕ × Endian))
    (hc : ∀ size e, c = some (size, e) → 12 ≤ size) :
    Inv cfg (optionMarker cfg c) (optionSize cfg c) [] [] (initial c) := by
  have hmarks : (initial c).Marks cfg := by
    cases c with
    | none => exact ⟨rfl, le_rfl⟩
    | some c => exact ⟨header_length _ _ _, hc _ _ rfl⟩
  have hclean : (initial c).output = [] ∧ (initial c).data_buffer = [] ∧ (initial c).sum_list = [] := by
    cases c <;> exact ⟨rfl, rfl, rfl⟩
  exact ⟨hmarks, rfl, rfl, hclean.1, fun c hc => absurd hc List.not_mem_nil, hclean.2.1,
    hclean.2.2, fun h => absurd rfl h, fun h => absurd rfl h⟩

theorem initial_level (c : Option (ℕ × Endian)) : (initial c).level = ⟨0, 0⟩ := by
  cases c <;> rfl

/-- The run is that of the writers. -/
theorem sumtool_eq {blocks : List (List Part)} (hlo : 0x2000 ≤ cfg.erase_block_size)
    (h : Blocked cfg blocks) (hplain : ∀ part ∈ blocks.flatten, part.Plain) (c : Option (ℕ × Endian))
    {fuel : ℕ} (hfuel : (blocks.flatMap (image cfg.target_endian)).length ≤ fuel) :
    sumtool cfg fuel c (blocks.flatMap (image cfg.target_endian)) =
      writeNodes cfg (nodesIn blocks.flatten) (initial c) >>= fun s =>
        flushBuffers cfg s >>= fun s => .ok s.output := by
  unfold sumtool
  rw [loadBlocks_parts (by omega) blocks h fuel fuel hfuel hfuel, effects_plain hplain]

/-- The output, if there is one, is laid out as it should be, and there is one exactly when no test
for room wraps. -/
theorem sumtool_cases (cfg : Config) (hlo : 0x2000 ≤ cfg.erase_block_size)
    (hhi : cfg.erase_block_size < 2^31) (c : Option (ℕ × Endian))
    (hc : ∀ size e, c = some (size, e) → 12 ≤ size) (blocks : List (List Part))
    (hb : Blocked cfg blocks) (hplain : ∀ part ∈ blocks.flatten, part.Plain)
    (halone : ∀ n ∈ nodesIn blocks.flatten,
      FitsAlone cfg.erase_block_size (optionMarker cfg c).length n) :
    (Roomy cfg.erase_block_size (optionMarker cfg c).length ⟨0, 0⟩ (nodesIn blocks.flatten) ∧
      ∃ out, Layout cfg (optionMarker cfg c) (optionSize cfg c) (nodesIn blocks.flatten) out ∧
        ∀ fuel, (blocks.flatMap (image cfg.target_endian)).length ≤ fuel →
          sumtool cfg fuel c (blocks.flatMap (image cfg.target_endian)) = .ok out) ∨
    (¬Roomy cfg.erase_block_size (optionMarker cfg c).length ⟨0, 0⟩ (nodesIn blocks.flatten) ∧
      ∀ fuel, (blocks.flatMap (image cfg.target_endian)).length ≤ fuel →
        sumtool cfg fuel c (blocks.flatMap (image cfg.target_endian)) = .error .overrun) := by
  have hrun := fun {fuel : ℕ} (hfuel : (blocks.flatMap (image cfg.target_endian)).length ≤ fuel) =>
    sumtool_eq hlo hb hplain c hfuel
  have hcases := writeNodes_cases hhi (fun n hn =>
    ⟨copied_of_plain hplain hn, fit_of_blocked hb hn, halone n hn⟩) (initial_inv cfg c hc)
  rw [initial_level] at hcases
  rcases hcases with ⟨hr, s', blocks', cur', hok, hinv, hnodes⟩ | ⟨hr, ⟨s', hok, hbad⟩ | herr⟩
  · obtain ⟨s'', hflush, hlayout⟩ := hinv.flush hlo hhi
    rw [hnodes] at hlayout
    refine .inl ⟨hr, s''.output, hlayout, fun fuel hfuel => ?_⟩
    rw [hrun hfuel, hok, ok_bind, hflush, ok_bind]
  · refine .inr ⟨hr, fun fuel hfuel => ?_⟩
    rw [hrun hfuel, hok, ok_bind, hbad.flush hlo hhi]
    rfl
  · refine .inr ⟨hr, fun fuel hfuel => ?_⟩
    rw [hrun hfuel, herr]
    rfl

end Input

/-- An image of nodes is turned into eraseblocks with summaries if and only if no node that comes to
a begun eraseblock is too large for what its entries leave of a whole one. -/
theorem sumtool_layout_iff (cfg : Config) (hlo : 0x2000 ≤ cfg.erase_block_size)
    (hhi : cfg.erase_block_size < 2^31) (c : Option (ℕ × Endian))
    (hc : ∀ size e, c = some (size, e) → 12 ≤ size) (blocks : List (List Part))
    (hb : Blocked cfg blocks) (hplain : ∀ part ∈ blocks.flatten, part.Plain)
    (halone : ∀ n ∈ nodesIn blocks.flatten,
      FitsAlone cfg.erase_block_size (optionMarker cfg c).length n) :
    (∃ out, (∀ fuel, (blocks.flatMap (image cfg.target_endian)).length ≤ fuel →
        sumtool cfg fuel c (blocks.flatMap (image cfg.target_endian)) = .ok out) ∧
      Layout cfg (optionMarker cfg c) (optionSize cfg c) (nodesIn blocks.flatten) out) ↔
    Roomy cfg.erase_block_size (optionMarker cfg c).length ⟨0, 0⟩ (nodesIn blocks.flatten) := by
  rcases sumtool_cases cfg hlo hhi c hc blocks hb hplain halone with
    ⟨hr, out, hlayout, hrun⟩ | ⟨hr, herr⟩
  · exact ⟨fun _ => hr, fun _ => ⟨out, hrun, hlayout⟩⟩
  · refine ⟨?_, fun h => absurd h hr⟩
    rintro ⟨out, hrun, -⟩
    have h := (herr _ le_rfl).symm.trans (hrun _ le_rfl)
    cases h

section Example

/-- A directory entry and an inode in one eraseblock. -/
def twoNodes (data : List Byte) : List Part :=
  [.element (.live (.dirent ⟨1, 1, 2, 0, 8, (0, 0), [0x61#8]⟩) [0xff#8, 0xff#8, 0xff#8]),
    .element (.live (.inode ⟨2, 1, 0x81a4, 0, 0, data.length, 0, 0, 0, 0, data.length, 0, 0, 0, data⟩)
      [0xff#8, 0xff#8])]

def smallBlocks : Config := ⟨.little, 8192, true, false⟩

variable {data : List Byte}

theorem twoNodes_fits (hmod : data.length%4 = 2) (hle : data.length ≤ 8054) {ps : List Part}
    (hps : Fits .little ps) : Fits .little (twoNodes data ++ ps) := by
  have hdirent : Jffs2.Fit (Dirent.fields ⟨1, 1, 2, 0, 8, (0, 0), [0x61#8]⟩) := by
    intro f hf
    simp only [Dirent.fields, List.mem_cons, List.not_mem_nil, or_false] at hf
    rcases hf with rfl | rfl | rfl | rfl | rfl | rfl | rfl | rfl <;> decide
  have hinode : Jffs2.Fit (Inode.fields
      ⟨2, 1, 0x81a4, 0, 0, data.length, 0, 0, 0, 0, data.length, 0, 0, 0, data⟩) := by
    intro f hf
    simp only [Inode.fields, List.mem_cons, List.not_mem_nil, or_false] at hf
    rcases hf with rfl | rfl | rfl | rfl | rfl | rfl | rfl | rfl | rfl | rfl | rfl | rfl | rfl |
      rfl | rfl <;> dsimp only <;> omega
  refine ⟨⟨hdirent, rfl, by decide⟩, ⟨hinode, ?_, ?_⟩, hps⟩
  · change 68+data.length+2 = pad4 (68+data.length)
    unfold pad4
    omega
  · change pad4 (68+data.length) < 2^32
    unfold pad4
    omega

theorem twoNodes_length (data : List Byte) (ps : List Part) :
    (image .little (twoNodes data ++ ps)).length = 44+(70+data.length)+(image .little ps).length := by
  simp only [image, twoNodes, List.cons_append, List.nil_append, List.flatMap_cons, Part.bytes,
    Element.encode, List.length_append, Node.encode_length, Node.totlen, Dirent.totlen, Inode.totlen,
    List.length_cons, List.length_nil]
  omega

theorem twoNodes_blocked (hmod : data.length%4 = 2) (hle : data.length ≤ 8054) :
    Blocked smallBlocks [twoNodes data] := by
  have hfits := twoNodes_fits hmod hle (show Fits .little [] from trivial)
  have hlen := twoNodes_length data []
  rw [List.append_nil] at hfits hlen
  refine ⟨hfits, ?_, fun h => absurd rfl h, trivial⟩
  change (image .little (twoNodes data)).length ≤ 8192
  rw [hlen]
  change 44+(70+data.length)+0 ≤ 8192
  omega

theorem twoNodes_plain : ∀ part ∈ twoNodes data, part.Plain := by
  intro part hpart
  simp only [twoNodes, List.mem_cons, List.not_mem_nil, or_false] at hpart
  rcases hpart with rfl | rfl <;> trivial

theorem twoNodes_alone (hle : data.length ≤ 8054) : ∀ n ∈ nodesIn (twoNodes data),
    FitsAlone smallBlocks.erase_block_size (optionMarker smallBlocks none).length n := by
  intro n hn
  simp only [nodesIn, twoNodes, List.filterMap_cons, List.filterMap_nil, Part.node?, List.mem_cons,
    List.not_mem_nil, or_false] at hn
  have hmarker : (optionMarker smallBlocks none).length = 0 := rfl
  unfold FitsAlone
  rw [hmarker]
  rcases hn with rfl | rfl
  · decide
  · change 0+pad4 (68+data.length)+18+32+8 ≤ 8192
    unfold pad4
    omega

theorem twoNodes_roomy_iff (hle : data.length ≤ 8054) :
    Roomy smallBlocks.erase_block_size (optionMarker smallBlocks none).length ⟨0, 0⟩
      (nodesIn [twoNodes data].flatten) ↔ data.length ≤ 8041 := by
  change (_ ∧ ((44 = 0 ∨ pad4 (68+data.length+18+25+32+8) ≤ 8192) ∧ True)) ↔ _
  unfold pad4
  constructor
  · rintro ⟨-, h | h, -⟩ <;> omega
  · exact fun h => ⟨.inl rfl, .inr (by omega), trivial⟩

/-- An eraseblock with a directory entry, an inode of 8038 bytes and a gap. -/
def fullBlock : List Part :=
  twoNodes (List.replicate 8038 0#8) ++ List.replicate 10 (.element .gap)

/-- What follows it goes to another eraseblock of the output. -/
def twoBlocks : List (List Part) := [fullBlock, twoNodes [1#8, 2#8]]

theorem twoBlocks_blocked : Blocked smallBlocks twoBlocks := by
  have hgaps : Fits .little (List.replicate 10 (.element .gap)) :=
    ⟨trivial, trivial, trivial, trivial, trivial, trivial, trivial, trivial, trivial, trivial, trivial⟩
  have hlen : (image .little fullBlock).length = 8192 := by
    rw [fullBlock, twoNodes_length, List.length_replicate]
    rfl
  refine ⟨twoNodes_fits (by rw [List.length_replicate]) (by rw [List.length_replicate]; decide) hgaps,
    hlen.le, fun _ => hlen, twoNodes_blocked rfl (by decide)⟩

theorem twoBlocks_plain : ∀ part ∈ twoBlocks.flatten, part.Plain := by
  intro part hpart
  simp only [twoBlocks, fullBlock, List.flatten_cons, List.flatten_nil, List.append_nil,
    List.mem_append] at hpart
  rcases hpart with (h | h) | h
  · exact twoNodes_plain part h
  · rw [List.eq_of_mem_replicate h]
    trivial
  · exact twoNodes_plain part h

theorem twoBlocks_nodes : nodesIn twoBlocks.flatten =
    nodesIn (twoNodes (List.replicate 8038 0#8)) ++ nodesIn (twoNodes [1#8, 2#8]) := by
  rfl

theorem twoBlocks_alone : ∀ n ∈ nodesIn twoBlocks.flatten,
    FitsAlone smallBlocks.erase_block_size (optionMarker smallBlocks none).length n := by
  intro n hn
  rw [twoBlocks_nodes, List.mem_append] at hn
  rcases hn with h | h
  · exact twoNodes_alone (by rw [List.length_replicate]; decide) n h
  · exact twoNodes_alone (by decide) n h

theorem twoBlocks_stored : ((nodesIn twoBlocks.flatten).flatMap (stored .little)).length = 8268 := by
  have hlen : (List.replicate 8038 0#8).length = 8038 := List.length_replicate
  rw [twoBlocks_nodes]
  generalize List.replicate 8038 0#8 = data at hlen
  simp only [nodesIn, twoNodes, List.filterMap_cons, List.filterMap_nil, Part.node?, List.flatMap_append,
    List.flatMap_cons, List.flatMap_nil, List.length_append, stored_length, Node.totlen, Inode.totlen,
    hlen]
  rfl

/-- The inode closes the eraseblock of the first entry, and the second entry that of the inode. -/
theorem twoBlocks_roomy : Roomy smallBlocks.erase_block_size (optionMarker smallBlocks none).length
    ⟨0, 0⟩ (nodesIn twoBlocks.flatten) := by
  have hlen : (List.replicate 8038 0#8).length = 8038 := List.length_replicate
  rw [twoBlocks_nodes]
  generalize List.replicate 8038 0#8 = data at hlen
  have hinode : Level.next 8192 0 ⟨44, 25⟩ (.inode ⟨2, 1, 0x81a4, 0, 0, data.length, 0, 0, 0, 0,
      data.length, 0, 0, 0, data⟩) = ⟨8108, 18⟩ := by
    have hsize (n : Inode) : (entry 0 (.inode n)).size = 18 := rfl
    unfold Level.next Level.needed
    simp only [Node.totlen, Inode.totlen, hlen, hsize]
    rfl
  refine ⟨.inl rfl, .inr ?_, .inr ?_, .inr ?_, trivial⟩
  · change pad4 (68+data.length+18+25+32+8) ≤ 8192
    rw [hlen]
    decide
  · change (Level.next 8192 0 ⟨44, 25⟩ _).needed _ ≤ 8192
    rw [hinode]
    decide
  · change (Level.next 8192 0 (Level.next 8192 0 ⟨44, 25⟩ _) _).needed _ ≤ 8192
    rw [hinode]
    decide

end Example

/-- Nodes of 8268 bytes do not go into one eraseblock, so that one of them at least is whole and has a
summary. -/
theorem sumtool_layout_small : ∃ out,
    (∀ fuel, (twoBlocks.flatMap (image .little)).length ≤ fuel →
      sumtool smallBlocks fuel none (twoBlocks.flatMap (image .little)) = .ok out) ∧
    Layout smallBlocks [] 0 (nodesIn twoBlocks.flatten) out ∧
    Roomy 8192 0 ⟨0, 0⟩ (nodesIn twoBlocks.flatten) ∧
    ∃ c : Closed, c.Valid smallBlocks ∧ c.nodes ≠ [] ∧ c.bytes smallBlocks <+: out := by
  obtain ⟨out, hrun, hlayout⟩ := (sumtool_layout_iff smallBlocks (by decide) (by decide) none
    (fun _ _ h => by cases h) twoBlocks twoBlocks_blocked twoBlocks_plain twoBlocks_alone).mpr
      twoBlocks_roomy
  refine ⟨out, hrun, hlayout, twoBlocks_roomy, ?_⟩
  obtain ⟨blocks, last, ending, hout, hnodes, hblocks, -, -, hending⟩ := hlayout
  cases blocks with
  | nil =>
    -- the last eraseblock is too small for all of them
    exfalso
    have hlast : last.nodes = nodesIn twoBlocks.flatten := hnodes
    have hle : (last.nodes.flatMap (stored .little)).length ≤ 8192 := by
      have hbody : (last.body .little).length ≤ 8192 := by
        rcases hending with ⟨-, hvalid, hbytes⟩ | ⟨hpad, -⟩ | ⟨-, -, hle⟩
        · calc (last.body .little).length ≤ (last.body .little ++ ending).length := by
                rw [List.length_append]
                exact Nat.le_add_right _ _
            _ = 8192 := (congrArg List.length hbytes).trans hvalid.size
        · cases hpad
        · exact hle
      rw [Block.body, List.length_append] at hbody
      omega
    rw [hlast, twoBlocks_stored] at hle
    omega
  | cons c blocks =>
    obtain ⟨hvalid, hne, -, -⟩ := hblocks c List.mem_cons_self
    refine ⟨c, hvalid, hne, ?_⟩
    rw [hout, List.flatMap_cons, List.append_assoc]
    exact List.prefix_append _ _

/-- An inode of 8122 bytes fits in an eraseblock of 8 KiB, but not behind a directory entry. The test
lets it in. -/
theorem sumtool_layout_tight :
    Blocked smallBlocks [twoNodes (List.replicate 8054 0#8)] ∧
    (∀ n ∈ nodesIn [twoNodes (List.replicate 8054 0#8)].flatten,
      FitsAlone smallBlocks.erase_block_size (optionMarker smallBlocks none).length n) ∧
    ¬∃ out, (∀ fuel, ([twoNodes (List.replicate 8054 0#8)].flatMap (image .little)).length ≤ fuel →
        sumtool smallBlocks fuel none
          ([twoNodes (List.replicate 8054 0#8)].flatMap (image .little)) = .ok out) ∧
      Layout smallBlocks (optionMarker smallBlocks none) (optionSize smallBlocks none)
        (nodesIn [twoNodes (List.replicate 8054 0#8)].flatten) out := by
  have hlen : (List.replicate 8054 0#8).length = 8054 := List.length_replicate
  have hblocked : Blocked smallBlocks [twoNodes (List.replicate 8054 0#8)] :=
    twoNodes_blocked (by rw [hlen]) hlen.le
  have hflat : [twoNodes (List.replicate 8054 0#8)].flatten = twoNodes (List.replicate 8054 0#8) :=
    List.flatten_singleton
  have halone := twoNodes_alone hlen.le
  have hplain := @twoNodes_plain (List.replicate 8054 0#8)
  rw [← hflat] at halone hplain
  refine ⟨hblocked, halone, ?_⟩
  rintro ⟨out, hrun, -⟩
  rcases sumtool_cases smallBlocks (by decide) (by decide) none (fun _ _ h => by cases h) _ hblocked
    hplain halone with ⟨hr, -⟩ | ⟨-, herr⟩
  · have := (twoNodes_roomy_iff hlen.le).mp hr
    omega
  · have h := (herr _ le_rfl).symm.trans (hrun _ le_rfl)
    cases h

end ChipTools.Sumtool
