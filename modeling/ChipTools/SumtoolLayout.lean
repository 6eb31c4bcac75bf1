import ChipTools.SumtoolScan

/-! The eraseblocks that `sumtool` writes. A node is added to the open eraseblock if it fits there
twice, and then the summary fits too. The test is one of unsigned numbers: where the node alone is
too large for what the entries leave, the difference wraps and the node is added although it does
not fit. -/
namespace ChipTools.Sumtool
open Bytes Jffs2 Loop

section Blocks

/-- A node and the bytes up to the next word. -/
def stored (e : Endian) (n : Node) : List Byte :=
  n.encode e ++ List.replicate (pad4 n.totlen-n.totlen) 0xff#8

/-- The entries of nodes that are stored from an offset on. -/
def entries : ℕ → List Node → List SumRecord
  | _, [] => []
  | ofs, n :: ns => entry ofs n :: entries (ofs+pad4 n.totlen) ns

/-- What an eraseblock has in front of its summary. -/
structure Block where
  marker : List Byte
  nodes : List Node

def Block.body (e : Endian) (b : Block) : List Byte := b.marker ++ b.nodes.flatMap (stored e)

/-- An eraseblock with its summary. -/
structure Closed extends Block where
  cln_mkr : ℕ

namespace Closed

variable (cfg : Config) (c : Closed)

def records : List SumRecord := entries c.marker.length c.nodes

def sumSize : ℕ := (c.records.map SumRecord.size).sum

def summary : Summary :=
  let ofs := (c.body cfg.target_endian).length
  ⟨c.cln_mkr, 0, c.records,
    List.replicate (cfg.erase_block_size-ofs-(32+(c.sumSize+8))) 0xff#8, ofs⟩

def bytes : List Byte := c.body cfg.target_endian ++ (c.summary cfg).encode cfg.target_endian

end Closed

variable {e : Endian}

theorem stored_length (n : Node) : (stored e n).length = pad4 n.totlen := by
  have := le_pad4 n.totlen
  rw [stored, List.length_append, Node.encode_length, List.length_replicate]
  omega

theorem body_snoc (marker : List Byte) (ns : List Node) (n : Node) :
    (Block.mk marker (ns ++ [n])).body e = (Block.mk marker ns).body e ++ stored e n := by
  simp only [Block.body, List.flatMap_append, List.flatMap_singleton, List.append_assoc]

theorem entries_snoc (ofs : ℕ) (ns : List Node) (n : Node) :
    entries ofs (ns ++ [n]) = entries ofs ns ++ [entry (ofs+(ns.flatMap (stored e)).length) n] := by
  induction ns generalizing ofs with
  | nil => rfl
  | cons m ns ih =>
    rw [List.cons_append, entries, entries, ih, List.flatMap_cons, List.length_append,
      stored_length, Nat.add_assoc]
    rfl

theorem entry_size (ofs : ℕ) (n : Node) : (entry ofs n).size = (entry 0 n).size := by
  cases n <;> rfl

/-- The entry of a node at its place, and the node there. -/
theorem entries_getElem? (marker : List Byte) (ns : List Node) (post : List Byte) {i : ℕ} {n : Node}
    (hi : ns[i]? = some n) (hm : marker.length%4 = 0) :
    ∃ ofs, (entries marker.length ns)[i]? = some (entry ofs n) ∧ ofs%4 = 0 ∧
      ofs+n.totlen ≤ ((Block.mk marker ns).body e).length ∧
      (((Block.mk marker ns).body e ++ post).drop ofs).take n.totlen = n.encode e := by
  induction ns generalizing marker i with
  | nil => cases hi
  | cons m ns ih =>
    cases i with
    | zero =>
      obtain rfl := Option.some.inj hi
      refine ⟨marker.length, rfl, hm, ?_, ?_⟩
      · have := le_pad4 m.totlen
        simp only [Block.body, List.flatMap_cons, List.length_append, stored_length]
        omega
      · simp only [Block.body, List.flatMap_cons, stored, List.append_assoc]
        rw [List.drop_left, List.take_left' (m.encode_length e)]
    | succ i =>
      have hlen : (marker ++ stored e m).length = marker.length+pad4 m.totlen := by
        rw [List.length_append, stored_length]
      have hbody : (Block.mk (marker ++ stored e m) ns).body e = (Block.mk marker (m :: ns)).body e := by
        simp only [Block.body, List.flatMap_cons, List.append_assoc]
      have h := ih (marker ++ stored e m) hi (by rw [hlen]; unfold pad4; omega)
      rwa [hlen, hbody] at h

/-- The nodes of a block are where its bytes say, aligned. -/
def Block.Holds (e : Endian) (b : Block) (bytes : List Byte) : Prop :=
  ∀ (i : ℕ) (n : Node), b.nodes[i]? = some n →
    ∃ ofs, (entries b.marker.length b.nodes)[i]? = some (entry ofs n) ∧ ofs%4 = 0 ∧
      ofs+n.totlen ≤ (b.body e).length ∧ (bytes.drop ofs).take n.totlen = n.encode e

theorem Block.holds {b : Block} (hm : b.marker.length%4 = 0) (post : List Byte) :
    b.Holds e (b.body e ++ post) := fun _ _ hi => entries_getElem? b.marker b.nodes post hi hm

/-- A whole eraseblock: the nodes, and a summary behind them that lists them and ends the
eraseblock with its own offset. -/
structure Closed.Valid (cfg : Config) (c : Closed) : Prop where
  size : (c.bytes cfg).length = cfg.erase_block_size
  holds : c.Holds cfg.target_endian (c.bytes cfg)
  listed : (c.summary cfg).records = entries c.marker.length c.nodes
  behind : (c.bytes cfg).drop (c.body cfg.target_endian).length =
    (c.summary cfg).encode cfg.target_endian
  last : (c.bytes cfg).drop (cfg.erase_block_size-8) =
    cfg.target_endian.puts [(4, (c.body cfg.target_endian).length), (4, JFFS2_SUM_MAGIC)]

theorem Closed.valid {cfg : Config} {c : Closed} (hm : c.marker.length%4 = 0)
    (hfull : (c.body cfg.target_endian).length+(32+(c.sumSize+8)) ≤ cfg.erase_block_size) :
    c.Valid cfg := by
  have hsum : (c.summary cfg).totlen =
      cfg.erase_block_size-(c.body cfg.target_endian).length := by
    have hrec : ((c.summary cfg).records.map SumRecord.size).sum = c.sumSize := rfl
    have hpad : (c.summary cfg).padding.length = cfg.erase_block_size-
        (c.body cfg.target_endian).length-(32+(c.sumSize+8)) := List.length_replicate
    unfold Summary.totlen Summary.sumLength
    rw [hrec, hpad]
    omega
  have hlen : (c.bytes cfg).length = cfg.erase_block_size := by
    have h := (Node.summary (c.summary cfg)).encode_length cfg.target_endian
    change ((c.summary cfg).encode cfg.target_endian).length = (c.summary cfg).totlen at h
    rw [Closed.bytes, List.length_append, h, hsum]
    omega
  refine ⟨hlen, Block.holds hm _, rfl, List.drop_left, ?_⟩
  obtain ⟨init, hinit⟩ : ∃ init, c.bytes cfg = init ++ cfg.target_endian.puts
      [(4, (c.body cfg.target_endian).length), (4, JFFS2_SUM_MAGIC)] := by
    simp only [Closed.bytes, Summary.encode, Summary.sum, ← List.append_assoc]
    exact ⟨_, rfl⟩
  have hinitlen : init.length = cfg.erase_block_size-8 := by
    have h := congrArg List.length hinit
    rw [hlen, List.length_append, Endian.puts_length] at h
    change cfg.erase_block_size = init.length+8 at h
    omega
  rw [hinit]
  exact List.drop_left' hinitlen

end Blocks

section Writing

variable {cfg : Config} {s : State} {n : Node}

/-- The bytes at the start of an eraseblock. -/
def blockMarker (cfg : Config) (s : State) : List Byte :=
  if cfg.add_cleanmarkers && s.found_cleanmarkers then
    s.cleanmarker ++ List.replicate (pad4 s.cleanmarker_size-12) 0xff#8
  else []

/-- The buffer with one more node and its entry. -/
def append (cfg : Config) (n : Node) (s : State) : State :=
  { s with
    data_buffer := s.data_buffer ++ stored cfg.target_endian n
    sum_list := s.sum_list ++ [entry s.data_ofs n] }

theorem fullWrite_ok {buf : List Byte} (h : s.data_ofs+buf.length ≤ cfg.erase_block_size) :
    fullWrite cfg buf s = .ok { s with data_buffer := s.data_buffer ++ buf } := if_pos h

theorem padword_eq (cfg : Config) (s : State) : padword cfg s = pad cfg (pad4 s.data_ofs-s.data_ofs) s ∨
    padword cfg s = .ok s ∧ pad4 s.data_ofs = s.data_ofs := by
  unfold padword
  by_cases hmod : s.data_ofs%4 ≠ 0
  · left
    rw [if_pos hmod, show 4-s.data_ofs%4 = pad4 s.data_ofs-s.data_ofs by unfold pad4; omega]
  · right
    refine ⟨if_neg hmod, ?_⟩
    unfold pad4
    omega

theorem padword_ok (h : pad4 s.data_ofs ≤ cfg.erase_block_size) : padword cfg s =
    .ok { s with data_buffer := s.data_buffer ++
      List.replicate (pad4 s.data_ofs-s.data_ofs) 0xff#8 } := by
  have hle := le_pad4 s.data_ofs
  rcases padword_eq cfg s with hpad | ⟨hok, heq⟩
  · rw [hpad]
    exact fullWrite_ok (by rw [List.length_replicate]; omega)
  · rw [hok, heq, Nat.sub_self, List.replicate_zero, List.append_nil]

theorem startBlock_open (h : s.data_buffer ≠ []) : startBlock cfg s = .ok s := by
  have hofs : s.data_ofs ≠ 0 := fun h0 => h (List.eq_nil_of_length_eq_zero h0)
  unfold startBlock
  rw [if_neg hofs, ite_self]

theorem startBlock_empty (h : s.data_buffer = []) (hlen : s.cleanmarker.length = 12)
    (hsize : 12 ≤ s.cleanmarker_size) (hfit : (blockMarker cfg s).length ≤ cfg.erase_block_size) :
    startBlock cfg s = .ok { s with data_buffer := blockMarker cfg s } := by
  unfold startBlock blockMarker at *
  by_cases hon : (cfg.add_cleanmarkers && s.found_cleanmarkers) = true
  · rw [if_pos hon] at hfit ⊢
    have hle := le_pad4 s.cleanmarker_size
    rw [List.length_append, hlen, List.length_replicate] at hfit
    have hofs : s.data_ofs = 0 := by rw [State.data_ofs, h, List.length_nil]
    rw [if_pos hofs, fullWrite_ok (by rw [hofs, hlen]; omega), ok_bind,
      if_neg (Nat.not_lt.mpr hsize), h, List.nil_append]
    unfold pad
    rw [fullWrite_ok (by
      change s.cleanmarker.length+(List.replicate (s.cleanmarker_size-12) _).length ≤ _
      rw [List.length_replicate, hlen]
      omega), ok_bind]
    have hcm : (s.cleanmarker ++ List.replicate (s.cleanmarker_size-12) 0xff#8).length =
        s.cleanmarker_size := by
      rw [List.length_append, hlen, List.length_replicate]
      omega
    rw [padword_ok (by
      change pad4 (s.cleanmarker ++ List.replicate (s.cleanmarker_size-12) 0xff#8).length ≤ _
      rw [hcm]
      omega)]
    simp only [State.data_ofs, hcm, if_pos hon, List.append_assoc, List.replicate_append_replicate]
    rw [show s.cleanmarker_size-12+(pad4 s.cleanmarker_size-s.cleanmarker_size) =
      pad4 s.cleanmarker_size-12 by omega]
  · rw [if_neg hon, if_neg hon, ← h]

theorem dumpSumRecords_ok (h : s.sum_list ≠ [])
    (hfit : s.data_ofs+(32+(s.sum_size+8)) ≤ cfg.erase_block_size) :
    dumpSumRecords cfg s = .ok { s with
      data_buffer := s.data_buffer ++ (Summary.mk (clnMkr cfg s) 0 s.sum_list (List.replicate
        (cfg.erase_block_size-s.data_ofs-(32+(s.sum_size+8))) 0xff#8) s.data_ofs).encode
          cfg.target_endian
      sum_list := [] } := by
  unfold dumpSumRecords
  dsimp only
  rw [if_neg h, if_neg (Nat.not_lt.mpr hfit)]

theorem dumpSumRecords_error (h : s.sum_list ≠ [])
    (hfit : cfg.erase_block_size < s.data_ofs+(32+(s.sum_size+8))) :
    dumpSumRecords cfg s = .error .overrun := by
  unfold dumpSumRecords
  dsimp only
  rw [if_neg h, if_pos hfit]

/-- The writer behind its test for room. -/
def copyNode (cfg : Config) (n : Node) (s : State) : Except Fault State :=
  fullWrite cfg (n.encode cfg.target_endian) (s.addSumMem (entry s.data_ofs n)) >>= padword cfg

theorem writeNode_eq (n : Node) (s : State) : writeNode cfg n s =
    padBlockIfLessThan cfg n.totlen (entry 0 n).size s >>= copyNode cfg n := by
  have hlen := n.encode_length cfg.target_endian
  unfold writeNode writeToBuff copyNode
  simp only [hlen, Nat.lt_irrefl, if_false, List.take_of_length_le hlen.le]

theorem copyNode_ok (hmod : s.data_ofs%4 = 0) (h : s.data_ofs+pad4 n.totlen ≤ cfg.erase_block_size) :
    copyNode cfg n s = .ok (append cfg n s) := by
  have hle := le_pad4 n.totlen
  have hlen := n.encode_length cfg.target_endian
  have hofs : (s.data_buffer ++ n.encode cfg.target_endian).length = s.data_ofs+n.totlen := by
    rw [List.length_append, hlen]
    rfl
  have hpad : pad4 (s.data_ofs+n.totlen) = s.data_ofs+pad4 n.totlen := by
    unfold pad4
    omega
  unfold copyNode
  rw [fullWrite_ok (by change s.data_ofs+_ ≤ _; rw [hlen]; omega), ok_bind,
    padword_ok (by change pad4 (s.data_buffer ++ n.encode cfg.target_endian).length ≤ _
                   rw [hofs, hpad]; exact h)]
  simp only [State.addSumMem, State.data_ofs] at hofs hpad ⊢
  simp only [append, stored, hofs, hpad, List.append_assoc, State.data_ofs]
  rw [Nat.add_sub_add_left]

/-- A node that does not fit in the buffer is not copied. -/
theorem copyNode_cases (hmod : s.data_ofs%4 = 0) :
    (s.data_ofs+pad4 n.totlen ≤ cfg.erase_block_size ∧ copyNode cfg n s = .ok (append cfg n s)) ∨
      copyNode cfg n s = .error .overrun := by
  by_cases h : s.data_ofs+pad4 n.totlen ≤ cfg.erase_block_size
  · exact .inl ⟨h, copyNode_ok hmod h⟩
  · right
    have hlen := n.encode_length cfg.target_endian
    have hofs : (s.data_buffer ++ n.encode cfg.target_endian).length = s.data_ofs+n.totlen := by
      rw [List.length_append, hlen]
      rfl
    unfold copyNode
    by_cases hfit : s.data_ofs+n.totlen ≤ cfg.erase_block_size
    · rw [fullWrite_ok (by change s.data_ofs+_ ≤ _; rw [hlen]; exact hfit), ok_bind]
      -- the bytes up to the next word are too many
      rcases padword_eq cfg ({ s.addSumMem (entry s.data_ofs n) with
        data_buffer := s.data_buffer ++ n.encode cfg.target_endian }) with hpad | ⟨-, heq⟩
      · refine hpad.trans (if_neg ?_)
        rw [List.length_replicate]
        simp only [State.data_ofs] at hofs h hmod ⊢
        rw [hofs]
        unfold pad4 at *
        omega
      · simp only [State.data_ofs] at hofs heq h hmod hfit
        rw [hofs] at heq
        unfold pad4 at *
        omega
    · unfold fullWrite
      rw [if_neg (by change ¬s.data_ofs+_ ≤ _; rwa [hlen])]
      rfl

end Writing

end ChipTools.Sumtool
