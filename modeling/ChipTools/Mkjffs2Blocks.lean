import ChipTools.Mkjffs2
import ChipTools.Loop
import Mathlib.Data.List.Induction

/-! The eraseblocks of an image of `mkfs.jffs2`. Every writer asks for the room that its node needs,
with a call of `pad_block_if_less_than`. The nodes are aligned, and inside of one eraseblock each
behind a cleanmarker, exactly when each of these calls is made where it can be met: this is a
condition on `out_ofs` before the call, the options and the length of the node. -/
namespace ChipTools.Jffs2
open Bytes Loop

section Writes

/-- A node was written at an offset. -/
def At (ws : List Write) (o : ℕ) (n : Node) : Prop :=
  ∃ pre post, ws = pre ++ .node n :: post ∧ outOfs pre = o

variable {ws : List Write} {o k : ℕ} {n n' : Node}

@[simp] theorem outOfs_nil : outOfs [] = 0 := rfl

@[simp] theorem outOfs_append (ws vs : List Write) : outOfs (ws ++ vs) = outOfs ws+outOfs vs := by
  rw [outOfs, List.map_append, List.sum_append]
  rfl

@[simp] theorem outOfs_node (n : Node) : outOfs [.node n] = n.stored := Nat.add_zero _

@[simp] theorem outOfs_ff (k : ℕ) : outOfs [.ff k] = k := Nat.add_zero _

theorem at_append (ws vs : List Write) (h : At ws o n) : At (ws ++ vs) o n := by
  obtain ⟨pre, post, rfl, ho⟩ := h
  exact ⟨pre, post ++ vs, by rw [List.append_assoc, List.cons_append], ho⟩

theorem not_at_nil : ¬At [] o n := by
  rintro ⟨pre, post, h, -⟩
  exact List.append_ne_nil_of_right_ne_nil pre (List.cons_ne_nil _ post) h.symm

/-- The nodes after one more write. -/
theorem at_snoc {w : Write} : At (ws ++ [w]) o n ↔ At ws o n ∨ (o = outOfs ws ∧ w = .node n) := by
  constructor
  · rintro ⟨pre, post, h, ho⟩
    rcases List.eq_nil_or_concat post with rfl | ⟨post', w', rfl⟩
    · obtain ⟨rfl, hw⟩ := List.append_inj' h rfl
      exact .inr ⟨ho.symm, (List.cons.inj hw).1⟩
    · rw [List.concat_eq_append, ← List.cons_append, ← List.append_assoc] at h
      obtain ⟨rfl, -⟩ := List.append_inj' h rfl
      exact .inl ⟨pre, post', rfl, ho⟩
  · rintro (h | ⟨rfl, rfl⟩)
    · exact at_append _ _ h
    · exact ⟨ws, [], rfl, rfl⟩

theorem at_ff : At (ws ++ [.ff k]) o n ↔ At ws o n := by
  rw [at_snoc]
  constructor
  · rintro (h | ⟨-, h⟩)
    · exact h
    · cases h
  · exact .inl

theorem at_node : At (ws ++ [.node n']) o n ↔ At ws o n ∨ (o = outOfs ws ∧ n = n') := by
  rw [at_snoc]
  constructor
  · rintro (h | ⟨ho, h⟩)
    · exact .inl h
    · cases h
      exact .inr ⟨ho, rfl⟩
  · rintro (h | ⟨ho, rfl⟩)
    · exact .inl h
    · exact .inr ⟨ho, rfl⟩

/-- A node is behind what was written before it. -/
theorem At.le (h : At ws o n) : o+n.stored ≤ outOfs ws := by
  obtain ⟨pre, post, rfl, rfl⟩ := h
  have hcons : outOfs (.node n :: post) = n.stored+outOfs post := rfl
  rw [outOfs_append, hcons]
  omega

/-- A node that starts before the end of some writes is one of them. -/
theorem at_of_lt {vs : List Write} (h : At (ws ++ vs) o n) (ho : o < outOfs ws) : At ws o n := by
  obtain ⟨pre, post, heq, rfl⟩ := h
  rcases List.append_eq_append_iff.mp heq with ⟨as, rfl, -⟩ | ⟨as, rfl, hcons⟩
  · rw [outOfs_append] at ho
    omega
  · cases as with
    | nil =>
      rw [List.append_nil] at ho
      omega
    | cons w as =>
      obtain ⟨rfl, -⟩ := List.cons.inj hcons
      exact ⟨pre, as, rfl, rfl⟩

theorem stored_pos (n : Node) : 0 < n.stored := by
  cases n <;> simp only [Node.stored, Node.totlen, Inode.totlen, Dirent.totlen, Summary.totlen] <;>
    omega

theorem fullWrite_ok {w : Write} {ws' : List Write} (h : fullWrite w ws = .ok ws') :
    ws' = ws ++ [w] := by
  unfold fullWrite at h
  split at h
  · exact (Except.ok.inj h).symm
  · cases h

theorem stored_le (n : Node) : n.stored ≤ n.totlen := by
  cases n with
  | xattr n => exact Nat.le_add_right _ _
  | _ => exact le_rfl

/-- The image. -/
def imageOf (e : Endian) (ws : List Write) : List Byte := ws.flatMap (Write.bytes e)

theorem bytes_length (e : Endian) (w : Write) : (w.bytes e).length = w.size := by
  cases w with
  | node n =>
    rw [Write.bytes, List.length_take, Node.encode_length, Write.size]
    exact Nat.min_eq_left (stored_le n)
  | ff k => exact List.length_replicate

theorem imageOf_length (e : Endian) (ws : List Write) : (imageOf e ws).length = outOfs ws := by
  unfold imageOf outOfs
  rw [List.length_flatMap]
  congr 1
  exact List.map_congr_left fun w _ => bytes_length e w

/-- Every byte that is in no node is `0xff`. -/
theorem imageOf_blank (e : Endian) (ws : List Write) {i : ℕ} (hi : i < outOfs ws)
    (h : ∀ o n, At ws o n → i < o ∨ o+n.totlen ≤ i) : (imageOf e ws)[i]? = some 0xff#8 := by
  induction ws using List.reverseRecOn with
  | nil => exact absurd hi (Nat.not_lt_zero i)
  | append_singleton ws w ih =>
    have himage : imageOf e (ws ++ [w]) = imageOf e ws ++ w.bytes e := by
      unfold imageOf
      rw [List.flatMap_append, List.flatMap_singleton]
    rw [himage]
    by_cases hlt : i < outOfs ws
    · rw [List.getElem?_append_left (by rwa [imageOf_length])]
      exact ih hlt fun o n hat => h o n (at_append _ _ hat)
    · rw [List.getElem?_append_right (by rw [imageOf_length]; omega), imageOf_length]
      cases w with
      | node n =>
        have hn := h _ n (at_node.mpr (.inr ⟨rfl, rfl⟩))
        have := stored_le n
        rw [outOfs_append, outOfs_node] at hi
        omega
      | ff k =>
        rw [outOfs_append, outOfs_ff] at hi
        rw [Write.bytes, List.getElem?_replicate, if_pos (by omega)]

end Writes

section Structure

/-- The structure of an image: aligned nodes, each inside one eraseblock that starts with a
cleanmarker, and nothing else. -/
structure BlockStructure (cfg : Config) (ws : List Write) : Prop where
  aligned : ∀ o n, At ws o n → o%4 = 0
  inside : ∀ o n, At ws o n → o%cfg.erase_block_size+n.totlen ≤ cfg.erase_block_size
  within : ∀ o n, At ws o n → o+n.totlen ≤ outOfs ws
  marked : cfg.add_cleanmarkers = true → ∀ o n, At ws o n →
    At ws (o/cfg.erase_block_size*cfg.erase_block_size) (cleanmarker cfg)
  blank : ∀ i < outOfs ws, (∀ o n, At ws o n → i < o ∨ o+n.totlen ≤ i) →
    (imageOf cfg.target_endian ws)[i]? = some 0xff#8

/-- The part of it that a node can break. -/
structure Placed (cfg : Config) (ws : List Write) : Prop where
  aligned : ∀ o n, At ws o n → o%4 = 0
  inside : ∀ o n, At ws o n → o%cfg.erase_block_size+n.totlen ≤ cfg.erase_block_size
  marked : cfg.add_cleanmarkers = true → ∀ o n, At ws o n →
    At ws (o/cfg.erase_block_size*cfg.erase_block_size) (cleanmarker cfg)

/-- All bytes of the nodes are written. -/
def Within (ws : List Write) : Prop := ∀ o n, At ws o n → o+n.totlen ≤ outOfs ws

variable {cfg : Config} {ws ws₁ ws₂ ws' : List Write} {n : Node}

theorem blockStructure_iff (h : Placed cfg ws → Within ws) : BlockStructure cfg ws ↔ Placed cfg ws :=
  ⟨fun hs => ⟨hs.aligned, hs.inside, hs.marked⟩,
    fun hp => ⟨hp.aligned, hp.inside, h hp, hp.marked, fun _ hi => imageOf_blank _ ws hi⟩⟩

theorem placed_nil (cfg : Config) : Placed cfg [] :=
  ⟨fun _ _ h => absurd h not_at_nil, fun _ _ h => absurd h not_at_nil,
    fun _ _ _ h => absurd h not_at_nil⟩

/-- What was written before had its place too. -/
theorem Placed.before (hpre : ws <+: ws') (h : Placed cfg ws') : Placed cfg ws := by
  obtain ⟨vs, rfl⟩ := hpre
  refine ⟨fun o m hm => h.aligned o m (at_append _ _ hm), fun o m hm => h.inside o m (at_append _ _ hm),
    fun hc o m hm => ?_⟩
  have hlt : o < outOfs ws := by
    have := hm.le
    have := stored_pos m
    omega
  exact at_of_lt (h.marked hc o m (at_append _ _ hm)) ((Nat.div_mul_le_self _ _).trans_lt hlt)

theorem Placed.congr (hat : ∀ o m, At ws' o m ↔ At ws o m) : Placed cfg ws' ↔ Placed cfg ws := by
  constructor
  · rintro ⟨h₁, h₂, h₃⟩
    exact ⟨fun o m hm => h₁ o m ((hat o m).mpr hm), fun o m hm => h₂ o m ((hat o m).mpr hm),
      fun hc o m hm => (hat _ _).mp (h₃ hc o m ((hat o m).mpr hm))⟩
  · rintro ⟨h₁, h₂, h₃⟩
    exact ⟨fun o m hm => h₁ o m ((hat o m).mp hm), fun o m hm => h₂ o m ((hat o m).mp hm),
      fun hc o m hm => (hat _ _).mpr (h₃ hc o m ((hat o m).mp hm))⟩

/-- An offset in the eraseblock of another. -/
theorem same_block {o t b : ℕ} (ht : o%b+t < b) : (o+t)/b = o/b ∧ (o+t)%b = o%b+t := by
  have hdiv := Nat.div_add_mod o b
  have hsum : o+t = b*(o/b)+(o%b+t) := by omega
  constructor
  · rw [hsum, Nat.mul_add_div (by omega), Nat.div_eq_of_lt ht, Nat.add_zero]
  · rw [hsum, Nat.mul_add_mod, Nat.mod_eq_of_lt ht]

end Structure

section Steps

variable {cfg : Config} {ws ws₁ ws₂ ws' : List Write} {n : Node} {req : ℕ}

variable (cfg) in
/-- What the cleanmarker takes of an eraseblock. -/
def Config.markSize : ℕ := if cfg.add_cleanmarkers then pad4 cfg.cleanmarker_size else 0

theorem cleanmarker_totlen (cfg : Config) : (cleanmarker cfg).totlen = cfg.cleanmarker_size := by
  have := cfg.cleanmarker_min
  rw [cleanmarker, Node.totlen, List.length_replicate]
  omega

theorem cleanmarker_stored (cfg : Config) : (cleanmarker cfg).stored = cfg.cleanmarker_size :=
  cleanmarker_totlen cfg

theorem block_pos (cfg : Config) : 0 < cfg.erase_block_size :=
  Nat.lt_of_lt_of_le (by decide) cfg.block_min

theorem le_pad4_self (k : ℕ) : k ≤ pad4 k := by
  unfold pad4
  omega

/-- The length of a node is at most what is written of it, up to the next word. -/
def Node.Padded (n : Node) : Prop := n.totlen ≤ pad4 n.stored

theorem padword_ok (h : padword ws = .ok ws') :
    ∃ fill, (fill = [] ∨ ∃ k, fill = [.ff k]) ∧ ws' = ws ++ fill ∧
      outOfs ws' = pad4 (outOfs ws) := by
  unfold padword at h
  split at h
  next h0 =>
    obtain rfl := Except.ok.inj h
    refine ⟨[], .inl rfl, (List.append_nil _).symm, ?_⟩
    unfold pad4
    omega
  next h0 =>
    obtain rfl := fullWrite_ok h
    refine ⟨[.ff (4-outOfs ws%4)], .inr ⟨_, rfl⟩, rfl, ?_⟩
    rw [outOfs_append, outOfs_ff]
    unfold pad4
    omega

/-- A node at the end, with blank bytes up to the next word. -/
theorem writeNode_ok (h : writeNode n ws = .ok ws') : ws <+: ws' ∧
    (∀ o m, At ws' o m ↔ At ws o m ∨ (o = outOfs ws ∧ m = n)) ∧
    outOfs ws' = pad4 (outOfs ws+n.stored) := by
  obtain ⟨ws₁, h₁, h₂⟩ := bind_eq_ok h
  obtain rfl := fullWrite_ok h₁
  obtain ⟨fill, hfill, rfl, hofs⟩ := padword_ok h₂
  refine ⟨⟨_, (List.append_assoc _ _ _).symm⟩, fun o m => ?_, ?_⟩
  · rcases hfill with rfl | ⟨k, rfl⟩
    · rw [List.append_nil, at_node]
    · rw [at_ff, at_node]
  · rw [hofs, outOfs_append, outOfs_node]

/-- Where the eraseblock of an offset ends, or the offset where one starts there. -/
def blockEnd (cfg : Config) (o : ℕ) : ℕ :=
  if o%cfg.erase_block_size = 0 then o else (o/cfg.erase_block_size+1)*cfg.erase_block_size

theorem blockEnd_mod (cfg : Config) (o : ℕ) : blockEnd cfg o%cfg.erase_block_size = 0 := by
  unfold blockEnd
  split
  next h => exact h
  next => exact Nat.mul_mod_left _ _

theorem padblock_ends (h : padblock cfg ws = .ok ws') : ws <+: ws' ∧
    (∀ o m, At ws' o m ↔ At ws o m) ∧ outOfs ws' = blockEnd cfg (outOfs ws) := by
  unfold padblock at h
  unfold blockEnd
  split at h
  next h0 =>
    obtain rfl := Except.ok.inj h
    rw [if_pos h0]
    exact ⟨List.prefix_refl _, fun _ _ => Iff.rfl, rfl⟩
  next h0 =>
    obtain rfl := fullWrite_ok h
    refine ⟨List.prefix_append _ _, fun _ _ => at_ff, ?_⟩
    have hdiv := Nat.div_add_mod (outOfs ws) cfg.erase_block_size
    have hlt := Nat.mod_lt (outOfs ws) (block_pos cfg)
    rw [if_neg h0, outOfs_append, outOfs_ff, Nat.succ_mul, Nat.mul_comm]
    omega

/-- A cleanmarker has its place at the start of an eraseblock. -/
theorem cleanmarker_placed (h0 : outOfs ws%cfg.erase_block_size = 0)
    (hat : ∀ o m, At ws' o m ↔ At ws o m ∨ (o = outOfs ws ∧ m = cleanmarker cfg)) :
    Placed cfg ws' ↔ Placed cfg ws ∧ outOfs ws%4 = 0 ∧
      cfg.cleanmarker_size ≤ cfg.erase_block_size := by
  have hstart : outOfs ws/cfg.erase_block_size*cfg.erase_block_size = outOfs ws :=
    Nat.div_mul_cancel (Nat.dvd_of_mod_eq_zero h0)
  have hnew : At ws' (outOfs ws) (cleanmarker cfg) := (hat _ _).mpr (.inr ⟨rfl, rfl⟩)
  constructor
  · intro h
    refine ⟨⟨fun o m hm => h.aligned o m ((hat o m).mpr (.inl hm)),
      fun o m hm => h.inside o m ((hat o m).mpr (.inl hm)), fun hc o m hm => ?_⟩,
      h.aligned _ _ hnew, ?_⟩
    · rcases (hat _ _).mp (h.marked hc o m ((hat o m).mpr (.inl hm))) with hmark | ⟨heq, -⟩
      · exact hmark
      · have := hm.le
        have := stored_pos m
        have := Nat.div_mul_le_self o cfg.erase_block_size
        omega
    · have := h.inside _ _ hnew
      rwa [h0, Nat.zero_add, cleanmarker_totlen] at this
  · rintro ⟨h, h4, hle⟩
    refine ⟨fun o m hm => ?_, fun o m hm => ?_, fun hc o m hm => ?_⟩
    · rcases (hat o m).mp hm with hm | ⟨rfl, rfl⟩
      · exact h.aligned o m hm
      · exact h4
    · rcases (hat o m).mp hm with hm | ⟨rfl, rfl⟩
      · exact h.inside o m hm
      · rwa [h0, Nat.zero_add, cleanmarker_totlen]
    · rcases (hat o m).mp hm with hm | ⟨rfl, rfl⟩
      · exact (hat _ _).mpr (.inl (h.marked hc o m hm))
      · rwa [hstart]

/-- Any other node has its place where the eraseblock has a cleanmarker and room. -/
theorem writeNode_placed (hne : n ≠ cleanmarker cfg) (hrun : writeNode n ws = .ok ws') :
    Placed cfg ws' ↔ Placed cfg ws ∧ outOfs ws%4 = 0 ∧
      outOfs ws%cfg.erase_block_size+n.totlen ≤ cfg.erase_block_size ∧
      (cfg.add_cleanmarkers = true →
        At ws (outOfs ws/cfg.erase_block_size*cfg.erase_block_size) (cleanmarker cfg)) := by
  obtain ⟨hpre, hat, -⟩ := writeNode_ok hrun
  have hnew : At ws' (outOfs ws) n := (hat _ _).mpr (.inr ⟨rfl, rfl⟩)
  constructor
  · intro h
    refine ⟨h.before hpre, h.aligned _ _ hnew, h.inside _ _ hnew, fun hc => ?_⟩
    exact ((hat _ _).mp (h.marked hc _ _ hnew)).resolve_right fun heq => hne heq.2.symm
  · rintro ⟨h, h4, hle, hmark⟩
    refine ⟨fun o m hm => ?_, fun o m hm => ?_, fun hc o m hm => (hat _ _).mpr (.inl ?_)⟩
    · rcases (hat o m).mp hm with hm | ⟨rfl, rfl⟩
      · exact h.aligned o m hm
      · exact h4
    · rcases (hat o m).mp hm with hm | ⟨rfl, rfl⟩
      · exact h.inside o m hm
      · exact hle
    · rcases (hat o m).mp hm with hm | ⟨rfl, rfl⟩
      · exact h.marked hc o m hm
      · exact hmark hc

/-- A word of an eraseblock behind its cleanmarker is behind what that takes. -/
theorem markSize_le {o : ℕ} (h : Placed cfg ws) (hc : cfg.add_cleanmarkers = true)
    (hmark : At ws (o/cfg.erase_block_size*cfg.erase_block_size) (cleanmarker cfg))
    (hle : outOfs ws ≤ o) (h4 : o%4 = 0) : cfg.markSize ≤ o%cfg.erase_block_size := by
  have halign := h.aligned _ _ hmark
  have hend := hmark.le
  have hdiv := Nat.div_add_mod o cfg.erase_block_size
  rw [Nat.mul_comm] at hdiv
  rw [cleanmarker_stored] at hend
  unfold Config.markSize pad4
  rw [if_pos hc]
  omega

/-- A node in a new eraseblock, behind the cleanmarker of that. -/
theorem newBlock_placed (h0 : outOfs ws%cfg.erase_block_size = 0)
    (hstart : startBlock cfg ws = .ok ws₁) (hne : n ≠ cleanmarker cfg)
    {totlen : ℕ → ℕ} (hpos : ∀ p, 0 < totlen p)
    (hlen : n.totlen = totlen (outOfs ws₁%cfg.erase_block_size))
    (hrun : writeNode n ws₁ = .ok ws') :
    Placed cfg ws' ↔ Placed cfg ws ∧ outOfs ws%4 = 0 ∧
      cfg.markSize+totlen cfg.markSize ≤ cfg.erase_block_size := by
  have hcm := cfg.cleanmarker_min
  have hfits := hpos cfg.markSize
  rw [writeNode_placed hne hrun]
  unfold startBlock at hstart
  split at hstart
  next hc =>
    obtain ⟨-, hat, hofs⟩ := writeNode_ok hstart
    have hsize : cfg.markSize = pad4 cfg.cleanmarker_size := if_pos hc.1
    have hpad := le_pad4_self cfg.cleanmarker_size
    rw [cleanmarker_placed h0 hat, hlen]
    rw [cleanmarker_stored] at hofs
    constructor
    · rintro ⟨⟨hp, h4, hle⟩, h4', hroom, hmark⟩
      have hlt := Nat.mod_lt (outOfs ws₁) (block_pos cfg)
      have hmin := markSize_le ((cleanmarker_placed h0 hat).mpr ⟨hp, h4, hle⟩) hc.1 (hmark hc.1)
        (le_refl _) h4'
      have heq : outOfs ws₁ = outOfs ws+cfg.markSize := by
        rw [hofs, hsize]
        unfold pad4
        omega
      have hmod : outOfs ws₁%cfg.erase_block_size = cfg.markSize := by
        rw [heq, (same_block (by omega)).2, h0, Nat.zero_add]
      rw [hmod] at hroom
      exact ⟨hp, h4, hroom⟩
    · rintro ⟨hp, h4, hroom⟩
      have heq : outOfs ws₁ = outOfs ws+cfg.markSize := by
        rw [hofs, hsize]
        unfold pad4
        omega
      obtain ⟨hdiv, hmod⟩ := @same_block (outOfs ws) cfg.markSize cfg.erase_block_size (by omega)
      rw [h0, Nat.zero_add] at hmod
      rw [heq, hmod, hdiv]
      refine ⟨⟨hp, h4, by omega⟩, ?_, hroom, fun _ => ?_⟩
      · rw [hsize]
        unfold pad4
        omega
      · rw [Nat.div_mul_cancel (Nat.dvd_of_mod_eq_zero h0)]
        exact (hat _ _).mpr (.inr ⟨rfl, rfl⟩)
  next hc =>
    obtain rfl := Except.ok.inj hstart
    have hno : ¬cfg.add_cleanmarkers = true := fun h => hc ⟨h, h0⟩
    rw [hlen, h0, Config.markSize, if_neg hno]
    exact ⟨fun h => ⟨h.1, h.2.1, h.2.2.1⟩, fun h => ⟨h.1, h.2.1, h.2.2, fun h => absurd h hno⟩⟩

end Steps

section Asks

variable (cfg : Config)

/-- A call of `pad_block_if_less_than`: `out_ofs` before it, the room that is asked for, and the
length of the node that follows, by its place in an eraseblock. -/
structure Ask where
  ofs : ℕ
  req : ℕ
  totlen : ℕ → ℕ

/-- The node fits an eraseblock from a place in it on. -/
def Ask.Fits (a : Ask) (p : ℕ) : Prop := p+a.totlen p ≤ cfg.erase_block_size

/-- The call goes on to a new eraseblock. Its start is the end of one, so it has to be a word's, and
the node has to fit behind the cleanmarker. -/
def Ask.FitsNew (a : Ask) : Prop :=
  (a.ofs/cfg.erase_block_size+1)*cfg.erase_block_size%4 = 0 ∧ a.Fits cfg cfg.markSize

/-- What a call needs of `out_ofs` and the options to lead to a good place. In an eraseblock that is
begun, there is a cleanmarker unless only the filler of the last word before is there. -/
def Ask.Served (a : Ask) : Prop :=
  if cfg.add_cleanmarkers ∧ a.ofs%cfg.erase_block_size = 0 then
    if cfg.markSize+a.req ≤ cfg.erase_block_size then a.Fits cfg cfg.markSize else a.FitsNew cfg
  else if a.ofs%cfg.erase_block_size+a.req ≤ cfg.erase_block_size then
    (cfg.add_cleanmarkers → cfg.markSize ≤ a.ofs%cfg.erase_block_size) ∧
      a.Fits cfg (a.ofs%cfg.erase_block_size)
  else a.FitsNew cfg

instance (a : Ask) (p : ℕ) : Decidable (a.Fits cfg p) := inferInstanceAs (Decidable (_ ≤ _))

instance (a : Ask) : Decidable (a.FitsNew cfg) := inferInstanceAs (Decidable (_ ∧ _))

instance (a : Ask) : Decidable (a.Served cfg) := by
  unfold Ask.Served
  infer_instance

end Asks

section Requests

variable {cfg : Config} {ws ws₁ ws₂ ws' : List Write} {n : Node} {a : Ask} {as bs : List Ask}

/-- Between two nodes: the next offset is a word's. With all nodes in their places, an eraseblock
that is begun has its cleanmarker, unless only filler of the last word before is there. -/
structure Steady (cfg : Config) (ws : List Write) : Prop where
  words : outOfs ws%4 = 0
  within : Placed cfg ws → Within ws
  begun : Placed cfg ws → cfg.add_cleanmarkers = true → outOfs ws%cfg.erase_block_size < 4 ∨
    (At ws (outOfs ws/cfg.erase_block_size*cfg.erase_block_size) (cleanmarker cfg) ∧
      cfg.markSize ≤ outOfs ws%cfg.erase_block_size)

/-- The calls, each with the node that is written after it. -/
inductive Asked (cfg : Config) : List Write → List Ask → List Write → Prop
  | nil (ws : List Write) : Asked cfg ws [] ws
  | cons {ws ws₁ ws₂ ws' : List Write} {a : Ask} {as : List Ask} {n : Node}
      (ofs : a.ofs = outOfs ws) (room : padBlockIfLessThan cfg a.req ws = .ok ws₁)
      (node : writeNode n ws₁ = .ok ws₂)
      (totlen : n.totlen = a.totlen (outOfs ws₁%cfg.erase_block_size))
      (pos : ∀ p, 0 < a.totlen p) (large : cfg.erase_block_size < a.req → a.req ≤ a.totlen 0)
      (padded : n.Padded) (ne : n ≠ cleanmarker cfg)
      (rest : Asked cfg ws₂ as ws') : Asked cfg ws (a :: as) ws'

theorem Asked.append (h : Asked cfg ws as ws₁) (h' : Asked cfg ws₁ bs ws') :
    Asked cfg ws (as ++ bs) ws' := by
  induction h with
  | nil => exact h'
  | cons ofs room node totlen pos large padded ne _ ih =>
    exact .cons ofs room node totlen pos large padded ne (ih h')

theorem steady_nil (cfg : Config) : Steady cfg [] :=
  ⟨rfl, fun _ _ _ h => absurd h not_at_nil,
    fun _ _ => .inl (by rw [show outOfs [] = 0 from rfl, Nat.zero_mod]; decide)⟩

theorem startBlock_grows (h : startBlock cfg ws = .ok ws') : ws <+: ws' := by
  unfold startBlock at h
  split at h
  · exact (writeNode_ok h).1
  · obtain rfl := Except.ok.inj h
    exact List.prefix_refl _

theorem makeRoom_grows {req : ℕ} (h : makeRoom cfg req ws = .ok ws') : ws <+: ws' := by
  unfold makeRoom at h
  split at h
  · exact (padblock_ends h).1
  · obtain rfl := Except.ok.inj h
    exact List.prefix_refl _

/-- Where no cleanmarker is due, none is written. -/
theorem startBlock_none (hno : ¬(cfg.add_cleanmarkers = true ∧ outOfs ws%cfg.erase_block_size = 0))
    (h : startBlock cfg ws = .ok ws') : ws' = ws := by
  rw [startBlock, if_neg hno] at h
  exact (Except.ok.inj h).symm

theorem makeRoom_none {req : ℕ} (hfit : outOfs ws%cfg.erase_block_size+req ≤ cfg.erase_block_size)
    (h : makeRoom cfg req ws = .ok ws') : ws' = ws := by
  rw [makeRoom, if_neg (by omega)] at h
  exact (Except.ok.inj h).symm

/-- The end of an eraseblock that has bytes left. -/
theorem blockEnd_of_ne {o : ℕ} (h : o%cfg.erase_block_size ≠ 0) :
    blockEnd cfg o = (o/cfg.erase_block_size+1)*cfg.erase_block_size := if_neg h

/-- The call goes on to the next eraseblock, from any offset in one. -/
theorem nextBlock_placed (hfull : cfg.erase_block_size < outOfs ws%cfg.erase_block_size+a.req)
    (hne0 : outOfs ws%cfg.erase_block_size ≠ 0) (hroom : makeRoom cfg a.req ws = .ok ws₁)
    (hstart : startBlock cfg ws₁ = .ok ws₂) (hne : n ≠ cleanmarker cfg)
    (hpos : ∀ p, 0 < a.totlen p) (hlen : n.totlen = a.totlen (outOfs ws₂%cfg.erase_block_size))
    (hnode : writeNode n ws₂ = .ok ws') :
    Placed cfg ws' ↔ Placed cfg ws ∧
      (outOfs ws/cfg.erase_block_size+1)*cfg.erase_block_size%4 = 0 ∧ a.Fits cfg cfg.markSize := by
  rw [makeRoom, if_pos hfull] at hroom
  obtain ⟨-, hat, hofs⟩ := padblock_ends hroom
  have h0 : outOfs ws₁%cfg.erase_block_size = 0 := by rw [hofs, blockEnd_mod]
  rw [newBlock_placed h0 hstart hne hpos hlen hnode, Placed.congr hat, hofs, blockEnd_of_ne hne0]
  rfl

/-- A call at the start of an eraseblock that gets a cleanmarker. -/
theorem asked_start (hc : cfg.add_cleanmarkers = true) (h0 : outOfs ws%cfg.erase_block_size = 0)
    (hofs : a.ofs = outOfs ws) (h4 : outOfs ws%4 = 0)
    (hroom : padBlockIfLessThan cfg a.req ws = .ok ws₁) (hne : n ≠ cleanmarker cfg)
    (hpos : ∀ p, 0 < a.totlen p) (hlen : n.totlen = a.totlen (outOfs ws₁%cfg.erase_block_size))
    (hnode : writeNode n ws₁ = .ok ws') : Placed cfg ws' ↔ Placed cfg ws ∧ a.Served cfg := by
  obtain ⟨v₁, hv₁, hrun⟩ := bind_eq_ok hroom
  obtain ⟨v₂, hv₂, hv₃⟩ := bind_eq_ok hrun
  have hpre : v₁ <+: ws' := (makeRoom_grows hv₂).trans
    ((startBlock_grows hv₃).trans (writeNode_ok hnode).1)
  have hmark := hv₁
  rw [startBlock, if_pos ⟨hc, h0⟩] at hmark
  obtain ⟨-, hat, hv⟩ := writeNode_ok hmark
  have hcm := cfg.cleanmarker_min
  have hsize : cfg.markSize = pad4 cfg.cleanmarker_size := if_pos hc
  have hpad := le_pad4_self cfg.cleanmarker_size
  have hv' : outOfs v₁ = outOfs ws+cfg.markSize := by
    rw [hv, cleanmarker_stored, hsize]
    unfold pad4
    omega
  unfold Ask.Served
  rw [hofs, if_pos ⟨hc, h0⟩]
  by_cases hlt : cfg.markSize < cfg.erase_block_size
  · obtain ⟨hdiv, hmod⟩ := @same_block (outOfs ws) cfg.markSize cfg.erase_block_size (by omega)
    rw [h0, Nat.zero_add] at hmod
    have hbegun : ¬(cfg.add_cleanmarkers = true ∧ outOfs v₁%cfg.erase_block_size = 0) := by
      rw [hv', hmod]
      omega
    by_cases hfit : cfg.markSize+a.req ≤ cfg.erase_block_size
    · rw [if_pos hfit]
      obtain rfl := makeRoom_none (by rw [hv', hmod]; exact hfit) hv₂
      obtain rfl := startBlock_none hbegun hv₃
      rw [newBlock_placed h0 hv₁ hne hpos hlen hnode]
      exact ⟨fun h => ⟨h.1, h.2.2⟩, fun h => ⟨h.1, h4, h.2⟩⟩
    · rw [if_neg hfit]
      rw [nextBlock_placed (by rw [hv', hmod]; omega) (by rw [hv', hmod]; omega) hv₂ hv₃ hne hpos
        hlen hnode, cleanmarker_placed h0 hat, Ask.FitsNew, hofs, hv', hdiv]
      have := hpos cfg.markSize
      unfold Ask.Fits
      exact ⟨fun h => ⟨h.1.1, h.2⟩, fun h => ⟨⟨h.1, h4, by omega⟩, h.2⟩⟩
  · -- the cleanmarker leaves no room: the node is in an eraseblock without one
    have hno : ¬a.Fits cfg cfg.markSize := by
      have := hpos cfg.markSize
      unfold Ask.Fits
      omega
    constructor
    · intro h
      obtain ⟨hp, h4', -, hmarked⟩ := (writeNode_placed hne hnode).mp h
      have hmin := markSize_le hp hc (hmarked hc) (le_refl _) h4'
      have := Nat.mod_lt (outOfs ws₁) (block_pos cfg)
      omega
    · rintro ⟨-, h⟩
      split at h
      · exact absurd h hno
      · exact absurd h.2 hno

/-- A call anywhere else. -/
theorem asked_begun (hno : ¬(cfg.add_cleanmarkers = true ∧ outOfs ws%cfg.erase_block_size = 0))
    (h : Steady cfg ws) (hofs : a.ofs = outOfs ws)
    (hroom : padBlockIfLessThan cfg a.req ws = .ok ws₁) (hne : n ≠ cleanmarker cfg)
    (hpos : ∀ p, 0 < a.totlen p) (hlarge : cfg.erase_block_size < a.req → a.req ≤ a.totlen 0)
    (hlen : n.totlen = a.totlen (outOfs ws₁%cfg.erase_block_size))
    (hnode : writeNode n ws₁ = .ok ws') : Placed cfg ws' ↔ Placed cfg ws ∧ a.Served cfg := by
  obtain ⟨v₁, hv₁, hrun⟩ := bind_eq_ok hroom
  obtain ⟨v₂, hv₂, hv₃⟩ := bind_eq_ok hrun
  obtain rfl := startBlock_none hno hv₁
  unfold Ask.Served
  rw [hofs, if_neg hno]
  by_cases hfit : outOfs v₁%cfg.erase_block_size+a.req ≤ cfg.erase_block_size
  · obtain rfl := makeRoom_none hfit hv₂
    obtain rfl := startBlock_none hno hv₃
    rw [if_pos hfit, writeNode_placed hne hnode, hlen]
    constructor
    · rintro ⟨hp, h4, hroom, hmark⟩
      exact ⟨hp, fun hc => markSize_le hp hc (hmark hc) (le_refl _) h4, hroom⟩
    · rintro ⟨hp, hmark, hroom⟩
      refine ⟨hp, h.words, hroom, fun hc => ?_⟩
      have hcm := cfg.cleanmarker_min
      have hle := hmark hc
      rw [Config.markSize, if_pos hc] at hle
      have := le_pad4_self cfg.cleanmarker_size
      rcases h.begun hp hc with hlt | hbegun
      · omega
      · exact hbegun.1
  · rw [if_neg hfit]
    by_cases h0 : outOfs v₁%cfg.erase_block_size = 0
    · -- without cleanmarkers, and the node is longer than an eraseblock
      have hc : ¬cfg.add_cleanmarkers = true := fun hc => hno ⟨hc, h0⟩
      have hlong := hlarge (by omega)
      have hmark : cfg.markSize = 0 := if_neg hc
      rw [makeRoom, if_pos (by omega), padblock, if_pos h0] at hv₂
      obtain rfl := Except.ok.inj hv₂
      rw [newBlock_placed h0 hv₃ hne hpos hlen hnode, Ask.FitsNew, Ask.Fits, hmark]
      constructor
      · rintro ⟨-, -, h⟩
        omega
      · rintro ⟨-, -, h⟩
        omega
    · rw [nextBlock_placed (by omega) h0 hv₂ hv₃ hne hpos hlen hnode, Ask.FitsNew, hofs]

theorem padBlockIfLessThan_grows {req : ℕ} (h : padBlockIfLessThan cfg req ws = .ok ws') :
    ws <+: ws' := by
  obtain ⟨v₁, hv₁, hrun⟩ := bind_eq_ok h
  obtain ⟨v₂, hv₂, hv₃⟩ := bind_eq_ok hrun
  exact (startBlock_grows hv₁).trans ((makeRoom_grows hv₂).trans (startBlock_grows hv₃))

theorem Within.writeNode (h : Within ws)
    (hle : outOfs ws+n.totlen ≤ pad4 (outOfs ws+n.stored)) (hrun : writeNode n ws = .ok ws') :
    Within ws' := by
  obtain ⟨-, hat, hofs⟩ := writeNode_ok hrun
  have hpad := le_pad4_self (outOfs ws+n.stored)
  intro o m hm
  rw [hofs]
  rcases (hat o m).mp hm with hm | ⟨rfl, rfl⟩
  · have := h o m hm
    omega
  · exact hle

theorem Within.startBlock (h : Within ws) (hrun : startBlock cfg ws = .ok ws') : Within ws' := by
  unfold Jffs2.startBlock at hrun
  split at hrun
  · refine h.writeNode ?_ hrun
    rw [cleanmarker_stored, cleanmarker_totlen]
    exact le_pad4_self _
  · obtain rfl := Except.ok.inj hrun
    exact h

theorem Within.padblock (h : Within ws) (hrun : padblock cfg ws = .ok ws') : Within ws' := by
  obtain ⟨⟨vs, rfl⟩, hat, -⟩ := padblock_ends hrun
  intro o m hm
  have := h o m ((hat o m).mp hm)
  rw [outOfs_append]
  omega

theorem Within.padBlockIfLessThan (h : Within ws) {req : ℕ}
    (hrun : padBlockIfLessThan cfg req ws = .ok ws') : Within ws' := by
  obtain ⟨v₁, hv₁, hrun⟩ := bind_eq_ok hrun
  obtain ⟨v₂, hv₂, hv₃⟩ := bind_eq_ok hrun
  refine Within.startBlock ?_ hv₃
  unfold makeRoom at hv₂
  split at hv₂
  · exact (h.startBlock hv₁).padblock hv₂
  · obtain rfl := Except.ok.inj hv₂
    exact h.startBlock hv₁

/-- One call and its node: what was in its place stays there, and the node is where the call leads
to a good place. -/
theorem Steady.step (h : Steady cfg ws) (hofs : a.ofs = outOfs ws)
    (hroom : padBlockIfLessThan cfg a.req ws = .ok ws₁)
    (hnode : writeNode n ws₁ = .ok ws')
    (hlen : n.totlen = a.totlen (outOfs ws₁%cfg.erase_block_size)) (hpos : ∀ p, 0 < a.totlen p)
    (hlarge : cfg.erase_block_size < a.req → a.req ≤ a.totlen 0)
    (hpad : n.Padded) (hne : n ≠ cleanmarker cfg) :
    Steady cfg ws' ∧ (Placed cfg ws' ↔ Placed cfg ws ∧ a.Served cfg) := by
  obtain ⟨hpre, hat, hofs'⟩ := writeNode_ok hnode
  refine ⟨⟨?_, fun hp => ?_, fun hp hc => ?_⟩, ?_⟩
  · rw [hofs']
    exact Nat.mul_mod_left _ _
  · obtain ⟨hp₁, h4, -, -⟩ := (writeNode_placed hne hnode).mp hp
    have hp₀ := hp₁.before (padBlockIfLessThan_grows hroom)
    refine ((h.within hp₀).padBlockIfLessThan hroom).writeNode ?_ hnode
    unfold Node.Padded pad4 at *
    omega
  · obtain ⟨hp₁, h4, hfits, hmark⟩ := (writeNode_placed hne hnode).mp hp
    have hmin := markSize_le hp₁ hc (hmark hc) (le_refl _) h4
    have hst := stored_le n
    by_cases hlt : outOfs ws₁%cfg.erase_block_size+pad4 n.stored < cfg.erase_block_size
    · obtain ⟨hdiv, hmod⟩ := same_block hlt
      have heq : outOfs ws' = outOfs ws₁+pad4 n.stored := by
        rw [hofs']
        unfold pad4
        omega
      rw [heq, hdiv, hmod]
      exact .inr ⟨(hat _ _).mpr (.inl (hmark hc)), by omega⟩
    · -- only filler goes on to the next eraseblock
      left
      have hdiv := Nat.div_add_mod (outOfs ws₁) cfg.erase_block_size
      have heq : outOfs ws' = cfg.erase_block_size*(outOfs ws₁/cfg.erase_block_size+1)+
          (outOfs ws₁%cfg.erase_block_size+pad4 n.stored-cfg.erase_block_size) := by
        rw [hofs', Nat.mul_succ]
        unfold pad4 at *
        omega
      have hsmall : outOfs ws₁%cfg.erase_block_size+pad4 n.stored-cfg.erase_block_size < 4 := by
        unfold pad4 at *
        omega
      have := cfg.block_min
      rw [heq, Nat.mul_add_mod, Nat.mod_eq_of_lt (by omega)]
      exact hsmall
  · by_cases hstart : cfg.add_cleanmarkers = true ∧ outOfs ws%cfg.erase_block_size = 0
    · exact asked_start hstart.1 hstart.2 hofs h.words hroom hne hpos hlen hnode
    · exact asked_begun hstart h hofs hroom hne hpos hlarge hlen hnode

/-- All the calls of a run: the nodes are in their places exactly when every call is served. -/
theorem Asked.placed_iff (hrun : Asked cfg ws as ws') (h : Steady cfg ws) :
    Steady cfg ws' ∧ (Placed cfg ws' ↔ Placed cfg ws ∧ ∀ a ∈ as, a.Served cfg) := by
  induction hrun with
  | nil => exact ⟨h, by simp⟩
  | cons ofs room node totlen pos large padded ne _ ih =>
    obtain ⟨hnext, hone⟩ := h.step ofs room node totlen pos large padded ne
    obtain ⟨hend, hrest⟩ := ih hnext
    refine ⟨hend, ?_⟩
    rw [hrest, hone, List.forall_mem_cons, and_assoc]

end Requests

end ChipTools.Jffs2
