import ChipTools.CatFile
import ChipTools.Mkjffs2Files

/-! `catfile` on an image of `mkfs.jffs2`. The nodes of a file, in the order of their versions, make the
file that was written, and `catfile` has all of it where the first node has. -/
namespace ChipTools.Jffs2
open Bytes Loop

section Places

variable {e : Endian} {ws : List Write} {ds : List Dirent} {n p ino : ℕ} {m : Node}

/-- The image is a chain of the nodes that were written. -/
theorem Worded.chain (hw : Worded ws ds) (hin : Within ws) (e : Endian) (hb : Between ws n) :
    ∃ ns, Chain e (imageOf e ws) n ns ∧ ∀ p, p ∈ ns ↔ n ≤ p ∧ ∃ m, At ws p m := by
  induction hk : outOfs ws-n using Nat.strong_induction_on generalizing n with
  | _ k ih =>
    by_cases hend : outOfs ws ≤ n
    · refine ⟨[], .done (by rw [imageOf_length]; exact hend), fun p => ⟨fun h => absurd h
        List.not_mem_nil, ?_⟩⟩
      rintro ⟨hle, m, hat⟩
      have := hat.le
      have := stored_pos m
      omega
    · by_cases hnode : ∃ m, At ws n m
      · obtain ⟨m, hat⟩ := hnode
        obtain ⟨-, hpad, -, hlt⟩ := hw.node hat
        obtain ⟨hmagic, -, htotlen⟩ := imageOf_header e hat hlt
        have hnext := Between.next hw hat
        have hlen := m.le_totlen
        have hwithin := hin n m hat
        have hpad' := le_pad4_self m.totlen
        have hsmall := hw.small
        obtain ⟨ns, hchain, hmem⟩ := ih (outOfs ws-(n+pad4 m.totlen)) (by omega) hnext rfl
        rw [← stepOf_node (e := e) hw hat] at hchain
        refine ⟨n :: ns, .node hmagic (by rwa [htotlen]) (by rwa [htotlen, imageOf_length])
          (by rw [htotlen]; omega) hchain, fun p => ?_⟩
        rw [List.mem_cons, hmem]
        constructor
        · rintro (rfl | ⟨hle, hp⟩)
          · exact ⟨le_rfl, m, hat⟩
          · exact ⟨by omega, hp⟩
        · rintro ⟨hle, m', hat'⟩
          rcases at_disjoint hat hat' with hbefore | hbehind | ⟨rfl, -⟩
          · obtain ⟨h4', -⟩ := hw.node hat'
            have h4 := hb.1
            refine .inr ⟨?_, m', hat'⟩
            unfold pad4 at *
            omega
          · have := stored_pos m'
            omega
          · exact .inl rfl
      · rw [not_exists] at hnode
        rw [not_le] at hend
        obtain ⟨ns, hchain, hmem⟩ := ih (outOfs ws-(n+4)) (by omega) (hb.word hw hnode) rfl
        refine ⟨ns, .blank (by rwa [imageOf_length]) (hb.blank e hnode hend) hchain, fun p => ?_⟩
        rw [hmem]
        constructor
        · rintro ⟨hle, hp⟩
          exact ⟨by omega, hp⟩
        · rintro ⟨hle, m, hat⟩
          obtain ⟨h4', -⟩ := hw.node hat
          have h4 := hb.1
          have hne : n ≠ p := by
            rintro rfl
            exact hnode m hat
          exact ⟨by omega, m, hat⟩

/-- The nodes with a number, with their places, in the order in which they were written. -/
theorem nodesFor_places (ino : ℕ) (ws : List Write) : ∃ P : List (ℕ × Inode),
    P.map Prod.snd = nodesFor ino ws ∧ P.Pairwise (fun x y => x.1 < y.1) ∧
      ∀ x, x ∈ P ↔ At ws x.1 (.inode x.2) ∧ x.2.ino = ino := by
  induction ws using List.reverseRecOn with
  | nil =>
    refine ⟨[], rfl, .nil, fun x => ⟨fun h => absurd h List.not_mem_nil, ?_⟩⟩
    rintro ⟨h, -⟩
    exact absurd h not_at_nil
  | append_singleton ws w ih =>
    obtain ⟨P, hsnd, hpair, hmem⟩ := ih
    have hnodes : nodesFor ino (ws ++ [w]) = nodesFor ino ws ++ nodesFor ino [w] := by
      rw [nodesFor, inodesOf_append, List.filter_append]
      rfl
    -- what is written is no node with the number
    have hsame (h : ∀ n, w = .node (.inode n) → n.ino ≠ ino) (hnil : nodesFor ino [w] = []) :
        ∃ P : List (ℕ × Inode), P.map Prod.snd = nodesFor ino (ws ++ [w]) ∧
          P.Pairwise (fun x y => x.1 < y.1) ∧
          ∀ x, x ∈ P ↔ At (ws ++ [w]) x.1 (.inode x.2) ∧ x.2.ino = ino := by
      rw [hnodes, hnil, List.append_nil]
      refine ⟨P, hsnd, hpair, fun x => ?_⟩
      rw [hmem]
      constructor
      · rintro ⟨hx, hino⟩
        exact ⟨at_append _ _ hx, hino⟩
      · rintro ⟨hx, hino⟩
        rcases at_snoc.mp hx with hx | ⟨-, hw⟩
        · exact ⟨hx, hino⟩
        · exact absurd hino (h x.2 hw)
    cases w with
    | ff k => exact hsame (fun n h => by cases h) rfl
    | node m =>
      cases m with
      | inode n =>
        by_cases hino : n.ino = ino
        · have hone : nodesFor ino [.node (.inode n)] = [n] :=
            List.filter_cons_of_pos (decide_eq_true hino)
          rw [hnodes, hone]
          refine ⟨P ++ [(outOfs ws, n)], by rw [List.map_append, hsnd]; rfl, ?_, fun x => ?_⟩
          · refine List.pairwise_append.mpr ⟨hpair, List.pairwise_singleton _ _, fun x hx y hy => ?_⟩
            have := ((hmem x).mp hx).1.le
            have := stored_pos (.inode x.2)
            rw [List.mem_singleton.mp hy]
            omega
          · rw [List.mem_append, hmem, List.mem_singleton]
            constructor
            · rintro (⟨hx, hino'⟩ | rfl)
              · exact ⟨at_append _ _ hx, hino'⟩
              · exact ⟨at_node.mpr (.inr ⟨rfl, rfl⟩), hino⟩
            · rintro ⟨hx, hino'⟩
              rcases at_node.mp hx with hx | ⟨hofs, hn⟩
              · exact .inl ⟨hx, hino'⟩
              · injection hn with hn
                exact .inr (Prod.ext hofs hn)
        · refine hsame (fun n' h => ?_) (List.filter_cons_of_neg (by simpa using hino))
          injection h with h
          injection h with h
          rwa [← h]
      | _ => exact hsame (fun n h => by cases h) rfl

end Places

section Members

variable {e : Endian} {ws : List Write} {n : Inode} {p : ℕ} {m : Node}
  {uncompress : List Byte → ℕ → List Byte} {others : Byte → List Byte → ℕ → Option (List Byte)}

/-- What the reader finds at the place of an inode node. -/
theorem imageOf_inode (e : Endian) (h : At ws p (.inode n)) :
    e.get (imageOf e ws) (p+12) 4 = n.ino%256^4 ∧ ∃ rest, rawInode e (imageOf e ws) p =
      ⟨n.version%256^4, n.isize%256^4, n.offset%256^4, n.data.length%256^4, n.dsize%256^4,
        BitVec.ofNat 8 (n.compr%256^1), n.data ++ rest⟩ := by
  obtain ⟨rest, hrest⟩ := imageOf_drop e h
  have hst : ((Node.inode n).encode e).take (Node.inode n).stored = n.encode e :=
    List.take_of_length_le (le_of_eq (Node.encode_length e (.inode n)))
  rw [hst, Inode.encode] at hrest
  simp only [List.append_assoc] at hrest
  have hmember (i k v off : ℕ) (hi : n.fields[i]? = some (k, v))
      (hoff : 12+((n.fields.take i).map Prod.fst).sum = off) :
      e.get (imageOf e ws) (p+off) k = v%256^k := by
    rw [get_drop, hrest, ← hoff, header_get_skip]
    exact get_member_mod e n.fields i hi _
  refine ⟨hmember 0 4 _ 12 rfl rfl, rest, ?_⟩
  have hfields : (e.puts n.fields).length = 48 := by
    rw [e.puts_length]
    simp [Inode.fields]
  have hdata : (imageOf e ws).drop (p+68) = n.data ++ rest := by
    rw [← List.drop_drop, hrest, ← List.append_assoc, ← List.append_assoc, ← List.append_assoc,
      List.drop_left']
    simp only [List.length_append, header_length, hfields, e.put_length]
  have hversion := hmember 1 4 _ 16 rfl (by simp [Inode.fields])
  have hisize := hmember 5 4 _ 28 rfl (by simp [Inode.fields])
  have hoffset := hmember 9 4 _ 44 rfl (by simp [Inode.fields])
  have hcsize := hmember 10 4 _ 48 rfl (by simp [Inode.fields])
  have hdsize := hmember 11 4 _ 52 rfl (by simp [Inode.fields])
  have hcompr := hmember 12 1 _ 56 rfl (by simp [Inode.fields])
  rw [rawInode, hversion, hisize, hoffset, hcsize, hdsize, hcompr, hdata]

theorem eq_inode_of_nodetype (h : m.nodetype = JFFS2_NODETYPE_INODE) : ∃ n, m = .inode n := by
  cases m with
  | inode n => exact ⟨n, rfl⟩
  | _ =>
    simp only [Node.nodetype] at h
    exact absurd h (by decide)

/-- What an inode node says of its file. -/
def Inode.piece (decompress : Byte → List Byte → ℕ → Option (List Byte)) (n : Inode) : Piece :=
  ⟨n.isize, n.offset, (decompressAs decompress (BitVec.ofNat 8 n.compr) n.data n.dsize).getD []⟩

/-- The members of the struct are large enough for what is written to them. -/
structure Inode.Fits (n : Inode) : Prop where
  version : n.version < 256^4
  isize : n.isize < 256^4
  offset : n.offset < 256^4
  csize : n.data.length < 256^4
  dsize : n.dsize < 256^4
  compr : n.compr < 256^1

/-- The reader's node is the one that was written. -/
theorem rawInode_of_fits (hat : At ws p (.inode n)) (hfits : n.Fits) :
    (rawInode e (imageOf e ws) p).version = n.version ∧
      (rawInode e (imageOf e ws) p).isize = n.isize ∧
      (rawInode e (imageOf e ws) p).offset = n.offset ∧
      (rawInode e (imageOf e ws) p).dsize = n.dsize ∧
      (rawInode e (imageOf e ws) p).compr = BitVec.ofNat 8 n.compr ∧
      (rawInode e (imageOf e ws) p).data? uncompress others =
        decompressAs (decompressWith uncompress others) (BitVec.ofNat 8 n.compr) n.data n.dsize := by
  obtain ⟨-, rest, hraw⟩ := imageOf_inode e hat
  rw [Nat.mod_eq_of_lt hfits.version, Nat.mod_eq_of_lt hfits.isize, Nat.mod_eq_of_lt hfits.offset,
    Nat.mod_eq_of_lt hfits.csize, Nat.mod_eq_of_lt hfits.dsize, Nat.mod_eq_of_lt hfits.compr] at hraw
  refine ⟨by rw [hraw], by rw [hraw], by rw [hraw], by rw [hraw], by rw [hraw], ?_⟩
  rw [RawInode.data?, hraw]
  dsimp only
  rw [List.take_left]

end Members

section Tiled

variable {decompress : Byte → List Byte → ℕ → Option (List Byte)} {file old : List Byte}
  {nodes : List Inode} {n : Inode} {a b i : ℕ}

/-- The data of a node of a file. -/
theorem Tiles.data (h : Tiles decompress file a b (n :: nodes)) :
    (n.piece decompress).data = (file.drop a).take n.dsize := by
  obtain ⟨-, -, hdec, -⟩ := h
  rw [Inode.piece, hdec]
  rfl

theorem Tiles.mem (h : Tiles decompress file a b nodes) (hn : n ∈ nodes) :
    n.offset+n.dsize ≤ b ∧ decompressAs decompress (BitVec.ofNat 8 n.compr) n.data n.dsize =
      some ((file.drop n.offset).take n.dsize) := by
  induction nodes generalizing a with
  | nil => cases hn
  | cons m nodes ih =>
    obtain ⟨hoff, hle, hdec, hrest⟩ := h
    rcases List.mem_cons.mp hn with rfl | hn
    · rw [hoff]
      exact ⟨hle, hdec⟩
    · exact ih hrest hn

/-- The bytes that a node covers are those of the file. -/
theorem Tiles.byte? (h : Tiles decompress file a b (n :: nodes)) (hb : b ≤ file.length) :
    (n.piece decompress).byte? i = if a ≤ i ∧ i < a+n.dsize then some (file.getD i 0#8) else none := by
  have hdata := h.data
  obtain ⟨hoff, hle, -, hrest⟩ := h
  have hend := hrest.le
  have hoffset : (n.piece decompress).offset = a := hoff
  rw [Piece.byte?, hoffset, hdata]
  by_cases hai : a ≤ i
  · rw [if_pos hai]
    by_cases hin : i < a+n.dsize
    · rw [if_pos ⟨hai, hin⟩, List.getElem?_take_of_lt (by omega), List.getElem?_drop,
        Nat.add_sub_cancel' hai, List.getD_eq_getElem?_getD, List.getElem?_eq_getElem (by omega)]
      rfl
    · rw [if_neg fun h => hin h.2, List.getElem?_eq_none]
      rw [List.length_take]
      omega
  · rw [if_neg hai, if_neg fun h => hai h.1]

/-- Nodes that are a part of the file, applied in their order, put that part into place. -/
theorem Tiles.apply (h : Tiles decompress file a b nodes) (hb : b ≤ file.length)
    (hsize : ∀ n ∈ nodes, n.isize = file.length) (hi : i < file.length) :
    ((nodes.map (Inode.piece decompress)).foldl Piece.apply old).getD i 0#8 =
      if a ≤ i ∧ i < b then file.getD i 0#8 else old.getD i 0#8 := by
  induction nodes generalizing a old with
  | nil =>
    have hab : a = b := h
    rw [if_neg (by omega)]
    rfl
  | cons n nodes ih =>
    have hn : n.isize = file.length := hsize n List.mem_cons_self
    have hle := h.2.1
    rw [List.map_cons, List.foldl_cons, ih h.2.2.2 fun m hm => hsize m (List.mem_cons_of_mem _ hm)]
    by_cases hlater : a+n.dsize ≤ i ∧ i < b
    · rw [if_pos hlater, if_pos (by omega)]
    · have hin : ¬(n.piece decompress).isize ≤ i := by
        change ¬n.isize ≤ i
        omega
      rw [if_neg hlater, Piece.apply_getD, if_neg hin, h.byte? hb]
      by_cases hfirst : a ≤ i ∧ i < a+n.dsize
      · rw [if_pos hfirst, if_pos (by omega)]
        rfl
      · rw [if_neg hfirst, if_neg (by omega)]
        rfl

/-- All nodes of a file make the file. -/
theorem Tiles.applyAll (h : Tiles decompress file 0 file.length nodes) (hne : nodes ≠ [])
    (hsize : ∀ n ∈ nodes, n.isize = file.length) :
    applyAll (nodes.map (Inode.piece decompress)) = file := by
  have hlen : (Jffs2.applyAll (nodes.map (Inode.piece decompress))).length = file.length := by
    rw [applyAll_length, List.getLast?_map, List.getLast?_eq_getLast_of_ne_nil hne]
    exact hsize _ (List.getLast_mem hne)
  apply List.ext_getElem hlen
  intro i hi hi'
  have hget : ((nodes.map (Inode.piece decompress)).foldl Piece.apply []).getD i 0#8 = _ :=
    h.apply le_rfl hsize hi'
  rw [if_pos ⟨Nat.zero_le i, hi'⟩] at hget
  rw [List.getElem_eq_getD 0#8, List.getElem_eq_getD 0#8]
  exact hget

end Tiled

section Written

variable {uncompress : List Byte → ℕ → List Byte}
  {others : Byte → List Byte → ℕ → Option (List Byte)} {cfg : Config} {ws : List Write}
  {ds : List Dirent} {entry : HostEntry} {e : Endian} {ino : ℕ} {P : List (ℕ × Inode)} {ns : List ℕ}

/-- The places in the chain are those of the nodes with the number. -/
theorem places_perm (hnumbers : ∀ p n, At ws p (.inode n) → n.ino < 256^4)
    (hlen : ∀ p m, At ws p m → m.totlen < 2^32) (hpair : P.Pairwise (fun x y => x.1 < y.1))
    (hP : ∀ x, x ∈ P ↔ At ws x.1 (.inode x.2) ∧ x.2.ino = ino)
    (hc : Chain e (imageOf e ws) 0 ns) (hns : ∀ p, p ∈ ns ↔ 0 ≤ p ∧ ∃ m, At ws p m) :
    (P.map Prod.fst).Perm (ns.filter (IsInode e (imageOf e ws) ino)) := by
  have hnodup : (P.map Prod.fst).Nodup := by
    rw [List.nodup_iff_pairwise_ne, List.pairwise_map]
    exact hpair.imp fun h => h.ne
  have hnodup' : ns.Nodup := by
    refine hc.pairwise.imp_of_mem fun {a b} ha _ hab => ?_
    have := hc.step ha
    omega
  rw [List.perm_ext_iff_of_nodup hnodup (hnodup'.filter _)]
  intro p
  rw [List.mem_map, List.mem_filter, hns, decide_eq_true_eq]
  constructor
  · rintro ⟨x, hx, rfl⟩
    obtain ⟨hat, hino⟩ := (hP x).mp hx
    refine ⟨⟨Nat.zero_le _, _, hat⟩, (imageOf_header e hat (hlen _ _ hat)).2.1, ?_⟩
    rw [(imageOf_inode e hat).1, Nat.mod_eq_of_lt (hnumbers _ _ hat), hino]
  · rintro ⟨⟨-, m, hat⟩, htype, hino⟩
    rw [(imageOf_header e hat (hlen _ _ hat)).2.1] at htype
    obtain ⟨n, rfl⟩ := eq_inode_of_nodetype htype
    rw [(imageOf_inode e hat).1, Nat.mod_eq_of_lt (hnumbers p n hat)] at hino
    exact ⟨(p, n), (hP _).mpr ⟨hat, hino⟩, rfl⟩

/-- The nodes of a file fit their members. -/
theorem FileNodes.fits {decompress : Byte → List Byte → ℕ → Option (List Byte)}
    (h : FileNodes decompress entry ino (nodesFor ino ws)) (hsmall : outOfs ws ≤ 2^31)
    (hsize : entry.reads.flatten.length = entry.sb.st_size) {p : ℕ} {n : Inode}
    (hat : At ws p (.inode n)) (hn : n ∈ nodesFor ino ws) : n.Fits := by
  have hmax := h.small
  have hend := (h.tiles.mem hn).1
  have hisize := h.nodesOf.isize n hn
  have hle := hat.le
  change p+(68+n.data.length) ≤ outOfs ws at hle
  unfold JFFS2_MAX_FILE_SIZE at hmax
  refine ⟨?_, by omega, by omega, by omega, by omega, h.nodesOf.compr n hn⟩
  have hversion : n.version ∈ List.range' (0+1) (nodesFor ino ws).length := by
    rw [← h.nodesOf.versions]
    exact List.mem_map_of_mem hn
  have hcount : (nodesFor ino ws).length ≤ (inodesOf ws).length := List.length_filter_le _ _
  have := inodesOf_length ws
  have := (List.mem_range'_1.mp hversion).2
  omega

/-- The nodes of a file with their places in an image. -/
structure InImage (uncompress : List Byte → ℕ → List Byte)
    (others : Byte → List Byte → ℕ → Option (List Byte)) (ws : List Write) (entry : HostEntry)
    (ino : ℕ) (P : List (ℕ × Inode)) : Prop where
  file : FileNodes (decompressWith uncompress others) entry ino (P.map Prod.snd)
  size : entry.reads.flatten.length = entry.sb.st_size
  places : ∀ x ∈ P, At ws x.1 (.inode x.2)
  fits : ∀ x ∈ P, x.2.Fits

/-- What the reader finds at the place of a node. -/
theorem InImage.found {x : ℕ × Inode} (h : InImage uncompress others ws entry ino P) (hx : x ∈ P)
    (e : Endian) :
    (rawInode e (imageOf e ws) x.1).version = x.2.version ∧
      (rawInode e (imageOf e ws) x.1).isize = x.2.isize ∧
      (rawInode e (imageOf e ws) x.1).offset = x.2.offset ∧
      (rawInode e (imageOf e ws) x.1).dsize = x.2.dsize ∧
      (rawInode e (imageOf e ws) x.1).data? uncompress others =
        decompressAs (decompressWith uncompress others) (BitVec.ofNat 8 x.2.compr) x.2.data
          x.2.dsize := by
  obtain ⟨hversion, hisize, hoffset, hdsize, -, hdata⟩ := rawInode_of_fits (h.places x hx) (h.fits x hx)
  exact ⟨hversion, hisize, hoffset, hdsize, hdata⟩

theorem InImage.sorted (h : InImage uncompress others ws entry ino P) (e : Endian) :
    (P.map Prod.fst).Pairwise fun p q => (rawInode e (imageOf e ws) p).version <
      (rawInode e (imageOf e ws) q).version := by
  have hversions : (P.map Prod.snd).Pairwise fun n n' => n.version < n'.version := by
    rw [← List.pairwise_map (f := Inode.version), h.file.nodesOf.versions]
    exact List.pairwise_lt_range'
  rw [List.pairwise_map] at hversions ⊢
  refine hversions.imp_of_mem fun {x y} hx hy hlt => ?_
  rwa [(h.found hx e).1, (h.found hy e).1]

theorem InImage.sound (h : InImage uncompress others ws entry ino P) (e : Endian) :
    ∀ q ∈ P.map Prod.fst, (rawInode e (imageOf e ws) q).Sound uncompress others := by
  intro q hq
  obtain ⟨x, hx, rfl⟩ := List.mem_map.mp hq
  obtain ⟨-, -, -, hdsize, hdata⟩ := h.found hx e
  obtain ⟨hle, hdec⟩ := h.file.tiles.mem (List.mem_map_of_mem hx)
  refine ⟨_, hdata.trans hdec, ?_⟩
  rw [hdsize, List.length_take, List.length_drop]
  omega

/-- The pieces that the reader finds. -/
theorem InImage.pieces (h : InImage uncompress others ws entry ino P) (e : Endian) :
    piecesOf uncompress others e (imageOf e ws) (P.map Prod.fst) =
      (P.map Prod.snd).map (Inode.piece (decompressWith uncompress others)) := by
  rw [piecesOf, List.map_map, List.map_map]
  apply List.map_congr_left
  intro x hx
  obtain ⟨-, hisize, hoffset, -, hdata⟩ := h.found hx e
  change RawInode.piece uncompress others (rawInode e (imageOf e ws) x.1) = _
  rw [RawInode.piece, hisize, hoffset, hdata]
  rfl

theorem InImage.applyAll (h : InImage uncompress others ws entry ino P) (e : Endian) :
    applyAll (piecesOf uncompress others e (imageOf e ws) (P.map Prod.fst)) =
      entry.reads.flatten := by
  rw [h.pieces e]
  refine h.file.tiles.applyAll h.file.ne_nil fun n hn => ?_
  rw [h.size]
  exact h.file.nodesOf.isize n hn

/-- The first node of a file has all of it: `putblock` takes the node, and behind its data the file is
zeros. -/
structure WholeInFirst (file : List Byte) (bsize : ℕ) (n : RawInode) : Prop where
  accepted : n.Accepted bsize
  zeros : ∀ y ∈ file.drop n.dsize, y = 0#8

theorem InImage.oneNode_iff {x : ℕ × Inode} (h : InImage uncompress others ws entry ino (x :: P))
    (e : Endian) (bsize : ℕ) :
    (∃ q, OneNodeFile uncompress others e (imageOf e ws) bsize ((x :: P).map Prod.fst) q) ↔
      WholeInFirst entry.reads.flatten bsize (rawInode e (imageOf e ws) x.1) := by
  have hx : x ∈ x :: P := List.mem_cons_self
  obtain ⟨hversion, hisize, -, hdsize, -⟩ := h.found hx e
  have hone : x.2.version = 1 := by
    have := h.file.nodesOf.versions
    rw [List.map_cons, List.map_cons, List.length_cons, List.range'_succ] at this
    exact (List.cons.inj this).1
  have htiles := h.file.tiles
  have hsize {y : ℕ × Inode} (hy : y ∈ x :: P) : y.2.isize = entry.reads.flatten.length :=
    (h.file.nodesOf.isize _ (List.mem_map_of_mem hy)).trans h.size.symm
  -- the file is what the newest pieces say, and the first one is its start
  have hnewest (i : ℕ) : newestByte
      (piecesOf uncompress others e (imageOf e ws) ((x :: P).map Prod.fst)) i =
      entry.reads.flatten.getD i 0#8 := by
    rw [← applyAll_getD, h.applyAll e]
  have hbyte (i : ℕ) : ((rawInode e (imageOf e ws) x.1).piece uncompress others).byte? i =
      if i < x.2.dsize then some (entry.reads.flatten.getD i 0#8) else none := by
    have hpiece : (rawInode e (imageOf e ws) x.1).piece uncompress others =
        x.2.piece (decompressWith uncompress others) := (List.cons.inj (h.pieces e)).1
    rw [hpiece, htiles.byte? le_rfl]
    simp only [Nat.zero_le, true_and, Nat.zero_add]
  constructor
  · rintro ⟨q, hfirst, hpos, hsmall, haccept, hlast, hbytes⟩
    obtain ⟨A, B, hL, hA⟩ := hfirst
    -- no node is before the first one
    have hq : q = x.1 := by
      cases A with
      | nil => exact (List.cons.inj hL).1.symm
      | cons a A =>
        have h0 := hA a List.mem_cons_self
        rw [← (List.cons.inj hL).1, hversion, hone] at h0
        cases h0
    subst hq
    refine ⟨haccept, fun y hy => ?_⟩
    rw [hisize] at hbytes
    rw [hdsize] at hy
    obtain ⟨j, hj, rfl⟩ := List.getElem_of_mem hy
    rw [List.length_drop] at hj
    have := hbytes (x.2.dsize+j) (by rw [hsize hx]; omega)
    rw [hnewest, hbyte, if_neg (by omega)] at this
    rw [List.getElem_drop, List.getElem_eq_getD 0#8, this]
    rfl
  · rintro ⟨haccept, hzeros⟩
    rw [hdsize] at hzeros
    refine ⟨x.1, ⟨[], P.map Prod.fst, rfl, fun p hp => absurd hp List.not_mem_nil⟩, ?_, ?_, haccept,
      ?_, ?_⟩
    · rw [hversion, hone]
      exact Nat.one_pos
    · rw [hversion, hone]
      decide
    · intro p hp
      obtain ⟨y, hy, rfl⟩ := List.mem_map.mp (List.mem_of_getLast? hp)
      obtain ⟨-, hisize', -⟩ := h.found hy e
      rw [hisize', hisize, hsize hy, hsize hx]
    · intro i hi
      rw [hisize, hsize hx] at hi
      rw [hnewest, hbyte]
      split
      · rfl
      next hge =>
        refine hzeros _ (List.mem_iff_getElem.mpr ⟨i-x.2.dsize, ?_, ?_⟩)
        · rw [List.length_drop]
          omega
        · rw [List.getElem_drop, List.getElem_eq_getD 0#8, Nat.add_sub_cancel' (not_lt.mp hge)]

end Written

section Whole

variable {uncompress : List Byte → ℕ → List Byte}
  {others : Byte → List Byte → ℕ → Option (List Byte)} {cfg : Config} {page : ℕ} {s : Mkfs}
  {ws : List Write} {root : HostEntry}

/-- Entries that are one file on the host are so in all that is read of them. -/
def HostFiles (xs : List Listed) : Prop :=
  ∀ x ∈ xs, ∀ y ∈ xs, y.entry.hostFile = x.entry.hostFile → y.entry.iftodt = x.entry.iftodt ∧
    y.entry.sb.st_size = x.entry.sb.st_size ∧ y.entry.reads = x.entry.reads

/-- The nodes of a file that was written, in the order of their versions: they are the file, and
`catfile` writes it just when the first of them has all of it. -/
structure Reconstructed (uncompress : List Byte → ℕ → List Byte)
    (others : Byte → List Byte → ℕ → Option (List Byte)) (e : Endian) (o : List Byte) (ino : ℕ)
    (file : List Byte) (ns : List ℕ) (first : ℕ) (L : List ℕ) : Prop where
  chain : Chain e o 0 ns
  nodes : (first :: L).Perm (ns.filter (IsInode e o ino))
  sorted : (first :: L).Pairwise fun p q => (rawInode e o p).version < (rawInode e o q).version
  whole : applyAll (piecesOf uncompress others e o (first :: L)) = file
  catfile : ∀ fuel path dd, resolvepath e o uncompress fuel 1 path = some (some dd, ino) →
    dd.type = DT_REG → ∀ b bsize, Jffs2.catfile e o uncompress fuel path b bsize = some file ↔
      WholeInFirst file bsize (rawInode e o first)

/-- A regular file is reconstructed from an image of `mkfs.jffs2`. -/
theorem written_reconstructed (h4 : cfg.erase_block_size%4 = 0)
    (hcomp : cfg.CompressSound (decompressWith uncompress others) page) (hroom : cfg.HasRoom)
    (hrun : createTargetFilesystem cfg 0 root = .ok (s, ws)) (hhost : HostFiles (entriesOf cfg root))
    {x : Listed} (hx : x ∈ entriesOf cfg root) (hreg : x.entry.iftodt = DT_REG)
    (hpage : ∀ buf ∈ x.entry.reads, buf.length ≤ page)
    (hsize : x.entry.reads.flatten.length = x.entry.sb.st_size) :
    ∃ ns first L, Reconstructed uncompress others cfg.target_endian (imageOf cfg.target_endian ws)
      x.ino x.entry.reads.flatten ns first L := by
  have hw := (createTargetFilesystem_worded h4 hrun).1
  have hin := createTargetFilesystem_within h4 hrun
  have hnumbers (p : ℕ) (n : Inode) (hat : At ws p (.inode n)) : n.ino < 256^4 := by
    obtain ⟨pre, post, rfl, -⟩ := hat
    refine inodesOf_numbers h4 hcomp hroom hrun n ?_
    rw [inodesOf_append]
    exact List.mem_append_right _ List.mem_cons_self
  -- the entry may be a link to one that was written before it
  obtain ⟨y, hy, hsame, hino, hstored⟩ := createTargetFilesystem_files hcomp hroom hrun hx
  obtain ⟨htype, hst, hreads⟩ := hhost x hx y hy hsame
  have hfile := hstored (htype.trans hreg) (by rwa [hreads])
  rw [← hreads, ← hst] at hsize
  rw [← hreads, ← hino]
  obtain ⟨P, hsnd, hpair, hP⟩ := nodesFor_places y.ino ws
  have himage : InImage uncompress others ws y.entry y.ino P := by
    refine ⟨hsnd ▸ hfile, hsize, fun z hz => ((hP z).mp hz).1, fun z hz => ?_⟩
    refine hfile.fits hw.small hsize ((hP z).mp hz).1 ?_
    rw [← hsnd]
    exact List.mem_map_of_mem hz
  obtain ⟨ns, hchain, hns⟩ := hw.chain hin cfg.target_endian (n := 0)
    ⟨rfl, fun p m _ => .inl (Nat.zero_le p)⟩
  have hperm := places_perm hnumbers (fun p m hat => (hw.node hat).2.2.2) hpair hP hchain hns
  have hne : y.ino ≠ 0 := by
    have := (entriesOf_numbers h4 hrun y hy).1
    omega
  cases P with
  | nil => exact absurd rfl himage.file.ne_nil
  | cons z P =>
    have hsorted := himage.sorted cfg.target_endian
    have hall := himage.applyAll cfg.target_endian
    refine ⟨ns, z.1, P.map Prod.fst, hchain, hperm, hsorted, hall, fun fuel path dd hpath hdd b bsize =>
      ?_⟩
    rw [← himage.oneNode_iff cfg.target_endian bsize, ← hall]
    exact catfile_iff uncompress others hchain fuel path dd hpath hne hdd hperm hsorted
      (himage.sound cfg.target_endian) b bsize

end Whole

section TwoPages

/-- Eraseblocks for files that are not compressed. -/
def plainBlocks : Config := { smallBlocks with jffs2_compress := fun tbuf space => ⟨0, tbuf, space, space⟩ }

/-- A file of two pages of four bytes. -/
def twoPages (page : List Byte) : HostEntry :=
  .mk [0x66#8] ⟨1, 4, 0x81a4, 0, 0, 8, 0, 0, 0⟩ [] [[1#8, 2#8, 3#8, 4#8], page] [] []

def emptyFile : HostEntry := .mk [0x61#8] ⟨1, 3, 0x81a4, 0, 0, 0, 0, 0, 0⟩ [] [] [] []

/-- A directory with an empty file and that one. -/
def twoFiles (page : List Byte) : HostEntry :=
  .mk [] ⟨1, 2, 0x41ed, 0, 0, 0, 0, 0, 0⟩ [] [] [] [emptyFile, twoPages page]

/-- The image of `mkfs.jffs2` for it. -/
def writtenImage (page : List Byte) : List Byte :=
  match createTargetFilesystem plainBlocks 0 (twoFiles page) with
  | .ok (_, ws) => imageOf .little ws
  | .error _ => []

/-- `/f` -/
def writtenPath : List Byte := [0x2f#8, 0x66#8]

def noZlib (_ : List Byte) (_ : ℕ) : List Byte := []

def noOthers (_ : Byte) (_ : List Byte) (_ : ℕ) : Option (List Byte) := none

/-- The files whose second pages are these: the nodes of the file, the file that they make, and what
`catfile` writes. -/
theorem writtenImage_reads : ∀ page ∈ [[5#8, 6#8, 7#8, 8#8], List.replicate 4 0#8],
    chainOf .little (writtenImage page) 200 0 = some [0, 12, 56, 124, 168, 240] ∧
      (resolvepath .little (writtenImage page) noZlib 30 1 writtenPath).any
        (fun r => r.2 = 3 && r.1.any (·.type = DT_REG)) = true ∧
      [0, 12, 56, 124, 168, 240].filter (IsInode .little (writtenImage page) 3) = [168, 240] ∧
      [168, 240].map (fun q => (rawInode .little (writtenImage page) q).version) = [1, 2] ∧
      (∀ q ∈ [168, 240], ((rawInode .little (writtenImage page) q).data? noZlib noOthers).map
        List.length = some (rawInode .little (writtenImage page) q).dsize) ∧
      applyAll (piecesOf noZlib noOthers .little (writtenImage page) [168, 240]) =
        [1#8, 2#8, 3#8, 4#8] ++ page ∧
      catfile .little (writtenImage page) noZlib 30 writtenPath (fun _ => 0xff#8) (5*2^20) =
        some ([1#8, 2#8, 3#8, 4#8] ++ List.replicate 4 0#8) := by
  decide +kernel

/-- Such an image is one that the reader can read. -/
theorem writtenImage_valid {page : List Byte}
    (hpage : page ∈ [[5#8, 6#8, 7#8, 8#8], List.replicate 4 0#8]) :
    ∃ ns dd, Chain .little (writtenImage page) 0 ns ∧
      resolvepath .little (writtenImage page) noZlib 30 1 writtenPath = some (some dd, 3) ∧
      dd.type = DT_REG ∧
      [168, 240].Perm (ns.filter (IsInode .little (writtenImage page) 3)) ∧
      [168, 240].Pairwise (fun p q => (rawInode .little (writtenImage page) p).version <
        (rawInode .little (writtenImage page) q).version) ∧
      ∀ q ∈ [168, 240], (rawInode .little (writtenImage page) q).Sound noZlib noOthers := by
  obtain ⟨hchain, hpath, hfilter, hversions, hdata, -, -⟩ := writtenImage_reads page hpage
  cases hr : resolvepath .little (writtenImage page) noZlib 30 1 writtenPath with
  | none =>
    rw [hr] at hpath
    cases hpath
  | some r =>
    obtain ⟨dd, ino⟩ := r
    rw [hr, Option.any_some, Bool.and_eq_true, decide_eq_true_eq] at hpath
    obtain ⟨rfl, hdd⟩ := hpath
    cases dd with
    | none => cases hdd
    | some dd =>
      rw [Option.any_some, decide_eq_true_eq] at hdd
      obtain ⟨h₁, h₂⟩ := List.cons.inj hversions
      obtain ⟨h₂, -⟩ := List.cons.inj h₂
      refine ⟨_, dd, chain_of_chainOf hchain, rfl, hdd, by rw [hfilter], ?_, fun q hq => ?_⟩
      · exact List.pairwise_pair.mpr (h₁.trans_lt (Nat.one_lt_two.trans_eq h₂.symm))
      · obtain ⟨data, hdata, hlen⟩ := Option.map_eq_some_iff.mp (hdata q hq)
        exact ⟨data, hdata, hlen⟩

theorem plainBlocks_compressSound :
    plainBlocks.CompressSound (decompressWith noZlib noOthers) 4096 := by
  intro tbuf space _ hpos hle
  refine ⟨⟨hpos, hle, le_rfl, ?_⟩, fun _ => ⟨rfl, rfl⟩⟩
  change decompressAs _ JFFS2_COMPR_NONE (tbuf.take space) space = some (tbuf.take space)
  rw [decompressAs, if_pos rfl, List.take_take, min_self]

theorem twoFiles_entries : ∀ page ∈ [[5#8, 6#8, 7#8, 8#8], List.replicate 4 0#8],
    entriesOf plainBlocks (twoFiles page) = [⟨1, emptyFile, 2⟩, ⟨1, twoPages page, 3⟩] := by
  intro page hpage
  simp only [List.mem_cons, List.not_mem_nil, or_false] at hpage
  rcases hpage with rfl | rfl
  · rfl
  · rfl

end TwoPages

end ChipTools.Jffs2
