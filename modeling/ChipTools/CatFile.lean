import ChipTools.CollectDir
import ChipTools.Compr

/-! `catfile` of `jffs2reader`. The blocks of a file make the file when they are put into the buffer
in the order of their versions, but only one of them is. -/
namespace ChipTools.Jffs2
open Bytes KeyOrder

def JFFS2_COMPR_ZERO : Byte := 0x01#8
def JFFS2_COMPR_ZLIB : Byte := 0x06#8

section Reader

variable (e : Endian) (o : List Byte)

/-- `struct jffs2_raw_inode` as it is read from the image, with its data. -/
structure RawInode where
  version : ℕ
  isize : ℕ
  offset : ℕ
  csize : ℕ
  dsize : ℕ
  compr : Byte
  data : List Byte

def rawInode (n : ℕ) : RawInode where
  version := e.get o (n+16) 4
  isize := e.get o (n+28) 4
  offset := e.get o (n+44) 4
  csize := e.get o (n+48) 4
  dsize := e.get o (n+52) 4
  compr := BitVec.ofNat 8 (e.get o (n+56) 1)
  data := o.drop (n+68)

/-- Writes a node into the buffer: the buffer and the size of the result. Nothing where the program
ends with an error. The call of `uncompress` is a parameter. -/
def putblock (uncompress : List Byte → ℕ → List Byte) (b : ℕ → Byte) (bsize rsize : ℕ)
    (n : RawInode) : Option ((ℕ → Byte) × ℕ) :=
  if bsize < n.isize ∨ bsize < n.offset+n.dsize then none
  else
    let b := if rsize < n.isize then setTo b rsize (n.isize-rsize) 0#8 else b
    if n.compr = JFFS2_COMPR_ZLIB then
      some (copyTo b n.offset (uncompress (n.data.take n.csize) n.dsize), n.isize)
    else if n.compr = JFFS2_COMPR_NONE then
      some (copyTo b n.offset (n.data.take n.dsize), n.isize)
    else if n.compr = JFFS2_COMPR_ZERO then some (setTo b n.offset n.dsize 0#8, n.isize)
    else none

/-- `catfile` with an empty result: what it writes to the standard output. -/
def catfile (uncompress : List Byte → ℕ → List Byte) (fuel : ℕ) (path : List Byte) (b : ℕ → Byte)
    (bsize : ℕ) : Option (List Byte) := do
  let (dd, ino) ← resolvepath e o uncompress fuel 1 path
  if ino = 0 then none
  else
    let dd ← dd
    if dd.type ≠ DT_REG then none
    else
      -- a pass moves on by a word at least, or for ever by nothing
      let ri ← findRawInode e o ino (o.length+1) 0 (2^32-1) 0 none
      let ri ← ri
      let (b, rsize) ← putblock uncompress b bsize 0 (rawInode e o ri)
      some (readBytes b 0 rsize)

end Reader

section Pieces

variable {p : Piece} {ps : List Piece} {i : ℕ} {file : List Byte}

/-- What a node says of its file. -/
structure Piece where
  isize : ℕ
  offset : ℕ
  data : List Byte

/-- The byte that a piece has for a place, if it covers it. -/
def Piece.byte? (p : Piece) (i : ℕ) : Option Byte :=
  if p.offset ≤ i then p.data[i-p.offset]? else none

/-- A piece is applied to a file: its data are written, and the size is set. -/
def Piece.apply (file : List Byte) (p : Piece) : List Byte :=
  (List.range p.isize).map fun i => (p.byte? i).getD (file.getD i 0#8)

/-- The file that pieces make, one after the other. -/
def applyAll (ps : List Piece) : List Byte := ps.foldl Piece.apply []

/-- A piece covers a place, or cuts the file before it. -/
def Piece.Touches (p : Piece) (i : ℕ) : Prop := p.isize ≤ i ∨ (p.byte? i).isSome

instance (i : ℕ) : DecidablePred fun p : Piece => p.Touches i :=
  fun p => inferInstanceAs (Decidable (p.isize ≤ i ∨ (p.byte? i).isSome))

/-- The byte at a place by the newest piece that touches it. -/
def newestByte (ps : List Piece) (i : ℕ) : Byte :=
  match ps.reverse.find? (·.Touches i) with
  | none => 0#8
  | some p => if p.isize ≤ i then 0#8 else (p.byte? i).getD 0#8

theorem Piece.apply_length (file : List Byte) (p : Piece) : (p.apply file).length = p.isize := by
  rw [Piece.apply, List.length_map, List.length_range]

theorem Piece.apply_getD (file : List Byte) (p : Piece) (i : ℕ) :
    (p.apply file).getD i 0#8 =
      if p.isize ≤ i then 0#8 else (p.byte? i).getD (file.getD i 0#8) := by
  rw [Piece.apply, List.getD_eq_getElem?_getD, List.getElem?_map]
  by_cases h : p.isize ≤ i
  · rw [if_pos h, List.getElem?_eq_none (by rw [List.length_range]; exact h)]
    rfl
  · rw [if_neg h, List.getElem?_range (not_le.mp h)]
    rfl

theorem applyAll_concat (ps : List Piece) (p : Piece) :
    applyAll (ps ++ [p]) = p.apply (applyAll ps) := by
  rw [applyAll, List.foldl_append]
  rfl

theorem newestByte_concat (ps : List Piece) (p : Piece) (i : ℕ) :
    newestByte (ps ++ [p]) i =
      if p.isize ≤ i then 0#8 else (p.byte? i).getD (newestByte ps i) := by
  rw [newestByte, List.reverse_concat]
  by_cases ht : p.Touches i
  · rw [List.find?_cons_of_pos (by simpa using ht)]
    dsimp only
    rcases ht with hcut | hcover
    · rw [if_pos hcut, if_pos hcut]
    · obtain ⟨x, hx⟩ := Option.isSome_iff_exists.mp hcover
      rw [hx]
      rfl
  · rw [List.find?_cons_of_neg (by simpa using ht)]
    obtain ⟨hcut, hcover⟩ := not_or.mp ht
    rw [if_neg hcut, Option.not_isSome_iff_eq_none.mp hcover]
    rfl

/-- The newest piece decides about each byte. -/
theorem applyAll_getD (ps : List Piece) (i : ℕ) : (applyAll ps).getD i 0#8 = newestByte ps i := by
  induction ps using List.reverseRecOn with
  | nil => rfl
  | append_singleton ps p ih => rw [applyAll_concat, Piece.apply_getD, newestByte_concat, ih]

theorem applyAll_length (ps : List Piece) :
    (applyAll ps).length = ps.getLast?.elim 0 Piece.isize := by
  rcases List.eq_nil_or_concat ps with rfl | ⟨ps, p, rfl⟩
  · rfl
  · rw [List.concat_eq_append, applyAll_concat, Piece.apply_length, List.getLast?_concat]
    rfl

/-- When one piece alone makes the file that all of them make. -/
theorem apply_eq_applyAll_iff (p : Piece) (ps : List Piece) :
    p.apply [] = applyAll ps ↔
      ps.getLast?.elim 0 Piece.isize = p.isize ∧
        ∀ i < p.isize, newestByte ps i = (p.byte? i).getD 0#8 := by
  constructor
  · intro h
    refine ⟨by rw [← applyAll_length, ← h, Piece.apply_length], fun i hi => ?_⟩
    rw [← applyAll_getD, ← h, Piece.apply_getD, if_neg (not_le.mpr hi)]
    rfl
  · rintro ⟨hsize, hbytes⟩
    have hlen : (p.apply []).length = (applyAll ps).length := by
      rw [Piece.apply_length, applyAll_length, hsize]
    apply List.ext_getElem hlen
    intro i hi hi'
    have hi₀ : i < p.isize := by rwa [Piece.apply_length] at hi
    have hl : (p.apply [])[i] = (p.apply []).getD i 0#8 := (List.getElem_eq_getD 0#8)
    have hr : (applyAll ps)[i] = (applyAll ps).getD i 0#8 := (List.getElem_eq_getD 0#8)
    rw [hl, hr, applyAll_getD, hbytes i hi₀, Piece.apply_getD, if_neg (not_le.mpr hi₀)]
    rfl

end Pieces

section Blocks

variable {uncompress : List Byte → ℕ → List Byte}
  {others : Byte → List Byte → ℕ → Option (List Byte)} {n : RawInode} {b b' : ℕ → Byte}
  {bsize rsize rsize' : ℕ} {file : List Byte}

/-- The decompressors: that of `zlib`, the zeros, and others. -/
def decompressWith (uncompress : List Byte → ℕ → List Byte)
    (others : Byte → List Byte → ℕ → Option (List Byte)) (compr : Byte) (cdata : List Byte)
    (dsize : ℕ) : Option (List Byte) :=
  if compr = JFFS2_COMPR_ZLIB then some (uncompress cdata dsize)
  else if compr = JFFS2_COMPR_ZERO then some (List.replicate dsize 0#8)
  else others compr cdata dsize

/-- The data of a node as they are in the file. -/
def RawInode.data? (uncompress : List Byte → ℕ → List Byte)
    (others : Byte → List Byte → ℕ → Option (List Byte)) (n : RawInode) : Option (List Byte) :=
  decompressAs (decompressWith uncompress others) n.compr (n.data.take n.csize) n.dsize

def RawInode.piece (uncompress : List Byte → ℕ → List Byte)
    (others : Byte → List Byte → ℕ → Option (List Byte)) (n : RawInode) : Piece :=
  ⟨n.isize, n.offset, (n.data? uncompress others).getD []⟩

/-- The data are decompressed to their size. -/
def RawInode.Sound (uncompress : List Byte → ℕ → List Byte)
    (others : Byte → List Byte → ℕ → Option (List Byte)) (n : RawInode) : Prop :=
  ∃ data, n.data? uncompress others = some data ∧ data.length = n.dsize

/-- `putblock` takes a node: it fits into the buffer, and the type of its data is known. -/
def RawInode.Accepted (bsize : ℕ) (n : RawInode) : Prop :=
  n.isize ≤ bsize ∧ n.offset+n.dsize ≤ bsize ∧
    (n.compr = JFFS2_COMPR_ZLIB ∨ n.compr = JFFS2_COMPR_NONE ∨ n.compr = JFFS2_COMPR_ZERO)

theorem copyTo_replicate (b : ℕ → Byte) (o k : ℕ) :
    copyTo b o (List.replicate k 0#8) = setTo b o k 0#8 := by
  funext x
  rw [copyTo, setTo, List.getD_eq_getElem?_getD]
  by_cases hox : o ≤ x
  · rw [if_pos hox]
    by_cases hxk : x < o+k
    · rw [if_pos ⟨hox, hxk⟩, List.getElem?_replicate_of_lt (by omega)]
      rfl
    · rw [if_neg fun h => hxk h.2, List.getElem?_eq_none (by rw [List.length_replicate]; omega)]
      rfl
  · rw [if_neg hox, if_neg fun h => hox h.1]

/-- The buffer with the data of a node. -/
theorem putblock_some (hn : n.Sound uncompress others) (h : n.Accepted bsize) (b : ℕ → Byte)
    (rsize : ℕ) :
    putblock uncompress b bsize rsize n =
      some (copyTo (if rsize < n.isize then setTo b rsize (n.isize-rsize) 0#8 else b) n.offset
        (n.piece uncompress others).data, n.isize) := by
  obtain ⟨hisize, hend, htype⟩ := h
  obtain ⟨data, hdata, hlen⟩ := hn
  have hpiece : (n.piece uncompress others).data = data := by rw [RawInode.piece, hdata]; rfl
  rw [putblock, if_neg (by omega), hpiece]
  dsimp only
  generalize (if rsize < n.isize then setTo b rsize (n.isize-rsize) 0#8 else b) = b₁
  rw [RawInode.data?, decompressAs, decompressWith] at hdata
  rcases htype with hz | hz | hz
  · rw [if_neg (by rw [hz]; decide), if_pos hz] at hdata
    rw [if_pos hz, Option.some.inj hdata]
  · rw [if_pos hz] at hdata
    obtain rfl := Option.some.inj hdata
    rw [if_neg (by rw [hz]; decide), if_pos hz]
    have hle : n.dsize ≤ n.csize := by
      have hall := List.length_take_le n.csize n.data
      have htake := List.length_take_le' n.dsize (n.data.take n.csize)
      omega
    rw [List.take_take, Nat.min_eq_left hle]
  · rw [if_neg (by rw [hz]; decide), if_neg (by rw [hz]; decide), if_pos hz] at hdata
    obtain rfl := Option.some.inj hdata
    rw [if_neg (by rw [hz]; decide), if_neg (by rw [hz]; decide), if_pos hz, copyTo_replicate]

theorem putblock_none (h : ¬ n.Accepted bsize) (b : ℕ → Byte) (rsize : ℕ) :
    putblock uncompress b bsize rsize n = none := by
  rw [putblock]
  split
  · rfl
  next hfit =>
    rw [not_or, not_lt, not_lt] at hfit
    have htype : ¬ (n.compr = JFFS2_COMPR_ZLIB ∨ n.compr = JFFS2_COMPR_NONE ∨
        n.compr = JFFS2_COMPR_ZERO) := fun ht => h ⟨hfit.1, hfit.2, ht⟩
    rw [not_or, not_or] at htype
    dsimp only
    rw [if_neg htype.1, if_neg htype.2.1, if_neg htype.2.2]

/-- Putting a node into the buffer is applying its piece. -/
theorem putblock_applies (hn : n.Sound uncompress others) (h : n.Accepted bsize) 
    (hfile : readBytes b 0 rsize = file) :
    ∃ b', putblock uncompress b bsize rsize n = some (b', n.isize) ∧
      readBytes b' 0 n.isize = (n.piece uncompress others).apply file := by
  refine ⟨_, putblock_some hn h b rsize, ?_⟩
  change (List.range n.isize).map _ = (List.range n.isize).map _
  apply List.map_congr_left
  intro i hi
  rw [List.mem_range] at hi
  have hold : (if rsize < n.isize then setTo b rsize (n.isize-rsize) 0#8 else b) i =
      file.getD i 0#8 := by
    rw [← hfile, readBytes, List.getD_eq_getElem?_getD, List.getElem?_map]
    by_cases hlt : i < rsize
    · rw [List.getElem?_range hlt]
      simp only [Option.map_some, Option.getD_some, Nat.zero_add]
      split
      · exact setTo_below hlt
      · rfl
    · rw [if_pos (by omega), List.getElem?_eq_none (by rw [List.length_range]; omega)]
      exact if_pos (by omega)
  rw [Nat.zero_add, copyTo, hold, Piece.byte?]
  change (if n.offset ≤ i then _ else _) = (if n.offset ≤ i then _ else _ : Option Byte).getD _
  split
  · exact List.getD_eq_getElem?_getD
  · rfl

/-- Nodes that are put into the buffer one after the other make the file of their pieces. -/
theorem putblocks_apply {ns : List RawInode}
    (hns : ∀ n ∈ ns, n.Sound uncompress others ∧ n.Accepted bsize)
    (hfile : readBytes b 0 rsize = file) :
    ∃ b' rsize', ns.foldlM (fun s n => putblock uncompress s.1 bsize s.2 n) (b, rsize) =
        some (b', rsize') ∧
      readBytes b' 0 rsize' = (ns.map (RawInode.piece uncompress others)).foldl Piece.apply file := by
  induction ns generalizing b rsize file with
  | nil => exact ⟨b, rsize, rfl, hfile⟩
  | cons n ns ih =>
    obtain ⟨hsound, haccept⟩ := hns n List.mem_cons_self
    obtain ⟨b₁, hput, hread⟩ := putblock_applies hsound haccept hfile
    obtain ⟨b', rsize', hrest, hread'⟩ := ih (fun m hm => hns m (List.mem_cons_of_mem n hm)) hread
    refine ⟨b', rsize', ?_, hread'⟩
    rw [List.foldlM_cons]
    dsimp only
    rw [hput]
    exact hrest

end Blocks

section Catfile

variable {e : Endian} {o : List Byte} {ns L : List ℕ} {ino q : ℕ}

/-- A node is one of the inode. -/
def IsInode (e : Endian) (o : List Byte) (ino n : ℕ) : Prop :=
  e.get o (n+2) 2 = JFFS2_NODETYPE_INODE ∧ e.get o (n+12) 4 = ino

instance (e : Endian) (o : List Byte) (ino : ℕ) : DecidablePred (IsInode e o ino) :=
  fun n => inferInstanceAs
    (Decidable (e.get o (n+2) 2 = JFFS2_NODETYPE_INODE ∧ e.get o (n+12) 4 = ino))

theorem inodeVersion_of (h : IsInode e o ino q) :
    inodeVersion e o ino q = (rawInode e o q).version := if_pos h

/-- The node that is found is the first above version 0, in the order of the versions. -/
theorem foundInode_iff (hperm : L.Perm (ns.filter (IsInode e o ino)))
    (hsorted : L.Pairwise fun p q => (rawInode e o p).version < (rawInode e o q).version) :
    foundInode e o ino ns = some q ↔ ∃ A B, L = A ++ q :: B ∧
      (∀ p ∈ A, (rawInode e o p).version = 0) ∧ 0 < (rawInode e o q).version ∧
      (rawInode e o q).version < 2^32-1 := by
  have hmem : ∀ p, p ∈ L ↔ p ∈ ns ∧ IsInode e o ino p := by
    intro p
    rw [hperm.mem_iff, List.mem_filter, decide_eq_true_eq]
  have hpos : ∀ p, 0 < inodeVersion e o ino p → IsInode e o ino p := by
    intro p hp
    by_contra hno
    have h0 : inodeVersion e o ino p = 0 := if_neg hno
    omega
  have hfound : foundInode e o ino ns = some q ↔
      next (inodeVersion e o ino) 0 ns = some q ∧ inodeVersion e o ino q < 2^32-1 := by
    rw [foundInode]
    cases next (inodeVersion e o ino) 0 ns with
    | none => simp
    | some p =>
      dsimp only
      rw [Option.some.injEq]
      constructor
      · intro h
        split at h
        next hlt =>
          obtain rfl := Option.some.inj h
          exact ⟨rfl, hlt⟩
        next => cases h
      · rintro ⟨rfl, hlt⟩
        exact if_pos hlt
  rw [hfound]
  constructor
  · rintro ⟨hn, hlt⟩
    have hq := (next_split hn).1
    have hqi := hpos q hq
    obtain ⟨A, B, rfl⟩ := List.append_of_mem ((hmem q).mpr ⟨next_mem hn, hqi⟩)
    rw [inodeVersion_of hqi] at hq hlt
    refine ⟨A, B, rfl, fun p hp => ?_, hq, hlt⟩
    obtain ⟨hpn, hpi⟩ := (hmem p).mp (List.mem_append_left _ hp)
    have hless := (List.pairwise_append.mp hsorted).2.2 p hp q List.mem_cons_self
    by_contra hp0
    have hle := next_le hn hpn (by rw [inodeVersion_of hpi]; omega)
    rw [inodeVersion_of hpi, inodeVersion_of hqi] at hle
    omega
  · rintro ⟨A, B, rfl, hA, hq, hlt⟩
    obtain ⟨hqn, hqi⟩ := (hmem q).mp (by simp)
    have hversion := inodeVersion_of hqi
    cases hn : next (inodeVersion e o ino) 0 ns with
    | none =>
      have := next_eq_none.mp hn q hqn
      omega
    | some p =>
      have hp := (next_split hn).1
      have hpi := hpos p hp
      have hle := next_le hn hqn (by omega)
      rw [inodeVersion_of hpi] at hp hle
      have hpL := (hmem p).mpr ⟨next_mem hn, hpi⟩
      suffices hpq : p = q by
        subst hpq
        exact ⟨rfl, by omega⟩
      rcases List.mem_append.mp hpL with hpA | hpB
      · have := hA p hpA
        omega
      · rcases List.mem_cons.mp hpB with rfl | hpB
        · rfl
        · have := (List.pairwise_cons.mp (List.pairwise_append.mp hsorted).2.1).1 p hpB
          omega

variable (uncompress : List Byte → ℕ → List Byte)
  (others : Byte → List Byte → ℕ → Option (List Byte))

/-- The pieces of nodes of the image. -/
def piecesOf (e : Endian) (o : List Byte) (L : List ℕ) : List Piece :=
  L.map fun q => (rawInode e o q).piece uncompress others

/-- When `catfile` writes the whole file, from its nodes in the order of their versions: the first of
them above version 0 is one that `putblock` takes, the last one has the same size, and at each place
of the file the newest node that touches it has the byte of the first. -/
structure OneNodeFile (e : Endian) (o : List Byte) (bsize : ℕ) (L : List ℕ) (q : ℕ) : Prop where
  first : ∃ A B, L = A ++ q :: B ∧ ∀ p ∈ A, (rawInode e o p).version = 0
  pos : 0 < (rawInode e o q).version
  small : (rawInode e o q).version < 2^32-1
  accepted : (rawInode e o q).Accepted bsize
  size : ∀ p ∈ L.getLast?, (rawInode e o p).isize = (rawInode e o q).isize
  bytes : ∀ i < (rawInode e o q).isize, newestByte (piecesOf uncompress others e o L) i =
    (((rawInode e o q).piece uncompress others).byte? i).getD 0#8

/-- `catfile` writes the file of the nodes just when one of them makes it. -/
theorem catfile_iff (hc : Chain e o 0 ns) (fuel : ℕ) (path : List Byte) (dd : RawDirent)
    (hpath : resolvepath e o uncompress fuel 1 path = some (some dd, ino)) (hino : ino ≠ 0)
    (hreg : dd.type = DT_REG) (hperm : L.Perm (ns.filter (IsInode e o ino)))
    (hsorted : L.Pairwise fun p q => (rawInode e o p).version < (rawInode e o q).version)
    (hsound : ∀ q ∈ L, (rawInode e o q).Sound uncompress others) (b : ℕ → Byte) (bsize : ℕ) :
    catfile e o uncompress fuel path b bsize = some (applyAll (piecesOf uncompress others e o L)) ↔
      ∃ q, OneNodeFile uncompress others e o bsize L q := by
  have hlen : ns.length < o.length+1 := Nat.lt_succ_of_le hc.length_le
  have hcat : catfile e o uncompress fuel path b bsize = (foundInode e o ino ns).bind fun q =>
      (putblock uncompress b bsize 0 (rawInode e o q)).bind fun s =>
        some (readBytes s.1 0 s.2) := by
    rw [catfile, hpath]
    change (if ino = 0 then none else _) = _
    rw [if_neg hino]
    change (if dd.type ≠ DT_REG then none else _) = _
    rw [if_neg (not_not.mpr hreg), findRawInode_found hc ino hlen]
    rfl
  have hmem : ∀ {A B : List ℕ} {q : ℕ}, L = A ++ q :: B → q ∈ L := by
    rintro A B q rfl
    simp
  have hlast : ∀ {q : ℕ}, q ∈ L →
      ((piecesOf uncompress others e o L).getLast?.elim 0 Piece.isize = (rawInode e o q).isize ↔
        ∀ p ∈ L.getLast?, (rawInode e o p).isize = (rawInode e o q).isize) := by
    intro q hq
    rw [piecesOf, List.getLast?_map]
    cases hl : L.getLast? with
    | none =>
      rw [List.getLast?_eq_none_iff.mp hl] at hq
      cases hq
    | some p => simp [RawInode.piece]
  rw [hcat, Option.bind_eq_some_iff]
  constructor
  · rintro ⟨q, hq, hput⟩
    obtain ⟨A, B, hL, hA, hpos, hsmall⟩ := (foundInode_iff hperm hsorted).mp hq
    have hqL := hmem hL
    obtain ⟨⟨b', rsize⟩, hblock, hread⟩ := Option.bind_eq_some_iff.mp hput
    have haccept : (rawInode e o q).Accepted bsize := by
      by_contra hno
      rw [putblock_none hno] at hblock
      cases hblock
    obtain ⟨b₁, hput₁, hread₁⟩ := putblock_applies (hsound q hqL) haccept
      (rfl : readBytes b 0 0 = [])
    obtain ⟨rfl, rfl⟩ := Prod.mk.inj (Option.some.inj (hput₁.symm.trans hblock))
    have hfile := hread₁.symm.trans (Option.some.inj hread)
    obtain ⟨hsize, hbytes⟩ := (apply_eq_applyAll_iff _ _).mp hfile
    exact ⟨q, ⟨A, B, hL, hA⟩, hpos, hsmall, haccept, (hlast hqL).mp hsize, hbytes⟩
  · rintro ⟨q, ⟨A, B, hL, hA⟩, hpos, hsmall, haccept, hsize, hbytes⟩
    have hqL := hmem hL
    refine ⟨q, (foundInode_iff hperm hsorted).mpr ⟨A, B, hL, hA, hpos, hsmall⟩, ?_⟩
    obtain ⟨b', hput, hread⟩ := putblock_applies (hsound q hqL) haccept
      (rfl : readBytes b 0 0 = [])
    rw [hput]
    refine congrArg some (hread.trans ((apply_eq_applyAll_iff _ _).mpr ⟨?_, hbytes⟩))
    exact (hlast hqL).mpr hsize

end Catfile

end ChipTools.Jffs2
