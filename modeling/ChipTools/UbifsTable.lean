import ChipTools.DevTable
import ChipTools.Loop
import ChipTools.UbifsMkfs
import Mathlib.Data.List.DropRight

/-! The device table of `mkfs.ubifs` on its way into the image: the two levels of hash tables that
`parse_devtable` fills, and `add_directory` with them. -/
namespace ChipTools.UbifsTable
open Bytes Ubifs UbifsMkfs

section Parse

/-- glibc's. -/
def makedev (major minor : ℕ) : ℕ :=
  major/2^12*2^44+minor/2^8*2^20+major%2^12*2^8+minor%2^8

/-- An element of a name table, with the path that the table is under. -/
structure NameElt where
  path : List Byte
  name : List Byte
  elt : NhElt

/-- A line that has been read: its numbers, the bits of its type, and the path without its last
component. -/
structure Line where
  fields : DevTable.Fields
  bits : ℕ
  path : List Byte
  name : List Byte
deriving DecidableEq, Repr

inductive Err
  | tooShort
  | line (e : DevTable.Ubifs.Err)
  | tree (e : TreeErr)
  | existsAtHost
  | typeDiffers
  | regularFile
  | depth
deriving DecidableEq, Repr

/-- `interpret_table_entry` before it comes to the elements. -/
def readLine (line : List Byte) : Except Err Line :=
  match DevTable.scanHead 1023 line with
  | none => .error (.line .sscanf)
  | some h => do
    let f := DevTable.Ubifs.fields h
    (DevTable.Ubifs.checkPath h.name).mapError .line
    let bits ← (DevTable.Ubifs.typeBits h.type).mapError .line
    let (path, name) := DevTable.Ubifs.separateLast h.name
    if f.increment ≠ 0 ∧ f.count = 0 then .error (.line .countZero)
    else .ok ⟨f, bits, path, name⟩

/-- The elements of a line. A name table has the names alone, without the path before them. -/
def Line.elements (l : Line) : List NameElt :=
  (DevTable.Ubifs.elements l.fields (l.fields.mode ||| l.bits) l.path l.name).map fun e =>
    ⟨l.path, e.path.drop (DevTable.Ubifs.fullName l.path []).length,
      ⟨BitVec.ofNat 32 e.mode, BitVec.ofNat 32 e.uid, BitVec.ofNat 32 e.gid,
        makedev e.major e.minor⟩⟩

/-- `hashtable_search` and `hashtable_insert`. -/
def insert (tbl : List NameElt) (e : NameElt) : Except Err (List NameElt) :=
  if tbl.any fun x => x.path = e.path ∧ x.name = e.name then .error (.line .referredTwice)
  else .ok (tbl ++ [e])

def interpretTableEntry (tbl : List NameElt) (line : List Byte) : Except Err (List NameElt) := do
  let l ← readLine line
  l.elements.foldlM insert tbl

/-- A line of the file up to a null byte, without the white space around it. -/
def trim (line : List Byte) : List Byte :=
  ((line.takeWhile (· ≠ 0#8)).rdropWhile CNumber.isSpace).dropWhile
    fun b => [0x20#8, 0x0a#8, 0x0d#8, 0x09#8, 0x0b#8].contains b

/-- The lines that are not empty and no comments. -/
def tableLines (file : List Byte) : List (List Byte) :=
  ((file.splitOn 0x0a#8).map trim).filter fun line => line ≠ [] ∧ line.head? ≠ some 0x23#8

def parseDevtable (file : List Byte) : Except Err (List NameElt) :=
  if file.length < 10 then .error .tooShort
  else (tableLines file).foldlM interpretTableEntry []

end Parse

section Walk

/-- In which order the iterator of a hash table comes to its elements. -/
structure HashOrder where
  order : List NameElt → List NameElt
  perm : ∀ t, (order t).Perm t

/-- `make_path`, behind the root directory of the host. -/
def makePath (dir name : List Byte) : List Byte :=
  if [DevTable.slash] <:+ dir then dir ++ name else dir ++ DevTable.slash :: name

/-- `devtbl_find_path`: the name table of a directory. -/
def namesAt (tbl : List NameElt) (path : List Byte) : List NameElt :=
  tbl.filter fun e => e.path = path

/-- `override_attributes`, where `devtbl_find_name` has found the file. -/
def overrideAttributes (st : Stat) (name : List Byte) (t : List NameElt) :
    Except Err (Stat × List NameElt) :=
  match t.find? fun e => e.name = name with
  | none => .ok (st, t)
  | some e =>
    if itype st.st_mode = some .chr ∨ itype st.st_mode = some .blk ∨
        itype st.st_mode = some .fifo then .error .existsAtHost
    else if st.st_mode &&& S_IFMT ≠ e.elt.mode &&& S_IFMT then .error .typeDiffers
    else .ok ({ st with st_uid := e.elt.uid, st_gid := e.elt.gid, st_mode := e.elt.mode },
      t.filter fun x => x.name ≠ name)

/-- What the calls find at a path where the host has no file. -/
def absent : HostInode := ⟨⟨0#32, 0, 0#32, 0#32, 0, 0, 0, 0, 0⟩, 0#32, 0, fun _ => 0#8, fun _ _ => 0, []⟩

variable (z : Codec) (o : TreeOptions) (host : HostIno → HostInode) (root_st : Stat)
variable (order : HashOrder) (tbl : List NameElt)

/-- The second loop of `add_directory`. A directory is made by `make`. -/
def addNames (make : List Byte → ℕ → Stat → Mkfs → Except Err Mkfs) (path : List Byte)
    (dir_inum : ℕ) : List NameElt → ℕ → ℕ → Mkfs → Except Err (ℕ × ℕ × Mkfs)
  | [], size, nlink, s => .ok (size, nlink, s)
  | e :: rest, size, nlink, s =>
    if itype e.elt.mode = some .reg then .error .regularFile
    else do
      let st := fakeSt root_st e.elt
      let inum := s.highest_inum+1
      if S_ISDIR e.elt.mode then do
        let s ← make (makePath path e.name) inum st { s with highest_inum := inum }
        addNames make path dir_inum rest (size+dentSize e.name) (nlink+1)
          (addDentNode o dir_inum e.name inum .dir s)
      else do
        let (inum, type, s) ← (addNonDir z o (fun _ => absent) ⟨0, 0⟩ st inum 0#32
          { s with highest_inum := inum }).mapError .tree
        addNames make path dir_inum rest (size+dentSize e.name) nlink
          (addDentNode o dir_inum e.name inum type s)

/-- `add_directory`, with its first loop, which gives what is left of the name table, the size and
the number of links. -/
def addDirectory (make : List Byte → ℕ → Stat → Mkfs → Except Err Mkfs) (dir : HostInode)
    (loop : Mkfs → Except Err (List NameElt × ℕ × ℕ × Mkfs)) (path : List Byte) (dir_inum : ℕ)
    (st : Stat) (s : Mkfs) : Except Err Mkfs := do
  let dir_creat_sqnum := s.max_sqnum+1
  let (t, size, nlink, s) ← loop { s with max_sqnum := dir_creat_sqnum }
  let (size, nlink, s) ← addNames z o root_st make path dir_inum (order.order t) size nlink s
  .ok (addDirInode o dir dir_inum size nlink st { s with creat_sqnum := dir_creat_sqnum })

/-- For a directory that only the table has, there is no first loop. The table is finite, so the
depth is too. -/
def addNewDirectory : ℕ → List Byte → ℕ → Stat → Mkfs → Except Err Mkfs
  | 0, _, _, _, _ => .error .depth
  | fuel+1, path, inum, st, s =>
    addDirectory z o root_st order (addNewDirectory fuel) absent
      (fun s => .ok (namesAt tbl path, UBIFS_INO_NODE_SZ, 2, s)) path inum st s

/-- Deeper than the longest path of the table there is nothing to make. -/
def depth : ℕ := (tbl.map fun e => e.path.length).foldr max 0+2

/-- The first loop for a directory of the host. -/
def addEntries : Entries → List Byte → List NameElt → ℕ → ℕ → ℕ → Mkfs →
    Except Err (List NameElt × ℕ × ℕ × Mkfs)
  | .nil, _, t, _, size, nlink, s => .ok (t, size, nlink, s)
  | .file name h rest, path, t, dir_inum, size, nlink, s => do
    let (st, t) ← overrideAttributes (squash o (host h).st) name t
    let inum := s.highest_inum+1
    let (inum, type, s) ←
      (addNonDir z o host h st inum 0#32 { s with highest_inum := inum }).mapError .tree
    addEntries rest path t dir_inum (size+dentSize name) nlink
      (addDentNode o dir_inum name inum type s)
  | .dir name h sub rest, path, t, dir_inum, size, nlink, s => do
    let (st, t) ← overrideAttributes (squash o (host h).st) name t
    let inum := s.highest_inum+1
    let s ← addDirectory z o root_st order (addNewDirectory z o root_st order tbl (depth tbl)) (host h)
      (addEntries sub (makePath path name) (namesAt tbl (makePath path name)) inum
        UBIFS_INO_NODE_SZ 2) (makePath path name) inum st { s with highest_inum := inum }
    addEntries rest path t dir_inum (size+dentSize name) (nlink+1)
      (addDentNode o dir_inum name inum .dir s)

def rootPath : List Byte := [DevTable.slash]

/-- `write_data`, with `root_st` as `stat` has found it. -/
def writeData (T : HostTree) (max_sqnum : ℕ) : Except Err Mkfs := do
  let st := (T.host T.root).st
  let s ← addDirectory z o st order (addNewDirectory z o st order tbl (depth tbl)) (T.host T.root)
    (addEntries z o T.host st order tbl T.entries rootPath (namesAt tbl rootPath) UBIFS_ROOT_INO
      UBIFS_INO_NODE_SZ 2) rootPath UBIFS_ROOT_INO st
    ⟨UBIFS_FIRST_INO, max_sqnum, 0, fun _ => [], []⟩
  (addMultiLinkedFiles z o T.host s).mapError .tree

/-- The table is read, and the tree written with it. -/
def mkfsData (file : List Byte) (T : HostTree) (max_sqnum : ℕ) : Except Err Mkfs := do
  let tbl ← parseDevtable file
  writeData z o order tbl T max_sqnum

end Walk

section Made

/-- The entries of a directory of the image with their inodes. `src` is the file of the host, where
there is one, and `st` what the inode is made from. -/
inductive Made
  | nil
  | file (name : List Byte) (inum : ℕ) (type : IType) (src : Option HostIno) (st : Stat) (rest : Made)
  | dir (name : List Byte) (inum : ℕ) (st : Stat) (sub rest : Made)

/-- What the image shows of an inode. -/
structure Face where
  key : Key
  uid : BitVec 32
  gid : BitVec 32
  mode : BitVec 32
  data : List Byte
deriving DecidableEq, Repr

def face (n : InoNode) : Face := ⟨n.key, n.uid, n.gid, n.mode, n.data⟩

/-- A visit of a file with several links. -/
structure Multi where
  ino : HostIno
  inum : ℕ
  st : Stat

/-- The data of the inode of a file. -/
def fileData (host : HostIno → HostInode) (type : IType) (src : Option HostIno) (st : Stat) :
    List Byte :=
  match type, src with
  | .chr, _ => le 8 st.st_rdev
  | .blk, _ => le 8 st.st_rdev
  | .lnk, some h => (host h).target
  | _, _ => []

def fileFace (host : HostIno → HostInode) (inum : ℕ) (type : IType) (src : Option HostIno)
    (st : Stat) : Face :=
  ⟨inoKeyInit inum, st.st_uid, st.st_gid, st.st_mode, fileData host type src st⟩

def dirFace (inum : ℕ) (st : Stat) : Face := ⟨inoKeyInit inum, st.st_uid, st.st_gid, st.st_mode, []⟩

/-- The visit, if it is one of a file with several links. -/
def multi? (inum : ℕ) (src : Option HostIno) (st : Stat) : Option Multi :=
  if 1 < st.st_nlink then src.map fun h => ⟨h, inum, st⟩ else none

namespace Made

def append : Made → Made → Made
  | .nil, N => N
  | .file name inum type src st rest, N => .file name inum type src st (rest.append N)
  | .dir name inum st sub rest, N => .dir name inum st sub (rest.append N)

/-- The directory entries, of which those of a directory come before the one for itself. -/
def dents (o : TreeOptions) : ℕ → Made → List DentNode
  | _, .nil => []
  | i, .file name inum type _ _ rest => dentNode o i name inum type :: rest.dents o i
  | i, .dir name inum _ sub rest =>
    sub.dents o inum ++ dentNode o i name inum .dir :: rest.dents o i

/-- The inodes that are written during the walk. -/
def faces (host : HostIno → HostInode) : Made → List Face
  | .nil => []
  | .file _ inum type src st rest =>
    (if (multi? inum src st).isSome then [] else [fileFace host inum type src st]) ++ rest.faces host
  | .dir _ inum st sub rest => sub.faces host ++ dirFace inum st :: rest.faces host

def multis : Made → List Multi
  | .nil => []
  | .file _ inum _ src st rest => (multi? inum src st).toList ++ rest.multis
  | .dir _ _ _ sub rest => sub.multis ++ rest.multis

/-- The numbers of the inodes that are written during the walk. -/
def own : Made → List ℕ
  | .nil => []
  | .file _ inum _ src st rest => (if (multi? inum src st).isSome then [] else [inum]) ++ rest.own
  | .dir _ inum _ sub rest => inum :: (sub.own ++ rest.own)

end Made

/-- The last visit of a file. -/
def lastOf (L : List Multi) (h : HostIno) : Option Multi := (L.filter (·.ino = h)).getLast?

/-- The state after the visits of `L`. -/
structure Logged (L : List Multi) (s : Mkfs) : Prop where
  nodup : TableNodup s.hash_table
  mem : ∀ k e, e ∈ s.hash_table k ↔ e.ino.ino%HASH_TABLE_SIZE = k ∧ ∃ v, lastOf L e.ino = some v ∧
    e = ⟨e.ino, v.inum, BitVec.ofNat 32 (L.countP (·.ino = e.ino)), e.ino, v.st⟩
  le : ∀ v ∈ L, v.inum ≤ s.highest_inum
  same : ∀ v ∈ L, ∀ w ∈ L, v.ino = w.ino ↔ v.inum = w.inum

/-- No file has more visits than a link count can tell. -/
def Countable (L : List Multi) : Prop := ∀ h, L.countP (·.ino = h) < 2^32

/-- The numbers of a part of the walk, which starts after the visits of `L` with `lo` numbers given
away and ends with `hi`. -/
structure Numbered (L : List Multi) (lo hi : ℕ) (multis : List Multi) (own : List ℕ) : Prop where
  le : lo ≤ hi
  own_mem : ∀ i ∈ own, lo < i ∧ i ≤ hi
  own_nodup : own.Nodup
  multi_mem : ∀ v ∈ multis, v.inum ∉ own ∧
    (lo < v.inum ∧ v.inum ≤ hi ∨ ∃ w ∈ L, w.inum = v.inum)

/-- What a part of the walk adds to the image. -/
structure Grows (s s' : Mkfs) (dents : List DentNode) (faces : List Face) (multis : List Multi)
    (own : List ℕ) : Prop where
  emits : ∃ inos datas, Emits s s' dents inos datas ∧ inos.map face = faces
  logged : ∀ L, Logged L s → Countable (L ++ multis) →
    Logged (L ++ multis) s' ∧ Numbered L s.highest_inum s'.highest_inum multis own

section Grow

variable {s s' s'' : Mkfs} {ds ds' : List DentNode} {fs fs' : List Face} {ms ms' : List Multi}
variable {ns ns' : List ℕ} {L : List Multi} {lo mid hi : ℕ}

theorem lastOf_append (L M : List Multi) (h : HostIno) :
    lastOf (L ++ M) h = (lastOf M h).or (lastOf L h) := by
  unfold lastOf
  rw [List.filter_append, List.getLast?_append]

theorem Countable.left (h : Countable (L ++ ms)) : Countable L := by
  intro x
  have := h x
  rw [List.countP_append] at this
  omega

theorem Numbered.nil (L : List Multi) (lo : ℕ) : Numbered L lo lo [] [] :=
  ⟨le_refl lo, fun _ h => absurd h List.not_mem_nil, List.nodup_nil,
    fun _ h => absurd h List.not_mem_nil⟩

theorem Numbered.trans (h : Numbered L lo mid ms ns) (h' : Numbered (L ++ ms) mid hi ms' ns')
    (hL : ∀ v ∈ L, v.inum ≤ lo) : Numbered L lo hi (ms ++ ms') (ns ++ ns') := by
  have hle := h.le
  have hle' := h'.le
  have hms (v : Multi) (hv : v ∈ ms) : v.inum ≤ mid := by
    rcases (h.multi_mem v hv).2 with hv | ⟨w, hw, he⟩
    · exact hv.2
    · have := hL w hw
      omega
  refine ⟨by omega, ?_, ?_, ?_⟩
  · intro i hi
    rcases List.mem_append.mp hi with hi | hi
    · have := h.own_mem i hi
      omega
    · have := h'.own_mem i hi
      omega
  · apply List.nodup_append.mpr ⟨h.own_nodup, h'.own_nodup, ?_⟩
    intro a ha b hb
    have := h.own_mem a ha
    have := h'.own_mem b hb
    omega
  · intro v hv
    rcases List.mem_append.mp hv with hv | hv
    · obtain ⟨hnot, hnum⟩ := h.multi_mem v hv
      constructor
      · intro hmem
        rcases List.mem_append.mp hmem with hmem | hmem
        · exact hnot hmem
        · have := h'.own_mem _ hmem
          have := hms v hv
          omega
      · exact hnum.imp_left fun hn => ⟨hn.1, by omega⟩
    · obtain ⟨hnot, hnum⟩ := h'.multi_mem v hv
      rcases hnum with hnum | ⟨w, hw, he⟩
      · refine ⟨fun hmem => ?_, .inl ⟨by omega, hnum.2⟩⟩
        rcases List.mem_append.mp hmem with hmem | hmem
        · have := h.own_mem _ hmem
          omega
        · exact hnot hmem
      · rcases List.mem_append.mp hw with hw | hw
        · refine ⟨fun hmem => ?_, .inr ⟨w, hw, he⟩⟩
          rcases List.mem_append.mp hmem with hmem | hmem
          · have := h.own_mem _ hmem
            have := hL w hw
            omega
          · exact hnot hmem
        · obtain ⟨hnot', hnum'⟩ := h.multi_mem w hw
          refine ⟨fun hmem => ?_, ?_⟩
          · rcases List.mem_append.mp hmem with hmem | hmem
            · rw [← he] at hmem
              exact hnot' hmem
            · exact hnot hmem
          · rw [← he]
            exact hnum'.imp_left fun hn => ⟨hn.1, by omega⟩

theorem Grows.trans (h : Grows s s' ds fs ms ns) (h' : Grows s' s'' ds' fs' ms' ns') :
    Grows s s'' (ds ++ ds') (fs ++ fs') (ms ++ ms') (ns ++ ns') := by
  constructor
  · obtain ⟨is, bs, hemit, hface⟩ := h.emits
    obtain ⟨is', bs', hemit', hface'⟩ := h'.emits
    exact ⟨_, _, hemit.trans hemit', by rw [List.map_append, hface, hface']⟩
  · intro L hL hc
    rw [← List.append_assoc] at hc ⊢
    obtain ⟨h1, hn1⟩ := h.logged L hL hc.left
    obtain ⟨h2, hn2⟩ := h'.logged _ h1 hc
    exact ⟨h2, hn1.trans hn2 hL.le⟩

/-- Nodes that change neither the numbers nor the table. -/
theorem grows_still {is : List InoNode} {bs : List DataNode} (he : Emits s s' ds is bs)
    (hs : Still s s') (hf : is.map face = fs) : Grows s s' ds fs [] [] := by
  refine ⟨⟨is, bs, he, hf⟩, ?_⟩
  intro L hL _
  rw [List.append_nil, hs.highest]
  refine ⟨⟨?_, ?_, ?_, hL.same⟩, .nil L _⟩
  · rw [hs.table]
    exact hL.nodup
  · rw [hs.table]
    exact hL.mem
  · rw [hs.highest]
    exact hL.le

/-- The next number is given away. -/
theorem grows_inum (s : Mkfs) :
    Grows s { s with highest_inum := s.highest_inum+1 } [] [] [] [s.highest_inum+1] := by
  refine ⟨⟨[], [], emits_nodes rfl, rfl⟩, ?_⟩
  intro L hL _
  rw [List.append_nil]
  refine ⟨⟨hL.nodup, hL.mem, fun v hv => le_trans (hL.le v hv) (Nat.le_succ _), hL.same⟩, ?_⟩
  refine ⟨Nat.le_succ _, ?_, List.nodup_singleton _, fun _ h => absurd h List.not_mem_nil⟩
  intro i hi
  rw [List.mem_singleton.mp hi]
  exact ⟨Nat.lt_succ_self _, le_refl _⟩

end Grow

end Made

section Steps

variable {z : Codec} {o : TreeOptions} {host : HostIno → HostInode} {s s' : Mkfs}

theorem mapError_eq_ok {ε ε' α : Type} {x : Except ε α} {f : ε → ε'} {a : α}
    (h : x.mapError f = .ok a) : x = .ok a := by
  cases x with
  | error e => cases h
  | ok b => exact congrArg Except.ok (Except.ok.inj h)

theorem addBlocks_emits (i : HostInode) (inum : ℕ) (flags : BitVec 32) (k size block : ℕ) (s : Mkfs) :
    Still s (addBlocks z o i inum flags k size block s).2 ∧
    ∃ bs, Emits s (addBlocks z o i inum flags k size block s).2 [] [] bs := by
  induction k generalizing size block s with
  | zero => exact ⟨⟨rfl, rfl⟩, [], emits_nodes rfl⟩
  | succ k ih =>
    rw [Ubifs.addBlocks]
    dsimp only
    split
    · exact ⟨⟨rfl, rfl⟩, [], emits_nodes rfl⟩
    · -- a block of zeroes adds nothing
      obtain ⟨s₁, hs₁⟩ : ∃ s₁, s₁ = if allZero (readBytes i.byte size
          (Ubifs.readBlock i size (UBIFS_BLOCK_SIZE+1) 0).2) then s
        else Ubifs.addNode (.data (dataNode z o inum block flags (readBytes i.byte size
          (Ubifs.readBlock i size (UBIFS_BLOCK_SIZE+1) 0).2))) s := ⟨_, rfl⟩
      have hone : Still s s₁ ∧ ∃ bs, Emits s s₁ [] [] bs := by
        rw [hs₁]
        split
        · exact ⟨⟨rfl, rfl⟩, [], emits_nodes rfl⟩
        · exact ⟨addNode_still _, _, addNode_data _⟩
      obtain ⟨hstill, bs, hemit⟩ := hone
      rw [← hs₁]
      split
      · obtain ⟨hstill', bs', hemit'⟩ := ih
          (size+(Ubifs.readBlock i size (UBIFS_BLOCK_SIZE+1) 0).2) (block+1) s₁
        exact ⟨hstill.trans hstill', _, hemit.trans hemit'⟩
      · exact ⟨hstill, bs, hemit⟩

/-- A file that is written at once: one inode node, behind its data. -/
theorem writeNonDir_grows {h : HostIno} {type : IType} {st : Stat} {inum : ℕ}
    (hrun : Ubifs.writeNonDir z o host h type st inum s = .ok s') :
    Grows s s' [] [fileFace host inum type (some h) st] [] [] := by
  obtain ⟨s₁, hs₁⟩ : ∃ s₁ : Mkfs, s₁ = { s with max_sqnum := s.max_sqnum+1
                                                creat_sqnum := s.max_sqnum+1 } := ⟨_, rfl⟩
  have hstill : Still s s₁ := by
    rw [hs₁]
    exact ⟨rfl, rfl⟩
  have hemit : Emits s s₁ [] [] [] := by
    rw [hs₁]
    exact emits_nodes rfl
  have hino {data : List Byte} {flags : BitVec 32}
      (hdata : fileData host type (some h) st = data) :
      Grows s (Ubifs.addInodeWithData o st inum data flags s₁) []
        [fileFace host inum type (some h) st] [] [] := by
    refine grows_still (hemit.trans (addInodeWithData_emits o st inum data flags))
      (hstill.trans (addNode_still _)) ?_
    rw [fileFace, hdata]
    rfl
  unfold Ubifs.writeNonDir at hrun
  rw [← hs₁] at hrun
  cases type with
  | reg =>
    unfold Ubifs.addFile at hrun
    dsimp only at hrun
    split at hrun
    · cases hrun
    · obtain rfl := Except.ok.inj hrun
      obtain ⟨hstill', bs, hemit'⟩ := addBlocks_emits (z := z) (o := o) (host h) inum (host h).flags
        ((host h).len/UBIFS_BLOCK_SIZE+1) 0 0 s₁
      exact grows_still ((hemit.trans hemit').trans (addInodeWithData_emits o st inum [] _))
        ((hstill.trans hstill').trans (addNode_still _)) rfl
  | dir => cases hrun
  | lnk =>
    unfold Ubifs.addSymlinkInode at hrun
    dsimp only at hrun
    split at hrun
    · cases hrun
    · split at hrun
      · cases hrun
      next hlen =>
        obtain rfl := Except.ok.inj hrun
        apply hino
        rw [List.length_take] at hlen
        change (host h).target = _
        exact (List.take_of_length_le (by omega)).symm
  | blk =>
    obtain rfl := Except.ok.inj hrun
    exact hino rfl
  | chr =>
    obtain rfl := Except.ok.inj hrun
    exact hino rfl
  | fifo =>
    obtain rfl := Except.ok.inj hrun
    exact hino rfl
  | sock =>
    obtain rfl := Except.ok.inj hrun
    exact hino rfl

theorem countP_visit {L : List Multi} {v : Multi} (h : HostIno) :
    (L ++ [v]).countP (·.ino = h) = L.countP (·.ino = h)+if v.ino = h then 1 else 0 := by
  rw [List.countP_append, List.countP_singleton]
  simp only [decide_eq_true_eq]

theorem lastOf_visit {L : List Multi} {v : Multi} (h : HostIno) :
    lastOf (L ++ [v]) h = if v.ino = h then some v else lastOf L h := by
  rw [lastOf_append]
  unfold lastOf
  split
  next he => simp [he]
  next hne => simp [hne]

theorem lastOf_mem {L : List Multi} {v : Multi} {h : HostIno} (hv : lastOf L h = some v) :
    v ∈ L ∧ v.ino = h := by
  have hmem := List.mem_of_getLast? hv
  rw [List.mem_filter] at hmem
  exact ⟨hmem.1, of_decide_eq_true hmem.2⟩

theorem lastOf_none {L : List Multi} {h : HostIno} (hv : lastOf L h = none) :
    ∀ v ∈ L, v.ino ≠ h := by
  intro v hmem he
  have hnil := List.getLast?_eq_none_iff.mp hv
  have : v ∈ L.filter (·.ino = h) := List.mem_filter.mpr ⟨hmem, decide_eq_true he⟩
  rw [hnil] at this
  exact absurd this List.not_mem_nil

/-- The table after one more visit. -/
theorem Logged.visit {L : List Multi} {v : Multi} (hL : Logged L s) (new : InumMapping)
    (hnew : new.ino = v.ino)
    (htable : s'.hash_table = putMapping ⟨v.ino, v.inum,
      BitVec.ofNat 32 ((L ++ [v]).countP (·.ino = v.ino)), v.ino, v.st⟩ new s.hash_table)
    (hle : ∀ w ∈ L ++ [v], w.inum ≤ s'.highest_inum)
    (hsame : ∀ w ∈ L, w.ino = v.ino ↔ w.inum = v.inum) : Logged (L ++ [v]) s' := by
  refine ⟨?_, ?_, hle, ?_⟩
  · rw [htable]
    exact putMapping_nodup hL.nodup hnew
  · intro k e
    rw [htable, mem_putMapping hnew, hL.mem, lastOf_visit]
    dsimp only
    by_cases he : v.ino = e.ino
    · rw [if_pos he]
      constructor
      · rintro (⟨hk, rfl⟩ | ⟨⟨hk, -⟩, hne⟩)
        · exact ⟨hk.symm, v, rfl, rfl⟩
        · rw [← he] at hk
          exact absurd he.symm (hne hk.symm)
      · rintro ⟨hk, w, hw, heq⟩
        obtain rfl := Option.some.inj hw
        rw [← he] at hk
        refine .inl ⟨hk.symm, ?_⟩
        rw [heq, he]
    · rw [if_neg he, countP_visit e.ino, if_neg he, Nat.add_zero]
      constructor
      · rintro (⟨-, heq⟩ | ⟨hmem, -⟩)
        · rw [heq] at he
          exact absurd rfl he
        · exact hmem
      · exact fun hmem => .inr ⟨hmem, fun _ h => he h.symm⟩
  · intro a ha b hb
    rcases List.mem_append.mp ha with ha | ha
    · rcases List.mem_append.mp hb with hb | hb
      · exact hL.same a ha b hb
      · rw [List.mem_singleton.mp hb]
        exact hsame a ha
    · rw [List.mem_singleton.mp ha]
      rcases List.mem_append.mp hb with hb | hb
      · rw [eq_comm, hsame b hb, eq_comm]
      · rw [List.mem_singleton.mp hb]
        exact iff_of_true rfl rfl

theorem Logged.lookup_some {L : List Multi} {h : HostIno} {w : Multi} (hL : Logged L s)
    (hw : lastOf L h = some w) (new : InumMapping) : lookupInumMapping h new s.hash_table =
      (⟨h, w.inum, BitVec.ofNat 32 (L.countP (·.ino = h)), h, w.st⟩, s.hash_table) := by
  have hmem := (hL.mem (h.ino%HASH_TABLE_SIZE)
    ⟨h, w.inum, BitVec.ofNat 32 (L.countP (·.ino = h)), h, w.st⟩).mpr ⟨rfl, w, hw, rfl⟩
  exact @lookupInumMapping_some _ _ ⟨h, w.inum, BitVec.ofNat 32 (L.countP (·.ino = h)), h, w.st⟩
    hL.nodup hmem

theorem Logged.lookup_none {L : List Multi} {h : HostIno} (hL : Logged L s)
    (hw : lastOf L h = none) (new : InumMapping) : (lookupInumMapping h new s.hash_table).1 = new := by
  have hno : ∀ e ∈ s.hash_table (h.ino%HASH_TABLE_SIZE), e.ino ≠ h := by
    rintro e he rfl
    obtain ⟨-, v, hv, -⟩ := (hL.mem _ e).mp he
    rw [hw] at hv
    cases hv
  rw [lookupInumMapping_none hno]

/-- The visit of a file with several links, as `add_non_dir` keeps it. -/
def visited (h : HostIno) (st : Stat) (s : Mkfs) : ℕ × Mkfs :=
  let r := lookupInumMapping h ⟨h, 0, 0#32, h, st⟩ s.hash_table
  if r.1.use_nlink = 0#32 then
    (s.highest_inum+1, { s with
      highest_inum := s.highest_inum+1
      hash_table := storeMapping { r.1 with use_inum := s.highest_inum+1, use_nlink := 1#32
                                            path_name := h, st := st } r.2 })
  else (r.1.use_inum, { s with
    hash_table := storeMapping { r.1 with use_nlink := r.1.use_nlink+1#32, st := st } r.2 })

theorem visited_nodes (h : HostIno) (st : Stat) (s : Mkfs) : (visited h st s).2.nodes = s.nodes := by
  unfold visited
  dsimp only
  split <;> rfl

theorem Logged.visited {L : List Multi} (hL : Logged L s) (h : HostIno) (st : Stat)
    (hc : L.countP (·.ino = h)+1 < 2^32) :
    Logged (L ++ [⟨h, (visited h st s).1, st⟩]) (visited h st s).2 ∧
    Numbered L s.highest_inum (visited h st s).2.highest_inum [⟨h, (visited h st s).1, st⟩] [] := by
  cases hw : lastOf L h with
  | none =>
    have hlook := hL.lookup_none hw ⟨h, 0, 0#32, h, st⟩
    have hno := lastOf_none hw
    have hcount : L.countP (·.ino = h) = 0 := by
      apply List.countP_eq_zero.mpr
      intro v hv
      simpa using hno v hv
    have hv : UbifsTable.visited h st s = (s.highest_inum+1, { s with
        highest_inum := s.highest_inum+1
        hash_table := putMapping ⟨h, s.highest_inum+1, 1#32, h, st⟩ ⟨h, 0, 0#32, h, st⟩
          s.hash_table }) := by
      unfold UbifsTable.visited
      dsimp only
      rw [hlook, if_pos rfl]
      rfl
    rw [hv]
    constructor
    · apply hL.visit ⟨h, 0, 0#32, h, st⟩ rfl
      · rw [countP_visit, if_pos rfl, hcount]
      · intro w hw
        rcases List.mem_append.mp hw with hw | hw
        · exact le_trans (hL.le w hw) (Nat.le_succ _)
        · rw [List.mem_singleton.mp hw]
      · intro w hw
        refine iff_of_false (hno w hw) ?_
        have := hL.le w hw
        dsimp only
        omega
    · refine ⟨Nat.le_succ _, fun _ h => absurd h List.not_mem_nil, List.nodup_nil, ?_⟩
      intro v hv
      rw [List.mem_singleton.mp hv]
      exact ⟨List.not_mem_nil, .inl ⟨Nat.lt_succ_self _, le_refl _⟩⟩
  | some w =>
    obtain ⟨hmem, hino⟩ := lastOf_mem hw
    have hlook := hL.lookup_some hw ⟨h, 0, 0#32, h, st⟩
    have hpos : 0 < L.countP (·.ino = h) :=
      List.countP_pos_iff.mpr ⟨w, hmem, decide_eq_true hino⟩
    have hne : BitVec.ofNat 32 (L.countP (·.ino = h)) ≠ 0#32 := by
      intro hz
      have := congrArg BitVec.toNat hz
      rw [BitVec.toNat_ofNat, Nat.mod_eq_of_lt (by omega)] at this
      change L.countP _ = 0 at this
      omega
    have hv : UbifsTable.visited h st s = (w.inum, { s with
        hash_table := putMapping ⟨h, w.inum, BitVec.ofNat 32 (L.countP (·.ino = h)+1), h, st⟩
          ⟨h, 0, 0#32, h, st⟩ s.hash_table }) := by
      unfold UbifsTable.visited putMapping
      dsimp only
      rw [hlook]
      dsimp only
      rw [if_neg hne, BitVec.ofNat_add]
    rw [hv]
    constructor
    · apply hL.visit ⟨h, 0, 0#32, h, st⟩ rfl
      · rw [countP_visit, if_pos rfl]
      · intro x hx
        rcases List.mem_append.mp hx with hx | hx
        · exact hL.le x hx
        · rw [List.mem_singleton.mp hx]
          exact hL.le w hmem
      · intro x hx
        dsimp only
        rw [← hino]
        exact hL.same x hx w hmem
    · refine ⟨le_refl _, fun _ h => absurd h List.not_mem_nil, List.nodup_nil, ?_⟩
      intro v hv
      rw [List.mem_singleton.mp hv]
      exact ⟨List.not_mem_nil, .inr ⟨w, hmem, rfl⟩⟩

/-- A file of a directory: it is written with a number of its own, or its visit is kept. -/
theorem addNonDir_grows {h : HostIno} {st : Stat} {inum : ℕ} {type : IType}
    (hrun : Ubifs.addNonDir z o host h st (s.highest_inum+1) 0#32
      { s with highest_inum := s.highest_inum+1 } = .ok (inum, type, s')) :
    itype st.st_mode = some type ∧ Grows s s' []
      (if (multi? inum (some h) st).isSome then [] else [fileFace host inum type (some h) st])
      (multi? inum (some h) st).toList (if (multi? inum (some h) st).isSome then [] else [inum]) := by
  unfold Ubifs.addNonDir at hrun
  cases ht : itype st.st_mode with
  | none =>
    rw [ht] at hrun
    cases hrun
  | some t =>
    rw [ht] at hrun
    dsimp only at hrun
    rw [if_neg (not_not.mpr rfl)] at hrun
    by_cases hm : 1 < st.st_nlink
    · rw [if_pos hm] at hrun
      have hmulti (i : ℕ) : multi? i (some h) st = some ⟨h, i, st⟩ := if_pos hm
      have hok : Except.ok ((UbifsTable.visited h st s).1, t, (UbifsTable.visited h st s).2) =
          (Except.ok (inum, type, s') : Except TreeErr _) := by
        rw [← hrun]
        unfold UbifsTable.visited
        dsimp only
        split
        · rfl
        · rw [Nat.add_sub_cancel]
      obtain ⟨rfl, rfl, rfl⟩ := Except.ok.inj hok
      refine ⟨rfl, ?_⟩
      rw [hmulti]
      refine ⟨⟨[], [], emits_nodes (visited_nodes h st s), rfl⟩, ?_⟩
      intro L hL hc
      have := hc h
      rw [Option.toList_some, countP_visit, if_pos rfl] at this
      exact hL.visited h st this
    · rw [if_neg hm] at hrun
      have hmulti (i : ℕ) : multi? i (some h) st = none := if_neg hm
      obtain ⟨s₁, hwrite, hret⟩ := Loop.bind_eq_ok hrun
      obtain ⟨rfl, rfl, rfl⟩ := Except.ok.inj hret
      refine ⟨rfl, ?_⟩
      rw [hmulti]
      have hgrow := (grows_inum s).trans (writeNonDir_grows hwrite)
      exact hgrow

end Steps


section Merge

variable (o : TreeOptions) (host : HostIno → HostInode) (root_st : Stat)
variable (order : HashOrder) (tbl : List NameElt)

/-- The entries that the elements of a name table make. -/
inductive FromTable : List Byte → List NameElt → Made → Prop
  | nil {path : List Byte} : FromTable path [] .nil
  | file {path : List Byte} {e : NameElt} {rest : List NameElt} {inum : ℕ} {type : IType} {M : Made}
      (hreg : type ≠ .reg) (htype : itype e.elt.mode = some type) (hrest : FromTable path rest M) :
      FromTable path (e :: rest) (.file e.name inum type none (fakeSt root_st e.elt) M)
  | dir {path : List Byte} {e : NameElt} {rest : List NameElt} {inum : ℕ} {sub M : Made}
      (hdir : S_ISDIR e.elt.mode)
      (hsub : FromTable (makePath path e.name) (order.order (namesAt tbl (makePath path e.name))) sub)
      (hrest : FromTable path rest M) :
      FromTable path (e :: rest) (.dir e.name inum (fakeSt root_st e.elt) sub M)

/-- The entries of the host with what the name table sets of them, and what it has left then. The
elements that are left in a directory below make its further entries. -/
inductive FromHost : List Byte → Entries → List NameElt → Made → List NameElt → Prop
  | nil {path : List Byte} {t : List NameElt} : FromHost path .nil t .nil t
  | file {path name : List Byte} {h : HostIno} {rest : Entries} {t t₁ t' : List NameElt} {st : Stat}
      {inum : ℕ} {type : IType} {M : Made}
      (hover : overrideAttributes (squash o (host h).st) name t = .ok (st, t₁))
      (htype : itype st.st_mode = some type) (hrest : FromHost path rest t₁ M t') :
      FromHost path (.file name h rest) t (.file name inum type (some h) st M) t'
  | dir {path name : List Byte} {h : HostIno} {sub rest : Entries} {t t₁ t₂ t' : List NameElt}
      {st : Stat} {inum : ℕ} {M N R : Made}
      (hover : overrideAttributes (squash o (host h).st) name t = .ok (st, t₁))
      (hsub : FromHost (makePath path name) sub (namesAt tbl (makePath path name)) M t₂)
      (hleft : FromTable root_st order tbl (makePath path name) (order.order t₂) N)
      (hrest : FromHost path rest t₁ R t') :
      FromHost path (.dir name h sub rest) t (.dir name inum st (M.append N) R) t'

variable {o host root_st order tbl}

namespace Made

theorem dents_append (M N : Made) (i : ℕ) : (M.append N).dents o i = M.dents o i ++ N.dents o i := by
  induction M with
  | nil => rfl
  | file name inum type src st rest ih => exact congrArg (_ :: ·) ih
  | dir name inum st sub rest _ ih =>
    rw [append, dents, ih, dents, List.append_assoc, List.cons_append]

theorem faces_append (M N : Made) : (M.append N).faces host = M.faces host ++ N.faces host := by
  induction M with
  | nil => rfl
  | file name inum type src st rest ih => rw [append, faces, ih, faces, List.append_assoc]
  | dir name inum st sub rest _ ih =>
    rw [append, faces, ih, faces, List.append_assoc, List.cons_append]

theorem multis_append (M N : Made) : (M.append N).multis = M.multis ++ N.multis := by
  induction M with
  | nil => rfl
  | file name inum type src st rest ih => rw [append, multis, ih, multis, List.append_assoc]
  | dir name inum st sub rest _ ih => rw [append, multis, ih, multis, List.append_assoc]

theorem own_append (M N : Made) : (M.append N).own = M.own ++ N.own := by
  induction M with
  | nil => rfl
  | file name inum type src st rest ih => rw [append, own, ih, own, List.append_assoc]
  | dir name inum st sub rest _ ih =>
    rw [append, own, ih, own, List.cons_append, List.append_assoc]

end Made

/-- All that the walk adds for the entries `M` of the directory `i`. -/
def Adds (o : TreeOptions) (host : HostIno → HostInode) (i : ℕ) (s s' : Mkfs) (M : Made) : Prop :=
  Grows s s' (M.dents o i) (M.faces host) M.multis M.own

/-- And for a directory with these entries. -/
def AddsDir (o : TreeOptions) (host : HostIno → HostInode) (inum : ℕ) (st : Stat) (s s' : Mkfs)
    (M : Made) : Prop :=
  Grows s s' (M.dents o inum) (M.faces host ++ [dirFace inum st]) M.multis M.own

section Rules

variable {z : Codec} {i : ℕ} {s s₁ s₂ s' : Mkfs}

theorem adds_nil (s : Mkfs) : Adds o host i s s .nil := grows_still (emits_nodes rfl) ⟨rfl, rfl⟩ rfl

theorem Adds.append {M N : Made} (h : Adds o host i s s₁ M) (h' : Adds o host i s₁ s' N) :
    Adds o host i s s' (M.append N) := by
  unfold Adds
  rw [Made.dents_append, Made.faces_append, Made.multis_append, Made.own_append]
  exact h.trans h'

theorem addDentNode_grows (s : Mkfs) (i : ℕ) (name : List Byte) (inum : ℕ) (type : IType) :
    Grows s (Ubifs.addDentNode o i name inum type s) [dentNode o i name inum type] [] [] [] :=
  grows_still (addNode_dent _) (addNode_still _) rfl

/-- A file in front of the other entries. -/
theorem adds_file {name : List Byte} {inum : ℕ} {type : IType} {src : Option HostIno} {st : Stat}
    {rest : Made}
    (h : Grows s s₁ []
      (if (multi? inum src st).isSome then [] else [fileFace host inum type src st])
      (multi? inum src st).toList (if (multi? inum src st).isSome then [] else [inum]))
    (hrest : Adds o host i (Ubifs.addDentNode o i name inum type s₁) s' rest) :
    Adds o host i s s' (.file name inum type src st rest) := by
  have hall := (h.trans (addDentNode_grows s₁ i name inum type)).trans hrest
  simp only [List.nil_append, List.append_nil] at hall
  exact hall

/-- A directory in front of them. -/
theorem adds_dir {name : List Byte} {st : Stat} {sub rest : Made}
    (h : AddsDir o host (s.highest_inum+1) st { s with highest_inum := s.highest_inum+1 } s₁ sub)
    (hrest : Adds o host i (Ubifs.addDentNode o i name (s.highest_inum+1) .dir s₁) s' rest) :
    Adds o host i s s' (.dir name (s.highest_inum+1) st sub rest) := by
  have hall := (((grows_inum s).trans h).trans
    (addDentNode_grows s₁ i name (s.highest_inum+1) .dir)).trans hrest
  simp only [List.nil_append, List.append_nil, List.append_assoc, List.singleton_append] at hall
  exact hall

/-- What `make` has to do. -/
def Makes (o : TreeOptions) (host : HostIno → HostInode) (root_st : Stat) (order : HashOrder)
    (tbl : List NameElt) (make : List Byte → ℕ → Stat → Mkfs → Except Err Mkfs) : Prop :=
  ∀ path inum st s s', make path inum st s = .ok s' →
    ∃ M, FromTable root_st order tbl path (order.order (namesAt tbl path)) M ∧
      AddsDir o host inum st s s' M

variable {make : List Byte → ℕ → Stat → Mkfs → Except Err Mkfs}

theorem addNames_adds (hmake : Makes o host root_st order tbl make) {path : List Byte}
    {elts : List NameElt} {size nlink : ℕ} {r : ℕ × ℕ × Mkfs}
    (hrun : addNames z o root_st make path i elts size nlink s = .ok r) :
    ∃ M, FromTable root_st order tbl path elts M ∧ Adds o host i s r.2.2 M := by
  induction elts generalizing size nlink s with
  | nil =>
    obtain rfl := Except.ok.inj hrun
    exact ⟨.nil, .nil, adds_nil s⟩
  | cons e rest ih =>
    rw [addNames] at hrun
    split at hrun
    · cases hrun
    next hreg =>
      dsimp only at hrun
      split at hrun
      next hdir =>
        obtain ⟨s₁, hnew, hrun⟩ := Loop.bind_eq_ok hrun
        obtain ⟨sub, hsub, hadd⟩ := hmake _ _ _ _ _ hnew
        obtain ⟨M, hM, hrest⟩ := ih hrun
        exact ⟨_, .dir hdir hsub hM, adds_dir hadd hrest⟩
      next hdir =>
        obtain ⟨⟨inum, type, s₁⟩, hadd, hrun⟩ := Loop.bind_eq_ok hrun
        obtain ⟨htype, hgrow⟩ := addNonDir_grows (mapError_eq_ok hadd)
        obtain ⟨M, hM, hrest⟩ := ih hrun
        have hne : type ≠ .reg := by
          rintro rfl
          exact hreg htype
        refine ⟨_, .file hne htype hM, adds_file ?_ hrest⟩
        -- nothing of the host is behind the node
        have hface : fileFace (fun _ => absent) inum type (some ⟨0, 0⟩) (fakeSt root_st e.elt) =
            fileFace host inum type none (fakeSt root_st e.elt) := by
          cases type <;> rfl
        rw [hface] at hgrow
        exact hgrow

theorem addDirectory_adds (hmake : Makes o host root_st order tbl make)
    {P : List NameElt → Made → Prop} {dir : HostInode} {path : List Byte} {inum : ℕ} {st : Stat}
    {loop : Mkfs → Except Err (List NameElt × ℕ × ℕ × Mkfs)}
    (hloop : ∀ s₁ r, loop s₁ = .ok r → ∃ M, P r.1 M ∧ Adds o host inum s₁ r.2.2.2 M)
    (hrun : addDirectory z o root_st order make dir loop path inum st s = .ok s') :
    ∃ t M N, P t M ∧ FromTable root_st order tbl path (order.order t) N ∧
      AddsDir o host inum st s s' (M.append N) := by
  obtain ⟨⟨t, size, nlink, s₁⟩, hfirst, hrun⟩ := Loop.bind_eq_ok hrun
  obtain ⟨⟨size', nlink', s₂⟩, hsecond, hret⟩ := Loop.bind_eq_ok hrun
  obtain ⟨M, hP, hM⟩ := hloop _ _ hfirst
  obtain ⟨N, hN, hadd⟩ := addNames_adds hmake hsecond
  obtain rfl := Except.ok.inj hret
  refine ⟨t, M, N, hP, hN, ?_⟩
  have hstart : Grows s { s with max_sqnum := s.max_sqnum+1 } [] [] [] [] :=
    grows_still (emits_nodes rfl) ⟨rfl, rfl⟩ rfl
  have hino : Grows s₂ (Ubifs.addDirInode o dir inum size' nlink' st
      { s₂ with creat_sqnum := s.max_sqnum+1 }) [] [dirFace inum st] [] [] :=
    grows_still ((emits_nodes rfl : Emits s₂ { s₂ with creat_sqnum := s.max_sqnum+1 } [] [] []).trans
      (addInodeWithData_emits o _ _ _ _)) ⟨rfl, rfl⟩ rfl
  have hall := (hstart.trans (hM.append hadd)).trans hino
  simp only [List.nil_append, List.append_nil] at hall
  exact hall

theorem addNewDirectory_makes (fuel : ℕ) :
    Makes o host root_st order tbl (addNewDirectory z o root_st order tbl fuel) := by
  induction fuel with
  | zero => exact fun _ _ _ _ _ hrun => by cases hrun
  | succ fuel ih =>
    intro path inum st s s' hrun
    obtain ⟨t, M, N, ⟨ht, hM⟩, hN, hadd⟩ := addDirectory_adds ih
      (P := fun t M => t = namesAt tbl path ∧ M = .nil) (by
        intro s₁ r hr
        obtain rfl := Except.ok.inj hr
        exact ⟨.nil, ⟨rfl, rfl⟩, adds_nil s₁⟩) hrun
    rw [ht] at hN
    rw [hM] at hadd
    exact ⟨N, hN, hadd⟩

theorem addEntries_adds {es : Entries} {path : List Byte} {t : List NameElt} {size nlink : ℕ}
    {r : List NameElt × ℕ × ℕ × Mkfs}
    (hrun : addEntries z o host root_st order tbl es path t i size nlink s = .ok r) :
    ∃ M, FromHost o host root_st order tbl path es t M r.1 ∧ Adds o host i s r.2.2.2 M := by
  induction es generalizing path t i size nlink s r with
  | nil =>
    obtain rfl := Except.ok.inj hrun
    exact ⟨.nil, .nil, adds_nil s⟩
  | file name h rest ih =>
    obtain ⟨⟨st, t₁⟩, hover, hrun⟩ := Loop.bind_eq_ok hrun
    obtain ⟨⟨inum, type, s₁⟩, hadd, hrun⟩ := Loop.bind_eq_ok hrun
    obtain ⟨htype, hgrow⟩ := addNonDir_grows (mapError_eq_ok hadd)
    obtain ⟨M, hM, hrest⟩ := ih hrun
    exact ⟨_, .file hover htype hM, adds_file hgrow hrest⟩
  | dir name h sub rest ihsub ihrest =>
    obtain ⟨⟨st, t₁⟩, hover, hrun⟩ := Loop.bind_eq_ok hrun
    obtain ⟨s₁, hnew, hrun⟩ := Loop.bind_eq_ok hrun
    obtain ⟨t₂, M, N, hM, hN, hadd⟩ := addDirectory_adds (addNewDirectory_makes _)
      (P := fun t' M => FromHost o host root_st order tbl (makePath path name) sub
        (namesAt tbl (makePath path name)) M t') (fun _ _ hr => ihsub hr) hnew
    obtain ⟨R, hR, hrest⟩ := ihrest hrun
    exact ⟨_, .dir hover hM hN hR, adds_dir hadd hrest⟩

end Rules

end Merge

end ChipTools.UbifsTable
