import ChipTools.Calls
import ChipTools.UbifsLpt
import ChipTools.UbifsTree

/-! `mkfs()` of `mkfs.ubifs` with the calls that it makes to read the source files and to write the
LEBs, each of which can fail. An error is what the functions return: not zero. -/
namespace ChipTools.UbifsMkfs
open Bytes Ubifs Calls

section State

/-- The functions that write LEBs. -/
inductive Writer
  | data
  | gc
  | idxNode
  | index
  | lpt
  | super
  | master
  | log
  | orphan
deriving DecidableEq, Repr

/-- The calls. A path stands as the inode that it leads to; the nodes of the device table have
none. A LEB is written by up to three system calls. -/
inductive Call
  | stat (h : HostIno)
  | opendir (h : HostIno)
  | dirfd (h : HostIno)
  | readdir (h : HostIno)
  | closedir (h : HostIno)
  | lstat (h : HostIno)
  | open (h : HostIno)
  | read (h : HostIno)
  | close (h : HostIno)
  | readlink (h : Option HostIno)
  | leb (w : Writer) (lnum : ℕ)
deriving DecidableEq, Repr

/-- How a function ends that does not succeed: with an error, or not at all. -/
inductive Stop
  | err (code : ℤ) (h : code ≠ 0)
  | hang

/-- `err_msg` and `sys_err_msg`. -/
def errMsg : Stop := .err (-1) (by decide)

/-- The file system under construction. -/
structure State where
  head : Head
  highest_inum : ℕ
  creat_sqnum : ℕ
  hash_table : ℕ → List InumMapping
  idx_list : List IdxEntry
  old_idx_sz : ℕ
  zroot : Place
  zroot_len : ℕ
  ihead : Place
  gc_lnum : ℕ
  empty_lebs : ℕ

abbrev Run (α : Type) : Type := Prog Call State Stop α

def modifyHead (f : Head → Head) : Run Unit := modify fun s => { s with head := f s.head }

def checked (k : Call) : Run Unit := call k errMsg

end State

section Nodes

def UBIFS_INO_NODE : Byte := 0#8
def UBIFS_DATA_NODE : Byte := 1#8
def UBIFS_DENT_NODE : Byte := 2#8
def UBIFS_SB_NODE : Byte := 6#8
def UBIFS_MST_NODE : Byte := 7#8
def UBIFS_CS_NODE : Byte := 10#8

def zeros (n : ℕ) : List Byte := List.replicate n 0#8

/-- `key_write`. -/
def keyWrite (k : Key) : List Byte := le 4 k.u32_0.toNat ++ le 4 k.u32_1.toNat ++ zeros 8

def comprType : Compr → ℕ
  | .none => 0
  | .lzo => 1
  | .zlib => 2

def itypeVal : IType → Byte
  | .reg => 0#8
  | .dir => 1#8
  | .lnk => 2#8
  | .blk => 3#8
  | .chr => 4#8
  | .fifo => 5#8
  | .sock => 6#8

/-- The bytes of a node after its common header. -/
def inoBody (n : InoNode) : List Byte :=
  keyWrite n.key ++ le 8 n.creat_sqnum ++ le 8 n.size ++ le 8 n.atime_sec.toNat ++
    le 8 n.ctime_sec.toNat ++ le 8 n.mtime_sec.toNat ++ zeros 12 ++ le 4 n.nlink.toNat ++
    le 4 n.uid.toNat ++ le 4 n.gid.toNat ++ le 4 n.mode.toNat ++ le 4 n.flags.toNat ++
    le 4 n.data.length ++ zeros 16 ++ le 2 (comprType n.compr_type) ++ zeros 26 ++ n.data

def dentBody (n : DentNode) : List Byte :=
  keyWrite n.key ++ le 8 n.inum ++ [0#8, itypeVal n.type] ++ le 2 n.nlen.toNat ++ zeros 4 ++
    n.name ++ [0#8]

def dataBody (n : DataNode) : List Byte :=
  keyWrite n.key ++ le 4 n.size ++ le 2 (comprType n.compr_type) ++ zeros 2 ++ n.data

end Nodes

section Head

variable (c : UbifsInfo)

/-- `write_leb` with `leb_buf`: the rest of the buffer is set before the LEB is written. -/
def writeLeb (w : Writer) (lnum len : ℕ) : Run Unit := do
  modifyHead fun h => { h with leb_buf := setTo h.leb_buf len (c.leb_size-len) 0xff#8 }
  checked (.leb w lnum)
  modifyHead fun h => { h with image := fun l => if l = lnum then h.leb_buf else h.image l }

def writeEmptyLeb (w : Writer) (lnum : ℕ) : Run Unit := writeLeb c w lnum 0

/-- `write_node`. -/
def writeNode (w : Writer) (node_type : Byte) (body : List Byte) (lnum : ℕ) : Run Unit := do
  let s ← get
  let node := preparedNode (s.head.max_sqnum+1) node_type body
  let padded := doPad c (copyTo s.head.leb_buf 0 node) node.length
  modifyHead fun h => { h with max_sqnum := h.max_sqnum+1, leb_buf := padded.1 }
  writeLeb c w lnum padded.2

def flushNodes (w : Writer) : Run Unit := do
  let s ← get
  if s.head.head_offs = 0 then pure ()
  else do
    let padded := doPad c s.head.leb_buf s.head.head_offs
    modifyHead fun h => { h with leb_buf := padded.1 }
    writeLeb c w s.head.head_lnum padded.2
    modifyHead fun h =>
      { setLprops c h.head_lnum h.head_offs h.head_flags h with
        head_lnum := h.head_lnum+1, head_offs := 0 }

def reserveSpace (w : Writer) (len : ℕ) : Run Place := do
  let s ← get
  if (c.leb_size : ℤ)-s.head.head_offs < len then flushNodes c w
  let s ← get
  modifyHead fun h => { h with head_offs := h.head_offs+align len 8 }
  pure ⟨s.head.head_lnum, s.head.head_offs⟩

/-- What `add_node` and `add_idx_node` have in common: where the node was put, and its length. -/
def putNode (w : Writer) (node_type : Byte) (body : List Byte) : Run (Place × ℕ) := do
  let s ← get
  let node := preparedNode (s.head.max_sqnum+1) node_type body
  modifyHead fun h => { h with max_sqnum := h.max_sqnum+1 }
  let p ← reserveSpace c w node.length
  modifyHead fun h =>
    { h with leb_buf := setTo (copyTo h.leb_buf p.offs node) (p.offs+node.length)
                          (align node.length 8-node.length) 0xff#8 }
  pure (p, node.length)

def addToIndex (key : Key) (name : List Byte) (p : Place) (len : ℕ) : Run Unit :=
  modify fun s =>
    { s with idx_list := s.idx_list ++
        [⟨key, name, BitVec.ofNat 32 p.lnum, BitVec.ofNat 32 p.offs, BitVec.ofNat 32 len⟩] }

def addNode (key : Key) (name : List Byte) (node_type : Byte) (body : List Byte) : Run Unit := do
  let (p, len) ← putNode c .data node_type body
  addToIndex key name p len

end Head

section Tree

variable (c : UbifsInfo) (z : Codec) (o : TreeOptions) (host : HostIno → HostInode)

def addInodeWithData (st : Stat) (inum : ℕ) (data : List Byte) (flags : BitVec 32) : Run Unit := do
  let s ← get
  let n := inoNode o st inum data flags s.creat_sqnum
  addNode c n.key [] UBIFS_INO_NODE (inoBody n)

def addInode (st : Stat) (inum : ℕ) (flags : BitVec 32) : Run Unit :=
  addInodeWithData c o st inum [] flags

/-- A directory of the device table only is not one of the host. -/
def addDirInode (dir : Option HostIno) (inum size nlink : ℕ) (st : Stat) : Run Unit :=
  match dir with
  | some h => do
    checked (.dirfd h)
    addInode c o (st.asDir size nlink) inum (host h).flags
  | none => addInode c o (st.asDir size nlink) inum 0#32

def addDevInode (st : Stat) (inum : ℕ) (flags : BitVec 32) : Run Unit :=
  addInodeWithData c o st inum (le 8 st.st_rdev) flags

/-- There is no link for a node of the device table. -/
def addSymlinkInode (src : Option HostIno) (st : Stat) (inum : ℕ) (flags : BitVec 32) :
    Run Unit := do
  checked (.readlink src)
  let buf := match src with
    | some h => (host h).target.take (UBIFS_MAX_INO_DATA+1)
    | none => []
  if buf.length = 0 then stop errMsg
  else if UBIFS_MAX_INO_DATA < buf.length then stop errMsg
  else addInodeWithData c o st inum buf flags

def addDentNode (dir_inum : ℕ) (name : List Byte) (inum : ℕ) (type : IType) : Run Unit :=
  let n := dentNode o dir_inum name inum type
  addNode c n.key name UBIFS_DENT_NODE (dentBody n)

/-- The inner loop of `add_file`. A read gives at most what it was asked for. -/
def readBlock (h : HostIno) (off : ℕ) : ℕ → ℕ → Run (ℕ × ℕ)
  | 0, bytes_read => pure (0, bytes_read)
  | k+1, bytes_read => do
    checked (.read h)
    let ret := min ((host h).read (off+bytes_read) (UBIFS_BLOCK_SIZE-bytes_read))
      (UBIFS_BLOCK_SIZE-bytes_read)
    let bytes_read := bytes_read+ret
    if ret ≠ 0 ∧ bytes_read ≠ UBIFS_BLOCK_SIZE then readBlock h off k bytes_read
    else pure (ret, bytes_read)

/-- The blocks of a file from `file_size` on, of which at most `k` are read: more than that make
the file larger than it was, whatever follows. -/
def addBlocks (h : HostIno) (inum : ℕ) (flags : BitVec 32) : ℕ → ℕ → ℕ → Run ℕ
  | 0, file_size, _ => pure file_size
  | k+1, file_size, block_no => do
    let (ret, bytes_read) ← readBlock host h file_size (UBIFS_BLOCK_SIZE+1) 0
    if bytes_read = 0 then pure file_size
    else do
      let buf := readBytes (host h).byte file_size bytes_read
      if !allZero buf then
        let n := dataNode z o inum block_no flags buf
        addNode c n.key [] UBIFS_DATA_NODE (dataBody n)
      if ret ≠ 0 then addBlocks h inum flags k (file_size+bytes_read) (block_no+1)
      else pure (file_size+bytes_read)

def addFile (h : HostIno) (st : Stat) (inum : ℕ) (flags : BitVec 32) : Run Unit := do
  checked (.open h)
  let file_size ←
    cleanup (addBlocks c z o host h inum flags (st.st_size/UBIFS_BLOCK_SIZE+1) 0 0)
      (checked (.close h)) id
  checked (.close h)
  if file_size ≠ st.st_size then stop errMsg
  else addInode c o st inum flags

/-- `creat_sqnum = ++c->max_sqnum`, and a sequence number that is kept for later. -/
def nextSqnum : Run ℕ := do
  modifyHead fun h => { h with max_sqnum := h.max_sqnum+1 }
  let s ← get
  pure s.head.max_sqnum

def setCreatSqnum (creat_sqnum : ℕ) : Run Unit :=
  modify fun s => { s with creat_sqnum := creat_sqnum }

/-- The second part of `add_non_dir`. -/
def writeNonDir (src : Option HostIno) (flags : BitVec 32) (type : IType) (st : Stat) (inum : ℕ) :
    Run Unit := do
  let sqnum ← nextSqnum
  setCreatSqnum sqnum
  match type, src with
  | .reg, some h => addFile c z o host h st inum flags
  | .chr, _ => addDevInode c o st inum flags
  | .blk, _ => addDevInode c o st inum flags
  | .lnk, src => addSymlinkInode c o host src st inum flags
  | .sock, _ => addInode c o st inum flags
  | .fifo, _ => addInode c o st inum flags
  | _, _ => stop errMsg

/-- The first part of `add_non_dir`: the flags of a regular file are asked for. -/
def openFlags (src : Option HostIno) (type : IType) : Run (BitVec 32) :=
  match type, src with
  | .reg, some h => do
    checked (.open h)
    checked (.close h)
    pure (host h).flags
  | _, _ => pure 0#32

/-- `add_non_dir`, for a file of the host or a node of the device table. -/
def addNonDir (src : Option HostIno) (st : Stat) (inum : ℕ) (nlink : BitVec 32) :
    Run (ℕ × IType) :=
  match itype st.st_mode with
  | none => stop errMsg
  | some type => do
    let flags ← openFlags host src type
    match src with
    | some h =>
      if nlink ≠ 0#32 then do
        writeNonDir c z o host src flags type (st.withNlink nlink.toNat) inum
        pure (inum, type)
      else if 1 < st.st_nlink then do
        let s ← get
        let (im, t) := lookupInumMapping h ⟨h, 0, 0#32, h, st⟩ s.hash_table
        if im.use_nlink = 0#32 then do
          let im := { im with use_inum := inum, use_nlink := 1#32, path_name := h, st := st }
          modify fun s => { s with hash_table := storeMapping im t }
          pure (inum, type)
        else do
          let im := { im with use_nlink := im.use_nlink+1#32, st := st }
          -- the number is given back
          modify fun s =>
            { s with hash_table := storeMapping im t, highest_inum := s.highest_inum-1 }
          pure (im.use_inum, type)
      else do
        writeNonDir c z o host src flags type (st.withNlink 1) inum
        pure (inum, type)
    | none => do
      -- the one link of such a node
      writeNonDir c z o host none flags type (st.withNlink 1) inum
      pure (inum, type)

def nextInum : Run ℕ := do
  modify fun s => { s with highest_inum := s.highest_inum+1 }
  let s ← get
  pure s.highest_inum

/-- A `struct name_htbl_element`. -/
structure NhElt where
  mode : BitVec 32
  uid : BitVec 32
  gid : BitVec 32
  dev : ℕ

/-- What the device table has for a directory: the names, with what it has for them as
directories. A name need not be an element itself. -/
inductive Table
  | nil
  | entry (name : List Byte) (elt : Option NhElt) (sub rest : Table)

/-- `devtbl_find_name`. -/
def Table.find (key : List Byte) : Table → Option NhElt
  | .nil => none
  | .entry name elt _ rest => if name = key then elt else rest.find key

def Table.sub (key : List Byte) : Table → Table
  | .nil => .nil
  | .entry name _ sub rest => if name = key then sub else rest.sub key

def Table.remove (key : List Byte) : Table → Table
  | .nil => .nil
  | .entry name elt sub rest =>
    if name = key then .entry name none sub rest else .entry name elt sub (rest.remove key)

/-- `override_attributes`, where the table has the file. -/
def overrideAttributes (st : Stat) (name : List Byte) (t : Table) : Run (Stat × Table) :=
  match t.find name with
  | none => pure (st, t)
  | some e =>
    if itype st.st_mode = some .chr ∨ itype st.st_mode = some .blk ∨
        itype st.st_mode = some .fifo then stop errMsg
    else if st.st_mode &&& S_IFMT ≠ e.mode &&& S_IFMT then stop errMsg
    else pure ({ st with st_uid := e.uid, st_gid := e.gid, st_mode := e.mode }, t.remove name)

variable (root_st : Stat)

/-- `fake_st`. The group is that of the root. -/
def fakeSt (e : NhElt) : Stat :=
  { root_st with st_uid := e.uid, st_mode := e.mode, st_rdev := e.dev, st_nlink := 1 }

/-- The second loop of `add_directory`: the elements that the table has left. A directory among
them is made with what the table has for it. -/
def addTable : Table → ℕ → ℕ → ℕ → Run (ℕ × ℕ)
  | .nil, _, size, nlink => pure (size, nlink)
  | .entry _ none _ rest, dir_inum, size, nlink => addTable rest dir_inum size nlink
  | .entry name (some e) sub rest, dir_inum, size, nlink =>
    if itype e.mode = some .reg then stop errMsg
    else do
      let inum ← nextInum
      if S_ISDIR e.mode then do
        let dir_creat_sqnum ← nextSqnum
        let (dir_size, dir_nlink) ← addTable sub inum UBIFS_INO_NODE_SZ 2
        setCreatSqnum dir_creat_sqnum
        addDirInode c o host none inum dir_size dir_nlink (fakeSt root_st e)
        addDentNode c o dir_inum name inum .dir
        addTable rest dir_inum (size+dentSize name) (nlink+1)
      else do
        let (inum, type) ← addNonDir c z o host none (fakeSt root_st e) inum 0#32
        addDentNode c o dir_inum name inum type
        addTable rest dir_inum (size+dentSize name) nlink

/-- `add_directory` for a directory of the host, with its first loop, which gives what is left of
the table, the size and the number of links. -/
def addDirectory (dir : HostIno) (loop : Run (Table × ℕ × ℕ)) (dir_inum : ℕ) (st : Stat) :
    Run Unit := do
  let dir_creat_sqnum ← nextSqnum
  checked (.opendir dir)
  cleanup (do
      let (t, size, nlink) ← loop
      let (size, nlink) ← addTable c z o host root_st t dir_inum size nlink
      setCreatSqnum dir_creat_sqnum
      addDirInode c o host (some dir) dir_inum size nlink st)
    (checked (.closedir dir)) fun _ => errMsg
  checked (.closedir dir)

/-- The first loop of `add_directory`. It ends after the last entry, and when `readdir` fails: then
`err` is set, but the next assignment comes before it is looked at. -/
def addEntries : Entries → HostIno → Table → ℕ → ℕ → ℕ → Run (Table × ℕ × ℕ)
  | .nil, dir, t, _, size, nlink => do
    let _ ← attempt (checked (.readdir dir))
    pure (t, size, nlink)
  | .file name h rest, dir, t, dir_inum, size, nlink => do
    match ← attempt (checked (.readdir dir)) with
    | .error _ => pure (t, size, nlink)
    | .ok () => do
      checked (.lstat h)
      let (st, t) ← overrideAttributes (squash o (host h).st) name t
      let inum ← nextInum
      let (inum, type) ← addNonDir c z o host (some h) st inum 0#32
      addDentNode c o dir_inum name inum type
      addEntries rest dir t dir_inum (size+dentSize name) nlink
  | .dir name h sub rest, dir, t, dir_inum, size, nlink => do
    match ← attempt (checked (.readdir dir)) with
    | .error _ => pure (t, size, nlink)
    | .ok () => do
      checked (.lstat h)
      let (st, t') ← overrideAttributes (squash o (host h).st) name t
      let inum ← nextInum
      addDirectory c z o host root_st h (addEntries sub h (t.sub name) inum UBIFS_INO_NODE_SZ 2)
        inum st
      addDentNode c o dir_inum name inum .dir
      addEntries rest dir t' dir_inum (size+dentSize name) (nlink+1)

def addMultiLinkedFiles : Run Unit := do
  let s ← get
  (mappings s.hash_table).foldlM (fun _ im => do
    let _ ← addNonDir c z o host (some im.path_name) im.st im.use_inum im.use_nlink
    pure ()) ()

end Tree

section Index

variable (c : UbifsInfo)

def addIdxNode (node : IdxNode) : Run Unit := do
  let (p, len) ← putNode c .idxNode Ubifs.UBIFS_IDX_NODE node.body
  modify fun s => { s with old_idx_sz := s.old_idx_sz+align len 8, zroot := p, zroot_len := len }

/-- The loops of `write_index` do not look at what `add_idx_node` returns. -/
def writeLevel0 (idx_cnt cnt : ℕ) : ℕ → List IdxEntry → Run Unit
  | 0, _ => pure ()
  | n+1, p => do
    let child_cnt := childCnt c idx_cnt cnt (cnt-(n+1))
    let _ ← attempt (addIdxNode c ⟨0, (p.take child_cnt).map IdxEntry.branch⟩)
    writeLevel0 idx_cnt cnt n (p.drop child_cnt)

def writeLevel (idx : List IdxEntry) (r : RowBelow) (level cnt : ℕ) : ℕ → Cursor → Run Cursor
  | 0, k => pure k
  | n+1, k => do
    let i := cnt-(n+1)
    let (brs, k) := branchesTo c idx r (childCnt c r.bcnt cnt i) (i*c.fanout) k
    let _ ← attempt (addIdxNode c ⟨level, brs⟩)
    writeLevel idx r level cnt n k

def writeLevels (idx : List IdxEntry) : ℕ → (cnt level pstep child_cnt : ℕ) → Cursor → Run Unit
  | 0, _, _, _, _, _ => pure ()
  | fuel+1, cnt, level, pstep, child_cnt, k =>
    if 1 < cnt then do
      let blast_len := ubifsIdxNodeSz child_cnt
      let bcnt := cnt
      let cnt := (cnt+c.fanout-1)/c.fanout
      let cnt := if cnt = 0 then 1 else cnt
      let level := level+1
      let pstep := pstep*c.fanout
      let k ← writeLevel c idx ⟨bcnt, blast_len, pstep⟩ level cnt cnt { k with p := 0 }
      writeLevels idx fuel cnt level pstep (childCnt c bcnt cnt (cnt-1)) k
    else pure ()

def writeIndex : Run Unit := do
  modifyHead fun h => { h with head_flags := LPROPS_INDEX }
  let s ← get
  let idx_cnt := s.idx_list.length
  let sz := idx_cnt*8%2^64
  if sz/8 ≠ idx_cnt then stop errMsg
  else do
    let idx := sortIdx s.idx_list
    let cnt := idx_cnt/c.fanout
    let cnt := if idx_cnt%c.fanout ≠ 0 then cnt+1 else cnt
    writeLevel0 c idx_cnt cnt cnt idx
    writeLevels c idx cnt cnt 0 1 (childCnt c idx_cnt cnt (cnt-1))
      ⟨s.head.head_lnum, s.head.head_offs, 0⟩
    modify fun s => { s with ihead := ⟨s.head.head_lnum, align s.head.head_offs c.min_io_size⟩ }
    flushNodes c .index

def setGcLnum : Run Unit := do
  let s ← get
  let gc_lnum := s.head.head_lnum
  modifyHead fun h => { h with head_lnum := h.head_lnum+1 }
  writeEmptyLeb c .gc gc_lnum
  modifyHead (setLprops c gc_lnum 0 0)
  modify fun s => { s with gc_lnum := gc_lnum, empty_lebs := s.empty_lebs+1 }

end Index

section Lpt

variable (c : UbifsInfo) (g : LptGeom) (lpt_first : ℕ)

/-- `write_leb` with the buffer of `create_lpt`. -/
def writeLptLeb (s : LptWriter) : Run LptWriter := do
  checked (.leb .lpt s.lnum)
  pure (s.writeLeb c)

def makeRoom (sz : ℕ) (s : LptWriter) : Run LptWriter :=
  if c.leb_size < s.len+sz then do
    let s ← writeLptLeb c (s.setLtab c)
    pure { s with lnum := s.lnum+1, len := 0 }
  else pure s

def addPnodes (main_lebs : ℕ) (lpt : ℕ → Lprops) : ℕ → ℕ → LptWriter → Run LptWriter
  | 0, _, s => pure s
  | n+1, i, s => do
    let s ← makeRoom c g.pnode_sz s
    let lprops := (List.range UBIFS_LPT_FANOUT).map fun j =>
      lpropsAt c main_lebs lpt (i*UBIFS_LPT_FANOUT+j)
    addPnodes main_lebs lpt n (i+1) (s.putNode g.pnode_sz (packPnode g i lprops))

def addNnodes (row : ℕ) : ℕ → ℕ → LptWriter → Below → Run (LptWriter × Below)
  | 0, _, s, b => pure (s, b)
  | n+1, i, s, b => do
    let s ← makeRoom c g.nnode_sz s
    let s := if row = 0 then { s with root := ⟨s.lnum, s.len⟩ } else s
    let (nbranch, b) := nextBranches c UBIFS_LPT_FANOUT b
    addNnodes row n (i+1)
      (s.putNode g.nnode_sz (packNnode g lpt_first (calcNnodeNum row i) nbranch)) b

def addRows : ℕ → ℕ → LptWriter → Below → Run LptWriter
  | 0, cnt, s, b => do
    let (s, _) ← addNnodes c g lpt_first 0 (levelCnt cnt) 0 s b
    pure s
  | row+1, cnt, s, b => do
    let (s, b) ← addNnodes c g lpt_first (row+1) (levelCnt cnt) 0 s b
    addRows row (levelCnt cnt) s { b with cnt := levelCnt cnt, sz := g.nnode_sz }

def addLsave (main_first : ℕ) (s : LptWriter) : Run LptWriter :=
  if g.big_lpt then do
    let s ← makeRoom c g.lsave_sz s
    let s := { s with lsave_at := ⟨s.lnum, s.len⟩ }
    pure (s.putNode g.lsave_sz (packLsave g ((List.range LSAVE_CNT).map (main_first+·))))
  else pure s

def addLtab (s : LptWriter) : Run LptWriter := do
  let s ← makeRoom c g.ltab_sz s
  let s := { s with ltab_at := ⟨s.lnum, s.len⟩, len := s.len+g.ltab_sz }
  let s := s.setLtab c
  let ltab := (List.range g.lpt_lebs).map fun i => s.ltab (lpt_first+i)
  writeLptLeb c { s with buf := packLtab g ltab s.buf s.ltab_at.offs }

def createLpt (main_first main_lebs : ℕ) (lpt : ℕ → Lprops) (s : LptWriter) : Run LptWriter := do
  let cnt := (main_lebs+UBIFS_LPT_FANOUT-1)/UBIFS_LPT_FANOUT
  let s ← addPnodes c g main_lebs lpt cnt 0 { s with lnum := lpt_first, len := 0 }
  let s ← addRows c g lpt_first (g.lpt_hght-1) cnt s ⟨lpt_first, 0, cnt, g.pnode_sz⟩
  let s ← addLsave c g main_first s
  addLtab c g lpt_first s

end Lpt

section Make

def UBIFS_MAX_NODE_SZ : ℕ := UBIFS_INO_NODE_SZ+UBIFS_MAX_INO_DATA
def UBIFS_SB_LNUM : ℕ := 0
def UBIFS_MST_LNUM : ℕ := 1
def UBIFS_LOG_LNUM : ℕ := 3
def UBIFS_FORMAT_VERSION : ℕ := 4
def DEFAULT_TIME_GRAN : ℕ := 1000000000

/-- What the command line gives, and the UUID. -/
structure Options where
  min_io_size : ℕ
  leb_size : ℕ
  max_leb_cnt : ℕ
  fanout : ℕ
  log_lebs : ℕ
  orph_lebs : ℕ
  max_bud_bytes : ℕ
  rp_size : ℕ
  key_hash_type : Byte
  space_fixup : Bool
  uuid : List Byte
  tree : TreeOptions

/-- The source directory, with the device table for it. -/
structure Source where
  tree : HostTree
  table : Table

variable (z : Codec) (o : Options)

/-- What `init` computes. -/
def initInfo : Except Stop (UbifsInfo × LptGeom) :=
  let c : UbifsInfo :=
    { min_io_size := o.min_io_size, leb_size := o.leb_size, max_leb_cnt := o.max_leb_cnt
      fanout := o.fanout, main_first := 0, main_lebs := 0
      dead_wm := align MIN_WRITE_SZ o.min_io_size
      dark_wm := align UBIFS_MAX_NODE_SZ o.min_io_size }
  match calcDfltLptGeom c (o.max_leb_cnt-3-(o.log_lebs+o.orph_lebs)) with
  | .error .einval => .error (.err (-22) (by decide))
  | .error .hang => .error .hang
  | .ok g =>
    .ok ({ c with main_first := UBIFS_LOG_LNUM+o.log_lebs+g.lpt_lebs+o.orph_lebs
                  main_lebs := g.main_lebs }, g)

/-- `init`, for the lists and the head. -/
def initState (main_first : ℕ) : Run Unit := modify fun s =>
  { s with
    head := { s.head with head_lnum := main_first, head_offs := 0, head_flags := 0, max_sqnum := 0
                          lst := ⟨0, 0, 0, 0, 0, 0⟩ }
    highest_inum := UBIFS_FIRST_INO, hash_table := fun _ => [], idx_list := []
    old_idx_sz := 0, empty_lebs := 0 }

/-- The attributes of the root when no directory is given. -/
def noRootStat (now : BitVec 64) : Stat :=
  ⟨0o040755#32, 0, 0#32, 0#32, 0, 0, now, now, now⟩

def writeData (c : UbifsInfo) (now : BitVec 64) (root : Option Source) : Run Unit := do
  match root with
  | some src => do
    let host := src.tree.host
    let st := (host src.tree.root).st
    checked (.stat src.tree.root)
    addDirectory c z o.tree host st src.tree.root
      (addEntries c z o.tree host st src.tree.entries src.tree.root src.table UBIFS_ROOT_INO
        UBIFS_INO_NODE_SZ 2) UBIFS_ROOT_INO st
    addMultiLinkedFiles c z o.tree host
  | none => do
    let dir_creat_sqnum ← nextSqnum
    setCreatSqnum dir_creat_sqnum
    addInode c o.tree ((noRootStat now).asDir UBIFS_INO_NODE_SZ 2) UBIFS_ROOT_INO 0#32
  flushNodes c .data

/-- `finalize_leb_cnt`. -/
def finalizeLebCnt (c : UbifsInfo) : Run UbifsInfo := do
  let s ← get
  match Ubifs.finalizeLebCnt c s.head with
  | .ok c => pure c
  | .error _ => stop errMsg

/-- `n` empty LEBs from `lnum` on. -/
def writeEmptyLebs (c : UbifsInfo) (w : Writer) : ℕ → ℕ → Run Unit
  | 0, _ => pure ()
  | n+1, lnum => do
    writeEmptyLeb c w lnum
    writeEmptyLebs c w n (lnum+1)

def writeLpt (c : UbifsInfo) (g : LptGeom) (buf : ℕ → Byte) : Run LptWriter := do
  let s ← get
  let lpt_first := UBIFS_LOG_LNUM+o.log_lebs
  let lpt_last := lpt_first+g.lpt_lebs-1
  let lw ← createLpt c g lpt_first c.main_first c.main_lebs s.head.lpt
    ⟨lpt_first, 0, buf, s.head.image, [], fun _ => (c.leb_size, 0), ⟨0, 0⟩, ⟨0, 0⟩, ⟨0, 0⟩⟩
  modifyHead fun h => { h with image := lw.image }
  writeEmptyLebs c .lpt (lpt_last-lw.lnum) (lw.lnum+1)
  pure lw

/-- The super block after its header. -/
def sbBody (g : LptGeom) (leb_cnt : ℕ) : List Byte :=
  zeros 2 ++ [o.key_hash_type, 0#8] ++
    le 4 ((if g.big_lpt then 2 else 0)+(if o.space_fixup then 4 else 0)) ++
    le 4 o.min_io_size ++ le 4 o.leb_size ++ le 4 leb_cnt ++ le 4 o.max_leb_cnt ++
    le 8 o.max_bud_bytes ++ le 4 o.log_lebs ++ le 4 g.lpt_lebs ++ le 4 o.orph_lebs ++ le 4 1 ++
    le 4 o.fanout ++ le 4 LSAVE_CNT ++ le 4 UBIFS_FORMAT_VERSION ++
    le 2 (comprType o.tree.default_compr) ++ zeros 10 ++ le 8 o.rp_size ++
    le 4 DEFAULT_TIME_GRAN ++ o.uuid.take 16 ++ zeros 3972

def writeSuper (c : UbifsInfo) (g : LptGeom) : Run Unit := do
  let s ← get
  writeNode c .super UBIFS_SB_NODE (sbBody o g s.head.head_lnum) UBIFS_SB_LNUM

/-- The master node after its header. -/
def mstBody (c : UbifsInfo) (lw : LptWriter) (s : State) : List Byte :=
  let nhead_offs := align lw.len c.min_io_size
  le 8 s.highest_inum ++ le 8 0 ++ le 4 2 ++ le 4 UBIFS_LOG_LNUM ++ le 4 s.zroot.lnum ++
    le 4 s.zroot.offs ++ le 4 s.zroot_len ++ le 4 s.gc_lnum ++ le 4 s.ihead.lnum ++
    le 4 s.ihead.offs ++ le 8 s.old_idx_sz ++ le 8 (BitVec.ofInt 64 s.head.lst.total_free).toNat ++
    le 8 (BitVec.ofInt 64 s.head.lst.total_dirty).toNat ++
    le 8 (BitVec.ofInt 64 s.head.lst.total_used).toNat ++
    le 8 (BitVec.ofInt 64 s.head.lst.total_dead).toNat ++
    le 8 (BitVec.ofInt 64 s.head.lst.total_dark).toNat ++ le 4 lw.root.lnum ++ le 4 lw.root.offs ++
    le 4 lw.lnum ++ le 4 nhead_offs ++ le 4 lw.ltab_at.lnum ++ le 4 lw.ltab_at.offs ++
    le 4 lw.lsave_at.lnum ++ le 4 lw.lsave_at.offs ++ le 4 c.main_first ++ le 4 s.empty_lebs ++
    le 4 s.head.lst.idx_lebs ++ le 4 s.head.head_lnum ++ zeros 344

def writeMaster (c : UbifsInfo) (lw : LptWriter) : Run Unit := do
  let s ← get
  writeNode c .master UBIFS_MST_NODE (mstBody c lw s) UBIFS_MST_LNUM
  writeNode c .master UBIFS_MST_NODE (mstBody c lw s) (UBIFS_MST_LNUM+1)

def writeLog (c : UbifsInfo) : Run Unit := do
  writeNode c .log UBIFS_CS_NODE (le 8 0) UBIFS_LOG_LNUM
  writeEmptyLebs c .log (o.log_lebs-1) (UBIFS_LOG_LNUM+1)

def writeOrphanArea (c : UbifsInfo) (g : LptGeom) : Run Unit :=
  writeEmptyLebs c .orphan o.orph_lebs (UBIFS_LOG_LNUM+o.log_lebs+g.lpt_lebs)

/-- `mkfs`. `now` is the time, and `buf` what the buffer of `create_lpt` holds. -/
def mkfs (now : BitVec 64) (buf : ℕ → Byte) (root : Option Source) : Run Unit := do
  let (c, g) ← liftExcept (initInfo o)
  initState c.main_first
  writeData z o c now root
  setGcLnum c
  writeIndex c
  let c ← finalizeLebCnt c
  let lw ← writeLpt o c g buf
  writeSuper o c g
  writeMaster c lw
  writeLog o c
  writeOrphanArea o c g

/-- The value that a function returns, if it does. -/
def returned : Except Stop Unit → Option ℤ
  | .ok () => some 0
  | .error (.err code _) => some code
  | .error .hang => none

end Make

section Errors

/-- The calls whose failures are not looked at: `readdir`, and those of `add_idx_node`. -/
def Call.Unnoticed : Call → Prop
  | .readdir _ => True
  | .leb .idxNode _ => True
  | _ => False

section Parts

variable {c : UbifsInfo} {w : Writer} {Q : ∀ α : Type, Run α → Prop}

theorem writeLeb_closed (hQ : Closed Q) (hleb : ∀ lnum, Q Unit (checked (.leb w lnum)))
    (lnum len : ℕ) : Q Unit (writeLeb c w lnum len) :=
  hQ.bind (hQ.modify _) fun _ => hQ.bind (hleb lnum) fun _ => hQ.modify _

theorem flushNodes_closed (hQ : Closed Q) (hleb : ∀ lnum, Q Unit (checked (.leb w lnum))) :
    Q Unit (flushNodes c w) := by
  refine hQ.bind hQ.get fun s => ?_
  split
  · exact hQ.pure ()
  · exact hQ.bind (hQ.modify _) fun _ => hQ.bind (writeLeb_closed hQ hleb _ _) fun _ => hQ.modify _

theorem reserveSpace_closed (hQ : Closed Q) (hleb : ∀ lnum, Q Unit (checked (.leb w lnum)))
    (len : ℕ) : Q Place (reserveSpace c w len) := by
  refine hQ.bind hQ.get fun s => ?_
  have hplace : Q Place (do
      let s ← get
      modifyHead fun h => { h with head_offs := h.head_offs+align len 8 }
      pure ⟨s.head.head_lnum, s.head.head_offs⟩) :=
    hQ.bind hQ.get fun _ => hQ.bind (hQ.modify _) fun _ => hQ.pure _
  dsimp only
  split
  · exact hQ.bind (flushNodes_closed hQ hleb) fun _ => hplace
  · exact hplace

theorem putNode_closed (hQ : Closed Q) (hleb : ∀ lnum, Q Unit (checked (.leb w lnum)))
    (node_type : Byte) (body : List Byte) : Q (Place × ℕ) (putNode c w node_type body) :=
  hQ.bind hQ.get fun _ => hQ.bind (hQ.modify _) fun _ =>
    hQ.bind (reserveSpace_closed hQ hleb _) fun _ => hQ.bind (hQ.modify _) fun _ => hQ.pure _

end Parts

/-- No failure but one of those stays without consequence. -/
abbrev Sound {α : Type} (p : Run α) : Prop := Notices Call.Unnoticed p

theorem sound_closed : Closed fun (α : Type) (p : Run α) => Sound p := notices_closed _

theorem sound_checked (k : Call) : Sound (checked k) := notices_call k _

theorem sound_modifyHead (f : Head → Head) : Sound (modifyHead f) := notices_modify _

section Tree

variable (c : UbifsInfo) (z : Codec) (o : TreeOptions) (host : HostIno → HostInode)

theorem writeLeb_sound (w : Writer) (lnum len : ℕ) : Sound (writeLeb c w lnum len) :=
  writeLeb_closed sound_closed (fun _ => sound_checked _) lnum len

theorem flushNodes_sound (w : Writer) : Sound (flushNodes c w) :=
  flushNodes_closed sound_closed fun _ => sound_checked _

theorem writeNode_sound (w : Writer) (node_type : Byte) (body : List Byte) (lnum : ℕ) :
    Sound (writeNode c w node_type body lnum) :=
  notices_get.bind fun _ => (sound_modifyHead _).bind fun _ => writeLeb_sound c w _ _

theorem addNode_sound (key : Key) (name : List Byte) (node_type : Byte) (body : List Byte) :
    Sound (addNode c key name node_type body) :=
  (putNode_closed sound_closed (fun _ => sound_checked _) node_type body).bind fun _ =>
    notices_modify _

theorem addInodeWithData_sound (st : Stat) (inum : ℕ) (data : List Byte) (flags : BitVec 32) :
    Sound (addInodeWithData c o st inum data flags) :=
  notices_get.bind fun _ => addNode_sound c _ _ _ _

theorem addDirInode_sound (dir : Option HostIno) (inum size nlink : ℕ) (st : Stat) :
    Sound (addDirInode c o host dir inum size nlink st) := by
  cases dir with
  | none => exact addInodeWithData_sound c o _ _ _ _
  | some h => exact (sound_checked _).bind fun _ => addInodeWithData_sound c o _ _ _ _

theorem addSymlinkInode_sound (src : Option HostIno) (st : Stat) (inum : ℕ) (flags : BitVec 32) :
    Sound (addSymlinkInode c o host src st inum flags) := by
  have hwrite (buf : List Byte) : Sound (if buf.length = 0 then stop errMsg
      else if UBIFS_MAX_INO_DATA < buf.length then stop errMsg
      else addInodeWithData c o st inum buf flags) := by
    split
    · exact notices_stop _
    · split
      · exact notices_stop _
      · exact addInodeWithData_sound c o _ _ _ _
  exact (sound_checked _).bind fun _ => hwrite _

theorem readBlock_sound (h : HostIno) (off k bytes_read : ℕ) :
    Sound (readBlock host h off k bytes_read) := by
  induction k generalizing bytes_read with
  | zero => exact notices_pure _
  | succ k ih =>
    refine (sound_checked _).bind fun _ => ?_
    dsimp only
    split
    · exact ih _
    · exact notices_pure _

theorem addBlocks_sound (h : HostIno) (inum : ℕ) (flags : BitVec 32) (k file_size block_no : ℕ) :
    Sound (addBlocks c z o host h inum flags k file_size block_no) := by
  induction k generalizing file_size block_no with
  | zero => exact notices_pure _
  | succ k ih =>
    refine (readBlock_sound host h _ _ _).bind fun r => ?_
    dsimp only
    split
    · exact notices_pure _
    · have hrest : Sound (if r.1 ≠ 0 then
          addBlocks c z o host h inum flags k (file_size+r.2) (block_no+1)
          else pure (file_size+r.2)) := by
        split
        · exact ih _ _
        · exact notices_pure _
      split
      · exact (addNode_sound c _ _ _ _).bind fun _ => hrest
      · exact hrest

theorem addFile_sound (h : HostIno) (st : Stat) (inum : ℕ) (flags : BitVec 32) :
    Sound (addFile c z o host h st inum flags) := by
  refine (sound_checked _).bind fun _ => ?_
  refine ((addBlocks_sound c z o host h inum flags _ _ _).cleanup _ _).bind fun file_size => ?_
  refine (sound_checked _).bind fun _ => ?_
  split
  · exact notices_stop _
  · exact addInodeWithData_sound c o _ _ _ _

theorem nextSqnum_sound : Sound nextSqnum :=
  (sound_modifyHead _).bind fun _ => notices_get.bind fun _ => notices_pure _

theorem nextInum_sound : Sound nextInum :=
  (notices_modify _).bind fun _ => notices_get.bind fun _ => notices_pure _

theorem writeNonDir_sound (src : Option HostIno) (flags : BitVec 32) (type : IType) (st : Stat)
    (inum : ℕ) : Sound (writeNonDir c z o host src flags type st inum) := by
  refine nextSqnum_sound.bind fun _ => (notices_modify _).bind fun _ => ?_
  split
  · exact addFile_sound c z o host _ _ _ _
  · exact addInodeWithData_sound c o _ _ _ _
  · exact addInodeWithData_sound c o _ _ _ _
  · exact addSymlinkInode_sound c o host _ _ _ _
  · exact addInodeWithData_sound c o _ _ _ _
  · exact addInodeWithData_sound c o _ _ _ _
  · exact notices_stop _

theorem openFlags_sound (src : Option HostIno) (type : IType) :
    Sound (openFlags host src type) := by
  unfold openFlags
  split
  · exact (sound_checked _).bind fun _ => (sound_checked _).bind fun _ => notices_pure _
  · exact notices_pure _

theorem addNonDir_sound (src : Option HostIno) (st : Stat) (inum : ℕ) (nlink : BitVec 32) :
    Sound (addNonDir c z o host src st inum nlink) := by
  unfold addNonDir
  split
  · exact notices_stop _
  next type _ =>
    refine (openFlags_sound host src type).bind fun flags => ?_
    have hwrite (st : Stat) : Sound (do
        writeNonDir c z o host src flags type st inum
        pure (inum, type)) :=
      (writeNonDir_sound c z o host _ _ _ _ _).bind fun _ => notices_pure _
    cases src with
    | none => exact hwrite _
    | some h =>
      dsimp only
      split
      · exact hwrite _
      · split
        · refine notices_get.bind fun s => ?_
          split
          · exact (notices_modify _).bind fun _ => notices_pure _
          · exact (notices_modify _).bind fun _ => notices_pure _
        · exact hwrite _

theorem overrideAttributes_sound (st : Stat) (name : List Byte) (t : Table) :
    Sound (overrideAttributes st name t) := by
  unfold overrideAttributes
  split
  · exact notices_pure _
  · split
    · exact notices_stop _
    · split
      · exact notices_stop _
      · exact notices_pure _

variable (root_st : Stat)

theorem addTable_sound (t : Table) (dir_inum size nlink : ℕ) :
    Sound (addTable c z o host root_st t dir_inum size nlink) := by
  induction t generalizing dir_inum size nlink with
  | nil => exact notices_pure _
  | entry name elt sub rest ihsub ihrest =>
    cases elt with
    | none => exact ihrest _ _ _
    | some e =>
      unfold addTable
      split
      · exact notices_stop _
      · refine nextInum_sound.bind fun inum => ?_
        split
        · refine nextSqnum_sound.bind fun _ => (ihsub _ _ _).bind fun _ => ?_
          refine (notices_modify _).bind fun _ => (addDirInode_sound c o host _ _ _ _ _).bind ?_
          exact fun _ => (addNode_sound c _ _ _ _).bind fun _ => ihrest _ _ _
        · refine (addNonDir_sound c z o host _ _ _ _).bind fun _ => ?_
          exact (addNode_sound c _ _ _ _).bind fun _ => ihrest _ _ _

theorem addDirectory_sound (dir : HostIno) {loop : Run (Table × ℕ × ℕ)} (hloop : Sound loop)
    (dir_inum : ℕ) (st : Stat) :
    Sound (addDirectory c z o host root_st dir loop dir_inum st) := by
  refine nextSqnum_sound.bind fun _ => (sound_checked _).bind fun _ => ?_
  refine Notices.bind (Notices.cleanup ?_ _ _) fun _ => sound_checked _
  refine hloop.bind fun _ => (addTable_sound c z o host root_st _ _ _ _).bind fun _ => ?_
  exact (notices_modify _).bind fun _ => addDirInode_sound c o host _ _ _ _ _

/-- The failure of `readdir` is of the kind that is lost. -/
theorem readdir_sound (dir : HostIno) : Sound (attempt (checked (.readdir dir))) :=
  (only_call trivial _).attempt.notices

theorem addEntries_sound (es : Entries) (dir : HostIno) (t : Table) (dir_inum size nlink : ℕ) :
    Sound (addEntries c z o host root_st es dir t dir_inum size nlink) := by
  induction es generalizing dir t dir_inum size nlink with
  | nil => exact (readdir_sound dir).bind fun _ => notices_pure _
  | file name h rest ih =>
    refine (readdir_sound dir).bind fun r => ?_
    cases r with
    | error e => exact notices_pure _
    | ok =>
      refine (sound_checked _).bind fun _ => (overrideAttributes_sound _ _ _).bind fun _ => ?_
      refine nextInum_sound.bind fun _ => (addNonDir_sound c z o host _ _ _ _).bind fun _ => ?_
      exact (addNode_sound c _ _ _ _).bind fun _ => ih _ _ _ _ _
  | dir name h sub rest ihsub ihrest =>
    refine (readdir_sound dir).bind fun r => ?_
    cases r with
    | error e => exact notices_pure _
    | ok =>
      refine (sound_checked _).bind fun _ => (overrideAttributes_sound _ _ _).bind fun _ => ?_
      refine nextInum_sound.bind fun _ => ?_
      refine (addDirectory_sound c z o host root_st _ (ihsub _ _ _ _ _) _ _).bind fun _ => ?_
      exact (addNode_sound c _ _ _ _).bind fun _ => ihrest _ _ _ _ _

theorem addMultiLinkedFiles_sound : Sound (addMultiLinkedFiles c z o host) :=
  notices_get.bind fun _ => notices_foldlM
    (fun _ _ => (addNonDir_sound c z o host _ _ _ _).bind fun _ => notices_pure _) _ _

end Tree

section Index

variable (c : UbifsInfo)

/-- A failure in `add_idx_node` is of the kind that is lost. -/
theorem addIdxNode_sound (node : IdxNode) : Sound (attempt (addIdxNode c node)) := by
  have honly : Only Call.Unnoticed (addIdxNode c node) :=
    (putNode_closed (only_closed _) (fun _ => only_call trivial _) _ _).bind fun _ =>
      only_modify _
  exact honly.attempt.notices

theorem writeLevel0_sound (idx_cnt cnt n : ℕ) (p : List IdxEntry) :
    Sound (writeLevel0 c idx_cnt cnt n p) := by
  induction n generalizing p with
  | zero => exact notices_pure _
  | succ n ih => exact (addIdxNode_sound c _).bind fun _ => ih _

theorem writeLevel_sound (idx : List IdxEntry) (r : RowBelow) (level cnt n : ℕ) (k : Cursor) :
    Sound (writeLevel c idx r level cnt n k) := by
  induction n generalizing k with
  | zero => exact notices_pure _
  | succ n ih => exact (addIdxNode_sound c _).bind fun _ => ih _

theorem writeLevels_sound (idx : List IdxEntry) (fuel cnt level pstep child_cnt : ℕ) (k : Cursor) :
    Sound (writeLevels c idx fuel cnt level pstep child_cnt k) := by
  induction fuel generalizing cnt level pstep child_cnt k with
  | zero => exact notices_pure _
  | succ fuel ih =>
    unfold writeLevels
    split
    · exact (writeLevel_sound c idx _ _ _ _ _).bind fun _ => ih _ _ _ _ _
    · exact notices_pure _

theorem writeIndex_sound : Sound (writeIndex c) := by
  refine (sound_modifyHead _).bind fun _ => notices_get.bind fun s => ?_
  dsimp only
  split
  · exact notices_stop _
  · refine (writeLevel0_sound c _ _ _ _).bind fun _ => (writeLevels_sound c _ _ _ _ _ _ _).bind ?_
    exact fun _ => (notices_modify _).bind fun _ => flushNodes_sound c _

theorem setGcLnum_sound : Sound (setGcLnum c) :=
  notices_get.bind fun _ => (sound_modifyHead _).bind fun _ => (writeLeb_sound c _ _ _).bind
    fun _ => (sound_modifyHead _).bind fun _ => notices_modify _

end Index

section Lpt

variable (c : UbifsInfo) (g : LptGeom) (lpt_first : ℕ)

theorem writeLptLeb_sound (s : LptWriter) : Sound (writeLptLeb c s) :=
  (sound_checked _).bind fun _ => notices_pure _

theorem makeRoom_sound (sz : ℕ) (s : LptWriter) : Sound (makeRoom c sz s) := by
  unfold makeRoom
  split
  · exact (writeLptLeb_sound c _).bind fun _ => notices_pure _
  · exact notices_pure _

theorem addPnodes_sound (main_lebs : ℕ) (lpt : ℕ → Lprops) (n i : ℕ) (s : LptWriter) :
    Sound (addPnodes c g main_lebs lpt n i s) := by
  induction n generalizing i s with
  | zero => exact notices_pure _
  | succ n ih => exact (makeRoom_sound c _ _).bind fun _ => ih _ _

theorem addNnodes_sound (row n i : ℕ) (s : LptWriter) (b : Below) :
    Sound (addNnodes c g lpt_first row n i s b) := by
  induction n generalizing i s b with
  | zero => exact notices_pure _
  | succ n ih => exact (makeRoom_sound c _ _).bind fun _ => ih _ _ _

theorem addRows_sound (row cnt : ℕ) (s : LptWriter) (b : Below) :
    Sound (addRows c g lpt_first row cnt s b) := by
  induction row generalizing cnt s b with
  | zero => exact (addNnodes_sound c g _ _ _ _ _ _).bind fun _ => notices_pure _
  | succ row ih => exact (addNnodes_sound c g _ _ _ _ _ _).bind fun _ => ih _ _ _

theorem addLsave_sound (main_first : ℕ) (s : LptWriter) : Sound (addLsave c g main_first s) := by
  unfold addLsave
  split
  · exact (makeRoom_sound c _ _).bind fun _ => notices_pure _
  · exact notices_pure _

theorem createLpt_sound (main_first main_lebs : ℕ) (lpt : ℕ → Lprops) (s : LptWriter) :
    Sound (createLpt c g lpt_first main_first main_lebs lpt s) :=
  (addPnodes_sound c g _ _ _ _ _).bind fun _ => (addRows_sound c g _ _ _ _ _).bind fun _ =>
    (addLsave_sound c g _ _).bind fun _ => (makeRoom_sound c _ _).bind fun _ =>
      writeLptLeb_sound c _

end Lpt

section Make

variable (z : Codec) (o : Options) (c : UbifsInfo) (g : LptGeom)

theorem writeData_sound (now : BitVec 64) (root : Option Source) :
    Sound (writeData z o c now root) := by
  unfold writeData
  cases root with
  | none =>
    refine nextSqnum_sound.bind fun _ => (notices_modify _).bind fun _ => ?_
    exact (addInodeWithData_sound c _ _ _ _ _).bind fun _ => flushNodes_sound c _
  | some src =>
    refine (sound_checked _).bind fun _ => ?_
    refine (addDirectory_sound c z _ _ _ _ (addEntries_sound c z _ _ _ _ _ _ _ _ _) _ _).bind ?_
    exact fun _ => (addMultiLinkedFiles_sound c z _ _).bind fun _ => flushNodes_sound c _

theorem finalizeLebCnt_sound : Sound (finalizeLebCnt c) := by
  refine notices_get.bind fun s => ?_
  split
  · exact notices_pure _
  · exact notices_stop _

theorem writeEmptyLebs_sound (w : Writer) (n lnum : ℕ) : Sound (writeEmptyLebs c w n lnum) := by
  induction n generalizing lnum with
  | zero => exact notices_pure _
  | succ n ih => exact (writeLeb_sound c _ _ _).bind fun _ => ih _

theorem writeLpt_sound (buf : ℕ → Byte) : Sound (writeLpt o c g buf) :=
  notices_get.bind fun _ => (createLpt_sound c g _ _ _ _ _).bind fun _ =>
    (sound_modifyHead _).bind fun _ => (writeEmptyLebs_sound c _ _ _).bind fun _ => notices_pure _

theorem writeMaster_sound (lw : LptWriter) : Sound (writeMaster c lw) :=
  notices_get.bind fun _ => (writeNode_sound c _ _ _ _).bind fun _ => writeNode_sound c _ _ _ _

theorem writeLog_sound : Sound (writeLog o c) :=
  (writeNode_sound c _ _ _ _).bind fun _ => writeEmptyLebs_sound c _ _ _

theorem mkfs_sound (now : BitVec 64) (buf : ℕ → Byte) (root : Option Source) :
    Sound (mkfs z o now buf root) := by
  refine (notices_liftExcept _).bind fun r => (notices_modify _).bind fun _ => ?_
  refine (writeData_sound z o _ _ _).bind fun _ => (setGcLnum_sound _).bind fun _ => ?_
  refine (writeIndex_sound _).bind fun _ => (finalizeLebCnt_sound _).bind fun c => ?_
  refine (writeLpt_sound o c _ _).bind fun lw => ?_
  refine (notices_get.bind fun _ => writeNode_sound c _ _ _ _).bind fun _ => ?_
  refine (writeMaster_sound c lw).bind fun _ => (writeLog_sound o c).bind fun _ => ?_
  exact writeEmptyLebs_sound c _ _ _

/-- An error is never zero. -/
theorem returned_zero {r : Except Stop Unit} (h : returned r = some 0) : r = .ok () := by
  rcases r with ⟨code, hcode⟩ | _
  · exact absurd (Option.some.inj h) hcode
  · cases h
  · rfl

/-- In a run of `mkfs` that returns zero, no call failed if and only if no `readdir` failed and none
of the calls of `add_idx_node`. -/
theorem mkfs_complete_iff (now : BitVec 64) (buf : ℕ → Byte) (root : Option Source)
    (fails : ℕ → Bool) (s : State)
    (hret : returned (mkfs z o now buf root fails ⟨s, []⟩).1 = some 0) :
    (∀ k ∈ (mkfs z o now buf root fails ⟨s, []⟩).2.calls, k.2 = false) ↔
      ∀ k ∈ (mkfs z o now buf root fails ⟨s, []⟩).2.calls, k.1.Unnoticed → k.2 = false := by
  rcases hrun : mkfs z o now buf root fails ⟨s, []⟩ with ⟨r, w⟩
  rw [hrun] at hret
  obtain rfl := returned_zero hret
  exact ⟨fun h k hk _ => h k hk, (mkfs_sound z o now buf root).none_failed hrun⟩

/-- A file system of twenty LEBs. -/
def smallOptions : Options where
  min_io_size := 512
  leb_size := 15872
  max_leb_cnt := 20
  fanout := 8
  log_lebs := 5
  orph_lebs := 1
  max_bud_bytes := 63488
  rp_size := 0
  key_hash_type := 0#8
  space_fixup := false
  uuid := []
  tree := plainOptions

def freshState : State where
  head := ⟨0, 0, 0, fun _ => 0#8, fun _ _ => 0#8, 0, fun _ => ⟨0, 0, 0⟩, ⟨0, 0, 0, 0, 0, 0⟩⟩
  highest_inum := 0
  creat_sqnum := 0
  hash_table := fun _ => []
  idx_list := []
  old_idx_sz := 0
  zroot := ⟨0, 0⟩
  zroot_len := 0
  ihead := ⟨0, 0⟩
  gc_lnum := 0
  empty_lebs := 0

def runOf (root : Option Source) (fails : ℕ → Bool) : Except Stop Unit × World Call State :=
  mkfs noCodec smallOptions 0#64 (fun _ => 0#8) root fails ⟨freshState, []⟩

/-- A run without failures. -/
theorem smallTree_complete : returned (runOf (some ⟨smallTree, .nil⟩) fun _ => false).1 = some 0 ∧
    ((∀ k ∈ (runOf (some ⟨smallTree, .nil⟩) fun _ => false).2.calls, k.2 = false) ↔
      ∀ k ∈ (runOf (some ⟨smallTree, .nil⟩) fun _ => false).2.calls,
        k.1.Unnoticed → k.2 = false) := by
  have hret : returned (runOf (some ⟨smallTree, .nil⟩) fun _ => false).1 = some 0 := by
    decide +kernel
  have hiff (root : Option Source) (fails : ℕ → Bool)
      (h : returned (runOf root fails).1 = some 0) :
      (∀ k ∈ (runOf root fails).2.calls, k.2 = false) ↔
        ∀ k ∈ (runOf root fails).2.calls, k.1.Unnoticed → k.2 = false := by
    unfold runOf at h ⊢
    exact mkfs_complete_iff noCodec smallOptions 0#64 (fun _ => 0#8) root fails freshState h
  exact ⟨hret, hiff _ _ hret⟩

/-- The third call is the first `readdir`: it fails, all entries of the root are left out, and zero
is returned. -/
theorem smallTree_incomplete : returned (runOf (some ⟨smallTree, .nil⟩) fun n => n = 2).1 = some 0 ∧
    (.readdir smallTree.root, true) ∈ (runOf (some ⟨smallTree, .nil⟩) fun n => n = 2).2.calls := by
  decide +kernel

end Make

end Errors

end ChipTools.UbifsMkfs
