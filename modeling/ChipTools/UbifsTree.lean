import ChipTools.UbifsIndex
import ChipTools.FirstSeen
import Mathlib.Data.List.Perm.Subperm

/-! The nodes that `mkfs.ubifs` makes of a directory tree of the host: inodes, directory entries
and the blocks of the files. Files with several links are put into a hash table with a count of
the links that are met, and are written after the whole tree. -/
namespace ChipTools.Ubifs
open Bytes FirstSeen

def UBIFS_ROOT_INO : ℕ := 1
def UBIFS_FIRST_INO : ℕ := 64
def UBIFS_BLOCK_SIZE : ℕ := 4096
def UBIFS_MAX_INO_DATA : ℕ := UBIFS_BLOCK_SIZE
def UBIFS_MIN_COMPR_LEN : ℕ := 128
def UBIFS_INO_NODE_SZ : ℕ := 160
def UBIFS_DENT_NODE_SZ : ℕ := 56
def UBIFS_S_KEY_BLOCK_BITS : ℕ := 29
def UBIFS_S_KEY_HASH_MASK : BitVec 32 := 0x1FFFFFFF#32
def UBIFS_INO_KEY : BitVec 32 := 0#32
def UBIFS_DATA_KEY : BitVec 32 := 1#32
def UBIFS_DENT_KEY : BitVec 32 := 2#32
def HASH_TABLE_SIZE : ℕ := 10099

section Keys

def keyMaskHash (hash : BitVec 32) : BitVec 32 :=
  let hash := hash &&& UBIFS_S_KEY_HASH_MASK
  if hash ≤ 2#32 then hash+3#32 else hash

/-- The characters are signed. -/
def keyR5Hash (name : List Byte) : BitVec 32 :=
  keyMaskHash (name.foldl (fun (a : BitVec 32) (ch : Byte) =>
    let str : BitVec 32 := ch.signExtend 32
    (a+str <<< 4+str.sshiftRight 4)*11#32) 0#32)

def keyTestHash (name : List Byte) : BitVec 32 :=
  keyMaskHash (BitVec.ofNat 32 (leVal (name.take 4)))

def inoKeyInit (inum : ℕ) : Key := ⟨BitVec.ofNat 32 inum, UBIFS_INO_KEY <<< UBIFS_S_KEY_BLOCK_BITS⟩

def dentKeyInit (key_hash : List Byte → BitVec 32) (inum : ℕ) (name : List Byte) : Key :=
  ⟨BitVec.ofNat 32 inum, key_hash name ||| (UBIFS_DENT_KEY <<< UBIFS_S_KEY_BLOCK_BITS)⟩

/-- The assertion that the block has 29 bits is compiled to nothing. -/
def dataKeyInit (inum : ℕ) (block : BitVec 32) : Key :=
  ⟨BitVec.ofNat 32 inum, block ||| (UBIFS_DATA_KEY <<< UBIFS_S_KEY_BLOCK_BITS)⟩

def Key.inum (k : Key) : ℕ := k.u32_0.toNat
def Key.type (k : Key) : ℕ := k.u32_1.toNat/2^UBIFS_S_KEY_BLOCK_BITS
def Key.block (k : Key) : ℕ := k.u32_1.toNat%2^UBIFS_S_KEY_BLOCK_BITS

end Keys

section Compression

/-- `enum compression_type`. -/
inductive Compr
  | none
  | lzo
  | zlib
deriving DecidableEq, Repr

/-- The compressors of the libraries, with what undoes them. `percent` is the comparison of the
two sizes with `favor_percent`, made with floating-point numbers. -/
structure Codec where
  lzo1x_999_compress : List Byte → Option (List Byte)
  deflate : List Byte → Option (List Byte)
  lzo1x_decompress : List Byte → Option (List Byte)
  inflate : List Byte → Option (List Byte)
  percent : ℕ → ℕ → Bool
  lzo_inv : ∀ x y, lzo1x_999_compress x = some y → lzo1x_decompress y = some x
  deflate_inv : ∀ x y, deflate x = some y → inflate y = some x

variable (z : Codec)

def favorLzoCompress (buf : List Byte) : Option (List Byte × Compr) :=
  match z.lzo1x_999_compress buf, z.deflate buf with
  | none, none => none
  | some lzo, some zlib =>
    if lzo.length ≤ zlib.length then some (lzo, .lzo)
    else if z.percent zlib.length lzo.length then some (lzo, .lzo)
    else some (zlib, .zlib)
  | none, some zlib => some (zlib, .zlib)
  | some lzo, none => some (lzo, .lzo)

/-- `compress_data`: the data as they are when they are short or do not get shorter. -/
def compressData (favor_lzo : Bool) (buf : List Byte) (type : Compr) : List Byte × Compr :=
  if buf.length < UBIFS_MIN_COMPR_LEN then (buf, .none)
  else
    let ret := if favor_lzo then favorLzoCompress z buf else
      match type with
      | .lzo => (z.lzo1x_999_compress buf).map fun out => (out, .lzo)
      | .zlib => (z.deflate buf).map fun out => (out, .zlib)
      | .none => none
    match ret with
    | none => (buf, .none)
    | some (out, type) => if buf.length ≤ out.length then (buf, .none) else (out, type)

/-- What a reader does with the data of a node. -/
def decompress (data : List Byte) : Compr → Option (List Byte)
  | .none => some data
  | .lzo => z.lzo1x_decompress data
  | .zlib => z.inflate data

theorem favorLzoCompress_inv {buf out : List Byte} {type : Compr}
    (h : favorLzoCompress z buf = some (out, type)) : decompress z out type = some buf := by
  unfold favorLzoCompress at h
  split at h
  · cases h
  next lzo zlib hl hz =>
    split at h
    · cases h
      exact z.lzo_inv _ _ hl
    · split at h
      · cases h
        exact z.lzo_inv _ _ hl
      · cases h
        exact z.deflate_inv _ _ hz
  next hz =>
    cases h
    exact z.deflate_inv _ _ hz
  next hl _ =>
    cases h
    exact z.lzo_inv _ _ hl

/-- Each node can be read back, whatever the compressor makes of the block. -/
theorem decompress_compressData (favor_lzo : Bool) (buf : List Byte) (type : Compr) :
    decompress z (compressData z favor_lzo buf type).1 (compressData z favor_lzo buf type).2 =
      some buf := by
  unfold compressData
  split
  · rfl
  · dsimp only
    split
    · rfl
    next out type' hret =>
      split
      · rfl
      · split at hret
        · exact favorLzoCompress_inv z hret
        · cases type with
          | none => cases hret
          | lzo =>
            obtain ⟨y, hy, hout⟩ := Option.map_eq_some_iff.mp hret
            cases hout
            exact z.lzo_inv _ _ hy
          | zlib =>
            obtain ⟨y, hy, hout⟩ := Option.map_eq_some_iff.mp hret
            cases hout
            exact z.deflate_inv _ _ hy

end Compression

section Nodes

/-- `UBIFS_ITYPE_*`. -/
inductive IType
  | reg
  | dir
  | lnk
  | blk
  | chr
  | fifo
  | sock
deriving DecidableEq, Repr

/-- An inode of the host, by its device and number. -/
structure HostIno where
  dev : ℕ
  ino : ℕ
deriving DecidableEq, Repr

/-- `struct stat`, without the device and number. -/
structure Stat where
  st_mode : BitVec 32
  st_nlink : ℕ
  st_uid : BitVec 32
  st_gid : BitVec 32
  st_rdev : ℕ
  st_size : ℕ
  st_atime : BitVec 64
  st_ctime : BitVec 64
  st_mtime : BitVec 64

def Stat.withNlink (st : Stat) (nlink : ℕ) : Stat := { st with st_nlink := nlink }

def Stat.asDir (st : Stat) (size nlink : ℕ) : Stat := { st with st_size := size, st_nlink := nlink }

/-- What the host tells of an inode. `read off n` is how many bytes a read of `n` bytes returns
at `off`, and may be less than what there is. `flags` are those of `FS_IOC_GETFLAGS`, or zero. -/
structure HostInode where
  st : Stat
  flags : BitVec 32
  len : ℕ
  byte : ℕ → Byte
  read : ℕ → ℕ → ℕ
  target : List Byte

/-- The entries of a directory in the order in which they are read. A directory stands with its
own entries. -/
inductive Entries
  | nil
  | file (name : List Byte) (h : HostIno) (rest : Entries)
  | dir (name : List Byte) (h : HostIno) (sub rest : Entries)

/-- A directory tree of the host. An inode tells the same at each of its names. -/
structure HostTree where
  host : HostIno → HostInode
  root : HostIno
  entries : Entries

def S_IFMT : BitVec 32 := 0o170000#32

/-- The type of an inode that is not a directory, by `S_ISREG` and its kin. -/
def itype (mode : BitVec 32) : Option IType :=
  if mode &&& S_IFMT = 0o100000#32 then some .reg
  else if mode &&& S_IFMT = 0o020000#32 then some .chr
  else if mode &&& S_IFMT = 0o060000#32 then some .blk
  else if mode &&& S_IFMT = 0o120000#32 then some .lnk
  else if mode &&& S_IFMT = 0o140000#32 then some .sock
  else if mode &&& S_IFMT = 0o010000#32 then some .fifo
  else none

def S_ISDIR (mode : BitVec 32) : Bool := mode &&& S_IFMT = 0o040000#32

/-- The length of the data is that of the list. -/
structure InoNode where
  key : Key
  creat_sqnum : ℕ
  size : ℕ
  nlink : BitVec 32
  atime_sec : BitVec 64
  ctime_sec : BitVec 64
  mtime_sec : BitVec 64
  uid : BitVec 32
  gid : BitVec 32
  mode : BitVec 32
  flags : BitVec 32
  compr_type : Compr
  data : List Byte
deriving DecidableEq, Repr

structure DentNode where
  key : Key
  inum : ℕ
  type : IType
  nlen : BitVec 16
  name : List Byte
deriving DecidableEq, Repr

structure DataNode where
  key : Key
  size : ℕ
  compr_type : Compr
  data : List Byte
deriving DecidableEq, Repr

inductive TreeNode
  | ino (n : InoNode)
  | dent (n : DentNode)
  | data (n : DataNode)
deriving DecidableEq, Repr

/-- `struct inum_mapping`. The path is kept as the inode that it leads to. -/
structure InumMapping where
  ino : HostIno
  use_inum : ℕ
  use_nlink : BitVec 32
  path_name : HostIno
  st : Stat

structure TreeOptions where
  default_compr : Compr
  favor_lzo : Bool
  squash_owner : Bool
  key_hash : List Byte → BitVec 32

/-- `nodes` are those that `add_node` was given, in their order. -/
structure Mkfs where
  highest_inum : ℕ
  max_sqnum : ℕ
  creat_sqnum : ℕ
  hash_table : ℕ → List InumMapping
  nodes : List TreeNode

inductive TreeErr
  | readlinkFailed
  | symlinkTooLong
  | sizeChanged
  | unknownType
deriving DecidableEq, Repr

end Nodes

section Writer

variable (z : Codec) (o : TreeOptions) (host : HostIno → HostInode)

def addNode (n : TreeNode) (s : Mkfs) : Mkfs :=
  { s with max_sqnum := s.max_sqnum+1, nodes := s.nodes ++ [n] }

def useFlags (flags mode : BitVec 32) : BitVec 32 :=
  (if o.default_compr ≠ .none then 1#32 else 0#32) |||
  (if flags &&& 0x4#32 ≠ 0#32 then 1#32 else 0#32) |||
  (if flags &&& 0x8#32 ≠ 0#32 then 2#32 else 0#32) |||
  (if flags &&& 0x10#32 ≠ 0#32 then 4#32 else 0#32) |||
  (if flags &&& 0x20#32 ≠ 0#32 then 8#32 else 0#32) |||
  (if flags &&& 0x10000#32 ≠ 0#32 ∧ S_ISDIR mode then 16#32 else 0#32)

/-- The node of `add_inode_with_data`. -/
def inoNode (st : Stat) (inum : ℕ) (data : List Byte) (flags : BitVec 32) (creat_sqnum : ℕ) :
    InoNode where
  key := inoKeyInit inum
  creat_sqnum := creat_sqnum
  size := st.st_size
  nlink := BitVec.ofNat 32 st.st_nlink
  atime_sec := st.st_atime
  ctime_sec := st.st_ctime
  mtime_sec := st.st_mtime
  uid := st.st_uid
  gid := st.st_gid
  mode := st.st_mode
  flags := useFlags o flags st.st_mode
  compr_type := o.default_compr
  data := data

def addInodeWithData (st : Stat) (inum : ℕ) (data : List Byte) (flags : BitVec 32) (s : Mkfs) :
    Mkfs :=
  addNode (.ino (inoNode o st inum data flags s.creat_sqnum)) s

def addInode (st : Stat) (inum : ℕ) (flags : BitVec 32) (s : Mkfs) : Mkfs :=
  addInodeWithData o st inum [] flags s

def addDirInode (dir : HostInode) (inum size nlink : ℕ) (st : Stat) (s : Mkfs) : Mkfs :=
  addInode o (st.asDir size nlink) inum dir.flags s

def addDevInode (st : Stat) (inum : ℕ) (flags : BitVec 32) (s : Mkfs) : Mkfs :=
  addInodeWithData o st inum (le 8 st.st_rdev) flags s

def addSymlinkInode (inode : HostInode) (st : Stat) (inum : ℕ) (flags : BitVec 32) (s : Mkfs) :
    Except TreeErr Mkfs :=
  let buf := inode.target.take (UBIFS_MAX_INO_DATA+1)
  if buf.length = 0 then .error .readlinkFailed
  else if UBIFS_MAX_INO_DATA < buf.length then .error .symlinkTooLong
  else .ok (addInodeWithData o st inum buf flags s)

def dentNode (dir_inum : ℕ) (name : List Byte) (inum : ℕ) (type : IType) : DentNode :=
  ⟨dentKeyInit o.key_hash dir_inum name, inum, type, BitVec.ofNat 16 name.length, name⟩

def addDentNode (dir_inum : ℕ) (name : List Byte) (inum : ℕ) (type : IType) (s : Mkfs) : Mkfs :=
  addNode (.dent (dentNode o dir_inum name inum type)) s

/-- The inner loop of `add_file`: what the last read returned, and the bytes of the block. -/
def readBlock (inode : HostInode) (off : ℕ) : ℕ → ℕ → ℕ × ℕ
  | 0, bytes_read => (0, bytes_read)
  | k+1, bytes_read =>
    let ret := inode.read (off+bytes_read) (UBIFS_BLOCK_SIZE-bytes_read)
    let bytes_read := bytes_read+ret
    if ret ≠ 0 ∧ bytes_read ≠ UBIFS_BLOCK_SIZE then readBlock inode off k bytes_read
    else (ret, bytes_read)

def allZero (buf : List Byte) : Bool := buf.all (· = 0#8)

def useCompr (flags : BitVec 32) : Compr :=
  if o.default_compr = .none ∧ flags &&& 0x4#32 ≠ 0#32 then .lzo else o.default_compr

def dataNode (inum block_no : ℕ) (flags : BitVec 32) (buf : List Byte) : DataNode :=
  let out := compressData z o.favor_lzo buf (useCompr o flags)
  ⟨dataKeyInit inum (BitVec.ofNat 32 block_no), buf.length, out.2, out.1⟩

/-- The blocks of a file from `file_size` on. Blocks of zeroes are left out. -/
def addBlocks (inode : HostInode) (inum : ℕ) (flags : BitVec 32) :
    ℕ → ℕ → ℕ → Mkfs → ℕ × Mkfs
  | 0, file_size, _, s => (file_size, s)
  | k+1, file_size, block_no, s =>
    let (ret, bytes_read) := readBlock inode file_size (UBIFS_BLOCK_SIZE+1) 0
    if bytes_read = 0 then (file_size, s)
    else
      let buf := readBytes inode.byte file_size bytes_read
      let s := if allZero buf then s else addNode (.data (dataNode z o inum block_no flags buf)) s
      if ret ≠ 0 then addBlocks inode inum flags k (file_size+bytes_read) (block_no+1) s
      else (file_size+bytes_read, s)

def addFile (inode : HostInode) (st : Stat) (inum : ℕ) (flags : BitVec 32) (s : Mkfs) :
    Except TreeErr Mkfs :=
  let (file_size, s) := addBlocks z o inode inum flags (inode.len/UBIFS_BLOCK_SIZE+1) 0 0 s
  if file_size ≠ st.st_size then .error .sizeChanged
  else .ok (addInode o st inum flags s)

/-- `lookup_inum_mapping`: the entry of the inode, made when there is none. -/
def lookupInumMapping (h : HostIno) (new : InumMapping) (t : ℕ → List InumMapping) :
    InumMapping × (ℕ → List InumMapping) :=
  match (t (h.ino%HASH_TABLE_SIZE)).find? (·.ino = h) with
  | some im => (im, t)
  | none => (new, Function.update t (h.ino%HASH_TABLE_SIZE) (new :: t (h.ino%HASH_TABLE_SIZE)))

/-- A change of an entry in its place. -/
def storeMapping (im : InumMapping) (t : ℕ → List InumMapping) : ℕ → List InumMapping :=
  Function.update t (im.ino.ino%HASH_TABLE_SIZE)
    ((t (im.ino.ino%HASH_TABLE_SIZE)).map fun e => if e.ino = im.ino then im else e)

/-- The second part of `add_non_dir`, where the count of links is known. -/
def writeNonDir (h : HostIno) (type : IType) (st : Stat) (inum : ℕ) (s : Mkfs) :
    Except TreeErr Mkfs :=
  let s := { s with max_sqnum := s.max_sqnum+1, creat_sqnum := s.max_sqnum+1 }
  match type with
  | .reg => addFile z o (host h) st inum (host h).flags s
  | .chr => .ok (addDevInode o st inum 0#32 s)
  | .blk => .ok (addDevInode o st inum 0#32 s)
  | .lnk => addSymlinkInode o (host h) st inum 0#32 s
  | .sock => .ok (addInode o st inum 0#32 s)
  | .fifo => .ok (addInode o st inum 0#32 s)
  | .dir => .error .unknownType

/-- `add_non_dir` for a path that leads to `h`. The number and the type are returned. -/
def addNonDir (h : HostIno) (st : Stat) (inum : ℕ) (nlink : BitVec 32) (s : Mkfs) :
    Except TreeErr (ℕ × IType × Mkfs) :=
  match itype st.st_mode with
  | none => .error .unknownType
  | some type =>
    if nlink ≠ 0#32 then do
      let s ← writeNonDir z o host h type (st.withNlink nlink.toNat) inum s
      .ok (inum, type, s)
    else if 1 < st.st_nlink then
      let (im, t) := lookupInumMapping h ⟨h, 0, 0#32, h, st⟩ s.hash_table
      if im.use_nlink = 0#32 then
        let im := { im with use_inum := inum, use_nlink := 1#32, path_name := h, st := st }
        .ok (inum, type, { s with hash_table := storeMapping im t })
      else
        let im := { im with use_nlink := im.use_nlink+1#32, st := st }
        -- the number is given back
        .ok (im.use_inum, type,
          { s with hash_table := storeMapping im t, highest_inum := s.highest_inum-1 })
    else do
      let s ← writeNonDir z o host h type (st.withNlink 1) inum s
      .ok (inum, type, s)

def squash (st : Stat) : Stat :=
  if o.squash_owner then { st with st_uid := 0#32, st_gid := 0#32 } else st

def dentSize (name : List Byte) : ℕ := align (UBIFS_DENT_NODE_SZ+name.length+1) 8

/-- The loop of `add_directory`. The state at the entry of a directory counts one more sequence
number, which its inode gets in the end. -/
def addEntries : Entries → ℕ → ℕ → ℕ → Mkfs → Except TreeErr (ℕ × ℕ × Mkfs)
  | .nil, _, size, nlink, s => .ok (size, nlink, s)
  | .file name h rest, dir_inum, size, nlink, s => do
    let inum := s.highest_inum+1
    let (inum, type, s) ←
      addNonDir z o host h (squash o (host h).st) inum 0#32 { s with highest_inum := inum }
    addEntries rest dir_inum (size+dentSize name) nlink (addDentNode o dir_inum name inum type s)
  | .dir name h sub rest, dir_inum, size, nlink, s => do
    let inum := s.highest_inum+1
    let dir_creat_sqnum := s.max_sqnum+1
    let (dir_size, dir_nlink, s) ← addEntries sub inum UBIFS_INO_NODE_SZ 2
      { s with highest_inum := inum, max_sqnum := dir_creat_sqnum }
    let s := addDirInode o (host h) inum dir_size dir_nlink (squash o (host h).st)
      { s with creat_sqnum := dir_creat_sqnum }
    addEntries rest dir_inum (size+dentSize name) (nlink+1) (addDentNode o dir_inum name inum .dir s)

def addDirectory (h : HostIno) (st : Stat) (es : Entries) (dir_inum : ℕ) (s : Mkfs) :
    Except TreeErr Mkfs := do
  let dir_creat_sqnum := s.max_sqnum+1
  let (size, nlink, s) ← addEntries z o host es dir_inum UBIFS_INO_NODE_SZ 2
    { s with max_sqnum := dir_creat_sqnum }
  .ok (addDirInode o (host h) dir_inum size nlink st { s with creat_sqnum := dir_creat_sqnum })

/-- The entries of the table in the order of `add_multi_linked_files`. -/
def mappings (t : ℕ → List InumMapping) : List InumMapping :=
  (List.range HASH_TABLE_SIZE).flatMap t

def addMultiLinkedFiles (s : Mkfs) : Except TreeErr Mkfs :=
  (mappings s.hash_table).foldlM (fun s im =>
    (addNonDir z o host im.path_name im.st im.use_inum im.use_nlink s).map fun r => r.2.2) s

/-- `write_data` from the state that `init` leaves. -/
def writeData (T : HostTree) (max_sqnum : ℕ) : Except TreeErr Mkfs := do
  let s ← addDirectory z o T.host T.root (T.host T.root).st T.entries UBIFS_ROOT_INO
    ⟨UBIFS_FIRST_INO, max_sqnum, 0, fun _ => [], []⟩
  addMultiLinkedFiles z o T.host s

end Writer

section Tree

/-- The inodes in the order in which the walk comes to them, once for each name. -/
def Entries.visits : Entries → List HostIno
  | .nil => []
  | .file _ h rest => h :: rest.visits
  | .dir _ h sub rest => h :: (sub.visits ++ rest.visits)

def Entries.files : Entries → List HostIno
  | .nil => []
  | .file _ h rest => h :: rest.files
  | .dir _ _ sub rest => sub.files ++ rest.files

/-- The directories below, with what they hold. -/
def Entries.dirs : Entries → List (HostIno × Entries)
  | .nil => []
  | .file _ _ rest => rest.dirs
  | .dir _ h sub rest => sub.dirs ++ (h, sub) :: rest.dirs

/-- How many entries are directories. -/
def Entries.subdirs : Entries → ℕ
  | .nil => 0
  | .file _ _ rest => rest.subdirs
  | .dir _ _ _ rest => rest.subdirs+1

/-- A directory entry of the host. -/
structure Link where
  parent : HostIno
  name : List Byte
  child : HostIno
  type : IType

def Entries.links (host : HostIno → HostInode) : HostIno → Entries → List Link
  | _, .nil => []
  | p, .file name h rest => ⟨p, name, h, (itype (host h).st.st_mode).getD .reg⟩ :: rest.links host p
  | p, .dir name h sub rest => sub.links host h ++ ⟨p, name, h, .dir⟩ :: rest.links host p

def HostTree.visits (T : HostTree) : List HostIno := T.entries.visits
def HostTree.files (T : HostTree) : List HostIno := T.entries.files
def HostTree.dirs (T : HostTree) : List (HostIno × Entries) := (T.root, T.entries) :: T.entries.dirs
def HostTree.links (T : HostTree) : List Link := T.entries.links T.host T.root

/-- The inodes of the tree, each once. -/
def HostTree.inodes (T : HostTree) : List HostIno := T.root :: firsts T.visits

/-- A read returns something as long as there is something. -/
structure HostInode.Reads (i : HostInode) : Prop where
  pos : ∀ off n, 0 < n → off < i.len → 0 < i.read off n
  le : ∀ off n, off < i.len → i.read off n ≤ n
  within : ∀ off n, off < i.len → off+i.read off n ≤ i.len
  eof : ∀ off n, i.len ≤ off → i.read off n = 0

/-- What the host promises of a file. -/
structure HostInode.IsFile (i : HostInode) : Prop where
  type : (itype i.st.st_mode).isSome
  symlink : itype i.st.st_mode = some .lnk → 0 < i.target.length ∧ i.target.length ≤ UBIFS_MAX_INO_DATA
  size : itype i.st.st_mode = some .reg → i.st.st_size = i.len
  reads : itype i.st.st_mode = some .reg → i.Reads

/-- What the host promises of a tree: a directory has one name, and a file has at least as many
links as names in the tree. -/
structure HostTree.WellFormed (T : HostTree) : Prop where
  root_once : T.root ∉ T.visits
  dir_once : ∀ d ∈ T.entries.dirs, T.visits.count d.1 ≤ 1
  dir_type : ∀ d ∈ T.dirs, S_ISDIR (T.host d.1).st.st_mode
  file : ∀ h ∈ T.files, (T.host h).IsFile
  file_links : ∀ h ∈ T.files, T.visits.count h ≤ (T.host h).st.st_nlink
  name : ∀ l ∈ T.links, l.name.length ≤ 255

/-- All numbers fit into the fields of the nodes: the inode numbers and the counts of links have
32 bits, the block numbers 29. -/
structure HostTree.FitsFormat (T : HostTree) : Prop where
  inums : UBIFS_FIRST_INO+(firsts T.visits).length < 2^32
  links : ∀ h ∈ T.files, T.visits.count h < 2^32
  blocks : ∀ h ∈ T.files, itype (T.host h).st.st_mode = some .reg →
    ∀ off < (T.host h).len, 2^41 ≤ off → (T.host h).byte off = 0#8

end Tree

section Image

def TreeNode.ino? : TreeNode → Option InoNode
  | .ino n => some n
  | _ => none

def TreeNode.dent? : TreeNode → Option DentNode
  | .dent n => some n
  | _ => none

def TreeNode.data? : TreeNode → Option DataNode
  | .data n => some n
  | _ => none

def Mkfs.inos (s : Mkfs) : List InoNode := s.nodes.filterMap TreeNode.ino?
def Mkfs.dents (s : Mkfs) : List DentNode := s.nodes.filterMap TreeNode.dent?
def Mkfs.datas (s : Mkfs) : List DataNode := s.nodes.filterMap TreeNode.data?

/-- What a directory entry says: its directory, its name, and what it leads to. -/
structure Entry where
  dir : ℕ
  name : List Byte
  inum : ℕ
  type : IType

def DentNode.entry (d : DentNode) : Entry := ⟨d.key.inum, d.name.take d.nlen.toNat, d.inum, d.type⟩
def Link.entry (num : HostIno → ℕ) (l : Link) : Entry := ⟨num l.parent, l.name, num l.child, l.type⟩
def DentNode.alignedSize (d : DentNode) : ℕ := align (UBIFS_DENT_NODE_SZ+d.nlen.toNat+1) 8

/-- The block of a file as its node has it, or zeroes. -/
def readBlockBack (z : Codec) (datas : List DataNode) (inum block : ℕ) : Option (List Byte) :=
  match datas.find? (fun d => d.key.inum = inum ∧ d.key.type = UBIFS_DATA_KEY.toNat ∧
    d.key.block = block) with
  | none => some (List.replicate UBIFS_BLOCK_SIZE 0#8)
  | some d => decompress z d.data d.compr_type

def readBack (z : Codec) (datas : List DataNode) (inum off : ℕ) : Option Byte :=
  (readBlockBack z datas inum (off/UBIFS_BLOCK_SIZE)).map (·.getD (off%UBIFS_BLOCK_SIZE) 0#8)

/-- The nodes describe the tree, with the given number for each inode of the host. -/
structure DescribesBy (z : Codec) (T : HostTree) (s : Mkfs) (num : HostIno → ℕ) : Prop where
  root : num T.root = UBIFS_ROOT_INO
  inj : ∀ h ∈ T.inodes, ∀ h' ∈ T.inodes, num h = num h' → h = h'
  inos : (s.inos.map (·.key.inum)).Perm (T.inodes.map num)
  dents : (s.dents.map DentNode.entry).Perm (T.links.map (Link.entry num))
  mode : ∀ h ∈ T.inodes, ∀ n ∈ s.inos, n.key.inum = num h → n.mode = (T.host h).st.st_mode
  symlink : ∀ h ∈ T.files, itype (T.host h).st.st_mode = some .lnk →
    ∀ n ∈ s.inos, n.key.inum = num h → n.data = (T.host h).target
  file_nlink : ∀ h ∈ T.files, ∀ n ∈ s.inos, n.key.inum = num h →
    n.nlink.toNat = s.dents.countP (·.inum = num h)
  dir_nlink : ∀ d ∈ T.dirs, ∀ n ∈ s.inos, n.key.inum = num d.1 → n.nlink.toNat = 2+d.2.subdirs
  dir_size : ∀ d ∈ T.dirs, ∀ n ∈ s.inos, n.key.inum = num d.1 →
    n.size = UBIFS_INO_NODE_SZ+
      ((s.dents.filter (·.key.inum = num d.1)).map DentNode.alignedSize).sum
  highest : ∀ h ∈ T.inodes, num h ≤ s.highest_inum
  data_once : (s.datas.map DataNode.key).Nodup
  size : ∀ h ∈ T.files, itype (T.host h).st.st_mode = some .reg →
    ∀ n ∈ s.inos, n.key.inum = num h → n.size = (T.host h).len
  data : ∀ h ∈ T.files, itype (T.host h).st.st_mode = some .reg →
    ∀ off < (T.host h).len, readBack z s.datas (num h) off = some ((T.host h).byte off)

def Describes (z : Codec) (T : HostTree) (s : Mkfs) : Prop := ∃ num, DescribesBy z T s num

end Image

section Blocks

variable {i : HostInode}

/-- The inner loop ends with a full block, or at the end of the file with a last read of
nothing. -/
theorem readBlock_spec (hr : i.Reads) (off : ℕ) (k n : ℕ) (hk : UBIFS_BLOCK_SIZE-n < k)
    (hn : n < UBIFS_BLOCK_SIZE) (hlen : n ≤ i.len-off) :
    (readBlock i off k n).2 = min UBIFS_BLOCK_SIZE (i.len-off) ∧
    ((readBlock i off k n).1 = 0 ↔ i.len-off < UBIFS_BLOCK_SIZE) := by
  induction k generalizing n with
  | zero => exact absurd hk (Nat.not_lt_zero _)
  | succ k ih =>
    rw [readBlock]
    by_cases heof : i.len ≤ off+n
    · rw [hr.eof _ _ heof, if_neg (fun h => h.1 rfl)]
      exact ⟨by dsimp only; omega, iff_of_true rfl (by omega)⟩
    · have hlt : off+n < i.len := not_le.mp heof
      have hpos := hr.pos (off+n) (UBIFS_BLOCK_SIZE-n) (by omega) hlt
      have hle := hr.le (off+n) (UBIFS_BLOCK_SIZE-n) hlt
      have hwithin := hr.within (off+n) (UBIFS_BLOCK_SIZE-n) hlt
      by_cases hfull : n+i.read (off+n) (UBIFS_BLOCK_SIZE-n) = UBIFS_BLOCK_SIZE
      · rw [if_neg (fun h => h.2 hfull)]
        exact ⟨by dsimp only; omega, iff_of_false (by dsimp only; omega) (by omega)⟩
      · rw [if_pos ⟨by omega, hfull⟩]
        exact ih _ (by omega) (by omega) (by omega)

/-- The bytes of a block of the file. -/
def blockBuf (i : HostInode) (b : ℕ) : List Byte :=
  readBytes i.byte (b*UBIFS_BLOCK_SIZE) (min UBIFS_BLOCK_SIZE (i.len-b*UBIFS_BLOCK_SIZE))

/-- The nodes of the blocks `b` to `b+n-1`. -/
def blockNodes (z : Codec) (o : TreeOptions) (i : HostInode) (inum : ℕ) (b n : ℕ) : List DataNode :=
  (List.range' b n).filterMap fun b =>
    if allZero (blockBuf i b) then none else some (dataNode z o inum b i.flags (blockBuf i b))

def blockCnt (len : ℕ) : ℕ := (len+(UBIFS_BLOCK_SIZE-1))/UBIFS_BLOCK_SIZE

end Blocks

section Emit

/-- The node without its `creat_sqnum`. -/
def InoNode.undated (n : InoNode) : InoNode := { n with creat_sqnum := 0 }

/-- The nodes that are added on the way from `s` to `s'`. -/
structure Emits (s s' : Mkfs) (dents : List DentNode) (inos : List InoNode) (datas : List DataNode) :
    Prop where
  dents : s'.dents = s.dents ++ dents
  inos : s'.inos.map InoNode.undated = s.inos.map InoNode.undated ++ inos
  datas : s'.datas = s.datas ++ datas

/-- The table and the numbers stay. -/
structure Still (s s' : Mkfs) : Prop where
  highest : s'.highest_inum = s.highest_inum
  table : s'.hash_table = s.hash_table

variable {s s' s'' : Mkfs}

theorem Still.trans (h : Still s s') (h' : Still s' s'') : Still s s'' :=
  ⟨h'.highest.trans h.highest, h'.table.trans h.table⟩

theorem Emits.trans {ds ds' : List DentNode} {is is' : List InoNode} {bs bs' : List DataNode}
    (h : Emits s s' ds is bs) (h' : Emits s' s'' ds' is' bs') :
    Emits s s'' (ds ++ ds') (is ++ is') (bs ++ bs') :=
  ⟨by rw [h'.dents, h.dents, List.append_assoc], by rw [h'.inos, h.inos, List.append_assoc],
    by rw [h'.datas, h.datas, List.append_assoc]⟩

/-- Nodes are all that is looked at. -/
theorem emits_nodes (h : s'.nodes = s.nodes) : Emits s s' [] [] [] := by
  refine ⟨?_, ?_, ?_⟩
  · rw [Mkfs.dents, h, List.append_nil, Mkfs.dents]
  · rw [Mkfs.inos, h, List.append_nil, Mkfs.inos]
  · rw [Mkfs.datas, h, List.append_nil, Mkfs.datas]

theorem addNode_still (n : TreeNode) : Still s (addNode n s) := ⟨rfl, rfl⟩

theorem addNode_dent (d : DentNode) : Emits s (addNode (.dent d) s) [d] [] [] := by
  refine ⟨?_, ?_, ?_⟩ <;>
    simp only [Mkfs.dents, Mkfs.inos, Mkfs.datas, addNode, List.filterMap_append,
      List.filterMap_cons, List.filterMap_nil, TreeNode.dent?, TreeNode.ino?, TreeNode.data?,
      List.append_nil]

theorem addNode_ino (n : InoNode) : Emits s (addNode (.ino n) s) [] [n.undated] [] := by
  refine ⟨?_, ?_, ?_⟩ <;>
    simp only [Mkfs.dents, Mkfs.inos, Mkfs.datas, addNode, List.filterMap_append,
      List.filterMap_cons, List.filterMap_nil, TreeNode.dent?, TreeNode.ino?, TreeNode.data?,
      List.append_nil, List.map_append, List.map_cons, List.map_nil]

theorem addNode_data (d : DataNode) : Emits s (addNode (.data d) s) [] [] [d] := by
  refine ⟨?_, ?_, ?_⟩ <;>
    simp only [Mkfs.dents, Mkfs.inos, Mkfs.datas, addNode, List.filterMap_append,
      List.filterMap_cons, List.filterMap_nil, TreeNode.dent?, TreeNode.ino?, TreeNode.data?,
      List.append_nil]

variable (z : Codec) (o : TreeOptions)

theorem addInodeWithData_emits (st : Stat) (inum : ℕ) (data : List Byte) (flags : BitVec 32) :
    Emits s (addInodeWithData o st inum data flags s) [] [inoNode o st inum data flags 0] [] :=
  addNode_ino _

/-- The loop over the blocks of a file, from the block `b` on. -/
theorem addBlocks_spec {i : HostInode} (hr : i.Reads) (inum : ℕ) (k b : ℕ)
    (hk : i.len/UBIFS_BLOCK_SIZE-b < k) (hb : b*UBIFS_BLOCK_SIZE ≤ i.len) (s : Mkfs) :
    (addBlocks z o i inum i.flags k (b*UBIFS_BLOCK_SIZE) b s).1 = i.len ∧
    Still s (addBlocks z o i inum i.flags k (b*UBIFS_BLOCK_SIZE) b s).2 ∧
    Emits s (addBlocks z o i inum i.flags k (b*UBIFS_BLOCK_SIZE) b s).2 [] []
      (blockNodes z o i inum b (blockCnt i.len-b)) := by
  induction k generalizing b s with
  | zero => exact absurd hk (Nat.not_lt_zero _)
  | succ k ih =>
    obtain ⟨hbytes, hret⟩ := readBlock_spec hr (b*UBIFS_BLOCK_SIZE) (UBIFS_BLOCK_SIZE+1) 0
      (by omega) (by decide) (Nat.zero_le _)
    rw [addBlocks]
    dsimp only
    by_cases hend : i.len = b*UBIFS_BLOCK_SIZE
    · rw [if_pos (by rw [hbytes]; omega)]
      have hcnt : blockCnt i.len-b = 0 := by
        rw [blockCnt, hend]
        unfold UBIFS_BLOCK_SIZE
        omega
      rw [hcnt]
      exact ⟨hend.symm, ⟨rfl, rfl⟩, emits_nodes rfl⟩
    · rw [if_neg (by rw [hbytes]; unfold UBIFS_BLOCK_SIZE at *; omega), hbytes]
      have hcnt : blockCnt i.len-b = blockCnt i.len-(b+1)+1 := by
        unfold blockCnt UBIFS_BLOCK_SIZE at *
        omega
      -- what the block itself adds
      obtain ⟨s₁, hs₁⟩ : ∃ s₁, s₁ = if allZero (blockBuf i b) then s
        else addNode (.data (dataNode z o inum b i.flags (blockBuf i b))) s := ⟨_, rfl⟩
      have hstill : Still s s₁ := by
        rw [hs₁]
        split
        · exact ⟨rfl, rfl⟩
        · exact addNode_still _
      have hemit : Emits s s₁ [] [] (blockNodes z o i inum b 1) := by
        rw [hs₁, blockNodes, List.range'_one, List.filterMap_cons, List.filterMap_nil]
        split
        · exact emits_nodes rfl
        · exact addNode_data _
      have hnodes (n : ℕ) : blockNodes z o i inum b (n+1) =
          blockNodes z o i inum b 1 ++ blockNodes z o i inum (b+1) n := by
        rw [blockNodes, blockNodes, blockNodes, ← List.filterMap_append, List.range'_one,
          List.range'_succ, List.singleton_append]
      have hbuf : readBytes i.byte (b*UBIFS_BLOCK_SIZE)
          (min UBIFS_BLOCK_SIZE (i.len-b*UBIFS_BLOCK_SIZE)) = blockBuf i b := rfl
      rw [hbuf, ← hs₁, hcnt, hnodes]
      by_cases hfull : i.len-b*UBIFS_BLOCK_SIZE < UBIFS_BLOCK_SIZE
      · rw [if_neg (not_not.mpr (hret.mpr hfull))]
        have hrest : blockCnt i.len-(b+1) = 0 := by
          unfold blockCnt UBIFS_BLOCK_SIZE at *
          omega
        rw [hrest]
        refine ⟨by dsimp only; omega, hstill, hemit.trans (emits_nodes rfl)⟩
      · rw [if_pos (fun h => hfull (hret.mp h))]
        have hoff : b*UBIFS_BLOCK_SIZE+min UBIFS_BLOCK_SIZE (i.len-b*UBIFS_BLOCK_SIZE) =
            (b+1)*UBIFS_BLOCK_SIZE := by
          rw [Nat.succ_mul]
          omega
        rw [hoff]
        obtain ⟨hlen, hstill', hemit'⟩ := ih (b+1) (by unfold UBIFS_BLOCK_SIZE at *; omega)
          (by rw [Nat.succ_mul]; omega) s₁
        exact ⟨hlen, hstill.trans hstill', hemit.trans hemit'⟩

end Emit

section Files

variable (z : Codec) (o : TreeOptions) (host : HostIno → HostInode)

/-- The data that go with the inode. -/
def inoData (i : HostInode) : List Byte :=
  match itype i.st.st_mode with
  | some .chr => le 8 i.st.st_rdev
  | some .blk => le 8 i.st.st_rdev
  | some .lnk => i.target
  | _ => []

def inoFlags (i : HostInode) : BitVec 32 :=
  if itype i.st.st_mode = some .reg then i.flags else 0#32

/-- The inode node of a file. -/
def fileIno (i : HostInode) (inum nlink : ℕ) : InoNode :=
  inoNode o ((squash o i.st).withNlink nlink) inum (inoData i) (inoFlags i) 0

/-- The data nodes of a file. -/
def fileDatas (i : HostInode) (inum : ℕ) : List DataNode :=
  if itype i.st.st_mode = some .reg then blockNodes z o i inum 0 (blockCnt i.len) else []

theorem squash_mode (st : Stat) : (squash o st).st_mode = st.st_mode := by
  unfold squash
  split <;> rfl

theorem squash_nlink (st : Stat) : (squash o st).st_nlink = st.st_nlink := by
  unfold squash
  split <;> rfl

theorem squash_rdev (st : Stat) : (squash o st).st_rdev = st.st_rdev := by
  unfold squash
  split <;> rfl

theorem squash_size (st : Stat) : (squash o st).st_size = st.st_size := by
  unfold squash
  split <;> rfl

theorem itype_ne_dir (mode : BitVec 32) : itype mode ≠ some .dir := by
  unfold itype
  repeat' split
  all_goals exact fun h => by cases h

/-- A file is written with its blocks first. -/
theorem writeNonDir_spec {h : HostIno} (hf : (host h).IsFile) {type : IType}
    (ht : itype (host h).st.st_mode = some type) (inum nlink : ℕ) (s : Mkfs) :
    ∃ s', writeNonDir z o host h type ((squash o (host h).st).withNlink nlink) inum s = .ok s' ∧
      Still s s' ∧
      Emits s s' [] [fileIno o (host h) inum nlink] (fileDatas z o (host h) inum) := by
  obtain ⟨s₁, hs₁⟩ : ∃ s₁ : Mkfs, s₁ = { s with max_sqnum := s.max_sqnum+1
                                                creat_sqnum := s.max_sqnum+1 } := ⟨_, rfl⟩
  have hstill : Still s s₁ := by
    rw [hs₁]
    exact ⟨rfl, rfl⟩
  have hemit : Emits s s₁ [] [] [] := by
    rw [hs₁]
    exact emits_nodes rfl
  -- everything but a regular file is one inode node
  have hino {data : List Byte} {flags : BitVec 32} (hdata : inoData (host h) = data)
      (hflags : inoFlags (host h) = flags) (hdatas : fileDatas z o (host h) inum = []) :
      Emits s (addInodeWithData o ((squash o (host h).st).withNlink nlink) inum data flags s₁)
        [] [fileIno o (host h) inum nlink] (fileDatas z o (host h) inum) := by
    rw [hdatas, fileIno, hdata, hflags]
    exact hemit.trans (addInodeWithData_emits o _ _ _ _)
  have hno (hne : type ≠ .reg) : inoFlags (host h) = 0#32 ∧ fileDatas z o (host h) inum = [] := by
    have hreg : itype (host h).st.st_mode ≠ some .reg := by
      rw [ht]
      exact fun heq => hne (Option.some.inj heq)
    rw [inoFlags, fileDatas, if_neg hreg, if_neg hreg]
    exact ⟨rfl, rfl⟩
  have hrdev : ((squash o (host h).st).withNlink nlink).st_rdev = (host h).st.st_rdev :=
    squash_rdev o _
  unfold writeNonDir
  rw [← hs₁]
  cases type with
  | reg =>
    obtain ⟨hlen, hstill', hemit'⟩ := addBlocks_spec z o (hf.reads ht) inum
      ((host h).len/UBIFS_BLOCK_SIZE+1) 0 (Nat.lt_succ_self _) (by rw [Nat.zero_mul]; exact Nat.zero_le _) s₁
    rw [Nat.zero_mul] at hlen hstill' hemit'
    have hsize : ((squash o (host h).st).withNlink nlink).st_size = (host h).len :=
      (squash_size o _).trans (hf.size ht)
    dsimp only [addFile]
    rw [hlen, hsize, if_neg (not_not.mpr rfl)]
    refine ⟨_, rfl, (hstill.trans hstill').trans (addNode_still _), ?_⟩
    have hdata : inoData (host h) = [] := by
      rw [inoData, ht]
    have hfl : inoFlags (host h) = (host h).flags := by
      rw [inoFlags, if_pos ht]
    rw [fileDatas, if_pos ht, fileIno, hdata, hfl]
    have hall := (hemit.trans hemit').trans (addInodeWithData_emits o
      ((squash o (host h).st).withNlink nlink) inum [] (host h).flags)
    simp only [List.append_nil, List.nil_append, Nat.sub_zero] at hall
    exact hall
  | dir => exact absurd ht (itype_ne_dir _)
  | lnk =>
    obtain ⟨hpos, hmax⟩ := hf.symlink ht
    have htake : (host h).target.take (UBIFS_MAX_INO_DATA+1) = (host h).target :=
      List.take_of_length_le (by omega)
    dsimp only [addSymlinkInode]
    rw [htake, if_neg (by omega), if_neg (by omega)]
    exact ⟨_, rfl, hstill.trans (addNode_still _),
      hino (by rw [inoData, ht]) (hno (by decide)).1 (hno (by decide)).2⟩
  | blk =>
    refine ⟨_, rfl, hstill.trans (addNode_still _),
      hino ?_ (hno (by decide)).1 (hno (by decide)).2⟩
    rw [inoData, ht, hrdev]
  | chr =>
    refine ⟨_, rfl, hstill.trans (addNode_still _),
      hino ?_ (hno (by decide)).1 (hno (by decide)).2⟩
    rw [inoData, ht, hrdev]
  | fifo =>
    exact ⟨_, rfl, hstill.trans (addNode_still _),
      hino (by rw [inoData, ht]) (hno (by decide)).1 (hno (by decide)).2⟩
  | sock =>
    exact ⟨_, rfl, hstill.trans (addNode_still _),
      hino (by rw [inoData, ht]) (hno (by decide)).1 (hno (by decide)).2⟩

end Files

section Table

variable {t : ℕ → List InumMapping} {h : HostIno}

/-- One entry for each inode. -/
def TableNodup (t : ℕ → List InumMapping) : Prop := ∀ k, ((t k).map InumMapping.ino).Nodup

/-- The entry of `h` is looked up, or made, and then replaced by `im`. -/
def putMapping (im new : InumMapping) (t : ℕ → List InumMapping) : ℕ → List InumMapping :=
  storeMapping im (lookupInumMapping im.ino new t).2

theorem lookupInumMapping_none {new : InumMapping} (hnew : ∀ e ∈ t (h.ino%HASH_TABLE_SIZE), e.ino ≠ h) :
    lookupInumMapping h new t =
      (new, Function.update t (h.ino%HASH_TABLE_SIZE) (new :: t (h.ino%HASH_TABLE_SIZE))) := by
  have hfind : (t (h.ino%HASH_TABLE_SIZE)).find? (·.ino = h) = none :=
    List.find?_eq_none.mpr fun e he => by simpa using hnew e he
  rw [lookupInumMapping, hfind]

theorem lookupInumMapping_some {new im : InumMapping} (hn : TableNodup t)
    (him : im ∈ t (im.ino.ino%HASH_TABLE_SIZE)) : lookupInumMapping im.ino new t = (im, t) := by
  have hfind : (t (im.ino.ino%HASH_TABLE_SIZE)).find? (·.ino = im.ino) = some im := by
    cases hf : (t (im.ino.ino%HASH_TABLE_SIZE)).find? (·.ino = im.ino) with
    | none =>
      have := List.find?_eq_none.mp hf im him
      simp at this
    | some e =>
      have he := List.mem_of_find?_eq_some hf
      have hino : e.ino = im.ino := by simpa using List.find?_some hf
      rw [List.inj_on_of_nodup_map (hn _) he him hino]
  rw [lookupInumMapping, hfind]

theorem mem_storeMapping {im e : InumMapping} {k : ℕ} (hhas : ∃ e ∈ t (im.ino.ino%HASH_TABLE_SIZE), e.ino = im.ino) :
    e ∈ storeMapping im t k ↔
      (k = im.ino.ino%HASH_TABLE_SIZE ∧ e = im) ∨
      (e ∈ t k ∧ (k = im.ino.ino%HASH_TABLE_SIZE → e.ino ≠ im.ino)) := by
  unfold storeMapping
  by_cases hk : k = im.ino.ino%HASH_TABLE_SIZE
  · subst hk
    rw [Function.update_self, List.mem_map]
    constructor
    · rintro ⟨e', he', rfl⟩
      split
      · exact Or.inl ⟨rfl, rfl⟩
      next hne => exact Or.inr ⟨he', fun _ => hne⟩
    · rintro (⟨-, rfl⟩ | ⟨he, hne⟩)
      · obtain ⟨e', he', hino⟩ := hhas
        exact ⟨e', he', if_pos hino⟩
      · exact ⟨e, he, if_neg (hne rfl)⟩
  · rw [Function.update_of_ne hk]
    exact ⟨fun he => Or.inr ⟨he, fun h => absurd h hk⟩,
      fun he => he.elim (fun h => absurd h.1 hk) And.left⟩

theorem storeMapping_nodup (hn : TableNodup t) (im : InumMapping) : TableNodup (storeMapping im t) := by
  intro k
  unfold storeMapping
  by_cases hk : k = im.ino.ino%HASH_TABLE_SIZE
  · subst hk
    rw [Function.update_self, List.map_map]
    have hsame : (InumMapping.ino ∘ fun e => if e.ino = im.ino then im else e) = InumMapping.ino := by
      funext e
      dsimp only [Function.comp]
      split
      next heq => exact heq.symm
      · rfl
    rw [hsame]
    exact hn _
  · rw [Function.update_of_ne hk]
    exact hn k

theorem mem_putMapping {im new e : InumMapping} {k : ℕ} (hnew : new.ino = im.ino) :
    e ∈ putMapping im new t k ↔
      (k = im.ino.ino%HASH_TABLE_SIZE ∧ e = im) ∨
      (e ∈ t k ∧ (k = im.ino.ino%HASH_TABLE_SIZE → e.ino ≠ im.ino)) := by
  unfold putMapping lookupInumMapping
  split
  next e' hf =>
    exact mem_storeMapping ⟨e', List.mem_of_find?_eq_some hf, by simpa using List.find?_some hf⟩
  next hf =>
    have hno : ∀ e ∈ t (im.ino.ino%HASH_TABLE_SIZE), e.ino ≠ im.ino := fun e he => by
      simpa using List.find?_eq_none.mp hf e he
    dsimp only
    rw [mem_storeMapping ⟨new, by rw [Function.update_self]; exact List.mem_cons_self, hnew⟩]
    by_cases hk : k = im.ino.ino%HASH_TABLE_SIZE
    · subst hk
      rw [Function.update_self, List.mem_cons]
      refine or_congr_right ⟨?_, fun h => ⟨Or.inr h.1, h.2⟩⟩
      rintro ⟨rfl | he, hne⟩
      · exact absurd hnew (hne rfl)
      · exact ⟨he, hne⟩
    · rw [Function.update_of_ne hk]

theorem putMapping_nodup (hn : TableNodup t) {im new : InumMapping} (hnew : new.ino = im.ino) :
    TableNodup (putMapping im new t) := by
  unfold putMapping
  apply storeMapping_nodup
  unfold lookupInumMapping
  split
  · exact hn
  next hf =>
    intro k
    dsimp only
    by_cases hk : k = im.ino.ino%HASH_TABLE_SIZE
    · subst hk
      rw [Function.update_self, List.map_cons, List.nodup_cons]
      refine ⟨?_, hn _⟩
      rw [List.mem_map, hnew]
      rintro ⟨e, he, hino⟩
      have := List.find?_eq_none.mp hf e he
      simp [hino] at this
    · rw [Function.update_of_ne hk]
      exact hn k

end Table

section Walk

variable (z : Codec) (o : TreeOptions) (T : HostTree)

/-- The number of an inode: the root has its own, the others count up in the order in which the
walk first comes to them. -/
def HostTree.num (h : HostIno) : ℕ :=
  if h = T.root then UBIFS_ROOT_INO else UBIFS_FIRST_INO+1+(firsts T.visits).idxOf h

/-- A file that is put into the table. -/
def HostTree.Multi (h : HostIno) : Prop :=
  (itype (T.host h).st.st_mode).isSome ∧ 1 < (T.host h).st.st_nlink

instance (h : HostIno) : Decidable (T.Multi h) := inferInstanceAs (Decidable (_ ∧ _))

/-- The entry of the table for `h` when the inodes of `log` have been visited. -/
def mappingOf (log : List HostIno) (h : HostIno) : InumMapping :=
  ⟨h, T.num h, BitVec.ofNat 32 (log.count h), h, squash o (T.host h).st⟩

/-- The state after the visits of `log`. -/
structure Walked (log : List HostIno) (s : Mkfs) : Prop where
  highest : s.highest_inum = UBIFS_FIRST_INO+(firsts log).length
  nodup : TableNodup s.hash_table
  mem : ∀ k e, e ∈ s.hash_table k ↔
    e.ino.ino%HASH_TABLE_SIZE = k ∧ e.ino ∈ log ∧ T.Multi e.ino ∧ e = mappingOf o T log e.ino

variable {o T} {log : List HostIno} {h : HostIno} {s s' : Mkfs}

theorem mappingOf_concat {h' : HostIno} (hne : h' ≠ h) :
    mappingOf o T (log ++ [h]) h' = mappingOf o T log h' := by
  have hcount : (log ++ [h]).count h' = log.count h' := by
    rw [List.count_append, List.count_singleton, if_neg (by simpa using hne.symm), Nat.add_zero]
  rw [mappingOf, hcount, mappingOf]

/-- A visit of what does not go into the table. -/
theorem Walked.single (hw : Walked o T log s) (hlog : h ∉ log) (hm : ¬ T.Multi h)
    (hhigh : s'.highest_inum = s.highest_inum+1) (htable : s'.hash_table = s.hash_table) :
    Walked o T (log ++ [h]) s' := by
  refine ⟨?_, by rw [htable]; exact hw.nodup, fun k e => ?_⟩
  · rw [hhigh, hw.highest, firsts_concat_new hlog, List.length_append, List.length_singleton,
      Nat.add_assoc]
  · rw [htable, hw.mem]
    refine and_congr_right fun _ => ?_
    by_cases he : e.ino = h
    · rw [he]
      exact iff_of_false (fun hf => hm hf.2.1) (fun hf => hm hf.2.1)
    · rw [mappingOf_concat he, List.mem_append, List.mem_singleton, or_iff_left he]

/-- A visit of a file with several links. -/
theorem Walked.multi (hw : Walked o T log s) (hm : T.Multi h) {new : InumMapping} (hnew : new.ino = h)
    (hhigh : s'.highest_inum = UBIFS_FIRST_INO+(firsts (log ++ [h])).length)
    (htable : s'.hash_table = putMapping (mappingOf o T (log ++ [h]) h) new s.hash_table) :
    Walked o T (log ++ [h]) s' := by
  refine ⟨hhigh, by rw [htable]; exact putMapping_nodup hw.nodup hnew, fun k e => ?_⟩
  have hino : (mappingOf o T (log ++ [h]) h).ino = h := rfl
  rw [htable, mem_putMapping hnew, hino, hw.mem]
  by_cases he : e.ino = h
  · constructor
    · rintro (⟨rfl, rfl⟩ | ⟨⟨hk, -⟩, hne⟩)
      · exact ⟨rfl, List.mem_append_right _ (List.mem_singleton_self h), hm, rfl⟩
      · rw [he] at hk
        exact absurd he (hne hk.symm)
    · rintro ⟨hk, -, -, heq⟩
      rw [he] at hk heq
      exact Or.inl ⟨hk.symm, heq⟩
  · rw [mappingOf_concat he, List.mem_append, List.mem_singleton, or_iff_left he]
    constructor
    · rintro (⟨-, heq⟩ | ⟨hmem, -⟩)
      · rw [heq] at he
        exact absurd rfl he
      · exact hmem
    · exact fun hmem => Or.inr ⟨hmem, fun _ => he⟩

theorem num_visited (hT : T.WellFormed) (hh : h ∈ T.visits) :
    T.num h = UBIFS_FIRST_INO+1+(firsts T.visits).idxOf h := by
  rw [HostTree.num, if_neg]
  rintro rfl
  exact hT.root_once hh

/-- The next number is that of a new inode. -/
theorem num_new (hT : T.WellFormed) (hw : Walked o T log s) (hpre : log ++ [h] <+: T.visits)
    (hlog : h ∉ log) : s.highest_inum+1 = T.num h := by
  have hh : h ∈ T.visits := hpre.subset (List.mem_append_right _ (List.mem_singleton_self h))
  rw [num_visited hT hh, idxOf_new hpre hlog, hw.highest]
  omega

theorem count_log (hpre : log ++ [h] <+: T.visits) : log.count h+1 ≤ T.visits.count h := by
  have := hpre.sublist.count_le h
  rw [List.count_append, List.count_singleton_self] at this
  exact this

/-- What a single link leads to has not been visited. -/
theorem not_mem_log (hpre : log ++ [h] <+: T.visits) (h1 : T.visits.count h ≤ 1) : h ∉ log := by
  have := count_log hpre
  exact List.count_eq_zero.mp (by omega)

variable (o) in
/-- The node of the inode, where it is written at its visit. -/
def inosAt (h : HostIno) : List InoNode :=
  if T.Multi h then [] else [fileIno o (T.host h) (T.num h) 1]

variable (o) in
def datasAt (h : HostIno) : List DataNode :=
  if T.Multi h then [] else fileDatas z o (T.host h) (T.num h)

/-- One file entry of a directory. -/
theorem addNonDir_visit (hT : T.WellFormed) (hf : (T.host h).IsFile)
    (hnlink : T.visits.count h ≤ (T.host h).st.st_nlink) (hcount : T.visits.count h < 2^32)
    (hw : Walked o T log s) (hpre : log ++ [h] <+: T.visits) :
    ∃ s', addNonDir z o T.host h (squash o (T.host h).st) (s.highest_inum+1) 0#32
        { s with highest_inum := s.highest_inum+1 } =
        .ok (T.num h, (itype (T.host h).st.st_mode).getD .reg, s') ∧
      Walked o T (log ++ [h]) s' ∧ Emits s s' [] (inosAt o (T := T) h) (datasAt z o (T := T) h) := by
  obtain ⟨type, ht⟩ := Option.isSome_iff_exists.mp hf.type
  have hc := count_log hpre
  unfold addNonDir
  rw [squash_mode, squash_nlink, ht]
  dsimp only [Option.getD_some]
  rw [if_neg (not_not.mpr rfl)]
  by_cases hm : 1 < (T.host h).st.st_nlink
  · have hmulti : T.Multi h := ⟨hf.type, hm⟩
    rw [if_pos hm, inosAt, datasAt, if_pos hmulti, if_pos hmulti]
    by_cases hlog : h ∈ log
    · -- the entry is there
      have hin : mappingOf o T log h ∈ s.hash_table ((mappingOf o T log h).ino.ino%HASH_TABLE_SIZE) :=
        (hw.mem _ _).mpr ⟨rfl, hlog, hmulti, rfl⟩
      have hlook := @lookupInumMapping_some _ ⟨h, 0, 0#32, h, squash o (T.host h).st⟩ _ hw.nodup hin
      change lookupInumMapping h _ _ = _ at hlook
      have hpos : 0 < log.count h := List.count_pos_iff.mpr hlog
      have hne : (mappingOf o T log h).use_nlink ≠ 0#32 := by
        intro hz
        have := congrArg BitVec.toNat hz
        change (BitVec.ofNat 32 (log.count h)).toNat = 0 at this
        rw [BitVec.toNat_ofNat, Nat.mod_eq_of_lt (by omega)] at this
        omega
      rw [hlook]
      dsimp only
      rw [if_neg hne]
      refine ⟨_, rfl, @Walked.multi _ _ _ _ _ _ hw hmulti
        ⟨h, 0, 0#32, h, squash o (T.host h).st⟩ rfl ?_ ?_, emits_nodes rfl⟩
      · dsimp only
        rw [firsts_concat_old hlog, hw.highest, Nat.add_sub_cancel]
      · dsimp only
        have hput : ({ mappingOf o T log h with
            use_nlink := (mappingOf o T log h).use_nlink+1#32, st := squash o (T.host h).st } :
            InumMapping) = mappingOf o T (log ++ [h]) h := by
          have hcnt : (log ++ [h]).count h = log.count h+1 := by
            rw [List.count_append, List.count_singleton_self]
          simp only [mappingOf, hcnt, BitVec.ofNat_add]
        rw [hput, putMapping, show (mappingOf o T (log ++ [h]) h).ino = h from rfl, hlook]
    · -- the entry is made
      have hnone : ∀ e ∈ s.hash_table (h.ino%HASH_TABLE_SIZE), e.ino ≠ h := by
        rintro e he rfl
        exact hlog ((hw.mem _ _).mp he).2.1
      have hlook := @lookupInumMapping_none _ _ ⟨h, 0, 0#32, h, squash o (T.host h).st⟩ hnone
      have hnum := num_new hT hw hpre hlog
      rw [hlook]
      dsimp only
      rw [if_pos rfl, hnum]
      refine ⟨_, rfl, @Walked.multi _ _ _ _ _ _ hw hmulti
        ⟨h, 0, 0#32, h, squash o (T.host h).st⟩ rfl ?_ ?_, emits_nodes rfl⟩
      · dsimp only
        rw [firsts_concat_new hlog, List.length_append, List.length_singleton, ← hnum, hw.highest,
          Nat.add_assoc]
      · dsimp only
        have hput : (⟨h, T.num h, 1#32, h, squash o (T.host h).st⟩ : InumMapping) =
            mappingOf o T (log ++ [h]) h := by
          have hcnt : (log ++ [h]).count h = 1 := by
            rw [List.count_append, List.count_singleton_self, List.count_eq_zero.mpr hlog]
          rw [mappingOf, hcnt]
        rw [hput, putMapping, show (mappingOf o T (log ++ [h]) h).ino = h from rfl, hlook]
  · have hmulti : ¬ T.Multi h := fun hf => hm hf.2
    have hlog := not_mem_log hpre (by omega)
    rw [if_neg hm, inosAt, datasAt, if_neg hmulti, if_neg hmulti, num_new hT hw hpre hlog]
    obtain ⟨s₁, hok, hstill, hemit⟩ := writeNonDir_spec z o T.host hf ht (T.num h) 1
      { s with highest_inum := T.num h }
    have hstart : Emits s { s with highest_inum := T.num h } [] [] [] := emits_nodes rfl
    rw [hok]
    refine ⟨s₁, rfl, hw.single hlog hmulti ?_ hstill.table, hstart.trans hemit⟩
    rw [hstill.highest, num_new hT hw hpre hlog]

end Walk

section Traverse

variable (z : Codec) (o : TreeOptions) (T : HostTree)

/-- What the entries of a directory add to its size. -/
def Entries.dentBytes : Entries → ℕ
  | .nil => 0
  | .file name _ rest => dentSize name+rest.dentBytes
  | .dir name _ _ rest => dentSize name+rest.dentBytes

/-- The inode node of a directory. -/
def dirIno (st : Stat) (d : HostIno × Entries) : InoNode :=
  inoNode o (st.asDir (UBIFS_INO_NODE_SZ+d.2.dentBytes) (2+d.2.subdirs)) (T.num d.1) []
    (T.host d.1).flags 0

/-- The inode nodes that the walk writes. -/
def inosOf : Entries → List InoNode
  | .nil => []
  | .file _ h rest => inosAt o (T := T) h ++ inosOf rest
  | .dir _ h sub rest => inosOf sub ++ dirIno o T (squash o (T.host h).st) (h, sub) :: inosOf rest

def datasOf : Entries → List DataNode
  | .nil => []
  | .file _ h rest => datasAt z o (T := T) h ++ datasOf rest
  | .dir _ _ sub rest => datasOf sub ++ datasOf rest

def dentOf (l : Link) : DentNode := dentNode o (T.num l.parent) l.name (T.num l.child) l.type

/-- What the walk needs of the entries it goes through. -/
structure Entries.Ok (es : Entries) : Prop where
  dir_once : ∀ d ∈ es.dirs, T.visits.count d.1 ≤ 1
  dir_type : ∀ d ∈ es.dirs, (itype (T.host d.1).st.st_mode).isSome = false
  file : ∀ h ∈ es.files, (T.host h).IsFile
  file_links : ∀ h ∈ es.files, T.visits.count h ≤ (T.host h).st.st_nlink
  links : ∀ h ∈ es.files, T.visits.count h < 2^32

variable {o T}

theorem Entries.Ok.file_rest {name : List Byte} {h : HostIno} {rest : Entries}
    (hok : (Entries.file name h rest).Ok T) : rest.Ok T :=
  ⟨hok.dir_once, hok.dir_type, fun x hx => hok.file x (List.mem_cons_of_mem _ hx),
    fun x hx => hok.file_links x (List.mem_cons_of_mem _ hx),
    fun x hx => hok.links x (List.mem_cons_of_mem _ hx)⟩

theorem Entries.Ok.dir_sub {name : List Byte} {h : HostIno} {sub rest : Entries}
    (hok : (Entries.dir name h sub rest).Ok T) : sub.Ok T :=
  ⟨fun d hd => hok.dir_once d (List.mem_append_left _ hd),
    fun d hd => hok.dir_type d (List.mem_append_left _ hd),
    fun x hx => hok.file x (List.mem_append_left _ hx),
    fun x hx => hok.file_links x (List.mem_append_left _ hx),
    fun x hx => hok.links x (List.mem_append_left _ hx)⟩

theorem Entries.Ok.dir_rest {name : List Byte} {h : HostIno} {sub rest : Entries}
    (hok : (Entries.dir name h sub rest).Ok T) : rest.Ok T :=
  ⟨fun d hd => hok.dir_once d (List.mem_append_right _ (List.mem_cons_of_mem _ hd)),
    fun d hd => hok.dir_type d (List.mem_append_right _ (List.mem_cons_of_mem _ hd)),
    fun x hx => hok.file x (List.mem_append_right _ hx),
    fun x hx => hok.file_links x (List.mem_append_right _ hx),
    fun x hx => hok.links x (List.mem_append_right _ hx)⟩

/-- The loop over the entries of `p`, when the inodes of `log` have been visited. -/
theorem addEntries_spec (hT : T.WellFormed) (es : Entries) (p : HostIno) (size nlink : ℕ)
    (log : List HostIno) (s : Mkfs) (hok : es.Ok T) (hpre : log ++ es.visits <+: T.visits)
    (hw : Walked o T log s) :
    ∃ s', addEntries z o T.host es (T.num p) size nlink s =
        .ok (size+es.dentBytes, nlink+es.subdirs, s') ∧
      Walked o T (log ++ es.visits) s' ∧
      Emits s s' ((es.links T.host p).map (dentOf o T)) (inosOf o T es) (datasOf z o T es) := by
  induction es generalizing p size nlink log s with
  | nil =>
    refine ⟨s, rfl, ?_, emits_nodes rfl⟩
    rw [Entries.visits, List.append_nil]
    exact hw
  | file name h rest ih =>
    have hvis : log ++ (Entries.file name h rest).visits = (log ++ [h]) ++ rest.visits := by
      rw [List.append_assoc, List.singleton_append, Entries.visits]
    rw [hvis] at hpre ⊢
    have hmem : h ∈ (Entries.file name h rest).files := List.mem_cons_self
    obtain ⟨s₁, hvisit, hw₁, hemit₁⟩ := addNonDir_visit z hT (hok.file h hmem) (hok.file_links h hmem)
      (hok.links h hmem) hw ((List.prefix_append _ _).trans hpre)
    obtain ⟨l, hl⟩ : ∃ l : Link, l = ⟨p, name, h, (itype (T.host h).st.st_mode).getD .reg⟩ := ⟨_, rfl⟩
    obtain ⟨s₂, hs₂⟩ : ∃ s₂, s₂ = addNode (.dent (dentOf o T l)) s₁ := ⟨_, rfl⟩
    have hw₂ : Walked o T (log ++ [h]) s₂ := by
      rw [hs₂]
      exact ⟨hw₁.highest, hw₁.nodup, hw₁.mem⟩
    have hemit₂ := hemit₁.trans (addNode_dent (dentOf o T l))
    rw [← hs₂] at hemit₂
    obtain ⟨s', hrun, hw', hemit'⟩ := ih p (size+dentSize name) nlink (log ++ [h]) s₂ hok.file_rest
      hpre hw₂
    refine ⟨s', ?_, hw', ?_⟩
    · rw [addEntries]
      dsimp only
      rw [hvisit]
      change addEntries z o T.host rest (T.num p) (size+dentSize name) nlink
        (addDentNode o (T.num p) name (T.num h) _ s₁) = _
      rw [addDentNode, show dentNode o (T.num p) name (T.num h) _ = dentOf o T l by rw [hl]; rfl,
        ← hs₂, hrun, Nat.add_assoc]
      rfl
    · have hall := hemit₂.trans hemit'
      simp only [List.append_nil, List.nil_append, List.singleton_append] at hall
      rw [hl] at hall
      exact hall
  | dir name h sub rest ihsub ihrest =>
    have hvis : log ++ (Entries.dir name h sub rest).visits =
        (log ++ [h] ++ sub.visits) ++ rest.visits := by
      rw [List.append_assoc, List.append_assoc, List.singleton_append, Entries.visits]
    rw [hvis] at hpre ⊢
    have hmem : (h, sub) ∈ (Entries.dir name h sub rest).dirs :=
      List.mem_append_right _ List.mem_cons_self
    have hpre₁ : log ++ [h] ++ sub.visits <+: T.visits := (List.prefix_append _ _).trans hpre
    have hpre₀ : log ++ [h] <+: T.visits := (List.prefix_append _ _).trans hpre₁
    have hlog := not_mem_log hpre₀ (hok.dir_once _ hmem)
    have hmulti : ¬ T.Multi h := fun hf => by
      have := hok.dir_type _ hmem
      rw [hf.1] at this
      cases this
    have hnum := num_new hT hw hpre₀ hlog
    obtain ⟨s₀, hs₀⟩ : ∃ s₀ : Mkfs, s₀ = { s with highest_inum := T.num h
                                                  max_sqnum := s.max_sqnum+1 } := ⟨_, rfl⟩
    have hw₀ : Walked o T (log ++ [h]) s₀ := by
      rw [hs₀]
      exact hw.single hlog hmulti hnum.symm rfl
    have hemit₀ : Emits s s₀ [] [] [] := by
      rw [hs₀]
      exact emits_nodes rfl
    obtain ⟨s₁, hsub, hw₁, hemit₁⟩ := ihsub h UBIFS_INO_NODE_SZ 2 (log ++ [h]) s₀ hok.dir_sub hpre₁ hw₀
    obtain ⟨s₂, hs₂⟩ : ∃ s₂ : Mkfs, s₂ = { s₁ with creat_sqnum := s.max_sqnum+1 } := ⟨_, rfl⟩
    have hemit₂ : Emits s₁ s₂ [] [] [] := by
      rw [hs₂]
      exact emits_nodes rfl
    obtain ⟨s₃, hs₃⟩ : ∃ s₃, s₃ = addDirInode o (T.host h) (T.num h)
      (UBIFS_INO_NODE_SZ+sub.dentBytes) (2+sub.subdirs) (squash o (T.host h).st) s₂ := ⟨_, rfl⟩
    have hemit₃ : Emits s₂ s₃ [] [dirIno o T (squash o (T.host h).st) (h, sub)] [] := by
      rw [hs₃]
      exact addInodeWithData_emits o _ _ _ _
    obtain ⟨s₄, hs₄⟩ : ∃ s₄, s₄ = addNode (.dent (dentOf o T ⟨p, name, h, .dir⟩)) s₃ := ⟨_, rfl⟩
    have hemit₄ : Emits s₃ s₄ [dentOf o T ⟨p, name, h, .dir⟩] [] [] := by
      rw [hs₄]
      exact addNode_dent _
    have hw₄ : Walked o T (log ++ [h] ++ sub.visits) s₄ := by
      rw [hs₄, hs₃, hs₂]
      exact ⟨hw₁.highest, hw₁.nodup, hw₁.mem⟩
    obtain ⟨s', hrun, hw', hemit'⟩ := ihrest p (size+dentSize name) (nlink+1)
      (log ++ [h] ++ sub.visits) s₄ hok.dir_rest hpre hw₄
    refine ⟨s', ?_, hw', ?_⟩
    · rw [addEntries]
      dsimp only
      rw [hnum, ← hs₀, hsub]
      change addEntries z o T.host rest (T.num p) (size+dentSize name) (nlink+1)
        (addDentNode o (T.num p) name (T.num h) .dir (addDirInode o (T.host h) (T.num h)
          (UBIFS_INO_NODE_SZ+sub.dentBytes) (2+sub.subdirs) (squash o (T.host h).st)
          { s₁ with creat_sqnum := s.max_sqnum+1 })) = _
      rw [← hs₂, ← hs₃, addDentNode,
        show dentNode o (T.num p) name (T.num h) .dir = dentOf o T ⟨p, name, h, .dir⟩ from rfl,
        ← hs₄, hrun, Nat.add_assoc, Nat.add_assoc, Nat.add_comm 1]
      rfl
    · have hall := ((((hemit₀.trans hemit₁).trans hemit₂).trans hemit₃).trans hemit₄).trans hemit'
      simp only [List.append_nil, List.nil_append, List.append_assoc, List.singleton_append] at hall
      rw [Entries.links, List.map_append, List.map_cons]
      exact hall

end Traverse

section Whole

variable (z : Codec) (o : TreeOptions) (T : HostTree)

/-- The inode node of a file from the table. -/
def linkedIno (h : HostIno) : InoNode := fileIno o (T.host h) (T.num h) (T.visits.count h)

variable {o T}

/-- The files of the table are written with the links that were counted. -/
theorem addMultiLinked_spec (M : List InumMapping) (s : Mkfs)
    (hM : ∀ im ∈ M, im = mappingOf o T T.visits im.ino ∧ (T.host im.ino).IsFile ∧
      0 < T.visits.count im.ino ∧ T.visits.count im.ino < 2^32) :
    ∃ s', M.foldlM (fun s im => (addNonDir z o T.host im.path_name im.st im.use_inum im.use_nlink s).map
        fun r => r.2.2) s = .ok s' ∧ Still s s' ∧
      Emits s s' [] (M.map fun im => linkedIno o T im.ino)
        (M.flatMap fun im => fileDatas z o (T.host im.ino) (T.num im.ino)) := by
  induction M generalizing s with
  | nil => exact ⟨s, rfl, ⟨rfl, rfl⟩, emits_nodes rfl⟩
  | cons im M ih =>
    obtain ⟨heq, hf, hpos, hlt⟩ := hM im List.mem_cons_self
    obtain ⟨type, ht⟩ := Option.isSome_iff_exists.mp hf.type
    have hcount : (BitVec.ofNat 32 (T.visits.count im.ino)).toNat = T.visits.count im.ino := by
      rw [BitVec.toNat_ofNat, Nat.mod_eq_of_lt hlt]
    have hne : BitVec.ofNat 32 (T.visits.count im.ino) ≠ 0#32 := by
      intro hz
      rw [hz] at hcount
      exact absurd hcount (by rw [BitVec.toNat_ofNat, Nat.zero_mod]; omega)
    obtain ⟨s₁, hwrite, hstill₁, hemit₁⟩ :=
      writeNonDir_spec z o T.host hf ht (T.num im.ino) (T.visits.count im.ino) s
    have hadd : addNonDir z o T.host im.path_name im.st im.use_inum im.use_nlink s =
        .ok (T.num im.ino, type, s₁) := by
      rw [heq]
      change addNonDir z o T.host im.ino (squash o (T.host im.ino).st) (T.num im.ino)
        (BitVec.ofNat 32 (T.visits.count im.ino)) s = _
      rw [addNonDir, squash_mode, ht]
      dsimp only
      rw [if_pos hne, hcount, hwrite]
      rfl
    obtain ⟨s', hrun, hstill, hemit⟩ := ih s₁ fun im' h => hM im' (List.mem_cons_of_mem _ h)
    refine ⟨s', ?_, hstill₁.trans hstill, hemit₁.trans hemit⟩
    rw [List.foldlM_cons, hadd]
    exact hrun

/-- The entries of the last bucket first, for runs that are evaluated. -/
def gather (t : ℕ → List InumMapping) : ℕ → List InumMapping → List InumMapping
  | 0, acc => acc
  | i+1, acc => gather t i (t i ++ acc)

theorem gather_eq (t : ℕ → List InumMapping) (n : ℕ) (acc : List InumMapping) :
    gather t n acc = (List.range n).flatMap t ++ acc := by
  induction n generalizing acc with
  | zero => rfl
  | succ n ih =>
    rw [gather, ih, List.range_succ, List.flatMap_append, List.flatMap_singleton, List.append_assoc]

theorem mappings_eq_gather (t : ℕ → List InumMapping) : mappings t = gather t HASH_TABLE_SIZE [] := by
  rw [gather_eq, List.append_nil, mappings]

/-- The table as one list: its inodes are the files with several links that were visited. -/
theorem mappings_mem {log : List HostIno} {s : Mkfs} (hw : Walked o T log s) (e : InumMapping) :
    e ∈ mappings s.hash_table ↔ e.ino ∈ log ∧ T.Multi e.ino ∧ e = mappingOf o T log e.ino := by
  rw [mappings, List.mem_flatMap]
  constructor
  · rintro ⟨k, -, he⟩
    exact ((hw.mem k e).mp he).2
  · intro he
    exact ⟨e.ino.ino%HASH_TABLE_SIZE, List.mem_range.mpr (Nat.mod_lt _ (by decide)),
      (hw.mem _ e).mpr ⟨rfl, he⟩⟩

theorem mappings_nodup {log : List HostIno} {s : Mkfs} (hw : Walked o T log s) :
    ((mappings s.hash_table).map InumMapping.ino).Nodup := by
  rw [mappings, List.map_flatMap, List.nodup_flatMap]
  refine ⟨fun k _ => hw.nodup k, List.nodup_range.imp ?_⟩
  intro j k hne
  apply List.disjoint_left.mpr
  intro h hj hk
  obtain ⟨e, he, rfl⟩ := List.mem_map.mp hj
  obtain ⟨e', he', hino⟩ := List.mem_map.mp hk
  have h₁ := ((hw.mem j e).mp he).1
  have h₂ := ((hw.mem k e').mp he').1
  rw [hino] at h₂
  exact hne (h₁.symm.trans h₂)

theorem visits_cases {es : Entries} {h : HostIno} (hh : h ∈ es.visits) :
    h ∈ es.files ∨ ∃ d ∈ es.dirs, d.1 = h := by
  induction es with
  | nil => cases hh
  | file name h' rest ih =>
    rcases List.mem_cons.mp hh with rfl | hh
    · exact Or.inl List.mem_cons_self
    · exact (ih hh).imp (List.mem_cons_of_mem _) id
  | dir name h' sub rest ihsub ihrest =>
    rcases List.mem_cons.mp hh with rfl | hh
    · exact Or.inr ⟨_, List.mem_append_right _ List.mem_cons_self, rfl⟩
    · rcases List.mem_append.mp hh with hh | hh
      · rcases ihsub hh with hf | ⟨d, hd, rfl⟩
        · exact Or.inl (List.mem_append_left _ hf)
        · exact Or.inr ⟨d, List.mem_append_left _ hd, rfl⟩
      · rcases ihrest hh with hf | ⟨d, hd, rfl⟩
        · exact Or.inl (List.mem_append_right _ hf)
        · exact Or.inr ⟨d, List.mem_append_right _ (List.mem_cons_of_mem _ hd), rfl⟩

/-- A directory is none of the other types. -/
theorem itype_dir {mode : BitVec 32} (h : S_ISDIR mode) : itype mode = none := by
  have hd : mode &&& S_IFMT = 0o040000#32 := of_decide_eq_true h
  rw [itype, hd]
  decide

theorem dir_not_file (hT : T.WellFormed) {d : HostIno × Entries} (hd : d ∈ T.dirs) {h : HostIno}
    (hh : h ∈ T.files) : d.1 ≠ h := by
  rintro rfl
  have := (hT.file _ hh).type
  rw [itype_dir (hT.dir_type d hd)] at this
  cases this

/-- A file that is visited at its only link is visited once. -/
theorem visits_once (hT : T.WellFormed) {h : HostIno} (hm : ¬ T.Multi h) : T.visits.count h ≤ 1 := by
  by_cases hh : h ∈ T.visits
  · rcases visits_cases hh with hf | ⟨d, hd, rfl⟩
    · have := hT.file_links h hf
      have hle : ¬ 1 < (T.host h).st.st_nlink := fun hlt => hm ⟨(hT.file h hf).type, hlt⟩
      omega
    · exact hT.dir_once d hd
  · rw [List.count_eq_zero.mpr hh]
    exact Nat.zero_le 1

/-- All that `write_data` leaves. `M` are the inodes of the table. -/
structure Written (s : Mkfs) (M : List HostIno) : Prop where
  highest : s.highest_inum = UBIFS_FIRST_INO+(firsts T.visits).length
  dents : s.dents = T.links.map (dentOf o T)
  inos : s.inos.map InoNode.undated = inosOf o T T.entries ++
    dirIno o T (T.host T.root).st (T.root, T.entries) :: M.map (linkedIno o T)
  datas : s.datas = datasOf z o T T.entries ++ M.flatMap fun h => fileDatas z o (T.host h) (T.num h)
  nodup : M.Nodup
  mem : ∀ h, h ∈ M ↔ h ∈ T.visits ∧ T.Multi h

theorem writeData_spec (hT : T.WellFormed) (hlinks : ∀ h ∈ T.files, T.visits.count h < 2^32)
    (max_sqnum : ℕ) :
    ∃ s M, writeData z o T max_sqnum = .ok s ∧ Written (T := T) (o := o) z s M := by
  have hok : T.entries.Ok T := by
    refine ⟨hT.dir_once, fun d hd => ?_, hT.file, hT.file_links, hlinks⟩
    rw [itype_dir (hT.dir_type d (List.mem_cons_of_mem _ hd))]
    rfl
  obtain ⟨s₀, hs₀⟩ : ∃ s₀ : Mkfs, s₀ = ⟨UBIFS_FIRST_INO, max_sqnum+1, 0, fun _ => [], []⟩ := ⟨_, rfl⟩
  have hw₀ : Walked o T [] s₀ := by
    rw [hs₀]
    refine ⟨rfl, fun k => List.nodup_nil, fun k e => ?_⟩
    exact iff_of_false List.not_mem_nil fun hf => List.not_mem_nil hf.2.1
  obtain ⟨s₁, hrun, hw₁, hemit₁⟩ := addEntries_spec z hT T.entries T.root UBIFS_INO_NODE_SZ 2 [] s₀
    hok (List.prefix_refl _) hw₀
  rw [List.nil_append] at hw₁
  have hroot : T.num T.root = UBIFS_ROOT_INO := if_pos rfl
  obtain ⟨s₂, hs₂⟩ : ∃ s₂, s₂ = addDirInode o (T.host T.root) (T.num T.root)
    (UBIFS_INO_NODE_SZ+T.entries.dentBytes) (2+T.entries.subdirs) (T.host T.root).st
    { s₁ with creat_sqnum := max_sqnum+1 } := ⟨_, rfl⟩
  have hdir : addDirectory z o T.host T.root (T.host T.root).st T.entries UBIFS_ROOT_INO
      ⟨UBIFS_FIRST_INO, max_sqnum, 0, fun _ => [], []⟩ = .ok s₂ := by
    unfold addDirectory
    dsimp only
    rw [← hs₀, ← hroot, hrun, hs₂]
    rfl
  have hwrite : writeData z o T max_sqnum = addMultiLinkedFiles z o T.host s₂ := by
    rw [writeData, hdir]
    exact pure_bind s₂ (addMultiLinkedFiles z o T.host)
  have hw₂ : Walked o T T.visits s₂ := by
    rw [hs₂]
    exact ⟨hw₁.highest, hw₁.nodup, hw₁.mem⟩
  have hemit₂ : Emits s₁ s₂ [] [dirIno o T (T.host T.root).st (T.root, T.entries)] [] := by
    have hstart : Emits s₁ { s₁ with creat_sqnum := max_sqnum+1 } [] [] [] := emits_nodes rfl
    rw [hs₂]
    exact hstart.trans (addInodeWithData_emits o _ _ _ _)
  have hM : ∀ im ∈ mappings s₂.hash_table, im = mappingOf o T T.visits im.ino ∧
      (T.host im.ino).IsFile ∧ 0 < T.visits.count im.ino ∧ T.visits.count im.ino < 2^32 := by
    intro im him
    obtain ⟨hlog, hm, heq⟩ := (mappings_mem hw₂ im).mp him
    rcases visits_cases hlog with hf | ⟨d, hd, hdi⟩
    · exact ⟨heq, hT.file _ hf, List.count_pos_iff.mpr hlog, hlinks _ hf⟩
    · have := hm.1
      rw [← hdi, itype_dir (hT.dir_type d (List.mem_cons_of_mem _ hd))] at this
      cases this
  obtain ⟨s', hmulti, hstill, hemit⟩ := addMultiLinked_spec z (mappings s₂.hash_table) s₂ hM
  have hall := (hemit₁.trans hemit₂).trans hemit
  have hempty : s₀.nodes = [] := by rw [hs₀]
  refine ⟨s', (mappings s₂.hash_table).map InumMapping.ino, hwrite.trans hmulti, ?_, ?_, ?_, ?_,
    mappings_nodup hw₂, fun h => ?_⟩
  · rw [hstill.highest, hw₂.highest]
  · rw [hall.dents, Mkfs.dents, hempty, List.append_nil, List.append_nil]
    rfl
  · rw [hall.inos, Mkfs.inos, hempty, List.map_map, List.append_assoc]
    rfl
  · rw [hall.datas, Mkfs.datas, hempty, List.append_nil, List.flatMap_map]
    rfl
  · rw [List.mem_map]
    constructor
    · rintro ⟨im, him, rfl⟩
      obtain ⟨hlog, hm, -⟩ := (mappings_mem hw₂ im).mp him
      exact ⟨hlog, hm⟩
    · rintro ⟨hlog, hm⟩
      exact ⟨mappingOf o T T.visits h, (mappings_mem hw₂ _).mpr ⟨hlog, hm, rfl⟩, rfl⟩

end Whole

section Numbers

variable {T : HostTree} {o : TreeOptions}

theorem mem_inodes_of_visit {h : HostIno} (hh : h ∈ T.visits) : h ∈ T.inodes :=
  List.mem_cons_of_mem _ (mem_firsts.mpr hh)

theorem num_inj (hT : T.WellFormed) : ∀ h ∈ T.inodes, ∀ h' ∈ T.inodes, T.num h = T.num h' → h = h' := by
  intro h hh h' hh' heq
  rcases List.mem_cons.mp hh with rfl | hv <;> rcases List.mem_cons.mp hh' with rfl | hv'
  · rfl
  · rw [num_visited hT (mem_firsts.mp hv'), HostTree.num, if_pos rfl, UBIFS_ROOT_INO,
      UBIFS_FIRST_INO] at heq
    omega
  · rw [num_visited hT (mem_firsts.mp hv), HostTree.num, if_pos rfl, UBIFS_ROOT_INO,
      UBIFS_FIRST_INO] at heq
    omega
  · rw [num_visited hT (mem_firsts.mp hv), num_visited hT (mem_firsts.mp hv')] at heq
    exact (List.idxOf_inj hv).mp (Nat.add_left_cancel heq)

theorem num_le (hT : T.WellFormed) {h : HostIno} (hh : h ∈ T.inodes) :
    T.num h ≤ UBIFS_FIRST_INO+(firsts T.visits).length := by
  rcases List.mem_cons.mp hh with rfl | hv
  · rw [HostTree.num, if_pos rfl]
    exact (show UBIFS_ROOT_INO ≤ UBIFS_FIRST_INO by decide).trans (Nat.le_add_right _ _)
  · have := List.idxOf_lt_length_of_mem hv
    rw [num_visited hT (mem_firsts.mp hv)]
    omega

theorem files_sublist (es : Entries) : es.files.Sublist es.visits := by
  induction es with
  | nil => exact List.Sublist.refl _
  | file name h rest ih => exact ih.cons_cons h
  | dir name h sub rest ihsub ihrest => exact (ihsub.append ihrest).cons h

theorem file_visited {h : HostIno} (hh : h ∈ T.files) : h ∈ T.visits := (files_sublist _).subset hh

theorem dirs_visited (es : Entries) {d : HostIno × Entries} (hd : d ∈ es.dirs) : d.1 ∈ es.visits := by
  induction es with
  | nil => cases hd
  | file name h rest ih => exact List.mem_cons_of_mem _ (ih hd)
  | dir name h sub rest ihsub ihrest =>
    rcases List.mem_append.mp hd with hd | hd
    · exact List.mem_cons_of_mem _ (List.mem_append_left _ (ihsub hd))
    · rcases List.mem_cons.mp hd with rfl | hd
      · exact List.mem_cons_self
      · exact List.mem_cons_of_mem _ (List.mem_append_right _ (ihrest hd))

theorem dirs_sublist_perm (es : Entries) : List.Subperm (es.dirs.map Prod.fst) es.visits := by
  induction es with
  | nil => exact List.Subperm.refl _
  | file name h rest ih => exact ih.trans (List.sublist_cons_self h _).subperm
  | dir name h sub rest ihsub ihrest =>
    rw [Entries.dirs, List.map_append, List.map_cons]
    refine List.perm_middle.subperm.trans ?_
    exact (List.subperm_cons h).mpr (List.Subperm.append ihsub ihrest)

theorem dir_mem_inodes {d : HostIno × Entries} (hd : d ∈ T.dirs) : d.1 ∈ T.inodes := by
  rcases List.mem_cons.mp hd with rfl | hd
  · exact List.mem_cons_self
  · exact mem_inodes_of_visit (dirs_visited _ hd)

/-- No two directories are the same. -/
theorem dirs_nodup (hT : T.WellFormed) : (T.dirs.map Prod.fst).Nodup := by
  rw [HostTree.dirs, List.map_cons, List.nodup_cons]
  constructor
  · intro hmem
    obtain ⟨d, hd, heq⟩ := List.mem_map.mp hmem
    have hroot : d.1 = T.root := heq
    exact hT.root_once (hroot ▸ dirs_visited _ hd)
  · rw [List.nodup_iff_count_le_one]
    intro h
    by_cases hh : h ∈ T.entries.dirs.map Prod.fst
    · obtain ⟨d, hd, rfl⟩ := List.mem_map.mp hh
      exact ((dirs_sublist_perm T.entries).count_le _).trans (hT.dir_once d hd)
    · rw [List.count_eq_zero.mpr hh]
      exact Nat.zero_le 1

theorem dir_unique (hT : T.WellFormed) {d d' : HostIno × Entries} (hd : d ∈ T.dirs) (hd' : d' ∈ T.dirs)
    (h : d.1 = d'.1) : d = d' :=
  List.inj_on_of_nodup_map (dirs_nodup hT) hd hd' h

/-- Every name leads to what the walk visits. -/
theorem links_child_perm (host : HostIno → HostInode) (es : Entries) (p : HostIno) :
    ((es.links host p).map Link.child).Perm es.visits := by
  induction es generalizing p with
  | nil => exact List.Perm.refl _
  | file name h rest ih => exact (ih p).cons h
  | dir name h sub rest ihsub ihrest =>
    rw [Entries.links, List.map_append, List.map_cons]
    exact List.perm_middle.trans (((ihsub h).append (ihrest p)).cons h)

theorem links_parent (host : HostIno → HostInode) (es : Entries) (p : HostIno) {l : Link}
    (hl : l ∈ es.links host p) : l.parent = p ∨ ∃ d ∈ es.dirs, d.1 = l.parent := by
  induction es generalizing p with
  | nil => cases hl
  | file name h rest ih =>
    rcases List.mem_cons.mp hl with rfl | hl
    · exact Or.inl rfl
    · exact ih p hl
  | dir name h sub rest ihsub ihrest =>
    have hself : (h, sub) ∈ (Entries.dir name h sub rest).dirs :=
      List.mem_append_right _ List.mem_cons_self
    rcases List.mem_append.mp hl with hl | hl
    · rcases ihsub h hl with heq | ⟨d, hd, heq⟩
      · exact Or.inr ⟨_, hself, heq.symm⟩
      · exact Or.inr ⟨d, List.mem_append_left _ hd, heq⟩
    · rcases List.mem_cons.mp hl with rfl | hl
      · exact Or.inl rfl
      · rcases ihrest p hl with heq | ⟨d, hd, heq⟩
        · exact Or.inl heq
        · exact Or.inr ⟨d, List.mem_append_right _ (List.mem_cons_of_mem _ hd), heq⟩

theorem link_parent_mem {l : Link} (hl : l ∈ T.links) : l.parent ∈ T.inodes := by
  rcases links_parent _ _ _ hl with heq | ⟨d, hd, heq⟩
  · rw [heq]
    exact List.mem_cons_self
  · rw [← heq]
    exact dir_mem_inodes (List.mem_cons_of_mem _ hd)

theorem link_child_mem {l : Link} (hl : l ∈ T.links) : l.child ∈ T.inodes :=
  mem_inodes_of_visit ((links_child_perm _ _ _).subset (List.mem_map_of_mem hl))

/-- The names of a file, counted at what they lead to. -/
theorem links_count {num : HostIno → ℕ}
    (hinj : ∀ h ∈ T.inodes, ∀ h' ∈ T.inodes, num h = num h' → h = h') {h : HostIno}
    (hh : h ∈ T.inodes) : T.links.countP (fun l => num l.child = num h) = T.visits.count h := by
  rw [HostTree.visits, ← (links_child_perm T.host T.entries T.root).count_eq h, List.count,
    List.countP_map]
  refine List.countP_congr fun l hl => ?_
  simp only [Function.comp, decide_eq_true_eq, beq_iff_eq]
  exact ⟨fun heq => hinj _ (link_child_mem hl) _ hh heq, fun heq => by rw [heq]⟩

/-- What the entries of `q` take, wherever it stands in the tree. -/
theorem links_bytes (host : HostIno → HostInode) (es : Entries) (p q : HostIno) :
    (((es.links host p).filter (·.parent = q)).map fun l => dentSize l.name).sum =
      (if p = q then es.dentBytes else 0)+
      ((es.dirs.filter (·.1 = q)).map fun d => d.2.dentBytes).sum := by
  induction es generalizing p with
  | nil =>
    change 0 = (if p = q then 0 else 0)+0
    rw [ite_self, Nat.add_zero]
  | file name h rest ih =>
    have hrest := ih p
    rw [Entries.links, List.filter_cons, Entries.dentBytes, Entries.dirs]
    by_cases hpq : p = q
    · rw [if_pos (by simpa using hpq), List.map_cons, List.sum_cons, hrest, if_pos hpq, if_pos hpq,
        Nat.add_assoc]
    · rw [if_neg (by simpa using hpq), hrest, if_neg hpq, if_neg hpq]
  | dir name h sub rest ihsub ihrest =>
    have hsub := ihsub h
    have hrest := ihrest p
    rw [Entries.links, List.filter_append, List.map_append, List.sum_append, hsub, List.filter_cons,
      Entries.dentBytes, Entries.dirs, List.filter_append, List.filter_cons, List.map_append,
      List.sum_append]
    by_cases hpq : p = q <;> by_cases hhq : h = q <;>
      simp only [hpq, hhq, if_true, if_false, decide_true, decide_false, List.map_cons,
        List.sum_cons, Bool.false_eq_true] at hrest ⊢ <;> omega

theorem dir_bytes (hT : T.WellFormed) {d : HostIno × Entries} (hd : d ∈ T.dirs) :
    ((T.links.filter (·.parent = d.1)).map fun l => dentSize l.name).sum = d.2.dentBytes := by
  have hall := links_bytes T.host T.entries T.root d.1
  have hfilter : T.dirs.filter (·.1 = d.1) = [d] := by
    have hn : (T.dirs.filter (·.1 = d.1)).Nodup := (dirs_nodup hT).of_map.filter _
    refine List.perm_singleton.mp ((List.perm_ext_iff_of_nodup hn (List.nodup_singleton d)).mpr fun e => ?_)
    rw [List.mem_filter, List.mem_singleton, decide_eq_true_eq]
    exact ⟨fun he => dir_unique hT he.1 hd he.2, fun he => by rw [he]; exact ⟨hd, rfl⟩⟩
  rw [HostTree.dirs, List.filter_cons] at hfilter
  have hsum : (if T.root = d.1 then T.entries.dentBytes else 0)+
      ((T.entries.dirs.filter (·.1 = d.1)).map fun d => d.2.dentBytes).sum = d.2.dentBytes := by
    by_cases hroot : T.root = d.1
    · rw [if_pos (by simpa using hroot), List.cons.injEq] at hfilter
      rw [if_pos hroot, hfilter.2, ← hfilter.1]
      rfl
    · rw [if_neg (by simpa using hroot)] at hfilter
      rw [if_neg hroot, hfilter]
      simp
  rw [← hsum, ← hall]
  rfl

theorem subdirs_le (es : Entries) : es.subdirs ≤ es.dirs.length := by
  induction es with
  | nil => exact Nat.le_refl _
  | file name h rest ih => exact ih
  | dir name h sub rest ihsub ihrest =>
    rw [Entries.subdirs, Entries.dirs, List.length_append, List.length_cons]
    omega

theorem dirs_length_le (es : Entries) {d : HostIno × Entries} (hd : d ∈ es.dirs) :
    d.2.dirs.length ≤ es.dirs.length := by
  induction es with
  | nil => cases hd
  | file name h rest ih => exact ih hd
  | dir name h sub rest ihsub ihrest =>
    rw [Entries.dirs, List.length_append, List.length_cons]
    rcases List.mem_append.mp hd with hd | hd
    · have := ihsub hd
      omega
    · rcases List.mem_cons.mp hd with rfl | hd
      · dsimp only
        omega
      · have := ihrest hd
        omega

/-- There are no more sub-directories than inodes. -/
theorem subdirs_le_inodes (hT : T.WellFormed) {d : HostIno × Entries} (hd : d ∈ T.dirs) :
    d.2.subdirs ≤ (firsts T.visits).length := by
  have hn : (T.entries.dirs.map Prod.fst).Nodup := (List.nodup_cons.mp (dirs_nodup hT)).2
  have hsub : List.Subperm (T.entries.dirs.map Prod.fst) (firsts T.visits) := by
    refine List.subperm_of_subset hn fun h hh => ?_
    obtain ⟨d, hd, rfl⟩ := List.mem_map.mp hh
    exact mem_firsts.mpr (dirs_visited _ hd)
  have hlen := hsub.length_le
  rw [List.length_map] at hlen
  refine ((subdirs_le d.2).trans ?_).trans hlen
  rcases List.mem_cons.mp hd with rfl | hd
  · exact Nat.le_refl _
  · exact dirs_length_le _ hd

end Numbers

section Inodes

variable {z : Codec} {T : HostTree} {o : TreeOptions} {s : Mkfs} {M : List HostIno}

variable (T) in
/-- The inodes in the order in which the walk writes them. -/
def inoOrder : Entries → List HostIno
  | .nil => []
  | .file _ h rest => (if T.Multi h then [] else [h]) ++ inoOrder rest
  | .dir _ h sub rest => inoOrder sub ++ h :: inoOrder rest

theorem inosOf_keys (es : Entries) :
    (inosOf o T es).map InoNode.key = (inoOrder T es).map fun h => inoKeyInit (T.num h) := by
  induction es with
  | nil => rfl
  | file name h rest ih =>
    rw [inosOf, inoOrder, List.map_append, List.map_append, ih, inosAt]
    split <;> rfl
  | dir name h sub rest ihsub ihrest =>
    rw [inosOf, inoOrder, List.map_append, List.map_append, List.map_cons, List.map_cons, ihsub, ihrest]
    rfl

/-- All but the files of the table are written on the walk. -/
theorem inoOrder_perm (hT : T.WellFormed) (es : Entries) (hdirs : ∀ d ∈ es.dirs, d ∈ T.dirs) :
    (inoOrder T es).Perm (es.visits.filter fun h => ¬ T.Multi h) := by
  induction es with
  | nil => exact List.Perm.refl _
  | file name h rest ih =>
    rw [inoOrder, Entries.visits, List.filter_cons]
    by_cases hm : T.Multi h
    · rw [if_pos hm, if_neg (by simpa using hm)]
      exact ih hdirs
    · rw [if_neg hm, if_pos (by simpa using hm)]
      exact (ih hdirs).cons h
  | dir name h sub rest ihsub ihrest =>
    have hself : (h, sub) ∈ T.dirs := hdirs _ (List.mem_append_right _ List.mem_cons_self)
    have hm : ¬ T.Multi h := fun hf => by
      have := hf.1
      rw [itype_dir (hT.dir_type _ hself)] at this
      cases this
    rw [inoOrder, Entries.visits, List.filter_cons, if_pos (by simpa using hm), List.filter_append]
    refine List.perm_middle.trans (List.Perm.cons h ?_)
    exact (ihsub fun d hd => hdirs d (List.mem_append_left _ hd)).append
      (ihrest fun d hd => hdirs d (List.mem_append_right _ (List.mem_cons_of_mem _ hd)))

/-- Each inode of the tree is written once. -/
theorem order_perm (hT : T.WellFormed) (hw : Written (T := T) (o := o) z s M) :
    (inoOrder T T.entries ++ T.root :: M).Perm T.inodes := by
  have hwalk : (inoOrder T T.entries).Perm ((firsts T.visits).filter fun h => ¬ T.Multi h) := by
    refine (inoOrder_perm hT T.entries fun d hd => List.mem_cons_of_mem _ hd).trans ?_
    refine (List.perm_ext_iff_of_nodup ?_ ((nodup_firsts _).filter _)).mpr fun h => ?_
    · rw [List.nodup_iff_count_le_one]
      intro h
      by_cases hm : T.Multi h
      · rw [List.count_eq_zero.mpr fun hmem => by simpa [hm] using (List.mem_filter.mp hmem).2]
        exact Nat.zero_le 1
      · exact (List.filter_sublist.count_le h).trans (visits_once hT hm)
    · rw [List.mem_filter, List.mem_filter, mem_firsts]
      rfl
  have htable : M.Perm ((firsts T.visits).filter fun h => T.Multi h) := by
    refine (List.perm_ext_iff_of_nodup hw.nodup ((nodup_firsts _).filter _)).mpr fun h => ?_
    rw [hw.mem, List.mem_filter, mem_firsts, decide_eq_true_eq]
  refine List.perm_middle.trans (List.Perm.cons T.root ?_)
  refine ((hwalk.append htable).trans List.perm_append_comm).trans ?_
  have hsplit := List.filter_append_perm (fun h => decide (T.Multi h)) (firsts T.visits)
  simpa using hsplit

theorem undated_key (n : InoNode) : n.undated.key = n.key := rfl

theorem inos_keys (hw : Written (T := T) (o := o) z s M) :
    s.inos.map InoNode.key =
      (inoOrder T T.entries ++ T.root :: M).map fun h => inoKeyInit (T.num h) := by
  have hkeys := congrArg (List.map InoNode.key) hw.inos
  rw [List.map_map, List.map_append, inosOf_keys, List.map_cons, List.map_map] at hkeys
  rw [List.map_append, List.map_cons]
  exact hkeys

theorem inosOf_mem (es : Entries) {n : InoNode} (hn : n ∈ inosOf o T es) :
    (∃ h ∈ es.files, ¬ T.Multi h ∧ n = fileIno o (T.host h) (T.num h) 1) ∨
      ∃ d ∈ es.dirs, n = dirIno o T (squash o (T.host d.1).st) d := by
  induction es with
  | nil => cases hn
  | file name h rest ih =>
    rcases List.mem_append.mp hn with hn | hn
    · rw [inosAt] at hn
      split at hn
      · cases hn
      next hm => exact Or.inl ⟨h, List.mem_cons_self, hm, List.mem_singleton.mp hn⟩
    · rcases ih hn with ⟨h', hh', hm, heq⟩ | hd
      · exact Or.inl ⟨h', List.mem_cons_of_mem _ hh', hm, heq⟩
      · exact Or.inr hd
  | dir name h sub rest ihsub ihrest =>
    rcases List.mem_append.mp hn with hn | hn
    · rcases ihsub hn with ⟨h', hh', hm, heq⟩ | ⟨d, hd, heq⟩
      · exact Or.inl ⟨h', List.mem_append_left _ hh', hm, heq⟩
      · exact Or.inr ⟨d, List.mem_append_left _ hd, heq⟩
    · rcases List.mem_cons.mp hn with rfl | hn
      · exact Or.inr ⟨(h, sub), List.mem_append_right _ List.mem_cons_self, rfl⟩
      · rcases ihrest hn with ⟨h', hh', hm, heq⟩ | ⟨d, hd, heq⟩
        · exact Or.inl ⟨h', List.mem_append_right _ hh', hm, heq⟩
        · exact Or.inr ⟨d, List.mem_append_right _ (List.mem_cons_of_mem _ hd), heq⟩

variable (T o) in
/-- The node of a file, with its names in the tree as links, or of a directory. -/
inductive IsIno (n : InoNode) : Prop
  | file (h : HostIno) (hh : h ∈ T.files)
      (heq : n.undated = fileIno o (T.host h) (T.num h) (T.visits.count h))
  | dir (d : HostIno × Entries) (hd : d ∈ T.dirs) (st : Stat)
      (hst : st.st_mode = (T.host d.1).st.st_mode) (heq : n.undated = dirIno o T st d)

theorem inos_mem (hT : T.WellFormed) (hw : Written (T := T) (o := o) z s M) {n : InoNode}
    (hn : n ∈ s.inos) : IsIno T o n := by
  have hmem : n.undated ∈ s.inos.map InoNode.undated := List.mem_map_of_mem hn
  rw [hw.inos] at hmem
  rcases List.mem_append.mp hmem with hmem | hmem
  · rcases inosOf_mem T.entries hmem with ⟨h, hh, hm, heq⟩ | ⟨d, hd, heq⟩
    · have hone : T.visits.count h = 1 := by
        have := visits_once hT hm
        have := List.count_pos_iff.mpr (file_visited hh)
        omega
      exact .file h hh (by rw [hone, heq])
    · exact .dir d (List.mem_cons_of_mem _ hd) _ (squash_mode o _) heq
  · rcases List.mem_cons.mp hmem with heq | hmem
    · exact .dir (T.root, T.entries) List.mem_cons_self _ rfl heq
    · obtain ⟨h, hh, heq⟩ := List.mem_map.mp hmem
      obtain ⟨hv, hm⟩ := (hw.mem h).mp hh
      rcases visits_cases hv with hf | ⟨d, hd, rfl⟩
      · exact .file h hf heq.symm
      · have := hm.1
        rw [itype_dir (hT.dir_type d (List.mem_cons_of_mem _ hd))] at this
        cases this

theorem inoKeyInit_inum {n : ℕ} (hn : n < 2^32) : (inoKeyInit n).inum = n := by
  change (BitVec.ofNat 32 n).toNat = n
  rw [BitVec.toNat_ofNat, Nat.mod_eq_of_lt hn]

theorem num_lt (hT : T.WellFormed) (hF : T.FitsFormat) {h : HostIno} (hh : h ∈ T.inodes) :
    T.num h < 2^32 := (num_le hT hh).trans_lt hF.inums

/-- The node with the number of a file. -/
theorem ino_of_file (hT : T.WellFormed) (hF : T.FitsFormat) (hw : Written (T := T) (o := o) z s M)
    {n : InoNode} (hn : n ∈ s.inos) {h : HostIno} (hh : h ∈ T.files) (heq : n.key.inum = T.num h) :
    n.undated = fileIno o (T.host h) (T.num h) (T.visits.count h) := by
  have hi : h ∈ T.inodes := mem_inodes_of_visit (file_visited hh)
  cases inos_mem hT hw hn with
  | file h' hh' hn' =>
    have hi' : h' ∈ T.inodes := mem_inodes_of_visit (file_visited hh')
    rw [← undated_key, hn', show (fileIno o (T.host h') (T.num h') (T.visits.count h')).key =
      inoKeyInit (T.num h') from rfl, inoKeyInit_inum (num_lt hT hF hi')] at heq
    rw [hn', num_inj hT _ hi' _ hi heq]
  | dir d hd st hst hn' =>
    rw [← undated_key, hn', show (dirIno o T st d).key = inoKeyInit (T.num d.1) from rfl,
      inoKeyInit_inum (num_lt hT hF (dir_mem_inodes hd))] at heq
    exact absurd (num_inj hT _ (dir_mem_inodes hd) _ hi heq) (dir_not_file hT hd hh)

/-- The node with the number of a directory. -/
theorem ino_of_dir (hT : T.WellFormed) (hF : T.FitsFormat) (hw : Written (T := T) (o := o) z s M)
    {n : InoNode} (hn : n ∈ s.inos) {d : HostIno × Entries} (hd : d ∈ T.dirs)
    (heq : n.key.inum = T.num d.1) :
    ∃ st, st.st_mode = (T.host d.1).st.st_mode ∧ n.undated = dirIno o T st d := by
  have hi := dir_mem_inodes hd
  cases inos_mem hT hw hn with
  | file h' hh' hn' =>
    have hi' : h' ∈ T.inodes := mem_inodes_of_visit (file_visited hh')
    rw [← undated_key, hn', show (fileIno o (T.host h') (T.num h') (T.visits.count h')).key =
      inoKeyInit (T.num h') from rfl, inoKeyInit_inum (num_lt hT hF hi')] at heq
    exact absurd (num_inj hT _ hi' _ hi heq).symm (dir_not_file hT hd hh')
  | dir d' hd' st hst hn' =>
    rw [← undated_key, hn', show (dirIno o T st d').key = inoKeyInit (T.num d'.1) from rfl,
      inoKeyInit_inum (num_lt hT hF (dir_mem_inodes hd'))] at heq
    have hdd := dir_unique hT hd' hd (num_inj hT _ (dir_mem_inodes hd') _ hi heq)
    rw [hdd] at hst hn'
    exact ⟨st, hst, hn'⟩

end Inodes

section Data

variable {z : Codec} {T : HostTree} {o : TreeOptions} {s : Mkfs} {M : List HostIno} {i : HostInode}

theorem datasOf_eq (es : Entries) :
    datasOf z o T es = (es.files.filter fun h => ¬ T.Multi h).flatMap fun h =>
      fileDatas z o (T.host h) (T.num h) := by
  induction es with
  | nil => rfl
  | file name h rest ih =>
    rw [datasOf, Entries.files, List.filter_cons, ih, datasAt]
    by_cases hm : T.Multi h
    · rw [if_pos hm, if_neg (by simpa using hm)]
      rfl
    · rw [if_neg hm, if_pos (by simpa using hm), List.flatMap_cons]
  | dir name h sub rest ihsub ihrest =>
    rw [datasOf, Entries.files, List.filter_append, List.flatMap_append, ihsub, ihrest]

/-- The data nodes go over all files, each once. -/
theorem datas_eq (hT : T.WellFormed) (hw : Written (T := T) (o := o) z s M) :
    ∃ fs : List HostIno, fs.Nodup ∧ (∀ h, h ∈ fs ↔ h ∈ T.files) ∧
      s.datas = fs.flatMap fun h => fileDatas z o (T.host h) (T.num h) := by
  refine ⟨(T.files.filter fun h => ¬ T.Multi h) ++ M, ?_, fun h => ?_, ?_⟩
  · refine List.Nodup.append ?_ hw.nodup ?_
    · rw [List.nodup_iff_count_le_one]
      intro h
      by_cases hm : T.Multi h
      · rw [List.count_eq_zero.mpr fun hmem => by simpa [hm] using (List.mem_filter.mp hmem).2]
        exact Nat.zero_le 1
      · exact (List.filter_sublist.count_le h).trans
          (((files_sublist T.entries).count_le h).trans (visits_once hT hm))
    · rw [List.disjoint_left]
      intro h hf hM
      have hm := ((hw.mem h).mp hM).2
      simpa [hm] using (List.mem_filter.mp hf).2
  · rw [List.mem_append, List.mem_filter, hw.mem]
    constructor
    · rintro (⟨hf, -⟩ | ⟨hv, hm⟩)
      · exact hf
      · rcases visits_cases hv with hf | ⟨d, hd, rfl⟩
        · exact hf
        · have := hm.1
          rw [itype_dir (hT.dir_type d (List.mem_cons_of_mem _ hd))] at this
          cases this
    · intro hf
      by_cases hm : T.Multi h
      · exact Or.inr ⟨file_visited hf, hm⟩
      · exact Or.inl ⟨hf, by simpa using hm⟩
  · rw [hw.datas, datasOf_eq, List.flatMap_append]
    rfl

theorem block_lt (k : Key) : k.block < 2^29 := Nat.mod_lt _ (by decide)

/-- The key of a block that has 29 bits. -/
theorem dataKeyInit_fields {inum b : ℕ} (hn : inum < 2^32) (hb : b < 2^29) :
    (dataKeyInit inum (BitVec.ofNat 32 b)).inum = inum ∧
    (dataKeyInit inum (BitVec.ofNat 32 b)).type = UBIFS_DATA_KEY.toNat ∧
    (dataKeyInit inum (BitVec.ofNat 32 b)).block = b := by
  have hw : (dataKeyInit inum (BitVec.ofNat 32 b)).u32_1.toNat = 2^29+b := by
    change (BitVec.ofNat 32 b ||| (1#32 <<< 29)).toNat = 2^29+b
    rw [BitVec.toNat_or, BitVec.toNat_ofNat, Nat.mod_eq_of_lt (hb.trans (by decide)), Nat.or_comm]
    exact (Nat.two_pow_add_eq_or_of_lt hb 1).symm
  refine ⟨?_, ?_, ?_⟩
  · change (BitVec.ofNat 32 inum).toNat = inum
    rw [BitVec.toNat_ofNat, Nat.mod_eq_of_lt hn]
  · rw [Key.type, hw]
    change (2^29+b)/2^29 = 1
    omega
  · rw [Key.block, hw]
    change (2^29+b)%2^29 = b
    omega

theorem blockBuf_getElem {b j : ℕ} (hj : j < (blockBuf i b).length) :
    (blockBuf i b)[j] = i.byte (b*UBIFS_BLOCK_SIZE+j) := by
  simp only [blockBuf, readBytes, List.getElem_map, List.getElem_range]

theorem blockBuf_length (b : ℕ) :
    (blockBuf i b).length = min UBIFS_BLOCK_SIZE (i.len-b*UBIFS_BLOCK_SIZE) := by
  rw [blockBuf, readBytes, List.length_map, List.length_range]

/-- A block without zeroes only has a byte that is none. -/
theorem nonzero_byte {b : ℕ} (h : ¬ allZero (blockBuf i b)) :
    ∃ off, b*UBIFS_BLOCK_SIZE ≤ off ∧ off < i.len ∧ i.byte off ≠ 0#8 := by
  rw [allZero, List.all_eq_true] at h
  push Not at h
  obtain ⟨x, hx, hne⟩ := h
  obtain ⟨j, hj, rfl⟩ := List.getElem_of_mem hx
  have hlen := hj
  rw [blockBuf_length] at hlen
  refine ⟨b*UBIFS_BLOCK_SIZE+j, Nat.le_add_right _ _, by omega, ?_⟩
  rw [blockBuf_getElem] at hne
  exact fun hz => hne (decide_eq_true hz)

/-- The data nodes of a file are its blocks that are not zero. -/
theorem mem_fileDatas {inum : ℕ} {d : DataNode} (hd : d ∈ fileDatas z o i inum) :
    itype i.st.st_mode = some .reg ∧ ∃ b < blockCnt i.len, ¬ allZero (blockBuf i b) ∧
      d = dataNode z o inum b i.flags (blockBuf i b) := by
  rw [fileDatas] at hd
  split at hd
  next hreg =>
    refine ⟨hreg, ?_⟩
    obtain ⟨b, hb, heq⟩ := List.mem_filterMap.mp hd
    split at heq
    · cases heq
    next hz =>
      refine ⟨b, ?_, hz, (Option.some.inj heq).symm⟩
      have := List.mem_range'_1.mp hb
      omega
  · cases hd

/-- The blocks of a file have numbers of 29 bits where the rest is zero. -/
theorem block_fits (hF : T.FitsFormat) {h : HostIno} (hh : h ∈ T.files)
    (hreg : itype (T.host h).st.st_mode = some .reg) {b : ℕ}
    (hz : ¬ allZero (blockBuf (T.host h) b)) : b < 2^29 := by
  obtain ⟨off, hle, hlt, hne⟩ := nonzero_byte hz
  by_contra hb
  rw [not_lt] at hb
  refine hne (hF.blocks h hh hreg off hlt (le_trans ?_ hle))
  have := Nat.mul_le_mul_right UBIFS_BLOCK_SIZE hb
  exact this

theorem dataNode_key (inum b : ℕ) (flags : BitVec 32) (buf : List Byte) :
    (dataNode z o inum b flags buf).key = dataKeyInit inum (BitVec.ofNat 32 b) := rfl

/-- A data node by its key. -/
theorem datas_key (hT : T.WellFormed) (hF : T.FitsFormat) (hw : Written (T := T) (o := o) z s M)
    {d : DataNode} (hd : d ∈ s.datas) {h : HostIno} (hh : h ∈ T.files) {b : ℕ}
    (hinum : d.key.inum = T.num h) (hblock : d.key.block = b) :
    ¬ allZero (blockBuf (T.host h) b) ∧
      d = dataNode z o (T.num h) b (T.host h).flags (blockBuf (T.host h) b) := by
  obtain ⟨fs, -, hfs, hdatas⟩ := datas_eq hT hw
  rw [hdatas] at hd
  obtain ⟨h', hh', hd⟩ := List.mem_flatMap.mp hd
  obtain ⟨hreg, b', -, hz, rfl⟩ := mem_fileDatas hd
  have hi := mem_inodes_of_visit (file_visited hh)
  have hi' := mem_inodes_of_visit (file_visited ((hfs h').mp hh'))
  obtain ⟨hk, -, hb⟩ := dataKeyInit_fields (num_lt hT hF hi')
    (block_fits hF ((hfs h').mp hh') hreg hz)
  rw [dataNode_key] at hinum hblock
  have hhh := num_inj hT _ hi' _ hi (hk.symm.trans hinum)
  rw [hb] at hblock
  subst hhh hblock
  exact ⟨hz, rfl⟩

/-- Each block is read back. -/
theorem readBlockBack_spec (hT : T.WellFormed) (hF : T.FitsFormat)
    (hw : Written (T := T) (o := o) z s M) {h : HostIno} (hh : h ∈ T.files)
    (hreg : itype (T.host h).st.st_mode = some .reg) {b : ℕ} (hb : b < blockCnt (T.host h).len) :
    readBlockBack z s.datas (T.num h) b = some (if allZero (blockBuf (T.host h) b)
      then List.replicate UBIFS_BLOCK_SIZE 0#8 else blockBuf (T.host h) b) := by
  unfold readBlockBack
  split
  next hnone =>
    by_cases hz : allZero (blockBuf (T.host h) b)
    · rw [if_pos hz]
    · -- the node of the block would have been found
      obtain ⟨fs, -, hfs, hdatas⟩ := datas_eq hT hw
      have hmem : dataNode z o (T.num h) b (T.host h).flags (blockBuf (T.host h) b) ∈ s.datas := by
        rw [hdatas, List.mem_flatMap]
        refine ⟨h, (hfs h).mpr hh, ?_⟩
        rw [fileDatas, if_pos hreg, blockNodes, List.mem_filterMap]
        exact ⟨b, List.mem_range'_1.mpr ⟨Nat.zero_le _, by omega⟩, if_neg hz⟩
      have hkey := dataKeyInit_fields (num_lt hT hF (mem_inodes_of_visit (file_visited hh)))
        (block_fits hF hh hreg hz)
      have hno := List.find?_eq_none.mp hnone _ hmem
      rw [dataNode_key] at hno
      exact absurd (decide_eq_true hkey) hno
  next d hsome =>
    have hfound := List.find?_some hsome
    simp only [decide_eq_true_eq] at hfound
    obtain ⟨hinum, -, hblock⟩ := hfound
    obtain ⟨hz, rfl⟩ := datas_key hT hF hw (List.mem_of_find?_eq_some hsome) hh hinum hblock
    rw [if_neg hz]
    exact decompress_compressData z o.favor_lzo _ _

/-- Each byte of a file is read back. -/
theorem readBack_spec (hT : T.WellFormed) (hF : T.FitsFormat) (hw : Written (T := T) (o := o) z s M)
    {h : HostIno} (hh : h ∈ T.files) (hreg : itype (T.host h).st.st_mode = some .reg) {off : ℕ}
    (hoff : off < (T.host h).len) :
    readBack z s.datas (T.num h) off = some ((T.host h).byte off) := by
  have hdiv := Nat.div_add_mod off UBIFS_BLOCK_SIZE
  have hmod := Nat.mod_lt off (show 0 < UBIFS_BLOCK_SIZE by decide)
  have hb : off/UBIFS_BLOCK_SIZE < blockCnt (T.host h).len := by
    unfold blockCnt UBIFS_BLOCK_SIZE at *
    omega
  have hj : off%UBIFS_BLOCK_SIZE < (blockBuf (T.host h) (off/UBIFS_BLOCK_SIZE)).length := by
    rw [blockBuf_length, Nat.mul_comm]
    omega
  have hbyte : (blockBuf (T.host h) (off/UBIFS_BLOCK_SIZE)).get ⟨off%UBIFS_BLOCK_SIZE, hj⟩ =
      (T.host h).byte off := by
    rw [List.get_eq_getElem, blockBuf_getElem, Nat.mul_comm, hdiv]
  rw [readBack, readBlockBack_spec hT hF hw hh hreg hb, Option.map_some]
  congr 1
  split
  next hz =>
    have hzero := List.all_eq_true.mp hz _ (List.get_mem _ ⟨_, hj⟩)
    rw [hbyte] at hzero
    rw [of_decide_eq_true hzero, List.getD_eq_getElem?_getD, List.getElem?_replicate, if_pos hmod]
    rfl
  next =>
    rw [List.getD_eq_getElem?_getD, List.getElem?_eq_getElem hj]
    exact hbyte

/-- No two data nodes have the same key. -/
theorem datas_nodup (hT : T.WellFormed) (hF : T.FitsFormat) (hw : Written (T := T) (o := o) z s M) :
    (s.datas.map DataNode.key).Nodup := by
  obtain ⟨fs, hn, hfs, hdatas⟩ := datas_eq hT hw
  rw [hdatas, List.map_flatMap, List.nodup_flatMap]
  have hkeys {h : HostIno} (hh : h ∈ fs) {k : Key}
      (hk : k ∈ (fileDatas z o (T.host h) (T.num h)).map DataNode.key) : k.inum = T.num h := by
    obtain ⟨d, hd, rfl⟩ := List.mem_map.mp hk
    obtain ⟨hreg, b, -, hz, rfl⟩ := mem_fileDatas hd
    exact (dataKeyInit_fields (num_lt hT hF (mem_inodes_of_visit (file_visited ((hfs h).mp hh))))
      (block_fits hF ((hfs h).mp hh) hreg hz)).1
  constructor
  · intro h hh
    have hfile := (hfs h).mp hh
    rw [fileDatas]
    split
    next hreg =>
      rw [blockNodes, List.map_filterMap]
      refine List.Nodup.filterMap ?_ List.nodup_range'
      intro b b' k hk hk'
      obtain ⟨d, hd, rfl⟩ := Option.map_eq_some_iff.mp hk
      obtain ⟨d', hd', hkey⟩ := Option.map_eq_some_iff.mp hk'
      split at hd <;> cases hd
      next hz =>
        split at hd' <;> cases hd'
        next hz' =>
          have hnum := num_lt hT hF (mem_inodes_of_visit (file_visited hfile))
          have hb := (dataKeyInit_fields hnum (block_fits hF hfile hreg hz)).2.2
          have hb' := (dataKeyInit_fields hnum (block_fits hF hfile hreg hz')).2.2
          rw [← hb, ← hb', ← dataNode_key (z := z) (o := o) (T.num h) b (T.host h).flags
            (blockBuf (T.host h) b), ← hkey, dataNode_key]
    · exact List.nodup_nil
  · refine hn.imp_of_mem ?_
    intro h h' hh hh' hne
    apply List.disjoint_left.mpr
    intro k hk hk'
    refine hne (num_inj hT _ (mem_inodes_of_visit (file_visited ((hfs h).mp hh))) _
      (mem_inodes_of_visit (file_visited ((hfs h').mp hh'))) ?_)
    rw [← hkeys hh hk, ← hkeys hh' hk']

end Data

section Describe

variable {z : Codec} {T : HostTree} {o : TreeOptions} {s : Mkfs} {M : List HostIno}

theorem dentOf_entry (hT : T.WellFormed) (hF : T.FitsFormat) {l : Link} (hl : l ∈ T.links) :
    (dentOf o T l).entry = l.entry T.num := by
  have hname := hT.name l hl
  have hdir : (dentOf o T l).key.inum = T.num l.parent := by
    change (BitVec.ofNat 32 (T.num l.parent)).toNat = _
    rw [BitVec.toNat_ofNat, Nat.mod_eq_of_lt (num_lt hT hF (link_parent_mem hl))]
  have hlen : (dentOf o T l).nlen.toNat = l.name.length := by
    change (BitVec.ofNat 16 l.name.length).toNat = _
    rw [BitVec.toNat_ofNat, Nat.mod_eq_of_lt (by omega)]
  rw [DentNode.entry, hdir, hlen, Link.entry, show (dentOf o T l).name = l.name from rfl, List.take_length]
  rfl

theorem dentOf_alignedSize (hT : T.WellFormed) {l : Link} (hl : l ∈ T.links) :
    (dentOf o T l).alignedSize = dentSize l.name := by
  have hname := hT.name l hl
  have hlen : (dentOf o T l).nlen.toNat = l.name.length := by
    change (BitVec.ofNat 16 l.name.length).toNat = _
    rw [BitVec.toNat_ofNat, Nat.mod_eq_of_lt (by omega)]
  rw [DentNode.alignedSize, hlen, dentSize]

/-- What the entries of a directory take in the image. -/
theorem dents_bytes (hT : T.WellFormed) (hF : T.FitsFormat) (hw : Written (T := T) (o := o) z s M)
    {d : HostIno × Entries} (hd : d ∈ T.dirs) :
    ((s.dents.filter (·.key.inum = T.num d.1)).map DentNode.alignedSize).sum = d.2.dentBytes := by
  have hfilter : T.links.filter ((fun e : DentNode => decide (e.key.inum = T.num d.1)) ∘ dentOf o T) =
      T.links.filter (·.parent = d.1) := by
    refine List.filter_congr fun l hl => ?_
    have hentry := congrArg Entry.dir (dentOf_entry (o := o) hT hF hl)
    change (dentOf o T l).key.inum = T.num l.parent at hentry
    rw [Function.comp_apply, hentry]
    refine decide_eq_decide.mpr ⟨fun heq => ?_, fun heq => by rw [heq]⟩
    exact num_inj hT _ (link_parent_mem hl) _ (dir_mem_inodes hd) heq
  rw [hw.dents, List.filter_map, hfilter, List.map_map, ← dir_bytes hT hd]
  refine congrArg List.sum (List.map_congr_left fun l hl => ?_)
  exact dentOf_alignedSize hT (List.mem_filter.mp hl).1

theorem describes_of_fits (hT : T.WellFormed) (hF : T.FitsFormat)
    (hw : Written (T := T) (o := o) z s M) : DescribesBy z T s T.num := by
  have hlinks : s.dents.map DentNode.entry = T.links.map (Link.entry T.num) := by
    rw [hw.dents, List.map_map]
    exact List.map_congr_left fun l hl => dentOf_entry hT hF hl
  refine ⟨if_pos rfl, num_inj hT, ?_, by rw [hlinks], ?_, ?_, ?_, ?_, ?_, ?_, datas_nodup hT hF hw, ?_, ?_⟩
  case refine_1 =>
    have hinum : s.inos.map (·.key.inum) = (inoOrder T T.entries ++ T.root :: M).map T.num := by
      have hkeys := congrArg (List.map Key.inum) (inos_keys hw)
      rw [List.map_map, List.map_map] at hkeys
      refine hkeys.trans (List.map_congr_left fun h hh => ?_)
      exact inoKeyInit_inum (num_lt hT hF ((order_perm hT hw).subset hh))
    rw [hinum]
    exact (order_perm hT hw).map T.num
  case refine_2 =>
    intro h hh n hn heq
    rcases List.mem_cons.mp hh with rfl | hv
    · obtain ⟨st, hst, hn'⟩ := ino_of_dir hT hF hw hn (d := (T.root, T.entries)) List.mem_cons_self heq
      exact (congrArg InoNode.mode hn').trans hst
    · rcases visits_cases (mem_firsts.mp hv) with hf | ⟨d, hd, rfl⟩
      · have hn' := ino_of_file hT hF hw hn hf heq
        exact (congrArg InoNode.mode hn').trans (squash_mode o _)
      · obtain ⟨st, hst, hn'⟩ := ino_of_dir hT hF hw hn (List.mem_cons_of_mem _ hd) heq
        exact (congrArg InoNode.mode hn').trans hst
  case refine_3 =>
    intro h hh hlnk n hn heq
    have hdata := congrArg InoNode.data (ino_of_file hT hF hw hn hh heq)
    refine hdata.trans ?_
    change inoData (T.host h) = _
    rw [inoData, hlnk]
  case refine_4 =>
    intro h hh n hn heq
    have hn' := congrArg InoNode.nlink (ino_of_file hT hF hw hn hh heq)
    change n.nlink = BitVec.ofNat 32 (T.visits.count h) at hn'
    rw [hn', BitVec.toNat_ofNat, Nat.mod_eq_of_lt (hF.links h hh), hw.dents, List.countP_map]
    exact (links_count (num_inj hT) (mem_inodes_of_visit (file_visited hh))).symm
  case refine_5 =>
    intro d hd n hn heq
    obtain ⟨st, -, hn'⟩ := ino_of_dir hT hF hw hn hd heq
    have hlink := congrArg InoNode.nlink hn'
    change n.nlink = BitVec.ofNat 32 (2+d.2.subdirs) at hlink
    have hle := subdirs_le_inodes hT hd
    have hlt := hF.inums
    rw [UBIFS_FIRST_INO] at hlt
    rw [hlink, BitVec.toNat_ofNat, Nat.mod_eq_of_lt (by omega)]
  case refine_6 =>
    intro d hd n hn heq
    obtain ⟨st, -, hn'⟩ := ino_of_dir hT hF hw hn hd heq
    rw [dents_bytes hT hF hw hd]
    exact congrArg InoNode.size hn'
  case refine_7 =>
    intro h hh
    rw [hw.highest]
    exact num_le hT hh
  case refine_8 =>
    intro h hh hreg n hn heq
    have hsize := congrArg InoNode.size (ino_of_file hT hF hw hn hh heq)
    refine hsize.trans ?_
    change (squash o (T.host h).st).st_size = _
    rw [squash_size, (hT.file h hh).size hreg]
  case refine_9 =>
    intro h hh hreg off hoff
    exact readBack_spec hT hF hw hh hreg hoff

/-- An image that describes the tree has each number in its field. -/
theorem links_of_describes {num : HostIno → ℕ} (hd : DescribesBy z T s num) {h : HostIno}
    (hh : h ∈ T.files) : T.visits.count h < 2^32 := by
  have hi : h ∈ T.inodes := mem_inodes_of_visit (file_visited hh)
  obtain ⟨n, hn, heq⟩ := List.mem_map.mp (hd.inos.symm.subset (List.mem_map_of_mem hi))
  have hcount : s.dents.countP (·.inum = num h) = T.visits.count h := by
    rw [← links_count hd.inj hi]
    have hperm := hd.dents.countP_eq fun e => decide (e.inum = num h)
    rw [List.countP_map, List.countP_map] at hperm
    exact hperm
  rw [← hcount, ← hd.file_nlink h hh n hn heq]
  exact n.nlink.isLt

theorem blocks_of_describes {num : HostIno → ℕ} (hd : DescribesBy z T s num) {h : HostIno}
    (hh : h ∈ T.files) (hreg : itype (T.host h).st.st_mode = some .reg) {off : ℕ}
    (hoff : off < (T.host h).len) (hlarge : 2^41 ≤ off) : (T.host h).byte off = 0#8 := by
  have hread := hd.data h hh hreg off hoff
  have hblock : 2^29 ≤ off/UBIFS_BLOCK_SIZE := by
    unfold UBIFS_BLOCK_SIZE
    omega
  have hnone : s.datas.find? (fun d => d.key.inum = num h ∧ d.key.type = UBIFS_DATA_KEY.toNat ∧
      d.key.block = off/UBIFS_BLOCK_SIZE) = none := by
    rw [List.find?_eq_none]
    intro d _ hk
    have hlt := block_lt d.key
    rw [(of_decide_eq_true hk).2.2] at hlt
    exact absurd hlt (not_lt.mpr hblock)
  have hmod := Nat.mod_lt off (show 0 < UBIFS_BLOCK_SIZE by decide)
  rw [readBack, readBlockBack, hnone, Option.map_some, List.getD_eq_getElem?_getD,
    List.getElem?_replicate, if_pos hmod] at hread
  exact (Option.some.inj hread).symm

theorem inums_of_describes (hT : T.WellFormed) (hw : Written (T := T) (o := o) z s M)
    {num : HostIno → ℕ} (hd : DescribesBy z T s num) :
    UBIFS_FIRST_INO+(firsts T.visits).length < 2^32 := by
  by_contra hge
  rw [not_lt, UBIFS_FIRST_INO] at hge
  -- the inode that gets the first number of 33 bits
  have hidx : 2^32-65 < (firsts T.visits).length := by omega
  have hget : (firsts T.visits).get ⟨2^32-65, hidx⟩ ∈ firsts T.visits := List.get_mem _ _
  have hnum : T.num ((firsts T.visits).get ⟨2^32-65, hidx⟩) = 2^32 := by
    rw [num_visited hT (mem_firsts.mp hget), List.get_eq_getElem,
      List.Nodup.idxOf_getElem (nodup_firsts _), UBIFS_FIRST_INO]
    change 64+1+(2^32-65) = 2^32
    norm_num
  have hv := mem_firsts.mp hget
  obtain ⟨l, hl, hchild⟩ :=
    List.mem_map.mp ((links_child_perm T.host T.entries T.root).symm.subset hv)
  have hdent : (dentOf o T l).entry ∈ s.dents.map DentNode.entry := by
    rw [hw.dents]
    exact List.mem_map_of_mem (List.mem_map_of_mem hl)
  obtain ⟨l', hl', hentry⟩ := List.mem_map.mp (hd.dents.subset hdent)
  have hinum : num l'.child = 2^32 := by
    refine (congrArg Entry.inum hentry).trans ?_
    change T.num l.child = 2^32
    rw [hchild, hnum]
  obtain ⟨n, -, hn⟩ := List.mem_map.mp
    (hd.inos.symm.subset (List.mem_map_of_mem (f := num) (link_child_mem hl')))
  have hlt : n.key.inum < 2^32 := n.key.u32_0.isLt
  rw [hn, hinum] at hlt
  exact absurd hlt (lt_irrefl _)

/-- The tree of the host is written as nodes that describe it when all its numbers fit into the
fields of the nodes, and else not. -/
theorem tree_image_iff (hT : T.WellFormed) (max_sqnum : ℕ) :
    (∃ s, writeData z o T max_sqnum = .ok s ∧ Describes z T s) ↔ T.FitsFormat := by
  constructor
  · rintro ⟨s, hrun, num, hd⟩
    have hlinks : ∀ h ∈ T.files, T.visits.count h < 2^32 := fun h hh => links_of_describes hd hh
    obtain ⟨s', M, hrun', hw⟩ := writeData_spec z (o := o) hT hlinks max_sqnum
    rw [hrun] at hrun'
    cases hrun'
    exact ⟨inums_of_describes hT hw hd, hlinks, fun h hh hreg off hoff hlarge =>
      blocks_of_describes hd hh hreg hoff hlarge⟩
  · intro hF
    obtain ⟨s, M, hrun, hw⟩ := writeData_spec z (o := o) hT hF.links max_sqnum
    exact ⟨s, hrun, T.num, describes_of_fits hT hF hw⟩

/-- Inodes whose reads return all that is asked for. -/
def plainInode (mode : BitVec 32) (nlink len : ℕ) (byte : ℕ → Byte) (target : List Byte) :
    HostInode :=
  ⟨⟨mode, nlink, 0#32, 0#32, 0, len, 0#64, 0#64, 0#64⟩, 0#32, len, byte,
    fun off n => min n (len-off), target⟩

theorem plainInode_reads (mode : BitVec 32) (nlink len : ℕ) (byte : ℕ → Byte) (target : List Byte) :
    (plainInode mode nlink len byte target).Reads := by
  refine ⟨fun off n hn hlt => ?_, fun off n hlt => ?_, fun off n hlt => ?_, fun off n hle => ?_⟩
  · change off < len at hlt
    change 0 < min n (len-off)
    omega
  · exact Nat.min_le_left _ _
  · change off < len at hlt
    change off+min n (len-off) ≤ len
    omega
  · change len ≤ off at hle
    change min n (len-off) = 0
    omega

/-- Compressors that always give up. -/
def noCodec : Codec :=
  ⟨fun _ => none, fun _ => none, fun _ => none, fun _ => none, fun _ _ => false,
    fun _ _ h => by (cases h), fun _ _ h => by (cases h)⟩

def plainOptions : TreeOptions := ⟨.lzo, false, false, keyR5Hash⟩

/-- A directory, a file with two names and a symbolic link. -/
def smallTree : HostTree where
  host h :=
    if h.ino = 3 then plainInode 0o100644#32 2 3 (fun off => BitVec.ofNat 8 (off+1)) []
    else if h.ino = 4 then plainInode 0o120777#32 1 1 (fun _ => 0#8) [98#8]
    else plainInode 0o040755#32 3 4096 (fun _ => 0#8) []
  root := ⟨0, 1⟩
  entries := .dir [97#8] ⟨0, 2⟩ (.file [120#8] ⟨0, 3⟩ .nil)
    (.file [98#8] ⟨0, 3⟩ (.file [99#8] ⟨0, 4⟩ .nil))

theorem smallTree_wellFormed : smallTree.WellFormed := by
  refine ⟨by decide, by decide, by decide, ?_, by decide, by decide⟩
  intro h hh
  have hcases : h = ⟨0, 3⟩ ∨ h = ⟨0, 4⟩ := by
    change h ∈ [(⟨0, 3⟩ : HostIno), ⟨0, 3⟩, ⟨0, 4⟩] at hh
    simpa using hh
  rcases hcases with rfl | rfl
  · exact ⟨by decide, fun hl => absurd hl (by decide), fun _ => rfl, fun _ => plainInode_reads _ _ _ _ _⟩
  · exact ⟨by decide, fun _ => by decide, fun hr => absurd hr (by decide), fun _ => plainInode_reads _ _ _ _ _⟩

theorem smallTree_described : ∃ s, writeData noCodec plainOptions smallTree 0 = .ok s ∧
    Describes noCodec smallTree s := by
  refine (tree_image_iff smallTree_wellFormed 0).mpr ⟨by decide, by decide, ?_⟩
  intro h hh hreg off hoff hlarge
  have hcases : h = ⟨0, 3⟩ ∨ h = ⟨0, 4⟩ := by
    change h ∈ [(⟨0, 3⟩ : HostIno), ⟨0, 3⟩, ⟨0, 4⟩] at hh
    simpa using hh
  rcases hcases with rfl | rfl
  · change off < 3 at hoff
    omega
  · exact absurd hreg (by decide)

/-- A file of one byte behind two tebibytes of nothing. -/
def sparseTree : HostTree where
  host h :=
    if h.ino = 2 then plainInode 0o100644#32 1 (2^41+1) (fun off => if off = 2^41 then 1#8 else 0#8) []
    else plainInode 0o040755#32 2 4096 (fun _ => 0#8) []
  root := ⟨0, 1⟩
  entries := .file [97#8] ⟨0, 2⟩ .nil

theorem sparseTree_wellFormed : sparseTree.WellFormed := by
  refine ⟨by decide, by decide, by decide, ?_, by decide, by decide⟩
  intro h hh
  have hh : h = ⟨0, 2⟩ := List.mem_singleton.mp hh
  subst hh
  exact ⟨by decide, fun hl => absurd hl (by decide), fun _ => rfl, fun _ => plainInode_reads _ _ _ _ _⟩

/-- The node of the byte gets a key that is not that of its block. -/
theorem sparseTree_not_described : ∃ s, writeData noCodec plainOptions sparseTree 0 = .ok s ∧
    ¬ Describes noCodec sparseTree s := by
  have hfile : (⟨0, 2⟩ : HostIno) ∈ sparseTree.files := List.mem_singleton_self _
  obtain ⟨s, M, hrun, hw⟩ := writeData_spec noCodec (o := plainOptions) sparseTree_wellFormed
    (fun h hh => by rw [List.mem_singleton.mp hh]; decide) 0
  refine ⟨s, hrun, ?_⟩
  rintro ⟨num, hd⟩
  have hzero := @blocks_of_describes _ _ _ _ hd _ hfile (by decide) (2^41) (by decide) (le_refl _)
  exact absurd hzero (by decide)

end Describe

end ChipTools.Ubifs
