import ChipTools.Jffs2Node

/-! `mkfs.jffs2`: the nodes of a directory tree, written one behind the other into eraseblocks. -/
namespace ChipTools.Jffs2
open Bytes

section Output

/-- What `jffs2_compress` returns, and what it leaves in `*cpage_out`, `*datalen` and
`*cdatalen`. -/
structure Compressed where
  compression : ℕ
  cpage_out : List Byte
  datalen : ℕ
  cdatalen : ℕ

/-- The options, which are checked as they are read. -/
structure Config where
  target_endian : Endian
  erase_block_size : ℕ
  add_cleanmarkers : Bool
  cleanmarker_size : ℕ
  pad_fs_size : ℤ
  jffs2_compress : List Byte → ℕ → Compressed
  block_min : 0x2000 ≤ erase_block_size
  block_lt : erase_block_size < 2^31
  cleanmarker_min : 12 ≤ cleanmarker_size

/-- The image is too large for the counter `out_ofs`, or a compressor makes no progress. -/
inductive MkfsStop
  | overflow
  | unfinished
deriving DecidableEq, Repr

/-- What is written of a node: the bytes behind the value of an attribute are left to `padword`. -/
def Node.stored : Node → ℕ
  | xattr n => 32+n.data.length
  | n => n.totlen

/-- What `full_write` is called for: a node, or bytes of `0xff`. -/
inductive Write
  | node (n : Node)
  | ff (k : ℕ)

def Write.bytes (e : Endian) : Write → List Byte
  | node n => (n.encode e).take n.stored
  | ff k => List.replicate k 0xff#8

def Write.size : Write → ℕ
  | node n => n.stored
  | ff k => k

/-- `out_ofs` after some writes. -/
def outOfs (ws : List Write) : ℕ := (ws.map Write.size).sum

variable (cfg : Config)

def fullWrite (w : Write) (ws : List Write) : Except MkfsStop (List Write) :=
  if outOfs ws+w.size < 2^31 then .ok (ws ++ [w]) else .error .overflow

/-- The loop, which writes 16 bytes at a time, as one write. -/
def padblock (ws : List Write) : Except MkfsStop (List Write) :=
  if outOfs ws%cfg.erase_block_size = 0 then .ok ws
  else fullWrite (.ff (cfg.erase_block_size-outOfs ws%cfg.erase_block_size)) ws

def padword (ws : List Write) : Except MkfsStop (List Write) :=
  if outOfs ws%4 = 0 then .ok ws else fullWrite (.ff (4-outOfs ws%4)) ws

/-- The cleanmarker, with the bytes that `pad` writes behind the struct. -/
def cleanmarker : Node := .cleanmarker (List.replicate (cfg.cleanmarker_size-12) 0xff#8)

def startBlock (ws : List Write) : Except MkfsStop (List Write) :=
  if cfg.add_cleanmarkers ∧ outOfs ws%cfg.erase_block_size = 0 then do
    let ws ← fullWrite (.node (cleanmarker cfg)) ws
    padword ws
  else .ok ws

def makeRoom (req : ℕ) (ws : List Write) : Except MkfsStop (List Write) :=
  if cfg.erase_block_size < outOfs ws%cfg.erase_block_size+req then padblock cfg ws else .ok ws

def padBlockIfLessThan (req : ℕ) (ws : List Write) : Except MkfsStop (List Write) := do
  let ws ← startBlock cfg ws
  let ws ← makeRoom cfg req ws
  startBlock cfg ws

/-- A node and the bytes up to the next word. -/
def writeNode (n : Node) (ws : List Write) : Except MkfsStop (List Write) := do
  let ws ← fullWrite (.node n) ws
  padword ws

/-- How all nodes but those of file data are written. -/
def putNode (req : ℕ) (n : Node) (ws : List Write) : Except MkfsStop (List Write) := do
  let ws ← padBlockIfLessThan cfg req ws
  writeNode n ws

end Output

section Tree

/-- `struct stat`, as far as it is used. -/
structure HostStat where
  st_dev : ℕ
  st_ino : ℕ
  st_mode : ℕ
  st_uid : ℕ
  st_gid : ℕ
  st_size : ℕ
  major : ℕ
  minor : ℕ
  mtime : ℕ
deriving DecidableEq

/-- An attribute that is supported and enabled, its name without the prefix. -/
structure HostXattr where
  xprefix : ℕ
  xname : List Byte
  xvalue : List Byte
deriving DecidableEq

/-- `struct filesystem_entry`. `reads` is what `read` returns of the file, up to its end. -/
inductive HostEntry
  | mk (name : List Byte) (sb : HostStat) (link : List Byte) (reads : List (List Byte))
    (xattrs : List HostXattr) (files : List HostEntry)

namespace HostEntry

def name : HostEntry → List Byte
  | mk name _ _ _ _ _ => name

def sb : HostEntry → HostStat
  | mk _ sb _ _ _ _ => sb

def link : HostEntry → List Byte
  | mk _ _ link _ _ _ => link

def reads : HostEntry → List (List Byte)
  | mk _ _ _ reads _ _ => reads

def xattrs : HostEntry → List HostXattr
  | mk _ _ _ _ xattrs _ => xattrs

def files : HostEntry → List HostEntry
  | mk _ _ _ _ _ files => files

/-- The type bits of the mode, which are also the type of a directory entry. -/
def iftodt (e : HostEntry) : ℕ := e.sb.st_mode/4096%16

end HostEntry

def DT_FIFO : ℕ := 1
def DT_CHR : ℕ := 2
def DT_DIR : ℕ := 4
def DT_BLK : ℕ := 6
def DT_REG : ℕ := 8
def DT_LNK : ℕ := 10
def DT_SOCK : ℕ := 12

def JFFS2_MIN_DATA_LEN : ℕ := 128
def JFFS2_MAX_FILE_SIZE : ℕ := 0xFFFFFFFF
def JFFS2_MAX_SYMLINK_LEN : ℕ := 254

/-- The variables of the program. `hardlinks` is the tree with the entries that were met, by their
device and inode on the host, with the inode number that they have here. -/
structure Mkfs where
  writes : List Write
  ino : ℕ
  version : ℕ
  highest_xid : ℕ
  highest_xseqno : ℕ
  xentries : List (HostXattr × ℕ)
  hardlinks : List ((ℕ × ℕ) × ℕ)

def Mkfs.withWrites (s : Mkfs) (ws : List Write) : Mkfs := { s with writes := ws }

variable (cfg : Config)

def Mkfs.put (req : ℕ) (n : Node) (s : Mkfs) : Except MkfsStop Mkfs := do
  let ws ← putNode cfg req n s.writes
  .ok (s.withWrites ws)

/-- The static counter of the versions starts at 0. -/
def direntOf (pino version ino : ℕ) (e : HostEntry) : Dirent :=
  ⟨pino, version, ino, e.sb.mtime, e.iftodt, (0, 0), e.name⟩

def writeDirent (pino ino : ℕ) (e : HostEntry) (s : Mkfs) : Except MkfsStop Mkfs := do
  let s ← s.put cfg (40+e.name.length) (.dirent (direntOf pino s.version ino e))
  .ok { s with version := s.version+1 }

/-- An inode node of an entry. -/
def inodeOf (e : HostEntry) (ino version isize offset dsize compr usercompr : ℕ)
    (data : List Byte) : Inode :=
  ⟨ino, version, e.sb.st_mode, e.sb.st_uid, e.sb.st_gid, isize, e.sb.mtime, e.sb.mtime, e.sb.mtime,
    offset, dsize, compr, usercompr, 0, data⟩

/-- The room for data behind the struct, a number of 32 bits. -/
def roomFor (ws : List Write) : ℕ :=
  (cfg.erase_block_size-outOfs ws%cfg.erase_block_size+2^32-68)%2^32

/-- The node for the start of `tbuf`. -/
def dataNode (e : HostEntry) (ino ver offset : ℕ) (tbuf : List Byte) (space : ℕ) : Inode :=
  let c := cfg.jffs2_compress tbuf space
  let compr := c.compression%256
  inodeOf e ino ver e.sb.st_size offset (if compr = 0 then c.cdatalen else c.datalen) compr
    (c.compression/256%256) ((if compr = 0 then tbuf else c.cpage_out).take c.cdatalen)

/-- The loop over what one `read` returned, with the version and the offset of the last node. -/
def writeChunk (e : HostEntry) (ino : ℕ) :
    ℕ → List Byte → ℕ → ℕ → List Write → Except MkfsStop (ℕ × ℕ × List Write)
  | _, [], ver, offset, ws => .ok (ver, offset, ws)
  | 0, _ :: _, _, _, _ => .error .unfinished
  | k+1, b :: bs, ver, offset, ws => do
    let tbuf := b :: bs
    let ws ← padBlockIfLessThan cfg (68+JFFS2_MIN_DATA_LEN) ws
    let n := dataNode cfg e ino (ver+1) offset tbuf (min (roomFor cfg ws) tbuf.length)
    let ws ← writeNode (.inode n) ws
    writeChunk e ino k (tbuf.drop n.dsize) (ver+1) (offset+n.dsize) ws

/-- The loop over the reads. `offset` is an `unsigned int` in the program and a number here: they agree
as long as the reads have fewer than 2^32 bytes together. -/
def writeChunks (e : HostEntry) (ino : ℕ) :
    List (List Byte) → ℕ → ℕ → List Write → Except MkfsStop (ℕ × List Write)
  | [], ver, _, ws => .ok (ver, ws)
  | buf :: reads, ver, offset, ws => do
    let (ver, offset, ws) ← writeChunk cfg e ino buf.length buf ver offset ws
    writeChunks e ino reads ver offset ws

/-- The inode number of the entry is returned, and 0 for a file that is too large. -/
def writeRegularFile (pino : ℕ) (e : HostEntry) (s : Mkfs) : Except MkfsStop (ℕ × Mkfs) :=
  if JFFS2_MAX_FILE_SIZE ≤ e.sb.st_size then .ok (0, s)
  else do
    let ino := s.ino+1
    let s ← writeDirent cfg pino ino e { s with ino := ino }
    let (ver, ws) ← writeChunks cfg e ino e.reads 0 0 s.writes
    if ver = 0 then do
      let s ← (s.withWrites ws).put cfg 68 (.inode (inodeOf e ino 1 e.sb.st_size 0 0 0 0 []))
      .ok (ino, s)
    else .ok (ino, s.withWrites ws)

/-- The entries with one inode node: `write_symlink`, `write_pipe` and `write_special_file`. -/
def writeSingle (pino isize : ℕ) (data : List Byte) (e : HostEntry) (s : Mkfs) :
    Except MkfsStop (ℕ × Mkfs) := do
  let ino := s.ino+1
  let s ← writeDirent cfg pino ino e { s with ino := ino }
  let s ← s.put cfg (68+data.length) (.inode (inodeOf e ino 1 isize 0 data.length 0 0 data))
  .ok (ino, s)

def writeSymlink (pino : ℕ) (e : HostEntry) : Mkfs → Except MkfsStop (ℕ × Mkfs) :=
  writeSingle cfg pino e.sb.st_size (e.link.take JFFS2_MAX_SYMLINK_LEN) e

def writePipe (pino : ℕ) (e : HostEntry) : Mkfs → Except MkfsStop (ℕ × Mkfs) :=
  writeSingle cfg pino 0 [] e

def writeSpecialFile (pino : ℕ) (e : HostEntry) : Mkfs → Except MkfsStop (ℕ × Mkfs) :=
  writeSingle cfg pino e.sb.st_size (cfg.target_endian.put 2 (e.sb.major*256+e.sb.minor)) e

/-- The length of the node is a multiple of four. -/
def xattrOf (xid : ℕ) (x : HostXattr) : Xattr :=
  let len := 32+x.xname.length+1+x.xvalue.length
  ⟨xid, 1, x.xprefix, x.xname, x.xvalue, List.replicate (pad4 len-len) 0xff#8⟩

def createXattrEntry (x : HostXattr) (s : Mkfs) : Except MkfsStop (ℕ × Mkfs) := do
  let xid := s.highest_xid+1
  let s ← s.put cfg (32+x.xname.length+1+x.xvalue.length) (.xattr (xattrOf xid x))
  .ok (xid, { s with highest_xid := xid, xentries := (x, xid) :: s.xentries })

def findXattrEntry (x : HostXattr) (s : Mkfs) : Except MkfsStop (ℕ × Mkfs) :=
  match s.xentries.lookup x with
  | some xid => .ok (xid, s)
  | none => createXattrEntry cfg x s

def writeXattrEntry (ino : ℕ) : List HostXattr → Mkfs → Except MkfsStop Mkfs
  | [], s => .ok s
  | x :: xs, s => do
    let (xid, s) ← findXattrEntry cfg x s
    let s ← s.put cfg 28 (.xref ⟨ino, xid, s.highest_xseqno+2⟩)
    writeXattrEntry ino xs { s with highest_xseqno := s.highest_xseqno+2 }

/-- The cases of `recursive_populate_directory`; entries of other types are not in the tree. -/
def writeKind (pino : ℕ) (e : HostEntry) (s : Mkfs) : Except MkfsStop (ℕ × Mkfs) :=
  if e.iftodt = DT_DIR ∨ e.iftodt = DT_SOCK ∨ e.iftodt = DT_FIFO then writePipe cfg pino e s
  else if e.iftodt = DT_CHR ∨ e.iftodt = DT_BLK then writeSpecialFile cfg pino e s
  else if e.iftodt = DT_LNK then writeSymlink cfg pino e s
  else writeRegularFile cfg pino e s

/-- An entry that is not a link to one before it. -/
def writeNew (pino : ℕ) (e : HostEntry) (s : Mkfs) : Except MkfsStop (ℕ × Mkfs) := do
  let (ino, s) ← writeKind cfg pino e s
  let s ← writeXattrEntry cfg ino e.xattrs s
  .ok (ino, { s with hardlinks := ((e.sb.st_dev, e.sb.st_ino), ino) :: s.hardlinks })

/-- One entry of the first loop of `recursive_populate_directory`, and its inode number. -/
def writeEntry (pino : ℕ) (e : HostEntry) (s : Mkfs) : Except MkfsStop (ℕ × Mkfs) :=
  match s.hardlinks.lookup (e.sb.st_dev, e.sb.st_ino) with
  | some 0 => writeNew cfg pino e s
  | some ino => do
    let s ← writeDirent cfg pino ino e s
    .ok (ino, s)
  | none => writeNew cfg pino e s

def writeEntries (pino : ℕ) : List HostEntry → Mkfs → Except MkfsStop (List ℕ × Mkfs)
  | [], s => .ok ([], s)
  | e :: es, s => do
    let (ino, s) ← writeEntry cfg pino e s
    let (inos, s) ← writeEntries pino es s
    .ok (ino :: inos, s)

mutual

/-- `recursive_populate_directory` of a directory with a given inode number. -/
def populate (ino : ℕ) : HostEntry → Mkfs → Except MkfsStop Mkfs
  | .mk _ _ _ _ xattrs files, s => do
    let s ← writeXattrEntry cfg ino xattrs s
    let (inos, s) ← writeEntries cfg ino files s
    populateDirs inos files s

/-- The second loop. -/
def populateDirs : List ℕ → List HostEntry → Mkfs → Except MkfsStop Mkfs
  | inos, e :: es, s =>
    if e.iftodt = DT_DIR ∧ e.files ≠ [] then do
      let s ← populate (inos.headD 0) e s
      populateDirs inos.tail es s
    else populateDirs inos.tail es s
  | _, [], s => .ok s

end

/-- The loop over eraseblocks up to the size of the file system, with a bound on its passes. -/
def padCleanmarkers : ℕ → List Write → Except MkfsStop (List Write)
  | 0, _ => .error .unfinished
  | k+1, ws =>
    if (outOfs ws : ℤ) < cfg.pad_fs_size then do
      let ws ← fullWrite (.node (cleanmarker cfg)) ws
      let ws ← padblock cfg ws
      padCleanmarkers k ws
    else .ok ws

/-- The end of `create_target_filesystem`. -/
def padFs (ws : List Write) : Except MkfsStop (List Write) :=
  if cfg.pad_fs_size = -1 then padblock cfg ws
  else if cfg.pad_fs_size ≠ 0 ∧ cfg.add_cleanmarkers then do
    let ws ← padblock cfg ws
    padCleanmarkers cfg (cfg.pad_fs_size.toNat+1) ws
  else if (outOfs ws : ℤ) < cfg.pad_fs_size then
    fullWrite (.ff (cfg.pad_fs_size.toNat-outOfs ws)) ws
  else .ok ws

/-- `create_target_filesystem`: the writes and the final state. `ino` is the highest inode number
of the image of the option `-i`, and 0 without one. -/
def createTargetFilesystem (ino : ℕ) (root : HostEntry) : Except MkfsStop (Mkfs × List Write) := do
  let s ← populate cfg 1 root ⟨[], if ino = 0 then 1 else ino, 0, 0, 0, [], []⟩
  let ws ← padFs cfg s.writes
  .ok (s, ws)

end Tree

end ChipTools.Jffs2
