import ChipTools.Crc32

/-! The nodes of JFFS2 as they are stored, in either byte order. -/
namespace ChipTools.Jffs2
open Bytes

inductive Endian
  | little
  | big
deriving DecidableEq, Repr

namespace Endian

def other : Endian → Endian
  | little => big
  | big => little

/-- A number of `k` bytes: `cpu_to_je16` and `cpu_to_je32`. -/
def put : Endian → ℕ → ℕ → List Byte
  | little, k, v => le k v
  | big, k, v => be k v

/-- The number at an offset: `je16_to_cpu` and `je32_to_cpu`. -/
def get : Endian → List Byte → ℕ → ℕ → ℕ
  | little, bs, o, k => field bs o k
  | big, bs, o, k => beField bs o k

/-- The members of a struct, each with its size. -/
def puts (e : Endian) (fs : List (ℕ × ℕ)) : List Byte := fs.flatMap fun f => e.put f.1 f.2

variable (e : Endian)

@[simp] theorem other_other : e.other.other = e := by cases e <;> rfl

@[simp] theorem put_length (k v : ℕ) : (e.put k v).length = k := by
  cases e
  · exact le_length k v
  · exact be_length k v

theorem put_reverse (k v : ℕ) : (e.put k v).reverse = e.other.put k v := by
  cases e
  · rfl
  · exact List.reverse_reverse _

@[simp] theorem puts_nil : e.puts [] = [] := rfl

theorem puts_cons (f : ℕ × ℕ) (fs : List (ℕ × ℕ)) : e.puts (f :: fs) = e.put f.1 f.2 ++ e.puts fs :=
  List.flatMap_cons

theorem puts_singleton (k v : ℕ) : e.puts [(k, v)] = e.put k v := List.append_nil _

theorem puts_append (fs gs : List (ℕ × ℕ)) : e.puts (fs ++ gs) = e.puts fs ++ e.puts gs :=
  List.flatMap_append

theorem puts_length (fs : List (ℕ × ℕ)) : (e.puts fs).length = (fs.map Prod.fst).sum := by
  induction fs with
  | nil => rfl
  | cons f fs ih =>
    rw [puts_cons, List.length_append, put_length, ih, List.map_cons, List.sum_cons]

theorem get_put (k v : ℕ) (post : List Byte) : e.get (e.put k v ++ post) 0 k = v%256^k := by
  cases e
  · exact (@field_append [] _ _ _ _ rfl (le_length k v)).trans (leVal_le k v)
  · exact beField_be k v post

theorem get_skip {pre post : List Byte} {o k : ℕ} (ho : pre.length ≤ o) :
    e.get (pre ++ post) o k = e.get post (o-pre.length) k := by
  cases e
  · change field _ _ _ = field _ _ _
    unfold field
    rw [List.drop_append, List.drop_eq_nil_of_le ho, List.nil_append]
  · exact beField_skip ho

/-- The first member of a struct, which fits. -/
theorem get_puts_head {k v : ℕ} (hv : v < 256^k) (fs : List (ℕ × ℕ)) (post : List Byte) :
    e.get (e.puts ((k, v) :: fs) ++ post) 0 k = v := by
  rw [puts_cons, List.append_assoc, get_put, Nat.mod_eq_of_lt hv]

theorem get_puts_skip {w o k : ℕ} (ho : w ≤ o) (v : ℕ) (fs : List (ℕ × ℕ)) (post : List Byte) :
    e.get (e.puts ((w, v) :: fs) ++ post) o k = e.get (e.puts fs ++ post) (o-w) k := by
  rw [puts_cons, List.append_assoc, get_skip e (by rwa [put_length]), put_length]

end Endian

def JFFS2_MAGIC_BITMASK : ℕ := 0x1985
def JFFS2_NODE_ACCURATE : ℕ := 0x2000
def JFFS2_NODETYPE_DIRENT : ℕ := 0xe001
def JFFS2_NODETYPE_INODE : ℕ := 0xe002
def JFFS2_NODETYPE_CLEANMARKER : ℕ := 0x2003
def JFFS2_NODETYPE_PADDING : ℕ := 0x2004
def JFFS2_NODETYPE_SUMMARY : ℕ := 0x2006
def JFFS2_NODETYPE_XATTR : ℕ := 0xe008
def JFFS2_NODETYPE_XREF : ℕ := 0xe009
def JFFS2_SUM_MAGIC : ℕ := 0x02851885

/-- `PAD`. -/
def pad4 (n : ℕ) : ℕ := (n+3)/4*4

def crc (bs : List Byte) : ℕ := (mtdCrc32 0 bs).toNat

theorem crc_lt (bs : List Byte) : crc bs < 256^4 := (mtdCrc32 0 bs).isLt

section Nodes

variable (e : Endian)

/-- `struct jffs2_unknown_node`, with which all nodes start. -/
def header (nodetype totlen : ℕ) : List Byte :=
  let h := e.puts [(2, JFFS2_MAGIC_BITMASK), (2, nodetype), (4, totlen)]
  h ++ e.put 4 (crc h)

/-- `struct jffs2_raw_inode` and the data. -/
structure Inode where
  ino : ℕ
  version : ℕ
  mode : ℕ
  uid : ℕ
  gid : ℕ
  isize : ℕ
  atime : ℕ
  mtime : ℕ
  ctime : ℕ
  offset : ℕ
  dsize : ℕ
  compr : ℕ
  usercompr : ℕ
  flags : ℕ
  data : List Byte

namespace Inode

variable (n : Inode)

def totlen : ℕ := 68+n.data.length

def fields : List (ℕ × ℕ) :=
  [(4, n.ino), (4, n.version), (4, n.mode), (2, n.uid), (2, n.gid), (4, n.isize), (4, n.atime),
    (4, n.mtime), (4, n.ctime), (4, n.offset), (4, n.data.length), (4, n.dsize), (1, n.compr),
    (1, n.usercompr), (2, n.flags)]

def encode : List Byte :=
  let h := header e JFFS2_NODETYPE_INODE n.totlen ++ e.puts n.fields
  h ++ e.put 4 (crc n.data) ++ e.put 4 (crc h) ++ n.data

end Inode

/-- `struct jffs2_raw_dirent` and the name. -/
structure Dirent where
  pino : ℕ
  version : ℕ
  ino : ℕ
  mctime : ℕ
  type : ℕ
  unused : ℕ × ℕ
  name : List Byte

namespace Dirent

variable (n : Dirent)

def totlen : ℕ := 40+n.name.length

def fields : List (ℕ × ℕ) :=
  [(4, n.pino), (4, n.version), (4, n.ino), (4, n.mctime), (1, n.name.length), (1, n.type),
    (1, n.unused.1), (1, n.unused.2)]

def encode : List Byte :=
  let h := header e JFFS2_NODETYPE_DIRENT n.totlen ++ e.puts n.fields
  h ++ e.put 4 (crc h) ++ e.put 4 (crc n.name) ++ n.name

end Dirent

/-- `struct jffs2_raw_xattr` with the name and the value, and what is behind them up to the length
of the node. -/
structure Xattr where
  xid : ℕ
  version : ℕ
  xprefix : ℕ
  name : List Byte
  value : List Byte
  rest : List Byte

namespace Xattr

variable (n : Xattr)

def data : List Byte := n.name ++ 0#8 :: n.value

def totlen : ℕ := 32+n.data.length+n.rest.length

def fields : List (ℕ × ℕ) :=
  [(4, n.xid), (4, n.version), (1, n.xprefix), (1, n.name.length), (2, n.value.length),
    (4, crc n.data)]

def encode : List Byte :=
  let h := header e JFFS2_NODETYPE_XATTR n.totlen ++ e.puts n.fields
  h ++ e.put 4 (crc h) ++ (n.data ++ n.rest)

end Xattr

/-- `struct jffs2_raw_xref`. -/
structure Xref where
  ino : ℕ
  xid : ℕ
  xseqno : ℕ

namespace Xref

variable (n : Xref)

def fields : List (ℕ × ℕ) := [(4, n.ino), (4, n.xid), (4, n.xseqno)]

def encode : List Byte :=
  let h := header e JFFS2_NODETYPE_XREF 28 ++ e.puts n.fields
  h ++ e.put 4 (crc h)

end Xref

/-- A record of a summary. -/
inductive SumRecord
  | inode (inode version offset totlen : ℕ)
  | dirent (totlen offset pino version ino type : ℕ) (name : List Byte)
  | xattr (xid version offset totlen : ℕ)
  | xref (offset : ℕ)

namespace SumRecord

def fields : SumRecord → List (ℕ × ℕ)
  | inode i v o l => [(2, JFFS2_NODETYPE_INODE), (4, i), (4, v), (4, o), (4, l)]
  | dirent l o p v i t name =>
    [(2, JFFS2_NODETYPE_DIRENT), (4, l), (4, o), (4, p), (4, v), (4, i), (1, name.length), (1, t)]
  | xattr x v o l => [(2, JFFS2_NODETYPE_XATTR), (4, x), (4, v), (4, o), (4, l)]
  | xref o => [(2, JFFS2_NODETYPE_XREF), (4, o)]

def name : SumRecord → List Byte
  | dirent _ _ _ _ _ _ name => name
  | _ => []

def encode (r : SumRecord) : List Byte := e.puts r.fields ++ r.name

/-- `JFFS2_SUMMARY_INODE_SIZE` and so on. -/
def size (r : SumRecord) : ℕ := (r.fields.map Prod.fst).sum+r.name.length

theorem encode_length (r : SumRecord) : (r.encode e).length = r.size := by
  rw [encode, List.length_append, Endian.puts_length, size]

end SumRecord

/-- `struct jffs2_raw_summary` with its records, the bytes behind them, and the marker. -/
structure Summary where
  cln_mkr : ℕ
  padded : ℕ
  records : List SumRecord
  padding : List Byte
  offset : ℕ

namespace Summary

variable (n : Summary)

def sum : List Byte :=
  n.records.flatMap (SumRecord.encode e) ++ n.padding ++
    e.puts [(4, n.offset), (4, JFFS2_SUM_MAGIC)]

def sumLength : ℕ := (n.records.map SumRecord.size).sum+n.padding.length+8

def totlen : ℕ := 32+n.sumLength

def fields : List (ℕ × ℕ) := [(4, n.records.length), (4, n.cln_mkr), (4, n.padded)]

def encode : List Byte :=
  let h := header e JFFS2_NODETYPE_SUMMARY n.totlen ++ e.puts n.fields
  h ++ e.put 4 (crc (n.sum e)) ++ e.put 4 (crc h) ++ n.sum e

end Summary

inductive Node
  | inode (n : Inode)
  | dirent (n : Dirent)
  | xattr (n : Xattr)
  | xref (n : Xref)
  | cleanmarker (rest : List Byte)
  | padding (rest : List Byte)
  | summary (n : Summary)

namespace Node

def nodetype : Node → ℕ
  | inode _ => JFFS2_NODETYPE_INODE
  | dirent _ => JFFS2_NODETYPE_DIRENT
  | xattr _ => JFFS2_NODETYPE_XATTR
  | xref _ => JFFS2_NODETYPE_XREF
  | cleanmarker _ => JFFS2_NODETYPE_CLEANMARKER
  | padding _ => JFFS2_NODETYPE_PADDING
  | summary _ => JFFS2_NODETYPE_SUMMARY

def totlen : Node → ℕ
  | inode n => n.totlen
  | dirent n => n.totlen
  | xattr n => n.totlen
  | xref _ => 28
  | cleanmarker rest => 12+rest.length
  | padding rest => 12+rest.length
  | summary n => n.totlen

def encode : Node → List Byte
  | inode n => n.encode e
  | dirent n => n.encode e
  | xattr n => n.encode e
  | xref n => n.encode e
  | cleanmarker rest => header e JFFS2_NODETYPE_CLEANMARKER (12+rest.length) ++ rest
  | padding rest => header e JFFS2_NODETYPE_PADDING (12+rest.length) ++ rest
  | summary n => n.encode e

end Node

theorem header_length (nodetype totlen : ℕ) : (header e nodetype totlen).length = 12 := by
  unfold header
  rw [List.length_append, Endian.puts_length, Endian.put_length]
  rfl

theorem Summary.sum_length (n : Summary) : (n.sum e).length = n.sumLength := by
  have hrec : (n.records.flatMap (SumRecord.encode e)).length =
      (n.records.map SumRecord.size).sum := by
    rw [List.length_flatMap]
    congr 1
    exact List.map_congr_left fun r _ => r.encode_length e
  unfold sum sumLength
  rw [List.length_append, List.length_append, hrec, Endian.puts_length]
  rfl

/-- A node is as long as it says. -/
theorem Node.encode_length (n : Node) : (n.encode e).length = n.totlen := by
  cases n with
  | inode n =>
    have hfields : (n.fields.map Prod.fst).sum = 48 := by simp [Inode.fields]
    simp only [encode, Inode.encode, List.length_append, header_length, Endian.puts_length,
      Endian.put_length, hfields, totlen, Inode.totlen]
  | dirent n =>
    have hfields : (n.fields.map Prod.fst).sum = 20 := by simp [Dirent.fields]
    simp only [encode, Dirent.encode, List.length_append, header_length, Endian.puts_length,
      Endian.put_length, hfields, totlen, Dirent.totlen]
  | xattr n =>
    have hfields : (n.fields.map Prod.fst).sum = 16 := by simp [Xattr.fields]
    simp only [encode, Xattr.encode, List.length_append, header_length, Endian.puts_length,
      Endian.put_length, hfields, totlen, Xattr.totlen]
    omega
  | xref n =>
    have hfields : (n.fields.map Prod.fst).sum = 12 := by simp [Xref.fields]
    simp only [encode, Xref.encode, List.length_append, header_length, Endian.puts_length,
      Endian.put_length, hfields, totlen]
  | cleanmarker rest => rw [encode, List.length_append, header_length, totlen]
  | padding rest => rw [encode, List.length_append, header_length, totlen]
  | summary n =>
    have hfields : (n.fields.map Prod.fst).sum = 12 := by simp [Summary.fields]
    simp only [encode, Summary.encode, List.length_append, header_length, Endian.puts_length,
      Endian.put_length, hfields, Summary.sum_length, totlen, Summary.totlen]

theorem Node.le_totlen (n : Node) : 12 ≤ n.totlen := by
  cases n <;>
    simp only [totlen, Inode.totlen, Dirent.totlen, Xattr.totlen, Summary.totlen] <;> omega

/-- A node starts with its header. -/
theorem Node.encode_eq_header (n : Node) :
    ∃ rest, n.encode e = header e n.nodetype n.totlen ++ rest := by
  cases n with
  | inode n =>
    simp only [encode, Inode.encode, nodetype, totlen, List.append_assoc]
    exact ⟨_, rfl⟩
  | dirent n =>
    simp only [encode, Dirent.encode, nodetype, totlen, List.append_assoc]
    exact ⟨_, rfl⟩
  | xattr n =>
    simp only [encode, Xattr.encode, nodetype, totlen, List.append_assoc]
    exact ⟨_, rfl⟩
  | xref n =>
    simp only [encode, Xref.encode, nodetype, totlen, List.append_assoc]
    exact ⟨_, rfl⟩
  | cleanmarker rest => exact ⟨rest, rfl⟩
  | padding rest => exact ⟨rest, rfl⟩
  | summary n =>
    simp only [encode, Summary.encode, nodetype, totlen, List.append_assoc]
    exact ⟨_, rfl⟩

end Nodes

end ChipTools.Jffs2
