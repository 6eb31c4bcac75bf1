import ChipTools.Jffs2Node

/-! `jffs2dump -e`: the conversion of an image to the other byte order. Each kind of node has a
branch of its own. The branch for references to extended attributes does not write the node, and
neither does the one for nodes that are not accurate any more. -/
namespace ChipTools.Jffs2
open Bytes

section Convert

/-- `cnv_e16` and `cnv_e32` of the members of a struct, which are of the given sizes. -/
def cnv : List ℕ → List Byte → List Byte
  | [], _ => []
  | w :: ws, p => (p.take w).reverse ++ cnv ws (p.drop w)

variable (e : Endian)

/-- `cpu_to_e32`. -/
def cpuToE32 (v : ℕ) : List Byte := e.other.put 4 v

/-- The members of the header, with a new CRC. -/
def cnvHeader (p : List Byte) : List Byte :=
  let h := cnv [2, 2, 4] p
  h ++ cpuToE32 e (crc h)

/-- What is written behind a struct of `size` bytes. -/
def cnvTail (p : List Byte) (size : ℕ) : List Byte :=
  (p.drop size).take (pad4 (e.get p 4 4-size))

def cnvInode (recalccrc : Bool) (p : List Byte) : List Byte :=
  let h := cnvHeader e p ++ cnv [4, 4, 4, 2, 2, 4, 4, 4, 4, 4, 4, 4, 1, 1, 2] (p.drop 12)
  let data_crc := if recalccrc then cpuToE32 e (crc ((p.drop 68).take (e.get p 48 4)))
    else cnv [4] (p.drop 60)
  h ++ data_crc ++ cpuToE32 e (crc h) ++ cnvTail e p 68

def cnvDirent (recalccrc : Bool) (p : List Byte) : List Byte :=
  let h := cnvHeader e p ++ cnv [4, 4, 4, 4, 1, 1, 1, 1] (p.drop 12)
  let name_crc := if recalccrc then cpuToE32 e (crc ((p.drop 40).take (e.get p 28 1)))
    else cnv [4] (p.drop 36)
  h ++ cpuToE32 e (crc h) ++ name_crc ++ cnvTail e p 40

def cnvXattr (recalccrc : Bool) (p : List Byte) : List Byte :=
  let data_crc := if recalccrc then
      cpuToE32 e (crc ((p.drop 32).take (e.get p 21 1+e.get p 22 2+1)))
    else cnv [4] (p.drop 24)
  let h := cnvHeader e p ++ cnv [4, 4, 1, 1, 2] (p.drop 12) ++ data_crc
  h ++ cpuToE32 e (crc h) ++ cnvTail e p 32

/-- The node of a cleanmarker or of padding. -/
def cnvUnknown (p : List Byte) : List Byte := cnvHeader e p ++ cnvTail e p 12

/-- A record of a summary and its size; with an unknown one the program exits. -/
def cnvRecord (p : List Byte) : Option (List Byte × ℕ) :=
  let nodetype := e.get p 0 2
  if nodetype = JFFS2_NODETYPE_INODE then some (cnv [2, 4, 4, 4, 4] p, 18)
  else if nodetype = JFFS2_NODETYPE_DIRENT then
    let nsize := e.get p 22 1
    some (cnv [2, 4, 4, 4, 4, 4, 1, 1] p ++ (p.drop 24).take nsize, 24+nsize)
  else if nodetype = JFFS2_NODETYPE_XATTR then some (cnv [2, 4, 4, 4, 4] p, 18)
  else if nodetype = JFFS2_NODETYPE_XREF then some (cnv [2, 4] p, 6)
  else none

/-- The records, and `counter` behind them. -/
def cnvRecords : ℕ → List Byte → Option (List Byte × ℕ)
  | 0, _ => some ([], 0)
  | i+1, p =>
    match cnvRecord e p with
    | none => none
    | some (r, size) =>
      match cnvRecords i (p.drop size) with
      | none => none
      | some (rs, counter) => some (r ++ rs, size+counter)

def cnvSummary (p : List Byte) : Option (List Byte) :=
  let h := cnvHeader e p ++ cnv [4, 4, 4] (p.drop 12)
  let sum_len := e.get p 4 4-32-8
  match cnvRecords e (e.get p 12 4) (p.drop 32) with
  | none => none
  | some (rs, counter) =>
    let sum := rs ++ ((p.drop 32).drop counter).take (sum_len-counter) ++
      cnv [4, 4] ((p.drop 32).drop sum_len)
    some (h ++ cpuToE32 e (crc sum) ++ cpuToE32 e (crc h) ++ sum)

inductive ConvertExit
  | unknownSummaryNode
  | unfinished
deriving DecidableEq, Repr

/-- One pass of the loop: what is written, and how far the pointer moves. A CRC of the header that
is wrong is only reported. -/
def convertStep (recalccrc : Bool) (p : List Byte) : Option (List Byte × ℕ) :=
  let magic := e.get p 0 2
  let nodetype := e.get p 2 2
  let totlen := e.get p 4 4
  if magic = 0xffff ∧ nodetype = 0xffff then some (p.take 4, 4)
  else if magic ≠ JFFS2_MAGIC_BITMASK then some (cnv [2, 2] p, 4)
  else if nodetype = JFFS2_NODETYPE_INODE then some (cnvInode e recalccrc p, pad4 totlen)
  else if nodetype = JFFS2_NODETYPE_DIRENT then some (cnvDirent e recalccrc p, pad4 totlen)
  else if nodetype = JFFS2_NODETYPE_XATTR then some (cnvXattr e recalccrc p, pad4 totlen)
  else if nodetype = JFFS2_NODETYPE_XREF then
    -- the new node is made, and there is no write
    some ([], pad4 totlen)
  else if nodetype = JFFS2_NODETYPE_CLEANMARKER ∨ nodetype = JFFS2_NODETYPE_PADDING then
    some (cnvUnknown e p, pad4 totlen)
  else if nodetype = JFFS2_NODETYPE_SUMMARY then
    match cnvSummary e p with
    | none => none
    | some node => some (node, 32+(totlen-32-8)+8)
  else if nodetype = 0xffff then some (p.take 4, 4)
  else some ([], pad4 totlen)

/-- `do_endianconvert`, with a bound on its passes. -/
def doEndianconvert (recalccrc : Bool) : ℕ → List Byte → Except ConvertExit (List Byte)
  | _, [] => .ok []
  | 0, _ => .error .unfinished
  | fuel+1, p =>
    match convertStep e recalccrc p with
    | none => .error .unknownSummaryNode
    | some (written, advance) =>
      match doEndianconvert recalccrc fuel (p.drop advance) with
      | .error x => .error x
      | .ok rest => .ok (written ++ rest)

end Convert

section Image

/-- The values of the members fit their sizes. -/
def Fit (fs : List (ℕ × ℕ)) : Prop := ∀ f ∈ fs, f.2 < 256^f.1

def Node.Fit : Node → Prop
  | .inode n => Jffs2.Fit n.fields
  | .dirent n => Jffs2.Fit n.fields
  | .xattr n => Jffs2.Fit n.fields
  | .xref n => Jffs2.Fit n.fields
  | .cleanmarker _ => True
  | .padding _ => True
  | .summary n => Jffs2.Fit n.fields ∧ (∀ r ∈ n.records, Jffs2.Fit r.fields) ∧ n.totlen%4 = 0

/-- A part of an image: four bytes of a gap, or a node, live or obsolete, with the bytes up to the
next offset. -/
inductive Element
  | gap
  | live (n : Node) (fill : List Byte)
  | obsolete (n : Node) (fill : List Byte)

namespace Element

/-- An obsolete node has a bit of its type cleared. -/
def encode (e : Endian) : Element → List Byte
  | gap => List.replicate 4 0xff#8
  | live n fill => n.encode e ++ fill
  | obsolete n fill =>
    e.puts [(2, JFFS2_MAGIC_BITMASK), (2, n.nodetype-JFFS2_NODE_ACCURATE)] ++
      ((n.encode e).drop 4 ++ fill)

def Fit : Element → Prop
  | gap => True
  | live n fill => n.Fit ∧ n.totlen+fill.length = pad4 n.totlen ∧ pad4 n.totlen < 2^32
  | obsolete n fill => n.Fit ∧ n.totlen+fill.length = pad4 n.totlen ∧ pad4 n.totlen < 2^32

/-- The parts that the conversion writes. -/
def Kept : Element → Prop
  | gap => True
  | live (.xref _) _ => False
  | live _ _ => True
  | obsolete _ _ => False

end Element

def image (e : Endian) (els : List Element) : List Byte := els.flatMap (Element.encode e)

end Image

section Members

variable (e : Endian)

theorem cnv_puts (fs : List (ℕ × ℕ)) (post : List Byte) :
    cnv (fs.map Prod.fst) (e.puts fs ++ post) = e.other.puts fs := by
  induction fs with
  | nil => rfl
  | cons f fs ih =>
    rw [List.map_cons, cnv, Endian.puts_cons, List.append_assoc, List.take_left' (e.put_length _ _),
      List.drop_left' (e.put_length _ _), ih, e.put_reverse, Endian.puts_cons]

theorem cnvHeader_header (nodetype totlen : ℕ) (post : List Byte) :
    cnvHeader e (header e nodetype totlen ++ post) = header e.other nodetype totlen := by
  have h := cnv_puts e [(2, JFFS2_MAGIC_BITMASK), (2, nodetype), (4, totlen)]
    (e.put 4 (crc (e.puts [(2, JFFS2_MAGIC_BITMASK), (2, nodetype), (4, totlen)])) ++ post)
  unfold cnvHeader
  rw [header, List.append_assoc]
  dsimp only at h ⊢
  rw [show [2, 2, 4] = [(2, JFFS2_MAGIC_BITMASK), (2, nodetype), (4, totlen)].map Prod.fst from rfl,
    h]
  rfl

theorem header_get (nodetype totlen : ℕ) (ht : nodetype < 256^2) (hl : totlen < 256^4)
    (post : List Byte) : e.get (header e nodetype totlen ++ post) 0 2 = JFFS2_MAGIC_BITMASK ∧
      e.get (header e nodetype totlen ++ post) 2 2 = nodetype ∧
      e.get (header e nodetype totlen ++ post) 4 4 = totlen := by
  unfold header
  dsimp only
  rw [List.append_assoc]
  refine ⟨e.get_puts_head (by decide) _ _, ?_, ?_⟩
  · rw [e.get_puts_skip (by decide)]
    exact e.get_puts_head ht _ _
  · rw [e.get_puts_skip (by decide), e.get_puts_skip (by decide)]
    exact e.get_puts_head hl _ _

theorem header_drop (nodetype totlen : ℕ) (post : List Byte) :
    (header e nodetype totlen ++ post).drop 12 = post := List.drop_left' (header_length e _ _)

/-- A member of the struct behind the header. -/
theorem header_get_skip (nodetype totlen o k : ℕ) (post : List Byte) :
    e.get (header e nodetype totlen ++ post) (12+o) k = e.get post o k := by
  rw [e.get_skip (by rw [header_length]; omega), header_length, Nat.add_sub_cancel_left]

theorem Fit.head {f : ℕ × ℕ} {fs : List (ℕ × ℕ)} (h : Fit (f :: fs)) : f.2 < 256^f.1 :=
  h f List.mem_cons_self

theorem Fit.tail {f : ℕ × ℕ} {fs : List (ℕ × ℕ)} (h : Fit (f :: fs)) : Fit fs :=
  fun g hg => h g (List.mem_cons_of_mem _ hg)

/-- The member in a given place, behind those before it. -/
theorem get_member {fs : List (ℕ × ℕ)} (h : Fit fs) (i : ℕ) {k v : ℕ} (hi : fs[i]? = some (k, v))
    (post : List Byte) :
    e.get (e.puts fs ++ post) ((fs.take i).map Prod.fst).sum k = v := by
  induction fs generalizing i with
  | nil => cases hi
  | cons f fs ih =>
    cases i with
    | zero =>
      obtain rfl := Option.some.inj hi
      exact e.get_puts_head h.head fs post
    | succ i =>
      rw [List.take_succ_cons, List.map_cons, List.sum_cons, e.get_puts_skip (Nat.le_add_right _ _),
        Nat.add_sub_cancel_left]
      exact ih h.tail i hi

theorem header_member {fs : List (ℕ × ℕ)} (h : Fit fs) (i : ℕ) {o k v : ℕ}
    (hi : fs[i]? = some (k, v)) (ho : ((fs.take i).map Prod.fst).sum = o) (nodetype totlen : ℕ)
    (post : List Byte) :
    e.get (header e nodetype totlen ++ (e.puts fs ++ post)) (12+o) k = v := by
  rw [header_get_skip, ← ho]
  exact get_member e h i hi post

/-- What is behind the struct, up to the next offset. -/
theorem cnvTail_eq {p pre data fill : List Byte} {size totlen : ℕ} (hp : p = pre ++ (data ++ fill))
    {post : List Byte} (hsize : pre.length = size) (hmod : size%4 = 0)
    (hget : e.get (p ++ post) 4 4 = totlen) (hlen : totlen = size+data.length)
    (hfill : totlen+fill.length = pad4 totlen) : cnvTail e (p ++ post) size = data ++ fill := by
  have hpad : pad4 (totlen-size) = (data ++ fill).length := by
    rw [List.length_append]
    unfold pad4 at *
    omega
  unfold cnvTail
  rw [hget, hpad, hp, List.append_assoc, List.drop_left' hsize, List.take_left]

end Members

section Branches

variable (e : Endian) {fill : List Byte}

theorem cnvInode_encode (n : Inode) (hfit : Fit n.fields) (hlen : n.totlen < 2^32)
    (hfill : n.totlen+fill.length = pad4 n.totlen) (post : List Byte) :
    cnvInode e true (n.encode e ++ fill ++ post) = n.encode e.other ++ fill := by
  let h := header e JFFS2_NODETYPE_INODE n.totlen ++ e.puts n.fields
  let pre := h ++ e.put 4 (crc n.data) ++ e.put 4 (crc h)
  have hsum : (n.fields.map Prod.fst).sum = 48 := by simp [Inode.fields]
  have hpre : pre.length = 68 := by
    simp only [pre, h, List.length_append, header_length, e.puts_length, e.put_length, hsum]
  have hp : n.encode e ++ fill = pre ++ (n.data ++ fill) := List.append_assoc _ _ _
  have hhead : n.encode e ++ fill ++ post = header e JFFS2_NODETYPE_INODE n.totlen ++
      (e.puts n.fields ++ (e.put 4 (crc n.data) ++ e.put 4 (crc h) ++ (n.data ++ fill) ++ post)) := by
    simp only [Inode.encode, List.append_assoc, h]
  have htot : e.get (n.encode e ++ fill ++ post) 4 4 = n.totlen := by
    rw [hhead]
    exact (header_get e _ _ (by decide) hlen _).2.2
  have hcsize : e.get (n.encode e ++ fill ++ post) 48 4 = n.data.length := by
    rw [hhead]
    exact header_member e hfit 10 (o := 36) rfl (by simp [Inode.fields]) _ _ _
  have hdata : ((n.encode e ++ fill ++ post).drop 68).take n.data.length = n.data := by
    rw [hp, List.append_assoc, List.drop_left' hpre, List.append_assoc, List.take_left]
  have htail := @cnvTail_eq e _ _ _ _ _ _ hp post hpre (by decide) htot rfl hfill
  have hws : [4, 4, 4, 2, 2, 4, 4, 4, 4, 4, 4, 4, 1, 1, 2] = n.fields.map Prod.fst := rfl
  unfold cnvInode
  rw [if_pos rfl, htail, hcsize, hdata, hhead, cnvHeader_header, header_drop, hws, cnv_puts]
  simp only [Inode.encode, cpuToE32, List.append_assoc]

theorem cnvDirent_encode (n : Dirent) (hfit : Fit n.fields) (hlen : n.totlen < 2^32)
    (hfill : n.totlen+fill.length = pad4 n.totlen) (post : List Byte) :
    cnvDirent e true (n.encode e ++ fill ++ post) = n.encode e.other ++ fill := by
  let h := header e JFFS2_NODETYPE_DIRENT n.totlen ++ e.puts n.fields
  let pre := h ++ e.put 4 (crc h) ++ e.put 4 (crc n.name)
  have hsum : (n.fields.map Prod.fst).sum = 20 := by simp [Dirent.fields]
  have hpre : pre.length = 40 := by
    simp only [pre, h, List.length_append, header_length, e.puts_length, e.put_length, hsum]
  have hp : n.encode e ++ fill = pre ++ (n.name ++ fill) := List.append_assoc _ _ _
  have hhead : n.encode e ++ fill ++ post = header e JFFS2_NODETYPE_DIRENT n.totlen ++
      (e.puts n.fields ++ (e.put 4 (crc h) ++ e.put 4 (crc n.name) ++ (n.name ++ fill) ++ post)) := by
    simp only [Dirent.encode, List.append_assoc, h]
  have htot : e.get (n.encode e ++ fill ++ post) 4 4 = n.totlen := by
    rw [hhead]
    exact (header_get e _ _ (by decide) hlen _).2.2
  have hnsize : e.get (n.encode e ++ fill ++ post) 28 1 = n.name.length := by
    rw [hhead]
    exact header_member e hfit 4 (o := 16) rfl (by simp [Dirent.fields]) _ _ _
  have hname : ((n.encode e ++ fill ++ post).drop 40).take n.name.length = n.name := by
    rw [hp, List.append_assoc, List.drop_left' hpre, List.append_assoc, List.take_left]
  have htail := @cnvTail_eq e _ _ _ _ _ _ hp post hpre (by decide) htot rfl hfill
  have hws : [4, 4, 4, 4, 1, 1, 1, 1] = n.fields.map Prod.fst := rfl
  unfold cnvDirent
  rw [if_pos rfl, htail, hnsize, hname, hhead, cnvHeader_header, header_drop, hws, cnv_puts]
  simp only [Dirent.encode, cpuToE32, List.append_assoc]

theorem cnvXattr_encode (n : Xattr) (hfit : Fit n.fields) (hlen : n.totlen < 2^32)
    (hfill : n.totlen+fill.length = pad4 n.totlen) (post : List Byte) :
    cnvXattr e true (n.encode e ++ fill ++ post) = n.encode e.other ++ fill := by
  let h := header e JFFS2_NODETYPE_XATTR n.totlen ++ e.puts n.fields
  let pre := h ++ e.put 4 (crc h)
  have hsum : (n.fields.map Prod.fst).sum = 16 := by simp [Xattr.fields]
  have hpre : pre.length = 32 := by
    simp only [pre, h, List.length_append, header_length, e.puts_length, e.put_length, hsum]
  have hp : n.encode e ++ fill = pre ++ ((n.data ++ n.rest) ++ fill) := List.append_assoc _ _ _
  have hhead : n.encode e ++ fill ++ post = header e JFFS2_NODETYPE_XATTR n.totlen ++
      (e.puts n.fields ++ (e.put 4 (crc h) ++ ((n.data ++ n.rest) ++ fill) ++ post)) := by
    simp only [Xattr.encode, List.append_assoc, h]
  have htot : e.get (n.encode e ++ fill ++ post) 4 4 = n.totlen := by
    rw [hhead]
    exact (header_get e _ _ (by decide) hlen _).2.2
  have hname : e.get (n.encode e ++ fill ++ post) 21 1 = n.name.length := by
    rw [hhead]
    exact header_member e hfit 3 (o := 9) rfl (by simp [Xattr.fields]) _ _ _
  have hvalue : e.get (n.encode e ++ fill ++ post) 22 2 = n.value.length := by
    rw [hhead]
    exact header_member e hfit 4 (o := 10) rfl (by simp [Xattr.fields]) _ _ _
  have hdlen : n.name.length+n.value.length+1 = n.data.length := by
    rw [Xattr.data, List.length_append, List.length_cons, Nat.add_assoc]
  have hdata : ((n.encode e ++ fill ++ post).drop 32).take n.data.length = n.data := by
    rw [hp, List.append_assoc, List.drop_left' hpre, List.append_assoc, List.append_assoc,
      List.take_left]
  have htail := @cnvTail_eq e _ _ _ _ _ _ hp post hpre (by decide) htot
    (by rw [List.length_append, Xattr.totlen, Nat.add_assoc]) hfill
  -- the CRC of the data is the last of the members
  let fs := [(4, n.xid), (4, n.version), (1, n.xprefix), (1, n.name.length), (2, n.value.length)]
  have hfs : n.fields = fs ++ [(4, crc n.data)] := rfl
  have hcrc (d : Endian) : d.puts n.fields = d.puts fs ++ d.put 4 (crc n.data) := by
    rw [hfs, d.puts_append, d.puts_singleton]
  have hws : [4, 4, 1, 1, 2] = fs.map Prod.fst := rfl
  have hcnv (post : List Byte) : cnv [4, 4, 1, 1, 2] (e.puts n.fields ++ post) =
      e.other.puts fs := by rw [hcrc, List.append_assoc, hws, cnv_puts]
  unfold cnvXattr
  rw [if_pos rfl, htail, hname, hvalue, hdlen, hdata, hhead, cnvHeader_header, header_drop, hcnv]
  simp only [Xattr.encode, cpuToE32, hcrc, List.append_assoc]

/-- A node that is a header and bytes. -/
theorem cnvUnknown_encode (nodetype : ℕ) (rest : List Byte) (ht : nodetype < 256^2)
    (hlen : 12+rest.length < 2^32) (hfill : 12+rest.length+fill.length = pad4 (12+rest.length))
    (post : List Byte) :
    cnvUnknown e (header e nodetype (12+rest.length) ++ rest ++ fill ++ post) =
      header e.other nodetype (12+rest.length) ++ rest ++ fill := by
  have hhead : header e nodetype (12+rest.length) ++ rest ++ fill ++ post =
      header e nodetype (12+rest.length) ++ (rest ++ fill ++ post) := by
    simp only [List.append_assoc]
  have htot : e.get (header e nodetype (12+rest.length) ++ rest ++ fill ++ post) 4 4 =
      12+rest.length := by
    rw [hhead]
    exact (header_get e _ _ ht hlen _).2.2
  have htail := @cnvTail_eq e _ _ _ _ _ _ (List.append_assoc _ _ _) post (header_length e _ _)
    (by decide) htot rfl hfill
  unfold cnvUnknown
  rw [htail, hhead, cnvHeader_header, List.append_assoc]

end Branches

section Summary

variable (e : Endian)

theorem cnvRecord_encode (r : SumRecord) (hfit : Fit r.fields) (post : List Byte) :
    cnvRecord e (r.encode e ++ post) = some (r.encode e.other, r.size) := by
  have hcnv (ws : List ℕ) (hws : ws = r.fields.map Prod.fst) :
      cnv ws (e.puts r.fields ++ (r.name ++ post)) = e.other.puts r.fields := by
    rw [hws, cnv_puts]
  have htype {k v : ℕ} (h : r.fields[0]? = some (k, v)) :
      e.get (e.puts r.fields ++ (r.name ++ post)) 0 k = v := get_member e hfit 0 h _
  unfold cnvRecord SumRecord.encode
  dsimp only
  rw [List.append_assoc]
  cases r with
  | inode i v o l =>
    rw [htype rfl, if_pos rfl, hcnv [2, 4, 4, 4, 4] rfl,
      show (SumRecord.inode i v o l).name = [] from rfl, List.append_nil]
    rfl
  | dirent l o p v i t name =>
    let r := SumRecord.dirent l o p v i t name
    have hnsize : e.get (e.puts r.fields ++ (r.name ++ post)) 22 1 = name.length := by
      have h := get_member e hfit 6 (k := 1) (v := name.length) rfl (r.name ++ post)
      rwa [show ((r.fields.take 6).map Prod.fst).sum = 22 by simp [r, SumRecord.fields]] at h
    have hname : ((e.puts r.fields ++ (r.name ++ post)).drop 24).take name.length = name := by
      rw [List.drop_left' (by rw [e.puts_length]; rfl)]
      exact List.take_left
    rw [htype rfl, if_neg (by decide), if_pos rfl, hnsize, hname,
      hcnv [2, 4, 4, 4, 4, 4, 1, 1] rfl]
    rfl
  | xattr x v o l =>
    rw [htype rfl, if_neg (by decide), if_neg (by decide), if_pos rfl,
      hcnv [2, 4, 4, 4, 4] rfl, show (SumRecord.xattr x v o l).name = [] from rfl, List.append_nil]
    rfl
  | xref o =>
    rw [htype rfl, if_neg (by decide), if_neg (by decide), if_neg (by decide), if_pos rfl,
      hcnv [2, 4] rfl, show (SumRecord.xref o).name = [] from rfl, List.append_nil]
    rfl

theorem cnvRecords_encode (rs : List SumRecord) (hfit : ∀ r ∈ rs, Fit r.fields) (post : List Byte) :
    cnvRecords e rs.length (rs.flatMap (SumRecord.encode e) ++ post) =
      some (rs.flatMap (SumRecord.encode e.other), (rs.map SumRecord.size).sum) := by
  induction rs with
  | nil => rfl
  | cons r rs ih =>
    have hdrop : ((r :: rs).flatMap (SumRecord.encode e) ++ post).drop r.size =
        rs.flatMap (SumRecord.encode e) ++ post := by
      rw [List.flatMap_cons, List.append_assoc, List.drop_left' (r.encode_length e)]
    rw [List.length_cons, cnvRecords]
    rw [show (r :: rs).flatMap (SumRecord.encode e) ++ post =
        r.encode e ++ (rs.flatMap (SumRecord.encode e) ++ post) by
      rw [List.flatMap_cons, List.append_assoc]] at hdrop ⊢
    rw [cnvRecord_encode e r (hfit r List.mem_cons_self)]
    dsimp only
    rw [hdrop, ih fun r hr => hfit r (List.mem_cons_of_mem _ hr)]
    rfl

theorem cnvSummary_encode (n : Summary) (hfit : Fit n.fields)
    (hrecs : ∀ r ∈ n.records, Fit r.fields) (hlen : n.totlen < 2^32) (post : List Byte) :
    cnvSummary e (n.encode e ++ post) = some (n.encode e.other) := by
  let h := header e JFFS2_NODETYPE_SUMMARY n.totlen ++ e.puts n.fields
  let pre := h ++ e.put 4 (crc (n.sum e)) ++ e.put 4 (crc h)
  let marker := [(4, n.offset), (4, JFFS2_SUM_MAGIC)]
  have hfsum : (n.fields.map Prod.fst).sum = 12 := by simp [Summary.fields]
  have hpre : pre.length = 32 := by
    simp only [pre, h, List.length_append, header_length, e.puts_length, e.put_length, hfsum]
  have hhead : n.encode e ++ post = header e JFFS2_NODETYPE_SUMMARY n.totlen ++
      (e.puts n.fields ++ (e.put 4 (crc (n.sum e)) ++ (e.put 4 (crc h) ++ (n.sum e ++ post)))) := by
    simp only [Summary.encode, List.append_assoc, h]
  have htot : e.get (n.encode e ++ post) 4 4 = n.totlen := by
    rw [hhead]
    exact (header_get e _ _ (by decide) hlen _).2.2
  have hnum : e.get (n.encode e ++ post) 12 4 = n.records.length := by
    rw [hhead]
    exact header_member e hfit 0 (o := 0) rfl rfl _ _ _
  -- the records, what is behind them, and the marker
  have hbody : (n.encode e ++ post).drop 32 = n.records.flatMap (SumRecord.encode e) ++
      (n.padding ++ (e.puts marker ++ post)) := by
    rw [show n.encode e ++ post = pre ++ (n.sum e ++ post) from List.append_assoc _ _ _,
      List.drop_left' hpre]
    simp only [Summary.sum, List.append_assoc, marker]
  have hrlen : (n.records.flatMap (SumRecord.encode e)).length =
      (n.records.map SumRecord.size).sum := by
    rw [List.length_flatMap]
    congr 1
    exact List.map_congr_left fun r _ => r.encode_length e
  have hslen : n.totlen-32-8 = (n.records.map SumRecord.size).sum+n.padding.length := by
    unfold Summary.totlen Summary.sumLength
    omega
  have hcnvs : cnvRecords e n.records.length ((n.encode e ++ post).drop 32) =
      some (n.records.flatMap (SumRecord.encode e.other), (n.records.map SumRecord.size).sum) := by
    rw [hbody]
    exact cnvRecords_encode e n.records hrecs _
  have hpad : (((n.encode e ++ post).drop 32).drop (n.records.map SumRecord.size).sum).take
      (n.totlen-32-8-(n.records.map SumRecord.size).sum) = n.padding := by
    rw [hbody, List.drop_left' hrlen, hslen, Nat.add_sub_cancel_left, List.take_left]
  have hmark : cnv [4, 4] (((n.encode e ++ post).drop 32).drop (n.totlen-32-8)) =
      e.other.puts marker := by
    rw [hbody, hslen, ← List.append_assoc, List.drop_left' (by rw [List.length_append, hrlen])]
    exact cnv_puts e marker post
  have hwords : [4, 4, 4] = n.fields.map Prod.fst := rfl
  unfold cnvSummary
  dsimp only
  rw [htot, hnum, hcnvs]
  dsimp only
  rw [hpad, hmark, hhead, cnvHeader_header, header_drop, hwords, cnv_puts]
  rfl

end Summary

section Image

variable (e : Endian)

/-- What the conversion writes for a part of the image. -/
def Element.written : Element → List Byte
  | .gap => List.replicate 4 0xff#8
  | .live (.xref _) _ => []
  | .live n fill => n.encode e.other ++ fill
  | .obsolete _ _ => []

theorem gap_get (e : Endian) (post : List Byte) :
    e.get (List.replicate 4 0xff#8 ++ post) 0 2 = 0xffff ∧
      e.get (List.replicate 4 0xff#8 ++ post) 2 2 = 0xffff := by
  have hword : leVal [0xff#8, 0xff#8] = 0xffff := by decide
  cases e
  · exact ⟨hword, hword⟩
  · exact ⟨hword, hword⟩

theorem Node.nodetype_lt (n : Node) : n.nodetype < 256^2 := by
  cases n <;> simp only [nodetype] <;> decide

theorem encode_get (n : Node) (hlen : n.totlen < 2^32) (post : List Byte) :
    e.get (n.encode e ++ post) 0 2 = JFFS2_MAGIC_BITMASK ∧
      e.get (n.encode e ++ post) 2 2 = n.nodetype ∧ e.get (n.encode e ++ post) 4 4 = n.totlen := by
  obtain ⟨rest, hrest⟩ := n.encode_eq_header e
  rw [hrest, List.append_assoc]
  exact header_get e _ _ n.nodetype_lt hlen _

/-- The header of an obsolete node. -/
theorem obsolete_get (n : Node) (hlen : n.totlen < 2^32) (fill post : List Byte) :
    e.get ((Element.obsolete n fill).encode e ++ post) 0 2 = JFFS2_MAGIC_BITMASK ∧
      e.get ((Element.obsolete n fill).encode e ++ post) 2 2 = n.nodetype-JFFS2_NODE_ACCURATE ∧
      e.get ((Element.obsolete n fill).encode e ++ post) 4 4 = n.totlen := by
  have hl : (e.puts [(2, JFFS2_MAGIC_BITMASK), (2, n.nodetype-JFFS2_NODE_ACCURATE)]).length = 4 :=
    e.puts_length _
  unfold Element.encode
  dsimp only
  rw [List.append_assoc]
  refine ⟨e.get_puts_head (by decide) _ _, ?_, ?_⟩
  · rw [e.get_puts_skip (by decide)]
    exact e.get_puts_head ((Nat.sub_le _ _).trans_lt n.nodetype_lt) _ _
  · obtain ⟨rest, hrest⟩ := n.encode_eq_header e
    have hdrop : (n.encode e).drop 4 = e.put 4 n.totlen ++
        (e.put 4 (crc (e.puts [(2, JFFS2_MAGIC_BITMASK), (2, n.nodetype), (4, n.totlen)])) ++
          rest) := by
      rw [hrest, header, show e.puts [(2, JFFS2_MAGIC_BITMASK), (2, n.nodetype), (4, n.totlen)] =
        e.puts [(2, JFFS2_MAGIC_BITMASK), (2, n.nodetype)] ++ e.put 4 n.totlen by
          rw [← e.puts_singleton, ← e.puts_append]; rfl]
      simp only [List.append_assoc]
      exact List.drop_left' (e.puts_length _)
    rw [e.get_skip (by rw [hl]), hl, hdrop, List.append_assoc, List.append_assoc, Nat.sub_self,
      e.get_put]
    exact Nat.mod_eq_of_lt hlen

theorem pad4_of_mod {n : ℕ} (h : n%4 = 0) : pad4 n = n := by
  unfold pad4
  omega

theorem le_pad4 (n : ℕ) : n ≤ pad4 n := by
  unfold pad4
  omega

theorem Element.encode_length (el : Element) (h : el.Fit) :
    0 < (el.encode e).length ∧ ∀ d : Endian, (el.encode d).length = (el.encode e).length := by
  cases el with
  | gap => exact ⟨Nat.succ_pos _, fun _ => rfl⟩
  | live n fill =>
    have hpos := n.le_totlen
    refine ⟨?_, fun d => ?_⟩
    · rw [encode, List.length_append, Node.encode_length]
      omega
    · rw [encode, encode, List.length_append, List.length_append, Node.encode_length,
        Node.encode_length]
  | obsolete n fill =>
    refine ⟨?_, fun d => ?_⟩
    · rw [encode, List.length_append, e.puts_length]
      exact Nat.lt_add_right _ (Nat.succ_pos 3)
    · simp only [encode, List.length_append, Endian.puts_length, List.length_drop,
        Node.encode_length]

/-- One pass of the loop. -/
theorem convertStep_encode (el : Element) (h : el.Fit) (post : List Byte) :
    convertStep e true (el.encode e ++ post) = some (el.written e, (el.encode e).length) := by
  cases el with
  | gap =>
    obtain ⟨h0, h2⟩ := gap_get e post
    unfold convertStep
    rw [Element.encode, h0, h2]
    rfl
  | live n fill =>
    obtain ⟨hfit, hfill, hlt⟩ := h
    have hlen : n.totlen < 2^32 := (le_pad4 _).trans_lt hlt
    have hsize : ((Element.live n fill).encode e).length = pad4 n.totlen := by
      rw [Element.encode, List.length_append, Node.encode_length, hfill]
    obtain ⟨h0, h2, h4⟩ := encode_get e n hlen (fill ++ post)
    rw [← List.append_assoc] at h0 h2 h4
    rw [hsize]
    unfold convertStep Element.encode
    dsimp only
    rw [h0, h2, h4, if_neg (fun h => absurd h.1 (by decide)), if_neg (not_not.mpr rfl)]
    cases n with
    | inode n =>
      rw [show (Node.inode n).nodetype = JFFS2_NODETYPE_INODE from rfl, if_pos rfl]
      rw [show (Node.inode n).encode e = n.encode e from rfl, cnvInode_encode e n hfit hlen hfill post]
      rfl
    | dirent n =>
      rw [show (Node.dirent n).nodetype = JFFS2_NODETYPE_DIRENT from rfl, if_neg (by decide), if_pos rfl]
      rw [show (Node.dirent n).encode e = n.encode e from rfl, cnvDirent_encode e n hfit hlen hfill post]
      rfl
    | xattr n =>
      rw [show (Node.xattr n).nodetype = JFFS2_NODETYPE_XATTR from rfl, if_neg (by decide), if_neg (by decide), if_pos rfl]
      rw [show (Node.xattr n).encode e = n.encode e from rfl, cnvXattr_encode e n hfit hlen hfill post]
      rfl
    | xref n =>
      rw [show (Node.xref n).nodetype = JFFS2_NODETYPE_XREF from rfl, if_neg (by decide), if_neg (by decide), if_neg (by decide), if_pos rfl]
      rfl
    | cleanmarker rest =>
      rw [show (Node.cleanmarker rest).nodetype = JFFS2_NODETYPE_CLEANMARKER from rfl, if_neg (by decide), if_neg (by decide), if_neg (by decide), if_neg (by decide),
        if_pos (.inl rfl), show (Node.cleanmarker rest).encode e =
        header e JFFS2_NODETYPE_CLEANMARKER (12+rest.length) ++ rest from rfl,
        cnvUnknown_encode e _ rest (by decide) hlen hfill post]
      rfl
    | padding rest =>
      rw [show (Node.padding rest).nodetype = JFFS2_NODETYPE_PADDING from rfl, if_neg (by decide), if_neg (by decide), if_neg (by decide), if_neg (by decide),
        if_pos (.inr rfl), show (Node.padding rest).encode e =
        header e JFFS2_NODETYPE_PADDING (12+rest.length) ++ rest from rfl,
        cnvUnknown_encode e _ rest (by decide) hlen hfill post]
      rfl
    | summary n =>
      obtain ⟨hf, hrecs, hmod⟩ := hfit
      have hpad : pad4 n.totlen = n.totlen := pad4_of_mod hmod
      have hfill0 : fill = [] := by
        apply List.eq_nil_of_length_eq_zero
        change n.totlen+fill.length = pad4 n.totlen at hfill
        omega
      subst hfill0
      rw [show (Node.summary n).nodetype = JFFS2_NODETYPE_SUMMARY from rfl, if_neg (by decide),
        if_neg (by decide), if_neg (by decide), if_neg (by decide), if_neg (by decide), if_pos rfl,
        List.append_nil]
      change (match cnvSummary e (n.encode e ++ post) with | none => _ | some node => _) = _
      rw [cnvSummary_encode e n hf hrecs hlen]
      change some (n.encode e.other, 32+(n.totlen-32-8)+8) =
        some (n.encode e.other ++ [], pad4 n.totlen)
      rw [hpad, List.append_nil]
      unfold Summary.totlen Summary.sumLength
      congr 2
      omega
  | obsolete n fill =>
    obtain ⟨-, hfill, hlt⟩ := h
    have hlen : n.totlen < 2^32 := (le_pad4 _).trans_lt hlt
    have hsize : ((Element.obsolete n fill).encode e).length = pad4 n.totlen := by
      have h12 := n.le_totlen
      rw [Element.encode, List.length_append, e.puts_length, List.length_append, List.length_drop,
        Node.encode_length, ← hfill]
      change 4+(n.totlen-4+fill.length) = _
      omega
    obtain ⟨h0, h2, h4⟩ := obsolete_get e n hlen fill post
    rw [hsize]
    unfold convertStep
    dsimp only
    have hnot : ∀ t ∈ [0xffff, JFFS2_NODETYPE_INODE, JFFS2_NODETYPE_DIRENT, JFFS2_NODETYPE_XATTR,
        JFFS2_NODETYPE_XREF, JFFS2_NODETYPE_CLEANMARKER, JFFS2_NODETYPE_PADDING,
        JFFS2_NODETYPE_SUMMARY], n.nodetype-JFFS2_NODE_ACCURATE ≠ t := by
      cases n <;> simp only [Node.nodetype] <;> decide
    simp only [List.forall_mem_cons] at hnot
    obtain ⟨hff, hi, hd, hx, hr, hc, hp, hs, -⟩ := hnot
    rw [h0, h2, h4, if_neg (fun h => hff h.2), if_neg (not_not.mpr rfl), if_neg hi, if_neg hd,
      if_neg hx, if_neg hr, if_neg (not_or.mpr ⟨hc, hp⟩), if_neg hs, if_neg hff]
    rfl

/-- The whole loop: the parts that are written, one behind the other. -/
theorem doEndianconvert_image (els : List Element) (h : ∀ el ∈ els, el.Fit) (fuel : ℕ)
    (hfuel : els.length ≤ fuel) :
    doEndianconvert e true fuel (image e els) = .ok (els.flatMap (Element.written e)) := by
  induction els generalizing fuel with
  | nil => cases fuel <;> rfl
  | cons el els ih =>
    obtain ⟨fuel, rfl⟩ : ∃ k, fuel = k+1 := ⟨fuel-1, by rw [List.length_cons] at hfuel; omega⟩
    have hel := h el List.mem_cons_self
    have hstep := convertStep_encode e el hel (image e els)
    obtain ⟨hpos, -⟩ := el.encode_length e hel
    have himage : image e (el :: els) = el.encode e ++ image e els := List.flatMap_cons
    have hdrop : (el.encode e ++ image e els).drop (el.encode e).length = image e els :=
      List.drop_left
    rw [himage]
    cases hp : el.encode e ++ image e els with
    | nil =>
      rw [List.append_eq_nil_iff] at hp
      rw [hp.1] at hpos
      exact absurd hpos (Nat.lt_irrefl 0)
    | cons b bs =>
      rw [doEndianconvert, ← hp, hstep]
      · dsimp only
        rw [hdrop, ih (fun x hx => h x (List.mem_cons_of_mem _ hx)) fuel
          (by rw [List.length_cons] at hfuel; omega)]
        rfl
      · exact List.cons_ne_nil b bs

end Image

section Converted

/-- The image in the other byte order: at the offset of each part there is the same part, its
members and CRCs in that order, and the way back gives the image. -/
structure Converted (e : Endian) (els : List Element) (out : List Byte) : Prop where
  length : out.length = (image e els).length
  parts : ∀ pre el post, els = pre ++ el :: post →
    (out.drop (image e pre).length).take (el.encode e).length = el.encode e.other
  back : ∀ fuel, out.length ≤ fuel → doEndianconvert e.other true fuel out = .ok (image e els)

variable {e : Endian} {els : List Element}

theorem Element.written_of_kept {el : Element} (h : el.Kept) : el.written e = el.encode e.other := by
  cases el with
  | gap => rfl
  | live n fill =>
    cases n with
    | xref n => exact h.elim
    | _ => rfl
  | obsolete n fill => exact h.elim

theorem Element.written_of_not_kept {el : Element} (h : ¬el.Kept) : el.written e = [] := by
  cases el with
  | gap => exact (h trivial).elim
  | live n fill =>
    cases n with
    | xref n => rfl
    | _ => exact (h trivial).elim
  | obsolete n fill => rfl

theorem flatMap_written_of_kept (h : ∀ el ∈ els, el.Kept) :
    els.flatMap (Element.written e) = image e.other els := by
  unfold image
  rw [List.flatMap_def, List.flatMap_def,
    List.map_congr_left fun el hel => Element.written_of_kept (h el hel)]

theorem image_length (h : ∀ el ∈ els, el.Fit) (d : Endian) :
    (image d els).length = (image e els).length := by
  unfold image
  rw [List.length_flatMap, List.length_flatMap]
  congr 1
  exact List.map_congr_left fun el hel => (el.encode_length e (h el hel)).2 d

theorem length_le_image (h : ∀ el ∈ els, el.Fit) : els.length ≤ (image e els).length := by
  induction els with
  | nil => exact Nat.zero_le _
  | cons el els ih =>
    have hpos := (el.encode_length e (h el List.mem_cons_self)).1
    have := ih fun x hx => h x (List.mem_cons_of_mem _ hx)
    change els.length+1 ≤ (el.encode e ++ image e els).length
    rw [List.length_append]
    omega

/-- A part that is not written makes the output too short. -/
theorem written_length (h : ∀ el ∈ els, el.Fit) :
    (els.flatMap (Element.written e)).length ≤ (image e els).length ∧
      ((∃ el ∈ els, ¬el.Kept) → (els.flatMap (Element.written e)).length < (image e els).length) := by
  induction els with
  | nil => exact ⟨le_rfl, fun ⟨el, hel, _⟩ => absurd hel List.not_mem_nil⟩
  | cons el els ih =>
    have hel := h el List.mem_cons_self
    obtain ⟨hpos, hlen⟩ := el.encode_length e hel
    obtain ⟨hle, hlt⟩ := ih fun x hx => h x (List.mem_cons_of_mem _ hx)
    have himage : (image e (el :: els)).length = (el.encode e).length+(image e els).length :=
      List.length_append
    rw [himage, List.flatMap_cons, List.length_append]
    by_cases hk : el.Kept
    · rw [Element.written_of_kept hk, hlen]
      refine ⟨by omega, ?_⟩
      rintro ⟨x, hx, hxk⟩
      rcases List.mem_cons.mp hx with rfl | hx
      · exact absurd hk hxk
      · have := hlt ⟨x, hx, hxk⟩
        omega
    · rw [Element.written_of_not_kept hk, List.length_nil]
      exact ⟨by omega, fun _ => by omega⟩

theorem converted_of_kept (h : ∀ el ∈ els, el.Fit) (hk : ∀ el ∈ els, el.Kept) :
    Converted e els (els.flatMap (Element.written e)) := by
  rw [flatMap_written_of_kept hk]
  refine ⟨image_length h _, ?_, fun fuel hfuel => ?_⟩
  · rintro pre el post rfl
    have hpre : ∀ x ∈ pre, x.Fit := fun x hx => h x (List.mem_append_left _ hx)
    have hel : el.Fit := h el (List.mem_append_right _ List.mem_cons_self)
    have hsplit : image e.other (pre ++ el :: post) =
        image e.other pre ++ (el.encode e.other ++ image e.other post) := by
      unfold image
      rw [List.flatMap_append, List.flatMap_cons]
    rw [hsplit, List.drop_left' (image_length hpre e.other),
      List.take_left' ((el.encode_length e hel).2 e.other)]
  · have hback := doEndianconvert_image e.other els h fuel ((length_le_image h).trans hfuel)
    rwa [flatMap_written_of_kept hk, Endian.other_other] at hback

end Converted

/-- An image is converted if and only if it has no reference to an extended attribute and no
obsolete node. -/
theorem endianconvert_iff (e : Endian) (els : List Element) (h : ∀ el ∈ els, el.Fit) :
    ∃ out, (∀ fuel, (image e els).length ≤ fuel →
        doEndianconvert e true fuel (image e els) = .ok out) ∧
      (Converted e els out ↔ ∀ el ∈ els, el.Kept) := by
  refine ⟨els.flatMap (Element.written e), fun fuel hfuel =>
    doEndianconvert_image e els h fuel ((length_le_image h).trans hfuel), fun hc el hel => ?_,
    converted_of_kept h⟩
  by_contra hk
  have hlt := (written_length (e := e) h).2 ⟨el, hel, hk⟩
  rw [hc.length] at hlt
  exact absurd hlt (Nat.lt_irrefl _)

section Example

/-- An eraseblock with a cleanmarker, a directory entry, an inode and a gap. -/
def smallImage : List Element :=
  [.live (.cleanmarker []) [],
    .live (.dirent ⟨1, 1, 2, 0, 8, (0, 0), [0x61#8]⟩) [0xff#8, 0xff#8, 0xff#8],
    .live (.inode ⟨2, 1, 0x81a4, 0, 0, 4, 0, 0, 0, 0, 4, 0, 0, 0, [1#8, 2#8, 3#8, 4#8]⟩) [], .gap]

theorem smallImage_fit : ∀ el ∈ smallImage, el.Fit := by
  intro el hel
  simp only [smallImage, List.mem_cons, List.not_mem_nil, or_false] at hel
  rcases hel with rfl | rfl | rfl | rfl
  · exact ⟨trivial, rfl, by decide⟩
  · refine ⟨?_, rfl, by decide⟩
    intro f hf
    simp only [Dirent.fields, List.mem_cons, List.not_mem_nil, or_false] at hf
    rcases hf with rfl | rfl | rfl | rfl | rfl | rfl | rfl | rfl <;> decide
  · refine ⟨?_, rfl, by decide⟩
    intro f hf
    simp only [Inode.fields, List.mem_cons, List.not_mem_nil, or_false] at hf
    rcases hf with rfl | rfl | rfl | rfl | rfl | rfl | rfl | rfl | rfl | rfl | rfl | rfl | rfl |
      rfl | rfl <;> decide
  · trivial

end Example

theorem endianconvert_small : ∃ out,
    (∀ fuel, (image .little smallImage).length ≤ fuel →
      doEndianconvert .little true fuel (image .little smallImage) = .ok out) ∧
    Converted .little smallImage out := by
  obtain ⟨out, hrun, hiff⟩ := endianconvert_iff .little smallImage smallImage_fit
  refine ⟨out, hrun, hiff.mpr fun el hel => ?_⟩
  simp only [smallImage, List.mem_cons, List.not_mem_nil, or_false] at hel
  rcases hel with rfl | rfl | rfl | rfl <;> trivial

/-- A cleanmarker and a reference: the output is the cleanmarker alone. -/
theorem endianconvert_drops_xref :
    (image .little [.live (.cleanmarker []) [], .live (.xref ⟨2, 1, 2⟩) []]).length = 40 ∧
    ∃ out, (∀ fuel, 40 ≤ fuel → doEndianconvert .little true fuel
      (image .little [.live (.cleanmarker []) [], .live (.xref ⟨2, 1, 2⟩) []]) = .ok out) ∧
    out.length = 12 ∧
    ¬Converted .little [.live (.cleanmarker []) [], .live (.xref ⟨2, 1, 2⟩) []] out := by
  have hlen : (image .little [.live (.cleanmarker []) [], .live (.xref ⟨2, 1, 2⟩) []]).length =
      40 := by
    simp [image, Element.encode, Node.encode_length, Node.totlen]
  have hfit : ∀ el ∈ [Element.live (.cleanmarker []) [], .live (.xref ⟨2, 1, 2⟩) []], el.Fit := by
    intro el hel
    simp only [List.mem_cons, List.not_mem_nil, or_false] at hel
    rcases hel with rfl | rfl
    · exact ⟨trivial, rfl, by decide⟩
    · refine ⟨?_, rfl, by decide⟩
      intro f hf
      simp only [Xref.fields, List.mem_cons, List.not_mem_nil, or_false] at hf
      rcases hf with rfl | rfl | rfl <;> decide
  have hout : ([Element.live (.cleanmarker []) [], .live (.xref ⟨2, 1, 2⟩) []].flatMap
      (Element.written .little)).length = 12 := by
    simp [Element.written, Node.encode_length, Node.totlen]
  refine ⟨hlen, _, fun fuel hfuel => doEndianconvert_image .little _ hfit fuel
    ((by decide : 2 ≤ 40).trans hfuel), hout, fun hc => ?_⟩
  have := hc.length
  rw [hlen, hout] at this
  cases this

end ChipTools.Jffs2
