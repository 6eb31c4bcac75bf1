import ChipTools.Sumtool

/-! The scan of `sumtool` over an eraseblock that is made of parts: words that are passed over, nodes
of all kinds, live or obsolete, and nodes with a wrong CRC. What a node does does not depend on
whether it is live. -/
namespace ChipTools.Sumtool
open Bytes Jffs2 Loop

section Nodes

/-- The entry of a node at an offset. -/
def entry (ofs : ℕ) : Node → SumRecord
  | .inode n => .inode n.ino n.version ofs n.totlen
  | .dirent n => .dirent n.totlen ofs n.pino n.version n.ino n.type n.name
  | .xattr n => .xattr n.xid n.version ofs n.totlen
  | _ => .xref ofs

/-- The kinds of nodes that are copied. -/
def Copied : Node → Prop
  | .inode _ => True
  | .dirent _ => True
  | .xattr _ => True
  | .xref _ => True
  | _ => False

variable (cfg : Config)

def writeNode (n : Node) (s : State) : Except Fault State :=
  writeToBuff cfg (fun ofs => entry ofs n) n.totlen (n.encode cfg.target_endian) s

/-- What a node with right CRCs does. -/
def nodeEffect (n : Node) (s : State) : Except Fault State :=
  match n with
  | .cleanmarker rest => .ok (findCleanmarker cfg (12+rest.length) s)
  | .padding _ => .ok s
  | .summary _ => .ok s
  | n => writeNode cfg n s

variable {cfg} {s : State}

theorem writeToBuff_encode (cfg : Config) (s : State) (record : ℕ → SumRecord) (n : Node)
    (rest : List Byte) :
    writeToBuff cfg record n.totlen (n.encode cfg.target_endian ++ rest) s =
      writeToBuff cfg record n.totlen (n.encode cfg.target_endian) s := by
  have hlen := n.encode_length cfg.target_endian
  have hshort : ¬(n.encode cfg.target_endian ++ rest).length < n.totlen := by
    rw [List.length_append, hlen]
    omega
  have htake : (n.encode cfg.target_endian ++ rest).take n.totlen = n.encode cfg.target_endian :=
    List.take_left' hlen
  unfold writeToBuff
  simp only [if_neg hshort, htake, if_neg (hlen.symm ▸ Nat.lt_irrefl _ :
    ¬(n.encode cfg.target_endian).length < n.totlen), List.take_of_length_le hlen.le]

/-- A number of four bytes behind a part of known length. -/
theorem get_stored (e : Endian) {pre post : List Byte} {o v : ℕ} (ho : pre.length = o)
    (hv : v < 256^4) : e.get (pre ++ (e.put 4 v ++ post)) o 4 = v := by
  rw [e.get_skip ho.le, ho, Nat.sub_self, e.get_put, Nat.mod_eq_of_lt hv]

/-- Both CRCs of a node that has them in its members. -/
theorem crcsOk_of_parts {e : Endian} {node h data post : List Byte} {size k c d : ℕ}
    (mid : List Byte) (hnode : node = h ++ (mid ++ (data ++ post))) (hsize : h.length = size)
    (hmid : (h ++ mid).length = k) (hc : e.get node c 4 = crc h) (hd : e.get node d 4 = crc data) :
    crcsOk e node size c k data.length d = true := by
  have htake : node.take size = h := by rw [hnode, List.take_left' hsize]
  have hdrop : (node.drop k).take data.length = data := by
    rw [hnode, ← List.append_assoc, List.drop_left' hmid, List.take_left]
  unfold crcsOk crcOk
  rw [htake, hdrop, hc, hd]
  simp

/-- The members of an inode. -/
theorem summedNode_inode (n : Inode) (hfit : Fit n.fields) (hlen : n.totlen < 2^32)
    (rest : List Byte) :
    summedNode cfg (n.encode cfg.target_endian ++ rest) s = writeNode cfg (.inode n) s := by
  obtain ⟨e, he⟩ : ∃ e, cfg.target_endian = e := ⟨_, rfl⟩
  obtain ⟨h, hdef⟩ : ∃ h, h = header e JFFS2_NODETYPE_INODE n.totlen ++ e.puts n.fields := ⟨_, rfl⟩
  have hsum : (n.fields.map Prod.fst).sum = 48 := by simp [Inode.fields]
  have hh : h.length = 60 := by
    rw [hdef, List.length_append, header_length, e.puts_length, hsum]
  have hp : n.encode e ++ rest =
      h ++ (e.put 4 (crc n.data) ++ (e.put 4 (crc h) ++ (n.data ++ rest))) := by
    simp only [Inode.encode, List.append_assoc, hdef]
  have hhead : n.encode e ++ rest = header e JFFS2_NODETYPE_INODE n.totlen ++ (e.puts n.fields ++
      (e.put 4 (crc n.data) ++ (e.put 4 (crc h) ++ (n.data ++ rest)))) := by
    rw [hp, hdef, List.append_assoc]
  have hdcrc : e.get (n.encode e ++ rest) 60 4 = crc n.data := by
    rw [hp]
    exact get_stored e hh (crc_lt _)
  have hncrc : e.get (n.encode e ++ rest) 64 4 = crc h := by
    rw [hp, ← List.append_assoc]
    exact get_stored e (by rw [List.length_append, hh, e.put_length]) (crc_lt _)
  obtain ⟨-, htype, htot⟩ := encode_get e (.inode n) hlen rest
  have hcsize : e.get (n.encode e ++ rest) 48 4 = n.data.length := by
    rw [hhead]
    exact header_member e hfit 10 (o := 36) rfl (by simp [Inode.fields]) _ _ _
  have hino : e.get (n.encode e ++ rest) 12 4 = n.ino := by
    rw [hhead]
    exact header_member e hfit 0 (o := 0) rfl rfl _ _ _
  have hversion : e.get (n.encode e ++ rest) 16 4 = n.version := by
    rw [hhead]
    exact header_member e hfit 1 (o := 4) rfl rfl _ _ _
  have hcrcs : crcsOk e (n.encode e ++ rest) 60 64 68 n.data.length 60 = true :=
    crcsOk_of_parts (e.put 4 (crc n.data) ++ e.put 4 (crc h))
      (by rw [hp, List.append_assoc]) hh
      (by simp only [List.length_append, hh, e.put_length]) hncrc hdcrc
  change e.get (n.encode e ++ rest) 2 2 = JFFS2_NODETYPE_INODE at htype
  change e.get (n.encode e ++ rest) 4 4 = n.totlen at htot
  have hwrite := writeToBuff_encode cfg s (fun ofs => entry ofs (.inode n))
    (.inode n) rest
  unfold summedNode writeInodeToBuff
  dsimp only
  rw [he] at hwrite ⊢
  rw [htype, if_pos rfl, hcsize, hcrcs, if_pos rfl, hino, hversion, htot]
  unfold writeNode
  rw [he]
  exact hwrite

/-- The members of a directory entry. -/
theorem summedNode_dirent (n : Dirent) (hfit : Fit n.fields) (hlen : n.totlen < 2^32)
    (rest : List Byte) :
    summedNode cfg (n.encode cfg.target_endian ++ rest) s = writeNode cfg (.dirent n) s := by
  obtain ⟨e, he⟩ : ∃ e, cfg.target_endian = e := ⟨_, rfl⟩
  obtain ⟨h, hdef⟩ : ∃ h, h = header e JFFS2_NODETYPE_DIRENT n.totlen ++ e.puts n.fields := ⟨_, rfl⟩
  have hsum : (n.fields.map Prod.fst).sum = 20 := by simp [Dirent.fields]
  have hh : h.length = 32 := by
    rw [hdef, List.length_append, header_length, e.puts_length, hsum]
  have hp : n.encode e ++ rest =
      h ++ (e.put 4 (crc h) ++ (e.put 4 (crc n.name) ++ (n.name ++ rest))) := by
    simp only [Dirent.encode, List.append_assoc, hdef]
  have hhead : n.encode e ++ rest = header e JFFS2_NODETYPE_DIRENT n.totlen ++ (e.puts n.fields ++
      (e.put 4 (crc h) ++ (e.put 4 (crc n.name) ++ (n.name ++ rest)))) := by
    rw [hp, hdef, List.append_assoc]
  have hncrc : e.get (n.encode e ++ rest) 32 4 = crc h := by
    rw [hp]
    exact get_stored e hh (crc_lt _)
  have hdcrc : e.get (n.encode e ++ rest) 36 4 = crc n.name := by
    rw [hp, ← List.append_assoc]
    exact get_stored e (by rw [List.length_append, hh, e.put_length]) (crc_lt _)
  obtain ⟨-, htype, htot⟩ := encode_get e (.dirent n) hlen rest
  have hpino : e.get (n.encode e ++ rest) 12 4 = n.pino := by
    rw [hhead]
    exact header_member e hfit 0 (o := 0) rfl rfl _ _ _
  have hversion : e.get (n.encode e ++ rest) 16 4 = n.version := by
    rw [hhead]
    exact header_member e hfit 1 (o := 4) rfl rfl _ _ _
  have hino : e.get (n.encode e ++ rest) 20 4 = n.ino := by
    rw [hhead]
    exact header_member e hfit 2 (o := 8) rfl rfl _ _ _
  have hnsize : e.get (n.encode e ++ rest) 28 1 = n.name.length := by
    rw [hhead]
    exact header_member e hfit 4 (o := 16) rfl (by simp [Dirent.fields]) _ _ _
  have hdtype : e.get (n.encode e ++ rest) 29 1 = n.type := by
    rw [hhead]
    exact header_member e hfit 5 (o := 17) rfl (by simp [Dirent.fields]) _ _ _
  have hmid : (h ++ (e.put 4 (crc h) ++ e.put 4 (crc n.name))).length = 40 := by
    simp only [List.length_append, hh, e.put_length]
  have hname : ((n.encode e ++ rest).drop 40).take n.name.length = n.name := by
    rw [hp, ← List.append_assoc, ← List.append_assoc, List.append_assoc h,
      List.drop_left' hmid, List.take_left]
  have hcrcs : crcsOk e (n.encode e ++ rest) 32 32 40 n.name.length 36 = true :=
    crcsOk_of_parts _ (by rw [hp, List.append_assoc]) hh hmid hncrc hdcrc
  change e.get (n.encode e ++ rest) 2 2 = JFFS2_NODETYPE_DIRENT at htype
  change e.get (n.encode e ++ rest) 4 4 = n.totlen at htot
  have hwrite := writeToBuff_encode cfg s (fun ofs => entry ofs (.dirent n))
    (.dirent n) rest
  unfold summedNode writeDirentToBuff
  dsimp only
  rw [he] at hwrite ⊢
  rw [htype, if_neg (by decide), if_pos rfl, hnsize, hcrcs, if_pos rfl, hpino, hversion, hino,
    hdtype, hname, htot]
  unfold writeNode
  rw [he]
  exact hwrite

/-- The members of an extended attribute. -/
theorem summedNode_xattr (n : Xattr) (hfit : Fit n.fields) (hlen : n.totlen < 2^32)
    (rest : List Byte) :
    summedNode cfg (n.encode cfg.target_endian ++ rest) s = writeNode cfg (.xattr n) s := by
  obtain ⟨e, he⟩ : ∃ e, cfg.target_endian = e := ⟨_, rfl⟩
  obtain ⟨h, hdef⟩ : ∃ h, h = header e JFFS2_NODETYPE_XATTR n.totlen ++ e.puts n.fields := ⟨_, rfl⟩
  have hsum : (n.fields.map Prod.fst).sum = 16 := by simp [Xattr.fields]
  have hh : h.length = 28 := by
    rw [hdef, List.length_append, header_length, e.puts_length, hsum]
  have hp : n.encode e ++ rest = h ++ (e.put 4 (crc h) ++ (n.data ++ (n.rest ++ rest))) := by
    simp only [Xattr.encode, List.append_assoc, hdef]
  have hhead : n.encode e ++ rest = header e JFFS2_NODETYPE_XATTR n.totlen ++ (e.puts n.fields ++
      (e.put 4 (crc h) ++ (n.data ++ (n.rest ++ rest)))) := by
    rw [hp, hdef, List.append_assoc]
  have hncrc : e.get (n.encode e ++ rest) 28 4 = crc h := by
    rw [hp]
    exact get_stored e hh (crc_lt _)
  obtain ⟨-, htype, htot⟩ := encode_get e (.xattr n) hlen rest
  have hxid : e.get (n.encode e ++ rest) 12 4 = n.xid := by
    rw [hhead]
    exact header_member e hfit 0 (o := 0) rfl rfl _ _ _
  have hversion : e.get (n.encode e ++ rest) 16 4 = n.version := by
    rw [hhead]
    exact header_member e hfit 1 (o := 4) rfl rfl _ _ _
  have hname : e.get (n.encode e ++ rest) 21 1 = n.name.length := by
    rw [hhead]
    exact header_member e hfit 3 (o := 9) rfl (by simp [Xattr.fields]) _ _ _
  have hvalue : e.get (n.encode e ++ rest) 22 2 = n.value.length := by
    rw [hhead]
    exact header_member e hfit 4 (o := 10) rfl (by simp [Xattr.fields]) _ _ _
  have hdcrc : e.get (n.encode e ++ rest) 24 4 = crc n.data := by
    rw [hhead]
    exact header_member e hfit 5 (o := 12) rfl (by simp [Xattr.fields]) _ _ _
  have hdlen : n.name.length+1+n.value.length = n.data.length := by
    rw [Xattr.data, List.length_append, List.length_cons]
    omega
  have hcrcs : crcsOk e (n.encode e ++ rest) 28 28 32 n.data.length 24 = true :=
    crcsOk_of_parts _ hp hh (by rw [List.length_append, hh, e.put_length]) hncrc hdcrc
  change e.get (n.encode e ++ rest) 2 2 = JFFS2_NODETYPE_XATTR at htype
  change e.get (n.encode e ++ rest) 4 4 = n.totlen at htot
  have hwrite := writeToBuff_encode cfg s (fun ofs => entry ofs (.xattr n))
    (.xattr n) rest
  unfold summedNode writeXattrToBuff
  dsimp only
  rw [he] at hwrite ⊢
  rw [htype, if_neg (by decide), if_neg (by decide), if_pos rfl, hname, hvalue, hdlen, hcrcs,
    if_pos rfl, hxid, hversion, htot]
  unfold writeNode
  rw [he]
  exact hwrite

theorem summedNode_xref (n : Xref) (rest : List Byte) :
    summedNode cfg (n.encode cfg.target_endian ++ rest) s = writeNode cfg (.xref n) s := by
  obtain ⟨e, he⟩ : ∃ e, cfg.target_endian = e := ⟨_, rfl⟩
  obtain ⟨h, hdef⟩ : ∃ h, h = header e JFFS2_NODETYPE_XREF 28 ++ e.puts n.fields := ⟨_, rfl⟩
  have hsum : (n.fields.map Prod.fst).sum = 12 := by simp [Xref.fields]
  have hh : h.length = 24 := by
    rw [hdef, List.length_append, header_length, e.puts_length, hsum]
  have hp : n.encode e ++ rest = h ++ (e.put 4 (crc h) ++ rest) := by
    simp only [Xref.encode, List.append_assoc, hdef]
  obtain ⟨-, htype, htot⟩ := encode_get e (.xref n) (show 28 < 2^32 by decide) rest
  have hcrc : crcOk e (n.encode e ++ rest) ((n.encode e ++ rest).take 24) 24 = true := by
    have hncrc : e.get (n.encode e ++ rest) 24 4 = crc h := by
      rw [hp]
      exact get_stored e hh (crc_lt _)
    unfold crcOk
    rw [hncrc, hp, List.take_left' hh, decide_eq_true rfl]
  change e.get (n.encode e ++ rest) 2 2 = JFFS2_NODETYPE_XREF at htype
  change e.get (n.encode e ++ rest) 4 4 = 28 at htot
  have hwrite := writeToBuff_encode cfg s (fun ofs => entry ofs (.xref n))
    (.xref n) rest
  unfold summedNode writeXrefToBuff
  dsimp only
  rw [he] at hwrite ⊢
  rw [htype, if_neg (by decide), if_neg (by decide), if_neg (by decide), if_pos rfl, hcrc,
    if_pos rfl, htot]
  unfold writeNode
  rw [he]
  exact hwrite

/-- A node with right CRCs at the start of the bytes. -/
theorem summedNode_encode (n : Node) (hfit : n.Fit) (hlen : n.totlen < 2^32) (rest : List Byte) :
    summedNode cfg (n.encode cfg.target_endian ++ rest) s = nodeEffect cfg n s := by
  obtain ⟨-, htype, htot⟩ := encode_get cfg.target_endian n hlen rest
  cases n with
  | inode n => exact summedNode_inode n hfit hlen rest
  | dirent n => exact summedNode_dirent n hfit hlen rest
  | xattr n => exact summedNode_xattr n hfit hlen rest
  | xref n => exact summedNode_xref n rest
  | cleanmarker bytes =>
    unfold summedNode
    dsimp only
    rw [htype, htot]
    rfl
  | padding bytes =>
    unfold summedNode
    dsimp only
    rw [htype]
    rfl
  | summary n =>
    unfold summedNode
    dsimp only
    rw [htype]
    rfl

end Nodes

section Accurate

variable {e : Endian}

theorem accurate_puts {nodetype : ℕ} (ht : nodetype < 256^2) (tail : List Byte) :
    accurate e (e.puts [(2, JFFS2_MAGIC_BITMASK), (2, nodetype)] ++ tail) =
      e.puts [(2, JFFS2_MAGIC_BITMASK), (2, nodetype ||| JFFS2_NODE_ACCURATE)] ++ tail := by
  have htype : e.get (e.puts [(2, JFFS2_MAGIC_BITMASK), (2, nodetype)] ++ tail) 2 2 = nodetype := by
    rw [e.get_puts_skip le_rfl]
    exact e.get_puts_head ht _ _
  have hdrop : (e.puts [(2, JFFS2_MAGIC_BITMASK), (2, nodetype)] ++ tail).drop 4 = tail :=
    List.drop_left' (e.puts_length _)
  have htake : (e.puts [(2, JFFS2_MAGIC_BITMASK), (2, nodetype)] ++ tail).take 2 =
      e.put 2 JFFS2_MAGIC_BITMASK := by
    rw [e.puts_cons, List.append_assoc]
    exact List.take_left' (e.put_length _ _)
  unfold accurate
  rw [htype, hdrop, htake]
  simp only [Endian.puts_cons, Endian.puts_nil, List.append_nil]

/-- The first two members of a node, and the rest of it. -/
theorem encode_eq_puts (n : Node) : n.encode e =
    e.puts [(2, JFFS2_MAGIC_BITMASK), (2, n.nodetype)] ++ (n.encode e).drop 4 := by
  obtain ⟨rest, hrest⟩ := n.encode_eq_header e
  have hputs : e.puts [(2, JFFS2_MAGIC_BITMASK), (2, n.nodetype), (4, n.totlen)] =
      e.puts [(2, JFFS2_MAGIC_BITMASK), (2, n.nodetype)] ++ e.put 4 n.totlen := by
    rw [← e.puts_singleton, ← e.puts_append]
    rfl
  rw [hrest]
  unfold header
  dsimp only
  rw [hputs, List.append_assoc, List.append_assoc, List.drop_left' (i := 4) (e.puts_length _)]

theorem nodetype_accurate (n : Node) : n.nodetype ||| JFFS2_NODE_ACCURATE = n.nodetype ∧
    (n.nodetype-JFFS2_NODE_ACCURATE) ||| JFFS2_NODE_ACCURATE = n.nodetype := by
  cases n <;> simp only [Node.nodetype] <;> decide

theorem accurate_encode (n : Node) (rest : List Byte) :
    accurate e (n.encode e ++ rest) = n.encode e ++ rest := by
  have h := accurate_puts (e := e) n.nodetype_lt ((n.encode e).drop 4 ++ rest)
  rwa [(nodetype_accurate n).1, ← List.append_assoc, ← encode_eq_puts] at h

/-- An obsolete node is a live one in the buffer. -/
theorem accurate_obsolete (n : Node) (fill rest : List Byte) :
    accurate e ((Element.obsolete n fill).encode e ++ rest) = n.encode e ++ (fill ++ rest) := by
  have h := accurate_puts (e := e) ((Nat.sub_le _ JFFS2_NODE_ACCURATE).trans_lt n.nodetype_lt)
    ((n.encode e).drop 4 ++ (fill ++ rest))
  rw [(nodetype_accurate n).2] at h
  change accurate e ((e.puts _ ++ _) ++ rest) = _
  rw [List.append_assoc, List.append_assoc, h, ← List.append_assoc, ← encode_eq_puts]

/-- The CRC of the header. -/
theorem crcOk_header (n : Node) (rest : List Byte) :
    crcOk e (n.encode e ++ rest) ((n.encode e ++ rest).take 8) 8 = true := by
  obtain ⟨tail, htail⟩ := n.encode_eq_header e
  obtain ⟨h, hdef⟩ : ∃ h, h = e.puts [(2, JFFS2_MAGIC_BITMASK), (2, n.nodetype), (4, n.totlen)] :=
    ⟨_, rfl⟩
  have hh : h.length = 8 := by
    rw [hdef]
    exact e.puts_length _
  have hp : n.encode e ++ rest = h ++ (e.put 4 (crc h) ++ (tail ++ rest)) := by
    rw [htail, hdef]
    simp only [header, List.append_assoc]
  unfold crcOk
  rw [hp, get_stored e hh (crc_lt _), List.take_left' hh, decide_eq_true rfl]

theorem PAD_eq {x : ℕ} (h : pad4 x < 2^32) : PAD x = pad4 x := by
  unfold PAD pad4 at *
  omega

end Accurate

section Parts

/-- A part of an eraseblock. A word is a part when nothing is read from it, because it has not the
magic number or the header that it starts has a wrong CRC. A broken node has a right header and is
not as its CRCs say. -/
inductive Part
  | word (w : List Byte)
  | element (el : Element)
  | broken (bytes : List Byte)

/-- The CRCs of a node that is copied are wrong. -/
def Rejected (e : Endian) (node : List Byte) : Prop :=
  let nodetype := e.get node 2 2
  nodetype = JFFS2_NODETYPE_INODE ∧ crcsOk e node 60 64 68 (e.get node 48 4) 60 = false ∨
  nodetype = JFFS2_NODETYPE_DIRENT ∧ crcsOk e node 32 32 40 (e.get node 28 1) 36 = false ∨
  nodetype = JFFS2_NODETYPE_XATTR ∧
    crcsOk e node 28 28 32 (e.get node 21 1+1+e.get node 22 2) 24 = false ∨
  nodetype = JFFS2_NODETYPE_XREF ∧ crcOk e node (node.take 24) 24 = false

namespace Part

variable (e : Endian)

def bytes : Part → List Byte
  | word w => w
  | element el => el.encode e
  | broken bytes => bytes

/-- What a part has to be in front of the bytes `rest`. -/
def Fit : Part → List Byte → Prop
  | word w, rest =>
    w.length = 4 ∧ (e.get (w ++ rest) 0 2 = JFFS2_MAGIC_BITMASK →
      crcOk e (accurate e (w ++ rest)) ((accurate e (w ++ rest)).take 8) 8 = false)
  | element el, _ => el.Fit
  | broken bytes, rest =>
    e.get (bytes ++ rest) 0 2 = JFFS2_MAGIC_BITMASK ∧
    crcOk e (accurate e (bytes ++ rest)) ((accurate e (bytes ++ rest)).take 8) 8 = true ∧
    Rejected e (accurate e (bytes ++ rest)) ∧
    bytes.length = PAD (e.get (accurate e (bytes ++ rest)) 4 4) ∧ 4 ≤ bytes.length

end Part

/-- An eraseblock of parts. -/
def image (e : Endian) (ps : List Part) : List Byte := ps.flatMap (Part.bytes e)

def Fits (e : Endian) : List Part → Prop
  | [] => True
  | part :: ps => part.Fit e (image e ps) ∧ Fits e ps

/-- What the pass at a part does. -/
def Part.effect (cfg : Config) (part : Part) (s : State) : Except Fault State :=
  match part with
  | .element (.live n _) => nodeEffect cfg n s
  | .element (.obsolete n _) => nodeEffect cfg n s
  | _ => .ok s

variable {cfg : Config} {s : State}

/-- The pass at a node that is in the buffer with its right type. -/
theorem summedPass_node {p fill rest : List Byte} (n : Node) (hfit : n.Fit)
    (hfill : n.totlen+fill.length = pad4 n.totlen) (hlt : pad4 n.totlen < 2^32)
    (hmagic : cfg.target_endian.get p 0 2 = JFFS2_MAGIC_BITMASK)
    (hacc : accurate cfg.target_endian p = n.encode cfg.target_endian ++ (fill ++ rest)) :
    summedPass cfg p s = nodeEffect cfg n s >>= fun s => .ok (s, rest) := by
  have hlen : n.totlen < 2^32 := (le_pad4 _).trans_lt hlt
  obtain ⟨-, htype, htot⟩ := encode_get cfg.target_endian n hlen (fill ++ rest)
  have hne : n.nodetype ≠ 0xffff := by cases n <;> simp only [Node.nodetype] <;> decide
  have hdrop : (n.encode cfg.target_endian ++ (fill ++ rest)).drop (pad4 n.totlen) = rest := by
    rw [← List.append_assoc]
    exact List.drop_left' (by rw [List.length_append, Node.encode_length, hfill])
  unfold summedPass
  dsimp only
  rw [hmagic, hacc, crcOk_header, htype, htot, if_neg (fun h => absurd h.1 (by decide)),
    if_neg (not_not.mpr rfl), if_neg (not_not.mpr rfl), summedNode_encode n hfit hlen,
    PAD_eq hlt, hdrop]
  simp only [if_neg hne]

theorem summedNode_rejected {node : List Byte} (h : Rejected cfg.target_endian node) :
    summedNode cfg node s = .ok s := by
  unfold summedNode
  dsimp only
  rcases h with ⟨ht, hc⟩ | ⟨ht, hc⟩ | ⟨ht, hc⟩ | ⟨ht, hc⟩
  · rw [ht, if_pos rfl, hc, if_neg Bool.false_ne_true]
  · rw [ht, if_neg (by decide), if_pos rfl, hc, if_neg Bool.false_ne_true]
  · rw [ht, if_neg (by decide), if_neg (by decide), if_pos rfl, hc, if_neg Bool.false_ne_true]
  · rw [ht, if_neg (by decide), if_neg (by decide), if_neg (by decide), if_pos rfl, hc,
      if_neg Bool.false_ne_true]

theorem summedPass_word {w rest : List Byte} (h : (Part.word w).Fit cfg.target_endian rest) :
    summedPass cfg (w ++ rest) s = .ok (s, rest) := by
  obtain ⟨hlen, hcrc⟩ := h
  have hdrop : (w ++ rest).drop 4 = rest := List.drop_left' hlen
  have hacc : (accurate cfg.target_endian (w ++ rest)).drop 4 = rest := by
    unfold accurate
    rw [List.drop_left' (by rw [List.length_append, List.length_take, Endian.put_length,
      List.length_append, hlen]; omega), hdrop]
  unfold summedPass
  dsimp only
  rw [hdrop, hacc]
  by_cases hempty : cfg.target_endian.get (w ++ rest) 0 2 = 0xffff ∧
      cfg.target_endian.get (w ++ rest) 2 2 = 0xffff
  · rw [if_pos hempty]
  · rw [if_neg hempty]
    by_cases hmagic : cfg.target_endian.get (w ++ rest) 0 2 = JFFS2_MAGIC_BITMASK
    · rw [if_neg (not_not.mpr hmagic), hcrc hmagic, if_pos Bool.false_ne_true]
    · rw [if_pos hmagic]

theorem summedPass_broken {bytes rest : List Byte}
    (h : (Part.broken bytes).Fit cfg.target_endian rest) :
    summedPass cfg (bytes ++ rest) s = .ok (s, rest) := by
  obtain ⟨hmagic, hcrc, hrej, hlen, h4⟩ := h
  have hacc : (accurate cfg.target_endian (bytes ++ rest)).drop bytes.length = rest := by
    unfold accurate
    rw [List.drop_append, List.drop_eq_nil_of_le (by
      rw [List.length_append, List.length_take, Endian.put_length, List.length_append]; omega),
      List.nil_append, List.length_append, List.length_take, Endian.put_length, List.length_append,
      List.drop_drop, show 4+(bytes.length-(min 2 (bytes.length+rest.length)+2)) = bytes.length by
        omega, List.drop_left]
  have hne : ¬cfg.target_endian.get (accurate cfg.target_endian (bytes ++ rest)) 2 2 = 0xffff := by
    rcases hrej with ⟨ht, -⟩ | ⟨ht, -⟩ | ⟨ht, -⟩ | ⟨ht, -⟩ <;> rw [ht] <;> decide
  unfold summedPass
  dsimp only
  rw [hmagic, hcrc, if_neg (fun h => absurd h.1 (by decide)), if_neg (not_not.mpr rfl),
    if_neg (not_not.mpr rfl), summedNode_rejected hrej, ok_bind, if_neg hne, ← hlen, hacc]

/-- The pass at any part. -/
theorem summedPass_part {part : Part} {rest : List Byte} (h : part.Fit cfg.target_endian rest) :
    summedPass cfg (part.bytes cfg.target_endian ++ rest) s =
      part.effect cfg s >>= fun s => .ok (s, rest) := by
  cases part with
  | word w => exact summedPass_word h
  | broken bytes => exact summedPass_broken h
  | element el =>
    cases el with
    | gap =>
      obtain ⟨h0, h2⟩ := gap_get cfg.target_endian rest
      change summedPass cfg (List.replicate 4 0xff#8 ++ rest) s = .ok (s, rest)
      unfold summedPass
      dsimp only
      rw [if_pos ⟨h0, h2⟩, List.drop_left' (i := 4) List.length_replicate]
    | live n fill =>
      obtain ⟨hfit, hfill, hlt⟩ := h
      have hacc := accurate_encode (e := cfg.target_endian) n (fill ++ rest)
      obtain ⟨hmagic, -⟩ := encode_get cfg.target_endian n ((le_pad4 _).trans_lt hlt) (fill ++ rest)
      rw [← List.append_assoc] at hmagic
      change summedPass cfg (n.encode cfg.target_endian ++ fill ++ rest) s = _
      rw [← List.append_assoc] at hacc
      exact summedPass_node n hfit hfill hlt hmagic (hacc.trans (List.append_assoc _ _ _))
    | obsolete n fill =>
      obtain ⟨hfit, hfill, hlt⟩ := h
      obtain ⟨hmagic, -⟩ := obsolete_get cfg.target_endian n ((le_pad4 _).trans_lt hlt) fill rest
      exact summedPass_node n hfit hfill hlt hmagic (accurate_obsolete n fill rest)

theorem Part.bytes_pos {e : Endian} {part : Part} {rest : List Byte} (h : part.Fit e rest) :
    0 < (part.bytes e).length := by
  cases part with
  | word w => exact h.1.symm ▸ (by decide : 0 < 4)
  | element el => exact (el.encode_length e h).1
  | broken bytes => exact (by decide : 0 < 4).trans_le h.2.2.2.2

/-- The loop over an eraseblock of parts. -/
theorem createSummedImage_parts (ps : List Part) (h : Fits cfg.target_endian ps) (fuel : ℕ)
    (hfuel : ps.length ≤ fuel) (s : State) :
    createSummedImage cfg fuel (image cfg.target_endian ps) s =
      ps.foldlM (fun s part => part.effect cfg s) s := by
  induction ps generalizing fuel s with
  | nil => cases fuel <;> rfl
  | cons part ps ih =>
    obtain ⟨fuel, rfl⟩ : ∃ k, fuel = k+1 := ⟨fuel-1, by rw [List.length_cons] at hfuel; omega⟩
    obtain ⟨hpart, hps⟩ := h
    have himage : image cfg.target_endian (part :: ps) =
        part.bytes cfg.target_endian ++ image cfg.target_endian ps := List.flatMap_cons
    have hpos := Part.bytes_pos hpart
    rw [List.foldlM_cons, himage]
    cases hp : part.bytes cfg.target_endian ++ image cfg.target_endian ps with
    | nil =>
      rw [List.append_eq_nil_iff] at hp
      rw [hp.1] at hpos
      exact absurd hpos (Nat.lt_irrefl 0)
    | cons b bs =>
      rw [createSummedImage, ← hp, summedPass_part hpart]
      · cases part.effect cfg s with
        | error x => rfl
        | ok s => exact ih hps fuel (by rw [List.length_cons] at hfuel; omega) s
      · exact List.cons_ne_nil b bs

/-- Every eraseblock but the last is full. -/
def Blocked (cfg : Config) : List (List Part) → Prop
  | [] => True
  | ps :: blocks =>
    Fits cfg.target_endian ps ∧ (image cfg.target_endian ps).length ≤ cfg.erase_block_size ∧
    (blocks ≠ [] → (image cfg.target_endian ps).length = cfg.erase_block_size) ∧ Blocked cfg blocks

theorem length_le_image {e : Endian} {ps : List Part} (h : Fits e ps) :
    ps.length ≤ (image e ps).length := by
  induction ps with
  | nil => exact Nat.zero_le _
  | cons part ps ih =>
    have hpos := Part.bytes_pos h.1
    have := ih h.2
    change ps.length+1 ≤ (part.bytes e ++ image e ps).length
    rw [List.length_append]
    omega

theorem image_eq_nil {e : Endian} {ps : List Part} (h : Fits e ps) (hnil : image e ps = []) :
    ps = [] := by
  have hle := length_le_image h
  rw [hnil] at hle
  exact List.eq_nil_of_length_eq_zero (Nat.le_zero.mp hle)

/-- The loop over the input. -/
theorem loadBlocks_parts (hebs : 0 < cfg.erase_block_size) (blocks : List (List Part))
    (h : Blocked cfg blocks) (fuel k : ℕ) (hfuel : (blocks.flatMap (image cfg.target_endian)).length ≤ fuel)
    (hk : (blocks.flatMap (image cfg.target_endian)).length ≤ k) (s : State) :
    loadBlocks cfg fuel k (blocks.flatMap (image cfg.target_endian)) s =
      blocks.flatten.foldlM (fun s part => part.effect cfg s) s := by
  induction blocks generalizing k s with
  | nil => cases k <;> rfl
  | cons ps blocks ih =>
    obtain ⟨hfits, hle, hfull, hrest⟩ := h
    rw [List.flatMap_cons] at hfuel hk ⊢
    rw [List.length_append] at hfuel hk
    have hrun := createSummedImage_parts ps hfits fuel ((length_le_image hfits).trans (by omega)) s
    rw [List.flatten_cons, List.foldlM_append]
    have hsplit : (image cfg.target_endian ps ++ blocks.flatMap (image cfg.target_endian)).take
          cfg.erase_block_size = image cfg.target_endian ps ∧
        (image cfg.target_endian ps ++ blocks.flatMap (image cfg.target_endian)).drop
          cfg.erase_block_size = blocks.flatMap (image cfg.target_endian) := by
      cases blocks with
      | nil =>
        rw [List.flatMap_nil, List.append_nil]
        exact ⟨List.take_of_length_le hle, List.drop_eq_nil_of_le hle⟩
      | cons qs blocks =>
        have hlen := hfull (List.cons_ne_nil _ _)
        exact ⟨List.take_left' hlen, List.drop_left' hlen⟩
    cases hp : image cfg.target_endian ps ++ blocks.flatMap (image cfg.target_endian) with
    | nil =>
      obtain ⟨hps, hblocks⟩ := List.append_eq_nil_iff.mp hp
      have hnil := image_eq_nil hfits hps
      have hloop := ih hrest k (by omega) (by omega) s
      rw [hblocks] at hloop
      rw [hnil, List.foldlM_nil, pure_bind, ← hloop]
    | cons b bs =>
      obtain ⟨k, rfl⟩ : ∃ j, k = j+1 := by
        refine ⟨k-1, ?_⟩
        have hlen := congrArg List.length hp
        rw [List.length_append, List.length_cons] at hlen
        omega
      rw [loadBlocks, ← hp, hsplit.1, hsplit.2, hrun]
      · cases hfold : ps.foldlM (fun s part => part.effect cfg s) s with
        | error x => rfl
        | ok s' =>
          have hpos : 0 < (image cfg.target_endian ps).length := by
            cases blocks with
            | nil =>
              rw [List.flatMap_nil, List.append_nil] at hp
              rw [hp]
              exact Nat.succ_pos _
            | cons qs blocks => exact (hfull (List.cons_ne_nil _ _)).symm ▸ hebs
          exact ih hrest k (by omega) (by omega) s'
      · exact List.cons_ne_nil b bs

end Parts

end ChipTools.Sumtool
