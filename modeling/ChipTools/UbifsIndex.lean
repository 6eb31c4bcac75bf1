import ChipTools.UbifsHead
import Mathlib.Data.List.Sort
import Mathlib.Data.List.Lex
import Mathlib.Data.Prod.Lex
import Mathlib.Data.List.Forall2

/-! The index of `mkfs.ubifs`: the entries are sorted and written as a tree, row by row from
the leaves. The branches of a row repeat the places of the row below by walking along it a
second time. -/
namespace ChipTools.Ubifs
open Bytes

/-- `union ubifs_key`, by its words. -/
@[ext] structure Key where
  u32_0 : BitVec 32
  u32_1 : BitVec 32
deriving DecidableEq, Inhabited, Repr

/-- The name is without its terminator. -/
structure IdxEntry where
  key : Key
  name : List Byte
  lnum : BitVec 32
  offs : BitVec 32
  len : BitVec 32
deriving DecidableEq, Inhabited, Repr

def keysCmp (key1 key2 : Key) : ℤ :=
  if key1.u32_0 < key2.u32_0 then -1
  else if key1.u32_0 > key2.u32_0 then 1
  else if key1.u32_1 < key2.u32_1 then -1
  else if key1.u32_1 > key2.u32_1 then 1
  else 0

/-- `memcmp` of the first `n` bytes. -/
def memcmp : ℕ → List Byte → List Byte → ℤ
  | n+1, a :: as, b :: bs => if a = b then memcmp n as bs else (a.toNat : ℤ)-b.toNat
  | _, _, _ => 0

def namecmp (name1 name2 : List Byte) : ℤ :=
  let len1 := name1.length
  let len2 := name2.length
  let clen := if len1 < len2 then len1 else len2
  let cmp := memcmp clen name1 name2
  if cmp ≠ 0 then cmp
  else if len1 < len2 then -1 else 1

def cmpIdx (e1 e2 : IdxEntry) : ℤ :=
  let cmp := keysCmp e1.key e2.key
  if cmp ≠ 0 then cmp else namecmp e1.name e2.name

/-- `qsort` with `cmp_idx`: an entry stays before all that compare greater. -/
def sortIdx (entries : List IdxEntry) : List IdxEntry :=
  entries.insertionSort fun e1 e2 => 0 < cmpIdx e2 e1

/-- `struct ubifs_branch` with its key. -/
structure Branch where
  lnum : BitVec 32
  offs : BitVec 32
  len : BitVec 32
  key : Key
deriving DecidableEq, Inhabited, Repr

/-- An index node. -/
structure IdxNode where
  level : ℕ
  branches : List Branch
deriving DecidableEq, Repr

def UBIFS_IDX_NODE_SZ : ℕ := 28
def UBIFS_BRANCH_SZ : ℕ := 12
def UBIFS_SK_LEN : ℕ := 8

def ubifsIdxNodeSz (child_cnt : ℕ) : ℕ := UBIFS_IDX_NODE_SZ+(UBIFS_BRANCH_SZ+UBIFS_SK_LEN)*child_cnt

def Branch.bytes (b : Branch) : List Byte :=
  le 4 b.lnum.toNat ++ (le 4 b.offs.toNat ++ (le 4 b.len.toNat ++
    (le 4 b.key.u32_0.toNat ++ le 4 b.key.u32_1.toNat)))

/-- What follows the common header. The count has two bytes. -/
def IdxNode.body (n : IdxNode) : List Byte :=
  le 2 n.branches.length ++ (le 2 n.level ++ n.branches.flatMap Branch.bytes)

/-- One call of `add_idx_node`: the node, and where it was put. -/
structure Put where
  place : Place
  len : ℕ
  node : IdxNode
deriving DecidableEq, Repr

/-- The state of the index writer. `puts` are the calls of `add_idx_node` so far. -/
structure IndexWriter where
  head : Head
  zroot : Place
  zroot_len : ℕ
  old_idx_sz : ℕ
  ihead : Place
  puts : List Put

def addIdxNode (c : UbifsInfo) (node : IdxNode) (w : IndexWriter) : IndexWriter :=
  let len := ubifsIdxNodeSz node.branches.length
  let put := putNode c UBIFS_IDX_NODE node.body w.head
  { w with head := put.2, old_idx_sz := w.old_idx_sz+align len 8, zroot := put.1
           zroot_len := len, puts := w.puts ++ [⟨put.1, len, node⟩] }

/-- The child count of node `i` of a row of `cnt` nodes over `below` children: all nodes are
full but the last. -/
def childCnt (c : UbifsInfo) (below cnt i : ℕ) : ℕ :=
  if i = cnt-1 then
    if below%c.fanout = 0 then c.fanout else below%c.fanout
  else c.fanout

def IdxEntry.branch (e : IdxEntry) : Branch := ⟨e.lnum, e.offs, e.len, e.key⟩

/-- The loop over the nodes of level 0, with `n` nodes to go and `p` the entries left. -/
def writeLevel0 (c : UbifsInfo) (idx_cnt cnt : ℕ) : ℕ → List IdxEntry → IndexWriter → IndexWriter
  | 0, _, w => w
  | n+1, p, w =>
    let child_cnt := childCnt c idx_cnt cnt (cnt-(n+1))
    let node : IdxNode := ⟨0, (p.take child_cnt).map IdxEntry.branch⟩
    writeLevel0 c idx_cnt cnt n (p.drop child_cnt) (addIdxNode c node w)

/-- Where the walk along the row below stands: `blnum`, `boffs` and `p`. -/
structure Cursor where
  blnum : ℕ
  boffs : ℕ
  p : ℕ

/-- The row below, as the loops of a level see it. -/
structure RowBelow where
  bcnt : ℕ
  blast_len : ℕ
  pstep : ℕ

/-- The branch for node `bn` of the row below. -/
def branchTo (c : UbifsInfo) (idx : List IdxEntry) (r : RowBelow) (bn : ℕ) (k : Cursor) :
    Branch × Cursor :=
  let blen := if bn = r.bcnt-1 then r.blast_len else ubifsIdxNodeSz c.fanout
  let k := if c.leb_size < k.boffs+blen then { k with blnum := k.blnum+1, boffs := 0 } else k
  (⟨BitVec.ofNat 32 k.blnum, BitVec.ofNat 32 k.boffs, BitVec.ofNat 32 blen,
      (idx.getD k.p default).key⟩,
    { k with boffs := k.boffs+align blen 8, p := k.p+r.pstep })

/-- The loop over the branches of a node: `n` of them, from `bn` on. -/
def branchesTo (c : UbifsInfo) (idx : List IdxEntry) (r : RowBelow) :
    ℕ → ℕ → Cursor → List Branch × Cursor
  | 0, _, k => ([], k)
  | n+1, bn, k =>
    let (br, k) := branchTo c idx r bn k
    let (brs, k) := branchesTo c idx r n (bn+1) k
    (br :: brs, k)

/-- The loop over the nodes of a level above 0, with `n` nodes to go. -/
def writeLevel (c : UbifsInfo) (idx : List IdxEntry) (r : RowBelow) (level cnt : ℕ) :
    ℕ → Cursor → IndexWriter → Cursor × IndexWriter
  | 0, k, w => (k, w)
  | n+1, k, w =>
    let i := cnt-(n+1)
    let child_cnt := childCnt c r.bcnt cnt i
    let (brs, k) := branchesTo c idx r child_cnt (i*c.fanout) k
    writeLevel c idx r level cnt n k (addIdxNode c ⟨level, brs⟩ w)

/-- The loop over the levels above 0. `cnt` falls with each of them, so that its value at the
start is fuel enough. -/
def writeLevels (c : UbifsInfo) (idx : List IdxEntry) :
    ℕ → (cnt level pstep child_cnt : ℕ) → Cursor → IndexWriter → IndexWriter
  | 0, _, _, _, _, _, w => w
  | fuel+1, cnt, level, pstep, child_cnt, k, w =>
    if 1 < cnt then
      let blast_len := ubifsIdxNodeSz child_cnt
      let bcnt := cnt
      let cnt := (cnt+c.fanout-1)/c.fanout
      let cnt := if cnt = 0 then 1 else cnt
      let level := level+1
      let pstep := pstep*c.fanout
      let (k, w) := writeLevel c idx ⟨bcnt, blast_len, pstep⟩ level cnt cnt { k with p := 0 } w
      writeLevels c idx fuel cnt level pstep (childCnt c bcnt cnt (cnt-1)) k w
    else w

def writeIndex (c : UbifsInfo) (entries : List IdxEntry) (w : IndexWriter) :
    Except String IndexWriter :=
  let idx_cnt := entries.length
  let w := { w with head := { w.head with head_flags := LPROPS_INDEX } }
  let sz := idx_cnt*8%2^64
  if sz/8 ≠ idx_cnt then
    .error ("index is too big (" ++ toString idx_cnt ++ " entries)")
  else
    let idx := sortIdx entries
    let cnt := idx_cnt/c.fanout
    let cnt := if idx_cnt%c.fanout ≠ 0 then cnt+1 else cnt
    let k : Cursor := ⟨w.head.head_lnum, w.head.head_offs, 0⟩
    let w := writeLevel0 c idx_cnt cnt cnt idx w
    let w := writeLevels c idx cnt cnt 0 1 (childCnt c idx_cnt cnt (cnt-1)) k w
    let w := { w with ihead := ⟨w.head.head_lnum, align w.head.head_offs c.min_io_size⟩ }
    .ok { w with head := flushNodes c w.head }

section Reader

/-- Branch `j` of the bytes of an index node. -/
def readBranch (bs : List Byte) (j : ℕ) : Branch :=
  let o := UBIFS_IDX_NODE_SZ+(UBIFS_BRANCH_SZ+UBIFS_SK_LEN)*j
  ⟨word bs o, word bs (o+4), word bs (o+8), ⟨word bs (o+12), word bs (o+16)⟩⟩

/-- An index node read from a LEB. Its header must be right, and the length that of its
child count. -/
def readNode (leb : ℕ → Byte) (offs len : ℕ) : Option IdxNode :=
  let bs := readBytes leb offs len
  let child_cnt := field bs 24 2
  if field bs 0 4 = UBIFS_NODE_MAGIC ∧
      field bs 4 4 = (mtdCrc32 UBIFS_CRC32_INIT (bs.drop 8)).toNat ∧
      field bs 16 4 = len ∧ bs.getD 20 0#8 = UBIFS_IDX_NODE ∧ len = ubifsIdxNodeSz child_cnt then
    some ⟨field bs 26 2, (List.range child_cnt).map (readBranch bs)⟩
  else none

/-- The nodes that branches lead to. -/
def readRow (image : ℕ → ℕ → Byte) (brs : List Branch) : Option (List IdxNode) :=
  brs.mapM fun b => readNode (image b.lnum.toNat) b.offs.toNat b.len.toNat

/-- The branches at the bottom under a row of nodes of a level, one level after the other. -/
def readLevels (image : ℕ → ℕ → Byte) : ℕ → List IdxNode → Option (List Branch)
  | 0, row => some (row.flatMap IdxNode.branches)
  | level+1, row =>
    match readRow image (row.flatMap IdxNode.branches) with
    | some below => if ∀ n ∈ below, n.level = level then readLevels image level below else none
    | none => none

/-- The leaf branches, read from the root. -/
def readIndex (image : ℕ → ℕ → Byte) (zroot : Place) (zroot_len : ℕ) : Option (List Branch) :=
  match readNode (image zroot.lnum) zroot.offs zroot_len with
  | some root => readLevels image root.level [root]
  | none => none

end Reader

/-- The branch leads to where the node was put, with the node's first key. -/
structure Put.IsChild (b : Branch) (p : Put) : Prop where
  lnum : b.lnum.toNat = p.place.lnum
  offs : b.offs.toNat = p.place.offs
  len : b.len.toNat = p.len
  key : p.node.branches.head?.map Branch.key = some b.key

/-- The rows `above` stand on `row` of level `level`: each row has one branch for each node
of the row below, in its order, and the last row is the root alone. -/
inductive Tower : ℕ → List Put → List (List Put) → Put → Prop
  | root {level : ℕ} {p : Put} (hl : p.node.level = level) : Tower level [p] [] p
  | up {level : ℕ} {row row' : List Put} {above : List (List Put)} {p : Put}
      (hl : ∀ q ∈ row, q.node.level = level) (hr : 1 < row.length)
      (hc : List.Forall₂ Put.IsChild (row'.flatMap fun q => q.node.branches) row)
      (ht : Tower (level+1) row' above p) : Tower level row (row' :: above) p

/-- The index of `entries`, as it stands in the image after the writer came from `w` to `w'`. -/
structure IndexTree (entries : List IdxEntry) (w w' : IndexWriter) (idx : List IdxEntry)
    (row : List Put) (above : List (List Put)) (root : Put) : Prop where
  perm : idx.Perm entries
  sorted : idx.Pairwise fun e1 e2 => cmpIdx e1 e2 < 0
  puts : w'.puts = w.puts ++ (row :: above).flatten
  leaves : row.flatMap (fun p => p.node.branches) = idx.map IdxEntry.branch
  tower : Tower 0 row above root
  zroot : w'.zroot = root.place ∧ w'.zroot_len = root.len
  stored : ∀ p ∈ (row :: above).flatten,
    readNode (w'.head.image p.place.lnum) p.place.offs p.len = some p.node
  read : readIndex w'.head.image w'.zroot w'.zroot_len = some (idx.map IdxEntry.branch)

section Order

/-- Keys first, then names. -/
def IdxEntry.order (e : IdxEntry) : ℕ ×ₗ ℕ ×ₗ List ℕ :=
  toLex (e.key.u32_0.toNat, toLex (e.key.u32_1.toNat, e.name.map BitVec.toNat))

theorem memcmp_lt_iff (name1 name2 : List Byte) :
    (memcmp (min name1.length name2.length) name1 name2 < 0 ∨
      (memcmp (min name1.length name2.length) name1 name2 = 0 ∧ name1.length < name2.length)) ↔
    name1.map BitVec.toNat < name2.map BitVec.toNat := by
  induction name1 generalizing name2 with
  | nil => cases name2 <;> simp [memcmp]
  | cons a as ih =>
    cases name2 with
    | nil => simp [memcmp]
    | cons b bs =>
      rw [List.length_cons, List.length_cons, Nat.add_min_add_right, memcmp, List.map_cons,
        List.map_cons, List.cons_lt_cons_iff, ← ih bs]
      by_cases hab : a = b
      · simp [hab]
      · have hne : a.toNat ≠ b.toNat := fun h => hab (BitVec.eq_of_toNat_eq h)
        rw [if_neg hab]
        omega

theorem namecmp_eq (name1 name2 : List Byte) :
    namecmp name1 name2 = if memcmp (min name1.length name2.length) name1 name2 ≠ 0 then
      memcmp (min name1.length name2.length) name1 name2
    else if name1.length < name2.length then -1 else 1 := by
  have hmin : (if name1.length < name2.length then name1.length else name2.length) =
      min name1.length name2.length := by
    split <;> omega
  rw [namecmp, hmin]

theorem namecmp_neg_iff (name1 name2 : List Byte) :
    namecmp name1 name2 < 0 ↔ name1.map BitVec.toNat < name2.map BitVec.toNat := by
  rw [← memcmp_lt_iff, namecmp_eq]
  split
  · omega
  · split <;> omega

theorem namecmp_ne_zero (name1 name2 : List Byte) : namecmp name1 name2 ≠ 0 := by
  rw [namecmp_eq]
  split
  · assumption
  · split <;> decide

theorem cmpIdx_ne_zero (e1 e2 : IdxEntry) : cmpIdx e1 e2 ≠ 0 := by
  unfold cmpIdx
  dsimp only
  split
  · assumption
  · exact namecmp_ne_zero _ _

theorem cmpIdx_neg_iff (e1 e2 : IdxEntry) : cmpIdx e1 e2 < 0 ↔ e1.order < e2.order := by
  rw [IdxEntry.order, IdxEntry.order, Prod.Lex.toLex_lt_toLex, Prod.Lex.toLex_lt_toLex, cmpIdx,
    ← namecmp_neg_iff]
  simp only [keysCmp, BitVec.lt_def, gt_iff_lt]
  split <;> split <;> (try split) <;> (try split) <;> simp_all <;> omega

theorem cmpIdx_pos_iff (e1 e2 : IdxEntry) : 0 < cmpIdx e1 e2 ↔ e2.order ≤ e1.order := by
  rw [← not_lt, ← cmpIdx_neg_iff]
  have := cmpIdx_ne_zero e1 e2
  omega

theorem order_injective {e1 e2 : IdxEntry} (h : e1.order = e2.order) :
    (e1.key, e1.name) = (e2.key, e2.name) := by
  have h0 : e1.key.u32_0.toNat = e2.key.u32_0.toNat := congrArg (fun x => (ofLex x).1) h
  have h1 : e1.key.u32_1.toNat = e2.key.u32_1.toNat :=
    congrArg (fun x => (ofLex (ofLex x).2).1) h
  have h2 : e1.name.map BitVec.toNat = e2.name.map BitVec.toNat :=
    congrArg (fun x => (ofLex (ofLex x).2).2) h
  have hn := List.map_injective_iff.mpr (fun a b => BitVec.eq_of_toNat_eq) h2
  rw [hn, Key.ext (BitVec.eq_of_toNat_eq h0) (BitVec.eq_of_toNat_eq h1)]

theorem sortIdx_perm (entries : List IdxEntry) : (sortIdx entries).Perm entries :=
  List.perm_insertionSort _ entries

/-- Distinct entries come out in strictly ascending order. -/
theorem sortIdx_sorted {entries : List IdxEntry}
    (hd : (entries.map fun e => (e.key, e.name)).Nodup) :
    (sortIdx entries).Pairwise fun e1 e2 => cmpIdx e1 e2 < 0 := by
  have htot : Std.Total fun e1 e2 => 0 < cmpIdx e2 e1 := by
    constructor
    intro e1 e2
    rw [cmpIdx_pos_iff, cmpIdx_pos_iff]
    exact le_total _ _
  have htrans : IsTrans IdxEntry fun e1 e2 => 0 < cmpIdx e2 e1 := by
    constructor
    intro e1 e2 e3
    rw [cmpIdx_pos_iff, cmpIdx_pos_iff, cmpIdx_pos_iff]
    exact le_trans
  have hs : (sortIdx entries).Pairwise fun e1 e2 => 0 < cmpIdx e2 e1 :=
    List.pairwise_insertionSort _ entries
  have hd' : ((sortIdx entries).map fun e => (e.key, e.name)).Nodup :=
    ((sortIdx_perm entries).map _).nodup_iff.mpr hd
  rw [List.Nodup, List.pairwise_map] at hd'
  apply (hs.and hd').imp
  intro e1 e2 he
  rw [cmpIdx_neg_iff]
  rw [cmpIdx_pos_iff] at he
  exact lt_of_le_of_ne he.1 fun h => he.2 (order_injective h)

end Order

section Reading

theorem branch_bytes_length (b : Branch) : b.bytes.length = 20 := by
  simp only [Branch.bytes, List.length_append, le_length]

theorem flatMap_bytes_length (brs : List Branch) :
    (brs.flatMap Branch.bytes).length = 20*brs.length := by
  induction brs with
  | nil => rfl
  | cons b brs ih =>
    rw [List.flatMap_cons, List.length_append, ih, branch_bytes_length, List.length_cons]
    omega

theorem body_length (n : IdxNode) : n.body.length = 4+20*n.branches.length := by
  simp only [IdxNode.body, List.length_append, le_length, flatMap_bytes_length]
  omega

theorem ubifsIdxNodeSz_eq (n : ℕ) : ubifsIdxNodeSz n = 28+20*n := rfl

/-- A branch is read back from anywhere in a node. -/
theorem readBranch_append {pre post : List Byte} {j : ℕ} (b : Branch)
    (hj : pre.length = 28+20*j) : readBranch (pre ++ (b.bytes ++ post)) j = b := by
  have h (k : ℕ) (mid : List Byte) (hk : mid.length = k) :
      (pre ++ mid).length = UBIFS_IDX_NODE_SZ+(UBIFS_BRANCH_SZ+UBIFS_SK_LEN)*j+k := by
    rw [List.length_append, hj, hk]
    rfl
  have h0 := @word_append _ (le 4 b.offs.toNat ++ (le 4 b.len.toNat ++
    (le 4 b.key.u32_0.toNat ++ (le 4 b.key.u32_1.toNat ++ post)))) _ b.lnum hj
  have h4 := @word_append _ (le 4 b.len.toNat ++
    (le 4 b.key.u32_0.toNat ++ (le 4 b.key.u32_1.toNat ++ post))) _ b.offs
    (h 4 (le 4 b.lnum.toNat) (le_length _ _))
  have h8 := @word_append _ (le 4 b.key.u32_0.toNat ++ (le 4 b.key.u32_1.toNat ++ post)) _
    b.len (h 8 (le 4 b.lnum.toNat ++ le 4 b.offs.toNat) (by simp))
  have h12 := @word_append _ (le 4 b.key.u32_1.toNat ++ post) _ b.key.u32_0
    (h 12 (le 4 b.lnum.toNat ++ (le 4 b.offs.toNat ++ le 4 b.len.toNat)) (by simp))
  have h16 := @word_append _ post _ b.key.u32_1 (h 16 (le 4 b.lnum.toNat ++
    (le 4 b.offs.toNat ++ (le 4 b.len.toNat ++ le 4 b.key.u32_0.toNat))) (by simp))
  simp only [List.append_assoc] at h4 h8 h12 h16
  simp only [readBranch, Branch.bytes, List.append_assoc, h4, h8, h12, h16]
  exact congrArg (fun x => (⟨x, b.offs, b.len, b.key⟩ : Branch)) h0

theorem readBranches {pre : List Byte} (done brs : List Branch) (hpre : pre.length = 28) :
    (List.range' done.length brs.length).map
      (readBranch (pre ++ (done ++ brs).flatMap Branch.bytes)) = brs := by
  induction brs generalizing done with
  | nil => rfl
  | cons b brs ih =>
    have htail := ih (done ++ [b])
    rw [List.length_append, List.length_singleton, List.append_assoc, List.singleton_append]
      at htail
    rw [List.length_cons, List.range'_succ, List.map_cons, htail]
    congr 1
    rw [List.flatMap_append, List.flatMap_cons, ← List.append_assoc]
    apply readBranch_append
    rw [List.length_append, hpre, flatMap_bytes_length]

/-- A prepared index node is read back, where its numbers fit their fields. -/
theorem readNode_prepared {leb : ℕ → Byte} {offs sqnum : ℕ} {n : IdxNode}
    (hb : readBytes leb offs (ubifsIdxNodeSz n.branches.length) =
      preparedNode sqnum UBIFS_IDX_NODE n.body)
    (hcnt : n.branches.length < 2^16) (hlevel : n.level < 2^16) :
    readNode leb offs (ubifsIdxNodeSz n.branches.length) = some n := by
  obtain ⟨rest, crc, hp, hcrc, hrest⟩ := preparedNode_eq sqnum UBIFS_IDX_NODE n.body
  rw [hp] at hb
  have hlen : 24+n.body.length = ubifsIdxNodeSz n.branches.length := by
    rw [body_length, ubifsIdxNodeSz_eq]
    omega
  rw [hlen] at hrest
  generalize hbs : le 4 UBIFS_NODE_MAGIC ++ (le 4 crc.toNat ++ rest) = bs at hb
  have hmagic : field bs 0 4 = UBIFS_NODE_MAGIC := by
    have h := @field_append [] _ (le 4 crc.toNat ++ rest) _ _ rfl
      (le_length 4 UBIFS_NODE_MAGIC)
    rw [List.nil_append, hbs] at h
    exact h.trans (leVal_le_of_lt (by decide))
  have hf4 : field bs 4 4 = crc.toNat := by
    rw [← hbs, field_append (le_length 4 _) (le_length 4 _)]
    exact leVal_le_of_lt crc.isLt
  have hdrop : bs.drop 8 = rest := by
    rw [← hbs, ← List.append_assoc]
    exact List.drop_left' (by simp)
  have hf16 : field bs 16 4 = ubifsIdxNodeSz n.branches.length := by
    rw [← hbs, hrest, ← List.append_assoc (le 4 crc.toNat), ← List.append_assoc (le 4 UBIFS_NODE_MAGIC),
      field_append (by simp) (le_length 4 _)]
    apply leVal_le_of_lt
    rw [ubifsIdxNodeSz_eq]
    omega
  have htype : bs.getD 20 0#8 = UBIFS_IDX_NODE := by
    rw [← hbs, hrest, ← List.append_assoc, ← List.append_assoc, ← List.append_assoc,
      List.getD_eq_getElem?_getD, List.getElem?_append_right (by simp)]
    simp
  have hhead : ∃ pre : List Byte, pre.length = 24 ∧ bs = pre ++ (le 2 n.branches.length ++
      (le 2 n.level ++ n.branches.flatMap Branch.bytes)) := by
    refine ⟨le 4 UBIFS_NODE_MAGIC ++ (le 4 crc.toNat ++ (le 8 sqnum ++
      (le 4 (ubifsIdxNodeSz n.branches.length) ++
        [UBIFS_IDX_NODE, UBIFS_NO_NODE_GROUP, 0#8, 0#8]))), by simp, ?_⟩
    rw [← hbs, hrest, IdxNode.body]
    simp only [List.append_assoc]
  obtain ⟨pre, hpre, hhead⟩ := hhead
  have hf24 : field bs 24 2 = n.branches.length := by
    rw [hhead, field_append hpre (le_length 2 _), leVal_le_of_lt hcnt]
  have hf26 : field bs 26 2 = n.level := by
    rw [hhead, ← List.append_assoc, field_append (by simp [hpre]) (le_length 2 _),
      leVal_le_of_lt hlevel]
  have hbr : (List.range n.branches.length).map (readBranch bs) = n.branches := by
    have := @readBranches (pre ++ (le 2 n.branches.length ++ le 2 n.level)) [] n.branches
      (by simp [hpre])
    rw [List.nil_append, List.length_nil, ← List.range_eq_range'] at this
    rw [hhead]
    simpa only [List.append_assoc] using this
  rw [readNode, hb, hmagic, hf4, hdrop, hf16, htype, hf24, hf26, hbr, ← hcrc,
    if_pos ⟨rfl, rfl, rfl, rfl, rfl⟩]

/-- The count has two bytes, so that no longer node is read. -/
theorem readNode_cnt_lt {leb : ℕ → Byte} {offs len : ℕ} {n : IdxNode}
    (h : readNode leb offs len = some n) : n.branches.length < 2^16 := by
  unfold readNode at h
  dsimp only at h
  split at h
  · obtain rfl := Option.some.inj h
    rw [List.length_map, List.length_range, field]
    have hlt := leVal_lt (((readBytes leb offs len).drop 24).take 2)
    have hle : 256^(((readBytes leb offs len).drop 24).take 2).length ≤ 256^2 :=
      Nat.pow_le_pow_right (by decide) (List.length_take_le _ _)
    exact lt_of_lt_of_le hlt hle
  · cases h

end Reading

section Rows

variable {c : UbifsInfo} {idx : List IdxEntry}

/-- A row of nodes over `kids`: all are full but the last. -/
inductive Chunked (f level : ℕ) : List Branch → List IdxNode → Prop
  | last {brs : List Branch} (hne : brs ≠ []) (hle : brs.length ≤ f) :
      Chunked f level brs [⟨level, brs⟩]
  | cons {brs kids : List Branch} {nodes : List IdxNode} (hf : brs.length = f)
      (hk : Chunked f level kids nodes) : Chunked f level (brs ++ kids) (⟨level, brs⟩ :: nodes)

variable {f level : ℕ} {kids : List Branch} {nodes : List IdxNode}

theorem Chunked.flatMap (h : Chunked f level kids nodes) :
    nodes.flatMap IdxNode.branches = kids := by
  induction h with
  | last => simp
  | cons hf hk ih => rw [List.flatMap_cons, ih]

theorem Chunked.ne_nil (h : Chunked f level kids nodes) : nodes ≠ [] := by
  cases h <;> exact List.cons_ne_nil _ _

theorem Chunked.node (h : Chunked f level kids nodes) :
    ∀ n ∈ nodes, n.level = level ∧ n.branches.length ≤ f ∧ n.branches.length ≤ kids.length := by
  induction h with
  | last hne hle =>
    intro n hn
    obtain rfl := List.mem_singleton.mp hn
    exact ⟨rfl, hle, le_refl _⟩
  | cons hf hk ih =>
    intro n hn
    rw [List.length_append]
    rcases List.mem_cons.mp hn with rfl | hn
    · exact ⟨rfl, hf.le, by dsimp only; omega⟩
    · obtain ⟨hl, hle, hk⟩ := ih n hn
      exact ⟨hl, hle, by omega⟩

/-- The last node has what the full ones leave. -/
theorem Chunked.length (h : Chunked f level kids nodes) :
    (nodes.length-1)*f < kids.length ∧ kids.length ≤ nodes.length*f := by
  induction h with
  | last hne hle => exact ⟨by simpa using List.length_pos_iff.mpr hne, by simpa using hle⟩
  | @cons brs kids nodes hf hk ih =>
    have hpos := List.length_pos_iff.mpr hk.ne_nil
    have hn : nodes.length-1+1 = nodes.length := by omega
    have hm : nodes.length*f = (nodes.length-1)*f+f := by
      rw [← Nat.succ_mul, Nat.succ_eq_add_one, hn]
    rw [List.length_append, List.length_cons, Nat.add_sub_cancel, Nat.succ_mul]
    omega

/-- The lengths of the nodes, by their number. -/
theorem Chunked.sizes (h : Chunked f level kids nodes) (j : ℕ) (hj : j < nodes.length) :
    (nodes.get ⟨j, hj⟩).branches.length =
      if j = nodes.length-1 then kids.length-(nodes.length-1)*f else f := by
  induction h generalizing j with
  | last hne hle =>
    obtain rfl : j = 0 := by simpa using hj
    simp
  | @cons brs kids nodes hf hk ih =>
    have hpos := List.length_pos_iff.mpr hk.ne_nil
    change _ = if j = nodes.length then (brs ++ kids).length-nodes.length*f else f
    cases j with
    | zero =>
      rw [if_neg (by omega)]
      exact hf
    | succ j =>
      have hn : nodes.length = nodes.length-1+1 := by omega
      have hm : nodes.length*f = (nodes.length-1)*f+f := by
        rw [← Nat.succ_mul, Nat.succ_eq_add_one, ← hn]
      refine (ih j (by simpa using hj)).trans ?_
      rw [List.length_append]
      by_cases hl : j = nodes.length-1
      · rw [if_pos hl, if_pos (by omega)]
        omega
      · rw [if_neg hl, if_neg (by omega)]

/-- The first branch of a node is a branch of the row, at a step of the fanout. -/
theorem Chunked.head (h : Chunked f level kids nodes) (hf0 : 0 < f) (j : ℕ)
    (hj : j < nodes.length) : (nodes.get ⟨j, hj⟩).branches.head? = kids[j*f]? := by
  induction h generalizing j with
  | last hne hle =>
    obtain rfl : j = 0 := by simpa using hj
    simp [List.head?_eq_getElem?]
  | @cons brs kids nodes hf hk ih =>
    cases j with
    | zero =>
      rw [Nat.zero_mul, List.getElem?_append_left (by omega)]
      exact List.head?_eq_getElem?
    | succ j =>
      have hm : (j+1)*f = j*f+f := Nat.succ_mul j f
      rw [List.getElem?_append_right (by omega), hm, hf, Nat.add_sub_cancel]
      exact ih j (by simpa using hj)

/-- Where the nodes of a row go, with the head at `pos`. -/
def putsAt (c : UbifsInfo) : Place → List IdxNode → List Put
  | _, [] => []
  | pos, n :: ns =>
    let len := ubifsIdxNodeSz n.branches.length
    let p := fit c pos len
    ⟨p, len, n⟩ :: putsAt c (behind p len) ns

/-- The head behind a row. -/
def endAt (c : UbifsInfo) : Place → List IdxNode → Place
  | pos, [] => pos
  | pos, n :: ns =>
    let len := ubifsIdxNodeSz n.branches.length
    endAt c (behind (fit c pos len) len) ns

theorem putsAt_node (pos : Place) (ns : List IdxNode) : (putsAt c pos ns).map Put.node = ns := by
  induction ns generalizing pos with
  | nil => rfl
  | cons n ns ih => rw [putsAt, List.map_cons, ih]

theorem putsAt_length (pos : Place) (ns : List IdxNode) :
    (putsAt c pos ns).length = ns.length := by
  have := congrArg List.length (putsAt_node (c := c) pos ns)
  rwa [List.length_map] at this

theorem putsAt_mem {pos : Place} {ns : List IdxNode} {p : Put} (h : p ∈ putsAt c pos ns) :
    p.node ∈ ns ∧ p.len = ubifsIdxNodeSz p.node.branches.length := by
  induction ns generalizing pos with
  | nil => cases h
  | cons n ns ih =>
    rcases List.mem_cons.mp h with rfl | h
    · exact ⟨List.mem_cons_self, rfl⟩
    · obtain ⟨hm, hl⟩ := ih h
      exact ⟨List.mem_cons_of_mem _ hm, hl⟩

/-- The nodes written one after the other. -/
def addRow (c : UbifsInfo) (ns : List IdxNode) (w : IndexWriter) : IndexWriter :=
  ns.foldl (fun w n => addIdxNode c n w) w

theorem addRow_cons (n : IdxNode) (ns : List IdxNode) (w : IndexWriter) :
    addRow c (n :: ns) w = addRow c ns (addIdxNode c n w) := by
  rw [addRow, List.foldl_cons]
  rfl

/-- The node can be read where it was put. -/
structure Stored (s : Head) (p : Put) : Prop where
  len : p.len = ubifsIdxNodeSz p.node.branches.length
  bytes : ∃ sqnum, readBytes (s.byte p.place.lnum) p.place.offs p.len =
    preparedNode sqnum UBIFS_IDX_NODE p.node.body
  below : ∀ i < p.len, s.Below p.place.lnum (p.place.offs+i)

theorem Stored.keeps {s s' : Head} {p : Put} (h : Stored s p) (hk : s.Keeps s') : Stored s' p := by
  obtain ⟨sqnum, hb⟩ := h.bytes
  refine ⟨h.len, ⟨sqnum, ?_⟩, fun i hi => (hk _ _ (h.below i hi)).2⟩
  rw [← hb]
  exact readBytes_congr fun i hi => (hk _ _ (h.below i hi)).1

/-- What writing a row does. -/
structure RowSpec (c : UbifsInfo) (ns : List IdxNode) (w w' : IndexWriter) : Prop where
  puts : w'.puts = w.puts ++ putsAt c w.head.place ns
  head : w'.head.place = endAt c w.head.place ns
  fits : w'.head.Fits c
  keeps : w.head.Keeps w'.head
  stored : ∀ p ∈ putsAt c w.head.place ns, Stored w'.head p
  zroot : ∀ p ∈ (putsAt c w.head.place ns).getLast?, w'.zroot = p.place ∧ w'.zroot_len = p.len

theorem addIdxNode_spec (hc : c.Accepted) {w : IndexWriter} (hs : w.head.Fits c) (n : IdxNode)
    (hn : ubifsIdxNodeSz n.branches.length ≤ c.leb_size) :
    RowSpec c [n] w (addIdxNode c n w) := by
  have hl : 24+n.body.length = ubifsIdxNodeSz n.branches.length := by
    rw [body_length, ubifsIdxNodeSz_eq]
    omega
  have h := @putNode_spec _ _ hc hs UBIFS_IDX_NODE n.body (by omega)
  have hlen := (preparedNode_length (w.head.max_sqnum+1) UBIFS_IDX_NODE n.body).trans hl
  obtain ⟨hp, hh, hf, hk, hb, hbelow⟩ := h
  rw [hlen] at hp hh hb hbelow
  have hpt : putsAt c w.head.place [n] =
      [⟨(putNode c UBIFS_IDX_NODE n.body w.head).1, ubifsIdxNodeSz n.branches.length, n⟩] := by
    rw [hp]
    rfl
  constructor
  · rw [hpt]
    rfl
  · rw [endAt, endAt, ← hp]
    exact hh
  · exact hf
  · exact hk
  · rw [hpt]
    intro p hmem
    obtain rfl := List.mem_singleton.mp hmem
    exact ⟨rfl, ⟨_, hb⟩, hbelow⟩
  · rw [hpt]
    intro p hmem
    obtain rfl := Option.mem_some.mp hmem
    exact ⟨rfl, rfl⟩

theorem addRow_spec (hc : c.Accepted) (ns : List IdxNode) {w : IndexWriter} (hs : w.head.Fits c)
    (hn : ∀ n ∈ ns, ubifsIdxNodeSz n.branches.length ≤ c.leb_size) :
    RowSpec c ns w (addRow c ns w) := by
  induction ns generalizing w with
  | nil =>
    refine ⟨(List.append_nil _).symm, rfl, hs, Head.Keeps.refl _, ?_, ?_⟩
    · intro p hp
      cases hp
    · intro p hp
      cases hp
  | cons n ns ih =>
    have h1 := addIdxNode_spec hc hs n (hn n List.mem_cons_self)
    have h2 := ih h1.fits fun m hm => hn m (List.mem_cons_of_mem _ hm)
    have hput : putsAt c w.head.place (n :: ns) =
        putsAt c w.head.place [n] ++ putsAt c (addIdxNode c n w).head.place ns := by
      rw [h1.head]
      rfl
    rw [addRow_cons]
    constructor
    · rw [hput, ← List.append_assoc, ← h1.puts]
      exact h2.puts
    · rw [endAt]
      refine h2.head.trans ?_
      rw [h1.head]
      rfl
    · exact h2.fits
    · exact h1.keeps.trans h2.keeps
    · intro p hp
      rw [hput] at hp
      rcases List.mem_append.mp hp with hp | hp
      · exact (h1.stored p hp).keeps h2.keeps
      · exact h2.stored p hp
    · intro p hp
      rw [hput] at hp
      cases ns with
      | nil =>
        rw [putsAt, List.append_nil] at hp
        exact h1.zroot p hp
      | cons m ms =>
        rw [List.getLast?_append_of_ne_nil _ (by rw [putsAt]; exact List.cons_ne_nil _ _)] at hp
        exact h2.zroot p hp

end Rows

section Loops

variable {c : UbifsInfo} {idx : List IdxEntry} {r : RowBelow}

theorem childCnt_last {total cnt m : ℕ} (hm0 : 0 < m) (hm : m ≤ c.fanout)
    (ht : total = (cnt-1)*c.fanout+m) : childCnt c total cnt (cnt-1) = m := by
  rw [childCnt, if_pos rfl, ht, Nat.mul_add_mod_self_right]
  rcases Nat.lt_or_eq_of_le hm with h | h
  · rw [Nat.mod_eq_of_lt h, if_neg (by omega)]
  · rw [h, Nat.mod_self, if_pos rfl]

/-- The loop of level 0 writes a row over the entries that are left. -/
theorem writeLevel0_row {idx_cnt cnt : ℕ} (n : ℕ) (p : List IdxEntry) (w : IndexWriter)
    (hn : n < cnt) (hp : idx_cnt = (cnt-(n+1))*c.fanout+p.length) (hlo : n*c.fanout < p.length)
    (hhi : p.length ≤ (n+1)*c.fanout) :
    ∃ ns, writeLevel0 c idx_cnt cnt (n+1) p w = addRow c ns w ∧
      Chunked c.fanout 0 (p.map IdxEntry.branch) ns ∧ ns.length = n+1 := by
  induction n generalizing p w with
  | zero =>
    rw [Nat.zero_add, Nat.one_mul] at hhi
    have hcc := childCnt_last (by omega) hhi hp
    refine ⟨[⟨0, p.map IdxEntry.branch⟩], ?_, Chunked.last ?_ ?_, rfl⟩
    · rw [writeLevel0, writeLevel0, hcc, List.take_length]
      rfl
    · rw [ne_eq, List.map_eq_nil_iff, ← List.length_eq_zero_iff]
      omega
    · rw [List.length_map]
      exact hhi
  | succ n ih =>
    have hcc : childCnt c idx_cnt cnt (cnt-(n+1+1)) = c.fanout := if_neg (by omega)
    have hm1 : (n+1)*c.fanout = n*c.fanout+c.fanout := Nat.succ_mul n _
    have hm2 : (n+1+1)*c.fanout = (n+1)*c.fanout+c.fanout := Nat.succ_mul (n+1) _
    have hm3 : (cnt-(n+1))*c.fanout = (cnt-(n+1+1))*c.fanout+c.fanout := by
      rw [← Nat.succ_mul]
      congr 1
      omega
    have hdrop : (p.drop c.fanout).length = p.length-c.fanout := List.length_drop
    obtain ⟨ns, hw, hch, hl⟩ := ih (p.drop c.fanout)
      (addIdxNode c ⟨0, (p.take c.fanout).map IdxEntry.branch⟩ w) (by omega) (by omega)
      (by omega) (by omega)
    refine ⟨⟨0, (p.take c.fanout).map IdxEntry.branch⟩ :: ns, ?_, ?_, by rw [List.length_cons, hl]⟩
    · rw [writeLevel0, hcc]
      exact hw
    · have hsplit : p.map IdxEntry.branch =
          (p.take c.fanout).map IdxEntry.branch ++ (p.drop c.fanout).map IdxEntry.branch := by
        rw [← List.map_append, List.take_append_drop]
      rw [hsplit]
      apply Chunked.cons _ hch
      rw [List.length_map, List.length_take]
      omega

theorem branchesTo_length (n bn : ℕ) (k : Cursor) : (branchesTo c idx r n bn k).1.length = n := by
  induction n generalizing bn k with
  | zero => rfl
  | succ n ih => exact congrArg (·+1) (ih _ _)

theorem branchesTo_add (n m bn : ℕ) (k : Cursor) :
    branchesTo c idx r (n+m) bn k =
      ((branchesTo c idx r n bn k).1 ++
        (branchesTo c idx r m (bn+n) (branchesTo c idx r n bn k).2).1,
      (branchesTo c idx r m (bn+n) (branchesTo c idx r n bn k).2).2) := by
  induction n generalizing bn k with
  | zero =>
    rw [Nat.zero_add]
    rfl
  | succ n ih =>
    rw [Nat.succ_add, branchesTo, branchesTo]
    dsimp only
    rw [ih, show bn+1+n = bn+(n+1) by omega]
    rfl

/-- The loop of a level above 0 writes a row over the branches to what is left of the row
below. -/
theorem writeLevel_row {level cnt : ℕ} (n m : ℕ) (k : Cursor) (w : IndexWriter) (hn : n < cnt)
    (hp : r.bcnt = (cnt-(n+1))*c.fanout+m) (hlo : n*c.fanout < m) (hhi : m ≤ (n+1)*c.fanout) :
    ∃ ns, writeLevel c idx r level cnt (n+1) k w =
        ((branchesTo c idx r m ((cnt-(n+1))*c.fanout) k).2, addRow c ns w) ∧
      Chunked c.fanout level (branchesTo c idx r m ((cnt-(n+1))*c.fanout) k).1 ns ∧
      ns.length = n+1 := by
  induction n generalizing m k w with
  | zero =>
    rw [Nat.zero_add, Nat.one_mul] at hhi
    have hcc := childCnt_last (by omega) hhi hp
    rw [Nat.zero_add]
    refine ⟨[⟨level, (branchesTo c idx r m ((cnt-1)*c.fanout) k).1⟩], ?_, Chunked.last ?_ ?_, rfl⟩
    · rw [writeLevel, hcc]
      rfl
    · rw [ne_eq, ← List.length_eq_zero_iff, branchesTo_length]
      omega
    · rw [branchesTo_length]
      exact hhi
  | succ n ih =>
    have hcc : childCnt c r.bcnt cnt (cnt-(n+1+1)) = c.fanout := if_neg (by omega)
    have hm1 : (n+1)*c.fanout = n*c.fanout+c.fanout := Nat.succ_mul n _
    have hm2 : (n+1+1)*c.fanout = (n+1)*c.fanout+c.fanout := Nat.succ_mul (n+1) _
    have hm3 : (cnt-(n+1))*c.fanout = (cnt-(n+1+1))*c.fanout+c.fanout := by
      rw [← Nat.succ_mul]
      congr 1
      omega
    set bn := (cnt-(n+1+1))*c.fanout with hbn
    set first := branchesTo c idx r c.fanout bn k with hfirst
    obtain ⟨ns, hw, hch, hl⟩ := ih (m-c.fanout) first.2 (addIdxNode c ⟨level, first.1⟩ w)
      (by omega) (by omega) (by omega) (by omega)
    have hadd := @branchesTo_add c idx r c.fanout (m-c.fanout) bn k
    rw [show c.fanout+(m-c.fanout) = m by omega, ← hfirst, ← hm3] at hadd
    refine ⟨⟨level, first.1⟩ :: ns, ?_, ?_, by rw [List.length_cons, hl]⟩
    · rw [writeLevel, hcc, hadd]
      exact hw
    · rw [hadd]
      exact Chunked.cons (branchesTo_length _ _ _) hch

/-- The branch that leads to a node put somewhere. -/
def Put.branch (p : Put) : Branch :=
  ⟨BitVec.ofNat 32 p.place.lnum, BitVec.ofNat 32 p.place.offs, BitVec.ofNat 32 p.len,
    (p.node.branches.head?.map Branch.key).getD default⟩

/-- The walk along a row comes to the places where its nodes were put. -/
theorem branchesTo_walk (ns : List IdxNode) (bn p : ℕ) (pos : Place)
    (hlen : ∀ j (hj : j < ns.length), ubifsIdxNodeSz (ns.get ⟨j, hj⟩).branches.length =
      if bn+j = r.bcnt-1 then r.blast_len else ubifsIdxNodeSz c.fanout)
    (hkey : ∀ j (hj : j < ns.length), (ns.get ⟨j, hj⟩).branches.head?.map Branch.key =
      some (idx.getD (p+j*r.pstep) default).key) :
    branchesTo c idx r ns.length bn ⟨pos.lnum, pos.offs, p⟩ =
      ((putsAt c pos ns).map Put.branch,
        ⟨(endAt c pos ns).lnum, (endAt c pos ns).offs, p+ns.length*r.pstep⟩) := by
  induction ns generalizing bn p pos with
  | nil => simp [branchesTo, putsAt, endAt]
  | cons n ns ih =>
    have hl0 : ubifsIdxNodeSz n.branches.length =
        if bn = r.bcnt-1 then r.blast_len else ubifsIdxNodeSz c.fanout :=
      hlen 0 (Nat.succ_pos _)
    have hk0 : n.branches.head?.map Branch.key = some (idx.getD p default).key := by
      simpa using hkey 0 (Nat.succ_pos _)
    set len := ubifsIdxNodeSz n.branches.length with hlen0
    have hstep : branchTo c idx r bn ⟨pos.lnum, pos.offs, p⟩ =
        (Put.branch ⟨fit c pos len, len, n⟩, ⟨(behind (fit c pos len) len).lnum,
          (behind (fit c pos len) len).offs, p+r.pstep⟩) := by
      rw [branchTo, Put.branch, hk0, ← hl0, fit]
      dsimp only
      split <;> rfl
    have htail := ih (bn+1) (p+r.pstep) (behind (fit c pos len) len)
      (fun j hj => by
        have := hlen (j+1) (Nat.succ_lt_succ hj)
        rwa [show bn+(j+1) = bn+1+j by omega] at this)
      (fun j hj => by
        have := hkey (j+1) (Nat.succ_lt_succ hj)
        rwa [Nat.succ_mul, show p+(j*r.pstep+r.pstep) = p+r.pstep+j*r.pstep by omega] at this)
    rw [List.length_cons, branchesTo, hstep]
    dsimp only
    rw [htail, Nat.succ_mul, show p+(ns.length*r.pstep+r.pstep) = p+r.pstep+ns.length*r.pstep by omega]
    rfl

end Loops

section Levels

variable {c : UbifsInfo} {idx : List IdxEntry}

/-- The keys of a row of branches stand at steps of `pstep` in the sorted entries. -/
def KeysAt (idx : List IdxEntry) (pstep : ℕ) (kids : List Branch) : Prop :=
  ∀ i b, kids[i]? = some b → i*pstep < idx.length ∧ b.key = (idx.getD (i*pstep) default).key

theorem UbifsInfo.Accepted.node_le (hc : c.Accepted) {n : ℕ} (hn : n ≤ c.fanout) :
    ubifsIdxNodeSz n ≤ c.leb_size := by
  have h := hc.fanout_max
  have h' := hc.leb_min
  rw [ubifsIdxNodeSz_eq]
  omega

theorem putsAt_offs_le {pos : Place} {ns : List IdxNode} {p : Put}
    (hn : ∀ n ∈ ns, ubifsIdxNodeSz n.branches.length ≤ c.leb_size) (h : p ∈ putsAt c pos ns) :
    p.place.offs+p.len ≤ c.leb_size := by
  induction ns generalizing pos with
  | nil => cases h
  | cons n ns ih =>
    rcases List.mem_cons.mp h with rfl | h
    · exact fit_le (hn n List.mem_cons_self)
    · exact ih (fun m hm => hn m (List.mem_cons_of_mem _ hm)) h

/-- The nodes above `row` have been written, and all can be read. -/
structure Stands (c : UbifsInfo) (idx : List IdxEntry) (level : ℕ) (row : List Put)
    (w w' : IndexWriter) (above : List (List Put)) (root : Put) : Prop where
  puts : w'.puts = w.puts ++ above.flatten
  tower : Tower level row above root
  zroot : w'.zroot = root.place ∧ w'.zroot_len = root.len
  keeps : w.head.Keeps w'.head
  stored : ∀ p ∈ (row :: above).flatten, Stored w'.head p
  level_lt : ∀ p ∈ (row :: above).flatten, p.node.level < 2^16
  cnt_le : ∀ p ∈ (row :: above).flatten, p.node.branches.length ≤ c.fanout ∧
    p.node.branches.length ≤ idx.length

/-- A row that has been written: its nodes are `ns`, over `kids`, from `pos` on. -/
structure RowWritten (c : UbifsInfo) (idx : List IdxEntry) (level pstep : ℕ) (kids : List Branch)
    (ns : List IdxNode) (pos : Place) (w : IndexWriter) : Prop where
  chunked : Chunked c.fanout level kids ns
  keys : KeysAt idx pstep kids
  kids_le : kids.length ≤ idx.length
  level_lt : level < 2^16
  pow : 2^level ≤ pstep
  head : w.head.place = endAt c pos ns
  fits : w.head.Fits c
  stored : ∀ p ∈ putsAt c pos ns, Stored w.head p
  zroot : ∀ p ∈ (putsAt c pos ns).getLast?, w.zroot = p.place ∧ w.zroot_len = p.len

section Row

variable {level pstep : ℕ} {kids : List Branch} {ns : List IdxNode} {pos : Place}
  {w : IndexWriter}

theorem RowWritten.node_mem (h : RowWritten c idx level pstep kids ns pos w) {p : Put}
    (hp : p ∈ putsAt c pos ns) : p.node.level = level ∧ p.node.branches.length ≤ c.fanout ∧
      p.node.branches.length ≤ idx.length := by
  obtain ⟨hl, hf, hk⟩ := h.chunked.node p.node (putsAt_mem hp).1
  exact ⟨hl, hf, hk.trans h.kids_le⟩

/-- The first keys of the nodes stand at the step of the next level. -/
theorem RowWritten.head_key (hc : c.Accepted) (h : RowWritten c idx level pstep kids ns pos w)
    (j : ℕ) (hj : j < ns.length) : j*(pstep*c.fanout) < idx.length ∧
      (ns.get ⟨j, hj⟩).branches.head?.map Branch.key =
        some (idx.getD (j*(pstep*c.fanout)) default).key := by
  have hf : 0 < c.fanout := Nat.lt_of_lt_of_le (by decide) hc.fanout_min
  have hlt : j*c.fanout < kids.length :=
    Nat.lt_of_le_of_lt (Nat.mul_le_mul_right _ (by omega)) h.chunked.length.1
  have hget : kids[j*c.fanout]? = some kids[j*c.fanout] := List.getElem?_eq_getElem hlt
  obtain ⟨hr, hk⟩ := h.keys _ _ hget
  have hm : j*c.fanout*pstep = j*(pstep*c.fanout) := by
    rw [Nat.mul_assoc, Nat.mul_comm c.fanout]
  rw [hm] at hr hk
  refine ⟨hr, ?_⟩
  rw [h.chunked.head hf j hj, hget, Option.map_some, hk]

/-- The branches to the row are to where its nodes are. -/
theorem RowWritten.isChild (hc : c.Accepted) (h : RowWritten c idx level pstep kids ns pos w)
    (hl : ∀ p ∈ putsAt c pos ns, p.place.lnum < 2^32) {p : Put} (hp : p ∈ putsAt c pos ns) :
    Put.IsChild p.branch p := by
  have hle := putsAt_offs_le (fun n hn => hc.node_le (h.chunked.node n hn).2.1) hp
  have hmax := hc.leb_max
  obtain ⟨j, hj, hget⟩ := List.getElem_of_mem (putsAt_mem hp).1
  have hkey := (h.head_key hc j hj).2
  rw [List.get_eq_getElem, hget] at hkey
  refine ⟨?_, ?_, ?_, ?_⟩
  · exact Nat.mod_eq_of_lt (hl p hp)
  · exact Nat.mod_eq_of_lt (by omega)
  · exact Nat.mod_eq_of_lt (by omega)
  · rw [Put.branch, hkey]
    rfl

/-- The count of the nodes over `m` children, rounded up. -/
theorem ceil_bounds {m f : ℕ} (hm : 0 < m) (hf : 0 < f) :
    0 < (m+f-1)/f ∧ ((m+f-1)/f-1)*f < m ∧ m ≤ (m+f-1)/f*f := by
  have h := Nat.div_add_mod (m+f-1) f
  have hlt := Nat.mod_lt (m+f-1) hf
  have hpos : 0 < (m+f-1)/f := Nat.div_pos (by omega) hf
  have hs : (m+f-1)/f*f = ((m+f-1)/f-1)*f+f := by
    rw [← Nat.succ_mul, Nat.succ_eq_add_one, Nat.sub_add_cancel hpos]
  rw [Nat.mul_comm] at h
  refine ⟨hpos, ?_, ?_⟩ <;> omega

theorem ceil_lt {m f : ℕ} (hm : 1 < m) (hf : 2 ≤ f) : (m+f-1)/f < m := by
  obtain ⟨a, rfl⟩ := Nat.exists_eq_add_of_le hm
  obtain ⟨b, rfl⟩ := Nat.exists_eq_add_of_le hf
  have hm : (2+a)*(2+b) = 4+2*a+2*b+a*b := by ring
  rw [Nat.div_lt_iff_lt_mul (by omega), hm]
  omega

/-- One more level: the walk ends where the head was, and the new row stands on the old. -/
theorem RowWritten.next (hc : c.Accepted) (hidx : idx.length < 2^61)
    (h : RowWritten c idx level pstep kids ns pos w) (hcnt : 1 < ns.length) {cnt : ℕ}
    (hcnt' : cnt = (ns.length+c.fanout-1)/c.fanout) :
    ∃ ns', writeLevel c idx
        ⟨ns.length, ubifsIdxNodeSz (kids.length-(ns.length-1)*c.fanout), pstep*c.fanout⟩
        (level+1) cnt cnt ⟨pos.lnum, pos.offs, 0⟩ w =
      (⟨w.head.place.lnum, w.head.place.offs, ns.length*(pstep*c.fanout)⟩, addRow c ns' w) ∧
      ns'.length = cnt ∧ RowSpec c ns' w (addRow c ns' w) ∧
      RowWritten c idx (level+1) (pstep*c.fanout) ((putsAt c pos ns).map Put.branch) ns'
        w.head.place (addRow c ns' w) := by
  have hf : 0 < c.fanout := Nat.lt_of_lt_of_le (by decide) hc.fanout_min
  obtain ⟨hpos, hlo, hhi⟩ := ceil_bounds (Nat.lt_of_succ_lt hcnt) hf
  rw [← hcnt'] at hpos hlo hhi
  obtain ⟨n, rfl⟩ : ∃ n, cnt = n+1 := ⟨cnt-1, by omega⟩
  set r : RowBelow :=
    ⟨ns.length, ubifsIdxNodeSz (kids.length-(ns.length-1)*c.fanout), pstep*c.fanout⟩ with hr
  have hwalk := @branchesTo_walk c idx r ns 0 0 pos
    (fun j hj => by
      rw [h.chunked.sizes j hj, Nat.zero_add]
      split <;> rfl)
    (fun j hj => by
      rw [Nat.zero_add]
      exact (h.head_key hc j hj).2)
  obtain ⟨ns', hw, hch, hl⟩ := @writeLevel_row c idx r (level+1) _
    n ns.length ⟨pos.lnum, pos.offs, 0⟩ w (Nat.lt_succ_self n) (by simp [hr]) hlo hhi
  rw [Nat.sub_self, Nat.zero_mul, hwalk] at hw hch
  have hsz : ∀ m ∈ ns', ubifsIdxNodeSz m.branches.length ≤ c.leb_size :=
    fun m hm => hc.node_le (hch.node m hm).2.1
  have hspec := addRow_spec hc ns' h.fits hsz
  have hkeys : KeysAt idx (pstep*c.fanout) ((putsAt c pos ns).map Put.branch) := by
    intro i b hb
    rw [List.getElem?_map, Option.map_eq_some_iff] at hb
    obtain ⟨p, hp, rfl⟩ := hb
    have hn : ns[i]? = some p.node := by
      rw [← putsAt_node (c := c) pos ns, List.getElem?_map, hp, Option.map_some]
    obtain ⟨hi, hget⟩ := List.getElem?_eq_some_iff.mp hn
    obtain ⟨hlt, hkey⟩ := h.head_key hc i hi
    rw [List.get_eq_getElem, hget] at hkey
    refine ⟨hlt, ?_⟩
    rw [Put.branch, hkey]
    rfl
  have hpow : 2^(level+1) ≤ pstep*c.fanout := by
    rw [pow_succ]
    exact Nat.mul_le_mul h.pow (Nat.le_of_succ_le hc.fanout_min)
  have hlevel : level+1 < 2^16 := by
    -- the second node of the row below starts with an entry
    have h1 := (h.head_key hc 1 hcnt).1
    have hlt : 2^(level+1) < 2^61 := by omega
    have := (Nat.pow_lt_pow_iff_right (by decide)).mp hlt
    omega
  have hkl : ((putsAt c pos ns).map Put.branch).length ≤ idx.length := by
    have h1 := h.chunked.length.1
    have h2 : ns.length-1 ≤ (ns.length-1)*c.fanout := Nat.le_mul_of_pos_right _ hf
    have h3 := h.kids_le
    rw [List.length_map, putsAt_length]
    omega
  refine ⟨ns', ?_, hl, hspec, hch, hkeys, hkl, hlevel, hpow, hspec.head, hspec.fits, hspec.stored,
    hspec.zroot⟩
  rw [hw, Nat.zero_add, h.head]

end Row

/-- The levels above a row. -/
theorem writeLevels_stands (hc : c.Accepted) (hidx : idx.length < 2^61) (fuel : ℕ)
    {level pstep : ℕ} {kids : List Branch} {ns : List IdxNode} {pos : Place} {w : IndexWriter}
    (p : ℕ) (h : RowWritten c idx level pstep kids ns pos w) (hfuel : ns.length ≤ fuel)
    (hfin : (writeLevels c idx fuel ns.length level pstep (kids.length-(ns.length-1)*c.fanout)
      ⟨pos.lnum, pos.offs, p⟩ w).head.head_lnum < 2^32) :
    ∃ above root, Stands c idx level (putsAt c pos ns) w
      (writeLevels c idx fuel ns.length level pstep (kids.length-(ns.length-1)*c.fanout)
        ⟨pos.lnum, pos.offs, p⟩ w) above root := by
  have hpos := List.length_pos_iff.mpr h.chunked.ne_nil
  induction fuel generalizing level pstep kids ns pos w p with
  | zero => omega
  | succ fuel ih =>
    rw [writeLevels] at hfin ⊢
    by_cases hcnt : 1 < ns.length
    · rw [if_pos hcnt] at hfin ⊢
      dsimp only at hfin ⊢
      have hf := hc.fanout_min
      obtain ⟨hcpos, hlo, hhi⟩ := ceil_bounds hpos (Nat.lt_of_lt_of_le (by decide) hf)
      have hlt := ceil_lt hcnt (Nat.le_of_succ_le hf)
      rw [if_neg (by omega)] at hfin ⊢
      obtain ⟨ns', hw, hl, hspec, hrow⟩ := h.next hc hidx hcnt rfl
      rw [hw] at hfin ⊢
      dsimp only at hfin ⊢
      have hcc : childCnt c ns.length ns'.length (ns'.length-1) =
          ((putsAt c pos ns).map Put.branch).length-(ns'.length-1)*c.fanout := by
        have hle : ns.length-((ns.length+c.fanout-1)/c.fanout-1)*c.fanout ≤ c.fanout := by
          have hs : (ns.length+c.fanout-1)/c.fanout*c.fanout =
              ((ns.length+c.fanout-1)/c.fanout-1)*c.fanout+c.fanout := by
            rw [← Nat.succ_mul, Nat.succ_eq_add_one, Nat.sub_add_cancel hcpos]
          omega
        rw [List.length_map, putsAt_length, hl]
        exact childCnt_last (by omega) hle (by omega)
      rw [← hl, hcc] at hfin ⊢
      obtain ⟨above, root, ht⟩ := ih _ hrow (by omega) hfin (by omega)
      have hst : ∀ q ∈ putsAt c pos ns, Stored (writeLevels c idx fuel ns'.length (level+1)
          (pstep*c.fanout) (((putsAt c pos ns).map Put.branch).length-(ns'.length-1)*c.fanout)
          ⟨w.head.place.lnum, w.head.place.offs, ns.length*(pstep*c.fanout)⟩
          (addRow c ns' w)).head q :=
        fun q hq => ((h.stored q hq).keeps hspec.keeps).keeps ht.keeps
      refine ⟨putsAt c w.head.place ns' :: above, root, ?_, ?_, ht.zroot,
        hspec.keeps.trans ht.keeps, ?_, ?_, ?_⟩
      · rw [ht.puts, hspec.puts, List.append_assoc, List.flatten_cons]
      · apply Tower.up (fun q hq => (h.node_mem hq).1) (by rwa [putsAt_length]) _ ht.tower
        have hbr : (putsAt c w.head.place ns').flatMap (fun q => q.node.branches) =
            (putsAt c pos ns).map Put.branch := by
          have hfm := hrow.chunked.flatMap
          rwa [← putsAt_node (c := c) w.head.place ns', List.flatMap_map] at hfm
        have hlnum : ∀ q ∈ putsAt c pos ns, q.place.lnum < 2^32 := by
          intro q hq
          have hlen : 0 < q.len := by
            rw [(putsAt_mem hq).2, ubifsIdxNodeSz_eq]
            omega
          -- a node before the head is in a LEB up to the head's
          rcases (hst q hq).below 0 hlen with hb | ⟨hb, -⟩ <;> omega
        rw [hbr, List.forall₂_map_left_iff, List.forall₂_same]
        exact fun q hq => h.isChild hc hlnum hq
      · intro q hq
        rcases List.mem_append.mp hq with hq | hq
        · exact hst q hq
        · exact ht.stored q hq
      · intro q hq
        rcases List.mem_append.mp hq with hq | hq
        · rw [(h.node_mem hq).1]
          exact h.level_lt
        · exact ht.level_lt q hq
      · intro q hq
        rcases List.mem_append.mp hq with hq | hq
        · exact (h.node_mem hq).2
        · exact ht.cnt_le q hq
    · rw [if_neg hcnt]
      obtain ⟨q, hq⟩ : ∃ q, putsAt c pos ns = [q] := by
        apply List.length_eq_one_iff.mp
        rw [putsAt_length]
        omega
      have hmem : q ∈ putsAt c pos ns := by rw [hq]; exact List.mem_cons_self
      have hflat : ([q] :: ([] : List (List Put))).flatten = [q] := rfl
      refine ⟨[], q, (List.append_nil _).symm, ?_, h.zroot q (by rw [hq]; rfl),
        Head.Keeps.refl _, ?_, ?_, ?_⟩
      · rw [hq]
        exact Tower.root (h.node_mem hmem).1
      all_goals
        rw [hq, hflat]
        intro q' hq'
        obtain rfl := List.mem_singleton.mp hq'
      · exact h.stored _ hmem
      · rw [(h.node_mem hmem).1]
        exact h.level_lt
      · exact (h.node_mem hmem).2

end Levels

section Index

variable {c : UbifsInfo}

theorem Tower.root_mem {level : ℕ} {row : List Put} {above : List (List Put)} {root : Put}
    (h : Tower level row above root) : root ∈ (row :: above).flatten := by
  induction h with
  | root hl => exact List.mem_cons_self
  | up hl hr hc ht ih => exact List.mem_append_right _ ih

/-- The row below is read through the branches that lead to it. -/
theorem readRow_isChild {image : ℕ → ℕ → Byte} {brs : List Branch} {row : List Put}
    (hc : List.Forall₂ Put.IsChild brs row)
    (hr : ∀ p ∈ row, readNode (image p.place.lnum) p.place.offs p.len = some p.node) :
    readRow image brs = some (row.map Put.node) := by
  induction hc with
  | nil => rfl
  | @cons b p brs row hb hrest ih =>
    have hp := hr p List.mem_cons_self
    rw [← hb.lnum, ← hb.offs, ← hb.len] at hp
    have htail := ih fun q hq => hr q (List.mem_cons_of_mem _ hq)
    rw [readRow] at htail
    rw [readRow, List.mapM_cons, hp, htail]
    rfl

/-- From the root down, one level after the other. -/
theorem Tower.read {image : ℕ → ℕ → Byte} {level : ℕ} {row : List Put}
    {above : List (List Put)} {root : Put} (h : Tower level row above root)
    (hr : ∀ p ∈ (row :: above).flatten,
      readNode (image p.place.lnum) p.place.offs p.len = some p.node) :
    readLevels image root.node.level [root.node] = readLevels image level (row.map Put.node) := by
  induction h with
  | root hl => rw [hl]; rfl
  | @up level row row' above root hl hlen hc ht ih =>
    rw [ih fun p hp => hr p (List.mem_append_right _ hp), readLevels, List.flatMap_map,
      readRow_isChild hc fun p hp => hr p (List.mem_append_left _ hp)]
    dsimp only
    rw [if_pos]
    intro n hn
    obtain ⟨q, hq, rfl⟩ := List.mem_map.mp hn
    exact hl q hq

theorem writeLevel_puts {idx : List IdxEntry} {r : RowBelow} {level cnt : ℕ} (n : ℕ) (k : Cursor)
    (w : IndexWriter) : ∃ more, (writeLevel c idx r level cnt n k w).2.puts = w.puts ++ more := by
  induction n generalizing k w with
  | zero => exact ⟨[], (List.append_nil _).symm⟩
  | succ n ih =>
    rw [writeLevel]
    obtain ⟨brs, k'⟩ := branchesTo c idx r (childCnt c r.bcnt cnt (cnt-(n+1)))
      ((cnt-(n+1))*c.fanout) k
    obtain ⟨more, hmore⟩ := ih k' (addIdxNode c ⟨level, brs⟩ w)
    obtain ⟨p, hp⟩ : ∃ p, (addIdxNode c ⟨level, brs⟩ w).puts = w.puts ++ [p] := ⟨_, rfl⟩
    refine ⟨p :: more, hmore.trans ?_⟩
    rw [hp, List.append_assoc, List.singleton_append]

/-- The levels above only add nodes. -/
theorem writeLevels_puts {idx : List IdxEntry} (fuel cnt level pstep child_cnt : ℕ) (k : Cursor)
    (w : IndexWriter) :
    ∃ more, (writeLevels c idx fuel cnt level pstep child_cnt k w).puts = w.puts ++ more := by
  induction fuel generalizing cnt level pstep child_cnt k w with
  | zero => exact ⟨[], (List.append_nil _).symm⟩
  | succ fuel ih =>
    rw [writeLevels]
    split
    · dsimp only
      generalize hcnt : (if (cnt+c.fanout-1)/c.fanout = 0 then 1 else (cnt+c.fanout-1)/c.fanout) = m
      obtain ⟨more, hmore⟩ := @writeLevel_puts c idx
        ⟨cnt, ubifsIdxNodeSz child_cnt, pstep*c.fanout⟩ (level+1) m m
        { k with p := 0 } w
      obtain ⟨more', hmore'⟩ := ih m (level+1) (pstep*c.fanout) (childCnt c cnt m (m-1))
        (writeLevel c idx ⟨cnt, ubifsIdxNodeSz child_cnt, pstep*c.fanout⟩ (level+1) m m
          { k with p := 0 } w).1
        (writeLevel c idx ⟨cnt, ubifsIdxNodeSz child_cnt, pstep*c.fanout⟩ (level+1) m m
          { k with p := 0 } w).2
      refine ⟨more ++ more', hmore'.trans ?_⟩
      rw [hmore, List.append_assoc]
    · exact ⟨[], (List.append_nil _).symm⟩

/-- The count of the nodes of level 0, rounded up by its own test. -/
theorem cnt_bounds {m f : ℕ} (hm : 0 < m) (hf : 0 < f) :
    0 < (if m%f ≠ 0 then m/f+1 else m/f) ∧ ((if m%f ≠ 0 then m/f+1 else m/f)-1)*f < m ∧
      m ≤ (if m%f ≠ 0 then m/f+1 else m/f)*f := by
  have hdm := Nat.div_add_mod m f
  have hml := Nat.mod_lt m hf
  generalize m/f = q at hdm ⊢
  generalize m%f = r at hdm hml ⊢
  rw [Nat.mul_comm] at hdm
  split
  · rw [Nat.add_sub_cancel, Nat.succ_mul]
    omega
  · have hq : 0 < q := by
      apply Nat.pos_of_ne_zero
      intro h0
      rw [h0] at hdm
      omega
    have hs : q*f = (q-1)*f+f := by
      rw [← Nat.succ_mul, Nat.succ_eq_add_one, Nat.sub_add_cancel hq]
    omega

/-- The index writer up to the flush: level 0 is a row over the sorted entries, from the head
on, and the levels above follow. -/
theorem writeIndex_ok (hc : c.Accepted) {entries : List IdxEntry} (hne : entries ≠ [])
    (hsz : entries.length < 2^61) {w : IndexWriter} (hw : w.head.Fits c) :
    ∃ (ns : List IdxNode) (w₀ w₁ w' : IndexWriter),
      RowSpec c ns w w₀ ∧
      RowWritten c (sortIdx entries) 0 1 ((sortIdx entries).map IdxEntry.branch) ns w.head.place w₀ ∧
      w₁ = writeLevels c (sortIdx entries) ns.length ns.length 0 1
        (((sortIdx entries).map IdxEntry.branch).length-(ns.length-1)*c.fanout)
        ⟨w.head.place.lnum, w.head.place.offs, 0⟩ w₀ ∧
      w'.head = flushNodes c w₁.head ∧ w'.puts = w₁.puts ∧ w'.zroot = w₁.zroot ∧
      w'.zroot_len = w₁.zroot_len ∧ writeIndex c entries w = .ok w' := by
  have hf : 0 < c.fanout := Nat.lt_of_lt_of_le (by decide) hc.fanout_min
  have hlen : (sortIdx entries).length = entries.length := (sortIdx_perm entries).length_eq
  have hpos := List.length_pos_iff.mpr hne
  obtain ⟨hcpos, hlo, hhi⟩ := cnt_bounds hpos hf
  generalize hcnt : (if entries.length%c.fanout ≠ 0 then entries.length/c.fanout+1
    else entries.length/c.fanout) = cnt at hcpos hlo hhi
  have hn : cnt-1+1 = cnt := Nat.sub_add_cancel hcpos
  set wf : IndexWriter := { w with head := { w.head with head_flags := LPROPS_INDEX } } with hwf
  obtain ⟨ns, hlvl, hch, hnl⟩ := @writeLevel0_row c entries.length cnt
    (cnt-1) (sortIdx entries) wf (by omega) (by rw [hn, Nat.sub_self, hlen]; omega)
    (by rwa [hlen]) (by rwa [hlen, hn])
  rw [hn] at hlvl hnl
  have hfits : wf.head.Fits c := ⟨hw.offs_le, hw.offs_mod⟩
  have hspec := addRow_spec hc ns hfits fun m hm => hc.node_le (hch.node m hm).2.1
  have hspec' : RowSpec c ns w (addRow c ns wf) :=
    ⟨hspec.puts, hspec.head, hspec.fits, hspec.keeps, hspec.stored, hspec.zroot⟩
  have hkeys : KeysAt (sortIdx entries) 1 ((sortIdx entries).map IdxEntry.branch) := by
    intro i b hb
    rw [List.getElem?_map, Option.map_eq_some_iff] at hb
    obtain ⟨e, he, rfl⟩ := hb
    obtain ⟨hi, hget⟩ := List.getElem?_eq_some_iff.mp he
    rw [Nat.mul_one]
    refine ⟨hi, ?_⟩
    rw [List.getD_eq_getElem?_getD, he]
    rfl
  have hcc : childCnt c entries.length cnt (cnt-1) =
      ((sortIdx entries).map IdxEntry.branch).length-(ns.length-1)*c.fanout := by
    have hs : cnt*c.fanout = (cnt-1)*c.fanout+c.fanout := by
      rw [← Nat.succ_mul, Nat.succ_eq_add_one, hn]
    rw [List.length_map, hlen, hnl]
    exact childCnt_last (by omega) (by omega) (by omega)
  have hck : ¬ entries.length*8%2^64/8 ≠ entries.length := by omega
  generalize hw₁ : writeLevels c (sortIdx entries) ns.length ns.length 0 1
    (((sortIdx entries).map IdxEntry.branch).length-(ns.length-1)*c.fanout)
    ⟨w.head.place.lnum, w.head.place.offs, 0⟩ (addRow c ns wf) = w₁
  refine ⟨ns, addRow c ns wf, w₁, { w₁ with
      ihead := ⟨w₁.head.head_lnum, align w₁.head.head_offs c.min_io_size⟩,
      head := flushNodes c w₁.head }, hspec', ⟨hch, hkeys, by rw [List.length_map], by decide,
      by decide, hspec'.head, hspec'.fits, hspec'.stored, hspec'.zroot⟩, hw₁.symm, rfl, rfl, rfl,
      rfl, ?_⟩
  · rw [writeIndex, if_neg hck]
    dsimp only
    rw [hcnt, ← hwf, hlvl, hcc, ← hw₁, hnl]
    rfl

theorem head_lnum_le_flushNodes (s : Head) : s.head_lnum ≤ (flushNodes c s).head_lnum := by
  by_cases h : s.head_offs = 0
  · rw [flushNodes, if_pos h]
  · rw [flushNodes_head_lnum h]
    exact Nat.le_succ _

/-- A stored node is read from the image after the flush. -/
theorem Stored.readNode (hio : 0 < c.min_io_size) {s : Head} {p : Put} (h : Stored s p)
    (hlevel : p.node.level < 2^16) (hcnt : p.node.branches.length < 2^16) :
    readNode ((flushNodes c s).image p.place.lnum) p.place.offs p.len = some p.node := by
  have hs := h.keeps (flushNodes_keeps (c := c) hio)
  obtain ⟨sqnum, hb⟩ := hs.bytes
  have hlen := h.len
  rw [readBytes_congr fun i hi => flushNodes_image (hs.below i hi), hlen] at hb
  rw [hlen]
  exact readNode_prepared hb hcnt hlevel

/-- With more than 65535 branches in the first node there is no tree. -/
theorem no_tree_of_wide (hc : c.Accepted) {entries : List IdxEntry}
    (hsz : entries.length < 2^61) {w : IndexWriter} (hw : w.head.Fits c) (hf : 2^16 ≤ c.fanout)
    (hlen : 2^16 ≤ entries.length) :
    ∃ w', writeIndex c entries w = .ok w' ∧
      ¬ ∃ idx row above root, IndexTree entries w w' idx row above root := by
  have hne : entries ≠ [] := by
    rintro rfl
    simp at hlen
  obtain ⟨ns, w₀, w₁, w', hspec, hrow, hw₁, -, hputs, -, -, hok⟩ := writeIndex_ok hc hne hsz hw
  refine ⟨w', hok, ?_⟩
  rintro ⟨idx, row, above, root, ht⟩
  have hl : ((sortIdx entries).map IdxEntry.branch).length = entries.length := by
    rw [List.length_map]
    exact (sortIdx_perm entries).length_eq
  have hpos := List.length_pos_iff.mpr hrow.chunked.ne_nil
  have hput := putsAt_length (c := c) w.head.place ns
  obtain ⟨p, ps, hp⟩ : ∃ p ps, putsAt c w.head.place ns = p :: ps :=
    List.exists_cons_of_length_pos (by omega)
  have hnode : ns.get ⟨0, hpos⟩ = p.node := by
    have := putsAt_node (c := c) w.head.place ns
    rw [hp, List.map_cons] at this
    simp [← this]
  have hbig : 2^16 ≤ p.node.branches.length := by
    rw [← hnode, hrow.chunked.sizes 0 hpos, hl]
    split
    · rw [show ns.length-1 = 0 by omega, Nat.zero_mul]
      exact hlen
    · exact hf
  obtain ⟨more, hmore⟩ := @writeLevels_puts c (sortIdx entries) ns.length ns.length 0 1
    (((sortIdx entries).map IdxEntry.branch).length-(ns.length-1)*c.fanout)
    ⟨w.head.place.lnum, w.head.place.offs, 0⟩ w₀
  have hmem : p ∈ (row :: above).flatten := by
    have h := ht.puts
    rw [hputs, hw₁, hmore, hspec.puts, hp, List.append_assoc] at h
    rw [← List.append_cancel_left h]
    exact List.mem_cons_self
  have := readNode_cnt_lt (ht.stored p hmem)
  omega

/-- The index is a tree over the sorted entries, with each branch at its child, exactly where
a child count fits its two bytes. -/
theorem write_index_tree_iff (hc : c.Accepted) {entries : List IdxEntry} (hne : entries ≠ [])
    (hd : (entries.map fun e => (e.key, e.name)).Nodup) (hsz : entries.length < 2^61)
    {w : IndexWriter} (hw : w.head.Fits c) :
    ∃ w', writeIndex c entries w = .ok w' ∧ ∀ c', finalizeLebCnt c w'.head = .ok c' →
      ((∃ idx row above root, IndexTree entries w w' idx row above root) ↔
        (c.fanout < 2^16 ∨ entries.length < 2^16)) := by
  have hio : 0 < c.min_io_size := by
    obtain ⟨k, hk⟩ := hc.min_io
    rw [hk]
    exact Nat.two_pow_pos k
  obtain ⟨ns, w₀, w₁, w', hspec, hrow, hw₁, hhead, hputs, hz, hzl, hok⟩ :=
    writeIndex_ok hc hne hsz hw
  refine ⟨w', hok, ?_⟩
  intro c' hfin
  have hlnum : w₁.head.head_lnum < 2^32 := by
    have hle := head_lnum_le_flushNodes (c := c) w₁.head
    have hmax := hc.leb_cnt
    rw [← hhead] at hle
    unfold finalizeLebCnt at hfin
    dsimp only at hfin
    split at hfin
    · cases hfin
    · omega
  constructor
  · intro ht
    by_contra hno
    obtain ⟨hf, hlen⟩ := not_or.mp hno
    obtain ⟨w'', hok', hnt⟩ := no_tree_of_wide hc hsz hw (not_lt.mp hf) (not_lt.mp hlen)
    rw [hok] at hok'
    obtain rfl := Except.ok.inj hok'
    exact hnt ht
  · intro hsmall
    have hlen := (sortIdx_perm entries).length_eq
    rw [hw₁] at hlnum
    obtain ⟨above, root, hst⟩ := writeLevels_stands hc (by omega) ns.length 0 hrow (le_refl _) hlnum
    rw [← hw₁] at hst
    have hread : ∀ p ∈ (putsAt c w.head.place ns :: above).flatten,
        readNode (w'.head.image p.place.lnum) p.place.offs p.len = some p.node := by
      intro p hp
      obtain ⟨hf, hl⟩ := hst.cnt_le p hp
      rw [hhead]
      exact (hst.stored p hp).readNode hio (hst.level_lt p hp) (by omega)
    have hleaves : (putsAt c w.head.place ns).flatMap (fun p => p.node.branches) =
        (sortIdx entries).map IdxEntry.branch := by
      have hfm := hrow.chunked.flatMap
      rwa [← putsAt_node (c := c) w.head.place ns, List.flatMap_map] at hfm
    have hzroot : w'.zroot = root.place ∧ w'.zroot_len = root.len := by
      rw [hz, hzl]
      exact hst.zroot
    refine ⟨sortIdx entries, putsAt c w.head.place ns, above, root, sortIdx_perm entries,
      sortIdx_sorted hd, ?_, hleaves, hst.tower, hzroot, hread, ?_⟩
    · rw [hputs, hst.puts, hspec.puts, List.append_assoc, List.flatten_cons]
    · rw [readIndex, hzroot.1, hzroot.2, hread root hst.tower.root_mem]
      dsimp only
      rw [hst.tower.read hread, readLevels, List.flatMap_map, hleaves]

/-- A volume of 1000 LEBs. -/
def volume (leb_size fanout : ℕ) : UbifsInfo :=
  ⟨4096, leb_size, 1000, fanout, 20, 900, 0, 0⟩

/-- An index writer with nothing written. -/
def freshWriter : IndexWriter :=
  ⟨⟨20, 0, 0, fun _ => 0#8, fun _ _ => 0#8, 0, fun _ => ⟨0, 0, 0⟩, ⟨0, 0, 0, 0, 0, 0⟩⟩,
    ⟨0, 0⟩, 0, 0, ⟨0, 0⟩, []⟩

def plainEntry (i : ℕ) : IdxEntry := ⟨⟨BitVec.ofNat 32 i, 0#32⟩, [], 20#32, 0#32, 48#32⟩

theorem write_index_four :
    ∃ w', writeIndex (volume 126976 3) ((List.range 4).map plainEntry) freshWriter = .ok w' ∧
      ∀ c', finalizeLebCnt (volume 126976 3) w'.head = .ok c' →
        ∃ idx row above root,
          IndexTree ((List.range 4).map plainEntry) freshWriter w' idx row above root := by
  obtain ⟨w', hok, h⟩ := @write_index_tree_iff (volume 126976 3)
    ⟨⟨12, rfl⟩, by decide, by decide, by decide, by decide, by decide, by decide, by decide,
      by decide⟩
    ((List.range 4).map plainEntry) (by decide) (by decide) (by decide) freshWriter ⟨by decide, by decide⟩
  exact ⟨w', hok, fun c' hc' => (h c' hc').mpr (Or.inl (by decide))⟩

/-- An index of one node takes the rest of its LEB or the next. -/
theorem writeIndex_one_node (hc : c.Accepted) {entries : List IdxEntry} (hne : entries ≠ [])
    (hsz : entries.length < 2^61) {w : IndexWriter} (hw : w.head.Fits c)
    (hlen : entries.length ≤ c.fanout) :
    ∃ w', writeIndex c entries w = .ok w' ∧ w'.head.head_lnum ≤ w.head.head_lnum+2 := by
  obtain ⟨ns, w₀, w₁, w', hspec, hrow, hw₁, hhead, -, -, -, hok⟩ := writeIndex_ok hc hne hsz hw
  refine ⟨w', hok, ?_⟩
  have hl : ((sortIdx entries).map IdxEntry.branch).length = entries.length := by
    rw [List.length_map]
    exact (sortIdx_perm entries).length_eq
  have hpos := List.length_pos_iff.mpr hrow.chunked.ne_nil
  obtain ⟨n, hn⟩ : ∃ n, ns = [n] := by
    apply List.length_eq_one_iff.mp
    have hlo := hrow.chunked.length.1
    by_contra hno
    have : c.fanout ≤ (ns.length-1)*c.fanout := Nat.le_mul_of_pos_left _ (by omega)
    omega
  have hw₁' : w₁ = w₀ := by
    rw [hw₁, hn]
    rfl
  have hlnum : w₀.head.head_lnum ≤ w.head.head_lnum+1 := by
    have h := congrArg Place.lnum hspec.head
    rw [hn, endAt, endAt, behind, fit] at h
    change w₀.head.head_lnum = _ at h
    rw [h]
    split
    · exact le_refl _
    · exact Nat.le_succ _
  rw [hhead, hw₁']
  by_cases h0 : w₀.head.head_offs = 0
  · rw [flushNodes, if_pos h0]
    omega
  · rw [flushNodes_head_lnum h0]
    omega

/-- A fanout of 65536 is accepted, and a full node then says that it has no children. -/
theorem write_index_wide_node :
    (volume (2*1024*1024) 65536).Accepted ∧
    (((List.range 65536).map plainEntry).map fun e => (e.key, e.name)).Nodup ∧
    ∃ w' c', writeIndex (volume (2*1024*1024) 65536) ((List.range 65536).map plainEntry)
        freshWriter = .ok w' ∧
      finalizeLebCnt (volume (2*1024*1024) 65536) w'.head = .ok c' ∧
      ¬ ∃ idx row above root, IndexTree ((List.range 65536).map plainEntry) freshWriter w'
        idx row above root := by
  have hc : (volume (2*1024*1024) 65536).Accepted :=
    ⟨⟨12, rfl⟩, by decide, by decide, by decide, by decide, by decide, by decide, by decide,
      by decide⟩
  have hlen : ((List.range 65536).map plainEntry).length = 65536 := by
    rw [List.length_map, List.length_range]
  generalize hes : (List.range 65536).map plainEntry = entries at hlen
  have hfits : freshWriter.head.Fits (volume (2*1024*1024) 65536) :=
    ⟨by decide, by decide⟩
  have hne : entries ≠ [] := by
    rintro rfl
    cases hlen
  obtain ⟨w', hok, hnt⟩ := @no_tree_of_wide _ hc entries (by omega) _ hfits (by decide)
    (by omega)
  obtain ⟨w'', hok', hl⟩ := writeIndex_one_node hc hne (by omega) hfits hlen.le
  rw [hok] at hok'
  obtain rfl := Except.ok.inj hok'
  have hfin : finalizeLebCnt (volume (2*1024*1024) 65536) w'.head =
      .ok { volume (2*1024*1024) 65536 with main_lebs := w'.head.head_lnum-20 } := by
    rw [finalizeLebCnt, if_neg]
    · rfl
    · change ¬ (1000 < w'.head.head_lnum)
      change w'.head.head_lnum ≤ 20+2 at hl
      omega
  refine ⟨hc, ?_, w', _, hok, hfin, hnt⟩
  · rw [← hes, List.map_map]
    apply List.Nodup.map_on _ List.nodup_range
    intro i hi j hj hij
    have h := congrArg (fun e => e.1.u32_0.toNat) hij
    rw [List.mem_range] at hi hj
    simp only [Function.comp_apply, plainEntry, BitVec.toNat_ofNat] at h
    omega

end Index

end ChipTools.Ubifs
