import ChipTools.UbifsHead
import Mathlib.Data.List.Forall2

/-! The main area as `mkfs` writes it: the nodes of the files, the LEB for the garbage
collector, and the nodes of the index. A LEB that was written is scanned to the nodes that
were put there. -/
namespace ChipTools.Ubifs
open Bytes

/-- A node as it is passed to `add_node` or `add_idx_node`: all but the common header. -/
structure Node where
  node_type : Byte
  body : List Byte

def UBIFS_CH_SZ : ℕ := 24

def Node.len (n : Node) : ℕ := UBIFS_CH_SZ+n.body.length

/-- A node that was put: its place and its bytes. -/
structure Record where
  place : Place
  bytes : List Byte
deriving DecidableEq

/-- The main area under construction. `records` are the nodes that were added, `lebs` the
LEBs that `set_lprops` was called for, both in their order. -/
structure MainArea where
  head : Head
  gc_lnum : ℕ
  empty_lebs : ℕ
  old_idx_sz : ℕ
  records : List Record
  lebs : List ℕ

/-- The LEB that `flush_nodes` closes, if any. -/
def flushedLeb (s : Head) : List ℕ := if s.head_offs = 0 then [] else [s.head_lnum]

def MainArea.flush (c : UbifsInfo) (a : MainArea) : MainArea :=
  { a with head := flushNodes c a.head, lebs := a.lebs ++ flushedLeb a.head }

/-- `add_node`, and what `add_idx_node` has of it. -/
def MainArea.add (c : UbifsInfo) (n : Node) (a : MainArea) : MainArea :=
  let put := putNode c n.node_type n.body a.head
  let flushed := if (c.leb_size : ℤ)-a.head.head_offs < n.len then flushedLeb a.head else []
  { a with
    head := put.2
    records := a.records ++ [⟨put.1, preparedNode (a.head.max_sqnum+1) n.node_type n.body⟩]
    lebs := a.lebs ++ flushed }

/-- `add_idx_node`. -/
def MainArea.addIdx (c : UbifsInfo) (n : Node) (a : MainArea) : MainArea :=
  let a := a.add c n
  { a with old_idx_sz := a.old_idx_sz+align n.len 8 }

/-- What the writers of a phase call. -/
inductive Op
  | node (n : Node)
  | flush

def MainArea.dataOp (c : UbifsInfo) (a : MainArea) : Op → MainArea
  | .node n => a.add c n
  | .flush => a.flush c

def MainArea.indexOp (c : UbifsInfo) (a : MainArea) : Op → MainArea
  | .node n => a.addIdx c n
  | .flush => a.flush c

def MainArea.setFlags (flags : ℕ) (a : MainArea) : MainArea :=
  { a with head := { a.head with head_flags := flags } }

/-- `set_gc_lnum`, with `write_empty_leb`. -/
def MainArea.setGcLnum (c : UbifsInfo) (a : MainArea) : MainArea :=
  let gc_lnum := a.head.head_lnum
  let s := writeLeb c gc_lnum 0 { a.head with head_lnum := a.head.head_lnum+1 }
  { a with head := setLprops c gc_lnum 0 0 s, gc_lnum := gc_lnum, empty_lebs := a.empty_lebs+1
           lebs := a.lebs ++ [gc_lnum] }

/-- `write_data`, `set_gc_lnum` and `write_index`, by what they add. -/
def MainArea.write (c : UbifsInfo) (data index : List Op) (a : MainArea) : MainArea :=
  let a := ((data.foldl (MainArea.dataOp c) (a.setFlags 0)).flush c).setGcLnum c
  (index.foldl (MainArea.indexOp c) (a.setFlags LPROPS_INDEX)).flush c

/-- The main area at the start of `mkfs`: the buffer, the image and the properties are not
set. -/
def MainArea.init (c : UbifsInfo) (leb_buf : ℕ → Byte) (image : ℕ → ℕ → Byte)
    (lpt : ℕ → Lprops) : MainArea :=
  ⟨⟨c.main_first, 0, 0, leb_buf, image, 0, lpt, ⟨0, 0, 0, 0, 0, 0⟩⟩, 0, 0, 0, [], []⟩

/-- What the callers of `add_node` and `add_idx_node` pass: not a padding node, and not longer
than a LEB. -/
structure Node.Fits (c : UbifsInfo) (n : Node) : Prop where
  type_ne : n.node_type ≠ UBIFS_PAD_NODE
  len_le : n.len ≤ c.leb_size

def Op.Fits (c : UbifsInfo) : Op → Prop
  | .node n => n.Fits c
  | .flush => True

section Scan

/-- The padding bytes that start a string, at most `n`. -/
def paddingBytes : ℕ → List Byte → ℕ
  | n+1, b :: bs => if b = UBIFS_PADDING_BYTE then paddingBytes n bs+1 else 0
  | _, _ => 0

/-- The scan of a LEB from `offs` on, over the bytes that are left, as the file system does
it: the offsets and the bytes of the nodes. -/
def scanLeb (c : UbifsInfo) : ℕ → ℕ → List Byte → Option (List (ℕ × List Byte))
  | 0, _, _ => none
  | fuel+1, offs, bs =>
    if bs.length < 8 then some []
    else if field bs 0 4 = 0xFFFFFFFF then
      -- the rest must be empty, from an I/O unit on
      if offs%c.min_io_size = 0 ∧ ∀ b ∈ bs, b = 0xff#8 then some [] else none
    else if field bs 0 4 ≠ UBIFS_NODE_MAGIC then
      let n := paddingBytes (min UBIFS_PAD_NODE_SZ bs.length) bs
      if n = 0 ∨ n%8 ≠ 0 then none else scanLeb c fuel (offs+n) (bs.drop n)
    else
      let len := field bs 16 4
      if len < UBIFS_CH_SZ ∨ bs.length < len ∨
          field bs 4 4 ≠ (mtdCrc32 UBIFS_CRC32_INIT ((bs.take len).drop 8)).toNat then none
      else if bs.getD 20 0#8 = UBIFS_PAD_NODE then
        let pad_len := field bs 24 4
        if bs.length < len+pad_len ∨ (len+pad_len)%8 ≠ 0 then none
        else scanLeb c fuel (offs+(len+pad_len)) (bs.drop (len+pad_len))
      else
        match scanLeb c fuel (offs+align len 8) (bs.drop (align len 8)) with
        | some nodes => some ((offs, bs.take len) :: nodes)
        | none => none

theorem scanLeb_succ (c : UbifsInfo) (fuel offs : ℕ) (bs : List Byte) :
    scanLeb c (fuel+1) offs bs =
      if bs.length < 8 then some []
      else if field bs 0 4 = 0xFFFFFFFF then
        if offs%c.min_io_size = 0 ∧ ∀ b ∈ bs, b = 0xff#8 then some [] else none
      else if field bs 0 4 ≠ UBIFS_NODE_MAGIC then
        let n := paddingBytes (min UBIFS_PAD_NODE_SZ bs.length) bs
        if n = 0 ∨ n%8 ≠ 0 then none else scanLeb c fuel (offs+n) (bs.drop n)
      else
        let len := field bs 16 4
        if len < UBIFS_CH_SZ ∨ bs.length < len ∨
            field bs 4 4 ≠ (mtdCrc32 UBIFS_CRC32_INIT ((bs.take len).drop 8)).toNat then none
        else if bs.getD 20 0#8 = UBIFS_PAD_NODE then
          let pad_len := field bs 24 4
          if bs.length < len+pad_len ∨ (len+pad_len)%8 ≠ 0 then none
          else scanLeb c fuel (offs+(len+pad_len)) (bs.drop (len+pad_len))
        else
          match scanLeb c fuel (offs+align len 8) (bs.drop (align len 8)) with
          | some nodes => some ((offs, bs.take len) :: nodes)
          | none => none := rfl

/-- A whole LEB. -/
def scan (c : UbifsInfo) (leb : ℕ → Byte) : Option (List (ℕ × List Byte)) :=
  scanLeb c (c.leb_size+2) 0 (readBytes leb 0 c.leb_size)

end Scan

section ScanSteps

variable {c : UbifsInfo}

/-- The fields of a prepared node, with what follows it. -/
structure PreparedFields (node_type : Byte) (body tail node : List Byte) : Prop where
  magic : field (node ++ tail) 0 4 = UBIFS_NODE_MAGIC
  len : field (node ++ tail) 16 4 = 24+body.length
  crc : field (node ++ tail) 4 4 = (mtdCrc32 UBIFS_CRC32_INIT (node.drop 8)).toNat
  type : (node ++ tail).getD 20 0#8 = node_type
  body_eq : ∃ pre, pre.length = 24 ∧ node ++ tail = pre ++ (body ++ tail)

theorem preparedNode_fields (sqnum : ℕ) (node_type : Byte) {body : List Byte} (tail : List Byte)
    (hlen : 24+body.length < 2^32) :
    PreparedFields node_type body tail (preparedNode sqnum node_type body) := by
  obtain ⟨rest, crc, hp, hcrc, hrest⟩ := preparedNode_eq sqnum node_type body
  rw [hp]
  have hdrop : (le 4 UBIFS_NODE_MAGIC ++ (le 4 crc.toNat ++ rest)).drop 8 = rest := by
    rw [← List.append_assoc]
    exact List.drop_left' (by simp)
  constructor
  · have h := @field_append [] _ (le 4 crc.toNat ++ rest ++ tail) _ _ rfl
      (le_length 4 UBIFS_NODE_MAGIC)
    rw [List.nil_append, ← List.append_assoc] at h
    exact h.trans (leVal_le_of_lt (by decide))
  · rw [hrest, List.append_assoc, List.append_assoc, List.append_assoc, List.append_assoc,
      ← List.append_assoc (le 4 crc.toNat), ← List.append_assoc (le 4 UBIFS_NODE_MAGIC),
      field_append (by simp) (le_length 4 _)]
    exact leVal_le_of_lt hlen
  · rw [List.append_assoc, List.append_assoc, field_append (le_length 4 _) (le_length 4 _), hdrop,
      ← hcrc]
    exact leVal_le_of_lt crc.isLt
  · rw [hrest, List.append_assoc, List.append_assoc, List.append_assoc, List.append_assoc,
      ← List.append_assoc, ← List.append_assoc, ← List.append_assoc,
      List.getD_eq_getElem?_getD, List.getElem?_append_right (by simp)]
    simp
  · refine ⟨le 4 UBIFS_NODE_MAGIC ++ (le 4 crc.toNat ++ (le 8 sqnum ++ (le 4 (24+body.length) ++
      [node_type, UBIFS_NO_NODE_GROUP, 0#8, 0#8]))), by simp, ?_⟩
    rw [hrest]
    simp only [List.append_assoc]

theorem take_prepared (sqnum : ℕ) (node_type : Byte) (body tail : List Byte) :
    (preparedNode sqnum node_type body ++ tail).take (24+body.length) =
      preparedNode sqnum node_type body :=
  List.take_left' (preparedNode_length _ _ _)

/-- A node is read, and the scan goes on at the next eight-byte boundary. -/
theorem scanLeb_node (fuel offs sqnum : ℕ) {node_type : Byte} {body : List Byte}
    (ht : node_type ≠ UBIFS_PAD_NODE) (hlen : 24+body.length < 2^32) (rest : List Byte) :
    scanLeb c (fuel+1) offs (preparedNode sqnum node_type body ++
      (List.replicate (align (24+body.length) 8-(24+body.length)) 0xff#8 ++ rest)) =
      (scanLeb c fuel (offs+align (24+body.length) 8) rest).map
        fun nodes => (offs, preparedNode sqnum node_type body) :: nodes := by
  have hal := le_align (24+body.length) (a := 8) (by decide)
  generalize hpad : List.replicate (align (24+body.length) 8-(24+body.length)) 0xff#8 = pad
  have hpl : pad.length = align (24+body.length) 8-(24+body.length) := by
    rw [← hpad, List.length_replicate]
  have hf := @preparedNode_fields sqnum node_type body (pad ++ rest) hlen
  have hnl := preparedNode_length sqnum node_type body
  have htake := take_prepared sqnum node_type body (pad ++ rest)
  generalize preparedNode sqnum node_type body = node at hf hnl htake
  have hdrop : (node ++ (pad ++ rest)).drop (align (24+body.length) 8) = rest := by
    rw [← List.append_assoc]
    exact List.drop_left' (by rw [List.length_append]; omega)
  rw [scanLeb_succ, hf.magic, hf.len, hf.crc, hf.type]
  dsimp only
  rw [htake, hdrop, if_neg, if_neg (by decide), if_neg (by decide), if_neg, if_neg ht]
  · cases scanLeb c fuel (offs+align (24+body.length) 8) rest <;> rfl
  · rw [List.length_append, UBIFS_CH_SZ]
    simp only [ne_eq, not_true_eq_false, or_false]
    omega
  · rw [List.length_append]
    omega

/-- A padding node is skipped with what it pads. -/
theorem scanLeb_pad (fuel offs pad_len : ℕ) (hp : pad_len < 2^32) (h8 : (28+pad_len)%8 = 0)
    (rest : List Byte) :
    scanLeb c (fuel+1) offs (preparedNode 0 UBIFS_PAD_NODE (le 4 pad_len) ++
      (List.replicate pad_len 0#8 ++ rest)) = scanLeb c fuel (offs+(28+pad_len)) rest := by
  have hf := @preparedNode_fields 0 UBIFS_PAD_NODE (le 4 pad_len)
    (List.replicate pad_len 0#8 ++ rest) (by rw [le_length]; omega)
  have hnl := preparedNode_length 0 UBIFS_PAD_NODE (le 4 pad_len)
  have htake := take_prepared 0 UBIFS_PAD_NODE (le 4 pad_len) (List.replicate pad_len 0#8 ++ rest)
  simp only [le_length, Nat.reduceAdd] at hnl htake
  obtain ⟨hmagic, hlen, hcrc, htype, pre, hpre, hbody⟩ := hf
  simp only [le_length, Nat.reduceAdd] at hlen
  generalize preparedNode 0 UBIFS_PAD_NODE (le 4 pad_len) = node at *
  have hdrop : (node ++ (List.replicate pad_len 0#8 ++ rest)).drop (28+pad_len) = rest := by
    rw [← List.append_assoc]
    exact List.drop_left' (by rw [List.length_append, List.length_replicate]; omega)
  have hpad : field (node ++ (List.replicate pad_len 0#8 ++ rest)) 24 4 = pad_len := by
    rw [hbody, field_append hpre (le_length 4 _)]
    exact leVal_le_of_lt hp
  have hl : (node ++ (List.replicate pad_len 0#8 ++ rest)).length = 28+pad_len+rest.length := by
    rw [List.length_append, List.length_append, List.length_replicate]
    omega
  rw [scanLeb_succ, hmagic, hlen, hcrc, htype, hpad]
  dsimp only
  rw [htake, if_neg (by omega), if_neg (by decide), if_neg (by decide), if_neg, if_pos rfl,
    if_neg (by omega), hdrop]
  rw [hl, UBIFS_CH_SZ]
  simp only [ne_eq, not_true_eq_false, or_false]
  omega

theorem field_replicate (b : Byte) {k : ℕ} (hk : 4 ≤ k) (rest : List Byte) :
    field (List.replicate k b ++ rest) 0 4 = leVal [b, b, b, b] := by
  obtain ⟨r, rfl⟩ := Nat.exists_eq_add_of_le hk
  rw [field, List.drop_zero, ← List.replicate_append_replicate, List.append_assoc]
  rfl

theorem paddingBytes_replicate (n k : ℕ) (rest : List Byte) (hk : k ≤ n)
    (hr : ∀ b ∈ rest.head?, b ≠ UBIFS_PADDING_BYTE) :
    paddingBytes n (List.replicate k UBIFS_PADDING_BYTE ++ rest) = k := by
  induction k generalizing n with
  | zero =>
    rw [List.replicate_zero, List.nil_append]
    cases n with
    | zero => rfl
    | succ n =>
      cases rest with
      | nil => rfl
      | cons b rest => exact if_neg (hr b rfl)
  | succ k ih =>
    obtain ⟨n, rfl⟩ : ∃ m, n = m+1 := ⟨n-1, by omega⟩
    rw [List.replicate_succ, List.cons_append, paddingBytes, if_pos rfl, ih n (by omega)]

/-- Raw padding bytes are skipped. -/
theorem scanLeb_bytes (fuel offs k : ℕ) (hk : 8 ≤ k) (hk' : k < 28) (h8 : k%8 = 0) (r : ℕ) :
    scanLeb c (fuel+1) offs (List.replicate k UBIFS_PADDING_BYTE ++ List.replicate r 0xff#8) =
      scanLeb c fuel (offs+k) (List.replicate r 0xff#8) := by
  have hl : (List.replicate k UBIFS_PADDING_BYTE ++ List.replicate r 0xff#8).length = k+r := by
    rw [List.length_append, List.length_replicate, List.length_replicate]
  have hn : paddingBytes (min UBIFS_PAD_NODE_SZ (k+r))
      (List.replicate k UBIFS_PADDING_BYTE ++ List.replicate r 0xff#8) = k := by
    apply paddingBytes_replicate
    · rw [UBIFS_PAD_NODE_SZ]
      omega
    · intro b hb
      cases r with
      | zero => cases hb
      | succ r =>
        obtain rfl := Option.mem_some.mp hb
        decide
  have hdrop : (List.replicate k UBIFS_PADDING_BYTE ++ List.replicate r 0xff#8).drop k =
      List.replicate r 0xff#8 := List.drop_left' List.length_replicate
  rw [scanLeb_succ, hl, field_replicate _ (by omega), hn]
  dsimp only
  rw [hdrop, if_neg (by omega), if_neg (by decide), if_pos (by decide), if_neg (by omega)]

/-- Empty space ends the scan. -/
theorem scanLeb_empty (fuel offs r : ℕ) (hio : offs%c.min_io_size = 0) :
    scanLeb c (fuel+1) offs (List.replicate r 0xff#8) = some [] := by
  rw [scanLeb_succ, List.length_replicate]
  by_cases hr : r < 8
  · rw [if_pos hr]
  · have hff := field_replicate 0xff#8 (k := r) (by omega) []
    rw [List.append_nil] at hff
    rw [if_neg hr, hff, if_pos (by decide), if_pos]
    exact ⟨hio, fun b hb => List.eq_of_mem_replicate hb⟩

end ScanSteps

section Stream

variable {c : UbifsInfo}

/-- A node with the bytes up to the next boundary. -/
def Record.padded (r : Record) : List Byte :=
  r.bytes ++ List.replicate (align r.bytes.length 8-r.bytes.length) 0xff#8

/-- The nodes of a LEB, one behind the other. -/
def stream (rs : List Record) : List Byte := rs.flatMap Record.padded

/-- The offsets that nodes have which begin at `offs`. -/
def Consec : ℕ → List Record → Prop
  | _, [] => True
  | offs, r :: rs => r.place.offs = offs ∧ Consec (offs+align r.bytes.length 8) rs

/-- The bytes are those of a prepared node. -/
structure IsNode (bs : List Byte) : Prop where
  prepared : ∃ sqnum node_type body, bs = preparedNode sqnum node_type body ∧
    node_type ≠ UBIFS_PAD_NODE
  lt : bs.length < 2^32

/-- A node as the scan gives it. -/
def Record.found (r : Record) : ℕ × List Byte := (r.place.offs, r.bytes)

theorem padded_length (r : Record) : r.padded.length = align r.bytes.length 8 := by
  have := le_align r.bytes.length (a := 8) (by decide)
  rw [Record.padded, List.length_append, List.length_replicate]
  omega

theorem stream_append (rs rs' : List Record) : stream (rs ++ rs') = stream rs ++ stream rs' :=
  List.flatMap_append

theorem stream_cons (r : Record) (rs : List Record) : stream (r :: rs) = r.padded ++ stream rs :=
  List.flatMap_cons

theorem Consec.append {offs : ℕ} {rs : List Record} {r : Record} (h : Consec offs rs)
    (hr : r.place.offs = offs+(stream rs).length) : Consec offs (rs ++ [r]) := by
  induction rs generalizing offs with
  | nil => exact ⟨hr, trivial⟩
  | cons r' rs ih =>
    refine ⟨h.1, ih h.2 ?_⟩
    rw [hr, stream_cons, List.length_append, padded_length]
    omega

/-- Nodes one behind the other are found in their order. -/
theorem scan_stream (fuel offs : ℕ) (rs : List Record) (hn : ∀ r ∈ rs, IsNode r.bytes)
    (hcons : Consec offs rs) (rest : List Byte) :
    scanLeb c (fuel+rs.length) offs (stream rs ++ rest) =
      (scanLeb c fuel (offs+(stream rs).length) rest).map (rs.map Record.found ++ ·) := by
  induction rs generalizing offs with
  | nil =>
    change scanLeb c fuel offs rest = (scanLeb c fuel offs rest).map id
    rw [Option.map_id, id]
  | cons r rs ih =>
    obtain ⟨⟨sqnum, node_type, body, hb, ht⟩, hlt⟩ := hn r List.mem_cons_self
    obtain ⟨hoffs, hcons⟩ := hcons
    have hl : r.bytes.length = 24+body.length := by rw [hb, preparedNode_length]
    have h1 := scanLeb_node (c := c) (fuel+rs.length) offs sqnum ht (hl ▸ hlt) (stream rs ++ rest)
    have h2 := ih (offs+align r.bytes.length 8) (fun r hr => hn r (List.mem_cons_of_mem _ hr)) hcons
    rw [stream_cons, Record.padded, List.append_assoc, List.append_assoc, hl, hb, List.length_cons,
      ← Nat.add_assoc, h1, ← hl, h2, Option.map_map, List.length_append, List.length_append,
      ← hb, List.length_replicate]
    have hal := le_align r.bytes.length (a := 8) (by decide)
    rw [show offs+align r.bytes.length 8+(stream rs).length =
      offs+(r.bytes.length+(align r.bytes.length 8-r.bytes.length)+(stream rs).length) by omega]
    refine congrArg (fun f => Option.map f _) (funext fun nodes => ?_)
    rw [Function.comp_apply, List.map_cons, List.cons_append, Record.found, hoffs]

/-- The padding that `do_pad` puts behind `len` bytes. -/
def padding (c : UbifsInfo) (len : ℕ) : List Byte :=
  let pad_len := align len c.min_io_size-len
  if UBIFS_PAD_NODE_SZ ≤ pad_len then
    preparedNode 0 UBIFS_PAD_NODE (le 4 (pad_len-UBIFS_PAD_NODE_SZ)) ++
      List.replicate (pad_len-UBIFS_PAD_NODE_SZ) 0#8
  else List.replicate pad_len UBIFS_PADDING_BYTE

theorem align_of_mod {x a : ℕ} (ha : 0 < a) (h : x%a = 0) : align x a = x :=
  Nat.le_antisymm (align_le ha (le_refl x) h) (le_align x ha)

/-- A boundary of an I/O unit behind an eight-byte boundary is an eight-byte boundary. -/
theorem align_min_io_mod (hc : c.Accepted) {x : ℕ} (hx : x%8 = 0) :
    align x c.min_io_size%8 = 0 := by
  obtain ⟨k, hk⟩ := hc.min_io
  rcases Nat.lt_or_ge k 3 with h | h
  · have hdvd : c.min_io_size ∣ 8 := by
      rw [hk, show 8 = 2^3 from rfl]
      exact Nat.pow_dvd_pow 2 (by omega)
    rw [align_of_mod hc.min_io_pos (Nat.mod_eq_zero_of_dvd (hdvd.trans (Nat.dvd_of_mod_eq_zero hx)))]
    exact hx
  · have hdvd : 8 ∣ c.min_io_size := by
      rw [hk, show 8 = 2^3 from rfl]
      exact Nat.pow_dvd_pow 2 h
    exact Nat.mod_eq_zero_of_dvd (hdvd.trans (Nat.dvd_of_mod_eq_zero (align_mod x _)))

/-- The length that is written: whole I/O units, within the LEB. -/
theorem doPad_length (hc : c.Accepted) (buf : ℕ → Byte) {len : ℕ} (hlen : len ≤ c.leb_size) :
    (doPad c buf len).2%c.min_io_size = 0 ∧ (doPad c buf len).2 ≤ c.leb_size := by
  have h : (doPad c buf len).2 = align (align len 8) c.min_io_size := by
    unfold doPad
    dsimp only
    split <;> rfl
  rw [h]
  exact ⟨align_mod _ _, align_le hc.min_io_pos (align_le (by decide) hlen hc.leb_eight) hc.leb_io⟩

theorem padding_length (hio : 0 < c.min_io_size) (len : ℕ) :
    len+(padding c len).length = align len c.min_io_size := by
  have := le_align len hio
  unfold padding
  dsimp only
  split
  · rename_i h
    rw [UBIFS_PAD_NODE_SZ] at h ⊢
    rw [List.length_append, preparedNode_length, le_length, List.length_replicate]
    omega
  · rw [List.length_replicate]
    omega

theorem doPad_bytes (buf : ℕ → Byte) {len : ℕ} (h8 : len%8 = 0) :
    readBytes (doPad c buf len).1 len (padding c len).length = padding c len ∧
      (doPad c buf len).2 = align len c.min_io_size := by
  have hal : align len 8 = len := align_of_mod (by decide) h8
  unfold doPad padding
  dsimp only
  rw [hal]
  by_cases h : UBIFS_PAD_NODE_SZ ≤ align len c.min_io_size-len
  · rw [if_pos h, if_pos h]
    refine ⟨?_, rfl⟩
    have hn := preparedNode_length 0 UBIFS_PAD_NODE (le 4 (align len c.min_io_size-len-UBIFS_PAD_NODE_SZ))
    rw [le_length] at hn
    generalize preparedNode 0 UBIFS_PAD_NODE _ = node at hn ⊢
    have hn' : node.length = UBIFS_PAD_NODE_SZ := hn
    rw [List.length_append, List.length_replicate, readBytes_add, hn', readBytes_setTo,
      readBytes_setTo_below (le_refl _), readBytes_copyTo_of_length hn']
  · rw [if_neg h, if_neg h]
    exact ⟨by rw [List.length_replicate, readBytes_setTo], rfl⟩

/-- The padding and the empty space behind it hold no node. -/
theorem scan_padding (hc : c.Accepted) {len : ℕ} (h8 : len%8 = 0) (hlen : len ≤ c.leb_size)
    (fuel : ℕ) (r : ℕ) :
    scanLeb c (fuel+2) len (padding c len ++ List.replicate r 0xff#8) = some [] := by
  have hio := hc.min_io_pos
  have hge := le_align len hio
  have hle := align_le hio hlen hc.leb_io
  have hmod := align_min_io_mod hc h8
  have hmax := hc.leb_max
  have hend := align_mod len c.min_io_size
  unfold padding
  dsimp only
  by_cases h : UBIFS_PAD_NODE_SZ ≤ align len c.min_io_size-len
  · rw [if_pos h]
    rw [UBIFS_PAD_NODE_SZ] at h ⊢
    rw [List.append_assoc, scanLeb_pad _ _ _ (by omega) (by omega),
      show len+(28+(align len c.min_io_size-len-28)) = align len c.min_io_size by omega]
    exact scanLeb_empty fuel _ r hend
  · rw [if_neg h]
    rw [UBIFS_PAD_NODE_SZ] at h
    by_cases h0 : align len c.min_io_size-len = 0
    · rw [h0, List.replicate_zero, List.nil_append]
      exact scanLeb_empty _ _ r (by rwa [show len = align len c.min_io_size by omega])
    · rw [scanLeb_bytes _ _ _ (by omega) (by omega) (by omega),
        show len+(align len c.min_io_size-len) = align len c.min_io_size by omega]
      exact scanLeb_empty fuel _ r hend

/-- A LEB that is flushed is scanned to its nodes. -/
theorem flushed_scan (hc : c.Accepted) {s : Head} (hs : s.Fits c) {rs : List Record}
    (hbuf : readBytes s.leb_buf 0 s.head_offs = stream rs) (hn : ∀ r ∈ rs, IsNode r.bytes)
    (hcons : Consec 0 rs) (hrs : rs.length ≤ s.head_offs) (h0 : s.head_offs ≠ 0) :
    scan c ((flushNodes c s).image s.head_lnum) = some (rs.map Record.found) := by
  have hio := hc.min_io_pos
  have hlen : (stream rs).length = s.head_offs := by rw [← hbuf, readBytes_length]
  have hle := align_le hio hs.offs_le hc.leb_io
  have hpl := padding_length hio s.head_offs
  obtain ⟨hpad, hwlen⟩ := doPad_bytes (c := c) s.leb_buf hs.offs_mod
  have himage : (flushNodes c s).image s.head_lnum = setTo (doPad c s.leb_buf s.head_offs).1
      (align s.head_offs c.min_io_size) (c.leb_size-align s.head_offs c.min_io_size) 0xff#8 := by
    rw [flushNodes, if_neg h0]
    simp only [setLprops_image, writeLeb, if_true, hwlen]
  have hbytes : readBytes ((flushNodes c s).image s.head_lnum) 0 c.leb_size =
      stream rs ++ (padding c s.head_offs ++
        List.replicate (c.leb_size-align s.head_offs c.min_io_size) 0xff#8) := by
    rw [himage, show c.leb_size = s.head_offs+((padding c s.head_offs).length+
      (c.leb_size-align s.head_offs c.min_io_size)) by omega, readBytes_add, readBytes_add]
    have hr : s.head_offs+((padding c s.head_offs).length+
        (c.leb_size-align s.head_offs c.min_io_size)) = c.leb_size := by omega
    rw [hr, Nat.zero_add, readBytes_setTo_below (by omega), readBytes_setTo_below (by omega), hpad,
      hpl, readBytes_setTo, readBytes_congr fun i hi => doPad_below (x := 0+i) (by omega), hbuf]
  have hfuel : c.leb_size+2 = c.leb_size-rs.length+2+rs.length := by
    have := hs.offs_le
    omega
  rw [scan, hbytes, hfuel, scan_stream _ _ _ hn hcons, Nat.zero_add, hlen,
    scan_padding hc hs.offs_mod hs.offs_le, Option.map_some, List.append_nil]

end Stream

section Run

variable {c : UbifsInfo} {a : MainArea}

/-- The nodes that were put into a LEB. -/
def MainArea.recordsIn (a : MainArea) (lnum : ℕ) : List Record :=
  a.records.filter fun r => r.place.lnum = lnum

/-- The node is at its place. -/
structure Record.Placed (c : UbifsInfo) (head_lnum : ℕ) (r : Record) : Prop where
  node : IsNode r.bytes
  fits : r.place.offs+r.bytes.length ≤ c.leb_size
  first : c.main_first ≤ r.place.lnum
  last : r.place.lnum ≤ head_lnum

/-- The LEBs that were written are scanned to their nodes, and the buffer holds those of the
head. -/
structure MainInv (c : UbifsInfo) (a : MainArea) : Prop where
  fits : a.head.Fits c
  first : c.main_first ≤ a.head.head_lnum
  placed : ∀ r ∈ a.records, r.Placed c a.head.head_lnum
  consec : Consec 0 (a.recordsIn a.head.head_lnum)
  buffer : readBytes a.head.leb_buf 0 a.head.head_offs = stream (a.recordsIn a.head.head_lnum)
  done : ∀ lnum, c.main_first ≤ lnum → lnum < a.head.head_lnum →
    scan c (a.head.image lnum) = some ((a.recordsIn lnum).map Record.found)

theorem length_le_stream (rs : List Record) (h : ∀ r ∈ rs, IsNode r.bytes) :
    rs.length ≤ (stream rs).length := by
  induction rs with
  | nil => exact le_refl 0
  | cons r rs ih =>
    obtain ⟨⟨sqnum, node_type, body, hb, -⟩, -⟩ := h r List.mem_cons_self
    have hlen : r.bytes.length = 24+body.length := by rw [hb, preparedNode_length]
    have hal := le_align r.bytes.length (a := 8) (by decide)
    have hrest := ih fun r hr => h r (List.mem_cons_of_mem _ hr)
    rw [stream_cons, List.length_append, padded_length, List.length_cons]
    omega

theorem MainInv.isNode (h : MainInv c a) (lnum : ℕ) : ∀ r ∈ a.recordsIn lnum, IsNode r.bytes :=
  fun r hr => (h.placed r (List.mem_filter.mp hr).1).node

theorem MainInv.records_le (h : MainInv c a) :
    (a.recordsIn a.head.head_lnum).length ≤ a.head.head_offs := by
  have := length_le_stream _ (h.isNode a.head.head_lnum)
  rwa [← h.buffer, readBytes_length] at this

/-- Nothing was put behind the head. -/
theorem MainInv.recordsIn_succ (h : MainInv c a) : a.recordsIn (a.head.head_lnum+1) = [] := by
  apply List.filter_eq_nil_iff.mpr
  intro r hr
  have := (h.placed r hr).last
  simp only [decide_eq_true_eq]
  omega

theorem MainInv.flush (hc : c.Accepted) (h : MainInv c a) : MainInv c (a.flush c) := by
  by_cases h0 : a.head.head_offs = 0
  · have hf : flushNodes c a.head = a.head := if_pos h0
    have he : (a.flush c).head = a.head := hf
    exact ⟨he ▸ h.fits, he ▸ h.first, he ▸ h.placed, he ▸ h.consec, he ▸ h.buffer, he ▸ h.done⟩
  have hl : (a.flush c).head.head_lnum = a.head.head_lnum+1 := flushNodes_head_lnum h0
  have ho : (a.flush c).head.head_offs = 0 := flushNodes_head_offs
  have hempty : (a.flush c).recordsIn (a.flush c).head.head_lnum = [] := by
    rw [hl]
    exact h.recordsIn_succ
  refine ⟨⟨by omega, by omega⟩, by have := h.first; omega, ?_, by rw [hempty]; trivial,
    by rw [hempty, ho]; rfl, ?_⟩
  · intro r hr
    obtain ⟨hn, hf, h1, h2⟩ := h.placed r hr
    exact ⟨hn, hf, h1, by omega⟩
  · intro lnum h1 h2
    rcases Nat.lt_or_eq_of_le (Nat.lt_succ_iff.mp (hl ▸ h2)) with hlt | rfl
    · have himage : (a.flush c).head.image lnum = a.head.image lnum := by
        change (flushNodes c a.head).image lnum = _
        rw [flushNodes, if_neg h0]
        simp only [setLprops_image, writeLeb, if_neg (Nat.ne_of_lt hlt)]
      rw [himage]
      exact h.done lnum h1 hlt
    · exact flushed_scan hc h.fits h.buffer (h.isNode _) h.consec h.records_le h0

/-- A node that fits is put at the head. -/
def MainArea.append (n : Node) (a : MainArea) : MainArea :=
  let node := preparedNode (a.head.max_sqnum+1) n.node_type n.body
  { a with
    head := { a.head with
      max_sqnum := a.head.max_sqnum+1
      head_offs := a.head.head_offs+align n.len 8
      leb_buf := setTo (copyTo a.head.leb_buf a.head.head_offs node) (a.head.head_offs+n.len)
        (align n.len 8-n.len) 0xff#8 }
    records := a.records ++ [⟨a.head.place, node⟩] }

theorem flushNodes_sqnum (s : Head) (k : ℕ) :
    flushNodes c { s with max_sqnum := k } = { flushNodes c s with max_sqnum := k } := by
  unfold flushNodes
  dsimp only
  split <;> rfl

/-- The head after a node was put, and the place of the node. -/
theorem putNode_eq (n : Node) (s : Head) :
    putNode c n.node_type n.body s =
      let node := preparedNode (s.max_sqnum+1) n.node_type n.body
      let s₁ := if (c.leb_size : ℤ)-s.head_offs < n.len then flushNodes c s else s
      (s₁.place, { s₁ with
        max_sqnum := s.max_sqnum+1
        head_offs := s₁.head_offs+align n.len 8
        leb_buf := setTo (copyTo s₁.leb_buf s₁.head_offs node) (s₁.head_offs+n.len)
          (align n.len 8-n.len) 0xff#8 }) := by
  have hlen : (preparedNode (s.max_sqnum+1) n.node_type n.body).length = n.len :=
    preparedNode_length _ _ _
  unfold putNode reserveSpace
  generalize preparedNode (s.max_sqnum+1) n.node_type n.body = node at hlen ⊢
  dsimp only
  rw [hlen]
  by_cases h : (c.leb_size : ℤ)-s.head_offs < n.len
  · rw [if_pos h, if_pos h, flushNodes_sqnum]
    rfl
  · rw [if_neg h, if_neg h]
    rfl

/-- To add a node is to put it at the head, after a flush where it does not fit. -/
theorem add_eq_append (n : Node) (a : MainArea) :
    a.add c n = if (c.leb_size : ℤ)-a.head.head_offs < n.len then (a.flush c).append n
      else a.append n := by
  have hsq : (flushNodes c a.head).max_sqnum = a.head.max_sqnum := flushNodes_max_sqnum
  unfold MainArea.add
  dsimp only
  rw [putNode_eq]
  by_cases h : (c.leb_size : ℤ)-a.head.head_offs < n.len
  · rw [if_pos h, if_pos h]
    dsimp only
    rw [if_pos h]
    unfold MainArea.append MainArea.flush
    dsimp only
    rw [hsq]
  · rw [if_neg h, if_neg h]
    dsimp only
    rw [if_neg h, List.append_nil]
    rfl

theorem MainInv.append (h : MainInv c a) (hc : c.Accepted) {n : Node} (hn : n.Fits c)
    (hfit : a.head.head_offs+n.len ≤ c.leb_size) : MainInv c (a.append n) := by
  have hlen : (preparedNode (a.head.max_sqnum+1) n.node_type n.body).length = n.len :=
    preparedNode_length _ _ _
  have hmax := hc.leb_max
  have hnode : IsNode (preparedNode (a.head.max_sqnum+1) n.node_type n.body) :=
    ⟨⟨_, _, _, rfl, hn.type_ne⟩, by omega⟩
  have hal := le_align n.len (a := 8) (by decide)
  have ham := align_mod n.len 8
  have h8 := h.fits.offs_mod
  have hsum : align (a.head.head_offs+n.len) 8 = a.head.head_offs+align n.len 8 := by
    unfold align
    omega
  have hle := align_le (a := 8) (by decide) hfit hc.leb_eight
  have hrec : (a.append n).recordsIn a.head.head_lnum = a.recordsIn a.head.head_lnum ++
      [⟨a.head.place, preparedNode (a.head.max_sqnum+1) n.node_type n.body⟩] := by
    simp [MainArea.recordsIn, MainArea.append, Head.place]
  have hother (lnum : ℕ) (hl : lnum < a.head.head_lnum) :
      (a.append n).recordsIn lnum = a.recordsIn lnum := by
    simp [MainArea.recordsIn, MainArea.append, Head.place, Nat.ne_of_gt hl]
  have hstream : (stream (a.recordsIn a.head.head_lnum)).length = a.head.head_offs := by
    rw [← h.buffer, readBytes_length]
  refine ⟨⟨?_, ?_⟩, h.first, ?_, ?_, ?_, ?_⟩
  · change a.head.head_offs+align n.len 8 ≤ _
    omega
  · change (a.head.head_offs+align n.len 8)%8 = 0
    omega
  · intro r hr
    rcases List.mem_append.mp hr with hr | hr
    · exact h.placed r hr
    · obtain rfl := List.mem_singleton.mp hr
      exact ⟨hnode, by rw [hlen]; exact hfit, h.first, le_refl _⟩
  · change Consec 0 ((a.append n).recordsIn a.head.head_lnum)
    rw [hrec]
    apply h.consec.append
    rw [hstream, Nat.zero_add]
    rfl
  · change readBytes (a.append n).head.leb_buf 0 (a.head.head_offs+align n.len 8) =
      stream ((a.append n).recordsIn a.head.head_lnum)
    rw [hrec, stream_append, ← h.buffer, readBytes_add]
    dsimp only [MainArea.append]
    generalize preparedNode (a.head.max_sqnum+1) n.node_type n.body = node at hlen ⊢
    rw [readBytes_setTo_below (by omega), readBytes_copyTo_outside (by omega), Nat.zero_add]
    congr 1
    rw [show align n.len 8 = n.len+(align n.len 8-n.len) by omega, readBytes_add,
      show n.len+(align n.len 8-n.len)-n.len = align n.len 8-n.len by omega, readBytes_setTo,
      readBytes_setTo_below (le_refl _), readBytes_copyTo_of_length hlen, stream, List.flatMap_cons,
      List.flatMap_nil, List.append_nil, Record.padded, hlen]
  · intro lnum h1 h2
    rw [hother lnum h2]
    exact h.done lnum h1 h2

theorem MainInv.add (h : MainInv c a) (hc : c.Accepted) {n : Node} (hn : n.Fits c) :
    MainInv c (a.add c n) := by
  rw [add_eq_append]
  have hlen := hn.len_le
  by_cases hf : (c.leb_size : ℤ)-a.head.head_offs < n.len
  · rw [if_pos hf]
    apply (h.flush hc).append hc hn
    have h0 : (a.flush c).head.head_offs = 0 := flushNodes_head_offs
    omega
  · rw [if_neg hf]
    exact h.append hc hn (by omega)

theorem MainInv.setFlags (h : MainInv c a) (flags : ℕ) : MainInv c (a.setFlags flags) :=
  ⟨⟨h.fits.offs_le, h.fits.offs_mod⟩, h.first, h.placed, h.consec, h.buffer, h.done⟩

theorem MainInv.dataOps (h : MainInv c a) (hc : c.Accepted) (ops : List Op)
    (hops : ∀ op ∈ ops, op.Fits c) : MainInv c (ops.foldl (MainArea.dataOp c) a) := by
  induction ops generalizing a with
  | nil => exact h
  | cons op ops ih =>
    have hstep : MainInv c (a.dataOp c op) := by
      cases op with
      | node n => exact h.add hc (hops _ List.mem_cons_self)
      | flush => exact h.flush hc
    exact ih hstep fun op hop => hops op (List.mem_cons_of_mem _ hop)

theorem MainInv.indexOps (h : MainInv c a) (hc : c.Accepted) (ops : List Op)
    (hops : ∀ op ∈ ops, op.Fits c) : MainInv c (ops.foldl (MainArea.indexOp c) a) := by
  induction ops generalizing a with
  | nil => exact h
  | cons op ops ih =>
    have hstep : MainInv c (a.indexOp c op) := by
      cases op with
      | node n =>
        obtain ⟨h1, h2, h3, h4, h5, h6⟩ := h.add hc (hops _ List.mem_cons_self)
        exact ⟨h1, h2, h3, h4, h5, h6⟩
      | flush => exact h.flush hc
    exact ih hstep fun op hop => hops op (List.mem_cons_of_mem _ hop)

/-- The LEB of the garbage collector is empty. -/
theorem MainInv.setGcLnum (h : MainInv c a) (h0 : a.head.head_offs = 0) :
    MainInv c (a.setGcLnum c) := by
  have hl : (a.setGcLnum c).head.head_lnum = a.head.head_lnum+1 := rfl
  have ho : (a.setGcLnum c).head.head_offs = 0 := h0
  have hempty : (a.setGcLnum c).recordsIn (a.setGcLnum c).head.head_lnum = [] := by
    rw [hl]
    exact h.recordsIn_succ
  have hgc : a.recordsIn a.head.head_lnum = [] := by
    have := h.records_le
    apply List.eq_nil_of_length_eq_zero
    omega
  refine ⟨⟨by omega, by omega⟩, by have := h.first; omega, ?_, by rw [hempty]; trivial,
    by rw [hempty, ho]; rfl, ?_⟩
  · intro r hr
    obtain ⟨hn, hf, h1, h2⟩ := h.placed r hr
    exact ⟨hn, hf, h1, by omega⟩
  · intro lnum h1 h2
    rcases Nat.lt_or_eq_of_le (Nat.lt_succ_iff.mp (hl ▸ h2)) with hlt | rfl
    · have himage : (a.setGcLnum c).head.image lnum = a.head.image lnum := by
        simp only [MainArea.setGcLnum, setLprops_image, writeLeb, if_neg (Nat.ne_of_lt hlt)]
      rw [himage]
      exact h.done lnum h1 hlt
    · have himage : (a.setGcLnum c).head.image a.head.head_lnum =
          setTo a.head.leb_buf 0 c.leb_size 0xff#8 := by
        simp only [MainArea.setGcLnum, setLprops_image, writeLeb, if_true, Nat.sub_zero]
      have hrec : (a.setGcLnum c).recordsIn a.head.head_lnum = [] := hgc
      rw [himage, hrec, scan, readBytes_setTo]
      exact scanLeb_empty _ _ _ (Nat.zero_mod _)

theorem MainInv.write (h : MainInv c a) (hc : c.Accepted) (data index : List Op)
    (hdata : ∀ op ∈ data, op.Fits c) (hindex : ∀ op ∈ index, op.Fits c) :
    MainInv c (a.write c data index) := by
  have h1 := (((h.setFlags 0).dataOps hc data hdata).flush hc).setGcLnum flushNodes_head_offs
  exact ((h1.setFlags LPROPS_INDEX).indexOps hc index hindex).flush hc

theorem mainInv_init (buf : ℕ → Byte) (image : ℕ → ℕ → Byte) (lpt : ℕ → Lprops) :
    MainInv c (MainArea.init c buf image lpt) :=
  ⟨⟨Nat.zero_le _, rfl⟩, le_refl _, by simp [MainArea.init], trivial, rfl,
    fun _ h1 h2 => absurd h2 (Nat.not_lt.mpr h1)⟩

end Run

section Spots

variable {c : UbifsInfo} {a : MainArea}

/-- Where the head is, and the places that were given to nodes so far. -/
structure Spots where
  lnum : ℕ
  offs : ℕ
  places : List Place
deriving DecidableEq

def Spots.flush (k : Spots) : Spots := if k.offs = 0 then k else ⟨k.lnum+1, 0, k.places⟩

def Spots.append (len : ℕ) (k : Spots) : Spots :=
  ⟨k.lnum, k.offs+align len 8, k.places ++ [⟨k.lnum, k.offs⟩]⟩

/-- The length of the node, if it is one. -/
def Op.len : Op → Option ℕ
  | .node n => some n.len
  | .flush => none

def Spots.op (leb_size : ℕ) (k : Spots) : Option ℕ → Spots
  | some len => (if leb_size < k.offs+len then k.flush else k).append len
  | none => k.flush

def Spots.write (leb_size : ℕ) (data index : List (Option ℕ)) (k : Spots) : Spots :=
  let k := (data.foldl (Spots.op leb_size) k).flush
  (index.foldl (Spots.op leb_size) { k with lnum := k.lnum+1 }).flush

def MainArea.spots (a : MainArea) : Spots :=
  ⟨a.head.head_lnum, a.head.head_offs, a.records.map Record.place⟩

theorem spots_lnum (a : MainArea) : a.spots.lnum = a.head.head_lnum := rfl

theorem spots_flush (a : MainArea) : (a.flush c).spots = a.spots.flush := by
  unfold Spots.flush
  by_cases h : a.spots.offs = 0
  · have hsame : flushNodes c a.head = a.head := if_pos h
    rw [if_pos h, MainArea.spots, MainArea.flush, hsame]
    rfl
  · rw [if_neg h]
    change Spots.mk (flushNodes c a.head).head_lnum (flushNodes c a.head).head_offs _ = _
    rw [flushNodes_head_lnum h, flushNodes_head_offs]
    rfl

theorem spots_append (n : Node) (a : MainArea) : (a.append n).spots = a.spots.append n.len := by
  rw [MainArea.spots, MainArea.append, Spots.append, List.map_append]
  rfl

theorem spots_add (n : Node) (a : MainArea) :
    (a.add c n).spots = a.spots.op c.leb_size (some n.len) := by
  have hoffs : a.spots.offs = a.head.head_offs := rfl
  rw [add_eq_append, Spots.op]
  by_cases h : c.leb_size < a.spots.offs+n.len
  · rw [if_pos (by omega), if_pos h, spots_append, spots_flush]
  · rw [if_neg (by omega), if_neg h, spots_append]

theorem spots_foldl {f : MainArea → Op → MainArea}
    (hnode : ∀ n a, (f a (.node n)).spots = a.spots.op c.leb_size (some n.len))
    (hflush : ∀ a, (f a .flush).spots = a.spots.flush) (ops : List Op) (a : MainArea) :
    (ops.foldl f a).spots = (ops.map Op.len).foldl (Spots.op c.leb_size) a.spots := by
  rw [List.foldl_map]
  refine (List.foldl_hom MainArea.spots fun a op => ?_).symm
  cases op with
  | node n => exact (hnode n a).symm
  | flush => exact (hflush a).symm

/-- The places of the nodes come from the lengths alone. -/
theorem spots_write (data index : List Op) (a : MainArea) :
    (a.write c data index).spots =
      a.spots.write c.leb_size (data.map Op.len) (index.map Op.len) := by
  have hdata := spots_foldl (f := MainArea.dataOp c) spots_add spots_flush data
  have hindex := spots_foldl (f := MainArea.indexOp c) spots_add spots_flush index
  have hgc (a : MainArea) : ((a.setGcLnum c).setFlags LPROPS_INDEX).spots =
      { a.spots with lnum := a.spots.lnum+1 } := rfl
  rw [MainArea.write, Spots.write, spots_flush, hindex, hgc, spots_flush, hdata]
  rfl

end Spots

section Result

variable {c : UbifsInfo} {a : MainArea}

/-- The nodes of a phase. -/
def opNodes (ops : List Op) : List Node :=
  ops.filterMap fun
    | .node n => some n
    | .flush => none

/-- The record is of the node. -/
def IsRecord (n : Node) (r : Record) : Prop :=
  ∃ sqnum, r.bytes = preparedNode sqnum n.node_type n.body

theorem dataOps_records (ops : List Op) (a : MainArea) :
    ∃ rs, (ops.foldl (MainArea.dataOp c) a).records = a.records ++ rs ∧
      List.Forall₂ IsRecord (opNodes ops) rs := by
  induction ops generalizing a with
  | nil => exact ⟨[], (List.append_nil _).symm, List.Forall₂.nil⟩
  | cons op ops ih =>
    obtain ⟨rs, hrs, hall⟩ := ih (a.dataOp c op)
    cases op with
    | node n =>
      refine ⟨_ :: rs, hrs.trans (List.append_assoc _ _ _), List.Forall₂.cons ⟨_, rfl⟩ hall⟩
    | flush => exact ⟨rs, hrs, hall⟩

theorem indexOps_records (ops : List Op) (a : MainArea) :
    ∃ rs, (ops.foldl (MainArea.indexOp c) a).records = a.records ++ rs ∧
      List.Forall₂ IsRecord (opNodes ops) rs := by
  induction ops generalizing a with
  | nil => exact ⟨[], (List.append_nil _).symm, List.Forall₂.nil⟩
  | cons op ops ih =>
    obtain ⟨rs, hrs, hall⟩ := ih (a.indexOp c op)
    cases op with
    | node n =>
      refine ⟨_ :: rs, hrs.trans (List.append_assoc _ _ _), List.Forall₂.cons ⟨_, rfl⟩ hall⟩
    | flush => exact ⟨rs, hrs, hall⟩

theorem write_records (data index : List Op) (a : MainArea) :
    ∃ rs, (a.write c data index).records = a.records ++ rs ∧
      List.Forall₂ IsRecord (opNodes data ++ opNodes index) rs := by
  obtain ⟨rs, hrs, hall⟩ := dataOps_records (c := c) data (a.setFlags 0)
  obtain ⟨rs', hrs', hall'⟩ := indexOps_records (c := c) index
    ((((data.foldl (MainArea.dataOp c) (a.setFlags 0)).flush c).setGcLnum c).setFlags LPROPS_INDEX)
  refine ⟨rs ++ rs', ?_, List.rel_append hall hall'⟩
  rw [← List.append_assoc]
  exact hrs'.trans (congrArg (· ++ rs') hrs)

/-- Each LEB of the main area is scanned to the nodes that were added to it, in their order
and at the places that were recorded; the nodes are those that were passed, and none crosses
the end of its LEB. What is written of a LEB is whole I/O units. -/
theorem main_area_scanned (hc : c.Accepted) (data index : List Op)
    (hdata : ∀ op ∈ data, op.Fits c) (hindex : ∀ op ∈ index, op.Fits c) (buf : ℕ → Byte)
    (image : ℕ → ℕ → Byte) (lpt : ℕ → Lprops) :
    let a := (MainArea.init c buf image lpt).write c data index
    (∀ lnum, c.main_first ≤ lnum → lnum < a.head.head_lnum →
      scan c (a.head.image lnum) = some ((a.recordsIn lnum).map Record.found)) ∧
    List.Forall₂ IsRecord (opNodes data ++ opNodes index) a.records ∧
    (∀ r ∈ a.records, c.main_first ≤ r.place.lnum ∧ r.place.lnum < a.head.head_lnum ∧
      r.place.offs+r.bytes.length ≤ c.leb_size) ∧
    (∀ buf len, len ≤ c.leb_size → (doPad c buf len).2%c.min_io_size = 0 ∧
      (doPad c buf len).2 ≤ c.leb_size) := by
  have hinv := (mainInv_init (c := c) buf image lpt).write hc data index hdata hindex
  obtain ⟨rs, hrs, hall⟩ := write_records (c := c) data index (MainArea.init c buf image lpt)
  refine ⟨hinv.done, ?_, ?_, fun buf len hlen => doPad_length hc buf hlen⟩
  · rw [hrs]
    exact hall
  · intro r hr
    obtain ⟨hn, hfit, h1, h2⟩ := hinv.placed r hr
    refine ⟨h1, ?_, hfit⟩
    -- after the last flush the LEB at the head has no nodes
    rcases Nat.lt_or_eq_of_le h2 with hlt | heq
    · exact hlt
    · have hmem : r ∈ MainArea.recordsIn _ _ := List.mem_filter.mpr ⟨hr, decide_eq_true heq⟩
      have hle := hinv.records_le
      have h0 : ((MainArea.init c buf image lpt).write c data index).head.head_offs = 0 :=
        flushNodes_head_offs
      have := List.length_pos_of_mem hmem
      omega

/-- A volume of 1000 LEBs, 980 of them in the main area. -/
def nandVolume : UbifsInfo := ⟨2048, 126976, 1000, 8, 20, 980, 2048, 6144⟩

theorem nandVolume_accepted : nandVolume.Accepted :=
  ⟨⟨11, rfl⟩, by decide, by decide, by decide, by decide, by decide, by decide, by decide,
    by decide⟩

/-- An index node without branches. -/
def plainNode : Node := ⟨UBIFS_IDX_NODE, [0#8, 0#8, 0#8, 0#8]⟩

/-- The main area before anything is written. -/
def blankArea : MainArea :=
  MainArea.init nandVolume (fun _ => 0#8) (fun _ _ => 0#8) fun _ => ⟨0, 0, 0⟩

/-- A node with a body of zeros. -/
def zeroNode (node_type : Byte) (size : ℕ) : Node := ⟨node_type, List.replicate size 0#8⟩

theorem zeroNode_len (node_type : Byte) (size : ℕ) : (zeroNode node_type size).len = 24+size := by
  rw [Node.len, zeroNode, List.length_replicate]
  rfl

/-- Three nodes of files, the third of them too long for what is left of the LEB, and two more behind a
flush. -/
def longData : List Op :=
  [.node (zeroNode 0#8 5), .node (zeroNode 1#8 100000), .node (zeroNode 1#8 50001), .flush,
    .node (zeroNode 2#8 40), .node (zeroNode 2#8 33)]

def longIndex : List Op :=
  [.node (zeroNode UBIFS_IDX_NODE 200), .node (zeroNode UBIFS_IDX_NODE 84), .flush, .node plainNode]

def longArea : MainArea := blankArea.write nandVolume longData longIndex

theorem longArea_spots : longArea.spots = ⟨26, 0,
    [⟨20, 0⟩, ⟨20, 32⟩, ⟨21, 0⟩, ⟨22, 0⟩, ⟨22, 64⟩, ⟨24, 0⟩, ⟨24, 224⟩, ⟨25, 0⟩]⟩ := by
  have hdata : longData.map Op.len = [some 29, some 100024, some 50025, none, some 64, some 57] := by
    simp only [longData, List.map_cons, List.map_nil, Op.len, zeroNode_len]
  have hindex : longIndex.map Op.len = [some 224, some 108, none, some 28] := by
    simp only [longIndex, List.map_cons, List.map_nil, Op.len, zeroNode_len]
    rfl
  rw [longArea, spots_write, hdata, hindex]
  rfl

theorem longData_fit : ∀ op ∈ longData, op.Fits nandVolume := by
  have hfit {type : Byte} {size : ℕ} (ht : type ≠ UBIFS_PAD_NODE) (hs : 24+size ≤ 126976) :
      (Op.node (zeroNode type size)).Fits nandVolume :=
    ⟨ht, (zeroNode_len type size).trans_le hs⟩
  simp only [longData, List.forall_mem_cons, List.not_mem_nil, false_implies, implies_true, and_true]
  exact ⟨hfit (by decide) (by decide), hfit (by decide) (by decide), hfit (by decide) (by decide),
    trivial, hfit (by decide) (by decide), hfit (by decide) (by decide)⟩

theorem longIndex_fit : ∀ op ∈ longIndex, op.Fits nandVolume := by
  have hfit (size : ℕ) (hs : 24+size ≤ 126976) :
      (Op.node (zeroNode UBIFS_IDX_NODE size)).Fits nandVolume :=
    ⟨show UBIFS_IDX_NODE ≠ UBIFS_PAD_NODE by decide, (zeroNode_len UBIFS_IDX_NODE size).trans_le hs⟩
  simp only [longIndex, List.forall_mem_cons, List.not_mem_nil, false_implies, implies_true, and_true]
  exact ⟨hfit 200 (by decide), hfit 84 (by decide), trivial, by decide, by decide⟩

/-- Three LEBs of nodes, one for the garbage collector and two of the index. -/
theorem main_area_scanned_long :
    longArea.spots = ⟨26, 0,
      [⟨20, 0⟩, ⟨20, 32⟩, ⟨21, 0⟩, ⟨22, 0⟩, ⟨22, 64⟩, ⟨24, 0⟩, ⟨24, 224⟩, ⟨25, 0⟩]⟩ ∧
    (∀ lnum, 20 ≤ lnum → lnum < 26 →
      scan nandVolume (longArea.head.image lnum) = some ((longArea.recordsIn lnum).map Record.found)) ∧
    List.Forall₂ IsRecord (opNodes longData ++ opNodes longIndex) longArea.records ∧
    (∀ r ∈ longArea.records, 20 ≤ r.place.lnum ∧ r.place.lnum < 26 ∧
      r.place.offs+r.bytes.length ≤ 126976) ∧
    ∀ buf len, len ≤ 126976 → (doPad nandVolume buf len).2%2048 = 0 ∧
      (doPad nandVolume buf len).2 ≤ 126976 := by
  have hspots := longArea_spots
  unfold longArea blankArea at hspots ⊢
  obtain ⟨hscan, hrecords, hplaces, hpad⟩ := main_area_scanned nandVolume_accepted longData longIndex
    longData_fit longIndex_fit (fun _ => 0#8) (fun _ _ => 0#8) fun _ => ⟨0, 0, 0⟩
  rw [← spots_lnum, hspots] at hscan
  refine ⟨hspots, hscan, hrecords, fun r hr => ?_, hpad⟩
  have hplace := hplaces r hr
  rw [← spots_lnum, hspots] at hplace
  exact hplace

end Result

end ChipTools.Ubifs
