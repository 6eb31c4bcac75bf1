import ChipTools.Crc16
import ChipTools.UbifsHead

/-! The LEB properties tree of `mkfs.ubifs`: its geometry, which depends on its own size, and
its nodes, which are laid out level by level in the LEBs of the LPT area. -/
namespace ChipTools.Ubifs
open Bytes

def UBIFS_LPT_FANOUT : ℕ := 4
def UBIFS_LPT_CRC_BITS : ℕ := 16
def UBIFS_LPT_CRC_BYTES : ℕ := 2
def UBIFS_LPT_TYPE_BITS : ℕ := 4
def UBIFS_MIN_LPT_LEBS : ℕ := 2

/-- `c->lsave_cnt`, which no option changes. -/
def LSAVE_CNT : ℕ := 256

/-- A step of `fls`: a word without its `k` highest bits is shifted by them. -/
def flsStep (s : ℕ × ℕ) (k : ℕ) : ℕ × ℕ := if s.1 < 2^(32-k) then (s.1*2^k, s.2-k) else s

/-- `fls`: the number of the highest bit that is set. -/
def fls (x : ℕ) : ℕ := if x = 0 then 0 else ([16, 8, 4, 2, 1].foldl flsStep (x, 32)).2

/-- The numbers of nodes of the levels above one of `n` nodes. -/
def nnodesAbove : ℕ → ℕ → ℕ
  | 0, _ => 0
  | k+1, n => if 1 < n then
      let n := (n+UBIFS_LPT_FANOUT-1)/UBIFS_LPT_FANOUT
      n+nnodesAbove k n
    else 0

/-- The height of a tree over `cnt` leaves, where `n` would be enough for `hght` levels. -/
def lptHght (cnt : ℕ) : ℕ → ℕ → ℕ → ℕ
  | 0, hght, _ => hght
  | k+1, hght, n => if n < cnt then lptHght cnt k (hght+1) (n*UBIFS_LPT_FANOUT) else hght

/-- The geometry of the LPT in `struct ubifs_info`. -/
structure LptGeom where
  main_lebs : ℕ
  lpt_lebs : ℕ
  big_lpt : Bool
  pnode_cnt : ℕ
  nnode_cnt : ℕ
  lpt_hght : ℕ
  space_bits : ℕ
  lpt_lnum_bits : ℕ
  lpt_offs_bits : ℕ
  lpt_spc_bits : ℕ
  pcnt_bits : ℕ
  lnum_bits : ℕ
  pnode_sz : ℕ
  nnode_sz : ℕ
  ltab_sz : ℕ
  lsave_sz : ℕ
  lpt_sz : ℕ
deriving DecidableEq

def bytesOf (bits : ℕ) : ℕ := (bits+7)/8

/-- `c->pcnt_bits`, from an `int` sum that can be negative for the last three counts. -/
def pcntBits (max_leb_cnt : ℕ) : ℕ :=
  let n := (BitVec.ofNat 32 (max_leb_cnt+UBIFS_LPT_FANOUT-1)).toInt.tdiv UBIFS_LPT_FANOUT
  fls (BitVec.ofInt 32 (n-1)).toNat

/-- The geometry without what is lost at the ends of LEBs. -/
def minGeom (c : UbifsInfo) (main_lebs lpt_lebs : ℕ) (big_lpt : Bool) : LptGeom :=
  let pnode_cnt := (main_lebs+UBIFS_LPT_FANOUT-1)/UBIFS_LPT_FANOUT
  let n := (pnode_cnt+UBIFS_LPT_FANOUT-1)/UBIFS_LPT_FANOUT
  let nnode_cnt := n+nnodesAbove n n
  let space_bits := fls c.leb_size-3
  let lpt_lnum_bits := fls lpt_lebs
  let lpt_offs_bits := fls (c.leb_size-1)
  let lpt_spc_bits := fls c.leb_size
  let pcnt_bits := pcntBits c.max_leb_cnt
  let lnum_bits := fls (c.max_leb_cnt-1)
  let head := UBIFS_LPT_CRC_BITS+UBIFS_LPT_TYPE_BITS
  let num := if big_lpt then pcnt_bits else 0
  let pnode_sz := bytesOf (head+num+(space_bits*2+1)*UBIFS_LPT_FANOUT)
  let nnode_sz := bytesOf (head+num+(lpt_lnum_bits+lpt_offs_bits)*UBIFS_LPT_FANOUT)
  let ltab_sz := bytesOf (head+lpt_lebs*lpt_spc_bits*2)
  let lsave_sz := bytesOf (head+lnum_bits*LSAVE_CNT)
  { main_lebs, lpt_lebs, big_lpt, pnode_cnt, nnode_cnt,
    lpt_hght := lptHght pnode_cnt pnode_cnt 1 UBIFS_LPT_FANOUT
    space_bits, lpt_lnum_bits, lpt_offs_bits, lpt_spc_bits, pcnt_bits, lnum_bits,
    pnode_sz, nnode_sz, ltab_sz, lsave_sz
    lpt_sz := pnode_cnt*pnode_sz+nnode_cnt*nnode_sz+ltab_sz+lsave_sz }

/-- The loop that counts what is lost at the end of each LEB: the size of the last LEB and the
sum, or nothing where it does not end. -/
def wastage (leb_size per_leb_wastage : ℕ) : ℕ → ℕ → ℕ → Option (ℕ × ℕ)
  | 0, _, _ => none
  | k+1, sz, tot => if leb_size < sz then
      wastage leb_size per_leb_wastage k (sz+per_leb_wastage-leb_size) (tot+per_leb_wastage)
    else some (sz, tot)

/-- What is counted as lost in each LEB. -/
def LptGeom.perLebWastage (g : LptGeom) : ℕ := max g.pnode_sz g.nnode_sz

def LptGeom.lose (g : LptGeom) (lost : ℕ) : LptGeom := { g with lpt_sz := g.lpt_sz+lost }

/-- `do_calc_lpt_geom`. -/
def doCalcLptGeom (c : UbifsInfo) (main_lebs lpt_lebs : ℕ) (big_lpt : Bool) : Option LptGeom := do
  let g := minGeom c main_lebs lpt_lebs big_lpt
  let sz := g.lpt_sz+g.perLebWastage
  let (sz, tot_wastage) ← wastage c.leb_size g.perLebWastage (sz+1) sz g.perLebWastage
  some (g.lose (tot_wastage+(align sz c.min_io_size-sz)))

/-- How `calc_dflt_lpt_geom` fails: with -EINVAL, or not at all. -/
inductive LptStop
  | einval
  | hang
deriving DecidableEq, Repr

def calcLptGeom (c : UbifsInfo) (main_lebs lpt_lebs : ℕ) (big_lpt : Bool) : Except LptStop LptGeom :=
  match doCalcLptGeom c main_lebs lpt_lebs big_lpt with
  | some g => .ok g
  | none => .error .hang

/-- The LEBs for four times the size. -/
def lebsNeeded (c : UbifsInfo) (lpt_sz : ℕ) : ℕ := (lpt_sz*4+(c.leb_size-1))/c.leb_size

/-- The passes that look whether there are enough LPT LEBs, at most `k` of them. -/
def enoughLebs (c : UbifsInfo) (main_lebs : ℕ) : ℕ → LptGeom → Except LptStop LptGeom
  | 0, _ => .error .einval
  | k+1, g =>
    let lebs_needed := lebsNeeded c g.lpt_sz
    if g.lpt_lebs < lebs_needed then
      if main_lebs ≤ lebs_needed then .error .einval
      else do
        let g ← calcLptGeom c (main_lebs-lebs_needed) lebs_needed g.big_lpt
        enoughLebs c main_lebs k g
    else if c.leb_size < g.ltab_sz then .error .einval
    else .ok g

/-- `calc_dflt_lpt_geom`. -/
def calcDfltLptGeom (c : UbifsInfo) (main_lebs : ℕ) : Except LptStop LptGeom :=
  if main_lebs ≤ UBIFS_MIN_LPT_LEBS then .error .einval
  else do
    let g ← calcLptGeom c (main_lebs-UBIFS_MIN_LPT_LEBS) UBIFS_MIN_LPT_LEBS false
    let g ← if c.leb_size < g.lpt_sz then
        calcLptGeom c (main_lebs-UBIFS_MIN_LPT_LEBS) UBIFS_MIN_LPT_LEBS true
      else .ok g
    enoughLebs c main_lebs 64 g

section Nodes

/-- The address and the bit position at which fields are packed. -/
structure Packer where
  buf : ℕ → Byte
  addr : ℕ
  pos : ℕ

def setByte (buf : ℕ → Byte) (p : ℕ) (b : Byte) : ℕ → Byte := fun x => if x = p then b else buf x

/-- The bytes of a field behind its first one, at most `k` of them. -/
def spill : ℕ → BitVec 32 → ℕ → (ℕ → Byte) → ℕ → (ℕ → Byte) × ℕ
  | 0, _, _, buf, p => (buf, p)
  | k+1, val, nrbits, buf, p => if 8 < nrbits then
      spill k (val >>> 8) (nrbits-8) (setByte buf (p+1) ((val >>> 8).setWidth 8)) (p+1)
    else (buf, p)

/-- `pack_bits`. -/
def packBits (k : Packer) (val : BitVec 32) (nrbits : ℕ) : Packer :=
  let b := k.pos
  let (buf, p, nrbits) :=
    if b ≠ 0 then
      let buf := setByte k.buf k.addr (k.buf k.addr ||| val.setWidth 8 <<< b)
      let nrbits := nrbits+b
      if 8 < nrbits then
        let val := val >>> (8-b)
        let (buf, p) := spill 3 val (nrbits-8) (setByte buf (k.addr+1) (val.setWidth 8)) (k.addr+1)
        (buf, p, nrbits)
      else (buf, k.addr, nrbits)
    else
      let (buf, p) := spill 3 val nrbits (setByte k.buf k.addr (val.setWidth 8)) k.addr
      (buf, p, nrbits)
  let b := nrbits%8
  ⟨buf, if b = 0 then p+1 else p, b⟩

inductive LptNode
  | pnode
  | nnode
  | ltab
  | lsave

def LptNode.type : LptNode → BitVec 32
  | .pnode => 0#32
  | .nnode => 1#32
  | .ltab => 2#32
  | .lsave => 3#32

/-- A field and its width. -/
abbrev Field := BitVec 32 × ℕ

/-- The fields of a node behind its CRC, and then the CRC: the common part of `pack_pnode`,
`pack_nnode`, `pack_ltab` and `pack_lsave`. -/
def packNode (type : LptNode) (fields : List Field) (sz : ℕ) (buf : ℕ → Byte) (p : ℕ) : ℕ → Byte :=
  let k := packBits ⟨buf, p+UBIFS_LPT_CRC_BYTES, 0⟩ type.type UBIFS_LPT_TYPE_BITS
  let k := fields.foldl (fun k f => packBits k f.1 f.2) k
  let crc := crc16 (-1#16) (readBytes k.buf (p+UBIFS_LPT_CRC_BYTES) (sz-UBIFS_LPT_CRC_BYTES))
  (packBits ⟨k.buf, p, 0⟩ (crc.setWidth 32) UBIFS_LPT_CRC_BITS).buf

/-- The number of a node, which only the big model has. -/
def numField (g : LptGeom) (num : ℕ) : List Field :=
  if g.big_lpt then [(BitVec.ofNat 32 num, g.pcnt_bits)] else []

def lpropsFields (g : LptGeom) (lp : Lprops) : List Field :=
  [(BitVec.ofInt 32 (lp.free/8), g.space_bits), (BitVec.ofInt 32 (lp.dirty/8), g.space_bits),
    (if lp.flags &&& LPROPS_INDEX ≠ 0 then 1#32 else 0#32, 1)]

/-- `pack_pnode`. -/
def packPnode (g : LptGeom) (num : ℕ) (lprops : List Lprops) : (ℕ → Byte) → ℕ → ℕ → Byte :=
  packNode .pnode (numField g num ++ lprops.flatMap (lpropsFields g)) g.pnode_sz

/-- A branch of an nnode. There is nothing at LEB 0. -/
def branchFields (g : LptGeom) (lpt_first : ℕ) (br : Place) : List Field :=
  let lnum := if br.lnum = 0 then lpt_first+g.lpt_lebs else br.lnum
  [(BitVec.ofInt 32 ((lnum : ℤ)-lpt_first), g.lpt_lnum_bits),
    (BitVec.ofNat 32 br.offs, g.lpt_offs_bits)]

/-- `pack_nnode`. -/
def packNnode (g : LptGeom) (lpt_first num : ℕ) (nbranch : List Place) :
    (ℕ → Byte) → ℕ → ℕ → Byte :=
  packNode .nnode (numField g num ++ nbranch.flatMap (branchFields g lpt_first)) g.nnode_sz

/-- `pack_ltab`, of the free and the dirty space of each LEB. -/
def packLtab (g : LptGeom) (ltab : List (ℕ × ℕ)) : (ℕ → Byte) → ℕ → ℕ → Byte :=
  packNode .ltab (ltab.flatMap fun lp =>
    [(BitVec.ofNat 32 lp.1, g.lpt_spc_bits), (BitVec.ofNat 32 lp.2, g.lpt_spc_bits)]) g.ltab_sz

/-- `pack_lsave`. -/
def packLsave (g : LptGeom) (lsave : List ℕ) : (ℕ → Byte) → ℕ → ℕ → Byte :=
  packNode .lsave (lsave.map fun lnum => (BitVec.ofNat 32 lnum, g.lnum_bits)) g.lsave_sz

/-- `calc_nnode_num`. -/
def calcNnodeNum : ℕ → ℕ → ℕ
  | row, col => go row col 1
where
  go : ℕ → ℕ → ℕ → ℕ
  | 0, _, num => num
  | row+1, col, num => go row (col/UBIFS_LPT_FANOUT) (num*UBIFS_LPT_FANOUT ||| col%UBIFS_LPT_FANOUT)

end Nodes

section Layout

/-- The state of `create_lpt`: the LEB at hand, and those that were written. -/
structure LptWriter where
  lnum : ℕ
  len : ℕ
  buf : ℕ → Byte
  image : ℕ → ℕ → Byte
  written : List ℕ
  ltab : ℕ → ℕ × ℕ
  root : Place
  lsave_at : Place
  ltab_at : Place

variable (c : UbifsInfo) (g : LptGeom) (lpt_first : ℕ)

/-- The LEB at hand is written, with its space in `ltab`. -/
def LptWriter.writeLeb (s : LptWriter) : LptWriter :=
  let alen := align s.len c.min_io_size
  let buf := setTo (setTo s.buf s.len (alen-s.len) 0xff#8) alen (c.leb_size-alen) 0xff#8
  { s with
    buf := buf
    image := fun l => if l = s.lnum then buf else s.image l
    written := s.written ++ [s.lnum] }

/-- `set_ltab` for the LEB at hand. -/
def LptWriter.setLtab (s : LptWriter) : LptWriter :=
  let alen := align s.len c.min_io_size
  { s with ltab := fun l => if l = s.lnum then (c.leb_size-alen, alen-s.len) else s.ltab l }

/-- A node of `sz` bytes needs a place: the next LEB, if it does not fit. -/
def LptWriter.makeRoom (sz : ℕ) (s : LptWriter) : LptWriter :=
  if c.leb_size < s.len+sz then
    let s := (s.setLtab c).writeLeb c
    { s with lnum := s.lnum+1, len := 0 }
  else s

/-- A node is packed at the place. -/
def LptWriter.putNode (sz : ℕ) (pack : (ℕ → Byte) → ℕ → ℕ → Byte) (s : LptWriter) : LptWriter :=
  { s with buf := pack s.buf s.len, len := s.len+sz }

def lpropsAt (main_lebs : ℕ) (lpt : ℕ → Lprops) (k : ℕ) : Lprops :=
  if k < main_lebs then lpt k else ⟨c.leb_size, 0, 0⟩

/-- The pnodes, from number `i` on. -/
def addPnodes (main_lebs : ℕ) (lpt : ℕ → Lprops) : ℕ → ℕ → LptWriter → LptWriter
  | 0, _, s => s
  | n+1, i, s =>
    let lprops := (List.range UBIFS_LPT_FANOUT).map fun j =>
      lpropsAt c main_lebs lpt (i*UBIFS_LPT_FANOUT+j)
    addPnodes main_lebs lpt n (i+1)
      ((s.makeRoom c g.pnode_sz).putNode g.pnode_sz (packPnode g i lprops))

/-- Where the nodes of the level below are, of which `cnt` are left. -/
structure Below where
  lnum : ℕ
  offs : ℕ
  cnt : ℕ
  sz : ℕ

/-- The branch to the next node of the level below. -/
def nextBranch (b : Below) : Place × Below :=
  if b.cnt = 0 then (⟨0, 0⟩, b)
  else
    let b := if c.leb_size < b.offs+b.sz then { b with lnum := b.lnum+1, offs := 0 } else b
    (⟨b.lnum, b.offs⟩, { b with offs := b.offs+b.sz, cnt := b.cnt-1 })

def nextBranches : ℕ → Below → List Place × Below
  | 0, b => ([], b)
  | n+1, b =>
    let (br, b) := nextBranch c b
    let (brs, b) := nextBranches n b
    (br :: brs, b)

/-- An nnode with its branches. -/
def addNnode (row i : ℕ) (nbranch : List Place) (s : LptWriter) : LptWriter :=
  let s := s.makeRoom c g.nnode_sz
  let s := if row = 0 then { s with root := ⟨s.lnum, s.len⟩ } else s
  s.putNode g.nnode_sz (packNnode g lpt_first (calcNnodeNum row i) nbranch)

/-- The nnodes of a row, from column `i` on. -/
def addNnodes (row : ℕ) : ℕ → ℕ → LptWriter × Below → LptWriter × Below
  | 0, _, s => s
  | n+1, i, (s, b) =>
    let (nbranch, b) := nextBranches c UBIFS_LPT_FANOUT b
    addNnodes row n (i+1) (addNnode c g lpt_first row i nbranch s, b)

/-- The number of nodes of the level above one of `cnt` nodes. -/
def levelCnt (cnt : ℕ) : ℕ :=
  let cnt := (cnt+UBIFS_LPT_FANOUT-1)/UBIFS_LPT_FANOUT
  if cnt = 0 then 1 else cnt

/-- The rows of nnodes, from `row` up to the root, over a level of `cnt` nodes. -/
def addRows : ℕ → ℕ → LptWriter × Below → LptWriter × Below
  | 0, cnt, s => addNnodes c g lpt_first 0 (levelCnt cnt) 0 s
  | row+1, cnt, s =>
    let (s, b) := addNnodes c g lpt_first (row+1) (levelCnt cnt) 0 s
    addRows row (levelCnt cnt) (s, { b with cnt := levelCnt cnt, sz := g.nnode_sz })

/-- The save table, which only the big model has. -/
def addLsave (main_first : ℕ) (s : LptWriter) : LptWriter :=
  if g.big_lpt then
    let s := s.makeRoom c g.lsave_sz
    let s := { s with lsave_at := ⟨s.lnum, s.len⟩ }
    s.putNode g.lsave_sz (packLsave g ((List.range LSAVE_CNT).map (main_first+·)))
  else s

/-- The table of the LEBs of the LPT itself, with which the last LEB is written. -/
def addLtab (s : LptWriter) : LptWriter :=
  let s := s.makeRoom c g.ltab_sz
  let s := { s with ltab_at := ⟨s.lnum, s.len⟩, len := s.len+g.ltab_sz }
  -- it has its own LEB in it before it is packed
  let s := s.setLtab c
  let ltab := (List.range g.lpt_lebs).map fun i => s.ltab (lpt_first+i)
  let s := { s with buf := packLtab g ltab s.buf s.ltab_at.offs }
  s.writeLeb c

/-- `create_lpt`, for a main area of `main_lebs` LEBs. -/
def createLpt (main_first main_lebs : ℕ) (lpt : ℕ → Lprops) (s : LptWriter) : LptWriter :=
  let cnt := (main_lebs+UBIFS_LPT_FANOUT-1)/UBIFS_LPT_FANOUT
  let s := addPnodes c g main_lebs lpt cnt 0 { s with lnum := lpt_first, len := 0 }
  let (s, _) := addRows c g lpt_first (g.lpt_hght-1) cnt (s, ⟨lpt_first, 0, cnt, g.pnode_sz⟩)
  addLtab c g lpt_first (addLsave c g main_first s)

end Layout

section Sizes

/-- The word `x` in a state of `fls`, with one of its `b` highest bits set. -/
structure FlsInv (x b : ℕ) (s : ℕ × ℕ) : Prop where
  shifted : x*2^(32-s.2) = s.1
  le : b ≤ s.2
  le_32 : s.2 ≤ 32
  high : 2^(32-b) ≤ s.1
  lt : s.1 < 2^32

theorem FlsInv.step {x k : ℕ} {s : ℕ × ℕ} (h : FlsInv x (2*k) s) (hk : 2*k ≤ 32) :
    FlsInv x k (flsStep s k) := by
  obtain ⟨h1, h2, h3, h4, h5⟩ := h
  unfold flsStep
  split
  next hlt =>
    refine ⟨?_, ?_, ?_, ?_, ?_⟩ <;> dsimp only
    · rw [show 32-(s.2-k) = 32-s.2+k by omega, pow_add, ← Nat.mul_assoc, h1]
    · omega
    · omega
    · calc 2^(32-k) = 2^(32-2*k)*2^k := by rw [← pow_add]; congr 1; omega
        _ ≤ s.1*2^k := Nat.mul_le_mul_right _ h4
    · calc s.1*2^k < 2^(32-k)*2^k := Nat.mul_lt_mul_of_pos_right hlt (Nat.two_pow_pos k)
        _ = 2^32 := by rw [← pow_add]; congr 1; omega
  next hge => exact ⟨h1, by omega, h3, not_lt.mp hge, h5⟩

theorem fls_bounds {x : ℕ} (h0 : 0 < x) (h : x < 2^32) :
    1 ≤ fls x ∧ 2^(fls x-1) ≤ x ∧ x < 2^fls x := by
  have hinv : FlsInv x 1 ([16, 8, 4, 2, 1].foldl flsStep (x, 32)) := by
    have hstart : FlsInv x 32 (x, 32) := ⟨by simp, le_refl 32, le_refl 32, h0, h⟩
    have h16 := hstart.step (k := 16) (by decide)
    have h8 := h16.step (k := 8) (by decide)
    have h4 := h8.step (k := 4) (by decide)
    have h2 := h4.step (k := 2) (by decide)
    simp only [List.foldl_cons, List.foldl_nil]
    exact h2.step (k := 1) (by decide)
  rw [fls, if_neg (Nat.ne_of_gt h0)]
  obtain ⟨h1, h2, h3, h4, h5⟩ := hinv
  generalize [16, 8, 4, 2, 1].foldl flsStep (x, 32) = s at *
  have hpos := Nat.two_pow_pos (32-s.2)
  refine ⟨h2, ?_, ?_⟩
  · apply Nat.le_of_mul_le_mul_right _ hpos
    rw [h1, ← pow_add, show s.2-1+(32-s.2) = 32-1 by omega]
    exact h4
  · apply Nat.lt_of_mul_lt_mul_right (a := 2^(32-s.2))
    rw [h1, ← pow_add, show s.2+(32-s.2) = 32 by omega]
    exact h5

theorem fls_le {x k : ℕ} (hk : k ≤ 32) (h : x < 2^k) : fls x ≤ k := by
  rcases Nat.eq_zero_or_pos x with rfl | h0
  · exact Nat.zero_le k
  · obtain ⟨h1, h2, -⟩ := fls_bounds h0 (h.trans_le (Nat.pow_le_pow_right (by decide) hk))
    have := (Nat.pow_lt_pow_iff_right (a := 2) (by decide)).mp (h2.trans_lt h)
    omega

theorem lt_fls {x k : ℕ} (hx : x < 2^32) (h : 2^k ≤ x) : k < fls x := by
  obtain ⟨-, -, h2⟩ := fls_bounds ((Nat.two_pow_pos k).trans_le h) hx
  exact (Nat.pow_lt_pow_iff_right (a := 2) (by decide)).mp (h.trans_lt h2)

theorem pcntBits_le (n : ℕ) : pcntBits n ≤ 32 := fls_le (le_refl 32) (BitVec.isLt _)

/-- The width is enough for the number of the last pnode. Where the sum is negative, it is that of
all bits. -/
theorem fls_le_pcntBits {n : ℕ} (h : n < 2^31) : fls ((n+4-1)/4-1) ≤ pcntBits n := by
  by_cases hlt : n+3 < 2^31
  · rcases Nat.eq_zero_or_pos n with rfl | h1
    · exact Nat.zero_le _
    have hsum : (BitVec.ofNat 32 (n+4-1)).toInt = (n+4-1 : ℕ) := by
      rw [BitVec.toInt_eq_toNat_of_lt, BitVec.toNat_ofNat, Nat.mod_eq_of_lt (by omega)]
      rw [BitVec.toNat_ofNat]
      omega
    have hdiv : ((n+4-1 : ℕ) : ℤ).tdiv (4 : ℕ)-1 = ((n+4-1)/4-1 : ℕ) := by
      rw [Int.tdiv_eq_ediv_of_nonneg (Int.natCast_nonneg _)]
      omega
    unfold pcntBits
    dsimp only
    rw [UBIFS_LPT_FANOUT, hsum, hdiv, BitVec.ofInt_natCast, BitVec.toNat_ofNat,
      Nat.mod_eq_of_lt (by omega)]
  · have hall : pcntBits n = 32 := by
      obtain rfl | rfl | rfl : n = 2147483645 ∨ n = 2147483646 ∨ n = 2147483647 := by omega
      all_goals decide
    rw [hall]
    exact fls_le (le_refl 32) (by omega)

/-- The nodes of the rows from `row` to the root, over a level of `cnt` nodes. -/
def rowNodes : ℕ → ℕ → ℕ
  | 0, cnt => levelCnt cnt
  | row+1, cnt => levelCnt cnt+rowNodes row (levelCnt cnt)

theorem levelCnt_eq (cnt : ℕ) : levelCnt cnt = max 1 ((cnt+3)/4) := by
  unfold levelCnt
  rw [UBIFS_LPT_FANOUT]
  dsimp only
  split <;> omega

theorem levelCnt_mono {cnt cnt' : ℕ} (h : cnt ≤ cnt') : levelCnt cnt ≤ levelCnt cnt' := by
  rw [levelCnt_eq, levelCnt_eq]
  omega

theorem rowNodes_mono {row cnt cnt' : ℕ} (h : cnt ≤ cnt') : rowNodes row cnt ≤ rowNodes row cnt' := by
  induction row generalizing cnt cnt' with
  | zero => exact levelCnt_mono h
  | succ row ih => exact Nat.add_le_add (levelCnt_mono h) (ih (levelCnt_mono h))

/-- A tree of height `h` over `cnt` leaves: it is not higher than it has to be. -/
structure Height (cnt h : ℕ) : Prop where
  pos : 1 ≤ h
  enough : cnt ≤ 4^h
  least : h = 1 ∨ 4^(h-1) < cnt

theorem lptHght_height {cnt k hght : ℕ} (hpos : 1 ≤ hght) (hfuel : cnt ≤ 4^(hght+k))
    (hleast : hght = 1 ∨ 4^(hght-1) < cnt) : Height cnt (lptHght cnt k hght (4^hght)) := by
  induction k generalizing hght with
  | zero => exact ⟨hpos, hfuel, hleast⟩
  | succ k ih =>
    rw [lptHght]
    split
    next hlt =>
      rw [UBIFS_LPT_FANOUT, ← pow_succ]
      refine ih (by omega) ?_ (Or.inr hlt)
      rwa [show hght+1+k = hght+(k+1) by omega]
    next hge => exact ⟨hpos, not_lt.mp hge, hleast⟩

/-- The two ways to count the nnodes agree. -/
theorem nnodesAbove_rows {h k x : ℕ} (hh : Height x h) (hx : 1 ≤ x) (hk : h-1 ≤ k) :
    (x+UBIFS_LPT_FANOUT-1)/UBIFS_LPT_FANOUT+
      nnodesAbove k ((x+UBIFS_LPT_FANOUT-1)/UBIFS_LPT_FANOUT) = rowNodes (h-1) x := by
  rw [UBIFS_LPT_FANOUT]
  induction h generalizing k x with
  | zero => exact absurd hh.pos (by decide)
  | succ h ih =>
    rcases Nat.eq_zero_or_pos h with rfl | hpos
    · have hle := hh.enough
      have h1 : (x+4-1)/4 = 1 := by omega
      have hk0 : nnodesAbove k 1 = 0 := by
        cases k with
        | zero => rfl
        | succ k => rfl
      rw [h1, hk0, Nat.zero_add, Nat.sub_self, rowNodes, levelCnt_eq]
      omega
    · have hlt : 4^h < x := by
        rcases hh.least with h0 | hlt
        · omega
        · exact hlt
      have hle := hh.enough
      obtain ⟨j, rfl⟩ : ∃ j, h = j+1 := ⟨h-1, by omega⟩
      have hj := Nat.one_le_pow j 4 (by decide)
      rw [pow_succ] at hlt hle
      rw [pow_succ] at hle
      have hn : 1 < (x+4-1)/4 := by omega
      have hheight : Height ((x+4-1)/4) (j+1) := by
        refine ⟨Nat.le_add_left 1 j, ?_, ?_⟩
        · rw [pow_succ]
          omega
        · exact Or.inr (by rw [Nat.add_sub_cancel]; omega)
      obtain ⟨k, rfl⟩ : ∃ i, k = i+1 := ⟨k-1, by omega⟩
      rw [nnodesAbove, if_pos hn, UBIFS_LPT_FANOUT]
      dsimp only
      rw [ih hheight (by omega) (by omega), Nat.add_sub_cancel, Nat.add_sub_cancel, rowNodes,
        show levelCnt x = (x+4-1)/4 by rw [levelCnt_eq]; omega]

theorem minGeom_height {c : UbifsInfo} {k : ℕ} {b : Bool} (main_lebs : ℕ) :
    Height (minGeom c main_lebs k b).pnode_cnt (minGeom c main_lebs k b).lpt_hght :=
  @lptHght_height _ _ 1 (le_refl 1)
    ((Nat.lt_pow_self (by decide)).le.trans
      (Nat.pow_le_pow_right (by decide) (Nat.le_add_left _ 1))) (Or.inl rfl)

theorem minGeom_nnodes {c : UbifsInfo} {main_lebs lpt_lebs : ℕ} {big : Bool} (h : 0 < main_lebs) :
    (minGeom c main_lebs lpt_lebs big).nnode_cnt =
      rowNodes ((minGeom c main_lebs lpt_lebs big).lpt_hght-1)
        (minGeom c main_lebs lpt_lebs big).pnode_cnt := by
  have hh := minGeom_height (c := c) (k := lpt_lebs) (b := big) main_lebs
  have hp : 1 ≤ (minGeom c main_lebs lpt_lebs big).pnode_cnt := by
    change 1 ≤ (main_lebs+UBIFS_LPT_FANOUT-1)/UBIFS_LPT_FANOUT
    rw [UBIFS_LPT_FANOUT]
    omega
  refine nnodesAbove_rows hh hp ?_
  change _ ≤ ((minGeom c main_lebs lpt_lebs big).pnode_cnt+UBIFS_LPT_FANOUT-1)/UBIFS_LPT_FANOUT
  generalize (minGeom c main_lebs lpt_lebs big).pnode_cnt = p at hp hh ⊢
  generalize (minGeom c main_lebs lpt_lebs big).lpt_hght = h at hh ⊢
  by_cases h2 : h ≤ 1
  · rw [Nat.sub_eq_zero_of_le h2]
    exact Nat.zero_le _
  · -- a tree of this height has more than `h-1` nodes above its leaves
    obtain ⟨j, rfl⟩ : ∃ j, h = j+2 := ⟨h-2, by omega⟩
    have hj : j < 4^j := Nat.lt_pow_self (by decide)
    have h1 := hh.least.resolve_left (by omega)
    rw [show j+2-1 = j+1 by omega, pow_succ] at h1
    rw [UBIFS_LPT_FANOUT]
    omega

end Sizes

section Room

variable {c : UbifsInfo} {g : LptGeom} {lpt_first T : ℕ} {s : LptWriter}

/-- The LEBs that nodes of `T` bytes need: two neighbours hold more than one LEB does. -/
structure Packed (c : UbifsInfo) (lpt_first T : ℕ) (s : LptWriter) : Prop where
  first : lpt_first ≤ s.lnum
  load : (s.lnum-lpt_first)*c.leb_size+s.len ≤ 2*T
  written : ∀ l ∈ s.written, lpt_first ≤ l ∧ l < s.lnum

theorem Packed.makeRoom (h : Packed c lpt_first T s) (sz : ℕ) :
    let s' := s.makeRoom c sz
    lpt_first ≤ s'.lnum ∧ (s'.lnum-lpt_first)*c.leb_size+s'.len ≤ 2*T+sz ∧
      ∀ l ∈ s'.written, lpt_first ≤ l ∧ l < s'.lnum := by
  have hfirst := h.first
  have hload := h.load
  unfold LptWriter.makeRoom
  split
  next hlt =>
    dsimp only [LptWriter.writeLeb, LptWriter.setLtab]
    refine ⟨by omega, ?_, ?_⟩
    · rw [show s.lnum+1-lpt_first = s.lnum-lpt_first+1 by omega, Nat.succ_mul]
      omega
    · intro l hl
      rcases List.mem_append.mp hl with hl | hl
      · have := h.written l hl
        omega
      · rw [List.mem_singleton.mp hl]
        omega
  · exact ⟨hfirst, by omega, h.written⟩

theorem Packed.putNode (h : Packed c lpt_first T s) (sz : ℕ) (pack : (ℕ → Byte) → ℕ → ℕ → Byte) :
    Packed c lpt_first (T+sz) ((s.makeRoom c sz).putNode sz pack) := by
  obtain ⟨h1, h2, h3⟩ := h.makeRoom sz
  refine ⟨h1, ?_, h3⟩
  dsimp only [LptWriter.putNode]
  omega

theorem Packed.addPnodes {main_lebs : ℕ} {lpt : ℕ → Lprops} {n i : ℕ} (h : Packed c lpt_first T s) :
    Packed c lpt_first (T+n*g.pnode_sz) (addPnodes c g main_lebs lpt n i s) := by
  induction n generalizing i s T with
  | zero =>
    rw [Nat.zero_mul]
    exact h
  | succ n ih =>
    rw [Nat.succ_mul, Nat.add_comm (n*g.pnode_sz), ← Nat.add_assoc]
    exact ih (h.putNode _ _)

theorem Packed.congr {s' : LptWriter} (h : Packed c lpt_first T s) (hl : s'.lnum = s.lnum)
    (hn : s'.len = s.len) (hw : s'.written = s.written) : Packed c lpt_first T s' :=
  ⟨by rw [hl]; exact h.first, by rw [hl, hn]; exact h.load, by rw [hl, hw]; exact h.written⟩

theorem Packed.addNnode {row i : ℕ} {nbranch : List Place} (h : Packed c lpt_first T s) :
    Packed c lpt_first (T+g.nnode_sz) (addNnode c g lpt_first row i nbranch s) := by
  have hput := h.putNode g.nnode_sz (packNnode g lpt_first (calcNnodeNum row i) nbranch)
  unfold Ubifs.addNnode
  split
  · exact hput.congr rfl rfl rfl
  · exact hput

theorem Packed.addNnodes {row n i : ℕ} {b : Below} (h : Packed c lpt_first T s) :
    Packed c lpt_first (T+n*g.nnode_sz) (addNnodes c g lpt_first row n i (s, b)).1 := by
  induction n generalizing i s b T with
  | zero =>
    rw [Nat.zero_mul]
    exact h
  | succ n ih =>
    rw [Nat.succ_mul, Nat.add_comm (n*g.nnode_sz), ← Nat.add_assoc]
    exact ih h.addNnode

theorem Packed.addRows {row cnt : ℕ} {b : Below} (h : Packed c lpt_first T s) :
    Packed c lpt_first (T+rowNodes row cnt*g.nnode_sz) (addRows c g lpt_first row cnt (s, b)).1 := by
  induction row generalizing cnt s b T with
  | zero => exact h.addNnodes
  | succ row ih =>
    rw [rowNodes, Nat.add_mul, ← Nat.add_assoc]
    exact ih h.addNnodes

theorem Packed.addLsave {main_first : ℕ} (h : Packed c lpt_first T s) :
    Packed c lpt_first (T+g.lsave_sz) (addLsave c g main_first s) := by
  unfold Ubifs.addLsave
  split
  · exact (h.putNode g.lsave_sz fun buf _ => buf).congr rfl rfl rfl
  · have hload := h.load
    exact ⟨h.first, by omega, h.written⟩

/-- The last LEB that is written is not far behind the first one. -/
theorem createLpt_written {main_first main_lebs l : ℕ} {lpt : ℕ → Lprops} (hw : s.written = [])
    (hl : l ∈ (createLpt c g lpt_first main_first main_lebs lpt s).written) :
    lpt_first ≤ l ∧ (l-lpt_first)*c.leb_size ≤
      2*((main_lebs+UBIFS_LPT_FANOUT-1)/UBIFS_LPT_FANOUT*g.pnode_sz+
        rowNodes (g.lpt_hght-1) ((main_lebs+UBIFS_LPT_FANOUT-1)/UBIFS_LPT_FANOUT)*g.nnode_sz+
        g.lsave_sz+g.ltab_sz) := by
  have h0 : Packed c lpt_first 0 { s with lnum := lpt_first, len := 0 } := by
    refine ⟨le_refl _, ?_, ?_⟩
    · dsimp only
      rw [Nat.sub_self, Nat.zero_mul]
    · dsimp only
      rw [hw]
      exact fun l hl => absurd hl List.not_mem_nil
  unfold createLpt at hl
  dsimp only at hl
  generalize (main_lebs+UBIFS_LPT_FANOUT-1)/UBIFS_LPT_FANOUT = cnt at *
  have hrows := @Packed.addRows _ g _ _ _ (g.lpt_hght-1) cnt ⟨lpt_first, 0, cnt, g.pnode_sz⟩
    (@Packed.addPnodes _ g _ _ _ main_lebs lpt cnt 0 h0)
  have hsave := @Packed.addLsave _ g _ _ _ main_first hrows
  rw [Nat.zero_add] at hsave
  generalize addLsave c g main_first _ = s₁ at hsave hl
  obtain ⟨h1, h2, h3⟩ := hsave.makeRoom g.ltab_sz
  dsimp only [addLtab, LptWriter.writeLeb, LptWriter.setLtab] at hl
  generalize s₁.makeRoom c g.ltab_sz = s₂ at *
  have hlast : lpt_first ≤ l ∧ l ≤ s₂.lnum := by
    rcases List.mem_append.mp hl with hl | hl
    · exact ⟨(h3 l hl).1, (h3 l hl).2.le⟩
    · rw [List.mem_singleton.mp hl]
      exact ⟨h1, le_refl _⟩
  refine ⟨hlast.1, ?_⟩
  have := Nat.mul_le_mul_right c.leb_size (show l-lpt_first ≤ s₂.lnum-lpt_first by omega)
  omega

end Room

section Geometry

variable {c : UbifsInfo} {main_lebs lpt_lebs : ℕ} {big : Bool} {g : LptGeom}

theorem wastage_tot {leb_size w k sz tot sz' tot' : ℕ}
    (h : wastage leb_size w k sz tot = some (sz', tot')) : tot ≤ tot' := by
  induction k generalizing sz tot with
  | zero => cases h
  | succ k ih =>
    rw [wastage] at h
    split at h
    · have := ih h
      omega
    · cases h
      exact le_refl _

/-- Only the size is more than the minimum. -/
theorem doCalcLptGeom_min (h : doCalcLptGeom c main_lebs lpt_lebs big = some g) :
    ∃ lost, (minGeom c main_lebs lpt_lebs big).perLebWastage ≤ lost ∧
      g = (minGeom c main_lebs lpt_lebs big).lose lost := by
  unfold doCalcLptGeom at h
  dsimp only at h
  obtain ⟨⟨sz, tot⟩, hw, h⟩ := Option.bind_eq_some_iff.mp h
  refine ⟨tot+(align sz c.min_io_size-sz), ?_, (Option.some.inj h).symm⟩
  exact (wastage_tot hw).trans (Nat.le_add_right _ _)

theorem calcLptGeom_ok (h : calcLptGeom c main_lebs lpt_lebs big = .ok g) :
    doCalcLptGeom c main_lebs lpt_lebs big = some g := by
  unfold calcLptGeom at h
  split at h
  next hg =>
    obtain rfl := Except.ok.inj h
    exact hg
  · cases h

theorem lebsNeeded_le (hpos : 0 < c.leb_size) {sz k : ℕ} :
    lebsNeeded c sz ≤ k ↔ 4*sz ≤ k*c.leb_size := by
  rw [lebsNeeded, ← Nat.lt_succ_iff, Nat.div_lt_iff_lt_mul hpos, Nat.succ_mul]
  omega

/-- What the passes keep: the parameters belong together. -/
structure GeomInv (c : UbifsInfo) (main_lebs : ℕ) (g : LptGeom) : Prop where
  pos : 0 < g.main_lebs
  lebs : UBIFS_MIN_LPT_LEBS ≤ g.lpt_lebs
  sum : g.main_lebs+g.lpt_lebs = main_lebs
  calc_eq : doCalcLptGeom c g.main_lebs g.lpt_lebs g.big_lpt = some g

theorem geomInv_calc {n : ℕ} (hn : UBIFS_MIN_LPT_LEBS ≤ n) (hlt : n < main_lebs)
    (h : calcLptGeom c (main_lebs-n) n big = .ok g) :
    GeomInv c main_lebs g ∧ g.lpt_lebs = n ∧ g.big_lpt = big := by
  have hcalc := calcLptGeom_ok h
  obtain ⟨lost, -, hg⟩ := doCalcLptGeom_min hcalc
  have h1 : g.main_lebs = main_lebs-n := by rw [hg]; rfl
  have h2 : g.lpt_lebs = n := by rw [hg]; rfl
  have h3 : g.big_lpt = big := by rw [hg]; rfl
  exact ⟨⟨by omega, by omega, by omega, by rw [h1, h2, h3]; exact hcalc⟩, h2, h3⟩

/-- A pass that needs more LEBs, and one that does not. -/
theorem enoughLebs_cases {k : ℕ} {g' : LptGeom} (h : enoughLebs c main_lebs (k+1) g = .ok g') :
    (g.lpt_lebs < lebsNeeded c g.lpt_sz ∧ lebsNeeded c g.lpt_sz < main_lebs ∧
      ∃ g₁, calcLptGeom c (main_lebs-lebsNeeded c g.lpt_sz) (lebsNeeded c g.lpt_sz) g.big_lpt = .ok g₁ ∧
        enoughLebs c main_lebs k g₁ = .ok g') ∨
    (lebsNeeded c g.lpt_sz ≤ g.lpt_lebs ∧ g.ltab_sz ≤ c.leb_size ∧ g' = g) := by
  rw [enoughLebs] at h
  split at h
  next hlt =>
    split at h
    · cases h
    next hmain =>
      cases hcalc : calcLptGeom c (main_lebs-lebsNeeded c g.lpt_sz) (lebsNeeded c g.lpt_sz) g.big_lpt with
      | error e =>
        rw [hcalc] at h
        cases h
      | ok g₁ =>
        rw [hcalc] at h
        exact Or.inl ⟨hlt, not_le.mp hmain, g₁, rfl, h⟩
  next hge =>
    split at h
    · cases h
    next hltab => exact Or.inr ⟨not_lt.mp hge, not_lt.mp hltab, (Except.ok.inj h).symm⟩

theorem enoughLebs_inv {k : ℕ} {g' : LptGeom} (hinv : GeomInv c main_lebs g)
    (h : enoughLebs c main_lebs k g = .ok g') : GeomInv c main_lebs g' ∧ g'.big_lpt = g.big_lpt ∧
      lebsNeeded c g'.lpt_sz ≤ g'.lpt_lebs ∧ g'.ltab_sz ≤ c.leb_size := by
  induction k generalizing g with
  | zero => cases h
  | succ k ih =>
    rcases enoughLebs_cases h with ⟨hlt, hmain, g₁, hcalc, h⟩ | ⟨hle, hltab, rfl⟩
    · have hlebs := hinv.lebs
      obtain ⟨h₁, -, hbig⟩ := geomInv_calc (by omega) hmain hcalc
      rw [← hbig]
      exact ih h₁ h
    · exact ⟨hinv, rfl, hle, hltab⟩

/-- A LEB of the LPT area that `create_lpt` writes. -/
def InLptArea (g : LptGeom) (lpt_first l : ℕ) : Prop := lpt_first ≤ l ∧ l ≤ lpt_first+g.lpt_lebs-1

/-- The size of the LPT covers its nodes and tables, also for a part of the main area. -/
theorem GeomInv.nodes_le (hinv : GeomInv c main_lebs g) {cnt : ℕ}
    (hcnt : cnt ≤ (g.main_lebs+UBIFS_LPT_FANOUT-1)/UBIFS_LPT_FANOUT) :
    cnt*g.pnode_sz+rowNodes (g.lpt_hght-1) cnt*g.nnode_sz+g.ltab_sz+g.lsave_sz ≤ g.lpt_sz := by
  obtain ⟨lost, -, hg⟩ := doCalcLptGeom_min hinv.calc_eq
  have hnodes := @minGeom_nnodes c _ g.lpt_lebs g.big_lpt hinv.pos
  have hp : cnt ≤ g.pnode_cnt := hcnt.trans_eq (congrArg LptGeom.pnode_cnt hg).symm
  have hn : rowNodes (g.lpt_hght-1) cnt ≤ g.nnode_cnt := by
    refine (rowNodes_mono hp).trans (le_of_eq ?_)
    rw [congrArg LptGeom.lpt_hght hg, congrArg LptGeom.pnode_cnt hg, congrArg LptGeom.nnode_cnt hg]
    exact hnodes.symm
  have hsz : g.pnode_cnt*g.pnode_sz+g.nnode_cnt*g.nnode_sz+g.ltab_sz+g.lsave_sz ≤ g.lpt_sz := by
    rw [congrArg LptGeom.lpt_sz hg, congrArg LptGeom.pnode_cnt hg, congrArg LptGeom.pnode_sz hg,
      congrArg LptGeom.nnode_cnt hg, congrArg LptGeom.nnode_sz hg, congrArg LptGeom.ltab_sz hg,
      congrArg LptGeom.lsave_sz hg]
    exact Nat.le_add_right _ _
  have h1 := Nat.mul_le_mul_right g.pnode_sz hp
  have h2 := Nat.mul_le_mul_right g.nnode_sz hn
  omega

theorem createLpt_room (hpos : 0 < c.leb_size) (hinv : GeomInv c main_lebs g)
    (hcov : 4*g.lpt_sz ≤ g.lpt_lebs*c.leb_size) {lpt_first main_first m l : ℕ} {lpt : ℕ → Lprops}
    {s : LptWriter} (hm : m ≤ g.main_lebs) (hw : s.written = [])
    (hl : l ∈ (createLpt c g lpt_first main_first m lpt s).written) : InLptArea g lpt_first l := by
  obtain ⟨hfirst, hload⟩ := createLpt_written hw hl
  have hnodes := hinv.nodes_le (Nat.div_le_div_right
    (show m+UBIFS_LPT_FANOUT-1 ≤ g.main_lebs+UBIFS_LPT_FANOUT-1 by omega))
  have hlebs := hinv.lebs
  rw [UBIFS_MIN_LPT_LEBS] at hlebs
  refine ⟨hfirst, ?_⟩
  have h3 : (l-lpt_first)*2*c.leb_size ≤ g.lpt_lebs*c.leb_size := by
    rw [Nat.mul_right_comm]
    omega
  have h4 := Nat.le_of_mul_le_mul_right h3 hpos
  omega

end Geometry

section Small

variable {c : UbifsInfo} {main_lebs n : ℕ}

theorem rowNodes_succ (row cnt : ℕ) (h : 1 ≤ cnt) : rowNodes row cnt ≤ rowNodes (row+1) cnt := by
  induction row generalizing cnt with
  | zero =>
    rw [rowNodes, rowNodes]
    omega
  | succ row ih =>
    have := ih (levelCnt cnt) (by rw [levelCnt_eq]; omega)
    rw [rowNodes, rowNodes]
    omega

theorem rowNodes_mono_row {row row' cnt : ℕ} (hcnt : 1 ≤ cnt) (h : row ≤ row') :
    rowNodes row cnt ≤ rowNodes row' cnt := by
  induction h with
  | refl => exact le_refl _
  | step _ ih => exact ih.trans (rowNodes_succ _ _ hcnt)

/-- A smaller main area does not have more nnodes. -/
theorem minGeom_nnode_cnt_mono {m m' k k' : ℕ} {b b' : Bool} (h : m ≤ m') :
    (minGeom c m k b).nnode_cnt ≤ (minGeom c m' k' b').nnode_cnt := by
  rcases Nat.eq_zero_or_pos m with rfl | hm
  · have h0 : (minGeom c 0 k b).nnode_cnt = 0 := rfl
    omega
  · rw [minGeom_nnodes hm, minGeom_nnodes (hm.trans_le h)]
    have hp : (minGeom c m k b).pnode_cnt ≤ (minGeom c m' k' b').pnode_cnt :=
      Nat.div_le_div_right (by omega)
    have hp1 : 1 ≤ (minGeom c m k b).pnode_cnt := by
      change 1 ≤ (m+UBIFS_LPT_FANOUT-1)/UBIFS_LPT_FANOUT
      rw [UBIFS_LPT_FANOUT]
      omega
    have hh := minGeom_height (c := c) (k := k) (b := b) m
    have hh' := minGeom_height (c := c) (k := k') (b := b') m'
    have hle : (minGeom c m k b).lpt_hght ≤ (minGeom c m' k' b').lpt_hght := by
      have hpos := hh'.pos
      rcases hh.least with h1 | h1
      · omega
      · have hlt := h1.trans_le (hp.trans hh'.enough)
        have := (Nat.pow_lt_pow_iff_right (a := 4) (by decide)).mp hlt
        omega
    exact (rowNodes_mono_row hp1 (by omega)).trans (rowNodes_mono hp)

/-- With a few more LPT LEBs the LPT is not much larger: an nnode gets a byte more, and the
LEB table a few. -/
theorem small_bound (hc : c.Accepted) (h2 : 2 ≤ n) (h8 : n ≤ 8)
    (hfit : (minGeom c (main_lebs-2) 2 false).lpt_sz+(minGeom c (main_lebs-2) 2 false).perLebWastage ≤
      c.leb_size) :
    ∃ d, 11*d ≤ c.leb_size ∧ (minGeom c (main_lebs-n) n false).perLebWastage ≤ 23 ∧
      0 < (minGeom c (main_lebs-n) n false).perLebWastage ∧
      (minGeom c (main_lebs-n) n false).lpt_sz+(minGeom c (main_lebs-n) n false).perLebWastage ≤
        (minGeom c (main_lebs-2) 2 false).lpt_sz+(minGeom c (main_lebs-2) 2 false).perLebWastage+d+35 := by
  have hmin := hc.leb_min
  have hmax := hc.leb_max
  have hoffs : 13 < fls (c.leb_size-1) := lt_fls (by omega) (by omega)
  have hoffs' : fls (c.leb_size-1) ≤ 21 := fls_le (by decide) (by omega)
  have hspc : fls c.leb_size ≤ 22 := fls_le (by decide) (by omega)
  have hlnum : fls n ≤ 4 := fls_le (by decide) (by omega)
  have hlnum2 : fls 2 = 2 := by decide
  have hp : (minGeom c (main_lebs-n) n false).pnode_cnt ≤ (minGeom c (main_lebs-2) 2 false).pnode_cnt :=
    Nat.div_le_div_right (by omega)
  have hnn : (minGeom c (main_lebs-n) n false).nnode_cnt ≤ (minGeom c (main_lebs-2) 2 false).nnode_cnt :=
    minGeom_nnode_cnt_mono (by omega)
  have hpsz (k : ℕ) : (minGeom c (main_lebs-k) k false).pnode_sz =
    (16+4+0+((fls c.leb_size-3)*2+1)*4+7)/8 := rfl
  have hnsz (k : ℕ) : (minGeom c (main_lebs-k) k false).nnode_sz =
    (16+4+0+(fls k+fls (c.leb_size-1))*4+7)/8 := rfl
  have hltab (k : ℕ) : (minGeom c (main_lebs-k) k false).ltab_sz =
    (16+4+k*fls c.leb_size*2+7)/8 := rfl
  have hlsave : (minGeom c (main_lebs-n) n false).lsave_sz =
    (minGeom c (main_lebs-2) 2 false).lsave_sz := rfl
  have hsz (k : ℕ) : (minGeom c (main_lebs-k) k false).lpt_sz =
    (minGeom c (main_lebs-k) k false).pnode_cnt*(minGeom c (main_lebs-k) k false).pnode_sz+
    (minGeom c (main_lebs-k) k false).nnode_cnt*(minGeom c (main_lebs-k) k false).nnode_sz+
    (minGeom c (main_lebs-k) k false).ltab_sz+(minGeom c (main_lebs-k) k false).lsave_sz := rfl
  have hpmul := Nat.mul_le_mul_right (minGeom c (main_lebs-2) 2 false).pnode_sz hp
  have hz : (minGeom c (main_lebs-n) n false).nnode_sz ≤ (minGeom c (main_lebs-2) 2 false).nnode_sz+1 := by
    rw [hnsz, hnsz, hlnum2]
    omega
  have hz2 : 11 ≤ (minGeom c (main_lebs-2) 2 false).nnode_sz := by
    rw [hnsz, hlnum2]
    omega
  have hnmul := Nat.mul_le_mul hnn hz
  rw [Nat.mul_succ] at hnmul
  have hd := Nat.mul_le_mul_left (minGeom c (main_lebs-2) 2 false).nnode_cnt hz2
  have hlt : (minGeom c (main_lebs-n) n false).ltab_sz ≤ (minGeom c (main_lebs-2) 2 false).ltab_sz+34 := by
    have hmul : n*fls c.leb_size ≤ 8*fls c.leb_size := Nat.mul_le_mul_right _ h8
    rw [hltab, hltab]
    omega
  have hw2 : (minGeom c (main_lebs-2) 2 false).perLebWastage = max (minGeom c (main_lebs-2) 2 false).pnode_sz
    (minGeom c (main_lebs-2) 2 false).nnode_sz := rfl
  have hwn : (minGeom c (main_lebs-n) n false).perLebWastage = max (minGeom c (main_lebs-n) n false).pnode_sz
    (minGeom c (main_lebs-n) n false).nnode_sz := rfl
  have hpn : (minGeom c (main_lebs-n) n false).pnode_sz = (minGeom c (main_lebs-2) 2 false).pnode_sz := rfl
  have hbound : (minGeom c (main_lebs-n) n false).perLebWastage ≤ 23 ∧
      0 < (minGeom c (main_lebs-n) n false).perLebWastage := by
    rw [hwn, hpsz, hnsz]
    omega
  have hs2 := hsz 2
  have hsn := hsz n
  rw [hpn] at hsn
  refine ⟨(minGeom c (main_lebs-2) 2 false).nnode_cnt, ?_, hbound.1, hbound.2, ?_⟩
  · omega
  · omega

/-- An LPT that fits into a LEB, and one that does not by little. -/
theorem doCalcLptGeom_small (hc : c.Accepted) (h2 : 2 ≤ n) (h8 : n ≤ 8)
    (hfit : (minGeom c (main_lebs-2) 2 false).lpt_sz+(minGeom c (main_lebs-2) 2 false).perLebWastage ≤
      c.leb_size) :
    ∃ g, doCalcLptGeom c (main_lebs-n) n false = some g ∧
      ((g.lpt_sz ≤ c.leb_size ∧ (minGeom c (main_lebs-n) n false).lpt_sz+
          (minGeom c (main_lebs-n) n false).perLebWastage ≤ c.leb_size) ∨
        ∃ sz, 0 < sz ∧ 8*sz ≤ c.leb_size ∧ g.lpt_sz = c.leb_size+align sz c.min_io_size ∧
          c.leb_size < (minGeom c (main_lebs-n) n false).lpt_sz+
            (minGeom c (main_lebs-n) n false).perLebWastage) := by
  obtain ⟨d, hd, hw, hpos, hle⟩ := small_bound hc h2 h8 hfit
  have hmin := hc.leb_min
  have hio := hc.min_io_pos
  unfold doCalcLptGeom
  dsimp only
  generalize minGeom c (main_lebs-n) n false = G at *
  rw [wastage]
  by_cases hsz : c.leb_size < G.lpt_sz+G.perLebWastage
  · rw [if_pos hsz]
    obtain ⟨k, hk⟩ : ∃ k, G.lpt_sz+G.perLebWastage = k+1 := ⟨G.lpt_sz+G.perLebWastage-1, by omega⟩
    rw [hk, wastage, ← hk, if_neg (by omega)]
    refine ⟨_, rfl, Or.inr ⟨G.lpt_sz+G.perLebWastage+G.perLebWastage-c.leb_size, by omega, by omega,
      ?_, hsz⟩⟩
    dsimp only [LptGeom.lose]
    have := le_align (G.lpt_sz+G.perLebWastage+G.perLebWastage-c.leb_size) hio
    omega
  · rw [if_neg hsz]
    refine ⟨_, rfl, Or.inl ⟨?_, not_lt.mp hsz⟩⟩
    dsimp only [LptGeom.lose]
    have h1 := le_align (G.lpt_sz+G.perLebWastage) hio
    have h2 := align_le hio (not_lt.mp hsz) hc.leb_io
    omega

end Small

section Consistent

variable {c : UbifsInfo} {main_lebs n : ℕ} {g : LptGeom}

/-- The parameters are a solution: they belong together, the LPT area is large enough, and
`create_lpt` stays in it, also for a part of the main area. -/
structure LptConsistent (c : UbifsInfo) (main_lebs : ℕ) (g : LptGeom) : Prop where
  sum : g.main_lebs+g.lpt_lebs = main_lebs
  calc_eq : doCalcLptGeom c g.main_lebs g.lpt_lebs g.big_lpt = some g
  covers : 4*g.lpt_sz ≤ g.lpt_lebs*c.leb_size
  ltab : g.ltab_sz ≤ c.leb_size
  small : g.big_lpt = false → g.lpt_sz ≤ c.leb_size
  room : ∀ lpt_first main_first m lpt s, m ≤ g.main_lebs → s.written = [] →
    ∀ l ∈ (createLpt c g lpt_first main_first m lpt s).written, InLptArea g lpt_first l

/-- The LPT of the small model fits into a LEB where there are `n` LPT LEBs. -/
def SmallFits (c : UbifsInfo) (main_lebs n : ℕ) : Prop :=
  ∃ g, doCalcLptGeom c (main_lebs-n) n false = some g ∧ g.lpt_sz ≤ c.leb_size

/-- The LPT of the small model does not fit with the two LEBs that are tried first, or it still
does with four, or with as many as four times its size then needs. -/
def SmallStays (c : UbifsInfo) (main_lebs : ℕ) : Prop :=
  ¬ SmallFits c main_lebs 2 ∨ SmallFits c main_lebs 4 ∨
    ∃ g, doCalcLptGeom c (main_lebs-4) 4 false = some g ∧
      SmallFits c main_lebs (lebsNeeded c g.lpt_sz)

theorem align_of_le {x a : ℕ} (h0 : 0 < x) (h : x ≤ a) : align x a = a := by
  have hdiv : (x+a-1)/a = 1 := by
    rw [show x+a-1 = x-1+a by omega, Nat.add_div_right _ (by omega), Nat.div_eq_of_lt (by omega)]
  rw [align, hdiv, Nat.one_mul]

theorem align_lt (x : ℕ) {a : ℕ} (ha : 0 < a) : align x a < x+a := by
  have := Nat.div_mul_le_self (x+a-1) a
  rw [align]
  omega

/-- An LPT that is too large by little needs the same number of LEBs in each case. -/
theorem lebsNeeded_over (hc : c.Accepted) {sz sz' : ℕ} (h0 : 0 < sz) (h8 : 8*sz ≤ c.leb_size)
    (h0' : 0 < sz') (h8' : 8*sz' ≤ c.leb_size) :
    4 < lebsNeeded c (c.leb_size+align sz c.min_io_size) ∧
    lebsNeeded c (c.leb_size+align sz c.min_io_size) ≤ 8 ∧
    lebsNeeded c (c.leb_size+align sz' c.min_io_size) =
      lebsNeeded c (c.leb_size+align sz c.min_io_size) := by
  have hpos : 0 < c.leb_size := by
    have := hc.leb_min
    omega
  have hio := hc.min_io_pos
  have hiole := hc.min_io_le
  have hfour {x : ℕ} (hx : 0 < x) : 4 < lebsNeeded c (c.leb_size+align x c.min_io_size) := by
    rw [← not_le, lebsNeeded_le hpos]
    have := le_align x hio
    omega
  by_cases hlarge : c.leb_size ≤ 8*c.min_io_size
  · rw [align_of_le h0 (by omega), align_of_le h0' (by omega)]
    refine ⟨?_, ?_, rfl⟩
    · have := hfour h0
      rwa [align_of_le h0 (by omega)] at this
    · rw [lebsNeeded_le hpos]
      omega
  · have hfive {x : ℕ} (hx : 8*x ≤ c.leb_size) : lebsNeeded c (c.leb_size+align x c.min_io_size) ≤ 5 := by
      rw [lebsNeeded_le hpos]
      have := align_lt x hio
      omega
    have h1 := hfour h0
    have h2 := hfour h0'
    have h3 := hfive h8
    have h4 := hfive h8'
    omega

theorem SmallFits.unique {g : LptGeom} (h : doCalcLptGeom c (main_lebs-n) n false = some g) :
    SmallFits c main_lebs n ↔ g.lpt_sz ≤ c.leb_size := by
  constructor
  · rintro ⟨g', hg', hle⟩
    rw [h] at hg'
    cases hg'
    exact hle
  · exact fun hle => ⟨g, h, hle⟩

/-- The passes in the small model, from four LPT LEBs on. -/
theorem enoughLebs_four (hc : c.Accepted) {k : ℕ} {g₄ : LptGeom}
    (hbase : (minGeom c (main_lebs-2) 2 false).lpt_sz+
      (minGeom c (main_lebs-2) 2 false).perLebWastage ≤ c.leb_size)
    (h4 : calcLptGeom c (main_lebs-4) 4 false = .ok g₄) (hlt : 4 < main_lebs)
    (h : enoughLebs c main_lebs (k+2) g₄ = .ok g) :
    g.lpt_sz ≤ c.leb_size ↔
      g₄.lpt_sz ≤ c.leb_size ∨ SmallFits c main_lebs (lebsNeeded c g₄.lpt_sz) := by
  have hmin := hc.leb_min
  have hpos : 0 < c.leb_size := by omega
  obtain ⟨-, hlebs₄, hbig₄⟩ := geomInv_calc (by decide) hlt h4
  obtain ⟨g', hg', hcases⟩ := doCalcLptGeom_small (n := 4) hc (by decide) (by decide) hbase
  rw [calcLptGeom_ok h4] at hg'
  obtain rfl := Option.some.inj hg'
  rcases hcases with ⟨hle, -⟩ | ⟨sz, hsz, hsz8, heq, -⟩
  · have hneed : lebsNeeded c g₄.lpt_sz ≤ 4 := (lebsNeeded_le hpos).mpr (by omega)
    rcases enoughLebs_cases h with ⟨hmore, -⟩ | ⟨-, -, rfl⟩
    · omega
    · exact ⟨Or.inl, fun _ => hle⟩
  · obtain ⟨hK, hK8, -⟩ := lebsNeeded_over hc hsz hsz8 hsz hsz8
    rw [← heq] at hK hK8
    have hover : ¬ g₄.lpt_sz ≤ c.leb_size := by
      have := le_align sz (hc.min_io_pos)
      omega
    rcases enoughLebs_cases h with ⟨-, hmain, g₅, hg₅, h⟩ | ⟨hle, -⟩
    · rw [hbig₄] at hg₅
      obtain ⟨-, hlebs₅, -⟩ := geomInv_calc (by rw [UBIFS_MIN_LPT_LEBS]; omega) hmain hg₅
      rw [SmallFits.unique (calcLptGeom_ok hg₅), or_iff_right hover]
      -- the number of LEBs does not grow any more
      have hlast : lebsNeeded c g₅.lpt_sz ≤ g₅.lpt_lebs := by
        rw [hlebs₅]
        obtain ⟨g', hg', hcases⟩ := doCalcLptGeom_small hc (by omega) hK8 hbase
        rw [calcLptGeom_ok hg₅] at hg'
        obtain rfl := Option.some.inj hg'
        rcases hcases with ⟨hle, -⟩ | ⟨sz', hsz', hsz8', heq', -⟩
        · exact ((lebsNeeded_le hpos).mpr (by omega)).trans hK.le
        · rw [heq', heq]
          exact (lebsNeeded_over hc hsz hsz8 hsz' hsz8').2.2.le
      rcases enoughLebs_cases h with ⟨hmore, -⟩ | ⟨-, -, rfl⟩
      · omega
      · rfl
    · omega

/-- The passes in the small model. -/
theorem enoughLebs_small (hc : c.Accepted) {g₂ : LptGeom}
    (h2 : doCalcLptGeom c (main_lebs-2) 2 false = some g₂) (hfit : g₂.lpt_sz ≤ c.leb_size)
    (h : enoughLebs c main_lebs 64 g₂ = .ok g) : g.lpt_sz ≤ c.leb_size ↔ SmallStays c main_lebs := by
  have hmin := hc.leb_min
  have hpos : 0 < c.leb_size := by omega
  obtain ⟨lost, hlost, hg₂⟩ := doCalcLptGeom_min h2
  have hsz₂ : g₂.lpt_sz = (minGeom c (main_lebs-2) 2 false).lpt_sz+lost := by rw [hg₂]; rfl
  have hlebs₂ : g₂.lpt_lebs = 2 := by rw [hg₂]; rfl
  have hbig₂ : g₂.big_lpt = false := by rw [hg₂]; rfl
  have hraw : (minGeom c (main_lebs-2) 2 false).lpt_sz+
      (minGeom c (main_lebs-2) 2 false).perLebWastage ≤ g₂.lpt_sz := by omega
  have hbase := hraw.trans hfit
  -- with at most three quarters of a LEB, a few more LPT LEBs do not make it too large
  have hsmall (hq : 4*g₂.lpt_sz ≤ 3*c.leb_size) {n : ℕ} (hn : 2 ≤ n) (hn' : n ≤ 8) :
      SmallFits c main_lebs n := by
    obtain ⟨d, hd, -, -, hle⟩ := small_bound hc hn hn' hbase
    obtain ⟨g, hg, ⟨hle', -⟩ | ⟨sz, -, -, -, hlt⟩⟩ := doCalcLptGeom_small hc hn hn' hbase
    · exact ⟨g, hg, hle'⟩
    · omega
  have hstays (hq : 4*g₂.lpt_sz ≤ 3*c.leb_size) : SmallStays c main_lebs :=
    Or.inr (Or.inl (hsmall hq (by decide) (by decide)))
  have hfour : lebsNeeded c g₂.lpt_sz ≤ 4 := (lebsNeeded_le hpos).mpr (by omega)
  rcases enoughLebs_cases h with ⟨hlt, hmain, g₁, hg₁, h⟩ | ⟨hle, -, rfl⟩
  · rw [hlebs₂] at hlt
    rw [hbig₂] at hg₁
    by_cases hq : 4*g₂.lpt_sz ≤ 3*c.leb_size
    · refine iff_of_true ?_ (hstays hq)
      have hthree : lebsNeeded c g₂.lpt_sz ≤ 3 := (lebsNeeded_le hpos).mpr hq
      rw [show lebsNeeded c g₂.lpt_sz = 3 by omega] at hg₁ hmain
      obtain ⟨-, hlebs₁, hbig₁⟩ := geomInv_calc (by decide) hmain hg₁
      have hle₁ := (SmallFits.unique (calcLptGeom_ok hg₁)).mp (hsmall hq (by decide) (by decide))
      have hfour₁ : lebsNeeded c g₁.lpt_sz ≤ 4 := (lebsNeeded_le hpos).mpr (by omega)
      rcases enoughLebs_cases h with ⟨hlt₁, hmain₁, g₄, hg₄, h⟩ | ⟨-, -, rfl⟩
      · rw [show lebsNeeded c g₁.lpt_sz = 4 by omega] at hg₄ hmain₁
        rw [hbig₁] at hg₄
        rw [enoughLebs_four hc hbase hg₄ hmain₁ h]
        exact Or.inl ((SmallFits.unique (calcLptGeom_ok hg₄)).mp (hsmall hq (by decide) (by decide)))
      · exact hle₁
    · have hthree : ¬ lebsNeeded c g₂.lpt_sz ≤ 3 := mt (lebsNeeded_le hpos).mp hq
      rw [show lebsNeeded c g₂.lpt_sz = 4 by omega] at hg₁ hmain
      have hcalc := calcLptGeom_ok hg₁
      rw [enoughLebs_four hc hbase hg₁ hmain h, SmallStays, or_iff_right (not_not.mpr ⟨g₂, h2, hfit⟩),
        SmallFits.unique hcalc]
      refine or_congr_right ⟨fun hK => ⟨g₁, hcalc, hK⟩, ?_⟩
      rintro ⟨g', hg', hK⟩
      rw [hcalc] at hg'
      obtain rfl := Option.some.inj hg'
      exact hK
  · rw [hlebs₂, lebsNeeded_le hpos] at hle
    exact ⟨fun _ => hstays (by omega), fun _ => hfit⟩

/-- The geometry is a consistent solution exactly where the small model, if it is chosen for two
LPT LEBs, still fits into a LEB at the end. -/
theorem lpt_geom_iff (hc : c.Accepted) (h : calcDfltLptGeom c main_lebs = .ok g) :
    LptConsistent c main_lebs g ↔ SmallStays c main_lebs := by
  have hmin := hc.leb_min
  have hpos : 0 < c.leb_size := by omega
  unfold calcDfltLptGeom at h
  split at h
  · cases h
  next hlt =>
    rw [UBIFS_MIN_LPT_LEBS, not_le] at hlt
    cases hg₂ : calcLptGeom c (main_lebs-UBIFS_MIN_LPT_LEBS) UBIFS_MIN_LPT_LEBS false with
    | error e =>
      rw [hg₂] at h
      cases h
    | ok g₂ =>
      rw [hg₂] at h
      have hcalc : doCalcLptGeom c (main_lebs-2) 2 false = some g₂ := calcLptGeom_ok hg₂
      -- everything but the size of the small model holds in each case
      have hrest {g₁ : LptGeom} {b : Bool} (hg₁ : calcLptGeom c (main_lebs-2) 2 b = .ok g₁)
          (h : enoughLebs c main_lebs 64 g₁ = .ok g) : g.big_lpt = b ∧
            (LptConsistent c main_lebs g ↔ (g.big_lpt = false → g.lpt_sz ≤ c.leb_size)) := by
        obtain ⟨hinv₁, -, hbig₁⟩ := geomInv_calc (by decide) hlt hg₁
        obtain ⟨hinv, hbig, hneed, hltab⟩ := enoughLebs_inv hinv₁ h
        have hcov := (lebsNeeded_le hpos).mp hneed
        refine ⟨hbig.trans hbig₁, LptConsistent.small, fun hs => ⟨hinv.sum, hinv.calc_eq, hcov, hltab, hs, ?_⟩⟩
        intro lpt_first main_first m lpt s hm hw l hl
        exact createLpt_room hpos hinv hcov hm hw hl
      change (if c.leb_size < g₂.lpt_sz then calcLptGeom c (main_lebs-2) 2 true >>=
        enoughLebs c main_lebs 64 else enoughLebs c main_lebs 64 g₂) = .ok g at h
      by_cases hfit : c.leb_size < g₂.lpt_sz
      · rw [if_pos hfit] at h
        cases hg₁ : calcLptGeom c (main_lebs-2) 2 true with
        | error e =>
          rw [hg₁] at h
          cases h
        | ok g₁ =>
          rw [hg₁] at h
          obtain ⟨hbig, hiff⟩ := hrest hg₁ h
          rw [hiff, hbig]
          refine iff_of_true (fun hf => by cases hf) (Or.inl ?_)
          rw [SmallFits.unique hcalc]
          exact not_le.mpr hfit
      · rw [if_neg hfit] at h
        obtain ⟨hbig, hiff⟩ := hrest hg₂ h
        rw [hiff, ← enoughLebs_small hc hcalc (not_lt.mp hfit) h]
        exact ⟨fun hs => hs hbig, fun hs _ => hs⟩

end Consistent

section Range

variable {c : UbifsInfo} {main_lebs lpt_lebs : ℕ} {big : Bool} {g : LptGeom}

theorem nnodesAbove_le (k n : ℕ) : nnodesAbove k n ≤ n-1 := by
  induction k generalizing n with
  | zero => exact Nat.zero_le _
  | succ k ih =>
    rw [nnodesAbove, UBIFS_LPT_FANOUT]
    split
    · have := ih ((n+4-1)/4)
      dsimp only
      omega
    · exact Nat.zero_le _

/-- Each LEB that the loop counts takes its part of the size. -/
theorem wastage_passes {leb_size w k sz tot sz' tot' : ℕ} (hw : w ≤ leb_size)
    (h : wastage leb_size w k sz tot = some (sz', tot')) :
    sz' ≤ leb_size ∧ ∃ j, tot' = tot+j*w ∧ j*(leb_size-w) ≤ sz := by
  induction k generalizing sz tot with
  | zero => cases h
  | succ k ih =>
    rw [wastage] at h
    split at h
    next hlt =>
      obtain ⟨hsz, j, htot, hj⟩ := ih h
      refine ⟨hsz, j+1, by rw [htot, Nat.succ_mul]; omega, ?_⟩
      rw [Nat.succ_mul]
      omega
    next hge =>
      cases h
      exact ⟨not_lt.mp hge, 0, by rw [Nat.zero_mul, Nat.add_zero], by rw [Nat.zero_mul]; exact Nat.zero_le _⟩

/-- The sizes of the nodes, for any number of LPT LEBs that can come up. -/
theorem minGeom_sizes (hc : c.Accepted) (hn : lpt_lebs < 2^30) :
    (minGeom c main_lebs lpt_lebs big).pnode_sz ≤ 26 ∧
    (minGeom c main_lebs lpt_lebs big).nnode_sz ≤ 32 ∧
    (minGeom c main_lebs lpt_lebs big).ltab_sz ≤ 6*lpt_lebs+4 ∧
    (minGeom c main_lebs lpt_lebs big).lsave_sz ≤ 1028 := by
  have hmax := hc.leb_max
  have hleb := hc.leb_cnt
  have hspc : fls c.leb_size ≤ 22 := fls_le (by decide) (by omega)
  have hoffs : fls (c.leb_size-1) ≤ 21 := fls_le (by decide) (by omega)
  have hlnum : fls lpt_lebs ≤ 30 := fls_le (by decide) hn
  have hpcnt := pcntBits_le c.max_leb_cnt
  have hlnums : fls (c.max_leb_cnt-1) ≤ 31 := fls_le (by decide) (by omega)
  have hnum : (if big then pcntBits c.max_leb_cnt else 0) ≤ 32 := by
    split
    · exact hpcnt
    · exact Nat.zero_le _
  refine ⟨?_, ?_, ?_, ?_⟩
  · change (16+4+(if big then pcntBits c.max_leb_cnt else 0)+
      ((fls c.leb_size-3)*2+1)*4+7)/8 ≤ 26
    omega
  · change (16+4+(if big then pcntBits c.max_leb_cnt else 0)+
      (fls lpt_lebs+fls (c.leb_size-1))*4+7)/8 ≤ 32
    omega
  · change (16+4+lpt_lebs*fls c.leb_size*2+7)/8 ≤ 6*lpt_lebs+4
    have := Nat.mul_le_mul_left lpt_lebs hspc
    omega
  · change (16+4+fls (c.max_leb_cnt-1)*256+7)/8 ≤ 1028
    omega

/-- The size without what is lost at the ends of LEBs. -/
theorem minGeom_lpt_sz (hc : c.Accepted) (hn : lpt_lebs < 2^30) :
    (minGeom c main_lebs lpt_lebs big).lpt_sz ≤ 12*main_lebs+6*lpt_lebs+1300 := by
  obtain ⟨hp, hnn, hlt, hls⟩ := @minGeom_sizes c main_lebs lpt_lebs big hc hn
  have hsz : (minGeom c main_lebs lpt_lebs big).lpt_sz =
    (minGeom c main_lebs lpt_lebs big).pnode_cnt*(minGeom c main_lebs lpt_lebs big).pnode_sz+
    (minGeom c main_lebs lpt_lebs big).nnode_cnt*(minGeom c main_lebs lpt_lebs big).nnode_sz+
    (minGeom c main_lebs lpt_lebs big).ltab_sz+(minGeom c main_lebs lpt_lebs big).lsave_sz := rfl
  have hpcnt : (minGeom c main_lebs lpt_lebs big).pnode_cnt = (main_lebs+4-1)/4 := rfl
  have hncnt : (minGeom c main_lebs lpt_lebs big).nnode_cnt =
    ((main_lebs+4-1)/4+4-1)/4+nnodesAbove (((main_lebs+4-1)/4+4-1)/4) (((main_lebs+4-1)/4+4-1)/4) := rfl
  have habove := nnodesAbove_le (((main_lebs+4-1)/4+4-1)/4) (((main_lebs+4-1)/4+4-1)/4)
  have hpm := Nat.mul_le_mul_left (minGeom c main_lebs lpt_lebs big).pnode_cnt hp
  have hnm := Nat.mul_le_mul_left (minGeom c main_lebs lpt_lebs big).nnode_cnt hnn
  omega

theorem perLebWastage_le (hc : c.Accepted) (hn : lpt_lebs < 2^30) :
    (minGeom c main_lebs lpt_lebs big).perLebWastage ≤ 32 := by
  obtain ⟨hp, hnn, -⟩ := @minGeom_sizes c main_lebs lpt_lebs big hc hn
  exact max_le (hp.trans (by decide)) hnn

/-- The size with what is lost: one part in 479 at the ends of LEBs, and less than a LEB in the
alignment. -/
theorem doCalcLptGeom_lpt_sz (hc : c.Accepted) (hn : lpt_lebs < 2^30)
    (h : doCalcLptGeom c main_lebs lpt_lebs big = some g) :
    479*g.lpt_sz ≤ 480*(12*main_lebs+6*lpt_lebs+1332)+479*c.leb_size := by
  have hmin := hc.leb_min
  have hsz := @minGeom_lpt_sz c main_lebs lpt_lebs big hc hn
  have hw := @perLebWastage_le c main_lebs lpt_lebs big hc hn
  obtain ⟨G, hG⟩ : ∃ G, G = minGeom c main_lebs lpt_lebs big := ⟨_, rfl⟩
  rw [← hG] at hsz hw
  unfold doCalcLptGeom at h
  dsimp only at h
  rw [← hG] at h
  obtain ⟨⟨sz, tot⟩, hwaste, h⟩ := Option.bind_eq_some_iff.mp h
  obtain ⟨hend, j, htot, hj⟩ := wastage_passes (by omega) hwaste
  have hjmul : j*15328 ≤ j*(c.leb_size-G.perLebWastage) := Nat.mul_le_mul_left j (by omega)
  have hjw : j*G.perLebWastage ≤ j*32 := Nat.mul_le_mul_left j hw
  have halign := align_le hc.min_io_pos hend hc.leb_io
  have hlpt : g.lpt_sz = G.lpt_sz+(tot+(align sz c.min_io_size-sz)) := by
    rw [← Option.some.inj h]
    rfl
  omega

/-- The numbers of LPT LEBs stay far below what an `int` holds. -/
theorem lebsNeeded_int (hc : c.Accepted) (hm : main_lebs < 2^31) (hn : lpt_lebs ≤ 2^24)
    (h : doCalcLptGeom c main_lebs lpt_lebs big = some g) : lebsNeeded c g.lpt_sz ≤ 2^24 := by
  have hmin := hc.leb_min
  have hmax := hc.leb_max
  have hsz := doCalcLptGeom_lpt_sz hc (by omega) h
  rw [lebsNeeded_le (by omega)]
  omega

theorem lpt_lebs_int (hc : c.Accepted) (hm : main_lebs < 2^31) {k : ℕ} {g' : LptGeom}
    (hinv : GeomInv c main_lebs g) (hn : g.lpt_lebs ≤ 2^24)
    (h : enoughLebs c main_lebs k g = .ok g') : g'.lpt_lebs ≤ 2^24 := by
  induction k generalizing g with
  | zero => cases h
  | succ k ih =>
    have hsum := hinv.sum
    have hlebs := hinv.lebs
    have hneed := lebsNeeded_int hc (by omega) hn hinv.calc_eq
    rcases enoughLebs_cases h with ⟨hlt, hmain, g₁, hcalc, h⟩ | ⟨-, -, rfl⟩
    · obtain ⟨h₁, hlebs₁, -⟩ := geomInv_calc (by omega) hmain hcalc
      exact ih h₁ (hlebs₁.trans_le hneed) h
    · exact hn

/-- A NAND volume with LEBs of 124 KiB. -/
def chipVolume (max_leb_cnt : ℕ) : UbifsInfo := ⟨2048, 126976, max_leb_cnt, 8, 0, 0, 0, 0⟩

theorem chipVolume_accepted {n : ℕ} (h : n < 2^31) : (chipVolume n).Accepted := by
  have hn : chipVolume n = ⟨2048, 126976, n, 8, 0, 0, 0, 0⟩ := rfl
  constructor <;> simp only [hn]
  all_goals first | exact h | exact ⟨11, rfl⟩ | decide

theorem lpt_geom_small : ∃ g, calcDfltLptGeom (chipVolume 2048) 2000 = .ok g ∧
    LptConsistent (chipVolume 2048) 2000 g := by
  have hg : ∃ g, calcDfltLptGeom (chipVolume 2048) 2000 = .ok g := ⟨_, rfl⟩
  obtain ⟨g, hg⟩ := hg
  refine ⟨g, hg, (lpt_geom_iff (chipVolume_accepted (by decide)) hg).mpr (Or.inr (Or.inl ?_))⟩
  exact ⟨_, rfl, by decide +kernel⟩

/-- The LPT of a volume with 24000 LEBs is in the small model, and larger than a LEB. -/
theorem lpt_geom_large : ∃ g, calcDfltLptGeom (chipVolume 24020) 24000 = .ok g ∧
    g.big_lpt = false ∧ (chipVolume 24020).leb_size < g.lpt_sz ∧
    ¬ LptConsistent (chipVolume 24020) 24000 g := by
  have hg : ∃ g, calcDfltLptGeom (chipVolume 24020) 24000 = .ok g ∧ g.big_lpt = false ∧
      g.lpt_sz = 129024 := ⟨_, rfl, rfl, rfl⟩
  obtain ⟨g, hg, hbig, hsz⟩ := hg
  have hlt : (chipVolume 24020).leb_size < g.lpt_sz := by
    rw [hsz]
    decide
  exact ⟨g, hg, hbig, hlt, fun hcon => absurd (hcon.small hbig) (not_le.mpr hlt)⟩

end Range

end ChipTools.Ubifs
