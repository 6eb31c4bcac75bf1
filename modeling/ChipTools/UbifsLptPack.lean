import ChipTools.BitField
import ChipTools.UbifsMkfs
import ChipTools.UbifsSpace

/-! The widths of the bit fields of the LPT: each value that `create_lpt` packs fits the width it is
packed with. -/
namespace ChipTools.Ubifs
open Bytes BitField

section Sizes

variable {c : UbifsInfo} {main_lebs lpt_lebs : ℕ} {big : Bool} {g : LptGeom}

/-- An LPT that is larger than a LEB is one of many LEBs. -/
theorem large_main (hc : c.Accepted) (hn : lpt_lebs ≤ 2)
    (h : doCalcLptGeom c main_lebs lpt_lebs big = some g) (hlarge : c.leb_size < g.lpt_sz) :
    1024 ≤ main_lebs := by
  have hmin := hc.leb_min
  have hsz := @minGeom_lpt_sz c main_lebs lpt_lebs big hc (by omega)
  have hw := @perLebWastage_le c main_lebs lpt_lebs big hc (by omega)
  by_contra hlt
  unfold doCalcLptGeom at h
  dsimp only at h
  rw [wastage, if_neg (by omega)] at h
  have hlpt : g.lpt_sz = (minGeom c main_lebs lpt_lebs big).lpt_sz+
      ((minGeom c main_lebs lpt_lebs big).perLebWastage+
        (align ((minGeom c main_lebs lpt_lebs big).lpt_sz+
            (minGeom c main_lebs lpt_lebs big).perLebWastage) c.min_io_size-
          ((minGeom c main_lebs lpt_lebs big).lpt_sz+
            (minGeom c main_lebs lpt_lebs big).perLebWastage))) := by
    rw [← Option.some.inj h]
    rfl
  have h1 := le_align ((minGeom c main_lebs lpt_lebs big).lpt_sz+
    (minGeom c main_lebs lpt_lebs big).perLebWastage) hc.min_io_pos
  have h2 := align_le (x := (minGeom c main_lebs lpt_lebs big).lpt_sz+
    (minGeom c main_lebs lpt_lebs big).perLebWastage) hc.min_io_pos (b := c.leb_size) (by omega) hc.leb_io
  omega

/-- The LPT of a volume of many LEBs needs the smaller part of them. -/
theorem lebsNeeded_quarter (hc : c.Accepted) {total : ℕ} (htot : 1024 ≤ total) (hint : total < 2^31)
    (hm : main_lebs ≤ total) (hn : 4*lpt_lebs ≤ total)
    (h : doCalcLptGeom c main_lebs lpt_lebs big = some g) : 4*lebsNeeded c g.lpt_sz ≤ total := by
  have hmin := hc.leb_min
  have hsz := doCalcLptGeom_lpt_sz hc (by omega) h
  have hle : lebsNeeded c g.lpt_sz ≤ total/4 := by
    rw [lebsNeeded_le (by omega)]
    -- four of the LEBs are for what is lost in the alignment
    have hmul : (total/4-4)*15360 ≤ (total/4-4)*c.leb_size := Nat.mul_le_mul_left _ (by omega)
    have hsplit : total/4*c.leb_size = (total/4-4)*c.leb_size+4*c.leb_size := by
      rw [← Nat.add_mul, Nat.sub_add_cancel (by omega)]
    omega
  omega

theorem enoughLebs_quarter (hc : c.Accepted) {total k : ℕ} {g' : LptGeom} (htot : 1024 ≤ total)
    (hint : total < 2^31) (hinv : GeomInv c total g) (hn : 4*g.lpt_lebs ≤ total)
    (h : enoughLebs c total k g = .ok g') : 4*g'.lpt_lebs ≤ total := by
  induction k generalizing g with
  | zero => cases h
  | succ k ih =>
    have hsum := hinv.sum
    have hlebs := hinv.lebs
    have hneed := lebsNeeded_quarter hc htot hint (by omega) hn hinv.calc_eq
    rcases enoughLebs_cases h with ⟨hlt, hmain, g₁, hcalc, h⟩ | ⟨-, -, rfl⟩
    · obtain ⟨h₁, hlebs₁, -⟩ := geomInv_calc (by omega) hmain hcalc
      exact ih h₁ (by omega) h
    · exact hn

/-- What `calc_dflt_lpt_geom` accepts. The big model is only chosen for a large main area. -/
structure GeomAccepted (c : UbifsInfo) (total : ℕ) (g : LptGeom) : Prop where
  inv : GeomInv c total g
  covers : 4*g.lpt_sz ≤ g.lpt_lebs*c.leb_size
  ltab : g.ltab_sz ≤ c.leb_size
  lebs : g.lpt_lebs ≤ 2^24
  big : g.big_lpt = true → 768 ≤ g.main_lebs

theorem calcDfltLptGeom_accepted (hc : c.Accepted) (hint : main_lebs < 2^31)
    (h : calcDfltLptGeom c main_lebs = .ok g) : GeomAccepted c main_lebs g := by
  have hmin := hc.leb_min
  unfold calcDfltLptGeom at h
  split at h
  · cases h
  next hlt =>
    rw [UBIFS_MIN_LPT_LEBS, not_le] at hlt
    cases hg₂ : calcLptGeom c (main_lebs-UBIFS_MIN_LPT_LEBS) UBIFS_MIN_LPT_LEBS false with
    | error e =>
      rw [hg₂] at h
      cases h
    | ok g₂ =>
      rw [hg₂] at h
      change (if c.leb_size < g₂.lpt_sz then calcLptGeom c (main_lebs-2) 2 true >>=
        enoughLebs c main_lebs 64 else enoughLebs c main_lebs 64 g₂) = .ok g at h
      have hrest {g₁ : LptGeom} {b : Bool} (hg₁ : calcLptGeom c (main_lebs-2) 2 b = .ok g₁)
          (hlarge : b = true → 1024 ≤ main_lebs) (h : enoughLebs c main_lebs 64 g₁ = .ok g) :
          GeomAccepted c main_lebs g := by
        obtain ⟨hinv₁, hlebs₁, hbig₁⟩ := geomInv_calc (by decide) hlt hg₁
        obtain ⟨hinv, hbig, hneed, hltab⟩ := enoughLebs_inv hinv₁ h
        have hlebs := lpt_lebs_int hc hint hinv₁ (by omega) h
        refine ⟨hinv, (lebsNeeded_le (by omega)).mp hneed, hltab, hlebs, fun hb => ?_⟩
        have htot := hlarge (hbig₁.symm.trans (hbig.symm.trans hb))
        have hquarter := enoughLebs_quarter hc htot hint hinv₁ (by omega) h
        have hsum := hinv.sum
        omega
      by_cases hfit : c.leb_size < g₂.lpt_sz
      · rw [if_pos hfit] at h
        cases hg₁ : calcLptGeom c (main_lebs-2) 2 true with
        | error e =>
          rw [hg₁] at h
          cases h
        | ok g₁ =>
          rw [hg₁] at h
          have hmain := large_main hc (Nat.le_refl 2) (calcLptGeom_ok hg₂) hfit
          rw [UBIFS_MIN_LPT_LEBS] at hmain
          exact hrest hg₁ (fun _ => by omega) h
      · rw [if_neg hfit] at h
        exact hrest hg₂ (fun hb => by cases hb) h

end Sizes

section Log

/-- The fields of a pnode, as `pack_pnode` has them. -/
def pnodeFields (g : LptGeom) (num : ℕ) (lprops : List Lprops) : List Field :=
  numField g num ++ lprops.flatMap (lpropsFields g)

def nnodeFields (g : LptGeom) (lpt_first num : ℕ) (nbranch : List Place) : List Field :=
  numField g num ++ nbranch.flatMap (branchFields g lpt_first)

def ltabFields (g : LptGeom) (ltab : List (ℕ × ℕ)) : List Field :=
  ltab.flatMap fun lp =>
    [(BitVec.ofNat 32 lp.1, g.lpt_spc_bits), (BitVec.ofNat 32 lp.2, g.lpt_spc_bits)]

def lsaveFields (g : LptGeom) (lsave : List ℕ) : List Field :=
  lsave.map fun lnum => (BitVec.ofNat 32 lnum, g.lnum_bits)

/-- The CRC that `packNode` packs. -/
def nodeCrc (type : LptNode) (fields : List Field) (sz : ℕ) (buf : ℕ → Byte) (p : ℕ) : BitVec 16 :=
  let k := packBits ⟨buf, p+UBIFS_LPT_CRC_BYTES, 0⟩ type.type UBIFS_LPT_TYPE_BITS
  let k := fields.foldl (fun k f => packBits k f.1 f.2) k
  crc16 (-1#16) (readBytes k.buf (p+UBIFS_LPT_CRC_BYTES) (sz-UBIFS_LPT_CRC_BYTES))

/-- A node that was packed. -/
structure PackedNode where
  type : LptNode
  fields : List Field
  crc : BitVec 16

/-- The calls of `pack_bits` for a node, in their order. -/
def PackedNode.calls (n : PackedNode) : List Field :=
  (n.type.type, UBIFS_LPT_TYPE_BITS) :: n.fields ++ [(n.crc.setWidth 32, UBIFS_LPT_CRC_BITS)]

/-- The state of `create_lpt` with the nodes that it has packed so far. -/
structure Logged where
  writer : LptWriter
  nodes : List PackedNode

def Logged.map (f : LptWriter → LptWriter) (s : Logged) : Logged := { s with writer := f s.writer }

/-- A node is packed at the place. -/
def Logged.pack (type : LptNode) (fields : List Field) (sz : ℕ) (s : Logged) : Logged :=
  { writer := s.writer.putNode sz (packNode type fields sz)
    nodes := s.nodes ++ [⟨type, fields, nodeCrc type fields sz s.writer.buf s.writer.len⟩] }

variable (c : UbifsInfo) (g : LptGeom) (lpt_first : ℕ)

def logPnodes (main_lebs : ℕ) (lpt : ℕ → Lprops) : ℕ → ℕ → Logged → Logged
  | 0, _, s => s
  | n+1, i, s =>
    let lprops := (List.range UBIFS_LPT_FANOUT).map fun j =>
      lpropsAt c main_lebs lpt (i*UBIFS_LPT_FANOUT+j)
    logPnodes main_lebs lpt n (i+1)
      ((s.map (·.makeRoom c g.pnode_sz)).pack .pnode (pnodeFields g i lprops) g.pnode_sz)

def logNnode (row i : ℕ) (nbranch : List Place) (s : Logged) : Logged :=
  let s := s.map (·.makeRoom c g.nnode_sz)
  let s := if row = 0 then s.map fun w => { w with root := ⟨w.lnum, w.len⟩ } else s
  s.pack .nnode (nnodeFields g lpt_first (calcNnodeNum row i) nbranch) g.nnode_sz

def logNnodes (row : ℕ) : ℕ → ℕ → Logged × Below → Logged × Below
  | 0, _, s => s
  | n+1, i, (s, b) =>
    let (nbranch, b) := nextBranches c UBIFS_LPT_FANOUT b
    logNnodes row n (i+1) (logNnode c g lpt_first row i nbranch s, b)

def logRows : ℕ → ℕ → Logged × Below → Logged × Below
  | 0, cnt, s => logNnodes c g lpt_first 0 (levelCnt cnt) 0 s
  | row+1, cnt, s =>
    let (s, b) := logNnodes c g lpt_first (row+1) (levelCnt cnt) 0 s
    logRows row (levelCnt cnt) (s, { b with cnt := levelCnt cnt, sz := g.nnode_sz })

def logLsave (main_first : ℕ) (s : Logged) : Logged :=
  if g.big_lpt then
    let s := s.map (·.makeRoom c g.lsave_sz)
    let s := s.map fun w => { w with lsave_at := ⟨w.lnum, w.len⟩ }
    s.pack .lsave (lsaveFields g ((List.range LSAVE_CNT).map (main_first+·))) g.lsave_sz
  else s

/-- The table is packed when the length has it already. -/
def logLtab (s : Logged) : Logged :=
  let s := s.map (·.makeRoom c g.ltab_sz)
  let s := s.map fun w => { w with ltab_at := ⟨w.lnum, w.len⟩, len := w.len+g.ltab_sz }
  let s := s.map (·.setLtab c)
  let fields := ltabFields g ((List.range g.lpt_lebs).map fun i => s.writer.ltab (lpt_first+i))
  let w := { s.writer with
    buf := packNode .ltab fields g.ltab_sz s.writer.buf s.writer.ltab_at.offs }
  { writer := w.writeLeb c
    nodes := s.nodes ++
      [⟨.ltab, fields, nodeCrc .ltab fields g.ltab_sz s.writer.buf s.writer.ltab_at.offs⟩] }

/-- `create_lpt` with its nodes. -/
def logLpt (main_first main_lebs : ℕ) (lpt : ℕ → Lprops) (s : LptWriter) : Logged :=
  let cnt := (main_lebs+UBIFS_LPT_FANOUT-1)/UBIFS_LPT_FANOUT
  let s := logPnodes c g main_lebs lpt cnt 0 ⟨{ s with lnum := lpt_first, len := 0 }, []⟩
  let (s, _) := logRows c g lpt_first (g.lpt_hght-1) cnt (s, ⟨lpt_first, 0, cnt, g.pnode_sz⟩)
  logLtab c g lpt_first (logLsave c g main_first s)

variable {c g lpt_first}

theorem logPnodes_writer {main_lebs : ℕ} {lpt : ℕ → Lprops} (n i : ℕ) (s : Logged) :
    (logPnodes c g main_lebs lpt n i s).writer = addPnodes c g main_lebs lpt n i s.writer := by
  induction n generalizing i s with
  | zero => rfl
  | succ n ih => exact ih _ _

theorem logNnode_writer (row i : ℕ) (nbranch : List Place) (s : Logged) :
    (logNnode c g lpt_first row i nbranch s).writer =
      addNnode c g lpt_first row i nbranch s.writer := by
  unfold logNnode addNnode
  dsimp only
  split
  · rfl
  · rfl

theorem logNnodes_writer (row n i : ℕ) (s : Logged) (b : Below) :
    ((logNnodes c g lpt_first row n i (s, b)).1.writer, (logNnodes c g lpt_first row n i (s, b)).2) =
      addNnodes c g lpt_first row n i (s.writer, b) := by
  induction n generalizing i s b with
  | zero => rfl
  | succ n ih =>
    unfold logNnodes addNnodes
    dsimp only
    rw [ih, logNnode_writer]

theorem logRows_writer (row cnt : ℕ) (s : Logged) (b : Below) :
    (logRows c g lpt_first row cnt (s, b)).1.writer =
      (addRows c g lpt_first row cnt (s.writer, b)).1 := by
  induction row generalizing cnt s b with
  | zero =>
    exact congrArg Prod.fst (logNnodes_writer 0 (levelCnt cnt) 0 s b)
  | succ row ih =>
    unfold logRows addRows
    dsimp only
    rw [ih, ← logNnodes_writer]

theorem logLsave_writer (main_first : ℕ) (s : Logged) :
    (logLsave c g main_first s).writer = addLsave c g main_first s.writer := by
  unfold logLsave addLsave
  split
  · rfl
  · rfl

/-- It is `create_lpt`. -/
theorem logLpt_writer (main_first main_lebs : ℕ) (lpt : ℕ → Lprops) (s : LptWriter) :
    (logLpt c g lpt_first main_first main_lebs lpt s).writer =
      createLpt c g lpt_first main_first main_lebs lpt s := by
  have hp := @logPnodes_writer c g main_lebs lpt
    ((main_lebs+UBIFS_LPT_FANOUT-1)/UBIFS_LPT_FANOUT) 0 ⟨{ s with lnum := lpt_first, len := 0 }, []⟩
  unfold logLpt createLpt
  dsimp only at hp ⊢
  rw [← hp, ← logRows_writer, ← logLsave_writer]
  rfl

end Log

section Fits

variable {c : UbifsInfo} {g : LptGeom} {lpt_first : ℕ}

/-- `pack_bits` takes one to 32 bits of a value that has no others. -/
structure FieldFits (f : Field) : Prop where
  pos : 1 ≤ f.2
  le : f.2 ≤ 32
  lt : f.1.toNat < 2^f.2

theorem FieldFits.mono {v : BitVec 32} {w w' : ℕ} (h : FieldFits (v, w)) (hle : w ≤ w')
    (h32 : w' ≤ 32) : FieldFits (v, w') :=
  ⟨h.pos.trans hle, h32, h.lt.trans_le (Nat.pow_le_pow_right (by decide) hle)⟩

theorem fls_fits {x y : ℕ} (h0 : 0 < x) (hx : x < 2^32) (hy : y ≤ x) :
    FieldFits (BitVec.ofNat 32 y, fls x) := by
  obtain ⟨h1, -, h2⟩ := fls_bounds h0 hx
  refine ⟨h1, fls_le (le_refl 32) hx, ?_⟩
  change (BitVec.ofNat 32 y).toNat < 2^fls x
  rw [BitVec.toNat_ofNat, Nat.mod_eq_of_lt (by omega)]
  omega

theorem PackedNode.calls_fit {n : PackedNode} (h : ∀ f ∈ n.fields, FieldFits f) :
    ∀ f ∈ n.calls, FieldFits f := by
  intro f hf
  unfold calls at hf
  rcases List.mem_cons.mp hf with rfl | hf
  · cases n.type <;> exact ⟨by decide, by decide, by decide⟩
  · rcases List.mem_append.mp hf with hf | hf
    · exact h f hf
    · rw [List.mem_singleton.mp hf]
      refine ⟨show 1 ≤ 16 by decide, show 16 ≤ 32 by decide, ?_⟩
      change (n.crc.setWidth 32).toNat < 2^16
      rw [BitVec.toNat_setWidth]
      exact (Nat.mod_le _ _).trans_lt n.crc.isLt

/-- The widths, each from a count or a size. -/
structure Widths (c : UbifsInfo) (g : LptGeom) : Prop where
  space : g.space_bits = fls c.leb_size-3
  lnum : g.lpt_lnum_bits = fls g.lpt_lebs
  offs : g.lpt_offs_bits = fls (c.leb_size-1)
  spc : g.lpt_spc_bits = fls c.leb_size
  pcnt : g.pcnt_bits = pcntBits c.max_leb_cnt
  lnums : g.lnum_bits = fls (c.max_leb_cnt-1)
  pnode : 1 ≤ g.pnode_sz ∧ g.pnode_sz ≤ c.leb_size
  nnode : 1 ≤ g.nnode_sz ∧ g.nnode_sz ≤ c.leb_size
  lsave : g.lsave_sz ≤ c.leb_size

theorem GeomAccepted.widths (hc : c.Accepted) {total : ℕ} (ha : GeomAccepted c total g) :
    Widths c g := by
  have hmin := hc.leb_min
  have hlebs := ha.lebs
  obtain ⟨lost, -, hg⟩ := doCalcLptGeom_min ha.inv.calc_eq
  obtain ⟨hp, hn, -, hs⟩ := @minGeom_sizes c g.main_lebs g.lpt_lebs g.big_lpt hc (by omega)
  have hpsz : g.pnode_sz = (minGeom c g.main_lebs g.lpt_lebs g.big_lpt).pnode_sz :=
    (congrArg LptGeom.pnode_sz hg).trans rfl
  have hnsz : g.nnode_sz = (minGeom c g.main_lebs g.lpt_lebs g.big_lpt).nnode_sz :=
    (congrArg LptGeom.nnode_sz hg).trans rfl
  have hssz : g.lsave_sz = (minGeom c g.main_lebs g.lpt_lebs g.big_lpt).lsave_sz :=
    (congrArg LptGeom.lsave_sz hg).trans rfl
  refine ⟨congrArg LptGeom.space_bits hg, congrArg LptGeom.lpt_lnum_bits hg,
    congrArg LptGeom.lpt_offs_bits hg, congrArg LptGeom.lpt_spc_bits hg,
    congrArg LptGeom.pcnt_bits hg, congrArg LptGeom.lnum_bits hg, ⟨?_, by omega⟩, ⟨?_, by omega⟩,
    by omega⟩
  · rw [hpsz]
    change 1 ≤ (16+4+(if g.big_lpt then pcntBits c.max_leb_cnt else 0)+
      ((fls c.leb_size-3)*2+1)*4+7)/8
    omega
  · rw [hnsz]
    change 1 ≤ (16+4+(if g.big_lpt then pcntBits c.max_leb_cnt else 0)+
      (fls g.lpt_lebs+fls (c.leb_size-1))*4+7)/8
    omega

/-- Free or dirty space, in units of eight bytes. -/
theorem space_fits (hc : c.Accepted) (hw : Widths c g) {v : ℤ} (h0 : 0 ≤ v) (hv : v ≤ c.leb_size) :
    FieldFits (BitVec.ofInt 32 (v/8), g.space_bits) := by
  have hmin := hc.leb_min
  have hmax := hc.leb_max
  have hfls : 13 < fls c.leb_size := lt_fls (by omega) (by omega)
  have hfls' : fls c.leb_size ≤ 22 := fls_le (by decide) (by omega)
  obtain ⟨-, -, hlt⟩ := fls_bounds (x := c.leb_size) (by omega) (by omega)
  have hpow : 2^fls c.leb_size = 8*2^(fls c.leb_size-3) :=
    calc 2^fls c.leb_size = 2^(3+(fls c.leb_size-3)) := by congr 1; omega
      _ = 8*2^(fls c.leb_size-3) := pow_add 2 3 _
  rw [hw.space]
  refine ⟨by dsimp only; omega, by dsimp only; omega, ?_⟩
  change (BitVec.ofInt 32 (v/8)).toNat < 2^(fls c.leb_size-3)
  rw [BitVec.toNat_ofInt]
  omega

theorem lpropsFields_fit (hc : c.Accepted) (hw : Widths c g) {lp : Lprops}
    (hfree : 0 ≤ lp.free ∧ lp.free ≤ c.leb_size) (hdirty : 0 ≤ lp.dirty ∧ lp.dirty ≤ c.leb_size) :
    ∀ f ∈ lpropsFields g lp, FieldFits f := by
  intro f hf
  unfold lpropsFields at hf
  rcases List.mem_cons.mp hf with rfl | hf
  · exact space_fits hc hw hfree.1 hfree.2
  · rcases List.mem_cons.mp hf with rfl | hf
    · exact space_fits hc hw hdirty.1 hdirty.2
    · rw [List.mem_singleton.mp hf]
      refine ⟨le_refl 1, show 1 ≤ 32 by decide, ?_⟩
      dsimp only
      split <;> decide

theorem numField_fits {num : ℕ} (h : g.big_lpt = true → FieldFits (BitVec.ofNat 32 num, g.pcnt_bits)) :
    ∀ f ∈ numField g num, FieldFits f := by
  intro f hf
  unfold numField at hf
  split at hf
  next hb =>
    rw [List.mem_singleton.mp hf]
    exact h hb
  next => exact absurd hf List.not_mem_nil

/-- The number of an nnode has one bit more than twice its row. -/
theorem calcNnodeNum_go_lt (row col num : ℕ) : calcNnodeNum.go row col num < (num+1)*4^row := by
  induction row generalizing col num with
  | zero =>
    rw [calcNnodeNum.go]
    omega
  | succ row ih =>
    have hor : num*4 ||| col%4 = num*4+col%4 := by
      rw [Nat.mul_comm, show 4 = 2^2 from rfl, ← Nat.two_pow_add_eq_or_of_lt (Nat.mod_lt _ (by decide))]
    rw [calcNnodeNum.go, UBIFS_LPT_FANOUT, hor]
    calc calcNnodeNum.go row (col/4) (num*4+col%4)
        < (num*4+col%4+1)*4^row := ih _ _
      _ ≤ ((num+1)*4)*4^row := Nat.mul_le_mul_right _ (by omega)
      _ = (num+1)*4^(row+1) := by rw [pow_succ, Nat.mul_assoc, Nat.mul_comm 4]

theorem calcNnodeNum_lt (row col : ℕ) : calcNnodeNum row col < 2*4^row :=
  calcNnodeNum_go_lt row col 1

/-- The numbers of the nodes fit, as there is more than one pnode in the big model. -/
theorem nodeNum_fits (hc : c.Accepted) (hw : Widths c g) {total : ℕ} (ha : GeomAccepted c total g)
    (hmax : g.main_lebs ≤ c.max_leb_cnt) (hb : g.big_lpt = true) :
    (∀ i < (g.main_lebs+4-1)/4, FieldFits (BitVec.ofNat 32 i, g.pcnt_bits)) ∧
    ∀ row ≤ g.lpt_hght-1, ∀ col, FieldFits (BitVec.ofNat 32 (calcNnodeNum row col), g.pcnt_bits) := by
  have hleb := hc.leb_cnt
  have hbig := ha.big hb
  obtain ⟨lost, -, hg⟩ := doCalcLptGeom_min ha.inv.calc_eq
  have hheight := @minGeom_height c g.lpt_lebs g.big_lpt g.main_lebs
  rw [show (minGeom c g.main_lebs g.lpt_lebs g.big_lpt).lpt_hght = g.lpt_hght from
    (congrArg LptGeom.lpt_hght hg).symm] at hheight
  have hpcnt : (minGeom c g.main_lebs g.lpt_lebs g.big_lpt).pnode_cnt = (g.main_lebs+4-1)/4 := rfl
  rw [hpcnt] at hheight
  have hpcnt := fls_le_pcntBits hleb
  have hle := pcntBits_le c.max_leb_cnt
  rw [hw.pcnt]
  refine ⟨fun i hi => (fls_fits (by omega) (by omega) (by omega)).mono hpcnt hle,
    fun row hrow col => ?_⟩
  have hpow : 2^(2*(g.lpt_hght-1)) ≤ (c.max_leb_cnt+4-1)/4-1 := by
    rw [pow_mul]
    rcases hheight.least with h1 | h1
    · rw [h1]
      omega
    · change 4^(g.lpt_hght-1) ≤ _
      omega
  have hfls := lt_fls (by omega) hpow
  have hnum : calcNnodeNum row col < 2^pcntBits c.max_leb_cnt := by
    calc calcNnodeNum row col < 2*4^row := calcNnodeNum_lt row col
      _ = 2^(2*row+1) := by
        rw [show 4 = 2^2 from rfl, ← pow_mul, Nat.mul_comm, ← pow_succ]
      _ ≤ 2^pcntBits c.max_leb_cnt := Nat.pow_le_pow_right (by decide) (by omega)
  refine ⟨by dsimp only; omega, hle, ?_⟩
  change (BitVec.ofNat 32 (calcNnodeNum row col)).toNat < _
  rw [BitVec.toNat_ofNat]
  exact (Nat.mod_le _ _).trans_lt hnum

end Fits

section Run

variable {c : UbifsInfo} {g : LptGeom} {lpt_first : ℕ}

/-- What holds between two nodes. -/
structure LogInv (c : UbifsInfo) (s : Logged) : Prop where
  len : s.writer.len ≤ c.leb_size
  ltab : ∀ l, (s.writer.ltab l).1 ≤ c.leb_size ∧ (s.writer.ltab l).2 ≤ c.leb_size
  fits : ∀ n ∈ s.nodes, ∀ f ∈ n.calls, FieldFits f

theorem setLtab_le (hc : c.Accepted) {w : LptWriter} (hlen : w.len ≤ c.leb_size)
    (h : ∀ l, (w.ltab l).1 ≤ c.leb_size ∧ (w.ltab l).2 ≤ c.leb_size) (l : ℕ) :
    ((w.setLtab c).ltab l).1 ≤ c.leb_size ∧ ((w.setLtab c).ltab l).2 ≤ c.leb_size := by
  have halign := align_le hc.min_io_pos hlen hc.leb_io
  unfold LptWriter.setLtab
  dsimp only
  split
  · exact ⟨Nat.sub_le _ _, (Nat.sub_le _ _).trans halign⟩
  · exact h l

theorem LogInv.makeRoom (hc : c.Accepted) {s : Logged} (h : LogInv c s) {sz : ℕ}
    (hsz : sz ≤ c.leb_size) : LogInv c (s.map (·.makeRoom c sz)) ∧
      (s.map (·.makeRoom c sz)).writer.len+sz ≤ c.leb_size := by
  unfold Logged.map LptWriter.makeRoom
  dsimp only
  split
  next hlt =>
    exact ⟨⟨Nat.zero_le _, setLtab_le hc h.len h.ltab, h.fits⟩, (Nat.zero_add sz).symm ▸ hsz⟩
  next hge => exact ⟨h, not_lt.mp hge⟩

/-- The places that are recorded do not matter. -/
theorem LogInv.map {s : Logged} (h : LogInv c s) (f : LptWriter → LptWriter)
    (hlen : (f s.writer).len = s.writer.len) (hltab : (f s.writer).ltab = s.writer.ltab) :
    LogInv c (s.map f) := by
  refine ⟨?_, ?_, h.fits⟩
  · change (f s.writer).len ≤ c.leb_size
    rw [hlen]
    exact h.len
  · change ∀ l, ((f s.writer).ltab l).1 ≤ c.leb_size ∧ ((f s.writer).ltab l).2 ≤ c.leb_size
    rw [hltab]
    exact h.ltab

theorem LogInv.pack {s : Logged} (h : LogInv c s) {type : LptNode} {fields : List Field} {sz : ℕ}
    (hlen : s.writer.len+sz ≤ c.leb_size) (hf : ∀ f ∈ fields, FieldFits f) :
    LogInv c (s.pack type fields sz) := by
  refine ⟨hlen, h.ltab, fun n hn => ?_⟩
  rcases List.mem_append.mp hn with hn | hn
  · exact h.fits n hn
  · rw [List.mem_singleton.mp hn]
    exact PackedNode.calls_fit hf

/-- The properties of the LEBs that a pnode has. -/
def SpaceFits (c : UbifsInfo) (lp : Lprops) : Prop :=
  (0 ≤ lp.free ∧ lp.free ≤ c.leb_size) ∧ 0 ≤ lp.dirty ∧ lp.dirty ≤ c.leb_size

theorem lpropsAt_fits {m k : ℕ} {lpt : ℕ → Lprops} (h : ∀ k < m, SpaceFits c (lpt k)) :
    SpaceFits c (lpropsAt c m lpt k) := by
  unfold lpropsAt
  split
  next hk => exact h k hk
  next => exact ⟨⟨Int.natCast_nonneg _, le_refl _⟩, le_refl _, Int.natCast_nonneg _⟩

theorem logPnodes_inv (hc : c.Accepted) (hw : Widths c g) {m : ℕ} {lpt : ℕ → Lprops}
    (hlpt : ∀ k < m, SpaceFits c (lpt k)) {cnt : ℕ}
    (hnum : g.big_lpt = true → ∀ i < cnt, FieldFits (BitVec.ofNat 32 i, g.pcnt_bits)) {n i : ℕ}
    (hi : i+n ≤ cnt) {s : Logged} (h : LogInv c s) : LogInv c (logPnodes c g m lpt n i s) := by
  induction n generalizing i s with
  | zero => exact h
  | succ n ih =>
    obtain ⟨hroom, hlen⟩ := h.makeRoom hc hw.pnode.2
    refine ih (by omega) (hroom.pack hlen fun f hf => ?_)
    rcases List.mem_append.mp hf with hf | hf
    · exact numField_fits (fun hb => hnum hb i (by omega)) f hf
    · obtain ⟨lp, hlp, hf⟩ := List.mem_flatMap.mp hf
      obtain ⟨j, -, rfl⟩ := List.mem_map.mp hlp
      obtain ⟨hfree, hdirty⟩ := lpropsAt_fits hlpt
      exact lpropsFields_fit hc hw hfree hdirty f hf

/-- The level below, with room for `T` bytes of nodes from the first LEB on. -/
structure BelowInv (c : UbifsInfo) (lpt_first T : ℕ) (b : Below) : Prop where
  first : lpt_first ≤ b.lnum
  load : (b.lnum-lpt_first)*c.leb_size+b.offs+2*(b.cnt*b.sz) ≤ 2*T
  pos : 1 ≤ b.sz
  le : b.sz ≤ c.leb_size

/-- A branch to a node of the LPT area, or to none. -/
def BranchIn (c : UbifsInfo) (lpt_first T : ℕ) (br : Place) : Prop :=
  br = ⟨0, 0⟩ ∨
    lpt_first ≤ br.lnum ∧ (br.lnum-lpt_first)*c.leb_size ≤ 2*T ∧ br.offs+1 ≤ c.leb_size

theorem nextBranch_inv {T : ℕ} {b : Below} (h : BelowInv c lpt_first T b) :
    BranchIn c lpt_first T (nextBranch c b).1 ∧ BelowInv c lpt_first T (nextBranch c b).2 := by
  obtain ⟨hfirst, hload, hpos, hle⟩ := h
  obtain ⟨lnum, offs, cnt, sz⟩ := b
  unfold nextBranch
  dsimp only at *
  cases cnt with
  | zero => exact ⟨Or.inl rfl, hfirst, hload, hpos, hle⟩
  | succ cnt =>
    have hmul : (cnt+1)*sz = cnt*sz+sz := Nat.succ_mul cnt sz
    have hpred : (cnt+1-1)*sz = cnt*sz := rfl
    rw [if_neg (Nat.succ_ne_zero cnt)]
    split
    next hlt =>
      -- two neighbouring LEBs hold more than one LEB does
      have hnext : (lnum+1-lpt_first)*c.leb_size = (lnum-lpt_first)*c.leb_size+c.leb_size := by
        rw [show lnum+1-lpt_first = lnum-lpt_first+1 by omega, Nat.succ_mul]
      refine ⟨Or.inr ⟨?_, ?_, ?_⟩, ?_, ?_, hpos, hle⟩ <;> dsimp only
      all_goals omega
    next hge =>
      refine ⟨Or.inr ⟨?_, ?_, ?_⟩, ?_, ?_, hpos, hle⟩ <;> dsimp only
      · exact hfirst
      · omega
      · omega
      · exact hfirst
      · omega

theorem nextBranches_inv {T n : ℕ} {b : Below} (h : BelowInv c lpt_first T b) :
    (∀ br ∈ (nextBranches c n b).1, BranchIn c lpt_first T br) ∧
      BelowInv c lpt_first T (nextBranches c n b).2 := by
  induction n generalizing b with
  | zero => exact ⟨fun br hbr => absurd hbr List.not_mem_nil, h⟩
  | succ n ih =>
    obtain ⟨hbr, hb⟩ := nextBranch_inv h
    obtain ⟨hbrs, hbs⟩ := ih hb
    refine ⟨fun br hmem => ?_, hbs⟩
    rcases List.mem_cons.mp hmem with rfl | hmem
    · exact hbr
    · exact hbrs br hmem

theorem branchFields_fit (hc : c.Accepted) (hw : Widths c g) {total T : ℕ}
    (ha : GeomAccepted c total g) (hT : 4*T ≤ g.lpt_lebs*c.leb_size) {br : Place}
    (h : BranchIn c lpt_first T br) : ∀ f ∈ branchFields g lpt_first br, FieldFits f := by
  have hmin := hc.leb_min
  have hmax := hc.leb_max
  have hlebs := ha.lebs
  have hlebs2 : 2 ≤ g.lpt_lebs := ha.inv.lebs
  -- the number counts from the first LEB of the LPT, the one behind the last stands for none
  have hlnum : ∃ x ≤ g.lpt_lebs, ((if br.lnum = 0 then lpt_first+g.lpt_lebs else br.lnum : ℕ) : ℤ)-
      lpt_first = (x : ℤ) := by
    rcases h with rfl | ⟨h1, h2, -⟩
    · refine ⟨g.lpt_lebs, le_refl _, ?_⟩
      rw [if_pos rfl]
      omega
    · have h3 : (br.lnum-lpt_first)*2*c.leb_size ≤ g.lpt_lebs*c.leb_size := by
        rw [Nat.mul_right_comm]
        omega
      have h4 := Nat.le_of_mul_le_mul_right h3 (by omega)
      split
      · exact ⟨g.lpt_lebs, le_refl _, by omega⟩
      · exact ⟨br.lnum-lpt_first, by omega, by omega⟩
  have hoffs : br.offs ≤ c.leb_size-1 := by
    rcases h with rfl | ⟨-, -, h3⟩
    · exact Nat.zero_le _
    · omega
  intro f hf
  unfold branchFields at hf
  rcases List.mem_cons.mp hf with rfl | hf
  · obtain ⟨x, hx, heq⟩ := hlnum
    rw [heq, hw.lnum]
    exact fls_fits (by omega) (by omega) hx
  · rw [List.mem_singleton.mp hf, hw.offs]
    exact fls_fits (by omega) (by omega) hoffs

theorem logNnode_inv (hc : c.Accepted) (hw : Widths c g) {row i : ℕ} {nbranch : List Place}
    (hfields : ∀ f ∈ nnodeFields g lpt_first (calcNnodeNum row i) nbranch, FieldFits f) {s : Logged}
    (h : LogInv c s) : LogInv c (logNnode c g lpt_first row i nbranch s) := by
  obtain ⟨hroom, hlen⟩ := h.makeRoom hc hw.nnode.2
  unfold logNnode
  dsimp only
  generalize s.map (·.makeRoom c g.nnode_sz) = s' at hroom hlen ⊢
  split
  · exact (hroom.map (fun w => { w with root := ⟨w.lnum, w.len⟩ }) rfl rfl).pack hlen hfields
  · exact hroom.pack hlen hfields

theorem logNnodes_inv (hc : c.Accepted) (hw : Widths c g) {total T : ℕ}
    (ha : GeomAccepted c total g) (hT : 4*T ≤ g.lpt_lebs*c.leb_size) {row : ℕ}
    (hnum : g.big_lpt = true →
      ∀ col, FieldFits (BitVec.ofNat 32 (calcNnodeNum row col), g.pcnt_bits))
    {n i : ℕ} {s : Logged} {b : Below} (h : LogInv c s) (hb : BelowInv c lpt_first T b) :
    LogInv c (logNnodes c g lpt_first row n i (s, b)).1 ∧
      BelowInv c lpt_first T (logNnodes c g lpt_first row n i (s, b)).2 := by
  induction n generalizing i s b with
  | zero => exact ⟨h, hb⟩
  | succ n ih =>
    obtain ⟨hbrs, hbs⟩ := @nextBranches_inv c lpt_first T UBIFS_LPT_FANOUT b hb
    rw [logNnodes]
    generalize nextBranches c UBIFS_LPT_FANOUT b = next at hbrs hbs ⊢
    refine ih (logNnode_inv hc hw (fun f hf => ?_) h) hbs
    rcases List.mem_append.mp hf with hf | hf
    · exact numField_fits (fun hb => hnum hb i) f hf
    · obtain ⟨br, hbr, hf⟩ := List.mem_flatMap.mp hf
      exact branchFields_fit hc hw ha hT (hbrs br hbr) f hf

theorem logRows_inv (hc : c.Accepted) (hw : Widths c g) {total T : ℕ}
    (ha : GeomAccepted c total g) {row cnt : ℕ}
    (hT : 4*(T+rowNodes row cnt*g.nnode_sz) ≤ g.lpt_lebs*c.leb_size)
    (hnum : g.big_lpt = true → ∀ r ≤ row, ∀ col,
      FieldFits (BitVec.ofNat 32 (calcNnodeNum r col), g.pcnt_bits))
    {s : Logged} {b : Below} (h : LogInv c s) (hb : BelowInv c lpt_first T b) :
    LogInv c (logRows c g lpt_first row cnt (s, b)).1 := by
  induction row generalizing cnt s b T with
  | zero =>
    exact (logNnodes_inv hc hw ha (by omega) (fun hb => hnum hb 0 (le_refl 0)) h hb).1
  | succ row ih =>
    rw [rowNodes, Nat.add_mul, ← Nat.add_assoc] at hT
    obtain ⟨h', hfirst, hload, -, -⟩ := @logNnodes_inv c g lpt_first hc hw total T ha (by omega) (row+1)
      (fun hb => hnum hb (row+1) (le_refl _)) (levelCnt cnt) 0 s b h hb
    refine ih hT (fun hb r hr => hnum hb r (by omega)) h' ⟨hfirst, ?_, hw.nnode.1, hw.nnode.2⟩
    dsimp only
    omega

theorem lsaveFields_fit (hc : c.Accepted) (hw : Widths c g) {main_first : ℕ}
    (hlast : main_first+LSAVE_CNT ≤ c.max_leb_cnt) :
    ∀ f ∈ lsaveFields g ((List.range LSAVE_CNT).map (main_first+·)), FieldFits f := by
  have hleb := hc.leb_cnt
  rw [LSAVE_CNT] at hlast
  intro f hf
  obtain ⟨lnum, hl, rfl⟩ := List.mem_map.mp hf
  obtain ⟨i, hi, rfl⟩ := List.mem_map.mp hl
  have := List.mem_range.mp hi
  rw [LSAVE_CNT] at this
  rw [hw.lnums]
  exact fls_fits (by omega) (by omega) (by omega)

theorem ltabFields_fit (hc : c.Accepted) (hw : Widths c g) {ltab : List (ℕ × ℕ)}
    (h : ∀ lp ∈ ltab, lp.1 ≤ c.leb_size ∧ lp.2 ≤ c.leb_size) :
    ∀ f ∈ ltabFields g ltab, FieldFits f := by
  have hmin := hc.leb_min
  have hmax := hc.leb_max
  intro f hf
  obtain ⟨lp, hlp, hf⟩ := List.mem_flatMap.mp hf
  rw [hw.spc] at hf
  rcases List.mem_cons.mp hf with rfl | hf
  · exact fls_fits (by omega) (by omega) (h lp hlp).1
  · rw [List.mem_singleton.mp hf]
    exact fls_fits (by omega) (by omega) (h lp hlp).2

theorem logLtab_fits (hc : c.Accepted) (hw : Widths c g) (hsz : g.ltab_sz ≤ c.leb_size)
    {s : Logged} (h : LogInv c s) :
    ∀ n ∈ (logLtab c g lpt_first s).nodes, ∀ f ∈ n.calls, FieldFits f := by
  obtain ⟨hroom, hlen⟩ := h.makeRoom hc hsz
  have hltab := @setLtab_le c hc
    { (s.map (·.makeRoom c g.ltab_sz)).writer with
      len := (s.map (·.makeRoom c g.ltab_sz)).writer.len+g.ltab_sz } hlen hroom.ltab
  intro n hn
  rcases List.mem_append.mp hn with hn | hn
  · exact hroom.fits n hn
  · rw [List.mem_singleton.mp hn]
    apply PackedNode.calls_fit
    apply ltabFields_fit hc hw
    intro lp hlp
    obtain ⟨i, -, rfl⟩ := List.mem_map.mp hlp
    exact hltab _

/-- All of `create_lpt`, for a part of the main area. -/
theorem logLpt_fits (hc : c.Accepted) {total : ℕ} (ha : GeomAccepted c total g) {main_first m : ℕ}
    (hfirst : main_first+g.main_lebs ≤ c.max_leb_cnt) (hm : m ≤ g.main_lebs) {lpt : ℕ → Lprops}
    (hlpt : ∀ k < m, SpaceFits c (lpt k)) {s : LptWriter} (hs : s.ltab = fun _ => (c.leb_size, 0)) :
    ∀ n ∈ (logLpt c g lpt_first main_first m lpt s).nodes, ∀ f ∈ n.calls, FieldFits f := by
  have hw := ha.widths hc
  have hnums := nodeNum_fits hc hw ha (by omega)
  have hstart : LogInv c ⟨{ s with lnum := lpt_first, len := 0 }, []⟩ := by
    refine ⟨Nat.zero_le _, fun l => ?_, fun n hn => absurd hn List.not_mem_nil⟩
    dsimp only
    rw [hs]
    exact ⟨le_refl _, Nat.zero_le _⟩
  obtain ⟨cnt, hcnt⟩ : ∃ cnt, cnt = (m+UBIFS_LPT_FANOUT-1)/UBIFS_LPT_FANOUT := ⟨_, rfl⟩
  have hle : cnt ≤ (g.main_lebs+4-1)/4 := by
    rw [hcnt, UBIFS_LPT_FANOUT]
    omega
  have hpnodes := logPnodes_inv hc hw hlpt
    (fun hb i (hi : i < cnt) => (hnums hb).1 i (by omega))
    (Nat.zero_add cnt).le hstart
  have hsize : 4*(cnt*g.pnode_sz+rowNodes (g.lpt_hght-1) cnt*g.nnode_sz) ≤ g.lpt_lebs*c.leb_size := by
    have hnodes := ha.inv.nodes_le hle
    have hcov := ha.covers
    omega
  have hrows := @logRows_inv c g lpt_first hc hw total (cnt*g.pnode_sz) ha (g.lpt_hght-1) cnt hsize
    (fun hb => (hnums hb).2) _ ⟨lpt_first, 0, cnt, g.pnode_sz⟩ hpnodes
    ⟨le_refl _, by dsimp only; rw [Nat.sub_self, Nat.zero_mul]; omega, hw.pnode.1, hw.pnode.2⟩
  unfold logLpt
  dsimp only
  rw [← hcnt]
  apply logLtab_fits hc hw ha.ltab
  unfold logLsave
  split
  next hb =>
    have hbig := ha.big hb
    obtain ⟨hroom, hlen⟩ := hrows.makeRoom hc hw.lsave
    exact (hroom.map (fun w => { w with lsave_at := ⟨w.lnum, w.len⟩ }) rfl rfl).pack hlen
      (lsaveFields_fit hc hw (by rw [LSAVE_CNT]; omega))
  next => exact hrows

end Run

section Bits

variable {k : Packer} {val : BitVec 32} {nrbits : ℕ}

/-- Where the next bit goes. -/
def Packer.bit (k : Packer) : ℕ := 8*k.addr+k.pos

/-- There is nothing in the rest of the byte that is begun. -/
structure Packer.Clean (k : Packer) : Prop where
  pos : k.pos < 8
  rest : ∀ j, k.pos ≠ 0 → k.pos ≤ j → j < 8 → (k.buf k.addr).getLsbD j = false

theorem bits_setByte (buf : ℕ → Byte) (p : ℕ) (b : Byte) (n : ℕ) :
    bits (setByte buf p b) n = if n/8 = p then b.getLsbD (n%8) else bits buf n := by
  unfold bits setByte
  split
  · rfl
  · rfl

/-- The bytes behind the first one: all of the field from that on is in them. -/
theorem spill_bits (m : ℕ) (buf : ℕ → Byte) (p : ℕ) (h0 : 1 ≤ nrbits) (h : nrbits ≤ 8*(m+1)) :
    (spill m val nrbits (setByte buf p (val.setWidth 8)) p).2 = p+(nrbits-1)/8 ∧
    ∀ n, bits (spill m val nrbits (setByte buf p (val.setWidth 8)) p).1 n =
      if 8*p ≤ n ∧ n < 8*(p+(nrbits-1)/8+1) then val.getLsbD (n-8*p) else bits buf n := by
  have hbyte (n : ℕ) : bits (setByte buf p (val.setWidth 8)) n =
      if 8*p ≤ n ∧ n < 8*(p+1) then val.getLsbD (n-8*p) else bits buf n := by
    rw [bits_setByte]
    by_cases hn : n/8 = p
    · rw [if_pos hn, if_pos (by omega), BitVec.getLsbD_setWidth, decide_eq_true (by omega),
        Bool.true_and, show n%8 = n-8*p by omega]
    · rw [if_neg hn, if_neg (by omega)]
  induction m generalizing val nrbits buf p with
  | zero =>
    have hz : (nrbits-1)/8 = 0 := by omega
    rw [hz]
    exact ⟨rfl, hbyte⟩
  | succ m ih =>
    rw [spill]
    by_cases hlt : 8 < nrbits
    · rw [if_pos hlt]
      have hnext (n : ℕ) : bits (setByte (setByte buf p (val.setWidth 8)) (p+1)
          ((val >>> 8).setWidth 8)) n = if 8*(p+1) ≤ n ∧ n < 8*(p+1+1) then
            (val >>> 8).getLsbD (n-8*(p+1)) else bits (setByte buf p (val.setWidth 8)) n := by
        rw [bits_setByte]
        by_cases hn : n/8 = p+1
        · rw [if_pos hn, if_pos (by omega), BitVec.getLsbD_setWidth, decide_eq_true (by omega),
            Bool.true_and, show n%8 = n-8*(p+1) by omega]
        · rw [if_neg hn, if_neg (by omega)]
      obtain ⟨h1, h2⟩ := @ih (val >>> 8) (nrbits-8) (setByte buf p (val.setWidth 8)) (p+1)
        (by omega) (by omega) hnext
      refine ⟨by rw [h1]; omega, fun n => ?_⟩
      rw [h2, hbyte]
      by_cases hin : 8*(p+1) ≤ n ∧ n < 8*(p+1+(nrbits-8-1)/8+1)
      · rw [if_pos hin, if_pos (by omega), BitVec.getLsbD_ushiftRight]
        congr 1
        omega
      · rw [if_neg hin]
        by_cases hfirst : 8*p ≤ n ∧ n < 8*(p+1)
        · rw [if_pos hfirst, if_pos (by omega)]
        · rw [if_neg hfirst, if_neg (by omega)]
    · rw [if_neg hlt, show (nrbits-1)/8 = 0 by omega]
      exact ⟨rfl, hbyte⟩

/-- The bytes that `pack_bits` writes have the value from the place on. -/
theorem packBits_bytes (hk : k.Clean) (hf : FieldFits (val, nrbits)) :
    (∀ n, bits (packBits k val nrbits).buf n =
      if k.bit ≤ n ∧ n < 8*((k.bit+nrbits-1)/8+1) then val.getLsbD (n-k.bit) else bits k.buf n) ∧
    (packBits k val nrbits).bit = k.bit+nrbits ∧ (packBits k val nrbits).pos < 8 := by
  obtain ⟨hpos, hrest⟩ := hk
  obtain ⟨h1, h32, -⟩ := hf
  dsimp only at h1 h32
  obtain ⟨buf, addr, pos⟩ := k
  unfold packBits Packer.bit
  dsimp only at *
  by_cases hb : pos = 0
  · subst hb
    obtain ⟨hp, hbits⟩ := @spill_bits val nrbits 3 buf addr h1 (by omega)
    rw [if_neg (by simp)]
    dsimp only
    refine ⟨fun n => ?_, ?_, Nat.mod_lt _ (by decide)⟩
    · rw [hbits, show addr+(nrbits-1)/8 = (8*addr+0+nrbits-1)/8 by omega]
      rfl
    · rw [hp]
      split
      · omega
      · omega
  · rw [if_pos hb]
    -- the byte that is begun has the lowest bits of the value
    have hfirst (n : ℕ) : bits (setByte buf addr (buf addr ||| val.setWidth 8 <<< pos)) n =
        if 8*addr+pos ≤ n ∧ n < 8*(addr+1) then val.getLsbD (n-(8*addr+pos)) else bits buf n := by
      rw [bits_setByte]
      by_cases hn : n/8 = addr
      · rw [if_pos hn, BitVec.getLsbD_or, BitVec.getLsbD_shiftLeft, decide_eq_true (by omega),
          Bool.true_and]
        by_cases hlow : n%8 < pos
        · rw [if_neg (by omega), decide_eq_true hlow]
          unfold bits
          rw [hn]
          simp
        · rw [if_pos (by omega), decide_eq_false hlow, hrest _ hb (by omega) (by omega),
            BitVec.getLsbD_setWidth, decide_eq_true (by omega)]
          simp only [Bool.false_or, Bool.not_false, Bool.true_and]
          congr 1
          omega
      · rw [if_neg hn, if_neg (by omega)]
    by_cases hlt : 8 < nrbits+pos
    · rw [if_pos hlt]
      dsimp only
      obtain ⟨hp, hbits⟩ := @spill_bits (val >>> (8-pos)) (nrbits+pos-8) 3
        (setByte buf addr (buf addr ||| val.setWidth 8 <<< pos)) (addr+1) (by omega) (by omega)
      refine ⟨fun n => ?_, ?_, Nat.mod_lt _ (by decide)⟩
      · rw [hbits, hfirst]
        by_cases hin : 8*(addr+1) ≤ n ∧ n < 8*(addr+1+(nrbits+pos-8-1)/8+1)
        · rw [if_pos hin, if_pos (by omega), BitVec.getLsbD_ushiftRight]
          congr 1
          omega
        · rw [if_neg hin]
          by_cases hbyte : 8*addr+pos ≤ n ∧ n < 8*(addr+1)
          · rw [if_pos hbyte, if_pos (by omega)]
          · rw [if_neg hbyte, if_neg (by omega)]
      · rw [hp]
        split
        · omega
        · omega
    · rw [if_neg hlt]
      dsimp only
      refine ⟨fun n => ?_, ?_, Nat.mod_lt _ (by decide)⟩
      · rw [hfirst, show (8*addr+pos+nrbits-1)/8 = addr by omega]
      · split
        · omega
        · omega

/-- A value that fits is packed with all of its bits, and with no others. -/
theorem packBits_bits (hk : k.Clean) (hf : FieldFits (val, nrbits)) :
    (packBits k val nrbits).Clean ∧ (packBits k val nrbits).bit = k.bit+nrbits ∧
    (∀ i < nrbits, bits (packBits k val nrbits).buf (k.bit+i) = val.getLsbD i) ∧
    ∀ n < k.bit, bits (packBits k val nrbits).buf n = bits k.buf n := by
  obtain ⟨hbits, hbit, hpos⟩ := packBits_bytes hk hf
  obtain ⟨h1, -, hval⟩ := hf
  dsimp only at h1 hval
  refine ⟨⟨hpos, fun j h0 hj hj8 => ?_⟩, hbit, fun i hi => ?_, fun n hn => ?_⟩
  · unfold Packer.bit at hbit
    have hn := hbits (8*(packBits k val nrbits).addr+j)
    rw [bits_byte _ _ hj8] at hn
    rw [hn, if_pos (by unfold Packer.bit; omega)]
    exact Nat.testBit_lt_two_pow (hval.trans_le (Nat.pow_le_pow_right (by decide)
      (by unfold Packer.bit; omega)))
  · rw [hbits, if_pos (by omega), Nat.add_sub_cancel_left]
  · rw [hbits, if_neg (by omega)]

/-- Fields one behind the other. -/
theorem packFields_bits {fields : List Field} (hk : k.Clean) (hf : ∀ f ∈ fields, FieldFits f) :
    (∀ i f, fields[i]? = some f → ∀ j < f.2,
      bits (fields.foldl (fun k f => packBits k f.1 f.2) k).buf
        (k.bit+((fields.take i).map Prod.snd).sum+j) = f.1.getLsbD j) ∧
    ∀ n < k.bit, bits (fields.foldl (fun k f => packBits k f.1 f.2) k).buf n = bits k.buf n := by
  induction fields generalizing k with
  | nil =>
    refine ⟨fun i f hi => ?_, fun _ _ => rfl⟩
    rw [List.getElem?_nil] at hi
    cases hi
  | cons f fs ih =>
    obtain ⟨hclean, hbit, hin, hbelow⟩ := packBits_bits hk (hf f List.mem_cons_self)
    obtain ⟨hfields, hkeep⟩ := ih hclean fun f' hf' => hf f' (List.mem_cons_of_mem _ hf')
    rw [List.foldl_cons]
    refine ⟨fun i f' hi j hj => ?_, fun n hn => ?_⟩
    · cases i with
      | zero =>
        obtain rfl := Option.some.inj hi
        rw [List.take_zero, List.map_nil, List.sum_nil, Nat.add_zero, hkeep _ (by omega), hin j hj]
      | succ i =>
        have hrest := hfields i f' hi j hj
        rw [hbit] at hrest
        rw [List.take_succ_cons, List.map_cons, List.sum_cons, ← Nat.add_assoc]
        exact hrest
    · rw [hkeep n (by omega), hbelow n hn]

/-- A node reads back: behind the CRC and the type, its fields are there. -/
theorem packNode_bits {type : LptNode} {fields : List Field} {sz : ℕ} {buf : ℕ → Byte} {p : ℕ}
    (hf : ∀ f ∈ fields, FieldFits f) {i : ℕ} {f : Field} (hi : fields[i]? = some f) {j : ℕ}
    (hj : j < f.2) :
    bits (packNode type fields sz buf p) (8*p+20+((fields.take i).map Prod.snd).sum+j) =
      f.1.getLsbD j := by
  have htype : FieldFits (type.type, UBIFS_LPT_TYPE_BITS) := by
    cases type <;> exact ⟨by decide, by decide, by decide⟩
  have hstart : (Packer.mk buf (p+UBIFS_LPT_CRC_BYTES) 0).Clean :=
    ⟨Nat.zero_lt_succ 7, fun j h0 => absurd rfl h0⟩
  obtain ⟨hclean, hbit, -⟩ := packBits_bits hstart htype
  obtain ⟨hfields, -⟩ := packFields_bits hclean hf
  have hfield := hfields i f hi j hj
  have hplace : (Packer.mk buf (p+UBIFS_LPT_CRC_BYTES) 0).bit+UBIFS_LPT_TYPE_BITS = 8*p+20 := by
    change 8*(p+2)+0+4 = 8*p+20
    omega
  rw [hbit, hplace] at hfield
  rw [← hfield]
  unfold packNode
  dsimp only
  -- the CRC is in the two bytes before
  generalize fields.foldl _ _ = k'
  generalize BitVec.setWidth 32 _ = crc
  obtain ⟨-, hbits⟩ := @spill_bits crc UBIFS_LPT_CRC_BITS 3 k'.buf p (by decide) (by decide)
  change bits (spill 3 crc UBIFS_LPT_CRC_BITS (setByte k'.buf p (crc.setWidth 8)) p).1 _ = _
  rw [hbits, if_neg (by rw [UBIFS_LPT_CRC_BITS]; omega)]

end Bits

section Image

variable {c : UbifsInfo} {g : LptGeom} {lpt_first : ℕ}

/-- The save tables that were packed. -/
def Logged.lsaves (s : Logged) : List (List ℕ) :=
  s.nodes.filterMap fun n =>
    match n.type with
    | .lsave => some (n.fields.map fun f => f.1.toNat)
    | _ => none

theorem Logged.lsaves_pack {s : Logged} {type : LptNode} {fields : List Field} {sz : ℕ} :
    (s.pack type fields sz).lsaves = s.lsaves ++
      match type with
      | .lsave => [fields.map fun f => f.1.toNat]
      | _ => [] := by
  unfold Logged.lsaves Logged.pack
  rw [List.filterMap_append]
  cases type <;> rfl

theorem logPnodes_lsaves {main_lebs : ℕ} {lpt : ℕ → Lprops} (n i : ℕ) (s : Logged) :
    (logPnodes c g main_lebs lpt n i s).lsaves = s.lsaves := by
  induction n generalizing i s with
  | zero => rfl
  | succ n ih =>
    rw [logPnodes, ih, Logged.lsaves_pack]
    exact List.append_nil _

theorem logNnodes_lsaves (row n i : ℕ) (s : Logged) (b : Below) :
    (logNnodes c g lpt_first row n i (s, b)).1.lsaves = s.lsaves := by
  induction n generalizing i s b with
  | zero => rfl
  | succ n ih =>
    rw [logNnodes]
    generalize nextBranches c UBIFS_LPT_FANOUT b = next
    dsimp only
    rw [ih, logNnode, Logged.lsaves_pack]
    dsimp only
    rw [List.append_nil]
    split
    · rfl
    · rfl

theorem logRows_lsaves (row cnt : ℕ) (s : Logged) (b : Below) :
    (logRows c g lpt_first row cnt (s, b)).1.lsaves = s.lsaves := by
  induction row generalizing cnt s b with
  | zero => exact logNnodes_lsaves 0 (levelCnt cnt) 0 s b
  | succ row ih =>
    rw [logRows]
    dsimp only
    rw [ih, logNnodes_lsaves]

/-- The big model has one save table. -/
theorem logLpt_lsaves (hb : g.big_lpt = true) (main_first main_lebs : ℕ) (lpt : ℕ → Lprops)
    (s : LptWriter) : (logLpt c g lpt_first main_first main_lebs lpt s).lsaves =
      [(List.range LSAVE_CNT).map fun i => (BitVec.ofNat 32 (main_first+i)).toNat] := by
  have hltab (s : Logged) : (logLtab c g lpt_first s).lsaves = s.lsaves := by
    unfold logLtab Logged.lsaves
    dsimp only
    rw [List.filterMap_append]
    exact List.append_nil _
  have hlsave (s : Logged) : (logLsave c g main_first s).lsaves = s.lsaves ++
      [(List.range LSAVE_CNT).map fun i => (BitVec.ofNat 32 (main_first+i)).toNat] := by
    rw [logLsave, if_pos hb]
    dsimp only
    rw [Logged.lsaves_pack, lsaveFields, List.map_map, List.map_map]
    rfl
  unfold logLpt
  dsimp only
  rw [hltab, hlsave, logRows_lsaves, logPnodes_lsaves]
  rfl

theorem UbifsInfo.Accepted.setMain (hc : c.Accepted) (main_first main_lebs : ℕ) :
    { c with main_first := main_first, main_lebs := main_lebs }.Accepted :=
  ⟨hc.min_io, hc.min_io_le, hc.leb_min, hc.leb_io, hc.leb_eight, hc.leb_max, hc.fanout_min,
    hc.fanout_max, hc.leb_cnt⟩

/-- The geometry does not depend on where the main area is. -/
theorem GeomAccepted.setMain {total : ℕ} (h : GeomAccepted c total g) (main_first main_lebs : ℕ) :
    GeomAccepted { c with main_first := main_first, main_lebs := main_lebs } total g :=
  ⟨⟨h.inv.pos, h.inv.lebs, h.inv.sum, h.inv.calc_eq⟩, h.covers, h.ltab, h.lebs, h.big⟩

/-- What `init` computes: the main area is all that the other areas leave. -/
theorem initInfo_ok {o : UbifsMkfs.Options} (hinit : UbifsMkfs.initInfo o = .ok (c, g))
    (hc : c.Accepted) : (∃ total, GeomAccepted c total g) ∧ c.main_lebs = g.main_lebs ∧
      c.main_first+g.main_lebs = c.max_leb_cnt := by
  unfold UbifsMkfs.initInfo at hinit
  dsimp only at hinit
  split at hinit
  · cases hinit
  · cases hinit
  next g' hg =>
    obtain ⟨rfl, rfl⟩ := Prod.mk.inj (Except.ok.inj hinit)
    have hint : o.max_leb_cnt < 2^31 := hc.leb_cnt
    have ha := calcDfltLptGeom_accepted (hc.setMain 0 0) (by omega) hg
    have hsum := ha.inv.sum
    have hpos := ha.inv.pos
    refine ⟨⟨_, ha.setMain _ _⟩, rfl, ?_⟩
    dsimp only [UbifsMkfs.UBIFS_LOG_LNUM]
    omega

theorem finalizeLebCnt_ok {s : Head} {c' : UbifsInfo} (hok : finalizeLebCnt c s = .ok c') :
    s.head_lnum ≤ c.max_leb_cnt ∧ c' = { c with main_lebs := s.head_lnum-c.main_first } := by
  unfold finalizeLebCnt at hok
  dsimp only at hok
  split at hok
  · cases hok
  · exact ⟨by omega, (Except.ok.inj hok).symm⟩

/-- `create_lpt` for the main area that `finalize_leb_cnt` has left. -/
theorem SpaceEnd.lpt_fits {index : List Op} {a : MainArea} (h : SpaceEnd c index a)
    (hc : c.Accepted) {total : ℕ} (ha : GeomAccepted c total g) (hmain : c.main_lebs = g.main_lebs)
    (hsum : c.main_first+g.main_lebs = c.max_leb_cnt) (hle : a.head.head_lnum ≤ c.max_leb_cnt)
    {s : LptWriter} (hs : s.ltab = fun _ => (c.leb_size, 0)) :
    ∀ n ∈ (logLpt { c with main_lebs := a.head.head_lnum-c.main_first } g lpt_first c.main_first
        (a.head.head_lnum-c.main_first) a.head.lpt s).nodes, ∀ f ∈ n.calls, FieldFits f := by
  have hlpt : ∀ k < a.head.head_lnum-c.main_first, SpaceFits
      { c with main_lebs := a.head.head_lnum-c.main_first } (a.head.lpt k) := by
    intro k hk
    have := h.lprops hc (i := k) (by omega) (by omega)
    refine ⟨⟨this.1, ?_⟩, this.2.1, ?_⟩
    · dsimp only
      omega
    · dsimp only
      omega
  have hc' := hc.setMain c.main_first (a.head.head_lnum-c.main_first)
  have ha' := ha.setMain c.main_first (a.head.head_lnum-c.main_first)
  exact logLpt_fits hc' ha' hsum.le (by omega) hlpt hs

/-- In every image, each call of `pack_bits` in `create_lpt` has one to 32 bits, and a value that
has no other bits. So nothing is dropped and nothing spills into the next field: the fields of a
node read back. -/
theorem lpt_fields_fit (o : UbifsMkfs.Options) (hinit : UbifsMkfs.initInfo o = .ok (c, g))
    (hc : c.Accepted) (data index : List Op) (hdata : ∀ op ∈ data, op.Fits c)
    (hindex : ∀ op ∈ index, op.Fits c) (buf : ℕ → Byte) (image : ℕ → ℕ → Byte)
    (lpt : ℕ → Lprops) (c' : UbifsInfo)
    (hok : finalizeLebCnt c ((MainArea.init c buf image lpt).write c data index).head = .ok c')
    (s : LptWriter) (hs : s.ltab = fun _ => (c'.leb_size, 0)) :
    let lpt_first := UbifsMkfs.UBIFS_LOG_LNUM+o.log_lebs
    let lpt' := ((MainArea.init c buf image lpt).write c data index).head.lpt
    let r := logLpt c' g lpt_first c'.main_first c'.main_lebs lpt' s
    r.writer = createLpt c' g lpt_first c'.main_first c'.main_lebs lpt' s ∧
      (∀ n ∈ r.nodes, ∀ f ∈ n.calls, 1 ≤ f.2 ∧ f.2 ≤ 32 ∧ f.1.toNat < 2^f.2) ∧
      ∀ n ∈ r.nodes, ∀ sz buf p i f, n.fields[i]? = some f → ∀ j < f.2,
        bits (packNode n.type n.fields sz buf p)
          (8*p+20+((n.fields.take i).map Prod.snd).sum+j) = f.1.getLsbD j := by
  obtain ⟨⟨total, ha⟩, hmain, hsum⟩ := initInfo_ok hinit hc
  have hend := write_space hc data index hdata hindex buf image lpt
  obtain ⟨hle, rfl⟩ := finalizeLebCnt_ok hok
  have hfits := fun n hn => @SpaceEnd.lpt_fits c g (UbifsMkfs.UBIFS_LOG_LNUM+o.log_lebs) index _ hend
    hc total ha hmain hsum hle s hs n hn
  dsimp only
  refine ⟨logLpt_writer _ _ _ _, fun n hn f hf => ?_, fun n hn sz buf p i f hi j hj => ?_⟩
  · obtain ⟨h1, h2, h3⟩ := hfits n hn f hf
    exact ⟨h1, h2, h3⟩
  · have hfields : ∀ f ∈ n.fields, FieldFits f := fun f hf =>
      hfits n hn f (List.mem_cons_of_mem _ (List.mem_append_left _ hf))
    exact packNode_bits hfields hi hj

/-- The save table of the big model names the first LEBs of the main area, also where the file
system has fewer of them. -/
theorem lsave_lebs_iff (o : UbifsMkfs.Options) (hinit : UbifsMkfs.initInfo o = .ok (c, g))
    (hc : c.Accepted) (hb : g.big_lpt = true) (data index : List Op) (buf : ℕ → Byte)
    (image : ℕ → ℕ → Byte) (lpt : ℕ → Lprops) (c' : UbifsInfo)
    (hok : finalizeLebCnt c ((MainArea.init c buf image lpt).write c data index).head = .ok c')
    (s : LptWriter) :
    let a := (MainArea.init c buf image lpt).write c data index
    let r := logLpt c' g (UbifsMkfs.UBIFS_LOG_LNUM+o.log_lebs) c'.main_first c'.main_lebs a.head.lpt s
    r.lsaves = [(List.range LSAVE_CNT).map (c'.main_first+·)] ∧
      ((∀ lsave ∈ r.lsaves, ∀ lnum ∈ lsave, c'.main_first ≤ lnum ∧ lnum < a.head.head_lnum) ↔
        c.main_first+LSAVE_CNT ≤ a.head.head_lnum) := by
  obtain ⟨⟨total, ha⟩, -, hsum⟩ := initInfo_ok hinit hc
  obtain ⟨hle, rfl⟩ := finalizeLebCnt_ok hok
  have hint := hc.leb_cnt
  have hbig := ha.big hb
  generalize (MainArea.init c buf image lpt).write c data index = a at hle ⊢
  dsimp only
  rw [logLpt_lsaves hb]
  have hcnt : LSAVE_CNT = 256 := rfl
  have heq : (List.range LSAVE_CNT).map (fun i => (BitVec.ofNat 32 (c.main_first+i)).toNat) =
      (List.range LSAVE_CNT).map (c.main_first+·) := by
    apply List.map_congr_left
    intro i hi
    have := List.mem_range.mp hi
    rw [BitVec.toNat_ofNat, Nat.mod_eq_of_lt (by omega)]
  rw [heq]
  refine ⟨rfl, fun h => ?_, fun h lsave hl lnum hn => ?_⟩
  · have hlast := h _ List.mem_cons_self (c.main_first+255)
      (List.mem_map.mpr ⟨255, List.mem_range.mpr (by decide), rfl⟩)
    omega
  · rw [List.mem_singleton.mp hl] at hn
    obtain ⟨i, hi, rfl⟩ := List.mem_map.mp hn
    have := List.mem_range.mp hi
    omega

end Image

section Large

/-- A volume of 30000 LEBs, which takes the big model. -/
def largeOptions : UbifsMkfs.Options :=
  { min_io_size := 2048, leb_size := 126976, max_leb_cnt := 30000, fanout := 8, log_lebs := 5
    orph_lebs := 1, max_bud_bytes := 0, rp_size := 0, key_hash_type := 0#8, space_fixup := false
    uuid := [], tree := ⟨.lzo, false, false, fun _ => 0#32⟩ }

def largeVolume : UbifsInfo := ⟨2048, 126976, 30000, 8, 15, 29985, 2048, 6144⟩

theorem largeVolume_accepted : largeVolume.Accepted :=
  ⟨⟨11, rfl⟩, by decide, by decide, by decide, by decide, by decide, by decide, by decide,
    by decide⟩

theorem large_init : ∃ g, UbifsMkfs.initInfo largeOptions = .ok (largeVolume, g) ∧
    g.big_lpt = true := ⟨_, rfl, rfl⟩

/-- The inode of an empty directory, and an index node. -/
def emptyRoot : List Op := [.node ⟨0#8, le 4 1 ++ List.replicate 132 0#8⟩]
def emptyIndex : List Op := [.node plainNode]

def largeArea : MainArea :=
  (MainArea.init largeVolume (fun _ => 0#8) (fun _ _ => 0#8) fun _ => ⟨0, 0, 0⟩).write largeVolume
    emptyRoot emptyIndex

theorem emptyRoot_fits : ∀ op ∈ emptyRoot, op.Fits largeVolume := by
  intro op hop
  rw [List.mem_singleton.mp hop]
  refine ⟨by decide, ?_⟩
  simp [Node.len, UBIFS_CH_SZ, le, largeVolume]

theorem emptyIndex_fits : ∀ op ∈ emptyIndex, op.Fits largeVolume := by
  intro op hop
  rw [List.mem_singleton.mp hop]
  exact ⟨by decide, by decide⟩

theorem largeArea_head_lnum : largeArea.head.head_lnum = 18 := by
  have hroot : emptyRoot.map Op.len = [some 160] := by
    simp only [emptyRoot, List.map_cons, List.map_nil, Op.len, Node.len, List.length_append,
      List.length_replicate, le_length]
    rfl
  rw [← spots_lnum, largeArea, spots_write, hroot]
  rfl

theorem largeArea_finalize :
    finalizeLebCnt largeVolume largeArea.head = .ok { largeVolume with main_lebs := 3 } := by
  unfold finalizeLebCnt
  rw [largeArea_head_lnum]
  rfl

def largeWriter : LptWriter :=
  ⟨8, 0, fun _ => 0#8, fun _ _ => 0#8, [], fun _ => (126976, 0), ⟨0, 0⟩, ⟨0, 0⟩, ⟨0, 0⟩⟩

theorem lpt_fields_fit_large : ∃ g, UbifsMkfs.initInfo largeOptions = .ok (largeVolume, g) ∧
    ∀ n ∈ (logLpt { largeVolume with main_lebs := 3 } g 8 15 3 largeArea.head.lpt largeWriter).nodes,
      ∀ f ∈ n.calls, 1 ≤ f.2 ∧ f.2 ≤ 32 ∧ f.1.toNat < 2^f.2 := by
  obtain ⟨g, hinit, -⟩ := large_init
  exact ⟨g, hinit, (lpt_fields_fit largeOptions hinit largeVolume_accepted _ _ emptyRoot_fits
    emptyIndex_fits _ _ _ _ largeArea_finalize largeWriter rfl).2.1⟩

/-- The image of an empty directory has 18 LEBs, three of them in the main area. Its save table
names the LEBs up to number 270. -/
theorem lsave_lebs_large : ∃ g, UbifsMkfs.initInfo largeOptions = .ok (largeVolume, g) ∧
    g.big_lpt = true ∧
    finalizeLebCnt largeVolume largeArea.head = .ok { largeVolume with main_lebs := 3 } ∧
    largeArea.head.head_lnum = 18 ∧
    ∃ lsave ∈ (logLpt { largeVolume with main_lebs := 3 } g 8 15 3 largeArea.head.lpt
      largeWriter).lsaves, 270 ∈ lsave := by
  obtain ⟨g, hinit, hb⟩ := large_init
  refine ⟨g, hinit, hb, largeArea_finalize, largeArea_head_lnum, ?_⟩
  rw [logLpt_lsaves hb]
  exact ⟨_, List.mem_cons_self, List.mem_map.mpr ⟨255, List.mem_range.mpr (by decide), rfl⟩⟩

/-- Nodes that take 300 whole LEBs. -/
def fullData : List Op := List.replicate 300 (.node (zeroNode 1#8 126952))

def fullArea : MainArea :=
  (MainArea.init largeVolume (fun _ => 0#8) (fun _ _ => 0#8) fun _ => ⟨0, 0, 0⟩).write largeVolume
    fullData emptyIndex

/-- A node that takes a whole LEB closes the one before it. -/
theorem spots_full {leb_size : ℕ} (h0 : leb_size ≠ 0) (h8 : align leb_size 8 = leb_size) (n lnum : ℕ)
    (places : List Place) :
    ∃ places', (List.replicate n (some leb_size)).foldl (Spots.op leb_size) ⟨lnum, leb_size, places⟩ =
      ⟨lnum+n, leb_size, places'⟩ := by
  induction n generalizing lnum places with
  | zero => exact ⟨places, rfl⟩
  | succ n ih =>
    obtain ⟨places', hfold⟩ := ih (lnum+1) (places ++ [⟨lnum+1, 0⟩])
    have hop : Spots.op leb_size ⟨lnum, leb_size, places⟩ (some leb_size) =
        ⟨lnum+1, leb_size, places ++ [⟨lnum+1, 0⟩]⟩ := by
      have hlt : leb_size < leb_size+leb_size := by omega
      rw [Spots.op, if_pos hlt, Spots.flush, if_neg h0, Spots.append, h8, Nat.zero_add]
    refine ⟨places', ?_⟩
    rw [List.replicate_succ, List.foldl_cons, hop, hfold, Nat.add_assoc, Nat.add_comm 1 n]

theorem fullArea_head_lnum : fullArea.head.head_lnum = 317 := by
  have hdata : fullData.map Op.len = some 126976 :: List.replicate 299 (some 126976) := by
    rw [fullData, List.map_replicate, ← List.replicate_succ, Op.len, zeroNode_len]
  have hfirst : Spots.op 126976 ⟨15, 0, []⟩ (some 126976) = ⟨15, 126976, [⟨15, 0⟩]⟩ := rfl
  have hfold : ∃ places, (fullData.map Op.len).foldl (Spots.op 126976) ⟨15, 0, []⟩ =
      ⟨314, 126976, places⟩ := by
    rw [hdata, List.foldl_cons, hfirst]
    exact spots_full (by decide) rfl 299 15 [⟨15, 0⟩]
  obtain ⟨places, hfold⟩ := hfold
  rw [← spots_lnum, fullArea, spots_write]
  change (Spots.write 126976 (fullData.map Op.len) [some 28] ⟨15, 0, []⟩).lnum = 317
  rw [Spots.write, hfold]
  rfl

theorem fullArea_finalize :
    finalizeLebCnt largeVolume fullArea.head = .ok { largeVolume with main_lebs := 302 } := by
  unfold finalizeLebCnt
  rw [fullArea_head_lnum]
  rfl

/-- The table is right where 302 LEBs were written, and wrong where only three were. -/
theorem lsave_lebs_iff_large : ∃ g, UbifsMkfs.initInfo largeOptions = .ok (largeVolume, g) ∧
    (15+LSAVE_CNT ≤ fullArea.head.head_lnum ∧
      ∀ lsave ∈ (logLpt { largeVolume with main_lebs := 302 } g 8 15 302 fullArea.head.lpt
        largeWriter).lsaves, ∀ lnum ∈ lsave, 15 ≤ lnum ∧ lnum < fullArea.head.head_lnum) ∧
    ¬15+LSAVE_CNT ≤ largeArea.head.head_lnum ∧
      ¬∀ lsave ∈ (logLpt { largeVolume with main_lebs := 3 } g 8 15 3 largeArea.head.lpt
        largeWriter).lsaves, ∀ lnum ∈ lsave, 15 ≤ lnum ∧ lnum < largeArea.head.head_lnum := by
  obtain ⟨g, hinit, hb⟩ := large_init
  have hiff := lsave_lebs_iff largeOptions hinit largeVolume_accepted hb
  have hfull : 15+LSAVE_CNT ≤ fullArea.head.head_lnum := by
    rw [fullArea_head_lnum]
    decide
  have hlarge : ¬15+LSAVE_CNT ≤ largeArea.head.head_lnum := by
    rw [largeArea_head_lnum]
    decide
  refine ⟨g, hinit, ⟨hfull, ?_⟩, hlarge, fun h => hlarge ?_⟩
  · exact (hiff _ _ _ _ _ _ fullArea_finalize largeWriter).2.mpr hfull
  · exact (hiff _ _ _ _ _ _ largeArea_finalize largeWriter).2.mp h

end Large

end ChipTools.Ubifs
