import ChipTools.Crc32

/-! The head of the main area in `mkfs.ubifs`: nodes are put into a buffer of one LEB, which
is padded and written when the next node does not fit. -/
namespace ChipTools.Ubifs
open Bytes

def UBIFS_CRC32_INIT : BitVec 32 := 0xFFFFFFFF#32
def UBIFS_NODE_MAGIC : ℕ := 0x06101831
def UBIFS_PAD_NODE : Byte := 5#8
def UBIFS_IDX_NODE : Byte := 9#8
def UBIFS_NO_NODE_GROUP : Byte := 0#8
def UBIFS_PADDING_BYTE : Byte := 0xCE#8
def UBIFS_PAD_NODE_SZ : ℕ := 28
def UBIFS_DATA_NODE_SZ : ℕ := 48
def MIN_WRITE_SZ : ℕ := UBIFS_DATA_NODE_SZ+8
def LPROPS_INDEX : ℕ := 32

/-- `ALIGN` for a power of two. -/
def align (x a : ℕ) : ℕ := (x+a-1)/a*a

/-- The parameters of the file system that the writers use. -/
structure UbifsInfo where
  min_io_size : ℕ
  leb_size : ℕ
  max_leb_cnt : ℕ
  fanout : ℕ
  main_first : ℕ
  main_lebs : ℕ
  dead_wm : ℕ
  dark_wm : ℕ

/-- What `validate_options` asks of the sizes and the fanout. -/
structure UbifsInfo.Accepted (c : UbifsInfo) : Prop where
  min_io : ∃ k, c.min_io_size = 2^k
  min_io_le : c.min_io_size ≤ c.leb_size
  leb_min : 15*1024 ≤ c.leb_size
  leb_io : c.leb_size%c.min_io_size = 0
  leb_eight : c.leb_size%8 = 0
  leb_max : c.leb_size ≤ 2*1024*1024
  fanout_min : 3 ≤ c.fanout
  fanout_max : c.fanout ≤ (c.leb_size-28)/28
  -- an `int`
  leb_cnt : c.max_leb_cnt < 2^31

theorem UbifsInfo.Accepted.min_io_pos {c : UbifsInfo} (hc : c.Accepted) : 0 < c.min_io_size := by
  obtain ⟨k, hk⟩ := hc.min_io
  rw [hk]
  exact Nat.two_pow_pos k

structure Lprops where
  free : ℤ
  dirty : ℤ
  flags : ℕ

/-- The totals of `c->lst`. -/
structure LpStats where
  total_free : ℤ
  total_dirty : ℤ
  total_used : ℤ
  total_dead : ℤ
  total_dark : ℤ
  idx_lebs : ℕ

/-- The write head. `image` holds the LEBs that have been written. -/
structure Head where
  head_lnum : ℕ
  head_offs : ℕ
  head_flags : ℕ
  leb_buf : ℕ → Byte
  image : ℕ → ℕ → Byte
  max_sqnum : ℕ
  lpt : ℕ → Lprops
  lst : LpStats

/-- A node with its common header, as `prepare_node` completes it: the CRC is over all that
follows it. -/
def preparedNode (sqnum : ℕ) (node_type : Byte) (body : List Byte) : List Byte :=
  let rest := le 8 sqnum ++ (le 4 (24+body.length) ++
    ([node_type, UBIFS_NO_NODE_GROUP, 0#8, 0#8] ++ body))
  le 4 UBIFS_NODE_MAGIC ++ (le 4 (mtdCrc32 UBIFS_CRC32_INIT rest).toNat ++ rest)

/-- `do_pad`: the buffer padded to the minimum I/O size, and its length then. -/
def doPad (c : UbifsInfo) (buf : ℕ → Byte) (len : ℕ) : (ℕ → Byte) × ℕ :=
  let alen := align len 8
  let wlen := align alen c.min_io_size
  let buf := setTo buf len (alen-len) 0xff#8
  let pad_len := wlen-alen
  if UBIFS_PAD_NODE_SZ ≤ pad_len then
    let node := preparedNode 0 UBIFS_PAD_NODE (le 4 (pad_len-UBIFS_PAD_NODE_SZ))
    (setTo (copyTo buf alen node) (alen+UBIFS_PAD_NODE_SZ) (pad_len-UBIFS_PAD_NODE_SZ) 0#8, wlen)
  else (setTo buf alen pad_len UBIFS_PADDING_BYTE, wlen)

/-- `write_leb`, with the rest of the LEB set to ones. -/
def writeLeb (c : UbifsInfo) (lnum len : ℕ) (s : Head) : Head :=
  let buf := setTo s.leb_buf len (c.leb_size-len) 0xff#8
  { s with leb_buf := buf, image := fun l => if l = lnum then buf else s.image l }

def calcDark (c : UbifsInfo) (spc : ℤ) : ℤ :=
  if spc < c.dark_wm then spc
  else if spc-c.dark_wm < MIN_WRITE_SZ then spc-MIN_WRITE_SZ
  else c.dark_wm

/-- `set_lprops` for a LEB with data up to `offs`. -/
def setLprops (c : UbifsInfo) (lnum offs flags : ℕ) (s : Head) : Head :=
  let free : ℤ := c.leb_size-align offs (max c.min_io_size 8)
  let dirty : ℤ := c.leb_size-free-align offs 8
  let spc := free+dirty
  let lpt := if lnum-c.main_first < c.main_lebs then
    fun i => if i = lnum-c.main_first then ⟨free, dirty, flags⟩ else s.lpt i else s.lpt
  let lst := { s.lst with total_free := s.lst.total_free+free
                          total_dirty := s.lst.total_dirty+dirty }
  let lst :=
    if flags &&& LPROPS_INDEX ≠ 0 then { lst with idx_lebs := lst.idx_lebs+1 }
    else
      let lst := if spc < c.dead_wm then { lst with total_dead := lst.total_dead+spc }
        else { lst with total_dark := lst.total_dark+calcDark c spc }
      { lst with total_used := lst.total_used+(c.leb_size-spc) }
  { s with lpt := lpt, lst := lst }

/-- `flush_nodes`, with the LEB written. -/
def flushNodes (c : UbifsInfo) (s : Head) : Head :=
  if s.head_offs = 0 then s
  else
    let padded := doPad c s.leb_buf s.head_offs
    let s := writeLeb c s.head_lnum padded.2 { s with leb_buf := padded.1 }
    let s := setLprops c s.head_lnum s.head_offs s.head_flags s
    { s with head_lnum := s.head_lnum+1, head_offs := 0 }

/-- A place in the main area. -/
structure Place where
  lnum : ℕ
  offs : ℕ
deriving DecidableEq, Repr

/-- `reserve_space`: the place for a node of `len` bytes. -/
def reserveSpace (c : UbifsInfo) (len : ℕ) (s : Head) : Place × Head :=
  let s := if (c.leb_size : ℤ)-s.head_offs < len then flushNodes c s else s
  (⟨s.head_lnum, s.head_offs⟩, { s with head_offs := s.head_offs+align len 8 })

/-- What `add_node` and `add_idx_node` do with the head: the node is prepared with the next
sequence number, and copied to the buffer. -/
def putNode (c : UbifsInfo) (node_type : Byte) (body : List Byte) (s : Head) : Place × Head :=
  let node := preparedNode (s.max_sqnum+1) node_type body
  let (p, s) := reserveSpace c node.length { s with max_sqnum := s.max_sqnum+1 }
  let buf := copyTo s.leb_buf p.offs node
  (p, { s with leb_buf := setTo buf (p.offs+node.length) (align node.length 8-node.length) 0xff#8 })

/-- `finalize_leb_cnt`: the count of LEBs must not be above the maximum. -/
def finalizeLebCnt (c : UbifsInfo) (s : Head) : Except String UbifsInfo :=
  let leb_cnt := s.head_lnum
  if c.max_leb_cnt < leb_cnt then
    .error ("max_leb_cnt too low (" ++ toString leb_cnt ++ " needed)")
  else .ok { c with main_lebs := leb_cnt-c.main_first }

/-- The bytes of a place: in the buffer for the LEB at the head, else in the image. -/
def Head.byte (s : Head) (lnum offs : ℕ) : Byte :=
  if lnum = s.head_lnum then s.leb_buf offs else s.image lnum offs

section Align

theorem le_align (x : ℕ) {a : ℕ} (ha : 0 < a) : x ≤ align x a := by
  unfold align
  have := Nat.div_add_mod (x+a-1) a
  have := Nat.mod_lt (x+a-1) ha
  rw [Nat.mul_comm]
  omega

/-- The aligned size is the least multiple. -/
theorem align_le {x a b : ℕ} (ha : 0 < a) (hx : x ≤ b) (hb : b%a = 0) : align x a ≤ b := by
  unfold align
  have hd : b = b/a*a := (Nat.div_mul_cancel (Nat.dvd_of_mod_eq_zero hb)).symm
  rw [hd]
  apply Nat.mul_le_mul_right
  rw [Nat.div_le_iff_le_mul_add_pred ha]
  have : a*(b/a) = b := by rw [Nat.mul_comm]; exact hd.symm
  omega

theorem align_mod (x : ℕ) (a : ℕ) : align x a%a = 0 := Nat.mul_mod_left _ _

end Align

section Head

variable {c : UbifsInfo} {s : Head}

/-- The head lies in its LEB, on an eight-byte boundary. -/
structure Head.Fits (c : UbifsInfo) (s : Head) : Prop where
  offs_le : s.head_offs ≤ c.leb_size
  offs_mod : s.head_offs%8 = 0

/-- What has been written: all before the head. -/
def Head.Below (s : Head) (lnum offs : ℕ) : Prop :=
  lnum < s.head_lnum ∨ (lnum = s.head_lnum ∧ offs < s.head_offs)

/-- What was written before stays readable. -/
def Head.Keeps (s s' : Head) : Prop :=
  ∀ lnum offs, s.Below lnum offs → s'.byte lnum offs = s.byte lnum offs ∧ s'.Below lnum offs

theorem Head.Keeps.refl (s : Head) : s.Keeps s := fun _ _ h => ⟨rfl, h⟩

theorem Head.Keeps.trans {s s' s'' : Head} (h : s.Keeps s') (h' : s'.Keeps s'') : s.Keeps s'' := by
  intro lnum offs hb
  obtain ⟨he, hb'⟩ := h lnum offs hb
  obtain ⟨he', hb''⟩ := h' lnum offs hb'
  exact ⟨he'.trans he, hb''⟩

theorem le_doPad (hio : 0 < c.min_io_size) (buf : ℕ → Byte) (len : ℕ) :
    len ≤ (doPad c buf len).2 := by
  have h8 := le_align len (a := 8) (by decide)
  have hio := le_align (align len 8) hio
  unfold doPad
  dsimp only
  split <;> exact h8.trans hio

/-- Padding is behind the data. -/
theorem doPad_below {buf : ℕ → Byte} {len x : ℕ} (hx : x < len) :
    (doPad c buf len).1 x = buf x := by
  have h8 := le_align len (a := 8) (by decide)
  unfold doPad
  dsimp only
  split
  · dsimp only
    rw [setTo_below (by omega), copyTo_below (by omega), setTo_below hx]
  · dsimp only
    rw [setTo_below (by omega), setTo_below hx]

@[simp] theorem setLprops_head_lnum (lnum offs flags : ℕ) :
    (setLprops c lnum offs flags s).head_lnum = s.head_lnum := rfl

@[simp] theorem setLprops_image (lnum offs flags : ℕ) :
    (setLprops c lnum offs flags s).image = s.image := rfl

theorem flushNodes_head_lnum (h : s.head_offs ≠ 0) :
    (flushNodes c s).head_lnum = s.head_lnum+1 := by
  rw [flushNodes, if_neg h]
  rfl

theorem flushNodes_head_offs : (flushNodes c s).head_offs = 0 := by
  rw [flushNodes]
  split
  · assumption
  · rfl

theorem flushNodes_max_sqnum : (flushNodes c s).max_sqnum = s.max_sqnum := by
  rw [flushNodes]
  split <;> rfl

theorem flushNodes_keeps (hio : 0 < c.min_io_size) : s.Keeps (flushNodes c s) := by
  by_cases h0 : s.head_offs = 0
  · rw [flushNodes, if_pos h0]
    exact Head.Keeps.refl s
  intro lnum offs hb
  have hl := flushNodes_head_lnum (c := c) h0
  have hle : lnum ≤ s.head_lnum := by
    rcases hb with hb | ⟨hb, -⟩ <;> omega
  refine ⟨?_, Or.inl (by omega)⟩
  rw [Head.byte, if_neg (by omega), flushNodes, if_neg h0]
  rcases hb with hb | ⟨rfl, hb⟩
  · simp only [setLprops_image, writeLeb, Head.byte, if_neg (Nat.ne_of_lt hb)]
  · have hlen := le_doPad hio s.leb_buf s.head_offs
    simp only [setLprops_image, writeLeb, Head.byte, if_true]
    rw [setTo_below (by omega), doPad_below hb]

/-- After a flush everything written is in the image. -/
theorem flushNodes_image {lnum offs : ℕ} (h : (flushNodes c s).Below lnum offs) :
    (flushNodes c s).byte lnum offs = (flushNodes c s).image lnum offs := by
  have h0 := flushNodes_head_offs (c := c) (s := s)
  rcases h with h | ⟨-, h⟩
  · exact if_neg (Nat.ne_of_lt h)
  · omega

/-- The head as a place. -/
def Head.place (s : Head) : Place := ⟨s.head_lnum, s.head_offs⟩

/-- The place that a node of `len` bytes gets with the head at `p`. -/
def fit (c : UbifsInfo) (p : Place) (len : ℕ) : Place :=
  if c.leb_size < p.offs+len then ⟨p.lnum+1, 0⟩ else p

/-- Behind a node of `len` bytes at `p`. -/
def behind (p : Place) (len : ℕ) : Place := ⟨p.lnum, p.offs+align len 8⟩

theorem fit_le {p : Place} {len : ℕ} (hlen : len ≤ c.leb_size) :
    (fit c p len).offs+len ≤ c.leb_size := by
  unfold fit
  split
  · rw [Nat.zero_add]
    exact hlen
  · omega

/-- What putting `node` does to the head. -/
structure PutSpec (c : UbifsInfo) (node : List Byte) (s : Head) (p : Place) (s' : Head) : Prop where
  place : p = fit c s.place node.length
  head : s'.place = behind p node.length
  fits : s'.Fits c
  keeps : s.Keeps s'
  bytes : readBytes (s'.byte p.lnum) p.offs node.length = node
  below : ∀ i < node.length, s'.Below p.lnum (p.offs+i)

/-- The head where the node goes, before it is copied. -/
theorem reserveSpace_spec (hio : 0 < c.min_io_size) (hs : s.Fits c) {len : ℕ}
    (hlen : len ≤ c.leb_size) :
    ∃ s₁ : Head, reserveSpace c len s =
        (s₁.place, { s₁ with head_offs := s₁.head_offs+align len 8 }) ∧
      s₁.place = fit c s.place len ∧ s.Keeps s₁ ∧ s₁.head_offs%8 = 0 := by
  by_cases h : c.leb_size < s.head_offs+len
  · have h0 : s.head_offs ≠ 0 := by omega
    refine ⟨flushNodes c s, ?_, ?_, flushNodes_keeps hio, ?_⟩
    · rw [reserveSpace, if_pos (by omega)]
      rfl
    · rw [fit, Head.place, Head.place, if_pos h, flushNodes_head_lnum h0, flushNodes_head_offs]
    · rw [flushNodes_head_offs]
  · refine ⟨s, ?_, ?_, Head.Keeps.refl s, hs.offs_mod⟩
    · rw [reserveSpace, if_neg (by omega)]
      rfl
    · rw [fit, if_neg (by simpa [Head.place] using h)]

theorem preparedNode_eq (sqnum : ℕ) (node_type : Byte) (body : List Byte) :
    ∃ (rest : List Byte) (crc : BitVec 32),
      preparedNode sqnum node_type body = le 4 UBIFS_NODE_MAGIC ++ (le 4 crc.toNat ++ rest) ∧
      crc = mtdCrc32 UBIFS_CRC32_INIT rest ∧
      rest = le 8 sqnum ++ (le 4 (24+body.length) ++
        ([node_type, UBIFS_NO_NODE_GROUP, 0#8, 0#8] ++ body)) :=
  ⟨_, _, rfl, rfl, rfl⟩

theorem preparedNode_length (sqnum : ℕ) (node_type : Byte) (body : List Byte) :
    (preparedNode sqnum node_type body).length = 24+body.length := by
  simp only [preparedNode, List.length_append, le_length, List.length_cons, List.length_nil]
  omega

theorem putNode_spec (hc : c.Accepted) (hs : s.Fits c) (node_type : Byte) {body : List Byte}
    (hlen : 24+body.length ≤ c.leb_size) :
    PutSpec c (preparedNode (s.max_sqnum+1) node_type body) s
      (putNode c node_type body s).1 (putNode c node_type body s).2 := by
  have hio : 0 < c.min_io_size := by
    obtain ⟨k, hk⟩ := hc.min_io
    rw [hk]
    exact Nat.two_pow_pos k
  generalize hn : preparedNode (s.max_sqnum+1) node_type body = node
  have hnl : node.length ≤ c.leb_size := by
    rw [← hn, preparedNode_length]
    exact hlen
  have hs' : ({ s with max_sqnum := s.max_sqnum+1 } : Head).Fits c := ⟨hs.offs_le, hs.offs_mod⟩
  obtain ⟨s₁, hr, hp, hk, hm⟩ := reserveSpace_spec hio hs' hnl
  have hfit : s₁.head_offs+node.length ≤ c.leb_size := by
    have := fit_le (c := c) (p := Head.place { s with max_sqnum := s.max_sqnum+1 }) hnl
    rwa [← hp] at this
  have hal := le_align node.length (a := 8) (by decide)
  have ham := align_mod node.length 8
  simp only [putNode, hn, hr]
  constructor
  · exact hp
  · rfl
  · refine ⟨?_, by dsimp only; omega⟩
    have := align_le (a := 8) (by decide) hfit hc.leb_eight
    have hsum : align (s₁.head_offs+node.length) 8 = s₁.head_offs+align node.length 8 := by
      unfold align
      omega
    dsimp only
    omega
  · intro lnum offs hb
    obtain ⟨he, hb'⟩ := hk lnum offs hb
    refine ⟨?_, ?_⟩
    · refine Eq.trans ?_ he
      unfold Head.byte
      dsimp only [Head.place]
      split
      · rcases hb' with hb' | ⟨-, hb'⟩
        · omega
        · rw [setTo_below (by omega), copyTo_below hb']
      · rfl
    · rcases hb' with hb' | ⟨hl, hb'⟩
      · exact Or.inl hb'
      · exact Or.inr ⟨hl, by dsimp only; omega⟩
  · apply readBytes_eq
    intro i hi
    dsimp only [Head.byte, Head.place]
    rw [if_pos rfl, setTo_below (by omega), copyTo_get i hi]
  · intro i hi
    exact Or.inr ⟨rfl, by dsimp only [Head.place]; omega⟩

end Head

end ChipTools.Ubifs
