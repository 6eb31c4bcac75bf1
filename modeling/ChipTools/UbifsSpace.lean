import ChipTools.UbifsMain
import Mathlib.Algebra.BigOperators.Intervals
import Mathlib.Algebra.BigOperators.Ring.Finset
import Mathlib.Algebra.Order.BigOperators.Group.Finset
import Mathlib.Tactic.Linarith

/-! The space accounting of `mkfs`: the properties of each LEB of the main area are set once,
and the totals of the master node add up to the main area. -/
namespace ChipTools.Ubifs
open Bytes

/-- The totals as `write_master` stores them. -/
structure MstTotals where
  index_size : BitVec 64
  empty_lebs : BitVec 32
  idx_lebs : BitVec 32
  total_free : BitVec 64
  total_dirty : BitVec 64
  total_used : BitVec 64

def MainArea.mst (a : MainArea) : MstTotals :=
  ⟨BitVec.ofNat 64 a.old_idx_sz, BitVec.ofNat 32 a.empty_lebs, BitVec.ofNat 32 a.head.lst.idx_lebs,
    BitVec.ofInt 64 a.head.lst.total_free, BitVec.ofInt 64 a.head.lst.total_dirty,
    BitVec.ofInt 64 a.head.lst.total_used⟩

/-- The aligned lengths of the nodes in a LEB. -/
def MainArea.used (a : MainArea) (lnum : ℕ) : ℕ :=
  ((a.recordsIn lnum).map fun r => align r.bytes.length 8).sum

/-- `free` and `dirty` of a LEB with data up to `offs`. -/
def freeOf (c : UbifsInfo) (offs : ℕ) : ℤ := c.leb_size-align offs (max c.min_io_size 8)
def dirtyOf (c : UbifsInfo) (offs : ℕ) : ℤ := c.leb_size-freeOf c offs-align offs 8

section Step

variable {c : UbifsInfo} {s : Head} {a : MainArea}

/-- Both are there, and with the data they make up the LEB. -/
theorem space_of_leb (hc : c.Accepted) {offs : ℕ} (hle : offs ≤ c.leb_size) (h8 : offs%8 = 0) :
    0 ≤ freeOf c offs ∧ 0 ≤ dirtyOf c offs ∧ freeOf c offs+dirtyOf c offs+offs = c.leb_size := by
  have hal : align offs 8 = offs := align_of_mod (by decide) h8
  have hpos : 0 < max c.min_io_size 8 := by omega
  have hmod : c.leb_size%max c.min_io_size 8 = 0 := by
    rcases Nat.le_total c.min_io_size 8 with h | h
    · rw [max_eq_right h]
      exact hc.leb_eight
    · rw [max_eq_left h]
      exact hc.leb_io
  have h1 := align_le hpos hle hmod
  have h2 := le_align offs hpos
  unfold dirtyOf freeOf
  omega

/-- The flags of a LEB. -/
def flagsOf (idx : Bool) : ℕ := if idx then LPROPS_INDEX else 0

/-- What `set_lprops` does to the totals and to the properties of one LEB. -/
structure SetSpec (c : UbifsInfo) (lnum offs : ℕ) (idx : Bool) (s s' : Head) : Prop where
  total_free : s'.lst.total_free = s.lst.total_free+freeOf c offs
  total_dirty : s'.lst.total_dirty = s.lst.total_dirty+dirtyOf c offs
  total_used : s'.lst.total_used = s.lst.total_used+
    if idx then 0 else c.leb_size-(freeOf c offs+dirtyOf c offs)
  idx_lebs : s'.lst.idx_lebs = s.lst.idx_lebs+if idx then 1 else 0
  set : lnum-c.main_first < c.main_lebs →
    s'.lpt (lnum-c.main_first) = ⟨freeOf c offs, dirtyOf c offs, flagsOf idx⟩
  other : ∀ i, i ≠ lnum-c.main_first → s'.lpt i = s.lpt i

theorem setLprops_spec (lnum offs : ℕ) (idx : Bool) :
    SetSpec c lnum offs idx s (setLprops c lnum offs (flagsOf idx) s) := by
  have hlpt : (setLprops c lnum offs (flagsOf idx) s).lpt =
      if lnum-c.main_first < c.main_lebs then
        fun i => if i = lnum-c.main_first then ⟨freeOf c offs, dirtyOf c offs, flagsOf idx⟩
          else s.lpt i
      else s.lpt := rfl
  have hset : lnum-c.main_first < c.main_lebs → (setLprops c lnum offs (flagsOf idx) s).lpt
      (lnum-c.main_first) = ⟨freeOf c offs, dirtyOf c offs, flagsOf idx⟩ := by
    intro hi
    rw [hlpt, if_pos hi, if_pos rfl]
  have hother : ∀ i, i ≠ lnum-c.main_first →
      (setLprops c lnum offs (flagsOf idx) s).lpt i = s.lpt i := by
    intro i hi
    rw [hlpt]
    split
    · exact if_neg hi
    · rfl
  cases idx with
  | true => exact ⟨rfl, rfl, (add_zero _).symm, rfl, hset, hother⟩
  | false =>
    -- dead and dark space are counted apart
    have hlst : ∃ dead dark, (setLprops c lnum offs (flagsOf false) s).lst =
        ⟨s.lst.total_free+freeOf c offs, s.lst.total_dirty+dirtyOf c offs,
          s.lst.total_used+(c.leb_size-(freeOf c offs+dirtyOf c offs)), dead, dark,
          s.lst.idx_lebs⟩ := by
      have heq : (setLprops c lnum offs (flagsOf false) s).lst =
          let lst : LpStats := { s.lst with
            total_free := s.lst.total_free+freeOf c offs
            total_dirty := s.lst.total_dirty+dirtyOf c offs }
          let spc := freeOf c offs+dirtyOf c offs
          let lst := if spc < c.dead_wm then { lst with total_dead := lst.total_dead+spc }
            else { lst with total_dark := lst.total_dark+calcDark c spc }
          { lst with total_used := lst.total_used+(c.leb_size-spc) } := rfl
      rw [heq]
      by_cases h : freeOf c offs+dirtyOf c offs < c.dead_wm
      · dsimp only
        rw [if_pos h]
        exact ⟨_, _, rfl⟩
      · dsimp only
        rw [if_neg h]
        exact ⟨_, _, rfl⟩
    obtain ⟨dead, dark, hlst⟩ := hlst
    refine ⟨?_, ?_, ?_, ?_, hset, hother⟩ <;> rw [hlst] <;> rfl

end Step

section Run

variable {c : UbifsInfo} {isIdx : ℕ → Bool} {a a' : MainArea}

/-- The properties and the totals are those of the LEBs before the head. `isIdx` tells the
LEBs of the index. -/
structure SpaceInv (c : UbifsInfo) (isIdx : ℕ → Bool) (a : MainArea) : Prop where
  main : MainInv c a
  lebs : a.lebs = List.range' c.main_first (a.head.head_lnum-c.main_first)
  used_le : ∀ lnum, a.used lnum ≤ c.leb_size
  lpt : ∀ lnum, c.main_first ≤ lnum → lnum < a.head.head_lnum → lnum-c.main_first < c.main_lebs →
    a.head.lpt (lnum-c.main_first) =
      ⟨freeOf c (a.used lnum), dirtyOf c (a.used lnum), flagsOf (isIdx lnum)⟩
  total_free : a.head.lst.total_free =
    ∑ lnum ∈ Finset.Ico c.main_first a.head.head_lnum, freeOf c (a.used lnum)
  total_dirty : a.head.lst.total_dirty =
    ∑ lnum ∈ Finset.Ico c.main_first a.head.head_lnum, dirtyOf c (a.used lnum)
  total_used : a.head.lst.total_used =
    ∑ lnum ∈ Finset.Ico c.main_first a.head.head_lnum, if isIdx lnum then 0 else (a.used lnum : ℤ)
  idx_lebs : a.head.lst.idx_lebs =
    ∑ lnum ∈ Finset.Ico c.main_first a.head.head_lnum, if isIdx lnum then 1 else 0
  old_idx_sz : a.old_idx_sz =
    ∑ lnum ∈ Finset.Ico c.main_first (a.head.head_lnum+1), if isIdx lnum then a.used lnum else 0
  -- what is written next is of the same kind
  flags : ∀ lnum, a.head.head_lnum ≤ lnum → a.head.head_flags = flagsOf (isIdx lnum)

theorem used_eq_length (a : MainArea) (lnum : ℕ) :
    a.used lnum = (stream (a.recordsIn lnum)).length := by
  rw [MainArea.used, stream, List.length_flatMap]
  congr 1
  exact List.map_congr_left fun r _ => (padded_length r).symm

theorem used_mod (a : MainArea) (lnum : ℕ) : a.used lnum%8 = 0 := by
  unfold MainArea.used
  induction a.recordsIn lnum with
  | nil => rfl
  | cons r rs ih =>
    have := align_mod r.bytes.length 8
    rw [List.map_cons, List.sum_cons]
    omega

theorem MainInv.used_head (h : MainInv c a) : a.used a.head.head_lnum = a.head.head_offs := by
  rw [used_eq_length, ← h.buffer, readBytes_length]

theorem MainInv.used_above (h : MainInv c a) {lnum : ℕ} (hl : a.head.head_lnum < lnum) :
    a.used lnum = 0 := by
  have hnil : a.recordsIn lnum = [] := by
    apply List.filter_eq_nil_iff.mpr
    intro r hr
    have := (h.placed r hr).last
    simp only [decide_eq_true_eq]
    omega
  rw [MainArea.used, hnil]
  rfl

/-- A LEB is closed: its properties are set, and the head moves on. -/
structure Closes (c : UbifsInfo) (idx : Bool) (a a' : MainArea) : Prop where
  records : a'.records = a.records
  lebs : a'.lebs = a.lebs ++ [a.head.head_lnum]
  old_idx_sz : a'.old_idx_sz = a.old_idx_sz
  head_lnum : a'.head.head_lnum = a.head.head_lnum+1
  head_flags : a'.head.head_flags = a.head.head_flags
  set : SetSpec c a.head.head_lnum a.head.head_offs idx a.head a'.head

theorem SpaceInv.close (h : SpaceInv c isIdx a) (hc : c.Accepted) (hm : MainInv c a')
    (ha : Closes c (isIdx a.head.head_lnum) a a') : SpaceInv c isIdx a' := by
  have hfirst := h.main.first
  have hused (lnum : ℕ) : a'.used lnum = a.used lnum := by
    rw [MainArea.used, MainArea.recordsIn, ha.records]
    rfl
  have hhead := h.main.used_head
  obtain ⟨hfree, hdirty, hsum⟩ := space_of_leb hc h.main.fits.offs_le h.main.fits.offs_mod
  obtain ⟨stf, std, stu, sti, sset, sother⟩ := ha.set
  refine ⟨hm, ?_, ?_, ?_, ?_, ?_, ?_, ?_, ?_, ?_⟩
  · rw [ha.lebs, h.lebs, ha.head_lnum, Nat.sub_add_comm hfirst, List.range'_1_concat]
    congr
    omega
  · intro lnum
    rw [hused]
    exact h.used_le lnum
  · intro lnum h1 h2 h3
    rw [hused]
    rcases Nat.lt_or_eq_of_le (Nat.lt_succ_iff.mp (ha.head_lnum ▸ h2)) with hlt | rfl
    · rw [sother _ (by omega)]
      exact h.lpt lnum h1 hlt h3
    · rw [sset h3, hhead]
  · simp only [hused, ha.head_lnum]
    rw [Finset.sum_Ico_succ_top hfirst, stf, h.total_free, hhead]
  · simp only [hused, ha.head_lnum]
    rw [Finset.sum_Ico_succ_top hfirst, std, h.total_dirty, hhead]
  · simp only [hused, ha.head_lnum]
    rw [Finset.sum_Ico_succ_top hfirst, stu, h.total_used, hhead]
    congr 2
    omega
  · simp only [ha.head_lnum]
    rw [Finset.sum_Ico_succ_top hfirst, sti, h.idx_lebs]
  · simp only [hused, ha.head_lnum]
    rw [Finset.sum_Ico_succ_top (by omega), ha.old_idx_sz, h.old_idx_sz,
      h.main.used_above (Nat.lt_succ_self _), ite_self, add_zero]
  · intro lnum hl
    rw [ha.head_flags]
    exact h.flags lnum (by have := ha.head_lnum; omega)

theorem flushNodes_spec {s : Head} (h0 : s.head_offs ≠ 0) {idx : Bool}
    (hf : s.head_flags = flagsOf idx) :
    SetSpec c s.head_lnum s.head_offs idx s (flushNodes c s) := by
  let w := writeLeb c s.head_lnum (doPad c s.leb_buf s.head_offs).2
    { s with leb_buf := (doPad c s.leb_buf s.head_offs).1 }
  have hrun : flushNodes c s = { setLprops c s.head_lnum s.head_offs (flagsOf idx) w with
      head_lnum := s.head_lnum+1, head_offs := 0 } := by
    rw [flushNodes, if_neg h0, ← hf]
    rfl
  have hspec := setLprops_spec (c := c) (s := w) s.head_lnum s.head_offs idx
  rw [hrun]
  exact ⟨hspec.total_free, hspec.total_dirty, hspec.total_used, hspec.idx_lebs, hspec.set,
    hspec.other⟩

theorem SpaceInv.flush (h : SpaceInv c isIdx a) (hc : c.Accepted) :
    SpaceInv c isIdx (a.flush c) := by
  by_cases h0 : a.head.head_offs = 0
  · have hf : a.flush c = a := by
      unfold MainArea.flush flushedLeb flushNodes
      rw [if_pos h0, if_pos h0, List.append_nil]
    rw [hf]
    exact h
  · have hset := flushNodes_spec (c := c) h0 (h.flags _ (le_refl _))
    refine h.close hc (h.main.flush hc) ⟨rfl, ?_, rfl, flushNodes_head_lnum h0, ?_, hset⟩
    · rw [MainArea.flush, flushedLeb, if_neg h0]
    · change (flushNodes c a.head).head_flags = _
      rw [flushNodes, if_neg h0]
      rfl

theorem SpaceInv.setGcLnum (h : SpaceInv c isIdx a) (hc : c.Accepted)
    (h0 : a.head.head_offs = 0) (hdata : isIdx a.head.head_lnum = false) :
    SpaceInv c isIdx (a.setGcLnum c) := by
  refine h.close hc (h.main.setGcLnum h0) ⟨rfl, rfl, rfl, rfl, rfl, ?_⟩
  rw [hdata, h0]
  obtain ⟨h1, h2, h3, h4, h5, h6⟩ := setLprops_spec (c := c) a.head.head_lnum 0 false
    (s := writeLeb c a.head.head_lnum 0 { a.head with head_lnum := a.head.head_lnum+1 })
  exact ⟨h1, h2, h3, h4, h5, h6⟩

/-- The kind of what comes next is changed where the LEB at the head is empty. -/
theorem SpaceInv.setFlags (h : SpaceInv c isIdx a) (h0 : a.head.head_offs = 0)
    {isIdx' : ℕ → Bool} {idx : Bool} (hold : ∀ lnum < a.head.head_lnum, isIdx' lnum = isIdx lnum)
    (hnew : ∀ lnum, a.head.head_lnum ≤ lnum → isIdx' lnum = idx) :
    SpaceInv c isIdx' (a.setFlags (flagsOf idx)) := by
  have hhead := h.main.used_head
  have hsum {M : Type} [AddCommMonoid M] (f g : ℕ → M) :
      ∑ lnum ∈ Finset.Ico c.main_first a.head.head_lnum, (if isIdx' lnum then f lnum else g lnum) =
        ∑ lnum ∈ Finset.Ico c.main_first a.head.head_lnum, if isIdx lnum then f lnum else g lnum := by
    apply Finset.sum_congr rfl
    intro lnum hl
    rw [hold lnum (Finset.mem_Ico.mp hl).2]
  refine ⟨h.main.setFlags _, h.lebs, h.used_le, ?_, h.total_free, h.total_dirty,
    h.total_used.trans (hsum _ _).symm, h.idx_lebs.trans (hsum _ _).symm, ?_, ?_⟩
  · intro lnum h1 h2 h3
    rw [hold lnum h2]
    exact h.lpt lnum h1 h2 h3
  · refine h.old_idx_sz.trans ?_
    have hfirst := h.main.first
    have hsame := hsum a.used fun _ => 0
    change _ = ∑ lnum ∈ Finset.Ico c.main_first (a.head.head_lnum+1),
      if isIdx' lnum then a.used lnum else 0
    rw [Finset.sum_Ico_succ_top hfirst, Finset.sum_Ico_succ_top hfirst, hsame, hhead, h0, ite_self,
      ite_self]
  · intro lnum hl
    rw [hnew lnum hl]
    rfl

theorem append_used_of_ne (n : Node) {lnum : ℕ} (hl : lnum ≠ a.head.head_lnum) :
    (a.append n).used lnum = a.used lnum := by
  unfold MainArea.used MainArea.recordsIn MainArea.append
  rw [List.filter_append, List.filter_cons_of_neg (by simp [Head.place, Ne.symm hl]),
    List.filter_nil, List.append_nil]

/-- A node at the head. -/
theorem SpaceInv.append (h : SpaceInv c isIdx a) (hc : c.Accepted) {n : Node} (hn : n.Fits c)
    (hfit : a.head.head_offs+n.len ≤ c.leb_size) :
    SpaceInv c isIdx { a.append n with
      old_idx_sz := a.old_idx_sz+if isIdx a.head.head_lnum then align n.len 8 else 0 } := by
  have hm := h.main.append hc hn hfit
  have hother (lnum : ℕ) (hl : lnum ≠ a.head.head_lnum) : (a.append n).used lnum = a.used lnum :=
    append_used_of_ne n hl
  have hhead : (a.append n).used a.head.head_lnum = a.used a.head.head_lnum+align n.len 8 := by
    have h1 : (a.append n).used a.head.head_lnum = a.head.head_offs+align n.len 8 := hm.used_head
    rw [h1, h.main.used_head]
  have hsum {M : Type} [AddCommMonoid M] (f : ℕ → ℕ → M) :
      ∑ lnum ∈ Finset.Ico c.main_first a.head.head_lnum, f lnum ((a.append n).used lnum) =
        ∑ lnum ∈ Finset.Ico c.main_first a.head.head_lnum, f lnum (a.used lnum) := by
    apply Finset.sum_congr rfl
    intro lnum hl
    rw [hother lnum (Nat.ne_of_lt (Finset.mem_Ico.mp hl).2)]
  obtain ⟨m1, m2, m3, m4, m5, m6⟩ := hm
  refine ⟨⟨m1, m2, m3, m4, m5, m6⟩, h.lebs, ?_, ?_, h.total_free.trans (hsum _).symm,
    h.total_dirty.trans (hsum _).symm,
    h.total_used.trans (hsum fun lnum used => if isIdx lnum then 0 else (used : ℤ)).symm,
    h.idx_lebs, ?_, h.flags⟩
  · intro lnum
    change (a.append n).used lnum ≤ _
    by_cases hl : lnum = a.head.head_lnum
    · have := m1.offs_le
      rw [hl, hhead, h.main.used_head]
      exact this
    · rw [hother lnum hl]
      exact h.used_le lnum
  · intro lnum h1 h2 h3
    change a.head.lpt _ = ⟨freeOf c ((a.append n).used lnum), dirtyOf c ((a.append n).used lnum), _⟩
    rw [hother lnum (Nat.ne_of_lt h2)]
    exact h.lpt lnum h1 h2 h3
  · have hfirst := h.main.first
    have hsame := hsum fun lnum used => if isIdx lnum then used else 0
    have hold := h.old_idx_sz
    change a.old_idx_sz+_ = ∑ lnum ∈ Finset.Ico c.main_first (a.head.head_lnum+1),
      if isIdx lnum then (a.append n).used lnum else 0
    rw [Finset.sum_Ico_succ_top hfirst] at hold ⊢
    rw [hsame, hhead, hold]
    cases isIdx a.head.head_lnum <;> simp [Nat.add_assoc]

theorem flush_head_lnum_le (a : MainArea) : a.head.head_lnum ≤ (a.flush c).head.head_lnum := by
  change _ ≤ (flushNodes c a.head).head_lnum
  rw [flushNodes]
  split
  · exact le_refl _
  · exact Nat.le_succ _

theorem add_head_lnum_le (n : Node) (a : MainArea) :
    a.head.head_lnum ≤ (a.add c n).head.head_lnum := by
  rw [add_eq_append]
  split
  · exact flush_head_lnum_le a
  · exact le_refl _

/-- What `add_node` leaves for the index nodes is counted by `add_idx_node`. -/
theorem SpaceInv.add (h : SpaceInv c isIdx a) (hc : c.Accepted) {n : Node} (hn : n.Fits c)
    {idx : Bool} (hidx : ∀ lnum, a.head.head_lnum ≤ lnum → isIdx lnum = idx) :
    SpaceInv c isIdx { a.add c n with
      old_idx_sz := (a.add c n).old_idx_sz+if idx then align n.len 8 else 0 } := by
  have hlen := hn.len_le
  rw [add_eq_append]
  by_cases hf : (c.leb_size : ℤ)-a.head.head_offs < n.len
  · rw [if_pos hf]
    have h0 : (a.flush c).head.head_offs = 0 := flushNodes_head_offs
    have := (h.flush hc).append hc hn (by omega)
    rwa [hidx _ (flush_head_lnum_le a)] at this
  · rw [if_neg hf]
    have := h.append hc hn (by omega)
    rwa [hidx _ (le_refl _)] at this

theorem SpaceInv.dataOps (h : SpaceInv c isIdx a) (hc : c.Accepted) (ops : List Op)
    (hops : ∀ op ∈ ops, op.Fits c) (hidx : ∀ lnum, a.head.head_lnum ≤ lnum → isIdx lnum = false) :
    SpaceInv c isIdx (ops.foldl (MainArea.dataOp c) a) := by
  induction ops generalizing a with
  | nil => exact h
  | cons op ops ih =>
    have hrest := fun op hop => hops op (List.mem_cons_of_mem _ hop)
    cases op with
    | node n =>
      have hadd := h.add hc (hops _ List.mem_cons_self) hidx
      exact ih hadd hrest fun lnum hl => hidx lnum ((add_head_lnum_le n a).trans hl)
    | flush => exact ih (h.flush hc) hrest fun lnum hl => hidx lnum ((flush_head_lnum_le a).trans hl)

theorem SpaceInv.indexOps (h : SpaceInv c isIdx a) (hc : c.Accepted) (ops : List Op)
    (hops : ∀ op ∈ ops, op.Fits c) (hidx : ∀ lnum, a.head.head_lnum ≤ lnum → isIdx lnum = true) :
    SpaceInv c isIdx (ops.foldl (MainArea.indexOp c) a) := by
  induction ops generalizing a with
  | nil => exact h
  | cons op ops ih =>
    have hrest := fun op hop => hops op (List.mem_cons_of_mem _ hop)
    cases op with
    | node n =>
      have hadd := h.add hc (hops _ List.mem_cons_self) hidx
      exact ih hadd hrest fun lnum hl => hidx lnum ((add_head_lnum_le n a).trans hl)
    | flush => exact ih (h.flush hc) hrest fun lnum hl => hidx lnum ((flush_head_lnum_le a).trans hl)

end Run

section Result

variable {c : UbifsInfo} {a : MainArea}

theorem spaceInv_init (buf : ℕ → Byte) (image : ℕ → ℕ → Byte) (lpt : ℕ → Lprops) :
    SpaceInv c (fun _ => false) (MainArea.init c buf image lpt) := by
  refine ⟨mainInv_init buf image lpt, ?_, fun _ => Nat.zero_le _, ?_, ?_, ?_, ?_, ?_,
    ?_, fun _ _ => rfl⟩
  · simp [MainArea.init]
  · intro lnum h1 h2
    exact absurd h2 (Nat.not_lt.mpr h1)
  all_goals simp [MainArea.init]

/-- What the index does not touch: the LEBs before the head, and that of the garbage
collector. -/
structure MainArea.Keeps (a a' : MainArea) : Prop where
  gc_lnum : a'.gc_lnum = a.gc_lnum
  head_lnum : a.head.head_lnum ≤ a'.head.head_lnum
  used : ∀ lnum < a.head.head_lnum, a'.used lnum = a.used lnum

theorem indexOps_keep (ops : List Op) (a : MainArea) :
    a.Keeps (ops.foldl (MainArea.indexOp c) a) := by
  induction ops generalizing a with
  | nil => exact ⟨rfl, le_refl _, fun _ _ => rfl⟩
  | cons op ops ih =>
    obtain ⟨hgc, hhead, hused⟩ := ih (a.indexOp c op)
    cases op with
    | node n =>
      refine ⟨hgc, (add_head_lnum_le n a).trans hhead, fun lnum hl => ?_⟩
      rw [List.foldl_cons, hused lnum (hl.trans_le (add_head_lnum_le n a))]
      change (a.add c n).used lnum = a.used lnum
      have happ (b : MainArea) (hb : lnum < b.head.head_lnum) : (b.append n).used lnum = b.used lnum :=
        append_used_of_ne n (Nat.ne_of_lt hb)
      rw [add_eq_append]
      split
      · exact happ _ (hl.trans_le (flush_head_lnum_le a))
      · exact happ _ hl
    | flush =>
      have hle := flush_head_lnum_le (c := c) a
      exact ⟨hgc, hle.trans hhead, fun lnum hl => hused lnum (hl.trans_le hle)⟩

theorem indexOps_old_idx_sz (ops : List Op) (a : MainArea) :
    (ops.foldl (MainArea.indexOp c) a).old_idx_sz =
      a.old_idx_sz+((opNodes ops).map fun n => align n.len 8).sum := by
  induction ops generalizing a with
  | nil => rfl
  | cons op ops ih =>
    rw [List.foldl_cons, ih]
    cases op with
    | node n => exact Nat.add_assoc _ _ _
    | flush => rfl

theorem dataOps_old_idx_sz (ops : List Op) (a : MainArea) :
    (ops.foldl (MainArea.dataOp c) a).old_idx_sz = a.old_idx_sz := by
  induction ops generalizing a with
  | nil => rfl
  | cons op ops ih =>
    rw [List.foldl_cons, ih]
    cases op <;> rfl

/-- What holds of the main area when all is written: the LEBs of the index are behind that
of the garbage collector, which is empty. -/
structure SpaceEnd (c : UbifsInfo) (index : List Op) (a : MainArea) : Prop where
  inv : SpaceInv c (fun lnum => a.gc_lnum < lnum) a
  gc_first : c.main_first ≤ a.gc_lnum
  gc_last : a.gc_lnum < a.head.head_lnum
  gc_used : a.used a.gc_lnum = 0
  offs : a.head.head_offs = 0
  old_idx_sz : a.old_idx_sz = ((opNodes index).map fun n => align n.len 8).sum

theorem write_space (hc : c.Accepted) (data index : List Op)
    (hdata : ∀ op ∈ data, op.Fits c) (hindex : ∀ op ∈ index, op.Fits c)
    (buf : ℕ → Byte) (image : ℕ → ℕ → Byte) (lpt : ℕ → Lprops) :
    SpaceEnd c index ((MainArea.init c buf image lpt).write c data index) := by
  have h0 := spaceInv_init (c := c) buf image lpt
  have hstart : SpaceInv c (fun _ => false) ((MainArea.init c buf image lpt).setFlags 0) :=
    @SpaceInv.setFlags _ _ _ h0 rfl _ false (fun _ _ => rfl) fun _ _ => rfl
  have hsz := dataOps_old_idx_sz (c := c) data ((MainArea.init c buf image lpt).setFlags 0)
  have h1 := (hstart.dataOps hc data hdata fun _ _ => rfl).flush hc
  have ho1 : ((data.foldl (MainArea.dataOp c)
    ((MainArea.init c buf image lpt).setFlags 0)).flush c).head.head_offs = 0 := flushNodes_head_offs
  unfold MainArea.write
  generalize hb : (data.foldl (MainArea.dataOp c)
    ((MainArea.init c buf image lpt).setFlags 0)).flush c = b at h1 ho1 ⊢
  dsimp only
  have h2 := h1.setGcLnum hc ho1 rfl
  have hl : (b.setGcLnum c).head.head_lnum = b.head.head_lnum+1 := rfl
  have h3 := @SpaceInv.setFlags _ _ _ h2 ho1 (fun lnum => b.head.head_lnum < lnum) true
    (by intro lnum hlt; simp; omega) (by intro lnum hle; simp; omega)
  have h4 := (h3.indexOps hc index hindex (by intro lnum hle; simp; exact hle)).flush hc
  obtain ⟨hgc, hhead, hused⟩ := indexOps_keep (c := c) index
    ((b.setGcLnum c).setFlags LPROPS_INDEX)
  have hold := indexOps_old_idx_sz (c := c) index ((b.setGcLnum c).setFlags LPROPS_INDEX)
  have hend := flush_head_lnum_le (c := c)
    (index.foldl (MainArea.indexOp c) ((b.setGcLnum c).setFlags LPROPS_INDEX))
  change SpaceInv c _ (MainArea.flush c (index.foldl (MainArea.indexOp c)
    ((b.setGcLnum c).setFlags LPROPS_INDEX))) at h4
  generalize index.foldl (MainArea.indexOp c) ((b.setGcLnum c).setFlags LPROPS_INDEX) = d at *
  have hgc' : (d.flush c).gc_lnum = b.head.head_lnum := hgc
  constructor
  · rw [hgc']
    exact h4
  · rw [hgc']
    exact h1.main.first
  · rw [hgc']
    exact (Nat.lt_of_succ_le hhead).trans_le hend
  · rw [hgc']
    refine (hused b.head.head_lnum (Nat.lt_succ_self _)).trans ?_
    exact h1.main.used_head.trans ho1
  · exact flushNodes_head_offs
  · refine hold.trans ?_
    have hb0 : b.old_idx_sz = 0 := by
      rw [← hb]
      exact hsz
    change b.old_idx_sz+_ = _
    rw [hb0, Nat.zero_add]

/-- The properties of a LEB are those of its nodes. -/
theorem SpaceEnd.lprops {index : List Op} (h : SpaceEnd c index a) (hc : c.Accepted) {i : ℕ}
    (hi : c.main_first+i < a.head.head_lnum) (hm : i < c.main_lebs) :
    0 ≤ (a.head.lpt i).free ∧ 0 ≤ (a.head.lpt i).dirty ∧
      (a.head.lpt i).free+(a.head.lpt i).dirty+a.used (c.main_first+i) = c.leb_size := by
  have hlpt := h.inv.lpt (c.main_first+i) (by omega) hi (by omega)
  rw [Nat.add_sub_cancel_left] at hlpt
  rw [hlpt]
  exact space_of_leb hc (h.inv.used_le _) (used_mod a _)

/-- A total of a run fits the field of the master node. -/
theorem ofInt_toNat {x : ℤ} (h0 : 0 ≤ x) (h : x < 2^64) : ((BitVec.ofInt 64 x).toNat : ℤ) = x := by
  rw [BitVec.toNat_ofInt]
  omega

/-- The four totals make up the main area. -/
theorem SpaceEnd.totals {index : List Op} (h : SpaceEnd c index a) (hc : c.Accepted) :
    (0 ≤ a.head.lst.total_free ∧ 0 ≤ a.head.lst.total_dirty ∧ 0 ≤ a.head.lst.total_used) ∧
    a.head.lst.total_free+a.head.lst.total_dirty+a.head.lst.total_used+a.old_idx_sz =
      ((a.head.head_lnum-c.main_first)*c.leb_size : ℕ) := by
  have hleb (lnum : ℕ) := space_of_leb hc (h.inv.used_le lnum) (used_mod a lnum)
  have hhead : a.used a.head.head_lnum = 0 := h.inv.main.used_head.trans h.offs
  have hidx := h.inv.old_idx_sz
  rw [Finset.sum_Ico_succ_top h.inv.main.first, hhead, ite_self, add_zero] at hidx
  refine ⟨⟨?_, ?_, ?_⟩, ?_⟩
  · rw [h.inv.total_free]
    exact Finset.sum_nonneg fun lnum _ => (hleb lnum).1
  · rw [h.inv.total_dirty]
    exact Finset.sum_nonneg fun lnum _ => (hleb lnum).2.1
  · rw [h.inv.total_used]
    refine Finset.sum_nonneg fun lnum _ => ?_
    split
    · exact le_refl _
    · exact Int.natCast_nonneg _
  · rw [h.inv.total_free, h.inv.total_dirty, h.inv.total_used, hidx, Nat.cast_sum,
      ← Finset.sum_add_distrib, ← Finset.sum_add_distrib, ← Finset.sum_add_distrib]
    -- a LEB has its data in one of the last two
    have hone (lnum : ℕ) : freeOf c (a.used lnum)+dirtyOf c (a.used lnum)+
        (if decide (a.gc_lnum < lnum) = true then 0 else (a.used lnum : ℤ))+
        ((if decide (a.gc_lnum < lnum) = true then a.used lnum else 0 : ℕ) : ℤ) = c.leb_size := by
      have := (hleb lnum).2.2
      split
      · omega
      · omega
    rw [Finset.sum_congr rfl fun lnum _ => hone lnum, Finset.sum_const, Nat.card_Ico, nsmul_eq_mul,
      Nat.cast_mul]

/-- The space of the main area is accounted for. The properties of each LEB are set once, and
what is free, dirty and used makes up the LEB. The LEB of the garbage collector is free. The
totals in the master node are the sums over the LEBs, and make up the main area. -/
theorem space_accounted (hc : c.Accepted) (hmain : c.main_first+c.main_lebs = c.max_leb_cnt)
    (data index : List Op) (hdata : ∀ op ∈ data, op.Fits c) (hindex : ∀ op ∈ index, op.Fits c)
    (buf : ℕ → Byte) (image : ℕ → ℕ → Byte) (lpt : ℕ → Lprops) (c' : UbifsInfo)
    (hok : finalizeLebCnt c ((MainArea.init c buf image lpt).write c data index).head = .ok c') :
    let a := (MainArea.init c buf image lpt).write c data index
    a.lebs = List.range' c.main_first c'.main_lebs ∧
    (∀ i < c'.main_lebs, 0 ≤ (a.head.lpt i).free ∧ 0 ≤ (a.head.lpt i).dirty ∧
      (a.head.lpt i).free+(a.head.lpt i).dirty+a.used (c.main_first+i) = c'.leb_size) ∧
    (∃ i < c'.main_lebs, a.gc_lnum = c.main_first+i ∧
      a.head.lpt i = ⟨c'.leb_size, 0, 0⟩) ∧
    a.mst.total_free.toNat+a.mst.total_dirty.toNat+a.mst.total_used.toNat+a.mst.index_size.toNat =
      c'.main_lebs*c'.leb_size ∧
    (a.mst.total_free.toNat : ℤ) = ∑ i ∈ Finset.range c'.main_lebs, (a.head.lpt i).free ∧
    (a.mst.total_dirty.toNat : ℤ) = ∑ i ∈ Finset.range c'.main_lebs, (a.head.lpt i).dirty ∧
    a.mst.index_size.toNat = ((opNodes index).map fun n => align n.len 8).sum ∧
    a.mst.idx_lebs.toNat =
      ((Finset.range c'.main_lebs).filter fun i => (a.head.lpt i).flags &&& LPROPS_INDEX ≠ 0).card := by
  have h := write_space hc data index hdata hindex buf image lpt
  generalize (MainArea.init c buf image lpt).write c data index = a at h hok ⊢
  dsimp only
  have hcnt : a.head.head_lnum ≤ c.max_leb_cnt ∧
      c' = { c with main_lebs := a.head.head_lnum-c.main_first } := by
    unfold finalizeLebCnt at hok
    dsimp only at hok
    split at hok
    · cases hok
    · exact ⟨by omega, (Except.ok.inj hok).symm⟩
  obtain ⟨hle, rfl⟩ := hcnt
  dsimp only
  have hfirst := h.inv.main.first
  have hlpt (i : ℕ) (hi : i < a.head.head_lnum-c.main_first) : a.head.lpt i =
      ⟨freeOf c (a.used (c.main_first+i)), dirtyOf c (a.used (c.main_first+i)),
        flagsOf (decide (a.gc_lnum < c.main_first+i))⟩ := by
    have := h.inv.lpt (c.main_first+i) (by omega) (by omega) (by omega)
    rwa [Nat.add_sub_cancel_left] at this
  obtain ⟨⟨hf0, hd0, hu0⟩, htot⟩ := h.totals hc
  have hbound : (a.head.head_lnum-c.main_first)*c.leb_size < 2^64 := by
    have h1 := hc.leb_cnt
    have h2 := hc.leb_max
    calc (a.head.head_lnum-c.main_first)*c.leb_size ≤ 2^31*(2*1024*1024) :=
          Nat.mul_le_mul (by omega) h2
      _ < 2^64 := by decide
  have hfree : (a.mst.total_free.toNat : ℤ) = a.head.lst.total_free := ofInt_toNat hf0 (by omega)
  have hdirty : (a.mst.total_dirty.toNat : ℤ) = a.head.lst.total_dirty := ofInt_toNat hd0 (by omega)
  have hused : (a.mst.total_used.toNat : ℤ) = a.head.lst.total_used := ofInt_toNat hu0 (by omega)
  have hidx : a.mst.index_size.toNat = a.old_idx_sz := by
    change (BitVec.ofNat 64 a.old_idx_sz).toNat = _
    rw [BitVec.toNat_ofNat, Nat.mod_eq_of_lt (by omega)]
  refine ⟨h.inv.lebs, ?_, ?_, by omega, ?_, ?_, hidx.trans h.old_idx_sz, ?_⟩
  · intro i hi
    exact h.lprops hc (by omega) (by omega)
  · have hgf := h.gc_first
    have hgl := h.gc_last
    have hgc : c.main_first+(a.gc_lnum-c.main_first) = a.gc_lnum := by omega
    refine ⟨a.gc_lnum-c.main_first, by omega, hgc.symm, ?_⟩
    rw [hlpt _ (by omega), hgc, h.gc_used]
    have hal (k : ℕ) (hk : 0 < k) : align 0 k = 0 := align_of_mod hk (Nat.zero_mod _)
    simp [freeOf, dirtyOf, hal, flagsOf]
  · rw [hfree, h.inv.total_free, Finset.sum_Ico_eq_sum_range]
    exact Finset.sum_congr rfl fun i hi => by rw [hlpt i (Finset.mem_range.mp hi)]
  · rw [hdirty, h.inv.total_dirty, Finset.sum_Ico_eq_sum_range]
    exact Finset.sum_congr rfl fun i hi => by rw [hlpt i (Finset.mem_range.mp hi)]
  · have hlebs : a.head.lst.idx_lebs ≤ a.head.head_lnum-c.main_first := by
      rw [h.inv.idx_lebs, Finset.sum_Ico_eq_sum_range]
      calc _ ≤ ∑ i ∈ Finset.range (a.head.head_lnum-c.main_first), 1 :=
            Finset.sum_le_sum fun i _ => by split <;> decide
        _ = a.head.head_lnum-c.main_first := by simp
    have h1 := hc.leb_cnt
    change (BitVec.ofNat 32 a.head.lst.idx_lebs).toNat = _
    rw [BitVec.toNat_ofNat, Nat.mod_eq_of_lt (by omega), h.inv.idx_lebs,
      Finset.sum_Ico_eq_sum_range, Finset.card_filter]
    apply Finset.sum_congr rfl
    intro i hi
    rw [hlpt i (Finset.mem_range.mp hi)]
    by_cases hg : a.gc_lnum < c.main_first+i <;> simp [hg, flagsOf, LPROPS_INDEX]

/-- The run takes six LEBs, and two of them are of the index. -/
theorem space_accounted_long :
    finalizeLebCnt nandVolume longArea.head = .ok { nandVolume with main_lebs := 6 } ∧
    longArea.lebs = [20, 21, 22, 23, 24, 25] ∧
    (∀ i < 6, 0 ≤ (longArea.head.lpt i).free ∧ 0 ≤ (longArea.head.lpt i).dirty ∧
      (longArea.head.lpt i).free+(longArea.head.lpt i).dirty+longArea.used (20+i) = 126976) ∧
    (∃ i < 6, longArea.gc_lnum = 20+i ∧ longArea.head.lpt i = ⟨126976, 0, 0⟩) ∧
    longArea.mst.total_free.toNat+longArea.mst.total_dirty.toNat+longArea.mst.total_used.toNat+
      longArea.mst.index_size.toNat = 6*126976 ∧
    (longArea.mst.total_free.toNat : ℤ) = ∑ i ∈ Finset.range 6, (longArea.head.lpt i).free ∧
    (longArea.mst.total_dirty.toNat : ℤ) = ∑ i ∈ Finset.range 6, (longArea.head.lpt i).dirty ∧
    longArea.mst.index_size.toNat = 224+112+32 ∧
    longArea.mst.idx_lebs.toNat =
      ((Finset.range 6).filter fun i => (longArea.head.lpt i).flags &&& LPROPS_INDEX ≠ 0).card := by
  have hok : finalizeLebCnt nandVolume longArea.head = .ok { nandVolume with main_lebs := 6 } := by
    unfold finalizeLebCnt
    rw [← spots_lnum, longArea_spots]
    rfl
  have hsize : ((opNodes longIndex).map fun n => align n.len 8).sum = 224+112+32 := by
    simp only [opNodes, longIndex, List.filterMap_cons, List.filterMap_nil, List.map_cons, List.map_nil,
      zeroNode_len]
    rfl
  rw [← hsize]
  unfold longArea blankArea at hok ⊢
  exact ⟨hok, space_accounted nandVolume_accepted rfl longData longIndex longData_fit longIndex_fit
    _ _ _ _ hok⟩

end Result

end ChipTools.Ubifs
