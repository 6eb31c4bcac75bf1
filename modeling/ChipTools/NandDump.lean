import ChipTools.NandWrite

/-! `nanddump` of the page data in binary. What `nandwrite` has written is read back, with the bad
eraseblocks skipped by both. -/
namespace ChipTools.Nand
open Bytes Ubi

inductive BbMethod
  | padbad
  | dumpbad
  | skipbad
deriving DecidableEq, Repr

/-- The options. A length of zero is that of the device. -/
structure DumpArgs where
  start_addr : ℕ
  length : ℕ
  bb_method : BbMethod

/-- The answers of the device, with the pages that can be read. -/
structure DumpEnv extends WriteEnv where
  read : ℕ → Bool

/-- The variables of `main`. The pages that are written out are kept with their offsets. -/
structure DumpState where
  ofs : ℕ
  end_addr : ℕ
  blockstart : ℕ
  firstblock : Bool
  badblock : Bool
  out : List Byte
  pages : List ℕ

variable (mtd : NandDev) (args : DumpArgs) (env : DumpEnv) (flash : Flash)

/-- The first part of a pass: a new eraseblock is asked whether it is bad. -/
def checkBad (s : DumpState) : Except Stop DumpState :=
  if args.bb_method = .dumpbad then .ok { s with badblock := false }
  else if s.blockstart ≠ alignDown s.ofs mtd.eb_size ∨ s.firstblock then do
    let badblock ← mtdIsBad mtd env.toWriteEnv flash (s.ofs/mtd.eb_size)
    .ok { s with
      blockstart := alignDown s.ofs mtd.eb_size, firstblock := false, badblock := badblock }
  else .ok s

/-- `mtd_read` of a page. -/
def mtdRead (ofs : ℕ) : Except Stop (List Byte) :=
  let eb := ofs/mtd.eb_size
  let offs := ofs%mtd.eb_size
  if mtd.eb_cnt ≤ eb ∨ mtd.eb_size < offs+mtd.min_io_size ∨ !env.read ofs then
    .error (.errmsg "mtd_read")
  else .ok (readBytes (flash.data eb) offs mtd.min_io_size)

def DumpState.put (s : DumpState) (page : List Byte) : DumpState :=
  { s with ofs := s.ofs+page.length, out := s.out ++ page, pages := s.pages ++ [s.ofs] }

/-- The second part: a bad eraseblock is skipped as a whole, from whatever offset in it. -/
def dumpPage (s : DumpState) : Except Stop DumpState :=
  if s.badblock then
    if args.bb_method = .skipbad then
      .ok { s with ofs := s.ofs+mtd.eb_size
                   end_addr := if mtd.size < s.end_addr+mtd.eb_size then mtd.size
                     else s.end_addr+mtd.eb_size }
    else .ok (s.put (List.replicate mtd.min_io_size 0xff#8))
  else do
    let page ← mtdRead mtd env flash s.ofs
    .ok (s.put page)

/-- The loop of `main`, of at most `n` passes. -/
def dumpLoop : ℕ → DumpState → Except Stop DumpState
  | 0, _ => .error .hang
  | n+1, s =>
    if s.ofs < s.end_addr then do
      let s ← checkBad mtd args env flash s
      let s ← dumpPage mtd args env flash s
      dumpLoop n s
    else .ok s

def dumpEnd : ℕ :=
  if args.length = 0 ∨ mtd.size < args.start_addr+args.length then mtd.size
  else args.start_addr+args.length

/-- `main`, without OOB data and with a file as the output. -/
def nanddump : Except Stop DumpState :=
  if args.start_addr &&& (mtd.min_io_size-1) ≠ 0 then
    .error (.errmsg "the start address (-s parameter) is not page-aligned!")
  else dumpLoop mtd args env flash (mtd.size+1)
    ⟨args.start_addr, dumpEnd mtd args, 1, true, false, [], []⟩

section Passes

variable {mtd : NandDev} {args : DumpArgs} {env : DumpEnv} {flash : Flash} {s s' : DumpState}

theorem mtdIsBad_eq {eb : ℕ} (hq : ∀ eb, env.query eb = true) (heb : eb < mtd.eb_cnt) :
    mtdIsBad mtd env.toWriteEnv flash eb = .ok (isBad mtd flash eb) := by
  rw [mtdIsBad, if_neg (not_le.mpr heb), isBad]
  cases mtd.bb_allowed with
  | false => rfl
  | true =>
    rw [if_neg (by decide), hq eb]
    rfl

/-- The variable `badblock` is right for the eraseblock that it was asked for. -/
def DumpState.Known (mtd : NandDev) (flash : Flash) (s : DumpState) : Prop :=
  s.firstblock = false → s.blockstart = s.ofs/mtd.eb_size*mtd.eb_size →
    s.badblock = isBad mtd flash (s.ofs/mtd.eb_size)

/-- A state that knows about its eraseblock. -/
def DumpState.asked (s : DumpState) (mtd : NandDev) (flash : Flash) : DumpState :=
  { s with blockstart := s.ofs/mtd.eb_size*mtd.eb_size, firstblock := false
           badblock := isBad mtd flash (s.ofs/mtd.eb_size) }

theorem checkBad_eq (hg : Geometry mtd) (hbb : args.bb_method = .skipbad)
    (hq : ∀ eb, env.query eb = true) (hk : s.Known mtd flash) (hle : s.ofs ≤ mtd.size)
    (heb : s.ofs/mtd.eb_size < mtd.eb_cnt) :
    checkBad mtd args env flash s = .ok (s.asked mtd flash) := by
  rw [checkBad, if_neg (by rw [hbb]; decide), hg.align hle]
  split
  · rw [mtdIsBad_eq hq heb]
    rfl
  next hold =>
    rw [not_or, not_not, Bool.not_eq_true] at hold
    rw [DumpState.asked, ← hold.1, ← hk hold.2 hold.1, ← hold.2]

/-- A pass over a bad eraseblock. -/
theorem dumpPage_bad (hbb : args.bb_method = .skipbad) (hbad : s.badblock = true) :
    dumpPage mtd args env flash s = .ok { s with
      ofs := s.ofs+mtd.eb_size, end_addr := min mtd.size (s.end_addr+mtd.eb_size) } := by
  rw [dumpPage, if_pos hbad, if_pos hbb]
  split
  next h => rw [min_eq_left h.le]
  next h => rw [min_eq_right (not_lt.mp h)]

/-- A pass over a page. -/
theorem dumpPage_good (hg : Geometry mtd) (hr : ∀ ofs, env.read ofs = true) {p : ℕ}
    (hofs : s.ofs = p*mtd.min_io_size) (hbad : s.badblock = false) (heb : s.ofs/mtd.eb_size < mtd.eb_cnt) :
    dumpPage mtd args env flash s = .ok (s.put (readBytes (flash.data (p/pagesPerEb mtd))
      (p%pagesPerEb mtd*mtd.min_io_size) mtd.min_io_size)) := by
  have hroom : p%pagesPerEb mtd*mtd.min_io_size+mtd.min_io_size ≤ mtd.eb_size := by
    rw [hg.eb_eq, ← Nat.succ_mul]
    exact Nat.mul_le_mul_right _ (Nat.mod_lt p hg.pages_pos)
  rw [hofs, hg.page_block] at heb
  rw [dumpPage, if_neg (by rw [hbad]; decide), mtdRead, hofs, hg.page_block, hg.page_offs, hr,
    if_neg (by
      rintro (h | h | h)
      · omega
      · omega
      · cases h)]
  rfl

end Passes

section Readback

variable {mtd : NandDev} {args : DumpArgs} {wargs : WriteArgs} {env : DumpEnv} {flash : Flash}
  {img : List Byte} {s s' : DumpState} {p k n : ℕ}

/-- The offsets of the good pages before `p`. -/
def goodOffsets (mtd : NandDev) (wargs : WriteArgs) (flash : Flash) (p : ℕ) : List ℕ :=
  ((List.range p).filter fun q => GoodPage mtd wargs flash [] q).map (·*mtd.min_io_size)

theorem goodOffsets_good (h : GoodPage mtd wargs flash [] p) :
    goodOffsets mtd wargs flash (p+1) = goodOffsets mtd wargs flash p ++ [p*mtd.min_io_size] := by
  rw [goodOffsets, List.range_succ, List.filter_append, List.map_append, List.filter_cons,
    if_pos (decide_eq_true h)]
  rfl

theorem goodOffsets_skip {p' : ℕ} (hle : p ≤ p')
    (h : ∀ q, p ≤ q → q < p' → ¬ GoodPage mtd wargs flash [] q) :
    goodOffsets mtd wargs flash p' = goodOffsets mtd wargs flash p := by
  obtain ⟨j, rfl⟩ := Nat.exists_eq_add_of_le hle
  have hnone : ((List.range j).map (p+·)).filter (fun q => GoodPage mtd wargs flash [] q) = [] := by
    rw [List.filter_eq_nil_iff]
    intro q hq hgood
    obtain ⟨i, hi, rfl⟩ := List.mem_map.mp hq
    exact h (p+i) (Nat.le_add_right p i) (by have := List.mem_range.mp hi; omega)
      (of_decide_eq_true hgood)
  rw [goodOffsets, List.range_add, List.filter_append, hnone, List.append_nil, goodOffsets]

/-- At page `p`, with `k` of the `n` pages of the image behind. -/
structure Dumping (mtd : NandDev) (wargs : WriteArgs) (flash : Flash) (img : List Byte) (n p k : ℕ)
    (s : DumpState) : Prop where
  ofs : s.ofs = p*mtd.min_io_size
  start : wargs.mtdoffset ≤ p*mtd.min_io_size
  le : k ≤ n
  end_eq : s.end_addr = min mtd.size (s.ofs+(n-k)*mtd.min_io_size)
  rank_eq : rank mtd wargs flash [] p = k
  first : isBad mtd flash (p/pagesPerEb mtd) = true → p%pagesPerEb mtd = 0
  known : s.Known mtd flash
  out : s.out = img.take (k*mtd.min_io_size)
  pages : s.pages = goodOffsets mtd wargs flash p

/-- As long as pages of the image are to come, there is one on the device. -/
theorem Dumping.room (hg : Geometry mtd) (h : Dumping mtd wargs flash img n p k s) {q : ℕ}
    (hq : q < mtd.eb_cnt*pagesPerEb mtd) (hgood : GoodPage mtd wargs flash [] q)
    (hrank : rank mtd wargs flash [] q = k) : p/pagesPerEb mtd < mtd.eb_cnt ∧ s.ofs < mtd.size := by
  have hpq : p ≤ q := by
    by_contra hlt
    have hmono : rank mtd wargs flash [] (q+1) ≤ rank mtd wargs flash [] p :=
      Nat.count_monotone _ (by omega)
    rw [rank_add_good (j := 1) (f := q) fun x h1 h2 => by rwa [show x = q by omega], hrank,
      h.rank_eq] at hmono
    omega
  have hp : p < mtd.eb_cnt*pagesPerEb mtd := by omega
  refine ⟨(Nat.div_lt_iff_lt_mul hg.pages_pos).mpr hp, ?_⟩
  have hsize : mtd.eb_cnt*mtd.eb_size ≤ mtd.size := by
    rw [mtd.eb_cnt_eq]
    exact Nat.div_mul_le_self _ _
  have hlt := Nat.mul_lt_mul_of_pos_right hp hg.io_pos
  rw [Nat.mul_assoc, ← hg.eb_eq] at hlt
  rw [h.ofs]
  omega

/-- A bad eraseblock is skipped from its start. -/
theorem Dumping.skip (hg : Geometry mtd) (h : Dumping mtd wargs flash img n p k s)
    (hbad : isBad mtd flash (p/pagesPerEb mtd) = true) :
    Dumping mtd wargs flash img n (p+pagesPerEb mtd) k { s.asked mtd flash with
      ofs := (s.asked mtd flash).ofs+mtd.eb_size
      end_addr := min mtd.size ((s.asked mtd flash).end_addr+mtd.eb_size) } := by
  have hB := hg.pages_pos
  have hfirst := h.first hbad
  have hofs : s.ofs+mtd.eb_size = (p+pagesPerEb mtd)*mtd.min_io_size := by
    rw [h.ofs, hg.eb_eq, Nat.add_mul]
  have hnone : ∀ q, p ≤ q → q < p+pagesPerEb mtd → ¬ GoodPage mtd wargs flash [] q := by
    rintro q hle hlt ⟨-, hgood, -⟩
    have hblock : q/pagesPerEb mtd = p/pagesPerEb mtd := by
      have hdiv := Nat.div_add_mod' p (pagesPerEb mtd)
      rw [hfirst, Nat.add_zero] at hdiv
      refine Nat.div_eq_of_lt_le (by omega) ?_
      rw [Nat.succ_mul]
      omega
    rw [hblock, hbad] at hgood
    cases hgood
  refine ⟨hofs, ?_, h.le, ?_, ?_, fun _ => ?_, ?_, h.out, ?_⟩
  · exact h.start.trans (Nat.mul_le_mul_right _ (Nat.le_add_right _ _))
  · have hend := h.end_eq
    dsimp only [DumpState.asked]
    omega
  · rw [rank_skip (Nat.le_add_right _ _) hnone, h.rank_eq]
  · rw [Nat.add_mod_right, hfirst]
  · intro _ heq
    dsimp only [DumpState.asked] at heq
    rw [Nat.add_div_right _ hg.eb_pos] at heq
    have := Nat.eq_of_mul_eq_mul_right hg.eb_pos heq
    omega
  · rw [goodOffsets_skip (Nat.le_add_right _ _) hnone]
    exact h.pages

/-- A page of the image is written out. -/
theorem Dumping.page (hg : Geometry mtd) (h : Dumping mtd wargs flash img n p k s)
    (hgood : isBad mtd flash (p/pagesPerEb mtd) = false) (hk : k < n)
    (hlen : img.length = n*mtd.min_io_size) {page : List Byte} (hpage : page = imagePage mtd img k) :
    Dumping mtd wargs flash img n (p+1) (k+1) ((s.asked mtd flash).put page) := by
  have hB := hg.pages_pos
  have hp : GoodPage mtd wargs flash [] p := ⟨h.start, hgood, List.not_mem_nil⟩
  have hplen : page.length = mtd.min_io_size := by rw [hpage, imagePage_length]
  have hmul : (k+1)*mtd.min_io_size ≤ n*mtd.min_io_size := Nat.mul_le_mul_right _ hk
  have hofs : s.ofs+page.length = (p+1)*mtd.min_io_size := by
    rw [h.ofs, hplen, Nat.succ_mul]
  refine ⟨hofs, ?_, hk, ?_, ?_, fun hbad => ?_, ?_, ?_, ?_⟩
  · exact h.start.trans (Nat.mul_le_mul_right _ (Nat.le_succ p))
  · have hend := h.end_eq
    have hsub : (n-k)*mtd.min_io_size = mtd.min_io_size+(n-(k+1))*mtd.min_io_size := by
      rw [show n-k = (n-(k+1))+1 by omega, Nat.succ_mul, Nat.add_comm]
    change s.end_addr = min mtd.size (s.ofs+page.length+(n-(k+1))*mtd.min_io_size)
    rw [hend, hsub, hplen, Nat.add_assoc]
  · rw [rank_add_good (j := 1) (f := p) fun x h1 h2 => by rwa [show x = p by omega], h.rank_eq]
  · by_contra hne
    have hblock : (p+1)/pagesPerEb mtd = p/pagesPerEb mtd := by
      have hdiv := Nat.div_add_mod' (p+1) (pagesPerEb mtd)
      have hlt := Nat.mod_lt (p+1) hB
      refine (Nat.div_eq_of_lt_le ?_ ?_).symm
      · omega
      · rw [Nat.succ_mul]
        omega
    rw [hblock, hgood] at hbad
    cases hbad
  · intro _ heq
    change s.ofs/mtd.eb_size*mtd.eb_size = (s.ofs+page.length)/mtd.eb_size*mtd.eb_size at heq
    change isBad mtd flash (s.ofs/mtd.eb_size) = isBad mtd flash ((s.ofs+page.length)/mtd.eb_size)
    rw [Nat.eq_of_mul_eq_mul_right hg.eb_pos heq]
  · change s.out ++ page = img.take ((k+1)*mtd.min_io_size)
    have htake : imagePage mtd img k = (img.drop (k*mtd.min_io_size)).take mtd.min_io_size := by
      apply List.ext_getElem
      · rw [imagePage_length, List.length_take, List.length_drop, hlen, Nat.succ_mul] at *
        omega
      · intro j hj hj'
        rw [imagePage_length] at hj
        simp only [imagePage, readBytes, List.getElem_map, List.getElem_range, List.getElem_take,
          List.getElem_drop]
        rw [List.getD_eq_getElem?_getD, List.getElem?_eq_getElem (by rw [hlen, Nat.succ_mul] at *; omega)]
        rfl
    rw [h.out, hpage, htake, Nat.succ_mul, List.take_add]
  · rw [goodOffsets_good hp, ← h.pages, ← h.ofs]
    rfl

end Readback

section Loop

variable {mtd : NandDev} {args : DumpArgs} {wargs : WriteArgs} {env : DumpEnv} {flash : Flash}
  {img : List Byte} {s s' : DumpState} {p k n : ℕ}

/-- The loop comes to the end of the image when its pages are on the good pages of the device. -/
theorem dumpLoop_image (hg : Geometry mtd) (hbb : args.bb_method = .skipbad)
    (hq : ∀ eb, env.query eb = true) (hr : ∀ ofs, env.read ofs = true)
    (hlen : img.length = n*mtd.min_io_size)
    (heach : ∀ k < n, ∃ q < mtd.eb_cnt*pagesPerEb mtd, GoodPage mtd wargs flash [] q ∧
      rank mtd wargs flash [] q = k)
    (hcontent : ∀ q, GoodPage mtd wargs flash [] q → rank mtd wargs flash [] q < n →
      readBytes (flash.data (q/pagesPerEb mtd)) (q%pagesPerEb mtd*mtd.min_io_size) mtd.min_io_size =
        imagePage mtd img (rank mtd wargs flash [] q))
    (fuel : ℕ) (h : Dumping mtd wargs flash img n p k s) (hfuel : mtd.size < fuel+s.ofs) (hpos : 0 < fuel) :
    ∃ p' d, dumpLoop mtd args env flash fuel s = .ok d ∧ Dumping mtd wargs flash img n p' n d := by
  induction fuel generalizing p k s with
  | zero => exact absurd hpos (lt_irrefl 0)
  | succ fuel ih =>
    rw [dumpLoop]
    by_cases hk : k < n
    · obtain ⟨q, hqlt, hgood, hrank⟩ := heach k hk
      obtain ⟨hblock, hlt⟩ := h.room hg hqlt hgood hrank
      have hend : s.ofs < s.end_addr := by
        have := Nat.mul_pos (Nat.sub_pos_of_lt hk) hg.io_pos
        rw [h.end_eq]
        omega
      have heb : s.ofs/mtd.eb_size = p/pagesPerEb mtd := by rw [h.ofs, hg.page_block]
      rw [if_pos hend, checkBad_eq hg hbb hq h.known hlt.le (by rw [heb]; exact hblock), Loop.ok_bind]
      cases hbad : isBad mtd flash (p/pagesPerEb mtd) with
      | true =>
        rw [dumpPage_bad hbb (by rw [DumpState.asked, heb]; exact hbad), Loop.ok_bind]
        have := hg.eb_pos
        exact ih (h.skip hg hbad) (by dsimp only [DumpState.asked]; omega) (by omega)
      | false =>
        have hp : GoodPage mtd wargs flash [] p := ⟨h.start, hbad, List.not_mem_nil⟩
        have hpage := hcontent p hp (by rw [h.rank_eq]; exact hk)
        rw [h.rank_eq] at hpage
        rw [dumpPage_good hg hr (s := s.asked mtd flash) h.ofs (by rw [DumpState.asked, heb]; exact hbad)
          (by rw [DumpState.asked, heb]; exact hblock), Loop.ok_bind]
        have hio := hg.io_pos
        refine ih (h.page hg hbad hk hlen hpage) ?_ (by omega)
        change mtd.size < fuel+(s.ofs+_)
        rw [readBytes_length]
        omega
    · have hkn : k = n := le_antisymm h.le (not_lt.mp hk)
      subst hkn
      have hend : ¬ s.ofs < s.end_addr := by
        rw [h.end_eq, Nat.sub_self, Nat.zero_mul]
        omega
      rw [if_neg hend]
      exact ⟨p, s, rfl, h⟩

/-- Pages that were written out stay. -/
theorem dumpLoop_pages {fuel : ℕ} {d : DumpState} (hrun : dumpLoop mtd args env flash fuel s = .ok d) :
    s.pages <+: d.pages := by
  induction fuel generalizing s with
  | zero => cases hrun
  | succ fuel ih =>
    rw [dumpLoop] at hrun
    split at hrun
    · obtain ⟨s₁, hs₁, hrun⟩ := Loop.bind_eq_ok hrun
      obtain ⟨s₂, hs₂, hrun⟩ := Loop.bind_eq_ok hrun
      have h₁ : s₁.pages = s.pages := by
        unfold checkBad at hs₁
        split at hs₁
        · cases hs₁
          rfl
        · split at hs₁
          · obtain ⟨b, -, hb⟩ := Loop.bind_eq_ok hs₁
            cases hb
            rfl
          · cases hs₁
            rfl
      have h₂ : s₁.pages <+: s₂.pages := by
        unfold dumpPage at hs₂
        split at hs₂
        · split at hs₂
          · cases hs₂
            exact List.prefix_refl _
          · cases hs₂
            exact List.prefix_append _ _
        · obtain ⟨page, -, hp⟩ := Loop.bind_eq_ok hs₂
          cases hp
          exact List.prefix_append _ _
      rw [← h₁]
      exact h₂.trans (ih hrun)
    · cases hrun
      exact List.prefix_refl _

/-- The first page that is written out has the offset of the start in the first good eraseblock,
also where that is not the start of the eraseblock. -/
theorem dumpLoop_first (hg : Geometry mtd) (hbb : args.bb_method = .skipbad)
    (hq : ∀ eb, env.query eb = true) (hr : ∀ ofs, env.read ofs = true) {b : ℕ} (hb : b < mtd.eb_cnt)
    (hgood : isBad mtd flash b = false) (j : ℕ)
    (hskip : ∀ c, s.ofs/mtd.eb_size ≤ c → c < b → isBad mtd flash c = true)
    (hj : s.ofs/mtd.eb_size+j = b) (hofs : s.ofs = p*mtd.min_io_size) (hknown : s.Known mtd flash)
    (hend : s.ofs < s.end_addr) (hle : s.end_addr ≤ mtd.size) (hnone : s.pages = [])
    {fuel : ℕ} {d : DumpState} (hrun : dumpLoop mtd args env flash fuel s = .ok d) :
    [s.ofs+j*mtd.eb_size] <+: d.pages := by
  have hsize : mtd.eb_cnt*mtd.eb_size ≤ mtd.size := by
    rw [mtd.eb_cnt_eq]
    exact Nat.div_mul_le_self _ _
  induction j generalizing s p fuel with
  | zero =>
    cases fuel with
    | zero => cases hrun
    | succ fuel =>
      have heb : s.ofs/mtd.eb_size = b := hj
      rw [dumpLoop, if_pos hend, checkBad_eq hg hbb hq hknown (hend.le.trans hle)
        (by rw [heb]; exact hb), Loop.ok_bind, dumpPage_good hg hr (s := s.asked mtd flash) hofs
        (by rw [DumpState.asked, heb]; exact hgood) (by rw [DumpState.asked, heb]; exact hb), Loop.ok_bind] at hrun
      have hpre := dumpLoop_pages hrun
      rw [Nat.zero_mul, Nat.add_zero]
      change s.pages ++ [s.ofs] <+: d.pages at hpre
      rw [hnone] at hpre
      exact hpre
  | succ j ih =>
    cases fuel with
    | zero => cases hrun
    | succ fuel =>
      have hlt : s.ofs/mtd.eb_size < b := by omega
      rw [dumpLoop, if_pos hend, checkBad_eq hg hbb hq hknown (hend.le.trans hle) (hlt.trans hb), Loop.ok_bind,
        dumpPage_bad hbb (hskip _ (le_refl _) hlt), Loop.ok_bind] at hrun
      have hnext : (s.ofs+mtd.eb_size)/mtd.eb_size = s.ofs/mtd.eb_size+1 := Nat.add_div_right _ hg.eb_pos
      have hin : s.ofs+mtd.eb_size < mtd.size := by
        have hdiv := Nat.lt_div_mul_add (a := s.ofs+mtd.eb_size) hg.eb_pos
        have hblock : ((s.ofs+mtd.eb_size)/mtd.eb_size+1)*mtd.eb_size ≤ mtd.eb_cnt*mtd.eb_size :=
          Nat.mul_le_mul_right _ (by omega)
        rw [Nat.succ_mul] at hblock
        omega
      have hfirst := ih (s := { s.asked mtd flash with
          ofs := (s.asked mtd flash).ofs+mtd.eb_size
          end_addr := min mtd.size ((s.asked mtd flash).end_addr+mtd.eb_size) })
        (p := p+pagesPerEb mtd) ?_ ?_ ?_ ?_ ?_ ?_ ?_ hrun
      · change [s.ofs+mtd.eb_size+j*mtd.eb_size] <+: d.pages at hfirst
        rw [Nat.succ_mul, Nat.add_comm (j*mtd.eb_size), ← Nat.add_assoc]
        exact hfirst
      · intro c hc
        change (s.ofs+mtd.eb_size)/mtd.eb_size ≤ c at hc
        exact hskip c (by omega)
      · change (s.ofs+mtd.eb_size)/mtd.eb_size+j = b
        omega
      · change s.ofs+mtd.eb_size = _
        rw [hofs, Nat.add_mul, ← hg.eb_eq]
      · intro _ heq
        change s.ofs/mtd.eb_size*mtd.eb_size = (s.ofs+mtd.eb_size)/mtd.eb_size*mtd.eb_size at heq
        rw [hnext] at heq
        have := Nat.eq_of_mul_eq_mul_right hg.eb_pos heq
        omega
      · change s.ofs+mtd.eb_size < min mtd.size (s.end_addr+mtd.eb_size)
        omega
      · exact min_le_left _ _
      · exact hnone

end Loop

section Roundtrip

variable {mtd : NandDev} {wargs : WriteArgs} {env : DumpEnv} {wenv : WriteEnv} {flash : Flash}
  {s : WriteState}

/-- The image is read back from the pages to which it was written, in their order. -/
def ReadsBack (mtd : NandDev) (env : DumpEnv) (start_addr : ℕ) (img : List Byte) (s : WriteState) :
    Prop :=
  ∃ d, nanddump mtd ⟨start_addr, img.length, .skipbad⟩ env s.flash = .ok d ∧ d.out = img ∧
    d.pages = s.log.map PageWrite.offs ∧ ∀ ofs ∈ d.pages, isBad mtd s.flash (ofs/mtd.eb_size) = false

theorem goodOffsets_pairwise (hio : 0 < mtd.min_io_size) (p : ℕ) :
    (goodOffsets mtd wargs flash p).Pairwise (· < ·) := by
  rw [goodOffsets, List.pairwise_map]
  refine List.Pairwise.imp (fun h => Nat.mul_lt_mul_of_pos_right h hio) ?_
  exact (List.pairwise_lt_range).filter _

theorem nodup_of_lt {l : List ℕ} (h : l.Pairwise (· < ·)) : l.Nodup := h.imp fun hlt => Nat.ne_of_lt hlt

/-- The pages that were written are the good ones that hold the image. -/
theorem log_offsets (hg : Geometry mtd) {img : List Byte} (h : Delivered mtd wargs flash img s)
    (hf : failedEbs mtd s.log = []) {p : ℕ}
    (hrank : rank mtd wargs flash [] p = imagePages mtd img) :
    s.log.map PageWrite.offs = goodOffsets mtd wargs flash p := by
  have hlog : (s.log.map PageWrite.offs).Pairwise (· < ·) := List.pairwise_map.mpr h.once
  have hgood := @goodOffsets_pairwise mtd wargs flash hg.io_pos p
  refine @List.Perm.eq_of_pairwise _ (· < ·) _ _ (fun a b _ _ h₁ h₂ => absurd h₁ (Nat.lt_asymm h₂))
    hlog hgood ?_
  refine (List.perm_ext_iff_of_nodup (nodup_of_lt hlog) (nodup_of_lt hgood)).mpr fun ofs => ?_
  rw [List.mem_map, goodOffsets, List.mem_map]
  constructor
  · rintro ⟨v, hv, rfl⟩
    obtain ⟨q, hoffs, hq, hlt⟩ := h.sent v hv (by rw [hf]; exact List.not_mem_nil)
    rw [hf] at hq hlt
    refine ⟨q, List.mem_filter.mpr ⟨List.mem_range.mpr ?_, decide_eq_true hq⟩, hoffs.symm⟩
    by_contra hge
    have : rank mtd wargs flash [] p ≤ rank mtd wargs flash [] q := Nat.count_monotone _ (not_lt.mp hge)
    omega
  · rintro ⟨q, hq, rfl⟩
    obtain ⟨hlt, hq⟩ := List.mem_filter.mp hq
    have hq := of_decide_eq_true hq
    have hless : rank mtd wargs flash [] q < imagePages mtd img := by
      have hmono : rank mtd wargs flash [] (q+1) ≤ rank mtd wargs flash [] p :=
        Nat.count_monotone _ (List.mem_range.mp hlt)
      rw [rank_add_good (j := 1) (f := q) fun x h1 h2 => by rwa [show x = q by omega]] at hmono
      omega
    have hc := (h.content q (by rw [hf]; exact hq) (by rw [hf]; exact hless)).1
    exact ⟨_, hc, rfl⟩

theorem readsBack_of_start (hg : Geometry mtd) (hq : ∀ eb, env.query eb = true)
    (hr : ∀ ofs, env.read ofs = true) {img : List Byte} (hpage : wargs.mtdoffset &&& (mtd.min_io_size-1) = 0)
    (h : Delivered mtd wargs flash img s) (hf : failedEbs mtd s.log = [])
    (hbad : s.flash.bad = flash.bad) (hlen : img.length%mtd.min_io_size = 0) (hne : img ≠ [])
    (hstart : wargs.mtdoffset%mtd.eb_size = 0 ∨
      isBad mtd flash (wargs.mtdoffset/mtd.eb_size) = false) :
    ReadsBack mtd env wargs.mtdoffset img s := by
  obtain ⟨data, hdata⟩ : ∃ data, s.flash = ⟨flash.bad, data⟩ := ⟨s.flash.data, by rw [← hbad]⟩
  have hio := hg.io_pos
  obtain ⟨n, hn⟩ : ∃ n, img.length = n*mtd.min_io_size :=
    ⟨img.length/mtd.min_io_size, (Nat.div_mul_cancel (Nat.dvd_of_mod_eq_zero hlen)).symm⟩
  have hpages : imagePages mtd img = n := by
    rw [imagePages, hn, Nat.add_sub_assoc hio, Nat.add_comm, Nat.add_mul_div_right _ _ hio,
      Nat.div_eq_of_lt (by omega), Nat.zero_add]
  have hp := hg.page_aligned hpage
  have hpos : 0 < img.length := List.length_pos_iff.mpr hne
  obtain ⟨p₀, hp₀⟩ : ∃ p₀, p₀ = wargs.mtdoffset/mtd.min_io_size := ⟨_, rfl⟩
  rw [← hp₀] at hp
  have hblock : wargs.mtdoffset/mtd.eb_size = p₀/pagesPerEb mtd := by rw [hp, hg.page_block]
  have hbefore : ∀ q < p₀, ¬ GoodPage mtd wargs flash [] q := by
    rintro q hlt ⟨hle, -⟩
    rw [hp] at hle
    exact absurd (Nat.le_of_mul_le_mul_right hle hio) (not_le.mpr hlt)
  have hrank : rank mtd wargs flash [] p₀ = 0 := Nat.count_iff_forall_not.mpr hbefore
  have hinit : Dumping mtd wargs s.flash img n p₀ 0
      ⟨wargs.mtdoffset, dumpEnd mtd ⟨wargs.mtdoffset, img.length, .skipbad⟩, 1, true, false, [], []⟩ := by
    rw [hdata]
    refine ⟨hp, hp.le, Nat.zero_le n, ?_, hrank, ?_, fun hfirst => (by cases hfirst), ?_, ?_⟩
    · rw [Nat.sub_zero, ← hn, dumpEnd]
      dsimp only
      split
      next hcase => exact (min_eq_left (by omega)).symm
      next hcase => exact (min_eq_right (by omega)).symm
    · intro hb
      have hb : isBad mtd flash (p₀/pagesPerEb mtd) = true := hb
      rw [hblock, hb] at hstart
      rcases hstart with hmod | hfalse
      · rw [hp, hg.page_offs] at hmod
        exact (Nat.mul_eq_zero.mp hmod).resolve_right hio.ne'
      · cases hfalse
    · rw [Nat.zero_mul, List.take_zero]
    · rw [goodOffsets, List.filter_eq_nil_iff.mpr]
      · rfl
      · intro q hq hgood
        exact hbefore q (List.mem_range.mp hq) (of_decide_eq_true hgood)
  obtain ⟨p', d, hrun, hd⟩ := @dumpLoop_image _ ⟨wargs.mtdoffset, img.length, .skipbad⟩ _ _ _ _ _ _ _ _ hg rfl hq hr hn
    (fun k hk => by
      obtain ⟨q, ⟨hlt, hgood, hrk⟩, -⟩ := h.each k (by rw [hpages]; exact hk)
      rw [hf] at hgood hrk
      rw [hdata]
      exact ⟨q, hlt, hgood, hrk⟩)
    (fun q hgood hlt => by
      rw [hdata] at hgood hlt
      have hc := (h.content q (by rw [hf]; exact hgood) (by rw [hf, hpages]; exact hlt)).2
      rw [hf] at hc
      rw [hdata] at hc ⊢
      exact hc)
    (mtd.size+1) hinit (by dsimp only; omega) (Nat.succ_pos _)
  have hdp := hd.pages
  have hdr := hd.rank_eq
  rw [hdata] at hdp hdr
  refine ⟨d, ?_, ?_, ?_, ?_⟩
  · rw [nanddump, if_neg (not_not.mpr hpage)]
    exact hrun
  · rw [hd.out, ← hn, List.take_length]
  · rw [log_offsets hg h hf (p := p') (hdr.trans hpages.symm)]
    exact hdp
  · intro ofs hofs
    rw [hdp] at hofs
    obtain ⟨q, hq', rfl⟩ := List.mem_map.mp hofs
    rw [hg.page_block, hdata]
    exact (of_decide_eq_true (List.mem_filter.mp hq').2).2.1

/-- The two programs go through the same pages for an image that is not empty, when the start is
not inside a bad eraseblock. -/
theorem nanddump_reads_back_iff (hg : Geometry mtd) (hb : wargs.blockalign = 1)
    (hn : wargs.noskipbad = false) (hw : ∀ offs, wenv.write offs ≠ .eio)
    (hq : ∀ eb, env.query eb = true) (hr : ∀ ofs, env.read ofs = true) {file : List Byte}
    {garbage : ℕ → Byte} (hlen : (image wargs file).length%mtd.min_io_size = 0)
    (h : nandwrite mtd wargs wenv file flash garbage = .ok s) :
    ReadsBack mtd env wargs.mtdoffset (image wargs file) s ↔
      image wargs file ≠ [] ∧ (wargs.mtdoffset%mtd.eb_size = 0 ∨
        isBad mtd flash (wargs.mtdoffset/mtd.eb_size) = false) := by
  have hio := hg.io_pos
  obtain ⟨hpage, -, -, hloop, hend⟩ := nandwrite_ok h
  have hdel := delivered_of_ok hg hb hn h
  have hquiet : Quiet flash s := writeLoop_quiet hg hb hn hw hloop
    ⟨fun v hv => absurd hv List.not_mem_nil, rfl⟩
  have hf : failedEbs mtd s.log = [] := failedEbs_quiet hquiet
  refine ⟨?_, fun hc => readsBack_of_start hg hq hr hpage hdel hf hquiet.bad hlen hc.1 hc.2⟩
  rintro ⟨d, hrun, -, hpages, -⟩
  have hp := hg.page_aligned hpage
  -- the first good eraseblock from the start on
  have hex : ∃ b, wargs.mtdoffset/mtd.eb_size ≤ b ∧ isBad mtd flash b = false := by
    obtain ⟨b, hle, -, hgood⟩ := good_block_of_ok hg hb hn h
    exact ⟨b, hle, hgood⟩
  classical
  obtain ⟨hle, hgood⟩ := Nat.find_spec hex
  have hmin : ∀ c, wargs.mtdoffset/mtd.eb_size ≤ c → c < Nat.find hex → isBad mtd flash c = true := by
    intro c hc hlt
    have := Nat.find_min hex hlt
    rw [not_and, Bool.not_eq_false] at this
    exact this hc
  have hcnt : Nat.find hex < mtd.eb_cnt := by
    obtain ⟨b, hle, hlt, hgood⟩ := good_block_of_ok hg hb hn h
    exact (Nat.find_min' hex ⟨hle, hgood⟩).trans_lt hlt
  obtain ⟨b, hbdef⟩ : ∃ b, b = Nat.find hex := ⟨_, rfl⟩
  rw [← hbdef] at hle hgood hmin hcnt
  obtain ⟨data, hdata⟩ : ∃ data, s.flash = ⟨flash.bad, data⟩ :=
    ⟨s.flash.data, by rw [← hquiet.bad]⟩
  rw [nanddump, if_neg (not_not.mpr hpage), hdata] at hrun
  have hlt : wargs.mtdoffset < mtd.size := by
    have hdiv := Nat.lt_div_mul_add (a := wargs.mtdoffset) hg.eb_pos
    have hmul := Nat.mul_le_mul_right mtd.eb_size (show wargs.mtdoffset/mtd.eb_size+1 ≤ mtd.eb_cnt by omega)
    have hsize : mtd.eb_cnt*mtd.eb_size ≤ mtd.size := by
      rw [mtd.eb_cnt_eq]
      exact Nat.div_mul_le_self _ _
    rw [Nat.succ_mul] at hmul
    omega
  have hfirst := @dumpLoop_first _ _ _ ⟨flash.bad, data⟩ ⟨wargs.mtdoffset,
      dumpEnd mtd ⟨wargs.mtdoffset, (image wargs file).length, .skipbad⟩, 1, true, false, [], []⟩ _
    hg rfl hq hr _ hcnt hgood (b-wargs.mtdoffset/mtd.eb_size) hmin (by dsimp only; omega) hp
    (fun hf => by cases hf)
    (by
      dsimp only [dumpEnd]
      split <;> omega)
    (by
      dsimp only [dumpEnd]
      split <;> omega) rfl _ _ hrun
  rw [hpages] at hfirst
  have hlog : (s.log.map PageWrite.offs).Pairwise (· < ·) := List.pairwise_map.mpr hdel.once
  have hne : image wargs file ≠ [] := by
    intro hempty
    obtain ⟨t, ht⟩ := hfirst
    cases hl : s.log with
    | nil =>
      rw [hl] at ht
      cases ht
    | cons v l =>
      obtain ⟨q, -, -, hrank⟩ := hdel.sent v (by rw [hl]; exact List.mem_cons_self)
        (by rw [hf]; exact List.not_mem_nil)
      rw [imagePages, hempty, List.length_nil, Nat.zero_add, Nat.div_eq_of_lt (by omega)] at hrank
      exact absurd hrank (Nat.not_lt_zero _)
  refine ⟨hne, ?_⟩
  by_contra hnot
  rw [not_or, Bool.not_eq_false] at hnot
  obtain ⟨hmod, hbad⟩ := hnot
  have hlt : wargs.mtdoffset/mtd.eb_size < b := by
    rcases hle.lt_or_eq with hlt | heq
    · exact hlt
    · rw [heq, hgood] at hbad
      cases hbad
  have hdiv := Nat.div_add_mod' wargs.mtdoffset mtd.eb_size
  have hmodlt := Nat.mod_lt wargs.mtdoffset hg.eb_pos
  have hmul : wargs.mtdoffset/mtd.eb_size*mtd.eb_size+(b-wargs.mtdoffset/mtd.eb_size)*mtd.eb_size =
      b*mtd.eb_size := by
    rw [← Nat.add_mul, Nat.add_sub_of_le hle]
  have hone := Nat.mul_le_mul_right mtd.eb_size (show 1 ≤ b-wargs.mtdoffset/mtd.eb_size by omega)
  have hofs : b*pagesPerEb mtd*mtd.min_io_size = b*mtd.eb_size := by rw [Nat.mul_assoc, ← hg.eb_eq]
  -- `nandwrite` has written the first page of that eraseblock
  have hgoodPage : GoodPage mtd wargs flash [] (b*pagesPerEb mtd) := by
    refine ⟨by rw [hofs]; omega, ?_, List.not_mem_nil⟩
    rw [Nat.mul_div_cancel _ hg.pages_pos]
    exact hgood
  have hrank : rank mtd wargs flash [] (b*pagesPerEb mtd) = 0 := by
    refine Nat.count_iff_forall_not.mpr ?_
    rintro q hq ⟨hstart, hgq, -⟩
    have hqb : q/pagesPerEb mtd < b := (Nat.div_lt_iff_lt_mul hg.pages_pos).mpr hq
    have hbq : wargs.mtdoffset/mtd.eb_size ≤ q/pagesPerEb mtd := by
      rw [← hg.page_block]
      exact Nat.div_le_div_right hstart
    rw [hmin _ hbq hqb] at hgq
    cases hgq
  have hpos : 0 < imagePages mtd (image wargs file) := by
    rw [imagePages_lt hio, Nat.zero_mul]
    exact List.length_pos_iff.mpr hne
  have hmem := (hdel.content _ (by rw [hf]; exact hgoodPage) (by rw [hf, hrank]; exact hpos)).1
  have hmem : b*mtd.eb_size ∈ s.log.map PageWrite.offs := by
    rw [← hofs]
    exact List.mem_map_of_mem hmem
  obtain ⟨t, ht⟩ := hfirst
  rw [← ht] at hmem hlog
  rcases List.mem_append.mp hmem with heq | htail
  · have := List.mem_singleton.mp heq
    dsimp only at this
    omega
  · have := (List.pairwise_append.mp hlog).2.2 _ (List.mem_singleton_self _) _ htail
    dsimp only at this
    omega

/-- The same device with nothing that fails. -/
def readingEnv : DumpEnv :=
  ⟨⟨fun _ => true, fun _ => true, fun _ => .done, fun _ => .done, fun _ => true, fun _ _ => 0xff#8⟩,
    fun _ => true⟩

/-- The image of two pages is read back from the second page of the second eraseblock on. -/
theorem nanddump_reads_back_page : ∃ s, nandwrite smallDev ⟨10, 0, 1, false, false, false⟩
    readingEnv.toWriteEnv [1#8, 2#8, 3#8, 4#8] smallFlash (fun _ => 0#8) = .ok s ∧
    ReadsBack smallDev readingEnv 10 [1#8, 2#8, 3#8, 4#8] s := by
  have hg : Geometry smallDev := ⟨⟨3, by decide, rfl⟩, ⟨4, rfl⟩, by decide⟩
  have hsome : (nandwrite smallDev ⟨10, 0, 1, false, false, false⟩ readingEnv.toWriteEnv
      [1#8, 2#8, 3#8, 4#8] smallFlash (fun _ => 0#8)).toOption.isSome = true := by decide +kernel
  cases hrun : nandwrite smallDev ⟨10, 0, 1, false, false, false⟩ readingEnv.toWriteEnv
      [1#8, 2#8, 3#8, 4#8] smallFlash (fun _ => 0#8) with
  | error e =>
    rw [hrun] at hsome
    cases hsome
  | ok s =>
    refine ⟨s, rfl, ?_⟩
    exact (@nanddump_reads_back_iff _ _ readingEnv _ _ _ hg rfl rfl (fun _ h => by cases h) (fun _ => rfl)
      (fun _ => rfl) _ _ rfl hrun).mpr ⟨by decide, Or.inr rfl⟩

/-- From the second page of the first eraseblock on, which is bad, the dump begins one page too
late. -/
theorem nanddump_bad_start : ∃ s d, nandwrite smallDev ⟨2, 0, 1, false, false, false⟩
      readingEnv.toWriteEnv [1#8, 2#8, 3#8, 4#8] smallFlash (fun _ => 0#8) = .ok s ∧
    nanddump smallDev ⟨2, 4, .skipbad⟩ readingEnv s.flash = .ok d ∧
    d.out = [3#8, 4#8, 0xff#8, 0xff#8] ∧ ¬ ReadsBack smallDev readingEnv 2 [1#8, 2#8, 3#8, 4#8] s := by
  have hout : (nandwrite smallDev ⟨2, 0, 1, false, false, false⟩ readingEnv.toWriteEnv
      [1#8, 2#8, 3#8, 4#8] smallFlash (fun _ => 0#8)).toOption.bind (fun s =>
        (nanddump smallDev ⟨2, 4, .skipbad⟩ readingEnv s.flash).toOption.map DumpState.out) =
      some [3#8, 4#8, 0xff#8, 0xff#8] := by decide +kernel
  cases hrun : nandwrite smallDev ⟨2, 0, 1, false, false, false⟩ readingEnv.toWriteEnv
      [1#8, 2#8, 3#8, 4#8] smallFlash (fun _ => 0#8) with
  | error e =>
    rw [hrun] at hout
    cases hout
  | ok s =>
    rw [hrun] at hout
    change (nanddump smallDev ⟨2, 4, .skipbad⟩ readingEnv s.flash).toOption.map DumpState.out = _ at hout
    cases hdump : nanddump smallDev ⟨2, 4, .skipbad⟩ readingEnv s.flash with
    | error e =>
      rw [hdump] at hout
      cases hout
    | ok d =>
      rw [hdump] at hout
      have hd : d.out = [3#8, 4#8, 0xff#8, 0xff#8] := Option.some.inj hout
      refine ⟨s, d, rfl, hdump, hd, ?_⟩
      rintro ⟨d', hd', himg, -⟩
      have hd' : nanddump smallDev ⟨2, 4, .skipbad⟩ readingEnv s.flash = .ok d' := hd'
      rw [hdump] at hd'
      cases hd'
      rw [hd] at himg
      exact absurd himg (by decide)

end Roundtrip

end ChipTools.Nand
