import ChipTools.FelSwap

/-! `aw_fel_write_and_execute_spl`: the image is uploaded around the buffers that the BROM
uses, and the thunk moves the displaced parts into place. -/
namespace ChipTools.Fel
open Arm

/-- One `aw_fel_write`. -/
structure FelWrite where
  addr : Word
  data : List (BitVec 8)

def applyWrites (m : Mem) (ws : List FelWrite) : Mem :=
  ws.foldl (fun m w => awFelWrite m w.data w.addr) m

/-- `le32toh(buf32[i])`. -/
def buf32 (buf : List (BitVec 8)) (i : ℕ) : Word :=
  buf.getD (4*i+3) 0#8 ++ buf.getD (4*i+2) 0#8 ++ buf.getD (4*i+1) 0#8 ++ buf.getD (4*i) 0#8

/-- "eGON.BT0" -/
def egonSignature : List (BitVec 8) :=
  [0x65#8, 0x47#8, 0x4f#8, 0x4e#8, 0x2e#8, 0x42#8, 0x54#8, 0x30#8]

/-- The length field of the eGON header. -/
def splLen (buf : List (BitVec 8)) : Word := buf32 buf 4

def splChecksum (buf : List (BitVec 8)) : Word :=
  (List.range ((splLen buf).toNat/4)).foldl (fun sum i => sum-buf32 buf i)
    (2#32*buf32 buf 3-0x5F0A6C39#32)

def splLenMax : Word := 0x8000#32

/-- The variables of the upload loop. `len` is the length of the rest `buf`. -/
structure SplUpload where
  cur_addr : Word
  buf : List (BitVec 8)
  spl_len_limit : Word
  writes : List FelWrite

namespace SplUpload

/-- Writes up to `n` bytes of the rest to `addr`. -/
def write (u : SplUpload) (addr n : Word) : SplUpload :=
  let tmp := min n.toNat u.buf.length
  { u with cur_addr := u.cur_addr+BitVec.ofNat 32 tmp, buf := u.buf.drop tmp
           writes := u.writes ++ [⟨addr, u.buf.take tmp⟩] }

def limit (spl_addr : Word) (e : SramSwapBuffers) (spl_len_limit : Word) : Word :=
  if spl_addr ≤ e.buf2 ∧ e.buf2 < spl_addr+spl_len_limit then e.buf2-spl_addr
  else spl_len_limit

/-- The part of the image in front of the BROM buffer. -/
def gap (e : SramSwapBuffers) (u : SplUpload) : SplUpload :=
  if u.buf ≠ [] ∧ u.cur_addr < e.buf1 then u.write u.cur_addr (e.buf1-u.cur_addr) else u

/-- The part inside of it, which goes to the backup storage. -/
def backup (e : SramSwapBuffers) (u : SplUpload) : SplUpload :=
  if u.buf ≠ [] ∧ u.cur_addr = e.buf1 then u.write e.buf2 e.size else u

def entry (spl_addr : Word) (e : SramSwapBuffers) (u : SplUpload) : SplUpload :=
  ({ u with spl_len_limit := limit spl_addr e u.spl_len_limit }.gap e).backup e

/-- The loop over the table, which ends at an entry of size 0. -/
def run (spl_addr : Word) : List SramSwapBuffers → SplUpload → SplUpload
  | [], u => u
  | e :: es, u => if e.size = 0#32 then u else run spl_addr es (entry spl_addr e u)

/-- All writes, with the one for what the loop has left. -/
def finish (u : SplUpload) : List FelWrite :=
  if u.buf = [] then u.writes else u.writes ++ [⟨u.cur_addr, u.buf⟩]

end SplUpload

/-- The image as far as its header says, through the loop. -/
def splUpload (soc : SocInfo) (buf : List (BitVec 8)) : SplUpload :=
  SplUpload.run soc.spl_addr soc.swap_buffers
    ⟨soc.spl_addr, buf.take (splLen buf).toNat, splLenMax, []⟩

/-- Number of entries in front of the end of the table. -/
def tableLength (es : List SramSwapBuffers) : ℕ := (es.takeWhile fun e => e.size ≠ 0#32).length

def tableWords (es : List SramSwapBuffers) : List Word :=
  es.flatMap fun e => [e.buf1, e.buf2, e.size]

/-- `thunk_buf`: the thunk, the SPL address and the table with its end. -/
def thunkWords (soc : SocInfo) : List Word :=
  felToSplThunk ++ soc.spl_addr :: tableWords (soc.swap_buffers.take (tableLength soc.swap_buffers+1))

/-- Uploads of `aw_fel_write_and_execute_spl`, or the text of the `pr_fatal` that ends it.
An empty table stands for a null pointer, and `tt` tells whether the MMU was found enabled. -/
def awFelWriteAndExecuteSpl (soc : SocInfo) (tt : Bool) (buf : List (BitVec 8)) :
    Except String (List FelWrite) :=
  if soc.swap_buffers = [] then .error "SPL: Unsupported SoC type\n"
  else if buf.length < 32 ∨ (buf.drop 4).take 8 ≠ egonSignature then
    .error "SPL: eGON header is not found\n"
  else if buf.length < (splLen buf).toNat ∨ (splLen buf).toNat%4 ≠ 0 then
    .error "SPL: bad length in the eGON header\n"
  else if splChecksum buf ≠ 0#32 then .error "SPL: checksum check failed\n"
  else if !tt ∧ soc.mmu_tt_addr ≠ 0#32 ∧ soc.mmu_tt_addr &&& 0x3FFF#32 ≠ 0#32 then
    .error "SPL: 'mmu_tt_addr' must be 16K aligned\n"
  else
    let u := splUpload soc buf
    let limit := if soc.thunk_addr < u.spl_len_limit then soc.thunk_addr else u.spl_len_limit
    if limit < splLen buf then
      .error ("SPL: too large (need " ++ toString (splLen buf).toNat ++ ", have " ++
        toString limit.toNat ++ ")\n")
    else
      if soc.thunk_size.toNat < 4*(thunkWords soc).length then
        .error ("SPL: bad thunk size (need " ++ toString (4*felToSplThunk.length) ++ ", have " ++
          toString soc.thunk_size.toNat ++ ")\n")
      else .ok (u.finish ++ [⟨soc.thunk_addr, leBytes (thunkWords soc)⟩])

theorem applyWrites_append (m : Mem) (ws : List FelWrite) (w : FelWrite) :
    applyWrites m (ws ++ [w]) = awFelWrite (applyWrites m ws) w.data w.addr := by
  simp [applyWrites]

/-- Where an image of `n` bytes at `spl_addr` may go: the ranges to swap do not meet each
other, come in order, and no backup storage meets the image. -/
structure SplLayout (spl_addr : Word) (es : List SramSwapBuffers) (n : ℕ) : Prop where
  entries : Entries es
  sorted : es.Pairwise fun e f => e.buf1.toNat+e.size.toNat ≤ f.buf1.toNat
  backup : ∀ e ∈ es, Apart spl_addr n e.buf2 e.size.toNat
  no_wrap : spl_addr.toNat+n < 2^32

section Upload

variable {spl_addr : Word} {es : List SramSwapBuffers} {image : List (BitVec 8)}

theorem add_ofNat_toNat {a : Word} {k : ℕ} (h : a.toNat+k < 2^32) :
    (a+BitVec.ofNat 32 k).toNat = a.toNat+k := by
  rw [BitVec.toNat_add, BitVec.toNat_ofNat]
  omega

/-- A byte of the image outside of the BROM buffers stays where it is. -/
theorem SplLayout.swapAddr_gap (hl : SplLayout spl_addr es image.length) {k : ℕ}
    (hk : k < image.length)
    (hb : ∀ f ∈ es, f.buf1.toNat+f.size.toNat ≤ spl_addr.toNat+k ∨
      spl_addr.toNat+k < f.buf1.toNat) :
    swapAddr es (spl_addr+BitVec.ofNat 32 k) = spl_addr+BitVec.ofNat 32 k := by
  have hn := hl.no_wrap
  have hx := add_ofNat_toNat (a := spl_addr) (k := k) (by omega)
  apply swapAddr_other
  intro f hf hc
  rcases hc with h1 | h2
  · have := hb f hf
    unfold InRange at h1
    omega
  · have := hl.backup f hf
    unfold Apart at this
    unfold InRange at h2
    omega

/-- A byte inside a BROM buffer goes to the same offset of the backup storage. -/
theorem SplLayout.swapAddr_backup (hl : SplLayout spl_addr es image.length)
    {e : SramSwapBuffers} (he : e ∈ es) {i : ℕ} (hi : i < e.size.toNat) :
    swapAddr es (e.buf1+BitVec.ofNat 32 i) = e.buf2+BitVec.ofNat 32 i := by
  have hv := (hl.entries.valid e he).buf1_le
  have hr : InRange e.buf1 e.size.toNat (e.buf1+BitVec.ofNat 32 i) := by
    unfold InRange
    rw [add_ofNat_toNat (by omega)]
    omega
  rw [swapAddr_of_covers hl.entries he (.inl hr)]
  unfold SramSwapBuffers.swap
  rw [exchange_first hr, BitVec.add_comm e.buf1, BitVec.add_sub_cancel, BitVec.add_comm]

/-- The first `j` bytes of the image have been written, each to the address that the swap
will bring it from. -/
structure Uploaded (spl_addr : Word) (es : List SramSwapBuffers) (image : List (BitVec 8))
    (m : Mem) (u : SplUpload) (j : ℕ) : Prop where
  le : j ≤ image.length
  cur : u.cur_addr = spl_addr+BitVec.ofNat 32 j
  buf : u.buf = image.drop j
  placed : ∀ w ∈ u.writes, ∀ i < w.data.length, ∃ k < image.length,
    w.addr+BitVec.ofNat 32 i = swapAddr es (spl_addr+BitVec.ofNat 32 k)
  mem : ∀ k < j,
    image[k]? = some (applyWrites m u.writes (swapAddr es (spl_addr+BitVec.ofNat 32 k)))

/-- A further piece of `n` bytes. -/
theorem Uploaded.piece {m : Mem} {u : SplUpload} {j n : ℕ} {addr : Word}
    (hl : SplLayout spl_addr es image.length) (h : Uploaded spl_addr es image m u j)
    (hn : j+n ≤ image.length)
    (hp : ∀ i < n, addr+BitVec.ofNat 32 i = swapAddr es (spl_addr+BitVec.ofNat 32 (j+i))) :
    (∀ w ∈ u.writes ++ [⟨addr, u.buf.take n⟩], ∀ i < w.data.length, ∃ k < image.length,
      w.addr+BitVec.ofNat 32 i = swapAddr es (spl_addr+BitVec.ofNat 32 k)) ∧
    ∀ k < j+n, image[k]? = some (applyWrites m (u.writes ++ [⟨addr, u.buf.take n⟩])
      (swapAddr es (spl_addr+BitVec.ofNat 32 k))) := by
  have hw := hl.no_wrap
  have hlen : (u.buf.take n).length = n := by
    rw [h.buf, List.length_take, List.length_drop]
    omega
  constructor
  · intro w hmem i hi
    rcases List.mem_append.mp hmem with hold | hnew
    · exact h.placed w hold i hi
    · rw [List.mem_singleton.mp hnew] at hi ⊢
      rw [hlen] at hi
      exact ⟨j+i, by omega, hp i hi⟩
  · intro k hk
    rw [applyWrites_append]
    by_cases hkj : k < j
    · rw [awFelWrite_outside, ← h.mem k hkj]
      rw [hlen]
      change n ≤ (swapAddr es (spl_addr+BitVec.ofNat 32 k)-addr).toNat
      by_contra hlt
      -- the permutation is injective, so no later byte hits the address of this one
      have he := eq_add_of_offset addr (swapAddr es (spl_addr+BitVec.ofNat 32 k)) _ rfl
      rw [hp _ (by omega)] at he
      have hinj := congrArg (swapAddr es) he
      rw [swapAddr_swapAddr hl.entries, swapAddr_swapAddr hl.entries] at hinj
      exact add_ofNat_ne spl_addr (by omega) (by omega) (by omega) hinj
    · obtain ⟨i, rfl⟩ : ∃ i, k = j+i := ⟨k-j, by omega⟩
      rw [← hp i (by omega), awFelWrite_byte _ _ _ i (by rw [hlen]; omega) (by rw [hlen]; omega),
        ← List.getElem?_eq_getElem, h.buf, List.getElem?_take, if_pos (by omega),
        List.getElem?_drop]

theorem Uploaded.write {m : Mem} {u : SplUpload} {j : ℕ} {addr n : Word}
    (hl : SplLayout spl_addr es image.length) (h : Uploaded spl_addr es image m u j)
    (hp : ∀ i < min n.toNat u.buf.length,
      addr+BitVec.ofNat 32 i = swapAddr es (spl_addr+BitVec.ofNat 32 (j+i))) :
    Uploaded spl_addr es image m (u.write addr n) (j+min n.toNat u.buf.length) := by
  have hle := h.le
  have hlen : u.buf.length = image.length-j := by
    rw [h.buf, List.length_drop]
  obtain ⟨hplaced, hmem⟩ := h.piece hl (n := min n.toNat u.buf.length) (by omega) hp
  refine ⟨by omega, ?_, ?_, hplaced, hmem⟩
  · change u.cur_addr+_ = _
    rw [h.cur, BitVec.add_assoc, ← BitVec.ofNat_add]
  · change u.buf.drop _ = _
    rw [h.buf, List.drop_drop]

/-- While bytes are left, the BROM buffers that the loop has dealt with lie below the
current address, and the others at it or above. -/
def Between (past rest : List SramSwapBuffers) (u : SplUpload) : Prop :=
  u.buf ≠ [] → (∀ f ∈ past, f.buf1.toNat+f.size.toNat ≤ u.cur_addr.toNat) ∧
    ∀ f ∈ rest, u.cur_addr.toNat ≤ f.buf1.toNat

theorem Uploaded.cur_toNat {m : Mem} {u : SplUpload} {j : ℕ}
    (hl : SplLayout spl_addr es image.length) (h : Uploaded spl_addr es image m u j) :
    u.cur_addr.toNat = spl_addr.toNat+j := by
  have := hl.no_wrap
  have := h.le
  rw [h.cur, add_ofNat_toNat (by omega)]

theorem Uploaded.buf_length {m : Mem} {u : SplUpload} {j : ℕ}
    (h : Uploaded spl_addr es image m u j) : u.buf.length = image.length-j := by
  rw [h.buf, List.length_drop]

section Entry

variable {past rest : List SramSwapBuffers} {e : SramSwapBuffers}
variable (hl : SplLayout spl_addr es image.length) (hes : es = past ++ e :: rest)

include hl hes

theorem gap_uploaded {m : Mem} {u : SplUpload} {j : ℕ} (h : Uploaded spl_addr es image m u j)
    (hb : Between past (e :: rest) u) :
    ∃ j', Uploaded spl_addr es image m (u.gap e) j' ∧ Between past (e :: rest) (u.gap e) ∧
      ((u.gap e).buf ≠ [] → (u.gap e).cur_addr = e.buf1) := by
  have hcur := h.cur_toNat hl
  have hlen := h.buf_length
  unfold SplUpload.gap
  split_ifs with hc
  · obtain ⟨hne, hlt⟩ := hc
    obtain ⟨hpast, hrest⟩ := hb hne
    have hsub : (e.buf1-u.cur_addr).toNat = e.buf1.toNat-u.cur_addr.toNat :=
      BitVec.toNat_sub_of_le (BitVec.le_of_lt hlt)
    rw [BitVec.lt_def] at hlt
    have hsorted := hl.sorted
    rw [hes, List.pairwise_append, List.pairwise_cons] at hsorted
    have h1 := @Uploaded.write _ _ _ _ _ _ u.cur_addr (e.buf1-u.cur_addr) hl h (by
      intro i hi
      rw [hl.swapAddr_gap (by omega), h.cur, BitVec.add_assoc, ← BitVec.ofNat_add]
      intro f hf
      rw [hes, List.mem_append, List.mem_cons] at hf
      rcases hf with hf | rfl | hf
      · have := hpast f hf
        omega
      · omega
      · have := hsorted.2.1.1 f hf
        omega)
    have hc1 := h1.cur_toNat hl
    have hl1 := h1.buf_length
    rw [hsub] at hc1 hl1
    refine ⟨_, h1, ?_, ?_⟩
    · intro hne'
      have := List.length_pos_iff.mpr hne'
      constructor
      · intro f hf
        have := hpast f hf
        omega
      · intro f hf
        rcases List.mem_cons.mp hf with rfl | hf
        · omega
        · have := hsorted.2.1.1 f hf
          omega
    · intro hne'
      have := List.length_pos_iff.mpr hne'
      apply BitVec.eq_of_toNat_eq
      omega
  · refine ⟨j, h, hb, ?_⟩
    intro hne
    have hge : ¬u.cur_addr < e.buf1 := fun hlt => hc ⟨hne, hlt⟩
    have := (hb hne).2 e List.mem_cons_self
    rw [BitVec.lt_def] at hge
    apply BitVec.eq_of_toNat_eq
    omega

theorem backup_uploaded {m : Mem} {u : SplUpload} {j : ℕ} (h : Uploaded spl_addr es image m u j)
    (hb : Between past (e :: rest) u) (he : u.buf ≠ [] → u.cur_addr = e.buf1) :
    ∃ j', Uploaded spl_addr es image m (u.backup e) j' ∧
      Between (past ++ [e]) rest (u.backup e) := by
  have hmem : e ∈ es := by
    rw [hes]
    exact List.mem_append_right past List.mem_cons_self
  have hcur := h.cur_toNat hl
  have hlen := h.buf_length
  have hsorted := hl.sorted
  rw [hes, List.pairwise_append, List.pairwise_cons] at hsorted
  unfold SplUpload.backup
  split_ifs with hc
  · obtain ⟨hne, heq⟩ := hc
    obtain ⟨hpast, hrest⟩ := hb hne
    have h1 := @Uploaded.write _ _ _ _ _ _ e.buf2 e.size hl h (by
      intro i hi
      rw [BitVec.ofNat_add, ← BitVec.add_assoc, ← h.cur, heq, hl.swapAddr_backup hmem (by omega)])
    refine ⟨_, h1, ?_⟩
    intro hne'
    have hc1 := h1.cur_toNat hl
    have hl1 := h1.buf_length
    have := List.length_pos_iff.mpr hne'
    have hb1 : e.buf1.toNat = spl_addr.toNat+j := by rw [← heq, hcur]
    constructor
    · intro f hf
      rcases List.mem_append.mp hf with hf | hf
      · have := hpast f hf
        omega
      · rw [List.mem_singleton.mp hf]
        omega
    · intro f hf
      have := hsorted.2.1.1 f hf
      omega
  · have hnil : u.buf = [] := by
      by_contra hne
      exact hc ⟨hne, he hne⟩
    exact ⟨j, h, fun hne => absurd hnil hne⟩

theorem entry_uploaded {m : Mem} {u : SplUpload} {j : ℕ} (h : Uploaded spl_addr es image m u j)
    (hb : Between past (e :: rest) u) :
    ∃ j', Uploaded spl_addr es image m (u.entry spl_addr e) j' ∧
      Between (past ++ [e]) rest (u.entry spl_addr e) := by
  have h0 : Uploaded spl_addr es image m
      { u with spl_len_limit := SplUpload.limit spl_addr e u.spl_len_limit } j :=
    ⟨h.le, h.cur, h.buf, h.placed, h.mem⟩
  obtain ⟨j1, h1, hb1, he1⟩ := gap_uploaded hl hes h0 hb
  exact backup_uploaded hl hes h1 hb1 he1

end Entry

/-- The loop over the rest of the table. -/
theorem run_uploaded (hl : SplLayout spl_addr es image.length) {past rest : List SramSwapBuffers}
    {tail : List SramSwapBuffers} (hsize : ∀ e ∈ rest, e.size ≠ 0#32)
    (htail : ∀ e ∈ tail.head?, e.size = 0#32) (hes : es = past ++ rest) {m : Mem}
    {u : SplUpload} {j : ℕ} (h : Uploaded spl_addr es image m u j) (hb : Between past rest u) :
    ∃ j', Uploaded spl_addr es image m (SplUpload.run spl_addr (rest ++ tail) u) j' ∧
      Between es [] (SplUpload.run spl_addr (rest ++ tail) u) := by
  induction rest generalizing past u j with
  | nil =>
    have hrun : SplUpload.run spl_addr ([] ++ tail) u = u := by
      cases tail with
      | nil => rfl
      | cons e tail => exact if_pos (htail e rfl)
    rw [hrun, hes, List.append_nil]
    rw [hes, List.append_nil] at h
    exact ⟨j, h, hb⟩
  | cons e rest ih =>
    obtain ⟨j1, h1, hb1⟩ := entry_uploaded hl hes h hb
    have hrun : SplUpload.run spl_addr (e :: rest ++ tail) u =
        SplUpload.run spl_addr (rest ++ tail) (u.entry spl_addr e) :=
      if_neg (hsize e List.mem_cons_self)
    rw [hrun]
    exact ih (fun f hf => hsize f (List.mem_cons_of_mem e hf))
      (by rw [hes, List.append_assoc, List.singleton_append]) h1 hb1

/-- With the rest written too, the whole image is in place. -/
theorem finish_uploaded (hl : SplLayout spl_addr es image.length) {m : Mem} {u : SplUpload}
    {j : ℕ} (h : Uploaded spl_addr es image m u j) (hb : Between es [] u) :
    (∀ w ∈ u.finish, ∀ i < w.data.length, ∃ k < image.length,
      w.addr+BitVec.ofNat 32 i = swapAddr es (spl_addr+BitVec.ofNat 32 k)) ∧
    ∀ k < image.length, image[k]? =
      some (applyWrites m u.finish (swapAddr es (spl_addr+BitVec.ofNat 32 k))) := by
  have hlen := h.buf_length
  have hle := h.le
  unfold SplUpload.finish
  split_ifs with hnil
  · have hj : image.length = j := by
      rw [hnil] at hlen
      change 0 = _ at hlen
      omega
    refine ⟨h.placed, ?_⟩
    rw [hj]
    exact h.mem
  · have hp := @Uploaded.piece _ _ _ _ _ _ (image.length-j) u.cur_addr hl h (by omega) (by
      intro i hi
      rw [hl.swapAddr_gap (by omega), h.cur, BitVec.add_assoc, ← BitVec.ofNat_add]
      intro f hf
      have h1 := (hb hnil).1 f hf
      rw [h.cur_toNat hl] at h1
      omega)
    have htake : u.buf.take (image.length-j) = u.buf := by
      rw [← hlen, List.take_length]
    rw [htake, show j+(image.length-j) = image.length from by omega] at hp
    exact hp

end Upload

theorem limit_le {spl_addr limit : Word} (hw : spl_addr.toNat+limit.toNat < 2^32)
    (e : SramSwapBuffers) :
    (SplUpload.limit spl_addr e limit).toNat ≤ limit.toNat ∧
    (spl_addr.toNat ≤ e.buf2.toNat →
      spl_addr.toNat+(SplUpload.limit spl_addr e limit).toNat ≤ e.buf2.toNat) := by
  have hadd : (spl_addr+limit).toNat = spl_addr.toNat+limit.toNat := by
    rw [BitVec.toNat_add]
    omega
  unfold SplUpload.limit
  split_ifs with h
  · obtain ⟨hle, hlt⟩ := h
    have hsub : (e.buf2-spl_addr).toNat = e.buf2.toNat-spl_addr.toNat :=
      BitVec.toNat_sub_of_le hle
    rw [BitVec.lt_def] at hlt
    rw [BitVec.le_def] at hle
    omega
  · rw [BitVec.le_def, BitVec.lt_def] at h
    omega

theorem entry_limit (spl_addr : Word) (e : SramSwapBuffers) (u : SplUpload) :
    (u.entry spl_addr e).spl_len_limit = SplUpload.limit spl_addr e u.spl_len_limit := by
  unfold SplUpload.entry SplUpload.gap SplUpload.backup
  split_ifs <;> rfl

/-- The limit that the loop ends with keeps the image below every backup storage that
starts behind `spl_addr`. -/
theorem run_limit {spl_addr : Word} {es : List SramSwapBuffers} {u : SplUpload}
    (hw : spl_addr.toNat+u.spl_len_limit.toNat < 2^32) :
    (SplUpload.run spl_addr es u).spl_len_limit.toNat ≤ u.spl_len_limit.toNat ∧
    ∀ e ∈ es.takeWhile (fun e => e.size ≠ 0#32), spl_addr.toNat ≤ e.buf2.toNat →
      spl_addr.toNat+(SplUpload.run spl_addr es u).spl_len_limit.toNat ≤ e.buf2.toNat := by
  induction es generalizing u with
  | nil => exact ⟨Nat.le_refl _, fun e he => absurd he List.not_mem_nil⟩
  | cons e es ih =>
    unfold SplUpload.run
    split_ifs with hs
    · refine ⟨Nat.le_refl _, ?_⟩
      intro f hf
      rw [List.takeWhile_cons_of_neg (by simpa using hs)] at hf
      exact absurd hf List.not_mem_nil
    · obtain ⟨h1, h2⟩ := limit_le hw e
      have hlim := entry_limit spl_addr e u
      obtain ⟨h3, h4⟩ := ih (u := u.entry spl_addr e) (by rw [hlim]; omega)
      rw [hlim] at h3
      refine ⟨by omega, ?_⟩
      intro f hf hle
      rw [List.takeWhile_cons_of_pos (by simpa using hs)] at hf
      rcases List.mem_cons.mp hf with rfl | hf
      · have := h2 hle
        omega
      · exact h4 f hf hle

/-- A swap table: `es` and an end of size 0. The buffers are of whole words and disjoint,
those of the BROM in increasing order at or above `spl_addr`. -/
structure SwapTable (soc : SocInfo) (es : List SramSwapBuffers) : Prop where
  table : soc.swap_buffers.take es.length = es
  last : soc.swap_buffers[es.length]?.map SramSwapBuffers.size = some 0#32
  size : ∀ e ∈ es, e.size ≠ 0#32 ∧ e.size.toNat%4 = 0
  entries : Entries es
  increasing : es.Pairwise fun e f => e.buf1.toNat < f.buf1.toNat
  above : ∀ e ∈ es, soc.spl_addr.toNat ≤ e.buf1.toNat

/-- A swap table that the limit of the loop protects the image from: no backup storage
begins before the image and reaches into it, and the largest image does not wrap. -/
structure SplTable (soc : SocInfo) (es : List SramSwapBuffers) : Prop
    extends SwapTable soc es where
  backup : ∀ e ∈ es, soc.spl_addr.toNat ≤ e.buf2.toNat ∨
    e.buf2.toNat+e.size.toNat ≤ soc.spl_addr.toNat
  no_wrap : soc.spl_addr.toNat+splLenMax.toNat < 2^32

/-- The area of the thunk does not meet the buffers, nor an image of `n` bytes. -/
structure ThunkArea (soc : SocInfo) (es : List SramSwapBuffers) (n : ℕ) : Prop where
  le : soc.thunk_addr.toNat+soc.thunk_size.toNat ≤ 2^32
  buf1 : ∀ e ∈ es, Apart soc.thunk_addr soc.thunk_size.toNat e.buf1 e.size.toNat
  buf2 : ∀ e ∈ es, Apart soc.thunk_addr soc.thunk_size.toNat e.buf2 e.size.toNat
  spl : Apart soc.thunk_addr soc.thunk_size.toNat soc.spl_addr n

section Main

variable {soc : SocInfo} {es : List SramSwapBuffers}

theorem SwapTable.split (h : SwapTable soc es) : ∃ last rest,
    soc.swap_buffers = es ++ last :: rest ∧ last.size = 0#32 := by
  obtain ⟨last, hget, hlast⟩ := Option.map_eq_some_iff.mp h.last
  refine ⟨last, soc.swap_buffers.drop (es.length+1), ?_, hlast⟩
  have hdrop : soc.swap_buffers.drop es.length = last :: soc.swap_buffers.drop (es.length+1) := by
    obtain ⟨hlt, he⟩ := List.getElem?_eq_some_iff.mp hget
    rw [← he, List.drop_eq_getElem_cons hlt]
  have hall := List.take_append_drop es.length soc.swap_buffers
  rw [h.table, hdrop] at hall
  exact hall.symm

theorem SwapTable.takeWhile (h : SwapTable soc es) :
    soc.swap_buffers.takeWhile (fun e => e.size ≠ 0#32) = es := by
  obtain ⟨last, rest, htab, hlast⟩ := h.split
  rw [htab, List.takeWhile_append_of_pos (fun e he => by simpa using (h.size e he).1),
    List.takeWhile_cons_of_neg (by simpa using hlast), List.append_nil]

theorem SwapTable.sorted (h : SwapTable soc es) :
    es.Pairwise fun e f => e.buf1.toNat+e.size.toNat ≤ f.buf1.toNat := by
  apply (List.pairwise_and_iff.mpr ⟨h.increasing, h.entries.separate⟩).imp_of_mem
  intro e f he hf hef
  obtain ⟨hlt, hsep⟩ := hef
  have hf0 : f.size.toNat ≠ 0 := fun hh => (h.size f hf).1 (BitVec.eq_of_toNat_eq hh)
  have := hsep.buf11
  unfold Apart at this
  omega

/-- What is known of an accepted image. -/
structure Accepted (soc : SocInfo) (buf : List (BitVec 8)) (ws : List FelWrite) : Prop where
  len : (splLen buf).toNat ≤ buf.length
  limit : (splLen buf).toNat ≤ (splUpload soc buf).spl_len_limit.toNat
  below : (splLen buf).toNat ≤ soc.thunk_addr.toNat
  thunk : 4*(thunkWords soc).length ≤ soc.thunk_size.toNat
  writes : ws = (splUpload soc buf).finish ++ [⟨soc.thunk_addr, leBytes (thunkWords soc)⟩]

theorem accepted_of_ok {tt : Bool} {buf : List (BitVec 8)} {ws : List FelWrite}
    (h : awFelWriteAndExecuteSpl soc tt buf = .ok ws) : Accepted soc buf ws := by
  unfold awFelWriteAndExecuteSpl at h
  simp only at h
  split_ifs at h with h1 h2 h3 h4 h5 h6 h7 h8 h9
  · simp only [BitVec.lt_def] at *
    exact ⟨by omega, by omega, by omega, by omega, (Except.ok.inj h).symm⟩
  · simp only [BitVec.lt_def] at *
    exact ⟨by omega, by omega, by omega, by omega, (Except.ok.inj h).symm⟩

theorem SplTable.layout (h : SplTable soc es) {buf : List (BitVec 8)} {ws : List FelWrite}
    (ha : Accepted soc buf ws) :
    SplLayout soc.spl_addr es (buf.take (splLen buf).toNat).length := by
  have hlen : (buf.take (splLen buf).toNat).length = (splLen buf).toNat := by
    rw [List.length_take, Nat.min_eq_left ha.len]
  obtain ⟨hle, hbuf2⟩ := @run_limit soc.spl_addr soc.swap_buffers
    ⟨soc.spl_addr, buf.take (splLen buf).toNat, splLenMax, []⟩ h.no_wrap
  rw [h.takeWhile] at hbuf2
  have hl := ha.limit
  have hw := h.no_wrap
  change (splUpload soc buf).spl_len_limit.toNat ≤ splLenMax.toNat at hle
  change ∀ e ∈ es, _ → _+(splUpload soc buf).spl_len_limit.toNat ≤ _ at hbuf2
  rw [hlen]
  refine ⟨h.entries, h.sorted, ?_, by omega⟩
  intro e he
  unfold Apart
  rcases h.backup e he with hb | hb
  · have := hbuf2 e he hb
    omega
  · omega

theorem tableWords_length (es : List SramSwapBuffers) : (tableWords es).length = 3*es.length := by
  induction es with
  | nil => rfl
  | cons e es ih =>
    change (e.buf1 :: e.buf2 :: e.size :: tableWords es).length = _
    rw [List.length_cons, List.length_cons, List.length_cons, List.length_cons, ih]
    omega

theorem SwapTable.thunkWords_eq (h : SwapTable soc es) : ∃ last : SramSwapBuffers,
    last.size = 0#32 ∧ thunkWords soc = felToSplThunk ++ soc.spl_addr :: tableWords (es ++ [last]) := by
  obtain ⟨last, rest, htab, hlast⟩ := h.split
  refine ⟨last, hlast, ?_⟩
  have hlen : tableLength soc.swap_buffers = es.length := by
    rw [tableLength, h.takeWhile]
  rw [thunkWords, hlen, htab, List.take_length_add_append, List.take_succ_cons, List.take_zero]

/-- A table is in memory when its words are. -/
theorem tableAt_of_words {m : Mem} {last : SramSwapBuffers} (hlast : last.size = 0#32)
    {p : Word} (hm : ∀ i w, (tableWords (es ++ [last]))[i]? = some w →
      load32 m (p+BitVec.ofNat 32 (4*i)) = w) : TableAt m es p := by
  induction es generalizing p with
  | nil =>
    change load32 m (p+8#32) = 0#32
    rw [← hlast]
    exact hm 2 _ rfl
  | cons e es ih =>
    have h0 := hm 0 e.buf1 rfl
    rw [Nat.mul_zero, BitVec.add_zero] at h0
    refine ⟨h0, hm 1 e.buf2 rfl, hm 2 e.size rfl, ?_⟩
    apply ih
    intro i w hi
    rw [BitVec.add_assoc, ← BitVec.ofNat_add, show 12+4*i = 4*(i+3) from by omega]
    exact hm (i+3) w hi

/-- The thunk can run in memory `m`: `swap_all_buffers` and its table are in place. -/
structure ThunkReady (soc : SocInfo) (es : List SramSwapBuffers) (m : Mem) : Prop where
  code : Loaded swapAsm (soc.thunk_addr+40#32) m
  table : TableAt m es (soc.thunk_addr+268#32)

theorem SwapTable.thunkWords_length (h : SwapTable soc es) :
    (thunkWords soc).length = 67+3*(es.length+1) := by
  obtain ⟨last, -, hws⟩ := h.thunkWords_eq
  rw [hws, List.length_append, List.length_cons, tableWords_length, List.length_append]
  change 66+(3*(es.length+1)+1) = _
  omega

theorem SwapTable.upload_ready (h : SwapTable soc es) {n : ℕ} (harea : ThunkArea soc es n)
    (hsize : 4*(thunkWords soc).length ≤ soc.thunk_size.toNat) (m : Mem) :
    ThunkReady soc es (awFelWrite m (leBytes (thunkWords soc)) soc.thunk_addr) := by
  have hle := harea.le
  obtain ⟨last, hlast, hws⟩ := h.thunkWords_eq
  constructor
  · apply loaded_upload_at m (thunkWords soc) soc.thunk_addr swapAsm 10 13 (by omega)
    rw [hws]
    exact felToSplThunk_decode
  · apply tableAt_of_words hlast
    intro i w hi
    obtain ⟨hiw, he⟩ := List.getElem?_eq_some_iff.mp hi
    have hget : (thunkWords soc)[67+i]? = some w := by
      rw [hws, List.getElem?_append_right (by change 66 ≤ _; omega), ← hi]
      change (soc.spl_addr :: tableWords (es ++ [last]))[67+i-66]? = _
      rw [show 67+i-66 = i+1 from by omega, List.getElem?_cons_succ]
    obtain ⟨hlt, heq⟩ := List.getElem?_eq_some_iff.mp hget
    rw [← heq, ← load32_upload m (thunkWords soc) soc.thunk_addr (67+i) hlt (by omega),
      BitVec.add_assoc, ← BitVec.ofNat_add, Nat.mul_add]

/-- No entry covers a byte of the thunk. -/
theorem ThunkArea.clear {n : ℕ} (h : ThunkArea soc es n) {e : SramSwapBuffers} (he : e ∈ es)
    {k : ℕ} (hk : k < soc.thunk_size.toNat) : ¬e.Covers (soc.thunk_addr+BitVec.ofNat 32 k) := by
  have hle := h.le
  have hr : InRange soc.thunk_addr soc.thunk_size.toNat (soc.thunk_addr+BitVec.ofNat 32 k) := by
    unfold InRange
    rw [add_ofNat_toNat (by omega)]
    omega
  intro hc
  rcases hc with h1 | h2
  · exact (h.buf1 e he).not_both hr h1
  · exact (h.buf2 e he).not_both hr h2

theorem thunk_offset (a : Word) (o k : ℕ) :
    a+BitVec.ofNat 32 o+BitVec.ofNat 32 k = a+BitVec.ofNat 32 (o+k) := by
  rw [BitVec.ofNat_add, BitVec.add_assoc]

/-- Code and table survive changes to the stack of the thunk and to anything else that is
not theirs. -/
theorem ThunkReady.frame {m m' : Mem} (h : ThunkReady soc es m)
    (hm : ∀ k, 40 ≤ k → k < 4*(67+3*(es.length+1)) →
      m' (soc.thunk_addr+BitVec.ofNat 32 k) = m (soc.thunk_addr+BitVec.ofNat 32 k)) :
    ThunkReady soc es m' := by
  constructor
  · apply h.code.frame
    intro k hk
    change k < 52 at hk
    rw [thunk_offset _ 40]
    exact hm _ (by omega) (by omega)
  · apply h.table.frame
    intro k hk
    rw [thunk_offset _ 268]
    exact hm _ (by omega) (by omega)

/-- A call of `swap_all_buffers`. -/
theorem SwapTable.swap_returns (h : SwapTable soc es) {n : ℕ} (harea : ThunkArea soc es n)
    (hsize : 4*(thunkWords soc).length ≤ soc.thunk_size.toNat) {s : Cpu}
    (hpc : s.pc = soc.thunk_addr+40#32) (hready : ThunkReady soc es s.mem) :
    ∃ t, Returns s t ∧ t.mem = fun x => s.mem (swapAddr es x) := by
  rw [h.thunkWords_length] at hsize
  have htbl : soc.thunk_addr+40#32+228#32 = soc.thunk_addr+268#32 := by
    rw [BitVec.add_assoc]
    rfl
  obtain ⟨t, hr, -, hmem⟩ := @swapAllBuffers_returns
    (soc.thunk_addr+40#32) _ h.entries h.size s ⟨by rw [hpc, Nat.mul_zero, BitVec.add_zero], hready.code⟩
    (by
      intro e he k hk
      rw [thunk_offset _ 40]
      exact harea.clear he (by omega))
    (by
      intro e he k hk
      rw [htbl, thunk_offset _ 268]
      exact harea.clear he (by omega))
    (by rw [htbl]; exact hready.table)
  exact ⟨t, hr, hmem⟩

/-- The image as the loop and the final write leave it in memory. -/
theorem SplTable.image_uploaded (h : SplTable soc es) {buf : List (BitVec 8)}
    {ws : List FelWrite} (ha : Accepted soc buf ws) (m : Mem) :
    (∀ w ∈ (splUpload soc buf).finish, ∀ i < w.data.length, ∃ k < (splLen buf).toNat,
        w.addr+BitVec.ofNat 32 i = swapAddr es (soc.spl_addr+BitVec.ofNat 32 k)) ∧
    ∀ k < (splLen buf).toNat, buf[k]? = some (applyWrites m (splUpload soc buf).finish
      (swapAddr es (soc.spl_addr+BitVec.ofNat 32 k))) := by
  have hlayout := h.layout ha
  have hlen : (buf.take (splLen buf).toNat).length = (splLen buf).toNat := by
    rw [List.length_take, Nat.min_eq_left ha.len]
  obtain ⟨last, rest, htab, hlast⟩ := h.split
  have h0 : Uploaded soc.spl_addr es (buf.take (splLen buf).toNat) m
      ⟨soc.spl_addr, buf.take (splLen buf).toNat, splLenMax, []⟩ 0 :=
    ⟨Nat.zero_le _, (BitVec.add_zero _).symm, rfl, fun w hw => absurd hw List.not_mem_nil,
      fun k hk => absurd hk (Nat.not_lt_zero k)⟩
  have hb : Between [] es ⟨soc.spl_addr, buf.take (splLen buf).toNat, splLenMax, []⟩ :=
    fun _ => ⟨fun f hf => absurd hf List.not_mem_nil, h.above⟩
  obtain ⟨j, h1, hb1⟩ := @run_uploaded _ _ _ hlayout _ _ (last :: rest)
    (fun e he => (h.size e he).1) (fun e he => by rw [← Option.some.inj he]; exact hlast)
    rfl _ _ _ h0 hb
  rw [← htab] at h1 hb1
  change Uploaded _ _ _ _ (splUpload soc buf) j at h1
  obtain ⟨hplaced, hmem⟩ := finish_uploaded hlayout h1 hb1
  rw [hlen] at hplaced hmem
  refine ⟨hplaced, ?_⟩
  intro k hk
  rw [← hmem k hk, List.getElem?_take, if_pos hk]

/-- The address that a byte of the image is uploaded to is not in a BROM buffer. -/
theorem SplTable.placed_outside (h : SplTable soc es) {buf : List (BitVec 8)}
    {ws : List FelWrite} (ha : Accepted soc buf ws) {k : ℕ} (hk : k < (splLen buf).toNat)
    {e : SramSwapBuffers} (he : e ∈ es) :
    ¬InRange e.buf1 e.size.toNat (swapAddr es (soc.spl_addr+BitVec.ofNat 32 k)) := by
  have hlayout := h.layout ha
  rw [List.length_take, Nat.min_eq_left ha.len] at hlayout
  have hw := hlayout.no_wrap
  intro hr
  -- going back, the byte would come from the backup storage, which is not part of the image
  have hback := swapAddr_of_covers h.entries he (.inl hr)
  rw [swapAddr_swapAddr h.entries] at hback
  unfold SramSwapBuffers.swap at hback
  rw [exchange_first hr] at hback
  have hr2 := (inRange_shift (h.entries.valid e he).buf2_le hr).1
  rw [← hback] at hr2
  apply (hlayout.backup e he).not_both _ hr2
  unfold InRange
  rw [add_ofNat_toNat (by omega)]
  omega

/-- Neither is it in the area of the thunk. -/
theorem SplTable.placed_off_thunk (h : SplTable soc es) {buf : List (BitVec 8)}
    {ws : List FelWrite} (ha : Accepted soc buf ws) (harea : ThunkArea soc es (splLen buf).toNat)
    {k : ℕ} (hk : k < (splLen buf).toNat) :
    ¬InRange soc.thunk_addr soc.thunk_size.toNat
      (swapAddr es (soc.spl_addr+BitVec.ofNat 32 k)) := by
  have hlayout := h.layout ha
  rw [List.length_take, Nat.min_eq_left ha.len] at hlayout
  have hw := hlayout.no_wrap
  intro hr
  have hfix : swapAddr es (swapAddr es (soc.spl_addr+BitVec.ofNat 32 k)) =
      swapAddr es (soc.spl_addr+BitVec.ofNat 32 k) := by
    apply swapAddr_other
    intro e he hc
    rcases hc with h1 | h2
    · exact (harea.buf1 e he).not_both hr h1
    · exact (harea.buf2 e he).not_both hr h2
  rw [swapAddr_swapAddr h.entries] at hfix
  rw [← hfix] at hr
  apply harea.spl.not_both hr
  unfold InRange
  rw [add_ofNat_toNat (by omega)]
  omega

/-- The second call starts from the memory that the first one left. -/
theorem SwapTable.ready_swap (h : SwapTable soc es) {n : ℕ} (harea : ThunkArea soc es n)
    (hsize : 4*(thunkWords soc).length ≤ soc.thunk_size.toNat) {m : Mem}
    (hready : ThunkReady soc es m) : ThunkReady soc es (fun x => m (swapAddr es x)) := by
  rw [h.thunkWords_length] at hsize
  apply hready.frame
  intro k _ hk
  rw [swapAddr_other (fun e he => harea.clear he (by omega))]

end Main

instance (e : SramSwapBuffers) : Decidable e.Valid :=
  decidable_of_iff (e.buf1.toNat+e.size.toNat ≤ 2^32 ∧ e.buf2.toNat+e.size.toNat ≤ 2^32 ∧
    Apart e.buf1 e.size.toNat e.buf2 e.size.toNat)
    ⟨fun h => ⟨h.1, h.2.1, h.2.2⟩, fun h => ⟨h.1, h.2, h.3⟩⟩

instance (e f : SramSwapBuffers) : Decidable (e.Separate f) :=
  decidable_of_iff (Apart e.buf1 e.size.toNat f.buf1 f.size.toNat ∧
    Apart e.buf1 e.size.toNat f.buf2 f.size.toNat ∧
    Apart e.buf2 e.size.toNat f.buf1 f.size.toNat ∧ Apart e.buf2 e.size.toNat f.buf2 f.size.toNat)
    ⟨fun h => ⟨h.1, h.2.1, h.2.2.1, h.2.2.2⟩, fun h => ⟨h.1, h.2, h.3, h.4⟩⟩

instance (es : List SramSwapBuffers) : Decidable (Entries es) :=
  decidable_of_iff ((∀ e ∈ es, e.Valid) ∧ es.Pairwise SramSwapBuffers.Separate)
    ⟨fun h => ⟨h.1, h.2⟩, fun h => ⟨h.1, h.2⟩⟩

instance (soc : SocInfo) (es : List SramSwapBuffers) : Decidable (SwapTable soc es) :=
  decidable_of_iff (soc.swap_buffers.take es.length = es ∧
    soc.swap_buffers[es.length]?.map SramSwapBuffers.size = some 0#32 ∧
    (∀ e ∈ es, e.size ≠ 0#32 ∧ e.size.toNat%4 = 0) ∧ Entries es ∧
    (es.Pairwise fun e f => e.buf1.toNat < f.buf1.toNat) ∧
    ∀ e ∈ es, soc.spl_addr.toNat ≤ e.buf1.toNat)
    ⟨fun h => ⟨h.1, h.2.1, h.2.2.1, h.2.2.2.1, h.2.2.2.2.1, h.2.2.2.2.2⟩,
      fun h => ⟨h.1, h.2, h.3, h.4, h.5, h.6⟩⟩

instance (soc : SocInfo) (es : List SramSwapBuffers) : Decidable (SplTable soc es) :=
  decidable_of_iff (SwapTable soc es ∧ (∀ e ∈ es, soc.spl_addr.toNat ≤ e.buf2.toNat ∨
    e.buf2.toNat+e.size.toNat ≤ soc.spl_addr.toNat) ∧
    soc.spl_addr.toNat+splLenMax.toNat < 2^32)
    ⟨fun h => ⟨h.1, h.2.1, h.2.2⟩, fun h => ⟨h.1, h.2, h.3⟩⟩

/-- The entries of the table of a SoC. -/
def SocInfo.entries (soc : SocInfo) : List SramSwapBuffers :=
  soc.swap_buffers.takeWhile fun e => e.size ≠ 0#32

/-- Every table of `soc_info.c` is as the upload needs it. -/
theorem soc_splTable (soc_id : Word) :
    SplTable (getSocInfoFromId soc_id) (getSocInfoFromId soc_id).entries :=
  getSocInfoFromId_forall (P := fun soc => SplTable soc soc.entries) (by decide) (by decide) soc_id

/-- The limit on the length keeps every accepted image off the thunk. -/
theorem soc_thunkArea (soc_id : Word) {buf : List (BitVec 8)} {ws : List FelWrite}
    (ha : Accepted (getSocInfoFromId soc_id) buf ws) :
    ThunkArea (getSocInfoFromId soc_id) (getSocInfoFromId soc_id).entries (splLen buf).toNat := by
  have hfacts := getSocInfoFromId_forall (P := fun soc =>
    soc.thunk_addr.toNat+soc.thunk_size.toNat ≤ 2^32 ∧
    (∀ e ∈ soc.entries, Apart soc.thunk_addr soc.thunk_size.toNat e.buf1 e.size.toNat) ∧
    (∀ e ∈ soc.entries, Apart soc.thunk_addr soc.thunk_size.toNat e.buf2 e.size.toNat) ∧
    (soc.spl_addr = 0#32 ∨ soc.spl_addr.toNat+splLenMax.toNat ≤ soc.thunk_addr.toNat))
    (by decide) (by decide) soc_id
  obtain ⟨hle, h1, h2, h3⟩ := hfacts
  refine ⟨hle, h1, h2, .inr ?_⟩
  rcases h3 with h0 | h3
  · rw [h0]
    have := ha.below
    change 0+_ ≤ _
    omega
  · have hlim := (@run_limit _ (getSocInfoFromId soc_id).swap_buffers
      ⟨(getSocInfoFromId soc_id).spl_addr, buf.take (splLen buf).toNat, splLenMax, []⟩
      (soc_splTable soc_id).no_wrap).1
    change (splUpload (getSocInfoFromId soc_id) buf).spl_len_limit.toNat ≤ splLenMax.toNat at hlim
    have := ha.limit
    omega

/-- The writes leave the thunk ready, whatever it then keeps on its stack. -/
theorem SplTable.uploaded_ready {soc : SocInfo} {es : List SramSwapBuffers} (h : SplTable soc es)
    {buf : List (BitVec 8)} {ws : List FelWrite} (ha : Accepted soc buf ws)
    (harea : ThunkArea soc es (splLen buf).toNat) {m m' : Mem}
    (hm : ∀ x, ¬InRange (soc.thunk_addr+4#32) 36 x → m' x = applyWrites m ws x) :
    ThunkReady soc es m' := by
  have hsize := ha.thunk
  have hle := harea.le
  have hlen := h.thunkWords_length
  apply (h.upload_ready harea hsize (applyWrites m (splUpload soc buf).finish)).frame
  intro k hk hk'
  rw [hm, ha.writes, applyWrites_append]
  unfold InRange
  rw [add_ofNat_toNat (k := 4) (by omega), add_ofNat_toNat (by omega)]
  omega

/-- Uploads of an accepted image never touch a BROM buffer. Whatever the thunk keeps on its
stack, `swap_all_buffers` then completes the image at `spl_addr`, and a second call puts the
whole memory back. -/
theorem spl_upload_swapped (soc : SocInfo) (es : List SramSwapBuffers) (tt : Bool)
    (buf : List (BitVec 8)) (ws : List FelWrite) (m : Mem) (htab : SplTable soc es)
    (hok : awFelWriteAndExecuteSpl soc tt buf = .ok ws)
    (harea : ThunkArea soc es (splLen buf).toNat) :
    (∀ w ∈ ws, ∀ i < w.data.length, ∀ e ∈ es,
      ¬InRange e.buf1 e.size.toNat (w.addr+BitVec.ofNat 32 i)) ∧
    ∀ s : Cpu, s.pc = soc.thunk_addr+40#32 →
      (∀ x, ¬InRange (soc.thunk_addr+4#32) 36 x → s.mem x = applyWrites m ws x) →
      ∃ t, Returns s t ∧
        (∀ k < (splLen buf).toNat,
          buf[k]? = some (t.mem (soc.spl_addr+BitVec.ofNat 32 k))) ∧
        ∀ s', s'.pc = soc.thunk_addr+40#32 → s'.mem = t.mem →
          ∃ t', Returns s' t' ∧ t'.mem = s.mem := by
  have ha := accepted_of_ok hok
  have hsize := ha.thunk
  have hle := harea.le
  have hlen := htab.thunkWords_length
  obtain ⟨hplaced, himage⟩ := htab.image_uploaded ha m
  constructor
  · intro w hw i hi e he
    rw [ha.writes] at hw
    rcases List.mem_append.mp hw with hw | hw
    · obtain ⟨k, hk, haddr⟩ := hplaced w hw i hi
      rw [haddr]
      exact htab.placed_outside ha hk he
    · rw [List.mem_singleton.mp hw] at hi ⊢
      rw [leBytes_length] at hi
      intro hr
      exact harea.clear he (Nat.lt_of_lt_of_le hi hsize) (.inl hr)
  · intro s hpc hs
    have hws : applyWrites m ws = awFelWrite (applyWrites m (splUpload soc buf).finish)
        (leBytes (thunkWords soc)) soc.thunk_addr := by
      rw [ha.writes, applyWrites_append]
    have hready := htab.uploaded_ready ha harea hs
    obtain ⟨t, hr, hmem⟩ := htab.swap_returns harea hsize hpc hready
    have hmem1 (x : Word) : t.mem x = s.mem (swapAddr es x) := by rw [hmem]
    refine ⟨t, hr, ?_, ?_⟩
    · intro k hk
      have hoff := htab.placed_off_thunk ha harea hk
      rw [himage k hk, hmem1, hs, hws, awFelWrite_outside]
      · rw [leBytes_length]
        by_contra hlt
        apply hoff
        rw [eq_add_of_offset soc.thunk_addr (swapAddr es (soc.spl_addr+BitVec.ofNat 32 k)) _ rfl]
        unfold InRange
        rw [add_ofNat_toNat (by omega)]
        omega
      · intro hst
        apply hoff
        unfold InRange at *
        rw [add_ofNat_toNat (k := 4) (by omega)] at hst
        omega
    · intro s' hpc' hmem'
      have hready' : ThunkReady soc es s'.mem := by
        rw [hmem', hmem]
        exact htab.ready_swap harea hsize hready
      obtain ⟨t', hr', ht'⟩ := htab.swap_returns harea hsize hpc' hready'
      refine ⟨t', hr', ?_⟩
      rw [ht', hmem']
      funext x
      rw [hmem1, swapAddr_swapAddr htab.entries]

/-- A header without code behind it, of 32 bytes. -/
def smallImage : List (BitVec 8) :=
  [0x06#8, 0x00#8, 0x00#8, 0xea#8, 0x65#8, 0x47#8, 0x4f#8, 0x4e#8,
   0x2e#8, 0x42#8, 0x54#8, 0x30#8, 0xf2#8, 0xf5#8, 0xad#8, 0xc7#8,
   0x20#8, 0x00#8, 0x00#8, 0x00#8, 0x00#8, 0x00#8, 0x00#8, 0x00#8,
   0x00#8, 0x00#8, 0x00#8, 0x00#8, 0x00#8, 0x00#8, 0x00#8, 0x00#8]

/-- The image on an A13. -/
theorem spl_upload_swapped_a13 :
    ∃ ws, awFelWriteAndExecuteSpl (getSocInfoFromId 0x1625#32) false smallImage = .ok ws ∧
    (∀ w ∈ ws, ∀ i < w.data.length, ∀ e ∈ (getSocInfoFromId 0x1625#32).entries,
      ¬InRange e.buf1 e.size.toNat (w.addr+BitVec.ofNat 32 i)) ∧
    ∀ s : Cpu, s.pc = 0xA200#32+40#32 →
      (∀ x, ¬InRange (0xA200#32+4#32) 36 x → s.mem x = applyWrites (fun _ => 0#8) ws x) →
      ∃ t, Returns s t ∧ (∀ k < 32, smallImage[k]? = some (t.mem (0#32+BitVec.ofNat 32 k))) ∧
        ∀ s', s'.pc = 0xA200#32+40#32 → s'.mem = t.mem →
          ∃ t', Returns s' t' ∧ t'.mem = s.mem := by
  have hok : awFelWriteAndExecuteSpl (getSocInfoFromId 0x1625#32) false smallImage =
      .ok ((splUpload (getSocInfoFromId 0x1625#32) smallImage).finish ++
        [⟨0xA200#32, leBytes (thunkWords (getSocInfoFromId 0x1625#32))⟩]) := rfl
  exact ⟨_, hok, spl_upload_swapped _ _ false smallImage _ _ (soc_splTable _) hok
    (soc_thunkArea _ (accepted_of_ok hok))⟩

/-- A table whose backup storage begins four bytes before the image. -/
def straddlingSoc : SocInfo :=
  { spl_addr := 0x10000#32, scratch_addr := 0x11000#32
    thunk_addr := 0x20000#32, thunk_size := 0x200#32
    swap_buffers := [⟨0x10010#32, 0xFFFC#32, 8#32⟩, endOfTable] }

def straddlingWrites : List FelWrite :=
  (splUpload straddlingSoc smallImage).finish ++
    [⟨straddlingSoc.thunk_addr, leBytes (thunkWords straddlingSoc)⟩]

/-- A machine that has just called `swap_all_buffers` after these writes to a clear memory. -/
def straddlingCpu : Cpu :=
  { r := fun _ => 0#32, pc := straddlingSoc.thunk_addr+40#32
    n := false, z := false, c := false, v := false
    mem := applyWrites (fun _ => 0#8) straddlingWrites }

/-- With that table the backup of one part overwrites the first word of the image, which
the limit on the length does not notice. -/
theorem spl_upload_straddled :
    SwapTable straddlingSoc straddlingSoc.entries ∧
    ThunkArea straddlingSoc straddlingSoc.entries (splLen smallImage).toNat ∧
    awFelWriteAndExecuteSpl straddlingSoc false smallImage = .ok straddlingWrites ∧
    ¬∃ t, Returns straddlingCpu t ∧ ∀ k < (splLen smallImage).toNat,
      smallImage[k]? = some (t.mem (straddlingSoc.spl_addr+BitVec.ofNat 32 k)) := by
  have htab : SwapTable straddlingSoc straddlingSoc.entries := by decide
  have harea : ThunkArea straddlingSoc straddlingSoc.entries (splLen smallImage).toNat := by
    constructor <;> decide
  have hok : awFelWriteAndExecuteSpl straddlingSoc false smallImage = .ok straddlingWrites := rfl
  have hsize := (accepted_of_ok hok).thunk
  refine ⟨htab, harea, hok, ?_⟩
  rintro ⟨t, ht, himage⟩
  have hready : ThunkReady straddlingSoc straddlingSoc.entries straddlingCpu.mem := by
    change ThunkReady _ _ (applyWrites _ straddlingWrites)
    rw [straddlingWrites, applyWrites_append]
    exact htab.upload_ready harea hsize _
  -- the call returns in one way only
  obtain ⟨u, hu, hmem⟩ := htab.swap_returns harea hsize rfl hready
  rw [Returns.unique ht hu, hmem] at himage
  have h0 := himage 0 (by decide)
  have hzero : straddlingCpu.mem
      (swapAddr straddlingSoc.entries (straddlingSoc.spl_addr+BitVec.ofNat 32 0)) = 0#8 := by
    decide
  exact absurd (h0.trans (congrArg some hzero)) (by decide)

end ChipTools.Fel
