import ChipTools.SocInfo
import ChipTools.SpiBatch

/-! `aw_fel_spiflash_write`: the batches that the host builds to erase and program the SPI
flash, and what the flash holds after they have been run. -/
namespace ChipTools.Spi
open Nor Fel

/-- The fields of `spi_flash_info_t` that the writer uses. -/
structure SpiFlashInfo where
  large_erase_cmd : Byte
  large_erase_size : ℕ
  small_erase_cmd : Byte
  small_erase_size : ℕ
  program_cmd : Byte
  program_size : ℕ

def default_spi_flash_info : SpiFlashInfo :=
  { large_erase_cmd := 0xD8#8, large_erase_size := 64*1024
    small_erase_cmd := 0x20#8, small_erase_size := 4*1024
    program_cmd := 0x02#8, program_size := 256 }

def CMD_WRITE_ENABLE : Byte := 0x06#8

/-- `soc_info->scratch_addr - soc_info->spl_addr`, at most 4 KiB. -/
def maxChunkSize (soc : SocInfo) : ℕ := min (soc.scratch_addr-soc.spl_addr).toNat 0x1000

def eraseCmds (offset : ℕ) (erase_cmd : Byte) : List Byte :=
  [ -- write enable command
   0#8, 1#8, CMD_WRITE_ENABLE,
   -- erase command
   0#8, 4#8, erase_cmd,
   BitVec.ofNat 8 (offset >>> 16), BitVec.ofNat 8 (offset >>> 8), BitVec.ofNat 8 offset,
   -- wait for completion
   0xFF#8, 0xFF#8]

def programCmds (offset : ℕ) (program_cmd : Byte) (data : List Byte) : List Byte :=
  [ -- write enable command
   0#8, 1#8, CMD_WRITE_ENABLE,
   -- page program command
   BitVec.ofNat 8 ((4+data.length) >>> 8), BitVec.ofNat 8 (4+data.length), program_cmd,
   BitVec.ofNat 8 (offset >>> 16), BitVec.ofNat 8 (offset >>> 8), BitVec.ofNat 8 offset] ++
  data ++
  [ -- wait for completion
   0xFF#8, 0xFF#8]

/-- The variables of `aw_fel_spiflash_write_helper`. `len` is the length of `buf8` and
`cmd_idx` the length of `cmdbuf`. -/
structure Writer where
  offset : ℕ
  buf8 : List Byte
  cmdbuf : List Byte

section Helper

variable (erase_size : ℕ) (erase_cmd : Byte) (program_size : ℕ) (program_cmd : Byte)

/-- One pass of the inner loop. -/
def Writer.emit (w : Writer) : Writer :=
  let erase := if w.offset%erase_size = 0 then eraseCmds w.offset erase_cmd else []
  let write_count := min program_size w.buf8.length
  { offset := w.offset+write_count
    buf8 := w.buf8.drop write_count
    cmdbuf := w.cmdbuf ++ erase ++ programCmds w.offset program_cmd (w.buf8.take write_count) }

/-- The inner loop. A pass takes at least one byte, so `n` is the number of bytes. -/
def Writer.fill (max_chunk_size : ℕ) : ℕ → Writer → Writer
  | 0, w => w
  | n+1, w =>
    -- the difference is a `size_t`
    if w.buf8 ≠ [] ∧ program_size+64 < (max_chunk_size+2^64-w.cmdbuf.length)%2^64 then
      fill max_chunk_size n (w.emit erase_size erase_cmd program_size program_cmd)
    else w

/-- The outer loop: a batch is filled, ended and flushed. -/
def Writer.flush (max_chunk_size : ℕ) : ℕ → Writer → List (List Byte)
  | 0, _ => []
  | n+1, w =>
    if w.buf8 = [] then []
    else
      let w := w.fill erase_size erase_cmd program_size program_cmd max_chunk_size w.buf8.length
      (w.cmdbuf ++ [0#8, 0#8]) :: flush max_chunk_size n { w with cmdbuf := [] }

def awFelSpiflashWriteHelper (max_chunk_size offset : ℕ) (buf : List Byte) : List (List Byte) :=
  Writer.flush erase_size erase_cmd program_size program_cmd max_chunk_size buf.length
    ⟨offset, buf, []⟩

end Helper

/-- The loop of `aw_fel_spiflash_write` over sectors. -/
def spiflashSectors (info : SpiFlashInfo) (max_chunk_size : ℕ) :
    ℕ → ℕ → List Byte → List (List Byte)
  | 0, _, _ => []
  | n+1, offset, buf =>
    if buf = [] then []
    else if offset%info.large_erase_size ≠ 0 ∨ buf.length < info.large_erase_size then
      let write_count := min info.small_erase_size buf.length
      awFelSpiflashWriteHelper info.small_erase_size info.small_erase_cmd info.program_size
        info.program_cmd max_chunk_size offset (buf.take write_count) ++
      spiflashSectors info max_chunk_size n (offset+write_count) (buf.drop write_count)
    else
      let write_count := min info.large_erase_size buf.length
      awFelSpiflashWriteHelper info.large_erase_size info.large_erase_cmd info.program_size
        info.program_cmd max_chunk_size offset (buf.take write_count) ++
      spiflashSectors info max_chunk_size n (offset+write_count) (buf.drop write_count)

/-- All batches of `aw_fel_spiflash_write`. `spi0` is the result of `spi0_init`, without
which nothing is written. -/
def awFelSpiflashWrite (soc : SocInfo) (spi0 : Bool) (offset : ℕ) (buf : List Byte) :
    Except String (List (List Byte)) :=
  let flash_info := default_spi_flash_info
  if offset%flash_info.small_erase_size ≠ 0 then
    .error ("aw_fel_spiflash_write: 'addr' must be " ++ toString flash_info.small_erase_size ++
      " bytes aligned\n")
  else if !spi0 then .ok []
  else .ok (spiflashSectors flash_info (maxChunkSize soc) buf.length offset buf)

/-- The batches are uploaded and run one after the other, and end with a chip in `Q`. The
byte behind the status command is whatever the stack holds. -/
def Programs (env : Env) (Q : Chip → Prop) : List (List Byte) → (ℕ → Byte) → Chip → Prop
  | [], _, chip => Q chip
  | b :: bs, sram, chip => ∀ wait, ∃ t,
      BatchState.Runs env ⟨0, writeBytes sram 0 b, wait, chip⟩ t ∧ t.step env = none ∧
      Programs env Q bs t.sram t.chip

theorem maxChunkSize_soc (soc_id : Arm.Word) : maxChunkSize (getSocInfoFromId soc_id) = 0x1000 :=
  getSocInfoFromId_forall (P := fun soc => maxChunkSize soc = 0x1000) (by decide) (by decide) soc_id

section Commands

variable {env : Env} {c : Cells}

/-- The chip is ready and holds `c`. -/
def Idle (c : Cells) (s : Chip) : Prop := s.busy = 0 ∧ s.cells = c

theorem address_of_offset {offset : ℕ} (h : offset < 2^24) :
    address (BitVec.ofNat 8 (offset >>> 16)) (BitVec.ofNat 8 (offset >>> 8))
      (BitVec.ofNat 8 offset) = offset := by
  unfold address
  rw [BitVec.toNat_ofNat, BitVec.toNat_ofNat, BitVec.toNat_ofNat, Nat.shiftRight_eq_div_pow,
    Nat.shiftRight_eq_div_pow]
  omega

theorem performs_writeEnable :
    Performs env (Idle c) [0#8, 1#8, CMD_WRITE_ENABLE]
      (fun s => Idle c s ∧ s.writeEnable = true) := by
  apply Performs.transfer [CMD_WRITE_ENABLE] (by simp) (by decide) (n := 1) rfl
  intro s hs
  have htx : (s.transact env [CMD_WRITE_ENABLE]).1 =
      { s with writeEnable := true, clock := s.clock+1 } := by
    simp [Chip.transact, Chip.command, CMD_WRITE_ENABLE, hs.1]
  rw [htx]
  exact ⟨hs, rfl⟩

/-- A command that modifies the cells of an idle and enabled chip. -/
theorem modify_cells {s : Chip} {f : Cells → Cells} {op : Byte} {args : List Byte}
    (hs : Idle c s ∧ s.writeEnable = true) (hop : op ≠ 0x05#8)
    (hc : s.command env op args = s.modify env f) :
    (s.transact env (op :: args)).1.cells = f c := by
  obtain ⟨⟨hb, hcells⟩, hw⟩ := hs
  simp only [Chip.transact, if_neg hop, hb, if_true, hc, Chip.modify, hw, hcells]

/-- The two erase commands with their sector sizes. -/
def IsErase (erase_cmd : Byte) (erase_size : ℕ) : Prop :=
  erase_cmd = 0x20#8 ∧ erase_size = 4096 ∨ erase_cmd = 0xD8#8 ∧ erase_size = 65536

theorem performs_erase {offset erase_size : ℕ} {erase_cmd : Byte} (he : IsErase erase_cmd erase_size)
    (ho : offset < 2^24) :
    Performs env (Idle c) (eraseCmds offset erase_cmd) (Idle (erase c erase_size offset)) := by
  have hcmd : Performs env (fun s => Idle c s ∧ s.writeEnable = true)
      (0#8 :: 4#8 :: [erase_cmd, BitVec.ofNat 8 (offset >>> 16), BitVec.ofNat 8 (offset >>> 8),
        BitVec.ofNat 8 offset]) (fun s => s.cells = erase c erase_size offset) := by
    apply Performs.transfer [erase_cmd, BitVec.ofNat 8 (offset >>> 16),
      BitVec.ofNat 8 (offset >>> 8), BitVec.ofNat 8 offset] (by simp) (by simp) (n := 4) rfl
    intro s hs
    rcases he with ⟨rfl, rfl⟩ | ⟨rfl, rfl⟩
    · apply modify_cells (f := fun c => erase c 4096 offset) hs (by decide)
      simp [Chip.command, Chip.sectorErase, address_of_offset ho]
    · apply modify_cells (f := fun c => erase c 65536 offset) hs (by decide)
      simp [Chip.command, Chip.sectorErase, address_of_offset ho]
  exact (performs_writeEnable.append hcmd).append (Performs.wait _)

theorem performs_program {offset : ℕ} {data : List Byte} (ho : offset < 2^24) (hd : data ≠ [])
    (hlen : data.length ≤ 256) :
    Performs env (Idle c) (programCmds offset 0x02#8 data) (Idle (program c offset data)) := by
  have hcmd : Performs env (fun s => Idle c s ∧ s.writeEnable = true)
      (BitVec.ofNat 8 ((4+data.length) >>> 8) :: BitVec.ofNat 8 (4+data.length) :: 0x02#8 ::
        BitVec.ofNat 8 (offset >>> 16) :: BitVec.ofNat 8 (offset >>> 8) ::
          BitVec.ofNat 8 offset :: data) (fun s => s.cells = program c offset data) := by
    apply Performs.transfer (0x02#8 :: BitVec.ofNat 8 (offset >>> 16) ::
      BitVec.ofNat 8 (offset >>> 8) :: BitVec.ofNat 8 offset :: data) (by simp) (by simp; omega)
      (n := 4+data.length) (by simp; omega)
    intro s hs
    obtain ⟨d, ds, rfl⟩ := List.exists_cons_of_ne_nil hd
    apply modify_cells (f := fun c => program c offset (d :: ds)) hs (by decide)
    simp [Chip.command, Chip.pageProgram, address_of_offset ho]
  exact (performs_writeEnable.append hcmd).append (Performs.wait _)

end Commands

section Sector

variable {env : Env} {erase_size : ℕ} {erase_cmd : Byte}

/-- The cells after the first `j` bytes of `d` have been written to the sector at `base`,
which is erased with the first of them. -/
def progress (c : Cells) (erase_size base : ℕ) (d : List Byte) (j : ℕ) : Cells :=
  fun x =>
    if j = 0 then c x
    else if base ≤ x ∧ x < base+j then d.getD (x-base) 0#8
    else if x/erase_size = base/erase_size then 0xFF#8
    else c x

/-- A sector to be written by one call of the helper. -/
structure SectorWrite (erase_cmd : Byte) (erase_size base : ℕ) (d : List Byte) : Prop where
  cmd : IsErase erase_cmd erase_size
  aligned : base%erase_size = 0
  fits : d.length ≤ erase_size
  range : base+d.length ≤ 2^24

theorem SectorWrite.page {base : ℕ} {d : List Byte} (h : SectorWrite erase_cmd erase_size base d) :
    base%256 = 0 ∧ 0 < erase_size := by
  have ha := h.aligned
  rcases h.cmd with ⟨-, rfl⟩ | ⟨-, rfl⟩
  · omega
  · omega

theorem SectorWrite.same_sector {base x : ℕ} {d : List Byte}
    (h : SectorWrite erase_cmd erase_size base d) (h1 : base ≤ x) (h2 : x < base+erase_size) :
    x/erase_size = base/erase_size := by
  have hp := h.page.2
  have hb : base/erase_size*erase_size = base :=
    Nat.div_mul_cancel (Nat.dvd_of_mod_eq_zero h.aligned)
  apply Nat.div_eq_of_lt_le
  · omega
  · rw [Nat.add_mul]
    omega

/-- The erase is emitted for the first page only, and then the page is programmed. -/
theorem progress_page {base : ℕ} {d : List Byte} (h : SectorWrite erase_cmd erase_size base d)
    (c : Cells) {j n : ℕ} (hj : j%256 = 0) (hn : 0 < n) (hn' : n ≤ 256) (hjn : j+n ≤ d.length) :
    program (if (base+j)%erase_size = 0 then erase (progress c erase_size base d j) erase_size
      (base+j) else progress c erase_size base d j) (base+j) ((d.drop j).take n) =
        progress c erase_size base d (j+n) := by
  obtain ⟨hpage, hpos⟩ := h.page
  have hfits := h.fits
  have hlen : ((d.drop j).take n).length = n := by
    rw [List.length_take, List.length_drop]
    omega
  -- before the program the page is blank and what lies behind it is as `progress` says
  have hbefore (x : ℕ) : (if (base+j)%erase_size = 0 then
      erase (progress c erase_size base d j) erase_size (base+j)
      else progress c erase_size base d j) x =
        if base ≤ x ∧ x < base+j then d.getD (x-base) 0#8
        else if x/erase_size = base/erase_size then 0xFF#8 else c x := by
    by_cases hj0 : j = 0
    · subst hj0
      rw [Nat.add_zero, if_pos h.aligned, if_neg (by omega)]
      unfold erase progress
      rfl
    · have hne : (base+j)%erase_size ≠ 0 := by
        rw [Nat.add_mod, h.aligned, Nat.zero_add, Nat.mod_mod, Nat.mod_eq_of_lt (by omega)]
        exact hj0
      rw [if_neg hne]
      unfold progress
      rw [if_neg hj0]
  funext x
  by_cases hx : base+j ≤ x ∧ x < base+j+n
  · obtain ⟨k, rfl⟩ : ∃ k, x = base+j+k := ⟨x-(base+j), by omega⟩
    rw [program_erased _ _ (by omega) (by omega) (by omega)]
    · unfold progress
      rw [if_neg (by omega), if_pos (by omega), List.getElem_take, List.getElem_drop,
        List.getD_eq_getElem?_getD, show base+j+k-base = j+k from by omega,
        List.getElem?_eq_getElem (by omega), Option.getD_some]
    · rw [hbefore, if_neg (by omega), if_pos (h.same_sector (by omega) (by omega))]
  · rw [program_outside _ _ (by omega) (by omega) (by omega), hbefore]
    unfold progress
    rw [if_neg (show ¬j+n = 0 by omega)]
    by_cases hx' : base ≤ x ∧ x < base+j
    · rw [if_pos hx', if_pos (by omega)]
    · rw [if_neg hx', if_neg (show ¬(base ≤ x ∧ x < base+(j+n)) by omega)]

/-- The bytes that one pass of the inner loop adds to the batch. -/
theorem emit_performs {base : ℕ} {d : List Byte} (h : SectorWrite erase_cmd erase_size base d)
    (c : Cells) {w : Writer} {j : ℕ} (hw : w.offset = base+j) (hb : w.buf8 = d.drop j)
    (hj : j%256 = 0) (hlt : j < d.length) :
    ∃ bytes, w.emit erase_size erase_cmd 256 0x02#8 =
        ⟨base+(j+min 256 (d.length-j)), d.drop (j+min 256 (d.length-j)), w.cmdbuf ++ bytes⟩ ∧
      bytes.length ≤ 278 ∧
      Performs env (Idle (progress c erase_size base d j)) bytes
        (Idle (progress c erase_size base d (j+min 256 (d.length-j)))) := by
  have hrange := h.range
  have hlen : w.buf8.length = d.length-j := by rw [hb, List.length_drop]
  have hdata : (w.buf8.take (min 256 w.buf8.length)).length ≤ 256 := by
    rw [List.length_take]
    omega
  refine ⟨(if w.offset%erase_size = 0 then eraseCmds w.offset erase_cmd else []) ++
    programCmds w.offset 0x02#8 (w.buf8.take (min 256 w.buf8.length)), ?_, ?_, ?_⟩
  · unfold Writer.emit
    rw [hlen, hw]
    simp only [hb, List.drop_drop, Nat.add_assoc, List.append_assoc]
  · have h1 : (if w.offset%erase_size = 0 then eraseCmds w.offset erase_cmd else []).length ≤ 11 := by
      split_ifs <;> simp [eraseCmds]
    have h2 : (programCmds w.offset 0x02#8 (w.buf8.take (min 256 w.buf8.length))).length ≤ 267 := by
      simp only [programCmds, List.length_append, List.length_cons, List.length_nil]
      omega
    rw [List.length_append]
    omega
  · rw [← progress_page h c hj (n := min 256 (d.length-j)) (by omega) (by omega) (by omega),
      hlen, hb, hw]
    have hne : (d.drop j).take (min 256 (d.length-j)) ≠ [] := by
      apply List.ne_nil_of_length_pos
      rw [List.length_take, List.length_drop]
      omega
    have hprog (c' : Cells) := @performs_program env c' (base+j) _
      (by omega) hne (by rw [List.length_take]; omega)
    split_ifs
    · exact (performs_erase h.cmd (by omega)).append (hprog _)
    · exact hprog _

/-- The writer has gone on from byte `j` to byte `j'` of `d`: what it has added to the batch
writes the bytes in between, and there is room for the end marker. -/
structure Wrote (env : Env) (c : Cells) (erase_size base : ℕ) (d : List Byte)
    (max_chunk_size : ℕ) (w : Writer) (j : ℕ) (w' : Writer) (j' : ℕ) : Prop where
  offset : w'.offset = base+j'
  buf : w'.buf8 = d.drop j'
  page : j'%256 = 0 ∨ j' = d.length
  le : j ≤ j'
  le_length : j' ≤ d.length
  room : w'.cmdbuf.length+42 ≤ max_chunk_size
  bytes : ∃ bytes, w'.cmdbuf = w.cmdbuf ++ bytes ∧
    Performs env (Idle (progress c erase_size base d j)) bytes
      (Idle (progress c erase_size base d j'))

section Loops

variable {base : ℕ} {d : List Byte} (h : SectorWrite erase_cmd erase_size base d) (c : Cells)
variable {max_chunk_size : ℕ} (hmax' : max_chunk_size < 2^64)

include h

/-- One pass, when the loop condition holds. -/
theorem wrote_emit {w u : Writer} {i j : ℕ}
    (hw : Wrote env c erase_size base d max_chunk_size w i u j)
    (hne : u.buf8 ≠ []) (hspace : 320 < max_chunk_size-u.cmdbuf.length) :
    ∃ j', j < j' ∧ Wrote env c erase_size base d max_chunk_size w i
      (u.emit erase_size erase_cmd 256 0x02#8) j' := by
  have hlt : j < d.length := by
    have hpos := List.length_pos_iff.mpr hne
    rw [hw.buf, List.length_drop] at hpos
    omega
  have hj : j%256 = 0 := by
    rcases hw.page with hp | hp
    · exact hp
    · omega
  have hle := hw.le
  obtain ⟨old, hold, hperf0⟩ := hw.bytes
  obtain ⟨bytes, hemit, hlen, hperf⟩ := @emit_performs env _ _ _ _ h c _ _ hw.offset hw.buf hj hlt
  refine ⟨j+min 256 (d.length-j), by omega, ?_⟩
  rw [hemit]
  refine ⟨rfl, rfl, by omega, by omega, by omega, ?_, old ++ bytes, ?_, hperf0.append hperf⟩
  · change (u.cmdbuf ++ bytes).length+42 ≤ max_chunk_size
    rw [List.length_append]
    omega
  · change u.cmdbuf ++ bytes = _
    rw [hold, List.append_assoc]

include hmax'

/-- The inner loop fills the batch up to some page. -/
theorem wrote_fill {w u : Writer} {i j n : ℕ}
    (hw : Wrote env c erase_size base d max_chunk_size w i u j) :
    ∃ j', j ≤ j' ∧ Wrote env c erase_size base d max_chunk_size w i
      (u.fill erase_size erase_cmd 256 0x02#8 max_chunk_size n) j' := by
  induction n generalizing u j with
  | zero => exact ⟨j, Nat.le_refl j, hw⟩
  | succ n ih =>
    have hroom := hw.room
    have hsub : (max_chunk_size+2^64-u.cmdbuf.length)%2^64 = max_chunk_size-u.cmdbuf.length := by
      omega
    unfold Writer.fill
    rw [hsub]
    split_ifs with hc
    · obtain ⟨j1, hlt, h1⟩ := wrote_emit h c hw hc.1 hc.2
      obtain ⟨j', hle, h2⟩ := ih h1
      exact ⟨j', by omega, h2⟩
    · exact ⟨j, Nat.le_refl j, hw⟩

/-- Into an empty batch at least one page goes. -/
theorem wrote_batch (hmax : 320 < max_chunk_size) {w : Writer} {j n : ℕ} (hw : w.offset = base+j)
    (hb : w.buf8 = d.drop j) (hnil : w.cmdbuf = []) (hj : j%256 = 0) (hlt : j < d.length) :
    ∃ j', j < j' ∧ Wrote env c erase_size base d max_chunk_size w j
      (w.fill erase_size erase_cmd 256 0x02#8 max_chunk_size (n+1)) j' := by
  have h0 : Wrote env c erase_size base d max_chunk_size w j w j :=
    ⟨hw, hb, .inl hj, Nat.le_refl j, by omega, by rw [hnil]; change 0+42 ≤ _; omega, [],
      (List.append_nil _).symm, Performs.nil⟩
  have hne : w.buf8 ≠ [] := by
    apply List.ne_nil_of_length_pos
    rw [hb, List.length_drop]
    omega
  obtain ⟨j1, hlt1, h1⟩ := wrote_emit h c h0 hne (by rw [hnil]; exact hmax)
  obtain ⟨j', hle, h2⟩ := wrote_fill h c hmax' (n := n) h1
  refine ⟨j', by omega, ?_⟩
  unfold Writer.fill
  rw [if_pos ⟨hne, by rw [hnil]; change 320 < (max_chunk_size+2^64-0)%2^64; omega⟩]
  exact h2

end Loops

end Sector

section Batches

variable {env : Env} {P Q : Chip → Prop}

theorem Programs.append {as bs : List (List Byte)} {sram : ℕ → Byte} {chip : Chip}
    (h1 : Programs env P as sram chip)
    (h2 : ∀ sram chip, P chip → Programs env Q bs sram chip) :
    Programs env Q (as ++ bs) sram chip := by
  induction as generalizing sram chip with
  | nil => exact h2 sram chip h1
  | cons a as ih =>
    intro wait
    obtain ⟨t, ht, hend, hrest⟩ := h1 wait
    exact ⟨t, ht, hend, ih hrest⟩

theorem Programs.mono {bs : List (List Byte)} {sram : ℕ → Byte} {chip : Chip}
    (h : Programs env P bs sram chip) (hpq : ∀ s, P s → Q s) : Programs env Q bs sram chip := by
  have hall := @Programs.append _ _ _ _ [] _ _ h (fun _ s hs => hpq s hs)
  rw [List.append_nil] at hall
  exact hall

/-- A batch with its end marker. -/
theorem Programs.cons {body : List Byte} {bs : List (List Byte)} {sram : ℕ → Byte} {chip : Chip}
    {R : Chip → Prop} (hbody : Performs env P body R) (hp : P chip)
    (hbs : ∀ sram chip, R chip → Programs env Q bs sram chip) :
    Programs env Q ((body ++ [0#8, 0#8]) :: bs) sram chip := by
  intro wait
  have hahead : Ahead (writeBytes sram 0 (body ++ [0#8, 0#8])) 0 (body ++ [0#8, 0#8]) := by
    intro i b hi
    unfold writeBytes
    rw [if_pos (Nat.zero_le _), Nat.zero_add, Nat.sub_zero, List.getD_eq_getElem?_getD, hi,
      Option.getD_some]
  obtain ⟨t, ht, hr, ha⟩ := hbody ⟨0, writeBytes sram 0 (body ++ [0#8, 0#8]), wait, chip⟩ _ hp hahead
  refine ⟨t, ht, ?_, hbs _ _ hr⟩
  unfold BatchState.step
  rw [if_pos]
  unfold BatchState.code
  rw [ha.head, ha.tail.head]
  rfl

/-- The batches of one call of the helper write the sector, and none is too long. -/
theorem flush_programs {erase_size base : ℕ} {erase_cmd : Byte} {d : List Byte}
    (h : SectorWrite erase_cmd erase_size base d) (c : Cells) {max_chunk_size : ℕ}
    (hmax : 320 < max_chunk_size) (hmax' : max_chunk_size < 2^64) {w : Writer} {j n : ℕ}
    (hw : w.offset = base+j) (hb : w.buf8 = d.drop j) (hnil : w.cmdbuf = [])
    (hj : j%256 = 0 ∨ j = d.length) (hle : j ≤ d.length) (hn : d.length ≤ j+n) :
    (∀ sram chip, Idle (progress c erase_size base d j) chip →
      Programs env (Idle (progress c erase_size base d d.length))
        (w.flush erase_size erase_cmd 256 0x02#8 max_chunk_size n) sram chip) ∧
    ∀ b ∈ w.flush erase_size erase_cmd 256 0x02#8 max_chunk_size n, b.length ≤ max_chunk_size := by
  induction n generalizing w j with
  | zero =>
    have hend : j = d.length := by omega
    refine ⟨fun sram chip hidle => ?_, fun b hmem => absurd hmem List.not_mem_nil⟩
    rw [hend] at hidle
    exact hidle
  | succ n ih =>
    unfold Writer.flush
    have hlen : w.buf8.length = d.length-j := by rw [hb, List.length_drop]
    split_ifs with hempty
    · have hend : j = d.length := by
        rw [hempty] at hlen
        change 0 = _ at hlen
        omega
      refine ⟨fun sram chip hidle => ?_, fun b hmem => absurd hmem List.not_mem_nil⟩
      rw [hend] at hidle
      exact hidle
    · have hpos := List.length_pos_iff.mpr hempty
      obtain ⟨m, hm⟩ : ∃ m, w.buf8.length = m+1 := ⟨w.buf8.length-1, by omega⟩
      obtain ⟨j', hlt, hwrote⟩ := @wrote_batch env _ _ _ _ h c _ hmax' hmax _ _ m hw hb hnil
        (by omega) (by omega)
      rw [← hm] at hwrote
      have hle' := hwrote.le_length
      have hroom := hwrote.room
      obtain ⟨bytes, hbytes, hperf⟩ := hwrote.bytes
      obtain ⟨hprog, hshort⟩ := ih
        (w := { w.fill erase_size erase_cmd 256 0x02#8 max_chunk_size w.buf8.length with cmdbuf := [] })
        hwrote.offset hwrote.buf rfl hwrote.page hle' (by omega)
      rw [hnil, List.nil_append] at hbytes
      constructor
      · intro sram chip hidle
        simp only [hbytes]
        exact Programs.cons hperf hidle hprog
      · intro b hmem
        rcases List.mem_cons.mp hmem with rfl | hmem
        · rw [List.length_append]
          change _+2 ≤ _
          omega
        · exact hshort b hmem

/-- The flash holds `d` at `offset`, and outside of the small sectors that meet the data it
holds what it held before. -/
structure Written (c c' : Cells) (offset : ℕ) (d : List Byte) : Prop where
  data : ∀ k b, d[k]? = some b → c' (offset+k) = b
  frame : ∀ x, (∀ k < d.length, x/4096 ≠ (offset+k)/4096) → c' x = c x

theorem Written.nil (c : Cells) (offset : ℕ) : Written c c offset [] :=
  ⟨fun _ _ h => absurd h (by simp), fun _ _ => rfl⟩

/-- Data that ends with a small sector can be continued. -/
theorem Written.append {c c' c'' : Cells} {offset : ℕ} {d e : List Byte}
    (h1 : Written c c' offset d) (h2 : Written c' c'' (offset+d.length) e)
    (ha : (offset+d.length)%4096 = 0 ∨ e = []) : Written c c'' offset (d ++ e) := by
  constructor
  · intro k b hk
    by_cases hlt : k < d.length
    · rw [List.getElem?_append_left hlt] at hk
      rw [h2.frame, h1.data k b hk]
      intro i hi
      rcases ha with ha | rfl
      · omega
      · exact absurd hi (Nat.not_lt_zero i)
    · rw [List.getElem?_append_right (by omega)] at hk
      have := h2.data _ b hk
      rw [show offset+d.length+(k-d.length) = offset+k from by omega] at this
      exact this
  · intro x hx
    rw [List.length_append] at hx
    rw [h2.frame, h1.frame]
    · intro k hk
      exact hx k (by omega)
    · intro k hk
      rw [Nat.add_assoc]
      exact hx _ (by omega)

/-- A large sector is only erased to be filled. -/
theorem SectorWrite.written {erase_size base : ℕ} {erase_cmd : Byte} {d : List Byte}
    (h : SectorWrite erase_cmd erase_size base d) (hd : d ≠ [])
    (hlarge : erase_size = 4096 ∨ d.length = erase_size) (c : Cells) :
    Written c (progress c erase_size base d d.length) base d := by
  have hpos := List.length_pos_iff.mpr hd
  have hbase : base/erase_size*erase_size = base :=
    Nat.div_mul_cancel (Nat.dvd_of_mod_eq_zero h.aligned)
  constructor
  · intro k b hk
    obtain ⟨hlt, -⟩ := List.getElem?_eq_some_iff.mp hk
    unfold progress
    rw [if_neg (by omega), if_pos (by omega), Nat.add_sub_cancel_left, List.getD_eq_getElem?_getD,
      hk, Option.getD_some]
  · intro x hx
    have hout : ¬(base ≤ x ∧ x < base+d.length) := by
      intro hin
      apply hx (x-base) (by omega)
      rw [Nat.add_sub_cancel' hin.1]
    have hsector : x/erase_size ≠ base/erase_size := by
      intro heq
      rcases hlarge with rfl | hfull
      · exact hx 0 hpos heq
      · apply hout
        have hmod := Nat.div_add_mod x erase_size
        have hlt := Nat.mod_lt x h.page.2
        rw [heq, Nat.mul_comm] at hmod
        omega
    unfold progress
    rw [if_neg (by omega), if_neg hout, if_neg hsector]

end Batches

section Sectors

variable {env : Env} {max_chunk_size : ℕ}

theorem helper_programs {erase_size base : ℕ} {erase_cmd : Byte} {d : List Byte}
    (h : SectorWrite erase_cmd erase_size base d) (c : Cells) (hmax : 320 < max_chunk_size)
    (hmax' : max_chunk_size < 2^64) :
    (∀ sram chip, Idle c chip → Programs env (Idle (progress c erase_size base d d.length))
      (awFelSpiflashWriteHelper erase_size erase_cmd 256 0x02#8 max_chunk_size base d) sram chip) ∧
    ∀ b ∈ awFelSpiflashWriteHelper erase_size erase_cmd 256 0x02#8 max_chunk_size base d,
      b.length ≤ max_chunk_size :=
  flush_programs (j := 0) h c hmax hmax' rfl rfl rfl (.inl rfl) (Nat.zero_le _) (by omega)

/-- One sector and then the rest of the data. -/
theorem sector_programs {erase_size base : ℕ} {erase_cmd : Byte} {d e : List Byte}
    (h : SectorWrite erase_cmd erase_size base d) (hd : d ≠ [])
    (hlarge : erase_size = 4096 ∨ d.length = erase_size)
    (hend : (base+d.length)%4096 = 0 ∨ e = []) (hmax : 320 < max_chunk_size)
    (hmax' : max_chunk_size < 2^64) {bs : List (List Byte)} {c : Cells}
    (hbs : ∀ c', (∀ sram chip, Idle c' chip → Programs env
      (fun s => s.busy = 0 ∧ Written c' s.cells (base+d.length) e) bs sram chip) ∧
        ∀ b ∈ bs, b.length ≤ max_chunk_size) :
    (∀ sram chip, Idle c chip → Programs env
      (fun s => s.busy = 0 ∧ Written c s.cells base (d ++ e))
      (awFelSpiflashWriteHelper erase_size erase_cmd 256 0x02#8 max_chunk_size base d ++ bs)
      sram chip) ∧
    ∀ b ∈ awFelSpiflashWriteHelper erase_size erase_cmd 256 0x02#8 max_chunk_size base d ++ bs,
      b.length ≤ max_chunk_size := by
  obtain ⟨hprog, hshort⟩ := @helper_programs env _ _ _ _ _ h c hmax hmax'
  obtain ⟨hrest, hshort'⟩ := hbs (progress c erase_size base d d.length)
  constructor
  · intro sram chip hidle
    apply (hprog sram chip hidle).append
    intro sram' chip' hidle'
    apply (hrest sram' chip' hidle').mono
    intro s hs
    exact ⟨hs.1, (h.written hd hlarge c).append hs.2 hend⟩
  · intro b hmem
    rcases List.mem_append.mp hmem with hmem | hmem
    · exact hshort b hmem
    · exact hshort' b hmem

theorem no_sector_programs {offset : ℕ} {d : List Byte} (hd : d = []) (c : Cells) :
    (∀ sram chip, Idle c chip → Programs env
      (fun s => s.busy = 0 ∧ Written c s.cells offset d) [] sram chip) ∧
    ∀ b ∈ ([] : List (List Byte)), b.length ≤ max_chunk_size := by
  refine ⟨fun sram chip hidle => ⟨hidle.1, ?_⟩, fun b hb => absurd hb List.not_mem_nil⟩
  rw [hidle.2, hd]
  exact Written.nil c offset

/-- The next sector of a longer block of data. -/
theorem next_sector_programs {erase_size offset n : ℕ} {erase_cmd : Byte} {d : List Byte}
    (he : IsErase erase_cmd erase_size) (ha : offset%erase_size = 0) (hr : offset+d.length ≤ 2^24)
    (hd : d ≠ []) (hlarge : erase_size = 4096 ∨ erase_size ≤ d.length)
    (hmax : 320 < max_chunk_size) (hmax' : max_chunk_size < 2^64) (hn : d.length ≤ n+1)
    (ih : ∀ {offset : ℕ} {d : List Byte}, d.length ≤ n → offset%4096 = 0 ∨ d = [] →
      offset+d.length ≤ 2^24 → ∀ c, (∀ sram chip, Idle c chip → Programs env
        (fun s => s.busy = 0 ∧ Written c s.cells offset d)
        (spiflashSectors default_spi_flash_info max_chunk_size n offset d) sram chip) ∧
        ∀ b ∈ spiflashSectors default_spi_flash_info max_chunk_size n offset d,
          b.length ≤ max_chunk_size) (c : Cells) :
    (∀ sram chip, Idle c chip → Programs env
      (fun s => s.busy = 0 ∧ Written c s.cells offset d)
      (awFelSpiflashWriteHelper erase_size erase_cmd 256 0x02#8 max_chunk_size offset
        (d.take (min erase_size d.length)) ++
        spiflashSectors default_spi_flash_info max_chunk_size n (offset+min erase_size d.length)
          (d.drop (min erase_size d.length))) sram chip) ∧
    ∀ b ∈ awFelSpiflashWriteHelper erase_size erase_cmd 256 0x02#8 max_chunk_size offset
        (d.take (min erase_size d.length)) ++
        spiflashSectors default_spi_flash_info max_chunk_size n (offset+min erase_size d.length)
          (d.drop (min erase_size d.length)), b.length ≤ max_chunk_size := by
  have hpos := List.length_pos_iff.mpr hd
  have hsize : 0 < erase_size ∧ (offset+erase_size)%4096 = 0 := by
    rcases he with ⟨-, rfl⟩ | ⟨-, rfl⟩
    · omega
    · omega
  have hlen : (d.take (min erase_size d.length)).length = min erase_size d.length := by
    rw [List.length_take]
    omega
  have hrest : (d.drop (min erase_size d.length)).length = d.length-min erase_size d.length := by
    rw [List.length_drop]
  -- either the sector is full, or no data is left
  have hend : (offset+min erase_size d.length)%4096 = 0 ∨ d.drop (min erase_size d.length) = [] := by
    by_cases hle : erase_size ≤ d.length
    · rw [Nat.min_eq_left hle]
      exact .inl hsize.2
    · exact .inr (List.length_eq_zero_iff.mp (by omega))
  have hw : SectorWrite erase_cmd erase_size offset (d.take (min erase_size d.length)) :=
    ⟨he, ha, by omega, by omega⟩
  have hne : d.take (min erase_size d.length) ≠ [] := by
    apply List.ne_nil_of_length_pos
    omega
  have h := @sector_programs env _ _ _ _ _ (d.drop (min erase_size d.length)) hw hne
    (by rw [hlen]; omega) (by rw [hlen]; exact hend) hmax hmax'
    (spiflashSectors default_spi_flash_info max_chunk_size n
      (offset+min erase_size d.length) (d.drop (min erase_size d.length))) c
    (by rw [hlen]; exact ih (by omega) hend (by omega))
  rw [List.take_append_drop] at h
  exact h

/-- All sectors. The offset is a multiple of the small sector size as long as data is left. -/
theorem sectors_program (hmax : 320 < max_chunk_size) (hmax' : max_chunk_size < 2^64)
    {n offset : ℕ} {d : List Byte} (hn : d.length ≤ n) (ho : offset%4096 = 0 ∨ d = [])
    (hr : offset+d.length ≤ 2^24) (c : Cells) :
    (∀ sram chip, Idle c chip → Programs env
      (fun s => s.busy = 0 ∧ Written c s.cells offset d)
      (spiflashSectors default_spi_flash_info max_chunk_size n offset d) sram chip) ∧
    ∀ b ∈ spiflashSectors default_spi_flash_info max_chunk_size n offset d,
      b.length ≤ max_chunk_size := by
  induction n generalizing offset d c with
  | zero => exact no_sector_programs (List.length_eq_zero_iff.mp (Nat.le_zero.mp hn)) c
  | succ n ih =>
    unfold spiflashSectors
    split_ifs with hnil hsmall
    · exact no_sector_programs hnil c
    · have ha : offset%4096 = 0 := ho.resolve_right hnil
      exact next_sector_programs (.inl ⟨rfl, rfl⟩) ha hr hnil (.inl rfl) hmax hmax' hn
        (fun h1 h2 h3 c => ih h1 h2 h3 c) c
    · rw [not_or, not_not, Nat.not_lt] at hsmall
      exact next_sector_programs (.inr ⟨rfl, rfl⟩) hsmall.1 hr hnil (.inr hsmall.2) hmax hmax' hn
        (fun h1 h2 h3 c => ih h1 h2 h3 c) c

end Sectors

/-- On every SoC, the batches of `aw_fel_spiflash_write` leave the data in an idle flash and
change nothing outside of the sectors that the data meets, for any answers of the chip and
any time that its operations take. No batch exceeds the buffer. -/
theorem spiflash_write_programs (soc_id : Arm.Word) (offset : ℕ) (data : List Byte) (env : Env)
    (sram : ℕ → Byte) (chip : Chip) (halign : offset%4096 = 0)
    (hrange : offset+data.length ≤ 2^24) (hidle : chip.busy = 0) :
    ∃ bs, awFelSpiflashWrite (getSocInfoFromId soc_id) true offset data = .ok bs ∧
      Programs env (fun s => s.busy = 0 ∧ Written chip.cells s.cells offset data) bs sram chip ∧
      ∀ b ∈ bs, b.length ≤ maxChunkSize (getSocInfoFromId soc_id) := by
  have hmax := maxChunkSize_soc soc_id
  obtain ⟨hprog, hshort⟩ := @sectors_program env
    (maxChunkSize (getSocInfoFromId soc_id)) (by omega) (by omega) _ _ _
    (Nat.le_refl _) (.inl halign) hrange chip.cells
  refine ⟨_, ?_, hprog sram chip ⟨hidle, rfl⟩, hshort⟩
  exact if_neg (not_not_intro halign)

/-- Three bytes at the second sector of a cleared flash, on an A13. -/
theorem spiflash_write_three :
    ∃ bs, awFelSpiflashWrite (getSocInfoFromId 0x1625#32) true 0x1000 [1#8, 2#8, 3#8] = .ok bs ∧
      Programs ⟨fun n => n, fun _ _ => 0#8⟩
        (fun s => s.busy = 0 ∧ Written (fun _ => 0#8) s.cells 0x1000 [1#8, 2#8, 3#8]) bs
        (fun _ => 0#8) ⟨fun _ => 0#8, false, 0, 0⟩ ∧
      ∀ b ∈ bs, b.length ≤ maxChunkSize (getSocInfoFromId 0x1625#32) :=
  spiflash_write_programs 0x1625#32 0x1000 [1#8, 2#8, 3#8] ⟨fun n => n, fun _ _ => 0#8⟩
    (fun _ => 0#8) ⟨fun _ => 0#8, false, 0, 0⟩ (by decide) (by decide) rfl

end ChipTools.Spi
