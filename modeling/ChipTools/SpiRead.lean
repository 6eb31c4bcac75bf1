import ChipTools.SpiFlash

/-! `aw_fel_spiflash_read`: chunks of the flash are read through a buffer in the SRAM. A full chunk
uploads only its command, over the reply to the chunk before, so that the end marker behind it is
the one from before the loop. -/
namespace ChipTools.Spi
open Nor Fel

/-- `spi_batch_data_transfer` with a bound on the passes of its loop. -/
def BatchState.run (env : Env) : ℕ → BatchState → Option BatchState
  | 0, _ => none
  | n+1, s =>
    match s.step env with
    | none => some s
    | some t => run env n t

/-- The variables of `aw_fel_spiflash_read`: `buf` is what has been read, `sram` the memory from
`spl_addr` on. `batches` are the states in which the device was started. -/
structure Reader where
  offset : ℕ
  len : ℕ
  buf : List Byte
  sram : ℕ → Byte
  chip : Chip
  batches : List BatchState

/-- The command that reads a chunk. -/
def readHeader (chunk_size offset : ℕ) : List Byte :=
  [BitVec.ofNat 8 ((chunk_size+4) >>> 8), BitVec.ofNat 8 (chunk_size+4), 3#8,
   BitVec.ofNat 8 (offset >>> 16), BitVec.ofNat 8 (offset >>> 8), BitVec.ofNat 8 offset]

section Loop

-- `stack` is what lies in the second byte of `wait_for_completion_cmd`, by batch
variable (env : Env) (stack : ℕ → Byte) (passes max_chunk_size : ℕ)

/-- `max_chunk_size - 8`, of type `size_t`. -/
def maxData : ℕ := (max_chunk_size+2^64-8)%2^64

/-- What is uploaded of `cmdbuf`. -/
def readUpload (chunk_size offset : ℕ) : List Byte :=
  let cmdbuf := readHeader chunk_size offset ++ List.replicate (max_chunk_size-6) 0#8
  if chunk_size = maxData max_chunk_size then cmdbuf.take 6 else cmdbuf.take (chunk_size+8)

/-- The device at the start of the next batch. -/
def Reader.batch (r : Reader) : BatchState :=
  { buf := 0
    sram := writeBytes r.sram 0
      (readUpload max_chunk_size (min r.len (maxData max_chunk_size)) r.offset)
    wait := stack r.chip.clock
    chip := r.chip }

/-- One pass of the loop. -/
def Reader.chunk (r : Reader) : Option Reader :=
  let chunk_size := min r.len (maxData max_chunk_size)
  ((r.batch stack max_chunk_size).run env passes).map fun t =>
    { offset := (r.offset+chunk_size)%2^32
      len := r.len-chunk_size
      buf := r.buf ++ readBytes t.sram 6 chunk_size
      sram := t.sram
      chip := t.chip
      batches := r.batches ++ [r.batch stack max_chunk_size] }

/-- The loop, with a bound on its passes. -/
def Reader.loop : ℕ → Reader → Option Reader
  | 0, r => if r.len = 0 then some r else none
  | n+1, r =>
    if r.len = 0 then some r else (r.chunk env stack passes max_chunk_size).bind (loop n)

/-- `aw_fel_spiflash_read`; without `spi0` it returns with the buffer cleared. -/
def awFelSpiflashRead (soc : SocInfo) (spi0 : Bool) (offset len : ℕ) (sram : ℕ → Byte)
    (chip : Chip) : Option Reader :=
  let backup := readBytes sram 0 (soc.scratch_addr-soc.spl_addr).toNat
  let r : Reader :=
    { offset := offset
      len := len
      buf := []
      sram := writeBytes sram 0 (List.replicate (maxChunkSize soc) 0#8)
      chip := chip
      batches := [] }
  if !spi0 then some r
  else (r.loop env stack passes (maxChunkSize soc) len).map fun r =>
    { r with sram := writeBytes r.sram 0 backup }

end Loop

section Batch

variable {env : Env} {sram : ℕ → Byte} {chunk_size offset max_chunk_size : ℕ}

theorem readHeader_length : (readHeader chunk_size offset).length = 6 := rfl

theorem writeBytes_outside {p x : ℕ} {bs : List Byte} (h : x < p ∨ p+bs.length ≤ x) :
    writeBytes sram p bs x = sram x := by
  unfold writeBytes
  split
  · rw [List.getD_eq_getElem?_getD, List.getElem?_eq_none (by omega), Option.getD_none]
  · rfl

theorem writeBytes_inside {p i : ℕ} {bs : List Byte} (h : i < bs.length) :
    writeBytes sram p bs (p+i) = bs[i] := by
  unfold writeBytes
  rw [if_pos (by omega), Nat.add_sub_cancel_left, List.getD_eq_getElem?_getD,
    List.getElem?_eq_getElem h, Option.getD_some]

theorem readBytes_add (p a b : ℕ) :
    readBytes sram p (a+b) = readBytes sram p a ++ readBytes sram (p+a) b := by
  unfold readBytes
  rw [List.range_add, List.map_append, List.map_map]
  congr 1
  apply List.map_congr_left
  intro i _
  rw [Function.comp_apply, Nat.add_assoc]

/-- What was written is read back. -/
theorem readBytes_writeBytes {p : ℕ} (bs cs : List Byte) :
    readBytes (writeBytes sram p (bs ++ cs)) (p+bs.length) cs.length = cs := by
  apply List.ext_getElem
  · simp [readBytes]
  · intro i hi hi'
    have hlt : bs.length+i < (bs ++ cs).length := by
      rw [List.length_append]
      omega
    have hin := @writeBytes_inside sram p _ _ hlt
    rw [← Nat.add_assoc] at hin
    simp only [readBytes, List.getElem_map, List.getElem_range, hin]
    rw [List.getElem_append_right (by omega)]
    simp only [Nat.add_sub_cancel_left]

/-- The upload brings the command, and the end marker is behind the room for the reply: it is
uploaded too, or it is in the last two bytes of the buffer. -/
structure Uploaded (sram : ℕ → Byte) (chunk_size offset : ℕ) : Prop where
  header : Ahead sram 0 (readHeader chunk_size offset)
  ends : sram (chunk_size+6) = 0#8 ∧ sram (chunk_size+7) = 0#8

/-- The upload is the command, and for a short chunk also as many zeros as the reply and the end
marker take. -/
theorem readUpload_eq (hsize : chunk_size+8 ≤ max_chunk_size) :
    readUpload max_chunk_size chunk_size offset = readHeader chunk_size offset ++
      List.replicate (if chunk_size = maxData max_chunk_size then 0 else chunk_size+2) 0#8 := by
  unfold readUpload
  dsimp only
  split
  · rw [List.replicate_zero, List.append_nil]
    exact @List.take_left _ (readHeader chunk_size offset) _
  · have htake : (List.replicate (max_chunk_size-6) (0#8 : Byte)).take (chunk_size+2) =
        List.replicate (chunk_size+2) 0#8 := by
      rw [List.take_replicate, Nat.min_eq_left (by omega)]
    rw [← htake, show chunk_size+8 = (readHeader chunk_size offset).length+(chunk_size+2) from by
      rw [readHeader_length]
      omega]
    exact List.take_length_add_append _

/-- Behind the command, an upload leaves what was there or writes zeros. -/
theorem upload_behind {k x : ℕ} (hx : 6 ≤ x) :
    writeBytes sram 0 (readHeader chunk_size offset ++ List.replicate k 0#8) x =
      if x < k+6 then 0#8 else sram x := by
  have hlen : (readHeader chunk_size offset ++ List.replicate k (0#8 : Byte)).length = k+6 := by
    rw [List.length_append, readHeader_length, List.length_replicate, Nat.add_comm]
  split
  next hlt =>
    have hin := @writeBytes_inside sram 0 _ _ (hlen ▸ hlt)
    rw [Nat.zero_add] at hin
    rw [hin, List.getElem_append_right (by rw [readHeader_length]; omega), List.getElem_replicate]
  next hlt => exact writeBytes_outside (by omega)

theorem uploaded (h8 : 8 ≤ max_chunk_size) (hmax : max_chunk_size < 2^64)
    (hsize : chunk_size+8 ≤ max_chunk_size)
    (hends : sram (max_chunk_size-2) = 0#8 ∧ sram (max_chunk_size-1) = 0#8) :
    Uploaded (writeBytes sram 0 (readUpload max_chunk_size chunk_size offset)) chunk_size offset := by
  have hdata : maxData max_chunk_size = max_chunk_size-8 := by
    unfold maxData
    omega
  rw [readUpload_eq hsize, hdata]
  constructor
  · intro i b hi
    obtain ⟨hlt, -⟩ := List.getElem?_eq_some_iff.mp hi
    rw [writeBytes_inside (by rw [List.length_append]; omega), List.getElem_append_left hlt]
    rw [List.getElem?_eq_getElem hlt] at hi
    exact Option.some.inj hi
  · rw [upload_behind (by omega), upload_behind (by omega)]
    by_cases hfull : chunk_size = max_chunk_size-8
    · rw [if_pos hfull, if_neg (by omega), if_neg (by omega),
        show chunk_size+6 = max_chunk_size-2 from by omega,
        show chunk_size+7 = max_chunk_size-1 from by omega]
      exact hends
    · rw [if_neg hfull, if_pos (by omega), if_pos (by omega)]
      exact ⟨rfl, rfl⟩

/-- The chip's answer to the command, in an idle chip. -/
theorem transact_read {chip : Chip} {rest : List Byte} (hidle : chip.busy = 0)
    (hoffset : offset < 2^24) :
    ∃ junk : List Byte, junk.length = 4 ∧ chip.transact env (3#8 :: BitVec.ofNat 8 (offset >>> 16) ::
        BitVec.ofNat 8 (offset >>> 8) :: BitVec.ofNat 8 offset :: rest) =
      ({ chip with clock := chip.clock+1 },
        junk ++ (List.range rest.length).map fun i => chip.cells ((offset+i)%2^24)) := by
  refine ⟨((List.range (rest.length+1+1+1+1)).map (env.miso chip.clock)).take 4, by simp, ?_⟩
  simp [Chip.transact, Chip.reply, Chip.command, hidle, address_of_offset hoffset]

/-- A batch is one transfer and the end marker. -/
theorem batch_read {s : BatchState} (hbuf : s.buf = 0) (hpos : 0 < chunk_size)
    (hsize : chunk_size+4 < 0xFFFF) (hup : Uploaded s.sram chunk_size offset)
    (hidle : s.chip.busy = 0) (hrange : offset+chunk_size ≤ 2^24) :
    s.step env = some (s.transfer env) ∧ (s.transfer env).step env = none ∧
      readBytes (s.transfer env).sram 6 chunk_size =
        (List.range chunk_size).map (fun i => s.chip.cells (offset+i)) ∧
      (∀ x, chunk_size+6 ≤ x → (s.transfer env).sram x = s.sram x) ∧
      (s.transfer env).chip = { s.chip with clock := s.chip.clock+1 } := by
  have hh := hup.header
  unfold readHeader at hh
  have hcode : s.code = chunk_size+4 := by
    unfold BatchState.code
    rw [hbuf, Nat.zero_add, hh.head, hh.tail.head, toNat_code _ (by omega)]
  have htx : readBytes s.sram (s.buf+2) s.code = 3#8 :: BitVec.ofNat 8 (offset >>> 16) ::
      BitVec.ofNat 8 (offset >>> 8) :: BitVec.ofNat 8 offset :: readBytes s.sram 6 chunk_size := by
    have hcmd := @Ahead.read _ _ [3#8, BitVec.ofNat 8 (offset >>> 16),
      BitVec.ofNat 8 (offset >>> 8), BitVec.ofNat 8 offset] [] hh.tail.tail
    rw [hcode, hbuf, Nat.add_comm chunk_size 4, readBytes_add]
    exact congrArg (· ++ readBytes s.sram 6 chunk_size) hcmd
  obtain ⟨junk, hjunk, hanswer⟩ := @transact_read env offset s.chip
    (readBytes s.sram 6 chunk_size) hidle (by omega)
  have hlen : (readBytes s.sram 6 chunk_size).length = chunk_size := by simp [readBytes]
  have hcells : (List.range chunk_size).map (fun i => s.chip.cells ((offset+i)%2^24)) =
      (List.range chunk_size).map fun i => s.chip.cells (offset+i) := by
    apply List.map_congr_left
    intro i hi
    rw [Nat.mod_eq_of_lt (by have := List.mem_range.mp hi; omega)]
  rw [← htx, hlen, hcells] at hanswer
  have hsram : (s.transfer env).sram = writeBytes s.sram 2
      (junk ++ (List.range chunk_size).map fun i => s.chip.cells (offset+i)) := by
    unfold BatchState.transfer
    dsimp only
    rw [hanswer, hbuf]
  have hkeep (x : ℕ) (hx : chunk_size+6 ≤ x) : (s.transfer env).sram x = s.sram x := by
    rw [hsram]
    apply writeBytes_outside
    simp only [List.length_append, List.length_map, List.length_range]
    omega
  have hend : (s.transfer env).code = 0 := by
    have hplace : (s.transfer env).buf = chunk_size+6 := by
      simp only [BatchState.transfer, hbuf, hcode]
      omega
    unfold BatchState.code
    rw [hplace, hkeep _ (by omega), hkeep _ (by omega), hup.ends.1, hup.ends.2]
    rfl
  refine ⟨?_, ?_, ?_, hkeep, ?_⟩
  · unfold BatchState.step
    rw [if_neg (by omega), if_neg (by omega)]
  · unfold BatchState.step
    rw [if_pos hend]
  · have hread := @readBytes_writeBytes s.sram 2 junk
      ((List.range chunk_size).map fun i => s.chip.cells (offset+i))
    rw [hjunk, List.length_map, List.length_range] at hread
    rw [hsram]
    exact hread
  · simp only [BatchState.transfer, hanswer]

end Batch

section Run

variable {env : Env} {stack : ℕ → Byte} {passes max_chunk_size : ℕ} {c : Cells} {start total : ℕ}
  {mem : ℕ → Byte}

/-- Between two chunks: the flash is ready and unchanged, what lies before `offset` has been read,
the last two bytes of the buffer are zero, the memory behind it is as before, and every batch so
far was one command with the end marker behind it. -/
structure Reading (env : Env) (c : Cells) (mem : ℕ → Byte) (start total max_chunk_size : ℕ)
    (r : Reader) : Prop where
  idle : r.chip.busy = 0
  cells : r.chip.cells = c
  offset : r.offset = start+r.buf.length
  len : r.buf.length+r.len = total
  buf : r.buf = (List.range r.buf.length).map fun i => c (start+i)
  ends : r.sram (max_chunk_size-2) = 0#8 ∧ r.sram (max_chunk_size-1) = 0#8
  frame : ∀ x, max_chunk_size ≤ x → r.sram x = mem x
  batches : ∀ s ∈ r.batches, s.step env = some (s.transfer env) ∧ (s.transfer env).step env = none

theorem reading_chunk (h8 : 8 < max_chunk_size) (hmax : max_chunk_size ≤ 0x1000)
    (hrange : start+total ≤ 2^24) (hpasses : 2 ≤ passes) {r : Reader}
    (h : Reading env c mem start total max_chunk_size r) (hlen : 0 < r.len) :
    ∃ r', r.chunk env stack passes max_chunk_size = some r' ∧
      Reading env c mem start total max_chunk_size r' ∧ r'.len < r.len := by
  have hdata : maxData max_chunk_size = max_chunk_size-8 := by
    unfold maxData
    omega
  have hsum := h.len
  have hoff := h.offset
  obtain ⟨chunk_size, hchunk⟩ : ∃ n, min r.len (maxData max_chunk_size) = n := ⟨_, rfl⟩
  have hup : Uploaded (r.batch stack max_chunk_size).sram chunk_size r.offset := by
    unfold Reader.batch
    rw [hchunk]
    exact uploaded (by omega) (by omega) (by omega) h.ends
  obtain ⟨hstep, hend, hread, hkeep, hchip⟩ := @batch_read env _ _
    (r.batch stack max_chunk_size) rfl (by omega) (by omega) hup h.idle (by omega)
  have hcells : (r.batch stack max_chunk_size).chip = r.chip := rfl
  rw [hcells, h.cells] at hread
  have hrun : (r.batch stack max_chunk_size).run env passes =
      some ((r.batch stack max_chunk_size).transfer env) := by
    obtain ⟨n, rfl⟩ : ∃ n, passes = n+2 := ⟨passes-2, by omega⟩
    simp only [BatchState.run, hstep, hend]
  have hbehind (x : ℕ) (hx : chunk_size+6 ≤ x) :
      ((r.batch stack max_chunk_size).transfer env).sram x =
        if x < (if chunk_size = maxData max_chunk_size then 0 else chunk_size+2)+6 then 0#8
        else r.sram x := by
    rw [hkeep x hx]
    unfold Reader.batch
    dsimp only
    rw [hchunk, readUpload_eq (by omega), upload_behind (by omega)]
  unfold Reader.chunk
  dsimp only
  rw [hrun, hchunk]
  refine ⟨_, rfl, ?_, by dsimp only; omega⟩
  have hbuflen : (r.buf ++ readBytes ((r.batch stack max_chunk_size).transfer env).sram 6
      chunk_size).length = r.buf.length+chunk_size := by
    simp [readBytes]
  constructor
  · dsimp only
    rw [hchip]
    exact h.idle
  · dsimp only
    rw [hchip]
    exact h.cells
  · dsimp only
    rw [hbuflen]
    omega
  · dsimp only
    rw [hbuflen]
    omega
  · dsimp only
    rw [hbuflen, List.range_add, List.map_append, ← h.buf, hread, List.map_map]
    refine congrArg (r.buf ++ ·) (List.map_congr_left fun i _ => ?_)
    rw [Function.comp_apply, hoff, Nat.add_assoc]
  · have hzero (x : ℕ) (hx : chunk_size+6 ≤ x) (h0 : r.sram x = 0#8) :
        ((r.batch stack max_chunk_size).transfer env).sram x = 0#8 := by
      rw [hbehind x hx, h0, ite_self]
    exact ⟨hzero _ (by omega) h.ends.1, hzero _ (by omega) h.ends.2⟩
  · intro x hx
    dsimp only
    rw [hbehind x (by omega), if_neg (by split <;> omega)]
    exact h.frame x hx
  · intro s hs
    rcases List.mem_append.mp hs with hs | hs
    · exact h.batches s hs
    · rw [List.mem_singleton.mp hs]
      exact ⟨hstep, hend⟩

/-- The whole loop. -/
theorem reading_loop (h8 : 8 < max_chunk_size) (hmax : max_chunk_size ≤ 0x1000)
    (hrange : start+total ≤ 2^24) (hpasses : 2 ≤ passes) {n : ℕ} {r : Reader}
    (h : Reading env c mem start total max_chunk_size r) (hn : r.len ≤ n) :
    ∃ r', r.loop env stack passes max_chunk_size n = some r' ∧
      Reading env c mem start total max_chunk_size r' ∧ r'.len = 0 := by
  induction n generalizing r with
  | zero =>
    have h0 : r.len = 0 := by omega
    exact ⟨r, if_pos h0, h, h0⟩
  | succ n ih =>
    unfold Reader.loop
    by_cases h0 : r.len = 0
    · exact ⟨r, if_pos h0, h, h0⟩
    · obtain ⟨r', hchunk, hread, hless⟩ := @reading_chunk _ stack _ _ _ _ _ _ h8 hmax hrange hpasses _ h
        (by omega)
      rw [if_neg h0, hchunk]
      exact ih hread (by omega)

end Run

/-- A backup that is written back. -/
theorem restored {sram mem : ℕ → Byte} {n : ℕ} (hframe : ∀ x, n ≤ x → sram x = mem x) :
    writeBytes sram 0 (readBytes mem 0 n) = mem := by
  funext x
  by_cases hx : x < n
  · have hin := @writeBytes_inside sram 0 x (readBytes mem 0 n)
      (by simpa [readBytes] using hx)
    rw [Nat.zero_add] at hin
    rw [hin]
    simp [readBytes]
  · rw [writeBytes_outside (by simp [readBytes]; omega), hframe x (by omega)]

/-- The whole function, with a buffer that holds more than a command. -/
theorem spiflash_reads {env : Env} {stack sram : ℕ → Byte} {passes offset len : ℕ} {soc : SocInfo}
    {chip : Chip} (h8 : 8 < maxChunkSize soc) (hrange : offset+len ≤ 2^24) (hidle : chip.busy = 0)
    (hpasses : 2 ≤ passes) :
    ∃ r, awFelSpiflashRead env stack passes soc true offset len sram chip = some r ∧
      r.buf = (List.range len).map (fun i => chip.cells (offset+i)) ∧
      (∀ s ∈ r.batches, s.step env = some (s.transfer env) ∧ (s.transfer env).step env = none) ∧
      r.chip.cells = chip.cells ∧ r.sram = sram := by
  have hmax : maxChunkSize soc ≤ 0x1000 := Nat.min_le_right _ _
  have hbufsize : maxChunkSize soc ≤ (soc.scratch_addr-soc.spl_addr).toNat := Nat.min_le_left _ _
  have hclear (x : ℕ) (hx : x < maxChunkSize soc) :
      writeBytes sram 0 (List.replicate (maxChunkSize soc) 0#8) x = 0#8 := by
    have hin := @writeBytes_inside sram 0 x
      (List.replicate (maxChunkSize soc) (0#8 : Byte))
      (by rw [List.length_replicate]; exact hx)
    rw [Nat.zero_add] at hin
    rw [hin, List.getElem_replicate]
  have hframe (x : ℕ) (hx : maxChunkSize soc ≤ x) :
      writeBytes sram 0 (List.replicate (maxChunkSize soc) 0#8) x = sram x :=
    writeBytes_outside (by rw [List.length_replicate]; omega)
  have hstart : Reading env chip.cells sram offset len (maxChunkSize soc)
      ⟨offset, len, [], writeBytes sram 0 (List.replicate (maxChunkSize soc) 0#8), chip, []⟩ :=
    ⟨hidle, rfl, rfl, Nat.zero_add _, rfl, ⟨hclear _ (by omega), hclear _ (by omega)⟩, hframe,
      fun s hs => absurd hs List.not_mem_nil⟩
  obtain ⟨r, hrun, hread, hdone⟩ := @reading_loop _ stack _ _ _ _ _ _ h8 hmax hrange hpasses _ _ hstart
    (Nat.le_refl _)
  have hlen := hread.len
  have hall : r.buf.length = len := by omega
  refine ⟨{ r with sram := writeBytes r.sram 0 (readBytes sram 0
    (soc.scratch_addr-soc.spl_addr).toNat) }, ?_, hall ▸ hread.buf, hread.batches, hread.cells,
    restored fun x hx => hread.frame x (by omega)⟩
  exact congrArg (Option.map _) hrun

/-- On every SoC, a ready flash is read right: two passes of the device's loop are enough for each
batch, one for the command and one that meets the end marker right behind it, the data is what the
flash holds, and the memory that was used is restored. -/
theorem spiflash_read_returns (soc_id : Arm.Word) (offset len passes : ℕ) (env : Env)
    (stack sram : ℕ → Byte) (chip : Chip) (hrange : offset+len ≤ 2^24) (hidle : chip.busy = 0)
    (hpasses : 2 ≤ passes) :
    ∃ r, awFelSpiflashRead env stack passes (getSocInfoFromId soc_id) true offset len sram chip =
        some r ∧
      r.buf = (List.range len).map (fun i => chip.cells (offset+i)) ∧
      (∀ s ∈ r.batches, s.step env = some (s.transfer env) ∧ (s.transfer env).step env = none) ∧
      r.chip.cells = chip.cells ∧ r.sram = sram := by
  have h8 : 8 < maxChunkSize (getSocInfoFromId soc_id) := by
    rw [maxChunkSize_soc]
    decide
  exact spiflash_reads h8 hrange hidle hpasses

/-- Five bytes of an A13's flash whose cells hold their own addresses. -/
theorem spiflash_read_five :
    ∃ r, awFelSpiflashRead ⟨fun _ => 0, fun _ _ => 0xFF#8⟩ (fun _ => 0#8) 2
        (getSocInfoFromId 0x1625#32) true 0x100 5 (fun _ => 7#8)
        ⟨fun a => BitVec.ofNat 8 a, false, 0, 0⟩ = some r ∧
      r.buf = (List.range 5).map (fun i => BitVec.ofNat 8 (0x100+i)) ∧
      (∀ s ∈ r.batches, s.step ⟨fun _ => 0, fun _ _ => 0xFF#8⟩ =
          some (s.transfer ⟨fun _ => 0, fun _ _ => 0xFF#8⟩) ∧
        (s.transfer ⟨fun _ => 0, fun _ _ => 0xFF#8⟩).step ⟨fun _ => 0, fun _ _ => 0xFF#8⟩ = none) ∧
      r.chip.cells = (fun a => BitVec.ofNat 8 a) ∧ r.sram = fun _ => 7#8 :=
  spiflash_read_returns 0x1625#32 0x100 5 2 ⟨fun _ => 0, fun _ _ => 0xFF#8⟩ (fun _ => 0#8)
    (fun _ => 7#8) ⟨fun a => BitVec.ofNat 8 a, false, 0, 0⟩ (by decide) rfl (by decide)

end ChipTools.Spi
