import ChipTools.SpiRead

/-! The SPI flash commands use the SRAM between `spl_addr` and `scratch_addr` as a buffer. Each of
them makes a backup of it first and writes that back at the end; `spi0_init` can fail in between. -/
namespace ChipTools.Spi
open Nor Fel Arm

/-- The cases of the switch in `spi0_init` that set up pins. -/
def spi0Supported (soc_id : Word) : Bool :=
  [0x1625#32, 0x1680#32, 0x1718#32, 0x1651#32, 0x1689#32].contains soc_id

def spiIsSun6i (soc_id : Word) : Bool := !(([0x1623#32, 0x1625#32, 0x1651#32] : List Word).contains soc_id)

/-- What the host works on: the memory from `spl_addr` on and the flash chip. -/
structure Device where
  sram : ℕ → Byte
  chip : Chip

/-- The three commands with their arguments. -/
inductive SpiflashCommand where
  | read (offset len : ℕ)
  | write (offset : ℕ) (buf : List Byte)
  | info

section Commands

-- `gcr` is what the polls of the reset bit read, `passes` bounds the loops that wait for the device
variable (env : Env) (stack : ℕ → Byte) (gcr : ℕ → Word) (passes : ℕ)

/-- `spi0_init`. Only a supported SoC is touched, and only the newer controllers have a reset to
wait for. -/
def spi0Init (soc_id : Word) : Option Bool :=
  if !spi0Supported soc_id then some false
  else if !spiIsSun6i soc_id then some true
  else if (List.range passes).any fun k => !(gcr k).getLsbD 31 then some true
  else none

variable (soc_id : Word)

/-- `scratch_addr - spl_addr`, which is also what `backup_sram` reads and `restore_sram` writes. -/
def bufsize : ℕ :=
  ((getSocInfoFromId soc_id).scratch_addr-(getSocInfoFromId soc_id).spl_addr).toNat

def backupSram (d : Device) : List Byte := readBytes d.sram 0 (bufsize soc_id)

def restoreSram (backup : List Byte) (d : Device) : Device :=
  { d with sram := writeBytes d.sram 0 backup }

/-- `aw_fel_write` of `cmdbuf` to `spl_addr` and a run of the remote function. -/
def Device.execute (d : Device) (cmdbuf : List Byte) : Option Device :=
  let s : BatchState :=
    { buf := 0, sram := writeBytes d.sram 0 cmdbuf, wait := stack d.chip.clock, chip := d.chip }
  (s.run env passes).map fun t => ⟨t.sram, t.chip⟩

/-- The command buffer of `aw_fel_spiflash_info`: the JEDEC ID is read. -/
def jedecId : List Byte := [0#8, 4#8, 0x9F#8, 0#8, 0#8, 0#8, 0#8, 0#8]

/-- A call of one of the commands, `none` where it does not return: the program is left with
`exit`, or the device does not get ready. -/
def SpiflashCommand.run (d : Device) : SpiflashCommand → Option Device
  | .read offset len =>
    (spi0Init gcr passes soc_id).bind fun spi0 =>
      (awFelSpiflashRead env stack passes (getSocInfoFromId soc_id) spi0 offset len d.sram
        d.chip).map fun r => ⟨r.sram, r.chip⟩
  | .write offset buf =>
    (spi0Init gcr passes soc_id).bind fun spi0 =>
      match awFelSpiflashWrite (getSocInfoFromId soc_id) spi0 offset buf with
      | .error _ => none
      | .ok batches =>
        if !spi0 then some d
        else (batches.foldlM (Device.execute env stack passes) d).map
          (restoreSram (backupSram soc_id d))
  | .info =>
    (spi0Init gcr passes soc_id).bind fun spi0 =>
      if !spi0 then some d
      else (d.execute env stack passes jedecId).map (restoreSram (backupSram soc_id d))

end Commands

/-- Between `spl_addr` and `scratch_addr` the memory is the same. -/
def SameSram (soc_id : Word) (d d' : Device) : Prop := ∀ x < bufsize soc_id, d'.sram x = d.sram x

section Frame

variable {env : Env} {stack : ℕ → Byte} {gcr : ℕ → Word} {passes : ℕ} {soc_id : Word}

theorem writeBack {sram mem : ℕ → Byte} {n x : ℕ} (hx : x < n) :
    writeBytes sram 0 (readBytes mem 0 n) x = mem x := by
  have hlen : x < (readBytes mem 0 n).length := by simpa [readBytes] using hx
  have hin := @writeBytes_inside sram 0 x (readBytes mem 0 n) hlen
  rw [Nat.zero_add] at hin
  rw [hin]
  simp [readBytes]

/-- The backup covers all of it, whatever has been done in between. -/
theorem restoreSram_same (d t : Device) :
    SameSram soc_id d (restoreSram (backupSram soc_id d) t) := by
  intro x hx
  exact writeBack hx

theorem spi0Init_false {passes : ℕ} (h : spi0Supported soc_id = false) :
    spi0Init gcr passes soc_id = some false := by
  unfold spi0Init
  rw [h]
  rfl

theorem spi0Init_some {spi0 : Bool} (h : spi0Init gcr passes soc_id = some spi0) :
    spi0 = spi0Supported soc_id := by
  unfold spi0Init at h
  cases hs : spi0Supported soc_id with
  | false =>
    rw [hs] at h
    exact (Option.some.inj h).symm
  | true =>
    rw [hs, if_neg (by decide)] at h
    split at h
    · exact (Option.some.inj h).symm
    · split at h
      · exact (Option.some.inj h).symm
      · cases h

/-- With the controller set up, the read ends with `restore_sram`. -/
theorem read_same {offset len : ℕ} {d : Device} {r : Reader}
    (h : awFelSpiflashRead env stack passes (getSocInfoFromId soc_id) true offset len d.sram
      d.chip = some r) : SameSram soc_id d ⟨r.sram, r.chip⟩ := by
  unfold awFelSpiflashRead at h
  obtain ⟨t, -, rfl⟩ := Option.map_eq_some_iff.mp h
  intro x hx
  exact writeBack hx

/-- Without it, the buffer stays cleared. -/
theorem read_cleared (offset len : ℕ) (d : Device) :
    ∃ r, awFelSpiflashRead env stack passes (getSocInfoFromId soc_id) false offset len d.sram
      d.chip = some r ∧ ∀ x, r.sram x =
        if x < maxChunkSize (getSocInfoFromId soc_id) then 0#8 else d.sram x := by
  refine ⟨_, rfl, fun x => ?_⟩
  dsimp only
  have hlen : (List.replicate (maxChunkSize (getSocInfoFromId soc_id)) (0#8 : Byte)).length =
      maxChunkSize (getSocInfoFromId soc_id) := List.length_replicate
  split
  next hx =>
    have hin := @writeBytes_inside d.sram 0 x _ (hlen.symm ▸ hx)
    rw [Nat.zero_add] at hin
    rw [hin, List.getElem_replicate]
  next hx => exact writeBytes_outside (by omega)

theorem write_same {offset : ℕ} {buf : List Byte} {d d' : Device}
    (h : SpiflashCommand.run env stack gcr passes soc_id d (.write offset buf) = some d') :
    SameSram soc_id d d' := by
  obtain ⟨spi0, -, h⟩ := Option.bind_eq_some_iff.mp h
  split at h
  · cases h
  · split at h
    · obtain rfl := Option.some.inj h
      exact fun _ _ => rfl
    · obtain ⟨t, -, rfl⟩ := Option.map_eq_some_iff.mp h
      exact restoreSram_same d t

theorem info_same {d d' : Device}
    (h : SpiflashCommand.run env stack gcr passes soc_id d .info = some d') :
    SameSram soc_id d d' := by
  obtain ⟨spi0, -, h⟩ := Option.bind_eq_some_iff.mp h
  split at h
  · obtain rfl := Option.some.inj h
    exact fun _ _ => rfl
  · obtain ⟨t, -, rfl⟩ := Option.map_eq_some_iff.mp h
    exact restoreSram_same d t

end Frame

/-- A read on a SoC without SPI support, with data in the buffer that the read clears first. -/
def Clears (soc_id : Word) (d : Device) : SpiflashCommand → Prop
  | .read _ _ => spi0Supported soc_id = false ∧
      ∃ x < maxChunkSize (getSocInfoFromId soc_id), d.sram x ≠ 0#8
  | _ => False

/-- The commands restore the SRAM, but for the read, which clears its buffer before `spi0_init` and
returns without `restore_sram` when that fails. -/
theorem spiflash_restores_iff (env : Env) (stack : ℕ → Byte) (gcr : ℕ → Word) (passes : ℕ)
    (soc_id : Word) (d : Device) (cmd : SpiflashCommand) :
    (∀ d', cmd.run env stack gcr passes soc_id d = some d' → SameSram soc_id d d') ↔
      ¬Clears soc_id d cmd := by
  cases cmd with
  | write offset buf => exact ⟨fun _ h => h, fun _ _ => write_same⟩
  | info => exact ⟨fun _ h => h, fun _ _ => info_same⟩
  | read offset len =>
    cases hs : spi0Supported soc_id with
    | true =>
      refine ⟨fun _ h => absurd (hs.symm.trans h.1) (by decide), fun _ d' h => ?_⟩
      obtain ⟨spi0, hinit, h⟩ := Option.bind_eq_some_iff.mp h
      rw [spi0Init_some hinit, hs] at h
      obtain ⟨r, hr, rfl⟩ := Option.map_eq_some_iff.mp h
      exact read_same hr
    | false =>
      obtain ⟨r, hr, hcleared⟩ := @read_cleared env stack passes soc_id offset len d
      have hrun : SpiflashCommand.run env stack gcr passes soc_id d (.read offset len) =
          some ⟨r.sram, r.chip⟩ := by
        simp only [SpiflashCommand.run, spi0Init_false hs, Option.bind_some, hr, Option.map_some]
      rw [hrun]
      constructor
      · -- a byte of the buffer that was not zero is lost
        rintro hsame ⟨-, x, hx, hne⟩
        have hlt : x < bufsize soc_id := Nat.lt_of_lt_of_le hx (Nat.min_le_left _ _)
        have hx0 := hcleared x
        rw [if_pos hx] at hx0
        exact hne ((hsame _ rfl x hlt).symm.trans hx0)
      · intro hclear d' hd' x _
        obtain rfl := Option.some.inj hd'
        change r.sram x = d.sram x
        rw [hcleared x]
        split
        next hx =>
          by_contra hne
          exact hclear ⟨hs, x, hx, fun h0 => hne h0.symm⟩
        next => rfl

/-- On an A10, for which `spi0_init` has no case, a read of any length leaves zeros in the SRAM. -/
theorem spiflash_read_a10 :
    ∃ d', SpiflashCommand.run ⟨fun _ => 0, fun _ _ => 0xFF#8⟩ (fun _ => 0#8) (fun _ => 0#32) 2
        0x1623#32 ⟨fun _ => 7#8, ⟨fun _ => 0xFF#8, false, 0, 0⟩⟩ (.read 0 16) = some d' ∧
      ¬SameSram 0x1623#32 ⟨fun _ => 7#8, ⟨fun _ => 0xFF#8, false, 0, 0⟩⟩ d' := by
  refine ⟨_, rfl, fun hsame => ?_⟩
  have h0 := hsame 0 (by decide)
  exact absurd h0 (by decide)

end ChipTools.Spi
