import ChipTools.ArmMachine

/-! The SoC descriptions of `soc_info.c`, with the fields that the uploads read. -/
namespace ChipTools.Fel
open Arm

/-- A BROM buffer `buf1` that is exchanged with the backup area `buf2` while the SPL runs. -/
structure SramSwapBuffers where
  buf1 : Word
  buf2 : Word
  size : Word
deriving DecidableEq, Repr

structure SocInfo where
  spl_addr : Word := 0#32
  scratch_addr : Word
  thunk_addr : Word
  thunk_size : Word
  mmu_tt_addr : Word := 0#32
  swap_buffers : List SramSwapBuffers

/-- `{ .size = 0 }`, the end of a table. -/
def endOfTable : SramSwapBuffers := ⟨0#32, 0#32, 0#32⟩

def a10_a13_a20_sram_swap_buffers : List SramSwapBuffers :=
  [⟨0x1C00#32, 0xA400#32, 0x0400#32⟩,
   ⟨0x5C00#32, 0xA800#32, 0x1400#32⟩,
   ⟨0x7C00#32, 0xBC00#32, 0x0400#32⟩,
   endOfTable]

def a31_sram_swap_buffers : List SramSwapBuffers :=
  [⟨0x1800#32, 0x20000#32, 0x800#32⟩,
   ⟨0x5C00#32, 0x20800#32, 0x8000#32-0x5C00#32⟩,
   endOfTable]

def a64_sram_swap_buffers : List SramSwapBuffers :=
  [⟨0x11C00#32, 0x1A400#32, 0x0400#32⟩,
   ⟨0x15C00#32, 0x1A800#32, 0x1400#32⟩,
   ⟨0x17C00#32, 0x1BC00#32, 0x0400#32⟩,
   endOfTable]

def ar100_abusing_sram_swap_buffers : List SramSwapBuffers :=
  [⟨0x1800#32, 0x44000#32, 0x800#32⟩,
   ⟨0x5C00#32, 0x44800#32, 0x8000#32-0x5C00#32⟩,
   endOfTable]

def a80_sram_swap_buffers : List SramSwapBuffers :=
  [⟨0x11800#32, 0x20000#32, 0x800#32⟩,
   ⟨0x15400#32, 0x20800#32, 0x18000#32-0x15400#32⟩,
   endOfTable]

def h6_sram_swap_buffers : List SramSwapBuffers :=
  [⟨0x21C00#32, 0x2A400#32, 0x0400#32⟩,
   ⟨0x25C00#32, 0x2A800#32, 0x1400#32⟩,
   ⟨0x27C00#32, 0x2BC00#32, 0x0400#32⟩,
   endOfTable]

def generic_sram_swap_buffers : List SramSwapBuffers :=
  [⟨0x1C00#32, 0x5800#32, 0x400#32⟩,
   endOfTable]

/-- The rows of `soc_info_table` by SoC id. -/
def soc_info_table : List (Word × SocInfo) :=
  [ -- A10
   (0x1623#32, { scratch_addr := 0x1000#32, thunk_addr := 0xA200#32, thunk_size := 0x200#32
                 swap_buffers := a10_a13_a20_sram_swap_buffers }),
   -- A10s, A13, R8
   (0x1625#32, { scratch_addr := 0x1000#32, thunk_addr := 0xA200#32, thunk_size := 0x200#32
                 swap_buffers := a10_a13_a20_sram_swap_buffers }),
   -- A20
   (0x1651#32, { scratch_addr := 0x1000#32, thunk_addr := 0xA200#32, thunk_size := 0x200#32
                 swap_buffers := a10_a13_a20_sram_swap_buffers }),
   -- A23
   (0x1650#32, { scratch_addr := 0x1000#32, thunk_addr := 0x46E00#32, thunk_size := 0x200#32
                 swap_buffers := ar100_abusing_sram_swap_buffers }),
   -- A31
   (0x1633#32, { scratch_addr := 0x1000#32, thunk_addr := 0x22E00#32, thunk_size := 0x200#32
                 swap_buffers := a31_sram_swap_buffers }),
   -- A33, R16
   (0x1667#32, { scratch_addr := 0x1000#32, thunk_addr := 0x46E00#32, thunk_size := 0x200#32
                 swap_buffers := ar100_abusing_sram_swap_buffers }),
   -- A64
   (0x1689#32, { spl_addr := 0x10000#32, scratch_addr := 0x11000#32
                 thunk_addr := 0x1A200#32, thunk_size := 0x200#32
                 swap_buffers := a64_sram_swap_buffers }),
   -- A80
   (0x1639#32, { spl_addr := 0x10000#32, scratch_addr := 0x11000#32
                 thunk_addr := 0x23400#32, thunk_size := 0x200#32
                 swap_buffers := a80_sram_swap_buffers }),
   -- A83T
   (0x1673#32, { scratch_addr := 0x1000#32, thunk_addr := 0x46E00#32, thunk_size := 0x200#32
                 swap_buffers := ar100_abusing_sram_swap_buffers }),
   -- H3, H2+
   (0x1680#32, { scratch_addr := 0x1000#32, mmu_tt_addr := 0x8000#32
                 thunk_addr := 0xA200#32, thunk_size := 0x200#32
                 swap_buffers := a10_a13_a20_sram_swap_buffers }),
   -- V3s
   (0x1681#32, { scratch_addr := 0x1000#32, mmu_tt_addr := 0x8000#32
                 thunk_addr := 0xA200#32, thunk_size := 0x200#32
                 swap_buffers := a10_a13_a20_sram_swap_buffers }),
   -- H5
   (0x1718#32, { spl_addr := 0x10000#32, scratch_addr := 0x11000#32
                 thunk_addr := 0x1A200#32, thunk_size := 0x200#32
                 swap_buffers := a64_sram_swap_buffers }),
   -- R40
   (0x1701#32, { scratch_addr := 0x1000#32, thunk_addr := 0xA200#32, thunk_size := 0x200#32
                 swap_buffers := a10_a13_a20_sram_swap_buffers }),
   -- H6
   (0x1728#32, { spl_addr := 0x20000#32, scratch_addr := 0x21000#32
                 thunk_addr := 0x2A200#32, thunk_size := 0x200#32
                 swap_buffers := h6_sram_swap_buffers })]

def generic_soc_info : SocInfo :=
  { scratch_addr := 0x1000#32, thunk_addr := 0x5680#32, thunk_size := 0x180#32
    swap_buffers := generic_sram_swap_buffers }

/-- `get_soc_info_from_id`: unknown SoCs get the generic record. -/
def getSocInfoFromId (soc_id : Word) : SocInfo :=
  ((soc_info_table.find? fun row => row.1 = soc_id).map Prod.snd).getD generic_soc_info

/-- A fact about every table entry and the generic record holds of every SoC. -/
theorem getSocInfoFromId_forall {P : SocInfo → Prop} (ht : ∀ row ∈ soc_info_table, P row.2)
    (hg : P generic_soc_info) (soc_id : Word) : P (getSocInfoFromId soc_id) := by
  unfold getSocInfoFromId
  cases hf : soc_info_table.find? fun row => row.1 = soc_id with
  | none => exact hg
  | some row => exact ht row (List.mem_of_find?_eq_some hf)

end ChipTools.Fel
