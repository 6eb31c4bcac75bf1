import ChipTools.Bytes

/-! The script tree of the fex tools: sections of named entries. Names and strings are byte
strings without their terminator. -/
namespace ChipTools.Fex
open Bytes

def GPIO_BANK_MAX : ℕ := 14

/-- The four data words of a GPIO. -/
structure GpioData where
  mul_sel : BitVec 32
  pull : BitVec 32
  drv_level : BitVec 32
  data : BitVec 32
deriving DecidableEq, Repr

/-- What an entry holds, by its type. There are no entries of more than one word. -/
inductive Value
  | single (value : BitVec 32)
  | string (s : List Byte)
  | gpio (port port_num : BitVec 32) (data : GpioData)
  | null
deriving DecidableEq, Repr

/-- `enum script_value_type`. -/
def Value.type : Value → ℕ
  | single _ => 1
  | string _ => 2
  | gpio _ _ _ => 4
  | null => 5

structure Entry where
  name : List Byte
  value : Value
deriving DecidableEq, Repr

structure Section where
  name : List Byte
  entries : List Entry
deriving DecidableEq, Repr

abbrev Script := List Section

/-- The C string at the start of a buffer. -/
def cstr (bs : List Byte) : List Byte := bs.takeWhile (· ≠ 0#8)

/-- `script_section_new`: the name is cut to 31 bytes; `none` where the assertion
`name && *name` fails. -/
def scriptSectionNew (name : List Byte) : Option Section :=
  if name = [] then none else some ⟨name.take 31, []⟩

/-- `script_entry_append`. -/
def scriptEntryAppend (entries : List Entry) (name : List Byte) (value : Value) : List Entry :=
  entries ++ [⟨name.take 31, value⟩]

/-- The constructors of entries. That of strings has no assertion on the name. -/
def scriptEntryNew (entries : List Entry) (name : List Byte) (value : Value) :
    Option (List Entry) :=
  match value with
  | .string _ => some (scriptEntryAppend entries name value)
  | _ => if name = [] then none else some (scriptEntryAppend entries name value)

/-- What both formats ask of a name. -/
structure NameOk (name : List Byte) : Prop where
  pos : name ≠ []
  le : name.length ≤ 31
  nul : 0#8 ∉ name

theorem NameOk.take {name : List Byte} (h : NameOk name) : name.take 31 = name :=
  List.take_of_length_le h.le

/-- A string in a zeroed field. -/
theorem cstr_pad {s : List Byte} (h : 0#8 ∉ s) (k : ℕ) : cstr (s ++ List.replicate k 0#8) = s := by
  have hpos : ∀ b ∈ s, decide (b ≠ 0#8) = true := by
    intro b hb
    have : b ≠ 0#8 := fun hb0 => h (hb0 ▸ hb)
    simpa using this
  rw [cstr, List.takeWhile_append_of_pos hpos]
  cases k <;> simp [List.replicate_succ]

theorem scriptSectionNew_of_nameOk {name : List Byte} (h : NameOk name) :
    scriptSectionNew name = some ⟨name, []⟩ := by
  rw [scriptSectionNew, if_neg h.pos, h.take]

theorem scriptEntryNew_of_nameOk {name : List Byte} (h : NameOk name) (entries : List Entry)
    (value : Value) : scriptEntryNew entries name value = some (entries ++ [⟨name, value⟩]) := by
  have happ : scriptEntryAppend entries name value = entries ++ [⟨name, value⟩] := by
    rw [scriptEntryAppend, h.take]
  cases value <;> simp only [scriptEntryNew, happ, if_neg h.pos]

/-- A section with an entry of each type, and an empty one. -/
def smallScript : Script :=
  [⟨[0x70#8, 0x69#8, 0x6e#8, 0x73#8],
      [⟨[0x6c#8, 0x65#8, 0x64#8], .gpio 2#32 3#32 ⟨1#32, 0xffffffff#32, 2#32, 0#32⟩⟩,
        ⟨[0x6d#8, 0x6f#8, 0x64#8, 0x65#8], .single 0x1f#32⟩,
        ⟨[0x6e#8, 0x61#8, 0x6d#8, 0x65#8], .string [0x74#8, 0x77#8, 0x6f#8, 0x20#8, 0x77#8, 0x6f#8, 0x72#8, 0x64#8, 0x73#8]⟩,
        ⟨[0x66#8, 0x72#8, 0x65#8, 0x65#8], .null⟩]⟩,
    ⟨[0x65#8, 0x6d#8, 0x70#8, 0x74#8, 0x79#8], []⟩]

end ChipTools.Fex
