import ChipTools.BitField
import ChipTools.CNumber

/-! `sunxi-pio`: the pins of the ports in a register file, and the commands that show and change
them. -/
namespace ChipTools.Pio
open Bytes BitField CNumber

abbrev Word := BitVec 32

def PIO_REG_SIZE : ℕ := 0x228
def PIO_PORT_SIZE : ℕ := 0x24
def PIO_NR_PORTS : ℕ := 9

/-- `int`s. The tests are of their signs. -/
structure PioStatus where
  mul_sel : Word
  pull : Word
  drv_level : Word
  data : Word
deriving DecidableEq, Repr

/-- The memory from the register file on, and the offsets of the registers that were read or
written. `shown` is what `pio_print` was called with. -/
structure Regs where
  mem : ℕ → Byte
  accesses : List ℕ
  shown : List (ℤ × ℤ × PioStatus)

section Registers

/-- The offsets are computed with 32 bits and then added to a pointer. -/
def PIO_REG_CFG (n i : Word) : ℕ := (n*0x24#32).toNat+(i <<< 2).toNat+0x00
def PIO_REG_DLEVEL (n i : Word) : ℕ := (n*0x24#32).toNat+(i <<< 2).toNat+0x14
def PIO_REG_PULL (n i : Word) : ℕ := (n*0x24#32).toNat+(i <<< 2).toNat+0x1C
def PIO_REG_DATA (n : Word) : ℕ := (n*0x24#32).toNat+0x10

def Regs.load (s : Regs) (o : ℕ) : Word × Regs :=
  (load32 s.mem o, { s with accesses := s.accesses ++ [o] })

def Regs.store (s : Regs) (o : ℕ) (v : Word) : Regs :=
  { s with mem := store32 s.mem o v, accesses := s.accesses ++ [o] }

/-- A register that is read, changed and written back. -/
def Regs.modify (s : Regs) (o : ℕ) (f : Word → Word) : Regs :=
  let (val, s) := s.load o
  s.store o (f val)

def pioGet (port port_num : Word) (s : Regs) : PioStatus × Regs :=
  let port_num_func := port_num >>> 3
  let offset_func := (port_num &&& 0x07#32) <<< 2
  let port_num_pull := port_num >>> 4
  let offset_pull := (port_num &&& 0x0f#32) <<< 1
  let (val, s) := s.load (PIO_REG_CFG port port_num_func)
  let mul_sel := val >>> offset_func &&& 0x07#32
  let (val, s) := s.load (PIO_REG_PULL port port_num_pull)
  let pull := val >>> offset_pull &&& 0x03#32
  let (val, s) := s.load (PIO_REG_DLEVEL port port_num_pull)
  let drv_level := val >>> offset_pull &&& 0x03#32
  if 1 < mul_sel.toInt then (⟨mul_sel, pull, drv_level, -1#32⟩, s)
  else
    let (val, s) := s.load (PIO_REG_DATA port)
    (⟨mul_sel, pull, drv_level, val >>> port_num &&& 0x01#32⟩, s)

def pioSet (port port_num : Word) (pio : PioStatus) (s : Regs) : Regs :=
  let port_num_func := port_num >>> 3
  let offset_func := (port_num &&& 0x07#32) <<< 2
  let port_num_pull := port_num >>> 4
  let offset_pull := (port_num &&& 0x0f#32) <<< 1
  let s := if 0 ≤ pio.mul_sel.toInt then
      s.modify (PIO_REG_CFG port port_num_func) fun val =>
        val &&& ~~~(0x07#32 <<< offset_func) ||| (pio.mul_sel &&& 0x07#32) <<< offset_func
    else s
  let s := if 0 ≤ pio.pull.toInt then
      s.modify (PIO_REG_PULL port port_num_pull) fun val =>
        val &&& ~~~(0x03#32 <<< offset_pull) ||| (pio.pull &&& 0x03#32) <<< offset_pull
    else s
  let s := if 0 ≤ pio.drv_level.toInt then
      s.modify (PIO_REG_DLEVEL port port_num_pull) fun val =>
        val &&& ~~~(0x03#32 <<< offset_pull) ||| (pio.drv_level &&& 0x03#32) <<< offset_pull
    else s
  if 0 ≤ pio.data.toInt then
    s.modify (PIO_REG_DATA port) fun val =>
      if pio.data ≠ 0#32 then val ||| 0x01#32 <<< port_num else val &&& ~~~(0x01#32 <<< port_num)
  else s

end Registers

section Commands

def pioPrint (port port_nr : ℤ) (pio : PioStatus) (s : Regs) : Regs :=
  { s with shown := s.shown ++ [(port, port_nr, pio)] }

/-- A body for every pin of every port. -/
def forPins (body : ℕ → ℕ → Regs → Regs) (s : Regs) : Regs :=
  (List.range PIO_NR_PORTS).foldl (fun s port =>
    (List.range 32).foldl (fun s i => body port i s) s) s

def print (s : Regs) : Regs :=
  forPins (fun port i s =>
    let (pio, s) := pioGet (BitVec.ofNat 32 port) (BitVec.ofNat 32 i) s
    pioPrint port i pio s) s

/-- The body of `cmd_clean`. -/
def cleanPin (port i : ℕ) (s : Regs) : Regs :=
  let (pio, s) := pioGet (BitVec.ofNat 32 port) (BitVec.ofNat 32 i) s
  if pio.mul_sel = 0#32 then
    pioSet (BitVec.ofNat 32 port) (BitVec.ofNat 32 i) { pio with data := 0#32 } s
  else s

def cmdClean (s : Regs) : Regs := forPins cleanPin s

/-- A `char` is signed. `name` is the string with its terminator and the memory behind. -/
def parsePin (name : List Byte) : ℤ × ℤ :=
  let name := if name.head? = some 0x50#8 then name.tail else name
  ((name.headD 0#8).toInt-0x41, toInt32 (strtolDec name.tail))

def strchr (s : List Byte) (c : Byte) : Option (List Byte) :=
  match s.dropWhile (· ≠ c) with
  | [] => none
  | t => some t

/-- `parse_int`: what is stored to `dst` in the end. -/
def parseInt (dst : Word) (t : List Byte) : Word :=
  let s := subject t
  let value : ℤ := if s.neg then -s.magnitude else s.magnitude
  if s.digits ≠ [] ∧ -2^63 ≤ value ∧ value ≤ 2^63-1 then BitVec.ofInt 32 value else dst

/-- A number behind a separator, where there is one. -/
def parseNext (dst : Word) : Option (List Byte) → Word
  | none => dst
  | some t => parseInt dst t.tail

def nextField (t : Option (List Byte)) (c : Byte) : Option (List Byte) :=
  t.bind fun t => strchr t.tail c

/-- The three forms of `cmd_set_pin`. -/
def setStatus (pin : List Byte) (pio : PioStatus) : PioStatus :=
  match strchr pin 0x3d#8 with
  | some t =>
    { pio with mul_sel := 1#32
               data := parseInt pio.data t.tail
               drv_level := parseNext pio.drv_level (strchr t.tail 0x2c#8) }
  | none =>
    match strchr pin 0x3f#8 with
    | some t =>
      { mul_sel := 0#32, data := 0#32, drv_level := 0#32, pull := parseInt pio.pull t.tail }
    | none =>
      let t := strchr pin 0x3c#8
      let t₁ := nextField t 0x3c#8
      let t₂ := nextField t₁ 0x3c#8
      let t₃ := nextField t₂ 0x3c#8
      { mul_sel := parseNext pio.mul_sel t
        pull := parseNext pio.pull t₁
        drv_level := parseNext pio.drv_level t₂
        data := parseNext pio.data t₃ }

variable (after : List Byte)

/-- `pio_get` never fails, so the tests of its result are left out here and below. -/
def cmdShowPin (pin : List Byte) (s : Regs) : Regs :=
  let (port, port_nr) := parsePin (pin ++ 0#8 :: after)
  let (pio, s) := pioGet (BitVec.ofInt 32 port) (BitVec.ofInt 32 port_nr) s
  pioPrint port port_nr pio s

def cmdSetPin (pin : List Byte) (s : Regs) : Regs :=
  let (port, port_nr) := parsePin (pin ++ 0#8 :: after)
  let (pio, s) := pioGet (BitVec.ofInt 32 port) (BitVec.ofInt 32 port_nr) s
  pioSet (BitVec.ofInt 32 port) (BitVec.ofInt 32 port_nr) (setStatus pin pio) s

/-- The loop of `cmd_oscillate` with `n` to go. -/
def oscillate (o : ℕ) (port_nr : Word) : ℕ → Word → Regs → Regs
  | 0, _, s => s
  | n+1, val, s =>
    let val := val ^^^ 1#32 <<< port_nr
    oscillate o port_nr n val (s.store o val)

def cmdOscillate (pin : List Byte) (s : Regs) : Regs :=
  let (port, port_nr) := parsePin (pin ++ 0#8 :: after)
  let port := BitVec.ofInt 32 port
  let port_nr := BitVec.ofInt 32 port_nr
  let (pio, s) := pioGet port port_nr s
  let s := pioSet port port_nr { pio with mul_sel := 1#32 } s
  let n := parseNext 0#32 (strchr pin 0x2a#8)
  let (val, s) := s.load (PIO_REG_DATA port)
  oscillate (PIO_REG_DATA port) port_nr n.toInt.toNat val s

/-- `do_command`, which ends the program with `usage(1)` or returns. -/
def doCommand (command : List Byte) (s : Regs) : Option Regs :=
  if command.head? = some 0x50#8 then
    if (strchr command 0x3c#8).isSome then some (cmdSetPin after command s)
    else if (strchr command 0x3d#8).isSome then some (cmdSetPin after command s)
    else if (strchr command 0x3f#8).isSome then some (cmdSetPin after command s)
    else if (strchr command 0x2a#8).isSome then some (cmdOscillate after command s)
    else some (cmdShowPin after command s)
  else if command = literal "print" then some (print s)
  else if command = literal "clean" then some (cmdClean s)
  else none

end Commands
section Fields

/-- The four fields of a pin. -/
def cfgField (port i : ℕ) : Field := ⟨PIO_PORT_SIZE*port+4*(i/8), 4*(i%8), 3, by omega⟩
def pullField (port i : ℕ) : Field := ⟨PIO_PORT_SIZE*port+0x1C+4*(i/16), 2*(i%16), 2, by omega⟩
def dlevelField (port i : ℕ) : Field := ⟨PIO_PORT_SIZE*port+0x14+4*(i/16), 2*(i%16), 2, by omega⟩
def dataField (port i : ℕ) : Field := ⟨PIO_PORT_SIZE*port+0x10, i%32, 1, by omega⟩

def pinFields (port i : ℕ) : List Field :=
  [cfgField port i, pullField port i, dlevelField port i, dataField port i]

variable {port i port' i' : ℕ} {f g : Field} {s : Regs} {pio : PioStatus}

/-- The bits of a port are its own. -/
theorem pinFields_port (hi : i < 32) (hf : f ∈ pinFields port i) :
    8*(PIO_PORT_SIZE*port) ≤ f.lo ∧ f.lo+f.width ≤ 8*(PIO_PORT_SIZE*port)+8*PIO_PORT_SIZE := by
  unfold pinFields at hf
  simp only [List.mem_cons, List.not_mem_nil, or_false] at hf
  rcases hf with rfl | rfl | rfl | rfl <;>
    simp only [Field.lo, cfgField, pullField, dlevelField, dataField, PIO_PORT_SIZE] <;> omega

/-- In one port the fields of two pins are apart. -/
theorem pinFields_pin (hi : i < 32) (hi' : i' < 32) (hne : i ≠ i') (hf : f ∈ pinFields port i)
    (hg : g ∈ pinFields port i') : f.Apart g := by
  unfold pinFields at hf hg
  simp only [List.mem_cons, List.not_mem_nil, or_false] at hf hg
  rcases hf with rfl | rfl | rfl | rfl <;> rcases hg with rfl | rfl | rfl | rfl <;>
    simp only [Field.Apart, Field.lo, cfgField, pullField, dlevelField, dataField] <;> omega

theorem pinFields_apart (hi : i < 32) (hi' : i' < 32) (hne : (port, i) ≠ (port', i'))
    (hf : f ∈ pinFields port i) (hg : g ∈ pinFields port' i') : f.Apart g := by
  obtain ⟨hlo, hhi⟩ := pinFields_port hi hf
  obtain ⟨hlo', hhi'⟩ := pinFields_port hi' hg
  rcases Nat.lt_trichotomy port port' with h | rfl | h
  · left
    unfold PIO_PORT_SIZE at *
    omega
  · exact pinFields_pin hi hi' (fun h => hne (by rw [h])) hf hg
  · right
    unfold PIO_PORT_SIZE at *
    omega

/-- The fields of one pin are apart, too. -/
theorem pin_apart (hi : i < 32) :
    (cfgField port i).Apart (pullField port i) ∧ (cfgField port i).Apart (dlevelField port i) ∧
    (cfgField port i).Apart (dataField port i) ∧ (pullField port i).Apart (dlevelField port i) ∧
    (pullField port i).Apart (dataField port i) ∧ (dlevelField port i).Apart (dataField port i) := by
  simp only [Field.Apart, Field.lo, cfgField, pullField, dlevelField, dataField]
  refine ⟨?_, ?_, ?_, ?_, ?_, ?_⟩ <;> omega

/-- The shifts of a pin number. -/
theorem pin_shifts : ∀ i < 32,
    (BitVec.ofNat 32 i >>> 3 <<< 2).toNat = 4*(i/8) ∧
    (BitVec.ofNat 32 i >>> 4 <<< 2).toNat = 4*(i/16) ∧
    ((BitVec.ofNat 32 i &&& 0x07#32) <<< 2).toNat = 4*(i%8) ∧
    ((BitVec.ofNat 32 i &&& 0x0f#32) <<< 1).toNat = 2*(i%16) ∧
    (BitVec.ofNat 32 i).toNat = i%32 := by
  decide

theorem port_offset : ∀ port < 9, (BitVec.ofNat 32 port*0x24#32).toNat = PIO_PORT_SIZE*port := by
  decide

/-- Where the registers of a pin are. -/
theorem pin_registers (hp : port < PIO_NR_PORTS) (hi : i < 32) :
    PIO_REG_CFG (BitVec.ofNat 32 port) (BitVec.ofNat 32 i >>> 3) = (cfgField port i).addr ∧
    PIO_REG_PULL (BitVec.ofNat 32 port) (BitVec.ofNat 32 i >>> 4) = (pullField port i).addr ∧
    PIO_REG_DLEVEL (BitVec.ofNat 32 port) (BitVec.ofNat 32 i >>> 4) = (dlevelField port i).addr ∧
    PIO_REG_DATA (BitVec.ofNat 32 port) = (dataField port i).addr := by
  obtain ⟨h3, h4, -, -, -⟩ := pin_shifts i hi
  have hport := port_offset port hp
  unfold PIO_REG_CFG PIO_REG_PULL PIO_REG_DLEVEL PIO_REG_DATA
  rw [hport, h3, h4]
  refine ⟨rfl, ?_, ?_, rfl⟩
  · exact Nat.add_right_comm _ _ _
  · exact Nat.add_right_comm _ _ _

/-- What `pio_get` finds, by fields. -/
def status (port i : ℕ) (m : ℕ → Byte) : PioStatus where
  mul_sel := (cfgField port i).get m
  pull := (pullField port i).get m
  drv_level := (dlevelField port i).get m
  data := if 1 < ((cfgField port i).get m).toInt then -1#32 else (dataField port i).get m

theorem pioGet_status (hp : port < PIO_NR_PORTS) (hi : i < 32) (s : Regs) :
    (pioGet (BitVec.ofNat 32 port) (BitVec.ofNat 32 i) s).1 = status port i s.mem := by
  obtain ⟨hcfg, hpull, hdlevel, hdata⟩ := pin_registers hp hi
  obtain ⟨-, -, h7, hf, h1⟩ := pin_shifts i hi
  unfold pioGet Regs.load status Field.get getField
  simp only [BitVec.ushiftRight_eq', hcfg, hpull, hdlevel, hdata, h7, hf, h1]
  split_ifs with h h' h'
  · rfl
  · exact absurd h h'
  · exact absurd h' h
  · rfl

theorem pioGet_mem (p q : Word) (s : Regs) : (pioGet p q s).2.mem = s.mem := by
  unfold pioGet
  dsimp only
  split <;> rfl

/-- A field that is written where the value is not negative. -/
def putIf (c : Prop) [Decidable c] (f : Field) (x : Word) (m : ℕ → Byte) : ℕ → Byte :=
  if c then f.put x m else m

/-- The value of a data bit. -/
def dataBit (d : Word) : Word := if d ≠ 0#32 then 1#32 else 0#32

/-- What `pio_set` does, by fields. -/
def setPin (port i : ℕ) (pio : PioStatus) (m : ℕ → Byte) : ℕ → Byte :=
  putIf (0 ≤ pio.data.toInt) (dataField port i) (dataBit pio.data)
    (putIf (0 ≤ pio.drv_level.toInt) (dlevelField port i) pio.drv_level
      (putIf (0 ≤ pio.pull.toInt) (pullField port i) pio.pull
        (putIf (0 ≤ pio.mul_sel.toInt) (cfgField port i) pio.mul_sel m)))

theorem setField_bit (v d : Word) (n : ℕ) :
    (if d ≠ 0#32 then v ||| 1#32 <<< n else v &&& ~~~(1#32 <<< n)) =
      setField v n 1 (dataBit d) := by
  unfold setField dataBit
  split_ifs
  · apply BitVec.eq_of_getLsbD_eq
    intro j hj
    change _ = ((v &&& ~~~(1#32 <<< n)) ||| 1#32 <<< n).getLsbD j
    simp only [BitVec.getLsbD_or, BitVec.getLsbD_and, BitVec.getLsbD_not, hj, decide_true,
      Bool.true_and]
    cases (1#32 <<< n).getLsbD j <;> simp
  · change _ = (v &&& ~~~(1#32 <<< n)) ||| 0#32 <<< n
    rw [BitVec.zero_shiftLeft, BitVec.or_zero]

theorem pioSet_mem (hp : port < PIO_NR_PORTS) (hi : i < 32) (pio : PioStatus) (s : Regs) :
    (pioSet (BitVec.ofNat 32 port) (BitVec.ofNat 32 i) pio s).mem = setPin port i pio s.mem := by
  obtain ⟨hcfg, hpull, hdlevel, hdata⟩ := pin_registers hp hi
  obtain ⟨-, -, h7, hf, h1⟩ := pin_shifts i hi
  have hmodify (s : Regs) (f : Field) (x : Word) (c : Prop) [Decidable c] :
      (if c then s.modify f.addr fun val => setField val f.off f.width x else s).mem =
        putIf c f x s.mem := by
    unfold putIf
    split_ifs <;> rfl
  unfold pioSet
  simp only [BitVec.shiftLeft_eq', hcfg, hpull, hdlevel, hdata, h7, hf, h1, setField_bit]
  unfold setPin
  rw [← hmodify s, ← hmodify, ← hmodify, ← hmodify]
  rfl

end Fields
section Algebra

/-- The fields are in range. -/
structure PioStatus.InRange (pio : PioStatus) : Prop where
  mul_sel : pio.mul_sel < 8#32
  pull : pio.pull < 4#32
  drv_level : pio.drv_level < 4#32
  data : pio.data < 2#32

variable {port i port' i' : ℕ} {g : Field} {m : ℕ → Byte} {pio pio' : PioStatus} {x : Word}

theorem toInt_nonneg {n : ℕ} (h : x.toNat < 2^n) (hn : n ≤ 31) : 0 ≤ x.toInt := by
  have hle : 2^n ≤ 2^31 := Nat.pow_le_pow_right (by decide) hn
  rw [BitVec.toInt_eq_toNat_of_lt (by omega)]
  exact Int.natCast_nonneg _

theorem get_lt (f : Field) (m : ℕ → Byte) : (f.get m).toNat < 2^f.width := by
  have hfits := f.fits
  have hpow : 2^f.width ≤ 2^32 := Nat.pow_le_pow_right (by decide) (by omega)
  have hpos : 0 < 2^f.width := Nat.two_pow_pos _
  unfold Field.get getField ones
  rw [BitVec.toNat_and, BitVec.toNat_ofNat, Nat.mod_eq_of_lt (by omega)]
  exact Nat.and_lt_two_pow _ (by omega)

theorem get_nonneg (f : Field) (m : ℕ → Byte) (h : f.width ≤ 31) : 0 ≤ (f.get m).toInt :=
  toInt_nonneg (get_lt f m) h

theorem get_putIf_apart {c : Prop} [Decidable c] {f : Field} (h : g.Apart f) :
    g.get (putIf c f x m) = g.get m := by
  unfold putIf
  split_ifs
  · exact Field.get_put_apart h
  · rfl

theorem putIf_put {c : Prop} [Decidable c] {f : Field} {y : Word} (h : f.Apart g) :
    putIf c f x (g.put y m) = g.put y (putIf c f x m) := by
  unfold putIf
  split_ifs
  · exact Field.put_comm h
  · rfl

/-- A field that is apart from those of a pin is left alone. -/
theorem get_setPin (h : ∀ f ∈ pinFields port i, g.Apart f) : g.get (setPin port i pio m) = g.get m := by
  simp only [pinFields, List.forall_mem_cons] at h
  obtain ⟨hcfg, hpull, hdlevel, hdata, -⟩ := h
  unfold setPin
  rw [get_putIf_apart hdata, get_putIf_apart hdlevel, get_putIf_apart hpull, get_putIf_apart hcfg]

theorem setPin_put (h : ∀ f ∈ pinFields port i, f.Apart g) :
    setPin port i pio (g.put x m) = g.put x (setPin port i pio m) := by
  simp only [pinFields, List.forall_mem_cons] at h
  obtain ⟨hcfg, hpull, hdlevel, hdata, -⟩ := h
  unfold setPin
  rw [putIf_put hcfg, putIf_put hpull, putIf_put hdlevel, putIf_put hdata]

theorem setPin_putIf {c : Prop} [Decidable c] (h : ∀ f ∈ pinFields port i, f.Apart g) :
    setPin port i pio (putIf c g x m) = putIf c g x (setPin port i pio m) := by
  unfold putIf
  split_ifs
  · exact setPin_put h
  · rfl

theorem setPin_comm (hi : i < 32) (hi' : i' < 32) (hne : (port, i) ≠ (port', i')) :
    setPin port i pio (setPin port' i' pio' m) = setPin port' i' pio' (setPin port i pio m) := by
  have h : ∀ g ∈ pinFields port' i', ∀ f ∈ pinFields port i, f.Apart g := by
    intro g hg f hf
    exact pinFields_apart hi hi' hne hf hg
  simp only [pinFields.eq_def port', List.forall_mem_cons] at h
  obtain ⟨hcfg, hpull, hdlevel, hdata, -⟩ := h
  -- the writes of the second pin are taken out one by one
  conv_lhs => arg 4; unfold setPin
  rw [setPin_putIf hdata, setPin_putIf hdlevel, setPin_putIf hpull, setPin_putIf hcfg]
  rfl

theorem PioStatus.InRange.nonneg (h : pio.InRange) : 0 ≤ pio.mul_sel.toInt ∧
    0 ≤ pio.pull.toInt ∧ 0 ≤ pio.drv_level.toInt ∧ 0 ≤ pio.data.toInt :=
  ⟨toInt_nonneg (n := 3) (BitVec.lt_def.mp h.mul_sel) (by decide),
    toInt_nonneg (n := 2) (BitVec.lt_def.mp h.pull) (by decide),
    toInt_nonneg (n := 2) (BitVec.lt_def.mp h.drv_level) (by decide),
    toInt_nonneg (n := 1) (BitVec.lt_def.mp h.data) (by decide)⟩

theorem setPin_inRange (h : pio.InRange) : setPin port i pio m =
    (dataField port i).put (dataBit pio.data) ((dlevelField port i).put pio.drv_level
      ((pullField port i).put pio.pull ((cfgField port i).put pio.mul_sel m))) := by
  obtain ⟨hmul, hpull, hdrv, hdata⟩ := h.nonneg
  unfold setPin putIf
  rw [if_pos hmul, if_pos hpull, if_pos hdrv, if_pos hdata]

theorem dataBit_of_lt : ∀ x < 2#32, dataBit x = x := by
  intro x hx
  unfold dataBit
  split_ifs with h
  · apply BitVec.eq_of_toNat_eq
    rw [BitVec.lt_def] at hx
    have hne : x.toNat ≠ 0 := fun h0 => h (BitVec.eq_of_toNat_eq h0)
    change 1 = x.toNat
    change x.toNat < 2 at hx
    omega
  · rw [not_not.mp h]

/-- What is set is got. -/
theorem status_setPin (hi : i < 32) (h : pio.InRange) : status port i (setPin port i pio m) =
    { pio with data := if 1 < pio.mul_sel.toInt then -1#32 else pio.data } := by
  obtain ⟨hcp, hcl, hcd, hpl, hpd, hld⟩ := @pin_apart port i hi
  have hcfg : (cfgField port i).get (setPin port i pio m) = pio.mul_sel := by
    rw [setPin_inRange h, Field.get_put_apart hcd, Field.get_put_apart hcl,
      Field.get_put_apart hcp, Field.get_put (BitVec.lt_def.mp h.mul_sel)]
  have hpull : (pullField port i).get (setPin port i pio m) = pio.pull := by
    rw [setPin_inRange h, Field.get_put_apart hpd, Field.get_put_apart hpl,
      Field.get_put (BitVec.lt_def.mp h.pull)]
  have hdlevel : (dlevelField port i).get (setPin port i pio m) = pio.drv_level := by
    rw [setPin_inRange h, Field.get_put_apart hld, Field.get_put (BitVec.lt_def.mp h.drv_level)]
  have hdata : (dataField port i).get (setPin port i pio m) = pio.data := by
    rw [setPin_inRange h, dataBit_of_lt _ h.data, Field.get_put (BitVec.lt_def.mp h.data)]
  unfold status
  rw [hcfg, hpull, hdlevel, hdata]

theorem status_setPin_ne (hi : i < 32) (hi' : i' < 32) (hne : (port', i') ≠ (port, i)) :
    status port' i' (setPin port i pio m) = status port' i' m := by
  have hget {g : Field} (hg : g ∈ pinFields port' i') :
      g.get (setPin port i pio m) = g.get m := by
    apply get_setPin
    intro f hf
    exact pinFields_apart hi' hi hne hg hf
  unfold status
  rw [hget (by simp [pinFields]), hget (by simp [pinFields]), hget (by simp [pinFields]),
    hget (by simp [pinFields])]

end Algebra
section Clean

variable {port i : ℕ} {m : ℕ → Byte} {s : Regs}

/-- The data bit of an input pin. -/
def InputBit (m : ℕ → Byte) (n : ℕ) : Prop :=
  ∃ port < PIO_NR_PORTS, ∃ i < 32, n = (dataField port i).lo ∧ (cfgField port i).get m = 0#32

theorem cleanPin_mem (hp : port < PIO_NR_PORTS) (hi : i < 32) :
    (cleanPin port i s).mem = if (cfgField port i).get s.mem = 0#32 then
      (dataField port i).put 0#32 s.mem else s.mem := by
  have hget := pioGet_status hp hi s
  have hmem := pioGet_mem (BitVec.ofNat 32 port) (BitVec.ofNat 32 i) s
  unfold cleanPin
  generalize pioGet (BitVec.ofNat 32 port) (BitVec.ofNat 32 i) s = r at hget hmem ⊢
  obtain ⟨pio, s'⟩ := r
  dsimp only at hget hmem ⊢
  subst hget
  rw [apply_ite Regs.mem, pioSet_mem hp hi, hmem]
  by_cases h : (cfgField port i).get s.mem = 0#32
  · rw [if_pos (show (status port i s.mem).mul_sel = 0#32 from h), if_pos h]
    have hcfg := get_nonneg (cfgField port i) s.mem (by decide : 3 ≤ 31)
    have hpull := get_nonneg (pullField port i) s.mem (by decide : 2 ≤ 31)
    have hdlevel := get_nonneg (dlevelField port i) s.mem (by decide : 2 ≤ 31)
    -- the other three fields are written with what they hold
    unfold setPin putIf status
    dsimp only
    rw [if_pos hcfg, if_pos hpull, if_pos hdlevel, if_pos (by decide), Field.put_get rfl,
      Field.put_get rfl, Field.put_get rfl]
    rfl
  · rw [if_neg (show ¬(status port i s.mem).mul_sel = 0#32 from h), if_neg h]

/-- A loop over the pins of the first ports, and of the first pins of the next port. -/
theorem forPins_inv {body : ℕ → ℕ → Regs → Regs} (I : ℕ → Regs → Prop)
    (hstep : ∀ port < PIO_NR_PORTS, ∀ i < 32, ∀ s, I (32*port+i) s →
      I (32*port+(i+1)) (body port i s)) (h0 : I 0 s) :
    I (32*PIO_NR_PORTS) (forPins body s) := by
  unfold forPins
  have hports : ∀ n ≤ PIO_NR_PORTS, I (32*n) ((List.range n).foldl (fun s port =>
      (List.range 32).foldl (fun s i => body port i s) s) s) := by
    intro n
    induction n with
    | zero => exact fun _ => h0
    | succ n ih =>
      intro hn
      rw [@List.range_succ n, List.foldl_append]
      have hpins : ∀ k ≤ 32, ∀ s, I (32*n) s →
          I (32*n+k) ((List.range k).foldl (fun s i => body n i s) s) := by
        intro k
        induction k with
        | zero => exact fun _ _ h => h
        | succ k ihk =>
          intro hk s hs
          rw [List.range_succ, List.foldl_append]
          exact hstep n hn k hk _ (ihk (by omega) s hs)
      exact hpins 32 le_rfl _ (ih (by omega))
  exact hports PIO_NR_PORTS le_rfl

/-- The data bits of the input pins among the first `k` pins. -/
def InputBitBelow (m : ℕ → Byte) (k n : ℕ) : Prop :=
  ∃ port i, i < 32 ∧ 32*port+i < k ∧ n = (dataField port i).lo ∧ (cfgField port i).get m = 0#32

theorem inputBitBelow_zero (m : ℕ → Byte) (n : ℕ) : ¬InputBitBelow m 0 n := by
  rintro ⟨port, i, -, hlt, -⟩
  exact Nat.not_lt_zero _ hlt

theorem inputBitBelow_succ (hi : i < 32) (m : ℕ → Byte) (n : ℕ) :
    InputBitBelow m (32*port+(i+1)) n ↔ InputBitBelow m (32*port+i) n ∨
      (n = (dataField port i).lo ∧ (cfgField port i).get m = 0#32) := by
  constructor
  · rintro ⟨port', i', hi', hlt, hn, h0⟩
    by_cases h : 32*port'+i' < 32*port+i
    · exact Or.inl ⟨port', i', hi', h, hn, h0⟩
    · obtain rfl : port' = port := by omega
      obtain rfl : i' = i := by omega
      exact Or.inr ⟨hn, h0⟩
  · rintro (⟨port', i', hi', hlt, hn, h0⟩ | ⟨hn, h0⟩)
    · exact ⟨port', i', hi', by omega, hn, h0⟩
    · exact ⟨port, i, hi, by omega, hn, h0⟩

theorem inputBitBelow_all (m : ℕ → Byte) (n : ℕ) :
    InputBitBelow m (32*PIO_NR_PORTS) n ↔ InputBit m n := by
  constructor
  · rintro ⟨port, i, hi, hlt, hn, h0⟩
    exact ⟨port, by omega, i, hi, hn, h0⟩
  · rintro ⟨port, hp, i, hi, hn, h0⟩
    exact ⟨port, i, hi, by omega, hn, h0⟩

/-- No data bit is a bit of a function field. -/
theorem cfg_not_data (hi : i < 32) {k n : ℕ} (hlo : (cfgField port i).lo ≤ n)
    (hhi : n < (cfgField port i).lo+3) : ¬InputBitBelow m k n := by
  rintro ⟨port', i', hi', -, rfl, -⟩
  have hapart : (cfgField port i).Apart (dataField port' i') := by
    by_cases heq : (port, i) = (port', i')
    · cases heq
      exact (pin_apart hi).2.2.1
    · exact pinFields_apart hi hi' heq (by simp [pinFields]) (by simp [pinFields])
  rcases hapart with h | h
  · exact Nat.not_lt_of_le h hhi
  · exact Nat.not_lt_of_le hlo h

theorem cleanPin_step (hp : port < PIO_NR_PORTS) (hi : i < 32) {t : Regs}
    (ht : ∀ n, bits t.mem n = true ↔ bits m n = true ∧ ¬InputBitBelow m (32*port+i) n) (n : ℕ) :
    bits (cleanPin port i t).mem n = true ↔
      bits m n = true ∧ ¬InputBitBelow m (32*port+(i+1)) n := by
  have hcfg : (cfgField port i).get t.mem = (cfgField port i).get m := by
    apply Field.get_congr
    intro n hlo hhi
    apply Bool.eq_iff_iff.mpr
    rw [ht]
    exact and_iff_left (cfg_not_data hi hlo hhi)
  rw [cleanPin_mem hp hi, hcfg, inputBitBelow_succ hi, not_or, ← and_assoc, ← ht]
  by_cases h0 : (cfgField port i).get m = 0#32
  · rw [if_pos h0, Field.bits_put]
    by_cases hn : n = (dataField port i).lo
    · rw [if_pos (by rw [hn]; exact ⟨le_rfl, Nat.lt_succ_self _⟩)]
      simp [hn, h0]
    · rw [if_neg (fun h => hn (Nat.le_antisymm (Nat.le_of_lt_succ h.2) h.1))]
      simp [hn]
  · rw [if_neg h0]
    simp [h0]

/-- The data bits of the input pins are cleared, and nothing else is changed. -/
theorem cmdClean_bits (s : Regs) (n : ℕ) :
    bits (cmdClean s).mem n = true ↔ bits s.mem n = true ∧ ¬InputBit s.mem n := by
  -- after `k` pins the bits of these pins are done
  have hinv := @forPins_inv s cleanPin (fun k t => ∀ n, bits t.mem n = true ↔
    bits s.mem n = true ∧ ¬InputBitBelow s.mem k n)
    (fun port hp i hi t ht => cleanPin_step hp hi ht)
    (fun n => (and_iff_left (inputBitBelow_zero s.mem n)).symm)
  rw [← inputBitBelow_all]
  exact hinv n

end Clean
section Accesses

variable {P Q : ℕ → Prop} {s s' s'' : Regs} {o port i : ℕ} {p q : Word} {pio : PioStatus}

/-- The accesses from one state to another, all of them to registers with `P`. -/
def Touches (P : ℕ → Prop) (s s' : Regs) : Prop :=
  ∃ l, s'.accesses = s.accesses ++ l ∧ ∀ o ∈ l, P o

theorem Touches.refl (s : Regs) : Touches P s s := ⟨[], (List.append_nil _).symm, by simp⟩

theorem Touches.trans (h : Touches P s s') (h' : Touches P s' s'') : Touches P s s'' := by
  obtain ⟨l, hl, hP⟩ := h
  obtain ⟨l', hl', hP'⟩ := h'
  refine ⟨l ++ l', by rw [hl', hl, List.append_assoc], ?_⟩
  intro o ho
  rcases List.mem_append.mp ho with ho | ho
  · exact hP o ho
  · exact hP' o ho

theorem Touches.mono (h : Touches P s s') (hPQ : ∀ o, P o → Q o) : Touches Q s s' := by
  obtain ⟨l, hl, hP⟩ := h
  exact ⟨l, hl, fun o ho => hPQ o (hP o ho)⟩

theorem touches_load (h : P o) : Touches P s (s.load o).2 := ⟨[o], rfl, by simpa using h⟩

theorem touches_store {v : Word} (h : P o) : Touches P s (s.store o v) := ⟨[o], rfl, by simpa using h⟩

theorem touches_modify {f : Word → Word} (h : P o) : Touches P s (s.modify o f) :=
  (touches_load h).trans (touches_store h)

theorem touches_modifyIf {c : Prop} [Decidable c] {f : Word → Word} (h : P o) :
    Touches P s (if c then s.modify o f else s) := by
  split_ifs
  · exact touches_modify h
  · exact Touches.refl s

theorem touches_print {a b : ℤ} : Touches P s (pioPrint a b pio s) := Touches.refl s

/-- The registers that a port and a pin lead to. -/
structure Reaches (P : ℕ → Prop) (p q : Word) : Prop where
  cfg : P (PIO_REG_CFG p (q >>> 3))
  pull : P (PIO_REG_PULL p (q >>> 4))
  dlevel : P (PIO_REG_DLEVEL p (q >>> 4))
  data : P (PIO_REG_DATA p)

theorem touches_pioGet (h : Reaches P p q) : Touches P s (pioGet p q s).2 := by
  have hloads : Touches P s (((s.load (PIO_REG_CFG p (q >>> 3))).2.load
      (PIO_REG_PULL p (q >>> 4))).2.load (PIO_REG_DLEVEL p (q >>> 4))).2 :=
    ((touches_load h.cfg).trans (touches_load h.pull)).trans (touches_load h.dlevel)
  unfold pioGet
  dsimp only
  split_ifs
  · exact hloads
  · exact hloads.trans (touches_load h.data)

theorem touches_pioSet (h : Reaches P p q) : Touches P s (pioSet p q pio s) :=
  (((touches_modifyIf h.cfg).trans (touches_modifyIf h.pull)).trans
    (touches_modifyIf h.dlevel)).trans (touches_modifyIf h.data)

theorem touches_oscillate {v : Word} (h : P o) (n : ℕ) : Touches P s (oscillate o q n v s) := by
  induction n generalizing v s with
  | zero => exact Touches.refl s
  | succ n ih => exact (touches_store h).trans ih

theorem touches_forPins {body : ℕ → ℕ → Regs → Regs}
    (h : ∀ port < PIO_NR_PORTS, ∀ i < 32, ∀ s, Touches P s (body port i s)) (s : Regs) :
    Touches P s (forPins body s) :=
  forPins_inv (fun _ t => Touches P s t) (fun port hp i hi t ht => ht.trans (h port hp i hi t))
    (Touches.refl s)

/-- A register of a port. -/
def InPort (port o : ℕ) : Prop := PIO_PORT_SIZE*port ≤ o ∧ o+4 ≤ PIO_PORT_SIZE*(port+1)

def InImage (o : ℕ) : Prop := o+4 ≤ PIO_REG_SIZE

theorem InPort.inImage (hp : port < PIO_NR_PORTS) (h : InPort port o) : InImage o := by
  unfold InPort at h
  unfold InImage PIO_REG_SIZE
  unfold PIO_PORT_SIZE at h
  unfold PIO_NR_PORTS at hp
  omega

theorem pin_reaches (hp : port < PIO_NR_PORTS) (hi : i < 32) :
    Reaches (InPort port) (BitVec.ofNat 32 port) (BitVec.ofNat 32 i) := by
  obtain ⟨hcfg, hpull, hdlevel, hdata⟩ := pin_registers hp hi
  have hport {o : ℕ} (h : o+4 ≤ PIO_PORT_SIZE) : InPort port (PIO_PORT_SIZE*port+o) :=
    ⟨Nat.le_add_right _ _, by rw [Nat.mul_succ]; omega⟩
  constructor
  · rw [hcfg]
    exact hport (by unfold PIO_PORT_SIZE; omega)
  · rw [hpull]
    change InPort port (PIO_PORT_SIZE*port+0x1C+_)
    rw [Nat.add_assoc]
    exact hport (by unfold PIO_PORT_SIZE; omega)
  · rw [hdlevel]
    change InPort port (PIO_PORT_SIZE*port+0x14+_)
    rw [Nat.add_assoc]
    exact hport (by unfold PIO_PORT_SIZE; omega)
  · rw [hdata]
    exact hport (by unfold PIO_PORT_SIZE; omega)

theorem touches_cleanPin (hp : port < PIO_NR_PORTS) (hi : i < 32) (s : Regs) :
    Touches (InPort port) s (cleanPin port i s) := by
  have hr := pin_reaches hp hi
  unfold cleanPin
  dsimp only
  split_ifs
  · exact (touches_pioGet hr).trans (touches_pioSet hr)
  · exact touches_pioGet hr

theorem touches_cmdClean (s : Regs) : Touches InImage s (cmdClean s) :=
  touches_forPins (fun _ hp _ hi s => (touches_cleanPin hp hi s).mono fun _ => InPort.inImage hp) s

theorem touches_printAll (s : Regs) : Touches InImage s (print s) :=
  touches_forPins (fun _ hp _ hi _ => ((touches_pioGet (pin_reaches hp hi)).trans touches_print).mono
    fun _ => InPort.inImage hp) s

/-- The register file as an algebra of pins. -/
theorem pio_registers {port i : ℕ} (hp : port < PIO_NR_PORTS) (hi : i < 32) (s : Regs)
    {pio : PioStatus} (hpio : pio.InRange) :
    (pioGet (BitVec.ofNat 32 port) (BitVec.ofNat 32 i)
      (pioSet (BitVec.ofNat 32 port) (BitVec.ofNat 32 i) pio s)).1 =
        { pio with data := if 1 < pio.mul_sel.toInt then -1#32 else pio.data } ∧
    (∀ port' < PIO_NR_PORTS, ∀ i' < 32, (port', i') ≠ (port, i) →
      (pioGet (BitVec.ofNat 32 port') (BitVec.ofNat 32 i')
        (pioSet (BitVec.ofNat 32 port) (BitVec.ofNat 32 i) pio s)).1 =
          (pioGet (BitVec.ofNat 32 port') (BitVec.ofNat 32 i') s).1 ∧
      ∀ pio', pio'.InRange →
        (pioSet (BitVec.ofNat 32 port') (BitVec.ofNat 32 i') pio'
          (pioSet (BitVec.ofNat 32 port) (BitVec.ofNat 32 i) pio s)).mem =
        (pioSet (BitVec.ofNat 32 port) (BitVec.ofNat 32 i) pio
          (pioSet (BitVec.ofNat 32 port') (BitVec.ofNat 32 i') pio' s)).mem) ∧
    Touches InImage s (pioGet (BitVec.ofNat 32 port) (BitVec.ofNat 32 i) s).2 ∧
    Touches InImage s (pioSet (BitVec.ofNat 32 port) (BitVec.ofNat 32 i) pio s) ∧
    (∀ n, bits (cmdClean s).mem n = true ↔ bits s.mem n = true ∧
      ¬∃ port < PIO_NR_PORTS, ∃ i < 32, n = 8*(PIO_PORT_SIZE*port+0x10)+i ∧
        (pioGet (BitVec.ofNat 32 port) (BitVec.ofNat 32 i) s).1.mul_sel = 0#32) ∧
    Touches InImage s (cmdClean s) := by
  have hr := pin_reaches hp hi
  refine ⟨?_, ?_, ?_, ?_, ?_, touches_cmdClean s⟩
  · rw [pioGet_status hp hi, pioSet_mem hp hi, status_setPin hi hpio]
  · intro port' hp' i' hi' hne
    refine ⟨?_, fun pio' _ => ?_⟩
    · rw [pioGet_status hp' hi', pioGet_status hp' hi', pioSet_mem hp hi,
        status_setPin_ne hi hi' hne]
    · rw [pioSet_mem hp' hi', pioSet_mem hp hi, pioSet_mem hp hi, pioSet_mem hp' hi',
        setPin_comm hi' hi hne]
  · exact (touches_pioGet hr).mono fun _ => InPort.inImage hp
  · exact (touches_pioSet hr).mono fun _ => InPort.inImage hp
  · intro n
    rw [cmdClean_bits]
    apply and_congr_right'
    apply not_congr
    apply exists_congr
    intro port
    apply and_congr_right
    intro hp
    apply exists_congr
    intro i
    apply and_congr_right
    intro hi
    rw [pioGet_status hp hi]
    change n = 8*(PIO_PORT_SIZE*port+0x10)+i%32 ∧ _ ↔ _
    rw [Nat.mod_eq_of_lt hi]
    rfl

theorem pio_registers_pc3 :
    (pioGet 2#32 3#32 (pioSet 2#32 3#32 ⟨1#32, 2#32, 3#32, 1#32⟩ ⟨fun _ => 0xa5#8, [], []⟩)).1 =
      ⟨1#32, 2#32, 3#32, 1#32⟩ :=
  (pio_registers (by decide : 2 < PIO_NR_PORTS) (by decide : 3 < 32) ⟨fun _ => 0xa5#8, [], []⟩
    (⟨by decide, by decide, by decide, by decide⟩ :
      PioStatus.InRange ⟨1#32, 2#32, 3#32, 1#32⟩)).1

end Accesses
section DoCommand

variable {after command pin : List Byte} {s s' : Regs} {port i : ℕ}

/-- The pin that a command names: the letter of its port, and its number as it is written. Where
there are no digits the number is 0. -/
def pinNamed (name : List Byte) : ℤ × ℤ :=
  let name := if name.head? = some 0x50#8 then name.tail else name
  let s := subjectDec name.tail
  ((name.headD 0#8).toInt-0x41, if s.neg then -s.magnitude else s.magnitude)

/-- The ports are A to I and the pins 0 to 31. -/
def PinExists (p : ℤ × ℤ) : Prop := 0 ≤ p.1 ∧ p.1 < PIO_NR_PORTS ∧ 0 ≤ p.2 ∧ p.2 < 32

instance (p : ℤ × ℤ) : Decidable (PinExists p) :=
  inferInstanceAs (Decidable (_ ∧ _ ∧ _ ∧ _))

/-- The commands that name a pin. -/
def NamesPin (command : List Byte) : Prop := command.head? = some 0x50#8

/-- A number in range is parsed as it is written. -/
theorem parsePin_of_exists (name : List Byte) (h : PinExists (pinNamed name)) :
    parsePin name = pinNamed name := by
  obtain ⟨-, -, h0, h32⟩ := h
  unfold pinNamed at *
  unfold parsePin strtolDec
  dsimp only at *
  generalize subjectDec _ = t at *
  have hvalue : toInt32 (if t.neg = true then max (-2^63) (-(t.magnitude : ℤ))
      else min (2^63-1) (t.magnitude : ℤ)) =
      if t.neg = true then -(t.magnitude : ℤ) else t.magnitude := by
    unfold toInt32
    split_ifs at *
    · rw [max_eq_right (by omega)]
      apply Int.bmod_eq_of_le <;> omega
    · rw [min_eq_right (by omega)]
      apply Int.bmod_eq_of_le <;> omega
  rw [hvalue]

theorem pin_nat (h : PinExists (pinNamed (pin ++ 0#8 :: after))) :
    ∃ port < PIO_NR_PORTS, ∃ i : ℕ, i < 32 ∧ pinNamed (pin ++ 0#8 :: after) = ((port : ℤ), (i : ℤ)) ∧
      parsePin (pin ++ 0#8 :: after) = ((port : ℤ), (i : ℤ)) := by
  have hparse := parsePin_of_exists _ h
  obtain ⟨h0, h9, hi0, h32⟩ := h
  obtain ⟨port, hport⟩ := Int.eq_ofNat_of_zero_le h0
  obtain ⟨i, hi⟩ := Int.eq_ofNat_of_zero_le hi0
  rw [hport] at h9
  rw [hi] at h32
  have hnamed : pinNamed (pin ++ 0#8 :: after) = ((port : ℤ), (i : ℤ)) := Prod.ext hport hi
  exact ⟨port, Int.ofNat_lt.mp h9, i, Int.ofNat_lt.mp h32, hnamed, hparse.trans hnamed⟩

theorem touches_cmdSetPin (hp : port < PIO_NR_PORTS) (hi : i < 32)
    (hparse : parsePin (pin ++ 0#8 :: after) = ((port : ℤ), (i : ℤ))) :
    Touches (InPort port) s (cmdSetPin after pin s) := by
  have hr := pin_reaches hp hi
  unfold cmdSetPin
  rw [hparse]
  dsimp only
  rw [BitVec.ofInt_natCast, BitVec.ofInt_natCast]
  exact (touches_pioGet hr).trans (touches_pioSet hr)

theorem touches_cmdOscillate (hp : port < PIO_NR_PORTS) (hi : i < 32)
    (hparse : parsePin (pin ++ 0#8 :: after) = ((port : ℤ), (i : ℤ))) :
    Touches (InPort port) s (cmdOscillate after pin s) := by
  have hr := pin_reaches hp hi
  unfold cmdOscillate
  rw [hparse]
  dsimp only
  rw [BitVec.ofInt_natCast, BitVec.ofInt_natCast]
  exact (((touches_pioGet hr).trans (touches_pioSet hr)).trans (touches_load hr.data)).trans
    (touches_oscillate hr.data _)

theorem touches_cmdShowPin (hp : port < PIO_NR_PORTS) (hi : i < 32)
    (hparse : parsePin (pin ++ 0#8 :: after) = ((port : ℤ), (i : ℤ))) :
    Touches (InPort port) s (cmdShowPin after pin s) := by
  unfold cmdShowPin
  rw [hparse]
  dsimp only
  rw [BitVec.ofInt_natCast, BitVec.ofInt_natCast]
  exact (touches_pioGet (pin_reaches hp hi)).trans touches_print

/-- A command that names a pin is never refused. -/
theorem doCommand_names (h : NamesPin command) : ∃ s', doCommand after command s = some s' ∧
    (∀ port < PIO_NR_PORTS, ∀ i : ℕ, i < 32 →
      parsePin (command ++ 0#8 :: after) = ((port : ℤ), (i : ℤ)) → Touches (InPort port) s s') := by
  unfold NamesPin at h
  unfold doCommand
  rw [if_pos h]
  split_ifs
  · exact ⟨_, rfl, fun _ hp _ hi hparse => touches_cmdSetPin hp hi hparse⟩
  · exact ⟨_, rfl, fun _ hp _ hi hparse => touches_cmdSetPin hp hi hparse⟩
  · exact ⟨_, rfl, fun _ hp _ hi hparse => touches_cmdSetPin hp hi hparse⟩
  · exact ⟨_, rfl, fun _ hp _ hi hparse => touches_cmdOscillate hp hi hparse⟩
  · exact ⟨_, rfl, fun _ hp _ hi hparse => touches_cmdShowPin hp hi hparse⟩

theorem doCommand_other (h : ¬NamesPin command) (hrun : doCommand after command s = some s') :
    Touches InImage s s' := by
  unfold NamesPin at h
  unfold doCommand at hrun
  rw [if_neg h] at hrun
  split_ifs at hrun
  · cases hrun
    exact touches_printAll s
  · cases hrun
    exact touches_cmdClean s

/-- The accesses of a command are to the register file and, where a pin is named, to the registers
of its port; what names a pin that does not exist is refused. -/
structure Confined (after command : List Byte) : Prop where
  image : ∀ s s', doCommand after command s = some s' → Touches InImage s s'
  port : NamesPin command → ∀ s s', doCommand after command s = some s' →
    ∃ port : ℕ, (pinNamed (command ++ 0#8 :: after)).1 = port ∧ Touches (InPort port) s s'
  refused : NamesPin command → ¬PinExists (pinNamed (command ++ 0#8 :: after)) →
    ∀ s, doCommand after command s = none

/-- A command is confined exactly where it does not name a pin that does not exist. -/
theorem doCommand_confined_iff (after command : List Byte) : Confined after command ↔
    (NamesPin command → PinExists (pinNamed (command ++ 0#8 :: after))) := by
  constructor
  · intro h hnames
    by_contra hexists
    obtain ⟨s', hrun, -⟩ := @doCommand_names after command ⟨fun _ => 0#8, [], []⟩ hnames
    rw [h.refused hnames hexists] at hrun
    cases hrun
  · intro h
    refine ⟨?_, ?_, fun hnames hexists => absurd (h hnames) hexists⟩
    · intro s s' hrun
      by_cases hnames : NamesPin command
      · obtain ⟨port, hp, i, hi, -, hparse⟩ := pin_nat (h hnames)
        obtain ⟨t, ht, htouch⟩ := @doCommand_names after command s hnames
        obtain rfl := Option.some.inj (hrun.symm.trans ht)
        exact (htouch port hp i hi hparse).mono fun _ => InPort.inImage hp
      · exact doCommand_other hnames hrun
    · intro hnames s s' hrun
      obtain ⟨port, hp, i, hi, hnamed, hparse⟩ := pin_nat (h hnames)
      obtain ⟨t, ht, htouch⟩ := @doCommand_names after command s hnames
      obtain rfl := Option.some.inj (hrun.symm.trans ht)
      exact ⟨port, congrArg Prod.fst hnamed, htouch port hp i hi hparse⟩

/-- Pin 32 of port A is the data register as a function register. -/
theorem doCommand_pa32 : ¬Confined [] (literal "PA32") := by
  intro h
  have hrun := h.refused rfl (by decide) ⟨fun _ => 0#8, [], []⟩
  revert hrun
  decide

end DoCommand

end ChipTools.Pio
