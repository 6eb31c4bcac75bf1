import ChipTools.FexGrammar
import ChipTools.NumberText

/-! `script_generate_fex`: a script tree as the text of a fex file, and what `script_parse_fex` makes
of that text. -/
namespace ChipTools.Fex
open Bytes CNumber Loop

section Printer

/-- `strlen2`: the length without the decimal digits at the end. -/
def strlen2 (s : List Byte) : ℕ := (s.rdropWhile isDecimal).length

/-- `find_full_match`: an element of the list has the same first `l` bytes. -/
def findFullMatch (s : List Byte) (l : ℕ) (list : List (List Byte)) : Bool :=
  list.any fun entry => (s.take l).isPrefixOf entry

/-- The table of `decompile_single_mode`. -/
def hexa_entries : List (List Byte) :=
  ["dram_baseaddr", "dram_zq", "dram_tpr", "dram_emr", "g2d_size", "rtp_press_threshold",
    "rtp_sensitive_level", "ctp_twi_addr", "csi_twi_addr", "csi_twi_addr_b", "tkey_twi_addr",
    "lcd_gamma_tbl_", "gsensor_twi_addr"].map literal

def decompileSingleMode (name : List Byte) : ℤ :=
  if findFullMatch name (strlen2 name) hexa_entries then 0 else -1

/-- A word in the mode of its name. -/
def singleText (name : List Byte) (value : BitVec 32) : List Byte :=
  let mode := decompileSingleMode name
  if mode < 0 then intText value.toInt
  else if 0 < mode then literal "0x" ++ padZeros mode.toNat (numberText 16 value.toNat)
  else literal "0x" ++ numberText 16 value.toNat

/-- The data words in the order of the file. -/
def GpioData.words (d : GpioData) : List (BitVec 32) := [d.mul_sel, d.pull, d.drv_level, d.data]

/-- A data word in brackets. -/
def dataText (w : BitVec 32) : List Byte :=
  if w = BitVec.ofInt 32 (-1) then literal "<default>"
  else 0x3c#8 :: (intText w.toInt ++ [0x3e#8])

def gpioText (port port_num : BitVec 32) (d : GpioData) : List Byte :=
  literal "port:" ++
    ((if port = 0xffff#32 then literal "power" ++ numberText 10 port_num.toNat
      -- a `char` that starts in front of the letters
      else [0x50#8, BitVec.ofNat 8 (0x40+port.toNat)] ++
        padZeros 2 (numberText 10 port_num.toNat)) ++ d.words.flatMap dataText)

/-- What stands behind the equals sign. -/
def valueText (name : List Byte) : Value → List Byte
  | .single value => 0x20#8 :: singleText name value
  | .string s => 0x20#8 :: 0x22#8 :: (cstr s ++ [0x22#8])
  | .gpio port port_num d => 0x20#8 :: gpioText port port_num d
  | .null => []

def entryText (e : Entry) : List Byte := e.name ++ (literal " =" ++ valueText e.name e.value)

/-- The lines of a section, without their ends. -/
def sectionText (s : Section) : List (List Byte) :=
  (0x5b#8 :: (s.name ++ [0x5d#8])) :: (s.entries.map entryText ++ [[]])

/-- The lines of the file. -/
def scriptText (script : Script) : List (List Byte) := script.flatMap sectionText

def scriptGenerateFex (script : Script) : List Byte :=
  (scriptText script).flatMap fun line => line ++ [0x0a#8]

end Printer

section Textual

/-- What a value that was read from a text is. -/
def Value.Textual : Value → Prop
  | .string s => 0#8 ∉ s ∧ 0x0a#8 ∉ s ∧ s.length ≤ MAX_LINE
  | .gpio port port_num d =>
    ((1 ≤ port.toNat ∧ port.toNat ≤ GPIO_BANK_MAX+1) ∨ port = 0xffff#32) ∧ port_num.toNat ≤ 255 ∧
      ∀ w ∈ d.words, w = BitVec.ofInt 32 (-1) ∨ w.toNat < 2^31
  | _ => True

/-- Letters, digits and underscores, up to 31 of them. -/
structure KeyOk (name : List Byte) : Prop where
  chars : ∀ b ∈ name, isNameChar b = true
  le : name.length ≤ 31

structure Entry.Textual (e : Entry) : Prop where
  key : KeyOk e.name
  -- the constructor of strings does not check the name
  pos : e.name ≠ [] ∨ ∃ s, e.value = .string s
  value : e.value.Textual

structure Section.Textual (s : Section) : Prop where
  key : KeyOk s.name
  pos : s.name ≠ []
  entries : ∀ e ∈ s.entries, e.Textual

/-- What a tree that was read from a text is. -/
def Textual (script : Script) : Prop := ∀ s ∈ script, s.Textual

/-- The lines fit the buffer of the parser. -/
def Fits (script : Script) : Prop := ∀ line ∈ scriptText script, line.length ≤ MAX_LINE

end Textual

section Values

variable {pe : ℕ}

/-- What `%d` writes is a number. -/
theorem exists_numeral_int (v : ℤ) : ∃ n : Numeral, n.sign ≠ .plus ∧ n.text = intText v ∧
    n.value = v := by
  by_cases h0 : v = 0
  · -- a zero is an octal number without digits
    subst h0
    exact ⟨⟨.none, .oct, [], by simp, by simp, by simp⟩, by simp, rfl, rfl⟩
  · have hne : v.natAbs ≠ 0 := Int.natAbs_ne_zero.mpr h0
    have hhead := numberText_head (r := 10) (by decide) (by decide) hne
    have hval := digitsValue_numberText (r := 10) (n := v.natAbs) (by decide) (by decide)
    have hdigits := numberText_digits (r := 10) (n := v.natAbs) (by decide) (by decide)
    by_cases hneg : v < 0
    · refine ⟨⟨.minus, .dec, numberText 10 v.natAbs, hdigits, fun _ => hhead, by simp⟩, by simp, ?_,
        ?_⟩
      · rw [intText, if_pos hneg]
        rfl
      · change -((digitsValue 10 (numberText 10 v.natAbs) : ℕ) : ℤ) = v
        rw [hval]
        omega
    · refine ⟨⟨.none, .dec, numberText 10 v.natAbs, hdigits, fun _ => hhead, by simp⟩, by simp, ?_,
        ?_⟩
      · rw [intText, if_neg hneg]
        rfl
      · change ((digitsValue 10 (numberText 10 v.natAbs) : ℕ) : ℤ) = v
        rw [hval]
        omega

/-- What `0x%x` writes is a number. -/
theorem exists_numeral_hex (n : ℕ) : ∃ m : Numeral, m.sign ≠ .plus ∧
    m.text = literal "0x" ++ numberText 16 n ∧ m.value = n := by
  refine ⟨⟨.none, .hex false, numberText 16 n, numberText_digits (by decide) (by decide), by simp,
    fun _ _ => numberText_ne_nil 16 n⟩, by simp, rfl, ?_⟩
  change ((digitsValue 16 (numberText 16 n) : ℕ) : ℤ) = n
  rw [digitsValue_numberText (by decide) (by decide)]

/-- A word is read back in either mode. -/
theorem parseValue_single (name : List Byte) (w : BitVec 32) :
    parseValue pe (singleText name w) = .ok (.single w) := by
  have hlt := w.isLt
  have hread (n : Numeral) (hs : n.sign ≠ .plus) (h1 : -2^31 ≤ n.value) (h2 : n.value ≤ 2^32-1)
      (hw : BitVec.ofInt 32 n.value = w) : parseValue pe n.text = .ok (.single w) := by
    rw [parseValue_numeral pe n hs, saturated_of_mem h1 h2, if_neg (by omega), hw]
  unfold singleText decompileSingleMode
  dsimp only
  by_cases hmode : findFullMatch name (strlen2 name) hexa_entries
  · rw [if_pos hmode, if_neg (by decide), if_neg (by decide)]
    obtain ⟨n, hs, htext, hval⟩ := exists_numeral_hex w.toNat
    rw [← htext]
    refine hread n hs (by omega) (by omega) ?_
    rw [hval, BitVec.ofInt_natCast, BitVec.ofNat_toNat, BitVec.setWidth_eq]
  · rw [if_neg hmode, if_pos (by decide)]
    obtain ⟨n, hs, htext, hval⟩ := exists_numeral_int w.toInt
    have hrange := BitVec.toInt_lt (x := w)
    have hrange' := BitVec.le_toInt (x := w)
    rw [← htext]
    refine hread n hs (by omega) (by omega) ?_
    rw [hval, BitVec.ofInt_toInt]

/-- A quoted string is read back. -/
theorem parseValue_string (s : List Byte) :
    parseValue pe (0x22#8 :: (s ++ [0x22#8])) = .ok (.string s) := by
  have hq : isQuoted (0x22#8 :: (s ++ [0x22#8])) = true := by
    unfold isQuoted
    rw [List.getLast?_cons, List.getLast?_concat]
    simp
  unfold parseValue
  rw [if_neg (List.cons_ne_nil _ _), if_pos hq, List.tail_cons, List.dropLast_concat]

/-- A data word as a group. -/
theorem exists_group {w : BitVec 32} (hw : w = BitVec.ofInt 32 (-1) ∨ w.toNat < 2^31) :
    ∃ g : Group, g.Ok ∧ g.text = dataText w ∧ BitVec.ofInt 32 g.val = w := by
  unfold dataText
  by_cases h : w = BitVec.ofInt 32 (-1)
  · rw [if_pos h]
    exact ⟨.default, trivial, rfl, h.symm⟩
  · have hlt := hw.resolve_left h
    have hint : w.toInt = w.toNat := BitVec.toInt_eq_toNat_of_lt (by omega)
    have hval := digitsValue_numberText (r := 10) (n := w.toNat) (by decide) (by decide)
    let n : LooseNum := ⟨[], .none, numberText 10 w.toNat, by simp,
      numberText_digits (by decide) (by decide), numberText_ne_nil _ _⟩
    have hn : n.value = w.toNat := by
      change ((digitsValue 10 (numberText 10 w.toNat) : ℕ) : ℤ) = _
      rw [hval]
    refine ⟨.value n, ?_, ?_, ?_⟩
    · change 0 ≤ n.value ∧ n.value ≤ 2^31-1
      omega
    · rw [if_neg h, hint, intText, if_neg (by omega), Int.natAbs_natCast]
      rfl
    · change BitVec.ofInt 32 n.value = w
      rw [hn, BitVec.ofInt_natCast, BitVec.ofNat_toNat, BitVec.setWidth_eq]

/-- A GPIO is read back. -/
theorem parseValue_gpio {port port_num : BitVec 32} {d : GpioData}
    (h : (Value.gpio port port_num d).Textual) :
    parseValue pe (gpioText port port_num d) = .ok (.gpio port port_num d) := by
  obtain ⟨hport, hnum, hdata⟩ := h
  -- one group for each word
  obtain ⟨g1, ok1, t1, v1⟩ := exists_group (hdata d.mul_sel (by simp [GpioData.words]))
  obtain ⟨g2, ok2, t2, v2⟩ := exists_group (hdata d.pull (by simp [GpioData.words]))
  obtain ⟨g3, ok3, t3, v3⟩ := exists_group (hdata d.drv_level (by simp [GpioData.words]))
  obtain ⟨g4, ok4, t4, v4⟩ := exists_group (hdata d.data (by simp [GpioData.words]))
  have hgroups : ∀ g ∈ [g1, g2, g3, g4], g.Ok := by
    intro g hg
    simp only [List.mem_cons, List.not_mem_nil, or_false] at hg
    rcases hg with rfl | rfl | rfl | rfl <;> assumption
  have htext : d.words.flatMap dataText = [g1, g2, g3, g4].flatMap Group.text ++ Cut.none.text := by
    simp only [GpioData.words, List.flatMap_cons, List.flatMap_nil, t1, t2, t3, t4, List.append_nil,
      Cut.text]
  have hwords : gpioData ([g1, g2, g3, g4].map Group.val) = d := by
    simp only [gpioData, List.map_cons, List.map_nil, List.getD_cons_zero, List.getD_cons_succ, v1,
      v2, v3, v4]
  have hread (bank : Bank) (digits : List Byte) (hbank : ∀ i, bank = .letter i → i ≤ GPIO_BANK_MAX)
      (hd : ∀ b ∈ digits, isDigit 10 b = true) (hne : digits ≠ [])
      (hv : digitsValue 10 digits = port_num.toNat) (hp : BitVec.ofNat 32 bank.port = port) :
      gpioValue pe (bank.text ++ (digits ++ d.words.flatMap dataText)) =
        .ok (.gpio port port_num d) := by
    let pin : LooseNum := ⟨[], .none, digits, by simp, hd, hne⟩
    have hpin : pin.value = port_num.toNat := by
      change ((digitsValue 10 digits : ℕ) : ℤ) = _
      rw [hv]
    have hloose := @gpioValue_text pe ⟨bank, pin, [g1, g2, g3, g4], .none, hbank,
      by omega, hgroups, trivial, by simp, by simp⟩
    have hvalue : Value.gpio (.ofNat 32 bank.port) (.ofInt 32 pin.value)
        (gpioData ([g1, g2, g3, g4].map Group.val)) = .gpio port port_num d := by
      rw [hp, hwords, hpin, BitVec.ofInt_natCast, BitVec.ofNat_toNat, BitVec.setWidth_eq]
    rw [htext]
    exact hloose.trans (congrArg Except.ok hvalue)
  have hval := digitsValue_numberText (r := 10) (n := port_num.toNat) (by decide) (by decide)
  have hdigits := numberText_digits (r := 10) (n := port_num.toNat) (by decide) (by decide)
  unfold gpioText
  rw [parseValue_port]
  by_cases hpower : port = 0xffff#32
  · rw [if_pos hpower, List.append_assoc]
    exact hread .power _ (fun i hi => by cases hi) hdigits (numberText_ne_nil _ _) hval hpower.symm
  · obtain ⟨hlo, hhi⟩ := hport.resolve_right hpower
    have hletter : 0x40+port.toNat = 0x41+(port.toNat-1) := by omega
    rw [if_neg hpower, hletter, List.append_assoc]
    refine hread (.letter (port.toNat-1)) _ ?_ (padZeros_digits hdigits) ?_ ?_ ?_
    · intro i hi
      obtain rfl := Bank.letter.inj hi
      omega
    · intro hnil
      exact numberText_ne_nil _ _ (List.append_eq_nil_iff.mp hnil).2
    · rw [digitsValue_padZeros, hval]
    · change BitVec.ofNat 32 (port.toNat-1+1) = port
      rw [Nat.sub_add_cancel hlo, BitVec.ofNat_toNat, BitVec.setWidth_eq]

end Values
section Shown

/-- Bytes above the blank: no ends, no blanks and no line ends. -/
def Shown (s : List Byte) : Prop := ∀ b ∈ s, 0x20#8 < b

theorem shown_literal : Shown (literal "0x") ∧ Shown (literal "<default>") ∧
    Shown (literal "port:") ∧ Shown (literal "power") := by
  have hall {s : List Byte} (h : s.all (0x20#8 < ·) = true) : Shown s := by
    simpa [Shown] using h
  exact ⟨hall (by decide), hall (by decide), hall (by decide), hall (by decide)⟩

theorem shown_digit : ∀ b : Byte, isDigit 16 b = true → 0x20#8 < b := by decide +kernel

theorem shown_nameChar : ∀ b : Byte, isNameChar b = true → 0x20#8 < b := by decide +kernel

theorem isBlank_le : ∀ b : Byte, isBlank b = true → ¬0x20#8 < b := by decide +kernel

theorem Shown.append {s t : List Byte} (hs : Shown s) (ht : Shown t) : Shown (s ++ t) := by
  intro b hb
  rcases List.mem_append.mp hb with hb | hb
  · exact hs b hb
  · exact ht b hb

theorem Shown.cons {b : Byte} {s : List Byte} (hb : 0x20#8 < b) (hs : Shown s) : Shown (b :: s) := by
  intro c hc
  rcases List.mem_cons.mp hc with rfl | hc
  · exact hb
  · exact hs c hc

theorem Shown.not_mem {s : List Byte} (hs : Shown s) {b : Byte} (hb : ¬0x20#8 < b) : b ∉ s :=
  fun hmem => hb (hs b hmem)

theorem shown_numberText {r n : ℕ} (hb : 1 < r) (hle : r ≤ 16) : Shown (numberText r n) := by
  intro b hmem
  have h := numberText_digits hb hle b hmem
  unfold isDigit at h
  refine shown_digit b (decide_eq_true ?_)
  have := of_decide_eq_true h
  omega

theorem shown_padZeros {width : ℕ} {s : List Byte} (hs : Shown s) : Shown (padZeros width s) := by
  refine Shown.append (fun b hb => ?_) hs
  obtain rfl := List.eq_of_mem_replicate hb
  decide

theorem shown_intText (v : ℤ) : Shown (intText v) := by
  have h := shown_numberText (r := 10) (n := v.natAbs) (by decide) (by decide)
  unfold intText
  split
  · exact h.cons (by decide)
  · exact h

theorem shown_singleText (name : List Byte) (w : BitVec 32) : Shown (singleText name w) := by
  have h := shown_numberText (r := 16) (n := w.toNat) (by decide) (by decide)
  unfold singleText
  dsimp only
  split
  · exact shown_intText _
  · split
    · exact shown_literal.1.append (shown_padZeros h)
    · exact shown_literal.1.append h

theorem shown_dataText (w : BitVec 32) : Shown (dataText w) := by
  unfold dataText
  split
  · exact shown_literal.2.1
  · exact ((shown_intText _).append (Shown.cons (by decide) (fun b hb => by cases hb))).cons
      (by decide)

theorem shown_gpioText {port port_num : BitVec 32} {d : GpioData}
    (h : (Value.gpio port port_num d).Textual) : Shown (gpioText port port_num d) := by
  have hnum := shown_numberText (r := 10) (n := port_num.toNat) (by decide) (by decide)
  refine shown_literal.2.2.1.append (Shown.append ?_ ?_)
  · split
    next => exact shown_literal.2.2.2.append hnum
    next hpower =>
      obtain ⟨hlo, hhi⟩ := h.1.resolve_right hpower
      unfold GPIO_BANK_MAX at hhi
      refine Shown.append (Shown.cons (by decide) (Shown.cons ?_ fun b hb => by cases hb))
        (shown_padZeros hnum)
      rw [BitVec.lt_def, BitVec.toNat_ofNat, BitVec.toNat_ofNat]
      omega
  · intro b hb
    obtain ⟨w, -, hw⟩ := List.mem_flatMap.mp hb
    exact shown_dataText w b hw

theorem KeyOk.shown {name : List Byte} (h : KeyOk name) : Shown name :=
  fun b hb => shown_nameChar b (h.chars b hb)

end Shown

section LineText

/-- A line without ends of strings and of lines, that ends above the blank. -/
structure LineOk (body : List Byte) : Prop where
  nul : 0#8 ∉ body
  newline : 0x0a#8 ∉ body
  last : ∀ b, body.getLast? = some b → 0x20#8 < b

theorem Shown.lineOk {s : List Byte} (h : Shown s) : LineOk s :=
  ⟨h.not_mem (by decide), h.not_mem (by decide), fun b hb => h b (List.mem_of_getLast? hb)⟩

theorem skipBlank_append {s tail : List Byte} (ht : tail = [] ∨ tail = [0x0a#8]) :
    skipBlank (s ++ tail) = skipBlank s ++ tail := by
  unfold skipBlank
  rw [List.dropWhile_append]
  split
  next h =>
    rw [List.isEmpty_iff.mp h, List.nil_append]
    rcases ht with rfl | rfl <;> rfl
  next => rfl

theorem cstr_of_not_mem {s : List Byte} (h : 0#8 ∉ s) : cstr s = s := by
  have := cstr_pad h 0
  rwa [List.replicate_zero, List.append_nil] at this

theorem rtrim_of_last {s : List Byte} (h : ∀ b, s.getLast? = some b → 0x20#8 < b) : rtrim s = s := by
  unfold rtrim
  rw [List.rdropWhile_eq_self_iff]
  intro hne hblank
  exact isBlank_le _ hblank (h _ (List.getLast?_eq_some_getLast hne))

/-- The end of the line is taken off, or not there. -/
theorem chomp_append {s tail : List Byte} (hn : 0x0a#8 ∉ s)
    (hl : ∀ b, s.getLast? = some b → 0x20#8 < b) (ht : tail = [] ∨ tail = [0x0a#8]) :
    chomp (s ++ tail) = s := by
  unfold chomp
  rcases ht with rfl | rfl
  · rw [List.append_nil, if_neg]
    intro h
    exact hn (List.mem_of_getLast? h)
  · rw [List.getLast?_concat, if_pos rfl, List.dropLast_concat, if_neg]
    intro h
    exact absurd (hl _ h) (by decide)

theorem last_skipBlank {s : List Byte} (h : ∀ b, s.getLast? = some b → 0x20#8 < b) :
    ∀ b, (skipBlank s).getLast? = some b → 0x20#8 < b := by
  intro b hb
  refine h b ?_
  obtain ⟨pre, hpre⟩ : skipBlank s <:+ s := List.dropWhile_suffix _
  rw [← hpre, List.getLast?_append, hb]
  rfl

/-- The parser's text of a line that was printed. -/
theorem LineOk.lineText {body tail : List Byte} (h : LineOk body)
    (ht : tail = [] ∨ tail = [0x0a#8]) : lineText (body ++ tail) = skipBlank body := by
  have hnul : 0#8 ∉ body ++ tail := by
    intro hmem
    rcases List.mem_append.mp hmem with hmem | hmem
    · exact h.nul hmem
    · rcases ht with rfl | rfl
      · cases hmem
      · exact absurd hmem (by decide)
  have hnewline : 0x0a#8 ∉ skipBlank body := fun hmem =>
    h.newline ((List.dropWhile_suffix _).subset hmem)
  have hlast := last_skipBlank h.last
  calc Fex.lineText (body ++ tail) = rtrim (chomp (skipBlank (body ++ tail))) := by
        unfold Fex.lineText
        rw [cstr_of_not_mem hnul]
    _ = rtrim (skipBlank body) := by rw [skipBlank_append ht, chomp_append hnewline hlast ht]
    _ = skipBlank body := rtrim_of_last hlast

end LineText

section Step

variable {script : Script} {line : ℕ} {tail : List Byte}

theorem nameChar_facts : ∀ b : Byte, isNameChar b = true →
    isBlank b = false ∧ b ≠ 0x3b#8 ∧ b ≠ 0x23#8 ∧ b ≠ 0x3a#8 ∧ b ≠ 0x5b#8 := by decide +kernel

/-- An empty line changes nothing. -/
theorem parseLine_empty (script : Script) (ht : tail = [] ∨ tail = [0x0a#8]) :
    parseLine script line tail = .ok script := by
  have hok : LineOk [] := ⟨by simp, by simp, by simp⟩
  have htext := hok.lineText ht
  rw [List.nil_append] at htext
  unfold parseLine
  rw [htext]
  rfl

/-- The line of a section starts a section. -/
theorem parseLine_section {name : List Byte} (hk : KeyOk name) (hpos : name ≠ [])
    (ht : tail = [] ∨ tail = [0x0a#8]) :
    parseLine script line (0x5b#8 :: (name ++ [0x5d#8]) ++ tail) = .ok (script ++ [⟨name, []⟩]) := by
  have hshown : Shown (0x5b#8 :: (name ++ [0x5d#8])) :=
    (hk.shown.append (Shown.cons (by decide) fun b hb => by cases hb)).cons (by decide)
  have hskip : skipBlank (0x5b#8 :: (name ++ [0x5d#8])) = 0x5b#8 :: (name ++ [0x5d#8]) :=
    List.dropWhile_cons_of_neg (by decide)
  have htake : (name ++ [0x5d#8]).takeWhile isNameChar = name := by
    rw [List.takeWhile_append_of_pos hk.chars]
    exact List.append_nil _
  have hdrop : (name ++ [0x5d#8]).dropWhile isNameChar = [0x5d#8] := by
    rw [List.dropWhile_append_of_pos hk.chars]
    rfl
  have hname (pe : ℕ) : sectionName pe (name ++ [0x5d#8]) = .ok name := by
    unfold sectionName
    simp only [htake, hdrop, if_true]
  unfold parseLine
  rw [hshown.lineOk.lineText ht, hskip]
  dsimp only
  rw [if_neg (by decide), if_pos rfl, hname]
  have hnew : scriptSectionNew name = some ⟨name, []⟩ := by
    rw [scriptSectionNew, if_neg hpos, List.take_of_length_le hk.le]
  unfold addSection
  dsimp only
  rw [hnew]

theorem keyValue_text {pe : ℕ} {name blanks t : List Byte} (hname : ∀ b ∈ name, isNameChar b = true)
    (hb : blanks = [] ∨ blanks = [0x20#8]) {v : Value} (hv : parseValue pe (skipBlank t) = .ok v) :
    keyValue pe (name ++ (blanks ++ 0x3d#8 :: t)) = .ok (name, v) := by
  have htake : (name ++ (blanks ++ 0x3d#8 :: t)).takeWhile isNameChar = name := by
    rw [List.takeWhile_append_of_pos hname]
    rcases hb with rfl | rfl
    · exact List.append_nil _
    · exact List.append_nil _
  have hdrop : skipBlank ((name ++ (blanks ++ 0x3d#8 :: t)).dropWhile isNameChar) = 0x3d#8 :: t := by
    rw [List.dropWhile_append_of_pos hname]
    rcases hb with rfl | rfl <;> rfl
  unfold keyValue
  rw [htake, hdrop]
  change (parseValue pe (skipBlank t) >>= fun v => Except.ok (name, v)) = _
  rw [hv]
  rfl

/-- What the parser makes of a value that was printed. -/
theorem parseValue_text {pe : ℕ} (name : List Byte) {v : Value} (hv : v.Textual) :
    parseValue pe (skipBlank (valueText name v)) = .ok v := by
  have hskip {t : List Byte} (h : LineOk t) (hs : ∀ b s, t = b :: s → 0x20#8 < b) :
      skipBlank (0x20#8 :: t) = t := by
    change skipBlank t = t
    cases t with
    | nil => rfl
    | cons b s =>
      refine List.dropWhile_cons_of_neg fun hb => ?_
      exact isBlank_le b hb (hs b s rfl)
  have hshown {t : List Byte} (h : Shown t) : skipBlank (0x20#8 :: t) = t :=
    hskip h.lineOk fun b s heq => h b (by rw [heq]; exact List.mem_cons_self)
  cases v with
  | single w =>
    change parseValue pe (skipBlank (0x20#8 :: singleText name w)) = _
    rw [hshown (shown_singleText name w), parseValue_single]
  | string s =>
    have hs : skipBlank (0x20#8 :: 0x22#8 :: (cstr s ++ [0x22#8])) =
        0x22#8 :: (cstr s ++ [0x22#8]) := rfl
    change parseValue pe (skipBlank (0x20#8 :: 0x22#8 :: (cstr s ++ [0x22#8]))) = _
    rw [hs, cstr_of_not_mem hv.1, parseValue_string]
  | gpio port port_num d =>
    change parseValue pe (skipBlank (0x20#8 :: gpioText port port_num d)) = _
    rw [hshown (shown_gpioText hv), parseValue_gpio hv]
  | null => rfl

theorem lineOk_blank {t : List Byte} (h : LineOk t) (hne : t ≠ []) : LineOk (0x20#8 :: t) := by
  refine ⟨?_, ?_, ?_⟩
  · simpa using h.nul
  · simpa using h.newline
  · intro b hb
    obtain ⟨c, s, rfl⟩ := List.exists_cons_of_ne_nil hne
    rw [List.getLast?_cons_cons] at hb
    exact h.last b hb

theorem lineOk_append {s t : List Byte} (hs : Shown s) (ht : LineOk t) : LineOk (s ++ t) := by
  refine ⟨?_, ?_, ?_⟩
  · intro h
    exact (List.mem_append.mp h).elim (hs.not_mem (by decide)) ht.nul
  · intro h
    exact (List.mem_append.mp h).elim (hs.not_mem (by decide)) ht.newline
  · intro b hb
    rw [List.getLast?_append] at hb
    cases hlast : t.getLast? with
    | none =>
      rw [hlast] at hb
      exact hs b (List.mem_of_getLast? hb)
    | some c =>
      rw [hlast] at hb
      exact ht.last b (hlast.trans hb)

theorem lineOk_valueText (name : List Byte) {v : Value} (hv : v.Textual) :
    LineOk (valueText name v) := by
  have hshown {t : List Byte} (h : Shown t) (hne : t ≠ []) : LineOk (0x20#8 :: t) :=
    lineOk_blank h.lineOk hne
  cases v with
  | single w =>
    refine hshown (shown_singleText name w) fun h => ?_
    have := @parseValue_single 0 name w
    rw [h] at this
    cases this
  | string s =>
    refine lineOk_blank ⟨?_, ?_, ?_⟩ (List.cons_ne_nil _ _)
    · rw [cstr_of_not_mem hv.1]
      simpa using hv.1
    · rw [cstr_of_not_mem hv.1]
      simpa using hv.2.1
    · intro b hb
      rw [← List.cons_append, List.getLast?_concat] at hb
      obtain rfl := Option.some.inj hb
      decide
  | gpio port port_num d => exact hshown (shown_gpioText hv) (by simp [gpioText, literal])
  | null => exact ⟨by simp [valueText], by simp [valueText], by simp [valueText]⟩

theorem entryText_eq (e : Entry) :
    entryText e = e.name ++ ([0x20#8] ++ 0x3d#8 :: valueText e.name e.value) := rfl

theorem lineOk_entryText {e : Entry} (he : e.Textual) : LineOk (entryText e) := by
  have hval := lineOk_valueText e.name he.value
  have hmark := lineOk_append (s := [0x3d#8]) (Shown.cons (by decide) fun b hb => by cases hb) hval
  rw [entryText_eq]
  exact lineOk_append he.key.shown (lineOk_blank hmark (List.cons_ne_nil _ _))

/-- Without a name the line starts at the equals sign. -/
theorem skipBlank_entry {name : List Byte} (hname : ∀ b ∈ name, isNameChar b = true)
    (t : List Byte) : ∃ blanks, (blanks = [] ∨ blanks = [0x20#8]) ∧
      skipBlank (name ++ ([0x20#8] ++ 0x3d#8 :: t)) = name ++ (blanks ++ 0x3d#8 :: t) := by
  cases name with
  | nil => exact ⟨[], .inl rfl, rfl⟩
  | cons b name =>
    refine ⟨[0x20#8], .inr rfl, ?_⟩
    have hb := (nameChar_facts b (hname b List.mem_cons_self)).1
    exact List.dropWhile_cons_of_neg (by rw [hb]; decide)

/-- A line whose text is a key with a value. -/
theorem parseLine_key (init : Script) (last : Section) {buffer name blanks t : List Byte}
    (hname : ∀ b ∈ name, isNameChar b = true) (hb : blanks = [] ∨ blanks = [0x20#8])
    (htext : lineText buffer = name ++ (blanks ++ 0x3d#8 :: t)) (hne : name = [] → blanks = []) {v : Value}
    (hv : parseValue (lineEnd buffer) (skipBlank t) = .ok v) :
    parseLine (init ++ [last]) line buffer = addEntry (init ++ [last]) last name v := by
  have hkv := keyValue_text hname hb hv
  have hhead : ∃ b s, name ++ (blanks ++ 0x3d#8 :: t) = b :: s ∧
      b ≠ 0x3b#8 ∧ b ≠ 0x23#8 ∧ b ≠ 0x3a#8 ∧ b ≠ 0x5b#8 := by
    cases name with
    | nil =>
      rw [hne rfl]
      exact ⟨0x3d#8, t, rfl, by decide⟩
    | cons b s => exact ⟨b, _, rfl, (nameChar_facts b (hname b List.mem_cons_self)).2⟩
  obtain ⟨b, s, heq, h1, h2, h3, h4⟩ := hhead
  rw [heq] at hkv
  unfold parseLine
  rw [htext, heq]
  dsimp only
  rw [if_neg (by simp [h1, h2, h3]), if_neg h4, List.getLast?_concat]
  dsimp only
  rw [hkv]

/-- The constructors append the entry, if it has a name or is a string. -/
theorem scriptEntryNew_eq_some {entries entries' : List Entry} {name : List Byte} {v : Value} :
    scriptEntryNew entries name v = some entries' ↔
      (name ≠ [] ∨ ∃ s, v = .string s) ∧ entries' = entries ++ [⟨name.take 31, v⟩] := by
  have hnamed (hs : ∀ s, v ≠ .string s) :
      (if name = [] then none else some (scriptEntryAppend entries name v)) = some entries' ↔
        (name ≠ [] ∨ ∃ s, v = .string s) ∧ entries' = entries ++ [⟨name.take 31, v⟩] := by
    simp [scriptEntryAppend, hs, eq_comm]
  cases v with
  | string s => simp [scriptEntryNew, scriptEntryAppend, eq_comm]
  | single w => exact hnamed (by simp)
  | gpio p n d => exact hnamed (by simp)
  | null => exact hnamed (by simp)

theorem addEntry_textual {init : Script} {last : Section} {e : Entry} (he : e.Textual) :
    addEntry (init ++ [last]) last e.name e.value =
      .ok (init ++ [{ last with entries := last.entries ++ [e] }]) := by
  have hname : e.name.take 31 = e.name := List.take_of_length_le he.key.le
  have hnew : scriptEntryNew last.entries e.name e.value = some (last.entries ++ [e]) := by
    rw [scriptEntryNew_eq_some, hname]
    exact ⟨he.pos, rfl⟩
  unfold addEntry
  rw [hnew, List.dropLast_concat]

/-- The line of an entry adds it to the last section. -/
theorem parseLine_entry (init : Script) (last : Section) {e : Entry} (he : e.Textual)
    (ht : tail = [] ∨ tail = [0x0a#8]) :
    parseLine (init ++ [last]) line (entryText e ++ tail) =
      .ok (init ++ [{ last with entries := last.entries ++ [e] }]) := by
  have htext := (lineOk_entryText he).lineText ht
  obtain ⟨blanks, hb, hskip⟩ := skipBlank_entry he.key.chars (valueText e.name e.value)
  rw [entryText_eq, hskip, ← entryText_eq] at htext
  have hne : e.name = [] → blanks = [] := by
    intro hnil
    rcases hb with hb | hb
    · exact hb
    · rw [hnil, hb] at hskip
      cases hskip
  rw [parseLine_key init last he.key.chars hb htext hne (parseValue_text e.name he.value),
    addEntry_textual he]

end Step
section Reading

theorem fgets_line {body rest : List Byte} (hn : 0x0a#8 ∉ body) {n : ℕ} (h : body.length < n) :
    fgets n (body ++ 0x0a#8 :: rest) = (body ++ [0x0a#8], rest) := by
  induction body generalizing n with
  | nil =>
    obtain ⟨n, rfl⟩ := Nat.exists_eq_add_of_lt h
    rfl
  | cons b body ih =>
    cases n with
    | zero => cases h
    | succ n =>
      rw [List.mem_cons, not_or] at hn
      rw [List.cons_append, fgets, if_neg fun hb => hn.1 hb.symm, ih hn.2 (Nat.lt_of_succ_lt_succ h)]
      rfl

/-- A line that fills the buffer is cut in front of its end. -/
theorem fgets_full {body : List Byte} (rest : List Byte) (hn : 0x0a#8 ∉ body) :
    fgets body.length (body ++ rest) = (body, rest) := by
  induction body with
  | nil => rfl
  | cons b body ih =>
    rw [List.mem_cons, not_or] at hn
    rw [List.length_cons, List.cons_append, fgets, if_neg fun hb => hn.1 hb.symm, ih hn.2]

theorem fexLines_cons (k : ℕ) {text : List Byte} (h : text ≠ []) :
    fexLines (k+1) text = (fgets MAX_LINE text).1 :: fexLines k (fgets MAX_LINE text).2 := by
  obtain ⟨b, s, rfl⟩ := List.exists_cons_of_ne_nil h
  rfl

/-- The lines that the parser reads of a line of the file: one, or two when its end does not fit. -/
theorem fexLines_line {body rest : List Byte} (hn : 0x0a#8 ∉ body) (hle : body.length ≤ MAX_LINE)
    {k : ℕ} (hk : (body ++ 0x0a#8 :: rest).length ≤ k) :
    ∃ chunks k', rest.length ≤ k' ∧ (chunks = [body ++ [0x0a#8]] ∨ chunks = [body, [0x0a#8]]) ∧
      fexLines k (body ++ 0x0a#8 :: rest) = chunks ++ fexLines k' rest := by
  rw [List.length_append, List.length_cons] at hk
  obtain ⟨k, rfl⟩ := Nat.exists_eq_add_of_le' (by omega : 1 ≤ k)
  rw [fexLines_cons k (by simp)]
  rcases hle.lt_or_eq with hlt | heq
  · rw [fgets_line hn hlt]
    exact ⟨_, k, by omega, .inl rfl, rfl⟩
  · have hfull : body.length = 255 := heq
    obtain ⟨k, rfl⟩ := Nat.exists_eq_add_of_le' (by omega : 1 ≤ k)
    rw [← heq, fgets_full _ hn, fexLines_cons k (List.cons_ne_nil _ _)]
    exact ⟨_, k, by omega, .inr rfl, rfl⟩

/-- The parser gets from one script to another one over a part of the text. -/
def Reads (text rest : List Byte) (script script' : Script) : Prop :=
  ∀ line k, text.length ≤ k → ∃ line' k', rest.length ≤ k' ∧
    parseLines line (fexLines k text) script = parseLines line' (fexLines k' rest) script'

theorem Reads.refl (text : List Byte) (script : Script) : Reads text text script script :=
  fun line k hk => ⟨line, k, hk, rfl⟩

theorem Reads.trans {text mid rest : List Byte} {s s' s'' : Script} (h : Reads text mid s s')
    (h' : Reads mid rest s' s'') : Reads text rest s s'' := by
  intro line k hk
  obtain ⟨line', k', hk', heq⟩ := h line k hk
  obtain ⟨line'', k'', hk'', heq'⟩ := h' line' k' hk'
  exact ⟨line'', k'', hk'', heq.trans heq'⟩

theorem parseLines_cons {script script' : Script} {line : ℕ} {buffer : List Byte}
    (h : parseLine script line buffer = .ok script') (buffers : List (List Byte)) :
    parseLines line (buffer :: buffers) script = parseLines (line+1) buffers script' := by
  rw [parseLines, h]
  rfl

/-- A line of the file, whether its end is cut off or not. -/
theorem reads_line {body : List Byte} (rest : List Byte) {script script' : Script} (hn : 0x0a#8 ∉ body)
    (hle : body.length ≤ MAX_LINE)
    (h : ∀ line tail, tail = [] ∨ tail = [0x0a#8] →
      parseLine script line (body ++ tail) = .ok script') :
    Reads (body ++ 0x0a#8 :: rest) rest script script' := by
  intro line k hk
  obtain ⟨chunks, k', hk', hchunks, heq⟩ := fexLines_line hn hle hk
  rw [heq]
  rcases hchunks with rfl | rfl
  · exact ⟨line+1, k', hk', parseLines_cons (h line _ (.inr rfl)) _⟩
  · have hbody := h line [] (.inl rfl)
    rw [List.append_nil] at hbody
    refine ⟨line+1+1, k', hk', (parseLines_cons hbody _).trans ?_⟩
    exact parseLines_cons (parseLine_empty _ (.inr rfl)) _

/-- The text of lines. -/
def linesText (lines : List (List Byte)) : List Byte := lines.flatMap fun line => line ++ [0x0a#8]

theorem linesText_cons (line : List Byte) (lines : List (List Byte)) (rest : List Byte) :
    linesText (line :: lines) ++ rest = line ++ 0x0a#8 :: (linesText lines ++ rest) := by
  simp [linesText]

theorem reads_entries (init : Script) (last : Section) {es : List Entry}
    (hes : ∀ e ∈ es, e.Textual) (hfit : ∀ e ∈ es, (entryText e).length ≤ MAX_LINE)
    (rest : List Byte) :
    Reads (linesText (es.map entryText) ++ rest) rest (init ++ [last])
      (init ++ [{ last with entries := last.entries ++ es }]) := by
  induction es generalizing last with
  | nil =>
    rw [List.append_nil]
    exact Reads.refl rest _
  | cons e es ih =>
    have he := hes e List.mem_cons_self
    rw [List.map_cons, linesText_cons]
    have hfirst := reads_line (linesText (es.map entryText) ++ rest)
      (lineOk_entryText he).newline (hfit e List.mem_cons_self)
      fun line tail ht => parseLine_entry init last he ht
    have hothers := ih { last with entries := last.entries ++ [e] }
      (fun e he => hes e (List.mem_cons_of_mem _ he)) fun e he => hfit e (List.mem_cons_of_mem _ he)
    rw [List.append_assoc, List.singleton_append] at hothers
    exact hfirst.trans hothers

/-- The head of a section. -/
theorem reads_header {s : Section} (hs : s.Textual) (script : Script) (rest : List Byte) :
    Reads ((0x5b#8 :: (s.name ++ [0x5d#8])) ++ 0x0a#8 :: rest) rest script
      (script ++ [⟨s.name, []⟩]) := by
  have hshown : Shown (0x5b#8 :: (s.name ++ [0x5d#8])) :=
    (hs.key.shown.append (Shown.cons (by decide) fun b hb => by cases hb)).cons (by decide)
  refine reads_line rest hshown.lineOk.newline ?_ fun line tail ht =>
    parseLine_section hs.key hs.pos ht
  have := hs.key.le
  rw [List.length_cons, List.length_append, List.length_singleton, MAX_LINE]
  omega

theorem reads_section {s : Section} (hs : s.Textual) (hfit : ∀ line ∈ sectionText s,
    line.length ≤ MAX_LINE) (script : Script) (rest : List Byte) :
    Reads (linesText (sectionText s) ++ rest) rest script (script ++ [s]) := by
  have hlines : linesText (s.entries.map entryText ++ [[]]) ++ rest =
      linesText (s.entries.map entryText) ++ ([] ++ 0x0a#8 :: rest) := by
    simp [linesText]
  have hentries := reads_entries script ⟨s.name, []⟩ hs.entries
    (fun e he => hfit _ (by simp only [sectionText, List.mem_cons, List.mem_append, List.mem_map]
                            exact .inr (.inl ⟨e, he, rfl⟩))) ([] ++ 0x0a#8 :: rest)
  have hblank := reads_line rest (List.not_mem_nil (a := 0x0a#8)) (Nat.zero_le _)
    fun line tail ht => parseLine_empty (script ++ [s]) ht
  rw [sectionText, linesText_cons, hlines]
  exact ((reads_header hs script _).trans hentries).trans hblank

theorem reads_sections {ss : Script} (hs : Textual ss) (hfit : Fits ss) (script : Script)
    (rest : List Byte) : Reads (linesText (scriptText ss) ++ rest) rest script (script ++ ss) := by
  induction ss generalizing script with
  | nil =>
    rw [List.append_nil]
    exact Reads.refl rest script
  | cons s ss ih =>
    have hmem : ∀ line, line ∈ sectionText s ∨ line ∈ scriptText ss → line ∈ scriptText (s :: ss) := by
      intro line h
      rw [scriptText, List.flatMap_cons]
      exact List.mem_append.mpr h
    have htext : linesText (scriptText (s :: ss)) ++ rest =
        linesText (sectionText s) ++ (linesText (scriptText ss) ++ rest) := by
      simp [linesText, scriptText]
    have hfirst := reads_section (hs s List.mem_cons_self)
      (fun line h => hfit line (hmem line (.inl h))) script (linesText (scriptText ss) ++ rest)
    have hothers := ih (fun s hs' => hs s (List.mem_cons_of_mem _ hs'))
      (fun line h => hfit line (hmem line (.inr h))) (script ++ [s])
    rw [List.append_assoc, List.singleton_append] at hothers
    rw [htext]
    exact hfirst.trans hothers

/-- What fits is read back. -/
theorem parse_print {script : Script} (hs : Textual script) (hfit : Fits script) :
    scriptParseFex (scriptGenerateFex script) = .ok script := by
  have hreads := reads_sections hs hfit [] []
  rw [List.append_nil] at hreads
  obtain ⟨line, k, -, heq⟩ := hreads 1 (scriptGenerateFex script).length le_rfl
  refine heq.trans ?_
  cases k <;> rfl

end Reading
section Sound

/-- What one call of `fgets` reads: up to the size of the buffer, and no line end but at its end. -/
structure Chunk (buffer : List Byte) : Prop where
  newline : 0x0a#8 ∉ buffer.dropLast
  le : buffer.length ≤ MAX_LINE

theorem fgets_newline (n : ℕ) (text : List Byte) : 0x0a#8 ∉ (fgets n text).1.dropLast := by
  induction n generalizing text with
  | zero => simp [fgets]
  | succ n ih =>
    cases text with
    | nil => simp [fgets]
    | cons b text =>
      rw [fgets]
      split
      next => simp
      next hb =>
        dsimp only
        cases hr : (fgets n text).1 with
        | nil => simp
        | cons c s =>
          have := ih text
          rw [hr] at this
          rw [List.dropLast_cons_cons, List.mem_cons, not_or]
          exact ⟨fun h => hb h.symm, this⟩

theorem fgets_length (n : ℕ) (text : List Byte) : (fgets n text).1.length ≤ n := by
  induction n generalizing text with
  | zero => exact le_rfl
  | succ n ih =>
    cases text with
    | nil => exact Nat.zero_le _
    | cons b text =>
      rw [fgets]
      split
      next => exact Nat.succ_le_succ (Nat.zero_le n)
      next => exact Nat.succ_le_succ (ih text)

theorem fexLines_chunk (k : ℕ) (text : List Byte) : ∀ buffer ∈ fexLines k text, Chunk buffer := by
  induction k generalizing text with
  | zero => simp [fexLines]
  | succ k ih =>
    cases text with
    | nil => simp [fexLines]
    | cons b text =>
      intro buffer h
      rw [fexLines_cons k (List.cons_ne_nil _ _)] at h
      rcases List.mem_cons.mp h with rfl | h
      · exact ⟨fgets_newline _ _, fgets_length _ _⟩
      · exact ih _ buffer h

theorem not_mem_chomp {s : List Byte} (h : 0x0a#8 ∉ s.dropLast) : 0x0a#8 ∉ chomp s := by
  unfold chomp
  split
  next =>
    split
    · exact fun hmem => h (List.mem_of_mem_dropLast hmem)
    · exact h
  next hlast =>
    intro hmem
    have hne := List.ne_nil_of_mem hmem
    rw [← List.dropLast_concat_getLast hne] at hmem
    rcases List.mem_append.mp hmem with hmem | hmem
    · exact h hmem
    · rw [List.mem_singleton] at hmem
      exact hlast (by rw [List.getLast?_eq_some_getLast hne, ← hmem])

theorem dropLast_subset_of_within {s t : List Byte} (h : s <:+: t) : s.dropLast ⊆ t.dropLast := by
  obtain ⟨pre, post, rfl⟩ := h
  intro b hb
  have hne : s ≠ [] := by
    rintro rfl
    cases hb
  by_cases hpost : post = []
  · rw [hpost, List.append_nil, List.dropLast_append_of_ne_nil hne]
    exact List.mem_append_right _ hb
  · rw [List.dropLast_append_of_ne_nil hpost]
    exact List.mem_append_left _ (List.mem_append_right _ (List.mem_of_mem_dropLast hb))

/-- A part of a line, as it may stand in a string. -/
structure Plain (p : List Byte) : Prop where
  nul : 0#8 ∉ p
  newline : 0x0a#8 ∉ p
  le : p.length ≤ MAX_LINE

theorem Plain.sublist {p q : List Byte} (h : Plain p) (hq : q.Sublist p) : Plain q :=
  ⟨fun hmem => h.nul (hq.subset hmem), fun hmem => h.newline (hq.subset hmem),
    hq.length_le.trans h.le⟩

/-- The trimmed line holds no end of a string, and no end of a line. -/
theorem Chunk.lineText {buffer : List Byte} (h : Chunk buffer) : Plain (lineText buffer) := by
  have hrtrim : Fex.lineText buffer <+: chomp (skipBlank (cstr buffer)) :=
    List.rdropWhile_prefix isBlank _
  have hchomp := hrtrim.trans (isPrefix_chomp _)
  have htake : cstr buffer <+: buffer := List.takeWhile_prefix _
  have hinfix : skipBlank (cstr buffer) <:+: buffer :=
    (List.dropWhile_suffix _).isInfix.trans htake.isInfix
  refine ⟨?_, ?_, ?_⟩
  · intro hmem
    have hcstr : 0#8 ∈ cstr buffer := (List.dropWhile_suffix _).subset (hchomp.subset hmem)
    simpa using List.mem_takeWhile_imp hcstr
  · exact fun hmem => not_mem_chomp (fun hd => h.newline (dropLast_subset_of_within hinfix hd))
      (hrtrim.subset hmem)
  · exact (hchomp.length_le.trans hinfix.length_le).trans h.le

/-- The name that a constructor keeps. -/
theorem keyOk_take (s : List Byte) : KeyOk ((s.takeWhile isNameChar).take 31) :=
  ⟨fun _ hb => List.mem_takeWhile_imp (List.mem_of_mem_take hb), List.length_take_le _ _⟩

theorem Group.val_range {g : Group} (h : g.Ok) : g.val = -1 ∨ (0 ≤ g.val ∧ g.val ≤ 2^31-1) := by
  cases g with
  | default => exact .inl rfl
  | value n => exact .inr h

theorem gpioData_words {groups : List Group} (h : ∀ g ∈ groups, g.Ok) :
    ∀ w ∈ (gpioData (groups.map Group.val)).words,
      w = BitVec.ofInt 32 (-1) ∨ w.toNat < 2^31 := by
  have hword (i : ℕ) : BitVec.ofInt 32 ((groups.map Group.val).getD i (-1)) = BitVec.ofInt 32 (-1) ∨
      (BitVec.ofInt 32 ((groups.map Group.val).getD i (-1))).toNat < 2^31 := by
    rw [List.getD_eq_getElem?_getD]
    cases hg : (groups.map Group.val)[i]? with
    | none => exact .inl rfl
    | some v =>
      rw [Option.getD_some]
      obtain ⟨g, hmem, rfl⟩ := List.mem_map.mp (List.mem_of_getElem? hg)
      rcases Group.val_range (h g hmem) with hv | ⟨h0, h1⟩
      · rw [hv]
        exact .inl rfl
      · rw [BitVec.toNat_ofInt]
        omega
  intro w hw
  simp only [GpioData.words, List.mem_cons, List.not_mem_nil, or_false] at hw
  rcases hw with rfl | rfl | rfl | rfl
  · exact hword 0
  · exact hword 1
  · exact hword 2
  · exact hword 3

theorem LooseGpio.textual (l : LooseGpio) : l.value.Textual := by
  have hpin := l.pin_ok
  refine ⟨?_, ?_, gpioData_words l.groups_ok⟩
  · cases hb : l.bank with
    | letter i =>
      have hi := l.bank_ok i hb
      have hport : (BitVec.ofNat 32 (i+1)).toNat = i+1 := by
        rw [BitVec.toNat_ofNat]
        unfold GPIO_BANK_MAX at hi
        omega
      left
      change 1 ≤ (BitVec.ofNat 32 (i+1)).toNat ∧ (BitVec.ofNat 32 (i+1)).toNat ≤ _
      omega
    | power => exact .inr rfl
  · rw [BitVec.toNat_ofInt]
    omega

/-- What the parser makes of a value that stands in a line. -/
theorem parseValue_textual {pe : ℕ} {p : List Byte} {v : Value} (hp : Plain p)
    (h : parseValue pe p = .ok v) : v.Textual := by
  unfold parseValue at h
  split at h
  next =>
    obtain rfl := Except.ok.inj h
    trivial
  next =>
    split at h
    next =>
      obtain rfl := Except.ok.inj h
      have hinner := hp.sublist ((List.dropLast_sublist _).trans (List.tail_sublist p))
      exact ⟨hinner.nul, hinner.newline, hinner.le⟩
    next =>
      split at h
      next =>
        obtain ⟨l, -, rfl⟩ := gpioValue_sound h
        exact l.textual
      next =>
        split at h
        next =>
          unfold numberValue at h
          dsimp only at h
          split at h
          next => cases h
          next =>
            split at h
            next => cases h
            next =>
              obtain rfl := Except.ok.inj h
              trivial
        next =>
          obtain rfl := Except.ok.inj h
          exact ⟨hp.nul, hp.newline, hp.le⟩

/-- A name and a value of a line, as they are added. -/
theorem addEntry_sound {init script : Script} {last : Section} {s : List Byte} {v : Value}
    (hv : v.Textual)
    (h : addEntry (init ++ [last]) last (s.takeWhile isNameChar) v = .ok script) :
    ∃ e : Entry, e.Textual ∧ e.value = v ∧
      script = init ++ [{ last with entries := last.entries ++ [e] }] := by
  unfold addEntry at h
  split at h
  next entries hnew =>
    obtain rfl := Except.ok.inj h
    obtain ⟨hpos, rfl⟩ := scriptEntryNew_eq_some.mp hnew
    rw [List.dropLast_concat]
    refine ⟨⟨_, v⟩, ⟨keyOk_take s, hpos.imp_left fun hne => ?_, hv⟩, rfl, rfl⟩
    simpa using hne
  next => cases h

/-- What a turn of the loop does to the tree, if it goes on. -/
theorem parseLine_cases {script script' : Script} {line : ℕ} {buffer : List Byte}
    (hline : Chunk buffer) (h : parseLine script line buffer = .ok script') :
    script' = script ∨
    (∃ name, KeyOk name ∧ name ≠ [] ∧ script' = script ++ [⟨name, []⟩]) ∨
    (∃ init last e, script = init ++ [last] ∧ e.Textual ∧
      script' = init ++ [{ last with entries := last.entries ++ [e] }]) := by
  have hplain := hline.lineText
  unfold parseLine at h
  dsimp only at h
  split at h
  next => exact .inl (Except.ok.inj h).symm
  next b s htext =>
    rw [htext] at hplain
    split at h
    next => exact .inl (Except.ok.inj h).symm
    next =>
      split at h
      next =>
        right
        left
        split at h
        next name hname =>
          -- the bracket closes the name
          unfold sectionName at hname
          dsimp only at hname
          split at hname
          next =>
            obtain rfl := Except.ok.inj hname
            unfold addSection scriptSectionNew at h
            split at h
            next sec hsec =>
              split at hsec
              next => cases hsec
              next hne =>
                obtain rfl := Option.some.inj hsec
                exact ⟨_, keyOk_take s, by simpa using hne, (Except.ok.inj h).symm⟩
            next => cases h
          next =>
            split at hname
            · cases hname
            · cases hname
        next => cases h
      next =>
        right
        right
        split at h
        next => cases h
        next last hlast =>
          split at h
          next kv hkv =>
            obtain ⟨init, rfl⟩ := List.getLast?_eq_some_iff.mp hlast
            have hkv' := hkv
            unfold keyValue at hkv
            split at hkv
            next p hp =>
              obtain ⟨v, hv, hpair⟩ := bind_eq_ok hkv
              obtain rfl := Except.ok.inj hpair
              have hvalue : (skipBlank p).Sublist (b :: s) := by
                have hmark : (0x3d#8 :: p).Sublist (b :: s) := by
                  rw [← hp]
                  exact ((List.dropWhile_suffix _).trans (List.dropWhile_suffix _)).sublist
                exact ((List.dropWhile_suffix _).trans (List.suffix_cons _ p)).sublist.trans hmark
              have htextual := parseValue_textual (hplain.sublist hvalue) hv
              obtain ⟨e, he, -, hscript⟩ := addEntry_sound htextual h
              exact ⟨init, last, e, rfl, he, hscript⟩
            next => cases hkv
          next => cases h

end Sound
section Runs

variable {script script' : Script} {line : ℕ}

theorem textual_append {ss : Script} {s : Section} (hss : Textual ss) (hs : s.Textual) :
    Textual (ss ++ [s]) := by
  intro x hx
  rcases List.mem_append.mp hx with hx | hx
  · exact hss x hx
  · obtain rfl := List.mem_singleton.mp hx
    exact hs

theorem parseLine_textual {buffer : List Byte} (hs : Textual script)
    (hline : Chunk buffer) (h : parseLine script line buffer = .ok script') :
    Textual script' := by
  rcases parseLine_cases hline h with rfl | ⟨name, hk, hne, rfl⟩ | ⟨init, last, e, rfl, he, rfl⟩
  · exact hs
  · exact textual_append hs ⟨hk, hne, by simp⟩
  · have hlast := hs last (List.mem_append_right _ List.mem_cons_self)
    refine textual_append (fun s h => hs s (List.mem_append_left _ h))
      ⟨hlast.key, hlast.pos, fun x hx => ?_⟩
    rcases List.mem_append.mp hx with hx | hx
    · exact hlast.entries x hx
    · obtain rfl := List.mem_singleton.mp hx
      exact he

theorem parseLines_textual {buffers : List (List Byte)}
    (hlines : ∀ buffer ∈ buffers, Chunk buffer) (hs : Textual script)
    (h : parseLines line buffers script = .ok script') : Textual script' := by
  induction buffers generalizing line script with
  | nil =>
    obtain rfl := Except.ok.inj h
    exact hs
  | cons buffer buffers ih =>
    rw [parseLines] at h
    obtain ⟨mid, hmid, hrest⟩ := bind_eq_ok h
    exact ih (fun b hb => hlines b (List.mem_cons_of_mem _ hb))
      (parseLine_textual hs (hlines buffer List.mem_cons_self) hmid) hrest

/-- Whatever the parser accepts is textual. -/
theorem parse_textual {text : List Byte} (h : scriptParseFex text = .ok script) : Textual script :=
  parseLines_textual (fexLines_chunk _ text) (fun s hs => by cases hs) h

/-- What a tree holds, in the order in which it was read. -/
inductive Item
  | head (name : List Byte)
  | entry (e : Entry)

def items (script : Script) : List Item :=
  script.flatMap fun s => .head s.name :: s.entries.map .entry

theorem items_append (ss ss' : Script) : items (ss ++ ss') = items ss ++ items ss' :=
  List.flatMap_append

theorem items_last (init : Script) (name : List Byte) (es : List Entry) :
    items (init ++ [⟨name, es⟩]) = items init ++ .head name :: es.map .entry := by
  rw [items_append]
  simp [items]

/-- A line adds to the tree. -/
theorem parseLine_items {buffer : List Byte} (hline : Chunk buffer)
    (h : parseLine script line buffer = .ok script') : items script <+: items script' := by
  rcases parseLine_cases hline h with rfl | ⟨name, -, -, rfl⟩ | ⟨init, last, e, rfl, -, rfl⟩
  · exact List.prefix_refl _
  · rw [items_append]
    exact List.prefix_append _ _
  · obtain ⟨name, es⟩ := last
    refine ⟨[.entry e], ?_⟩
    rw [items_last, items_last, List.map_append, List.append_assoc]
    rfl

theorem parseLines_items {buffers : List (List Byte)}
    (hlines : ∀ buffer ∈ buffers, Chunk buffer)
    (h : parseLines line buffers script = .ok script') : items script <+: items script' := by
  induction buffers generalizing line script with
  | nil =>
    obtain rfl := Except.ok.inj h
    exact List.prefix_refl _
  | cons buffer buffers ih =>
    rw [parseLines] at h
    obtain ⟨mid, hmid, hrest⟩ := bind_eq_ok h
    exact (parseLine_items (hlines buffer List.mem_cons_self) hmid).trans
      (ih (fun b hb => hlines b (List.mem_cons_of_mem _ hb)) hrest)

end Runs

section Long

theorem rtrim_append {pre u : List Byte} {b : Byte} (hb : isBlank b = false) :
    rtrim (pre ++ b :: u) = pre ++ b :: rtrim u := by
  unfold rtrim List.rdropWhile
  rw [List.reverse_append, List.reverse_cons, List.append_assoc, List.dropWhile_append]
  split
  next h =>
    rw [List.isEmpty_iff.mp h, List.singleton_append, List.dropWhile_cons_of_neg (by rw [hb]; decide)]
    simp
  next => simp

/-- A list that is the start of itself behind a byte repeats that byte. -/
theorem repeats_of_start {b : Byte} {r : List Byte} (h : r <+: b :: r) : ∀ x ∈ r, x = b := by
  induction r with
  | nil => simp
  | cons c r ih =>
    obtain ⟨rfl, hr⟩ := List.cons_prefix_cons.mp h
    intro x hx
    rcases List.mem_cons.mp hx with rfl | hx
    · rfl
    · exact ih hr x hx

/-- What is left of a quoted string that is cut off is another string. -/
theorem parseValue_cut {pe : ℕ} {s r : List Byte} (hr : r <+: s) (hlen : 2 ≤ s.length) :
    ∃ t, parseValue pe (0x22#8 :: r) = .ok (.string t) ∧ t ≠ s := by
  have hport : (literal "port:").isPrefixOf (0x22#8 :: r) = false := rfl
  have hnumber : startsNumber (0x22#8 :: r) = false := by
    cases r <;> rfl
  unfold parseValue
  rw [if_neg (List.cons_ne_nil _ _)]
  cases hq : isQuoted (0x22#8 :: r) with
  | true =>
    refine ⟨r.dropLast, rfl, fun heq => ?_⟩
    have hle := hr.length_le
    have := congrArg List.length heq
    rw [List.length_dropLast] at this
    omega
  | false =>
    refine ⟨0x22#8 :: r, ?_, fun heq => ?_⟩
    · simp only [hport, hnumber, Bool.false_eq_true, if_false]
    · -- then the string is one of quotes, and quoted
      subst heq
      have hne : r ≠ [] := by
        rintro rfl
        simp at hlen
      have hlast := repeats_of_start hr _ (List.getLast_mem hne)
      have : isQuoted (0x22#8 :: r) = true := by
        unfold isQuoted
        rw [List.getLast?_cons, List.getLast?_eq_some_getLast hne, hlast]
        simpa using hlen
      rw [this] at hq
      cases hq

theorem entryText_string {e : Entry} {s : List Byte} (he : e.Textual) (hs : e.value = .string s) :
    entryText e = e.name ++ ([0x20#8] ++ 0x3d#8 :: 0x20#8 :: 0x22#8 :: (s ++ [0x22#8])) := by
  have hval := he.value
  rw [hs] at hval
  rw [entryText_eq, hs, valueText, cstr_of_not_mem hval.1]

/-- A string that does not fit is read as another one. -/
theorem parseLine_long {init script' : Script} {last : Section} {line : ℕ} {e : Entry}
    {s : List Byte} (he : e.Textual) (hs : e.value = .string s)
    (hlong : MAX_LINE < (entryText e).length)
    (h : parseLine (init ++ [last]) line ((entryText e).take MAX_LINE) = .ok script') :
    ∃ e', e' ≠ e ∧ script' = init ++ [{ last with entries := last.entries ++ [e'] }] := by
  have hle := he.key.le
  have htext := entryText_string he hs
  have hlen : (entryText e).length = e.name.length+s.length+5 := by
    rw [htext]
    simp only [List.length_append, List.length_cons, List.length_nil]
    omega
  rw [hlen, MAX_LINE] at hlong
  set u := s.take (251-e.name.length)
  have htake : (entryText e).take MAX_LINE =
      e.name ++ ([0x20#8] ++ 0x3d#8 :: 0x20#8 :: 0x22#8 :: u) := by
    have hroom : MAX_LINE-e.name.length = (251-e.name.length)+4 := by
      rw [MAX_LINE]
      omega
    rw [htext, List.take_append, List.take_of_length_le (by rw [MAX_LINE]; omega), hroom]
    congr 1
    rw [List.singleton_append, List.singleton_append]
    simp only [List.take_succ_cons]
    rw [List.take_append_of_le_length (by omega)]
  obtain ⟨blanks, hb, hskip⟩ := skipBlank_entry he.key.chars (0x20#8 :: 0x22#8 :: u)
  have hnul : 0#8 ∉ (entryText e).take MAX_LINE := fun hmem =>
    (lineOk_entryText he).nul (List.mem_of_mem_take hmem)
  have hchomp : chomp (skipBlank ((entryText e).take MAX_LINE)) =
      skipBlank ((entryText e).take MAX_LINE) := by
    unfold chomp
    rw [if_neg]
    intro hlast
    have hmem := (List.dropWhile_suffix isBlank).subset (List.mem_of_getLast? hlast)
    exact (lineOk_entryText he).newline (List.mem_of_mem_take hmem)
  have hline : lineText ((entryText e).take MAX_LINE) =
      e.name ++ (blanks ++ 0x3d#8 :: 0x20#8 :: 0x22#8 :: rtrim u) := by
    have hsplit (v : List Byte) : e.name ++ (blanks ++ 0x3d#8 :: 0x20#8 :: 0x22#8 :: v) =
        (e.name ++ (blanks ++ [0x3d#8, 0x20#8])) ++ 0x22#8 :: v := by simp
    calc lineText ((entryText e).take MAX_LINE)
        = rtrim (skipBlank ((entryText e).take MAX_LINE)) := by
          rw [lineText, cstr_of_not_mem hnul, hchomp]
      _ = rtrim (e.name ++ (blanks ++ 0x3d#8 :: 0x20#8 :: 0x22#8 :: u)) := by rw [htake, hskip]
      _ = e.name ++ (blanks ++ 0x3d#8 :: 0x20#8 :: 0x22#8 :: rtrim u) := by
          rw [hsplit, hsplit, rtrim_append (by decide)]
  have hne : e.name = [] → blanks = [] := by
    intro hnil
    rcases hb with hb | hb
    · exact hb
    · rw [hnil, hb] at hskip
      cases hskip
  have hstart : rtrim u <+: s := by
    have htrim : rtrim u <+: u := List.rdropWhile_prefix _ _
    exact htrim.trans (List.take_prefix _ _)
  obtain ⟨t, hparse, hts⟩ := @parseValue_cut (lineEnd ((entryText e).take MAX_LINE)) s (rtrim u)
    hstart (by omega)
  have hkey := @parseLine_key line init last _ _ _ _ he.key.chars hb hline hne _ hparse
  rw [hkey] at h
  unfold addEntry at h
  rw [scriptEntryNew_eq_some.mpr ⟨.inr ⟨t, rfl⟩, rfl⟩, List.dropLast_concat] at h
  refine ⟨⟨e.name.take 31, .string t⟩, fun heq => ?_, (Except.ok.inj h).symm⟩
  rw [← heq] at hs
  exact hts (Value.string.inj hs)

/-- Only strings do not fit. -/
theorem entryText_fits {e : Entry} (he : e.Textual) (hs : ∀ s, e.value ≠ .string s) :
    (entryText e).length ≤ MAX_LINE := by
  have hle := he.key.le
  have hlen : (entryText e).length = e.name.length+2+(valueText e.name e.value).length := by
    rw [entryText_eq, List.length_append, List.length_append, List.length_singleton,
      List.length_cons]
    omega
  have hint {v : ℤ} (hv : v.natAbs ≤ 2^31) : (intText v).length ≤ 11 := by
    have h10 := numberText_length (r := 10) (n := v.natAbs) (k := 10) (by decide) (by decide)
      (by omega)
    unfold intText
    split
    · rw [List.length_cons]
      omega
    · omega
  have hword (w : BitVec 32) : w.toInt.natAbs ≤ 2^31 := by
    have h1 := BitVec.toInt_lt (x := w)
    have h2 := BitVec.le_toInt (x := w)
    omega
  have hdata (w : BitVec 32) : (dataText w).length ≤ 13 := by
    have := hint (hword w)
    unfold dataText
    split
    · decide
    · rw [List.length_cons, List.length_append, List.length_singleton]
      omega
  have hvalue : (valueText e.name e.value).length ≤ 100 := by
    have hval := he.value
    cases hv : e.value with
    | string s => exact absurd hv (hs s)
    | null => exact Nat.zero_le _
    | single w =>
      have hi := hint (hword w)
      have hw := w.isLt
      have h16 := numberText_length (r := 16) (n := w.toNat) (k := 8) (by decide) (by decide)
        (by omega)
      have htwo : (literal "0x").length = 2 := by decide
      have hpad := padZeros_length (w := (decompileSingleMode e.name).toNat)
        (numberText 16 w.toNat)
      have hmode : (decompileSingleMode e.name).toNat = 0 := by
        unfold decompileSingleMode
        split <;> rfl
      rw [valueText, List.length_cons, singleText]
      split
      · omega
      · split <;> (rw [List.length_append]; omega)
    | gpio port port_num d =>
      rw [hv] at hval
      have h10 := numberText_length (r := 10) (n := port_num.toNat) (k := 3) (by decide)
        (by decide) (by have := hval.2.1; omega)
      have hport : (literal "port:").length = 5 := by decide
      have hpower : (literal "power").length = 5 := by decide
      have hpad := padZeros_length (w := 2) (numberText 10 port_num.toNat)
      have hbank : (if port = 0xffff#32 then literal "power" ++ numberText 10 port_num.toNat
          else [0x50#8, BitVec.ofNat 8 (0x40+port.toNat)] ++
            padZeros 2 (numberText 10 port_num.toNat)).length ≤ 8 := by
        split
        · rw [List.length_append]
          omega
        · rw [List.length_append, hpad, List.length_cons, List.length_singleton]
          omega
      have h1 := hdata d.mul_sel
      have h2 := hdata d.pull
      have h3 := hdata d.drv_level
      have h4 := hdata d.data
      have hwords : (d.words.flatMap dataText).length ≤ 52 := by
        simp only [GpioData.words, List.flatMap_cons, List.flatMap_nil, List.append_nil,
          List.length_append]
        omega
      rw [valueText, List.length_cons, gpioText, List.length_append, List.length_append]
      omega
  rw [hlen, MAX_LINE]
  omega

end Long
section RoundTrip

theorem fgets_take {n : ℕ} {body rest : List Byte} (hn : 0x0a#8 ∉ body) (h : n ≤ body.length) :
    (fgets n (body ++ rest)).1 = body.take n := by
  have hsplit : body ++ rest = body.take n ++ (body.drop n ++ rest) := by
    rw [← List.append_assoc, List.take_append_drop]
  have hnot : 0x0a#8 ∉ body.take n := fun hmem => hn (List.mem_of_mem_take hmem)
  have hfull := fgets_full (body.drop n ++ rest) hnot
  rw [List.length_take, min_eq_left h, ← hsplit] at hfull
  rw [hfull]

/-- A text that starts with a line that is too long is read as another entry. -/
theorem parseLines_long {init script' : Script} {last : Section} {line k : ℕ} {e : Entry}
    {s : List Byte} {rest : List Byte} (he : e.Textual) (hs : e.value = .string s)
    (hlong : MAX_LINE < (entryText e).length)
    (hk : (entryText e ++ 0x0a#8 :: rest).length ≤ k)
    (h : parseLines line (fexLines k (entryText e ++ 0x0a#8 :: rest)) (init ++ [last]) =
      .ok script') :
    ∃ e', e' ≠ e ∧
      items (init ++ [{ last with entries := last.entries ++ [e'] }]) <+: items script' := by
  rw [List.length_append, List.length_cons] at hk
  obtain ⟨k, rfl⟩ := Nat.exists_eq_add_of_le' (by omega : 1 ≤ k)
  have hbuffers := fexLines_chunk (k+1) (entryText e ++ 0x0a#8 :: rest)
  rw [fexLines_cons k (by simp)] at h hbuffers
  rw [fgets_take (lineOk_entryText he).newline hlong.le, parseLines] at h
  obtain ⟨mid, hmid, hrun⟩ := bind_eq_ok h
  obtain ⟨e', hne, rfl⟩ := parseLine_long he hs hlong hmid
  exact ⟨e', hne, parseLines_items (fun b hb => hbuffers b (List.mem_cons_of_mem _ hb)) hrun⟩

/-- If a tree is read that starts with the entries, their lines fit. -/
theorem entries_fit {init script' : Script} {last : Section} {es : List Entry} {line k : ℕ}
    {rest : List Byte} (hes : ∀ e ∈ es, e.Textual)
    (hk : (linesText (es.map entryText) ++ rest).length ≤ k)
    (h : parseLines line (fexLines k (linesText (es.map entryText) ++ rest)) (init ++ [last]) =
      .ok script')
    (hitems : items (init ++ [{ last with entries := last.entries ++ es }]) <+: items script') :
    ∀ e ∈ es, (entryText e).length ≤ MAX_LINE := by
  induction es generalizing last line k with
  | nil => exact fun e he => by cases he
  | cons e es ih =>
    have he := hes e List.mem_cons_self
    rw [List.map_cons, linesText_cons] at hk h
    by_cases hfit : (entryText e).length ≤ MAX_LINE
    · have hread := reads_line (linesText (es.map entryText) ++ rest)
        (lineOk_entryText he).newline hfit
        fun line tail ht => parseLine_entry init last he ht
      obtain ⟨line', k', hk', heq⟩ := hread line k hk
      rw [heq] at h
      have hothers := @ih { last with entries := last.entries ++ [e] } line' k'
        (fun e he => hes e (List.mem_cons_of_mem _ he)) hk' h
        (by rw [List.append_assoc, List.singleton_append]; exact hitems)
      intro x hx
      rcases List.mem_cons.mp hx with rfl | hx
      · exact hfit
      · exact hothers x hx
    · have hstring : ∃ s, e.value = .string s := by
        by_contra hnone
        exact hfit (entryText_fits he fun s hs => hnone ⟨s, hs⟩)
      obtain ⟨s, hs⟩ := hstring
      obtain ⟨e', hne, hitems'⟩ := parseLines_long he hs (Nat.lt_of_not_le hfit) hk h
      -- two different entries would stand at one place
      obtain ⟨name, es₀⟩ := last
      rw [items_last, List.map_append] at hitems hitems'
      set front := items init ++ Item.head name :: es₀.map .entry with hfront
      have hcommon (tail : List Item) :
          items init ++ Item.head name :: (es₀.map .entry ++ tail) = front ++ tail := by
        simp [hfront]
      rw [List.map_cons, hcommon] at hitems hitems'
      obtain ⟨t, ht⟩ := hitems
      obtain ⟨t', ht'⟩ := hitems'
      have hboth := ht.trans ht'.symm
      rw [List.append_assoc front, List.append_assoc front] at hboth
      have hentry := (List.cons.inj (List.append_cancel_left hboth)).1
      exact absurd (Item.entry.inj hentry).symm hne

theorem sections_fit {ss script script' : Script} {line k : ℕ} {rest : List Byte}
    (hs : Textual ss) (hk : (linesText (scriptText ss) ++ rest).length ≤ k)
    (h : parseLines line (fexLines k (linesText (scriptText ss) ++ rest)) script = .ok script')
    (hitems : items (script ++ ss) <+: items script') : Fits ss := by
  induction ss generalizing script line k with
  | nil => exact fun l hl => by cases hl
  | cons s ss ih =>
    have hsec := hs s List.mem_cons_self
    have htext : linesText (scriptText (s :: ss)) ++ rest =
        (0x5b#8 :: (s.name ++ [0x5d#8])) ++ 0x0a#8 ::
          (linesText (s.entries.map entryText) ++ ([] ++ 0x0a#8 ::
            (linesText (scriptText ss) ++ rest))) := by
      simp [linesText, scriptText, sectionText]
    rw [htext] at hk h
    obtain ⟨line₁, k₁, hk₁, heq₁⟩ := reads_header hsec script _ line k hk
    rw [heq₁] at h
    have hfirst : items (script ++ [s]) <+: items script' := by
      refine List.IsPrefix.trans ?_ hitems
      rw [List.append_cons script s ss, items_append (script ++ [s])]
      exact List.prefix_append _ _
    have hentries := entries_fit hsec.entries hk₁ h (by rw [List.nil_append]; exact hfirst)
    -- the whole section fits, and the rest is read behind it
    have hfit : ∀ l ∈ sectionText s, l.length ≤ MAX_LINE := by
      intro l hl
      simp only [sectionText, List.mem_cons, List.mem_append, List.mem_map, List.not_mem_nil,
        or_false] at hl
      rcases hl with rfl | ⟨e, he, rfl⟩ | rfl
      · have := hsec.key.le
        rw [List.length_cons, List.length_append, List.length_singleton, MAX_LINE]
        omega
      · exact hentries e he
      · exact Nat.zero_le _
    have hread := reads_entries script ⟨s.name, []⟩ hsec.entries
      hentries ([] ++ 0x0a#8 :: (linesText (scriptText ss) ++ rest))
    obtain ⟨line₂, k₂, hk₂, heq₂⟩ := hread line₁ k₁ hk₁
    have hblank := reads_line (linesText (scriptText ss) ++ rest) (List.not_mem_nil (a := 0x0a#8))
      (Nat.zero_le _) fun line tail ht => parseLine_empty (script ++ [s]) ht
    obtain ⟨line₃, k₃, hk₃, heq₃⟩ := hblank line₂ k₂ hk₂
    have hothers := ih (fun s hs' => hs s (List.mem_cons_of_mem _ hs')) hk₃
      ((heq₂.trans heq₃).symm.trans h) (by rw [List.append_assoc, List.singleton_append]; exact hitems)
    intro l hl
    rw [scriptText, List.flatMap_cons] at hl
    rcases List.mem_append.mp hl with hl | hl
    · exact hfit l hl
    · exact hothers l hl

/-- The trees that come back from their text: those that a text can give, with lines that fit the
buffer. -/
theorem parse_print_iff (script : Script) :
    scriptParseFex (scriptGenerateFex script) = .ok script ↔ Textual script ∧ Fits script := by
  constructor
  · intro h
    have hs := parse_textual h
    refine ⟨hs, @sections_fit script [] script 1 _ [] hs (le_refl _) ?_ List.prefix_rfl⟩
    rw [List.append_nil]
    exact h
  · rintro ⟨hs, hfit⟩
    exact parse_print hs hfit

/-- The lines of a tree that was read fit, but for those of long strings. -/
theorem fits_iff {script : Script} (hs : Textual script) : Fits script ↔
    ∀ sec ∈ script, ∀ e ∈ sec.entries, ∀ s, e.value = .string s →
      e.name.length+s.length+5 ≤ MAX_LINE := by
  have hlen {e : Entry} {s : List Byte} (he : e.Textual) (hv : e.value = .string s) :
      (entryText e).length = e.name.length+s.length+5 := by
    rw [entryText_string he hv]
    simp only [List.length_append, List.length_cons, List.length_nil]
    omega
  constructor
  · intro hfit sec hsec e he s hv
    rw [← hlen ((hs sec hsec).entries e he) hv]
    refine hfit _ (List.mem_flatMap.mpr ⟨sec, hsec, ?_⟩)
    exact List.mem_cons_of_mem _ (List.mem_append_left _ (List.mem_map_of_mem he))
  · intro hstr l hl
    obtain ⟨sec, hsec, hl⟩ := List.mem_flatMap.mp hl
    have hsec' := hs sec hsec
    simp only [sectionText, List.mem_cons, List.mem_append, List.mem_map, List.not_mem_nil,
      or_false] at hl
    rcases hl with rfl | ⟨e, he, rfl⟩ | rfl
    · have := hsec'.key.le
      rw [List.length_cons, List.length_append, List.length_singleton, MAX_LINE]
      omega
    · have hent := hsec'.entries e he
      by_cases hv : ∃ s, e.value = .string s
      · obtain ⟨s, hv⟩ := hv
        rw [hlen hent hv]
        exact hstr sec hsec e he s hv
      · exact entryText_fits hent fun s h => hv ⟨s, h⟩
    · exact Nat.zero_le _

/-- Printing what was read and reading it again changes nothing, if its strings are short
enough, and only then. -/
theorem print_parsed_iff {text : List Byte} {script : Script} (h : scriptParseFex text = .ok script) :
    scriptParseFex (scriptGenerateFex script) = .ok script ↔
      ∀ sec ∈ script, ∀ e ∈ sec.entries, ∀ s, e.value = .string s →
        e.name.length+s.length+5 ≤ MAX_LINE := by
  have hs := parse_textual h
  rw [parse_print_iff, ← fits_iff hs]
  exact and_iff_right hs

/-- A text for the script: the number is of another base, and the string is quoted. -/
def smallText : List Byte :=
  literal "[pins]\nled = port:PB03<1><default><2><0>\nmode = 0x1f\nname = \"two words\"\n" ++
    literal "free =\n[empty]\n"

theorem smallText_parsed : scriptParseFex smallText = .ok smallScript := by
  decide +kernel

theorem print_parsed_small : (∀ sec ∈ smallScript, ∀ e ∈ sec.entries, ∀ s, e.value = .string s →
    e.name.length+s.length+5 ≤ MAX_LINE) ∧
      scriptParseFex (scriptGenerateFex smallScript) = .ok smallScript := by
  have hfits : ∀ sec ∈ smallScript, ∀ e ∈ sec.entries, ∀ s, e.value = .string s →
      e.name.length+s.length+5 ≤ MAX_LINE := by
    intro sec hsec e he s hs
    simp only [smallScript, List.mem_cons, List.not_mem_nil, or_false] at hsec
    rcases hsec with rfl | rfl
    · simp only [List.mem_cons, List.not_mem_nil, or_false] at he
      rcases he with rfl | rfl | rfl | rfl
      · cases hs
      · cases hs
      · obtain rfl := Value.string.inj hs
        decide
      · cases hs
    · cases he
  exact ⟨hfits, (print_parsed_iff smallText_parsed).mpr hfits⟩

end RoundTrip

end ChipTools.Fex
