import ChipTools.CNumber
import ChipTools.FexScript
import Mathlib.Data.List.DropRight

/-! `script_parse_fex`: the lines of a fex file, one after the other, into a script tree. -/
namespace ChipTools.Fex
open Bytes CNumber

def MAX_LINE : ℕ := 255

def isBlank (b : Byte) : Bool := b = 0x20#8 || b = 9#8

def isDecimal (b : Byte) : Bool := 0x30#8 ≤ b && b ≤ 0x39#8

/-- `isalnum(*p) || *p == '_'`. -/
def isNameChar (b : Byte) : Bool :=
  isDecimal b || (0x41#8 ≤ b && b ≤ 0x5a#8) || (0x61#8 ≤ b && b ≤ 0x7a#8) || b = 0x5f#8

section Lines

/-- `fgets` into a buffer for `n` bytes: what it reads, and the rest of the file. -/
def fgets : ℕ → List Byte → List Byte × List Byte
  | 0, text => ([], text)
  | _+1, [] => ([], [])
  | n+1, b :: text =>
    if b = 0x0a#8 then ([b], text)
    else
      let r := fgets n text
      (b :: r.1, r.2)

/-- What the calls of `fgets` read, with a bound on their number. -/
def fexLines : ℕ → List Byte → List (List Byte)
  | 0, _ => []
  | _+1, [] => []
  | k+1, b :: text =>
    let r := fgets MAX_LINE (b :: text)
    r.1 :: fexLines k r.2

def skipBlank (s : List Byte) : List Byte := s.dropWhile isBlank

/-- The end of the line is cut off. -/
def chomp (s : List Byte) : List Byte :=
  if s.getLast? = some 0x0a#8 then
    if s.dropLast.getLast? = some 0x0d#8 then s.dropLast.dropLast else s.dropLast
  else s

/-- Blanks at the end are cut off. -/
def rtrim (s : List Byte) : List Byte := s.rdropWhile isBlank

/-- The trimmed line. -/
def lineText (buffer : List Byte) : List Byte := rtrim (chomp (skipBlank (cstr buffer)))

/-- The column behind the trimmed line. -/
def lineEnd (buffer : List Byte) : ℕ :=
  (cstr buffer).length-(skipBlank (cstr buffer)).length+(lineText buffer).length+1

end Lines

section Values

/-- The messages of the parser, with the column or the value that they show. -/
inductive FexError
  | invalidChar (col : ℕ)
  | incompleteSection
  | noSection
  | portRange (col : ℕ) (v : ℤ)
  | valueRange (col : ℕ) (v : ℤ)
  | numberRange (v : ℤ)
  | parseError (col : ℕ)
deriving DecidableEq, Repr

/-- Up to `n` groups behind a port: their values, and what is not read. A group that is cut off
ends the loop. -/
def gpioGroups (pe : ℕ) : ℕ → List Byte → Except FexError (List ℤ × List Byte)
  | 0, p => .ok ([], p)
  | n+1, p =>
    if (literal "<default>").isPrefixOf p then do
      let r ← gpioGroups pe n (p.drop 9)
      .ok (-1 :: r.1, r.2)
    else
      match p with
      | 0x3c#8 :: q =>
        let v := strtolDec q
        let endp := (subjectDec q).endp
        if endp = q then .ok ([], q)
        else if v < 0 ∨ 2^31-1 < v then .error (.valueRange (pe-q.length) v)
        else
          match endp with
          | 0x3e#8 :: rest => do
            let r ← gpioGroups pe n rest
            .ok (v :: r.1, r.2)
          | _ => .ok ([], endp)
      | _ => .ok ([], p)

/-- The data words, -1 where there is no group. -/
def gpioData (vs : List ℤ) : GpioData :=
  ⟨.ofInt 32 (vs.getD 0 (-1)), .ofInt 32 (vs.getD 1 (-1)), .ofInt 32 (vs.getD 2 (-1)),
    .ofInt 32 (vs.getD 3 (-1))⟩

/-- The number of a pin with the groups behind it. -/
def gpioPin (pe : ℕ) (port : ℕ) (p : List Byte) : Except FexError Value :=
  let v := strtolDec p
  let endp := (subjectDec p).endp
  if endp = p then .error (.invalidChar (pe-p.length))
  else if v < 0 ∨ 255 < v then .error (.portRange (pe-p.length) v)
  else do
    let r ← gpioGroups pe 4 endp
    if r.2 ≠ [] then .error (.invalidChar (pe-r.2.length))
    else .ok (.gpio (.ofNat 32 port) (.ofInt 32 v) (gpioData r.1))

/-- What is behind `port:`. -/
def gpioValue (pe : ℕ) (p : List Byte) : Except FexError Value :=
  match p with
  | 0x50#8 :: c :: rest =>
    if c < 0x41#8 ∨ BitVec.ofNat 8 (0x41+GPIO_BANK_MAX) < c then .error (.parseError (pe-p.length))
    else gpioPin pe (c.toNat-0x41+1) rest
  | _ =>
    if (literal "power").isPrefixOf p then gpioPin pe 0xffff (p.drop 5)
    else .error (.parseError (pe-p.length))

/-- A number with `strtoll`, base 0. -/
def numberValue (pe : ℕ) (p : List Byte) : Except FexError Value :=
  let v := strtoll p
  let endp := (subject p).endp
  if endp ≠ [] then .error (.invalidChar (pe-endp.length))
  else if 2^32-1 < v then .error (.numberRange v)
  else .ok (.single (.ofInt 32 v))

/-- `isdigit(*p) || (*p == '-' && isdigit(*(p+1)))`. -/
def startsNumber : List Byte → Bool
  | 0x2d#8 :: b :: _ => isDecimal b
  | b :: _ => isDecimal b
  | [] => false

def isQuoted (p : List Byte) : Bool :=
  2 ≤ p.length && p.head? = some 0x22#8 && p.getLast? = some 0x22#8

/-- The value of an entry. One that is neither quoted, nor a port, nor a number is a string. -/
def parseValue (pe : ℕ) (p : List Byte) : Except FexError Value :=
  if p = [] then .ok .null
  else if isQuoted p then .ok (.string p.tail.dropLast)
  else if (literal "port:").isPrefixOf p then gpioValue pe (p.drop 5)
  else if startsNumber p then numberValue pe p
  else .ok (.string p)

end Values

section Parser

/-- Why the parser stops: with an error in a line, or by an assertion on a name. -/
inductive FexStop
  | error (line : ℕ) (e : FexError)
  | aborted (name : List Byte)
deriving DecidableEq, Repr

/-- The name of a section, with the text behind the bracket. -/
def sectionName (pe : ℕ) (s : List Byte) : Except FexError (List Byte) :=
  let p := s.dropWhile isNameChar
  if p = [0x5d#8] then .ok (s.takeWhile isNameChar)
  else if p ≠ [] then .error (.invalidChar (pe-p.length))
  else .error .incompleteSection

/-- The key and the value of an entry. -/
def keyValue (pe : ℕ) (s : List Byte) : Except FexError (List Byte × Value) :=
  match skipBlank (s.dropWhile isNameChar) with
  | 0x3d#8 :: p => do
    let v ← parseValue pe (skipBlank p)
    .ok (s.takeWhile isNameChar, v)
  | p => .error (.invalidChar (pe-p.length))

/-- The last section gets an entry. -/
def addEntry (script : Script) (last : Section) (key : List Byte) (value : Value) :
    Except FexStop Script :=
  match scriptEntryNew last.entries key value with
  | some entries => .ok (script.dropLast ++ [{ last with entries := entries }])
  | none => .error (.aborted key)

def addSection (script : Script) (name : List Byte) : Except FexStop Script :=
  match scriptSectionNew name with
  | some s => .ok (script ++ [s])
  | none => .error (.aborted name)

/-- A turn of the loop. -/
def parseLine (script : Script) (line : ℕ) (buffer : List Byte) : Except FexStop Script :=
  let pe := lineEnd buffer
  match lineText buffer with
  | [] => .ok script
  | b :: s =>
    if b = 0x3b#8 ∨ b = 0x23#8 ∨ b = 0x3a#8 then .ok script
    else if b = 0x5b#8 then
      match sectionName pe s with
      | .ok name => addSection script name
      | .error e => .error (.error line e)
    else
      match script.getLast? with
      | none => .error (.error line .noSection)
      | some last =>
        match keyValue pe (b :: s) with
        | .ok kv => addEntry script last kv.1 kv.2
        | .error e => .error (.error line e)

def parseLines : ℕ → List (List Byte) → Script → Except FexStop Script
  | _, [], script => .ok script
  | line, buffer :: rest, script => do
    let script ← parseLine script line buffer
    parseLines (line+1) rest script

/-- `script_parse_fex` of a file, into an empty tree. -/
def scriptParseFex (text : List Byte) : Except FexStop Script :=
  parseLines 1 (fexLines text.length text) []

end Parser

section Names

/-- A line with an empty name, that goes to a constructor that asserts on it: `[]`, or one that
starts with `=` and has a value that is accepted and is no string. -/
def Nameless (script : Script) (buffer : List Byte) : Prop :=
  lineText buffer = literal "[]" ∨
    (script ≠ [] ∧ ∃ p v, lineText buffer = 0x3d#8 :: p ∧
      parseValue (lineEnd buffer) (skipBlank p) = .ok v ∧ ∀ s, v ≠ .string s)

variable {script : Script} {buffer : List Byte} {line : ℕ}

theorem isPrefix_chomp (s : List Byte) : chomp s <+: s := by
  unfold chomp
  split
  · split
    · exact (List.dropLast_prefix _).trans (List.dropLast_prefix _)
    · exact List.dropLast_prefix _
  · exact List.prefix_refl _

/-- A trimmed line does not start with a blank. -/
theorem lineText_head {b : Byte} {s : List Byte} (h : lineText buffer = b :: s) :
    isBlank b = false := by
  have hpre : b :: s <+: skipBlank (cstr buffer) := by
    rw [← h]
    exact (List.rdropWhile_prefix isBlank _).trans (isPrefix_chomp _)
  obtain ⟨t, ht⟩ := hpre
  have hhead := List.head?_dropWhile_not isBlank (cstr buffer)
  have heq : (cstr buffer).dropWhile isBlank = b :: (s ++ t) := ht.symm
  rw [heq] at hhead
  simpa using hhead

theorem scriptEntryNew_eq_none {entries : List Entry} {name : List Byte} {v : Value} :
    scriptEntryNew entries name v = none ↔ name = [] ∧ ∀ s, v ≠ .string s := by
  cases v with
  | string s => simp [scriptEntryNew]
  | single w => simp [scriptEntryNew]
  | gpio p n d => simp [scriptEntryNew]
  | null => simp [scriptEntryNew]

theorem addEntry_aborted {last : Section} {key name : List Byte} {v : Value} :
    addEntry script last key v = .error (.aborted name) ↔
      key = [] ∧ (∀ s, v ≠ .string s) ∧ name = [] := by
  have hnone := @scriptEntryNew_eq_none last.entries key v
  unfold addEntry
  split
  next entries h =>
    rw [h] at hnone
    simp only [reduceCtorEq, false_iff] at hnone ⊢
    rintro ⟨h1, h2, -⟩
    exact hnone ⟨h1, h2⟩
  next h =>
    obtain ⟨rfl, hv⟩ := hnone.mp h
    simp only [Except.error.injEq, FexStop.aborted.injEq, true_and]
    exact ⟨fun h => ⟨hv, h.symm⟩, fun h => h.2.symm⟩

theorem sectionName_eq_nil {pe : ℕ} {s : List Byte} :
    sectionName pe s = .ok [] ↔ s = [0x5d#8] := by
  constructor
  · intro h
    unfold sectionName at h
    dsimp only at h
    split at h
    next hp =>
      have hname := Except.ok.inj h
      rw [← List.takeWhile_append_dropWhile (p := isNameChar) (l := s), hname, hp]
      rfl
    next => split at h <;> cases h
  · rintro rfl
    rfl

/-- An empty key is before an `=` at the start of the line. -/
theorem keyValue_nil {pe : ℕ} {b : Byte} {s : List Byte} (hb : isBlank b = false) {v : Value} :
    keyValue pe (b :: s) = .ok ([], v) ↔ b = 0x3d#8 ∧ parseValue pe (skipBlank s) = .ok v := by
  constructor
  · intro h
    unfold keyValue at h
    split at h
    next p hp =>
      cases hv : parseValue pe (skipBlank p) with
      | error e =>
        rw [hv] at h
        cases h
      | ok v' =>
        rw [hv] at h
        obtain ⟨hkey, rfl⟩ := Prod.mk.inj (Except.ok.inj h)
        have hdrop : (b :: s).dropWhile isNameChar = b :: s := by
          have hsplit := List.takeWhile_append_dropWhile (p := isNameChar) (l := b :: s)
          rw [hkey] at hsplit
          exact hsplit
        rw [hdrop, skipBlank, List.dropWhile_cons_of_neg (by rw [hb]; decide)] at hp
        obtain ⟨rfl, rfl⟩ := List.cons.inj hp
        exact ⟨rfl, hv⟩
    next => cases h
  · rintro ⟨rfl, hv⟩
    change (do
      let v ← parseValue pe (skipBlank s)
      Except.ok ([], v)) = _
    rw [hv]
    rfl

/-- The lines on which the parser aborts. -/
theorem parseLine_aborted_iff :
    (∃ name, parseLine script line buffer = .error (.aborted name)) ↔ Nameless script buffer := by
  have hlit : literal "[]" = [0x5b#8, 0x5d#8] := by decide
  unfold parseLine Nameless
  rw [hlit]
  cases htext : lineText buffer with
  | nil => simp
  | cons b s =>
    have hblank := lineText_head htext
    dsimp only
    split
    next hskip =>
      simp only [reduceCtorEq, exists_false, false_iff]
      rintro (h | ⟨-, p, v, h, -⟩)
      · obtain ⟨rfl, -⟩ := List.cons.inj h
        exact absurd hskip (by decide)
      · obtain ⟨rfl, -⟩ := List.cons.inj h
        exact absurd hskip (by decide)
    next =>
      split
      next hsec =>
        subst hsec
        have hnil := @sectionName_eq_nil (lineEnd buffer) s
        cases hname : sectionName (lineEnd buffer) s with
        | error e =>
          rw [hname] at hnil
          simp only [reduceCtorEq, false_iff] at hnil
          simp [hnil]
        | ok name =>
          rw [hname, Except.ok.injEq] at hnil
          unfold addSection scriptSectionNew
          by_cases h0 : name = []
          · simp [h0, hnil.mp h0]
          · have hs : s ≠ [0x5d#8] := fun h => h0 (hnil.mpr h)
            simp [h0, hs]
      next hsec =>
        cases hlast : script.getLast? with
        | none =>
          rw [List.getLast?_eq_none_iff] at hlast
          simp [hlast, hsec]
        | some last =>
          have hne : script ≠ [] := by
            rintro rfl
            cases hlast
          cases hkv : keyValue (lineEnd buffer) (b :: s) with
          | error e =>
            simp only [Except.error.injEq, reduceCtorEq, exists_false, List.cons.injEq, hsec,
              false_and, false_or, false_iff]
            rintro ⟨-, p, v, ⟨rfl, rfl⟩, hv, -⟩
            rw [(keyValue_nil hblank).mpr ⟨rfl, hv⟩] at hkv
            cases hkv
          | ok kv =>
            obtain ⟨key, v⟩ := kv
            simp only [addEntry_aborted, List.cons.injEq, hsec, false_and, false_or]
            constructor
            · rintro ⟨name, rfl, hv, -⟩
              obtain ⟨rfl, hparse⟩ := (keyValue_nil hblank).mp hkv
              exact ⟨hne, s, v, ⟨rfl, rfl⟩, hparse, hv⟩
            · rintro ⟨-, p, v', ⟨rfl, rfl⟩, hparse, hv⟩
              rw [(keyValue_nil hblank).mpr ⟨rfl, hparse⟩] at hkv
              obtain ⟨rfl, rfl⟩ := Prod.mk.inj (Except.ok.inj hkv)
              exact ⟨[], rfl, hv, rfl⟩

/-- The run up to a line on which the parser aborts. -/
theorem parseLines_aborted_iff {buffers : List (List Byte)} :
    (∃ name, parseLines line buffers script = .error (.aborted name)) ↔
      ∃ pre buffer post script', buffers = pre ++ buffer :: post ∧
        parseLines line pre script = .ok script' ∧ Nameless script' buffer := by
  induction buffers generalizing line script with
  | nil => simp [parseLines]
  | cons buffer rest ih =>
    have hstep := @parseLine_aborted_iff script buffer line
    cases hline : parseLine script line buffer with
    | error e =>
      have hrun (tail : List (List Byte)) : parseLines line (buffer :: tail) script = .error e := by
        rw [parseLines, hline]
        rfl
      rw [hline] at hstep
      rw [hrun]
      constructor
      · intro h
        exact ⟨[], buffer, rest, script, rfl, rfl, hstep.mp h⟩
      · rintro ⟨pre, buffer', post, script', heq, hok, hname⟩
        cases pre with
        | nil =>
          obtain ⟨rfl, -⟩ := List.cons.inj heq
          obtain rfl := Except.ok.inj hok
          exact hstep.mpr hname
        | cons b pre =>
          obtain ⟨rfl, -⟩ := List.cons.inj heq
          rw [hrun] at hok
          cases hok
    | ok script₁ =>
      have hrun (tail : List (List Byte)) :
          parseLines line (buffer :: tail) script = parseLines (line+1) tail script₁ := by
        rw [parseLines, hline]
        rfl
      rw [hrun, ih]
      constructor
      · rintro ⟨pre, buffer', post, script', rfl, hok, hname⟩
        exact ⟨buffer :: pre, buffer', post, script', rfl, by rw [hrun]; exact hok, hname⟩
      · rintro ⟨pre, buffer', post, script', heq, hok, hname⟩
        cases pre with
        | nil =>
          obtain ⟨rfl, -⟩ := List.cons.inj heq
          obtain rfl := Except.ok.inj hok
          obtain ⟨name, hab⟩ := hstep.mpr hname
          rw [hline] at hab
          cases hab
        | cons b pre =>
          obtain ⟨rfl, rfl⟩ := List.cons.inj heq
          rw [hrun] at hok
          exact ⟨pre, buffer', post, script', rfl, hok, hname⟩

/-- The parser never aborts just when it meets no line with an empty name. -/
theorem parse_never_aborts_iff (text : List Byte) :
    (∀ name, scriptParseFex text ≠ .error (.aborted name)) ↔
      ∀ pre buffer post script, fexLines text.length text = pre ++ buffer :: post →
        parseLines 1 pre [] = .ok script → ¬Nameless script buffer := by
  have h := @parseLines_aborted_iff [] 1 (fexLines text.length text)
  constructor
  · intro hno pre buffer post script hlines hrun hname
    obtain ⟨name, hab⟩ := h.mpr ⟨pre, buffer, post, script, hlines, hrun, hname⟩
    exact hno name hab
  · intro hno name hab
    obtain ⟨pre, buffer, post, script, hlines, hrun, hname⟩ := h.mp ⟨name, hab⟩
    exact hno pre buffer post script hlines hrun hname

/-- The text `[]`. -/
theorem parse_aborts_on_brackets : scriptParseFex (literal "[]") = .error (.aborted []) := by
  decide +kernel

end Names

end ChipTools.Fex
