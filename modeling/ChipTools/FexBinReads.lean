import ChipTools.FexBin

/-! What `script_decompile_bin` reads of a buffer. Only the offset and the length of a section are
compared with its size, so the decoder is safe just on buffers in which everything else fits too. -/
namespace ChipTools.Fex
open Bytes

section Reads

/-- A read of some bytes, or of a string up to its end. -/
inductive Read
  | range (p : ℤ) (n : ℕ)
  | name (p : ℤ)
deriving DecidableEq

/-- Inside of the buffer, a string also inside of its field of 32 bytes. -/
def Read.Inside (m : Mem) (bin_size : ℕ) : Read → Prop
  | range p n => 0 ≤ p ∧ p+n ≤ bin_size
  | name p => 0#8 ∈ bytesAt m p 32 ∧ 0 ≤ p ∧ p+(cstr (bytesAt m p 32)).length+1 ≤ bin_size

variable (m : Mem)

/-- The fields of an entry. -/
def entryData (p : ℤ) : ℤ := int ((wordAt m (p+32)).toInt*4)

def entryType (p : ℤ) : ℕ := (wordAt m (p+36)).toNat/65536%65536

def entryWords (p : ℤ) : ℕ := (wordAt m (p+36)).toNat%65536

/-- The port is looked at and found to be unknown. -/
def badPort (p : ℤ) : Prop :=
  entryWords m p = 6 ∧ wordAt m (entryData m p) ≠ 0xffff#32 ∧
    ((wordAt m (entryData m p)).toInt < 1 ∨
      (GPIO_BANK_MAX : ℤ) < (wordAt m (entryData m p)).toInt)

instance (p : ℤ) : Decidable (badPort m p) := inferInstanceAs (Decidable (_ ∧ _))

/-- The value of an entry. The loop over a string looks at a byte before it compares its place. -/
def valueRead (p : ℤ) : List Read :=
  match entryType m p with
  | 1 => [.range (entryData m p) 4]
  | 2 => [.range (entryData m p) ((cstr (bytesAt m (entryData m p) (entryWords m p*4))).length+1)]
  | 4 => if badPort m p then [.range (entryData m p) 4] else [.range (entryData m p) GPIO_SZ]
  | _ => []

def entryReads (p : ℤ) : List Read :=
  [.range (p+32) 4, .range (p+36) 4, .name p] ++ valueRead m p

def entriesReads (section_name : List Byte) : ℕ → ℤ → List Entry → List Read
  | 0, _, _ => []
  | n+1, p, entries => entryReads m p ++
    match decompileEntry m section_name p entries with
    | .ok entries => entriesReads section_name n (p+ENTRY_SZ) entries
    | .error _ => []

/-- The fields of a section. -/
def sectionLength (p : ℤ) : ℤ := (wordAt m (p+32)).toInt

def sectionOffset (p : ℤ) : ℤ := (wordAt m (p+36)).toInt

variable (bin_size : ℕ)

/-- The two checks of `decompile_section`. -/
def badOffset (p : ℤ) : Prop := sectionOffset m p < 0 ∨ int (bin_size/4 : ℕ) < sectionOffset m p

def badLength (p : ℤ) : Prop := sectionLength m p < 0 ∨
  (int (bin_size-int (4*sectionOffset m p))).tdiv 40 < sectionLength m p

instance (p : ℤ) : Decidable (badOffset m bin_size p) := inferInstanceAs (Decidable (_ ∨ _))

instance (p : ℤ) : Decidable (badLength m bin_size p) := inferInstanceAs (Decidable (_ ∨ _))

def sectionReads (p : ℤ) : List Read :=
  [.range (p+36) 4] ++
    if badOffset m bin_size p then []
    else [.range (p+32) 4] ++
      if badLength m bin_size p then []
      else [.name p] ++
        if nameAt m p = [] then []
        else entriesReads m (nameAt m p) (sectionLength m p).toNat (int (sectionOffset m p*4)) []

def sectionsReads : ℕ → ℤ → List Read
  | 0, _ => []
  | n+1, p => sectionReads m bin_size p ++
    match decompileSection m bin_size p with
    | .ok _ => sectionsReads n (p+SECTION_SZ)
    | .error _ => []

/-- The check of the version. -/
def badVersion : Prop :=
  SCRIPT_BIN_VERSION_LIMIT < (wordAt m 8).toNat ∨ SCRIPT_BIN_VERSION_LIMIT < (wordAt m 12).toNat

instance : Decidable (badVersion m) := inferInstanceAs (Decidable (_ ∨ _))

def scriptReads : List Read :=
  [.range 8 4, .range 12 4] ++
    if badVersion m then []
    else [.range 0 4] ++
      if SCRIPT_BIN_SECTION_LIMIT < (wordAt m 0).toNat then []
      else [.range 4 4] ++ sectionsReads m bin_size (wordAt m 0).toNat HEAD_SZ

/-- All reads are inside of the buffer, and no assertion fails. -/
structure DecodesSafely : Prop where
  inside : ∀ r ∈ scriptReads m bin_size, r.Inside m bin_size
  aborts : ∀ name, scriptDecompileBin m bin_size ≠ .error (.aborted name)

end Reads

section Fits

variable (m : Mem) (bin_size : ℕ)

/-- The value of an entry fits, and its name is one that the constructor takes. -/
def ValueFits (p : ℤ) : Prop :=
  match entryType m p with
  | 1 => 0 ≤ entryData m p ∧ entryData m p+4 ≤ bin_size ∧ m p ≠ 0#8
  | 2 => 0 ≤ entryData m p ∧
    entryData m p+(cstr (bytesAt m (entryData m p) (entryWords m p*4))).length+1 ≤ bin_size
  | 4 =>
    if badPort m p then 0 ≤ entryData m p ∧ entryData m p+4 ≤ bin_size
    else 0 ≤ entryData m p ∧ entryData m p+24 ≤ bin_size ∧ m p ≠ 0#8
  | _ => True

/-- The entries, up to one that ends the decoding. -/
def EntriesFit (section_name : List Byte) : ℕ → ℤ → List Entry → Prop
  | 0, _, _ => True
  | n+1, p, entries => 0#8 ∈ bytesAt m p 32 ∧ ValueFits m bin_size p ∧
    ∀ entries', decompileEntry m section_name p entries = .ok entries' →
      EntriesFit section_name n (p+ENTRY_SZ) entries'

/-- A section: its header is in the buffer, and if it passes the checks, it has a name, the place of
its entries does not wrap around, and the entries fit. -/
def SectionFits (p : ℤ) : Prop :=
  p+40 ≤ bin_size ∧ (¬badOffset m bin_size p → ¬badLength m bin_size p →
    m p ≠ 0#8 ∧ 0#8 ∈ bytesAt m p 32 ∧
    (0 < sectionLength m p → 0 ≤ int (sectionOffset m p*4)) ∧
    EntriesFit m bin_size (nameAt m p) (sectionLength m p).toNat (int (sectionOffset m p*4)) [])

/-- The sections, up to one that ends the decoding. -/
def SectionsFit : ℕ → ℤ → Prop
  | 0, _ => True
  | n+1, p => SectionFits m bin_size p ∧
    ∀ s, decompileSection m bin_size p = .ok s → SectionsFit n (p+SECTION_SZ)

/-- A buffer with room for the head, in which the sections fit. -/
def ScriptFits : Prop :=
  16 ≤ bin_size ∧ (¬badVersion m → (wordAt m 0).toNat ≤ SCRIPT_BIN_SECTION_LIMIT →
    SectionsFit m bin_size (wordAt m 0).toNat HEAD_SZ)

end Fits

section Entries

variable {m : Mem} {bin_size : ℕ} {p : ℤ} {section_name : List Byte} {entries : List Entry}

theorem nameAt_eq_nil : nameAt m p = [] ↔ m p = 0#8 := by
  have hcons : bytesAt m p 31 = m (p+(0 : ℕ)) :: ((List.range 30).map fun i => m (p+(i+1 : ℕ))) := by
    unfold bytesAt
    rw [List.range_succ_eq_map, List.map_cons, List.map_map]
    rfl
  rw [nameAt, hcons, cstr, List.takeWhile_cons]
  simp

/-- The entries on which a constructor aborts. -/
theorem decompileEntry_aborted :
    (∃ name, decompileEntry m section_name p entries = .error (.aborted name)) ↔
      m p = 0#8 ∧ (entryType m p = 1 ∨ (entryType m p = 4 ∧ ¬badPort m p)) := by
  have ht : (wordAt m (p+36)).toNat/65536%65536 = entryType m p := rfl
  have hb : ((wordAt m (p+36)).toNat%65536 = 6 ∧
      wordAt m (int ((wordAt m (p+32)).toInt*4)) ≠ 65535#32 ∧
      ((wordAt m (int ((wordAt m (p+32)).toInt*4))).toInt < 1 ∨
        (GPIO_BANK_MAX : ℤ) < (wordAt m (int ((wordAt m (p+32)).toInt*4))).toInt)) = badPort m p := rfl
  rw [← nameAt_eq_nil]
  unfold decompileEntry
  simp only [ht, hb, scriptEntryNew]
  by_cases h0 : nameAt m p = []
  · simp only [h0, if_true, true_and]
    split
    next h => simp [h]
    next h => simp [h]
    next h =>
      by_cases hport : badPort m p
      · simp [h, hport]
      · simp [h, hport]
    next h => simp [h]
    next h1 _ h4 _ => simp [show entryType m p ≠ 1 from h1, show entryType m p ≠ 4 from h4]
  · simp only [h0, if_false, false_and, iff_false, not_exists]
    intro name
    split
    next h => simp
    next h => simp
    next h => split <;> simp
    next h => simp
    next => simp

/-- The name of an entry or a section whose header is in the buffer. -/
theorem name_inside (h0 : 0 ≤ p) (hp : p+40 ≤ bin_size) :
    (Read.name p).Inside m bin_size ↔ 0#8 ∈ bytesAt m p 32 := by
  refine ⟨fun h => h.1, fun h => ⟨h, h0, ?_⟩⟩
  have hlen : (bytesAt m p 32).length = 32 := by simp [bytesAt]
  have hle : (cstr (bytesAt m p 32)).length ≤ 32 := by
    rw [← hlen]
    exact (List.takeWhile_sublist _).length_le
  omega

/-- An entry whose header is in the buffer. -/
theorem entry_fits_iff (h0 : 0 ≤ p) (hp : p+40 ≤ bin_size) :
    ((∀ r ∈ entryReads m p, r.Inside m bin_size) ∧
        ¬∃ name, decompileEntry m section_name p entries = .error (.aborted name)) ↔
      0#8 ∈ bytesAt m p 32 ∧ ValueFits m bin_size p := by
  have hfield (k : ℕ) (hk : k+4 ≤ 40) : (Read.range (p+k) 4).Inside m bin_size :=
    ⟨by omega, by push_cast; omega⟩
  have hreads : (∀ r ∈ entryReads m p, r.Inside m bin_size) ↔
      0#8 ∈ bytesAt m p 32 ∧ ∀ r ∈ valueRead m p, r.Inside m bin_size := by
    unfold entryReads
    simp only [List.cons_append, List.nil_append, List.forall_mem_cons]
    rw [name_inside h0 hp]
    exact ⟨fun h => h.2.2, fun h => ⟨hfield 32 (by decide), hfield 36 (by decide), h⟩⟩
  rw [hreads, decompileEntry_aborted, and_assoc]
  refine and_congr_right fun _ => ?_
  unfold valueRead ValueFits
  split
  next h => simp [h, Read.Inside, and_assoc]
  next h => simp [h, Read.Inside, Int.add_assoc]
  next h =>
    by_cases hport : badPort m p
    · simp [h, hport, Read.Inside]
    · simp [h, hport, Read.Inside, GPIO_SZ, and_assoc]
  next h1 _ h4 => simp [show entryType m p ≠ 1 from h1, show entryType m p ≠ 4 from h4]

/-- The entries of a section whose headers are in the buffer. -/
theorem entries_fit_iff {n : ℕ} (h0 : 0 ≤ p) (hp : p+40*n ≤ bin_size) :
    ((∀ r ∈ entriesReads m section_name n p entries, r.Inside m bin_size) ∧
        ¬∃ name, decompileEntries m section_name n p entries = .error (.aborted name)) ↔
      EntriesFit m bin_size section_name n p entries := by
  induction n generalizing p entries with
  | zero => simp [entriesReads, decompileEntries, EntriesFit]
  | succ n ih =>
    have hentry := @entry_fits_iff m
      bin_size _ section_name entries h0 (by push_cast at hp; omega)
    rw [entriesReads, decompileEntries, EntriesFit, List.forall_mem_append, ← and_assoc, ← hentry]
    cases hrun : decompileEntry m section_name p entries with
    | error e => simp
    | ok entries' =>
      have hrec := @ih (p+ENTRY_SZ) entries'
        (by unfold ENTRY_SZ; omega) (by unfold ENTRY_SZ; push_cast at hp ⊢; omega)
      simp only [reduceCtorEq, exists_false, not_false_eq_true, and_true, Except.ok.injEq,
        forall_eq']
      rw [← hrec, and_assoc]

end Entries

section Sections

variable {m : Mem} {bin_size : ℕ} {p : ℤ}

theorem int_le {x : ℤ} (h : 0 ≤ x) : int x ≤ x := by
  unfold int
  rw [BitVec.toInt_ofInt, Int.bmod_def]
  split <;> omega

theorem int_sub_int (x y : ℤ) : int (x-int y) = int (x-y) := by
  unfold int
  rw [BitVec.toInt_ofInt, BitVec.toInt_ofInt, BitVec.toInt_ofInt, Int.sub_bmod_bmod]

/-- What the two checks of a section say: the entries end in the buffer. -/
theorem entries_inside (ho : ¬badOffset m bin_size p) (hl : ¬badLength m bin_size p) :
    int (sectionOffset m p*4)+40*(sectionLength m p).toNat ≤ bin_size := by
  unfold badOffset at ho
  unfold badLength at hl
  rw [not_or, not_lt, not_lt] at ho hl
  rw [int_sub_int] at hl
  have hquarter := int_le (x := (bin_size/4 : ℕ)) (by omega)
  have hrest := int_le (x := bin_size-4*sectionOffset m p) (by omega)
  have hstart := int_le (x := sectionOffset m p*4) (by omega)
  generalize int (bin_size-4*sectionOffset m p) = size at hl hrest
  have hlen : 40*sectionLength m p ≤ max size 0 := by
    by_cases hneg : 0 ≤ size
    · have hdiv := hl.2
      rw [Int.tdiv_eq_ediv_of_nonneg hneg] at hdiv
      omega
    · have hdiv : 0 ≤ (-size).tdiv 40 := Int.tdiv_nonneg (by omega) (by decide)
      rw [Int.neg_tdiv] at hdiv
      omega
  omega

/-- The three outcomes of the checks and the constructor in a section. -/
theorem decompileSection_cases :
    (badOffset m bin_size p ∧
        decompileSection m bin_size p = .error (.sectionOffset (sectionOffset m p))) ∨
      (¬badOffset m bin_size p ∧ badLength m bin_size p ∧
        decompileSection m bin_size p = .error (.sectionLength (sectionLength m p))) ∨
      (¬badOffset m bin_size p ∧ ¬badLength m bin_size p ∧ nameAt m p = [] ∧
        decompileSection m bin_size p = .error (.aborted [])) ∨
      (¬badOffset m bin_size p ∧ ¬badLength m bin_size p ∧ nameAt m p ≠ [] ∧
        ∀ e, decompileSection m bin_size p = .error e ↔
          decompileEntries m (nameAt m p) (sectionLength m p).toNat
            (int (sectionOffset m p*4)) [] = .error e) := by
  unfold decompileSection
  by_cases hbo : badOffset m bin_size p
  · exact Or.inl ⟨hbo, if_pos hbo⟩
  by_cases hbl : badLength m bin_size p
  · exact Or.inr (Or.inl ⟨hbo, hbl, (if_neg hbo).trans (if_pos hbl)⟩)
  by_cases hn : nameAt m p = []
  · refine Or.inr (Or.inr (Or.inl ⟨hbo, hbl, hn, (if_neg hbo).trans ((if_neg hbl).trans ?_)⟩))
    rw [hn]
    rfl
  · refine Or.inr (Or.inr (Or.inr ⟨hbo, hbl, hn, ?_⟩))
    intro e
    -- both checks are passed, and the section has a name
    refine Iff.trans (Eq.congr_left ((if_neg hbo).trans (if_neg hbl))) ?_
    rw [scriptSectionNew, if_neg hn]
    unfold sectionLength sectionOffset
    dsimp only
    cases decompileEntries m (nameAt m p) (wordAt m (p+32)).toInt.toNat
      (int ((wordAt m (p+36)).toInt*4)) [] with
    | ok entries => simp
    | error e' => simp

/-- The entries of a section that passes the checks. A start before the buffer shows up when the
name of the first entry is read. -/
theorem section_entries_fit_iff {section_name : List Byte} (ho : ¬badOffset m bin_size p)
    (hl : ¬badLength m bin_size p) :
    ((∀ r ∈ entriesReads m section_name (sectionLength m p).toNat (int (sectionOffset m p*4)) [],
        r.Inside m bin_size) ∧
        ¬∃ name, decompileEntries m section_name (sectionLength m p).toNat
          (int (sectionOffset m p*4)) [] = .error (.aborted name)) ↔
      (0 < sectionLength m p → 0 ≤ int (sectionOffset m p*4)) ∧
        EntriesFit m bin_size section_name (sectionLength m p).toNat
          (int (sectionOffset m p*4)) [] := by
  have hend := entries_inside ho hl
  by_cases hstart : 0 ≤ int (sectionOffset m p*4)
  · rw [entries_fit_iff hstart hend]
    simp [hstart]
  by_cases hpos : 0 < sectionLength m p
  · obtain ⟨n, hn⟩ : ∃ n, (sectionLength m p).toNat = n+1 :=
      ⟨(sectionLength m p).toNat-1, by omega⟩
    have hfirst : Read.name (int (sectionOffset m p*4)) ∈
        entriesReads m section_name (n+1) (int (sectionOffset m p*4)) [] := by
      simp [entriesReads, entryReads]
    rw [hn]
    refine ⟨fun h => absurd (h.1 _ hfirst).2.1 hstart, fun h => absurd (h.1 hpos) hstart⟩
  · have hn : (sectionLength m p).toNat = 0 := by omega
    rw [hn]
    simp [entriesReads, decompileEntries, EntriesFit, hpos]

theorem section_fits_iff (h0 : 0 ≤ p) :
    ((∀ r ∈ sectionReads m bin_size p, r.Inside m bin_size) ∧
        ¬∃ name, decompileSection m bin_size p = .error (.aborted name)) ↔
      SectionFits m bin_size p := by
  have hoffset : (Read.range (p+36) 4).Inside m bin_size ↔ p+40 ≤ bin_size := by
    simp only [Read.Inside]
    omega
  have hlength (hp : p+40 ≤ bin_size) : (Read.range (p+32) 4).Inside m bin_size :=
    ⟨by omega, by omega⟩
  unfold sectionReads SectionFits
  rw [List.forall_mem_append, List.forall_mem_singleton, hoffset, and_assoc]
  refine and_congr_right fun hp => ?_
  obtain ⟨ho, hrun⟩ | ⟨ho, hl, hrun⟩ | ⟨ho, hl, hn, hrun⟩ | ⟨ho, hl, hn, hrun⟩ :=
    @decompileSection_cases m bin_size p
  · simp [ho, hrun]
  · simp [ho, hl, hrun, hlength hp]
  · simp [ho, hl, hrun, nameAt_eq_nil.1 hn]
  · have hname := hn
    rw [Ne, nameAt_eq_nil] at hname
    rw [if_neg ho, if_neg hl, if_neg hn, List.forall_mem_append, List.forall_mem_singleton,
      List.forall_mem_append, List.forall_mem_singleton, name_inside h0 hp]
    simp only [hlength hp, hrun, ho, hl, hname, true_and, not_false_eq_true, forall_const, ne_eq]
    rw [and_assoc, section_entries_fit_iff ho hl]

/-- The loop over the sections. -/
theorem sections_fit_iff {n : ℕ} {script : Script} (h0 : 0 ≤ p) :
    ((∀ r ∈ sectionsReads m bin_size n p, r.Inside m bin_size) ∧
        ¬∃ name, decompileSections m bin_size n p script = .error (.aborted name)) ↔
      SectionsFit m bin_size n p := by
  induction n generalizing p script with
  | zero => simp [sectionsReads, decompileSections, SectionsFit]
  | succ n ih =>
    rw [sectionsReads, decompileSections, SectionsFit, List.forall_mem_append,
      ← section_fits_iff h0]
    cases hrun : decompileSection m bin_size p with
    | error e => simp
    | ok s =>
      have hrec := @ih (p+SECTION_SZ) (script ++ [s]) (by unfold SECTION_SZ; omega)
      simp only [reduceCtorEq, exists_false, not_false_eq_true, and_true, Except.ok.injEq,
        forall_eq']
      rw [← hrec, and_assoc]

end Sections

section Script

variable (m : Mem) (bin_size : ℕ)

/-- The decoder reads inside of the buffer and aborts nowhere just on the buffers that have room for
the head and in which every section that it gets to fits. -/
theorem decodesSafely_iff : DecodesSafely m bin_size ↔ ScriptFits m bin_size := by
  have hdef : DecodesSafely m bin_size ↔ (∀ r ∈ scriptReads m bin_size, r.Inside m bin_size) ∧
      ¬∃ name, scriptDecompileBin m bin_size = .error (.aborted name) :=
    ⟨fun h => ⟨h.inside, fun ⟨name, hrun⟩ => h.aborts name hrun⟩,
      fun h => ⟨h.1, fun name hrun => h.2 ⟨name, hrun⟩⟩⟩
  have hhead : ((Read.range 8 4).Inside m bin_size ∧ (Read.range 12 4).Inside m bin_size) ↔
      16 ≤ bin_size := by
    simp only [Read.Inside]
    omega
  have hrange (k : ℕ) (hk : k+4 ≤ 16) (h : 16 ≤ bin_size) :
      (Read.range k 4).Inside m bin_size := ⟨by omega, by push_cast; omega⟩
  have heq : scriptDecompileBin m bin_size =
      if badVersion m then .error (.version (wordAt m 8) (wordAt m 12))
      else if SCRIPT_BIN_SECTION_LIMIT < (wordAt m 0).toNat then
        .error (.tooManySections (wordAt m 0))
      else decompileSections m bin_size (wordAt m 0).toNat HEAD_SZ [] := rfl
  rw [hdef, heq, scriptReads, ScriptFits, List.forall_mem_append, List.forall_mem_cons,
    List.forall_mem_singleton, hhead, and_assoc]
  refine and_congr_right fun h16 => ?_
  by_cases hv : badVersion m
  · simp [hv]
  by_cases hs : SCRIPT_BIN_SECTION_LIMIT < (wordAt m 0).toNat
  · have hcount : ¬(wordAt m 0).toNat ≤ SCRIPT_BIN_SECTION_LIMIT := by omega
    simp only [if_neg hv, if_pos hs, hcount, List.append_nil, List.forall_mem_singleton]
    simp [show (Read.range 0 4).Inside m bin_size from hrange 0 (by decide) h16]
  · have hcount : (wordAt m 0).toNat ≤ SCRIPT_BIN_SECTION_LIMIT := by omega
    have h0 : (Read.range 0 4).Inside m bin_size := hrange 0 (by decide) h16
    have h4 : (Read.range 4 4).Inside m bin_size := hrange 4 (by decide) h16
    rw [if_neg hv, if_neg hs, if_neg hv, if_neg hs, List.forall_mem_append,
      List.forall_mem_append, List.forall_mem_singleton, List.forall_mem_singleton]
    simp only [h0, h4, hv, hcount, true_and, not_false_eq_true, forall_const]
    exact sections_fit_iff (by decide)

/-- A script with one section `s` and in it one string entry `k` of one word, which ends the
buffer. -/
def stringAtEnd : List Byte :=
  le 4 1 ++ (le 4 100 ++ (le 4 1 ++ (le 4 2 ++
    (padName [115#8] ++ (le 4 1 ++ (le 4 14 ++
      (padName [107#8] ++ (le 4 24 ++ (le 4 0x20001 ++ [97#8, 98#8, 99#8, 100#8])))))))))

/-- The decoder takes this script, and looks at the byte after it. -/
theorem stringAtEnd_reads_outside :
    stringAtEnd.length = 100 ∧
      (scriptDecompileBin (fun p => stringAtEnd.getD p.toNat 0#8) 100).toOption =
        some [⟨[115#8], [⟨[107#8], .string [97#8, 98#8, 99#8, 100#8]⟩]⟩] ∧
      ¬DecodesSafely (fun p => stringAtEnd.getD p.toNat 0#8) 100 := by
  refine ⟨by decide +kernel, by decide +kernel, fun h => ?_⟩
  have hread : Read.range 96 5 ∈ scriptReads (fun p => stringAtEnd.getD p.toNat 0#8) 100 := by
    decide +kernel
  have hin := (h.inside _ hread).2
  omega

end Script

end ChipTools.Fex
