import ChipTools.FexBin
import ChipTools.FexPrint

/-! `fexc` from a text to the binary format and back: which of the trees that `script_parse_fex`
accepts `script_decompile_bin` gives back. -/
namespace ChipTools.Fex
open Bytes

/-- The entry is no pin of the bank that the parser takes and the decompiler does not. -/
def Entry.Known (e : Entry) : Prop :=
  ∀ port port_num d, e.value = .gpio port port_num d → port.toNat ≠ GPIO_BANK_MAX+1

section Entries

variable {m : Mem} {buf : ℕ → Byte} {N p d : ℕ}

theorem KeyOk.nul {name : List Byte} (h : KeyOk name) : 0#8 ∉ name :=
  h.shown.not_mem (by decide)

theorem KeyOk.nameOk {name : List Byte} (h : KeyOk name) (hpos : name ≠ []) : NameOk name :=
  ⟨hpos, h.le, h.nul⟩

/-- The strings of a text are far below the limit of the format. -/
theorem words_textual {s : List Byte} (h : (Value.string s).Textual) : words s.length ≤ 65535 := by
  have := h.2.2
  rw [MAX_LINE] at this
  unfold words
  omega

theorem Entry.Textual.size_lt {e : Entry} (he : e.Textual) : e.value.size/4 < 65536 := by
  have hval := he.value
  cases hv : e.value with
  | string s =>
    rw [hv] at hval
    have := words_textual hval
    change words s.length*4/4 < 65536
    omega
  | single w => simp
  | gpio port port_num d => simp
  | null => simp

/-- A name of its field, also an empty one. -/
theorem nameAt_key (h : Holds m buf N) {name rest : List Byte} (hk : KeyOk name)
    (hr : readBytes buf p 40 = padName name ++ rest) (hN : p+40 ≤ N) : nameAt m p = name := by
  by_cases hpos : name = []
  · subst hpos
    have h31 := readBytes_sub buf (o := 0) (k := 31) (n := 40) p (by omega)
    rw [Nat.add_zero, hr, List.drop_zero] at h31
    rw [nameAt, h.bytesAt rfl (by omega), h31]
    rfl
  · exact h.nameAt (hk.nameOk hpos) hr hN rfl

/-- The fields of an entry's header. -/
theorem entryAt_fields (h : Holds m buf N) {e : Entry} (he : EntryAt buf p d e) (ht : e.Textual)
    (hp : p+40 ≤ N) (hd : d ≤ N) (hN : N < 2^31) (hmod : d%4 = 0) :
    nameAt m p = e.name ∧ int ((wordAt m ((p : ℤ)+32)).toInt*4) = d ∧
      (wordAt m ((p : ℤ)+36)).toNat/65536%65536 = e.value.type ∧
      (wordAt m ((p : ℤ)+36)).toNat%65536 = e.value.size/4 := by
  have hh := he.header
  have hpl := padName_length ht.key.le
  have hoff : wordAt m ((p : ℤ)+32) = BitVec.ofNat 32 (d/4) := h.wordAt hh hp hpl (by omega)
  have hpat : wordAt m ((p : ℤ)+36) = BitVec.ofNat 32 (e.value.type*65536 ||| e.value.size/4) := by
    have hh' := hh
    rw [Entry.record, ← List.append_assoc, ← List.append_nil (le 4 (_ ||| _))] at hh'
    exact h.wordAt (o := 36) hh' hp (by simp [hpl]) (by omega)
  obtain ⟨htype, hwords⟩ := pattern_type e.value ht.size_lt
  refine ⟨nameAt_key h ht.key hh hp, ?_, ?_, ?_⟩
  · rw [hoff, toInt_ofNat_of_lt (by omega), int_of_lt (by omega) (by omega)]
    omega
  · rw [hpat, htype]
  · rw [hpat, hwords]

/-- A string without a name comes back, as the constructor does not check the name. -/
theorem decompileEntry_unnamed (h : Holds m buf N) {s : List Byte}
    (he : EntryAt buf p d ⟨[], .string s⟩) (ht : Entry.Textual ⟨[], .string s⟩) (hp : p+40 ≤ N)
    (hd : d+(Value.string s).size ≤ N) (hN : N < 2^31) (hmod : d%4 = 0)
    (section_name : List Byte) (entries : List Entry) :
    decompileEntry m section_name p entries = .ok (entries ++ [⟨[], .string s⟩]) := by
  obtain ⟨hname, hdata, htype, hwords⟩ := entryAt_fields h he ht hp (by omega) hN hmod
  have hsize : (Value.string s).size/4*4 = (Value.string s).size := by
    have := size_mod (.string s)
    omega
  have hstring : cstr (bytesAt m d ((Value.string s).size/4*4)) = s := by
    rw [hsize, h.bytesAt rfl hd, he.data, Value.data, cstr_pad ht.value.1]
  rw [decompileEntry, hname, hdata, htype, hwords]
  simp only [Value.type, hstring]
  rfl

/-- A pin of the bank behind the last one stops the decompiler. -/
theorem decompileEntry_unknown (h : Holds m buf N) {e : Entry} (he : EntryAt buf p d e)
    (ht : e.Textual) (hunknown : ¬e.Known) (hp : p+40 ≤ N) (hd : d+e.value.size ≤ N)
    (hN : N < 2^31) (hmod : d%4 = 0) (section_name : List Byte) (entries : List Entry) :
    decompileEntry m section_name p entries =
      .error (.unknownPort section_name e.name (GPIO_BANK_MAX+1)) := by
  obtain ⟨hname, hdata, htype, hwords⟩ := entryAt_fields h he ht hp (by omega) hN hmod
  simp only [Entry.Known, not_forall, not_not] at hunknown
  obtain ⟨port, port_num, data, hv, hport⟩ := hunknown
  have hbytes := he.data
  rw [hv] at htype hwords hbytes hd
  rw [gpio_size] at hbytes hd hwords
  have hword : wordAt m d = port := by
    have hw := @Holds.wordAt _ _ _ _ h _ 0 [] _ _ hbytes hd rfl d (by omega)
    rwa [BitVec.ofNat_toNat, BitVec.setWidth_eq] at hw
  have hint : port.toInt = 15 := by
    rw [BitVec.toInt_eq_toNat_of_lt (by rw [hport]; decide), hport]
    rfl
  have hne : port ≠ 0xffff#32 := by
    intro heq
    rw [heq] at hport
    exact absurd hport (by decide)
  rw [decompileEntry, hname, hdata, htype, hwords]
  simp only [Value.type, hword, hint]
  rw [if_pos ⟨by decide, hne, by decide⟩]
  rfl

/-- What the decompiler makes of an entry. -/
theorem decompileEntry_iff (h : Holds m buf N) {e : Entry} (he : EntryAt buf p d e) (ht : e.Textual)
    (hp : p+40 ≤ N) (hd : d+e.value.size ≤ N) (hN : N < 2^31) (hmod : d%4 = 0)
    (section_name : List Byte) (entries es : List Entry) :
    decompileEntry m section_name p entries = .ok es ↔ e.Known ∧ es = entries ++ [e] := by
  by_cases hknown : e.Known
  · have hrun : decompileEntry m section_name p entries = .ok (entries ++ [e]) := by
      by_cases hpos : e.name = []
      · obtain ⟨name, v⟩ := e
        obtain rfl : name = [] := hpos
        obtain ⟨s, hs⟩ := ht.pos.resolve_left (by simp)
        obtain rfl : v = .string s := hs
        exact decompileEntry_unnamed h he ht hp hd hN hmod section_name entries
      · have hval := ht.value
        have hok : e.value.Ok := by
          cases hv : e.value with
          | string s =>
            rw [hv] at hval
            exact ⟨hval.1, words_textual hval⟩
          | gpio port port_num data =>
            rw [hv] at hval
            have hne := hknown port port_num data hv
            exact hval.1.imp_left fun hrange => ⟨hrange.1, by omega⟩
          | single w => trivial
          | null => trivial
        exact decompileEntry_spec h he ⟨ht.key.nameOk hpos, hok⟩ hp hd hN hmod section_name entries
    rw [hrun, Except.ok.injEq]
    exact ⟨fun heq => ⟨hknown, heq.symm⟩, fun heq => heq.2.symm⟩
  · rw [decompileEntry_unknown h he ht hknown hp hd hN hmod]
    simp [hknown]

theorem decompileEntries_iff (h : Holds m buf N) (hN : N < 2^31) (section_name : List Byte)
    (es entries es' : List Entry) (hes : EntriesAt buf p d es) (ht : ∀ e ∈ es, e.Textual)
    (hp : p+40*es.length ≤ N) (hd : d+dataSize es ≤ N) (hmod : d%4 = 0) :
    decompileEntries m section_name es.length p entries = .ok es' ↔
      (∀ e ∈ es, e.Known) ∧ es' = entries ++ es := by
  induction es generalizing p d entries with
  | nil => simp [decompileEntries, eq_comm]
  | cons e es ih =>
    have hs : dataSize (e :: es) = e.value.size+dataSize es := rfl
    rw [List.length_cons] at hp
    have hsz := size_mod e.value
    have hstep := decompileEntry_iff h hes.1 (ht e List.mem_cons_self) (by omega) (by omega) hN hmod
      section_name entries
    have hcast : ((p+40 : ℕ) : ℤ) = (p : ℤ)+ENTRY_SZ := by
      rw [ENTRY_SZ]
      omega
    rw [List.length_cons, decompileEntries]
    cases hfirst : decompileEntry m section_name p entries with
    | error x =>
      have hknown : ¬e.Known := fun hk => by
        have := (hstep (entries ++ [e])).mpr ⟨hk, rfl⟩
        rw [hfirst] at this
        cases this
      simp [hknown]
    | ok es₁ =>
      obtain ⟨hk, rfl⟩ := (hstep es₁).mp hfirst
      have hrest := ih (entries ++ [e]) hes.2 (fun e he => ht e (List.mem_cons_of_mem _ he))
        (by omega) (by omega) (by omega)
      dsimp only
      rw [← hcast, hrest, List.append_assoc, List.singleton_append, List.forall_mem_cons,
        and_iff_right hk]

end Entries

section Sections

variable {m : Mem} {buf : ℕ → Byte} {N p d : ℕ}

theorem decompileSection_iff (s' : Section) (h : Holds m buf N) (hN : N < 2^31) {s : Section}
    {e : ℕ} (hs : SectionAt buf p e d s) (ht : s.Textual) (hp : p+40 ≤ N)
    (he : e+40*s.entries.length ≤ N) (hd : d+dataSize s.entries ≤ N) (hemod : e%4 = 0)
    (hdmod : d%4 = 0) :
    decompileSection m N p = .ok s' ↔ (∀ x ∈ s.entries, x.Known) ∧ s' = s := by
  have hname := ht.key.nameOk ht.pos
  obtain ⟨hnameAt, hlen, hoff⟩ := sectionAt_fields h hs hname hp
  have hents (es : List Entry) := decompileEntries_iff h hN s.name s.entries [] es hs.entries
    ht.entries he hd hdmod
  have hoff' : (wordAt m ((p : ℤ)+36)).toInt = (e/4 : ℕ) := by
    rw [hoff, toInt_ofNat_of_lt (by omega)]
  have hlen' : (wordAt m ((p : ℤ)+32)).toInt = s.entries.length := by
    rw [hlen, toInt_ofNat_of_lt (by omega)]
  have hsize : int (N-int (4*(e/4 : ℕ))) = (N-e : ℕ) := by
    rw [int_of_lt (x := 4*(e/4 : ℕ)) (by omega) (by omega), int_of_lt (by omega) (by omega)]
    omega
  have hdiv : ((N-e : ℕ) : ℤ).tdiv 40 = ((N-e)/40 : ℕ) := rfl
  have hptr : int ((e/4 : ℕ)*4) = e := by
    rw [int_of_lt (by omega) (by omega)]
    omega
  rw [decompileSection, hoff', hlen', hsize, hnameAt, hptr]
  dsimp only
  rw [hdiv, if_neg, if_neg, scriptSectionNew_of_nameOk hname, Int.toNat_natCast]
  · dsimp only
    cases hrun : decompileEntries m s.name s.entries.length e [] with
    | error x =>
      have hnot : ¬∀ x ∈ s.entries, x.Known := fun hk => by
        have := (hents ([] ++ s.entries)).mpr ⟨hk, rfl⟩
        rw [hrun] at this
        cases this
      simp [hnot]
    | ok es =>
      obtain ⟨hk, rfl⟩ := (hents es).mp hrun
      rw [Except.ok.injEq]
      exact ⟨fun heq => ⟨hk, heq.symm⟩, fun heq => heq.2.symm⟩
  · omega
  · rw [int_of_lt (by omega) (by omega)]
    omega

theorem decompileSections_iff (h : Holds m buf N) (hN : N < 2^31) (ss script script' : Script)
    {e : ℕ} (hs : SectionsAt buf p e d ss) (ht : Textual ss) (hp : p+40*ss.length ≤ N)
    (he : e+40*entryCount ss ≤ N) (hd : d+scriptData ss ≤ N) (hemod : e%4 = 0) (hdmod : d%4 = 0) :
    decompileSections m N ss.length p script = .ok script' ↔
      (∀ s ∈ ss, ∀ x ∈ s.entries, x.Known) ∧ script' = script ++ ss := by
  induction ss generalizing p e d script with
  | nil => simp [decompileSections, eq_comm]
  | cons s ss ih =>
    have hec : entryCount (s :: ss) = s.entries.length+entryCount ss := rfl
    have hsd : scriptData (s :: ss) = dataSize s.entries+scriptData ss := rfl
    have hmod := dataSize_mod s.entries
    rw [List.length_cons] at hp
    have hstep (s' : Section) := decompileSection_iff s' h hN hs.1 (ht s List.mem_cons_self)
      (by omega) (by omega) (by omega) hemod hdmod
    have hcast : ((p+40 : ℕ) : ℤ) = (p : ℤ)+SECTION_SZ := by
      rw [SECTION_SZ]
      omega
    rw [List.length_cons, decompileSections]
    cases hfirst : decompileSection m N p with
    | error x =>
      have hnot : ¬∀ x ∈ s.entries, x.Known := fun hk => by
        have := (hstep s).mpr ⟨hk, rfl⟩
        rw [hfirst] at this
        cases this
      simp [hnot]
    | ok s₁ =>
      obtain ⟨hk, rfl⟩ := (hstep s₁).mp hfirst
      have hrest := ih (script ++ [s₁]) hs.2 (fun s hs => ht s (List.mem_cons_of_mem _ hs)) (by omega)
        (by omega) (by omega) (by omega) (by omega)
      dsimp only
      rw [← hcast, hrest, List.append_assoc, List.singleton_append, List.forall_mem_cons,
        and_iff_right hk]

/-- The head of the file, with the count of sections. -/
theorem decompile_sections {script : Script} (hfile : FileSpec script (binFile script))
    (hsz : (scriptBinSize script).bin_size < 2^31)
    (h : Holds m (binFile script).buf (scriptBinSize script).bin_size) :
    scriptDecompileBin m (scriptBinSize script).bin_size =
      if SCRIPT_BIN_SECTION_LIMIT < script.length then
        .error (.tooManySections (.ofNat 32 script.length))
      else decompileSections m (scriptBinSize script).bin_size script.length HEAD_SZ [] := by
  have hlen := scriptBinSize_eq script
  have hhead := hfile.head
  have hroom : 0+16 ≤ (scriptBinSize script).bin_size := by omega
  have h0 : wordAt m 0 = BitVec.ofNat 32 script.length :=
    @Holds.wordAt _ _ _ _ h _ 0 [] _ _ hhead hroom rfl _ rfl
  have h8 : wordAt m 8 = BitVec.ofNat 32 1 := by
    have hhead' := hhead
    rw [← List.append_assoc] at hhead'
    exact h.wordAt (o := 8) hhead' hroom (by simp) (by omega)
  have h12 : wordAt m 12 = BitVec.ofNat 32 2 := by
    have hhead' := hhead
    rw [← List.append_assoc, ← List.append_assoc, ← List.append_nil (le 4 2)] at hhead'
    exact h.wordAt (o := 12) hhead' hroom (by simp) (by omega)
  have hcount : (BitVec.ofNat 32 script.length).toNat = script.length := by
    rw [BitVec.toNat_ofNat, Nat.mod_eq_of_lt (by omega)]
  rw [scriptDecompileBin, h0, h8, h12, if_neg (by decide), hcount]

/-- What `fexc` makes of a file that it compiled of an accepted text, in less than 2 GiB: the same
tree, unless there are too many sections or a pin is of the bank behind the last one; then it
fails. -/
theorem compiled_decompiles_iff {text : List Byte} {script : Script}
    (htext : scriptParseFex text = .ok script) (hsz : (scriptBinSize script).bin_size < 2^31)
    (hm : Holds m (binFile script).buf (scriptBinSize script).bin_size) (script' : Script) :
    scriptDecompileBin m (scriptBinSize script).bin_size = .ok script' ↔
      (script.length ≤ SCRIPT_BIN_SECTION_LIMIT ∧ ∀ s ∈ script, ∀ e ∈ s.entries, e.Known) ∧
        script' = script := by
  have ht := parse_textual htext
  have hlen := scriptBinSize_eq script
  have hfile := binFile_spec script (fun s hs => (ht s hs).key.le)
    fun s hs e he => ((ht s hs).entries e he).key.le
  have hrun := decompileSections_iff hm hsz script [] script' hfile.laid ht (by omega) (by omega)
    (by omega) (by omega) (by omega)
  rw [decompile_sections hfile hsz hm]
  split
  next hmany =>
    have hnot : ¬script.length ≤ SCRIPT_BIN_SECTION_LIMIT := Nat.not_le_of_lt hmany
    simp [hnot]
  next hfew =>
    refine hrun.trans ?_
    rw [and_iff_right (Nat.le_of_not_lt hfew), List.nil_append]

theorem compiled_decompiles_small :
    (smallScript.length ≤ SCRIPT_BIN_SECTION_LIMIT ∧
      ∀ s ∈ smallScript, ∀ e ∈ s.entries, e.Known) ∧
    scriptDecompileBin (fun x => (binFile smallScript).buf x.toNat)
      (scriptBinSize smallScript).bin_size = .ok smallScript := by
  have hknown : smallScript.length ≤ SCRIPT_BIN_SECTION_LIMIT ∧
      ∀ s ∈ smallScript, ∀ e ∈ s.entries, e.Known := by
    refine ⟨by decide, fun s hs e he port port_num d hv => ?_⟩
    simp only [smallScript, List.mem_cons, List.not_mem_nil, or_false] at hs
    rcases hs with rfl | rfl
    · simp only [List.mem_cons, List.not_mem_nil, or_false] at he
      rcases he with rfl | rfl | rfl | rfl
      · obtain ⟨rfl, -, -⟩ := Value.gpio.inj hv
        decide
      · cases hv
      · cases hv
      · cases hv
    · cases he
  exact ⟨hknown, (compiled_decompiles_iff smallText_parsed (by decide) (fun _ _ => rfl) _).mpr
    ⟨hknown, rfl⟩⟩

end Sections

end ChipTools.Fex
