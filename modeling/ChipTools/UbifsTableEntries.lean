import ChipTools.UbifsTableImage

/-! What becomes of the entries of a device table: the names that a line adds, whether they are in
the image, and whether they have the attributes of the line. -/
namespace ChipTools.UbifsTable
open Bytes CNumber Ubifs UbifsMkfs

section Lines

variable {line : List Byte} {l : Line}

/-- The element of a line without a count. -/
def Line.single (l : Line) : NameElt :=
  ⟨l.path, l.name, ⟨BitVec.ofNat 32 (l.fields.mode ||| l.bits), BitVec.ofNat 32 l.fields.uid,
    BitVec.ofNat 32 l.fields.gid, makedev l.fields.major l.fields.minor⟩⟩

/-- The element number `k` of a line with a count, with `i` behind its name. -/
def Line.element (l : Line) (i : ℤ) (k : ℕ) : NameElt :=
  ⟨l.path, l.name ++ DevTable.decimal i,
    ⟨BitVec.ofNat 32 (l.fields.mode ||| l.bits), BitVec.ofNat 32 l.fields.uid,
      BitVec.ofNat 32 l.fields.gid,
      makedev l.fields.major ((l.fields.minor+k*l.fields.increment)%2^32)⟩⟩

/-- What a line stands for: its path, or the numbered ones. -/
def Line.described (l : Line) : List NameElt :=
  if l.fields.count = 0 then [l.single]
  else (List.range l.fields.count).map fun (k : ℕ) => l.element ((l.fields.start+k : ℕ) : ℤ) k

theorem fullName_drop (path name : List Byte) :
    (DevTable.Ubifs.fullName path name).drop (DevTable.Ubifs.fullName path []).length = name := by
  unfold DevTable.Ubifs.fullName
  split
  · rw [List.append_nil, List.drop_left]
  · rw [List.append_cons path DevTable.slash name, List.drop_left]

theorem bmod_cases (x : ℤ) : Int.bmod x (2^32) = x%2^32 ∧ x%2^32 < 2^31 ∨
    Int.bmod x (2^32) = x%2^32-2^32 ∧ 2^31 ≤ x%2^32 := by
  unfold Int.bmod
  dsimp only
  omega

/-- What it adds: the counter is an `int`. -/
theorem Line.elements_eq (l : Line) : l.elements =
    if l.fields.count = 0 then [l.single]
    else (List.range (toInt32 (l.fields.start+l.fields.count)-toInt32 l.fields.start).toNat).map
      fun (k : ℕ) => l.element (toInt32 l.fields.start+(k : ℤ)) k := by
  unfold Line.elements DevTable.Ubifs.elements
  split
  · rw [List.map_cons, List.map_nil, fullName_drop]
    rfl
  · dsimp only
    rw [List.map_map]
    apply List.map_congr_left
    intro k hk
    -- the difference to the first number does not overflow
    have hlt := List.mem_range.mp hk
    have hs := bmod_cases l.fields.start
    have hc := bmod_cases (l.fields.start+l.fields.count)
    unfold toInt32 at hlt
    have hdiff : ((toInt32 l.fields.start+(k : ℤ)-l.fields.start)%2^32).toNat = k := by
      unfold toInt32
      omega
    dsimp only [Function.comp]
    rw [fullName_drop, hdiff]
    rfl

theorem decimal_neg (n : ℕ) : DevTable.decimal (Int.negSucc n) = 0x2d#8 :: DevTable.decimal (n+1 : ℕ) := by
  unfold DevTable.decimal literal
  have h : (toString (Int.negSucc n)).toList = '-' :: (toString ((n+1 : ℕ) : ℤ)).toList := by
    change ("-" ++ toString (n+1)).toList = _
    rw [String.toList_append]
    rfl
  rw [h]
  rfl

theorem minus_notMem_decimal (n : ℕ) : 0x2d#8 ∉ DevTable.decimal (n : ℕ) := by
  rw [DevTable.decimal_nat, List.mem_map]
  rintro ⟨c, hc, hs⟩
  have hr : 48 ≤ c.toNat ∧ c.toNat ≤ 57 :=
    Char.isDigit_iff_toNat.mp (Nat.isDigit_of_mem_toDigits (by decide) (by decide) hc)
  have := congrArg BitVec.toNat hs
  rw [BitVec.toNat_ofNat, Nat.mod_eq_of_lt (by omega)] at this
  change c.toNat = 45 at this
  omega

theorem slash_notMem_int (i : ℤ) : DevTable.slash ∉ DevTable.decimal i := by
  cases i with
  | ofNat n => exact DevTable.slash_notMem_decimal n
  | negSucc n =>
    rw [decimal_neg, List.mem_cons, not_or]
    exact ⟨by decide, DevTable.slash_notMem_decimal (n+1)⟩

theorem separateLast_ne_nil {buf : List Byte} (h : DevTable.Ubifs.checkPath buf = .ok ()) :
    (DevTable.Ubifs.separateLast buf).2 ≠ [] := by
  obtain ⟨-, -, hslash⟩ := DevTable.checkPath_ok h
  rcases List.eq_nil_or_concat buf with rfl | ⟨dir, b, rfl⟩
  · simp [DevTable.Ubifs.checkPath, literal] at h
  · rw [List.concat_eq_append] at hslash ⊢
    have hb : b ≠ DevTable.slash := by
      rintro rfl
      exact hslash ⟨dir, rfl⟩
    change ((dir ++ [b]).reverse.takeWhile (· ≠ DevTable.slash)).reverse ≠ []
    rw [List.reverse_append, List.reverse_singleton, List.singleton_append,
      List.takeWhile_cons_of_pos (by simpa using hb)]
    simp

/-- What the scanner promises of a line. -/
structure Line.Scanned (l : Line) : Prop where
  start : l.fields.start < 2^32
  count : l.fields.count < 2^32
  nonempty : l.name ≠ []
  slash : DevTable.slash ∉ l.name

theorem readLine_scanned (h : readLine line = .ok l) : l.Scanned := by
  unfold readLine at h
  cases hs : DevTable.scanHead 1023 line with
  | none =>
    rw [hs] at h
    cases h
  | some hd =>
    rw [hs] at h
    dsimp only at h
    obtain ⟨_, hcheck, h⟩ := Loop.bind_eq_ok h
    obtain ⟨bits, -, h⟩ := Loop.bind_eq_ok h
    have hcheck := mapError_eq_ok hcheck
    split at h
    · cases h
    · obtain rfl := Except.ok.inj h
      obtain ⟨-, -, hslash⟩ := DevTable.checkPath_ok hcheck
      refine ⟨Nat.mod_lt _ (by decide), Nat.mod_lt _ (by decide), ?_, ?_⟩
      · exact separateLast_ne_nil hcheck
      · intro hmem
        rw [DevTable.Ubifs.separateLast, List.mem_reverse] at hmem
        simpa using List.mem_takeWhile_imp hmem

/-- The counter comes as far as it should if it stays an `int`. -/
theorem Line.elements_described (hl : l.Scanned) :
    l.elements = l.described ↔ l.fields.count = 0 ∨ l.fields.start+l.fields.count < 2^31 := by
  have hstart := hl.start
  have hcount := hl.count
  rw [l.elements_eq]
  unfold Line.described
  by_cases h0 : l.fields.count = 0
  · rw [if_pos h0, if_pos h0]
    exact iff_of_true rfl (.inl h0)
  · rw [if_neg h0, if_neg h0]
    constructor
    · intro heq
      right
      have hlen := congrArg List.length heq
      rw [List.length_map, List.length_map, List.length_range, List.length_range] at hlen
      rw [hlen] at heq
      -- the first name has no sign
      have hfirst := List.map_inj_left.mp heq 0 (List.mem_range.mpr (Nat.pos_of_ne_zero h0))
      have hdec := List.append_cancel_left (congrArg NameElt.name hfirst)
      rw [Nat.add_zero, Nat.cast_zero, add_zero] at hdec
      have hpos : 0 ≤ toInt32 l.fields.start := by
        by_contra hneg
        obtain ⟨n, hn⟩ := Int.eq_negSucc_of_lt_zero (not_le.mp hneg)
        rw [hn, decimal_neg] at hdec
        apply minus_notMem_decimal l.fields.start
        rw [← hdec]
        exact List.mem_cons_self
      have hs := bmod_cases l.fields.start
      have hc := bmod_cases (l.fields.start+l.fields.count)
      unfold toInt32 at hpos hlen
      omega
    · intro h
      have hlt : l.fields.start+l.fields.count < 2^31 := h.resolve_left h0
      rw [CNumber.toInt32_of_lt (by omega) (by omega), CNumber.toInt32_of_lt (by omega) (by omega)]
      have hn : (((l.fields.start : ℤ)+l.fields.count)-l.fields.start).toNat = l.fields.count := by omega
      rw [hn]
      rfl

end Lines

section Parse

variable {file : List Byte} {tbl tbl' : List NameElt}

/-- By what an element is found. -/
def NameElt.key (e : NameElt) : List Byte × List Byte := (e.path, e.name)

theorem insert_ok {e : NameElt} (h : insert tbl e = .ok tbl') :
    tbl' = tbl ++ [e] ∧ e.key ∉ tbl.map NameElt.key := by
  unfold insert at h
  split at h
  · cases h
  next hno =>
    obtain rfl := Except.ok.inj h
    refine ⟨rfl, ?_⟩
    intro hmem
    obtain ⟨x, hx, hkey⟩ := List.mem_map.mp hmem
    apply hno
    rw [List.any_eq_true]
    exact ⟨x, hx, decide_eq_true ⟨congrArg Prod.fst hkey, congrArg Prod.snd hkey⟩⟩

/-- The elements of a line come behind the others, each with a key of its own. -/
theorem insert_all (es : List NameElt) (h : es.foldlM insert tbl = .ok tbl')
    (hn : (tbl.map NameElt.key).Nodup) : tbl' = tbl ++ es ∧ (tbl'.map NameElt.key).Nodup := by
  induction es generalizing tbl with
  | nil =>
    obtain rfl := Except.ok.inj h
    exact ⟨(List.append_nil _).symm, hn⟩
  | cons e rest ih =>
    rw [List.foldlM_cons] at h
    obtain ⟨tbl₁, hone, hrest⟩ := Loop.bind_eq_ok h
    obtain ⟨rfl, hnew⟩ := insert_ok hone
    have hn₁ : ((tbl ++ [e]).map NameElt.key).Nodup := by
      rw [List.map_append, List.map_singleton, ← List.concat_eq_append]
      exact hn.concat hnew
    obtain ⟨rfl, hnodup⟩ := ih hrest hn₁
    exact ⟨by rw [List.append_assoc, List.singleton_append], hnodup⟩

theorem interpretTableEntry_ok {line : List Byte} (h : interpretTableEntry tbl line = .ok tbl')
    (hn : (tbl.map NameElt.key).Nodup) :
    ∃ l, readLine line = .ok l ∧ tbl' = tbl ++ l.elements ∧ (tbl'.map NameElt.key).Nodup := by
  obtain ⟨l, hread, hins⟩ := Loop.bind_eq_ok h
  exact ⟨l, hread, insert_all l.elements hins hn⟩

/-- A table that has been read has the elements of all lines, and none twice. -/
structure Parsed (lines : List (List Byte)) (tbl : List NameElt) : Prop where
  nodup : (tbl.map NameElt.key).Nodup
  line : ∀ line ∈ lines, ∃ l, readLine line = .ok l ∧ ∀ e ∈ l.elements, e ∈ tbl
  elt : ∀ e ∈ tbl, ∃ line ∈ lines, ∃ l, readLine line = .ok l ∧ e ∈ l.elements

theorem parseDevtable_parsed (h : parseDevtable file = .ok tbl) : Parsed (tableLines file) tbl := by
  unfold parseDevtable at h
  split at h
  · cases h
  · have hall (lines done : List (List Byte)) {tbl₀ : List NameElt} (h₀ : Parsed done tbl₀)
        (hrun : lines.foldlM interpretTableEntry tbl₀ = .ok tbl) : Parsed (done ++ lines) tbl := by
      induction lines generalizing done tbl₀ with
      | nil =>
        obtain rfl := Except.ok.inj hrun
        rw [List.append_nil]
        exact h₀
      | cons line rest ih =>
        rw [List.foldlM_cons] at hrun
        obtain ⟨tbl₁, hone, hrest⟩ := Loop.bind_eq_ok hrun
        obtain ⟨l, hread, rfl, hn⟩ := interpretTableEntry_ok hone h₀.nodup
        rw [List.append_cons]
        refine ih (done ++ [line]) ⟨hn, ?_, ?_⟩ hrest
        · intro x hx
          rcases List.mem_append.mp hx with hx | hx
          · obtain ⟨l', hread', hsub⟩ := h₀.line x hx
            exact ⟨l', hread', fun e he => List.mem_append_left _ (hsub e he)⟩
          · rw [List.mem_singleton.mp hx]
            exact ⟨l, hread, fun e he => List.mem_append_right _ he⟩
        · intro e he
          rcases List.mem_append.mp he with he | he
          · obtain ⟨x, hx, h⟩ := h₀.elt e he
            exact ⟨x, List.mem_append_left _ hx, h⟩
          · exact ⟨line, List.mem_append_right _ List.mem_cons_self, l, hread, he⟩
    have hnil : Parsed [] [] := ⟨List.nodup_nil, fun _ h => absurd h List.not_mem_nil,
      fun _ h => absurd h List.not_mem_nil⟩
    exact hall (tableLines file) [] hnil h

theorem Parsed.lookup {lines : List (List Byte)} (hp : Parsed lines tbl) {e : NameElt}
    (he : e ∈ tbl) : lookup tbl e.path e.name = some e := by
  have hmem : e ∈ namesAt tbl e.path := mem_namesAt.mpr ⟨he, rfl⟩
  unfold UbifsTable.lookup
  cases hf : (namesAt tbl e.path).find? fun x => x.name = e.name with
  | none => simpa using List.find?_eq_none.mp hf e hmem
  | some x =>
    have hname : x.name = e.name := by simpa using List.find?_some hf
    obtain ⟨hx, hpath⟩ := mem_namesAt.mp (List.mem_of_find?_eq_some hf)
    rw [List.inj_on_of_nodup_map hp.nodup hx he (Prod.ext hpath hname)]

theorem Parsed.unique {lines : List (List Byte)} (hp : Parsed lines tbl) {e e' : NameElt}
    (he : e ∈ tbl) (he' : e' ∈ tbl) (hpath : e.path = e'.path) (hname : e.name = e'.name) : e = e' :=
  List.inj_on_of_nodup_map hp.nodup he he' (Prod.ext hpath hname)

theorem Parsed.plain {lines : List (List Byte)} (hp : Parsed lines tbl) {e : NameElt} (he : e ∈ tbl) :
    e.name ≠ [] ∧ DevTable.slash ∉ e.name := by
  obtain ⟨line, -, l, hread, hmem⟩ := hp.elt e he
  have hl := readLine_scanned hread
  rw [l.elements_eq] at hmem
  split at hmem
  · rw [List.mem_singleton.mp hmem]
    exact ⟨hl.nonempty, hl.slash⟩
  · obtain ⟨k, -, rfl⟩ := List.mem_map.mp hmem
    exact ⟨List.append_ne_nil_of_left_ne_nil hl.nonempty _, fun h =>
      (List.mem_append.mp h).elim hl.slash (slash_notMem_int _)⟩

end Parse

section Depth

variable {z : Codec} {o : TreeOptions} {host : HostIno → HostInode} {root_st : Stat}
variable {order : HashOrder} {tbl : List NameElt}

theorem mapError_ne_depth {α : Type} (x : Except TreeErr α) : x.mapError Err.tree ≠ .error .depth := by
  cases x with
  | error e => exact fun h => by cases h
  | ok a => exact fun h => by cases h

theorem bind_ne_depth {α β : Type} {x : Except Err α} {f : α → Except Err β}
    (hx : x ≠ .error .depth) (hf : ∀ a, x = .ok a → f a ≠ .error .depth) :
    (x >>= f) ≠ .error .depth := by
  cases x with
  | error e =>
    intro h
    cases h
    exact hx rfl
  | ok a => exact hf a rfl

theorem overrideAttributes_ne_depth (st : Stat) (name : List Byte) (t : List NameElt) :
    overrideAttributes st name t ≠ .error .depth := by
  unfold overrideAttributes
  split
  · exact fun h => by cases h
  · split
    · exact fun h => by cases h
    · split <;> exact fun h => by cases h

variable {make : List Byte → ℕ → Stat → Mkfs → Except Err Mkfs}

theorem addNames_ne_depth {path : List Byte} {elts : List NameElt}
    (hmake : ∀ e ∈ elts, ∀ i st s, make (makePath path e.name) i st s ≠ .error .depth)
    (i size nlink : ℕ) (s : Mkfs) :
    addNames z o root_st make path i elts size nlink s ≠ .error .depth := by
  induction elts generalizing size nlink s with
  | nil => exact fun h => by cases h
  | cons e rest ih =>
    have hrest := ih fun e he => hmake e (List.mem_cons_of_mem _ he)
    rw [addNames]
    split
    · exact fun h => by cases h
    · dsimp only
      split
      · exact bind_ne_depth (hmake e List.mem_cons_self _ _ _) fun _ _ => hrest _ _ _
      · exact bind_ne_depth (mapError_ne_depth _) fun _ _ => hrest _ _ _

theorem addDirectory_ne_depth {dir : HostInode} {path : List Byte} {inum : ℕ} {st : Stat} {s : Mkfs}
    {loop : Mkfs → Except Err (List NameElt × ℕ × ℕ × Mkfs)}
    (hloop : ∀ s, loop s ≠ .error .depth)
    (hmake : ∀ s r, loop s = .ok r → ∀ e ∈ r.1, ∀ i st s,
      make (makePath path e.name) i st s ≠ .error .depth) :
    addDirectory z o root_st order make dir loop path inum st s ≠ .error .depth := by
  refine bind_ne_depth (hloop _) fun r hr => ?_
  refine bind_ne_depth (addNames_ne_depth (fun e he => ?_) _ _ _ _) fun _ _ h => by cases h
  rw [(order.perm r.1).mem_iff] at he
  exact hmake _ r hr e he

theorem makePath_length (path : List Byte) {name : List Byte} (hn : name ≠ []) :
    path.length < (makePath path name).length := by
  have := List.length_pos_of_ne_nil hn
  unfold makePath
  split
  · rw [List.length_append]
    omega
  · rw [List.length_append, List.length_cons]
    omega

theorem path_lt_depth {e : NameElt} (he : e ∈ tbl) : e.path.length+2 ≤ depth tbl := by
  unfold depth
  have hle : e.path.length ≤ (tbl.map fun e => e.path.length).foldr max 0 := by
    induction tbl with
    | nil => exact absurd he List.not_mem_nil
    | cons x rest ih =>
      rw [List.map_cons, List.foldr_cons]
      rcases List.mem_cons.mp he with rfl | he
      · exact le_max_left _ _
      · exact le_trans (ih he) (le_max_right _ _)
  omega

/-- Each level has a longer path, and there is nothing below the longest of the table. -/
theorem addNewDirectory_ne_depth (hn : ∀ e ∈ tbl, e.name ≠ []) (fuel : ℕ) {path : List Byte}
    (hfuel : depth tbl ≤ fuel+path.length) (hpos : 0 < fuel) (inum : ℕ) (st : Stat) (s : Mkfs) :
    addNewDirectory z o root_st order tbl fuel path inum st s ≠ .error .depth := by
  induction fuel generalizing path inum st s with
  | zero => exact absurd hpos (lt_irrefl 0)
  | succ fuel ih =>
    rw [addNewDirectory]
    refine addDirectory_ne_depth (fun _ h => by cases h) fun _ r hr e he i st s => ?_
    obtain rfl := Except.ok.inj hr
    obtain ⟨hmem, hpath⟩ := mem_namesAt.mp he
    have hlt := path_lt_depth hmem
    have hlong := makePath_length path (hn e hmem)
    rw [hpath] at hlt
    exact ih (by omega) (by omega) i st s

theorem addEntries_ne_depth (hn : ∀ e ∈ tbl, e.name ≠ []) (es : Entries) (path : List Byte)
    (t : List NameElt) (i size nlink : ℕ) (s : Mkfs) :
    addEntries z o host root_st order tbl es path t i size nlink s ≠ .error .depth := by
  induction es generalizing path t i size nlink s with
  | nil => exact fun h => by cases h
  | file name h rest ih =>
    rw [addEntries]
    refine bind_ne_depth (overrideAttributes_ne_depth _ _ _) fun p _ => ?_
    exact bind_ne_depth (mapError_ne_depth _) fun _ _ => ih _ _ _ _ _ _
  | dir name h sub rest ihsub ihrest =>
    rw [addEntries]
    refine bind_ne_depth (overrideAttributes_ne_depth _ _ _) fun p _ => ?_
    refine bind_ne_depth (addDirectory_ne_depth (fun s => ihsub _ _ _ _ _ s) ?_)
      fun _ _ => ihrest _ _ _ _ _ _
    exact fun _ _ _ _ _ => addNewDirectory_ne_depth hn _ (Nat.le_add_right _ _) (Nat.succ_pos _)

theorem foldlM_ne_depth {α β : Type} {f : β → α → Except Err β} (hf : ∀ b a, f b a ≠ .error .depth)
    (as : List α) (b : β) : as.foldlM f b ≠ .error .depth := by
  induction as generalizing b with
  | nil => exact fun h => by cases h
  | cons a rest ih =>
    rw [List.foldlM_cons]
    exact bind_ne_depth (hf b a) fun b' _ => ih b'

theorem readLine_ne_depth (line : List Byte) : readLine line ≠ .error .depth := by
  have hline {α : Type} (x : Except DevTable.Ubifs.Err α) : x.mapError Err.line ≠ .error .depth := by
    cases x with
    | error e => exact fun h => by cases h
    | ok a => exact fun h => by cases h
  unfold readLine
  split
  · exact fun h => by cases h
  · refine bind_ne_depth (hline _) fun _ _ => bind_ne_depth (hline _) fun _ _ => ?_
    dsimp only
    split <;> exact fun h => by cases h

theorem parseDevtable_ne_depth (file : List Byte) : parseDevtable file ≠ .error .depth := by
  unfold parseDevtable
  split
  · exact fun h => by cases h
  · refine foldlM_ne_depth (fun tbl line => ?_) _ _
    refine bind_ne_depth (readLine_ne_depth line) fun l _ => foldlM_ne_depth (fun tbl e => ?_) _ _
    unfold insert
    split <;> exact fun h => by cases h

/-- The levels of the table are enough: a run ends as the program does. -/
theorem mkfsData_ne_depth (file : List Byte) (T : HostTree) (max_sqnum : ℕ) :
    mkfsData z o order file T max_sqnum ≠ .error .depth := by
  refine bind_ne_depth (parseDevtable_ne_depth file) fun tbl hparse => ?_
  have hn : ∀ e ∈ tbl, e.name ≠ [] := fun e he => ((parseDevtable_parsed hparse).plain he).1
  refine bind_ne_depth (addDirectory_ne_depth (fun s => addEntries_ne_depth hn _ _ _ _ _ _ s) ?_)
    fun _ _ => mapError_ne_depth _
  exact fun _ _ _ _ _ => addNewDirectory_ne_depth hn _ (Nat.le_add_right _ _) (Nat.succ_pos _)

end Depth

section Small

/-- A hash table that keeps the order of the file. -/
def fileOrder : HashOrder := ⟨id, fun t => .refl t⟩

/-- A directory with a file of one byte. -/
def devTree : HostTree where
  host h :=
    if h.ino = 3 then plainInode 0o100644#32 1 1 (fun _ => 1#8) []
    else plainInode 0o040755#32 2 4096 (fun _ => 0#8) []
  root := ⟨0, 1⟩
  entries := .dir [97#8] ⟨0, 2⟩ (.file [120#8] ⟨0, 3⟩ .nil) .nil

theorem devTree_names : HostNames devTree := ⟨by decide, by decide⟩

def devRun (file : List Byte) : Except Err Mkfs := mkfsData noCodec plainOptions fileOrder file devTree 0

/-- A run that succeeds has read the table, and what is found of the run is found of the image. -/
theorem devRun_ok (file : List Byte) {P : Mkfs → Bool} (h : (devRun file).toOption.any P) :
    ∃ tbl s, parseDevtable file = .ok tbl ∧ devRun file = .ok s ∧
      writeData noCodec plainOptions fileOrder tbl devTree 0 = .ok s ∧ P s := by
  cases hrun : devRun file with
  | error e =>
    rw [hrun] at h
    cases h
  | ok s =>
    rw [hrun] at h
    obtain ⟨tbl, hparse, hwrite⟩ := Loop.bind_eq_ok hrun
    exact ⟨tbl, s, hparse, rfl, hwrite, h⟩

theorem parsed_any {file : List Byte} {tbl : List NameElt} {P : List NameElt → Bool}
    (hparse : parseDevtable file = .ok tbl) (h : (parseDevtable file).toOption.any P) : P tbl := by
  rw [hparse] at h
  exact h

/-- Two devices in a directory of the host. -/
def smallTable : List Byte := literal "/a/t c 600 3 0 4 5 1 2 2\n"

theorem smallTable_run : ∃ tbl s, parseDevtable smallTable = .ok tbl ∧ devRun smallTable = .ok s ∧
    writeData noCodec plainOptions fileOrder tbl devTree 0 = .ok s ∧ s.highest_inum < 2^32 := by
  have hrun : (devRun smallTable).toOption.any fun s => s.highest_inum < 2^32 := by
    simp only [devRun, mkfsData, writeData, Ubifs.addMultiLinkedFiles, mappings_eq_gather]
    decide +kernel
  obtain ⟨tbl, s, hparse, hrun, hwrite, hfit⟩ := devRun_ok smallTable hrun
  exact ⟨tbl, s, hparse, hrun, hwrite, of_decide_eq_true hfit⟩

end Small

section Kept

variable {z : Codec} {o : TreeOptions} {order : HashOrder} {file line : List Byte}
variable {tbl : List NameElt} {T : HostTree} {s : Mkfs} {C : Made} {es : Entries} {e : NameElt} {n : ℕ}

/-- The line has made all that it stands for, and each of them has a dent at its path. -/
def Line.Kept (l : Line) (s : Mkfs) : Prop :=
  l.elements = l.described ∧ ∀ e ∈ l.described, ∃ d, DentAt s.dents e.path e.name d

/-- The walk comes to the directory of the line, and the numbers do not reach `INT_MAX`. -/
def Line.Reached (l : Line) (T : HostTree) (tbl : List NameElt) : Prop :=
  (∃ es, Visits T tbl l.path es) ∧ (l.fields.count = 0 ∨ l.fields.start+l.fields.count < 2^31)

/-- The numbers of the inodes and the counts of links have 32 bits. -/
structure Fits (T : HostTree) (s : Mkfs) : Prop where
  inums : s.highest_inum < 2^32
  links : ∀ h ∈ T.files, T.visits.count h < 2^32

/-- A name of the host in a directory that the walk comes to. -/
theorem Written.of_host (hw : Written o order tbl T s C) (hT : HostNames T) {path : List Byte}
    (hes : Visits T tbl path es) {it : HostItem} (hit : it ∈ hostItems es) :
    ∃ x S, x ∈ C.all ∧ x.path = path ∧
      OfHost o T.host (T.host T.root).st order tbl path (x, S) it := by
  obtain ⟨i, D, hD, hplaced⟩ := visits_placed hT hw.merged hes
  obtain ⟨⟨x, S⟩, hx, hof⟩ := hD.of_host (hes.distinct hT) i hit
  exact ⟨x, S, hplaced (Made.items_placed hx).1, (Made.items_place hx).1, hof⟩

/-- And an element that the host has no name for. -/
theorem Written.of_table (hw : Written o order tbl T s C) (hT : HostNames T) (he : e ∈ tbl)
    (hes : Visits T tbl e.path es) (hname : e.name ∉ hostNames es) :
    ∃ x S, x ∈ C.all ∧ x.path = e.path ∧ OfTable (T.host T.root).st order tbl e.path (x, S) e := by
  obtain ⟨i, D, hD, hplaced⟩ := visits_placed hT hw.merged hes
  obtain ⟨⟨x, S⟩, hx, hof⟩ := hD.of_table i he rfl hname
  exact ⟨x, S, hplaced (Made.items_placed hx).1, (Made.items_place hx).1, hof⟩

theorem Written.kept (hw : Written o order tbl T s C) (hT : HostNames T) (he : e ∈ tbl)
    (hes : Visits T tbl e.path es) : ∃ d, DentAt s.dents e.path e.name d := by
  by_cases hname : e.name ∈ hostNames es
  · obtain ⟨it, hit, hitname⟩ := List.mem_map.mp hname
    obtain ⟨x, S, hx, hpath, hof⟩ := hw.of_host hT hes hit
    have hdent := hw.dentAt hx
    have hxname : x.name = e.name := hof.name.trans hitname
    rw [hpath, hxname] at hdent
    exact ⟨_, hdent⟩
  · obtain ⟨x, S, hx, hpath, hof⟩ := hw.of_table hT he hes hname
    have hdent := hw.dentAt hx
    have hxname : x.name = e.name := hof.name
    rw [hpath, hxname] at hdent
    exact ⟨_, hdent⟩

theorem Line.described_path {l : Line} (he : e ∈ l.described) : e.path = l.path := by
  unfold Line.described at he
  split at he
  · rw [List.mem_singleton.mp he]
    rfl
  · obtain ⟨k, -, rfl⟩ := List.mem_map.mp he
    rfl

theorem Line.exists_described (l : Line) : ∃ e, e ∈ l.described := by
  unfold Line.described
  split
  · exact ⟨_, List.mem_singleton_self _⟩
  next h0 => exact ⟨_, List.mem_map_of_mem (List.mem_range.mpr (Nat.pos_of_ne_zero h0))⟩

/-- A line is kept if the walk comes to its directory. -/
theorem Line.Reached.kept {l : Line} (h : l.Reached T tbl) (hw : Written o order tbl T s C)
    (hT : HostNames T) (hl : l.Scanned) (hsub : ∀ e ∈ l.elements, e ∈ tbl) : l.Kept s := by
  obtain ⟨⟨es, hes⟩, hcount⟩ := h
  have heq := (l.elements_described hl).mpr hcount
  refine ⟨heq, fun e he => ?_⟩
  rw [← Line.described_path he] at hes
  rw [← heq] at he
  exact hw.kept hT (hsub e he) hes

/-- And only then. -/
theorem Line.Kept.reached {l : Line} (h : l.Kept s) (hw : Written o order tbl T s C)
    (hT : HostNames T) (hfit : Fits T s) (hl : l.Scanned) : l.Reached T tbl := by
  obtain ⟨heq, hdents⟩ := h
  refine ⟨?_, (l.elements_described hl).mp heq⟩
  obtain ⟨e, he⟩ := l.exists_described
  obtain ⟨d, hd⟩ := hdents e he
  obtain ⟨x, hx, hpath, -, -⟩ := hw.of_dentAt hT (hw.countable hT hfit.links) hfit.inums hd
  obtain ⟨p, j, D, S, ⟨es, hes, -⟩, hitem⟩ := hw.item hT hx
  rw [← (Made.items_place hitem).1, hpath, Line.described_path he] at hes
  exact ⟨es, hes⟩

/-- Which entries of a device table are in the image of a run that succeeds. -/
theorem table_kept_iff (hT : HostNames T) (hparse : parseDevtable file = .ok tbl)
    (hrun : writeData z o order tbl T n = .ok s) :
    ∀ line ∈ tableLines file, ∀ l, readLine line = .ok l →
      (l.Reached T tbl → l.Kept s) ∧ (Fits T s → l.Kept s → l.Reached T tbl) := by
  intro line hline l hread
  obtain ⟨C, hw⟩ := writeData_written hrun
  have hl := readLine_scanned hread
  constructor
  · intro hreached
    obtain ⟨l', hread', hsub⟩ := (parseDevtable_parsed hparse).line line hline
    rw [hread] at hread'
    obtain rfl := Except.ok.inj hread'
    exact hreached.kept hw hT hl hsub
  · intro hfit hkept
    exact hkept.reached hw hT hfit hl

theorem smallTable_line : tableLines smallTable = [literal "/a/t c 600 3 0 4 5 1 2 2"] ∧
    readLine (literal "/a/t c 600 3 0 4 5 1 2 2") =
      .ok ⟨⟨0o600, 3, 0, 4, 5, 1, 2, 2⟩, 0o020000, literal "/a", literal "t"⟩ := by decide +kernel

theorem table_kept_small : ∃ s, devRun smallTable = .ok s ∧
    ∀ line ∈ tableLines smallTable, ∀ l, readLine line = .ok l → l.Kept s := by
  obtain ⟨tbl, s, hparse, hrun, hwrite, -⟩ := smallTable_run
  refine ⟨s, hrun, fun line hline l hread => ?_⟩
  refine (table_kept_iff devTree_names hparse hwrite line hline l hread).1 ?_
  obtain ⟨hlines, hl⟩ := smallTable_line
  rw [hlines, List.mem_singleton] at hline
  rw [hline, hl] at hread
  obtain rfl := Except.ok.inj hread
  have hit : (⟨[97#8], ⟨0, 2⟩, some (.file [120#8] ⟨0, 3⟩ .nil)⟩ : HostItem) ∈
      hostItems devTree.entries := List.mem_cons_self
  exact ⟨⟨_, Visits.root.host hit rfl⟩, .inr (by decide)⟩

/-- A pipe in a directory that is nowhere. -/
def strayTable : List Byte := literal "/x/y p 600 0 0\n"

theorem strayTable_line : literal "/x/y p 600 0 0" ∈ tableLines strayTable ∧
    readLine (literal "/x/y p 600 0 0") =
      .ok ⟨⟨0o600, 0, 0, 0, 0, 0, 0, 0⟩, 0o010000, literal "/x", literal "y"⟩ := by decide +kernel

/-- No entry has the name. -/
theorem strayTable_dents :
    (devRun strayTable).toOption.any fun s => s.dents.all fun d => d.name ≠ literal "y" := by
  simp only [devRun, mkfsData, writeData, Ubifs.addMultiLinkedFiles, mappings_eq_gather]
  decide +kernel

/-- The program succeeds without the pipe. -/
theorem table_not_kept : ∃ s, devRun strayTable = .ok s ∧
    ∃ line ∈ tableLines strayTable, ∃ l, readLine line = .ok l ∧ ¬ l.Kept s := by
  obtain ⟨hline, hread⟩ := strayTable_line
  obtain ⟨tbl, s, hparse, hrun, hwrite, hdents⟩ := devRun_ok strayTable strayTable_dents
  refine ⟨s, hrun, _, hline, _, hread, ?_⟩
  rintro ⟨-, hall⟩
  obtain ⟨d, hd, hname, -⟩ := hall _ (List.mem_singleton_self _)
  exact of_decide_eq_true (List.all_eq_true.mp hdents d hd) hname

end Kept

section Carried

variable {z : Codec} {o : TreeOptions} {order : HashOrder} {file : List Byte}
variable {tbl : List NameElt} {T : HostTree} {s : Mkfs} {C : Made} {es : Entries} {e : NameElt} {n : ℕ}

/-- The inode has the attributes of the element. -/
structure NameElt.On (e : NameElt) (f : Face) : Prop where
  uid : f.uid = e.elt.uid
  gid : f.gid = e.elt.gid
  mode : f.mode = e.elt.mode
  dev : itype e.elt.mode = some .chr ∨ itype e.elt.mode = some .blk → f.data = le 8 e.elt.dev

/-- Whatever a dent at the path of the element leads to has its attributes. -/
def NameElt.Carried (e : NameElt) (s : Mkfs) : Prop :=
  ∀ d, DentAt s.dents e.path e.name d → (∃ n ∈ s.inos, n.key = inoKeyInit d.inum) ∧
    ∀ n ∈ s.inos, n.key = inoKeyInit d.inum → e.On (face n)

/-- What the table adds has the group of the root directory. -/
def GroupsAgree (T : HostTree) (tbl : List NameElt) : Prop :=
  ∀ e ∈ tbl, ∀ es, Visits T tbl e.path es → e.name ∉ hostNames es →
    e.elt.gid = (T.host T.root).st.st_gid

/-- The last name of a file with several links has the attributes that the table has for any. -/
def LastNamesAgree (o : TreeOptions) (T : HostTree) (tbl : List NameElt) : Prop :=
  ∀ e ∈ tbl, ∀ es, Visits T tbl e.path es → ∀ it ∈ hostItems es, it.sub = none → it.name = e.name →
    1 < (T.host it.ino).st.st_nlink → ∀ l, lastLink T it.ino = some l →
    (linkStat o T.host tbl l).st_uid = e.elt.uid ∧ (linkStat o T.host tbl l).st_gid = e.elt.gid ∧
    (linkStat o T.host tbl l).st_mode = e.elt.mode

/-- The line has made the element. -/
def Line.Adds (l : Line) (e : NameElt) : Prop :=
  l.fields.count = 0 ∧ e = l.single ∨
  ∃ k < l.fields.count, e = l.element (toInt32 l.fields.start+(k : ℤ)) k

theorem Line.adds {l : Line} (hl : l.Scanned) (he : e ∈ l.elements) : l.Adds e := by
  rw [l.elements_eq] at he
  split at he
  next h0 => exact .inl ⟨h0, List.mem_singleton.mp he⟩
  · obtain ⟨k, hk, rfl⟩ := List.mem_map.mp he
    refine .inr ⟨k, ?_, rfl⟩
    have hlt := List.mem_range.mp hk
    have hs := bmod_cases l.fields.start
    have hc := bmod_cases (l.fields.start+l.fields.count)
    have hstart := hl.start
    have hcount := hl.count
    unfold toInt32 at hlt
    omega

/-- The last visit of a file has the attributes that go with its last name. -/
theorem Written.last_st (hw : Written o order tbl T s C) (hT : HostNames T) {h : HostIno}
    (hm : 1 < (T.host h).st.st_nlink) {w : Multi} (hlast : lastOf C.multis h = some w) :
    ∃ l, lastLink T h = some l ∧ w.st = linkStat o T.host tbl l := by
  have hmap := hw.last hT hm
  rw [hlast, Option.map_some] at hmap
  obtain ⟨l, hl, hst⟩ := Option.map_eq_some_iff.mp hmap.symm
  exact ⟨l, hl, hst.symm⟩

theorem OfTable.shows {path : List Byte} {x : Placed} {S : Made}
    (hof : OfTable (T.host T.root).st order tbl path (x, S) e) {f : Face}
    (hf : Written.Shows C T x f) : f = x.face T.host := by
  unfold Written.Shows at hf
  rw [Placed.multi_none (.inl hof.src)] at hf
  exact hf

/-- A node of the table has all but the group. -/
theorem OfTable.on {path : List Byte} {x : Placed} {S : Made}
    (hof : OfTable (T.host T.root).st order tbl path (x, S) e)
    (hgid : e.elt.gid = (T.host T.root).st.st_gid) : e.On (x.face T.host) := by
  have hst : x.st = fakeSt (T.host T.root).st e.elt := hof.st
  refine ⟨?_, ?_, ?_, ?_⟩
  · exact congrArg Stat.st_uid hst
  · exact (congrArg Stat.st_gid hst).trans hgid.symm
  · exact congrArg Stat.st_mode hst
  · intro hdev
    have hno : ¬ S_ISDIR e.elt.mode := by
      intro hdir
      rw [itype_dir hdir] at hdev
      rcases hdev with h | h <;> cases h
    have htype : itype e.elt.mode = some x.type := hof.file hno
    have hrdev : x.st.st_rdev = e.elt.dev := congrArg Stat.st_rdev hst
    change fileData T.host x.type x.src x.st = _
    rw [htype] at hdev
    rcases hdev with h | h
    · rw [Option.some.inj h, ← hrdev]
      rfl
    · rw [Option.some.inj h, ← hrdev]
      rfl

/-- A file of the host has the attributes of the table, if its last name has. -/
theorem OfHost.on {path : List Byte} {x : Placed} {S : Made} {it : HostItem}
    (hof : OfHost o T.host (T.host T.root).st order tbl path (x, S) it)
    (hw : Written o order tbl T s C) (hT : HostNames T) (hlook : lookup tbl path it.name = some e)
    (hlast : it.sub = none → 1 < (T.host it.ino).st.st_nlink → ∀ l, lastLink T it.ino = some l →
      (linkStat o T.host tbl l).st_uid = e.elt.uid ∧ (linkStat o T.host tbl l).st_gid = e.elt.gid ∧
      (linkStat o T.host tbl l).st_mode = e.elt.mode) {f : Face} (hf : Written.Shows C T x f) :
    e.On f := by
  have hst : x.st = setBy (squash o (T.host it.ino).st) (some e) := by
    rw [← hlook]
    exact hof.st
  have hno (hdev : itype e.elt.mode = some .chr ∨ itype e.elt.mode = some .blk) : False :=
    hdev.elim (hof.device e hlook).1 (hof.device e hlook).2
  unfold Written.Shows at hf
  cases hv : x.multi with
  | none =>
    rw [hv] at hf
    rw [hf]
    exact ⟨congrArg Stat.st_uid hst, congrArg Stat.st_gid hst, congrArg Stat.st_mode hst,
      fun hdev => (hno hdev).elim⟩
  | some v =>
    rw [hv] at hf
    obtain ⟨w, hw', rfl⟩ := hf
    obtain ⟨hsrc, -, -, hnlink⟩ := Placed.multi_eq hv
    have hsub : it.sub = none := by
      cases hsub : it.sub with
      | none => rfl
      | some sub =>
        have hnone : x.src = none := (hof.dir sub hsub).2.1
        rw [hsrc] at hnone
        cases hnone
    have hino : v.ino = it.ino := by
      have hfile : x.src = some it.ino := (hof.file hsub).1
      rw [hsrc] at hfile
      exact Option.some.inj hfile
    rw [hst, setBy_nlink, squash_nlink] at hnlink
    rw [hino] at hw'
    obtain ⟨l, hl, hlst⟩ := hw.last_st hT hnlink hw'
    obtain ⟨huid, hgid, hmode⟩ := hlast hsub hnlink l hl
    rw [← hlst] at huid hgid hmode
    exact ⟨huid, hgid, hmode, fun hdev => (hno hdev).elim⟩

/-- The attributes of the table are those of the image. -/
theorem Written.carried (hw : Written o order tbl T s C) (hT : HostNames T)
    (hp : Parsed (tableLines file) tbl) (hfit : Fits T s) (hgroups : GroupsAgree T tbl)
    (hlast : LastNamesAgree o T tbl) (he : e ∈ tbl) : e.Carried s := by
  have hc := hw.countable hT hfit.links
  intro d hd
  obtain ⟨x, hx, hpath, hname, rfl⟩ := hw.of_dentAt hT hc hfit.inums hd
  obtain ⟨p, j, D, S, ⟨es, hes, hmerged⟩, hitem⟩ := hw.item hT hx
  obtain rfl : e.path = p := hpath.symm.trans (Made.items_place hitem).1
  have hon {f : Face} (hf : Written.Shows C T x f) : e.On f := by
    rcases hmerged.item (hes.distinct hT) hitem with ⟨it, hit, hof⟩ | ⟨e', he', hpath', hname', hof⟩
    · have hitname : it.name = e.name := hof.name.symm.trans hname
      have hlook : lookup tbl e.path it.name = some e := by
        rw [hitname]
        exact hp.lookup he
      exact hof.on hw hT hlook (fun hsub hm => hlast e he es hes it hit hsub hitname hm) hf
    · have hxname : x.name = e'.name := hof.name
      obtain rfl := hp.unique he' he hpath' (hxname.symm.trans hname)
      rw [hof.shows hf]
      exact hof.on (hgroups e' he' es hes hname')
  constructor
  · obtain ⟨n, hn, hkey, -⟩ := hw.has_ino hc hx
    exact ⟨n, hn, hkey⟩
  · exact fun n hn hkey => hon (hw.ino_shows hc hfit.inums hx hn hkey)

/-- What an element that is carried says of the inode of an entry at its path. -/
theorem NameElt.Carried.shows (h : e.Carried s) (hw : Written o order tbl T s C) (hT : HostNames T)
    (hfit : Fits T s) {x : Placed} (hx : x ∈ C.all) (hpath : x.path = e.path) (hname : x.name = e.name) :
    ∃ f, Written.Shows C T x f ∧ e.On f := by
  have hc := hw.countable hT hfit.links
  have hd := hw.dentAt hx
  rw [hpath, hname] at hd
  obtain ⟨⟨n, hn, hkey⟩, hall⟩ := h _ hd
  exact ⟨face n, hw.ino_shows hc hfit.inums hx hn hkey, hall n hn hkey⟩

/-- When the attributes of a device table reach the image of a run that succeeds. -/
theorem attributes_carried_iff (hT : HostNames T) (hparse : parseDevtable file = .ok tbl)
    (hrun : writeData z o order tbl T n = .ok s) (hfit : Fits T s) :
    (∀ e ∈ tbl, ∃ line ∈ tableLines file, ∃ l, readLine line = .ok l ∧ l.Adds e) ∧
    ((∀ e ∈ tbl, e.Carried s) ↔ GroupsAgree T tbl ∧ LastNamesAgree o T tbl) := by
  obtain ⟨C, hw⟩ := writeData_written hrun
  have hp := parseDevtable_parsed hparse
  constructor
  · intro e he
    obtain ⟨line, hline, l, hread, hmem⟩ := hp.elt e he
    exact ⟨line, hline, l, hread, Line.adds (readLine_scanned hread) hmem⟩
  constructor
  · intro hall
    constructor
    · intro e he es hes hname
      obtain ⟨x, S, hx, hpath, hof⟩ := hw.of_table hT he hes hname
      obtain ⟨f, hf, hon⟩ := (hall e he).shows hw hT hfit hx hpath hof.name
      have hst : x.st = fakeSt (T.host T.root).st e.elt := hof.st
      rw [← hon.gid, hof.shows hf]
      change x.st.st_gid = _
      rw [hst]
      rfl
    · intro e he es hes it hit hsub hname hm l hl
      obtain ⟨x, S, hx, hpath, hof⟩ := hw.of_host hT hes hit
      obtain ⟨f, hf, hon⟩ := (hall e he).shows hw hT hfit hx hpath (hof.name.trans hname)
      have hst : x.st = setBy (squash o (T.host it.ino).st) (lookup tbl e.path it.name) := hof.st
      have hnlink : 1 < x.st.st_nlink := by
        rw [hst, setBy_nlink, squash_nlink]
        exact hm
      unfold Written.Shows at hf
      rw [Placed.multi_some (hof.file hsub).1 hnlink] at hf
      obtain ⟨w, hw', rfl⟩ := hf
      obtain ⟨l', hl', hlst⟩ := hw.last_st hT hm hw'
      rw [hl] at hl'
      obtain rfl := Option.some.inj hl'
      rw [← hlst]
      exact ⟨hon.uid, hon.gid, hon.mode⟩
  · intro ⟨hgroups, hlast⟩ e he
    exact hw.carried hT hp hfit hgroups hlast he

/-- The devices have the group of the root directory, and names that the host does not have. -/
theorem smallTable_elts : (parseDevtable smallTable).toOption.any fun t => t.all fun e =>
    e.elt.gid = 0#32 ∧ (e.name = literal "t1" ∨ e.name = literal "t2") := by decide +kernel

theorem attributes_carried_small : ∃ tbl s, parseDevtable smallTable = .ok tbl ∧
    devRun smallTable = .ok s ∧ ∀ e ∈ tbl, e.Carried s := by
  obtain ⟨tbl, s, hparse, hrun, hwrite, hfit⟩ := smallTable_run
  have htbl := parsed_any hparse smallTable_elts
  have hfits : Fits devTree s := ⟨hfit, by decide⟩
  refine ⟨tbl, s, hparse, hrun, ?_⟩
  refine (attributes_carried_iff devTree_names hparse hwrite hfits).2.mpr ⟨?_, ?_⟩
  · intro e he _ _ _
    exact (of_decide_eq_true (List.all_eq_true.mp htbl e he)).1
  · -- the host has other names
    intro e he es hes it hit _ hname
    have hother : ∀ d ∈ devTree.dirs, ∀ it ∈ hostItems d.2,
        it.name ≠ literal "t1" ∧ it.name ≠ literal "t2" := by decide
    rcases hes.dirs with rfl | ⟨d, hd, rfl⟩
    · exact absurd hit List.not_mem_nil
    · obtain ⟨h1, h2⟩ := hother d hd it hit
      rw [hname] at h1 h2
      exact absurd (of_decide_eq_true (List.all_eq_true.mp htbl e he)).2 (not_or.mpr ⟨h1, h2⟩)

/-- A pipe with a group that is not that of the root directory. -/
def groupTable : List Byte := literal "/p p 600 5 7\n"

theorem groupTable_elts : (parseDevtable groupTable).toOption.any fun t => t.any fun e =>
    e.path = rootPath ∧ e.name = literal "p" ∧ e.elt.gid = 7#32 := by decide +kernel

/-- The pipe has the group of the root directory. -/
theorem groupTable_dents : (devRun groupTable).toOption.any fun s => s.dents.any fun d =>
    d.name = literal "p" ∧ d.key.u32_0 = 1#32 ∧
      s.inos.any fun n => n.key = inoKeyInit d.inum ∧ n.gid = 0#32 := by
  simp only [devRun, mkfsData, writeData, Ubifs.addMultiLinkedFiles, mappings_eq_gather]
  decide +kernel

/-- The group of the table does not come into the image. -/
theorem attributes_not_carried : ∃ tbl s, parseDevtable groupTable = .ok tbl ∧
    devRun groupTable = .ok s ∧ ∃ e ∈ tbl, ¬ e.Carried s := by
  obtain ⟨tbl, s, hparse, hrun, hwrite, himage⟩ := devRun_ok groupTable groupTable_dents
  have htbl := parsed_any hparse groupTable_elts
  obtain ⟨e, he, helt⟩ := List.any_eq_true.mp htbl
  obtain ⟨hpath, hname, hgid⟩ := of_decide_eq_true helt
  obtain ⟨d, hd, hdent⟩ := List.any_eq_true.mp himage
  obtain ⟨hdname, hkey, hino⟩ := of_decide_eq_true hdent
  obtain ⟨n, hn, hnode⟩ := List.any_eq_true.mp hino
  obtain ⟨hnkey, hngid⟩ := of_decide_eq_true hnode
  refine ⟨tbl, s, hparse, hrun, e, he, ?_⟩
  intro hcarried
  have hdir : DirAt s.dents e.path UBIFS_ROOT_INO := by
    rw [hpath]
    exact .root
  have hon := (hcarried d ⟨hd, hdname.trans hname.symm, _, hdir, hkey⟩).2 n hn hnkey
  have hboth : n.gid = e.elt.gid := hon.gid
  rw [hngid, hgid] at hboth
  exact absurd hboth (by decide)

end Carried

end ChipTools.UbifsTable
