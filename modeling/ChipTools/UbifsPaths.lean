import ChipTools.UbifsTable

/-! The path of a device table line in memory: the comparisons of `interpret_table_entry` and the
scan of `separate_last`, with the bytes of the buffer that they read. -/
namespace ChipTools.UbifsTable
open Bytes CNumber DevTable

section Memory

/-- The string in `buf`, and the bytes before the buffer, the nearest first. -/
structure PathBuf where
  before : List Byte
  path : List Byte

/-- A byte by its index from `buf`. Outside of what is known of the memory there is nothing. -/
def PathBuf.byte (b : PathBuf) (i : ℤ) : Option Byte :=
  if i < 0 then b.before[(-1-i).toNat]? else (b.path ++ [0#8])[i.toNat]?

/-- A computation with the indices that it reads. It has no result where a read is a fault. -/
structure Probe (α : Type) where
  result : Option α
  reads : List ℤ

/-- The indices from `lo` on, `n` of them. -/
def span (lo n : ℕ) : List ℤ := (List.range' lo n).map Nat.cast

variable (b : PathBuf)

/-- `buf[i] == c`. -/
def byteIs (i : ℤ) (c : Byte) : Probe Bool := ⟨(b.byte i).map (· = c), [i]⟩

/-- `!strcmp(buf + i, s)`. -/
def strcmpAt : ℤ → List Byte → Probe Bool
  | i, [] => byteIs b i 0#8
  | i, c :: s =>
    match b.byte i with
    | none => ⟨none, [i]⟩
    | some x =>
      if x = c then
        let r := strcmpAt (i+1) s
        ⟨r.result, i :: r.reads⟩
      else ⟨some false, [i]⟩

/-- `strstr(buf, s)`, which reads no more than the string. -/
def strstrIn (s : List Byte) : Probe Bool :=
  ⟨some (s <:+: b.path), span 0 (b.path.length+1)⟩

/-- The checks in their order, with what is reported where one is met. -/
def pathChecks : List (Probe Bool × Ubifs.Err) :=
  let len : ℤ := b.path.length
  [(strcmpAt b 0 (literal "/"), .absolutePath),
    (byteIs b 1 0#8, .rootDirectory),
    (strstrIn b (literal "//"), .doubleSlash),
    (byteIs b (len-1) slash, .slashAtEnd),
    (strstrIn b (literal "/./"), .dots),
    (strstrIn b (literal "/../"), .dots),
    (strcmpAt b (len-2) (literal "/."), .dots),
    (strcmpAt b (len-3) (literal "/.."), .dots)]

/-- The first check that is met. Those behind it read nothing. -/
def runChecks : List (Probe Bool × Ubifs.Err) → Probe (Except Ubifs.Err Unit)
  | [] => ⟨some (.ok ()), []⟩
  | (p, e) :: rest =>
    match p.result with
    | none => ⟨none, p.reads⟩
    | some true => ⟨some (.error e), p.reads⟩
    | some false => ⟨(runChecks rest).result, p.reads ++ (runChecks rest).reads⟩

inductive PathResult
  | errmsg (e : Ubifs.Err)
  | noMemory
  | accepted (path name : List Byte)
deriving DecidableEq

/-- The loop of `separate_last`: `path_len`, which is one more than the index of the slash. -/
def backScan : ℕ → ℤ → Probe ℤ
  | 0, _ => ⟨none, []⟩
  | fuel+1, path_len =>
    match b.byte (path_len-1) with
    | none => ⟨none, [path_len-1]⟩
    | some x =>
      if x = slash then ⟨some path_len, [path_len-1]⟩
      else
        let r := backScan fuel (path_len-1)
        ⟨r.result, (path_len-1) :: r.reads⟩

/-- `separate_last`. The lengths are of an `int`: one of -1 allocates nothing and copies all of
the memory, and for a smaller one there is no memory. -/
def separateLastAt : Probe PathResult :=
  let scan := backScan b (b.path.length+b.before.length+1) b.path.length
  match scan.result with
  | none => ⟨none, scan.reads⟩
  | some path_len =>
    let n := path_len.toNat
    let path_len := if 1 < path_len then path_len-1 else path_len
    if path_len < -1 then ⟨some .noMemory, scan.reads⟩
    else if path_len < 0 then ⟨none, scan.reads⟩
    else ⟨some (.accepted (b.path.take path_len.toNat) (b.path.drop n)),
      scan.reads ++ (span 0 path_len.toNat ++ span n (b.path.length+1-n))⟩

end Memory

section Entry

/-- `interpret_table_entry` up to the split of the path. `type` is `stale` where the line has no
type field. -/
def interpretPath (before : List Byte) (stale : Byte) (line : List Byte) : Probe PathResult :=
  match scanHead 1023 line with
  | none => ⟨some (.errmsg .sscanf), []⟩
  | some h =>
    let b : PathBuf := ⟨before, h.name⟩
    let strnlen := span 0 (h.name.length+1)
    let checks := runChecks (pathChecks b)
    match checks.result with
    | none => ⟨none, strnlen ++ checks.reads⟩
    | some (.error e) => ⟨some (.errmsg e), strnlen ++ checks.reads⟩
    | some (.ok ()) =>
      match Ubifs.typeBits (some (h.type.getD stale)) with
      | .error e => ⟨some (.errmsg e), strnlen ++ checks.reads⟩
      | .ok _ =>
        let split := separateLastAt b
        ⟨split.result, strnlen ++ checks.reads ++ split.reads⟩

/-- An absolute path with no empty component, no `.` and no `..`. -/
def CleanPath (path : List Byte) : Prop :=
  ∃ comps : List (List Byte), comps ≠ [] ∧ path = comps.flatMap (slash :: ·) ∧
    ∀ c ∈ comps, slash ∉ c ∧ c ≠ [] ∧ c ≠ literal "." ∧ c ≠ literal ".."

/-- The path is the directory, a slash and the name. The root has the slash alone. -/
def Splits (path dir name : List Byte) : Prop :=
  dir ≠ [] ∧ name ≠ [] ∧ slash ∉ name ∧ path = (if dir = [slash] then [] else dir) ++ slash :: name

/-- What is asked of a line: no byte outside of the buffer is read, and a path that is accepted is
clean and split at its last slash. -/
structure PathHandled (before : List Byte) (stale : Byte) (line : List Byte) : Prop where
  inside : ∀ i ∈ (interpretPath before stale line).reads, 0 ≤ i ∧ i < 1024
  clean : ∀ dir name, (interpretPath before stale line).result = some (.accepted dir name) →
    ∃ h, scanHead 1023 line = some h ∧ CleanPath h.name ∧ Splits h.name dir name

/-- A path that one of the checks rejects before the last comparison is made. -/
def RejectedEarly (path : List Byte) : Prop :=
  literal "//" <:+: path ∨ literal "/" <:+ path ∨ literal "/./" <:+: path ∨
    literal "/../" <:+: path ∨ literal "/." <:+ path

/-- The lines that are safe: the comparison three bytes before the end is not made with a path of
two bytes, and a path that is not absolute is rejected for another reason. -/
def PathFits (stale : Byte) (line : List Byte) : Prop :=
  ∀ h, scanHead 1023 line = some h →
    (h.name.length = 2 → RejectedEarly h.name) ∧
    (2 < h.name.length → h.name.head? = some slash ∨ RejectedEarly h.name ∨
      literal "/.." <:+ h.name ∨ ∀ bits, Ubifs.typeBits (some (h.type.getD stale)) ≠ .ok bits)

end Entry

section Reads

variable {b : PathBuf}

/-- The reads are in the string or are its null byte. -/
def Probe.Inside {α : Type} (p : Probe α) (len : ℕ) : Prop := ∀ i ∈ p.reads, 0 ≤ i ∧ i ≤ len

theorem span_inside {lo n len : ℕ} (h : lo+n ≤ len+1) : ∀ i ∈ span lo n, 0 ≤ i ∧ i ≤ (len : ℤ) := by
  intro i hi
  obtain ⟨k, hk, rfl⟩ := List.mem_map.mp hi
  rw [List.mem_range'_1] at hk
  omega

theorem byte_nat (b : PathBuf) (i : ℕ) : b.byte i = (b.path ++ [0#8])[i]? := by
  unfold PathBuf.byte
  rw [if_neg (by omega), Int.toNat_natCast]

theorem byte_lt {i : ℕ} (h : i < b.path.length) : b.byte i = some b.path[i] := by
  rw [byte_nat, List.getElem?_append_left h, List.getElem?_eq_getElem h]

theorem byte_len (b : PathBuf) : b.byte b.path.length = some 0#8 := by
  rw [byte_nat, List.getElem?_append_right (le_refl _), Nat.sub_self]
  rfl

theorem byteIs_inside {i : ℕ} (c : Byte) (h : i ≤ b.path.length) :
    (byteIs b i c).Inside b.path.length := by
  intro j hj
  rw [List.mem_singleton.mp hj]
  omega

/-- The comparison of a string at an index in the buffer, which ends with the null byte at the
latest. -/
theorem strcmpAt_spec (h0 : 0#8 ∉ b.path) {s : List Byte} (hs : 0#8 ∉ s) {i : ℕ}
    (hi : i ≤ b.path.length) : (strcmpAt b i s).result = some (decide (b.path.drop i = s)) ∧
      (strcmpAt b i s).Inside b.path.length := by
  induction s generalizing i with
  | nil =>
    refine ⟨?_, byteIs_inside 0#8 hi⟩
    rw [strcmpAt, byteIs]
    rcases Nat.lt_or_eq_of_le hi with hlt | rfl
    · have hne : b.path[i] ≠ 0#8 := ne_of_mem_of_not_mem (List.getElem_mem hlt) h0
      rw [byte_lt hlt, Option.map_some, decide_eq_false hne, decide_eq_false]
      rw [List.drop_eq_nil_iff]
      omega
    · rw [byte_len, List.drop_length]
      rfl
  | cons c s ih =>
    rw [List.mem_cons, not_or] at hs
    rw [strcmpAt]
    rcases Nat.lt_or_eq_of_le hi with hlt | rfl
    · rw [byte_lt hlt]
      dsimp only
      have hdrop := List.drop_eq_getElem_cons hlt
      obtain ⟨hres, hin⟩ := ih hs.2 (show i+1 ≤ b.path.length from hlt)
      rw [Nat.cast_add, Nat.cast_one] at hres hin
      by_cases hc : b.path[i] = c
      · rw [if_pos hc]
        constructor
        · dsimp only
          rw [hres, hdrop, hc]
          congr 1
          rw [decide_eq_decide, List.cons_inj_right]
        · intro j hj
          rcases List.mem_cons.mp hj with rfl | hj
          · omega
          · exact hin j hj
      · rw [if_neg hc]
        constructor
        · dsimp only
          rw [decide_eq_false]
          rw [hdrop]
          exact fun h => hc (List.cons.inj h).1
        · intro j hj
          rw [List.mem_singleton.mp hj]
          omega
    · rw [byte_len]
      dsimp only
      rw [if_neg (fun h => hs.1 h), List.drop_length]
      refine ⟨rfl, ?_⟩
      intro j hj
      rw [List.mem_singleton.mp hj]
      omega

theorem drop_eq_iff_suffix {l s : List Byte} (h : s.length ≤ l.length) :
    l.drop (l.length-s.length) = s ↔ s <:+ l := by
  constructor
  · intro heq
    rw [← heq]
    exact List.drop_suffix _ _
  · rintro ⟨t, rfl⟩
    rw [List.length_append, Nat.add_sub_cancel, List.drop_left]

theorem byteIs_last {c : Byte} (h : b.path ≠ []) :
    (byteIs b ((b.path.length-1 : ℕ) : ℤ) c).result = some (decide ([c] <:+ b.path)) := by
  have hpos := List.length_pos_of_ne_nil h
  have hlt : b.path.length-1 < b.path.length := by omega
  unfold byteIs
  rw [byte_lt hlt, Option.map_some]
  dsimp only
  congr 1
  rw [decide_eq_decide, ← drop_eq_iff_suffix (show [c].length ≤ b.path.length from hpos)]
  change _ ↔ b.path.drop (b.path.length-1) = [c]
  rw [List.drop_eq_getElem_cons hlt, Nat.sub_add_cancel hpos, List.drop_length, List.singleton_inj]

/-- Checks that all have a result: one of them is met, or they are passed. -/
theorem runChecks_cases {l : List (Probe Bool × Ubifs.Err)} {len : ℕ}
    (h : ∀ x ∈ l, x.1.Inside len ∧ ∃ v, x.1.result = some v) :
    (runChecks l).Inside len ∧
    (((∀ x ∈ l, x.1.result = some false) ∧ (runChecks l).result = some (.ok ())) ∨
      ((∃ x ∈ l, x.1.result = some true) ∧ ∃ e, (runChecks l).result = some (.error e))) := by
  induction l with
  | nil => exact ⟨fun i hi => absurd hi List.not_mem_nil,
      Or.inl ⟨fun x hx => absurd hx List.not_mem_nil, rfl⟩⟩
  | cons x l ih =>
    obtain ⟨p, e⟩ := x
    obtain ⟨hin, v, hv⟩ := h _ List.mem_cons_self
    dsimp only at hin hv
    rw [runChecks, hv]
    cases v with
    | true => exact ⟨hin, Or.inr ⟨⟨_, List.mem_cons_self, hv⟩, e, rfl⟩⟩
    | false =>
      obtain ⟨hin', hcases⟩ := ih fun x hx => h x (List.mem_cons_of_mem _ hx)
      refine ⟨?_, ?_⟩
      · intro i hi
        exact (List.mem_append.mp hi).elim (hin i) (hin' i)
      · rcases hcases with ⟨hall, hok⟩ | ⟨⟨x, hx, ht⟩, e', he⟩
        · refine Or.inl ⟨?_, hok⟩
          intro x hx
          rcases List.mem_cons.mp hx with rfl | hx
          · exact hv
          · exact hall x hx
        · exact Or.inr ⟨⟨x, List.mem_cons_of_mem _ hx, ht⟩, e', he⟩

/-- Behind checks that are passed come the next ones. -/
theorem runChecks_append {l r : List (Probe Bool × Ubifs.Err)}
    (h : (runChecks l).result = some (.ok ())) : runChecks (l ++ r) =
      ⟨(runChecks r).result, (runChecks l).reads ++ (runChecks r).reads⟩ := by
  induction l with
  | nil => rfl
  | cons x l ih =>
    obtain ⟨p, e⟩ := x
    rw [runChecks] at h
    rw [List.cons_append, runChecks, runChecks]
    cases hp : p.result with
    | none =>
      rw [hp] at h
      cases h
    | some v =>
      rw [hp] at h
      cases v with
      | true => cases h
      | false =>
        dsimp only at h ⊢
        rw [ih h, List.append_assoc]

theorem runChecks_stop {l r : List (Probe Bool × Ubifs.Err)} {e : Ubifs.Err}
    (h : (runChecks l).result = some (.error e)) : runChecks (l ++ r) = runChecks l := by
  induction l with
  | nil => cases h
  | cons x l ih =>
    obtain ⟨p, e⟩ := x
    rw [runChecks] at h
    rw [List.cons_append, runChecks, runChecks]
    cases hp : p.result with
    | none => rfl
    | some v =>
      rw [hp] at h
      cases v with
      | true => rfl
      | false =>
        dsimp only at h ⊢
        rw [ih h]

/-- The checks before the last one. -/
def earlyChecks (b : PathBuf) : List (Probe Bool × Ubifs.Err) := (pathChecks b).take 7

def lastCheck (b : PathBuf) : Probe Bool := strcmpAt b ((b.path.length : ℤ)-3) (literal "/..")

theorem pathChecks_eq (b : PathBuf) :
    pathChecks b = earlyChecks b ++ [(lastCheck b, .dots)] := rfl

/-- The early checks of a path of two bytes and more read the string alone. They meet what the
words of `RejectedEarly` say. -/
theorem earlyChecks_spec (h0 : 0#8 ∉ b.path) (hlen : 2 ≤ b.path.length) :
    (runChecks (earlyChecks b)).Inside b.path.length ∧
    ((¬ RejectedEarly b.path ∧ (runChecks (earlyChecks b)).result = some (.ok ())) ∨
      (RejectedEarly b.path ∧ ∃ e, (runChecks (earlyChecks b)).result = some (.error e))) := by
  have hne : b.path ≠ [] := by
    intro h
    rw [h] at hlen
    cases hlen
  obtain ⟨hroot, hrootin⟩ := @strcmpAt_spec b h0 (literal "/") (by decide) 0 (Nat.zero_le _)
  obtain ⟨hdot, hdotin⟩ := @strcmpAt_spec b h0 (literal "/.") (by decide) (b.path.length-2) (by omega)
  have hsuffix : b.path.drop (b.path.length-2) = literal "/." ↔ literal "/." <:+ b.path :=
    drop_eq_iff_suffix (s := literal "/.") hlen
  rw [decide_eq_decide.mpr hsuffix] at hdot
  have hone : (byteIs b ((1 : ℕ) : ℤ) 0#8).result = some false := by
    unfold byteIs
    have hlt : 1 < b.path.length := hlen
    rw [byte_lt hlt, Option.map_some, decide_eq_false (ne_of_mem_of_not_mem (List.getElem_mem hlt) h0)]
  have hlast := @byteIs_last b slash hne
  have hrootf : (strcmpAt b 0 (literal "/")).result = some false := by
    have hne1 : b.path.drop 0 ≠ literal "/" := by
      intro h
      rw [List.drop_zero] at h
      rw [h] at hlen
      exact absurd hlen (by decide)
    rw [decide_eq_false hne1] at hroot
    exact hroot
  rw [Nat.cast_sub (by omega)] at hlast hdot hdotin
  have hin1 := @byteIs_inside b 1 0#8 (by omega)
  have hinlast := @byteIs_inside b (b.path.length-1) slash (by omega)
  rw [Nat.cast_sub (by omega)] at hinlast
  have hstr (s : List Byte) : (strstrIn b s).Inside b.path.length := span_inside (by omega)
  have hall : ∀ x ∈ earlyChecks b, x.1.Inside b.path.length ∧ ∃ v, x.1.result = some v := by
    intro x hx
    simp only [earlyChecks, pathChecks, List.take, List.mem_cons, List.not_mem_nil, or_false] at hx
    rcases hx with rfl | rfl | rfl | rfl | rfl | rfl | rfl
    · exact ⟨hrootin, _, hrootf⟩
    · exact ⟨hin1, _, hone⟩
    · exact ⟨hstr _, _, rfl⟩
    · exact ⟨hinlast, _, hlast⟩
    · exact ⟨hstr _, _, rfl⟩
    · exact ⟨hstr _, _, rfl⟩
    · exact ⟨hdotin, _, hdot⟩
  obtain ⟨hin, hcases⟩ := runChecks_cases hall
  refine ⟨hin, ?_⟩
  rcases hcases with ⟨hno, hok⟩ | ⟨⟨x, hx, ht⟩, he⟩
  · refine Or.inl ⟨?_, hok⟩
    have hfalse {p : Probe Bool} {e : Ubifs.Err} {P : Prop} [Decidable P]
        (hmem : (p, e) ∈ earlyChecks b) (hp : p.result = some (decide P)) : ¬ P := by
      have := hno _ hmem
      rw [hp] at this
      exact of_decide_eq_false (Option.some.inj this)
    rintro (h | h | h | h | h)
    · exact hfalse (p := strstrIn b (literal "//")) (e := .doubleSlash)
        (by simp [earlyChecks, pathChecks]) rfl h
    · exact hfalse (p := byteIs b ((b.path.length : ℤ)-1) slash) (e := .slashAtEnd)
        (by simp [earlyChecks, pathChecks]) hlast h
    · exact hfalse (p := strstrIn b (literal "/./")) (e := .dots)
        (by simp [earlyChecks, pathChecks]) rfl h
    · exact hfalse (p := strstrIn b (literal "/../")) (e := .dots)
        (by simp [earlyChecks, pathChecks]) rfl h
    · exact hfalse (p := strcmpAt b ((b.path.length : ℤ)-2) (literal "/.")) (e := .dots)
        (by simp [earlyChecks, pathChecks]) hdot h
  · refine Or.inr ⟨?_, he⟩
    have htrue {p : Probe Bool} {P : Prop} [Decidable P] (hp : p.result = some (decide P))
        (ht : p.result = some true) : P := by
      rw [hp] at ht
      exact of_decide_eq_true (Option.some.inj ht)
    simp only [earlyChecks, pathChecks, List.take, List.mem_cons, List.not_mem_nil, or_false] at hx
    rcases hx with rfl | rfl | rfl | rfl | rfl | rfl | rfl
    · rw [hrootf] at ht
      cases ht
    · rw [show ((1 : ℤ) = ((1 : ℕ) : ℤ)) from rfl, hone] at ht
      cases ht
    · exact Or.inl (htrue rfl ht)
    · exact Or.inr (Or.inl (htrue hlast ht))
    · exact Or.inr (Or.inr (Or.inl (htrue rfl ht)))
    · exact Or.inr (Or.inr (Or.inr (Or.inl (htrue rfl ht))))
    · exact Or.inr (Or.inr (Or.inr (Or.inr (htrue hdot ht))))

end Reads

section Split

variable {b : PathBuf}

theorem splitByte_lt {dir name : List Byte} (h : b.path = dir ++ slash :: name) :
    dir.length < b.path.length ∧ b.byte dir.length = some slash := by
  have hlt : dir.length < b.path.length := by
    rw [h, List.length_append, List.length_cons]
    omega
  refine ⟨hlt, ?_⟩
  rw [byte_lt hlt]
  simp [h]

/-- Behind the last slash the scan goes back byte by byte. -/
theorem backScan_split {dir name : List Byte} (h : b.path = dir ++ slash :: name)
    (hn : slash ∉ name) (k fuel : ℕ) (hk : k ≤ name.length) (hf : k < fuel) :
    (backScan b fuel ((dir.length+1+k : ℕ) : ℤ)).result = some ((dir.length+1 : ℕ) : ℤ) ∧
    (backScan b fuel ((dir.length+1+k : ℕ) : ℤ)).Inside b.path.length := by
  have hlen : b.path.length = dir.length+1+name.length := by
    rw [h, List.length_append, List.length_cons]
    omega
  induction k generalizing fuel with
  | zero =>
    obtain ⟨fuel, rfl⟩ : ∃ f, fuel = f+1 := ⟨fuel-1, by omega⟩
    have hidx : ((dir.length+1+0 : ℕ) : ℤ)-1 = (dir.length : ℕ) := by omega
    rw [backScan, hidx, (splitByte_lt h).2]
    dsimp only
    rw [if_pos rfl]
    refine ⟨rfl, ?_⟩
    intro i hi
    rw [List.mem_singleton.mp hi]
    omega
  | succ k ih =>
    obtain ⟨fuel, rfl⟩ : ∃ f, fuel = f+1 := ⟨fuel-1, by omega⟩
    have hidx : ((dir.length+1+(k+1) : ℕ) : ℤ)-1 = ((dir.length+1+k : ℕ) : ℤ) := by omega
    have hbyte : ∃ x, b.byte ((dir.length+1+k : ℕ) : ℤ) = some x ∧ x ≠ slash := by
      refine ⟨name[k], ?_, ne_of_mem_of_not_mem (List.getElem_mem _) hn⟩
      rw [byte_nat, List.getElem?_append_left (by omega), h, List.getElem?_append_right (by omega),
        show dir.length+1+k-dir.length = k+1 by omega, List.getElem?_cons_succ,
        List.getElem?_eq_getElem]
    obtain ⟨x, hx, hne⟩ := hbyte
    obtain ⟨hres, hin⟩ := ih fuel (by omega) (by omega)
    rw [backScan, hidx, hx]
    dsimp only
    rw [if_neg hne]
    refine ⟨hres, ?_⟩
    intro i hi
    rcases List.mem_cons.mp hi with rfl | hi
    · omega
    · exact hin i hi

/-- Without a slash the scan leaves the buffer. -/
theorem backScan_leaves (h : slash ∉ b.path) (k fuel : ℕ) (hk : k ≤ b.path.length) (hf : k < fuel) :
    -1 ∈ (backScan b fuel (k : ℤ)).reads := by
  induction k generalizing fuel with
  | zero =>
    obtain ⟨fuel, rfl⟩ : ∃ f, fuel = f+1 := ⟨fuel-1, by omega⟩
    rw [backScan]
    split
    · exact List.mem_cons_self
    · split
      · exact List.mem_cons_self
      · exact List.mem_cons_self
  | succ k ih =>
    obtain ⟨fuel, rfl⟩ : ∃ f, fuel = f+1 := ⟨fuel-1, by omega⟩
    have hidx : ((k+1 : ℕ) : ℤ)-1 = (k : ℕ) := by omega
    have hlt : k < b.path.length := by omega
    rw [backScan, hidx, byte_lt hlt]
    dsimp only
    rw [if_neg (ne_of_mem_of_not_mem (List.getElem_mem hlt) h)]
    exact List.mem_cons_of_mem _ (ih fuel (by omega) (by omega))

/-- A path with a slash is split at the last one, and nothing is read outside of it. -/
theorem separateLastAt_split {dir name : List Byte} (h : b.path = dir ++ slash :: name)
    (hn : slash ∉ name) :
    (separateLastAt b).result = some (.accepted (if dir = [] then [slash] else dir) name) ∧
    (separateLastAt b).Inside b.path.length := by
  have hlen : b.path.length = dir.length+1+name.length := by
    rw [h, List.length_append, List.length_cons]
    omega
  obtain ⟨hres, hin⟩ := backScan_split h hn name.length (b.path.length+b.before.length+1)
    (le_refl _) (by omega)
  rw [← hlen] at hres hin
  have hdrop : b.path.drop (dir.length+1) = name := by
    rw [h, List.append_cons]
    exact List.drop_left' (by simp)
  -- the slash stays only with the root
  have hcut : (if (1 : ℤ) < (dir.length+1 : ℕ) then ((dir.length+1 : ℕ) : ℤ)-1
      else ((dir.length+1 : ℕ) : ℤ)) = ((if dir = [] then 1 else dir.length : ℕ) : ℤ) := by
    rcases List.eq_nil_or_concat dir with rfl | ⟨d, x, rfl⟩
    · rfl
    · rw [if_pos (by simp), if_neg (by simp)]
      omega
  have htake : b.path.take (if dir = [] then 1 else dir.length) = if dir = [] then [slash] else dir := by
    rw [h]
    split
    next hd =>
      rw [hd]
      rfl
    · exact List.take_left
  unfold separateLastAt
  dsimp only
  rw [hres]
  dsimp only
  rw [hcut, if_neg (by omega), if_neg (by omega), Int.toNat_natCast, Int.toNat_natCast]
  refine ⟨?_, ?_⟩
  · dsimp only
    rw [htake, hdrop]
  · intro i hi
    rcases List.mem_append.mp hi with hi | hi
    · exact hin i hi
    · rcases List.mem_append.mp hi with hi | hi
      · refine span_inside ?_ i hi
        split <;> omega
      · refine span_inside ?_ i hi
        omega

theorem separateLastAt_leaves (h : slash ∉ b.path) : -1 ∈ (separateLastAt b).reads := by
  have hscan := backScan_leaves (b := b) h b.path.length (b.path.length+b.before.length+1)
    (le_refl _) (by omega)
  unfold separateLastAt
  dsimp only
  repeat' split
  all_goals first | exact hscan | exact List.mem_append_left _ hscan

end Split

section Clean

/-- What is behind a slash is a row of components. -/
theorem exists_components (rest : List Byte) : ∃ comps : List (List Byte), comps ≠ [] ∧
    slash :: rest = comps.flatMap (slash :: ·) ∧ ∀ c ∈ comps, slash ∉ c := by
  induction rest with
  | nil => exact ⟨[[]], by simp, rfl, by simp⟩
  | cons x rest ih =>
    obtain ⟨comps, hne, heq, hno⟩ := ih
    by_cases hx : x = slash
    · refine ⟨[] :: comps, by simp, ?_, ?_⟩
      · rw [List.flatMap_cons, ← heq, hx]
        rfl
      · intro c hc
        rcases List.mem_cons.mp hc with rfl | hc
        · exact List.not_mem_nil
        · exact hno c hc
    · obtain ⟨c, cs, rfl⟩ := List.exists_cons_of_ne_nil hne
      rw [List.flatMap_cons, List.cons_append] at heq
      refine ⟨(x :: c) :: cs, by simp, ?_, ?_⟩
      · rw [List.flatMap_cons, List.cons_append, List.cons_append, ← (List.cons.inj heq).2]
      · intro d hd
        rcases List.mem_cons.mp hd with rfl | hd
        · rw [List.mem_cons, not_or]
          exact ⟨fun h => hx h.symm, hno c List.mem_cons_self⟩
        · exact hno d (List.mem_cons_of_mem _ hd)

/-- Behind a component is the end of the path, or the slash of the next one. -/
theorem component_place {comps : List (List Byte)} {c : List Byte} (hc : c ∈ comps) :
    slash :: c <:+ comps.flatMap (slash :: ·) ∨ slash :: c ++ [slash] <:+: comps.flatMap (slash :: ·) := by
  obtain ⟨s, t, rfl⟩ := List.append_of_mem hc
  rw [List.flatMap_append, List.flatMap_cons]
  cases t with
  | nil =>
    rw [List.flatMap_nil, List.append_nil]
    exact Or.inl (List.suffix_append _ _)
  | cons d t =>
    rw [List.flatMap_cons]
    refine Or.inr ⟨s.flatMap (slash :: ·), d ++ t.flatMap (slash :: ·), ?_⟩
    simp

/-- An absolute path that no check rejects is clean. -/
theorem cleanPath_of_passed {path : List Byte} (habs : path.head? = some slash)
    (hearly : ¬ RejectedEarly path) (hlast : ¬ literal "/.." <:+ path) : CleanPath path := by
  obtain ⟨rest, rfl⟩ := List.head?_eq_some_iff.mp habs
  obtain ⟨comps, hne, heq, hno⟩ := exists_components rest
  refine ⟨comps, hne, heq, ?_⟩
  intro c hc
  have hplace := component_place hc
  rw [← heq] at hplace
  refine ⟨hno c hc, ?_, ?_, ?_⟩
  · rintro rfl
    rcases hplace with h | h
    · exact hearly (Or.inr (Or.inl h))
    · exact hearly (Or.inl h)
  · rintro rfl
    rcases hplace with h | h
    · exact hearly (Or.inr (Or.inr (Or.inr (Or.inr h))))
    · exact hearly (Or.inr (Or.inr (Or.inl h)))
  · rintro rfl
    rcases hplace with h | h
    · exact hlast h
    · exact hearly (Or.inr (Or.inr (Or.inr (Or.inl h))))

/-- What stands between a slash and the next one, or the end, is a component. -/
theorem mem_components {comps : List (List Byte)} (hno : ∀ c ∈ comps, slash ∉ c) {A w B : List Byte}
    (heq : comps.flatMap (slash :: ·) = A ++ slash :: (w ++ B)) (hw : slash ∉ w)
    (hB : B = [] ∨ B.head? = some slash) : w ∈ comps := by
  have hcut {u v : List Byte} (hu : slash ∉ u) (hv : v = [] ∨ v.head? = some slash) :
      (u ++ v).takeWhile (· ≠ slash) = u := by
    rw [List.takeWhile_append_of_pos (by simpa using fun x hx => ne_of_mem_of_not_mem hx hu)]
    rcases hv with rfl | hv
    · exact List.append_nil u
    · obtain ⟨t, rfl⟩ := List.head?_eq_some_iff.mp hv
      rw [List.takeWhile_cons_of_neg (by simp), List.append_nil]
  induction comps generalizing A with
  | nil => simp at heq
  | cons c cs ih =>
    obtain ⟨hc, hcs⟩ := List.forall_mem_cons.mp hno
    rw [List.flatMap_cons, List.cons_append] at heq
    have hrest : cs.flatMap (slash :: ·) = [] ∨ (cs.flatMap (slash :: ·)).head? = some slash := by
      cases cs with
      | nil => exact Or.inl rfl
      | cons d ds => exact Or.inr rfl
    cases A with
    | nil =>
      have htail := congrArg (List.takeWhile (· ≠ slash)) (List.cons.inj heq).2
      rw [hcut hc hrest, hcut hw hB] at htail
      rw [htail]
      exact List.mem_cons_self
    | cons a A =>
      rw [List.cons_append] at heq
      rcases List.append_eq_append_iff.mp (List.cons.inj heq).2 with ⟨u, hu, hv⟩ | ⟨u, hu, hv⟩
      · exact List.mem_cons_of_mem _ (ih hcs hv)
      · -- the slash would be in the component
        cases u with
        | nil =>
          rw [List.nil_append] at hv
          exact List.mem_cons_of_mem _ (@ih hcs [] hv.symm)
        | cons x u =>
          rw [List.cons_append] at hv
          rw [hu, ← (List.cons.inj hv).1] at hc
          exact absurd (List.mem_append_right _ List.mem_cons_self) hc

/-- The checks decide whether an absolute path is clean. -/
theorem cleanPath_iff {path : List Byte} : CleanPath path ↔ path.head? = some slash ∧
    ¬ RejectedEarly path ∧ ¬ literal "/.." <:+ path := by
  constructor
  · intro hclean
    refine ⟨?_, ?_⟩
    · obtain ⟨comps, hne, rfl, -⟩ := hclean
      obtain ⟨c, cs, rfl⟩ := List.exists_cons_of_ne_nil hne
      rfl
    · obtain ⟨comps, -, heq, hall⟩ := hclean
      have hno : ∀ c ∈ comps, slash ∉ c := fun c hc => (hall c hc).1
      have hmem {A w B : List Byte} (h : A ++ slash :: (w ++ B) = path) (hw : slash ∉ w)
          (hB : B = [] ∨ B.head? = some slash) : w ∈ comps :=
        mem_components hno (heq.symm.trans h.symm) hw hB
      refine ⟨?_, ?_⟩
      · rintro (⟨A, B, h⟩ | ⟨A, h⟩ | ⟨A, B, h⟩ | ⟨A, B, h⟩ | ⟨A, h⟩)
        · rw [List.append_assoc] at h
          exact (hall [] (@hmem A [] (slash :: B) h (by simp) (Or.inr rfl))).2.1 rfl
        · exact (hall [] (@hmem A [] [] h (by simp) (Or.inl rfl))).2.1 rfl
        · rw [List.append_assoc] at h
          exact (hall _ (@hmem A (literal ".") (slash :: B) h (by decide) (Or.inr rfl))).2.2.1 rfl
        · rw [List.append_assoc] at h
          exact (hall _ (@hmem A (literal "..") (slash :: B) h (by decide) (Or.inr rfl))).2.2.2 rfl
        · exact (hall _ (@hmem A (literal ".") [] h (by decide) (Or.inl rfl))).2.2.1 rfl
      · rintro ⟨A, h⟩
        exact (hall _ (@hmem A (literal "..") [] h (by decide) (Or.inl rfl))).2.2.2 rfl
  · rintro ⟨habs, hearly, hlast⟩
    exact cleanPath_of_passed habs hearly hlast

end Clean

section Handled

variable {before : List Byte} {stale : Byte} {line : List Byte} {h : Head}

/-- What `sscanf` leaves in the buffer. -/
theorem scanHead_name (hs : scanHead 1023 line = some h) :
    h.name ≠ [] ∧ h.name.length ≤ 1023 ∧ h.name ⊆ line := by
  have hname : ∃ rest, scanString 1023 line = some (h.name, rest) := by
    unfold scanHead at hs
    cases ht : scanString 1023 line with
    | none =>
      rw [ht] at hs
      cases hs
    | some t =>
      obtain ⟨name, rest⟩ := t
      rw [ht] at hs
      dsimp only at hs
      split at hs
      · obtain rfl := Option.some.inj hs
        exact ⟨rest, rfl⟩
      · split at hs
        · obtain rfl := Option.some.inj hs
          exact ⟨rest, rfl⟩
        · obtain rfl := Option.some.inj hs
          exact ⟨rest, rfl⟩
  obtain ⟨rest, hscan⟩ := hname
  unfold scanString at hscan
  dsimp only at hscan
  split at hscan
  · cases hscan
  next hne =>
    obtain ⟨heq, -⟩ := Prod.mk.inj (Option.some.inj hscan)
    rw [← heq]
    refine ⟨hne, List.length_take_le _ _, ?_⟩
    intro x hx
    have h1 := List.mem_of_mem_take hx
    have h2 := (List.takeWhile_prefix _).subset h1
    exact (List.dropWhile_suffix _).subset h2

/-- A line that is rejected behind the checks has read no more than they have. -/
theorem handled_of_errmsg {e : Ubifs.Err} (hs : scanHead 1023 line = some h)
    (hin : (runChecks (pathChecks ⟨before, h.name⟩)).Inside h.name.length)
    (hrun : interpretPath before stale line = ⟨some (.errmsg e), span 0 (h.name.length+1) ++
      (runChecks (pathChecks ⟨before, h.name⟩)).reads⟩) : PathHandled before stale line := by
  have hlen := (scanHead_name hs).2.1
  constructor
  · rw [hrun]
    intro i hi
    rcases List.mem_append.mp hi with hi | hi
    · have := @span_inside 0 (h.name.length+1) h.name.length (by omega) i hi
      omega
    · have := hin i hi
      omega
  · intro dir name hres
    rw [hrun] at hres
    cases hres

theorem handled_of_rejected {e : Ubifs.Err} (hs : scanHead 1023 line = some h)
    (hin : (runChecks (pathChecks ⟨before, h.name⟩)).Inside h.name.length)
    (he : (runChecks (pathChecks ⟨before, h.name⟩)).result = some (.error e)) :
    PathHandled before stale line := by
  refine handled_of_errmsg hs hin (e := e) ?_
  unfold interpretPath
  rw [hs]
  dsimp only
  rw [he]

theorem not_handled_of_read (hneg : -1 ∈ (interpretPath before stale line).reads) :
    ¬ PathHandled before stale line := by
  intro hh
  have := (hh.inside _ hneg).1
  omega

/-- A path of one byte is rejected by the first two checks. -/
theorem handled_one (hs : scanHead 1023 line = some h) (h0 : 0#8 ∉ h.name)
    (hlen : h.name.length = 1) : PathHandled before stale line := by
  obtain ⟨x, hx⟩ := List.length_eq_one_iff.mp hlen
  obtain ⟨hres, hin⟩ := @strcmpAt_spec ⟨before, h.name⟩ h0 (literal "/") (by decide) 0 (Nat.zero_le _)
  have htwo : (byteIs ⟨before, h.name⟩ 1 0#8).result = some true := by
    have := byte_len ⟨before, h.name⟩
    rw [hlen] at this
    unfold byteIs
    change (PathBuf.byte ⟨before, h.name⟩ ((1 : ℕ) : ℤ)).map _ = _
    rw [this]
    rfl
  have hin2 := @byteIs_inside ⟨before, h.name⟩ 1 0#8 hlen.ge
  by_cases hroot : h.name = literal "/"
  · have hmet : runChecks (pathChecks ⟨before, h.name⟩) =
        ⟨some (.error .absolutePath), (strcmpAt ⟨before, h.name⟩ 0 (literal "/")).reads⟩ := by
      rw [List.drop_zero, decide_eq_true hroot] at hres
      rw [pathChecks, runChecks, show (0 : ℤ) = ((0 : ℕ) : ℤ) from rfl, hres]
    refine @handled_of_rejected before stale line h .absolutePath hs ?_ ?_
    · rw [hmet]
      exact hin
    · rw [hmet]
  · have hmet : runChecks (pathChecks ⟨before, h.name⟩) = ⟨some (.error .rootDirectory),
        (strcmpAt ⟨before, h.name⟩ 0 (literal "/")).reads ++
          (byteIs ⟨before, h.name⟩ 1 0#8).reads⟩ := by
      rw [List.drop_zero, decide_eq_false hroot] at hres
      rw [pathChecks, runChecks, show (0 : ℤ) = ((0 : ℕ) : ℤ) from rfl, hres, runChecks, htwo]
    refine @handled_of_rejected before stale line h .rootDirectory hs ?_ ?_
    · rw [hmet]
      intro i hi
      exact (List.mem_append.mp hi).elim (hin i) (hin2 i)
    · rw [hmet]

/-- The last comparison starts before the buffer where the path has two bytes. -/
theorem lastCheck_two {b : PathBuf} (hlen : b.path.length = 2) : -1 ∈ (lastCheck b).reads := by
  have hidx : (b.path.length : ℤ)-3 = -1 := by omega
  unfold lastCheck
  rw [hidx]
  change -1 ∈ (strcmpAt b (-1) (0x2f#8 :: [0x2e#8, 0x2e#8])).reads
  rw [strcmpAt]
  repeat' split
  all_goals exact List.mem_cons_self

theorem handled_two (hs : scanHead 1023 line = some h) (h0 : 0#8 ∉ h.name)
    (hlen : h.name.length = 2) : PathHandled before stale line ↔ RejectedEarly h.name := by
  obtain ⟨hin, hcases⟩ := @earlyChecks_spec ⟨before, h.name⟩ h0 hlen.ge
  rcases hcases with ⟨hno, hok⟩ | ⟨hyes, e, he⟩
  · refine iff_of_false (not_handled_of_read ?_) hno
    have hlast := @lastCheck_two ⟨before, h.name⟩ hlen
    have hreads : -1 ∈ (runChecks (pathChecks ⟨before, h.name⟩)).reads := by
      rw [pathChecks_eq, runChecks_append hok]
      apply List.mem_append_right
      rw [runChecks]
      repeat' split
      · exact hlast
      · exact hlast
      · exact List.mem_append_left _ hlast
    unfold interpretPath
    rw [hs]
    dsimp only
    repeat' split
    all_goals first
      | exact List.mem_append_right _ hreads
      | exact List.mem_append_left _ (List.mem_append_right _ hreads)
  · refine iff_of_true ?_ hyes
    refine @handled_of_rejected before stale line h e hs ?_ ?_
    · rw [pathChecks_eq, runChecks_stop he]
      exact hin
    · rw [pathChecks_eq, runChecks_stop he, he]

/-- All checks of a longer path read the string alone. -/
theorem checks_long {b : PathBuf} (h0 : 0#8 ∉ b.path) (hlen : 2 < b.path.length) :
    (runChecks (pathChecks b)).Inside b.path.length ∧
    ((¬ RejectedEarly b.path ∧ ¬ literal "/.." <:+ b.path ∧
        (runChecks (pathChecks b)).result = some (.ok ())) ∨
      ((RejectedEarly b.path ∨ literal "/.." <:+ b.path) ∧
        ∃ e, (runChecks (pathChecks b)).result = some (.error e))) := by
  obtain ⟨hin, hcases⟩ := @earlyChecks_spec b h0 hlen.le
  rw [pathChecks_eq]
  rcases hcases with ⟨hno, hok⟩ | ⟨hyes, e, he⟩
  · obtain ⟨hres, hlast⟩ := @strcmpAt_spec b h0 (literal "/..") (by decide) (b.path.length-3) (by omega)
    have hsuffix : b.path.drop (b.path.length-3) = literal "/.." ↔ literal "/.." <:+ b.path :=
      drop_eq_iff_suffix (s := literal "/..") hlen
    rw [decide_eq_decide.mpr hsuffix] at hres
    rw [Nat.cast_sub (by omega)] at hres hlast
    have hlast' : (lastCheck b).Inside b.path.length := hlast
    have hres' : (lastCheck b).result = some (decide (literal "/.." <:+ b.path)) := hres
    rw [runChecks_append hok, runChecks, hres']
    by_cases hdots : literal "/.." <:+ b.path
    · rw [decide_eq_true hdots]
      refine ⟨?_, Or.inr ⟨Or.inr hdots, _, rfl⟩⟩
      intro i hi
      exact (List.mem_append.mp hi).elim (hin i) (hlast' i)
    · rw [decide_eq_false hdots]
      refine ⟨?_, Or.inl ⟨hno, hdots, rfl⟩⟩
      intro i hi
      rw [runChecks, List.append_nil] at hi
      exact (List.mem_append.mp hi).elim (hin i) (hlast' i)
  · rw [runChecks_stop he]
    exact ⟨hin, Or.inr ⟨Or.inl hyes, e, he⟩⟩

theorem split_slash {path : List Byte} (h : slash ∈ path) :
    ∃ dir name, path = dir ++ slash :: name ∧ slash ∉ name := by
  obtain ⟨name, dir, heq, hnot⟩ := List.eq_append_cons_of_mem (List.mem_reverse.mpr h)
  refine ⟨dir.reverse, name.reverse, ?_, by simpa using hnot⟩
  rw [← List.reverse_reverse path, heq]
  simp

/-- A path that has passed all checks and has a type is split. -/
theorem handled_passed {bits : ℕ} (hs : scanHead 1023 line = some h) (h0 : 0#8 ∉ h.name)
    (hlen : 2 < h.name.length) (hno : ¬ RejectedEarly h.name) (hdots : ¬ literal "/.." <:+ h.name)
    (hbits : Ubifs.typeBits (some (h.type.getD stale)) = .ok bits) :
    PathHandled before stale line ↔ h.name.head? = some slash := by
  obtain ⟨hin, ⟨-, -, hok⟩ | ⟨hrej, -⟩⟩ := @checks_long ⟨before, h.name⟩ h0 hlen
  swap
  · exact absurd hrej (not_or.mpr ⟨hno, hdots⟩)
  have hrun : interpretPath before stale line = ⟨(separateLastAt ⟨before, h.name⟩).result,
      span 0 (h.name.length+1) ++ (runChecks (pathChecks ⟨before, h.name⟩)).reads ++
        (separateLastAt ⟨before, h.name⟩).reads⟩ := by
    unfold interpretPath
    rw [hs]
    dsimp only
    rw [hok]
    dsimp only
    rw [hbits]
  by_cases hmem : slash ∈ h.name
  swap
  · -- a path without a slash
    refine iff_of_false (not_handled_of_read ?_) (fun habs => hmem (List.mem_of_mem_head? habs))
    rw [hrun]
    exact List.mem_append_right _ (@separateLastAt_leaves ⟨before, h.name⟩ hmem)
  obtain ⟨dir, name, heq, hname⟩ := split_slash hmem
  obtain ⟨hres, hsplit⟩ := @separateLastAt_split ⟨before, h.name⟩ dir name heq hname
  constructor
  · intro hh
    obtain ⟨h', hs', hclean, -⟩ := hh.clean _ _ (by rw [hrun]; exact hres)
    rw [hs] at hs'
    obtain rfl := Option.some.inj hs'
    exact (cleanPath_iff.mp hclean).1
  · intro habs
    have hle := (scanHead_name hs).2.1
    refine ⟨?_, ?_⟩
    · rw [hrun]
      intro i hi
      rcases List.mem_append.mp hi with hi | hi
      · rcases List.mem_append.mp hi with hi | hi
        · have := @span_inside 0 (h.name.length+1) h.name.length (by omega) i hi
          omega
        · have := hin i hi
          dsimp only at this
          omega
      · have := hsplit i hi
        dsimp only at this
        omega
    · intro d n hacc
      rw [hrun, hres] at hacc
      obtain ⟨rfl, rfl⟩ := PathResult.accepted.inj (Option.some.inj hacc)
      refine ⟨h, hs, cleanPath_of_passed habs hno hdots, ?_, ?_, hname, ?_⟩
      · split
        · exact List.cons_ne_nil _ _
        next hd => exact hd
      · -- a path does not end with a slash
        rintro rfl
        exact hno (Or.inr (Or.inl ⟨dir, heq.symm⟩))
      · rw [heq]
        by_cases hd : dir = []
        · rw [if_pos hd, if_pos rfl, hd]
        · rw [if_neg hd, if_neg ?_]
          rintro rfl
          exact hno (Or.inl ⟨[], name, heq.symm⟩)

/-- Which lines of a device table have a path that is read inside of its buffer and accepted only
where it is clean, whatever the memory before the buffer holds. -/
theorem path_handled_iff (before : List Byte) (stale : Byte) {line : List Byte} (hnul : 0#8 ∉ line) :
    PathHandled before stale line ↔ PathFits stale line := by
  cases hs : scanHead 1023 line with
  | none =>
    refine iff_of_true ⟨?_, ?_⟩ ?_
    · intro i hi
      rw [interpretPath, hs] at hi
      exact absurd hi List.not_mem_nil
    · intro dir name hres
      rw [interpretPath, hs] at hres
      cases hres
    · intro h hh
      rw [hs] at hh
      cases hh
  | some h =>
    obtain ⟨hne, hle, hsub⟩ := scanHead_name hs
    have h0 : 0#8 ∉ h.name := fun hmem => hnul (hsub hmem)
    have hfits : PathFits stale line ↔ (h.name.length = 2 → RejectedEarly h.name) ∧
        (2 < h.name.length → h.name.head? = some slash ∨ RejectedEarly h.name ∨
          literal "/.." <:+ h.name ∨
            ∀ bits, Ubifs.typeBits (some (h.type.getD stale)) ≠ .ok bits) := by
      constructor
      · exact fun hf => hf h hs
      · intro hf h' hs'
        rw [hs] at hs'
        obtain rfl := Option.some.inj hs'
        exact hf
    rw [hfits]
    have hpos := List.length_pos_of_ne_nil hne
    rcases Nat.lt_trichotomy h.name.length 2 with hlt | heq | hgt
    · refine iff_of_true (handled_one hs h0 (by omega)) ⟨by omega, by omega⟩
    · rw [handled_two hs h0 heq]
      exact ⟨fun hr => ⟨fun _ => hr, by omega⟩, fun hr => hr.1 heq⟩
    · obtain ⟨hin, ⟨hno, hdots, hok⟩ | ⟨hrej, e, he⟩⟩ := @checks_long ⟨before, h.name⟩ h0 hgt
      · cases hbits : Ubifs.typeBits (some (h.type.getD stale)) with
        | error e =>
          refine iff_of_true ?_ ⟨by omega, fun _ => Or.inr (Or.inr (Or.inr (by simp)))⟩
          refine handled_of_errmsg hs hin (e := e) ?_
          unfold interpretPath
          rw [hs]
          dsimp only
          rw [hok]
          dsimp only
          rw [hbits]
        | ok bits =>
          rw [handled_passed hs h0 hgt hno hdots hbits]
          constructor
          · exact fun habs => ⟨by omega, fun _ => Or.inl habs⟩
          · rintro ⟨-, hf⟩
            rcases hf hgt with habs | hr | hd | ht
            · exact habs
            · exact absurd hr hno
            · exact absurd hd hdots
            · exact absurd rfl (ht bits)
      · refine iff_of_true (handled_of_rejected hs hin he) ⟨by omega, fun _ => ?_⟩
        exact Or.inr (hrej.imp_right Or.inl)

/-- A device in the root directory with a name of several letters. -/
theorem path_handled_console : PathHandled [0#8] 0#8 (literal "/console c 600 0 0 5 1") := by
  refine (path_handled_iff [0#8] 0#8 (by decide)).mpr ?_
  obtain ⟨h, hs, hname⟩ : ∃ h, scanHead 1023 (literal "/console c 600 0 0 5 1") = some h ∧
      h.name = literal "/console" := ⟨_, rfl, by decide +kernel⟩
  intro h' hs'
  rw [hs] at hs'
  obtain rfl := Option.some.inj hs'
  rw [hname]
  exact ⟨fun hlen => absurd hlen (by decide), fun _ => Or.inl rfl⟩

/-- One with a name of one letter has the byte before the buffer read. -/
theorem path_short_reads : ¬ PathHandled [0#8] 0#8 (literal "/n c 600 0 0 5 1") :=
  not_handled_of_read (by decide +kernel)

/-- A path that is not absolute is accepted. -/
example : (interpretPath [0#8] 0#8 (literal "dev/null c 666 0 0 1 3")).result =
    some (.accepted (literal "dev") (literal "null")) := by decide +kernel

end Handled

end ChipTools.UbifsTable
