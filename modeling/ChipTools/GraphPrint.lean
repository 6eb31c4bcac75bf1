import ChipTools.GraphDepends

/-! `graph-depends`: `print_pkg_deps` draws a dictionary from a package on, depth first and up to a
depth. -/
namespace ChipTools.GraphDepends

section Print

/-- `pkg_node_name`. -/
def pkgNodeName (pkg : Pkg) : String := String.ofList (pkg.toList.filter (· ≠ '-'))

/-- A line of the output. The two ends of an edge are printed with `pkg_node_name`. -/
inductive Line
  | label (name label : String) (virtual : Bool)
  | color (name color : String)
  | edge (pkg d : Pkg)
deriving DecidableEq

/-- What is given on the command line, with what Python's `fnmatch` says of a name and a pattern,
and `dict_version`. -/
structure Settings where
  max_depth : ℤ
  stop_list : List String
  exclude_list : List String
  fnmatch : Pkg → String → Bool
  dict_version : Pkg → Option String
  mode_pkg : Bool
  rootpkg : Pkg
  root_colour : String
  target_colour : String
  host_colour : String

/-- `done_deps`, and what is printed. -/
structure Drawing where
  done_deps : List Pkg
  out : List Line

variable (st : Settings) (deps : Deps)

def printAttrs (pkg : Pkg) : List Line :=
  let name := pkgNodeName pkg
  let label := if pkg = "all" then "ALL" else pkg
  let color :=
    if pkg = "all" ∨ st.mode_pkg = true ∧ pkg = st.rootpkg then st.root_colour
    else if pkg.startsWith "host" ∨ pkg.startsWith "toolchain" ∨ pkg.startsWith "rootfs" then
      st.host_colour
    else st.target_colour
  [.label name label (st.dict_version pkg = some "virtual"), .color name color]

/-- The loop over `exclude_list`. -/
def added (d : Pkg) : Bool :=
  !st.exclude_list.any fun p =>
    st.fnmatch d p || st.dict_version d = some "virtual" && "virtual" ∈ st.exclude_list

/-- The loop over the dependencies of a package. -/
def depsLoop (f : Pkg → Drawing → Option Drawing) (pkg : Pkg) :
    List Pkg → Drawing → Option Drawing
  | [], s => some s
  | d :: ds, s =>
    if added st d then
      match f d { s with out := s.out ++ [.edge pkg d] } with
      | none => none
      | some s => depsLoop f pkg ds s
    else depsLoop f pkg ds s

/-- `print_pkg_deps`, with a bound on the depth of its recursion. -/
def printPkgDeps : ℕ → ℕ → Pkg → Drawing → Option Drawing
  | 0, _, _, _ => none
  | fuel+1, depth, pkg, s =>
    if pkg ∈ s.done_deps then some s
    else
      let s : Drawing := ⟨s.done_deps ++ [pkg], s.out ++ printAttrs st pkg⟩
      if pkg ∉ deps.keys then some s
      else if st.stop_list.any (st.fnmatch pkg) then some s
      else if st.dict_version pkg = some "virtual" ∧ "virtual" ∈ st.stop_list then some s
      else if st.max_depth = 0 ∨ (depth : ℤ) < st.max_depth then
        depsLoop st (printPkgDeps fuel (depth+1)) pkg (deps.get pkg) s
      else some s

end Print

section Paths

/-- A path, as the packages behind its first one. -/
inductive Path (deps : Deps) : Pkg → List Pkg → Pkg → Prop
  | nil (p : Pkg) : Path deps p [] p
  | cons {p c q : Pkg} {l : List Pkg} : deps.Edge p c → Path deps c l q → Path deps p (c :: l) q

/-- The first one of two paths, in the order of the dependency lists. -/
inductive Before (deps : Deps) : Pkg → List Pkg → List Pkg → Prop
  | turn {p c c' : Pkg} {l l' : List Pkg} :
    (deps.get p).idxOf c < (deps.get p).idxOf c' → Before deps p (c :: l) (c' :: l')
  | step {p c : Pkg} {l l' : List Pkg} : Before deps c l l' → Before deps p (c :: l) (c :: l')

/-- A path that visits no package twice. -/
structure Simple (deps : Deps) (root : Pkg) (l : List Pkg) (p : Pkg) : Prop where
  path : Path deps root l p
  nodup : (root :: l).Nodup

/-- A package at a distance less than `N`. -/
def Within (deps : Deps) (root : Pkg) (N : ℕ) (p : Pkg) : Prop :=
  ∃ l, Path deps root l p ∧ l.length < N

/-- An edge is printed exactly once if and only if its package is at a distance less than `N`. -/
def PrintsOnce (deps : Deps) (root : Pkg) (N : ℕ) (out : List Line) : Prop :=
  ∀ p d, deps.Edge p d → (out.count (.edge p d) = 1 ↔ Within deps root N p)

/-- No list of a package near the root has a package twice, and a path of `N` edges to such a package
that has dependencies comes behind a shorter one. -/
structure ShortFirst (deps : Deps) (root : Pkg) (N : ℕ) : Prop where
  distinct : ∀ p, Within deps root N p → (deps.get p).Nodup
  shorter : ∀ p, Within deps root N p → deps.get p ≠ [] → ∀ l, Simple deps root l p →
    l.length = N → ∃ l', Simple deps root l' p ∧ l'.length < N ∧ Before deps root l' l

end Paths

section Walk

/-- A state of the walk: the packages that are done, those of them whose dependencies are printed,
and the output. -/
structure Walk where
  done : List Pkg
  opened : List Pkg
  out : List Line

variable (attrs : Pkg → List Line) (deps : Deps)

def visitAll (f : Pkg → Walk → Walk) (p : Pkg) : List Pkg → Walk → Walk
  | [], s => s
  | d :: ds, s => visitAll f p ds (f d { s with out := s.out ++ [.edge p d] })

/-- The walk with `r` levels left, where nothing is stopped or excluded. -/
def visit : ℕ → Pkg → Walk → Walk
  | 0, p, s => if p ∈ s.done then s else ⟨s.done ++ [p], s.opened, s.out ++ attrs p⟩
  | r+1, p, s => if p ∈ s.done then s
    else visitAll (visit r) p (deps.get p) ⟨s.done ++ [p], s.opened ++ [p], s.out ++ attrs p⟩

/-- What a later state keeps of an earlier one. -/
structure Later (s s' : Walk) : Prop where
  done : ∀ x ∈ s.done, x ∈ s'.done
  opened : ∀ x ∈ s.opened, x ∈ s'.opened
  old : ∀ x ∈ s.done, x ∈ s'.opened → x ∈ s.opened

variable {attrs deps} {s s' s'' : Walk} {p q d : Pkg} {r : ℕ}

theorem Later.refl (s : Walk) : Later s s := ⟨fun _ h => h, fun _ h => h, fun _ _ h => h⟩

theorem Later.trans (h : Later s s') (h' : Later s' s'') : Later s s'' where
  done x hx := h'.done x (h.done x hx)
  opened x hx := h'.opened x (h.opened x hx)
  old x hx ho := h.old x hx (h'.old x (h.done x hx) ho)

theorem Later.mark (hp : p ∉ s.done) (out : List Line) :
    Later s ⟨s.done ++ [p], s.opened ++ [p], out⟩ where
  done x hx := List.mem_append_left _ hx
  opened x hx := List.mem_append_left _ hx
  old x hx ho := by
    rcases List.mem_append.mp ho with ho | ho
    · exact ho
    · rw [List.mem_singleton.mp ho] at hx
      exact absurd hx hp

theorem visitAll_later {f : Pkg → Walk → Walk} (hf : ∀ d s, Later s (f d s)) (ds : List Pkg)
    (s : Walk) : Later s (visitAll f p ds s) := by
  induction ds generalizing s with
  | nil => exact .refl s
  | cons d ds ih =>
    have hedge : Later s { s with out := s.out ++ [.edge p d] } :=
      ⟨fun _ h => h, fun _ h => h, fun _ _ h => h⟩
    exact (hedge.trans (hf d _)).trans (ih _)

theorem visit_later (r : ℕ) (p : Pkg) (s : Walk) : Later s (visit attrs deps r p s) := by
  induction r generalizing p s with
  | zero =>
    rw [visit]
    split
    · exact .refl s
    next hp => exact ⟨fun x hx => List.mem_append_left _ hx, fun _ h => h, fun _ _ h => h⟩
  | succ r ih =>
    rw [visit]
    split
    · exact .refl s
    next hp => exact (Later.mark hp _).trans (visitAll_later ih _ _)

theorem mem_visit (r : ℕ) (p : Pkg) (s : Walk) : p ∈ (visit attrs deps r p s).done := by
  have hmem : p ∈ s.done ++ [p] := List.mem_append_right _ (List.mem_singleton.mpr rfl)
  cases r with
  | zero =>
    rw [visit]
    split
    · assumption
    · exact hmem
  | succ r =>
    rw [visit]
    split
    · assumption
    · exact (visitAll_later (visit_later r) _ _).done p hmem

/-- Only packages that are done are opened. -/
def Walk.Sound (s : Walk) : Prop := ∀ x ∈ s.opened, x ∈ s.done

theorem visitAll_sound {f : Pkg → Walk → Walk} (hf : ∀ d s, s.Sound → (f d s).Sound)
    {ds : List Pkg} (hs : s.Sound) : (visitAll f p ds s).Sound := by
  induction ds generalizing s with
  | nil => exact hs
  | cons d ds ih => exact ih (hf d _ hs)

theorem Walk.Sound.mark (hs : s.Sound) (out : List Line) :
    (Walk.mk (s.done ++ [p]) (s.opened ++ [p]) out).Sound := by
  intro x hx
  rcases List.mem_append.mp hx with hx | hx
  · exact List.mem_append_left _ (hs x hx)
  · exact List.mem_append_right _ hx

theorem visit_sound (r : ℕ) (p : Pkg) (s : Walk) (hs : s.Sound) :
    (visit attrs deps r p s).Sound := by
  induction r generalizing p s with
  | zero =>
    rw [visit]
    split
    · exact hs
    · exact fun x hx => List.mem_append_left _ (hs x hx)
  | succ r ih =>
    rw [visit]
    split
    · exact hs
    · exact visitAll_sound (fun d s hs => ih d s hs) (hs.mark _)

end Walk

section Count

variable {attrs : Pkg → List Line} {deps : Deps} {s : Walk} {p q d : Pkg} {r : ℕ}

open Classical in
/-- The edges that are printed between two states: those of the packages that are opened. -/
def newEdges (deps : Deps) (s s' : Walk) (q d : Pkg) : ℕ :=
  if q ∈ s'.opened ∧ q ∉ s.opened then (deps.get q).count d else 0

theorem newEdges_add {s s' s'' : Walk} (h : Later s s') (h' : Later s' s'') :
    newEdges deps s s' q d+newEdges deps s' s'' q d = newEdges deps s s'' q d := by
  have hopened := h.opened q
  have hopened' := h'.opened q
  unfold newEdges
  by_cases h0 : q ∈ s.opened
  · have h1 := hopened h0
    rw [if_neg (fun h => h.2 h0), if_neg (fun h => h.2 h1), if_neg (fun h => h.2 h0)]
  · by_cases h1 : q ∈ s'.opened
    · rw [if_pos ⟨h1, h0⟩, if_neg (fun h => h.2 h1), if_pos ⟨hopened' h1, h0⟩, Nat.add_zero]
    · rw [if_neg (fun h => h1 h.1), Nat.zero_add]
      by_cases h2 : q ∈ s''.opened
      · rw [if_pos ⟨h2, h1⟩, if_pos ⟨h2, h0⟩]
      · rw [if_neg (fun h => h2 h.1), if_neg (fun h => h2 h.1)]

theorem visitAll_count {f : Pkg → Walk → Walk} (hlater : ∀ d s, Later s (f d s))
    (hsound : ∀ d s, s.Sound → (f d s).Sound)
    (hf : ∀ c s, s.Sound →
      (f c s).out.count (.edge q d) = s.out.count (.edge q d)+newEdges deps s (f c s) q d)
    (ds : List Pkg) (hs : s.Sound) :
    (visitAll f p ds s).out.count (.edge q d) =
      s.out.count (.edge q d)+(if q = p then ds.count d else 0)+
        newEdges deps s (visitAll f p ds s) q d := by
  induction ds generalizing s with
  | nil =>
    have hnone : newEdges deps s s q d = 0 := if_neg fun h => h.2 h.1
    rw [visitAll, hnone]
    split <;> simp
  | cons c ds ih =>
    have hstep := hf c { s with out := s.out ++ [.edge p c] } hs
    have hrest := @ih (f c { s with out := s.out ++ [.edge p c] }) (hsound c _ hs)
    have hadd := @newEdges_add deps q d { s with out := s.out ++ [.edge p c] } _ _
      (hlater c { s with out := s.out ++ [.edge p c] })
      (visitAll_later hlater (p := p) ds (f c { s with out := s.out ++ [.edge p c] }))
    have hone : (s.out ++ [Line.edge p c]).count (.edge q d) =
        s.out.count (.edge q d)+if q = p ∧ d = c then 1 else 0 := by
      rw [List.count_append, List.count_singleton]
      congr 1
      by_cases heq : q = p ∧ d = c
      · rw [if_pos heq, heq.1, heq.2, beq_self_eq_true, if_pos rfl]
      · rw [if_neg heq, if_neg]
        intro hbeq
        obtain ⟨h1, h2⟩ := Line.edge.inj (beq_iff_eq.mp hbeq)
        exact heq ⟨h1.symm, h2.symm⟩
    change newEdges deps s _ q d+_ = newEdges deps s _ q d at hadd
    change _ = (s.out ++ [Line.edge p c]).count (.edge q d)+newEdges deps s _ q d at hstep
    rw [visitAll, hrest, hstep, hone, ← hadd, List.count_cons]
    by_cases hq : q = p
    · by_cases hd : d = c
      · rw [if_pos ⟨hq, hd⟩, if_pos hq, if_pos hq, hd, beq_self_eq_true, if_pos rfl]
        omega
      · have hbeq : (c == d) = false := beq_false_of_ne (Ne.symm hd)
        rw [if_neg (fun h => hd h.2), if_pos hq, if_pos hq, hbeq, if_neg Bool.false_ne_true]
        omega
    · rw [if_neg (fun h => hq h.1), if_neg hq, if_neg hq]
      omega

/-- The output of a walk: each package that it opens has its edges printed once. -/
theorem visit_count (hattrs : ∀ p, (attrs p).count (.edge q d) = 0) (r : ℕ) (p : Pkg) (s : Walk)
    (hs : s.Sound) : (visit attrs deps r p s).out.count (.edge q d) =
      s.out.count (.edge q d)+newEdges deps s (visit attrs deps r p s) q d := by
  have hnone (s s' : Walk) (h : s'.opened = s.opened) : newEdges deps s s' q d = 0 := by
    unfold newEdges
    rw [h]
    exact if_neg fun h => h.2 h.1
  induction r generalizing p s with
  | zero =>
    rw [visit]
    split
    · rw [hnone s s rfl, Nat.add_zero]
    · rw [List.count_append, hattrs]
      exact congrArg _ (hnone _ _ rfl).symm
  | succ r ih =>
    rw [visit]
    split
    · rw [hnone s s rfl, Nat.add_zero]
    next hp =>
      have hall := visitAll_count (p := p) (@visit_later attrs deps r)
        (visit_sound r) ih (deps.get p) (hs.mark (p := p) (s.out ++ attrs p))
      have hadd := @newEdges_add deps q d _ _ _ (Later.mark hp (s.out ++ attrs p))
        (visitAll_later (@visit_later attrs deps r) (p := p) (deps.get p)
          ⟨s.done ++ [p], s.opened ++ [p], s.out ++ attrs p⟩)
      have hself : newEdges deps s ⟨s.done ++ [p], s.opened ++ [p], s.out ++ attrs p⟩ q d =
          if q = p then (deps.get p).count d else 0 := by
        unfold newEdges
        dsimp only
        by_cases hq : q = p
        · rw [if_pos hq, hq, if_pos]
          exact ⟨List.mem_append_right _ (List.mem_singleton.mpr rfl), fun h => hp (hs p h)⟩
        · rw [if_neg hq, if_neg]
          rintro ⟨h1, h2⟩
          rcases List.mem_append.mp h1 with h1 | h1
          · exact h2 h1
          · exact hq (List.mem_singleton.mp h1)
      rw [hall, ← hadd, hself, List.count_append, hattrs]
      omega

end Count

section Lexicographic

variable {deps : Deps} {root p q x c d : Pkg} {l l' pre ds : List Pkg} {N : ℕ}

theorem Path.append (h : Path deps root l p) (h' : Path deps p l' q) :
    Path deps root (l ++ l') q := by
  induction h with
  | nil => exact h'
  | cons hedge _ ih => exact .cons hedge (ih h')

theorem Path.concat (h : Path deps root l p) (hedge : deps.Edge p c) :
    Path deps root (l ++ [c]) c := h.append (.cons hedge (.nil c))

theorem Path.last_mem (h : Path deps root l p) : p ∈ root :: l := by
  induction h with
  | nil => exact List.mem_singleton.mpr rfl
  | cons _ _ ih => exact List.mem_cons_of_mem _ ih

/-- The rest of a path behind a part that leads to `p`. -/
theorem Path.rest (hl : Path deps root l p) (h : Path deps root (l ++ c :: l') x) :
    deps.Edge p c ∧ Path deps c l' x := by
  induction hl with
  | nil =>
    cases h with
    | cons hedge hrest => exact ⟨hedge, hrest⟩
  | cons _ _ ih =>
    cases h with
    | cons _ hrest => exact ih hrest

/-- What comes before a path with one more package: what comes before the path, or a turn at its
end. -/
theorem Before.concat_cases (hl : Path deps root l p) {π : List Pkg}
    (h : Before deps root π (l ++ [d])) :
    Before deps root π l ∨
      ∃ c τ, π = l ++ c :: τ ∧ (deps.get p).idxOf c < (deps.get p).idxOf d := by
  induction hl generalizing π with
  | nil =>
    cases h with
    | turn hlt => exact Or.inr ⟨_, _, rfl, hlt⟩
    | step h => cases h
  | cons hedge _ ih =>
    cases h with
    | turn hlt => exact Or.inl (.turn hlt)
    | step h =>
      rcases ih h with hbefore | ⟨c, τ, rfl, hlt⟩
      · exact Or.inl (.step hbefore)
      · exact Or.inr ⟨c, τ, rfl, hlt⟩

/-- Two simple paths to one package are the same, or one of them comes first. -/
theorem Simple.trichotomy (h : Simple deps root l p) (h' : Simple deps root l' p) :
    l = l' ∨ Before deps root l l' ∨ Before deps root l' l := by
  obtain ⟨hpath, hnodup⟩ := h
  obtain ⟨hpath', hnodup'⟩ := h'
  induction hpath generalizing l' with
  | nil q =>
    cases hpath' with
    | nil => exact Or.inl rfl
    | cons hedge hrest =>
      -- a path that comes back to where it begins is not simple
      exact absurd hrest.last_mem (List.nodup_cons.mp hnodup').1
  | @cons q c p l hedge hrest ih =>
    cases hpath' with
    | nil => exact absurd hrest.last_mem (List.nodup_cons.mp hnodup).1
    | @cons _ c' _ l' hedge' hrest' =>
      by_cases hc : c = c'
      · subst hc
        rcases ih (List.nodup_cons.mp hnodup).2 hrest' (List.nodup_cons.mp hnodup').2 with
          rfl | hb | hb
        · exact Or.inl rfl
        · exact Or.inr (Or.inl (.step hb))
        · exact Or.inr (Or.inr (.step hb))
      · have hne : (deps.get q).idxOf c ≠ (deps.get q).idxOf c' := fun heq =>
          hc ((List.idxOf_inj hedge).mp heq)
        rcases Nat.lt_or_gt_of_ne hne with hlt | hlt
        · exact Or.inr (Or.inl (.turn hlt))
        · exact Or.inr (Or.inr (.turn hlt))

/-- No simple path of at most `N` edges comes before this one. -/
def First (deps : Deps) (root : Pkg) (N : ℕ) (l : List Pkg) (p : Pkg) : Prop :=
  ∀ π, Simple deps root π p → π.length ≤ N → ¬Before deps root π l

end Lexicographic

section Order

variable {attrs : Pkg → List Line} {deps : Deps} {root p q x c d : Pkg} {σ τ : List Pkg}
  {N r : ℕ} {s s' fin : Walk} {A : Pkg → Prop}

/-- The invariant of the walk, where the packages in `A` are under way: a package near the root is
opened when it is done, and one that is through has all of its dependencies done. -/
structure Inv (deps : Deps) (root : Pkg) (N : ℕ) (A : Pkg → Prop) (s : Walk) : Prop where
  sound : s.Sound
  good : ∀ u ∈ s.done, deps.get u ≠ [] → Within deps root N u → u ∈ s.opened
  closed : ∀ q ∈ s.opened, ¬A q → ∀ c, deps.Edge q c → c ∈ s.done

/-- Everything that comes before a path is done. -/
def Passed (deps : Deps) (root : Pkg) (N : ℕ) (σ : List Pkg) (s : Walk) : Prop :=
  ∀ x π, Simple deps root π x → π.length ≤ N → Before deps root π σ → x ∈ s.done

theorem Edge.get_ne_nil (h : deps.Edge p c) : deps.get p ≠ [] := List.ne_nil_of_mem h

/-- From a package that is done, a path past the packages under way only finds packages that are
done. -/
theorem Inv.chase (h : Inv deps root N A s) (hσ : Path deps root σ c) (hτ : Path deps c τ x)
    (hlen : σ.length+τ.length ≤ N) (havoid : ∀ y ∈ c :: τ, ¬A y) (hc : c ∈ s.done) :
    x ∈ s.done := by
  induction hτ generalizing σ with
  | nil => exact hc
  | @cons c c' x τ hedge hrest ih =>
    rw [List.length_cons] at hlen
    have hopened := h.good c hc (Edge.get_ne_nil hedge) ⟨σ, hσ, by omega⟩
    have hc' := h.closed c hopened (havoid c List.mem_cons_self) c' hedge
    apply ih (hσ.concat hedge) _ (fun y hy => havoid y (List.mem_cons_of_mem _ hy)) hc'
    rw [List.length_append, List.length_singleton]
    omega

/-- A package on which the walk has come, with the path on which it came: no path comes before
that, and the package is opened unless the path has all `N` edges. -/
structure Came (deps : Deps) (root : Pkg) (N : ℕ) (fin : Walk) (x : Pkg) (σ : List Pkg) : Prop where
  simple : Simple deps root σ x
  le : σ.length ≤ N
  first : First deps root N σ x
  opened : x ∈ fin.opened ↔ σ.length < N

/-- What is needed of the packages at which the walk stops: they have nothing to print. -/
def Harmless (deps : Deps) (root : Pkg) (N : ℕ) (fin : Walk) : Prop :=
  ∀ x σ, x ∈ fin.done → x ∉ fin.opened → Simple deps root σ x → σ.length = N →
    First deps root N σ x → deps.get x = [] ∨ ¬Within deps root N x

/-- The state before a call for `p` on the path `σ`. -/
structure Ready (deps : Deps) (root : Pkg) (N : ℕ) (A : Pkg → Prop) (p : Pkg) (σ : List Pkg)
    (s : Walk) : Prop where
  inv : Inv deps root N A s
  path : Path deps root σ p
  stack : ∀ x, A x → x ∈ root :: σ ∧ x ∈ s.done
  cover : ∀ x ∈ root :: σ, A x ∨ x = p
  passed : Passed deps root N σ s
  nodup : p ∉ s.done → (root :: σ).Nodup

/-- What a call leaves: the invariant, and a path for each package that is new. -/
structure Left (deps : Deps) (root : Pkg) (N : ℕ) (A : Pkg → Prop) (fin s s' : Walk) : Prop where
  inv : Inv deps root N A s'
  came : ∀ x ∈ s'.done, x ∉ s.done → ∃ σ, Came deps root N fin x σ

theorem Ready.first (h : Ready deps root N A p σ s) (hp : p ∉ s.done) :
    Simple deps root σ p ∧ First deps root N σ p :=
  ⟨⟨h.path, h.nodup hp⟩, fun π hπ hlen hbefore => hp (h.passed p π hπ hlen hbefore)⟩

/-- At the last level. -/
theorem visit_zero_left (h : Ready deps root N A p σ s) (hlen : σ.length = N)
    (hlater : Later (visit attrs deps 0 p s) fin) (hfin : Harmless deps root N fin) :
    Left deps root N A fin s (visit attrs deps 0 p s) := by
  rw [visit] at hlater ⊢
  by_cases hp : p ∈ s.done
  · rw [if_pos hp]
    exact ⟨h.inv, fun x hx hnew => absurd hx hnew⟩
  · rw [if_neg hp] at hlater ⊢
    obtain ⟨hsimple, hfirst⟩ := h.first hp
    have hmem : p ∈ s.done ++ [p] := List.mem_append_right _ (List.mem_singleton.mpr rfl)
    have hclosed : p ∉ fin.opened := fun ho => hp (h.inv.sound p (hlater.old p hmem ho))
    refine ⟨⟨?_, ?_, ?_⟩, ?_⟩
    · exact fun x hx => List.mem_append_left _ (h.inv.sound x hx)
    · intro u hu hne hwithin
      rcases List.mem_append.mp hu with hu | hu
      · exact h.inv.good u hu hne hwithin
      · -- the package itself has nothing to print
        rw [List.mem_singleton.mp hu] at hne hwithin
        rcases hfin p σ (hlater.done p hmem) hclosed hsimple hlen hfirst with hleaf | hfar
        · exact absurd hleaf hne
        · exact absurd hwithin hfar
    · exact fun q hq hA c hc => List.mem_append_left _ (h.inv.closed q hq hA c hc)
    · intro x hx hnew
      rcases List.mem_append.mp hx with hx | hx
      · exact absurd hx hnew
      · rw [List.mem_singleton.mp hx]
        exact ⟨σ, hsimple, le_of_eq hlen, hfirst, fun ho => absurd ho hclosed,
          fun hlt => absurd hlen (Nat.ne_of_lt hlt)⟩

/-- Before the call for a dependency `d` of `p`, where those in front of it are done. -/
theorem ready_child {pre ds : List Pkg} (hsimple : Simple deps root σ p)
    (hsplit : deps.get p = pre ++ d :: ds) (hinv : Inv deps root N (· ∈ root :: σ) s)
    (hstack : ∀ x ∈ root :: σ, x ∈ s.done) (hpassed : Passed deps root N σ s)
    (hpre : ∀ x ∈ pre, x ∈ s.done) : Ready deps root N (· ∈ root :: σ) d (σ ++ [d]) s where
  inv := hinv
  path := by
    apply hsimple.path.concat
    unfold Deps.Edge
    rw [hsplit]
    exact List.mem_append_right _ List.mem_cons_self
  stack x hx := by
    rw [← List.cons_append]
    exact ⟨List.mem_append_left _ hx, hstack x hx⟩
  cover x hx := by
    rw [← List.cons_append] at hx
    exact (List.mem_append.mp hx).imp id List.mem_singleton.mp
  passed x π hπ hle hbefore := by
    by_cases hd : x ∈ s.done
    · exact hd
    rcases hbefore.concat_cases hsimple.path with hbefore | ⟨c, τ, rfl, hlt⟩
    · exact hpassed x π hπ hle hbefore
    · -- a turn at `p`, to a dependency that is done already
      have hc : c ∈ pre := by
        rw [hsplit, List.idxOf_append, List.idxOf_append] at hlt
        by_contra hc
        rw [if_neg hc] at hlt
        split at hlt
        next hd =>
          have := List.idxOf_lt_length_of_mem hd
          omega
        next =>
          rw [List.idxOf_cons_self] at hlt
          omega
      obtain ⟨hedge, hrest⟩ := hsimple.path.rest hπ.path
      have hnodup := hπ.nodup
      rw [← List.cons_append] at hnodup
      rw [List.length_append, List.length_cons] at hle
      apply hinv.chase (hsimple.path.concat hedge) hrest _ _ (hpre c hc)
      · rw [List.length_append, List.length_singleton]
        omega
      · intro y hy hstack'
        exact List.disjoint_of_nodup_append hnodup hstack' hy
  nodup hd := by
    rw [← List.cons_append]
    refine List.nodup_append.mpr ⟨hsimple.nodup, List.nodup_singleton d, fun a ha b hb => ?_⟩
    rw [List.mem_singleton.mp hb]
    rintro rfl
    exact hd (hstack a ha)

/-- The loop over the dependencies of `p`, of which those in `pre` are done. -/
theorem visitAll_left (hlen : σ.length+(r+1) = N) (hsimple : Simple deps root σ p)
    (hf : ∀ (d : Pkg) (σ' : List Pkg) (t : Walk), Ready deps root N (· ∈ root :: σ) d σ' t →
      σ'.length+r = N → Later (visit attrs deps r d t) fin →
      Left deps root N (· ∈ root :: σ) fin t (visit attrs deps r d t))
    {pre ds : List Pkg} (hsplit : deps.get p = pre ++ ds) (hinv : Inv deps root N (· ∈ root :: σ) s)
    (hstack : ∀ x ∈ root :: σ, x ∈ s.done) (hpassed : Passed deps root N σ s)
    (hpre : ∀ x ∈ pre, x ∈ s.done)
    (hlater : Later (visitAll (visit attrs deps r) p ds s) fin) :
    Left deps root N (· ∈ root :: σ) fin s (visitAll (visit attrs deps r) p ds s) ∧
    ∀ x ∈ deps.get p, x ∈ (visitAll (visit attrs deps r) p ds s).done := by
  induction ds generalizing pre s with
  | nil =>
    rw [List.append_nil] at hsplit
    rw [visitAll, hsplit]
    exact ⟨⟨hinv, fun x hx hnew => absurd hx hnew⟩, hpre⟩
  | cons d ds ih =>
    rw [visitAll] at hlater ⊢
    obtain ⟨t, ht⟩ : ∃ t : Walk, t = { s with out := s.out ++ [.edge p d] } := ⟨_, rfl⟩
    have htdone : t.done = s.done := by rw [ht]
    have htinv : Inv deps root N (· ∈ root :: σ) t := by
      rw [ht]
      exact ⟨hinv.sound, hinv.good, hinv.closed⟩
    rw [← ht] at hlater ⊢
    have hready : Ready deps root N (· ∈ root :: σ) d (σ ++ [d]) t := by
      apply ready_child hsimple hsplit htinv
      · rwa [htdone]
      · intro x π hπ hle hbefore
        rw [htdone]
        exact hpassed x π hπ hle hbefore
      · rwa [htdone]
    have hcall := @visit_later attrs deps r d t
    have hrest := visitAll_later (@visit_later attrs deps r) (p := p) ds
      (visit attrs deps r d t)
    obtain ⟨hinv', hcame⟩ := hf d (σ ++ [d]) t hready
      (by rw [List.length_append, List.length_singleton]; omega) (hrest.trans hlater)
    rw [htdone] at hcame
    have hmono (x : Pkg) (hx : x ∈ s.done) : x ∈ (visit attrs deps r d t).done :=
      hcall.done x (by rwa [htdone])
    obtain ⟨⟨hinv'', hcame'⟩, hall⟩ := @ih (visit attrs deps r d t) (pre ++ [d])
      (by rw [hsplit, List.append_assoc, List.singleton_append]) hinv'
      (fun x hx => hmono x (hstack x hx))
      (fun x π hπ hle hbefore => hmono x (hpassed x π hπ hle hbefore))
      (fun x hx => by
        rcases List.mem_append.mp hx with hx | hx
        · exact hmono x (hpre x hx)
        · rw [List.mem_singleton.mp hx]
          exact mem_visit r d t) hlater
    refine ⟨⟨hinv'', fun x hx hnew => ?_⟩, hall⟩
    by_cases hx' : x ∈ (visit attrs deps r d t).done
    · exact hcame x hx' hnew
    · exact hcame' x hx hx'

/-- What a call leaves, at every level. -/
theorem visit_left (hfin : Harmless deps root N fin) (h : Ready deps root N A p σ s)
    (hA : ¬A p) (hlen : σ.length+r = N) (hlater : Later (visit attrs deps r p s) fin) :
    Left deps root N A fin s (visit attrs deps r p s) := by
  induction r generalizing p σ s A with
  | zero => exact visit_zero_left h hlen hlater hfin
  | succ r ih =>
    rw [visit] at hlater ⊢
    by_cases hp : p ∈ s.done
    · rw [if_pos hp]
      exact ⟨h.inv, fun x hx hnew => absurd hx hnew⟩
    · rw [if_neg hp] at hlater ⊢
      obtain ⟨hsimple, hfirst⟩ := h.first hp
      obtain ⟨t, ht⟩ : ∃ t : Walk, t = ⟨s.done ++ [p], s.opened ++ [p], s.out ++ attrs p⟩ := ⟨_, rfl⟩
      have hmark : Later s t := by
        rw [ht]
        exact .mark hp _
      have hopened : p ∈ t.opened := by
        rw [ht]
        exact List.mem_append_right _ (List.mem_singleton.mpr rfl)
      have hpdone : p ∈ t.done := by
        rw [ht]
        exact List.mem_append_right _ (List.mem_singleton.mpr rfl)
      have hnew (x : Pkg) (hx : x ∈ t.done) (hxs : x ∉ s.done) : x = p := by
        rw [ht] at hx
        exact List.mem_singleton.mp ((List.mem_append.mp hx).resolve_left hxs)
      have hnewo (x : Pkg) (hx : x ∈ t.opened) (hxs : x ≠ p) : x ∈ s.opened := by
        rw [ht] at hx
        exact (List.mem_append.mp hx).resolve_right fun h => hxs (List.mem_singleton.mp h)
      rw [← ht] at hlater ⊢
      have hinv : Inv deps root N (· ∈ root :: σ) t := by
        refine ⟨?_, fun u hu hne hwithin => ?_, fun q hq hstack c hc => ?_⟩
        · rw [ht]
          exact h.inv.sound.mark _
        · by_cases hus : u ∈ s.done
          · exact hmark.opened u (h.inv.good u hus hne hwithin)
          · rw [hnew u hu hus]
            exact hopened
        · have hqp : q ≠ p := by
            rintro rfl
            exact hstack h.path.last_mem
          exact hmark.done c (h.inv.closed q (hnewo q hq hqp) (fun hq' => hstack (h.stack q hq').1) c hc)
      obtain ⟨⟨hinv', hcame⟩, hall⟩ := visitAll_left hlen hsimple
        (fun d σ' t' hready hlen' hlater' => by
          by_cases hd : d ∈ t'.done
          · have hsame : visit attrs deps r d t' = t' := by
              cases r with
              | zero => rw [visit, if_pos hd]
              | succ r => rw [visit, if_pos hd]
            rw [hsame]
            exact ⟨hready.inv, fun x hx hnew => absurd hx hnew⟩
          · exact ih hready (fun hdA => hd (hready.stack d hdA).2) hlen' hlater')
        (List.nil_append _).symm hinv
        (fun x hx => by
          rcases h.cover x hx with hx | rfl
          · exact hmark.done x (h.stack x hx).2
          · exact hpdone)
        (fun x π hπ hle hbefore => hmark.done x (h.passed x π hπ hle hbefore))
        (fun x hx => absurd hx List.not_mem_nil) hlater
      have hloop := visitAll_later (@visit_later attrs deps r) (p := p)
        (deps.get p) t
      refine ⟨⟨hinv'.sound, hinv'.good, fun q hq hqA c hc => ?_⟩, fun x hx hxs => ?_⟩
      · by_cases hqp : q = p
        · rw [hqp] at hc
          exact hall c hc
        · exact hinv'.closed q hq (fun hstack => (h.cover q hstack).elim hqA hqp) c hc
      · by_cases hxt : x ∈ t.done
        · rw [hnew x hxt hxs]
          refine ⟨σ, hsimple, by omega, hfirst, fun _ => by omega, fun _ => ?_⟩
          exact hlater.opened p (hloop.opened p hopened)
        · exact hcame x hx hxt

end Order

section Run

variable {st : Settings} {deps : Deps} {root p q d : Pkg} {σ l : List Pkg} {N r : ℕ} {s : Walk}

/-- What is printed of a package itself is no edge. -/
theorem printAttrs_count (p q d : Pkg) : (printAttrs st p).count (.edge q d) = 0 := by
  apply List.count_eq_zero_of_not_mem
  intro h
  simp [printAttrs] at h

theorem depsLoop_eq (hexclude : st.exclude_list = []) {f : Pkg → Drawing → Option Drawing}
    {g : Pkg → Walk → Walk}
    (hf : ∀ d s, f d ⟨s.done, s.out⟩ = some ⟨(g d s).done, (g d s).out⟩) (p : Pkg)
    (ds : List Pkg) (s : Walk) :
    depsLoop st f p ds ⟨s.done, s.out⟩ =
      some ⟨(visitAll g p ds s).done, (visitAll g p ds s).out⟩ := by
  induction ds generalizing s with
  | nil => rfl
  | cons d ds ih =>
    have hadd : added st d = true := by
      unfold added
      rw [hexclude, List.any_nil, Bool.not_false]
    have hcall := hf d { s with out := s.out ++ [.edge p d] }
    rw [depsLoop, if_pos hadd, visitAll]
    dsimp only at hcall ⊢
    rw [hcall]
    exact ih _

/-- Where nothing is stopped or excluded, `print_pkg_deps` is the walk. -/
theorem printPkgDeps_eq (hstop : st.stop_list = []) (hexclude : st.exclude_list = []) (hN : 0 < N)
    (hmax : st.max_depth = N) {fuel depth : ℕ} (hr : depth+r = N) (hfuel : r < fuel) (p : Pkg)
    (s : Walk) : printPkgDeps st deps fuel depth p ⟨s.done, s.out⟩ =
      some ⟨(visit (printAttrs st) deps r p s).done, (visit (printAttrs st) deps r p s).out⟩ := by
  have hany (p : Pkg) : st.stop_list.any (st.fnmatch p) = false := by rw [hstop, List.any_nil]
  have hvirtual (p : Pkg) : ¬(st.dict_version p = some "virtual" ∧ "virtual" ∈ st.stop_list) := by
    rw [hstop]
    exact fun h => absurd h.2 List.not_mem_nil
  induction r generalizing fuel depth p s with
  | zero =>
    obtain ⟨fuel, rfl⟩ := Nat.exists_eq_add_of_lt hfuel
    rw [Nat.zero_add, printPkgDeps, visit]
    by_cases hp : p ∈ s.done
    · rw [if_pos hp, if_pos hp]
    · have hdeep : ¬(st.max_depth = 0 ∨ (depth : ℤ) < st.max_depth) := by omega
      rw [if_neg hp, if_neg hp]
      dsimp only
      rw [if_neg hdeep, hany, if_neg Bool.false_ne_true, if_neg (hvirtual p)]
      split <;> rfl
  | succ r ih =>
    obtain ⟨fuel, rfl⟩ : ∃ k, fuel = k+1 := ⟨fuel-1, by omega⟩
    rw [printPkgDeps, visit]
    by_cases hp : p ∈ s.done
    · rw [if_pos hp, if_pos hp]
    · have hdeep : st.max_depth = 0 ∨ (depth : ℤ) < st.max_depth := by omega
      have hchild (d : Pkg) (s : Walk) : printPkgDeps st deps fuel (depth+1) d ⟨s.done, s.out⟩ =
          some ⟨(visit (printAttrs st) deps r d s).done, (visit (printAttrs st) deps r d s).out⟩ :=
        ih (by omega) (by omega) d s
      have hloop := depsLoop_eq hexclude hchild p (deps.get p)
        ⟨s.done ++ [p], s.opened ++ [p], s.out ++ printAttrs st p⟩
      rw [if_neg hp, if_neg hp]
      dsimp only
      rw [if_pos hdeep, hany, if_neg Bool.false_ne_true, if_neg (hvirtual p)]
      split
      next hkey =>
        -- without a key there is nothing to follow
        rw [deps.missing p hkey, visitAll]
      · exact hloop

/-- The walk from the root, with nothing done. -/
def walk (st : Settings) (deps : Deps) (root : Pkg) (N : ℕ) : Walk :=
  visit (printAttrs st) deps N root ⟨[], [], []⟩

theorem walk_count (p d : Pkg) [Decidable (p ∈ (walk st deps root N).opened)] :
    (walk st deps root N).out.count (.edge p d) =
      if p ∈ (walk st deps root N).opened then (deps.get p).count d else 0 := by
  have hcount : (walk st deps root N).out.count (.edge p d) =
      newEdges deps ⟨[], [], []⟩ (walk st deps root N) p d := by
    have h := @visit_count (printAttrs st) deps p d (fun q => printAttrs_count q p d) N root
      ⟨[], [], []⟩ fun x hx => absurd hx List.not_mem_nil
    rwa [List.count_nil, Nat.zero_add] at h
  rw [hcount]
  unfold newEdges
  by_cases hp : p ∈ (walk st deps root N).opened
  · rw [if_pos hp, if_pos ⟨hp, List.not_mem_nil⟩]
  · rw [if_neg hp, if_neg fun h => hp h.1]

theorem ready_root (deps : Deps) (root : Pkg) (N : ℕ) :
    Ready deps root N (fun _ => False) root [] ⟨[], [], []⟩ where
  inv := by
    refine ⟨fun x hx => ?_, fun x hx => ?_, fun x hx => ?_⟩ <;> exact absurd hx List.not_mem_nil
  path := .nil root
  stack x hx := hx.elim
  cover x hx := Or.inr (List.mem_singleton.mp hx)
  passed x π hπ hle hbefore := by cases hbefore
  nodup _ := List.nodup_singleton root

theorem walk_left (hfin : Harmless deps root N (walk st deps root N)) :
    Left deps root N (fun _ => False) (walk st deps root N) ⟨[], [], []⟩ (walk st deps root N) :=
  visit_left hfin (ready_root deps root N) id (Nat.zero_add N) (.refl _)

/-- A package that the walk opens is near the root. -/
theorem walk_opened_within (h : Left deps root N (fun _ => False) (walk st deps root N) ⟨[], [], []⟩
    (walk st deps root N)) (hp : p ∈ (walk st deps root N).opened) : Within deps root N p := by
  obtain ⟨σ, hσ⟩ := h.came p (h.inv.sound p hp) List.not_mem_nil
  exact ⟨σ, hσ.simple.path, hσ.opened.mp hp⟩

/-- A package near the root that has dependencies is opened. -/
theorem walk_within_opened (h : Left deps root N (fun _ => False) (walk st deps root N) ⟨[], [], []⟩
    (walk st deps root N)) (hp : Within deps root N p) (hne : deps.get p ≠ []) :
    p ∈ (walk st deps root N).opened := by
  obtain ⟨l, hpath, hlen⟩ := hp
  have hroot : root ∈ (walk st deps root N).done := mem_visit N root _
  have hdone : p ∈ (walk st deps root N).done := by
    apply h.inv.chase (.nil root) hpath _ (fun y _ => id) hroot
    rw [List.length_nil, Nat.zero_add]
    exact le_of_lt hlen
  exact h.inv.good p hdone hne ⟨l, hpath, hlen⟩

theorem ShortFirst.harmless (h : ShortFirst deps root N) (fin : Walk) :
    Harmless deps root N fin := by
  intro x σ _ _ hsimple hlen hfirst
  by_contra hnot
  rw [not_or, not_not] at hnot
  obtain ⟨l', hl', hlt, hbefore⟩ := h.shorter x hnot.2 hnot.1 σ hsimple hlen
  exact hfirst l' hl' (le_of_lt hlt) hbefore

theorem ShortFirst.printsOnce (h : ShortFirst deps root N) :
    PrintsOnce deps root N (walk st deps root N).out := by
  classical
  have hleft := @walk_left st deps root N (h.harmless _)
  intro p d hedge
  rw [walk_count]
  constructor
  · intro hone
    by_contra hfar
    rw [if_neg fun hp => hfar (walk_opened_within hleft hp)] at hone
    exact absurd hone Nat.zero_ne_one
  · intro hwithin
    rw [if_pos (walk_within_opened hleft hwithin (Edge.get_ne_nil hedge))]
    exact List.count_eq_one_of_mem (h.distinct p hwithin) hedge

/-- Where each edge is printed once, each package near the root is opened that has dependencies. -/
theorem PrintsOnce.opened (h : PrintsOnce deps root N (walk st deps root N).out)
    (hp : Within deps root N p) (hedge : deps.Edge p d) :
    p ∈ (walk st deps root N).opened ∧ (deps.get p).count d = 1 := by
  classical
  have hone := (h p d hedge).mpr hp
  rw [walk_count] at hone
  split at hone
  next hin => exact ⟨hin, hone⟩
  next => exact absurd hone Nat.zero_ne_one

theorem PrintsOnce.shortFirst (h : PrintsOnce deps root N (walk st deps root N).out) :
    ShortFirst deps root N := by
  have hopened (p : Pkg) (hp : Within deps root N p) (hne : deps.get p ≠ []) :
      p ∈ (walk st deps root N).opened := by
    obtain ⟨d, hd⟩ := List.exists_mem_of_ne_nil _ hne
    exact (h.opened hp hd).1
  have hleft := @walk_left st deps root N (by
    intro x σ _ hclosed _ _ _
    by_contra hnot
    rw [not_or, not_not] at hnot
    exact hclosed (hopened x hnot.2 hnot.1))
  refine ⟨fun p hp => ?_, fun p hp hne l hl hlen => ?_⟩
  · apply List.nodup_iff_count_le_one.mpr
    intro d
    by_cases hd : d ∈ deps.get p
    · exact le_of_eq (h.opened hp hd).2
    · rw [List.count_eq_zero_of_not_mem hd]
      exact Nat.zero_le 1
  · -- the path on which the walk came to the package
    have hin := hopened p hp hne
    obtain ⟨σ, hσ⟩ := hleft.came p (hleft.inv.sound p hin) List.not_mem_nil
    have hlt := hσ.opened.mp hin
    refine ⟨σ, hσ.simple, hlt, ?_⟩
    rcases hσ.simple.trichotomy hl with rfl | hb | hb
    · exact absurd hlen (Nat.ne_of_lt hlt)
    · exact hb
    · exact absurd hb (hσ.first l hl (le_of_eq hlen))

/-- `print_pkg_deps` from the root with a limit on the depth: each edge is printed exactly once if and
only if its package is at a distance less than the limit, where no list near the root repeats a
package and none near the root is first met at the limit. -/
theorem printPkgDeps_once_iff (st : Settings) (deps : Deps) (root : Pkg) (N : ℕ) (hN : 0 < N)
    (hmax : st.max_depth = N) (hstop : st.stop_list = []) (hexclude : st.exclude_list = []) :
    ∃ s : Drawing, (∀ fuel, N < fuel → printPkgDeps st deps fuel 0 root ⟨[], []⟩ = some s) ∧
      (PrintsOnce deps root N s.out ↔ ShortFirst deps root N) := by
  refine ⟨⟨(walk st deps root N).done, (walk st deps root N).out⟩, fun fuel hfuel => ?_, ?_⟩
  · exact printPkgDeps_eq hstop hexclude hN hmax (Nat.zero_add N) hfuel root ⟨[], [], []⟩
  · exact ⟨PrintsOnce.shortFirst, ShortFirst.printsOnce⟩

end Run

section Examples

/-- A dictionary of four packages, where `r` lists `l`. -/
def fourDeps (l : List Pkg) : Deps where
  keys := ["r", "a", "b"]
  get p := if p = "r" then l else if p = "a" then ["b"] else if p = "b" then ["c"] else []
  nodup := by decide
  missing := by
    intro p hp
    simp only [List.mem_cons, List.not_mem_nil, or_false, not_or] at hp
    rw [if_neg hp.1, if_neg hp.2.1, if_neg hp.2.2]

/-- A limit of two and nothing else given. -/
def twoLevels : Settings where
  max_depth := 2
  stop_list := []
  exclude_list := []
  fnmatch _ _ := false
  dict_version _ := none
  mode_pkg := true
  rootpkg := "r"
  root_colour := "lightblue"
  target_colour := "grey"
  host_colour := "grey"

/-- Where `r` lists `a` and `b`, all of the edges go out from packages near the root. -/
theorem fourDeps_edge {l : List Pkg} (ha : "a" ∈ l) (hb : "b" ∈ l) {p d : Pkg}
    (h : (fourDeps l).Edge p d) :
    Within (fourDeps l) "r" 2 p ∧ (p = "r" ∧ d ∈ l ∨ p = "a" ∧ d = "b" ∨ p = "b" ∧ d = "c") := by
  have hstep {p : Pkg} (hp : p ∈ l) : Within (fourDeps l) "r" 2 p :=
    ⟨[p], .cons hp (.nil p), Nat.one_lt_two⟩
  change d ∈ (if p = "r" then l else if p = "a" then ["b"] else if p = "b" then ["c"] else []) at h
  split_ifs at h with h1 h2 h3
  · subst h1
    exact ⟨⟨[], .nil _, Nat.two_pos⟩, Or.inl ⟨rfl, h⟩⟩
  · subst h2
    exact ⟨hstep ha, Or.inr (Or.inl ⟨rfl, List.mem_singleton.mp h⟩)⟩
  · subst h3
    exact ⟨hstep hb, Or.inr (Or.inr ⟨rfl, List.mem_singleton.mp h⟩)⟩
  · cases h

/-- With `b` listed in front of `a`, the package `b` is first met near the root. -/
theorem printPkgDeps_once_near : ShortFirst (fourDeps ["b", "a"]) "r" 2 := by
  obtain ⟨s, hrun, honce⟩ := printPkgDeps_once_iff twoLevels (fourDeps ["b", "a"]) "r" 2 (by decide)
    rfl rfl rfl
  obtain ⟨s', hs', hcount⟩ : ∃ s',
      printPkgDeps twoLevels (fourDeps ["b", "a"]) 3 0 "r" ⟨[], []⟩ = some s' ∧
      s'.out.count (.edge "r" "b") = 1 ∧ s'.out.count (.edge "r" "a") = 1 ∧
      s'.out.count (.edge "a" "b") = 1 ∧ s'.out.count (.edge "b" "c") = 1 := by
    refine ⟨_, rfl, ?_⟩
    decide
  obtain rfl : s' = s := Option.some.inj (hs'.symm.trans (hrun 3 (by decide)))
  apply honce.mp
  intro p d hedge
  obtain ⟨hwithin, hpd⟩ := fourDeps_edge (by decide) (by decide) hedge
  refine iff_of_true ?_ hwithin
  obtain ⟨hrb, hra, hab, hbc⟩ := hcount
  rcases hpd with ⟨rfl, hd⟩ | ⟨rfl, rfl⟩ | ⟨rfl, rfl⟩
  · rcases List.mem_cons.mp hd with rfl | hd
    · exact hrb
    · rw [List.mem_singleton.mp hd]
      exact hra
  · exact hab
  · exact hbc

/-- With `a` listed in front of `b`, the package `b` is first met at the limit, behind `a`. It is at
the distance one, and its edge is not printed. -/
theorem printPkgDeps_once_far : ∃ s,
    printPkgDeps twoLevels (fourDeps ["a", "b"]) 3 0 "r" ⟨[], []⟩ = some s ∧
    s.out.count (.edge "b" "c") = 0 ∧ Within (fourDeps ["a", "b"]) "r" 2 "b" ∧
    ¬PrintsOnce (fourDeps ["a", "b"]) "r" 2 s.out := by
  have hedge : (fourDeps ["a", "b"]).Edge "b" "c" := List.mem_singleton.mpr rfl
  have hwithin := (fourDeps_edge (l := ["a", "b"]) (by decide) (by decide) hedge).1
  obtain ⟨s, hs, hnone⟩ : ∃ s,
      printPkgDeps twoLevels (fourDeps ["a", "b"]) 3 0 "r" ⟨[], []⟩ = some s ∧
      s.out.count (.edge "b" "c") = 0 := by
    refine ⟨_, rfl, ?_⟩
    decide
  refine ⟨s, hs, hnone, hwithin, fun honce => ?_⟩
  have hone := (honce "b" "c" hedge).mpr hwithin
  rw [hnone] at hone
  exact absurd hone Nat.zero_ne_one

end Examples

end ChipTools.GraphDepends
