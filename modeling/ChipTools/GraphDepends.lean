import ChipTools.Reduction
import Mathlib.Data.List.FinRange
import Mathlib.Data.List.Nodup
import Mathlib.Data.List.Perm.Basic
import Mathlib.Logic.Function.Basic
import Mathlib.Data.Finset.Dedup

/-! `graph-depends`: the dictionary of dependencies, and how `remove_extra_deps` trims it in
place. -/
namespace ChipTools.GraphDepends
open Relation Reduction

section Dictionary

abbrev Pkg := String

/-- The dictionary `deps`, with its keys in the order in which they are listed. A package without a
key has no dependencies. -/
structure Deps where
  keys : List Pkg
  get : Pkg → List Pkg
  nodup : keys.Nodup
  missing : ∀ p, p ∉ keys → get p = []

/-- `deps[pkg] = l`. -/
def Deps.set (deps : Deps) (pkg : Pkg) (l : List Pkg) : Deps where
  keys := if pkg ∈ deps.keys then deps.keys else deps.keys ++ [pkg]
  get := Function.update deps.get pkg l
  nodup := by
    split
    · exact deps.nodup
    next hnot => exact List.nodup_append.mpr ⟨deps.nodup, List.nodup_singleton _, fun a ha b hb => by
        rw [List.mem_singleton.mp hb]
        rintro rfl
        exact hnot ha⟩
  missing := by
    intro p hp
    have hne : p ≠ pkg := by
      rintro rfl
      split at hp
      next hin => exact hp hin
      next => exact hp (List.mem_append_right _ (List.mem_singleton.mpr rfl))
    rw [Function.update_of_ne hne]
    apply deps.missing
    intro hin
    apply hp
    split
    · exact hin
    · exact List.mem_append_left _ hin

/-- One package depends on another one. -/
def Deps.Edge (deps : Deps) (p q : Pkg) : Prop := q ∈ deps.get p

/-- Without edges to `toolchain` and `skeleton`, those from `all` apart. -/
def Deps.Drawn (deps : Deps) (p q : Pkg) : Prop :=
  deps.Edge p q ∧ (p = "all" ∨ q ≠ "toolchain" ∧ q ≠ "skeleton")

end Dictionary

section Functions

variable (deps : Deps)

/-- The loop of `is_dep` over the dependencies of a package. -/
def isDepLoop (f : Pkg → Option Bool) (pkg : Pkg) : List Pkg → Option Bool
  | [] => some false
  | p :: ps =>
    if pkg = p then some true
    else match f p with
      | none => none
      | some true => some true
      | some false => isDepLoop f pkg ps

/-- `is_dep`, with a bound on the depth of its recursion. -/
def isDep : ℕ → Pkg → Pkg → Option Bool
  | 0, _, _ => none
  | fuel+1, pkg, pkg2 =>
    if pkg2 ∈ deps.keys then isDepLoop (isDep fuel pkg) pkg (deps.get pkg2) else some false

/-- The inner loop of `remove_transitive_deps`, for the dependency `i` of `d`. -/
def keepLoop (fuel : ℕ) (d : List Pkg) (i : Fin d.length) :
    List (Fin d.length) → Bool → Option Bool
  | [], keep_me => some keep_me
  | j :: js, keep_me =>
    if j = i then keepLoop fuel d i js keep_me
    else match isDep deps fuel (d.get i) (d.get j) with
      | none => none
      | some true => keepLoop fuel d i js false
      | some false => keepLoop fuel d i js keep_me

/-- The outer loop. -/
def newLoop (fuel : ℕ) (d : List Pkg) : List (Fin d.length) → Option (List Pkg)
  | [] => some []
  | i :: is =>
    match keepLoop deps fuel d i (List.finRange d.length) true, newLoop fuel d is with
    | some keep_me, some new_d => some (if keep_me then d.get i :: new_d else new_d)
    | _, _ => none

def removeTransitiveDeps (fuel : ℕ) (pkg : Pkg) : Option (List Pkg) :=
  newLoop deps fuel (deps.get pkg) (List.finRange (deps.get pkg).length)

def removeMandatoryDeps (pkg : Pkg) : List Pkg :=
  (deps.get pkg).filter fun p => p ∉ ["toolchain", "skeleton"]

/-- The first loop of `remove_extra_deps`. -/
def mandatoryLoop : List Pkg → Deps → Deps
  | [], deps => deps
  | pkg :: pkgs, deps =>
    mandatoryLoop pkgs (if pkg ≠ "all" then deps.set pkg (removeMandatoryDeps deps pkg) else deps)

/-- The second one. Each step reads the dictionary that the steps before it have trimmed. -/
def transitiveLoop (transitive : Bool) (fuel : ℕ) : List Pkg → Deps → Option Deps
  | [], deps => some deps
  | pkg :: pkgs, deps =>
    if !transitive || pkg = "all" then
      match removeTransitiveDeps deps fuel pkg with
      | none => none
      | some new_d => transitiveLoop transitive fuel pkgs (deps.set pkg new_d)
    else transitiveLoop transitive fuel pkgs deps

def removeExtraDeps (transitive : Bool) (fuel : ℕ) (deps : Deps) : Option Deps :=
  let deps := mandatoryLoop deps.keys deps
  transitiveLoop transitive fuel deps.keys deps

end Functions

section Search

variable {deps : Deps} {S : Finset Pkg} {fuel : ℕ} {pkg pkg2 : Pkg}

@[simp] theorem Deps.set_get_self (l : List Pkg) : (deps.set pkg l).get pkg = l :=
  Function.update_self _ _ _

theorem Deps.set_get_ne {p : Pkg} (l : List Pkg) (h : p ≠ pkg) :
    (deps.set pkg l).get p = deps.get p := Function.update_of_ne h _ _

theorem Deps.set_keys {l : List Pkg} (h : pkg ∈ deps.keys) : (deps.set pkg l).keys = deps.keys :=
  if_pos h

theorem Deps.Edge.key {p q : Pkg} (h : deps.Edge p q) : p ∈ deps.keys := by
  by_contra hnot
  unfold Edge at h
  rw [deps.missing p hnot] at h
  cases h

theorem isDepLoop_spec {f : Pkg → Option Bool} {R : Pkg → Prop} {ps : List Pkg}
    (h : ∀ p ∈ ps, ∃ b, f p = some b ∧ (b = true ↔ R p)) :
    ∃ b, isDepLoop f pkg ps = some b ∧ (b = true ↔ ∃ p ∈ ps, pkg = p ∨ R p) := by
  induction ps with
  | nil => exact ⟨false, rfl, by simp⟩
  | cons p ps ih =>
    obtain ⟨b, hf, hb⟩ := h p List.mem_cons_self
    obtain ⟨b', hloop, hb'⟩ := ih fun q hq => h q (List.mem_cons_of_mem _ hq)
    rw [isDepLoop]
    by_cases heq : pkg = p
    · rw [if_pos heq]
      exact ⟨true, rfl, fun _ => ⟨p, List.mem_cons_self, Or.inl heq⟩, fun _ => rfl⟩
    · rw [if_neg heq, hf]
      cases b with
      | true => exact ⟨true, rfl, fun _ => ⟨p, List.mem_cons_self, Or.inr (hb.mp rfl)⟩, fun _ => rfl⟩
      | false =>
        refine ⟨b', hloop, hb'.trans ?_⟩
        simp only [List.exists_mem_cons_iff, heq, false_or]
        have hp : ¬R p := fun hR => Bool.false_ne_true (hb.mpr hR)
        simp only [hp, false_or]

/-- `is_dep` returns, and says whether there is a path. Each level of the recursion reaches fewer
packages. -/
theorem isDep_spec (hac : Acyclic deps.Edge) (hS : Into deps.Edge S)
    (hfuel : rank deps.Edge S pkg2 < fuel) :
    ∃ b, isDep deps fuel pkg pkg2 = some b ∧ (b = true ↔ TransGen deps.Edge pkg2 pkg) := by
  induction fuel generalizing pkg2 with
  | zero => exact absurd hfuel (Nat.not_lt_zero _)
  | succ fuel ih =>
    rw [isDep]
    split
    · obtain ⟨b, hloop, hb⟩ := @isDepLoop_spec pkg (isDep deps fuel pkg)
        (fun p => TransGen deps.Edge p pkg) (deps.get pkg2) fun p hp =>
          ih ((rank_lt hac hS (.single hp)).trans_le (Nat.le_of_lt_succ hfuel))
      refine ⟨b, hloop, hb.trans ?_⟩
      rw [TransGen.head'_iff]
      constructor
      · rintro ⟨p, hp, rfl | hpath⟩
        · exact ⟨pkg, hp, .refl⟩
        · exact ⟨p, hp, hpath.to_reflTransGen⟩
      · rintro ⟨p, hp, hpath⟩
        rcases reflTransGen_iff_eq_or_transGen.mp hpath with heq | hpath
        · exact ⟨p, hp, Or.inl heq⟩
        · exact ⟨p, hp, Or.inr hpath⟩
    next hnot =>
      refine ⟨false, rfl, fun h => absurd h Bool.false_ne_true, fun h => ?_⟩
      obtain ⟨p, hp, -⟩ := TransGen.head'_iff.mp h
      exact absurd (Deps.Edge.key hp) hnot

end Search

section Trim

variable {deps : Deps} {S : Finset Pkg} {fuel : ℕ} {pkg : Pkg} {E : Pkg → Pkg → Prop}

open Classical in
/-- The dependencies that no other one of the list reaches. -/
noncomputable def reduced (E : Pkg → Pkg → Prop) (l : List Pkg) : List Pkg :=
  l.filter fun q => decide (∀ c ∈ l, c ≠ q → ¬TransGen E c q)

theorem mem_reduced {l : List Pkg} {q : Pkg} :
    q ∈ reduced E l ↔ q ∈ l ∧ ∀ c ∈ l, c ≠ q → ¬TransGen E c q := by
  classical
  unfold reduced
  rw [List.mem_filter]
  exact and_congr_right fun _ => decide_eq_true_iff

theorem reduced_congr {F : Pkg → Pkg → Prop} (h : ∀ a b, TransGen E a b ↔ TransGen F a b)
    (l : List Pkg) : reduced E l = reduced F l := by
  have hpath : TransGen E = TransGen F := funext fun a => funext fun b => propext (h a b)
  unfold reduced
  rw [hpath]

theorem keepLoop_spec {d : List Pkg} {i : Fin d.length} {js : List (Fin d.length)} {keep_me : Bool}
    (h : ∀ j, ∃ b, isDep deps fuel (d.get i) (d.get j) = some b ∧
      (b = true ↔ TransGen E (d.get j) (d.get i))) :
    ∃ b, keepLoop deps fuel d i js keep_me = some b ∧
      (b = true ↔ keep_me = true ∧ ∀ j ∈ js, j ≠ i → ¬TransGen E (d.get j) (d.get i)) := by
  induction js generalizing keep_me with
  | nil => exact ⟨keep_me, rfl, by simp⟩
  | cons j js ih =>
    rw [keepLoop]
    by_cases hji : j = i
    · rw [if_pos hji]
      obtain ⟨b, hloop, hb⟩ := @ih keep_me
      refine ⟨b, hloop, hb.trans (and_congr_right fun _ => ?_)⟩
      rw [List.forall_mem_cons]
      exact ⟨fun hall => ⟨fun hne => absurd hji hne, hall⟩, And.right⟩
    · rw [if_neg hji]
      obtain ⟨b, hdep, hb⟩ := h j
      rw [hdep]
      cases b with
      | true =>
        obtain ⟨b', hloop, hb'⟩ := @ih false
        refine ⟨b', hloop, hb'.trans ⟨fun hfalse => absurd hfalse.1 Bool.false_ne_true, ?_⟩⟩
        rintro ⟨-, hall⟩
        exact absurd (hb.mp rfl) (hall j List.mem_cons_self hji)
      | false =>
        obtain ⟨b', hloop, hb'⟩ := @ih keep_me
        refine ⟨b', hloop, hb'.trans (and_congr_right fun _ => ?_)⟩
        rw [List.forall_mem_cons]
        exact ⟨fun hall => ⟨fun _ hpath => Bool.false_ne_true (hb.mpr hpath), hall⟩, And.right⟩

open Classical in
theorem newLoop_spec {d : List Pkg} (hd : d.Nodup) {is : List (Fin d.length)}
    (h : ∀ i j, ∃ b, isDep deps fuel (d.get i) (d.get j) = some b ∧
      (b = true ↔ TransGen E (d.get j) (d.get i))) :
    newLoop deps fuel d is =
      some ((is.map d.get).filter fun q => decide (∀ c ∈ d, c ≠ q → ¬TransGen E c q)) := by
  induction is with
  | nil => rfl
  | cons i is ih =>
    obtain ⟨b, hkeep, hb⟩ := @keepLoop_spec deps fuel E d i (List.finRange d.length) true (h i)
    -- positions and packages are the same, as no package is there twice
    have hother : b = true ↔ ∀ c ∈ d, c ≠ d.get i → ¬TransGen E c (d.get i) := by
      rw [hb]
      constructor
      · rintro ⟨-, hall⟩ c hc hne
        obtain ⟨j, rfl⟩ := List.mem_iff_get.mp hc
        exact hall j (List.mem_finRange j) fun heq => hne (by rw [heq])
      · intro hall
        refine ⟨rfl, fun j _ hne => hall _ (List.get_mem d j) fun heq => hne ?_⟩
        exact List.nodup_iff_injective_get.mp hd heq
    rw [newLoop, hkeep, ih, List.map_cons, List.filter_cons]
    cases b with
    | true =>
      rw [if_pos (decide_eq_true (hother.mp rfl))]
      rfl
    | false =>
      have hnot : ¬∀ c ∈ d, c ≠ d.get i → ¬TransGen E c (d.get i) :=
        fun hall => Bool.false_ne_true (hother.mpr hall)
      rw [if_neg (fun htrue => hnot (of_decide_eq_true htrue))]
      rfl

/-- `remove_transitive_deps` keeps what no other dependency implies. -/
theorem removeTransitiveDeps_eq (hac : Acyclic deps.Edge) (hS : Into deps.Edge S)
    (hfuel : S.card < fuel) (hnodup : (deps.get pkg).Nodup) :
    removeTransitiveDeps deps fuel pkg = some (reduced deps.Edge (deps.get pkg)) := by
  classical
  have hdep (i j : Fin (deps.get pkg).length) := @isDep_spec deps S fuel ((deps.get pkg).get i)
    ((deps.get pkg).get j) hac hS (rank_le.trans_lt hfuel)
  unfold removeTransitiveDeps
  rw [newLoop_spec hnodup hdep, ← List.ofFn_eq_map, List.ofFn_get]
  unfold reduced
  congr

end Trim

section Loops

variable {deps : Deps} {S : Finset Pkg} {fuel : ℕ} {pkgs : List Pkg}

theorem mandatoryLoop_spec (hsub : pkgs ⊆ deps.keys) (hnodup : pkgs.Nodup) :
    (mandatoryLoop pkgs deps).keys = deps.keys ∧
    ∀ p, (mandatoryLoop pkgs deps).get p =
      if p ∈ pkgs ∧ p ≠ "all" then removeMandatoryDeps deps p else deps.get p := by
  induction pkgs generalizing deps with
  | nil => exact ⟨rfl, fun p => (if_neg fun h => List.not_mem_nil h.1).symm⟩
  | cons pkg pkgs ih =>
    obtain ⟨hkey, hsub'⟩ := List.cons_subset.mp hsub
    obtain ⟨hnot, hnodup'⟩ := List.nodup_cons.mp hnodup
    rw [mandatoryLoop]
    by_cases hall : pkg = "all"
    · rw [if_neg (not_not_intro hall)]
      obtain ⟨hkeys, hget⟩ := ih hsub' hnodup'
      refine ⟨hkeys, fun p => ?_⟩
      rw [hget]
      by_cases hp : p = pkg
      · rw [if_neg (fun h => h.2 (hp.trans hall)), if_neg (fun h => h.2 (hp.trans hall))]
      · simp only [List.mem_cons, hp, false_or]
    · rw [if_pos hall]
      obtain ⟨hkeys, hget⟩ := @ih (deps.set pkg (removeMandatoryDeps deps pkg))
        (by rw [Deps.set_keys hkey]; exact hsub') hnodup'
      refine ⟨hkeys.trans (Deps.set_keys hkey), fun p => ?_⟩
      rw [hget]
      by_cases hp : p = pkg
      · subst hp
        rw [if_neg (fun h => hnot h.1), if_pos ⟨List.mem_cons_self, hall⟩, Deps.set_get_self]
      · simp only [removeMandatoryDeps, Deps.set_get_ne _ hp, List.mem_cons, hp, false_or]

/-- What is drawn, before the transitive dependencies are removed. -/
theorem mandatoryLoop_edge (p q : Pkg) :
    (mandatoryLoop deps.keys deps).Edge p q ↔ deps.Drawn p q := by
  have hget := (@mandatoryLoop_spec deps _ (List.Subset.refl _) deps.nodup).2 p
  unfold Deps.Edge Deps.Drawn
  rw [hget]
  by_cases hall : p = "all"
  · rw [if_neg (fun h => h.2 hall)]
    exact ⟨fun h => ⟨h, Or.inl hall⟩, And.left⟩
  · by_cases hkey : p ∈ deps.keys
    · rw [if_pos ⟨hkey, hall⟩]
      unfold removeMandatoryDeps Deps.Edge
      simp [hall]
    · rw [if_neg (fun h => hkey h.1)]
      unfold Deps.Edge
      rw [deps.missing p hkey]
      simp

/-- Trimming one package. -/
theorem trimmed_set (deps : Deps) (pkg : Pkg) :
    Trimmed deps.Edge (deps.set pkg (reduced deps.Edge (deps.get pkg))).Edge pkg where
  sub a b h := by
    unfold Deps.Edge at h ⊢
    by_cases ha : a = pkg
    · rw [ha, Deps.set_get_self] at h
      rw [ha]
      exact (mem_reduced.mp h).1
    · rwa [Deps.set_get_ne _ ha] at h
  keep a b ha h := by
    unfold Deps.Edge at h ⊢
    rwa [Deps.set_get_ne _ ha]
  implied b h := by
    by_cases hkeep : ∀ c ∈ deps.get pkg, c ≠ b → ¬TransGen deps.Edge c b
    · left
      unfold Deps.Edge
      rw [Deps.set_get_self]
      exact mem_reduced.mpr ⟨h, hkeep⟩
    · right
      push Not at hkeep
      obtain ⟨c, hc, -, hpath⟩ := hkeep
      exact ⟨c, hc, hpath⟩

/-- The second loop. The lists that are not visited yet are as they were, and nothing that is
reached changes, so each visited list is reduced by the paths of the beginning. -/
theorem transitiveLoop_spec {deps₀ : Deps} (hac : Acyclic deps₀.Edge) (hS : Into deps₀.Edge S)
    (hfuel : S.card < fuel) (hsub : pkgs ⊆ deps.keys) (hnodup : pkgs.Nodup)
    (hedges : ∀ a b, deps.Edge a b → deps₀.Edge a b)
    (hpath : ∀ a b, TransGen deps.Edge a b ↔ TransGen deps₀.Edge a b)
    (hlists : ∀ p ∈ pkgs, (deps.get p).Nodup) :
    ∃ deps', transitiveLoop false fuel pkgs deps = some deps' ∧ deps'.keys = deps.keys ∧
      (∀ p, deps'.get p = if p ∈ pkgs then reduced deps₀.Edge (deps.get p) else deps.get p) ∧
      ∀ a b, TransGen deps'.Edge a b ↔ TransGen deps₀.Edge a b := by
  induction pkgs generalizing deps with
  | nil => exact ⟨deps, rfl, rfl, fun p => (if_neg List.not_mem_nil).symm, hpath⟩
  | cons pkg pkgs ih =>
    obtain ⟨hkey, hsub'⟩ := List.cons_subset.mp hsub
    obtain ⟨hnot, hnodup'⟩ := List.nodup_cons.mp hnodup
    have hac' := hac.mono hedges
    have hS' : Into deps.Edge S := fun a b h => hS a b (hedges a b h)
    have hremove := removeTransitiveDeps_eq hac' hS' hfuel (hlists pkg List.mem_cons_self)
    have htrim := trimmed_set deps pkg
    have hred := reduced_congr hpath (deps.get pkg)
    obtain ⟨deps', hloop, hkeys, hget, hpath'⟩ := @ih
      (deps.set pkg (reduced deps.Edge (deps.get pkg)))
      (by rw [Deps.set_keys hkey]; exact hsub') hnodup'
      (fun a b h => hedges a b (htrim.sub a b h))
      (fun a b => (htrim.transGen_iff hac' hS').trans (hpath a b))
      (fun p hp => by
        rw [Deps.set_get_ne _ (by rintro rfl; exact hnot hp)]
        exact hlists p (List.mem_cons_of_mem _ hp))
    refine ⟨deps', ?_, hkeys.trans (Deps.set_keys hkey), fun p => ?_, hpath'⟩
    · rw [transitiveLoop, Bool.not_false, Bool.true_or, if_pos rfl, hremove]
      exact hloop
    · rw [hget]
      by_cases hp : p = pkg
      · subst hp
        rw [if_neg hnot, if_pos List.mem_cons_self, Deps.set_get_self, hred]
      · rw [Deps.set_get_ne _ hp]
        simp only [List.mem_cons, hp, false_or]

end Loops

section Reduced

variable {deps : Deps}

/-- The packages that something depends on. -/
def Deps.targets (deps : Deps) : Finset Pkg := (deps.keys.flatMap deps.get).toFinset

theorem Deps.into_targets (deps : Deps) : Into deps.Edge deps.targets := by
  intro p q h
  exact List.mem_toFinset.mpr (List.mem_flatMap.mpr ⟨p, h.key, h⟩)

theorem Deps.drawn_edge {p q : Pkg} (h : deps.Drawn p q) : deps.Edge p q := h.1

/-- What `remove_extra_deps` returns, with transitive drawing off: of each list, what the paths of
the drawn graph do not imply. -/
theorem removeExtraDeps_eq (hac : Acyclic deps.Edge) (hdistinct : ∀ p, (deps.get p).Nodup)
    {fuel : ℕ} (hfuel : deps.targets.card < fuel) :
    ∃ deps', removeExtraDeps false fuel deps = some deps' ∧ deps'.keys = deps.keys ∧
      (∀ p, deps'.get p = reduced deps.Drawn
        (if p ∈ deps.keys ∧ p ≠ "all" then removeMandatoryDeps deps p else deps.get p)) ∧
      ∀ p q, TransGen deps'.Edge p q ↔ TransGen deps.Drawn p q := by
  obtain ⟨hkeys, hget⟩ := mandatoryLoop_spec (List.Subset.refl deps.keys) deps.nodup
  have hedge : (mandatoryLoop deps.keys deps).Edge = deps.Drawn :=
    funext fun p => funext fun q => propext (mandatoryLoop_edge p q)
  have hac' : Acyclic (mandatoryLoop deps.keys deps).Edge := by
    rw [hedge]
    exact hac.mono fun _ _ => Deps.drawn_edge
  have hS : Into (mandatoryLoop deps.keys deps).Edge deps.targets := by
    rw [hedge]
    exact fun p q h => deps.into_targets p q (Deps.drawn_edge h)
  obtain ⟨deps', hloop, hkeys', hget', hpath⟩ := transitiveLoop_spec hac' hS hfuel
    (List.Subset.refl (mandatoryLoop deps.keys deps).keys) (mandatoryLoop deps.keys deps).nodup
    (fun _ _ h => h) (fun _ _ => Iff.rfl) (fun p _ => by
      rw [hget]
      split
      · exact (hdistinct p).filter _
      · exact hdistinct p)
  rw [hedge] at hget' hpath
  refine ⟨deps', hloop, hkeys'.trans hkeys, fun p => ?_, hpath⟩
  rw [hget', ← hget]
  split
  · rfl
  next hnot =>
    -- a package without a key has no list
    rw [(mandatoryLoop deps.keys deps).missing p hnot]
    rfl

/-- An edge that is left is not implied: there is no path of two edges or more. -/
theorem reduced_minimal {E F : Pkg → Pkg → Prop} (hac : Acyclic E)
    (hpath : ∀ p q, TransGen F p q → TransGen E p q) {l : Pkg → List Pkg}
    (hl : ∀ p q, F p q ↔ q ∈ reduced E (l p)) {p q c : Pkg} (hpq : F p q) (hpc : F p c) :
    ¬TransGen F c q := by
  intro hcq
  have hreach := hpath c q hcq
  have hne : c ≠ q := by
    rintro rfl
    exact hac c hreach
  exact (mem_reduced.mp ((hl p q).mp hpq)).2 c (mem_reduced.mp ((hl p c).mp hpc)).1 hne hreach

/-- `remove_extra_deps` on an acyclic dictionary, with transitive drawing off: it returns, and so
does every call of `is_dep`; what is reached stays what it is in the drawn graph; no edge is left
that a longer path implies; and the order of the keys does not matter. -/
theorem removeExtraDeps_reduces (deps : Deps) (hac : Acyclic deps.Edge)
    (hdistinct : ∀ p, (deps.get p).Nodup) :
    ∃ fuel₀, ∀ fuel ≥ fuel₀,
      (∀ pkg pkg2, ∃ b, isDep deps fuel pkg pkg2 = some b ∧
        (b = true ↔ TransGen deps.Edge pkg2 pkg)) ∧
      ∃ deps', removeExtraDeps false fuel deps = some deps' ∧ deps'.keys = deps.keys ∧
        (∀ p q, TransGen deps'.Edge p q ↔ TransGen deps.Drawn p q) ∧
        (∀ p q c, deps'.Edge p q → deps'.Edge p c → ¬TransGen deps'.Edge c q) ∧
        ∀ other : Deps, other.keys.Perm deps.keys → other.get = deps.get →
          ∃ other', removeExtraDeps false fuel other = some other' ∧ other'.get = deps'.get := by
  refine ⟨deps.targets.card+1, fun fuel hfuel => ⟨fun pkg pkg2 => ?_, ?_⟩⟩
  · exact isDep_spec hac deps.into_targets (rank_le.trans_lt hfuel)
  · have hac' : Acyclic deps.Drawn := hac.mono fun _ _ => Deps.drawn_edge
    obtain ⟨deps', hrun, hkeys, hget, hpath⟩ := removeExtraDeps_eq hac hdistinct hfuel
    refine ⟨deps', hrun, hkeys, hpath, fun p q c hpq hpc => ?_, fun other hperm heq => ?_⟩
    · apply reduced_minimal hac' (fun p q => (hpath p q).mp) (fun p q => ?_) hpq hpc
      · exact fun p => if p ∈ deps.keys ∧ p ≠ "all" then removeMandatoryDeps deps p else deps.get p
      · unfold Deps.Edge
        rw [hget]
    · have hedge : other.Edge = deps.Edge := by
        unfold Deps.Edge
        rw [heq]
      have hdrawn : other.Drawn = deps.Drawn := by
        unfold Deps.Drawn
        rw [hedge]
      have htargets : other.targets = deps.targets := by
        unfold Deps.targets
        rw [heq]
        exact List.toFinset_eq_of_perm _ _ (hperm.flatMap_right _)
      obtain ⟨other', hrun', -, hget', -⟩ := @removeExtraDeps_eq other (by rw [hedge]; exact hac)
        (by rw [heq]; exact hdistinct) fuel (by rw [htargets]; exact hfuel)
      refine ⟨other', hrun', funext fun p => ?_⟩
      rw [hget, hget', hdrawn, heq]
      unfold removeMandatoryDeps
      rw [heq]
      simp only [hperm.mem_iff]

end Reduced

section Small

/-- A dictionary of three packages where one list has a dependency that the other one implies. -/
def smallDeps : Deps where
  keys := ["all", "a", "b"]
  get := fun p => if p = "all" then ["a", "b", "toolchain"] else if p = "a" then ["b", "toolchain"]
    else if p = "b" then ["toolchain"] else []
  nodup := by decide
  missing := by
    intro p hp
    simp only [List.mem_cons, List.not_mem_nil, or_false, not_or] at hp
    rw [if_neg hp.1, if_neg hp.2.1, if_neg hp.2.2]

theorem smallDeps_get (p : Pkg) : smallDeps.get p = if p = "all" then ["a", "b", "toolchain"]
    else if p = "a" then ["b", "toolchain"] else if p = "b" then ["toolchain"] else [] := rfl

/-- A number that each edge makes smaller. -/
def smallHeight (p : Pkg) : ℕ :=
  if p = "all" then 3 else if p = "a" then 2 else if p = "b" then 1 else 0

theorem smallDeps_acyclic : Acyclic smallDeps.Edge := by
  have hstep (p q : Pkg) (h : smallDeps.Edge p q) : smallHeight q < smallHeight p := by
    unfold Deps.Edge at h
    rw [smallDeps_get] at h
    split_ifs at h with h1 h2 h3
    · subst h1
      simp only [List.mem_cons, List.not_mem_nil, or_false] at h
      rcases h with rfl | rfl | rfl <;> decide
    · subst h2
      simp only [List.mem_cons, List.not_mem_nil, or_false] at h
      rcases h with rfl | rfl <;> decide
    · subst h3
      rw [List.mem_singleton.mp h]
      decide
    · cases h
  have hpath {p q : Pkg} (h : TransGen smallDeps.Edge p q) : smallHeight q < smallHeight p := by
    induction h with
    | single h => exact hstep _ _ h
    | tail _ h ih => exact (hstep _ _ h).trans ih
  exact fun p hp => lt_irrefl _ (hpath hp)

theorem smallDeps_distinct (p : Pkg) : (smallDeps.get p).Nodup := by
  rw [smallDeps_get]
  split_ifs <;> decide

/-- Here the edges from `a` and `b` to the toolchain go, and then the one from `all` to `b`. -/
theorem removeExtraDeps_reduces_small :
    ∃ deps', (∃ fuel, removeExtraDeps false fuel smallDeps = some deps') ∧
      ∀ p q, TransGen deps'.Edge p q ↔ TransGen smallDeps.Drawn p q := by
  obtain ⟨fuel, h⟩ := removeExtraDeps_reduces smallDeps smallDeps_acyclic smallDeps_distinct
  obtain ⟨-, deps', hrun, -, hpath, -⟩ := h fuel (le_refl _)
  exact ⟨deps', ⟨fuel, hrun⟩, hpath⟩

end Small

end ChipTools.GraphDepends
