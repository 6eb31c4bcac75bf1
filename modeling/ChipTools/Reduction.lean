import Mathlib.Data.Finset.Card
import Mathlib.Logic.Relation

/-! Acyclic relations with finitely many targets, and the removal of edges that longer paths
imply: it does not change which elements reach which. -/
namespace ChipTools.Reduction
open Relation

section Rank

variable {α : Type*} {E : α → α → Prop} {S : Finset α} {a b : α}

def Acyclic (E : α → α → Prop) : Prop := ∀ a, ¬TransGen E a a

/-- All targets of edges are in a finite set. -/
def Into (E : α → α → Prop) (S : Finset α) : Prop := ∀ a b, E a b → b ∈ S

open Classical in
/-- The number of elements that one reaches. -/
noncomputable def rank (E : α → α → Prop) (S : Finset α) (a : α) : ℕ :=
  (S.filter fun b => TransGen E a b).card

theorem Acyclic.mono {F : α → α → Prop} (h : Acyclic E) (hsub : ∀ a b, F a b → E a b) :
    Acyclic F := fun a ha => h a (TransGen.mono hsub a a ha)

open Classical in
theorem rank_le : rank E S a ≤ S.card := Finset.card_filter_le _ _

theorem transGen_mem (hS : Into E S) (h : TransGen E a b) : b ∈ S := by
  cases h with
  | single h => exact hS _ _ h
  | tail _ h => exact hS _ _ h

open Classical in
theorem rank_lt (hac : Acyclic E) (hS : Into E S) (h : TransGen E a b) :
    rank E S b < rank E S a := by
  apply Finset.card_lt_card
  rw [Finset.ssubset_iff_of_subset]
  · -- `b` itself is only reached from `a`
    refine ⟨b, Finset.mem_filter.mpr ⟨transGen_mem hS h, h⟩, fun hb => ?_⟩
    exact hac b (Finset.mem_filter.mp hb).2
  · intro c hc
    obtain ⟨hcS, hbc⟩ := Finset.mem_filter.mp hc
    exact Finset.mem_filter.mpr ⟨hcS, h.trans hbc⟩

end Rank

section Reduce

variable {α : Type*} {E F : α → α → Prop} {S : Finset α} {p : α}

/-- `F` is `E` with some edges at `p` removed, each of them to an element that another target of
`p` reaches. -/
structure Trimmed (E F : α → α → Prop) (p : α) : Prop where
  sub : ∀ a b, F a b → E a b
  keep : ∀ a b, a ≠ p → E a b → F a b
  implied : ∀ b, E p b → F p b ∨ ∃ c, E p c ∧ TransGen E c b

/-- Paths that do not come back to `p` keep their edges. -/
theorem Trimmed.path (h : Trimmed E F p) (hac : Acyclic E) {c b : α} (hpc : E p c)
    (hcb : TransGen E c b) : TransGen F c b := by
  have hstay {x : α} (hx : ReflTransGen E c x) : x ≠ p := by
    rintro rfl
    exact hac x (TransGen.head' hpc hx)
  induction hcb with
  | single hx => exact .single (h.keep _ _ (hstay .refl) hx)
  | tail hcx hx ih => exact ih.tail (h.keep _ _ (hstay hcx.to_reflTransGen) hx)

/-- A removed edge is a path over a target that is kept: one that reaches the most. -/
theorem Trimmed.edge (h : Trimmed E F p) (hac : Acyclic E) (hS : Into E S) {a b : α}
    (hab : E a b) : TransGen F a b := by
  by_cases ha : a = p
  · subst ha
    rcases h.implied b hab with hF | ⟨c, hpc, hcb⟩
    · exact .single hF
    · obtain ⟨n, hn⟩ : ∃ n, S.card-rank E S c = n := ⟨_, rfl⟩
      induction n using Nat.strong_induction_on generalizing c with
      | _ n ih =>
        rcases h.implied c hpc with hF | ⟨c', hpc', hcc'⟩
        · exact TransGen.head hF (h.path hac hpc hcb)
        · have hlt := rank_lt hac hS hcc'
          have hle := rank_le (E := E) (S := S) (a := c')
          exact ih _ (by omega) c' hpc' (hcc'.trans hcb) rfl
  · exact .single (h.keep a b ha hab)

theorem Trimmed.transGen_iff (h : Trimmed E F p) (hac : Acyclic E) (hS : Into E S) {a b : α} :
    TransGen F a b ↔ TransGen E a b := by
  constructor
  · exact fun hab => TransGen.mono h.sub a b hab
  · intro hab
    induction hab with
    | single hx => exact h.edge hac hS hx
    | tail _ hx ih => exact ih.trans (h.edge hac hS hx)

end Reduce

end ChipTools.Reduction
