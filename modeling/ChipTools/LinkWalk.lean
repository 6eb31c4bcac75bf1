import Mathlib.Data.Finset.Card
import Mathlib.Data.Finset.Image
import Mathlib.Data.Nat.Find
import Mathlib.Logic.Function.Iterate
import Mathlib.Tactic.Common

/-! Lists that are linked through a table. From a place on, the links are followed up to a mark that
ends the list. -/
namespace ChipTools.LinkWalk

variable {α : Type} (link : α → α) (stop : α)

/-- The first `k` steps do not come to the mark. -/
def Alive (c : α) (k : ℕ) : Prop := ∀ j ≤ k, link^[j] c ≠ stop

/-- As long as there is no mark, the links lead to places of the table, and to none of them twice. -/
structure Linear (S : Finset α) (c : α) : Prop where
  inside : ∀ k, Alive link stop c k → link^[k] c ∈ S
  new : ∀ k, Alive link stop c k → ∀ j < k, link^[j] c ≠ link^[k] c

/-- The list has `k` places, all of them in the table. -/
structure EndsAt (S : Finset α) (c : α) (k : ℕ) : Prop where
  last : link^[k] c = stop
  alive : ∀ j < k, link^[j] c ≠ stop
  inside : ∀ j < k, link^[j] c ∈ S

variable {link stop} {S : Finset α} {c : α} {k : ℕ}

theorem Alive.mono (h : Alive link stop c k) {j : ℕ} (hj : j ≤ k) : Alive link stop c j :=
  fun i hi => h i (hi.trans hj)

/-- The table is too small for a list without an end. -/
theorem Linear.not_alive (h : Linear link stop S c) : ¬Alive link stop c S.card := by
  intro halive
  have hmaps : ∀ j ∈ Finset.range (S.card+1), link^[j] c ∈ S := by
    intro j hj
    exact h.inside j (halive.mono (Nat.lt_succ_iff.mp (Finset.mem_range.mp hj)))
  have hcard : S.card < (Finset.range (S.card+1)).card := by
    rw [Finset.card_range]
    exact Nat.lt_succ_self _
  obtain ⟨i, hi, j, hj, hne, heq⟩ := Finset.exists_ne_map_eq_of_card_lt_of_maps_to hcard hmaps
  rw [Finset.mem_range, Nat.lt_succ_iff] at hi hj
  rcases Nat.lt_or_gt_of_ne hne with hlt | hlt
  · exact h.new j (halive.mono hj) i hlt heq
  · exact h.new i (halive.mono hi) j hlt heq.symm

/-- A list without a place twice comes to its end. -/
theorem Linear.endsAt (h : Linear link stop S c) : ∃ k ≤ S.card, EndsAt link stop S c k := by
  classical
  have hstop : ∃ k, link^[k] c = stop ∧ k ≤ S.card := by
    by_contra hnone
    push Not at hnone
    exact h.not_alive fun j hj heq => absurd hj (Nat.not_le.mpr (hnone j heq))
  -- the first mark
  have hfirst := Nat.find_spec hstop
  have halive : ∀ j < Nat.find hstop, link^[j] c ≠ stop := fun j hj heq =>
    Nat.find_min hstop hj ⟨heq, hj.le.trans hfirst.2⟩
  refine ⟨Nat.find hstop, hfirst.2, hfirst.1, halive, fun j hj => ?_⟩
  exact h.inside j fun i hi => halive i (lt_of_le_of_lt hi hj)

/-- A list with an end has no place twice. -/
theorem EndsAt.linear (h : EndsAt link stop S c k) : Linear link stop S c := by
  have hlt {i : ℕ} (hi : Alive link stop c i) : i < k := by
    by_contra hle
    exact hi k (Nat.not_lt.mp hle) h.last
  refine ⟨fun i hi => h.inside i (hlt hi), fun i hi j hj heq => ?_⟩
  -- otherwise the mark would come earlier by the length of the cycle
  have hk := hlt hi
  have hback : link^[k-i+j] c = stop := by
    rw [Function.iterate_add_apply, heq, ← Function.iterate_add_apply, Nat.sub_add_cancel hk.le]
    exact h.last
  exact h.alive (k-i+j) (by omega) hback

theorem EndsAt.mem (h : EndsAt link stop S c (k+1)) : c ∈ S := h.inside 0 (Nat.succ_pos k)

theorem EndsAt.next (h : EndsAt link stop S c (k+1)) : EndsAt link stop S (link c) k :=
  ⟨h.last, fun j hj => h.alive (j+1) (Nat.succ_lt_succ hj),
    fun j hj => h.inside (j+1) (Nat.succ_lt_succ hj)⟩

theorem EndsAt.cons (h : EndsAt link stop S (link c) k) (hc : c ∈ S) (hne : c ≠ stop) :
    EndsAt link stop S c (k+1) := by
  refine ⟨h.last, fun j hj => ?_, fun j hj => ?_⟩
  · cases j with
    | zero => exact hne
    | succ j => exact h.alive j (Nat.lt_of_succ_lt_succ hj)
  · cases j with
    | zero => exact hc
    | succ j => exact h.inside j (Nat.lt_of_succ_lt_succ hj)

end ChipTools.LinkWalk
