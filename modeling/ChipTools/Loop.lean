import Mathlib.Data.Nat.Notation
import Mathlib.Tactic.Common

/-! Computations that can stop: the rules for their steps, and a counting loop with the rules for
its invariants. -/
namespace ChipTools.Loop

variable {σ ε : Type}

theorem ok_bind {α β : Type} (a : α) (f : α → Except ε β) : (Except.ok a >>= f) = f a := rfl

/-- The result of a computation that succeeds, and of its first step. -/
theorem bind_eq_ok {α β : Type} {x : Except ε α} {f : α → Except ε β} {b : β}
    (h : x >>= f = .ok b) : ∃ a, x = .ok a ∧ f a = .ok b := by
  cases x with
  | error e => cases h
  | ok a => exact ⟨a, rfl, h⟩

/-- A computation does not stop with what neither of its steps stops with. -/
theorem bind_ne_error {α β : Type} {x : Except ε α} {f : α → Except ε β} {e : ε}
    (hx : x ≠ .error e) (hf : ∀ a, x = .ok a → f a ≠ .error e) : x >>= f ≠ .error e := by
  cases x with
  | error e' => exact fun h => hx (congrArg Except.error (Except.error.inj h))
  | ok a => exact hf a rfl

/-- `n` passes, with the counter from `i` on. -/
def forRange (f : ℕ → σ → Except ε σ) : ℕ → ℕ → σ → Except ε σ
  | 0, _, s => .ok s
  | n+1, i, s =>
    match f i s with
    | .ok s' => forRange f n (i+1) s'
    | .error e => .error e

/-- What each pass keeps, a loop that comes to its end keeps. -/
theorem forRange_inv {f : ℕ → σ → Except ε σ} {P : ℕ → σ → Prop} {n i : ℕ} {s s' : σ}
    (hstep : ∀ j t t', i ≤ j → j < i+n → P j t → f j t = .ok t' → P (j+1) t') (h0 : P i s)
    (hrun : forRange f n i s = .ok s') : P (i+n) s' := by
  induction n generalizing i s with
  | zero =>
    obtain rfl := Except.ok.inj hrun
    exact h0
  | succ n ih =>
    rw [forRange] at hrun
    split at hrun
    next t ht =>
      have := ih (fun j t t' h1 h2 => hstep j t t' (by omega) (by omega))
        (hstep i s t (Nat.le_refl i) (by omega) h0 ht) hrun
      rwa [Nat.add_right_comm, Nat.add_assoc] at this
    · cases hrun

/-- Where no pass stops, the loop comes to its end. -/
theorem forRange_total {f : ℕ → σ → Except ε σ} {P : ℕ → σ → Prop} {n i : ℕ} {s : σ}
    (hstep : ∀ j t, i ≤ j → j < i+n → P j t → ∃ t', f j t = .ok t' ∧ P (j+1) t') (h0 : P i s) :
    ∃ s', forRange f n i s = .ok s' ∧ P (i+n) s' := by
  induction n generalizing i s with
  | zero => exact ⟨s, rfl, h0⟩
  | succ n ih =>
    obtain ⟨t, ht, hP⟩ := hstep i s (Nat.le_refl i) (by omega) h0
    obtain ⟨s', hs', hP'⟩ := ih (fun j t h1 h2 => hstep j t (by omega) (by omega)) hP
    refine ⟨s', ?_, ?_⟩
    · rw [forRange, ht]
      exact hs'
    · rwa [Nat.add_right_comm, Nat.add_assoc] at hP'

/-- Where it depends on the number of a pass alone whether the pass stops, among the states that the
loop comes to, the loop comes to its end if and only if no pass stops. -/
theorem forRange_ok_iff {f : ℕ → σ → Except ε σ} {P : σ → Prop} {G : ℕ → Prop}
    (hpass : ∀ j s, P s → ((∃ s', f j s = .ok s') ↔ G j))
    (hstep : ∀ j s s', P s → f j s = .ok s' → P s') {n i : ℕ} {s : σ} (h0 : P s) :
    (∃ s', forRange f n i s = .ok s') ↔ ∀ j, i ≤ j → j < i+n → G j := by
  constructor
  · rintro ⟨s', hrun⟩ j hj hlt
    induction n generalizing i s with
    | zero => omega
    | succ n ih =>
      rw [forRange] at hrun
      split at hrun
      next t ht =>
        rcases Nat.eq_or_lt_of_le hj with rfl | hj
        · exact (hpass i s h0).mp ⟨t, ht⟩
        · exact ih (hstep i s t h0 ht) hrun hj (by omega)
      · cases hrun
  · intro hall
    obtain ⟨s', hrun, -⟩ := forRange_total (P := fun _ => P) (fun j t h1 h2 ht => by
      obtain ⟨t', ht'⟩ := (hpass j t ht).mpr (hall j h1 h2)
      exact ⟨t', ht', hstep j t t' ht ht'⟩) h0
    exact ⟨s', hrun⟩

end ChipTools.Loop
