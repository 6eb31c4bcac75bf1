import Mathlib.Data.Nat.Notation
import Mathlib.Tactic.Common

/-! Programs that make calls which can fail, with the rules for what becomes of the failures. -/
namespace ChipTools.Calls

section Programs

/-- The state of a run, and the calls so far with whether each of them failed. -/
structure World (κ σ : Type) where
  state : σ
  calls : List (κ × Bool)

/-- A program over calls `κ` and states `σ` that stops with an error or returns a value. Call
number `n` fails if the pattern says so. -/
def Prog (κ σ ε α : Type) : Type := (ℕ → Bool) → World κ σ → Except ε α × World κ σ

variable {κ σ ε α β : Type}

instance : Monad (Prog κ σ ε) where
  pure a := fun _ w => (.ok a, w)
  bind p f := fun fails w =>
    match p fails w with
    | (.ok a, w') => f a fails w'
    | (.error e, w') => (.error e, w')

def stop (e : ε) : Prog κ σ ε α := fun _ w => (.error e, w)

def get : Prog κ σ ε σ := fun _ w => (.ok w.state, w)

def modify (f : σ → σ) : Prog κ σ ε Unit := fun _ w => (.ok (), { w with state := f w.state })

/-- A call whose failure stops the program with `e`. -/
def call (k : κ) (e : ε) : Prog κ σ ε Unit := fun fails w =>
  let failed := fails w.calls.length
  (if failed then .error e else .ok (), { w with calls := w.calls ++ [(k, failed)] })

/-- The caller goes on after an error. -/
def attempt (p : Prog κ σ ε α) : Prog κ σ ε (Except ε α) := fun fails w =>
  ((.ok (p fails w).1), (p fails w).2)

/-- After an error in `p`, `q` is run before the program stops with `e`. -/
def cleanup (p : Prog κ σ ε α) (q : Prog κ σ ε Unit) (e : ε → ε) : Prog κ σ ε α := fun fails w =>
  match p fails w with
  | (.ok a, w') => (.ok a, w')
  | (.error err, w') => (.error (e err), (q fails w').2)

def liftExcept : Except ε α → Prog κ σ ε α
  | .ok a => pure a
  | .error e => stop e

end Programs

section Rules

variable {κ σ ε α β : Type} {P : κ → Prop}

/-- All calls of the program are of the kind `P`, however it ends. -/
def Only (P : κ → Prop) (p : Prog κ σ ε α) : Prop :=
  ∀ fails w, ∃ cs, (p fails w).2.calls = w.calls ++ cs ∧ ∀ c ∈ cs, P c.1

/-- If the program returns a value, only calls of the kind `P` failed. -/
def Notices (P : κ → Prop) (p : Prog κ σ ε α) : Prop :=
  ∀ fails w a w', p fails w = (.ok a, w') →
    ∃ cs, w'.calls = w.calls ++ cs ∧ ∀ c ∈ cs, c.2 = true → P c.1

theorem Only.notices {p : Prog κ σ ε α} (h : Only P p) : Notices P p := by
  intro fails w a w' hrun
  obtain ⟨cs, hcs, hP⟩ := h fails w
  rw [hrun] at hcs
  exact ⟨cs, hcs, fun c hc _ => hP c hc⟩

/-- A program without calls. -/
theorem Only.of_calls_eq {p : Prog κ σ ε α} (h : ∀ fails w, (p fails w).2.calls = w.calls) :
    Only P p :=
  fun fails w => ⟨[], by rw [h, List.append_nil], fun _ hc => absurd hc List.not_mem_nil⟩

theorem only_pure (a : α) : Only P (pure a : Prog κ σ ε α) := .of_calls_eq fun _ _ => rfl

theorem only_stop (e : ε) : Only P (stop e : Prog κ σ ε α) := .of_calls_eq fun _ _ => rfl

theorem only_get : Only P (get : Prog κ σ ε σ) := .of_calls_eq fun _ _ => rfl

theorem only_modify (f : σ → σ) : Only P (modify f : Prog κ σ ε Unit) :=
  .of_calls_eq fun _ _ => rfl

theorem only_call {k : κ} (hk : P k) (e : ε) : Only P (call k e : Prog κ σ ε Unit) := by
  intro fails w
  refine ⟨[(k, fails w.calls.length)], rfl, fun c hc => ?_⟩
  obtain rfl := List.mem_singleton.mp hc
  exact hk

theorem Only.bind {p : Prog κ σ ε α} {f : α → Prog κ σ ε β} (hp : Only P p)
    (hf : ∀ a, Only P (f a)) : Only P (p >>= f) := by
  intro fails w
  obtain ⟨cs, hcs, hP⟩ := hp fails w
  have hrun : (p >>= f) fails w = match p fails w with
    | (.ok a, w') => f a fails w'
    | (.error e, w') => (.error e, w') := rfl
  rw [hrun]
  rcases hres : p fails w with ⟨_ | a, w'⟩
  · rw [hres] at hcs
    exact ⟨cs, hcs, hP⟩
  · rw [hres] at hcs
    obtain ⟨cs', hcs', hP'⟩ := hf a fails w'
    refine ⟨cs ++ cs', by rw [hcs', hcs, List.append_assoc], fun c hc => ?_⟩
    exact (List.mem_append.mp hc).elim (hP c) (hP' c)

theorem notices_pure (a : α) : Notices P (pure a : Prog κ σ ε α) := (only_pure a).notices

theorem notices_stop (e : ε) : Notices P (stop e : Prog κ σ ε α) := (only_stop e).notices

theorem notices_get : Notices P (get : Prog κ σ ε σ) := only_get.notices

theorem notices_modify (f : σ → σ) : Notices P (modify f : Prog κ σ ε Unit) :=
  (only_modify f).notices

/-- A call that is checked is of any kind. -/
theorem notices_call (k : κ) (e : ε) : Notices P (call k e : Prog κ σ ε Unit) := by
  intro fails w a w' hrun
  unfold call at hrun
  dsimp only at hrun
  cases hfail : fails w.calls.length with
  | true =>
    rw [hfail, if_pos rfl] at hrun
    cases hrun
  | false =>
    rw [hfail] at hrun
    obtain rfl := (Prod.mk.inj hrun).2
    refine ⟨[(k, false)], rfl, fun c hc hc2 => ?_⟩
    obtain rfl := List.mem_singleton.mp hc
    cases hc2

/-- A value comes from values of both parts. -/
theorem bind_ok {p : Prog κ σ ε α} {f : α → Prog κ σ ε β} {fails : ℕ → Bool} {w w' : World κ σ}
    {b : β} (h : (p >>= f) fails w = (.ok b, w')) :
    ∃ a w1, p fails w = (.ok a, w1) ∧ f a fails w1 = (.ok b, w') := by
  have hrun : (p >>= f) fails w = match p fails w with
    | (.ok a, w') => f a fails w'
    | (.error e, w') => (.error e, w') := rfl
  rw [hrun] at h
  rcases hres : p fails w with ⟨e | a, w1⟩
  · rw [hres] at h
    cases h
  · rw [hres] at h
    exact ⟨a, w1, rfl, h⟩

theorem Notices.bind {p : Prog κ σ ε α} {f : α → Prog κ σ ε β} (hp : Notices P p)
    (hf : ∀ a, Notices P (f a)) : Notices P (p >>= f) := by
  intro fails w b w' hrun
  obtain ⟨a, w1, h1, h2⟩ := bind_ok hrun
  obtain ⟨cs, hcs, hP⟩ := hp fails w a w1 h1
  obtain ⟨cs', hcs', hP'⟩ := hf a fails w1 b w' h2
  refine ⟨cs ++ cs', by rw [hcs', hcs, List.append_assoc], fun c hc => ?_⟩
  exact (List.mem_append.mp hc).elim (hP c) (hP' c)

/-- Where the caller goes on, the failures must be of the kind. -/
theorem Only.attempt {p : Prog κ σ ε α} (h : Only P p) : Only P (attempt p) :=
  fun fails w => h fails w

theorem Notices.cleanup {p : Prog κ σ ε α} (h : Notices P p) (q : Prog κ σ ε Unit) (e : ε → ε) :
    Notices P (cleanup p q e) := by
  intro fails w a w' hrun
  unfold Calls.cleanup at hrun
  rcases hres : p fails w with ⟨err | b, w1⟩
  · rw [hres] at hrun
    cases hrun
  · rw [hres] at hrun
    obtain ⟨hb, rfl⟩ := Prod.mk.inj hrun
    exact h fails w b w1 hres

/-- What holds of the parts of a program and so of the program. -/
structure Closed (Q : ∀ α : Type, Prog κ σ ε α → Prop) : Prop where
  pure : ∀ {α : Type} (a : α), Q α (Pure.pure a)
  bind : ∀ {α β : Type} {p : Prog κ σ ε α} {f : α → Prog κ σ ε β},
    Q α p → (∀ a, Q β (f a)) → Q β (p >>= f)
  get : Q σ get
  modify : ∀ f, Q Unit (modify f)

theorem only_closed (P : κ → Prop) : @Closed κ σ ε fun _ p => Only P p :=
  ⟨only_pure, Only.bind, only_get, only_modify⟩

theorem notices_closed (P : κ → Prop) :
    @Closed κ σ ε fun _ p => Notices P p :=
  ⟨notices_pure, Notices.bind, notices_get, notices_modify⟩

theorem notices_liftExcept (x : Except ε α) : Notices P (liftExcept x : Prog κ σ ε α) := by
  cases x with
  | ok a => exact notices_pure a
  | error e => exact notices_stop e

theorem notices_foldlM {f : β → α → Prog κ σ ε β} (hf : ∀ b a, Notices P (f b a)) (l : List α)
    (b : β) : Notices P (l.foldlM f b) := by
  induction l generalizing b with
  | nil => exact notices_pure b
  | cons a l ih => exact (hf b a).bind ih

/-- From the start, a run without failures of the kind that returns a value has none at all. -/
theorem Notices.none_failed {p : Prog κ σ ε α} (h : Notices P p) {fails : ℕ → Bool} {s : σ} {a : α}
    {w : World κ σ} (hrun : p fails ⟨s, []⟩ = (.ok a, w))
    (hcalls : ∀ c ∈ w.calls, P c.1 → c.2 = false) : ∀ c ∈ w.calls, c.2 = false := by
  obtain ⟨cs, hcs, hP⟩ := h fails ⟨s, []⟩ a w hrun
  rw [List.nil_append] at hcs
  intro c hc
  cases hfail : c.2 with
  | false => rfl
  | true => exact (hcalls c hc (hP c (hcs ▸ hc) hfail)).symm.trans hfail |>.symm

end Rules

end ChipTools.Calls
