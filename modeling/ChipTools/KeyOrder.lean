import Mathlib.Data.List.MinMax
import Mathlib.Data.List.Perm.Basic
import Mathlib.Data.List.Sort

/-! Elements with keys that lie in a ring and are taken in the order of the keys. After each one the
search goes on behind it, so that of elements with one key the first behind the last one is taken. -/
namespace ChipTools.KeyOrder

variable {α : Type} {key : α → ℕ} {v : ℕ} {l : List α} {q : α}

/-- The first element with the least key above `v`. -/
def next (key : α → ℕ) (v : ℕ) (l : List α) : Option α := (l.filter (v < key ·)).argmin key

theorem next_eq_none : next key v l = none ↔ ∀ x ∈ l, key x ≤ v := by
  rw [next, List.argmin_eq_none, List.filter_eq_nil_iff]
  simp only [decide_eq_true_eq, not_lt]

theorem next_cons (key : α → ℕ) (v : ℕ) (a : α) (l : List α) :
    next key v (a :: l) =
      if v < key a then
        match next key v l with
        | none => some a
        | some q => if key q < key a then some q else some a
      else next key v l := by
  by_cases h : v < key a
  · rw [if_pos h, next, List.filter_cons_of_pos (by simpa using h), List.argmin_cons, next]
    cases (l.filter (v < key ·)).argmin key <;> rfl
  · rw [if_neg h, next, List.filter_cons_of_neg (by simpa using h), next]

/-- The code's way to the least key: from left to right, with the elements seen so far. -/
theorem next_concat (key : α → ℕ) (v : ℕ) (l : List α) (a : α) :
    next key v (l ++ [a]) =
      if v < key a then
        match next key v l with
        | none => some a
        | some q => if key a < key q then some a else some q
      else next key v l := by
  by_cases h : v < key a
  · rw [if_pos h, next, List.filter_append, List.filter_cons_of_pos (by simpa using h),
      List.filter_nil, List.argmin_concat, next]
    cases (l.filter (v < key ·)).argmin key <;> rfl
  · rw [if_neg h, next, List.filter_append, List.filter_cons_of_neg (by simpa using h),
      List.filter_nil, List.append_nil, next]

/-- Where the element is that is taken. -/
theorem next_split (h : next key v l = some q) :
    v < key q ∧ ∃ xs ys, l = xs ++ q :: ys ∧ (∀ x ∈ xs, v < key x → key q < key x) ∧
      ∀ y ∈ ys, v < key y → key q ≤ key y := by
  induction l generalizing q with
  | nil => cases h
  | cons a l ih =>
    rw [next_cons] at h
    by_cases ha : v < key a
    · rw [if_pos ha] at h
      cases hl : next key v l with
      | none =>
        rw [hl] at h
        obtain rfl := Option.some.inj h
        refine ⟨ha, [], l, rfl, by simp, fun y hy hvy => ?_⟩
        exact absurd hvy (not_lt.mpr (next_eq_none.mp hl y hy))
      | some c =>
        rw [hl] at h
        obtain ⟨hc, xs, ys, rfl, hxs, hys⟩ := ih hl
        dsimp only at h
        split at h
        next hlt =>
          obtain rfl := Option.some.inj h
          refine ⟨hc, a :: xs, ys, rfl, fun x hx hvx => ?_, hys⟩
          rcases List.mem_cons.mp hx with rfl | hx
          · exact hlt
          · exact hxs x hx hvx
        next hle =>
          obtain rfl := Option.some.inj h
          refine ⟨ha, [], xs ++ c :: ys, rfl, by simp, fun y hy hvy => ?_⟩
          have hac := not_lt.mp hle
          rcases List.mem_append.mp hy with hy | hy
          · exact hac.trans (hxs y hy hvy).le
          · rcases List.mem_cons.mp hy with rfl | hy
            · exact hac
            · exact hac.trans (hys y hy hvy)
    · rw [if_neg ha] at h
      obtain ⟨hc, xs, ys, rfl, hxs, hys⟩ := ih h
      refine ⟨hc, a :: xs, ys, rfl, fun x hx hvx => ?_, hys⟩
      rcases List.mem_cons.mp hx with rfl | hx
      · exact absurd hvx ha
      · exact hxs x hx hvx

theorem next_of_split {xs ys : List α} (hq : v < key q) (hxs : ∀ x ∈ xs, v < key x → key q < key x)
    (hys : ∀ y ∈ ys, v < key y → key q ≤ key y) : next key v (xs ++ q :: ys) = some q := by
  induction xs with
  | nil =>
    rw [List.nil_append, next_cons, if_pos hq]
    cases hn : next key v ys with
    | none => rfl
    | some c =>
      obtain ⟨hc, as, bs, rfl, -⟩ := next_split hn
      exact if_neg (not_lt.mpr (hys c (by simp) hc))
  | cons x xs ih =>
    rw [List.cons_append, next_cons, ih fun y hy => hxs y (List.mem_cons_of_mem x hy)]
    by_cases hx : v < key x
    · rw [if_pos hx]
      exact if_pos (hxs x List.mem_cons_self hx)
    · exact if_neg hx

theorem next_mem (h : next key v l = some q) : q ∈ l := by
  obtain ⟨-, xs, ys, rfl, -⟩ := next_split h
  simp

theorem next_le (h : next key v l = some q) {x : α} (hx : x ∈ l) (hv : v < key x) :
    key q ≤ key x := by
  obtain ⟨-, xs, ys, rfl, hxs, hys⟩ := next_split h
  rcases List.mem_append.mp hx with hx | hx
  · exact (hxs x hx hv).le
  · rcases List.mem_cons.mp hx with rfl | hx
    · exact le_rfl
    · exact hys x hx hv

/-- Elements with no greater key do not count. -/
theorem next_append_low {low : List α} (h : ∀ x ∈ low, key x ≤ v) :
    next key v (l ++ low) = next key v l := by
  have hlow : low.filter (v < key ·) = [] := List.filter_eq_nil_iff.mpr (by simpa using h)
  rw [next, List.filter_append, hlow, List.append_nil, next]

/-- Where the keys increase, the key names the element. -/
theorem eq_of_increasing (h : l.Pairwise (key · < key ·)) {x y : α} (hx : x ∈ l) (hy : y ∈ l)
    (heq : key x = key y) : x = y := by
  obtain ⟨A, B, rfl⟩ := List.append_of_mem hx
  obtain ⟨-, hright, hcross⟩ := List.pairwise_append.mp h
  rcases List.mem_append.mp hy with hy | hy
  · exact absurd heq.symm (hcross y hy x List.mem_cons_self).ne
  · rcases List.mem_cons.mp hy with rfl | hy
    · rfl
    · exact absurd heq ((List.pairwise_cons.mp hright).1 y hy).ne

section Ring

variable [DecidableEq α]

/-- The ring from behind an element on. -/
def behind (q : α) (l : List α) : List α := (l.dropWhile (· ≠ q)).tail ++ l.takeWhile (· ≠ q) ++ [q]

theorem behind_append {xs ys : List α} (h : q ∉ xs) :
    behind q (xs ++ q :: ys) = ys ++ xs ++ [q] := by
  have hne : ∀ x ∈ xs, decide (x ≠ q) = true := by
    intro x hx
    rw [decide_eq_true_eq]
    rintro rfl
    exact h hx
  rw [behind, List.dropWhile_append_of_pos hne, List.takeWhile_append_of_pos hne]
  simp

theorem behind_perm (h : q ∈ l) : (behind q l).Perm l := by
  obtain ⟨xs, ys, rfl, hq⟩ := List.eq_append_cons_of_mem h
  rw [behind_append hq, List.append_assoc]
  calc ys ++ (xs ++ [q])
    _ |>.Perm (xs ++ [q] ++ ys) := List.perm_append_comm
    _ |>.Perm (xs ++ q :: ys) := by rw [List.append_assoc, List.singleton_append]

/-- The elements with keys above `v` in the order in which they are taken, at most `k` of them. -/
def inOrder (key : α → ℕ) : ℕ → ℕ → List α → List α
  | 0, _, _ => []
  | k+1, v, l =>
    match next key v l with
    | none => []
    | some q => q :: inOrder key k (key q) (behind q l)

theorem inOrder_none (h : next key v l = none) (k : ℕ) : inOrder key k v l = [] := by
  cases k with
  | zero => rfl
  | succ k => rw [inOrder, h]

theorem inOrder_some (h : next key v l = some q) (k : ℕ) :
    inOrder key (k+1) v l = q :: inOrder key k (key q) (behind q l) := by
  rw [inOrder, h]

theorem mem_inOrder {k : ℕ} {x : α} (h : x ∈ inOrder key k v l) : v < key x ∧ x ∈ l := by
  induction k generalizing v l with
  | zero => cases h
  | succ k ih =>
    cases hn : next key v l with
    | none =>
      rw [inOrder_none hn] at h
      cases h
    | some q =>
      rw [inOrder_some hn] at h
      rcases List.mem_cons.mp h with rfl | h
      · exact ⟨(next_split hn).1, next_mem hn⟩
      · obtain ⟨hv, hx⟩ := ih h
        exact ⟨(next_split hn).1.trans hv, (behind_perm (next_mem hn)).subset hx⟩

/-- The keys increase. -/
theorem inOrder_pairwise (key : α → ℕ) (k v : ℕ) (l : List α) :
    (inOrder key k v l).Pairwise (key · < key ·) := by
  induction k generalizing v l with
  | zero => exact List.Pairwise.nil
  | succ k ih =>
    cases hn : next key v l with
    | none =>
      rw [inOrder_none hn]
      exact List.Pairwise.nil
    | some q =>
      rw [inOrder_some hn]
      exact List.pairwise_cons.mpr ⟨fun x hx => (mem_inOrder hx).1, ih (key q) (behind q l)⟩

/-- One element less is to come. -/
theorem countP_behind (h : next key v l = some q) :
    (behind q l).countP (key q < key ·) < l.countP (v < key ·) := by
  rw [(behind_perm (next_mem h)).countP_eq]
  obtain ⟨hv, xs, ys, rfl, -, -⟩ := next_split h
  have hmono : ∀ zs : List α, zs.countP (key q < key ·) ≤ zs.countP (v < key ·) := by
    intro zs
    apply List.countP_mono_left
    intro x _ hx
    rw [decide_eq_true_eq] at hx ⊢
    exact hv.trans hx
  have hx := hmono xs
  have hy := hmono ys
  rw [List.countP_append, List.countP_append, List.countP_cons_of_neg (by simp),
    List.countP_cons_of_pos (by simpa using hv)]
  omega

/-- With enough of them every key is met. -/
theorem inOrder_covers {k : ℕ} (hk : l.countP (v < key ·) ≤ k) {x : α} (hx : x ∈ l)
    (hv : v < key x) : ∃ q ∈ inOrder key k v l, key q = key x := by
  induction k generalizing v l with
  | zero =>
    have hpos : 0 < l.countP (v < key ·) := List.countP_pos_iff.mpr ⟨x, hx, by simpa using hv⟩
    omega
  | succ k ih =>
    cases hn : next key v l with
    | none => exact absurd hv (not_lt.mpr (next_eq_none.mp hn x hx))
    | some q =>
      rw [inOrder_some hn]
      rcases (next_le hn hx hv).eq_or_lt with heq | hlt
      · exact ⟨q, List.mem_cons_self, heq⟩
      · have hfewer := countP_behind hn
        obtain ⟨y, hy, heq⟩ := ih (by omega) ((behind_perm (next_mem hn)).mem_iff.mpr hx) hlt
        exact ⟨y, List.mem_cons_of_mem q hy, heq⟩

/-- With different keys the order is the sorted one. -/
theorem inOrder_eq_sorted {k : ℕ} (hk : l.countP (v < key ·) ≤ k)
    (hinj : ∀ x ∈ l, ∀ y ∈ l, v < key x → key x = key y → x = y) {sorted : List α}
    (hperm : sorted.Perm (l.filter (v < key ·))) (hsorted : sorted.Pairwise (key · < key ·)) :
    inOrder key k v l = sorted := by
  have hnodup : ∀ {zs : List α}, zs.Pairwise (key · < key ·) → zs.Nodup := by
    intro zs hzs
    exact hzs.imp fun h heq => absurd (congrArg key heq) h.ne
  refine List.Perm.eq_of_pairwise ?_ (inOrder_pairwise key k v l) hsorted ?_
  · intro a b _ _ hab hba
    exact absurd hab hba.asymm
  · rw [List.perm_ext_iff_of_nodup (hnodup (inOrder_pairwise key k v l)) (hnodup hsorted)]
    intro x
    rw [hperm.mem_iff, List.mem_filter, decide_eq_true_eq]
    constructor
    · intro hx
      exact (mem_inOrder hx).symm
    · rintro ⟨hx, hv⟩
      obtain ⟨q, hq, heq⟩ := inOrder_covers hk hx hv
      rwa [hinj x hx q (mem_inOrder hq).2 hv heq.symm]

end Ring

end ChipTools.KeyOrder
