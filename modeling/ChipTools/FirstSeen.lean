import Mathlib.Data.List.Nodup
import Mathlib.Data.List.Infix

/-! The elements of a list in the order in which they first occur. What has a place there keeps
it when the list grows at its end. -/
namespace ChipTools.FirstSeen

variable {α : Type*} [DecidableEq α]

def see (seen : List α) (a : α) : List α := if a ∈ seen then seen else seen ++ [a]

/-- The elements of the list, each once, by their first occurrences. -/
def firsts (l : List α) : List α := l.foldl see []

theorem firsts_concat (l : List α) (a : α) : firsts (l ++ [a]) = see (firsts l) a :=
  List.foldl_concat see [] a l

theorem isPrefix_see (seen : List α) (a : α) : seen <+: see seen a := by
  unfold see
  split
  · exact List.prefix_refl seen
  · exact List.prefix_append seen [a]

theorem isPrefix_firsts (l l' : List α) : firsts l <+: firsts (l ++ l') := by
  induction l' using List.reverseRecOn with
  | nil => rw [List.append_nil]
  | append_singleton l' a ih =>
    rw [← List.append_assoc, firsts_concat]
    exact ih.trans (isPrefix_see _ _)

theorem mem_firsts {l : List α} {a : α} : a ∈ firsts l ↔ a ∈ l := by
  induction l using List.reverseRecOn with
  | nil => exact Iff.rfl
  | append_singleton l b ih =>
    rw [firsts_concat, List.mem_append, List.mem_singleton, ← ih, see]
    split
    next hb => exact ⟨Or.inl, fun h => h.elim id fun hab => hab ▸ hb⟩
    next => rw [List.mem_append, List.mem_singleton]

theorem nodup_firsts (l : List α) : (firsts l).Nodup := by
  induction l using List.reverseRecOn with
  | nil => exact List.nodup_nil
  | append_singleton l b ih =>
    rw [firsts_concat, see]
    split
    · exact ih
    next hb => exact ih.append (List.nodup_singleton b) (List.disjoint_singleton.mpr hb)

theorem firsts_concat_old {l : List α} {a : α} (h : a ∈ l) : firsts (l ++ [a]) = firsts l := by
  rw [firsts_concat, see, if_pos (mem_firsts.mpr h)]

theorem firsts_concat_new {l : List α} {a : α} (h : a ∉ l) :
    firsts (l ++ [a]) = firsts l ++ [a] := by
  rw [firsts_concat, see, if_neg (fun hm => h (mem_firsts.mp hm))]

theorem idxOf_of_isPrefix {l l' : List α} (h : l <+: l') {a : α} (ha : a ∈ l) :
    (firsts l').idxOf a = (firsts l).idxOf a := by
  obtain ⟨r, rfl⟩ := h
  obtain ⟨t, ht⟩ := isPrefix_firsts l r
  rw [← ht, List.idxOf_append_of_mem (mem_firsts.mpr ha)]

/-- A new element comes behind all others. -/
theorem idxOf_new {l l' : List α} {a : α} (h : l ++ [a] <+: l') (ha : a ∉ l) :
    (firsts l').idxOf a = (firsts l).length := by
  rw [idxOf_of_isPrefix h (List.mem_append_right l (List.mem_singleton_self a)), firsts_concat_new ha,
    List.idxOf_append_of_notMem (fun hm => ha (mem_firsts.mp hm)), List.idxOf_cons_self, Nat.add_zero]

end ChipTools.FirstSeen
