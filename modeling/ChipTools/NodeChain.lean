import ChipTools.Jffs2Reader
import ChipTools.KeyOrder

/-! Images that are chains of nodes, and how the loops of `jffs2reader` go round in them. -/
namespace ChipTools.Jffs2
open Bytes KeyOrder

theorem Endian.get_lt (e : Endian) (o : List Byte) (n k : ℕ) : e.get o n k < 256^k := by
  cases e
  · refine (leVal_lt _).trans_le (Nat.pow_le_pow_right (by decide) ?_)
    exact List.length_take_le k _
  · exact beField_lt o n k

section Chains

variable {e : Endian} {o : List Byte} {n : ℕ} {ns A B : List ℕ}

/-- The image from a place on, with the places of its nodes: words that begin with no magic number,
and nodes with at least a header that lie inside the image. -/
inductive Chain (e : Endian) (o : List Byte) : ℕ → List ℕ → Prop
  | done {n : ℕ} (hn : o.length ≤ n) : Chain e o n []
  | gap {n : ℕ} {ns : List ℕ} (hn : n < o.length) (hmagic : e.get o n 2 ≠ JFFS2_MAGIC_BITMASK)
      (hrest : Chain e o (n+4) ns) : Chain e o n ns
  | node {n : ℕ} {ns : List ℕ} (hmagic : e.get o n 2 = JFFS2_MAGIC_BITMASK)
      (hlen : 12 ≤ e.get o (n+4) 4) (hin : n+e.get o (n+4) 4 ≤ o.length)
      (hpad : e.get o (n+4) 4+3 < 2^32) (hrest : Chain e o (n+stepOf e o n) ns) :
      Chain e o n (n :: ns)

/-- The places of the nodes, if the image is a chain, from the first `k` words and nodes. -/
def chainOf (e : Endian) (o : List Byte) : ℕ → ℕ → Option (List ℕ)
  | 0, _ => none
  | k+1, n =>
    if o.length ≤ n then some []
    else if e.get o n 2 ≠ JFFS2_MAGIC_BITMASK then chainOf e o k (n+4)
    else if 12 ≤ e.get o (n+4) 4 ∧ n+e.get o (n+4) 4 ≤ o.length ∧ e.get o (n+4) 4+3 < 2^32 then
      (chainOf e o k (n+stepOf e o n)).map (n :: ·)
    else none

theorem chain_of_chainOf {k : ℕ} (h : chainOf e o k n = some ns) : Chain e o n ns := by
  induction k generalizing n ns with
  | zero => cases h
  | succ k ih =>
    rw [chainOf] at h
    split at h
    next hn =>
      obtain rfl := Option.some.inj h
      exact .done hn
    next hn =>
      split at h
      next hmagic => exact .gap (not_le.mp hn) hmagic (ih h)
      next hmagic =>
        split at h
        next hlen =>
          obtain ⟨rest, hrest, rfl⟩ := Option.map_eq_some_iff.mp h
          exact .node (not_not.mp hmagic) hlen.1 hlen.2.1 hlen.2.2 (ih hrest)
        next => cases h

theorem stepOf_of_small (h : e.get o (n+4) 4+3 < 2^32) :
    stepOf e o n = pad4 (e.get o (n+4) 4) := by
  rw [stepOf, Nat.mod_eq_of_lt h, pad4]

/-- Blank words are no nodes. -/
theorem Chain.blank (hn : n < o.length) (hff : o[n]? = some 0xff#8) (h : Chain e o (n+4) ns) :
    Chain e o n ns := .gap hn (get_blank hff) h

/-- What the search for a magic number comes to. -/
theorem Chain.seek (h : Chain e o n ns) {k : ℕ} (hk : o.length ≤ n+4*k) :
    (ns = [] ∧ o.length ≤ seek e o k n) ∨ ∃ b B, ns = b :: B ∧ seek e o k n = b ∧ n ≤ b ∧
      b < o.length ∧ e.get o b 2 = JFFS2_MAGIC_BITMASK ∧ 12 ≤ stepOf e o b ∧
      Chain e o (b+stepOf e o b) B := by
  induction h generalizing k with
  | done hn =>
    refine .inl ⟨rfl, ?_⟩
    cases k with
    | zero => exact hn
    | succ k =>
      rw [Jffs2.seek, if_neg fun h => absurd h.1 (not_lt.mpr hn)]
      exact hn
  | gap hn hmagic hrest ih =>
    cases k with
    | zero => omega
    | succ k =>
      rw [Jffs2.seek, if_pos ⟨hn, hmagic⟩]
      rcases ih (k := k) (by omega) with hend | ⟨b, B, hb, hs, hle, hnode⟩
      · exact .inl hend
      · exact .inr ⟨b, B, hb, hs, by omega, hnode⟩
  | @node n ns hmagic hlen hin hpad hrest ih =>
    have hstep : 12 ≤ stepOf e o n := by
      rw [stepOf_of_small hpad]
      exact hlen.trans (le_pad4_self _)
    refine .inr ⟨n, ns, rfl, ?_, le_rfl, by omega, hmagic, hstep, hrest⟩
    cases k with
    | zero => rfl
    | succ k => rw [Jffs2.seek, if_neg fun h => h.2 hmagic]

/-- The place behind the last of some nodes. -/
def endOf (e : Endian) (o : List Byte) (A : List ℕ) : ℕ := A.getLast?.elim 0 fun a => a+stepOf e o a

@[simp] theorem endOf_nil (e : Endian) (o : List Byte) : endOf e o [] = 0 := rfl

@[simp] theorem endOf_concat (e : Endian) (o : List Byte) (A : List ℕ) (a : ℕ) :
    endOf e o (A ++ [a]) = a+stepOf e o a := by
  simp [endOf]

/-- The chain goes on behind each of its nodes. -/
theorem Chain.behind {b : ℕ} (h : Chain e o n (A ++ b :: B)) :
    12 ≤ stepOf e o b ∧ b < o.length ∧ Chain e o (b+stepOf e o b) B := by
  generalize hl : A ++ b :: B = l at h
  induction h generalizing A with
  | done hn => simp at hl
  | gap hn hmagic hrest ih => exact ih hl
  | @node n ns hmagic hlen hin hpad hrest ih =>
    cases A with
    | nil =>
      obtain ⟨rfl, rfl⟩ := List.cons.inj hl
      refine ⟨?_, by omega, hrest⟩
      rw [stepOf_of_small hpad]
      exact hlen.trans (le_pad4_self _)
    | cons a A => exact ih (List.cons.inj hl).2

theorem Chain.from_end (h : Chain e o 0 (A ++ B)) : Chain e o (endOf e o A) B := by
  rcases List.eq_nil_or_concat A with rfl | ⟨A, a, rfl⟩
  · exact h
  · rw [List.concat_eq_append, List.append_assoc] at h
    rw [List.concat_eq_append, endOf_concat]
    exact (Chain.behind h).2.2

theorem Chain.le (h : Chain e o n ns) {b : ℕ} (hb : b ∈ ns) : n ≤ b := by
  induction h with
  | done hn => cases hb
  | gap hn hmagic hrest ih => have := ih hb; omega
  | node hmagic hlen hin hpad hrest ih =>
    rcases List.mem_cons.mp hb with rfl | hb
    · exact le_rfl
    · have := ih hb
      omega

theorem Chain.step (h : Chain e o n ns) {b : ℕ} (hb : b ∈ ns) : 12 ≤ stepOf e o b := by
  obtain ⟨A, B, rfl⟩ := List.append_of_mem hb
  exact (Chain.behind h).1

theorem Chain.length_le (h : Chain e o n ns) : ns.length ≤ o.length-n := by
  induction h with
  | done hn => exact Nat.zero_le _
  | gap hn hmagic hrest ih => omega
  | @node n ns hmagic hlen hin hpad hrest ih =>
    have hstep : 12 ≤ stepOf e o n := by
      rw [stepOf_of_small hpad]
      exact hlen.trans (le_pad4_self _)
    rw [List.length_cons]
    omega

/-- The nodes are in order, each behind the end of those before. -/
theorem Chain.pairwise (h : Chain e o n ns) : ns.Pairwise fun a b => a+stepOf e o a ≤ b := by
  induction h with
  | done hn => exact List.Pairwise.nil
  | gap hn hmagic hrest ih => exact ih
  | node hmagic hlen hin hpad hrest ih =>
    exact List.pairwise_cons.mpr ⟨fun b hb => hrest.le hb, ih⟩

end Chains

section Rounds

variable {e : Endian} {o : List Byte} {n : ℕ} {ns : List ℕ} {x : Option ℕ} {Q : List (Option ℕ)}

/-- Where a pass ends that processes a node, or goes back to the start. -/
def endStop (e : Endian) (o : List Byte) : Option ℕ → ℕ
  | some b => b+stepOf e o b
  | none => 0

/-- The passes that lie before the reader, up to the one it has just made. -/
def Cursor (e : Endian) (o : List Byte) (ns : List ℕ) (n : ℕ) (Q : List (Option ℕ)) : Prop :=
  ∃ A B, ns = A ++ B ∧ Q = B.map some ++ none :: A.map some ∧ n = endOf e o A

theorem Cursor.start (e : Endian) (o : List Byte) (ns : List ℕ) :
    Cursor e o ns 0 (ns.map some ++ [none]) := ⟨[], ns, rfl, rfl, rfl⟩

/-- One pass. -/
theorem Cursor.pass (hc : Chain e o 0 ns) (h : Cursor e o ns n (x :: Q)) :
    (match x with
      | some b => seek e o o.length n = b ∧ b < o.length ∧ e.get o b 2 = JFFS2_MAGIC_BITMASK
      | none => o.length ≤ seek e o o.length n) ∧ Cursor e o ns (endStop e o x) (Q ++ [x]) := by
  obtain ⟨A, B, rfl, hQ, rfl⟩ := h
  have hs := Chain.seek hc.from_end (k := o.length) (by omega)
  cases B with
  | nil =>
    obtain ⟨rfl, rfl⟩ := List.cons.inj hQ
    rcases hs with ⟨-, hend⟩ | ⟨b, B, hb, -⟩
    · exact ⟨hend, [], A, by simp, rfl, rfl⟩
    · cases hb
  | cons b B =>
    obtain ⟨rfl, rfl⟩ := List.cons.inj hQ
    rcases hs with ⟨hb, -⟩ | ⟨b', B', hb, hs, -, hlt, hmagic, -⟩
    · cases hb
    · obtain ⟨rfl, rfl⟩ := List.cons.inj hb
      exact ⟨⟨hs, hlt, hmagic⟩, A ++ [b], B, by simp, by simp, (endOf_concat e o A b).symm⟩

/-- Some passes. -/
theorem Cursor.passes (hc : Chain e o 0 ns) {X Y : List (Option ℕ)}
    (h : Cursor e o ns n (X ++ x :: Y)) : Cursor e o ns (endStop e o x) (Y ++ X ++ [x]) := by
  induction X generalizing n Y with
  | nil => simpa using (Cursor.pass hc h).2
  | cons a X ih =>
    have hnext : Cursor e o ns (endStop e o a) (X ++ x :: (Y ++ [a])) := by
      simpa using (Cursor.pass hc h).2
    simpa using ih hnext

/-- The last pass ended where the reader is. -/
theorem Cursor.last (h : Cursor e o ns n Q) : ∃ P y, Q = P ++ [y] ∧ endStop e o y = n := by
  obtain ⟨A, B, rfl, rfl, rfl⟩ := h
  rcases List.eq_nil_or_concat A with rfl | ⟨A, a, rfl⟩
  · exact ⟨B.map some, none, rfl, rfl⟩
  · refine ⟨B.map some ++ none :: A.map some, some a, by simp, ?_⟩
    rw [List.concat_eq_append, endOf_concat]
    rfl

/-- The nodes of some passes. -/
def nodes (Q : List (Option ℕ)) : List ℕ := Q.filterMap id

@[simp] theorem nodes_append (P Q : List (Option ℕ)) : nodes (P ++ Q) = nodes P ++ nodes Q :=
  List.filterMap_append

@[simp] theorem nodes_some (b : ℕ) (Q : List (Option ℕ)) : nodes (some b :: Q) = b :: nodes Q := rfl

@[simp] theorem nodes_none (Q : List (Option ℕ)) : nodes (none :: Q) = nodes Q := rfl

@[simp] theorem nodes_nil : nodes [] = [] := rfl

@[simp] theorem nodes_map_some (ns : List ℕ) : nodes (ns.map some) = ns := by
  induction ns with
  | nil => rfl
  | cons b ns ih => rw [List.map_cons, nodes_some, ih]

theorem mem_nodes {b : ℕ} : b ∈ nodes Q ↔ some b ∈ Q := by
  simp [nodes, List.mem_filterMap]

theorem Cursor.nodes_perm (h : Cursor e o ns n Q) : (nodes Q).Perm ns := by
  obtain ⟨A, B, rfl, rfl, -⟩ := h
  rw [nodes_append, nodes_none, nodes_map_some, nodes_map_some]
  exact List.perm_append_comm

/-- A node is found again among the passes. -/
theorem nodes_split {xs ys : List ℕ} {b : ℕ} (h : nodes Q = xs ++ b :: ys) :
    ∃ X Y, Q = X ++ some b :: Y ∧ nodes X = xs ∧ nodes Y = ys := by
  induction Q generalizing xs with
  | nil => simp at h
  | cons x Q ih =>
    cases x with
    | none =>
      obtain ⟨X, Y, rfl, hX, hY⟩ := ih h
      exact ⟨none :: X, Y, rfl, hX, hY⟩
    | some c =>
      rw [nodes_some] at h
      cases xs with
      | nil =>
        obtain ⟨rfl, rfl⟩ := List.cons.inj h
        exact ⟨[], Q, rfl, rfl, rfl⟩
      | cons a xs =>
        obtain ⟨rfl, hQ⟩ := List.cons.inj h
        obtain ⟨X, Y, rfl, rfl, hY⟩ := ih hQ
        exact ⟨some c :: X, Y, rfl, rfl, hY⟩

/-- No two passes end at one place. -/
theorem Cursor.ends (hc : Chain e o 0 ns) (h : Cursor e o ns n Q) :
    (Q.map (endStop e o)).Nodup := by
  obtain ⟨A, B, rfl, rfl, -⟩ := h
  have hperm : (B.map some ++ none :: A.map some).Perm (none :: (A ++ B).map some) := by
    rw [List.map_append]
    exact List.perm_middle.trans (List.perm_append_comm.cons none)
  rw [(hperm.map (endStop e o)).nodup_iff, List.map_cons, List.nodup_cons, List.map_map]
  constructor
  · intro h0
    obtain ⟨b, hb, hend⟩ := List.mem_map.mp h0
    have := hc.step hb
    change b+stepOf e o b = 0 at hend
    omega
  · rw [List.nodup_iff_pairwise_ne, List.pairwise_map]
    refine hc.pairwise.imp_of_mem fun {a b} _ hb hab => ?_
    have := hc.step hb
    change a+stepOf e o a ≠ b+stepOf e o b
    omega

/-- The place of a node is the start, or lies directly behind a node. -/
def Landing (e : Endian) (o : List Byte) (ns : List ℕ) (q : ℕ) : Prop :=
  q = 0 ∨ ∃ p ∈ ns, p+stepOf e o p = q

instance (e : Endian) (o : List Byte) (ns : List ℕ) : DecidablePred (Landing e o ns) :=
  fun q => inferInstanceAs (Decidable (q = 0 ∨ ∃ p ∈ ns, p+stepOf e o p = q))

/-- Then there is nothing to skip before the node. -/
theorem Cursor.landing (hc : Chain e o 0 ns) {q : ℕ} (h : Cursor e o ns n (some q :: Q)) :
    Landing e o ns q ↔ n = q := by
  obtain ⟨A, B, rfl, hQ, rfl⟩ := h
  cases B with
  | nil => cases hQ
  | cons b B =>
    rw [List.map_cons, List.cons_append] at hQ
    obtain ⟨hb, -⟩ := List.cons.inj hQ
    obtain rfl := Option.some.inj hb
    have hpair := List.pairwise_append.mp hc.pairwise
    have hbefore : ∀ a ∈ A, a+stepOf e o a ≤ q := fun a ha => hpair.2.2 a ha q List.mem_cons_self
    rcases List.eq_nil_or_concat A with rfl | ⟨A, a, rfl⟩
    · rw [endOf_nil, List.nil_append]
      constructor
      · rintro (h0 | ⟨p, hp, hend⟩)
        · exact h0.symm
        · have hstep := hc.step hp
          rcases List.mem_cons.mp hp with rfl | hp
          · omega
          · have := (List.pairwise_cons.mp hc.pairwise).1 p hp
            omega
      · intro h0
        exact .inl h0.symm
    · rw [List.concat_eq_append] at hc hpair hbefore ⊢
      rw [endOf_concat]
      have ha := hbefore a (by simp)
      have hastep := hc.step (b := a) (by simp)
      constructor
      · rintro (h0 | ⟨p, hp, hend⟩)
        · omega
        · have hstep := hc.step hp
          rw [List.append_assoc, List.mem_append] at hp
          rcases hp with hp | hp
          · have := (List.pairwise_append.mp hpair.1).2.2 p hp a (List.mem_singleton_self a)
            omega
          · rcases List.mem_append.mp hp with hp | hp
            · rwa [List.mem_singleton.mp hp] at hend
            · rcases List.mem_cons.mp hp with rfl | hp
              · omega
              · have := (List.pairwise_cons.mp hpair.2.1).1 p hp
                omega
      · intro hend
        exact .inr ⟨a, by simp, hend⟩

end Rounds

section Find

variable {e : Endian} {o : List Byte} {n k ino vmint vmaxt : ℕ} {ns A B : List ℕ} {mp : Option ℕ}

/-- The version of a node of the inode, and 0 of any other. -/
def inodeVersion (e : Endian) (o : List Byte) (ino n : ℕ) : ℕ :=
  if e.get o (n+2) 2 = JFFS2_NODETYPE_INODE ∧ e.get o (n+12) 4 = ino then e.get o (n+16) 4 else 0

theorem inodeVersion_lt (e : Endian) (o : List Byte) (ino n : ℕ) :
    inodeVersion e o ino n < 2^32 := by
  rw [inodeVersion]
  split
  · exact e.get_lt o (n+16) 4
  · decide

/-- The node that `find_raw_inode` returns: the first with the least version, and none where that
is the greatest there is. -/
def foundInode (e : Endian) (o : List Byte) (ino : ℕ) (ns : List ℕ) : Option ℕ :=
  match next (inodeVersion e o ino) 0 ns with
  | none => none
  | some q => if inodeVersion e o ino q < 2^32-1 then some q else none

/-- What is known when the nodes `A` have been passed, none of them with version 1. -/
structure Sought (e : Endian) (o : List Byte) (ino : ℕ) (A : List ℕ) (vmint vmaxt : ℕ)
    (mp : Option ℕ) : Prop where
  one : ∀ x ∈ A, inodeVersion e o ino x ≠ 1
  vmaxt : vmaxt = 0 ↔ next (inodeVersion e o ino) 0 A = none
  mp : mp = foundInode e o ino A
  vmint : vmint = (next (inodeVersion e o ino) 0 A).elim (2^32-1) (inodeVersion e o ino)

theorem Sought.skip (h : Sought e o ino A vmint vmaxt mp) {b : ℕ}
    (hb : ¬ 0 < inodeVersion e o ino b) : Sought e o ino (A ++ [b]) vmint vmaxt mp := by
  have hn : next (inodeVersion e o ino) 0 (A ++ [b]) = next (inodeVersion e o ino) 0 A := by
    rw [next_concat, if_neg hb]
  refine ⟨fun x hx => ?_, ?_, ?_, ?_⟩
  · rcases List.mem_append.mp hx with hx | hx
    · exact h.one x hx
    · rw [List.mem_singleton.mp hx]
      omega
  · rw [hn]
    exact h.vmaxt
  · rw [foundInode, hn]
    exact h.mp
  · rw [hn]
    exact h.vmint

theorem Sought.pass (h : Sought e o ino A vmint vmaxt mp) {b : ℕ}
    (hb : 0 < inodeVersion e o ino b) (hone : inodeVersion e o ino b ≠ 1) :
    Sought e o ino (A ++ [b]) (min vmint (inodeVersion e o ino b))
      (max vmaxt (inodeVersion e o ino b))
      (if inodeVersion e o ino b < vmint then some b else mp) := by
  have hlt := inodeVersion_lt e o ino b
  have hone' : ∀ x ∈ A ++ [b], inodeVersion e o ino x ≠ 1 := by
    intro x hx
    rcases List.mem_append.mp hx with hx | hx
    · exact h.one x hx
    · rwa [List.mem_singleton.mp hx]
  have hn := next_concat (inodeVersion e o ino) 0 A b
  rw [if_pos hb] at hn
  obtain ⟨-, -, hmp, hvmint⟩ := h
  rw [foundInode] at hmp
  cases hA : next (inodeVersion e o ino) 0 A with
  | none =>
    rw [hA] at hn hmp hvmint
    dsimp only [Option.elim] at hn hmp hvmint
    refine ⟨hone', ?_, ?_, ?_⟩
    · rw [hn]
      simp only [reduceCtorEq, iff_false]
      omega
    · rw [foundInode, hn, hvmint, hmp]
    · rw [hn, hvmint]
      exact min_eq_right (by omega)
  | some q =>
    have hqlt := inodeVersion_lt e o ino q
    rw [hA] at hn hmp hvmint
    dsimp only [Option.elim] at hn hmp hvmint
    by_cases hbq : inodeVersion e o ino b < inodeVersion e o ino q
    · rw [if_pos hbq] at hn
      refine ⟨hone', ?_, ?_, ?_⟩
      · rw [hn]
        simp only [reduceCtorEq, iff_false]
        omega
      · rw [foundInode, hn, hvmint, if_pos hbq]
        exact (if_pos (by omega)).symm
      · rw [hn, hvmint]
        exact min_eq_right hbq.le
    · rw [if_neg hbq] at hn
      refine ⟨hone', ?_, ?_, ?_⟩
      · rw [hn]
        simp only [reduceCtorEq, iff_false]
        omega
      · rw [foundInode, hn, hvmint, if_neg hbq, hmp]
      · rw [hn, hvmint]
        exact min_eq_left (not_lt.mp hbq)

theorem Sought.findPass (h : Sought e o ino A vmint vmaxt mp) :
    findPass vmint vmaxt mp = foundInode e o ino A := by
  rw [Jffs2.findPass]
  cases hA : next (inodeVersion e o ino) 0 A with
  | none =>
    rw [if_neg fun hh => by have := h.vmaxt.mpr hA; omega, foundInode, hA]
  | some q =>
    have hvmint := h.vmint
    rw [hA] at hvmint
    have hq := (next_split hA).1
    have hvmaxt : vmaxt ≠ 0 := fun h0 => by
      rw [h.vmaxt.mp h0] at hA
      cases hA
    dsimp only [Option.elim] at hvmint
    rw [if_pos (by omega), h.mp]

/-- The search over the nodes `B` that are still to come. -/
theorem findRawInode_eq (hc : Chain e o n B) (h : Sought e o ino A vmint vmaxt mp)
    (hk : B.length < k) :
    findRawInode e o ino k n vmint vmaxt mp = some (foundInode e o ino (A ++ B)) := by
  induction k generalizing n A B vmint vmaxt mp with
  | zero => omega
  | succ k ih =>
    rw [findRawInode]
    dsimp only
    rcases hc.seek (k := o.length) (by omega) with
      ⟨rfl, hend⟩ | ⟨b, B', rfl, hs, -, hlt, hmagic, hstep, hrest⟩
    · rw [if_neg fun hh => absurd hh.1 (not_lt.mpr hend), List.append_nil, h.findPass]
    · have hlen : B'.length < k := by
        rw [List.length_cons] at hk
        omega
      have hnext : b+stepOf e o b ≠ 0 := by omega
      have happend : A ++ b :: B' = A ++ [b] ++ B' := by rw [List.append_assoc]; rfl
      rw [hs, if_pos ⟨hlt, hmagic⟩, if_neg hnext, if_neg hnext]
      by_cases hb : e.get o (b+2) 2 = JFFS2_NODETYPE_INODE ∧ e.get o (b+12) 4 = ino
      · have hv : inodeVersion e o ino b = e.get o (b+16) 4 := if_pos hb
        by_cases hpos : 0 < e.get o (b+16) 4
        · rw [if_pos ⟨hb.1, hb.2, hpos⟩]
          by_cases hone : e.get o (b+16) 4 = 1
          · have hfirst : next (inodeVersion e o ino) 0 (A ++ b :: B') = some b := by
              refine next_of_split (by rw [hv]; exact hpos) (fun x hx hx0 => ?_) fun y _ hy0 => ?_
              · have := h.one x hx
                rw [hv, hone]
                omega
              · rw [hv, hone]
                exact hy0
            rw [if_pos hone, foundInode, hfirst]
            dsimp only
            rw [if_pos (by rw [hv, hone]; decide)]
          · rw [if_neg hone, happend, ← hv]
            rw [← hv] at hpos hone
            exact ih hrest (h.pass hpos hone) hlen
        · rw [if_neg fun hh => hpos hh.2.2, happend]
          exact ih hrest (h.skip (by rwa [hv])) hlen
      · have hv : inodeVersion e o ino b = 0 := if_neg hb
        rw [if_neg fun hh => hb ⟨hh.1, hh.2.1⟩, happend]
        exact ih hrest (h.skip (by rw [hv]; exact Nat.lt_irrefl 0)) hlen

/-- `find_raw_inode` ends on every chain of nodes. -/
theorem findRawInode_found (hc : Chain e o 0 ns) (ino : ℕ) (hk : ns.length < k) :
    findRawInode e o ino k 0 (2^32-1) 0 none = some (foundInode e o ino ns) := by
  refine findRawInode_eq (A := []) hc ⟨?_, ?_, rfl, rfl⟩ hk
  · intro x hx
    cases hx
  · exact ⟨fun _ => rfl, fun _ => rfl⟩

end Find

end ChipTools.Jffs2
