import ChipTools.NodeChain

/-! `collectdir` on a chain of nodes: which entries it reads, in which order, and when it ends. -/
namespace ChipTools.Jffs2
open Bytes KeyOrder

section Passes

variable {e : Endian} {o : List Byte} {ns X : List ℕ} {ino v b : ℕ} {x : Option ℕ}
  {Q : List (Option ℕ)} {s : Collect} {ds : List Dir}

/-- A node is an entry of the directory. -/
def IsEntry (e : Endian) (o : List Byte) (ino n : ℕ) : Prop :=
  e.get o (n+2) 2 = JFFS2_NODETYPE_DIRENT ∧ (rawDirent e o n).pino = ino

instance (e : Endian) (o : List Byte) (ino : ℕ) : DecidablePred (IsEntry e o ino) :=
  fun n => inferInstanceAs
    (Decidable (e.get o (n+2) 2 = JFFS2_NODETYPE_DIRENT ∧ (rawDirent e o n).pino = ino))

/-- The version of an entry of the directory, and 0 of any other node. -/
def dirVersion (e : Endian) (o : List Byte) (ino n : ℕ) : ℕ :=
  if IsEntry e o ino n then (rawDirent e o n).version else 0

theorem dirVersion_lt (e : Endian) (o : List Byte) (ino n : ℕ) : dirVersion e o ino n < 2^32 := by
  rw [dirVersion]
  split
  · exact e.get_lt o (n+16) 4
  · decide

theorem collectNode_eq (e : Endian) (o : List Byte) (ino n : ℕ) (s : Collect) :
    collectNode e o ino n s =
      if s.vcur < dirVersion e o ino n then collectDirent e o (dirVersion e o ino n) n s else s := by
  rw [collectNode, dirVersion]
  by_cases h : IsEntry e o ino n
  · rw [if_pos h]
    by_cases hv : s.vcur < (rawDirent e o n).version
    · rw [if_pos hv, if_pos ⟨h.1, h.2, hv⟩]
      rfl
    · rw [if_neg hv, if_neg fun hh => hv hh.2.2]
  · rw [if_neg h, if_neg fun hh => h ⟨hh.1, hh.2.1⟩, if_neg (Nat.not_lt_zero _)]

/-- The entry with the next version is taken. -/
theorem collectNode_taken (h : dirVersion e o ino b = s.vcur+1) :
    collectNode e o ino b s = { s with
      vmaxt := max s.vmaxt (s.vcur+1)
      vmint := 2^32-1
      mp := if s.vcur+1 < s.vmint then some b else s.mp
      d := putdir s.d (rawDirent e o b)
      lr := b
      vcur := s.vcur+1 } := by
  have hlt := dirVersion_lt e o ino b
  rw [collectNode_eq, h, if_pos (Nat.lt_succ_self _), collectDirent]
  dsimp only
  rw [if_pos (Nat.mod_eq_of_lt (h ▸ hlt)).symm]

/-- An entry with a version further on is remembered. -/
theorem collectNode_seen (hv : s.vcur < dirVersion e o ino b)
    (hne : dirVersion e o ino b ≠ s.vcur+1) :
    collectNode e o ino b s = { s with
      vmaxt := max s.vmaxt (dirVersion e o ino b)
      vmint := min s.vmint (dirVersion e o ino b)
      mp := if dirVersion e o ino b < s.vmint then some b else s.mp } := by
  have hlt := dirVersion_lt e o ino b
  rw [collectNode_eq, if_pos hv, collectDirent]
  dsimp only
  rw [if_neg]
  rw [Nat.mod_eq_of_lt (by omega)]
  exact hne

/-- One pass over a node, or the way back to the start. -/
def visit (e : Endian) (o : List Byte) (ino : ℕ) : Option ℕ → Collect → Collect
  | some b, s => { collectNode e o ino b s with n := b+stepOf e o b }
  | none, s => { s with n := 0 }

theorem visit_n (e : Endian) (o : List Byte) (ino : ℕ) (x : Option ℕ) (s : Collect) :
    (visit e o ino x s).n = endStop e o x := by
  cases x <;> rfl

theorem collectAdvance_eq (ino : ℕ) (hc : Chain e o 0 ns) (h : Cursor e o ns s.n (x :: Q)) :
    collectAdvance e o ino s = visit e o ino x s := by
  have hp := (h.pass hc).1
  cases x with
  | none =>
    rw [collectAdvance]
    dsimp only at hp ⊢
    rw [if_neg fun hh => absurd hh.1 (not_lt.mpr hp)]
    rfl
  | some b =>
    obtain ⟨hs, hlt, hmagic⟩ := hp
    rw [collectAdvance, hs]
    dsimp only
    rw [if_pos ⟨hlt, hmagic⟩]
    rfl

/-- The loop ends with a result. -/
def Returns (e : Endian) (o : List Byte) (ino : ℕ) (s : Collect) (ds : List Dir) : Prop :=
  ∃ k, collectLoop e o ino k s = some ds

theorem returns_iff (e : Endian) (o : List Byte) (ino : ℕ) (s : Collect) (ds : List Dir) :
    Returns e o ino s ds ↔ ∃ s', collectPass e o (collectAdvance e o ino s) = some s' ∧
      if s'.vcur < s'.vmax then Returns e o ino s' ds else s'.d = ds := by
  constructor
  · rintro ⟨k, hk⟩
    cases k with
    | zero => cases hk
    | succ k =>
      rw [collectLoop] at hk
      obtain ⟨s', hs', hk⟩ := Option.bind_eq_some_iff.mp hk
      refine ⟨s', hs', ?_⟩
      split at hk
      next hlt =>
        rw [if_pos hlt]
        exact ⟨k, hk⟩
      next hge =>
        rw [if_neg hge]
        exact Option.some.inj hk
  · rintro ⟨s', hs', h⟩
    split at h
    next hlt =>
      obtain ⟨k, hk⟩ := h
      refine ⟨k+1, ?_⟩
      rw [collectLoop, hs']
      change (if s'.vcur < s'.vmax then _ else _) = _
      rw [if_pos hlt, hk]
    next hge =>
      refine ⟨1, ?_⟩
      rw [collectLoop, hs']
      change (if s'.vcur < s'.vmax then _ else _) = _
      rw [if_neg hge, h]

/-- A pass that does not come back to the last entry. -/
theorem returns_quiet (ino : ℕ) (hc : Chain e o 0 ns) (h : Cursor e o ns s.n (x :: Q))
    (hlr : (visit e o ino x s).lr ≠ endStop e o x) (ds : List Dir) :
    Returns e o ino s ds ↔
      if (visit e o ino x s).vcur < (visit e o ino x s).vmax then
        Returns e o ino (visit e o ino x s) ds
      else (visit e o ino x s).d = ds := by
  have hpass : collectPass e o (visit e o ino x s) = some (visit e o ino x s) := by
    rw [collectPass, visit_n, if_neg hlr]
  rw [returns_iff, collectAdvance_eq ino hc h, hpass]
  constructor
  · rintro ⟨s', hs', hh⟩
    rwa [Option.some.inj hs']
  · intro hh
    exact ⟨_, rfl, hh⟩

end Passes

section Laps

variable {e : Endian} {o : List Byte} {ns X : List ℕ} {ino v b q : ℕ} {x : Option ℕ}
  {Q T U Z : List (Option ℕ)} {s s' : Collect} {ds : List Dir} {old : Option ℕ}

/-- What is known in a round that has passed the nodes `X` since version `v` was taken, with `old`
as the minimum position before. The greatest version is never a minimum. -/
structure Lap (e : Endian) (o : List Byte) (ns : List ℕ) (ino : ℕ) (old : Option ℕ) (v : ℕ)
    (X : List ℕ) (s : Collect) : Prop where
  vcur : s.vcur = v
  seen : ∀ x ∈ X, dirVersion e o ino x ≤ s.vmaxt
  vmaxt : ∀ w, (∀ x ∈ ns, dirVersion e o ino x ≤ w) → s.vmaxt ≤ w
  le_vmaxt : v ≤ s.vmaxt
  least : match next (dirVersion e o ino) v X with
    | none => s.vmint = 2^32-1 ∧ s.mp = old
    | some q => s.vmint = dirVersion e o ino q ∧
      s.mp = if dirVersion e o ino q < 2^32-1 then some q else old

/-- The members that only a taken entry changes. -/
structure SameRun (s s' : Collect) : Prop where
  lr : s'.lr = s.lr
  vmax : s'.vmax = s.vmax
  d : s'.d = s.d

theorem SameRun.trans {s'' : Collect} (h : SameRun s s') (h' : SameRun s' s'') : SameRun s s'' where
  lr := h'.lr.trans h.lr
  vmax := h'.vmax.trans h.vmax
  d := h'.d.trans h.d

/-- A pass that takes no entry. -/
theorem Lap.visit (h : Lap e o ns ino old v X s) (hx : ∀ b, x = some b → b ∈ ns)
    (hno : ∀ b, x = some b → dirVersion e o ino b ≠ v+1) :
    Lap e o ns ino old v (X ++ nodes [x]) (visit e o ino x s) ∧
      SameRun s (Jffs2.visit e o ino x s) := by
  cases x with
  | none =>
    rw [nodes_none, nodes_nil, List.append_nil]
    exact ⟨⟨h.vcur, h.seen, h.vmaxt, h.le_vmaxt, h.least⟩, rfl, rfl, rfl⟩
  | some b =>
    rw [nodes_some, nodes_nil]
    obtain ⟨hvcur, hseen, hvmaxt, hle, hleast⟩ := h
    have hlt := dirVersion_lt e o ino b
    have hne := hno b rfl
    by_cases hv : v < dirVersion e o ino b
    · have hnode := collectNode_seen (hvcur.symm ▸ hv : s.vcur < dirVersion e o ino b)
        (hvcur.symm ▸ hne)
      rw [Jffs2.visit, hnode]
      refine ⟨⟨hvcur, ?_, ?_, hle.trans (le_max_left _ _), ?_⟩, rfl, rfl, rfl⟩
      · intro y hy
        rcases List.mem_append.mp hy with hy | hy
        · exact (hseen y hy).trans (le_max_left _ _)
        · rw [List.mem_singleton.mp hy]
          exact le_max_right _ _
      · intro w hw
        exact max_le (hvmaxt w hw) (hw b (hx b rfl))
      · rw [next_concat, if_pos hv]
        cases hn : next (dirVersion e o ino) v X with
        | none =>
          rw [hn] at hleast
          dsimp only at hleast ⊢
          rw [hleast.1, hleast.2]
          exact ⟨min_eq_right (by omega), rfl⟩
        | some q =>
          rw [hn] at hleast
          dsimp only at hleast ⊢
          have hqlt := dirVersion_lt e o ino q
          rw [hleast.1]
          by_cases hbq : dirVersion e o ino b < dirVersion e o ino q
          · rw [if_pos hbq, if_pos hbq]
            exact ⟨min_eq_right hbq.le, (if_pos (by omega)).symm⟩
          · rw [if_neg hbq, if_neg hbq]
            exact ⟨min_eq_left (not_lt.mp hbq), hleast.2⟩
    · have hnode : collectNode e o ino b s = s := by
        rw [collectNode_eq, if_neg (by rw [hvcur]; exact hv)]
      rw [Jffs2.visit, hnode]
      refine ⟨⟨hvcur, ?_, hvmaxt, hle, ?_⟩, rfl, rfl, rfl⟩
      · intro y hy
        rcases List.mem_append.mp hy with hy | hy
        · exact hseen y hy
        · rw [List.mem_singleton.mp hy]
          exact (not_lt.mp hv).trans hle
      · rw [next_concat, if_neg hv]
        exact hleast

/-- Passes that take no entry and do not come back to the last one. -/
theorem Lap.passes (hc : Chain e o 0 ns) (hcur : Cursor e o ns s.n (T ++ Z))
    (h : Lap e o ns ino old v X s) (hrun : v < s.vmax)
    (hno : ∀ b ∈ nodes T, dirVersion e o ino b ≠ v+1) (hlr : ∀ y ∈ T, endStop e o y ≠ s.lr) :
    ∃ s', Lap e o ns ino old v (X ++ nodes T) s' ∧ SameRun s s' ∧ Cursor e o ns s'.n (Z ++ T) ∧
      ∀ ds, Returns e o ino s ds ↔ Returns e o ino s' ds := by
  induction T generalizing s X Z with
  | nil =>
    refine ⟨s, ?_, ⟨rfl, rfl, rfl⟩, ?_, fun _ => Iff.rfl⟩
    · rwa [nodes_nil, List.append_nil]
    · rwa [List.append_nil]
  | cons x T ih =>
    have hx : ∀ b, x = some b → b ∈ nodes (x :: T) := by
      rintro b rfl
      exact List.mem_cons_self
    obtain ⟨hlap, hsame⟩ := h.visit (x := x)
      (fun b hb => hcur.nodes_perm.subset (by
        rw [nodes_append]
        exact List.mem_append_left _ (hx b hb)))
      (fun b hb => hno b (hx b hb))
    have hnext : Cursor e o ns (endStop e o x) (T ++ (Z ++ [x])) := by
      simpa using (hcur.pass hc).2
    rw [← visit_n e o ino x s] at hnext
    have hquiet := returns_quiet ino hc hcur
      (by rw [hsame.lr]; exact (hlr x List.mem_cons_self).symm)
    have hgo : (Jffs2.visit e o ino x s).vcur < (Jffs2.visit e o ino x s).vmax := by
      rw [hlap.vcur, hsame.vmax]
      exact hrun
    obtain ⟨s', hlap', hsame', hcur', hret⟩ := ih hnext hlap (by rw [hsame.vmax]; exact hrun)
      (fun b hb => hno b (by
        cases x with
        | none => exact hb
        | some c => exact List.mem_cons_of_mem c hb))
      (fun y hy => by rw [hsame.lr]; exact hlr y (List.mem_cons_of_mem x hy))
    refine ⟨s', ?_, hsame.trans hsame', ?_, fun ds => ?_⟩
    · cases x with
      | none => simpa using hlap'
      | some c => simpa using hlap'
    · simpa using hcur'
    · rw [hquiet ds, if_pos hgo]
      exact hret ds

/-- No version that was seen is the next one, so the least of them is further on. -/
theorem Lap.vmint_gt (h : Lap e o ns ino old v X s) (hno : ∀ b ∈ X, dirVersion e o ino b ≠ v+1)
    (hv : v+1 < 2^32-1) : v+1 < s.vmint := by
  have hleast := h.least
  cases hn : next (dirVersion e o ino) v X with
  | none =>
    rw [hn] at hleast
    rw [hleast.1]
    exact hv
  | some q =>
    rw [hn] at hleast
    have hq := (next_split hn).1
    have hne := hno q (next_mem hn)
    rw [hleast.1]
    omega

/-- The entry with the next version is met before the reader is back. -/
theorem returns_taken (hc : Chain e o 0 ns) (hcur : Cursor e o ns s.n (T ++ some q :: Z))
    (h : Lap e o ns ino old v [] s) (hrun : v < s.vmax) (hq : dirVersion e o ino q = v+1)
    (hno : ∀ b ∈ nodes T, dirVersion e o ino b ≠ v+1) (hlr : ∀ y ∈ T, endStop e o y ≠ s.lr) :
    ∃ s', (v+1 < 2^32-1 → Lap e o ns ino (some q) (v+1) [] s') ∧ s'.lr = q ∧ s'.vmax = s.vmax ∧
      s'.d = putdir s.d (rawDirent e o q) ∧ Cursor e o ns s'.n (Z ++ T ++ [some q]) ∧
      (Landing e o ns q → ∃ P y, Z ++ T = P ++ [y] ∧ endStop e o y = q) ∧
      ∀ ds, Returns e o ino s ds ↔ if v+1 < s.vmax then Returns e o ino s' ds else s'.d = ds := by
  obtain ⟨s₁, hlap, hsame, hcur₁, hret⟩ := h.passes hc hcur hrun hno hlr
  rw [List.nil_append] at hlap
  have hqv : dirVersion e o ino q = s₁.vcur+1 := by rw [hlap.vcur, hq]
  have hqn : q ∈ ns := hcur₁.nodes_perm.subset (by simp)
  have hstep : 12 ≤ stepOf e o q := hc.step hqn
  have hnode := collectNode_taken hqv
  have hquiet := returns_quiet ino hc hcur₁ (by
    change (collectNode e o ino q s₁).lr ≠ q+stepOf e o q
    rw [hnode]
    dsimp only
    omega)
  refine ⟨visit e o ino (some q) s₁, fun hv => ?_, ?_, ?_, ?_, ?_, fun hland => ?_, fun ds => ?_⟩
  · have hgt := hlap.vmint_gt hno hv
    rw [visit, hnode]
    refine ⟨by rw [hlap.vcur], fun y hy => ?_, fun w hw => ?_, ?_, rfl, ?_⟩
    · cases hy
    · exact max_le (hlap.vmaxt w hw) (hqv ▸ hw q hqn)
    · rw [hlap.vcur]
      exact le_max_right _ _
    · rw [hlap.vcur, if_pos hgt]
  · rw [visit, hnode]
  · rw [visit, hnode]
    exact hsame.vmax
  · rw [visit, hnode, ← hsame.d]
  · have hnext := (hcur₁.pass hc).2
    rw [← visit_n e o ino (some q) s₁] at hnext
    exact hnext
  · obtain ⟨P, y, hP, hy⟩ := hcur₁.last
    rw [(hcur₁.landing hc).mp hland] at hy
    cases P with
    | nil =>
      rw [List.nil_append, List.cons_append] at hP
      rw [← (List.cons.inj hP).1] at hy
      change q+stepOf e o q = q at hy
      omega
    | cons p P =>
      rw [List.cons_append, List.cons_append] at hP
      exact ⟨P, y, (List.cons.inj hP).2, hy⟩
  · have hgo : (visit e o ino (some q) s₁).vcur = v+1 ∧
        (visit e o ino (some q) s₁).vmax = s.vmax := by
      rw [visit, hnode, ← hsame.vmax, hlap.vcur]
      exact ⟨rfl, rfl⟩
    rw [hret ds, hquiet ds, hgo.1, hgo.2]

/-- What a whole round finds: whether a version is the greatest of the directory. -/
def Top (e : Endian) (o : List Byte) (ns : List ℕ) (ino vmax : ℕ) : Prop :=
  ∀ w, vmax ≤ w ↔ ∀ x ∈ ns, dirVersion e o ino x ≤ w

/-- The state when the entry at `mp` was taken at the end of a round. -/
def afterRound (e : Endian) (o : List Byte) (s : Collect) (mp : ℕ) : Collect where
  n := mp+stepOf e o mp
  lr := mp+stepOf e o mp
  mp := s.mp
  vmin := s.vmint
  vmint := 2^32-1
  vmaxt := s.vmaxt
  vmax := s.vmaxt
  vcur := s.vmint
  d := putdir s.d (rawDirent e o mp)

theorem collectPass_round (h : s.lr = s.n) :
    collectPass e o s =
      if s.vcur < s.vmaxt ∧ s.vcur < s.vmint then s.mp.map (afterRound e o s)
      else some { s with vmax := s.vmaxt, vmin := s.vmint, vmint := 2^32-1 } := by
  rw [collectPass, if_pos h]
  rfl

/-- The end of a whole round. -/
theorem returns_round (hc : Chain e o 0 ns) (hcur : Cursor e o ns s.n (T ++ x :: U))
    (h : Lap e o ns ino old v [] s) (hrun : v < s.vmax) (hx : endStop e o x = s.lr)
    (hno : ∀ b ∈ ns, dirVersion e o ino b ≠ v+1) (hU : ∀ b ∈ nodes U, dirVersion e o ino b ≤ v) :
    match next (dirVersion e o ino) v (nodes (T ++ x :: U)) with
    | none => ∀ ds, Returns e o ino s ds ↔ s.d = ds
    | some q =>
      match (if dirVersion e o ino q < 2^32-1 then some q else old) with
      | none => ∀ ds, ¬ Returns e o ino s ds
      | some m => ∃ s', Lap e o ns ino (some m) (dirVersion e o ino q) [] s' ∧
        s'.lr = m+stepOf e o m ∧ s'.n = m+stepOf e o m ∧ Top e o ns ino s'.vmax ∧
        s'.d = putdir s.d (rawDirent e o m) ∧
        ∀ ds, Returns e o ino s ds ↔
          if dirVersion e o ino q < s'.vmax then Returns e o ino s' ds else s'.d = ds := by
  have hperm := hcur.nodes_perm
  have hends := hcur.ends hc
  rw [List.map_append, List.map_cons, List.nodup_middle, List.nodup_cons] at hends
  have hlr : ∀ y ∈ T, endStop e o y ≠ s.lr := by
    intro y hy heq
    rw [hx, ← heq] at hends
    exact hends.1 (List.mem_append_left _ (List.mem_map_of_mem hy))
  obtain ⟨s₁, hlap₁, hsame₁, hcur₁, hret⟩ := h.passes hc hcur hrun
    (fun b hb => hno b (hperm.subset (by simp [hb]))) hlr
  have hxn : ∀ b, x = some b → b ∈ ns := by
    rintro b rfl
    exact hperm.subset (by simp)
  obtain ⟨hlap, hsame₂⟩ := hlap₁.visit hxn fun b hb => hno b (hxn b hb)
  have hsame := hsame₁.trans hsame₂
  have hadvance := collectAdvance_eq ino hc hcur₁
  have hback : (visit e o ino x s₁).lr = (visit e o ino x s₁).n := by
    rw [hsame.lr, visit_n, hx]
  have hstep (ds : List Dir) := (hret ds).trans (returns_iff e o ino s₁ ds)
  simp only [hadvance, collectPass_round hback] at hstep
  generalize visit e o ino x s₁ = s₂ at hlap hsame hstep
  obtain ⟨hvcur, hseen, hvmaxt, hle, hleast⟩ := hlap
  have hnodes : nodes (T ++ x :: U) = [] ++ nodes T ++ nodes [x] ++ nodes U := by
    rw [← List.singleton_append, nodes_append, nodes_append, List.nil_append, List.append_assoc]
  rw [hnodes, next_append_low hU]
  -- all versions were seen, or are not above `v`
  have htop : Top e o ns ino s₂.vmaxt := by
    intro w
    refine ⟨fun hw y hy => ?_, hvmaxt w⟩
    rw [← hperm.mem_iff, hnodes] at hy
    rcases List.mem_append.mp hy with hy | hy
    · exact (hseen y hy).trans hw
    · exact (hU y hy).trans (hle.trans hw)
  cases hn : next (dirVersion e o ino) v ([] ++ nodes T ++ nodes [x]) with
  | none =>
    have hlow : s₂.vmaxt ≤ v := by
      refine (htop v).mpr fun y hy => ?_
      rw [← hperm.mem_iff, hnodes] at hy
      rcases List.mem_append.mp hy with hy | hy
      · exact next_eq_none.mp hn y hy
      · exact hU y hy
    intro ds
    rw [hstep ds, if_neg fun hh => absurd hh.1 (by rw [hvcur]; exact not_lt.mpr hlow), ← hsame.d]
    constructor
    · rintro ⟨s', hs', hd⟩
      obtain rfl := Option.some.inj hs'
      rwa [if_neg (by rw [hvcur]; exact not_lt.mpr hlow)] at hd
    · intro hd
      exact ⟨_, rfl, by rwa [if_neg (by rw [hvcur]; exact not_lt.mpr hlow)]⟩
  | some q =>
    have hq := (next_split hn).1
    have hqseen := hseen q (next_mem hn)
    rw [hn] at hleast
    obtain ⟨hvmint, hmp⟩ := hleast
    have hcond : s₂.vcur < s₂.vmaxt ∧ s₂.vcur < s₂.vmint := by
      rw [hvcur, hvmint]
      exact ⟨hq.trans_le hqseen, hq⟩
    simp only [if_pos hcond] at hstep
    dsimp only
    rw [← hmp]
    cases hm : s₂.mp with
    | none =>
      intro ds hh
      obtain ⟨s', hs', -⟩ := (hstep ds).mp hh
      rw [hm] at hs'
      cases hs'
    | some m =>
      rw [hm] at hstep
      have hlap' : Lap e o ns ino (some m) (dirVersion e o ino q) [] (afterRound e o s₂ m) :=
        ⟨hvmint, fun y hy => absurd hy List.not_mem_nil, hvmaxt, hqseen, rfl, hm⟩
      refine ⟨afterRound e o s₂ m, hlap', rfl, rfl, htop, congrArg (putdir · _) hsame.d,
        fun ds => ?_⟩
      rw [hstep ds, Option.map_some]
      constructor
      · rintro ⟨s', hs', hd⟩
        obtain rfl := Option.some.inj hs'
        rwa [hlap'.vcur] at hd
      · intro hd
        exact ⟨_, rfl, by rwa [hlap'.vcur]⟩

end Laps

section LoopOutcome

variable {e : Endian} {o : List Byte} {ns X : List ℕ} {ino v k q : ℕ} {x : Option ℕ}
  {Q T U Y : List (Option ℕ)} {s : Collect} {ds : List Dir} {old : Option ℕ} {met known : Prop}

/-- Whether the loop ends, by the entries that are still to come when version `v` has been taken:
`met` says that the reader comes back to the place it remembers, `known` that it has been round
before, so that it knows the greatest version. -/
def Ends (e : Endian) (o : List Byte) (ns : List ℕ) (ino : ℕ) :
    ℕ → Prop → Prop → List ℕ → Prop
  | v, met, known, [] => met ∨ known ∨ v = 2^32-1
  | v, met, known, q :: ps =>
    if dirVersion e o ino q = v+1 then
      Ends e o ns ino (dirVersion e o ino q) (Landing e o ns q) known ps
    else met ∧ (v = 0 → dirVersion e o ino q < 2^32-1) ∧
      Ends e o ns ino (dirVersion e o ino q) True True ps

/-- Where no entry has the next version, and the remembered place is never met, the reader goes
round for ever. -/
theorem not_returns (hc : Chain e o 0 ns) (hcur : Cursor e o ns s.n Q)
    (h : Lap e o ns ino old v X s) (hrun : v < s.vmax)
    (hno : ∀ b ∈ ns, dirVersion e o ino b ≠ v+1) (hlr : ¬ Landing e o ns s.lr) (ds : List Dir) :
    ¬ Returns e o ino s ds := by
  rintro ⟨k, hk⟩
  induction k generalizing s Q X with
  | zero => cases hk
  | succ k ih =>
    cases Q with
    | nil =>
      obtain ⟨P, y, hP, -⟩ := hcur.last
      cases P <;> cases hP
    | cons x Q =>
      have hxn : ∀ b, x = some b → b ∈ ns := by
        rintro b rfl
        exact hcur.nodes_perm.subset List.mem_cons_self
      obtain ⟨hlap, hsame⟩ := h.visit hxn fun b hb => hno b (hxn b hb)
      have hnext := (hcur.pass hc).2
      rw [← visit_n e o ino x s] at hnext
      have hpass : collectPass e o (visit e o ino x s) = some (visit e o ino x s) := by
        rw [collectPass, if_neg]
        rw [visit_n, hsame.lr]
        intro heq
        apply hlr
        cases x with
        | none => exact .inl heq
        | some b => exact .inr ⟨b, hxn b rfl, heq.symm⟩
      rw [collectLoop, collectAdvance_eq ino hc hcur, hpass] at hk
      change (if (visit e o ino x s).vcur < (visit e o ino x s).vmax then _ else _) = _ at hk
      rw [if_pos (by rw [hlap.vcur, hsame.vmax]; exact hrun)] at hk
      exact ih hnext hlap (by rw [hsame.vmax]; exact hrun) (by rw [hsame.lr]; exact hlr) hk

/-- Up to a node that lies before the remembered place the reader does not come back. -/
theorem not_back {X : List (Option ℕ)} (hends : (Q.map (endStop e o)).Nodup)
    (hq : Q = X ++ some q :: Y) (hx : Q = T ++ x :: U) (hU : q ∉ nodes U) :
    ∀ y ∈ X, endStop e o y ≠ endStop e o x := by
  intro y hy heq
  have hnodup := hends
  rw [hx, List.map_append, List.map_cons, List.nodup_middle, List.nodup_cons, ← heq] at hnodup
  have hT : y ∉ T := fun h => hnodup.1 (List.mem_append_left _ (List.mem_map_of_mem h))
  rcases List.append_eq_append_iff.mp (hq.symm.trans hx) with ⟨l, rfl, -⟩ | ⟨l, rfl, hl⟩
  · exact hT (List.mem_append_left l hy)
  · cases l with
    | nil =>
      rw [List.append_nil] at hy
      exact hT hy
    | cons z l =>
      rw [List.cons_append] at hl
      rw [(List.cons.inj hl).2] at hU
      exact hU (by simp)

/-- The loop where a version has just been taken, with the passes `Q` before it. -/
structure Fresh (e : Endian) (o : List Byte) (ns : List ℕ) (ino : ℕ) (old : Option ℕ) (v : ℕ)
    (met known : Prop) (Q : List (Option ℕ)) (s : Collect) : Prop where
  cur : Cursor e o ns s.n Q
  lap : Lap e o ns ino old v [] s
  old : old = none ↔ v = 0
  run : v < s.vmax
  vmax : (known ∧ Top e o ns ino s.vmax) ∨ (¬ known ∧ s.vmax = 2^32-1)
  back : met → ∃ T x U, Q = T ++ x :: U ∧ endStop e o x = s.lr ∧
    ∀ b ∈ nodes U, dirVersion e o ino b ≤ v
  away : ¬ met → ¬ Landing e o ns s.lr

theorem Fresh.start (e : Endian) (o : List Byte) (ns : List ℕ) (ino : ℕ) (d : List Dir) :
    Fresh e o ns ino none 0 True False (ns.map some ++ [none]) (Collect.start d) where
  cur := Cursor.start e o ns
  lap := ⟨rfl, fun _ h => absurd h List.not_mem_nil, fun w _ => Nat.zero_le w, le_rfl, rfl, rfl⟩
  old := ⟨fun _ => rfl, fun _ => rfl⟩
  run := (by decide : 0 < 2^32-1)
  vmax := .inr ⟨not_false, rfl⟩
  back _ := ⟨ns.map some, none, [], rfl, rfl, fun _ h => absurd h List.not_mem_nil⟩
  away h := absurd trivial h

theorem Fresh.vmax_le (h : Fresh e o ns ino old v met known Q s) : s.vmax ≤ 2^32-1 := by
  rcases h.vmax with ⟨-, htop⟩ | ⟨-, heq⟩
  · refine (htop _).mpr fun x _ => ?_
    have := dirVersion_lt e o ino x
    omega
  · exact heq.le

/-- What the loop comes to from there, when the entries `ps` are still to come. -/
def LoopOutcome (e : Endian) (o : List Byte) (ns : List ℕ) (ino v : ℕ) (met known : Prop)
    (ps : List ℕ) (s : Collect) : Prop :=
  (Ends e o ns ino v met known ps → ∃ ds, Returns e o ino s ds ∧
      ((∀ q ∈ ps, dirVersion e o ino q < 2^32-1) →
        ds = ps.foldl (fun d q => putdir d (rawDirent e o q)) s.d)) ∧
    (¬ Ends e o ns ino v met known ps → ∀ ds, ¬ Returns e o ino s ds)

theorem Fresh.ended (hc : Chain e o 0 ns) (h : Fresh e o ns ino old v met known Q s)
    (hn : next (dirVersion e o ino) v (nodes Q) = none) :
    LoopOutcome e o ns ino v met known [] s := by
  have hlow : ∀ b ∈ ns, dirVersion e o ino b ≤ v := by
    intro b hb
    exact next_eq_none.mp hn b (h.cur.nodes_perm.mem_iff.mpr hb)
  have hno : ∀ b ∈ ns, dirVersion e o ino b ≠ v+1 := by
    intro b hb
    have := hlow b hb
    omega
  have hrun := h.run
  have hvmax := h.vmax_le
  constructor
  · rintro (hmet | hknown | hv)
    · obtain ⟨T, x, U, hQ, hx, hU⟩ := h.back hmet
      have hcur := h.cur
      rw [hQ] at hcur hn
      have hround := returns_round hc hcur h.lap hrun hx hno hU
      rw [hn] at hround
      exact ⟨s.d, (hround s.d).mpr rfl, fun _ => rfl⟩
    · rcases h.vmax with ⟨-, htop⟩ | ⟨hunknown, -⟩
      · have := (htop v).mpr hlow
        omega
      · exact absurd hknown hunknown
    · omega
  · intro hends ds
    exact not_returns hc h.cur h.lap hrun hno (h.away fun hmet => hends (.inl hmet)) ds

/-- The next entry has the next version. -/
theorem Fresh.taken (hc : Chain e o 0 ns) (h : Fresh e o ns ino old v met known Q s)
    (hn : next (dirVersion e o ino) v (nodes Q) = some q) (hq : dirVersion e o ino q = v+1)
    {ps : List ℕ} (hps : (∀ b ∈ ns, dirVersion e o ino b ≤ v+1) → ps = [])
    (ih : ∀ s' Q', nodes Q' = behind q (nodes Q) →
      Fresh e o ns ino (some q) (v+1) (Landing e o ns q) known Q' s' →
      LoopOutcome e o ns ino (v+1) (Landing e o ns q) known ps s') :
    LoopOutcome e o ns ino v met known (q :: ps) s := by
  obtain ⟨hqv, xs, ys, hsplit, hxs, hys⟩ := next_split hn
  obtain ⟨X, Y, hQ, rfl, rfl⟩ := nodes_split hsplit
  have hrun := h.run
  have hmax := h.vmax_le
  have hbefore : ∀ b ∈ nodes X, dirVersion e o ino b ≠ v+1 := by
    intro b hb heq
    have := hxs b hb (by omega)
    omega
  have hlr : ∀ y ∈ X, endStop e o y ≠ s.lr := by
    intro y hy heq
    by_cases hmet : met
    · obtain ⟨T, x, U, hT, hx, hU⟩ := h.back hmet
      refine not_back (h.cur.ends hc) hQ hT (fun hqU => ?_) y hy (heq.trans hx.symm)
      have := hU q hqU
      omega
    · apply h.away hmet
      cases y with
      | none => exact .inl heq.symm
      | some b =>
        refine .inr ⟨b, h.cur.nodes_perm.subset ?_, heq⟩
        rw [hsplit]
        exact List.mem_append_left _ (mem_nodes.mpr hy)
  have hcur := h.cur
  rw [hQ] at hcur
  obtain ⟨s', hlap, hslr, hsvmax, hd, hcur', hland, hret⟩ :=
    returns_taken hc hcur h.lap hrun hq hbefore hlr
  have hends : Ends e o ns ino v met known (q :: ps) ↔
      Ends e o ns ino (v+1) (Landing e o ns q) known ps := by
    rw [Ends, if_pos hq, hq]
  by_cases hgo : v+1 < s.vmax
  · have hfresh : Fresh e o ns ino (some q) (v+1) (Landing e o ns q) known (Y ++ X ++ [some q])
        s' := by
      refine ⟨hcur', hlap (by omega), ?_, by rw [hsvmax]; exact hgo, ?_, fun hl => ?_, ?_⟩
      · simp
      · rw [hsvmax]
        exact h.vmax
      · obtain ⟨P, y, hP, hy⟩ := hland hl
        refine ⟨P, y, [some q], ?_, hy.trans hslr.symm, fun b hb => ?_⟩
        · rw [hP, List.append_assoc]
          rfl
        · rw [List.mem_singleton.mp hb, hq]
      · rw [hslr]
        exact id
    have hnodes : nodes (Y ++ X ++ [some q]) = behind q (nodes Q) := by
      have hnot : q ∉ nodes X := fun hx => hbefore q hx hq
      rw [hsplit, behind_append hnot, nodes_append, nodes_append]
      rfl
    obtain ⟨hyes, hno⟩ := ih s' _ hnodes hfresh
    refine ⟨fun hh => ?_, fun hh ds => ?_⟩
    · obtain ⟨ds, hds, hfold⟩ := hyes (hends.mp hh)
      refine ⟨ds, (hret ds).mpr (by rwa [if_pos hgo]), fun hsmall => ?_⟩
      rw [List.foldl_cons, ← hd]
      exact hfold fun p hp => hsmall p (List.mem_cons_of_mem q hp)
    · rw [hret ds, if_pos hgo]
      exact hno (fun hh' => hh (hends.mpr hh')) ds
  · have hlow : ∀ b ∈ ns, dirVersion e o ino b ≤ v+1 := by
      intro b hb
      rcases h.vmax with ⟨-, htop⟩ | ⟨-, heq⟩
      · exact (htop (v+1)).mp (by omega) b hb
      · have := dirVersion_lt e o ino b
        omega
    obtain rfl := hps hlow
    refine ⟨fun _ => ⟨s'.d, (hret s'.d).mpr (by rw [if_neg hgo]), fun _ => hd⟩, fun hh => ?_⟩
    refine absurd (hends.mpr ?_) hh
    rcases h.vmax with ⟨hknown, -⟩ | ⟨-, heq⟩
    · exact .inr (.inl hknown)
    · exact .inr (.inr (by omega))

/-- The next entry is only known after a round. -/
theorem Fresh.round (hc : Chain e o 0 ns) (h : Fresh e o ns ino old v met known Q s)
    (hn : next (dirVersion e o ino) v (nodes Q) = some q) (hq : dirVersion e o ino q ≠ v+1)
    {ps : List ℕ} (hps : (∀ b ∈ ns, dirVersion e o ino b ≤ dirVersion e o ino q) → ps = [])
    (ih : ∀ s' Q', nodes Q' = behind q (nodes Q) →
      Fresh e o ns ino (some q) (dirVersion e o ino q) True True Q' s' →
      LoopOutcome e o ns ino (dirVersion e o ino q) True True ps s') :
    LoopOutcome e o ns ino v met known (q :: ps) s := by
  obtain ⟨hqv, xs, ys, hsplit, hxs, hys⟩ := next_split hn
  obtain ⟨X, Y, hQ, rfl, rfl⟩ := nodes_split hsplit
  have hno : ∀ b ∈ ns, dirVersion e o ino b ≠ v+1 := by
    intro b hb heq
    have := next_le hn (h.cur.nodes_perm.mem_iff.mpr hb) (by omega)
    omega
  have hends : Ends e o ns ino v met known (q :: ps) ↔
      met ∧ (v = 0 → dirVersion e o ino q < 2^32-1) ∧
        Ends e o ns ino (dirVersion e o ino q) True True ps := by
    rw [Ends, if_neg hq]
  by_cases hmet : met
  swap
  · refine ⟨fun hh => absurd (hends.mp hh).1 hmet, fun _ ds => ?_⟩
    exact not_returns hc h.cur h.lap h.run hno (h.away hmet) ds
  obtain ⟨T, x, U, hT, hx, hU⟩ := h.back hmet
  have hcur := h.cur
  rw [hT] at hcur
  have hround := returns_round hc hcur h.lap h.run hx hno hU
  rw [← hT, hn] at hround
  dsimp only at hround
  have hqlt := dirVersion_lt e o ino q
  cases hm : if dirVersion e o ino q < 2^32-1 then some q else old with
  | none =>
    rw [hm] at hround
    refine ⟨fun hh => ?_, fun _ => hround⟩
    by_cases hsmall : dirVersion e o ino q < 2^32-1
    · rw [if_pos hsmall] at hm
      cases hm
    · rw [if_neg hsmall] at hm
      exact absurd ((hends.mp hh).2.1 (h.old.mp hm)) hsmall
  | some m =>
    rw [hm] at hround
    obtain ⟨s', hlap, hslr, hsn, htop, hd, hret⟩ := hround
    have hv0 : v = 0 → dirVersion e o ino q < 2^32-1 := by
      intro hv
      by_contra hsmall
      rw [if_neg hsmall, h.old.mpr hv] at hm
      cases hm
    have hmq : dirVersion e o ino q < 2^32-1 → q = m := by
      intro hsmall
      rw [if_pos hsmall] at hm
      exact Option.some.inj hm
    by_cases hgo : dirVersion e o ino q < s'.vmax
    · have hsmall : dirVersion e o ino q < 2^32-1 := by
        have : s'.vmax ≤ 2^32-1 := by
          refine (htop _).mpr fun y _ => ?_
          have := dirVersion_lt e o ino y
          omega
        omega
      obtain rfl := hmq hsmall
      have hcur' := h.cur
      rw [hQ] at hcur'
      have hfresh : Fresh e o ns ino (some q) (dirVersion e o ino q) True True
          (Y ++ X ++ [some q]) s' := by
        refine ⟨?_, hlap, ?_, hgo, .inl ⟨trivial, htop⟩, fun _ => ?_, fun hh => absurd trivial hh⟩
        · rw [hsn]
          exact hcur'.passes hc
        · simp only [reduceCtorEq, false_iff]
          omega
        · exact ⟨Y ++ X, some q, [], rfl, hslr.symm, fun _ hb => absurd hb List.not_mem_nil⟩
      have hnodes : nodes (Y ++ X ++ [some q]) = behind q (nodes Q) := by
        have hnot : q ∉ nodes X := fun hqx => lt_irrefl _ (hxs q hqx hqv)
        rw [hsplit, behind_append hnot, nodes_append, nodes_append]
        rfl
      obtain ⟨hyes, hnever⟩ := ih s' _ hnodes hfresh
      refine ⟨fun hh => ?_, fun hh ds => ?_⟩
      · obtain ⟨ds, hds, hfold⟩ := hyes (hends.mp hh).2.2
        refine ⟨ds, (hret ds).mpr (by rwa [if_pos hgo]), fun hall => ?_⟩
        rw [List.foldl_cons, ← hd]
        exact hfold fun p hp => hall p (List.mem_cons_of_mem q hp)
      · rw [hret ds, if_pos hgo]
        exact hnever (fun hh' => hh (hends.mpr ⟨hmet, hv0, hh'⟩)) ds
    · obtain rfl := hps ((htop _).mp (by omega))
      refine ⟨fun _ => ⟨s'.d, (hret s'.d).mpr (by rw [if_neg hgo]), fun hall => ?_⟩, fun hh => ?_⟩
      · rw [hd, ← hmq (hall q List.mem_cons_self)]
        rfl
      · exact absurd (hends.mpr ⟨hmet, hv0, .inl trivial⟩) hh

/-- The result of the loop, by induction on the entries that are still to come. -/
theorem Fresh.outcome (hc : Chain e o 0 ns) (h : Fresh e o ns ino old v met known Q s)
    (hk : (nodes Q).countP (v < dirVersion e o ino ·) ≤ k) :
    LoopOutcome e o ns ino v met known (inOrder (dirVersion e o ino) k v (nodes Q)) s := by
  induction k generalizing s v Q old met known with
  | zero =>
    have hn : next (dirVersion e o ino) v (nodes Q) = none := by
      rw [next_eq_none]
      intro b hb
      by_contra hlt
      have : 0 < (nodes Q).countP (v < dirVersion e o ino ·) :=
        List.countP_pos_iff.mpr ⟨b, hb, by simpa using hlt⟩
      omega
    rw [inOrder_none hn]
    exact h.ended hc hn
  | succ k ih =>
    cases hn : next (dirVersion e o ino) v (nodes Q) with
    | none =>
      rw [inOrder_none hn]
      exact h.ended hc hn
    | some q =>
      have hfewer := countP_behind hn
      have hmem : ∀ b ∈ behind q (nodes Q), b ∈ ns := fun b hb =>
        h.cur.nodes_perm.subset ((behind_perm (next_mem hn)).subset hb)
      have hempty : (∀ b ∈ ns, dirVersion e o ino b ≤ dirVersion e o ino q) →
          inOrder (dirVersion e o ino) k (dirVersion e o ino q) (behind q (nodes Q)) = [] :=
        fun hlow => inOrder_none (next_eq_none.mpr fun b hb => hlow b (hmem b hb)) k
      rw [inOrder_some hn]
      by_cases hq : dirVersion e o ino q = v+1
      · rw [hq] at hempty hfewer ⊢
        refine h.taken hc hn hq hempty fun s' Q' hQ' hfresh => ?_
        rw [← hQ'] at hfewer ⊢
        exact ih hfresh (by omega)
      · refine h.round hc hn hq hempty fun s' Q' hQ' hfresh => ?_
        rw [← hQ'] at hfewer ⊢
        exact ih hfresh (by omega)

end LoopOutcome

section Listing

variable {e : Endian} {o : List Byte} {ns ps A B : List ℕ} {ino v q : ℕ} {met known : Prop}

/-- The entries of the directory in the order of their versions; of entries with one version the
first behind the entry before is taken. -/
def dirOrder (e : Endian) (o : List Byte) (ino : ℕ) (ns : List ℕ) : List ℕ :=
  inOrder (dirVersion e o ino) ns.length 0 ns

/-- The version before the next entry. -/
def lastVersion (e : Endian) (o : List Byte) (ino : ℕ) (A : List ℕ) : ℕ :=
  A.getLast?.elim 0 (dirVersion e o ino)

/-- When `collectdir` ends. An entry with the version behind the last one is taken where it is met,
and there the loop remembers the place of the entry itself. It comes to that place again only if
there is no gap before it, and it has to where the next version is missing. -/
structure ListingEnds (e : Endian) (o : List Byte) (ino : ℕ) (ns : List ℕ) : Prop where
  readable : (dirOrder e o ino ns).map (dirVersion e o ino) ≠ [2^32-1]
  landing : ∀ A q B, dirOrder e o ino ns = A ++ q :: B →
    dirVersion e o ino q = lastVersion e o ino A+1 →
    (∀ r ∈ B.head?, dirVersion e o ino r ≠ dirVersion e o ino q+1) →
    dirVersion e o ino q ≠ 2^32-1 → (B = [] → dirVersion e o ino q = A.length+1) →
    Landing e o ns q

theorem collectdir_outcome (hc : Chain e o 0 ns) (ino : ℕ) (d : List Dir) :
    LoopOutcome e o ns ino 0 True False (dirOrder e o ino ns) (Collect.start d) := by
  have h := (Fresh.start e o ns ino d).outcome hc (k := ns.length)
    (by simpa using List.countP_le_length)
  simpa [dirOrder] using h

/-- Between two versions there are no more entries than versions. -/
theorem add_length_lt (hlt : ∀ p ∈ A ++ q :: B, v < dirVersion e o ino p)
    (hsorted : (A ++ q :: B).Pairwise fun p q => dirVersion e o ino p < dirVersion e o ino q) :
    v+A.length < dirVersion e o ino q := by
  induction A generalizing v with
  | nil => exact hlt q List.mem_cons_self
  | cons a A ih =>
    rw [List.cons_append, List.pairwise_cons] at hsorted
    have := ih hsorted.1 hsorted.2
    have := hlt a List.mem_cons_self
    rw [List.length_cons]
    omega

theorem last_cons (e : Endian) (o : List Byte) (ino v q : ℕ) (A : List ℕ) :
    (q :: A).getLast?.elim v (dirVersion e o ino) =
      A.getLast?.elim (dirVersion e o ino q) (dirVersion e o ino) := by
  rcases List.eq_nil_or_concat A with rfl | ⟨A, a, rfl⟩
  · rfl
  · rw [List.concat_eq_append, ← List.cons_append, List.getLast?_concat, List.getLast?_concat]
    rfl

/-- The condition for the entries that are still to come. -/
theorem ends_iff (hlt : ∀ q ∈ ps, v < dirVersion e o ino q)
    (hsorted : ps.Pairwise fun p q => dirVersion e o ino p < dirVersion e o ino q) :
    Ends e o ns ino v met known ps ↔
      (v = 0 → ∀ q ∈ ps.head?, dirVersion e o ino q ≠ v+1 → dirVersion e o ino q ≠ 2^32-1) ∧
      ((ps = [] → ¬ known ∧ v ≠ 2^32-1) → (∀ q ∈ ps.head?, dirVersion e o ino q ≠ v+1) → met) ∧
      ∀ A q B, ps = A ++ q :: B →
        dirVersion e o ino q = A.getLast?.elim v (dirVersion e o ino)+1 →
        (∀ r ∈ B.head?, dirVersion e o ino r ≠ dirVersion e o ino q+1) →
        dirVersion e o ino q ≠ 2^32-1 →
        (B = [] → ¬ known ∧ dirVersion e o ino q = v+A.length+1) → Landing e o ns q := by
  induction ps generalizing v met known with
  | nil =>
    rw [Ends]
    constructor
    · intro h
      refine ⟨fun _ q hq => absurd hq (by simp), fun hno _ => ?_, fun A q B hps => ?_⟩
      · obtain ⟨hknown, hv⟩ := hno rfl
        exact h.resolve_right fun hh => hh.elim hknown hv
      · simp at hps
    · rintro ⟨-, h, -⟩
      by_contra hno
      rw [not_or, not_or] at hno
      exact hno.1 (h (fun _ => hno.2) fun q hq => absurd hq (by simp))
  | cons q ps ih =>
    have hq := hlt q List.mem_cons_self
    have hqlt := dirVersion_lt e o ino q
    rw [List.pairwise_cons] at hsorted
    have ih' {met known : Prop} := @ih _ met known hsorted.1 hsorted.2
    by_cases hnext : dirVersion e o ino q = v+1
    · rw [Ends, if_pos hnext, ih']
      constructor
      · rintro ⟨-, hland, hrest⟩
        refine ⟨fun _ p hp hne => ?_, fun _ hne => ?_, fun A p B hps hp hB hmax hend => ?_⟩
        · obtain rfl := Option.some.inj hp
          exact absurd hnext hne
        · exact absurd hnext (hne q rfl)
        · cases A with
          | nil =>
            obtain ⟨rfl, rfl⟩ := List.cons.inj hps
            exact hland (fun hps => ⟨(hend hps).1, hmax⟩) hB
          | cons a A =>
            obtain ⟨rfl, rfl⟩ := List.cons.inj hps
            rw [last_cons] at hp
            refine hrest A p B rfl hp hB hmax fun hB => ⟨(hend hB).1, ?_⟩
            have := (hend hB).2
            rw [List.length_cons] at this
            omega
      · rintro ⟨-, -, hrest⟩
        refine ⟨fun h0 => by omega, fun hend hne => ?_, fun A p B hps hp hB hmax hend => ?_⟩
        · refine hrest [] q ps rfl hnext hne ?_ fun hps => ⟨(hend hps).1, hnext⟩
          cases ps with
          | nil => exact (hend rfl).2
          | cons r ps =>
            have := hsorted.1 r List.mem_cons_self
            have := dirVersion_lt e o ino r
            omega
        · refine hrest (q :: A) p B (by rw [hps]; rfl) (by rwa [last_cons]) hB hmax fun hB => ?_
          obtain ⟨hknown, hlen⟩ := hend hB
          refine ⟨hknown, ?_⟩
          rw [List.length_cons]
          omega
    · rw [Ends, if_neg hnext, ih']
      constructor
      · rintro ⟨hmet, hsmall, -, -, hrest⟩
        refine ⟨fun h0 p hp _ => ?_, fun _ _ => hmet, fun A p B hps hp hB hmax hend => ?_⟩
        · obtain rfl := Option.some.inj hp
          exact (hsmall h0).ne
        · cases A with
          | nil =>
            obtain ⟨rfl, rfl⟩ := List.cons.inj hps
            exact absurd hp hnext
          | cons a A =>
            obtain ⟨rfl, rfl⟩ := List.cons.inj hps
            rw [last_cons] at hp
            -- a hole lies before the last entry, so that its version is greater
            refine hrest A p B rfl hp hB hmax fun hB => ?_
            have hlen := (hend hB).2
            have := add_length_lt hsorted.1 hsorted.2
            rw [List.length_cons] at hlen
            omega
      · rintro ⟨hfirst, hmet, hrest⟩
        refine ⟨hmet (fun h => by cases h) fun p hp => ?_, fun h0 => ?_, fun h0 => ?_,
          fun _ _ => trivial, fun A p B hps hp hB hmax hend => ?_⟩
        · obtain rfl := Option.some.inj hp
          exact hnext
        · have := hfirst h0 q rfl hnext
          omega
        · omega
        · refine hrest (q :: A) p B (by rw [hps]; rfl) (by rwa [last_cons]) hB hmax fun hB => ?_
          exact absurd trivial (hend hB).1

theorem dirOrder_sorted (e : Endian) (o : List Byte) (ino : ℕ) (ns : List ℕ) :
    (dirOrder e o ino ns).Pairwise fun p q => dirVersion e o ino p < dirVersion e o ino q :=
  inOrder_pairwise _ _ _ _

theorem listingEnds_iff (e : Endian) (o : List Byte) (ino : ℕ) (ns : List ℕ) :
    Ends e o ns ino 0 True False (dirOrder e o ino ns) ↔ ListingEnds e o ino ns := by
  have hsorted := dirOrder_sorted e o ino ns
  have hpos : ∀ q ∈ dirOrder e o ino ns, 0 < dirVersion e o ino q := fun q hq =>
    (mem_inOrder hq).1
  rw [ends_iff hpos hsorted]
  constructor
  · rintro ⟨hfirst, -, hrest⟩
    refine ⟨fun hmap => ?_, fun A q B hps hq hB hmax hend => ?_⟩
    · obtain ⟨q, hps, hq⟩ := List.map_eq_singleton_iff.mp hmap
      exact hfirst rfl q (by rw [hps]; rfl) (by omega) hq
    · exact hrest A q B hps hq hB hmax fun hB' => ⟨id, by have := hend hB'; omega⟩
  · rintro ⟨hread, hrest⟩
    refine ⟨fun _ q hq _ hmax => ?_, fun _ _ => trivial, fun A q B hps hq hB hmax hend => ?_⟩
    · -- nothing is above the greatest version
      cases hps : dirOrder e o ino ns with
      | nil =>
        rw [hps] at hq
        cases hq
      | cons p ps =>
        rw [hps] at hq hsorted hread
        obtain rfl := Option.some.inj hq
        cases ps with
        | nil => exact hread (by rw [List.map_singleton, hmax])
        | cons r ps =>
          have := (List.pairwise_cons.mp hsorted).1 r List.mem_cons_self
          have := dirVersion_lt e o ino r
          omega
    · exact hrest A q B hps hq hB hmax fun hB' => by have := (hend hB').2; omega

end Listing

section Latest

variable {e : Endian} {o : List Byte} {ns L : List ℕ} {ds : List Dir} {n : RawDirent} {x : Dir}

/-- What an entry of the image is in the list. -/
def RawDirent.dir (n : RawDirent) : Dir := ⟨n.type, n.ino, n.name⟩

theorem mem_putdir (h : (ds.map Dir.name).Nodup) :
    x ∈ putdir ds n ↔ (n.ino ≠ 0 ∧ x = n.dir) ∨ (x ∈ ds ∧ x.name ≠ n.name) := by
  induction ds with
  | nil =>
    rw [putdir]
    by_cases hino : n.ino = 0
    · simp [hino]
    · simp [hino, RawDirent.dir]
  | cons d ds ih =>
    rw [List.map_cons, List.nodup_cons] at h
    have hrest : ∀ y ∈ ds, y.name ≠ d.name := fun y hy heq =>
      h.1 (heq ▸ List.mem_map_of_mem hy)
    rw [putdir]
    by_cases hname : n.name = d.name
    · rw [if_pos hname]
      have hkept : x ∈ d :: ds ∧ x.name ≠ n.name ↔ x ∈ ds := by
        rw [hname]
        constructor
        · rintro ⟨hx, hne⟩
          rcases List.mem_cons.mp hx with rfl | hx
          · exact absurd rfl hne
          · exact hx
        · intro hx
          exact ⟨List.mem_cons_of_mem d hx, hrest x hx⟩
      rw [hkept]
      by_cases hino : n.ino = 0
      · simp [hino]
      · rw [if_pos hino, List.mem_cons, RawDirent.dir, hname]
        simp [hino]
    · rw [if_neg hname, List.mem_cons, ih h.2, List.mem_cons]
      constructor
      · rintro (rfl | hnew | ⟨hx, hne⟩)
        · exact .inr ⟨.inl rfl, Ne.symm hname⟩
        · exact .inl hnew
        · exact .inr ⟨.inr hx, hne⟩
      · rintro (hnew | ⟨rfl | hx, hne⟩)
        · exact .inr (.inl hnew)
        · exact .inl rfl
        · exact .inr (.inr ⟨hx, hne⟩)

theorem putdir_names (h : (ds.map Dir.name).Nodup) : ((putdir ds n).map Dir.name).Nodup := by
  induction ds with
  | nil =>
    rw [putdir]
    split <;> simp
  | cons d ds ih =>
    have hall := h
    rw [List.map_cons, List.nodup_cons] at h
    rw [putdir]
    split
    next hname =>
      split
      · exact hall
      · exact h.2
    next hname =>
      rw [List.map_cons, List.nodup_cons]
      refine ⟨fun hmem => ?_, ih h.2⟩
      obtain ⟨y, hy, heq⟩ := List.mem_map.mp hmem
      rcases (mem_putdir h.2).mp hy with ⟨-, rfl⟩ | ⟨hy, -⟩
      · exact hname heq
      · exact h.1 (heq ▸ List.mem_map_of_mem hy)

/-- Putting entries into an empty list, one after the other. -/
def putAll (e : Endian) (o : List Byte) (L : List ℕ) : List Dir :=
  L.foldl (fun d q => putdir d (rawDirent e o q)) []

theorem putAll_concat (e : Endian) (o : List Byte) (L : List ℕ) (q : ℕ) :
    putAll e o (L ++ [q]) = putdir (putAll e o L) (rawDirent e o q) := by
  rw [putAll, List.foldl_append]
  rfl

theorem putAll_names (e : Endian) (o : List Byte) (L : List ℕ) :
    ((putAll e o L).map Dir.name).Nodup := by
  induction L using List.reverseRecOn with
  | nil => exact List.nodup_nil
  | append_singleton L q ih =>
    rw [putAll_concat]
    exact putdir_names ih

/-- Of each name the last entry counts. -/
theorem mem_putAll : x ∈ putAll e o L ↔ ∃ A q B, L = A ++ q :: B ∧ (rawDirent e o q).ino ≠ 0 ∧
    x = (rawDirent e o q).dir ∧ ∀ r ∈ B, (rawDirent e o r).name ≠ (rawDirent e o q).name := by
  induction L using List.reverseRecOn with
  | nil =>
    constructor
    · intro h
      cases h
    · rintro ⟨A, q, B, hL, -⟩
      simp at hL
  | append_singleton L p ih =>
    rw [putAll_concat, mem_putdir (putAll_names e o L), ih]
    constructor
    · rintro (⟨hino, rfl⟩ | ⟨⟨A, q, B, rfl, hino, rfl, hB⟩, hne⟩)
      · exact ⟨L, p, [], rfl, hino, rfl, fun r hr => absurd hr List.not_mem_nil⟩
      · refine ⟨A, q, B ++ [p], by simp, hino, rfl, fun r hr => ?_⟩
        rcases List.mem_append.mp hr with hr | hr
        · exact hB r hr
        · rw [List.mem_singleton.mp hr]
          exact Ne.symm hne
    · rintro ⟨A, q, B, hL, hino, rfl, hB⟩
      rcases List.eq_nil_or_concat B with rfl | ⟨B, b, rfl⟩
      · obtain ⟨rfl, hq⟩ := List.append_inj' hL rfl
        obtain rfl := (List.cons.inj hq).1
        exact .inl ⟨hino, rfl⟩
      · rw [List.concat_eq_append] at hL hB
        rw [← List.cons_append, ← List.append_assoc] at hL
        obtain ⟨rfl, hb⟩ := List.append_inj' hL rfl
        obtain rfl := (List.cons.inj hb).1
        refine .inr ⟨⟨A, q, B, rfl, hino, rfl, fun r hr => hB r (List.mem_append_left _ hr)⟩, ?_⟩
        exact Ne.symm (hB p (by simp))

/-- A node is the entry with the highest version of its name. -/
def Latest (e : Endian) (o : List Byte) (L : List ℕ) (q : ℕ) : Prop :=
  q ∈ L ∧ ∀ r ∈ L, (rawDirent e o r).name = (rawDirent e o q).name →
    (rawDirent e o r).version ≤ (rawDirent e o q).version

theorem mem_putAll_sorted
    (hsorted : L.Pairwise fun p q => (rawDirent e o p).version < (rawDirent e o q).version) :
    x ∈ putAll e o L ↔ ∃ q, Latest e o L q ∧ (rawDirent e o q).ino ≠ 0 ∧
      x = (rawDirent e o q).dir := by
  rw [mem_putAll]
  constructor
  · rintro ⟨A, q, B, rfl, hino, rfl, hB⟩
    refine ⟨q, ⟨by simp, fun r hr hname => ?_⟩, hino, rfl⟩
    rcases List.mem_append.mp hr with hr | hr
    · exact ((List.pairwise_append.mp hsorted).2.2 r hr q List.mem_cons_self).le
    · rcases List.mem_cons.mp hr with rfl | hr
      · exact le_rfl
      · exact absurd hname (hB r hr)
  · rintro ⟨q, ⟨hq, hlatest⟩, hino, rfl⟩
    obtain ⟨A, B, rfl⟩ := List.append_of_mem hq
    refine ⟨A, q, B, rfl, hino, rfl, fun r hr hname => ?_⟩
    have hlt := (List.pairwise_cons.mp (List.pairwise_append.mp hsorted).2.1).1 r hr
    have hle := hlatest r (List.mem_append_right A (List.mem_cons_of_mem q hr)) hname
    omega

theorem dirVersion_pos (e : Endian) (o : List Byte) (ino q : ℕ) :
    0 < dirVersion e o ino q ↔ IsEntry e o ino q ∧ 0 < (rawDirent e o q).version := by
  rw [dirVersion]
  split
  next h => exact ⟨fun hv => ⟨h, hv⟩, fun hv => hv.2⟩
  next h => exact ⟨fun hv => absurd hv (Nat.lt_irrefl 0), fun hv => absurd hv.1 h⟩

/-- The loop has one result. -/
theorem Returns.unique {s : Collect} {ds' : List Dir} {ino : ℕ} (h : Returns e o ino s ds)
    (h' : Returns e o ino s ds') : ds = ds' := by
  obtain ⟨k, hk⟩ := h
  obtain ⟨k', hk'⟩ := h'
  induction k generalizing s k' with
  | zero => cases hk
  | succ k ih =>
    cases k' with
    | zero => cases hk'
    | succ k' =>
      rw [collectLoop] at hk hk'
      obtain ⟨t, ht, hk⟩ := Option.bind_eq_some_iff.mp hk
      obtain ⟨t', ht', hk'⟩ := Option.bind_eq_some_iff.mp hk'
      obtain rfl := Option.some.inj (ht.symm.trans ht')
      split at hk
      next hlt =>
        rw [if_pos hlt] at hk'
        exact ih hk k' hk'
      next hge =>
        rw [if_neg hge] at hk'
        exact Option.some.inj (hk.symm.trans hk')

/-- A directory is what its entries make of it in the order of their versions, wherever they are in
the image. -/
theorem collectdir_in_order (e : Endian) (o : List Byte) (ns : List ℕ) (hc : Chain e o 0 ns)
    (ino : ℕ)
    (hrange : ∀ q ∈ ns, IsEntry e o ino q →
      1 ≤ (rawDirent e o q).version ∧ (rawDirent e o q).version ≤ 2^32-2)
    (L : List ℕ) (hperm : L.Perm (ns.filter (IsEntry e o ino)))
    (hsorted : L.Pairwise fun p q => (rawDirent e o p).version < (rawDirent e o q).version)
    (fuel : ℕ) (ds : List Dir) (hrun : collectdir e o fuel ino [] = some ds) :
    ds = L.foldl (fun d q => putdir d (rawDirent e o q)) [] ∧ (ds.map Dir.name).Nodup ∧
      ∀ x, x ∈ ds ↔ ∃ q, Latest e o L q ∧ (rawDirent e o q).ino ≠ 0 ∧
        x = (rawDirent e o q).dir := by
  have hmem : ∀ q ∈ L, q ∈ ns ∧ IsEntry e o ino q := by
    intro q hq
    simpa using hperm.subset hq
  have hver : ∀ q, IsEntry e o ino q → dirVersion e o ino q = (rawDirent e o q).version :=
    fun q hq => if_pos hq
  have hfilter : ns.filter (0 < dirVersion e o ino ·) = ns.filter (IsEntry e o ino) := by
    apply List.filter_congr
    intro q hq
    rw [decide_eq_decide, dirVersion_pos]
    exact ⟨And.left, fun h => ⟨h, (hrange q hq h).1⟩⟩
  have horder : dirOrder e o ino ns = L := by
    apply inOrder_eq_sorted List.countP_le_length
    · intro x hx y hy hx0 heq
      have hxe := ((dirVersion_pos e o ino x).mp hx0).1
      have hye := ((dirVersion_pos e o ino y).mp (heq ▸ hx0)).1
      rw [hver x hxe, hver y hye] at heq
      have hin : ∀ {z : ℕ}, z ∈ ns → IsEntry e o ino z → z ∈ L := fun hz hze =>
        hperm.mem_iff.mpr (List.mem_filter.mpr ⟨hz, by simpa using hze⟩)
      exact @eq_of_increasing _ (fun q => (rawDirent e o q).version) _ hsorted _ _ (hin hx hxe)
        (hin hy hye) heq
    · rwa [hfilter]
    · refine hsorted.imp_of_mem fun {p q} hp hq hlt => ?_
      rwa [hver p (hmem p hp).2, hver q (hmem q hq).2]
  have hout := collectdir_outcome hc ino []
  rw [horder] at hout
  have hreturns : Returns e o ino (Collect.start []) ds := ⟨fuel, hrun⟩
  have hds : ds = putAll e o L := by
    by_cases hends : Ends e o ns ino 0 True False L
    · obtain ⟨ds', hds', hfold⟩ := hout.1 hends
      rw [hreturns.unique hds']
      refine hfold fun q hq => ?_
      have := (hrange q (hmem q hq).1 (hmem q hq).2).2
      rw [hver q (hmem q hq).2]
      omega
    · exact absurd hreturns (hout.2 hends ds)
  rw [hds]
  exact ⟨rfl, putAll_names e o L, fun x => mem_putAll_sorted hsorted⟩

end Latest

section Ending

/-- `collectdir` ends just when it comes again to each place that it waits for; `find_raw_inode`
always ends. -/
theorem listing_ends_iff (e : Endian) (o : List Byte) (ns : List ℕ) (hc : Chain e o 0 ns) (ino : ℕ)
    (d : List Dir) :
    ((∃ fuel ds, collectdir e o fuel ino d = some ds) ∧
      ∃ fuel found, findRawInode e o ino fuel 0 (2^32-1) 0 none = some found) ↔
      ListingEnds e o ino ns := by
  obtain ⟨hyes, hno⟩ := collectdir_outcome hc ino d
  rw [listingEnds_iff] at hyes hno
  constructor
  · rintro ⟨⟨fuel, ds, hrun⟩, -⟩
    by_contra hends
    exact hno hends ds ⟨fuel, hrun⟩
  · intro hends
    obtain ⟨ds, ⟨fuel, hrun⟩, -⟩ := hyes hends
    exact ⟨⟨fuel, ds, hrun⟩, ns.length+1, foundInode e o ino ns,
      findRawInode_found hc ino (Nat.lt_succ_self _)⟩

/-- A directory entry of the root. -/
def rootEntry (version ino : ℕ) (name : Byte) : List Byte :=
  (Node.dirent ⟨1, version, ino, 0, 8, (0, 0), [name]⟩).encode .little ++ List.replicate 3 0xff#8

/-- The second entry of the root before the first, with a gap between them. -/
def listedImage : List Byte :=
  rootEntry 2 5 0x62#8 ++ List.replicate 4 0xff#8 ++ rootEntry 1 4 0x61#8

/-- The only entry of the root behind a gap. -/
def hangingImage : List Byte := List.replicate 4 0xff#8 ++ rootEntry 1 4 0x61#8

/-- The entries of these images, and the list that is made of the first. -/
theorem images_read :
    chainOf .little listedImage 5 0 = some [0, 48] ∧
      (∀ q ∈ [0, 48], IsEntry .little listedImage 1 q ∧
        1 ≤ (rawDirent .little listedImage q).version ∧
        (rawDirent .little listedImage q).version ≤ 2^32-2) ∧
      (rawDirent .little listedImage 48).version < (rawDirent .little listedImage 0).version ∧
      collectdir .little listedImage 20 1 [] = some [⟨8, 4, [0x61#8]⟩, ⟨8, 5, [0x62#8]⟩] ∧
      (findRawInode .little listedImage 1 20 0 (2^32-1) 0 none).isSome = true ∧
      chainOf .little hangingImage 5 0 = some [4] ∧ dirOrder .little hangingImage 1 [4] = [4] ∧
      dirVersion .little hangingImage 1 4 = 1 ∧ ¬ Landing .little hangingImage [4] 4 := by
  decide +kernel

theorem collectdir_in_order_two :
    collectdir .little listedImage 20 1 [] = some [⟨8, 4, [0x61#8]⟩, ⟨8, 5, [0x62#8]⟩] ∧
      [⟨8, 4, [0x61#8]⟩, ⟨8, 5, [0x62#8]⟩] =
        [48, 0].foldl (fun d q => putdir d (rawDirent .little listedImage q)) [] := by
  obtain ⟨hchain, hentries, hver, hrun, -⟩ := images_read
  have hfilter : [0, 48].filter (IsEntry .little listedImage 1) = [0, 48] := by
    rw [List.filter_eq_self]
    intro q hq
    simpa using (hentries q hq).1
  refine ⟨hrun, (collectdir_in_order .little listedImage [0, 48] (chain_of_chainOf hchain) 1
    (fun q hq _ => (hentries q hq).2) [48, 0] ?_ ?_ 20 _ hrun).1⟩
  · rw [hfilter]
    exact List.Perm.swap 0 48 []
  · exact List.pairwise_pair.mpr hver

theorem listing_ends_two : ListingEnds .little listedImage 1 [0, 48] := by
  obtain ⟨hchain, -, -, hrun, hfound, -⟩ := images_read
  obtain ⟨found, hfound⟩ := Option.isSome_iff_exists.mp hfound
  exact (listing_ends_iff .little listedImage [0, 48] (chain_of_chainOf hchain) 1 []).mp
    ⟨⟨20, _, hrun⟩, 20, found, hfound⟩

/-- With one entry behind a gap the loop does not end. -/
theorem listing_hangs : ¬ ∀ (e : Endian) (o : List Byte) (ns : List ℕ), Chain e o 0 ns →
    ∀ (ino : ℕ) (d : List Dir), (∃ fuel ds, collectdir e o fuel ino d = some ds) ∧
      ∃ fuel found, findRawInode e o ino fuel 0 (2^32-1) 0 none = some found := by
  intro h
  obtain ⟨-, -, -, -, -, hchain, horder, hver, haway⟩ := images_read
  have hc := chain_of_chainOf hchain
  obtain ⟨⟨fuel, ds, hrun⟩, -⟩ := h .little hangingImage [4] hc 1 []
  have hout := (collectdir_outcome hc 1 []).2
  rw [listingEnds_iff] at hout
  refine hout (fun hends => haway ?_) ds ⟨fuel, hrun⟩
  refine hends.landing [] 4 [] horder ?_ ?_ ?_ ?_
  · rw [hver]
    rfl
  · intro r hr
    cases hr
  · rw [hver]
    decide
  · intro _
    rw [hver]
    rfl

end Ending

end ChipTools.Jffs2
