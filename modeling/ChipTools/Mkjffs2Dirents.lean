import ChipTools.Mkjffs2Image

/-! The directory entries of an image of `mkfs.jffs2`: one for each entry of the tree, in the order of
the walk, with versions that count from 0. -/
namespace ChipTools.Jffs2
open Bytes Loop

section Added

def direntsOf (ws : List Write) : List Dirent :=
  ws.filterMap fun
    | .node (.dirent d) => some d
    | _ => none

/-- The nodes start at whole words. -/
structure Aligned (ws : List Write) : Prop where
  nodes : ∀ o n, At ws o n → o%4 = 0 ∧ n.Padded
  next : outOfs ws%4 = 0
  small : outOfs ws ≤ 2^31

/-- What a writer does to the image: it adds some directory entries and other nodes. -/
structure Added (ws ws' : List Write) (ds : List Dirent) : Prop where
  aligned : Aligned ws → Aligned ws'
  dirents : direntsOf ws' = direntsOf ws ++ ds
  grows : outOfs ws+40*ds.length ≤ outOfs ws'

variable {cfg : Config} {ws ws₁ ws' : List Write} {ds ds' : List Dirent} {n : Node}

theorem direntsOf_append (ws vs : List Write) :
    direntsOf (ws ++ vs) = direntsOf ws ++ direntsOf vs := List.filterMap_append

theorem mem_direntsOf {d : Dirent} {o : ℕ} (h : At ws o (.dirent d)) : d ∈ direntsOf ws := by
  obtain ⟨pre, post, rfl, -⟩ := h
  rw [direntsOf_append]
  exact List.mem_append_right _ List.mem_cons_self

theorem Added.refl (ws : List Write) : Added ws ws [] :=
  ⟨id, (List.append_nil _).symm, le_rfl⟩

theorem Added.trans (h : Added ws ws₁ ds) (h' : Added ws₁ ws' ds') : Added ws ws' (ds ++ ds') := by
  refine ⟨fun ha => h'.aligned (h.aligned ha), ?_, ?_⟩
  · rw [h'.dirents, h.dirents, List.append_assoc]
  · have := h.grows
    have := h'.grows
    rw [List.length_append]
    omega

/-- Writers that add no directory entry, one after the other. -/
theorem Added.trans_nil (h : Added ws ws₁ []) (h' : Added ws₁ ws' ds) : Added ws ws' ds :=
  h.trans h'

theorem fullWrite_small {w : Write} (h : fullWrite w ws = .ok ws') : outOfs ws' < 2^31 := by
  unfold fullWrite at h
  split at h
  next hlt =>
    obtain rfl := Except.ok.inj h
    rw [outOfs_append]
    exact hlt
  next => cases h

theorem aligned_ff {k : ℕ} (h : Aligned ws) (hrun : fullWrite (.ff k) ws = .ok ws')
    (hnext : outOfs ws'%4 = 0) : Aligned ws' := by
  have hsmall := fullWrite_small hrun
  obtain rfl := fullWrite_ok hrun
  exact ⟨fun o n hat => h.nodes o n (at_ff.mp hat), hnext, hsmall.le⟩

theorem padblock_added (h4 : cfg.erase_block_size%4 = 0) (hrun : padblock cfg ws = .ok ws') :
    Added ws ws' [] := by
  have hpos : 0 < cfg.erase_block_size := Nat.lt_of_lt_of_le (by decide) cfg.block_min
  unfold padblock at hrun
  split at hrun
  next =>
    obtain rfl := Except.ok.inj hrun
    exact Added.refl ws
  next =>
    have heq := fullWrite_ok hrun
    have hofs : outOfs ws' = cfg.erase_block_size*(outOfs ws/cfg.erase_block_size+1) := by
      have hlt := Nat.mod_lt (outOfs ws) hpos
      have hdiv := Nat.div_add_mod (outOfs ws) cfg.erase_block_size
      rw [heq, outOfs_append, outOfs_ff, Nat.mul_succ]
      omega
    refine ⟨fun h => aligned_ff h hrun ?_, ?_, ?_⟩
    · rw [hofs, Nat.mul_mod, h4, Nat.zero_mul, Nat.zero_mod]
    · rw [heq, direntsOf_append]
      rfl
    · rw [heq, outOfs_append]
      exact Nat.le_add_right _ _

/-- A node at a whole word, with bytes up to the next one. -/
theorem writeNode_added (hn : n.Padded) (hrun : writeNode n ws = .ok ws') :
    Added ws ws' (direntsOf [.node n]) := by
  obtain ⟨ws₁, h₁, h₂⟩ := bind_eq_ok hrun
  have hsmall := fullWrite_small h₁
  have heq := fullWrite_ok h₁
  obtain ⟨fill, hfill, rfl, hofs⟩ := padword_ok h₂
  have hlen : outOfs ws₁ = outOfs ws+n.stored := by rw [heq, outOfs_append, outOfs_node]
  have hat {o : ℕ} {m : Node} : At (ws₁ ++ fill) o m ↔ At ws o m ∨ (o = outOfs ws ∧ m = n) := by
    rcases hfill with rfl | ⟨k, rfl⟩
    · rw [List.append_nil, heq, at_node]
    · rw [at_ff, heq, at_node]
  have hds : direntsOf fill = [] := by
    rcases hfill with rfl | ⟨k, rfl⟩ <;> rfl
  refine ⟨fun h => ⟨fun o m hm => ?_, ?_, ?_⟩, ?_, ?_⟩
  · rcases hat.mp hm with hm | ⟨rfl, rfl⟩
    · exact h.nodes o m hm
    · exact ⟨h.next, hn⟩
  · rw [hofs]
    exact Nat.mul_mod_left _ _
  · rw [hofs]
    unfold pad4
    omega
  · rw [direntsOf_append, heq, direntsOf_append, hds, List.append_nil]
  · have hle := le_pad4_self (outOfs ws₁)
    have hdirent : 40*(direntsOf [.node n]).length ≤ n.stored := by
      cases n with
      | dirent d =>
        change 40*1 ≤ 40+d.name.length
        omega
      | _ => exact Nat.zero_le _
    omega

theorem startBlock_added (hrun : startBlock cfg ws = .ok ws') : Added ws ws' [] := by
  unfold startBlock at hrun
  split at hrun
  next => exact writeNode_added (n := cleanmarker cfg) (le_pad4_self _) hrun
  next =>
    obtain rfl := Except.ok.inj hrun
    exact Added.refl ws

theorem padBlockIfLessThan_added (h4 : cfg.erase_block_size%4 = 0) {req : ℕ}
    (hrun : padBlockIfLessThan cfg req ws = .ok ws') : Added ws ws' [] := by
  obtain ⟨ws₁, h₁, hrun⟩ := bind_eq_ok hrun
  obtain ⟨ws₂, h₂, h₃⟩ := bind_eq_ok hrun
  have hroom : Added ws₁ ws₂ [] := by
    unfold makeRoom at h₂
    split at h₂
    next => exact padblock_added h4 h₂
    next =>
      obtain rfl := Except.ok.inj h₂
      exact Added.refl _
  exact ((startBlock_added h₁).trans_nil hroom).trans_nil (startBlock_added h₃)

theorem putNode_added (h4 : cfg.erase_block_size%4 = 0) {req : ℕ} (hn : n.Padded)
    (hrun : putNode cfg req n ws = .ok ws') : Added ws ws' (direntsOf [.node n]) := by
  obtain ⟨ws₁, h₁, h₂⟩ := bind_eq_ok hrun
  exact (padBlockIfLessThan_added h4 h₁).trans_nil (writeNode_added hn h₂)

end Added

section Numbers

/-- An entry of the tree with the inode numbers that it and its directory have in the image. -/
structure Listed where
  pino : ℕ
  entry : HostEntry
  ino : ℕ

/-- The directory entries, with versions that count on. -/
def numbered (version : ℕ) : List Listed → List Dirent
  | [] => []
  | x :: xs => direntOf x.pino version x.ino x.entry :: numbered (version+1) xs

/-- The inode numbers that were given are above the one of the root. -/
structure Sane (s : Mkfs) : Prop where
  root : 1 ≤ s.ino
  links : ∀ x ∈ s.hardlinks, x.2 = 0 ∨ (2 ≤ x.2 ∧ x.2 ≤ s.ino)

/-- No entry with a number was met. -/
def NoneMet (s : Mkfs) : Prop := ∀ x ∈ s.hardlinks, x.2 = 0

/-- What a part of the walk does: entries get the next versions, and numbers of their own. -/
structure Enters (s s' : Mkfs) (xs : List Listed) : Prop where
  added : Added s.writes s'.writes (numbered s.version xs)
  version : s'.version = s.version+xs.length
  mono : s.ino ≤ s'.ino
  bound : s'.ino ≤ s.ino+xs.length
  sane : Sane s → Sane s' ∧ ∀ x ∈ xs, 2 ≤ x.ino ∧ x.ino ≤ s'.ino
  none : xs = [] → NoneMet s → NoneMet s'

variable {cfg : Config} {s s₁ s' : Mkfs} {xs ys : List Listed}

theorem numbered_append (v : ℕ) (xs ys : List Listed) :
    numbered v (xs ++ ys) = numbered v xs ++ numbered (v+xs.length) ys := by
  induction xs generalizing v with
  | nil => rfl
  | cons x xs ih =>
    rw [List.cons_append, numbered, ih, numbered, List.cons_append, List.length_cons]
    congr 3
    omega

theorem numbered_length (v : ℕ) (xs : List Listed) : (numbered v xs).length = xs.length := by
  induction xs generalizing v with
  | nil => rfl
  | cons x xs ih => rw [numbered, List.length_cons, ih, List.length_cons]

/-- A directory entry is one of the walk, and only the first has the first version. -/
theorem mem_numbered {v : ℕ} {d : Dirent} (h : d ∈ numbered v xs) :
    ∃ k x, xs[k]? = some x ∧ d = direntOf x.pino (v+k) x.ino x.entry := by
  induction xs generalizing v with
  | nil => cases h
  | cons x xs ih =>
    rcases List.mem_cons.mp h with rfl | h
    · exact ⟨0, x, rfl, rfl⟩
    · obtain ⟨k, y, hk, rfl⟩ := ih h
      exact ⟨k+1, y, hk, by rw [Nat.add_assoc, Nat.add_comm 1 k]⟩

theorem Enters.refl (s : Mkfs) : Enters s s [] :=
  ⟨Added.refl _, rfl, le_rfl, le_rfl, fun h => ⟨h, fun _ hx => by cases hx⟩, fun _ h => h⟩

theorem Enters.trans (h : Enters s s₁ xs) (h' : Enters s₁ s' ys) : Enters s s' (xs ++ ys) := by
  have hmono := h'.mono
  have hbound := h.bound
  have hbound' := h'.bound
  refine ⟨?_, ?_, h.mono.trans hmono, ?_, fun hs => ?_, fun hnil hs => ?_⟩
  · rw [numbered_append, ← h.version]
    exact h.added.trans h'.added
  · rw [h'.version, h.version, List.length_append, Nat.add_assoc]
  · rw [List.length_append]
    omega
  · obtain ⟨hs₁, hxs⟩ := h.sane hs
    obtain ⟨hs', hys⟩ := h'.sane hs₁
    refine ⟨hs', fun x hx => ?_⟩
    rcases List.mem_append.mp hx with hx | hx
    · obtain ⟨h2, hle⟩ := hxs x hx
      exact ⟨h2, hle.trans hmono⟩
    · exact hys x hx
  · obtain ⟨hx, hy⟩ := List.append_eq_nil_iff.mp hnil
    exact h'.none hy (h.none hx hs)

/-- A step that adds no entry. -/
theorem Enters.of_added {ws : List Write} (h : Added s.writes ws []) :
    Enters s (s.withWrites ws) [] :=
  ⟨h, rfl, le_rfl, le_rfl, fun hs => ⟨⟨hs.root, hs.links⟩, fun _ hx => by cases hx⟩, fun _ hs => hs⟩

/-- A step that changes none of the variables that matter here. -/
theorem Enters.of_eq (hw : s'.writes = s.writes) (hv : s'.version = s.version)
    (hi : s'.ino = s.ino) (hl : s'.hardlinks = s.hardlinks) : Enters s s' [] := by
  refine ⟨?_, hv, hi.ge, hi.le, fun hs => ⟨⟨?_, ?_⟩, fun _ hx => by cases hx⟩, fun _ hs => ?_⟩
  · rw [hw]
    exact Added.refl _
  · rw [hi]
    exact hs.root
  · rw [hi, hl]
    exact hs.links
  · rw [NoneMet, hl]
    exact hs

theorem put_enters (h4 : cfg.erase_block_size%4 = 0) {req : ℕ} {n : Node}
    (hrun : s.put cfg req n = .ok s') (hn : n.Padded) (hno : direntsOf [.node n] = []) :
    Enters s s' [] := by
  obtain ⟨ws, h₁, h₂⟩ := bind_eq_ok hrun
  obtain rfl := Except.ok.inj h₂
  have hadd := putNode_added h4 hn h₁
  rw [hno] at hadd
  exact Enters.of_added hadd

theorem writeDirent_ok (h4 : cfg.erase_block_size%4 = 0) {pino ino : ℕ} {e : HostEntry}
    (hrun : writeDirent cfg pino ino e s = .ok s') :
    ∃ ws, s' = { s with writes := ws, version := s.version+1 } ∧
      Added s.writes ws [direntOf pino s.version ino e] := by
  obtain ⟨s₁, h₁, h₂⟩ := bind_eq_ok hrun
  obtain rfl := Except.ok.inj h₂
  obtain ⟨ws, h₃, h₄⟩ := bind_eq_ok h₁
  obtain rfl := Except.ok.inj h₄
  exact ⟨ws, rfl, putNode_added h4 (le_pad4_self _) h₃⟩

/-- A directory entry for a number that is taken. -/
theorem writeDirent_enters (h4 : cfg.erase_block_size%4 = 0) {pino ino : ℕ} {e : HostEntry}
    (hino : Sane s → 2 ≤ ino ∧ ino ≤ s.ino) (hrun : writeDirent cfg pino ino e s = .ok s') :
    Enters s s' [⟨pino, e, ino⟩] := by
  obtain ⟨ws, rfl, hadd⟩ := writeDirent_ok h4 hrun
  refine ⟨hadd, rfl, le_rfl, Nat.le_add_right _ _, fun hs => ⟨⟨hs.root, hs.links⟩, fun x hx => ?_⟩,
    fun h => by cases h⟩
  obtain rfl := List.mem_singleton.mp hx
  exact hino hs

/-- A directory entry for a new number. -/
theorem newDirent_enters (h4 : cfg.erase_block_size%4 = 0) {pino : ℕ} {e : HostEntry}
    (hrun : writeDirent cfg pino (s.ino+1) e { s with ino := s.ino+1 } = .ok s') :
    Enters s s' [⟨pino, e, s.ino+1⟩] := by
  obtain ⟨ws, rfl, hadd⟩ := writeDirent_ok h4 hrun
  refine ⟨hadd, rfl, Nat.le_succ _, le_rfl, fun hs => ⟨⟨?_, fun x hx => ?_⟩, fun x hx => ?_⟩,
    fun h => by cases h⟩
  · exact hs.root.trans (Nat.le_succ _)
  · rcases hs.links x hx with h0 | ⟨h2, hle⟩
    · exact .inl h0
    · exact .inr ⟨h2, hle.trans (Nat.le_succ _)⟩
  · obtain rfl := List.mem_singleton.mp hx
    exact ⟨Nat.succ_le_succ hs.root, le_rfl⟩

theorem writeChunk_added (h4 : cfg.erase_block_size%4 = 0) {e : HostEntry} {ino k : ℕ}
    {tbuf : List Byte} {ver offset : ℕ} {ws : List Write} {r : ℕ × ℕ × List Write}
    (hrun : writeChunk cfg e ino k tbuf ver offset ws = .ok r) : Added ws r.2.2 [] := by
  induction k generalizing tbuf ver offset ws with
  | zero =>
    cases tbuf with
    | nil =>
      obtain rfl := Except.ok.inj hrun
      exact Added.refl ws
    | cons b bs => cases hrun
  | succ k ih =>
    cases tbuf with
    | nil =>
      obtain rfl := Except.ok.inj hrun
      exact Added.refl ws
    | cons b bs =>
      obtain ⟨ws₁, h₁, hrun⟩ := bind_eq_ok hrun
      obtain ⟨ws₂, h₂, hrun⟩ := bind_eq_ok hrun
      have hnode : Added ws₁ ws₂ [] := writeNode_added (le_pad4_self _) h₂
      exact ((padBlockIfLessThan_added h4 h₁).trans_nil hnode).trans_nil (ih hrun)

theorem writeChunks_added (h4 : cfg.erase_block_size%4 = 0) {e : HostEntry} {ino : ℕ}
    {reads : List (List Byte)} {ver offset : ℕ} {ws : List Write} {r : ℕ × List Write}
    (hrun : writeChunks cfg e ino reads ver offset ws = .ok r) : Added ws r.2 [] := by
  induction reads generalizing ver offset ws with
  | nil =>
    obtain rfl := Except.ok.inj hrun
    exact Added.refl ws
  | cons buf reads ih =>
    obtain ⟨⟨ver₁, offset₁, ws₁⟩, h₁, h₂⟩ := bind_eq_ok hrun
    exact (writeChunk_added h4 h₁).trans_nil (ih h₂)

/-- A regular file that `mkfs.jffs2` leaves out. -/
def HostEntry.Skipped (e : HostEntry) : Prop :=
  ¬(e.iftodt = DT_DIR ∨ e.iftodt = DT_SOCK ∨ e.iftodt = DT_FIFO) ∧
    ¬(e.iftodt = DT_CHR ∨ e.iftodt = DT_BLK) ∧ e.iftodt ≠ DT_LNK ∧
    JFFS2_MAX_FILE_SIZE ≤ e.sb.st_size

/-- The entry that a result of a writer stands for. -/
def listedOf (pino : ℕ) (e : HostEntry) (ino : ℕ) : List Listed :=
  if ino = 0 then [] else [⟨pino, e, ino⟩]

theorem writeRegularFile_enters (h4 : cfg.erase_block_size%4 = 0) {pino : ℕ} {e : HostEntry}
    {r : ℕ × Mkfs} (hrun : writeRegularFile cfg pino e s = .ok r) :
    Enters s r.2 (listedOf pino e r.1) ∧ (r.1 = 0 ↔ JFFS2_MAX_FILE_SIZE ≤ e.sb.st_size) := by
  unfold writeRegularFile at hrun
  split at hrun
  next hsize =>
    obtain rfl := Except.ok.inj hrun
    exact ⟨Enters.refl s, fun _ => hsize, fun _ => rfl⟩
  next hsize =>
    obtain ⟨s₁, h₁, hrun⟩ := bind_eq_ok hrun
    obtain ⟨⟨ver, ws⟩, h₂, hrun⟩ := bind_eq_ok hrun
    have hdata := (newDirent_enters h4 h₁).trans (Enters.of_added (writeChunks_added h4 h₂))
    have hne : s.ino+1 = 0 ↔ JFFS2_MAX_FILE_SIZE ≤ e.sb.st_size :=
      ⟨fun h => absurd h (Nat.succ_ne_zero _), fun h => absurd h hsize⟩
    dsimp only at hrun
    split at hrun
    next =>
      obtain ⟨s₂, h₃, hrun⟩ := bind_eq_ok hrun
      obtain rfl := Except.ok.inj hrun
      have hlast : Enters (s₁.withWrites ws) s₂ [] := put_enters h4 h₃ (le_pad4_self _) rfl
      exact ⟨hdata.trans hlast, hne⟩
    next =>
      obtain rfl := Except.ok.inj hrun
      exact ⟨hdata, hne⟩

theorem writeSingle_enters (h4 : cfg.erase_block_size%4 = 0) {pino isize : ℕ} {data : List Byte}
    {e : HostEntry} {r : ℕ × Mkfs} (hrun : writeSingle cfg pino isize data e s = .ok r) :
    Enters s r.2 (listedOf pino e r.1) ∧ r.1 ≠ 0 := by
  obtain ⟨s₁, h₁, hrun⟩ := bind_eq_ok hrun
  obtain ⟨s₂, h₂, hrun⟩ := bind_eq_ok hrun
  obtain rfl := Except.ok.inj hrun
  have hnode : Enters s₁ s₂ [] := put_enters h4 h₂ (le_pad4_self _) rfl
  exact ⟨(newDirent_enters h4 h₁).trans hnode, Nat.succ_ne_zero _⟩

theorem findXattrEntry_enters (h4 : cfg.erase_block_size%4 = 0) {x : HostXattr} {r : ℕ × Mkfs}
    (hrun : findXattrEntry cfg x s = .ok r) : Enters s r.2 [] := by
  unfold findXattrEntry at hrun
  split at hrun
  next =>
    obtain rfl := Except.ok.inj hrun
    exact Enters.refl s
  next =>
    obtain ⟨s₁, h₁, hrun⟩ := bind_eq_ok hrun
    obtain rfl := Except.ok.inj hrun
    have h : Enters s s₁ [] := put_enters h4 h₁ (xattrOf_padded _ x) rfl
    exact h.trans (Enters.of_eq rfl rfl rfl rfl)

theorem writeXattrEntry_enters (h4 : cfg.erase_block_size%4 = 0) {ino : ℕ} {xattrs : List HostXattr}
    (hrun : writeXattrEntry cfg ino xattrs s = .ok s') : Enters s s' [] := by
  induction xattrs generalizing s with
  | nil =>
    obtain rfl := Except.ok.inj hrun
    exact Enters.refl s
  | cons x xattrs ih =>
    obtain ⟨⟨xid, s₁⟩, h₁, hrun⟩ := bind_eq_ok hrun
    obtain ⟨s₂, h₂, hrun⟩ := bind_eq_ok hrun
    have hfind : Enters s s₁ [] := findXattrEntry_enters h4 h₁
    have href : Enters s₁ s₂ [] := put_enters h4 h₂ (le_pad4_self _) rfl
    have hseq : Enters s₂ { s₂ with highest_xseqno := s₂.highest_xseqno+2 } [] :=
      Enters.of_eq rfl rfl rfl rfl
    exact ((hfind.trans href).trans hseq).trans (ih hrun)

theorem writeKind_enters (h4 : cfg.erase_block_size%4 = 0) {pino : ℕ} {e : HostEntry}
    {r : ℕ × Mkfs} (hrun : writeKind cfg pino e s = .ok r) :
    Enters s r.2 (listedOf pino e r.1) ∧ (r.1 = 0 ↔ e.Skipped) := by
  unfold writeKind at hrun
  unfold HostEntry.Skipped
  split at hrun
  next hk =>
    obtain ⟨h, hne⟩ := writeSingle_enters h4 hrun
    exact ⟨h, fun h0 => absurd h0 hne, fun hs => absurd hk hs.1⟩
  next hk =>
    split at hrun
    next hk' =>
      obtain ⟨h, hne⟩ := writeSingle_enters h4 hrun
      exact ⟨h, fun h0 => absurd h0 hne, fun hs => absurd hk' hs.2.1⟩
    next hk' =>
      split at hrun
      next hl =>
        obtain ⟨h, hne⟩ := writeSingle_enters h4 hrun
        exact ⟨h, fun h0 => absurd h0 hne, fun hs => absurd hl hs.2.2.1⟩
      next hl =>
        obtain ⟨h, hiff⟩ := writeRegularFile_enters h4 hrun
        exact ⟨h, fun h0 => ⟨hk, hk', hl, hiff.mp h0⟩, fun hs => hiff.mpr hs.2.2.2⟩

theorem writeNew_enters (h4 : cfg.erase_block_size%4 = 0) {pino : ℕ} {e : HostEntry}
    {r : ℕ × Mkfs} (hrun : writeNew cfg pino e s = .ok r) :
    Enters s r.2 (listedOf pino e r.1) ∧ (r.1 = 0 ↔ e.Skipped) := by
  obtain ⟨⟨ino, s₁⟩, h₁, hrun⟩ := bind_eq_ok hrun
  obtain ⟨s₂, h₂, hrun⟩ := bind_eq_ok hrun
  obtain rfl := Except.ok.inj hrun
  obtain ⟨hkind, hiff⟩ := writeKind_enters h4 h₁
  have h := hkind.trans (writeXattrEntry_enters h4 h₂)
  rw [List.append_nil] at h
  refine ⟨⟨h.added, h.version, h.mono, h.bound, fun hs => ?_, fun hnil hs => ?_⟩, hiff⟩
  · obtain ⟨hs₂, hmem⟩ := h.sane hs
    refine ⟨⟨hs₂.root, fun x hx => ?_⟩, hmem⟩
    rcases List.mem_cons.mp hx with rfl | hx
    · by_cases h0 : ino = 0
      · exact .inl h0
      · refine .inr (hmem ⟨pino, e, ino⟩ ?_)
        rw [listedOf, if_neg h0]
        exact List.mem_singleton_self _
    · exact hs₂.links x hx
  · intro x hx
    rcases List.mem_cons.mp hx with rfl | hx
    · by_contra h0
      rw [listedOf, if_neg h0] at hnil
      cases hnil
    · exact h.none hnil hs x hx

/-- An entry is listed unless it is left out. -/
theorem writeEntry_enters (h4 : cfg.erase_block_size%4 = 0) {pino : ℕ} {e : HostEntry}
    {r : ℕ × Mkfs} (hrun : writeEntry cfg pino e s = .ok r) :
    Enters s r.2 (listedOf pino e r.1) ∧ (¬e.Skipped → r.1 ≠ 0) ∧
      (e.Skipped → NoneMet s → r.1 = 0) := by
  unfold writeEntry at hrun
  split at hrun
  next =>
    obtain ⟨h, hiff⟩ := writeNew_enters h4 hrun
    exact ⟨h, fun hk h0 => hk (hiff.mp h0), fun hk _ => hiff.mpr hk⟩
  next ino hne hlink =>
    obtain ⟨s₁, h₁, hrun⟩ := bind_eq_ok hrun
    obtain rfl := Except.ok.inj hrun
    have hne : ino ≠ 0 := hne
    obtain ⟨before, after, hsplit, -⟩ := List.lookup_eq_some_iff.mp hlink
    have hx : ((e.sb.st_dev, e.sb.st_ino), ino) ∈ s.hardlinks := by
      rw [hsplit]
      exact List.mem_append_right before List.mem_cons_self
    refine ⟨?_, fun _ => hne, fun _ hs => hs _ hx⟩
    change Enters s s₁ (listedOf pino e ino)
    rw [listedOf, if_neg hne]
    refine writeDirent_enters h4 (fun hs => ?_) h₁
    rcases hs.links _ hx with h0 | h
    · exact absurd h0 hne
    · exact h
  next =>
    obtain ⟨h, hiff⟩ := writeNew_enters h4 hrun
    exact ⟨h, fun hk h0 => hk (hiff.mp h0), fun hk _ => hiff.mpr hk⟩

/-- The entries of a directory with their numbers. -/
def listedAll (pino : ℕ) : List ℕ → List HostEntry → List Listed
  | ino :: inos, e :: es => listedOf pino e ino ++ listedAll pino inos es
  | _, _ => []

theorem writeEntries_enters (h4 : cfg.erase_block_size%4 = 0) {pino : ℕ} {files : List HostEntry}
    {r : List ℕ × Mkfs} (hrun : writeEntries cfg pino files s = .ok r) :
    Enters s r.2 (listedAll pino r.1 files) := by
  induction files generalizing s r with
  | nil =>
    obtain rfl := Except.ok.inj hrun
    exact Enters.refl s
  | cons e es ih =>
    obtain ⟨⟨ino, s₁⟩, h₁, hrun⟩ := bind_eq_ok hrun
    obtain ⟨⟨inos, s₂⟩, h₂, hrun⟩ := bind_eq_ok hrun
    obtain rfl := Except.ok.inj hrun
    exact (writeEntry_enters h4 h₁).1.trans (ih h₂)

end Numbers

section Listing

variable {cfg : Config} {s s' : Mkfs} {ino : ℕ} {files : List HostEntry}

variable (cfg) in
mutual

/-- The entries below a directory in the order of the walk, with the numbers that they get. -/
def listing (ino : ℕ) : HostEntry → Mkfs → List Listed
  | .mk _ _ _ _ xattrs files, s =>
    match writeXattrEntry cfg ino xattrs s with
    | .error _ => []
    | .ok s =>
      match writeEntries cfg ino files s with
      | .error _ => []
      | .ok (inos, s) => listedAll ino inos files ++ listingDirs inos files s

def listingDirs : List ℕ → List HostEntry → Mkfs → List Listed
  | inos, e :: es, s =>
    if e.iftodt = DT_DIR ∧ e.files ≠ [] then
      match populate cfg (inos.headD 0) e s with
      | .error _ => []
      | .ok s' => listing (inos.headD 0) e s ++ listingDirs inos.tail es s'
    else listingDirs inos.tail es s
  | _, [], _ => []

end

mutual

/-- The walk over a tree. -/
theorem populate_enters (h4 : cfg.erase_block_size%4 = 0) :
    ∀ (root : HostEntry) {s s' : Mkfs} {ino : ℕ}, populate cfg ino root s = .ok s' →
      Enters s s' (listing cfg ino root s)
  | .mk _ _ _ _ xattrs files, s, s', ino, hrun => by
    rw [populate] at hrun
    obtain ⟨s₁, h₁, hrun⟩ := bind_eq_ok hrun
    obtain ⟨⟨inos, s₂⟩, h₂, hrun⟩ := bind_eq_ok hrun
    have h := (writeXattrEntry_enters h4 h₁).trans (writeEntries_enters h4 h₂)
    simp only [listing, h₁, h₂]
    exact h.trans (populateDirs_enters h4 files hrun)

theorem populateDirs_enters (h4 : cfg.erase_block_size%4 = 0) :
    ∀ (files : List HostEntry) {s s' : Mkfs} {inos : List ℕ},
      populateDirs cfg inos files s = .ok s' → Enters s s' (listingDirs cfg inos files s)
  | [], s, s', inos, hrun => by
    rw [populateDirs] at hrun
    obtain rfl := Except.ok.inj hrun
    rw [listingDirs]
    exact Enters.refl s
  | e :: es, s, s', inos, hrun => by
    rw [populateDirs] at hrun
    rw [listingDirs]
    split at hrun
    next hdir =>
      obtain ⟨s₁, h₁, hrun⟩ := bind_eq_ok hrun
      simp only [if_pos hdir, h₁]
      exact (populate_enters h4 e h₁).trans (populateDirs_enters h4 es hrun)
    next hdir =>
      rw [if_neg hdir]
      exact populateDirs_enters h4 es hrun

end

theorem mem_listedAll {pino : ℕ} {inos : List ℕ} {x : Listed} (h : x ∈ listedAll pino inos files) :
    x.pino = pino ∧ x.entry ∈ files := by
  induction files generalizing inos with
  | nil => cases inos <;> cases h
  | cons e es ih =>
    cases inos with
    | nil => cases h
    | cons i inos =>
      rcases List.mem_append.mp h with h | h
      · rw [listedOf] at h
        split at h
        · cases h
        · obtain rfl := List.mem_singleton.mp h
          exact ⟨rfl, List.mem_cons_self⟩
      · exact ⟨(ih h).1, List.mem_cons_of_mem _ (ih h).2⟩

theorem writeEntries_inos (h4 : cfg.erase_block_size%4 = 0) (hs : Sane s) {r : List ℕ × Mkfs}
    (hrun : writeEntries cfg ino files s = .ok r) : ∀ i ∈ r.1, i ≠ 1 ∧ i ≤ r.2.ino := by
  induction files generalizing s r with
  | nil =>
    obtain rfl := Except.ok.inj hrun
    intro i hi
    cases hi
  | cons e es ih =>
    obtain ⟨⟨i, s₁⟩, h₁, hrun⟩ := bind_eq_ok hrun
    obtain ⟨⟨inos, s₂⟩, h₂, hrun⟩ := bind_eq_ok hrun
    obtain rfl := Except.ok.inj hrun
    have hfirst := (writeEntry_enters h4 h₁).1
    obtain ⟨hs₁, hmem⟩ := hfirst.sane hs
    have hmono := (writeEntries_enters h4 h₂).mono
    intro j hj
    rcases List.mem_cons.mp hj with rfl | hj
    · by_cases h0 : j = 0
      · exact ⟨by omega, by omega⟩
      · have := hmem ⟨ino, e, j⟩ (by rw [listedOf, if_neg h0]; exact List.mem_singleton_self _)
        dsimp only at this hmono ⊢
        omega
    · exact ih hs₁ h₂ j hj

mutual

/-- The number of a directory below another one is not the one of the root. -/
theorem listing_pino (h4 : cfg.erase_block_size%4 = 0) :
    ∀ (root : HostEntry) {s s' : Mkfs} {ino : ℕ}, Sane s → populate cfg ino root s = .ok s' →
      ∀ x ∈ listing cfg ino root s, x.pino = ino ∨ (x.pino ≠ 1 ∧ x.pino ≤ s'.ino)
  | .mk _ _ _ _ xattrs files, s, s', ino, hs, hrun => by
    rw [populate] at hrun
    obtain ⟨s₁, h₁, hrun⟩ := bind_eq_ok hrun
    obtain ⟨⟨inos, s₂⟩, h₂, hrun⟩ := bind_eq_ok hrun
    have hs₁ := ((writeXattrEntry_enters h4 h₁).sane hs).1
    have hs₂ := ((writeEntries_enters h4 h₂).sane hs₁).1
    simp only [listing, h₁, h₂]
    intro x hx
    rcases List.mem_append.mp hx with hx | hx
    · exact .inl (mem_listedAll hx).1
    · exact .inr (listingDirs_pino h4 files hs₂ (writeEntries_inos h4 hs₁ h₂) hrun x hx)

theorem listingDirs_pino (h4 : cfg.erase_block_size%4 = 0) :
    ∀ (files : List HostEntry) {s s' : Mkfs} {inos : List ℕ}, Sane s →
      (∀ i ∈ inos, i ≠ 1 ∧ i ≤ s.ino) → populateDirs cfg inos files s = .ok s' →
      ∀ x ∈ listingDirs cfg inos files s, x.pino ≠ 1 ∧ x.pino ≤ s'.ino
  | [], s, s', inos, _, _, _ => by
    rw [listingDirs]
    intro x hx
    cases hx
  | e :: es, s, s', inos, hs, hinos, hrun => by
    rw [populateDirs] at hrun
    rw [listingDirs]
    have htail : ∀ i ∈ inos.tail, i ≠ 1 ∧ i ≤ s.ino := fun i hi => hinos i (List.mem_of_mem_tail hi)
    split at hrun
    next hdir =>
      obtain ⟨s₁, h₁, hrun⟩ := bind_eq_ok hrun
      simp only [if_pos hdir, h₁]
      have hfirst := populate_enters h4 e h₁
      have hmono := hfirst.mono
      have hmono' := (populateDirs_enters h4 es hrun).mono
      have hhead : inos.headD 0 ≠ 1 ∧ inos.headD 0 ≤ s.ino := by
        cases inos with
        | nil => exact ⟨by decide, Nat.zero_le _⟩
        | cons i inos => exact hinos i List.mem_cons_self
      intro x hx
      rcases List.mem_append.mp hx with hx | hx
      · rcases listing_pino h4 e hs h₁ x hx with h | ⟨h1, hle⟩
        · rw [h]
          exact ⟨hhead.1, by omega⟩
        · exact ⟨h1, hle.trans hmono'⟩
      · exact listingDirs_pino h4 es (hfirst.sane hs).1
          (fun i hi => ⟨(htail i hi).1, (htail i hi).2.trans hmono⟩) hrun x hx
    next hdir =>
      rw [if_neg hdir]
      exact listingDirs_pino h4 es hs htail hrun

end

end Listing

section Root

variable {cfg : Config} {s s' : Mkfs} {ino : ℕ} {files : List HostEntry} {ws ws' : List Write}

/-- The first entry that is not left out is listed. -/
theorem listedAll_ne_nil (h4 : cfg.erase_block_size%4 = 0) {r : List ℕ × Mkfs}
    (hrun : writeEntries cfg ino files s = .ok r) (h : ∃ e ∈ files, ¬e.Skipped) :
    listedAll ino r.1 files ≠ [] := by
  induction files generalizing s r with
  | nil =>
    obtain ⟨e, he, -⟩ := h
    cases he
  | cons e es ih =>
    obtain ⟨⟨i, s₁⟩, h₁, hrun⟩ := bind_eq_ok hrun
    obtain ⟨⟨inos, s₂⟩, h₂, hrun⟩ := bind_eq_ok hrun
    obtain rfl := Except.ok.inj hrun
    rw [listedAll, Ne, List.append_eq_nil_iff]
    rintro ⟨hfirst, hrest⟩
    by_cases hk : e.Skipped
    · obtain ⟨e', he', hk'⟩ := h
      rcases List.mem_cons.mp he' with rfl | he'
      · exact hk' hk
      · exact ih h₂ ⟨e', he', hk'⟩ hrest
    · rw [listedOf, if_neg ((writeEntry_enters h4 h₁).2.1 hk)] at hfirst
      cases hfirst

theorem listedAll_eq_nil (h4 : cfg.erase_block_size%4 = 0) {r : List ℕ × Mkfs}
    (hrun : writeEntries cfg ino files s = .ok r) (h : ∀ e ∈ files, e.Skipped) (hs : NoneMet s) :
    listedAll ino r.1 files = [] := by
  induction files generalizing s r with
  | nil => cases r.1 <;> rfl
  | cons e es ih =>
    obtain ⟨⟨i, s₁⟩, h₁, hrun⟩ := bind_eq_ok hrun
    obtain ⟨⟨inos, s₂⟩, h₂, hrun⟩ := bind_eq_ok hrun
    obtain rfl := Except.ok.inj hrun
    obtain ⟨henter, -, hskip⟩ := writeEntry_enters h4 h₁
    have hnil : listedOf ino e i = [] := if_pos (hskip (h e List.mem_cons_self) hs)
    rw [listedAll, hnil, List.nil_append]
    exact ih h₂ (fun e' he' => h e' (List.mem_cons_of_mem _ he')) (henter.none hnil hs)

theorem listingDirs_eq_nil (h : ∀ e ∈ files, e.Skipped) (inos : List ℕ) :
    listingDirs cfg inos files s = [] := by
  induction files generalizing inos with
  | nil => rw [listingDirs]
  | cons e es ih =>
    rw [listingDirs, if_neg fun hd => (h e List.mem_cons_self).1 (.inl hd.1)]
    exact ih (fun e' he' => h e' (List.mem_cons_of_mem _ he')) _

theorem padblock_ok (hrun : padblock cfg ws = .ok ws') :
    outOfs ws'%cfg.erase_block_size = 0 ∧
      ((ws' = ws) ∨ (∃ k, ws' = ws ++ [.ff k] ∧ outOfs ws' < 2^31)) := by
  have hpos : 0 < cfg.erase_block_size := Nat.lt_of_lt_of_le (by decide) cfg.block_min
  unfold padblock at hrun
  split at hrun
  next h0 =>
    obtain rfl := Except.ok.inj hrun
    exact ⟨h0, .inl rfl⟩
  next h0 =>
    have hsmall := fullWrite_small hrun
    obtain rfl := fullWrite_ok hrun
    refine ⟨?_, .inr ⟨_, rfl, hsmall⟩⟩
    have hlt := Nat.mod_lt (outOfs ws) hpos
    have hdiv := Nat.div_add_mod (outOfs ws) cfg.erase_block_size
    have hofs : outOfs (ws ++ [.ff (cfg.erase_block_size-outOfs ws%cfg.erase_block_size)]) =
        cfg.erase_block_size*(outOfs ws/cfg.erase_block_size+1) := by
      rw [outOfs_append, outOfs_ff, Nat.mul_succ]
      omega
    rw [hofs, Nat.mul_mod_right]

/-- An image whose nodes start at whole words, with any number of blank bytes at its end. -/
structure Worded (ws : List Write) (ds : List Dirent) : Prop where
  nodes : ∀ o n, At ws o n → o%4 = 0 ∧ n.Padded
  small : outOfs ws ≤ 2^31
  dirents : direntsOf ws = ds

theorem padCleanmarkers_worded (h4 : cfg.erase_block_size%4 = 0) {k : ℕ} {ds : List Dirent}
    (h : Worded ws ds) (h0 : outOfs ws%cfg.erase_block_size = 0)
    (hrun : padCleanmarkers cfg k ws = .ok ws') : Worded ws' ds := by
  induction k generalizing ws with
  | zero => cases hrun
  | succ k ih =>
    rw [padCleanmarkers] at hrun
    split at hrun
    next =>
      obtain ⟨ws₁, h₁, hrun⟩ := bind_eq_ok hrun
      obtain ⟨ws₂, h₂, hrun⟩ := bind_eq_ok hrun
      have hsmall := fullWrite_small h₁
      obtain rfl := fullWrite_ok h₁
      have hmark : Worded (ws ++ [.node (cleanmarker cfg)]) ds := by
        refine ⟨fun o n hat => ?_, hsmall.le, ?_⟩
        · rcases at_node.mp hat with hat | ⟨rfl, rfl⟩
          · exact h.nodes o n hat
          · refine ⟨?_, le_pad4_self _⟩
            exact Nat.mod_eq_zero_of_dvd
              ((Nat.dvd_of_mod_eq_zero h4).trans (Nat.dvd_of_mod_eq_zero h0))
        · rw [direntsOf_append, h.dirents]
          exact List.append_nil _
      obtain ⟨hmod, rfl | ⟨k, rfl, hlt⟩⟩ := padblock_ok h₂
      · exact ih hmark hmod hrun
      · refine ih ⟨fun o n hat => hmark.nodes o n (at_ff.mp hat), hlt.le, ?_⟩ hmod hrun
        rw [direntsOf_append, hmark.dirents]
        exact List.append_nil _
    next =>
      obtain rfl := Except.ok.inj hrun
      exact h

theorem padFs_worded (h4 : cfg.erase_block_size%4 = 0) (h : Aligned ws)
    (hrun : padFs cfg ws = .ok ws') : Worded ws' (direntsOf ws) := by
  have hself : Worded ws (direntsOf ws) := ⟨h.nodes, h.small, rfl⟩
  have hpad {vs : List Write} (hrun : padblock cfg ws = .ok vs) : Worded vs (direntsOf ws) := by
    have hadd := padblock_added h4 hrun
    have ha := hadd.aligned h
    exact ⟨ha.nodes, ha.small, by rw [hadd.dirents, List.append_nil]⟩
  unfold padFs at hrun
  split at hrun
  next => exact hpad hrun
  next =>
    split at hrun
    next =>
      obtain ⟨ws₁, h₁, hrun⟩ := bind_eq_ok hrun
      exact padCleanmarkers_worded h4 (hpad h₁) (padblock_ok h₁).1 hrun
    next =>
      split at hrun
      next =>
        have hsmall := fullWrite_small hrun
        obtain rfl := fullWrite_ok hrun
        refine ⟨fun o n hat => h.nodes o n (at_ff.mp hat), hsmall.le, ?_⟩
        rw [direntsOf_append]
        exact List.append_nil _
      next =>
        obtain rfl := Except.ok.inj hrun
        exact hself

/-- The variables at the start, without the option `-i`. -/
def Mkfs.start : Mkfs := ⟨[], 1, 0, 0, 0, [], []⟩

/-- The entries of an image, in the order of their versions. -/
def entriesOf (cfg : Config) (root : HostEntry) : List Listed := listing cfg 1 root Mkfs.start

/-- The directory entries of an image are those of the tree, with versions from 0. -/
theorem createTargetFilesystem_worded (h4 : cfg.erase_block_size%4 = 0) {root : HostEntry}
    (hrun : createTargetFilesystem cfg 0 root = .ok (s, ws)) :
    Worded ws (numbered 0 (entriesOf cfg root)) ∧ 40*(entriesOf cfg root).length ≤ 2^31 := by
  obtain ⟨s₁, h₁, hrun⟩ := bind_eq_ok hrun
  obtain ⟨ws₁, h₂, hrun⟩ := bind_eq_ok hrun
  obtain ⟨rfl, rfl⟩ := Prod.mk.inj (Except.ok.inj hrun)
  have h := populate_enters (s := Mkfs.start) h4 root h₁
  have ha : Aligned s₁.writes :=
    h.added.aligned ⟨fun o n hat => absurd hat not_at_nil, rfl, Nat.zero_le _⟩
  have hw := padFs_worded h4 ha h₂
  have hds : direntsOf s₁.writes = numbered 0 (entriesOf cfg root) := h.added.dirents
  have hgrows := h.added.grows
  have hsmall := ha.small
  rw [numbered_length] at hgrows
  rw [hds] at hw
  refine ⟨hw, ?_⟩
  change 0+40*(entriesOf cfg root).length ≤ _ at hgrows
  omega

/-- The numbers of an image are above the root's, and have 32 bits. -/
theorem entriesOf_numbers (h4 : cfg.erase_block_size%4 = 0) {root : HostEntry}
    (hrun : createTargetFilesystem cfg 0 root = .ok (s, ws)) :
    ∀ x ∈ entriesOf cfg root, 2 ≤ x.ino ∧ x.ino < 2^32 ∧ x.pino < 2^32 := by
  have hlen := (createTargetFilesystem_worded h4 hrun).2
  obtain ⟨s₁, h₁, hrun⟩ := bind_eq_ok hrun
  have hstart : Sane Mkfs.start := ⟨le_rfl, fun _ hx => by cases hx⟩
  have h := populate_enters (s := Mkfs.start) h4 root h₁
  have hbound : s₁.ino ≤ 1+(entriesOf cfg root).length := h.bound
  intro x hx
  obtain ⟨h2, hle⟩ := (h.sane hstart).2 x hx
  refine ⟨h2, by omega, ?_⟩
  rcases listing_pino (s := Mkfs.start) h4 root hstart h₁ x hx with h | ⟨-, h⟩
  · rw [h]
    decide
  · omega

theorem listedAll_sublist (pino : ℕ) (inos : List ℕ) (files : List HostEntry) :
    ((listedAll pino inos files).map Listed.entry).Sublist files := by
  induction files generalizing inos with
  | nil => cases inos <;> exact List.Sublist.refl _
  | cons e es ih =>
    cases inos with
    | nil => exact List.nil_sublist _
    | cons i inos =>
      rw [listedAll, List.map_append, listedOf]
      split
      · exact (ih inos).trans (List.sublist_cons_self e es)
      · exact (ih inos).cons_cons e

/-- The first entry is one of the root, and no other of the root has its name. -/
theorem entriesOf_eq_cons (h4 : cfg.erase_block_size%4 = 0) {root : HostEntry}
    (hrun : createTargetFilesystem cfg 0 root = .ok (s, ws))
    (hnames : root.files.Pairwise fun e e' => e.name ≠ e'.name)
    (h : ∃ e ∈ root.files, ¬e.Skipped) :
    ∃ x xs, entriesOf cfg root = x :: xs ∧ x.pino = 1 ∧ x.entry ∈ root.files ∧
      ∀ y ∈ xs, y.pino = 1 → y.entry ∈ root.files ∧ x.entry.name ≠ y.entry.name := by
  obtain ⟨s₁, h₁, hrun⟩ := bind_eq_ok hrun
  obtain ⟨name, sb, link, reads, xattrs, files⟩ := root
  rw [populate] at h₁
  obtain ⟨s₂, h₂, h₁⟩ := bind_eq_ok h₁
  obtain ⟨⟨inos, s₃⟩, h₃, h₁⟩ := bind_eq_ok h₁
  have hstart : Sane Mkfs.start := ⟨le_rfl, fun _ hx => by cases hx⟩
  have hs₂ := ((writeXattrEntry_enters (s := Mkfs.start) h4 h₂).sane hstart).1
  have hs₃ := ((writeEntries_enters h4 h₃).sane hs₂).1
  have hlist : entriesOf cfg (.mk name sb link reads xattrs files) =
      listedAll 1 inos files ++ listingDirs cfg inos files s₃ := by
    have h₂' : writeXattrEntry cfg 1 xattrs Mkfs.start = .ok s₂ := h₂
    simp only [entriesOf, listing, h₂', h₃]
  have hdirs := listingDirs_pino h4 files hs₃ (writeEntries_inos h4 hs₂ h₃) h₁
  have hnames : files.Pairwise fun e e' => e.name ≠ e'.name := hnames
  have hdistinct : (listedAll 1 inos files).Pairwise fun x y => x.entry.name ≠ y.entry.name := by
    have hsub := hnames.sublist (listedAll_sublist 1 inos files)
    rw [List.pairwise_map] at hsub
    exact hsub
  obtain ⟨x, xs, hx⟩ := List.exists_cons_of_ne_nil (listedAll_ne_nil h4 h₃ h)
  have hmem : x ∈ listedAll 1 inos files := by
    rw [hx]
    exact List.mem_cons_self
  rw [hx, List.cons_append] at hlist
  rw [hx] at hdistinct
  refine ⟨x, _, hlist, (mem_listedAll hmem).1, (mem_listedAll hmem).2, fun y hy h1 => ?_⟩
  rcases List.mem_append.mp hy with hy | hy
  · have hmem' : y ∈ listedAll 1 inos files := by
      rw [hx]
      exact List.mem_cons_of_mem _ hy
    exact ⟨(mem_listedAll hmem').2, (List.pairwise_cons.mp hdistinct).1 y hy⟩
  · exact absurd h1 (hdirs y hy).1

theorem entriesOf_eq_nil (h4 : cfg.erase_block_size%4 = 0) {root : HostEntry}
    (h : ∀ e ∈ root.files, e.Skipped) : entriesOf cfg root = [] := by
  obtain ⟨name, sb, link, reads, xattrs, files⟩ := root
  have h : ∀ e ∈ files, e.Skipped := h
  rw [entriesOf, listing]
  split
  next => rfl
  next s₁ h₁ =>
    split
    next => rfl
    next inos s₂ h₂ =>
      have hmet : NoneMet s₁ := (writeXattrEntry_enters h4 h₁).none rfl fun _ hx => by cases hx
      rw [listedAll_eq_nil h4 h₂ h hmet, listingDirs_eq_nil h, List.nil_append]

end Root

end ChipTools.Jffs2
