import ChipTools.Compr
import ChipTools.Mkjffs2Dirents

/-! The inode nodes of an image of `mkfs.jffs2`. Those of a regular file are the file, one behind the
other in the order of their versions, and no other node has their inode number. -/
namespace ChipTools.Jffs2
open Bytes Loop

section Numbers

variable {cfg : Config} {e : HostEntry} {s s' : Mkfs} {ws : List Write} {nodes nodes' : List Inode}
  {ino ver offset : ℕ}

/-- Nodes of one file, with versions that count on from the last one. -/
structure NodesOf (e : HostEntry) (ino ver : ℕ) (nodes : List Inode) : Prop where
  number : ∀ n ∈ nodes, n.ino = ino
  isize : ∀ n ∈ nodes, n.isize = e.sb.st_size
  compr : ∀ n ∈ nodes, n.compr < 256
  versions : nodes.map Inode.version = List.range' (ver+1) nodes.length

theorem NodesOf.nil (e : HostEntry) (ino ver : ℕ) : NodesOf e ino ver [] :=
  ⟨fun _ h => absurd h List.not_mem_nil, fun _ h => absurd h List.not_mem_nil,
    fun _ h => absurd h List.not_mem_nil, rfl⟩

theorem NodesOf.append (h : NodesOf e ino ver nodes)
    (h' : NodesOf e ino (ver+nodes.length) nodes') : NodesOf e ino ver (nodes ++ nodes') := by
  refine ⟨fun n hn => ?_, fun n hn => ?_, fun n hn => ?_, ?_⟩
  · rcases List.mem_append.mp hn with hn | hn
    · exact h.number n hn
    · exact h'.number n hn
  · rcases List.mem_append.mp hn with hn | hn
    · exact h.isize n hn
    · exact h'.isize n hn
  · rcases List.mem_append.mp hn with hn | hn
    · exact h.compr n hn
    · exact h'.compr n hn
  · have hstart : ver+nodes.length+1 = ver+1+nodes.length := Nat.add_right_comm _ _ _
    rw [List.map_append, h.versions, h'.versions, List.length_append, hstart, List.range'_append_1]

theorem dataNode_nodesOf (cfg : Config) (e : HostEntry) (ino ver offset : ℕ) (tbuf : List Byte)
    (space : ℕ) : NodesOf e ino ver [dataNode cfg e ino (ver+1) offset tbuf space] := by
  refine ⟨fun n hn => ?_, fun n hn => ?_, fun n hn => ?_, rfl⟩
  · rw [List.mem_singleton.mp hn]
    rfl
  · rw [List.mem_singleton.mp hn]
    rfl
  · rw [List.mem_singleton.mp hn]
    exact Nat.mod_lt _ (by decide)

/-- The loop over one buffer returns the version of its last node. -/
theorem writeChunk_nodes {k : ℕ} {tbuf : List Byte} {r : ℕ × ℕ × List Write}
    (hrun : writeChunk cfg e ino k tbuf ver offset ws = .ok r) :
    ∃ nodes, inodesOf r.2.2 = inodesOf ws ++ nodes ∧ r.1 = ver+nodes.length ∧
      NodesOf e ino ver nodes := by
  induction k generalizing tbuf ver offset ws with
  | zero =>
    cases tbuf with
    | nil =>
      obtain rfl := Except.ok.inj hrun
      exact ⟨[], (List.append_nil _).symm, rfl, .nil e ino ver⟩
    | cons b bs => cases hrun
  | succ k ih =>
    cases tbuf with
    | nil =>
      obtain rfl := Except.ok.inj hrun
      exact ⟨[], (List.append_nil _).symm, rfl, .nil e ino ver⟩
    | cons b bs =>
      obtain ⟨ws₁, h₁, hrun⟩ := bind_eq_ok hrun
      obtain ⟨ws₂, h₂, hrun⟩ := bind_eq_ok hrun
      have hnode := dataNode_nodesOf cfg e ino ver offset (b :: bs)
        (min (roomFor cfg ws₁) (b :: bs).length)
      generalize dataNode cfg e ino (ver+1) offset (b :: bs)
        (min (roomFor cfg ws₁) (b :: bs).length) = n at *
      obtain ⟨nodes, hnodes, hver, hof⟩ := ih hrun
      refine ⟨n :: nodes, ?_, ?_, hnode.append hof⟩
      · rw [hnodes, writeNode_inodes h₂, padBlockIfLessThan_inodes h₁, List.append_assoc]
        rfl
      · rw [hver, List.length_cons]
        omega

theorem writeChunks_nodes {reads : List (List Byte)} {r : ℕ × List Write}
    (hrun : writeChunks cfg e ino reads ver offset ws = .ok r) :
    ∃ nodes, inodesOf r.2 = inodesOf ws ++ nodes ∧ r.1 = ver+nodes.length ∧
      NodesOf e ino ver nodes := by
  induction reads generalizing ver offset ws with
  | nil =>
    obtain rfl := Except.ok.inj hrun
    exact ⟨[], (List.append_nil _).symm, rfl, .nil e ino ver⟩
  | cons buf reads ih =>
    obtain ⟨⟨ver₁, offset₁, ws₁⟩, h₁, h₂⟩ := bind_eq_ok hrun
    obtain ⟨nodes, hnodes, hver, hof⟩ := writeChunk_nodes h₁
    obtain ⟨nodes', hnodes', hver', hof'⟩ := ih h₂
    dsimp only at hver hnodes
    rw [hver] at hver' hof'
    refine ⟨nodes ++ nodes', ?_, ?_, hof.append hof'⟩
    · rw [hnodes', hnodes, List.append_assoc]
    · rw [hver', List.length_append, Nat.add_assoc]

/-- The nodes of a regular file that is not too large: there is one at least, and they are the bytes of
the file. -/
structure FileNodes (decompress : Byte → List Byte → ℕ → Option (List Byte)) (e : HostEntry)
    (ino : ℕ) (nodes : List Inode) : Prop where
  small : e.sb.st_size < JFFS2_MAX_FILE_SIZE
  nodesOf : NodesOf e ino 0 nodes
  ne_nil : nodes ≠ []
  tiles : Tiles decompress e.reads.flatten 0 e.reads.flatten.length nodes

/-- `write_regular_file` takes a new number, and writes the nodes of the file. -/
theorem writeRegularFile_nodes {decompress : Byte → List Byte → ℕ → Option (List Byte)} {page : ℕ}
    (hcomp : cfg.CompressSound decompress page) (hroom : cfg.HasRoom) {pino : ℕ} {r : ℕ × Mkfs}
    (hsize : e.sb.st_size < JFFS2_MAX_FILE_SIZE)
    (hrun : writeRegularFile cfg pino e s = .ok r) :
    r.1 = s.ino+1 ∧ r.2.ino = s.ino+1 ∧ r.2.hardlinks = s.hardlinks ∧
      ∃ nodes, inodesOf r.2.writes = inodesOf s.writes ++ nodes ∧ NodesOf e (s.ino+1) 0 nodes ∧
        ((∀ buf ∈ e.reads, buf.length ≤ page) → FileNodes decompress e (s.ino+1) nodes) := by
  have hrun' := hrun
  unfold writeRegularFile at hrun
  rw [if_neg (not_le.mpr hsize)] at hrun
  obtain ⟨s₁, h₁, hrun⟩ := bind_eq_ok hrun
  obtain ⟨⟨ver, ws⟩, h₂, hrun⟩ := bind_eq_ok hrun
  obtain ⟨nodes, hnodes, hver, hof⟩ := writeChunks_nodes h₂
  have hdirent := writeDirent_inodes h₁
  obtain ⟨s₀, h₀, heq⟩ := bind_eq_ok h₁
  obtain ⟨ws₀, -, hws₀⟩ := bind_eq_ok h₀
  obtain rfl := Except.ok.inj hws₀
  obtain rfl := Except.ok.inj heq
  dsimp only at hrun hver hnodes
  rw [hdirent] at hnodes
  -- the nodes are the same as those that tile the file
  have hfile {nodes : List Inode} (hall : inodesOf r.2.writes = inodesOf s.writes ++ nodes)
      (hof : NodesOf e (s.ino+1) 0 nodes) (hne : nodes ≠ [])
      (hpage : ∀ buf ∈ e.reads, buf.length ≤ page) : FileNodes decompress e (s.ino+1) nodes := by
    obtain ⟨nodes', hall', htiles⟩ := writeRegularFile_tiles hcomp hroom hpage hsize hrun'
    rw [hall] at hall'
    obtain rfl := List.append_cancel_left hall'
    exact ⟨hsize, hof, hne, htiles⟩
  split at hrun
  next h0 =>
    obtain ⟨s₂, h₃, hrun⟩ := bind_eq_ok hrun
    have hlast := put_inodes h₃
    obtain ⟨ws₂, -, hws₂⟩ := bind_eq_ok h₃
    obtain rfl := Except.ok.inj hws₂
    obtain rfl := Except.ok.inj hrun
    have hnil : nodes = [] := List.eq_nil_of_length_eq_zero (by omega)
    subst hnil
    have hempty : NodesOf e (s.ino+1) 0 [inodeOf e (s.ino+1) 1 e.sb.st_size 0 0 0 0 []] := by
      refine ⟨fun n hn => ?_, fun n hn => ?_, fun n hn => ?_, rfl⟩
      all_goals rw [List.mem_singleton.mp hn]
      · rfl
      · rfl
      · exact (by decide : 0 < 256)
    have hall : inodesOf ws₂ = inodesOf s.writes ++
        [inodeOf e (s.ino+1) 1 e.sb.st_size 0 0 0 0 []] := by
      rw [List.append_nil] at hnodes
      refine hlast.trans ?_
      change inodesOf ws ++ _ = _
      rw [hnodes]
      rfl
    exact ⟨rfl, rfl, rfl, _, hall, hempty, hfile hall hempty (List.cons_ne_nil _ _)⟩
  next h0 =>
    obtain rfl := Except.ok.inj hrun
    refine ⟨rfl, rfl, rfl, nodes, hnodes, hof, hfile hnodes hof ?_⟩
    rintro rfl
    exact h0 hver

end Numbers

section Walk

variable {decompress : Byte → List Byte → ℕ → Option (List Byte)} {page : ℕ} {cfg : Config}
  {e : HostEntry} {s s₁ s' : Mkfs} {pino : ℕ} {xs ys zs : List Listed}

/-- The numbers by which the host tells its files apart. -/
def HostEntry.hostFile (e : HostEntry) : ℕ × ℕ := (e.sb.st_dev, e.sb.st_ino)

/-- The inode nodes with a number. -/
def nodesFor (ino : ℕ) (ws : List Write) : List Inode := (inodesOf ws).filter (·.ino = ino)

/-- An entry that brought its number into the image: if it is a regular file, the nodes with the
number are those of the file. -/
def Stored (decompress : Byte → List Byte → ℕ → Option (List Byte)) (page : ℕ) (s : Mkfs)
    (y : Listed) : Prop :=
  y.ino ≤ s.ino ∧ (y.entry.iftodt = DT_REG → (∀ buf ∈ y.entry.reads, buf.length ≤ page) →
    FileNodes decompress y.entry y.ino (nodesFor y.ino s.writes))

/-- The entries that were met: each has the number of one that brought it in, and is on the host the
same file as that. -/
structure Filed (decompress : Byte → List Byte → ℕ → Option (List Byte)) (page : ℕ) (s : Mkfs)
    (xs : List Listed) : Prop where
  numbers : ∀ n ∈ inodesOf s.writes, n.ino ≤ s.ino
  entries : ∀ x ∈ xs, ∃ y ∈ xs, y.entry.hostFile = x.entry.hostFile ∧ y.ino = x.ino ∧
    Stored decompress page s y
  links : ∀ l ∈ s.hardlinks, l.2 = 0 ∨ ∃ y ∈ xs, y.entry.hostFile = l.1 ∧ y.ino = l.2 ∧
    Stored decompress page s y

/-- What a part of the walk does with some more entries. -/
def Files (decompress : Byte → List Byte → ℕ → Option (List Byte)) (page : ℕ) (s s' : Mkfs)
    (ys : List Listed) : Prop :=
  ∀ xs, Filed decompress page s xs → Filed decompress page s' (xs ++ ys)

theorem Files.trans (h : Files decompress page s s₁ ys) (h' : Files decompress page s₁ s' zs) :
    Files decompress page s s' (ys ++ zs) := by
  intro xs hxs
  rw [← List.append_assoc]
  exact h' _ (h xs hxs)

theorem Filed.congr (h : Filed decompress page s xs) (hi : s'.ino = s.ino)
    (hl : s'.hardlinks = s.hardlinks) (hn : inodesOf s'.writes = inodesOf s.writes) :
    Filed decompress page s' xs := by
  have hstored (y : Listed) (hy : Stored decompress page s y) : Stored decompress page s' y := by
    rwa [Stored, nodesFor, hi, hn]
  refine ⟨fun n hmem => ?_, fun x hx => ?_, fun l hmem => ?_⟩
  · rw [hn] at hmem
    rw [hi]
    exact h.numbers n hmem
  · obtain ⟨y, hy, hfile, hino, hst⟩ := h.entries x hx
    exact ⟨y, hy, hfile, hino, hstored y hst⟩
  · rw [hl] at hmem
    obtain h0 | ⟨y, hy, hfile, hino, hst⟩ := h.links l hmem
    · exact .inl h0
    · exact .inr ⟨y, hy, hfile, hino, hstored y hst⟩

/-- A step that leaves the numbers and the inode nodes as they are. -/
theorem Files.of_eq (hi : s'.ino = s.ino) (hl : s'.hardlinks = s.hardlinks)
    (hn : inodesOf s'.writes = inodesOf s.writes) : Files decompress page s s' [] := by
  intro xs hxs
  rw [List.append_nil]
  exact hxs.congr hi hl hn

/-- Nodes with a new number are none of the old ones. -/
theorem Filed.grow (h : Filed decompress page s xs) {nodes : List Inode} (hi : s'.ino = s.ino+1)
    (hn : inodesOf s'.writes = inodesOf s.writes ++ nodes) (hnew : ∀ n ∈ nodes, n.ino = s.ino+1) :
    (∀ n ∈ inodesOf s'.writes, n.ino ≤ s'.ino) ∧ nodesFor (s.ino+1) s'.writes = nodes ∧
      ∀ y, Stored decompress page s y → Stored decompress page s' y := by
  refine ⟨fun n hmem => ?_, ?_, fun y hy => ?_⟩
  · rw [hn] at hmem
    rw [hi]
    rcases List.mem_append.mp hmem with hmem | hmem
    · exact (h.numbers n hmem).trans (Nat.le_succ _)
    · exact (hnew n hmem).le
  · have hold : (inodesOf s.writes).filter (·.ino = s.ino+1) = [] := by
      rw [List.filter_eq_nil_iff]
      intro n hmem
      have := h.numbers n hmem
      rw [decide_eq_true_eq]
      omega
    have hall : nodes.filter (·.ino = s.ino+1) = nodes := by
      rw [List.filter_eq_self]
      exact fun n hmem => decide_eq_true (hnew n hmem)
    rw [nodesFor, hn, List.filter_append, hold, hall, List.nil_append]
  · have hle := hy.1
    have hnone : nodes.filter (·.ino = y.ino) = [] := by
      rw [List.filter_eq_nil_iff]
      intro n hmem
      have := hnew n hmem
      rw [decide_eq_true_eq]
      omega
    refine ⟨by omega, fun hreg hpage => ?_⟩
    rw [nodesFor, hn, List.filter_append, hnone, List.append_nil]
    exact hy.2 hreg hpage

theorem put_hardlinks {req : ℕ} {n : Node} (hrun : s.put cfg req n = .ok s') :
    s'.ino = s.ino ∧ s'.hardlinks = s.hardlinks := by
  obtain ⟨ws, -, heq⟩ := bind_eq_ok hrun
  obtain rfl := Except.ok.inj heq
  exact ⟨rfl, rfl⟩

theorem put_files {req : ℕ} {n : Node} (hno : (Write.node n).inode = none)
    (hrun : s.put cfg req n = .ok s') : Files decompress page s s' [] := by
  obtain ⟨hi, hl⟩ := put_hardlinks hrun
  refine .of_eq hi hl ?_
  rw [put_inodes hrun, hno]
  exact List.append_nil _

theorem writeDirent_files {ino : ℕ} (hrun : writeDirent cfg pino ino e s = .ok s') :
    Files decompress page s s' [] := by
  have hn := writeDirent_inodes hrun
  obtain ⟨s₁, h₁, heq⟩ := bind_eq_ok hrun
  obtain ⟨hi, hl⟩ := put_hardlinks h₁
  obtain rfl := Except.ok.inj heq
  exact .of_eq hi hl hn

theorem findXattrEntry_files {x : HostXattr} {r : ℕ × Mkfs}
    (hrun : findXattrEntry cfg x s = .ok r) : Files decompress page s r.2 [] := by
  unfold findXattrEntry at hrun
  split at hrun
  next =>
    obtain rfl := Except.ok.inj hrun
    exact .of_eq rfl rfl rfl
  next =>
    obtain ⟨s₁, h₁, hrun⟩ := bind_eq_ok hrun
    obtain rfl := Except.ok.inj hrun
    exact (put_files rfl h₁).trans (.of_eq rfl rfl rfl)

theorem writeXattrEntry_files {ino : ℕ} {xattrs : List HostXattr}
    (hrun : writeXattrEntry cfg ino xattrs s = .ok s') : Files decompress page s s' [] := by
  induction xattrs generalizing s with
  | nil =>
    obtain rfl := Except.ok.inj hrun
    exact .of_eq rfl rfl rfl
  | cons x xattrs ih =>
    obtain ⟨⟨xid, s₁⟩, h₁, hrun⟩ := bind_eq_ok hrun
    obtain ⟨s₂, h₂, hrun⟩ := bind_eq_ok hrun
    have hseq : Files decompress page s₂ { s₂ with highest_xseqno := s₂.highest_xseqno+2 } [] :=
      .of_eq rfl rfl rfl
    exact (((findXattrEntry_files h₁).trans (put_files rfl h₂)).trans hseq).trans (ih hrun)

/-- One more entry of a file that is there. -/
theorem Filed.again (h : Filed decompress page s xs) {x : Listed}
    (hx : ∃ y ∈ xs ++ [x], y.entry.hostFile = x.entry.hostFile ∧ y.ino = x.ino ∧
      Stored decompress page s y) : Filed decompress page s (xs ++ [x]) := by
  refine ⟨h.numbers, fun z hz => ?_, fun l hl => ?_⟩
  · rcases List.mem_append.mp hz with hz | hz
    · obtain ⟨y, hy, hst⟩ := h.entries z hz
      exact ⟨y, List.mem_append_left _ hy, hst⟩
    · rwa [List.mem_singleton.mp hz]
  · obtain h0 | ⟨y, hy, hst⟩ := h.links l hl
    · exact .inl h0
    · exact .inr ⟨y, List.mem_append_left _ hy, hst⟩

/-- An entry that was met is looked up by its file on the host. -/
theorem Filed.link (h : Filed decompress page s xs) {l : (ℕ × ℕ) × ℕ}
    (hl : l.2 = 0 ∨ ∃ x ∈ xs, x.entry.hostFile = l.1 ∧ x.ino = l.2) :
    Filed decompress page { s with hardlinks := l :: s.hardlinks } xs := by
  refine ⟨h.numbers, h.entries, fun l' hl' => ?_⟩
  rcases List.mem_cons.mp hl' with rfl | hl'
  · obtain h0 | ⟨x, hx, hfile, hino⟩ := hl
    · exact .inl h0
    · obtain ⟨y, hy, hfile', hino', hst⟩ := h.entries x hx
      exact .inr ⟨y, hy, hfile'.trans hfile, hino'.trans hino, hst⟩
  · exact h.links l' hl'

/-- A writer that takes a new number, with the nodes that it adds. -/
structure TakesNumber (s s' : Mkfs) (nodes : List Inode) : Prop where
  ino : s'.ino = s.ino+1
  hardlinks : s'.hardlinks = s.hardlinks
  inodes : inodesOf s'.writes = inodesOf s.writes ++ nodes
  number : ∀ n ∈ nodes, n.ino = s.ino+1

theorem TakesNumber.filed {nodes : List Inode} (h : TakesNumber s s' nodes)
    (hfile : e.iftodt = DT_REG → (∀ buf ∈ e.reads, buf.length ≤ page) →
      FileNodes decompress e (s.ino+1) nodes) (hs : Filed decompress page s xs) :
    Filed decompress page s' (xs ++ [⟨pino, e, s.ino+1⟩]) := by
  obtain ⟨hnumbers, hnodes, hstored⟩ := hs.grow h.ino h.inodes h.number
  have hold : Filed decompress page s' xs := by
    refine ⟨hnumbers, fun x hx => ?_, fun l hl => ?_⟩
    · obtain ⟨y, hy, hhost, hino, hst⟩ := hs.entries x hx
      exact ⟨y, hy, hhost, hino, hstored y hst⟩
    · rw [h.hardlinks] at hl
      obtain h0 | ⟨y, hy, hhost, hino, hst⟩ := hs.links l hl
      · exact .inl h0
      · exact .inr ⟨y, hy, hhost, hino, hstored y hst⟩
  refine hold.again ⟨_, List.mem_append_right _ (List.mem_singleton_self _), rfl, rfl, ?_⟩
  refine ⟨h.ino.ge, fun hreg hpage => ?_⟩
  dsimp only
  rw [hnodes]
  exact hfile hreg hpage

theorem writeSingle_takes {isize : ℕ} {data : List Byte} {r : ℕ × Mkfs}
    (hrun : writeSingle cfg pino isize data e s = .ok r) :
    r.1 = s.ino+1 ∧ ∃ nodes, TakesNumber s r.2 nodes := by
  obtain ⟨s₁, h₁, hrun⟩ := bind_eq_ok hrun
  obtain ⟨s₂, h₂, hrun⟩ := bind_eq_ok hrun
  obtain rfl := Except.ok.inj hrun
  have hdirent := writeDirent_inodes h₁
  have hnode := put_inodes h₂
  obtain ⟨s₀, h₀, heq⟩ := bind_eq_ok h₁
  obtain ⟨hi₀, hl₀⟩ := put_hardlinks h₀
  obtain ⟨hi₂, hl₂⟩ := put_hardlinks h₂
  obtain rfl := Except.ok.inj heq
  refine ⟨rfl, _, hi₂.trans hi₀, hl₂.trans hl₀, by rw [hnode, hdirent], fun n hn => ?_⟩
  rw [List.mem_singleton.mp hn]
  rfl

/-- A file that is too large leaves nothing behind; any other entry takes a number. -/
theorem writeKind_takes (hcomp : cfg.CompressSound decompress page) (hroom : cfg.HasRoom)
    {r : ℕ × Mkfs} (hrun : writeKind cfg pino e s = .ok r) :
    r = (0, s) ∨ (r.1 = s.ino+1 ∧ ∃ nodes, TakesNumber s r.2 nodes ∧
      (e.iftodt = DT_REG → (∀ buf ∈ e.reads, buf.length ≤ page) →
        FileNodes decompress e (s.ino+1) nodes)) := by
  have hsingle {isize : ℕ} {data : List Byte} (hne : e.iftodt ≠ DT_REG)
      (h : writeSingle cfg pino isize data e s = .ok r) :
      r.1 = s.ino+1 ∧ ∃ nodes, TakesNumber s r.2 nodes ∧
        (e.iftodt = DT_REG → (∀ buf ∈ e.reads, buf.length ≤ page) →
          FileNodes decompress e (s.ino+1) nodes) := by
    obtain ⟨h₁, nodes, hnodes⟩ := writeSingle_takes h
    exact ⟨h₁, nodes, hnodes, fun hreg => absurd hreg hne⟩
  unfold writeKind at hrun
  split at hrun
  next hkind =>
    refine .inr (hsingle (fun hreg => ?_) hrun)
    rw [hreg] at hkind
    exact absurd hkind (by decide)
  next =>
    split at hrun
    next hkind =>
      refine .inr (hsingle (fun hreg => ?_) hrun)
      rw [hreg] at hkind
      exact absurd hkind (by decide)
    next =>
      split at hrun
      next hkind =>
        refine .inr (hsingle (fun hreg => ?_) hrun)
        rw [hreg] at hkind
        exact absurd hkind (by decide)
      next =>
        by_cases hsize : e.sb.st_size < JFFS2_MAX_FILE_SIZE
        · obtain ⟨h₁, hi, hl, nodes, hnodes, hof, hfile⟩ :=
            writeRegularFile_nodes hcomp hroom hsize hrun
          exact .inr ⟨h₁, nodes, ⟨hi, hl, hnodes, hof.number⟩, fun _ => hfile⟩
        · rw [writeRegularFile, if_pos (not_lt.mp hsize)] at hrun
          exact .inl (Except.ok.inj hrun).symm

theorem writeNew_files (hcomp : cfg.CompressSound decompress page) (hroom : cfg.HasRoom)
    {r : ℕ × Mkfs} (hrun : writeNew cfg pino e s = .ok r) :
    Files decompress page s r.2 (listedOf pino e r.1) := by
  obtain ⟨⟨ino, s₁⟩, h₁, hrun⟩ := bind_eq_ok hrun
  obtain ⟨s₂, h₂, hrun⟩ := bind_eq_ok hrun
  obtain rfl := Except.ok.inj hrun
  intro xs hxs
  have hxattr {ys : List Listed} (h : Filed decompress page s₁ ys) :
      Filed decompress page s₂ ys := by
    have := writeXattrEntry_files h₂ ys h
    rwa [List.append_nil] at this
  dsimp only
  rcases writeKind_takes hcomp hroom h₁ with h0 | ⟨hino, nodes, htakes, hfile⟩
  · obtain ⟨rfl, rfl⟩ := Prod.mk.inj h0
    rw [listedOf, if_pos rfl, List.append_nil]
    exact (hxattr hxs).link (.inl rfl)
  · dsimp only at hino htakes
    subst hino
    rw [listedOf, if_neg (Nat.succ_ne_zero _)]
    refine (hxattr (htakes.filed hfile hxs)).link (.inr ⟨⟨pino, e, s.ino+1⟩, ?_, rfl, rfl⟩)
    exact List.mem_append_right _ (List.mem_singleton_self _)

theorem writeEntry_files (hcomp : cfg.CompressSound decompress page) (hroom : cfg.HasRoom)
    {r : ℕ × Mkfs} (hrun : writeEntry cfg pino e s = .ok r) :
    Files decompress page s r.2 (listedOf pino e r.1) := by
  unfold writeEntry at hrun
  split at hrun
  next => exact writeNew_files hcomp hroom hrun
  next ino hne hlink =>
    obtain ⟨s₁, h₁, hrun⟩ := bind_eq_ok hrun
    obtain rfl := Except.ok.inj hrun
    have hne : ino ≠ 0 := hne
    obtain ⟨l₁, l₂, hlinks, -⟩ := List.lookup_eq_some_iff.mp hlink
    have hmem : ((e.sb.st_dev, e.sb.st_ino), ino) ∈ s.hardlinks := by
      rw [hlinks]
      exact List.mem_append_right _ List.mem_cons_self
    intro xs hxs
    have hs₁ := writeDirent_files h₁ xs hxs
    have hl₁ : s₁.hardlinks = s.hardlinks := by
      obtain ⟨s₀, h₀, heq⟩ := bind_eq_ok h₁
      obtain rfl := Except.ok.inj heq
      exact (put_hardlinks h₀).2
    rw [List.append_nil] at hs₁
    rw [listedOf, if_neg hne]
    obtain h0 | ⟨y, hy, hhost, hino, hst⟩ := hs₁.links _ (hl₁ ▸ hmem)
    · exact absurd h0 hne
    · exact hs₁.again ⟨y, List.mem_append_left _ hy, hhost, hino, hst⟩
  next => exact writeNew_files hcomp hroom hrun

theorem writeEntries_files (hcomp : cfg.CompressSound decompress page) (hroom : cfg.HasRoom)
    {files : List HostEntry} {r : List ℕ × Mkfs} (hrun : writeEntries cfg pino files s = .ok r) :
    Files decompress page s r.2 (listedAll pino r.1 files) := by
  induction files generalizing s r with
  | nil =>
    obtain rfl := Except.ok.inj hrun
    exact .of_eq rfl rfl rfl
  | cons e es ih =>
    obtain ⟨⟨ino, s₁⟩, h₁, hrun⟩ := bind_eq_ok hrun
    obtain ⟨⟨inos, s₂⟩, h₂, hrun⟩ := bind_eq_ok hrun
    obtain rfl := Except.ok.inj hrun
    exact (writeEntry_files hcomp hroom h₁).trans (ih h₂)

mutual

/-- The walk over a tree. -/
theorem populate_files (hcomp : cfg.CompressSound decompress page) (hroom : cfg.HasRoom) :
    ∀ (root : HostEntry) {s s' : Mkfs} {ino : ℕ}, populate cfg ino root s = .ok s' →
      Files decompress page s s' (listing cfg ino root s)
  | .mk _ _ _ _ xattrs files, s, s', ino, hrun => by
    rw [populate] at hrun
    obtain ⟨s₁, h₁, hrun⟩ := bind_eq_ok hrun
    obtain ⟨⟨inos, s₂⟩, h₂, hrun⟩ := bind_eq_ok hrun
    have h := (writeXattrEntry_files h₁).trans (writeEntries_files hcomp hroom h₂)
    simp only [listing, h₁, h₂]
    exact h.trans (populateDirs_files hcomp hroom files hrun)

theorem populateDirs_files (hcomp : cfg.CompressSound decompress page) (hroom : cfg.HasRoom) :
    ∀ (files : List HostEntry) {s s' : Mkfs} {inos : List ℕ},
      populateDirs cfg inos files s = .ok s' →
      Files decompress page s s' (listingDirs cfg inos files s)
  | [], s, s', inos, hrun => by
    rw [populateDirs] at hrun
    obtain rfl := Except.ok.inj hrun
    rw [listingDirs]
    exact .of_eq rfl rfl rfl
  | e :: es, s, s', inos, hrun => by
    rw [populateDirs] at hrun
    rw [listingDirs]
    split at hrun
    next hdir =>
      obtain ⟨s₁, h₁, hrun⟩ := bind_eq_ok hrun
      simp only [if_pos hdir, h₁]
      exact (populate_files hcomp hroom e h₁).trans (populateDirs_files hcomp hroom es hrun)
    next hdir =>
      rw [if_neg hdir]
      exact populateDirs_files hcomp hroom es hrun

end

end Walk

section Image

variable {decompress : Byte → List Byte → ℕ → Option (List Byte)} {page : ℕ} {cfg : Config}
  {s : Mkfs} {root : HostEntry} {ws ws' : List Write}

theorem padblock_inodes (hrun : padblock cfg ws = .ok ws') : inodesOf ws' = inodesOf ws := by
  unfold padblock at hrun
  split at hrun
  next => rw [← Except.ok.inj hrun]
  next => exact fullWrite_inodes rfl hrun

theorem padCleanmarkers_inodes {k : ℕ} (hrun : padCleanmarkers cfg k ws = .ok ws') :
    inodesOf ws' = inodesOf ws := by
  induction k generalizing ws with
  | zero => cases hrun
  | succ k ih =>
    rw [padCleanmarkers] at hrun
    split at hrun
    next =>
      obtain ⟨ws₁, h₁, hrun⟩ := bind_eq_ok hrun
      obtain ⟨ws₂, h₂, hrun⟩ := bind_eq_ok hrun
      rw [ih hrun, padblock_inodes h₂, fullWrite_inodes rfl h₁]
    next => rw [← Except.ok.inj hrun]

theorem padFs_inodes (hrun : padFs cfg ws = .ok ws') : inodesOf ws' = inodesOf ws := by
  unfold padFs at hrun
  split at hrun
  next => exact padblock_inodes hrun
  next =>
    split at hrun
    next =>
      obtain ⟨ws₁, h₁, hrun⟩ := bind_eq_ok hrun
      rw [padCleanmarkers_inodes hrun, padblock_inodes h₁]
    next =>
      split at hrun
      next => exact fullWrite_inodes rfl hrun
      next => rw [← Except.ok.inj hrun]

theorem filed_start : Filed decompress page Mkfs.start [] :=
  ⟨fun _ h => absurd h List.not_mem_nil, fun _ h => absurd h List.not_mem_nil,
    fun _ h => absurd h List.not_mem_nil⟩

/-- Each entry of an image has the number of one that is the same file on the host, and whose nodes
are those with the number. -/
theorem createTargetFilesystem_files (hcomp : cfg.CompressSound decompress page)
    (hroom : cfg.HasRoom) (hrun : createTargetFilesystem cfg 0 root = .ok (s, ws)) {x : Listed}
    (hx : x ∈ entriesOf cfg root) : ∃ y ∈ entriesOf cfg root,
      y.entry.hostFile = x.entry.hostFile ∧ y.ino = x.ino ∧
      (y.entry.iftodt = DT_REG → (∀ buf ∈ y.entry.reads, buf.length ≤ page) →
        FileNodes decompress y.entry y.ino (nodesFor y.ino ws)) := by
  obtain ⟨s₁, h₁, hrun⟩ := bind_eq_ok hrun
  obtain ⟨ws₁, h₂, hrun⟩ := bind_eq_ok hrun
  obtain ⟨rfl, rfl⟩ := Prod.mk.inj (Except.ok.inj hrun)
  have hall := populate_files hcomp hroom root h₁ [] filed_start
  obtain ⟨y, hy, hhost, hino, -, hfile⟩ := hall.entries x hx
  refine ⟨y, hy, hhost, hino, fun hreg hpage => ?_⟩
  rw [nodesFor, padFs_inodes h₂]
  exact hfile hreg hpage

/-- The inode numbers of an image have 32 bits. -/
theorem inodesOf_numbers (h4 : cfg.erase_block_size%4 = 0) (hcomp : cfg.CompressSound decompress page)
    (hroom : cfg.HasRoom) (hrun : createTargetFilesystem cfg 0 root = .ok (s, ws)) :
    ∀ n ∈ inodesOf ws, n.ino < 2^32 := by
  have hlen := (createTargetFilesystem_worded h4 hrun).2
  obtain ⟨s₁, h₁, hrun⟩ := bind_eq_ok hrun
  obtain ⟨ws₁, h₂, hrun⟩ := bind_eq_ok hrun
  obtain ⟨rfl, rfl⟩ := Prod.mk.inj (Except.ok.inj hrun)
  have hall := populate_files hcomp hroom root h₁ [] filed_start
  have hbound : s₁.ino ≤ 1+(entriesOf cfg root).length :=
    (populate_enters (s := Mkfs.start) h4 root h₁).bound
  intro n hn
  rw [padFs_inodes h₂] at hn
  have := hall.numbers n hn
  omega

theorem Aligned.within (h : Aligned ws) : Within ws := by
  intro o n hat
  obtain ⟨h4, hpad⟩ := h.nodes o n hat
  have hle := hat.le
  have hnext := h.next
  unfold Node.Padded pad4 at hpad
  omega

theorem createTargetFilesystem_within (h4 : cfg.erase_block_size%4 = 0)
    (hrun : createTargetFilesystem cfg 0 root = .ok (s, ws)) : Within ws := by
  obtain ⟨s₁, h₁, hrun⟩ := bind_eq_ok hrun
  obtain ⟨ws₁, h₂, hrun⟩ := bind_eq_ok hrun
  obtain ⟨rfl, rfl⟩ := Prod.mk.inj (Except.ok.inj hrun)
  have h := populate_enters (s := Mkfs.start) h4 root h₁
  have ha : Aligned s₁.writes :=
    h.added.aligned ⟨fun o n hat => absurd hat not_at_nil, rfl, Nat.zero_le _⟩
  exact (padFs_placed ha.within h₂).1

/-- Each inode node takes the length of its struct at least. -/
theorem inodesOf_length (ws : List Write) : 68*(inodesOf ws).length ≤ outOfs ws := by
  induction ws using List.reverseRecOn with
  | nil => exact Nat.zero_le _
  | append_singleton ws w ih =>
    have hlast : 68*(inodesOf [w]).length ≤ outOfs [w] := by
      cases w with
      | ff k => exact Nat.zero_le _
      | node m =>
        cases m with
        | inode n =>
          rw [outOfs_node]
          exact Nat.le_add_right 68 _
        | _ => exact Nat.zero_le _
    rw [inodesOf_append, List.length_append, outOfs_append]
    omega

end Image

end ChipTools.Jffs2
