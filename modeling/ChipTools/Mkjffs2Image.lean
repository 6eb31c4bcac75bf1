import ChipTools.Mkjffs2Blocks

/-! The calls of `pad_block_if_less_than` that `mkfs.jffs2` makes for a directory tree, each with
`out_ofs` before it, and the structure of the image. -/
namespace ChipTools.Jffs2
open Bytes Loop

section Calls

variable (cfg : Config)

/-- The calls that follow a step, if that comes to its end. -/
def after {α : Type} (x : Except MkfsStop α) (f : α → List Ask) : List Ask :=
  match x with
  | .ok a => f a
  | .error _ => []

@[simp] theorem after_ok {α : Type} (a : α) (f : α → List Ask) : after (.ok a) f = f a := rfl

/-- The call for a node whose length is known. -/
def ask (ws : List Write) (req totlen : ℕ) : Ask := ⟨outOfs ws, req, fun _ => totlen⟩

def direntAsk (e : HostEntry) (ws : List Write) : Ask := ask ws (40+e.name.length) (40+e.name.length)

/-- The room for data at a place of an eraseblock, a number of 32 bits. -/
def roomAt (p : ℕ) : ℕ := (cfg.erase_block_size-p+2^32-68)%2^32

/-- The calls of the loop over what one `read` returned. -/
def chunkAsks (e : HostEntry) (ino : ℕ) : ℕ → List Byte → ℕ → ℕ → List Write → List Ask
  | _, [], _, _, _ => []
  | 0, _ :: _, _, _, _ => []
  | k+1, b :: bs, ver, offset, ws =>
    let tbuf := b :: bs
    ⟨outOfs ws, 68+JFFS2_MIN_DATA_LEN, fun p =>
        (dataNode cfg e ino (ver+1) offset tbuf (min (roomAt cfg p) tbuf.length)).totlen⟩ ::
      after (padBlockIfLessThan cfg (68+JFFS2_MIN_DATA_LEN) ws) fun ws =>
        let n := dataNode cfg e ino (ver+1) offset tbuf (min (roomFor cfg ws) tbuf.length)
        after (writeNode (.inode n) ws) fun ws =>
          chunkAsks e ino k (tbuf.drop n.dsize) (ver+1) (offset+n.dsize) ws

def chunksAsks (e : HostEntry) (ino : ℕ) : List (List Byte) → ℕ → ℕ → List Write → List Ask
  | [], _, _, _ => []
  | buf :: reads, ver, offset, ws =>
    chunkAsks cfg e ino buf.length buf ver offset ws ++
      after (writeChunk cfg e ino buf.length buf ver offset ws) fun (ver, offset, ws) =>
        chunksAsks e ino reads ver offset ws

def regularAsks (pino : ℕ) (e : HostEntry) (s : Mkfs) : List Ask :=
  if JFFS2_MAX_FILE_SIZE ≤ e.sb.st_size then []
  else
    let ino := s.ino+1
    direntAsk e s.writes :: after (writeDirent cfg pino ino e { s with ino := ino }) fun s =>
      chunksAsks cfg e ino e.reads 0 0 s.writes ++
        after (writeChunks cfg e ino e.reads 0 0 s.writes) fun (ver, ws) =>
          if ver = 0 then [ask ws 68 68] else []

def singleAsks (pino : ℕ) (data : List Byte) (e : HostEntry) (s : Mkfs) : List Ask :=
  let ino := s.ino+1
  direntAsk e s.writes :: after (writeDirent cfg pino ino e { s with ino := ino }) fun s =>
    [ask s.writes (68+data.length) (68+data.length)]

/-- The node of an attribute goes on to the next word, and the call does not ask for that. -/
def findXattrAsks (x : HostXattr) (s : Mkfs) : List Ask :=
  match s.xentries.lookup x with
  | some _ => []
  | none =>
    let req := 32+x.xname.length+1+x.xvalue.length
    [ask s.writes req (pad4 req)]

def xattrAsks (ino : ℕ) : List HostXattr → Mkfs → List Ask
  | [], _ => []
  | x :: xs, s =>
    findXattrAsks x s ++ after (findXattrEntry cfg x s) fun (xid, s) =>
      ask s.writes 28 28 :: after (s.put cfg 28 (.xref ⟨ino, xid, s.highest_xseqno+2⟩)) fun s =>
        xattrAsks ino xs { s with highest_xseqno := s.highest_xseqno+2 }

def kindAsks (pino : ℕ) (e : HostEntry) (s : Mkfs) : List Ask :=
  if e.iftodt = DT_DIR ∨ e.iftodt = DT_SOCK ∨ e.iftodt = DT_FIFO then singleAsks cfg pino [] e s
  else if e.iftodt = DT_CHR ∨ e.iftodt = DT_BLK then
    singleAsks cfg pino (cfg.target_endian.put 2 (e.sb.major*256+e.sb.minor)) e s
  else if e.iftodt = DT_LNK then
    singleAsks cfg pino (e.link.take JFFS2_MAX_SYMLINK_LEN) e s
  else regularAsks cfg pino e s

def newAsks (pino : ℕ) (e : HostEntry) (s : Mkfs) : List Ask :=
  kindAsks cfg pino e s ++ after (writeKind cfg pino e s) fun (ino, s) => xattrAsks cfg ino e.xattrs s

def entryAsks (pino : ℕ) (e : HostEntry) (s : Mkfs) : List Ask :=
  match s.hardlinks.lookup (e.sb.st_dev, e.sb.st_ino) with
  | some 0 => newAsks cfg pino e s
  | some _ => [direntAsk e s.writes]
  | none => newAsks cfg pino e s

def entriesAsks (pino : ℕ) : List HostEntry → Mkfs → List Ask
  | [], _ => []
  | e :: es, s =>
    entryAsks cfg pino e s ++ after (writeEntry cfg pino e s) fun (_, s) => entriesAsks pino es s

mutual

/-- All calls of `pad_block_if_less_than` for a directory, one after the other. -/
def treeAsks (ino : ℕ) : HostEntry → Mkfs → List Ask
  | .mk _ _ _ _ xattrs files, s =>
    xattrAsks cfg ino xattrs s ++ after (writeXattrEntry cfg ino xattrs s) fun s =>
      entriesAsks cfg ino files s ++ after (writeEntries cfg ino files s) fun (inos, s) =>
        dirsAsks inos files s

def dirsAsks : List ℕ → List HostEntry → Mkfs → List Ask
  | inos, e :: es, s =>
    if e.iftodt = DT_DIR ∧ e.files ≠ [] then
      treeAsks (inos.headD 0) e s ++ after (populate cfg (inos.headD 0) e s) fun s =>
        dirsAsks inos.tail es s
    else dirsAsks inos.tail es s
  | _, [], _ => []

end

/-- What the loop over the eraseblocks that are left needs: each of those up to the size of the file
system starts at a word and holds the cleanmarker. -/
def PadServed (ofs : ℕ) : Prop :=
  cfg.pad_fs_size ≠ -1 → cfg.add_cleanmarkers →
    ∀ k, ((blockEnd cfg ofs+k*cfg.erase_block_size : ℕ) : ℤ) < cfg.pad_fs_size →
      (blockEnd cfg ofs+k*cfg.erase_block_size)%4 = 0 ∧ cfg.cleanmarker_size ≤ cfg.erase_block_size

end Calls

section Writers

variable {cfg : Config} {s s' : Mkfs} {n : Node} {e : HostEntry} {ws ws' : List Write}

/-- A call for a node whose length is known, and the node. -/
theorem put_asked {req : ℕ} (hrun : s.put cfg req n = .ok s') (hst : n.stored = req)
    (hpad : n.Padded) (hne : n ≠ cleanmarker cfg) :
    Asked cfg s.writes [ask s.writes req n.totlen] s'.writes := by
  obtain ⟨ws, hput, h⟩ := bind_eq_ok hrun
  obtain rfl := Except.ok.inj h
  obtain ⟨ws₁, hroom, hnode⟩ := bind_eq_ok hput
  have hpos := stored_pos n
  have hle := stored_le n
  exact .cons rfl hroom hnode rfl (fun _ => hpos.trans_le hle) (fun _ => hst ▸ hle) hpad hne (.nil _)

theorem writeDirent_asked {pino ino : ℕ} (hrun : writeDirent cfg pino ino e s = .ok s') :
    Asked cfg s.writes [direntAsk e s.writes] s'.writes := by
  obtain ⟨s₁, hput, h⟩ := bind_eq_ok hrun
  obtain rfl := Except.ok.inj h
  have hone := put_asked hput rfl (le_pad4_self _) (by rintro ⟨⟩)
  exact hone

theorem writeChunk_asked {ino k : ℕ} {tbuf : List Byte} {ver offset : ℕ}
    {r : ℕ × ℕ × List Write} (hrun : writeChunk cfg e ino k tbuf ver offset ws = .ok r) :
    Asked cfg ws (chunkAsks cfg e ino k tbuf ver offset ws) r.2.2 := by
  induction k generalizing tbuf ver offset ws with
  | zero =>
    cases tbuf with
    | nil =>
      obtain rfl := Except.ok.inj hrun
      exact .nil ws
    | cons b bs => cases hrun
  | succ k ih =>
    cases tbuf with
    | nil =>
      obtain rfl := Except.ok.inj hrun
      exact .nil ws
    | cons b bs =>
      obtain ⟨ws₁, hroom, hrest⟩ := bind_eq_ok hrun
      obtain ⟨ws₂, hnode, hrest⟩ := bind_eq_ok hrest
      rw [chunkAsks]
      dsimp only
      rw [hroom, after_ok, hnode, after_ok]
      refine .cons rfl hroom hnode rfl (fun p => ?_) (fun hlarge => ?_) (le_pad4_self _)
        (by rintro ⟨⟩) (ih hrest)
      · exact Nat.lt_of_lt_of_le (by decide) (Nat.le_add_right 68 _)
      · have hmin := cfg.block_min
        exact absurd (hmin.trans_lt hlarge) (show ¬0x2000 < 68+JFFS2_MIN_DATA_LEN by decide)

theorem writeChunks_asked {ino : ℕ} {reads : List (List Byte)} {ver offset : ℕ}
    {r : ℕ × List Write} (hrun : writeChunks cfg e ino reads ver offset ws = .ok r) :
    Asked cfg ws (chunksAsks cfg e ino reads ver offset ws) r.2 := by
  induction reads generalizing ver offset ws with
  | nil =>
    obtain rfl := Except.ok.inj hrun
    exact .nil ws
  | cons buf reads ih =>
    obtain ⟨⟨ver₁, offset₁, ws₁⟩, hchunk, hrest⟩ := bind_eq_ok hrun
    rw [chunksAsks, hchunk]
    have hfirst := writeChunk_asked hchunk
    exact hfirst.append (ih hrest)

theorem writeRegularFile_asked {pino : ℕ} {r : ℕ × Mkfs}
    (hrun : writeRegularFile cfg pino e s = .ok r) :
    Asked cfg s.writes (regularAsks cfg pino e s) r.2.writes := by
  unfold writeRegularFile at hrun
  unfold regularAsks
  split at hrun
  next hsize =>
    obtain rfl := Except.ok.inj hrun
    rw [if_pos hsize]
    exact .nil _
  next hsize =>
    obtain ⟨s₁, hdirent, hrun⟩ := bind_eq_ok hrun
    obtain ⟨⟨ver, ws⟩, hchunks, hrun⟩ := bind_eq_ok hrun
    have hd := writeDirent_asked hdirent
    have hdata := hd.append (writeChunks_asked hchunks)
    rw [if_neg hsize]
    dsimp only
    rw [hdirent, after_ok, hchunks, after_ok]
    dsimp only at hrun hdata ⊢
    split at hrun
    next h0 =>
      obtain ⟨s₂, hempty, hrun⟩ := bind_eq_ok hrun
      obtain rfl := Except.ok.inj hrun
      have hlast := put_asked hempty rfl (le_pad4_self 68) (by rintro ⟨⟩)
      rw [if_pos h0]
      exact hdata.append hlast
    next h0 =>
      obtain rfl := Except.ok.inj hrun
      rw [if_neg h0, List.append_nil]
      exact hdata

theorem writeSingle_asked {data : List Byte} {pino isize : ℕ} {r : ℕ × Mkfs}
    (hrun : writeSingle cfg pino isize data e s = .ok r) :
    Asked cfg s.writes (singleAsks cfg pino data e s) r.2.writes := by
  obtain ⟨s₁, hdirent, hrun⟩ := bind_eq_ok hrun
  obtain ⟨s₂, hnode, hrun⟩ := bind_eq_ok hrun
  obtain rfl := Except.ok.inj hrun
  have hd := writeDirent_asked hdirent
  unfold singleAsks
  dsimp only
  rw [hdirent]
  have hlast := put_asked hnode rfl (le_pad4_self _) (by rintro ⟨⟩)
  exact hd.append hlast

theorem xattrOf_stored (xid : ℕ) (x : HostXattr) :
    (Node.xattr (xattrOf xid x)).stored = 32+x.xname.length+1+x.xvalue.length := by
  simp [Node.stored, xattrOf, Xattr.data]
  omega

theorem xattrOf_totlen (xid : ℕ) (x : HostXattr) :
    (Node.xattr (xattrOf xid x)).totlen = pad4 (32+x.xname.length+1+x.xvalue.length) := by
  have hst := xattrOf_stored xid x
  have := le_pad4_self (32+x.xname.length+1+x.xvalue.length)
  simp only [Node.stored] at hst
  simp only [Node.totlen, Xattr.totlen, hst]
  simp only [xattrOf, List.length_replicate]
  omega

theorem xattrOf_padded (xid : ℕ) (x : HostXattr) : (Node.xattr (xattrOf xid x)).Padded := by
  rw [Node.Padded, xattrOf_totlen, xattrOf_stored]

theorem findXattrEntry_asked {x : HostXattr} {r : ℕ × Mkfs}
    (hrun : findXattrEntry cfg x s = .ok r) :
    Asked cfg s.writes (findXattrAsks x s) r.2.writes := by
  unfold findXattrEntry at hrun
  split at hrun
  next hx =>
    obtain rfl := Except.ok.inj hrun
    have hasks : findXattrAsks x s = [] := by simp only [findXattrAsks, hx]
    rw [hasks]
    exact .nil _
  next hx =>
    obtain ⟨s₁, hput, hrun⟩ := bind_eq_ok hrun
    obtain rfl := Except.ok.inj hrun
    have hasks : findXattrAsks x s = [ask s.writes (32+x.xname.length+1+x.xvalue.length)
        (pad4 (32+x.xname.length+1+x.xvalue.length))] := by simp only [findXattrAsks, hx]
    rw [hasks, ← xattrOf_totlen (s.highest_xid+1) x]
    have hone := put_asked hput (xattrOf_stored _ x) (xattrOf_padded _ x) (by rintro ⟨⟩)
    exact hone

theorem writeXattrEntry_asked {xs : List HostXattr} {ino : ℕ}
    (hrun : writeXattrEntry cfg ino xs s = .ok s') :
    Asked cfg s.writes (xattrAsks cfg ino xs s) s'.writes := by
  induction xs generalizing s with
  | nil =>
    obtain rfl := Except.ok.inj hrun
    exact .nil _
  | cons x xs ih =>
    obtain ⟨⟨xid, s₁⟩, hfind, hrun⟩ := bind_eq_ok hrun
    obtain ⟨s₂, hput, hrun⟩ := bind_eq_ok hrun
    rw [xattrAsks, hfind, after_ok]
    dsimp only at hput ⊢
    rw [hput, after_ok]
    have href := put_asked hput rfl (le_pad4_self 28) (by rintro ⟨⟩)
    exact (findXattrEntry_asked hfind).append (href.append (ih hrun))

theorem writeKind_asked {pino : ℕ} {r : ℕ × Mkfs} (hrun : writeKind cfg pino e s = .ok r) :
    Asked cfg s.writes (kindAsks cfg pino e s) r.2.writes := by
  unfold writeKind at hrun
  unfold kindAsks
  split at hrun
  next hk =>
    rw [if_pos hk]
    exact writeSingle_asked hrun
  next hk =>
    rw [if_neg hk]
    split at hrun
    next hk =>
      rw [if_pos hk]
      exact writeSingle_asked hrun
    next hk =>
      rw [if_neg hk]
      split at hrun
      next hk =>
        rw [if_pos hk]
        exact writeSingle_asked hrun
      next hk =>
        rw [if_neg hk]
        exact writeRegularFile_asked hrun

theorem writeNew_asked {pino : ℕ} {r : ℕ × Mkfs} (hrun : writeNew cfg pino e s = .ok r) :
    Asked cfg s.writes (newAsks cfg pino e s) r.2.writes := by
  obtain ⟨⟨ino, s₁⟩, hkind, hrun⟩ := bind_eq_ok hrun
  obtain ⟨s₂, hxattr, hrun⟩ := bind_eq_ok hrun
  obtain rfl := Except.ok.inj hrun
  rw [newAsks, hkind]
  have hrest : Asked cfg s₁.writes (xattrAsks cfg ino e.xattrs s₁) s₂.writes :=
    writeXattrEntry_asked hxattr
  exact (writeKind_asked hkind).append hrest

theorem writeEntry_asked {pino : ℕ} {r : ℕ × Mkfs} (hrun : writeEntry cfg pino e s = .ok r) :
    Asked cfg s.writes (entryAsks cfg pino e s) r.2.writes := by
  unfold writeEntry at hrun
  split at hrun
  next hl =>
    have hasks : entryAsks cfg pino e s = newAsks cfg pino e s := by simp only [entryAsks, hl]
    rw [hasks]
    exact writeNew_asked hrun
  next ino hno hl =>
    obtain ⟨s₁, hdirent, hrun⟩ := bind_eq_ok hrun
    obtain rfl := Except.ok.inj hrun
    have hasks : entryAsks cfg pino e s = [direntAsk e s.writes] := by
      cases ino with
      | zero => exact absurd rfl hno
      | succ ino => simp only [entryAsks, hl]
    rw [hasks]
    exact writeDirent_asked hdirent
  next hl =>
    have hasks : entryAsks cfg pino e s = newAsks cfg pino e s := by simp only [entryAsks, hl]
    rw [hasks]
    exact writeNew_asked hrun

theorem writeEntries_asked {files : List HostEntry} {pino : ℕ} {r : List ℕ × Mkfs}
    (hrun : writeEntries cfg pino files s = .ok r) :
    Asked cfg s.writes (entriesAsks cfg pino files s) r.2.writes := by
  induction files generalizing s r with
  | nil =>
    obtain rfl := Except.ok.inj hrun
    exact .nil _
  | cons e es ih =>
    obtain ⟨⟨ino, s₁⟩, hentry, hrun⟩ := bind_eq_ok hrun
    obtain ⟨⟨inos, s₂⟩, hrest, hrun⟩ := bind_eq_ok hrun
    obtain rfl := Except.ok.inj hrun
    have hlast : Asked cfg s₁.writes (entriesAsks cfg pino es s₁) s₂.writes := ih hrest
    rw [entriesAsks, hentry]
    exact (writeEntry_asked hentry).append hlast

mutual

/-- The calls of a run over a tree lead to what it writes. -/
theorem populate_asked : ∀ (root : HostEntry) {s s' : Mkfs} {ino : ℕ},
    populate cfg ino root s = .ok s' → Asked cfg s.writes (treeAsks cfg ino root s) s'.writes
  | .mk _ _ _ _ xattrs files, s, s', ino, hrun => by
    rw [populate] at hrun
    obtain ⟨s₁, hxattr, hrun⟩ := bind_eq_ok hrun
    obtain ⟨⟨inos, s₂⟩, hentries, hrun⟩ := bind_eq_ok hrun
    rw [treeAsks, hxattr, after_ok, hentries]
    have hfirst := writeEntries_asked hentries
    exact (writeXattrEntry_asked hxattr).append (hfirst.append (populateDirs_asked files hrun))

theorem populateDirs_asked : ∀ (files : List HostEntry) {s s' : Mkfs} {inos : List ℕ},
    populateDirs cfg inos files s = .ok s' → Asked cfg s.writes (dirsAsks cfg inos files s) s'.writes
  | [], s, s', inos, hrun => by
    rw [populateDirs] at hrun
    obtain rfl := Except.ok.inj hrun
    rw [dirsAsks]
    exact .nil _
  | e :: es, s, s', inos, hrun => by
    rw [populateDirs] at hrun
    rw [dirsAsks]
    split at hrun
    next hk =>
      obtain ⟨s₁, hdir, hrun⟩ := bind_eq_ok hrun
      rw [if_pos hk, hdir]
      exact (populate_asked e hdir).append (populateDirs_asked es hrun)
    next hk =>
      rw [if_neg hk]
      exact populateDirs_asked es hrun

end

end Writers

section Image

variable {cfg : Config} {ws ws' : List Write}

theorem Within.ff (h : Within ws) (k : ℕ) : Within (ws ++ [.ff k]) := by
  intro o m hm
  have := h o m (at_ff.mp hm)
  rw [outOfs_append]
  omega

theorem Placed.ff (k : ℕ) : Placed cfg (ws ++ [.ff k]) ↔ Placed cfg ws :=
  Placed.congr fun _ _ => at_ff

theorem padCleanmarkers_grows {k : ℕ} (hrun : padCleanmarkers cfg k ws = .ok ws') : ws <+: ws' := by
  induction k generalizing ws with
  | zero => cases hrun
  | succ k ih =>
    rw [padCleanmarkers] at hrun
    split at hrun
    next =>
      obtain ⟨ws₁, hmark, hrun⟩ := bind_eq_ok hrun
      obtain ⟨ws₂, hpad, hrest⟩ := bind_eq_ok hrun
      obtain rfl := fullWrite_ok hmark
      exact (List.prefix_append _ _).trans ((padblock_ends hpad).1.trans (ih hrest))
    next =>
      obtain rfl := Except.ok.inj hrun
      exact List.prefix_refl _

/-- The eraseblocks up to the size of the file system have a cleanmarker and nothing else. -/
theorem padCleanmarkers_placed {k : ℕ} (h0 : outOfs ws%cfg.erase_block_size = 0) (h : Within ws)
    (hrun : padCleanmarkers cfg k ws = .ok ws') : Within ws' ∧ (Placed cfg ws' ↔ Placed cfg ws ∧
      ∀ j, ((outOfs ws+j*cfg.erase_block_size : ℕ) : ℤ) < cfg.pad_fs_size →
        (outOfs ws+j*cfg.erase_block_size)%4 = 0 ∧ cfg.cleanmarker_size ≤ cfg.erase_block_size) := by
  induction k generalizing ws with
  | zero => cases hrun
  | succ k ih =>
    have hcm := cfg.cleanmarker_min
    rw [padCleanmarkers] at hrun
    split at hrun
    next hlt =>
      obtain ⟨ws₁, hmark, hrun⟩ := bind_eq_ok hrun
      obtain ⟨ws₂, hpad, hloop⟩ := bind_eq_ok hrun
      obtain rfl := fullWrite_ok hmark
      obtain ⟨-, hat, hofs⟩ := padblock_ends hpad
      have hone : Placed cfg ws₂ ↔ Placed cfg ws ∧ outOfs ws%4 = 0 ∧
          cfg.cleanmarker_size ≤ cfg.erase_block_size :=
        (Placed.congr hat).trans (cleanmarker_placed h0 fun _ _ => at_node)
      have hin : Within ws₂ := by
        refine Within.padblock (fun o m hm => ?_) hpad
        rw [outOfs_append, outOfs_node]
        rcases at_node.mp hm with hm | ⟨rfl, rfl⟩
        · have := h o m hm
          omega
        · rw [cleanmarker_stored, cleanmarker_totlen]
      obtain ⟨hend, hrest⟩ := ih (by rw [hofs, blockEnd_mod]) hin hloop
      refine ⟨hend, ?_⟩
      rw [hrest, hone]
      by_cases hle : cfg.cleanmarker_size ≤ cfg.erase_block_size
      · -- the cleanmarker and what is padded make one eraseblock
        have hnext : outOfs ws₂ = outOfs ws+cfg.erase_block_size := by
          rw [hofs, outOfs_append, outOfs_node, cleanmarker_stored]
          unfold blockEnd
          rcases Nat.lt_or_eq_of_le hle with hl | heq
          · obtain ⟨hdiv, hmod⟩ := @same_block (outOfs ws) cfg.cleanmarker_size cfg.erase_block_size
              (by omega)
            rw [if_neg (by omega), hdiv, Nat.succ_mul,
              Nat.div_mul_cancel (Nat.dvd_of_mod_eq_zero h0)]
          · rw [heq, Nat.add_mod_right, if_pos h0]
        rw [hnext]
        constructor
        · rintro ⟨⟨hp, h4, -⟩, hall⟩
          refine ⟨hp, fun j hj => ?_⟩
          cases j with
          | zero => exact ⟨by rw [Nat.zero_mul]; exact h4, hle⟩
          | succ j =>
            have hsucc : outOfs ws+(j+1)*cfg.erase_block_size =
                outOfs ws+cfg.erase_block_size+j*cfg.erase_block_size := by
              rw [Nat.succ_mul]
              omega
            rw [hsucc] at hj ⊢
            exact hall j hj
        · rintro ⟨hp, hall⟩
          refine ⟨⟨hp, ?_, hle⟩, fun j hj => ?_⟩
          · have := (hall 0 (by rw [Nat.zero_mul]; exact hlt)).1
            rwa [Nat.zero_mul] at this
          · have hsucc : outOfs ws+cfg.erase_block_size+j*cfg.erase_block_size =
                outOfs ws+(j+1)*cfg.erase_block_size := by
              rw [Nat.succ_mul]
              omega
            rw [hsucc] at hj ⊢
            exact hall (j+1) hj
      · constructor
        · rintro ⟨⟨-, -, h⟩, -⟩
          exact absurd h hle
        · rintro ⟨-, hall⟩
          exact absurd (hall 0 (by rw [Nat.zero_mul]; exact hlt)).2 hle
    next hlt =>
      obtain rfl := Except.ok.inj hrun
      refine ⟨h, ⟨fun hp => ⟨hp, fun j hj => ?_⟩, fun hp => hp.1⟩⟩
      have hle : (outOfs ws : ℤ) ≤ (outOfs ws+j*cfg.erase_block_size : ℕ) :=
        Int.ofNat_le.mpr (Nat.le_add_right _ _)
      exact absurd (hle.trans_lt hj) hlt

theorem padFs_grows (hrun : padFs cfg ws = .ok ws') : ws <+: ws' := by
  unfold padFs at hrun
  split at hrun
  · exact (padblock_ends hrun).1
  · split at hrun
    · obtain ⟨ws₁, hpad, hrest⟩ := bind_eq_ok hrun
      exact (padblock_ends hpad).1.trans (padCleanmarkers_grows hrest)
    · split at hrun
      · obtain rfl := fullWrite_ok hrun
        exact List.prefix_append _ _
      · obtain rfl := Except.ok.inj hrun
        exact List.prefix_refl _

theorem padFs_placed (h : Within ws) (hrun : padFs cfg ws = .ok ws') :
    Within ws' ∧ (Placed cfg ws' ↔ Placed cfg ws ∧ PadServed cfg (outOfs ws)) := by
  unfold padFs at hrun
  unfold PadServed
  split at hrun
  next h1 =>
    obtain ⟨-, hat, -⟩ := padblock_ends hrun
    refine ⟨h.padblock hrun, ?_⟩
    rw [Placed.congr hat]
    exact ⟨fun hp => ⟨hp, fun hno => absurd h1 hno⟩, fun hp => hp.1⟩
  next h1 =>
    split at hrun
    next hc =>
      obtain ⟨ws₁, hpad, hrun⟩ := bind_eq_ok hrun
      obtain ⟨-, hat, hofs⟩ := padblock_ends hpad
      obtain ⟨hend, hall⟩ := padCleanmarkers_placed (by rw [hofs, blockEnd_mod]) (h.padblock hpad)
        hrun
      refine ⟨hend, ?_⟩
      rw [hall, Placed.congr hat, hofs]
      exact and_congr_right fun _ => ⟨fun hs _ _ => hs, fun hs => hs h1 hc.2⟩
    next hc =>
      have hvac (hp : Placed cfg ws) : Placed cfg ws ∧ (cfg.pad_fs_size ≠ -1 →
          cfg.add_cleanmarkers → ∀ k, ((blockEnd cfg (outOfs ws)+k*cfg.erase_block_size : ℕ) : ℤ) <
            cfg.pad_fs_size → (blockEnd cfg (outOfs ws)+k*cfg.erase_block_size)%4 = 0 ∧
              cfg.cleanmarker_size ≤ cfg.erase_block_size) := by
        refine ⟨hp, fun _ hadd k hk => ?_⟩
        have hz : cfg.pad_fs_size = 0 := by
          by_contra hne
          exact hc ⟨hne, hadd⟩
        omega
      split at hrun
      next =>
        obtain rfl := fullWrite_ok hrun
        exact ⟨h.ff _, (Placed.ff _).trans ⟨hvac, fun hp => hp.1⟩⟩
      next =>
        obtain rfl := Except.ok.inj hrun
        exact ⟨h, hvac, fun hp => hp.1⟩

/-- An image has the structure of its eraseblocks exactly when each call of `pad_block_if_less_than`
is served, and each eraseblock that is left for the size of the file system. -/
theorem createTargetFilesystem_structure_iff (cfg : Config) (ino : ℕ) (root : HostEntry) (s : Mkfs)
    (ws : List Write) (hrun : createTargetFilesystem cfg ino root = .ok (s, ws)) :
    BlockStructure cfg ws ↔
      (∀ a ∈ treeAsks cfg 1 root ⟨[], if ino = 0 then 1 else ino, 0, 0, 0, [], []⟩, a.Served cfg) ∧
        PadServed cfg (outOfs s.writes) := by
  obtain ⟨s₁, htree, hrun⟩ := bind_eq_ok hrun
  obtain ⟨ws₁, hpad, hrun⟩ := bind_eq_ok hrun
  obtain ⟨rfl, rfl⟩ := Prod.mk.inj (Except.ok.inj hrun)
  have hasked := populate_asked root htree
  obtain ⟨hsteady, hall⟩ := hasked.placed_iff (steady_nil cfg)
  by_cases hp : Placed cfg s₁.writes
  · obtain ⟨hin, hpads⟩ := padFs_placed (hsteady.within hp) hpad
    rw [blockStructure_iff fun _ => hin, hpads]
    exact and_congr_left fun _ => ⟨fun h => (hall.mp h).2, fun _ => hp⟩
  · -- a node that is not in its place stays where it is
    constructor
    · intro hs
      have hp' : Placed cfg ws₁ := ⟨hs.aligned, hs.inside, hs.marked⟩
      exact absurd (hp'.before (padFs_grows hpad)) hp
    · rintro ⟨hserved, -⟩
      exact absurd (hall.mpr ⟨placed_nil cfg, hserved⟩) hp


/-- Eraseblocks of 8 KiB with cleanmarkers, and nothing compressed. -/
def smallBlocks : Config where
  target_endian := .little
  erase_block_size := 0x2000
  add_cleanmarkers := true
  cleanmarker_size := 12
  pad_fs_size := 0
  jffs2_compress _ space := ⟨0, [], space, space⟩
  block_min := by decide
  block_lt := by decide
  cleanmarker_min := by decide

/-- A directory with a file of three bytes. -/
def smallRoot : HostEntry :=
  .mk [] ⟨1, 2, 0x41ed, 0, 0, 0, 0, 0, 0⟩ [] [] []
    [.mk [0x66#8] ⟨1, 3, 0x81a4, 0, 0, 3, 0, 0, 0⟩ [] [[1#8, 2#8, 3#8]] [] []]

/-- Eraseblocks whose ends are not all at words. -/
def oddBlocks : Config := { smallBlocks with
  erase_block_size := 0x2002
  block_min := by decide
  block_lt := by decide }

/-- A directory with an attribute and a file of three bytes. -/
def attrRoot : HostEntry :=
  .mk [] ⟨1, 2, 0x41ed, 0, 0, 0, 0, 0, 0⟩ [] [] [⟨1, [0x61#8], [1#8, 2#8]⟩]
    [.mk [0x66#8] ⟨1, 3, 0x81a4, 0, 0, 3, 0, 0, 0⟩ [] [[1#8, 2#8, 3#8]] [] []]

theorem createTargetFilesystem_structure_small : ∃ s ws,
    createTargetFilesystem oddBlocks 0 attrRoot = .ok (s, ws) ∧ outOfs ws = 12+36+28+44+72 ∧
      (∀ a ∈ treeAsks oddBlocks 1 attrRoot ⟨[], 1, 0, 0, 0, [], []⟩, a.Served oddBlocks) ∧
      BlockStructure oddBlocks ws := by
  have hofs : (createTargetFilesystem oddBlocks 0 attrRoot).toOption.map (fun r => outOfs r.2) =
      some (12+36+28+44+72) := by decide +kernel
  have hserved : ∀ a ∈ treeAsks oddBlocks 1 attrRoot ⟨[], 1, 0, 0, 0, [], []⟩, a.Served oddBlocks := by
    decide +kernel
  cases hrun : createTargetFilesystem oddBlocks 0 attrRoot with
  | error e =>
    rw [hrun] at hofs
    cases hofs
  | ok r =>
    obtain ⟨s, ws⟩ := r
    rw [hrun] at hofs
    refine ⟨s, ws, rfl, Option.some.inj hofs, hserved, ?_⟩
    refine (createTargetFilesystem_structure_iff _ 0 _ _ _ hrun).mpr ⟨hserved, fun _ _ k hk => ?_⟩
    exact absurd hk (not_lt.mpr (Int.natCast_nonneg _))

theorem outOfs_cons (w : Write) (ws : List Write) : outOfs (w :: ws) = w.size+outOfs ws := rfl

theorem fullWrite_of_lt {w : Write} {ws : List Write} (h : outOfs ws+w.size < 2^31) :
    fullWrite w ws = .ok (ws ++ [w]) := if_pos h

theorem startBlock_of_mod {ws : List Write} (hadd : cfg.add_cleanmarkers = true)
    (hst : (cleanmarker cfg).stored = 12) (h : outOfs ws%cfg.erase_block_size = 0)
    (h4 : outOfs ws%4 = 0) (hlt : outOfs ws+12 < 2^31) :
    startBlock cfg ws = .ok (ws ++ [.node (cleanmarker cfg)]) := by
  rw [startBlock, if_pos ⟨hadd, h⟩, fullWrite_of_lt (by rwa [Write.size, hst])]
  refine if_pos ?_
  rw [outOfs_append, outOfs_node, hst]
  omega

theorem startBlock_of_begun {ws : List Write} (h : outOfs ws%cfg.erase_block_size ≠ 0) :
    startBlock cfg ws = .ok ws := if_neg fun hc => h hc.2

/-- A request that is larger than an eraseblock is not met in the next one either. -/
theorem putNode_wide (hadd : cfg.add_cleanmarkers = true) (hsize : cfg.erase_block_size = 8192)
    (hst : (cleanmarker cfg).stored = 12) {n : Node} (hn : n.stored = 9034) :
    putNode cfg 9034 n [] = .ok [.node (cleanmarker cfg), .ff 8180, .node (cleanmarker cfg),
      .node n, .ff 2] := by
  have h₁ : startBlock cfg [] = .ok [.node (cleanmarker cfg)] := startBlock_of_mod hadd hst
    (Nat.zero_mod _) rfl (by decide)
  have h₂ : makeRoom cfg 9034 [.node (cleanmarker cfg)] =
      .ok [.node (cleanmarker cfg), .ff 8180] := by
    rw [makeRoom, padblock, outOfs_node, hst, hsize, if_pos (by decide), if_neg (by decide),
      fullWrite_of_lt (by rw [outOfs_node, hst]; decide)]
    rfl
  have hofs : outOfs [.node (cleanmarker cfg), .ff 8180] = 8192 := by
    simp only [outOfs_cons, Write.size, hst, outOfs_nil]
  have h₃ : startBlock cfg [.node (cleanmarker cfg), .ff 8180] =
      .ok [.node (cleanmarker cfg), .ff 8180, .node (cleanmarker cfg)] :=
    startBlock_of_mod hadd hst (by rw [hofs, hsize]) (by rw [hofs]) (by rw [hofs]; decide)
  have h₄ : fullWrite (.node n) [.node (cleanmarker cfg), .ff 8180, .node (cleanmarker cfg)] =
      .ok [.node (cleanmarker cfg), .ff 8180, .node (cleanmarker cfg), .node n] :=
    fullWrite_of_lt (by simp only [outOfs_cons, Write.size, hst, hn, outOfs_nil]; decide)
  have hofs' : outOfs [.node (cleanmarker cfg), .ff 8180, .node (cleanmarker cfg), .node n] =
      17238 := by
    simp only [outOfs_cons, Write.size, hst, hn, outOfs_nil]
  rw [putNode, padBlockIfLessThan, h₁, ok_bind, h₂, ok_bind, h₃, ok_bind, writeNode, h₄, ok_bind,
    padword, hofs', if_neg (by decide), fullWrite_of_lt (by rw [hofs']; decide)]
  rfl

theorem putNode_begun {ws : List Write} {n : Node} {req : ℕ}
    (h : outOfs ws%cfg.erase_block_size ≠ 0)
    (hroom : outOfs ws%cfg.erase_block_size+req ≤ cfg.erase_block_size)
    (hlt : outOfs ws+n.stored < 2^31) (h4 : (outOfs ws+n.stored)%4 = 0) :
    putNode cfg req n ws = .ok (ws ++ [.node n]) := by
  rw [putNode, padBlockIfLessThan, startBlock_of_begun h, ok_bind, makeRoom, if_neg (by omega),
    ok_bind, startBlock_of_begun h, ok_bind, writeNode, fullWrite_of_lt hlt, ok_bind]
  refine if_pos ?_
  rw [outOfs_append, outOfs_node, h4]

/-- An empty directory with an attribute that is larger than an eraseblock. -/
def wideRoot : HostEntry :=
  .mk [] ⟨1, 2, 0x41ed, 0, 0, 0, 0, 0, 0⟩ [] [] [⟨1, [0x61#8], List.replicate 9000 0#8⟩] []

/-- The node of the attribute starts in the second eraseblock and ends in the third. -/
theorem createTargetFilesystem_crosses : ∃ s ws,
    createTargetFilesystem smallBlocks 0 wideRoot = .ok (s, ws) ∧
      At ws 8204 (.xattr (xattrOf 1 ⟨1, [0x61#8], List.replicate 9000 0#8⟩)) ∧
      ¬BlockStructure smallBlocks ws := by
  have hst : (cleanmarker smallBlocks).stored = 12 := cleanmarker_totlen smallBlocks
  have hlen : 32+1+1+(List.replicate 9000 0#8).length = 9034 := by rw [List.length_replicate]
  unfold wideRoot
  generalize List.replicate 9000 0#8 = value at hlen
  have hn : (Node.xattr (xattrOf 1 ⟨1, [0x61#8], value⟩)).stored = 9034 := by
    rw [xattrOf_stored]
    exact hlen
  have hlen' : 32+[0x61#8].length+1+value.length = 9034 := hlen
  have hofs : outOfs [.node (cleanmarker smallBlocks), .ff 8180, .node (cleanmarker smallBlocks),
      .node (Node.xattr (xattrOf 1 ⟨1, [0x61#8], value⟩)), .ff 2] = 17240 := by
    simp only [outOfs_cons, Write.size, hst, hn, outOfs_nil]
  have hpad (ws : List Write) : padFs smallBlocks ws = .ok ws := by
    rw [padFs, if_neg (by decide), if_neg (by decide)]
    refine if_neg ?_
    change ¬(outOfs ws : ℤ) < 0
    omega
  have hput := @putNode_wide smallBlocks rfl rfl hst _ hn
  have href : putNode smallBlocks 28 (.xref ⟨1, 1, 2⟩) _ = _ := putNode_begun
    (by rw [hofs]; decide) (by rw [hofs]; decide) (by rw [hofs]; decide) (by rw [hofs]; decide)
  have hat : At ([.node (cleanmarker smallBlocks), .ff 8180, .node (cleanmarker smallBlocks),
      .node (Node.xattr (xattrOf 1 ⟨1, [0x61#8], value⟩)), .ff 2] ++ [.node (.xref ⟨1, 1, 2⟩)])
      8204 (.xattr (xattrOf 1 ⟨1, [0x61#8], value⟩)) := by
    refine ⟨[.node (cleanmarker smallBlocks), .ff 8180, .node (cleanmarker smallBlocks)], _, rfl, ?_⟩
    simp only [outOfs_cons, Write.size, hst, outOfs_nil]
  generalize [Write.node (cleanmarker smallBlocks), .ff 8180, .node (cleanmarker smallBlocks),
    .node (Node.xattr (xattrOf 1 ⟨1, [0x61#8], value⟩)), .ff 2] = ws at hput href hat
  have hrun : createTargetFilesystem smallBlocks 0 (.mk [] ⟨1, 2, 0x41ed, 0, 0, 0, 0, 0, 0⟩ [] []
      [⟨1, [0x61#8], value⟩] []) = .ok (⟨ws ++ [.node (.xref ⟨1, 1, 2⟩)], 1, 0, 1, 2,
        [(⟨1, [0x61#8], value⟩, 1)], []⟩, ws ++ [.node (.xref ⟨1, 1, 2⟩)]) := by
    simp only [createTargetFilesystem, populate, writeXattrEntry, findXattrEntry, List.lookup_nil,
      createXattrEntry, Mkfs.put, hlen', hput, ok_bind, Mkfs.withWrites, href, writeEntries,
      populateDirs, if_true, Nat.zero_add, hpad]
  refine ⟨_, _, hrun, hat, fun h => ?_⟩
  have hin := h.inside _ _ hat
  have hle := stored_le (.xattr (xattrOf 1 ⟨1, [0x61#8], value⟩))
  rw [show smallBlocks.erase_block_size = 8192 from rfl] at hin
  omega

end Image

end ChipTools.Jffs2
