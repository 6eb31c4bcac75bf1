import ChipTools.UbifsTableEntries

/-! The owners of the files of an image that is made with `--squash-uids`. -/
namespace ChipTools.UbifsTable
open Bytes Ubifs UbifsMkfs

section Squash

variable {z : Codec} {o : TreeOptions} {order : HashOrder} {tbl : List NameElt} {T : HostTree}
variable {s : Mkfs} {C : Made} {n : ℕ}

/-- The device table has an entry at a path that leads to the inode. -/
def Overridden (tbl : List NameElt) (s : Mkfs) (ino : InoNode) : Prop :=
  ∃ path name d, DentAt s.dents path name d ∧ ino.key = inoKeyInit d.inum ∧
    lookup tbl path name ≠ none

/-- Nobody of the host owns an inode of the image. -/
def Squashed (tbl : List NameElt) (s : Mkfs) : Prop :=
  ∀ ino ∈ s.inos, ¬ Overridden tbl s ino → ino.uid = 0#32 ∧ ino.gid = 0#32

/-- The directory of the host that is made the root is owned by root. -/
def HostTree.RootOwned (T : HostTree) : Prop :=
  (T.host T.root).st.st_uid = 0#32 ∧ (T.host T.root).st.st_gid = 0#32

theorem squash_owner (h : o.squash_owner = true) (st : Stat) :
    (squash o st).st_uid = 0#32 ∧ (squash o st).st_gid = 0#32 := by
  unfold squash
  rw [if_pos h]
  exact ⟨rfl, rfl⟩

/-- An entry of the image is one that the table knows, or it has no owner of the host. -/
theorem Written.squashed (hw : Written o order tbl T s C) (hT : HostNames T)
    (hs : o.squash_owner = true) {x : Placed} (hx : x ∈ C.all) :
    lookup tbl x.path x.name ≠ none ∨ (x.st.st_uid = 0#32 ∧ x.st.st_gid = 0#32) := by
  obtain ⟨p, j, D, S, ⟨es, hes, hmerged⟩, hitem⟩ := hw.item hT hx
  have hpath : x.path = p := (Made.items_place hitem).1
  rcases hmerged.item (hes.distinct hT) hitem with ⟨it, hit, hof⟩ | ⟨e, he, hep, hname, hof⟩
  · -- a file of the host is squashed before the table is asked
    have hst : x.st = setBy (squash o (T.host it.ino).st) (lookup tbl p it.name) := hof.st
    have hxname : x.name = it.name := hof.name
    rw [hpath, hxname]
    cases hl : lookup tbl p it.name with
    | none =>
      rw [hl] at hst
      rw [hst]
      exact Or.inr (squash_owner hs _)
    | some e => exact Or.inl (by simp)
  · left
    have hxname : x.name = e.name := hof.name
    rw [hpath, hxname, ← hep]
    intro hnone
    have hfind := List.find?_eq_none.mp hnone e (mem_namesAt.mpr ⟨he, rfl⟩)
    exact hfind (decide_eq_true rfl)

/-- What an inode shows of an entry that the table does not know. -/
theorem Written.inode_squashed (hw : Written o order tbl T s C) (hT : HostNames T)
    (hs : o.squash_owner = true) {ino : InoNode} (hno : ¬ Overridden tbl s ino) {x : Placed}
    (hx : x ∈ C.all) (hkey : ino.key = inoKeyInit x.inum) (huid : ino.uid = x.st.st_uid)
    (hgid : ino.gid = x.st.st_gid) : ino.uid = 0#32 ∧ ino.gid = 0#32 := by
  rcases hw.squashed hT hs hx with hknown | ⟨h1, h2⟩
  · exact absurd ⟨x.path, x.name, x.dent o, hw.dentAt hx, hkey, hknown⟩ hno
  · exact ⟨huid.trans h1, hgid.trans h2⟩

/-- Only the root can keep an owner of the host. -/
theorem Written.squashed_of_root (hw : Written o order tbl T s C) (hT : HostNames T)
    (hc : Countable C.multis) (hs : o.squash_owner = true) (hroot : HostTree.RootOwned T) :
    Squashed tbl s := by
  intro ino hino hno
  rcases (hw.faces hc (face ino)).mp (List.mem_map_of_mem hino) with hf | hf | ⟨v, hlast, hf⟩
  · -- it was written with its only name
    rw [C.faces_eq rootPath UBIFS_ROOT_INO] at hf
    obtain ⟨x, hx, hxface⟩ := List.mem_map.mp hf
    exact hw.inode_squashed hT hs hno (List.mem_filter.mp hx).1 (congrArg Face.key hxface).symm
      (congrArg Face.uid hxface).symm (congrArg Face.gid hxface).symm
  · exact ⟨(congrArg Face.uid hf).trans hroot.1, (congrArg Face.gid hf).trans hroot.2⟩
  · -- it was written at the end, with the attributes of its last name
    have hv := (lastOf_mem hlast).1
    rw [C.multis_eq rootPath UBIFS_ROOT_INO] at hv
    obtain ⟨x, hx, hmulti⟩ := List.mem_filterMap.mp hv
    obtain ⟨-, hinum, hst, -⟩ := Placed.multi_eq hmulti
    have hkey : ino.key = inoKeyInit v.inum := congrArg Face.key hf
    have huid : ino.uid = v.st.st_uid := congrArg Face.uid hf
    have hgid : ino.gid = v.st.st_gid := congrArg Face.gid hf
    rw [hinum] at hkey
    rw [hst] at huid hgid
    exact hw.inode_squashed hT hs hno hx hkey huid hgid

/-- The inode of the root directory, which no entry of the table leads to. -/
theorem Written.root_ino (hw : Written o order tbl T s C) (hc : Countable C.multis)
    (hfit : s.highest_inum < 2^32) : ∃ ino ∈ s.inos, ¬ Overridden tbl s ino ∧
      ino.uid = (T.host T.root).st.st_uid ∧ ino.gid = (T.host T.root).st.st_gid := by
  obtain ⟨ino, hino, hface⟩ := List.mem_map.mp ((hw.faces hc _).mpr (Or.inr (Or.inl rfl)))
  refine ⟨ino, hino, ?_, congrArg Face.uid hface, congrArg Face.gid hface⟩
  rintro ⟨path, name, d, ⟨hd, -⟩, hkey, -⟩
  rw [hw.dents_all] at hd
  obtain ⟨x, hx, rfl⟩ := List.mem_map.mp hd
  have hb := hw.bounds hc hx
  have hroot : inoKeyInit UBIFS_ROOT_INO = inoKeyInit x.inum :=
    (congrArg Face.key hface).symm.trans hkey
  have heq : UBIFS_ROOT_INO = x.inum := by
    rw [← inoKeyInit_inum (lt_of_le_of_lt hb.2 hfit), ← hroot]
    exact (inoKeyInit_inum (by decide)).symm
  rw [← heq] at hb
  exact absurd hb.1 (by decide)

/-- With the owners squashed, all that the device table does not know is squashed if and only if
the root directory of the host needs no squashing. -/
theorem squash_complete_iff (hT : HostNames T) (hlinks : ∀ h ∈ T.files, T.visits.count h < 2^32)
    (hs : o.squash_owner = true) (hrun : writeData z o order tbl T n = .ok s) :
    (HostTree.RootOwned T → Squashed tbl s) ∧
    (s.highest_inum < 2^32 → Squashed tbl s → HostTree.RootOwned T) := by
  obtain ⟨C, hw⟩ := writeData_written hrun
  have hc := hw.countable hT hlinks
  constructor
  · exact hw.squashed_of_root hT hc hs
  · intro hfit hall
    obtain ⟨ino, hino, hno, huid, hgid⟩ := hw.root_ino hc hfit
    obtain ⟨h1, h2⟩ := hall ino hino hno
    exact ⟨huid.symm.trans h1, hgid.symm.trans h2⟩

/-- A tree with a file, all of it owned by `uid`. -/
def ownedTree (uid : BitVec 32) : HostTree where
  host h :=
    let inode := if h.ino = 2 then plainInode 0o100644#32 1 1 (fun _ => 1#8) []
      else plainInode 0o040755#32 2 4096 (fun _ => 0#8) []
    { inode with st := { inode.st with st_uid := uid, st_gid := uid } }
  root := ⟨0, 1⟩
  entries := .file [120#8] ⟨0, 2⟩ .nil

def squashRun (uid : BitVec 32) : Except Err Mkfs :=
  writeData noCodec { plainOptions with squash_owner := true } fileOrder [] (ownedTree uid) 0

theorem ownedTree_names : HostNames (ownedTree 0#32) := ⟨by decide, by decide⟩

theorem squashRun_ok (uid : BitVec 32) {P : Mkfs → Bool} (h : (squashRun uid).toOption.any P) :
    ∃ s, squashRun uid = .ok s ∧ P s := by
  cases hrun : squashRun uid with
  | error e =>
    rw [hrun] at h
    cases h
  | ok s =>
    rw [hrun] at h
    exact ⟨s, rfl, h⟩

/-- The runs of root and of another user. -/
theorem squash_runs : (squashRun 0#32).toOption.any (fun _ => true) ∧
    (squashRun 1000#32).toOption.any (fun s => s.inos.any fun n => n.uid = 1000#32) := by
  simp only [squashRun, writeData, Ubifs.addMultiLinkedFiles, mappings_eq_gather]
  decide +kernel

theorem squash_complete_root : ∃ s, squashRun 0#32 = .ok s ∧ Squashed [] s := by
  obtain ⟨s, hrun, -⟩ := squashRun_ok 0#32 squash_runs.1
  refine ⟨s, hrun, (squash_complete_iff ownedTree_names ?_ rfl hrun).1 ⟨rfl, rfl⟩⟩
  decide

/-- The root directory keeps its owner. -/
theorem squash_leaks_root : ∃ s, squashRun 1000#32 = .ok s ∧ ¬ Squashed [] s := by
  obtain ⟨s, hrun, hino⟩ := squashRun_ok 1000#32 squash_runs.2
  refine ⟨s, hrun, ?_⟩
  intro hall
  obtain ⟨ino, hmem, huid⟩ := List.any_eq_true.mp hino
  have hnone : ¬ Overridden [] s ino := by
    rintro ⟨path, name, d, -, -, hl⟩
    exact hl rfl
  have h0 := (hall ino hmem hnone).1
  rw [of_decide_eq_true huid] at h0
  exact absurd h0 (by decide)

end Squash

end ChipTools.UbifsTable
