import ChipTools.UbifsTable
import Mathlib.Data.List.Forall2

/-! Where the entries of a device table are in the image, and with which attributes. -/
namespace ChipTools.UbifsTable
open Bytes Ubifs UbifsMkfs

section Places

/-- An entry of the image, with the path and the number of its directory. -/
structure Placed where
  path : List Byte
  dir : ℕ
  name : List Byte
  inum : ℕ
  type : IType
  src : Option HostIno
  st : Stat

namespace Placed

def multi (x : Placed) : Option Multi := multi? x.inum x.src x.st

def single (x : Placed) : Bool := x.multi.isNone

def dent (o : TreeOptions) (x : Placed) : DentNode := dentNode o x.dir x.name x.inum x.type

def face (host : HostIno → HostInode) (x : Placed) : Face := fileFace host x.inum x.type x.src x.st

end Placed

namespace Made

/-- The entries of the directory itself, of which those that are directories have entries of their
own. -/
def items (path : List Byte) (i : ℕ) : Made → List (Placed × Made)
  | .nil => []
  | .file name inum type src st rest =>
    (⟨path, i, name, inum, type, src, st⟩, .nil) :: rest.items path i
  | .dir name inum st sub rest => (⟨path, i, name, inum, .dir, none, st⟩, sub) :: rest.items path i

/-- The entries at any depth, in the order in which they are written. -/
def placed : List Byte → ℕ → Made → List Placed
  | _, _, .nil => []
  | path, i, .file name inum type src st rest =>
    ⟨path, i, name, inum, type, src, st⟩ :: rest.placed path i
  | path, i, .dir name inum st sub rest =>
    sub.placed (makePath path name) inum ++
      ⟨path, i, name, inum, .dir, none, st⟩ :: rest.placed path i

end Made

/-- The entries of one directory of the host. -/
structure HostItem where
  name : List Byte
  ino : HostIno
  sub : Option Entries

def hostItems : Entries → List HostItem
  | .nil => []
  | .file name h rest => ⟨name, h, none⟩ :: hostItems rest
  | .dir name h sub rest => ⟨name, h, some sub⟩ :: hostItems rest

def hostNames (es : Entries) : List (List Byte) := (hostItems es).map HostItem.name

/-- The directories that the walk comes to, with what the host has in them: the root, those of the
host, and those that the table adds to either. -/
inductive Visits (T : HostTree) (tbl : List NameElt) : List Byte → Entries → Prop
  | root : Visits T tbl rootPath T.entries
  | host {path : List Byte} {es sub : Entries} {it : HostItem} (hes : Visits T tbl path es)
      (hit : it ∈ hostItems es) (hsub : it.sub = some sub) : Visits T tbl (makePath path it.name) sub
  | table {es : Entries} {e : NameElt} (hes : Visits T tbl e.path es) (he : e ∈ tbl)
      (hname : e.name ∉ hostNames es) (hdir : S_ISDIR e.elt.mode) :
      Visits T tbl (makePath e.path e.name) .nil

/-- The directories of the image by their dents: the path, and the number that is in the keys. -/
inductive DirAt (dents : List DentNode) : List Byte → ℕ → Prop
  | root : DirAt dents rootPath UBIFS_ROOT_INO
  | dent {path : List Byte} {i : ℕ} {d : DentNode} (hdir : DirAt dents path i) (hd : d ∈ dents)
      (hkey : d.key.u32_0 = BitVec.ofNat 32 i) (htype : d.type = .dir) :
      DirAt dents (makePath path d.name) d.inum

/-- A dent at a path. -/
def DentAt (dents : List DentNode) (path name : List Byte) (d : DentNode) : Prop :=
  d ∈ dents ∧ d.name = name ∧ ∃ i, DirAt dents path i ∧ d.key.u32_0 = BitVec.ofNat 32 i

end Places

section Flat

variable {o : TreeOptions} {host : HostIno → HostInode}

theorem multi?_none (inum : ℕ) (st : Stat) : multi? inum none st = none := by
  unfold multi?
  split <;> rfl

theorem Placed.multi_some {x : Placed} {h : HostIno} (hx : x.src = some h) (hlink : 1 < x.st.st_nlink) :
    x.multi = some ⟨h, x.inum, x.st⟩ := by
  unfold Placed.multi multi?
  rw [if_pos hlink, hx, Option.map_some]

theorem Placed.multi_none {x : Placed} (hx : x.src = none ∨ x.st.st_nlink ≤ 1) : x.multi = none := by
  unfold Placed.multi
  rcases hx with hx | hx
  · rw [hx, multi?_none]
  · exact if_neg (not_lt.mpr hx)

theorem Placed.multi_eq {x : Placed} {v : Multi} (hv : x.multi = some v) :
    x.src = some v.ino ∧ v.inum = x.inum ∧ v.st = x.st ∧ 1 < x.st.st_nlink := by
  unfold Placed.multi multi? at hv
  split at hv
  next hlink =>
    obtain ⟨h, hsrc, rfl⟩ := Option.map_eq_some_iff.mp hv
    exact ⟨hsrc, rfl, rfl, hlink⟩
  · cases hv

namespace Made

theorem items_append (M N : Made) (path : List Byte) (i : ℕ) :
    (M.append N).items path i = M.items path i ++ N.items path i := by
  induction M with
  | nil => rfl
  | file name inum type src st rest ih => exact congrArg (_ :: ·) ih
  | dir name inum st sub rest _ ih => exact congrArg (_ :: ·) ih

theorem dents_eq (M : Made) (path : List Byte) (i : ℕ) :
    M.dents o i = (M.placed path i).map (Placed.dent o) := by
  induction M generalizing path i with
  | nil => rfl
  | file name inum type src st rest ih => exact congrArg (_ :: ·) (ih path i)
  | dir name inum st sub rest ihsub ihrest =>
    rw [dents, placed, List.map_append, List.map_cons, ihsub (makePath path name) inum,
      ihrest path i]
    rfl

theorem multis_eq (M : Made) (path : List Byte) (i : ℕ) :
    M.multis = (M.placed path i).filterMap Placed.multi := by
  induction M generalizing path i with
  | nil => rfl
  | file name inum type src st rest ih =>
    have hm : (Placed.mk path i name inum type src st).multi = multi? inum src st := rfl
    rw [multis, placed, ih path i]
    cases hv : multi? inum src st with
    | none => exact (List.filterMap_cons_none (hm.trans hv)).symm
    | some v => exact (List.filterMap_cons_some (hm.trans hv)).symm
  | dir name inum st sub rest ihsub ihrest =>
    rw [multis, placed, List.filterMap_append, ihsub (makePath path name) inum, ihrest path i,
      List.filterMap_cons_none]
    exact multi?_none inum st

theorem faces_eq (M : Made) (path : List Byte) (i : ℕ) :
    M.faces host = ((M.placed path i).filter Placed.single).map (Placed.face host) := by
  induction M generalizing path i with
  | nil => rfl
  | file name inum type src st rest ih =>
    rw [faces, placed, ih path i, List.filter_cons]
    change _ = List.map _ (if (multi? inum src st).isNone then _ else _)
    cases multi? inum src st with
    | none => rfl
    | some v => rfl
  | dir name inum st sub rest ihsub ihrest =>
    rw [faces, placed, ihsub (makePath path name) inum, ihrest path i, List.filter_append,
      List.filter_cons, List.map_append]
    change _ = _ ++ List.map _ (if (multi? inum none st).isNone then _ else _)
    rw [multi?_none]
    rfl

theorem own_perm (M : Made) (path : List Byte) (i : ℕ) :
    M.own.Perm (((M.placed path i).filter Placed.single).map Placed.inum) := by
  induction M generalizing path i with
  | nil => exact .refl _
  | file name inum type src st rest ih =>
    rw [own, placed, List.filter_cons]
    change List.Perm _ (List.map _ (if (multi? inum src st).isNone then _ else _))
    cases multi? inum src st with
    | none => exact (ih path i).cons inum
    | some v => exact ih path i
  | dir name inum st sub rest ihsub ihrest =>
    rw [own, placed, List.filter_append, List.filter_cons, List.map_append]
    change List.Perm _ (_ ++ List.map _ (if (multi? inum none st).isNone then _ else _))
    rw [multi?_none]
    exact (((ihsub _ _).append (ihrest path i)).cons inum).trans List.perm_middle.symm

theorem items_place {M : Made} {path : List Byte} {i : ℕ} {x : Placed × Made}
    (hx : x ∈ M.items path i) : x.1.path = path ∧ x.1.dir = i := by
  induction M with
  | nil => exact absurd hx List.not_mem_nil
  | file name inum type src st rest ih =>
    rcases List.mem_cons.mp hx with rfl | hx
    · exact ⟨rfl, rfl⟩
    · exact ih hx
  | dir name inum st sub rest _ ih =>
    rcases List.mem_cons.mp hx with rfl | hx
    · exact ⟨rfl, rfl⟩
    · exact ih hx

/-- An entry is placed, and so are those that it has. -/
theorem items_placed {M : Made} {path : List Byte} {i : ℕ} {x : Placed × Made}
    (hx : x ∈ M.items path i) : x.1 ∈ M.placed path i ∧
      x.2.placed (makePath path x.1.name) x.1.inum ⊆ M.placed path i := by
  induction M with
  | nil => exact absurd hx List.not_mem_nil
  | file name inum type src st rest ih =>
    rcases List.mem_cons.mp hx with rfl | hx
    · exact ⟨List.mem_cons_self, List.nil_subset _⟩
    · exact (ih hx).imp (List.mem_cons_of_mem _) fun h => List.Subset.trans h (List.subset_cons_self _ _)
  | dir name inum st sub rest _ ih =>
    rcases List.mem_cons.mp hx with rfl | hx
    · exact ⟨List.mem_append_right _ List.mem_cons_self, List.subset_append_left _ _⟩
    · have hsub : rest.placed path i ⊆ (dir name inum st sub rest).placed path i :=
        List.Subset.trans (List.subset_cons_self _ _) (List.subset_append_right _ _)
      exact (ih hx).imp (fun h => hsub h) fun h => List.Subset.trans h hsub

/-- Each entry is in a directory that is the given one, or another entry. -/
theorem placed_parent {M : Made} {path : List Byte} {i : ℕ} {x : Placed} (hx : x ∈ M.placed path i) :
    x.path = path ∧ x.dir = i ∨ ∃ y ∈ M.placed path i,
      y.type = .dir ∧ y.single ∧ x.path = makePath y.path y.name ∧ x.dir = y.inum := by
  induction M generalizing path i with
  | nil => exact absurd hx List.not_mem_nil
  | file name inum type src st rest ih =>
    rcases List.mem_cons.mp hx with rfl | hx
    · exact .inl ⟨rfl, rfl⟩
    · exact (ih hx).imp_right fun ⟨y, hy, h⟩ => ⟨y, List.mem_cons_of_mem _ hy, h⟩
  | dir name inum st sub rest ihsub ihrest =>
    rcases List.mem_append.mp hx with hx | hx
    · right
      rcases ihsub hx with ⟨hpath, hdir⟩ | ⟨y, hy, h⟩
      · refine ⟨_, List.mem_append_right _ List.mem_cons_self, rfl, ?_, hpath, hdir⟩
        exact Option.isNone_iff_eq_none.mpr (multi?_none inum st)
      · exact ⟨y, List.mem_append_left _ hy, h⟩
    · rcases List.mem_cons.mp hx with rfl | hx
      · exact .inl ⟨rfl, rfl⟩
      · exact (ihrest hx).imp_right fun ⟨y, hy, h⟩ =>
          ⟨y, List.mem_append_right _ (List.mem_cons_of_mem _ hy), h⟩

/-- The directories of the dents are those of the walk. -/
theorem placed_dirAt {M : Made} {path : List Byte} {i : ℕ} {dents : List DentNode}
    (hdir : DirAt dents path i) (hdents : ∀ x ∈ M.placed path i, x.dent o ∈ dents) :
    ∀ x ∈ M.placed path i, DirAt dents x.path x.dir := by
  induction M generalizing path i with
  | nil => exact fun _ hx => absurd hx List.not_mem_nil
  | file name inum type src st rest ih =>
    intro x hx
    rcases List.mem_cons.mp hx with rfl | hx
    · exact hdir
    · exact ih hdir (fun y hy => hdents y (List.mem_cons_of_mem _ hy)) x hx
  | dir name inum st sub rest ihsub ihrest =>
    have hself : DirAt dents (makePath path name) inum := by
      have hd := hdents _ (List.mem_append_right _ List.mem_cons_self)
      exact hdir.dent hd rfl rfl
    intro x hx
    rcases List.mem_append.mp hx with hx | hx
    · exact ihsub hself (fun y hy => hdents y (List.mem_append_left _ hy)) x hx
    · rcases List.mem_cons.mp hx with rfl | hx
      · exact hdir
      · exact ihrest hdir (fun y hy => hdents y
          (List.mem_append_right _ (List.mem_cons_of_mem _ hy))) x hx

end Made

end Flat

section Merge

variable (o : TreeOptions) (host : HostIno → HostInode) (root_st : Stat)
variable (order : HashOrder) (tbl : List NameElt)

/-- What the table has for a name in a directory. -/
def lookup (path name : List Byte) : Option NameElt :=
  (namesAt tbl path).find? fun e => e.name = name

/-- The attributes of a file of the host with those of the table over them. -/
def setBy (st : Stat) : Option NameElt → Stat
  | none => st
  | some e => { st with st_uid := e.elt.uid, st_gid := e.elt.gid, st_mode := e.elt.mode }

/-- The entries of a directory that is on the host, which may be with nothing in it. -/
def Merged (path : List Byte) (es : Entries) (C : Made) : Prop :=
  ∃ t M N, FromHost o host root_st order tbl path es (namesAt tbl path) M t ∧
    FromTable root_st order tbl path (order.order t) N ∧ C = M.append N

/-- The entry of the image for one of the host. -/
structure OfHost (path : List Byte) (x : Placed × Made) (it : HostItem) : Prop where
  name : x.1.name = it.name
  st : x.1.st = setBy (squash o (host it.ino).st) (lookup tbl path it.name)
  /-- A device of the table stands for no file of the host. -/
  device : ∀ e, lookup tbl path it.name = some e →
    itype e.elt.mode ≠ some .chr ∧ itype e.elt.mode ≠ some .blk
  file : it.sub = none → x.1.src = some it.ino ∧ itype x.1.st.st_mode = some x.1.type
  dir : ∀ sub, it.sub = some sub → x.1.type = .dir ∧ x.1.src = none ∧
    Merged o host root_st order tbl (makePath path it.name) sub x.2

/-- And for one of the table. -/
structure OfTable (path : List Byte) (x : Placed × Made) (e : NameElt) : Prop where
  name : x.1.name = e.name
  st : x.1.st = fakeSt root_st e.elt
  src : x.1.src = none
  file : ¬ S_ISDIR e.elt.mode → itype e.elt.mode = some x.1.type
  dir : S_ISDIR e.elt.mode → x.1.type = .dir ∧ FromTable root_st order tbl (makePath path e.name)
    (order.order (namesAt tbl (makePath path e.name))) x.2

variable {o host root_st order tbl} {path : List Byte}

theorem itype_mode {m m' : BitVec 32} (h : m &&& S_IFMT = m' &&& S_IFMT) : itype m = itype m' := by
  unfold itype
  rw [h]

theorem overrideAttributes_ok {st st' : Stat} {name : List Byte} {t t' : List NameElt}
    (h : overrideAttributes st name t = .ok (st', t')) :
    st' = setBy st (t.find? fun e => e.name = name) ∧ t' = t.filter (fun e => e.name ≠ name) ∧
    ∀ e, (t.find? fun e => e.name = name) = some e →
      itype e.elt.mode ≠ some .chr ∧ itype e.elt.mode ≠ some .blk := by
  unfold overrideAttributes at h
  cases hf : t.find? fun e => e.name = name with
  | none =>
    rw [hf] at h
    obtain ⟨rfl, rfl⟩ := Prod.mk.inj (Except.ok.inj h)
    refine ⟨rfl, ?_, fun _ h => by cases h⟩
    have hno := List.find?_eq_none.mp hf
    exact (List.filter_eq_self.mpr fun e he => by simpa using hno e he).symm
  | some e =>
    rw [hf] at h
    dsimp only at h
    split at h
    · cases h
    next hspecial =>
      split at h
      · cases h
      next hmode =>
        obtain ⟨rfl, rfl⟩ := Prod.mk.inj (Except.ok.inj h)
        refine ⟨rfl, rfl, ?_⟩
        intro e' he
        obtain rfl := Option.some.inj he
        rw [← itype_mode (not_not.mp hmode)]
        exact ⟨fun h => hspecial (.inl h), fun h => hspecial (.inr (.inl h))⟩

theorem filter_names (t : List NameElt) (name : List Byte) (names : List (List Byte)) :
    (t.filter fun e => e.name ≠ name).filter (fun e => e.name ∉ names) =
      t.filter fun e => e.name ∉ name :: names := by
  rw [List.filter_filter]
  apply List.filter_congr
  intro e _
  rw [← Bool.decide_and, decide_eq_decide, List.mem_cons, not_or, and_comm]

/-- The table keeps what the host has no name for. -/
theorem FromHost.left {es : Entries} {t t' : List NameElt} {M : Made}
    (h : FromHost o host root_st order tbl path es t M t') :
    t' = t.filter fun e => e.name ∉ hostNames es := by
  induction h with
  | nil => exact (List.filter_eq_self.mpr fun e _ => decide_eq_true List.not_mem_nil).symm
  | file hover _ _ ih =>
    rw [ih, (overrideAttributes_ok hover).2.1, filter_names]
    rfl
  | dir hover _ _ _ _ ih =>
    rw [ih, (overrideAttributes_ok hover).2.1, filter_names]
    rfl

/-- What is left of the table has the other names as before. -/
theorem find_left {t : List NameElt} {name name' : List Byte} (hne : name' ≠ name) :
    ((t.filter fun e => e.name ≠ name).find? fun e => e.name = name') =
      t.find? fun e => e.name = name' := by
  rw [List.find?_filter]
  congr 1
  ext e
  by_cases he : e.name = name'
  · simp [he, hne]
  · simp [he]

theorem FromTable.items {elts : List NameElt} {N : Made} (i : ℕ)
    (h : FromTable root_st order tbl path elts N) :
    List.Forall₂ (OfTable root_st order tbl path) (N.items path i) elts := by
  induction h generalizing i with
  | nil => exact .nil
  | file _ htype _ ih =>
    refine .cons ⟨rfl, rfl, rfl, fun _ => htype, fun hdir => ?_⟩ (ih i)
    rw [itype_dir hdir] at htype
    cases htype
  | dir hdir hsub _ _ ih =>
    exact .cons ⟨rfl, rfl, rfl, fun hno => absurd hdir hno, fun _ => ⟨rfl, hsub⟩⟩ (ih i)

/-- The names of one directory are different. -/
theorem FromHost.items {es : Entries} {t t' : List NameElt} {M : Made} (i : ℕ)
    (h : FromHost o host root_st order tbl path es t M t') (hnames : (hostNames es).Nodup)
    (ht : ∀ name ∈ hostNames es, (t.find? fun e => e.name = name) = lookup tbl path name) :
    List.Forall₂ (OfHost o host root_st order tbl path) (M.items path i) (hostItems es) := by
  induction h generalizing i with
  | nil => exact .nil
  | file hover htype _ ih =>
    obtain ⟨hst, hleft, hdev⟩ := overrideAttributes_ok hover
    obtain ⟨hnew, hrest⟩ := List.nodup_cons.mp hnames
    have hfind := ht _ List.mem_cons_self
    rw [hfind] at hst hdev
    refine .cons ⟨rfl, hst, hdev, fun _ => ⟨rfl, htype⟩, fun _ h => by cases h⟩ (ih i hrest ?_)
    intro name hname
    rw [hleft, find_left (ne_of_mem_of_not_mem hname hnew)]
    exact ht name (List.mem_cons_of_mem _ hname)
  | dir hover hsub htable _ _ ih =>
    obtain ⟨hst, hleft, hdev⟩ := overrideAttributes_ok hover
    obtain ⟨hnew, hrest⟩ := List.nodup_cons.mp hnames
    have hfind := ht _ List.mem_cons_self
    rw [hfind] at hst hdev
    refine .cons ⟨rfl, hst, hdev, (fun h => by cases h), ?_⟩ (ih i hrest ?_)
    · intro sub hsome
      obtain rfl := Option.some.inj hsome
      exact ⟨rfl, rfl, _, _, _, hsub, htable, rfl⟩
    · intro name hname
      rw [hleft, find_left (ne_of_mem_of_not_mem hname hnew)]
      exact ht name (List.mem_cons_of_mem _ hname)

end Merge

section Deep

variable {o : TreeOptions} {order : HashOrder} {tbl : List NameElt} {T : HostTree}
variable {path : List Byte} {es : Entries} {C : Made}

/-- What the host promises of the names in a directory. -/
structure HostNames (T : HostTree) : Prop where
  distinct : ∀ d ∈ T.dirs, (hostNames d.2).Nodup
  plain : ∀ d ∈ T.dirs, ∀ name ∈ hostNames d.2, name ≠ [] ∧ DevTable.slash ∉ name

theorem forall₂_exists {α β : Type*} {R : α → β → Prop} {as : List α} {bs : List β}
    (h : List.Forall₂ R as bs) :
    (∀ a ∈ as, ∃ b ∈ bs, R a b) ∧ ∀ b ∈ bs, ∃ a ∈ as, R a b := by
  induction h with
  | nil => exact ⟨fun _ h => absurd h List.not_mem_nil, fun _ h => absurd h List.not_mem_nil⟩
  | cons hab _ ih =>
    constructor
    · intro x hx
      rcases List.mem_cons.mp hx with rfl | hx
      · exact ⟨_, List.mem_cons_self, hab⟩
      · obtain ⟨y, hy, hxy⟩ := ih.1 x hx
        exact ⟨y, List.mem_cons_of_mem _ hy, hxy⟩
    · intro y hy
      rcases List.mem_cons.mp hy with rfl | hy
      · exact ⟨_, List.mem_cons_self, hab⟩
      · obtain ⟨x, hx, hxy⟩ := ih.2 y hy
        exact ⟨x, List.mem_cons_of_mem _ hx, hxy⟩

theorem dirs_item {it : HostItem} {sub : Entries} (hit : it ∈ hostItems es) (hsub : it.sub = some sub) :
    (it.ino, sub) ∈ es.dirs := by
  induction es with
  | nil => exact absurd hit List.not_mem_nil
  | file name h rest ih =>
    rcases List.mem_cons.mp hit with rfl | hit
    · cases hsub
    · exact ih hit
  | dir name h sub' rest _ ih =>
    rcases List.mem_cons.mp hit with rfl | hit
    · obtain rfl := Option.some.inj hsub
      exact List.mem_append_right _ List.mem_cons_self
    · exact List.mem_append_right _ (List.mem_cons_of_mem _ (ih hit))

theorem dirs_trans {d : HostIno × Entries} (hd : d ∈ es.dirs) : d.2.dirs ⊆ es.dirs := by
  induction es with
  | nil => exact absurd hd List.not_mem_nil
  | file name h rest ih => exact ih hd
  | dir name h sub rest ihsub ihrest =>
    rcases List.mem_append.mp hd with hd | hd
    · exact List.Subset.trans (ihsub hd) (List.subset_append_left _ _)
    · rcases List.mem_cons.mp hd with rfl | hd
      · exact List.subset_append_left _ _
      · exact List.Subset.trans (ihrest hd)
          (List.Subset.trans (List.subset_cons_self _ _) (List.subset_append_right _ _))

/-- The host has the directory, or nothing in it. -/
theorem Visits.dirs (h : Visits T tbl path es) : es = .nil ∨ ∃ d ∈ T.dirs, d.2 = es := by
  induction h with
  | root => exact .inr ⟨_, List.mem_cons_self, rfl⟩
  | host _ hit hsub ih =>
    rcases ih with rfl | ⟨d, hd, rfl⟩
    · exact absurd hit List.not_mem_nil
    · have hmem := dirs_item hit hsub
      rcases List.mem_cons.mp hd with rfl | hd
      · exact .inr ⟨_, List.mem_cons_of_mem _ hmem, rfl⟩
      · exact .inr ⟨_, List.mem_cons_of_mem _ (dirs_trans hd hmem), rfl⟩
  | table => exact .inl rfl

theorem Visits.distinct (hT : HostNames T) (h : Visits T tbl path es) : (hostNames es).Nodup := by
  rcases h.dirs with rfl | ⟨d, hd, rfl⟩
  · exact List.nodup_nil
  · exact hT.distinct d hd

section Items

variable {host : HostIno → HostInode} {root_st : Stat}

theorem mem_namesAt {e : NameElt} : e ∈ namesAt tbl path ↔ e ∈ tbl ∧ e.path = path := by
  rw [namesAt, List.mem_filter, decide_eq_true_iff]

/-- Each entry of a directory is one of the host or one that the table adds. -/
theorem Merged.item (hC : Merged o host root_st order tbl path es C) (hes : (hostNames es).Nodup)
    {i : ℕ} {x : Placed × Made} (hx : x ∈ C.items path i) :
    (∃ it ∈ hostItems es, OfHost o host root_st order tbl path x it) ∨
    ∃ e ∈ tbl, e.path = path ∧ e.name ∉ hostNames es ∧ OfTable root_st order tbl path x e := by
  obtain ⟨t, M, N, hM, hN, rfl⟩ := hC
  rw [Made.items_append] at hx
  rcases List.mem_append.mp hx with hx | hx
  · exact .inl ((forall₂_exists (hM.items i hes fun _ _ => rfl)).1 x hx)
  · obtain ⟨e, he, hof⟩ := (forall₂_exists (hN.items i)).1 x hx
    rw [(order.perm t).mem_iff, hM.left, List.mem_filter, mem_namesAt, decide_eq_true_iff] at he
    exact .inr ⟨e, he.1.1, he.1.2, he.2, hof⟩

/-- And each entry of the host makes one. -/
theorem Merged.of_host (hC : Merged o host root_st order tbl path es C) (hes : (hostNames es).Nodup)
    (i : ℕ) {it : HostItem} (hit : it ∈ hostItems es) :
    ∃ x ∈ C.items path i, OfHost o host root_st order tbl path x it := by
  obtain ⟨t, M, N, hM, hN, rfl⟩ := hC
  obtain ⟨x, hx, hof⟩ := (forall₂_exists (hM.items i hes fun _ _ => rfl)).2 it hit
  rw [Made.items_append]
  exact ⟨x, List.mem_append_left _ hx, hof⟩

/-- And each element of the table that the host has no name for. -/
theorem Merged.of_table (hC : Merged o host root_st order tbl path es C) (i : ℕ) {e : NameElt}
    (he : e ∈ tbl) (hpath : e.path = path) (hname : e.name ∉ hostNames es) :
    ∃ x ∈ C.items path i, OfTable root_st order tbl path x e := by
  obtain ⟨t, M, N, hM, hN, rfl⟩ := hC
  have hmem : e ∈ order.order t := by
    rw [(order.perm t).mem_iff, hM.left, List.mem_filter, mem_namesAt, decide_eq_true_iff]
    exact ⟨⟨he, hpath⟩, hname⟩
  obtain ⟨x, hx, hof⟩ := (forall₂_exists (hN.items i)).2 e hmem
  rw [Made.items_append]
  exact ⟨x, List.mem_append_right _ hx, hof⟩

/-- A directory that only the table has. -/
theorem FromTable.merged {S : Made}
    (h : FromTable root_st order tbl path (order.order (namesAt tbl path)) S) :
    Merged o host root_st order tbl path .nil S := ⟨_, .nil, S, .nil, h, rfl⟩

end Items

/-- The directory of the image is one that the walk has come to. -/
def IsDir (o : TreeOptions) (order : HashOrder) (tbl : List NameElt) (T : HostTree)
    (path : List Byte) (C : Made) : Prop :=
  ∃ es, Visits T tbl path es ∧ Merged o T.host (T.host T.root).st order tbl path es C

theorem IsDir.item (hT : HostNames T) (hC : IsDir o order tbl T path C) {i : ℕ} {x : Placed × Made}
    (hx : x ∈ C.items path i) (hdir : x.1.type = .dir) :
    IsDir o order tbl T (makePath path x.1.name) x.2 := by
  obtain ⟨es, hes, hmerged⟩ := hC
  rcases hmerged.item (hes.distinct hT) hx with ⟨it, hit, hof⟩ | ⟨e, he, rfl, hname, hof⟩
  · rw [hof.name]
    cases hsub : it.sub with
    | none =>
      have htype := (hof.file hsub).2
      rw [hdir] at htype
      exact absurd htype (itype_ne_dir _)
    | some sub => exact ⟨sub, hes.host hit hsub, (hof.dir sub hsub).2.2⟩
  · rw [hof.name]
    by_cases hisdir : S_ISDIR e.elt.mode
    · exact ⟨.nil, hes.table he hname hisdir, (hof.dir hisdir).2.merged⟩
    · have htype := hof.file hisdir
      rw [hdir] at htype
      exact absurd htype (itype_ne_dir _)

/-- Every entry of the image is an entry of a directory that the walk has come to. -/
theorem placed_item (hT : HostNames T) {M : Made} {i : ℕ}
    (hM : ∀ x ∈ M.items path i, x.1.type = .dir → IsDir o order tbl T (makePath path x.1.name) x.2)
    {x : Placed} (hx : x ∈ M.placed path i) :
    (∃ S, (x, S) ∈ M.items path i) ∨
    ∃ p j D S, IsDir o order tbl T p D ∧ (x, S) ∈ D.items p j := by
  induction M generalizing path i with
  | nil => exact absurd hx List.not_mem_nil
  | file name inum type src st rest ih =>
    rcases List.mem_cons.mp hx with rfl | hx
    · exact .inl ⟨_, List.mem_cons_self⟩
    · exact (ih (fun y hy => hM y (List.mem_cons_of_mem _ hy)) hx).imp_left
        fun ⟨S, hS⟩ => ⟨S, List.mem_cons_of_mem _ hS⟩
  | dir name inum st sub rest ihsub ihrest =>
    rcases List.mem_append.mp hx with hx | hx
    · have hsub := hM _ List.mem_cons_self rfl
      right
      rcases ihsub (fun y hy => hsub.item hT hy) hx with ⟨S, hS⟩ | h
      · exact ⟨_, _, _, S, hsub, hS⟩
      · exact h
    · rcases List.mem_cons.mp hx with rfl | hx
      · exact .inl ⟨_, List.mem_cons_self⟩
      · exact (ihrest (fun y hy => hM y (List.mem_cons_of_mem _ hy)) hx).imp_left
          fun ⟨S, hS⟩ => ⟨S, List.mem_cons_of_mem _ hS⟩

/-- Every directory that the walk comes to is in the image. -/
theorem visits_placed (hT : HostNames T)
    (hC : Merged o T.host (T.host T.root).st order tbl rootPath T.entries C)
    (h : Visits T tbl path es) : ∃ i D, Merged o T.host (T.host T.root).st order tbl path es D ∧
      D.placed path i ⊆ C.placed rootPath UBIFS_ROOT_INO := by
  induction h with
  | root => exact ⟨_, C, hC, List.Subset.refl _⟩
  | host hes hit hsub ih =>
    obtain ⟨i, D, hD, hplaced⟩ := ih
    obtain ⟨x, hx, hof⟩ := hD.of_host (hes.distinct hT) i hit
    have hbelow := (Made.items_placed hx).2
    rw [hof.name] at hbelow
    exact ⟨x.1.inum, x.2, (hof.dir _ hsub).2.2, List.Subset.trans hbelow hplaced⟩
  | table hes he hname hdir ih =>
    obtain ⟨i, D, hD, hplaced⟩ := ih
    obtain ⟨x, hx, hof⟩ := hD.of_table i he rfl hname
    have hbelow := (Made.items_placed hx).2
    rw [hof.name] at hbelow
    exact ⟨x.1.inum, x.2, (hof.dir hdir).2.merged, List.Subset.trans hbelow hplaced⟩

end Deep

section Whole

variable {z : Codec} {o : TreeOptions} {order : HashOrder} {tbl : List NameElt} {T : HostTree}
variable {host : HostIno → HostInode} {s s' : Mkfs} {C : Made} {n : ℕ}

/-- What the inode of a file with several links shows, after its last visit. -/
def linkFace (host : HostIno → HostInode) (v : Multi) : Face :=
  fileFace host v.inum ((itype v.st.st_mode).getD .reg) (some v.ino) v.st

/-- What a run has written, for the entries `C` of the root directory. -/
structure Written (o : TreeOptions) (order : HashOrder) (tbl : List NameElt) (T : HostTree)
    (s : Mkfs) (C : Made) : Prop where
  merged : Merged o T.host (T.host T.root).st order tbl rootPath T.entries C
  dents : s.dents = C.dents o UBIFS_ROOT_INO
  faces : Countable C.multis → ∀ f, f ∈ s.inos.map face ↔ f ∈ C.faces T.host ∨
    f = dirFace UBIFS_ROOT_INO (T.host T.root).st ∨
    ∃ v, lastOf C.multis v.ino = some v ∧ f = linkFace T.host v
  numbered : Countable C.multis → Numbered [] UBIFS_FIRST_INO s.highest_inum C.multis C.own
  same : Countable C.multis → ∀ v ∈ C.multis, ∀ w ∈ C.multis, v.ino = w.ino ↔ v.inum = w.inum

theorem Emits.faces {ds : List DentNode} {is : List InoNode} {bs : List DataNode}
    (h : Emits s s' ds is bs) : s'.inos.map face = s.inos.map face ++ is.map face := by
  have hface : face ∘ InoNode.undated = face := rfl
  have hmap := congrArg (List.map face) h.inos
  rw [List.map_append, List.map_map, List.map_map, hface] at hmap
  exact hmap

/-- A file that was met before: the names are all there. -/
theorem addNonDir_dents {h : HostIno} {st : Stat} {inum : ℕ} {nlink : BitVec 32}
    {r : ℕ × IType × Mkfs} (hrun : Ubifs.addNonDir z o host h st inum nlink s = .ok r) :
    r.2.2.dents = s.dents := by
  have hwrite {type : IType} {st : Stat} {s' : Mkfs}
      (hw : Ubifs.writeNonDir z o host h type st inum s = .ok s') : s'.dents = s.dents := by
    obtain ⟨is, bs, hemit, -⟩ := (writeNonDir_grows hw).emits
    rw [hemit.dents, List.append_nil]
  unfold Ubifs.addNonDir at hrun
  split at hrun
  · cases hrun
  · split at hrun
    · obtain ⟨s₁, hw, hret⟩ := Loop.bind_eq_ok hrun
      obtain rfl := Except.ok.inj hret
      exact hwrite hw
    · split at hrun
      · dsimp only at hrun
        split at hrun
        · obtain rfl := Except.ok.inj hrun
          rfl
        · obtain rfl := Except.ok.inj hrun
          rfl
      · obtain ⟨s₁, hw, hret⟩ := Loop.bind_eq_ok hrun
        obtain rfl := Except.ok.inj hret
        exact hwrite hw

theorem addNonDir_again {h : HostIno} {st : Stat} {inum : ℕ} {nlink : BitVec 32}
    {r : ℕ × IType × Mkfs} (hnlink : nlink ≠ 0#32)
    (hrun : Ubifs.addNonDir z o host h st inum nlink s = .ok r) :
    Grows s r.2.2 [] [linkFace host ⟨h, inum, st⟩] [] [] := by
  unfold Ubifs.addNonDir at hrun
  split at hrun
  · cases hrun
  next type htype =>
    rw [if_pos hnlink] at hrun
    obtain ⟨s₁, hw, hret⟩ := Loop.bind_eq_ok hrun
    obtain rfl := Except.ok.inj hret
    have hgrow := writeNonDir_grows hw
    have hface : fileFace host inum type (some h) (st.withNlink nlink.toNat) =
        linkFace host ⟨h, inum, st⟩ := by
      unfold linkFace
      rw [htype]
      rfl
    rw [hface] at hgrow
    exact hgrow

/-- `add_multi_linked_files`: one inode for each entry of the table. -/
theorem addMultiLinked_grows (E : List InumMapping)
    (hE : ∀ e ∈ E, e.use_nlink ≠ 0#32)
    (hrun : E.foldlM (fun s im => (Ubifs.addNonDir z o host im.path_name im.st im.use_inum
      im.use_nlink s).map fun r => r.2.2) s = .ok s') :
    Grows s s' [] (E.map fun e => linkFace host ⟨e.path_name, e.use_inum, e.st⟩) [] [] := by
  induction E generalizing s with
  | nil =>
    obtain rfl := Except.ok.inj hrun
    exact grows_still (emits_nodes rfl) ⟨rfl, rfl⟩ rfl
  | cons e rest ih =>
    rw [List.foldlM_cons] at hrun
    obtain ⟨s₁, hone, hrest⟩ := Loop.bind_eq_ok hrun
    obtain ⟨r, hadd, rfl⟩ : ∃ r, Ubifs.addNonDir z o host e.path_name e.st e.use_inum e.use_nlink s =
        .ok r ∧ r.2.2 = s₁ := by
      cases hr : Ubifs.addNonDir z o host e.path_name e.st e.use_inum e.use_nlink s with
      | error err =>
        rw [hr] at hone
        cases hone
      | ok r =>
        rw [hr] at hone
        exact ⟨r, rfl, Except.ok.inj hone⟩
    exact (addNonDir_again (hE e List.mem_cons_self) hadd).trans
      (ih (fun e he => hE e (List.mem_cons_of_mem _ he)) hrest)

theorem addMultiLinked_dents (E : List InumMapping)
    (hrun : E.foldlM (fun s im => (Ubifs.addNonDir z o host im.path_name im.st im.use_inum
      im.use_nlink s).map fun r => r.2.2) s = .ok s') : s'.dents = s.dents := by
  induction E generalizing s with
  | nil =>
    obtain rfl := Except.ok.inj hrun
    rfl
  | cons e rest ih =>
    rw [List.foldlM_cons] at hrun
    obtain ⟨s₁, hone, hrest⟩ := Loop.bind_eq_ok hrun
    cases hr : Ubifs.addNonDir z o host e.path_name e.st e.use_inum e.use_nlink s with
    | error err =>
      rw [hr] at hone
      cases hone
    | ok r =>
      rw [hr] at hone
      obtain rfl := Except.ok.inj hone
      rw [ih hrest, addNonDir_dents hr]

theorem Logged.mem_mappings {L : List Multi} (hL : Logged L s) {e : InumMapping} :
    e ∈ mappings s.hash_table ↔ ∃ v, lastOf L e.ino = some v ∧
      e = ⟨e.ino, v.inum, BitVec.ofNat 32 (L.countP (·.ino = e.ino)), e.ino, v.st⟩ := by
  unfold mappings
  rw [List.mem_flatMap]
  constructor
  · rintro ⟨k, -, he⟩
    exact ((hL.mem k e).mp he).2
  · intro he
    refine ⟨e.ino.ino%HASH_TABLE_SIZE, ?_, (hL.mem _ e).mpr ⟨rfl, he⟩⟩
    rw [List.mem_range]
    exact Nat.mod_lt _ (by decide)

theorem writeData_written (hrun : writeData z o order tbl T n = .ok s) :
    ∃ C, Written o order tbl T s C := by
  obtain ⟨s₁, hdir, hmulti⟩ := Loop.bind_eq_ok hrun
  obtain ⟨t, M, N, hM, hN, hadd⟩ := addDirectory_adds (addNewDirectory_makes _)
    (P := fun t M => FromHost o T.host (T.host T.root).st order tbl rootPath T.entries
      (namesAt tbl rootPath) M t) (fun _ _ hr => addEntries_adds hr) hdir
  have hmulti := mapError_eq_ok hmulti
  unfold Ubifs.addMultiLinkedFiles at hmulti
  have hstart : Logged [] (⟨UBIFS_FIRST_INO, n, 0, fun _ => [], []⟩ : Mkfs) := by
    refine ⟨fun _ => List.nodup_nil, fun k e => ?_, fun _ h => absurd h List.not_mem_nil,
      fun _ h => absurd h List.not_mem_nil⟩
    refine iff_of_false List.not_mem_nil ?_
    rintro ⟨-, v, hv, -⟩
    cases hv
  obtain ⟨is, bs, hemit, hfaces⟩ := hadd.emits
  have hlog (hc : Countable (M.append N).multis) : Logged (M.append N).multis s₁ ∧ Numbered []
      UBIFS_FIRST_INO s₁.highest_inum (M.append N).multis (M.append N).own :=
    hadd.logged [] hstart hc
  -- the table has a count for each file
  have hgrow (hc : Countable (M.append N).multis) : Grows s₁ s [] ((mappings s₁.hash_table).map
      fun e => linkFace T.host ⟨e.path_name, e.use_inum, e.st⟩) [] [] := by
    refine addMultiLinked_grows _ (fun e he => ?_) hmulti
    obtain ⟨v, hv, heq⟩ := ((hlog hc).1.mem_mappings).mp he
    obtain ⟨hmem, hino⟩ := lastOf_mem hv
    have hpos : 0 < (M.append N).multis.countP (·.ino = e.ino) :=
      List.countP_pos_iff.mpr ⟨v, hmem, decide_eq_true hino⟩
    have hlt := hc e.ino
    rw [heq]
    intro hz
    have := congrArg BitVec.toNat hz
    rw [BitVec.toNat_ofNat, Nat.mod_eq_of_lt hlt] at this
    exact absurd this (Nat.ne_of_gt hpos)
  refine ⟨M.append N, ⟨t, M, N, hM, hN, rfl⟩, ?_, ?_, ?_, ?_⟩
  · rw [addMultiLinked_dents _ hmulti, hemit.dents]
    rfl
  · intro hc f
    obtain ⟨is', bs', hemit', hfaces'⟩ := (hgrow hc).emits
    rw [Emits.faces hemit', Emits.faces hemit, hfaces, hfaces']
    change f ∈ ([] ++ _) ++ _ ↔ _
    rw [List.nil_append, List.mem_append, List.mem_append, List.mem_singleton, or_assoc, List.mem_map]
    refine or_congr_right (or_congr_right ⟨?_, ?_⟩)
    · rintro ⟨e, he, rfl⟩
      obtain ⟨v, hv, heq⟩ := ((hlog hc).1.mem_mappings).mp he
      have hino := (lastOf_mem hv).2
      rw [← hino] at hv
      refine ⟨v, hv, ?_⟩
      rw [heq, ← hino]
    · rintro ⟨v, hv, rfl⟩
      exact ⟨⟨v.ino, v.inum, BitVec.ofNat 32 ((M.append N).multis.countP (·.ino = v.ino)), v.ino,
        v.st⟩, ((hlog hc).1.mem_mappings).mpr ⟨v, hv, rfl⟩, rfl⟩
  · intro hc
    obtain ⟨hlogged, hnum⟩ := hlog hc
    obtain ⟨-, hnum'⟩ := (hgrow hc).logged _ hlogged (by rw [List.append_nil]; exact hc)
    have hall := hnum.trans hnum' (fun _ h => absurd h List.not_mem_nil)
    rw [List.append_nil, List.append_nil] at hall
    exact hall
  · intro hc
    exact (hlog hc).1.same

end Whole

section Links

variable {o : TreeOptions} {order : HashOrder} {tbl : List NameElt} {T : HostTree}
variable {host : HostIno → HostInode} {root_st : Stat} {path : List Byte}

/-- A name of a file of the host. -/
structure HostLink where
  path : List Byte
  name : List Byte
  ino : HostIno

/-- The names of files in the order in which the walk comes to them. -/
def fileLinks : List Byte → Entries → List HostLink
  | _, .nil => []
  | path, .file name h rest => ⟨path, name, h⟩ :: fileLinks path rest
  | path, .dir name _ sub rest => fileLinks (makePath path name) sub ++ fileLinks path rest

/-- The attributes with which the walk comes to a file. -/
def linkStat (o : TreeOptions) (host : HostIno → HostInode) (tbl : List NameElt) (l : HostLink) :
    Stat :=
  setBy (squash o (host l.ino).st) (lookup tbl l.path l.name)

/-- The name at which the walk comes to a file for the last time. -/
def lastLink (T : HostTree) (h : HostIno) : Option HostLink :=
  ((fileLinks rootPath T.entries).filter (·.ino = h)).getLast?

theorem setBy_nlink (st : Stat) (e : Option NameElt) : (setBy st e).st_nlink = st.st_nlink := by
  cases e with
  | none => rfl
  | some e => rfl

theorem linkStat_nlink (l : HostLink) : (linkStat o host tbl l).st_nlink = (host l.ino).st.st_nlink :=
  (setBy_nlink _ _).trans (squash_nlink o _)

theorem fileLinks_files (es : Entries) (path : List Byte) :
    (fileLinks path es).map HostLink.ino = es.files := by
  induction es generalizing path with
  | nil => rfl
  | file name h rest ih => exact congrArg (h :: ·) (ih path)
  | dir name h sub rest ihsub ihrest =>
    rw [fileLinks, List.map_append, ihsub, ihrest]
    rfl

theorem FromTable.multis {elts : List NameElt} {N : Made}
    (h : FromTable root_st order tbl path elts N) : N.multis = [] := by
  induction h with
  | nil => rfl
  | file _ _ _ ih =>
    rw [Made.multis, ih, multi?_none]
    rfl
  | dir _ _ _ ihsub ihrest =>
    rw [Made.multis, ihsub, ihrest]
    rfl

/-- The visits of the files with several links. -/
theorem FromHost.multis {es : Entries} {t t' : List NameElt} {M : Made}
    (h : FromHost o host root_st order tbl path es t M t') (hnames : (hostNames es).Nodup)
    (hdirs : ∀ d ∈ es.dirs, (hostNames d.2).Nodup)
    (ht : ∀ name ∈ hostNames es, (t.find? fun e => e.name = name) = lookup tbl path name) :
    M.multis.map (fun v => (v.ino, v.st)) =
      ((fileLinks path es).filter fun l => 1 < (host l.ino).st.st_nlink).map
        fun l => (l.ino, linkStat o host tbl l) := by
  induction h with
  | nil => rfl
  | @file path name h rest t t₁ t' st inum type M hover htype hrest ih =>
    obtain ⟨hst, hleft, -⟩ := overrideAttributes_ok hover
    obtain ⟨hnew, hnodup⟩ := List.nodup_cons.mp hnames
    have hih := ih hnodup hdirs fun name hname => by
      rw [hleft, find_left (ne_of_mem_of_not_mem hname hnew)]
      exact ht name (List.mem_cons_of_mem _ hname)
    have hlink : st = linkStat o host tbl ⟨path, name, h⟩ := by
      rw [hst, linkStat, ← ht name List.mem_cons_self]
    have hnlink : st.st_nlink = (host h).st.st_nlink := by
      rw [hlink, linkStat_nlink]
    rw [Made.multis, fileLinks, List.map_append, hih, List.filter_cons]
    unfold multi?
    rw [hnlink]
    by_cases hm : 1 < (host h).st.st_nlink
    · rw [if_pos hm, if_pos (decide_eq_true hm), hlink]
      rfl
    · rw [if_neg hm, if_neg (by simpa using hm)]
      rfl
  | @dir path name h sub rest t t₁ t₂ t' st inum M N R hover hsub htable hrest ihsub ihrest =>
    obtain ⟨hst, hleft, -⟩ := overrideAttributes_ok hover
    obtain ⟨hnew, hnodup⟩ := List.nodup_cons.mp hnames
    have hself : (hostNames sub).Nodup := hdirs _ (List.mem_append_right _ List.mem_cons_self)
    have h1 := ihsub hself (fun d hd => hdirs d (List.mem_append_left _ hd)) fun _ _ => rfl
    have h2 := ihrest hnodup
      (fun d hd => hdirs d (List.mem_append_right _ (List.mem_cons_of_mem _ hd)))
      fun name hname => by
        rw [hleft, find_left (ne_of_mem_of_not_mem hname hnew)]
        exact ht name (List.mem_cons_of_mem _ hname)
    rw [Made.multis, Made.multis_append, htable.multis, List.append_nil, List.map_append, h1, h2,
      fileLinks, List.filter_append, List.map_append]

variable {s : Mkfs} {C : Made}

theorem Written.multis (hw : Written o order tbl T s C) (hT : HostNames T) :
    C.multis.map (fun v => (v.ino, v.st)) =
      ((fileLinks rootPath T.entries).filter fun l => 1 < (T.host l.ino).st.st_nlink).map
        fun l => (l.ino, linkStat o T.host tbl l) := by
  obtain ⟨t, M, N, hM, hN, rfl⟩ := hw.merged
  rw [Made.multis_append, hN.multis, List.append_nil]
  exact hM.multis (hT.distinct _ List.mem_cons_self)
    (fun d hd => hT.distinct d (List.mem_cons_of_mem _ hd)) fun _ _ => rfl

/-- No file has more names than its visits can be counted. -/
theorem Written.countable (hw : Written o order tbl T s C) (hT : HostNames T)
    (hlinks : ∀ h ∈ T.files, T.visits.count h < 2^32) : Countable C.multis := by
  intro h
  have hino : C.multis.map Multi.ino =
      ((fileLinks rootPath T.entries).filter fun l => 1 < (T.host l.ino).st.st_nlink).map
        HostLink.ino := by
    have := congrArg (List.map Prod.fst) (hw.multis hT)
    rw [List.map_map, List.map_map] at this
    exact this
  have hsub : (C.multis.map Multi.ino).Sublist T.files := by
    rw [hino, HostTree.files, ← fileLinks_files T.entries rootPath]
    exact List.filter_sublist.map _
  have hcount : C.multis.countP (·.ino = h) = (C.multis.map Multi.ino).count h := by
    rw [List.count, List.countP_map]
    rfl
  rw [hcount]
  by_cases hmem : h ∈ T.files
  · exact lt_of_le_of_lt ((hsub.trans (files_sublist T.entries)).count_le h) (hlinks h hmem)
  · rw [List.count_eq_zero_of_not_mem fun hh => hmem (hsub.subset hh)]
    exact Nat.pow_pos (by decide)

/-- The last visit of a file is that of its last name. -/
theorem Written.last (hw : Written o order tbl T s C) (hT : HostNames T) {h : HostIno}
    (hm : 1 < (T.host h).st.st_nlink) :
    (lastOf C.multis h).map Multi.st = (lastLink T h).map (linkStat o T.host tbl) := by
  have hpairs := congrArg (List.filter fun p => decide (p.1 = h)) (hw.multis hT)
  rw [List.filter_map, List.filter_map, List.filter_filter] at hpairs
  have hfilter : ((fileLinks rootPath T.entries).filter fun l =>
      ((fun p => decide (p.1 = h)) ∘ fun l : HostLink => (l.ino, linkStat o T.host tbl l)) l &&
        decide (1 < (T.host l.ino).st.st_nlink)) =
      (fileLinks rootPath T.entries).filter fun l => l.ino = h := by
    apply List.filter_congr
    intro l _
    by_cases hl : l.ino = h
    · simp [hl, hm]
    · simp [hl]
  rw [hfilter] at hpairs
  have hst := congrArg (List.map Prod.snd) hpairs
  rw [List.map_map, List.map_map] at hst
  have hlast := congrArg List.getLast? hst
  rw [List.getLast?_map, List.getLast?_map] at hlast
  exact hlast

end Links

section Resolve

variable {o : TreeOptions} {order : HashOrder} {tbl : List NameElt} {T : HostTree}
variable {s : Mkfs} {C : Made} {path name : List Byte} {i : ℕ} {x y : Placed}

/-- All entries of the image. -/
def Made.all (C : Made) : List Placed := C.placed rootPath UBIFS_ROOT_INO

theorem Written.item (hw : Written o order tbl T s C) (hT : HostNames T) (hx : x ∈ C.all) :
    ∃ p j D S, IsDir o order tbl T p D ∧ (x, S) ∈ D.items p j := by
  have hroot : IsDir o order tbl T rootPath C := ⟨_, .root, hw.merged⟩
  rcases placed_item hT (fun y hy => hroot.item hT hy) hx with ⟨S, hS⟩ | h
  · exact ⟨_, _, C, S, hroot, hS⟩
  · exact h

theorem Written.dir_single (hw : Written o order tbl T s C) (hT : HostNames T) (hx : x ∈ C.all)
    (hdir : x.type = .dir) : x.single := by
  obtain ⟨p, j, D, S, ⟨es, hes, hmerged⟩, hitem⟩ := hw.item hT hx
  have hsrc : x.src = none := by
    rcases hmerged.item (hes.distinct hT) hitem with ⟨it, hit, hof⟩ | ⟨e, he, -, -, hof⟩
    · cases hsub : it.sub with
      | none =>
        have htype := (hof.file hsub).2
        change itype x.st.st_mode = some x.type at htype
        rw [hdir] at htype
        exact absurd htype (itype_ne_dir _)
      | some sub => exact (hof.dir sub hsub).2.1
    · exact hof.src
  exact Option.isNone_iff_eq_none.mpr (Placed.multi_none (.inl hsrc))

theorem Written.dents_all (hw : Written o order tbl T s C) :
    s.dents = C.all.map (Placed.dent o) := hw.dents.trans (C.dents_eq _ _)

/-- Every entry is found at its path. -/
theorem Written.dentAt (hw : Written o order tbl T s C) (hx : x ∈ C.all) :
    DentAt s.dents x.path x.name (x.dent o) := by
  have hmem : ∀ y ∈ C.all, y.dent o ∈ s.dents := by
    intro y hy
    rw [hw.dents_all]
    exact List.mem_map_of_mem hy
  exact ⟨hmem x hx, rfl, x.dir, Made.placed_dirAt .root hmem x hx, rfl⟩

section Numbers

variable {v : Multi}

theorem Made.own_all (hx : x ∈ C.all) (hs : x.single) : x.inum ∈ C.own := by
  rw [(C.own_perm rootPath UBIFS_ROOT_INO).mem_iff]
  exact List.mem_map_of_mem (List.mem_filter.mpr ⟨hx, hs⟩)

theorem Made.multi_all (hx : x ∈ C.all) (hv : x.multi = some v) : v ∈ C.multis := by
  rw [C.multis_eq rootPath UBIFS_ROOT_INO]
  exact List.mem_filterMap.mpr ⟨x, hx, hv⟩

theorem Written.multi_bounds (hw : Written o order tbl T s C) (hc : Countable C.multis)
    (hv : v ∈ C.multis) :
    v.inum ∉ C.own ∧ UBIFS_FIRST_INO < v.inum ∧ v.inum ≤ s.highest_inum := by
  obtain ⟨hnot, hin | ⟨w, hw, -⟩⟩ := (hw.numbered hc).multi_mem v hv
  · exact ⟨hnot, hin⟩
  · exact absurd hw List.not_mem_nil

theorem Written.bounds (hw : Written o order tbl T s C) (hc : Countable C.multis) (hx : x ∈ C.all) :
    UBIFS_FIRST_INO < x.inum ∧ x.inum ≤ s.highest_inum := by
  cases hv : x.multi with
  | none =>
    exact (hw.numbered hc).own_mem _ (Made.own_all hx (Option.isNone_iff_eq_none.mpr hv))
  | some v =>
    have hb := (hw.multi_bounds hc (Made.multi_all hx hv)).2
    rw [(Placed.multi_eq hv).2.1] at hb
    exact hb

/-- Two inodes that are written during the walk have different numbers. -/
theorem Written.single_inj (hw : Written o order tbl T s C) (hc : Countable C.multis)
    (hx : x ∈ C.all) (hs : x.single) (hy : y ∈ C.all) (hs' : y.single) (heq : x.inum = y.inum) :
    x = y := by
  have hnodup := (hw.numbered hc).own_nodup
  rw [(C.own_perm rootPath UBIFS_ROOT_INO).nodup_iff] at hnodup
  exact List.inj_on_of_nodup_map hnodup (List.mem_filter.mpr ⟨hx, hs⟩)
    (List.mem_filter.mpr ⟨hy, hs'⟩) heq

/-- The inode of an entry: as it was met, or for a file with several links as it was met last. -/
def Written.Shows (C : Made) (T : HostTree) (x : Placed) (f : Face) : Prop :=
  match x.multi with
  | none => f = x.face T.host
  | some v => ∃ w, lastOf C.multis v.ino = some w ∧ f = linkFace T.host w

/-- Every entry has an inode. -/
theorem Written.has_ino (hw : Written o order tbl T s C) (hc : Countable C.multis)
    (hx : x ∈ C.all) : ∃ n ∈ s.inos, n.key = inoKeyInit x.inum ∧ Written.Shows C T x (face n) := by
  have hface {f : Face} (hf : f ∈ s.inos.map face) (hkey : f.key = inoKeyInit x.inum)
      (hs : Written.Shows C T x f) :
      ∃ n ∈ s.inos, n.key = inoKeyInit x.inum ∧ Written.Shows C T x (face n) := by
    obtain ⟨n, hn, rfl⟩ := List.mem_map.mp hf
    exact ⟨n, hn, hkey, hs⟩
  cases hv : x.multi with
  | none =>
    apply hface ((hw.faces hc (x.face T.host)).mpr (.inl ?_)) rfl
    · unfold Written.Shows
      rw [hv]
    · rw [C.faces_eq rootPath UBIFS_ROOT_INO]
      exact List.mem_map_of_mem (List.mem_filter.mpr ⟨hx, Option.isNone_iff_eq_none.mpr hv⟩)
  | some v =>
    have hmem := Made.multi_all hx hv
    cases hlast : lastOf C.multis v.ino with
    | none => exact absurd rfl (lastOf_none hlast v hmem)
    | some w =>
      obtain ⟨hwmem, hino⟩ := lastOf_mem hlast
      have hinum := ((hw.same hc) w hwmem v hmem).mp hino
      apply hface ((hw.faces hc (linkFace T.host w)).mpr (.inr (.inr ⟨w, ?_, rfl⟩)))
      · change inoKeyInit w.inum = _
        rw [hinum, (Placed.multi_eq hv).2.1]
      · unfold Written.Shows
        rw [hv]
        exact ⟨w, hlast, rfl⟩
      · rw [hino]
        exact hlast

/-- As long as the numbers fit the keys, it is the only one with its key. -/
theorem Written.ino_shows (hw : Written o order tbl T s C) (hc : Countable C.multis)
    (hfit : s.highest_inum < 2^32) (hx : x ∈ C.all) {n : InoNode} (hn : n ∈ s.inos)
    (hkey : n.key = inoKeyInit x.inum) : Written.Shows C T x (face n) := by
  have hxb := hw.bounds hc hx
  have hinj {k : ℕ} (hk : k ≤ s.highest_inum) (h : inoKeyInit k = inoKeyInit x.inum) : k = x.inum := by
    rw [← inoKeyInit_inum (lt_of_le_of_lt hk hfit), h,
      inoKeyInit_inum (lt_of_le_of_lt hxb.2 hfit)]
  unfold Written.Shows
  rcases (hw.faces hc (face n)).mp (List.mem_map_of_mem hn) with hf | hf | ⟨w, hlast, hf⟩
  · rw [C.faces_eq rootPath UBIFS_ROOT_INO] at hf
    obtain ⟨y, hy, hyface⟩ := List.mem_map.mp hf
    obtain ⟨hy, hys⟩ := List.mem_filter.mp hy
    have hnum : y.inum = x.inum := by
      apply hinj (hw.bounds hc hy).2
      rw [← hkey]
      exact congrArg Face.key hyface
    cases hv : x.multi with
    | none =>
      rw [← hyface, hw.single_inj hc hy hys hx (Option.isNone_iff_eq_none.mpr hv) hnum]
    | some v =>
      have hnot := (hw.multi_bounds hc (Made.multi_all hx hv)).1
      rw [(Placed.multi_eq hv).2.1, ← hnum] at hnot
      exact absurd (Made.own_all hy hys) hnot
  · have hroot : UBIFS_ROOT_INO = x.inum := by
      apply hinj
      · exact le_trans (by decide) (hw.numbered hc).le
      · rw [← hkey]
        exact (congrArg Face.key hf).symm
    rw [← hroot] at hxb
    exact absurd hxb.1 (by decide)
  · obtain ⟨hwmem, -⟩ := lastOf_mem hlast
    have hnum : w.inum = x.inum := by
      apply hinj (hw.multi_bounds hc hwmem).2.2
      rw [← hkey]
      exact (congrArg Face.key hf).symm
    cases hv : x.multi with
    | none =>
      have hown := Made.own_all hx (Option.isNone_iff_eq_none.mpr hv)
      rw [← hnum] at hown
      exact absurd hown (hw.multi_bounds hc hwmem).1
    | some v =>
      have hmem := Made.multi_all hx hv
      have hino := ((hw.same hc) w hwmem v hmem).mpr (hnum.trans (Placed.multi_eq hv).2.1.symm)
      rw [hino] at hlast
      exact ⟨w, hlast, hf⟩

/-- The path of a directory that has the number `i`. -/
def Written.Dir (C : Made) (path : List Byte) (i : ℕ) : Prop :=
  path = rootPath ∧ i = UBIFS_ROOT_INO ∨ ∃ y ∈ C.all,
    y.type = .dir ∧ y.single ∧ path = makePath y.path y.name ∧ i = y.inum

theorem Written.Dir.le (hw : Written o order tbl T s C) (hc : Countable C.multis)
    (h : Written.Dir C path i) : i ≤ s.highest_inum := by
  rcases h with ⟨-, rfl⟩ | ⟨y, hy, -, -, -, rfl⟩
  · exact le_trans (by decide) (hw.numbered hc).le
  · exact (hw.bounds hc hy).2

/-- A number has one path. -/
theorem Written.Dir.path_eq {path' : List Byte} (hw : Written o order tbl T s C)
    (hc : Countable C.multis) (h : Written.Dir C path i) (h' : Written.Dir C path' i) :
    path = path' := by
  have hroot {y : Placed} (hy : y ∈ C.all) : UBIFS_ROOT_INO ≠ y.inum := by
    have := (hw.bounds hc hy).1
    have hlt : UBIFS_ROOT_INO < UBIFS_FIRST_INO := by decide
    omega
  rcases h with ⟨rfl, rfl⟩ | ⟨y, hy, -, hs, rfl, rfl⟩
  · rcases h' with ⟨rfl, -⟩ | ⟨y', hy', -, -, -, heq⟩
    · rfl
    · exact absurd heq (hroot hy')
  · rcases h' with ⟨-, heq⟩ | ⟨y', hy', -, hs', rfl, heq⟩
    · exact absurd heq.symm (hroot hy)
    · rw [hw.single_inj hc hy hs hy' hs' heq]

theorem Made.parent (hx : x ∈ C.all) : Written.Dir C x.path x.dir := Made.placed_parent hx

theorem Written.dir_ofNat (hw : Written o order tbl T s C) (hc : Countable C.multis)
    (hfit : s.highest_inum < 2^32) (hx : x ∈ C.all) (h : Written.Dir C path i)
    (hkey : (x.dent o).key.u32_0 = BitVec.ofNat 32 i) : x.dir = i := by
  have hnat := congrArg BitVec.toNat hkey
  change (BitVec.ofNat 32 x.dir).toNat = _ at hnat
  rw [BitVec.toNat_ofNat, BitVec.toNat_ofNat,
    Nat.mod_eq_of_lt (lt_of_le_of_lt ((Made.parent hx).le hw hc) hfit),
    Nat.mod_eq_of_lt (lt_of_le_of_lt (h.le hw hc) hfit)] at hnat
  exact hnat

/-- The directories that are read from the dents are those that were made. -/
theorem Written.dirAt (hw : Written o order tbl T s C) (hT : HostNames T) (hc : Countable C.multis)
    (hfit : s.highest_inum < 2^32) (h : DirAt s.dents path i) : Written.Dir C path i := by
  induction h with
  | root => exact .inl ⟨rfl, rfl⟩
  | @dent path i d hdir hd hkey htype ih =>
    rw [hw.dents_all] at hd
    obtain ⟨x, hx, rfl⟩ := List.mem_map.mp hd
    have hi := hw.dir_ofNat hc hfit hx ih hkey
    have hpar := Made.parent hx
    rw [hi] at hpar
    rw [ih.path_eq hw hc hpar]
    exact .inr ⟨x, hx, htype, hw.dir_single hT hx htype, rfl, rfl⟩

/-- And a dent at a path is that of an entry with this path. -/
theorem Written.of_dentAt (hw : Written o order tbl T s C) (hT : HostNames T)
    (hc : Countable C.multis) (hfit : s.highest_inum < 2^32) {d : DentNode}
    (h : DentAt s.dents path name d) : ∃ x ∈ C.all, x.path = path ∧ x.name = name ∧ d = x.dent o := by
  obtain ⟨hd, hname, i, hdir, hkey⟩ := h
  rw [hw.dents_all] at hd
  obtain ⟨x, hx, rfl⟩ := List.mem_map.mp hd
  have hD := hw.dirAt hT hc hfit hdir
  have hi := hw.dir_ofNat hc hfit hx hD hkey
  have hpar := Made.parent hx
  rw [hi] at hpar
  exact ⟨x, hx, hpar.path_eq hw hc hD, hname, rfl⟩

end Numbers

end Resolve

end ChipTools.UbifsTable
