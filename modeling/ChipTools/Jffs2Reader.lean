import ChipTools.Mkjffs2Dirents
import ChipTools.EndianConvert

/-! `jffs2reader` on an image of `mkfs.jffs2`. The reader looks for directory entries with versions
from 1 on, and the writer counts from 0, so the first entry of an image is never found. -/
namespace ChipTools.Jffs2
open Bytes

section Reader

variable (e : Endian) (o : List Byte)

/-- The loop up to the next magic number. -/
def seek : ℕ → ℕ → ℕ
  | 0, n => n
  | k+1, n => if n < o.length ∧ e.get o n 2 ≠ JFFS2_MAGIC_BITMASK then seek k (n+4) else n

/-- `(je32_to_cpu(n->u.totlen) + 3) & ~3`. -/
def stepOf (n : ℕ) : ℕ := (e.get o (n+4) 4+3)%2^32/4*4

/-- `struct jffs2_raw_dirent` as it is read from the image. -/
structure RawDirent where
  pino : ℕ
  version : ℕ
  ino : ℕ
  nsize : ℕ
  type : ℕ
  name : List Byte

def rawDirent (n : ℕ) : RawDirent where
  pino := e.get o (n+12) 4
  version := e.get o (n+16) 4
  ino := e.get o (n+20) 4
  nsize := e.get o (n+28) 1
  type := e.get o (n+29) 1
  name := (o.drop (n+40)).take (e.get o (n+28) 1)

/-- `struct dir`. -/
structure Dir where
  type : ℕ
  ino : ℕ
  name : List Byte
deriving DecidableEq

/-- Adds, replaces or removes an entry. -/
def putdir : List Dir → RawDirent → List Dir
  | [], n => if n.ino ≠ 0 then [⟨n.type, n.ino, n.name⟩] else []
  | d :: ds, n =>
    if n.name = d.name then
      if n.ino ≠ 0 then ⟨n.type, n.ino, d.name⟩ :: ds else ds
    else d :: putdir ds n

/-- The variables of `collectdir`; `mp` is `NULL` at first. -/
structure Collect where
  n : ℕ
  lr : ℕ
  mp : Option ℕ
  vmin : ℕ
  vmint : ℕ
  vmaxt : ℕ
  vmax : ℕ
  vcur : ℕ
  d : List Dir

def Collect.start (d : List Dir) : Collect := ⟨0, 0, none, 0, 2^32-1, 0, 2^32-1, 0, d⟩

/-- A directory entry of the directory with a version that is still to come. -/
def collectDirent (v n : ℕ) (s : Collect) : Collect :=
  let s := { s with
    vmaxt := max s.vmaxt v
    vmint := min s.vmint v
    mp := if v < s.vmint then some n else s.mp }
  if v = (s.vcur+1)%2^32 then
    { s with d := putdir s.d (rawDirent e o n), lr := n, vcur := s.vcur+1, vmint := 2^32-1 }
  else s

def collectNode (ino n : ℕ) (s : Collect) : Collect :=
  if e.get o (n+2) 2 = JFFS2_NODETYPE_DIRENT ∧ e.get o (n+12) 4 = ino ∧ s.vcur < e.get o (n+16) 4
  then collectDirent e o (e.get o (n+16) 4) n s else s

/-- One node, or the way back to the start. -/
def collectAdvance (ino : ℕ) (s : Collect) : Collect :=
  let n := seek e o o.length s.n
  if n < o.length ∧ e.get o n 2 = JFFS2_MAGIC_BITMASK then
    { collectNode e o ino n s with n := n+stepOf e o n }
  else { s with n := 0 }

/-- A whole pass since the last entry: the one with the least version is next. Nothing where the
entry is read through `NULL`. -/
def collectPass (s : Collect) : Option Collect :=
  if s.lr = s.n then
    let s := { s with vmax := s.vmaxt, vmin := s.vmint, vmint := 2^32-1 }
    if s.vcur < s.vmax ∧ s.vcur < s.vmin then
      s.mp.map fun mp => { s with
        d := putdir s.d (rawDirent e o mp)
        lr := mp+stepOf e o mp
        n := mp+stepOf e o mp
        vcur := s.vmin }
    else some s
  else some s

/-- The outer loop, with a bound on its passes. -/
def collectLoop (ino : ℕ) : ℕ → Collect → Option (List Dir)
  | 0, _ => none
  | k+1, s => do
    let s ← collectPass e o (collectAdvance e o ino s)
    if s.vcur < s.vmax then collectLoop ino k s else some s.d

def collectdir (fuel ino : ℕ) (d : List Dir) : Option (List Dir) :=
  collectLoop e o ino fuel (Collect.start d)

/-- The criteria of `resolvedirent`. -/
def direntMatches (ino pino : ℕ) (name : List Byte) (nsize vmax n : ℕ) : Bool :=
  e.get o (n+2) 2 = JFFS2_NODETYPE_DIRENT ∧ (ino = 0 ∨ e.get o (n+20) 4 = ino) ∧
    vmax < e.get o (n+16) 4 ∧
    (pino = 0 ∨ (e.get o (n+12) 4 = pino ∧ nsize = e.get o (n+28) 1 ∧
      name.take nsize = (o.drop (n+40)).take nsize))

def resolveLoop (ino pino : ℕ) (name : List Byte) (nsize : ℕ) :
    ℕ → ℕ → ℕ → Option RawDirent → Option (Option RawDirent)
  | 0, _, _, _ => none
  | k+1, n, vmax, dd =>
    let n := seek e o o.length n
    if n < o.length ∧ e.get o n 2 = JFFS2_MAGIC_BITMASK then
      if direntMatches e o ino pino name nsize vmax n then
        resolveLoop ino pino name nsize k (n+stepOf e o n) (e.get o (n+16) 4)
          (some (rawDirent e o n))
      else resolveLoop ino pino name nsize k (n+stepOf e o n) vmax dd
    else some dd

/-- `resolvedirent`; the outer `Option` is `none` when the loop takes more passes than allowed. -/
def resolvedirent (fuel ino pino : ℕ) (name : List Byte) (nsize : ℕ) : Option (Option RawDirent) :=
  if pino = 0 ∧ ino ≤ 1 then some none
  else resolveLoop e o ino pino name nsize fuel 0 0 none

def resolvename (fuel pino : ℕ) (name : List Byte) : Option (Option RawDirent) :=
  resolvedirent e o fuel 0 pino name (name.length%256)

def resolveinode (fuel ino : ℕ) : Option (Option RawDirent) := resolvedirent e o fuel ino 0 [] 0

/-- The end of the pass of `find_raw_inode`, which never moves `vcur` from 0. -/
def findPass (vmint vmaxt : ℕ) (mp : Option ℕ) : Option ℕ :=
  if 0 < vmaxt ∧ 0 < vmint then mp else none

def findRawInode (ino : ℕ) : ℕ → ℕ → ℕ → ℕ → Option ℕ → Option (Option ℕ)
  | 0, _, _, _, _ => none
  | k+1, n, vmint, vmaxt, mp =>
    let n := seek e o o.length n
    let next := n+stepOf e o n
    let v := e.get o (n+16) 4
    if n < o.length ∧ e.get o n 2 = JFFS2_MAGIC_BITMASK then
      if e.get o (n+2) 2 = JFFS2_NODETYPE_INODE ∧ e.get o (n+12) 4 = ino ∧ 0 < v then
        let vmint' := min vmint v
        let vmaxt' := max vmaxt v
        let mp' := if v < vmint then some n else mp
        if v = 1 then some (some n)
        else if next = 0 then some (findPass vmint' vmaxt' mp')
        else findRawInode ino k next vmint' vmaxt' mp'
      else if next = 0 then some (findPass vmint vmaxt mp)
      else findRawInode ino k next vmint vmaxt mp
    else some (findPass vmint vmaxt mp)

/-- The text of a link, by `putblock` into a buffer of 1024 bytes; `none` where the program ends
with an error. The call of `uncompress` is a parameter. -/
def symlinkText (uncompress : List Byte → ℕ → List Byte) (n : ℕ) : Option (List Byte) :=
  let isize := e.get o (n+28) 4
  let offset := e.get o (n+44) 4
  let csize := e.get o (n+48) 4
  let dlen := e.get o (n+52) 4
  let compr := e.get o (n+56) 1
  let text (data : List Byte) : Option (List Byte) :=
    some (((List.replicate offset 0#8 ++ data).take isize).takeWhile (· ≠ 0#8))
  if 1024 < isize ∨ 1024 < offset+dlen then none
  else if compr = 6 then text (uncompress ((o.drop (n+68)).take csize) dlen)
  else if compr = 0 then text ((o.drop (n+68)).take dlen)
  else if compr = 1 then text (List.replicate dlen 0#8)
  else none

/-- `DIRENT_INO`. -/
def direntIno : Option RawDirent → ℕ
  | some d => d.ino
  | none => 0

/-- `DIRENT_PINO`. -/
def direntPino : Option RawDirent → ℕ
  | some d => d.pino
  | none => 0

/-- There are more components, and the entry is neither a directory nor a link. -/
def blocked (dir : Option RawDirent) (next : Option (List Byte)) : Bool :=
  match dir, next with
  | some d, some _ => !(d.type = DT_DIR ∨ d.type = DT_LNK)
  | _, _ => false

def splitPath (path : List Byte) : List Byte × Option (List Byte) :=
  (path.takeWhile (· ≠ 0x2f#8),
    match path.dropWhile (· ≠ 0x2f#8) with
    | [] => none
    | _ :: rest => some rest)

variable (uncompress : List Byte → ℕ → List Byte)

mutual

/-- `resolvepath0`: the entry and the inode number. -/
def resolvepath0 : ℕ → ℕ → ℕ → List Byte → Option (Option RawDirent × ℕ)
  | 0, _, _, _ => none
  | k+1, recc, ino, p =>
    if 16 < recc then some (none, 0)
    else if p.head? = some 0x2f#8 then resolveWalk k recc 1 none (some p.tail)
    else if 1 < ino then do
      let dir ← resolveinode e o k ino
      resolveWalk k recc (direntIno dir) dir (some p)
    else resolveWalk k recc ino none (some p)

/-- The loop over the components, with what is behind `next`. -/
def resolveWalk : ℕ → ℕ → ℕ → Option RawDirent → Option (List Byte) →
    Option (Option RawDirent × ℕ)
  | 0, _, _, _, _ => none
  | k+1, recc, ino, dir, rest =>
    match rest with
    | none => some (dir, ino)
    | some [] => some (dir, ino)
    | some path =>
      let (name, next) := splitPath path
      if ino = 0 then some (dir, ino)
      else if name = [0x2e#8] then resolveWalk k recc ino dir next
      else if name = [0x2e#8, 0x2e#8] then
        if direntPino dir = 1 then resolveWalk k recc 1 none next
        else do
          let dir ← resolveinode e o k (direntPino dir)
          resolveWalk k recc (direntIno dir) dir next
      else do
        let dir ← resolvename e o k ino name
        match dir with
        | none => some (none, 0)
        | some d =>
          if d.ino = 0 ∨ blocked (some d) next then some (none, 0)
          else if d.type = DT_LNK then do
            let ri ← findRawInode e o d.ino k 0 (2^32-1) 0 none
            let text ← ri.bind (symlinkText e o uncompress)
            let (dir, tino) ← resolvepath0 k (recc+1) ino text
            if blocked dir next then some (none, 0)
            else resolveWalk k (recc+1) (if dir.isSome then direntIno dir else tino) dir next
          else resolveWalk k recc d.ino (some d) next

end

def resolvepath (fuel ino : ℕ) (p : List Byte) : Option (Option RawDirent × ℕ) :=
  resolvepath0 e o uncompress fuel 0 ino p

end Reader

section Scan

variable {e : Endian} {ws : List Write} {ds : List Dirent} {n p : ℕ} {m : Node}

theorem get_drop (e : Endian) (bs : List Byte) (p i k : ℕ) :
    e.get bs (p+i) k = e.get (bs.drop p) i k := by
  cases e
  · change field _ _ _ = field _ _ _
    rw [field, field, List.drop_drop]
  · exact (beField_drop bs p i k).symm

/-- What is at the place of a node. -/
theorem imageOf_drop (e : Endian) (h : At ws p m) :
    ∃ rest, (imageOf e ws).drop p = (m.encode e).take m.stored ++ rest := by
  obtain ⟨pre, post, rfl, rfl⟩ := h
  refine ⟨imageOf e post, ?_⟩
  have himage : imageOf e (pre ++ .node m :: post) =
      imageOf e pre ++ ((m.encode e).take m.stored ++ imageOf e post) := by
    unfold imageOf
    rw [List.flatMap_append, List.flatMap_cons]
    rfl
  rw [himage, List.drop_left' (imageOf_length e pre)]

theorem le_stored (m : Node) : 12 ≤ m.stored := by
  cases m with
  | xattr n => exact (by decide : 12 ≤ 32).trans (Nat.le_add_right _ _)
  | inode n => exact (Node.inode n).le_totlen
  | dirent n => exact (Node.dirent n).le_totlen
  | xref n => exact (Node.xref n).le_totlen
  | cleanmarker rest => exact (Node.cleanmarker rest).le_totlen
  | padding rest => exact (Node.padding rest).le_totlen
  | summary n => exact (Node.summary n).le_totlen

theorem imageOf_header (e : Endian) (h : At ws p m) (hlen : m.totlen < 2^32) :
    e.get (imageOf e ws) p 2 = JFFS2_MAGIC_BITMASK ∧
      e.get (imageOf e ws) (p+2) 2 = m.nodetype ∧ e.get (imageOf e ws) (p+4) 4 = m.totlen := by
  obtain ⟨rest, hrest⟩ := imageOf_drop e h
  obtain ⟨body, hbody⟩ := m.encode_eq_header e
  have hst := le_stored m
  rw [hbody, List.take_append, List.take_of_length_le (by rw [header_length]; exact hst),
    List.append_assoc] at hrest
  obtain ⟨h₀, h₂, h₄⟩ := header_get e m.nodetype m.totlen m.nodetype_lt hlen
    (body.take (m.stored-(header e m.nodetype m.totlen).length) ++ rest)
  refine ⟨?_, ?_, ?_⟩
  · rw [← Nat.add_zero p, get_drop, hrest]
    exact h₀
  · rw [get_drop, hrest]
    exact h₂
  · rw [get_drop, hrest]
    exact h₄

/-- The reader is at a whole word, and inside of no node. -/
def Between (ws : List Write) (n : ℕ) : Prop :=
  n%4 = 0 ∧ ∀ p m, At ws p m → n ≤ p ∨ p+pad4 m.totlen ≤ n

theorem get_blank {bs : List Byte} {n : ℕ} (h : bs[n]? = some 0xff#8) :
    e.get bs n 2 ≠ JFFS2_MAGIC_BITMASK := by
  have hdrop : bs.drop n = 0xff#8 :: bs.drop (n+1) := by
    obtain ⟨hlt, hget⟩ := List.getElem?_eq_some_iff.mp h
    rw [List.drop_eq_getElem_cons hlt, hget]
  rw [← Nat.add_zero n, get_drop, hdrop]
  cases bs.drop (n+1) with
  | nil => cases e <;> decide
  | cons b bs =>
    cases e
    · change leVal [0xff#8, b] ≠ _
      intro h
      simp only [leVal, JFFS2_MAGIC_BITMASK, BitVec.reduceToNat] at h
      omega
    · change leVal [b, 0xff#8] ≠ _
      intro h
      have := b.isLt
      simp only [leVal, JFFS2_MAGIC_BITMASK, BitVec.reduceToNat] at h
      omega

theorem Worded.node (hw : Worded ws ds) (h : At ws p m) :
    p%4 = 0 ∧ pad4 m.totlen ≤ pad4 m.stored ∧ p+m.stored ≤ outOfs ws ∧ m.totlen < 2^32 := by
  obtain ⟨h4, hpad⟩ := hw.nodes p m h
  obtain ⟨pre, post, rfl, rfl⟩ := h
  have hsmall := hw.small
  have hofs : outOfs (pre ++ .node m :: post) = outOfs pre+(m.stored+outOfs post) := by
    rw [outOfs_append, outOfs_cons]
    rfl
  have hle : m.totlen ≤ pad4 m.stored := hpad
  rw [hofs] at hsmall ⊢
  unfold pad4 at *
  refine ⟨h4, ?_, ?_, ?_⟩ <;> omega

/-- Two nodes do not overlap. -/
theorem at_disjoint {p' : ℕ} {m' : Node} (h : At ws p m) (h' : At ws p' m') :
    p+m.stored ≤ p' ∨ p'+m'.stored ≤ p ∨ (p = p' ∧ m = m') := by
  obtain ⟨pre, post, rfl, rfl⟩ := h
  obtain ⟨pre', post', heq, rfl⟩ := h'
  rcases List.append_eq_append_iff.mp heq with ⟨mid, rfl, hmid⟩ | ⟨mid, rfl, hmid⟩
  · cases mid with
    | nil =>
      obtain ⟨hm, -⟩ := List.cons.inj hmid
      exact .inr (.inr ⟨by rw [List.append_nil], by injection hm⟩)
    | cons w mid =>
      obtain ⟨rfl, -⟩ := List.cons.inj hmid
      rw [outOfs_append, outOfs_cons]
      exact .inl (by change _ ≤ outOfs pre+(m.stored+outOfs mid); omega)
  · cases mid with
    | nil =>
      obtain ⟨hm, -⟩ := List.cons.inj hmid
      exact .inr (.inr ⟨by rw [List.append_nil], by injection hm.symm⟩)
    | cons w mid =>
      obtain ⟨rfl, -⟩ := List.cons.inj hmid
      rw [outOfs_append, outOfs_cons]
      exact .inr (.inl (by change _ ≤ outOfs pre'+(m'.stored+outOfs mid); omega))

/-- Behind a node the reader is between nodes again. -/
theorem Between.next (hw : Worded ws ds) (h : At ws p m) : Between ws (p+pad4 m.totlen) := by
  obtain ⟨h4, hpad, -, -⟩ := hw.node h
  refine ⟨?_, fun p' m' h' => ?_⟩
  · unfold pad4
    omega
  · obtain ⟨h4', hpad', -, -⟩ := hw.node h'
    have hst := le_stored m
    have hlen := m.le_totlen
    rcases at_disjoint h h' with hle | hle | ⟨rfl, rfl⟩
    · left
      unfold pad4 at *
      omega
    · right
      unfold pad4 at *
      omega
    · exact .inr le_rfl

/-- Where no node starts the word is blank, and behind it the reader is between nodes again. -/
theorem Between.word (hw : Worded ws ds) (h : Between ws n) (hno : ∀ m, ¬At ws n m) :
    Between ws (n+4) := by
  refine ⟨by have := h.1; omega, fun p m hat => ?_⟩
  obtain ⟨h4, -, -, -⟩ := hw.node hat
  rcases h.2 p m hat with hle | hle
  · have hne : n ≠ p := by
      rintro rfl
      exact hno m hat
    have := h.1
    exact .inl (by omega)
  · exact .inr (by omega)

theorem Between.blank (e : Endian) (h : Between ws n) (hno : ∀ m, ¬At ws n m) (hn : n < outOfs ws) :
    (imageOf e ws)[n]? = some 0xff#8 := by
  refine imageOf_blank e ws hn fun p m hat => ?_
  rcases h.2 p m hat with hle | hle
  · rcases Nat.lt_or_eq_of_le hle with hlt | heq
    · exact .inl hlt
    · exact absurd (heq ▸ hat) (hno m)
  · have := le_pad4_self m.totlen
    exact .inr (by omega)

/-- The reader stops at a node or at the end. -/
theorem seek_between (e : Endian) (hw : Worded ws ds) (h : Between ws n) (k : ℕ)
    (hk : outOfs ws ≤ n+4*k) :
    n ≤ seek e (imageOf e ws) k n ∧ Between ws (seek e (imageOf e ws) k n) ∧
      (outOfs ws ≤ seek e (imageOf e ws) k n ∨ ∃ m, At ws (seek e (imageOf e ws) k n) m) := by
  induction k generalizing n with
  | zero => exact ⟨le_rfl, h, .inl hk⟩
  | succ k ih =>
    rw [seek]
    split
    next hmagic =>
      have hno (m : Node) : ¬At ws n m := fun hat =>
        hmagic.2 (imageOf_header e hat (hw.node hat).2.2.2).1
      obtain ⟨hle, hb, hend⟩ := ih (h.word hw hno) (by omega)
      exact ⟨by omega, hb, hend⟩
    next hstop =>
      refine ⟨le_rfl, h, ?_⟩
      by_contra hno
      rw [not_or, not_le, not_exists] at hno
      exact hstop ⟨by rw [imageOf_length]; exact hno.1, get_blank (h.blank e hno.2 hno.1)⟩

theorem stepOf_node (hw : Worded ws ds) (h : At ws p m) :
    stepOf e (imageOf e ws) p = pad4 m.totlen := by
  obtain ⟨-, hpad, hle, hlen⟩ := hw.node h
  have hsmall := hw.small
  rw [stepOf, (imageOf_header e h hlen).2.2]
  unfold pad4 at *
  omega

end Scan

section Members

variable {e : Endian} {ws : List Write} {ds : List Dirent} {n p : ℕ} {m : Node}

/-- A member that need not fit. -/
theorem get_member_mod (e : Endian) (fs : List (ℕ × ℕ)) (i : ℕ) {k v : ℕ}
    (hi : fs[i]? = some (k, v)) (post : List Byte) :
    e.get (e.puts fs ++ post) ((fs.take i).map Prod.fst).sum k = v%256^k := by
  induction fs generalizing i with
  | nil => cases hi
  | cons f fs ih =>
    cases i with
    | zero =>
      obtain rfl := Option.some.inj hi
      rw [Endian.puts_cons, List.append_assoc]
      exact e.get_put k v _
    | succ i =>
      rw [List.take_succ_cons, List.map_cons, List.sum_cons, e.get_puts_skip (Nat.le_add_right _ _),
        Nat.add_sub_cancel_left]
      exact ih i hi

/-- What the reader finds at the place of a directory entry. -/
theorem imageOf_dirent (e : Endian) {d : Dirent} (h : At ws p (.dirent d)) :
    e.get (imageOf e ws) (p+12) 4 = d.pino%2^32 ∧ e.get (imageOf e ws) (p+16) 4 = d.version%2^32 ∧
      e.get (imageOf e ws) (p+28) 1 = d.name.length%256 ∧
      ∃ rest, (imageOf e ws).drop (p+40) = d.name ++ rest := by
  obtain ⟨rest, hrest⟩ := imageOf_drop e h
  have hst : ((Node.dirent d).encode e).take (Node.dirent d).stored = d.encode e :=
    List.take_of_length_le (le_of_eq (Node.encode_length e (.dirent d)))
  rw [hst, Dirent.encode] at hrest
  simp only [List.append_assoc] at hrest
  have hmember (i k v off : ℕ) (hi : d.fields[i]? = some (k, v))
      (hoff : ((d.fields.take i).map Prod.fst).sum = off) :
      e.get (imageOf e ws) (p+(12+off)) k = v%256^k := by
    rw [get_drop, hrest, header_get_skip, ← hoff]
    exact get_member_mod e d.fields i hi _
  refine ⟨hmember 0 4 _ 0 rfl rfl, hmember 1 4 _ 4 rfl rfl, hmember 4 1 _ 16 rfl rfl, rest, ?_⟩
  have hfields : (e.puts d.fields).length = 20 := by
    rw [e.puts_length]
    simp [Dirent.fields]
  rw [← List.drop_drop, hrest, ← List.append_assoc, ← List.append_assoc, ← List.append_assoc,
    List.drop_left']
  simp only [List.length_append, header_length, hfields, e.put_length]

theorem eq_dirent_of_nodetype (h : m.nodetype = JFFS2_NODETYPE_DIRENT) : ∃ d, m = .dirent d := by
  cases m with
  | dirent d => exact ⟨d, rfl⟩
  | _ =>
    simp only [Node.nodetype] at h
    exact absurd h (by decide)

/-- The entry that is found is one of the image. -/
theorem resolveLoop_found (hw : Worded ws ds) {P : RawDirent → Prop} {ino pino : ℕ}
    {name : List Byte} {nsize : ℕ}
    (hP : ∀ vmax p d, At ws p (.dirent d) →
      direntMatches e (imageOf e ws) ino pino name nsize vmax p = true →
      P (rawDirent e (imageOf e ws) p))
    {k vmax : ℕ} {dd : Option RawDirent} (hdd : ∀ d, dd = some d → P d) (hb : Between ws n)
    {d : RawDirent}
    (hrun : resolveLoop e (imageOf e ws) ino pino name nsize k n vmax dd = some (some d)) : P d := by
  induction k generalizing n vmax dd with
  | zero => cases hrun
  | succ k ih =>
    obtain ⟨-, -, hend⟩ := seek_between e hw hb (imageOf e ws).length (by rw [imageOf_length]; omega)
    rw [resolveLoop] at hrun
    generalize seek e (imageOf e ws) (imageOf e ws).length n = n' at hend hrun
    rcases hend with hend | ⟨m, hat⟩
    · rw [if_neg fun h => by rw [imageOf_length] at h; omega] at hrun
      exact hdd d (Option.some.inj hrun)
    · obtain ⟨-, -, hle, hlen⟩ := hw.node hat
      obtain ⟨hmagic, htype, -⟩ := imageOf_header e hat hlen
      have hst := le_stored m
      rw [if_pos ⟨by rw [imageOf_length]; omega, hmagic⟩, stepOf_node hw hat] at hrun
      split at hrun
      next hmatch =>
        have hdirent : m.nodetype = JFFS2_NODETYPE_DIRENT := by
          rw [direntMatches, decide_eq_true_eq] at hmatch
          rw [← htype]
          exact hmatch.1
        obtain ⟨x, rfl⟩ := eq_dirent_of_nodetype hdirent
        refine ih (fun y hy => ?_) (Between.next hw hat) hrun
        obtain rfl := Option.some.inj hy
        exact hP vmax n' x hat hmatch
      next => exact ih hdd (Between.next hw hat) hrun

/-- A step over an image without directory entries. -/
theorem collectAdvance_empty (hw : Worded ws []) (ino : ℕ) {s : Collect} (hb : Between ws s.n) :
    collectAdvance e (imageOf e ws) ino s = { s with n := 0 } ∨
      ∃ n', collectAdvance e (imageOf e ws) ino s = { s with n := n' } ∧ s.n+12 ≤ n' ∧
        s.n < outOfs ws ∧ Between ws n' := by
  obtain ⟨hle, -, hend⟩ := seek_between e hw hb (imageOf e ws).length (by rw [imageOf_length]; omega)
  unfold collectAdvance
  dsimp only
  generalize seek e (imageOf e ws) (imageOf e ws).length s.n = n' at hle hend
  rcases hend with hend | ⟨m, hat⟩
  · left
    rw [if_neg]
    rintro ⟨hlt, -⟩
    rw [imageOf_length] at hlt
    omega
  · right
    obtain ⟨-, -, hin, hlen⟩ := hw.node hat
    obtain ⟨hmagic, htype, -⟩ := imageOf_header e hat hlen
    have hst := le_stored m
    have hpad := le_pad4_self m.totlen
    have htot := m.le_totlen
    have hno : ¬(e.get (imageOf e ws) (n'+2) 2 = JFFS2_NODETYPE_DIRENT ∧
        e.get (imageOf e ws) (n'+12) 4 = ino ∧ s.vcur < e.get (imageOf e ws) (n'+16) 4) := by
      rintro ⟨h, -⟩
      obtain ⟨x, rfl⟩ := eq_dirent_of_nodetype (htype.symm.trans h)
      have hmem := mem_direntsOf hat
      rw [hw.dirents] at hmem
      cases hmem
    refine ⟨n'+pad4 m.totlen, ?_, by omega, by omega, Between.next hw hat⟩
    rw [if_pos ⟨by rw [imageOf_length]; omega, hmagic⟩, stepOf_node hw hat, collectNode, if_neg hno]

/-- An image without directory entries has empty directories. -/
theorem collectLoop_empty (hw : Worded ws []) (ino : ℕ) {k vmin : ℕ} {mp : Option ℕ} (hb : Between ws n)
    (hk : outOfs ws ≤ n+k) :
    collectLoop e (imageOf e ws) ino (k+1) ⟨n, 0, mp, vmin, 2^32-1, 0, 2^32-1, 0, []⟩ =
      some [] := by
  induction k generalizing n with
  | zero =>
    rcases collectAdvance_empty (e := e) (s := ⟨n, 0, mp, vmin, 2^32-1, 0, 2^32-1, 0, []⟩) hw ino hb
      with h | ⟨n', -, -, hlt, -⟩
    · rw [collectLoop, h]
      rfl
    · dsimp only at hlt
      omega
  | succ k ih =>
    rcases collectAdvance_empty (e := e) (s := ⟨n, 0, mp, vmin, 2^32-1, 0, 2^32-1, 0, []⟩) hw ino hb
      with h | ⟨n', h, hle, -, hb'⟩
    · rw [collectLoop, h]
      rfl
    · dsimp only at h hle
      have hpass : collectPass e (imageOf e ws) ⟨n', 0, mp, vmin, 2^32-1, 0, 2^32-1, 0, []⟩ =
          some ⟨n', 0, mp, vmin, 2^32-1, 0, 2^32-1, 0, []⟩ := if_neg (by dsimp only; omega)
      rw [collectLoop, h, hpass]
      exact ih hb' (by omega)

end Members

section Readable

/-- The path of an entry that is no link. -/
inductive PathTo (xs : List Listed) : List (List Byte) → ℕ → Prop
  | root : PathTo xs [] 1
  | entry {path : List (List Byte)} {x : Listed} (hx : x ∈ xs) (hlink : x.entry.iftodt ≠ DT_LNK)
      (hdir : PathTo xs path x.pino) : PathTo xs (path ++ [x.entry.name]) x.ino

def pathText (path : List (List Byte)) : List Byte :=
  if path = [] then [0x2f#8] else path.flatMap (0x2f#8 :: ·)

/-- An image is readable: the directories are listed, and names and paths are found, with the
numbers that the entries were given. A path to a link leads on to what it names. -/
structure Readable (e : Endian) (uncompress : List Byte → ℕ → List Byte) (o : List Byte)
    (xs : List Listed) : Prop where
  lists : ∀ ino, (ino = 1 ∨ ∃ x ∈ xs, x.entry.iftodt = DT_DIR ∧ x.ino = ino) →
    ∃ fuel ds, collectdir e o fuel ino [] = some ds ∧
      ds.Perm ((xs.filter (·.pino = ino)).map fun x => ⟨x.entry.iftodt, x.ino, x.entry.name⟩)
  names : ∀ x ∈ xs, ∃ fuel d, resolvename e o fuel x.pino x.entry.name = some (some d) ∧
    d.ino = x.ino
  paths : ∀ path ino, PathTo xs path ino →
    ∃ fuel dir, resolvepath e o uncompress fuel 1 (pathText path) = some (dir, ino)

variable {cfg : Config} {s : Mkfs} {ws : List Write} {root : HostEntry}

theorem readable_of_empty (e : Endian) (uncompress : List Byte → ℕ → List Byte)
    (hw : Worded ws []) : Readable e uncompress (imageOf e ws) [] where
  lists ino hino := by
    have hb : Between ws 0 := ⟨rfl, fun p m _ => .inl (Nat.zero_le p)⟩
    exact ⟨outOfs ws+1, [], collectLoop_empty hw ino hb (by omega), List.Perm.refl _⟩
  names x hx := by cases hx
  paths path ino h := by
    cases h with
    | root => exact ⟨2, none, rfl⟩
    | entry hx => cases hx

/-- The first entry is not found. -/
theorem resolvename_first (h4 : cfg.erase_block_size%4 = 0)
    (hrun : createTargetFilesystem cfg 0 root = .ok (s, ws))
    (hlen : ∀ e ∈ root.files, e.name.length ≤ 255) {x : Listed} {xs : List Listed}
    (hxs : entriesOf cfg root = x :: xs) (h1 : x.pino = 1) (hx : x.entry ∈ root.files)
    (hother : ∀ y ∈ xs, y.pino = 1 → y.entry ∈ root.files ∧ x.entry.name ≠ y.entry.name)
    (fuel : ℕ) (d : RawDirent) :
    resolvename cfg.target_endian (imageOf cfg.target_endian ws) fuel x.pino x.entry.name ≠
      some (some d) := by
  intro hfound
  obtain ⟨hw, hmany⟩ := createTargetFilesystem_worded h4 hrun
  have hnumbers := entriesOf_numbers h4 hrun
  rw [resolvename, resolvedirent, h1, if_neg (by decide)] at hfound
  refine resolveLoop_found (P := fun _ => False) hw (fun vmax p y hat hmatch => ?_)
    (fun _ h => by cases h) ⟨rfl, fun p m _ => .inl (Nat.zero_le p)⟩ hfound
  rw [direntMatches, decide_eq_true_eq] at hmatch
  obtain ⟨-, -, hver, h0 | ⟨hpino, hnsize, hname⟩⟩ := hmatch
  · exact absurd h0 (by decide)
  obtain ⟨hp, hv, hl, rest, hrest⟩ := imageOf_dirent cfg.target_endian hat
  have hmem := mem_direntsOf hat
  rw [hw.dirents] at hmem
  obtain ⟨k, z, hk, rfl⟩ := mem_numbered hmem
  have hz := List.mem_of_getElem? hk
  have hrange := (List.getElem?_eq_some_iff.mp hk).1
  have hzpino : z.pino = 1 := by
    have hlt := (hnumbers z hz).2.2
    rw [hp] at hpino
    change z.pino%2^32 = 1 at hpino
    rwa [Nat.mod_eq_of_lt hlt] at hpino
  -- only the first entry has version 0
  have hpos : k ≠ 0 := by
    rintro rfl
    rw [hv] at hver
    exact absurd hver (Nat.not_lt_zero _)
  rw [hxs] at hk
  obtain ⟨j, rfl⟩ := Nat.exists_eq_succ_of_ne_zero hpos
  obtain ⟨hzmem, hne⟩ := hother z (List.mem_of_getElem? hk) hzpino
  have hxlen := hlen _ hx
  have hzlen := hlen _ hzmem
  change _ = z.entry.name.length%256 at hl
  change _ = z.entry.name ++ rest at hrest
  rw [hl, Nat.mod_eq_of_lt (by omega), Nat.mod_eq_of_lt (by omega)] at hnsize
  rw [hrest, Nat.mod_eq_of_lt (by omega), List.take_length, hnsize, List.take_left] at hname
  exact hne hname

/-- The reader reads an image of `mkfs.jffs2` just when there is no directory entry in it. -/
theorem readable_iff (cfg : Config) (uncompress : List Byte → ℕ → List Byte) (root : HostEntry)
    (s : Mkfs) (ws : List Write) (h4 : cfg.erase_block_size%4 = 0)
    (hnames : root.files.Pairwise fun e e' => e.name ≠ e'.name)
    (hlen : ∀ e ∈ root.files, e.name.length ≤ 255)
    (hrun : createTargetFilesystem cfg 0 root = .ok (s, ws)) :
    Readable cfg.target_endian uncompress (imageOf cfg.target_endian ws) (entriesOf cfg root) ↔
      ∀ e ∈ root.files, e.Skipped := by
  constructor
  · intro hread e he
    by_contra hkept
    obtain ⟨x, xs, hxs, h1, hx, hother⟩ := entriesOf_eq_cons h4 hrun hnames ⟨e, he, hkept⟩
    have hmem : x ∈ entriesOf cfg root := by
      rw [hxs]
      exact List.mem_cons_self
    obtain ⟨fuel, d, hfound, -⟩ := hread.names x hmem
    exact resolvename_first h4 hrun hlen hxs h1 hx hother fuel d hfound
  · intro hskip
    have hw := (createTargetFilesystem_worded h4 hrun).1
    rw [entriesOf_eq_nil h4 hskip] at hw ⊢
    exact readable_of_empty cfg.target_endian uncompress hw

/-- A directory with two files, both too large for `mkfs.jffs2`. -/
def largeRoot : HostEntry :=
  .mk [] ⟨1, 2, 0x41ed, 0, 0, 0, 0, 0, 0⟩ [] [] []
    [.mk [0x66#8] ⟨1, 3, 0x81a4, 0, 0, 0xFFFFFFFF, 0, 0, 0⟩ [] [[1#8]] [] [],
      .mk [0x67#8] ⟨1, 4, 0x81a4, 0, 0, 2^32, 0, 0, 0⟩ [] [[2#8]] [] []]

theorem readable_iff_skipped : largeRoot.files ≠ [] ∧ (∀ e ∈ largeRoot.files, e.Skipped) ∧
    ∃ s ws, createTargetFilesystem smallBlocks 0 largeRoot = .ok (s, ws) ∧
      Readable .little (fun _ _ => []) (imageOf .little ws) (entriesOf smallBlocks largeRoot) := by
  have hskip : ∀ e ∈ largeRoot.files, e.Skipped := by
    intro e he
    simp only [largeRoot, HostEntry.files, List.mem_cons, List.not_mem_nil, or_false] at he
    rcases he with rfl | rfl
    · exact ⟨by decide, by decide, by decide, by decide⟩
    · exact ⟨by decide, by decide, by decide, by decide⟩
  have hnames : largeRoot.files.Pairwise fun e e' => e.name ≠ e'.name :=
    List.pairwise_cons.mpr ⟨fun e he => by
      rw [List.mem_singleton.mp he]
      decide, List.pairwise_singleton _ _⟩
  have hlen : ∀ e ∈ largeRoot.files, e.name.length ≤ 255 := by
    intro e he
    simp only [largeRoot, HostEntry.files, List.mem_cons, List.not_mem_nil, or_false] at he
    rcases he with rfl | rfl <;> decide
  have hrun : createTargetFilesystem smallBlocks 0 largeRoot = .ok (_, _) := rfl
  exact ⟨List.cons_ne_nil _ _, hskip, _, _, hrun,
    (readable_iff smallBlocks _ _ _ _ rfl hnames hlen hrun).mpr hskip⟩

/-- The only file of an image is not found. -/
theorem readable_misses_first : ∃ s ws,
    createTargetFilesystem smallBlocks 0 smallRoot = .ok (s, ws) ∧
      ¬Readable .little (fun _ _ => []) (imageOf .little ws) (entriesOf smallBlocks smallRoot) := by
  have hrun : createTargetFilesystem smallBlocks 0 smallRoot = .ok (_, _) := rfl
  have hnames : smallRoot.files.Pairwise fun e e' => e.name ≠ e'.name := List.pairwise_singleton _ _
  have hlen : ∀ e ∈ smallRoot.files, e.name.length ≤ 255 := by
    intro e he
    obtain rfl := List.mem_singleton.mp he
    decide
  have hkept : ∃ e ∈ smallRoot.files, ¬e.Skipped := by
    refine ⟨_, List.mem_singleton_self _, fun h => ?_⟩
    exact absurd h.2.2.2 (by decide)
  obtain ⟨x, xs, hxs, h1, hx, hother⟩ := entriesOf_eq_cons rfl hrun hnames hkept
  refine ⟨_, _, hrun, fun hread => ?_⟩
  have hmem : x ∈ entriesOf smallBlocks smallRoot := by
    rw [hxs]
    exact List.mem_cons_self
  obtain ⟨fuel, d, hfound, -⟩ := hread.names x hmem
  exact resolvename_first rfl hrun hlen hxs h1 hx hother fuel d hfound

end Readable

end ChipTools.Jffs2
