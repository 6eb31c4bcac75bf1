import ChipTools.CNumber
import Mathlib.Data.List.GetD
import Mathlib.Data.List.Infix
import Mathlib.Data.List.Nodup
import Mathlib.Data.List.TakeWhile

/-! The device tables of `mkfs.ubifs`, `mkfs.jffs2` and `makedevs`. Each of them reads a line of the
one format with a parser of its own; what a line makes is compared. -/
namespace ChipTools.DevTable
open Bytes CNumber

def S_IFMT : ℕ := 0o170000
def S_IFDIR : ℕ := 0o040000
def S_IFREG : ℕ := 0o100000
def S_IFIFO : ℕ := 0o010000
def S_IFCHR : ℕ := 0o020000
def S_IFBLK : ℕ := 0o060000
def S_IFLNK : ℕ := 0o120000

def slash : Byte := 0x2f#8

/-- A file with the attributes that a table can set. -/
structure Entry where
  path : List Byte
  mode : ℕ
  uid : ℕ
  gid : ℕ
  major : ℕ
  minor : ℕ
deriving DecidableEq, Repr

def find (t : List Entry) (path : List Byte) : Option Entry := t.find? (·.path = path)

def Entry.type (e : Entry) : ℕ := e.mode &&& S_IFMT

def Entry.perm (e : Entry) : ℕ := e.mode &&& 0o7777

/-- `%d`, `%u` and `%lu` of `printf`. -/
def decimal (n : ℤ) : List Byte := literal (toString n)

section Scan

/-- `%s` of `sscanf` with a width: the token and the input behind it. -/
def scanString (width : ℕ) (s : List Byte) : Option (List Byte × List Byte) :=
  let s := s.dropWhile isSpace
  let token := (s.takeWhile (!isSpace ·)).take width
  if token = [] then none else some (token, s.drop token.length)

/-- `%c` after a blank of the format. -/
def scanChar (s : List Byte) : Option (Byte × List Byte) :=
  match s.dropWhile isSpace with
  | [] => none
  | b :: rest => some (b, rest)

def magnitude (base : ℕ) (digits : List Byte) : ℕ :=
  digits.foldl (fun v b => v*base+digitVal b) 0

/-- The `unsigned long` of a number, as `strtoul` stores it. -/
def toULong (neg : Bool) (m : ℕ) : ℕ :=
  if 2^64 ≤ m then 2^64-1 else if neg then (2^64-m)%2^64 else m

def scanSign (s : List Byte) : Bool × List Byte :=
  match s with
  | 0x2d#8 :: rest => (true, rest)
  | 0x2b#8 :: rest => (false, rest)
  | _ => (false, s)

/-- `%o`, `%u` and their long forms, before the value is cut to the type of the argument. -/
def scanNumber (base : ℕ) (s : List Byte) : Option (ℕ × List Byte) :=
  let (neg, s) := scanSign (s.dropWhile isSpace)
  let digits := s.takeWhile (isDigit base)
  if digits = [] then none
  else some (toULong neg (magnitude base digits), s.dropWhile (isDigit base))

/-- A row of `%u`, up to the first that does not match. -/
def scanNumbers : ℕ → List Byte → List ℕ
  | 0, _ => []
  | k+1, s =>
    match scanNumber 10 s with
    | none => []
    | some (v, rest) => v :: scanNumbers k rest

/-- The first three fields. Behind one that does not match there is nothing. -/
structure Head where
  name : List Byte
  type : Option Byte
  mode : Option ℕ
  rest : List Byte

def scanHead (width : ℕ) (line : List Byte) : Option Head :=
  match scanString width line with
  | none => none
  | some (name, s) =>
    match scanChar s with
    | none => some ⟨name, none, none, []⟩
    | some (type, s) =>
      match scanNumber 8 s with
      | none => some ⟨name, some type, none, []⟩
      | some (mode, s) => some ⟨name, some type, some mode, s⟩

/-- The numbers of a line. -/
structure Fields where
  mode : ℕ
  uid : ℕ
  gid : ℕ
  major : ℕ
  minor : ℕ
  start : ℕ
  increment : ℕ
  count : ℕ
deriving DecidableEq, Repr

end Scan

/-- What a line has done: the files it has made or set, and the table or tree afterwards. -/
structure Outcome where
  made : List Entry
  state : List Entry
deriving DecidableEq, Repr

namespace Ubifs

inductive Err
  | sscanf
  | absolutePath
  | rootDirectory
  | doubleSlash
  | slashAtEnd
  | dots
  | unsupportedType
  | countZero
  | referredTwice
deriving DecidableEq, Repr

def Err.msg : Err → String
  | .sscanf => "sscanf failed"
  | .absolutePath => "device table entries require absolute paths"
  | .rootDirectory => "root directory cannot be created"
  | .doubleSlash => "'//' cannot be used in the path"
  | .slashAtEnd => "do not put '/' at the end"
  | .dots => "'.' and '..' cannot be used in the path"
  | .unsupportedType => "unsupported file type '%c'"
  | .countZero => "count cannot be zero if increment is non-zero"
  | .referredTwice => "'%s' is referred twice"

def fields (h : Head) : Fields :=
  let n := scanNumbers 7 h.rest
  { mode := h.mode.getD 0o755%2^32
    uid := n.getD 0 0%2^32
    gid := n.getD 1 0%2^32
    major := n.getD 2 0%2^32
    minor := n.getD 3 0%2^32
    start := n.getD 4 0%2^32
    increment := n.getD 5 0%2^32
    count := n.getD 6 0%2^32 }

def checkPath (buf : List Byte) : Except Err Unit :=
  if buf = literal "/" then .error .absolutePath
  else if buf.length ≤ 1 then .error .rootDirectory
  else if literal "//" <:+: buf then .error .doubleSlash
  else if literal "/" <:+ buf then .error .slashAtEnd
  else if literal "/./" <:+: buf ∨ literal "/../" <:+: buf ∨
      literal "/." <:+ buf ∨ literal "/.." <:+ buf then .error .dots
  else .ok ()

/-- A line with no type field has whatever stands in `type`; it is taken as unsupported. -/
def typeBits (type : Option Byte) : Except Err ℕ :=
  if type = some 0x64#8 then .ok S_IFDIR
  else if type = some 0x66#8 then .ok S_IFREG
  else if type = some 0x70#8 then .ok S_IFIFO
  else if type = some 0x63#8 then .ok S_IFCHR
  else if type = some 0x62#8 then .ok S_IFBLK
  else .error .unsupportedType

/-- The directory and the last component. -/
def separateLast (buf : List Byte) : List Byte × List Byte :=
  let name := (buf.reverse.takeWhile (· ≠ slash)).reverse
  let path_len := buf.length-name.length
  (buf.take (if 1 < path_len then path_len-1 else path_len), name)

/-- The full name of an element of the two levels of hash tables. -/
def fullName (path name : List Byte) : List Byte :=
  if path = [slash] then path ++ name else path ++ slash :: name

/-- `hashtable_search` and `hashtable_insert`. -/
def insert (tbl : List Entry) (made : List Entry) (e : Entry) : Except Err (List Entry) :=
  if (find (tbl ++ made) e.path).isSome then .error .referredTwice else .ok (made ++ [e])

/-- The name elements of a line. The counter is an `int`, the rest is unsigned. -/
def elements (f : Fields) (mode : ℕ) (path name : List Byte) : List Entry :=
  if f.count = 0 then [⟨fullName path name, mode, f.uid, f.gid, f.major, f.minor⟩]
  else
    let i₀ := toInt32 f.start
    let num := toInt32 (f.start+f.count)
    (List.range (num-i₀).toNat).map fun (k : ℕ) =>
      let i := i₀+(k : ℤ)
      ⟨fullName path (name ++ decimal i), mode, f.uid, f.gid, f.major,
        (f.minor+((i-f.start)%2^32).toNat*f.increment)%2^32⟩

def interpretTableEntry (tbl : List Entry) (line : List Byte) : Except Err Outcome := do
  match scanHead 1023 line with
  | none => .error .sscanf
  | some h =>
    let f := fields h
    checkPath h.name
    let bits ← typeBits h.type
    let (path, name) := separateLast h.name
    if f.increment ≠ 0 ∧ f.count = 0 then .error .countZero
    else
      let made ← (elements f (f.mode ||| bits) path name).foldlM (insert tbl) []
      .ok ⟨made, tbl ++ made⟩

end Ubifs

namespace Jffs2

inductive Die
  | absolutePath
  | unsupportedType
  | typeMismatch
  | doesNotExist
deriving DecidableEq, Repr

def Die.msg : Die → String
  | .absolutePath => "Device table entries require absolute paths"
  | .unsupportedType => "Unsupported file type '%c'"
  | .typeMismatch => "%s: file type does not match specified type!"
  | .doesNotExist => "%s: does not exist!"

def fields (h : Head) : Fields :=
  let n := scanNumbers 7 h.rest
  { mode := h.mode.getD 0o755
    uid := n.getD 0 0
    gid := n.getD 1 0
    major := n.getD 2 0
    minor := n.getD 3 0
    start := n.getD 4 0
    increment := n.getD 5 1
    count := n.getD 6 0 }

def typeBits (type : Option Byte) : Except Die ℕ :=
  if type = some 0x64#8 then .ok S_IFDIR
  else if type = some 0x66#8 then .ok S_IFREG
  else if type = some 0x70#8 then .ok S_IFIFO
  else if type = some 0x63#8 then .ok S_IFCHR
  else if type = some 0x62#8 then .ok S_IFBLK
  else if type = some 0x6c#8 then .ok S_IFLNK
  else .error .unsupportedType

/-- `dirname` of a path that does not end with a slash. -/
def dirname (path : List Byte) : List Byte :=
  let dir := (path.reverse.dropWhile (· ≠ slash)).tail.reverse
  if dir = [] then [slash] else dir

def makedev (major minor : ℕ) : ℕ × ℕ := (major%2^32, minor%2^32)

/-- The check and the new entry of `add_host_filesystem_entry`, with the squashing turned off as
`parse_device_table` has it. -/
def addHostFilesystemEntry (host : List Entry) (name : List Byte) (uid gid mode : ℕ)
    (rdev : ℕ × ℕ) : Except Die Entry :=
  match find host name with
  | some sb =>
    if mode &&& S_IFMT ≠ sb.type then .error .typeMismatch
    else .ok ⟨name, mode%2^32, uid%2^32, gid%2^32, rdev.1, rdev.2⟩
  | none =>
    if mode &&& S_IFMT = S_IFREG then .error .doesNotExist
    else .ok ⟨name, mode%2^32, uid%2^32, gid%2^32, rdev.1, rdev.2⟩

/-- The attributes of an entry that is in the tree already. -/
def fixup (f : Fields) (mode : ℕ) (entry : Entry) : Entry :=
  let e := { entry with uid := f.uid%2^32, gid := f.gid%2^32, mode := mode%2^32 }
  if f.major ≠ 0 ∧ f.minor ≠ 0 then
    { e with major := (makedev f.major f.minor).1, minor := (makedev f.major f.minor).2 }
  else e

/-- The names that a line adds, with their device numbers: a count is for devices only. -/
def newNames (f : Fields) (bits : ℕ) (name : List Byte) : List (List Byte × (ℕ × ℕ)) :=
  if bits = S_IFCHR ∨ bits = S_IFBLK then
    if 0 < f.count then
      let last := (f.start+f.count)%2^64
      (List.range (last-f.start)).map fun k =>
        let i := f.start+k
        (name ++ decimal i, makedev f.major (f.minor+(i-f.start)*f.increment))
    else [(name, makedev f.major f.minor)]
  else [(name, (0, 0))]

/-- `host` is what `lstat` sees under the root directory, `root` the tree in memory as the list of
its entries. The flag is the status of a line that is skipped. -/
def interpretTableEntry (host root : List Entry) (line : List Byte) :
    Except Die (Bool × Outcome) := do
  match scanHead line.length line with
  | none => .ok (true, ⟨[], root⟩)
  | some h =>
    let f := fields h
    if h.name = literal "/" then .error .absolutePath
    else
      let bits ← typeBits h.type
      let mode := f.mode ||| bits
      match (if 0 < f.count ∧ (bits = S_IFCHR ∨ bits = S_IFBLK) then none
          else find root h.name) with
      | some entry =>
        let e := fixup f mode entry
        .ok (false, ⟨[e], root.modify (root.findIdx (·.path = h.name)) (fun _ => e)⟩)
      | none =>
        if (find root (dirname h.name)).isNone then .ok (true, ⟨[], root⟩)
        else if bits = S_IFLNK then .error .unsupportedType
        else
          let made ← (newNames f bits h.name).mapM fun p =>
            addHostFilesystemEntry host p.1 f.uid f.gid mode p.2
          .ok (false, ⟨made, root ++ made⟩)

end Jffs2
namespace Makedevs

/-- The process and its user database. `user` and `group` are what the two buffers of `main` hold
before a line is read. -/
structure Env where
  getpwnam : List Byte → Option ℕ
  getgrnam : List Byte → Option ℕ
  getuid : ℕ
  getgid : ℕ
  user : List Byte
  group : List Byte

inductive Die
  | unknownUser (name : List Byte)
  | unknownGroup (name : List Byte)
deriving DecidableEq, Repr

section Host

variable (env : Env) (host : List Entry) (path : List Byte)

def isDir : Bool := (find host path).any (·.type = S_IFDIR)

def setAttr (f : Entry → Entry) : Option (List Entry) :=
  if (find host path).isNone then none
  else some (host.modify (host.findIdx (·.path = path)) f)

/-- `chown`, which leaves an owner of -1 as it is. -/
def chown (uid gid : ℕ) : Option (List Entry) :=
  setAttr host path fun e => { e with
    uid := if uid = 2^32-1 then e.uid else uid
    gid := if gid = 2^32-1 then e.gid else gid }

def chmod (mode : ℕ) : Option (List Entry) :=
  setAttr host path fun e => { e with mode := e.type ||| (mode &&& 0o7777) }

/-- A new file of the process; nothing may stand at the path, and its directory must be there. -/
def create (mode : ℕ) (rdev : ℕ × ℕ) : Option (List Entry) :=
  if (find host path).isSome ∨ ¬isDir host (Jffs2.dirname path) then none
  else some (host ++ [⟨path, mode, env.getuid, env.getgid, rdev.1, rdev.2⟩])

def mkdir : Option (List Entry) := create env host path (S_IFDIR ||| 0o777) (0, 0)

/-- The device number of a node: a fifo has none. -/
def nodeDev (mode : ℕ) (rdev : ℕ × ℕ) : ℕ × ℕ :=
  if mode &&& S_IFMT = S_IFCHR ∨ mode &&& S_IFMT = S_IFBLK then rdev else (0, 0)

/-- `mknod` of Linux, where device numbers have 12 and 20 bits. -/
def mknod (mode : ℕ) (rdev : ℕ × ℕ) : Option (List Entry) :=
  if rdev.1 < 2^12 ∧ rdev.2 < 2^20 then
    create env host path (mode &&& 0o177777) (nodeDev mode rdev)
  else none

/-- The directories above a path, without the root. -/
def parents : List (List Byte) :=
  (List.range path.length).filterMap fun i =>
    if 0 < i ∧ path[i]? = some slash then some (path.take i) else none

/-- A directory on the way of `bb_make_directory`: made, or there already. -/
def makeParent (s : List Entry × Bool) (q : List Byte) : List Entry × Bool :=
  if !s.2 then s
  else match mkdir env s.1 q with
    | some host => (host, true)
    | none => (s.1, isDir s.1 q)

/-- The permissions are those of the line for a new directory only. -/
def bbMakeDirectory (mode : ℕ) : List Entry :=
  let s := (parents path).foldl (makeParent env) (host, true)
  if !s.2 then s.1
  else match mkdir env s.1 path with
    | some host => (chmod host path mode).getD host
    | none => s.1

/-- A call of the list of a line that may fail: it is reported, and the next one is made. -/
def attempt (s : List Entry × Bool) (call : Option (List Entry)) : List Entry × Bool :=
  match call with
  | some host => (host, s.2)
  | none => (s.1, true)

/-- `mknod`, `chown` after it, and `chmod` in any case. -/
def makeNode (mode uid gid : ℕ) (rdev : ℕ × ℕ) (s : List Entry × Bool) (path : List Byte) :
    List Entry × Bool :=
  let s := match mknod env s.1 path mode rdev with
    | some host => attempt (host, s.2) (chown host path uid gid)
    | none => (s.1, true)
  if mode = 2^32-1 then s else attempt s (chmod s.1 path mode)

/-- `chown` and `chmod` of a directory or a regular file; the first that fails ends the line. -/
def setOwnerMode (mode uid gid : ℕ) : List Entry × Bool :=
  match chown host path uid gid with
  | none => (host, true)
  | some host => if mode = 2^32-1 then (host, false) else attempt (host, false) (chmod host path mode)

end Host

/-- `get_ug_id`: a number, or else a name. -/
def getUgId (getnam : List Byte → Option ℕ) (s : List Byte) : Option ℕ :=
  let (neg, t) := scanSign (s.dropWhile isSpace)
  let digits := t.takeWhile (isDigit 10)
  if digits = [] ∨ t.dropWhile (isDigit 10) ≠ [] then getnam s
  else some (toULong neg (magnitude 10 digits))

/-- The two names and the numbers behind them. -/
def scanTail (env : Env) (rest : List Byte) : List Byte × List Byte × List ℕ :=
  match scanString 40 rest with
  | none => (env.user, env.group, [])
  | some (user, s) =>
    match scanString 40 s with
    | none => (user, env.group, [])
    | some (group, s) => (user, group, scanNumbers 5 s)

def ident (own : ℕ) (getnam : List Byte → Option ℕ) (s : List Byte) : Option ℕ :=
  if s = [] then some own else (getUgId getnam s).map (·%2^32)

/-- `concat_path_file`: the path under the root directory. -/
def concatPathFile (name : List Byte) : List Byte := slash :: name.dropWhile (· = slash)

def fields (mode uid gid : ℕ) (n : List ℕ) : Fields :=
  { mode := mode%2^32
    uid := uid
    gid := gid
    major := n.getD 0 0%2^32
    minor := n.getD 1 0%2^32
    start := n.getD 2 0%2^32
    increment := n.getD 3 0%2^32
    count := n.getD 4 0%2^32 }

def Fields.inRange (f : Fields) : Prop :=
  f.major ||| f.minor ||| f.start ||| f.count ||| f.increment ≤ 0xfffff

instance (f : Fields) : Decidable (Fields.inRange f) := inferInstanceAs (Decidable (_ ≤ _))

/-- The files that stand at the paths of a line when it is done, and the flag of a failure. -/
def outcome (paths : List (List Byte)) (s : List Entry × Bool) : Bool × Outcome :=
  (s.2, ⟨paths.filterMap (find s.1), s.1⟩)

/-- The nodes of a line, all at once with a count. -/
def makeNodes (env : Env) (host : List Entry) (path : List Byte) (f : Fields) (mode : ℕ) :
    Bool × Outcome :=
  if 0 < f.count then
    let name (i : ℕ) := path ++ decimal (toInt32 (f.start+i : ℕ))
    outcome ((List.range f.count).map name) ((List.range f.count).foldl (fun s i =>
      makeNode env mode f.uid f.gid (Jffs2.makedev f.major (f.minor+i*f.increment)) s (name i))
      (host, false))
  else outcome [path]
    (makeNode env mode f.uid f.gid (Jffs2.makedev f.major f.minor) (host, false) path)

/-- The part of `main` behind the checks. -/
def makeFiles (env : Env) (host : List Entry) (path : List Byte) (type : Byte) (f : Fields) :
    Bool × Outcome :=
  if type = 0x64#8 then
    outcome [path]
      (setOwnerMode (bbMakeDirectory env host path (f.mode ||| S_IFDIR)) path f.mode f.uid f.gid)
  else if type = 0x66#8 then
    if (find host path).all (·.type ≠ S_IFREG) then (true, ⟨[], host⟩)
    else outcome [path] (setOwnerMode host path f.mode f.uid f.gid)
  else if type = 0x72#8 then
    let paths := (host.filter fun e => e.path = path ∨ path ++ [slash] <+: e.path).map (·.path)
    if paths = [] then (true, ⟨[], host⟩)
    else outcome paths
      (paths.foldl (fun s q => setOwnerMode s.1 q f.mode f.uid f.gid) (host, false))
  else if type = 0x70#8 then makeNodes env host path f (f.mode ||| S_IFIFO)
  else if type = 0x63#8 then makeNodes env host path f (f.mode ||| S_IFCHR)
  else if type = 0x62#8 then makeNodes env host path f (f.mode ||| S_IFBLK)
  else (true, ⟨[], host⟩)

/-- A line that does not parse: an error, unless it is a comment or starts with a blank. -/
def invalid (host : List Entry) (line : List Byte) : Bool × Outcome :=
  (line.head?.any fun b => b ≠ 0x23#8 && !isSpace b, ⟨[], host⟩)

/-- A line of the loop of `main`. -/
def interpretLine (env : Env) (host : List Entry) (line : List Byte) :
    Except Die (Bool × Outcome) :=
  match scanHead 4095 line with
  | some ⟨name, some type, mode, rest⟩ =>
    let (user, group, n) := scanTail env rest
    let f := fields (mode.getD 0o755) 0 0 n
    if ¬Fields.inRange f then .ok (invalid host line)
    else if name.head? = some 0x23#8 then .ok (false, ⟨[], host⟩)
    else
      match ident env.getgid env.getgrnam group with
      | none => .error (.unknownGroup group)
      | some gid =>
        match ident env.getuid env.getpwnam user with
        | none => .error (.unknownUser user)
        | some uid =>
          .ok (makeFiles env host (concatPathFile name) type { f with uid := uid, gid := gid })
  | _ => .ok (invalid host line)

end Makedevs

/-- What a file of a table is compared by: its path, type, permissions, owner and device
numbers. -/
structure View where
  path : List Byte
  type : ℕ
  perm : ℕ
  uid : ℕ
  gid : ℕ
  major : ℕ
  minor : ℕ
deriving DecidableEq, Repr

def Entry.view (e : Entry) : View := ⟨e.path, e.type, e.perm, e.uid, e.gid, e.major, e.minor⟩

/-- The fields of a line in the format of the tables, with the user and the group as numbers. -/
structure Line where
  path : List Byte
  type : Byte
  mode : ℕ
  user : List Byte
  group : List Byte
  numbers : List ℕ

namespace Line

variable (l : Line)

/-- The `uid_t` and the `gid_t`. -/
def uid : ℕ := toULong false (magnitude 10 l.user)%2^32
def gid : ℕ := toULong false (magnitude 10 l.group)%2^32
def major : ℕ := l.numbers.getD 0 0
def minor : ℕ := l.numbers.getD 1 0
def start : ℕ := l.numbers.getD 2 0
def increment : ℕ := l.numbers.getD 3 0
def count : ℕ := l.numbers.getD 4 0

/-- The numbers behind the group are in the range of `makedevs`. -/
def InRange : Prop :=
  l.major ≤ 0xfffff ∧ l.minor ≤ 0xfffff ∧ l.start ≤ 0xfffff ∧ l.increment ≤ 0xfffff ∧
    l.count ≤ 0xfffff

def isDevice : Prop := l.type = 0x63#8 ∨ l.type = 0x62#8

instance : Decidable l.isDevice := inferInstanceAs (Decidable (_ ∨ _))

def bits : ℕ :=
  if l.type = 0x64#8 then S_IFDIR
  else if l.type = 0x66#8 then S_IFREG
  else if l.type = 0x70#8 then S_IFIFO
  else if l.type = 0x63#8 then S_IFCHR
  else S_IFBLK

/-- One file of the line. -/
def file (path : List Byte) (minor : ℕ) : View :=
  ⟨path, l.bits, l.mode &&& 0o7777, l.uid, l.gid, l.major, minor%2^32⟩

/-- What the line stands for: the file itself, or `count` of them with numbers at the end of the
name and minor numbers from `minor` on. -/
def expand : List View :=
  if l.count = 0 then [l.file l.path l.minor]
  else (List.range l.count).map fun k =>
    l.file (l.path ++ decimal (l.start+k : ℕ)) (l.minor+k*l.increment)

/-- The file itself without a device number. -/
def plain : View := ⟨l.path, l.bits, l.mode &&& 0o7777, l.uid, l.gid, 0, 0⟩

/-- What `mkfs.jffs2` makes: a count is for devices only. A file that is there takes the two numbers
if neither is 0. -/
def jffs2Files (root : List Entry) : List View :=
  if l.isDevice then l.expand
  else if (find root l.path).isSome ∧ l.major ≠ 0 ∧ l.minor ≠ 0 then
    [{ l.plain with major := l.major, minor := l.minor }]
  else [l.plain]

/-- What `makedevs` makes: a count is for devices and fifos. -/
def makedevsFiles : List View :=
  if l.type = 0x64#8 ∨ l.type = 0x66#8 then [l.plain]
  else if l.type = 0x70#8 then l.expand.map fun v => { v with major := 0, minor := 0 }
  else l.expand

/-- The host takes the device numbers that `makedevs` gives it. -/
def Hosted : Prop :=
  l.type ≠ 0x66#8 → l.type ≠ 0x64#8 → ∀ v ∈ l.expand, v.major < 2^12 ∧ v.minor < 2^20

end Line

/-- A whole token, however long. -/
def token (s : List Byte) : Option (List Byte × List Byte) := scanString s.length s

/-- The text of a line: its fields in their order, whatever the blanks between them are. -/
inductive Reads (line : List Byte) (l : Line) : Prop
  | mk (s₁ s₂ s₃ s₄ s₅ : List Byte)
    (path : token line = some (l.path, s₁))
    (type : scanChar s₁ = some (l.type, s₂))
    (mode : scanNumber 8 s₂ = some (l.mode, s₃))
    (user : token s₃ = some (l.user, s₄))
    (group : token s₄ = some (l.group, s₅))
    (numbers : scanNumbers 5 s₅ = l.numbers)

section Scan

theorem token_eq {s t r : List Byte} (h : token s = some (t, r)) :
    s.dropWhile isSpace = t ++ r ∧ t ≠ [] ∧ (∀ b ∈ t, isSpace b = false) ∧
      (∀ b ∈ r.head?, isSpace b = true) := by
  unfold token scanString at h
  dsimp only at h
  split at h
  · cases h
  next hne =>
  have htake : ((s.dropWhile isSpace).takeWhile (!isSpace ·)).take s.length =
      (s.dropWhile isSpace).takeWhile (!isSpace ·) := by
    apply List.take_of_length_le
    exact ((List.takeWhile_prefix _).length_le).trans (List.dropWhile_suffix _).length_le
  rw [htake] at h hne
  obtain ⟨rfl, hr⟩ := Prod.mk.injEq .. ▸ Option.some.inj h
  have hd : (s.dropWhile isSpace).drop ((s.dropWhile isSpace).takeWhile (!isSpace ·)).length =
      (s.dropWhile isSpace).dropWhile (!isSpace ·) := by
    conv_lhs => arg 2; rw [← List.takeWhile_append_dropWhile (p := (!isSpace ·))
      (l := s.dropWhile isSpace)]
    rw [List.drop_left]
  rw [hd] at hr
  subst hr
  refine ⟨List.takeWhile_append_dropWhile.symm, hne, ?_, ?_⟩
  · intro b hb
    have := List.mem_takeWhile_imp hb
    simpa using this
  · intro b hb
    have := List.head?_dropWhile_not (p := (!isSpace ·)) (l := s.dropWhile isSpace)
    rw [Option.mem_def] at hb
    rw [hb] at this
    simpa using this

theorem scanString_of_token {s t r : List Byte} (h : token s = some (t, r)) {width : ℕ}
    (hw : t.length ≤ width) : scanString width s = some (t, r) := by
  obtain ⟨hs, hne, ht, hr⟩ := token_eq h
  have htw : (t ++ r).takeWhile (!isSpace ·) = t := by
    rw [List.takeWhile_append_of_pos (by simpa using ht)]
    cases r with
    | nil => simp
    | cons b r => simp [hr b rfl]
  unfold scanString
  dsimp only
  rw [hs, htw, List.take_of_length_le hw, if_neg hne, List.drop_left]

theorem isDigit_plain {b : Byte} (h : isDigit 10 b = true) :
    isSpace b = false ∧ b ≠ 0x2d#8 ∧ b ≠ 0x2b#8 := by
  revert b
  decide +kernel

theorem scanSign_digit {b : Byte} (h : isDigit 10 b = true) (s : List Byte) :
    scanSign (b :: s) = (false, b :: s) := by
  obtain ⟨h1, h2⟩ := (isDigit_plain h).2
  unfold scanSign
  split
  · next heq => exact absurd (List.cons.inj heq).1 h1
  · next heq => exact absurd (List.cons.inj heq).1 h2
  · rfl

theorem takeWhile_digits {t r : List Byte} (ht : ∀ b ∈ t, isDigit 10 b = true)
    (hr : ∀ b ∈ r.head?, isSpace b = true) :
    (t ++ r).takeWhile (isDigit 10) = t ∧ (t ++ r).dropWhile (isDigit 10) = r := by
  rw [List.takeWhile_append_of_pos ht, List.dropWhile_append_of_pos ht]
  cases r with
  | nil => simp
  | cons b r =>
    have hb : isDigit 10 b = false := by
      by_contra hc
      have := (isDigit_plain (Bool.of_not_eq_false hc)).1
      rw [hr b rfl] at this
      cases this
    simp [hb]

/-- A token of digits is read as a number just as well. -/
theorem scanNumber_of_token {s t r : List Byte} (h : token s = some (t, r))
    (hd : ∀ b ∈ t, isDigit 10 b = true) :
    scanNumber 10 s = some (toULong false (magnitude 10 t), r) := by
  obtain ⟨hs, hne, -, hr⟩ := token_eq h
  obtain ⟨h1, h2⟩ := takeWhile_digits hd hr
  obtain ⟨b, t', rfl⟩ := List.exists_cons_of_ne_nil hne
  unfold scanNumber
  rw [hs, List.cons_append, scanSign_digit (hd b (by simp)), ← List.cons_append]
  dsimp only
  rw [h1, h2, if_neg hne]

theorem getUgId_digits {t : List Byte} (hne : t ≠ []) (hd : ∀ b ∈ t, isDigit 10 b = true)
    (getnam : List Byte → Option ℕ) :
    Makedevs.getUgId getnam t = some (toULong false (magnitude 10 t)) := by
  obtain ⟨h1, h2⟩ := takeWhile_digits (r := []) hd (by simp)
  rw [List.append_nil] at h1 h2
  obtain ⟨b, t', rfl⟩ := List.exists_cons_of_ne_nil hne
  have hb := hd b (by simp)
  unfold Makedevs.getUgId
  rw [List.dropWhile_cons_of_neg (by simp [(isDigit_plain hb).1]), scanSign_digit hb]
  dsimp only
  rw [h1, h2, if_neg (by simp)]

end Scan

section Mode

theorem mod_and (m : ℕ) {c : ℕ} (hc : (2^32-1) &&& c = c) : m%2^32 &&& c = m &&& c := by
  rw [← Nat.and_two_pow_sub_one_eq_mod, Nat.and_assoc, hc]

theorem Line.bits_cases (l : Line) : l.bits ∈ [S_IFDIR, S_IFREG, S_IFIFO, S_IFCHR, S_IFBLK] := by
  unfold Line.bits
  repeat' split
  all_goals simp

theorem Line.bits_type (l : Line) : l.bits &&& S_IFMT = l.bits ∧ l.bits &&& 0o7777 = 0 ∧
    l.bits &&& 0o177777 = l.bits := by
  have h : ∀ b ∈ [S_IFDIR, S_IFREG, S_IFIFO, S_IFCHR, S_IFBLK],
      b &&& S_IFMT = b ∧ b &&& 0o7777 = 0 ∧ b &&& 0o177777 = b := by decide
  exact h _ l.bits_cases

/-- The type and the permissions of the mode that a line gives. -/
theorem mode_or_bits {l : Line} (hm : l.mode &&& S_IFMT = 0) :
    (l.mode ||| l.bits) &&& S_IFMT = l.bits ∧ (l.mode ||| l.bits) &&& 0o7777 = l.mode &&& 0o7777 := by
  obtain ⟨h1, h2, -⟩ := l.bits_type
  rw [Nat.and_or_distrib_right, Nat.and_or_distrib_right, hm, h1, h2]
  simp

theorem mode_mod_or_bits {l : Line} (hm : l.mode &&& S_IFMT = 0) :
    (l.mode%2^32 ||| l.bits) &&& S_IFMT = l.bits ∧
      (l.mode%2^32 ||| l.bits) &&& 0o7777 = l.mode &&& 0o7777 := by
  obtain ⟨h1, h2, -⟩ := l.bits_type
  rw [Nat.and_or_distrib_right, Nat.and_or_distrib_right, mod_and _ (by decide),
    mod_and _ (by decide), hm, h1, h2]
  simp

end Mode

section Path

theorem decimal_nat (n : ℕ) : decimal n = (Nat.toDigits 10 n).map fun c => BitVec.ofNat 8 c.toNat := by
  unfold decimal literal
  rw [← Nat.toList_repr]
  rfl

theorem digit_byte {c : Char} (hc : c.isDigit = true) :
    Char.ofNat (BitVec.ofNat 8 c.toNat).toNat = c ∧ BitVec.ofNat 8 c.toNat ≠ slash := by
  have hr : 48 ≤ c.toNat ∧ c.toNat ≤ 57 := Char.isDigit_iff_toNat.mp hc
  have hn : (BitVec.ofNat 8 c.toNat).toNat = c.toNat := by
    rw [BitVec.toNat_ofNat, Nat.mod_eq_of_lt (by omega)]
  refine ⟨by rw [hn, Char.ofNat_toNat], fun h => ?_⟩
  rw [h] at hn
  change 47 = c.toNat at hn
  omega

theorem decimal_injective {m n : ℕ} (h : decimal m = decimal n) : m = n := by
  rw [decimal_nat, decimal_nat] at h
  have hback (k : ℕ) : ((Nat.toDigits 10 k).map fun c => BitVec.ofNat 8 c.toNat).map
      (fun b => Char.ofNat b.toNat) = Nat.toDigits 10 k := by
    rw [List.map_map]
    refine (List.map_congr_left fun c hc => ?_).trans (List.map_id _)
    exact (digit_byte (Nat.isDigit_of_mem_toDigits (by decide) (by decide) hc)).1
  have := congrArg (List.map fun b => Char.ofNat b.toNat) h
  rw [hback, hback] at this
  rw [← Nat.ofDigitChars_ten_toDigits (n := m), this, Nat.ofDigitChars_ten_toDigits]

theorem decimal_ne_nil (n : ℕ) : decimal n ≠ [] := by
  rw [decimal_nat, ne_eq, List.map_eq_nil_iff]
  exact Nat.toDigits_ne_nil

theorem slash_notMem_decimal (n : ℕ) : slash ∉ decimal n := by
  rw [decimal_nat, List.mem_map]
  rintro ⟨c, hc, hs⟩
  exact (digit_byte (Nat.isDigit_of_mem_toDigits (by decide) (by decide) hc)).2 hs

/-- An absolute path is cut at its last slash. -/
theorem split_last {path : List Byte} (h : path.head? = some slash) :
    ∃ dir name, path = dir ++ slash :: name ∧ slash ∉ name := by
  have hmem : slash ∈ path.reverse := List.mem_reverse.mpr (List.mem_of_mem_head? h)
  obtain ⟨name, dir, heq, hnot⟩ := List.eq_append_cons_of_mem hmem
  refine ⟨dir.reverse, name.reverse, ?_, by simpa using hnot⟩
  rw [← List.reverse_reverse path, heq]
  simp

/-- A path that `checkPath` lets through. -/
structure GoodPath (path : List Byte) : Prop where
  absolute : path.head? = some slash
  check : Ubifs.checkPath path = .ok ()

theorem checkPath_ok {path : List Byte} (h : Ubifs.checkPath path = .ok ()) :
    path ≠ [slash] ∧ ¬literal "//" <:+: path ∧ ¬literal "/" <:+ path := by
  unfold Ubifs.checkPath at h
  split at h
  · cases h
  next h1 =>
  split at h
  · cases h
  split at h
  · cases h
  next h2 =>
  split at h
  · cases h
  next h3 => exact ⟨h1, h2, h3⟩

theorem separateLast_append {dir name : List Byte} (hn : slash ∉ name) :
    Ubifs.separateLast (dir ++ slash :: name) = (if dir = [] then [slash] else dir, name) := by
  have htw : ((dir ++ slash :: name).reverse.takeWhile (· ≠ slash)).reverse = name := by
    rw [List.reverse_append, List.reverse_cons, List.append_assoc,
      List.takeWhile_append_of_pos (by simpa using fun b hb => ne_of_mem_of_not_mem hb hn)]
    simp
  unfold Ubifs.separateLast
  dsimp only
  rw [htw]
  have hlen : (dir ++ slash :: name).length-name.length = dir.length+1 := by
    rw [List.length_append, List.length_cons]
    omega
  rw [hlen]
  by_cases hd : dir = []
  · subst hd
    simp
  · have := List.length_pos_of_ne_nil hd
    rw [if_pos (by omega), if_neg hd, Nat.add_sub_cancel, List.take_left]

/-- The two hash tables keep a file under its own path. -/
theorem fullName_separateLast {path : List Byte} (h : GoodPath path) (x : List Byte) :
    Ubifs.fullName (Ubifs.separateLast path).1 ((Ubifs.separateLast path).2 ++ x) = path ++ x := by
  obtain ⟨dir, name, rfl, hn⟩ := split_last h.absolute
  obtain ⟨-, h2, -⟩ := checkPath_ok h.check
  rw [separateLast_append hn]
  dsimp only
  by_cases hd : dir = []
  · subst hd
    simp [Ubifs.fullName]
  · have hs : dir ≠ [slash] := by
      rintro rfl
      apply h2
      exact ⟨[], name, rfl⟩
    unfold Ubifs.fullName
    rw [if_neg hd, if_neg hs]
    simp

theorem dirname_append {path x : List Byte} (h : path.head? = some slash) (hx : slash ∉ x) :
    Jffs2.dirname (path ++ x) = Jffs2.dirname path := by
  obtain ⟨dir, name, rfl, hn⟩ := split_last h
  have hdrop (y : List Byte) (hy : slash ∉ y) :
      (dir ++ slash :: y).reverse.dropWhile (· ≠ slash) = slash :: dir.reverse := by
    rw [List.reverse_append, List.reverse_cons, List.append_assoc,
      List.dropWhile_append_of_pos (by simpa using fun b hb => ne_of_mem_of_not_mem hb hy)]
    simp
  unfold Jffs2.dirname
  rw [List.append_assoc, List.cons_append, hdrop name hn, hdrop (name ++ x) (by simp [hn, hx])]

theorem concatPathFile_good {path : List Byte} (h : GoodPath path) :
    Makedevs.concatPathFile path = path := by
  obtain ⟨-, h2, -⟩ := checkPath_ok h.check
  obtain ⟨rest, rfl⟩ := List.head?_eq_some_iff.mp h.absolute
  unfold Makedevs.concatPathFile
  rw [List.dropWhile_cons_of_pos (by simp)]
  cases rest with
  | nil => rfl
  | cons b rest =>
    have hb : b ≠ slash := by
      rintro rfl
      exact h2 ⟨[], rest, rfl⟩
    rw [List.dropWhile_cons_of_neg (by simpa using hb)]

end Path

/-- The text of a line with a path that fits the smallest buffer, and with ids that are numbers. -/
structure Plain (line : List Byte) (l : Line) : Prop where
  reads : Reads line l
  path_short : l.path.length ≤ 1023
  user_short : l.user.length ≤ 40
  group_short : l.group.length ≤ 40
  user_digits : ∀ b ∈ l.user, isDigit 10 b = true
  group_digits : ∀ b ∈ l.group, isDigit 10 b = true

section Plain

variable {line : List Byte} {l : Line}

/-- All of the three find the same fields. -/
theorem Plain.scan (h : Plain line l) : ∃ rest,
    (∀ width, l.path.length ≤ width →
      scanHead width line = some ⟨l.path, some l.type, some l.mode, rest⟩) ∧
    scanNumbers 7 rest = toULong false (magnitude 10 l.user) ::
      toULong false (magnitude 10 l.group) :: l.numbers ∧
    (∀ env, Makedevs.scanTail env rest = (l.user, l.group, l.numbers)) ∧
    l.user ≠ [] ∧ l.group ≠ [] := by
  obtain ⟨s₁, s₂, s₃, s₄, s₅, hpath, htype, hmode, huser, hgroup, hnum⟩ := h.reads
  refine ⟨s₃, fun width hw => ?_, ?_, fun env => ?_, (token_eq huser).2.1, (token_eq hgroup).2.1⟩
  · unfold scanHead
    rw [scanString_of_token hpath hw]
    dsimp only
    rw [htype]
    dsimp only
    rw [hmode]
  · rw [scanNumbers, scanNumber_of_token huser h.user_digits]
    dsimp only
    rw [scanNumbers, scanNumber_of_token hgroup h.group_digits]
    dsimp only
    rw [hnum]
  · unfold Makedevs.scanTail
    rw [scanString_of_token huser h.user_short]
    dsimp only
    rw [scanString_of_token hgroup h.group_short]
    dsimp only
    rw [hnum]

theorem path_length_le (h : Plain line l) : l.path.length ≤ line.length := by
  obtain ⟨s₁, -, -, -, -, hpath, -, -, -, -, -⟩ := h.reads
  have hs := (token_eq hpath).1
  have hle := (List.dropWhile_suffix (l := line) isSpace).length_le
  rw [hs, List.length_append] at hle
  omega

theorem getD_two {α : Type*} (a b d : α) (n : List α) (i : ℕ) :
    (a :: b :: n).getD (i+2) d = n.getD i d := by simp [List.getD]

theorem ubifs_fields {rest : List Byte}
    (hn : scanNumbers 7 rest = toULong false (magnitude 10 l.user) ::
      toULong false (magnitude 10 l.group) :: l.numbers) :
    Ubifs.fields ⟨l.path, some l.type, some l.mode, rest⟩ =
      ⟨l.mode%2^32, l.uid, l.gid, l.major%2^32, l.minor%2^32, l.start%2^32, l.increment%2^32,
        l.count%2^32⟩ := by
  unfold Ubifs.fields
  dsimp only
  rw [hn, getD_two, getD_two, getD_two, getD_two, getD_two]
  rfl

theorem jffs2_fields {rest : List Byte}
    (hn : scanNumbers 7 rest = toULong false (magnitude 10 l.user) ::
      toULong false (magnitude 10 l.group) :: l.numbers) :
    Jffs2.fields ⟨l.path, some l.type, some l.mode, rest⟩ =
      ⟨l.mode, toULong false (magnitude 10 l.user), toULong false (magnitude 10 l.group), l.major,
        l.minor, l.start, l.numbers.getD 3 1, l.count⟩ := by
  unfold Jffs2.fields
  dsimp only
  rw [hn, getD_two, getD_two, getD_two, getD_two, getD_two]
  rfl

/-- The increment that `mkfs.jffs2` takes where there is none is not used: there is no count
either. -/
theorem jffs2_increment (hc : 0 < l.count) : l.numbers.getD 3 1 = l.increment := by
  unfold Line.count at hc
  unfold Line.increment
  have hlen : 4 < l.numbers.length := by
    by_contra hle
    rw [List.getD_eq_default _ _ (by omega)] at hc
    omega
  rw [List.getD_eq_getElem _ _ (by omega), List.getD_eq_getElem _ _ (by omega)]

def Line.Supported (l : Line) : Prop :=
  l.type ∈ [0x64#8, 0x66#8, 0x70#8, 0x63#8, 0x62#8]

theorem typeBits_eq (ht : l.Supported) :
    Ubifs.typeBits (some l.type) = .ok l.bits ∧ Jffs2.typeBits (some l.type) = .ok l.bits := by
  have h : ∀ t ∈ [0x64#8, 0x66#8, 0x70#8, 0x63#8, 0x62#8],
      Ubifs.typeBits (some t) = .ok (Line.bits ⟨[], t, 0, [], [], []⟩) ∧
        Jffs2.typeBits (some t) = .ok (Line.bits ⟨[], t, 0, [], [], []⟩) := by decide
  exact h _ ht

end Plain

section Ubifs

theorem find_eq_none {t : List Entry} {path : List Byte} :
    find t path = none ↔ ∀ e ∈ t, e.path ≠ path := by
  unfold find
  rw [List.find?_eq_none]
  simp

/-- The entries of a line go in one after another when none of their paths is there. -/
theorem insert_all (tbl : List Entry) (es : List Entry) (made : List Entry)
    (hnew : ∀ e ∈ es, find tbl e.path = none) (hnodup : (made ++ es).map (·.path) |>.Nodup) :
    es.foldlM (Ubifs.insert tbl) made = .ok (made ++ es) := by
  induction es generalizing made with
  | nil => simp [pure, Except.pure]
  | cons e es ih =>
    have hfree : find (tbl ++ made) e.path = none := by
      rw [find_eq_none]
      intro x hx
      rcases List.mem_append.mp hx with hx | hx
      · exact find_eq_none.mp (hnew e (by simp)) x hx
      · intro heq
        rw [List.map_append, List.map_cons, List.nodup_append] at hnodup
        exact hnodup.2.2 _ (List.mem_map_of_mem hx) _ (by simp) heq
    rw [List.foldlM_cons]
    have hins : Ubifs.insert tbl made e = .ok (made ++ [e]) := by
      unfold Ubifs.insert
      rw [hfree]
      rfl
    rw [hins]
    change es.foldlM (Ubifs.insert tbl) (made ++ [e]) = _
    rw [ih _ (fun x hx => hnew x (by simp [hx])) (by simpa using hnodup)]
    simp

/-- The names of a line are distinct. -/
theorem numbered_nodup (path : List Byte) (start n : ℕ) :
    ((List.range n).map fun k => path ++ decimal (start+k : ℕ)).Nodup := by
  refine List.Nodup.map_on (fun a _ b _ h => ?_) List.nodup_range
  have := decimal_injective (List.append_cancel_left h)
  omega

/-- The entries of a line, with the mode that a program keeps. -/
def Line.entries (l : Line) (mode : ℕ) : List Entry :=
  if l.count = 0 then [⟨l.path, mode, l.uid, l.gid, l.major, l.minor%2^32⟩]
  else (List.range l.count).map fun k =>
    ⟨l.path ++ decimal (l.start+k : ℕ), mode, l.uid, l.gid, l.major,
      (l.minor+k*l.increment)%2^32⟩

theorem Line.entries_view (l : Line) {mode : ℕ} (ht : mode &&& S_IFMT = l.bits)
    (hp : mode &&& 0o7777 = l.mode &&& 0o7777) :
    (l.entries mode).map Entry.view = l.expand := by
  unfold Line.entries Line.expand
  split
  · simp [Entry.view, Entry.type, Entry.perm, Line.file, ht, hp]
  · rw [List.map_map]
    apply List.map_congr_left
    intro k _
    simp [Entry.view, Entry.type, Entry.perm, Line.file, ht, hp]

theorem Line.entries_paths (l : Line) (mode : ℕ) :
    (l.entries mode).map (·.path) = l.expand.map (·.path) := by
  unfold Line.entries Line.expand
  split
  · rfl
  · rw [List.map_map, List.map_map]
    rfl

theorem Line.entries_free {l : Line} {tbl : List Entry} (h : ∀ v ∈ l.expand, find tbl v.path = none)
    (mode : ℕ) : ∀ e ∈ l.entries mode, find tbl e.path = none := by
  intro e he
  have hmem : e.path ∈ l.expand.map (·.path) := by
    rw [← l.entries_paths mode]
    exact List.mem_map_of_mem he
  obtain ⟨v, hv, hpath⟩ := List.mem_map.mp hmem
  rw [← hpath]
  exact h v hv

theorem Line.entries_nodup (l : Line) (mode : ℕ) : ((l.entries mode).map (·.path)).Nodup := by
  unfold Line.entries
  split
  · simp
  · rw [List.map_map]
    exact numbered_nodup l.path l.start l.count

variable {line : List Byte} {l : Line} {tbl : List Entry}

theorem elements_eq (hg : GoodPath l.path) (hr : l.InRange) (mode : ℕ) :
    Ubifs.elements ⟨mode, l.uid, l.gid, l.major, l.minor, l.start, l.increment, l.count⟩ mode
      (Ubifs.separateLast l.path).1 (Ubifs.separateLast l.path).2 = l.entries mode := by
  obtain ⟨-, r2, r3, -, r5⟩ := hr
  unfold Ubifs.elements Line.entries
  split
  · have hname := fullName_separateLast hg []
    rw [List.append_nil, List.append_nil] at hname
    rw [hname, Nat.mod_eq_of_lt (by omega)]
  · dsimp only
    rw [toInt32_of_lt (by omega) (by omega), toInt32_of_lt (by omega) (by omega)]
    have hcount : ((l.start+l.count : ℤ)-l.start).toNat = l.count := by omega
    rw [hcount]
    apply List.map_congr_left
    intro k hk
    have hlt := List.mem_range.mp hk
    have hk : (((l.start : ℤ)+k-l.start)%2^32).toNat = k := by omega
    rw [fullName_separateLast hg, hk]
    rfl

theorem ubifs_made (hp : Plain line l) (hg : GoodPath l.path) (ht : l.Supported)
    (hr : l.InRange) (hc : l.increment = 0 ∨ 0 < l.count)
    (hfree : ∀ v ∈ l.expand, find tbl v.path = none) :
    Ubifs.interpretTableEntry tbl line =
      .ok ⟨l.entries (l.mode%2^32 ||| l.bits), tbl ++ l.entries (l.mode%2^32 ||| l.bits)⟩ := by
  obtain ⟨rest, hhead, hn, -, -, -⟩ := hp.scan
  have hins := insert_all tbl (l.entries (l.mode%2^32 ||| l.bits)) [] (l.entries_free hfree _)
    (by simpa using l.entries_nodup _)
  have hel := elements_eq hg hr (l.mode%2^32 ||| l.bits)
  obtain ⟨r1, r2, r3, r4, r5⟩ := hr
  have hmod {x : ℕ} (hx : x ≤ 0xfffff) : x%2^32 = x := Nat.mod_eq_of_lt (by omega)
  unfold Ubifs.interpretTableEntry
  rw [hhead 1023 hp.path_short]
  dsimp only
  rw [ubifs_fields hn, hg.check, (typeBits_eq ht).1, hmod r1, hmod r2, hmod r3, hmod r4, hmod r5]
  change (if l.increment ≠ 0 ∧ l.count = 0 then _ else _) = _
  rw [if_neg (by omega)]
  change (do
    let made ← (Ubifs.elements ⟨l.mode%2^32 ||| l.bits, l.uid, l.gid, l.major, l.minor, l.start,
      l.increment, l.count⟩ (l.mode%2^32 ||| l.bits) (Ubifs.separateLast l.path).1
      (Ubifs.separateLast l.path).2).foldlM (Ubifs.insert tbl) []
    .ok (Outcome.mk made (tbl ++ made))) = _
  rw [hel, hins]
  rfl

/-- The check of `mkfs.ubifs` that the other two do not have. -/
theorem ubifs_countZero (hp : Plain line l) (hg : GoodPath l.path) (ht : l.Supported)
    (hr : l.InRange) (hi : l.increment ≠ 0) (hc : l.count = 0) :
    Ubifs.interpretTableEntry tbl line = .error .countZero := by
  obtain ⟨rest, hhead, hn, -, -, -⟩ := hp.scan
  obtain ⟨r1, r2, r3, r4, r5⟩ := hr
  have hmod {x : ℕ} (hx : x ≤ 0xfffff) : x%2^32 = x := Nat.mod_eq_of_lt (by omega)
  unfold Ubifs.interpretTableEntry
  rw [hhead 1023 hp.path_short]
  dsimp only
  rw [ubifs_fields hn, hg.check, (typeBits_eq ht).1, hmod r1, hmod r2, hmod r3, hmod r4, hmod r5]
  change (if l.increment ≠ 0 ∧ l.count = 0 then _ else _) = _
  rw [if_pos ⟨hi, hc⟩]

end Ubifs

/-- A tree that a line can be applied to: the directories above are there, a regular file is there,
a directory may be there, and nothing else is in the way. -/
structure Room (t : List Entry) (l : Line) : Prop where
  above : ∀ q ∈ Jffs2.dirname l.path :: Makedevs.parents l.path, Makedevs.isDir t q = true
  file : l.type = 0x66#8 → (find t l.path).isSome
  there : l.type = 0x66#8 ∨ l.type = 0x64#8 →
    ∀ e ∈ find t l.path, e.type = l.bits ∧ e.major = 0 ∧ e.minor = 0
  free : l.type ≠ 0x66#8 → l.type ≠ 0x64#8 → ∀ v ∈ l.expand, find t v.path = none
  fifo : l.type = 0x70#8 → find t l.path = none

/-- The fields behind the group are those of a device. -/
def Line.DeviceFields (l : Line) : Prop :=
  l.isDevice ∨ (l.count = 0 ∧ l.major = 0 ∧ l.minor = 0)

theorem Line.not_device {l : Line} (h : l.type = 0x66#8 ∨ l.type = 0x64#8) : ¬l.isDevice := by
  rintro (hd | hd) <;> rcases h with h | h <;> rw [h] at hd <;> cases hd

theorem Line.fifo_type {l : Line} (ht : l.Supported) (hd : ¬l.isDevice)
    (hkind : ¬(l.type = 0x66#8 ∨ l.type = 0x64#8)) : l.type = 0x70#8 := by
  unfold Line.isDevice at hd
  rw [not_or] at hkind hd
  simpa [Line.Supported, hkind, hd] using ht

section Jffs2

variable {line : List Byte} {l : Line} {host root : List Entry}

theorem mapM_ok {α β ε : Type} {f : α → Except ε β} {g : α → β} {xs : List α}
    (h : ∀ x ∈ xs, f x = .ok (g x)) : xs.mapM f = .ok (xs.map g) := by
  induction xs with
  | nil => rfl
  | cons x xs ih =>
    rw [List.mapM_cons, h x (by simp), ih fun y hy => h y (by simp [hy])]
    rfl

theorem find_path {t : List Entry} {path : List Byte} {e : Entry} (h : find t path = some e) :
    e.path = path := by
  unfold find at h
  simpa using List.find?_some h

theorem addHostFilesystemEntry_ok {name : List Byte} {uid gid mode : ℕ} {rdev : ℕ × ℕ}
    (hsome : ∀ e ∈ find host name, e.type = mode &&& S_IFMT)
    (hnone : find host name = none → mode &&& S_IFMT ≠ S_IFREG) :
    Jffs2.addHostFilesystemEntry host name uid gid mode rdev =
      .ok ⟨name, mode%2^32, uid%2^32, gid%2^32, rdev.1, rdev.2⟩ := by
  unfold Jffs2.addHostFilesystemEntry
  cases hf : find host name with
  | none =>
    dsimp only
    rw [if_neg (hnone hf)]
  | some e =>
    dsimp only
    rw [if_neg (by rw [hsome e hf]; simp)]

theorem Line.bits_device (ht : l.Supported) :
    (l.bits = S_IFCHR ∨ l.bits = S_IFBLK ↔ l.isDevice) ∧ (l.bits = S_IFREG ↔ l.type = 0x66#8) ∧
      l.bits ≠ S_IFLNK := by
  have h : ∀ t ∈ [0x64#8, 0x66#8, 0x70#8, 0x63#8, 0x62#8],
      ((Line.bits ⟨[], t, 0, [], [], []⟩ = S_IFCHR ∨ Line.bits ⟨[], t, 0, [], [], []⟩ = S_IFBLK) ↔
        (t = 0x63#8 ∨ t = 0x62#8)) ∧
      (Line.bits ⟨[], t, 0, [], [], []⟩ = S_IFREG ↔ t = 0x66#8) ∧
      Line.bits ⟨[], t, 0, [], [], []⟩ ≠ S_IFLNK := by decide
  exact h _ ht

/-- The names of devices that `mkfs.jffs2` adds are those of the line. -/
theorem newNames_entries (ht : l.Supported) (hr : l.InRange) (hdev : l.isDevice)
    {inc : ℕ} (hinc : 0 < l.count → inc = l.increment) (m mode u g : ℕ) :
    (Jffs2.newNames ⟨m, u, g, l.major, l.minor, l.start, inc, l.count⟩ l.bits l.path).map
        (fun p => (⟨p.1, mode%2^32, l.uid, l.gid, p.2.1, p.2.2⟩ : Entry)) =
      l.entries (mode%2^32) := by
  obtain ⟨r1, r2, r3, -, r5⟩ := hr
  have hmajor : l.major%2^32 = l.major := Nat.mod_eq_of_lt (by omega)
  unfold Jffs2.newNames Line.entries
  rw [if_pos ((Line.bits_device ht).1.mpr hdev)]
  by_cases h0 : l.count = 0
  · rw [if_neg (by simp [h0]), if_pos h0]
    simp only [List.map_cons, List.map_nil, Jffs2.makedev, hmajor]
  · rw [if_pos (by simp only; omega), if_neg h0]
    dsimp only
    have hlast : (l.start+l.count)%2^64-l.start = l.count := by
      rw [Nat.mod_eq_of_lt (by omega)]
      omega
    rw [hlast, List.map_map, hinc (by omega)]
    apply List.map_congr_left
    intro k _
    simp only [Function.comp_apply, Jffs2.makedev, hmajor, Nat.add_sub_cancel_left]

theorem mem_newNames_expand (ht : l.Supported) (hr : l.InRange) (hdev : l.isDevice)
    {inc mode u g : ℕ} (hinc : 0 < l.count → inc = l.increment) {p : List Byte × (ℕ × ℕ)}
    (hp : p ∈ Jffs2.newNames ⟨mode, u, g, l.major, l.minor, l.start, inc, l.count⟩ l.bits l.path) :
    p.1 ∈ l.expand.map (·.path) := by
  rw [← l.entries_paths (mode%2^32), ← newNames_entries ht hr hdev hinc mode mode u g, List.map_map]
  exact List.mem_map.mpr ⟨p, hp, rfl⟩

/-- The entry of a line that is no device. -/
def Line.single (l : Line) (root : List Entry) (mode : ℕ) : Entry :=
  if (find root l.path).isSome ∧ l.major ≠ 0 ∧ l.minor ≠ 0 then
    ⟨l.path, mode, l.uid, l.gid, l.major, l.minor⟩
  else ⟨l.path, mode, l.uid, l.gid, 0, 0⟩

/-- What `mkfs.jffs2` makes of a line, as entries of its tree. -/
def Line.jffs2Entries (l : Line) (root : List Entry) (mode : ℕ) : List Entry :=
  if l.isDevice then l.entries mode else [l.single root mode]

theorem Line.jffs2Entries_view (l : Line) (root : List Entry) {mode : ℕ}
    (ht : mode &&& S_IFMT = l.bits) (hp : mode &&& 0o7777 = l.mode &&& 0o7777) :
    (l.jffs2Entries root mode).map Entry.view = l.jffs2Files root := by
  unfold Line.jffs2Entries Line.jffs2Files Line.single
  split
  · exact l.entries_view ht hp
  · split <;> simp [Entry.view, Entry.type, Entry.perm, Line.plain, ht, hp]

theorem jffs2_made (hp : Plain line l) (hg : GoodPath l.path) (ht : l.Supported)
    (hm : l.mode &&& S_IFMT = 0) (hr : l.InRange) (hroot : Room root l) (hhost : Room host l) :
    ∃ state, Jffs2.interpretTableEntry host root line =
      .ok (false, ⟨l.jffs2Entries root ((l.mode ||| l.bits)%2^32), state⟩) := by
  obtain ⟨rest, hhead, hn, -, -, -⟩ := hp.scan
  obtain ⟨hdev, hreg, hlnk⟩ := Line.bits_device ht
  obtain ⟨hty, -⟩ := mode_or_bits hm
  have hslash : l.path ≠ literal "/" := (checkPath_ok hg.check).1
  have hparent : (find root (Jffs2.dirname l.path)).isNone = false := by
    have := hroot.above _ List.mem_cons_self
    unfold Makedevs.isDir at this
    cases h : find root (Jffs2.dirname l.path) with
    | none => rw [h] at this; cases this
    | some e => rfl
  unfold Jffs2.interpretTableEntry
  rw [hhead line.length (path_length_le hp)]
  dsimp only
  rw [jffs2_fields hn, (typeBits_eq ht).2, if_neg hslash]
  dsimp only [bind, Except.bind]
  unfold Line.jffs2Entries
  by_cases hdevice : l.isDevice
  · -- the files of a device line are new
    have hfree := hroot.free (fun h => Line.not_device (.inl h) hdevice)
      (fun h => Line.not_device (.inr h) hdevice)
    have hjfree := hhost.free (fun h => Line.not_device (.inl h) hdevice)
      (fun h => Line.not_device (.inr h) hdevice)
    have hlook : (if 0 < l.count ∧ (l.bits = S_IFCHR ∨ l.bits = S_IFBLK) then none
        else find root l.path) = none := by
      by_cases h0 : l.count = 0
      · rw [if_neg (by omega)]
        have hmem : l.file l.path l.minor ∈ l.expand := by
          rw [Line.expand, if_pos h0]
          exact List.mem_singleton_self _
        exact hfree _ hmem
      · rw [if_pos ⟨by omega, hdev.mpr hdevice⟩]
    rw [hlook]
    dsimp only
    rw [hparent, if_neg (by decide), if_neg hlnk, if_pos hdevice]
    have hinc : 0 < l.count → l.numbers.getD 3 1 = l.increment := jffs2_increment
    refine ⟨root ++ l.entries ((l.mode ||| l.bits)%2^32), ?_⟩
    rw [mapM_ok (g := fun p => ⟨p.1, (l.mode ||| l.bits)%2^32, l.uid, l.gid, p.2.1, p.2.2⟩),
      newNames_entries ht hr hdevice hinc l.mode (l.mode ||| l.bits)]
    intro p hmem
    obtain ⟨v, hv, hpath⟩ := List.mem_map.mp (mem_newNames_expand ht hr hdevice hinc hmem)
    apply addHostFilesystemEntry_ok
    · intro e he
      rw [← hpath, hjfree v hv] at he
      cases he
    · intro _ hbits
      rw [hty] at hbits
      exact Line.not_device (.inl (hreg.mp hbits)) hdevice
  · have hnot : ¬(l.bits = S_IFCHR ∨ l.bits = S_IFBLK) := fun h => hdevice (hdev.mp h)
    rw [if_neg fun h => hnot h.2, if_neg hdevice]
    unfold Line.single
    obtain ⟨r1, r2, -, -, -⟩ := hr
    have hmajor : l.major%2^32 = l.major := Nat.mod_eq_of_lt (by omega)
    have hminor : l.minor%2^32 = l.minor := Nat.mod_eq_of_lt (by omega)
    cases hfind : find root l.path with
    | some entry =>
      obtain ⟨hmj, hmi⟩ : entry.major = 0 ∧ entry.minor = 0 := by
        by_cases hkind : l.type = 0x66#8 ∨ l.type = 0x64#8
        · exact (hroot.there hkind entry hfind).2
        · rw [hroot.fifo (Line.fifo_type ht hdevice hkind)] at hfind
          cases hfind
      dsimp only
      unfold Jffs2.fixup
      dsimp only
      by_cases hboth : l.major ≠ 0 ∧ l.minor ≠ 0
      · rw [if_pos hboth, if_pos ⟨rfl, hboth⟩, Jffs2.makedev, hmajor, hminor, find_path hfind]
        exact ⟨_, rfl⟩
      · rw [if_neg hboth, if_neg fun h => hboth h.2, find_path hfind, hmj, hmi]
        exact ⟨_, rfl⟩
    | none =>
      dsimp only
      rw [hparent, if_neg (by decide), if_neg hlnk, Jffs2.newNames, if_neg hnot,
        if_neg (by simp)]
      refine ⟨root ++ [⟨l.path, (l.mode ||| l.bits)%2^32, l.uid, l.gid, 0, 0⟩], ?_⟩
      rw [mapM_ok (g := fun p => ⟨p.1, (l.mode ||| l.bits)%2^32, l.uid, l.gid, p.2.1, p.2.2⟩)]
      · rfl
      intro p hmem
      obtain rfl := List.mem_singleton.mp hmem
      apply addHostFilesystemEntry_ok
      · intro e he
        rw [hty]
        by_cases hkind : l.type = 0x66#8 ∨ l.type = 0x64#8
        · exact (hhost.there hkind e he).1
        · dsimp only at he
          rw [hhost.fifo (Line.fifo_type ht hdevice hkind)] at he
          cases he
      · intro _ hbits
        rw [hty] at hbits
        have hsome := hroot.file (hreg.mp hbits)
        rw [hfind] at hsome
        cases hsome

end Jffs2

section Makedevs

open Makedevs

variable {line : List Byte} {l : Line} {env : Env} {host : List Entry} {path : List Byte}

theorem find_append_of_none {es : List Entry} (h : find host path = none) :
    find (host ++ es) path = find es path := by
  unfold find at h ⊢
  rw [List.find?_append, h]
  rfl

theorem find_append_of_some {es : List Entry} {e : Entry} (h : find host path = some e) :
    find (host ++ es) path = some e := by
  unfold find at h ⊢
  rw [List.find?_append, h]
  rfl

theorem isDir_append {es : List Entry} (h : isDir host path = true) :
    isDir (host ++ es) path = true := by
  unfold isDir at h ⊢
  cases hf : find host path with
  | none => rw [hf] at h; cases h
  | some e =>
    rw [hf] at h
    rw [find_append_of_some hf]
    exact h

theorem find_of_mem_nodup {es : List Entry} (hn : (es.map (·.path)).Nodup) {e : Entry}
    (he : e ∈ es) : find es e.path = some e := by
  induction es with
  | nil => cases he
  | cons x es ih =>
    rw [List.map_cons, List.nodup_cons] at hn
    unfold find
    rcases List.mem_cons.mp he with rfl | he
    · simp
    · have hne : x.path ≠ e.path := fun heq => hn.1 (heq ▸ List.mem_map_of_mem he)
      rw [List.find?_cons_of_neg (by simpa using hne)]
      exact ih hn.2 he

theorem setAttr_new {e : Entry} (h : find host path = none) (he : e.path = path)
    (f : Entry → Entry) : setAttr (host ++ [e]) path f = some (host ++ [f e]) := by
  have hfind : find (host ++ [e]) path = some e := by
    rw [find_append_of_none h, find]
    simp [he]
  have hidx : (host ++ [e]).findIdx (·.path = path) = host.length := by
    rw [List.findIdx_append, if_neg]
    · simp [he]
    · rw [List.findIdx_lt_length]
      rintro ⟨x, hx, hxp⟩
      exact find_eq_none.mp h x hx (by simpa using hxp)
  unfold setAttr
  rw [hfind, hidx]
  simp [List.modify_eq_take_cons_drop]

/-- A file that is there has the new attributes afterwards. -/
theorem setAttr_there {e : Entry} (h : find host path = some e) {f : Entry → Entry}
    (hf : ∀ x, (f x).path = x.path) :
    ∃ host', setAttr host path f = some host' ∧ find host' path = some (f e) := by
  refine ⟨_, by unfold setAttr; rw [h]; rfl, ?_⟩
  induction host with
  | nil => cases h
  | cons x host ih =>
    unfold find at h ih ⊢
    by_cases hx : x.path = path
    · rw [List.find?_cons_of_pos (by simpa using hx)] at h
      cases h
      rw [List.findIdx_cons]
      simp [hx, hf]
    · rw [List.find?_cons_of_neg (by simpa using hx)] at h
      rw [List.findIdx_cons]
      simp only [hx, decide_false, cond_false]
      rw [List.modify_succ_cons, List.find?_cons_of_neg (by simpa using hx)]
      exact ih h

theorem create_free {mode : ℕ} {rdev : ℕ × ℕ} (h : find host path = none)
    (hd : isDir host (Jffs2.dirname path) = true) :
    create env host path mode rdev =
      some (host ++ [⟨path, mode, env.getuid, env.getgid, rdev.1, rdev.2⟩]) := by
  unfold create
  rw [h, hd]
  simp

theorem create_there {mode : ℕ} {rdev : ℕ × ℕ} {e : Entry} (h : find host path = some e) :
    create env host path mode rdev = none := by
  unfold create
  rw [h]
  simp

/-- A node at a free path, with all of its attributes. -/
theorem makeNode_free {mode uid gid : ℕ} {rdev : ℕ × ℕ} {failed : Bool}
    (h : find host path = none) (hd : isDir host (Jffs2.dirname path) = true)
    (hu : uid ≠ 2^32-1) (hg : gid ≠ 2^32-1) (hm : mode ≠ 2^32-1)
    (hr : rdev.1 < 2^12 ∧ rdev.2 < 2^20) :
    makeNode env mode uid gid rdev (host, failed) path =
      (host ++ [⟨path, (mode &&& 0o177777 &&& S_IFMT) ||| (mode &&& 0o7777), uid, gid,
        (nodeDev mode rdev).1, (nodeDev mode rdev).2⟩], failed) := by
  unfold makeNode mknod
  dsimp only
  rw [if_pos hr, create_free h hd]
  dsimp only
  rw [chown, setAttr_new h rfl]
  simp only [attempt, if_neg hu, if_neg hg, if_neg hm]
  rw [chmod, setAttr_new h rfl]
  rfl

theorem makeNodes_free {mode uid gid : ℕ} (rdev : ℕ → ℕ × ℕ) (name : ℕ → List Byte)
    (hu : uid ≠ 2^32-1) (hg : gid ≠ 2^32-1) (hm : mode ≠ 2^32-1) (ks : List ℕ)
    (hn : (ks.map name).Nodup) (hfree : ∀ k ∈ ks, find host (name k) = none)
    (hd : ∀ k ∈ ks, isDir host (Jffs2.dirname (name k)) = true)
    (hr : ∀ k ∈ ks, (rdev k).1 < 2^12 ∧ (rdev k).2 < 2^20) :
    ks.foldl (fun s i => makeNode env mode uid gid (rdev i) s (name i)) (host, false) =
      (host ++ ks.map fun i => ⟨name i, (mode &&& 0o177777 &&& S_IFMT) ||| (mode &&& 0o7777), uid,
        gid, (nodeDev mode (rdev i)).1, (nodeDev mode (rdev i)).2⟩, false) := by
  induction ks generalizing host with
  | nil => simp
  | cons k ks ih =>
    rw [List.map_cons, List.nodup_cons] at hn
    rw [List.foldl_cons, makeNode_free (hfree k (by simp)) (hd k (by simp)) hu hg hm (hr k (by simp))]
    rw [ih hn.2]
    · simp
    · intro j hj
      rw [find_append_of_none (hfree j (by simp [hj])), find_eq_none]
      intro e he
      rw [List.mem_singleton] at he
      subst he
      exact fun heq => hn.1 (List.mem_map.mpr ⟨j, hj, heq.symm⟩)
    · intro j hj
      exact isDir_append (hd j (by simp [hj]))
    · exact fun j hj => hr j (by simp [hj])

/-- A failure of one node is that of the line. -/
theorem makeNode_failed {mode uid gid : ℕ} {rdev : ℕ × ℕ} {s : List Entry × Bool}
    (h : s.2 = true ∨ ¬(rdev.1 < 2^12 ∧ rdev.2 < 2^20)) :
    (makeNode env mode uid gid rdev s path).2 = true := by
  have hattempt (t : List Entry × Bool) (call : Option (List Entry)) (ht : t.2 = true) :
      (attempt t call).2 = true := by
    unfold attempt
    split
    · exact ht
    · rfl
  have hnode : (match mknod env s.1 path mode rdev with
      | some host => attempt (host, s.2) (chown host path uid gid)
      | none => (s.1, true)).2 = true := by
    rcases h with h | h
    · split
      · exact hattempt _ _ h
      · rfl
    · rw [mknod, if_neg h]
  unfold makeNode
  dsimp only
  split
  · exact hnode
  · exact hattempt _ _ hnode

theorem makeNodes_failed {mode uid gid : ℕ} (rdev : ℕ → ℕ × ℕ) (name : ℕ → List Byte)
    (ks : List ℕ) {s : List Entry × Bool}
    (h : s.2 = true ∨ ∃ k ∈ ks, ¬((rdev k).1 < 2^12 ∧ (rdev k).2 < 2^20)) :
    (ks.foldl (fun s i => makeNode env mode uid gid (rdev i) s (name i)) s).2 = true := by
  induction ks generalizing s with
  | nil => exact h.resolve_right fun ⟨_, hk, _⟩ => absurd hk List.not_mem_nil
  | cons k ks ih =>
    rw [List.foldl_cons]
    apply ih
    rcases h with h | ⟨j, hj, hbad⟩
    · exact .inl (makeNode_failed (.inl h))
    rcases List.mem_cons.mp hj with rfl | hj
    · exact .inl (makeNode_failed (.inr hbad))
    · exact .inr ⟨j, hj, hbad⟩

theorem setOwnerMode_there {e : Entry} {mode uid gid : ℕ} (h : find host path = some e)
    (hu : uid ≠ 2^32-1) (hg : gid ≠ 2^32-1) (hm : mode ≠ 2^32-1) :
    ∃ host', setOwnerMode host path mode uid gid = (host', false) ∧
      find host' path = some ⟨path, e.type ||| (mode &&& 0o7777), uid, gid, e.major, e.minor⟩ := by
  obtain ⟨h1, hset1, hfind1⟩ := setAttr_there h (f := fun e => { e with
    uid := if uid = 2^32-1 then e.uid else uid
    gid := if gid = 2^32-1 then e.gid else gid }) (fun _ => rfl)
  obtain ⟨h2, hset2, hfind2⟩ := setAttr_there hfind1
    (f := fun e => { e with mode := e.type ||| (mode &&& 0o7777) }) (fun _ => rfl)
  refine ⟨h2, ?_, ?_⟩
  · unfold setOwnerMode chown
    rw [hset1]
    dsimp only
    rw [if_neg hm, chmod, hset2]
    rfl
  · rw [hfind2, if_neg hu, if_neg hg, find_path h]
    rfl

/-- The mode after `chmod`: the type is kept, the permissions are new. -/
theorem type_or_perm {t : ℕ} (ht : t &&& S_IFMT = t) (m : ℕ) :
    (t ||| (m &&& 0o7777)) &&& S_IFMT = t := by
  have h0 : (0o7777 : ℕ) &&& S_IFMT = 0 := by decide
  rw [Nat.and_or_distrib_right, Nat.and_assoc m, h0, Nat.and_zero, Nat.or_zero, ht]

theorem perm_or_perm {t : ℕ} (ht : t &&& 0o7777 = 0) (m : ℕ) :
    (t ||| (m &&& 0o7777)) &&& 0o7777 = m &&& 0o7777 := by
  have h0 : (0o7777 : ℕ) &&& 0o7777 = 0o7777 := by decide
  rw [Nat.and_or_distrib_right, Nat.and_assoc m, h0, ht, Nat.zero_or]

theorem isDir_there {q : List Byte} (h : isDir host q = true) :
    ∃ e, find host q = some e ∧ e.type = S_IFDIR := by
  unfold isDir at h
  cases hf : find host q with
  | none => rw [hf] at h; cases h
  | some e =>
    rw [hf] at h
    exact ⟨e, rfl, by simpa using h⟩

/-- The directories above the path are there, so nothing is made on the way. -/
theorem makeParents_there (qs : List (List Byte)) (h : ∀ q ∈ qs, isDir host q = true) :
    qs.foldl (makeParent env) (host, true) = (host, true) := by
  induction qs with
  | nil => rfl
  | cons q qs ih =>
    obtain ⟨e, he, -⟩ := isDir_there (h q (by simp))
    rw [List.foldl_cons]
    have hq : makeParent env (host, true) q = (host, true) := by
      unfold makeParent mkdir
      rw [create_there he, h q (by simp)]
      rfl
    rw [hq]
    exact ih fun p hp => h p (by simp [hp])

theorem bbMakeDirectory_there {mode : ℕ}
    (habove : ∀ q ∈ Jffs2.dirname path :: parents path, isDir host q = true)
    (hthere : ∀ e ∈ find host path, e.type = S_IFDIR ∧ e.major = 0 ∧ e.minor = 0) :
    ∃ e, find (bbMakeDirectory env host path mode) path = some e ∧ e.type = S_IFDIR ∧
      e.major = 0 ∧ e.minor = 0 := by
  unfold bbMakeDirectory
  dsimp only
  rw [makeParents_there _ fun q hq => habove q (by simp [hq])]
  cases hf : find host path with
  | some e =>
    refine ⟨e, ?_, hthere e hf⟩
    simp only [Bool.not_true, Bool.false_eq_true, if_false, mkdir, create_there hf, hf]
  | none =>
    simp only [Bool.not_true, Bool.false_eq_true, if_false, mkdir,
      create_free hf (habove _ (by simp))]
    rw [chmod, setAttr_new hf rfl, Option.getD_some, find_append_of_none hf]
    refine ⟨_, by unfold find; simp; rfl, ?_, rfl, rfl⟩
    have hdir : (S_IFDIR ||| 0o777) &&& S_IFMT = S_IFDIR := by decide
    unfold Entry.type
    dsimp only
    rw [hdir]
    exact type_or_perm (by decide) mode

/-- The mode of a file of the line on the host. -/
def Line.hostMode (l : Line) : ℕ := l.bits ||| (l.mode &&& 0o7777)

theorem mode_ne_minus_one {m : ℕ} (h : m &&& S_IFMT ≠ S_IFMT) : m ≠ 2^32-1 := by
  rintro rfl
  exact h (by decide)

theorem Line.bits_ne (l : Line) : l.bits ≠ S_IFMT := by
  have h : ∀ b ∈ [S_IFDIR, S_IFREG, S_IFIFO, S_IFCHR, S_IFBLK], b ≠ S_IFMT := by decide
  exact h _ l.bits_cases

/-- The files of a line as the host keeps them. -/
def Line.nodes (l : Line) : List Entry :=
  (l.entries l.hostMode).map fun e => { e with
    major := (nodeDev l.bits (e.major, e.minor)).1
    minor := (nodeDev l.bits (e.major, e.minor)).2 }

theorem Line.nodes_paths (l : Line) : l.nodes.map (·.path) = (l.entries l.hostMode).map (·.path) := by
  rw [Line.nodes, List.map_map]
  rfl

theorem nodeDev_or_bits (hm : l.mode &&& S_IFMT = 0) (rdev : ℕ × ℕ) :
    nodeDev (l.mode%2^32 ||| l.bits) rdev = nodeDev l.bits rdev := by
  unfold nodeDev
  rw [(mode_mod_or_bits hm).1, l.bits_type.1]

theorem Line.nodes_view (ht : l.Supported) (h66 : l.type ≠ 0x66#8) (h64 : l.type ≠ 0x64#8) :
    l.nodes.map Entry.view = l.makedevsFiles := by
  have hview := l.entries_view (type_or_perm l.bits_type.1 l.mode) (perm_or_perm l.bits_type.2.1 l.mode)
  have hbits := (Line.bits_device ht).1
  unfold Line.makedevsFiles Line.nodes
  rw [if_neg (by tauto), List.map_map]
  split
  next h70 =>
    have hno : ¬(l.bits = S_IFCHR ∨ l.bits = S_IFBLK) := by
      rw [hbits]
      rintro (h | h) <;> rw [h70] at h <;> cases h
    rw [← hview, List.map_map]
    apply List.map_congr_left
    intro e _
    simp only [Function.comp_apply, nodeDev, l.bits_type.1, if_neg hno]
    rfl
  next h70 =>
    have hdev : l.bits = S_IFCHR ∨ l.bits = S_IFBLK := by
      rw [hbits]
      by_contra hd
      exact h70 (Line.fifo_type ht hd (by tauto))
    rw [← hview]
    apply List.map_congr_left
    intro e _
    simp only [Function.comp_apply, nodeDev, l.bits_type.1, if_pos hdev]

theorem makeNodes_made (hm : l.mode &&& S_IFMT = 0) (hr : l.InRange) (hg : GoodPath l.path)
    (hu : l.uid ≠ 2^32-1) (hgid : l.gid ≠ 2^32-1)
    (hdir : isDir host (Jffs2.dirname l.path) = true)
    (hfree : ∀ v ∈ l.expand, find host v.path = none)
    (hhost : ∀ v ∈ l.expand, v.major < 2^12 ∧ v.minor < 2^20) :
    makeNodes env host l.path ⟨l.mode%2^32, l.uid, l.gid, l.major, l.minor, l.start, l.increment,
        l.count⟩ (l.mode%2^32 ||| l.bits) = (false, ⟨l.nodes, host ++ l.nodes⟩) := by
  obtain ⟨r1, r2, r3, -, r5⟩ := hr
  obtain ⟨hty, hpe⟩ := mode_mod_or_bits hm
  have hne : l.mode%2^32 ||| l.bits ≠ 2^32-1 := mode_ne_minus_one (by rw [hty]; exact l.bits_ne)
  have hmode : ((l.mode%2^32 ||| l.bits) &&& 0o177777 &&& S_IFMT) |||
      ((l.mode%2^32 ||| l.bits) &&& 0o7777) = l.hostMode := by
    have h0 : (0o177777 : ℕ) &&& S_IFMT = S_IFMT := by decide
    rw [Nat.and_assoc, h0, hty, hpe]
    rfl
  have hmajor : l.major%2^32 = l.major := Nat.mod_eq_of_lt (by omega)
  have hnew : ∀ e ∈ l.nodes, find host e.path = none := by
    intro e he
    obtain ⟨e', he', rfl⟩ := List.mem_map.mp he
    exact Line.entries_free hfree l.hostMode e' he'
  have hnodup : (l.nodes.map (·.path)).Nodup := by
    rw [l.nodes_paths]
    exact l.entries_nodup l.hostMode
  have hfind (es : List Entry) (hes : es = l.nodes) :
      (es.map (·.path)).filterMap (find (host ++ es)) = es := by
    subst hes
    rw [List.filterMap_map]
    refine (List.filterMap_congr fun e he => ?_).trans List.filterMap_some
    rw [Function.comp_apply, find_append_of_none (hnew e he), find_of_mem_nodup hnodup he]
  unfold makeNodes
  by_cases h0 : l.count = 0
  · rw [if_neg (by simp [h0])]
    have hes : l.nodes = [⟨l.path, l.hostMode, l.uid, l.gid,
        (nodeDev l.bits (l.major, l.minor%2^32)).1, (nodeDev l.bits (l.major, l.minor%2^32)).2⟩] := by
      rw [Line.nodes, Line.entries, if_pos h0]
      rfl
    have hf := hnew _ (by rw [hes]; exact List.mem_singleton_self _)
    have hmem : l.file l.path l.minor ∈ l.expand := by
      rw [Line.expand, if_pos h0]
      exact List.mem_singleton_self _
    have hdev := hhost _ hmem
    have hout := hfind _ hes.symm
    simp only [List.map_cons, List.map_nil] at hout
    simp only [Jffs2.makedev, hmajor]
    rw [makeNode_free hf hdir hu hgid hne hdev, hmode, nodeDev_or_bits hm, hes]
    unfold outcome
    dsimp only
    rw [hout]
  · rw [if_pos (by simp only; omega)]
    dsimp only
    have hname {i : ℕ} (hi : i ∈ List.range l.count) :
        l.path ++ decimal (toInt32 (l.start+i : ℕ)) = l.path ++ decimal (l.start+i : ℕ) := by
      have := List.mem_range.mp hi
      rw [toInt32_of_lt (by omega) (by omega)]
    have hes : l.nodes = (List.range l.count).map fun i =>
        ⟨l.path ++ decimal (toInt32 (l.start+i : ℕ)), l.hostMode, l.uid, l.gid,
          (nodeDev (l.mode%2^32 ||| l.bits) (Jffs2.makedev l.major (l.minor+i*l.increment))).1,
          (nodeDev (l.mode%2^32 ||| l.bits) (Jffs2.makedev l.major (l.minor+i*l.increment))).2⟩ := by
      rw [Line.nodes, Line.entries, if_neg h0, List.map_map]
      apply List.map_congr_left
      intro i hi
      rw [hname hi, Jffs2.makedev, hmajor, nodeDev_or_bits hm]
      rfl
    have hpaths : l.nodes.map (·.path) =
        (List.range l.count).map fun i => l.path ++ decimal (toInt32 (l.start+i : ℕ)) := by
      rw [hes, List.map_map]
      rfl
    rw [makeNodes_free _ _ hu hgid hne, hmode, ← hes, ← hpaths]
    · unfold outcome
      rw [hfind _ rfl]
    · rw [← hpaths]
      exact hnodup
    · intro i hi
      obtain ⟨e, he, hep⟩ : ∃ e ∈ l.nodes, e.path = l.path ++ decimal (toInt32 (l.start+i : ℕ)) := by
        rw [hes]
        exact ⟨_, List.mem_map_of_mem hi, rfl⟩
      rw [← hep]
      exact hnew e he
    · intro i hi
      rw [hname hi, dirname_append hg.absolute (slash_notMem_decimal _)]
      exact hdir
    · intro i hi
      have hmem : l.file (l.path ++ decimal (l.start+i : ℕ)) (l.minor+i*l.increment) ∈ l.expand := by
        rw [Line.expand, if_neg h0]
        exact List.mem_map_of_mem hi
      rw [Jffs2.makedev, hmajor]
      exact hhost _ hmem

/-- What `makedevs` does with the type of a node. -/
theorem makeFiles_node (ht : l.Supported) (h66 : l.type ≠ 0x66#8) (h64 : l.type ≠ 0x64#8)
    (f : Fields) :
    makeFiles env host path l.type f = makeNodes env host path f (f.mode ||| l.bits) := by
  have h72 : l.type ≠ 0x72#8 := by
    rintro h
    rw [Line.Supported, h] at ht
    revert ht
    decide
  unfold makeFiles Line.bits
  rw [if_neg h64, if_neg h66, if_neg h72, if_neg h64, if_neg h66]
  split
  · rfl
  split
  · rfl
  next h70 h63 =>
  have h62 : l.type = 0x62#8 := by simpa [Line.Supported, h64, h66, h70, h63] using ht
  rw [if_pos h62]

/-- A directory or a regular file that is there when its attributes are set. -/
theorem setOwnerMode_made {e : Entry} (hm : l.mode &&& S_IFMT = 0)
    (hkind : l.type = 0x64#8 ∨ l.type = 0x66#8) (he : find host l.path = some e)
    (hty : e.type = l.bits) (h1 : e.major = 0) (h2 : e.minor = 0) (hu : l.uid ≠ 2^32-1)
    (hgid : l.gid ≠ 2^32-1) :
    ∃ m, outcome [l.path] (setOwnerMode host l.path (l.mode%2^32) l.uid l.gid) = (false, m) ∧
      m.made.map Entry.view = l.makedevsFiles := by
  have hmode : l.mode%2^32 &&& 0o7777 = l.mode &&& 0o7777 := mod_and _ (by decide)
  have hne : l.mode%2^32 ≠ 2^32-1 := mode_ne_minus_one (by rw [mod_and _ (by decide), hm]; decide)
  obtain ⟨h', hs, hf⟩ := setOwnerMode_there he hu hgid hne
  rw [hmode, hty, h1, h2] at hf
  rw [hs, outcome, List.filterMap_cons_some hf]
  refine ⟨_, rfl, ?_⟩
  rw [Line.makedevsFiles, if_pos hkind]
  simp [Entry.view, Entry.type, Entry.perm, Line.plain, type_or_perm l.bits_type.1,
    perm_or_perm l.bits_type.2.1]

/-- `makedevs` on the fields of a line. -/
theorem makeFiles_made (ht : l.Supported) (hm : l.mode &&& S_IFMT = 0) (hr : l.InRange)
    (hg : GoodPath l.path) (hu : l.uid ≠ 2^32-1) (hgid : l.gid ≠ 2^32-1) (hroom : Room host l)
    (hhost : l.Hosted) :
    ∃ m, makeFiles env host l.path l.type ⟨l.mode%2^32, l.uid, l.gid, l.major, l.minor, l.start,
        l.increment, l.count⟩ = (false, m) ∧ m.made.map Entry.view = l.makedevsFiles := by
  by_cases h64 : l.type = 0x64#8
  · have hbits : l.bits = S_IFDIR := by simp [Line.bits, h64]
    obtain ⟨e, he, hty, h1, h2⟩ := @bbMakeDirectory_there env _ _
      (l.mode%2^32 ||| S_IFDIR) hroom.above (fun e he => hbits ▸ hroom.there (.inr h64) e he)
    rw [makeFiles, if_pos h64]
    exact setOwnerMode_made hm (.inl h64) he (hty.trans hbits.symm) h1 h2 hu hgid
  by_cases h66 : l.type = 0x66#8
  · have hbits : l.bits = S_IFREG := by simp [Line.bits, h66]
    obtain ⟨e, he⟩ := Option.isSome_iff_exists.mp (hroom.file h66)
    obtain ⟨hty, h1, h2⟩ := hroom.there (.inl h66) e he
    rw [makeFiles, if_neg h64, if_pos h66, if_neg (by rw [he]; simp [hty, hbits])]
    exact setOwnerMode_made hm (.inr h66) he hty h1 h2 hu hgid
  rw [makeFiles_node ht h66 h64]
  dsimp only
  rw [makeNodes_made hm hr hg hu hgid (hroom.above _ List.mem_cons_self) (hroom.free h66 h64)
    (hhost h66 h64)]
  exact ⟨_, rfl, Line.nodes_view ht h66 h64⟩

/-- A device number that the host does not take. -/
theorem makeFiles_failed (ht : l.Supported) (hr : l.InRange) (hhost : ¬l.Hosted) :
    ∃ m, makeFiles env host l.path l.type ⟨l.mode%2^32, l.uid, l.gid, l.major, l.minor, l.start,
        l.increment, l.count⟩ = (true, m) := by
  obtain ⟨r1, -⟩ := hr
  have hmajor : l.major%2^32 = l.major := Nat.mod_eq_of_lt (by omega)
  unfold Line.Hosted at hhost
  push Not at hhost
  obtain ⟨h66, h64, v, hv, hbad⟩ := hhost
  have hbad' : ¬(v.major < 2^12 ∧ v.minor < 2^20) := fun h => absurd h.2 (not_lt.mpr (hbad h.1))
  rw [makeFiles_node ht h66 h64]
  unfold makeNodes
  by_cases h0 : l.count = 0
  · rw [Line.expand, if_pos h0, List.mem_singleton] at hv
    subst hv
    rw [if_neg (by simp [h0])]
    refine ⟨_, Prod.ext ?_ rfl⟩
    refine makeNode_failed (.inr ?_)
    rw [Jffs2.makedev, hmajor]
    exact hbad'
  · rw [Line.expand, if_neg h0] at hv
    obtain ⟨i, hi, rfl⟩ := List.mem_map.mp hv
    rw [if_pos (by simp only; omega)]
    refine ⟨_, Prod.ext ?_ rfl⟩
    refine makeNodes_failed _ _ _ (.inr ⟨i, hi, ?_⟩)
    rw [Jffs2.makedev, hmajor]
    exact hbad'

/-- The numbers behind the group are below 2^32. -/
def Line.Words (l : Line) : Prop :=
  l.major < 2^32 ∧ l.minor < 2^32 ∧ l.start < 2^32 ∧ l.increment < 2^32 ∧ l.count < 2^32

theorem Line.InRange.words (h : l.InRange) : l.Words := by
  unfold Line.InRange at h
  unfold Line.Words
  omega

theorem makedevs_fields (hw : l.Words) (mode uid gid : ℕ) :
    fields mode uid gid l.numbers =
      ⟨mode%2^32, uid, gid, l.major, l.minor, l.start, l.increment, l.count⟩ := by
  obtain ⟨h1, h2, h3, h4, h5⟩ := hw
  unfold fields
  rw [Nat.mod_eq_of_lt (a := l.numbers.getD 0 0) h1, Nat.mod_eq_of_lt (a := l.numbers.getD 1 0) h2,
    Nat.mod_eq_of_lt (a := l.numbers.getD 2 0) h3, Nat.mod_eq_of_lt (a := l.numbers.getD 3 0) h4,
    Nat.mod_eq_of_lt (a := l.numbers.getD 4 0) h5]
  rfl

/-- The range that `makedevs` tests in one step. -/
theorem inRange_iff (l : Line) (mode uid gid : ℕ) :
    Fields.inRange ⟨mode, uid, gid, l.major, l.minor, l.start, l.increment, l.count⟩ ↔
      l.InRange := by
  have hor (x y : ℕ) : x ||| y ≤ 0xfffff ↔ x ≤ 0xfffff ∧ y ≤ 0xfffff := by
    constructor
    · exact fun h => ⟨Nat.left_le_or.trans h, Nat.right_le_or.trans h⟩
    · rintro ⟨hx, hy⟩
      have := Nat.or_lt_two_pow (n := 20) (x := x) (y := y) (by omega) (by omega)
      omega
  unfold Fields.inRange Line.InRange
  simp only [hor]
  tauto

theorem ident_digits {t : List Byte} (hne : t ≠ []) (hd : ∀ b ∈ t, isDigit 10 b = true)
    (own : ℕ) (getnam : List Byte → Option ℕ) :
    ident own getnam t = some (toULong false (magnitude 10 t)%2^32) := by
  unfold ident
  rw [if_neg hne, getUgId_digits hne hd]
  rfl

/-- A line in the range of `makedevs` comes to its files. -/
theorem interpretLine_eq (hp : Plain line l) (hg : GoodPath l.path) (hr : l.InRange) :
    interpretLine env host line = .ok (makeFiles env host l.path l.type
      ⟨l.mode%2^32, l.uid, l.gid, l.major, l.minor, l.start, l.increment, l.count⟩) := by
  obtain ⟨rest, hhead, -, htail, hune, hgne⟩ := hp.scan
  have hhash : l.path.head? ≠ some 0x23#8 := by rw [hg.absolute]; decide
  unfold interpretLine
  rw [hhead 4095 (hp.path_short.trans (by omega))]
  dsimp only
  rw [htail, makedevs_fields hr.words, if_neg (not_not.mpr ((inRange_iff l _ _ _).mpr hr)),
    if_neg hhash, ident_digits hgne hp.group_digits, ident_digits hune hp.user_digits,
    concatPathFile_good hg]
  rfl

/-- The check of `makedevs` that the other two do not have. -/
theorem makedevs_invalid (hp : Plain line l) (hw : l.Words) (hr : ¬l.InRange) :
    interpretLine env host line = .ok (invalid host line) := by
  obtain ⟨rest, hhead, -, htail, -, -⟩ := hp.scan
  unfold interpretLine
  rw [hhead 4095 (hp.path_short.trans (by omega))]
  dsimp only
  rw [htail, makedevs_fields hw, if_pos (fun h => hr ((inRange_iff l _ _ _).mp h))]

end Makedevs

/-- The lines of which the three programs make the same. -/
theorem Line.files_iff {l : Line} (ht : l.Supported) (hr : l.InRange) (root : List Entry) :
    (l.jffs2Files root = l.expand ∧ l.makedevsFiles = l.expand) ↔ l.DeviceFields := by
  obtain ⟨-, r2, -, -, -⟩ := hr
  have hminor : l.minor%2^32 = l.minor := Nat.mod_eq_of_lt (by omega)
  by_cases hdev : l.isDevice
  · have h64 : ¬(l.type = 0x64#8 ∨ l.type = 0x66#8) := fun h => Line.not_device h.symm hdev
    have h70 : l.type ≠ 0x70#8 := by
      rintro h
      rcases hdev with hd | hd <;> rw [h] at hd <;> cases hd
    unfold Line.jffs2Files Line.makedevsFiles
    rw [if_pos hdev, if_neg h64, if_neg h70]
    exact ⟨fun _ => .inl hdev, fun _ => ⟨rfl, rfl⟩⟩
  constructor
  · rintro ⟨hj, hm⟩
    refine .inr ?_
    -- the one file of mkfs.jffs2 has the path of the line
    have hone : ∃ v, l.expand = [v] ∧ v.path = l.path := by
      rw [← hj, Line.jffs2Files, if_neg hdev]
      split
      · exact ⟨_, rfl, rfl⟩
      · exact ⟨_, rfl, rfl⟩
    have h0 : l.count = 0 := by
      by_contra hne
      obtain ⟨v, hv, hpath⟩ := hone
      rw [Line.expand, if_neg hne] at hv
      have hmem : l.file (l.path ++ decimal (l.start+0 : ℕ)) (l.minor+0*l.increment) ∈ [v] := by
        rw [← hv]
        exact List.mem_map.mpr ⟨0, List.mem_range.mpr (by omega), rfl⟩
      have hname : l.path ++ decimal (l.start+0 : ℕ) = l.path :=
        (congrArg View.path (List.mem_singleton.mp hmem)).trans hpath
      exact decimal_ne_nil (l.start+0) (List.append_right_eq_self.mp hname)
    rw [Line.expand, if_pos h0] at hm
    unfold Line.makedevsFiles at hm
    refine ⟨h0, ?_⟩
    split at hm
    · have hv := (List.cons.inj hm).1
      exact ⟨(congrArg View.major hv).symm, hminor.symm.trans (congrArg View.minor hv).symm⟩
    next hkind =>
      have h70 := Line.fifo_type ht hdev fun h => hkind h.symm
      rw [if_pos h70, Line.expand, if_pos h0] at hm
      have hv := (List.cons.inj hm).1
      exact ⟨(congrArg View.major hv).symm, hminor.symm.trans (congrArg View.minor hv).symm⟩
  · intro hd
    obtain ⟨h0, hmajor, hmin⟩ := hd.resolve_left hdev
    have hexp : l.expand = [l.plain] := by
      rw [Line.expand, if_pos h0, Line.file, hmajor, hmin]
      rfl
    unfold Line.jffs2Files Line.makedevsFiles
    rw [if_neg hdev, if_neg fun h => h.2.1 hmajor, hexp]
    refine ⟨rfl, ?_⟩
    split
    · rfl
    split
    · rfl
    · rfl

/-- A root directory with `/dev` in it. -/
def devTree : List Entry :=
  [⟨literal "/", S_IFDIR ||| 0o755, 0, 0, 0, 0⟩, ⟨literal "/dev", S_IFDIR ||| 0o755, 0, 0, 0, 0⟩]

def devEnv : Makedevs.Env := ⟨fun _ => none, fun _ => none, 0, 0, [], []⟩

def ttyLine : List Byte := literal "/dev/tty c 666 0 5 4 7 1 2 3"

def tty : Line := ⟨literal "/dev/tty", 0x63#8, 0o666, literal "0", literal "5", [4, 7, 1, 2, 3]⟩

/-- The line is a plain one, the tree has room for it, and its fields are in range. -/
theorem tty_plain : Plain ttyLine tty ∧ Room devTree tty ∧ GoodPath tty.path ∧ tty.Supported ∧
    tty.mode &&& S_IFMT = 0 ∧ tty.Words ∧ tty.uid ≠ 2^32-1 ∧ tty.gid ≠ 2^32-1 ∧
    (∀ v ∈ tty.expand, find [] v.path = none) ∧ tty.InRange ∧ tty.Hosted ∧ 0 < tty.count ∧
    tty.expand.map (fun v => (v.path, v.minor)) =
      [(literal "/dev/tty1", 7), (literal "/dev/tty2", 9), (literal "/dev/tty3", 11)] := by
  refine ⟨⟨?_, ?_, ?_, ?_, ?_, ?_⟩, ⟨?_, ?_, ?_, ?_, ?_⟩, ⟨?_, ?_⟩, ?_⟩
  · exact ⟨literal " c 666 0 5 4 7 1 2 3", literal " 666 0 5 4 7 1 2 3", literal " 0 5 4 7 1 2 3",
      literal " 5 4 7 1 2 3", literal " 4 7 1 2 3", by decide +kernel, by decide +kernel,
      by decide +kernel, by decide +kernel, by decide +kernel, by decide +kernel⟩
  on_goal 13 => unfold Line.Supported Line.Words Line.InRange Line.Hosted
  all_goals decide +kernel

end ChipTools.DevTable
