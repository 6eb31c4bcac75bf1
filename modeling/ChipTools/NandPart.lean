import ChipTools.CNumber
import Mathlib.Algebra.Order.BigOperators.Group.List

/-! `sunxi-nand-part`: the partition tables of the A10 and A20, as `nand_part` writes them from its
arguments and `_get_mbr` reads them. -/
namespace ChipTools.NandPart
open Bytes CNumber

section Tables

/-- The two layouts of the table. -/
inductive Soc
  | a10
  | a20
deriving DecidableEq

namespace Soc

def MBR_MAGIC : Soc → List Byte
  | a10 => literal "softw311"
  | a20 => literal "softw411"

def MBR_VERSION : Soc → ℕ
  | a10 => 0x100
  | a20 => 0x200

def MAX_PART_COUNT : Soc → ℕ
  | a10 => 15
  | a20 => 120

def MBR_SIZE : Soc → ℕ
  | a10 => 1024
  | a20 => 16384

/-- Where `index`, `PartCount` and the partitions are in a table, with the sizes of the first two. -/
def indexAt : Soc → ℕ × ℕ
  | a10 => (17, 1)
  | a20 => (20, 4)

def countAt : Soc → ℕ × ℕ
  | a10 => (18, 2)
  | a20 => (24, 4)

def arrayAt : Soc → ℕ
  | a10 => 20
  | a20 => 32

/-- The size of a partition, and where its fields are, those with a size of their own with that. -/
def partSize : Soc → ℕ
  | a10 => 64
  | a20 => 128

def nameAt : Soc → ℕ × ℕ
  | a10 => (28, 12)
  | a20 => (32, 16)

def userTypeAt : Soc → ℕ
  | a10 => 40
  | a20 => 48

def roAt : Soc → ℕ
  | a10 => 44
  | a20 => 56

def resAt : Soc → ℕ × ℕ
  | a10 => (48, 16)
  | a20 => (60, 68)

end Soc

def MBR_COPY_NUM : ℕ := 4

def MAX_NAME : ℕ := 16

/-- One entry of the table that `calc_crc32` builds. -/
def crcEntry (i : BitVec 32) : BitVec 32 :=
  (List.range 8).foldl (fun crc _ =>
    if crc &&& 1#32 ≠ 0#32 then (crc >>> 1) ^^^ 0xEDB88320#32 else crc >>> 1) i

def calcCrc32 (bs : List Byte) : BitVec 32 :=
  bs.foldl (fun crc b => crcEntry ((crc ^^^ b.setWidth 32) &&& 0xff#32) ^^^ (crc >>> 8))
    0xffffffff#32 ^^^ 0xffffffff#32

variable (soc : Soc)

/-- The fields of the table `m`. -/
def crcOf (m : ℕ → Byte) : ℕ := leVal (readBytes m 0 4)

def versionOf (m : ℕ → Byte) : ℕ := leVal (readBytes m 4 4)

def magicOf (m : ℕ → Byte) : List Byte := readBytes m 8 8

def partCount (m : ℕ → Byte) : ℕ := leVal (readBytes m soc.countAt.1 soc.countAt.2)

def partAt (k : ℕ) : ℕ := soc.arrayAt+k*soc.partSize

def addrhi (m : ℕ → Byte) (k : ℕ) : ℕ := leVal (readBytes m (partAt soc k) 4)

def addrlo (m : ℕ → Byte) (k : ℕ) : ℕ := leVal (readBytes m (partAt soc k+4) 4)

def lenhi (m : ℕ → Byte) (k : ℕ) : ℕ := leVal (readBytes m (partAt soc k+8) 4)

def lenlo (m : ℕ → Byte) (k : ℕ) : ℕ := leVal (readBytes m (partAt soc k+12) 4)

/-- `_get_mbr`. -/
def getMbr (dev : ℕ → Byte) (mbr_num : ℕ) (force : Bool) : Option (ℕ → Byte) :=
  let mbr := fun x => dev (soc.MBR_SIZE*mbr_num+x)
  if force then some (copyTo (copyTo mbr 8 soc.MBR_MAGIC) 4 (le 4 soc.MBR_VERSION))
  else if magicOf mbr ≠ soc.MBR_MAGIC then none
  else if versionOf mbr ≠ soc.MBR_VERSION then none
  else if crcOf mbr = (calcCrc32 (readBytes mbr 4 (soc.MBR_SIZE-4))).toNat then some mbr
  else none

/-- The last copy that can be used. -/
def lastMbr (dev : ℕ → Byte) (force : Bool) : Option (ℕ → Byte) :=
  (List.range MBR_COPY_NUM).foldl (fun mbr i =>
    match getMbr soc dev i force with
    | some m => some m
    | none => mbr) none

end Tables

section Arguments

/-- An argument for a partition: the name, the number that stands behind it, and what is stored of
the number and of a second one. -/
structure Spec where
  name : List Byte
  number : ℤ
  len : BitVec 32
  user_type : BitVec 32

def numberOf (s : Subject) : ℤ := if s.neg then -s.magnitude else s.magnitude

/-- `sscanf` with `%s %d %d`: at least two conversions, or none. -/
def scanPart (arg : List Byte) : Option Spec :=
  -- the argument ends with its first NUL
  let s := (arg.takeWhile (· ≠ 0#8)).dropWhile isSpace
  let name := s.takeWhile fun b => !isSpace b
  let rest := s.dropWhile fun b => !isSpace b
  let len := subjectDec rest
  if name = [] ∨ len.digits = [] then none
  else
    let user_type := subjectDec len.endp
    some
      { name := name
        number := numberOf len
        len := BitVec.ofInt 32 (strtolDec rest)
        user_type := if user_type.digits = [] then 0#32 else BitVec.ofInt 32 (strtolDec len.endp) }

/-- `sscanf` with `%u`. -/
def scanStart (arg : List Byte) : Option (BitVec 32) :=
  let s := subjectDec arg
  if s.digits = [] then none
  else some (BitVec.ofNat 32
    (if 2^64 ≤ s.magnitude then 2^64-1 else if s.neg then 2^64-s.magnitude else s.magnitude))

/-- The loop over the arguments. The names go to the array `names`, from the one with index `i`. -/
def parseParts : ℕ → List (List Byte) → (ℕ → Byte) → Option ((ℕ → Byte) × List Spec)
  | _, [], names => some (names, [])
  | i, arg :: args, names =>
    (scanPart arg).bind fun s =>
      (parseParts (i+1) args (copyTo names (MAX_NAME*i) (s.name ++ [0#8]))).map fun r =>
        (r.1, s :: r.2)

end Arguments

section Write

variable (soc : Soc)

/-- The string at `p`, with a bound on where it ends. -/
def stringAt (mem : ℕ → Byte) (p bound : ℕ) : List Byte :=
  (readBytes mem p bound).takeWhile (· ≠ 0#8)

/-- One partition of the table. -/
def fillPart (name : List Byte) (start len user_type : BitVec 32) (e : ℕ) (m : ℕ → Byte) : ℕ → Byte :=
  let m := copyTo m (e+soc.nameAt.1) (name ++ [0#8])
  let m := copyTo m (e+16) (literal "DISK" ++ [0#8])
  let m := setTo m (e+soc.resAt.1) soc.resAt.2 0#8
  let m := copyTo m (e+soc.userTypeAt) (le 4 user_type.toNat)
  let m := copyTo m (e+soc.roAt) (le 4 0)
  let m := copyTo m e (le 4 0)
  let m := copyTo m (e+8) (le 4 0)
  let m := copyTo m (e+4) (le 4 start.toNat)
  copyTo m (e+12) (le 4 len.toNat)

/-- The loop over the new partitions, from index `i` on. -/
def fillParts (names : ℕ → Byte) (bound partoffset : ℕ) :
    ℕ → BitVec 32 → List Spec → (ℕ → Byte) → (ℕ → Byte)
  | _, _, [], m => m
  | i, start, s :: specs, m =>
    fillParts names bound partoffset (i+1) (start+s.len) specs
      (fillPart soc (stringAt names (MAX_NAME*i) bound) start s.len s.user_type
        (partAt soc (i+partoffset)) m)

/-- The loop over the copies: the index and the checksum are set, and the table is written. -/
def writeCopies (m dev : ℕ → Byte) : (ℕ → Byte) × (ℕ → Byte) :=
  (List.range MBR_COPY_NUM).foldl (fun r i =>
    let m := copyTo r.1 soc.indexAt.1 (le soc.indexAt.2 i)
    let m := copyTo m 0 (le 4 (calcCrc32 (readBytes m 4 (soc.MBR_SIZE-4))).toNat)
    (m, copyTo r.2 (soc.MBR_SIZE*i) (readBytes m 0 soc.MBR_SIZE))) (m, dev)

/-- What `nand_part` writes new tables from. -/
structure Job where
  partoffset : ℕ
  start : BitVec 32
  names : ℕ → Byte
  specs : List Spec
  mbr : ℕ → Byte

variable (freed : (ℕ → Byte) → ℕ → Byte)

/-- The table of a job, in memory. -/
def Job.table (job : Job) (bound : ℕ) : ℕ → Byte :=
  let m := copyTo job.mbr soc.countAt.1 (le soc.countAt.2 (job.specs.length+job.partoffset))
  fillParts soc job.names bound job.partoffset 0 job.start job.specs m

/-- What is written then. The table is freed before it is written; `freed` is what its memory holds
from then on. -/
def Job.write (job : Job) (bound : ℕ) (dev : ℕ → Byte) : ℕ → Byte :=
  (writeCopies soc (freed (job.table soc bound)) dev).2

/-- How `nand_part` ends. -/
inductive Outcome
  | rejected (code : ℤ)
  | unchanged
  | tables (job : Job) (dev : ℕ → Byte)

def Outcome.writes : Outcome → Bool
  | .tables _ _ => true
  | _ => false

/-- The end of all strings in `names`. -/
def nameBound (args : List (List Byte)) : ℕ := MAX_NAME*args.length+(args.map List.length).sum+1

/-- `nand_part`. `stack` is what `start` holds before it is set, `names` what the array holds;
`backup` is whether the backup file can be opened, and `yes` the answer to the question. -/
def nandPart (force : Bool) (stack : BitVec 32) (names : ℕ → Byte) (backup yes : Bool)
    (dev : ℕ → Byte) (args : List (List Byte)) : Outcome :=
  match args with
  | [] => .unchanged
  | arg :: rest =>
    let partoffset := if (scanStart arg).isSome then 0 else 1
    if partoffset = 1 ∧ force then .rejected (-3)
    else
      let start := (scanStart arg).getD stack
      let args := if partoffset = 0 then rest else arg :: rest
      if start.toNat < soc.MBR_SIZE*MBR_COPY_NUM/512 then .rejected (-3)
      else
        match parseParts 0 args names with
        | none => .rejected (-3)
        | some (names, specs) =>
          if soc.MAX_PART_COUNT-partoffset < args.length then .rejected (-2)
          else if args = [] then .unchanged
          else
            match lastMbr soc dev force with
            | none => .unchanged
            | some mbr =>
              if !backup ∨ !yes then .unchanged
              else
                -- without a start, the first partition stays
                let start := if partoffset = 0 then start
                  else BitVec.ofNat 32 (addrlo soc mbr 0+lenlo soc mbr 0)
                let job : Job := ⟨partoffset, start, names, specs, mbr⟩
                .tables job (job.write soc freed (nameBound args) dev)

end Write

section Spec

variable (soc : Soc)

/-- The name `name` with its end in the field at `p` of `size` bytes. -/
def NameIs (m : ℕ → Byte) (p size : ℕ) (name : List Byte) : Prop :=
  name.length < size ∧ readBytes m p (name.length+1) = name ++ [0#8]

/-- The table lists the partitions of a job behind those that stay, one behind the other from after
the copies of the table on, without a wrap-around. -/
structure TableOk (job : Job) (m : ℕ → Byte) : Prop where
  count : partCount soc m = job.specs.length+job.partoffset
  max : partCount soc m ≤ soc.MAX_PART_COUNT
  names : ∀ j s, job.specs[j]? = some s →
    NameIs m (partAt soc (j+job.partoffset)+soc.nameAt.1) soc.nameAt.2 s.name
  lens : ∀ j s, job.specs[j]? = some s → (lenlo soc m (j+job.partoffset) : ℤ) = s.number ∧
    lenhi soc m (j+job.partoffset) = 0 ∧ addrhi soc m (j+job.partoffset) = 0
  first : soc.MBR_SIZE*MBR_COPY_NUM/512 ≤ addrlo soc m 0
  next : ∀ k, k+1 < partCount soc m → addrlo soc m (k+1) = addrlo soc m k+lenlo soc m k
  bound : ∀ k < partCount soc m, addrlo soc m k+lenlo soc m k < 2^32

/-- All copies that were written are accepted and right. -/
def Outcome.Sane : Outcome → Prop
  | .tables job dev => ∀ i < MBR_COPY_NUM, ∃ m, getMbr soc dev i false = some m ∧ TableOk soc job m
  | _ => True

/-- The arguments of a job are good: the names fit into their fields, no length is negative, the
first partition is a good one if it stays, and the last one ends below 2^32 sectors. -/
structure Job.Good (job : Job) : Prop where
  names : ∀ s ∈ job.specs, s.name.length < soc.nameAt.2
  numbers : ∀ s ∈ job.specs, 0 ≤ s.number
  stays : job.partoffset = 1 → soc.MBR_SIZE*MBR_COPY_NUM/512 ≤ addrlo soc job.mbr 0 ∧
    addrlo soc job.mbr 0+lenlo soc job.mbr 0 < 2^32
  room : job.start.toNat+(job.specs.map Spec.number).sum < 2^32

def Outcome.Good : Outcome → Prop
  | .tables job _ => job.Good soc
  | _ => True

end Spec

section Layout

variable (soc : Soc)

/-- How the fields lie. -/
structure Soc.Layout : Prop where
  index : 16 ≤ soc.indexAt.1 ∧ soc.indexAt.1+soc.indexAt.2 ≤ soc.countAt.1
  count : soc.countAt.1+soc.countAt.2 ≤ soc.arrayAt
  array : soc.arrayAt+soc.MAX_PART_COUNT*soc.partSize ≤ soc.MBR_SIZE
  classname : 21 ≤ soc.nameAt.1
  name : soc.nameAt.1+soc.nameAt.2 ≤ soc.userTypeAt ∧ soc.nameAt.2 ≤ MAX_NAME
  user_type : soc.userTypeAt+4 ≤ soc.roAt
  ro : soc.roAt+4 ≤ soc.resAt.1
  res : soc.resAt.1+soc.resAt.2 ≤ soc.partSize
  max : soc.MAX_PART_COUNT < 256^soc.countAt.2
  magic : soc.MBR_MAGIC.length = 8

theorem layout : soc.Layout := by
  cases soc <;> constructor <;> decide

variable {soc} {m : ℕ → Byte} {e : ℕ} {name : List Byte} {start len user_type : BitVec 32}

theorem readBytes_setTo_outside {buf : ℕ → Byte} {o n p k : ℕ} {b : Byte}
    (h : p+k ≤ o ∨ o+n ≤ p) : readBytes (setTo buf o n b) p k = readBytes buf p k :=
  readBytes_congr fun i hi => if_neg (by omega)

/-- The fields of a partition that was filled in. -/
structure Filled (soc : Soc) (m : ℕ → Byte) (e : ℕ) (name : List Byte) (start len : ℕ) : Prop where
  name : NameIs m (e+soc.nameAt.1) soc.nameAt.2 name
  addrhi : leVal (readBytes m e 4) = 0
  addrlo : leVal (readBytes m (e+4) 4) = start
  lenhi : leVal (readBytes m (e+8) 4) = 0
  lenlo : leVal (readBytes m (e+12) 4) = len

theorem fillPart_filled (hname : name.length < soc.nameAt.2) :
    Filled soc (fillPart soc name start len user_type e m) e name start.toNat len.toNat := by
  obtain ⟨-, -, -, hclass, hfield, huser, hro, hres, -, -⟩ := layout soc
  have hdisk : (literal "DISK" ++ [0#8]).length = 5 := by decide
  have hend : (name ++ [0#8]).length = name.length+1 := by simp
  have h32 (v : BitVec 32) : leVal (le 4 v.toNat) = v.toNat := leVal_le_of_lt v.isLt
  unfold fillPart
  refine ⟨⟨hname, ?_⟩, ?_, ?_, ?_, ?_⟩
  · rw [readBytes_copyTo_outside (by rw [le_length]; omega),
      readBytes_copyTo_outside (by rw [le_length]; omega),
      readBytes_copyTo_outside (by rw [le_length]; omega),
      readBytes_copyTo_outside (by rw [le_length]; omega),
      readBytes_copyTo_outside (by rw [le_length]; omega),
      readBytes_copyTo_outside (by rw [le_length]; omega),
      readBytes_setTo_outside (by omega), readBytes_copyTo_outside (by omega),
      readBytes_copyTo_of_length hend]
  · rw [readBytes_copyTo_outside (by rw [le_length]; omega),
      readBytes_copyTo_outside (by rw [le_length]; omega),
      readBytes_copyTo_outside (by rw [le_length]; omega),
      readBytes_copyTo_of_length (le_length 4 0)]
    rfl
  · rw [readBytes_copyTo_outside (by rw [le_length]; omega),
      readBytes_copyTo_of_length (le_length 4 _), h32]
  · rw [readBytes_copyTo_outside (by rw [le_length]; omega),
      readBytes_copyTo_outside (by rw [le_length]; omega),
      readBytes_copyTo_of_length (le_length 4 0)]
    rfl
  · rw [readBytes_copyTo_of_length (le_length 4 _), h32]

/-- Nothing else changes. -/
theorem fillPart_outside (hname : name.length < soc.nameAt.2) {x : ℕ}
    (hx : x < e ∨ e+soc.partSize ≤ x) :
    fillPart soc name start len user_type e m x = m x := by
  obtain ⟨-, -, -, hclass, hfield, huser, hro, hres, -, -⟩ := layout soc
  have hdisk : (literal "DISK" ++ [0#8]).length = 5 := by decide
  have hend : (name ++ [0#8]).length = name.length+1 := by simp
  unfold fillPart
  rw [copyTo_outside (by rw [le_length]; omega), copyTo_outside (by rw [le_length]; omega),
    copyTo_outside (by rw [le_length]; omega), copyTo_outside (by rw [le_length]; omega),
    copyTo_outside (by rw [le_length]; omega), copyTo_outside (by rw [le_length]; omega), setTo,
    if_neg (by omega), copyTo_outside (by omega), copyTo_outside (by omega)]

theorem Filled.congr {m' : ℕ → Byte} {start len : ℕ} (h : Filled soc m e name start len)
    (heq : ∀ x, e ≤ x → x < e+soc.partSize → m' x = m x) : Filled soc m' e name start len := by
  obtain ⟨-, -, -, hclass, hfield, huser, hro, hres, -, -⟩ := layout soc
  have hlen := h.name.1
  have hread (p n : ℕ) (h1 : e ≤ p) (h2 : p+n ≤ e+soc.partSize) :
      readBytes m' p n = readBytes m p n :=
    readBytes_congr fun i hi => heq _ (by omega) (by omega)
  refine ⟨⟨hlen, ?_⟩, ?_, ?_, ?_, ?_⟩
  · rw [hread _ _ (by omega) (by omega)]
    exact h.name.2
  · rw [hread _ _ (by omega) (by omega)]
    exact h.addrhi
  · rw [hread _ _ (by omega) (by omega)]
    exact h.addrlo
  · rw [hread _ _ (by omega) (by omega)]
    exact h.lenhi
  · rw [hread _ _ (by omega) (by omega)]
    exact h.lenlo

end Layout

section Parse

/-- A name of fewer than 16 bytes is read back from the array. -/
theorem stringAt_copyTo {mem : ℕ → Byte} {p bound : ℕ} {name : List Byte} (hnul : 0#8 ∉ name)
    (hmem : readBytes mem p (name.length+1) = name ++ [0#8]) (hbound : name.length < bound) :
    stringAt mem p bound = name := by
  obtain ⟨r, hr⟩ := Nat.exists_eq_add_of_le (Nat.succ_le_of_lt hbound)
  unfold stringAt
  rw [hr, readBytes_add, hmem, List.append_assoc, List.takeWhile_append_of_pos, List.singleton_append,
    List.takeWhile_cons_of_neg (by simp), List.append_nil]
  intro b hb
  simp only [decide_eq_true_eq]
  exact fun h => hnul (h ▸ hb)

theorem scanPart_name {arg : List Byte} {s : Spec} (h : scanPart arg = some s) : 0#8 ∉ s.name := by
  unfold scanPart at h
  dsimp only at h
  split at h
  next => cases h
  next =>
    obtain rfl := Option.some.inj h
    intro hmem
    have h1 := (List.takeWhile_sublist _).mem hmem
    have h2 := (List.dropWhile_sublist _).mem h1
    have h3 := List.all_eq_true.mp List.all_takeWhile _ h2
    simp at h3

/-- What is stored of the number: it is first cut to 64 bits. -/
theorem scanPart_len {arg : List Byte} {s : Spec} (h : scanPart arg = some s) :
    s.len = BitVec.ofInt 32 (max (-2^63) (min (2^63-1) s.number)) := by
  unfold scanPart at h
  dsimp only at h
  split at h
  next => cases h
  next =>
    obtain rfl := Option.some.inj h
    dsimp only
    congr 1
    unfold strtolDec numberOf
    dsimp only
    split
    · omega
    · omega

/-- The names of a job are in its array, and what is stored of its numbers. -/
structure Parsed (names : ℕ → Byte) (bound i : ℕ) (specs : List Spec) : Prop where
  names : ∀ j s, specs[j]? = some s → stringAt names (MAX_NAME*(i+j)) bound = s.name
  lens : ∀ s ∈ specs, s.len = BitVec.ofInt 32 (max (-2^63) (min (2^63-1) s.number))

theorem parseParts_length {i : ℕ} {args : List (List Byte)} {names names' : ℕ → Byte}
    {specs : List Spec} (h : parseParts i args names = some (names', specs)) :
    specs.length = args.length := by
  induction args generalizing i names specs with
  | nil =>
    obtain ⟨rfl, rfl⟩ := Prod.mk.inj (Option.some.inj h)
    rfl
  | cons arg args ih =>
    obtain ⟨s, hs, hrest⟩ := Option.bind_eq_some_iff.mp h
    obtain ⟨⟨names1, specs1⟩, hrun, heq⟩ := Option.map_eq_some_iff.mp hrest
    obtain ⟨rfl, rfl⟩ := Prod.mk.inj heq
    rw [List.length_cons, List.length_cons, ih hrun]

theorem parseParts_parsed {i bound : ℕ} {args : List (List Byte)} {names names' : ℕ → Byte}
    {specs : List Spec} (h : parseParts i args names = some (names', specs))
    (hshort : ∀ s ∈ specs, s.name.length < MAX_NAME) (hbound : MAX_NAME ≤ bound) :
    Parsed names' bound i specs ∧ ∀ x < MAX_NAME*i, names' x = names x := by
  induction args generalizing i names specs with
  | nil =>
    obtain ⟨rfl, rfl⟩ := Prod.mk.inj (Option.some.inj h)
    exact ⟨⟨fun j s hs => absurd hs (by simp), fun s hs => absurd hs List.not_mem_nil⟩,
      fun x _ => rfl⟩
  | cons arg args ih =>
    obtain ⟨s, hs, hrest⟩ := Option.bind_eq_some_iff.mp h
    obtain ⟨⟨names1, specs1⟩, hrun, heq⟩ := Option.map_eq_some_iff.mp hrest
    obtain ⟨rfl, rfl⟩ := Prod.mk.inj heq
    obtain ⟨hparsed, hframe⟩ := ih hrun fun t ht => hshort t (List.mem_cons_of_mem _ ht)
    have hsname := hshort s List.mem_cons_self
    have hend : (s.name ++ [0#8]).length = s.name.length+1 := by simp
    refine ⟨⟨?_, ?_⟩, ?_⟩
    · intro j t ht
      cases j with
      | zero =>
        obtain rfl := Option.some.inj ht
        refine stringAt_copyTo (scanPart_name hs) ?_ (by omega)
        rw [readBytes_congr fun k hk => hframe _ (by unfold MAX_NAME at hsname ⊢; omega),
          Nat.add_zero, readBytes_copyTo_of_length hend]
      | succ j =>
        rw [show i+(j+1) = i+1+j from by omega]
        exact hparsed.names j t ht
    · intro t ht
      rcases List.mem_cons.mp ht with rfl | ht
      · exact scanPart_len hs
      · exact hparsed.lens t ht
    · intro x hx
      rw [hframe x (by unfold MAX_NAME at hx ⊢; omega), copyTo_below hx]

end Parse

section Fill

variable {soc : Soc} {names : ℕ → Byte} {bound partoffset : ℕ}

theorem partAt_succ (k : ℕ) : partAt soc (k+1) = partAt soc k+soc.partSize := by
  unfold partAt
  ring

theorem partAt_mono {k l : ℕ} (h : k ≤ l) : partAt soc k ≤ partAt soc l := by
  unfold partAt
  have := Nat.mul_le_mul_right soc.partSize h
  omega

/-- The start of the partition `j` behind a start. -/
def startOf (start : BitVec 32) (specs : List Spec) (j : ℕ) : BitVec 32 :=
  (specs.take j).foldl (fun start s => start+s.len) start

theorem fillParts_filled {i : ℕ} {start : BitVec 32} {specs : List Spec} {m : ℕ → Byte}
    (hshort : ∀ s ∈ specs, s.name.length < soc.nameAt.2) (hp : Parsed names bound i specs) :
    (∀ j s, specs[j]? = some s →
      Filled soc (fillParts soc names bound partoffset i start specs m)
        (partAt soc (i+j+partoffset)) s.name (startOf start specs j).toNat s.len.toNat) ∧
    ∀ x, x < partAt soc (i+partoffset) ∨ partAt soc (i+partoffset+specs.length) ≤ x →
      fillParts soc names bound partoffset i start specs m x = m x := by
  induction specs generalizing i start m with
  | nil => exact ⟨fun j s hs => absurd hs (by simp), fun x _ => rfl⟩
  | cons s specs ih =>
    have hname : stringAt names (MAX_NAME*i) bound = s.name := hp.names 0 s rfl
    have hlt := hshort s List.mem_cons_self
    have hrest : Parsed names bound (i+1) specs := by
      refine ⟨fun j t ht => ?_, fun t ht => hp.lens t (List.mem_cons_of_mem _ ht)⟩
      have := hp.names (j+1) t ht
      rwa [show i+(j+1) = i+1+j from by omega] at this
    obtain ⟨hfill, hframe⟩ := @ih (i+1) (start+s.len)
      (fillPart soc s.name start s.len s.user_type (partAt soc (i+partoffset)) m)
      (fun t ht => hshort t (List.mem_cons_of_mem _ ht)) hrest
    have hnext := @partAt_succ soc (i+partoffset)
    rw [show i+partoffset+1 = i+1+partoffset from by omega] at hnext
    unfold fillParts
    rw [hname]
    constructor
    · intro j t ht
      cases j with
      | zero =>
        obtain rfl := Option.some.inj ht
        rw [show i+0+partoffset = i+partoffset from rfl]
        exact (@fillPart_filled _ m _ _ start _ s.user_type hlt).congr
          fun x _ h2 => hframe x (.inl (by omega))
      | succ j =>
        have := hfill j t ht
        rwa [show i+1+j+partoffset = i+(j+1)+partoffset from by omega] at this
    · intro x hx
      have hmono := @partAt_mono soc (i+1+partoffset)
        (i+partoffset+(s :: specs).length) (by rw [List.length_cons]; omega)
      rw [hframe x (by
        rw [show i+1+partoffset+specs.length = i+partoffset+(s :: specs).length from by
          rw [List.length_cons]
          omega]
        omega), fillPart_outside hlt (by omega)]

end Fill

section Copies

variable {soc : Soc} {m c dev : ℕ → Byte} {job : Job}

/-- One round of the loop over the copies. -/
def copyStep (soc : Soc) (r : (ℕ → Byte) × (ℕ → Byte)) (i : ℕ) : (ℕ → Byte) × (ℕ → Byte) :=
  let m := copyTo r.1 soc.indexAt.1 (le soc.indexAt.2 i)
  let m := copyTo m 0 (le 4 (calcCrc32 (readBytes m 4 (soc.MBR_SIZE-4))).toNat)
  (m, copyTo r.2 (soc.MBR_SIZE*i) (readBytes m 0 soc.MBR_SIZE))

theorem writeCopies_eq (m dev : ℕ → Byte) :
    writeCopies soc m dev = (List.range MBR_COPY_NUM).foldl (copyStep soc) (m, dev) := rfl

/-- A copy of the table `m`: all but the index and the checksum is that of `m`, and the checksum is
right. -/
structure IsCopy (soc : Soc) (m c : ℕ → Byte) : Prop where
  keeps : ∀ x, 4 ≤ x → x < soc.MBR_SIZE → x < soc.indexAt.1 ∨ soc.indexAt.1+soc.indexAt.2 ≤ x →
    c x = m x
  crc : crcOf c = (calcCrc32 (readBytes c 4 (soc.MBR_SIZE-4))).toNat

theorem copyStep_table (r : (ℕ → Byte) × (ℕ → Byte)) (i : ℕ) : IsCopy soc r.1 (copyStep soc r i).1 := by
  have hrest (m' : ℕ → Byte) (v n : ℕ) : readBytes (copyTo m' 0 (le 4 v)) 4 n = readBytes m' 4 n :=
    readBytes_copyTo_outside (.inr (by rw [le_length]))
  constructor
  · intro x h4 _ hindex
    simp only [copyStep]
    rw [copyTo_outside (by rw [le_length]; omega), copyTo_outside (by rw [le_length]; exact hindex)]
  · simp only [copyStep, crcOf]
    rw [readBytes_copyTo_of_length (le_length 4 _), leVal_le_of_lt (BitVec.isLt _), hrest]

theorem IsCopy.congr {m' c' : ℕ → Byte} (h : IsCopy soc m c)
    (hm : ∀ x, 4 ≤ x → x < soc.MBR_SIZE → x < soc.indexAt.1 ∨ soc.indexAt.1+soc.indexAt.2 ≤ x →
      m x = m' x) (hc : ∀ x < soc.MBR_SIZE, c' x = c x) : IsCopy soc m' c' := by
  obtain ⟨⟨hindex, hlast⟩, hcount, harray, -⟩ := layout soc
  refine ⟨fun x h4 hx hi => by rw [hc x hx, h.keeps x h4 hx hi, hm x h4 hx hi], ?_⟩
  unfold crcOf
  rw [readBytes_congr fun i hi => hc (0+i) (by omega),
    readBytes_congr (o := 4) fun i hi => hc (4+i) (by omega)]
  exact h.crc

theorem foldl_copyStep (k : ℕ) : let r := (List.range k).foldl (copyStep soc) (m, dev)
    (∀ x, 4 ≤ x → x < soc.MBR_SIZE → x < soc.indexAt.1 ∨ soc.indexAt.1+soc.indexAt.2 ≤ x →
      r.1 x = m x) ∧
    ∀ i < k, IsCopy soc m fun x => r.2 (soc.MBR_SIZE*i+x) := by
  induction k with
  | zero => exact ⟨fun _ _ _ _ => rfl, fun i hi => absurd hi (Nat.not_lt_zero i)⟩
  | succ k ih =>
    obtain ⟨htable, hcopies⟩ := ih
    simp only [List.range_succ, List.foldl_append, List.foldl_cons, List.foldl_nil]
    set r := (List.range k).foldl (copyStep soc) (m, dev) with hr
    have hnew : IsCopy soc m (copyStep soc r k).1 :=
      (copyStep_table r k).congr htable fun x _ => rfl
    refine ⟨hnew.keeps, fun i hi => ?_⟩
    have hlen : (readBytes (copyStep soc r k).1 0 soc.MBR_SIZE).length = soc.MBR_SIZE :=
      readBytes_length _ _ _
    rcases Nat.lt_succ_iff_lt_or_eq.mp hi with hlt | rfl
    · refine (hcopies i hlt).congr (fun x _ _ _ => rfl) fun x hx => ?_
      have hle : soc.MBR_SIZE*(i+1) ≤ soc.MBR_SIZE*k := Nat.mul_le_mul_left _ hlt
      exact copyTo_below (by rw [Nat.mul_succ] at hle; omega)
    · refine hnew.congr (fun x _ _ _ => rfl) fun x hx => ?_
      have hget := @copyTo_get r.2 (soc.MBR_SIZE*i) _ x (hlen.symm ▸ hx)
      refine hget.trans ?_
      simp [readBytes]

theorem writeCopies_copy {i : ℕ} (hi : i < MBR_COPY_NUM) :
    IsCopy soc m fun x => (writeCopies soc m dev).2 (soc.MBR_SIZE*i+x) := by
  rw [writeCopies_eq]
  exact (foldl_copyStep MBR_COPY_NUM).2 i hi

/-- A copy is accepted if the table has the right magic and version. -/
theorem getMbr_writeCopies {i : ℕ} (hi : i < MBR_COPY_NUM) :
    getMbr soc (writeCopies soc m dev).2 i false =
      if magicOf m = soc.MBR_MAGIC ∧ versionOf m = soc.MBR_VERSION then
        some fun x => (writeCopies soc m dev).2 (soc.MBR_SIZE*i+x)
      else none := by
  obtain ⟨hkeeps, hcrc⟩ := @writeCopies_copy _ m dev _ hi
  obtain ⟨⟨hindex, hlast⟩, hcount, harray, -⟩ := layout soc
  have hmagic : magicOf (fun x => (writeCopies soc m dev).2 (soc.MBR_SIZE*i+x)) = magicOf m :=
    readBytes_congr fun j hj => hkeeps _ (by omega) (by omega) (by omega)
  have hversion : versionOf (fun x => (writeCopies soc m dev).2 (soc.MBR_SIZE*i+x)) = versionOf m :=
    congrArg leVal (readBytes_congr fun j hj => hkeeps _ (by omega) (by omega) (by omega))
  unfold getMbr
  rw [if_neg Bool.false_ne_true, hmagic, hversion, if_pos hcrc]
  by_cases h1 : magicOf m = soc.MBR_MAGIC
  · by_cases h2 : versionOf m = soc.MBR_VERSION
    · rw [if_neg (by simpa using h1), if_neg (by simpa using h2), if_pos ⟨h1, h2⟩]
    · rw [if_neg (by simpa using h1), if_pos h2, if_neg fun h => h2 h.2]
  · rw [if_pos h1, if_neg fun h => h1 h.1]

/-- What is right of a table is right of its copies. -/
theorem TableOk.congr (h : TableOk soc job m)
    (hc : ∀ x, soc.countAt.1 ≤ x → x < soc.MBR_SIZE → c x = m x) : TableOk soc job c := by
  obtain ⟨-, hcount, harray, hclass, hname, huser, hro, hres, -, -⟩ := layout soc
  have hread (p n : ℕ) (h1 : soc.countAt.1 ≤ p) (h2 : p+n ≤ soc.MBR_SIZE) :
      readBytes c p n = readBytes m p n :=
    readBytes_congr fun i hi => hc _ (by omega) (by omega)
  have hpart {k : ℕ} (hk : k < soc.MAX_PART_COUNT) :
      soc.countAt.1 ≤ partAt soc k ∧ partAt soc k+soc.partSize ≤ soc.MBR_SIZE := by
    have hle := Nat.mul_le_mul_right soc.partSize (Nat.succ_le_of_lt hk)
    rw [Nat.succ_mul] at hle
    unfold partAt
    omega
  have hN : partCount soc c = partCount soc m := by
    unfold partCount
    rw [hread _ _ le_rfl (by omega)]
  have hfields {k : ℕ} (hk : k < soc.MAX_PART_COUNT) : addrhi soc c k = addrhi soc m k ∧
      addrlo soc c k = addrlo soc m k ∧ lenhi soc c k = lenhi soc m k ∧
      lenlo soc c k = lenlo soc m k := by
    obtain ⟨h1, h2⟩ := hpart hk
    unfold addrhi addrlo lenhi lenlo
    rw [hread _ _ (by omega) (by omega), hread _ _ (by omega) (by omega),
      hread _ _ (by omega) (by omega), hread _ _ (by omega) (by omega)]
    exact ⟨rfl, rfl, rfl, rfl⟩
  have hspec {j : ℕ} {s : Spec} (hs : job.specs[j]? = some s) :
      j+job.partoffset < soc.MAX_PART_COUNT := by
    have := (List.getElem?_eq_some_iff.mp hs).1
    have := h.count
    have := h.max
    omega
  have hmax := h.max
  constructor
  case count => rw [hN, h.count]
  case max => rw [hN]; exact h.max
  case names =>
    intro j s hs
    obtain ⟨h1, h2⟩ := hpart (hspec hs)
    have hlen := (h.names j s hs).1
    refine ⟨hlen, ?_⟩
    rw [hread _ _ (by omega) (by omega)]
    exact (h.names j s hs).2
  case lens =>
    intro j s hs
    obtain ⟨h1, -, h3, h4⟩ := hfields (hspec hs)
    rw [h1, h3, h4]
    exact h.lens j s hs
  case first =>
    rw [(hfields (by cases soc <;> decide)).2.1]
    exact h.first
  case next =>
    intro k hk
    rw [hN] at hk
    obtain ⟨-, h1, -, h2⟩ := hfields (k := k) (by omega)
    rw [(hfields (k := k+1) (by omega)).2.1, h1, h2]
    exact h.next k hk
  case bound =>
    intro k hk
    rw [hN] at hk
    obtain ⟨-, h1, -, h2⟩ := hfields (k := k) (by omega)
    rw [h1, h2]
    exact h.bound k hk

end Copies

section Made

variable {soc : Soc} {job : Job} {bound : ℕ}

/-- What `nand_part` has checked of a job, and what it has read. -/
structure Job.Made (soc : Soc) (job : Job) (bound : ℕ) : Prop where
  parsed : (∀ s ∈ job.specs, s.name.length < MAX_NAME) → Parsed job.names bound 0 job.specs
  nonempty : job.specs ≠ []
  max : job.specs.length+job.partoffset ≤ soc.MAX_PART_COUNT
  offset : job.partoffset ≤ 1
  given : job.partoffset = 0 → soc.MBR_SIZE*MBR_COPY_NUM/512 ≤ job.start.toNat
  behind : job.partoffset = 1 →
    job.start = BitVec.ofNat 32 (addrlo soc job.mbr 0+lenlo soc job.mbr 0)
  magic : magicOf job.mbr = soc.MBR_MAGIC
  version : versionOf job.mbr = soc.MBR_VERSION

/-- A table that can be used has the right magic and version. -/
theorem getMbr_header {dev m : ℕ → Byte} {i : ℕ} {force : Bool}
    (h : getMbr soc dev i force = some m) :
    magicOf m = soc.MBR_MAGIC ∧ versionOf m = soc.MBR_VERSION := by
  have hversion : soc.MBR_VERSION < 256^4 := by cases soc <;> decide
  have hmagic := (layout soc).magic
  unfold getMbr at h
  cases force with
  | true =>
    obtain rfl := Option.some.inj h
    unfold magicOf versionOf
    rw [readBytes_copyTo_outside (by rw [le_length]; omega), readBytes_copyTo_of_length hmagic,
      readBytes_copyTo_of_length (le_length 4 _), leVal_le_of_lt hversion]
    exact ⟨rfl, rfl⟩
  | false =>
    rw [if_neg Bool.false_ne_true] at h
    split at h
    next => cases h
    next h1 =>
      split at h
      next => cases h
      next h2 =>
        split at h
        next =>
          obtain rfl := Option.some.inj h
          exact ⟨not_not.mp h1, not_not.mp h2⟩
        next => cases h

theorem lastMbr_header {dev m : ℕ → Byte} {force : Bool} (h : lastMbr soc dev force = some m) :
    magicOf m = soc.MBR_MAGIC ∧ versionOf m = soc.MBR_VERSION := by
  revert m
  refine List.foldlRecOn (motive := fun o => ∀ {m}, o = some m →
    magicOf m = soc.MBR_MAGIC ∧ versionOf m = soc.MBR_VERSION) _ _ ?_ ?_
  · exact fun h => nomatch h
  · intro o ih i _ m h
    split at h
    next m' hm =>
      exact getMbr_header (hm.trans h)
    next => exact ih h

theorem made_of_parts {partoffset : ℕ} {start : BitVec 32} {args : List (List Byte)}
    {names names' mbr : ℕ → Byte} {specs : List Spec} (hle : partoffset ≤ 1)
    (hstart : ¬start.toNat < soc.MBR_SIZE*MBR_COPY_NUM/512)
    (hparse : parseParts 0 args names = some (names', specs))
    (hmax : ¬soc.MAX_PART_COUNT-partoffset < args.length) (hargs : ¬args = [])
    (hmbr : magicOf mbr = soc.MBR_MAGIC ∧ versionOf mbr = soc.MBR_VERSION) :
    Job.Made soc ⟨partoffset, if partoffset = 0 then start
      else BitVec.ofNat 32 (addrlo soc mbr 0+lenlo soc mbr 0), names', specs, mbr⟩
      (nameBound args) := by
  have hpos := List.length_pos_iff.mpr hargs
  have hbound : MAX_NAME ≤ nameBound args := by
    unfold nameBound MAX_NAME
    omega
  have hlen := parseParts_length hparse
  constructor
  case parsed => exact fun h => (parseParts_parsed hparse h hbound).1
  case nonempty => exact List.ne_nil_of_length_pos (hlen.symm ▸ hpos)
  case max =>
    have : 1 ≤ soc.MAX_PART_COUNT := by cases soc <;> decide
    dsimp only
    omega
  case offset => exact hle
  case given => 
    intro h
    dsimp only at h ⊢
    rw [if_pos h]
    exact not_lt.mp hstart
  case behind =>
    intro h
    dsimp only at h ⊢
    rw [if_neg (by omega)]
  case magic => exact hmbr.1
  case version => exact hmbr.2

/-- `nand_part` writes no tables, or those of a job that it has checked. -/
theorem nandPart_cases (soc : Soc) (force : Bool) (stack : BitVec 32) (names : ℕ → Byte)
    (backup yes : Bool) (dev : ℕ → Byte) (args : List (List Byte)) :
    (∀ freed, (nandPart soc freed force stack names backup yes dev args).writes = false) ∨
    ∃ job bound, Job.Made soc job bound ∧ ∀ freed,
      nandPart soc freed force stack names backup yes dev args =
        .tables job (job.write soc freed bound dev) := by
  cases args with
  | nil => exact .inl fun _ => rfl
  | cons arg rest =>
    unfold nandPart
    dsimp only
    have hle : (if (scanStart arg).isSome then 0 else 1) ≤ 1 := by split <;> decide
    generalize (if (scanStart arg).isSome then 0 else 1) = partoffset at hle ⊢
    generalize (if partoffset = 0 then rest else arg :: rest) = args
    generalize (scanStart arg).getD stack = start
    split
    next => exact .inl fun _ => rfl
    next =>
      split
      next => exact .inl fun _ => rfl
      next hstart =>
        split
        next => exact .inl fun _ => rfl
        next names' specs hparse =>
          split
          next => exact .inl fun _ => rfl
          next hmax =>
            split
            next => exact .inl fun _ => rfl
            next hargs =>
              split
              next => exact .inl fun _ => rfl
              next mbr hmbr =>
                by_cases hanswer : (!backup) = true ∨ (!yes) = true
                · simp only [if_pos hanswer]
                  exact .inl fun _ => rfl
                · simp only [if_neg hanswer]
                  refine .inr ⟨_, _, ?_, fun freed => rfl⟩
                  exact made_of_parts hle hstart hparse hmax hargs (lastMbr_header hmbr)

end Made

section Table

variable {soc : Soc} {job : Job} {bound : ℕ}

/-- The sum of the numbers of the first `j` partitions. -/
def sumTo (specs : List Spec) (j : ℕ) : ℤ := ((specs.take j).map Spec.number).sum

theorem sumTo_succ {specs : List Spec} {j : ℕ} {s : Spec} (hs : specs[j]? = some s) :
    sumTo specs (j+1) = sumTo specs j+s.number := by
  unfold sumTo
  rw [List.take_add_one, hs]
  simp

theorem startOf_succ {start : BitVec 32} {specs : List Spec} {j : ℕ} {s : Spec}
    (hs : specs[j]? = some s) : startOf start specs (j+1) = startOf start specs j+s.len := by
  unfold startOf
  rw [List.take_add_one, hs]
  simp

theorem sumTo_le {specs : List Spec} (hpos : ∀ s ∈ specs, 0 ≤ s.number) (j : ℕ) :
    0 ≤ sumTo specs j ∧ sumTo specs j ≤ (specs.map Spec.number).sum := by
  have hnonneg (l : List Spec) (hl : l ⊆ specs) : 0 ≤ (l.map Spec.number).sum := by
    apply List.sum_nonneg
    intro n hn
    obtain ⟨s, hs, rfl⟩ := List.mem_map.mp hn
    exact hpos s (hl hs)
  have h1 := hnonneg (specs.take j) (List.take_subset _ _)
  have h2 := hnonneg (specs.drop j) (List.drop_subset _ _)
  have hsplit : (specs.map Spec.number).sum =
      sumTo specs j+((specs.drop j).map Spec.number).sum := by
    unfold sumTo
    rw [← List.sum_append, ← List.map_append, List.take_append_drop]
  unfold sumTo at *
  omega

/-- Without a wrap-around, a partition starts after the sum of the lengths before it. -/
theorem startOf_toNat {start : BitVec 32} {specs : List Spec}
    (hlen : ∀ s ∈ specs, s.len = BitVec.ofInt 32 (max (-2^63) (min (2^63-1) s.number)))
    (hpos : ∀ s ∈ specs, 0 ≤ s.number) (hroom : start.toNat+(specs.map Spec.number).sum < 2^32)
    {j : ℕ} (hj : j ≤ specs.length) :
    ((startOf start specs j).toNat : ℤ) = start.toNat+sumTo specs j ∧
      ∀ s, specs[j]? = some s → (s.len.toNat : ℤ) = s.number := by
  have hlast (j : ℕ) (s : Spec) (hs : specs[j]? = some s) : (s.len.toNat : ℤ) = s.number := by
    have hmem := List.mem_of_getElem? hs
    have h0 := hpos s hmem
    have h1 := (sumTo_le hpos (j+1)).2
    rw [sumTo_succ hs] at h1
    have h2 := (sumTo_le hpos j).1
    rw [hlen s hmem, BitVec.toNat_ofInt]
    omega
  refine ⟨?_, hlast j⟩
  induction j with
  | zero => simp [startOf, sumTo]
  | succ j ih =>
    obtain ⟨s, hs⟩ : ∃ s, specs[j]? = some s := ⟨_, List.getElem?_eq_getElem hj⟩
    have hsum := (sumTo_le hpos (j+1)).2
    have ih := ih (by omega)
    have hs' := hlast j s hs
    rw [sumTo_succ hs] at hsum
    rw [startOf_succ hs, sumTo_succ hs, BitVec.toNat_add, Nat.mod_eq_of_lt (by omega)]
    omega

theorem Job.table_outside (hp : Parsed job.names bound 0 job.specs)
    (hshort : ∀ s ∈ job.specs, s.name.length < soc.nameAt.2) {x : ℕ}
    (hx : x < partAt soc job.partoffset) (hcount : x < soc.countAt.1 ∨ soc.countAt.1+soc.countAt.2 ≤ x) :
    job.table soc bound x = job.mbr x := by
  unfold Job.table
  rw [(fillParts_filled hshort hp).2 x (.inl (by rwa [Nat.zero_add])),
    copyTo_outside (by rwa [le_length])]

theorem Job.table_count (h : job.Made soc bound)
    (hshort : ∀ s ∈ job.specs, s.name.length < soc.nameAt.2) :
    partCount soc (job.table soc bound) = job.specs.length+job.partoffset := by
  have hp := h.parsed fun s hs => (hshort s hs).trans_le (layout soc).name.2
  have harray : soc.countAt.1+soc.countAt.2 ≤ partAt soc (0+job.partoffset) :=
    (layout soc).count.trans (Nat.le_add_right _ _)
  unfold partCount Job.table
  dsimp only
  rw [readBytes_congr fun i hi => (fillParts_filled hshort hp).2 _ (.inl (by omega)),
    readBytes_copyTo_of_length (le_length _ _),
    leVal_le_of_lt (h.max.trans_lt (layout soc).max)]

theorem Job.table_part (h : job.Made soc bound)
    (hshort : ∀ s ∈ job.specs, s.name.length < soc.nameAt.2) {j : ℕ} {s : Spec}
    (hs : job.specs[j]? = some s) :
    Filled soc (job.table soc bound) (partAt soc (j+job.partoffset)) s.name
      (startOf job.start job.specs j).toNat s.len.toNat := by
  have hp := h.parsed fun s hs => (hshort s hs).trans_le (layout soc).name.2
  have := (@fillParts_filled _ _ _ job.partoffset _ job.start _
    (copyTo job.mbr soc.countAt.1 (le soc.countAt.2 (job.specs.length+job.partoffset))) hshort hp).1 j s hs
  rwa [Nat.zero_add] at this

/-- The first partition, if it stays. -/
theorem Job.table_first (h : job.Made soc bound)
    (hshort : ∀ s ∈ job.specs, s.name.length < soc.nameAt.2) (hoff : job.partoffset = 1) :
    addrlo soc (job.table soc bound) 0 = addrlo soc job.mbr 0 ∧
      lenlo soc (job.table soc bound) 0 = lenlo soc job.mbr 0 := by
  have hp := h.parsed fun s hs => (hshort s hs).trans_le (layout soc).name.2
  obtain ⟨-, hcount, harray, hclass, hname, huser, hro, hres, -, -⟩ := layout soc
  have hnext : partAt soc 1 = partAt soc 0+soc.partSize := partAt_succ 0
  have hzero : soc.arrayAt = partAt soc 0 := by simp [partAt]
  have hread (p : ℕ) (h1 : partAt soc 0 ≤ p) (h2 : p+4 ≤ partAt soc 0+soc.partSize) :
      readBytes (job.table soc bound) p 4 = readBytes job.mbr p 4 :=
    readBytes_congr fun i hi => Job.table_outside hp hshort (by rw [hoff]; omega) (by omega)
  unfold addrlo lenlo
  rw [hread _ (by omega) (by omega), hread _ (by omega) (by omega)]
  exact ⟨rfl, rfl⟩

/-- The new table is right for good arguments only. -/
theorem Job.table_ok_iff (h : job.Made soc bound) :
    TableOk soc job (job.table soc bound) ↔ job.Good soc := by
  obtain ⟨s0, hs0⟩ : ∃ s, job.specs[0]? = some s :=
    ⟨_, List.getElem?_eq_getElem (List.length_pos_iff.mpr h.nonempty)⟩
  constructor
  · intro hok
    have hshort : ∀ s ∈ job.specs, s.name.length < soc.nameAt.2 := by
      intro s hs
      obtain ⟨j, hj⟩ := List.mem_iff_getElem?.mp hs
      exact (hok.names j s hj).1
    have hnumber (j : ℕ) (s : Spec) (hs : job.specs[j]? = some s) :
        (lenlo soc (job.table soc bound) (j+job.partoffset) : ℤ) = s.number :=
      (hok.lens j s hs).1
    have hcount := hok.count
    have hstart : addrlo soc (job.table soc bound) job.partoffset = job.start.toNat := by
      have := (Job.table_part h hshort hs0).addrlo
      rw [Nat.zero_add] at this
      exact this
    have haddr (j : ℕ) (hj : j < job.specs.length) :
        (addrlo soc (job.table soc bound) (j+job.partoffset) : ℤ) =
          job.start.toNat+sumTo job.specs j := by
      induction j with
      | zero => simp [sumTo, hstart]
      | succ j ih =>
        obtain ⟨s, hs⟩ : ∃ s, job.specs[j]? = some s := ⟨_, List.getElem?_eq_getElem (by omega)⟩
        have hnext := hok.next (j+job.partoffset) (by omega)
        rw [show j+1+job.partoffset = j+job.partoffset+1 from by omega, hnext, sumTo_succ hs,
          Nat.cast_add, ih (by omega), hnumber j s hs]
        ring
    constructor
    case names => exact hshort
    case numbers =>
      intro s hs
      obtain ⟨j, hj⟩ := List.mem_iff_getElem?.mp hs
      rw [← hnumber j s hj]
      exact Int.natCast_nonneg _
    case stays =>
      intro hoff
      obtain ⟨h1, h2⟩ := Job.table_first h hshort hoff
      have := hok.first
      have := hok.bound 0 (by omega)
      omega
    case room =>
      have hlen := List.length_pos_iff.mpr h.nonempty
      obtain ⟨s, hs⟩ : ∃ s, job.specs[job.specs.length-1]? = some s :=
        ⟨_, List.getElem?_eq_getElem (by omega)⟩
      have h1 := hok.bound (job.specs.length-1+job.partoffset) (by omega)
      have h2 := haddr (job.specs.length-1) (by omega)
      have h3 := hnumber _ s hs
      have h4 := sumTo_succ hs
      rw [Nat.sub_add_cancel hlen] at h4
      unfold sumTo at h4 h2
      rw [List.take_length] at h4
      omega
  · intro hgood
    have hshort := hgood.names
    have hp := h.parsed fun s hs => (hshort s hs).trans_le (layout soc).name.2
    have hcount := Job.table_count h hshort
    have hpart (j : ℕ) (s : Spec) (hs : job.specs[j]? = some s) :
        (addrlo soc (job.table soc bound) (j+job.partoffset) : ℤ) =
          job.start.toNat+sumTo job.specs j ∧
        (lenlo soc (job.table soc bound) (j+job.partoffset) : ℤ) = s.number := by
      have hfill := Job.table_part h hshort hs
      have hj := (List.getElem?_eq_some_iff.mp hs).1
      obtain ⟨h1, h2⟩ := startOf_toNat hp.lens hgood.numbers hgood.room (Nat.le_of_lt hj)
      rw [← h1, ← h2 s hs]
      exact ⟨congrArg Nat.cast hfill.addrlo, congrArg Nat.cast hfill.lenlo⟩
    -- a partition that stays ends where the new ones start
    have hstays (hoff : job.partoffset = 1) :
        soc.MBR_SIZE*MBR_COPY_NUM/512 ≤ addrlo soc (job.table soc bound) 0 ∧
        addrlo soc (job.table soc bound) 0+lenlo soc (job.table soc bound) 0 = job.start.toNat := by
      obtain ⟨h1, h2⟩ := Job.table_first h hshort hoff
      obtain ⟨h3, h4⟩ := hgood.stays hoff
      refine ⟨by omega, ?_⟩
      rw [h.behind hoff, h1, h2, BitVec.toNat_ofNat, Nat.mod_eq_of_lt h4]
    have hoffset := h.offset
    have hzero := (hpart 0 s0 hs0).1
    rw [Nat.zero_add, show sumTo job.specs 0 = 0 from rfl] at hzero
    constructor
    case count => exact hcount
    case max =>
      rw [hcount]
      exact h.max
    case names => exact fun j s hs => (Job.table_part h hshort hs).name
    case lens =>
      intro j s hs
      have hfill := Job.table_part h hshort hs
      exact ⟨(hpart j s hs).2, hfill.lenhi, hfill.addrhi⟩
    case first =>
      by_cases hoff : job.partoffset = 0
      · have := h.given hoff
        rw [hoff] at hzero
        omega
      · exact (hstays (by omega)).1
    case next =>
      intro k hk
      by_cases hlt : k < job.partoffset
      · obtain rfl : k = 0 := by omega
        have hoff : job.partoffset = 1 := by omega
        rw [hoff] at hzero
        rw [(hstays hoff).2, Nat.zero_add]
        omega
      · obtain ⟨j, rfl⟩ := Nat.exists_eq_add_of_le' (Nat.not_lt.mp hlt)
        obtain ⟨s, hs⟩ : ∃ s, job.specs[j]? = some s := ⟨_, List.getElem?_eq_getElem (by omega)⟩
        obtain ⟨t, ht⟩ : ∃ s, job.specs[j+1]? = some s := ⟨_, List.getElem?_eq_getElem (by omega)⟩
        obtain ⟨h1, h2⟩ := hpart j s hs
        have h3 := (hpart (j+1) t ht).1
        rw [sumTo_succ hs, show j+1+job.partoffset = j+job.partoffset+1 from by omega] at h3
        omega
    case bound =>
      intro k hk
      by_cases hlt : k < job.partoffset
      · obtain rfl : k = 0 := by omega
        rw [(hstays (by omega)).2]
        exact BitVec.isLt _
      · obtain ⟨j, rfl⟩ := Nat.exists_eq_add_of_le' (Nat.not_lt.mp hlt)
        obtain ⟨s, hs⟩ : ∃ s, job.specs[j]? = some s := ⟨_, List.getElem?_eq_getElem (by omega)⟩
        obtain ⟨h1, h2⟩ := hpart j s hs
        have h3 := (sumTo_le hgood.numbers (j+1)).2
        have h4 := hgood.room
        rw [sumTo_succ hs] at h3
        omega

end Table

section Result

variable {soc : Soc} {job : Job} {bound : ℕ} {dev : ℕ → Byte}

/-- The tables of a job are good ones, if the memory keeps them, for good arguments only. -/
theorem Job.sane_iff (h : job.Made soc bound) :
    (Outcome.tables job (job.write soc id bound dev)).Sane soc ↔ job.Good soc := by
  have hlayout := layout soc
  have hagree {i x : ℕ} (hi : i < MBR_COPY_NUM) (h1 : soc.countAt.1 ≤ x) (h2 : x < soc.MBR_SIZE) :
      job.write soc id bound dev (soc.MBR_SIZE*i+x) = job.table soc bound x := by
    have := hlayout.index
    exact (writeCopies_copy hi).keeps x (by omega) h2 (.inr (by omega))
  rw [← Job.table_ok_iff h]
  constructor
  · intro hsane
    obtain ⟨m, hm, hok⟩ := hsane 0 (by decide)
    have hwrite := @getMbr_writeCopies soc (job.table soc bound) dev
      0 (by decide)
    have hm' := hm.symm.trans hwrite
    split at hm'
    next =>
      obtain rfl := Option.some.inj hm'
      exact hok.congr fun x h1 h2 => (hagree (i := 0) (by decide) h1 h2).symm
    next => cases hm'
  · intro hok i hi
    have hgood := (Job.table_ok_iff h).mp hok
    have hp := h.parsed fun s hs => (hgood.names s hs).trans_le hlayout.name.2
    have hindex := hlayout.index
    have harray := hlayout.count
    have hfirst : soc.arrayAt ≤ partAt soc job.partoffset := Nat.le_add_right _ _
    have hread (p n : ℕ) (h1 : p+n ≤ 16) :
        readBytes (job.table soc bound) p n = readBytes job.mbr p n :=
      readBytes_congr fun j hj => Job.table_outside hp hgood.names (by omega) (by omega)
    have hmagic : magicOf (job.table soc bound) = soc.MBR_MAGIC :=
      (hread 8 8 le_rfl).trans h.magic
    have hversion : versionOf (job.table soc bound) = soc.MBR_VERSION :=
      (congrArg leVal (hread 4 4 (by decide))).trans h.version
    refine ⟨_, (getMbr_writeCopies hi).trans (if_pos ⟨hmagic, hversion⟩), ?_⟩
    exact hok.congr fun x h1 h2 => hagree hi h1 h2

/-- Memory that is cleared when it is freed leaves no good table. -/
theorem Job.not_sane_of_cleared :
    ¬(Outcome.tables job (job.write soc (fun _ _ => 0#8) bound dev)).Sane soc := by
  intro hsane
  obtain ⟨m, hm, -⟩ := hsane 0 (by decide)
  have hzero : magicOf (fun _ => 0#8) ≠ soc.MBR_MAGIC := by
    cases soc <;> decide
  have := hm.symm.trans ((getMbr_writeCopies (by decide)).trans (if_neg fun h => hzero h.1))
  cases this

theorem sane_of_not_writes {o : Outcome} (h : o.writes = false) : o.Sane soc ∧ o.Good soc := by
  cases o with
  | rejected code => exact ⟨trivial, trivial⟩
  | unchanged => exact ⟨trivial, trivial⟩
  | tables job dev => cases h

/-- The partitions that were written. -/
def Outcome.specs : Outcome → List Spec
  | .tables job _ => job.specs
  | _ => []

theorem Outcome.Good.short {o : Outcome} (h : o.Good soc) :
    ∀ s ∈ o.specs, s.name.length < soc.nameAt.2 := by
  cases o with
  | tables job dev => exact Job.Good.names h
  | _ => exact fun s hs => absurd hs List.not_mem_nil

variable (soc) (force : Bool) (stack : BitVec 32) (names : ℕ → Byte) (backup yes : Bool)
  (dev : ℕ → Byte) (args : List (List Byte))

theorem nandPart_sane_iff :
    (nandPart soc id force stack names backup yes dev args).Sane soc ↔
      (nandPart soc id force stack names backup yes dev args).Good soc := by
  rcases nandPart_cases soc force stack names backup yes dev args with h | ⟨job, bound, hmade, h⟩
  · obtain ⟨hsane, hgood⟩ := @sane_of_not_writes soc _ (h id)
    exact ⟨fun _ => hgood, fun _ => hsane⟩
  · rw [h id]
    exact Job.sane_iff hmade

theorem nandPart_not_sane
    (hwrites : (nandPart soc id force stack names backup yes dev args).writes = true) :
    ¬(nandPart soc (fun _ _ => 0#8) force stack names backup yes dev args).Sane soc := by
  rcases nandPart_cases soc force stack names backup yes dev args with h | ⟨job, bound, -, h⟩
  · rw [h id] at hwrites
    cases hwrites
  · rw [h]
    exact Job.not_sane_of_cleared

/-- The tables are written from freed memory, and whatever the arguments, there is a content of it
with which no copy is accepted. If it keeps its content, the tables are those of the arguments if
and only if these are good. -/
theorem tables_sane_iff :
    ((∀ freed, (nandPart soc freed force stack names backup yes dev args).Sane soc) ↔
      (nandPart soc id force stack names backup yes dev args).writes = false) ∧
    ((nandPart soc id force stack names backup yes dev args).Sane soc ↔
      (nandPart soc id force stack names backup yes dev args).Good soc) := by
  refine ⟨⟨fun h => ?_, fun hwrites freed => ?_⟩, nandPart_sane_iff ..⟩
  · by_contra hwrites
    exact nandPart_not_sane soc force stack names backup yes dev args
      (Bool.eq_true_of_not_eq_false hwrites) (h _)
  · rcases nandPart_cases soc force stack names backup yes dev args with h | ⟨job, bound, -, h⟩
    · exact (sane_of_not_writes (h freed)).1
    · rw [h id] at hwrites
      cases hwrites

/-- A partition `a` of ten sectors; and a name of twelve characters, for which the field of the A10
is too short, in memory that keeps its content. -/
theorem tables_not_sane :
    ¬(nandPart .a10 (fun _ _ => 0#8) true 0#32 (fun _ => 0#8) true true (fun _ => 0#8)
      [literal "8", literal "a 10"]).Sane .a10 ∧
    ¬(nandPart .a10 id true 0#32 (fun _ => 0#8) true true (fun _ => 0#8)
      [literal "8", literal "abcdefghijkl 10"]).Sane .a10 := by
  refine ⟨nandPart_not_sane _ _ _ _ _ _ _ _ (by decide +kernel), fun h => ?_⟩
  have hshort := ((nandPart_sane_iff _ _ _ _ _ _ _ _).mp h).short
  revert hshort
  decide +kernel

end Result

end ChipTools.NandPart
