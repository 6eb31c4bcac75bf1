import ChipTools.UbinizeOpts
import ChipTools.UbinizeSections

/-! `main` of `ubinize` with the file operations that can fail: its exit status, and the output
file that it leaves. -/
namespace ChipTools.Ubi
open Bytes CNumber

section World

/-- The file operations behind the options, those for a section with its name. -/
inductive FileOp
  | seek
  | stat (sname : List Byte)
  | statAgain (sname : List Byte)
  | openImage (sname : List Byte)
  | read (sname : List Byte) (lnum : ℕ)
  | write (sname : List Byte) (lnum : ℕ)
  | layoutSeek (lnum : ℕ)
  | layoutWrite (lnum : ℕ)
  | close
  | remove

/-- What the program meets: the files, and the operations that fail. A write that fails has put
`short` bytes, and where the close of the output fails, the first `kept` of it are on the disk. -/
structure World where
  opens : List Byte → Bool
  ini : List Byte → Option Dict
  files : Files
  fails : FileOp → Bool
  short : FileOp → ℕ
  kept : ℕ

def World.stat (w : World) (sname : List Byte) : Files := fun p =>
  if w.fails (.stat sname) then none else w.files p

def World.closed (w : World) (data : List Byte) : List Byte :=
  if w.fails .close then data.take w.kept else data

/-- A write that puts only `n` bytes. -/
def OutFile.writeShort (f : OutFile) (bs : List Byte) (n : ℕ) : OutFile :=
  if n = 0 then f else f.write (bs.take n)

/-- The signals of a null pointer and of a division by zero. -/
inductive Signal
  | segv
  | fpe
deriving DecidableEq

/-- How `read_section` ends without a volume. -/
inductive Fault
  | errmsg (text : String)
  | signal (sig : Signal)
deriving DecidableEq

/-- What leaves the loops of `main`: a `goto` with the value of `err`, the `return` that is none,
a signal. -/
inductive Halt
  | goto (err : ℤ) (out : OutFile)
  | direct (out : OutFile)
  | signal (sig : Signal) (out : OutFile)
  | hang

/-- How the program ends, with the output file that is there then. -/
inductive Ending
  | returned (status : ℤ) (file : Option (List Byte))
  | exited (file : Option (List Byte))
  | killed (sig : Signal) (file : Option (List Byte))
  | hung
  | undefined

end World

section Main

variable (w : World) (ui : UbigenInfo) (args : Args) (d : Dict) (sname : List Byte)
  (outbuf : ℕ → Byte)

/-- Where the size is that of the image, the image is asked for it once more. -/
def readSizeIn (image : Option (List Byte)) : Except Stop ℤ :=
  if (d.getstring (keyOf sname "vol_size")).isNone ∧ image.isSome ∧ w.fails (.statAgain sname) then
    let img := (d.getstring (keyOf sname "image")).getD []
    .error (.errmsg s!"cannot stat \"{text img}\"")
  else readSize d sname image

def readUbiFieldsIn : Except Stop Fields := do
  let type ← readType d sname
  let image ← readImage d (w.stat sname) sname type
  let id ← readId ui d sname
  let bytes ← readSizeIn w d sname image
  let name ← readName d sname
  let alignment ← readAlignment d sname id
  let flags ← readFlags d sname
  .ok ⟨type, image, id, bytes, name, alignment, flags⟩

/-- `read_section`: a key without a value is a null pointer, and the other signal is that of its
divisions. -/
def readSectionIn : Except Fault (Option Section) :=
  if 128 < sname.length then .error (.errmsg s!"too long section name \"{text sname}\"")
  else match d.getstring (keyOf sname "mode") with
    | none => .error (.errmsg s!"\"mode\" key not found in section \"{text sname}\"")
    | some mode =>
      if mode ≠ literal "ubi" then .ok none
      else match readUbiFieldsIn w ui d sname with
        | .error (.errmsg msg) => .error (.errmsg msg)
        | .error _ => .error (.signal .segv)
        | .ok f => match f.finish ui with
          | .ok sec => .ok sec
          | .error _ => .error (.signal .fpe)

/-- The comparison with an earlier volume where it ends the pass: `err` is what `read_section` has
returned, and the name of a volume that was skipped is a null pointer. -/
def compareVolume (err id : ℤ) (name : Option (List Byte)) (out : OutFile) (v : UbigenVolInfo) :
    Option Halt :=
  if id = v.id then some (.goto err out)
  else match name with
    | none => some (.signal .segv out)
    | some name => if name = v.name then some (.goto err out) else none

/-- The loop of `ubigen_write_volume` with the operations that fail. -/
def writeLoopIn (vi : UbigenVolInfo) :
    ℕ → ℕ → (ℕ → Byte) → ℕ → ℕ → List Byte → OutFile → Except Halt OutFile
  | _, _, _, _, 0, _, out => .ok out
  | 0, _, _, _, _, _, _ => .error .hang
  | fuel+1, lnum, outbuf, len, bytes, inp, out =>
    let len := if bytes < len then bytes else len
    if w.fails (.read sname lnum) ∨ inp.length < len then .error (.goto (-1) out)
    else
      let outbuf := fillPeb ui vi lnum (inp.take len) outbuf
      let peb := readBytes outbuf 0 ui.peb_size
      if w.fails (.write sname lnum) then
        .error (.goto (-1) (out.writeShort peb (w.short (.write sname lnum))))
      else writeLoopIn vi fuel (lnum+1) outbuf len (bytes-len) (inp.drop len) (out.write peb)

/-- The image of a volume. Where it does not open, `err` is what `ubigen_add_volume` has
returned. -/
def addImage (vi : UbigenVolInfo) (out : OutFile) : Option (List Byte) → Except Halt OutFile
  | none => .ok out
  | some content =>
    if w.fails (.openImage sname) then .error (.goto 0 out)
    else match checkVolume args.info vi with
      | .error _ => .error (.goto (-1) out)
      | .ok () =>
        let ui := args.info
        let outbuf := copyTo (setTo outbuf 0 ui.data_offs 0xff#8) 0 (ubigenInitEcHdr ui args.ec)
        writeLoopIn w ui sname vi (content.length+1) 0 outbuf vi.usable_leb_size.toNat
          content.length content out

/-- A pass of the loop over the sections. -/
def passSection (p : Progress) : Except Halt Progress :=
  match readSectionIn w args.info d sname with
  | .error (.errmsg _) => .error (.goto (-1) p.out)
  | .error (.signal sig) => .error (.signal sig p.out)
  | .ok sec =>
    -- a section that is skipped goes through the rest like any other
    let err := if sec.isNone then 1 else 0
    let vi := Section.volume sec
    match p.vis.findSome? (compareVolume err vi.id (sec.map fun s => s.vi.name) p.out) with
    | some halt => .error halt
    | none =>
    if vi.flags &&& UBI_VTBL_AUTORESIZE_FLG ≠ 0#8 ∧ p.autoresize then .error (.direct p.out)
    else match ubigenAddVolume args.info vi p.vtbl with
      | .error (.errmsg _) => .error (.goto (-1) p.out)
      | .error _ => .error (.signal .fpe p.out)
      | .ok vtbl => match addImage w args sname outbuf vi p.out (sec.bind fun s => s.image) with
        | .error halt => .error halt
        | .ok out => .ok ⟨out, vtbl, p.vis ++ [vi],
            p.autoresize || vi.flags &&& UBI_VTBL_AUTORESIZE_FLG ≠ 0#8⟩

/-- `ubigen_write_layout_vol` with the operations that fail. -/
def writeLayout (p : Progress) : Except Halt OutFile :=
  let pebs := layoutPebs args.info args.ec args.ec p.vtbl outbuf
  let first := p.out.lseek 0
  let second := (first.write pebs.1).lseek args.info.peb_size
  if w.fails (.layoutSeek 0) then .error (.goto (-1) p.out)
  else if w.fails (.layoutWrite 0) then
    .error (.goto (-1) (first.writeShort pebs.1 (w.short (.layoutWrite 0))))
  else if w.fails (.layoutSeek 1) then .error (.goto (-1) (first.write pebs.1))
  else if w.fails (.layoutWrite 1) then
    .error (.goto (-1) (second.writeShort pebs.2 (w.short (.layoutWrite 1))))
  else .ok (second.write pebs.2)

/-- Behind the label `out`. -/
def finish (err : ℤ) (out : OutFile) : Ending :=
  .returned err (if w.fails .remove then some (w.closed out.data) else none)

def Halt.ending : Halt → Ending
  | .goto err out => finish w err out
  | .direct out => .returned (-1) (some out.data)
  | .signal sig out => .killed sig (some out.data)
  | .hang => .hung

/-- The loop over the sections from `p` on, and what is behind it. -/
def runSections (names : List (List Byte)) (p : Progress) : Ending :=
  match names.foldlM (fun p sname => passSection w args d sname outbuf p) p with
  | .error halt => halt.ending w
  | .ok p => match writeLayout w args outbuf p with
    | .error halt => halt.ending w
    | .ok out => .returned 0 (some (w.closed out.data))

/-- What the loop begins with. -/
def firstProgress (vtbl : List (List Byte)) : Progress :=
  ⟨OutFile.lseek ⟨[], 0⟩ (2*ui.peb_size), vtbl, [], false⟩

/-- `main` behind the configuration file. -/
def runConfig (vtbl : List (List Byte)) : Ending :=
  if d.secnames = [] then finish w 0 ⟨[], 0⟩
  else if args.info.max_volumes < d.secnames.length then finish w 0 ⟨[], 0⟩
  else if w.fails .seek then finish w 0 ⟨[], 0⟩
  else runSections w args d outbuf d.secnames (firstProgress args.info vtbl)

/-- `main` behind the options. -/
def runArgs (f_in : List Byte) : Ending :=
  match ubigenCreateEmptyVtbl args.info with
  | .error _ => finish w 0 ⟨[], 0⟩
  | .ok vtbl => match w.ini f_in with
    | none => finish w 0 ⟨[], 0⟩
    | some d => runConfig w args d outbuf vtbl

/-- `main`. The output file is opened with the options, and what ends the program there leaves it
empty. A VID header offset whose end is no `int` overflows. -/
def main (rand : BitVec 32) (opts : List Opt) (rest : List (List Byte)) : Ending :=
  match parseOpt w.opens rand opts rest with
  | .error (.errmsg _, o) => .returned (-1) (o.f_out.map fun _ => [])
  | .error (.exit, o) => .exited (o.f_out.map fun _ => [])
  | .ok o =>
    if 2^31 ≤ o.vid_hdr_offs+UBI_VID_HDR_SIZE then .undefined
    else runArgs w o.args outbuf o.f_in

end Main

section Truth

variable (w : World) (args : Args) (d : Dict) (outbuf : ℕ → Byte)

/-- The sections that describe a volume. -/
def ubiNames : List (List Byte) :=
  d.secnames.filter fun sname => d.getstring (keyOf sname "mode") = some (literal "ubi")

/-- The complete image: both eraseblocks of the layout volume, with the records of all volumes,
and the eraseblocks of each volume that has an image. -/
def CompleteImage (content : List Byte) : Prop :=
  ∃ (secs : List Section) (vols : List (List (List Byte))) (empty vtbl : List (List Byte)),
    List.Forall₂ (fun sname sec => readSection args.info d w.files sname = .ok (some sec))
      (ubiNames d) secs ∧
    List.Forall₂ (fun sec pebs => writeImage args sec.vi outbuf sec.image = .ok pebs) secs vols ∧
    ubigenCreateEmptyVtbl args.info = .ok empty ∧
    secs.foldlM (fun vtbl sec => ubigenAddVolume args.info sec.vi vtbl) empty = .ok vtbl ∧
    content = (layoutPebs args.info args.ec args.ec vtbl outbuf).1 ++
      ((layoutPebs args.info args.ec args.ec vtbl outbuf).2 ++ vols.flatten.flatten)

/-- The image that the options and the configuration ask for. -/
def ImageOf (rand : BitVec 32) (opts : List Opt) (rest : List (List Byte)) (content : List Byte) :
    Prop :=
  ∃ o d, parseOpt w.opens rand opts rest = .ok o ∧ w.ini o.f_in = some d ∧
    CompleteImage w o.args d outbuf content

/-- The exit status says whether the output file is there with the complete image. In all other
cases no file is left. -/
def Ending.Truthful (complete : List Byte → Prop) : Ending → Prop
  | .returned status file =>
    (status = 0 ∧ ∃ content, file = some content ∧ complete content) ∨ (status ≠ 0 ∧ file = none)
  | .exited file => file = none
  | _ => False

/-- No LEB of the volume of the section fails. -/
def ImageWorks (sname : List Byte) (sec : Section) : Prop :=
  ∀ content, sec.image = some content → ∀ lnum < lebCount (sec.vi, content),
    w.fails (.read sname lnum) = false ∧ w.fails (.write sname lnum) = false

/-- A pass with a status that can be told: no signal, no section that is skipped but where an
earlier check stops it with a status, no volume with the ID or the name of an earlier one, no
second volume with the auto-resize flag, and an image that opens. What else fails is reported, and
asks for the output to be removed. -/
structure PassFits (p : Progress) (sname : List Byte) : Prop where
  signal : ∀ sig, readSectionIn w args.info d sname ≠ .error (.signal sig)
  skipped : readSectionIn w args.info d sname = .ok none →
    (p.vis = [] ∧ args.info.leb_size ≤ 0) ∨ ∃ v vis, p.vis = v :: vis ∧ v.id = 0
  distinct : ∀ sec, readSectionIn w args.info d sname = .ok (some sec) →
    ∀ v ∈ p.vis, sec.vi.id ≠ v.id ∧ sec.vi.name ≠ v.name
  autoresize : ∀ sec, readSectionIn w args.info d sname = .ok (some sec) →
    sec.vi.flags &&& UBI_VTBL_AUTORESIZE_FLG ≠ 0#8 → p.autoresize = false
  opens : ∀ sec, readSectionIn w args.info d sname = .ok (some sec) →
    checkVolume args.info sec.vi = .ok () → sec.image ≠ none → w.fails (.openImage sname) = false
  removes : w.fails .remove = true → ∃ sec, readSectionIn w args.info d sname = .ok (some sec) ∧
    checkVolume args.info sec.vi = .ok () ∧ ImageWorks w sname sec

def LayoutWorks : Prop :=
  ∀ lnum < 2, w.fails (.layoutSeek lnum) = false ∧ w.fails (.layoutWrite lnum) = false

/-- The end of a run: a layout volume that fails asks for the output to be removed, and closing
the complete image loses none of it. -/
structure EndFits (p : Progress) : Prop where
  removes : w.fails .remove = true → LayoutWorks w
  closes : LayoutWorks w → w.fails .close = true →
    max (2*args.info.peb_size) p.out.data.length ≤ w.kept

/-- Each pass that the run comes to fits. -/
def SectionsFit : List (List Byte) → Progress → Prop
  | [], p => EndFits w args p
  | sname :: names, p => PassFits w args d p sname ∧
    ∀ p', passSection w args d sname outbuf p = .ok p' → SectionsFit names p'

/-- The runs whose status is truthful. -/
structure StatusFits (rand : BitVec 32) (opts : List Opt) (rest : List (List Byte)) : Prop where
  quits : ∀ q o, parseOpt w.opens rand opts rest = .error (q, o) → o.f_out = none
  runs : ∀ o, parseOpt w.opens rand opts rest = .ok o →
    o.vid_hdr_offs+UBI_VID_HDR_SIZE < 2^31 ∧ w.fails .seek = false ∧
    ∃ vtbl d, ubigenCreateEmptyVtbl o.args.info = .ok vtbl ∧ w.ini o.f_in = some d ∧
      d.secnames ≠ [] ∧ d.secnames.length ≤ o.args.info.max_volumes ∧
      SectionsFit w o.args d outbuf d.secnames (firstProgress o.args.info vtbl)

end Truth

section Pass

variable {w : World} {ui : UbigenInfo} {args : Args} {d : Dict} {sname : List Byte}
  {outbuf : ℕ → Byte} {p p' : Progress} {sec : Section}

theorem readImage_stat {type : VolType} {image : Option (List Byte)}
    (h : readImage d (w.stat sname) sname type = .ok image) :
    readImage d w.files sname type = .ok image := by
  by_cases hf : w.fails (.stat sname) = true
  · -- no image was asked for
    unfold readImage at h ⊢
    cases hp : d.getstring (keyOf sname "image") with
    | none =>
      rw [hp] at h
      exact h
    | some file =>
      have hnone : w.stat sname file = none := if_pos hf
      rw [hp] at h
      dsimp only at h
      rw [hnone] at h
      cases h
  · have hstat : w.stat sname = w.files := by
      funext file
      exact if_neg hf
    rwa [hstat] at h

theorem readUbiFieldsIn_ok {f : Fields} (h : readUbiFieldsIn w ui d sname = .ok f) :
    readUbiFields ui d w.files sname = .ok f := by
  obtain ⟨type, htype, h⟩ := Loop.bind_eq_ok h
  obtain ⟨image, himage, h⟩ := Loop.bind_eq_ok h
  obtain ⟨id, hid, h⟩ := Loop.bind_eq_ok h
  obtain ⟨bytes, hbytes, h⟩ := Loop.bind_eq_ok h
  have hsize : readSize d sname image = .ok bytes := by
    unfold readSizeIn at hbytes
    split at hbytes
    · cases hbytes
    · exact hbytes
  rw [readUbiFields, htype, Loop.ok_bind, readImage_stat himage, Loop.ok_bind, hid, Loop.ok_bind,
    hsize]
  exact h

/-- What is read where the operations work is what is read where some fail and none of them is
asked for. -/
theorem readSectionIn_ok {r : Option Section} (h : readSectionIn w ui d sname = .ok r) :
    readSection ui d w.files sname = .ok r := by
  rw [readSection_eq, readFields]
  unfold readSectionIn at h
  split at h
  · cases h
  next hlen =>
    rw [if_neg hlen]
    cases hmode : d.getstring (keyOf sname "mode") with
    | none =>
      rw [hmode] at h
      cases h
    | some mode =>
      rw [hmode] at h
      dsimp only at h ⊢
      split at h
      next hne =>
        obtain rfl := Except.ok.inj h
        rw [if_pos hne]
        rfl
      next hne =>
        rw [if_neg hne]
        cases hf : readUbiFieldsIn w ui d sname with
        | error e =>
          rw [hf] at h
          cases e <;> cases h
        | ok f =>
          rw [hf] at h
          rw [readUbiFieldsIn_ok hf]
          dsimp only at h
          rw [Loop.ok_bind, Loop.ok_bind]
          dsimp only
          split at h
          next sec hfin =>
            obtain rfl := Except.ok.inj h
            exact hfin
          next => cases h

theorem readSectionIn_mode {r : Option Section} (h : readSectionIn w ui d sname = .ok r) :
    ∃ mode, d.getstring (keyOf sname "mode") = some mode ∧
      (r = none → mode ≠ literal "ubi") ∧ (r ≠ none → mode = literal "ubi") := by
  unfold readSectionIn at h
  split at h
  · cases h
  · cases hmode : d.getstring (keyOf sname "mode") with
    | none =>
      rw [hmode] at h
      cases h
    | some mode =>
      rw [hmode] at h
      dsimp only at h
      split at h
      next hne =>
        obtain rfl := Except.ok.inj h
        exact ⟨mode, rfl, fun _ => hne, fun hc => absurd rfl hc⟩
      next hne =>
        refine ⟨mode, rfl, ?_, fun _ => not_not.mp hne⟩
        rintro rfl
        split at h
        · cases h
        · cases h
        next f _ =>
          split at h
          next sec hfin =>
            -- the rest of `read_section` skips none
            obtain rfl := Except.ok.inj h
            unfold Fields.finish at hfin
            split at hfin
            · cases hfin
            · dsimp only at hfin
              split at hfin
              · cases hfin
              · cases hfin
          next => cases h

end Pass

section Halts

variable {w : World} {ui : UbigenInfo} {args : Args} {d : Dict} {sname : List Byte}
  {outbuf : ℕ → Byte} {p p' : Progress} {sec : Section}

/-- The halt that is told by the status, with no file left. -/
def Halt.Clean (w : World) : Halt → Prop
  | .goto err _ => err ≠ 0 ∧ w.fails .remove = false
  | _ => False

/-- The first eraseblock is not written yet where `err` is still zero. -/
def Halt.Early : Halt → Prop
  | .goto err out => err = 0 → out.data.head? ≠ some 0x55#8
  | _ => True

theorem World.closed_head {data : List Byte} (h : data.head? ≠ some 0x55#8) :
    (w.closed data).head? ≠ some 0x55#8 := by
  unfold World.closed
  split
  · rw [List.head?_take]
    split
    · exact fun hc => by cases hc
    · exact h
  · exact h

/-- A complete image begins with an EC header, which tells it from a file that is left early. -/
theorem finish_truthful {complete : List Byte → Prop}
    (hhead : ∀ content, complete content → content.head? = some 0x55#8) {err : ℤ} {out : OutFile}
    (hearly : (Halt.goto err out).Early) :
    (finish w err out).Truthful complete ↔ (Halt.goto err out).Clean w := by
  unfold finish Ending.Truthful Halt.Clean
  by_cases herr : err = 0
  · refine iff_of_false ?_ (fun h => h.1 herr)
    rintro (⟨-, content, hfile, hcomplete⟩ | ⟨hne, -⟩)
    · split at hfile
      · obtain rfl := Option.some.inj hfile
        exact World.closed_head (hearly herr) (hhead _ hcomplete)
      · cases hfile
    · exact hne herr
  · cases hr : w.fails .remove with
    | true => simp [herr]
    | false => simp [herr]

theorem Halt.ending_truthful {complete : List Byte → Prop}
    (hhead : ∀ content, complete content → content.head? = some 0x55#8) {halt : Halt}
    (hearly : halt.Early) : (halt.ending w).Truthful complete ↔ halt.Clean w := by
  cases halt with
  | goto err out => exact finish_truthful hhead hearly
  | direct out =>
    refine iff_of_false ?_ id
    rintro (⟨hc, -⟩ | ⟨-, hc⟩)
    · exact absurd hc (by decide)
    · cases hc
  | signal sig out => exact Iff.rfl
  | hang => exact Iff.rfl

/-- What ends the pass for a section that is not for UBI. -/
def skipHalt (ui : UbigenInfo) (p : Progress) : Halt :=
  match p.vis with
  | [] => if ui.leb_size ≤ 0 then .goto (-1) p.out else .signal .fpe p.out
  | v :: _ => if v.id = 0 then .goto 1 p.out else .signal .segv p.out

/-- A section that is skipped never gets through the pass. -/
theorem passSection_skipped (h : readSectionIn w args.info d sname = .ok none)
    (hmax : 0 < args.info.max_volumes) :
    passSection w args d sname outbuf p = .error (skipHalt args.info p) := by
  unfold passSection skipHalt
  rw [h]
  dsimp only [Section.volume]
  cases p.vis with
  | nil =>
    rw [List.findSome?_nil]
    dsimp only
    rw [if_neg (fun hc => absurd hc.1 (by decide))]
    by_cases hleb : args.info.leb_size ≤ 0
    · obtain ⟨msg, hck⟩ := @checkVolume_errmsg args.info skippedVolume
        (fun hc => absurd hc.2 (not_lt.mpr hleb))
      rw [ubigenAddVolume, hck, if_pos hleb]
      rfl
    · have hck : checkVolume args.info skippedVolume = .ok () :=
        checkVolume_ok_iff.mpr ⟨hmax, not_le.mp hleb⟩
      rw [ubigenAddVolume, hck, if_neg hleb]
      rfl
  | cons v vis =>
    rw [List.findSome?_cons]
    by_cases hid : v.id = 0
    · have hcmp : compareVolume 1 0 none p.out v = some (.goto 1 p.out) := if_pos hid.symm
      dsimp only [Option.isNone, Option.map, skippedVolume]
      rw [if_pos rfl, hcmp, if_pos hid]
    · have hcmp : compareVolume 1 0 none p.out v = some (.signal .segv p.out) :=
        if_neg (fun hc => hid hc.symm)
      dsimp only [Option.isNone, Option.map, skippedVolume]
      rw [if_pos rfl, hcmp, if_neg hid]

/-- The comparisons of a volume that has a name. -/
theorem compare_none_iff {err id : ℤ} {name : List Byte} {out : OutFile} {vis : List UbigenVolInfo} :
    vis.findSome? (compareVolume err id (some name) out) = none ↔
      ∀ v ∈ vis, id ≠ v.id ∧ name ≠ v.name := by
  rw [List.findSome?_eq_none_iff]
  refine forall₂_congr fun v _ => ?_
  unfold compareVolume
  dsimp only
  split_ifs with h1 h2
  · exact iff_of_false (by simp) (fun hc => hc.1 h1)
  · exact iff_of_false (by simp) (fun hc => hc.2 h2)
  · exact iff_of_true rfl ⟨h1, h2⟩

theorem compare_some {err id : ℤ} {name : List Byte} {out : OutFile} {vis : List UbigenVolInfo}
    {halt : Halt} (h : vis.findSome? (compareVolume err id (some name) out) = some halt) :
    halt = .goto err out := by
  obtain ⟨v, -, hv⟩ := List.exists_of_findSome?_eq_some h
  unfold compareVolume at hv
  dsimp only at hv
  split_ifs at hv
  · exact (Option.some.inj hv).symm
  · exact (Option.some.inj hv).symm

/-- The LEBs from `lnum` on are read and written. -/
def LebsWork (w : World) (sname : List Byte) (lnum count : ℕ) : Prop :=
  ∀ k < count, w.fails (.read sname (lnum+k)) = false ∧ w.fails (.write sname (lnum+k)) = false

theorem LebsWork.succ {lnum count : ℕ} : LebsWork w sname lnum (count+1) ↔
    (w.fails (.read sname lnum) = false ∧ w.fails (.write sname lnum) = false) ∧
      LebsWork w sname (lnum+1) count := by
  constructor
  · intro h
    refine ⟨h 0 (Nat.succ_pos _), ?_⟩
    intro k hk
    have := h (k+1) (Nat.succ_lt_succ hk)
    rwa [Nat.add_comm k 1, ← Nat.add_assoc] at this
  · rintro ⟨h0, h⟩ k hk
    cases k with
    | zero => exact h0
    | succ k =>
      have := h k (Nat.lt_of_succ_lt_succ hk)
      rwa [Nat.add_right_comm] at this

/-- The loop that would write `pebs` writes them, or the first operation that fails ends it with
an error. -/
theorem writeLoopIn_cases {vi : UbigenVolInfo} {fuel lnum len bytes : ℕ} {buf : ℕ → Byte}
    {inp : List Byte} {pebs : List (List Byte)} {out : OutFile}
    (h : writeLoop ui vi fuel lnum buf len bytes inp = .ok pebs) :
    (LebsWork w sname lnum pebs.length ∧
      writeLoopIn w ui sname vi fuel lnum buf len bytes inp out = .ok (pebs.foldl OutFile.write out)) ∨
    (¬ LebsWork w sname lnum pebs.length ∧ ∃ out',
      writeLoopIn w ui sname vi fuel lnum buf len bytes inp out = .error (.goto (-1) out')) := by
  induction fuel generalizing lnum buf len bytes inp pebs out with
  | zero =>
    cases bytes with
    | zero =>
      obtain rfl := Except.ok.inj h
      exact Or.inl ⟨fun k hk => absurd hk (Nat.not_lt_zero k), rfl⟩
    | succ bytes => cases h
  | succ fuel ih =>
    cases bytes with
    | zero =>
      obtain rfl := Except.ok.inj h
      exact Or.inl ⟨fun k hk => absurd hk (Nat.not_lt_zero k), rfl⟩
    | succ bytes =>
      rw [writeLoop.eq_3 _ _ _ _ _ _ _ _ (Nat.succ_ne_zero _)] at h
      rw [writeLoopIn.eq_3 _ _ _ _ _ _ _ _ _ _ _ (Nat.succ_ne_zero _)]
      dsimp only at h ⊢
      generalize (if bytes+1 < len then bytes+1 else len) = n at h ⊢
      split at h
      · cases h
      next hlen =>
        split at h
        next rest hrest =>
          obtain rfl := Except.ok.inj h
          rw [List.length_cons, LebsWork.succ]
          cases hr : w.fails (.read sname lnum) with
          | true => exact Or.inr ⟨fun hc => by simp at hc, _, if_pos (Or.inl rfl)⟩
          | false =>
            rw [if_neg (by simpa using hlen)]
            cases hw : w.fails (.write sname lnum) with
            | true => exact Or.inr ⟨fun hc => by simp at hc, _, if_pos rfl⟩
            | false =>
              rw [if_neg (by simp)]
              -- the LEB is written, and the rest of the loop decides
              rcases @ih (lnum+1) _ _ _ _ _ (out.write (readBytes _ 0 ui.peb_size)) hrest with
                ⟨hworks, hok⟩ | ⟨hfails, out', herr⟩
              · exact Or.inl ⟨⟨⟨rfl, rfl⟩, hworks⟩, hok⟩
              · exact Or.inr ⟨fun hc => hfails hc.2, out', herr⟩
        next => cases h

end Halts

section Steps

variable {w : World} {args : Args} {d : Dict} {sname : List Byte} {outbuf : ℕ → Byte}
  {p p' : Progress} {sec : Section} {halt : Halt}

/-- No earlier volume has the ID or the name of the section. -/
def Distinct (p : Progress) (sec : Section) : Prop :=
  ∀ v ∈ p.vis, sec.vi.id ≠ v.id ∧ sec.vi.name ≠ v.name

/-- The volume is the only one so far that is resized. -/
def Resizable (p : Progress) (sec : Section) : Prop :=
  sec.vi.flags &&& UBI_VTBL_AUTORESIZE_FLG ≠ 0#8 → p.autoresize = false

theorem pass_clash (hread : readSectionIn w args.info d sname = .ok (some sec))
    (hd : ¬ Distinct p sec) :
    passSection w args d sname outbuf p = .error (.goto 0 p.out) := by
  unfold passSection
  rw [hread]
  dsimp only [Option.isNone, Option.map, Section.volume]
  rw [if_neg (by decide)]
  cases hf : p.vis.findSome? (compareVolume 0 sec.vi.id (some sec.vi.name) p.out) with
  | none => exact absurd (compare_none_iff.mp hf) hd
  | some halt =>
    rw [compare_some hf]

theorem pass_direct (hread : readSectionIn w args.info d sname = .ok (some sec))
    (hd : Distinct p sec) (ha : ¬ Resizable p sec) :
    passSection w args d sname outbuf p = .error (.direct p.out) := by
  unfold passSection
  rw [hread]
  dsimp only [Option.isNone, Option.map, Section.volume]
  rw [if_neg (by decide), compare_none_iff.mpr hd]
  dsimp only
  rw [Resizable, Classical.not_imp, Bool.not_eq_false] at ha
  exact if_pos ha

/-- What is left of the pass where the volume is distinct. -/
theorem pass_distinct (hread : readSectionIn w args.info d sname = .ok (some sec))
    (hd : Distinct p sec) (ha : Resizable p sec) : passSection w args d sname outbuf p =
      match ubigenAddVolume args.info sec.vi p.vtbl with
      | .error (.errmsg _) => .error (.goto (-1) p.out)
      | .error _ => .error (.signal .fpe p.out)
      | .ok vtbl => match addImage w args sname outbuf sec.vi p.out sec.image with
        | .error halt => .error halt
        | .ok out => .ok ⟨out, vtbl, p.vis ++ [sec.vi],
            p.autoresize || sec.vi.flags &&& UBI_VTBL_AUTORESIZE_FLG ≠ 0#8⟩ := by
  unfold passSection
  rw [hread]
  dsimp only [Option.isNone, Option.map, Option.bind, Section.volume]
  rw [if_neg (by decide), compare_none_iff.mpr hd]
  dsimp only
  rw [if_neg]
  rintro ⟨hflag, hauto⟩
  rw [ha hflag] at hauto
  cases hauto

theorem pass_rejected (hread : readSectionIn w args.info d sname = .ok (some sec))
    (hd : Distinct p sec) (ha : Resizable p sec) (hck : checkVolume args.info sec.vi ≠ .ok ()) :
    passSection w args d sname outbuf p = .error (.goto (-1) p.out) := by
  obtain ⟨msg, hmsg⟩ : ∃ msg, checkVolume args.info sec.vi = .error (.errmsg msg) := by
    rcases @checkVolume_reports args.info sec.vi with ⟨⟨⟩, hok⟩ | hmsg
    · exact absurd hok hck
    · exact hmsg
  rw [pass_distinct hread hd ha, ubigenAddVolume, hmsg]
  rfl

/-- The image of a volume that is added is written, or it does not open, or a LEB fails. -/
theorem addImage_cases (hargs : args.Accepted) (hok : sec.Ok args.info)
    (hck : checkVolume args.info sec.vi = .ok ()) (out : OutFile) : ∃ pebs,
    writeImage args sec.vi outbuf sec.image = .ok pebs ∧ (∀ peb ∈ pebs, peb.length = args.peb_size) ∧
    (((sec.image ≠ none → w.fails (.openImage sname) = false) ∧ ImageWorks w sname sec ∧
        addImage w args sname outbuf sec.vi out sec.image = .ok (pebs.foldl OutFile.write out)) ∨
      ((sec.image ≠ none ∧ w.fails (.openImage sname) = true) ∧
        addImage w args sname outbuf sec.vi out sec.image = .error (.goto 0 out)) ∨
      ((sec.image ≠ none → w.fails (.openImage sname) = false) ∧ ¬ ImageWorks w sname sec ∧
        ∃ out', addImage w args sname outbuf sec.vi out sec.image = .error (.goto (-1) out'))) := by
  obtain ⟨vi, image⟩ := sec
  cases image with
  | none =>
    refine ⟨[], rfl, fun _ h => absurd h List.not_mem_nil, Or.inl ⟨fun h => absurd rfl h, ?_, rfl⟩⟩
    exact fun content h => by cases h
  | some content =>
    obtain ⟨hs, hleb⟩ := hok.leb_pos hargs hck
    obtain ⟨hp0, hp1, hu0⟩ := hok.sizes hleb
    obtain ⟨pebs, hpebs, hvol⟩ := @ubigenWriteVolume_spec _ vi hs args.ec hu0
      (by have := hok.usable; dsimp only at this hp0; omega) hck content outbuf
    refine ⟨pebs, hpebs, hvol.length, ?_⟩
    have hworks : ImageWorks w sname ⟨vi, some content⟩ ↔ LebsWork w sname 0 pebs.length := by
      rw [hvol.count]
      constructor
      · intro h k hk
        rw [Nat.zero_add]
        exact h content rfl k hk
      · rintro h _ ⟨rfl⟩ k hk
        have := h k hk
        rwa [Nat.zero_add] at this
    rw [ubigenWriteVolume, hck] at hpebs
    rw [hworks]
    unfold addImage
    dsimp only
    rw [hck]
    cases hopen : w.fails (.openImage sname) with
    | true => exact Or.inr (Or.inl ⟨⟨by simp, rfl⟩, if_pos rfl⟩)
    | false =>
      rw [if_neg (by simp)]
      rcases @writeLoopIn_cases w _ sname _ _ _ _ _ _ _ _ out hpebs with ⟨hl, h⟩ | ⟨hl, h⟩
      · exact Or.inl ⟨fun _ => rfl, hl, h⟩
      · exact Or.inr (Or.inr ⟨fun _ => rfl, hl, h⟩)

theorem addVolume_of_ok (hok : sec.Ok args.info) (hck : checkVolume args.info sec.vi = .ok ())
    (vtbl : List (List Byte)) : ∃ vtbl', ubigenAddVolume args.info sec.vi vtbl = .ok vtbl' := by
  rw [ubigenAddVolume, hck, Loop.ok_bind, if_neg hok.alignment_ne]
  exact ⟨_, rfl⟩

/-- What a pass can do. -/
inductive PassCase (w : World) (args : Args) (d : Dict) (outbuf : ℕ → Byte) (p : Progress)
    (sname : List Byte) : Except Halt Progress → Prop
  | report {msg : String} (hread : readSectionIn w args.info d sname = .error (.errmsg msg)) :
    PassCase w args d outbuf p sname (.error (.goto (-1) p.out))
  | signal {sig : Signal} (hread : readSectionIn w args.info d sname = .error (.signal sig)) :
    PassCase w args d outbuf p sname (.error (.signal sig p.out))
  | skipped (hread : readSectionIn w args.info d sname = .ok none) :
    PassCase w args d outbuf p sname (.error (skipHalt args.info p))
  | clash {sec : Section} (hread : readSectionIn w args.info d sname = .ok (some sec))
    (hd : ¬ Distinct p sec) : PassCase w args d outbuf p sname (.error (.goto 0 p.out))
  | direct {sec : Section} (hread : readSectionIn w args.info d sname = .ok (some sec))
    (ha : ¬ Resizable p sec) : PassCase w args d outbuf p sname (.error (.direct p.out))
  | rejected {sec : Section} (hread : readSectionIn w args.info d sname = .ok (some sec))
    (hd : Distinct p sec) (ha : Resizable p sec) (hck : checkVolume args.info sec.vi ≠ .ok ()) :
    PassCase w args d outbuf p sname (.error (.goto (-1) p.out))
  | unopened {sec : Section} (hread : readSectionIn w args.info d sname = .ok (some sec))
    (hck : checkVolume args.info sec.vi = .ok ()) (himage : sec.image ≠ none)
    (hopen : w.fails (.openImage sname) = true) :
    PassCase w args d outbuf p sname (.error (.goto 0 p.out))
  | broken {sec : Section} {out : OutFile}
    (hread : readSectionIn w args.info d sname = .ok (some sec)) (hd : Distinct p sec)
    (ha : Resizable p sec) (hopen : sec.image ≠ none → w.fails (.openImage sname) = false)
    (hworks : ¬ ImageWorks w sname sec) :
    PassCase w args d outbuf p sname (.error (.goto (-1) out))
  | added {sec : Section} {vtbl pebs : List (List Byte)}
    (hread : readSectionIn w args.info d sname = .ok (some sec)) (hd : Distinct p sec)
    (ha : Resizable p sec) (hck : checkVolume args.info sec.vi = .ok ())
    (hopen : sec.image ≠ none → w.fails (.openImage sname) = false)
    (hworks : ImageWorks w sname sec) (hadd : ubigenAddVolume args.info sec.vi p.vtbl = .ok vtbl)
    (hpebs : writeImage args sec.vi outbuf sec.image = .ok pebs)
    (hlen : ∀ peb ∈ pebs, peb.length = args.peb_size) :
    PassCase w args d outbuf p sname (.ok ⟨pebs.foldl OutFile.write p.out, vtbl,
      p.vis ++ [sec.vi], p.autoresize || sec.vi.flags &&& UBI_VTBL_AUTORESIZE_FLG ≠ 0#8⟩)

theorem passSection_cases (hargs : args.Accepted) (hmax : 0 < args.info.max_volumes) :
    PassCase w args d outbuf p sname (passSection w args d sname outbuf p) := by
  cases hread : readSectionIn w args.info d sname with
  | error fault =>
    cases fault with
    | errmsg msg =>
      have h : passSection w args d sname outbuf p = .error (.goto (-1) p.out) := by
        rw [passSection, hread]
      rw [h]
      exact .report hread
    | signal sig =>
      have h : passSection w args d sname outbuf p = .error (.signal sig p.out) := by
        rw [passSection, hread]
      rw [h]
      exact .signal hread
  | ok sec? =>
    cases sec? with
    | none =>
      rw [passSection_skipped hread hmax]
      exact .skipped hread
    | some sec =>
      have hok := readSection_ok (readSectionIn_ok hread)
      by_cases hd : Distinct p sec
      swap
      · rw [pass_clash hread hd]
        exact .clash hread hd
      by_cases ha : Resizable p sec
      swap
      · rw [pass_direct hread hd ha]
        exact .direct hread ha
      by_cases hck : checkVolume args.info sec.vi = .ok ()
      swap
      · rw [pass_rejected hread hd ha hck]
        exact .rejected hread hd ha hck
      obtain ⟨vtbl, hadd⟩ := addVolume_of_ok hok hck p.vtbl
      obtain ⟨pebs, hpebs, hlen, hcases⟩ := @addImage_cases w args sname outbuf _ hargs hok hck p.out
      rw [pass_distinct hread hd ha, hadd]
      dsimp only
      rcases hcases with ⟨hopen, hworks, himage⟩ | ⟨⟨hsome, hopen⟩, himage⟩ |
        ⟨hopen, hworks, out', himage⟩
      · rw [himage]
        exact .added hread hd ha hck hopen hworks hadd hpebs hlen
      · rw [himage]
        exact .unopened hread hck hsome hopen
      · rw [himage]
        exact .broken hread hd ha hopen hworks

/-- Where no volume is read, all that is left to ask for is the removal. -/
theorem passFits_of_report (hread : ∀ sec?, readSectionIn w args.info d sname ≠ .ok sec?) :
    PassFits w args d p sname ↔ (∀ sig, readSectionIn w args.info d sname ≠ .error (.signal sig)) ∧
      w.fails .remove = false := by
  constructor
  · intro h
    refine ⟨h.signal, Bool.eq_false_iff.mpr fun hr => ?_⟩
    obtain ⟨sec, hsec, -⟩ := h.removes hr
    exact hread _ hsec
  · rintro ⟨hsig, hr⟩
    refine ⟨hsig, ?_, ?_, ?_, ?_, ?_⟩
    · exact fun hc => absurd hc (hread _)
    · exact fun sec hc => absurd hc (hread _)
    · exact fun sec hc => absurd hc (hread _)
    · exact fun sec hc => absurd hc (hread _)
    · intro hc
      rw [hr] at hc
      cases hc

theorem passFits_of_skipped (hread : readSectionIn w args.info d sname = .ok none) :
    PassFits w args d p sname ↔ ((p.vis = [] ∧ args.info.leb_size ≤ 0) ∨
      ∃ v vis, p.vis = v :: vis ∧ v.id = 0) ∧ w.fails .remove = false := by
  constructor
  · intro h
    refine ⟨h.skipped hread, Bool.eq_false_iff.mpr fun hr => ?_⟩
    obtain ⟨sec, hsec, -⟩ := h.removes hr
    rw [hread] at hsec
    cases hsec
  · rintro ⟨hskip, hr⟩
    refine ⟨?_, fun _ => hskip, ?_, ?_, ?_, ?_⟩
    all_goals rw [hread]
    · exact fun sig hc => by cases hc
    · exact fun sec hc => by cases hc
    · exact fun sec hc => by cases hc
    · exact fun sec hc => by cases hc
    · exact fun hc => by rw [hr] at hc; cases hc

theorem passFits_of_read (hread : readSectionIn w args.info d sname = .ok (some sec)) :
    PassFits w args d p sname ↔ Distinct p sec ∧ Resizable p sec ∧
      (checkVolume args.info sec.vi = .ok () → sec.image ≠ none →
        w.fails (.openImage sname) = false) ∧
      (w.fails .remove = true → checkVolume args.info sec.vi = .ok () ∧ ImageWorks w sname sec) := by
  constructor
  · intro h
    refine ⟨h.distinct sec hread, h.autoresize sec hread, h.opens sec hread, fun hr => ?_⟩
    obtain ⟨sec', hsec, hck, hworks⟩ := h.removes hr
    obtain rfl := Option.some.inj (Except.ok.inj (hread.symm.trans hsec))
    exact ⟨hck, hworks⟩
  · rintro ⟨hd, ha, hopen, hr⟩
    refine ⟨?_, ?_, ?_, ?_, ?_, ?_⟩
    all_goals rw [hread]
    · exact fun sig hc => by cases hc
    · exact fun hc => by cases hc
    · rintro _ ⟨rfl⟩
      exact hd
    · rintro _ ⟨rfl⟩
      exact ha
    · rintro _ ⟨rfl⟩
      exact hopen
    · exact fun hc => ⟨sec, rfl, hr hc⟩

theorem skipHalt_clean_iff (ui : UbigenInfo) : (skipHalt ui p).Clean w ↔
    ((p.vis = [] ∧ ui.leb_size ≤ 0) ∨ ∃ v vis, p.vis = v :: vis ∧ v.id = 0) ∧
      w.fails .remove = false := by
  unfold skipHalt
  cases p.vis with
  | nil => by_cases hleb : ui.leb_size ≤ 0 <;> simp [hleb, Halt.Clean]
  | cons v vis => by_cases hid : v.id = 0 <;> simp [hid, Halt.Clean]

/-- A pass that halts is told by the status if and only if it fits, and it halts without an error
only before the first eraseblock is written. -/
theorem PassCase.halts (h : PassCase w args d outbuf p sname (.error halt))
    (hblank : p.out.data.head? ≠ some 0x55#8) :
    halt.Early ∧ (halt.Clean w ↔ PassFits w args d p sname) := by
  cases h with
  | report hread =>
    refine ⟨fun h => absurd h (by decide), ?_⟩
    rw [passFits_of_report (fun sec? hc => by rw [hread] at hc; cases hc)]
    have hsig : ∀ sig, readSectionIn w args.info d sname ≠ .error (.signal sig) := by
      intro sig hc
      rw [hread] at hc
      cases hc
    exact ⟨fun hc => ⟨hsig, hc.2⟩, fun hc => ⟨by decide, hc.2⟩⟩
  | signal hread =>
    exact ⟨trivial, iff_of_false id fun hfits => hfits.signal _ hread⟩
  | skipped hread =>
    refine ⟨?_, (skipHalt_clean_iff args.info).trans (passFits_of_skipped hread).symm⟩
    unfold skipHalt
    cases p.vis with
    | nil =>
      dsimp only
      split
      · exact fun h => absurd h (by decide)
      · trivial
    | cons v vis =>
      dsimp only
      split
      · exact fun h => absurd h (by decide)
      · trivial
  | clash hread hd =>
    exact ⟨fun _ => hblank, iff_of_false (fun hc => hc.1 rfl)
      fun hfits => hd (hfits.distinct _ hread)⟩
  | direct hread ha =>
    exact ⟨trivial, iff_of_false id fun hfits => ha (hfits.autoresize _ hread)⟩
  | rejected hread hd ha hck =>
    refine ⟨fun h => absurd h (by decide), ?_⟩
    rw [passFits_of_read hread]
    simp [hd, ha, hck, Halt.Clean]
  | unopened hread hck himage hopen =>
    refine ⟨fun _ => hblank, iff_of_false (fun hc => hc.1 rfl) fun hfits => ?_⟩
    have := hfits.opens _ hread hck himage
    rw [hopen] at this
    cases this
  | broken hread hd ha hopen hworks =>
    refine ⟨fun h => absurd h (by decide), ?_⟩
    rw [passFits_of_read hread]
    constructor
    · rintro ⟨-, hr⟩
      exact ⟨hd, ha, fun _ => hopen, fun hc => by rw [hr] at hc; cases hc⟩
    · rintro ⟨-, -, -, hr⟩
      exact ⟨by decide, Bool.eq_false_iff.mpr fun hc => hworks (hr hc).2⟩

end Steps

section Runs

variable {w : World} {args : Args} {d : Dict} {outbuf : ℕ → Byte} {p p' : Progress}
  {names done : List (List Byte)} {secs : List Section} {vols : List (List (List Byte))}
  {empty : List (List Byte)} {complete : List Byte → Prop}

/-- The sections `done` are in the output file and in the volume table. -/
structure Made (w : World) (args : Args) (d : Dict) (outbuf : ℕ → Byte) (empty : List (List Byte))
    (done : List (List Byte)) (p : Progress) (secs : List Section)
    (vols : List (List (List Byte))) : Prop where
  read : List.Forall₂ (fun sname sec => readSectionIn w args.info d sname = .ok (some sec)) done secs
  image : List.Forall₂ (fun sec pebs => writeImage args sec.vi outbuf sec.image = .ok pebs) secs vols
  table : secs.foldlM (fun vtbl sec => ubigenAddVolume args.info sec.vi vtbl) empty = .ok p.vtbl
  out : p.out.Holds args.peb_size vols.flatten.flatten
  blank : p.out.data.head? ≠ some 0x55#8

/-- What is written behind the first byte leaves it, or leaves a hole there. -/
theorem OutFile.write_head {f : OutFile} (hpos : 0 < f.pos) {b : Byte} (hb : b ≠ 0#8)
    (h : f.data.head? ≠ some b) (bs : List Byte) : (f.write bs).data.head? ≠ some b := by
  obtain ⟨data, pos⟩ := f
  obtain ⟨n, rfl⟩ : ∃ n, pos = n+1 := ⟨pos-1, by dsimp only at hpos; omega⟩
  unfold OutFile.write
  cases data with
  | nil =>
    intro hc
    simp only [List.take_nil, List.nil_append, List.length_nil, Nat.sub_zero, zeros,
      List.replicate_succ, List.cons_append, List.head?_cons] at hc
    exact hb (Option.some.inj hc).symm
  | cons a data =>
    simp only [List.take_succ_cons, List.cons_append, List.head?_cons]
    exact h

theorem OutFile.writes_head {f : OutFile} (hpos : 0 < f.pos) {b : Byte} (hb : b ≠ 0#8)
    (h : f.data.head? ≠ some b) (pebs : List (List Byte)) :
    (pebs.foldl OutFile.write f).data.head? ≠ some b := by
  induction pebs generalizing f with
  | nil => exact h
  | cons peb pebs ih => exact ih (Nat.lt_of_lt_of_le hpos (Nat.le_add_right _ _)) (f.write_head hpos hb h peb)

theorem OutFile.Holds.pos_pos {peb_size : ℕ} {f : OutFile} {content : List Byte}
    (h : f.Holds peb_size content) (hpeb : 0 < peb_size) : 0 < f.pos := by
  rcases h.pos with ⟨-, hp⟩ | ⟨-, hp⟩ <;> omega

theorem Made.start (empty : List (List Byte)) :
    Made w args d outbuf empty [] (firstProgress args.info empty) [] [] := by
  refine ⟨List.Forall₂.nil, List.Forall₂.nil, rfl, ⟨List.drop_nil, Or.inl ⟨rfl, rfl⟩⟩, ?_⟩
  exact fun hc => by cases hc

theorem PassCase.fits {sname : List Byte} (h : PassCase w args d outbuf p sname (.ok p')) :
    PassFits w args d p sname := by
  cases h with
  | added hread hd ha hck hopen hworks hadd hpebs hlen =>
    exact (passFits_of_read hread).mpr ⟨hd, ha, fun _ => hopen, fun _ => ⟨hck, hworks⟩⟩

/-- A pass that adds a volume. -/
theorem Made.step (hpeb : 0 < args.peb_size) {sname : List Byte}
    (h : Made w args d outbuf empty done p secs vols)
    (hpass : PassCase w args d outbuf p sname (.ok p')) :
    ∃ secs' vols', Made w args d outbuf empty (done ++ [sname]) p' secs' vols' := by
  cases hpass with
  | @added sec vtbl pebs hread hd ha hck hopen hworks hadd hpebs hlen =>
    refine ⟨secs ++ [sec], vols ++ [pebs], ⟨?_, ?_, ?_, ?_, ?_⟩⟩
    · exact List.rel_append h.read (List.Forall₂.cons hread List.Forall₂.nil)
    · exact List.rel_append h.image (List.Forall₂.cons hpebs List.Forall₂.nil)
    · rw [List.foldlM_append, h.table, Loop.ok_bind, List.foldlM_cons, hadd]
      rfl
    · have hne : ∀ peb ∈ pebs, peb ≠ [] := by
        rintro peb hmem rfl
        have hz : (0 : ℕ) = args.peb_size := hlen [] hmem
        omega
      have := h.out.writes hne
      rwa [List.flatten_append, List.flatten_append, List.flatten_singleton]
    · exact OutFile.writes_head (h.out.pos_pos hpeb) (by decide) h.blank pebs

/-- The layout volume is written, or the first of its operations that fails ends the program. -/
theorem writeLayout_cases : (LayoutWorks w ∧ writeLayout w args outbuf p =
      .ok ((((p.out.lseek 0).write (layoutPebs args.info args.ec args.ec p.vtbl outbuf).1).lseek
        args.info.peb_size).write (layoutPebs args.info args.ec args.ec p.vtbl outbuf).2)) ∨
    (¬ LayoutWorks w ∧ ∃ out, writeLayout w args outbuf p = .error (.goto (-1) out)) := by
  unfold writeLayout
  dsimp only
  split
  next h => exact Or.inr ⟨fun hw => Bool.false_ne_true ((hw 0 (by decide)).1.symm.trans h), _, rfl⟩
  next h0 =>
    split
    next h => exact Or.inr ⟨fun hw => Bool.false_ne_true ((hw 0 (by decide)).2.symm.trans h), _, rfl⟩
    next h1 =>
      split
      next h => exact Or.inr ⟨fun hw => Bool.false_ne_true ((hw 1 (by decide)).1.symm.trans h), _, rfl⟩
      next h2 =>
        split
        next h => exact Or.inr ⟨fun hw => Bool.false_ne_true ((hw 1 (by decide)).2.symm.trans h), _, rfl⟩
        next h3 =>
          refine Or.inl ⟨?_, rfl⟩
          intro lnum hl
          rcases Nat.lt_succ_iff_lt_or_eq.mp hl with hl | rfl
          · obtain rfl := Nat.lt_one_iff.mp hl
            exact ⟨Bool.eq_false_iff.mpr h0, Bool.eq_false_iff.mpr h1⟩
          · exact ⟨Bool.eq_false_iff.mpr h2, Bool.eq_false_iff.mpr h3⟩

theorem layoutPebs_length (ui : UbigenInfo) (ec : ℕ) (vtbl : List (List Byte)) :
    (layoutPebs ui ec ec vtbl outbuf).1.length = ui.peb_size ∧
      (layoutPebs ui ec ec vtbl outbuf).2.length = ui.peb_size :=
  ⟨readBytes_length _ _ _, readBytes_length _ _ _⟩

theorem info_vid_pos (hargs : args.Accepted) : 0 < args.info.vid_hdr_offs := by
  by_cases h0 : args.vid_hdr_offs = 0
  · have := info_ec_before_vid hargs (Or.inl h0)
    rw [UBI_EC_HDR_SIZE] at this
    omega
  · rw [info_vid_hdr_offs h0]
    omega

/-- The first byte of the image is that of the magic of an EC header. -/
theorem CompleteImage.head (hargs : args.Accepted) {content : List Byte}
    (h : CompleteImage w args d outbuf content) : content.head? = some 0x55#8 := by
  obtain ⟨secs, vols, empty, vtbl, -, -, -, -, rfl⟩ := h
  have hpeb : 0 < args.info.peb_size := hargs.peb_pos
  have hvid := info_vid_pos hargs
  have hfirst (f : ℕ → Byte) {n : ℕ} (hn : 0 < n) : (readBytes f 0 n).head? = some (f 0) := by
    obtain ⟨m, rfl⟩ : ∃ m, n = m+1 := ⟨n-1, by omega⟩
    rw [readBytes, List.range_succ_eq_map]
    rfl
  rw [List.head?_append, layoutPebs]
  dsimp only
  rw [hfirst _ hpeb, copyTo_below hvid]
  have hec (buf : ℕ → Byte) : copyTo buf 0 (ubigenInitEcHdr args.info args.ec) 0 = 0x55#8 := rfl
  rw [hec]
  rfl

theorem CompleteImage.unique {c1 c2 : List Byte} (h1 : CompleteImage w args d outbuf c1)
    (h2 : CompleteImage w args d outbuf c2) : c1 = c2 := by
  obtain ⟨secs1, vols1, empty1, vtbl1, hread1, hwrite1, hempty1, htable1, rfl⟩ := h1
  obtain ⟨secs2, vols2, empty2, vtbl2, hread2, hwrite2, hempty2, htable2, rfl⟩ := h2
  have hsecs : secs1 = secs2 := by
    refine Relator.RightUnique.forall₂ ?_ hread1 hread2
    intro sname a b ha hb
    exact Option.some.inj (Except.ok.inj (ha.symm.trans hb))
  subst hsecs
  have hvols : vols1 = vols2 := by
    refine Relator.RightUnique.forall₂ ?_ hwrite1 hwrite2
    intro sec a b ha hb
    exact Except.ok.inj (ha.symm.trans hb)
  obtain rfl := Except.ok.inj (hempty1.symm.trans hempty2)
  obtain rfl := Except.ok.inj (htable1.symm.trans htable2)
  rw [hvols]

/-- Where all sections are made, all of them are for UBI. -/
theorem Made.ubiNames (h : Made w args d outbuf empty done p secs vols) :
    done.filter (fun sname => d.getstring (keyOf sname "mode") = some (literal "ubi")) = done := by
  apply List.filter_eq_self.mpr
  intro sname hmem
  obtain ⟨k, hk, rfl⟩ := List.mem_iff_getElem.mp hmem
  have hget := List.forall₂_iff_get.mp h.read
  obtain ⟨mode, hmode, -, hubi⟩ := readSectionIn_mode (hget.2 k hk (hget.1 ▸ hk))
  rw [List.get_eq_getElem] at hmode
  rw [hmode, hubi (Option.some_ne_none _)]
  exact decide_eq_true rfl

/-- The output file of a run that comes to its end. -/
theorem Made.image_complete (h : Made w args d outbuf empty d.secnames p secs vols)
    (hempty : ubigenCreateEmptyVtbl args.info = .ok empty) : CompleteImage w args d outbuf
      ((((p.out.lseek 0).write (layoutPebs args.info args.ec args.ec p.vtbl outbuf).1).lseek
        args.info.peb_size).write (layoutPebs args.info args.ec args.ec p.vtbl outbuf).2).data := by
  obtain ⟨hl0, hl1⟩ := @layoutPebs_length outbuf args.info args.ec p.vtbl
  refine ⟨secs, vols, empty, p.vtbl, ?_, h.image, hempty, h.table, h.out.layout hl0 hl1⟩
  rw [Ubi.ubiNames, h.ubiNames]
  exact h.read.imp fun sname sec hread => readSectionIn_ok hread

/-- Its status is truthful if and only if closing it loses nothing. -/
theorem closed_truthful_iff (hunique : ∀ c1 c2, complete c1 → complete c2 → c1 = c2)
    {data : List Byte} (hdata : complete data) :
    (Ending.returned 0 (some (w.closed data))).Truthful complete ↔
      (w.fails .close = true → data.length ≤ w.kept) := by
  have hiff : (Ending.returned 0 (some (w.closed data))).Truthful complete ↔
      complete (w.closed data) := by
    constructor
    · rintro (⟨-, content, hfile, hc⟩ | ⟨hne, -⟩)
      · rwa [Option.some.inj hfile]
      · exact absurd rfl hne
    · exact fun hc => Or.inl ⟨rfl, _, rfl, hc⟩
  rw [hiff, World.closed]
  cases w.fails .close with
  | false => exact iff_of_true hdata (fun hc => by cases hc)
  | true =>
    constructor
    · intro hc _
      have hlen := congrArg List.length (hunique _ _ hc hdata)
      rw [if_pos rfl, List.length_take] at hlen
      omega
    · intro hle
      rw [if_pos rfl, List.take_of_length_le (hle rfl)]
      exact hdata

/-- The run from `p` on: each pass that it comes to, and its end. -/
theorem runSections_truthful_iff (hargs : args.Accepted) (hmax : 0 < args.info.max_volumes)
    (hcomplete : ∀ content, complete content ↔ CompleteImage w args d outbuf content)
    (hempty : ubigenCreateEmptyVtbl args.info = .ok empty) (hnames : d.secnames = done ++ names)
    (h : Made w args d outbuf empty done p secs vols) :
    (runSections w args d outbuf names p).Truthful complete ↔
      SectionsFit w args d outbuf names p := by
  have hpeb := hargs.peb_pos
  have hhead : ∀ content, complete content → content.head? = some 0x55#8 :=
    fun content hc => ((hcomplete content).mp hc).head hargs
  induction names generalizing p done secs vols with
  | nil =>
    rw [List.append_nil] at hnames
    subst hnames
    change _ ↔ EndFits w args p
    rw [runSections, List.foldlM_nil]
    change (match writeLayout w args outbuf p with
      | .error halt => halt.ending w
      | .ok out => .returned 0 (some (w.closed out.data))).Truthful complete ↔ _
    rcases @writeLayout_cases w args outbuf p with ⟨hw, hout⟩ | ⟨hw, out, hout⟩
    · rw [hout]
      have hdata := h.image_complete hempty
      dsimp only
      rw [closed_truthful_iff (fun c1 c2 h1 h2 =>
        ((hcomplete c1).mp h1).unique ((hcomplete c2).mp h2)) ((hcomplete _).mpr hdata)]
      have hlen : ((((p.out.lseek 0).write (layoutPebs args.info args.ec args.ec p.vtbl
          outbuf).1).lseek args.info.peb_size).write (layoutPebs args.info args.ec args.ec p.vtbl
          outbuf).2).data.length = max (2*args.info.peb_size) p.out.data.length := by
        obtain ⟨hl0, hl1⟩ := @layoutPebs_length outbuf args.info args.ec p.vtbl
        have hrest := congrArg List.length h.out.content
        rw [List.length_drop] at hrest
        refine (congrArg List.length (h.out.layout hl0 hl1)).trans ?_
        rw [List.length_append, List.length_append, hl0, hl1, ← hrest]
        change args.peb_size+(args.peb_size+_) = max (2*args.peb_size) _
        omega
      rw [hlen]
      exact ⟨fun hc => ⟨fun _ => hw, fun _ => hc⟩, fun hf => hf.closes hw⟩
    · rw [hout]
      have hearly : (Halt.goto (-1) out).Early := fun hc => absurd hc (by decide)
      dsimp only
      rw [Halt.ending_truthful hhead hearly]
      constructor
      · rintro ⟨-, hr⟩
        exact ⟨fun hc => absurd (hr.symm.trans hc) (by decide), fun hc => absurd hc hw⟩
      · intro hf
        exact ⟨by decide, Bool.eq_false_iff.mpr fun hc => hw (hf.removes hc)⟩
  | cons sname names ih =>
    have hcases := @passSection_cases w args d sname outbuf p hargs hmax
    change _ ↔ PassFits w args d p sname ∧
      ∀ p', passSection w args d sname outbuf p = .ok p' → SectionsFit w args d outbuf names p'
    rw [runSections, List.foldlM_cons]
    cases hpass : passSection w args d sname outbuf p with
    | error halt =>
      rw [hpass] at hcases
      obtain ⟨hearly, hiff⟩ := hcases.halts h.blank
      change (halt.ending w).Truthful complete ↔ _
      rw [Halt.ending_truthful hhead hearly, hiff]
      exact ⟨fun hf => ⟨hf, fun p' hc => by cases hc⟩, fun hf => hf.1⟩
    | ok p1 =>
      rw [hpass] at hcases
      obtain ⟨secs1, vols1, h1⟩ := h.step hpeb hcases
      rw [Loop.ok_bind]
      change (runSections w args d outbuf names p1).Truthful complete ↔ _
      have hnames' : d.secnames = (done ++ [sname]) ++ names := by
        rw [hnames, List.append_assoc]
        rfl
      refine (ih hnames' h1).trans ?_
      constructor
      · intro hf
        refine ⟨hcases.fits, ?_⟩
        rintro p' ⟨rfl⟩
        exact hf
      · exact fun hf => hf.2 p1 rfl

end Runs

section Refinement

variable {w : World} {args : Args} {d : Dict} {outbuf : ℕ → Byte} {p p' : Progress}
  {sname : List Byte} {sec : Section}

theorem clash_none (hd : Distinct p sec) : p.vis.findSome? (clash sec.vi sname) = none := by
  apply List.findSome?_eq_none_iff.mpr
  intro v hv
  obtain ⟨hid, hname⟩ := hd v hv
  unfold clash
  rw [if_neg hid, if_neg hname]

/-- A pass that adds a volume is the pass of the generator. -/
theorem PassCase.addSection (h : PassCase w args d outbuf p sname (.ok p')) :
    addSection args d w.files outbuf p sname = .ok p' := by
  cases h with
  | @added sec vtbl pebs hread hd ha hck hopen hworks hadd hpebs hlen =>
    have hauto : ¬ (sec.vi.flags &&& UBI_VTBL_AUTORESIZE_FLG ≠ 0#8 ∧ p.autoresize = true) := by
      rintro ⟨hflag, hc⟩
      rw [ha hflag] at hc
      cases hc
    unfold Ubi.addSection
    dsimp only
    rw [readSectionIn_ok hread, Loop.ok_bind]
    obtain ⟨vi, image⟩ := sec
    dsimp only
    rw [clash_none hd]
    dsimp only
    rw [if_neg hauto, hadd, Loop.ok_bind, hpebs]
    rfl

theorem foldlM_addSection (hargs : args.Accepted) (hmax : 0 < args.info.max_volumes)
    {names : List (List Byte)}
    (h : names.foldlM (fun p sname => passSection w args d sname outbuf p) p = .ok p') :
    names.foldlM (Ubi.addSection args d w.files outbuf) p = .ok p' := by
  induction names generalizing p with
  | nil =>
    obtain rfl := Except.ok.inj h
    rfl
  | cons sname names ih =>
    rw [List.foldlM_cons] at h ⊢
    have hcases := @passSection_cases w args d sname outbuf p hargs hmax
    cases hpass : passSection w args d sname outbuf p with
    | error halt =>
      rw [hpass] at h
      cases h
    | ok p1 =>
      rw [hpass] at h hcases
      rw [hcases.addSection]
      exact ih h

/-- A run that returns zero with a file has made what the generator makes where nothing fails. -/
theorem runConfig_refines (hargs : args.Accepted) {vtbl : List (List Byte)}
    (hvtbl : ubigenCreateEmptyVtbl args.info = .ok vtbl) (hremove : w.fails .remove = false)
    {file : List Byte} (h : runConfig w args d outbuf vtbl = .returned 0 (some file)) :
    ∃ out, ubinize args d w.files outbuf = .ok out ∧ file = w.closed out := by
  have hfinish (err : ℤ) (out : OutFile) : finish w err out ≠ .returned 0 (some file) := by
    rw [finish, hremove]
    exact fun hc => by cases hc
  have hending (halt : Halt) : halt.ending w ≠ .returned 0 (some file) := by
    cases halt with
    | goto err out => exact hfinish err out
    | direct out => exact fun hc => by cases hc
    | signal sig out => exact fun hc => by cases hc
    | hang => exact fun hc => by cases hc
  unfold runConfig at h
  split at h
  · exact absurd h (hfinish _ _)
  next hne =>
  split at h
  · exact absurd h (hfinish _ _)
  next hle =>
  split at h
  · exact absurd h (hfinish _ _)
  have hmax : 0 < args.info.max_volumes := by
    have := List.length_pos_iff.mpr hne
    omega
  unfold runSections at h
  split at h
  · exact absurd h (hending _)
  next p hp =>
    have hfold := foldlM_addSection hargs hmax hp
    rcases @writeLayout_cases w args outbuf p with ⟨-, hout⟩ | ⟨-, out, hout⟩
    · rw [hout] at h
      refine ⟨_, ?_, (Option.some.inj (Ending.returned.inj h).2).symm⟩
      unfold ubinize
      dsimp only
      rw [hvtbl, Loop.ok_bind, if_neg hne, if_neg hle]
      change (d.secnames.foldlM _ (firstProgress args.info vtbl) >>= _) = _
      rw [hfold]
      rfl
    · rw [hout] at h
      exact absurd h (hending _)

end Refinement

section Status

variable {w : World} {outbuf : ℕ → Byte} {rand : BitVec 32} {opts : List Opt}
  {rest : List (List Byte)} {complete : List Byte → Prop}

/-- The exits with `err` still zero: the output is removed, and the status is that of success. -/
theorem finish_not_truthful (hhead : ∀ content, complete content → content.head? = some 0x55#8) :
    ¬ (finish w 0 ⟨[], 0⟩).Truthful complete := by
  rw [finish_truthful hhead (fun _ hc => by cases hc)]
  exact fun hc => hc.1 rfl

/-- A file that is left where the options end the program. -/
theorem opened_iff (f_out : Option (List Byte)) :
    f_out.map (fun _ => ([] : List Byte)) = none ↔ f_out = none := Option.map_eq_none_iff

theorem runArgs_truthful_iff {args : Args} {f_in : List Byte} (hargs : args.Accepted)
    (hcomplete : ∀ content, complete content ↔ ∃ d, w.ini f_in = some d ∧
      CompleteImage w args d outbuf content) :
    (runArgs w args outbuf f_in).Truthful complete ↔ w.fails .seek = false ∧
      ∃ vtbl d, ubigenCreateEmptyVtbl args.info = .ok vtbl ∧ w.ini f_in = some d ∧
        d.secnames ≠ [] ∧ d.secnames.length ≤ args.info.max_volumes ∧
        SectionsFit w args d outbuf d.secnames (firstProgress args.info vtbl) := by
  have hhead : ∀ content, complete content → content.head? = some 0x55#8 := by
    intro content hc
    obtain ⟨d, -, hd⟩ := (hcomplete content).mp hc
    exact hd.head hargs
  have hearly := @finish_not_truthful w complete hhead
  unfold runArgs
  cases hvtbl : ubigenCreateEmptyVtbl args.info with
  | error e =>
    refine iff_of_false hearly ?_
    rintro ⟨-, vtbl, d, hv, -⟩
    cases hv
  | ok vtbl =>
    dsimp only
    cases hini : w.ini f_in with
    | none =>
      refine iff_of_false hearly ?_
      rintro ⟨-, vtbl, d, -, hd, -⟩
      cases hd
    | some d =>
      dsimp only
      unfold runConfig
      split
      next hnil =>
        refine iff_of_false hearly ?_
        rintro ⟨-, _, _, -, ⟨rfl⟩, hne, -⟩
        exact hne hnil
      next hne =>
        split
        next hmany =>
          refine iff_of_false hearly ?_
          rintro ⟨-, _, _, -, ⟨rfl⟩, -, hle, -⟩
          omega
        next hle =>
          split
          next hseek =>
            refine iff_of_false hearly ?_
            rintro ⟨hc, -⟩
            rw [hseek] at hc
            cases hc
          next hseek =>
            have hlen := List.length_pos_iff.mpr hne
            have hiff : ∀ content, complete content ↔ CompleteImage w args d outbuf content := by
              intro content
              rw [hcomplete, hini]
              exact ⟨by rintro ⟨_, ⟨rfl⟩, hc⟩; exact hc, fun hc => ⟨d, rfl, hc⟩⟩
            rw [runSections_truthful_iff hargs (by omega) hiff hvtbl (List.nil_append _).symm
              (Made.start vtbl)]
            constructor
            · intro hfit
              exact ⟨Bool.eq_false_iff.mpr hseek, vtbl, d, rfl, rfl, hne, not_lt.mp hle, hfit⟩
            · rintro ⟨-, _, _, ⟨rfl⟩, ⟨rfl⟩, -, -, hfit⟩
              exact hfit

/-- The status is truthful in exactly the runs where the options end the program before they open
the output, or no early exit, no signal and no failing removal is met, and closing the output loses
none of it. -/
theorem status_truthful_iff : (main w outbuf rand opts rest).Truthful (ImageOf w outbuf rand opts rest) ↔
    StatusFits w outbuf rand opts rest := by
  unfold main
  cases hparse : parseOpt w.opens rand opts rest with
  | error e =>
    obtain ⟨quit, o⟩ := e
    have hfits : StatusFits w outbuf rand opts rest ↔ o.f_out = none := by
      constructor
      · exact fun h => h.quits quit o hparse
      · intro h
        refine ⟨?_, ?_⟩
        all_goals rw [hparse]
        · rintro _ _ ⟨rfl⟩
          exact h
        · exact fun o hc => by cases hc
    rw [hfits, ← opened_iff]
    cases quit with
    | errmsg msg =>
      constructor
      · rintro (⟨hc, -⟩ | ⟨-, hfile⟩)
        · exact absurd hc (by decide)
        · exact hfile
      · exact fun hfile => Or.inr ⟨by decide, hfile⟩
    | exit => exact Iff.rfl
  | ok o =>
    dsimp only
    have hfits : StatusFits w outbuf rand opts rest ↔ o.vid_hdr_offs+UBI_VID_HDR_SIZE < 2^31 ∧
        w.fails .seek = false ∧ ∃ vtbl d, ubigenCreateEmptyVtbl o.args.info = .ok vtbl ∧
        w.ini o.f_in = some d ∧ d.secnames ≠ [] ∧ d.secnames.length ≤ o.args.info.max_volumes ∧
        SectionsFit w o.args d outbuf d.secnames (firstProgress o.args.info vtbl) := by
      constructor
      · exact fun h => h.runs o hparse
      · intro h
        refine ⟨?_, ?_⟩
        all_goals rw [hparse]
        · exact fun q o' hc => by cases hc
        · rintro _ ⟨rfl⟩
          exact h
    rw [hfits]
    split
    next hover => exact iff_of_false id (fun h => absurd h.1 (not_lt.mpr hover))
    next hvid =>
      have hargs := (parseOpt_accepted hparse).args (not_le.mp hvid)
      rw [runArgs_truthful_iff hargs (fun content => ?_)]
      · exact ⟨fun h => ⟨not_le.mp hvid, h⟩, fun h => h.2⟩
      · constructor
        · rintro ⟨o', d, ho, hini, hc⟩
          obtain rfl := Except.ok.inj (hparse.symm.trans ho)
          exact ⟨d, hini, hc⟩
        · rintro ⟨d, hini, hc⟩
          exact ⟨o, d, hparse, hini, hc⟩

/-- Nothing fails, and the configuration has no section. -/
def emptyWorld : World := ⟨fun _ => true, fun _ => some [], fun _ => none, fun _ => false, fun _ => 0, 0⟩

/-- The program says that no sections were found, removes the output, and returns zero. -/
theorem status_of_no_sections :
    main emptyWorld (fun _ => 0#8) 0#32 [.output (literal "ubi.img"), .pebSize (literal "128KiB"),
      .minIoSize (literal "2048")] [literal "cfg.ini"] = .returned 0 none ∧
    ¬ (main emptyWorld (fun _ => 0#8) 0#32 [.output (literal "ubi.img"), .pebSize (literal "128KiB"),
      .minIoSize (literal "2048")] [literal "cfg.ini"]).Truthful (ImageOf emptyWorld (fun _ => 0#8) 0#32
      [.output (literal "ubi.img"), .pebSize (literal "128KiB"), .minIoSize (literal "2048")]
      [literal "cfg.ini"]) := by
  have hmain : main emptyWorld (fun _ => 0#8) 0#32 [.output (literal "ubi.img"),
      .pebSize (literal "128KiB"), .minIoSize (literal "2048")] [literal "cfg.ini"] =
        .returned 0 none := by
    unfold main
    have hparse : parseOpt emptyWorld.opens 0#32 [.output (literal "ubi.img"),
      .pebSize (literal "128KiB"), .minIoSize (literal "2048")] [literal "cfg.ini"] =
        .ok (nandOptions 0) := parseOpt_nand
    rw [hparse]
    dsimp only
    rw [if_neg (by decide)]
    rfl
  refine ⟨hmain, ?_⟩
  rw [hmain]
  rintro (⟨-, content, hfile, -⟩ | ⟨hne, -⟩)
  · cases hfile
  · exact hne rfl

end Status

end ChipTools.Ubi
