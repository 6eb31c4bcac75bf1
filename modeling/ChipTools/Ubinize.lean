import ChipTools.UbiGen
import Mathlib.Data.List.Forall2

/-! `ubinize`: the sections of the configuration, and the image that is made of them. -/
namespace ChipTools.Ubi
open Bytes CNumber

def UBI_MAX_PEB_SZ : ℕ := 2*1024*1024

/-- The options. -/
structure Args where
  peb_size : ℕ
  min_io_size : ℕ
  subpage_size : ℕ
  vid_hdr_offs : ℕ
  ec : ℕ
  ubi_ver : ℕ
  image_seq : BitVec 32

/-- What `parse_opt` asks of the options. -/
structure Args.Accepted (args : Args) : Prop where
  peb_pos : 0 < args.peb_size
  peb_max : args.peb_size ≤ UBI_MAX_PEB_SZ
  min_io : ∃ k, args.min_io_size = 2^k
  subpage : ∃ k, args.subpage_size = 2^k
  subpage_le : args.subpage_size ≤ args.min_io_size
  peb_io : args.peb_size%args.min_io_size = 0
  vid : args.vid_hdr_offs ≠ 0 → args.vid_hdr_offs+UBI_VID_HDR_SIZE < args.peb_size ∧
    args.vid_hdr_offs%8 = 0
  -- an `int`
  ec : args.ec < 2^31

def Args.info (args : Args) : UbigenInfo :=
  ubigenInfoInit args.peb_size args.min_io_size args.subpage_size args.vid_hdr_offs args.ubi_ver
    args.image_seq

section Ini

/-- The dictionary of `iniparser_load`: keys with their values, those of sections with none. -/
abbrev Dict := List (List Byte × Option (List Byte))

/-- `strlwc`. -/
def strlwc (s : List Byte) : List Byte :=
  s.map fun b => if 0x41#8 ≤ b ∧ b ≤ 0x5a#8 then b+0x20#8 else b

/-- `dictionary_get`. -/
def Dict.get (d : Dict) (key : List Byte) : Option (Option (List Byte)) :=
  (d.find? fun e => e.1 = strlwc key).map Prod.snd

/-- `iniparser_getstring` with the default `NULL`. -/
def Dict.getstring (d : Dict) (key : List Byte) : Option (List Byte) := (d.get key).join

/-- `iniparser_getint`: a key without a value is a null pointer for `strtol`. -/
def Dict.getint (d : Dict) (key : List Byte) (notfound : ℤ) : Except Stop ℤ :=
  match d.get key with
  | none => .ok notfound
  | some none => .error .signal
  | some (some s) => .ok (toInt32 (strtoll s))

/-- `iniparser_getsecname` for all of `iniparser_getnsec`. -/
def Dict.secnames (d : Dict) : List (List Byte) :=
  (d.map Prod.fst).filter fun key => 0x3a#8 ∉ key

/-- A string in a message. -/
def text (s : List Byte) : String := String.ofList (s.map fun b => Char.ofNat b.toNat)

/-- The key of a section, as `sprintf` puts it together. -/
def keyOf (sname : List Byte) (key : String) : List Byte := sname ++ literal (":" ++ key)

end Ini

section ReadSection

/-- `get_multiplier`. -/
def getMultiplier (str : List Byte) : Option ℤ :=
  let str := str.dropWhile fun b => b = 0x20#8 || b = 9#8
  if str = literal "KiB" then some 1024
  else if str = literal "MiB" then some (1024*1024)
  else if str = literal "GiB" then some (1024*1024*1024)
  else none

/-- `ubiutils_get_bytes`. -/
def ubiutilsGetBytes (str : List Byte) : ℤ :=
  let bytes := toInt64 (strtoull str)
  let s := subject str
  if s.digits = [] ∨ bytes < 0 then -1
  else if s.endp = [] then bytes
  else match getMultiplier s.endp with
    | none => -1
    | some mult => toInt64 (bytes*mult)

/-- A volume as a section describes it, with the content of its image. -/
structure Section where
  vi : UbigenVolInfo
  image : Option (List Byte)
deriving DecidableEq

/-- The files that sections refer to. -/
abbrev Files := List Byte → Option (List Byte)

variable (ui : UbigenInfo) (d : Dict) (fs : Files) (sname : List Byte)

def readType : Except Stop VolType :=
  match d.getstring (keyOf sname "vol_type") with
  | none => .ok .dynamic
  | some p =>
    if p = literal "static" then .ok .static
    else if p = literal "dynamic" then .ok .dynamic
    else .error (.errmsg s!"invalid volume type \"{text p}\" in section  \"{text sname}\"")

def readImage (type : VolType) : Except Stop (Option (List Byte)) :=
  match d.getstring (keyOf sname "image") with
  | some p =>
    match fs p with
    | none => .error (.errmsg s!"cannot stat \"{text p}\" referred from section \"{text sname}\"")
    | some [] => .error (.errmsg s!"empty file \"{text p}\" referred from section \"{text sname}\"")
    | some content => .ok (some content)
  | none =>
    if type = .static then
      .error (.errmsg s!"image is not specified for static volume in section \"{text sname}\"")
    else .ok none

def readId : Except Stop ℤ := do
  let id ← d.getint (keyOf sname "vol_id") (-1)
  if id = -1 then .error (.errmsg s!"\"vol_id\" key not found in section  \"{text sname}\"")
  else if id < 0 then .error (.errmsg s!"negative volume ID {id} in section \"{text sname}\"")
  else if ui.max_volumes ≤ id then
    .error (.errmsg s!"too high volume ID {id} in section \"{text sname}\", max. is {ui.max_volumes}")
  else .ok id

def readSize (image : Option (List Byte)) : Except Stop ℤ :=
  match d.getstring (keyOf sname "vol_size"), image with
  | some p, image =>
    let bytes := ubiutilsGetBytes p
    if bytes ≤ 0 then
      .error (.errmsg s!"bad \"vol_size\" key value \"{text p}\" (section \"{text sname}\")")
    else match image with
      | some content =>
        if bytes < content.length then
          .error (.errmsg (s!"error in section \"{text sname}\": size of the image file " ++
            s!"is {content.length}, which is larger than volume size {bytes}"))
        else .ok bytes
      | none => .ok bytes
  | none, some content => .ok content.length
  | none, none => .error (.errmsg (s!"neither image file (\"image=\") nor volume size " ++
      s!"(\"vol_size=\") specified in section \"{text sname}\""))

def readName : Except Stop (List Byte) :=
  match d.getstring (keyOf sname "vol_name") with
  | none => .error (.errmsg s!"\"vol_name\" key not found in section \"{text sname}\"")
  | some name =>
    if UBI_VOL_NAME_MAX < name.length then
      -- the text names the volume, not the section
      .error (.errmsg (s!"too long volume name in section \"{text name}\", max. is " ++
        s!"{UBI_VOL_NAME_MAX} characters"))
    else .ok name

/-- A negative alignment passes: the source tests the ID here, which is known to be positive. -/
def readAlignment (id : ℤ) : Except Stop ℤ := do
  let alignment ← d.getint (keyOf sname "vol_alignment") (-1)
  if alignment = -1 then .ok 1
  else if id < 0 then
    .error (.errmsg s!"negative volume alignement {alignment} in section \"{text sname}\"")
  else .ok alignment

def readFlags : Except Stop Byte :=
  match d.getstring (keyOf sname "vol_flags") with
  | none => .ok 0#8
  | some p =>
    if p = literal "autoresize" then .ok UBI_VTBL_AUTORESIZE_FLG
    else .error (.errmsg s!"unknown flags \"{text p}\" in section \"{text sname}\"")

/-- The count of LEBs for `size` bytes, as an `int`. -/
def usedEbs (size usable_leb_size : ℤ) : ℤ :=
  toInt32 ((toInt64 (size+usable_leb_size-1)).tdiv usable_leb_size)

/-- `read_section`: nothing for a section that is not for UBI. The divisions by an alignment
and by a usable size of zero are signals. -/
def readSection : Except Stop (Option Section) := do
  if 128 < sname.length then .error (.errmsg s!"too long section name \"{text sname}\"")
  else match d.getstring (keyOf sname "mode") with
    | none => .error (.errmsg s!"\"mode\" key not found in section \"{text sname}\"")
    | some mode =>
      if mode ≠ literal "ubi" then .ok none
      else
        let type ← readType d sname
        let image ← readImage d fs sname type
        let id ← readId ui d sname
        let bytes ← readSize d sname image
        let name ← readName d sname
        let alignment ← readAlignment d sname id
        let flags ← readFlags d sname
        if alignment = 0 then .error .signal
        else
          let data_pad := ui.leb_size.tmod alignment
          let usable_leb_size := ui.leb_size-data_pad
          if usable_leb_size = 0 then .error .signal
          else
            let size := if type = .dynamic then bytes else ((image.getD []).length : ℤ)
            .ok (some ⟨⟨id, type, alignment, data_pad, usable_leb_size, name, 0#8,
              usedEbs size usable_leb_size, bytes, flags⟩, image⟩)

end ReadSection

section Main

/-- The output file, with the position in it. -/
structure OutFile where
  data : List Byte
  pos : ℕ

/-- `write`: what lies between the end of the file and the position is zero. -/
def OutFile.write (f : OutFile) (bs : List Byte) : OutFile :=
  ⟨f.data.take f.pos ++ (zeros (f.pos-f.data.length) ++ (bs ++ f.data.drop (f.pos+bs.length))),
    f.pos+bs.length⟩

def OutFile.lseek (f : OutFile) (pos : ℕ) : OutFile := { f with pos := pos }

/-- What `main` keeps over the sections. -/
structure Progress where
  out : OutFile
  vtbl : List (List Byte)
  vis : List UbigenVolInfo
  autoresize : Bool

/-- The message where a volume has the ID or the name of an earlier one. -/
def clash (vi : UbigenVolInfo) (sname : List Byte) (v : UbigenVolInfo) : Option String :=
  if vi.id = v.id then
    some (s!"volume IDs must be unique, but ID {vi.id} in section \"{text sname}\" is not")
  else if vi.name = v.name then
    some (s!"volume name must be unique, but name \"{text vi.name}\" " ++
      s!"in section \"{text sname}\" is not")
  else none

/-- The image of a volume, where it has one. -/
def writeImage (args : Args) (vi : UbigenVolInfo) (outbuf : ℕ → Byte) :
    Option (List Byte) → Except Stop (List (List Byte))
  | some content => ubigenWriteVolume args.info vi args.ec content.length content outbuf
  | none => .ok []

/-- What ends the pass for a section that is not for UBI. Its volume has the ID zero, no name to
compare, and the alignment zero. -/
def skipStop (ui : UbigenInfo) (sname : List Byte) : List UbigenVolInfo → Stop
  | [] =>
    if ui.leb_size ≤ 0 then .errmsg s!"too large alignment 0, max is {ui.leb_size} (LEB size)"
    else .signal
  | v :: _ =>
    if v.id = 0 then
      .errmsg s!"volume IDs must be unique, but ID 0 in section \"{text sname}\" is not"
    else .signal

/-- A pass of the loop over the sections. -/
def addSection (args : Args) (d : Dict) (fs : Files) (outbuf : ℕ → Byte) (p : Progress)
    (sname : List Byte) : Except Stop Progress := do
  let ui := args.info
  match ← readSection ui d fs sname with
  | none => .error (skipStop ui sname p.vis)
  | some ⟨vi, image⟩ =>
    match p.vis.findSome? (clash vi sname) with
    | some msg => .error (.errmsg msg)
    | none =>
    if vi.flags &&& UBI_VTBL_AUTORESIZE_FLG ≠ 0#8 ∧ p.autoresize then
      .error (.errmsg "only one volume is allowed to have auto-resize flag")
    else
      let vtbl ← ubigenAddVolume ui vi p.vtbl
      let pebs ← writeImage args vi outbuf image
      .ok ⟨pebs.foldl OutFile.write p.out, vtbl, p.vis ++ [vi],
        p.autoresize || vi.flags &&& UBI_VTBL_AUTORESIZE_FLG ≠ 0#8⟩

/-- `main`, from the options and the configuration to the output file. The buffers come from
`malloc`. -/
def ubinize (args : Args) (d : Dict) (fs : Files) (outbuf : ℕ → Byte) :
    Except Stop (List Byte) := do
  let ui := args.info
  let vtbl ← ubigenCreateEmptyVtbl ui
  if d.secnames = [] then .error (.errmsg "no sections found the ini-file")
  else if ui.max_volumes < d.secnames.length then
    .error (.errmsg "too many sections in the ini-file")
  else
    let out := OutFile.lseek ⟨[], 0⟩ (2*ui.peb_size)
    let p ← d.secnames.foldlM (addSection args d fs outbuf) ⟨out, vtbl, [], false⟩
    let pebs := layoutPebs ui args.ec args.ec p.vtbl outbuf
    let out := ((p.out.lseek 0).write pebs.1).lseek ui.peb_size
    .ok (out.write pebs.2).data

end Main

section Sections

variable {ui : UbigenInfo} {d : Dict} {fs : Files} {sname : List Byte} {sec : Section}

/-- What is known of a section that was read. -/
structure Section.Ok (ui : UbigenInfo) (sec : Section) : Prop where
  id_nonneg : 0 ≤ sec.vi.id
  id_lt : sec.vi.id < ui.max_volumes
  bytes_pos : 0 < sec.vi.bytes
  alignment_ne : sec.vi.alignment ≠ 0
  data_pad : sec.vi.data_pad = ui.leb_size.tmod sec.vi.alignment
  usable : sec.vi.usable_leb_size = ui.leb_size-sec.vi.data_pad
  usable_ne : sec.vi.usable_leb_size ≠ 0
  name_le : sec.vi.name.length ≤ UBI_VOL_NAME_MAX
  image : ∀ content, sec.image = some content → 0 < content.length ∧ content.length ≤ sec.vi.bytes
  static : sec.vi.type = .static → ∃ content, sec.image = some content ∧
    sec.vi.used_ebs = usedEbs content.length sec.vi.usable_leb_size

theorem readImage_ok {type : VolType} {image : Option (List Byte)}
    (h : readImage d fs sname type = .ok image) :
    (∀ content, image = some content → 0 < content.length) ∧
      (type = .static → ∃ content, image = some content) := by
  unfold readImage at h
  split at h
  · split at h
    · cases h
    · cases h
    next content hne _ =>
      obtain rfl := Except.ok.inj h
      refine ⟨?_, fun _ => ⟨_, rfl⟩⟩
      rintro _ ⟨rfl⟩
      exact List.length_pos_iff.mpr hne
  · split at h
    · cases h
    next hs =>
      obtain rfl := Except.ok.inj h
      exact ⟨fun _ h => (by cases h), fun h => absurd h hs⟩

theorem readId_ok {id : ℤ} (h : readId ui d sname = .ok id) : 0 ≤ id ∧ id < ui.max_volumes := by
  obtain ⟨id', -, h⟩ := Loop.bind_eq_ok h
  split at h
  · cases h
  · split at h
    · cases h
    · split at h
      · cases h
      · obtain rfl := Except.ok.inj h
        omega

theorem readSize_ok {image : Option (List Byte)} {bytes : ℤ}
    (h : readSize d sname image = .ok bytes)
    (hi : ∀ content, image = some content → 0 < content.length) :
    0 < bytes ∧ ∀ content, image = some content → content.length ≤ bytes := by
  unfold readSize at h
  split at h
  · dsimp only at h
    split at h
    · cases h
    · split at h
      · split at h
        · cases h
        · obtain rfl := Except.ok.inj h
          refine ⟨by omega, ?_⟩
          rintro _ ⟨rfl⟩
          omega
      · obtain rfl := Except.ok.inj h
        exact ⟨by omega, fun _ h => (by cases h)⟩
  next content _ =>
    obtain rfl := Except.ok.inj h
    have := hi content rfl
    refine ⟨by omega, ?_⟩
    rintro _ ⟨rfl⟩
    exact le_refl _
  · cases h

theorem readName_ok {name : List Byte} (h : readName d sname = .ok name) :
    name.length ≤ UBI_VOL_NAME_MAX := by
  unfold readName at h
  split at h
  · cases h
  · split at h
    · cases h
    · obtain rfl := Except.ok.inj h
      omega

theorem readSection_ok (h : readSection ui d fs sname = .ok (some sec)) : sec.Ok ui := by
  unfold readSection at h
  split at h
  · cases h
  · split at h
    · cases h
    · split at h
      · cases h
      · obtain ⟨type, -, h⟩ := Loop.bind_eq_ok h
        obtain ⟨image, himage, h⟩ := Loop.bind_eq_ok h
        obtain ⟨id, hid, h⟩ := Loop.bind_eq_ok h
        obtain ⟨bytes, hbytes, h⟩ := Loop.bind_eq_ok h
        obtain ⟨name, hname, h⟩ := Loop.bind_eq_ok h
        obtain ⟨alignment, -, h⟩ := Loop.bind_eq_ok h
        obtain ⟨flags, -, h⟩ := Loop.bind_eq_ok h
        obtain ⟨hi, hs⟩ := readImage_ok himage
        obtain ⟨hb, hle⟩ := readSize_ok hbytes hi
        obtain ⟨hid0, hid1⟩ := readId_ok hid
        split at h
        · cases h
        next hal =>
          dsimp only at h
          split at h
          · cases h
          next hu =>
            obtain rfl := Option.some.inj (Except.ok.inj h)
            refine ⟨hid0, hid1, hb, hal, rfl, rfl, hu, readName_ok hname, fun c hc => ⟨hi c hc, hle c hc⟩, ?_⟩
            intro ht
            obtain ⟨content, rfl⟩ := hs ht
            refine ⟨content, rfl, ?_⟩
            dsimp only at ht ⊢
            rw [if_neg (by rw [ht]; decide)]
            rfl

/-- The sizes of an info that has volumes, as natural numbers. -/
theorem Section.Ok.sizes (h : sec.Ok ui) (hleb : 0 < ui.leb_size) :
    0 ≤ sec.vi.data_pad ∧ sec.vi.data_pad < ui.leb_size ∧ 0 < sec.vi.usable_leb_size := by
  have h0 : 0 ≤ sec.vi.data_pad := by
    rw [h.data_pad]
    exact Int.tmod_nonneg _ hleb.le
  have h1 : sec.vi.data_pad ≤ ui.leb_size := by
    obtain ⟨n, hn⟩ := Int.eq_ofNat_of_zero_le hleb.le
    rw [h.data_pad, hn]
    rcases Int.natAbs_eq sec.vi.alignment with ha | ha
    · rw [ha, ← Int.ofNat_tmod]
      exact_mod_cast Nat.mod_le _ _
    · rw [ha, Int.tmod_neg, ← Int.ofNat_tmod]
      exact_mod_cast Nat.mod_le _ _
  have hu := h.usable
  have hne := h.usable_ne
  omega

/-- The count of LEBs with pads against that of whole LEBs: the pads must find room in the
last LEB. -/
theorem lebs_le_iff {L P B : ℕ} (hP : P < L) (hB : 0 < B) :
    (B+(L-P)-1)/(L-P) ≤ (B+L-1)/L ↔ P = 0 ∨ (B%L ≠ 0 ∧ (B/L+1)*P+B%L ≤ L) := by
  have hL : 0 < L := by omega
  have hu : 0 < L-P := by omega
  have hdiv := Nat.div_add_mod B L
  have hmod := Nat.mod_lt B hL
  rw [Nat.div_le_iff_le_mul_add_pred hu]
  generalize B/L = q at *
  generalize B%L = r at *
  have hc : (B+L-1)/L = if r = 0 then q else q+1 := by
    split
    next hr =>
      apply Nat.div_eq_of_lt_le
      · rw [Nat.mul_comm]
        omega
      · rw [Nat.mul_comm, Nat.mul_succ]
        omega
    next hr =>
      apply Nat.div_eq_of_lt_le
      · rw [Nat.mul_comm, Nat.mul_succ]
        omega
      · rw [Nat.mul_comm, Nat.mul_succ, Nat.mul_succ]
        omega
  rw [hc]
  obtain ⟨u, rfl⟩ : ∃ u, L = u+P := ⟨L-P, by omega⟩
  rw [Nat.add_sub_cancel] at hu ⊢
  rw [Nat.add_mul] at hdiv
  by_cases hr : r = 0
  · rw [if_pos hr]
    have hq : 0 < q := by
      rcases Nat.eq_zero_or_pos q with rfl | hq
      · omega
      · exact hq
    constructor
    · intro h
      have hz : P*q = 0 := by omega
      exact Or.inl ((Nat.mul_eq_zero.mp hz).resolve_right (by omega))
    · rintro (rfl | ⟨h, -⟩)
      · omega
      · exact absurd hr h
  · rw [if_neg hr, Nat.mul_succ]
    have hexp : (q+1)*P = P*q+P := by ring
    rw [hexp]
    constructor
    · intro h
      refine Or.inr ⟨hr, ?_⟩
      omega
    · rintro (rfl | ⟨-, h⟩)
      · omega
      · omega

end Sections

section Reserved

variable {args : Args} {d : Dict} {fs : Files} {sname : List Byte} {sec : Section}

/-- The count of eraseblocks in the record of a volume. -/
def reservedPebs (vtbl : List (List Byte)) (id : ℤ) : ℕ := beField (vtbl.getD id.toNat []) 0 4

/-- The count in the VID header of an eraseblock. -/
def usedEbsAt (ui : UbigenInfo) (peb : List Byte) : ℕ := beField (peb.drop ui.vid_hdr_offs) 24 4

/-- The record reserves what is written of any image that the volume can hold, and what the VID
headers say. -/
def Reserves (args : Args) (vi : UbigenVolInfo) (vtbl : List (List Byte)) (outbuf : ℕ → Byte) :
    Prop :=
  ∀ image : List Byte, image.length ≤ vi.bytes →
    ∃ pebs, ubigenWriteVolume args.info vi args.ec image.length image outbuf = .ok pebs ∧
      pebs.length ≤ reservedPebs vtbl vi.id ∧
      ∀ peb ∈ pebs, usedEbsAt args.info peb ≤ reservedPebs vtbl vi.id

/-- The pads of all LEBs find room in what the last one leaves, and the count of LEBs has 32
bits. -/
def PadsFit (leb_size data_pad bytes : ℤ) : Prop :=
  bytes ≤ (2^32-1)*leb_size ∧ (data_pad = 0 ∨
    (bytes%leb_size ≠ 0 ∧ (bytes/leb_size+1)*data_pad+bytes%leb_size ≤ leb_size))

theorem Args.Accepted.sane (hargs : args.Accepted) (hleb : 0 ≤ args.info.leb_size) :
    args.info.Sane := by
  have h1 := hargs.peb_max
  obtain ⟨k, hk⟩ := hargs.min_io
  apply ubigenInfoInit_sane _ _ hleb
  · rw [hk]
    exact Nat.two_pow_pos k
  · rw [UBI_MAX_PEB_SZ] at h1
    omega

theorem vtblRecord_reserved (x : ℤ) (alignment data_pad : List Byte) (vol_type : Byte)
    (name : List Byte) (flags : Byte) :
    beField (vtblRecord (be32 x) alignment data_pad vol_type name flags) 0 4 =
      (BitVec.ofInt 32 x).toNat := by
  unfold vtblRecord sealed be32
  rw [List.append_assoc]
  exact beField_be_of_lt (BitVec.isLt _) _

theorem ubigenAddVolume_ok {ui : UbigenInfo} {vi : UbigenVolInfo} {vtbl vtbl' : List (List Byte)}
    (h : ubigenAddVolume ui vi vtbl = .ok vtbl') : checkVolume ui vi = .ok () ∧
      vtbl' = vtbl.set vi.id.toNat (vtblRecord
        (be32 ((toInt64 (vi.bytes+ui.leb_size-1)).tdiv ui.leb_size)) (be32 vi.alignment)
        (be32 (ui.leb_size.tmod vi.alignment)) vi.type.code vi.name vi.flags) := by
  obtain ⟨⟨⟩, hck, h⟩ := Loop.bind_eq_ok h
  split at h
  · cases h
  · exact ⟨hck, (Except.ok.inj h).symm⟩

/-- A volume that passes the checks has found a LEB of a positive size: no volume fits in one
without bytes, and in a negative one only an alignment below it passes, which leaves nothing. -/
theorem Section.Ok.leb_pos (hok : sec.Ok args.info) (hargs : args.Accepted)
    (hck : checkVolume args.info sec.vi = .ok ()) : args.info.Sane ∧ 0 < args.info.leb_size := by
  have hid0 := hok.id_nonneg
  have hid1 := hok.id_lt
  have hal : sec.vi.alignment < args.info.leb_size := by
    unfold checkVolume at hck
    split at hck
    · cases hck
    · split at hck
      · cases hck
      next hlt => exact not_le.mp hlt
  rcases lt_trichotomy args.info.leb_size 0 with hneg | h0 | hpos
  · exfalso
    obtain ⟨a, ha⟩ := Int.eq_ofNat_of_zero_le (a := -args.info.leb_size) (by omega)
    obtain ⟨b, hb⟩ := Int.eq_ofNat_of_zero_le (a := -sec.vi.alignment) (by omega)
    have hpad : sec.vi.data_pad = args.info.leb_size := by
      rw [hok.data_pad, show args.info.leb_size = -(a : ℤ) by omega,
        show sec.vi.alignment = -(b : ℤ) by omega, Int.tmod_neg, Int.neg_tmod, ← Int.ofNat_tmod,
        Nat.mod_eq_of_lt (by omega)]
    have hus := hok.usable
    rw [hpad, sub_self] at hus
    exact hok.usable_ne hus
  · exfalso
    have hmv : args.info.max_volumes = 0 := by
      change min (toInt32 (args.info.leb_size%2^64/UBI_VTBL_RECORD_SIZE)) UBI_MAX_VOLUMES = 0
      rw [h0]
      decide
    omega
  · exact ⟨hargs.sane hpos.le, hpos⟩

/-- A count of LEBs that 32 bits hold is stored as it is. -/
theorem ceil_stored {B u : ℕ} (hu : 0 < u) (hu' : u < 2^31) (h : (B+u-1)/u < 2^32) :
    (BitVec.ofInt 32 ((toInt64 ((B : ℤ)+u-1)).tdiv u)).toNat = (B+u-1)/u := by
  have hB : B+u-1 < 2^63 := by
    have h1 := Nat.div_add_mod (B+u-1) u
    have h2 := Nat.mod_lt (B+u-1) hu
    have h3 : u*((B+u-1)/u) ≤ 2^31*(2^32-1) := Nat.mul_le_mul hu'.le (Nat.le_pred_of_lt h)
    omega
  have hcast : (B : ℤ)+u-1 = ((B+u-1 : ℕ) : ℤ) := by omega
  rw [hcast, toInt64_of_lt (by omega) (by omega), ← Int.ofNat_tdiv, BitVec.ofInt_natCast,
    BitVec.toNat_ofNat, Nat.mod_eq_of_lt h]

theorem ofInt_toInt32 (x : ℤ) : BitVec.ofInt 32 (toInt32 x) = BitVec.ofInt 32 x := by
  apply BitVec.eq_of_toInt_eq
  rw [BitVec.toInt_ofInt, BitVec.toInt_ofInt, toInt32, Int.bmod_bmod]

theorem ceil_mono {a b u : ℕ} (h : a ≤ b) : (a+u-1)/u ≤ (b+u-1)/u :=
  Nat.div_le_div_right (by omega)

/-- Smaller LEBs are more. -/
theorem ceil_anti {B u L : ℕ} (hu : 0 < u) (h : u ≤ L) : (B+L-1)/L ≤ (B+u-1)/u := by
  have hB := Nat.div_le_iff_le_mul_add_pred hu |>.mp (le_refl ((B+u-1)/u))
  have hmul := Nat.mul_le_mul_right ((B+u-1)/u) h
  rw [Nat.div_le_iff_le_mul_add_pred (by omega)]
  omega

/-- A record reserves what is written exactly where the pads of the LEBs find room in the last
one: it counts LEBs of the whole size, and the writer those of the usable size. -/
theorem reserved_pebs_iff (hargs : args.Accepted) {vtbl vtbl' : List (List Byte)}
    (hvtbl : vtbl.length = args.info.max_volumes.toNat)
    (hsec : readSection args.info d fs sname = .ok (some sec))
    (hadd : ubigenAddVolume args.info sec.vi vtbl = .ok vtbl') (outbuf : ℕ → Byte) :
    Reserves args sec.vi vtbl' outbuf ↔
      PadsFit args.info.leb_size (args.info.leb_size.tmod sec.vi.alignment) sec.vi.bytes := by
  have hok := readSection_ok hsec
  have hid0 := hok.id_nonneg
  have hid1 := hok.id_lt
  obtain ⟨hck, hrec⟩ := ubigenAddVolume_ok hadd
  obtain ⟨hs, hleb⟩ := hok.leb_pos hargs hck
  have hleb31 : args.info.leb_size < 2^31 := by
    have h1 := hs.leb_eq
    have h2 := hs.peb_lt
    omega
  obtain ⟨hp0, hp1, hu0⟩ := hok.sizes hleb
  have hbytes := hok.bytes_pos
  rw [← hok.data_pad]
  -- all sizes are natural numbers
  obtain ⟨L, hL⟩ := Int.eq_ofNat_of_zero_le hleb.le
  obtain ⟨P, hP⟩ := Int.eq_ofNat_of_zero_le hp0
  obtain ⟨B, hB⟩ := Int.eq_ofNat_of_zero_le hbytes.le
  have husable : sec.vi.usable_leb_size = ((L-P : ℕ) : ℤ) := by
    rw [hok.usable, hL, hP]
    omega
  have hPL : P < L := by omega
  have hB0 : 0 < B := by omega
  have hres : reservedPebs vtbl' sec.vi.id =
      (BitVec.ofInt 32 ((toInt64 ((B : ℤ)+L-1)).tdiv L)).toNat := by
    rw [reservedPebs, hrec, List.getD_eq_getElem?_getD, List.getElem?_set_self (by omega),
      Option.getD_some, vtblRecord_reserved, hB, hL]
  have hwrite (image : List Byte) := @ubigenWriteVolume_spec _ _ hs args.ec hu0
    (by rw [hok.usable]; omega) hck image outbuf
  rw [husable, Int.toNat_natCast] at hwrite
  have hcond : PadsFit args.info.leb_size sec.vi.data_pad sec.vi.bytes ↔
      (B+L-1)/L < 2^32 ∧ (B+(L-P)-1)/(L-P) ≤ (B+L-1)/L := by
    rw [PadsFit, hL, hP, hB, lebs_le_iff hPL hB0]
    apply and_congr
    · have h1 : (B+L-1)/L < 2^32 ↔ (B+L-1)/L ≤ 2^32-1 := by omega
      rw [h1, Nat.div_le_iff_le_mul_add_pred (by omega)]
      omega
    · norm_cast
  rw [hcond]
  constructor
  · intro h
    obtain ⟨pebs, hpebs, hle, -⟩ := h (List.replicate B 0#8) (by rw [List.length_replicate, hB])
    obtain ⟨pebs', hpebs', hvol⟩ := hwrite (List.replicate B 0#8)
    obtain rfl := Except.ok.inj (hpebs.symm.trans hpebs')
    rw [hvol.count, List.length_replicate, hres] at hle
    have hlt := (BitVec.ofInt 32 ((toInt64 ((B : ℤ)+L-1)).tdiv L)).isLt
    have hmono := ceil_anti (B := B) (u := L-P) (L := L) (by omega) (by omega)
    have hc : (B+L-1)/L < 2^32 := by omega
    rw [ceil_stored (by omega) (by omega) hc] at hle
    exact ⟨hc, hle⟩
  · rintro ⟨hc, hle⟩ image himage
    rw [ceil_stored (by omega) (by omega) hc] at hres
    obtain ⟨pebs, hpebs, hvol⟩ := hwrite image
    have hB' : image.length ≤ B := by omega
    refine ⟨pebs, hpebs, ?_, ?_⟩
    · rw [hvol.count, hres]
      exact (ceil_mono hB').trans hle
    · intro peb hpeb
      obtain ⟨k, hk, hget⟩ := List.mem_iff_getElem.mp hpeb
      obtain ⟨buf, -, hpk⟩ := hvol.peb k hk
      have hfields := @fillPeb_vid _ sec.vi hs buf (0+k) ((image.drop (k*(L-P))).take (L-P))
      rw [← hpk] at hfields
      have hused := hfields.used_ebs
      rw [usedEbsAt, ← hget, hres]
      refine hused.le.trans ?_
      split
      next ht =>
        obtain ⟨content, hcontent, hue⟩ := hok.static ht
        have hcl : content.length ≤ B := by
          have := (hok.image content hcontent).2
          omega
        have hcc := (ceil_mono (u := L-P) hcl).trans hle
        rw [hue, usedEbs, ofInt_toInt32, husable, ceil_stored (by omega) (by omega) (by omega)]
        exact hcc
      · exact Nat.zero_le _

end Reserved

section OneVolume

/-- A NAND flash with eraseblocks of 128 KiB and pages of 2 KiB. -/
def nandArgs : Args := ⟨131072, 2048, 2048, 0, 0, 1, 0#32⟩

theorem nandArgs_accepted : nandArgs.Accepted :=
  ⟨by decide, by decide, ⟨11, rfl⟩, ⟨11, rfl⟩, by decide, by decide, by decide, by decide⟩

/-- A configuration with one volume of one LEB. -/
def oneVolume (alignment : String) : Dict :=
  [(literal "v", none), (literal "v:mode", some (literal "ubi")),
    (literal "v:vol_id", some (literal "0")), (literal "v:vol_size", some (literal "124KiB")),
    (literal "v:vol_name", some (literal "v")),
    (literal "v:vol_alignment", some (literal alignment))]

/-- Its description where the alignment is 4 KiB, and where it is 3. -/
def alignedVolume : UbigenVolInfo :=
  ⟨0, .dynamic, 4096, 0, 126976, literal "v", 0#8, 1, 126976, 0#8⟩

def paddedVolume : UbigenVolInfo :=
  ⟨0, .dynamic, 3, 1, 126975, literal "v", 0#8, 2, 126976, 0#8⟩

theorem readSection_oneVolume :
    readSection nandArgs.info (oneVolume "4096") (fun _ => none) (literal "v") =
      .ok (some ⟨alignedVolume, none⟩) ∧
    readSection nandArgs.info (oneVolume "3") (fun _ => none) (literal "v") =
      .ok (some ⟨paddedVolume, none⟩) := by
  decide +kernel

/-- The table before a volume is added. -/
def emptyTable : List (List Byte) := List.replicate 128 []

theorem emptyTable_length : emptyTable.length = nandArgs.info.max_volumes.toNat :=
  List.length_replicate.trans (by decide)

theorem addVolume_of_check {vi : UbigenVolInfo} (hck : checkVolume nandArgs.info vi = .ok ())
    (hal : vi.alignment ≠ 0) : ∃ vtbl, ubigenAddVolume nandArgs.info vi emptyTable = .ok vtbl := by
  unfold ubigenAddVolume
  rw [hck]
  exact ⟨_, if_neg hal⟩

theorem reserved_pebs_aligned : ∃ vtbl,
    ubigenAddVolume nandArgs.info alignedVolume emptyTable = .ok vtbl ∧
    Reserves nandArgs alignedVolume vtbl fun _ => 0#8 := by
  obtain ⟨vtbl, hadd⟩ := @addVolume_of_check alignedVolume (by decide) (by decide)
  have h := reserved_pebs_iff nandArgs_accepted emptyTable_length readSection_oneVolume.1 hadd fun _ => 0#8
  exact ⟨vtbl, hadd, h.mpr ⟨by decide, Or.inl (by decide)⟩⟩

/-- One LEB is reserved for a volume whose image takes two, as each LEB has one byte less to
use. -/
theorem reserved_pebs_short : ∃ vtbl,
    readSection nandArgs.info (oneVolume "3") (fun _ => none) (literal "v") =
      .ok (some ⟨paddedVolume, none⟩) ∧
    ubigenAddVolume nandArgs.info paddedVolume emptyTable = .ok vtbl ∧
    ¬ Reserves nandArgs paddedVolume vtbl fun _ => 0#8 := by
  have hck : checkVolume nandArgs.info paddedVolume = .ok () := by decide
  obtain ⟨vtbl, hadd⟩ := addVolume_of_check hck (by decide)
  refine ⟨vtbl, readSection_oneVolume.2, hadd, ?_⟩
  intro h
  obtain ⟨pebs, hpebs, hle, -⟩ := h (List.replicate 126976 0#8) (by rw [List.length_replicate]; decide)
  have hs := nandArgs_accepted.sane (by decide)
  obtain ⟨pebs', hpebs', hvol⟩ := @ubigenWriteVolume_spec _
    paddedVolume hs nandArgs.ec (by decide) (by decide) hck (List.replicate 126976 0#8) fun _ => 0#8
  obtain rfl := Except.ok.inj (hpebs.symm.trans hpebs')
  have hres : reservedPebs vtbl paddedVolume.id = 1 := by
    rw [reservedPebs, (ubigenAddVolume_ok hadd).2, List.getD_eq_getElem?_getD,
      List.getElem?_set_self (by rw [emptyTable_length]; decide), Option.getD_some, vtblRecord_reserved]
    decide
  rw [hvol.count, List.length_replicate, hres] at hle
  exact absurd hle (by decide)

end OneVolume

section Output

/-- The output file when `content` is behind the place of the layout volume. -/
structure OutFile.Holds (peb_size : ℕ) (f : OutFile) (content : List Byte) : Prop where
  content : f.data.drop (2*peb_size) = content
  pos : (f.data = [] ∧ f.pos = 2*peb_size) ∨ (f.data.length = f.pos ∧ 2*peb_size ≤ f.pos)

variable {peb_size : ℕ} {f : OutFile} {content : List Byte}

theorem OutFile.Holds.write (h : f.Holds peb_size content) {bs : List Byte} (hbs : bs ≠ []) :
    (f.write bs).Holds peb_size (content ++ bs) := by
  have hlen := List.length_pos_iff.mpr hbs
  obtain ⟨hc, ⟨hd, hp⟩ | ⟨hd, hp⟩⟩ := h
  · rw [hd, List.drop_nil] at hc
    have hdata : (f.write bs).data = zeros (2*peb_size) ++ bs := by
      simp [OutFile.write, hd, hp]
    refine ⟨?_, Or.inr ⟨?_, ?_⟩⟩
    · rw [hdata, ← hc, List.nil_append, List.drop_left' (zeros_length _)]
    · rw [hdata, List.length_append, zeros_length]
      exact congrArg (· + bs.length) hp.symm
    · exact hp.ge.trans (Nat.le_add_right _ _)
  · have hdata : (f.write bs).data = f.data ++ bs := by
      unfold OutFile.write
      dsimp only
      rw [List.take_of_length_le hd.le, List.drop_eq_nil_of_le (by omega), hd, Nat.sub_self,
        List.append_nil]
      rfl
    refine ⟨?_, Or.inr ⟨?_, ?_⟩⟩
    · rw [hdata, List.drop_append_of_le_length (by omega), hc]
    · rw [hdata, List.length_append, hd]
      rfl
    · exact hp.trans (Nat.le_add_right _ _)

theorem OutFile.Holds.writes (h : f.Holds peb_size content) {pebs : List (List Byte)}
    (hne : ∀ peb ∈ pebs, peb ≠ []) :
    (pebs.foldl OutFile.write f).Holds peb_size (content ++ pebs.flatten) := by
  induction pebs generalizing f content with
  | nil =>
    rw [List.flatten_nil, List.append_nil]
    exact h
  | cons peb pebs ih =>
    have hstep := h.write (hne peb List.mem_cons_self)
    have := ih hstep fun p hp => hne p (List.mem_cons_of_mem _ hp)
    rw [List.flatten_cons, ← List.append_assoc]
    exact this

/-- The layout volume is put before the rest. -/
theorem OutFile.Holds.layout (h : f.Holds peb_size content) {peb0 peb1 : List Byte}
    (h0 : peb0.length = peb_size) (h1 : peb1.length = peb_size) :
    ((((f.lseek 0).write peb0).lseek peb_size).write peb1).data = peb0 ++ (peb1 ++ content) := by
  have hfirst : ((f.lseek 0).write peb0).data = peb0 ++ f.data.drop peb_size := by
    simp [OutFile.write, OutFile.lseek, h0, zeros]
  generalize (f.lseek 0).write peb0 = g at hfirst ⊢
  unfold OutFile.write OutFile.lseek
  dsimp only
  rw [hfirst, List.take_left' h0, List.length_append, h0, Nat.sub_eq_zero_of_le (Nat.le_add_right _ _),
    h1, List.drop_append, List.drop_eq_nil_of_le (by omega), List.drop_drop, h0, Nat.add_sub_cancel,
    ← Nat.two_mul, h.content]
  rfl

end Output

section Image

variable {args : Args} {d : Dict} {fs : Files} {outbuf : ℕ → Byte}

/-- A VID header for LEB `lnum` of a volume that takes `used_ebs` of them. -/
structure VidHdrAt (vi : UbigenVolInfo) (used_ebs lnum : ℕ) (data hdr : List Byte) : Prop where
  magic : beField hdr 0 4 = UBI_VID_HDR_MAGIC
  vol_type : hdr.getD 5 0#8 = vi.type.code
  vol_id : (beField hdr 8 4 : ℤ) = vi.id
  lnum : beField hdr 12 4 = lnum
  data_pad : (beField hdr 28 4 : ℤ) = vi.data_pad
  static : vi.type = .static → beField hdr 20 4 = data.length ∧ beField hdr 24 4 = used_ebs ∧
    beField hdr 32 4 = (mtdCrc32 UBI_CRC32_INIT data).toNat
  hdr_crc : beField hdr 60 4 = (mtdCrc32 UBI_CRC32_INIT (hdr.take 60)).toNat

/-- The sections with an image. -/
def imaged (secs : List Section) : List (UbigenVolInfo × List Byte) :=
  secs.filterMap fun s => s.image.map fun content => (s.vi, content)

/-- The count of LEBs that an image takes. -/
def lebCount (v : UbigenVolInfo × List Byte) : ℕ :=
  (v.2.length+v.1.usable_leb_size.toNat-1)/v.1.usable_leb_size.toNat

/-- The eraseblocks of a volume: their headers, and the image in their data. -/
structure VolumeAt (args : Args) (v : UbigenVolInfo × List Byte) (pebs : List (List Byte)) : Prop where
  count : pebs.length = lebCount v
  length : ∀ peb ∈ pebs, peb.length = args.peb_size
  ec : ∀ peb ∈ pebs, EcHdrAt args.info args.ec peb
  vid : ∀ k (hk : k < pebs.length), VidHdrAt v.1 pebs.length k
    ((v.2.drop (k*v.1.usable_leb_size.toNat)).take v.1.usable_leb_size.toNat)
    ((pebs.get ⟨k, hk⟩).drop args.info.vid_hdr_offs)
  data : ((pebs.map (lebData args.info v.1.usable_leb_size.toNat)).flatten).take v.2.length = v.2

/-- An eraseblock of the layout volume. -/
structure LayoutAt (args : Args) (lnum : ℕ) (peb : List Byte) : Prop where
  length : peb.length = args.peb_size
  ec : EcHdrAt args.info args.ec peb
  vid : VidHdrAt (layoutVolume args.info) 0 lnum [] (peb.drop args.info.vid_hdr_offs)

/-- The image as it is to be read. -/
def ImageOk (args : Args) (secs : List Section) (out : List Byte) : Prop :=
  ∃ (peb0 peb1 : List Byte) (vols : List (List (List Byte))),
    out = peb0 ++ (peb1 ++ vols.flatten.flatten) ∧
    LayoutAt args 0 peb0 ∧ LayoutAt args 1 peb1 ∧
    lebData args.info args.info.vtbl_size.toNat peb0 =
      lebData args.info args.info.vtbl_size.toNat peb1 ∧
    List.Forall₂ (VolumeAt args) (imaged secs) vols

/-- The VID header is behind the EC header, and the numbers of the LEBs have 32 bits. -/
def HeadersFit (args : Args) (secs : List Section) : Prop :=
  (args.vid_hdr_offs = 0 ∨ UBI_EC_HDR_SIZE ≤ args.vid_hdr_offs) ∧
  ∀ v ∈ imaged secs, lebCount v ≤ 2^32 ∧ (v.1.type = .static → lebCount v < 2^32)

theorem ofInt_toNat32 {x : ℤ} (h0 : 0 ≤ x) (h : x < 2^32) : ((BitVec.ofInt 32 x).toNat : ℤ) = x := by
  rw [BitVec.toNat_ofInt]
  omega

theorem VidFields.at {ui : UbigenInfo} {vi : UbigenVolInfo} {lnum used_ebs : ℕ} {data hdr : List Byte}
    (h : VidFields ui vi lnum data hdr) (hid0 : 0 ≤ vi.id) (hid : vi.id < 2^32) (hl : lnum < 2^32)
    (hpad0 : 0 ≤ vi.data_pad) (hpad : vi.data_pad < 2^32) (hdata : data.length < 2^32)
    (hused : vi.type = .static → (BitVec.ofInt 32 vi.used_ebs).toNat = used_ebs) :
    VidHdrAt vi used_ebs lnum data hdr := by
  refine ⟨h.magic, h.vol_type, ?_, ?_, ?_, ?_, h.hdr_crc⟩
  · rw [h.vol_id]
    exact ofInt_toNat32 hid0 hid
  · rw [h.lnum, Nat.mod_eq_of_lt hl]
  · rw [h.data_pad]
    exact ofInt_toNat32 hpad0 hpad
  · intro ht
    obtain ⟨h1, h2⟩ := h.static ht
    refine ⟨by rw [h1, Nat.mod_eq_of_lt hdata], ?_, h2⟩
    rw [h.used_ebs, if_pos ht, hused ht]

theorem VolumeAt.fits {v : UbigenVolInfo × List Byte} {pebs : List (List Byte)}
    (h : VolumeAt args v pebs) : lebCount v ≤ 2^32 ∧ (v.1.type = .static → lebCount v < 2^32) := by
  constructor
  · by_contra hgt
    have hk : 2^32 < pebs.length := by
      rw [h.count]
      omega
    have := (h.vid (2^32) hk).lnum
    have := beField_lt ((pebs.get ⟨2^32, hk⟩).drop args.info.vid_hdr_offs) 12 4
    omega
  · intro ht
    rcases Nat.eq_zero_or_pos pebs.length with h0 | h0
    · rw [← h.count, h0]
      decide
    · have := ((h.vid 0 h0).static ht).2.1
      have := beField_lt ((pebs.get ⟨0, h0⟩).drop args.info.vid_hdr_offs) 24 4
      rw [← h.count]
      omega

end Image

section Overlap

variable {args : Args}

theorem info_vid_hdr_offs (h0 : args.vid_hdr_offs ≠ 0) :
    args.info.vid_hdr_offs = args.vid_hdr_offs := if_neg h0

theorem beField_zeros {bs : List Byte} {o n p : ℕ} (h : (bs.drop o).take n = zeros n) (hp : o ≤ p)
    (hn : p+4 ≤ o+n) : beField bs p 4 = 0 := by
  have hz : (bs.drop p).take 4 = zeros 4 := by
    have h1 := congrArg (fun l => (l.drop (p-o)).take 4) h
    rw [List.drop_take, List.drop_drop, List.take_take, show o+(p-o) = p by omega,
      show min 4 (n-(p-o)) = 4 by omega, zeros, List.drop_replicate, List.take_replicate,
      show min 4 (n-(p-o)) = 4 by omega] at h1
    exact h1
  rw [beField, hz]
  rfl

/-- Where the VID header begins in the EC header, that is none any more. -/
theorem layout_overlap (hargs : args.Accepted) {peb : List Byte} {lnum : ℕ}
    (h : LayoutAt args lnum peb) : args.vid_hdr_offs = 0 ∨ UBI_EC_HDR_SIZE ≤ args.vid_hdr_offs := by
  by_contra hcon
  rw [not_or, not_le, UBI_EC_HDR_SIZE] at hcon
  obtain ⟨h0, hlt⟩ := hcon
  obtain ⟨hpeb, h8⟩ := hargs.vid h0
  have hoffs := info_vid_hdr_offs h0
  obtain ⟨hlen, hec, hvid⟩ := h
  rw [hoffs] at hvid
  have hmagic := hvid.magic
  have htype := hvid.vol_type
  rw [beField_drop, Nat.add_zero] at hmagic
  have hcases : args.vid_hdr_offs = 8 ∨ args.vid_hdr_offs = 16 ∨ args.vid_hdr_offs = 24 ∨
      32 ≤ args.vid_hdr_offs := by omega
  rcases hcases with hv | hv | hv | hv
  · -- in the erase counter, which has 31 bits
    have he := hec.ec
    have := hargs.ec
    rw [UBI_VID_HDR_SIZE] at hpeb
    rw [beField_add peb (m := 4) (n := 4) (by omega), ← hv, hmagic, UBI_VID_HDR_MAGIC] at he
    omega
  · -- in its own offset
    have he := hec.vid_hdr_offset
    rw [hoffs, hv] at he
    rw [hv, he] at hmagic
    exact absurd hmagic (by decide)
  · -- the type of the volume is in the padding
    have hp := congrArg (fun l => l.getD 1 0#8) hec.padding
    rw [hv] at htype
    simp only [List.getD_eq_getElem?_getD, List.getElem?_drop, List.getElem?_take] at hp htype
    simp only [Nat.reduceAdd] at hp htype
    rw [if_pos (by decide), htype] at hp
    change (1#8 : Byte) = _ at hp
    exact absurd hp (by decide)
  · -- in the padding
    rw [beField_zeros hec.padding (p := args.vid_hdr_offs) (by omega) (by omega)] at hmagic
    exact absurd hmagic (by decide)

end Overlap

section Run

variable {args : Args} {d : Dict} {fs : Files} {outbuf : ℕ → Byte}

/-- A volume as it was written. -/
def Written (args : Args) (v : UbigenVolInfo × List Byte) (pebs : List (List Byte)) : Prop :=
  VolPebs args.info v.1 args.ec v.1.usable_leb_size.toNat 0 v.2 pebs

/-- What is known after the sections `names`. -/
structure ProgressInv (args : Args) (d : Dict) (fs : Files) (names : List (List Byte)) (p : Progress)
    (secs : List Section) (vols : List (List (List Byte))) : Prop where
  read : List.Forall₂ (fun sname sec => readSection args.info d fs sname = .ok (some sec)) names secs
  ok : ∀ sec ∈ secs, sec.Ok args.info
  written : List.Forall₂ (Written args) (imaged secs) vols
  out : p.out.Holds args.peb_size vols.flatten.flatten
  table : p.vtbl.length = args.info.max_volumes.toNat
  records : ∀ r ∈ p.vtbl, r.length = UBI_VTBL_RECORD_SIZE

theorem VolPebs.length {ui : UbigenInfo} {vi : UbigenVolInfo} {ec u lnum : ℕ} {inp : List Byte}
    {pebs : List (List Byte)} (h : VolPebs ui vi ec u lnum inp pebs) :
    ∀ peb ∈ pebs, peb.length = ui.peb_size := by
  intro peb hpeb
  obtain ⟨k, hk, rfl⟩ := List.mem_iff_getElem.mp hpeb
  obtain ⟨buf, -, hb⟩ := h.peb k hk
  exact (congrArg List.length hb).trans (readBytes_length _ _ _)

theorem addSection_inv (hargs : args.Accepted) {names : List (List Byte)} {p p' : Progress}
    {secs : List Section} {vols : List (List (List Byte))} {sname : List Byte}
    (h : ProgressInv args d fs names p secs vols)
    (hadd : addSection args d fs outbuf p sname = .ok p') :
    ∃ secs' vols', ProgressInv args d fs (names ++ [sname]) p' secs' vols' := by
  obtain ⟨sec?, hread, hadd⟩ := Loop.bind_eq_ok hadd
  cases sec? with
  | none => cases hadd
  | some sec =>
    obtain ⟨vi, image⟩ := sec
    have hok := readSection_ok hread
    dsimp only at hadd
    split at hadd
    · cases hadd
    split at hadd
    · cases hadd
    obtain ⟨vtbl, hvtbl, hadd⟩ := Loop.bind_eq_ok hadd
    obtain ⟨pebs, hpebs, hadd⟩ := Loop.bind_eq_ok hadd
    obtain rfl := Except.ok.inj hadd
    obtain ⟨hck, rfl⟩ := ubigenAddVolume_ok hvtbl
    obtain ⟨hs, hleb⟩ := hok.leb_pos hargs hck
    obtain ⟨hp0, hp1, hu0⟩ := hok.sizes hleb
    have hread' := List.rel_append h.read (List.Forall₂.cons hread List.Forall₂.nil)
    have hrec : (vtblRecord (be32 ((toInt64 (vi.bytes+args.info.leb_size-1)).tdiv
        args.info.leb_size)) (be32 vi.alignment) (be32 (args.info.leb_size.tmod vi.alignment))
        vi.type.code vi.name vi.flags).length = UBI_VTBL_RECORD_SIZE :=
      vtblRecord_length _ _ (be32_length _) (be32_length _) (be32_length _) hok.name_le
    have hoks : ∀ sec ∈ secs ++ [⟨vi, image⟩], sec.Ok args.info := by
      intro sec hsec
      rcases List.mem_append.mp hsec with hsec | hsec
      · exact h.ok sec hsec
      · rw [List.mem_singleton.mp hsec]
        exact hok
    generalize vtblRecord _ _ _ _ _ _ = record at hrec
    have hrecords : ∀ r ∈ p.vtbl.set vi.id.toNat record, r.length = UBI_VTBL_RECORD_SIZE := by
      intro r hr
      rcases List.mem_or_eq_of_mem_set hr with hr | rfl
      · exact h.records r hr
      · exact hrec
    have htable : (p.vtbl.set vi.id.toNat record).length = args.info.max_volumes.toNat :=
      List.length_set.trans h.table
    cases image with
    | none =>
      obtain rfl := Except.ok.inj hpebs
      refine ⟨_, vols, ⟨hread', hoks, ?_, h.out, htable, hrecords⟩⟩
      have himaged : imaged (secs ++ [⟨vi, none⟩]) = imaged secs := by
        simp [imaged]
      rw [himaged]
      exact h.written
    | some content =>
      obtain ⟨pebs', hpebs', hvol⟩ := @ubigenWriteVolume_spec _ vi hs args.ec hu0
        (by have := hok.usable; dsimp only at this hp0; omega) hck content outbuf
      obtain rfl := Except.ok.inj (hpebs.symm.trans hpebs')
      refine ⟨_, vols ++ [pebs], ⟨hread', hoks, ?_, ?_, htable, hrecords⟩⟩
      · have himaged : imaged (secs ++ [⟨vi, some content⟩]) = imaged secs ++ [(vi, content)] := by
          simp [imaged]
        rw [himaged]
        exact List.rel_append h.written (List.Forall₂.cons hvol List.Forall₂.nil)
      · have hpeb := hargs.peb_pos
        have hlen := hvol.length
        have hne : ∀ peb ∈ pebs, peb ≠ [] := by
          rintro peb hmem rfl
          have hz : (0 : ℕ) = args.peb_size := hlen [] hmem
          omega
        have := h.out.writes hne
        rwa [List.flatten_append, List.flatten_append, List.flatten_singleton]

theorem sections_inv (hargs : args.Accepted) (rest : List (List Byte)) {names : List (List Byte)}
    {p p' : Progress} {secs : List Section} {vols : List (List (List Byte))}
    (h : ProgressInv args d fs names p secs vols)
    (hrun : rest.foldlM (addSection args d fs outbuf) p = .ok p') :
    ∃ secs' vols', ProgressInv args d fs (names ++ rest) p' secs' vols' := by
  induction rest generalizing names p secs vols with
  | nil =>
    obtain rfl := Except.ok.inj hrun
    rw [List.append_nil]
    exact ⟨secs, vols, h⟩
  | cons sname rest ih =>
    rw [List.foldlM_cons] at hrun
    obtain ⟨p1, hp1, hrun⟩ := Loop.bind_eq_ok hrun
    obtain ⟨secs1, vols1, h1⟩ := addSection_inv hargs h hp1
    have := ih h1 hrun
    rwa [List.append_assoc] at this

/-- A section that is added has found room for the headers. -/
theorem sections_leb_pos (hargs : args.Accepted) {names : List (List Byte)} (hne : names ≠ [])
    {p p' : Progress} (hrun : names.foldlM (addSection args d fs outbuf) p = .ok p') :
    0 < args.info.leb_size := by
  obtain ⟨sname, rest, rfl⟩ := List.exists_cons_of_ne_nil hne
  rw [List.foldlM_cons] at hrun
  obtain ⟨p1, hadd, -⟩ := Loop.bind_eq_ok hrun
  obtain ⟨sec?, hread, hadd⟩ := Loop.bind_eq_ok hadd
  cases sec? with
  | none => cases hadd
  | some sec =>
    dsimp only at hadd
    split at hadd
    · cases hadd
    split at hadd
    · cases hadd
    obtain ⟨vtbl, hvtbl, -⟩ := Loop.bind_eq_ok hadd
    exact ((readSection_ok hread).leb_pos hargs (ubigenAddVolume_ok hvtbl).1).2

theorem info_ec_before_vid (hargs : args.Accepted)
    (h : args.vid_hdr_offs = 0 ∨ UBI_EC_HDR_SIZE ≤ args.vid_hdr_offs) :
    UBI_EC_HDR_SIZE ≤ args.info.vid_hdr_offs := by
  by_cases h0 : args.vid_hdr_offs = 0
  · obtain ⟨k, hk⟩ := hargs.subpage
    have hpos : 0 < args.subpage_size := by
      rw [hk]
      exact Nat.two_pow_pos k
    have hvid : args.info.vid_hdr_offs =
        (UBI_EC_HDR_SIZE+args.subpage_size-1)/args.subpage_size*args.subpage_size := if_pos h0
    have h1 := Nat.div_add_mod (UBI_EC_HDR_SIZE+args.subpage_size-1) args.subpage_size
    have h2 := Nat.mod_lt (UBI_EC_HDR_SIZE+args.subpage_size-1) hpos
    rw [Nat.mul_comm] at h1
    omega
  · rw [info_vid_hdr_offs h0]
    exact h.resolve_left h0

theorem Written.volumeAt (hargs : args.Accepted) {v : UbigenVolInfo × List Byte}
    {pebs : List (List Byte)} (h : Written args v pebs)
    (hok : Section.Ok args.info ⟨v.1, some v.2⟩)
    (hfit : lebCount v ≤ 2^32 ∧ (v.1.type = .static → lebCount v < 2^32))
    (hleb : 0 < args.info.leb_size) (hv : UBI_EC_HDR_SIZE ≤ args.info.vid_hdr_offs) :
    VolumeAt args v pebs := by
  have hs := hargs.sane hleb.le
  obtain ⟨hp0, hp1, hu0⟩ := hok.sizes hleb
  have hid0 := hok.id_nonneg
  have hid1 := hok.id_lt
  have hleb31 : args.info.leb_size < 2^31 := by
    have h1 := hs.leb_eq
    have h2 := hs.peb_lt
    omega
  have hmv : args.info.max_volumes ≤ 128 := min_le_right _ _
  have hus := hok.usable
  have hcount : pebs.length = lebCount v := h.count
  dsimp only at hp0 hp1 hu0 hid0 hid1 hus
  refine ⟨hcount, h.length, ?_, ?_, ?_⟩
  · intro peb hpeb
    obtain ⟨k, hk, rfl⟩ := List.mem_iff_getElem.mp hpeb
    obtain ⟨buf, hbuf, hb⟩ := h.peb k hk
    have hec := (@fillPeb_ec _ v.1 hs _ _ hbuf (0+k)
      ((v.2.drop (k*v.1.usable_leb_size.toNat)).take v.1.usable_leb_size.toNat)).at hs
      (by have := hargs.ec; omega) hv
    rw [← hb] at hec
    exact hec
  · intro k hk
    obtain ⟨buf, -, hb⟩ := h.peb k hk
    have hvid := @fillPeb_vid _ v.1 hs buf (0+k)
      ((v.2.drop (k*v.1.usable_leb_size.toNat)).take v.1.usable_leb_size.toNat)
    rw [← hb, Nat.zero_add] at hvid
    refine hvid.at hid0 (by omega) (by omega) hp0 (by omega) ?_ ?_
    · have := List.length_take_le v.1.usable_leb_size.toNat (v.2.drop (k*v.1.usable_leb_size.toNat))
      omega
    · intro ht
      obtain ⟨content, hcontent, hue⟩ := hok.static ht
      obtain rfl := Option.some.inj hcontent
      have hlt := hfit.2 ht
      have hcast : v.1.usable_leb_size = (v.1.usable_leb_size.toNat : ℤ) := by omega
      dsimp only at hue
      rw [hue, usedEbs, ofInt_toInt32, hcount]
      conv_lhs => rw [hcast]
      exact ceil_stored (by omega) (by omega) hlt
  · obtain ⟨n, hn⟩ := h.data
    rw [hn, List.take_left]

theorem LayoutPeb.layoutAt {lnum : ℕ} {vtbl : List (List Byte)} {peb : List Byte}
    (h : LayoutPeb args.info args.ec lnum vtbl peb) (hl : lnum < 2^32)
    (hv : UBI_EC_HDR_SIZE ≤ args.info.vid_hdr_offs) : LayoutAt args lnum peb := by
  refine ⟨h.length, h.ec hv, ?_⟩
  refine h.vid.at ?_ ?_ hl (le_refl 0) (show (0 : ℤ) < 2^32 by decide) (show 0 < 2^32 by decide) ?_
  · change 0 ≤ UBI_LAYOUT_VOLUME_ID
    decide
  · change UBI_LAYOUT_VOLUME_ID < 2^32
    decide
  · intro ht
    cases ht

/-- The output is read back to the configuration exactly where the VID header is behind the EC
header and the counts of LEBs have 32 bits. -/
theorem ubinize_image_iff (hargs : args.Accepted) {out : List Byte}
    (h : ubinize args d fs outbuf = .ok out) :
    ∃ secs, List.Forall₂ (fun sname sec => readSection args.info d fs sname = .ok (some sec))
        d.secnames secs ∧ (ImageOk args secs out ↔ HeadersFit args secs) := by
  obtain ⟨vtbl, hvtbl, h⟩ := Loop.bind_eq_ok h
  split at h
  · cases h
  next hne =>
  split at h
  · cases h
  next hmax =>
  obtain ⟨p, hp, h⟩ := Loop.bind_eq_ok h
  obtain rfl := Except.ok.inj h
  have hleb := sections_leb_pos hargs hne hp
  have hs := hargs.sane hleb.le
  have hstart : ProgressInv args d fs [] ⟨OutFile.lseek ⟨[], 0⟩ (2*args.info.peb_size), vtbl, [], false⟩
      [] [] := by
    obtain ⟨htable, hrecords⟩ := emptyVtbl_records hvtbl
    exact ⟨List.Forall₂.nil, by simp, List.Forall₂.nil, ⟨List.drop_nil, Or.inl ⟨rfl, rfl⟩⟩, htable,
      hrecords⟩
  obtain ⟨secs, vols, hinv⟩ := sections_inv hargs d.secnames hstart hp
  refine ⟨secs, hinv.read, ?_⟩
  have htable := table_length hs hinv.table hinv.records
  have hec : args.ec < 2^64 := by
    have := hargs.ec
    omega
  obtain ⟨hl0, hl1⟩ := layoutPebs_spec hs hec hec htable outbuf
  constructor
  · rintro ⟨peb0, peb1, vols', -, h0, -, -, hvols⟩
    refine ⟨layout_overlap hargs h0, ?_⟩
    have := (List.forall₂_iff_get.mp hvols)
    intro v hv
    obtain ⟨k, hk, rfl⟩ := List.mem_iff_getElem.mp hv
    exact (this.2 k hk (this.1 ▸ hk)).fits
  · rintro ⟨hvid, hfit⟩
    have hv := info_ec_before_vid hargs hvid
    refine ⟨_, _, vols, hinv.out.layout hl0.length hl1.length, hl0.layoutAt (by decide) hv,
      hl1.layoutAt (by decide) hv, ?_, ?_⟩
    · rw [lebData, lebData, hl0.table, hl1.table]
    · have hall : ∀ v ∈ imaged secs, Section.Ok args.info ⟨v.1, some v.2⟩ ∧
          (lebCount v ≤ 2^32 ∧ (v.1.type = .static → lebCount v < 2^32)) := by
        intro v hv
        refine ⟨?_, hfit v hv⟩
        obtain ⟨sec, hsec, himage⟩ := List.mem_filterMap.mp hv
        obtain ⟨content, hcontent, rfl⟩ := Option.map_eq_some_iff.mp himage
        have hok := hinv.ok sec hsec
        obtain ⟨vi, image⟩ := sec
        dsimp only at hcontent
        rw [hcontent] at hok
        exact hok
      have hboth := (List.forall₂_and_left _ _).mpr ⟨hall, hinv.written⟩
      exact hboth.imp fun v pebs hw => hw.2.volumeAt hargs hw.1.1 hw.1.2 hleb hv

end Run

section OneImage

variable {args : Args} {d : Dict} {fs : Files} {outbuf : ℕ → Byte}

/-- A configuration of one volume with an image is processed to the end. -/
theorem ubinize_one (hargs : args.Accepted) {sname : List Byte} (hnames : d.secnames = [sname])
    {vi : UbigenVolInfo} {content : List Byte}
    (hread : readSection args.info d fs sname = .ok (some ⟨vi, some content⟩))
    (hck : checkVolume args.info vi = .ok ()) (hflags : vi.flags = 0#8) :
    ∃ out, ubinize args d fs outbuf = .ok out := by
  have hok := readSection_ok hread
  obtain ⟨hs, hleb⟩ := hok.leb_pos hargs hck
  obtain ⟨hp0, hp1, hu0⟩ := hok.sizes hleb
  have hus := hok.usable
  have hid0 := hok.id_nonneg
  have hid1 := hok.id_lt
  dsimp only at hp0 hp1 hu0 hus hid0 hid1
  obtain ⟨pebs, hpebs, -⟩ := @ubigenWriteVolume_spec _ vi hs args.ec hu0 (by omega) hck
    content outbuf
  have hadd (vtbl : List (List Byte)) : ∃ vtbl', ubigenAddVolume args.info vi vtbl = .ok vtbl' := by
    unfold ubigenAddVolume
    rw [hck]
    exact ⟨_, if_neg hok.alignment_ne⟩
  have hsec (out : OutFile) (vtbl : List (List Byte)) :
      ∃ p, addSection args d fs outbuf ⟨out, vtbl, [], false⟩ sname = .ok p := by
    obtain ⟨vtbl', hvtbl'⟩ := hadd vtbl
    refine ⟨⟨pebs.foldl OutFile.write out, vtbl', [vi], false⟩, ?_⟩
    unfold addSection
    dsimp only
    rw [hread, Loop.ok_bind]
    dsimp only [List.findSome?_nil]
    rw [if_neg (by simp), hvtbl', Loop.ok_bind, writeImage, hpebs, hflags]
    rfl
  have hmv := hs.vtbl_pos
  unfold ubinize
  dsimp only
  rw [ubigenCreateEmptyVtbl, if_neg (by omega), hnames]
  obtain ⟨p, hp⟩ := hsec (OutFile.lseek ⟨[], 0⟩ (2*args.info.peb_size))
    (List.replicate args.info.max_volumes.toNat (vtblRecord (zeros 4) (zeros 4) (zeros 4) 0#8 [] 0#8))
  refine ⟨((((p.out.lseek 0).write (layoutPebs args.info args.ec args.ec p.vtbl outbuf).1).lseek
    args.info.peb_size).write (layoutPebs args.info args.ec args.ec p.vtbl outbuf).2).data, ?_⟩
  rw [Loop.ok_bind, if_neg (by simp), if_neg (by simp only [List.length_singleton]; omega),
    List.foldlM_cons, hp]
  rfl

/-- A static volume with an image of three bytes. -/
def imageIni : Dict :=
  [(literal "v", none), (literal "v:mode", some (literal "ubi")),
    (literal "v:vol_type", some (literal "static")), (literal "v:image", some (literal "i")),
    (literal "v:vol_id", some (literal "0")), (literal "v:vol_name", some (literal "v"))]

def imageFiles : Files := fun _ => some [1#8, 2#8, 3#8]

def imageVolume (leb_size : ℤ) : UbigenVolInfo :=
  ⟨0, .static, 1, 0, leb_size, literal "v", 0#8, 1, 3, 0#8⟩

/-- The VID header eight bytes behind the start of the EC header. -/
def overlapArgs : Args := ⟨131072, 2048, 2048, 8, 0, 1, 0#32⟩

theorem overlapArgs_accepted : overlapArgs.Accepted :=
  ⟨by decide, by decide, ⟨11, rfl⟩, ⟨11, rfl⟩, by decide, by decide, by decide, by decide⟩

theorem imageIni_read : imageIni.secnames = [literal "v"] ∧
    readSection overlapArgs.info imageIni imageFiles (literal "v") =
      .ok (some ⟨imageVolume 129024, some [1#8, 2#8, 3#8]⟩) := by
  decide +kernel

/-- With the VID header at offset 8 the image is made, and no eraseblock of the layout volume
has its EC header. -/
theorem ubinize_image_overlap : ∃ out,
    ubinize overlapArgs imageIni imageFiles (fun _ => 0#8) = .ok out ∧
    ∀ secs, ¬ ImageOk overlapArgs secs out := by
  obtain ⟨out, hout⟩ := @ubinize_one _ _ _ (fun _ => 0#8) overlapArgs_accepted _ imageIni_read.1 _ _
    imageIni_read.2 (by decide) rfl
  refine ⟨out, hout, ?_⟩
  rintro secs ⟨peb0, peb1, vols, -, h0, -⟩
  exact absurd (layout_overlap overlapArgs_accepted h0) (by decide)

end OneImage

section TwoImages

/-- A chip with eraseblocks of 1 KiB that is written byte by byte. -/
def norArgs : Args := ⟨1024, 1, 1, 0, 0, 1, 0#32⟩

theorem norArgs_accepted : norArgs.Accepted :=
  ⟨by decide, by decide, ⟨0, rfl⟩, ⟨0, rfl⟩, by decide, by decide, by decide, by decide⟩

/-- A static volume with an image of 2000 bytes, and an aligned one with an image of 1000. -/
def twoIni : Dict :=
  [(literal "v", none), (literal "v:mode", some (literal "ubi")),
    (literal "v:vol_type", some (literal "static")), (literal "v:image", some (literal "i")),
    (literal "v:vol_id", some (literal "0")), (literal "v:vol_name", some (literal "v")),
    (literal "w", none), (literal "w:mode", some (literal "ubi")),
    (literal "w:vol_type", some (literal "dynamic")), (literal "w:image", some (literal "j")),
    (literal "w:vol_id", some (literal "3")), (literal "w:vol_name", some (literal "w")),
    (literal "w:vol_alignment", some (literal "10"))]

def twoFiles : Files := fun name =>
  some (if name = literal "i" then List.replicate 2000 1#8 else List.replicate 1000 2#8)

/-- The sections as they are read. -/
def twoSections : List Section :=
  [⟨⟨0, .static, 1, 0, 896, literal "v", 0#8, 3, 2000, 0#8⟩, some (List.replicate 2000 1#8)⟩,
    ⟨⟨3, .dynamic, 10, 6, 890, literal "w", 0#8, 2, 1000, 0#8⟩, some (List.replicate 1000 2#8)⟩]

theorem twoIni_read : List.Forall₂ (fun sname sec =>
    readSection norArgs.info twoIni twoFiles sname = .ok (some sec)) twoIni.secnames twoSections := by
  have hnames : twoIni.secnames = [literal "v", literal "w"] := by decide +kernel
  rw [hnames, twoSections]
  refine .cons ?_ (.cons ?_ .nil)
  · decide +kernel
  · decide +kernel

/-- Three LEBs of the first volume and two of the second one. -/
theorem ubinize_image_two : ∃ out,
    ubinize norArgs twoIni twoFiles (fun _ => 0#8) = .ok out ∧
      (imaged twoSections).map lebCount = [3, 2] ∧ HeadersFit norArgs twoSections ∧
      ImageOk norArgs twoSections out := by
  have hsome : (ubinize norArgs twoIni twoFiles fun _ => 0#8).toOption.isSome = true := by
    decide +kernel
  have hcounts : (imaged twoSections).map lebCount = [3, 2] := by decide +kernel
  have hfit : HeadersFit norArgs twoSections := by
    refine ⟨.inl rfl, fun v hv => ?_⟩
    have hcount : lebCount v ∈ [3, 2] := hcounts ▸ List.mem_map_of_mem hv
    simp only [List.mem_cons, List.not_mem_nil, or_false] at hcount
    exact ⟨by omega, fun _ => by omega⟩
  cases hout : ubinize norArgs twoIni twoFiles fun _ => 0#8 with
  | error e =>
    rw [hout] at hsome
    cases hsome
  | ok out =>
    obtain ⟨secs, hsecs, hiff⟩ := ubinize_image_iff norArgs_accepted hout
    have hunique : Relator.RightUnique fun (sname : List Byte) (sec : Section) =>
        readSection norArgs.info twoIni twoFiles sname = .ok (some sec) :=
      fun _ _ _ h h' => Option.some.inj (Except.ok.inj (h.symm.trans h'))
    have hsame : secs = twoSections := hunique.forall₂ hsecs twoIni_read
    rw [hsame] at hiff
    exact ⟨out, rfl, hcounts, hfit, hiff.mpr hfit⟩

end TwoImages

end ChipTools.Ubi
