import ChipTools.Crc32
import ChipTools.FelMemory
import ChipTools.Loop

/-! The U-Boot image that `sunxi-fel` loads and starts in the end, and the commands in between that
write to the memory of the device. -/
namespace ChipTools.Fel
open Arm Bytes Loop

def IH_MAGIC : ℕ := 0x27051956
def IH_ARCH_ARM : Byte := 2#8
def IH_TYPE_INVALID : ℤ := 0
def IH_TYPE_FIRMWARE : ℤ := 5
def IH_TYPE_SCRIPT : ℤ := 6
def IH_TYPE_ARCH_MISMATCH : ℤ := -1
def HEADER_SIZE : ℕ := 64

/-- `crc32(0, ...)` of zlib. -/
def crc32 (bs : List Byte) : BitVec 32 := ~~~mtdCrc32 0xFFFFFFFF#32 bs

/-- The memory of the device, and the two variables that remember a U-Boot image. -/
structure Uboot where
  mem : Mem
  uboot_entry : Word
  uboot_size : Word

/-- The `pr_fatal`s. -/
inductive UbootErr
  | overwrite
  | headerCrc
  | invalidImage
  | wrongArchitecture
  | errorCode
  | typeMismatch
  | truncated
  | dataCrc
deriving DecidableEq, Repr

section Image

def getImageType (buf : List Byte) : ℤ :=
  if buf.length ≤ HEADER_SIZE then IH_TYPE_INVALID
  else if beField buf 0 4 ≠ IH_MAGIC then IH_TYPE_INVALID
  else if buf.getD 29 0#8 ≠ IH_ARCH_ARM then IH_TYPE_ARCH_MISMATCH
  else (buf.getD 30 0#8).toNat

/-- The header with its own CRC set to zero. -/
def clearedHeader (buf : List Byte) : List Byte :=
  buf.take 4 ++ (List.replicate 4 0#8 ++ (buf.take HEADER_SIZE).drop 8)

variable (s : Uboot)

/-- `aw_write_buffer` on a host with 64 bits: the end of U-Boot is computed with 32 bits, the end
of the request with 64. -/
def awWriteBuffer (buf : List Byte) (offset : Word) : Except UbootErr Uboot :=
  if 0#32 < s.uboot_size ∧ offset ≤ s.uboot_entry+s.uboot_size ∧
      s.uboot_entry.toNat ≤ offset.toNat+buf.length then .error .overwrite
  else .ok { s with mem := awFelWrite s.mem buf offset }

def awFelWriteUbootImage (buf : List Byte) : Except UbootErr Uboot :=
  if buf.length ≤ HEADER_SIZE then .ok s
  else if beField buf 4 4 ≠ (crc32 (clearedHeader buf)).toNat then .error .headerCrc
  else
    let image_type := getImageType buf
    if image_type ≤ IH_TYPE_INVALID then
      if image_type = IH_TYPE_INVALID then .error .invalidImage
      else if image_type = IH_TYPE_ARCH_MISMATCH then .error .wrongArchitecture
      else .error .errorCode
    else if image_type ≠ IH_TYPE_FIRMWARE then .error .typeMismatch
    else
      let data_size := beField buf 12 4
      let load_addr := beField buf 16 4
      if buf.length-HEADER_SIZE < data_size then .error .truncated
      else
        let data := (buf.drop HEADER_SIZE).take data_size
        if beField buf 24 4 ≠ (crc32 data).toNat then .error .dataCrc
        else
          (awWriteBuffer s data (BitVec.ofNat 32 load_addr)).map fun s =>
            { s with uboot_entry := BitVec.ofNat 32 load_addr
                     uboot_size := BitVec.ofNat 32 data_size }

end Image

section Commands

variable (spl_addr : Word)

/-- `have_sunxi_spl`: the signature "SPL" and a version from 0.1 to 0.31. -/
def haveSunxiSpl (m : Mem) : Bool :=
  let spl_signature := (List.range 4).map fun k => m (spl_addr+0x14#32+BitVec.ofNat 32 k)
  spl_signature.take 3 = [0x53#8, 0x50#8, 0x4c#8] ∧
    1#8 ≤ spl_signature.getD 3 0#8 ∧ spl_signature.getD 3 0#8 ≤ 31#8

/-- Where `pass_fel_information` writes. -/
def infoAddr : Word := spl_addr+0x18#32

def passFelInformation (script_address uEnv_length : Word) (s : Uboot) : Uboot :=
  if haveSunxiSpl spl_addr s.mem then
    { s with mem := awFelWrite s.mem (leBytes [script_address, uEnv_length]) (infoAddr spl_addr) }
  else s

/-- "#=uEnv" -/
def isUEnv (buf : List Byte) : Bool :=
  6 < buf.length ∧ buf.take 6 = [0x23#8, 0x3d#8, 0x75#8, 0x45#8, 0x6e#8, 0x76#8]

/-- One file of `file_upload`. -/
def uploadFile (offset : Word) (buf : List Byte) (s : Uboot) : Except UbootErr Uboot :=
  if buf.length = 0 then .ok s
  else do
    let s ← awWriteBuffer s buf offset
    let s := if getImageType buf = IH_TYPE_SCRIPT then
      passFelInformation spl_addr offset 0#32 s else s
    .ok (if isUEnv buf then
      passFelInformation spl_addr offset (BitVec.ofNat 32 buf.length) s else s)

def awFelFill (offset : Word) (size : ℕ) (value : Byte) (s : Uboot) : Except UbootErr Uboot :=
  if 0 < size then awWriteBuffer s (List.replicate size value) offset else .ok s

/-- The commands that write files or a value. The variants with progress and gauges, and for one
and several files, differ in what they print. -/
inductive Command
  | write (files : List (Word × List Byte))
  | fill (offset : Word) (size : ℕ) (value : Byte)

def Command.clear (offset : Word) (size : ℕ) : Command := .fill offset size 0#8

def Command.exec (s : Uboot) : Command → Except UbootErr Uboot
  | .write files => files.foldlM (fun s f => uploadFile spl_addr f.1 f.2 s) s
  | .fill offset size value => awFelFill offset size value s

def runCommands (cmds : List Command) (s : Uboot) : Except UbootErr Uboot :=
  cmds.foldlM (Command.exec spl_addr) s

end Commands
section Guard

variable {s s' : Uboot} {buf : List Byte} {offset : Word} {len : ℕ}

/-- The addresses of a request. Behind the last address of the device comes the first one. -/
def Requested (offset : Word) (len : ℕ) (x : Word) : Prop := (x-offset).toNat < len

/-- The bytes of the U-Boot image. -/
def InUboot (s : Uboot) (x : Word) : Prop := Requested s.uboot_entry s.uboot_size.toNat x

def Intersects (s : Uboot) (offset : Word) (len : ℕ) : Prop :=
  ∃ x, Requested offset len x ∧ InUboot s x

/-- A request that the guard is right about. Where U-Boot ends before the end of the address space,
it does not come round that end into U-Boot; where U-Boot goes up to the end or round it, it does
not lie in the first part of U-Boot, nor does it start behind the end that was computed and reach
the entry. -/
def Guarded (s : Uboot) (offset : Word) (len : ℕ) : Prop :=
  s.uboot_size = 0#32 ∨ len = 0 ∨
  (s.uboot_entry.toNat+s.uboot_size.toNat < 2^32 ∧
    (offset.toNat ≤ s.uboot_entry.toNat+s.uboot_size.toNat ∨
      offset.toNat+len ≤ 2^32+s.uboot_entry.toNat)) ∨
  (2^32 ≤ s.uboot_entry.toNat+s.uboot_size.toNat ∧
    (offset.toNat+2^32 ≤ s.uboot_entry.toNat+s.uboot_size.toNat ∧
        s.uboot_entry.toNat ≤ offset.toNat+len ∨
      s.uboot_entry.toNat+s.uboot_size.toNat ≤ offset.toNat+2^32 ∧
        offset.toNat+len ≤ s.uboot_entry.toNat))

/-- Two ranges meet where one of them starts in the other. -/
theorem intersects_iff : Intersects s offset len ↔ s.uboot_size ≠ 0#32 ∧ 0 < len ∧
    ((offset-s.uboot_entry).toNat < s.uboot_size.toNat ∨
      (s.uboot_entry-offset).toNat < len) := by
  have hsize : s.uboot_size ≠ 0#32 ↔ 0 < s.uboot_size.toNat := by
    rw [Ne, ← BitVec.toNat_inj]
    exact Nat.pos_iff_ne_zero.symm
  rw [hsize]
  unfold Intersects InUboot Requested
  constructor
  · rintro ⟨x, hx, hu⟩
    refine ⟨by omega, by omega, ?_⟩
    simp only [BitVec.toNat_sub] at *
    omega
  · rintro ⟨h0, hlen, h | h⟩
    · exact ⟨offset, by rwa [BitVec.sub_self], h⟩
    · exact ⟨s.uboot_entry, h, by rwa [BitVec.sub_self]⟩

theorem awWriteBuffer_refused : awWriteBuffer s buf offset = .error .overwrite ↔
    0#32 < s.uboot_size ∧ offset ≤ s.uboot_entry+s.uboot_size ∧
      s.uboot_entry.toNat ≤ offset.toNat+buf.length := by
  unfold awWriteBuffer
  split_ifs with h
  · exact iff_of_true rfl h
  · exact iff_of_false nofun h

/-- The guard of `aw_write_buffer` refuses what it has to, exactly for these requests. -/
theorem guarded_iff : (Intersects s offset buf.length →
    awWriteBuffer s buf offset = .error .overwrite) ↔ Guarded s offset buf.length := by
  rw [awWriteBuffer_refused, intersects_iff]
  have hsize : s.uboot_size = 0#32 ↔ s.uboot_size.toNat = 0 := BitVec.toNat_inj.symm
  unfold Guarded
  rw [Ne, hsize, BitVec.lt_def, BitVec.le_def, BitVec.toNat_sub, BitVec.toNat_sub, BitVec.toNat_add,
    BitVec.toNat_ofNat]
  have he := s.uboot_entry.isLt
  have hs := s.uboot_size.isLt
  have ho := offset.isLt
  generalize s.uboot_entry.toNat = e at *
  generalize s.uboot_size.toNat = n at *
  generalize offset.toNat = o at *
  generalize buf.length = len
  -- whether U-Boot reaches the end of the address space
  rcases Nat.lt_or_ge (e+n) (2^32) with hend | hend
  · rw [Nat.mod_eq_of_lt hend]
    rcases Nat.lt_or_ge o e with hoe | hoe
    · rw [show (2^32-e+o)%2^32 = 2^32-e+o from Nat.mod_eq_of_lt (by omega),
        show (2^32-o+e)%2^32 = e-o by omega]
      constructor <;> intro h <;> omega
    · rw [show (2^32-e+o)%2^32 = o-e by omega]
      constructor <;> intro h <;> omega
  · rw [show (e+n)%2^32 = e+n-2^32 by omega]
    rcases Nat.lt_or_ge o e with hoe | hoe
    · rw [show (2^32-e+o)%2^32 = 2^32-e+o from Nat.mod_eq_of_lt (by omega),
        show (2^32-o+e)%2^32 = e-o by omega]
      constructor <;> intro h <;> omega
    · rw [show (2^32-e+o)%2^32 = o-e by omega]
      constructor <;> intro h <;> omega

end Guard
section Run

variable {spl_addr : Word} {s s' : Uboot} {buf data : List Byte} {offset : Word}

/-- The image is where it was loaded to. -/
structure Intact (load_addr : Word) (data : List Byte) (s : Uboot) : Prop where
  entry : s.uboot_entry = load_addr
  size : s.uboot_size.toNat = data.length
  bytes : ∀ (k : ℕ) (hk : k < data.length), s.mem (load_addr+BitVec.ofNat 32 k) = data[k]

/-- The bytes that `pass_fel_information` writes are not those of U-Boot. -/
def InfoApart (spl_addr : Word) (s : Uboot) : Prop :=
  ∀ k < 8, ¬InUboot s (infoAddr spl_addr+BitVec.ofNat 32 k)

/-- The conditions of one file: its request is one that the guard is right about, and where the
loader is informed about it, that does not hit U-Boot. -/
structure UploadOk (spl_addr offset : Word) (buf : List Byte) (s : Uboot) : Prop where
  guarded : Guarded s offset buf.length
  info : getImageType buf = IH_TYPE_SCRIPT ∨ isUEnv buf = true →
    haveSunxiSpl spl_addr (awFelWrite s.mem buf offset) = true → InfoApart spl_addr s

/-- The conditions of the files of a command, each in the state that it meets. -/
def FilesOk (spl_addr : Word) : List (Word × List Byte) → Uboot → Prop
  | [], _ => True
  | f :: files, s => UploadOk spl_addr f.1 f.2 s ∧
    ∀ s', uploadFile spl_addr f.1 f.2 s = .ok s' → FilesOk spl_addr files s'

def Command.Ok (spl_addr : Word) (s : Uboot) : Command → Prop
  | .write files => FilesOk spl_addr files s
  | .fill offset size _ => Guarded s offset size

def RunOk (spl_addr : Word) : List Command → Uboot → Prop
  | [], _ => True
  | cmd :: cmds, s => cmd.Ok spl_addr s ∧
    ∀ s', cmd.exec spl_addr s = .ok s' → RunOk spl_addr cmds s'

/-- A write that hits none of its bytes leaves the image alone. -/
theorem Intact.write {load_addr : Word} (h : Intact load_addr data s)
    (hout : ∀ x, InUboot s x → ¬Requested offset buf.length x) :
    Intact load_addr data { s with mem := awFelWrite s.mem buf offset } := by
  refine ⟨h.entry, h.size, ?_⟩
  intro k hk
  have hx : InUboot s (load_addr+BitVec.ofNat 32 k) := by
    unfold InUboot Requested
    have hlt := s.uboot_size.isLt
    rw [h.entry, h.size] at *
    rw [BitVec.add_comm, BitVec.add_sub_cancel, BitVec.toNat_ofNat]
    exact (Nat.mod_le _ _).trans_lt hk
  have hle := hout _ hx
  unfold Requested at hle
  exact (awFelWrite_outside _ _ _ _ (Nat.le_of_not_lt hle)).trans (h.bytes k hk)

theorem Intact.awWriteBuffer {load_addr : Word} (h : Intact load_addr data s)
    (hok : Guarded s offset buf.length) (hrun : awWriteBuffer s buf offset = .ok s') :
    s' = { s with mem := awFelWrite s.mem buf offset } ∧ Intact load_addr data s' := by
  have hmiss : ¬Intersects s offset buf.length := by
    intro hmeet
    rw [guarded_iff.mpr hok hmeet] at hrun
    cases hrun
  unfold Fel.awWriteBuffer at hrun
  split_ifs at hrun
  cases hrun
  exact ⟨rfl, h.write fun x hu hx => hmiss ⟨x, hx, hu⟩⟩

theorem Intact.passFelInformation {load_addr script_address uEnv_length : Word}
    (h : Intact load_addr data s) (hapart : haveSunxiSpl spl_addr s.mem = true → InfoApart spl_addr s) :
    Intact load_addr data (passFelInformation spl_addr script_address uEnv_length s) := by
  unfold Fel.passFelInformation
  split_ifs with hspl
  · apply h.write
    intro x hu hx
    unfold Requested at hx
    rw [leBytes_length] at hx
    apply hapart hspl (x-infoAddr spl_addr).toNat hx
    rw [BitVec.ofNat_toNat, BitVec.setWidth_eq, BitVec.add_comm, BitVec.sub_add_cancel]
    exact hu
  · exact h

/-- The signature is not in the bytes that are written. -/
theorem haveSunxiSpl_passFelInformation (script_address uEnv_length : Word) (s : Uboot) :
    haveSunxiSpl spl_addr (passFelInformation spl_addr script_address uEnv_length s).mem =
      haveSunxiSpl spl_addr s.mem := by
  unfold passFelInformation
  split_ifs
  · have hbyte : ∀ k < 4, awFelWrite s.mem (leBytes [script_address, uEnv_length]) (infoAddr spl_addr)
        (spl_addr+0x14#32+BitVec.ofNat 32 k) = s.mem (spl_addr+0x14#32+BitVec.ofNat 32 k) := by
      intro k hk
      apply awFelWrite_outside
      rw [leBytes_length, infoAddr, BitVec.toNat_sub, BitVec.toNat_add, BitVec.toNat_add,
        BitVec.toNat_add, BitVec.toNat_ofNat, BitVec.toNat_ofNat, BitVec.toNat_ofNat]
      change 8 ≤ _
      have := spl_addr.isLt
      omega
    unfold haveSunxiSpl
    dsimp only
    rw [List.map_congr_left fun k hk => hbyte k (List.mem_range.mp hk)]
  · rfl

theorem infoApart_passFelInformation (script_address uEnv_length : Word) (s : Uboot) :
    InfoApart spl_addr (passFelInformation spl_addr script_address uEnv_length s) =
      InfoApart spl_addr s := by
  unfold passFelInformation
  split_ifs <;> rfl

theorem Intact.uploadFile {load_addr : Word} (h : Intact load_addr data s)
    (hok : UploadOk spl_addr offset buf s) (hrun : uploadFile spl_addr offset buf s = .ok s') :
    Intact load_addr data s' := by
  unfold Fel.uploadFile at hrun
  by_cases h0 : buf.length = 0
  · rw [if_pos h0] at hrun
    cases hrun
    exact h
  rw [if_neg h0] at hrun
  obtain ⟨s₁, hw, hrun⟩ := bind_eq_ok hrun
  obtain ⟨rfl, h₁⟩ := h.awWriteBuffer hok.guarded hw
  cases hrun
  -- the second call of `pass_fel_information` sees the signature that the first one saw
  by_cases hscript : getImageType buf = IH_TYPE_SCRIPT
  · have hinfo := hok.info (Or.inl hscript)
    rw [if_pos hscript]
    have h₂ : Intact load_addr data (Fel.passFelInformation spl_addr offset 0#32
        { s with mem := awFelWrite s.mem buf offset }) := h₁.passFelInformation hinfo
    split_ifs
    · apply h₂.passFelInformation
      rw [haveSunxiSpl_passFelInformation, infoApart_passFelInformation]
      exact hinfo
    · exact h₂
  · rw [if_neg hscript]
    split_ifs with henv
    · exact h₁.passFelInformation (hok.info (Or.inr henv))
    · exact h₁

theorem Intact.files {load_addr : Word} {files : List (Word × List Byte)}
    (h : Intact load_addr data s) (hok : FilesOk spl_addr files s)
    (hrun : files.foldlM (fun s f => Fel.uploadFile spl_addr f.1 f.2 s) s = .ok s') :
    Intact load_addr data s' := by
  induction files generalizing s with
  | nil =>
    cases hrun
    exact h
  | cons f files ih =>
    rw [List.foldlM_cons] at hrun
    obtain ⟨s₁, hfile, hrun⟩ := bind_eq_ok hrun
    exact ih (h.uploadFile hok.1 hfile) (hok.2 s₁ hfile) hrun

theorem Intact.exec {load_addr : Word} {cmd : Command} (h : Intact load_addr data s)
    (hok : cmd.Ok spl_addr s) (hrun : cmd.exec spl_addr s = .ok s') : Intact load_addr data s' := by
  cases cmd with
  | write files => exact h.files hok hrun
  | fill offset size value =>
    change awFelFill offset size value s = .ok s' at hrun
    unfold awFelFill at hrun
    split_ifs at hrun with h0
    · apply (h.awWriteBuffer _ hrun).2
      rw [List.length_replicate]
      exact hok
    · cases hrun
      exact h

/-- The run of the first commands of a list. -/
theorem Intact.run {load_addr : Word} {pre post : List Command} (h : Intact load_addr data s)
    (hok : RunOk spl_addr (pre ++ post) s) (hrun : runCommands spl_addr pre s = .ok s') :
    Intact load_addr data s' ∧ RunOk spl_addr post s' := by
  induction pre generalizing s with
  | nil =>
    cases hrun
    exact ⟨h, hok⟩
  | cons cmd pre ih =>
    unfold runCommands at hrun
    rw [List.foldlM_cons] at hrun
    obtain ⟨s₁, hcmd, hrun⟩ := bind_eq_ok hrun
    exact ih (h.exec hok.1 hcmd) (hok.2 s₁ hcmd) hrun

theorem awFelWriteUbootImage_intact (hlen : HEADER_SIZE < buf.length)
    (hload : awFelWriteUbootImage s buf = .ok s') :
    HEADER_SIZE+beField buf 12 4 ≤ buf.length ∧
    Intact (BitVec.ofNat 32 (beField buf 16 4)) ((buf.drop HEADER_SIZE).take (beField buf 12 4))
      s' := by
  unfold awFelWriteUbootImage at hload
  rw [if_neg (Nat.not_le_of_lt hlen)] at hload
  dsimp only at hload
  split_ifs at hload with h1 h2 h3 h4 h5 h6 h7
  have hsize : beField buf 12 4 < 2^32 := beField_lt buf 12 4
  refine ⟨by omega, ?_⟩
  have hdata : ((buf.drop HEADER_SIZE).take (beField buf 12 4)).length = beField buf 12 4 := by
    rw [List.length_take, List.length_drop]
    omega
  generalize (buf.drop HEADER_SIZE).take (beField buf 12 4) = data at *
  generalize BitVec.ofNat 32 (beField buf 16 4) = load_addr at *
  cases hw : awWriteBuffer s data load_addr with
  | error e =>
    rw [hw] at hload
    cases hload
  | ok s₁ =>
    rw [hw] at hload
    cases hload
    unfold awWriteBuffer at hw
    split_ifs at hw
    cases hw
    refine ⟨rfl, ?_, ?_⟩
    · rw [hdata]
      exact (BitVec.toNat_ofNat _ _).trans (Nat.mod_eq_of_lt hsize)
    · intro k hk
      exact awFelWrite_byte _ _ _ _ hk (by omega)

/-- After a U-Boot image has been loaded: along a run of commands that meet the conditions, a
request that meets U-Boot is refused, and U-Boot stays as it was loaded. -/
theorem uboot_kept (spl_addr : Word) {buf : List Byte} {s₀ s₁ : Uboot}
    (hlen : HEADER_SIZE < buf.length) (hload : awFelWriteUbootImage s₀ buf = .ok s₁)
    {cmds : List Command} (hok : RunOk spl_addr cmds s₁) :
    ∀ pre post, cmds = pre ++ post → ∀ s, runCommands spl_addr pre s₁ = .ok s →
      s.uboot_entry = BitVec.ofNat 32 (beField buf 16 4) ∧
      s.uboot_size.toNat = beField buf 12 4 ∧
      (∀ k < beField buf 12 4, s.mem (s.uboot_entry+BitVec.ofNat 32 k) =
        buf.getD (HEADER_SIZE+k) 0#8) ∧
      ∀ offset data, Guarded s offset data.length → Intersects s offset data.length →
        awWriteBuffer s data offset = .error .overwrite := by
  rintro pre post rfl s hrun
  obtain ⟨hroom, h⟩ := awFelWriteUbootImage_intact hlen hload
  have hdata : ((buf.drop HEADER_SIZE).take (beField buf 12 4)).length = beField buf 12 4 := by
    rw [List.length_take, List.length_drop]
    omega
  obtain ⟨hs, -⟩ := h.run hok hrun
  refine ⟨hs.entry, hs.size.trans hdata, ?_, fun offset data hg hi => guarded_iff.mpr hg hi⟩
  intro k hk
  rw [hs.entry, hs.bytes k (by omega), List.getElem_take, List.getElem_drop,
    List.getD_eq_getElem?_getD, List.getElem?_eq_getElem (by omega), Option.getD_some]

end Run
section Small

/-- An image of four bytes with the CRCs of its header and its data. -/
def smallUboot (load_addr hcrc : ℕ) : List Byte :=
  be 4 IH_MAGIC ++ be 4 hcrc ++ be 4 0 ++ be 4 4 ++ be 4 load_addr ++ be 4 load_addr ++
    be 4 3057449933 ++ [17#8, 2#8, 5#8, 0#8] ++ List.replicate 32 0#8 ++ [1#8, 2#8, 3#8, 4#8]

def freshDevice : Uboot := ⟨fun _ => 0#8, 0#32, 0#32⟩

theorem smallUboot_loaded {load_addr hcrc : ℕ}
    (h : (awFelWriteUbootImage freshDevice (smallUboot load_addr hcrc)).isOk = true) :
    ∃ s, awFelWriteUbootImage freshDevice (smallUboot load_addr hcrc) = .ok s := by
  cases hrun : awFelWriteUbootImage freshDevice (smallUboot load_addr hcrc) with
  | error e =>
    rw [hrun] at h
    cases h
  | ok s => exact ⟨s, rfl⟩

theorem uboot_kept_small : ∃ s₁ s, awFelWriteUbootImage freshDevice
      (smallUboot 0x4a000000 1254630282) = .ok s₁ ∧
    runCommands 0#32 [.fill 0x43100000#32 2 0xff#8] s₁ = .ok s ∧
    s.mem 0x4a000000#32 = 1#8 := by
  obtain ⟨s₁, hload⟩ := smallUboot_loaded (by decide +kernel :
    (awFelWriteUbootImage freshDevice (smallUboot 0x4a000000 1254630282)).isOk = true)
  obtain ⟨-, hi⟩ := awFelWriteUbootImage_intact (by decide) hload
  have hentry : s₁.uboot_entry = 0x4a000000#32 := hi.entry
  have hsize : s₁.uboot_size = 4#32 := BitVec.eq_of_toNat_eq hi.size
  have hrun : runCommands 0#32 [.fill 0x43100000#32 2 0xff#8] s₁ =
      .ok { s₁ with mem := awFelWrite s₁.mem (List.replicate 2 0xff#8) 0x43100000#32 } := by
    change awWriteBuffer s₁ (List.replicate 2 0xff#8) 0x43100000#32 >>= _ = _
    unfold awWriteBuffer
    rw [hentry, hsize, if_neg (by decide)]
    rfl
  have hok : RunOk 0#32 [.fill 0x43100000#32 2 0xff#8] s₁ := by
    refine ⟨?_, fun _ _ => trivial⟩
    change Guarded s₁ 0x43100000#32 2
    unfold Guarded
    rw [hentry, hsize]
    decide
  obtain ⟨-, -, hbytes, -⟩ := uboot_kept 0#32 (by decide) hload hok _ [] rfl _ hrun
  refine ⟨s₁, _, hload, hrun, ?_⟩
  have h0 := hbytes 0 (by decide)
  rw [show s₁.uboot_entry+BitVec.ofNat 32 0 = 0x4a000000#32 by rw [hentry]; rfl] at h0
  exact h0

/-- At the top of the address space the end of U-Boot is 0 with 32 bits, and the guard lets a
write to its second byte through. -/
theorem uboot_overwritten : ∃ s₁ s, awFelWriteUbootImage freshDevice
      (smallUboot 0xFFFFFFFC 2453213183) = .ok s₁ ∧
    runCommands 0#32 [.fill 0xFFFFFFFD#32 1 0#8] s₁ = .ok s ∧
    Intersects s₁ 0xFFFFFFFD#32 1 ∧
    s₁.mem 0xFFFFFFFD#32 = 2#8 ∧ s.mem 0xFFFFFFFD#32 = 0#8 := by
  obtain ⟨s₁, hload⟩ := smallUboot_loaded (by decide +kernel :
    (awFelWriteUbootImage freshDevice (smallUboot 0xFFFFFFFC 2453213183)).isOk = true)
  obtain ⟨-, hi⟩ := awFelWriteUbootImage_intact (by decide) hload
  have hentry : s₁.uboot_entry = 0xFFFFFFFC#32 := hi.entry
  have hsize : s₁.uboot_size = 4#32 := BitVec.eq_of_toNat_eq hi.size
  refine ⟨s₁, { s₁ with mem := awFelWrite s₁.mem (List.replicate 1 0#8) 0xFFFFFFFD#32 }, hload,
    ?_, ?_, ?_, rfl⟩
  · change awWriteBuffer s₁ (List.replicate 1 0#8) 0xFFFFFFFD#32 >>= _ = _
    unfold awWriteBuffer
    rw [hentry, hsize, if_neg (by decide)]
    rfl
  · refine ⟨0xFFFFFFFD#32, by unfold Requested; decide, ?_⟩
    unfold InUboot Requested
    rw [hentry, hsize]
    decide
  · exact hi.bytes 1 (by decide)

end Small

end ChipTools.Fel
