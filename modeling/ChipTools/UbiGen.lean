import ChipTools.Crc32
import ChipTools.CNumber
import ChipTools.Loop

/-! The generator of UBI images: the headers of a physical eraseblock, the volume table, and
the eraseblocks of a volume. -/
namespace ChipTools.Ubi
open Bytes

def UBI_CRC32_INIT : BitVec 32 := 0xFFFFFFFF#32
def UBI_EC_HDR_MAGIC : ℕ := 0x55424923
def UBI_VID_HDR_MAGIC : ℕ := 0x55424921
def UBI_EC_HDR_SIZE : ℕ := 64
def UBI_VID_HDR_SIZE : ℕ := 64
def UBI_VTBL_RECORD_SIZE : ℕ := 172
def UBI_MAX_VOLUMES : ℤ := 128
def UBI_VOL_NAME_MAX : ℕ := 127
def UBI_VTBL_AUTORESIZE_FLG : Byte := 1#8
def UBI_LAYOUT_VOLUME_ID : ℤ := 0x7FFFFFFF-4096
def UBI_COMPAT_REJECT : Byte := 5#8

/-- How a program stops without its result: by a message, by a signal, or not at all. -/
inductive Stop
  | errmsg (text : String)
  | signal
  | hang
deriving DecidableEq

/-- `struct ubigen_info`. The LEB size is negative where the headers do not fit. -/
structure UbigenInfo where
  leb_size : ℤ
  peb_size : ℕ
  min_io_size : ℕ
  vid_hdr_offs : ℕ
  data_offs : ℕ
  ubi_ver : ℕ
  vtbl_size : ℤ
  max_volumes : ℤ
  image_seq : BitVec 32

/-- `ubigen_info_init`. -/
def ubigenInfoInit (peb_size min_io_size subpage_size vid_hdr_offs ubi_ver : ℕ)
    (image_seq : BitVec 32) : UbigenInfo :=
  let vid_hdr_offs := if vid_hdr_offs = 0
    then (UBI_EC_HDR_SIZE+subpage_size-1)/subpage_size*subpage_size else vid_hdr_offs
  let data_offs := (vid_hdr_offs+UBI_VID_HDR_SIZE+min_io_size-1)/min_io_size*min_io_size
  let leb_size : ℤ := peb_size-data_offs
  -- the size of a record is a `size_t`, and so a negative LEB size counts as a large one
  let max_volumes := min (CNumber.toInt32 (leb_size%2^64/UBI_VTBL_RECORD_SIZE)) UBI_MAX_VOLUMES
  ⟨leb_size, peb_size, min_io_size, vid_hdr_offs, data_offs, ubi_ver,
    CNumber.toInt32 (max_volumes*UBI_VTBL_RECORD_SIZE), max_volumes, image_seq⟩

/-- `UBI_VID_DYNAMIC` and `UBI_VID_STATIC`. -/
inductive VolType
  | dynamic
  | static
deriving DecidableEq, Repr

def VolType.code : VolType → Byte
  | .dynamic => 1#8
  | .static => 2#8

/-- `struct ubigen_vol_info`. -/
structure UbigenVolInfo where
  id : ℤ
  type : VolType
  alignment : ℤ
  data_pad : ℤ
  usable_leb_size : ℤ
  name : List Byte
  compat : Byte
  used_ebs : ℤ
  bytes : ℤ
  flags : Byte
deriving DecidableEq

/-- `cpu_to_be32` of an `int`. -/
def be32 (x : ℤ) : List Byte := be 4 (BitVec.ofInt 32 x).toNat

def zeros (n : ℕ) : List Byte := List.replicate n 0#8

/-- A structure with the CRC of all of it at its end. -/
def sealed (body : List Byte) : List Byte :=
  body ++ be 4 (mtdCrc32 UBI_CRC32_INIT body).toNat

/-- `ubigen_init_ec_hdr`. -/
def ubigenInitEcHdr (ui : UbigenInfo) (ec : ℕ) : List Byte :=
  sealed (be 4 UBI_EC_HDR_MAGIC ++ (BitVec.ofNat 8 ui.ubi_ver :: (zeros 3 ++ (be 8 ec ++
    (be 4 ui.vid_hdr_offs ++ (be 4 ui.data_offs ++ (be 4 ui.image_seq.toNat ++ zeros 32)))))))

/-- `ubigen_init_vid_hdr`. Only static volumes have the size and the CRC of their data. -/
def ubigenInitVidHdr (ui : UbigenInfo) (vi : UbigenVolInfo) (lnum : ℕ) (data : List Byte) :
    List Byte :=
  let static := vi.type = .static
  let data_size := if static then be 4 data.length else zeros 4
  let used_ebs := if static then be32 vi.used_ebs else zeros 4
  let data_crc := if static then be 4 (mtdCrc32 UBI_CRC32_INIT data).toNat else zeros 4
  sealed (be 4 UBI_VID_HDR_MAGIC ++ ([BitVec.ofNat 8 ui.ubi_ver, vi.type.code, 0#8, vi.compat] ++
    (be32 vi.id ++ (be 4 lnum ++ (zeros 4 ++ (data_size ++ (used_ebs ++ (be32 vi.data_pad ++
      (data_crc ++ zeros 24)))))))))

/-- A record of the volume table. -/
def vtblRecord (reserved_pebs alignment data_pad : List Byte) (vol_type : Byte)
    (name : List Byte) (flags : Byte) : List Byte :=
  sealed (reserved_pebs ++ (alignment ++ (data_pad ++ ([vol_type, 0#8] ++ (be 2 name.length ++
    (name ++ (zeros (UBI_VOL_NAME_MAX+1-name.length) ++ (flags :: zeros 23))))))))

/-- `ubigen_create_empty_vtbl`: no memory for a table of a negative size. -/
def ubigenCreateEmptyVtbl (ui : UbigenInfo) : Except Stop (List (List Byte)) :=
  if ui.vtbl_size < 0 then
    .error (.errmsg s!"cannot allocate {ui.vtbl_size} bytes of memory")
  else .ok (List.replicate ui.max_volumes.toNat (vtblRecord (zeros 4) (zeros 4) (zeros 4) 0#8 [] 0#8))

/-- What both `ubigen_add_volume` and `ubigen_write_volume` check first. -/
def checkVolume (ui : UbigenInfo) (vi : UbigenVolInfo) : Except Stop Unit :=
  if ui.max_volumes ≤ vi.id then
    .error (.errmsg s!"too high volume id {vi.id}, max. volumes is {ui.max_volumes}")
  else if ui.leb_size ≤ vi.alignment then
    .error (.errmsg s!"too large alignment {vi.alignment}, max is {ui.leb_size} (LEB size)")
  else .ok ()

/-- `ubigen_add_volume`. -/
def ubigenAddVolume (ui : UbigenInfo) (vi : UbigenVolInfo) (vtbl : List (List Byte)) :
    Except Stop (List (List Byte)) := do
  checkVolume ui vi
  if vi.alignment = 0 then .error .signal
  else
    -- the count is stored to a `uint32_t`
    let reserved_pebs := (CNumber.toInt64 (vi.bytes+ui.leb_size-1)).tdiv ui.leb_size
    .ok (vtbl.set vi.id.toNat (vtblRecord (be32 reserved_pebs) (be32 vi.alignment)
      (be32 (ui.leb_size.tmod vi.alignment)) vi.type.code vi.name vi.flags))

/-- A pass of the loop of `ubigen_write_volume`: the buffer with one LEB in it. -/
def fillPeb (ui : UbigenInfo) (vi : UbigenVolInfo) (lnum : ℕ) (data : List Byte)
    (outbuf : ℕ → Byte) : ℕ → Byte :=
  let outbuf := copyTo outbuf ui.vid_hdr_offs (ubigenInitVidHdr ui vi lnum data)
  let outbuf := copyTo outbuf ui.data_offs data
  setTo outbuf (ui.data_offs+data.length) (ui.peb_size-ui.data_offs-data.length) 0xff#8

/-- The loop of `ubigen_write_volume`, with what is left of the input: the eraseblocks that
are written. -/
def writeLoop (ui : UbigenInfo) (vi : UbigenVolInfo) :
    ℕ → ℕ → (ℕ → Byte) → ℕ → ℕ → List Byte → Except Stop (List (List Byte))
  | _, _, _, _, 0, _ => .ok []
  | 0, _, _, _, _, _ => .error .hang
  | fuel+1, lnum, outbuf, len, bytes, inp =>
    let len := if bytes < len then bytes else len
    if inp.length < len then .error (.errmsg s!"cannot read {len} bytes from the input file")
    else
      let outbuf := fillPeb ui vi lnum (inp.take len) outbuf
      match writeLoop ui vi fuel (lnum+1) outbuf len (bytes-len) (inp.drop len) with
      | .ok pebs => .ok (readBytes outbuf 0 ui.peb_size :: pebs)
      | .error e => .error e

/-- `ubigen_write_volume`: what it appends to the output. The buffer comes from `malloc`. -/
def ubigenWriteVolume (ui : UbigenInfo) (vi : UbigenVolInfo) (ec bytes : ℕ) (inp : List Byte)
    (outbuf : ℕ → Byte) : Except Stop (List (List Byte)) := do
  checkVolume ui vi
  let outbuf := copyTo (setTo outbuf 0 ui.data_offs 0xff#8) 0 (ubigenInitEcHdr ui ec)
  writeLoop ui vi (bytes+1) 0 outbuf vi.usable_leb_size.toNat bytes inp

/-- The layout volume. -/
def layoutVolume (ui : UbigenInfo) : UbigenVolInfo :=
  ⟨UBI_LAYOUT_VOLUME_ID, .dynamic, 1, 0, ui.leb_size, CNumber.literal "layout volume",
    UBI_COMPAT_REJECT, 0, ui.leb_size*2, 0#8⟩

/-- `ubigen_write_layout_vol`: the two eraseblocks. -/
def layoutPebs (ui : UbigenInfo) (ec1 ec2 : ℕ) (vtbl : List (List Byte)) (outbuf : ℕ → Byte) :
    List Byte × List Byte :=
  let outbuf := copyTo (setTo outbuf 0 ui.data_offs 0xff#8) ui.data_offs vtbl.flatten
  let outbuf := setTo outbuf (ui.data_offs+ui.vtbl_size.toNat)
    (ui.peb_size-ui.data_offs-ui.vtbl_size.toNat) 0xff#8
  let vi := layoutVolume ui
  let outbuf1 := copyTo (copyTo outbuf 0 (ubigenInitEcHdr ui ec1)) ui.vid_hdr_offs
    (ubigenInitVidHdr ui vi 0 [])
  let outbuf2 := copyTo (copyTo outbuf1 0 (ubigenInitEcHdr ui ec2)) ui.vid_hdr_offs
    (ubigenInitVidHdr ui vi 1 [])
  (readBytes outbuf1 0 ui.peb_size, readBytes outbuf2 0 ui.peb_size)

section Headers

variable {ui : UbigenInfo} {vi : UbigenVolInfo}

/-- An EC header at the start of an eraseblock. -/
structure EcHdrAt (ui : UbigenInfo) (ec : ℕ) (peb : List Byte) : Prop where
  magic : beField peb 0 4 = UBI_EC_HDR_MAGIC
  version : peb.getD 4 0#8 = BitVec.ofNat 8 ui.ubi_ver
  ec : beField peb 8 8 = ec
  vid_hdr_offset : beField peb 16 4 = ui.vid_hdr_offs
  data_offset : beField peb 20 4 = ui.data_offs
  image_seq : beField peb 24 4 = ui.image_seq.toNat
  -- reserved for future, zeroes
  padding : (peb.drop 28).take 32 = zeros 32
  hdr_crc : beField peb 60 4 = (mtdCrc32 UBI_CRC32_INIT (peb.take 60)).toNat

@[simp] theorem zeros_length (n : ℕ) : (zeros n).length = n := List.length_replicate

@[simp] theorem be32_length (x : ℤ) : (be32 x).length = 4 := be_length 4 _

@[simp] theorem sealed_length (body : List Byte) : (sealed body).length = body.length+4 := by
  rw [sealed, List.length_append, be_length]

/-- The CRC at the end of a structure is that of the structure. -/
theorem sealed_crc {body : List Byte} {n : ℕ} (hn : body.length = n) (post : List Byte) :
    beField (sealed body ++ post) n 4 =
      (mtdCrc32 UBI_CRC32_INIT ((sealed body ++ post).take n)).toNat := by
  unfold sealed
  generalize hc : mtdCrc32 UBI_CRC32_INIT body = crc
  rw [List.append_assoc, List.take_left' hn, beField_append hn (be_length 4 _), hc]
  exact beVal_be_of_lt crc.isLt

theorem ubigenInitEcHdr_length (ec : ℕ) : (ubigenInitEcHdr ui ec).length = UBI_EC_HDR_SIZE := by
  simp [ubigenInitEcHdr, UBI_EC_HDR_SIZE]

theorem ubigenInitVidHdr_length (lnum : ℕ) (data : List Byte) :
    (ubigenInitVidHdr ui vi lnum data).length = UBI_VID_HDR_SIZE := by
  simp [ubigenInitVidHdr, UBI_VID_HDR_SIZE]
  split <;> rfl

theorem ubigenInitEcHdr_at {ec : ℕ} (hec : ec < 2^64) (hvid : ui.vid_hdr_offs < 2^32)
    (hdata : ui.data_offs < 2^32) (post : List Byte) :
    EcHdrAt ui ec (ubigenInitEcHdr ui ec ++ post) := by
  have hcrc := @sealed_crc (be 4 UBI_EC_HDR_MAGIC ++ (BitVec.ofNat 8 ui.ubi_ver ::
    (zeros 3 ++ (be 8 ec ++ (be 4 ui.vid_hdr_offs ++ (be 4 ui.data_offs ++
      (be 4 ui.image_seq.toNat ++ zeros 32))))))) 60 (by simp) post
  unfold ubigenInitEcHdr
  refine ⟨?_, ?_, ?_, ?_, ?_, ?_, ?_, hcrc⟩
  all_goals
    unfold sealed
    generalize mtdCrc32 _ _ = crc
    rw [List.append_assoc, List.append_assoc]
  · exact beField_be_of_lt (by decide) _
  · rw [List.getD_eq_getElem?_getD, List.getElem?_append_right (by simp)]
    simp
  · simp only [beField_skip, beField_cons, List.cons_append, List.append_assoc, be_length,
      zeros_length, Nat.reduceLeDiff, Nat.reduceSub]
    exact beField_be_of_lt hec _
  · simp only [beField_skip, beField_cons, List.cons_append, List.append_assoc, be_length,
      zeros_length, Nat.reduceLeDiff, Nat.reduceSub]
    exact beField_be_of_lt hvid _
  · simp only [beField_skip, beField_cons, List.cons_append, List.append_assoc, be_length,
      zeros_length, Nat.reduceLeDiff, Nat.reduceSub]
    exact beField_be_of_lt hdata _
  · simp only [beField_skip, beField_cons, List.cons_append, List.append_assoc, be_length,
      zeros_length, Nat.reduceLeDiff, Nat.reduceSub]
    exact beField_be_of_lt ui.image_seq.isLt _
  · have hsplit (tail : List Byte) : be 4 UBI_EC_HDR_MAGIC ++ ((BitVec.ofNat 8 ui.ubi_ver ::
        (zeros 3 ++ (be 8 ec ++ (be 4 ui.vid_hdr_offs ++ (be 4 ui.data_offs ++
          (be 4 ui.image_seq.toNat ++ zeros 32)))))) ++ tail) =
        (be 4 UBI_EC_HDR_MAGIC ++ (BitVec.ofNat 8 ui.ubi_ver :: (zeros 3 ++ (be 8 ec ++
          (be 4 ui.vid_hdr_offs ++ (be 4 ui.data_offs ++ be 4 ui.image_seq.toNat)))))) ++
        (zeros 32 ++ tail) := by
      simp only [List.append_assoc, List.cons_append]
    rw [hsplit, List.drop_left' (by simp), List.take_left' (zeros_length 32)]

/-- The fields of a VID header as they are stored. -/
structure VidFields (ui : UbigenInfo) (vi : UbigenVolInfo) (lnum : ℕ) (data hdr : List Byte) :
    Prop where
  magic : beField hdr 0 4 = UBI_VID_HDR_MAGIC
  version : hdr.getD 4 0#8 = BitVec.ofNat 8 ui.ubi_ver
  vol_type : hdr.getD 5 0#8 = vi.type.code
  compat : hdr.getD 7 0#8 = vi.compat
  vol_id : beField hdr 8 4 = (BitVec.ofInt 32 vi.id).toNat
  lnum : beField hdr 12 4 = lnum%2^32
  data_pad : beField hdr 28 4 = (BitVec.ofInt 32 vi.data_pad).toNat
  used_ebs : beField hdr 24 4 = if vi.type = .static then (BitVec.ofInt 32 vi.used_ebs).toNat else 0
  static : vi.type = .static → beField hdr 20 4 = data.length%2^32 ∧
    beField hdr 32 4 = (mtdCrc32 UBI_CRC32_INIT data).toNat
  hdr_crc : beField hdr 60 4 = (mtdCrc32 UBI_CRC32_INIT (hdr.take 60)).toNat

theorem ubigenInitVidHdr_fields (lnum : ℕ) (data post : List Byte) :
    VidFields ui vi lnum data (ubigenInitVidHdr ui vi lnum data ++ post) := by
  unfold ubigenInitVidHdr
  extract_lets static data_size used data_crc
  have hl1 : data_size.length = 4 := by unfold data_size; split <;> simp
  have hl2 : used.length = 4 := by unfold used; split <;> simp
  have hl3 : data_crc.length = 4 := by unfold data_crc; split <;> simp
  have hcrc := @sealed_crc (be 4 UBI_VID_HDR_MAGIC ++
    ([BitVec.ofNat 8 ui.ubi_ver, vi.type.code, 0#8, vi.compat] ++
    (be32 vi.id ++ (be 4 lnum ++ (zeros 4 ++ (data_size ++ (used ++ (be32 vi.data_pad ++
      (data_crc ++ zeros 24))))))))) 60 (by simp [hl1, hl2, hl3]) post
  have hs1 (h : vi.type = .static) : data_size = be 4 data.length := if_pos h
  have hs2 : used = be 4 (if vi.type = .static then (BitVec.ofInt 32 vi.used_ebs).toNat else 0) := by
    unfold used static
    split <;> rfl
  have hu : (if vi.type = .static then (BitVec.ofInt 32 vi.used_ebs).toNat else 0) < 256^4 := by
    split
    · exact (BitVec.ofInt 32 vi.used_ebs).isLt
    · decide
  have hs3 (h : vi.type = .static) :
    data_crc = be 4 (mtdCrc32 UBI_CRC32_INIT data).toNat := if_pos h
  generalize data_size = data_size at *
  generalize used = used at *
  generalize data_crc = data_crc at *
  refine ⟨?_, ?_, ?_, ?_, ?_, ?_, ?_, ?_, ?_, hcrc⟩
  all_goals
    unfold sealed
    generalize mtdCrc32 _ _ = crc
    rw [List.append_assoc, List.append_assoc]
  · exact beField_be_of_lt (by decide) _
  · simp [List.getD_eq_getElem?_getD]
  · simp [List.getD_eq_getElem?_getD, List.getElem?_append_right]
  · simp [List.getD_eq_getElem?_getD, List.getElem?_append_right]
  · simp only [beField_skip, beField_cons, List.cons_append, List.nil_append, List.append_assoc,
      be_length, Nat.reduceLeDiff, Nat.reduceSub]
    exact beField_be_of_lt (BitVec.isLt _) _
  · simp only [beField_skip, beField_cons, List.cons_append, List.nil_append, List.append_assoc,
      be_length, be32_length, Nat.reduceLeDiff, Nat.reduceSub]
    exact beField_be 4 lnum _
  · simp only [beField_skip, beField_cons, List.cons_append, List.nil_append, List.append_assoc,
      be_length, be32_length, zeros_length, hl1, hl2, Nat.reduceLeDiff, Nat.reduceSub]
    exact beField_be_of_lt (BitVec.isLt _) _
  · rw [hs2]
    simp only [beField_skip, beField_cons, List.cons_append, List.nil_append, List.append_assoc,
      be_length, be32_length, zeros_length, hl1, Nat.reduceLeDiff, Nat.reduceSub]
    exact beField_be_of_lt hu _
  · intro h
    rw [hs1 h, hs3 h]
    generalize mtdCrc32 _ data = crc'
    refine ⟨?_, ?_⟩
    · simp only [beField_skip, beField_cons, List.cons_append, List.nil_append, List.append_assoc,
        be_length, be32_length, zeros_length, Nat.reduceLeDiff, Nat.reduceSub]
      exact beField_be 4 data.length _
    · simp only [beField_skip, beField_cons, List.cons_append, List.nil_append, List.append_assoc,
        be_length, be32_length, zeros_length, hl2, Nat.reduceLeDiff, Nat.reduceSub]
      exact beField_be_of_lt crc'.isLt _

end Headers

section Pebs

variable {ui : UbigenInfo} {vi : UbigenVolInfo}

/-- What `ubigen_info_init` makes of sizes that leave room for a volume table. -/
structure UbigenInfo.Sane (ui : UbigenInfo) : Prop where
  vid_data : ui.vid_hdr_offs+64 ≤ ui.data_offs
  data_peb : ui.data_offs ≤ ui.peb_size
  leb_eq : ui.leb_size = ui.peb_size-ui.data_offs
  vtbl_eq : ui.vtbl_size = ui.max_volumes*UBI_VTBL_RECORD_SIZE
  vtbl_pos : 0 ≤ ui.vtbl_size
  vtbl_le : ui.vtbl_size ≤ ui.leb_size
  peb_lt : ui.peb_size < 2^31

/-- The count of volumes of a LEB size that is not negative. -/
theorem max_volumes_eq {leb_size : ℤ} (h0 : 0 ≤ leb_size) (h : leb_size < 2^31) :
    CNumber.toInt32 (leb_size%2^64/UBI_VTBL_RECORD_SIZE) = leb_size/UBI_VTBL_RECORD_SIZE := by
  have hmod : leb_size%2^64 = leb_size := Int.emod_eq_of_lt h0 (by omega)
  rw [hmod, UBI_VTBL_RECORD_SIZE]
  apply Int.bmod_eq_of_le <;> omega

/-- Where there is room for the headers, the parts of an eraseblock are in their order. -/
theorem ubigenInfoInit_sane {peb_size min_io_size subpage_size vid_hdr_offs ubi_ver : ℕ}
    {image_seq : BitVec 32} (hio : 0 < min_io_size) (hpeb : peb_size < 2^31)
    (hleb : 0 ≤ (ubigenInfoInit peb_size min_io_size subpage_size vid_hdr_offs ubi_ver
      image_seq).leb_size) :
    (ubigenInfoInit peb_size min_io_size subpage_size vid_hdr_offs ubi_ver image_seq).Sane := by
  unfold ubigenInfoInit at *
  generalize (if vid_hdr_offs = 0 then (UBI_EC_HDR_SIZE+subpage_size-1)/subpage_size*subpage_size
    else vid_hdr_offs) = vid at *
  dsimp only at *
  have hle : vid+64 ≤ (vid+UBI_VID_HDR_SIZE+min_io_size-1)/min_io_size*min_io_size := by
    have h1 := Nat.div_add_mod (vid+UBI_VID_HDR_SIZE+min_io_size-1) min_io_size
    have h2 := Nat.mod_lt (vid+UBI_VID_HDR_SIZE+min_io_size-1) hio
    rw [Nat.mul_comm] at h1
    rw [UBI_VID_HDR_SIZE] at *
    omega
  generalize (vid+UBI_VID_HDR_SIZE+min_io_size-1)/min_io_size*min_io_size = data at *
  rw [max_volumes_eq hleb (by omega)]
  -- all volumes together take no more than a LEB
  have hmul : ∃ k : ℤ, 0 ≤ k ∧ k ≤ 128 ∧ k*172 ≤ peb_size-data ∧
      min (((peb_size : ℤ)-data)/UBI_VTBL_RECORD_SIZE) UBI_MAX_VOLUMES = k := by
    refine ⟨_, ?_, ?_, ?_, rfl⟩
    · exact le_min (Int.ediv_nonneg hleb (by decide)) (by decide)
    · exact min_le_right _ _
    · have h1 := min_le_left (((peb_size : ℤ)-data)/UBI_VTBL_RECORD_SIZE) UBI_MAX_VOLUMES
      rw [UBI_VTBL_RECORD_SIZE] at *
      omega
  obtain ⟨k, h0, h1, h2, hk⟩ := hmul
  have hsize : CNumber.toInt32 (k*UBI_VTBL_RECORD_SIZE) = k*UBI_VTBL_RECORD_SIZE := by
    rw [UBI_VTBL_RECORD_SIZE]
    apply Int.bmod_eq_of_le <;> omega
  rw [hk, hsize]
  refine ⟨hle, by dsimp only; omega, rfl, rfl, ?_, ?_, hpeb⟩
  · exact Int.mul_nonneg h0 (by decide)
  · exact h2

/-- The EC header is in the buffer, where the VID header leaves it. -/
def HasEc (ui : UbigenInfo) (ec : ℕ) (buf : ℕ → Byte) : Prop :=
  UBI_EC_HDR_SIZE ≤ ui.vid_hdr_offs →
    readBytes buf 0 UBI_EC_HDR_SIZE = ubigenInitEcHdr ui ec

/-- The data of an eraseblock. -/
def lebData (ui : UbigenInfo) (len : ℕ) (peb : List Byte) : List Byte :=
  (peb.drop ui.data_offs).take len

theorem fillPeb_ec (hs : ui.Sane) {ec : ℕ} {buf : ℕ → Byte} (h : HasEc ui ec buf) (lnum : ℕ)
    (data : List Byte) : HasEc ui ec (fillPeb ui vi lnum data buf) := by
  intro hv
  have hdata := hs.vid_data
  rw [fillPeb, readBytes_setTo_below (by omega), readBytes_copyTo_outside (by omega),
    readBytes_copyTo_outside (by omega)]
  exact h hv

/-- The VID header is at its offset. -/
theorem fillPeb_vid (hs : ui.Sane) (buf : ℕ → Byte) (lnum : ℕ) (data : List Byte) :
    VidFields ui vi lnum data
      ((readBytes (fillPeb ui vi lnum data buf) 0 ui.peb_size).drop ui.vid_hdr_offs) := by
  have hvd := hs.vid_data
  have hdp := hs.data_peb
  have hlen := @ubigenInitVidHdr_length ui vi lnum data
  rw [readBytes_drop _ _ (by omega), Nat.zero_add,
    show ui.peb_size-ui.vid_hdr_offs = UBI_VID_HDR_SIZE+(ui.peb_size-ui.vid_hdr_offs-64) by
      rw [UBI_VID_HDR_SIZE]; omega, readBytes_add]
  have hhdr : readBytes (fillPeb ui vi lnum data buf) ui.vid_hdr_offs UBI_VID_HDR_SIZE =
      ubigenInitVidHdr ui vi lnum data := by
    rw [fillPeb, readBytes_setTo_below (by rw [UBI_VID_HDR_SIZE]; omega),
      readBytes_copyTo_outside (by rw [UBI_VID_HDR_SIZE]; omega), readBytes_copyTo_of_length hlen]
  rw [hhdr]
  exact ubigenInitVidHdr_fields lnum data _

/-- The data is at its offset, with ones behind it. -/
theorem fillPeb_data (hs : ui.Sane) (buf : ℕ → Byte) (lnum : ℕ) {data : List Byte} {len : ℕ}
    (hdata : data.length ≤ len) (hlen : ui.data_offs+len ≤ ui.peb_size) :
    lebData ui len (readBytes (fillPeb ui vi lnum data buf) 0 ui.peb_size) =
      data ++ List.replicate (len-data.length) 0xff#8 := by
  rw [lebData, readBytes_drop _ _ hs.data_peb, readBytes_take _ _ (by omega), Nat.zero_add]
  conv_lhs => rw [show len = data.length+(len-data.length) by omega, readBytes_add]
  congr 1
  · rw [fillPeb, readBytes_setTo_below (le_refl _), readBytes_copyTo]
  · apply readBytes_const
    intro i hi
    exact if_pos ⟨by omega, by omega⟩

/-- The eraseblocks of a volume with the content `inp`, in LEBs of `u` bytes. -/
structure VolPebs (ui : UbigenInfo) (vi : UbigenVolInfo) (ec u lnum : ℕ) (inp : List Byte)
    (pebs : List (List Byte)) : Prop where
  count : pebs.length = (inp.length+u-1)/u
  peb : ∀ k (hk : k < pebs.length), ∃ buf, HasEc ui ec buf ∧ pebs.get ⟨k, hk⟩ =
    readBytes (fillPeb ui vi (lnum+k) ((inp.drop (k*u)).take u) buf) 0 ui.peb_size
  data : ∃ n, (pebs.map (lebData ui u)).flatten = inp ++ List.replicate n 0xff#8

theorem writeLoop_zero (fuel lnum : ℕ) (buf : ℕ → Byte) (len : ℕ) (inp : List Byte) :
    writeLoop ui vi fuel lnum buf len 0 inp = .ok [] := by
  cases fuel <;> rfl

theorem writeLoop_succ (fuel lnum : ℕ) (buf : ℕ → Byte) (len : ℕ) {inp : List Byte}
    (h0 : inp.length ≠ 0) : writeLoop ui vi (fuel+1) lnum buf len inp.length inp =
      let len := if inp.length < len then inp.length else len
      let buf := fillPeb ui vi lnum (inp.take len) buf
      match writeLoop ui vi fuel (lnum+1) buf len (inp.length-len) (inp.drop len) with
      | .ok pebs => .ok (readBytes buf 0 ui.peb_size :: pebs)
      | .error e => .error e := by
  conv_lhs => rw [writeLoop.eq_3 _ _ _ _ _ _ _ _ h0]
  dsimp only
  rw [if_neg (by split <;> omega)]

/-- The loop writes all LEBs of the input. -/
theorem writeLoop_spec (hs : ui.Sane) {ec u : ℕ} (hu : 0 < u) (hu' : ui.data_offs+u ≤ ui.peb_size)
    (fuel lnum : ℕ) (buf : ℕ → Byte) (inp : List Byte) (hbuf : HasEc ui ec buf)
    (hfuel : inp.length < fuel) :
    ∃ pebs, writeLoop ui vi fuel lnum buf u inp.length inp = .ok pebs ∧
      VolPebs ui vi ec u lnum inp pebs := by
  induction fuel generalizing lnum buf inp with
  | zero => omega
  | succ fuel ih =>
    by_cases h0 : inp.length = 0
    · obtain rfl := List.eq_nil_of_length_eq_zero h0
      refine ⟨[], rfl, ⟨?_, ?_, 0, rfl⟩⟩
      · exact (Nat.div_eq_of_lt (by simp; omega)).symm
      · intro k hk
        exact absurd hk (Nat.not_lt_zero k)
    · have hbuf' (data : List Byte) := @fillPeb_ec _ vi hs _ _ hbuf lnum data
      rw [writeLoop_succ fuel lnum buf u h0]
      by_cases hlt : inp.length < u
      · -- the last LEB
        have htake : inp.take u = inp := List.take_of_length_le (by omega)
        refine ⟨[readBytes (fillPeb ui vi lnum inp buf) 0 ui.peb_size], ?_, ⟨?_, ?_, ?_⟩⟩
        · dsimp only
          rw [if_pos hlt, Nat.sub_self, writeLoop_zero, List.take_length]
        · rw [List.length_singleton]
          exact (Nat.div_eq_of_lt_le (by omega) (by omega)).symm
        · intro k hk
          obtain rfl : k = 0 := Nat.lt_one_iff.mp hk
          refine ⟨buf, hbuf, ?_⟩
          rw [Nat.zero_mul, List.drop_zero, htake]
          rfl
        · refine ⟨u-inp.length, ?_⟩
          rw [List.map_singleton, List.flatten_singleton, fillPeb_data hs buf lnum (by omega) hu']
      · have hlen : (inp.take u).length = u := by
          rw [List.length_take]
          omega
        have hrest : (inp.drop u).length = inp.length-u := List.length_drop
        obtain ⟨pebs, hok, hvol⟩ := ih (lnum+1) _ (inp.drop u) (hbuf' (inp.take u)) (by omega)
        rw [hrest] at hok
        refine ⟨readBytes (fillPeb ui vi lnum (inp.take u) buf) 0 ui.peb_size :: pebs, ?_,
          ⟨?_, ?_, ?_⟩⟩
        · dsimp only
          rw [if_neg hlt, hok]
        · rw [List.length_cons, hvol.count, hrest, ← Nat.add_div_right _ hu]
          congr 1
          omega
        · intro k hk
          cases k with
          | zero =>
            refine ⟨buf, hbuf, ?_⟩
            rw [Nat.zero_mul, List.drop_zero]
            rfl
          | succ k =>
            obtain ⟨buf', h1, h2⟩ := hvol.peb k (Nat.lt_of_succ_lt_succ hk)
            refine ⟨buf', h1, ?_⟩
            rw [List.drop_drop, Nat.add_right_comm lnum 1 k] at h2
            rw [Nat.succ_mul, Nat.add_comm (k*u) u]
            exact h2
        · obtain ⟨n, hn⟩ := hvol.data
          refine ⟨n, ?_⟩
          rw [List.map_cons, List.flatten_cons, hn, fillPeb_data hs buf lnum (by omega) hu', hlen,
            Nat.sub_self, List.replicate_zero, List.append_nil, ← List.append_assoc,
            List.take_append_drop]

/-- A buffer with an EC header in it. -/
theorem HasEc.at {ec : ℕ} {buf : ℕ → Byte} (h : HasEc ui ec buf) (hs : ui.Sane) (hec : ec < 2^64)
    (hv : UBI_EC_HDR_SIZE ≤ ui.vid_hdr_offs) : EcHdrAt ui ec (readBytes buf 0 ui.peb_size) := by
  have h1 := hs.vid_data
  have h2 := hs.data_peb
  have h3 := hs.peb_lt
  have hsz : ui.peb_size = UBI_EC_HDR_SIZE+(ui.peb_size-UBI_EC_HDR_SIZE) := by
    rw [UBI_EC_HDR_SIZE]
    omega
  rw [hsz, readBytes_add, h hv]
  exact ubigenInitEcHdr_at hec (by omega) (by omega) _

theorem ubigenWriteVolume_spec (hs : ui.Sane) {ec : ℕ} (hu : 0 < vi.usable_leb_size)
    (hu' : vi.usable_leb_size ≤ ui.leb_size) (hck : checkVolume ui vi = .ok ())
    (inp : List Byte) (outbuf : ℕ → Byte) :
    ∃ pebs, ubigenWriteVolume ui vi ec inp.length inp outbuf = .ok pebs ∧
      VolPebs ui vi ec vi.usable_leb_size.toNat 0 inp pebs := by
  have hleb := hs.leb_eq
  have hbuf : HasEc ui ec (copyTo (setTo outbuf 0 ui.data_offs 0xff#8) 0 (ubigenInitEcHdr ui ec)) := by
    intro _
    rw [readBytes_copyTo_of_length (ubigenInitEcHdr_length ec)]
  obtain ⟨pebs, hok, hvol⟩ := @writeLoop_spec _ vi hs _ vi.usable_leb_size.toNat (by omega)
    (by omega) (inp.length+1) 0 _ inp hbuf (Nat.lt_succ_self _)
  refine ⟨pebs, ?_, hvol⟩
  unfold ubigenWriteVolume
  rw [hck]
  exact hok

/-- An eraseblock of the layout volume. -/
structure LayoutPeb (ui : UbigenInfo) (ec lnum : ℕ) (vtbl : List (List Byte)) (peb : List Byte) :
    Prop where
  length : peb.length = ui.peb_size
  ec : UBI_EC_HDR_SIZE ≤ ui.vid_hdr_offs → EcHdrAt ui ec peb
  vid : VidFields ui (layoutVolume ui) lnum [] (peb.drop ui.vid_hdr_offs)
  table : peb.drop ui.data_offs =
    vtbl.flatten ++ List.replicate (ui.peb_size-ui.data_offs-ui.vtbl_size.toNat) 0xff#8

theorem layoutBuf_spec (hs : ui.Sane) {ec : ℕ} (hec : ec < 2^64) (lnum : ℕ)
    {vtbl : List (List Byte)} {buf : ℕ → Byte}
    (hbuf : readBytes buf ui.data_offs (ui.peb_size-ui.data_offs) =
      vtbl.flatten ++ List.replicate (ui.peb_size-ui.data_offs-ui.vtbl_size.toNat) 0xff#8) :
    LayoutPeb ui ec lnum vtbl (readBytes (copyTo (copyTo buf 0 (ubigenInitEcHdr ui ec))
      ui.vid_hdr_offs (ubigenInitVidHdr ui (layoutVolume ui) lnum [])) 0 ui.peb_size) := by
  have h1 := hs.vid_data
  have h2 := hs.data_peb
  have hel := @ubigenInitEcHdr_length ui ec
  have hvl := @ubigenInitVidHdr_length ui (layoutVolume ui) lnum []
  rw [UBI_EC_HDR_SIZE] at hel
  refine ⟨readBytes_length _ _ _, ?_, ?_, ?_⟩
  · intro hv
    refine HasEc.at ?_ hs hec hv
    intro _
    rw [readBytes_copyTo_outside (by omega), readBytes_copyTo_of_length (ubigenInitEcHdr_length ec)]
  · rw [readBytes_drop _ _ (by omega), Nat.zero_add,
      show ui.peb_size-ui.vid_hdr_offs = UBI_VID_HDR_SIZE+(ui.peb_size-ui.vid_hdr_offs-64) by
        rw [UBI_VID_HDR_SIZE]; omega, readBytes_add, readBytes_copyTo_of_length hvl]
    exact ubigenInitVidHdr_fields lnum [] _
  · rw [UBI_VID_HDR_SIZE] at hvl
    rw [readBytes_drop _ _ h2, Nat.zero_add, readBytes_copyTo_outside (by omega),
      readBytes_copyTo_outside (by omega), hbuf]

theorem layoutPebs_spec (hs : ui.Sane) {ec1 ec2 : ℕ} (h1 : ec1 < 2^64) (h2 : ec2 < 2^64)
    {vtbl : List (List Byte)} (hlen : (vtbl.flatten.length : ℤ) = ui.vtbl_size) (buf : ℕ → Byte) :
    LayoutPeb ui ec1 0 vtbl (layoutPebs ui ec1 ec2 vtbl buf).1 ∧
    LayoutPeb ui ec2 1 vtbl (layoutPebs ui ec1 ec2 vtbl buf).2 := by
  have hvd := hs.vid_data
  have hdp := hs.data_peb
  have hle := hs.vtbl_le
  have hleb := hs.leb_eq
  have hbuf : readBytes (setTo (copyTo (setTo buf 0 ui.data_offs 0xff#8) ui.data_offs vtbl.flatten)
      (ui.data_offs+ui.vtbl_size.toNat) (ui.peb_size-ui.data_offs-ui.vtbl_size.toNat) 0xff#8)
      ui.data_offs (ui.peb_size-ui.data_offs) =
      vtbl.flatten ++ List.replicate (ui.peb_size-ui.data_offs-ui.vtbl_size.toNat) 0xff#8 := by
    have hvt : ui.vtbl_size.toNat = vtbl.flatten.length := by omega
    rw [hvt]
    conv_lhs => rw [show ui.peb_size-ui.data_offs = vtbl.flatten.length+
      (ui.peb_size-ui.data_offs-vtbl.flatten.length) by omega, readBytes_add]
    rw [show vtbl.flatten.length+(ui.peb_size-ui.data_offs-vtbl.flatten.length) =
      ui.peb_size-ui.data_offs by omega, readBytes_setTo_below (by omega), readBytes_copyTo,
      readBytes_setTo]
  refine ⟨layoutBuf_spec hs h1 0 hbuf, layoutBuf_spec hs h2 1 ?_⟩
  have hel := @ubigenInitEcHdr_length ui ec1
  have hvl := @ubigenInitVidHdr_length ui (layoutVolume ui) 0 []
  rw [UBI_EC_HDR_SIZE] at hel
  rw [UBI_VID_HDR_SIZE] at hvl
  rw [readBytes_copyTo_outside (by omega), readBytes_copyTo_outside (by omega), hbuf]

theorem vtblRecord_length {reserved_pebs alignment data_pad : List Byte} (vol_type : Byte)
    {name : List Byte} (flags : Byte) (h1 : reserved_pebs.length = 4) (h2 : alignment.length = 4)
    (h3 : data_pad.length = 4) (hn : name.length ≤ UBI_VOL_NAME_MAX) :
    (vtblRecord reserved_pebs alignment data_pad vol_type name flags).length =
      UBI_VTBL_RECORD_SIZE := by
  rw [UBI_VOL_NAME_MAX] at hn
  simp only [vtblRecord, sealed_length, List.length_append, List.length_cons, List.length_nil,
    be_length, zeros_length, h1, h2, h3, UBI_VOL_NAME_MAX, UBI_VTBL_RECORD_SIZE]
  omega

theorem flatten_length_of_records {vtbl : List (List Byte)} {n : ℕ}
    (h : ∀ r ∈ vtbl, r.length = n) : vtbl.flatten.length = vtbl.length*n := by
  rw [List.length_flatten, List.map_congr_left h, List.map_const', List.sum_replicate_nat]

/-- The records of an empty table. -/
theorem emptyVtbl_records {vtbl : List (List Byte)} (h : ubigenCreateEmptyVtbl ui = .ok vtbl) :
    vtbl.length = ui.max_volumes.toNat ∧ ∀ r ∈ vtbl, r.length = UBI_VTBL_RECORD_SIZE := by
  unfold ubigenCreateEmptyVtbl at h
  split at h
  · cases h
  · obtain rfl := Except.ok.inj h
    refine ⟨List.length_replicate, ?_⟩
    intro r hr
    rw [List.eq_of_mem_replicate hr]
    exact vtblRecord_length _ _ (zeros_length 4) (zeros_length 4) (zeros_length 4) (by decide)

/-- A table of all records has the size that it is to have. -/
theorem table_length (hs : ui.Sane) {vtbl : List (List Byte)}
    (hlen : vtbl.length = ui.max_volumes.toNat) (hrec : ∀ r ∈ vtbl, r.length = UBI_VTBL_RECORD_SIZE) :
    (vtbl.flatten.length : ℤ) = ui.vtbl_size := by
  have hmv : 0 ≤ ui.max_volumes := by
    have h1 := hs.vtbl_eq
    have h2 := hs.vtbl_pos
    rw [UBI_VTBL_RECORD_SIZE] at h1
    omega
  rw [flatten_length_of_records hrec, hlen, hs.vtbl_eq]
  push_cast
  rw [Int.toNat_of_nonneg hmv]

end Pebs

end ChipTools.Ubi
