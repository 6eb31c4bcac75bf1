import ChipTools.UbiFormat
import Mathlib.Data.List.TakeWhile

/-! `flash_image` of `ubiformat`: the eraseblocks of an image file are written to those of the
device that are not bad, and go on to the next one where a write fails. -/
namespace ChipTools.Ubi
open Bytes CNumber

/-- A field of a buffer is stored. -/
def store (buf : List Byte) (o : ℕ) (bs : List Byte) : List Byte :=
  buf.take o ++ (bs ++ buf.drop (o+bs.length))

/-- The fields that `change_ech` stores. -/
def patchEch (buf : List Byte) (image_seq : BitVec 32) (ec : ℕ) : List Byte :=
  let buf := store buf 24 (be 4 image_seq.toNat)
  let buf := store buf 8 (be 8 ec)
  store buf 60 (be 4 (mtdCrc32 UBI_CRC32_INIT (buf.take 60)).toNat)

/-- `change_ech`. -/
def changeEch (buf : List Byte) (image_seq : BitVec 32) (ec : ℕ) : Except Stop (List Byte) :=
  if beField buf 0 4 ≠ UBI_EC_HDR_MAGIC then
    .error (.errmsg s!"bad UBI magic {beField buf 0 4}, should be {UBI_EC_HDR_MAGIC}")
  else if beField buf 60 4 ≠ (mtdCrc32 UBI_CRC32_INIT (buf.take 60)).toNat then
    .error (.errmsg (s!"bad CRC {(mtdCrc32 UBI_CRC32_INIT (buf.take 60)).toNat}, " ++
      s!"should be {beField buf 60 4}"))
  else .ok (patchEch buf image_seq ec)

/-- `drop_ffs`: the length without the ones at the end, in whole I/O units. -/
def dropFfs (mtd : Mtd) (buf : List Byte) : ℕ :=
  let len := (buf.reverse.dropWhile fun b => b = 0xff#8).length
  (len+mtd.min_io_size-1)/mtd.min_io_size*mtd.min_io_size

/-- The state of `flash_image`: what is left of the file, the buffer, and the eraseblocks that
were written, in their order. -/
structure FlashState where
  dev : Device
  file : List Byte
  buf : List Byte
  skip_data_read : Bool
  written : List ℕ

variable (mtd : Mtd) (ui : UbigenInfo) (args : FormatArgs) (env : Env)

/-- The next eraseblock of the file, unless the one in the buffer has still to be written. -/
def readEb (s : FlashState) : Except Stop FlashState :=
  if s.skip_data_read then .ok { s with skip_data_read := false }
  else if s.file.length < mtd.eb_size then
    .error (.errmsg s!"eof reached; {mtd.eb_size-s.file.length} bytes remaining")
  else .ok { s with buf := s.file.take mtd.eb_size, file := s.file.drop mtd.eb_size }

/-- A pass of the loop of `flash_image`, and whether it has written. -/
def flashEb (eb : ℕ) (s : FlashState) : Except Stop (Bool × FlashState) :=
  if s.dev.si.ec eb = EB_BAD then .ok (false, s)
  else
    match env.erase eb with
    | .other => .error (.errmsg s!"failed to erase eraseblock {eb}")
    | .eio => do
      let dev ← markBad mtd args env eb (s.dev.put eb (env.left eb))
      .ok (false, { s with dev := dev })
    | .done => do
      let s ← readEb mtd { s with dev := s.dev.put eb erased }
      let buf ← changeEch s.buf ui.image_seq (newEc args s.dev.si eb)
      let new_len := dropFfs mtd buf
      match env.write eb with
      | .other => .error (.errmsg s!"cannot write eraseblock {eb}")
      | .eio =>
        -- as in `format`, the torture test does not save it
        let dev ← markBad mtd args env eb (s.dev.put eb (env.left eb))
        .ok (false, { s with dev := dev, buf := buf, skip_data_read := true })
      | .done => .ok (true, { s with
          dev := s.dev.put eb (copyTo (s.dev.flash.data eb) 0 (buf.take new_len))
          buf := buf
          written := s.written ++ [eb] })

/-- The loop of `flash_image`, over the `n` eraseblocks from `eb` on: where it ends. -/
def flashLoop (img_ebs : ℤ) : ℕ → ℕ → FlashState → Except Stop (ℕ × FlashState)
  | 0, eb, s => .ok (eb, s)
  | n+1, eb, s => do
    let (wrote, s) ← flashEb mtd ui args env eb s
    if wrote ∧ img_ebs ≤ s.written.length then .ok (eb, s)
    else flashLoop img_ebs n (eb+1) s

/-- `flash_image` of a file of `st_size` bytes. -/
def flashImage (st_size : ℕ) (file : List Byte) (dev : Device) : Except Stop (ℕ × FlashState) := do
  let img_ebs := toInt32 (st_size/mtd.eb_size : ℕ)
  if dev.si.good_cnt < img_ebs then .error (.errmsg s!"file is too large ({st_size} bytes)")
  else if st_size%mtd.eb_size ≠ 0 then
    .error (.errmsg (s!"file (size {st_size} bytes) is not multiple of " ++
      s!"eraseblock size ({mtd.eb_size} bytes)"))
  else
    let (eb, s) ← flashLoop mtd ui args env img_ebs mtd.eb_cnt 0 ⟨dev, file, [], false, []⟩
    .ok (eb+1, s)

section Buffer

variable {mtd : Mtd} {ui : UbigenInfo}

theorem store_middle {pre mid post bs : List Byte} {o : ℕ} (ho : pre.length = o)
    (hm : mid.length = bs.length) : store (pre ++ (mid ++ post)) o bs = pre ++ (bs ++ post) := by
  unfold store
  rw [List.take_left' ho, ← hm, List.drop_append, ho, List.drop_eq_nil_of_le (by omega),
    Nat.add_sub_cancel_left, List.drop_left, List.nil_append]

/-- The parts of an eraseblock by what `change_ech` does with them. -/
structure EchParts (buf : List Byte) where
  head : List Byte
  ec : List Byte
  offsets : List Byte
  image_seq : List Byte
  padding : List Byte
  crc : List Byte
  rest : List Byte
  eq : buf = head ++ (ec ++ (offsets ++ (image_seq ++ (padding ++ (crc ++ rest)))))
  head_length : head.length = 8
  ec_length : ec.length = 8
  offsets_length : offsets.length = 8
  image_seq_length : image_seq.length = 4
  padding_length : padding.length = 32
  crc_length : crc.length = 4

theorem echParts_append (buf : List Byte) : buf = buf.take 8 ++ ((buf.drop 8).take 8 ++
    ((buf.drop 16).take 8 ++ ((buf.drop 24).take 4 ++ ((buf.drop 28).take 32 ++
      ((buf.drop 60).take 4 ++ buf.drop 64))))) := by
  rw [show buf.drop 64 = (buf.drop 60).drop 4 by rw [List.drop_drop], List.take_append_drop,
    show buf.drop 60 = (buf.drop 28).drop 32 by rw [List.drop_drop], List.take_append_drop,
    show buf.drop 28 = (buf.drop 24).drop 4 by rw [List.drop_drop], List.take_append_drop,
    show buf.drop 24 = (buf.drop 16).drop 8 by rw [List.drop_drop], List.take_append_drop,
    show buf.drop 16 = (buf.drop 8).drop 8 by rw [List.drop_drop], List.take_append_drop,
    List.take_append_drop]

theorem nonempty_echParts {buf : List Byte} (h : UBI_EC_HDR_SIZE ≤ buf.length) :
    Nonempty (EchParts buf) := by
  rw [UBI_EC_HDR_SIZE] at h
  have hlen {o k : ℕ} (hk : o+k ≤ 64) : ((buf.drop o).take k).length = k := by
    rw [List.length_take, List.length_drop]
    omega
  refine ⟨⟨_, _, _, _, _, _, _, echParts_append buf, ?_, hlen ?_, hlen ?_, hlen ?_, hlen ?_,
    hlen ?_⟩⟩
  · rw [List.length_take]
    omega
  all_goals decide

/-- The header without its CRC, after the change. -/
def EchParts.body {buf : List Byte} (p : EchParts buf) (image_seq : BitVec 32) (ec : ℕ) : List Byte :=
  p.head ++ (be 8 ec ++ (p.offsets ++ (be 4 image_seq.toNat ++ p.padding)))

theorem patchEch_parts {buf : List Byte} (p : EchParts buf) (image_seq : BitVec 32) (ec : ℕ) :
    patchEch buf image_seq ec = p.body image_seq ec ++
      (be 4 (mtdCrc32 UBI_CRC32_INIT (p.body image_seq ec)).toNat ++ p.rest) := by
  obtain ⟨head, ec₀, offsets, seq₀, padding, crc, rest, heq, h1, h2, h3, h4, h5, h6⟩ := p
  unfold EchParts.body
  dsimp only
  unfold patchEch
  dsimp only
  have hseq : store buf 24 (be 4 image_seq.toNat) =
      head ++ (ec₀ ++ (offsets ++ (be 4 image_seq.toNat ++ (padding ++ (crc ++ rest))))) := by
    have := @store_middle (head ++ (ec₀ ++ offsets)) seq₀
      (padding ++ (crc ++ rest)) (be 4 image_seq.toNat) 24
      (by simp only [List.length_append, h1, h2, h3]) (by rw [be_length, h4])
    simp only [List.append_assoc] at this
    rw [heq]
    exact this
  have hec : store (store buf 24 (be 4 image_seq.toNat)) 8 (be 8 ec) =
      head ++ (be 8 ec ++ (offsets ++ (be 4 image_seq.toNat ++ (padding ++ (crc ++ rest))))) := by
    rw [hseq]
    exact store_middle h1 (by rw [be_length, h2])
  rw [hec]
  have hbody : head ++ (be 8 ec ++ (offsets ++ (be 4 image_seq.toNat ++ (padding ++ (crc ++ rest))))) =
      (head ++ (be 8 ec ++ (offsets ++ (be 4 image_seq.toNat ++ padding)))) ++ (crc ++ rest) := by
    simp only [List.append_assoc]
  have hlen : (head ++ (be 8 ec ++ (offsets ++ (be 4 image_seq.toNat ++ padding)))).length = 60 := by
    simp only [List.length_append, be_length, h1, h3, h5]
  rw [hbody, List.take_left' hlen]
  exact store_middle hlen (by rw [be_length, h6])

theorem patchEch_length {buf : List Byte} (h : UBI_EC_HDR_SIZE ≤ buf.length) (image_seq : BitVec 32)
    (ec : ℕ) : (patchEch buf image_seq ec).length = buf.length := by
  obtain ⟨p⟩ := nonempty_echParts h
  have hl := congrArg List.length p.eq
  rw [patchEch_parts p]
  simp only [EchParts.body, List.length_append, be_length, p.head_length, p.ec_length,
    p.offsets_length, p.image_seq_length, p.padding_length, p.crc_length] at hl ⊢
  omega

/-- A second change undoes the first one. -/
theorem patchEch_patchEch {buf : List Byte} (h : UBI_EC_HDR_SIZE ≤ buf.length) (image_seq : BitVec 32)
    (ec ec' : ℕ) : patchEch (patchEch buf image_seq ec) image_seq ec' = patchEch buf image_seq ec' := by
  obtain ⟨p⟩ := nonempty_echParts h
  have heq := patchEch_parts p image_seq ec
  rw [EchParts.body, List.append_assoc, List.append_assoc, List.append_assoc, List.append_assoc] at heq
  rw [patchEch_parts p image_seq ec', patchEch_parts ⟨_, _, _, _, _, _, _, heq, p.head_length,
    be_length 8 _, p.offsets_length, be_length 4 _, p.padding_length, be_length 4 _⟩]
  rfl

/-- An eraseblock of the file with another erase counter, image sequence number and CRC. -/
structure OnlyEch (ui : UbigenInfo) (ec : ℕ) (chunk peb : List Byte) : Prop where
  length : peb.length = chunk.length
  head : peb.take 8 = chunk.take 8
  offsets : (peb.drop 16).take 8 = (chunk.drop 16).take 8
  padding : (peb.drop 28).take 32 = (chunk.drop 28).take 32
  rest : peb.drop 64 = chunk.drop 64
  ec : beField peb 8 8 = ec
  image_seq : beField peb 24 4 = ui.image_seq.toNat
  hdr_crc : beField peb 60 4 = (mtdCrc32 UBI_CRC32_INIT (peb.take 60)).toNat

theorem EchParts.get {buf : List Byte} (p : EchParts buf) : buf.take 8 = p.head ∧
    (buf.drop 16).take 8 = p.offsets ∧ (buf.drop 28).take 32 = p.padding ∧ buf.drop 64 = p.rest ∧
    beField buf 8 8 = beVal p.ec ∧ beField buf 24 4 = beVal p.image_seq ∧
    beField buf 60 4 = beVal p.crc := by
  obtain ⟨head, ec, offsets, seq, padding, crc, rest, rfl, h1, h2, h3, h4, h5, h6⟩ := p
  dsimp only
  have hd16 : (head ++ (ec ++ (offsets ++ (seq ++ (padding ++ (crc ++ rest)))))).drop 16 =
      offsets ++ (seq ++ (padding ++ (crc ++ rest))) := by
    rw [← List.append_assoc]
    exact List.drop_left' (by rw [List.length_append, h1, h2])
  have hd28 : (head ++ (ec ++ (offsets ++ (seq ++ (padding ++ (crc ++ rest)))))).drop 28 =
      padding ++ (crc ++ rest) := by
    rw [show (28 : ℕ) = 16+12 from rfl, ← List.drop_drop, hd16, ← List.append_assoc]
    exact List.drop_left' (by rw [List.length_append, h3, h4])
  have hd64 : (head ++ (ec ++ (offsets ++ (seq ++ (padding ++ (crc ++ rest)))))).drop 64 = rest := by
    rw [show (64 : ℕ) = 28+36 from rfl, ← List.drop_drop, hd28, ← List.append_assoc]
    exact List.drop_left' (by rw [List.length_append, h5, h6])
  refine ⟨List.take_left' h1, ?_, ?_, hd64, beField_append h1 h2, ?_, ?_⟩
  · rw [hd16]
    exact List.take_left' h3
  · rw [hd28]
    exact List.take_left' h5
  · rw [show (24 : ℕ) = 16+8 from rfl, ← beField_drop, hd16]
    exact beField_append h3 h4
  · rw [show (60 : ℕ) = 28+32 from rfl, ← beField_drop, hd28]
    exact beField_append h5 h6

theorem patchEch_only {chunk : List Byte} (h : UBI_EC_HDR_SIZE ≤ chunk.length) {ec : ℕ}
    (hec : ec < 2^64) : OnlyEch ui ec chunk (patchEch chunk ui.image_seq ec) := by
  obtain ⟨p⟩ := nonempty_echParts h
  obtain ⟨c1, c2, c3, c4, -, -, -⟩ := p.get
  have heq := patchEch_parts p ui.image_seq ec
  have hlen : (p.body ui.image_seq ec).length = 60 := by
    simp only [EchParts.body, List.length_append, be_length, p.head_length, p.offsets_length,
      p.padding_length]
  have htake : (patchEch chunk ui.image_seq ec).take 60 = p.body ui.image_seq ec := by
    rw [heq, List.take_left' hlen]
  generalize hcrc : mtdCrc32 UBI_CRC32_INIT (p.body ui.image_seq ec) = crc at heq
  have heq' := heq
  rw [EchParts.body, List.append_assoc, List.append_assoc, List.append_assoc, List.append_assoc] at heq'
  obtain ⟨d1, d2, d3, d4, d5, d6, d7⟩ := EchParts.get ⟨_, _, _, _, _, _, _, heq', p.head_length,
    be_length 8 _, p.offsets_length, be_length 4 _, p.padding_length, be_length 4 _⟩
  refine ⟨patchEch_length h _ _, d1.trans c1.symm, d2.trans c2.symm, d3.trans c3.symm,
    d4.trans c4.symm, d5.trans (beVal_be_of_lt hec), d6.trans (beVal_be_of_lt ui.image_seq.isLt), ?_⟩
  rw [htake, hcrc]
  exact d7.trans (beVal_be_of_lt crc.isLt)

end Buffer

section Steps

variable {mtd : Mtd} {ui : UbigenInfo} {args : FormatArgs} {env : Env} {eb : ℕ}

/-- What is dropped at the end is what an erased eraseblock has there. -/
theorem readBytes_erased {buf : List Byte} {m : ℕ}
    (h : ∀ i (hi : i < buf.length), m ≤ i → buf.get ⟨i, hi⟩ = 0xff#8) :
    readBytes (copyTo erased 0 (buf.take m)) 0 buf.length = buf := by
  apply readBytes_eq
  intro i hi
  rw [Nat.zero_add]
  by_cases hm : m ≤ i
  · rw [h i hi hm, copyTo_outside (Or.inr (by rw [List.length_take]; omega))]
    rfl
  · rw [copyTo, if_pos (Nat.zero_le i), Nat.sub_zero, List.getD_eq_getElem?_getD,
      List.getElem?_take, if_pos (by omega), List.getElem?_eq_getElem hi]
    rfl

theorem readBytes_dropFfs (hio : 0 < mtd.min_io_size) (buf : List Byte) :
    readBytes (copyTo erased 0 (buf.take (dropFfs mtd buf))) 0 buf.length = buf := by
  apply readBytes_erased
  intro i hi hle
  have hsplit := congrArg List.reverse
    (List.takeWhile_append_dropWhile (p := fun b : Byte => b = 0xff#8) (l := buf.reverse))
  rw [List.reverse_reverse, List.reverse_append] at hsplit
  have hlen : (buf.reverse.dropWhile fun b => b = 0xff#8).length ≤ dropFfs mtd buf := by
    unfold dropFfs
    dsimp only
    generalize (buf.reverse.dropWhile fun b => decide (b = 0xff#8)).length = len
    have hdiv := Nat.div_add_mod (len+mtd.min_io_size-1) mtd.min_io_size
    have hmod := Nat.mod_lt (len+mtd.min_io_size-1) hio
    rw [Nat.mul_comm] at hdiv
    omega
  have hget : buf[i]? = some (buf.get ⟨i, hi⟩) := List.getElem?_eq_getElem hi
  generalize buf.get ⟨i, hi⟩ = b at hget ⊢
  rw [← hsplit, List.getElem?_append_right (by rw [List.length_reverse]; exact hlen.trans hle)] at hget
  have hmem := List.mem_takeWhile_imp (List.mem_reverse.mp (List.mem_of_getElem? hget))
  exact of_decide_eq_true hmem

/-- A pass of `flash_image`: what it finds, and what it leaves. -/
inductive FlashStep (mtd : Mtd) (ui : UbigenInfo) (args : FormatArgs) (env : Env) (eb : ℕ)
    (s : FlashState) : Bool → FlashState → Prop
  | bad (h : s.dev.si.ec eb = EB_BAD) : FlashStep mtd ui args env eb s false s
  | worn (h : s.dev.si.ec eb ≠ EB_BAD) (he : env.erase eb = .eio) {dev' : Device}
      (hl : Leaves eb s.dev dev') : FlashStep mtd ui args env eb s false { s with dev := dev' }
  | failed (h : s.dev.si.ec eb ≠ EB_BAD) (he : env.erase eb = .done) (hw : env.write eb = .eio)
      {s₁ : FlashState} (hr : readEb mtd s = .ok s₁) {dev' : Device} (hl : Leaves eb s.dev dev') :
      FlashStep mtd ui args env eb s false
        { s₁ with dev := dev'
                  buf := patchEch s₁.buf ui.image_seq (newEc args s.dev.si eb)
                  skip_data_read := true }
  | written (h : s.dev.si.ec eb ≠ EB_BAD) (he : env.erase eb = .done) (hw : env.write eb = .done)
      {s₁ : FlashState} (hr : readEb mtd s = .ok s₁) {buf : List Byte}
      (hb : buf = patchEch s₁.buf ui.image_seq (newEc args s.dev.si eb)) :
      FlashStep mtd ui args env eb s true
        { s₁ with dev := s.dev.put eb (copyTo erased 0 (buf.take (dropFfs mtd buf)))
                  buf := buf
                  written := s₁.written ++ [eb] }

theorem changeEch_ok {buf buf' : List Byte} {seq : BitVec 32} {ec : ℕ}
    (h : changeEch buf seq ec = .ok buf') : buf' = patchEch buf seq ec := by
  unfold changeEch at h
  split at h
  · cases h
  · split at h
    · cases h
    · exact (Except.ok.inj h).symm

/-- Reading does not look at the device. -/
theorem readEb_dev {s s' : FlashState} {dev : Device} (h : readEb mtd { s with dev := dev } = .ok s') :
    readEb mtd s = .ok { s' with dev := s.dev } ∧ s'.dev = dev ∧ s'.skip_data_read = false := by
  unfold readEb at h ⊢
  dsimp only at h
  split at h
  next hs =>
    obtain rfl := Except.ok.inj h
    exact ⟨if_pos hs, rfl, rfl⟩
  next hs =>
    split at h
    · cases h
    next hl =>
      obtain rfl := Except.ok.inj h
      refine ⟨?_, rfl, Bool.eq_false_iff.mpr hs⟩
      rw [if_neg hs, if_neg hl]

theorem flashEb_step {s s' : FlashState} {wrote : Bool}
    (h : flashEb mtd ui args env eb s = .ok (wrote, s')) :
    FlashStep mtd ui args env eb s wrote s' := by
  unfold flashEb at h
  dsimp only at h
  split at h
  next hb =>
    cases h
    exact .bad hb
  next hb =>
    split at h
    · cases h
    next he =>
      obtain ⟨dev', hm, h⟩ := Loop.bind_eq_ok h
      cases h
      exact .worn hb he (markBad_marked hm).leaves
    next he =>
      obtain ⟨s₁, hr, h⟩ := Loop.bind_eq_ok h
      obtain ⟨buf, hc, h⟩ := Loop.bind_eq_ok h
      have hbuf := changeEch_ok hc
      obtain ⟨hr', hdev, hskip⟩ := readEb_dev hr
      have hsi : s₁.dev.si = s.dev.si := by rw [hdev]; rfl
      rw [hsi] at hbuf
      split at h
      · cases h
      next hw =>
        obtain ⟨dev', hm, h⟩ := Loop.bind_eq_ok h
        cases h
        rw [hdev, put_put] at hm
        have := @FlashStep.failed _ ui args _ _ _ hb he hw _ hr' _ (markBad_marked hm).leaves
        rwa [← hbuf] at this
      next hw =>
        cases h
        have := @FlashStep.written _ ui args _ _ _ hb he hw _ hr' buf hbuf
        rw [hdev, put_self, put_put]
        exact this

end Steps

section Run

variable {mtd : Mtd} {ui : UbigenInfo} {args : FormatArgs} {env : Env} {si : ScanInfo}
  {flash : Flash} {file : List Byte} {n : ℕ} {s s' : FlashState}

/-- Eraseblock `k` of the image file. -/
def imageEb (mtd : Mtd) (file : List Byte) (k : ℕ) : List Byte :=
  (file.drop (k*mtd.eb_size)).take mtd.eb_size

/-- Of the first `n` eraseblocks of the device, those that are not bad and at which neither the
erasure nor the write fails. -/
def writableEbs (env : Env) (si : ScanInfo) (n : ℕ) : List ℕ :=
  (List.range n).filter fun eb => si.ec eb ≠ EB_BAD ∧ env.erase eb = .done ∧ env.write eb = .done

theorem writableEbs_succ (env : Env) (si : ScanInfo) (n : ℕ) : writableEbs env si (n+1) =
    writableEbs env si n ++
      if si.ec n ≠ EB_BAD ∧ env.erase n = .done ∧ env.write n = .done then [n] else [] := by
  unfold writableEbs
  rw [List.range_succ, List.filter_append]
  congr 1
  rw [List.filter_cons, List.filter_nil]
  simp only [decide_eq_true_eq]

theorem writableEbs_length_le (env : Env) (si : ScanInfo) {n m : ℕ} (h : n ≤ m) :
    (writableEbs env si n).length ≤ (writableEbs env si m).length := by
  induction h with
  | refl => exact le_refl _
  | step _ ih =>
    rw [writableEbs_succ, List.length_append]
    omega

theorem writableEbs_pairwise (env : Env) (si : ScanInfo) (n : ℕ) :
    (writableEbs env si n).Pairwise (· < ·) :=
  List.Pairwise.filter _ List.pairwise_lt_range

theorem mem_writableEbs {eb : ℕ} : eb ∈ writableEbs env si n ↔
    eb < n ∧ si.ec eb ≠ EB_BAD ∧ env.erase eb = .done ∧ env.write eb = .done := by
  rw [writableEbs, List.mem_filter, List.mem_range, decide_eq_true_eq]

/-- What is still to be read, and the eraseblock in the buffer if it could not be written yet. -/
def Input (mtd : Mtd) (ui : UbigenInfo) (file : List Byte) (s : FlashState) : Prop :=
  if s.skip_data_read then
    s.file = file.drop ((s.written.length+1)*mtd.eb_size) ∧
      (imageEb mtd file s.written.length).length = mtd.eb_size ∧
      ∃ ec, s.buf = patchEch (imageEb mtd file s.written.length) ui.image_seq ec
  else s.file = file.drop (s.written.length*mtd.eb_size)

/-- The state after the first `n` eraseblocks of the device. -/
structure FlashInv (mtd : Mtd) (ui : UbigenInfo) (args : FormatArgs) (env : Env) (si : ScanInfo)
    (flash : Flash) (file : List Byte) (n : ℕ) (s : FlashState) : Prop where
  ec_above : ∀ eb, n ≤ eb → s.dev.si.ec eb = si.ec eb
  mean_ec : s.dev.si.mean_ec = si.mean_ec
  bad_above : ∀ eb, n ≤ eb → s.dev.flash.bad eb = flash.bad eb
  written : s.written = writableEbs env si n
  good : ∀ eb ∈ s.written, s.dev.flash.bad eb = false
  content : ∀ k eb, s.written[k]? = some eb → (imageEb mtd file k).length = mtd.eb_size ∧
    readBytes (s.dev.flash.data eb) 0 mtd.eb_size =
      patchEch (imageEb mtd file k) ui.image_seq (newEc args si eb)
  input : Input mtd ui file s

/-- What `readEb` gets: the buffer holds the next eraseblock of the file, up to the fields that
are changed again. -/
theorem Input.readEb (h : Input mtd ui file s) (hsz : UBI_EC_HDR_SIZE ≤ mtd.eb_size)
    (hr : readEb mtd s = .ok s') :
    s'.skip_data_read = false ∧ s'.written = s.written ∧
      s'.file = file.drop ((s.written.length+1)*mtd.eb_size) ∧
      (imageEb mtd file s.written.length).length = mtd.eb_size ∧
      ∀ ec, patchEch s'.buf ui.image_seq ec =
        patchEch (imageEb mtd file s.written.length) ui.image_seq ec := by
  unfold Input at h
  unfold Ubi.readEb at hr
  split at hr
  next hs =>
    rw [if_pos hs] at h
    obtain ⟨hf, hlen, ec₀, hbuf⟩ := h
    obtain rfl := Except.ok.inj hr
    refine ⟨rfl, rfl, hf, hlen, fun ec => ?_⟩
    dsimp only
    rw [hbuf, patchEch_patchEch (hsz.trans_eq hlen.symm)]
  next hs =>
    rw [if_neg hs] at h
    split at hr
    · cases hr
    next hle =>
      obtain rfl := Except.ok.inj hr
      have hbuf : s.file.take mtd.eb_size = imageEb mtd file s.written.length := by rw [h]; rfl
      refine ⟨Bool.eq_false_iff.mpr hs, rfl, ?_, ?_, fun ec => ?_⟩
      · dsimp only
        rw [h, List.drop_drop, Nat.succ_mul]
      · rw [← hbuf, List.length_take]
        omega
      · dsimp only
        rw [hbuf]

/-- A pass that does not write. -/
theorem FlashInv.skip (h : FlashInv mtd ui args env si flash file n s) (hl : Leaves n s.dev s'.dev)
    (hnot : ¬ (si.ec n ≠ EB_BAD ∧ env.erase n = .done ∧ env.write n = .done))
    (hw : s'.written = s.written) (hin : Input mtd ui file s') :
    FlashInv mtd ui args env si flash file (n+1) s' := by
  have hne {eb : ℕ} (heb : eb ∈ s.written) : eb ≠ n := by
    rw [h.written, mem_writableEbs] at heb
    exact Nat.ne_of_lt heb.1
  refine ⟨fun eb heb => ?_, hl.mean_ec.trans h.mean_ec, fun eb heb => ?_, ?_, ?_, ?_, hin⟩
  · rw [hl.ec eb (by omega)]
    exact h.ec_above eb (by omega)
  · rw [hl.bad eb (by omega)]
    exact h.bad_above eb (by omega)
  · rw [hw, h.written, writableEbs_succ, if_neg hnot, List.append_nil]
  · rw [hw]
    intro eb heb
    rw [hl.bad eb (hne heb)]
    exact h.good eb heb
  · rw [hw]
    intro k eb hk
    rw [hl.data eb (hne (List.mem_of_getElem? hk))]
    exact h.content k eb hk

/-- The pass that writes the next eraseblock of the file. -/
theorem FlashInv.write (h : FlashInv mtd ui args env si flash file n s)
    (hyes : si.ec n ≠ EB_BAD ∧ env.erase n = .done ∧ env.write n = .done)
    (hgood : s.dev.flash.bad n = false) (hlen : (imageEb mtd file s.written.length).length = mtd.eb_size)
    {data : ℕ → Byte} (hdata : readBytes data 0 mtd.eb_size =
      patchEch (imageEb mtd file s.written.length) ui.image_seq (newEc args si n))
    (hdev : s'.dev = s.dev.put n data) (hw : s'.written = s.written ++ [n])
    (hin : Input mtd ui file s') : FlashInv mtd ui args env si flash file (n+1) s' := by
  have hlt {eb : ℕ} (heb : eb ∈ s.written) : eb < n := by
    rw [h.written, mem_writableEbs] at heb
    exact heb.1
  refine ⟨fun eb heb => ?_, ?_, fun eb heb => ?_, ?_, ?_, ?_, hin⟩
  · rw [hdev]
    exact h.ec_above eb (by omega)
  · rw [hdev]
    exact h.mean_ec
  · rw [hdev]
    exact h.bad_above eb (by omega)
  · rw [hw, h.written, writableEbs_succ, if_pos hyes]
  · rw [hw, hdev]
    intro eb heb
    rcases List.mem_append.mp heb with heb | heb
    · exact h.good eb heb
    · rw [List.mem_singleton.mp heb]
      exact hgood
  · rw [hw, hdev]
    intro k eb hk
    rcases Nat.lt_or_ge k s.written.length with hlt' | hge
    · rw [List.getElem?_append_left hlt'] at hk
      rw [put_other _ _ (Nat.ne_of_lt (hlt (List.mem_of_getElem? hk)))]
      exact h.content k eb hk
    · rw [List.getElem?_append_right hge] at hk
      rw [List.getElem?_singleton] at hk
      split at hk
      next hk0 =>
        obtain rfl := Option.some.inj hk
        obtain rfl : k = s.written.length := by omega
        rw [put_self]
        exact ⟨hlen, hdata⟩
      · cases hk

theorem FlashInv.step (h : FlashInv mtd ui args env si flash file n s) (hio : 0 < mtd.min_io_size)
    (hsz : UBI_EC_HDR_SIZE ≤ mtd.eb_size) (hscan : si.ec n = EB_BAD ↔ flash.bad n = true) {wrote : Bool}
    (hs : FlashStep mtd ui args env n s wrote s') :
    FlashInv mtd ui args env si flash file (n+1) s' ∧
      (wrote = true ↔ s'.written ≠ s.written) := by
  have hec := h.ec_above n (le_refl n)
  have hnew : newEc args s.dev.si n = newEc args si n := newEc_congr hec h.mean_ec
  cases hs with
  | bad hb =>
    refine ⟨h.skip ⟨fun _ _ => rfl, rfl, fun _ _ => rfl, fun _ _ => rfl⟩ ?_ rfl h.input, by simp⟩
    rintro ⟨hn, -⟩
    exact hn (hec.symm.trans hb)
  | worn hb he hl =>
    refine ⟨h.skip hl ?_ rfl h.input, by simp⟩
    rintro ⟨-, he', -⟩
    rw [he] at he'
    cases he'
  | failed hb he hw hr hl =>
    obtain ⟨hskip, hwr, hfile, hlen, hbuf⟩ := h.input.readEb hsz hr
    refine ⟨h.skip hl ?_ hwr ?_, by simp [hwr]⟩
    · rintro ⟨-, -, hw'⟩
      rw [hw] at hw'
      cases hw'
    · unfold Input
      dsimp only
      rw [if_pos rfl, hwr]
      exact ⟨hfile, hlen, _, hbuf _⟩
  | written hb he hw hr hbuf =>
    obtain ⟨hskip, hwr, hfile, hlen, hpatch⟩ := h.input.readEb hsz hr
    have hgood : s.dev.flash.bad n = false := by
      rw [h.bad_above n (le_refl n)]
      apply Bool.eq_false_iff.mpr
      intro ht
      exact hb (hec.trans (hscan.mpr ht))
    rw [hpatch, hnew] at hbuf
    refine ⟨h.write ⟨fun hn => hb (hec.trans hn), he, hw⟩ hgood hlen ?_ rfl ?_ ?_, by simp [hwr]⟩
    · have hblen := patchEch_length (hsz.trans_eq hlen.symm) ui.image_seq (newEc args si n)
      rw [← hbuf, hlen] at hblen
      rw [← hblen, readBytes_dropFfs hio, hbuf]
    · dsimp only
      rw [hwr]
    · unfold Input
      dsimp only
      rw [hskip, if_neg Bool.false_ne_true, hwr, List.length_append]
      exact hfile

/-- How the loop ends: behind the last eraseblock of the device, or where all were written. -/
structure FlashEnd (mtd : Mtd) (ui : UbigenInfo) (args : FormatArgs) (env : Env) (si : ScanInfo)
    (flash : Flash) (file : List Byte) (img_ebs : ℤ) (n : ℕ) (s : FlashState) : Prop where
  inv : FlashInv mtd ui args env si flash file n s
  le : n ≤ mtd.eb_cnt
  ended : (n = mtd.eb_cnt ∧ (s.written.length = 0 ∨ (s.written.length : ℤ) < img_ebs)) ∨
    (s.written.length = 1 ∧ img_ebs ≤ 1) ∨ (s.written.length : ℤ) = img_ebs

theorem flashLoop_end (hio : 0 < mtd.min_io_size) (hsz : UBI_EC_HDR_SIZE ≤ mtd.eb_size)
    (hscan : Scanned mtd flash si) {img_ebs : ℤ} {c m : ℕ}
    (h : FlashInv mtd ui args env si flash file n s)
    (hb : s.written.length = 0 ∨ (s.written.length : ℤ) < img_ebs) (hc : n+c = mtd.eb_cnt)
    (hrun : flashLoop mtd ui args env img_ebs c n s = .ok (m, s')) :
    ∃ n', FlashEnd mtd ui args env si flash file img_ebs n' s' := by
  induction c generalizing n s with
  | zero =>
    cases hrun
    exact ⟨_, h, by omega, Or.inl ⟨hc, hb⟩⟩
  | succ c ih =>
    obtain ⟨⟨wrote, s₁⟩, hstep, hrun⟩ := Loop.bind_eq_ok hrun
    dsimp only at hrun
    obtain ⟨h₁, hwrote⟩ := h.step hio hsz (hscan.bad n (by omega)) (flashEb_step hstep)
    have hlen : s₁.written = s.written ∨ s₁.written.length = s.written.length+1 := by
      rw [h.written, h₁.written, writableEbs_succ]
      split <;> simp
    split at hrun
    next hdone =>
      cases hrun
      have := hlen.resolve_left (hwrote.mp hdone.1)
      exact ⟨_, h₁, by omega, Or.inr (by omega)⟩
    next hmore =>
      refine ih h₁ ?_ (by omega) hrun
      by_cases hw : wrote = true
      · have := mt (And.intro hw) hmore
        omega
      · rw [hwrote, not_not] at hw
        rw [hw]
        exact hb

/-- All eraseblocks of the file are on the device, in their order and each once, with only the
erase counter, the image sequence number and the CRC changed. -/
structure Flashed (mtd : Mtd) (ui : UbigenInfo) (args : FormatArgs) (si : ScanInfo) (st_size : ℕ)
    (file : List Byte) (s : FlashState) : Prop where
  all : s.written.length = st_size/mtd.eb_size
  increasing : s.written.Pairwise (· < ·)
  good : ∀ eb ∈ s.written, eb < mtd.eb_cnt ∧ s.dev.flash.bad eb = false
  content : ∀ k eb, s.written[k]? = some eb → OnlyEch ui (newEc args si eb) (imageEb mtd file k)
    (readBytes (s.dev.flash.data eb) 0 mtd.eb_size)

/-- Where `flash_image` succeeds, the image is on the device exactly if enough eraseblocks could
be written: the loop also ends well behind the last eraseblock. -/
theorem flash_image_iff (hio : 0 < mtd.min_io_size) (hsz : UBI_EC_HDR_SIZE ≤ mtd.eb_size)
    (hcnt : mtd.eb_cnt < 2^31) (hov : ∀ ec ∈ args.override_ec, ec ≤ EC_MAX)
    (hscan : ubiScan mtd flash = .ok si) {st_size : ℕ} (hfile : file.length = st_size ∨ 0 < st_size)
    {c m : ℕ} {b : ℤ}
    (h : flashImage mtd ui args env st_size file ⟨si, flash, c, b⟩ = .ok (m, s)) :
    Flashed mtd ui args si st_size file s ↔
      st_size/mtd.eb_size ≤ (writableEbs env si mtd.eb_cnt).length := by
  have hsc := ubiScan_scanned hscan
  unfold flashImage at h
  dsimp only at h
  split at h
  · cases h
  split at h
  · cases h
  next hmod =>
    obtain ⟨⟨eb, s'⟩, hrun, h⟩ := Loop.bind_eq_ok h
    dsimp only at h
    cases h
    have hstart : FlashInv mtd ui args env si flash file 0 ⟨⟨si, flash, c, b⟩, file, [], false, []⟩ := by
      refine ⟨fun _ _ => rfl, rfl, fun _ _ => rfl, rfl, fun _ he => absurd he List.not_mem_nil,
        fun k eb hk => (by cases hk), ?_⟩
      unfold Input
      dsimp only
      rw [if_neg Bool.false_ne_true, List.length_nil, Nat.zero_mul, List.drop_zero]
    obtain ⟨n, hend⟩ := flashLoop_end hio hsz hsc hstart (Or.inl rfl) (Nat.zero_add _) hrun
    have hinv := hend.inv
    have hlen := congrArg List.length hinv.written
    have hmono := writableEbs_length_le env si hend.le
    constructor
    · intro hf
      rw [← hf.all, hlen]
      exact hmono
    · intro hle
      have hw : (writableEbs env si mtd.eb_cnt).length ≤ mtd.eb_cnt :=
        (List.length_filter_le _ _).trans_eq List.length_range
      refine ⟨?_, ?_, ?_, ?_⟩
      · have hended := hend.ended
        have hN := Nat.div_add_mod st_size mtd.eb_size
        generalize st_size/mtd.eb_size = N at hle hended hN ⊢
        rw [toInt32_of_lt (by omega) (by omega)] at hended
        rcases hended with ⟨rfl, hshort⟩ | ⟨hone, himg⟩ | hall
        · omega
        · -- nothing can be read from a file without any eraseblock
          by_contra hne
          have h0 : N = 0 := by omega
          rw [h0, not_not.mp hmod, Nat.mul_zero] at hN
          have hnil : file = [] := List.eq_nil_of_length_eq_zero (by omega)
          obtain ⟨eb, heb⟩ := List.length_eq_one_iff.mp hone
          have hc := (hinv.content 0 eb (by rw [heb]; rfl)).1
          rw [hnil, imageEb, List.drop_nil, List.take_nil, List.length_nil] at hc
          rw [UBI_EC_HDR_SIZE] at hsz
          omega
        · omega
      · rw [hinv.written]
        exact writableEbs_pairwise env si n
      · intro eb heb
        refine ⟨?_, hinv.good eb heb⟩
        rw [hinv.written, mem_writableEbs] at heb
        have := hend.le
        omega
      · intro k eb hk
        obtain ⟨hl, hread⟩ := hinv.content k eb hk
        have hec := newEc_le hov hsc.mean_ec eb
        rw [EC_MAX] at hec
        rw [hread]
        exact patchEch_only (hsz.trans_eq hl.symm) (by omega)

end Run

section Blank

/-- An image of one eraseblock, with nothing but its EC header. -/
def oneEb : List Byte := ubigenInitEcHdr nandInfo 0 ++ List.replicate 131008 0xff#8

/-- A blank device with two eraseblocks that are not bad. -/
def blankFlash : Flash := ⟨fun eb => decide (2 ≤ eb), fun _ => erased⟩

/-- All writes fail. -/
def failingWrite : Env := { calm with write := fun _ => .eio }

theorem oneEb_length : oneEb.length = nandMtd.eb_size := by
  rw [oneEb, List.length_append, ubigenInitEcHdr_length, List.length_replicate]
  rfl

theorem oneEb_changeEch (seq : BitVec 32) (ec : ℕ) :
    changeEch oneEb seq ec = .ok (patchEch oneEb seq ec) := by
  have h : EcHdrAt nandInfo 0 oneEb := ubigenInitEcHdr_at (by decide) (by decide) (by decide) _
  rw [changeEch, if_neg (not_not.mpr h.magic), if_neg (not_not.mpr h.hdr_crc)]

theorem oneEb_readEb (dev : Device) :
    readEb nandMtd ⟨dev, oneEb, [], false, []⟩ = .ok ⟨dev, [], oneEb, false, []⟩ := by
  have hlen := oneEb_length
  unfold readEb
  dsimp only
  rw [if_neg Bool.false_ne_true, if_neg (by omega), List.take_of_length_le (by omega),
    List.drop_eq_nil_of_le (by omega)]

theorem blankFlash_scan : ∃ si, ubiScan nandMtd blankFlash = .ok si ∧ si.good_cnt = 2 ∧
    si.mean_ec = 0 ∧ si.ec 0 = EB_EMPTY ∧ si.ec 1 = EB_EMPTY ∧ si.ec 2 = EB_BAD ∧ si.ec 3 = EB_BAD := by
  have hrun : (ubiScan nandMtd blankFlash).toOption.map (fun si =>
      (si.good_cnt, si.mean_ec, si.ec 0, si.ec 1, si.ec 2, si.ec 3)) =
      some (2, 0, EB_EMPTY, EB_EMPTY, EB_BAD, EB_BAD) := by decide +kernel
  cases hscan : ubiScan nandMtd blankFlash with
  | error e =>
    rw [hscan] at hrun
    cases hrun
  | ok si =>
    rw [hscan] at hrun
    have hparts := Option.some.inj hrun
    simp only [Prod.mk.injEq] at hparts
    exact ⟨si, rfl, hparts⟩

theorem flashEb_bad {mtd : Mtd} {ui : UbigenInfo} {args : FormatArgs} {env : Env} {eb : ℕ}
    {s : FlashState} (h : s.dev.si.ec eb = EB_BAD) : flashEb mtd ui args env eb s = .ok (false, s) :=
  if_pos h

theorem flash_image_blank : ∃ si s, ubiScan nandMtd blankFlash = .ok si ∧ si.good_cnt = 2 ∧
    flashImage nandMtd nandInfo ⟨none, true⟩ calm 131072 oneEb ⟨si, blankFlash, 1, -1⟩ = .ok (1, s) ∧
    1 ≤ (writableEbs calm si nandMtd.eb_cnt).length ∧
    Flashed nandMtd nandInfo ⟨none, true⟩ si 131072 oneEb s := by
  obtain ⟨si, hsi, hgood, -, h0, -, -, -⟩ := blankFlash_scan
  have hrun : ∃ s, flashImage nandMtd nandInfo ⟨none, true⟩ calm 131072 oneEb
      ⟨si, blankFlash, 1, -1⟩ = .ok (1, s) := by
    have himg : toInt32 ((131072/nandMtd.eb_size : ℕ) : ℤ) = 1 := by decide
    unfold flashImage
    dsimp only
    rw [himg, hgood, if_neg (by decide), if_neg (by decide), show nandMtd.eb_cnt = 3+1 from rfl,
      flashLoop, flashEb]
    dsimp only
    rw [h0, if_neg (by decide), show calm.erase 0 = .done from rfl]
    dsimp only
    rw [oneEb_readEb, Loop.ok_bind]
    dsimp only
    rw [oneEb_changeEch, Loop.ok_bind]
    exact ⟨_, rfl⟩
  obtain ⟨s, hrun⟩ := hrun
  have hmem : 0 ∈ writableEbs calm si nandMtd.eb_cnt :=
    mem_writableEbs.mpr ⟨by decide, by rw [h0]; decide, rfl, rfl⟩
  have hpos := List.length_pos_of_mem hmem
  refine ⟨si, s, hsi, hgood, hrun, hpos, ?_⟩
  exact (flash_image_iff (by decide) (by decide) (by decide) (fun _ h => (by cases h)) hsi
    (Or.inr (by decide)) hrun).mpr hpos

/-- The buffer in a run where the eraseblock of the image is not written yet. -/
structure Unwritten (s : FlashState) : Prop where
  next : (s.skip_data_read = false ∧ s.file = oneEb) ∨
    (s.skip_data_read = true ∧ ∃ ec < 2^64, s.buf = patchEch oneEb nandInfo.image_seq ec)
  mean_ec : s.dev.si.mean_ec = 0
  written : s.written = []

theorem patched_changeEch {ec : ℕ} (hec : ec < 2^64) (ec' : ℕ) :
    changeEch (patchEch oneEb nandInfo.image_seq ec) nandInfo.image_seq ec' =
      .ok (patchEch oneEb nandInfo.image_seq ec') := by
  have hat : EcHdrAt nandInfo 0 oneEb := ubigenInitEcHdr_at (by decide) (by decide) (by decide) _
  have hsz : UBI_EC_HDR_SIZE ≤ oneEb.length := by
    rw [oneEb_length]
    decide
  have honly := @patchEch_only nandInfo oneEb hsz ec hec
  have hmagic : beField (patchEch oneEb nandInfo.image_seq ec) 0 4 = UBI_EC_HDR_MAGIC := by
    rw [← beField_take _ (show 0+4 ≤ 8 by decide), honly.head, beField_take _ (by decide), hat.magic]
  rw [changeEch, if_neg (not_not.mpr hmagic), if_neg (not_not.mpr honly.hdr_crc),
    patchEch_patchEch hsz]

/-- A pass whose write fails: the eraseblock is marked bad, and the buffer is kept for the next. -/
theorem flashEb_failing {eb : ℕ} {s : FlashState} (h : Unwritten s) (hbad : s.dev.si.ec eb ≠ EB_BAD)
    (hcons : s.dev.consecutive_bad_blocks ≤ 2) :
    ∃ s', flashEb nandMtd nandInfo ⟨none, true⟩ failingWrite eb s = .ok (false, s') ∧ Unwritten s' ∧
      (∀ i, i ≠ eb → s'.dev.si.ec i = s.dev.si.ec i) ∧
      s'.dev.consecutive_bad_blocks ≤ max 1 (s.dev.consecutive_bad_blocks+1) := by
  obtain ⟨s₁, hread, hdev, hfile, hwritten, hbuf⟩ : ∃ s₁,
      readEb nandMtd { s with dev := s.dev.put eb erased } = .ok s₁ ∧
      s₁.dev = s.dev.put eb erased ∧ s₁.skip_data_read = false ∧ s₁.written = [] ∧
      ∀ ec', changeEch s₁.buf nandInfo.image_seq ec' = .ok (patchEch oneEb nandInfo.image_seq ec') := by
    have hlen := oneEb_length
    unfold readEb
    dsimp only
    rcases h.next with ⟨hskip, hfile⟩ | ⟨hskip, ec, hec, hbuf⟩
    · rw [hskip, hfile, if_neg Bool.false_ne_true, if_neg (by omega), List.take_of_length_le (by omega)]
      exact ⟨_, rfl, rfl, rfl, h.written, oneEb_changeEch _⟩
    · rw [hskip, if_pos rfl]
      refine ⟨_, rfl, rfl, rfl, h.written, fun ec' => ?_⟩
      dsimp only
      rw [hbuf]
      exact patched_changeEch hec ec'
  have hmean : s₁.dev.si.mean_ec = 0 := by
    rw [hdev]
    exact h.mean_ec
  have hec : newEc ⟨none, true⟩ s₁.dev.si eb < 2^64 := by
    unfold newEc
    dsimp only
    split
    next hle =>
      rw [EC_MAX] at hle
      omega
    next => omega
  obtain ⟨dev, hmark, hsame, hmean', hcons'⟩ : ∃ dev,
      markBad nandMtd ⟨none, true⟩ failingWrite eb (s₁.dev.put eb (failingWrite.left eb)) = .ok dev ∧
      (∀ i, i ≠ eb → dev.si.ec i = s.dev.si.ec i) ∧ dev.si.mean_ec = 0 ∧
      dev.consecutive_bad_blocks ≤ max 1 (s.dev.consecutive_bad_blocks+1) := by
    rw [hdev]
    change ∃ dev, consecutiveBadCheck eb _ = .ok dev ∧ _
    unfold consecutiveBadCheck Device.put
    dsimp only
    generalize hcount : (if (eb : ℤ) = (if s.dev.prev_bb = -1 then (eb : ℤ) else s.dev.prev_bb)+1 then
      s.dev.consecutive_bad_blocks+1 else 1) = count
    have hle : count ≤ max 1 (s.dev.consecutive_bad_blocks+1) := by
      rw [← hcount]
      by_cases hnext : (eb : ℤ) = (if s.dev.prev_bb = -1 then (eb : ℤ) else s.dev.prev_bb)+1
      · rw [if_pos hnext]
        exact le_max_right 1 _
      · rw [if_neg hnext]
        exact le_max_left 1 _
    rw [MAX_CONSECUTIVE_BAD_BLOCKS, if_neg (by omega)]
    exact ⟨_, rfl, fun i hi => if_neg hi, h.mean_ec, hle⟩
  refine ⟨{ s₁ with dev := dev
                    buf := patchEch oneEb nandInfo.image_seq (newEc ⟨none, true⟩ s₁.dev.si eb)
                    skip_data_read := true }, ?_, ⟨?_, hmean', hwritten⟩, hsame, hcons'⟩
  · unfold flashEb
    rw [if_neg hbad, show failingWrite.erase eb = .done from rfl]
    dsimp only
    rw [hread, Loop.ok_bind, hbuf, Loop.ok_bind, show failingWrite.write eb = .eio from rfl]
    dsimp only
    rw [hmark, Loop.ok_bind]
  · exact Or.inr ⟨rfl, _, hec, rfl⟩

/-- The one eraseblock of the image is not written anywhere, and `flash_image` succeeds: the writes
of both eraseblocks that the scan found good fail, and the others are bad. -/
theorem flash_image_nothing : ∃ si s, ubiScan nandMtd blankFlash = .ok si ∧ si.good_cnt = 2 ∧
    flashImage nandMtd nandInfo ⟨none, true⟩ failingWrite 131072 oneEb ⟨si, blankFlash, 1, -1⟩ =
      .ok (5, s) ∧ s.written = [] ∧ ¬ Flashed nandMtd nandInfo ⟨none, true⟩ si 131072 oneEb s := by
  obtain ⟨si, hsi, hgood, hmean, h0, h1, h2, h3⟩ := blankFlash_scan
  have hrun : ∃ s, flashImage nandMtd nandInfo ⟨none, true⟩ failingWrite 131072 oneEb
      ⟨si, blankFlash, 1, -1⟩ = .ok (5, s) ∧ s.written = [] := by
    have himg : toInt32 ((131072/nandMtd.eb_size : ℕ) : ℤ) = 1 := by decide
    have hstart : Unwritten ⟨⟨si, blankFlash, 1, -1⟩, oneEb, [], false, []⟩ :=
      ⟨Or.inl ⟨rfl, rfl⟩, hmean, rfl⟩
    obtain ⟨s, hs, hun, hec, hcons⟩ := @flashEb_failing 0 _ hstart (by rw [h0]; decide)
      (show 1 ≤ 2 by decide)
    obtain ⟨t, ht, hun', hec', -⟩ := @flashEb_failing 1 s hun (by rw [hec 1 (by decide), h1]; decide)
      (hcons.trans (show max 1 (1+1) ≤ 2 by decide))
    have hbad (i : ℕ) (hi : i ≠ 0) (hi' : i ≠ 1) : t.dev.si.ec i = si.ec i :=
      (hec' i hi').trans (hec i hi)
    refine ⟨t, ?_, hun'.written⟩
    unfold flashImage
    dsimp only
    rw [himg, hgood, if_neg (by decide), if_neg (by decide), show nandMtd.eb_cnt = 4 from rfl]
    simp only [flashLoop, hs, ht, Loop.ok_bind,
      @flashEb_bad _ _ _ _ 2 t ((hbad 2 (by decide) (by decide)).trans h2),
      @flashEb_bad _ _ _ _ 3 t ((hbad 3 (by decide) (by decide)).trans h3), Bool.false_eq_true,
      false_and, if_false, Nat.zero_add, Nat.reduceAdd]
  obtain ⟨s, hrun, hw⟩ := hrun
  refine ⟨si, s, hsi, hgood, hrun, hw, fun hf => ?_⟩
  have hall := hf.all
  rw [hw] at hall
  exact absurd hall (by decide)

end Blank

end ChipTools.Ubi
