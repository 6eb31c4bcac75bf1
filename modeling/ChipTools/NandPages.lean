import ChipTools.BchCode
import ChipTools.NandGeometry

/-! The pages that `sunxi-nand-image-builder` writes: the data of each step, scrambled, with its
spare bytes and BCH parity, and the bad block marker in place of two of the bytes. -/
namespace ChipTools.NandImage
open Bytes CNumber BinaryPoly Polynomial

section Bits

/-- A pass of `swap_bits`. -/
def swapByte (byte : Byte) : Byte :=
  (List.range 8).foldl (fun out i =>
    if byte &&& 1#8 <<< i ≠ 0#8 then out ||| 1#8 <<< (7-i) else out) 0#8

def swapBits (buf : List Byte) : List Byte := buf.map swapByte

/-- A pass of `lfsr_step`. -/
def lfsrPass (state : BitVec 16) : BitVec 16 :=
  (state >>> 1 ||| ((state >>> 0 ^^^ state >>> 1) &&& 1#16) <<< 14) &&& 0x7fff#16

def lfsrStep (state : BitVec 16) (count : ℕ) : BitVec 16 := lfsrPass^[count] (state &&& 0x7fff#16)

def default_scrambler_seeds : List (BitVec 16) :=
  [0x2b75, 0x0bd0, 0x5ca3, 0x62d1, 0x1c93, 0x07e9, 0x2162, 0x3a72,
   0x0d67, 0x67f9, 0x1be7, 0x077d, 0x032f, 0x0dac, 0x2716, 0x2436,
   0x7922, 0x1510, 0x3860, 0x5287, 0x480f, 0x4252, 0x1789, 0x5a2d,
   0x2a49, 0x5e10, 0x437f, 0x4b4e, 0x2f45, 0x216e, 0x5cb7, 0x7130,
   0x2a3f, 0x60e4, 0x4dc9, 0x0ef0, 0x0f52, 0x1bb9, 0x6211, 0x7a56,
   0x226d, 0x4ea7, 0x6f36, 0x3692, 0x38bf, 0x0c62, 0x05eb, 0x4c55,
   0x60f4, 0x728c, 0x3b6f, 0x2037, 0x7f69, 0x0936, 0x651a, 0x4ceb,
   0x6218, 0x79f3, 0x383f, 0x18d9, 0x4f05, 0x5c82, 0x2912, 0x6f17,
   0x6856, 0x5938, 0x1007, 0x61ab, 0x3e7f, 0x57c2, 0x542f, 0x4f62,
   0x7454, 0x2eac, 0x7739, 0x42d4, 0x2f90, 0x435a, 0x2e52, 0x2064,
   0x637c, 0x66ad, 0x2c90, 0x0bad, 0x759c, 0x0029, 0x0986, 0x7126,
   0x1ca7, 0x1605, 0x386a, 0x27f5, 0x1380, 0x6d75, 0x24c3, 0x0f8e,
   0x2b7a, 0x1418, 0x1fd1, 0x7dc1, 0x2d8e, 0x43af, 0x2267, 0x7da3,
   0x4e3d, 0x1338, 0x50db, 0x454d, 0x764d, 0x40a3, 0x42e6, 0x262b,
   0x2d2e, 0x1aea, 0x2e17, 0x173d, 0x3a6e, 0x71bf, 0x25f9, 0x0a5d,
   0x7c57, 0x0fbe, 0x46ce, 0x4939, 0x6b17, 0x37bb, 0x3e91, 0x76db]

def brom_scrambler_seeds : List (BitVec 16) := [0x4a80]

/-- The loop of `scramble`. -/
def scrambleLoop : BitVec 16 → List Byte → List Byte
  | _, [] => []
  | state, b :: data => (b ^^^ state.setWidth 8) :: scrambleLoop (lfsrStep state 8) data

def scramble (info : ImageInfo) (page : ℤ) (data : List Byte) : List Byte :=
  if info.boot0 then scrambleLoop (lfsrStep (brom_scrambler_seeds.getD 0 0#16) 15) data
  else match info.seedmod with
    -- not asked for
    | none => data
    | some seedmod =>
      let state := default_scrambler_seeds.getD ((page%2^32).toNat%seedmod) 0#16
      scrambleLoop (lfsrStep state 15) data

end Bits

section File

/-- A file that is written, and the place in it. -/
structure OutFile where
  bytes : List Byte
  pos : ℕ

/-- Bytes that replace others, or come after them. -/
def splice (xs : List Byte) (pos : ℕ) (ys : List Byte) : List Byte :=
  xs.take pos ++ List.replicate (pos-xs.length) 0#8 ++ ys ++ xs.drop (pos+ys.length)

/-- `fseek` to a place from the start. -/
def OutFile.fseek (f : OutFile) (offs : ℤ) : OutFile :=
  if 0 ≤ offs then { f with pos := offs.toNat } else f

def OutFile.fwrite (f : OutFile) (ys : List Byte) : OutFile :=
  if ys = [] then f else ⟨splice f.bytes f.pos ys, f.pos+ys.length⟩

end File

section Model

/-- The files of `create_image`: how far `/dev/urandom` has been read is a number of bytes. -/
structure Files where
  src : Source
  dst : OutFile
  rnd : ℕ

/-- The buffer and the bytes of `/dev/urandom` during a run. -/
structure Env where
  addr : ℕ
  random : ℕ → Byte

def Env.fread (env : Env) (rnd n : ℕ) : List Byte := (List.range n).map fun i => env.random (rnd+i)

namespace ImageInfo

variable (info : ImageInfo) (bch : Bch.BchCodec) (env : Env) (page : ℤ)

/-- The data and the spare bytes of a step with the ECC bytes, as they are in the buffer after
`scramble`. The ECC bytes may be one more than `encode_bch` fills. -/
def stepBlock (data : List Byte) : List Byte :=
  let ecc := List.replicate info.eccbytes.toNat 0#8
  let data := data ++ List.replicate 4 0xff#8
  let buf := swapBits data
  let ecc := match (bch.encodeBch env.addr buf (some ecc)).2 with
    | some parity => parity ++ ecc.drop parity.length
    | none => ecc
  NandImage.scramble info page (swapBits buf ++ swapBits ecc)

/-- A pass of the loop over the steps, for a page that starts at `pos`. -/
def writeStep (pos i : ℕ) (s : Files) : Files :=
  let step := (info.ecc_step_size%2^64).toNat
  let r := s.src.fread step
  let pad := step-r.1.length
  let random := pad ≠ 0 ∧ info.scramble = true ∧ info.boot0 = true
  let padding := if random then env.fread s.rnd pad else List.replicate pad 0xff#8
  let block := info.stepBlock bch env page (r.1 ++ padding)
  let dst := (s.dst.fseek (pos+info.dataOffs i)).fwrite (block.take step)
  let dst := (dst.fseek (pos+info.eccOffs i-4)).fwrite (block.drop step)
  { src := r.2, dst := dst, rnd := if random then s.rnd+pad else s.rnd }

/-- The unused space of a page. -/
def writeFiller (pos : ℕ) (s : Files) : Files :=
  if info.scramble then
    let cnt := (info.length .filler).toNat
    if info.boot0 then
      { s with
        dst := (s.dst.fseek (pos+info.fillerOffs)).fwrite (env.fread s.rnd cnt)
        rnd := s.rnd+cnt }
    else
      let filler := NandImage.scramble info page (List.replicate cnt 0xff#8)
      { s with dst := (s.dst.fseek (pos+info.fillerOffs)).fwrite filler }
  else s

/-- `write_page`. -/
def writePage (s : Files) : Files :=
  let pos := s.dst.pos
  let size := (toInt32 (info.page_size+info.oob_size)).toNat
  let r := s.src.fread (info.usable_page_size%2^64).toNat
  if r.1 = [] then { s with src := r.2 }
  else
    let dst := s.dst.fwrite (r.1 ++ List.replicate (size-r.1.length) 0xff#8)
    -- empty pages are left at 0xff
    if r.1.all (· = 0xff#8) then { s with src := r.2, dst := dst }
    else
      let s := { s with src := ⟨s.src.rest, false⟩, dst := dst }
      let s := info.writeFiller env page pos s
      let s := (List.range info.steps.toNat).foldl
        (fun s i => info.writeStep bch env page pos i s) s
      let dst := (s.dst.fseek (pos+info.page_size)).fwrite [0xff#8, 0xff#8]
      { s with dst := dst.fseek (pos+info.page_size+info.oob_size) }

/-- The loop of `create_image`, with a bound on its passes. -/
def writePages : ℕ → ℤ → Files → Option Files
  | 0, _, s => if s.src.eof then some s else none
  | n+1, page, s =>
    if s.src.eof then some s
    else writePages n (page+1) (info.writePage bch env (toInt32 page) s)

/-- `create_image`: the bytes of the image. -/
def createFile (fuel : ℕ) (src : List Byte) : Except Bch.Stop (List Byte) :=
  match Bch.initBch fuel 14 info.ecc_strength Bch.BCH_PRIMITIVE_POLY with
  | .error e => .error e
  | .ok bch =>
    match info.writePages bch env fuel (info.offset.tdiv info.page_size) ⟨⟨src, false⟩, ⟨[], 0⟩, 0⟩
      with
    | some s => .ok s.dst.bytes
    | none => .error .passes

end ImageInfo

end Model

section ReadBack

/-- `n` bytes from place `a` on. -/
def slice (bs : List Byte) (a n : ℕ) : List Byte := (bs.drop a).take n

/-- A step of a page as it is read: what is in its two places, with the bits of `scramble` taken
back. -/
def ImageInfo.readStep (info : ImageInfo) (page : ℤ) (bytes : List Byte) (i : ℕ) : List Byte :=
  NandImage.scramble info page
    (slice bytes (info.start (.data i)).toNat (info.length (.data i)).toNat ++
      slice bytes (info.start (.spare i)).toNat (info.length (.spare i)).toNat)

/-- The bytes behind those that were read for a step: random ones in a scrambled boot0 image. -/
def Padding (info : ImageInfo) (step : ℕ) (read padding : List Byte) : Prop :=
  read.length+padding.length = step ∧
    (¬(info.scramble = true ∧ info.boot0 = true) → padding = List.replicate padding.length 0xff#8)

/-- Bytes with their ECC bytes, in the order of bits in which they are encoded: the first `2*t`
powers of the primitive element are roots. -/
def IsCodeword (t : ℕ) (buf ecc : List Byte) : Prop :=
  ∀ j, 1 ≤ j → j ≤ 2*t →
    aeval (AdjoinRoot.root (toPoly Bch.BCH_PRIMITIVE_POLY.toNat)^j)
      (wordsPoly (swapBits buf ++ (swapBits ecc).take (Bch.DIV_ROUND_UP (14*t) 8))) = 0

/-- A page is read back as the part of the source that it is for. The marker may have replaced two
spare bytes of the first step. -/
structure ReadsBack (info : ImageInfo) (page : ℤ) (chunk bytes : List Byte) : Prop where
  length : bytes.length = (info.page_size+info.oob_size).toNat
  marker : slice bytes info.page_size.toNat 2 = [0xff#8, 0xff#8]
  empty : (∀ b ∈ chunk, b = 0xff#8) → ∀ b ∈ bytes, b = 0xff#8
  steps : (∃ b ∈ chunk, b ≠ 0xff#8) → ∀ i < info.steps.toNat, ∃ padding spare ecc,
    let step := info.ecc_step_size.toNat
    let read := (chunk.drop (i*step)).take step
    info.readStep page bytes i = read ++ padding ++ spare ++ ecc ∧ Padding info step read padding ∧
      spare.length = 4 ∧ (i ≠ 0 → spare = List.replicate 4 0xff#8) ∧
      (∀ j : ℕ, j < 4 → info.start (.spare i)+j ≠ info.page_size →
        info.start (.spare i)+j ≠ info.page_size+1 → spare[j]? = some 0xff#8) ∧
      ecc.length = info.eccbytes.toNat ∧
      IsCodeword info.ecc_strength.toNat (read ++ padding ++ List.replicate 4 0xff#8) ecc

end ReadBack

section Scrambler

variable {info : ImageInfo} {page : ℤ}

theorem swapByte_swapByte : ∀ b : Byte, swapByte (swapByte b) = b := by decide +kernel

/-- The bits are in their places again. -/
theorem swapBits_swapBits (buf : List Byte) : swapBits (swapBits buf) = buf := by
  unfold swapBits
  rw [List.map_map]
  exact (List.map_congr_left fun b _ => swapByte_swapByte b).trans (List.map_id buf)

theorem scrambleLoop_length (state : BitVec 16) (data : List Byte) :
    (scrambleLoop state data).length = data.length := by
  induction data generalizing state with
  | nil => rfl
  | cons b data ih => rw [scrambleLoop, List.length_cons, List.length_cons, ih]

/-- The same bits are changed again. -/
theorem scrambleLoop_scrambleLoop (state : BitVec 16) (data : List Byte) :
    scrambleLoop state (scrambleLoop state data) = data := by
  induction data generalizing state with
  | nil => rfl
  | cons b data ih =>
    rw [scrambleLoop, scrambleLoop, ih, BitVec.xor_assoc, BitVec.xor_self, BitVec.xor_zero]

theorem scrambleLoop_append (state : BitVec 16) (xs ys : List Byte) :
    scrambleLoop state (xs ++ ys) = scrambleLoop state xs ++
      scrambleLoop ((lfsrStep · 8)^[xs.length] state) ys := by
  induction xs generalizing state with
  | nil => rfl
  | cons x xs ih =>
    rw [List.cons_append, scrambleLoop, scrambleLoop, ih, List.length_cons,
      Function.iterate_succ_apply, List.cons_append]

/-- A page is not scrambled, or with the bits from some state on. -/
theorem scramble_cases (info : ImageInfo) (page : ℤ) :
    (∀ data, scramble info page data = data) ∨
    ∃ state, ∀ data, scramble info page data = scrambleLoop state data := by
  unfold scramble
  cases info.boot0 with
  | true => exact .inr ⟨_, fun _ => rfl⟩
  | false =>
    cases info.seedmod with
    | none => exact .inl fun _ => rfl
    | some seedmod => exact .inr ⟨_, fun _ => rfl⟩

theorem scramble_length (data : List Byte) : (scramble info page data).length = data.length := by
  rcases scramble_cases info page with h | ⟨state, h⟩
  · rw [h]
  · rw [h, scrambleLoop_length]

theorem scramble_scramble (data : List Byte) :
    scramble info page (scramble info page data) = data := by
  rcases scramble_cases info page with h | ⟨state, h⟩
  · rw [h, h]
  · rw [h, h, scrambleLoop_scrambleLoop]

/-- Each byte is changed by what depends on its place only. -/
theorem scrambleLoop_getElem? {xs ys : List Byte} {j : ℕ} (state : BitVec 16)
    (hlen : xs.length = ys.length) (h : xs[j]? = ys[j]?) :
    (scrambleLoop state xs)[j]? = (scrambleLoop state ys)[j]? := by
  induction xs generalizing ys j state with
  | nil =>
    obtain rfl := List.eq_nil_of_length_eq_zero hlen.symm
    rfl
  | cons x xs ih =>
    cases ys with
    | nil => cases hlen
    | cons y ys =>
      rw [scrambleLoop, scrambleLoop]
      cases j with
      | zero =>
        rw [List.getElem?_cons_zero, List.getElem?_cons_zero] at h
        rw [Option.some.inj h]
        rfl
      | succ j =>
        rw [List.getElem?_cons_succ, List.getElem?_cons_succ] at h ⊢
        exact ih _ (Nat.succ.inj hlen) h

/-- Each byte is scrambled for itself: other bytes in the middle change nothing around them. -/
theorem scramble_middle {xs ys zs xs' ys' zs' mid : List Byte}
    (h : scramble info page (xs ++ ys ++ zs) = xs' ++ ys' ++ zs') (hx : xs'.length = xs.length)
    (hy : ys'.length = ys.length) (hmid : mid.length = ys.length) :
    ∃ mid', mid'.length = ys.length ∧ (∀ j : ℕ, mid[j]? = ys[j]? → mid'[j]? = ys'[j]?) ∧
      scramble info page (xs ++ mid ++ zs) = xs' ++ mid' ++ zs' := by
  rcases scramble_cases info page with hid | ⟨state, hloop⟩
  · rw [hid] at h
    obtain ⟨hxy, rfl⟩ := List.append_inj h (by rw [List.length_append, List.length_append, hx, hy])
    obtain ⟨rfl, rfl⟩ := List.append_inj hxy hx.symm
    exact ⟨mid, hmid, fun _ hj => hj, hid _⟩
  · rw [hloop, scrambleLoop_append, scrambleLoop_append] at h
    obtain ⟨hxy, hz⟩ := List.append_inj h (by
      rw [List.length_append, List.length_append, scrambleLoop_length, scrambleLoop_length, hx, hy])
    obtain ⟨hx', hy'⟩ := List.append_inj hxy (by rw [scrambleLoop_length, hx])
    refine ⟨scrambleLoop ((lfsrStep · 8)^[xs.length] state) mid,
      by rw [scrambleLoop_length, hmid], fun j hj => ?_, ?_⟩
    · rw [← hy']
      exact scrambleLoop_getElem? _ hmid hj
    · rw [hloop, scrambleLoop_append, scrambleLoop_append, hx', ← hz, List.length_append,
        List.length_append, hmid]

end Scrambler

section Slices

variable {xs ys before : List Byte} {a b n : ℕ}

theorem slice_getElem? (bs : List Byte) (a n k : ℕ) :
    (slice bs a n)[k]? = if k < n then bs[a+k]? else none := by
  unfold slice
  rw [List.getElem?_take, List.getElem?_drop]

theorem splice_inside (h : a+ys.length ≤ xs.length) :
    splice xs a ys = xs.take a ++ ys ++ xs.drop (a+ys.length) := by
  unfold splice
  rw [Nat.sub_eq_zero_of_le (by omega), List.replicate_zero, List.append_nil]

theorem splice_length (h : a+ys.length ≤ xs.length) : (splice xs a ys).length = xs.length := by
  rw [splice_inside h, List.length_append, List.length_append, List.length_take, List.length_drop]
  omega

theorem splice_getElem? (h : a+ys.length ≤ xs.length) (k : ℕ) : (splice xs a ys)[k]? =
    if a ≤ k ∧ k < a+ys.length then ys[k-a]? else xs[k]? := by
  have hlen : (xs.take a).length = a := by rw [List.length_take]; omega
  rw [splice_inside h, List.append_assoc, List.getElem?_append, hlen]
  by_cases hlo : k < a
  · rw [if_pos hlo, if_neg (by omega), List.getElem?_take, if_pos hlo]
  · rw [if_neg hlo, List.getElem?_append]
    by_cases hhi : k < a+ys.length
    · rw [if_pos (by omega), if_pos (by omega)]
    · rw [if_neg (by omega), if_neg (by omega), List.getElem?_drop]
      congr 1
      omega

/-- What has been written is read. -/
theorem slice_splice (h : a+ys.length ≤ xs.length) : slice (splice xs a ys) a ys.length = ys := by
  apply List.ext_getElem?
  intro k
  rw [slice_getElem?, splice_getElem? h]
  by_cases hk : k < ys.length
  · rw [if_pos hk, if_pos (by omega), Nat.add_sub_cancel_left]
  · rw [if_neg hk, List.getElem?_eq_none (Nat.not_lt.mp hk)]

/-- What is written elsewhere changes nothing. -/
theorem slice_splice_of_apart (h : a+ys.length ≤ xs.length) (hapart : b+n ≤ a ∨ a+ys.length ≤ b) :
    slice (splice xs a ys) b n = slice xs b n := by
  apply List.ext_getElem?
  intro k
  rw [slice_getElem?, slice_getElem?, splice_getElem? h]
  by_cases hk : k < n
  · rw [if_pos hk, if_pos hk, if_neg (by omega)]
  · rw [if_neg hk, if_neg hk]

theorem slice_length (h : a+n ≤ xs.length) : (slice xs a n).length = n := by
  unfold slice
  rw [List.length_take, List.length_drop]
  omega

/-- The front of a slice, and the rest of it. -/
theorem slice_take_append (bs : List Byte) (a n k : ℕ) (hk : k ≤ n) :
    slice bs a n = slice bs a k ++ slice bs (a+k) (n-k) := by
  unfold slice
  rw [← List.drop_drop, ← List.take_add, Nat.add_sub_cancel' hk]

/-- Behind other bytes. -/
theorem splice_append (h : a+ys.length ≤ xs.length) :
    splice (before ++ xs) (before.length+a) ys = before ++ splice xs a ys := by
  rw [splice_inside (by rw [List.length_append]; omega), splice_inside h, List.take_length_add_append,
    Nat.add_assoc, List.drop_length_add_append, List.append_assoc, List.append_assoc,
    List.append_assoc]

/-- A write into the page at the end of a file. -/
theorem fwrite_inside {f : OutFile} {offs : ℤ} (hf : f.bytes = before ++ xs)
    (hoffs : 0 ≤ offs) (h : offs.toNat+ys.length ≤ xs.length) :
    ((f.fseek (before.length+offs)).fwrite ys).bytes = before ++ splice xs offs.toNat ys := by
  have hpos : ((before.length : ℤ)+offs).toNat = before.length+offs.toNat := by omega
  unfold OutFile.fseek
  rw [if_pos (by omega), hpos]
  unfold OutFile.fwrite
  by_cases hnil : ys = []
  · rw [if_pos hnil, hnil, splice_inside (by rw [hnil] at h; exact h), List.append_nil,
      List.length_nil, Nat.add_zero, List.take_append_drop]
    exact hf
  · rw [if_neg hnil]
    dsimp only
    rw [hf, splice_append h]

end Slices

section Step

variable {info : ImageInfo} {bch : Bch.BchCodec} {env : Env} {page : ℤ} {g : (ZMod 2)[X]}

/-- ECC bytes that belong to some data, in the order of bits in which both are written. -/
def EccFor (bch : Bch.BchCodec) (g : (ZMod 2)[X]) (data ecc : List Byte) : Prop :=
  Bch.Parity bch g (swapBits data) ((swapBits ecc).take bch.eccBytes)

theorem getD_replicate_zero (k i : ℕ) : (List.replicate k 0#8).getD i 0#8 = 0#8 := by
  rw [List.getD_eq_getElem?_getD, List.getElem?_replicate]
  split <;> rfl

/-- `load_ecc8` of zeros, also where there are more of them than it reads. -/
theorem loadEcc8_zeros (bch : Bch.BchCodec) (k : ℕ) :
    bch.loadEcc8 (List.replicate k 0#8) = bch.loadEcc8 (List.replicate bch.eccBytes 0#8) := by
  unfold Bch.BchCodec.loadEcc8
  simp only [List.drop_replicate, List.take_replicate, getD_replicate_zero]

/-- The bytes of a step: the data, four spare bytes and the ECC bytes for both. -/
theorem stepBlock_eq (env : Env) (page : ℤ) (h : Bch.Encoder bch g) (hle : bch.eccBytes ≤ info.eccbytes.toNat)
    (data : List Byte) :
    ∃ ecc, info.stepBlock bch env page data =
        scramble info page (data ++ List.replicate 4 0xff#8 ++ ecc) ∧
      ecc.length = info.eccbytes.toNat ∧
      EccFor bch g (data ++ List.replicate 4 0xff#8) ecc := by
  obtain ⟨parity, hparity, hp⟩ := Bch.Parity.start.encode h env.addr
    (swapBits (data ++ List.replicate 4 0xff#8))
  have hcall : (bch.encodeBch env.addr (swapBits (data ++ List.replicate 4 0xff#8))
      (some (List.replicate info.eccbytes.toNat 0#8))).2 = some parity := by
    rw [← hparity]
    unfold Bch.BchCodec.encodeBch
    dsimp only
    rw [loadEcc8_zeros]
    rfl
  rw [List.nil_append] at hp
  unfold ImageInfo.stepBlock
  dsimp only
  rw [hcall]
  dsimp only
  rw [swapBits_swapBits, List.drop_replicate, hp.length]
  refine ⟨_, rfl, ?_, ?_⟩
  · unfold swapBits
    rw [List.length_map, List.length_append, hp.length, List.length_replicate]
    omega
  · unfold EccFor
    rw [swapBits_swapBits, List.take_left' hp.length]
    exact hp

theorem stepBlock_length (env : Env) (page : ℤ) (h : Bch.Encoder bch g) (hle : bch.eccBytes ≤ info.eccbytes.toNat)
    (data : List Byte) :
    (info.stepBlock bch env page data).length = data.length+4+info.eccbytes.toNat := by
  obtain ⟨ecc, heq, hlen, -⟩ := stepBlock_eq env page h hle data
  rw [heq, scramble_length, List.length_append, List.length_append, List.length_replicate, hlen]

end Step

section Places

variable {info : ImageInfo} {n : ℕ} {step e : ℤ}

/-- Parts with no byte in common have one behind the other. -/
theorem apart_of_covers {p q : Part} (hapart : ∀ x, info.Covers p x → info.Covers q x → False)
    (hp : 0 < info.length p) (hq : 0 < info.length q) :
    info.start p+info.length p ≤ info.start q ∨ info.start q+info.length q ≤ info.start p := by
  by_contra hnot
  rw [not_or, not_le, not_le] at hnot
  by_cases hle : info.start p ≤ info.start q
  · exact hapart (info.start q) ⟨hle, hnot.1⟩ ⟨le_rfl, by omega⟩
  · exact hapart (info.start p) ⟨le_rfl, by omega⟩ ⟨by omega, hnot.2⟩

/-- The lengths of the parts of a step. -/
theorem step_lengths (h : info.Plan n step e) (i : ℕ) :
    info.length (.data i) = step ∧ info.length (.spare i) = e :=
  ⟨h.stepSize, by change info.eccbytes+4 = e; rw [h.eccbytes]; omega⟩

/-- The parts of all steps are in the page, one behind the other. -/
theorem step_inside (h : info.Plan n step e) {i : ℕ} (hi : i < n) {p : Part}
    (hp : p = .data i ∨ p = .spare i) :
    0 ≤ info.start p ∧ info.start p+info.length p ≤ info.page_size+info.oob_size ∧
      0 < info.length p := by
  obtain ⟨hdata, hspare⟩ := step_lengths h i
  have hpos := h.pos
  have hinside := parts_inside h (p := p) ((mem_parts h).mpr (.inr (.inl ⟨i, hi, hp⟩)))
  refine ⟨hinside.1, hinside.2, ?_⟩
  rcases hp with rfl | rfl
  · omega
  · omega

theorem step_apart (h : info.Plan n step e) {i j : ℕ} (hij : i < j) (hj : j < n) {p q : Part}
    (hp : p = .data i ∨ p = .spare i) (hq : q = .data j ∨ q = .spare j) :
    info.start p+info.length p ≤ info.start q ∨ info.start q+info.length q ≤ info.start p := by
  apply apart_of_covers
  · intro x hx hy
    rcases apart_steps h hij hj hp hq x hx hy with ⟨-, rfl, -⟩ | ⟨-, rfl, -⟩
    · rcases hq with hq | hq <;> cases hq
    · rcases hp with hp | hp <;> cases hp
  · exact (step_inside h (hij.trans hj) hp).2.2
  · exact (step_inside h hj hq).2.2

theorem data_spare_apart (h : info.Plan n step e) {i : ℕ} (hi : i < n) :
    info.start (.data i)+info.length (.data i) ≤ info.start (.spare i) ∨
      info.start (.spare i)+info.length (.spare i) ≤ info.start (.data i) := by
  apply apart_of_covers
  · intro x hx hy
    rcases apart_data_spare h hi x hx hy with ⟨hp, -⟩ | ⟨-, hp, -⟩ <;> cases hp
  · exact (step_inside h hi (.inl rfl)).2.2
  · exact (step_inside h hi (.inr rfl)).2.2

/-- Only the spare bytes of the first step can be where the marker is. -/
theorem marker_apart (h : info.Plan n step e) (hroom : info.boot0 = true → info.MarkerRoom) {i : ℕ}
    (hi : i < n) {p : Part} (hp : p = .data i ∨ p = .spare i) :
    (info.start p+info.length p ≤ info.page_size ∨ info.page_size+2 ≤ info.start p) ∨
      p = .spare 0 ∧ info.start p ≤ info.page_size ∧ info.page_size+2 ≤ info.start p+4 := by
  have hapart := apart_marker h hroom hi hp
  have hlen := (step_inside h hi hp).2.2
  by_cases hnone : ∀ x, info.Covers p x → info.Covers .marker x → False
  · exact .inl (apart_of_covers hnone hlen (by change (0 : ℤ) < 2; decide))
  · right
    rw [not_forall] at hnone
    obtain ⟨x, hx⟩ := hnone
    rw [not_forall] at hx
    obtain ⟨hcov, hx⟩ := hx
    rw [not_forall] at hx
    obtain ⟨hmark, -⟩ := hx
    rcases hapart x hcov hmark with ⟨rfl, -, -⟩ | ⟨-, rfl, -⟩
    · -- the marker starts no more than two bytes behind the spare bytes
      have h0 : 0 < n := Nat.zero_lt_of_lt hi
      have hstart := start_spare h h0
      have hpos := h.pos
      have hx₁ := hcov
      unfold ImageInfo.Covers at hx₁
      rw [(step_lengths h 0).2] at hx₁
      have hx₂ : info.page_size ≤ x ∧ x < info.page_size+2 := hmark
      refine ⟨rfl, ?_⟩
      cases hb : info.boot0 with
      | false =>
        rw [hb, if_neg Bool.false_ne_true, Nat.cast_zero, Int.zero_mul, Int.add_zero] at hstart
        omega
      | true =>
        rw [hb, if_pos rfl, Nat.cast_zero, Int.zero_mul, Int.zero_add] at hstart
        have hone := mul_add_le h0 (b := step+e) (by omega)
        have hroom := hroom hb
        unfold ImageInfo.MarkerRoom at hroom
        rw [Plan.room h, h.steps, h.stepSize] at hroom
        rw [Nat.cast_zero, Int.zero_mul, Int.zero_add] at hone
        omega
    · rcases hp with hp | hp <;> cases hp

end Places

section Page

variable {info : ImageInfo} {bch : Bch.BchCodec} {env : Env} {page : ℤ} {g : (ZMod 2)[X]}
variable {n : ℕ} {step e : ℤ} {before bytes : List Byte}

/-- The block of a step is in its two places. -/
structure Stored (info : ImageInfo) (bytes : List Byte) (i : ℕ) (block : List Byte) : Prop where
  main : slice bytes (info.start (.data i)).toNat (info.length (.data i)).toNat =
    block.take (info.length (.data i)).toNat
  spare : slice bytes (info.start (.spare i)).toNat (info.length (.spare i)).toNat =
    block.drop (info.length (.data i)).toNat

/-- A page that fits the sizes of a plan and its code. -/
structure Fits (info : ImageInfo) (bch : Bch.BchCodec) (g : (ZMod 2)[X]) (n : ℕ) (step e : ℤ) :
    Prop where
  plan : info.Plan n step e
  encoder : Bch.Encoder bch g
  ecc : bch.eccBytes ≤ info.eccbytes.toNat
  room : info.boot0 = true → info.MarkerRoom

theorem Fits.step_eq (h : Fits info bch g n step e) :
    (info.ecc_step_size%2^64).toNat = step.toNat ∧ info.eccbytes.toNat+4 = e.toNat := by
  have hpos := h.plan.pos
  have hsize := h.plan.stepSize
  have hecc := h.plan.eccbytes
  rw [hsize, hecc]
  omega

/-- What a pass of the loop over the steps does. -/
theorem writeStep_eq (env : Env) (page : ℤ) (h : Fits info bch g n step e) {i : ℕ} (hi : i < n) {s : Files}
    (hf : s.dst.bytes = before ++ bytes)
    (hlen : bytes.length = (info.page_size+info.oob_size).toNat) :
    ∃ padding, Padding info step.toNat (s.src.rest.take step.toNat) padding ∧
      (info.writeStep bch env page before.length i s).src = (s.src.fread step.toNat).2 ∧
      ∃ bytes', (info.writeStep bch env page before.length i s).dst.bytes = before ++ bytes' ∧
        bytes'.length = bytes.length ∧
        Stored info bytes' i
          (info.stepBlock bch env page (s.src.rest.take step.toNat ++ padding)) ∧
        ∀ b k, (∀ p, p = .data i ∨ p = .spare i →
          b+k ≤ (info.start p).toNat ∨ (info.start p+info.length p).toNat ≤ b) →
          slice bytes' b k = slice bytes b k := by
  obtain ⟨hstep, he⟩ := h.step_eq
  obtain ⟨hdata, hspare⟩ := step_lengths h.plan i
  have hinD := step_inside h.plan hi (.inl rfl)
  have hinS := step_inside h.plan hi (.inr rfl)
  have hapart := data_spare_apart h.plan hi
  have hpos := h.plan.pos
  rw [hdata] at hinD hapart
  rw [hspare] at hinS hapart
  -- the padding, wherever it comes from
  obtain ⟨padding, hpadding, hpad⟩ : ∃ padding,
      (if step.toNat-(s.src.rest.take step.toNat).length ≠ 0 ∧ info.scramble = true ∧
        info.boot0 = true then
        env.fread s.rnd (step.toNat-(s.src.rest.take step.toNat).length)
      else List.replicate (step.toNat-(s.src.rest.take step.toNat).length) 0xff#8) = padding ∧
      Padding info step.toNat (s.src.rest.take step.toNat) padding := by
    refine ⟨_, rfl, ?_, ?_⟩
    · split
      · unfold Env.fread
        rw [List.length_map, List.length_range, List.length_take]
        omega
      · rw [List.length_replicate, List.length_take]
        omega
    · intro hnot
      rw [if_neg fun hand => hnot hand.2, List.length_replicate]
  refine ⟨padding, hpad, ?_⟩
  unfold ImageInfo.writeStep
  dsimp only [Source.fread]
  rw [hstep, hpadding]
  refine ⟨rfl, ?_⟩
  have hblen := stepBlock_length env page h.encoder h.ecc
    (s.src.rest.take step.toNat ++ padding)
  rw [List.length_append, hpad.1] at hblen
  generalize info.stepBlock bch env page (s.src.rest.take step.toNat ++ padding) = block
    at hblen ⊢
  have htake : (block.take step.toNat).length = step.toNat := by
    rw [List.length_take]
    omega
  have hdrop : (block.drop step.toNat).length = e.toNat := by
    rw [List.length_drop]
    omega
  have hroomD : (info.start (.data i)).toNat+(block.take step.toNat).length ≤ bytes.length := by
    rw [htake, hlen]
    omega
  have hfile₁ := fwrite_inside hf hinD.1 hroomD
  have hlen₁ := splice_length hroomD
  have hroomS : (info.start (.spare i)).toNat+(block.drop step.toNat).length ≤
      (splice bytes (info.start (.data i)).toNat (block.take step.toNat)).length := by
    rw [hdrop, hlen₁, hlen]
    omega
  have hfile₂ := fwrite_inside hfile₁ hinS.1 hroomS
  have hoffs : (before.length : ℤ)+info.eccOffs i-4 = before.length+info.start (.spare i) :=
    Int.add_sub_assoc _ _ _
  rw [hoffs]
  refine ⟨_, hfile₂, (splice_length hroomS).trans hlen₁, ⟨?_, ?_⟩, fun b k hbk => ?_⟩
  · rw [hdata, slice_splice_of_apart hroomS (by rw [hdrop]; omega)]
    have hself := slice_splice hroomD
    rw [htake] at hself
    exact hself
  · rw [hdata, hspare]
    have hself := slice_splice hroomS
    rw [hdrop] at hself
    exact hself
  · have hD := hbk _ (.inl rfl)
    have hS := hbk _ (.inr rfl)
    rw [hdata] at hD
    rw [hspare] at hS
    rw [slice_splice_of_apart hroomS (by rw [hdrop]; omega),
      slice_splice_of_apart hroomD (by rw [htake]; omega)]

theorem Stored.congr {bytes' : List Byte} {i : ℕ} {block : List Byte} (hs : Stored info bytes i block)
    (hsame : ∀ p, p = .data i ∨ p = .spare i → slice bytes' (info.start p).toNat
      (info.length p).toNat = slice bytes (info.start p).toNat (info.length p).toNat) :
    Stored info bytes' i block :=
  ⟨(hsame _ (.inl rfl)).trans hs.main, (hsame _ (.inr rfl)).trans hs.spare⟩

/-- The first `k` steps of a page are in their places, from what was left of the source. -/
structure StepsStored (info : ImageInfo) (bch : Bch.BchCodec) (env : Env) (page : ℤ)
    (before rest : List Byte) (step k : ℕ) (s : Files) (bytes : List Byte) : Prop where
  file : s.dst.bytes = before ++ bytes
  length : bytes.length = (info.page_size+info.oob_size).toNat
  src : s.src = info.freadSteps ⟨rest, false⟩ k
  stored : ∀ i < k, ∃ padding, Padding info step ((rest.drop (i*step)).take step) padding ∧
    Stored info bytes i
      (info.stepBlock bch env page ((rest.drop (i*step)).take step ++ padding))

theorem freadSteps_succ (s : Source) (k : ℕ) : info.freadSteps s (k+1) =
    ((info.freadSteps s k).fread (info.ecc_step_size%2^64).toNat).2 := by
  induction k generalizing s with
  | zero => rfl
  | succ k ih =>
    rw [ImageInfo.freadSteps, ih]
    rfl

/-- One more step: those before it are where they were. -/
theorem StepsStored.next (h : Fits info bch g n step e) {rest : List Byte} {k : ℕ} (hk : k < n)
    {s : Files} (hs : StepsStored info bch env page before rest step.toNat k s bytes) :
    ∃ bytes', StepsStored info bch env page before rest step.toNat (k+1)
      (info.writeStep bch env page before.length k s) bytes' := by
  obtain ⟨hstep, -⟩ := h.step_eq
  obtain ⟨padding, hpad, hsrc, bytes', hfile, hlen, hstored, hsame⟩ :=
    writeStep_eq env page h hk hs.file hs.length
  have hrest : s.src.rest = rest.drop (k*step.toNat) := by
    rw [hs.src, freadSteps_rest, hstep]
  rw [hrest] at hpad hstored
  refine ⟨bytes', hfile, hlen.trans hs.length, ?_, fun i hi => ?_⟩
  · rw [hsrc, hs.src, freadSteps_succ, hstep]
  · rcases Nat.lt_succ_iff_lt_or_eq.mp hi with hlt | rfl
    · obtain ⟨padding', hpad', hstored'⟩ := hs.stored i hlt
      refine ⟨padding', hpad', hstored'.congr fun p hp => hsame _ _ fun q hq => ?_⟩
      have hP := step_inside h.plan (hlt.trans hk) hp
      have hQ := step_inside h.plan hk hq
      rcases step_apart h.plan hlt hk hp hq with hbefore | hafter
      · left
        omega
      · right
        omega
    · exact ⟨padding, hpad, hstored⟩

/-- All steps. -/
theorem writeSteps_stored (h : Fits info bch g n step e) {rest : List Byte} {s : Files}
    (hs : StepsStored info bch env page before rest step.toNat 0 s bytes) {k : ℕ} (hk : k ≤ n) :
    ∃ bytes', StepsStored info bch env page before rest step.toNat k
      ((List.range k).foldl (fun s i => info.writeStep bch env page before.length i s) s)
      bytes' := by
  induction k with
  | zero => exact ⟨bytes, hs⟩
  | succ k ih =>
    obtain ⟨bytes₁, hs₁⟩ := ih (by omega)
    rw [List.range_succ, List.foldl_append, List.foldl_cons, List.foldl_nil]
    exact hs₁.next h (by omega)

end Page

section Marker

variable {info : ImageInfo} {bch : Bch.BchCodec} {env : Env} {page : ℤ} {g : (ZMod 2)[X]}
variable {n : ℕ} {step e : ℤ} {before bytes : List Byte}

/-- After the marker is written, the data and the ECC bytes of a step are still there, and so are the
spare bytes where the marker is not. -/
theorem Stored.marker (h : Fits info bch g n step e) {i : ℕ} (hi : i < n) {block : List Byte}
    (hs : Stored info bytes i block)
    (hlen : bytes.length = (info.page_size+info.oob_size).toNat) :
    let bytes' := splice bytes info.page_size.toNat [0xff#8, 0xff#8]
    ∃ mid, mid.length = 4 ∧ (i ≠ 0 → mid = (block.drop step.toNat).take 4) ∧
      (∀ j : ℕ, j < 4 → info.start (.spare i)+j ≠ info.page_size →
        info.start (.spare i)+j ≠ info.page_size+1 →
          mid[j]? = ((block.drop step.toNat).take 4)[j]?) ∧
      slice bytes' (info.start (.data i)).toNat (info.length (.data i)).toNat =
        block.take step.toNat ∧
      slice bytes' (info.start (.spare i)).toNat (info.length (.spare i)).toNat =
        mid ++ block.drop (step.toNat+4) := by
  intro bytes'
  obtain ⟨hdata, hspare⟩ := step_lengths h.plan i
  have hinD := step_inside h.plan hi (.inl rfl)
  have hinS := step_inside h.plan hi (.inr rfl)
  have hpos := h.plan.pos
  have hpage := h.plan.page
  have hoob := h.plan.oob
  have hroom : info.page_size.toNat+([0xff#8, 0xff#8] : List Byte).length ≤ bytes.length := by
    change info.page_size.toNat+2 ≤ _
    omega
  obtain ⟨hmain, hrest⟩ := hs
  rw [hdata] at hmain hrest hinD
  rw [hspare] at hrest hinS
  have hmarkD := marker_apart h.plan h.room hi (.inl rfl)
  have hmarkS := marker_apart h.plan h.room hi (.inr rfl)
  rw [hdata] at hmarkD
  rw [hspare] at hmarkS
  have hkeepD : slice bytes' (info.start (.data i)).toNat step.toNat =
      slice bytes (info.start (.data i)).toNat step.toNat := by
    apply slice_splice_of_apart hroom
    change _ ∨ info.page_size.toNat+2 ≤ _
    rcases hmarkD with hapart | ⟨hp, -⟩
    · omega
    · cases hp
  have hkeepE : slice bytes' ((info.start (.spare i)).toNat+4) (e.toNat-4) =
      slice bytes ((info.start (.spare i)).toNat+4) (e.toNat-4) := by
    apply slice_splice_of_apart hroom
    change _ ∨ info.page_size.toNat+2 ≤ _
    omega
  have hsplit := slice_take_append bytes (info.start (.spare i)).toNat e.toNat 4 (by omega)
  have hsplit' := slice_take_append bytes' (info.start (.spare i)).toNat e.toNat 4 (by omega)
  have hfour : (slice bytes (info.start (.spare i)).toNat 4).length = 4 :=
    slice_length (by omega)
  -- the spare bytes, and the ECC bytes behind them
  rw [hrest] at hsplit
  have htake : (block.drop step.toNat).take 4 = slice bytes (info.start (.spare i)).toNat 4 := by
    rw [hsplit, List.take_left' hfour]
  have hdrop : block.drop (step.toNat+4) =
      slice bytes ((info.start (.spare i)).toNat+4) (e.toNat-4) := by
    rw [← List.drop_drop, hsplit, List.drop_left' hfour]
  refine ⟨slice bytes' (info.start (.spare i)).toNat 4, ?_, fun hne => ?_, fun j hj hne hne' => ?_,
    ?_, ?_⟩
  · apply slice_length
    rw [splice_length hroom]
    omega
  · rw [htake]
    apply slice_splice_of_apart hroom
    change _ ∨ info.page_size.toNat+2 ≤ _
    rcases hmarkS with hapart | ⟨hp, -⟩
    · omega
    · cases hp
      exact absurd rfl hne
  · have hbyte : slice bytes' ((info.start (.spare i)).toNat+j) 1 =
        slice bytes ((info.start (.spare i)).toNat+j) 1 := by
      apply slice_splice_of_apart hroom
      change _ ∨ info.page_size.toNat+2 ≤ _
      omega
    have hfirst := congrArg (·[0]?) hbyte
    rw [slice_getElem?, slice_getElem?, if_pos Nat.one_pos, if_pos Nat.one_pos] at hfirst
    rw [htake, slice_getElem?, slice_getElem?, if_pos hj, if_pos hj]
    exact hfirst
  · rw [hdata, hkeepD, hmain]
  · rw [hspare, hsplit', hkeepE, hdrop]

/-- What a step is read back as. -/
theorem readStep_eq (h : Fits info bch g n step e) {i : ℕ} (hi : i < n) {data : List Byte}
    (hdata : data.length = step.toNat)
    (hs : Stored info bytes i (info.stepBlock bch env page data))
    (hlen : bytes.length = (info.page_size+info.oob_size).toNat) :
    ∃ spare ecc, info.readStep page (splice bytes info.page_size.toNat [0xff#8, 0xff#8]) i =
        data ++ spare ++ ecc ∧ spare.length = 4 ∧ (i ≠ 0 → spare = List.replicate 4 0xff#8) ∧
      (∀ j : ℕ, j < 4 → info.start (.spare i)+j ≠ info.page_size →
        info.start (.spare i)+j ≠ info.page_size+1 → spare[j]? = some 0xff#8) ∧
      ecc.length = info.eccbytes.toNat ∧ EccFor bch g (data ++ List.replicate 4 0xff#8) ecc := by
  obtain ⟨ecc, hblock, hecclen, hecc⟩ :=
    stepBlock_eq env page h.encoder h.ecc data
  obtain ⟨-, he⟩ := h.step_eq
  have hblen := stepBlock_length env page h.encoder h.ecc data
  have hblen' : (info.stepBlock bch env page data).length = step.toNat+e.toNat := by omega
  obtain ⟨mid, hmid, hsame, hplaces, hmain, hspare⟩ := hs.marker h hi hlen
  generalize info.stepBlock bch env page data = block at *
  have hparts : block = block.take step.toNat ++ (block.drop step.toNat).take 4 ++
      block.drop (step.toNat+4) := by
    rw [List.append_assoc, ← List.drop_drop, List.take_append_drop, List.take_append_drop]
  have hback : scramble info page (block.take step.toNat ++ (block.drop step.toNat).take 4 ++
      block.drop (step.toNat+4)) = data ++ List.replicate 4 0xff#8 ++ ecc := by
    rw [← hparts, hblock, scramble_scramble]
  have hlenX : data.length = (block.take step.toNat).length := by
    rw [List.length_take]
    omega
  have hlenY : ((block.drop step.toNat).take 4).length = 4 := by
    rw [List.length_take, List.length_drop]
    omega
  have hread : info.readStep page (splice bytes info.page_size.toNat [0xff#8, 0xff#8]) i =
      scramble info page (block.take step.toNat ++ mid ++ block.drop (step.toNat+4)) := by
    unfold ImageInfo.readStep
    rw [hmain, hspare, List.append_assoc]
  by_cases hzero : i = 0
  · obtain ⟨mid', hmid', hbytes, hscr⟩ := scramble_middle hback hlenX
      (by rw [List.length_replicate, hlenY]) (hmid.trans hlenY.symm)
    refine ⟨mid', ecc, hread.trans hscr, hmid'.trans hlenY, fun hne => absurd hzero hne,
      fun j hj hne hne' => ?_, hecclen, hecc⟩
    rw [hbytes j (hplaces j hj hne hne')]
    exact List.getElem?_replicate_of_lt hj
  · refine ⟨_, ecc, ?_, List.length_replicate, fun _ => rfl,
      fun j hj _ _ => List.getElem?_replicate_of_lt hj, hecclen, hecc⟩
    rw [hread, hsame hzero, hback]

end Marker

section Write

variable {info : ImageInfo} {bch : Bch.BchCodec} {env : Env} {page : ℤ} {g : (ZMod 2)[X]}
variable {n : ℕ} {step e : ℤ} {before bytes : List Byte}

/-- The sizes of a page as numbers of bytes. -/
theorem Fits.sizes (h : Fits info bch g n step e) :
    (info.usable_page_size%2^64).toNat = n*step.toNat ∧ info.usable_page_size.toNat = n*step.toNat ∧
    (toInt32 (info.page_size+info.oob_size)).toNat = (info.page_size+info.oob_size).toNat ∧
    n*step.toNat ≤ (info.page_size+info.oob_size).toNat ∧ info.steps.toNat = n ∧
    info.ecc_step_size.toNat = step.toNat ∧ 0 < n*step.toNat := by
  have hpos := h.plan.pos
  have hpage := h.plan.page
  have hoob := h.plan.oob
  have htotal := h.plan.total
  have hfits := h.plan.fits
  have hne : 0 ≤ (n : ℤ)*e := Int.mul_nonneg (by omega) (by omega)
  have hprod : ((n*step.toNat : ℕ) : ℤ) = n*step := by
    rw [Nat.cast_mul, Int.toNat_of_nonneg (by omega)]
  have husable := h.plan.usable
  have hstep := h.plan.stepSize
  have hone : 1*step.toNat ≤ n*step.toNat := Nat.mul_le_mul_right _ hpos.1
  rw [toInt32_of_lt (by omega) htotal, h.plan.steps, hstep, husable, Int.toNat_natCast, ← hprod]
  refine ⟨?_, ?_, rfl, ?_, rfl, rfl, ?_⟩
  · omega
  · omega
  · omega
  · omega

/-- The unused space is inside of the page. -/
theorem writeFiller_eq (env : Env) (page : ℤ) (h : Fits info bch g n step e) {s : Files}
    (hf : s.dst.bytes = before ++ bytes)
    (hlen : bytes.length = (info.page_size+info.oob_size).toNat) :
    (info.writeFiller env page before.length s).src = s.src ∧
    ∃ bytes', (info.writeFiller env page before.length s).dst.bytes = before ++ bytes' ∧
      bytes'.length = bytes.length := by
  obtain ⟨hlo, hhi, hend⟩ := filler_end h.plan
  have hroom {ys : List Byte} (hys : ys.length = (info.length .filler).toNat) :
      (info.start .filler).toNat+ys.length ≤ bytes.length := by
    rw [hys, hlen]
    omega
  unfold ImageInfo.writeFiller
  cases info.scramble with
  | false => exact ⟨rfl, bytes, hf, rfl⟩
  | true =>
    cases info.boot0 with
    | true =>
      have hys : (env.fread s.rnd (info.length .filler).toNat).length =
          (info.length .filler).toNat := by
        unfold Env.fread
        rw [List.length_map, List.length_range]
      exact ⟨rfl, _, fwrite_inside hf hlo (hroom hys), splice_length (hroom hys)⟩
    | false =>
      have hys : (scramble info page
          (List.replicate (info.length .filler).toNat 0xff#8)).length =
          (info.length .filler).toNat := by rw [scramble_length, List.length_replicate]
      exact ⟨rfl, _, fwrite_inside hf hlo (hroom hys), splice_length (hroom hys)⟩

theorem slice_all {bs : List Byte} {a k : ℕ} {b : Byte} (h : ∀ x ∈ bs, x = b)
    (hroom : a+k ≤ bs.length) : slice bs a k = List.replicate k b := by
  rw [List.eq_replicate_iff]
  exact ⟨slice_length hroom, fun x hx => h x (List.mem_of_mem_drop (List.mem_of_mem_take hx))⟩

/-- The part of the source for a step of a page. -/
theorem chunk_step {rest : List Byte} {i m : ℕ} (hi : i < n) :
    ((rest.take (n*m)).drop (i*m)).take m = (rest.drop (i*m)).take m := by
  have hle : (i+1)*m ≤ n*m := Nat.mul_le_mul_right m hi
  rw [Nat.succ_mul] at hle
  rw [List.drop_take, List.take_take, Nat.min_eq_left (by omega)]

/-- `write_page` reads what the geometry says, and writes a page that is read back as that part of
the source. -/
theorem writePage_eq (env : Env) (page : ℤ) (h : Fits info bch g n step e)
    (hg : ∀ buf ecc, EccFor bch g buf ecc → IsCodeword info.ecc_strength.toNat buf ecc) {s : Files}
    (hpos : s.dst.pos = s.dst.bytes.length) (hne : s.src.rest ≠ []) :
    (info.writePage bch env page s).src = info.pageSource s.src ∧
    (info.writePage bch env page s).dst.pos =
      (info.writePage bch env page s).dst.bytes.length ∧
    ∃ bytes, (info.writePage bch env page s).dst.bytes = s.dst.bytes ++ bytes ∧
      ReadsBack info page (s.src.rest.take info.usable_page_size.toNat) bytes := by
  obtain ⟨husable, husable', hsize, hfit, hsteps, hstep, hpositive⟩ := h.sizes
  have hpage := h.plan.page
  have hoob := h.plan.oob
  generalize hchunk : s.src.rest.take (n*step.toNat) = chunk
  have hclen : chunk.length ≤ n*step.toNat := by
    rw [← hchunk, List.length_take]
    exact Nat.min_le_left _ _
  have hcne : chunk ≠ [] := by
    rw [← hchunk]
    intro h0
    rcases List.take_eq_nil_iff.mp h0 with h0 | h0
    · omega
    · exact hne h0
  -- the page as it is written first
  generalize hfirst : chunk ++ List.replicate
    ((info.page_size+info.oob_size).toNat-chunk.length) 0xff#8 = first
  have hflen : first.length = (info.page_size+info.oob_size).toNat := by
    rw [← hfirst, List.length_append, List.length_replicate]
    omega
  have hfne : first ≠ [] := by
    intro h0
    rw [h0, List.length_nil] at hflen
    omega
  have hwrite : s.dst.fwrite first = ⟨s.dst.bytes ++ first, (s.dst.bytes ++ first).length⟩ := by
    unfold OutFile.fwrite splice
    rw [if_neg hfne, hpos, List.take_length, Nat.sub_self, List.replicate_zero, List.append_nil,
      List.drop_eq_nil_of_le (Nat.le_add_right _ _), List.append_nil, List.length_append]
  unfold ImageInfo.writePage ImageInfo.pageSource
  dsimp only [Source.fread]
  rw [husable, husable', hsize, hchunk, if_neg hcne, if_neg hcne, hfirst, hwrite, hsteps]
  by_cases hall : chunk.all (· = 0xff#8) = true
  · -- an empty page
    rw [if_pos hall, if_pos hall]
    have hff : ∀ b ∈ first, b = 0xff#8 := by
      intro b hb
      rw [← hfirst] at hb
      rcases List.mem_append.mp hb with hb | hb
      · exact of_decide_eq_true (List.all_eq_true.mp hall b hb)
      · exact List.eq_of_mem_replicate hb
    refine ⟨rfl, rfl, first, rfl, hflen, ?_, fun _ => hff, fun hsome => ?_⟩
    · exact slice_all hff (by rw [hflen]; omega)
    · obtain ⟨b, hb, hbne⟩ := hsome
      exact absurd (of_decide_eq_true (List.all_eq_true.mp hall b hb)) hbne
  · rw [if_neg hall, if_neg hall]
    obtain ⟨hsrc₁, bytes₁, hfile₁, hlen₁⟩ := writeFiller_eq env page h
      (s := { s with src := ⟨s.src.rest, false⟩,
                     dst := ⟨s.dst.bytes ++ first, (s.dst.bytes ++ first).length⟩ }) rfl hflen
    rw [hpos]
    generalize info.writeFiller env page s.dst.bytes.length _ = s₁ at hsrc₁ hfile₁ ⊢
    have hstart : StepsStored info bch env page s.dst.bytes s.src.rest step.toNat 0 s₁ bytes₁ :=
      ⟨hfile₁, hlen₁.trans hflen, hsrc₁, fun i hi => absurd hi (Nat.not_lt_zero i)⟩
    obtain ⟨bytes₂, hs₂⟩ := writeSteps_stored h hstart le_rfl
    generalize (List.range n).foldl _ s₁ = s₂ at hs₂ ⊢
    -- the marker
    have hroom : info.page_size.toNat+([0xff#8, 0xff#8] : List Byte).length ≤ bytes₂.length := by
      rw [hs₂.length]
      change info.page_size.toNat+2 ≤ _
      omega
    have hfile₃ := fwrite_inside hs₂.file hpage.le hroom
    have hseek {f : OutFile} : (f.fseek (s.dst.bytes.length+info.page_size+info.oob_size)).bytes =
        f.bytes ∧ (f.fseek (s.dst.bytes.length+info.page_size+info.oob_size)).pos =
          s.dst.bytes.length+(info.page_size+info.oob_size).toNat := by
      unfold OutFile.fseek
      rw [if_pos (by omega)]
      exact ⟨rfl, by dsimp only; omega⟩
    refine ⟨hs₂.src, ?_, splice bytes₂ info.page_size.toNat [0xff#8, 0xff#8], ?_, ?_⟩
    · rw [hseek.1, hseek.2, hfile₃, List.length_append, splice_length hroom, hs₂.length]
    · rw [hseek.1, hfile₃]
    · refine ⟨(splice_length hroom).trans hs₂.length, slice_splice hroom, fun hff => ?_,
        fun _ i hi => ?_⟩
      · exact absurd (List.all_eq_true.mpr fun b hb => decide_eq_true (hff b hb)) hall
      · rw [hsteps] at hi
        obtain ⟨padding, hpad, hstored⟩ := hs₂.stored i hi
        obtain ⟨spare, ecc, hread, hspare, hsame, hplaces, hecclen, hecc⟩ := readStep_eq h hi
          (by rw [List.length_append]; exact hpad.1) hstored hs₂.length
        refine ⟨padding, spare, ecc, ?_⟩
        dsimp only
        rw [hstep, ← hchunk, chunk_step hi]
        exact ⟨hread, hpad, hspare, hsame, hplaces, hecclen, hg _ _ hecc⟩

end Write

section Image

variable {info : ImageInfo} {bch : Bch.BchCodec} {env : Env} {g : (ZMod 2)[X]}
variable {n : ℕ} {step e : ℤ}

/-- The number of pages for some bytes, of `u` in each. -/
def pageCount (len u : ℕ) : ℕ := (len+u-1)/u

theorem pageCount_zero {u : ℕ} (hu : 0 < u) : pageCount 0 u = 0 := by
  unfold pageCount
  rw [Nat.zero_add]
  exact Nat.div_eq_of_lt (by omega)

theorem pageCount_succ {len u : ℕ} (hu : 0 < u) (hlen : 0 < len) :
    pageCount len u = pageCount (len-u) u+1 := by
  unfold pageCount
  by_cases hle : u ≤ len
  · rw [show len+u-1 = len-u+u-1+u by omega, Nat.add_div_right _ hu]
  · rw [show len-u = 0 by omega, Nat.zero_add, Nat.div_eq_of_lt (show u-1 < u by omega),
      Nat.div_eq_of_lt_le (k := 1) (by omega) (by omega)]

theorem freadSteps_eof {s : Source} {k : ℕ} (h : (info.freadSteps s k).eof = true) :
    s.eof = true ∨ s.rest.length < k*(info.ecc_step_size%2^64).toNat := by
  induction k with
  | zero => exact .inl h
  | succ k ih =>
    rw [freadSteps_succ] at h
    rcases Bool.or_eq_true_iff.mp h with h | h
    · rcases ih h with h | h
      · exact .inl h
      · right
        rw [Nat.succ_mul]
        omega
    · right
      have hlt := of_decide_eq_true h
      rw [freadSteps_rest, List.length_drop] at hlt
      rw [Nat.succ_mul]
      omega

/-- After a page, the rest of the source is what comes behind its part, and its end is met only
when there is no more. -/
theorem pageSource_eq (h : Fits info bch g n step e) {s : Source} (heof : s.eof = false) :
    (info.pageSource s).rest = s.rest.drop (n*step.toNat) ∧
    ((info.pageSource s).eof = true → (info.pageSource s).rest = []) := by
  obtain ⟨husable, -, -, -, hsteps, -, -⟩ := h.sizes
  obtain ⟨hstep, -⟩ := h.step_eq
  have hread : (s.fread (n*step.toNat)).2.eof = true → s.rest.drop (n*step.toNat) = [] := by
    intro h1
    change (s.eof || decide (s.rest.length < n*step.toNat)) = true at h1
    rw [heof, Bool.false_or] at h1
    exact List.drop_eq_nil_of_le (of_decide_eq_true h1).le
  unfold ImageInfo.pageSource
  rw [husable, hsteps]
  dsimp only
  split
  · exact ⟨rfl, hread⟩
  split
  · exact ⟨rfl, hread⟩
  · rw [freadSteps_rest, hstep]
    refine ⟨rfl, fun h1 => ?_⟩
    rcases freadSteps_eof h1 with h1 | h1
    · cases h1
    · rw [hstep] at h1
      exact List.drop_eq_nil_of_le h1.le

theorem slice_append_left {xs ys : List Byte} {k : ℕ} (h : xs.length = k) :
    slice (xs ++ ys) 0 k = xs := by
  unfold slice
  rw [List.drop_zero, List.take_left' h]

theorem slice_append_right {xs ys : List Byte} {a k : ℕ} :
    slice (xs ++ ys) (xs.length+a) k = slice ys a k := by
  unfold slice
  rw [List.drop_length_add_append]

theorem writePages_eof {s : Files} (heof : s.src.eof = true) (fuel : ℕ) (page : ℤ) :
    info.writePages bch env fuel page s = some s := by
  cases fuel with
  | zero => rw [ImageInfo.writePages, if_pos heof]
  | succ fuel => rw [ImageInfo.writePages, if_pos heof]

/-- The loop of `create_image`: one page for each part of the source, in order. -/
theorem writePages_eq (h : Fits info bch g n step e)
    (hg : ∀ buf ecc, EccFor bch g buf ecc → IsCodeword info.ecc_strength.toNat buf ecc)
    (env : Env) {fuel : ℕ} (page : ℤ) (s : Files) (hfuel : s.src.rest.length < fuel)
    (hpos : s.dst.pos = s.dst.bytes.length) (heof : s.src.eof = true → s.src.rest = []) :
    let u := info.usable_page_size.toNat
    let size := (info.page_size+info.oob_size).toNat
    ∃ s' out, info.writePages bch env fuel page s = some s' ∧ s'.dst.bytes = s.dst.bytes ++ out ∧
      out.length = pageCount s.src.rest.length u*size ∧
      ∀ k < pageCount s.src.rest.length u, ReadsBack info (toInt32 (page+k))
        ((s.src.rest.drop (k*u)).take u) (slice out (k*size) size) := by
  intro u size
  obtain ⟨husable, husable', -, -, -, -, hpositive⟩ := h.sizes
  have hu : u = n*step.toNat := husable'
  induction fuel generalizing page s with
  | zero => exact absurd hfuel (Nat.not_lt_zero _)
  | succ fuel ih =>
    by_cases hnil : s.src.rest = []
    · -- nothing is left to write
      have hdone : info.writePages bch env (fuel+1) page s =
          some { s with src := (info.writePages bch env (fuel+1) page s).elim s.src Files.src } := by
        rw [ImageInfo.writePages]
        cases hcase : s.src.eof with
        | true => rfl
        | false =>
          have hpage : info.writePage bch env (toInt32 page) s =
              { s with src := (s.src.fread (n*step.toNat)).2 } := by
            unfold ImageInfo.writePage
            dsimp only [Source.fread]
            rw [husable, hnil, List.take_nil, if_pos rfl]
          have hend : (s.src.fread (n*step.toNat)).2.eof = true := by
            change (s.src.eof || decide (s.src.rest.length < n*step.toNat)) = true
            rw [hnil, List.length_nil, decide_eq_true hpositive, Bool.or_true]
          rw [hpage, if_neg Bool.false_ne_true, writePages_eof hend]
          rfl
      rw [hnil, List.length_nil, pageCount_zero (by omega), Nat.zero_mul]
      exact ⟨_, [], hdone, (List.append_nil _).symm, rfl, fun k hk => absurd hk (Nat.not_lt_zero k)⟩
    · have hnot : s.src.eof = false := Bool.eq_false_iff.mpr fun h1 => hnil (heof h1)
      obtain ⟨hsrc, hpos', bytes, hbytes, hback⟩ :=
        writePage_eq env (toInt32 page) h hg hpos hnil
      obtain ⟨hrest, hend⟩ := pageSource_eq h hnot
      have hlenpos := List.length_pos_iff.mpr hnil
      have hless : (info.writePage bch env (toInt32 page) s).src.rest.length < fuel := by
        rw [hsrc, hrest, List.length_drop]
        omega
      obtain ⟨s', out, hrun, hout, hlen, hpages⟩ := ih (page+1) _ hless hpos'
        (by rw [hsrc]; exact hend)
      have hrest' : (info.writePage bch env (toInt32 page) s).src.rest = s.src.rest.drop u := by
        rw [hsrc, hrest, hu]
      rw [hrest', List.length_drop] at hlen hpages
      refine ⟨s', bytes ++ out, ?_, ?_, ?_, fun k hk => ?_⟩
      · rw [ImageInfo.writePages, hnot, if_neg Bool.false_ne_true]
        exact hrun
      · rw [hout, hbytes, List.append_assoc]
      · rw [pageCount_succ (by omega) hlenpos, List.length_append, hback.length, hlen, Nat.succ_mul,
          Nat.add_comm]
      · rw [pageCount_succ (by omega) hlenpos] at hk
        cases k with
        | zero =>
          rw [Nat.zero_mul, Nat.zero_mul, List.drop_zero, slice_append_left hback.length,
            Nat.cast_zero, Int.add_zero]
          exact hback
        | succ k =>
          have hpage := hpages k (by omega)
          rw [List.drop_drop] at hpage
          rw [Nat.succ_mul, Nat.succ_mul, Nat.add_comm (k*u), Nat.add_comm (k*size),
            show size = bytes.length from hback.length.symm, slice_append_right,
            show page+((k+1 : ℕ) : ℤ) = page+1+k by rw [Nat.cast_succ]; ring]
          rw [show bytes.length = size from hback.length]
          exact hpage

end Image

section Options

variable {o : Options}

theorem strength_mem (h : o.info.check = .ok ()) : o.info.ecc_strength ∈ valid_ecc_strengths := by
  by_contra hnot
  unfold ImageInfo.check at h
  rw [if_pos hnot] at h
  split_ifs at h

/-- The BCH code of each strength: its parity is in the ECC bytes, and leaves room for data. -/
theorem strength_fits {info : ImageInfo} (h : info.ecc_strength ∈ valid_ecc_strengths) :
    Bch.DIV_ROUND_UP (14*info.ecc_strength.toNat) 8 ≤ info.eccbytes.toNat ∧
    1 ≤ info.ecc_strength ∧ 14*info.ecc_strength < 2^14-1 := by
  unfold ImageInfo.eccbytes
  generalize info.ecc_strength = n at h
  revert n
  decide

/-- `init_bch` succeeds for each strength. -/
theorem init_strength {info : ImageInfo} {fuel : ℕ} (h : info.ecc_strength ∈ valid_ecc_strengths)
    (hfuel : 2^20 ≤ fuel) :
    ∃ bch, Bch.initBch fuel 14 info.ecc_strength Bch.BCH_PRIMITIVE_POLY = .ok bch ∧
      bch.m = 14 ∧ bch.t = info.ecc_strength.toNat ∧
      Bch.Initialised bch Bch.BCH_PRIMITIVE_POLY := by
  obtain ⟨-, hone, hroom⟩ := strength_fits h
  have hpoly : Bch.primPoly (14 : ℤ).toNat Bch.BCH_PRIMITIVE_POLY = Bch.BCH_PRIMITIVE_POLY := rfl
  rcases @Bch.initBch_cases fuel 14 info.ecc_strength Bch.BCH_PRIMITIVE_POLY hfuel rfl with ⟨bch, hok, -, hm, ht, hinit⟩ | ⟨-, hnot⟩
  · rw [hpoly] at hinit
    exact ⟨bch, hok, hm, ht, hinit⟩
  · exact absurd ⟨by decide, by decide, hone, hroom, Bch.brom_primitive.1, Bch.brom_primitive.2⟩ hnot

/-- `create_image` finishes for each image that the check takes and whose page is regular. The
image has one page for each part of the source, and read back with the same layout each page is that
part, with its padding, in words of the BCH code. -/
theorem createFile_reads_back (hcheck : o.info.check = .ok ()) (hr : o.info.Regular) (env : Env)
    (src : List Byte) {fuel : ℕ} (hfuel : 2^20 ≤ fuel) (hlen : src.length < fuel) :
    let u := o.info.usable_page_size.toNat
    let size := (o.info.page_size+o.info.oob_size).toNat
    ∃ bytes, o.info.createFile env fuel src = .ok bytes ∧
      bytes.length = pageCount src.length u*size ∧
      ∀ k < pageCount src.length u,
        ReadsBack o.info (toInt32 (o.info.offset.tdiv o.info.page_size+k))
          ((src.drop (k*u)).take u) (slice bytes (k*size) size) := by
  intro u size
  have hmem := strength_mem hcheck
  obtain ⟨hparity, -, -⟩ := strength_fits hmem
  obtain ⟨bch, hinit, hm, ht, h⟩ := init_strength hmem hfuel
  have ha := accepted hcheck
  obtain ⟨n, step, e, hplan⟩ := plan ha (page_pos ha hr) hr.pos hr.whole hr.oob hr.sums
  have hbytes : bch.eccBytes = Bch.DIV_ROUND_UP (14*o.info.ecc_strength.toNat) 8 := by
    unfold Bch.BchCodec.eccBytes
    rw [hm, ht]
  have hfits : Fits o.info bch (Bch.generator Bch.BCH_PRIMITIVE_POLY.toNat bch.t) n step e :=
    ⟨hplan, h.encoder, hbytes.trans_le hparity, hr.boot0⟩
  have hg (buf ecc : List Byte)
      (hecc : EccFor bch (Bch.generator Bch.BCH_PRIMITIVE_POLY.toNat bch.t) buf ecc) :
      IsCodeword o.info.ecc_strength.toNat buf ecc := by
    intro j h1 hj
    rw [← hbytes]
    exact Bch.codeword_roots h hecc h1 (by rw [ht]; exact hj)
  obtain ⟨s', out, hrun, hout, hlength, hpages⟩ := writePages_eq hfits hg env
    (o.info.offset.tdiv o.info.page_size) ⟨⟨src, false⟩, ⟨[], 0⟩, 0⟩ hlen rfl
    (fun heof => by cases heof)
  refine ⟨out, ?_, hlength, hpages⟩
  unfold ImageInfo.createFile
  rw [hinit]
  dsimp only
  rw [hrun]
  exact congrArg Except.ok hout

/-- The boot0 image that the help text describes, of three bytes: its one page is read back. -/
theorem createFile_reads_back_help : ∃ bytes,
    helpBoot0.info.createFile ⟨0, fun _ => 0x5a#8⟩ (2^20) [1#8, 2#8, 3#8] = .ok bytes ∧
    bytes.length = (helpBoot0.info.page_size+helpBoot0.info.oob_size).toNat ∧
    ReadsBack helpBoot0.info 0 [1#8, 2#8, 3#8] bytes := by
  obtain ⟨bytes, hrun, hlen, hpages⟩ := @createFile_reads_back helpBoot0 (by decide +kernel)
    (by constructor <;> decide +kernel) ⟨0, fun _ => 0x5a#8⟩ [1#8, 2#8, 3#8] (2^20) le_rfl
    (by change 3 < 2^20; decide)
  have hone : pageCount ([1#8, 2#8, 3#8] : List Byte).length
      helpBoot0.info.usable_page_size.toNat = 1 := by decide +kernel
  rw [hone] at hpages
  rw [hone, Nat.one_mul] at hlen
  have hpage := hpages 0 Nat.one_pos
  have hnumber : toInt32 (helpBoot0.info.offset.tdiv helpBoot0.info.page_size+((0 : ℕ) : ℤ)) = 0 := by
    decide +kernel
  have hsource : ([1#8, 2#8, 3#8] : List Byte).take helpBoot0.info.usable_page_size.toNat =
      [1#8, 2#8, 3#8] := by decide +kernel
  have hall : slice bytes 0 (helpBoot0.info.page_size+helpBoot0.info.oob_size).toNat = bytes := by
    rw [← hlen]
    exact List.take_length
  rw [hnumber, Nat.zero_mul, Nat.zero_mul, List.drop_zero, hsource, hall] at hpage
  exact ⟨bytes, hrun, hlen, hpage⟩

end Options

end ChipTools.NandImage
