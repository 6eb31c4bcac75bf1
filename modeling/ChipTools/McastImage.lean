import ChipTools.Crc32
import ChipTools.Loop
import Mathlib.Algebra.BigOperators.Intervals
import Mathlib.Algebra.Order.BigOperators.Group.Finset

/-! `serve_image` and `recv_image`: an image sent in packets of a forward error code, staged in the
flash as the packets come, and decoded and written in place at the end. -/
namespace ChipTools.Mcast
open Bytes Loop

def PKT_SIZE : ℕ := 2820
def WBUF_SIZE : ℕ := 4096

/-- A packet, with the numbers of its header in host order. -/
structure Packet where
  totcrc : BitVec 32
  nr_blocks : ℕ
  blocksize : ℕ
  block_crc : BitVec 32
  block_nr : ℕ
  pkt_nr : ℕ
  nr_pkts : ℕ
  thiscrc : BitVec 32
  data : List Byte
deriving DecidableEq

def pktsPerBlock (erasesize : ℕ) : ℕ := (erasesize+PKT_SIZE-1)/PKT_SIZE

section Serve

/-- The image and the code. `fec_encode` makes the packet of an index from the data of a block. -/
structure Server where
  image : List Byte
  erasesize : ℕ
  fec_encode : List Byte → ℕ → List Byte

namespace Server

variable (srv : Server)

def pkts_per_block : ℕ := pktsPerBlock srv.erasesize
def total_pkts_per_block : ℕ := srv.pkts_per_block*3/2
def nr_blocks : ℕ := srv.image.length/srv.erasesize

/-- The offset of a block in the image, a product of 32 bits. -/
def blockOffset (block_nr : ℕ) : ℕ := srv.erasesize*block_nr%2^32

/-- The last block with the zeroes behind it. -/
def last_block : List Byte :=
  (srv.image.drop (srv.blockOffset (srv.nr_blocks-1))).take srv.erasesize ++
    List.replicate (PKT_SIZE*srv.pkts_per_block-srv.erasesize) 0

/-- The data of a block. The packets of all but the last run on into the next block. -/
def blockptr (block_nr : ℕ) : List Byte :=
  if block_nr = srv.nr_blocks-1 then srv.last_block
  else (srv.image.drop (srv.blockOffset block_nr)).take (PKT_SIZE*srv.pkts_per_block)

def block_crc (block_nr : ℕ) : BitVec 32 :=
  mtdCrc32 (-1) ((srv.image.drop (srv.blockOffset block_nr)).take srv.erasesize)

def payload (block_nr pkt_nr : ℕ) : List Byte := srv.fec_encode (srv.blockptr block_nr) pkt_nr

def packet (block_nr pkt_nr : ℕ) : Packet :=
  { totcrc := mtdCrc32 (-1) srv.image
    nr_blocks := srv.nr_blocks
    blocksize := srv.erasesize
    block_crc := srv.block_crc block_nr
    block_nr := block_nr
    pkt_nr := pkt_nr
    nr_pkts := srv.total_pkts_per_block
    thiscrc := mtdCrc32 (-1) (srv.payload block_nr pkt_nr)
    data := srv.payload block_nr pkt_nr }

/-- The packet of a round: the blocks of even number are sent backwards. -/
def actualpkt (block_nr pkt_nr : ℕ) : ℕ :=
  if block_nr%2 = 1 then pkt_nr else srv.total_pkts_per_block-1-pkt_nr

/-- The packets of one cycle; they are sent again and again. -/
def cycle : List Packet :=
  (List.range srv.total_pkts_per_block).flatMap fun pkt_nr =>
    (List.range srv.nr_blocks).map fun block_nr =>
      srv.packet block_nr (srv.actualpkt block_nr pkt_nr)

end Server

end Serve

/-- The flash, or the file in its place. The numbers are of type `uint32_t`, and the size of a device
is a multiple of its erasesize. -/
structure Meminfo where
  file_mode : Bool
  erasesize : ℕ
  size : ℕ
  bad : ℕ → Bool
  size_mod : size%erasesize = 0
  size_lt : size < 2^32
  erasesize_lt : erasesize < 2^32

inductive Exit
  | erasesizeMismatch
  | noMemory
  | outOfSpace
  | imageCrcChanged
  | erroneousBlock
  | wild
  | packetWrite
  | memErase
  | unreadable
  | fecDecode
  | crcMismatch
  | decodedWrite
  | trying
deriving DecidableEq, Repr

/-- What is printed. Nothing is for a block in front of the array, where the run has no meaning. -/
def Exit.msg : Exit → String
  | .erasesizeMismatch => "Erasesize mismatch (0x%x not 0x%x)"
  | .noMemory => "No memory for block map"
  | .outOfSpace => "Run out of space on flash"
  | .imageCrcChanged => "Image CRC changed from 0x%x to 0x%x. Aborting"
  | .erroneousBlock => "Erroneous block_nr %d (> %d)"
  | .wild => ""
  | .packetWrite => "short write of packet wbuf"
  | .memErase => "MEMERASE"
  | .unreadable => "Packets we wrote to flash seem to be unreadable. Aborting"
  | .fecDecode => "The world is broken. fec_decode() returned error"
  | .crcMismatch => "CRC mismatch for block #%d: want %08x got %08x"
  | .decodedWrite => "short write of decoded data"
  | .trying => "Will try again at %08lx..."

namespace Meminfo

variable (m : Meminfo)

def pkts_per_block : ℕ := pktsPerBlock m.erasesize

/-- `MEMGETBADBLOCK`, which is an error behind the device. -/
def isBad (offset : ℕ) : Bool := offset < m.size && m.bad offset

/-- The loop over bad blocks, with the size as a bound on its passes. -/
def skipBad : ℕ → ℕ → ℕ
  | 0, offset => offset
  | fuel+1, offset => if m.isBad offset then skipBad fuel (offset+m.erasesize) else offset

/-- A good block for one that is moved. -/
def nextGood (mtdoffset : ℕ) : Except Exit ℕ :=
  if m.size ≤ mtdoffset then .error .outOfSpace
  else
    let offset := m.skipBad m.size mtdoffset
    if m.size ≤ offset then .error .outOfSpace else .ok offset

/-- How many of `len` bytes `pwrite` stores when the medium takes `written` of them. -/
def stores (offset len written : ℕ) : ℕ :=
  if m.file_mode then min written len else min (min written len) (m.size-offset)

/-- `MEMERASE` of one eraseblock. -/
def memErase (ok : Bool) (flash : ℕ → Byte) (start : ℕ) : Except Exit (ℕ → Byte) :=
  if !ok ∨ start%m.erasesize ≠ 0 ∨ m.size ≤ start then .error .memErase
  else .ok (setTo flash start m.erasesize 0xff#8)

end Meminfo

/-- `struct eraseblock`. The buffer is kept up to `wbuf_ofs`, the indices up to the end of their
array; `home` is the offset that the block was given. -/
structure Eraseblock where
  flash_offset : ℕ
  wbuf : List Byte
  nr_pkts : ℕ
  pkt_indices : List ℕ
  crc : BitVec 32
  home : ℕ

namespace Eraseblock

/-- A block that was given an offset. -/
def fresh (crc : BitVec 32) (offset : ℕ) : Eraseblock :=
  ⟨offset%2^32, [], 0, [], crc, offset%2^32⟩

def count (eb : Eraseblock) (pkt_nr : ℕ) : Eraseblock :=
  { eb with nr_pkts := eb.nr_pkts+1, pkt_indices := eb.pkt_indices ++ [pkt_nr] }

def buffer (eb : Eraseblock) (data : List Byte) : Eraseblock := { eb with wbuf := eb.wbuf ++ data }

/-- The offset behind a buffer that was written. -/
def advance (flash_offset : ℕ) : ℕ := (flash_offset+WBUF_SIZE)%2^32

theorem advance_eq (flash_offset : ℕ) : advance flash_offset = (flash_offset+WBUF_SIZE)%2^32 := rfl

attribute [irreducible] advance

/-- After the buffer was written: it holds what is left of the packet. -/
def flush (eb : Eraseblock) (rest : List Byte) : Eraseblock :=
  { eb with flash_offset := advance eb.flash_offset, wbuf := rest }

def extra (eb : Eraseblock) : Eraseblock := { eb with nr_pkts := eb.nr_pkts+1 }

def withCrc (eb : Eraseblock) (crc : BitVec 32) : Eraseblock := { eb with crc := crc }

def withOffset (eb : Eraseblock) (offset : ℕ) : Eraseblock :=
  { eb with flash_offset := offset%2^32 }

section Fields

variable (eb : Eraseblock) (i offset : ℕ) (data : List Byte) (c : BitVec 32)

@[simp] theorem count_home : (eb.count i).home = eb.home := rfl
@[simp] theorem count_wbuf : (eb.count i).wbuf = eb.wbuf := rfl
@[simp] theorem count_flash_offset : (eb.count i).flash_offset = eb.flash_offset := rfl
@[simp] theorem count_nr_pkts : (eb.count i).nr_pkts = eb.nr_pkts+1 := rfl
@[simp] theorem count_pkt_indices : (eb.count i).pkt_indices = eb.pkt_indices ++ [i] := rfl
@[simp] theorem buffer_home : (eb.buffer data).home = eb.home := rfl
@[simp] theorem buffer_wbuf : (eb.buffer data).wbuf = eb.wbuf ++ data := rfl
@[simp] theorem buffer_flash_offset : (eb.buffer data).flash_offset = eb.flash_offset := rfl
@[simp] theorem buffer_nr_pkts : (eb.buffer data).nr_pkts = eb.nr_pkts := rfl
@[simp] theorem buffer_pkt_indices : (eb.buffer data).pkt_indices = eb.pkt_indices := rfl
@[simp] theorem flush_home : (eb.flush data).home = eb.home := rfl
@[simp] theorem flush_wbuf : (eb.flush data).wbuf = data := rfl
@[simp] theorem flush_flash_offset :
    (eb.flush data).flash_offset = advance eb.flash_offset := rfl
@[simp] theorem flush_nr_pkts : (eb.flush data).nr_pkts = eb.nr_pkts := rfl
@[simp] theorem flush_pkt_indices : (eb.flush data).pkt_indices = eb.pkt_indices := rfl
@[simp] theorem fresh_home : (fresh c offset).home = offset%2^32 := rfl
@[simp] theorem fresh_wbuf : (fresh c offset).wbuf = [] := rfl
@[simp] theorem fresh_flash_offset : (fresh c offset).flash_offset = offset%2^32 := rfl
@[simp] theorem fresh_nr_pkts : (fresh c offset).nr_pkts = 0 := rfl
@[simp] theorem fresh_pkt_indices : (fresh c offset).pkt_indices = [] := rfl

end Fields

end Eraseblock

/-- The variables of `main` from the first packet on. -/
structure Recv where
  image_crc : BitVec 32
  nr_blocks : ℕ
  eraseblocks : ℕ → Eraseblock
  mtdoffset : ℕ
  total_pkts : ℕ
  flash : ℕ → Byte

namespace Recv

def update (s : Recv) (b : ℕ) (eb : Eraseblock) : Recv :=
  { s with eraseblocks := Function.update s.eraseblocks b eb }

def withFlash (s : Recv) (flash : ℕ → Byte) : Recv := { s with flash := flash }

def withTotal (s : Recv) (total_pkts : ℕ) : Recv := { s with total_pkts := total_pkts }

def withCursor (s : Recv) (mtdoffset : ℕ) : Recv := { s with mtdoffset := mtdoffset }

end Recv

/-- A packet with what the device answers while it is handled: how much `pwrite` stores of the
buffer and whether `MEMERASE` succeeds. `stray` says that the search for the index finds it in the
memory behind the array, where it reads once there were more packets than needed. -/
structure Arrival where
  pkt : Packet
  stray : Bool
  written : ℕ
  erase : Bool

section Receive

variable (m : Meminfo)

/-- The offset of one block. -/
def allocate (i : ℕ) (s : Recv) : Except Exit Recv :=
  if m.file_mode then
    .ok ((s.update i (.fresh 0 s.mtdoffset)).withCursor (s.mtdoffset+m.erasesize))
  else if m.size ≤ s.mtdoffset then .error .outOfSpace
  else
    let offset := m.skipBad m.size s.mtdoffset
    .ok ((s.update i (.fresh 0 offset)).withCursor (offset+m.erasesize))

/-- What the first packet does. -/
def start (flash : ℕ → Byte) (p : Packet) : Except Exit Recv :=
  if m.erasesize ≠ p.blocksize then .error .erasesizeMismatch
  -- the number is an `int`, and there is no memory for a negative one
  else if 2^31 ≤ p.nr_blocks then .error .noMemory
  else forRange (allocate m) p.nr_blocks 0
    ⟨p.totcrc, p.nr_blocks, fun _ => .fresh 0 0, 0, 0, flash⟩

/-- The start of the erase after a failed write. -/
def eraseStart (eb : Eraseblock) : ℕ :=
  eb.flash_offset-(eb.flash_offset &&& (m.erasesize-1))

/-- A block after a failed write: it is erased, and starts again elsewhere with this packet. The
buffer is empty then, so the packet goes to it. -/
def relocate (s : Recv) (a : Arrival) (eb : Eraseblock) : Except Exit Recv := do
  let flash ← m.memErase a.erase s.flash (eraseStart m eb)
  let offset ← m.nextGood s.mtdoffset
  let eb' := ((Eraseblock.fresh eb.crc offset).count a.pkt.pkt_nr).buffer a.pkt.data
  .ok ((((s.update a.pkt.block_nr eb').withFlash flash).withTotal
    (s.total_pkts-eb.nr_pkts+1)).withCursor (offset+m.erasesize))

/-- From `pkt_again` on. -/
def pktAgain (s : Recv) (a : Arrival) : Except Exit Recv :=
  let b := a.pkt.block_nr
  let eb := (s.eraseblocks b).count a.pkt.pkt_nr
  let s := s.withTotal (s.total_pkts+1)
  if eb.wbuf.length+PKT_SIZE < WBUF_SIZE then .ok (s.update b (eb.buffer a.pkt.data))
  else
    let fits := WBUF_SIZE-eb.wbuf.length
    let page := eb.wbuf ++ a.pkt.data.take fits
    let wrotelen := m.stores eb.flash_offset WBUF_SIZE a.written
    let s := s.withFlash (copyTo s.flash eb.flash_offset (page.take wrotelen))
    if wrotelen < WBUF_SIZE then
      if m.file_mode then .error .packetWrite else relocate m s a eb
    else .ok (s.update b (eb.flush (a.pkt.data.drop fits)))

/-- The end of a pass. The loop is left with the last packet of all. -/
def settle (p : Packet) (s : Recv) : Bool × Recv :=
  let eb := s.eraseblocks p.block_nr
  if eb.nr_pkts = m.pkts_per_block then
    (s.total_pkts = s.nr_blocks*m.pkts_per_block, s.update p.block_nr (eb.withCrc p.block_crc))
  else (false, s)

/-- A packet whose index was seen before. -/
def duplicate (eb : Eraseblock) (a : Arrival) : Prop :=
  a.pkt.pkt_nr ∈ eb.pkt_indices ∨ (m.pkts_per_block < eb.nr_pkts ∧ a.stray = true)

instance (eb : Eraseblock) (a : Arrival) : Decidable (duplicate m eb a) :=
  inferInstanceAs (Decidable (_ ∨ _))

/-- A pass of the loop for one packet, and whether it is the last one. -/
def admitPkt (s : Recv) (a : Arrival) : Except Exit (Bool × Recv) :=
  let p := a.pkt
  if s.image_crc ≠ p.totcrc then .error .imageCrcChanged
  -- as an `int` it is negative, and the comparison with the number of blocks lets it pass
  else if 2^31 ≤ p.block_nr then .error .wild
  else if s.nr_blocks ≤ p.block_nr then .error .erroneousBlock
  else
    let eb := s.eraseblocks p.block_nr
    if duplicate m eb a then .ok (false, s)
    else if m.pkts_per_block ≤ eb.nr_pkts then .ok (false, s.update p.block_nr eb.extra)
    else if mtdCrc32 (-1) p.data ≠ p.thiscrc then .ok (false, s)
    else
      match pktAgain m s a with
      | .error e => .error e
      | .ok s => .ok (settle m p s)

/-- What `read` of the socket gives. -/
inductive Read
  | error
  | short
  | packet (a : Arrival)

/-- Before the first packet there is only the flash. -/
inductive Phase
  | waiting (flash : ℕ → Byte)
  | receiving (s : Recv)

def begin (st : Phase) (p : Packet) : Except Exit Recv :=
  match st with
  | .waiting flash => start m flash p
  | .receiving s => .ok s

inductive Result
  | exit (e : Exit)
  | left (st : Phase)
  | more (st : Phase)

/-- The receive loop over the reads of the socket. -/
def recvLoop : Phase → List Read → Result
  | st, [] => .more st
  | st, .error :: _ => .left st
  | st, .short :: reads => recvLoop st reads
  | st, .packet a :: reads =>
    match begin m st a.pkt with
    | .error e => .exit e
    | .ok s =>
      match admitPkt m s a with
      | .error e => .exit e
      | .ok (true, s) => .left (.receiving s)
      | .ok (false, s) => recvLoop (.receiving s) reads

end Receive

section Finish

/-- A try to write a decoded block, and the erase after it if it fails. -/
structure Try where
  written : ℕ
  erase : Bool

/-- The answers of the device for one block at the end. -/
structure BlockEnv where
  read : Bool
  erase : Bool
  tries : List Try

/-- The variables of the second part of `main`, with the eraseblocks that each image block has
erased or written. -/
structure Final where
  eraseblocks : ℕ → Eraseblock
  mtdoffset : ℕ
  flash : ℕ → Byte
  log : List (ℕ × ℕ)

def Final.moveTo (s : Final) (b offset : ℕ) : Final :=
  { s with
    eraseblocks := Function.update s.eraseblocks b ((s.eraseblocks b).withOffset offset) }

def Final.touch (s : Final) (b offset : ℕ) (flash : ℕ → Byte) : Final :=
  { s with flash := flash, log := s.log ++ [(b, offset)] }

variable (m : Meminfo) (fec_decode : List ℕ → List Byte → Option (List Byte))

/-- From `write_again` on. -/
def writeAgain (b : ℕ) (data : List Byte) : List Try → Final → Except Exit Final
  | [], _ => .error .trying
  | t :: tries, s =>
    let offset := (s.eraseblocks b).flash_offset
    let rwlen := m.stores offset m.erasesize t.written
    let s := s.touch b offset (copyTo s.flash offset (data.take rwlen))
    if rwlen < m.erasesize then
      if m.file_mode then .error .decodedWrite
      else
        match m.memErase t.erase s.flash offset with
        | .error e => .error e
        | .ok flash =>
          match m.nextGood s.mtdoffset with
          | .error e => .error e
          | .ok next =>
            -- the block is moved to the cursor, which stays where it is
            writeAgain b data tries
              { (s.touch b offset flash).moveTo b next with mtdoffset := next }
    else .ok s

/-- The start of a complete block, from the offset behind its packets. -/
def startOffset (eb : Eraseblock) : ℕ := (eb.flash_offset+2^32-m.erasesize)%2^32

/-- One block: its packets are read back and decoded, and the data goes to their place. -/
def finishBlock (envs : ℕ → BlockEnv) (b : ℕ) (s : Final) : Except Exit Final :=
  let eb := s.eraseblocks b
  let offset := startOffset m eb
  let s := s.moveTo b offset
  if !(envs b).read then .error .unreadable
  else
    match fec_decode eb.pkt_indices (readBytes s.flash offset m.erasesize ++ eb.wbuf) with
    | none => .error .fecDecode
    | some decode_buf =>
      let data := decode_buf.take m.erasesize
      if mtdCrc32 (-1) data ≠ eb.crc then .error .crcMismatch
      else if m.file_mode then writeAgain m b data (envs b).tries s
      else
        match m.memErase (envs b).erase s.flash offset with
        | .error e => .error e
        | .ok flash => writeAgain m b data (envs b).tries (s.touch b offset flash)

/-- The second part of `main`. -/
def finish (envs : ℕ → BlockEnv) (s : Recv) : Except Exit Final :=
  forRange (finishBlock m fec_decode envs) s.nr_blocks 0
    ⟨s.eraseblocks, s.mtdoffset, s.flash, []⟩

end Finish

section Placed

variable {m : Meminfo} {eb : Eraseblock}

/-- The bytes of a block that are in the flash: all full buffers. -/
def Eraseblock.flushed (eb : Eraseblock) : ℕ :=
  eb.pkt_indices.length*PKT_SIZE/WBUF_SIZE*WBUF_SIZE

/-- The counters of one block are in step: the number of its packets says how much is in the
buffer, and how much behind the offset that it was given. -/
structure BlockPlaced (m : Meminfo) (eb : Eraseblock) : Prop where
  length : eb.pkt_indices.length = min eb.nr_pkts m.pkts_per_block
  wbuf : eb.wbuf.length = eb.pkt_indices.length*PKT_SIZE%WBUF_SIZE
  offset : eb.flash_offset = (eb.home+eb.flushed)%2^32
  home_mod : eb.home%m.erasesize = 0
  home_lt : eb.home < 2^32
  file : m.file_mode = true → eb.home+m.erasesize ≤ 2^32
  top : m.file_mode = false → eb.flushed ≠ 0 → eb.home+eb.flushed ≤ m.size

theorem BlockPlaced.fresh (crc : BitVec 32) {offset : ℕ} (hmod : offset%m.erasesize = 0)
    (hlt : offset < 2^32) (hfile : m.file_mode = true → offset+m.erasesize ≤ 2^32) :
    BlockPlaced m (.fresh crc offset) := by
  have hhome : offset%2^32 = offset := Nat.mod_eq_of_lt hlt
  have hflush : (Eraseblock.fresh crc offset).flushed = 0 := by simp [Eraseblock.flushed]
  refine ⟨by simp, by simp, ?_, ?_, ?_, ?_, fun _ h => absurd hflush h⟩ <;>
    simp only [hflush, Eraseblock.fresh_home, Eraseblock.fresh_flash_offset, hhome]
  · exact hhome.symm
  · exact hmod
  · exact hlt
  · exact hfile

theorem BlockPlaced.extra (h : BlockPlaced m eb) (hn : m.pkts_per_block ≤ eb.nr_pkts) :
    BlockPlaced m eb.extra := by
  refine ⟨?_, h.wbuf, h.offset, h.home_mod, h.home_lt, h.file, h.top⟩
  have hlen := h.length
  change eb.pkt_indices.length = min (eb.nr_pkts+1) m.pkts_per_block
  omega

theorem BlockPlaced.withCrc (h : BlockPlaced m eb) (crc : BitVec 32) :
    BlockPlaced m (eb.withCrc crc) :=
  ⟨h.length, h.wbuf, h.offset, h.home_mod, h.home_lt, h.file, h.top⟩

theorem BlockPlaced.length_lt (h : BlockPlaced m eb) (hn : eb.nr_pkts < m.pkts_per_block) :
    eb.pkt_indices.length = eb.nr_pkts := by
  have := h.length
  omega

/-- The offset is not cut to 32 bits before the block is complete. -/
theorem BlockPlaced.offset_eq (h : BlockPlaced m eb) (hf : m.file_mode = false) :
    eb.flash_offset = eb.home+eb.flushed := by
  have hsize := m.size_lt
  have hhome := h.home_lt
  rw [h.offset]
  apply Nat.mod_eq_of_lt
  by_cases h0 : eb.flushed = 0
  · omega
  · have := h.top hf h0
    omega

theorem BlockPlaced.buffer (h : BlockPlaced m eb) (hn : eb.nr_pkts < m.pkts_per_block)
    (hfit : eb.wbuf.length+PKT_SIZE < WBUF_SIZE) (i : ℕ) {data : List Byte}
    (hd : data.length = PKT_SIZE) : BlockPlaced m ((eb.count i).buffer data) ∧
      ((eb.count i).buffer data).flushed = eb.flushed := by
  have hlen := h.length_lt hn
  have hw := h.wbuf
  have hcount : ((eb.count i).buffer data).pkt_indices.length = eb.pkt_indices.length+1 := by simp
  have hflush : ((eb.count i).buffer data).flushed = eb.flushed := by
    unfold Eraseblock.flushed
    rw [hcount]
    unfold PKT_SIZE WBUF_SIZE at *
    omega
  refine ⟨⟨?_, ?_, ?_, h.home_mod, h.home_lt, h.file, ?_⟩, hflush⟩
  · rw [hcount, Eraseblock.buffer_nr_pkts, Eraseblock.count_nr_pkts]
    omega
  · rw [hcount, Eraseblock.buffer_wbuf, Eraseblock.count_wbuf, List.length_append, hd]
    unfold PKT_SIZE WBUF_SIZE at *
    omega
  · rw [hflush]
    exact h.offset
  · rw [hflush]
    exact h.top

theorem BlockPlaced.flush (h : BlockPlaced m eb) (hn : eb.nr_pkts < m.pkts_per_block)
    (hfull : WBUF_SIZE ≤ eb.wbuf.length+PKT_SIZE) (i : ℕ) {rest : List Byte}
    (hrest : rest.length = eb.wbuf.length+PKT_SIZE-WBUF_SIZE)
    (htop : m.file_mode = false → eb.flash_offset+WBUF_SIZE ≤ m.size) :
    BlockPlaced m ((eb.count i).flush rest) ∧
      ((eb.count i).flush rest).flushed = eb.flushed+WBUF_SIZE := by
  have hlen := h.length_lt hn
  have hw := h.wbuf
  have hcount : ((eb.count i).flush rest).pkt_indices.length = eb.pkt_indices.length+1 := by simp
  have hflush : ((eb.count i).flush rest).flushed = eb.flushed+WBUF_SIZE := by
    unfold Eraseblock.flushed
    rw [hcount]
    unfold PKT_SIZE WBUF_SIZE at *
    omega
  have hhome : ((eb.count i).flush rest).home = eb.home := by
    rw [Eraseblock.flush_home, Eraseblock.count_home]
  refine ⟨⟨?_, ?_, ?_, ?_, ?_, ?_, ?_⟩, hflush⟩
  · rw [hcount, Eraseblock.flush_nr_pkts, Eraseblock.count_nr_pkts]
    omega
  · rw [hcount, Eraseblock.flush_wbuf, hrest]
    unfold PKT_SIZE WBUF_SIZE at *
    omega
  · have hoff : ((eb.count i).flush rest).flash_offset = (eb.home+eb.flushed+WBUF_SIZE)%2^32 := by
      rw [Eraseblock.flush_flash_offset, Eraseblock.count_flash_offset, Eraseblock.advance_eq,
        h.offset, Nat.mod_add_mod]
    rw [hflush, hhome, hoff, Nat.add_assoc]
  · rw [hhome]
    exact h.home_mod
  · rw [hhome]
    exact h.home_lt
  · rw [hhome]
    exact h.file
  · intro hf _
    have := htop hf
    rw [h.offset_eq hf] at this
    omega

end Placed

section Steps

variable {m : Meminfo} {s s' : Recv} {a : Arrival}

theorem memErase_ok {ok : Bool} {flash flash' : ℕ → Byte} {start : ℕ}
    (h : m.memErase ok flash start = .ok flash') :
    start%m.erasesize = 0 ∧ start < m.size ∧ flash' = setTo flash start m.erasesize 0xff#8 := by
  unfold Meminfo.memErase at h
  split at h
  · cases h
  next hc =>
    rw [not_or, not_or] at hc
    exact ⟨not_not.mp hc.2.1, by omega, (Except.ok.inj h).symm⟩

theorem skipBad_spec (m : Meminfo) (fuel offset : ℕ) :
    offset ≤ m.skipBad fuel offset ∧ m.skipBad fuel offset%m.erasesize = offset%m.erasesize ∧
      (m.skipBad fuel offset < m.size+m.erasesize ∨ m.skipBad fuel offset = offset) := by
  induction fuel generalizing offset with
  | zero => exact ⟨le_rfl, rfl, .inr rfl⟩
  | succ fuel ih =>
    rw [Meminfo.skipBad]
    split
    next hb =>
      have hlt : offset < m.size := by
        unfold Meminfo.isBad at hb
        simp only [Bool.and_eq_true, decide_eq_true_eq] at hb
        exact hb.1
      obtain ⟨h1, h2, h3⟩ := ih (offset+m.erasesize)
      refine ⟨by omega, by rw [h2, Nat.add_mod_right], .inl ?_⟩
      omega
    · exact ⟨le_rfl, rfl, .inr rfl⟩

theorem nextGood_ok {mtdoffset offset : ℕ} (h : m.nextGood mtdoffset = .ok offset) :
    mtdoffset ≤ offset ∧ offset < m.size ∧ offset%m.erasesize = mtdoffset%m.erasesize ∧
      offset = m.skipBad m.size mtdoffset := by
  unfold Meminfo.nextGood at h
  split at h
  · cases h
  dsimp only at h
  split at h
  · cases h
  next hlt =>
    obtain rfl := Except.ok.inj h
    obtain ⟨h1, h2, -⟩ := skipBad_spec m m.size mtdoffset
    exact ⟨h1, by omega, h2, rfl⟩

theorem stores_le (m : Meminfo) (offset len written : ℕ) : m.stores offset len written ≤ len := by
  unfold Meminfo.stores
  split <;> omega

/-- A whole write to a device is inside of it. -/
theorem stores_top {offset len written : ℕ} (hf : m.file_mode = false)
    (h : m.stores offset len written = len) (hlen : 0 < len) : offset+len ≤ m.size := by
  unfold Meminfo.stores at h
  rw [hf] at h
  simp only [Bool.false_eq_true, if_false] at h
  omega

/-- The three things that a packet can do to its block. -/
theorem pktAgain_cases (h : pktAgain m s a = .ok s') {eb : Eraseblock}
    (heb : s.eraseblocks a.pkt.block_nr = eb) (hw : eb.wbuf.length < WBUF_SIZE) :
    (eb.wbuf.length+PKT_SIZE < WBUF_SIZE ∧
      s' = (s.withTotal (s.total_pkts+1)).update a.pkt.block_nr
        ((eb.count a.pkt.pkt_nr).buffer a.pkt.data)) ∨
    (WBUF_SIZE ≤ eb.wbuf.length+PKT_SIZE ∧
      m.stores eb.flash_offset WBUF_SIZE a.written = WBUF_SIZE ∧
      s' = ((s.withTotal (s.total_pkts+1)).withFlash (copyTo s.flash eb.flash_offset
        (eb.wbuf ++ a.pkt.data.take (WBUF_SIZE-eb.wbuf.length)))).update a.pkt.block_nr
        ((eb.count a.pkt.pkt_nr).flush (a.pkt.data.drop (WBUF_SIZE-eb.wbuf.length)))) ∨
    (WBUF_SIZE ≤ eb.wbuf.length+PKT_SIZE ∧ m.file_mode = false ∧ ∃ offset start bs,
      bs.length ≤ WBUF_SIZE ∧ eb.flash_offset+bs.length ≤ max m.size eb.flash_offset ∧
      start = eraseStart m eb ∧
      start%m.erasesize = 0 ∧ start < m.size ∧ m.nextGood s.mtdoffset = .ok offset ∧
      s' = (((s.update a.pkt.block_nr
        (((Eraseblock.fresh eb.crc offset).count a.pkt.pkt_nr).buffer a.pkt.data)).withFlash
        (setTo (copyTo s.flash eb.flash_offset bs) start m.erasesize 0xff#8)).withTotal
        (s.total_pkts+1-(eb.nr_pkts+1)+1)).withCursor (offset+m.erasesize)) := by
  unfold pktAgain at h
  dsimp only at h
  rw [heb, Eraseblock.count_wbuf, Eraseblock.count_flash_offset] at h
  have hpage : (eb.wbuf ++ a.pkt.data.take (WBUF_SIZE-eb.wbuf.length)).length ≤ WBUF_SIZE := by
    rw [List.length_append, List.length_take]
    omega
  split at h
  next hfit => exact .inl ⟨hfit, (Except.ok.inj h).symm⟩
  next hfit =>
  have hle := stores_le m eb.flash_offset WBUF_SIZE a.written
  split at h
  next hshort =>
    split at h
    · cases h
    next hf =>
      rw [Bool.not_eq_true] at hf
      unfold relocate at h
      dsimp only [bind, Except.bind] at h
      split at h
      · cases h
      next flash herase =>
        split at h
        · cases h
        next offset hnext =>
          obtain ⟨h1, h2, h3⟩ := memErase_ok herase
          refine .inr (.inr ⟨by omega, hf, offset, _,
            (eb.wbuf ++ a.pkt.data.take (WBUF_SIZE-eb.wbuf.length)).take
              (m.stores eb.flash_offset WBUF_SIZE a.written), ?_, ?_, rfl, h1, h2, hnext, ?_⟩)
          rotate_left 2
          · rw [← Except.ok.inj h, h3]
            rfl
          · exact (List.length_take_le' _ _).trans hpage
          · rw [List.length_take]
            unfold Meminfo.stores at hshort ⊢
            rw [hf]
            simp only [Bool.false_eq_true, if_false]
            omega
  next hshort =>
    have hstores : m.stores eb.flash_offset WBUF_SIZE a.written = WBUF_SIZE := by omega
    refine .inr (.inl ⟨by omega, hstores, ?_⟩)
    rw [hstores, List.take_of_length_le hpage] at h
    exact (Except.ok.inj h).symm

end Steps

/-- All blocks are in step, below the cursor and apart from each other. -/
structure Placed (m : Meminfo) (s : Recv) : Prop where
  block : ∀ b < s.nr_blocks, BlockPlaced m (s.eraseblocks b)
  total : s.total_pkts = ∑ b ∈ Finset.range s.nr_blocks, (s.eraseblocks b).pkt_indices.length
  cursor_mod : s.mtdoffset%m.erasesize = 0
  below : ∀ b < s.nr_blocks, (s.eraseblocks b).home+m.erasesize ≤ s.mtdoffset
  apart : ∀ b < s.nr_blocks, ∀ c < s.nr_blocks, b ≠ c →
    (s.eraseblocks b).home ≠ (s.eraseblocks c).home

section Placed

variable {m : Meminfo} {s s' : Recv} {a : Arrival} {b : ℕ} {eb : Eraseblock}

theorem wbuf_lt (h : BlockPlaced m eb) : eb.wbuf.length < WBUF_SIZE := by
  rw [h.wbuf]
  exact Nat.mod_lt _ (by decide)

/-- The sum over the blocks when one of them is changed. -/
theorem sum_update (f : ℕ → Eraseblock) {n : ℕ} (hb : b < n) (eb : Eraseblock) :
    (∑ c ∈ Finset.range n, (Function.update f b eb c).pkt_indices.length)+
        (f b).pkt_indices.length =
      (∑ c ∈ Finset.range n, (f c).pkt_indices.length)+eb.pkt_indices.length := by
  have hmem : b ∈ Finset.range n := Finset.mem_range.mpr hb
  rw [← Finset.add_sum_erase _ _ hmem, ← Finset.add_sum_erase _ (fun c => (f c).pkt_indices.length)
    hmem, Function.update_self]
  have hrest : ∑ c ∈ (Finset.range n).erase b, (Function.update f b eb c).pkt_indices.length =
      ∑ c ∈ (Finset.range n).erase b, (f c).pkt_indices.length := by
    apply Finset.sum_congr rfl
    intro c hc
    rw [Function.update_of_ne (Finset.ne_of_mem_erase hc)]
  rw [hrest]
  omega

/-- A block is changed, and perhaps moved to a new place at the cursor. -/
theorem Placed.update (h : Placed m s) (hb : b < s.nr_blocks) (heb : BlockPlaced m eb)
    (total cursor : ℕ) (flash : ℕ → Byte)
    (htotal : total+(s.eraseblocks b).pkt_indices.length = s.total_pkts+eb.pkt_indices.length)
    (hcursor : cursor%m.erasesize = 0) (hle : s.mtdoffset ≤ cursor)
    (hhome : eb.home = (s.eraseblocks b).home ∨ s.mtdoffset ≤ eb.home)
    (hbelow : eb.home+m.erasesize ≤ cursor) (hes : 0 < m.erasesize) :
    Placed m ((((s.update b eb).withFlash flash).withTotal total).withCursor cursor) := by
  have hget (c : ℕ) : ((((s.update b eb).withFlash flash).withTotal total).withCursor
      cursor).eraseblocks c = Function.update s.eraseblocks b eb c := rfl
  have hupd (c : ℕ) (hc : c ≠ b) : Function.update s.eraseblocks b eb c = s.eraseblocks c :=
    Function.update_of_ne hc _ _
  -- the new place is not that of another block
  have hapart (c : ℕ) (hc : c < s.nr_blocks) (hne : c ≠ b) : eb.home ≠ (s.eraseblocks c).home := by
    rcases hhome with heq | hge
    · rw [heq]
      exact h.apart b hb c hc (Ne.symm hne)
    · have := h.below c hc
      omega
  refine ⟨fun c hc => ?_, ?_, hcursor, fun c hc => ?_, fun c hc d hd hcd => ?_⟩
  · rw [hget]
    by_cases hcb : c = b
    · subst hcb
      rwa [Function.update_self]
    · rw [hupd c hcb]
      exact h.block c hc
  · have hsum := sum_update s.eraseblocks hb eb
    rw [← h.total] at hsum
    change total = ∑ c ∈ Finset.range s.nr_blocks,
      (Function.update s.eraseblocks b eb c).pkt_indices.length
    omega
  · rw [hget]
    change _ ≤ cursor
    by_cases hcb : c = b
    · subst hcb
      rwa [Function.update_self]
    · rw [hupd c hcb]
      have := h.below c hc
      omega
  · rw [hget, hget]
    by_cases hcb : c = b
    · subst hcb
      rw [Function.update_self, hupd d (Ne.symm hcd)]
      exact hapart d hd (Ne.symm hcd)
    · by_cases hdb : d = b
      · subst hdb
        rw [Function.update_self, hupd c hcb]
        exact (hapart c hc hcb).symm
      · rw [hupd c hcb, hupd d hdb]
        exact h.apart c hc d hd hcd

/-- A packet keeps the blocks in their places. -/
theorem pktAgain_placed (h : Placed m s) (hes : 0 < m.erasesize) (hb : a.pkt.block_nr < s.nr_blocks)
    (hn : (s.eraseblocks a.pkt.block_nr).nr_pkts < m.pkts_per_block)
    (hd : a.pkt.data.length = PKT_SIZE) (hrun : pktAgain m s a = .ok s') : Placed m s' := by
  have hblock := h.block _ hb
  generalize heb : s.eraseblocks a.pkt.block_nr = eb at hblock hn
  have hlen := hblock.length_lt hn
  have hbelow := h.below _ hb
  rw [heb] at hbelow
  have hsize := m.size_lt
  rcases pktAgain_cases hrun heb (wbuf_lt hblock) with ⟨hfit, rfl⟩ | ⟨hfull, hst, rfl⟩ |
    ⟨hfull, hf, offset, start, bs, -, -, -, -, -, hnext, rfl⟩
  · obtain ⟨hbp, -⟩ := hblock.buffer hn hfit a.pkt.pkt_nr hd
    refine h.update hb hbp (s.total_pkts+1) s.mtdoffset s.flash ?_ h.cursor_mod le_rfl
      (.inl (by rw [heb]; rfl)) hbelow hes
    rw [heb, Eraseblock.buffer_pkt_indices, Eraseblock.count_pkt_indices, List.length_append]
    exact Nat.add_right_comm _ _ _
  · have hw := wbuf_lt hblock
    obtain ⟨hbp, -⟩ := @BlockPlaced.flush _ _ hblock hn hfull a.pkt.pkt_nr
      (a.pkt.data.drop (WBUF_SIZE-eb.wbuf.length))
      (by rw [List.length_drop, hd]; omega) (fun hf => stores_top hf hst (by decide))
    refine h.update hb hbp (s.total_pkts+1) s.mtdoffset _ ?_ h.cursor_mod le_rfl
      (.inl (by rw [heb, Eraseblock.flush_home, Eraseblock.count_home]))
      (by rwa [Eraseblock.flush_home, Eraseblock.count_home]) hes
    rw [heb, Eraseblock.flush_pkt_indices, Eraseblock.count_pkt_indices, List.length_append]
    exact Nat.add_right_comm _ _ _
  · obtain ⟨h1, h2, h3, -⟩ := nextGood_ok hnext
    have hoff : offset%2^32 = offset := Nat.mod_eq_of_lt (by omega)
    have hfresh : BlockPlaced m (.fresh eb.crc offset) :=
      .fresh _ (h3.trans h.cursor_mod) (by omega) (fun hfm => by rw [hf] at hfm; cases hfm)
    obtain ⟨hbp, -⟩ := hfresh.buffer (by rw [Eraseblock.fresh_nr_pkts]; omega)
      (by rw [Eraseblock.fresh_wbuf]; decide) a.pkt.pkt_nr hd
    have hhome : (((Eraseblock.fresh eb.crc offset).count a.pkt.pkt_nr).buffer a.pkt.data).home =
        offset := hoff
    refine h.update hb hbp _ _ _ ?_ ?_ ?_ (.inr ?_) ?_ hes
    · have hle : eb.pkt_indices.length ≤ s.total_pkts := by
        rw [h.total, ← heb]
        exact Finset.single_le_sum (f := fun c => (s.eraseblocks c).pkt_indices.length)
          (fun _ _ => Nat.zero_le _) (Finset.mem_range.mpr hb)
      rw [heb, Eraseblock.buffer_pkt_indices, Eraseblock.count_pkt_indices,
        Eraseblock.fresh_pkt_indices]
      change _ = s.total_pkts+1
      omega
    · rw [Nat.add_mod_right, h3, h.cursor_mod]
    · omega
    · rwa [hhome]
    · rw [hhome]

/-- The end of a pass sets nothing but a CRC. -/
theorem settle_placed (h : Placed m s) (hes : 0 < m.erasesize) {p : Packet}
    (hb : p.block_nr < s.nr_blocks) : Placed m (settle m p s).2 := by
  unfold settle
  dsimp only
  split
  · exact h.update hb ((h.block _ hb).withCrc _) s.total_pkts s.mtdoffset s.flash rfl h.cursor_mod
      le_rfl (.inl rfl) (h.below _ hb) hes
  · exact h

theorem pktAgain_nr_blocks (hrun : pktAgain m s a = .ok s') : s'.nr_blocks = s.nr_blocks := by
  unfold pktAgain relocate at hrun
  dsimp only [bind, Except.bind] at hrun
  repeat' split at hrun
  all_goals first | cases hrun; rfl | cases hrun

/-- What a pass of the loop can do: the packet is not taken, or it is. -/
theorem admit_cases {last : Bool} (hrun : admitPkt m s a = .ok (last, s')) :
    s.image_crc = a.pkt.totcrc ∧ a.pkt.block_nr < s.nr_blocks ∧
    ((last = false ∧ s' = s) ∨
    (last = false ∧ m.pkts_per_block ≤ (s.eraseblocks a.pkt.block_nr).nr_pkts ∧
      s' = s.update a.pkt.block_nr (s.eraseblocks a.pkt.block_nr).extra) ∨
    (a.pkt.pkt_nr ∉ (s.eraseblocks a.pkt.block_nr).pkt_indices ∧
      (s.eraseblocks a.pkt.block_nr).nr_pkts < m.pkts_per_block ∧
      mtdCrc32 (-1) a.pkt.data = a.pkt.thiscrc ∧
      ∃ s₁, pktAgain m s a = .ok s₁ ∧ settle m a.pkt s₁ = (last, s'))) := by
  unfold admitPkt at hrun
  dsimp only at hrun
  split at hrun
  · cases hrun
  next hcrc =>
  split at hrun
  · cases hrun
  split at hrun
  · cases hrun
  next hb =>
  refine ⟨not_not.mp hcrc, by omega, ?_⟩
  split at hrun
  · cases hrun
    exact .inl ⟨rfl, rfl⟩
  next hdup =>
  split at hrun
  next hn =>
    cases hrun
    exact .inr (.inl ⟨rfl, hn, rfl⟩)
  next hn =>
  split at hrun
  · cases hrun
    exact .inl ⟨rfl, rfl⟩
  next hthis =>
  split at hrun
  · cases hrun
  next s₁ h₁ =>
    exact .inr (.inr ⟨fun hmem => hdup (.inl hmem), by omega, not_not.mp hthis, s₁, h₁,
      Except.ok.inj hrun⟩)

theorem admit_placed (h : Placed m s) (hes : 0 < m.erasesize) (hd : a.pkt.data.length = PKT_SIZE)
    {last : Bool} (hrun : admitPkt m s a = .ok (last, s')) : Placed m s' := by
  obtain ⟨-, hb, ⟨-, rfl⟩ | ⟨-, hn, rfl⟩ | ⟨-, hn, -, s₁, h₁, h₂⟩⟩ := admit_cases hrun
  · exact h
  · exact h.update hb ((h.block _ hb).extra hn) s.total_pkts s.mtdoffset s.flash rfl h.cursor_mod
      le_rfl (.inl rfl) (h.below _ hb) hes
  · have hp₁ := pktAgain_placed h hes hb hn hd h₁
    have := settle_placed (p := a.pkt) hp₁ hes (by rw [pktAgain_nr_blocks h₁]; exact hb)
    rwa [h₂] at this

/-- Multiples of one number that are less than it apart. -/
theorem aligned_le {x y n : ℕ} (hx : x%n = 0) (hy : y%n = 0) (h : x < y+n) : x ≤ y := by
  obtain ⟨i, rfl⟩ := Nat.dvd_of_mod_eq_zero hx
  obtain ⟨j, rfl⟩ := Nat.dvd_of_mod_eq_zero hy
  rw [← Nat.mul_succ] at h
  exact Nat.mul_le_mul_left n (Nat.lt_succ_iff.mp (Nat.lt_of_mul_lt_mul_left h))

/-- The blocks that have their offsets after some passes of the allocation. -/
structure Allocated (m : Meminfo) (p : Packet) (flash : ℕ → Byte) (i : ℕ) (s : Recv) : Prop where
  crc : s.image_crc = p.totcrc
  nr : s.nr_blocks = p.nr_blocks
  total : s.total_pkts = 0
  flash : s.flash = flash
  empty : ∀ b, (s.eraseblocks b).pkt_indices = [] ∧ (s.eraseblocks b).wbuf = []
  block : ∀ b < i, BlockPlaced m (s.eraseblocks b)
  cursor_mod : s.mtdoffset%m.erasesize = 0
  file : m.file_mode = true → s.mtdoffset = i*m.erasesize
  count : i*m.erasesize ≤ s.mtdoffset
  room : m.file_mode = false → i*m.erasesize ≤ m.size
  below : ∀ b < i, (s.eraseblocks b).home+m.erasesize ≤ s.mtdoffset
  apart : ∀ b < i, ∀ c < i, b ≠ c → (s.eraseblocks b).home ≠ (s.eraseblocks c).home

theorem Allocated.give {p : Packet} {flash : ℕ → Byte} {i offset : ℕ} (h : Allocated m p flash i s)
    (hmod : offset%m.erasesize = 0) (hle : s.mtdoffset ≤ offset) (hlt : offset < 2^32)
    (hfile : m.file_mode = true → offset = i*m.erasesize ∧ offset+m.erasesize ≤ 2^32)
    (hroom : m.file_mode = false → (i+1)*m.erasesize ≤ m.size) (hes : 0 < m.erasesize) :
    Allocated m p flash (i+1) ((s.update i (.fresh 0 offset)).withCursor (offset+m.erasesize)) := by
  have hhome : (Eraseblock.fresh 0 offset).home = offset := Nat.mod_eq_of_lt hlt
  have hget (c : ℕ) : ((s.update i (.fresh 0 offset)).withCursor
      (offset+m.erasesize)).eraseblocks c = Function.update s.eraseblocks i (.fresh 0 offset) c := rfl
  have hupd (c : ℕ) (hc : c ≠ i) :
      Function.update s.eraseblocks i (.fresh 0 offset) c = s.eraseblocks c :=
    Function.update_of_ne hc _ _
  have hnew (c : ℕ) (hc : c < i) : (s.eraseblocks c).home ≠ offset := by
    have := h.below c hc
    omega
  refine ⟨h.crc, h.nr, h.total, h.flash, fun c => ?_, fun c hc => ?_, ?_, fun hf => ?_, ?_, hroom,
    fun c hc => ?_, fun c hc d hd hcd => ?_⟩
  · rw [hget]
    by_cases hci : c = i
    · subst hci
      rw [Function.update_self]
      exact ⟨rfl, rfl⟩
    · rw [hupd c hci]
      exact h.empty c
  · rw [hget]
    by_cases hci : c = i
    · subst hci
      rw [Function.update_self]
      exact .fresh 0 hmod hlt fun hf => (hfile hf).2
    · rw [hupd c hci]
      exact h.block c (by omega)
  · change (offset+m.erasesize)%m.erasesize = 0
    rw [Nat.add_mod_right, hmod]
  · change offset+m.erasesize = (i+1)*m.erasesize
    rw [(hfile hf).1, Nat.succ_mul]
  · change (i+1)*m.erasesize ≤ offset+m.erasesize
    have := h.count
    rw [Nat.succ_mul]
    omega
  · rw [hget]
    change _ ≤ offset+m.erasesize
    by_cases hci : c = i
    · subst hci
      rw [Function.update_self, hhome]
    · rw [hupd c hci]
      have := h.below c (by omega)
      omega
  · rw [hget, hget]
    by_cases hci : c = i
    · subst hci
      rw [Function.update_self, hupd d (Ne.symm hcd), hhome]
      exact (hnew d (by omega)).symm
    · by_cases hdi : d = i
      · subst hdi
        rw [Function.update_self, hupd c hci, hhome]
        exact hnew c (by omega)
      · rw [hupd c hci, hupd d hdi]
        exact h.apart c (by omega) d (by omega) hcd

theorem allocate_allocated {p : Packet} {flash : ℕ → Byte} {i : ℕ} (h : Allocated m p flash i s)
    (hfile : m.file_mode = true → (i+1)*m.erasesize ≤ 2^32) (hes : 0 < m.erasesize)
    (hrun : allocate m i s = .ok s') : Allocated m p flash (i+1) s' := by
  have hsize := m.size_lt
  unfold allocate at hrun
  split at hrun
  next hf =>
    obtain rfl := Except.ok.inj hrun
    have hcur := h.file hf
    have hmul : (i+1)*m.erasesize = i*m.erasesize+m.erasesize := Nat.succ_mul _ _
    have := hfile hf
    exact h.give h.cursor_mod le_rfl (by omega) (fun _ => ⟨hcur, by omega⟩)
      (fun hfm => by rw [hf] at hfm; cases hfm) hes
  next hf =>
  split at hrun
  · cases hrun
  next hlt =>
    obtain rfl := Except.ok.inj hrun
    obtain ⟨h1, h2, h3⟩ := skipBad_spec m m.size s.mtdoffset
    have hmod := h2.trans h.cursor_mod
    have hle : m.skipBad m.size s.mtdoffset ≤ m.size := by
      rcases h3 with h3 | h3
      · exact aligned_le hmod m.size_mod h3
      · omega
    refine h.give hmod h1 (by omega) (fun hfm => absurd hfm hf) (fun _ => ?_) hes
    have hcount := h.count
    apply aligned_le (Nat.mul_mod_left _ _) m.size_mod
    rw [Nat.succ_mul]
    omega

theorem start_placed {flash : ℕ → Byte} {p : Packet} (hes : 0 < m.erasesize)
    (hfile : m.file_mode = true → p.nr_blocks*m.erasesize ≤ 2^32) (hrun : start m flash p = .ok s) :
    Placed m s ∧ Allocated m p flash p.nr_blocks s ∧ m.erasesize = p.blocksize := by
  unfold start at hrun
  split at hrun
  · cases hrun
  next hsame =>
  split at hrun
  · cases hrun
  have h0 : Allocated m p flash 0 ⟨p.totcrc, p.nr_blocks, fun _ => .fresh 0 0, 0, 0, flash⟩ :=
    ⟨rfl, rfl, rfl, rfl, fun _ => ⟨rfl, rfl⟩, fun b hb => absurd hb (Nat.not_lt_zero b),
      Nat.zero_mod _, fun _ => (Nat.zero_mul _).symm, by rw [Nat.zero_mul],
      fun _ => by rw [Nat.zero_mul]; exact Nat.zero_le _, fun b hb => absurd hb (Nat.not_lt_zero b),
      fun b hb => absurd hb (Nat.not_lt_zero b)⟩
  have hall := forRange_inv (P := Allocated m p flash) (fun j t t' _ hj ht hstep =>
    allocate_allocated ht (fun hf => (Nat.mul_le_mul_right _ (by omega)).trans (hfile hf)) hes hstep)
    h0 hrun
  rw [Nat.zero_add] at hall
  refine ⟨⟨fun b hb => hall.block b (hall.nr ▸ hb), ?_, hall.cursor_mod,
    fun b hb => hall.below b (hall.nr ▸ hb),
    fun b hb c hc => hall.apart b (hall.nr ▸ hb) c (hall.nr ▸ hc)⟩, hall, not_not.mp hsame⟩
  rw [hall.total, Finset.sum_eq_zero]
  intro b _
  rw [(hall.empty b).1]
  rfl

end Placed

end ChipTools.Mcast
