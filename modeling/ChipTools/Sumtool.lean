import ChipTools.EndianConvert
import ChipTools.Loop

/-! `sumtool`: the nodes of a JFFS2 image are collected in a buffer for one eraseblock, and a list
has an entry for each of them. A full eraseblock ends with a summary, which is made of the list. -/
namespace ChipTools.Sumtool
open Bytes Jffs2 Loop

def JFFS2_MIN_DATA_LEN : ℕ := 128

/-- The options. -/
structure Config where
  target_endian : Endian
  erase_block_size : ℕ
  add_cleanmarkers : Bool
  padto : Bool

/-- The variables of the program: `data_buffer` up to `data_ofs`, the list of `sum_collected`, and
what was written to the output. -/
structure State where
  found_cleanmarkers : Bool
  use_input_cleanmarker_size : Bool
  cleanmarker_size : ℕ
  cleanmarker : List Byte
  data_buffer : List Byte
  sum_list : List SumRecord
  output : List Byte

inductive Fault
  /-- A copy that leaves a buffer. -/
  | overrun
  | unfinished
deriving DecidableEq, Repr

namespace State

variable (s : State)

def data_ofs : ℕ := s.data_buffer.length

def sum_size : ℕ := (s.sum_list.map SumRecord.size).sum

/-- `add_sum_mem`. -/
def addSumMem (r : SumRecord) : State := { s with sum_list := s.sum_list ++ [r] }

def writeBuffToFile : State := { s with output := s.output ++ s.data_buffer, data_buffer := [] }

end State

section Buffer

variable (cfg : Config)

def setupCleanmarker (e : Endian) (size : ℕ) (s : State) : State :=
  { s with cleanmarker_size := size, cleanmarker := header e JFFS2_NODETYPE_CLEANMARKER size }

/-- `full_write` to the end of the buffer. -/
def fullWrite (buf : List Byte) (s : State) : Except Fault State :=
  if s.data_ofs+buf.length ≤ cfg.erase_block_size then
    .ok { s with data_buffer := s.data_buffer ++ buf }
  else .error .overrun

def pad (req : ℕ) (s : State) : Except Fault State := fullWrite cfg (List.replicate req 0xff#8) s

def padword (s : State) : Except Fault State :=
  if s.data_ofs%4 ≠ 0 then pad cfg (4-s.data_ofs%4) s else .ok s

/-- `cln_mkr` of a summary. -/
def clnMkr (s : State) : ℕ :=
  if cfg.add_cleanmarkers && s.found_cleanmarkers then s.cleanmarker_size else 0

def dumpSumRecords (s : State) : Except Fault State :=
  if s.sum_list = [] then .ok s
  else
    let infosize := 32+(s.sum_size+8)
    -- `padsize` is negative
    if cfg.erase_block_size < s.data_ofs+infosize then .error .overrun
    else
      let padsize := cfg.erase_block_size-s.data_ofs-infosize
      let isum : Summary :=
        ⟨clnMkr cfg s, 0, s.sum_list, List.replicate padsize 0xff#8, s.data_ofs⟩
      .ok { s with
        data_buffer := s.data_buffer ++ isum.encode cfg.target_endian
        sum_list := [] }

/-- `erase_block_size - datasize`, compared as an unsigned number of `w` bits. -/
def room (w size : ℕ) : ℕ := (2^w+cfg.erase_block_size-pad4 size%2^32)%2^w

/-- The cleanmarker at the start of the buffer. -/
def startBlock (s : State) : Except Fault State :=
  if cfg.add_cleanmarkers && s.found_cleanmarkers then
    if s.data_ofs = 0 then do
      let s ← fullWrite cfg s.cleanmarker s
      -- `pad` counts down to zero from a negative number
      if s.cleanmarker_size < 12 then .error .overrun
      else
        let s ← pad cfg (s.cleanmarker_size-12) s
        padword cfg s
    else .ok s
  else .ok s

def padBlockIfLessThan (req plus : ℕ) (s : State) : Except Fault State := do
  if room cfg 32 (req+plus+s.sum_size+32+8) < (s.data_ofs+req)%2^32 then
    let s ← dumpSumRecords cfg s
    startBlock cfg s.writeBuffToFile
  else startBlock cfg s

def flushBuffers (s : State) : Except Fault State :=
  if s.data_ofs ≠ if cfg.add_cleanmarkers && s.found_cleanmarkers then s.cleanmarker_size else 0 then
    if room cfg 64 (s.sum_size+32+8) < s.data_ofs+68+2*JFFS2_MIN_DATA_LEN then do
      let s ← dumpSumRecords cfg s
      .ok s.writeBuffToFile
    else if cfg.padto then do
      let s ← pad cfg (cfg.erase_block_size-s.data_ofs) s
      .ok s.writeBuffToFile
    else .ok s.writeBuffToFile
  else .ok s

/-- The writers: the node is copied with its length, and `record` is its entry at an offset. -/
def writeToBuff (record : ℕ → SumRecord) (totlen : ℕ) (node : List Byte) (s : State) :
    Except Fault State := do
  let s ← padBlockIfLessThan cfg totlen (record 0).size s
  let s := s.addSumMem (record s.data_ofs)
  if node.length < totlen then .error .overrun
  else
    let s ← fullWrite cfg (node.take totlen) s
    padword cfg s

end Buffer

section Image

variable (cfg : Config)

/-- `PAD` on 32 bits. -/
def PAD (x : ℕ) : ℕ := (x+3)%2^32/4*4

def writeInodeToBuff (node : List Byte) : State → Except Fault State :=
  let e := cfg.target_endian
  writeToBuff cfg (fun ofs => .inode (e.get node 12 4) (e.get node 16 4) ofs (e.get node 4 4))
    (e.get node 4 4) node

def writeDirentToBuff (node : List Byte) : State → Except Fault State :=
  let e := cfg.target_endian
  writeToBuff cfg (fun ofs => .dirent (e.get node 4 4) ofs (e.get node 12 4) (e.get node 16 4)
    (e.get node 20 4) (e.get node 29 1) ((node.drop 40).take (e.get node 28 1)))
    (e.get node 4 4) node

def writeXattrToBuff (node : List Byte) : State → Except Fault State :=
  let e := cfg.target_endian
  writeToBuff cfg (fun ofs => .xattr (e.get node 12 4) (e.get node 16 4) ofs (e.get node 4 4))
    (e.get node 4 4) node

def writeXrefToBuff (node : List Byte) : State → Except Fault State :=
  writeToBuff cfg (fun ofs => .xref ofs) (cfg.target_endian.get node 4 4) node

/-- The first node of the bytes, with the bit of its type set. -/
def accurate (e : Endian) (p : List Byte) : List Byte :=
  p.take 2 ++ e.put 2 (e.get p 2 2 ||| JFFS2_NODE_ACCURATE) ++ p.drop 4

/-- The CRC of some bytes is the stored one. -/
def crcOk (e : Endian) (node bytes : List Byte) (o : ℕ) : Bool := crc bytes = e.get node o 4

/-- Both CRCs of the node are right: that of its first `size` bytes is stored at `node_crc`, that of
the `length` bytes from `data` on at `data_crc`. -/
def crcsOk (e : Endian) (node : List Byte) (size node_crc data length data_crc : ℕ) : Bool :=
  crcOk e node (node.take size) node_crc && crcOk e node ((node.drop data).take length) data_crc

/-- What the first cleanmarker of the input changes. -/
def findCleanmarker (totlen : ℕ) (s : State) : State :=
  if s.found_cleanmarkers then s
  else
    let s := { s with found_cleanmarkers := true }
    if cfg.add_cleanmarkers && s.use_input_cleanmarker_size then
      setupCleanmarker cfg.target_endian totlen s
    else s

/-- One node: what the branch for its type does. -/
def summedNode (node : List Byte) (s : State) : Except Fault State :=
  let e := cfg.target_endian
  let nodetype := e.get node 2 2
  if nodetype = JFFS2_NODETYPE_INODE then
    if crcsOk e node 60 64 68 (e.get node 48 4) 60 then writeInodeToBuff cfg node s else .ok s
  else if nodetype = JFFS2_NODETYPE_DIRENT then
    if crcsOk e node 32 32 40 (e.get node 28 1) 36 then writeDirentToBuff cfg node s else .ok s
  else if nodetype = JFFS2_NODETYPE_XATTR then
    if crcsOk e node 28 28 32 (e.get node 21 1+1+e.get node 22 2) 24 then
      writeXattrToBuff cfg node s
    else .ok s
  else if nodetype = JFFS2_NODETYPE_XREF then
    if crcOk e node (node.take 24) 24 then writeXrefToBuff cfg node s else .ok s
  else if nodetype = JFFS2_NODETYPE_CLEANMARKER then
    .ok (findCleanmarker cfg (e.get node 4 4) s)
  else .ok s

/-- A pass of the loop over the bytes from the pointer on, with those that are left for the next. -/
def summedPass (p : List Byte) (s : State) : Except Fault (State × List Byte) :=
  let e := cfg.target_endian
  if e.get p 0 2 = 0xffff ∧ e.get p 2 2 = 0xffff then .ok (s, p.drop 4)
  else if e.get p 0 2 ≠ JFFS2_MAGIC_BITMASK then .ok (s, p.drop 4)
  else
    let node := accurate e p
    if ¬crcOk e node (node.take 8) 8 then .ok (s, node.drop 4)
    else do
      let s ← summedNode cfg node s
      if e.get node 2 2 = 0xffff then .ok (s, node.drop 4)
      else .ok (s, node.drop (PAD (e.get node 4 4)))

/-- The loop, with a bound on its passes. -/
def createSummedImage : ℕ → List Byte → State → Except Fault State
  | _, [], s => .ok s
  | 0, _, _ => .error .unfinished
  | fuel+1, p, s => do
    let (s, p) ← summedPass cfg p s
    createSummedImage fuel p s

/-- The loop over the eraseblocks of the input, each read as a whole. -/
def loadBlocks (fuel : ℕ) : ℕ → List Byte → State → Except Fault State
  | _, [], s => .ok s
  | 0, _, _ => .error .unfinished
  | k+1, input, s => do
    let s ← createSummedImage cfg fuel (input.take cfg.erase_block_size) s
    loadBlocks fuel k (input.drop cfg.erase_block_size) s

/-- The state after the options: with `-c` there are a size and the byte order at that time. -/
def initial (c : Option (ℕ × Endian)) : State :=
  let s : State := ⟨false, true, 12, List.replicate 12 0#8, [], [], []⟩
  match c with
  | none => s
  | some (size, e) =>
    setupCleanmarker e size { s with found_cleanmarkers := true, use_input_cleanmarker_size := false }

/-- The output for an input. -/
def sumtool (fuel : ℕ) (c : Option (ℕ × Endian)) (input : List Byte) : Except Fault (List Byte) := do
  let s ← loadBlocks cfg fuel fuel input (initial c)
  let s ← flushBuffers cfg s
  .ok s.output

end Image

end ChipTools.Sumtool
