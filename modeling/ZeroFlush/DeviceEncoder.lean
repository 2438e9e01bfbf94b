import ZeroFlush.BlockTables
import ZeroFlush.DeviceWords

/-! # The device writer of table files

The records of a run are put into an on-chip buffer block by block. A full block goes to the
output in whole words; the bytes of its last, open word stay at the front of the buffer for the
next block. The index block is written beside it, byte by byte. -/
namespace ZeroFlush.DeviceEncoder
open FixedWidthCodec ByteMemory Varints PrefixCompression BlockTables DeviceStreams DeviceWords

def MAX_OUTPUT_FILE_NUM : ℕ := 4

/-- The bytes of `data_block_buffer_bram`. -/
def bramSize : ℕ := 5200

def restart : ℕ := 16

/-! ## One record -/

def isMaxKey (key : Keystring) : Bool := key.c == maxKey.c

/-- The last 8 bytes of a key are no part of its user key. -/
def sameUserKey (key1 key2 : Keystring) : Bool :=
  key1.length == key2.length &&
    key1.c.take (16 * (key1.length / 16) - 8) == key2.c.take (16 * (key1.length / 16) - 8)

def genSharedKeyLength (preKey nowKey : Keystring) : ℕ :=
  sharedLength (preKey.c.take (16 * (nowKey.length / 16)))
    (nowKey.c.take (16 * (nowKey.length / 16)))

/-- The two bytes of the length, and how many of them count. -/
def valuelengthTo16 (valueLength : ℕ) : ℕ × ℕ :=
  if valueLength / 128 ≠ 0 then (valueLength % 128 + 128 + 256 * (valueLength / 128), 2)
  else (valueLength, 1)

/-- The buffer behind the record, and the number of its bytes. Four bytes are put for the three
lengths also when they take only three: the key covers the last. -/
def putKV (preKey : Keystring) (km : KeyMeta) (value : Bytes) (sstPointer : Memory) (index : ℕ) :
    Memory × ℕ :=
  let shared := if isMaxKey preKey then 0 else genSharedKeyLength preKey km.key
  let unshared := km.key.length - shared
  let length := valuelengthTo16 km.valueLength
  let midres := shared + 256 * unshared + 256 ^ 2 * length.1
  let sstPointer := ap32to128Encoder midres sstPointer index
  let keyIndex := index + (2 + length.2)
  let sstPointer := putkeyData km.key.c shared sstPointer keyIndex
  let sstPointer := putvalueData value km.valueLength sstPointer (keyIndex + unshared)
  (sstPointer, 2 + length.2 + unshared + km.valueLength)

/-! ## One index entry -/

/-- Five groups, of which `length` count; the last of these has no continuation bit. -/
def offsetToVarint (input : ℕ) : Bytes × ℕ :=
  let group := fun i => input / 128 ^ i % 128
  let length :=
    if group 4 ≠ 0 then 5 else if group 3 ≠ 0 then 4 else if group 2 ≠ 0 then 3
    else if group 1 ≠ 0 then 2 else 1
  ((List.range 5).map fun i =>
    UInt8.ofNat (if i + 1 = length ∨ i = 4 then group i else group i + 128), length)

def sizeToVarint (input : ℕ) : Bytes × ℕ :=
  let group := fun i => input / 128 ^ i % 128
  let length := if group 2 ≠ 0 then 3 else if group 1 ≠ 0 then 2 else 1
  ((List.range 3).map fun i =>
    UInt8.ofNat (if i + 1 < length then group i + 128 else group i), length)

/-- Eight bytes, of which the first belong to the handle. -/
def putvalueOffsetSizeToString (offset size : ℕ) : Bytes × ℕ :=
  let tem1 := offsetToVarint offset
  let tem2 := sizeToVarint size
  let packed := tem1.1.take tem1.2 ++ tem2.1
  (packed ++ List.replicate (8 - packed.length) 0, tem1.2 + tem2.2)

/-- The whole key, nothing shared. -/
def putKVIndex (key : Keystring) (value : Bytes) (valueLength : ℕ) (sstPointer : Memory)
    (index : ℕ) : Memory × ℕ :=
  let entry := putFixed 1 0 ++ putFixed 1 KEY_LENGTH ++ putFixed 1 valueLength ++
    key.c.take KEY_LENGTH ++ value.take valueLength
  (store sstPointer index entry, index + entry.length)

/-! ## The run -/

structure Pps where
  numDataBlocks : ℕ
  entries : ℕ
  dataSize : ℕ
  rawKeySize : ℕ
  rawValueSize : ℕ
  indexBlockOffset : ℕ
  minSeq : ℕ
  maxSeq : ℕ
  smallestKey : Keystring
  largestKey : Keystring

def Pps.zero : Pps := ⟨0, 0, 0, 0, 0, 0, 0, 0, ⟨[], 0⟩, ⟨[], 0⟩⟩

/-- What the host is told about a finished file. -/
structure OutputFile where
  pps : Pps
  topSstIndex : ℕ
  topIndexBlockIndex : ℕ

structure Encoder where
  lastUserKey : Keystring
  closed : List OutputFile
  pps : Pps
  sstOffset : ℕ
  bram : Memory
  preKey : Keystring
  dataRestarts : List ℕ
  indexRestarts : List ℕ
  entrySize : ℕ
  indexEntrySize : ℕ
  minSeqno : ℕ
  maxSeqno : ℕ
  dataBlockIndex : ℕ
  sstIndex : ℕ
  indexBlockIndex : ℕ
  indexBlockOffset : ℕ
  bramReadIndex : ℕ
  prePageChangeRemain : ℕ
  sst : Memory
  index : Memory
  /-- A block was closed beyond the end of the buffer. -/
  overflow : Bool

def indexBlockBufferSize : ℕ := 1024 * 1024 * 8

namespace Encoder

def outputFileNum (s : Encoder) : ℕ := s.closed.length

/-- `sst` and `index` are what the two output buffers hold before the run. -/
def start (bram sst index : Memory) : Encoder where
  lastUserKey := ⟨[], 0⟩
  closed := []
  pps := Pps.zero
  sstOffset := 0
  bram := bram
  preKey := maxKey
  dataRestarts := []
  indexRestarts := []
  entrySize := 0
  indexEntrySize := 0
  minSeqno := 72057594037927935
  maxSeqno := 0
  dataBlockIndex := 0
  sstIndex := 0
  indexBlockIndex := 0
  indexBlockOffset := 0
  bramReadIndex := 0
  prePageChangeRemain := 0
  sst := sst
  index := index
  overflow := false

/-- The entry of a block of `valueSize` bytes at `sstIndex`, under the last key of the block. -/
def putBlockHandle (valueSize : ℕ) (s : Encoder) : Encoder :=
  let first := s.indexEntrySize % restart = 0
  let value := putvalueOffsetSizeToString s.sstIndex valueSize
  let put := putKVIndex s.preKey value.1 value.2 s.index s.indexBlockIndex
  { s with
    indexEntrySize := (if first then 1 else s.indexEntrySize) + 1
    indexRestarts :=
      if first then s.indexRestarts ++ [s.indexBlockIndex - s.indexBlockOffset]
      else s.indexRestarts
    index := put.1
    indexBlockIndex := put.2 }

/-- Restarts, index entry and trailer, and the whole words to the output. With `tail` the open
word goes too. -/
def closeBlock (tail : ℕ) (s : Encoder) : Encoder :=
  let restarts := s.dataRestarts.flatMap (putFixed 4) ++ putFixed 4 s.dataRestarts.length
  let bram := store s.bram s.bramReadIndex restarts
  let contentSize := s.dataBlockIndex + (s.dataRestarts.length + 1) * 4
  let bramReadIndex := s.bramReadIndex + (s.dataRestarts.length + 1) * 4
  let s := s.putBlockHandle contentSize
  let bram := ap32to128Encoder 0 (ap8to128Encoder 0 bram bramReadIndex) (bramReadIndex + 1)
  let bramReadIndex := bramReadIndex + 5
  let blockSize := contentSize + 5
  { s with
    sst := ap128to128Encoder bram s.sst (s.sstIndex + s.sstOffset)
      (blockSize + s.prePageChangeRemain + tail)
    bram := store bram 0 (load bram (16 * (bramReadIndex / 16)) 16)
    bramReadIndex := bramReadIndex
    sstIndex := s.sstIndex + blockSize
    dataBlockIndex := 0
    pps := { s.pps with
      numDataBlocks := s.pps.numDataBlocks + 1
      dataSize := s.pps.dataSize + blockSize }
    overflow := s.overflow || decide (bramSize < bramReadIndex) }

/-- The next block starts in the lane where this one ended. -/
def closeFullBlock (s : Encoder) : Encoder :=
  let s := s.closeBlock 0
  { s with
    bramReadIndex := s.sstIndex % 16
    prePageChangeRemain := s.sstIndex % 16 }

/-- The last block and the index block of a file. -/
def closeFile (fileLimit : ℕ) (s : Encoder) : Encoder :=
  let s :=
    if s.dataBlockIndex ≠ 0 then s.closeBlock 16
    else { s with sst := ap128to128Encoder s.bram s.sst (s.sstIndex + s.sstOffset) 16 }
  let restarts := s.indexRestarts.flatMap (putFixed 4) ++ putFixed 4 s.indexRestarts.length
  let index := store s.index s.indexBlockIndex restarts
  let indexBlockIndex := s.indexBlockIndex + (s.indexRestarts.length + 1) * 4
  let index := ap32to128Encoder 0 (ap8to128Encoder 0 index indexBlockIndex) (indexBlockIndex + 1)
  let indexBlockIndex := indexBlockIndex + 5
  let pps := { s.pps with
    indexBlockOffset := s.sstIndex
    largestKey := s.preKey
    minSeq := s.minSeqno
    maxSeq := s.maxSeqno }
  let closed := s.closed ++ [⟨pps, s.sstIndex, indexBlockIndex - s.indexBlockOffset⟩]
  let indexBlockOffset := s.indexBlockOffset + indexBlockBufferSize / MAX_OUTPUT_FILE_NUM
  { s with
    closed := closed
    pps := Pps.zero
    index := index
    indexRestarts := [0]
    indexBlockOffset := indexBlockOffset
    indexBlockIndex := indexBlockOffset
    sstIndex := 0
    sstOffset := fileLimit * closed.length
    bramReadIndex := 0
    prePageChangeRemain := 0
    minSeqno := 72057594037927935
    maxSeqno := 0 }

/-- A new block starts with a restart; in an open one there is a restart every 16 entries. -/
def openEntry (km : KeyMeta) (s : Encoder) : Encoder :=
  if s.dataBlockIndex = 0 then
    { s with
      pps := if s.sstIndex = 0 then { s.pps with smallestKey := km.key } else s.pps
      dataRestarts := [0]
      entrySize := 1
      preKey := maxKey }
  else if s.entrySize % restart = 0 then
    { s with
      dataRestarts := s.dataRestarts ++ [s.dataBlockIndex]
      preKey := maxKey
      entrySize := (s.entrySize + 1) % 2 ^ 8 }
  else { s with entrySize := (s.entrySize + 1) % 2 ^ 8 }

def seqnoOf (key : Keystring) : ℕ := decodeFixed (key.c.drop 24)

def putRecord (km : KeyMeta) (value : Bytes) (s : Encoder) : Encoder :=
  let s := s.openEntry km
  let put := putKV s.preKey km value s.bram s.bramReadIndex
  { s with
    minSeqno := min s.minSeqno (seqnoOf km.key)
    maxSeqno := max s.maxSeqno (seqnoOf km.key)
    bram := put.1
    bramReadIndex := s.bramReadIndex + put.2
    dataBlockIndex := s.dataBlockIndex + put.2
    preKey := km.key
    pps := { s.pps with
      entries := s.pps.entries + 1
      rawKeySize := s.pps.rawKeySize + km.key.length
      rawValueSize := s.pps.rawValueSize + km.valueLength } }

/-- One record. A record under the user key of the record before is dropped unless all versions
are kept. `last` says that it is the last of the run. -/
def encodeRecord (keepAllVersions : Bool) (fileLimit : ℕ) (last : Bool) (km : KeyMeta)
    (value : Bytes) (s : Encoder) : Encoder :=
  if !keepAllVersions && sameUserKey s.lastUserKey km.key then s
  else
    let s := { s with lastUserKey := km.key }
    let s := s.putRecord km value
    let s := if 4096 ≤ s.dataBlockIndex then s.closeFullBlock else s
    if fileLimit < s.sstIndex + 5200 ∧ s.outputFileNum < MAX_OUTPUT_FILE_NUM ∨ last then
      s.closeFile fileLimit
    else s

/-- After the last record a file may still be open, when that record was dropped. -/
def finish (fileLimit : ℕ) (s : Encoder) : Encoder :=
  if s.pps.entries ≠ 0 then s.closeFile fileLimit else s

end Encoder

/-- What the encoder reads: the keys, the port of every key, and the values of every port. -/
structure Inputs where
  km : List KeyMeta
  mergeResult : List ℕ
  value : ℕ → List Slice

/-- The loop over the `n` records that are left. It stops for good when it has to read from a
stream that stays empty. -/
def encoderLoop (keepAllVersions : Bool) (fileLimit : ℕ) :
    ℕ → Encoder → Inputs → Option (Encoder × Inputs)
  | 0, s, inputs => some (s, inputs)
  | n + 1, s, inputs =>
    match inputs.km, inputs.mergeResult with
    | km :: kms, port :: ports =>
      match inputs.value port with
      | first :: second :: slices =>
        encoderLoop keepAllVersions fileLimit n
          (s.encodeRecord keepAllVersions fileLimit (n == 0) km (first ++ second))
          ⟨kms, ports, fun p => if p = port then slices else inputs.value p⟩
      | _ => none
    | _, _ => none

/-- The end of the run takes the greatest key that the merge has left over. -/
def encoder (keepAllVersions : Bool) (fileLimit kvSum : ℕ) (start : Encoder) (inputs : Inputs) :
    Option (Encoder × Inputs) := do
  let (s, inputs) ← encoderLoop keepAllVersions fileLimit kvSum start inputs
  match inputs.km, inputs.mergeResult with
  | _ :: kms, _ :: ports => some (s.finish fileLimit, { inputs with km := kms, mergeResult := ports })
  | _, _ => none

end ZeroFlush.DeviceEncoder
