import ZeroFlush.WalFiles

/-! # The partitioned WAL manager

Every partition appends frames to one active file through a 4 KiB buffer. `Freeze` seals the
active file and opens the file of the next generation. -/
namespace ZeroFlush.PartitionedWal
open FixedWidthCodec FiniteMaps WalFormat WalFiles

structure WalRecordRef where
  partId : ℕ
  gen : ℕ
  offset : ℕ
  deriving DecidableEq, Repr

namespace WalRecordRef

def file (ref : WalRecordRef) : FileId := (ref.partId, ref.gen)

end WalRecordRef

structure FreezeResult where
  oldGen : ℕ
  sealedBytes : ℕ
  sealedPath : FileId
  deriving DecidableEq, Repr

/-- `wfile` and `rfile` name the file an open handle belongs to. -/
structure Partition where
  partId : ℕ
  wfile : Option FileId := none
  rfile : Option FileId := none
  buf : Bytes := []
  flushedSize : ℕ := 0
  totalSize : ℕ := 0
  activeBytes : ℕ := 0
  gen : ℕ := 0
  deriving DecidableEq, Repr

namespace Partition

/-- `FileName(p->part_id, p->gen)`. -/
def file (p : Partition) : FileId := (p.partId, p.gen)

end Partition

structure PartitionedWalManager where
  env : Env
  partitions : ℕ
  partitionTargetBytes : ℕ
  parts : Map ℕ Partition
  totalActiveBytes : ℕ := 0
  anyOverTarget : Bool := false

/-- `MaxGen`: 0 also stands for a partition without files. -/
def maxGen (part : ℕ) (all : List FileId) : ℕ :=
  all.foldl (fun mx f => if f.1 = part ∧ f.2 > mx then f.2 else mx) 0

/-- `FlushBuf`: a nonempty buffer has an open write handle. -/
def flushBuf (env : Env) (p : Partition) : Env × Partition :=
  match p.buf, p.wfile with
  | _ :: _, some f =>
    (env.appendFile f p.buf, { p with flushedSize := p.totalSize, buf := [] })
  | _, _ => (env, p)

/-- `OpenGen`: the write handle of the new generation truncates its file. -/
def openGen (env : Env) (p : Partition) : Env × Partition :=
  (env.newWritableFile p.file, { p with wfile := some p.file, rfile := some p.file })

def ensureOpenForWrite (env : Env) (p : Partition) : Env × Partition :=
  match p.wfile with
  | some _ => (env, p)
  | none =>
    (env.reopenWritableFile p.file,
      { p with wfile := some p.file, rfile := some (p.rfile.getD p.file) })

/-- What `ReadRecord` and `ReadFromSealed` do with the bytes of one record. -/
def decodeValue (rec : Bytes) : Except Status Bytes :=
  match decodeZfRecord rec with
  | .error e => .error e
  | .ok (h, _, v) => .ok (if h.type = kTypeDeletion then [] else v)

/-- `ReadFromSealed`: one read of 4120 bytes, and a second one for a longer record. -/
def readFromSealed (data : Bytes) (ref : WalRecordRef) : Except Status Bytes :=
  let result := (data.drop ref.offset).take (kZfHeaderSize + 4096)
  if result.length < kZfHeaderSize then
    .error (.corruption "ZF sealed record header truncated")
  else
    let lens := decodeKeyValLen result
    let total := zfRecordLength lens.1 lens.2
    if total ≤ result.length then decodeValue (result.take total)
    else
      let rest := (data.drop (ref.offset + result.length)).take (total - result.length)
      if rest.length < total - result.length then
        .error (.corruption "ZF sealed record truncated")
      else decodeValue (result ++ rest)

namespace PartitionedWalManager

/-- The constructor: partitions `0 .. partitions - 1`, none of them open. -/
def create (env : Env) (partitions target : ℕ) : PartitionedWalManager where
  env := env
  partitions := partitions
  partitionTargetBytes := target
  parts := (List.range partitions).foldl (fun m i => m.insert i { partId := i }) ∅

/-- One round of the loop of `Open`: the raw length of the newest file becomes the size. -/
def openPartition (env : Env) (i : ℕ) (p : Partition) : Partition :=
  let all := env.listFiles
  if all.any (fun f => f.1 == i) then
    let mg := maxGen i all
    let sz := (env.content (i, mg)).length
    { p with
      gen := mg, rfile := some (i, mg), flushedSize := sz, totalSize := sz, activeBytes := sz,
      buf := [] }
  else { p with gen := 0, flushedSize := 0, totalSize := 0, buf := [] }

/-- The sizes `Open` adds to the counter of active bytes. -/
def openedBytes (env : Env) (n : ℕ) : ℕ :=
  ((List.range n).map fun i => (env.content (i, maxGen i env.listFiles)).length).sum

/-- `Open`: only the partitions below `partitions` are looked for in the directory. -/
def open_ (m : PartitionedWalManager) : PartitionedWalManager :=
  { m with
    parts := mapValues
      (fun i p => if i < m.partitions then openPartition m.env i p else p) m.parts
    totalActiveBytes := (m.totalActiveBytes + openedBytes m.env m.partitions) % 2 ^ 64 }

def hasPartition (m : PartitionedWalManager) (part : ℕ) : Bool := (m.parts.lookup part).isSome

def activeGen (m : PartitionedWalManager) (part : ℕ) : ℕ :=
  match m.parts.lookup part with
  | none => 0
  | some p => p.gen

def activeSize (m : PartitionedWalManager) (part : ℕ) : ℕ :=
  match m.parts.lookup part with
  | none => 0
  | some p => p.totalSize

def clearOverTargetFlag (m : PartitionedWalManager) : PartitionedWalManager :=
  { m with anyOverTarget := false }

/-- The part of `Append` under the partition's mutex. -/
def appendTo (m : PartitionedWalManager) (part : ℕ) (p : Partition) (r : WalRecord) :
    WalRecordRef × PartitionedWalManager :=
  let opened := ensureOpenForWrite m.env p
  let frame := r.frame
  let p := opened.2
  let active := (p.activeBytes + frame.length) % 2 ^ 64
  let q := { p with
    buf := p.buf ++ frame, totalSize := p.totalSize + frame.length, activeBytes := active }
  let flushed := if q.buf.length ≥ 4096 then flushBuf opened.1 q else (opened.1, q)
  (⟨part, p.gen, p.totalSize⟩,
    { m with
      env := flushed.1
      parts := m.parts.insert part flushed.2
      totalActiveBytes := (m.totalActiveBytes + frame.length) % 2 ^ 64
      anyOverTarget := m.anyOverTarget || decide (active ≥ m.partitionTargetBytes) })

def append (m : PartitionedWalManager) (part : ℕ) (r : WalRecord) :
    Except Status WalRecordRef × PartitionedWalManager :=
  match m.parts.lookup part with
  | some p =>
    let done := m.appendTo part p r
    (.ok done.1, done.2)
  | none =>
    -- the range-delete partition is made by its first record, in generation 0
    if part = kRangeDelPartId then
      let done := m.appendTo part { partId := part } r
      (.ok done.1, done.2)
    else (.error (.invalidArgument s!"ZF Append: unknown partition {part}"), m)

/-- `wfile->Sync()` if the handle is open. -/
def syncHandle (env : Env) (p : Partition) : Env :=
  match p.wfile with
  | none => env
  | some f => env.syncFile f

def sync (m : PartitionedWalManager) (part : ℕ) : Except Status Unit × PartitionedWalManager :=
  match m.parts.lookup part with
  | none => (.error (.invalidArgument s!"ZF Sync: unknown partition {part}"), m)
  | some p =>
    let opened := ensureOpenForWrite m.env p
    let flushed := flushBuf opened.1 opened.2
    (.ok (), { m with
      env := syncHandle flushed.1 flushed.2
      parts := m.parts.insert part flushed.2 })

/-- `FlushBuf` and `Sync` of one partition in the loop of `Close`. -/
def closePartition (m : PartitionedWalManager) (part : ℕ) : PartitionedWalManager :=
  match m.parts.lookup part with
  | none => m
  | some p =>
    let flushed := flushBuf m.env p
    { m with
      env := syncHandle flushed.1 flushed.2
      parts := m.parts.insert part flushed.2 }

def close (m : PartitionedWalManager) : PartitionedWalManager :=
  m.parts.keys.foldl closePartition m

/-- `Freeze`; the generation is a `uint32_t`. -/
def freeze (m : PartitionedWalManager) (part : ℕ) :
    Option FreezeResult × PartitionedWalManager :=
  match m.parts.lookup part with
  | none => (none, m)
  | some p =>
    let flushed := if p.wfile.isSome then flushBuf m.env p else (m.env, p)
    let env := syncHandle flushed.1 p
    let p := flushed.2
    let fresh := openGen env
      { p with
        wfile := none, rfile := none, gen := (p.gen + 1) % 2 ^ 32, flushedSize := 0,
        totalSize := 0, buf := [], activeBytes := 0 }
    (some ⟨p.gen, p.totalSize, (part, p.gen)⟩,
      { m with
        env := fresh.1
        parts := m.parts.insert part fresh.2
        totalActiveBytes := (m.totalActiveBytes + 2 ^ 64 - p.totalSize % 2 ^ 64) % 2 ^ 64 })

def readRecord (m : PartitionedWalManager) (ref : WalRecordRef) : Except Status Bytes :=
  match m.parts.lookup ref.partId with
  | none => .error (.invalidArgument s!"ZF ReadRecord: unknown partition {ref.partId}")
  | some p =>
    if ref.offset ≥ p.flushedSize then
      let inBuf := ref.offset - p.flushedSize
      if inBuf + kZfHeaderSize > p.buf.length then
        .error (.corruption "ZF record offset beyond buffer")
      else
        let base := p.buf.drop inBuf
        let lens := decodeKeyValLen base
        let total := zfRecordLength lens.1 lens.2
        if inBuf + total > p.buf.length then
          .error (.corruption "ZF record truncated in buffer")
        else decodeValue (base.take total)
    else
      match p.rfile with
      | none => .error (.ioError "ZF ReadRecord: no read handle")
      | some f =>
        let data := m.env.content f
        let result := (data.drop ref.offset).take kZfHeaderSize
        if result.length < kZfHeaderSize then
          .error (.corruption "ZF record header truncated")
        else
          let lens := decodeKeyValLen result
          let total := zfRecordLength lens.1 lens.2
          let rest := (data.drop (ref.offset + kZfHeaderSize)).take (total - kZfHeaderSize)
          if rest.length < total - kZfHeaderSize then .error (.corruption "ZF record truncated")
          else decodeValue (result ++ rest)

/-- The destructor closes the manager; a new one is built over the directory and opened. -/
def reopen (m : PartitionedWalManager) : PartitionedWalManager :=
  (create m.close.env m.partitions m.partitionTargetBytes).open_

end PartitionedWalManager

end ZeroFlush.PartitionedWal
