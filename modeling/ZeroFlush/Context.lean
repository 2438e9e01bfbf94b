import Mathlib.Data.List.Dedup
import ZeroFlush.PartitionIndexes
import ZeroFlush.PartitionTables
import ZeroFlush.SealedFiles
import ZeroFlush.SequentialScan

/-! # The ZeroFlush context

`AddRecord` appends a record to the WAL of its partition and indexes it. Freezes seal WAL
generations into an epoch, `ReleaseEpoch` gives up the indexes of a materialized one, `Recover`
rebuilds the indexes of a directory. -/
namespace ZeroFlush.Context
open FixedWidthCodec FiniteMaps WalFormat WalFiles PartitionedWal UserKeys PartitionIndexes
  PartitionTables SealedFiles SequentialScan

inductive RoutingMode | kHash | kStatic | kSampled | kAlignL1
  deriving DecidableEq, Repr

structure ZeroFlushOptions where
  partitions : ℕ := 64
  partitionTargetBytes : ℕ := 64 * 2 ^ 20
  epochTargetBytes : ℕ := 256 * 2 ^ 20
  maxBatchPartitions : ℕ := 4
  indexMemBudget : ℕ := 4 * 2 ^ 30
  routingMode : RoutingMode := .kHash
  deriving DecidableEq, Repr

structure ZeroFlushContext where
  zfo : ZeroFlushOptions
  ucmp : UserComparator
  wal : PartitionedWalManager
  tables : PartitionTableSet
  indexSet : PartitionIndexSet := {}
  sealedCache : SealedFileCache := {}
  sampler : Option KeySampler := none
  epochCounter : ℕ := 0

/-- The internal key packs sequence number and type into 64 bits. -/
def indexEntry (r : WalRecord) (ref : WalRecordRef) : IndexEntry :=
  ⟨r.key, r.seq.toNat % 2 ^ 56, r.type, ref⟩

/-- `AllPartitionIds`. -/
def allPartitionIds (wal : PartitionedWalManager) : List ℕ :=
  wal.parts.keys.insertionSort (· ≤ ·)

/-- The outcome of `GetFromPartitionIndex`. -/
inductive GetResult
  | miss
  | found (value : Bytes)
  | notFound
  | mergeInProgress (operands : List Bytes)
  | merged (operands : List Bytes) (base value : Bytes)
  deriving DecidableEq, Repr

/-- The split of the collected versions: operands up to the first plain value, and that value. -/
def splitBase : List (Bytes × UInt8) → List Bytes × Option Bytes
  | [] => ([], none)
  | (v, t) :: rest =>
    if t = kTypeValue then ([], some v)
    else
      let split := splitBase rest
      (v :: split.1, split.2)

namespace ZeroFlushContext

def route (ctx : ZeroFlushContext) (userKey : Bytes) : ℕ :=
  ctx.tables.current.route ctx.ucmp userKey

def routeWithVersion (ctx : ZeroFlushContext) (userKey : Bytes) (tableVersion : ℕ) : ℕ :=
  match ctx.tables.get? tableVersion with
  | some t => t.route ctx.ucmp userKey
  | none => (hash userKey 0).toNat % ctx.zfo.partitions

/-- The partition of a record written under a table version. -/
def partOf (ctx : ZeroFlushContext) (r : WalRecord) (tableVersion : ℕ) : ℕ :=
  if r.type = kTypeRangeDeletion then kRangeDelPartId else ctx.routeWithVersion r.key tableVersion

/-- Keys are sampled until the first epoch is sealed. -/
def sampled (ctx : ZeroFlushContext) (rnd : ℕ) (key : Bytes) : Option KeySampler :=
  if ctx.zfo.routingMode = .kSampled ∧ ctx.epochCounter = 0 then
    ctx.sampler.map (·.sample rnd key)
  else ctx.sampler

def addRecord (ctx : ZeroFlushContext) (r : WalRecord) (tableVersion rnd : ℕ) :
    Except Status WalRecordRef × ZeroFlushContext :=
  let part := ctx.partOf r tableVersion
  match ctx.wal.append part r with
  | (.error s, wal) => (.error s, { ctx with wal := wal })
  | (.ok ref, wal) =>
    (.ok ref, { ctx with
      wal := wal
      indexSet := ctx.indexSet.insert ctx.ucmp part ref.gen (indexEntry r ref)
      sampler := ctx.sampled rnd r.key })

/-- Partitions over the target size. -/
def overTarget (ctx : ZeroFlushContext) : List ℕ :=
  (allPartitionIds ctx.wal).filter fun p => ctx.wal.activeSize p ≥ ctx.zfo.partitionTargetBytes

/-- Add the largest partitions until the batch is full. -/
def fillBatch (kMaxBatch epochTarget : ℕ) : List (ℕ × ℕ) → List ℕ → ℕ → List ℕ
  | [], batch, _ => batch
  | (sz, p) :: rest, batch, bytes =>
    if batch.length ≥ kMaxBatch ∨ bytes ≥ epochTarget then batch
    else fillBatch kMaxBatch epochTarget rest (batch ++ [p]) (bytes + sz)

/-- The partitions `FreezeBatchPartitions` freezes: those over the target, then the largest. -/
def chooseBatch (ctx : ZeroFlushContext) : List ℕ :=
  let kMaxBatch := max 1 ctx.zfo.maxBatchPartitions
  let batch := ctx.overTarget
  let batchBytes := (batch.map ctx.wal.activeSize).sum
  if batch.length < kMaxBatch ∧ batchBytes < ctx.zfo.epochTargetBytes then
    let others := (allPartitionIds ctx.wal).filter
      fun p => p ∉ batch ∧ ctx.wal.activeSize p > 0
    let rest := (others.map fun p => (ctx.wal.activeSize p, p)).insertionSort
      fun a b => b.1 < a.1 ∨ b.1 = a.1 ∧ b.2 ≤ a.2
    fillBatch kMaxBatch ctx.zfo.epochTargetBytes rest batch batchBytes
  else batch

/-- The table learned from the samples of the first epoch. -/
def learnedTable (ctx : ZeroFlushContext) (epoch : ℕ) : Option PartitionTable :=
  match ctx.sampler with
  | none => none
  | some sampler =>
    if ctx.tables.currentVersion = 0 ∧ epoch = 1 ∧ sampler.samples ≠ [] then
      (sampler.buildBoundaries ctx.ucmp ctx.zfo.partitions).bind fun bs =>
        (PartitionTable.create 1 bs ctx.ucmp).toOption
    else none

/-- The table `FreezeBatchPartitions` installs: learned, or aligned with the files of level 1. -/
def batchTable (ctx : ZeroFlushContext) (epoch : ℕ) (l1 : List L1File) : Option PartitionTable :=
  match ctx.zfo.routingMode with
  | .kSampled => ctx.learnedTable epoch
  | .kAlignL1 =>
    (buildL1AlignedTable ctx.ucmp ctx.tables ctx.zfo.partitions l1).orElse
      fun _ => ctx.learnedTable epoch
  | _ => none

def installTable (ctx : ZeroFlushContext) (t : Option PartitionTable) : ZeroFlushContext :=
  match t with
  | none => ctx
  | some t => { ctx with tables := ctx.tables.installNewVersion t }

/-- A generation with bytes is registered with the epoch. -/
def registerGen (se : SealedEpoch) (p : ℕ) (fr : FreezeResult) : SealedEpoch :=
  if fr.sealedBytes > 0 then
    { se with
      gens := se.gens ++ [(p, fr.oldGen)]
      partBytes := se.partBytes.insert p fr.sealedBytes
      totalBytes := se.totalBytes + fr.sealedBytes }
  else se

/-- `wal_->Freeze` of an unknown partition returns an empty result. -/
def freezeWal (ctx : ZeroFlushContext) (p : ℕ) : FreezeResult × ZeroFlushContext :=
  let done := ctx.wal.freeze p
  (done.1.getD ⟨0, 0, (p, 0)⟩, { ctx with wal := done.2 })

def freezeIndex (ctx : ZeroFlushContext) (p newGen : ℕ) : ZeroFlushContext :=
  { ctx with indexSet := ctx.indexSet.freeze p newGen }

/-- One partition in the loop of `FreezeBatchPartitions`. -/
def freezeBatchStep (acc : ZeroFlushContext × SealedEpoch) (p : ℕ) :
    ZeroFlushContext × SealedEpoch :=
  let frozen := acc.1.freezeWal p
  (frozen.2.freezeIndex p ((frozen.1.oldGen + 1) % 2 ^ 32), registerGen acc.2 p frozen.1)

/-- What every freeze ends with: the flag is cleared and the epoch registered. -/
def finishSeal (ctx : ZeroFlushContext) (se : SealedEpoch) : ZeroFlushContext :=
  { ctx with
    wal := ctx.wal.clearOverTargetFlag
    sealedCache := ctx.sealedCache.addEpochWithRecoveryAdoption se }

def nextEpoch (ctx : ZeroFlushContext) : ZeroFlushContext × SealedEpoch :=
  ({ ctx with epochCounter := ctx.epochCounter + 1 },
    { epoch := ctx.epochCounter + 1, tableVersion := ctx.tables.currentVersion })

def freezeBatchPartitions (ctx : ZeroFlushContext) (l1 : List L1File) : ZeroFlushContext :=
  match ctx.chooseBatch with
  | [] => { ctx with wal := ctx.wal.clearOverTargetFlag }
  | batch =>
    let started := ctx.nextEpoch
    let installed := started.1.installTable (started.1.batchTable started.2.epoch l1)
    let done := batch.foldl freezeBatchStep (installed, started.2)
    done.1.finishSeal done.2

/-- The target of `FreezeOnePartition`: the first over the target, else the largest. -/
def chooseOne (ctx : ZeroFlushContext) : Option ℕ :=
  match ctx.overTarget with
  | p :: _ => if ctx.wal.activeSize p > 0 then some p else none
  | [] =>
    (allPartitionIds ctx.wal).foldl
      (fun best p =>
        if ctx.wal.activeSize p > (best.map ctx.wal.activeSize).getD 0 then some p else best)
      none

/-- `FreezeOnePartition` gives the new index the generation that was sealed. -/
def freezeOnePartition (ctx : ZeroFlushContext) : ZeroFlushContext :=
  match ctx.chooseOne with
  | none => { ctx with wal := ctx.wal.clearOverTargetFlag }
  | some target =>
    let started := ctx.nextEpoch
    let frozen := started.1.freezeWal target
    (frozen.2.freezeIndex target frozen.1.oldGen).finishSeal
      (registerGen started.2 target frozen.1)

/-- One partition in the loop of `SealEpochAndSwitch`. -/
def sealStep (acc : ZeroFlushContext × SealedEpoch) (p : ℕ) : ZeroFlushContext × SealedEpoch :=
  let frozen := acc.1.freezeWal p
  (frozen.2, registerGen acc.2 p frozen.1)

/-- `FreezeIndexes`. -/
def freezeIndexes (ctx : ZeroFlushContext) (gens : List FileId) : ZeroFlushContext :=
  gens.foldl (fun c f => c.freezeIndex f.1 ((f.2 + 1) % 2 ^ 32)) ctx

/-- The table `SealEpochAndSwitch` installs; the learning phase ends with the first epoch. -/
def sealTable (ctx : ZeroFlushContext) (epoch : ℕ) (l1 : List L1File) : Option PartitionTable :=
  match ctx.zfo.routingMode with
  | .kSampled => ctx.learnedTable epoch
  | .kAlignL1 => buildL1AlignedTable ctx.ucmp ctx.tables ctx.zfo.partitions l1
  | _ => none

/-- `SealEpochAndSwitch` freezes the WAL of every partition of the current table and then the
indexes of those that had bytes. -/
def sealEpochAndSwitch (ctx : ZeroFlushContext) (l1 : List L1File) : ZeroFlushContext :=
  let started := ctx.nextEpoch
  let done := ctx.tables.current.partIds.foldl sealStep started
  let frozen := done.1.freezeIndexes done.2.gens
  (frozen.installTable (frozen.sealTable done.2.epoch l1)).finishSeal done.2

/-- `ReleaseEpoch`: the frozen indexes go before the references to the files. -/
def releaseEpoch (ctx : ZeroFlushContext) (epoch : ℕ) : ZeroFlushContext :=
  let gens := ((ctx.sealedCache.getEpoch epoch).map SealedEpoch.gens).getD []
  { ctx with
    indexSet := gens.foldl (fun s f => s.releaseFrozen f.1 f.2) ctx.indexSet
    sealedCache := ctx.sealedCache.releaseEpoch epoch }

/-- `PurgeSealedFiles`. -/
def purgeSealedFiles (ctx : ZeroFlushContext) : ZeroFlushContext :=
  let done := ctx.sealedCache.purgePending ctx.wal.env
  { ctx with sealedCache := done.1, wal := { ctx.wal with env := done.2 } }

def readValue (ctx : ZeroFlushContext) (ref : WalRecordRef) : Except Status Bytes :=
  if ctx.wal.hasPartition ref.partId then
    if ref.gen = ctx.wal.activeGen ref.partId then ctx.wal.readRecord ref
    else if ctx.sealedCache.readable ref.file then
      if ctx.wal.env.exists? ref.file then readFromSealed (ctx.wal.env.content ref.file) ref
      else .error (.ioError "ZF sealed file missing")
    else .error .notFound
  else .error (.corruption "ZeroFlush: bad part_id")

/-- `CheckRangeDelCover` asks only the partition of range tombstones. -/
def checkRangeDelCover (ctx : ZeroFlushContext) (userKey : Bytes) (snapshot : ℕ) : Bool :=
  ctx.indexSet.getRangeDelCover ctx.ucmp kRangeDelPartId userKey snapshot ctx.readValue

/-- The part of `GetFromPartitionIndex` that combines merge operands. -/
def mergeVersions (ctx : ZeroFlushContext) (mergeOp : Option (Bytes → Bytes → List Bytes → Option Bytes))
    (userKey : Bytes) (snapshot : ℕ) : GetResult :=
  let split := splitBase
    (ctx.indexSet.collectVersions ctx.ucmp (ctx.route userKey) userKey snapshot ctx.readValue)
  match split.2, mergeOp with
  | some base, some fullMerge =>
    if split.1 = [] then .mergeInProgress []
    else
      match fullMerge userKey base split.1 with
      | some v => .merged split.1 base v
      | none => .mergeInProgress split.1
  | _, _ => .mergeInProgress split.1

/-- `GetFromPartitionIndex` called with a merge context. -/
def getFromPartitionIndex (ctx : ZeroFlushContext)
    (mergeOp : Option (Bytes → Bytes → List Bytes → Option Bytes)) (userKey : Bytes)
    (snapshot : ℕ) : GetResult :=
  match ctx.indexSet.get ctx.ucmp (ctx.route userKey) userKey snapshot with
  | none => if ctx.checkRangeDelCover userKey snapshot then .notFound else .miss
  | some e =>
    if ctx.checkRangeDelCover userKey snapshot then .notFound
    else if e.type = kTypeDeletion ∨ e.type = kTypeSingleDeletion ∨ e.type = kTypeRangeDeletion then
      .notFound
    else
      match ctx.readValue e.loc with
      | .error _ => .miss
      | .ok v => if e.type = kTypeMerge then ctx.mergeVersions mergeOp userKey snapshot else .found v

/-- The partitions `Recover` looks at: those of the table and those with files. -/
def recoverParts (ctx : ZeroFlushContext) : List ℕ :=
  (ctx.tables.current.partIds ++ ctx.wal.env.listFiles.map Prod.fst).dedup.insertionSort (· ≤ ·)

/-- Generations below the newest one of their partition. -/
def orphans (ctx : ZeroFlushContext) : List FileId :=
  let files := ctx.wal.env.listFiles
  ctx.recoverParts.flatMap fun p => files.filter fun f => f.1 = p ∧ f.2 < maxGen p files

/-- The sequence number of the first record of a file, 0 if there is none. -/
def firstSeq (env : Env) (f : FileId) : ℕ :=
  ((WalScanner.scan (env.content f)).1.head?.map fun r => r.1.header.seq.toNat).getD 0

/-- The files in the order of their replay. -/
def replayOrder (env : Env) : List FileId :=
  env.listFiles.insertionSort fun f g => firstSeq env f ≤ firstSeq env g

/-- A replayed record, with the scanner's offset behind it, is indexed under the current table;
its locator keeps the file. -/
def replayRecord (f : FileId) (ctx : ZeroFlushContext) (r : Scanned × ℕ) : ZeroFlushContext :=
  let part := ctx.routeWithVersion r.1.key ctx.tables.currentVersion
  let offset := r.2 - zfRecordLength r.1.header.keyLen r.1.header.valLen
  { ctx with
    indexSet := ctx.indexSet.insertCreate ctx.ucmp part f.2
      ⟨r.1.key, r.1.header.seq.toNat % 2 ^ 56, r.1.header.type, ⟨f.1, f.2, offset⟩⟩ }

def replayFile (ctx : ZeroFlushContext) (f : FileId) : ZeroFlushContext :=
  (WalScanner.scan (ctx.wal.env.content f)).1.foldl (replayRecord f) ctx

def ensureActives (ctx : ZeroFlushContext) : ZeroFlushContext :=
  { ctx with
    indexSet := ctx.recoverParts.foldl
      (fun s p => s.ensureActive p (maxGen p ctx.wal.env.listFiles)) ctx.indexSet }

def recover (ctx : ZeroFlushContext) : ZeroFlushContext :=
  let orphans := ctx.orphans
  let adopted := if orphans = [] then ctx else
    { ctx with
      sealedCache := ctx.sealedCache.addRecoveryGens orphans
        (orphans.map fun f => (ctx.wal.env.content f).length).sum }
  (replayOrder ctx.wal.env).foldl replayFile adopted.ensureActives

/-- A new context over an opened manager, with the tables `Open` restored. -/
def openWith (ctx : ZeroFlushContext) (wal : PartitionedWalManager) (tables : PartitionTableSet) :
    ZeroFlushContext :=
  recover
    { zfo := ctx.zfo, ucmp := ctx.ucmp, wal := wal, tables := tables
      sealedCache := { reclaimEnabled := ctx.sealedCache.reclaimEnabled }
      sampler := ctx.sampler.map fun s => { sampleEveryN := s.sampleEveryN } }

end ZeroFlushContext

end ZeroFlush.Context
