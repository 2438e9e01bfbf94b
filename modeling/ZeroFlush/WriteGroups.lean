import ZeroFlush.ContextRuns
import ZeroFlush.GuardedRuns

/-! # Write groups

The leader of a write group routes every update of its batches with one table version, appends
them in order and syncs the partitions it has touched, which a 64-bit map collects. -/
namespace ZeroFlush.WriteGroups
open FixedWidthCodec WalFormat PartitionedWal PartitionTables Context ContextRuns GuardedRuns

/-- An update of a `WriteBatch`, with its column family. -/
inductive BatchUpdate
  | put (cf : ℕ) (key value : Bytes)
  | delete (cf : ℕ) (key : Bytes)
  | singleDelete (cf : ℕ) (key : Bytes)
  | deleteRange (cf : ℕ) (rangeBegin rangeEnd : Bytes)
  | merge (cf : ℕ) (key value : Bytes)
  deriving DecidableEq, Repr

namespace BatchUpdate

/-- What the handler passes to `AddRecord`. -/
def record (seq : UInt64) : BatchUpdate → WalRecord
  | put _ key value => ⟨key, value, kTypeValue, seq⟩
  | delete _ key => ⟨key, [], kTypeDeletion, seq⟩
  | singleDelete _ key => ⟨key, [], kTypeSingleDeletion, seq⟩
  | deleteRange _ rangeBegin rangeEnd => ⟨rangeBegin, rangeEnd, kTypeRangeDeletion, seq⟩
  | merge _ key value => ⟨key, value, kTypeMerge, seq⟩

/-- Range deletions and merges are taken for every column family. -/
def supported : BatchUpdate → Bool
  | put cf _ _ | delete cf _ | singleDelete cf _ => cf == 0
  | deleteRange _ _ _ | merge _ _ _ => true

end BatchUpdate

/-- The state of `ZfBatchHandler`: the context, the next sequence number, the touched map. -/
structure Handler where
  ctx : ZeroFlushContext
  seq : UInt64
  touched : UInt64 := 0

/-- The bit of a record: 63 for a range deletion, else its partition. -/
def touchedBit (ctx : ZeroFlushContext) (r : WalRecord) (tableVersion : ℕ) : UInt64 :=
  if r.type = kTypeRangeDeletion then (1 : UInt64) <<< 63
  else (1 : UInt64) <<< UInt64.ofNat (ctx.routeWithVersion r.key tableVersion)

namespace Handler

/-- One callback of the handler. -/
def handle (tableVersion : ℕ) (rnd : UInt64 → ℕ) (h : Handler) (u : BatchUpdate) :
    Except Status Unit × Handler :=
  if u.supported then
    let r := u.record h.seq
    match h.ctx.addRecord r tableVersion (rnd h.seq) with
    | (.ok _, ctx) =>
      (.ok (), ⟨ctx, h.seq + 1, h.touched ||| touchedBit h.ctx r tableVersion⟩)
    | (.error e, ctx) => (.error e, ⟨ctx, h.seq + 1, h.touched⟩)
  else (.error (.notSupported "ZeroFlush M1: multi column family not supported"), h)

/-- `WriteBatch::Iterate` over the updates of all batches stops at the first error. -/
def iterate (tableVersion : ℕ) (rnd : UInt64 → ℕ) : Handler → List BatchUpdate →
    Except Status Unit × Handler
  | h, [] => (.ok (), h)
  | h, u :: us =>
    match h.handle tableVersion rnd u with
    | (.ok _, h') => iterate tableVersion rnd h' us
    | (.error e, h') => (.error e, h')

end Handler

/-- The partitions named by the map; bit 63 stands for the range-delete partition. -/
def touchedPartitions (touched : UInt64) : List ℕ :=
  (List.range 64).filterMap fun p =>
    if touched.toNat.testBit p then some (if p = 63 then kRangeDelPartId else p) else none

/-- `SyncTouchedPartitions`. -/
def syncTouchedPartitions : ZeroFlushContext → List ℕ → Except Status Unit × ZeroFlushContext
  | ctx, [] => (.ok (), ctx)
  | ctx, p :: ps =>
    match ctx.wal.sync p with
    | (.error e, wal) => (.error e, { ctx with wal := wal })
    | (.ok _, wal) => syncTouchedPartitions { ctx with wal := wal } ps

def shouldSeal (ctx : ZeroFlushContext) : Bool :=
  (ctx.zfo.indexMemBudget > 0 && ctx.indexSet.totalMemBytes ≥ ctx.zfo.indexMemBudget) ||
    ctx.wal.totalActiveBytes ≥ ctx.zfo.epochTargetBytes || ctx.wal.anyOverTarget

/-- The freeze at the start of a write group. -/
def sealIfDue (ctx : ZeroFlushContext) (l1 : List L1File) : ZeroFlushContext :=
  if shouldSeal ctx then ctx.freezeBatchPartitions l1 else ctx

/-- A write group of the sequential path: the table version is taken before the freeze. -/
def writeGroup (ctx : ZeroFlushContext) (updates : List BatchUpdate) (firstSeq : UInt64)
    (sync : Bool) (l1 : List L1File) (rnd : UInt64 → ℕ) :
    Except Status Unit × ZeroFlushContext :=
  let tableVersion := ctx.tables.currentVersion
  let written := Handler.iterate tableVersion rnd ⟨sealIfDue ctx l1, firstSeq, 0⟩ updates
  match written with
  | (.error e, h) => (.error e, h.ctx)
  | (.ok _, h) =>
    if sync then syncTouchedPartitions h.ctx (touchedPartitions h.touched) else (.ok (), h.ctx)

/-- The records of a list of updates with consecutive sequence numbers. -/
def recordsFrom : UInt64 → List BatchUpdate → List WalRecord
  | _, [] => []
  | seq, u :: us => u.record seq :: recordsFrom (seq + 1) us

/-- The appends of a list of updates as operations of a run. -/
def addOps (tableVersion : ℕ) (rnd : UInt64 → ℕ) (seq : UInt64) (us : List BatchUpdate) :
    List ContextOp :=
  (recordsFrom seq us).map fun r => .addRecord r tableVersion (rnd r.seq)

/-- The map of the partitions a list of records touches. -/
def touchedBy (ctx : ZeroFlushContext) (tableVersion : ℕ) (rs : List WalRecord) : UInt64 :=
  rs.foldl (fun t r => t ||| touchedBit ctx r tableVersion) 0

/-- A write group as operations of a run. -/
def groupOps (ctx : ZeroFlushContext) (updates : List BatchUpdate) (firstSeq : UInt64) (sync : Bool)
    (l1 : List L1File) (rnd : UInt64 → ℕ) : List ContextOp :=
  let v := ctx.tables.currentVersion
  (if shouldSeal ctx then [.freezeBatchPartitions l1] else []) ++ (addOps v rnd firstSeq updates ++
    if sync then
      (touchedPartitions (touchedBy (sealIfDue ctx l1) v (recordsFrom firstSeq updates))).map .sync
    else [])

variable {tableVersion : ℕ} {rnd : UInt64 → ℕ}

theorem record_seq (seq : UInt64) (u : BatchUpdate) : (u.record seq).seq = seq := by
  cases u <;> rfl

/-- The tables stay as they are while records are added. -/
theorem tables_addRecord (ctx : ZeroFlushContext) (r : WalRecord) (v n : ℕ) :
    (ctx.addRecord r v n).2.tables = ctx.tables ∧ (ctx.addRecord r v n).2.ucmp = ctx.ucmp ∧
      (ctx.addRecord r v n).2.zfo = ctx.zfo := by
  rw [ZeroFlushContext.addRecord]
  cases ctx.wal.append (ctx.partOf r v) r with
  | mk res wal => cases res <;> exact ⟨rfl, rfl, rfl⟩

theorem touchedBit_addRecord (ctx : ZeroFlushContext) (r q : WalRecord) (v n w : ℕ) :
    touchedBit (ctx.addRecord r v n).2 q w = touchedBit ctx q w := by
  obtain ⟨ht, hu, hz⟩ := tables_addRecord ctx r v n
  rw [touchedBit, touchedBit, ZeroFlushContext.routeWithVersion, ZeroFlushContext.routeWithVersion,
    ht, hu, hz]

/-- What a handler that saw no error has done. -/
theorem iterate_ok {h h' : Handler} {us : List BatchUpdate}
    (hit : h.iterate tableVersion rnd us = (.ok (), h')) :
    h'.ctx = run step h.ctx (addOps tableVersion rnd h.seq us) ∧
      h'.touched = (recordsFrom h.seq us).foldl
        (fun t r => t ||| touchedBit h.ctx r tableVersion) h.touched := by
  induction us generalizing h with
  | nil =>
    cases hit
    exact ⟨rfl, rfl⟩
  | cons u us ih =>
    rw [Handler.iterate] at hit
    cases hh : h.handle tableVersion rnd u with
    | mk res h₁ =>
      rw [hh] at hit
      cases res with
      | error e => cases hit
      | ok _ =>
        rw [Handler.handle] at hh
        split at hh
        next =>
          dsimp only at hh
          cases ha : h.ctx.addRecord (u.record h.seq) tableVersion (rnd h.seq) with
          | mk res ctx =>
            rw [ha] at hh
            cases res with
            | error e => cases hh
            | ok ref =>
              cases hh
              obtain ⟨hctx, htouched⟩ := ih hit
              have hctx₁ : ctx = (h.ctx.addRecord (u.record h.seq) tableVersion (rnd h.seq)).2 := by
                rw [ha]
              refine ⟨?_, ?_⟩
              · rw [hctx, hctx₁, addOps, addOps, recordsFrom, List.map_cons, record_seq]
                rfl
              · rw [htouched, recordsFrom, List.foldl_cons]
                congr 1
                funext t r
                rw [hctx₁, touchedBit_addRecord]
        next => cases hh

theorem syncTouchedPartitions_ok {ctx ctx' : ZeroFlushContext} {ps : List ℕ}
    (h : syncTouchedPartitions ctx ps = (.ok (), ctx')) :
    ctx' = run step ctx (ps.map .sync) ∧ ∀ p ∈ ps, ctx.wal.hasPartition p = true := by
  induction ps generalizing ctx with
  | nil =>
    cases h
    exact ⟨rfl, by simp⟩
  | cons p ps ih =>
    rw [syncTouchedPartitions] at h
    cases hs : ctx.wal.sync p with
    | mk res wal =>
      rw [hs] at h
      cases res with
      | error e => cases h
      | ok _ =>
        have hwal : wal = (ctx.wal.sync p).2 := by rw [hs]
        obtain ⟨hctx, hhas⟩ := ih h
        have hp : ctx.wal.hasPartition p = true := by
          rw [PartitionedWalManager.sync] at hs
          cases hl : ctx.wal.parts.lookup p with
          | none =>
            rw [hl] at hs
            cases hs
          | some q => exact hasPartition_iff.mpr ⟨q, hl⟩
        refine ⟨by rw [hctx, hwal]; rfl, ?_⟩
        intro q hq
        cases List.mem_cons.mp hq with
        | inl he => exact he ▸ hp
        | inr hm =>
          have hq' := hhas q hm
          rwa [hwal, show ({ ctx with wal := (ctx.wal.sync p).2 } : ZeroFlushContext).wal =
            (ctx.wal.sync p).2 from rfl, hasPartition_sync] at hq'

theorem run_sealIfDue (ctx : ZeroFlushContext) (l1 : List L1File) :
    run step ctx (if shouldSeal ctx then [.freezeBatchPartitions l1] else []) = sealIfDue ctx l1 := by
  rw [sealIfDue]
  split <;> rfl

/-- An acknowledged write group is a run of its operations. -/
theorem writeGroup_ok {ctx ctx' : ZeroFlushContext} {updates : List BatchUpdate} {firstSeq : UInt64}
    {sync : Bool} {l1 : List L1File}
    (h : writeGroup ctx updates firstSeq sync l1 rnd = (.ok (), ctx')) :
    ctx' = run step ctx (groupOps ctx updates firstSeq sync l1 rnd) := by
  rw [groupOps, run_append, run_append, run_sealIfDue]
  rw [writeGroup] at h
  cases hit : Handler.iterate ctx.tables.currentVersion rnd ⟨sealIfDue ctx l1, firstSeq, 0⟩ updates with
  | mk res h' =>
    rw [hit] at h
    cases res with
    | error e => cases h
    | ok _ =>
      obtain ⟨hctx, htouched⟩ := iterate_ok hit
      cases sync with
      | false =>
        cases h
        exact hctx
      | true =>
        obtain ⟨hsync, -⟩ := syncTouchedPartitions_ok h
        rw [hsync, htouched, hctx]
        rfl

/-- Which bit a record sets; a shift by a larger partition id wraps around. -/
def bitOf (ctx : ZeroFlushContext) (tableVersion : ℕ) (r : WalRecord) : ℕ :=
  if r.type = kTypeRangeDeletion then 63 else ctx.routeWithVersion r.key tableVersion % 64

/-- The partition that stands for a bit in the list of touched partitions. -/
def partOfBit (bit : ℕ) : ℕ := if bit = 63 then kRangeDelPartId else bit

theorem bitOf_lt (ctx : ZeroFlushContext) (v : ℕ) (r : WalRecord) : bitOf ctx v r < 64 := by
  rw [bitOf]
  split
  · omega
  · exact Nat.mod_lt _ (by omega)

theorem testBit_shift {k p : ℕ} (hp : p < 64) :
    ((1 : UInt64) <<< UInt64.ofNat k).toNat.testBit p = true ↔ p = k % 64 := by
  have hmod : (UInt64.ofNat k).toNat % 64 = k % 64 := by
    rw [UInt64.toNat_ofNat']
    omega
  rw [UInt64.toNat_shiftLeft, Nat.testBit_mod_two_pow, hmod, UInt64.toNat_one, Nat.one_shiftLeft,
    Nat.testBit_two_pow]
  simp [hp, eq_comm]

theorem testBit_touchedBit {ctx : ZeroFlushContext} {r : WalRecord} {v p : ℕ} (hp : p < 64) :
    (touchedBit ctx r v).toNat.testBit p = true ↔ p = bitOf ctx v r := by
  rw [touchedBit, bitOf]
  split
  · exact testBit_shift (k := 63) hp
  · exact testBit_shift hp

theorem testBit_touchedBy {ctx : ZeroFlushContext} {v p : ℕ} {rs : List WalRecord} (hp : p < 64) :
    (touchedBy ctx v rs).toNat.testBit p = true ↔ ∃ r ∈ rs, p = bitOf ctx v r := by
  suffices hfold : ∀ (rs : List WalRecord) (t : UInt64),
      (rs.foldl (fun t r => t ||| touchedBit ctx r v) t).toNat.testBit p = true ↔
        t.toNat.testBit p = true ∨ ∃ r ∈ rs, p = bitOf ctx v r by
    rw [touchedBy, hfold]
    simp
  intro rs
  induction rs with
  | nil => simp
  | cons r rs ih =>
    intro t
    rw [List.foldl_cons, ih, UInt64.toNat_or, Nat.testBit_or, Bool.or_eq_true,
      testBit_touchedBit hp, or_assoc]
    simp

/-- The partitions the map names. -/
theorem mem_touchedPartitions_iff {ctx : ZeroFlushContext} {v q : ℕ} {rs : List WalRecord} :
    q ∈ touchedPartitions (touchedBy ctx v rs) ↔ ∃ r ∈ rs, q = partOfBit (bitOf ctx v r) := by
  rw [touchedPartitions, List.mem_filterMap]
  constructor
  · rintro ⟨p, hp, hq⟩
    split at hq
    next hbit =>
      obtain ⟨r, hr, rfl⟩ := (testBit_touchedBy (List.mem_range.mp hp)).mp hbit
      exact ⟨r, hr, (Option.some.inj hq).symm⟩
    next => cases hq
  · rintro ⟨r, hr, rfl⟩
    have hlt := bitOf_lt ctx v r
    refine ⟨bitOf ctx v r, List.mem_range.mpr hlt, ?_⟩
    rw [if_pos ((testBit_touchedBy hlt).mpr ⟨r, hr, rfl⟩), partOfBit]

/-- Below bit 63 the map names the partitions of its records, and bit 63 that of the range
deletions. -/
theorem partOfBit_bitOf {ctx : ZeroFlushContext} {r : WalRecord} {v : ℕ}
    (hp : r.type = kTypeRangeDeletion ∨ ctx.routeWithVersion r.key v < 63) :
    partOfBit (bitOf ctx v r) = ctx.partOf r v := by
  rw [bitOf, ZeroFlushContext.partOf, partOfBit]
  by_cases ht : r.type = kTypeRangeDeletion
  · rw [if_pos ht, if_pos rfl, if_pos ht]
  · have hlt := hp.resolve_left ht
    have hmod : ctx.routeWithVersion r.key v % 64 = ctx.routeWithVersion r.key v :=
      Nat.mod_eq_of_lt (by omega)
    rw [if_neg ht, if_neg ht, hmod, if_neg (by omega)]

theorem mem_touchedPartitions {ctx : ZeroFlushContext} {r : WalRecord} {v : ℕ} {rs : List WalRecord}
    (hr : r ∈ rs) (hp : r.type = kTypeRangeDeletion ∨ ctx.routeWithVersion r.key v < 63) :
    ctx.partOf r v ∈ touchedPartitions (touchedBy ctx v rs) :=
  mem_touchedPartitions_iff.mpr ⟨r, hr, (partOfBit_bitOf hp).symm⟩

def twoPartitions : PartitionTableSet := .init (.createHash 0 2 Nat.two_pos)

end ZeroFlush.WriteGroups
