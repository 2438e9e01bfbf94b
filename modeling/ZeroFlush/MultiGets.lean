import ZeroFlush.ContextRuns
import ZeroFlush.WriteGroups

/-! # Point reads of one key and of many

`GetImpl` asks the partition indexes first and the SSTs after a miss. `MultiGetImpl` asks the
memtables, into which no record is ever written, and then the SSTs. -/
namespace ZeroFlush.MultiGets
open FixedWidthCodec WalFormat PartitionedWal PartitionIndexes PartitionTables UserKeys Context
  ContextRuns WriteGroups

/-- Status and value of a read. -/
inductive Answer
  | ok (value : Bytes)
  | notFound
  | failed (s : Status)
  deriving DecidableEq, Repr

/-- A super version. `tableVersions` are the versions of a key that the SSTs hold at a snapshot, in
the order of the search; those below a range tombstone have its type. -/
structure SuperVersion where
  ctx : ZeroFlushContext
  fullMerge : Option (Bytes → Option Bytes → List Bytes → Option Bytes)
  tableVersions : Bytes → ℕ → List (UInt8 × Bytes)

/-- `TimedFullMerge`. -/
def timedFullMerge (fullMerge : Option (Bytes → Option Bytes → List Bytes → Option Bytes))
    (key : Bytes) (base : Option Bytes) (operands : List Bytes) : Answer :=
  match fullMerge with
  | none => .failed (.invalidArgument "merge_operator is not properly initialized.")
  | some merge =>
    match merge key base operands with
    | some v => .ok v
    | none => .failed (.corruption "merge operator failed")

/-- The calls of `GetContext::SaveValue`; the operands are there if the status is
`MergeInProgress`. -/
def saveValues (fullMerge : Option (Bytes → Option Bytes → List Bytes → Option Bytes)) (key : Bytes) :
    Option (List Bytes) → List (UInt8 × Bytes) → Answer
  | none, [] => .notFound
  | some operands, [] => timedFullMerge fullMerge key none operands
  | state, (type, v) :: rest =>
    if type = kTypeValue then
      match state with
      | none => .ok v
      | some operands => timedFullMerge fullMerge key (some v) operands
    else if type = kTypeMerge then saveValues fullMerge key (some (state.getD [] ++ [v])) rest
    else
      match state with
      | none => .notFound
      | some operands => timedFullMerge fullMerge key none operands

namespace SuperVersion
variable (sv : SuperVersion)

/-- The merge operator where there is a base value. -/
def mergeOp : Option (Bytes → Bytes → List Bytes → Option Bytes) :=
  sv.fullMerge.map fun merge key base operands => merge key (some base) operands

/-- `Version::Get`, and `Version::MultiGet` for each of its keys. -/
def versionGet (key : Bytes) (snapshot : ℕ) (operands : Option (List Bytes)) : Answer :=
  saveValues sv.fullMerge key operands (sv.tableVersions key snapshot)

/-- `DBImpl::GetImpl`. -/
def getImpl (key : Bytes) (snapshot : ℕ) : Answer :=
  match sv.ctx.getFromPartitionIndex sv.mergeOp key snapshot with
  | .found v | .merged _ _ v => .ok v
  | .notFound => .notFound
  | .miss => sv.versionGet key snapshot none
  | .mergeInProgress operands => sv.versionGet key snapshot (some operands)

/-- `MultiGetContext::MAX_BATCH_SIZE`. -/
def maxBatchSize : ℕ := 32

/-- `DBImpl::MultiGetImpl`: the keys in batches, each with no operands collected. -/
def multiGetImpl (snapshot : ℕ) : List Bytes → List Answer
  | [] => []
  | key :: keys =>
    ((key :: keys).take maxBatchSize).map (fun k => sv.versionGet k snapshot none) ++
      multiGetImpl snapshot ((key :: keys).drop maxBatchSize)
termination_by keys => keys.length
decreasing_by
  simp only [List.length_drop, List.length_cons, maxBatchSize]
  omega

end SuperVersion

/-- The newest version the indexes hold of the key. -/
def newest (ctx : ZeroFlushContext) (key : Bytes) (snapshot : ℕ) : Option IndexEntry :=
  ctx.indexSet.get ctx.ucmp (ctx.route key) key snapshot

/-- The entry stands for a deletion. -/
def Deletes (e : IndexEntry) : Prop :=
  e.type = kTypeDeletion ∨ e.type = kTypeSingleDeletion ∨ e.type = kTypeRangeDeletion

/-- What the indexes hold of a key adds nothing to the SSTs. -/
inductive Redundant (sv : SuperVersion) (key : Bytes) (snapshot : ℕ) : Prop
  | silent (hcover : sv.ctx.checkRangeDelCover key snapshot = false)
      (hnewest : newest sv.ctx key snapshot = none)
  | covered (hcover : sv.ctx.checkRangeDelCover key snapshot = true)
      (htables : sv.versionGet key snapshot none = .notFound)
  | deleted {e : IndexEntry} (hcover : sv.ctx.checkRangeDelCover key snapshot = false)
      (hnewest : newest sv.ctx key snapshot = some e) (hdel : Deletes e)
      (htables : sv.versionGet key snapshot none = .notFound)
  | unreadable {e : IndexEntry} {s : Status}
      (hcover : sv.ctx.checkRangeDelCover key snapshot = false)
      (hnewest : newest sv.ctx key snapshot = some e) (hdel : ¬ Deletes e)
      (hread : sv.ctx.readValue e.loc = .error s)
  | value {e : IndexEntry} {v : Bytes} (hcover : sv.ctx.checkRangeDelCover key snapshot = false)
      (hnewest : newest sv.ctx key snapshot = some e) (hdel : ¬ Deletes e)
      (hread : sv.ctx.readValue e.loc = .ok v) (htype : e.type ≠ kTypeMerge)
      (htables : sv.versionGet key snapshot none = .ok v)
  | merged {e : IndexEntry} {w base v : Bytes} {operands : List Bytes}
      (hcover : sv.ctx.checkRangeDelCover key snapshot = false)
      (hnewest : newest sv.ctx key snapshot = some e) (hdel : ¬ Deletes e)
      (hread : sv.ctx.readValue e.loc = .ok w) (htype : e.type = kTypeMerge)
      (hmerge : sv.ctx.mergeVersions sv.mergeOp key snapshot = .merged operands base v)
      (htables : sv.versionGet key snapshot none = .ok v)
  | operands {e : IndexEntry} {w : Bytes} {operands : List Bytes}
      (hcover : sv.ctx.checkRangeDelCover key snapshot = false)
      (hnewest : newest sv.ctx key snapshot = some e) (hdel : ¬ Deletes e)
      (hread : sv.ctx.readValue e.loc = .ok w) (htype : e.type = kTypeMerge)
      (hmerge : sv.ctx.mergeVersions sv.mergeOp key snapshot = .mergeInProgress operands)
      (htables : sv.versionGet key snapshot (some operands) = sv.versionGet key snapshot none)

variable {sv : SuperVersion} {key : Bytes} {snapshot : ℕ}

theorem multiGetImpl_eq (sv : SuperVersion) (snapshot : ℕ) (keys : List Bytes) :
    sv.multiGetImpl snapshot keys = keys.map fun key => sv.versionGet key snapshot none := by
  induction keys using SuperVersion.multiGetImpl.induct with
  | case1 => rw [SuperVersion.multiGetImpl, List.map_nil]
  | case2 key keys ih =>
    rw [SuperVersion.multiGetImpl, ih, ← List.map_append, List.take_append_drop]

/-- A combination of versions gives operands or a value. -/
theorem mergeVersions_cases (ctx : ZeroFlushContext)
    (mergeOp : Option (Bytes → Bytes → List Bytes → Option Bytes)) (key : Bytes) (snapshot : ℕ) :
    (∃ operands base v, ctx.mergeVersions mergeOp key snapshot = .merged operands base v) ∨
      ∃ operands, ctx.mergeVersions mergeOp key snapshot = .mergeInProgress operands := by
  rw [ZeroFlushContext.mergeVersions.eq_def]
  dsimp only
  split
  · split
    · exact .inr ⟨_, rfl⟩
    · split
      · exact .inl ⟨_, _, _, rfl⟩
      · exact .inr ⟨_, rfl⟩
  · exact .inr ⟨_, rfl⟩

section index
variable {ctx : ZeroFlushContext} {mergeOp : Option (Bytes → Bytes → List Bytes → Option Bytes)}
  {e : IndexEntry}

theorem getFromPartitionIndex_covered (hcover : ctx.checkRangeDelCover key snapshot = true) :
    ctx.getFromPartitionIndex mergeOp key snapshot = .notFound := by
  rw [ZeroFlushContext.getFromPartitionIndex]
  split <;> rw [if_pos hcover]

theorem getFromPartitionIndex_silent (hcover : ctx.checkRangeDelCover key snapshot = false)
    (hnewest : newest ctx key snapshot = none) :
    ctx.getFromPartitionIndex mergeOp key snapshot = .miss := by
  rw [newest] at hnewest
  rw [ZeroFlushContext.getFromPartitionIndex, hnewest]
  simp [hcover]

theorem getFromPartitionIndex_deleted (hcover : ctx.checkRangeDelCover key snapshot = false)
    (hnewest : newest ctx key snapshot = some e) (hdel : Deletes e) :
    ctx.getFromPartitionIndex mergeOp key snapshot = .notFound := by
  rw [newest] at hnewest
  rw [Deletes] at hdel
  rw [ZeroFlushContext.getFromPartitionIndex, hnewest]
  simp [hcover, hdel]

/-- An entry that is no deletion is read. -/
theorem getFromPartitionIndex_read (hcover : ctx.checkRangeDelCover key snapshot = false)
    (hnewest : newest ctx key snapshot = some e) (hdel : ¬ Deletes e) :
    ctx.getFromPartitionIndex mergeOp key snapshot =
      match ctx.readValue e.loc with
      | .error _ => .miss
      | .ok v =>
        if e.type = kTypeMerge then ctx.mergeVersions mergeOp key snapshot else .found v := by
  rw [newest] at hnewest
  rw [Deletes] at hdel
  rw [ZeroFlushContext.getFromPartitionIndex, hnewest]
  simp only [hcover, Bool.false_eq_true, if_false]
  refine (if_neg hdel).trans ?_
  cases ctx.readValue e.loc <;> rfl

end index

theorem versionGet_eq_getImpl (h : Redundant sv key snapshot) :
    sv.versionGet key snapshot none = sv.getImpl key snapshot := by
  rw [SuperVersion.getImpl]
  cases h with
  | silent hcover hnewest => rw [getFromPartitionIndex_silent hcover hnewest]
  | covered hcover htables => rw [getFromPartitionIndex_covered hcover, htables]
  | deleted hcover hnewest hdel htables =>
    rw [getFromPartitionIndex_deleted hcover hnewest hdel, htables]
  | unreadable hcover hnewest hdel hread =>
    rw [getFromPartitionIndex_read hcover hnewest hdel, hread]
  | value hcover hnewest hdel hread htype htables =>
    rw [getFromPartitionIndex_read hcover hnewest hdel, hread, htables]
    dsimp only
    rw [if_neg htype]
  | merged hcover hnewest hdel hread htype hmerge htables =>
    rw [getFromPartitionIndex_read hcover hnewest hdel, hread, htables]
    dsimp only
    rw [if_pos htype, hmerge]
  | operands hcover hnewest hdel hread htype hmerge htables =>
    rw [getFromPartitionIndex_read hcover hnewest hdel, hread]
    dsimp only
    rw [if_pos htype, hmerge]
    exact htables.symm

/-- Conversely, whatever else the indexes answer differs from the answer of the SSTs. -/
theorem redundant_of_eq (h : sv.versionGet key snapshot none = sv.getImpl key snapshot) :
    Redundant sv key snapshot := by
  rw [SuperVersion.getImpl] at h
  cases hcover : sv.ctx.checkRangeDelCover key snapshot with
  | true =>
    rw [getFromPartitionIndex_covered hcover] at h
    exact .covered hcover h
  | false =>
    cases hnewest : newest sv.ctx key snapshot with
    | none => exact .silent hcover hnewest
    | some e =>
      by_cases hdel : Deletes e
      · rw [getFromPartitionIndex_deleted hcover hnewest hdel] at h
        exact .deleted hcover hnewest hdel h
      · rw [getFromPartitionIndex_read hcover hnewest hdel] at h
        cases hread : sv.ctx.readValue e.loc with
        | error s => exact .unreadable hcover hnewest hdel hread
        | ok v =>
          rw [hread] at h
          dsimp only at h
          by_cases htype : e.type = kTypeMerge
          · rw [if_pos htype] at h
            obtain ⟨operands, base, w, hmerge⟩ | ⟨operands, hmerge⟩ :=
              mergeVersions_cases sv.ctx sv.mergeOp key snapshot
            · rw [hmerge] at h
              exact .merged hcover hnewest hdel hread htype hmerge h
            · rw [hmerge] at h
              exact .operands hcover hnewest hdel hread htype hmerge h.symm
          · rw [if_neg htype] at h
            exact .value hcover hnewest hdel hread htype h

/-- One key has been put and not been materialized. -/
def unflushed : SuperVersion where
  ctx := step (start { partitions := 2 } .bytewise twoPartitions none)
    (.addRecord ⟨[1], [2], kTypeValue, 1⟩ 0 0)
  fullMerge := none
  tableVersions _ _ := []

end ZeroFlush.MultiGets
