import ZeroFlush.WriteGroups

/-! # The partitions a synced write passes on

A write with `sync` hands the partitions named by its map to `SyncTouchedPartitions`. The map has
one bit for each partition below 63 and one for the range deletions. -/
namespace ZeroFlush.SyncedPartitions
open FixedWidthCodec WalFormat PartitionedWal WalLogs PartitionTables Context ContextRuns WriteGroups

/-- The partitions a list of records is appended to. -/
def writtenPartitions (ctx : ZeroFlushContext) (tableVersion : ℕ) (rs : List WalRecord) : List ℕ :=
  rs.map fun r => ctx.partOf r tableVersion

/-- The synced partitions are the written ones, and syncing them succeeds. -/
def SyncsWritten (ctx : ZeroFlushContext) (tableVersion : ℕ) (rs : List WalRecord) (h : Handler) :
    Prop :=
  (∀ p, p ∈ touchedPartitions h.touched ↔ p ∈ writtenPartitions ctx tableVersion rs) ∧
    (syncTouchedPartitions h.ctx (touchedPartitions h.touched)).1 = .ok ()

variable {ctx ctx' : ZeroFlushContext} {r : WalRecord} {v n : ℕ} {rnd : UInt64 → ℕ}

theorem hasPartition_addRecord {ref : WalRecordRef} (h : ctx.addRecord r v n = (.ok ref, ctx')) :
    ctx'.wal.hasPartition (ctx.partOf r v) = true ∧
      ∀ i, ctx.wal.hasPartition i = true → ctx'.wal.hasPartition i = true := by
  rw [ZeroFlushContext.addRecord] at h
  cases ha : ctx.wal.append (ctx.partOf r v) r with
  | mk res wal =>
    rw [ha] at h
    cases res with
    | error e => cases h
    | ok ref' =>
      cases h
      exact hasPartition_append ha

theorem partOf_addRecord (q : WalRecord) (w : ℕ) :
    (ctx.addRecord r v n).2.partOf q w = ctx.partOf q w := by
  obtain ⟨ht, hu, hz⟩ := tables_addRecord ctx r v n
  rw [ZeroFlushContext.partOf, ZeroFlushContext.partOf, ZeroFlushContext.routeWithVersion,
    ZeroFlushContext.routeWithVersion, ht, hu, hz]

/-- After a handler that saw no error every written partition is there. -/
theorem hasPartition_iterate {h h' : Handler} {us : List BatchUpdate}
    (hit : h.iterate v rnd us = (.ok (), h')) :
    (∀ p ∈ writtenPartitions h.ctx v (recordsFrom h.seq us), h'.ctx.wal.hasPartition p = true) ∧
      ∀ i, h.ctx.wal.hasPartition i = true → h'.ctx.wal.hasPartition i = true := by
  induction us generalizing h with
  | nil =>
    cases hit
    exact ⟨fun p hp => absurd hp List.not_mem_nil, fun _ hi => hi⟩
  | cons u us ih =>
    rw [Handler.iterate] at hit
    cases hh : h.handle v rnd u with
    | mk res h₁ =>
      rw [hh] at hit
      cases res with
      | error e => cases hit
      | ok _ =>
        rw [Handler.handle] at hh
        split at hh
        next =>
          dsimp only at hh
          cases ha : h.ctx.addRecord (u.record h.seq) v (rnd h.seq) with
          | mk res ctx₁ =>
            rw [ha] at hh
            cases res with
            | error e => cases hh
            | ok ref =>
              cases hh
              obtain ⟨hrest, hmono⟩ := ih hit
              obtain ⟨hnew, hkeep⟩ := hasPartition_addRecord ha
              refine ⟨?_, fun i hi => hmono i (hkeep i hi)⟩
              intro p hp
              rw [recordsFrom, writtenPartitions, List.map_cons] at hp
              cases List.mem_cons.mp hp with
              | inl he =>
                subst he
                exact hmono _ hnew
              | inr hp =>
                apply hrest
                rw [writtenPartitions]
                have hctx : ctx₁ = (h.ctx.addRecord (u.record h.seq) v (rnd h.seq)).2 := by rw [ha]
                simpa only [hctx, partOf_addRecord] using hp
        next => cases hh

/-- Syncing partitions that are there succeeds. -/
theorem syncTouchedPartitions_of_hasPartition {ps : List ℕ}
    (h : ∀ p ∈ ps, ctx.wal.hasPartition p = true) : (syncTouchedPartitions ctx ps).1 = .ok () := by
  induction ps generalizing ctx with
  | nil => rfl
  | cons p ps ih =>
    obtain ⟨q, hq⟩ := hasPartition_iff.mp (h p List.mem_cons_self)
    have hsync : ctx.wal.sync p = (.ok (), (ctx.wal.sync p).2) := by
      rw [PartitionedWalManager.sync, hq]
    rw [syncTouchedPartitions, hsync]
    apply ih
    intro i hi
    have hold := h i (List.mem_cons_of_mem _ hi)
    rwa [← hasPartition_sync ctx.wal p i] at hold

/-- A synced write passes on exactly the partitions it has written when every record other than a
range deletion lies in a partition below 63. -/
theorem syncs_written_iff (ctx : ZeroFlushContext) (tableVersion : ℕ) (rnd : UInt64 → ℕ)
    (firstSeq : UInt64) (us : List BatchUpdate) (h' : Handler)
    (hit : Handler.iterate tableVersion rnd ⟨ctx, firstSeq, 0⟩ us = (.ok (), h'))
    (hids : ∀ r ∈ recordsFrom firstSeq us,
      ctx.routeWithVersion r.key tableVersion ≠ kRangeDelPartId) :
    SyncsWritten ctx tableVersion (recordsFrom firstSeq us) h' ↔
      ∀ r ∈ recordsFrom firstSeq us,
        r.type = kTypeRangeDeletion ∨ ctx.routeWithVersion r.key tableVersion < 63 := by
  have htouched : h'.touched = touchedBy ctx tableVersion (recordsFrom firstSeq us) :=
    (iterate_ok hit).2
  rw [SyncsWritten, htouched]
  constructor
  · rintro ⟨hsame, -⟩ r hr
    refine or_iff_not_imp_left.mpr fun ht => ?_
    have hpart : ctx.partOf r tableVersion = ctx.routeWithVersion r.key tableVersion := if_neg ht
    -- the partition of the record is named by some bit
    have hmem := (hsame (ctx.partOf r tableVersion)).mpr (List.mem_map.mpr ⟨r, hr, rfl⟩)
    obtain ⟨q, -, hq⟩ := mem_touchedPartitions_iff.mp hmem
    rw [hpart, partOfBit] at hq
    split at hq
    next => exact absurd hq (hids r hr)
    next hne =>
      have hlt := bitOf_lt ctx tableVersion q
      omega
  · intro hbelow
    have hsame : ∀ p, p ∈ touchedPartitions (touchedBy ctx tableVersion (recordsFrom firstSeq us)) ↔
        p ∈ writtenPartitions ctx tableVersion (recordsFrom firstSeq us) := by
      intro p
      rw [mem_touchedPartitions_iff, writtenPartitions, List.mem_map]
      constructor
      · rintro ⟨r, hr, rfl⟩
        exact ⟨r, hr, (partOfBit_bitOf (hbelow r hr)).symm⟩
      · rintro ⟨r, hr, rfl⟩
        exact ⟨r, hr, (partOfBit_bitOf (hbelow r hr)).symm⟩
    refine ⟨hsame, syncTouchedPartitions_of_hasPartition fun p hp => ?_⟩
    exact (hasPartition_iterate hit).1 p ((hsame p).mp hp)

/-- A put and a range deletion over two partitions. -/
def mixedBatch : List BatchUpdate := [.put 0 [97] [1], .deleteRange 0 [97] [98], .merge 0 [99] [2]]

def mixedWritten : Except Status Unit × Handler :=
  Handler.iterate 0 (fun _ => 0) ⟨start { partitions := 2 } .bytewise twoPartitions none, 1, 0⟩
    mixedBatch

theorem syncs_written_of_mixedBatch :
    mixedWritten.1 = .ok () ∧
      SyncsWritten (start { partitions := 2 } .bytewise twoPartitions none) 0
        (recordsFrom 1 mixedBatch) mixedWritten.2 := by
  have hok : mixedWritten.1 = .ok () := by decide +kernel
  have hit : mixedWritten = (.ok (), mixedWritten.2) := by rw [← hok, Prod.mk.eta]
  have hids : ∀ r ∈ recordsFrom 1 mixedBatch,
      (start { partitions := 2 } .bytewise twoPartitions none).routeWithVersion r.key 0 ≠
        kRangeDelPartId := by decide +kernel
  have hbelow : ∀ r ∈ recordsFrom 1 mixedBatch, r.type = kTypeRangeDeletion ∨
      (start { partitions := 2 } .bytewise twoPartitions none).routeWithVersion r.key 0 < 63 := by
    decide +kernel
  nth_rewrite 1 [mixedWritten] at hit
  exact ⟨hok, (syncs_written_iff _ 0 (fun _ => 0) 1 mixedBatch _ hit hids).mpr hbelow⟩

/-- The default number of partitions. -/
def defaultContext : ZeroFlushContext :=
  start {} .bytewise (.init (.createHash 0 64 (by decide))) none

/-- The key lies in the last partition. -/
def lastPartitionWritten : Except Status Unit × Handler :=
  Handler.iterate 0 (fun _ => 0) ⟨defaultContext, 1, 0⟩ [.put 0 [78] [1]]

/-- The record is appended to partition 63, the range-delete partition is named in its place, and
the write with `sync` is refused. -/
theorem syncs_written_fails :
    lastPartitionWritten.1 = .ok () ∧
      writtenPartitions defaultContext 0 (recordsFrom 1 [.put 0 [78] [1]]) = [63] ∧
      touchedPartitions lastPartitionWritten.2.touched = [kRangeDelPartId] ∧
      (writeGroup defaultContext [.put 0 [78] [1]] 1 true [] fun _ => 0).1 =
        .error (.invalidArgument "ZF Sync: unknown partition 4294967294") ∧
      ¬ SyncsWritten defaultContext 0 (recordsFrom 1 [.put 0 [78] [1]]) lastPartitionWritten.2 := by
  have hfacts : lastPartitionWritten.1 = .ok () ∧
      writtenPartitions defaultContext 0 (recordsFrom 1 [.put 0 [78] [1]]) = [63] ∧
      touchedPartitions lastPartitionWritten.2.touched = [kRangeDelPartId] ∧
      (writeGroup defaultContext [.put 0 [78] [1]] 1 true [] fun _ => 0).1 =
        .error (.invalidArgument "ZF Sync: unknown partition 4294967294") := by decide +kernel
  refine ⟨hfacts.1, hfacts.2.1, hfacts.2.2.1, hfacts.2.2.2, ?_⟩
  rintro ⟨hsame, -⟩
  have hmem := (hsame 63).mpr (by rw [hfacts.2.1]; exact List.mem_cons_self)
  rw [hfacts.2.2.1] at hmem
  revert hmem
  decide

end ZeroFlush.SyncedPartitions
