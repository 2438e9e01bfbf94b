import ZeroFlush.ContextHistory
import ZeroFlush.ReleasedIndexes
import ZeroFlush.WriteGroups

/-! # Batches for other column families

The handler applies the records of a batch one by one. Point updates of another column family are
refused, range deletions and merges are not, and what was applied before an error stays. -/
namespace ZeroFlush.RejectedBatches
open FixedWidthCodec FiniteMaps WalFormat WalFiles PartitionedWal WalLogs PartitionIndexes
  PartitionTables Context ContextRuns ContextHistory ReleasedIndexes UserKeys WriteGroups

/-- The markers of two-phase commit, for which the handler keeps the default callbacks. -/
inductive Marker | beginPrepare | endPrepare | noop | rollback | commit | commitWithTimestamp
  deriving DecidableEq, Repr

/-- A record of a `WriteBatch`. -/
inductive BatchRecord
  | update (u : BatchUpdate)
  | timedPut (cf : ℕ) (key value : Bytes) (writeTime : ℕ)
  | putEntity (cf : ℕ) (key entity : Bytes)
  | putBlobIndex (cf : ℕ) (key value : Bytes)
  | logData (blob : Bytes)
  | marker (m : Marker)
  deriving DecidableEq, Repr

def Marker.message : Marker → String
  | beginPrepare => "MarkBeginPrepare() handler not defined."
  | endPrepare => "MarkEndPrepare() handler not defined."
  | noop => "MarkNoop() handler not defined."
  | rollback => "MarkRollbackPrepare() handler not defined."
  | commit => "MarkCommit() handler not defined."
  | commitWithTimestamp => "MarkCommitWithTimestamp() handler not defined."

def updateCf : BatchUpdate → ℕ
  | .put cf _ _ | .delete cf _ | .singleDelete cf _ | .deleteRange cf _ _ | .merge cf _ _ => cf

/-- The column family of a record, if it has one. -/
def BatchRecord.cf : BatchRecord → Option ℕ
  | update u => some (updateCf u)
  | timedPut cf _ _ _ | putEntity cf _ _ | putBlobIndex cf _ _ => some cf
  | logData _ | marker _ => none

/-- The callback for a record: those `ZfBatchHandler` does not override return an error. -/
def callback (tableVersion : ℕ) (rnd : UInt64 → ℕ) (h : Handler) :
    BatchRecord → Except Status Unit × Handler
  | .update u => h.handle tableVersion rnd u
  | .timedPut _ _ _ _ => (.error (.invalidArgument "TimedPutCF not implemented"), h)
  | .putEntity _ _ _ => (.error (.notSupported "PutEntityCF not implemented"), h)
  | .putBlobIndex _ _ _ => (.error (.invalidArgument "PutBlobIndexCF not implemented"), h)
  | .logData _ => (.ok (), h)
  | .marker m => (.error (.invalidArgument m.message), h)

/-- `WriteBatch::Iterate`. -/
def iterateBatch (tableVersion : ℕ) (rnd : UInt64 → ℕ) : Handler → List BatchRecord →
    Except Status Unit × Handler
  | h, [] => (.ok (), h)
  | h, b :: bs =>
    match callback tableVersion rnd h b with
    | (.ok _, h') => iterateBatch tableVersion rnd h' bs
    | (.error e, h') => (.error e, h')

/-- The loop of `WriteGroupToPartitionWal` over the batches of the group. -/
def writeGroupToPartitionWal (tableVersion : ℕ) (rnd : UInt64 → ℕ) : Handler →
    List (List BatchRecord) → Except Status Unit × Handler
  | h, [] => (.ok (), h)
  | h, batch :: batches =>
    match iterateBatch tableVersion rnd h batch with
    | (.ok _, h') => writeGroupToPartitionWal tableVersion rnd h' batches
    | (.error e, h') => (.error e, h')

/-- A writer of the parallel path handles its own batch and syncs what it has touched. -/
def insertWriterToPartitionWal (ctx : ZeroFlushContext) (batch : List BatchRecord)
    (seq : UInt64) (sync : Bool) (tableVersion : ℕ) (rnd : UInt64 → ℕ) :
    Except Status Unit × ZeroFlushContext :=
  match iterateBatch tableVersion rnd ⟨ctx, seq, 0⟩ batch with
  | (.error e, h) => (.error e, h.ctx)
  | (.ok _, h) =>
    if sync then syncTouchedPartitions h.ctx (touchedPartitions h.touched) else (.ok (), h.ctx)

/-- No WAL has got a byte and no index an entry. -/
structure NoTrace (ctx ctx' : ZeroFlushContext) : Prop where
  log_eq : ∀ f, log ctx'.wal f = log ctx.wal f
  size_eq : ∀ p, ctx'.wal.activeSize p = ctx.wal.activeSize p
  stored_iff : ∀ p e, Stored ctx'.indexSet p e ↔ Stored ctx.indexSet p e

/-- The write is refused and leaves no trace. -/
def Rejected (ctx : ZeroFlushContext) (written : Except Status Unit × ZeroFlushContext) : Prop :=
  (∃ msg, written.1 = .error (.notSupported msg)) ∧ NoTrace ctx written.2

/-- The batch has a record of a column family other than 0. -/
def Foreign (batch : List BatchRecord) : Prop := ∃ b ∈ batch, ∃ cf, b.cf = some cf ∧ cf ≠ 0

/-- The callback returns `NotSupported` without touching the context. -/
def BatchRecord.refused : BatchRecord → Bool
  | update u => !u.supported
  | putEntity _ _ _ => true
  | timedPut _ _ _ _ | putBlobIndex _ _ _ | logData _ | marker _ => false

/-- The first record other than log data is refused. -/
def RefusedFirst : List BatchRecord → Prop
  | [] => False
  | .logData _ :: bs => RefusedFirst bs
  | b :: _ => b.refused = true

variable {tableVersion : ℕ} {rnd : UInt64 → ℕ}

/-- No active WAL is shorter than before. -/
def Extends (m m' : PartitionedWalManager) : Prop := ∀ p, m.activeSize p ≤ m'.activeSize p

/-- Some active WAL is longer than before. -/
def Grown (m m' : PartitionedWalManager) : Prop := ∃ p, m.activeSize p < m'.activeSize p

theorem Extends.refl (m : PartitionedWalManager) : Extends m m := fun _ => le_rfl

theorem Grown.trans {a b c : PartitionedWalManager} (h : Grown a b) (h' : Extends b c) :
    Grown a c := by
  obtain ⟨p, hp⟩ := h
  exact ⟨p, hp.trans_le (h' p)⟩

theorem Extends.trans {a b c : PartitionedWalManager} (h : Extends a b) (h' : Extends b c) :
    Extends a c := fun p => (h p).trans (h' p)

theorem Grown.not_noTrace {ctx ctx' : ZeroFlushContext} (h : Grown ctx.wal ctx'.wal) :
    ¬ NoTrace ctx ctx' := by
  rintro ⟨-, hsize, -⟩
  obtain ⟨p, hp⟩ := h
  exact hp.ne (hsize p).symm

theorem activeSize_insert {m m' : PartitionedWalManager} {part : ℕ} {q : Partition}
    (hparts : m'.parts = m.parts.insert part q) (i : ℕ) :
    m'.activeSize i = if i = part then q.totalSize else m.activeSize i := by
  rw [PartitionedWalManager.activeSize, hparts, lookup_insert_eq]
  split_ifs <;> rfl

theorem maybeFlush_totalSize (env : Env) (q : Partition) :
    (maybeFlush env q).2.totalSize = q.totalSize := by
  rw [maybeFlush]
  split
  · exact flushBuf_totalSize env q
  · rfl

/-- An appended frame counts in the size of its active WAL. -/
theorem activeSize_append {m m' : PartitionedWalManager} {part : ℕ} {r : WalRecord}
    {ref : WalRecordRef} (h : m.append part r = (.ok ref, m')) (i : ℕ) :
    m'.activeSize i = m.activeSize i + if i = part then r.frame.length else 0 := by
  obtain ⟨p, hp, he⟩ | ⟨e, he⟩ := append_cases m part r
  · obtain ⟨-, rfl⟩ : (m.appendTo part p r).1 = ref ∧ (m.appendTo part p r).2 = m' := by
      simpa using he.symm.trans h
    have hold : m.activeSize part = p.totalSize := by
      obtain hp | ⟨hp, -, rfl⟩ := hp
      · simp [PartitionedWalManager.activeSize, hp]
      · simp [PartitionedWalManager.activeSize, hp]
    rw [activeSize_insert (appendTo_parts m part p r), maybeFlush_totalSize]
    split
    next hi =>
      subst hi
      rw [hold]
      simp [bufferedPartition]
    next => rfl
  · rw [h] at he
    cases he

theorem extends_append (m : PartitionedWalManager) (part : ℕ) (r : WalRecord) :
    Extends m (m.append part r).2 := by
  cases h : m.append part r with
  | mk res m' =>
    cases res with
    | error e => exact append_error h ▸ Extends.refl _
    | ok ref =>
      intro p
      rw [activeSize_append h]
      exact Nat.le_add_right _ _

/-- Only an unknown partition makes an append fail. -/
theorem append_invalidArgument {m m' : PartitionedWalManager} {part : ℕ} {r : WalRecord}
    {e : Status} (h : m.append part r = (.error e, m')) : ∃ msg, e = .invalidArgument msg := by
  rw [PartitionedWalManager.append] at h
  cases hp : m.parts.lookup part with
  | some p =>
    rw [hp] at h
    cases h
  | none =>
    rw [hp] at h
    dsimp only at h
    split at h
    · cases h
    · cases h
      exact ⟨_, rfl⟩

/-- What the callback of a point update, a range deletion or a merge does. -/
theorem handle_cases (tableVersion : ℕ) (rnd : UInt64 → ℕ) (h : Handler) (u : BatchUpdate) :
    (u.supported = false ∧ h.handle tableVersion rnd u =
        (.error (.notSupported "ZeroFlush M1: multi column family not supported"), h)) ∨
      (u.supported = true ∧
        ∃ msg h', h.handle tableVersion rnd u = (.error (.invalidArgument msg), h') ∧
          h'.ctx.wal = h.ctx.wal) ∨
      u.supported = true ∧ ∃ h', h.handle tableVersion rnd u = (.ok (), h') ∧
        Extends h.ctx.wal h'.ctx.wal ∧ Grown h.ctx.wal h'.ctx.wal := by
  rw [Handler.handle]
  dsimp only [ZeroFlushContext.addRecord]
  cases hu : u.supported with
  | false => exact .inl ⟨rfl, rfl⟩
  | true =>
    refine .inr ?_
    have hext := extends_append h.ctx.wal
      (h.ctx.partOf (u.record h.seq) tableVersion) (u.record h.seq)
    cases ha : h.ctx.wal.append (h.ctx.partOf (u.record h.seq) tableVersion) (u.record h.seq) with
    | mk res m =>
      rw [ha] at hext
      cases res with
      | error e =>
        obtain ⟨msg, rfl⟩ := append_invalidArgument ha
        exact .inl ⟨rfl, msg, _, rfl, append_error ha⟩
      | ok ref =>
        refine .inr ⟨rfl, _, rfl, hext, h.ctx.partOf (u.record h.seq) tableVersion, ?_⟩
        dsimp only
        rw [activeSize_append ha, if_pos rfl]
        exact Nat.lt_add_of_pos_right (frame_pos _)

theorem extends_callback (tableVersion : ℕ) (rnd : UInt64 → ℕ) (h : Handler) (b : BatchRecord) :
    Extends h.ctx.wal (callback tableVersion rnd h b).2.ctx.wal := by
  cases b with
  | update u =>
    rw [callback]
    obtain ⟨-, he⟩ | ⟨-, msg, h', he, hwal⟩ | ⟨-, h', he, hext, -⟩ :=
      handle_cases tableVersion rnd h u
    · rw [he]
      exact Extends.refl _
    · rw [he]
      exact hwal ▸ Extends.refl _
    · rw [he]
      exact hext
  | _ => exact Extends.refl _

theorem extends_iterateBatch (tableVersion : ℕ) (rnd : UInt64 → ℕ) (bs : List BatchRecord)
    (h : Handler) :
    Extends h.ctx.wal (iterateBatch tableVersion rnd h bs).2.ctx.wal := by
  induction bs generalizing h with
  | nil => exact Extends.refl _
  | cons b bs ih =>
    have hext := extends_callback tableVersion rnd h b
    rw [iterateBatch]
    cases hc : callback tableVersion rnd h b with
    | mk res h' =>
      rw [hc] at hext
      cases res with
      | error e => exact hext
      | ok _ => exact hext.trans (ih h')

theorem extends_writeGroup (batches : List (List BatchRecord)) (h : Handler) :
    Extends h.ctx.wal (writeGroupToPartitionWal tableVersion rnd h batches).2.ctx.wal := by
  induction batches generalizing h with
  | nil => exact Extends.refl _
  | cons batch batches ih =>
    have hext := extends_iterateBatch tableVersion rnd batch h
    rw [writeGroupToPartitionWal]
    cases hi : iterateBatch tableVersion rnd h batch with
    | mk res h' =>
      rw [hi] at hext
      cases res with
      | error e => exact hext
      | ok _ => exact hext.trans (ih h')

theorem activeSize_sync (m : PartitionedWalManager) (part i : ℕ) :
    (m.sync part).2.activeSize i = m.activeSize i := by
  cases hp : m.parts.lookup part with
  | none =>
    rw [PartitionedWalManager.sync, hp]
  | some p =>
    have hparts : (m.sync part).2.parts = m.parts.insert part
        (flushBuf (ensureOpenForWrite m.env p).1 (ensureOpenForWrite m.env p).2).2 := by
      rw [PartitionedWalManager.sync, hp]
    rw [activeSize_insert hparts]
    split
    next hi =>
      subst hi
      simp [PartitionedWalManager.activeSize, hp]
    next => rfl

theorem extends_sync (m : PartitionedWalManager) (part : ℕ) : Extends m (m.sync part).2 :=
  fun i => (activeSize_sync m part i).ge

theorem extends_syncTouchedPartitions (ps : List ℕ) (ctx : ZeroFlushContext) :
    Extends ctx.wal (syncTouchedPartitions ctx ps).2.wal := by
  induction ps generalizing ctx with
  | nil => exact Extends.refl _
  | cons p ps ih =>
    have hext := extends_sync ctx.wal p
    rw [syncTouchedPartitions]
    cases hs : ctx.wal.sync p with
    | mk res wal =>
      rw [hs] at hext
      cases res with
      | error e => exact hext
      | ok _ => exact hext.trans (ih { ctx with wal := wal })

/-- A batch that begins with a refused record is refused as a whole. -/
theorem iterateBatch_of_refusedFirst (tableVersion : ℕ) (rnd : UInt64 → ℕ) {bs : List BatchRecord}
    (hbs : RefusedFirst bs) (h : Handler) :
    ∃ msg, iterateBatch tableVersion rnd h bs = (.error (.notSupported msg), h) := by
  induction bs with
  | nil => exact hbs.elim
  | cons b bs ih =>
    rw [iterateBatch]
    cases b with
    | logData blob => exact ih hbs
    | putEntity cf key entity => exact ⟨_, rfl⟩
    | update u =>
      have hu : u.supported = false := by simpa [RefusedFirst, BatchRecord.refused] using hbs
      obtain ⟨-, he⟩ | ⟨hu', -⟩ | ⟨hu', -⟩ := handle_cases tableVersion rnd h u
      · rw [callback, he]
        exact ⟨_, rfl⟩
      · cases hu.symm.trans hu'
      · cases hu.symm.trans hu'
    | _ => cases hbs

/-- Any other batch with records fails for another reason or has left a trace. -/
theorem iterateBatch_of_not_refusedFirst (tableVersion : ℕ) (rnd : UInt64 → ℕ)
    {bs : List BatchRecord} (hbs : ¬ RefusedFirst bs) (hne : ∃ b ∈ bs, b.cf ≠ none) (h : Handler) :
    (∃ msg h', iterateBatch tableVersion rnd h bs = (.error (.invalidArgument msg), h')) ∨
      Grown h.ctx.wal (iterateBatch tableVersion rnd h bs).2.ctx.wal := by
  induction bs with
  | nil =>
    obtain ⟨b, hb, -⟩ := hne
    cases hb
  | cons b bs ih =>
    rw [iterateBatch]
    cases b with
    | logData blob =>
      refine ih hbs ?_
      obtain ⟨b, hb, hcf⟩ := hne
      cases List.mem_cons.mp hb with
      | inl he =>
        subst he
        exact absurd rfl hcf
      | inr hb => exact ⟨b, hb, hcf⟩
    | putEntity cf key entity => exact absurd rfl hbs
    | update u =>
      have hu : u.supported = true := by simpa [RefusedFirst, BatchRecord.refused] using hbs
      obtain ⟨hu', -⟩ | ⟨-, msg, h', he, -⟩ | ⟨-, h', he, -, hgrown⟩ :=
        handle_cases tableVersion rnd h u
      · cases hu'.symm.trans hu
      · rw [callback, he]
        exact .inl ⟨msg, h', rfl⟩
      · rw [callback, he]
        exact .inr (hgrown.trans (extends_iterateBatch tableVersion rnd bs h'))
    | _ => exact .inl ⟨_, _, rfl⟩

theorem NoTrace.refl (ctx : ZeroFlushContext) : NoTrace ctx ctx :=
  ⟨fun _ => rfl, fun _ => rfl, fun _ _ => Iff.rfl⟩

/-- The write has failed for another reason, or some WAL has grown. -/
def FailedOrGrown (ctx : ZeroFlushContext) (written : Except Status Unit × ZeroFlushContext) :
    Prop :=
  (∃ msg, written.1 = .error (.invalidArgument msg)) ∨ Grown ctx.wal written.2.wal

theorem FailedOrGrown.not_rejected {ctx : ZeroFlushContext}
    {written : Except Status Unit × ZeroFlushContext} (h : FailedOrGrown ctx written) :
    ¬ Rejected ctx written := by
  rintro ⟨⟨msg, hmsg⟩, htrace⟩
  cases h with
  | inl h =>
    obtain ⟨msg', hmsg'⟩ := h
    cases hmsg.symm.trans hmsg'
  | inr h => exact h.not_noTrace htrace

theorem failedOrGrown_insertWriter {batch : List BatchRecord} (hbatch : ¬ RefusedFirst batch)
    (hne : ∃ b ∈ batch, b.cf ≠ none) (ctx : ZeroFlushContext) (seq : UInt64) (sync : Bool) :
    FailedOrGrown ctx (insertWriterToPartitionWal ctx batch seq sync tableVersion rnd) := by
  rw [insertWriterToPartitionWal]
  obtain ⟨msg, h', he⟩ | hgrown := iterateBatch_of_not_refusedFirst tableVersion rnd
    hbatch hne ⟨ctx, seq, 0⟩
  · rw [he]
    exact .inl ⟨msg, rfl⟩
  · refine .inr ?_
    cases hi : iterateBatch tableVersion rnd ⟨ctx, seq, 0⟩ batch with
    | mk res h' =>
      rw [hi] at hgrown
      cases res with
      | error e => exact hgrown
      | ok _ =>
        dsimp only
        split
        · exact hgrown.trans (extends_syncTouchedPartitions _ h'.ctx)
        · exact hgrown

theorem failedOrGrown_writeGroup {batch : List BatchRecord} (hbatch : ¬ RefusedFirst batch)
    (hne : ∃ b ∈ batch, b.cf ≠ none) (h : Handler) (batches : List (List BatchRecord)) :
    FailedOrGrown h.ctx
      ((writeGroupToPartitionWal tableVersion rnd h (batch :: batches)).1,
        (writeGroupToPartitionWal tableVersion rnd h (batch :: batches)).2.ctx) := by
  rw [writeGroupToPartitionWal]
  obtain ⟨msg, h', he⟩ | hgrown := iterateBatch_of_not_refusedFirst tableVersion rnd
    hbatch hne h
  · rw [he]
    exact .inl ⟨msg, rfl⟩
  · refine .inr ?_
    cases hi : iterateBatch tableVersion rnd h batch with
    | mk res h' =>
      rw [hi] at hgrown
      cases res with
      | error e => exact hgrown
      | ok _ => exact hgrown.trans (extends_writeGroup batches h')

/-- Exactly the batches whose first record is refused are rejected without a trace, on the path of
a single writer and in a write group. -/
theorem rejected_iff (ctx : ZeroFlushContext) (batch : List BatchRecord) (hforeign : Foreign batch)
    (seq : UInt64) (sync : Bool) (tableVersion : ℕ) (rnd : UInt64 → ℕ) :
    (Rejected ctx (insertWriterToPartitionWal ctx batch seq sync tableVersion rnd) ↔
        RefusedFirst batch) ∧
      ∀ (h : Handler) (batches : List (List BatchRecord)),
        Rejected h.ctx
            ((writeGroupToPartitionWal tableVersion rnd h (batch :: batches)).1,
              (writeGroupToPartitionWal tableVersion rnd h (batch :: batches)).2.ctx) ↔
          RefusedFirst batch := by
  have hne : ∃ b ∈ batch, b.cf ≠ none := by
    obtain ⟨b, hb, cf, hcf, -⟩ := hforeign
    exact ⟨b, hb, by simp [hcf]⟩
  refine ⟨⟨?_, ?_⟩, fun h batches => ⟨?_, ?_⟩⟩
  · intro hrej
    by_contra hbatch
    exact (failedOrGrown_insertWriter hbatch hne ctx seq sync).not_rejected hrej
  · intro hbatch
    obtain ⟨msg, he⟩ := iterateBatch_of_refusedFirst tableVersion rnd hbatch ⟨ctx, seq, 0⟩
    rw [insertWriterToPartitionWal, he]
    exact ⟨⟨msg, rfl⟩, NoTrace.refl ctx⟩
  · intro hrej
    by_contra hbatch
    exact (failedOrGrown_writeGroup hbatch hne h batches).not_rejected hrej
  · intro hbatch
    obtain ⟨msg, he⟩ := iterateBatch_of_refusedFirst tableVersion rnd hbatch h
    rw [writeGroupToPartitionWal, he]
    exact ⟨⟨msg, rfl⟩, NoTrace.refl h.ctx⟩

/-- A new database with two partitions. -/
def newDatabase : ZeroFlushContext := start { partitions := 2 } UserComparator.bytewise twoPartitions none

/-- A put into another column family is refused. -/
theorem rejected_foreignPut :
    Rejected newDatabase (insertWriterToPartitionWal newDatabase
      [.logData [9], .update (.put 1 [1] [2])] 1 true 0 fun _ => 0) :=
  (rejected_iff newDatabase [.logData [9], .update (.put 1 [1] [2])]
    ⟨.update (.put 1 [1] [2]), by simp, 1, rfl, by decide⟩ 1 true 0 fun _ => 0).1.mpr rfl

/-- The first record of the default column family stays when the second one is refused, and a range
deletion in another column family is acknowledged. -/
theorem rejected_fails :
    (Foreign [.update (.put 0 [1] [2]), .update (.put 1 [3] [4])] ∧
        ¬ Rejected newDatabase (insertWriterToPartitionWal newDatabase
          [.update (.put 0 [1] [2]), .update (.put 1 [3] [4])] 1 false 0 fun _ => 0)) ∧
      Foreign [.update (.deleteRange 1 [1] [5])] ∧
        (insertWriterToPartitionWal newDatabase [.update (.deleteRange 1 [1] [5])] 1 false 0
            fun _ => 0).1 = .ok () ∧
        ¬ Rejected newDatabase (insertWriterToPartitionWal newDatabase
          [.update (.deleteRange 1 [1] [5])] 1 false 0 fun _ => 0) := by
  have hput : Foreign [.update (.put 0 [1] [2]), .update (.put 1 [3] [4])] :=
    ⟨.update (.put 1 [3] [4]), by simp, 1, rfl, by decide⟩
  have hrange : Foreign [.update (.deleteRange 1 [1] [5])] :=
    ⟨.update (.deleteRange 1 [1] [5]), by simp, 1, rfl, by decide⟩
  have hok : (insertWriterToPartitionWal newDatabase [.update (.deleteRange 1 [1] [5])] 1 false 0
      fun _ => 0).1 = .ok () := by decide +kernel
  have hsize : ∃ p ∈ [0, 1], (insertWriterToPartitionWal newDatabase
      [.update (.put 0 [1] [2]), .update (.put 1 [3] [4])] 1 false 0
        fun _ => 0).2.wal.activeSize p = 30 ∧ newDatabase.wal.activeSize p = 0 := by
    decide +kernel
  refine ⟨⟨hput, ?_⟩, hrange, hok, ?_⟩
  · rintro ⟨-, -, hsame, -⟩
    obtain ⟨p, -, hp, hp₀⟩ := hsize
    have hp' := hsame p
    omega
  · rintro ⟨⟨msg, hmsg⟩, -⟩
    cases hok.symm.trans hmsg

end ZeroFlush.RejectedBatches
