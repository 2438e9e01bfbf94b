import ZeroFlush.Context
import ZeroFlush.IndexChains
import ZeroFlush.WalOpening

/-! # Runs of the context

Generations and sizes under the operations of the manager, and the operations of a run. -/
namespace ZeroFlush.ContextRuns
open FixedWidthCodec FiniteMaps WalFormat WalFiles PartitionedWal WalLogs WalOpening UserKeys
  PartitionIndexes IndexChains PartitionTables SealedFiles SequentialScan Context

inductive ContextOp
  | addRecord (r : WalRecord) (tableVersion rnd : ℕ)
  | sync (part : ℕ)
  | freezeBatchPartitions (l1 : List L1File)
  | freezeOnePartition
  | sealEpochAndSwitch (l1 : List L1File)
  | releaseEpoch (epoch : ℕ)
  | purgeSealedFiles
  | reopen (tables : PartitionTableSet)
  | crash (cut : FileId → ℕ) (tables : PartitionTableSet)

/-- The first session over an empty directory. -/
def start (zfo : ZeroFlushOptions) (ucmp : UserComparator) (tables : PartitionTableSet)
    (sampler : Option KeySampler) : ZeroFlushContext :=
  let wal := (PartitionedWalManager.create Env.empty zfo.partitions zfo.partitionTargetBytes).open_
  ZeroFlushContext.recover
    { zfo := zfo, ucmp := ucmp, wal := wal, tables := tables, sampler := sampler }

/-- A reopened context has the tables that were persisted, whichever they are. -/
def step (ctx : ZeroFlushContext) : ContextOp → ZeroFlushContext
  | .addRecord r v rnd => (ctx.addRecord r v rnd).2
  | .sync part => { ctx with wal := (ctx.wal.sync part).2 }
  | .freezeBatchPartitions l1 => ctx.freezeBatchPartitions l1
  | .freezeOnePartition => ctx.freezeOnePartition
  | .sealEpochAndSwitch l1 => ctx.sealEpochAndSwitch l1
  | .releaseEpoch epoch => ctx.releaseEpoch epoch
  | .purgeSealedFiles => ctx.purgeSealedFiles
  | .reopen tables => ctx.openWith ctx.wal.reopen tables
  | .crash cut tables => ctx.openWith (restart ctx.wal cut) tables

section wal
variable {m : PartitionedWalManager} {i part : ℕ}

theorem activeGen_insert {m' : PartitionedWalManager} {q : Partition}
    (hparts : m'.parts = m.parts.insert part q) (i : ℕ) :
    m'.activeGen i = if i = part then q.gen else m.activeGen i := by
  rw [PartitionedWalManager.activeGen, hparts, lookup_insert_eq]
  split_ifs <;> rfl

theorem hasPartition_insert {m' : PartitionedWalManager} {q : Partition}
    (hparts : m'.parts = m.parts.insert part q) (i : ℕ) :
    m'.hasPartition i = true ↔ i = part ∨ m.hasPartition i = true := by
  rw [PartitionedWalManager.hasPartition, hparts, lookup_insert_eq]
  split
  next h => simp [h]
  next h => simp [h, PartitionedWalManager.hasPartition]

theorem hasPartition_iff : m.hasPartition i = true ↔ ∃ p, m.parts.lookup i = some p :=
  Option.isSome_iff_exists

/-- Records can be appended to the partitions of the manager and to the range-delete one. -/
def Appendable (m : PartitionedWalManager) (i : ℕ) : Prop :=
  m.hasPartition i = true ∨ i = kRangeDelPartId

/-- A successful append returns the active generation and changes no generation. -/
theorem append_ok {r : WalRecord} {ref : WalRecordRef} {m' : PartitionedWalManager}
    (h : m.append part r = (.ok ref, m')) :
    ref.partId = part ∧ ref.gen = m.activeGen part ∧ Appendable m part ∧
      (∀ i, m'.activeGen i = m.activeGen i) ∧ ∀ i, Appendable m' i ↔ Appendable m i := by
  obtain ⟨p, hp, he⟩ | ⟨e, he⟩ := append_cases m part r
  · have hpair := he.symm.trans h
    obtain ⟨href, rfl⟩ : (m.appendTo part p r).1 = ref ∧ (m.appendTo part p r).2 = m' := by
      simpa using hpair
    have hgen : p.gen = m.activeGen part := by
      obtain hp | ⟨hp, -, rfl⟩ := hp
      · simp [PartitionedWalManager.activeGen, hp]
      · simp [PartitionedWalManager.activeGen, hp]
    have happ : Appendable m part := by
      obtain hp | ⟨-, hrd, -⟩ := hp
      · exact .inl (hasPartition_iff.mpr ⟨p, hp⟩)
      · exact .inr hrd
    rw [appendTo_ref] at href
    subst href
    refine ⟨rfl, hgen, happ, ?_, ?_⟩
    · intro i
      rw [activeGen_insert (appendTo_parts m part p r)]
      split
      next hi =>
        subst hi
        simpa [bufferedPartition] using hgen
      next => rfl
    · intro i
      rw [Appendable, hasPartition_insert (appendTo_parts m part p r), or_assoc, ← Appendable]
      constructor
      · rintro (rfl | hi)
        · exact happ
        · exact hi
      · exact .inr
  · rw [h] at he
    cases he

/-- A successful append has made its partition if it was not there, and removes none. -/
theorem hasPartition_append {r : WalRecord} {ref : WalRecordRef} {m' : PartitionedWalManager}
    (h : m.append part r = (.ok ref, m')) :
    m'.hasPartition part = true ∧ ∀ i, m.hasPartition i = true → m'.hasPartition i = true := by
  obtain ⟨p, -, he⟩ | ⟨e, he⟩ := append_cases m part r
  · obtain ⟨-, rfl⟩ : (m.appendTo part p r).1 = ref ∧ (m.appendTo part p r).2 = m' := by
      simpa using he.symm.trans h
    have hiff := hasPartition_insert (appendTo_parts m part p r)
    exact ⟨(hiff part).mpr (.inl rfl), fun i hi => (hiff i).mpr (.inr hi)⟩
  · rw [h] at he
    cases he

theorem append_error {r : WalRecord} {s : Status} {m' : PartitionedWalManager}
    (h : m.append part r = (.error s, m')) : m' = m := by
  obtain ⟨p, -, he⟩ | ⟨e, he⟩ := append_cases m part r
  · rw [h] at he
    cases he
  · rw [h] at he
    exact congrArg Prod.snd he

@[simp] theorem partitions_append (m : PartitionedWalManager) (part : ℕ) (r : WalRecord) :
    (m.append part r).2.partitions = m.partitions := by
  obtain ⟨p, -, he⟩ | ⟨e, he⟩ := append_cases m part r
  · rw [he]
    rfl
  · rw [he]

@[simp] theorem partitions_sync (m : PartitionedWalManager) (part : ℕ) :
    (m.sync part).2.partitions = m.partitions := by
  rw [PartitionedWalManager.sync]
  cases m.parts.lookup part <;> rfl

@[simp] theorem partitions_freeze (m : PartitionedWalManager) (part : ℕ) :
    (m.freeze part).2.partitions = m.partitions := by
  rw [PartitionedWalManager.freeze]
  cases m.parts.lookup part <;> rfl

theorem freeze_parts (m : PartitionedWalManager) {p : Partition} (hp : m.parts.lookup part = some p) :
    ∃ q, (m.freeze part).2.parts = m.parts.insert part q ∧ q.gen = (p.gen + 1) % 2 ^ 32 ∧
      q.totalSize = 0 ∧ (m.freeze part).1 = some ⟨p.gen, p.totalSize, (part, p.gen)⟩ := by
  simp only [PartitionedWalManager.freeze, hp]
  refine ⟨_, rfl, ?_, rfl, ?_⟩
  · split <;> simp [openGen]
  · split <;> simp

theorem activeGen_freeze (m : PartitionedWalManager) (part i : ℕ) :
    (m.freeze part).2.activeGen i =
      if i = part ∧ m.hasPartition part = true then (m.activeGen part + 1) % 2 ^ 32
      else m.activeGen i := by
  cases hp : m.parts.lookup part with
  | none => simp [freeze_of_lookup_none hp, PartitionedWalManager.hasPartition, hp]
  | some p =>
    obtain ⟨q, hparts, hgen, -, -⟩ := freeze_parts m hp
    have hhas : m.hasPartition part = true := hasPartition_iff.mpr ⟨p, hp⟩
    have hold : m.activeGen part = p.gen := by simp [PartitionedWalManager.activeGen, hp]
    rw [activeGen_insert hparts, hgen, hold]
    simp only [hhas, and_true]

@[simp] theorem hasPartition_freeze (m : PartitionedWalManager) (part i : ℕ) :
    (m.freeze part).2.hasPartition i = m.hasPartition i := by
  cases hp : m.parts.lookup part with
  | none => rw [freeze_of_lookup_none hp]
  | some p =>
    obtain ⟨q, hparts, -, -, -⟩ := freeze_parts m hp
    rw [Bool.eq_iff_iff, hasPartition_insert hparts]
    constructor
    · rintro (rfl | hi)
      · exact hasPartition_iff.mpr ⟨p, hp⟩
      · exact hi
    · exact .inr

theorem activeSize_freeze (m : PartitionedWalManager) {part i : ℕ} (h : i ≠ part) :
    (m.freeze part).2.activeSize i = m.activeSize i := by
  cases hp : m.parts.lookup part with
  | none => rw [freeze_of_lookup_none hp]
  | some p =>
    obtain ⟨q, hparts, -, -, -⟩ := freeze_parts m hp
    rw [PartitionedWalManager.activeSize, hparts, lookup_insert_eq, if_neg h]
    rfl

theorem sync_parts (m : PartitionedWalManager) {p : Partition} (hp : m.parts.lookup part = some p) :
    ∃ q, (m.sync part).2.parts = m.parts.insert part q ∧ q.gen = p.gen := by
  simp only [PartitionedWalManager.sync, hp]
  exact ⟨_, rfl, by simp⟩

theorem activeGen_sync (m : PartitionedWalManager) (part i : ℕ) :
    (m.sync part).2.activeGen i = m.activeGen i := by
  cases hp : m.parts.lookup part with
  | none => simp [PartitionedWalManager.sync, hp]
  | some p =>
    obtain ⟨q, hparts, hgen⟩ := sync_parts m hp
    rw [activeGen_insert hparts]
    split
    next h =>
      subst h
      simp [hgen, PartitionedWalManager.activeGen, hp]
    next => rfl

theorem hasPartition_sync (m : PartitionedWalManager) (part i : ℕ) :
    (m.sync part).2.hasPartition i = m.hasPartition i := by
  cases hp : m.parts.lookup part with
  | none => simp [PartitionedWalManager.sync, hp]
  | some p =>
    obtain ⟨q, hparts, -⟩ := sync_parts m hp
    rw [Bool.eq_iff_iff, hasPartition_insert hparts]
    constructor
    · rintro (rfl | hi)
      · exact hasPartition_iff.mpr ⟨p, hp⟩
      · exact hi
    · exact .inr

/-- An opened manager continues with the newest generation of every partition it knows. -/
theorem activeGen_openCreate (env : Env) (n target i : ℕ) :
    (PartitionedWalManager.create env n target).open_.activeGen i =
      if i < n then maxGen i env.listFiles else 0 := by
  rw [PartitionedWalManager.activeGen, lookup_openCreate]
  split
  next h =>
    split at h
    · cases h
    next hi => rw [if_neg hi]
  next p h =>
    split at h
    next hi =>
      cases h
      rw [if_pos hi, PartitionedWalManager.openPartition]
      dsimp only
      split
      next => rfl
      next hany =>
        -- no file of the partition: both generations are 0
        dsimp only
        refine ((maxGen_eq_zero_or_mem i env.listFiles).resolve_right ?_).symm
        intro hmem
        exact hany (List.any_eq_true.mpr ⟨_, hmem, by simp⟩)
    · cases h

end wal

/-- The result of freezing the WAL of an existing partition. -/
theorem freezeWal_result (ctx : ZeroFlushContext) {p : ℕ} (hp : ctx.wal.hasPartition p = true) :
    (ctx.freezeWal p).1.oldGen = ctx.wal.activeGen p ∧
      (ctx.freezeWal p).1.sealedBytes = ctx.wal.activeSize p := by
  obtain ⟨q, hq⟩ := hasPartition_iff.mp hp
  obtain ⟨-, -, -, -, hres⟩ := freeze_parts ctx.wal hq
  simp [ZeroFlushContext.freezeWal, hres, PartitionedWalManager.activeGen,
    PartitionedWalManager.activeSize, hq]

theorem mem_allPartitionIds {wal : PartitionedWalManager} {p : ℕ} :
    p ∈ allPartitionIds wal ↔ wal.hasPartition p = true := by
  rw [allPartitionIds, List.mem_insertionSort, ← AList.mem_keys, PartitionedWalManager.hasPartition]
  exact AList.lookup_isSome.symm

@[simp] theorem wal_installTable (ctx : ZeroFlushContext) (t : Option PartitionTable) :
    (ctx.installTable t).wal = ctx.wal := by
  cases t <;> rfl

theorem wal_freezeIndexes (gens : List FileId) (ctx : ZeroFlushContext) :
    (ctx.freezeIndexes gens).wal = ctx.wal := by
  induction gens generalizing ctx with
  | nil => rfl
  | cons f gens ih => exact ih _

/-- `Recover` registers the orphans and then rebuilds the indexes. -/
theorem recover_eq (ctx : ZeroFlushContext) :
    ∃ cache, ctx.recover = (ZeroFlushContext.replayOrder ctx.wal.env).foldl
      ZeroFlushContext.replayFile ({ ctx with sealedCache := cache } : ZeroFlushContext).ensureActives := by
  rw [ZeroFlushContext.recover]
  split
  · exact ⟨ctx.sealedCache, rfl⟩
  · exact ⟨_, rfl⟩

/-- `Recover` reads the files and leaves the WAL as it is. -/
theorem wal_recover (ctx : ZeroFlushContext) : ctx.recover.wal = ctx.wal := by
  have hfile : ∀ (c : ZeroFlushContext) f, (c.replayFile f).wal = c.wal := by
    intro c f
    refine List.foldlRecOn (motive := fun d : ZeroFlushContext => d.wal = c.wal) _ _ rfl ?_
    intro d hd r _
    exact hd
  obtain ⟨cache, hrec⟩ := recover_eq ctx
  rw [hrec]
  refine List.foldlRecOn (motive := fun d : ZeroFlushContext => d.wal = ctx.wal) _ _ rfl ?_
  intro d hd f _
  exact (hfile d f).trans hd

end ZeroFlush.ContextRuns
