import ZeroFlush.RecoveredLocators
import ZeroFlush.SealedOwnership
import ZeroFlush.HeldVersions

/-! # Readers that hold a SuperVersion

A freeze tags the memtable it switches away from with the epoch it seals, and the destructor of that
memtable releases the epoch. A reader keeps the memtables of its SuperVersion alive, and holds on to
the indexes it collected. -/
namespace ZeroFlush.PinnedReaders
open FixedWidthCodec FiniteMaps WalFormat WalFiles PartitionedWal WalLogs WalOpening UserKeys
  PartitionIndexes IndexContents PartitionTables SealedFiles SequentialScan Context ContextRuns
  SealedEpochs ReadPaths ManagerConsistency RecoveredLocators SealedOwnership GuardedRuns
open ReleasedIndexes (Stored Kept Separate NoWrap RoutesReplayed)
open HeldVersions (readable_of_kept)

/-- The memtables of ZeroFlush have no entries; `zfEpoch` is 0 until a freeze sets it. -/
structure MemTable where
  id : ℕ
  zfEpoch : ℕ := 0
  deriving DecidableEq, Repr

/-- The memtables of the SuperVersion, the indexes that were collected and their entries. -/
structure Reader where
  superVersion : List ℕ
  indexes : List FileId := []
  collected : List IndexEntry := []
  deriving DecidableEq, Repr

/-- `retired` are the memtables of finished flushes that a reader still refers to. -/
structure ReaderRun where
  ctx : ZeroFlushContext
  mem : MemTable := ⟨0, 0⟩
  imm : List MemTable := []
  retired : List MemTable := []
  readers : List Reader := []

/-- The three functions that seal an epoch. -/
inductive SealOp
  | freezeBatchPartitions (l1 : List L1File)
  | freezeOnePartition
  | sealEpochAndSwitch (l1 : List L1File)

namespace SealOp

def context (ctx : ZeroFlushContext) : SealOp → ZeroFlushContext
  | freezeBatchPartitions l1 => ctx.freezeBatchPartitions l1
  | freezeOnePartition => ctx.freezeOnePartition
  | sealEpochAndSwitch l1 => ctx.sealEpochAndSwitch l1

/-- The partitions whose WAL is frozen. -/
def parts (ctx : ZeroFlushContext) : SealOp → List ℕ
  | freezeBatchPartitions _ => ctx.chooseBatch
  | freezeOnePartition => ctx.chooseOne.toList
  | sealEpochAndSwitch _ => ctx.tables.current.partIds

/-- Without anything to seal the first two return before they take an epoch. -/
def seals (ctx : ZeroFlushContext) : SealOp → Bool
  | freezeBatchPartitions _ => ctx.chooseBatch ≠ []
  | freezeOnePartition => ctx.chooseOne.isSome
  | sealEpochAndSwitch _ => true

end SealOp

/-- A flush takes the oldest memtables off the list; what it skipped is handed off before. Readers
are named by their position. -/
inductive ReaderOp
  | write (r : WalRecord) (tableVersion rnd : ℕ)
  | sync (part : ℕ)
  | sealEpoch (op : SealOp)
  | handOffSkipped (epoch : ℕ) (gens : List FileId) (partBytes : Map ℕ ℕ)
  | flush (count : ℕ)
  | purgeSealedFiles
  | acquire
  | collect (reader : ℕ)
  | release (reader : ℕ)
  | reopen (tables : PartitionTableSet)
  | crash (cut : FileId → ℕ) (tables : PartitionTableSet)

/-- `AddIterators`: the frozen and the active indexes of all partitions. -/
def allIndexes (s : PartitionIndexSet) : List (ℕ × PartitionIndex) :=
  (s.frozen.keys.flatMap fun p => (s.frozenChain p).map fun i => (p, i)) ++
    s.active.entries.map fun e => (e.1, e.2)

namespace Reader

/-- A reader shares the active indexes it collected, so that later records show up in them. -/
def share (file : FileId) (x : IndexEntry) (r : Reader) : Reader :=
  if file ∈ r.indexes then { r with collected := x :: r.collected } else r

def collectFrom (s : PartitionIndexSet) (r : Reader) : Reader :=
  { r with
    indexes := (allIndexes s).map fun i => (i.1, i.2.gen)
    collected := (allIndexes s).flatMap fun i => i.2.entries }

end Reader

/-- The destructor of a memtable. -/
def destroy (ctx : ZeroFlushContext) (m : MemTable) : ZeroFlushContext :=
  if m.zfEpoch = 0 then ctx else ctx.releaseEpoch m.zfEpoch

namespace ReaderRun

/-- Some reader's SuperVersion has the memtable. -/
def referenced (s : ReaderRun) (m : MemTable) : Bool :=
  s.readers.any fun r => decide (m.id ∈ r.superVersion)

/-- Retired memtables without a reference are destroyed. -/
def settle (s : ReaderRun) : ReaderRun :=
  { s with
    ctx := (s.retired.filter fun m => !s.referenced m).foldl destroy s.ctx
    retired := s.retired.filter fun m => s.referenced m }

def reopened (ctx : ZeroFlushContext) : ReaderRun := { ctx := ctx }

def step (s : ReaderRun) : ReaderOp → ReaderRun
  | .write r v rnd =>
    match s.ctx.addRecord r v rnd with
    | (.ok ref, ctx) =>
      { s with ctx := ctx, readers := s.readers.map (Reader.share ref.file (indexEntry r ref)) }
    | (.error _, ctx) => { s with ctx := ctx }
  | .sync part => { s with ctx := ContextRuns.step s.ctx (.sync part) }
  | .sealEpoch op =>
    let ctx := op.context s.ctx
    if op.seals s.ctx then
      { s with
        ctx := ctx
        mem := ⟨s.mem.id + 1, 0⟩
        imm := s.imm ++ [⟨s.mem.id, ctx.epochCounter⟩] }
    else { s with ctx := ctx }
  | .handOffSkipped epoch gens partBytes =>
    { s with ctx := { s.ctx with
      sealedCache := s.ctx.sealedCache.handOffSkippedToRecovery epoch gens partBytes } }
  | .flush count =>
    settle { s with imm := s.imm.drop count, retired := s.retired ++ s.imm.take count }
  | .purgeSealedFiles => { s with ctx := s.ctx.purgeSealedFiles }
  | .acquire =>
    { s with readers := s.readers ++ [{ superVersion := s.mem.id :: s.imm.map MemTable.id }] }
  | .collect i => { s with readers := s.readers.modify i (Reader.collectFrom s.ctx.indexSet) }
  | .release i => settle { s with readers := s.readers.eraseIdx i }
  | .reopen tables => reopened (s.ctx.openWith s.ctx.wal.reopen tables)
  | .crash cut tables => reopened (s.ctx.openWith (restart s.ctx.wal cut) tables)

def start (zfo : ZeroFlushOptions) (ucmp : UserComparator) (tables : PartitionTableSet)
    (sampler : Option KeySampler) : ReaderRun :=
  reopened (ContextRuns.start zfo ucmp tables sampler)

end ReaderRun

/-- Every entry of the indexes a reader collected can be read, and its file is not going away. -/
def KeepsReadable (s : ReaderRun) : Prop :=
  ∀ r ∈ s.readers, ∀ x ∈ r.collected, (s.ctx.readValue x.loc).toOption ≠ none ∧
    x.loc.file ∉ s.ctx.sealedCache.pendingUnlink

instance (s : ReaderRun) : Decidable (KeepsReadable s) :=
  inferInstanceAs (Decidable (∀ r ∈ s.readers, ∀ x ∈ r.collected, _))

/-- The generations a seal puts into its epoch: the active ones it freezes, and all that wait. -/
def Takes (ctx : ZeroFlushContext) (op : SealOp) (f : FileId) : Prop :=
  f.1 ∈ op.parts ctx ∧ f.2 = ctx.wal.activeGen f.1 ∨ f ∈ ctx.sealedCache.recoveryGens ∨
    f ∈ ctx.sealedCache.skipGens

instance (ctx : ZeroFlushContext) (op : SealOp) (f : FileId) : Decidable (Takes ctx op f) :=
  inferInstanceAs (Decidable (_ ∨ _))

/-- The epochs that own a generation. -/
def ownersOf (c : SealedFileCache) (f : FileId) : List ℕ :=
  (c.epochs.entries.filter fun e => f ∈ e.2.gens).map fun e => e.1

/-- The memtable of the epoch is in the reader's SuperVersion. -/
def Shelters (s : ReaderRun) (r : Reader) (epoch : ℕ) : Prop :=
  ∃ m ∈ s.imm ++ s.retired, m.zfEpoch = epoch ∧ m.id ∈ r.superVersion

instance (s : ReaderRun) (r : Reader) (epoch : ℕ) : Decidable (Shelters s r epoch) :=
  inferInstanceAs (Decidable (∃ m ∈ s.imm ++ s.retired, _))

/-- The table routes every replayed record to the partition of its file, and all files with
content are of partitions that are opened. -/
def Reopens (env : Env) (ucmp : UserComparator) (partitions : ℕ) (tables : PartitionTableSet) : Prop :=
  RoutesReplayed env ucmp tables ∧ ∀ f ∈ env.listFiles,
    f.1 < partitions ∧ f.1 ≠ kRangeDelPartId ∨ env.content f = []

instance (env : Env) (ucmp : UserComparator) (partitions : ℕ) (tables : PartitionTableSet) :
    Decidable (Reopens env ucmp partitions tables) :=
  inferInstanceAs (Decidable (_ ∧ ∀ f ∈ env.listFiles, _))

/-- The condition on a step: a generation that a reader has collected is sealed and adopted only
into the epoch of a memtable of the reader's SuperVersion, and a reader collects no index whose epoch
belongs to another memtable. -/
def StepOk (s : ReaderRun) : ReaderOp → Prop
  | .write r _ _ => r.frameLength < 2 ^ 32
  | .sealEpoch op => NoWrap s.ctx.wal (op.parts s.ctx) ∧ ∀ r ∈ s.readers, ∀ x ∈ r.collected,
      Takes s.ctx op x.loc.file → s.mem.id ∈ r.superVersion
  | .handOffSkipped epoch gens _ => ∀ f ∈ gens, f ∈ ownedBy s.ctx.sealedCache epoch
  | .collect i => ∀ r ∈ s.readers[i]?, ∀ x ∈ (r.collectFrom s.ctx.indexSet).collected,
      ∀ e ∈ ownersOf s.ctx.sealedCache x.loc.file, Shelters s r e
  | .reopen tables => Reopens s.ctx.wal.close.env s.ctx.ucmp s.ctx.wal.partitions tables
  | .crash cut tables => Reopens (s.ctx.wal.env.crash cut) s.ctx.ucmp s.ctx.wal.partitions tables
  | .sync _ | .flush _ | .purgeSealedFiles | .acquire | .release _ => True

instance decidableStepOk (s : ReaderRun) : (op : ReaderOp) → Decidable (StepOk s op)
  | .write r _ _ => inferInstanceAs (Decidable (r.frameLength < 2 ^ 32))
  | .sealEpoch op => inferInstanceAs (Decidable (NoWrap s.ctx.wal (op.parts s.ctx) ∧
      ∀ r ∈ s.readers, ∀ x ∈ r.collected, Takes s.ctx op x.loc.file → s.mem.id ∈ r.superVersion))
  | .handOffSkipped epoch gens _ =>
    inferInstanceAs (Decidable (∀ f ∈ gens, f ∈ ownedBy s.ctx.sealedCache epoch))
  | .collect i => inferInstanceAs (Decidable (∀ r ∈ s.readers[i]?,
      ∀ x ∈ (r.collectFrom s.ctx.indexSet).collected,
      ∀ e ∈ ownersOf s.ctx.sealedCache x.loc.file, Shelters s r e))
  | .reopen tables =>
    inferInstanceAs (Decidable (Reopens s.ctx.wal.close.env s.ctx.ucmp s.ctx.wal.partitions tables))
  | .crash cut tables => inferInstanceAs (Decidable (Reopens (s.ctx.wal.env.crash cut) s.ctx.ucmp
      s.ctx.wal.partitions tables))
  | .sync _ | .flush _ | .purgeSealedFiles | .acquire | .release _ => .isTrue trivial

/-- The locator can be read, from the active file or from the cache. -/
structure Serves (ctx : ZeroFlushContext) (ref : WalRecordRef) : Prop where
  readable : Readable ctx.wal ref
  held : ref.gen = ctx.wal.activeGen ref.partId ∨ Kept ctx.sealedCache ref.file

/-- What the context keeps to along a run. -/
structure Sound (ctx : ZeroFlushContext) : Prop where
  ok : Ok ctx.wal
  separate : Separate ctx
  owned : Owned ctx.sealedCache
  unlinkOld : ∀ f ∈ ctx.sealedCache.pendingUnlink, Appendable ctx.wal f.1 →
    f.2 < ctx.wal.activeGen f.1
  stored : ∀ p x, Stored ctx.indexSet p x → Serves ctx x.loc

/-- The memtables of different epochs are different, and every entry a reader collected is served
by an epoch whose memtable the reader keeps alive. -/
structure Pinned (s : ReaderRun) : Prop where
  sound : Sound s.ctx
  tags : (s.imm ++ s.retired).Pairwise fun m m' => m.zfEpoch ≠ m'.zfEpoch
  tags_le : ∀ m ∈ s.imm ++ s.retired, m.zfEpoch ≤ s.ctx.epochCounter
  serves : ∀ r ∈ s.readers, ∀ x ∈ r.collected, Serves s.ctx x.loc
  shelters : ∀ r ∈ s.readers, ∀ x ∈ r.collected, ∀ e,
    x.loc.file ∈ ownedBy s.ctx.sealedCache e → Shelters s r e

variable {ctx ctx' : ZeroFlushContext} {ref : WalRecordRef} {s : ReaderRun}

theorem Readable.appendable {m : PartitionedWalManager} (h : Readable m ref) :
    m.hasPartition ref.partId = true ∧ Appendable m ref.partId := by
  obtain ⟨p, hp⟩ := Option.ne_none_iff_exists'.mp h.managed
  have hhas : m.hasPartition ref.partId = true := hasPartition_iff.mpr ⟨p, hp⟩
  exact ⟨hhas, .inl hhas⟩

/-- A generation of the cache is not active. -/
theorem Sound.not_kept_of_active (h : Sound ctx) (happ : Appendable ctx.wal ref.partId)
    (hgen : ref.gen = ctx.wal.activeGen ref.partId) : ¬ Kept ctx.sealedCache ref.file := by
  intro hkept
  have hlt := h.separate.old ref.file hkept happ
  rw [WalRecordRef.file] at hlt
  dsimp only at hlt
  omega

/-- `ReadValue` of the context decodes the record at the locator. -/
theorem Serves.decodes (h : Serves ctx ref) (hok : Ok ctx.wal) :
    ∃ d, Framed d ∧ d <+: (log ctx.wal ref.file).drop ref.offset ∧
      ctx.readValue ref = decodeValue d := by
  obtain ⟨hhas, -⟩ := Readable.appendable h.readable
  obtain ⟨d, hd, hplaced⟩ := h.readable.placed
  obtain ⟨p, hp⟩ := Option.ne_none_iff_exists'.mp h.readable.managed
  have hread : ReadPaths.readValue ctx.wal ref = decodeValue d :=
    readValue_of_placedBytes hp (hok.sizes _ p hp) hd hplaced
  refine ⟨d, hd, hplaced.inLog, ?_⟩
  rw [← hread, ReadPaths.readValue, if_neg (by simp [hhas]), ZeroFlushContext.readValue, if_pos hhas]
  split
  · rfl
  next hsealed =>
    have hexists : ctx.wal.env.exists? ref.file = true := by
      by_contra hnot
      obtain ⟨v, hv⟩ := hd.decodeValue_ok
      rw [hv, ReadPaths.readValue, if_neg (by simp [hhas]), if_neg hsealed,
        Env.content_of_not_exists (by simpa using hnot), readFromSealed, List.drop_nil,
        List.take_nil] at hread
      cases hread
    rw [if_pos (readable_of_kept (h.held.resolve_left hsealed)), if_pos hexists]

theorem Serves.readValue (h : Serves ctx ref) (hok : Ok ctx.wal) :
    (ctx.readValue ref).toOption ≠ none := by
  obtain ⟨d, hd, -, hread⟩ := h.decodes hok
  obtain ⟨v, hv⟩ := hd.decodeValue_ok
  rw [hread, hv]
  exact Option.some_ne_none v

theorem Serves.not_pending (h : Serves ctx ref) (hs : Sound ctx) :
    ref.file ∉ ctx.sealedCache.pendingUnlink := by
  intro hpend
  obtain hactive | hkept := h.held
  · have hlt := hs.unlinkOld ref.file hpend (Readable.appendable h.readable).2
    rw [WalRecordRef.file] at hlt
    dsimp only at hlt
    omega
  · exact hs.owned.unlinked ref.file hpend hkept

theorem Pinned.keepsReadable (h : Pinned s) : KeepsReadable s := by
  intro r hr x hx
  have hserves := h.serves r hr x hx
  exact ⟨hserves.readValue h.sound.ok, hserves.not_pending h.sound⟩

/-- A step of the context that leaves the indexes and the cache alone and takes nothing away from
the WAL. -/
theorem sound_of_wal (h : Sound ctx) (hok : Ok ctx'.wal) (hsep : Separate ctx')
    (hgen : ∀ i, ctx'.wal.activeGen i = ctx.wal.activeGen i)
    (happ : ∀ i, Appendable ctx'.wal i → Appendable ctx.wal i)
    (hcache : ctx'.sealedCache = ctx.sealedCache) (hindex : ctx'.indexSet = ctx.indexSet)
    (hread : ∀ ref, Readable ctx.wal ref → Readable ctx'.wal ref) :
    Sound ctx' ∧ ∀ ref, Serves ctx ref → Serves ctx' ref := by
  have hserves : ∀ ref, Serves ctx ref → Serves ctx' ref := by
    intro ref hs
    refine ⟨hread ref hs.readable, ?_⟩
    rw [hgen, hcache]
    exact hs.held
  refine ⟨⟨hok, hsep, hcache ▸ h.owned, ?_, ?_⟩, hserves⟩
  · rw [hcache]
    intro f hf ha
    rw [hgen]
    exact h.unlinkOld f hf (happ f.1 ha)
  · intro p x hx
    rw [hindex] at hx
    exact hserves _ (h.stored p x hx)

theorem sound_sync (h : Sound ctx) (part : ℕ) :
    Sound (ContextRuns.step ctx (.sync part)) ∧
      ∀ ref, Serves ctx ref → Serves (ContextRuns.step ctx (.sync part)) ref := by
  refine sound_of_wal h (ok_sync h.ok part) ?_ (activeGen_sync _ part) ?_ rfl rfl ?_
  · exact ReleasedIndexes.separate_step ctx (.context (.sync part)) trivial h.separate
  · exact fun i hi => hi.imp_left fun hi => (hasPartition_sync _ _ i).symm.trans hi
  · exact fun ref hr => hr.mono (extends_sync h.ok.handles part)
      fun i hi => WalReferenceStability.lookup_sync_ne_none part hi

/-- `AddRecord` gives out a locator that can be read. -/
theorem sound_addRecord (h : Sound ctx) {r : WalRecord} {v rnd : ℕ} (hr : r.frameLength < 2 ^ 32)
    (hadd : ctx.addRecord r v rnd = (.ok ref, ctx')) :
    Sound ctx' ∧ (∀ ref, Serves ctx ref → Serves ctx' ref) ∧ Serves ctx' ref ∧
      ¬ Kept ctx'.sealedCache ref.file ∧ ctx'.sealedCache = ctx.sealedCache ∧
      ctx'.epochCounter = ctx.epochCounter := by
  have hsep := ReleasedIndexes.separate_step ctx (.context (.addRecord r v rnd)) trivial h.separate
  replace hsep : Separate (ctx.addRecord r v rnd).2 := hsep
  rw [hadd] at hsep
  rw [ZeroFlushContext.addRecord] at hadd
  cases ha : ctx.wal.append (ctx.partOf r v) r with
  | mk res wal =>
    rw [ha] at hadd
    cases res with
    | error e => cases hadd
    | ok ref' =>
      obtain ⟨rfl, rfl⟩ : ref' = ref ∧ _ = ctx' := by simpa using hadd
      obtain ⟨hpart, hgen, happ, hgens, hiff⟩ := append_ok ha
      have hinv : ∀ a, WalReferenceStability.Inv ⟨ctx.wal, a⟩ →
          WalReferenceStability.Inv ⟨wal, (ref', r) :: a⟩ := by
        intro a hi
        have hstep := WalReferenceStability.inv_step ⟨ctx.wal, a⟩ (.append (ctx.partOf r v) r) hr hi
        rwa [WalReferenceStability.Session.step, ha] at hstep
      have hnew := hinv [] ⟨h.ok, fun a ha => absurd ha List.not_mem_nil⟩
      have hext : ∀ ref, Readable ctx.wal ref → Readable wal ref := by
        intro ref href
        exact readable_append h.ok ha href
      have hserves : ∀ ref, Serves ctx ref → Serves { ctx with
          wal := wal
          indexSet := ctx.indexSet.insert ctx.ucmp (ctx.partOf r v) ref'.gen (indexEntry r ref')
          sampler := ctx.sampled rnd r.key } ref := by
        intro ref hs
        refine ⟨hext ref hs.readable, ?_⟩
        dsimp only
        rw [hgens]
        exact hs.held
      have hself : Serves { ctx with
          wal := wal
          indexSet := ctx.indexSet.insert ctx.ucmp (ctx.partOf r v) ref'.gen (indexEntry r ref')
          sampler := ctx.sampled rnd r.key } ref' := by
        refine ⟨Good.readable (hnew.good _ List.mem_cons_self), .inl ?_⟩
        dsimp only
        rw [hgens, hpart]
        exact hgen
      refine ⟨⟨hnew.ok, hsep, h.owned, ?_, ?_⟩, hserves, hself, ?_, rfl, rfl⟩
      · intro f hf hi
        dsimp only
        rw [hgens]
        exact h.unlinkOld f hf ((hiff f.1).mp hi)
      · intro p x hx
        obtain ⟨-, rfl⟩ | hx := stored_insert hx
        · exact hself
        · exact hserves _ (h.stored p x hx)
      · refine h.not_kept_of_active (hpart ▸ happ) ?_
        rw [hpart]
        exact hgen

/-- What a seal does when it takes an epoch. -/
theorem sealedBy_context {op : SealOp} (hseals : op.seals ctx = true) :
    ∃ fs t, SealedBy ctx (op.context ctx) (op.parts ctx) fs t := by
  cases op with
  | freezeBatchPartitions l1 =>
    have hb : ctx.chooseBatch ≠ [] := of_decide_eq_true hseals
    exact ⟨_, _, sealedBy_freezeBatch l1 hb⟩
  | freezeOnePartition =>
    obtain ⟨target, hc⟩ := Option.isSome_iff_exists.mp hseals
    obtain ⟨gen, hby⟩ := sealedBy_freezeOne hc
    rw [SealOp.parts, hc]
    exact ⟨_, _, hby⟩
  | sealEpochAndSwitch l1 => exact ⟨_, _, sealedBy_sealEpoch ctx l1⟩

/-- Without an epoch only the flag is cleared. -/
theorem context_of_not_seals {op : SealOp} (hseals : op.seals ctx = false) :
    op.context ctx = { ctx with wal := ctx.wal.clearOverTargetFlag } := by
  cases op with
  | freezeBatchPartitions l1 =>
    have hb : ctx.chooseBatch = [] := not_not.mp (of_decide_eq_false hseals)
    rw [SealOp.context, ZeroFlushContext.freezeBatchPartitions, hb]
  | freezeOnePartition =>
    have hc : ctx.chooseOne = none := by
      rw [← Option.not_isSome_iff_eq_none]
      exact Bool.eq_false_iff.mp hseals
    rw [SealOp.context, ZeroFlushContext.freezeOnePartition, hc]
  | sealEpochAndSwitch l1 => cases hseals

theorem separate_seal (h : Separate ctx) {op : SealOp} (hwrap : NoWrap ctx.wal (op.parts ctx)) :
    Separate (op.context ctx) := by
  cases op with
  | freezeBatchPartitions l1 =>
    exact ReleasedIndexes.separate_step ctx (.context (.freezeBatchPartitions l1)) hwrap h
  | freezeOnePartition =>
    exact ReleasedIndexes.separate_step ctx (.context .freezeOnePartition) hwrap h
  | sealEpochAndSwitch l1 =>
    exact ReleasedIndexes.separate_step ctx (.context (.sealEpochAndSwitch l1)) hwrap h

/-- What a seal puts into its epoch, for locators that were served before it. -/
structure SealsInto (ctx ctx' : ZeroFlushContext) (op : SealOp) : Prop where
  sound : Sound ctx'
  serves : ∀ ref, Serves ctx ref → Serves ctx' ref
  counter_eq : ctx'.epochCounter = ctx.epochCounter + 1
  takes : ∀ ref, Serves ctx ref → ref.file ∈ ownedBy ctx'.sealedCache (ctx.epochCounter + 1) →
    Takes ctx op ref.file
  other : ∀ e f, e ≠ ctx.epochCounter + 1 → f ∈ ownedBy ctx'.sealedCache e →
    f ∈ ownedBy ctx.sealedCache e

theorem sealsInto_context (h : Sound ctx) {op : SealOp} (hseals : op.seals ctx = true)
    (hwrap : NoWrap ctx.wal (op.parts ctx)) : SealsInto ctx (op.context ctx) op := by
  obtain ⟨fs, t, hby⟩ := sealedBy_context hseals
  have hsep := separate_seal h.separate hwrap
  generalize op.context ctx = ctx' at hby hsep
  have hloop := @seals_loop (op.parts ctx) ctx.wal ctx.nextEpoch.2 hwrap
  have hepoch : ((op.parts ctx).foldl sealWal (ctx.wal, ctx.nextEpoch.2)).2.epoch =
      ctx.epochCounter + 1 := hloop.epoch_eq
  have hnew := h.separate.epoch_new hwrap
  obtain ⟨hokm, hreads⟩ := @readable_seals ctx.wal (op.parts ctx) ctx.nextEpoch.2 hwrap h.ok
  have hgen : ∀ i, ctx'.wal.activeGen i =
      ((op.parts ctx).foldl sealWal (ctx.wal, ctx.nextEpoch.2)).1.activeGen i := by
    intro i
    rw [hby.wal_eq]
    rfl
  have happ : ∀ i, Appendable ctx'.wal i → Appendable ctx.wal i := by
    intro i hi
    rw [hby.wal_eq] at hi
    exact hi.imp_left fun hi => (hloop.hasPartition_eq i).symm.trans hi
  have hsealed : ∀ f ∈ ((op.parts ctx).foldl sealWal (ctx.wal, ctx.nextEpoch.2)).2.gens,
      Appendable ctx.wal f.1 ∧ ctx.wal.activeGen f.1 ≤ f.2 := by
    intro f hf
    obtain hf | ⟨hhas, hge, -⟩ := hloop.gens f hf
    · cases hf
    · exact ⟨.inl hhas, hge⟩
  have hread : ∀ ref, Readable ctx.wal ref → Readable ctx'.wal ref := by
    intro ref href
    rw [hby.wal_eq]
    exact (hreads ref href).congr rfl rfl
  have hserves : ∀ ref, Serves ctx ref → Serves ctx' ref := by
    intro ref hs
    refine ⟨hread ref hs.readable, ?_⟩
    rw [hgen, hby.cache_eq]
    obtain hactive | hkept := hs.held
    · rcases Classical.em (ref.partId ∈ op.parts ctx) with hin | hout
      · -- the generation is sealed by this freeze
        right
        refine ReleasedIndexes.kept_addEpoch hnew (.inr ?_)
        rw [WalRecordRef.file, hactive]
        exact mem_sealed hin (Readable.appendable hs.readable).1
          (hs.readable.activeSize_pos h.ok hactive)
      · left
        rw [hloop.other _ hout]
        exact hactive
    · exact .inr (ReleasedIndexes.kept_addEpoch hnew (.inl hkept))
  refine ⟨⟨?_, hsep, ?_, ?_, ?_⟩, hserves, hby.counter_eq, ?_, ?_⟩
  · rw [hby.wal_eq]
    exact ok_congr hokm rfl rfl rfl
  · rw [hby.cache_eq]
    refine owned_addEpoch h.owned hnew ?_
    intro f hf
    obtain ⟨ha, hge⟩ := hsealed f hf
    refine ⟨fun hkept => ?_, fun hpend => ?_⟩
    · have hlt := h.separate.old f hkept ha
      omega
    · have hlt := h.unlinkOld f hpend ha
      omega
  · intro f hf ha
    have hpend : ctx'.sealedCache.pendingUnlink = ctx.sealedCache.pendingUnlink := by
      rw [hby.cache_eq, SealedFileCache.addEpochWithRecoveryAdoption, hnew]
    rw [hpend] at hf
    rw [hgen]
    exact (h.unlinkOld f hf (happ _ ha)).trans_le (hloop.le f.1)
  · intro p x hx
    rw [hby.index_eq] at hx
    exact hserves _ (h.stored p x (stored_freezeIndexLoop.mp hx))
  · intro ref hs hmem
    rw [hby.cache_eq, ownedBy_addEpoch hnew, if_pos hepoch.symm] at hmem
    obtain hf | hwait := hmem
    · refine .inl ⟨ReleasedIndexes.mem_of_mem_sealed hwrap rfl _ hf, ?_⟩
      refine hs.held.resolve_right fun hkept => ?_
      obtain ⟨ha, hge⟩ := hsealed _ hf
      have hlt := h.separate.old _ hkept ha
      omega
    · exact .inr hwait
  · intro e f he hf
    rw [hby.cache_eq, ownedBy_addEpoch hnew, if_neg (by rw [hepoch]; exact he)] at hf
    exact hf

theorem sound_of_not_seals (h : Sound ctx) {op : SealOp} (hseals : op.seals ctx = false)
    (hwrap : NoWrap ctx.wal (op.parts ctx)) :
    Sound (op.context ctx) ∧ ∀ ref, Serves ctx ref → Serves (op.context ctx) ref := by
  have hctx := context_of_not_seals hseals
  have hsep := separate_seal h.separate hwrap
  rw [hctx] at hsep ⊢
  exact sound_of_wal h (ok_congr h.ok rfl rfl rfl) hsep (fun _ => rfl) (fun _ => id) rfl rfl
    fun ref href => href.congr rfl rfl

theorem pinned_seal (h : Pinned s) {op : SealOp} (hok : StepOk s (.sealEpoch op)) :
    Pinned (s.step (.sealEpoch op)) := by
  obtain ⟨hwrap, hcond⟩ := hok
  rw [ReaderRun.step]
  split
  next hseals =>
    have hinto := sealsInto_context h.sound hseals hwrap
    generalize op.context s.ctx = ctx' at hinto
    have hmem : ∀ m, m ∈ (s.imm ++ [⟨s.mem.id, ctx'.epochCounter⟩]) ++ s.retired ↔
        m ∈ s.imm ++ s.retired ∨ m = ⟨s.mem.id, ctx'.epochCounter⟩ := by
      intro m
      simp only [List.mem_append, List.mem_singleton]
      tauto
    refine ⟨hinto.sound, ?_, ?_, ?_, ?_⟩
    · have hperm : (s.imm ++ s.retired ++ [(⟨s.mem.id, ctx'.epochCounter⟩ : MemTable)]).Perm
          (s.imm ++ [⟨s.mem.id, ctx'.epochCounter⟩] ++ s.retired) := by
        rw [List.append_assoc, List.append_assoc]
        exact List.Perm.append_left _ List.perm_append_comm
      refine (hperm.pairwise_iff fun hne => Ne.symm hne).mp ?_
      rw [List.pairwise_append]
      refine ⟨h.tags, List.pairwise_singleton _ _, ?_⟩
      intro m hm m' hm'
      obtain rfl := List.mem_singleton.mp hm'
      have hle := h.tags_le m hm
      have hcount := hinto.counter_eq
      dsimp only
      omega
    · intro m hm
      have hcount := hinto.counter_eq
      obtain hm | rfl := (hmem m).mp hm
      · have hle := h.tags_le m hm
        show m.zfEpoch ≤ ctx'.epochCounter
        omega
      · exact le_rfl
    · exact fun r hr x hx => hinto.serves _ (h.serves r hr x hx)
    · intro r hr x hx e he
      cases eq_or_ne e (s.ctx.epochCounter + 1) with
      | inl hnew =>
        subst hnew
        have htakes := hinto.takes _ (h.serves r hr x hx) he
        exact ⟨_, (hmem _).mpr (.inr rfl), hinto.counter_eq, hcond r hr x hx htakes⟩
      | inr hold =>
        obtain ⟨m, hm, htag, hsv⟩ := h.shelters r hr x hx e (hinto.other e _ hold he)
        exact ⟨m, (hmem m).mpr (.inl hm), htag, hsv⟩
  next hseals =>
    obtain ⟨hsound, hserves⟩ := sound_of_not_seals h.sound (Bool.eq_false_iff.mpr hseals) hwrap
    rw [context_of_not_seals (Bool.eq_false_iff.mpr hseals)] at hsound hserves ⊢
    exact ⟨hsound, h.tags, h.tags_le, fun r hr x hx => hserves _ (h.serves r hr x hx), h.shelters⟩

theorem pinned_write (h : Pinned s) {r : WalRecord} {v rnd : ℕ} (hr : r.frameLength < 2 ^ 32) :
    Pinned (s.step (.write r v rnd)) := by
  rw [ReaderRun.step]
  cases hadd : s.ctx.addRecord r v rnd with
  | mk res ctx' =>
    cases res with
    | error e =>
      obtain rfl := HeldVersions.addRecord_error hadd
      exact h
    | ok ref =>
      obtain ⟨hsound, hserves, hself, hnot, hcache, hcount⟩ := sound_addRecord h.sound hr hadd
      have hshared : ∀ q ∈ s.readers.map (Reader.share ref.file (indexEntry r ref)),
          ∃ q₀ ∈ s.readers, q.superVersion = q₀.superVersion ∧
            ∀ x ∈ q.collected, x = indexEntry r ref ∨ x ∈ q₀.collected := by
        intro q hq
        obtain ⟨q₀, hq₀, rfl⟩ := List.mem_map.mp hq
        refine ⟨q₀, hq₀, ?_⟩
        rw [Reader.share]
        split
        · exact ⟨rfl, fun x hx => List.mem_cons.mp hx⟩
        · exact ⟨rfl, fun x hx => .inr hx⟩
      refine ⟨hsound, h.tags, ?_, ?_, ?_⟩
      · intro m hm
        show m.zfEpoch ≤ ctx'.epochCounter
        rw [hcount]
        exact h.tags_le m hm
      · intro q hq x hx
        obtain ⟨q₀, hq₀, -, hcoll⟩ := hshared q hq
        obtain rfl | hx := hcoll x hx
        · exact hself
        · exact hserves _ (h.serves q₀ hq₀ x hx)
      · intro q hq x hx e he
        obtain ⟨q₀, hq₀, hsv, hcoll⟩ := hshared q hq
        obtain rfl | hx := hcoll x hx
        · exact absurd (kept_iff.mpr (.inl ⟨e, he⟩)) hnot
        · rw [hcache] at he
          obtain ⟨m, hm, htag, hid⟩ := h.shelters q₀ hq₀ x hx e he
          exact ⟨m, hm, htag, hsv ▸ hid⟩

theorem pinned_sync (h : Pinned s) (part : ℕ) : Pinned (s.step (.sync part)) := by
  obtain ⟨hsound, hserves⟩ := sound_sync h.sound part
  exact ⟨hsound, h.tags, h.tags_le, fun r hr x hx => hserves _ (h.serves r hr x hx), h.shelters⟩

theorem pinned_handOff (h : Pinned s) {epoch : ℕ} {gens : List FileId}
    (hsub : ∀ f ∈ gens, f ∈ ownedBy s.ctx.sealedCache epoch) (partBytes : Map ℕ ℕ) :
    Pinned (s.step (.handOffSkipped epoch gens partBytes)) := by
  have howned := h.sound.owned
  have hoff := handsOff_handOff howned epoch gens partBytes
  have hserves : ∀ ref, Serves s.ctx ref →
      Serves (s.step (.handOffSkipped epoch gens partBytes)).ctx ref :=
    fun ref hs => ⟨hs.readable, hs.held.imp_right (kept_handOff howned epoch gens partBytes)⟩
  refine ⟨⟨h.sound.ok, ?_, owned_handOff howned hsub partBytes, ?_, ?_⟩, h.tags, h.tags_le, ?_, ?_⟩
  · exact ReleasedIndexes.separate_step s.ctx (.handOffSkipped epoch gens partBytes) hsub
      h.sound.separate
  · intro f hf
    exact h.sound.unlinkOld f (hoff.unlinked_eq ▸ hf)
  · exact fun p x hx => hserves _ (h.sound.stored p x hx)
  · exact fun r hr x hx => hserves _ (h.serves r hr x hx)
  · intro r hr x hx e he
    refine h.shelters r hr x hx e ?_
    cases eq_or_ne e epoch with
    | inl heq =>
      subst heq
      exact ((hoff.own _).mp he).1
    | inr hne => exact (hoff.other e hne).1 ▸ he

/-- The release of an epoch, for locators that it does not own. -/
theorem sound_releaseEpoch (h : Sound ctx) (epoch : ℕ) :
    Sound (ctx.releaseEpoch epoch) ∧
      (∀ ref, Serves ctx ref → ref.file ∉ ownedBy ctx.sealedCache epoch →
        Serves (ctx.releaseEpoch epoch) ref) ∧
      ∀ e, ownedBy (ctx.releaseEpoch epoch).sealedCache e ⊆ ownedBy ctx.sealedCache e := by
  have hrel := releases_releaseEpoch h.owned epoch
  have hserves : ∀ ref, Serves ctx ref → ref.file ∉ ownedBy ctx.sealedCache epoch →
      Serves (ctx.releaseEpoch epoch) ref :=
    fun ref hs hnot =>
      ⟨hs.readable, hs.held.imp_right fun hk => ReleasedIndexes.kept_releaseEpoch hk hnot⟩
  refine ⟨⟨h.ok, ?_, owned_releaseEpoch h.owned epoch, ?_, ?_⟩, hserves, ?_⟩
  · exact ReleasedIndexes.separate_step ctx (.context (.releaseEpoch epoch)) trivial h.separate
  · intro f hf ha
    obtain hold | ⟨hown, -⟩ := hrel.unlinked f hf
    · exact h.unlinkOld f hold ha
    · exact h.separate.old f (kept_iff.mpr (.inl ⟨epoch, hown⟩)) ha
  · intro p x hx
    obtain ⟨hold, hnot⟩ := (h.separate.releasesExactly epoch p x).mp hx
    exact hserves _ (h.stored p x hold) hnot
  · intro e
    cases eq_or_ne e epoch with
    | inl heq => exact heq ▸ hrel.own
    | inr hne => exact fun f hf => (hrel.other e hne).1 ▸ hf

/-- The destructors of several memtables. -/
theorem sound_destroys (ds : List MemTable) (h : Sound ctx) :
    Sound (ds.foldl destroy ctx) ∧ (ds.foldl destroy ctx).epochCounter = ctx.epochCounter ∧
      (∀ ref, Serves ctx ref → (∀ m ∈ ds, ref.file ∉ ownedBy ctx.sealedCache m.zfEpoch) →
        Serves (ds.foldl destroy ctx) ref) ∧
      ∀ e, ownedBy (ds.foldl destroy ctx).sealedCache e ⊆ ownedBy ctx.sealedCache e := by
  induction ds generalizing ctx with
  | nil => exact ⟨h, rfl, fun ref hs _ => hs, fun e => List.Subset.refl _⟩
  | cons m ds ih =>
    rw [List.foldl_cons, destroy]
    split
    · obtain ⟨hsound, hcount, hserves, hsub⟩ := ih h
      exact ⟨hsound, hcount,
        fun ref hs hnot => hserves ref hs fun d hd => hnot d (List.mem_cons_of_mem _ hd), hsub⟩
    · obtain ⟨hsound₁, hserves₁, hsub₁⟩ := sound_releaseEpoch h m.zfEpoch
      obtain ⟨hsound, hcount, hserves, hsub⟩ := ih hsound₁
      refine ⟨hsound, hcount, ?_, fun e => List.Subset.trans (hsub e) (hsub₁ e)⟩
      intro ref hs hnot
      refine hserves ref (hserves₁ ref hs (hnot m List.mem_cons_self)) ?_
      exact fun d hd hmem => hnot d (List.mem_cons_of_mem _ hd) (hsub₁ _ hmem)

theorem referenced_iff {m : MemTable} :
    s.referenced m = true ↔ ∃ r ∈ s.readers, m.id ∈ r.superVersion := by
  simp [ReaderRun.referenced]

/-- Destroying what no reader refers to takes nothing from the readers. -/
theorem pinned_settle (h : Pinned s) : Pinned s.settle := by
  obtain ⟨hsound, hcount, hserves, hsub⟩ :=
    sound_destroys (s.retired.filter fun m => !s.referenced m) h.sound
  have hleft : (s.imm ++ s.retired.filter fun m => s.referenced m).Sublist (s.imm ++ s.retired) :=
    List.Sublist.append (List.Sublist.refl _) List.filter_sublist
  refine ⟨hsound, h.tags.sublist hleft, ?_, ?_, ?_⟩
  · intro m hm
    show m.zfEpoch ≤ _
    rw [ReaderRun.settle, hcount]
    exact h.tags_le m (hleft.subset hm)
  · intro r hr x hx
    refine hserves _ (h.serves r hr x hx) ?_
    intro d hd hmem
    obtain ⟨hret, hunref⟩ := List.mem_filter.mp hd
    obtain ⟨m, hm, htag, hid⟩ := h.shelters r hr x hx _ hmem
    -- the memtable that shelters the entry has the same epoch, so it is this one
    have hsymm : Std.Symm fun m m' : MemTable => m.zfEpoch ≠ m'.zfEpoch := ⟨fun _ _ h => h.symm⟩
    have hsame : d = m := by
      by_contra hne
      exact h.tags.forall (List.mem_append_right _ hret) hm hne htag.symm
    subst hsame
    have href : s.referenced d = true := referenced_iff.mpr ⟨r, hr, hid⟩
    rw [href] at hunref
    cases hunref
  · intro r hr x hx e he
    obtain ⟨m, hm, htag, hid⟩ := h.shelters r hr x hx e (hsub e he)
    refine ⟨m, ?_, htag, hid⟩
    obtain hm | hm := List.mem_append.mp hm
    · exact List.mem_append_left _ hm
    · exact List.mem_append_right _ (List.mem_filter.mpr ⟨hm, referenced_iff.mpr ⟨r, hr, hid⟩⟩)

theorem pinned_flush (h : Pinned s) (count : ℕ) : Pinned (s.step (.flush count)) := by
  have hperm : (s.imm ++ s.retired).Perm (s.imm.drop count ++ (s.retired ++ s.imm.take count)) := by
    have hsplit : s.imm ++ s.retired = s.imm.take count ++ (s.imm.drop count ++ s.retired) := by
      rw [← List.append_assoc, List.take_append_drop]
    rw [hsplit, ← List.append_assoc (s.imm.drop count)]
    exact List.perm_append_comm
  refine pinned_settle ⟨h.sound, (hperm.pairwise_iff fun hne => Ne.symm hne).mp h.tags,
    fun m hm => h.tags_le m (hperm.mem_iff.mpr hm), h.serves, ?_⟩
  intro r hr x hx e he
  obtain ⟨m, hm, htag, hid⟩ := h.shelters r hr x hx e he
  exact ⟨m, hperm.mem_iff.mp hm, htag, hid⟩

theorem pinned_release (h : Pinned s) (i : ℕ) : Pinned (s.step (.release i)) := by
  have hsub := (List.eraseIdx_sublist s.readers i).subset
  exact pinned_settle ⟨h.sound, h.tags, h.tags_le, fun r hr => h.serves r (hsub hr),
    fun r hr => h.shelters r (hsub hr)⟩

theorem pinned_purge (h : Pinned s) : Pinned (s.step .purgeSealedFiles) := by
  have hactive : ∀ f ∈ s.ctx.sealedCache.pendingUnlink, ∀ p, s.ctx.wal.parts.lookup f.1 = some p →
      p.gen ≠ f.2 := by
    intro f hf p hp he
    have hlt := h.sound.unlinkOld f hf (.inl (hasPartition_iff.mpr ⟨p, hp⟩))
    simp [PartitionedWalManager.activeGen, hp, he] at hlt
  obtain ⟨hok, hread⟩ := readable_unlinks s.ctx.sealedCache.pendingUnlink h.sound.ok hactive
  have hserves : ∀ ref, Serves s.ctx ref → Serves s.ctx.purgeSealedFiles ref :=
    fun ref hs => ⟨hread ref hs.readable (hs.not_pending h.sound), hs.held⟩
  refine ⟨⟨hok, ?_, owned_purgePending h.sound.owned s.ctx.wal.env, ?_, ?_⟩, h.tags, h.tags_le, ?_, h.shelters⟩
  · exact ReleasedIndexes.separate_step s.ctx (.context .purgeSealedFiles) trivial h.sound.separate
  · exact fun f hf => absurd hf List.not_mem_nil
  · exact fun p x hx => hserves _ (h.sound.stored p x hx)
  · exact fun r hr x hx => hserves _ (h.serves r hr x hx)

theorem pinned_acquire (h : Pinned s) : Pinned (s.step .acquire) := by
  have hnew : ∀ r ∈ (s.step .acquire).readers, r ∈ s.readers ∨ r.collected = [] := by
    intro r hr
    obtain hr | hr := List.mem_append.mp hr
    · exact .inl hr
    · rw [List.mem_singleton.mp hr]
      exact .inr rfl
  refine ⟨h.sound, h.tags, h.tags_le, ?_, ?_⟩
  · intro r hr x hx
    obtain hr | hnil := hnew r hr
    · exact h.serves r hr x hx
    · rw [hnil] at hx
      cases hx
  · intro r hr x hx
    obtain hr | hnil := hnew r hr
    · exact h.shelters r hr x hx
    · rw [hnil] at hx
      cases hx

/-- What a reader collects is stored in the indexes. -/
theorem stored_of_mem_allIndexes {is : PartitionIndexSet} {i : ℕ × PartitionIndex}
    (hi : i ∈ allIndexes is) {x : IndexEntry} (hx : x ∈ i.2.entries) : Stored is i.1 x := by
  refine ⟨i.2, ?_, hx⟩
  rw [PartitionIndexSet.chain, List.mem_append, List.mem_reverse, Option.mem_toList]
  obtain hi | hi := List.mem_append.mp hi
  · obtain ⟨p, -, hi⟩ := List.mem_flatMap.mp hi
    obtain ⟨j, hj, rfl⟩ := List.mem_map.mp hi
    exact .inr hj
  · obtain ⟨⟨p, j⟩, hj, rfl⟩ := List.mem_map.mp hi
    exact .inl (AList.mem_lookup_iff.mpr hj)

theorem mem_ownersOf {c : SealedFileCache} {f : FileId} {e : ℕ} :
    e ∈ ownersOf c f ↔ f ∈ ownedBy c e := by
  rw [ownersOf, List.mem_map, mem_ownedBy]
  constructor
  · rintro ⟨⟨e', se⟩, hmem, rfl⟩
    obtain ⟨hmem, hf⟩ := List.mem_filter.mp hmem
    exact ⟨se, AList.mem_lookup_iff.mpr hmem, of_decide_eq_true hf⟩
  · rintro ⟨se, hse, hf⟩
    exact ⟨⟨e, se⟩, List.mem_filter.mpr ⟨AList.mem_lookup_iff.mp hse, decide_eq_true hf⟩, rfl⟩

theorem pinned_collect (h : Pinned s) {i : ℕ} (hok : StepOk s (.collect i)) :
    Pinned (s.step (.collect i)) := by
  have hcases : ∀ r ∈ s.readers.modify i (Reader.collectFrom s.ctx.indexSet), r ∈ s.readers ∨
      ∃ r₀ ∈ s.readers[i]?, r = r₀.collectFrom s.ctx.indexSet := by
    intro r hr
    obtain ⟨j, hj⟩ := List.mem_iff_getElem?.mp hr
    rw [List.getElem?_modify] at hj
    split at hj
    next hij =>
      subst hij
      obtain ⟨r₀, hr₀, rfl⟩ := Option.map_eq_some_iff.mp hj
      exact .inr ⟨r₀, hr₀, rfl⟩
    next => exact .inl (List.mem_iff_getElem?.mpr ⟨j, by simpa using hj⟩)
  refine ⟨h.sound, h.tags, h.tags_le, ?_, ?_⟩
  · intro r hr x hx
    obtain hr | ⟨r₀, -, rfl⟩ := hcases r hr
    · exact h.serves r hr x hx
    · obtain ⟨j, hj, hx⟩ := List.mem_flatMap.mp hx
      exact h.sound.stored _ x (stored_of_mem_allIndexes hj hx)
  · intro r hr x hx e he
    obtain hr | ⟨r₀, hr₀, rfl⟩ := hcases r hr
    · exact h.shelters r hr x hx e he
    · exact hok r₀ hr₀ x hx e (mem_ownersOf.mpr he)

theorem pendingUnlink_recover (ctx : ZeroFlushContext) :
    ctx.recover.sealedCache.pendingUnlink = ctx.sealedCache.pendingUnlink := by
  rw [ZeroFlushContext.recover]
  split <;> rw [(sameRest_replay _ _).sealedCache_eq] <;> rfl

/-- A new session over files that the condition allows. -/
theorem sound_recover {env : Env} {n target : ℕ}
    (hwal : ctx.wal = (PartitionedWalManager.create env n target).open_)
    (hindex : ctx.indexSet = {}) (hepochs : ctx.sealedCache.epochs = ∅)
    (hpend : ctx.sealedCache.pendingUnlink = []) (hsep : Separate ctx.recover)
    (hfiles : ∀ f ∈ env.listFiles, f.1 < n ∧ f.1 ≠ kRangeDelPartId ∨ env.content f = []) :
    Sound ctx.recover := by
  have henv : ctx.wal.env = env := by rw [hwal]; rfl
  obtain ⟨-, -, hepochs', hrec, -⟩ := recover_spec ctx
  have hnone : ∀ e f, f ∉ ownedBy ctx.recover.sealedCache e := by
    intro e f hf
    obtain ⟨se, hse, -⟩ := mem_ownedBy.mp hf
    rw [hepochs', hepochs] at hse
    cases hse
  have hpend' : ctx.recover.sealedCache.pendingUnlink = [] :=
    (pendingUnlink_recover ctx).trans hpend
  refine ⟨?_, hsep, ⟨fun e _ f hf => absurd hf (hnone e f), fun e f hf => absurd hf (hnone e f),
    fun e f hf => absurd hf (hnone e f), ?_⟩, ?_, ?_⟩
  · rw [wal_recover, hwal]
    refine ok_open (openable_create env n target ?_)
    intro g
    by_cases hex : env.exists? (kRangeDelPartId, g) = true
    · exact (hfiles _ (Env.mem_listFiles.mpr hex)).resolve_left fun hne => hne.2 rfl
    · exact Env.content_of_not_exists (by simpa using hex)
  · rw [hpend']
    exact fun f hf => absurd hf List.not_mem_nil
  · rw [hpend']
    exact fun f hf => absurd hf List.not_mem_nil
  · intro p x hx
    obtain ⟨f, hf, y, hy, rfl⟩ := stored_recover hindex hx
    rw [henv] at hf hy
    have hlt : f.1 < n := by
      obtain h | hnil := hfiles f hf
      · exact h.1
      · rw [hnil] at hy
        cases hy
    have hlookup : (PartitionedWalManager.create env n target).open_.parts.lookup f.1 ≠ none := by
      rw [lookup_openCreate, if_pos hlt]
      exact Option.some_ne_none _
    have hread : Readable (PartitionedWalManager.create env n target).open_ (replayedRef f y) :=
      readable_replayed hy hlookup
    refine ⟨by rw [wal_recover, hwal]; exact hread, ?_⟩
    rw [wal_recover, hwal, replayedEntry, replayedRef]
    dsimp only
    rw [activeGen_openCreate, if_pos hlt]
    obtain heq | hbelow := (le_maxGen hf).eq_or_lt
    · exact .inl heq
    · -- an older generation is an orphan, which waits for the next epoch
      refine .inr (.inr (.inl ((hrec _).mpr (.inr ?_))))
      rw [ZeroFlushContext.orphans, henv]
      refine List.mem_flatMap.mpr ⟨f.1, ?_, List.mem_filter.mpr ⟨hf, decide_eq_true ⟨rfl, hbelow⟩⟩⟩
      rw [ZeroFlushContext.recoverParts, List.mem_insertionSort, List.mem_dedup, List.mem_append,
        henv]
      exact .inr (List.mem_map_of_mem hf)

theorem pinned_reopened (h : Sound ctx) : Pinned (ReaderRun.reopened ctx) :=
  ⟨h, List.Pairwise.nil, fun _ hm => absurd hm List.not_mem_nil,
    fun _ hr => absurd hr List.not_mem_nil, fun _ hr => absurd hr List.not_mem_nil⟩

theorem pinned_step (s : ReaderRun) (op : ReaderOp) (hok : StepOk s op) (h : Pinned s) :
    Pinned (s.step op) := by
  cases op with
  | write r v rnd => exact pinned_write h hok
  | sync part => exact pinned_sync h part
  | sealEpoch op => exact pinned_seal h hok
  | handOffSkipped epoch gens partBytes => exact pinned_handOff h hok partBytes
  | flush count => exact pinned_flush h count
  | purgeSealedFiles => exact pinned_purge h
  | acquire => exact pinned_acquire h
  | collect i => exact pinned_collect h hok
  | release i => exact pinned_release h i
  | reopen tables =>
    refine pinned_reopened (sound_recover rfl rfl rfl rfl ?_ hok.2)
    exact ReleasedIndexes.separate_step s.ctx (.context (.reopen tables)) hok.1 h.sound.separate
  | crash cut tables =>
    refine pinned_reopened (sound_recover rfl rfl rfl rfl ?_ hok.2)
    exact ReleasedIndexes.separate_step s.ctx (.context (.crash cut tables)) hok.1 h.sound.separate

theorem pinned_start (zfo : ZeroFlushOptions) (ucmp : UserComparator) (tables : PartitionTableSet)
    (sampler : Option KeySampler) : Pinned (ReaderRun.start zfo ucmp tables sampler) := by
  refine pinned_reopened (sound_recover rfl rfl rfl rfl ?_ ?_)
  · exact ReleasedIndexes.separate_start zfo ucmp tables sampler
  · intro f hf
    simp [Env.mem_listFiles] at hf

/-- In a run whose steps all meet the condition, every reader can read all entries of the indexes it
collected for as long as it holds its SuperVersion. -/
theorem keepsReadable_of_guarded (zfo : ZeroFlushOptions) (ucmp : UserComparator)
    (tables : PartitionTableSet) (sampler : Option KeySampler) (ops : List ReaderOp)
    (hok : Guarded ReaderRun.step StepOk (ReaderRun.start zfo ucmp tables sampler) ops) :
    KeepsReadable (run ReaderRun.step (ReaderRun.start zfo ucmp tables sampler) ops) :=
  (invariant_run pinned_step (pinned_start zfo ucmp tables sampler) hok).keepsReadable

def twoRanges : PartitionTableSet := .init (.cutAt 0 [98])

/-- A record in each partition, a reader of both, and one more record in its active index. -/
def readBoth : List ReaderOp :=
  [.write ⟨[97], [1, 1], kTypeValue, 1⟩ 0 0, .write ⟨[99], [2], kTypeValue, 2⟩ 0 0, .acquire,
    .collect 0, .write ⟨[98], [3], kTypeValue, 3⟩ 0 0]

/-- One epoch takes both partitions; the flush skips one of them and the files are purged. -/
def flushBoth : List ReaderOp :=
  readBoth ++ [.sealEpoch (.freezeBatchPartitions []), .handOffSkipped 1 [(1, 0)] ∅, .flush 1,
    .purgeSealedFiles]

def bothAtOnce : ReaderRun := ReaderRun.start { partitions := 2 } .bytewise twoRanges none

theorem keepsReadable_of_flushBoth :
    Guarded ReaderRun.step StepOk bothAtOnce flushBoth ∧
      KeepsReadable (run ReaderRun.step bothAtOnce flushBoth) := by
  have hg : Guarded ReaderRun.step StepOk bothAtOnce flushBoth := by decide +kernel
  exact ⟨hg, keepsReadable_of_guarded _ _ _ _ flushBoth hg⟩

/-- Two epochs take one partition each, and the memtable of the second one is younger than the
SuperVersion of the reader. -/
def flushOneByOne : List ReaderOp :=
  readBoth ++ [.sealEpoch (.freezeBatchPartitions []), .sealEpoch (.freezeBatchPartitions []), .flush 2]

def oneByOne : ReaderRun :=
  ReaderRun.start { partitions := 2, maxBatchPartitions := 1 } .bytewise twoRanges none

/-- The flush of the second epoch takes away a value that the reader has collected. -/
theorem keepsReadable_fails :
    (∃ r ∈ (run ReaderRun.step oneByOne flushOneByOne).readers, ∃ x ∈ r.collected,
      x.type = kTypeValue ∧ r.superVersion = [0] ∧
        (run ReaderRun.step oneByOne flushOneByOne).ctx.readValue x.loc = .error .notFound ∧
        x.loc.file ∈
          (run ReaderRun.step oneByOne flushOneByOne).ctx.sealedCache.pendingUnlink) ∧
      ¬ ∀ (zfo : ZeroFlushOptions) (ucmp : UserComparator) (tables : PartitionTableSet)
        (sampler : Option KeySampler) (ops : List ReaderOp),
        KeepsReadable (run ReaderRun.step (ReaderRun.start zfo ucmp tables sampler) ops) := by
  refine ⟨by decide +kernel, ?_⟩
  intro hall
  have hlost : ¬ KeepsReadable (run ReaderRun.step oneByOne flushOneByOne) := by decide +kernel
  exact hlost (hall _ _ _ _ flushOneByOne)

end ZeroFlush.PinnedReaders
