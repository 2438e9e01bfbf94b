import ZeroFlush.PartitionPlans
import ZeroFlush.RejectedBatches
import ZeroFlush.ReleasedIndexes

/-! # The partition ids of an epoch and its table

A job asks the table that its epoch names for the ranges of the partitions of the epoch. The
partitions come from the WAL, from generations that waited and from the directory; the table is the
one that was current when the freeze began. -/
namespace ZeroFlush.PartitionIds
open FixedWidthCodec FiniteMaps WalFormat WalFiles PartitionedWal WalLogs WalOpening UserKeys
  PartitionTables SealedFiles PartitionPlans Context SealedEpochs GuardedRuns
open ContextRuns hiding step
open EpochTables (RoutedOp)
open ReleasedIndexes (step)

/-- `PlanLocked` calls `RangeOf` for a partition that may merge, and to replace what lies under
adopted orphans. -/
def plansRangeOf (mc : ZfMaterializeCtx) (se : SealedEpoch) (t : PartitionTable) (pid : ℕ) : Bool :=
  mc.mergeEnabled se (some t) ||
    (mc.zfo.mergeIntoBaseLevel && se.hasAdoptedOrphans && !t.isHashMode &&
      !(mc.zfo.skipBatching && decide (pendingGenCount se pid < kMaxSkipGenerations)))

/-- `ExecutePartition` calls it for a partition that neither waits nor merges. -/
def executesRangeOf (plans : List PartitionPlan) (t : PartitionTable) (pid : ℕ) : Bool :=
  !t.isHashMode && (findPlan plans pid).all fun plan =>
    plan.decision != .kSkip && plan.decision != .kMergeBase

/-- The partitions of an epoch for which a job of it calls `RangeOf` on the table. -/
def rangeOfCalls (mc : ZfMaterializeCtx) (batch : List MaterializeOutput)
    (picker : TableFiles.CompactionPicker) (se : SealedEpoch) (t : PartitionTable) : List ℕ :=
  (partIds se).filter fun pid =>
    plansRangeOf mc se t pid || executesRangeOf (mc.planLocked se batch (some t) picker).1 t pid

/-- Every call of `RangeOf` is about a partition of the table. -/
def IdsInTable (ctx : ZeroFlushContext) : Prop :=
  ∀ e se t, ctx.sealedCache.epochs.lookup e = some se →
    ctx.tables.get? se.tableVersion = some t →
    ∀ mc batch picker, ∀ pid ∈ rangeOfCalls mc batch picker se t, pid < t.partitions

/-- A file that a new session finds sealed, or with records it goes on with. -/
def Leftover (env : Env) (n : ℕ) (f : FileId) : Prop :=
  f.2 < maxGen f.1 env.listFiles ∨ f.1 < n ∧ env.content f ≠ []

instance (env : Env) (n : ℕ) (f : FileId) : Decidable (Leftover env n f) :=
  inferInstanceAs (Decidable (_ ∨ _ ∧ _))

def LeftoversIn (env : Env) (n : ℕ) (tables : PartitionTableSet) : Prop :=
  ∀ f ∈ env.listFiles, Leftover env n f → f.1 < tables.current.partitions

instance (env : Env) (n : ℕ) (tables : PartitionTableSet) : Decidable (LeftoversIn env n tables) :=
  inferInstanceAs (Decidable (∀ f ∈ env.listFiles, _ → _))

/-- Routed records that stay behind when the batch is frozen. -/
def StaysBehind (wal : PartitionedWalManager) (batch : List ℕ) (p : ℕ) : Prop :=
  p ∉ batch ∧ p ≠ kRangeDelPartId ∧ 0 < wal.activeSize p

instance (wal : PartitionedWalManager) (batch : List ℕ) (p : ℕ) :
    Decidable (StaysBehind wal batch p) := inferInstanceAs (Decidable (_ ∧ _ ∧ _))

/-- The batch has no range tombstones, and a new table has the partitions that are not frozen. -/
def BatchOk (wal : PartitionedWalManager) (batch : List ℕ) (table : Option PartitionTable) : Prop :=
  kRangeDelPartId ∉ batch ∧
    ∀ t ∈ table, ∀ p ∈ wal.parts.keys, StaysBehind wal batch p → p < t.partitions

instance (wal : PartitionedWalManager) (batch : List ℕ) (table : Option PartitionTable) :
    Decidable (BatchOk wal batch table) := inferInstanceAs (Decidable (_ ∧ _))

/-- The condition on a step: records are routed into the current table, range tombstones are not
sealed, a table is not replaced by one without the partitions of what is left in the WAL, of what
is handed back and of what a new session finds. -/
def StepOk (ctx : ZeroFlushContext) : RoutedOp → Prop
  | .context (.addRecord r v _) =>
    r.type = kTypeRangeDeletion ∨ ctx.partOf r v < ctx.tables.current.partitions
  | .context (.freezeBatchPartitions l1) => BatchOk ctx.wal ctx.chooseBatch
      (ctx.nextEpoch.1.batchTable ctx.nextEpoch.2.epoch l1)
  | .context .freezeOnePartition => ctx.chooseOne ≠ some kRangeDelPartId
  | .context (.reopen tables) => LeftoversIn ctx.wal.close.env ctx.wal.partitions tables
  | .context (.crash cut tables) => LeftoversIn (ctx.wal.env.crash cut) ctx.wal.partitions tables
  | .context (.sealEpochAndSwitch _) | .context (.sync _) | .context (.releaseEpoch _)
  | .context .purgeSealedFiles => True
  | .handOffSkipped _ gens _ => ∀ f ∈ gens, f.1 < ctx.tables.current.partitions

instance decidableStepOk (ctx : ZeroFlushContext) : (op : RoutedOp) → Decidable (StepOk ctx op)
  | .context (.addRecord r v _) => inferInstanceAs
      (Decidable (r.type = kTypeRangeDeletion ∨ ctx.partOf r v < ctx.tables.current.partitions))
  | .context (.freezeBatchPartitions l1) => inferInstanceAs (Decidable (BatchOk ctx.wal
      ctx.chooseBatch (ctx.nextEpoch.1.batchTable ctx.nextEpoch.2.epoch l1)))
  | .context .freezeOnePartition => inferInstanceAs (Decidable (ctx.chooseOne ≠ some kRangeDelPartId))
  | .context (.reopen tables) => inferInstanceAs
      (Decidable (LeftoversIn ctx.wal.close.env ctx.wal.partitions tables))
  | .context (.crash cut tables) => inferInstanceAs
      (Decidable (LeftoversIn (ctx.wal.env.crash cut) ctx.wal.partitions tables))
  | .context (.sealEpochAndSwitch _) | .context (.sync _) | .context (.releaseEpoch _)
  | .context .purgeSealedFiles => .isTrue trivial
  | .handOffSkipped _ gens _ => inferInstanceAs
      (Decidable (∀ f ∈ gens, f.1 < ctx.tables.current.partitions))

/-- Generations of an epoch belong to partitions of its table, and what can still come into the next
epoch to partitions of the current one. -/
structure Bounded (ctx : ZeroFlushContext) : Prop where
  counter : ∀ e se, ctx.sealedCache.epochs.lookup e = some se → e ≤ ctx.epochCounter
  known : ∀ e se, ctx.sealedCache.epochs.lookup e = some se →
    se.tableVersion < ctx.tables.versions.length
  epochs : ∀ e se, ctx.sealedCache.epochs.lookup e = some se →
    ∀ t, ctx.tables.get? se.tableVersion = some t → ∀ f ∈ se.gens, f.1 < t.partitions
  waiting : ∀ f, f ∈ ctx.sealedCache.recoveryGens ∨ f ∈ ctx.sealedCache.skipGens →
    f.1 < ctx.tables.current.partitions
  active : ∀ p, 0 < ctx.wal.activeSize p →
    p = kRangeDelPartId ∨ p < ctx.tables.current.partitions

variable {ctx ctx' : ZeroFlushContext}

theorem Bounded.idsInTable (h : Bounded ctx) : IdsInTable ctx := by
  intro e se t hse ht mc batch picker pid hpid
  obtain ⟨hmem, -⟩ := List.mem_filter.mp hpid
  obtain ⟨f, hf, rfl⟩ := mem_partIds.mp hmem
  exact h.epochs e se hse t ht f hf

/-- A step that keeps the tables and adds no generation and no record. -/
theorem bounded_congr (h : Bounded ctx) (htables : ctx'.tables = ctx.tables)
    (hcount : ctx'.epochCounter = ctx.epochCounter)
    (hshrink : Shrinks ctx.sealedCache ctx'.sealedCache)
    (hwait : ∀ f, f ∈ ctx'.sealedCache.recoveryGens ∨ f ∈ ctx'.sealedCache.skipGens →
      f.1 < ctx.tables.current.partitions)
    (hactive : ∀ p, 0 < ctx'.wal.activeSize p →
      p = kRangeDelPartId ∨ p < ctx.tables.current.partitions) : Bounded ctx' := by
  refine ⟨?_, ?_, ?_, ?_, ?_⟩
  · intro e se hse
    obtain ⟨old, hold, -, -⟩ := hshrink e se hse
    rw [hcount]
    exact h.counter e old hold
  · intro e se hse
    obtain ⟨old, hold, hv, -⟩ := hshrink e se hse
    rw [hv, htables]
    exact h.known e old hold
  · intro e se hse t ht f hf
    obtain ⟨old, hold, hv, hg⟩ := hshrink e se hse
    rw [hv, htables] at ht
    exact h.epochs e old hold t ht f (hg hf)
  · rw [htables]
    exact hwait
  · rw [htables]
    exact hactive

section frozen

/-- A frozen partition is empty, the others keep what they have. -/
theorem activeSize_freeze_le (m : PartitionedWalManager) (p i : ℕ) :
    (m.freeze p).2.activeSize i = if i = p then 0 else m.activeSize i := by
  split
  next h =>
    subst h
    cases hp : m.parts.lookup i with
    | none => rw [freeze_of_lookup_none hp, PartitionedWalManager.activeSize, hp]
    | some q =>
      obtain ⟨q', hparts, -, hzero, -⟩ := freeze_parts m hp
      rw [RejectedBatches.activeSize_insert hparts, if_pos rfl, hzero]
  next h => exact activeSize_freeze m h

theorem sealedBytes_freeze (m : PartitionedWalManager) (p : ℕ) :
    ((m.freeze p).1.getD ⟨0, 0, (p, 0)⟩).sealedBytes = m.activeSize p := by
  cases hp : m.parts.lookup p with
  | none =>
    rw [freeze_of_lookup_none hp]
    simp [PartitionedWalManager.activeSize, hp]
  | some q =>
    obtain ⟨-, -, -, -, hres⟩ := freeze_parts m hp
    rw [hres]
    simp [PartitionedWalManager.activeSize, hp]

theorem activeSize_sealLoop (ps : List ℕ) (m : PartitionedWalManager) (se : SealedEpoch) (i : ℕ) :
    (ps.foldl sealWal (m, se)).1.activeSize i = if i ∈ ps then 0 else m.activeSize i := by
  induction ps generalizing m se with
  | nil => rfl
  | cons p ps ih =>
    rw [List.foldl_cons]
    have hrest := ih (m.freeze p).2 (sealWal (m, se) p).2
    have hpair : sealWal (m, se) p = ((m.freeze p).2, (sealWal (m, se) p).2) := rfl
    rw [hpair, hrest, activeSize_freeze_le]
    by_cases hi : i = p
    · simp [hi]
    · simp [hi]

/-- Only partitions with bytes are sealed. -/
theorem gens_sealLoop {ps : List ℕ} {m : PartitionedWalManager} {se : SealedEpoch} {f : FileId}
    (hf : f ∈ (ps.foldl sealWal (m, se)).2.gens) :
    f ∈ se.gens ∨ f.1 ∈ ps ∧ 0 < m.activeSize f.1 := by
  induction ps generalizing m se with
  | nil => exact .inl hf
  | cons p ps ih =>
    rw [List.foldl_cons] at hf
    obtain hold | ⟨hmem, hpos⟩ := @ih (m.freeze p).2 (sealWal (m, se) p).2 hf
    · obtain hold | ⟨rfl, hpos⟩ := (registerGen_spec se p _).2.2 f hold
      · exact .inl hold
      · rw [sealedBytes_freeze] at hpos
        exact .inr ⟨List.mem_cons_self, hpos⟩
    · rw [activeSize_freeze_le] at hpos
      split at hpos
      · exact absurd hpos (Nat.lt_irrefl 0)
      · exact .inr ⟨List.mem_cons_of_mem _ hmem, hpos⟩

theorem epoch_sealLoop (ps : List ℕ) (m : PartitionedWalManager) (se : SealedEpoch) :
    (ps.foldl sealWal (m, se)).2.epoch = se.epoch ∧
      (ps.foldl sealWal (m, se)).2.tableVersion = se.tableVersion := by
  induction ps generalizing m se with
  | nil => exact ⟨rfl, rfl⟩
  | cons p ps ih =>
    obtain ⟨he, hv, -⟩ := registerGen_spec se p ((m.freeze p).1.getD ⟨0, 0, (p, 0)⟩)
    obtain ⟨he', hv'⟩ := ih (m.freeze p).2 (sealWal (m, se) p).2
    exact ⟨he'.trans he, hv'.trans hv⟩

end frozen

/-- The tables an epoch can name are kept when another one is installed. -/
theorem get?_installTable {t : Option PartitionTable} {v : ℕ}
    (hv : v < ctx.tables.versions.length) :
    (ctx.installTable t).tables.get? v = ctx.tables.get? v := by
  cases t with
  | none => rfl
  | some t => exact List.getElem?_append_left hv

theorem versions_installTable (t : Option PartitionTable) :
    ctx.tables.versions.length ≤ (ctx.installTable t).tables.versions.length := by
  cases t with
  | none => exact le_rfl
  | some t =>
    show _ ≤ (ctx.tables.versions ++ [t]).length
    rw [List.length_append]
    exact Nat.le_add_right _ _

theorem current_installTable (t : Option PartitionTable) :
    (ctx.installTable t).tables.current = t.getD ctx.tables.current := by
  cases t with
  | none => rfl
  | some t =>
    have hget := (ctx.tables.installNewVersion t).get?_currentVersion
    have hlast : (ctx.tables.installNewVersion t).get? (ctx.tables.installNewVersion t).currentVersion =
        some t := by
      simp [PartitionTableSet.get?, PartitionTableSet.installNewVersion]
    exact Option.some.inj (hget.symm.trans hlast)

/-- A freeze of partitions of the current table. -/
theorem bounded_sealedBy (h : Bounded ctx) {ps : List ℕ} {fs : List (ℕ × ℕ)}
    {t : Option PartitionTable} (hby : SealedBy ctx ctx' ps fs t)
    (hps : ∀ p ∈ ps, 0 < ctx.wal.activeSize p → p < ctx.tables.current.partitions)
    (hrest : ∀ p ∉ ps, 0 < ctx.wal.activeSize p →
      p = kRangeDelPartId ∨ p < (t.getD ctx.tables.current).partitions) : Bounded ctx' := by
  obtain ⟨hepoch, hversion⟩ := epoch_sealLoop ps ctx.wal ctx.nextEpoch.2
  have hnew : ctx.sealedCache.epochs.lookup
      (ps.foldl sealWal (ctx.wal, ctx.nextEpoch.2)).2.epoch = none := by
    by_contra hne
    obtain ⟨se, hse⟩ := Option.ne_none_iff_exists'.mp hne
    have hle := h.counter _ se hse
    rw [hepoch] at hle
    exact absurd hle (Nat.not_le.mpr (Nat.lt_succ_self _))
  obtain ⟨merged, hepochs, hmver, hmgens, hrec, hskip⟩ := addEpoch_spec hnew
  rw [← hby.cache_eq] at hepochs hrec hskip
  rw [hepoch] at hepochs
  have hmver' : merged.tableVersion = ctx.tables.currentVersion := hmver.trans hversion
  have hmerged : ∀ f ∈ merged.gens, f.1 < ctx.tables.current.partitions := by
    intro f hf
    obtain hown | hwaiting := (hmgens f).mp hf
    · obtain hnil | ⟨hmem, hpos⟩ := gens_sealLoop hown
      · exact absurd hnil List.not_mem_nil
      · exact hps f.1 hmem hpos
    · exact h.waiting f hwaiting
  have hlookup : ∀ e se, ctx'.sealedCache.epochs.lookup e = some se →
      (e = ctx.epochCounter + 1 ∧ se = merged) ∨ ctx.sealedCache.epochs.lookup e = some se := by
    intro e se hse
    rw [hepochs, lookup_insert_eq] at hse
    split at hse
    next he => exact .inl ⟨he, (Option.some.inj hse).symm⟩
    next => exact .inr hse
  refine ⟨?_, ?_, ?_, ?_, ?_⟩
  · intro e se hse
    rw [hby.counter_eq]
    obtain ⟨rfl, -⟩ | hold := hlookup e se hse
    · exact le_rfl
    · exact (h.counter e se hold).trans (Nat.le_succ _)
  · intro e se hse
    rw [hby.tables_eq]
    refine lt_of_lt_of_le ?_ (versions_installTable t)
    obtain ⟨-, rfl⟩ | hold := hlookup e se hse
    · rw [hmver']
      exact ctx.tables.currentVersion_lt
    · exact h.known e se hold
  · intro e se hse t' ht' f hf
    rw [hby.tables_eq] at ht'
    obtain ⟨-, rfl⟩ | hold := hlookup e se hse
    · rw [hmver', get?_installTable ctx.tables.currentVersion_lt,
        ctx.tables.get?_currentVersion] at ht'
      cases ht'
      exact hmerged f hf
    · rw [get?_installTable (h.known e se hold)] at ht'
      exact h.epochs e se hold t' ht' f hf
  · intro f hf
    rw [hrec, hskip] at hf
    exact absurd hf (by simp)
  · intro p hpos
    have hsize : ctx'.wal.activeSize p = if p ∈ ps then 0 else ctx.wal.activeSize p := by
      rw [hby.wal_eq]
      exact activeSize_sealLoop ps _ _ p
    rw [hsize] at hpos
    split at hpos
    · exact absurd hpos (Nat.lt_irrefl 0)
    next hmem =>
      rw [hby.tables_eq, current_installTable]
      exact hrest p hmem hpos

theorem bounded_clearOverTargetFlag (h : Bounded ctx) :
    Bounded { ctx with wal := ctx.wal.clearOverTargetFlag } :=
  bounded_congr h rfl rfl (Shrinks.refl _) h.waiting h.active

theorem mem_keys_of_pos {m : PartitionedWalManager} {p : ℕ} (h : 0 < m.activeSize p) :
    p ∈ m.parts.keys := by
  rw [← AList.mem_keys, ← AList.lookup_isSome]
  cases hp : m.parts.lookup p with
  | none => simp [PartitionedWalManager.activeSize, hp] at h
  | some q => rfl

theorem bounded_freezeBatch (h : Bounded ctx) {l1 : List L1File}
    (hok : BatchOk ctx.wal ctx.chooseBatch (ctx.nextEpoch.1.batchTable ctx.nextEpoch.2.epoch l1)) :
    Bounded (ctx.freezeBatchPartitions l1) := by
  cases hb : ctx.chooseBatch with
  | nil =>
    rw [ZeroFlushContext.freezeBatchPartitions, hb]
    exact bounded_clearOverTargetFlag h
  | cons q qs =>
    have hby := sealedBy_freezeBatch l1 (by rw [hb]; exact List.cons_ne_nil q qs)
    obtain ⟨hrange, htable⟩ := hok
    refine bounded_sealedBy h hby ?_ ?_
    · intro p hp hpos
      refine (h.active p hpos).resolve_left ?_
      rintro rfl
      exact hrange hp
    · intro p hp hpos
      by_cases hrd : p = kRangeDelPartId
      · exact .inl hrd
      · right
        cases ht : ctx.nextEpoch.1.batchTable ctx.nextEpoch.2.epoch l1 with
        | none => exact (h.active p hpos).resolve_left hrd
        | some t => exact htable t ht p (mem_keys_of_pos hpos) ⟨hp, hrd, hpos⟩

theorem bounded_freezeOne (h : Bounded ctx) (hok : ctx.chooseOne ≠ some kRangeDelPartId) :
    Bounded ctx.freezeOnePartition := by
  cases hc : ctx.chooseOne with
  | none =>
    rw [ZeroFlushContext.freezeOnePartition, hc]
    exact bounded_clearOverTargetFlag h
  | some target =>
    obtain ⟨gen, hby⟩ := sealedBy_freezeOne hc
    refine bounded_sealedBy h hby ?_ fun p _ hpos => h.active p hpos
    intro p hp hpos
    cases List.mem_singleton.mp hp
    refine (h.active _ hpos).resolve_left ?_
    rintro rfl
    exact hok hc

/-- Here the partitions that are frozen are those of the table. -/
theorem bounded_sealEpoch (h : Bounded ctx) (l1 : List L1File) :
    Bounded (ctx.sealEpochAndSwitch l1) := by
  refine bounded_sealedBy h (sealedBy_sealEpoch ctx l1) ?_ ?_
  · intro p hp _
    exact List.mem_range.mp hp
  · intro p hp hpos
    refine .inl ((h.active p hpos).resolve_right ?_)
    intro hlt
    exact hp (List.mem_range.mpr hlt)

theorem bounded_addRecord (h : Bounded ctx) {r : WalRecord} {v : ℕ} (rnd : ℕ)
    (hok : r.type = kTypeRangeDeletion ∨ ctx.partOf r v < ctx.tables.current.partitions) :
    Bounded (ctx.addRecord r v rnd).2 := by
  rw [ZeroFlushContext.addRecord]
  cases ha : ctx.wal.append (ctx.partOf r v) r with
  | mk res wal =>
    cases res with
    | error e =>
      obtain rfl := append_error ha
      exact bounded_congr h rfl rfl (Shrinks.refl _) h.waiting h.active
    | ok ref =>
      refine bounded_congr h rfl rfl (Shrinks.refl _) h.waiting ?_
      intro p hpos
      rw [RejectedBatches.activeSize_append ha] at hpos
      by_cases hp : p = ctx.partOf r v
      · obtain hrd | hlt := hok
        · left
          rw [hp, ZeroFlushContext.partOf, if_pos hrd]
        · exact .inr (hp ▸ hlt)
      · rw [if_neg hp, Nat.add_zero] at hpos
        exact h.active p hpos

section sessions
variable {env : Env} {n target : ℕ} {tables : PartitionTableSet}

theorem exists_of_content {f : FileId} (h : env.content f ≠ []) : f ∈ env.listFiles := by
  apply Env.mem_listFiles.mpr
  by_contra hno
  exact h (Env.content_of_not_exists (Bool.eq_false_of_not_eq_true hno))

/-- The active bytes of a new session are those of the newest file of a partition. -/
theorem activeSize_openCreate {p : ℕ}
    (h : 0 < (PartitionedWalManager.create env n target).open_.activeSize p) :
    p < n ∧ env.content (p, maxGen p env.listFiles) ≠ [] := by
  rw [PartitionedWalManager.activeSize, lookup_openCreate] at h
  split at h
  · exact absurd h (Nat.lt_irrefl 0)
  next q hq =>
    split at hq
    next hp =>
      cases hq
      refine ⟨hp, ?_⟩
      rintro hnil
      rw [PartitionedWalManager.openPartition] at h
      split at h
      · dsimp only at h
        rw [hnil] at h
        exact absurd h (Nat.lt_irrefl 0)
      · exact absurd h (Nat.lt_irrefl 0)
    next => cases hq

/-- A new session whose table has the partitions of everything that is left in the directory. -/
theorem bounded_recover (hok : LeftoversIn env n tables)
    (hwal : ctx.wal = (PartitionedWalManager.create env n target).open_)
    (htables : ctx.tables = tables) (hepochs : ctx.sealedCache.epochs = ∅)
    (hrec : ctx.sealedCache.recoveryGens = []) (hskip : ctx.sealedCache.skipGens = []) :
    Bounded ctx.recover := by
  obtain ⟨htables', -, hepochs', hrec', hskip'⟩ := recover_spec ctx
  have hnone : ∀ e se, ctx.recover.sealedCache.epochs.lookup e ≠ some se := by
    intro e se hse
    rw [hepochs', hepochs] at hse
    cases hse
  have henv : ctx.wal.env = env := by
    rw [hwal]
    rfl
  refine ⟨fun e se hse => absurd hse (hnone e se), fun e se hse => absurd hse (hnone e se),
    fun e se hse => absurd hse (hnone e se), ?_, ?_⟩
  · intro f hf
    rw [hskip', hskip] at hf
    have hf := (hrec' f).mp (hf.resolve_right List.not_mem_nil)
    rw [hrec] at hf
    obtain ⟨p, -, hmem⟩ := List.mem_flatMap.mp (hf.resolve_left List.not_mem_nil)
    obtain ⟨hfile, hdec⟩ := List.mem_filter.mp hmem
    obtain ⟨rfl, hbelow⟩ := of_decide_eq_true hdec
    rw [henv] at hfile hbelow
    rw [htables', htables]
    exact hok f hfile (.inl hbelow)
  · intro p hpos
    rw [wal_recover, hwal] at hpos
    obtain ⟨hp, hne⟩ := activeSize_openCreate hpos
    rw [htables', htables]
    exact .inr (hok _ (exists_of_content hne) (.inr ⟨hp, hne⟩))

end sessions

theorem bounded_step (ctx : ZeroFlushContext) (op : RoutedOp) (hok : StepOk ctx op)
    (h : Bounded ctx) : Bounded (step ctx op) := by
  cases op with
  | handOffSkipped epoch gens partBytes =>
    obtain ⟨hshrink, hrec, hskip⟩ := handOff_spec ctx.sealedCache epoch gens partBytes
    refine bounded_congr h rfl rfl hshrink ?_ h.active
    intro f hf
    obtain hf | hf := hf
    · exact h.waiting f (.inl (hrec ▸ hf))
    · obtain hf | hf := mem_emplaceAll.mp (hskip ▸ hf)
      · exact h.waiting f (.inr hf)
      · exact hok f hf
  | context op =>
    cases op with
    | addRecord r v rnd => exact bounded_addRecord h rnd hok
    | sync part =>
      refine bounded_congr h rfl rfl (Shrinks.refl _) h.waiting ?_
      intro p hpos
      exact h.active p (RejectedBatches.activeSize_sync ctx.wal part p ▸ hpos)
    | freezeBatchPartitions l1 => exact bounded_freezeBatch h hok
    | freezeOnePartition => exact bounded_freezeOne h hok
    | sealEpochAndSwitch l1 => exact bounded_sealEpoch h l1
    | releaseEpoch epoch =>
      obtain ⟨hrec, hskip⟩ := waiting_releaseEpoch ctx.sealedCache epoch
      refine bounded_congr h rfl rfl (shrinks_releaseEpoch ctx.sealedCache epoch) ?_ h.active
      intro f hf
      apply h.waiting f
      rw [← hrec, ← hskip]
      exact hf
    | purgeSealedFiles => exact bounded_congr h rfl rfl (Shrinks.refl _) h.waiting h.active
    | reopen tables => exact bounded_recover hok rfl rfl rfl rfl rfl
    | crash cut tables => exact bounded_recover hok rfl rfl rfl rfl rfl

theorem bounded_start (zfo : ZeroFlushOptions) (ucmp : UserComparator) (tables : PartitionTableSet)
    (sampler : Option KeySampler) : Bounded (ContextRuns.start zfo ucmp tables sampler) := by
  refine @bounded_recover _ Env.empty _ _ tables ?_ rfl rfl rfl rfl rfl
  intro f hf
  rw [Env.mem_listFiles, Env.exists?_empty] at hf
  cases hf

/-- In a run whose steps all meet the condition `RangeOf` is asked for partitions of the table only. -/
theorem idsInTable_of_guarded (zfo : ZeroFlushOptions) (ucmp : UserComparator)
    (tables : PartitionTableSet) (sampler : Option KeySampler) (ops : List RoutedOp)
    (hok : Guarded step StepOk (ContextRuns.start zfo ucmp tables sampler) ops) :
    IdsInTable (run step (ContextRuns.start zfo ucmp tables sampler) ops) :=
  (invariant_run bounded_step (bounded_start zfo ucmp tables sampler) hok).idsInTable

/-- Two ranges, cut at the key "b". -/
def cutAtB : PartitionTableSet := .init (.cutAt 0 [98])

def staticStart : ZeroFlushContext :=
  ContextRuns.start { partitions := 2, routingMode := .kStatic } .bytewise cutAtB none

/-- Two partitions are sealed, one generation is handed back and adopted, and the rest is found by a
new session. -/
def skipAndReopen : List RoutedOp :=
  [.context (.addRecord ⟨[97], [1], kTypeValue, 1⟩ 0 0),
    .context (.addRecord ⟨[99], [2], kTypeValue, 2⟩ 0 0), .context (.freezeBatchPartitions []),
    .handOffSkipped 1 [(1, 0)] ∅, .context (.addRecord ⟨[97], [3], kTypeValue, 3⟩ 0 0),
    .context (.freezeBatchPartitions []), .context (.reopen cutAtB),
    .context (.addRecord ⟨[99], [4], kTypeValue, 4⟩ 0 0), .context (.sealEpochAndSwitch [])]

private theorem guarded_skipAndReopen : Guarded step StepOk staticStart skipAndReopen := by
  decide +kernel

theorem idsInTable_of_skipAndReopen :
    Guarded step StepOk staticStart skipAndReopen ∧
      IdsInTable (run step staticStart skipAndReopen) :=
  ⟨guarded_skipAndReopen, idsInTable_of_guarded _ _ _ _ skipAndReopen guarded_skipAndReopen⟩

/-- A range tombstone is sealed with the default options. -/
def deleteRange : List RoutedOp :=
  [.context (.addRecord ⟨[97], [122], kTypeRangeDeletion, 1⟩ 0 0),
    .context (.freezeBatchPartitions [])]

def defaultMergeCtx : ZfMaterializeCtx where
  zfo := { ratioBelow := fun _ _ => false }
  ucmp := .bytewise
  base := ⟨7, 1, fun _ => [], Nat.one_pos, by decide⟩

def deleteRangeEpoch : Option (SealedEpoch × PartitionTable) :=
  ((run step staticStart deleteRange).sealedCache.epochs.lookup 1).bind fun se =>
    ((run step staticStart deleteRange).tables.get? se.tableVersion).map fun t => (se, t)

/-- `RangeOf` is called with the partition of range tombstones on a table of two partitions. -/
theorem idsInTable_fails :
    deleteRangeEpoch.map (fun x => (rangeOfCalls defaultMergeCtx [] {} x.1 x.2, x.2.partitions)) =
        some ([kRangeDelPartId], 2) ∧
      ¬ IdsInTable (run step staticStart deleteRange) := by
  have hcalls : deleteRangeEpoch.map
      (fun x => (rangeOfCalls defaultMergeCtx [] {} x.1 x.2, x.2.partitions)) =
        some ([kRangeDelPartId], 2) := by decide +kernel
  refine ⟨hcalls, fun hids => ?_⟩
  obtain ⟨⟨se, t⟩, hepoch, heq⟩ := Option.map_eq_some_iff.mp hcalls
  obtain ⟨hpids, hparts⟩ := Prod.mk.inj heq
  obtain ⟨se', hse, htable⟩ := Option.bind_eq_some_iff.mp hepoch
  obtain ⟨t', ht, hpair⟩ := Option.map_eq_some_iff.mp htable
  cases hpair
  have hlt := hids 1 se t hse ht defaultMergeCtx [] {} kRangeDelPartId
    (by rw [hpids]; exact List.mem_cons_self)
  rw [hparts] at hlt
  exact absurd hlt (by decide)

end ZeroFlush.PartitionIds
