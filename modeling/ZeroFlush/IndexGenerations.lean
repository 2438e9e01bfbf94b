import ZeroFlush.ContextRuns
import ZeroFlush.GuardedRuns

/-! # WAL generations and index generations

An entry is dropped when no index has the generation of its WAL record. It is kept as long as
every active index has the active generation of the WAL. -/
namespace ZeroFlush.IndexGenerations
open FixedWidthCodec FiniteMaps WalFormat WalFiles PartitionedWal WalOpening UserKeys
  PartitionIndexes IndexChains PartitionTables SealedFiles SequentialScan Context ContextRuns
  GuardedRuns

variable {ctx : ZeroFlushContext}

/-- Wherever a record can be appended, the active index has the active generation. -/
def GensAgree (ctx : ZeroFlushContext) : Prop :=
  ∀ i g, activeGen? ctx.indexSet i = some g → Appendable ctx.wal i → g = ctx.wal.activeGen i

/-- The sequence number is not among those in the indexes of the record's partition. -/
def FreshSeq (ctx : ZeroFlushContext) (r : WalRecord) (tableVersion : ℕ) : Prop :=
  ∀ idx ∈ ctx.indexSet.chain (ctx.partOf r tableVersion), ∀ x ∈ idx.entries,
    x.seq ≠ r.seq.toNat % 2 ^ 56

instance (ctx : ZeroFlushContext) (r : WalRecord) (v : ℕ) : Decidable (FreshSeq ctx r v) :=
  inferInstanceAs (Decidable (∀ idx ∈ ctx.indexSet.chain (ctx.partOf r v), ∀ x ∈ idx.entries,
    x.seq ≠ r.seq.toNat % 2 ^ 56))

/-- The condition on a step.

`FreezeOnePartition` may not find anything to freeze. `SealEpochAndSwitch` is called only while
every partition of the table with an active index has bytes to seal. A directory is opened only
while the range-delete partition has no file beyond generation 0. -/
def StepOk (ctx : ZeroFlushContext) : ContextOp → Prop
  | .freezeOnePartition => ctx.chooseOne = none
  | .sealEpochAndSwitch _ =>
    ∀ p ∈ ctx.tables.current.partIds, ctx.wal.hasPartition p = true →
      (activeGen? ctx.indexSet p).isSome = true → 0 < ctx.wal.activeSize p
  | .reopen _ => ∀ f ∈ ctx.wal.env.listFiles, f.1 = kRangeDelPartId → f.2 = 0
  | .crash _ _ => ∀ f ∈ ctx.wal.env.listFiles, f.1 = kRangeDelPartId → f.2 = 0
  | _ => True

instance (ctx : ZeroFlushContext) : ∀ op, Decidable (StepOk ctx op)
  | .addRecord _ _ _ | .sync _ | .freezeBatchPartitions _ | .releaseEpoch _ | .purgeSealedFiles =>
    inferInstanceAs (Decidable True)
  | .freezeOnePartition => inferInstanceAs (Decidable (ctx.chooseOne = none))
  | .sealEpochAndSwitch _ => inferInstanceAs (Decidable
      (∀ p ∈ ctx.tables.current.partIds, ctx.wal.hasPartition p = true →
        (activeGen? ctx.indexSet p).isSome = true → 0 < ctx.wal.activeSize p))
  | .reopen _ | .crash _ _ => inferInstanceAs (Decidable
      (∀ f ∈ ctx.wal.env.listFiles, f.1 = kRangeDelPartId → f.2 = 0))

theorem gensAgree_addRecord (h : GensAgree ctx) (r : WalRecord) (v rnd : ℕ) :
    GensAgree (ctx.addRecord r v rnd).2 := by
  rw [ZeroFlushContext.addRecord]
  cases ha : ctx.wal.append (ctx.partOf r v) r with
  | mk res wal =>
    cases res with
    | error e =>
      rw [append_error ha]
      exact h
    | ok ref =>
      obtain ⟨-, hgen, -, hgens, happs⟩ := append_ok ha
      intro i g hg hi
      replace hg : activeGen? (ctx.indexSet.insert ctx.ucmp _ ref.gen _) i = some g := hg
      rw [activeGen?_insert] at hg
      show g = wal.activeGen i
      rw [hgens i]
      split at hg
      next hc =>
        cases hg
        rw [hc.1]
        exact hgen
      next => exact h i g hg ((happs i).mp hi)

/-- An acknowledged record is in the index of its generation. -/
theorem holds_addRecord (h : GensAgree ctx) {r : WalRecord} {v rnd : ℕ} {ref : WalRecordRef}
    (ha : (ctx.addRecord r v rnd).1 = .ok ref) (hfresh : FreshSeq ctx r v) :
    Holds (ctx.addRecord r v rnd).2.indexSet ref.partId ref.gen (indexEntry r ref) := by
  rw [ZeroFlushContext.addRecord] at ha ⊢
  cases hw : ctx.wal.append (ctx.partOf r v) r with
  | mk res wal =>
    rw [hw] at ha
    cases res with
    | error e => cases ha
    | ok ref' =>
      cases ha
      obtain ⟨hpart, hgen, happ, -, -⟩ := append_ok hw
      rw [hpart]
      apply holds_insert
      · intro g hg
        rw [hgen]
        exact h _ g hg happ
      · intro idx hidx x hx he
        -- equal entries would have equal sequence numbers
        have hseq := (Ordering.then_eq_eq.mp he).2
        rw [Nat.compare_eq_eq] at hseq
        exact hfresh idx hidx x hx hseq

theorem gensAgree_freezeBatchStep (h : GensAgree ctx) (se : SealedEpoch) {p : ℕ}
    (hp : ctx.wal.hasPartition p = true) :
    GensAgree (ZeroFlushContext.freezeBatchStep (ctx, se) p).1 := by
  obtain ⟨hold, -⟩ := freezeWal_result ctx hp
  intro i g hg hi
  replace hg : activeGen? (ctx.indexSet.freeze p _) i = some g := hg
  replace hi : Appendable (ctx.wal.freeze p).2 i := hi
  rw [activeGen?_freeze, hold] at hg
  show g = (ctx.wal.freeze p).2.activeGen i
  rw [activeGen_freeze]
  simp only [hp, and_true]
  split
  next hip =>
    rw [if_pos hip] at hg
    exact (Option.some.inj hg).symm
  next hip =>
    rw [if_neg hip] at hg
    rw [Appendable, hasPartition_freeze] at hi
    exact h i g hg hi

theorem hasPartition_freezeBatchStep (se : SealedEpoch) (p i : ℕ) :
    (ZeroFlushContext.freezeBatchStep (ctx, se) p).1.wal.hasPartition i = ctx.wal.hasPartition i :=
  hasPartition_freeze ctx.wal p i

theorem gensAgree_freezeBatchLoop (batch : List ℕ) (h : GensAgree ctx) (se : SealedEpoch)
    (hb : ∀ p ∈ batch, ctx.wal.hasPartition p = true) :
    GensAgree (batch.foldl ZeroFlushContext.freezeBatchStep (ctx, se)).1 := by
  induction batch generalizing ctx se with
  | nil => exact h
  | cons p batch ih =>
    have hp := hb p List.mem_cons_self
    apply ih (gensAgree_freezeBatchStep h se hp)
    intro q hq
    rw [hasPartition_freezeBatchStep]
    exact hb q (List.mem_cons_of_mem _ hq)

theorem mem_fillBatch {kMax target : ℕ} {rest : List (ℕ × ℕ)} {batch : List ℕ} {bytes p : ℕ}
    (h : p ∈ ZeroFlushContext.fillBatch kMax target rest batch bytes) :
    p ∈ batch ∨ p ∈ rest.map Prod.snd := by
  induction rest generalizing batch bytes with
  | nil => exact .inl h
  | cons a rest ih =>
    rw [ZeroFlushContext.fillBatch] at h
    split at h
    · exact .inl h
    · obtain hb | hr := ih h
      · obtain hb | hb := List.mem_append.mp hb
        · exact .inl hb
        · exact .inr (by simp_all)
      · exact .inr (List.mem_cons_of_mem _ hr)

theorem hasPartition_of_mem_chooseBatch {p : ℕ} (h : p ∈ ctx.chooseBatch) :
    ctx.wal.hasPartition p = true := by
  rw [← mem_allPartitionIds]
  rw [ZeroFlushContext.chooseBatch] at h
  dsimp only at h
  have hover : p ∈ ctx.overTarget → p ∈ allPartitionIds ctx.wal := fun hp => List.mem_of_mem_filter hp
  split at h
  · obtain hb | hr := mem_fillBatch h
    · exact hover hb
    · obtain ⟨a, ha, rfl⟩ := List.mem_map.mp hr
      rw [List.mem_insertionSort] at ha
      obtain ⟨q, hq, rfl⟩ := List.mem_map.mp ha
      exact List.mem_of_mem_filter hq
  · exact hover h

theorem gensAgree_installTable (h : GensAgree ctx) (t : Option PartitionTable) :
    GensAgree (ctx.installTable t) := by
  cases t <;> exact h

theorem gensAgree_freezeBatchPartitions (h : GensAgree ctx) (l1 : List L1File) :
    GensAgree (ctx.freezeBatchPartitions l1) := by
  rw [ZeroFlushContext.freezeBatchPartitions]
  cases hb : ctx.chooseBatch with
  | nil => exact h
  | cons p rest =>
    have hwal : ∀ t, (ctx.nextEpoch.1.installTable t).wal = ctx.wal := by
      intro t
      cases t <;> rfl
    have hstart : GensAgree ctx.nextEpoch.1 := h
    apply gensAgree_freezeBatchLoop (p :: rest) (gensAgree_installTable hstart _)
    intro q hq
    rw [hwal]
    exact hasPartition_of_mem_chooseBatch (hb ▸ hq)

theorem mem_registerGen {se : SealedEpoch} {p : ℕ} {f : FileId} :
    f ∈ (ZeroFlushContext.registerGen se p (ctx.freezeWal p).1).gens ↔
      f ∈ se.gens ∨ f = (p, ctx.wal.activeGen p) ∧ ctx.wal.hasPartition p = true ∧
        0 < ctx.wal.activeSize p := by
  rw [ZeroFlushContext.registerGen]
  cases hp : ctx.wal.hasPartition p with
  | true =>
    obtain ⟨hold, hbytes⟩ := freezeWal_result ctx hp
    rw [hold, hbytes]
    split
    next h => simp [h]
    next h => simp [h]
  | false =>
    have hnone : ctx.wal.parts.lookup p = none := by
      simpa [PartitionedWalManager.hasPartition] using hp
    simp [ZeroFlushContext.freezeWal, WalLogs.freeze_of_lookup_none hnone]

/-- The loop of `SealEpochAndSwitch` freezes every partition once and registers those with bytes. -/
theorem sealLoop_spec {ids : List ℕ} (hnd : ids.Nodup) (ctx : ZeroFlushContext) (se : SealedEpoch) :
    let done := ids.foldl ZeroFlushContext.sealStep (ctx, se)
    done.1.indexSet = ctx.indexSet ∧ (∀ i, done.1.wal.hasPartition i = ctx.wal.hasPartition i) ∧
      (∀ i, done.1.wal.activeGen i =
        if i ∈ ids ∧ ctx.wal.hasPartition i = true then (ctx.wal.activeGen i + 1) % 2 ^ 32
        else ctx.wal.activeGen i) ∧
      ∀ f : FileId, f ∈ done.2.gens ↔ f ∈ se.gens ∨
        f.1 ∈ ids ∧ ctx.wal.hasPartition f.1 = true ∧ f.2 = ctx.wal.activeGen f.1 ∧
          0 < ctx.wal.activeSize f.1 := by
  induction ids generalizing ctx se with
  | nil => simp
  | cons p ids ih =>
    obtain ⟨hp, hnd⟩ := List.nodup_cons.mp hnd
    obtain ⟨hidx, hhas, hgen, hgens⟩ := ih hnd (ctx.freezeWal p).2
      (ZeroFlushContext.registerGen se p (ctx.freezeWal p).1)
    have hhas' : ∀ i, (ctx.freezeWal p).2.wal.hasPartition i = ctx.wal.hasPartition i :=
      hasPartition_freeze ctx.wal p
    have hgen' := activeGen_freeze ctx.wal p
    refine ⟨hidx, fun i => (hhas i).trans (hhas' i), ?_, ?_⟩
    · intro i
      refine (hgen i).trans ?_
      rw [hhas']
      show (if _ then (((ctx.wal.freeze p).2.activeGen i) + 1) % 2 ^ 32
        else (ctx.wal.freeze p).2.activeGen i) = _
      rw [hgen' i]
      cases eq_or_ne i p with
      | inl hi =>
        subst hi
        simp [hp]
      | inr hi => simp [hi]
    · intro f
      refine (hgens f).trans ?_
      rw [hhas', mem_registerGen]
      show (_ ∨ f.1 ∈ ids ∧ _ ∧ f.2 = (ctx.wal.freeze p).2.activeGen f.1 ∧
        0 < (ctx.wal.freeze p).2.activeSize f.1) ↔ _
      rw [hgen' f.1]
      cases eq_or_ne f.1 p with
      | inl hi => simp [hi, hp, Prod.ext_iff, and_left_comm]
      | inr hi => simp [hi, activeSize_freeze ctx.wal hi, Prod.ext_iff]

theorem freezeIndexes_spec (gens : List FileId) (ctx : ZeroFlushContext) :
    (ctx.freezeIndexes gens).wal = ctx.wal ∧
      ∀ i g, activeGen? (ctx.freezeIndexes gens).indexSet i = some g →
        (∃ f ∈ gens, f.1 = i ∧ g = (f.2 + 1) % 2 ^ 32) ∨
          (∀ f ∈ gens, f.1 ≠ i) ∧ activeGen? ctx.indexSet i = some g := by
  induction gens generalizing ctx with
  | nil => exact ⟨rfl, fun i g h => .inr ⟨by simp, h⟩⟩
  | cons f gens ih =>
    obtain ⟨hwal, hgen⟩ := ih (ctx.freezeIndex f.1 ((f.2 + 1) % 2 ^ 32))
    refine ⟨hwal, ?_⟩
    intro i g hg
    obtain ⟨f', hf', hi, hg'⟩ | ⟨hnone, hold⟩ := hgen i g hg
    · exact .inl ⟨f', List.mem_cons_of_mem _ hf', hi, hg'⟩
    · replace hold : activeGen? (ctx.indexSet.freeze f.1 ((f.2 + 1) % 2 ^ 32)) i = some g := hold
      rw [activeGen?_freeze] at hold
      split at hold
      next hi => exact .inl ⟨f, List.mem_cons_self, hi.symm, (Option.some.inj hold).symm⟩
      next hi =>
        refine .inr ⟨?_, hold⟩
        intro f' hf'
        cases List.mem_cons.mp hf' with
        | inl he => exact he ▸ fun hc => hi hc.symm
        | inr hm => exact hnone f' hm

theorem gensAgree_sealEpochAndSwitch (h : GensAgree ctx) (l1 : List L1File)
    (hok : StepOk ctx (.sealEpochAndSwitch l1)) : GensAgree (ctx.sealEpochAndSwitch l1) := by
  have hnd : ctx.tables.current.partIds.Nodup := List.nodup_range
  obtain ⟨hidx, hhas, hgen, hgens⟩ := sealLoop_spec hnd ctx.nextEpoch.1 ctx.nextEpoch.2
  rw [ZeroFlushContext.sealEpochAndSwitch]
  refine gensAgree_installTable ?_ _
  obtain ⟨hwal, hfrozen⟩ := freezeIndexes_spec
    (ctx.tables.current.partIds.foldl ZeroFlushContext.sealStep ctx.nextEpoch).2.gens
    (ctx.tables.current.partIds.foldl ZeroFlushContext.sealStep ctx.nextEpoch).1
  intro i g hg hi
  rw [hwal] at hi ⊢
  rw [Appendable, hhas i] at hi
  refine Eq.trans ?_ (hgen i).symm
  obtain ⟨f, hf, rfl, rfl⟩ | ⟨hnone, hold⟩ := hfrozen i g hg
  · obtain hf | ⟨hmem, hp, hf2, -⟩ := (hgens f).mp hf
    · cases hf
    · rw [if_pos ⟨hmem, hp⟩, hf2]
  · have hold' : activeGen? ctx.indexSet i = some g := hidx ▸ hold
    split
    next hc =>
      -- a frozen partition with an active index has bytes, so its index was frozen too
      have hsize := hok i hc.1 hc.2 (by rw [hold']; rfl)
      exact absurd rfl (hnone _ ((hgens (i, ctx.wal.activeGen i)).mpr (.inr ⟨hc.1, hc.2, rfl, hsize⟩)))
    next => exact h i g hold' hi

theorem activeGen?_ensureActives (ctx : ZeroFlushContext) (i : ℕ) :
    activeGen? ctx.ensureActives.indexSet i =
      if i ∈ ctx.recoverParts then some (maxGen i ctx.wal.env.listFiles)
      else activeGen? ctx.indexSet i := by
  suffices key : ∀ (ids : List ℕ) (s : PartitionIndexSet),
      activeGen? (ids.foldl (fun s p => s.ensureActive p (maxGen p ctx.wal.env.listFiles)) s) i =
        if i ∈ ids then some (maxGen i ctx.wal.env.listFiles) else activeGen? s i from
    key ctx.recoverParts ctx.indexSet
  intro ids
  induction ids with
  | nil => simp
  | cons p ids ih =>
    intro s
    rw [List.foldl_cons, ih, activeGen?_ensureActive]
    cases eq_or_ne i p with
    | inl hi => simp [hi]
    | inr hi => simp [hi]

/-- What a replay leaves alone. -/
structure Rebuilt (ctx ctx' : ZeroFlushContext) : Prop where
  wal_eq : ctx'.wal = ctx.wal
  tables_eq : ctx'.tables = ctx.tables
  gens_eq : ∀ i, activeGen? ctx'.indexSet i = activeGen? ctx.indexSet i

theorem Rebuilt.refl (ctx : ZeroFlushContext) : Rebuilt ctx ctx := ⟨rfl, rfl, fun _ => rfl⟩

theorem Rebuilt.trans {a b c : ZeroFlushContext} (h : Rebuilt a b) (h' : Rebuilt b c) :
    Rebuilt a c :=
  ⟨h'.wal_eq.trans h.wal_eq, h'.tables_eq.trans h.tables_eq,
    fun i => (h'.gens_eq i).trans (h.gens_eq i)⟩

/-- Every partition of the table has an active index. -/
def AllActive (ctx : ZeroFlushContext) : Prop :=
  ∀ p < ctx.tables.current.partitions, activeGen? ctx.indexSet p ≠ none

theorem AllActive.of_rebuilt {a b : ZeroFlushContext} (h : AllActive a) (hr : Rebuilt a b) :
    AllActive b := by
  intro p hp
  rw [hr.gens_eq]
  exact h p (hr.tables_eq ▸ hp)

theorem route_current_lt (ctx : ZeroFlushContext) (key : Bytes) :
    ctx.routeWithVersion key ctx.tables.currentVersion < ctx.tables.current.partitions := by
  rw [ZeroFlushContext.routeWithVersion, PartitionTableSet.get?_currentVersion]
  exact PartitionTable.route_lt _ _ _

theorem rebuilt_replayRecord (h : AllActive ctx) (f : FileId) (r : Scanned × ℕ) :
    Rebuilt ctx (ZeroFlushContext.replayRecord f ctx r) := by
  refine ⟨rfl, rfl, ?_⟩
  intro i
  refine (activeGen?_insertCreate _ _ _ _ _).trans (if_neg ?_)
  rintro ⟨-, hn⟩
  exact h _ (route_current_lt ctx r.1.key) hn

theorem rebuilt_replayFile (h : AllActive ctx) (f : FileId) : Rebuilt ctx (ctx.replayFile f) := by
  refine List.foldlRecOn _ _ (Rebuilt.refl ctx) ?_
  intro c hc r _
  exact hc.trans (rebuilt_replayRecord (h.of_rebuilt hc) f r)

/-- `Recover` gives every partition it looks at its newest generation. -/
theorem activeGen?_recover (hidx : ∀ i, activeGen? ctx.indexSet i = none) (i : ℕ) :
    activeGen? ctx.recover.indexSet i =
      if i ∈ ctx.recoverParts then some (maxGen i ctx.wal.env.listFiles) else none := by
  obtain ⟨cache, hrec⟩ := recover_eq ctx
  set adopted : ZeroFlushContext := { ctx with sealedCache := cache }
  have hstart : ∀ i, activeGen? adopted.ensureActives.indexSet i =
      if i ∈ adopted.recoverParts then some (maxGen i ctx.wal.env.listFiles) else none := by
    intro i
    rw [activeGen?_ensureActives]
    exact if_congr Iff.rfl rfl (hidx i)
  have hall : AllActive adopted.ensureActives := by
    intro p hp
    rw [hstart, if_pos]
    · exact Option.some_ne_none _
    · rw [ZeroFlushContext.recoverParts, List.mem_insertionSort, List.mem_dedup, List.mem_append]
      exact .inl (List.mem_range.mpr hp)
  have hreb : Rebuilt adopted.ensureActives ctx.recover := by
    rw [hrec]
    refine List.foldlRecOn _ _ (Rebuilt.refl _) ?_
    intro c hc f _
    exact hc.trans (rebuilt_replayFile (hall.of_rebuilt hc) f)
  exact (hreb.gens_eq i).trans (hstart i)

theorem gensAgree_recover (hidx : ∀ i, activeGen? ctx.indexSet i = none)
    (hwal : ∀ i, Appendable ctx.wal i → ctx.wal.activeGen i = maxGen i ctx.wal.env.listFiles) :
    GensAgree ctx.recover := by
  intro i g hg happ
  rw [activeGen?_recover hidx] at hg
  rw [wal_recover] at happ ⊢
  split at hg
  · cases hg
    exact (hwal i happ).symm
  · cases hg

/-- A directory without sealed range tombstones is opened with agreeing generations. -/
theorem gensAgree_openCreate {env : Env} {n target : ℕ}
    (hwal : ctx.wal = (PartitionedWalManager.create env n target).open_)
    (hrd : ∀ f ∈ env.listFiles, f.1 = kRangeDelPartId → f.2 = 0)
    (hidx : ∀ i, activeGen? ctx.indexSet i = none) : GensAgree ctx.recover := by
  apply gensAgree_recover hidx
  have henv : ctx.wal.env = env := by rw [hwal]; rfl
  intro i happ
  rw [henv]
  rw [hwal] at happ ⊢
  rw [activeGen_openCreate]
  split
  next => rfl
  next hi =>
    obtain hhas | rfl := happ
    · rw [PartitionedWalManager.hasPartition, lookup_openCreate, if_neg hi] at hhas
      cases hhas
    · obtain hzero | hmem := maxGen_eq_zero_or_mem kRangeDelPartId env.listFiles
      · exact hzero.symm
      · exact (hrd _ hmem rfl).symm

theorem gensAgree_step (ctx : ZeroFlushContext) (op : ContextOp) (hok : StepOk ctx op)
    (h : GensAgree ctx) : GensAgree (step ctx op) := by
  cases op with
  | addRecord r v rnd => exact gensAgree_addRecord h r v rnd
  | sync part =>
    intro i g hg hi
    replace hi : Appendable (ctx.wal.sync part).2 i := hi
    rw [Appendable, hasPartition_sync] at hi
    exact (h i g hg hi).trans (activeGen_sync ctx.wal part i).symm
  | freezeBatchPartitions l1 => exact gensAgree_freezeBatchPartitions h l1
  | freezeOnePartition =>
    show GensAgree ctx.freezeOnePartition
    rw [ZeroFlushContext.freezeOnePartition, show ctx.chooseOne = none from hok]
    exact h
  | sealEpochAndSwitch l1 => exact gensAgree_sealEpochAndSwitch h l1 hok
  | releaseEpoch epoch =>
    intro i g hg hi
    refine h i g (Eq.trans ?_ hg) hi
    refine (List.foldlRecOn (motive := fun s => activeGen? s i = activeGen? ctx.indexSet i) _ _ rfl ?_).symm
    intro s hs f _
    rw [activeGen?_releaseFrozen, hs]
  | purgeSealedFiles => exact h
  | reopen tables =>
    apply gensAgree_openCreate rfl _ activeGen?_empty
    intro f hf
    rw [Env.mem_listFiles, exists?_close, ← Env.mem_listFiles] at hf
    exact hok f hf
  | crash cut tables =>
    apply gensAgree_openCreate rfl _ activeGen?_empty
    intro f hf
    rw [Env.mem_listFiles, Env.exists?_crash, ← Env.mem_listFiles] at hf
    exact hok f hf

theorem gensAgree_start (zfo : ZeroFlushOptions) (ucmp : UserComparator)
    (tables : PartitionTableSet) (sampler : Option KeySampler) :
    GensAgree (start zfo ucmp tables sampler) := by
  apply gensAgree_openCreate rfl _ activeGen?_empty
  intro f hf
  simp [Env.mem_listFiles] at hf

/-- In every run whose steps meet `StepOk` the generations agree, and every record that `AddRecord`
acknowledges with a new sequence number is in the index of its generation. -/
theorem acknowledged_indexed_of_guarded (zfo : ZeroFlushOptions) (ucmp : UserComparator)
    (tables : PartitionTableSet) (sampler : Option KeySampler) (ops : List ContextOp)
    (hg : Guarded step StepOk (start zfo ucmp tables sampler) ops) :
    GensAgree (run step (start zfo ucmp tables sampler) ops) ∧
      ∀ r v rnd ref,
        ((run step (start zfo ucmp tables sampler) ops).addRecord r v rnd).1 = .ok ref →
        FreshSeq (run step (start zfo ucmp tables sampler) ops) r v →
        Holds ((run step (start zfo ucmp tables sampler) ops).addRecord r v rnd).2.indexSet
          ref.partId ref.gen (indexEntry r ref) := by
  have h := invariant_run gensAgree_step (gensAgree_start zfo ucmp tables sampler) hg
  exact ⟨h, fun r v rnd ref ha hfresh => holds_addRecord h ha hfresh⟩

def onePartition : PartitionTableSet := .init (.createHash 0 1 Nat.one_pos)

def oneContext : ZeroFlushContext := start { partitions := 1 } .bytewise onePartition none

def put (key value : Bytes) (seq : UInt64) : WalRecord := ⟨key, value, kTypeValue, seq⟩

def deleteRange (rangeBegin rangeEnd : Bytes) (seq : UInt64) : WalRecord :=
  ⟨rangeBegin, rangeEnd, kTypeRangeDeletion, seq⟩

/-- A write, a freeze, a write and a clean restart. -/
def restarted : List ContextOp :=
  [.addRecord (put [97] [1] 1) 0 0, .freezeBatchPartitions [], .addRecord (put [98] [2] 2) 0 0,
    .sealEpochAndSwitch [], .addRecord (put [98] [3] 3) 0 0, .reopen onePartition]

theorem acknowledged_indexed_of_restarted :
    Guarded step StepOk oneContext restarted ∧
      Holds ((run step oneContext restarted).addRecord (put [97] [4] 4) 0 0).2.indexSet 0 2
        (indexEntry (put [97] [4] 4) ⟨0, 2, 30⟩) := by
  have hg : Guarded step StepOk oneContext restarted := by decide +kernel
  refine ⟨hg, ?_⟩
  have hok : ((run step oneContext restarted).addRecord (put [97] [4] 4) 0 0).1 = .ok ⟨0, 2, 30⟩ := by
    decide +kernel
  have hfresh : FreshSeq (run step oneContext restarted) (put [97] [4] 4) 0 := by decide +kernel
  unfold oneContext at hok hfresh ⊢
  exact (acknowledged_indexed_of_guarded { partitions := 1 } .bytewise onePartition none restarted
    hg).2 (put [97] [4] 4) 0 0 ⟨0, 2, 30⟩ hok hfresh

/-- A range deletion, a freeze and a clean restart. -/
def tombstoneSealed : List ContextOp :=
  [.addRecord (deleteRange [97] [98] 1) 0 0, .freezeBatchPartitions [], .reopen onePartition]

/-- The next range deletion is acknowledged in generation 0 and dropped from the index, whose
active generation is 1. -/
theorem acknowledged_indexed_fails :
    let ctx := run step oneContext tombstoneSealed
    let r := deleteRange [99] [100] 2
    (ctx.addRecord r 0 0).1 = .ok ⟨kRangeDelPartId, 0, 0⟩ ∧ FreshSeq ctx r 0 ∧
      ¬ Holds (ctx.addRecord r 0 0).2.indexSet kRangeDelPartId 0
        (indexEntry r ⟨kRangeDelPartId, 0, 0⟩) ∧
      activeGen? ctx.indexSet kRangeDelPartId = some 1 ∧
      ctx.wal.activeGen kRangeDelPartId = 0 := by
  decide +kernel

end ZeroFlush.IndexGenerations
