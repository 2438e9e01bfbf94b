import ZeroFlush.EpochTables
import ZeroFlush.IndexContents
import ZeroFlush.IndexGenerations

/-! # The indexes a release gives up

`ReleaseEpoch` takes out of the chains the frozen indexes of the generations of the epoch. These
are the entries of the epoch as long as every index has only entries of its own generation. -/
namespace ZeroFlush.ReleasedIndexes
open FixedWidthCodec FiniteMaps WalFormat WalFiles PartitionedWal WalLogs WalOpening UserKeys
  PartitionIndexes IndexChains IndexContents PartitionTables SealedFiles SequentialScan Context
  ContextRuns ContextHistory SealedEpochs IndexGenerations GuardedRuns
open EpochTables (RoutedOp)

/-- Every entry of the index of a partition and generation has a locator with these two. -/
def Located (s : PartitionIndexSet) : Prop :=
  ∀ p, ∀ i ∈ s.chain p, ∀ x ∈ i.entries, x.loc.file = (p, i.gen)

def Stored (s : PartitionIndexSet) (p : ℕ) (x : IndexEntry) : Prop :=
  ∃ i ∈ s.chain p, x ∈ i.entries

instance (s : PartitionIndexSet) (p : ℕ) (x : IndexEntry) : Decidable (Stored s p x) :=
  inferInstanceAs (Decidable (∃ i ∈ s.chain p, x ∈ i.entries))

/-- The generations registered for an epoch. -/
def gensOf (ctx : ZeroFlushContext) (epoch : ℕ) : List FileId :=
  ((ctx.sealedCache.getEpoch epoch).map SealedEpoch.gens).getD []

/-- A release takes the entries of the generations of its epoch and no others. -/
def ReleasesExactly (ctx : ZeroFlushContext) : Prop :=
  ∀ epoch p x, Stored (ctx.releaseEpoch epoch).indexSet p x ↔
    Stored ctx.indexSet p x ∧ x.loc.file ∉ gensOf ctx epoch

def step (ctx : ZeroFlushContext) : RoutedOp → ZeroFlushContext
  | .context op => ContextRuns.step ctx op
  | .handOffSkipped epoch gens partBytes =>
    { ctx with sealedCache := ctx.sealedCache.handOffSkippedToRecovery epoch gens partBytes }

/-- The restored table routes every record of a file to the partition of the file, and the
range-delete partition has no file beyond generation 0. -/
def RoutesReplayed (env : Env) (ucmp : UserComparator) (tables : PartitionTableSet) : Prop :=
  ∀ f ∈ env.listFiles, (f.1 = kRangeDelPartId → f.2 = 0) ∧
    ∀ r ∈ (WalScanner.scan (env.content f)).1, tables.current.route ucmp r.1.key = f.1

instance (env : Env) (ucmp : UserComparator) (tables : PartitionTableSet) :
    Decidable (RoutesReplayed env ucmp tables) :=
  inferInstanceAs (Decidable (∀ f ∈ env.listFiles, _ ∧ _))

/-- No generation number of the partitions wraps around when they are frozen. -/
def NoWrap (wal : PartitionedWalManager) (parts : List ℕ) : Prop :=
  ∀ p ∈ parts, wal.activeGen p + parts.length < 2 ^ 32

instance (wal : PartitionedWalManager) (parts : List ℕ) : Decidable (NoWrap wal parts) :=
  inferInstanceAs (Decidable (∀ p ∈ parts, _))

/-- The condition on a step; a flush skips generations of its own epoch only. -/
def StepOk (ctx : ZeroFlushContext) : RoutedOp → Prop
  | .context (.freezeBatchPartitions _) => NoWrap ctx.wal ctx.chooseBatch
  | .context .freezeOnePartition => NoWrap ctx.wal ctx.chooseOne.toList
  | .context (.sealEpochAndSwitch _) => NoWrap ctx.wal ctx.tables.current.partIds
  | .context (.reopen tables) => RoutesReplayed ctx.wal.close.env ctx.ucmp tables
  | .context (.crash cut tables) => RoutesReplayed (ctx.wal.env.crash cut) ctx.ucmp tables
  | .context (.addRecord _ _ _) | .context (.sync _) | .context (.releaseEpoch _)
  | .context .purgeSealedFiles => True
  | .handOffSkipped epoch gens _ => ∀ f ∈ gens, f ∈ gensOf ctx epoch

instance decidableStepOk (ctx : ZeroFlushContext) : (op : RoutedOp) → Decidable (StepOk ctx op)
  | .context (.freezeBatchPartitions _) =>
    inferInstanceAs (Decidable (NoWrap ctx.wal ctx.chooseBatch))
  | .context .freezeOnePartition =>
    inferInstanceAs (Decidable (NoWrap ctx.wal ctx.chooseOne.toList))
  | .context (.sealEpochAndSwitch _) =>
    inferInstanceAs (Decidable (NoWrap ctx.wal ctx.tables.current.partIds))
  | .context (.reopen tables) =>
    inferInstanceAs (Decidable (RoutesReplayed ctx.wal.close.env ctx.ucmp tables))
  | .context (.crash cut tables) =>
    inferInstanceAs (Decidable (RoutesReplayed (ctx.wal.env.crash cut) ctx.ucmp tables))
  | .context (.addRecord _ _ _) | .context (.sync _) | .context (.releaseEpoch _)
  | .context .purgeSealedFiles => .isTrue trivial
  | .handOffSkipped epoch gens _ => inferInstanceAs (Decidable (∀ f ∈ gens, f ∈ gensOf ctx epoch))

/-- A generation that an epoch owns or that waits for one. -/
def Kept (c : SealedFileCache) (f : FileId) : Prop :=
  (∃ e se, c.epochs.lookup e = some se ∧ f ∈ se.gens) ∨ f ∈ c.recoveryGens ∨ f ∈ c.skipGens

structure Separate (ctx : ZeroFlushContext) : Prop where
  located : Located ctx.indexSet
  counter : ∀ e se, ctx.sealedCache.epochs.lookup e = some se → e ≤ ctx.epochCounter
  old : ∀ f, Kept ctx.sealedCache f → Appendable ctx.wal f.1 → f.2 < ctx.wal.activeGen f.1
  quiet : ∀ f, Kept ctx.sealedCache f → ∀ i, ctx.indexSet.active.lookup f.1 = some i →
    i.gen = f.2 → i.entries = []

variable {ctx ctx' : ZeroFlushContext}

theorem Shrinks.kept {c c' : SealedFileCache} (h : Shrinks c c') {f : FileId}
    (hwait : f ∈ c'.recoveryGens ∨ f ∈ c'.skipGens → Kept c f) (hf : Kept c' f) : Kept c f := by
  obtain ⟨e, se, hse, hmem⟩ | hf := hf
  · obtain ⟨old, hold, -, hsub⟩ := h e se hse
    exact .inl ⟨e, old, hold, hsub hmem⟩
  · exact hwait hf

/-- A new epoch keeps what was kept, and its own generations. -/
theorem kept_addEpoch {c : SealedFileCache} {se : SealedEpoch}
    (hnew : c.epochs.lookup se.epoch = none) {f : FileId} (hf : Kept c f ∨ f ∈ se.gens) :
    Kept (c.addEpochWithRecoveryAdoption se) f := by
  obtain ⟨merged, hepochs, -, hgens, -, -⟩ := addEpoch_spec hnew
  have hmerged : f ∈ merged.gens → Kept (c.addEpochWithRecoveryAdoption se) f := by
    intro hmem
    refine .inl ⟨se.epoch, merged, ?_, hmem⟩
    rw [hepochs, lookup_insert_eq, if_pos rfl]
  obtain (⟨e, old, hold, hmem⟩ | hwait) | hown := hf
  · refine .inl ⟨e, old, ?_, hmem⟩
    rw [hepochs, lookup_insert_eq, if_neg]
    · exact hold
    · rintro rfl
      rw [hnew] at hold
      cases hold
  · exact hmerged ((hgens f).mpr (.inr hwait))
  · exact hmerged ((hgens f).mpr (.inl hown))

/-- A release keeps all generations but those of its epoch. -/
theorem kept_releaseEpoch {epoch : ℕ} {f : FileId} (hf : Kept ctx.sealedCache f)
    (hnot : f ∉ gensOf ctx epoch) : Kept (ctx.sealedCache.releaseEpoch epoch) f := by
  obtain ⟨hrec, hskip⟩ := waiting_releaseEpoch ctx.sealedCache epoch
  obtain ⟨e, se, hse, hmem⟩ | hwait := hf
  · cases eq_or_ne e epoch with
    | inl he =>
      subst he
      rw [gensOf, SealedFileCache.getEpoch, hse] at hnot
      exact absurd hmem hnot
    | inr he => exact .inl ⟨e, se, (lookup_releaseEpoch_of_ne _ he).trans hse, hmem⟩
  · rw [Kept, hrec, hskip]
    exact .inr hwait

theorem mem_chain_releaseLoop (gens : List FileId) (s : PartitionIndexSet) (p : ℕ)
    (i : PartitionIndex) :
    i ∈ (gens.foldl (fun s f => s.releaseFrozen f.1 f.2) s).chain p ↔
      s.active.lookup p = some i ∨ i ∈ s.frozenChain p ∧ (p, i.gen) ∉ gens := by
  induction gens generalizing s with
  | nil =>
    rw [List.foldl_nil, PartitionIndexSet.chain, List.mem_append, List.mem_reverse,
      Option.mem_toList]
    simp
  | cons f gens ih =>
    rw [List.foldl_cons, ih, active_releaseFrozen, frozenChain_releaseFrozen, List.mem_filter,
      decide_eq_true_iff, List.mem_cons, and_assoc, not_or]
    have hfile : (p, i.gen) = f ↔ p = f.1 ∧ i.gen = f.2 := Prod.ext_iff
    rw [hfile]

theorem kept_of_mem_gensOf {epoch : ℕ} {f : FileId} (h : f ∈ gensOf ctx epoch) :
    Kept ctx.sealedCache f := by
  rw [gensOf, SealedFileCache.getEpoch] at h
  cases he : ctx.sealedCache.epochs.lookup epoch with
  | none =>
    rw [he] at h
    cases h
  | some se =>
    rw [he] at h
    exact .inl ⟨epoch, se, he, h⟩

/-- The release of one epoch, from what separates the generations. -/
theorem Separate.releasesExactly (h : Separate ctx) : ReleasesExactly ctx := by
  intro epoch p x
  have hkept := fun f => @kept_of_mem_gensOf ctx epoch f
  constructor
  · rintro ⟨i, hi, hx⟩
    obtain hactive | ⟨hfrozen, hnot⟩ := (mem_chain_releaseLoop _ _ _ _).mp hi
    · have hmem : i ∈ ctx.indexSet.chain p := by
        rw [chain_of_active hactive]
        exact List.mem_cons_self
      refine ⟨⟨i, hmem, hx⟩, ?_⟩
      rw [h.located p i hmem x hx]
      intro hgen
      rw [h.quiet _ (hkept _ hgen) i hactive rfl] at hx
      cases hx
    · have hmem : i ∈ ctx.indexSet.chain p := List.mem_append_right _ (List.mem_reverse.mpr hfrozen)
      refine ⟨⟨i, hmem, hx⟩, ?_⟩
      rw [h.located p i hmem x hx]
      exact hnot
  · rintro ⟨⟨i, hi, hx⟩, hnot⟩
    rw [h.located p i hi x hx] at hnot
    refine ⟨i, (mem_chain_releaseLoop _ _ _ _).mpr ?_, hx⟩
    rw [PartitionIndexSet.chain, List.mem_append, List.mem_reverse, Option.mem_toList] at hi
    exact hi.imp_right fun hi => ⟨hi, hnot⟩

theorem located_insertion {s : PartitionIndexSet} {ucmp : UserComparator} {part gen : ℕ}
    {e : IndexEntry} {after : List PartitionIndex} (h : Located s)
    (hins : Insertion ucmp gen e s part after) (he : e.loc.file = (part, gen)) :
    ∀ i ∈ after, ∀ x ∈ i.entries, x.loc.file = (part, i.gen) := by
  refine hins.forall (h part) ?_ ?_
  · intro x hx
    rw [entries_inserted_empty, List.mem_singleton] at hx
    rw [hx, inserted_gen]
    exact he
  · intro i hg hi x hx
    rw [inserted_gen]
    obtain rfl | hx := mem_inserted hx
    · rw [hg]
      exact he
    · exact hi x hx

theorem located_insert {s : PartitionIndexSet} {ucmp : UserComparator} {part gen : ℕ}
    {e : IndexEntry} (h : Located s) (he : e.loc.file = (part, gen)) :
    Located (s.insert ucmp part gen e) := by
  obtain ⟨hins, hother⟩ := chain_insert ucmp s part gen e
  intro p
  cases eq_or_ne p part with
  | inl hp =>
    subst hp
    exact located_insertion h hins he
  | inr hp =>
    rw [hother p hp]
    exact h p

theorem located_insertCreate {s : PartitionIndexSet} {ucmp : UserComparator} {part gen : ℕ}
    {e : IndexEntry} (h : Located s) (he : e.loc.file = (part, gen)) :
    Located (s.insertCreate ucmp part gen e) := by
  obtain ⟨hins, hother⟩ := chain_insertCreate ucmp s part gen e
  intro p
  cases eq_or_ne p part with
  | inl hp =>
    subst hp
    exact located_insertion h hins he
  | inr hp =>
    rw [hother p hp]
    exact h p

theorem located_freeze {s : PartitionIndexSet} (h : Located s) (part newGen : ℕ) :
    Located (s.freeze part newGen) := by
  obtain ⟨⟨rest, hchain, hrest⟩, hother⟩ := chain_freeze s part newGen
  intro p i hi x hx
  cases eq_or_ne p part with
  | inl hp =>
    subst hp
    rw [hchain, List.mem_cons] at hi
    obtain rfl | hi := hi
    · cases hx
    · obtain rfl | ⟨a, -, -, ha⟩ := hrest
      · exact h p i hi x hx
      · exact h p i (ha ▸ List.mem_cons_of_mem _ hi) x hx
  | inr hp => exact h p i (hother p hp ▸ hi) x hx

/-- A step that leaves the indexes, the partitions and the generations alone and takes
generations away from the cache only. -/
theorem separate_congr (h : Separate ctx)
    (hindex : ctx'.indexSet = ctx.indexSet)
    (happ : ∀ i, Appendable ctx'.wal i → Appendable ctx.wal i)
    (hgen : ∀ i, ctx'.wal.activeGen i = ctx.wal.activeGen i)
    (hcount : ctx'.epochCounter = ctx.epochCounter)
    (hshrink : Shrinks ctx.sealedCache ctx'.sealedCache)
    (hkept : ∀ f, Kept ctx'.sealedCache f → Kept ctx.sealedCache f) : Separate ctx' := by
  refine ⟨hindex ▸ h.located, ?_, ?_, ?_⟩
  · intro e se hse
    obtain ⟨old, hold, -, -⟩ := hshrink e se hse
    rw [hcount]
    exact h.counter e old hold
  · intro f hf ha
    rw [hgen]
    exact h.old f (hkept f hf) (happ _ ha)
  · intro f hf
    rw [hindex]
    exact h.quiet f (hkept f hf)

private theorem separate_addRecord (h : Separate ctx) (r : WalRecord) (v rnd : ℕ) :
    Separate (ctx.addRecord r v rnd).2 := by
  rw [ZeroFlushContext.addRecord]
  cases ha : ctx.wal.append (ctx.partOf r v) r with
  | mk res wal =>
    cases res with
    | error e =>
      obtain rfl := append_error ha
      exact h
    | ok ref =>
      obtain ⟨hpart, hgen, happ, hgens, hiff⟩ := append_ok ha
      refine ⟨?_, h.counter, ?_, ?_⟩
      · exact located_insert h.located (Prod.ext hpart rfl)
      · intro f hf hi
        show f.2 < wal.activeGen f.1
        rw [hgens]
        exact h.old f hf ((hiff _).mp hi)
      · intro f hf i hi he
        obtain hold | ⟨hfp, hig⟩ := active_insert hi
        · exact h.quiet f hf i hold he
        · -- the record goes to a generation after those of the cache
          have hlt := h.old f hf (hfp ▸ happ)
          rw [hfp] at hlt
          omega

/-- What a freeze does to the indexes: some active indexes are replaced by empty ones, and so are
those of the sealed generations. -/
structure Freezes (s s' : PartitionIndexSet) (gens : List FileId) : Prop where
  located : Located s → Located s'
  active : ∀ p i, s'.active.lookup p = some i → s.active.lookup p = some i ∨ i.entries = []
  sealed : ∀ f ∈ gens, ∀ i, s'.active.lookup f.1 = some i → i.entries = []

theorem freezes_loop (s : PartitionIndexSet) (fs : List (ℕ × ℕ)) {gens : List FileId}
    (hgens : ∀ f ∈ gens, f.1 ∈ fs.map Prod.fst) : Freezes s (freezeIndexLoop s fs) gens := by
  induction fs generalizing s gens with
  | nil =>
    refine ⟨id, fun _ _ => .inl, ?_⟩
    intro f hf
    exact absurd (hgens f hf) List.not_mem_nil
  | cons g fs ih =>
    have hrest := @ih (s.freeze g.1 g.2) (gens.filter fun f => f.1 ∈ fs.map Prod.fst) (by
      intro f hf
      exact of_decide_eq_true (List.mem_filter.mp hf).2)
    have hactive : ∀ p i, (freezeIndexLoop s (g :: fs)).active.lookup p = some i →
        s.active.lookup p = some i ∧ p ≠ g.1 ∨ i.entries = [] := by
      intro p i hi
      obtain hi | hnil := hrest.active p i hi
      · rw [active_freeze] at hi
        split at hi
        next =>
          cases hi
          exact .inr rfl
        next hp => exact .inl ⟨hi, hp⟩
      · exact .inr hnil
    refine ⟨fun h => hrest.located (located_freeze h g.1 g.2), ?_, ?_⟩
    · exact fun p i hi => (hactive p i hi).imp_left And.left
    · intro f hf i hi
      cases List.mem_cons.mp (hgens f hf) with
      | inl he => exact (hactive f.1 i hi).resolve_left fun h => h.2 he
      | inr hmem =>
        exact hrest.sealed f (List.mem_filter.mpr ⟨hf, decide_eq_true hmem⟩) i hi

/-- The generations a freeze registers are those of the partitions it freezes. -/
theorem mem_of_mem_sealed {m : PartitionedWalManager} {se : SealedEpoch} {ps : List ℕ}
    (hwrap : NoWrap m ps) (hnil : se.gens = []) :
    ∀ f ∈ (ps.foldl sealWal (m, se)).2.gens, f.1 ∈ ps := by
  have hseals := @seals_loop ps m se hwrap
  intro f hf
  obtain hf | ⟨-, hge, hlt⟩ := hseals.gens f hf
  · rw [hnil] at hf
    cases hf
  · by_contra hmem
    rw [hseals.other f.1 hmem] at hlt
    omega

/-- The number of the epoch that a freeze seals is new. -/
theorem Separate.epoch_new (h : Separate ctx) {ps : List ℕ} (hwrap : NoWrap ctx.wal ps) :
    ctx.sealedCache.epochs.lookup (ps.foldl sealWal (ctx.wal, ctx.nextEpoch.2)).2.epoch = none := by
  by_contra hne
  obtain ⟨se, hse⟩ := Option.ne_none_iff_exists'.mp hne
  have hle := h.counter _ se hse
  have hepoch : (ps.foldl sealWal (ctx.wal, ctx.nextEpoch.2)).2.epoch = ctx.epochCounter + 1 :=
    (@seals_loop ps ctx.wal ctx.nextEpoch.2 hwrap).epoch_eq
  omega

theorem separate_sealedBy (h : Separate ctx) {ps : List ℕ} {fs : List (ℕ × ℕ)}
    {t : Option PartitionTable} (hwrap : NoWrap ctx.wal ps) (hby : SealedBy ctx ctx' ps fs t)
    (hfs : ∀ f ∈ (ps.foldl sealWal (ctx.wal, ctx.nextEpoch.2)).2.gens, f.1 ∈ fs.map Prod.fst) :
    Separate ctx' := by
  have hfreeze := freezes_loop ctx.indexSet fs hfs
  rw [← hby.index_eq] at hfreeze
  have hseals := @seals_loop ps ctx.wal ctx.nextEpoch.2 hwrap
  obtain ⟨merged, hepochs, -, hmgens, hrec, hskip⟩ := addEpoch_spec (h.epoch_new hwrap)
  rw [← hby.cache_eq] at hepochs hrec hskip
  have hgen : ∀ i, ctx'.wal.activeGen i =
      (ps.foldl sealWal (ctx.wal, ctx.nextEpoch.2)).1.activeGen i := by
    intro i
    rw [hby.wal_eq]
    rfl
  have happ : ∀ i, Appendable ctx'.wal i → Appendable ctx.wal i := by
    intro i hi
    rw [hby.wal_eq] at hi
    exact hi.imp_left fun hi => (hseals.hasPartition_eq i).symm.trans hi
  have hlookup : ∀ e se, ctx'.sealedCache.epochs.lookup e = some se →
      (e = ctx.epochCounter + 1 ∧ se = merged) ∨ ctx.sealedCache.epochs.lookup e = some se := by
    intro e se hse
    rw [hepochs, lookup_insert_eq] at hse
    split at hse
    next he => exact .inl ⟨he.trans hseals.epoch_eq, (Option.some.inj hse).symm⟩
    next => exact .inr hse
  have hkept : ∀ f, Kept ctx'.sealedCache f →
      f ∈ (ps.foldl sealWal (ctx.wal, ctx.nextEpoch.2)).2.gens ∨ Kept ctx.sealedCache f := by
    intro f hf
    obtain ⟨e, se, hse, hmem⟩ | hf := hf
    · obtain ⟨-, rfl⟩ | hold := hlookup e se hse
      · exact ((hmgens f).mp hmem).imp_right .inr
      · exact .inr (.inl ⟨e, se, hold, hmem⟩)
    · rw [hrec, hskip] at hf
      exact absurd hf (by simp)
  refine ⟨hfreeze.located h.located, ?_, ?_, ?_⟩
  · intro e se hse
    rw [hby.counter_eq]
    obtain ⟨rfl, -⟩ | hold := hlookup e se hse
    · exact le_rfl
    · exact (h.counter e se hold).trans (Nat.le_succ _)
  · intro f hf ha
    rw [hgen]
    obtain hf | hf := hkept f hf
    · obtain hnil | ⟨-, -, hlt⟩ := hseals.gens f hf
      · exact absurd hnil List.not_mem_nil
      · exact hlt
    · exact (h.old f hf (happ _ ha)).trans_le (hseals.le f.1)
  · intro f hf i hi he
    obtain hf | hf := hkept f hf
    · exact hfreeze.sealed f hf i hi
    · obtain hold | hnil := hfreeze.active _ i hi
      · exact h.quiet f hf i hold he
      · exact hnil

theorem separate_clearOverTargetFlag (h : Separate ctx) :
    Separate { ctx with wal := ctx.wal.clearOverTargetFlag } :=
  separate_congr h rfl (fun _ => id) (fun _ => rfl) rfl (Shrinks.refl _) (fun _ => id)

private theorem separate_freezeBatch (h : Separate ctx) {l1 : List L1File}
    (hwrap : NoWrap ctx.wal ctx.chooseBatch) : Separate (ctx.freezeBatchPartitions l1) := by
  cases hb : ctx.chooseBatch with
  | nil =>
    rw [ZeroFlushContext.freezeBatchPartitions, hb]
    exact separate_clearOverTargetFlag h
  | cons p ps =>
    refine separate_sealedBy h hwrap (sealedBy_freezeBatch l1 (by simp [hb])) ?_
    rw [map_fst_nextIndexes]
    exact mem_of_mem_sealed hwrap rfl

private theorem separate_freezeOne (h : Separate ctx)
    (hwrap : NoWrap ctx.wal ctx.chooseOne.toList) : Separate ctx.freezeOnePartition := by
  cases hc : ctx.chooseOne with
  | none =>
    rw [ZeroFlushContext.freezeOnePartition, hc]
    exact separate_clearOverTargetFlag h
  | some target =>
    obtain ⟨gen, hby⟩ := sealedBy_freezeOne hc
    rw [hc] at hwrap
    exact separate_sealedBy h hwrap hby (mem_of_mem_sealed hwrap rfl)

private theorem separate_sealEpoch (h : Separate ctx) {l1 : List L1File}
    (hwrap : NoWrap ctx.wal ctx.tables.current.partIds) : Separate (ctx.sealEpochAndSwitch l1) := by
  refine separate_sealedBy h hwrap (sealedBy_sealEpoch ctx l1) ?_
  intro f hf
  rw [List.map_map]
  exact List.mem_map_of_mem hf

/-- A replayed record keeps the indexes located if the table routes it to its file's partition. -/
private theorem located_replayFile {f : FileId} (h : Located ctx.indexSet)
    (hroute : ∀ r ∈ (WalScanner.scan (ctx.wal.env.content f)).1,
      ctx.tables.current.route ctx.ucmp r.1.key = f.1) :
    Located (ctx.replayFile f).indexSet := by
  refine (List.foldlRecOn (motive := fun d : ZeroFlushContext =>
    Located d.indexSet ∧ d.tables = ctx.tables ∧ d.ucmp = ctx.ucmp) _ _ ⟨h, rfl, rfl⟩ ?_).1
  rintro d ⟨hd, htables, hucmp⟩ r hr
  refine ⟨?_, htables, hucmp⟩
  have hpart : d.routeWithVersion r.1.key d.tables.currentVersion = f.1 := by
    rw [ZeroFlushContext.routeWithVersion, PartitionTableSet.get?_currentVersion]
    dsimp only
    rw [htables, hucmp]
    exact hroute r hr
  exact located_insertCreate hd (Prod.ext hpart.symm rfl)

theorem located_recover (hindex : ctx.indexSet = {})
    (hroute : RoutesReplayed ctx.wal.env ctx.ucmp ctx.tables) : Located ctx.recover.indexSet := by
  obtain ⟨cache, hrec⟩ := recover_eq ctx
  set adopted : ZeroFlushContext := { ctx with sealedCache := cache }
  have hstart : Located adopted.ensureActives.indexSet := by
    refine List.foldlRecOn (motive := fun s : PartitionIndexSet => Located s) _ _ ?_ ?_
    · intro p i hi
      have hempty : adopted.indexSet = {} := hindex
      rw [hempty] at hi
      exact absurd hi (by simp [PartitionIndexSet.chain, PartitionIndexSet.frozenChain])
    · intro s hs q _ p i hi x hx
      obtain hi | rfl := mem_chain_ensureActive hi
      · exact hs p i hi x hx
      · cases hx
  rw [hrec]
  refine (List.foldlRecOn (motive := fun d : ZeroFlushContext => Located d.indexSet ∧
    d.wal = ctx.wal ∧ SameRest adopted.ensureActives d) _ _
    ⟨hstart, rfl, ⟨rfl, rfl, rfl, rfl, rfl, rfl⟩⟩ ?_).1
  rintro d ⟨hd, hwal, hrest⟩ f hf
  have hfile := hroute f ((List.mem_insertionSort _).mp hf)
  refine ⟨located_replayFile hd ?_, ?_, hrest.trans (sameRest_replay [f] d)⟩
  · rw [hwal, hrest.tables_eq, hrest.ucmp_eq]
    exact hfile.2
  · refine List.foldlRecOn (motive := fun c : ZeroFlushContext => c.wal = ctx.wal) _ _ hwal ?_
    exact fun c hc r _ => hc

/-- A new session over files whose records the table routes back to where they are. -/
private theorem separate_recover {env : Env} {n target : ℕ}
    (hwal : ctx.wal = (PartitionedWalManager.create env n target).open_)
    (hindex : ctx.indexSet = {}) (hepochs : ctx.sealedCache.epochs = ∅)
    (hrec : ctx.sealedCache.recoveryGens = []) (hskip : ctx.sealedCache.skipGens = [])
    (hroute : RoutesReplayed env ctx.ucmp ctx.tables) : Separate ctx.recover := by
  have henv : ctx.wal.env = env := by rw [hwal]; rfl
  obtain ⟨-, -, hepochs', hrec', hskip'⟩ := recover_spec ctx
  have hnone : ∀ e se, ctx.recover.sealedCache.epochs.lookup e ≠ some se := by
    intro e se hse
    rw [hepochs', hepochs] at hse
    cases hse
  have hkept : ∀ f, Kept ctx.recover.sealedCache f → f ∈ env.listFiles ∧
      f.2 < maxGen f.1 env.listFiles := by
    intro f hf
    obtain ⟨e, se, hse, -⟩ | hf := hf
    · exact absurd hse (hnone e se)
    · rw [hskip', hskip] at hf
      have hf := (hrec' f).mp (hf.resolve_right List.not_mem_nil)
      rw [hrec] at hf
      obtain ⟨p, -, hmem⟩ := List.mem_flatMap.mp (hf.resolve_left List.not_mem_nil)
      rw [henv] at hmem
      obtain ⟨hfile, hdec⟩ := List.mem_filter.mp hmem
      obtain ⟨rfl, hbelow⟩ := of_decide_eq_true hdec
      exact ⟨hfile, hbelow⟩
  refine ⟨located_recover hindex (henv ▸ hroute), fun e se hse => absurd hse (hnone e se), ?_, ?_⟩
  · intro f hf happ
    obtain ⟨hfile, hbelow⟩ := hkept f hf
    rw [wal_recover, hwal] at happ ⊢
    rw [activeGen_openCreate]
    split
    next => exact hbelow
    next hge =>
      -- only the range-delete partition can be appended to without being opened
      have hrd : f.1 = kRangeDelPartId := by
        refine happ.resolve_left fun hhas => ?_
        rw [PartitionedWalManager.hasPartition, lookup_openCreate, if_neg hge] at hhas
        cases hhas
      rw [hrd] at hbelow
      obtain hzero | hmem := maxGen_eq_zero_or_mem kRangeDelPartId env.listFiles
      · omega
      · have hmax := (hroute _ hmem).1 rfl
        dsimp only at hmax
        omega
  · intro f hf i hi he
    obtain ⟨hfile, hbelow⟩ := hkept f hf
    have hgen := @activeGen?_recover ctx (fun i => by rw [hindex, activeGen?_empty]) f.1
    have hmem : f.1 ∈ ctx.recoverParts := by
      rw [ZeroFlushContext.recoverParts, List.mem_insertionSort, List.mem_dedup, List.mem_append,
        henv]
      exact .inr (List.mem_map_of_mem hfile)
    rw [if_pos hmem, activeGen?, hi, Option.map_some, henv, Option.some_inj] at hgen
    omega

theorem active_releaseLoop (gens : List FileId) (s : PartitionIndexSet) :
    (gens.foldl (fun s f => s.releaseFrozen f.1 f.2) s).active = s.active := by
  refine List.foldlRecOn (motive := fun t : PartitionIndexSet => t.active = s.active) _ _ rfl ?_
  intro t ht f _
  rw [active_releaseFrozen, ht]

private theorem separate_releaseEpoch (h : Separate ctx) (epoch : ℕ) :
    Separate (ctx.releaseEpoch epoch) := by
  have hshrink := shrinks_releaseEpoch ctx.sealedCache epoch
  obtain ⟨hrec, hskip⟩ := waiting_releaseEpoch ctx.sealedCache epoch
  have hkept : ∀ f, Kept (ctx.sealedCache.releaseEpoch epoch) f → Kept ctx.sealedCache f := by
    intro f hf
    refine Shrinks.kept hshrink ?_ hf
    rw [hrec, hskip]
    exact .inr
  refine ⟨?_, ?_, fun f hf => h.old f (hkept f hf), ?_⟩
  · intro p i hi
    refine h.located p i ?_
    obtain hi | ⟨hi, -⟩ := (mem_chain_releaseLoop _ _ _ _).mp hi
    · rw [chain_of_active hi]
      exact List.mem_cons_self
    · exact List.mem_append_right _ (List.mem_reverse.mpr hi)
  · intro e se hse
    obtain ⟨old, hold, -, -⟩ := hshrink e se hse
    exact h.counter e old hold
  · intro f hf i hi
    refine h.quiet f (hkept f hf) i ?_
    rw [← hi]
    exact congrArg (fun m : Map ℕ PartitionIndex => m.lookup f.1) (active_releaseLoop _ _).symm

theorem separate_step (ctx : ZeroFlushContext) (op : RoutedOp) (hok : StepOk ctx op)
    (h : Separate ctx) : Separate (step ctx op) := by
  cases op with
  | handOffSkipped epoch gens partBytes =>
    obtain ⟨hshrink, hrec, hskip⟩ := handOff_spec ctx.sealedCache epoch gens partBytes
    refine separate_congr h rfl (fun _ => id) (fun _ => rfl) rfl hshrink ?_
    intro f hf
    refine Shrinks.kept hshrink ?_ hf
    rintro (hf | hf)
    · exact .inr (.inl (hrec ▸ hf))
    · rw [hskip] at hf
      obtain hf | hf := mem_emplaceAll.mp hf
      · exact .inr (.inr hf)
      · exact kept_of_mem_gensOf (hok f hf)
  | context op =>
    cases op with
    | addRecord r v rnd => exact separate_addRecord h r v rnd
    | sync part =>
      refine separate_congr h rfl ?_ (activeGen_sync _ _) rfl (Shrinks.refl _) (fun _ => id)
      intro i hi
      exact hi.imp_left fun hi => (hasPartition_sync _ _ i).symm.trans hi
    | freezeBatchPartitions l1 => exact separate_freezeBatch h hok
    | freezeOnePartition => exact separate_freezeOne h hok
    | sealEpochAndSwitch l1 => exact separate_sealEpoch h hok
    | releaseEpoch epoch => exact separate_releaseEpoch h epoch
    | purgeSealedFiles =>
      exact separate_congr h rfl (fun _ => id) (fun _ => rfl) rfl (Shrinks.refl _) (fun _ => id)
    | reopen tables => exact separate_recover rfl rfl rfl rfl rfl hok
    | crash cut tables => exact separate_recover rfl rfl rfl rfl rfl hok


theorem separate_start (zfo : ZeroFlushOptions) (ucmp : UserComparator)
    (tables : PartitionTableSet) (sampler : Option KeySampler) :
    Separate (start zfo ucmp tables sampler) := by
  refine separate_recover rfl rfl rfl rfl rfl ?_
  intro f hf
  simp [Env.mem_listFiles] at hf

/-- In a run whose steps all meet the condition every index has only entries of its own partition
and generation, and a release takes exactly the entries of the epoch. -/
theorem releasesExactly_of_guarded (zfo : ZeroFlushOptions) (ucmp : UserComparator)
    (tables : PartitionTableSet) (sampler : Option KeySampler) (ops : List RoutedOp)
    (hok : Guarded step StepOk (start zfo ucmp tables sampler) ops) :
    Located (run step (start zfo ucmp tables sampler) ops).indexSet ∧
      ReleasesExactly (run step (start zfo ucmp tables sampler) ops) := by
  have h := invariant_run separate_step (separate_start zfo ucmp tables sampler) hok
  exact ⟨h.located, h.releasesExactly⟩

def lowFirst : PartitionTableSet := .init (.cutAt 0 [98])

def highFirst : PartitionTableSet := .init (.cutAt 0 [97])

def twoRanges : ZeroFlushContext := start { partitions := 2 } .bytewise lowFirst none

/-- Two writes, a freeze, a restart under the same table, and another freeze. -/
def sameTable : List RoutedOp :=
  [.context (.addRecord (put [97] [1] 1) 0 0), .context (.addRecord (put [99] [2] 2) 0 0),
    .context (.freezeBatchPartitions []), .context (.addRecord (put [97] [3] 3) 0 0),
    .context (.reopen lowFirst), .context (.addRecord (put [99] [4] 4) 0 0),
    .context (.freezeBatchPartitions [])]

theorem releasesExactly_of_sameTable :
    Guarded step StepOk twoRanges sameTable ∧ Located (run step twoRanges sameTable).indexSet ∧
      ReleasesExactly (run step twoRanges sameTable) := by
  have hg : Guarded step StepOk twoRanges sameTable := by decide +kernel
  exact ⟨hg, releasesExactly_of_guarded _ _ _ _ sameTable hg⟩

/-- The restored table routes the first record to the other partition, which is then frozen. -/
def otherTable : List RoutedOp :=
  [.context (.addRecord (put [97] [1] 1) 0 0), .context (.reopen highFirst),
    .context (.addRecord (put [99] [2] 2) 0 0), .context (.freezeBatchPartitions [])]

def rerouted : ZeroFlushContext :=
  run step (start { partitions := 2, maxBatchPartitions := 1 } .bytewise lowFirst none) otherTable

/-- The entry of the first record, which is in the active file of partition 0. -/
def reroutedEntry : IndexEntry := indexEntry (put [97] [1] 1) ⟨0, 0, 0⟩

/-- The release of the epoch of generation 0 of partition 1 takes away an entry of partition 0,
and its key is no longer found. -/
theorem releasesExactly_fails :
    Stored rerouted.indexSet 1 reroutedEntry ∧ gensOf rerouted 1 = [(1, 0)] ∧
      rerouted.getFromPartitionIndex none [97] 5 = .found [1] ∧
      (rerouted.releaseEpoch 1).getFromPartitionIndex none [97] 5 = .miss ∧
      ¬ Located rerouted.indexSet ∧ ¬ ReleasesExactly rerouted := by
  have hstored : Stored rerouted.indexSet 1 reroutedEntry := by decide +kernel
  have hgens : gensOf rerouted 1 = [(1, 0)] := by decide +kernel
  have hfound : rerouted.getFromPartitionIndex none [97] 5 = .found [1] := by decide +kernel
  have hmiss : (rerouted.releaseEpoch 1).getFromPartitionIndex none [97] 5 = .miss := by
    decide +kernel
  have hgone : ¬ Stored (rerouted.releaseEpoch 1).indexSet 1 reroutedEntry := by decide +kernel
  refine ⟨hstored, hgens, hfound, hmiss, ?_, ?_⟩
  · intro hlocated
    obtain ⟨i, hi, hx⟩ := hstored
    have hpart := congrArg Prod.fst (hlocated 1 i hi reroutedEntry hx)
    cases hpart
  · intro hexact
    apply hgone
    rw [hexact 1 1 reroutedEntry, hgens]
    exact ⟨hstored, by decide⟩

end ZeroFlush.ReleasedIndexes
