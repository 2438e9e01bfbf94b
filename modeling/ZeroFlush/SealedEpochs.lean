import ZeroFlush.Context
import ZeroFlush.ContextRuns

/-! # What the operations do to the registered epochs

Releases and hand-offs only take generations away from an epoch. A freeze seals the active
generation of every partition it goes through. -/
namespace ZeroFlush.SealedEpochs
open FiniteMaps WalFormat WalFiles PartitionedWal PartitionIndexes PartitionTables SealedFiles
  Context ContextRuns

/-- Every epoch of `c'` is an epoch of `c` with the same table and fewer generations. -/
def Shrinks (c c' : SealedFileCache) : Prop :=
  ∀ e se', c'.epochs.lookup e = some se' → ∃ se, c.epochs.lookup e = some se ∧
    se'.tableVersion = se.tableVersion ∧ se'.gens ⊆ se.gens

theorem Shrinks.refl (c : SealedFileCache) : Shrinks c c :=
  fun _ se h => ⟨se, h, rfl, List.Subset.refl _⟩

theorem Shrinks.trans {a b c : SealedFileCache} (h : Shrinks a b) (h' : Shrinks b c) :
    Shrinks a c := by
  intro e se hse
  obtain ⟨sb, hb, hvb, hgb⟩ := h' e se hse
  obtain ⟨sa, ha, hva, hga⟩ := h e sb hb
  exact ⟨sa, ha, hvb.trans hva, List.Subset.trans hgb hga⟩

/-- One epoch is replaced by one with fewer generations. -/
theorem shrinks_insert {c c' : SealedFileCache} {epoch : ℕ} {se se' : SealedEpoch}
    (hse : c.epochs.lookup epoch = some se) (hc' : c'.epochs = c.epochs.insert epoch se')
    (hv : se'.tableVersion = se.tableVersion) (hg : se'.gens ⊆ se.gens) : Shrinks c c' := by
  intro e x hx
  rw [hc', lookup_insert_eq] at hx
  split at hx
  next he =>
    cases hx
    exact ⟨se, he ▸ hse, hv, hg⟩
  next => exact ⟨x, hx, rfl, List.Subset.refl _⟩

theorem shrinks_settleEpoch (c : SealedFileCache) (epoch : ℕ) (refs : Map FileId ℕ) :
    Shrinks c (c.settleEpoch epoch refs) := by
  rw [SealedFileCache.settleEpoch]
  split
  · intro e se hse
    dsimp only at hse
    rw [lookup_erase_eq] at hse
    split at hse
    · cases hse
    · exact ⟨se, hse, rfl, List.Subset.refl _⟩
  · exact Shrinks.refl c

theorem shrinks_releaseGen (epoch : ℕ) (c : SealedFileCache) (f : FileId) :
    Shrinks c (c.releaseGen epoch f) := by
  rw [SealedFileCache.releaseGen]
  split
  · exact Shrinks.refl c
  · dsimp only
    split
    · exact Shrinks.refl c
    · cases he : c.epochs.lookup epoch with
      | none => exact Shrinks.refl c
      | some se => exact shrinks_insert he rfl rfl (List.filter_subset_self _)

theorem shrinks_releaseGens (c : SealedFileCache) (epoch : ℕ) (gens : List FileId) :
    Shrinks c (c.releaseGens epoch gens) := by
  have hloop : Shrinks c (gens.foldl (SealedFileCache.releaseGen epoch) c) := by
    refine List.foldlRecOn (motive := fun d : SealedFileCache => Shrinks c d) _ _ (Shrinks.refl c) ?_
    intro d hd f _
    exact hd.trans (shrinks_releaseGen epoch d f)
  rw [SealedFileCache.releaseGens]
  split
  · exact Shrinks.refl c
  · split
    · exact Shrinks.refl c
    · exact hloop.trans (shrinks_settleEpoch _ _ _)

theorem shrinks_releaseEpoch (c : SealedFileCache) (epoch : ℕ) : Shrinks c (c.releaseEpoch epoch) :=
  shrinks_releaseGens c epoch _

/-- The waiting sets are left alone by a release. -/
theorem waiting_releaseEpoch (c : SealedFileCache) (epoch : ℕ) :
    (c.releaseEpoch epoch).recoveryGens = c.recoveryGens ∧
      (c.releaseEpoch epoch).skipGens = c.skipGens := by
  have hstep : ∀ (d : SealedFileCache) f, (d.releaseGen epoch f).recoveryGens = d.recoveryGens ∧
      (d.releaseGen epoch f).skipGens = d.skipGens := by
    intro d f
    rw [SealedFileCache.releaseGen]
    split
    · exact ⟨rfl, rfl⟩
    · dsimp only
      split <;> exact ⟨rfl, rfl⟩
  have hloop : ∀ (gens : List FileId) (d : SealedFileCache),
      (gens.foldl (SealedFileCache.releaseGen epoch) d).recoveryGens = d.recoveryGens ∧
        (gens.foldl (SealedFileCache.releaseGen epoch) d).skipGens = d.skipGens := by
    intro gens
    induction gens with
    | nil => exact fun d => ⟨rfl, rfl⟩
    | cons f gens ih =>
      intro d
      obtain ⟨hr, hs⟩ := ih (d.releaseGen epoch f)
      exact ⟨hr.trans (hstep d f).1, hs.trans (hstep d f).2⟩
  have hsettle : ∀ (d : SealedFileCache) refs,
      (d.settleEpoch epoch refs).recoveryGens = d.recoveryGens ∧
        (d.settleEpoch epoch refs).skipGens = d.skipGens := by
    intro d refs
    rw [SealedFileCache.settleEpoch]
    split <;> exact ⟨rfl, rfl⟩
  rw [SealedFileCache.releaseEpoch, SealedFileCache.releaseGens]
  split
  · exact ⟨rfl, rfl⟩
  · split
    · exact ⟨rfl, rfl⟩
    · refine ⟨((hsettle _ _).1).trans (hloop _ c).1, ((hsettle _ _).2).trans (hloop _ c).2⟩

/-- The other epochs are left alone by a release. -/
theorem lookup_releaseEpoch_of_ne (c : SealedFileCache) {e epoch : ℕ} (he : e ≠ epoch) :
    (c.releaseEpoch epoch).epochs.lookup e = c.epochs.lookup e := by
  have hstep : ∀ (d : SealedFileCache) f,
      (d.releaseGen epoch f).epochs.lookup e = d.epochs.lookup e := by
    intro d f
    rw [SealedFileCache.releaseGen]
    split
    · rfl
    · dsimp only
      split
      · rfl
      · cases d.epochs.lookup epoch with
        | none => rfl
        | some se => exact (lookup_insert_eq _ _ _ _).trans (if_neg he)
  have hloop : ∀ gens : List FileId,
      (gens.foldl (SealedFileCache.releaseGen epoch) c).epochs.lookup e = c.epochs.lookup e := by
    intro gens
    refine List.foldlRecOn (motive := fun d : SealedFileCache =>
      d.epochs.lookup e = c.epochs.lookup e) _ _ rfl ?_
    intro d hd f _
    exact (hstep d f).trans hd
  have hsettle : ∀ (d : SealedFileCache) refs,
      (d.settleEpoch epoch refs).epochs.lookup e = d.epochs.lookup e := by
    intro d refs
    rw [SealedFileCache.settleEpoch]
    split
    · exact (lookup_erase_eq _ _ _).trans (if_neg he)
    · rfl
  rw [SealedFileCache.releaseEpoch, SealedFileCache.releaseGens]
  split
  · rfl
  · split
    · rfl
    · exact (hsettle _ _).trans (hloop _)

theorem dropSkipped_spec (se : SealedEpoch) (gens : List FileId) :
    (SealedFileCache.dropSkipped se gens).tableVersion = se.tableVersion ∧
      (SealedFileCache.dropSkipped se gens).gens = se.gens.filter fun f => f ∉ gens := by
  refine List.foldlRecOn (motive := fun d : SealedEpoch => d.tableVersion = se.tableVersion ∧
    d.gens = se.gens.filter fun f => f ∉ gens) _ _ ⟨rfl, rfl⟩ ?_
  intro d hd f _
  split
  · exact hd
  · exact hd

theorem mem_emplaceAll {set more : List FileId} {f : FileId} :
    f ∈ emplaceAll set more ↔ f ∈ set ∨ f ∈ more := by
  rw [emplaceAll]
  induction more generalizing set with
  | nil => simp
  | cons g more ih =>
    rw [List.foldl_cons, ih]
    split
    next hg =>
      rw [List.mem_cons]
      constructor
      · rintro (h | h)
        · exact .inl h
        · exact .inr (.inr h)
      · rintro (h | rfl | h)
        · exact .inl h
        · exact .inl hg
        · exact .inr h
    next => rw [List.mem_append, List.mem_singleton, List.mem_cons, or_assoc]

/-- The entries after a hand-off: that of the epoch is without the generations, or gone. -/
theorem epochs_handOff (c : SealedFileCache) (epoch : ℕ) (gens : List FileId)
    (partBytes : Map ℕ ℕ) :
    let kept := (c.epochs.lookup epoch).elim c.epochs fun e =>
      c.epochs.insert epoch (SealedFileCache.dropSkipped e gens)
    (c.handOffSkippedToRecovery epoch gens partBytes).epochs = kept ∨
      (c.handOffSkippedToRecovery epoch gens partBytes).epochs = kept.erase epoch := by
  intro kept
  have hkept : kept = (c.epochs.lookup epoch).elim c.epochs fun e =>
      c.epochs.insert epoch (SealedFileCache.dropSkipped e gens) := rfl
  rw [SealedFileCache.handOffSkippedToRecovery]
  dsimp only
  cases he : c.epochs.lookup epoch with
  | none =>
    rw [he] at hkept
    split
    · exact .inl hkept.symm
    · rw [SealedFileCache.settleEpoch]
      split
      · exact .inr (congrArg (AList.erase epoch) hkept.symm)
      · exact .inl hkept.symm
  | some e =>
    rw [he] at hkept
    split
    · exact .inl hkept.symm
    · rw [SealedFileCache.settleEpoch]
      split
      · exact .inr (congrArg (AList.erase epoch) hkept.symm)
      · exact .inl hkept.symm

theorem lookup_handOff {c : SealedFileCache} {epoch e : ℕ} {gens : List FileId} {partBytes : Map ℕ ℕ}
    {se' : SealedEpoch}
    (h : (c.handOffSkippedToRecovery epoch gens partBytes).epochs.lookup e = some se') :
    c.epochs.lookup e = some se' ∧ e ≠ epoch ∨
      ∃ se, c.epochs.lookup e = some se ∧ se' = SealedFileCache.dropSkipped se gens ∧ e = epoch := by
  have hkept : ∀ se', ((c.epochs.lookup epoch).elim c.epochs fun e =>
      c.epochs.insert epoch (SealedFileCache.dropSkipped e gens)).lookup e = some se' →
      c.epochs.lookup e = some se' ∧ e ≠ epoch ∨
        ∃ se, c.epochs.lookup e = some se ∧ se' = SealedFileCache.dropSkipped se gens ∧ e = epoch := by
    intro se' h
    cases he : c.epochs.lookup epoch with
    | none =>
      rw [he] at h
      refine .inl ⟨h, ?_⟩
      rintro rfl
      exact nomatch he.symm.trans h
    | some se =>
      rw [he, Option.elim_some, lookup_insert_eq] at h
      split at h
      · next heq =>
        cases h
        exact .inr ⟨se, heq ▸ he, rfl, heq⟩
      · next hne => exact .inl ⟨h, hne⟩
  rcases epochs_handOff c epoch gens partBytes with heq | heq
  · exact hkept se' (heq ▸ h)
  · rw [heq, lookup_erase_eq] at h
    split at h
    · cases h
    · exact hkept se' h

/-- A hand-off takes the generations from the epoch into the waiting set. -/
theorem handOff_spec (c : SealedFileCache) (epoch : ℕ) (gens : List FileId) (partBytes : Map ℕ ℕ) :
    Shrinks c (c.handOffSkippedToRecovery epoch gens partBytes) ∧
      (c.handOffSkippedToRecovery epoch gens partBytes).recoveryGens = c.recoveryGens ∧
      (c.handOffSkippedToRecovery epoch gens partBytes).skipGens = emplaceAll c.skipGens gens := by
  constructor
  · intro e se' hse
    rcases lookup_handOff hse with ⟨hsame, -⟩ | ⟨se, hold, rfl, -⟩
    · exact ⟨se', hsame, rfl, List.Subset.refl _⟩
    · obtain ⟨hversion, hgens⟩ := dropSkipped_spec se gens
      refine ⟨se, hold, hversion, ?_⟩
      rw [hgens]
      exact List.filter_subset_self _
  · rw [SealedFileCache.handOffSkippedToRecovery]
    dsimp only
    cases c.epochs.lookup epoch with
    | none =>
      split
      · exact ⟨rfl, rfl⟩
      · rw [SealedFileCache.settleEpoch]
        split
        · exact ⟨rfl, rfl⟩
        · exact ⟨rfl, rfl⟩
    | some e =>
      split
      · exact ⟨rfl, rfl⟩
      · rw [SealedFileCache.settleEpoch]
        split
        · exact ⟨rfl, rfl⟩
        · exact ⟨rfl, rfl⟩

/-- A new epoch takes its own generations and those that were waiting. -/
theorem addEpoch_spec {c : SealedFileCache} {se : SealedEpoch}
    (hnew : c.epochs.lookup se.epoch = none) :
    ∃ merged, (c.addEpochWithRecoveryAdoption se).epochs = c.epochs.insert se.epoch merged ∧
      merged.tableVersion = se.tableVersion ∧
      (∀ f, f ∈ merged.gens ↔ f ∈ se.gens ∨ f ∈ c.recoveryGens ∨ f ∈ c.skipGens) ∧
      (c.addEpochWithRecoveryAdoption se).recoveryGens = [] ∧
      (c.addEpochWithRecoveryAdoption se).skipGens = [] := by
  have hrec : ∀ f, f ∈ (c.adoptRecovery se).gens ↔ f ∈ se.gens ∨ f ∈ c.recoveryGens := by
    rw [SealedFileCache.adoptRecovery]
    split
    next hnil => simp [hnil]
    next => exact fun f => List.mem_append
  have hskip : ∀ d : SealedEpoch, ∀ f, f ∈ (c.adoptSkips d).gens ↔ f ∈ d.gens ∨ f ∈ c.skipGens := by
    intro d
    rw [SealedFileCache.adoptSkips]
    split
    next hnil => simp [hnil]
    next => exact fun f => List.mem_append
  rw [SealedFileCache.addEpochWithRecoveryAdoption, hnew]
  refine ⟨c.adoptSkips (c.adoptRecovery se), ?_, by simp, ?_, rfl, rfl⟩
  · simp only [SealedFileCache.epoch_adoptSkips, SealedFileCache.epoch_adoptRecovery]
  · intro f
    rw [hskip, hrec, or_assoc]

/-- The part of a freeze that concerns the WAL and the epoch. -/
def sealWal (acc : PartitionedWalManager × SealedEpoch) (p : ℕ) :
    PartitionedWalManager × SealedEpoch :=
  let done := acc.1.freeze p
  (done.2, ZeroFlushContext.registerGen acc.2 p (done.1.getD ⟨0, 0, (p, 0)⟩))

theorem freezeBatchLoop_eq (ps : List ℕ) (ctx : ZeroFlushContext) (se : SealedEpoch) :
    ((ps.foldl ZeroFlushContext.freezeBatchStep (ctx, se)).1.wal,
      (ps.foldl ZeroFlushContext.freezeBatchStep (ctx, se)).2) = ps.foldl sealWal (ctx.wal, se) := by
  induction ps generalizing ctx se with
  | nil => rfl
  | cons p ps ih => exact ih _ _

theorem sealLoop_eq (ps : List ℕ) (ctx : ZeroFlushContext) (se : SealedEpoch) :
    ((ps.foldl ZeroFlushContext.sealStep (ctx, se)).1.wal,
      (ps.foldl ZeroFlushContext.sealStep (ctx, se)).2) = ps.foldl sealWal (ctx.wal, se) := by
  induction ps generalizing ctx se with
  | nil => rfl
  | cons p ps ih => exact ih _ _

/-- The parts of a context that the loops of a freeze leave alone. -/
structure SameRest (a b : ZeroFlushContext) : Prop where
  zfo_eq : b.zfo = a.zfo
  ucmp_eq : b.ucmp = a.ucmp
  tables_eq : b.tables = a.tables
  sealedCache_eq : b.sealedCache = a.sealedCache
  sampler_eq : b.sampler = a.sampler
  epochCounter_eq : b.epochCounter = a.epochCounter

theorem sameRest_freezeBatchLoop (ps : List ℕ) (ctx : ZeroFlushContext) (se : SealedEpoch) :
    SameRest ctx (ps.foldl ZeroFlushContext.freezeBatchStep (ctx, se)).1 := by
  refine List.foldlRecOn (motive := fun acc : ZeroFlushContext × SealedEpoch => SameRest ctx acc.1)
    _ _ ⟨rfl, rfl, rfl, rfl, rfl, rfl⟩ ?_
  intro acc h p _
  exact ⟨h.zfo_eq, h.ucmp_eq, h.tables_eq, h.sealedCache_eq, h.sampler_eq, h.epochCounter_eq⟩

theorem sameRest_sealLoop (ps : List ℕ) (ctx : ZeroFlushContext) (se : SealedEpoch) :
    SameRest ctx (ps.foldl ZeroFlushContext.sealStep (ctx, se)).1 := by
  refine List.foldlRecOn (motive := fun acc : ZeroFlushContext × SealedEpoch => SameRest ctx acc.1)
    _ _ ⟨rfl, rfl, rfl, rfl, rfl, rfl⟩ ?_
  intro acc h p _
  exact ⟨h.zfo_eq, h.ucmp_eq, h.tables_eq, h.sealedCache_eq, h.sampler_eq, h.epochCounter_eq⟩

theorem sameRest_freezeIndexes (gens : List FileId) (ctx : ZeroFlushContext) :
    SameRest ctx (ctx.freezeIndexes gens) := by
  refine List.foldlRecOn (motive := fun c : ZeroFlushContext => SameRest ctx c)
    _ _ ⟨rfl, rfl, rfl, rfl, rfl, rfl⟩ ?_
  intro c h f _
  exact ⟨h.zfo_eq, h.ucmp_eq, h.tables_eq, h.sealedCache_eq, h.sampler_eq, h.epochCounter_eq⟩

theorem SameRest.trans {a b c : ZeroFlushContext} (h : SameRest a b) (h' : SameRest b c) :
    SameRest a c :=
  ⟨h'.zfo_eq.trans h.zfo_eq, h'.ucmp_eq.trans h.ucmp_eq, h'.tables_eq.trans h.tables_eq,
    h'.sealedCache_eq.trans h.sealedCache_eq, h'.sampler_eq.trans h.sampler_eq,
    h'.epochCounter_eq.trans h.epochCounter_eq⟩

theorem sameRest_replay (files : List FileId) (ctx : ZeroFlushContext) :
    SameRest ctx (files.foldl ZeroFlushContext.replayFile ctx) := by
  have hfile : ∀ (c : ZeroFlushContext) f, SameRest c (c.replayFile f) := by
    intro c f
    refine List.foldlRecOn (motive := fun d : ZeroFlushContext => SameRest c d)
      _ _ ⟨rfl, rfl, rfl, rfl, rfl, rfl⟩ ?_
    intro d h r _
    exact ⟨h.zfo_eq, h.ucmp_eq, h.tables_eq, h.sealedCache_eq, h.sampler_eq, h.epochCounter_eq⟩
  refine List.foldlRecOn (motive := fun d : ZeroFlushContext => SameRest ctx d)
    _ _ ⟨rfl, rfl, rfl, rfl, rfl, rfl⟩ ?_
  intro d h f _
  exact h.trans (hfile d f)

/-- `Recover` keeps the tables and the epochs; the orphans wait for the next epoch. -/
theorem recover_spec (ctx : ZeroFlushContext) :
    ctx.recover.tables = ctx.tables ∧ ctx.recover.epochCounter = ctx.epochCounter ∧
      ctx.recover.sealedCache.epochs = ctx.sealedCache.epochs ∧
      (∀ f, f ∈ ctx.recover.sealedCache.recoveryGens ↔
        f ∈ ctx.sealedCache.recoveryGens ∨ f ∈ ctx.orphans) ∧
      ctx.recover.sealedCache.skipGens = ctx.sealedCache.skipGens := by
  rw [ZeroFlushContext.recover]
  split
  next hnil =>
    have h := sameRest_replay (ZeroFlushContext.replayOrder ctx.wal.env) ctx.ensureActives
    rw [h.sealedCache_eq]
    refine ⟨h.tables_eq, h.epochCounter_eq, rfl, ?_, rfl⟩
    intro f
    rw [hnil]
    exact (or_iff_left List.not_mem_nil).symm
  next =>
    have h := fun c => sameRest_replay (ZeroFlushContext.replayOrder ctx.wal.env)
      (ZeroFlushContext.ensureActives { ctx with sealedCache := c })
    rw [(h _).sealedCache_eq]
    exact ⟨(h _).tables_eq, (h _).epochCounter_eq, rfl, fun f => mem_emplaceAll, rfl⟩

/-- The table a seal installs does not depend on what the loops change. -/
theorem SameRest.sealTable_eq {a b : ZeroFlushContext} (h : SameRest a b) (epoch : ℕ)
    (l1 : List L1File) : b.sealTable epoch l1 = a.sealTable epoch l1 := by
  rw [ZeroFlushContext.sealTable, ZeroFlushContext.sealTable, ZeroFlushContext.learnedTable,
    ZeroFlushContext.learnedTable, h.zfo_eq, h.ucmp_eq, h.tables_eq, h.sampler_eq]

/-- What freezing a list of partitions seals. -/
structure Seals (m m' : PartitionedWalManager) (ps : List ℕ) (se se' : SealedEpoch) : Prop where
  epoch_eq : se'.epoch = se.epoch
  tableVersion_eq : se'.tableVersion = se.tableVersion
  gens : ∀ f ∈ se'.gens, f ∈ se.gens ∨
    m.hasPartition f.1 = true ∧ m.activeGen f.1 ≤ f.2 ∧ f.2 < m'.activeGen f.1
  le : ∀ i, m.activeGen i ≤ m'.activeGen i
  lt : ∀ i ∈ ps, m.hasPartition i = true → m.activeGen i < m'.activeGen i
  other : ∀ i, i ∉ ps → m'.activeGen i = m.activeGen i
  hasPartition_eq : ∀ i, m'.hasPartition i = m.hasPartition i

theorem registerGen_spec (se : SealedEpoch) (p : ℕ) (fr : FreezeResult) :
    (ZeroFlushContext.registerGen se p fr).epoch = se.epoch ∧
      (ZeroFlushContext.registerGen se p fr).tableVersion = se.tableVersion ∧
      ∀ f ∈ (ZeroFlushContext.registerGen se p fr).gens, f ∈ se.gens ∨ f = (p, fr.oldGen) ∧ 0 < fr.sealedBytes := by
  rw [ZeroFlushContext.registerGen]
  split
  next hpos =>
    refine ⟨rfl, rfl, ?_⟩
    intro f hf
    rw [List.mem_append, List.mem_singleton] at hf
    exact hf.imp_right fun h => ⟨h, hpos⟩
  next => exact ⟨rfl, rfl, fun f hf => .inl hf⟩

/-- The result `wal_->Freeze` gives. -/
theorem freeze_result (m : PartitionedWalManager) (p : ℕ) :
    ((m.freeze p).1.getD ⟨0, 0, (p, 0)⟩).oldGen = m.activeGen p ∧
      (0 < ((m.freeze p).1.getD ⟨0, 0, (p, 0)⟩).sealedBytes → m.hasPartition p = true) := by
  cases hp : m.parts.lookup p with
  | none =>
    rw [WalLogs.freeze_of_lookup_none hp]
    simp [PartitionedWalManager.activeGen, hp]
  | some q =>
    obtain ⟨-, -, -, -, hres⟩ := freeze_parts m hp
    rw [hres]
    exact ⟨by simp [PartitionedWalManager.activeGen, hp], fun _ => hasPartition_iff.mpr ⟨q, hp⟩⟩

/-- One freeze uses up one of the generation numbers that are left. -/
theorem noWrap_freeze {p : ℕ} {ps : List ℕ} {m : PartitionedWalManager}
    (hwrap : ∀ q ∈ p :: ps, m.activeGen q + (p :: ps).length < 2 ^ 32) :
    m.activeGen p + 1 < 2 ^ 32 ∧
      ∀ q ∈ ps, (m.freeze p).2.activeGen q + ps.length < 2 ^ 32 := by
  have hp := hwrap p List.mem_cons_self
  rw [List.length_cons] at hp
  refine ⟨by omega, ?_⟩
  intro q hq
  have hq' := hwrap q (List.mem_cons_of_mem _ hq)
  rw [List.length_cons] at hq'
  rw [activeGen_freeze, Nat.mod_eq_of_lt (by omega : m.activeGen p + 1 < 2 ^ 32)]
  split <;> omega

theorem seals_loop {ps : List ℕ} {m : PartitionedWalManager} {se : SealedEpoch}
    (hwrap : ∀ p ∈ ps, m.activeGen p + ps.length < 2 ^ 32) :
    Seals m (ps.foldl sealWal (m, se)).1 ps se (ps.foldl sealWal (m, se)).2 := by
  induction ps generalizing m se with
  | nil =>
    exact ⟨rfl, rfl, fun f hf => .inl hf, fun _ => le_rfl, fun i hi => absurd hi List.not_mem_nil,
      fun _ _ => rfl, fun _ => rfl⟩
  | cons p ps ih =>
    obtain ⟨hp, hwrap'⟩ := noWrap_freeze hwrap
    have hgen : ∀ i, (m.freeze p).2.activeGen i =
        if i = p ∧ m.hasPartition p = true then m.activeGen p + 1 else m.activeGen i := by
      intro i
      rw [activeGen_freeze, Nat.mod_eq_of_lt hp]
    have hle : ∀ i, m.activeGen i ≤ (m.freeze p).2.activeGen i := by
      intro i
      rw [hgen]
      split
      next h =>
        rw [h.1]
        omega
      next => exact le_rfl
    obtain ⟨hold, hbytes⟩ := freeze_result m p
    have hreg := registerGen_spec se p ((m.freeze p).1.getD ⟨0, 0, (p, 0)⟩)
    have hrest := @ih (m.freeze p).2
      (ZeroFlushContext.registerGen se p ((m.freeze p).1.getD ⟨0, 0, (p, 0)⟩)) hwrap'
    rw [List.foldl_cons, sealWal]
    refine ⟨hrest.epoch_eq.trans hreg.1, hrest.tableVersion_eq.trans hreg.2.1, ?_, ?_, ?_, ?_, ?_⟩
    · intro f hf
      obtain hf | ⟨hhas, hge, hlt⟩ := hrest.gens f hf
      · obtain hf | ⟨rfl, hpos⟩ := hreg.2.2 f hf
        · exact .inl hf
        · -- the generation that was active before the freeze
          have hhas := hbytes hpos
          refine .inr ⟨hhas, hold.ge, ?_⟩
          have hnext := hrest.le p
          rw [hgen, if_pos ⟨rfl, hhas⟩] at hnext
          dsimp only
          rw [hold]
          exact hnext
      · rw [hasPartition_freeze] at hhas
        exact .inr ⟨hhas, (hle f.1).trans hge, hlt⟩
    · exact fun i => (hle i).trans (hrest.le i)
    · intro i hi hhas
      cases List.mem_cons.mp hi with
      | inl he =>
        subst he
        have hnext := hrest.le i
        rw [hgen, if_pos ⟨rfl, hhas⟩] at hnext
        exact hnext
      | inr hi =>
        have hlt := hrest.lt i hi (by rwa [hasPartition_freeze])
        exact (hle i).trans_lt hlt
    · intro i hi
      rw [hrest.other i (fun h => hi (List.mem_cons_of_mem _ h)), hgen, if_neg]
      rintro ⟨rfl, -⟩
      exact hi List.mem_cons_self
    · intro i
      rw [hrest.hasPartition_eq, hasPartition_freeze]

/-- A partition with bytes has its active generation registered when it is frozen. -/
theorem mem_sealed {ps : List ℕ} {m : PartitionedWalManager} {se : SealedEpoch} {p : ℕ}
    (hp : p ∈ ps) (hhas : m.hasPartition p = true) (hsize : 0 < m.activeSize p) :
    (p, m.activeGen p) ∈ (ps.foldl sealWal (m, se)).2.gens := by
  have hmono : ∀ (qs : List ℕ) (m : PartitionedWalManager) (se : SealedEpoch),
      se.gens ⊆ (qs.foldl sealWal (m, se)).2.gens := by
    intro qs
    induction qs with
    | nil => exact fun m se => List.Subset.refl _
    | cons q qs ih =>
      intro m se
      refine List.Subset.trans ?_ (ih _ _)
      show se.gens ⊆ (ZeroFlushContext.registerGen se q _).gens
      rw [ZeroFlushContext.registerGen]
      split
      · exact List.subset_append_left _ _
      · exact List.Subset.refl _
  induction ps generalizing m se with
  | nil => cases hp
  | cons q ps ih =>
    rw [List.foldl_cons]
    cases eq_or_ne p q with
    | inl he =>
      subst he
      apply hmono
      obtain ⟨x, hx⟩ := hasPartition_iff.mp hhas
      obtain ⟨-, -, -, -, hres⟩ := freeze_parts m hx
      have hactive : m.activeGen p = x.gen := by simp [PartitionedWalManager.activeGen, hx]
      have htotal : m.activeSize p = x.totalSize := by simp [PartitionedWalManager.activeSize, hx]
      show _ ∈ (ZeroFlushContext.registerGen se p ((m.freeze p).1.getD ⟨0, 0, (p, 0)⟩)).gens
      rw [hres, ZeroFlushContext.registerGen, hactive]
      dsimp only [Option.getD_some]
      rw [if_pos (htotal ▸ hsize)]
      simp
    | inr he =>
      have hgen : (m.freeze q).2.activeGen p = m.activeGen p := by
        rw [activeGen_freeze, if_neg fun h => he h.1]
      have hrest := @ih (m.freeze q).2 (ZeroFlushContext.registerGen se q
        ((m.freeze q).1.getD ⟨0, 0, (q, 0)⟩)) (List.mem_of_ne_of_mem he hp)
        (by rw [hasPartition_freeze]; exact hhas) (by rw [activeSize_freeze m he]; exact hsize)
      rw [hgen] at hrest
      exact hrest

/-- Index freezes, one after the other. -/
def freezeIndexLoop (s : PartitionIndexSet) (fs : List (ℕ × ℕ)) : PartitionIndexSet :=
  fs.foldl (fun s f => s.freeze f.1 f.2) s

/-- The generations the indexes go on with when `FreezeBatchPartitions` freezes a batch. -/
def nextIndexes (m : PartitionedWalManager) : List ℕ → List (ℕ × ℕ)
  | [] => []
  | p :: ps =>
    (p, (((m.freeze p).1.getD ⟨0, 0, (p, 0)⟩).oldGen + 1) % 2 ^ 32) :: nextIndexes (m.freeze p).2 ps

/-- What all freezes have in common: `ps` are the partitions whose WAL is frozen, `fs` the index
freezes and `t` the table that is installed. -/
structure SealedBy (ctx ctx' : ZeroFlushContext) (ps : List ℕ) (fs : List (ℕ × ℕ))
    (t : Option PartitionTable) : Prop where
  wal_eq : ctx'.wal = (ps.foldl sealWal (ctx.wal, ctx.nextEpoch.2)).1.clearOverTargetFlag
  cache_eq : ctx'.sealedCache = ctx.sealedCache.addEpochWithRecoveryAdoption
    (ps.foldl sealWal (ctx.wal, ctx.nextEpoch.2)).2
  counter_eq : ctx'.epochCounter = ctx.epochCounter + 1
  index_eq : ctx'.indexSet = freezeIndexLoop ctx.indexSet fs
  tables_eq : ctx'.tables = (ctx.installTable t).tables
  ucmp_eq : ctx'.ucmp = ctx.ucmp
  zfo_eq : ctx'.zfo = ctx.zfo

theorem map_fst_nextIndexes (m : PartitionedWalManager) (ps : List ℕ) :
    (nextIndexes m ps).map Prod.fst = ps := by
  induction ps generalizing m with
  | nil => rfl
  | cons p ps ih => rw [nextIndexes, List.map_cons, ih]

theorem indexSet_freezeBatchLoop (ps : List ℕ) (ctx : ZeroFlushContext) (se : SealedEpoch) :
    (ps.foldl ZeroFlushContext.freezeBatchStep (ctx, se)).1.indexSet =
      freezeIndexLoop ctx.indexSet (nextIndexes ctx.wal ps) := by
  induction ps generalizing ctx se with
  | nil => rfl
  | cons p ps ih => exact ih _ _

theorem indexSet_sealLoop (ps : List ℕ) (ctx : ZeroFlushContext) (se : SealedEpoch) :
    (ps.foldl ZeroFlushContext.sealStep (ctx, se)).1.indexSet = ctx.indexSet := by
  induction ps generalizing ctx se with
  | nil => rfl
  | cons p ps ih => exact ih _ _

theorem indexSet_freezeIndexes (gens : List FileId) (ctx : ZeroFlushContext) :
    (ctx.freezeIndexes gens).indexSet =
      freezeIndexLoop ctx.indexSet (gens.map fun f => (f.1, (f.2 + 1) % 2 ^ 32)) := by
  induction gens generalizing ctx with
  | nil => rfl
  | cons f gens ih => exact ih (ctx.freezeIndex f.1 ((f.2 + 1) % 2 ^ 32))

/-- Installing a table changes the tables only. -/
theorem installTable_eq (ctx : ZeroFlushContext) (t : Option PartitionTable) :
    ctx.installTable t = { ctx with tables := (ctx.installTable t).tables } := by
  cases t <;> rfl

theorem sealedBy_freezeBatch {ctx : ZeroFlushContext} (l1 : List L1File)
    (hb : ctx.chooseBatch ≠ []) :
    SealedBy ctx (ctx.freezeBatchPartitions l1) ctx.chooseBatch
      (nextIndexes ctx.wal ctx.chooseBatch)
      (ctx.nextEpoch.1.batchTable ctx.nextEpoch.2.epoch l1) := by
  obtain ⟨p, ps, hps⟩ := List.exists_cons_of_ne_nil hb
  have hctx : ctx.freezeBatchPartitions l1 =
      (ctx.chooseBatch.foldl ZeroFlushContext.freezeBatchStep (ctx.nextEpoch.1.installTable
        (ctx.nextEpoch.1.batchTable ctx.nextEpoch.2.epoch l1), ctx.nextEpoch.2)).1.finishSeal
      (ctx.chooseBatch.foldl ZeroFlushContext.freezeBatchStep (ctx.nextEpoch.1.installTable
        (ctx.nextEpoch.1.batchTable ctx.nextEpoch.2.epoch l1), ctx.nextEpoch.2)).2 := by
    rw [ZeroFlushContext.freezeBatchPartitions, hps]
  generalize ctx.nextEpoch.1.batchTable ctx.nextEpoch.2.epoch l1 = t at hctx ⊢
  have hrest := sameRest_freezeBatchLoop ctx.chooseBatch (ctx.nextEpoch.1.installTable t)
    ctx.nextEpoch.2
  have hloop := freezeBatchLoop_eq ctx.chooseBatch (ctx.nextEpoch.1.installTable t) ctx.nextEpoch.2
  have hindex := indexSet_freezeBatchLoop ctx.chooseBatch (ctx.nextEpoch.1.installTable t)
    ctx.nextEpoch.2
  have hstart : (ctx.nextEpoch.1.installTable t).wal = ctx.wal ∧
      (ctx.nextEpoch.1.installTable t).indexSet = ctx.indexSet ∧
      (ctx.nextEpoch.1.installTable t).sealedCache = ctx.sealedCache ∧
      (ctx.nextEpoch.1.installTable t).epochCounter = ctx.epochCounter + 1 ∧
      (ctx.nextEpoch.1.installTable t).tables = (ctx.installTable t).tables ∧
      (ctx.nextEpoch.1.installTable t).ucmp = ctx.ucmp ∧
      (ctx.nextEpoch.1.installTable t).zfo = ctx.zfo := by
    cases t <;> exact ⟨rfl, rfl, rfl, rfl, rfl, rfl, rfl⟩
  obtain ⟨hwal, hidx, hcache, hcount, htables, hucmp, hzfo⟩ := hstart
  rw [hwal] at hloop hindex
  rw [hidx] at hindex
  have hsealed := congrArg Prod.snd hloop
  dsimp only at hsealed
  rw [hctx, ZeroFlushContext.finishSeal, hsealed]
  refine ⟨?_, ?_, ?_, hindex, ?_, ?_, ?_⟩
  · exact congrArg (fun x => x.1.clearOverTargetFlag) hloop
  · exact congrArg (fun c : SealedFileCache => c.addEpochWithRecoveryAdoption _)
      (hrest.sealedCache_eq.trans hcache)
  · exact hrest.epochCounter_eq.trans hcount
  · exact hrest.tables_eq.trans htables
  · exact hrest.ucmp_eq.trans hucmp
  · exact hrest.zfo_eq.trans hzfo

theorem sealedBy_freezeOne {ctx : ZeroFlushContext} {target : ℕ} (hc : ctx.chooseOne = some target) :
    ∃ gen, SealedBy ctx ctx.freezeOnePartition [target] [(target, gen)] none := by
  rw [ZeroFlushContext.freezeOnePartition, hc]
  exact ⟨_, rfl, rfl, rfl, rfl, rfl, rfl, rfl⟩

theorem sealedBy_sealEpoch (ctx : ZeroFlushContext) (l1 : List L1File) :
    SealedBy ctx (ctx.sealEpochAndSwitch l1) ctx.tables.current.partIds
      ((ctx.tables.current.partIds.foldl sealWal (ctx.wal, ctx.nextEpoch.2)).2.gens.map
        fun f => (f.1, (f.2 + 1) % 2 ^ 32))
      (ctx.nextEpoch.1.sealTable
        (ctx.tables.current.partIds.foldl sealWal (ctx.wal, ctx.nextEpoch.2)).2.epoch l1) := by
  have hloop := sealLoop_eq ctx.tables.current.partIds ctx.nextEpoch.1 ctx.nextEpoch.2
  have hindex := indexSet_sealLoop ctx.tables.current.partIds ctx.nextEpoch.1 ctx.nextEpoch.2
  have hrest := sameRest_sealLoop ctx.tables.current.partIds ctx.nextEpoch.1 ctx.nextEpoch.2
  rw [ZeroFlushContext.sealEpochAndSwitch]
  generalize hdone : ctx.tables.current.partIds.foldl ZeroFlushContext.sealStep ctx.nextEpoch = done
  have hdone' : ctx.tables.current.partIds.foldl ZeroFlushContext.sealStep
    (ctx.nextEpoch.1, ctx.nextEpoch.2) = done := hdone
  rw [hdone'] at hloop hindex hrest
  have hwal : ctx.nextEpoch.1.wal = ctx.wal := rfl
  rw [hwal] at hloop
  rw [← hloop]
  have hall := hrest.trans (sameRest_freezeIndexes done.2.gens done.1)
  dsimp only
  rw [hall.sealTable_eq]
  generalize ctx.nextEpoch.1.sealTable done.2.epoch l1 = t
  rw [installTable_eq, ZeroFlushContext.finishSeal]
  refine ⟨?_, ?_, hall.epochCounter_eq, ?_, ?_, hall.ucmp_eq, hall.zfo_eq⟩
  · dsimp only
    rw [wal_freezeIndexes, ← hloop]
  · dsimp only
    rw [hall.sealedCache_eq, ← hloop]
    rfl
  · dsimp only
    rw [indexSet_freezeIndexes, hindex]
    rfl
  · cases t with
    | none => exact hall.tables_eq
    | some t => exact congrArg (PartitionTableSet.installNewVersion · t) hall.tables_eq

end ZeroFlush.SealedEpochs
