import ZeroFlush.FailedFlushes
import ZeroFlush.GenerationLedger

/-! # How often a generation is skipped

A partition of which one generation is pending may be skipped; the next epoch adopts the generation,
and two pending generations are materialized. Waiting for shallower files is not bound to that. -/
namespace ZeroFlush.BoundedSkips
open FixedWidthCodec FiniteMaps UserKeys WalFormat WalFiles PartitionTables SealedFiles SealedEpochs
  SealedOwnership TableFiles PartitionPlans Materialization FlushJobs FailedFlushes GenerationLedger
  GuardedRuns

/-- A `kSkip` decision of a job whose skipped generations were handed off. -/
structure Skip where
  mc : ZfMaterializeCtx
  job : Job
  plan : PartitionPlan

namespace Skip

/-- The decision leaves the generation out. -/
def leavesOut (k : Skip) (f : FileId) : Bool := decide (f ∈ k.job.se.gens) && f.1 == k.plan.partId

/-- Too few generations of the partition are pending to force its materialization. -/
def early (k : Skip) : Bool := decide (pendingGenCount k.job.se k.plan.partId < kMaxSkipGenerations)

/-- A file above the base level meets the partition, and not too many skipped bytes are waiting. -/
def Waits (k : Skip) : Prop :=
  (∃ busy, scanUpper k.mc.ucmp k.plan.lo k.plan.hi busy k.mc.upperFiles [] ≠ ([], false)) ∧
    k.mc.skippedBytes < k.mc.zfo.partitionTargetBytes * 32

end Skip

/-- The jobs of a flush whose skipped generations are handed off: all of them, or none after an early
failure. -/
def handedOff (mc : ZfMaterializeCtx) (st : FlushState) (mems : List ℕ) (world : FlushWorld) :
    List Job :=
  match planEpochs mc st st.picker mems, world.tasks with
  | (jobs, _, none), .ok _ => jobs
  | _, _ => []

def skipsOf (mc : ZfMaterializeCtx) (job : Job) : List Skip :=
  (job.plans.filter (·.decision = .kSkip)).map fun plan => ⟨mc, job, plan⟩

/-- The cache with all `kSkip` decisions so far. -/
structure SkipHistory where
  ledger : Ledger
  skips : List Skip := []

inductive HistoryOp
  | addRecoveryGens (gens : List FileId) (totalBytes : ℕ)
  | sealEpoch (e : SealedEpoch)
  | flush (mc : ZfMaterializeCtx) (tables : PartitionTableSet) (picker : CompactionPicker)
      (mems : List ℕ) (world : FlushWorld)
  | releaseEpoch (epoch : ℕ)
  | purgePending

namespace SkipHistory

def start (env : Env) (reclaimEnabled : Bool) : SkipHistory := ⟨.start env reclaimEnabled, []⟩

/-- What a flush finds when it begins. -/
def flushState (s : SkipHistory) (tables : PartitionTableSet) (picker : CompactionPicker) :
    FlushState :=
  { sealedCache := s.ledger.cache, tables := tables, picker := picker }

def step (s : SkipHistory) : HistoryOp → SkipHistory
  | .addRecoveryGens gens totalBytes =>
    { s with ledger := s.ledger.step (.addRecoveryGens gens totalBytes) }
  | .sealEpoch e => { s with ledger := s.ledger.step (.addEpochWithRecoveryAdoption e) }
  | .flush mc tables picker mems world =>
    let st := s.flushState tables picker
    { ledger := { s.ledger with cache := (FlushJobs.run mc st mems world).2.sealedCache }
      skips := s.skips ++ (handedOff mc st mems world).flatMap (skipsOf mc) }
  | .releaseEpoch epoch => { s with ledger := s.ledger.step (.releaseEpoch epoch) }
  | .purgePending => { s with ledger := s.ledger.step .purgePending }

/-- How many decisions have left the generation out. -/
def leftOut (s : SkipHistory) (f : FileId) : ℕ := s.skips.countP (·.leavesOut f)

/-- Those of them that were early. -/
def leftOutEarly (s : SkipHistory) (f : FileId) : ℕ :=
  s.skips.countP fun k => k.leavesOut f && k.early

end SkipHistory

/-- The protocol of the callers: a generation is sealed once, an epoch is registered once, and a flush
goes over different epochs. -/
def Permitted (s : SkipHistory) : HistoryOp → Prop
  | .addRecoveryGens gens totalBytes => Conforms s.ledger (.addRecoveryGens gens totalBytes)
  | .sealEpoch e => Conforms s.ledger (.addEpochWithRecoveryAdoption e)
  | .flush _ _ _ mems _ => mems.Nodup
  | .releaseEpoch _ | .purgePending => True

instance decidablePermitted (s : SkipHistory) : (op : HistoryOp) → Decidable (Permitted s op)
  | .addRecoveryGens gens totalBytes =>
    inferInstanceAs (Decidable (Conforms s.ledger (.addRecoveryGens gens totalBytes)))
  | .sealEpoch e => inferInstanceAs (Decidable (Conforms s.ledger (.addEpochWithRecoveryAdoption e)))
  | .flush _ _ _ mems _ => inferInstanceAs (Decidable mems.Nodup)
  | .releaseEpoch _ | .purgePending => .isTrue trivial

/-- An epoch that adopts the skipped generation holds enough generations of its partition. -/
def AdoptsTogether (f : FileId) (s : SkipHistory) : HistoryOp → Prop
  | .sealEpoch e => f ∈ s.ledger.cache.skipGens → kMaxSkipGenerations ≤
      pendingGenCount (s.ledger.cache.adoptSkips (s.ledger.cache.adoptRecovery e)) f.1
  | _ => True

instance decidableAdoptsTogether (f : FileId) (s : SkipHistory) :
    (op : HistoryOp) → Decidable (AdoptsTogether f s op)
  | .sealEpoch e => inferInstanceAs (Decidable (f ∈ s.ledger.cache.skipGens → kMaxSkipGenerations ≤
      pendingGenCount (s.ledger.cache.adoptSkips (s.ledger.cache.adoptRecovery e)) f.1))
  | .addRecoveryGens _ _ | .flush _ _ _ _ _ | .releaseEpoch _ | .purgePending => .isTrue trivial

def TogetherOk (f : FileId) (s : SkipHistory) (op : HistoryOp) : Prop :=
  Permitted s op ∧ AdoptsTogether f s op

instance (f : FileId) (s : SkipHistory) (op : HistoryOp) : Decidable (TogetherOk f s op) :=
  inferInstanceAs (Decidable (_ ∧ _))

/-! ## What a skip decision means -/

section Decisions

variable {mc : ZfMaterializeCtx} {se : SealedEpoch} {s : PlanState} {plan p : PartitionPlan}

theorem deferred_skip (hd : plan.decision ≠ .kSkip) (h : (mc.deferred se plan).decision = .kSkip) :
    pendingGenCount se plan.partId < kMaxSkipGenerations := by
  rw [ZfMaterializeCtx.deferred] at h
  split at h
  next hpend => exact hpend.2
  next => exact absurd h hd

theorem planUnmerged_skip {table : Option PartitionTable} {pid : ℕ}
    (h : (mc.planUnmerged se table s pid).decision = .kSkip) :
    pendingGenCount se pid < kMaxSkipGenerations := by
  simp only [ZfMaterializeCtx.planUnmerged] at h
  split at h
  next hpend => exact hpend.2.2
  next =>
    cases table with
    | none => cases h
    | some t =>
      dsimp only at h
      split at h
      · split at h <;> cases h
      · cases h

/-- Of the checks of the shallower files only the wait for them skips. -/
theorem planUpper_skip {overlap : List FileMetaData} {upper : List FileMetaData × Bool}
    (hp : mc.planUpper se [] plan overlap upper = .inl p) (h : p.decision = .kSkip) :
    upper ≠ ([], false) ∧ mc.skippedBytes < mc.zfo.partitionTargetBytes * 32 ∧ p.lo = plan.lo ∧
      p.hi = plan.hi := by
  have hbatch : mc.batchL0 [] plan.lo plan.hi = false := rfl
  rw [ZfMaterializeCtx.planUpper] at hp
  split at hp
  · dsimp only at hp
    rw [hbatch, if_neg Bool.false_ne_true] at hp
    generalize (if totalSize overlap > 0 then _ else _ : Bool) = below at hp
    cases below with
    | true =>
      cases hp
      cases h
    | false => cases hp
  · split at hp
    next hbusy =>
      cases hp
      rw [ZfMaterializeCtx.awaitUpper] at h ⊢
      split at h
      next hbytes =>
        rw [if_pos hbytes]
        refine ⟨fun heq => ?_, hbytes, rfl, rfl⟩
        rw [heq] at hbusy
        cases hbusy
      next => cases h
    next => cases hp

theorem planBase_skip {scan : Scan} (hd : plan.decision ≠ .kSkip)
    (hp : mc.planBase se [] s plan scan = .inl p) (h : p.decision = .kSkip) :
    pendingGenCount se plan.partId < kMaxSkipGenerations := by
  simp only [ZfMaterializeCtx.planBase] at hp
  split at hp
  · cases hp
    split at h
    · exact deferred_skip hd h
    · exact absurd h hd
  · split at hp
    · cases hp
      exact deferred_skip hd h
    · split at hp
      · cases hp
        exact deferred_skip hd h
      · split at hp
        · cases hp
          exact absurd h hd
        · cases hp

theorem register_skip {pid : ℕ} {lo hi : Bytes} (hm : Merges mc s pid lo hi p) :
    (mc.register [] s p).1.decision ≠ .kSkip := by
  have hd : p.decision = .kDirect := by rw [hm.plan_eq]
  rw [ZfMaterializeCtx.register]
  dsimp only
  split
  · show p.decision ≠ .kSkip
    rw [hd]
    decide
  · show MaterializeDecision.kMergeBase ≠ .kSkip
    decide

/-- The checks of a range skip a partition for one of the two reasons. -/
theorem planRange_skip {pid : ℕ} {lo hi : Bytes} (hp : mc.planRange se [] s pid lo hi = .inl p)
    (h : p.decision = .kSkip) :
    pendingGenCount se pid < kMaxSkipGenerations ∨
      (∃ busy, scanUpper mc.ucmp p.lo p.hi busy mc.upperFiles [] ≠ ([], false)) ∧
      mc.skippedBytes < mc.zfo.partitionTargetBytes * 32 := by
  rw [ZfMaterializeCtx.planRange] at hp
  split at hp
  · rcases hu : mc.planUpper se [] { partId := pid, lo := lo, hi := hi } _ _ with q | q
    · rw [hu] at hp
      cases hp
      obtain ⟨hne, hbytes, hlo, hhi⟩ := planUpper_skip hu h
      rw [hlo, hhi]
      exact .inr ⟨⟨_, hne⟩, hbytes⟩
    · have hq := @ZfMaterializeCtx.planUpper_cases mc se { partId := pid, lo := lo, hi := hi } pid
        ⟨rfl, by simp, rfl⟩ rfl (scanOverlap mc.ucmp lo hi s.picker.beingCompacted s.registered
          (mc.base.files mc.base.baseLevel) {}).overlap
        (scanUpper mc.ucmp lo hi s.picker.beingCompacted mc.upperFiles [])
      rw [hu] at hq hp
      obtain ⟨_, hl, -⟩ | hr := hq
      · cases hl
      · cases hr
        exact .inl (planBase_skip (by simp) hp h)
  · cases hp
    exact .inl (deferred_skip (by simp) h)

/-- A partition is skipped while too few of its generations are pending, or it waits for shallower
files. -/
theorem planPartition_skip {table : Option PartitionTable} {pid : ℕ}
    (h : (mc.planPartition se [] table s pid).1.decision = .kSkip) :
    pendingGenCount se pid < kMaxSkipGenerations ∨
      (∃ busy, scanUpper mc.ucmp (mc.planPartition se [] table s pid).1.lo
        (mc.planPartition se [] table s pid).1.hi busy mc.upperFiles [] ≠ ([], false)) ∧
      mc.skippedBytes < mc.zfo.partitionTargetBytes * 32 := by
  cases table with
  | none => exact .inl (planUnmerged_skip h)
  | some t =>
    cases hm : mc.mergeEnabled se (some t) with
    | false =>
      have heq : mc.planPartition se [] (some t) s pid = (mc.planUnmerged se (some t) s pid, s) := by
        rw [ZfMaterializeCtx.planPartition.eq_def, hm]
      rw [heq] at h
      exact .inl (planUnmerged_skip h)
    | true =>
      have heq := @ZfMaterializeCtx.planPartition_of_enabled mc se s t hm pid
      rw [heq] at h ⊢
      obtain ⟨p, hp, -⟩ | ⟨p, hp, hmerges⟩ := @ZfMaterializeCtx.planRange_cases mc se s pid
        (t.rangeOf pid).1 (t.rangeOf pid).2
      · rw [hp] at h ⊢
        exact planRange_skip hp h
      · rw [hp] at h
        exact absurd h (register_skip hmerges)

end Decisions

section Jobs

variable {mc : ZfMaterializeCtx} {job : Job} {f : FileId}

/-- The job plans what the cache has registered for its epoch. -/
structure Planned (mc : ZfMaterializeCtx) (c : SealedFileCache) (job : Job) : Prop where
  epoch : c.epochs.lookup job.epoch = some job.se
  plans : ∃ picker, job.plans = (mc.planLocked job.se [] job.table picker).1

theorem nodup_partIds (se : SealedEpoch) : (partIds se).Nodup :=
  (List.perm_insertionSort _ _).nodup_iff.mpr (List.nodup_dedup _)

theorem Planned.nodup {c : SealedFileCache} (h : Planned mc c job) :
    (job.plans.map PartitionPlan.partId).Nodup := by
  obtain ⟨picker, hplans⟩ := h.plans
  obtain ⟨hids, -⟩ := @ZfMaterializeCtx.planLoop_spec mc job.se job.table ⟨picker, []⟩ (partIds job.se)
  have heq : job.plans.map PartitionPlan.partId = partIds job.se := by
    rw [hplans]
    exact hids
  rw [heq]
  exact nodup_partIds job.se

theorem mem_skipsOf {k : Skip} : k ∈ skipsOf mc job ↔
    ∃ plan ∈ job.plans, plan.decision = .kSkip ∧ k = ⟨mc, job, plan⟩ := by
  simp only [skipsOf, List.mem_map, List.mem_filter, decide_eq_true_eq, and_assoc]
  exact exists_congr fun plan => and_congr_right fun _ => and_congr_right fun _ => eq_comm

/-- What a decision leaves out is handed off. -/
theorem mem_skippedGens_of_leavesOut {k : Skip} (hk : k ∈ skipsOf mc job)
    (hf : k.leavesOut f = true) : f ∈ skippedGens job.se job.plans ∧ f ∈ job.se.gens ∧
      k.early = decide (pendingGenCount job.se f.1 < kMaxSkipGenerations) := by
  obtain ⟨plan, hplan, hskip, rfl⟩ := mem_skipsOf.mp hk
  rw [Skip.leavesOut, Bool.and_eq_true, decide_eq_true_iff, beq_iff_eq] at hf
  refine ⟨mem_skippedGens.mpr ⟨plan, hplan, hskip, hf.1, hf.2⟩, hf.1, ?_⟩
  rw [Skip.early, hf.2]

/-- A job decides about a partition once. -/
theorem countP_skipsOf_le (hnodup : (job.plans.map PartitionPlan.partId).Nodup) :
    (skipsOf mc job).countP (fun k => k.leavesOut f && k.early) ≤ 1 := by
  calc (skipsOf mc job).countP (fun k => k.leavesOut f && k.early)
      ≤ (skipsOf mc job).countP (fun k => k.plan.partId == f.1) := by
        refine List.countP_mono_left fun k _ hk => ?_
        have hleaves := (Bool.and_eq_true_iff.mp hk).1
        rw [Skip.leavesOut, Bool.and_eq_true] at hleaves
        rw [beq_iff_eq]
        exact (beq_iff_eq.mp hleaves.2).symm
    _ = (job.plans.filter (·.decision = .kSkip)).countP (fun plan => plan.partId == f.1) := by
        rw [skipsOf, List.countP_map]
        rfl
    _ ≤ job.plans.countP (fun plan => plan.partId == f.1) := List.filter_sublist.countP_le
    _ = (job.plans.map PartitionPlan.partId).count f.1 := by
        rw [List.count, List.countP_map]
        rfl
    _ ≤ 1 := List.nodup_iff_count_le_one.mp hnodup f.1

/-- Every decision of a job has one of the two reasons. -/
theorem early_or_waits {c : SealedFileCache} (h : Planned mc c job) {k : Skip}
    (hk : k ∈ skipsOf mc job) : k.early = true ∨ k.Waits := by
  obtain ⟨plan, hplan, hskip, rfl⟩ := mem_skipsOf.mp hk
  obtain ⟨picker, hplans⟩ := h.plans
  rw [hplans] at hplan
  obtain ⟨s, pid, -, rfl⟩ := (ZfMaterializeCtx.planLoop_spec job.table ⟨picker, []⟩ _).2 plan hplan
  obtain hearly | hwaits := planPartition_skip hskip
  · left
    rw [Skip.early, decide_eq_true_iff, ZfMaterializeCtx.partId_planPartition]
    exact hearly
  · exact .inr hwaits

end Jobs

section HandOff

variable {c : SealedFileCache} {epoch e : ℕ} {gens : List FileId} {partBytes : Map ℕ ℕ}

theorem lookup_settleEpoch (c : SealedFileCache) (refs : Map FileId ℕ) :
    (c.settleEpoch epoch refs).epochs.lookup e = c.epochs.lookup e ∨
      e = epoch ∧ (c.settleEpoch epoch refs).epochs.lookup e = none := by
  rw [SealedFileCache.settleEpoch]
  split
  · dsimp only
    rw [lookup_erase_eq]
    split
    next he => exact .inr ⟨he, rfl⟩
    next => exact .inl rfl
  · exact .inl rfl

theorem lookup_dropGens : (dropGens c epoch gens).epochs.lookup e =
    if e = epoch then (c.epochs.lookup epoch).map (SealedFileCache.dropSkipped · gens)
    else c.epochs.lookup e := by
  rw [dropGens]
  cases he : c.epochs.lookup epoch with
  | none =>
    dsimp only [Option.map_none]
    split
    next heq => rw [heq, he]
    next => rfl
  | some se => exact lookup_insert_eq _ _ _ _

/-- A hand-off changes the entry of its epoch only. -/
theorem lookup_handOff : (c.handOffSkippedToRecovery epoch gens partBytes).epochs.lookup e =
      (dropGens c epoch gens).epochs.lookup e ∨
    e = epoch ∧ (c.handOffSkippedToRecovery epoch gens partBytes).epochs.lookup e = none := by
  rw [handOff_eq]
  split
  · exact .inl rfl
  · exact lookup_settleEpoch _ _

theorem lookup_handOff_of_ne (he : e ≠ epoch) :
    (c.handOffSkippedToRecovery epoch gens partBytes).epochs.lookup e = c.epochs.lookup e := by
  obtain h | ⟨heq, -⟩ := @lookup_handOff c epoch e gens partBytes
  · rw [h, lookup_dropGens, if_neg he]
  · exact absurd heq he

theorem gens_handOff {se' : SealedEpoch}
    (h : (c.handOffSkippedToRecovery epoch gens partBytes).epochs.lookup epoch = some se') :
    ∃ se, c.epochs.lookup epoch = some se ∧ se'.gens = se.gens.filter fun f => f ∉ gens := by
  obtain hl | ⟨-, hl⟩ := @lookup_handOff c epoch epoch gens partBytes
  · rw [hl, lookup_dropGens, if_pos rfl] at h
    obtain ⟨se, hse, rfl⟩ := Option.map_eq_some_iff.mp h
    exact ⟨se, hse, (dropSkipped_spec se gens).2⟩
  · rw [hl] at h
    cases h

end HandOff

section Invariant

variable {f : FileId} {s : SkipHistory} {mc : ZfMaterializeCtx} {job : Job}

/-- A generation left out early once has been adopted together with another one of its partition. -/
structure SkippedOnce (f : FileId) (s : SkipHistory) : Prop where
  balanced : Balanced s.ledger
  reasons : ∀ k ∈ s.skips, k.leavesOut f = true → k.early = true ∨ k.Waits
  once : s.leftOutEarly f ≤ kMaxSkipGenerations - 1
  known : 0 < s.leftOutEarly f → f ∈ s.ledger.sealedGens ∧ f ∉ s.ledger.cache.recoveryGens
  together : 0 < s.leftOutEarly f → ∀ e se, s.ledger.cache.epochs.lookup e = some se → f ∈ se.gens →
    kMaxSkipGenerations ≤ pendingGenCount se f.1

/-- A flush, one job at a time. -/
def afterJob (mc : ZfMaterializeCtx) (s : SkipHistory) (job : Job) : SkipHistory where
  ledger := { s.ledger with cache := handOffSkipped s.ledger.cache job }
  skips := s.skips ++ skipsOf mc job

theorem handOffSkipped_cases (c : SealedFileCache) (job : Job) :
    skippedGens job.se job.plans = [] ∧ handOffSkipped c job = c ∨
      ∃ partBytes, handOffSkipped c job =
        c.handOffSkippedToRecovery job.epoch (skippedGens job.se job.plans) partBytes := by
  rw [handOffSkipped]
  dsimp only
  split
  next hnil => exact .inl ⟨hnil, rfl⟩
  next => exact .inr ⟨_, rfl⟩

theorem mem_ownedBy_of_planned (h : Planned mc s.ledger.cache job) (hf : f ∈ job.se.gens) :
    f ∈ ownedBy s.ledger.cache job.epoch :=
  mem_ownedBy.mpr ⟨job.se, h.epoch, hf⟩

theorem mem_gens_of_skipped (hf : f ∈ skippedGens job.se job.plans) : f ∈ job.se.gens := by
  obtain ⟨-, -, -, hgens, -⟩ := mem_skippedGens.mp hf
  exact hgens

theorem balanced_afterJob (h : Balanced s.ledger) (hjob : Planned mc s.ledger.cache job) :
    Balanced (afterJob mc s job).ledger := by
  obtain ⟨-, heq⟩ | ⟨partBytes, heq⟩ := handOffSkipped_cases s.ledger.cache job
  · rw [afterJob, heq]
    exact h
  · rw [afterJob, heq]
    exact balanced_handOff h
      (fun f hf => mem_ownedBy_of_planned hjob (mem_gens_of_skipped hf)) partBytes

/-- A partition with a skipped generation loses all of them. -/
theorem lookup_afterJob (hjob : Planned mc s.ledger.cache job) {e : ℕ} {se' : SealedEpoch}
    (he : (handOffSkipped s.ledger.cache job).epochs.lookup e = some se') (hf : f ∈ se'.gens) :
    f ∉ skippedGens job.se job.plans ∧ e = job.epoch ∧
        pendingGenCount se' f.1 = pendingGenCount job.se f.1 ∧ f ∈ job.se.gens ∨
      e ≠ job.epoch ∧ s.ledger.cache.epochs.lookup e = some se' := by
  obtain ⟨hnil, heq⟩ | ⟨partBytes, heq⟩ := handOffSkipped_cases s.ledger.cache job
  · rw [heq] at he
    cases eq_or_ne e job.epoch with
    | inr hne => exact .inr ⟨hne, he⟩
    | inl hee =>
      rw [hee, hjob.epoch] at he
      cases he
      exact .inl ⟨by rw [hnil]; exact List.not_mem_nil, hee, rfl, hf⟩
  · rw [heq] at he
    cases eq_or_ne e job.epoch with
    | inr hne => exact .inr ⟨hne, (lookup_handOff_of_ne hne).symm.trans he⟩
    | inl hee =>
      left
      subst hee
      obtain ⟨se, hse, hgens⟩ := gens_handOff he
      rw [hjob.epoch] at hse
      cases hse
      rw [hgens, List.mem_filter, decide_eq_true_iff] at hf
      refine ⟨hf.2, rfl, ?_, hf.1⟩
      rw [pendingGenCount, pendingGenCount, hgens, List.filter_filter]
      refine congrArg List.length (List.filter_congr fun g hg => ?_)
      -- a skipped generation of the partition would take `f` along
      have hkeep : g.1 = f.1 → g ∉ skippedGens job.se job.plans := by
        intro hpart hskip
        obtain ⟨plan, hplan, hd, -, hid⟩ := mem_skippedGens.mp hskip
        exact hf.2 (mem_skippedGens.mpr ⟨plan, hplan, hd, hf.1, hpart ▸ hid⟩)
      by_cases hpart : g.1 = f.1
      · simp [hpart, hkeep hpart]
      · simp [hpart]

theorem recoveryGens_handOffSkipped (c : SealedFileCache) (job : Job) :
    (handOffSkipped c job).recoveryGens = c.recoveryGens := by
  obtain ⟨-, heq⟩ | ⟨partBytes, heq⟩ := handOffSkipped_cases c job
  · rw [heq]
  · rw [heq]
    exact (handOff_spec c job.epoch _ partBytes).2.1

theorem leftOutEarly_afterJob : (afterJob mc s job).leftOutEarly f = s.leftOutEarly f +
    (skipsOf mc job).countP fun k => k.leavesOut f && k.early := by
  rw [SkipHistory.leftOutEarly, afterJob, List.countP_append]
  rfl

theorem skippedOnce_afterJob (h : SkippedOnce f s) (hjob : Planned mc s.ledger.cache job) :
    SkippedOnce f (afterJob mc s job) := by
  have hreasons : ∀ k ∈ (afterJob mc s job).skips, k.leavesOut f = true →
      k.early = true ∨ k.Waits := by
    intro k hk hf
    obtain hk | hk := List.mem_append.mp hk
    · exact h.reasons k hk hf
    · exact early_or_waits hjob hk
  have hbalanced := balanced_afterJob h.balanced hjob
  obtain hzero | hpos := Nat.eq_zero_or_pos
    ((skipsOf mc job).countP fun k => k.leavesOut f && k.early)
  · have hcount : (afterJob mc s job).leftOutEarly f = s.leftOutEarly f := by
      rw [leftOutEarly_afterJob, hzero, Nat.add_zero]
    refine ⟨hbalanced, hreasons, hcount ▸ h.once, fun hp => ?_, fun hp e se' he hf => ?_⟩
    · rw [hcount] at hp
      obtain ⟨hsealed, hrec⟩ := h.known hp
      refine ⟨hsealed, ?_⟩
      show f ∉ (handOffSkipped s.ledger.cache job).recoveryGens
      rw [recoveryGens_handOffSkipped]
      exact hrec
    · rw [hcount] at hp
      obtain ⟨-, -, hpend, hgens⟩ | ⟨-, he⟩ := lookup_afterJob hjob he hf
      · rw [hpend]
        exact h.together hp _ _ hjob.epoch hgens
      · exact h.together hp e se' he hf
  · -- an early decision: it is the first one, and the generation leaves its epoch
    obtain ⟨k, hk, hboth⟩ := List.countP_pos_iff.mp hpos
    obtain ⟨hleaves, hearly⟩ := Bool.and_eq_true_iff.mp hboth
    obtain ⟨hskipped, hgens, heq⟩ := mem_skippedGens_of_leavesOut hk hleaves
    rw [heq, decide_eq_true_iff] at hearly
    have hfirst : s.leftOutEarly f = 0 := by
      by_contra hne
      have hmany := h.together (Nat.pos_of_ne_zero hne) _ _ hjob.epoch hgens
      omega
    have hown := mem_ownedBy_of_planned hjob hgens
    refine ⟨hbalanced, hreasons, ?_, fun _ => ⟨?_, ?_⟩, fun _ e se' he hf => ?_⟩
    · rw [leftOutEarly_afterJob, hfirst, Nat.zero_add]
      exact countP_skipsOf_le hjob.nodup
    · exact (h.balanced.placed f).mpr (.inl (kept_iff.mpr (.inl ⟨_, hown⟩)))
    · show f ∉ (handOffSkipped s.ledger.cache job).recoveryGens
      rw [recoveryGens_handOffSkipped]
      exact (h.balanced.owned.apart _ f hown).1
    · obtain ⟨hnot, -⟩ | ⟨hne, he⟩ := lookup_afterJob hjob he hf
      · exact absurd hskipped hnot
      · exact absurd (h.balanced.owned.distinct e job.epoch f
          (mem_ownedBy.mpr ⟨se', he, hf⟩) hown) hne

theorem lookup_handOffSkipped_of_ne (c : SealedFileCache) {e : ℕ} (he : e ≠ job.epoch) :
    (handOffSkipped c job).epochs.lookup e = c.epochs.lookup e := by
  obtain ⟨-, heq⟩ | ⟨partBytes, heq⟩ := handOffSkipped_cases c job
  · rw [heq]
  · rw [heq]
    exact lookup_handOff_of_ne he

/-- The jobs of a flush are about different epochs, so each finds what it planned. -/
theorem skippedOnce_foldl (h : SkippedOnce f s) {jobs : List Job}
    (hnodup : (jobs.map Job.epoch).Nodup) (hjobs : ∀ job ∈ jobs, Planned mc s.ledger.cache job) :
    SkippedOnce f (jobs.foldl (afterJob mc) s) := by
  induction jobs generalizing s with
  | nil => exact h
  | cons job jobs ih =>
    rw [List.map_cons, List.nodup_cons] at hnodup
    refine ih (skippedOnce_afterJob h (hjobs job List.mem_cons_self)) hnodup.2 fun j hj => ?_
    have hplanned := hjobs j (List.mem_cons_of_mem _ hj)
    refine ⟨?_, hplanned.plans⟩
    refine (lookup_handOffSkipped_of_ne s.ledger.cache ?_).trans hplanned.epoch
    exact fun heq => hnodup.1 (heq ▸ List.mem_map_of_mem hj)

theorem foldl_afterJob (jobs : List Job) : jobs.foldl (afterJob mc) s =
    { ledger := { s.ledger with cache := jobs.foldl handOffSkipped s.ledger.cache }
      skips := s.skips ++ jobs.flatMap (skipsOf mc) } := by
  induction jobs generalizing s with
  | nil => simp
  | cons job jobs ih =>
    rw [List.foldl_cons, ih]
    simp [afterJob]

section Flushes

variable {st : FlushState} {mems : List ℕ} {world : FlushWorld}

theorem epochs_sublist (picker : CompactionPicker) (mems : List ℕ) :
    ((planEpochs mc st picker mems).1.map Job.epoch).Sublist mems := by
  induction mems generalizing picker with
  | nil => exact List.Sublist.refl _
  | cons epoch mems ih =>
    rw [planEpochs]
    split
    · exact List.nil_sublist _
    · split
      · exact List.nil_sublist _
      · exact (ih _).cons_cons epoch

theorem handedOff_cases : handedOff mc st mems world = [] ∨
    handedOff mc st mems world = (planEpochs mc st st.picker mems).1 := by
  rw [handedOff]
  rcases planEpochs mc st st.picker mems with ⟨jobs, picker, s⟩
  cases s with
  | some e => exact .inl rfl
  | none =>
    cases world.tasks with
    | error e => exact .inl rfl
    | ok outs => exact .inr rfl

/-- What a flush does to the cache: it hands off, whether it fails late or not. -/
theorem sealedCache_run : (FlushJobs.run mc st mems world).2.sealedCache =
    (handedOff mc st mems world).foldl handOffSkipped st.sealedCache := by
  rw [FlushJobs.run, zfMaterializeAllEpochs, handedOff]
  rcases planEpochs mc st st.picker mems with ⟨jobs, picker, s⟩
  cases s with
  | some e => rfl
  | none =>
    cases world.tasks with
    | error e => rfl
    | ok outs =>
      dsimp only
      cases lateFailure world <;> rfl

theorem skippedOnce_flush (h : SkippedOnce f s) (tables : PartitionTableSet)
    (picker : CompactionPicker) (hmems : mems.Nodup) :
    SkippedOnce f (s.step (.flush mc tables picker mems world)) := by
  have hstep : s.step (.flush mc tables picker mems world) =
      (handedOff mc (s.flushState tables picker) mems world).foldl (afterJob mc) s := by
    rw [foldl_afterJob, SkipHistory.step]
    dsimp only
    rw [sealedCache_run]
    rfl
  rw [hstep]
  obtain hnil | hall := @handedOff_cases mc (s.flushState tables picker) mems world
  · rw [hnil]
    exact h
  · rw [hall]
    refine skippedOnce_foldl h ((epochs_sublist _ mems).nodup hmems) fun job hjob => ?_
    obtain ⟨-, hse, -, hplans⟩ := mem_planEpochs hjob
    exact ⟨hse, hplans⟩

end Flushes

theorem skippedOnce_sealEpoch (h : SkippedOnce f s) {e : SealedEpoch}
    (hok : Conforms s.ledger (.addEpochWithRecoveryAdoption e))
    (htogether : AdoptsTogether f s (.sealEpoch e)) : SkippedOnce f (s.step (.sealEpoch e)) := by
  obtain ⟨hnew, hfresh⟩ := hok
  obtain ⟨-, -, -, -, hrec, -⟩ := addEpoch_spec hnew
  refine ⟨balanced_addEpoch h.balanced ⟨hnew, hfresh⟩, h.reasons, h.once, fun hp => ?_,
    fun hp e' se' he hf => ?_⟩
  · refine ⟨List.mem_append_left _ (h.known hp).1, ?_⟩
    show f ∉ (s.ledger.cache.addEpochWithRecoveryAdoption e).recoveryGens
    rw [hrec]
    exact List.not_mem_nil
  · change (s.ledger.cache.addEpochWithRecoveryAdoption e).epochs.lookup e' = some se' at he
    have hmem := (ownedBy_addEpoch hnew e' f).mp (mem_ownedBy.mpr ⟨se', he, hf⟩)
    obtain ⟨hsealed, hrecovery⟩ := h.known hp
    split at hmem
    next heq =>
      -- the generation was not sealed again, and it is no orphan
      have hskip : f ∈ s.ledger.cache.skipGens := by
        obtain hown | hwait | hwait := hmem
        · exact absurd hsealed (hfresh f hown)
        · exact absurd hwait hrecovery
        · exact hwait
      rw [SealedFileCache.addEpochWithRecoveryAdoption, hnew] at he
      dsimp only at he
      rw [SealedFileCache.epoch_adoptSkips, SealedFileCache.epoch_adoptRecovery, heq,
        lookup_insert_eq, if_pos rfl] at he
      cases he
      exact htogether hskip
    next heq =>
      obtain ⟨merged, hepochs, -⟩ := addEpoch_spec hnew
      rw [hepochs, lookup_insert_eq, if_neg heq] at he
      exact h.together hp e' se' he hf

theorem skippedOnce_step (s : SkipHistory) (op : HistoryOp) (hok : TogetherOk f s op)
    (h : SkippedOnce f s) : SkippedOnce f (s.step op) := by
  obtain ⟨hpermitted, htogether⟩ := hok
  cases op with
  | addRecoveryGens gens totalBytes =>
    refine ⟨balanced_addRecoveryGens h.balanced totalBytes hpermitted, h.reasons, h.once,
      fun hp => ?_, h.together⟩
    obtain ⟨hsealed, hrec⟩ := h.known hp
    refine ⟨List.mem_append_left _ hsealed, fun hmem => ?_⟩
    obtain hmem | hmem := mem_emplaceAll.mp hmem
    · exact hrec hmem
    · exact hpermitted f hmem hsealed
  | sealEpoch e => exact skippedOnce_sealEpoch h hpermitted htogether
  | flush mc tables picker mems world => exact skippedOnce_flush h tables picker hpermitted
  | releaseEpoch epoch =>
    obtain ⟨-, hempty, -⟩ := releaseEpoch_drains h.balanced.owned h.balanced.counted epoch
    refine ⟨balanced_releaseEpoch h.balanced epoch, h.reasons, h.once, fun hp => ?_,
      fun hp e se he hf => ?_⟩
    · refine ⟨(h.known hp).1, ?_⟩
      show f ∉ (s.ledger.cache.releaseEpoch epoch).recoveryGens
      rw [(waiting_releaseEpoch s.ledger.cache epoch).1]
      exact (h.known hp).2
    · change (s.ledger.cache.releaseEpoch epoch).epochs.lookup e = some se at he
      cases eq_or_ne e epoch with
      | inl heq =>
        have hmem := mem_ownedBy.mpr ⟨se, heq ▸ he, hf⟩
        rw [hempty] at hmem
        exact absurd hmem List.not_mem_nil
      | inr hne =>
        rw [lookup_releaseEpoch_of_ne _ hne] at he
        exact h.together hp e se he hf
  | purgePending => exact ⟨balanced_purgePending h.balanced, h.reasons, h.once, h.known, h.together⟩

end Invariant

namespace BusyUpper

/-- The file `[b, d]` at level 0. -/
def files : ℕ → List FileMetaData
  | 0 => [{ number := 10, fileSize := 1, epochNumber := 0, smallest := [98], largest := [100]
            entries := [] }]
  | _ => []

def version : Version := ⟨2, 1, files, Nat.one_pos, Nat.one_lt_two⟩

def flushCtx : ZfMaterializeCtx where
  zfo := { mergeIntoBaseLevel := true, ratioBelow := fun _ _ => false }
  ucmp := .bytewise
  base := version

/-- Keys below `m` belong to partition 0. -/
def tables : PartitionTableSet := .init (.cutAt 0 [109])

/-- Epoch `n` seals generation `n` of partition 0. -/
def sealOp (n : ℕ) : HistoryOp := .sealEpoch { epoch := n, tableVersion := 0, gens := [(0, n)] }

/-- The flush of epoch `n`, while a native compaction reads the file. -/
def flushOp (n : ℕ) : HistoryOp :=
  .flush flushCtx tables ⟨[], [10]⟩ [n] { tasks := .ok [], current := version }

def ops : List HistoryOp := [sealOp 1, flushOp 1, sealOp 2, flushOp 2]

end BusyUpper

end ZeroFlush.BoundedSkips
