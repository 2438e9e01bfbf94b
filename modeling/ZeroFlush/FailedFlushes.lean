import ZeroFlush.FlushJobs
import ZeroFlush.SealedEpochs

/-! # Failed flushes

A flush that fails before its generations are handed off leaves the cache as it was. One that fails
later has already given the skipped generations away, although its memtables wait for a retry. -/
namespace ZeroFlush.FailedFlushes
open FixedWidthCodec FiniteMaps UserKeys WalFormat WalFiles PartitionTables SealedFiles SealedEpochs
  TableFiles PartitionPlans Materialization FlushJobs

/-- An epoch that was registered still is, with all its generations. -/
def Retains (before after : SealedFileCache) (epoch : ℕ) : Prop :=
  ∀ se, before.getEpoch epoch = some se →
    ∃ se', after.getEpoch epoch = some se' ∧ ∀ f ∈ se.gens, f ∈ se'.gens

/-- Every memtable that waits for the retry finds its epoch as before. -/
def Retryable (before after : FlushState) (mems : List ℕ) : Prop :=
  ∀ epoch ∈ mems, Retains before.sealedCache after.sealedCache epoch

/-- If the flush fails, then so that it can be retried. -/
def LeavesRetryable (mc : ZfMaterializeCtx) (st : FlushState) (mems : List ℕ) (world : FlushWorld) :
    Prop :=
  ∀ e, (run mc st mems world).1 = .error e → Retryable st (run mc st mems world).2 mems

/-- A memtable has no registered epoch, or a task of the pool fails. -/
def FailsEarly (st : FlushState) (mems : List ℕ) (world : FlushWorld) : Prop :=
  (∃ epoch ∈ mems, epoch = 0 ∨ st.sealedCache.getEpoch epoch = none) ∨
    ∃ e, world.tasks = .error e

/-- No partition of the flush is left for a later epoch. -/
def SkipsNothing (mc : ZfMaterializeCtx) (st : FlushState) (mems : List ℕ) : Prop :=
  ∀ job ∈ (planEpochs mc st st.picker mems).1, ∀ plan ∈ job.plans, plan.decision ≠ .kSkip

section Planning

variable {mc : ZfMaterializeCtx} {st : FlushState}

/-- Planning fails exactly if some memtable has no registered epoch. -/
theorem planEpochs_fails_iff (picker : CompactionPicker) (mems : List ℕ) :
    (∃ e, (planEpochs mc st picker mems).2.2 = some e) ↔
      ∃ epoch ∈ mems, epoch = 0 ∨ st.sealedCache.getEpoch epoch = none := by
  induction mems generalizing picker with
  | nil => simp [planEpochs]
  | cons epoch mems ih =>
    rw [planEpochs]
    split
    next h0 => simp [h0]
    next h0 =>
      cases hse : st.sealedCache.getEpoch epoch with
      | none => simp [hse]
      | some se =>
        rw [List.exists_mem_cons_iff]
        simp only [h0, hse, reduceCtorEq, or_self, false_or]
        exact ih _

/-- A job plans what the cache has registered for the epoch of its memtable. -/
theorem mem_planEpochs {picker : CompactionPicker} {mems : List ℕ} {job : Job}
    (h : job ∈ (planEpochs mc st picker mems).1) :
    job.epoch ∈ mems ∧ st.sealedCache.getEpoch job.epoch = some job.se ∧
      job.table = st.tables.get? job.se.tableVersion ∧
      ∃ picker', job.plans = (mc.planLocked job.se [] job.table picker').1 := by
  induction mems generalizing picker with
  | nil => exact absurd h List.not_mem_nil
  | cons epoch mems ih =>
    rw [planEpochs] at h
    split at h
    · exact absurd h List.not_mem_nil
    next h0 =>
      cases hse : st.sealedCache.getEpoch epoch with
      | none =>
        rw [hse] at h
        exact absurd h List.not_mem_nil
      | some se =>
        rw [hse] at h
        obtain rfl | h := List.mem_cons.mp h
        · exact ⟨List.mem_cons_self, hse, rfl, picker, rfl⟩
        · obtain ⟨hmem, hrest⟩ := ih h
          exact ⟨List.mem_cons_of_mem _ hmem, hrest⟩

theorem partId_of_mem_planLocked {se : SealedEpoch} {table : Option PartitionTable}
    {picker : CompactionPicker} {plan : PartitionPlan}
    (h : plan ∈ (mc.planLocked se [] table picker).1) : ∃ f ∈ se.gens, f.1 = plan.partId := by
  obtain ⟨hids, -⟩ := @ZfMaterializeCtx.planLoop_spec mc se table ⟨picker, []⟩ (partIds se)
  have hmem : plan.partId ∈ partIds se := by
    rw [← hids]
    exact List.mem_map_of_mem h
  exact mem_partIds.mp hmem

end Planning

theorem mem_skippedGens {se : SealedEpoch} {plans : List PartitionPlan} {f : FileId} :
    f ∈ skippedGens se plans ↔
      ∃ plan ∈ plans, plan.decision = .kSkip ∧ f ∈ se.gens ∧ f.1 = plan.partId := by
  simp only [skippedGens, List.mem_flatMap, List.mem_filter, decide_eq_true_eq]
  constructor
  · rintro ⟨plan, ⟨hplan, hskip⟩, hf, hp⟩
    exact ⟨plan, hplan, hskip, hf, hp⟩
  · rintro ⟨plan, hplan, hskip, hf, hp⟩
    exact ⟨plan, ⟨hplan, hskip⟩, hf, hp⟩

section HandOff

/-- What is handed off is not among the generations of the epoch any more. -/
theorem not_mem_handOff (c : SealedFileCache) {epoch : ℕ} {gens : List FileId}
    {partBytes : Map ℕ ℕ} {f : FileId} (hf : f ∈ gens) {se' : SealedEpoch}
    (hse : (c.handOffSkippedToRecovery epoch gens partBytes).getEpoch epoch = some se') :
    f ∉ se'.gens := by
  rcases lookup_handOff hse with ⟨-, hne⟩ | ⟨se, -, rfl, -⟩
  · exact absurd rfl hne
  · rw [(dropSkipped_spec se gens).2, List.mem_filter]
    rintro ⟨-, hno⟩
    exact of_decide_eq_true hno hf

theorem shrinks_handOffSkipped (c : SealedFileCache) (job : Job) :
    Shrinks c (handOffSkipped c job) := by
  rw [handOffSkipped]
  dsimp only
  split
  · exact Shrinks.refl c
  · exact (handOff_spec c job.epoch _ _).1

theorem shrinks_handOffs (c : SealedFileCache) (jobs : List Job) :
    Shrinks c (jobs.foldl handOffSkipped c) := by
  induction jobs generalizing c with
  | nil => exact Shrinks.refl c
  | cons job jobs ih => exact (shrinks_handOffSkipped c job).trans (ih _)

/-- Later hand-offs do not bring a generation back. -/
theorem not_mem_of_handOffs {jobs : List Job} {job : Job} {f : FileId} (hjob : job ∈ jobs)
    (hf : f ∈ skippedGens job.se job.plans) (c : SealedFileCache) {se' : SealedEpoch}
    (hse : (jobs.foldl handOffSkipped c).getEpoch job.epoch = some se') : f ∉ se'.gens := by
  induction jobs generalizing c with
  | nil => exact absurd hjob List.not_mem_nil
  | cons j jobs ih =>
    obtain rfl | hjob := List.mem_cons.mp hjob
    · obtain ⟨sb, hsb, -, hsub⟩ := shrinks_handOffs (handOffSkipped c job) jobs job.epoch se' hse
      have hne : skippedGens job.se job.plans ≠ [] := List.ne_nil_of_mem hf
      rw [handOffSkipped] at hsb
      dsimp only at hsb
      rw [if_neg hne] at hsb
      exact fun hmem => not_mem_handOff c hf hsb (hsub hmem)
    · exact ih hjob _ hse

/-- Jobs that skip nothing leave the cache alone. -/
theorem handOffs_of_skipsNothing {jobs : List Job}
    (h : ∀ job ∈ jobs, ∀ plan ∈ job.plans, plan.decision ≠ .kSkip) (c : SealedFileCache) :
    jobs.foldl handOffSkipped c = c := by
  induction jobs generalizing c with
  | nil => rfl
  | cons job jobs ih =>
    have hnil : skippedGens job.se job.plans = [] := by
      rw [List.eq_nil_iff_forall_not_mem]
      intro f hf
      obtain ⟨plan, hplan, hskip, -⟩ := mem_skippedGens.mp hf
      exact h job List.mem_cons_self plan hplan hskip
    have hjob : handOffSkipped c job = c := by
      rw [handOffSkipped]
      dsimp only
      rw [if_pos hnil]
    rw [List.foldl_cons, hjob]
    exact ih (fun j hj => h j (List.mem_cons_of_mem _ hj)) c

end HandOff

/-- A flush that does not fail early gives the skipped generations away and fails only late. -/
theorem run_of_not_failsEarly (mc : ZfMaterializeCtx) {st : FlushState} {mems : List ℕ}
    {world : FlushWorld} (h : ¬ FailsEarly st mems world) :
    (run mc st mems world).2.sealedCache =
        (planEpochs mc st st.picker mems).1.foldl handOffSkipped st.sealedCache ∧
      ((∃ e, (run mc st mems world).1 = .error e) ↔ ∃ e, lateFailure world = some e) := by
  obtain ⟨hmems, htasks⟩ := not_or.mp h
  rw [← @planEpochs_fails_iff mc st st.picker mems] at hmems
  rw [run, zfMaterializeAllEpochs]
  rcases hp : planEpochs mc st st.picker mems with ⟨jobs, picker, s⟩
  cases s with
  | some e =>
    rw [hp] at hmems
    exact absurd ⟨e, rfl⟩ hmems
  | none =>
    cases ht : world.tasks with
    | error e => exact absurd ⟨e, ht⟩ htasks
    | ok outs =>
      dsimp only
      cases hl : lateFailure world with
      | none => exact ⟨rfl, by simp⟩
      | some e => exact ⟨rfl, by simp⟩

/-- An early failure leaves the cache as it was. -/
theorem sealedCache_run_of_failsEarly (mc : ZfMaterializeCtx) {st : FlushState} {mems : List ℕ}
    {world : FlushWorld} (h : FailsEarly st mems world) :
    (run mc st mems world).2.sealedCache = st.sealedCache := by
  rw [FailsEarly, ← @planEpochs_fails_iff mc st st.picker mems] at h
  rw [run, zfMaterializeAllEpochs]
  rcases hp : planEpochs mc st st.picker mems with ⟨jobs, picker, s⟩
  cases s with
  | some e => rfl
  | none =>
    obtain ⟨e, he⟩ | ⟨e, he⟩ := h
    · rw [hp] at he
      cases he
    · rw [he]

/-- A failed flush can be retried exactly if it failed before the hand-off or skipped nothing. -/
theorem leavesRetryable_iff (mc : ZfMaterializeCtx) (st : FlushState) (mems : List ℕ)
    (world : FlushWorld) :
    LeavesRetryable mc st mems world ↔
      lateFailure world = none ∨ FailsEarly st mems world ∨ SkipsNothing mc st mems := by
  constructor
  · intro hretry
    rw [or_iff_not_imp_left, or_iff_not_imp_left]
    intro hlate hearly job hjob plan hplan hskip
    obtain ⟨hcache, hfails⟩ := run_of_not_failsEarly mc hearly
    obtain ⟨e, he⟩ := hfails.mpr (Option.ne_none_iff_exists'.mp hlate)
    obtain ⟨hmem, hse, -, picker', hplans⟩ := mem_planEpochs hjob
    obtain ⟨f, hf, hpart⟩ := partId_of_mem_planLocked (hplans ▸ hplan)
    have hskipped : f ∈ skippedGens job.se job.plans :=
      mem_skippedGens.mpr ⟨plan, hplan, hskip, hf, hpart⟩
    obtain ⟨se', hse', hgens⟩ := hretry e he job.epoch hmem job.se hse
    rw [hcache] at hse'
    exact not_mem_of_handOffs hjob hskipped st.sealedCache hse' (hgens f hf)
  · intro hcond e he epoch _ se hse
    have hsame : (run mc st mems world).2.sealedCache = st.sealedCache := by
      by_cases hearly : FailsEarly st mems world
      · exact sealedCache_run_of_failsEarly mc hearly
      · obtain ⟨hcache, hfails⟩ := run_of_not_failsEarly mc hearly
        obtain hlate | hearly' | hnone := hcond
        · obtain ⟨e', he'⟩ := hfails.mp ⟨e, he⟩
          rw [hlate] at he'
          cases he'
        · exact absurd hearly' hearly
        · rw [hcache]
          exact handOffs_of_skipsNothing hnone st.sealedCache
    refine ⟨se, ?_, fun f hf => hf⟩
    rw [hsame]
    exact hse

/-- The retry of a flush that can be retried plans every generation that was pending. -/
theorem retry_plans_pending {before after : FlushState} {mems : List ℕ}
    (hretry : Retryable before after mems) (mc : ZfMaterializeCtx) (picker : CompactionPicker)
    (hok : ∀ epoch ∈ mems, epoch ≠ 0) {epoch : ℕ} {se : SealedEpoch} (hepoch : epoch ∈ mems)
    (hreg : ∀ epoch ∈ mems, before.sealedCache.getEpoch epoch ≠ none)
    (hse : before.sealedCache.getEpoch epoch = some se) :
    ∃ job ∈ (planEpochs mc after picker mems).1, job.epoch = epoch ∧
      ∀ f ∈ se.gens, f ∈ job.se.gens := by
  induction mems generalizing picker with
  | nil => exact absurd hepoch List.not_mem_nil
  | cons m mems ih =>
    obtain ⟨sm, hsm⟩ := Option.ne_none_iff_exists'.mp (hreg m List.mem_cons_self)
    obtain ⟨sm', hsm', hgens⟩ := hretry m List.mem_cons_self sm hsm
    rw [planEpochs, if_neg (hok m List.mem_cons_self), hsm']
    obtain rfl | hepoch := List.mem_cons.mp hepoch
    · rw [hse] at hsm
      cases hsm
      exact ⟨_, List.mem_cons_self, rfl, hgens⟩
    · obtain ⟨job, hjob, hrest⟩ := ih (fun e h => hretry e (List.mem_cons_of_mem _ h))
        (mc.planLocked sm' [] (after.tables.get? sm'.tableVersion) picker).2
        (fun e h => hok e (List.mem_cons_of_mem _ h)) hepoch
        fun e h => hreg e (List.mem_cons_of_mem _ h)
      exact ⟨job, List.mem_cons_of_mem _ hjob, hrest⟩

namespace SkippedAtShutdown

def emptyVersion : Version := ⟨2, 1, fun _ => [], Nat.one_pos, Nat.one_lt_two⟩

def flushCtx : ZfMaterializeCtx where
  zfo := { mergeIntoBaseLevel := true, ratioBelow := fun _ _ => false }
  ucmp := .bytewise
  base := emptyVersion

def sealedEpoch : SealedEpoch := { epoch := 1, tableVersion := 0, gens := [(0, 0)] }

def start : FlushState where
  sealedCache := ({} : SealedFileCache).addEpochWithRecoveryAdoption sealedEpoch
  tables := .init (.createHash 0 1 Nat.one_pos)

def shutdown : FlushWorld := { tasks := .ok [[]], current := emptyVersion, shuttingDown := true }

end SkippedAtShutdown

open SkippedAtShutdown in
/-- An epoch whose only generation waits is forgotten when the database shuts down before the
install: the retry reports it as not registered. -/
theorem leavesRetryable_fails :
    ¬ ∀ (mc : ZfMaterializeCtx) (st : FlushState) (mems : List ℕ) (world : FlushWorld),
      LeavesRetryable mc st mems world := by
  intro h
  have herror : (run flushCtx start [1] shutdown).1 = .error .shutdownInProgress := by rfl
  have hbefore : (start.sealedCache.getEpoch 1).map SealedEpoch.gens = some [(0, 0)] := by decide
  have hafter : ((run flushCtx start [1] shutdown).2.sealedCache.getEpoch 1).isNone = true := by
    decide +kernel
  obtain ⟨se, hse, -⟩ := Option.map_eq_some_iff.mp hbefore
  obtain ⟨se', hse', -⟩ := h flushCtx start [1] shutdown _ herror 1 (by decide) se hse
  rw [hse'] at hafter
  cases hafter

end ZeroFlush.FailedFlushes
