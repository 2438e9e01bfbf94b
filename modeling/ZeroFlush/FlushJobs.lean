import ZeroFlush.Materialization

/-! # The flush job

A flush plans every epoch of its memtables, materializes the partitions, places the outputs and
builds one edit of the version from them. What it skipped it hands back to the cache of sealed
generations before the edit is installed. -/
namespace ZeroFlush.FlushJobs
open FixedWidthCodec FiniteMaps UserKeys WalFormat WalFiles PartitionTables SealedFiles TableFiles
  PartitionPlans Materialization

/-- `PickInstallLevel`: the base level if nothing down to it meets the file. -/
def pickInstallLevel (ucmp : UserComparator) (current : Version) (running : List Compaction)
    (batch : List MaterializeOutput) (f : FileMetaData) : ℕ :=
  let base := current.baseLevel
  if rangeOverlapWithCompaction ucmp running f.smallest f.largest base then 0
  else if (List.range (base + 1)).any fun l =>
      overlapInLevel ucmp current l f.smallest f.largest ||
        batch.any fun x =>
          x.level == l && meets ucmp f.smallest f.largest x.file.smallest x.file.largest then 0
  else base

/-- A merge output takes the place of earlier outputs it meets at its level. -/
def supersedes (ucmp : UserComparator) (level : ℕ) (f : FileMetaData) (x : MaterializeOutput) :
    Bool :=
  !x.superseded && x.level == level &&
    meets ucmp f.smallest f.largest x.file.smallest x.file.largest

def supersede (ucmp : UserComparator) (level : ℕ) (f : FileMetaData) (x : MaterializeOutput) :
    MaterializeOutput :=
  if supersedes ucmp level f x then { x with superseded := true } else x

/-- The level of a merge output: a range that a running compaction writes falls back to level 0. -/
def mergeLevel (ucmp : UserComparator) (running : List Compaction) (plan : PartitionPlan)
    (f : FileMetaData) : ℕ :=
  let level := (plan.compaction.map Compaction.outputLevel).getD 0
  if rangeOverlapWithCompaction ucmp running f.smallest f.largest level then 0 else level

/-- The body of the loop of `FinalizeLocked`. The lists of replaced files that the fallback to
level 0 clears are filled right after it. -/
def placeOutput (ucmp : UserComparator) (current : Version) (running : List Compaction)
    (plans : List PartitionPlan) (batch : List MaterializeOutput) (o : MaterializeOutput) :
    List MaterializeOutput :=
  match o.decision, findPlan plans o.partId with
  | .kMergeBase, some plan =>
    let level := mergeLevel ucmp running plan o.file
    let inherited := (batch.filter (supersedes ucmp level o.file)).flatMap (·.replacedFileNumbers)
    let replaced := plan.overlap.map FileMetaData.number ++ inherited
    batch.map (supersede ucmp level o.file) ++
      [{ o with
        level := level
        replacedFileNumbers := (replaced.insertionSort (· ≤ ·)).dedup
        replacedL0FileNumbers := plan.l0Overlap.map FileMetaData.number }]
  | .kMergeBase, none => batch
  | _, some plan =>
    if plan.forceReplace then
      batch ++ [{ o with
        level := plan.baseLevel
        replacedFileNumbers := plan.overlap.map FileMetaData.number }]
    else batch ++ [{ o with level := pickInstallLevel ucmp current running batch o.file }]
  | _, none => batch ++ [{ o with level := pickInstallLevel ucmp current running batch o.file }]

/-- The compactions a job has registered. -/
def registeredBy (plans : List PartitionPlan) : List Compaction :=
  plans.filterMap fun p => if p.decision = .kMergeBase then p.compaction else none

/-- The loop over the jobs. Until a job is finalized its compactions run beside the native ones. -/
def finalizeJobs (ucmp : UserComparator) (current : Version) (natives : List Compaction) :
    List (Job × List MaterializeOutput) → List MaterializeOutput → List MaterializeOutput
  | [], batch => batch
  | (job, outs) :: jobs, batch =>
    let running := natives ++ registeredBy job.plans ++ jobs.flatMap fun j => registeredBy j.1.plans
    finalizeJobs ucmp current natives jobs
      (outs.foldl (placeOutput ucmp current running job.plans) batch)

structure VersionEdit where
  deleted : List (ℕ × ℕ) := []
  added : List (ℕ × FileMetaData) := []

/-- `DeleteFileIfPresent`: the first level of the current version that has the file. -/
def levelOfFile (v : Version) (number : ℕ) : Option ℕ :=
  (List.range v.numLevels).find? fun l => (v.files l).any (·.number == number)

/-- The install loop; a number is deleted once. -/
def installEdit (current : Version) (batch : List MaterializeOutput) : VersionEdit :=
  let installed := batch.filter fun o => !o.superseded
  let numbers := installed.flatMap fun o => o.replacedL0FileNumbers ++ o.replacedFileNumbers
  { deleted := numbers.dedup.filterMap fun n => (levelOfFile current n).map (·, n)
    added := installed.map fun o => (o.level, o.file) }

/-- The files of a level after an edit. -/
def applyEdit (v : Version) (edit : VersionEdit) (level : ℕ) : List FileMetaData :=
  (v.files level).filter (fun f => (level, f.number) ∉ edit.deleted) ++
    (edit.added.filter (·.1 = level)).map Prod.snd

/-- What a flush reads and changes outside its own outputs. -/
structure FlushState where
  sealedCache : SealedFileCache
  tables : PartitionTableSet
  lastMaterializedEpoch : ℕ := 0
  picker : CompactionPicker := {}

/-- The part of the flush that holds the mutex before the task pool: one job for every memtable,
up to the first one without a registered epoch. -/
def planEpochs (mc : ZfMaterializeCtx) (st : FlushState) (picker : CompactionPicker) :
    List ℕ → List Job × CompactionPicker × Option Status
  | [] => ([], picker, none)
  | epoch :: mems =>
    if epoch = 0 then
      ([], picker, some (.corruption "ZeroFlush: immutable memtable without epoch in zf flush"))
    else
      match st.sealedCache.getEpoch epoch with
      | none => ([], picker, some (.corruption s!"ZeroFlush: sealed epoch {epoch} not registered"))
      | some se =>
        let table := st.tables.get? se.tableVersion
        let (plans, picker) := mc.planLocked se [] table picker
        let (jobs, picker, s) := planEpochs mc st picker mems
        (⟨epoch, se, table, plans⟩ :: jobs, picker, s)

/-- `FinishPlansLocked` for some jobs. -/
def finishPlans (picker : CompactionPicker) (jobs : List Job) : CompactionPicker :=
  let plans := (jobs.flatMap Job.plans).filter (·.decision = .kMergeBase)
  ⟨picker.compactionsInProgress.diff (registeredBy plans),
    picker.beingCompacted.diff
      ((plans.flatMap fun p => p.l0Overlap ++ p.overlapAll).map FileMetaData.number)⟩

/-- `HandOffSkipped` of a job. The bytes of a partition go with its generations. -/
def handOffSkipped (cache : SealedFileCache) (job : Job) : SealedFileCache :=
  let gens := skippedGens job.se job.plans
  if gens = [] then cache
  else
    let se := cache.getEpoch job.epoch
    let partBytes := gens.foldl (fun (m : Map ℕ ℕ) f =>
      match se.bind (·.partBytes.lookup f.1) with
      | none => m
      | some b => m.insert f.1 b) ∅
    cache.handOffSkippedToRecovery job.epoch gens partBytes

/-- What the world does to a flush: the outputs of the tasks or the first error among them, the
version and the native compactions found after the tasks, and what fails once
`ZfMaterializeAllEpochs` has returned. -/
structure FlushWorld where
  tasks : Except Status (List (List MaterializeOutput))
  current : Version
  natives : List Compaction := []
  columnFamilyDropped : Bool := false
  shuttingDown : Bool := false
  cutoffError : Option Status := none
  backgroundError : Option Status := none
  installError : Option Status := none

inductive FlushError
  | materialize (s : Status)
  | columnFamilyDropped
  | shutdownInProgress
  | cutoff (s : Status)
  | background (s : Status)
  | install (s : Status)
  deriving DecidableEq, Repr

/-- `ZfMaterializeAllEpochs`: an error, or the edit. `FinalizeLocked` itself always succeeds. -/
def zfMaterializeAllEpochs (mc : ZfMaterializeCtx) (st : FlushState) (mems : List ℕ)
    (world : FlushWorld) : Except Status VersionEdit × FlushState :=
  match planEpochs mc st st.picker mems with
  | (jobs, picker, some e) => (.error e, { st with picker := finishPlans picker jobs })
  | (jobs, picker, none) =>
    match world.tasks with
    | .error e => (.error e, { st with picker := finishPlans picker jobs })
    | .ok outs =>
      let batch := finalizeJobs mc.ucmp world.current world.natives (jobs.zip outs) []
      (.ok (installEdit world.current batch),
        { st with
          sealedCache := jobs.foldl handOffSkipped st.sealedCache
          lastMaterializedEpoch := (jobs.map Job.epoch).getLastD st.lastMaterializedEpoch
          picker := finishPlans picker jobs })

/-- The failures of `FlushJob::Run` after the materialization, in the order of its checks. -/
def lateFailure (world : FlushWorld) : Option FlushError :=
  if world.shuttingDown then some .shutdownInProgress
  else if world.columnFamilyDropped then some .columnFamilyDropped
  else
    match world.cutoffError, world.backgroundError, world.installError with
    | some s, _, _ => some (.cutoff s)
    | none, some s, _ => some (.background s)
    | none, none, some s => some (.install s)
    | none, none, none => none

/-- `FlushJob::Run`: after an error no edit is installed and the memtables wait for a retry. -/
def run (mc : ZfMaterializeCtx) (st : FlushState) (mems : List ℕ) (world : FlushWorld) :
    Except FlushError VersionEdit × FlushState :=
  match zfMaterializeAllEpochs mc st mems world with
  | (.error e, st') => (.error (.materialize e), st')
  | (.ok edit, st') =>
    match lateFailure world with
    | some e => (.error e, st')
    | none => (.ok edit, st')

/-! ## What placing an output does -/

section Placement

variable {ucmp : UserComparator} {current : Version} {running : List Compaction}
  {plans : List PartitionPlan} {batch : List MaterializeOutput} {o : MaterializeOutput}

/-- A plain output goes to level 0, or to the base level where nothing down to it meets it. -/
theorem pickInstallLevel_cases (ucmp : UserComparator) (current : Version)
    (running : List Compaction) (batch : List MaterializeOutput) (f : FileMetaData) :
    pickInstallLevel ucmp current running batch f = 0 ∨
      pickInstallLevel ucmp current running batch f = current.baseLevel ∧
        ∀ l ≤ current.baseLevel, (∀ g ∈ current.files l, Apart ucmp f g) ∧
          ∀ x ∈ batch, x.level = l → Apart ucmp f x.file := by
  rw [pickInstallLevel]
  split
  · exact .inl rfl
  · split
    · exact .inl rfl
    next hfree =>
      refine .inr ⟨rfl, ?_⟩
      intro l hl
      rw [List.any_eq_true, not_exists] at hfree
      have hno := hfree l
      rw [not_and, Bool.or_eq_true, not_or] at hno
      obtain ⟨hfiles, hbatch⟩ := hno (List.mem_range.mpr (Nat.lt_succ_of_le hl))
      constructor
      · intro g hg
        rw [Apart, ← Bool.not_eq_true]
        exact fun hm => hfiles (List.any_eq_true.mpr ⟨g, hg, hm⟩)
      · intro x hx hxl
        rw [Apart, ← Bool.not_eq_true]
        intro hm
        exact hbatch (List.any_eq_true.mpr ⟨x, hx, by simp [hxl, hm]⟩)

theorem placeOutput_plain (hd : o.decision ≠ .kMergeBase)
    (hplan : ∀ plan, findPlan plans o.partId = some plan → plan.forceReplace = false) :
    placeOutput ucmp current running plans batch o =
      batch ++ [{ o with level := pickInstallLevel ucmp current running batch o.file }] := by
  rw [placeOutput.eq_def]
  cases hfind : findPlan plans o.partId with
  | none =>
    cases hdec : o.decision with
    | kMergeBase => exact absurd hdec hd
    | kDirect => rfl
    | kFallback => rfl
    | kSkip => rfl
  | some plan =>
    have hno := hplan plan hfind
    cases hdec : o.decision with
    | kMergeBase => exact absurd hdec hd
    | kDirect => simp [hno]
    | kFallback => simp [hno]
    | kSkip => simp [hno]

/-- The numbers a merge output replaces: those of its plan and those it inherits. -/
def replacedBy (ucmp : UserComparator) (running : List Compaction) (plan : PartitionPlan)
    (batch : List MaterializeOutput) (f : FileMetaData) : List ℕ :=
  ((plan.overlap.map FileMetaData.number ++ (batch.filter
    (supersedes ucmp (mergeLevel ucmp running plan f) f)).flatMap
      (·.replacedFileNumbers)).insertionSort (· ≤ ·)).dedup

theorem placeOutput_merge {plan : PartitionPlan} (hd : o.decision = .kMergeBase)
    (hplan : findPlan plans o.partId = some plan) :
    placeOutput ucmp current running plans batch o =
      batch.map (supersede ucmp (mergeLevel ucmp running plan o.file) o.file) ++
        [{ o with
          level := mergeLevel ucmp running plan o.file
          replacedFileNumbers := replacedBy ucmp running plan batch o.file
          replacedL0FileNumbers := plan.l0Overlap.map FileMetaData.number }] := by
  rw [placeOutput.eq_def, hd, hplan]
  rfl

theorem mem_replacedBy {plan : PartitionPlan} {f : FileMetaData} {n : ℕ} :
    n ∈ replacedBy ucmp running plan batch f ↔ n ∈ plan.overlap.map FileMetaData.number ∨
      ∃ x ∈ batch, supersedes ucmp (mergeLevel ucmp running plan f) f x = true ∧
        n ∈ x.replacedFileNumbers := by
  rw [replacedBy, List.mem_dedup, List.mem_insertionSort, List.mem_append, List.mem_flatMap]
  simp only [List.mem_filter, and_assoc]

/-- Only the mark of an output changes when another one takes its place. -/
theorem supersede_spec (level : ℕ) (f : FileMetaData) (x : MaterializeOutput) :
    (supersede ucmp level f x).file = x.file ∧ (supersede ucmp level f x).level = x.level ∧
      (supersede ucmp level f x).replacedFileNumbers = x.replacedFileNumbers ∧
      ((supersede ucmp level f x).superseded = false ↔
        x.superseded = false ∧ supersedes ucmp level f x = false) := by
  rw [supersede]
  split
  next h => exact ⟨rfl, rfl, rfl, by simp [h]⟩
  next h => exact ⟨rfl, rfl, rfl, by simp [Bool.eq_false_of_not_eq_true h]⟩

end Placement

/-- What placing each output preserves holds of the batch that all jobs leave. -/
theorem finalizeJobs_induction {P : List MaterializeOutput → Prop} {ucmp : UserComparator}
    {current : Version} {natives : List Compaction} {jobs : List (Job × List MaterializeOutput)}
    (hstep : ∀ job outs, (job, outs) ∈ jobs → ∀ running, registeredBy job.plans ⊆ running →
      ∀ o ∈ outs, ∀ batch, P batch → P (placeOutput ucmp current running job.plans batch o))
    {batch : List MaterializeOutput} (h : P batch) :
    P (finalizeJobs ucmp current natives jobs batch) := by
  induction jobs generalizing batch with
  | nil => exact h
  | cons j jobs ih =>
    obtain ⟨job, outs⟩ := j
    rw [finalizeJobs]
    refine ih (fun job' outs' hmem => hstep job' outs' (List.mem_cons_of_mem _ hmem)) ?_
    have hsub : registeredBy job.plans ⊆ natives ++ registeredBy job.plans ++
        jobs.flatMap fun j => registeredBy j.1.plans := by
      intro c hc
      exact List.mem_append_left _ (List.mem_append_right _ hc)
    refine List.foldlRecOn (motive := fun b => P b) outs _ h ?_
    intro b hb o ho
    exact hstep job outs List.mem_cons_self _ hsub o ho b hb

/-- A flush whose memtables are registered and whose tasks succeed, on a version of the engine that
no native compaction changes meanwhile. `natives`: the compactions that run beside it when its
outputs are placed. -/
structure FlushRun where
  mc : ZfMaterializeCtx
  input : MaterializeInput
  st : FlushState
  mems : List ℕ
  outs : List (List MaterializeOutput)
  natives : List Compaction
  ucmp_eq : input.ucmp = mc.ucmp
  wellFormed : mc.base.WellFormed mc.ucmp
  lawful : input.engine.Lawful mc.ucmp
  planned : (planEpochs mc st st.picker mems).2.2 = none
  executed : List.Forall₂ (Executed input) (planEpochs mc st st.picker mems).1 outs

namespace FlushRun

variable (r : FlushRun)

def jobs : List Job := (planEpochs r.mc r.st r.st.picker r.mems).1

def world : FlushWorld := { tasks := .ok r.outs, current := r.mc.base, natives := r.natives }

/-- `zf_batch_outputs_` before the install loop. -/
def batch : List MaterializeOutput :=
  finalizeJobs r.mc.ucmp r.mc.base r.natives (r.jobs.zip r.outs) []

def edit : VersionEdit := installEdit r.mc.base r.batch

/-- The files of a level once the edit is applied. -/
def filesAfter (level : ℕ) : List FileMetaData := applyEdit r.mc.base r.edit level

theorem run_eq : (run r.mc r.st r.mems r.world).1 = .ok r.edit := by
  have hp : planEpochs r.mc r.st r.st.picker r.mems =
      (r.jobs, (planEpochs r.mc r.st r.st.picker r.mems).2.1, none) := by
    rw [← r.planned]
    rfl
  rw [run, zfMaterializeAllEpochs, hp]
  rfl

end FlushRun

end ZeroFlush.FlushJobs
