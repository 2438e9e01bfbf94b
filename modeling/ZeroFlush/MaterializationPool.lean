import ZeroFlush.FlushJobs
import ZeroFlush.TaskPools

/-! # The task pool of a flush

The partitions of all epochs of a flush are one list of tasks for the pool. A table gets its epoch
number, by which level 0 is searched, when the worker that builds it is done with it. -/
namespace ZeroFlush.MaterializationPool
open FixedWidthCodec UserKeys WalFormat WalFiles PartitionTables SealedFiles TableFiles
  PartitionPlans Materialization FlushJobs GuardedRuns TaskPools

section Tables

variable (input : MaterializeInput)

/-- The tables that `MaterializePartition` builds, in this order. One that comes out empty has its
file deleted, but draws an epoch number all the same. -/
def partitionTables (se : SealedEpoch) (table : Option PartitionTable) (pid : ℕ)
    (gens : List FileId) (lo hi : Bytes) :
    Except Status (List (Option MaterializeOutput)) :=
  let keys := input.aside gens
  if keys = [] then .ok []
  else
    let oobData := outOfBounds input.ucmp lo hi keys
    let legacyHash := table.any (·.isHashMode) && decide (lo = [] ∧ hi = [])
    let cut := input.sliceTable table
    if (oobData ∨ legacyHash) ∧ cut.isHashMode = false ∧ cut.partitions > 1 then
      let his := cut.partIds.map fun i => (cut.rangeOf i).2
      .ok ((slices input.ucmp his keys).map fun slice => (input.buildOne slice).head?)
    else if table.any (!·.isHashMode) ∧ oobData ∧ se.tableVersion = 0 then
      .error (outsideTableBounds pid)
    else .ok [(input.buildOne keys).head?]

/-- The tables of `ExecutePartition`. A merge finishes no table without entries. -/
def partTables (job : Job) (pid : ℕ) : Except Status (List (Option MaterializeOutput)) :=
  let gens := job.se.gens.filter (·.1 = pid)
  let range := match job.table with
    | some t => if t.isHashMode then ([], []) else t.rangeOf pid
    | none => ([], [])
  if gens = [] then .ok []
  else
    match findPlan job.plans pid with
    | none => partitionTables input job.se job.table pid gens range.1 range.2
    | some plan =>
      match plan.decision with
      | .kSkip => .ok []
      | .kMergeBase =>
        (input.materializeMergePartition job.se pid gens plan.overlapAll plan.l0Overlap plan.lo
          plan.hi).map (·.map some)
      | _ => partitionTables input job.se job.table pid gens range.1 range.2

theorem toList_head?_buildOne (keys : List TableEntry) :
    (input.buildOne keys).head?.toList = input.buildOne keys := by
  rw [MaterializeInput.buildOne]
  split <;> rfl

theorem partitionTables_spec (se : SealedEpoch) (table : Option PartitionTable) (pid : ℕ)
    (gens : List FileId) (lo hi : Bytes) :
    input.materializePartition se table pid gens lo hi =
      (partitionTables input se table pid gens lo hi).map (·.flatMap Option.toList) := by
  rw [MaterializeInput.materializePartition, partitionTables]
  split
  · rfl
  · dsimp only
    split
    · refine congrArg Except.ok ?_
      dsimp only
      rw [List.flatMap_map]
      exact congrArg (List.flatMap · _) (funext fun slice => (toList_head?_buildOne input slice).symm)
    · split
      · rfl
      · refine congrArg Except.ok ?_
        dsimp only
        rw [List.flatMap_singleton]
        exact (toList_head?_buildOne input _).symm

/-- The outputs of a task are its tables that have a file. -/
theorem partTables_spec (job : Job) (pid : ℕ) : input.executePartition job pid =
    (partTables input job pid).map (·.flatMap Option.toList) := by
  rw [MaterializeInput.executePartition, partTables]
  split
  · rfl
  · cases findPlan job.plans pid with
    | none => exact partitionTables_spec ..
    | some plan =>
      cases hd : plan.decision with
      | kSkip =>
        dsimp only
        rw [hd]
        rfl
      | kMergeBase =>
        dsimp only
        rw [hd]
        cases input.materializeMergePartition job.se pid _ plan.overlapAll plan.l0Overlap plan.lo
          plan.hi with
        | error e => rfl
        | ok outs =>
          refine congrArg Except.ok ?_
          simp [List.flatMap_map]
      | kDirect =>
        dsimp only
        rw [hd]
        exact partitionTables_spec ..
      | kFallback =>
        dsimp only
        rw [hd]
        exact partitionTables_spec ..

end Tables

/-- `index`: the place of the job among those of the flush. -/
structure MaterializeTask where
  index : ℕ
  job : Job
  partId : ℕ

/-- The tasks of all jobs, oldest epoch first. -/
def collectFrom : ℕ → List Job → List MaterializeTask
  | _, [] => []
  | i, job :: jobs => (collectTasks job).map (⟨i, job, ·⟩) ++ collectFrom (i + 1) jobs

/-- A flush whose pool was joined without an error. `turns`: the turns of its workers; the flush
finds the version `current` and the native compactions once they have been joined. The loop that
the pool runs for one worker in the thread of the flush takes the turns of a single worker. -/
structure PoolRun where
  mc : ZfMaterializeCtx
  input : MaterializeInput
  st : FlushState
  mems : List ℕ
  materializeParallelism : ℕ
  nextEpochNumber : ℕ
  fileNumber : ℕ → ℕ → ℕ
  turns : List (Turn Status)
  current : Version
  natives : List Compaction := []

namespace PoolRun

variable (r : PoolRun)

def jobs : List Job := (planEpochs r.mc r.st r.st.picker r.mems).1

def tasks : List MaterializeTask := collectFrom 0 r.jobs

def tablesOf (task : MaterializeTask) : Except Status (List (Option MaterializeOutput)) :=
  partTables r.input task.job task.partId

/-- What the tasks are for the workers. -/
def loads : List (Except Status ℕ) := r.tasks.map fun task => (r.tablesOf task).map List.length

def size : ℕ := min (max r.materializeParallelism 1) r.tasks.length

def pool : Pool Status := run (Pool.step r.loads) (Pool.start r.size r.nextEpochNumber) r.turns

/-- The pool returns, and the flush goes on. -/
def Succeeds : Prop :=
  (planEpochs r.mc r.st r.st.picker r.mems).2.2 = none ∧ r.pool.Joined r.size ∧
    r.pool.firstError = none

instance : Decidable r.Succeeds := inferInstanceAs (Decidable (_ ∧ _ ∧ _))

/-- A table of a task, if it has a file. -/
def tableAt (part : ℕ × ℕ) : Option MaterializeOutput :=
  match (r.tasks[part.1]?).map r.tablesOf with
  | some (.ok tables) => (tables[part.2]?).join
  | _ => none

/-- The output that was appended when a number was drawn for it. -/
def output (t : Ticket) : Option MaterializeOutput :=
  (r.tableAt (t.task, t.part)).map fun o =>
    { o with file := { o.file with
        number := r.fileNumber t.task t.part
        epochNumber := t.number } }

/-- The outputs of a job. -/
def outputsOf (index : ℕ) : List MaterializeOutput :=
  (r.pool.drawn.filter fun t => (r.tasks[t.task]?).any (·.index == index)).filterMap r.output

def batch : List MaterializeOutput :=
  finalizeJobs r.mc.ucmp r.current r.natives
    (r.jobs.zip ((List.range r.jobs.length).map r.outputsOf)) []

def edit : VersionEdit := installEdit r.current r.batch

/-- Some user key is in both files. -/
def sharesKey (ucmp : UserComparator) (f g : FileMetaData) : Bool :=
  f.entries.any fun a => g.entries.any fun b => ucmp.compare a.userKey b.userKey == .eq

/-- Both tables are of one partition, the first of an older epoch, and share a user key. -/
def older (x y : ℕ × ℕ) : Bool :=
  match r.tasks[x.1]?, r.tasks[y.1]?, r.tableAt x, r.tableAt y with
  | some a, some b, some o, some o' =>
    a.partId == b.partId && decide (a.job.epoch < b.job.epoch) &&
      sharesKey r.mc.ucmp o.file o'.file
  | _, _, _, _ => false

/-- The tables of all tasks. -/
def parts : List (ℕ × ℕ) :=
  (List.range r.tasks.length).flatMap fun i =>
    match (r.tasks[i]?).map r.tablesOf with
    | some (.ok tables) => (List.range tables.length).map fun k => (i, k)
    | _ => []

/-- No worker is done with a table before the tables of older epochs of its partition that share a
user key with it are done. -/
def InEpochOrder : Prop :=
  Guarded (Pool.step r.loads) (KeepsOrder r.parts r.older) (Pool.start r.size r.nextEpochNumber)
    r.turns

instance : Decidable r.InEpochOrder :=
  decidableGuarded (Pool.step r.loads) (KeepsOrder r.parts r.older)
    (Pool.start r.size r.nextEpochNumber) r.turns

/-- Of two outputs of a partition that are installed in level 0 and share a user key, the one of the
later epoch has the larger epoch number. -/
def RecentFirst : Prop :=
  r.Succeeds → ∀ t ∈ r.pool.drawn, ∀ u ∈ r.pool.drawn,
    ∀ a ∈ r.tasks[t.task]?, ∀ b ∈ r.tasks[u.task]?, a.partId = b.partId →
      a.job.epoch < b.job.epoch → ∀ o ∈ r.output t, ∀ o' ∈ r.output u,
        (0, o.file) ∈ r.edit.added → (0, o'.file) ∈ r.edit.added →
          sharesKey r.mc.ucmp o.file o'.file → o.file.epochNumber < o'.file.epochNumber

variable {r}

theorem mem_parts {x : ℕ × ℕ} {o : MaterializeOutput} (h : r.tableAt x = some o) : x ∈ r.parts := by
  rw [tableAt] at h
  split at h
  next tables htables =>
    obtain ⟨task, htask, hload⟩ := Option.map_eq_some_iff.mp htables
    obtain ⟨hi, -⟩ := List.getElem?_eq_some_iff.mp htask
    have hk : x.2 < tables.length := by
      by_contra hge
      rw [List.getElem?_eq_none (Nat.le_of_not_lt hge)] at h
      cases h
    refine List.mem_flatMap.mpr ⟨x.1, List.mem_range.mpr hi, ?_⟩
    rw [htables]
    exact List.mem_map.mpr ⟨x.2, List.mem_range.mpr hk, rfl⟩
  · cases h

/-- An output of level 0 is never below an older one of its partition, if the workers finish the
tables that share user keys in the order of the epochs. -/
theorem recentFirst_of_inEpochOrder (r : PoolRun) (hok : r.InEpochOrder) : r.RecentFirst := by
  intro _ t ht u hu a ha b hb hpart hepoch o ho o' ho' _ _ hshare
  obtain ⟨x, hx, rfl⟩ := Option.map_eq_some_iff.mp ho
  obtain ⟨y, hy, rfl⟩ := Option.map_eq_some_iff.mp ho'
  have hxy : sharesKey r.mc.ucmp x.file y.file = true := hshare
  have holder : r.older (t.task, t.part) (u.task, u.part) = true := by
    rw [older, Option.mem_def.mp ha, Option.mem_def.mp hb, hx, hy]
    simp [hpart, hepoch, hxy]
  exact numbers_follow_order hok ht hu (mem_parts hx) holder

end PoolRun

namespace TwoEpochs

def engine : TableEngine := ⟨id, fun _ => false, fun es => 64 * es.length⟩

/-- The base level holds `a` already, so that outputs with this key go to level 0. -/
def version : Version where
  numLevels := 2
  baseLevel := 1
  files l := if l = 1 then [{ newFile engine [⟨[97], 1, kTypeValue⟩] with number := 10 }] else []
  baseLevel_pos := Nat.one_pos
  baseLevel_lt := Nat.one_lt_two

/-- Two epochs of one partition. -/
def start : FlushState where
  sealedCache := (({} : SealedFileCache).addEpochWithRecoveryAdoption
    { epoch := 1, tableVersion := 0, gens := [(0, 0)] }).addEpochWithRecoveryAdoption
    { epoch := 2, tableVersion := 0, gens := [(0, 1)] }
  tables := .init (.createHash 0 1 Nat.one_pos)

/-- Both epochs hold a version of `a`. -/
def input : MaterializeInput where
  engine := engine
  ucmp := .bytewise
  currentTable := start.tables.current
  records f := [⟨[97], 5 + f.2, kTypeValue⟩]

/-- Two workers, each with one epoch. -/
def runWith (turns : List ℕ) : PoolRun where
  mc := { zfo := { ratioBelow := fun _ _ => false }, ucmp := .bytewise, base := version }
  input := input
  st := start
  mems := [1, 2]
  materializeParallelism := 2
  nextEpochNumber := 7
  fileNumber i _ := 20 + i
  turns := turns.map fun w => ⟨w, none⟩
  current := version

/-- The worker with the older epoch is done first. -/
def olderFirst : PoolRun := runWith [0, 0, 1, 1, 0, 1, 0, 0, 0, 1, 1, 1]

/-- The output of an epoch. -/
def outputOf (epoch epochNumber : ℕ) : MaterializeOutput where
  file := { newFile engine [⟨[97], 4 + epoch, kTypeValue⟩] with
    number := 19 + epoch, epochNumber := epochNumber }

/-- The worker with the later epoch is done first. -/
def laterFirst : PoolRun := runWith [0, 0, 1, 1, 1, 0, 0, 0, 0, 1, 1, 1]

end TwoEpochs

open TwoEpochs in
/-- Two workers that happen to finish in the order of the epochs. -/
theorem recentFirst_olderFirst : olderFirst.Succeeds ∧ olderFirst.RecentFirst :=
  ⟨by decide +kernel, PoolRun.recentFirst_of_inEpochOrder olderFirst (by decide +kernel)⟩

open TwoEpochs in
/-- When the later epoch is done first, level 0 is searched from the older epoch on. -/
theorem recentFirst_fails : ¬ ∀ r : PoolRun, r.RecentFirst := by
  intro h
  have hsucceeds : laterFirst.Succeeds := by decide +kernel
  have htask : ∀ i < 2, (laterFirst.tasks[i]?).map (fun a => (a.partId, a.job.epoch)) =
      some (0, i + 1) := by decide +kernel
  obtain ⟨a, ha, hae⟩ := Option.map_eq_some_iff.mp (htask 0 (by decide))
  obtain ⟨b, hb, hbe⟩ := Option.map_eq_some_iff.mp (htask 1 (by decide))
  obtain ⟨hap, hae⟩ := Prod.mk.inj hae
  obtain ⟨hbp, hbe⟩ := Prod.mk.inj hbe
  have hlt := h laterFirst hsucceeds ⟨0, 0, 8⟩ (by decide +kernel) ⟨1, 0, 7⟩ (by decide +kernel)
    a ha b hb (hap.trans hbp.symm) (by omega) (outputOf 1 8) (by decide +kernel) (outputOf 2 7)
    (by decide +kernel) (by decide +kernel) (by decide +kernel) (by decide +kernel)
  exact absurd hlt (by decide)

end ZeroFlush.MaterializationPool
