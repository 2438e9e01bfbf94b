import Mathlib.Data.List.Dedup
import ZeroFlush.PartitionTables
import ZeroFlush.SealedFiles
import ZeroFlush.TableFiles

/-! # The plans of an epoch's partitions

`PlanLocked` decides for every partition of a sealed epoch how it reaches a table: by a plain
output, by a merge with the files of the base level, or not yet. A merge is registered with the
compaction picker like a native compaction. -/
namespace ZeroFlush.PartitionPlans
open FixedWidthCodec FiniteMaps UserKeys WalFormat WalFiles PartitionTables SealedFiles TableFiles

inductive MaterializeDecision | kDirect | kMergeBase | kFallback | kSkip
  deriving DecidableEq, Repr

structure MaterializeOutput where
  level : ℕ := 0
  file : FileMetaData
  partId : ℕ := 0
  decision : MaterializeDecision := .kDirect
  replacedFileNumbers : List ℕ := []
  replacedL0FileNumbers : List ℕ := []
  superseded : Bool := false
  deriving DecidableEq, Repr

structure PartitionPlan where
  partId : ℕ
  decision : MaterializeDecision := .kDirect
  overlap : List FileMetaData := []
  compaction : Option Compaction := none
  overlapAll : List FileMetaData := []
  lo : Bytes := []
  hi : Bytes := []
  forceReplace : Bool := false
  baseLevel : ℕ := 0
  l0Overlap : List FileMetaData := []
  deriving DecidableEq, Repr

/-- `ratioBelow a b`: the quotient of `a` and `b`, in doubles, is below `base_merge_min_ratio`.
`proximalLevel`: a compaction into this level would have a proximal level. -/
structure MergeOptions where
  mergeIntoBaseLevel : Bool := false
  skipBatching : Bool := true
  partitionTargetBytes : ℕ := 64 * 2 ^ 20
  ratioBelow : ℕ → ℕ → Bool
  proximalLevel : ℕ → Bool := fun _ => false

/-- What the jobs of one flush share while they plan. -/
structure ZfMaterializeCtx where
  zfo : MergeOptions
  ucmp : UserComparator
  base : Version
  skippedBytes : ℕ := 0

def kMaxSkipGenerations : ℕ := 2

/-- `PendingGenCount`. -/
def pendingGenCount (se : SealedEpoch) (pid : ℕ) : ℕ := (se.gens.filter (·.1 = pid)).length

/-- The partitions of an epoch in ascending order. -/
def partIds (se : SealedEpoch) : List ℕ := (se.gens.map Prod.fst).dedup.insertionSort (· ≤ ·)

def totalSize (files : List FileMetaData) : ℕ := (files.map FileMetaData.fileSize).sum

section Scans

variable (ucmp : UserComparator) (lo hi : Bytes)

/-- The file does not meet `[lo, hi)`; both bounds are compared as they are. -/
def outside (f : FileMetaData) : Bool :=
  ucmp.compare f.largest lo == .lt || ucmp.compare f.smallest hi != .lt

structure Scan where
  overlap : List FileMetaData := []
  ok : Bool := true
  batchSkipped : Bool := false

/-- The lambda `scan_overlap`: a file another job or a native compaction reads ends it. -/
def scanOverlap (busy registered : List ℕ) : List FileMetaData → Scan → Scan
  | [], s => s
  | f :: files, s =>
    if outside ucmp lo hi f then scanOverlap busy registered files s
    else if f.number ∈ busy then
      if f.number ∈ registered then
        scanOverlap busy registered files { s with batchSkipped := true }
      else { s with ok := false }
    else scanOverlap busy registered files { s with overlap := s.overlap ++ [f] }

/-- The loop over the shallower levels: files inside the range, up to the first one that reaches
over its ends or is being compacted. -/
def scanUpper (busy : List ℕ) : List FileMetaData → List FileMetaData → List FileMetaData × Bool
  | [], l0 => (l0, false)
  | f :: files, l0 =>
    if outside ucmp lo hi f then scanUpper busy files l0
    else if ucmp.compare f.smallest lo = .lt ∨ ucmp.compare f.largest hi ≠ .lt then (l0, true)
    else if f.number ∈ busy then (l0, true)
    else scanUpper busy files (l0 ++ [f])

end Scans

/-- `registered`: the files that the merges of this job registered. -/
structure PlanState where
  picker : CompactionPicker
  registered : List ℕ := []

namespace ZfMaterializeCtx

variable (mc : ZfMaterializeCtx) (se : SealedEpoch) (batch : List MaterializeOutput)

/-- The files of the levels above the base level. -/
def upperFiles : List FileMetaData := (List.range mc.base.baseLevel).flatMap mc.base.files

/-- Wait for a later epoch while only one generation is pending. -/
def deferred (plan : PartitionPlan) : PartitionPlan :=
  if mc.zfo.skipBatching ∧ pendingGenCount se plan.partId < kMaxSkipGenerations then
    { plan with decision := .kSkip }
  else plan

/-- Wait for the shallower files, unless too many skipped bytes are waiting already. -/
def awaitUpper (plan : PartitionPlan) : PartitionPlan :=
  if mc.skippedBytes < mc.zfo.partitionTargetBytes * 32 then { plan with decision := .kSkip }
  else { plan with decision := .kFallback }

/-- The branch without merging. -/
def planUnmerged (table : Option PartitionTable) (s : PlanState) (pid : ℕ) : PartitionPlan :=
  if mc.zfo.mergeIntoBaseLevel ∧ mc.zfo.skipBatching ∧
      pendingGenCount se pid < kMaxSkipGenerations then
    { partId := pid, decision := .kSkip }
  else
    match table with
    | none => { partId := pid }
    | some t =>
      if mc.zfo.mergeIntoBaseLevel ∧ se.hasAdoptedOrphans ∧ t.isHashMode = false then
        let (lo, hi) := t.rangeOf pid
        let busy := s.picker.beingCompacted
        let scan := scanOverlap mc.ucmp lo hi busy s.registered (mc.base.files mc.base.baseLevel) {}
        let l0Shadow := mc.upperFiles.any fun f => f.number ∉ busy && !outside mc.ucmp lo hi f
        if scan.ok ∧ scan.overlap ≠ [] ∧ ¬ scan.batchSkipped ∧ ¬ l0Shadow then
          { partId := pid, lo := lo, hi := hi, forceReplace := true
            baseLevel := mc.base.baseLevel, overlap := scan.overlap }
        else { partId := pid, lo := lo, hi := hi }
      else { partId := pid }

/-- An output of the batch at level 0 meets the range. -/
def batchL0 (lo hi : Bytes) : Bool :=
  batch.any fun x => !x.superseded && x.level == 0 && !outside mc.ucmp lo hi x.file

/-- The last output of the batch that lies in the range at the base level. -/
def lastBatch (lo hi : Bytes) : Option MaterializeOutput :=
  batch.reverse.find? fun x =>
    !x.superseded && x.level == mc.base.baseLevel && !outside mc.ucmp lo hi x.file &&
      mc.ucmp.compare x.file.smallest lo != .lt && mc.ucmp.compare x.file.largest hi == .lt

def sealedBytes (pid : ℕ) : ℕ := (se.partBytes.lookup pid).getD 0

/-- The part of the plan about shallower files; `inl` ends it. -/
def planUpper (plan : PartitionPlan) (overlap : List FileMetaData)
    (upper : List FileMetaData × Bool) : PartitionPlan ⊕ PartitionPlan :=
  if upper.1 ≠ [] then
    if mc.batchL0 batch plan.lo plan.hi then .inl (mc.awaitUpper plan)
    else
      let merged := sealedBytes se plan.partId + totalSize upper.1
      let below := if totalSize overlap > 0 then mc.zfo.ratioBelow merged (totalSize overlap)
        else mc.zfo.ratioBelow 1 1
      if below then .inl { plan with decision := .kFallback }
      else .inr { plan with l0Overlap := upper.1 }
  else if upper.2 then .inl (mc.awaitUpper plan)
  else .inr plan

/-- The part of the plan about the base level; `inr` asks for the merge. -/
def planBase (s : PlanState) (plan : PartitionPlan) (scan : Scan) : PartitionPlan ⊕ PartitionPlan :=
  let last := mc.lastBatch batch plan.lo plan.hi
  let running := rangeOverlapWithCompaction mc.ucmp s.picker.compactionsInProgress plan.lo plan.hi
    mc.base.baseLevel
  if scan.overlap = [] ∧ ¬ scan.batchSkipped ∧ plan.l0Overlap = [] then
    .inl (if running then mc.deferred se plan else plan)
  else if scan.batchSkipped ∧ ¬ last.any (·.decision = .kMergeBase) then .inl (mc.deferred se plan)
  else if scan.overlap ≠ [] ∧ plan.l0Overlap = [] ∧
      mc.zfo.ratioBelow (sealedBytes se plan.partId) (totalSize scan.overlap) ∧
      (¬ mc.zfo.skipBatching ∨ pendingGenCount se plan.partId < kMaxSkipGenerations) then
    .inl (mc.deferred se plan)
  else if running then .inl plan
  else .inr { plan with overlap := scan.overlap }

/-- Everything up to the registration of a merge. -/
def planRange (s : PlanState) (pid : ℕ) (lo hi : Bytes) : PartitionPlan ⊕ PartitionPlan :=
  let plan : PartitionPlan := { partId := pid, lo := lo, hi := hi }
  let busy := s.picker.beingCompacted
  let scan := scanOverlap mc.ucmp lo hi busy s.registered (mc.base.files mc.base.baseLevel) {}
  if scan.ok then
    match mc.planUpper se batch plan scan.overlap (scanUpper mc.ucmp lo hi busy mc.upperFiles []) with
    | .inl plan => .inl plan
    | .inr plan => mc.planBase se batch s plan scan
  else .inl (mc.deferred se plan)

/-- The files on the other side of a merge. -/
def overlapAll (plan : PartitionPlan) : List FileMetaData :=
  match mc.lastBatch batch plan.lo plan.hi with
  | none => plan.overlap
  | some x => if x.decision = .kMergeBase then [x.file] else plan.overlap ++ [x.file]

/-- Constructing the compaction marks its inputs; with a proximal level it is given up, but the
marks stay. -/
def register (s : PlanState) (plan : PartitionPlan) : PartitionPlan × PlanState :=
  let files := mc.overlapAll batch plan
  let range := (boundaryKeys mc.ucmp plan.l0Overlap files).getD ([], [])
  let compaction : Compaction := ⟨mc.base.baseLevel, range.1, range.2, none⟩
  let busy := s.picker.beingCompacted ++ (plan.l0Overlap ++ files).map FileMetaData.number
  if mc.zfo.proximalLevel mc.base.baseLevel then
    ({ plan with overlap := [], overlapAll := files },
      { s with picker := { s.picker with beingCompacted := busy } })
  else
    ({ plan with decision := .kMergeBase, overlapAll := files, compaction := some compaction },
      { picker := ⟨s.picker.compactionsInProgress ++ [compaction], busy⟩
        registered := s.registered ++ plan.overlap.map FileMetaData.number })

def mergeEnabled (table : Option PartitionTable) : Bool :=
  mc.zfo.mergeIntoBaseLevel && !se.hasAdoptedOrphans && table.any (!·.isHashMode)

/-- The body of the loop over the partitions. -/
def planPartition (table : Option PartitionTable) (s : PlanState) (pid : ℕ) :
    PartitionPlan × PlanState :=
  match table, mc.mergeEnabled se table with
  | some t, true =>
    match mc.planRange se batch s pid (t.rangeOf pid).1 (t.rangeOf pid).2 with
    | .inl plan => (plan, s)
    | .inr plan => mc.register batch s plan
  | _, _ => (mc.planUnmerged se table s pid, s)

def planLoop (table : Option PartitionTable) : PlanState → List ℕ → List PartitionPlan × PlanState
  | s, [] => ([], s)
  | s, pid :: pids =>
    let (plan, s') := mc.planPartition se batch table s pid
    let (plans, s'') := planLoop table s' pids
    (plan :: plans, s'')

/-- `PlanLocked`. -/
def planLocked (table : Option PartitionTable) (picker : CompactionPicker) :
    List PartitionPlan × CompactionPicker :=
  let (plans, s) := mc.planLoop se batch table ⟨picker, []⟩ (partIds se)
  (plans, s.picker)

end ZfMaterializeCtx

/-- `skipped_gens_`: every pending generation of the partitions that wait. -/
def skippedGens (se : SealedEpoch) (plans : List PartitionPlan) : List FileId :=
  (plans.filter (·.decision = .kSkip)).flatMap fun p => se.gens.filter (·.1 = p.partId)

/-- `FindPlan`. -/
def findPlan (plans : List PartitionPlan) (pid : ℕ) : Option PartitionPlan :=
  plans.find? (·.partId = pid)

/-! ## What the branches of a plan decide -/

/-- The plan of a partition ends without a merge and replaces nothing. -/
structure Stops (pid : ℕ) (p : PartitionPlan) : Prop where
  partId : p.partId = pid
  decision : p.decision ≠ .kMergeBase
  forceReplace : p.forceReplace = false

/-- What `scan_overlap` finds at the base level. -/
def ZfMaterializeCtx.scanBase (mc : ZfMaterializeCtx) (s : PlanState) (lo hi : Bytes) : Scan :=
  scanOverlap mc.ucmp lo hi s.picker.beingCompacted s.registered (mc.base.files mc.base.baseLevel) {}

/-- The plan asks for a merge of the files that the scans found. -/
structure Merges (mc : ZfMaterializeCtx) (s : PlanState) (pid : ℕ) (lo hi : Bytes)
    (p : PartitionPlan) : Prop where
  plan_eq : p = { partId := pid, lo := lo, hi := hi, overlap := p.overlap, l0Overlap := p.l0Overlap }
  overlap_eq : (mc.scanBase s lo hi).overlap = p.overlap
  scan_ok : (mc.scanBase s lo hi).ok = true
  not_skipped : (mc.scanBase s lo hi).batchSkipped = false
  upper_eq : (scanUpper mc.ucmp lo hi s.picker.beingCompacted mc.upperFiles []).1 = p.l0Overlap
  free : rangeOverlapWithCompaction mc.ucmp s.picker.compactionsInProgress lo hi
    mc.base.baseLevel = false
  files : p.overlap ≠ [] ∨ p.l0Overlap ≠ []

namespace ZfMaterializeCtx

variable {mc : ZfMaterializeCtx} {se : SealedEpoch} {plan p : PartitionPlan} {s : PlanState}

theorem stops_deferred {pid : ℕ} (h : Stops pid plan) : Stops pid (mc.deferred se plan) := by
  rw [deferred]
  split
  · exact ⟨h.partId, by simp, h.forceReplace⟩
  · exact h

theorem stops_awaitUpper {pid : ℕ} (h : Stops pid plan) : Stops pid (mc.awaitUpper plan) := by
  rw [awaitUpper]
  split <;> exact ⟨h.partId, by simp, h.forceReplace⟩

theorem lastBatch_nil (lo hi : Bytes) : mc.lastBatch [] lo hi = none := rfl

theorem planUpper_cases {pid : ℕ} (h : Stops pid plan) (hl0 : plan.l0Overlap = [])
    (overlap : List FileMetaData) (upper : List FileMetaData × Bool) :
    (∃ p, mc.planUpper se [] plan overlap upper = .inl p ∧ Stops pid p) ∨
      mc.planUpper se [] plan overlap upper = .inr { plan with l0Overlap := upper.1 } := by
  have hbatch : mc.batchL0 [] plan.lo plan.hi = false := rfl
  rw [planUpper]
  split
  next =>
    dsimp only
    rw [hbatch, if_neg Bool.false_ne_true]
    generalize (if totalSize overlap > 0 then _ else _ : Bool) = below
    cases below with
    | true => exact .inl ⟨_, rfl, h.partId, by simp, h.forceReplace⟩
    | false => exact .inr rfl
  next hnil =>
    split
    · exact .inl ⟨_, rfl, stops_awaitUpper h⟩
    · have hu : upper.1 = plan.l0Overlap := by
        rw [hl0]
        exact not_not.mp hnil
      exact .inr (by rw [hu])

theorem planBase_cases {pid : ℕ} (h : Stops pid plan) (scan : Scan) :
    (∃ p, mc.planBase se [] s plan scan = .inl p ∧ Stops pid p) ∨
      (mc.planBase se [] s plan scan = .inr { plan with overlap := scan.overlap } ∧
        scan.batchSkipped = false ∧ (scan.overlap ≠ [] ∨ plan.l0Overlap ≠ []) ∧
        rangeOverlapWithCompaction mc.ucmp s.picker.compactionsInProgress plan.lo plan.hi
          mc.base.baseLevel = false) := by
  simp only [planBase, lastBatch_nil, Option.any_none, Bool.false_eq_true, not_false_eq_true,
    and_true]
  cases hrun : rangeOverlapWithCompaction mc.ucmp s.picker.compactionsInProgress plan.lo plan.hi
    mc.base.baseLevel with
  | true =>
    left
    split
    · exact ⟨_, rfl, stops_deferred h⟩
    · split
      · exact ⟨_, rfl, stops_deferred h⟩
      · split
        · exact ⟨_, rfl, stops_deferred h⟩
        · exact ⟨_, rfl, h⟩
  | false =>
    by_cases hempty : scan.overlap = [] ∧ ¬ scan.batchSkipped = true ∧ plan.l0Overlap = []
    · exact .inl ⟨plan, if_pos hempty, h⟩
    · rw [if_neg hempty]
      cases hskip : scan.batchSkipped with
      | true => exact .inl ⟨_, if_pos rfl, stops_deferred h⟩
      | false =>
        have hfiles : scan.overlap ≠ [] ∨ plan.l0Overlap ≠ [] := by
          by_contra hno
          rw [not_or, not_not, not_not] at hno
          exact hempty ⟨hno.1, by simp [hskip], hno.2⟩
        rw [if_neg Bool.false_ne_true, if_neg Bool.false_ne_true]
        split
        · exact .inl ⟨_, rfl, stops_deferred h⟩
        · exact .inr ⟨rfl, rfl, hfiles, rfl⟩

/-- A partition's range ends without a merge, or asks for one. -/
theorem planRange_cases (pid : ℕ) (lo hi : Bytes) :
    (∃ p, mc.planRange se [] s pid lo hi = .inl p ∧ Stops pid p) ∨
      ∃ p, mc.planRange se [] s pid lo hi = .inr p ∧ Merges mc s pid lo hi p := by
  have hplan : ∀ l0, Stops pid ⟨pid, .kDirect, [], none, [], lo, hi, false, 0, l0⟩ :=
    fun _ => ⟨rfl, by simp, rfl⟩
  rw [planRange]
  split
  next hok =>
    obtain ⟨p, hp, hstop⟩ | hp := @planUpper_cases mc se _ pid (hplan []) rfl
      (scanOverlap mc.ucmp lo hi s.picker.beingCompacted s.registered
        (mc.base.files mc.base.baseLevel) {}).overlap
      (scanUpper mc.ucmp lo hi s.picker.beingCompacted mc.upperFiles [])
    · rw [hp]
      exact .inl ⟨p, rfl, hstop⟩
    · rw [hp]
      obtain ⟨p, hp, hstop⟩ | ⟨hp, hskip, hfiles, hfree⟩ :=
        @planBase_cases mc se _ s pid (hplan _) (scanOverlap mc.ucmp lo hi s.picker.beingCompacted
          s.registered (mc.base.files mc.base.baseLevel) {})
      · exact .inl ⟨p, hp, hstop⟩
      · exact .inr ⟨_, hp, rfl, rfl, hok, hskip, rfl, hfree, hfiles⟩
  next => exact .inl ⟨_, rfl, stops_deferred (hplan [])⟩

theorem planUnmerged_spec (table : Option PartitionTable) (s : PlanState) (pid : ℕ) :
    (mc.planUnmerged se table s pid).partId = pid ∧
      (mc.planUnmerged se table s pid).decision ≠ .kMergeBase := by
  simp only [planUnmerged]
  split
  · exact ⟨rfl, by simp⟩
  · cases table with
    | none => exact ⟨rfl, by simp⟩
    | some t =>
      dsimp only
      split
      · split <;> exact ⟨rfl, by simp⟩
      · exact ⟨rfl, by simp⟩

theorem register_cases {pid : ℕ} {lo hi : Bytes} (h : Merges mc s pid lo hi p) :
    Stops pid (mc.register [] s p).1 ∨
      (mc.register [] s p).1 = { p with
        decision := .kMergeBase
        overlapAll := p.overlap
        compaction := some ⟨mc.base.baseLevel,
          ((boundaryKeys mc.ucmp p.l0Overlap p.overlap).getD ([], [])).1,
          ((boundaryKeys mc.ucmp p.l0Overlap p.overlap).getD ([], [])).2, none⟩ } := by
  have hp : p.partId = pid ∧ p.decision = .kDirect ∧ p.forceReplace = false := by
    rw [h.plan_eq]
    exact ⟨rfl, rfl, rfl⟩
  rw [register]
  dsimp only
  split
  · refine .inl ⟨hp.1, ?_, hp.2.2⟩
    show p.decision ≠ _
    rw [hp.2.1]
    decide
  · exact .inr rfl

/-- Where merging is possible, the checks of the range decide. -/
theorem planPartition_of_enabled {t : PartitionTable} (hm : mc.mergeEnabled se (some t) = true)
    (pid : ℕ) : mc.planPartition se [] (some t) s pid =
      match mc.planRange se [] s pid (t.rangeOf pid).1 (t.rangeOf pid).2 with
      | .inl plan => (plan, s)
      | .inr plan => mc.register [] s plan := by
  rw [planPartition.eq_def, hm]

/-- The plan of a partition: a branch that merges nothing, or a registered merge. -/
theorem planPartition_cases (table : Option PartitionTable) (s : PlanState) (pid : ℕ) :
    (mc.planPartition se [] table s pid).1 = mc.planUnmerged se table s pid ∨
      Stops pid (mc.planPartition se [] table s pid).1 ∨
      ∃ t p, table = some t ∧ mc.mergeEnabled se table = true ∧
        Merges mc s pid (t.rangeOf pid).1 (t.rangeOf pid).2 p ∧
        mc.planPartition se [] table s pid = mc.register [] s p ∧
        (mc.register [] s p).1.decision = .kMergeBase := by
  cases table with
  | none => exact .inl rfl
  | some t =>
    cases hm : mc.mergeEnabled se (some t) with
    | false =>
      left
      rw [planPartition.eq_def, hm]
    | true =>
      right
      have heq := @planPartition_of_enabled mc se s t hm pid
      obtain ⟨p, hp, hstop⟩ | ⟨p, hp, hmerges⟩ := @planRange_cases mc se s pid (t.rangeOf pid).1
        (t.rangeOf pid).2
      · rw [heq, hp]
        exact .inl hstop
      · rw [heq, hp]
        obtain hstop | hreg := register_cases hmerges
        · exact .inl hstop
        · exact .inr ⟨t, p, rfl, rfl, hmerges, rfl, by rw [hreg]⟩

theorem partId_planPartition (table : Option PartitionTable) (s : PlanState) (pid : ℕ) :
    (mc.planPartition se [] table s pid).1.partId = pid := by
  obtain h | h | ⟨t, p, -, -, hm, heq, hd⟩ := @planPartition_cases mc se table s pid
  · rw [h]
    exact (planUnmerged_spec table s pid).1
  · exact h.partId
  · rw [heq]
    obtain hstop | hreg := register_cases hm
    · exact hstop.partId
    · rw [hreg, hm.plan_eq]

/-- The loop goes over the partitions in order; every plan is made in some state of it. -/
theorem planLoop_spec (table : Option PartitionTable) (s : PlanState) (pids : List ℕ) :
    (mc.planLoop se [] table s pids).1.map PartitionPlan.partId = pids ∧
      ∀ plan ∈ (mc.planLoop se [] table s pids).1, ∃ s', ∃ pid ∈ pids,
        plan = (mc.planPartition se [] table s' pid).1 := by
  induction pids generalizing s with
  | nil => exact ⟨rfl, fun plan h => absurd h List.not_mem_nil⟩
  | cons pid pids ih =>
    obtain ⟨hids, hplans⟩ := ih (mc.planPartition se [] table s pid).2
    refine ⟨congrArg₂ List.cons (partId_planPartition table s pid) hids, ?_⟩
    intro plan hplan
    obtain rfl | hplan := List.mem_cons.mp hplan
    · exact ⟨s, pid, List.mem_cons_self, rfl⟩
    · obtain ⟨s', q, hq, heq⟩ := hplans plan hplan
      exact ⟨s', q, List.mem_cons_of_mem _ hq, heq⟩

end ZfMaterializeCtx

theorem mem_partIds {se : SealedEpoch} {pid : ℕ} :
    pid ∈ partIds se ↔ ∃ f ∈ se.gens, f.1 = pid := by
  rw [partIds, List.mem_insertionSort, List.mem_dedup, List.mem_map]

section Scans

variable {ucmp : UserComparator} {lo hi : Bytes} {busy registered : List ℕ}

theorem scanOverlap_batchSkipped (files : List FileMetaData) {s : Scan}
    (h : s.batchSkipped = true) :
    (scanOverlap ucmp lo hi busy registered files s).batchSkipped = true := by
  induction files generalizing s with
  | nil => exact h
  | cons f files ih =>
    rw [scanOverlap]
    split
    · exact ih h
    · split
      · split
        · exact ih rfl
        · exact h
      · exact ih h

/-- A scan that is not stopped and skips nothing finds every file that meets the range. -/
theorem scanOverlap_overlap {files : List FileMetaData} {s : Scan}
    (hok : (scanOverlap ucmp lo hi busy registered files s).ok = true)
    (hskip : (scanOverlap ucmp lo hi busy registered files s).batchSkipped = false) :
    (scanOverlap ucmp lo hi busy registered files s).overlap =
      s.overlap ++ files.filter fun f => !outside ucmp lo hi f := by
  induction files generalizing s with
  | nil => exact (List.append_nil _).symm
  | cons f files ih =>
    rw [scanOverlap] at hok hskip ⊢
    by_cases hout : outside ucmp lo hi f = true
    · rw [if_pos hout] at hok hskip ⊢
      rw [List.filter_cons, hout]
      exact ih hok hskip
    · rw [if_neg hout] at hok hskip ⊢
      rw [List.filter_cons, Bool.eq_false_of_not_eq_true hout]
      split at hok
      next hbusy =>
        rw [if_pos hbusy] at hskip
        split at hok
        next hreg =>
          rw [if_pos hreg, scanOverlap_batchSkipped files rfl] at hskip
          cases hskip
        next => cases hok
      next hbusy =>
        rw [if_neg hbusy] at hskip ⊢
        rw [ih hok hskip, List.append_assoc]
        rfl

/-- The shallower files of a plan lie in its range and are not read by a compaction. -/
theorem mem_scanUpper {files l0 : List FileMetaData} {f : FileMetaData}
    (h : f ∈ (scanUpper ucmp lo hi busy files l0).1) :
    f ∈ l0 ∨ f ∈ files ∧ KeyRanges.Le ucmp.compare lo f.smallest ∧
      KeyRanges.Lt ucmp.compare f.largest hi ∧ f.number ∉ busy := by
  induction files generalizing l0 with
  | nil => exact .inl h
  | cons g files ih =>
    have hcons : (f ∈ l0 ∨ f ∈ files ∧ KeyRanges.Le ucmp.compare lo f.smallest ∧
        KeyRanges.Lt ucmp.compare f.largest hi ∧ f.number ∉ busy) →
        f ∈ l0 ∨ f ∈ g :: files ∧ KeyRanges.Le ucmp.compare lo f.smallest ∧
          KeyRanges.Lt ucmp.compare f.largest hi ∧ f.number ∉ busy :=
      fun h => h.imp_right fun h => ⟨List.mem_cons_of_mem _ h.1, h.2⟩
    rw [scanUpper] at h
    split at h
    · exact hcons (ih h)
    · split at h
      · exact .inl h
      next hin =>
        split at h
        · exact .inl h
        next hbusy =>
          obtain h | h := ih h
          · obtain h | h := List.mem_append.mp h
            · exact .inl h
            · cases List.mem_singleton.mp h
              obtain ⟨hlo, hhi⟩ := not_or.mp hin
              exact .inr ⟨List.mem_cons_self, KeyRanges.not_lt.mp hlo, not_not.mp hhi, hbusy⟩
          · exact hcons (.inr h)

end Scans

/-- What a registered merge is made of. -/
structure MergePlan (mc : ZfMaterializeCtx) (plan : PartitionPlan) : Prop where
  overlap_eq : plan.overlap =
    (mc.base.files mc.base.baseLevel).filter fun f => !outside mc.ucmp plan.lo plan.hi f
  overlapAll_eq : plan.overlapAll = plan.overlap
  upper : ∀ f ∈ plan.l0Overlap, (∃ l < mc.base.baseLevel, f ∈ mc.base.files l) ∧
    KeyRanges.Le mc.ucmp.compare plan.lo f.smallest ∧
    KeyRanges.Lt mc.ucmp.compare f.largest plan.hi
  forceReplace : plan.forceReplace = false
  compaction_eq : plan.compaction = some ⟨mc.base.baseLevel,
    ((boundaryKeys mc.ucmp plan.l0Overlap plan.overlap).getD ([], [])).1,
    ((boundaryKeys mc.ucmp plan.l0Overlap plan.overlap).getD ([], [])).2, none⟩

theorem mergePlan_of_mem {mc : ZfMaterializeCtx} {se : SealedEpoch} {table : Option PartitionTable}
    {picker : CompactionPicker} {plan : PartitionPlan}
    (hplan : plan ∈ (mc.planLocked se [] table picker).1) (hd : plan.decision = .kMergeBase) :
    MergePlan mc plan := by
  obtain ⟨s, pid, -, rfl⟩ := (ZfMaterializeCtx.planLoop_spec table ⟨picker, []⟩ _).2 plan hplan
  obtain h | h | ⟨t, p, -, -, hm, heq, -⟩ := @ZfMaterializeCtx.planPartition_cases mc se table s pid
  · rw [h] at hd
    exact absurd hd (ZfMaterializeCtx.planUnmerged_spec table s pid).2
  · exact absurd hd h.decision
  · rw [heq] at hd ⊢
    obtain hstop | hreg := ZfMaterializeCtx.register_cases hm
    · exact absurd hd hstop.decision
    · rw [hreg]
      have hlo : p.lo = (t.rangeOf pid).1 := by rw [hm.plan_eq]
      have hhi : p.hi = (t.rangeOf pid).2 := by rw [hm.plan_eq]
      constructor
      · show p.overlap = _
        rw [← hm.overlap_eq]
        have hscan := scanOverlap_overlap hm.scan_ok hm.not_skipped
        simpa [ZfMaterializeCtx.scanBase, hlo, hhi] using hscan
      · rfl
      · intro f hf
        change f ∈ p.l0Overlap at hf
        rw [← hm.upper_eq] at hf
        obtain hf | ⟨hf, hsmall, hlarge, -⟩ := mem_scanUpper hf
        · exact absurd hf List.not_mem_nil
        · obtain ⟨l, hl, hfl⟩ := List.mem_flatMap.mp hf
          refine ⟨⟨l, List.mem_range.mp hl, hfl⟩, ?_, ?_⟩
          · show KeyRanges.Le _ p.lo _
            rw [hlo]
            exact hsmall
          · show KeyRanges.Lt _ _ p.hi
            rw [hhi]
            exact hlarge
      · show p.forceReplace = false
        rw [hm.plan_eq]
      · rfl

end ZeroFlush.PartitionPlans
