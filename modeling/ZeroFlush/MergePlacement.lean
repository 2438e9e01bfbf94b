import ZeroFlush.FlushJobs

/-! # Where merge outputs are placed

The check before a merge output is placed looks at all registered compactions, and its own is still
one of them. What the fallback to level 0 clears is filled again from the plan. -/
namespace ZeroFlush.MergePlacement
open FixedWidthCodec UserKeys WalFormat PartitionTables SealedFiles TableFiles PartitionPlans
  Materialization FlushJobs

/-- The loop of `FinalizeLocked` over the outputs of a job. -/
def finalizeLocked (ucmp : UserComparator) (current : Version) (running : List Compaction)
    (plans : List PartitionPlan) (batch outs : List MaterializeOutput) : List MaterializeOutput :=
  outs.foldl (placeOutput ucmp current running plans) batch

/-- A compaction other than `own` writes into the range of the file at the planned level. -/
def othersConflict (ucmp : UserComparator) (running : List Compaction) (own : Compaction)
    (f : FileMetaData) : Bool :=
  rangeOverlapWithCompaction ucmp (running.erase own) f.smallest f.largest own.outputLevel

/-- At the planned level with the lists of the plan, or at level 0 replacing nothing. -/
def AsPlanned (ucmp : UserComparator) (running : List Compaction) (plan : PartitionPlan)
    (own : Compaction) (x : MaterializeOutput) : Prop :=
  if othersConflict ucmp running own x.file then
    x.level = 0 ∧ x.replacedFileNumbers = [] ∧ x.replacedL0FileNumbers = []
  else
    x.level = own.outputLevel ∧
      (∀ n, n ∈ x.replacedFileNumbers ↔ n ∈ plan.overlap.map FileMetaData.number) ∧
      x.replacedL0FileNumbers = plan.l0Overlap.map FileMetaData.number

/-- Nothing to replace where another compaction is in the way; elsewhere the file does not meet the
range of its own compaction, and the outputs it takes the place of replace no further files. -/
def Fits (ucmp : UserComparator) (running : List Compaction) (plan : PartitionPlan)
    (own : Compaction) (before : List MaterializeOutput) (f : FileMetaData) : Prop :=
  if othersConflict ucmp running own f then
    plan.overlap = [] ∧ plan.l0Overlap = [] ∧
      ∀ x ∈ before, supersedes ucmp 0 f x = true → x.replacedFileNumbers = []
  else
    rangeOverlapWithCompaction ucmp [own] f.smallest f.largest own.outputLevel = false ∧
      ∀ x ∈ before, supersedes ucmp own.outputLevel f x = true →
        ∀ n ∈ x.replacedFileNumbers, n ∈ plan.overlap.map FileMetaData.number

/-- Placing later outputs changes only whether an output is superseded. -/
structure SamePlace (x y : MaterializeOutput) : Prop where
  file_eq : y.file = x.file
  level_eq : y.level = x.level
  replaced_eq : y.replacedFileNumbers = x.replacedFileNumbers
  replacedL0_eq : y.replacedL0FileNumbers = x.replacedL0FileNumbers

section Placement

variable {ucmp : UserComparator} {current : Version} {running : List Compaction}
  {plans : List PartitionPlan} {batch : List MaterializeOutput} {o x : MaterializeOutput} {i : ℕ}

theorem SamePlace.refl (x : MaterializeOutput) : SamePlace x x := ⟨rfl, rfl, rfl, rfl⟩

theorem SamePlace.trans {y z : MaterializeOutput} (h : SamePlace x y) (h' : SamePlace y z) :
    SamePlace x z :=
  ⟨h'.file_eq.trans h.file_eq, h'.level_eq.trans h.level_eq, h'.replaced_eq.trans h.replaced_eq,
    h'.replacedL0_eq.trans h.replacedL0_eq⟩

theorem samePlace_supersede (ucmp : UserComparator) (level : ℕ) (f : FileMetaData)
    (x : MaterializeOutput) : SamePlace x (supersede ucmp level f x) := by
  rw [supersede]
  split <;> exact ⟨rfl, rfl, rfl, rfl⟩

/-- The outputs before stay where they are. -/
theorem placeOutput_keeps (h : batch[i]? = some x) :
    ∃ y, (placeOutput ucmp current running plans batch o)[i]? = some y ∧ SamePlace x y := by
  have happend : ∀ z, ∃ y, (batch ++ [z])[i]? = some y ∧ SamePlace x y := fun z =>
    ⟨x, by rw [List.getElem?_append_left (List.getElem?_eq_some_iff.mp h).1, h], .refl x⟩
  by_cases hd : o.decision = .kMergeBase
  · cases hplan : findPlan plans o.partId with
    | none =>
      refine ⟨x, ?_, .refl x⟩
      rw [placeOutput.eq_def, hd, hplan]
      exact h
    | some plan =>
      refine ⟨_, ?_, samePlace_supersede ucmp (mergeLevel ucmp running plan o.file) o.file x⟩
      rw [placeOutput_merge hd hplan, List.getElem?_append_left, List.getElem?_map, h]
      · rfl
      · rw [List.length_map]
        exact (List.getElem?_eq_some_iff.mp h).1
  · rw [placeOutput.eq_def]
    split
    next heq _ => exact absurd heq hd
    next heq _ => exact absurd heq hd
    next =>
      split
      · exact happend _
      · exact happend _
    next => exact happend _

theorem finalizeLocked_keeps (outs : List MaterializeOutput) (h : batch[i]? = some x) :
    ∃ y, (finalizeLocked ucmp current running plans batch outs)[i]? = some y ∧ SamePlace x y := by
  induction outs generalizing batch x with
  | nil => exact ⟨x, h, .refl x⟩
  | cons o outs ih =>
    obtain ⟨y, hy, hxy⟩ := @placeOutput_keeps ucmp current running plans batch o x i h
    obtain ⟨z, hz, hyz⟩ := ih hy
    exact ⟨z, hz, hxy.trans hyz⟩

variable {plan : PartitionPlan} {own : Compaction}

/-- The check over all compactions, split into the own one and the others. -/
theorem rangeOverlap_own (hown : own ∈ running) (f : FileMetaData) :
    rangeOverlapWithCompaction ucmp running f.smallest f.largest own.outputLevel =
      (rangeOverlapWithCompaction ucmp [own] f.smallest f.largest own.outputLevel ||
        othersConflict ucmp running own f) := by
  rw [othersConflict]
  simp only [rangeOverlapWithCompaction, (List.perm_cons_erase hown).any_eq, List.any_cons,
    List.any_nil, Bool.or_false]

theorem mergeLevel_eq (hc : plan.compaction = some own) (hown : own ∈ running) (f : FileMetaData) :
    mergeLevel ucmp running plan f =
      if rangeOverlapWithCompaction ucmp [own] f.smallest f.largest own.outputLevel ||
        othersConflict ucmp running own f then 0 else own.outputLevel := by
  rw [mergeLevel, hc]
  show (if rangeOverlapWithCompaction ucmp running f.smallest f.largest own.outputLevel = true
    then 0 else own.outputLevel) = _
  rw [rangeOverlap_own hown]

/-- The entry that placing a merge output adds. -/
def placedMerge (ucmp : UserComparator) (running : List Compaction) (plan : PartitionPlan)
    (batch : List MaterializeOutput) (o : MaterializeOutput) : MaterializeOutput :=
  { o with
    level := mergeLevel ucmp running plan o.file
    replacedFileNumbers := replacedBy ucmp running plan batch o.file
    replacedL0FileNumbers := plan.l0Overlap.map FileMetaData.number }

/-- One output, placed behind what is already in the batch. -/
theorem asPlanned_placedMerge (hc : plan.compaction = some own) (hown : own ∈ running)
    (hlevel : own.outputLevel ≠ 0) :
    AsPlanned ucmp running plan own (placedMerge ucmp running plan batch o) ↔
      Fits ucmp running plan own batch o.file := by
  have hml := @mergeLevel_eq ucmp running plan own hc hown o.file
  simp only [AsPlanned, Fits, placedMerge]
  cases hothers : othersConflict ucmp running own o.file with
  | true =>
    rw [hothers, Bool.or_true, if_pos rfl] at hml
    simp only [if_true, hml, true_and, List.map_eq_nil_iff]
    have hnil : replacedBy ucmp running plan batch o.file = [] ↔
        plan.overlap = [] ∧ ∀ x ∈ batch, supersedes ucmp 0 o.file x = true →
          x.replacedFileNumbers = [] := by
      simp only [List.eq_nil_iff_forall_not_mem, mem_replacedBy, hml, not_or, List.mem_map,
        not_exists, not_and]
      refine ⟨fun h => ⟨fun f hf => (h f.number).1 f hf rfl, fun x hx hs n => (h n).2 x hx hs⟩,
        fun h n => ⟨fun f hf _ => h.1 f hf, fun x hx hs => h.2 x hx hs n⟩⟩
    rw [hnil, and_assoc, and_comm (b := plan.l0Overlap = [])]
  | false =>
    rw [hothers, Bool.or_false] at hml
    simp only [Bool.false_eq_true, if_false, and_true]
    cases hself : rangeOverlapWithCompaction ucmp [own] o.file.smallest o.file.largest
        own.outputLevel with
    | true =>
      rw [hself, if_pos rfl] at hml
      refine iff_of_false ?_ (by simp)
      rw [hml]
      exact fun h => hlevel h.1.symm
    | false =>
      rw [hself, if_neg Bool.false_ne_true] at hml
      simp only [hml, true_and, mem_replacedBy]
      refine ⟨fun h x hx hs n hn => (h n).mp (.inr ⟨x, hx, hs, hn⟩), fun h n => ⟨?_, .inl⟩⟩
      rintro (hn | ⟨x, hx, hs, hn⟩)
      · exact hn
      · exact h x hx hs n hn

/-- In every run of the loop a merge output ends up as planned precisely if it fits in the state
before it. -/
theorem placedAsPlanned_iff {pre post : List MaterializeOutput} (hd : o.decision = .kMergeBase)
    (hplan : findPlan plans o.partId = some plan) (hc : plan.compaction = some own)
    (hown : own ∈ running) (hlevel : own.outputLevel ≠ 0) :
    (∃ x, (finalizeLocked ucmp current running plans batch (pre ++ o :: post))[(finalizeLocked ucmp
        current running plans batch pre).length]? = some x ∧ x.file = o.file ∧
      AsPlanned ucmp running plan own x) ↔
    Fits ucmp running plan own (finalizeLocked ucmp current running plans batch pre) o.file := by
  set before := finalizeLocked ucmp current running plans batch pre with hbefore
  have hrun : finalizeLocked ucmp current running plans batch (pre ++ o :: post) =
      finalizeLocked ucmp current running plans
        (placeOutput ucmp current running plans before o) post := by
    rw [finalizeLocked, List.foldl_append, List.foldl_cons]
    rfl
  have hplaced : (placeOutput ucmp current running plans before o)[before.length]? =
      some (placedMerge ucmp running plan before o) := by
    rw [placeOutput_merge hd hplan, List.getElem?_append_right (by simp), List.length_map,
      Nat.sub_self]
    rfl
  obtain ⟨y, hy, hsame⟩ := @finalizeLocked_keeps ucmp current running plans _ _ _ post hplaced
  have hplan_iff : AsPlanned ucmp running plan own y ↔
      AsPlanned ucmp running plan own (placedMerge ucmp running plan before o) := by
    rw [AsPlanned, AsPlanned, hsame.file_eq, hsame.level_eq, hsame.replaced_eq, hsame.replacedL0_eq]
  rw [← asPlanned_placedMerge hc hown hlevel, ← hplan_iff, hrun, hy]
  constructor
  · rintro ⟨x, ⟨⟩, -, h⟩
    exact h
  · exact fun h => ⟨y, rfl, hsame.file_eq, h⟩

end Placement

/-- A planned merge whose output meets a file that it reads does not fit: its own registration
covers that file. -/
theorem not_fits_of_meets {mc : ZfMaterializeCtx} {plan : PartitionPlan} {own : Compaction}
    {running : List Compaction} {before : List MaterializeOutput} {f g : FileMetaData}
    (hwf : mc.base.WellFormed mc.ucmp) (hplan : MergePlan mc plan)
    (hc : plan.compaction = some own) (hg : g ∈ plan.l0Overlap ∨ g ∈ plan.overlap)
    (hmeets : meets mc.ucmp f.smallest f.largest g.smallest g.largest = true) :
    ¬ Fits mc.ucmp running plan own before f := by
  have hsub : plan.overlap.Sublist (mc.base.files mc.base.baseLevel) := by
    rw [hplan.overlap_eq]
    exact List.filter_sublist
  obtain ⟨range, hrange, hcov⟩ := boundaryKeys_covers (hwf.sorted.sublist hsub)
    (fun g hg => hwf.ordered _ g (hsub.subset hg)) hg
  rw [hplan.compaction_eq, hrange] at hc
  cases hc
  have hown : rangeOverlapWithCompaction mc.ucmp [⟨mc.base.baseLevel, range.1, range.2, none⟩]
      f.smallest f.largest mc.base.baseLevel = true := by
    obtain ⟨hlo, hhi⟩ := KeyRanges.meets_iff.mp hmeets
    have hm : meets mc.ucmp f.smallest f.largest range.1 range.2 = true :=
      KeyRanges.meets_iff.mpr ⟨KeyRanges.le_trans hlo hcov.2, KeyRanges.le_trans hcov.1 hhi⟩
    simp [rangeOverlapWithCompaction, hm]
  rw [Fits]
  split
  · rintro ⟨hno, hno', -⟩
    rw [hno, hno'] at hg
    exact hg.elim List.not_mem_nil List.not_mem_nil
  · rintro ⟨hapart, -⟩
    exact Bool.false_ne_true (hapart.symm.trans hown)

namespace OwnRegistration

def file (number : ℕ) (smallest largest : UInt8) : FileMetaData :=
  { number := number, fileSize := 1, epochNumber := 0, smallest := [smallest], largest := [largest]
    entries := [] }

/-- The file `[b, d]` at the base level. -/
def files : ℕ → List FileMetaData
  | 1 => [file 10 98 100]
  | _ => []

def version : Version := ⟨2, 1, files, Nat.one_pos, Nat.one_lt_two⟩

def flushCtx : ZfMaterializeCtx where
  zfo := { mergeIntoBaseLevel := true, ratioBelow := fun _ _ => false }
  ucmp := .bytewise
  base := version

/-- Keys below `m` belong to partition 0. -/
def table : PartitionTable := .cutAt 1 [109]

/-- The plans of an epoch whose only partition is merged with the file. -/
def plans : List PartitionPlan :=
  (flushCtx.planLocked { epoch := 1, tableVersion := 0, gens := [(0, 0)] } [] (some table) {}).1

def compaction : Compaction := ⟨1, [98], [100], none⟩

def plan : PartitionPlan :=
  { partId := 0, decision := .kMergeBase, overlap := [file 10 98 100], compaction := some compaction
    overlapAll := [file 10 98 100], lo := [], hi := [109] }

def output (smallest largest : UInt8) : MaterializeOutput :=
  { file := file 20 smallest largest, decision := .kMergeBase }

theorem findPlan_eq : findPlan plans 0 = some plan := by decide

end OwnRegistration

/-- An output beside the file that its merge reads. -/
theorem placedAsPlanned_beside :
    (∃ x, (finalizeLocked .bytewise OwnRegistration.version [OwnRegistration.compaction]
        OwnRegistration.plans [] ([] ++ [OwnRegistration.output 101 102]))[(finalizeLocked
          .bytewise OwnRegistration.version [OwnRegistration.compaction] OwnRegistration.plans []
          []).length]? = some x ∧ x.file = (OwnRegistration.output 101 102).file ∧
      AsPlanned .bytewise [OwnRegistration.compaction] OwnRegistration.plan
        OwnRegistration.compaction x) ↔
    Fits .bytewise [OwnRegistration.compaction] OwnRegistration.plan OwnRegistration.compaction
      (finalizeLocked .bytewise OwnRegistration.version [OwnRegistration.compaction]
        OwnRegistration.plans [] []) (OwnRegistration.output 101 102).file :=
  placedAsPlanned_iff rfl OwnRegistration.findPlan_eq rfl (by decide) (by decide)

/-- No other compaction runs, and the output that rewrites the file goes to level 0. -/
theorem placedAsPlanned_fails :
    ¬ ∃ x, (finalizeLocked .bytewise OwnRegistration.version [OwnRegistration.compaction]
        OwnRegistration.plans [] [OwnRegistration.output 98 100])[0]? = some x ∧
      x.file = (OwnRegistration.output 98 100).file ∧
      AsPlanned .bytewise [OwnRegistration.compaction] OwnRegistration.plan
        OwnRegistration.compaction x := by
  rintro ⟨x, hx, -, h⟩
  have hlevel : (finalizeLocked .bytewise OwnRegistration.version [OwnRegistration.compaction]
      OwnRegistration.plans [] [OwnRegistration.output 98 100])[0]?.map MaterializeOutput.level =
        some 0 := by
    decide
  rw [hx] at hlevel
  have hfile : othersConflict .bytewise [OwnRegistration.compaction] OwnRegistration.compaction
      x.file = false := rfl
  rw [AsPlanned, if_neg (by rw [hfile]; exact Bool.false_ne_true)] at h
  have hzero : x.level = 0 := Option.some.inj hlevel
  exact absurd (hzero.symm.trans h.1) (by decide)

end ZeroFlush.MergePlacement
