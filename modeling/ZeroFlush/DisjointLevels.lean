import ZeroFlush.FailedFlushes

/-! # The base level stays disjoint

A plain output goes to the base level only if nothing there meets it. A merge output that meets no
running compaction holds records of its partition only, so whatever it meets at the base level is
among the files it replaces. -/
namespace ZeroFlush.DisjointLevels
open FixedWidthCodec UserKeys WalFormat WalFiles PartitionTables SealedFiles TableFiles
  PartitionPlans Materialization FlushJobs FailedFlushes

/-- The files of the base level are disjoint after the flush. -/
def KeepsDisjoint (r : FlushRun) : Prop :=
  (r.filesAfter r.mc.base.baseLevel).Pairwise (Apart r.mc.ucmp)

instance (r : FlushRun) : Decidable (KeepsDisjoint r) := inferInstanceAs (Decidable (List.Pairwise _ _))

/-- `k` lies in the range of a plan, as the scan for overlapping files compares it. -/
def InRange (ucmp : UserComparator) (plan : PartitionPlan) (k : Bytes) : Prop :=
  KeyRanges.Le ucmp.compare plan.lo k ∧ KeyRanges.Lt ucmp.compare k plan.hi

instance (ucmp : UserComparator) (plan : PartitionPlan) (k : Bytes) :
    Decidable (InRange ucmp plan k) := inferInstanceAs (Decidable (_ ∧ _))

/-- The records of every merged partition lie in its range. -/
def RoutedByTable (r : FlushRun) (job : Job) : Prop :=
  ∀ plan ∈ job.plans, plan.decision = .kMergeBase →
    ∀ e ∈ r.input.asideOf job plan.partId, InRange r.mc.ucmp plan e.userKey

instance (r : FlushRun) (job : Job) : Decidable (RoutedByTable r job) :=
  inferInstanceAs (Decidable (∀ plan ∈ job.plans, _ → ∀ e ∈ _, _))

/-- The plan that plain outputs are looked up by replaces nothing. -/
def NoForcedReplacement (job : Job) : Prop :=
  ∀ plan ∈ findPlan job.plans 0, plan.forceReplace = false

instance (job : Job) : Decidable (NoForcedReplacement job) :=
  inferInstanceAs (Decidable (∀ plan ∈ _, _))

section Merges

variable {r : FlushRun} {job : Job} {plan : PartitionPlan} {o : MaterializeOutput}

theorem plans_of_mem (hjob : job ∈ r.jobs) :
    ∃ picker, job.plans = (r.mc.planLocked job.se [] job.table picker).1 :=
  (mem_planEpochs hjob).2.2.2

theorem mergePlan_of_output (hjob : job ∈ r.jobs) (h : MergeOutput r.input job plan o) :
    MergePlan r.mc plan ∧ plan ∈ job.plans := by
  obtain ⟨picker, hplans⟩ := plans_of_mem hjob
  have hmem : plan ∈ job.plans := List.mem_of_find?_eq_some h.plan_eq
  exact ⟨mergePlan_of_mem (hplans ▸ hmem) h.merges, hmem⟩

/-- A file that a merge reads lies in the range of its compaction. -/
theorem file_in_hull (hplan : MergePlan r.mc plan) {f : FileMetaData}
    (hf : f ∈ plan.l0Overlap ∨ f ∈ plan.overlapAll) {e : TableEntry} (he : e ∈ f.entries) :
    ∃ c, plan.compaction = some c ∧ c.outputLevel = r.mc.base.baseLevel ∧
      KeyRanges.Le r.mc.ucmp.compare c.smallest e.userKey ∧
      KeyRanges.Le r.mc.ucmp.compare e.userKey c.largest := by
  have hwf := r.wellFormed
  rw [hplan.overlapAll_eq] at hf
  have hsub : plan.overlap.Sublist (r.mc.base.files r.mc.base.baseLevel) := by
    rw [hplan.overlap_eq]
    exact List.filter_sublist
  obtain ⟨range, hrange, hcov⟩ := boundaryKeys_covers (hwf.sorted.sublist hsub)
    (fun g hg => hwf.ordered _ g (hsub.subset hg)) hf
  have hkeys : KeyRanges.Le r.mc.ucmp.compare f.smallest e.userKey ∧
      KeyRanges.Le r.mc.ucmp.compare e.userKey f.largest := by
    obtain hf | hf := hf
    · obtain ⟨⟨l, -, hl⟩, -⟩ := hplan.upper f hf
      exact hwf.keys l f hl e he
    · exact hwf.keys _ f (hsub.subset hf) e he
  refine ⟨_, hplan.compaction_eq, rfl, ?_, ?_⟩
  · rw [hrange]
    exact KeyRanges.le_trans hcov.1 hkeys.1
  · rw [hrange]
    exact KeyRanges.le_trans hkeys.2 hcov.2

/-- An output apart from the compaction of its own merge lies in the range of the partition. -/
theorem inRange_of_apart (hjob : job ∈ r.jobs) (hrouted : RoutedByTable r job)
    (h : MergeOutput r.input job plan o) (hne : o.file.entries ≠ []) (hends : HasEnds o.file)
    {c : Compaction} (hc : plan.compaction = some c)
    (hapart : meets r.mc.ucmp o.file.smallest o.file.largest c.smallest c.largest = false) :
    KeyRanges.Le r.mc.ucmp.compare plan.lo o.file.smallest ∧
      KeyRanges.Lt r.mc.ucmp.compare o.file.largest plan.hi := by
  have hlaw : r.input.engine.Lawful r.input.ucmp := r.ucmp_eq ▸ r.lawful
  obtain ⟨hplan, hmem⟩ := mergePlan_of_output hjob h
  obtain ⟨hsorted, hsources⟩ := @merged_keys r.input job plan hlaw
  -- a key outside the hull of the merge is a record of the partition
  have hkey : ∀ e ∈ o.file.entries, InRange r.mc.ucmp plan e.userKey ∨
      KeyRanges.Le r.mc.ucmp.compare c.smallest e.userKey ∧
        KeyRanges.Le r.mc.ucmp.compare e.userKey c.largest := by
    intro e he
    obtain ⟨e', he', hkey⟩ := hsources e (h.sublist.subset he)
    rw [← hkey]
    obtain hA | ⟨f, hf, hB⟩ := mem_mergeSources.mp he'
    · exact .inl (hrouted plan hmem h.merges e' hA)
    · obtain ⟨c', hc', -, hin⟩ := file_in_hull hplan hf hB
      rw [hc] at hc'
      cases hc'
      exact .inr hin
  obtain ⟨first, last, hfirst, hlast, hsmall, hlarge, hrel⟩ := hends.exists_entries hne
  have hle : KeyRanges.Le r.mc.ucmp.compare first.userKey last.userKey := by
    obtain rfl | hR := hrel _ (hsorted.sublist h.sublist)
    · exact KeyRanges.le_refl _
    · exact r.ucmp_eq ▸ hR
  rw [hsmall, hlarge, meets, KeyRanges.meets_false_iff] at hapart
  rw [hsmall, hlarge]
  have hfirst' := hkey first hfirst
  have hlast' := hkey last hlast
  obtain hright | hleft := hapart
  · have hin : InRange r.mc.ucmp plan first.userKey :=
      hfirst'.resolve_right fun hhull => KeyRanges.not_lt.mpr hhull.2 hright
    have hin' : InRange r.mc.ucmp plan last.userKey :=
      hlast'.resolve_right fun hhull =>
        KeyRanges.not_lt.mpr hhull.2 (KeyRanges.lt_of_lt_of_le hright hle)
    exact ⟨hin.1, hin'.2⟩
  · have hin : InRange r.mc.ucmp plan first.userKey :=
      hfirst'.resolve_right fun hhull =>
        KeyRanges.not_lt.mpr hhull.1 (KeyRanges.lt_of_le_of_lt hle hleft)
    have hin' : InRange r.mc.ucmp plan last.userKey :=
      hlast'.resolve_right fun hhull => KeyRanges.not_lt.mpr hhull.1 hleft
    exact ⟨hin.1, hin'.2⟩

/-- Whatever such an output meets at the base level is replaced by it. -/
theorem apart_or_replaced (hplan : MergePlan r.mc plan)
    (hrange : KeyRanges.Le r.mc.ucmp.compare plan.lo o.file.smallest ∧
      KeyRanges.Lt r.mc.ucmp.compare o.file.largest plan.hi) {f : FileMetaData}
    (hf : f ∈ r.mc.base.files r.mc.base.baseLevel) :
    Apart r.mc.ucmp o.file f ∨ f.number ∈ plan.overlap.map FileMetaData.number := by
  by_cases hout : outside r.mc.ucmp plan.lo plan.hi f = true
  · left
    rw [Apart, meets, KeyRanges.meets_false_iff]
    simp only [outside, Bool.or_eq_true, beq_iff_eq, bne_iff_ne] at hout
    obtain hlo | hhi := hout
    · exact .inl (KeyRanges.lt_of_lt_of_le hlo hrange.1)
    · exact .inr (KeyRanges.lt_of_lt_of_le hrange.2 (KeyRanges.not_lt.mp hhi))
  · right
    refine List.mem_map_of_mem ?_
    rw [hplan.overlap_eq, List.mem_filter]
    exact ⟨hf, by simpa using hout⟩

end Merges

section Batches

variable {r : FlushRun}

/-- The output will be installed at the base level. -/
def AtBase (r : FlushRun) (o : MaterializeOutput) : Prop :=
  o.superseded = false ∧ o.level = r.mc.base.baseLevel

/-- What holds of the outputs placed so far. -/
structure Placed (r : FlushRun) (batch : List MaterializeOutput) : Prop where
  apart : batch.Pairwise fun x o => AtBase r x → AtBase r o → Apart r.mc.ucmp x.file o.file
  clear : ∀ o ∈ batch, AtBase r o → ∀ f ∈ r.mc.base.files r.mc.base.baseLevel,
    Apart r.mc.ucmp o.file f ∨ f.number ∈ o.replacedFileNumbers

theorem placed_plain {running : List Compaction} {batch : List MaterializeOutput}
    {o : MaterializeOutput} (h : Placed r batch) :
    Placed r (batch ++ [{ o with
      level := pickInstallLevel r.mc.ucmp r.mc.base running batch o.file }]) := by
  have hfree : pickInstallLevel r.mc.ucmp r.mc.base running batch o.file = r.mc.base.baseLevel →
      (∀ g ∈ r.mc.base.files r.mc.base.baseLevel, Apart r.mc.ucmp o.file g) ∧
        ∀ x ∈ batch, x.level = r.mc.base.baseLevel → Apart r.mc.ucmp o.file x.file := by
    intro hlevel
    obtain h0 | ⟨-, hall⟩ := pickInstallLevel_cases r.mc.ucmp r.mc.base running batch o.file
    · have := r.mc.base.baseLevel_pos
      omega
    · exact hall _ le_rfl
  constructor
  · rw [List.pairwise_append]
    refine ⟨h.apart, List.pairwise_singleton _ _, ?_⟩
    intro x hx y hy hxb hyb
    cases List.mem_singleton.mp hy
    exact apart_comm.mp ((hfree hyb.2).2 x hx hxb.2)
  · intro x hx hxb f hf
    obtain hx | hx := List.mem_append.mp hx
    · exact h.clear x hx hxb f hf
    · cases List.mem_singleton.mp hx
      exact .inl ((hfree hxb.2).1 f hf)

theorem placed_merge {running : List Compaction} {batch : List MaterializeOutput}
    {o : MaterializeOutput} {plan : PartitionPlan} (h : Placed r batch)
    (hclear : mergeLevel r.mc.ucmp running plan o.file = r.mc.base.baseLevel →
      ∀ f ∈ r.mc.base.files r.mc.base.baseLevel,
        Apart r.mc.ucmp o.file f ∨ f.number ∈ plan.overlap.map FileMetaData.number) :
    Placed r (batch.map (supersede r.mc.ucmp (mergeLevel r.mc.ucmp running plan o.file) o.file) ++
      [{ o with
        level := mergeLevel r.mc.ucmp running plan o.file
        replacedFileNumbers := replacedBy r.mc.ucmp running plan batch o.file
        replacedL0FileNumbers := plan.l0Overlap.map FileMetaData.number }]) := by
  set level := mergeLevel r.mc.ucmp running plan o.file with hlevel
  have hactive : ∀ x, AtBase r (supersede r.mc.ucmp level o.file x) →
      AtBase r x ∧ supersedes r.mc.ucmp level o.file x = false := by
    intro x hx
    obtain ⟨-, hl, -, hs⟩ := @supersede_spec r.mc.ucmp level o.file x
    exact ⟨⟨(hs.mp hx.1).1, hl ▸ hx.2⟩, (hs.mp hx.1).2⟩
  constructor
  · rw [List.pairwise_append, List.pairwise_map]
    refine ⟨?_, List.pairwise_singleton _ _, ?_⟩
    · refine h.apart.imp ?_
      intro x y hxy hx hy
      rw [(supersede_spec level o.file x).1, (supersede_spec level o.file y).1]
      exact hxy (hactive x hx).1 (hactive y hy).1
    · intro x' hx' y hy hxb hyb
      cases List.mem_singleton.mp hy
      obtain ⟨x, hx, rfl⟩ := List.mem_map.mp hx'
      obtain ⟨hxb, hno⟩ := hactive x hxb
      have hl : x.level = level := hxb.2.trans hyb.2.symm
      rw [(supersede_spec level o.file x).1, apart_comm]
      simpa [supersedes, hxb.1, hl, Apart] using hno
  · intro x' hx' hxb f hf
    obtain hx' | hx' := List.mem_append.mp hx'
    · obtain ⟨x, hx, rfl⟩ := List.mem_map.mp hx'
      rw [(supersede_spec level o.file x).1, (supersede_spec level o.file x).2.2.1]
      exact h.clear x hx (hactive x hxb).1 f hf
    · cases List.mem_singleton.mp hx'
      obtain hap | hmem := hclear hxb.2 f hf
      · exact .inl hap
      · exact .inr (mem_replacedBy.mpr (.inl hmem))

/-- A merge output at the base level is apart from the compaction of its own merge. -/
theorem apart_of_mergeLevel {running : List Compaction} {plan : PartitionPlan} {c : Compaction}
    {f : FileMetaData} (hc : plan.compaction = some c) (hrun : c ∈ running)
    (hlevel : mergeLevel r.mc.ucmp running plan f = r.mc.base.baseLevel) :
    meets r.mc.ucmp f.smallest f.largest c.smallest c.largest = false := by
  have hpos := r.mc.base.baseLevel_pos
  rw [mergeLevel, hc] at hlevel
  dsimp only [Option.map_some, Option.getD_some] at hlevel
  split at hlevel
  · omega
  next hno =>
    rw [← Bool.not_eq_true]
    intro hm
    refine hno (List.any_eq_true.mpr ⟨c, hrun, ?_⟩)
    simp [hm]

theorem placed_step {job : Job} {outs : List MaterializeOutput} (hjob : job ∈ r.jobs)
    (hexec : Executed r.input job outs) (hrouted : RoutedByTable r job)
    (hforce : NoForcedReplacement job) {running : List Compaction}
    (hrun : registeredBy job.plans ⊆ running) {o : MaterializeOutput} (ho : o ∈ outs)
    {batch : List MaterializeOutput} (h : Placed r batch) :
    Placed r (placeOutput r.mc.ucmp r.mc.base running job.plans batch o) := by
  obtain ⟨hkind, hne, hends, -⟩ := hexec.cases ho
  obtain hplain | ⟨plan, hmerge⟩ := hkind
  · rw [placeOutput_plain (by rw [hplain.decision]; decide)]
    · exact placed_plain h
    · intro plan hplan
      rw [hplain.partId] at hplan
      exact hforce plan hplan
  · obtain ⟨hplan, hmem⟩ := mergePlan_of_output hjob hmerge
    rw [placeOutput_merge hmerge.decision hmerge.plan_eq]
    refine placed_merge h ?_
    intro hlevel f hf
    have hc := hplan.compaction_eq
    have hreg : _ ∈ registeredBy job.plans :=
      List.mem_filterMap.mpr ⟨plan, hmem, (if_pos hmerge.merges).trans hc⟩
    have hapart := apart_of_mergeLevel hc (hrun hreg) hlevel
    exact apart_or_replaced hplan (inRange_of_apart hjob hrouted hmerge hne hends hc hapart) hf

end Batches

/-- A replaced file of the version is deleted at its level. -/
theorem mem_deleted {v : Version} {ucmp : UserComparator} (hwf : v.WellFormed ucmp)
    {batch : List MaterializeOutput} {o : MaterializeOutput} (ho : o ∈ batch)
    (hs : o.superseded = false) {f : FileMetaData} {level : ℕ} (hf : f ∈ v.files level)
    (hlevel : level < v.numLevels)
    (hmem : f.number ∈ o.replacedL0FileNumbers ∨ f.number ∈ o.replacedFileNumbers) :
    (level, f.number) ∈ (installEdit v batch).deleted := by
  have hat : levelOfFile v f.number = some level := by
    rw [levelOfFile]
    cases hfind : (List.range v.numLevels).find? fun l => (v.files l).any (·.number == f.number) with
    | none =>
      rw [List.find?_eq_none] at hfind
      refine absurd (List.any_eq_true.mpr ⟨f, hf, by simp⟩) (hfind level (List.mem_range.mpr hlevel))
    | some l =>
      have hany := List.find?_some hfind
      obtain ⟨g, hg, hnum⟩ := List.any_eq_true.mp hany
      rw [(hwf.number_inj l level g f hg hf (beq_iff_eq.mp hnum)).1]
  rw [installEdit, List.mem_filterMap]
  refine ⟨f.number, ?_, ?_⟩
  · rw [List.mem_dedup, List.mem_flatMap]
    refine ⟨o, List.mem_filter.mpr ⟨ho, by simp [hs]⟩, ?_⟩
    exact List.mem_append.mpr hmem
  · rw [hat]
    rfl

namespace CutMerge

/-- Every table is full after one key, and no version of a key is dropped. -/
def engine : TableEngine := ⟨id, fun _ => true, fun es => 64 * es.length⟩

theorem engine_lawful (ucmp : UserComparator) : engine.Lawful ucmp where
  keys_sublist _ := List.Sublist.refl _
  keeps_newest _ _ e he _ := ⟨e, he, Std.ReflCmp.compare_self, le_rfl⟩

def file (number : ℕ) (keys : List UInt8) : FileMetaData :=
  { newFile engine (keys.map fun k => ⟨[k], 1, kTypeValue⟩) with number := number }

/-- Two files at the base level, `[a, c]` and `[x, z]`. -/
def files : ℕ → List FileMetaData
  | 1 => [file 10 [97, 99], file 11 [120, 122]]
  | _ => []

def version : Version := ⟨2, 1, files, Nat.one_pos, Nat.one_lt_two⟩

theorem version_wellFormed : version.WellFormed .bytewise := by
  refine Version.wellFormed_of_forall ?_ (by decide) (by decide) (by decide)
  intro l hl
  match l, hl with
  | l + 2, _ => rfl

/-- Keys below `m` belong to partition 0. -/
def tables : PartitionTableSet where
  versions := [.createHash 0 2 Nat.two_pos, .cutAt 1 [109]]
  currentVersion := 1
  currentVersion_lt := Nat.one_lt_two

def flushCtx : ZfMaterializeCtx where
  zfo := { mergeIntoBaseLevel := true, ratioBelow := fun _ _ => false }
  ucmp := .bytewise
  base := version

def start : FlushState where
  sealedCache := ({} : SealedFileCache).addEpochWithRecoveryAdoption
    { epoch := 1, tableVersion := 1, gens := [(0, 0)] }
  tables := tables

/-- Partition 0 holds one record. -/
def input (key : UInt8) : MaterializeInput where
  engine := engine
  ucmp := .bytewise
  currentTable := tables.current
  records f := if f = (0, 0) then [⟨[key], 5, kTypeValue⟩] else []

def output (number : ℕ) (e : TableEntry) : MaterializeOutput :=
  { file := { newFile engine [e] with number := number }, decision := .kMergeBase }

def outputs (key : UInt8) : List MaterializeOutput :=
  [output 20 ⟨[97], 1, kTypeValue⟩, output 21 ⟨[99], 1, kTypeValue⟩,
    output 22 ⟨[key], 5, kTypeValue⟩]

/-- The only partition is merged into files of one key each. -/
theorem outputs_executed (key : UInt8) (h : (planEpochs flushCtx start start.picker [1]).1.map
      ((input key).executePartition · 0) = [.ok ((outputs key).map unnumbered)]) :
    List.Forall₂ (Executed (input key)) (planEpochs flushCtx start start.picker [1]).1
      [outputs key] := by
  have hjobs : (planEpochs flushCtx start start.picker [1]).1.map collectTasks = [[0]] := by
    decide +kernel
  obtain ⟨job, hjob, htasks⟩ := List.map_eq_singleton_iff.mp hjobs
  rw [hjob] at h ⊢
  have hexec : (input key).executePartition job 0 = .ok ((outputs key).map unnumbered) :=
    List.singleton_inj.mp h
  refine .cons ⟨[(outputs key).map unnumbered], ?_, by simp⟩ .nil
  rw [htasks]
  exact .cons hexec .nil

def flush (key : UInt8) (h : (planEpochs flushCtx start start.picker [1]).1.map
    ((input key).executePartition · 0) = [.ok ((outputs key).map unnumbered)]) : FlushRun where
  mc := flushCtx
  input := input key
  st := start
  mems := [1]
  outs := [outputs key]
  natives := []
  ucmp_eq := rfl
  wellFormed := version_wellFormed
  lawful := engine_lawful _
  planned := by decide +kernel
  executed := outputs_executed key h

/-- The record `k` lies in the range of its partition. -/
def routed : FlushRun := flush 107 rfl

/-- The record `x` was routed by an older table. -/
def misrouted : FlushRun := flush 120 rfl

end CutMerge

end ZeroFlush.DisjointLevels
