import ZeroFlush.PartitionPlans

/-! # Materializing a partition

A partition's sealed records become tables of their own, cut at the bounds of a partition table
where they reach over its range, or are merged with the files the plan names. -/
namespace ZeroFlush.Materialization
open FixedWidthCodec UserKeys WalFormat WalFiles PartitionTables SealedFiles TableFiles
  PartitionPlans

/-- The engine's part: what a `CompactionIterator` over sorted entries yields, whether a table has
reached its target size, and the size of its file. -/
structure TableEngine where
  compactionIterator : List TableEntry → List TableEntry
  targetReached : List TableEntry → Bool
  fileSize : List TableEntry → ℕ

/-- `records`: what the sealed generations hold. -/
structure MaterializeInput where
  engine : TableEngine
  ucmp : UserComparator
  currentTable : PartitionTable
  records : FileId → List TableEntry

/-- A job materializes one epoch. -/
structure Job where
  epoch : ℕ
  se : SealedEpoch
  table : Option PartitionTable
  plans : List PartitionPlan

/-- A new file, before it gets its numbers. -/
def newFile (engine : TableEngine) (entries : List TableEntry) : FileMetaData where
  number := 0
  fileSize := engine.fileSize entries
  epochNumber := 0
  smallest := (entries.head?.map TableEntry.userKey).getD []
  largest := (entries.getLast?.map TableEntry.userKey).getD []
  entries := entries

/-- The loop that closes a file once it is full and the user key changes. -/
def cutFiles (ucmp : UserComparator) (full : List TableEntry → Bool) :
    List TableEntry → List TableEntry → List (List TableEntry)
  | cur, [] => if cur = [] then [] else [cur]
  | cur, e :: es =>
    match cur.getLast? with
    | none => cutFiles ucmp full [e] es
    | some last =>
      if full cur ∧ ucmp.compare e.userKey last.userKey ≠ .eq then
        cur :: cutFiles ucmp full [e] es
      else cutFiles ucmp full (cur ++ [e]) es

/-- One slice for every upper bound, and one for the rest. -/
def slices (ucmp : UserComparator) : List Bytes → List TableEntry → List (List TableEntry)
  | [], keys => if keys = [] then [] else [keys]
  | hi :: his, keys =>
    let slice := keys.takeWhile fun e => ucmp.compare e.userKey hi == .lt
    if slice = [] then slices ucmp his keys
    else slice :: slices ucmp his (keys.drop slice.length)

/-- Records outside the bounds; an empty bound is none. -/
def outOfBounds (ucmp : UserComparator) (lo hi : Bytes) (keys : List TableEntry) : Bool :=
  keys.head?.any (fun e => lo ≠ [] ∧ ucmp.compare e.userKey lo = .lt) ||
    keys.getLast?.any (fun e => hi ≠ [] ∧ ucmp.compare e.userKey hi ≠ .lt)

def outsideTableBounds (pid : ℕ) : Status :=
  .corruption s!"ZF partition {pid} materialized range outside table bounds"

namespace MaterializeInput

variable (input : MaterializeInput)

def sorted (entries : List TableEntry) : List TableEntry :=
  entries.insertionSort fun a b => internalLe input.ucmp a b

/-- The sealed records of some generations, in the order of internal keys. -/
def aside (gens : List FileId) : List TableEntry := input.sorted (gens.flatMap input.records)

/-- `BuildTable` leaves no file without entries; its output keeps the default partition. -/
def buildOne (keys : List TableEntry) : List MaterializeOutput :=
  match input.engine.compactionIterator keys with
  | [] => []
  | es => [{ file := newFile input.engine es }]

def sliceTable (table : Option PartitionTable) : PartitionTable :=
  match table with
  | some t => if t.isHashMode then input.currentTable else t
  | none => input.currentTable

/-- `MaterializePartition`. -/
def materializePartition (se : SealedEpoch) (table : Option PartitionTable) (pid : ℕ)
    (gens : List FileId) (lo hi : Bytes) : Except Status (List MaterializeOutput) :=
  let keys := input.aside gens
  if keys = [] then .ok []
  else
    let oobData := outOfBounds input.ucmp lo hi keys
    let legacyHash := table.any (·.isHashMode) && decide (lo = [] ∧ hi = [])
    let cut := input.sliceTable table
    if (oobData ∨ legacyHash) ∧ cut.isHashMode = false ∧ cut.partitions > 1 then
      let his := cut.partIds.map fun i => (cut.rangeOf i).2
      .ok ((slices input.ucmp his keys).flatMap input.buildOne)
    else if table.any (!·.isHashMode) ∧ oobData ∧ se.tableVersion = 0 then
      .error (outsideTableBounds pid)
    else .ok (input.buildOne keys)

/-- Everything a merge reads. -/
def mergeInputs (gens : List FileId) (overlapAll l0Overlap : List FileMetaData) : List TableEntry :=
  input.aside gens ++ l0Overlap.flatMap FileMetaData.entries ++
    overlapAll.flatMap FileMetaData.entries

/-- `MaterializeMergePartition` for an epoch without orphans. -/
def materializeMergePartition (se : SealedEpoch) (pid : ℕ) (gens : List FileId)
    (overlapAll l0Overlap : List FileMetaData) (lo hi : Bytes) :
    Except Status (List MaterializeOutput) :=
  let keys := input.aside gens
  if keys = [] then .ok []
  else if outOfBounds input.ucmp lo hi keys ∧ se.tableVersion = 0 then
    .error (outsideTableBounds pid)
  else
    let merged := input.engine.compactionIterator
      (input.sorted (input.mergeInputs gens overlapAll l0Overlap))
    .ok ((cutFiles input.ucmp input.engine.targetReached [] merged).map fun es =>
      { file := newFile input.engine es, partId := pid, decision := .kMergeBase })

/-- `ExecutePartition`. -/
def executePartition (job : Job) (pid : ℕ) : Except Status (List MaterializeOutput) :=
  let gens := job.se.gens.filter (·.1 = pid)
  let range := match job.table with
    | some t => if t.isHashMode then ([], []) else t.rangeOf pid
    | none => ([], [])
  if gens = [] then .ok []
  else
    match findPlan job.plans pid with
    | none => input.materializePartition job.se job.table pid gens range.1 range.2
    | some plan =>
      match plan.decision with
      | .kSkip => .ok []
      | .kMergeBase =>
        input.materializeMergePartition job.se pid gens plan.overlapAll plan.l0Overlap plan.lo
          plan.hi
      | _ => input.materializePartition job.se job.table pid gens range.1 range.2

end MaterializeInput

/-- `CollectTasks`. -/
def collectTasks (job : Job) : List ℕ :=
  (partIds job.se).filter fun pid => !(findPlan job.plans pid).any (·.decision = .kSkip)

/-- A file without the numbers it was given when it was built. -/
def unnumbered (o : MaterializeOutput) : MaterializeOutput :=
  { o with file := { o.file with number := 0, epochNumber := 0 } }

/-- The outputs of a job whose tasks all succeeded, in the order in which the workers of the pool
came to append them. -/
def Executed (input : MaterializeInput) (job : Job) (outs : List MaterializeOutput) : Prop :=
  ∃ results : List (List MaterializeOutput),
    List.Forall₂ (fun pid r => input.executePartition job pid = .ok r) (collectTasks job) results ∧
      (outs.map unnumbered).Perm results.flatten

/-- What is known of the engine: a `CompactionIterator` keeps the order of the user keys and adds
none, and of a key that is not deleted singly it yields a version at least as new as every one it
was given. -/
structure TableEngine.Lawful (engine : TableEngine) (ucmp : UserComparator) : Prop where
  keys_sublist : ∀ es, ((engine.compactionIterator es).map TableEntry.userKey).Sublist
    (es.map TableEntry.userKey)
  keeps_newest : ∀ es : List TableEntry, es.Pairwise (fun a b => internalLe ucmp a b) →
    ∀ e ∈ es, (∀ d ∈ es, ucmp.compare d.userKey e.userKey = .eq → d.type ≠ kTypeSingleDeletion) →
      ∃ e' ∈ engine.compactionIterator es, ucmp.compare e'.userKey e.userKey = .eq ∧ e.seq ≤ e'.seq

section Cuts

variable (ucmp : UserComparator) (full : List TableEntry → Bool)

/-- Cutting loses nothing. -/
theorem flatten_cutFiles (cur es : List TableEntry) :
    (cutFiles ucmp full cur es).flatten = cur ++ es := by
  induction es generalizing cur with
  | nil =>
    rw [cutFiles]
    split
    next h => simp [h]
    next => simp
  | cons e es ih =>
    rw [cutFiles]
    cases hlast : cur.getLast? with
    | none =>
      have hnil : cur = [] := List.getLast?_eq_none_iff.mp hlast
      rw [hnil]
      exact ih [e]
    | some last =>
      dsimp only
      split
      · rw [List.flatten_cons, ih, List.singleton_append]
      · rw [ih, List.append_assoc, List.singleton_append]

theorem ne_nil_of_mem_cutFiles {cur es file : List TableEntry}
    (h : file ∈ cutFiles ucmp full cur es) : file ≠ [] := by
  induction es generalizing cur with
  | nil =>
    rw [cutFiles] at h
    split at h
    · exact absurd h List.not_mem_nil
    next hne =>
      rw [List.mem_singleton] at h
      exact h ▸ hne
  | cons e es ih =>
    rw [cutFiles] at h
    cases hlast : cur.getLast? with
    | none =>
      rw [hlast] at h
      exact ih h
    | some last =>
      rw [hlast] at h
      dsimp only at h
      split at h
      · obtain rfl | h := List.mem_cons.mp h
        · rintro rfl
          cases hlast
        · exact ih h
      · exact ih h

end Cuts

/-- Slicing loses nothing. -/
theorem flatten_slices (ucmp : UserComparator) (his : List Bytes) (keys : List TableEntry) :
    (slices ucmp his keys).flatten = keys := by
  induction his generalizing keys with
  | nil =>
    rw [slices]
    split
    next h => simp [h]
    next => simp
  | cons hi his ih =>
    rw [slices]
    split
    · exact ih keys
    · rw [List.flatten_cons, ih]
      exact List.prefix_iff_eq_append.mp (List.takeWhile_prefix _)

namespace MaterializeInput

variable {input : MaterializeInput} {job : Job} {pid : ℕ} {r : List MaterializeOutput}

/-- The sealed records of a partition of the job's epoch. -/
def asideOf (input : MaterializeInput) (job : Job) (pid : ℕ) : List TableEntry :=
  input.aside (job.se.gens.filter (·.1 = pid))

/-- What the merge of a partition yields. -/
def merged (input : MaterializeInput) (job : Job) (plan : PartitionPlan) : List TableEntry :=
  input.engine.compactionIterator (input.sorted (input.mergeInputs
    (job.se.gens.filter (·.1 = plan.partId)) plan.overlapAll plan.l0Overlap))

def mergeOutput (input : MaterializeInput) (pid : ℕ) (es : List TableEntry) : MaterializeOutput :=
  { file := newFile input.engine es, partId := pid, decision := .kMergeBase }

theorem materializePartition_ok {se : SealedEpoch} {table : Option PartitionTable}
    {gens : List FileId} {lo hi : Bytes}
    (h : input.materializePartition se table pid gens lo hi = .ok r) :
    ∃ pieces : List (List TableEntry), pieces.flatten = input.aside gens ∧
      r = pieces.flatMap input.buildOne := by
  rw [materializePartition] at h
  dsimp only at h
  split at h
  next hnil =>
    cases h
    exact ⟨[], hnil.symm, rfl⟩
  next =>
    split at h
    · cases h
      exact ⟨_, flatten_slices _ _ _, rfl⟩
    · split at h
      · cases h
      · cases h
        exact ⟨[input.aside gens], by simp, by simp⟩

theorem materializeMergePartition_ok {se : SealedEpoch} {gens : List FileId}
    {overlapAll l0Overlap : List FileMetaData} {lo hi : Bytes}
    (h : input.materializeMergePartition se pid gens overlapAll l0Overlap lo hi = .ok r) :
    r = [] ∧ input.aside gens = [] ∨ r = (cutFiles input.ucmp input.engine.targetReached []
      (input.engine.compactionIterator
        (input.sorted (input.mergeInputs gens overlapAll l0Overlap)))).map
          (input.mergeOutput pid) := by
  rw [materializeMergePartition] at h
  dsimp only at h
  split at h
  next hnil =>
    cases h
    exact .inl ⟨rfl, hnil⟩
  next =>
    split at h
    · cases h
    · cases h
      exact .inr rfl

/-- A task writes the partition's records into tables of their own, or merges them. -/
theorem executePartition_ok (h : input.executePartition job pid = .ok r) :
    (∃ pieces : List (List TableEntry), pieces.flatten.Sublist (input.asideOf job pid) ∧
      r = pieces.flatMap input.buildOne) ∨
    ∃ plan, findPlan job.plans pid = some plan ∧ plan.decision = .kMergeBase ∧
      r = (cutFiles input.ucmp input.engine.targetReached [] (input.merged job plan)).map
        (input.mergeOutput pid) := by
  have hplain : ∀ lo hi, input.materializePartition job.se job.table pid
      (job.se.gens.filter (·.1 = pid)) lo hi = .ok r →
      ∃ pieces : List (List TableEntry), pieces.flatten.Sublist (input.asideOf job pid) ∧
        r = pieces.flatMap input.buildOne := by
    intro lo hi hm
    obtain ⟨pieces, hflat, hr⟩ := materializePartition_ok hm
    exact ⟨pieces, hflat ▸ List.Sublist.refl _, hr⟩
  have hnone : r = [] → ∃ pieces : List (List TableEntry),
      pieces.flatten.Sublist (input.asideOf job pid) ∧ r = pieces.flatMap input.buildOne :=
    fun hr => ⟨[], List.nil_sublist _, hr⟩
  simp only [executePartition] at h
  split at h
  · cases h
    exact .inl (hnone rfl)
  · cases hplan : findPlan job.plans pid with
    | none =>
      rw [hplan] at h
      exact .inl (hplain _ _ h)
    | some plan =>
      rw [hplan] at h
      dsimp only at h
      have hpid : plan.partId = pid := by
        have := List.find?_some hplan
        exact of_decide_eq_true this
      cases hd : plan.decision with
      | kSkip =>
        rw [hd] at h
        cases h
        exact .inl (hnone rfl)
      | kMergeBase =>
        rw [hd] at h
        obtain ⟨hr, -⟩ | hr := materializeMergePartition_ok h
        · exact .inl (hnone hr)
        · refine .inr ⟨plan, rfl, hd, ?_⟩
          rw [merged, hpid]
          exact hr
      | kDirect =>
        rw [hd] at h
        exact .inl (hplain _ _ h)
      | kFallback =>
        rw [hd] at h
        exact .inl (hplain _ _ h)

end MaterializeInput

private theorem exists_of_forall₂ {α β : Type*} {R : α → β → Prop} {as : List α} {bs : List β}
    (h : List.Forall₂ R as bs) {b : β} (hb : b ∈ bs) : ∃ a ∈ as, R a b := by
  induction h with
  | nil => exact absurd hb List.not_mem_nil
  | cons hab _ ih =>
    obtain rfl | hb := List.mem_cons.mp hb
    · exact ⟨_, List.mem_cons_self, hab⟩
    · obtain ⟨a, ha, hR⟩ := ih hb
      exact ⟨a, List.mem_cons_of_mem _ ha, hR⟩

/-- An output of a finished job comes from one of its tasks. -/
theorem Executed.exists_task {input : MaterializeInput} {job : Job} {outs : List MaterializeOutput}
    (h : Executed input job outs) {o : MaterializeOutput} (ho : o ∈ outs) :
    ∃ pid ∈ collectTasks job, ∃ r, input.executePartition job pid = .ok r ∧ unnumbered o ∈ r := by
  obtain ⟨results, htasks, hperm⟩ := h
  have hmem : unnumbered o ∈ results.flatten := hperm.mem_iff.mp (List.mem_map_of_mem ho)
  obtain ⟨r, hr, hor⟩ := List.mem_flatten.mp hmem
  obtain ⟨pid, hpid, hexec⟩ := exists_of_forall₂ htasks hr
  exact ⟨pid, hpid, r, hexec, hor⟩

/-- The ends of a new file depend on its entries only. -/
def HasEnds (f : FileMetaData) : Prop :=
  f.smallest = (f.entries.head?.map TableEntry.userKey).getD [] ∧
    f.largest = (f.entries.getLast?.map TableEntry.userKey).getD []

theorem HasEnds.exists_entries {f : FileMetaData} (h : HasEnds f) (hne : f.entries ≠ []) :
    ∃ first last, first ∈ f.entries ∧ last ∈ f.entries ∧ f.smallest = first.userKey ∧
      f.largest = last.userKey ∧
      ∀ R : TableEntry → TableEntry → Prop, f.entries.Pairwise R → first = last ∨ R first last := by
  have hfirst := List.head?_eq_some_head hne
  have hlast := List.getLast?_eq_some_getLast hne
  refine ⟨_, _, List.head_mem hne, List.getLast_mem hne, ?_, ?_, ?_⟩
  · rw [h.1, hfirst]
    rfl
  · rw [h.2, hlast]
    rfl
  · intro R hR
    obtain ⟨hends, -⟩ := KeyRanges.pairwise_ends hR hfirst hlast (List.getLast_mem hne)
    exact hends.imp_left Eq.symm

/-- A table of its own, written from some of the records of a partition. -/
structure PlainOutput (input : MaterializeInput) (job : Job) (o : MaterializeOutput) : Prop where
  decision : o.decision = .kDirect
  partId : o.partId = 0
  source : ∃ pid ∈ collectTasks job, ∃ pieces : List (List TableEntry),
    pieces.flatten.Sublist (input.asideOf job pid) ∧
      ∃ piece ∈ pieces, o.file.entries = input.engine.compactionIterator piece

/-- A file of the merge of a partition. -/
structure MergeOutput (input : MaterializeInput) (job : Job) (plan : PartitionPlan)
    (o : MaterializeOutput) : Prop where
  decision : o.decision = .kMergeBase
  plan_eq : findPlan job.plans o.partId = some plan
  merges : plan.decision = .kMergeBase
  source : o.file.entries ∈
    cutFiles input.ucmp input.engine.targetReached [] (input.merged job plan)

theorem Executed.cases {input : MaterializeInput} {job : Job} {outs : List MaterializeOutput}
    (h : Executed input job outs) {o : MaterializeOutput} (ho : o ∈ outs) :
    (PlainOutput input job o ∨ ∃ plan, MergeOutput input job plan o) ∧
      o.file.entries ≠ [] ∧ HasEnds o.file ∧ o.superseded = false := by
  obtain ⟨pid, hpid, r, hexec, hor⟩ := h.exists_task ho
  obtain ⟨pieces, hsub, rfl⟩ | ⟨plan, hplan, hd, rfl⟩ := MaterializeInput.executePartition_ok hexec
  · obtain ⟨piece, hpiece, hbuilt⟩ := List.mem_flatMap.mp hor
    cases hes : input.engine.compactionIterator piece with
    | nil =>
      rw [MaterializeInput.buildOne, hes] at hbuilt
      exact absurd hbuilt List.not_mem_nil
    | cons e es =>
      rw [MaterializeInput.buildOne, hes, List.mem_singleton] at hbuilt
      have hentries : o.file.entries = e :: es := congrArg (fun x => x.file.entries) hbuilt
      refine ⟨.inl ⟨congrArg MaterializeOutput.decision hbuilt,
        congrArg MaterializeOutput.partId hbuilt, pid, hpid, pieces, hsub, piece, hpiece,
        hentries.trans hes.symm⟩, hentries ▸ List.cons_ne_nil _ _, ?_,
        congrArg MaterializeOutput.superseded hbuilt⟩
      rw [HasEnds, hentries]
      exact ⟨congrArg (fun x => x.file.smallest) hbuilt, congrArg (fun x => x.file.largest) hbuilt⟩
  · obtain ⟨es, hes, hbuilt⟩ := List.mem_map.mp hor
    have hentries : o.file.entries = es := (congrArg (fun x => x.file.entries) hbuilt).symm
    refine ⟨.inr ⟨plan, (congrArg MaterializeOutput.decision hbuilt).symm, ?_, hd, hentries ▸ hes⟩,
      ?_, ?_, (congrArg MaterializeOutput.superseded hbuilt).symm⟩
    · rw [← hplan]
      exact congrArg _ (congrArg MaterializeOutput.partId hbuilt).symm
    · rw [hentries]
      exact ne_nil_of_mem_cutFiles _ _ hes
    · rw [HasEnds, hentries]
      exact ⟨(congrArg (fun x => x.file.smallest) hbuilt).symm,
        (congrArg (fun x => x.file.largest) hbuilt).symm⟩

section MergedKeys

variable {input : MaterializeInput} {job : Job} {plan : PartitionPlan} {o : MaterializeOutput}

/-- What the merge of a partition reads. -/
def MaterializeInput.mergeSources (input : MaterializeInput) (job : Job) (plan : PartitionPlan) :
    List TableEntry :=
  input.mergeInputs (job.se.gens.filter (·.1 = plan.partId)) plan.overlapAll plan.l0Overlap

theorem mem_mergeSources {e : TableEntry} : e ∈ input.mergeSources job plan ↔
    e ∈ input.asideOf job plan.partId ∨ ∃ f, (f ∈ plan.l0Overlap ∨ f ∈ plan.overlapAll) ∧
      e ∈ f.entries := by
  simp only [MaterializeInput.mergeSources, MaterializeInput.mergeInputs,
    MaterializeInput.asideOf, List.mem_append, List.mem_flatMap, or_and_right, exists_or, or_assoc]

theorem mem_sorted {es : List TableEntry} {e : TableEntry} : e ∈ input.sorted es ↔ e ∈ es :=
  (List.perm_insertionSort _ es).mem_iff

/-- The keys of a merge are keys that it read, in ascending order. -/
theorem merged_keys (hlaw : input.engine.Lawful input.ucmp) :
    (input.merged job plan).Pairwise
        (fun a b => KeyRanges.Le input.ucmp.compare a.userKey b.userKey) ∧
      ∀ e ∈ input.merged job plan, ∃ e' ∈ input.mergeSources job plan, e'.userKey = e.userKey := by
  have hsub := hlaw.keys_sublist (input.sorted (input.mergeSources job plan))
  constructor
  · have hsorted : (input.sorted (input.mergeSources job plan)).Pairwise
        fun a b => KeyRanges.Le input.ucmp.compare a.userKey b.userKey :=
      (pairwise_sorted _).imp le_of_internalLe
    exact List.pairwise_map.mp ((List.pairwise_map.mpr hsorted).sublist hsub)
  · intro e he
    obtain ⟨e', he', hkey⟩ := List.mem_map.mp (hsub.subset (List.mem_map_of_mem he))
    exact ⟨e', mem_sorted.mp he', hkey⟩

theorem MergeOutput.sublist (h : MergeOutput input job plan o) :
    o.file.entries.Sublist (input.merged job plan) := by
  have hflat := flatten_cutFiles input.ucmp input.engine.targetReached [] (input.merged job plan)
  rw [List.nil_append] at hflat
  rw [← hflat]
  exact List.sublist_flatten_of_mem h.source

end MergedKeys

end ZeroFlush.Materialization
