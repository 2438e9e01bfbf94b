import ZeroFlush.PartitionPlans
import ZeroFlush.RoutedRanges

/-! # What the scans for overlapping files find

The scans compare the ends of a partition as they are, also where an empty slice stands for an open
end. A file or a compaction that meets the partition is missed if an end of it is on the wrong side
of the empty key. -/
namespace ZeroFlush.OverlapScans
open FixedWidthCodec UserKeys WalFormat PartitionTables TableFiles PartitionPlans RoutedRanges

section Findings

variable (ucmp : UserComparator) (t : PartitionTable) (pid : ℕ)

open Classical in
/-- The files whose range meets the partition. -/
noncomputable def meeting (files : List FileMetaData) : List FileMetaData :=
  files.filter fun f => MeetsPartition ucmp t pid f.smallest f.largest

/-- The outcome of `scan_overlap` when these files meet the partition. -/
structure Finds (found : List FileMetaData) (busy registered : List ℕ) (s : Scan) : Prop where
  ok_iff : s.ok = true ↔ ∀ f ∈ found, f.number ∈ busy → f.number ∈ registered
  overlap_eq : s.ok = true → s.overlap = found.filter (·.number ∉ busy)
  batchSkipped_iff : s.ok = true → (s.batchSkipped = true ↔ ∃ f ∈ found, f.number ∈ busy)

/-- The output ranges of a running compaction that a check at this level is about. -/
def outputRanges (level : ℕ) (c : Compaction) : List (Bytes × Bytes) :=
  (if c.outputLevel = level then [(c.smallest, c.largest)] else []) ++ c.proximalRange.toList

end Findings

/-- Whatever is being compacted, the scans of a partition find the files that meet it, and the check
finds the running compactions that do. `upper`: the scan may end early, and reports that it did.
`shadow`: the question asked before a forced replacement. -/
structure ScansExactly (mc : ZfMaterializeCtx) (t : PartitionTable) (pid : ℕ)
    (running : List Compaction) : Prop where
  base : ∀ busy registered,
    Finds (meeting mc.ucmp t pid (mc.base.files mc.base.baseLevel)) busy registered
      (scanOverlap mc.ucmp (t.rangeOf pid).1 (t.rangeOf pid).2 busy registered
        (mc.base.files mc.base.baseLevel) {})
  upper : ∀ busy, ∃ rest, meeting mc.ucmp t pid mc.upperFiles =
      (scanUpper mc.ucmp (t.rangeOf pid).1 (t.rangeOf pid).2 busy mc.upperFiles []).1 ++ rest ∧
    ((scanUpper mc.ucmp (t.rangeOf pid).1 (t.rangeOf pid).2 busy mc.upperFiles []).2 = true ↔
      rest ≠ [])
  shadow : ∀ busy : List ℕ, (mc.upperFiles.any fun f => f.number ∉ busy &&
      !outside mc.ucmp (t.rangeOf pid).1 (t.rangeOf pid).2 f) = true ↔
    ∃ f ∈ meeting mc.ucmp t pid mc.upperFiles, f.number ∉ busy
  conflicts : ∀ c ∈ running, (∃ r ∈ outputRanges mc.base.baseLevel c,
      MeetsPartition mc.ucmp t pid r.1 r.2) →
    rangeOverlapWithCompaction mc.ucmp [c] (t.rangeOf pid).1 (t.rangeOf pid).2 mc.base.baseLevel = true

/-- An open lower end is the empty key or above it, an open upper end below it. -/
def ScanSees (ucmp : UserComparator) (t : PartitionTable) (pid : ℕ) (f : FileMetaData) : Prop :=
  (lowerEnd t pid = none → KeyRanges.Le ucmp.compare [] f.largest) ∧
    (upperEnd t pid = none → KeyRanges.Lt ucmp.compare f.smallest [])

/-- The closed range meets the partition or its upper end, and the empty key hides it at neither
open end. -/
structure CheckSees (ucmp : UserComparator) (t : PartitionTable) (pid : ℕ) (r : Bytes × Bytes) :
    Prop where
  lower : ∀ b ∈ lowerEnd t pid, KeyRanges.Le ucmp.compare b r.2
  upper : ∀ b ∈ upperEnd t pid, KeyRanges.Le ucmp.compare r.1 b
  openLower : lowerEnd t pid = none → KeyRanges.Le ucmp.compare [] r.2
  openUpper : upperEnd t pid = none → KeyRanges.Le ucmp.compare r.1 []

/-- At an open end of the partition, no file and no running compaction that meets it is on the
wrong side of the empty key. -/
structure EndsReach (mc : ZfMaterializeCtx) (t : PartitionTable) (pid : ℕ)
    (running : List Compaction) : Prop where
  files : ∀ f ∈ mc.base.files mc.base.baseLevel ++ mc.upperFiles,
    MeetsPartition mc.ucmp t pid f.smallest f.largest → ScanSees mc.ucmp t pid f
  running : ∀ c ∈ running, (∃ r ∈ outputRanges mc.base.baseLevel c,
      MeetsPartition mc.ucmp t pid r.1 r.2) →
    ∃ r ∈ outputRanges mc.base.baseLevel c, CheckSees mc.ucmp t pid r

section Scans

variable {ucmp : UserComparator} {lo hi : Bytes} {busy registered : List ℕ}

/-- The scan passes over the files outside the range only. -/
theorem scanOverlap_spec (files : List FileMetaData) (s : Scan) (hs : s.ok = true) :
    let found := files.filter fun f => !outside ucmp lo hi f
    let s' := scanOverlap ucmp lo hi busy registered files s
    (s'.ok = true ↔ ∀ f ∈ found, f.number ∈ busy → f.number ∈ registered) ∧
      (s'.ok = true → s'.overlap = s.overlap ++ found.filter (·.number ∉ busy) ∧
        (s'.batchSkipped = true ↔ s.batchSkipped = true ∨ ∃ f ∈ found, f.number ∈ busy)) := by
  induction files generalizing s with
  | nil => simp [scanOverlap, hs]
  | cons f files ih =>
    dsimp only at ih ⊢
    rw [scanOverlap]
    cases hout : outside ucmp lo hi f with
    | true =>
      rw [if_pos rfl, List.filter_cons_of_neg (by simp [hout])]
      exact ih s hs
    | false =>
      rw [if_neg Bool.false_ne_true, List.filter_cons_of_pos (by simp [hout])]
      by_cases hbusy : f.number ∈ busy
      · rw [if_pos hbusy, List.filter_cons_of_neg (by simp [hbusy])]
        by_cases hreg : f.number ∈ registered
        · rw [if_pos hreg]
          obtain ⟨hok, hres⟩ := ih { s with batchSkipped := true } hs
          refine ⟨hok.trans ?_, fun h => ⟨(hres h).1, (hres h).2.trans ?_⟩⟩
          · simp [hreg]
          · simp [hbusy]
        · rw [if_neg hreg]
          refine ⟨iff_of_false Bool.false_ne_true fun h => ?_, fun h => absurd h Bool.false_ne_true⟩
          exact hreg (h f List.mem_cons_self hbusy)
      · rw [if_neg hbusy, List.filter_cons_of_pos (by simp [hbusy])]
        obtain ⟨hok, hres⟩ := ih { s with overlap := s.overlap ++ [f] } hs
        refine ⟨hok.trans ?_, fun h => ⟨?_, (hres h).2.trans ?_⟩⟩
        · simp [hbusy]
        · rw [(hres h).1, List.append_assoc, List.singleton_append]
        · simp [hbusy]

/-- The loop over the shallower levels goes over the files that are not outside, and says whether
it left some. -/
theorem scanUpper_spec (files l0 : List FileMetaData) :
    ∃ rest, l0 ++ files.filter (fun f => !outside ucmp lo hi f) =
        (scanUpper ucmp lo hi busy files l0).1 ++ rest ∧
      ((scanUpper ucmp lo hi busy files l0).2 = true ↔ rest ≠ []) := by
  induction files generalizing l0 with
  | nil => exact ⟨[], rfl, iff_of_false Bool.false_ne_true (not_not.mpr rfl)⟩
  | cons f files ih =>
    rw [scanUpper]
    cases hout : outside ucmp lo hi f with
    | true =>
      rw [if_pos rfl, List.filter_cons_of_neg (by simp [hout])]
      exact ih l0
    | false =>
      rw [if_neg Bool.false_ne_true, List.filter_cons_of_pos (by simp [hout])]
      -- a file that cannot be replaced ends the scan
      have hends : ∃ rest, l0 ++ f :: files.filter (fun f => !outside ucmp lo hi f) = l0 ++ rest ∧
          (true = true ↔ rest ≠ []) := ⟨_, rfl, iff_of_true rfl (List.cons_ne_nil _ _)⟩
      split
      · exact hends
      · split
        · exact hends
        · rw [← List.singleton_append, ← List.append_assoc]
          exact ih (l0 ++ [f])

theorem rangeOverlapWithCompaction_iff {running : List Compaction} {level : ℕ} :
    rangeOverlapWithCompaction ucmp running lo hi level = true ↔
      ∃ c ∈ running, ∃ r ∈ outputRanges level c, meets ucmp lo hi r.1 r.2 = true := by
  rw [rangeOverlapWithCompaction, List.any_eq_true]
  refine exists_congr fun c => and_congr_right fun _ => ?_
  by_cases hlevel : c.outputLevel = level
  · cases hprox : c.proximalRange <;> simp [outputRanges, hlevel, hprox]
  · cases hprox : c.proximalRange <;> simp [outputRanges, hlevel, hprox]

end Scans

section Ends

variable {ucmp : UserComparator} {t : PartitionTable} {pid : ℕ}

theorem getD_nil_iff {P : Bytes → Prop} {o : Option Bytes} :
    P (o.getD []) ↔ (∀ b ∈ o, P b) ∧ (o = none → P []) := by
  cases o <;> simp

/-- The half-open test against the reported ends. -/
theorem not_outside_iff (hmode : t.isHashMode = false) (hbs : Ascending ucmp t.boundaries)
    (hpid : pid < t.partitions) {f : FileMetaData}
    (hle : KeyRanges.Le ucmp.compare f.smallest f.largest) :
    outside ucmp (t.rangeOf pid).1 (t.rangeOf pid).2 f = false ↔
      MeetsPartition ucmp t pid f.smallest f.largest ∧ ScanSees ucmp t pid f := by
  have hraw : outside ucmp (t.rangeOf pid).1 (t.rangeOf pid).2 f = false ↔
      KeyRanges.Le ucmp.compare ((lowerEnd t pid).getD []) f.largest ∧
        KeyRanges.Lt ucmp.compare f.smallest ((upperEnd t pid).getD []) := by
    rw [rangeOf_eq, ← KeyRanges.not_lt]
    simp [outside, KeyRanges.Lt]
  rw [hraw, @getD_nil_iff (KeyRanges.Le ucmp.compare · f.largest),
    @getD_nil_iff (KeyRanges.Lt ucmp.compare f.smallest), meetsPartition_iff hmode hbs hpid hle]
  exact and_and_and_comm

/-- The closed test against the reported ends. -/
theorem meets_rangeOf_iff {r : Bytes × Bytes} :
    meets ucmp (t.rangeOf pid).1 (t.rangeOf pid).2 r.1 r.2 = true ↔ CheckSees ucmp t pid r := by
  rw [rangeOf_eq, meets, KeyRanges.meets_iff, @getD_nil_iff (KeyRanges.Le ucmp.compare · r.2),
    @getD_nil_iff (KeyRanges.Le ucmp.compare r.1)]
  exact ⟨fun h => ⟨h.1.1, h.2.1, h.1.2, h.2.2⟩,
    fun h => ⟨⟨h.lower, h.openLower⟩, ⟨h.upper, h.openUpper⟩⟩⟩

theorem mem_meeting {files : List FileMetaData} {f : FileMetaData} :
    f ∈ meeting ucmp t pid files ↔ f ∈ files ∧ MeetsPartition ucmp t pid f.smallest f.largest := by
  simp [meeting]

/-- Where the empty key hides no file, the tests against the reported ends are right. -/
theorem meeting_eq (hmode : t.isHashMode = false) (hbs : Ascending ucmp t.boundaries)
    (hpid : pid < t.partitions) {files : List FileMetaData}
    (hle : ∀ f ∈ files, KeyRanges.Le ucmp.compare f.smallest f.largest)
    (hsees : ∀ f ∈ files, MeetsPartition ucmp t pid f.smallest f.largest → ScanSees ucmp t pid f) :
    meeting ucmp t pid files =
      files.filter fun f => !outside ucmp (t.rangeOf pid).1 (t.rangeOf pid).2 f := by
  refine List.filter_congr fun f hf => ?_
  rw [Bool.eq_iff_iff]
  simp only [decide_eq_true_eq, Bool.not_eq_true', not_outside_iff hmode hbs hpid (hle f hf)]
  exact ⟨fun h => ⟨h, hsees f hf h⟩, fun h => h.1⟩

end Ends

section Exactness

variable {mc : ZfMaterializeCtx} {t : PartitionTable} {pid : ℕ} {running : List Compaction}

theorem mem_upperFiles {f : FileMetaData} :
    f ∈ mc.upperFiles ↔ ∃ l < mc.base.baseLevel, f ∈ mc.base.files l := by
  simp [ZfMaterializeCtx.upperFiles]

/-- A file of the base level that an idle scan finds is not outside. -/
theorem ScansExactly.base_sees (h : ScansExactly mc t pid running) {f : FileMetaData}
    (hf : f ∈ mc.base.files mc.base.baseLevel)
    (hmeets : MeetsPartition mc.ucmp t pid f.smallest f.largest) :
    outside mc.ucmp (t.rangeOf pid).1 (t.rangeOf pid).2 f = false := by
  have hfound := h.base [] []
  obtain ⟨hok, hres⟩ := @scanOverlap_spec mc.ucmp (t.rangeOf pid).1 (t.rangeOf pid).2 [] []
    (mc.base.files mc.base.baseLevel) {} rfl
  have hidle := hfound.ok_iff.mpr fun g _ hg => absurd hg List.not_mem_nil
  have hmem : f ∈ (scanOverlap mc.ucmp (t.rangeOf pid).1 (t.rangeOf pid).2 [] []
      (mc.base.files mc.base.baseLevel) {}).overlap := by
    rw [hfound.overlap_eq hidle]
    exact List.mem_filter.mpr ⟨mem_meeting.mpr ⟨hf, hmeets⟩, by simp⟩
  rw [(hres hidle).1] at hmem
  simpa using (List.mem_filter.mp (List.mem_filter.mp hmem).1).2

/-- The question before a forced replacement, asked with every other file being compacted. -/
theorem ScansExactly.upper_sees (h : ScansExactly mc t pid running)
    (hwf : mc.base.WellFormed mc.ucmp) {f : FileMetaData} (hf : f ∈ mc.upperFiles)
    (hmeets : MeetsPartition mc.ucmp t pid f.smallest f.largest) :
    outside mc.ucmp (t.rangeOf pid).1 (t.rangeOf pid).2 f = false := by
  have hshadow := (h.shadow ((mc.upperFiles.map FileMetaData.number).filter (· ≠ f.number))).mpr
    ⟨f, mem_meeting.mpr ⟨hf, hmeets⟩, by simp⟩
  obtain ⟨g, hg, hfree⟩ := List.any_eq_true.mp hshadow
  obtain ⟨hbusy, hin⟩ := Bool.and_eq_true_iff.mp hfree
  have hnumber : g.number = f.number := by
    by_contra hne
    refine of_decide_eq_true hbusy (List.mem_filter.mpr ⟨List.mem_map_of_mem hg, ?_⟩)
    exact decide_eq_true hne
  obtain ⟨l, -, hgl⟩ := mem_upperFiles.mp hg
  obtain ⟨l', -, hfl⟩ := mem_upperFiles.mp hf
  rw [← (hwf.number_inj l l' g f hgl hfl hnumber).2]
  simpa using hin

/-- The scans of a partition are exact precisely if the empty slice that stands for an open end
hides nothing: the code compares it as a key. -/
theorem scansExactly_iff (hwf : mc.base.WellFormed mc.ucmp) (hmode : t.isHashMode = false)
    (hcheck : checkBoundaries mc.ucmp t.boundaries = .ok ()) (hpid : pid < t.partitions) :
    ScansExactly mc t pid running ↔ EndsReach mc t pid running := by
  have hbs := checkBoundaries_iff.mp hcheck
  have hle : ∀ f ∈ mc.base.files mc.base.baseLevel ++ mc.upperFiles,
      KeyRanges.Le mc.ucmp.compare f.smallest f.largest := by
    intro f hf
    obtain hf | hf := List.mem_append.mp hf
    · exact hwf.ordered _ f hf
    · obtain ⟨l, -, hl⟩ := mem_upperFiles.mp hf
      exact hwf.ordered l f hl
  constructor
  · intro h
    refine ⟨fun f hf hmeets => ?_, fun c hc hmeets => ?_⟩
    · refine ((not_outside_iff hmode hbs hpid (hle f hf)).mp ?_).2
      obtain hf | hf := List.mem_append.mp hf
      · exact h.base_sees hf hmeets
      · exact h.upper_sees hwf hf hmeets
    · obtain ⟨c', hc', r, hr, hsees⟩ := rangeOverlapWithCompaction_iff.mp (h.conflicts c hc hmeets)
      cases List.mem_singleton.mp hc'
      exact ⟨r, hr, meets_rangeOf_iff.mp hsees⟩
  · intro h
    have hbase := meeting_eq hmode hbs hpid (fun f hf => hle f (List.mem_append_left _ hf))
      fun f hf => h.files f (List.mem_append_left _ hf)
    have hupper := meeting_eq hmode hbs hpid (fun f hf => hle f (List.mem_append_right _ hf))
      fun f hf => h.files f (List.mem_append_right _ hf)
    refine ⟨fun busy registered => ?_, fun busy => ?_, fun busy => ?_, fun c hc hmeets => ?_⟩
    · obtain ⟨hok, hres⟩ := @scanOverlap_spec mc.ucmp (t.rangeOf pid).1 (t.rangeOf pid).2 busy
        registered (mc.base.files mc.base.baseLevel) {} rfl
      rw [← hbase] at hok hres
      refine ⟨hok, fun ho => (hres ho).1, fun ho => (hres ho).2.trans ?_⟩
      exact or_iff_right Bool.false_ne_true
    · rw [hupper]
      exact scanUpper_spec mc.upperFiles []
    · rw [hupper, List.any_eq_true]
      constructor
      · rintro ⟨f, hf, hfree⟩
        obtain ⟨hbusy, hin⟩ := Bool.and_eq_true_iff.mp hfree
        exact ⟨f, List.mem_filter.mpr ⟨hf, hin⟩, of_decide_eq_true hbusy⟩
      · rintro ⟨f, hf, hbusy⟩
        obtain ⟨hf, hin⟩ := List.mem_filter.mp hf
        exact ⟨f, hf, Bool.and_eq_true_iff.mpr ⟨decide_eq_true hbusy, hin⟩⟩
    · obtain ⟨r, hr, hsees⟩ := h.running c hc hmeets
      exact rangeOverlapWithCompaction_iff.mpr
        ⟨c, List.mem_singleton.mpr rfl, r, hr, meets_rangeOf_iff.mpr hsees⟩

end Exactness

/-- Where no key precedes the empty one, only the last partition has an end that hides something. -/
theorem endsReach_of_upperEnd {mc : ZfMaterializeCtx} {t : PartitionTable} {pid : ℕ}
    {running : List Compaction} (hmode : t.isHashMode = false)
    (hcheck : checkBoundaries mc.ucmp t.boundaries = .ok ()) (hpid : pid < t.partitions)
    (hfirst : ∀ k, KeyRanges.Le mc.ucmp.compare [] k) (hupper : upperEnd t pid ≠ none) :
    EndsReach mc t pid running := by
  refine ⟨fun f _ _ => ⟨fun _ => hfirst _, fun h => absurd h hupper⟩, ?_⟩
  rintro c - ⟨r, hr, k, hsmall, hlarge, hroute⟩
  obtain ⟨hlo, hhi⟩ := (route_eq_iff hmode (checkBoundaries_iff.mp hcheck) hpid).mp hroute
  refine ⟨r, hr, fun b hb => KeyRanges.le_trans (hlo b hb) hlarge, fun b hb => ?_, fun _ => hfirst _,
    fun h => absurd h hupper⟩
  exact KeyRanges.le_trans hsmall (KeyRanges.le_of_lt (hhi b hb))

/-- In the last partition such an order lets the scans find nothing at all. -/
theorem not_endsReach_of_open {mc : ZfMaterializeCtx} {t : PartitionTable} {pid : ℕ}
    {running : List Compaction} (hfirst : ∀ k, KeyRanges.Le mc.ucmp.compare [] k)
    (hupper : upperEnd t pid = none) {f : FileMetaData}
    (hf : f ∈ mc.base.files mc.base.baseLevel ++ mc.upperFiles)
    (hmeets : MeetsPartition mc.ucmp t pid f.smallest f.largest) : ¬ EndsReach mc t pid running :=
  fun h => KeyRanges.not_lt.mpr (hfirst f.smallest) ((h.files f hf hmeets).2 hupper)

namespace OpenEnd

def file (number : ℕ) (smallest largest : UInt8) : FileMetaData :=
  { number := number, fileSize := 1, epochNumber := 0, smallest := [smallest], largest := [largest]
    entries := [] }

/-- The files `[b, d]` and `[p, q]` at the base level. -/
def files : ℕ → List FileMetaData
  | 1 => [file 10 98 100, file 11 112 113]
  | _ => []

def version : Version := ⟨2, 1, files, Nat.one_pos, Nat.one_lt_two⟩

theorem version_wellFormed : version.WellFormed .bytewise := by
  refine Version.wellFormed_of_forall ?_ (by decide) (by decide) (by decide)
  intro l hl
  match l, hl with
  | l + 2, _ => rfl

def flushCtx : ZfMaterializeCtx where
  zfo := { mergeIntoBaseLevel := true, ratioBelow := fun _ _ => false }
  ucmp := .bytewise
  base := version

/-- Keys below `m` belong to partition 0. -/
def table : PartitionTable := .cutAt 1 [109]

end OpenEnd

/-- The first of two partitions, while a compaction into its range is running. -/
theorem scansExactly_iff_first :
    ScansExactly OpenEnd.flushCtx OpenEnd.table 0 [⟨1, [97], [99], none⟩] ↔
      EndsReach OpenEnd.flushCtx OpenEnd.table 0 [⟨1, [97], [99], none⟩] :=
  scansExactly_iff OpenEnd.version_wellFormed rfl rfl (by decide)

/-- The file `[p, q]` lies in the last of two partitions, and its scan finds nothing. -/
theorem scansExactly_fails : ¬ ScansExactly OpenEnd.flushCtx OpenEnd.table 1 [] := by
  intro h
  have hsees := @ScansExactly.base_sees _ _ _ _ h (OpenEnd.file 11 112 113) (by decide)
    ⟨[112], by decide, by decide, by decide⟩
  exact absurd hsees (by decide)

end ZeroFlush.OverlapScans
