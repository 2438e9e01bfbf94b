import ZeroFlush.MergePlacement

/-! # The level of a plain output

The check before a plain output is placed reads the batch as it is then, with merge outputs, forced
replacements and superseded outputs of all earlier jobs in it. Placing further outputs moves
nothing. -/
namespace ZeroFlush.InstallLevels
open FixedWidthCodec UserKeys TableFiles PartitionPlans Materialization FlushJobs MergePlacement

/-- An output when it is placed: the plans of its job and the compactions that run then. -/
structure Placement where
  plans : List PartitionPlan
  running : List Compaction
  output : MaterializeOutput

/-- Its level is asked from `PickInstallLevel`. -/
def Placement.Picked (p : Placement) : Prop :=
  p.output.decision ≠ .kMergeBase ∧
    ∀ plan, findPlan p.plans p.output.partId = some plan → plan.forceReplace = false

def place (ucmp : UserComparator) (current : Version) (batch : List MaterializeOutput)
    (p : Placement) : List MaterializeOutput :=
  placeOutput ucmp current p.running p.plans batch p.output

/-- The batch after a sequence of placements. -/
def placeAll (ucmp : UserComparator) (current : Version) (ps : List Placement) :
    List MaterializeOutput :=
  ps.foldl (place ucmp current) []

/-- The placements of the jobs of a flush, in the order of their epochs. -/
def placements (natives : List Compaction) : List (Job × List MaterializeOutput) → List Placement
  | [] => []
  | (job, outs) :: jobs =>
    let running := natives ++ registeredBy job.plans ++ jobs.flatMap fun j => registeredBy j.1.plans
    outs.map (⟨job.plans, running, ·⟩) ++ placements natives jobs

/-- `y` came to the batch after `before`. -/
structure LandsNewer (ucmp : UserComparator) (current : Version) (before : List MaterializeOutput)
    (y : MaterializeOutput) : Prop where
  notBoth : ∀ x ∈ before, ¬ Apart ucmp x.file y.file →
    ¬ (x.level = current.baseLevel ∧ y.level = current.baseLevel)
  notDeeper : ∀ x ∈ before, ¬ Apart ucmp x.file y.file → y.level ≤ x.level
  filesAbove : y.level = current.baseLevel →
    ∀ l < current.baseLevel, ∀ f ∈ current.files l, Apart ucmp f y.file
  batchAbove : y.level = current.baseLevel →
    ∀ x ∈ before, x.level < current.baseLevel → Apart ucmp x.file y.file

/-! ## The search in a level

Above level 0 the files are sorted and disjoint, and `OverlapInLevel` compares one of them. -/

/-- `SomeFileOverlapsRange` over sorted files: the first one that does not end before the range. -/
def someFileOverlapsRange (ucmp : UserComparator) (files : List FileMetaData)
    (smallest largest : Bytes) : Bool :=
  match files.find? fun f => ucmp.compare f.largest smallest != .lt with
  | none => false
  | some f => ucmp.compare largest f.smallest != .lt

theorem someFileOverlapsRange_cons (ucmp : UserComparator) (f : FileMetaData)
    (files : List FileMetaData) (smallest largest : Bytes) :
    someFileOverlapsRange ucmp (f :: files) smallest largest =
      if ucmp.compare f.largest smallest = .lt then
        someFileOverlapsRange ucmp files smallest largest
      else ucmp.compare largest f.smallest != .lt := by
  rw [someFileOverlapsRange, List.find?_cons]
  by_cases hlt : ucmp.compare f.largest smallest = .lt
  · rw [if_pos hlt, hlt]
    rfl
  · rw [if_neg hlt, bne_iff_ne.mpr hlt]

/-- On such a level the search finds a file precisely if some file meets the range. -/
theorem overlapInLevel_eq_search {ucmp : UserComparator} {v : Version} {level : ℕ}
    (hsorted : (v.files level).Pairwise fun f g => ucmp.compare f.largest g.smallest = .lt)
    (hordered : ∀ f ∈ v.files level, KeyRanges.Le ucmp.compare f.smallest f.largest)
    (smallest largest : Bytes) :
    overlapInLevel ucmp v level smallest largest =
      someFileOverlapsRange ucmp (v.files level) smallest largest := by
  rw [overlapInLevel]
  generalize v.files level = files at hsorted hordered
  induction files with
  | nil => rfl
  | cons f files ih =>
    obtain ⟨hfirst, hsorted⟩ := List.pairwise_cons.mp hsorted
    have hrest := ih hsorted fun g hg => hordered g (List.mem_cons_of_mem _ hg)
    rw [List.any_cons, someFileOverlapsRange_cons]
    split
    next hbefore =>
      -- the file ends before the range
      have hno : meets ucmp smallest largest f.smallest f.largest = false :=
        KeyRanges.meets_false_iff.mpr (.inl hbefore)
      rw [hno, Bool.false_or, hrest]
    next hends =>
      by_cases hafter : ucmp.compare largest f.smallest = .lt
      · -- the range ends before the file, and so before every later one
        have hnone : ∀ g ∈ f :: files, ¬ meets ucmp smallest largest g.smallest g.largest = true := by
          intro g hg
          rw [Bool.not_eq_true, meets, KeyRanges.meets_false_iff]
          obtain rfl | hg := List.mem_cons.mp hg
          · exact .inr hafter
          · have hle := hordered f List.mem_cons_self
            exact .inr (KeyRanges.lt_of_lt_of_le hafter
              (KeyRanges.le_trans hle (KeyRanges.le_of_lt (hfirst g hg))))
        rw [Bool.eq_false_of_not_eq_true (hnone f List.mem_cons_self), Bool.false_or,
          List.any_eq_false.mpr fun g hg => hnone g (List.mem_cons_of_mem _ hg), hafter]
        rfl
      · have hmeets : meets ucmp smallest largest f.smallest f.largest = true :=
          KeyRanges.meets_iff.mpr ⟨KeyRanges.not_lt.mp hends, KeyRanges.not_lt.mp hafter⟩
        rw [hmeets, Bool.true_or, bne_iff_ne.mpr hafter]

section Sequences

variable {ucmp : UserComparator} {current : Version}

theorem placeAll_append (ps qs : List Placement) :
    placeAll ucmp current (ps ++ qs) = qs.foldl (place ucmp current) (placeAll ucmp current ps) :=
  List.foldl_append

/-- Every output that was placed is still there, at its level. -/
theorem foldl_place_keeps {batch : List MaterializeOutput} {x : MaterializeOutput} {i : ℕ}
    (ps : List Placement) (h : batch[i]? = some x) :
    ∃ y, (ps.foldl (place ucmp current) batch)[i]? = some y ∧ SamePlace x y := by
  induction ps generalizing batch x with
  | nil => exact ⟨x, h, .refl x⟩
  | cons p ps ih =>
    obtain ⟨y, hy, hxy⟩ :=
      @placeOutput_keeps ucmp current p.running p.plans batch p.output x i h
    obtain ⟨z, hz, hyz⟩ := ih hy
    exact ⟨z, hz, hxy.trans hyz⟩

/-- The beginning of the batch is what it was, up to marks. -/
theorem mem_take_foldl_place {batch : List MaterializeOutput} {y : MaterializeOutput}
    (ps : List Placement)
    (hy : y ∈ (ps.foldl (place ucmp current) batch).take batch.length) :
    ∃ x ∈ batch, SamePlace x y := by
  obtain ⟨i, hi, hget⟩ := List.mem_iff_getElem.mp hy
  have hlt : i < batch.length := (List.length_take_le _ _).trans_lt' hi
  obtain ⟨z, hz, hsame⟩ := foldl_place_keeps ps (List.getElem?_eq_getElem hlt)
  rw [List.getElem_take] at hget
  rw [List.getElem?_eq_some_iff] at hz
  obtain ⟨_, hz⟩ := hz
  exact ⟨batch[i], List.getElem_mem hlt, hget ▸ hz ▸ hsame⟩

/-- What `PickInstallLevel` reads decides about the output. -/
theorem landsNewer_picked (running : List Compaction) (before : List MaterializeOutput)
    (o : MaterializeOutput) :
    LandsNewer ucmp current before
      { o with level := pickInstallLevel ucmp current running before o.file } := by
  have hpos := current.baseLevel_pos
  obtain hzero | ⟨hbase, hfree⟩ := pickInstallLevel_cases ucmp current running before o.file
  · -- on level 0 there is nothing to check
    constructor
    · rintro x - - ⟨-, hy⟩
      exact hpos.ne (hzero.symm.trans hy)
    · intro x _ _
      exact hzero.trans_le (Nat.zero_le _)
    · intro hy
      exact absurd (hzero.symm.trans hy) hpos.ne
    · intro hy
      exact absurd (hzero.symm.trans hy) hpos.ne
  · have hapart : ∀ x ∈ before, x.level ≤ current.baseLevel → Apart ucmp x.file o.file :=
      fun x hx hl => apart_comm.mp ((hfree x.level hl).2 x hx rfl)
    constructor
    · rintro x hx hmeets ⟨hl, -⟩
      exact hmeets (hapart x hx hl.le)
    · intro x hx hmeets
      have hdeep : ¬ x.level ≤ current.baseLevel := fun hl => hmeets (hapart x hx hl)
      exact hbase.trans_le (Nat.le_of_not_le hdeep)
    · intro _ l hl f hf
      exact apart_comm.mp ((hfree l hl.le).1 f hf)
    · intro _ x hx hl
      exact hapart x hx hl.le

/-- Marks do not matter for it. -/
theorem LandsNewer.of_samePlace {before before' : List MaterializeOutput} {y y' : MaterializeOutput}
    (h : LandsNewer ucmp current before y) (hy : SamePlace y y')
    (hbefore : ∀ x' ∈ before', ∃ x ∈ before, SamePlace x x') :
    LandsNewer ucmp current before' y' := by
  constructor
  · intro x' hx' hmeets
    obtain ⟨x, hx, hsame⟩ := hbefore x' hx'
    rw [hsame.file_eq, hy.file_eq] at hmeets
    rw [hsame.level_eq, hy.level_eq]
    exact h.notBoth x hx hmeets
  · intro x' hx' hmeets
    obtain ⟨x, hx, hsame⟩ := hbefore x' hx'
    rw [hsame.file_eq, hy.file_eq] at hmeets
    rw [hsame.level_eq, hy.level_eq]
    exact h.notDeeper x hx hmeets
  · rw [hy.level_eq, hy.file_eq]
    exact h.filesAbove
  · intro hbase x' hx' hl
    obtain ⟨x, hx, hsame⟩ := hbefore x' hx'
    rw [hsame.level_eq] at hl
    rw [hsame.file_eq, hy.file_eq]
    exact h.batchAbove (hy.level_eq ▸ hbase) x hx hl

/-- The loops over the jobs and their outputs are one sequence of placements. -/
theorem finalizeJobs_eq (natives : List Compaction) (jobs : List (Job × List MaterializeOutput)) :
    finalizeJobs ucmp current natives jobs [] = placeAll ucmp current (placements natives jobs) := by
  suffices h : ∀ batch, finalizeJobs ucmp current natives jobs batch =
      (placements natives jobs).foldl (place ucmp current) batch from h []
  induction jobs with
  | nil => exact fun _ => rfl
  | cons j jobs ih =>
    intro batch
    rw [finalizeJobs, placements, List.foldl_append, List.foldl_map, ih]
    rfl

end Sequences

/-- In every sequence of placements each output that `PickInstallLevel` places lands newer than all
that the batch had before it, and stays so until the end of the sequence. -/
theorem landsNewer_of_picked (ucmp : UserComparator) (current : Version) (pre post : List Placement)
    (p : Placement) (hp : p.Picked) :
    ∃ y, (placeAll ucmp current (pre ++ p :: post))[(placeAll ucmp current pre).length]? = some y ∧
      y.file = p.output.file ∧
      LandsNewer ucmp current ((placeAll ucmp current (pre ++ p :: post)).take
        (placeAll ucmp current pre).length) y := by
  set before := placeAll ucmp current pre with hbefore
  have hplaced : place ucmp current before p = before ++
      [{ p.output with level := pickInstallLevel ucmp current p.running before p.output.file }] :=
    placeOutput_plain hp.1 hp.2
  have hrun : placeAll ucmp current (pre ++ p :: post) =
      (p :: post).foldl (place ucmp current) before := placeAll_append pre _
  obtain ⟨y, hy, hsame⟩ := @foldl_place_keeps ucmp current (place ucmp current before p) _
    before.length post (by rw [hplaced, List.getElem?_append_right le_rfl, Nat.sub_self]; rfl)
  refine ⟨y, ?_, hsame.file_eq, ?_⟩
  · rw [hrun]
    exact hy
  · refine (landsNewer_picked p.running before p.output).of_samePlace hsame ?_
    intro x hx
    rw [hrun] at hx
    exact mem_take_foldl_place (p :: post) hx

namespace ThreeEpochs

/-- A plain output without a plan. -/
def placement (number : ℕ) (smallest largest : UInt8) : Placement :=
  ⟨[], [], { file := OwnRegistration.file number smallest largest, decision := .kDirect }⟩

/-- `[e, f]` and `[f, g]` above a base level that holds `[b, d]`. -/
def before : List Placement := [placement 20 101 102, placement 21 102 103]

end ThreeEpochs

/-- The first output goes to the base level, the second one meets it and the third the second. -/
theorem landsNewer_third :
    ((placeAll .bytewise OwnRegistration.version
      (ThreeEpochs.before ++ [ThreeEpochs.placement 22 103 104])).map MaterializeOutput.level =
        [1, 0, 0]) ∧
    ∃ y, (placeAll .bytewise OwnRegistration.version (ThreeEpochs.before ++
        ThreeEpochs.placement 22 103 104 :: []))[(placeAll .bytewise OwnRegistration.version
          ThreeEpochs.before).length]? = some y ∧
      y.file = (ThreeEpochs.placement 22 103 104).output.file ∧
      LandsNewer .bytewise OwnRegistration.version ((placeAll .bytewise OwnRegistration.version
        (ThreeEpochs.before ++ ThreeEpochs.placement 22 103 104 :: [])).take
          (placeAll .bytewise OwnRegistration.version ThreeEpochs.before).length) y :=
  ⟨by decide, landsNewer_of_picked .bytewise OwnRegistration.version ThreeEpochs.before []
    (ThreeEpochs.placement 22 103 104) ⟨by decide, fun _ h => absurd h (by simp [findPlan,
      ThreeEpochs.placement])⟩⟩

end ZeroFlush.InstallLevels
