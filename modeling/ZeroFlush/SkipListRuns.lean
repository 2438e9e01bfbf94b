import Mathlib.Data.List.Sort
import ZeroFlush.SkipListHistories

/-! # Runs of a skip list

Any number of insertions and iterators, their turns in any order. -/
namespace ZeroFlush.SkipListRuns
open LinkPaths OrderedInsertion GuardedRuns SkipLists SkipListTowers SkipListHistories

variable {ν ρ α : Type*} [DecidableEq ν] [DecidableEq ρ] {cmp : α → α → Ordering} {key : ν → α}
  {height : ν → ℕ} {L L' : ℕ → List ν} {ra ra' : Race ν ρ α}

/-- All towers stand and all iterators are on their way. -/
structure Consistent (cmp : α → α → Ordering) (key : ν → α) (height : ν → ℕ) (L : ℕ → List ν)
    (ra : Race ν ρ α) : Prop where
  towers : Towers cmp key height L ra.shared ra.inserts
  reading : ∀ r, Reading cmp key L ra.shared (ra.iterators r)

/-- The list of level 0 and where the iterators stand. -/
def contents (L : ℕ → List ν) (ra : Race ν ρ α) : List ν × (ρ → Option ν) :=
  (L 0, fun r => (ra.iterators r).node)

/-- What has happened between two states: the events, and nothing else, have taken effect. -/
structure Linearized (cmp : α → α → Ordering) (key : ν → α) (L : ℕ → List ν) (ra : Race ν ρ α)
    (es : List (Event ν ρ α)) (L' : ℕ → List ν) (ra' : Race ν ρ α) : Prop where
  replay : es.foldlM (Event.apply cmp key) (contents L ra) = some (contents L' ra')
  inserted : ∀ x, outcome (ra.inserts x) ++ es.filterMap (insertOf x) = outcome (ra'.inserts x)
  operated : ∀ r, es.filterMap (opOf r) ++ (ra'.iterators r).ops = (ra.iterators r).ops

theorem Linearized.refl (L : ℕ → List ν) (ra : Race ν ρ α) : Linearized cmp key L ra [] L ra where
  replay := rfl
  inserted x := by simp
  operated r := rfl

theorem Linearized.trans {es es' : List (Event ν ρ α)} {L'' : ℕ → List ν} {ra'' : Race ν ρ α}
    (h : Linearized cmp key L ra es L' ra') (h' : Linearized cmp key L' ra' es' L'' ra'') :
    Linearized cmp key L ra (es ++ es') L'' ra'' where
  replay := by simp [List.foldlM_append, h.replay, h'.replay]
  inserted x := by rw [List.filterMap_append, ← List.append_assoc, h.inserted, h'.inserted]
  operated r := by rw [List.filterMap_append, List.append_assoc, h'.operated, h.operated]

theorem climb_bounds (draws : ℕ → ℕ) (n h : ℕ) : h ≤ climb draws n h ∧ climb draws n h ≤ h + n := by
  induction n generalizing h with
  | zero => exact ⟨le_refl _, le_refl _⟩
  | succ n ih =>
    rw [climb]
    split
    · have hstep := ih (h + 1)
      omega
    · omega

theorem one_le_randomHeight (draws : ℕ → ℕ) : 1 ≤ randomHeight draws := (climb_bounds draws _ 1).1

theorem randomHeight_le (draws : ℕ → ℕ) : randomHeight draws ≤ kMaxHeight :=
  (climb_bounds draws _ 1).2

omit [DecidableEq ν] in
@[simp] theorem outcome_descending (splice : Splice ν) (level : ℕ) (before after : Option ν) :
    outcome (.finding splice level before after true) = [] := by
  cases level <;> rfl

omit [DecidableEq ν] in
theorem outcome_afterLoad (height maxHeight : ℕ) :
    outcome (afterLoad height maxHeight : InsertPhase ν) = [] := by
  rw [afterLoad]
  split
  · rfl
  · exact outcome_descending _ _ _ _

omit [DecidableEq ν] in
theorem outcome_found (splice splice' : Splice ν) (level : ℕ) (before after : Option ν)
    (descending : Bool) :
    outcome (found splice level descending) =
      outcome (.finding splice' level before after descending) := by
  cases descending with
  | false => cases level <;> rfl
  | true =>
    cases level with
    | zero => rfl
    | succ level => simp [found]

/-- The phase after a turn shows the effect of the turn. -/
theorem outcome_insertTurn (h : ℕ) (x : ν) (seen : ℕ) (weak : Bool) (sh : Shared ν)
    (phase : InsertPhase ν) :
    outcome (insertTurn cmp key h x seen weak sh phase).2 =
      outcome phase ++ (takesEffect cmp key x sh phase).toList := by
  cases phase with
  | called => exact outcome_afterLoad h _
  | raising m =>
    rw [insertTurn]
    split
    · exact outcome_descending _ _ _ _
    · exact outcome_afterLoad h _
  | finding splice level before after descending =>
    simp only [insertTurn, takesEffect, Option.toList_none, List.append_nil]
    split
    · apply outcome_found
    · cases descending with
      | false => cases level <;> rfl
      | true => simp
  | linking splice level =>
    cases level with
    | zero =>
      simp only [insertTurn, takesEffect, true_and]
      split <;> rfl
    | succ level => simp [insertTurn, takesEffect, outcome]
  | publishing splice level =>
    rw [insertTurn]
    cases level with
    | zero =>
      rw [takesEffect]
      split
      · split <;> rfl
      · rfl
    | succ level =>
      split
      · split <;> rfl
      · rfl
  | returned ok => simp [insertTurn, takesEffect]

/-- A turn of an insertion. -/
theorem step_insert [Std.TransCmp cmp] (h : Consistent cmp key height L ra) (x : ν) (seen : ℕ)
    (weak : Bool) (hx : 1 ≤ height x) (hmax : height x ≤ kMaxHeight) :
    ∃ L', Consistent cmp key height L' (turn cmp key height ra (.insert x seen weak)) ∧
      Linearized cmp key L ra (event cmp key ra (.insert x seen weak)).toList L'
        (turn cmp key height ra (.insert x seen weak)) := by
  obtain ⟨L', htowers, hsub, hheight, heffect⟩ := h.towers.advances_insertTurn hx hmax seen weak
  refine ⟨L', ⟨htowers, fun r => (h.reading r).mono hsub hheight⟩, ?_, ?_, ?_⟩
  · simp only [event]
    cases he : takesEffect cmp key x ra.shared (ra.inserts x) with
    | none =>
      rw [he] at heffect
      have heq : L' 0 = L 0 := heffect
      simp [contents, turn, heq]
    | some ok =>
      rw [he] at heffect
      cases ok with
      | true =>
        have hins : insertNew (byKey cmp key) x (L 0) = some (L' 0) := heffect
        simp [contents, turn, Event.apply, hins]
      | false =>
        obtain ⟨hnone, heq⟩ := heffect
        simp [contents, turn, Event.apply, hnone, heq]
  · intro y
    simp only [event, turn]
    rcases eq_or_ne y x with rfl | hy
    · rw [Function.update_self, outcome_insertTurn]
      cases takesEffect cmp key y ra.shared (ra.inserts y) <;> simp [insertOf]
    · rw [Function.update_of_ne hy]
      cases takesEffect cmp key x ra.shared (ra.inserts x) <;> simp [insertOf, hy.symm]
  · intro r
    simp only [event, turn]
    cases takesEffect cmp key x ra.shared (ra.inserts x) <;> simp [opOf]

/-- A turn of an iterator. -/
theorem step_iterate [Std.TransCmp cmp] (h : Consistent cmp key height L ra) (r : ρ) (seen : ℕ) :
    Consistent cmp key height L (turn cmp key height ra (.iterate r seen)) ∧
      Linearized cmp key L ra (event cmp key ra (.iterate r seen)).toList L
        (turn cmp key height ra (.iterate r seen)) := by
  obtain ⟨hreading, hreads⟩ := reading_turn h.towers (h.reading r) seen
  refine ⟨⟨h.towers, ?_⟩, ?_⟩
  · intro r'
    rcases eq_or_ne r' r with rfl | hr
    · simpa [turn] using hreading
    · simpa [turn, hr] using h.reading r'
  have hothers : ∀ r', r' ≠ r →
      (turn cmp key height ra (.iterate r seen)).iterators r' = ra.iterators r' := by
    intro r' hr
    simp [turn, hr]
  have hself : (turn cmp key height ra (.iterate r seen)).iterators r =
      (ra.iterators r).turn cmp key seen ra.shared := by simp [turn]
  rw [Reads] at hreads
  rw [event]
  cases hc : completes (ra.iterators r) ((ra.iterators r).turn cmp key seen ra.shared) with
  | none =>
    rw [hc] at hreads
    refine ⟨?_, fun x => by simp [turn], ?_⟩
    · simp only [Option.map_none, Option.toList_none, List.foldlM_nil, contents, Option.pure_def,
        Option.some.injEq, Prod.mk.injEq, true_and]
      funext r'
      rcases eq_or_ne r' r with rfl | hr
      · rw [hself, hreads.2]
      · rw [hothers r' hr]
    · intro r'
      rcases eq_or_ne r' r with rfl | hr
      · simp [hself, hreads.1]
      · simp [hothers r' hr]
  | some op =>
    rw [hc] at hreads
    refine ⟨?_, fun x => by simp [turn, insertOf], ?_⟩
    · simp only [Option.map_some, Option.toList_some, List.foldlM_cons, List.foldlM_nil,
        Event.apply, contents, hreads.2, if_true, Option.bind_eq_bind, Option.bind_some,
        Option.pure_def, Option.some.injEq, Prod.mk.injEq, true_and]
      funext r'
      rcases eq_or_ne r' r with rfl | hr
      · rw [Function.update_self, hself, hreads.2]
      · rw [Function.update_of_ne hr, hothers r' hr]
    · intro r'
      rcases eq_or_ne r' r with rfl | hr
      · simp [hself, hreads.1, opOf]
      · simp [hothers r' hr, opOf, hr.symm]

/-- The run lemma. -/
theorem run_linearized [Std.TransCmp cmp] (hheight : ∀ x, 1 ≤ height x ∧ height x ≤ kMaxHeight)
    (h : Consistent cmp key height L ra) (turns : List (Turn ν ρ)) :
    ∃ L', Consistent cmp key height L' (run (turn cmp key height) ra turns) ∧
      Linearized cmp key L ra (events cmp key height ra turns) L'
        (run (turn cmp key height) ra turns) := by
  induction turns generalizing L ra with
  | nil => exact ⟨L, h, .refl L ra⟩
  | cons t ts ih =>
    cases t with
    | insert x seen weak =>
      obtain ⟨L₁, hc₁, hl₁⟩ := step_insert h x seen weak (hheight x).1 (hheight x).2
      obtain ⟨L₂, hc₂, hl₂⟩ := ih hc₁
      exact ⟨L₂, hc₂, hl₁.trans hl₂⟩
    | iterate r seen =>
      obtain ⟨hc₁, hl₁⟩ := step_iterate h r seen
      obtain ⟨L₂, hc₂, hl₂⟩ := ih hc₁
      exact ⟨L₂, hc₂, hl₁.trans hl₂⟩

omit [DecidableEq ν] [DecidableEq ρ] in
theorem consistent_start (garbage : ν → ℕ → Option ν) (ops : ρ → List (IterOp α)) :
    Consistent cmp key height (fun _ => []) (start garbage ops) where
  towers := towers_start garbage ops
  reading _ := {
    node := fun _ hn => by cases hn
    placed := trivial }

theorem events_append (ra : Race ν ρ α) (ts ts' : List (Turn ν ρ)) :
    events cmp key height ra (ts ++ ts') =
      events cmp key height ra ts ++
        events cmp key height (run (turn cmp key height) ra ts) ts' := by
  induction ts generalizing ra with
  | nil => rfl
  | cons t ts ih => simp [events, run, ih]

/-- Every operation takes effect at once in one of its turns: in the order of these turns the
insertions and the operations of the iterators give on a sorted list what they gave here, and the
links of level 0 lead along that list. What has taken effect stays so as the run goes on. -/
theorem linearizable [Std.TransCmp cmp] (draws : ν → ℕ → ℕ) (garbage : ν → ℕ → Option ν)
    (ops : ρ → List (IterOp α)) (turns : List (Turn ν ρ)) :
    let height := fun x => randomHeight (draws x)
    let ra := run (turn cmp key height) (start garbage ops) turns
    let es := events cmp key height (start garbage ops) turns
    ∃ l, Linked (fun p => ra.shared.next p 0) none l ∧
      es.foldlM (Event.apply cmp key) ([], fun _ => none) =
        some (l, fun r => (ra.iterators r).node) ∧
      (∀ x, es.filterMap (insertOf x) = outcome (ra.inserts x)) ∧
      (∀ r, es.filterMap (opOf r) ++ (ra.iterators r).ops = ops r) ∧
      ∀ done, done <+: turns → events cmp key height (start garbage ops) done <+: es := by
  intro height ra es
  have hheight : ∀ x, 1 ≤ height x ∧ height x ≤ kMaxHeight :=
    fun x => ⟨one_le_randomHeight _, randomHeight_le _⟩
  have hstart : Consistent cmp key height (fun _ => []) (start garbage ops) :=
    consistent_start garbage ops
  obtain ⟨L, hc, hl⟩ := run_linearized hheight hstart turns
  refine ⟨L 0, hc.towers.linked 0, hl.replay, fun x => hl.inserted x, hl.operated, ?_⟩
  rintro done ⟨rest, rfl⟩
  exact ⟨_, (events_append _ done rest).symm⟩

/-- A tower of two levels and one of one level. -/
def twoDraws (x i : ℕ) : ℕ := if x = 7 ∧ i = 0 then 0 else 2147483647

/-- The insertions of 7 and of 4 and an iterator take turns. -/
def twoTurns : List (Turn ℕ ℕ) :=
  (List.range 14).flatMap fun _ => [.insert 7 1 false, .insert 4 1 false, .iterate 0 1]

theorem linearizable_two :
    (events compare id (fun x => randomHeight (twoDraws x))
        (start (fun _ _ => some 9) fun _ => [.seekToLast, .seekForPrev 5]) twoTurns).filterMap
      (insertOf 4) = [true] := by
  obtain ⟨-, -, -, hinserts, -⟩ := @linearizable ℕ ℕ ℕ _ _ compare id _ twoDraws
    (fun _ _ => some 9) (fun _ => [.seekToLast, .seekForPrev 5]) twoTurns
  rw [hinserts 4]
  decide +kernel

omit [DecidableEq ν] in
theorem sublist_of_ascending [Std.TransCmp cmp] {l l' : List ν} (hl : Ascending (byKey cmp key) l)
    (hl' : Ascending (byKey cmp key) l') (hsub : l ⊆ l') : l.Sublist l' := by
  have hanti : Std.Antisymm fun a b : ν => byKey cmp key a b = .lt := by
    constructor
    intro a b hab hba
    cases (Std.OrientedCmp.gt_of_lt hab).symm.trans hba
  apply List.sublist_of_subperm_of_pairwise _ hl hl'
  exact List.subperm_of_subset (nodup_of_ascending hl) hsub

/-- In every state of every run the links of each level lead along its nodes in the order of their
keys, and a level has only nodes of the one below. A node whose insertion has succeeded stands on
all levels of its tower and on no other; one that is a duplicate stands on none. -/
theorem towers_of_run [Std.TransCmp cmp] (draws : ν → ℕ → ℕ) (garbage : ν → ℕ → Option ν)
    (ops : ρ → List (IterOp α)) (turns : List (Turn ν ρ)) :
    let height := fun x => randomHeight (draws x)
    let ra := run (turn cmp key height) (start garbage ops) turns
    ∃ L : ℕ → List ν,
      (∀ i, Linked (fun p => ra.shared.next p i) none (L i) ∧ Ascending (byKey cmp key) (L i) ∧
        (L (i + 1)).Sublist (L i)) ∧
      (∀ i, ra.shared.maxHeight ≤ i → L i = []) ∧
      (∀ x, ra.inserts x = .returned true → ∀ i, x ∈ L i ↔ i < height x) ∧
      ∀ x, ra.inserts x = .returned false →
        (∀ i, x ∉ L i) ∧ ∃ y ∈ L 0, cmp (key y) (key x) = .eq := by
  intro height ra
  have hheight : ∀ x, 1 ≤ height x ∧ height x ≤ kMaxHeight :=
    fun x => ⟨one_le_randomHeight _, randomHeight_le _⟩
  have hstart : Consistent cmp key height (fun _ => []) (start garbage ops) :=
    consistent_start garbage ops
  obtain ⟨L, ⟨h, -⟩, -⟩ := run_linearized hheight hstart turns
  refine ⟨L, ?_, ?_, ?_, ?_⟩
  · intro i
    refine ⟨h.linked i, h.ascending i, ?_⟩
    exact sublist_of_ascending (h.ascending _) (h.ascending _) (h.subset (Nat.le_succ i))
  · intro i hi
    apply List.eq_nil_iff_forall_not_mem.mpr
    intro x hx
    exact absurd hi (not_le.mpr (h.lt_maxHeight hx))
  · intro x hx i
    rw [h.mem i x, hx]
    rfl
  · intro x hx
    have hs := h.sound x
    rw [hx] at hs
    refine ⟨?_, hs⟩
    intro i hi
    have hlt := (h.mem i x).mp hi
    rw [hx] at hlt
    exact absurd hlt (Nat.not_lt_zero i)

theorem towers_of_run_two :
    ∃ L : ℕ → List ℕ, 4 ∈ L 0 ∧ 4 ∉ L 1 ∧ 7 ∈ L 1 := by
  obtain ⟨L, -, -, hin, -⟩ := @towers_of_run ℕ ℕ ℕ _ _ compare id _ twoDraws
    (fun _ _ => some 9) (fun _ => [.seekToLast, .seekForPrev 5]) twoTurns
  have h4 := hin 4 rfl
  have h7 := hin 7 rfl
  refine ⟨L, (h4 0).mpr (by decide +kernel), ?_, (h7 1).mpr (by decide +kernel)⟩
  intro hmem
  exact absurd ((h4 1).mp hmem) (by decide +kernel)

/-- The links a turn loads, those it fetches ahead among them. -/
def loads (ra : Race ν ρ α) : Turn ν ρ → List (Option ν × ℕ)
  | .insert x _ _ =>
    match ra.inserts x with
    | .finding _ level before _ descending =>
      let ahead := (ra.shared.next before level).toList.flatMap fun n =>
        (some n, level) :: if descending && level != 0 then [(some n, level - 1)] else []
      (before, level) :: ahead
    | .publishing splice level => [(splice.prev level, level)]
    | _ => []
  | .iterate r _ =>
    match (ra.iterators r).phase, (ra.iterators r).ops with
    | .walking _ x level _, _ :: _ =>
      (x, level) :: (ra.shared.next x level).toList.map fun n => (some n, level)
    | .idle, .seekToFirst :: _ => [(none, 0)]
    | .idle, .next :: _ => (ra.iterators r).node.toList.map fun n => (some n, 0)
    | _, _ => []

/-- A link of the head or of a node that stands on the level. -/
def Stored (L : ℕ → List ν) (sh : Shared ν) (cell : Option ν × ℕ) : Prop :=
  cell.2 < sh.maxHeight ∧ (cell.1 = none ∨ ∃ n ∈ L cell.2, cell.1 = some n)

omit [DecidableEq ν] [DecidableEq ρ] in
theorem stored_insert (h : Consistent cmp key height L ra) {x : ν} {seen : ℕ} {weak : Bool}
    {cell : Option ν × ℕ} (hcell : cell ∈ loads ra (.insert x seen weak)) :
    Stored L ra.shared cell := by
  have hs := h.towers.sound x
  rw [loads] at hcell
  cases hphase : ra.inserts x with
  | finding splice level before after descending =>
    rw [hphase] at hs hcell
    obtain ⟨-, ⟨hfront, -⟩, hlevel, -⟩ := hs
    rcases List.mem_cons.mp hcell with rfl | hcell
    · exact ⟨hlevel, hfront.onPath⟩
    · obtain ⟨n, hn, hcell⟩ := List.mem_flatMap.mp hcell
      have hmem := h.towers.next_mem hfront.onPath n (Option.mem_toList.mp hn)
      rcases List.mem_cons.mp hcell with rfl | hcell
      · exact ⟨hlevel, .inr ⟨n, hmem, rfl⟩⟩
      · split at hcell
        · obtain rfl := List.mem_singleton.mp hcell
          refine ⟨(Nat.sub_le level 1).trans_lt hlevel, .inr ⟨n, ?_, rfl⟩⟩
          exact h.towers.subset (Nat.sub_le level 1) hmem
        · cases hcell
  | publishing splice level =>
    rw [hphase] at hs hcell
    obtain ⟨⟨hb, hh⟩, hlevel, -⟩ := hs
    obtain rfl := List.mem_singleton.mp hcell
    exact ⟨hlevel.trans_le hh, (hb.prev level).onPath⟩
  | called => simp [hphase] at hcell
  | raising m => simp [hphase] at hcell
  | linking splice level => simp [hphase] at hcell
  | returned ok => simp [hphase] at hcell

omit [DecidableEq ν] in
theorem onPath_of_onWay {x bigger : Option ν} {level : ℕ} {search : Search α}
    (h : OnWay cmp key L x level bigger search) : x = none ∨ ∃ n ∈ L level, x = some n := by
  cases search with
  | greaterOrEqual k => exact h.1.onPath
  | lessThan k => exact h.1.onPath
  | last => exact h

omit [DecidableEq ρ] [DecidableEq ν] in
theorem stored_iterate (h : Consistent cmp key height L ra) {r : ρ} {seen : ℕ}
    {cell : Option ν × ℕ} (hcell : cell ∈ loads ra (.iterate r seen)) :
    Stored L ra.shared cell := by
  have hr := h.reading r
  have hp := hr.placed
  simp only [loads] at hcell
  split at hcell
  next search x level bigger op rest hphase hops =>
    rw [hphase] at hp
    obtain ⟨-, hlevel, hway⟩ := hp
    rcases List.mem_cons.mp hcell with rfl | hcell
    · exact ⟨hlevel, onPath_of_onWay hway⟩
    · obtain ⟨n, hn, rfl⟩ := List.mem_map.mp hcell
      have hmem := h.towers.next_mem (onPath_of_onWay hway) n (Option.mem_toList.mp hn)
      exact ⟨hlevel, .inr ⟨n, hmem, rfl⟩⟩
  next =>
    obtain rfl := List.mem_singleton.mp hcell
    exact ⟨h.towers.one_le, .inl rfl⟩
  next =>
    obtain ⟨n, hn, rfl⟩ := List.mem_map.mp hcell
    exact ⟨h.towers.one_le, .inr ⟨n, hr.node n (Option.mem_toList.mp hn), rfl⟩⟩
  next => cases hcell

/-- No thread ever loads a link outside the tower of its node, or one that has not been stored. -/
theorem loads_stored [Std.TransCmp cmp] (draws : ν → ℕ → ℕ) (garbage : ν → ℕ → Option ν)
    (ops : ρ → List (IterOp α)) (turns : List (Turn ν ρ)) (t : Turn ν ρ) :
    let height := fun x => randomHeight (draws x)
    let ra := run (turn cmp key height) (start garbage ops) turns
    ∀ cell ∈ loads ra t, cell.2 < kMaxHeight ∧ ∀ n, cell.1 = some n →
      cell.2 < height n ∧ cell.2 < linkedTo (height n) (ra.inserts n) := by
  intro height ra cell hcell
  have hheight : ∀ x, 1 ≤ height x ∧ height x ≤ kMaxHeight :=
    fun x => ⟨one_le_randomHeight _, randomHeight_le _⟩
  have hstart : Consistent cmp key height (fun _ => []) (start garbage ops) :=
    consistent_start garbage ops
  obtain ⟨L, h, -⟩ := run_linearized hheight hstart turns
  have hstored : Stored L ra.shared cell := by
    cases t with
    | insert x seen weak => exact stored_insert h hcell
    | iterate r seen => exact stored_iterate h hcell
  obtain ⟨hlevel, hpath⟩ := hstored
  refine ⟨hlevel.trans_le h.towers.le_max, ?_⟩
  intro n hn
  rcases hpath with hnone | ⟨m, hm, hsome⟩
  · cases hn.symm.trans hnone
  · cases hn.symm.trans hsome
    exact ⟨(h.towers.lt_height hm).1, (h.towers.mem _ n).mp hm⟩

theorem loads_stored_two :
    (1 : ℕ) < linkedTo (randomHeight (twoDraws 7))
      ((run (turn compare id fun x => randomHeight (twoDraws x))
        (start (fun _ _ => some 9) fun _ => [.seekToLast, .seekForPrev 5])
        (twoTurns ++ [.iterate 1 2, .iterate 1 2])).inserts 7) := by
  obtain ⟨-, hstored⟩ := @loads_stored ℕ ℕ ℕ _ _ compare id _ twoDraws (fun _ _ => some 9)
    (fun _ => [.seekToLast, .seekForPrev 5]) (twoTurns ++ [.iterate 1 2, .iterate 1 2])
    (.iterate 1 2) (some 7, 1) (by decide +kernel)
  exact (hstored 7 rfl).2

end ZeroFlush.SkipListRuns
