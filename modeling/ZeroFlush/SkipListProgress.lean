import Mathlib.Algebra.BigOperators.Group.Finset.Basic
import Mathlib.Algebra.Order.BigOperators.Group.Finset
import Mathlib.Tactic.Ring
import ZeroFlush.SkipListRuns

/-! # Progress on a skip list

Insertions do not wait for each other: a swap fails only when another call has linked its node.
Iterators do not wait for anything. The number of turns is bounded whatever their order. -/
namespace ZeroFlush.SkipListProgress
open LinkPaths OrderedInsertion GuardedRuns SkipLists SkipListTowers SkipListHistories SkipListRuns

variable {ν ρ α : Type*} (cmp : α → α → Ordering) (key : ν → α) (X : Finset ν)

/-- The nodes behind a position and in front of a key. -/
def between (k : α) (p : Option ν) : ℕ :=
  (X.filter fun y => cmp (key y) k = .lt ∧ ∀ n ∈ p, cmp (key n) (key y) = .lt).card

/-- More than the turns of one walk along a level. -/
def walk : ℕ := X.card + 20

section Work
variable [DecidableEq ν]

/-- The turns a call can take before it links its node at one more level, or less, unless another
call links its node first. -/
def work (sh : Shared ν) (x : ν) : InsertPhase ν → ℕ
  | .called => (kMaxHeight + 2) * walk X
  | .raising maxHeight => (kMaxHeight + 1) * walk X + (kMaxHeight + 1 - maxHeight)
  | .finding _ level before _ true => (level + 1) * walk X + between cmp key X (key x) before
  | .finding _ _ before _ false => between cmp key X (key x) before + 3
  | .linking splice level =>
    if sh.next (splice.prev level) level = splice.next level then 2 else X.card + 6
  | .publishing splice level =>
    if sh.next (splice.prev level) level = splice.next level then 1 else X.card + 5
  | .returned _ => 0

end Work

variable {cmp key X} {height : ν → ℕ} {L L' : ℕ → List ν} {sh sh' : Shared ν}
  {inserts : ν → InsertPhase ν} {k : α} {p : Option ν} {splice : Splice ν} {x n : ν} {level : ℕ}

theorem between_le (k : α) (p : Option ν) : between cmp key X k p ≤ X.card :=
  Finset.card_le_card (Finset.filter_subset _ _)

/-- A walk leaves the node behind that it comes to. -/
theorem between_lt [Std.TransCmp cmp] (hn : n ∈ X) (hk : cmp (key n) k = .lt)
    (hp : ∀ m ∈ p, cmp (key m) (key n) = .lt) :
    between cmp key X k (some n) < between cmp key X k p := by
  apply Finset.card_lt_card
  apply Finset.ssubset_iff_subset_ne.mpr
  constructor
  · intro y hy
    obtain ⟨hyX, hyk, hny⟩ := Finset.mem_filter.mp hy
    refine Finset.mem_filter.mpr ⟨hyX, hyk, ?_⟩
    intro m hm
    exact Std.TransCmp.lt_trans (hp m hm) (hny n rfl)
  · intro he
    have hmem : n ∈ X.filter fun y => cmp (key y) k = .lt ∧ ∀ m ∈ p, cmp (key m) (key y) = .lt :=
      Finset.mem_filter.mpr ⟨hn, hk, hp⟩
    rw [← he] at hmem
    have hself := (Finset.mem_filter.mp hmem).2.2 n rfl
    have heq : cmp (key n) (key n) = .eq := Std.ReflCmp.compare_self
    cases heq.symm.trans hself

theorem work_le [DecidableEq ν] (sh : Shared ν) (x : ν) (phase : InsertPhase ν)
    (hlevel : ∀ splice level before after, phase = .finding splice level before after true →
      level < kMaxHeight) : work cmp key X sh x phase ≤ (kMaxHeight + 2) * walk X := by
  have hw : X.card + 20 = walk X := rfl
  cases phase with
  | called => exact le_refl _
  | raising m =>
    simp only [work, kMaxHeight]
    omega
  | finding splice level before after descending =>
    have hb : between cmp key X (key x) before ≤ X.card := between_le _ _
    cases descending with
    | true =>
      have hl := hlevel splice level before after rfl
      have hmul : (level + 1) * walk X ≤ kMaxHeight * walk X := Nat.mul_le_mul_right _ hl
      simp only [work, kMaxHeight] at hmul ⊢
      omega
    | false =>
      simp only [work, kMaxHeight]
      omega
  | linking splice level =>
    simp only [work, kMaxHeight]
    split <;> omega
  | publishing splice level =>
    simp only [work, kMaxHeight]
    split <;> omega
  | returned ok => exact Nat.zero_le _

/-- A turn of the insertion of `x` links its node at one more level, or it leaves less to do and
nothing new to the others. -/
def Progresses [DecidableEq ν] (cmp : α → α → Ordering) (key : ν → α) (height : ν → ℕ)
    (X : Finset ν) (sh : Shared ν) (inserts : ν → InsertPhase ν) (x : ν)
    (done : Shared ν × InsertPhase ν) : Prop :=
  linkedTo (height x) done.2 = linkedTo (height x) (inserts x) + 1 ∨
    linkedTo (height x) done.2 = linkedTo (height x) (inserts x) ∧
      work cmp key X done.1 x done.2 < work cmp key X sh x (inserts x) ∧
      ∀ y, y ≠ x → work cmp key X done.1 y (inserts y) = work cmp key X sh y (inserts y)

section Turns
variable [DecidableEq ν]

theorem progresses_local {phase : InsertPhase ν}
    (hlinked : linkedTo (height x) phase = linkedTo (height x) (inserts x))
    (hwork : work cmp key X sh x phase < work cmp key X sh x (inserts x)) :
    Progresses cmp key height X sh inserts x (sh, phase) :=
  .inr ⟨hlinked, hwork, fun _ _ => rfl⟩

theorem work_recompute_lt {m : ℕ} (hm : m ≤ kMaxHeight) (hone : 1 ≤ m) :
    work cmp key X sh x (recompute m) < (kMaxHeight + 1) * walk X := by
  have hb : between cmp key X (key x) none ≤ X.card := between_le _ _
  have hw : X.card + 20 = walk X := rfl
  have hmul : (m - 1 + 1) * walk X ≤ kMaxHeight * walk X := by
    apply Nat.mul_le_mul_right
    omega
  simp only [recompute, work, kMaxHeight] at hmul ⊢
  omega

theorem work_afterLoad_lt {h m : ℕ} (hm : m ≤ kMaxHeight) (hone : 1 ≤ m) :
    work cmp key X sh x (afterLoad h m) < (kMaxHeight + 1) * walk X + (kMaxHeight + 2 - m) := by
  rw [afterLoad]
  split
  · simp only [work, kMaxHeight] at hm ⊢
    omega
  · have hlt : work cmp key X sh x (recompute m) < (kMaxHeight + 1) * walk X :=
      work_recompute_lt hm hone
    omega

omit [DecidableEq ν] in
theorem linkedTo_afterLoad (h h' m : ℕ) : linkedTo h (afterLoad h' m : InsertPhase ν) = 0 := by
  rw [afterLoad]
  split <;> rfl

theorem progresses_afterLoad (hphase : linkedTo (height x) (inserts x) = 0)
    {m : ℕ} (hm : m ≤ kMaxHeight) (hone : 1 ≤ m)
    (hwork : (kMaxHeight + 1) * walk X + (kMaxHeight + 2 - m) ≤ work cmp key X sh x (inserts x)) :
    Progresses cmp key height X sh inserts x (sh, afterLoad (height x) m) := by
  apply progresses_local
  · rw [hphase, linkedTo_afterLoad]
  · exact (work_afterLoad_lt hm hone).trans_le hwork

/-- What is left after the splice of a level is found. -/
theorem work_found_lt {before after next : Option ν} {descending : Bool}
    (hnext : sh.next before level = next) :
    work cmp key X sh x (found (splice.set level before next) level descending) <
      work cmp key X sh x (.finding splice level before after descending) := by
  have hw : X.card + 20 = walk X := rfl
  have htight : sh.next ((splice.set level before next).prev level) level =
      (splice.set level before next).next level := by
    simp [Splice.set, hnext]
  cases descending with
  | false =>
    simp only [found, work, if_pos htight]
    omega
  | true =>
    cases level with
    | zero =>
      simp only [found, work, if_pos htight]
      omega
    | succ level =>
      have hb : between cmp key X (key x)
          ((splice.set (level + 1) before next).prev (level + 1)) ≤ X.card := between_le _ _
      simp only [found, work]
      rw [Nat.add_mul (level + 1) 1]
      omega

theorem progresses_finding [Std.TransCmp cmp] (h : Towers cmp key height L sh inserts)
    (hX : ∀ y ∈ L 0, y ∈ X) {before after : Option ν} {descending : Bool}
    (hphase : inserts x = .finding splice level before after descending) :
    Progresses cmp key height X sh inserts x
      (if sh.next before level = after ∨
          keyIsAfterNode cmp key (key x) (sh.next before level) = false then
        (sh, found (splice.set level before (sh.next before level)) level descending)
      else (sh, .finding splice level (sh.next before level) after descending)) := by
  have hs := h.sound x
  rw [hphase] at hs
  obtain ⟨-, ⟨hfront, -⟩, -⟩ := hs
  split
  next =>
    apply progresses_local
    · rw [hphase]
      apply linkedTo_found
    · rw [hphase]
      exact work_found_lt rfl
  next hgo =>
    rw [not_or, Bool.not_eq_false] at hgo
    cases hn : sh.next before level with
    | none => simp [hn, keyIsAfterNode] at hgo
    | some n =>
      have hmem := h.next_mem hfront.onPath n hn
      have hlt : cmp (key n) (key x) = .lt := by simpa [hn, keyIsAfterNode] using hgo.2
      have hfollows : ∀ m ∈ before, cmp (key m) (key n) = .lt := by
        intro m hm
        rcases hfront with hnone | ⟨m', hm', hsome, -⟩
        · cases hm.symm.trans hnone
        · cases hm.symm.trans hsome
          exact (h.linked level).next_rel (h.ascending level) hm' (hm ▸ hn)
      have hless := between_lt (hX n (h.subset (Nat.zero_le level) hmem)) hlt hfollows
      apply progresses_local
      · rw [hphase]
        cases descending <;> rfl
      · rw [hphase]
        cases descending <;> simpa [work] using hless

omit [DecidableEq ν] in
/-- The link that the next swap of a call expects. -/
theorem work_congr [DecidableEq ν] {phase : InsertPhase ν}
    (hcell : ∀ splice level, phase = .linking splice level ∨ phase = .publishing splice level →
      sh'.next (splice.prev level) level = sh.next (splice.prev level) level) :
    work cmp key X sh' x phase = work cmp key X sh x phase := by
  cases phase with
  | called => rfl
  | raising m => rfl
  | finding splice level before after descending => cases descending <;> rfl
  | linking splice level => rw [work, work, hcell splice level (.inl rfl)]
  | publishing splice level => rw [work, work, hcell splice level (.inr rfl)]
  | returned ok => rfl

omit [DecidableEq ν] in
/-- The link in front of a node of the level, or of the head. -/
theorem prev_onPath (h : Towers cmp key height L sh inserts)
    (hphase : inserts x = .linking splice level ∨ inserts x = .publishing splice level) :
    splice.prev level = none ∨ ∃ n ∈ L level, splice.prev level = some n := by
  have hs := h.sound x
  rcases hphase with hphase | hphase
  · rw [hphase] at hs
    exact (hs.1.1.prev level).onPath
  · rw [hphase] at hs
    exact (hs.1.1.prev level).onPath

theorem progresses_linking (h : Towers cmp key height L sh inserts)
    (hphase : inserts x = .linking splice level) :
    Progresses cmp key height X sh inserts x
      (if level = 0 ∧ duplicate cmp key (key x) splice then (sh, .returned false)
      else (sh.setNext (some x) level (splice.next level), .publishing splice level)) := by
  have hx : x ∉ L level := by
    intro hx
    have hlt := (h.mem level x).mp hx
    rw [hphase] at hlt
    exact lt_irrefl _ hlt
  have hkeep : ∀ (q r : Option ν) (i : ℕ), (q = none ∨ ∃ n ∈ L i, q = some n) →
      (sh.setNext (some x) level r).next q i = sh.next q i := by
    intro q r i hq
    rw [setNext_next, if_neg]
    rintro ⟨rfl, rfl⟩
    rcases hq with hq | ⟨n, hn, hq⟩
    · cases hq
    · cases hq
      exact hx hn
  split
  next hdup =>
    apply progresses_local
    · rw [hphase, hdup.1]
      rfl
    · rw [hphase, work, work]
      split <;> omega
  next =>
    refine .inr ⟨?_, ?_, ?_⟩
    · rw [hphase]
      rfl
    · rw [hphase, work, work, hkeep _ _ _ (prev_onPath h (.inl hphase))]
      split <;> omega
    · intro y _
      apply work_congr
      intro splice' level' hphase'
      exact hkeep _ _ _ (prev_onPath h hphase')

theorem progresses_publishing (h : Towers cmp key height L sh inserts)
    (hphase : inserts x = .publishing splice level) :
    Progresses cmp key height X sh inserts x
      (if sh.next (splice.prev level) level = splice.next level then
        (sh.setNext (splice.prev level) level (some x),
          if level + 1 < height x then .linking splice (level + 1) else .returned true)
      else (sh, .finding splice level (splice.prev level) none false)) := by
  have hs := h.sound x
  rw [hphase] at hs
  obtain ⟨-, hlevel, -⟩ := hs
  split
  next =>
    apply Or.inl
    rw [hphase]
    simp only
    split
    next => rfl
    next hend =>
      show height x = level + 1
      omega
  next hfail =>
    have hb : between cmp key X (key x) (splice.prev level) ≤ X.card := between_le _ _
    apply progresses_local
    · rw [hphase]
      rfl
    · rw [hphase]
      simp only [work, if_neg hfail]
      omega

/-- The step lemma of an insertion whose weak swap does not fail without a reason. -/
theorem progresses_insertTurn [Std.TransCmp cmp] (h : Towers cmp key height L sh inserts)
    (hX : ∀ y ∈ L 0, y ∈ X) (hone : 1 ≤ height x) (hmax : height x ≤ kMaxHeight) (seen : ℕ)
    (hunfinished : ∀ ok, inserts x ≠ .returned ok) :
    Progresses cmp key height X sh inserts x
      (insertTurn cmp key (height x) x seen false sh (inserts x)) := by
  have hle := h.le_max
  cases hphase : inserts x with
  | called =>
    have hload := (getMaxHeight_le sh 1 seen).trans hle
    have hload' := one_le_getMaxHeight h.one_le (le_refl 1) seen
    apply progresses_afterLoad
    · rw [hphase]
      rfl
    · exact hload
    · exact hload'
    · rw [hphase, work]
      have hw : X.card + 20 = walk X := rfl
      rw [Nat.add_mul, Nat.add_mul]
      simp only [kMaxHeight]
      omega
  | raising m =>
    have hs := h.sound x
    rw [hphase] at hs
    rw [insertTurn]
    split
    next =>
      refine .inr ⟨?_, ?_, fun y _ => work_congr fun _ _ _ => rfl⟩
      · rw [hphase]
        rfl
      · rw [hphase]
        have hlt : work cmp key X { sh with maxHeight := height x } x (recompute (height x)) <
            (kMaxHeight + 1) * walk X := work_recompute_lt hmax hone
        simp only [work] at hlt ⊢
        omega
    next hfail =>
      have hlt : m + 1 ≤ sh.maxHeight := by
        rcases Nat.lt_or_eq_of_le hs.2 with hlt | he
        · exact hlt
        · exact absurd ⟨he.symm, rfl⟩ hfail
      have hgreater := le_getMaxHeight hlt seen
      have hload := (getMaxHeight_le sh (m + 1) seen).trans hle
      apply progresses_afterLoad
      · rw [hphase]
        rfl
      · exact hload
      · omega
      · rw [hphase, work]
        omega
  | finding splice level before after descending => exact progresses_finding h hX hphase
  | linking splice level => exact progresses_linking h hphase
  | publishing splice level => exact progresses_publishing h hphase
  | returned ok => exact absurd hphase (hunfinished ok)

end Turns

section Iterators

/-- The nodes in front of a key. -/
def front (cmp : α → α → Ordering) (key : ν → α) (X : Finset ν) (k : α) : ℕ :=
  (X.filter fun y => cmp (key y) k = .lt).card

/-- The nodes behind a position. -/
def rest (cmp : α → α → Ordering) (key : ν → α) (X : Finset ν) (p : Option ν) : ℕ :=
  (X.filter fun y => ∀ n ∈ p, cmp (key n) (key y) = .lt).card

/-- The walks that may follow one another until an operation is over. -/
def walksLeft (cmp : α → α → Ordering) (key : ν → α) (X : Finset ν) : Search α → ℕ
  | .greaterOrEqual _ => X.card + 2
  | .last => X.card + 1
  | .lessThan k => front cmp key X k

/-- More than the turns of a walk down all levels. -/
def descent (X : Finset ν) : ℕ := (kMaxHeight + 1) * (X.card + 2)

/-- More than the turns of an operation. -/
def operation (X : Finset ν) : ℕ := (X.card + 4) * descent X

/-- The turns an iterator can take before all its operations are over, or less. -/
def pending (cmp : α → α → Ordering) (key : ν → α) (X : Finset ν) (it : Iterator ν α) : ℕ :=
  match it.phase with
  | .idle => it.ops.length * operation X
  | .waiting search =>
    it.ops.tail.length * operation X + walksLeft cmp key X search * descent X + descent X
  | .walking search x level _ =>
    it.ops.tail.length * operation X + walksLeft cmp key X search * descent X +
      (level * (X.card + 2) + rest cmp key X x + 1)

variable {it : Iterator ν α} {search : Search α} {bigger : Option ν}

theorem front_le (k : α) : front cmp key X k ≤ X.card :=
  Finset.card_le_card (Finset.filter_subset _ _)

theorem rest_le (p : Option ν) : rest cmp key X p ≤ X.card :=
  Finset.card_le_card (Finset.filter_subset _ _)

theorem front_lt [Std.TransCmp cmp] (hn : n ∈ X) (hk : cmp (key n) k = .lt) :
    front cmp key X (key n) < front cmp key X k := by
  apply Finset.card_lt_card
  apply Finset.ssubset_iff_subset_ne.mpr
  constructor
  · intro y hy
    obtain ⟨hyX, hyn⟩ := Finset.mem_filter.mp hy
    exact Finset.mem_filter.mpr ⟨hyX, Std.TransCmp.lt_trans hyn hk⟩
  · intro he
    have hmem : n ∈ X.filter fun y => cmp (key y) k = .lt := Finset.mem_filter.mpr ⟨hn, hk⟩
    rw [← he] at hmem
    have heq : cmp (key n) (key n) = .eq := Std.ReflCmp.compare_self
    cases heq.symm.trans (Finset.mem_filter.mp hmem).2

theorem rest_lt [Std.TransCmp cmp] (hn : n ∈ X) (hp : ∀ m ∈ p, cmp (key m) (key n) = .lt) :
    rest cmp key X (some n) < rest cmp key X p := by
  apply Finset.card_lt_card
  apply Finset.ssubset_iff_subset_ne.mpr
  constructor
  · intro y hy
    obtain ⟨hyX, hny⟩ := Finset.mem_filter.mp hy
    refine Finset.mem_filter.mpr ⟨hyX, ?_⟩
    intro m hm
    exact Std.TransCmp.lt_trans (hp m hm) (hny n rfl)
  · intro he
    have hmem : n ∈ X.filter fun y => ∀ m ∈ p, cmp (key m) (key y) = .lt :=
      Finset.mem_filter.mpr ⟨hn, hp⟩
    rw [← he] at hmem
    have heq : cmp (key n) (key n) = .eq := Std.ReflCmp.compare_self
    cases heq.symm.trans ((Finset.mem_filter.mp hmem).2 n rfl)

theorem walksLeft_le (search : Search α) : walksLeft cmp key X search ≤ X.card + 2 := by
  cases search with
  | greaterOrEqual k => exact le_refl _
  | last => exact Nat.le_succ _
  | lessThan k => exact (front_le k).trans (Nat.le_add_right _ _)

variable [DecidableEq ν]

/-- A walk goes to a later node, or one level down, or it is over. -/
theorem step_cases (cmp : α → α → Ordering) (key : ν → α) (sh : Shared ν) (x bigger : Option ν) (level : ℕ) (search : Search α) :
    (∃ n bigger', sh.next x level = some n ∧
      search.step cmp key sh x level bigger = .standing (some n) level bigger') ∨
    (∃ bigger', 0 < level ∧
      search.step cmp key sh x level bigger = .standing x (level - 1) bigger') ∨
    ∃ node, search.step cmp key sh x level bigger = .arrived node := by
  rcases Nat.eq_zero_or_pos level with rfl | hlevel
  · cases search with
    | greaterOrEqual k =>
      simp only [Search.step, findGreaterOrEqual]
      cases hn : sh.next x 0 with
      | none => simp
      | some n => split <;> simp
    | lessThan k =>
      simp only [Search.step, findLessThan]
      cases hn : sh.next x 0 with
      | none => simp [keyIsAfterNode]
      | some n => split <;> simp
    | last =>
      simp only [Search.step, findLast]
      cases hn : sh.next x 0 with
      | none => simp
      | some n => simp
  · have hne := Nat.ne_of_gt hlevel
    cases search with
    | greaterOrEqual k =>
      simp only [Search.step, findGreaterOrEqual]
      cases hn : sh.next x level with
      | none => simp [hne, hlevel]
      | some n => split <;> simp [hne, hlevel]
    | lessThan k =>
      simp only [Search.step, findLessThan]
      cases hn : sh.next x level with
      | none => simp [keyIsAfterNode, hne, hlevel]
      | some n => split <;> simp [hlevel]
    | last =>
      simp only [Search.step, findLast]
      cases hn : sh.next x level with
      | none => simp [hne, hlevel]
      | some n => simp

variable [Std.TransCmp cmp]

omit [DecidableEq ν] in
/-- After a walk fewer walks may follow. -/
theorem walksLeft_again {search' : Search α} {op : IterOp α} {l : List ν} {node : Option ν}
    (hl : ∀ y ∈ l, y ∈ X) (hsearch : Searches cmp key node op search)
    (hagain : op.again cmp key search (result cmp key l search) = some search') :
    walksLeft cmp key X search' < walksLeft cmp key X search := by
  cases op with
  | seekForPrev target =>
    cases hn : result cmp key l search with
    | none =>
      rw [hn] at hagain
      cases search with
      | greaterOrEqual k =>
        cases hagain
        exact Nat.lt_succ_self _
      | lessThan k => cases hagain
      | last => cases hagain
    | some n =>
      rw [hn] at hagain
      simp only [IterOp.again] at hagain
      split at hagain
      next =>
        cases hagain
        have hle : front cmp key X (key n) ≤ X.card := front_le _
        cases search with
        | greaterOrEqual k => exact lt_of_le_of_lt hle (Nat.lt_add_of_pos_right Nat.two_pos)
        | last => exact Nat.lt_succ_of_le hle
        | lessThan k =>
          apply front_lt (hl n (mem_of_result hn))
          have htake := List.mem_takeWhile_imp (List.mem_of_getLast? hn)
          simpa using htake
      next => cases hagain
  | seekToFirst => cases hagain
  | seekToLast => cases hagain
  | seek target => cases hagain
  | next => cases hagain
  | prev => cases hagain

omit [DecidableEq ν] [Std.TransCmp cmp] in
theorem pending_finish {op : IterOp α} {ops : List (IterOp α)} (hops : it.ops = op :: ops)
    (node : Option ν) : pending cmp key X (it.finish node) = ops.length * operation X := by
  simp [pending, Iterator.finish, hops]

omit [DecidableEq ν] [Std.TransCmp cmp] in
theorem descent_pos (X : Finset ν) : 0 < descent X :=
  Nat.mul_pos (Nat.succ_pos _) (Nat.succ_pos _)

omit [DecidableEq ν] [Std.TransCmp cmp] in
/-- An operation that has begun its first walk. -/
theorem pending_waiting_lt (node : Option ν) {op : IterOp α} {ops : List (IterOp α)}
    (search : Search α) :
    pending cmp key X { ops := op :: ops, node := node, phase := .waiting search } <
      (ops.length + 1) * operation X := by
  have hpos := descent_pos X
  have hle : walksLeft cmp key X search * descent X ≤ (X.card + 2) * descent X :=
    Nat.mul_le_mul_right _ (walksLeft_le search)
  have hop : operation X = (X.card + 2) * descent X + descent X + descent X := by
    rw [operation]
    ring
  simp only [pending, List.tail_cons, Nat.add_mul ops.length 1]
  omega

omit [Std.TransCmp cmp] [DecidableEq ν] in
theorem pending_enter_lt (sh : Shared ν) {op : IterOp α} {ops : List (IterOp α)}
    (hops : it.ops = op :: ops) :
    pending cmp key X (it.enter key sh op) < (ops.length + 1) * operation X := by
  have hfinish : ∀ node, pending cmp key X (it.finish node) < (ops.length + 1) * operation X := by
    intro node
    rw [pending_finish hops]
    have hpos : 0 < operation X := Nat.mul_pos (Nat.succ_pos _) (descent_pos X)
    exact Nat.mul_lt_mul_of_pos_right (Nat.lt_succ_self _) hpos
  cases it with
  | mk ops' node phase =>
    cases hops
    cases op with
    | seekToFirst => exact hfinish _
    | seekToLast => exact pending_waiting_lt node _
    | seek target => exact pending_waiting_lt node _
    | seekForPrev target => exact pending_waiting_lt node _
    | next =>
      cases node with
      | none => exact hfinish _
      | some n => exact hfinish _
    | prev =>
      cases node with
      | none => exact hfinish _
      | some n => exact pending_waiting_lt (some n) _

theorem pending_walking_lt (h : Towers cmp key height L sh inserts) (hX : ∀ y ∈ L 0, y ∈ X)
    (hr : Reading cmp key L sh it) (seen : ℕ) {op : IterOp α} {ops : List (IterOp α)}
    (hops : it.ops = op :: ops) (hphase : it.phase = .walking search p level bigger) :
    pending cmp key X (it.turn cmp key seen sh) < pending cmp key X it := by
  have hp := hr.placed
  rw [hphase] at hp
  obtain ⟨⟨op', hop', hsearch⟩, -, hway⟩ := hp
  obtain rfl : op = op' := by simpa [hops] using hop'
  have hpath := onPath_of_onWay hway
  rcases step_cases cmp key sh p bigger level search with
    ⟨n, bigger', hn, hstep⟩ | ⟨bigger', hlevel, hstep⟩ | ⟨node, hstep⟩
  · have hlt : rest cmp key X (some n) < rest cmp key X p := by
      apply rest_lt
      · exact hX n (h.subset (Nat.zero_le level) (h.next_mem hpath n hn))
      · intro m hm
        rcases hpath with hnone | ⟨m', hm', hsome⟩
        · cases hm.symm.trans hnone
        · cases hm.symm.trans hsome
          exact (h.linked level).next_rel (h.ascending level) hm' (hm ▸ hn)
    rw [turn_standing hops hphase hstep]
    simp only [pending, hphase]
    omega
  · rw [turn_standing hops hphase hstep]
    have hrow : (level - 1 + 1) * (X.card + 2) = level * (X.card + 2) := by
      rw [Nat.sub_add_cancel hlevel]
    rw [Nat.add_mul] at hrow
    simp only [pending, hphase]
    omega
  · have harrives := arrives h hway
    rw [hstep] at harrives
    obtain rfl : node = result cmp key (L 0) search := harrives
    cases hagain : op.again cmp key search (result cmp key (L 0) search) with
    | some search' =>
      rw [turn_again hops hphase hstep hagain]
      have hless := Nat.mul_le_mul_right (descent X) (walksLeft_again hX hsearch hagain)
      rw [Nat.succ_mul] at hless
      simp only [pending, hphase]
      omega
    | none =>
      rw [turn_done hops hphase hstep hagain, pending_finish hops]
      simp only [pending, hphase, hops, List.tail_cons]
      omega

/-- The step lemma of an iterator. -/
theorem pending_turn_lt (h : Towers cmp key height L sh inserts) (hX : ∀ y ∈ L 0, y ∈ X)
    (hr : Reading cmp key L sh it) (seen : ℕ) (hunfinished : it.ops ≠ []) :
    pending cmp key X (it.turn cmp key seen sh) < pending cmp key X it := by
  cases hops : it.ops with
  | nil => exact absurd hops hunfinished
  | cons op ops =>
    cases hphase : it.phase with
    | idle =>
      have hlt : pending cmp key X (it.enter key sh op) < (ops.length + 1) * operation X :=
        pending_enter_lt sh hops
      rw [turn_idle hops hphase]
      simpa only [pending, hphase, hops, List.length_cons] using hlt
    | waiting search =>
      rw [turn_waiting hops hphase]
      have hload := (getMaxHeight_le sh 1 seen).trans h.le_max
      have hrow : (sh.getMaxHeight 1 seen - 1) * (X.card + 2) ≤ kMaxHeight * (X.card + 2) := by
        apply Nat.mul_le_mul_right
        omega
      have hrest : rest cmp key X none ≤ X.card := rest_le _
      have hdescent : descent X = kMaxHeight * (X.card + 2) + (X.card + 2) := by
        rw [descent, Nat.add_mul, Nat.one_mul]
      simp only [pending, hphase]
      omega
    | walking search x level bigger => exact pending_walking_lt h hX hr seen hops hphase

end Iterators

section Runs
variable [DecidableEq ν] [DecidableEq ρ] {R : Finset ρ} {ra : Race ν ρ α}

/-- The levels at which the nodes have yet to be linked. -/
def toLink (height : ν → ℕ) (X : Finset ν) (inserts : ν → InsertPhase ν) : ℕ :=
  ∑ x ∈ X, (height x - linkedTo (height x) (inserts x))

/-- What the insertions can have to do while none of them links a node. -/
def workBound (X : Finset ν) : ℕ := X.card * ((kMaxHeight + 2) * walk X)

/-- The turns that the insertions of the nodes in `X` and the iterators in `R` can take, or less. -/
def potential (cmp : α → α → Ordering) (key : ν → α) (height : ν → ℕ) (X : Finset ν)
    (R : Finset ρ) (ra : Race ν ρ α) : ℕ :=
  toLink height X ra.inserts * (workBound X + 1) +
    ∑ x ∈ X, work cmp key X ra.shared x (ra.inserts x) +
    ∑ r ∈ R, pending cmp key X (ra.iterators r)

/-- A thread takes a turn while its operations are not over, and its swap fails for a reason. -/
def Unfinished (X : Finset ν) (R : Finset ρ) (ra : Race ν ρ α) : Turn ν ρ → Prop
  | .insert x _ weak => x ∈ X ∧ weak = false ∧ ∀ ok, ra.inserts x ≠ .returned ok
  | .iterate r _ => r ∈ R ∧ (ra.iterators r).ops ≠ []

theorem sum_work_le (h : Towers cmp key height L sh inserts) :
    ∑ x ∈ X, work cmp key X sh x (inserts x) ≤ workBound X := by
  have hle := Finset.sum_le_card_nsmul X (fun x => work cmp key X sh x (inserts x))
    ((kMaxHeight + 2) * walk X) (by
      intro x _
      apply work_le
      intro splice level before after hphase
      have hs := h.sound x
      rw [hphase] at hs
      exact hs.2.2.1.trans_le h.le_max)
  simpa [workBound] using hle

theorem toLink_update (height : ν → ℕ) (inserts : ν → InsertPhase ν) (phase : InsertPhase ν)
    (hx : x ∈ X) :
    toLink height X (Function.update inserts x phase) + (height x - linkedTo (height x) (inserts x)) =
      toLink height X inserts + (height x - linkedTo (height x) phase) := by
  have hold := Finset.add_sum_erase X (fun y => height y - linkedTo (height y) (inserts y)) hx
  have hnew := Finset.add_sum_erase X
    (fun y => height y - linkedTo (height y) (Function.update inserts x phase y)) hx
  have hsame : ∑ y ∈ X.erase x, (height y - linkedTo (height y) (Function.update inserts x phase y)) =
      ∑ y ∈ X.erase x, (height y - linkedTo (height y) (inserts y)) := by
    apply Finset.sum_congr rfl
    intro y hy
    rw [Function.update_of_ne (Finset.ne_of_mem_erase hy)]
  simp only [Function.update_self] at hnew
  rw [toLink, toLink]
  omega

/-- A turn of an insertion lowers what is to be done. -/
theorem insert_lowers {done : Shared ν × InsertPhase ν}
    (h' : Towers cmp key height L' done.1 (Function.update inserts x done.2)) (hx : x ∈ X)
    (hprogress : Progresses cmp key height X sh inserts x done) :
    toLink height X (Function.update inserts x done.2) * (workBound X + 1) +
        ∑ y ∈ X, work cmp key X done.1 y (Function.update inserts x done.2 y) <
      toLink height X inserts * (workBound X + 1) +
        ∑ y ∈ X, work cmp key X sh y (inserts y) := by
  have hupdate := toLink_update height inserts done.2 hx
  rcases hprogress with hlink | ⟨hsame, hless, hothers⟩
  · have hs := h'.sound x
    rw [Function.update_self] at hs
    have hle := (linkedTo_le hs (by omega)).1
    have hone : toLink height X inserts = toLink height X (Function.update inserts x done.2) + 1 := by
      omega
    have hwork := sum_work_le (X := X) h'
    rw [hone, Nat.add_mul, Nat.one_mul]
    omega
  · have hone : toLink height X (Function.update inserts x done.2) = toLink height X inserts := by
      omega
    have hold := Finset.add_sum_erase X (fun y => work cmp key X sh y (inserts y)) hx
    have hnew := Finset.add_sum_erase X
      (fun y => work cmp key X done.1 y (Function.update inserts x done.2 y)) hx
    have hrest : ∑ y ∈ X.erase x, work cmp key X done.1 y (Function.update inserts x done.2 y) =
        ∑ y ∈ X.erase x, work cmp key X sh y (inserts y) := by
      apply Finset.sum_congr rfl
      intro y hy
      have hne := Finset.ne_of_mem_erase hy
      rw [Function.update_of_ne hne, hothers y hne]
    simp only [Function.update_self] at hnew
    rw [hone]
    omega

/-- The towers stand on the nodes of `X`. -/
def Within (cmp : α → α → Ordering) (key : ν → α) (height : ν → ℕ) (X : Finset ν)
    (ra : Race ν ρ α) : Prop :=
  ∃ L, Consistent cmp key height L ra ∧ ∀ y ∈ L 0, y ∈ X

theorem lowers_insert [Std.TransCmp cmp] (hheight : ∀ x, 1 ≤ height x ∧ height x ≤ kMaxHeight)
    (h : Within cmp key height X ra) {x : ν} {seen : ℕ} {weak : Bool}
    (hok : Unfinished X R ra (.insert x seen weak)) :
    Within cmp key height X (turn cmp key height ra (.insert x seen weak)) ∧
      potential cmp key height X R (turn cmp key height ra (.insert x seen weak)) <
        potential cmp key height X R ra := by
  obtain ⟨L, hc, hX⟩ := h
  obtain ⟨hx, rfl, hunfinished⟩ := hok
  obtain ⟨L', hc', -⟩ := step_insert hc x seen false (hheight x).1 (hheight x).2
  constructor
  · refine ⟨L', hc', ?_⟩
    intro y hy
    rcases eq_or_ne y x with rfl | hne
    · exact hx
    · apply hX y
      have hlt := (hc'.towers.mem 0 y).mp hy
      simp only [turn, Function.update_of_ne hne] at hlt
      exact (hc.towers.mem 0 y).mpr hlt
  · have hprogress := progresses_insertTurn hc.towers hX (hheight x).1 (hheight x).2 seen hunfinished
    have hlt := insert_lowers hc'.towers hx hprogress
    simp only [potential, turn]
    omega

theorem lowers_iterate [Std.TransCmp cmp] (h : Within cmp key height X ra) {r : ρ} {seen : ℕ}
    (hok : Unfinished X R ra (.iterate r seen)) :
    Within cmp key height X (turn cmp key height ra (.iterate r seen)) ∧
      potential cmp key height X R (turn cmp key height ra (.iterate r seen)) <
        potential cmp key height X R ra := by
  obtain ⟨L, hc, hX⟩ := h
  obtain ⟨hr, hunfinished⟩ := hok
  refine ⟨⟨L, (step_iterate hc r seen).1, hX⟩, ?_⟩
  have hlt := pending_turn_lt hc.towers hX (hc.reading r) seen hunfinished
  have hold := Finset.add_sum_erase R (fun r => pending cmp key X (ra.iterators r)) hr
  have hnew := Finset.add_sum_erase R (fun r' => pending cmp key X
    ((turn cmp key height ra (.iterate r seen)).iterators r')) hr
  have hrest : ∑ r' ∈ R.erase r, pending cmp key X
        ((turn cmp key height ra (.iterate r seen)).iterators r') =
      ∑ r' ∈ R.erase r, pending cmp key X (ra.iterators r') := by
    apply Finset.sum_congr rfl
    intro r' hr'
    simp [turn, Finset.ne_of_mem_erase hr']
  simp only [turn, Function.update_self] at hnew hrest
  simp only [potential, turn]
  omega

omit [DecidableEq ρ] in
theorem potential_start (garbage : ν → ℕ → Option ν) (ops : ρ → List (IterOp α))
    (hheight : ∀ x, height x ≤ kMaxHeight) :
    potential cmp key height X R (start garbage ops) ≤
      X.card * kMaxHeight * (workBound X + 1) + workBound X +
        ∑ r ∈ R, (ops r).length * operation X := by
  have htoLink : toLink height X (start garbage ops).inserts ≤ X.card * kMaxHeight := by
    have hle := Finset.sum_le_card_nsmul X height kMaxHeight fun x _ => hheight x
    simpa [toLink, start, linkedTo] using hle
  have htowers : Towers cmp key height (fun _ => []) (start garbage ops).shared
    (start garbage ops).inserts := towers_start garbage ops
  have hwork : ∑ x ∈ X, work cmp key X (start garbage ops).shared x
    ((start garbage ops).inserts x) ≤ workBound X := sum_work_le htowers
  have hpending : ∑ r ∈ R, pending cmp key X ((start garbage ops).iterators r) =
      ∑ r ∈ R, (ops r).length * operation X := rfl
  have hmul := Nat.mul_le_mul_right (workBound X + 1) htoLink
  rw [potential, hpending]
  omega

/-- No insertion or operation of an iterator goes on for ever, whatever the order of the turns: the
turns that the insertions of the nodes in `X` and the iterators in `R` can take before all of them
are done are bounded by the number of nodes and of operations. -/
theorem turns_bounded [Std.TransCmp cmp] (draws : ν → ℕ → ℕ) (garbage : ν → ℕ → Option ν)
    (ops : ρ → List (IterOp α)) (X : Finset ν) (R : Finset ρ) (turns : List (Turn ν ρ))
    (hturns : Guarded (turn cmp key fun x => randomHeight (draws x)) (Unfinished X R)
      (start garbage ops) turns) :
    turns.length ≤ X.card * kMaxHeight * (workBound X + 1) + workBound X +
      ∑ r ∈ R, (ops r).length * operation X := by
  have hheight : ∀ x, 1 ≤ randomHeight (draws x) ∧ randomHeight (draws x) ≤ kMaxHeight :=
    fun x => ⟨one_le_randomHeight _, randomHeight_le _⟩
  have hstep : ∀ (ra : Race ν ρ α) (t : Turn ν ρ), Unfinished X R ra t →
      Within cmp key (fun x => randomHeight (draws x)) X ra →
      Within cmp key (fun x => randomHeight (draws x)) X
          (turn cmp key (fun x => randomHeight (draws x)) ra t) ∧
        potential cmp key (fun x => randomHeight (draws x)) X R
            (turn cmp key (fun x => randomHeight (draws x)) ra t) <
          potential cmp key (fun x => randomHeight (draws x)) X R ra := by
    intro ra t hok hin
    cases t with
    | insert x seen weak => exact lowers_insert hheight hin hok
    | iterate r seen => exact lowers_iterate hin hok
  have hstart : Within cmp key (fun x => randomHeight (draws x)) X (start garbage ops) :=
    ⟨_, consistent_start garbage ops, fun y hy => by cases hy⟩
  exact (length_le_measure hstep hstart hturns).trans
    (potential_start garbage ops fun x => randomHeight_le _)

theorem turns_bounded_two :
    [Turn.insert 4 1 false, .iterate 0 1].length ≤
      1 * kMaxHeight * (workBound {4} + 1) + workBound {4} +
        ∑ _r ∈ ({0} : Finset ℕ), [IterOp.seek 5].length * operation {4} :=
  @turns_bounded ℕ ℕ ℕ compare id _ _ _ twoDraws (fun _ _ => some 9) (fun _ => [.seek 5])
    {4} {0} [.insert 4 1 false, .iterate 0 1]
    ⟨⟨by simp, rfl, fun ok h => by cases h⟩, ⟨by simp, by rintro ⟨⟩⟩, trivial⟩

end Runs

end ZeroFlush.SkipListProgress
