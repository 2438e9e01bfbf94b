import Mathlib.Logic.Function.Basic
import ZeroFlush.GuardedRuns

/-! # A pool of workers

The workers take the tasks of a list one after the other from a shared counter. A task is done in
parts, and for every part that is done its worker draws a number from a second counter. The first
error stops the pool. -/
namespace ZeroFlush.TaskPools
open GuardedRuns

inductive Worker
  | looping
  | fetching
  | working (task done : ℕ)
  | returned
  deriving DecidableEq, Repr

/-- A part of a task that is done, with the number drawn for it. -/
structure Ticket where
  task : ℕ
  part : ℕ
  number : ℕ
  deriving DecidableEq, Repr

structure Pool (ε : Type*) where
  next : ℕ := 0
  stop : Bool := false
  firstError : Option ε := none
  workers : ℕ → Worker
  counter : ℕ
  drawn : List Ticket := []

/-- The turn of a worker, and what goes wrong in it. -/
structure Turn (ε : Type*) where
  worker : ℕ
  error : Option ε := none

variable {ε : Type*}

namespace Pool

def goto (p : Pool ε) (w : ℕ) (s : Worker) : Pool ε :=
  { p with workers := Function.update p.workers w s }

def fail (p : Pool ε) (w : ℕ) (e : ε) : Pool ε :=
  { p.goto w .returned with firstError := p.firstError.or (some e), stop := true }

def draw (p : Pool ε) (w i k : ℕ) : Pool ε :=
  { p.goto w (.working i (k + 1)) with
    counter := p.counter + 1
    drawn := p.drawn ++ [⟨i, k, p.counter⟩] }

/-- A task is given by the number of its parts, or by the error it fails with at once. -/
def step (tasks : List (Except ε ℕ)) (p : Pool ε) (turn : Turn ε) : Pool ε :=
  let w := turn.worker
  match p.workers w with
  | .looping => p.goto w (if p.stop then .returned else .fetching)
  | .fetching =>
    { p.goto w (if p.next < tasks.length then .working p.next 0 else .returned) with
      next := p.next + 1 }
  | .working i k =>
    match turn.error, tasks[i]? with
    | some e, _ => p.fail w e
    | none, some (.error e) => p.fail w e
    | none, some (.ok n) => if k < n then p.draw w i k else p.goto w .looping
    | none, none => p.goto w .looping
  | .returned => p

/-- The pool before the first turn. -/
def start (size counter : ℕ) : Pool ε where
  workers w := if w < size then .looping else .returned
  counter := counter

/-- The workers have been joined. -/
def Joined (size : ℕ) (p : Pool ε) : Prop := ∀ w < size, p.workers w = .returned

instance (size : ℕ) (p : Pool ε) : Decidable (p.Joined size) :=
  inferInstanceAs (Decidable (∀ w < size, _))

end Pool

/-- Something has to come before what a worker does next. -/
def Worker.awaits (before : ℕ × ℕ → ℕ × ℕ → Bool) (part : ℕ × ℕ) : Worker → Bool
  | .working i k => before part (i, k)
  | _ => false

/-- No part is done before those of `parts` that have to come `before` it. -/
def KeepsOrder (parts : List (ℕ × ℕ)) (before : ℕ × ℕ → ℕ × ℕ → Bool) (p : Pool ε)
    (turn : Turn ε) : Prop :=
  ∀ part ∈ parts, (p.workers turn.worker).awaits before part →
    ∃ t ∈ p.drawn, (t.task, t.part) = part

instance (parts : List (ℕ × ℕ)) (before : ℕ × ℕ → ℕ × ℕ → Bool) (p : Pool ε) (turn : Turn ε) :
    Decidable (KeepsOrder parts before p turn) :=
  inferInstanceAs (Decidable (∀ part ∈ parts, _ → ∃ t ∈ p.drawn, _))

variable {tasks : List (Except ε ℕ)} {p : Pool ε} {turn : Turn ε}

/-- What a turn can do: a worker that takes no part moves on or takes the next task, one that is at
work may stop, and a part that is done gets the next number. -/
theorem step_cases (tasks : List (Except ε ℕ)) (p : Pool ε) (turn : Turn ε) :
    p.step tasks turn = p ∨
      (∃ s e b, (∀ i k, s ≠ .working i k) ∧ p.step tasks turn =
        { p.goto turn.worker s with firstError := e, stop := b }) ∨
      (∃ s, (∀ i k, s = .working i k → i = p.next ∧ k = 0) ∧ p.step tasks turn =
        { p.goto turn.worker s with next := p.next + 1 }) ∨
      ∃ i k, p.workers turn.worker = .working i k ∧ p.step tasks turn = p.draw turn.worker i k := by
  cases hw : p.workers turn.worker with
  | looping =>
    refine .inr (.inl ⟨if p.stop then .returned else .fetching, p.firstError, p.stop, ?_, ?_⟩)
    · intro i k
      split <;> exact Worker.noConfusion
    · rw [Pool.step, hw]
      rfl
  | fetching =>
    refine .inr (.inr (.inl
      ⟨if p.next < tasks.length then .working p.next 0 else .returned, ?_, ?_⟩))
    · intro i k hs
      split at hs
      · cases hs
        exact ⟨rfl, rfl⟩
      · cases hs
    · rw [Pool.step, hw]
  | working i k =>
    have hloop : ∃ s e b, (∀ i k, s ≠ .working i k) ∧ p.goto turn.worker .looping =
        { p.goto turn.worker s with firstError := e, stop := b } :=
      ⟨.looping, p.firstError, p.stop, fun _ _ => Worker.noConfusion, rfl⟩
    have hfail : ∀ e, ∃ s e' b, (∀ i k, s ≠ .working i k) ∧ p.fail turn.worker e =
        { p.goto turn.worker s with firstError := e', stop := b } :=
      fun e => ⟨.returned, _, true, fun _ _ => Worker.noConfusion, rfl⟩
    rw [Pool.step, hw]
    dsimp only
    split
    next => exact .inr (.inl (hfail _))
    next => exact .inr (.inl (hfail _))
    next =>
      split
      · exact .inr (.inr (.inr ⟨i, k, rfl, rfl⟩))
      · exact .inr (.inl hloop)
    next => exact .inr (.inl hloop)
  | returned =>
    rw [Pool.step, hw]
    exact .inl rfl

/-- No two workers are at the same task, and what has been drawn for a task are the parts its worker
is done with. -/
structure Pool.Fair (p : Pool ε) : Prop where
  taken : ∀ w i k, p.workers w = .working i k → i < p.next
  alone : ∀ w w' i k k', p.workers w = .working i k → p.workers w' = .working i k' → w = w'
  drawn_taken : ∀ t ∈ p.drawn, t.task < p.next
  drawn_done : ∀ t ∈ p.drawn, ∀ w k, p.workers w = .working t.task k → t.part < k
  drawn_lt : ∀ t ∈ p.drawn, t.number < p.counter

theorem fair_start (size counter : ℕ) : (Pool.start size counter : Pool ε).Fair := by
  have hidle : ∀ w i k, (Pool.start size counter : Pool ε).workers w ≠ .working i k := by
    intro w i k
    dsimp only [Pool.start]
    split <;> exact Worker.noConfusion
  refine ⟨?_, ?_, ?_, ?_, ?_⟩
  · intro w i k h
    exact absurd h (hidle w i k)
  · intro w w' i k k' h
    exact absurd h (hidle w i k)
  all_goals
    intro t ht
    cases ht


/-- A worker that leaves its task, or goes for none, changes nothing for the others. -/
theorem Pool.Fair.goto_idle (h : p.Fair) (w : ℕ) {s : Worker} (hs : ∀ i k, s ≠ .working i k) :
    (p.goto w s).Fair := by
  have hold : ∀ w' i k, (p.goto w s).workers w' = .working i k →
      p.workers w' = .working i k := by
    intro w' i k hw
    dsimp only [Pool.goto] at hw
    rw [Function.update_apply] at hw
    split at hw
    · exact absurd hw (hs i k)
    · exact hw
  refine ⟨?_, ?_, h.drawn_taken, ?_, h.drawn_lt⟩
  · intro w' i k hw
    exact h.taken w' i k (hold w' i k hw)
  · intro w₁ w₂ i k k' hw₁ hw₂
    exact h.alone w₁ w₂ i k k' (hold _ _ _ hw₁) (hold _ _ _ hw₂)
  · intro t ht w' k hw
    exact h.drawn_done t ht w' k (hold _ _ _ hw)

/-- The next task is nobody's yet. -/
theorem Pool.Fair.fetch (h : p.Fair) (w : ℕ) {s : Worker}
    (hs : ∀ i k, s = .working i k → i = p.next ∧ k = 0) :
    Pool.Fair { p.goto w s with next := p.next + 1 } := by
  have hold : ∀ w' i k, (p.goto w s).workers w' = .working i k →
      w' = w ∧ i = p.next ∨ w' ≠ w ∧ p.workers w' = .working i k := by
    intro w' i k hw
    dsimp only [Pool.goto] at hw
    rw [Function.update_apply] at hw
    split at hw
    next hw' => exact .inl ⟨hw', (hs i k hw).1⟩
    next hw' => exact .inr ⟨hw', hw⟩
  refine ⟨?_, ?_, ?_, ?_, h.drawn_lt⟩
  · intro w' i k hw
    obtain ⟨-, rfl⟩ | ⟨-, hw⟩ := hold w' i k hw
    · exact Nat.lt_succ_self _
    · exact Nat.lt_succ_of_lt (h.taken w' i k hw)
  · intro w₁ w₂ i k k' hw₁ hw₂
    obtain ⟨rfl, hi⟩ | ⟨-, hw₁⟩ := hold w₁ i k hw₁
    · obtain ⟨rfl, -⟩ | ⟨-, hw₂⟩ := hold w₂ i k' hw₂
      · rfl
      · exact absurd hi (Nat.ne_of_lt (h.taken w₂ i k' hw₂))
    · obtain ⟨-, hi⟩ | ⟨-, hw₂⟩ := hold w₂ i k' hw₂
      · exact absurd hi (Nat.ne_of_lt (h.taken w₁ i k hw₁))
      · exact h.alone w₁ w₂ i k k' hw₁ hw₂
  · intro t ht
    exact Nat.lt_succ_of_lt (h.drawn_taken t ht)
  · intro t ht w' k hw
    obtain ⟨-, hi⟩ | ⟨-, hw⟩ := hold w' t.task k hw
    · exact absurd hi (Nat.ne_of_lt (h.drawn_taken t ht))
    · exact h.drawn_done t ht w' k hw

theorem Pool.Fair.draw (h : p.Fair) {w i k : ℕ} (hw : p.workers w = .working i k) :
    (p.draw w i k).Fair := by
  have hold : ∀ w' i' k', (p.draw w i k).workers w' = .working i' k' →
      w' = w ∧ i' = i ∧ k' = k + 1 ∨ w' ≠ w ∧ p.workers w' = .working i' k' := by
    intro w' i' k' hw'
    dsimp only [Pool.draw, Pool.goto] at hw'
    rw [Function.update_apply] at hw'
    split at hw'
    next heq =>
      cases hw'
      exact .inl ⟨heq, rfl, rfl⟩
    next hne => exact .inr ⟨hne, hw'⟩
  refine ⟨?_, ?_, ?_, ?_, ?_⟩
  · intro w' i' k' hw'
    obtain ⟨-, rfl, -⟩ | ⟨-, hw'⟩ := hold w' i' k' hw'
    · exact h.taken w i' k hw
    · exact h.taken w' i' k' hw'
  · intro w₁ w₂ i' k₁ k₂ hw₁ hw₂
    obtain ⟨rfl, rfl, -⟩ | ⟨-, hold₁⟩ := hold w₁ i' k₁ hw₁
    · obtain ⟨rfl, -⟩ | ⟨-, hold₂⟩ := hold w₂ i' k₂ hw₂
      · rfl
      · exact h.alone w₁ w₂ i' k k₂ hw hold₂
    · obtain ⟨rfl, rfl, -⟩ | ⟨-, hold₂⟩ := hold w₂ i' k₂ hw₂
      · exact h.alone w₁ w₂ i' k₁ k hold₁ hw
      · exact h.alone w₁ w₂ i' k₁ k₂ hold₁ hold₂
  · intro t ht
    obtain ht | ht := List.mem_append.mp ht
    · exact h.drawn_taken t ht
    · rw [List.mem_singleton.mp ht]
      exact h.taken w i k hw
  · intro t ht w' k' hw'
    obtain hmem | hmem := List.mem_append.mp ht
    · obtain ⟨rfl, hi, rfl⟩ | ⟨-, hw'⟩ := hold w' t.task k' hw'
      · exact Nat.lt_succ_of_lt (h.drawn_done t hmem w' k (hi ▸ hw))
      · exact h.drawn_done t hmem w' k' hw'
    · obtain rfl := List.mem_singleton.mp hmem
      obtain ⟨-, -, rfl⟩ | ⟨hne, hw'⟩ := hold w' i k' hw'
      · exact Nat.lt_succ_self k
      · exact absurd (h.alone w' w i k' k hw' hw) hne
  · intro t ht
    obtain ht | ht := List.mem_append.mp ht
    · exact Nat.lt_succ_of_lt (h.drawn_lt t ht)
    · rw [List.mem_singleton.mp ht]
      exact Nat.lt_succ_self _

theorem fair_step (turn : Turn ε) (h : p.Fair) : (p.step tasks turn).Fair := by
  obtain he | ⟨s, e, b, hs, he⟩ | ⟨s, hs, he⟩ | ⟨i, k, hw, he⟩ := step_cases tasks p turn
  · rw [he]
    exact h
  · rw [he]
    obtain ⟨htaken, halone, hdrawn, hdone, hlt⟩ := h.goto_idle turn.worker hs
    exact ⟨htaken, halone, hdrawn, hdone, hlt⟩
  · rw [he]
    exact h.fetch turn.worker hs
  · rw [he]
    exact h.draw hw

variable {parts : List (ℕ × ℕ)} {before : ℕ × ℕ → ℕ × ℕ → Bool}

/-- What has to come before a part that is done has been drawn with a smaller number. -/
def Ordered (parts : List (ℕ × ℕ)) (before : ℕ × ℕ → ℕ × ℕ → Bool) (p : Pool ε) : Prop :=
  ∀ u ∈ p.drawn, ∀ part ∈ parts, before part (u.task, u.part) →
    (∃ t ∈ p.drawn, (t.task, t.part) = part) ∧
      ∀ t ∈ p.drawn, (t.task, t.part) = part → t.number < u.number

theorem ordered_draw (hfair : p.Fair) {w i k : ℕ} (hw : p.workers w = .working i k)
    (hbefore : ∀ part ∈ parts, before part (i, k) → ∃ t ∈ p.drawn, (t.task, t.part) = part)
    (h : Ordered parts before p) : Ordered parts before (p.draw w i k) := by
  -- the part that is done has not been drawn before
  have hnew : ∀ t ∈ p.drawn, (t.task, t.part) ≠ (i, k) := by
    intro t ht heq
    obtain ⟨hi, hk⟩ := Prod.mk.inj heq
    have hlt := hfair.drawn_done t ht w k (hi ▸ hw)
    exact Nat.ne_of_lt hlt hk
  intro u hu part hmem hpart
  obtain hu | hu := List.mem_append.mp hu
  · obtain ⟨⟨t, ht, heq⟩, hlt⟩ := h u hu part hmem hpart
    refine ⟨⟨t, List.mem_append_left _ ht, heq⟩, ?_⟩
    intro t' ht' heq'
    obtain ht' | ht' := List.mem_append.mp ht'
    · exact hlt t' ht' heq'
    · rw [List.mem_singleton.mp ht'] at heq'
      exact absurd (heq.trans heq'.symm) (hnew t ht)
  · obtain rfl := List.mem_singleton.mp hu
    obtain ⟨t, ht, heq⟩ := hbefore part hmem hpart
    refine ⟨⟨t, List.mem_append_left _ ht, heq⟩, ?_⟩
    intro t' ht' heq'
    obtain ht' | ht' := List.mem_append.mp ht'
    · exact hfair.drawn_lt t' ht'
    · rw [List.mem_singleton.mp ht'] at heq'
      exact absurd (heq.trans heq'.symm) (hnew t ht)

theorem ordered_step (hfair : p.Fair) (hok : KeepsOrder parts before p turn)
    (h : Ordered parts before p) : Ordered parts before (p.step tasks turn) := by
  obtain he | ⟨s, e, b, hs, he⟩ | ⟨s, hs, he⟩ | ⟨i, k, hw, he⟩ := step_cases tasks p turn
  · rw [he]
    exact h
  · rw [he]
    exact h
  · rw [he]
    exact h
  · rw [he]
    rw [KeepsOrder, hw] at hok
    exact ordered_draw hfair hw hok h

/-- In a run that keeps the order of the parts, the numbers follow it. -/
theorem numbers_follow_order {size counter : ℕ} {turns : List (Turn ε)}
    (hok : Guarded (Pool.step tasks) (KeepsOrder parts before) (Pool.start size counter) turns)
    {t u : Ticket} (ht : t ∈ (run (Pool.step tasks) (Pool.start size counter) turns).drawn)
    (hu : u ∈ (run (Pool.step tasks) (Pool.start size counter) turns).drawn)
    (hmem : (t.task, t.part) ∈ parts) (h : before (t.task, t.part) (u.task, u.part)) :
    t.number < u.number := by
  have hinv : ∀ p : Pool ε, ∀ turn, KeepsOrder parts before p turn →
      p.Fair ∧ Ordered parts before p →
      (p.step tasks turn).Fair ∧ Ordered parts before (p.step tasks turn) :=
    fun p turn hok hp => ⟨fair_step turn hp.1, ordered_step hp.1 hok hp.2⟩
  have hstart : Ordered parts before (Pool.start size counter : Pool ε) :=
    fun u hu => absurd hu List.not_mem_nil
  obtain ⟨-, hord⟩ := invariant_run hinv ⟨fair_start size counter, hstart⟩ hok
  exact (hord u hu _ hmem h).2 t ht rfl

end ZeroFlush.TaskPools
