import Mathlib.Algebra.BigOperators.Group.Finset.Basic
import Mathlib.Logic.Function.Basic
import ZeroFlush.GuardedRuns

/-! # What a pool of workers returns

Here every access of a worker to what the workers share is a turn of its own: the stop flag, the
counter of the tasks and the first error. A status is `none` when it is OK. -/
namespace ZeroFlush.PoolOutcomes
open GuardedRuns

/-- Where a worker is in its loop. After a task has failed, the worker has yet to take the lock, and
the first one to do so has yet to set the stop flag. -/
inductive Worker (ε : Type*)
  | looping
  | fetching
  | executing (task : ℕ)
  | failed (e : ε)
  | stopping
  | returned
  deriving DecidableEq

structure Pool (ε : Type*) where
  next : ℕ := 0
  stop : Bool := false
  firstError : Option ε := none
  workers : ℕ → Worker ε
  /-- The tasks whose execution has begun, in this order. -/
  started : List ℕ := []
  /-- The tasks whose execution has ended, and their statuses. -/
  executed : List (ℕ × Option ε) := []

/-- The turn of a worker; the outcome is that of the task it executes. -/
structure Turn (ε : Type*) where
  worker : ℕ
  outcome : Option ε := none

variable {ε : Type*}

namespace Pool

def goto (p : Pool ε) (w : ℕ) (s : Worker ε) : Pool ε :=
  { p with workers := Function.update p.workers w s }

/-- Only the first error is kept, and only its worker goes on to stop the others. -/
def report (p : Pool ε) (w : ℕ) (e : ε) : Pool ε :=
  match p.firstError with
  | none => { p.goto w .stopping with firstError := some e }
  | some _ => p.goto w .returned

def step (n : ℕ) (p : Pool ε) (turn : Turn ε) : Pool ε :=
  let w := turn.worker
  match p.workers w with
  | .looping => p.goto w (if p.stop then .returned else .fetching)
  | .fetching =>
    if p.next < n then
      { p.goto w (.executing p.next) with next := p.next + 1, started := p.started ++ [p.next] }
    else { p.goto w .returned with next := p.next + 1 }
  | .executing i =>
    { p.goto w (match turn.outcome with
        | none => .looping
        | some e => .failed e) with
      executed := p.executed ++ [(i, turn.outcome)] }
  | .failed e => p.report w e
  | .stopping => { p.goto w .returned with stop := true }
  | .returned => p

/-- The workers before their first turn. -/
def start (size : ℕ) : Pool ε where
  workers w := if w < size then .looping else .returned

/-- The workers have been joined. -/
def Joined (size : ℕ) (p : Pool ε) : Prop := ∀ w < size, p.workers w = .returned

instance [DecidableEq ε] (size : ℕ) (p : Pool ε) : Decidable (p.Joined size) :=
  inferInstanceAs (Decidable (∀ w < size, _))

end Pool

/-- `W`: the number of the tasks is cut to 32 bits. -/
def poolSize (n workers : ℕ) : ℕ := min (max workers 1) (n % 2 ^ 32)

/-- The tasks from `i` on in the thread of the caller, up to the first that fails. -/
def serial (outcome : ℕ → Option ε) : ℕ → ℕ → List (ℕ × Option ε) × Option ε
  | _, 0 => ([], none)
  | i, k + 1 =>
    match outcome i with
    | some e => ([(i, some e)], some e)
    | none =>
      let rest := serial outcome (i + 1) k
      ((i, none) :: rest.1, rest.2)

/-- `RunMaterializeTaskPool` on `n` tasks can execute these tasks with these statuses and return this
one. -/
inductive Returns (n workers : ℕ) : List (ℕ × Option ε) → Option ε → Prop
  | empty (h : n = 0) : Returns n workers [] none
  | serial (hn : n ≠ 0) (h : poolSize n workers ≤ 1) (outcome : ℕ → Option ε) :
    Returns n workers (serial outcome 0 n).1 (serial outcome 0 n).2
  | pool (hn : n ≠ 0) (h : 1 < poolSize n workers) (turns : List (Turn ε))
    (hj : (run (Pool.step n) (Pool.start (poolSize n workers)) turns).Joined (poolSize n workers)) :
    Returns n workers (run (Pool.step n) (Pool.start (poolSize n workers)) turns).executed
      (run (Pool.step n) (Pool.start (poolSize n workers)) turns).firstError

variable {n size w i : ℕ} {p : Pool ε} {s : Worker ε} {e : ε} {o : Option ε}

/-! ## Tasks -/

/-- A task that is begun is at one worker until it has ended. -/
structure Taken (n : ℕ) (p : Pool ε) : Prop where
  started : p.started = List.range (min p.next n)
  executing_lt : ∀ w i, p.workers w = .executing i → i < min p.next n
  alone : ∀ w w' i, p.workers w = .executing i → p.workers w' = .executing i → w = w'
  executed_lt : ∀ x ∈ p.executed, x.1 < min p.next n
  once : (p.executed.map Prod.fst).Nodup
  left : ∀ x ∈ p.executed, ∀ w, p.workers w ≠ .executing x.1
  covered : ∀ i < min p.next n, (∃ o, (i, o) ∈ p.executed) ∨ ∃ w, p.workers w = .executing i

theorem taken_start (n size : ℕ) : Taken n (Pool.start size : Pool ε) := by
  have hidle : ∀ w i, (Pool.start size : Pool ε).workers w ≠ .executing i := by
    intro w i
    dsimp only [Pool.start]
    split
    · exact fun h => nomatch h
    · exact fun h => nomatch h
  refine ⟨?_, ?_, ?_, ?_, List.nodup_nil, ?_, ?_⟩
  · rw [Pool.start, Nat.zero_min]
    rfl
  · exact fun w i h => absurd h (hidle w i)
  · exact fun w w' i h => absurd h (hidle w i)
  · exact fun x hx => nomatch hx
  · exact fun x hx => nomatch hx
  · intro i hi
    rw [Pool.start, Nat.zero_min] at hi
    exact absurd hi (Nat.not_lt_zero i)

theorem workers_goto_of_ne {w' : ℕ} (h : w' ≠ w) : (p.goto w s).workers w' = p.workers w' := by
  dsimp only [Pool.goto]
  rw [Function.update_of_ne h]

theorem workers_goto_self : (p.goto w s).workers w = s := by
  dsimp only [Pool.goto]
  rw [Function.update_self]

/-- A worker that executes nothing before and after changes nothing. -/
theorem executing_goto (hold : ∀ i, p.workers w ≠ .executing i) (hs : ∀ i, s ≠ .executing i) (w' i : ℕ) :
    (p.goto w s).workers w' = .executing i ↔ p.workers w' = .executing i := by
  by_cases hw : w' = w
  · rw [hw, workers_goto_self]
    exact iff_of_false (hs i) (hold i)
  · rw [workers_goto_of_ne hw]

theorem Taken.of_executing {p' : Pool ε} (h : Taken n p) (hnext : min p'.next n = min p.next n)
    (hstarted : p'.started = p.started) (hexecuted : p'.executed = p.executed)
    (hworkers : ∀ w i, p'.workers w = .executing i ↔ p.workers w = .executing i) : Taken n p' := by
  obtain ⟨hrange, hlt, halone, hdone, honce, hleft, hcovered⟩ := h
  refine ⟨?_, ?_, ?_, ?_, ?_, ?_, ?_⟩
  · rw [hstarted, hnext, hrange]
  · intro w i hw
    rw [hnext]
    exact hlt w i ((hworkers w i).mp hw)
  · intro w w' i hw hw'
    exact halone w w' i ((hworkers w i).mp hw) ((hworkers w' i).mp hw')
  · rw [hexecuted, hnext]
    exact hdone
  · rw [hexecuted]
    exact honce
  · intro x hx w hw
    rw [hexecuted] at hx
    exact hleft x hx w ((hworkers w x.1).mp hw)
  · intro i hi
    rw [hnext] at hi
    rw [hexecuted]
    exact (hcovered i hi).imp_right fun ⟨w, hw⟩ => ⟨w, (hworkers w i).mpr hw⟩

/-- The next task is nobody's yet. -/
theorem Taken.fetch (h : Taken n p) (hold : ∀ i, p.workers w ≠ .executing i) (hlt : p.next < n) :
    Taken n { p.goto w (.executing p.next) with
      next := p.next + 1, started := p.started ++ [p.next] } := by
  obtain ⟨hrange, hbelow, halone, hdone, honce, hleft, hcovered⟩ := h
  have hmin : min p.next n = p.next := Nat.min_eq_left hlt.le
  have hnext : min (p.next + 1) n = p.next + 1 := Nat.min_eq_left hlt
  rw [hmin] at hrange hbelow hdone hcovered
  have hworker : ∀ w' i, (p.goto w (.executing p.next)).workers w' = .executing i →
      w' = w ∧ i = p.next ∨ w' ≠ w ∧ p.workers w' = .executing i := by
    intro w' i hw'
    by_cases heq : w' = w
    · rw [heq, workers_goto_self] at hw'
      cases hw'
      exact .inl ⟨heq, rfl⟩
    · rw [workers_goto_of_ne heq] at hw'
      exact .inr ⟨heq, hw'⟩
  refine ⟨?_, ?_, ?_, ?_, honce, ?_, ?_⟩
  · dsimp only
    rw [hnext, hrange, List.range_succ]
  · intro w' i hw'
    dsimp only
    rw [hnext]
    rcases hworker w' i hw' with ⟨-, rfl⟩ | ⟨-, hw'⟩
    · exact Nat.lt_succ_self _
    · exact Nat.lt_succ_of_lt (hbelow w' i hw')
  · intro w₁ w₂ i hw₁ hw₂
    rcases hworker w₁ i hw₁ with ⟨rfl, hi⟩ | ⟨-, hw₁⟩
    · rcases hworker w₂ i hw₂ with ⟨rfl, -⟩ | ⟨-, hw₂⟩
      · rfl
      · exact absurd hi (Nat.ne_of_lt (hbelow w₂ i hw₂))
    · rcases hworker w₂ i hw₂ with ⟨-, hi⟩ | ⟨-, hw₂⟩
      · exact absurd hi (Nat.ne_of_lt (hbelow w₁ i hw₁))
      · exact halone w₁ w₂ i hw₁ hw₂
  · intro x hx
    dsimp only
    rw [hnext]
    exact Nat.lt_succ_of_lt (hdone x hx)
  · intro x hx w' hw'
    rcases hworker w' x.1 hw' with ⟨-, hi⟩ | ⟨-, hw'⟩
    · exact absurd hi (Nat.ne_of_lt (hdone x hx))
    · exact hleft x hx w' hw'
  · intro i hi
    dsimp only at hi ⊢
    rw [hnext] at hi
    rcases Nat.lt_succ_iff_lt_or_eq.mp hi with hlt | rfl
    · rcases hcovered i hlt with hdone | ⟨w', hw'⟩
      · exact .inl hdone
      · have hne : w' ≠ w := fun heq => hold i (heq ▸ hw')
        exact .inr ⟨w', (workers_goto_of_ne hne).trans hw'⟩
    · exact .inr ⟨w, workers_goto_self⟩

/-- The task of a worker ends. -/
theorem Taken.finish (h : Taken n p) (hw : p.workers w = .executing i) (hs : ∀ i, s ≠ .executing i)
    (o : Option ε) : Taken n { p.goto w s with executed := p.executed ++ [(i, o)] } := by
  obtain ⟨hrange, hbelow, halone, hdone, honce, hleft, hcovered⟩ := h
  have hworker : ∀ w' j, (p.goto w s).workers w' = .executing j →
      w' ≠ w ∧ p.workers w' = .executing j := by
    intro w' j hw'
    by_cases heq : w' = w
    · rw [heq, workers_goto_self] at hw'
      exact absurd hw' (hs j)
    · rw [workers_goto_of_ne heq] at hw'
      exact ⟨heq, hw'⟩
  refine ⟨hrange, ?_, ?_, ?_, ?_, ?_, ?_⟩
  · exact fun w' j hw' => hbelow w' j (hworker w' j hw').2
  · exact fun w₁ w₂ j hw₁ hw₂ => halone w₁ w₂ j (hworker w₁ j hw₁).2 (hworker w₂ j hw₂).2
  · intro x hx
    rcases List.mem_append.mp hx with hx | hx
    · exact hdone x hx
    · rw [List.mem_singleton.mp hx]
      exact hbelow w i hw
  · dsimp only
    rw [List.map_append, List.map_singleton, List.nodup_append_comm, List.singleton_append,
      List.nodup_cons]
    refine ⟨?_, honce⟩
    intro hmem
    obtain ⟨x, hx, rfl⟩ := List.mem_map.mp hmem
    exact hleft x hx w hw
  · intro x hx w' hw'
    obtain ⟨hne, hw'⟩ := hworker w' x.1 hw'
    rcases List.mem_append.mp hx with hx | hx
    · exact hleft x hx w' hw'
    · rw [List.mem_singleton.mp hx] at hw'
      exact hne (halone w' w i hw' hw)
  · intro j hj
    rcases hcovered j hj with ⟨o', ho'⟩ | ⟨w', hw'⟩
    · exact .inl ⟨o', List.mem_append_left _ ho'⟩
    · by_cases heq : w' = w
      · rw [heq, hw] at hw'
        cases hw'
        exact .inl ⟨o, List.mem_append_right _ (List.mem_singleton_self _)⟩
      · exact .inr ⟨w', (workers_goto_of_ne heq).trans hw'⟩

theorem taken_step (p : Pool ε) (turn : Turn ε) (h : Taken n p) : Taken n (p.step n turn) := by
  have hidle : ∀ s' : Worker ε, (∀ i, p.workers turn.worker ≠ .executing i) →
      (∀ i, s' ≠ .executing i) → Taken n (p.goto turn.worker s') := by
    intro s' hold hs
    exact h.of_executing rfl rfl rfl (executing_goto hold hs)
  rw [Pool.step]
  dsimp only
  cases hw : p.workers turn.worker with
  | looping =>
    apply hidle
    · exact fun i heq => nomatch hw.symm.trans heq
    · intro i
      split
      · exact fun heq => nomatch heq
      · exact fun heq => nomatch heq
  | fetching =>
    have hold : ∀ i, p.workers turn.worker ≠ .executing i := fun i heq => nomatch hw.symm.trans heq
    dsimp only
    split
    · next hlt => exact h.fetch hold hlt
    · next hge =>
      have hmin : min (p.next + 1) n = min p.next n := by omega
      exact h.of_executing hmin rfl rfl (executing_goto hold fun i heq => nomatch heq)
  | executing i =>
    apply h.finish hw
    intro j
    split
    · exact fun heq => nomatch heq
    · exact fun heq => nomatch heq
  | failed e =>
    have hold : ∀ i, p.workers turn.worker ≠ .executing i := fun i heq => nomatch hw.symm.trans heq
    dsimp only
    rw [Pool.report]
    split
    · exact h.of_executing rfl rfl rfl (executing_goto hold fun i heq => nomatch heq)
    · exact hidle _ hold fun i heq => nomatch heq
  | stopping =>
    have hold : ∀ i, p.workers turn.worker ≠ .executing i := fun i heq => nomatch hw.symm.trans heq
    exact h.of_executing rfl rfl rfl (executing_goto hold fun i heq => nomatch heq)
  | returned => exact h

/-! ## Errors -/

/-- The first error is that of a task, and no worker returns without a reason. -/
structure Reported (n size : ℕ) (p : Pool ε) : Prop where
  blamed : ∀ e, p.firstError = some e → ∃ i, (i, some e) ∈ p.executed
  failed : ∀ w e, p.workers w = .failed e → ∃ i, (i, some e) ∈ p.executed
  kept : ∀ i e, (i, some e) ∈ p.executed → p.firstError ≠ none ∨ ∃ w e', p.workers w = .failed e'
  stopping : ∀ w, p.workers w = .stopping → p.firstError ≠ none
  stopped : p.stop = true → p.firstError ≠ none
  returned : ∀ w < size, p.workers w = .returned → p.firstError ≠ none ∨ n ≤ p.next

theorem reported_start (n size : ℕ) : Reported n size (Pool.start size : Pool ε) := by
  have hstart : ∀ w, (Pool.start size : Pool ε).workers w = .looping ∧ w < size ∨
      (Pool.start size : Pool ε).workers w = .returned ∧ size ≤ w := by
    intro w
    dsimp only [Pool.start]
    split
    · next hw => exact .inl ⟨rfl, hw⟩
    · next hw => exact .inr ⟨rfl, Nat.le_of_not_lt hw⟩
  refine ⟨?_, ?_, ?_, ?_, ?_, ?_⟩
  · intro e he
    exact nomatch he
  · intro w e hw
    rcases hstart w with ⟨h, -⟩ | ⟨h, -⟩
    · exact nomatch h.symm.trans hw
    · exact nomatch h.symm.trans hw
  · intro i e hi
    exact nomatch hi
  · intro w hw
    rcases hstart w with ⟨h, -⟩ | ⟨h, -⟩
    · exact nomatch h.symm.trans hw
    · exact nomatch h.symm.trans hw
  · intro hflag
    exact nomatch hflag
  · intro w hlt hw
    rcases hstart w with ⟨h, -⟩ | ⟨-, hge⟩
    · exact nomatch h.symm.trans hw
    · exact absurd hlt (Nat.not_lt.mpr hge)

/-- A worker that had not failed goes on. -/
theorem Reported.goto (h : Reported n size p) (hold : ∀ e, p.workers w ≠ .failed e)
    (hfailed : ∀ e, s ≠ .failed e) (hstopping : s = .stopping → p.firstError ≠ none)
    (hreturned : s = .returned → p.firstError ≠ none ∨ n ≤ p.next) : Reported n size (p.goto w s) := by
  obtain ⟨hblamed, hfail, hkept, hstopped, hflag, hreturn⟩ := h
  refine ⟨hblamed, ?_, ?_, ?_, hflag, ?_⟩
  · intro w' e hw'
    by_cases heq : w' = w
    · rw [heq, workers_goto_self] at hw'
      exact absurd hw' (hfailed e)
    · exact hfail w' e ((workers_goto_of_ne heq).symm.trans hw')
  · intro i e hi
    rcases hkept i e hi with hsome | ⟨w', e', hw'⟩
    · exact .inl hsome
    · have hne : w' ≠ w := fun heq => hold e' (heq ▸ hw')
      exact .inr ⟨w', e', (workers_goto_of_ne hne).trans hw'⟩
  · intro w' hw'
    by_cases heq : w' = w
    · rw [heq, workers_goto_self] at hw'
      exact hstopping hw'
    · exact hstopped w' ((workers_goto_of_ne heq).symm.trans hw')
  · intro w' hlt hw'
    by_cases heq : w' = w
    · rw [heq, workers_goto_self] at hw'
      exact hreturned hw'
    · exact hreturn w' hlt ((workers_goto_of_ne heq).symm.trans hw')

/-- Once there is a first error, everything is accounted for. -/
theorem Reported.of_firstError {p' : Pool ε} (h : Reported n size p) (hsome : p'.firstError ≠ none)
    (hblamed : ∀ e, p'.firstError = some e → ∃ i, (i, some e) ∈ p.executed)
    (hexecuted : p'.executed = p.executed)
    (hfailed : ∀ w e, p'.workers w = .failed e → p.workers w = .failed e) : Reported n size p' where
  blamed e he := hexecuted ▸ hblamed e he
  failed w e hw := hexecuted ▸ h.failed w e (hfailed w e hw)
  kept _ _ _ := .inl hsome
  stopping _ _ := hsome
  stopped _ := hsome
  returned _ _ _ := .inl hsome

/-- The task of a worker ends with an OK status. -/
theorem Reported.succeed (h : Reported n size p) (hw : p.workers w = .executing i) :
    Reported n size { p.goto w .looping with executed := p.executed ++ [(i, none)] } := by
  have hgo : Reported n size (p.goto w .looping) := by
    apply h.goto
    · exact fun e heq => nomatch hw.symm.trans heq
    · exact fun e heq => nomatch heq
    · exact fun heq => nomatch heq
    · exact fun heq => nomatch heq
  obtain ⟨hblamed, hfail, hkept, hstopped, hflag, hreturn⟩ := hgo
  refine ⟨?_, ?_, ?_, hstopped, hflag, hreturn⟩
  · exact fun e he => (hblamed e he).imp fun j hj => List.mem_append_left _ hj
  · exact fun w' e hw' => (hfail w' e hw').imp fun j hj => List.mem_append_left _ hj
  · intro j e hj
    rcases List.mem_append.mp hj with hj | hj
    · exact hkept j e hj
    · exact nomatch List.mem_singleton.mp hj

/-- The task of a worker ends with another status, which the worker has yet to report. -/
theorem Reported.fail (h : Reported n size p) (w i : ℕ) (e : ε) :
    Reported n size { p.goto w (.failed e) with executed := p.executed ++ [(i, some e)] } := by
  obtain ⟨hblamed, hfail, hkept, hstopped, hflag, hreturn⟩ := h
  have hself : (p.goto w (.failed e)).workers w = .failed e := workers_goto_self
  refine ⟨?_, ?_, ?_, ?_, hflag, ?_⟩
  · exact fun e' he => (hblamed e' he).imp fun j hj => List.mem_append_left _ hj
  · intro w' e' hw'
    by_cases heq : w' = w
    · rw [heq] at hw'
      cases hself.symm.trans hw'
      exact ⟨i, List.mem_append_right _ (List.mem_singleton_self _)⟩
    · obtain ⟨j, hj⟩ := hfail w' e' ((workers_goto_of_ne heq).symm.trans hw')
      exact ⟨j, List.mem_append_left _ hj⟩
  · exact fun _ _ _ => .inr ⟨w, e, hself⟩
  · intro w' hw'
    by_cases heq : w' = w
    · rw [heq] at hw'
      exact nomatch hself.symm.trans hw'
    · exact hstopped w' ((workers_goto_of_ne heq).symm.trans hw')
  · intro w' hlt hw'
    by_cases heq : w' = w
    · rw [heq] at hw'
      exact nomatch hself.symm.trans hw'
    · exact hreturn w' hlt ((workers_goto_of_ne heq).symm.trans hw')

theorem failed_goto (hs : ∀ e, s ≠ .failed e) {w' : ℕ} (h : (p.goto w s).workers w' = .failed e) :
    p.workers w' = .failed e := by
  by_cases heq : w' = w
  · rw [heq, workers_goto_self] at h
    exact absurd h (hs e)
  · exact (workers_goto_of_ne heq).symm.trans h

theorem Reported.report (h : Reported n size p) (hw : p.workers w = .failed e) :
    Reported n size (p.report w e) := by
  rw [Pool.report]
  split
  · apply h.of_firstError
    · exact fun hnone => nomatch hnone
    · intro e' he
      cases he
      exact h.failed w e hw
    · rfl
    · exact fun w' e' => failed_goto (s := Worker.stopping) fun e' heq => nomatch heq
  · next e' hsome =>
    apply h.of_firstError
    · exact fun hnone => nomatch hsome.symm.trans hnone
    · exact h.blamed
    · rfl
    · exact fun w' e' => failed_goto (s := Worker.returned) fun e' heq => nomatch heq

/-- The counter has moved on. -/
theorem Reported.advance (h : Reported n size p) {next : ℕ} (hle : p.next ≤ next) (started : List ℕ) :
    Reported n size { p with next := next, started := started } :=
  { h with returned := fun w hlt hw => (h.returned w hlt hw).imp_right (Nat.le_trans · hle) }

theorem reported_step (p : Pool ε) (turn : Turn ε) (h : Reported n size p) :
    Reported n size (p.step n turn) := by
  rw [Pool.step]
  dsimp only
  cases hw : p.workers turn.worker with
  | looping =>
    apply h.goto
    · exact fun e heq => nomatch hw.symm.trans heq
    · intro e
      split
      · exact fun heq => nomatch heq
      · exact fun heq => nomatch heq
    · split
      · exact fun heq => nomatch heq
      · exact fun heq => nomatch heq
    · split
      · next hstop => exact fun _ => .inl (h.stopped hstop)
      · exact fun heq => nomatch heq
  | fetching =>
    have hold : ∀ e, p.workers turn.worker ≠ .failed e := fun e heq => nomatch hw.symm.trans heq
    dsimp only
    split
    · next hlt =>
      apply (h.advance (Nat.le_succ _) (p.started ++ [p.next])).goto hold
      · exact fun e heq => nomatch heq
      · exact fun heq => nomatch heq
      · exact fun heq => nomatch heq
    · next hge =>
      apply (h.advance (Nat.le_succ _) p.started).goto hold
      · exact fun e heq => nomatch heq
      · exact fun heq => nomatch heq
      · exact fun _ => .inr (Nat.le_succ_of_le (Nat.le_of_not_lt hge))
  | executing i =>
    cases turn.outcome with
    | none => exact h.succeed hw
    | some e => exact h.fail turn.worker i e
  | failed e => exact h.report hw
  | stopping =>
    apply h.of_firstError
    · exact h.stopping turn.worker hw
    · exact h.blamed
    · rfl
    · exact fun w' e => failed_goto (s := Worker.returned) fun e heq => nomatch heq
  | returned => exact h

/-! ## Runs -/

theorem taken_run (n size : ℕ) (turns : List (Turn ε)) :
    Taken n (run (Pool.step n) (Pool.start size) turns) :=
  run_rule taken_step (taken_start n size) turns

theorem reported_run (n size : ℕ) (turns : List (Turn ε)) :
    Reported n size (run (Pool.step n) (Pool.start size) turns) :=
  run_rule reported_step (reported_start n size) turns

theorem workers_step_of_ne {turn : Turn ε} {w' : ℕ} (h : w' ≠ turn.worker) :
    (p.step n turn).workers w' = p.workers w' := by
  rw [Pool.step]
  dsimp only
  cases p.workers turn.worker with
  | looping => exact workers_goto_of_ne h
  | fetching =>
    dsimp only
    split
    · exact workers_goto_of_ne h
    · exact workers_goto_of_ne h
  | executing i => exact workers_goto_of_ne h
  | failed e =>
    dsimp only
    rw [Pool.report]
    split
    · exact workers_goto_of_ne h
    · exact workers_goto_of_ne h
  | stopping => exact workers_goto_of_ne h
  | returned => rfl

/-- There are no workers but those of the pool. -/
def Outside (size : ℕ) (p : Pool ε) : Prop := ∀ w ≥ size, p.workers w = .returned

theorem outside_step (p : Pool ε) (turn : Turn ε) (h : Outside size p) :
    Outside size (p.step n turn) := by
  intro w hge
  have hold := h w hge
  by_cases heq : w = turn.worker
  · rw [Pool.step, ← heq, hold]
    exact hold
  · rw [workers_step_of_ne heq]
    exact hold

theorem outside_start (size : ℕ) : Outside size (Pool.start size : Pool ε) := by
  intro w hge
  exact if_neg (Nat.not_lt.mpr hge)

theorem returned_of_joined (hj : p.Joined size) (hout : Outside size p) (w : ℕ) :
    p.workers w = .returned := by
  rcases Nat.lt_or_ge w size with hlt | hge
  · exact hj w hlt
  · exact hout w hge

/-- What a call has executed when it returns this status. -/
structure Outcome (n : ℕ) (executed : List (ℕ × Option ε)) (status : Option ε) : Prop where
  once : (executed.map Prod.fst).Nodup
  tasks : ∀ x ∈ executed, x.1 < n
  all : status = none → ∀ i < n, (i, none) ∈ executed
  failed_iff : status ≠ none ↔ ∃ i e, (i, some e) ∈ executed
  theirs : ∀ e, status = some e → ∃ i, (i, some e) ∈ executed

/-- The workers return on an error or when there are no tasks left. -/
theorem outcome_of_joined (htaken : Taken n p) (hreported : Reported n size p)
    (hout : Outside size p) (hj : p.Joined size) (hpos : 0 < size) :
    Outcome n p.executed p.firstError := by
  have hfailed : (∃ i e, (i, some e) ∈ p.executed) → p.firstError ≠ none := by
    intro ⟨i, e, hi⟩
    rcases hreported.kept i e hi with hsome | ⟨w, e', hw⟩
    · exact hsome
    · exact nomatch (returned_of_joined hj hout w).symm.trans hw
  refine ⟨htaken.once, ?_, ?_, ?_, hreported.blamed⟩
  · exact fun x hx => Nat.lt_of_lt_of_le (htaken.executed_lt x hx) (Nat.min_le_right _ _)
  · intro hnone i hi
    have hnext : n ≤ p.next := (hreported.returned 0 hpos (hj 0 hpos)).resolve_left fun h => h hnone
    rcases htaken.covered i (Nat.lt_min.mpr ⟨Nat.lt_of_lt_of_le hi hnext, hi⟩) with ⟨o, ho⟩ | ⟨w, hw⟩
    · cases o with
      | none => exact ho
      | some e => exact absurd hnone (hfailed ⟨i, e, ho⟩)
    · exact nomatch (returned_of_joined hj hout w).symm.trans hw
  · constructor
    · intro hsome
      obtain ⟨e, he⟩ := Option.ne_none_iff_exists'.mp hsome
      obtain ⟨i, hi⟩ := hreported.blamed e he
      exact ⟨i, e, hi⟩
    · exact hfailed

/-- The thread of the caller executes the tasks in order. -/
theorem serial_spec (outcome : ℕ → Option ε) (i k : ℕ) :
    ((serial outcome i k).1.map Prod.fst).Nodup ∧
      (∀ x ∈ (serial outcome i k).1, i ≤ x.1 ∧ x.1 < i + k) ∧
      ((serial outcome i k).2 = none → ∀ j, i ≤ j → j < i + k → (j, none) ∈ (serial outcome i k).1) ∧
      ((serial outcome i k).2 = none → ∀ x ∈ (serial outcome i k).1, x.2 = none) ∧
      ∀ e, (serial outcome i k).2 = some e → ∃ j, (j, some e) ∈ (serial outcome i k).1 := by
  induction k generalizing i with
  | zero =>
    refine ⟨List.nodup_nil, ?_, ?_, ?_, ?_⟩
    · exact fun x hx => nomatch hx
    · exact fun _ j hle hlt => absurd hlt (Nat.not_lt.mpr hle)
    · exact fun _ x hx => nomatch hx
    · exact fun e he => nomatch he
  | succ k ih =>
    obtain ⟨honce, hbounds, hall, hnone, htheirs⟩ := ih (i + 1)
    rw [serial]
    cases ho : outcome i with
    | some e =>
      refine ⟨List.nodup_singleton i, ?_, ?_, ?_, ?_⟩
      · intro x hx
        rw [List.mem_singleton.mp hx]
        exact ⟨Nat.le_refl i, Nat.lt_add_of_pos_right (Nat.succ_pos k)⟩
      · exact fun h => nomatch h
      · exact fun h => nomatch h
      · intro e' he
        cases he
        exact ⟨i, List.mem_singleton_self _⟩
    | none =>
      refine ⟨?_, ?_, ?_, ?_, ?_⟩
      · apply List.nodup_cons.mpr
        refine ⟨?_, honce⟩
        intro hmem
        obtain ⟨x, hx, heq⟩ := List.mem_map.mp hmem
        have hle := (hbounds x hx).1
        omega
      · intro x hx
        rcases List.mem_cons.mp hx with rfl | hx
        · exact ⟨Nat.le_refl i, Nat.lt_add_of_pos_right (Nat.succ_pos k)⟩
        · have hx' := hbounds x hx
          omega
      · intro h j hle hlt
        rcases Nat.eq_or_lt_of_le hle with rfl | hlt'
        · exact List.mem_cons_self
        · apply List.mem_cons_of_mem
          apply hall h j hlt'
          omega
      · intro h x hx
        rcases List.mem_cons.mp hx with rfl | hx
        · rfl
        · exact hnone h x hx
      · exact fun e he => (htheirs e he).imp fun j hj => List.mem_cons_of_mem _ hj

theorem outcome_serial (outcome : ℕ → Option ε) (n : ℕ) :
    Outcome n (serial outcome 0 n).1 (serial outcome 0 n).2 := by
  obtain ⟨honce, hbounds, hall, hnone, htheirs⟩ := serial_spec outcome 0 n
  rw [Nat.zero_add] at hbounds hall
  refine ⟨honce, fun x hx => (hbounds x hx).2, fun h i => hall h i (Nat.zero_le i), ?_, htheirs⟩
  constructor
  · intro hsome
    obtain ⟨e, he⟩ := Option.ne_none_iff_exists'.mp hsome
    obtain ⟨i, hi⟩ := htheirs e he
    exact ⟨i, e, hi⟩
  · intro ⟨i, e, hi⟩ h
    exact nomatch hnone h _ hi

theorem outcome_of_returns {executed : List (ℕ × Option ε)} {status : Option ε} {workers : ℕ}
    (h : Returns n workers executed status) : Outcome n executed status := by
  cases h with
  | empty h =>
    rw [h]
    refine ⟨List.nodup_nil, ?_, ?_, ?_, ?_⟩
    · exact fun x hx => nomatch hx
    · exact fun _ i hi => absurd hi (Nat.not_lt_zero i)
    · exact iff_of_false (fun h => h rfl) fun ⟨i, e, hi⟩ => nomatch hi
    · exact fun e he => nomatch he
  | serial hn h outcome => exact outcome_serial outcome n
  | pool hn h turns hj =>
    exact outcome_of_joined (taken_run n _ turns) (reported_run n _ turns)
      (run_rule outside_step (outside_start _) turns) hj (Nat.lt_of_succ_lt h)

/-! ## Turns -/

/-- A bound on the turns of a worker, but for three turns for every task there still is. -/
def Worker.left : Worker ε → ℕ
  | .looping => 4
  | .fetching => 3
  | .executing _ => 5
  | .failed _ => 2
  | .stopping => 1
  | .returned => 0

/-- The most turns the workers can take. -/
def Pool.left (n size : ℕ) (p : Pool ε) : ℕ :=
  3 * (n - p.next) + ∑ w ∈ Finset.range size, (p.workers w).left

/-- It is the turn of a worker of the pool that has not returned. -/
def Busy (size : ℕ) (p : Pool ε) (turn : Turn ε) : Prop :=
  turn.worker < size ∧ p.workers turn.worker ≠ .returned

instance [DecidableEq ε] (size : ℕ) (p : Pool ε) (turn : Turn ε) : Decidable (Busy size p turn) :=
  inferInstanceAs (Decidable (_ ∧ _))

theorem sum_left_goto (hw : w < size) (p : Pool ε) (s : Worker ε) :
    ∑ x ∈ Finset.range size, ((p.goto w s).workers x).left + (p.workers w).left =
      ∑ x ∈ Finset.range size, (p.workers x).left + s.left := by
  have hmem : w ∈ Finset.range size := Finset.mem_range.mpr hw
  have hrest : ∑ x ∈ (Finset.range size).erase w, ((p.goto w s).workers x).left =
      ∑ x ∈ (Finset.range size).erase w, (p.workers x).left := by
    apply Finset.sum_congr rfl
    intro x hx
    rw [workers_goto_of_ne (Finset.ne_of_mem_erase hx)]
  rw [← Finset.add_sum_erase _ _ hmem, ← Finset.add_sum_erase _ (fun x => (p.workers x).left) hmem,
    hrest, workers_goto_self]
  omega

theorem left_step_lt {turn : Turn ε} (h : Busy size p turn) :
    (p.step n turn).left n size < p.left n size := by
  obtain ⟨hlt, hbusy⟩ := h
  have hgo : ∀ s : Worker ε, s.left < (p.workers turn.worker).left →
      (p.goto turn.worker s).left n size < p.left n size := by
    intro s hs
    have hsum := sum_left_goto hlt p s
    dsimp only [Pool.left]
    have hnext : (p.goto turn.worker s).next = p.next := rfl
    omega
  rw [Pool.step]
  dsimp only
  cases hw : p.workers turn.worker with
  | looping =>
    apply hgo
    rw [hw]
    split
    · exact Nat.succ_pos 3
    · exact Nat.lt_succ_self 3
  | fetching =>
    dsimp only
    split
    · next hnext =>
      have hsum := sum_left_goto hlt p (.executing p.next)
      rw [hw] at hsum
      have hleft : (Worker.executing p.next : Worker ε).left = Worker.fetching.left (ε := ε) + 2 := rfl
      dsimp only [Pool.left]
      omega
    · next hnext =>
      have hsum := sum_left_goto hlt p .returned
      rw [hw] at hsum
      have hleft : (Worker.fetching : Worker ε).left = Worker.returned.left (ε := ε) + 3 := rfl
      dsimp only [Pool.left]
      omega
  | executing i =>
    apply hgo
    rw [hw]
    split
    · exact Nat.lt_succ_self 4
    · exact Nat.lt_add_of_pos_right (Nat.succ_pos 2)
  | failed e =>
    dsimp only
    rw [Pool.report]
    split
    · apply hgo .stopping
      rw [hw]
      exact Nat.lt_succ_self 1
    · apply hgo
      rw [hw]
      exact Nat.succ_pos 1
  | stopping =>
    apply hgo .returned
    rw [hw]
    exact Nat.succ_pos 0
  | returned => exact absurd hw hbusy

/-- However the tasks end and the workers take turns, they return after finitely many. -/
theorem length_add_left_le {turns : List (Turn ε)} (h : Guarded (Pool.step n) (Busy size) p turns) :
    turns.length + (run (Pool.step n) p turns).left n size ≤ p.left n size := by
  induction turns generalizing p with
  | nil => exact Nat.le_of_eq (Nat.zero_add _)
  | cons turn turns ih =>
    have hstep := left_step_lt (n := n) h.1
    have hrest := ih h.2
    rw [List.length_cons, run]
    omega

theorem left_start (n size : ℕ) : (Pool.start size : Pool ε).left n size = 3 * n + 4 * size := by
  have hleft : ∀ w ∈ Finset.range size, ((Pool.start size : Pool ε).workers w).left = 4 := by
    intro w hw
    have hw : (Pool.start size : Pool ε).workers w = .looping := if_pos (Finset.mem_range.mp hw)
    rw [hw]
    rfl
  rw [Pool.left, Finset.sum_const_nat hleft, Finset.card_range, Nat.mul_comm size]
  rfl

/-- For any number of workers, any tasks and any interleaving of the workers: no task is begun
twice, the workers return after finitely many turns, and what a call returns is the outcome of
what it has executed. -/
theorem materializeTaskPool_outcome (n workers : ℕ) :
    (∀ turns : List (Turn ε),
      (run (Pool.step n) (Pool.start (poolSize n workers)) turns).started.Nodup) ∧
    (∀ turns : List (Turn ε),
      Guarded (Pool.step n) (Busy (poolSize n workers)) (Pool.start (poolSize n workers)) turns →
        turns.length ≤ 3 * n + 4 * poolSize n workers) ∧
    ∀ (executed : List (ℕ × Option ε)) (status : Option ε),
      Returns n workers executed status → Outcome n executed status := by
  refine ⟨?_, ?_, fun executed status h => outcome_of_returns h⟩
  · intro turns
    rw [(taken_run n _ turns).started]
    exact List.nodup_range
  · intro turns h
    have hle := length_add_left_le h
    rw [left_start] at hle
    omega

/-- Two workers take two tasks; the second fails before the first has ended. -/
def twoTasks : List (Turn ℕ) :=
  [⟨0, none⟩, ⟨0, none⟩, ⟨1, none⟩, ⟨1, none⟩, ⟨1, some 7⟩, ⟨1, none⟩, ⟨0, none⟩, ⟨1, none⟩,
    ⟨0, none⟩]

theorem materializeTaskPool_outcome_two :
    (run (Pool.step 2) (Pool.start (poolSize 2 4)) twoTasks).started.Nodup ∧
      twoTasks.length ≤ 3 * 2 + 4 * poolSize 2 4 ∧
      Outcome 2 [(1, some 7), (0, none)] (some 7) := by
  obtain ⟨hnodup, hlength, houtcome⟩ := materializeTaskPool_outcome (ε := ℕ) 2 4
  refine ⟨hnodup twoTasks, hlength twoTasks ?_, houtcome _ _ ?_⟩
  · decide
  · apply Returns.pool (by decide) (by decide) twoTasks
    decide

end ZeroFlush.PoolOutcomes
