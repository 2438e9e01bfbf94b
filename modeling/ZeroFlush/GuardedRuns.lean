import Mathlib.Data.List.Basic

/-! # Runs of a deterministic system whose steps meet a condition -/
namespace ZeroFlush.GuardedRuns

variable {σ ι : Type*}

def run (step : σ → ι → σ) : σ → List ι → σ
  | s, [] => s
  | s, a :: as => run step (step s a) as

/-- Every step of the run meets `ok` in the state it is taken in. -/
def Guarded (step : σ → ι → σ) (ok : σ → ι → Prop) : σ → List ι → Prop
  | _, [] => True
  | s, a :: as => ok s a ∧ Guarded step ok (step s a) as

instance decidableGuarded (step : σ → ι → σ) (ok : σ → ι → Prop) [∀ s a, Decidable (ok s a)] :
    ∀ s as, Decidable (Guarded step ok s as)
  | _, [] => .isTrue trivial
  | s, a :: as =>
    have := decidableGuarded step ok (step s a) as
    inferInstanceAs (Decidable (ok s a ∧ Guarded step ok (step s a) as))

/-- The property holds in every state of the run. -/
def Always (step : σ → ι → σ) (P : σ → Prop) : σ → List ι → Prop
  | s, [] => P s
  | s, a :: as => P s ∧ Always step P (step s a) as

variable {step : σ → ι → σ} {ok : σ → ι → Prop}

theorem guarded_cons {s : σ} {a : ι} {as : List ι} :
    Guarded step ok s (a :: as) ↔ ok s a ∧ Guarded step ok (step s a) as := Iff.rfl

theorem always_cons {P : σ → Prop} {s : σ} {a : ι} {as : List ι} :
    Always step P s (a :: as) ↔ P s ∧ Always step P (step s a) as := Iff.rfl

theorem run_append (s : σ) (as bs : List ι) :
    run step s (as ++ bs) = run step (run step s as) bs := by
  induction as generalizing s with
  | nil => rfl
  | cons a as ih => exact ih (step s a)

theorem guarded_append {s : σ} {as bs : List ι} :
    Guarded step ok s (as ++ bs) ↔ Guarded step ok s as ∧ Guarded step ok (run step s as) bs := by
  induction as generalizing s with
  | nil => exact (and_iff_right trivial).symm
  | cons a as ih =>
    rw [List.cons_append, guarded_cons, ih, guarded_cons, and_assoc]
    rfl

/-- What every guarded step preserves holds at the end of every guarded run. -/
theorem invariant_run {inv : σ → Prop} (hstep : ∀ s a, ok s a → inv s → inv (step s a))
    {s : σ} {as : List ι} (hs : inv s) (hg : Guarded step ok s as) : inv (run step s as) := by
  induction as generalizing s with
  | nil => exact hs
  | cons a as ih => exact ih (hstep s a hg.1 hs) hg.2

/-- What every step preserves holds at the end of every run. -/
theorem run_rule {inv : σ → Prop} (hstep : ∀ s a, inv s → inv (step s a)) {s : σ} (hs : inv s)
    (as : List ι) : inv (run step s as) := by
  induction as generalizing s with
  | nil => exact hs
  | cons a as ih => exact ih (hstep s a hs)

/-- Steps that lower a measure are bounded in number. -/
theorem length_le_measure {inv : σ → Prop} {measure : σ → ℕ}
    (hstep : ∀ s a, ok s a → inv s → inv (step s a) ∧ measure (step s a) < measure s) {s : σ}
    {as : List ι} (hs : inv s) (hg : Guarded step ok s as) : as.length ≤ measure s := by
  induction as generalizing s with
  | nil => exact Nat.zero_le _
  | cons a as ih =>
    obtain ⟨hinv, hlt⟩ := hstep s a hg.1 hs
    exact Nat.succ_le_of_lt (Nat.lt_of_le_of_lt (ih hinv hg.2) hlt)

theorem always_iff {P : σ → Prop} {s : σ} {as : List ι} :
    Always step P s as ↔ ∀ done, done <+: as → P (run step s done) := by
  induction as generalizing s with
  | nil =>
    constructor
    · intro h done hpre
      rw [List.prefix_nil.mp hpre]
      exact h
    · exact fun h => h [] (List.prefix_refl [])
  | cons a as ih =>
    rw [always_cons, ih]
    constructor
    · rintro ⟨hs, hrest⟩ done hpre
      cases done with
      | nil => exact hs
      | cons b done =>
        obtain ⟨rfl, htail⟩ := List.cons_prefix_cons.mp hpre
        exact hrest done htail
    · intro h
      refine ⟨h [] (List.nil_prefix), fun done hpre => h (a :: done) ?_⟩
      exact List.cons_prefix_cons.mpr ⟨rfl, hpre⟩

/-- What follows from an invariant of the guarded steps holds in every state of a guarded run. -/
theorem always_rule {inv P : σ → Prop} (hstep : ∀ s a, ok s a → inv s → inv (step s a))
    (hP : ∀ s, inv s → P s) {s : σ} {as : List ι} (hs : inv s) (hg : Guarded step ok s as) :
    Always step P s as := by
  apply always_iff.mpr
  rintro done ⟨rest, rfl⟩
  exact hP _ (invariant_run hstep hs (guarded_append.mp hg).1)

/-- A property that a step keeps exactly when it is guarded holds in all states of a run exactly
when the whole run is guarded. -/
theorem always_iff_guarded {inv P : σ → Prop} (hinv : ∀ s a, inv s → inv (step s a))
    (hstep : ∀ s a, inv s → P s → (P (step s a) ↔ ok s a)) {s : σ} {as : List ι} (hs : inv s)
    (hP : P s) : Always step P s as ↔ Guarded step ok s as := by
  induction as generalizing s with
  | nil => exact iff_of_true hP trivial
  | cons a as ih =>
    rw [always_cons, guarded_cons, and_iff_right hP, ← hstep s a hs hP]
    constructor
    · intro h
      have hnext : P (step s a) := always_iff.mp h [] List.nil_prefix
      exact ⟨hnext, (ih (hinv s a hs) hnext).mp h⟩
    · rintro ⟨hnext, h⟩
      exact (ih (hinv s a hs) hnext).mpr h

end ZeroFlush.GuardedRuns
