import Mathlib.Data.List.Pairwise
import Mathlib.Data.List.Sort

/-! # Merging sorted runs

The merge takes in every round the least head of the runs, the first of them among equals. It is
the stable sort of the runs one after the other. -/
namespace ZeroFlush.RunMerging

variable {α : Type*}

/-- The least head of the runs, and what is left without it. -/
def takeLeast (le : α → α → Bool) : List (List α) → Option (α × List (List α))
  | [] => none
  | [] :: runs => (takeLeast le runs).map fun p => (p.1, [] :: p.2)
  | (x :: xs) :: runs =>
    match takeLeast le runs with
    | none => some (x, xs :: runs)
    | some (y, rest) => if le x y then some (x, xs :: runs) else some (y, (x :: xs) :: rest)

def mergeLoop (le : α → α → Bool) : ℕ → List (List α) → List α
  | 0, _ => []
  | rounds + 1, runs =>
    match takeLeast le runs with
    | none => []
    | some (x, rest) => x :: mergeLoop le rounds rest

/-- Every round takes one element. -/
def mergeRuns (le : α → α → Bool) (runs : List (List α)) : List α :=
  mergeLoop le runs.flatten.length runs

/-- Two different elements of an ordered list are in order, one way or the other. -/
theorem rel_or_rel_of_pairwise {r : α → α → Prop} {l : List α} (h : l.Pairwise r)
    {a b : α} (ha : a ∈ l) (hb : b ∈ l) (hne : a ≠ b) : r a b ∨ r b a := by
  have : Std.Symm fun a b => r a b ∨ r b a := ⟨fun _ _ => Or.symm⟩
  have heither : l.Pairwise fun a b => r a b ∨ r b a := h.imp Or.inl
  exact heither.forall ha hb hne

variable {le : α → α → Bool} {runs : List (List α)}

theorem takeLeast_eq_none : takeLeast le runs = none ↔ runs.flatten = [] := by
  induction runs with
  | nil => exact ⟨fun _ => rfl, fun _ => rfl⟩
  | cons run runs ih =>
    cases run with
    | nil => simpa [takeLeast] using ih
    | cons x xs =>
      rw [takeLeast]
      cases takeLeast le runs with
      | none => simp
      | some p =>
        dsimp only
        split <;> simp

/-- An element that stands before its equals and is not greater than any comes first in the sorted
list. -/
theorem insertionSort_of_least {before after : List α} {x : α} (hbefore : ∀ a ∈ before, ¬ le a x)
    (hafter : ∀ a ∈ after, le x a) :
    (before ++ x :: after).insertionSort (fun a b => le a b) =
      x :: (before ++ after).insertionSort (fun a b => le a b) := by
  induction before with
  | nil => exact List.insertionSort_cons_of_forall_rel _ hafter
  | cons a before ih =>
    rw [List.cons_append, List.insertionSort_cons, ih fun b hb => hbefore b (List.mem_cons_of_mem _ hb),
      List.orderedInsert_cons, if_neg (hbefore a List.mem_cons_self), List.cons_append,
      List.insertionSort_cons]

section Preorder

variable [Std.Total fun a b => le a b = true] [IsTrans α fun a b => le a b = true]

/-- What is taken stands before everything it equals and is not greater than anything. -/
theorem takeLeast_spec (hruns : ∀ run ∈ runs, run.Pairwise fun a b => le a b) {x : α}
    {rest : List (List α)} (h : takeLeast le runs = some (x, rest)) :
    (∀ run ∈ rest, run.Pairwise fun a b => le a b) ∧ ∃ before after,
      runs.flatten = before ++ x :: after ∧ rest.flatten = before ++ after ∧
        (∀ a ∈ before, ¬ le a x) ∧ ∀ a ∈ after, le x a := by
  induction runs generalizing x rest with
  | nil => cases h
  | cons run runs ih =>
    have hsorted := fun run hrun => hruns run (List.mem_cons_of_mem _ hrun)
    cases run with
    | nil =>
      rw [takeLeast] at h
      obtain ⟨⟨y, rest'⟩, hy, heq⟩ := Option.map_eq_some_iff.mp h
      cases heq
      obtain ⟨hrest, before, after, hflat, hleft, hbefore, hafter⟩ := ih hsorted hy
      refine ⟨?_, before, after, hflat, hleft, hbefore, hafter⟩
      intro run hrun
      obtain rfl | hrun := List.mem_cons.mp hrun
      · exact List.Pairwise.nil
      · exact hrest run hrun
    | cons z zs =>
      have hz := List.pairwise_cons.mp (hruns (z :: zs) List.mem_cons_self)
      have htakes : (∀ a ∈ runs.flatten, le z a) → x = z → rest = zs :: runs →
          (∀ run ∈ rest, run.Pairwise fun a b => le a b) ∧ ∃ before after,
            ((z :: zs) :: runs).flatten = before ++ x :: after ∧
              rest.flatten = before ++ after ∧ (∀ a ∈ before, ¬ le a x) ∧ ∀ a ∈ after, le x a := by
        rintro hle rfl rfl
        refine ⟨?_, [], zs ++ runs.flatten, rfl, rfl, fun a ha => absurd ha List.not_mem_nil, ?_⟩
        · intro run hrun
          obtain rfl | hrun := List.mem_cons.mp hrun
          · exact hz.2
          · exact hsorted run hrun
        · intro a ha
          obtain ha | ha := List.mem_append.mp ha
          · exact hz.1 a ha
          · exact hle a ha
      rw [takeLeast] at h
      cases hrest : takeLeast le runs with
      | none =>
        rw [hrest] at h
        cases h
        refine htakes ?_ rfl rfl
        rw [takeLeast_eq_none.mp hrest]
        exact fun a ha => absurd ha List.not_mem_nil
      | some p =>
        obtain ⟨y, rest'⟩ := p
        rw [hrest] at h
        obtain ⟨hsorted', before, after, hflat, hleft, hbefore, hafter⟩ := ih hsorted hrest
        have hleast : ∀ a ∈ runs.flatten, le y a := by
          intro a ha
          rw [hflat, List.mem_append, List.mem_cons] at ha
          obtain ha | rfl | ha := ha
          · exact (total_of (fun a b => le a b = true) y a).resolve_right (hbefore a ha)
          · exact refl_of (fun a b => le a b = true) a
          · exact hafter a ha
        dsimp only at h
        split at h
        next hzy =>
          cases h
          exact htakes (fun a ha => trans_of (fun a b => le a b = true) hzy (hleast a ha)) rfl rfl
        next hzy =>
          cases h
          refine ⟨?_, z :: zs ++ before, after, ?_, ?_, ?_, hafter⟩
          · intro run hrun
            obtain rfl | hrun := List.mem_cons.mp hrun
            · exact hruns _ List.mem_cons_self
            · exact hsorted' run hrun
          · rw [List.flatten_cons, hflat, List.append_assoc]
          · rw [List.flatten_cons, hleft, List.append_assoc]
          · intro a ha hax
            obtain ha | ha := List.mem_append.mp ha
            · refine hzy ?_
              obtain rfl | ha := List.mem_cons.mp ha
              · exact hax
              · exact trans_of (fun a b => le a b = true) (hz.1 a ha) hax
            · exact hbefore a ha hax

theorem mergeLoop_eq {rounds : ℕ} (hruns : ∀ run ∈ runs, run.Pairwise fun a b => le a b)
    (h : runs.flatten.length = rounds) :
    mergeLoop le rounds runs = runs.flatten.insertionSort fun a b => le a b := by
  induction rounds generalizing runs with
  | zero =>
    rw [List.length_eq_zero_iff.mp h]
    rfl
  | succ rounds ih =>
    rw [mergeLoop]
    cases htake : takeLeast le runs with
    | none =>
      rw [takeLeast_eq_none.mp htake]
      rfl
    | some p =>
      obtain ⟨x, rest⟩ := p
      obtain ⟨hsorted, before, after, hflat, hleft, hbefore, hafter⟩ := takeLeast_spec hruns htake
      have hlen : rest.flatten.length = rounds := by
        rw [hflat] at h
        rw [hleft]
        simp only [List.length_append, List.length_cons] at h ⊢
        omega
      dsimp only
      rw [ih hsorted hlen, hflat, insertionSort_of_least hbefore hafter, hleft]

/-- The merge of sorted runs is the stable sort of all of them. -/
theorem mergeRuns_eq (hruns : ∀ run ∈ runs, run.Pairwise fun a b => le a b) :
    mergeRuns le runs = runs.flatten.insertionSort fun a b => le a b :=
  mergeLoop_eq hruns rfl

/-- Two insertions of different keys can be exchanged. -/
theorem orderedInsert_comm {a b : α} (h : ¬ le a b) (l : List α) :
    (l.orderedInsert (fun a b => le a b) a).orderedInsert (fun a b => le a b) b =
      (l.orderedInsert (fun a b => le a b) b).orderedInsert (fun a b => le a b) a := by
  have hba : le b a = true := (total_of (fun a b => le a b = true) a b).resolve_left h
  induction l with
  | nil => simp [h, hba]
  | cons c l ih =>
    rw [List.orderedInsert_cons, List.orderedInsert_cons]
    by_cases hac : le a c = true
    · have hbc : le b c = true := trans_of (fun a b => le a b = true) hba hac
      simp [hac, hbc, hba, h]
    · by_cases hbc : le b c = true
      · simp [hac, hbc, h]
      · simp [hac, hbc, ih]

/-- Sorting a part first changes nothing. -/
theorem insertionSort_append_sorted (l rest : List α) :
    (l.insertionSort (fun a b => le a b) ++ rest).insertionSort (fun a b => le a b) =
      (l ++ rest).insertionSort fun a b => le a b := by
  have hinsert : ∀ (a : α) (s : List α),
      (s.orderedInsert (fun a b => le a b) a ++ rest).insertionSort (fun a b => le a b) =
        ((s ++ rest).insertionSort fun a b => le a b).orderedInsert (fun a b => le a b) a := by
    intro a s
    induction s with
    | nil => rfl
    | cons b s ih =>
      rw [List.orderedInsert_cons]
      split
      · rfl
      next hab =>
        rw [List.cons_append, List.insertionSort_cons, ih, orderedInsert_comm hab]
        rfl
  induction l with
  | nil => rfl
  | cons a l ih => rw [List.insertionSort_cons, hinsert, ih, List.cons_append, List.insertionSort_cons]

/-- Sorting every run first changes nothing. -/
theorem insertionSort_flatMap_sorted {β : Type*} (f : β → List α) (bs : List β) :
    (bs.flatMap fun b => (f b).insertionSort fun a b => le a b).insertionSort (fun a b => le a b) =
      (bs.flatMap f).insertionSort fun a b => le a b := by
  induction bs with
  | nil => rfl
  | cons b bs ih =>
    rw [List.flatMap_cons, List.flatMap_cons, insertionSort_append_sorted]
    exact (List.foldr_append ..).trans ((congrArg (fun s => List.foldr _ s (f b)) ih).trans
      (List.foldr_append ..).symm)

end Preorder

end ZeroFlush.RunMerging
