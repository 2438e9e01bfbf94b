import Mathlib.Algebra.BigOperators.Fin
import Mathlib.Data.List.Pairwise

/-! # Merging from several sources

The elements are taken one by one, each from the front of its source. -/
namespace ZeroFlush.SourceMerges

variable {ι α : Type*} [DecidableEq ι]

/-- What is taken until all sources are empty, and from where: `r` holds between an element and all
that are left behind it. -/
inductive Merged (r : α → α → Prop) : (ι → List α) → List (ι × α) → Prop
  | done {src : ι → List α} (h : ∀ i, src i = []) : Merged r src []
  | take {src : ι → List α} {i : ι} {a : α} {rest : List α} {taken : List (ι × α)}
      (hfront : src i = a :: rest) (hfirst : ∀ j, ∀ b ∈ Function.update src i rest j, r a b)
      (hrest : Merged r (Function.update src i rest) taken) : Merged r src ((i, a) :: taken)

variable {r : α → α → Prop} {src : ι → List α} {taken : List (ι × α)} {i : ι} {a b : α}
  {rest : List α}

theorem exists_mem_update_iff (hfront : src i = a :: rest) :
    (∃ j, b ∈ src j) ↔ b = a ∨ ∃ j, b ∈ Function.update src i rest j := by
  constructor
  · intro ⟨j, hb⟩
    by_cases hj : j = i
    · subst hj
      rw [hfront] at hb
      apply (List.mem_cons.mp hb).imp_right
      intro hb
      exact ⟨j, by rwa [Function.update_self]⟩
    · exact .inr ⟨j, by rwa [Function.update_of_ne hj]⟩
  · rintro (rfl | ⟨j, hb⟩)
    · exact ⟨i, hfront ▸ List.mem_cons_self⟩
    · by_cases hj : j = i
      · subst hj
        rw [Function.update_self] at hb
        exact ⟨j, hfront ▸ List.mem_cons_of_mem a hb⟩
      · rw [Function.update_of_ne hj] at hb
        exact ⟨j, hb⟩

/-- Everything is taken, and nothing else. -/
theorem Merged.mem_iff (h : Merged r src taken) : b ∈ taken.map Prod.snd ↔ ∃ i, b ∈ src i := by
  induction h with
  | done h =>
    apply iff_of_false List.not_mem_nil
    intro ⟨i, hb⟩
    rw [h i] at hb
    exact List.not_mem_nil hb
  | take hfront hfirst hrest ih =>
    rw [List.map_cons, List.mem_cons, ih, exists_mem_update_iff hfront]

/-- What is taken is in order. -/
theorem Merged.pairwise (h : Merged r src taken) : (taken.map Prod.snd).Pairwise r := by
  induction h with
  | done h => exact List.Pairwise.nil
  | take hfront hfirst hrest ih =>
    rw [List.map_cons, List.pairwise_cons]
    refine ⟨?_, ih⟩
    intro b hb
    obtain ⟨j, hj⟩ := hrest.mem_iff.mp hb
    exact hfirst j b hj

section Fintype
variable [Fintype ι]

theorem sum_length_update (hfront : src i = a :: rest) :
    ∑ j, (src j).length = ∑ j, (Function.update src i rest j).length + 1 := by
  rw [← Finset.add_sum_erase _ _ (Finset.mem_univ i), hfront,
    ← Finset.add_sum_erase _ (fun j => (Function.update src i rest j).length) (Finset.mem_univ i),
    Function.update_self, List.length_cons]
  have hothers : ∑ j ∈ Finset.univ.erase i, (src j).length =
      ∑ j ∈ Finset.univ.erase i, (Function.update src i rest j).length := by
    apply Finset.sum_congr rfl
    intro j hj
    rw [Function.update_of_ne (Finset.ne_of_mem_erase hj)]
  omega

theorem Merged.length_eq (h : Merged r src taken) : taken.length = ∑ i, (src i).length := by
  induction h with
  | done h =>
    symm
    apply Finset.sum_eq_zero
    intro i _
    rw [h i]
    rfl
  | take hfront hfirst hrest ih => rw [List.length_cons, ih, sum_length_update hfront]

end Fintype

end ZeroFlush.SourceMerges
