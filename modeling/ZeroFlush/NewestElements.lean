import Mathlib.Data.Set.Finite.Lemmas

/-! # The newest elements of a list

Elements belong to users and have ranks; of those of one user the one of the highest rank counts. -/
namespace ZeroFlush.NewestElements

variable {ε υ κ : Type*} [LinearOrder κ] (user : ε → υ) (rank : ε → κ)

/-- An element than which none of the same user ranks higher. -/
def NewestOf (l : List ε) (e : ε) : Prop := e ∈ l ∧ ∀ e' ∈ l, user e' = user e → rank e' ≤ rank e

variable {user rank} {l l' es : List ε} {e : ε}

theorem exists_newest (h : e ∈ l) :
    ∃ n, NewestOf user rank l n ∧ user n = user e ∧ rank e ≤ rank n := by
  have hfinite : {e' | e' ∈ l ∧ user e' = user e}.Finite :=
    (List.finite_toSet l).subset fun _ => And.left
  obtain ⟨n, ⟨hn, hsame⟩, hmax⟩ := Set.exists_max_image _ rank hfinite ⟨e, h, rfl⟩
  refine ⟨n, ⟨hn, ?_⟩, hsame, hmax e ⟨h, rfl⟩⟩
  intro e' he' heq
  exact hmax e' ⟨he', heq.trans hsame⟩

/-- Among new elements and the newest of the old ones those are the newest that are so among all. -/
theorem newestOf_append (hes : ∀ e, e ∈ es ↔ NewestOf user rank l e) :
    NewestOf user rank (l' ++ es) e ↔ NewestOf user rank (l ++ l') e := by
  have hsub : ∀ e ∈ es, e ∈ l := by
    intro e he
    exact ((hes e).mp he).1
  constructor
  · rintro ⟨he, hnewest⟩
    constructor
    · apply List.mem_append.mpr
      rcases List.mem_append.mp he with hl' | hold
      · exact .inr hl'
      · exact .inl (hsub e hold)
    · intro e' he' heq
      rcases List.mem_append.mp he' with hl | hl'
      · obtain ⟨n, hn, hne, hle⟩ :
            ∃ n, NewestOf user rank l n ∧ user n = user e' ∧ rank e' ≤ rank n := exists_newest hl
        exact hle.trans (hnewest n (List.mem_append_right _ ((hes n).mpr hn)) (hne.trans heq))
      · exact hnewest e' (List.mem_append_left _ hl') heq
  · rintro ⟨he, hnewest⟩
    constructor
    · apply List.mem_append.mpr
      rcases List.mem_append.mp he with hl | hl'
      · right
        apply (hes e).mpr
        exact ⟨hl, fun e' he' => hnewest e' (List.mem_append_left _ he')⟩
      · exact .inl hl'
    · intro e' he' heq
      rcases List.mem_append.mp he' with hl' | hold
      · exact hnewest e' (List.mem_append_right _ hl') heq
      · exact hnewest e' (List.mem_append_left _ (hsub e' hold)) heq

end ZeroFlush.NewestElements
