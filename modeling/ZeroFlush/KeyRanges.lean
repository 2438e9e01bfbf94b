import Mathlib.Data.List.Basic
import Mathlib.Order.Defs.Unbundled

/-! # Closed ranges under a comparison

A comparison is a total preorder; two elements may compare as equal without being equal. -/
namespace ZeroFlush.KeyRanges

variable {α : Type*} (cmp : α → α → Ordering)

def Le (a b : α) : Prop := cmp a b ≠ .gt

def Lt (a b : α) : Prop := cmp a b = .lt

instance (a b : α) : Decidable (Le cmp a b) := inferInstanceAs (Decidable (cmp a b ≠ .gt))
instance (a b : α) : Decidable (Lt cmp a b) := inferInstanceAs (Decidable (cmp a b = .lt))

/-- The closed ranges share a point between their ends. -/
def meets (lo hi lo' hi' : α) : Bool := cmp lo hi' != .gt && cmp hi lo' != .lt

/-- The least range that holds both. -/
def widen (range : Option (α × α)) (ends : α × α) : Option (α × α) :=
  match range with
  | none => some ends
  | some r =>
    some (if cmp ends.1 r.1 = .lt then ends.1 else r.1, if cmp ends.2 r.2 = .gt then ends.2 else r.2)

variable {cmp} {a b c lo hi lo' hi' : α}

theorem le_of_lt (h : Lt cmp a b) : Le cmp a b := by
  rw [Le, h]
  decide

theorem le_of_eq (h : cmp a b = .eq) : Le cmp a b := by
  rw [Le, h]
  decide

variable [Std.TransCmp cmp]

theorem le_refl (a : α) : Le cmp a a := le_of_eq Std.ReflCmp.compare_self

theorem le_trans (hab : Le cmp a b) (hbc : Le cmp b c) : Le cmp a c :=
  Ordering.isLE_iff_ne_gt.mp
    (Std.TransCmp.isLE_trans (Ordering.isLE_iff_ne_gt.mpr hab) (Ordering.isLE_iff_ne_gt.mpr hbc))

theorem not_le : ¬ Le cmp a b ↔ Lt cmp b a := by
  rw [Le, not_not, Std.OrientedCmp.gt_iff_lt, Lt]

theorem not_lt : ¬ Lt cmp a b ↔ Le cmp b a := by
  rw [← not_le, not_not]

theorem lt_of_lt_of_le (hab : Lt cmp a b) (hbc : Le cmp b c) : Lt cmp a c := by
  rw [← not_le] at *
  exact fun hca => hab (le_trans hbc hca)

theorem lt_of_le_of_lt (hab : Le cmp a b) (hbc : Lt cmp b c) : Lt cmp a c := by
  rw [← not_le] at *
  exact fun hca => hbc (le_trans hca hab)

theorem lt_irrefl (a : α) : ¬ Lt cmp a a := not_lt.mpr (le_refl a)

theorem le_total (a b : α) : Le cmp a b ∨ Le cmp b a := by
  by_cases h : Le cmp a b
  · exact .inl h
  · exact .inr (le_of_lt (not_le.mp h))

theorem meets_iff : meets cmp lo hi lo' hi' = true ↔ Le cmp lo hi' ∧ Le cmp lo' hi := by
  rw [meets, Bool.and_eq_true, bne_iff_ne, bne_iff_ne, ← @not_lt α cmp hi lo']
  rfl

theorem meets_comm : meets cmp lo hi lo' hi' = meets cmp lo' hi' lo hi := by
  rw [Bool.eq_iff_iff, meets_iff, meets_iff, and_comm]

theorem meets_false_iff : meets cmp lo hi lo' hi' = false ↔ Lt cmp hi' lo ∨ Lt cmp hi lo' := by
  rw [← Bool.not_eq_true, meets_iff, not_and_or, not_le, not_le]

/-- `r` lies in the range. -/
def Covers (cmp : α → α → Ordering) (range r : α × α) : Prop :=
  Le cmp range.1 r.1 ∧ Le cmp r.2 range.2

theorem widen_covers (range : Option (α × α)) (ends : α × α) :
    ∃ r, widen cmp range ends = some r ∧ Covers cmp r ends ∧ ∀ r' ∈ range, Covers cmp r r' := by
  cases range with
  | none => exact ⟨ends, rfl, ⟨le_refl _, le_refl _⟩, fun r' h => absurd h (Option.not_mem_none r')⟩
  | some r =>
    refine ⟨_, rfl, ⟨?_, ?_⟩, ?_⟩
    · dsimp only
      split
      · exact le_refl _
      next h => exact not_lt.mp h
    · dsimp only
      split
      · exact le_refl _
      next h => exact h
    · rintro r' ⟨⟩
      constructor
      · dsimp only
        split
        next h => exact le_of_lt h
        next => exact le_refl _
      · dsimp only
        split
        next h => exact le_of_lt (Std.OrientedCmp.gt_iff_lt.mp h)
        next => exact le_refl _

theorem Covers.trans {r r' r'' : α × α} (h : Covers cmp r r') (h' : Covers cmp r' r'') :
    Covers cmp r r'' :=
  ⟨le_trans h.1 h'.1, le_trans h'.2 h.2⟩

/-- The hull of some ranges holds each of them and what it started from. -/
theorem foldl_widen_covers (ranges : List (α × α)) (range : Option (α × α)) :
    (∀ r ∈ ranges, ∃ h ∈ ranges.foldl (widen cmp) range, Covers cmp h r) ∧
      ∀ r ∈ range, ∃ h ∈ ranges.foldl (widen cmp) range, Covers cmp h r := by
  induction ranges generalizing range with
  | nil => exact ⟨fun r h => absurd h List.not_mem_nil, fun r h => ⟨r, h, le_refl _, le_refl _⟩⟩
  | cons q ranges ih =>
    obtain ⟨w, hw, hq, hold⟩ := @widen_covers α cmp _ range q
    obtain ⟨hrest, hstart⟩ := ih (widen cmp range q)
    obtain ⟨h, hh, hcov⟩ := hstart w hw
    refine ⟨?_, ?_⟩
    · intro r hr
      obtain rfl | hr := List.mem_cons.mp hr
      · exact ⟨h, hh, hcov.trans hq⟩
      · exact hrest r hr
    · intro r hr
      exact ⟨h, hh, hcov.trans (hold r hr)⟩

omit [Std.TransCmp cmp] in
/-- What relates the members of a list in order relates each to the first and the last one. -/
theorem pairwise_ends {R : α → α → Prop} {l : List α} (h : l.Pairwise R) {first last x : α}
    (hfirst : l.head? = some first) (hlast : l.getLast? = some last) (hx : x ∈ l) :
    (x = first ∨ R first x) ∧ (x = last ∨ R x last) := by
  constructor
  · obtain ⟨rest, rfl⟩ := List.head?_eq_some_iff.mp hfirst
    obtain rfl | hx := List.mem_cons.mp hx
    · exact .inl rfl
    · exact .inr (List.rel_of_pairwise_cons h hx)
  · obtain ⟨front, rfl⟩ := List.getLast?_eq_some_iff.mp hlast
    obtain hx | hx := List.mem_append.mp hx
    · exact .inr ((List.pairwise_append.mp h).2.2 x hx last (List.mem_singleton.mpr rfl))
    · exact .inl (List.mem_singleton.mp hx)

end ZeroFlush.KeyRanges
