import Mathlib.Data.Nat.Notation
import Mathlib.Logic.Function.Basic

/-! # Objects behind counted pointers

An object is made with one pointer to it. Copies of pointers are counted, and the object is destroyed
with the last one. -/
namespace ZeroFlush.SharedObjects

/-- The objects are numbered in the order they are made. -/
structure Objects (α : Type*) where
  made : List α := []
  refs : ℕ → ℕ := fun _ => 0
  destroyed : List ℕ := []

variable {α : Type*} {x : Objects α} {o : ℕ} {holders holders' : ℕ → ℕ}

namespace Objects

/-- The new object has the number `x.made.length`. -/
def make (x : Objects α) (a : α) : Objects α :=
  { x with made := x.made ++ [a], refs := Function.update x.refs x.made.length 1 }

def copy (x : Objects α) (o : ℕ) : Objects α :=
  { x with refs := Function.update x.refs o (x.refs o + 1) }

def drop (x : Objects α) (o : ℕ) : Objects α :=
  { x with
    refs := Function.update x.refs o (x.refs o - 1)
    destroyed := if x.refs o - 1 = 0 then o :: x.destroyed else x.destroyed }

end Objects

/-- One pointer to `o`. -/
def one (o p : ℕ) : ℕ := if p = o then 1 else 0

theorem one_self (o : ℕ) : one o o = 1 := if_pos rfl

theorem one_of_ne {p : ℕ} (h : p ≠ o) : one o p = 0 := if_neg h

/-- There are this many pointers to every object. -/
structure Counted (x : Objects α) (holders : ℕ → ℕ) : Prop where
  exact : ∀ o, x.refs o = holders o
  known : ∀ o, 0 < holders o → o < x.made.length
  gone : ∀ o ∈ x.destroyed, o < x.made.length ∧ holders o = 0

theorem counted_empty : Counted ({} : Objects α) fun _ => 0 :=
  ⟨fun _ => rfl, fun _ h => absurd h (Nat.lt_irrefl 0), fun _ h => nomatch h⟩

/-- An object that has a pointer to it is usable. -/
theorem Counted.not_destroyed (h : Counted x holders) (hpos : 0 < holders o) : o ∉ x.destroyed := by
  intro hmem
  have hzero := (h.gone o hmem).2
  omega

theorem Counted.make (h : Counted x holders) (a : α)
    (hh : ∀ p, holders' p = holders p + one x.made.length p) : Counted (x.make a) holders' := by
  have hlength : (x.make a).made.length = x.made.length + 1 := List.length_append
  have hnew : holders x.made.length = 0 := by
    by_contra hne
    exact absurd (h.known _ (Nat.pos_of_ne_zero hne)) (Nat.lt_irrefl _)
  refine ⟨?_, ?_, ?_⟩
  · intro p
    rw [hh, Objects.make]
    dsimp only
    by_cases hp : p = x.made.length
    · rw [hp, Function.update_self, one_self, hnew]
    · rw [Function.update_of_ne hp, one_of_ne hp, h.exact, Nat.add_zero]
  · intro p hpos
    rw [hlength]
    by_cases hp : p = x.made.length
    · rw [hp]
      exact Nat.lt_succ_self _
    · rw [hh, one_of_ne hp] at hpos
      exact Nat.lt_succ_of_lt (h.known p hpos)
  · intro p hp
    obtain ⟨hlt, hzero⟩ := h.gone p hp
    rw [hlength, hh, one_of_ne (Nat.ne_of_lt hlt)]
    exact ⟨Nat.lt_succ_of_lt hlt, hzero⟩

theorem Counted.copy (h : Counted x holders) (hpos : 0 < holders o)
    (hh : ∀ p, holders' p = holders p + one o p) : Counted (x.copy o) holders' := by
  refine ⟨?_, ?_, ?_⟩
  · intro p
    rw [hh, Objects.copy]
    dsimp only
    by_cases hp : p = o
    · rw [hp, Function.update_self, one_self, h.exact]
    · rw [Function.update_of_ne hp, one_of_ne hp, h.exact, Nat.add_zero]
  · intro p hp
    by_cases heq : p = o
    · rw [heq]
      exact h.known o hpos
    · rw [hh, one_of_ne heq] at hp
      exact h.known p hp
  · intro p hp
    have hne : p ≠ o := fun heq => h.not_destroyed hpos (heq ▸ hp)
    rw [hh, one_of_ne hne]
    exact h.gone p hp

theorem Counted.drop (h : Counted x holders) (hh : ∀ p, holders p = holders' p + one o p) :
    Counted (x.drop o) holders' := by
  have hpos : 0 < holders o := by
    rw [hh, one_self]
    exact Nat.succ_pos _
  have hrefs : ∀ p, (x.drop o).refs p = holders' p := by
    intro p
    rw [Objects.drop]
    dsimp only
    by_cases hp : p = o
    · rw [hp, Function.update_self, h.exact, hh, one_self, Nat.add_sub_cancel]
    · rw [Function.update_of_ne hp, h.exact, hh, one_of_ne hp, Nat.add_zero]
  refine ⟨hrefs, ?_, ?_⟩
  · intro p hp
    apply h.known p
    rw [hh]
    exact Nat.add_pos_left hp _
  · intro p hp
    have hold : p ∈ x.destroyed → p < x.made.length ∧ holders' p = 0 := by
      intro hp
      obtain ⟨hlt, hzero⟩ := h.gone p hp
      rw [hh] at hzero
      exact ⟨hlt, (Nat.add_eq_zero_iff.mp hzero).1⟩
    rw [Objects.drop] at hp
    dsimp only at hp
    split at hp
    · next hlast =>
      rcases List.mem_cons.mp hp with rfl | hp
      · refine ⟨h.known p hpos, ?_⟩
        rw [h.exact, hh, one_self, Nat.add_sub_cancel] at hlast
        exact hlast
      · exact hold hp
    · exact hold hp

end ZeroFlush.SharedObjects
