import Mathlib.Algebra.BigOperators.Group.List.Basic
import Mathlib.Algebra.GroupWithZero.Nat
import ZeroFlush.FiniteMaps

/-! # The total weight of a finite map -/
namespace ZeroFlush.WeightedMaps
open FiniteMaps

variable {κ υ : Type*} [DecidableEq κ]

def weight (w : υ → ℕ) (m : Map κ υ) : ℕ := (m.entries.map fun e => w e.2).sum

/-- The weight of what the map has under a key, nothing if it has none. -/
def weightAt (w : υ → ℕ) (m : Map κ υ) (k : κ) : ℕ := ((m.lookup k).map w).getD 0

variable {w : υ → ℕ} {m : Map κ υ} {k : κ} {v : υ}

omit [DecidableEq κ] in
theorem weight_empty : weight w (∅ : Map κ υ) = 0 := rfl

theorem sum_kerase (w : υ → ℕ) (k : κ) (l : List (Sigma fun _ : κ => υ)) :
    ((l.kerase k).map fun e => w e.2).sum + ((l.dlookup k).map w).getD 0 =
      (l.map fun e => w e.2).sum := by
  induction l with
  | nil => rfl
  | cons e l ih =>
    obtain ⟨k', v'⟩ := e
    by_cases hk : k = k'
    · subst hk
      have herase : List.kerase k (⟨k, v'⟩ :: l) = l := List.kerase_cons_eq rfl
      rw [herase, List.dlookup_cons_eq, List.map_cons, List.sum_cons]
      exact Nat.add_comm _ _
    · have herase : List.kerase k (⟨k', v'⟩ :: l) = ⟨k', v'⟩ :: List.kerase k l :=
        List.kerase_cons_ne hk
      rw [herase, List.dlookup_cons_ne l _ hk, List.map_cons, List.sum_cons,
        List.map_cons, List.sum_cons, Nat.add_assoc, ih]

theorem weight_erase (w : υ → ℕ) (m : Map κ υ) (k : κ) :
    weight w (m.erase k) + weightAt w m k = weight w m := sum_kerase w k m.entries

theorem weight_insert (w : υ → ℕ) (m : Map κ υ) (k : κ) (v : υ) :
    weight w (m.insert k v) + weightAt w m k = weight w m + w v := by
  have herase := weight_erase w m k
  have hinsert : weight w (m.insert k v) = w v + weight w (m.erase k) := List.sum_cons
  omega

theorem weightAt_of_some (h : m.lookup k = some v) : weightAt w m k = w v := by
  rw [weightAt, h, Option.map_some, Option.getD_some]

theorem weightAt_of_none (h : m.lookup k = none) : weightAt w m k = 0 := by
  rw [weightAt, h, Option.map_none, Option.getD_none]

theorem weightAt_le (w : υ → ℕ) (m : Map κ υ) (k : κ) : weightAt w m k ≤ weight w m := by
  have herase := weight_erase w m k
  omega

end ZeroFlush.WeightedMaps
