import Mathlib.Data.List.AList

/-! # Association lists with one type of values -/
namespace ZeroFlush.FiniteMaps

variable {κ υ : Type*} [DecidableEq κ]

abbrev Map (κ υ : Type*) := AList (fun _ : κ => υ)

/-- Apply a function to the value of every key. -/
def mapValues (f : κ → υ → υ) (m : Map κ υ) : Map κ υ :=
  ⟨m.entries.map (fun e => ⟨e.1, f e.1 e.2⟩), by
    have h := m.nodupKeys
    simpa [List.NodupKeys, List.keys, Function.comp_def] using h⟩

@[simp] theorem lookup_mapValues (f : κ → υ → υ) (m : Map κ υ) (k : κ) :
    (mapValues f m).lookup k = (m.lookup k).map (f k) :=
  @List.dlookup_map₂ κ _ (fun _ => υ) (fun _ => υ) m.entries f k

theorem lookup_insert_eq (m : Map κ υ) (k k' : κ) (v : υ) :
    (m.insert k v).lookup k' = if k' = k then some v else m.lookup k' := by
  by_cases h : k' = k
  · subst h
    simp
  · simp [h, AList.lookup_insert_ne h]

theorem lookup_erase_eq (m : Map κ υ) (k k' : κ) :
    (m.erase k).lookup k' = if k' = k then none else m.lookup k' := by
  by_cases h : k' = k
  · subst h
    simp
  · simp [h, AList.lookup_erase_ne h]

end ZeroFlush.FiniteMaps
