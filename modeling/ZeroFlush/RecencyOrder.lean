import Mathlib.Data.List.MinMax

/-! # Sources searched from the most recent to the oldest

A source is a list of versions; a version has a key and a sequence number. -/
namespace ZeroFlush.RecencyOrder

section
variable {ε κ σ : Type*} (key : ε → κ) (seq : ε → ℕ)

/-- Where both sources have versions of a key, those of the first are newer. -/
def Newer (a b : List ε) : Prop := ∀ x ∈ a, ∀ y ∈ b, key x = key y → seq y < seq x

def Ordered (sources : List (List ε)) : Prop := sources.Pairwise (Newer key seq)

/-- The newest version of `k` a reader at `snapshot` may see. -/
structure IsNewest (all : List ε) (k : κ) (snapshot : ℕ) (e : ε) : Prop where
  mem : e ∈ all
  key_eq : key e = k
  visible : seq e ≤ snapshot
  newest : ∀ x ∈ all, key x = k → seq x ≤ snapshot → seq x ≤ seq e

variable [DecidableEq κ]

instance decidableNewer (a b : List ε) : Decidable (Newer key seq a b) :=
  inferInstanceAs (Decidable (∀ x ∈ a, ∀ y ∈ b, key x = key y → seq y < seq x))

instance decidableOrdered (sources : List (List ε)) : Decidable (Ordered key seq sources) :=
  inferInstanceAs (Decidable (sources.Pairwise (Newer key seq)))

end

variable {ε κ σ : Type*} {key : ε → κ} {seq : ε → ℕ} {a b : List ε}

theorem Newer.mono (h : Newer key seq a b) {a' b' : List ε} (ha : a' ⊆ a) (hb : b' ⊆ b) :
    Newer key seq a' b' :=
  fun x hx y hy => h x (ha hx) y (hb hy)

theorem IsNewest.of_subset {all part : List ε} {k : κ} {snapshot : ℕ} {e : ε}
    (h : IsNewest key seq all k snapshot e) (hs : part ⊆ all) (he : e ∈ part) :
    IsNewest key seq part k snapshot e :=
  ⟨he, h.key_eq, h.visible, fun x hx => h.newest x (hs hx)⟩

theorem exists_isNewest {all : List ε} {k : κ} {snapshot : ℕ} {x : ε} (hx : x ∈ all)
    (hkey : key x = k) (hvis : seq x ≤ snapshot) : ∃ e, IsNewest key seq all k snapshot e := by
  classical
  have hmem : x ∈ all.filter fun y => key y = k ∧ seq y ≤ snapshot := by simp [hx, hkey, hvis]
  cases hmax : (all.filter fun y => key y = k ∧ seq y ≤ snapshot).argmax seq with
  | none =>
    rw [List.argmax_eq_none.mp hmax] at hmem
    cases hmem
  | some e =>
    have he := List.mem_filter.mp (List.argmax_mem hmax)
    obtain ⟨hk, hv⟩ := of_decide_eq_true he.2
    refine ⟨e, he.1, hk, hv, ?_⟩
    intro y hy hyk hyv
    exact List.le_of_mem_argmax (List.mem_filter.mpr ⟨hy, decide_eq_true ⟨hyk, hyv⟩⟩) hmax

/-- A hit in front of a source keeps its versions from being found. -/
theorem findSome?_ne_of_hit {contents : σ → List ε} {get : σ → Option ε} {l₁ l₂ : List σ} {i : σ}
    (hget : ∀ j ∈ l₁ ++ i :: l₂, ∀ e, get j = some e → e ∈ contents j) (hi : get i ≠ none) {e : ε}
    (he : ∀ j ∈ l₁, e ∉ contents j) (hei : e ∉ contents i) :
    (l₁ ++ i :: l₂).findSome? get ≠ some e := by
  intro hfound
  obtain ⟨d, hd⟩ := Option.ne_none_iff_exists'.mp hi
  rw [List.findSome?_append, List.findSome?_cons, hd, Option.or_eq_some_iff] at hfound
  obtain hfound | ⟨-, hfound⟩ := hfound
  · obtain ⟨j, hj, hje⟩ := List.exists_of_findSome?_eq_some hfound
    exact he j hj (hget j (List.mem_append_left _ hj) e hje)
  · cases hfound
    exact hei (hget i (by simp) e hd)

/-- On ordered sources the first hit is the newest version of all of them, if every source
answers with the newest version it has. -/
theorem findSome?_of_isNewest {contents : σ → List ε} {get : σ → Option ε} {k : κ} {snapshot : ℕ}
    {chain : List σ}
    (hget : ∀ i ∈ chain, ∀ e, get i = some e ↔ IsNewest key seq (contents i) k snapshot e)
    (hord : Ordered key seq (chain.map contents)) {e : ε}
    (he : IsNewest key seq (chain.flatMap contents) k snapshot e) :
    chain.findSome? get = some e := by
  induction chain with
  | nil => exact absurd he.mem (by simp)
  | cons i chain ih =>
    obtain ⟨hfirst, hrest⟩ := List.pairwise_cons.mp hord
    have hhead : contents i ⊆ (i :: chain).flatMap contents := by
      intro x hx
      exact List.mem_flatMap.mpr ⟨i, List.mem_cons_self, hx⟩
    have htail : chain.flatMap contents ⊆ (i :: chain).flatMap contents := by
      intro x hx
      rw [List.flatMap_cons]
      exact List.mem_append_right _ hx
    rw [List.findSome?_cons]
    cases hi : get i with
    | some d =>
      obtain hd := (hget i List.mem_cons_self d).mp hi
      have hmem := he.mem
      rw [List.flatMap_cons, List.mem_append] at hmem
      cases hmem with
      | inl hmem =>
        exact hi.symm.trans ((hget i List.mem_cons_self e).mpr (he.of_subset hhead hmem))
      | inr hmem =>
        -- a hit in front of the newest version would be newer still
        obtain ⟨j, hj, hej⟩ := List.mem_flatMap.mp hmem
        have hlt := hfirst (contents j) (List.mem_map_of_mem hj) d hd.mem e hej
          (hd.key_eq.trans he.key_eq.symm)
        have hle := he.newest d (hhead hd.mem) hd.key_eq hd.visible
        omega
    | none =>
      have hmem : e ∈ chain.flatMap contents := by
        have hmem := he.mem
        rw [List.flatMap_cons, List.mem_append] at hmem
        refine hmem.resolve_left fun hc => ?_
        have hsome := (hget i List.mem_cons_self e).mpr (he.of_subset hhead hc)
        rw [hi] at hsome
        cases hsome
      exact ih (fun j hj => hget j (List.mem_cons_of_mem _ hj)) hrest (he.of_subset htail hmem)

end ZeroFlush.RecencyOrder
