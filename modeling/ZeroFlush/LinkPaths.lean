import Mathlib.Data.List.Induction
import Mathlib.Data.List.TakeWhile
import Mathlib.Logic.Function.Basic

/-! # Paths of links

A position is a node or the head, written `none`; a link is a node or the null pointer, written
`none` too. The nodes on the path from a position are a list. -/
namespace ZeroFlush.LinkPaths

variable {ν : Type*} {next next' : Option ν → Option ν} {s p : Option ν} {l l₁ l₂ : List ν} {x : ν}
  {q : ν → Bool}

/-- From the position the links lead along the nodes of the list and then to the null pointer. -/
def Linked (next : Option ν → Option ν) : Option ν → List ν → Prop
  | p, [] => next p = none
  | p, x :: xs => next p = some x ∧ Linked next (some x) xs

/-- The position at the end of a path. -/
def lastOf : Option ν → List ν → Option ν
  | p, [] => p
  | _, x :: xs => lastOf (some x) xs

/-- Nodes that meet the condition precede all that do not. -/
def Cut (q : ν → Bool) (l : List ν) : Prop := l.Pairwise fun x y => q y = true → q x = true

theorem Linked.unique (h₁ : Linked next s l₁) (h₂ : Linked next s l₂) : l₁ = l₂ := by
  induction l₁ generalizing s l₂ with
  | nil =>
    cases l₂ with
    | nil => rfl
    | cons y ys => cases h₁.symm.trans h₂.1
  | cons x xs ih =>
    cases l₂ with
    | nil => cases h₁.1.symm.trans h₂
    | cons y ys =>
      cases h₁.1.symm.trans h₂.1
      rw [ih h₁.2 h₂.2]

/-- Links elsewhere do not matter. -/
theorem Linked.congr (h : Linked next s l) (hs : next' s = next s)
    (hl : ∀ n ∈ l, next' (some n) = next (some n)) : Linked next' s l := by
  induction l generalizing s with
  | nil => exact hs.trans h
  | cons x xs ih =>
    apply And.intro (hs.trans h.1)
    apply ih h.2 (hl x List.mem_cons_self)
    intro n hn
    exact hl n (List.mem_cons_of_mem _ hn)

/-- A link of the path leads to the null pointer or to a node of the path. -/
theorem Linked.next_mem (h : Linked next s l) (hp : p = s ∨ ∃ n ∈ l, p = some n) :
    ∀ n, next p = some n → n ∈ l := by
  intro n hn
  induction l generalizing s with
  | nil =>
    rcases hp with rfl | ⟨m, hm, -⟩
    · cases h.symm.trans hn
    · cases hm
  | cons x xs ih =>
    rcases hp with rfl | ⟨m, hm, rfl⟩
    · cases h.1.symm.trans hn
      exact List.mem_cons_self
    · apply List.mem_cons_of_mem
      apply ih h.2
      rcases List.mem_cons.mp hm with rfl | hm
      · exact .inl rfl
      · exact .inr ⟨m, hm, rfl⟩

theorem Linked.head?_eq (h : Linked next s l) : next s = l.head? := by
  cases l with
  | nil => exact h
  | cons x xs => exact h.1

/-- A link of a path goes from a node to a later one. -/
theorem Linked.next_rel {R : ν → ν → Prop} (h : Linked next s l) (hl : l.Pairwise R) {n m : ν}
    (hn : n ∈ l) (hm : next (some n) = some m) : R n m := by
  induction l generalizing s with
  | nil => cases hn
  | cons x xs ih =>
    obtain ⟨hx, hxs⟩ := List.pairwise_cons.mp hl
    rcases List.mem_cons.mp hn with rfl | hmem
    · apply hx
      exact h.2.next_mem (.inl rfl) m hm
    · exact ih h.2 hxs hmem

@[simp] theorem lastOf_append (p : Option ν) (l₁ l₂ : List ν) :
    lastOf p (l₁ ++ l₂) = lastOf (lastOf p l₁) l₂ := by
  induction l₁ generalizing p with
  | nil => rfl
  | cons x xs ih => exact ih (some x)

theorem lastOf_none (l : List ν) : lastOf none l = l.getLast? := by
  induction l using List.reverseRecOn with
  | nil => rfl
  | append_singleton l x ih => simp [lastOf]

theorem lastOf_mem (p : Option ν) (l : List ν) : lastOf p l = p ∨ ∃ n ∈ l, lastOf p l = some n := by
  induction l generalizing p with
  | nil => exact .inl rfl
  | cons x xs ih =>
    apply Or.inr
    rcases ih (some x) with h | ⟨n, hn, h⟩
    · exact ⟨x, List.mem_cons_self, h⟩
    · exact ⟨n, List.mem_cons_of_mem _ hn, h⟩

/-- A position before the cut whose link leads behind it is the last one before the cut, and its
link leads to the first node behind. -/
theorem Linked.bracket (h : Linked next s l) (hcut : Cut q l)
    (hp : p = s ∨ ∃ n ∈ l, p = some n ∧ q n = true) (hn : ∀ n, next p = some n → q n = false) :
    p = lastOf s (l.takeWhile q) ∧ next p = l.find? fun n => !q n := by
  induction l generalizing s with
  | nil =>
    rcases hp with rfl | ⟨n, hn, -⟩
    · exact ⟨rfl, h⟩
    · cases hn
  | cons x xs ih =>
    obtain ⟨hx, hxs⟩ := List.pairwise_cons.mp hcut
    rcases hp with rfl | ⟨n, hmem, rfl, hq⟩
    · have hqx := hn x h.1
      simp [hqx, lastOf, h.1]
    · have hqx : q x = true := by
        rcases List.mem_cons.mp hmem with rfl | hmem
        · exact hq
        · exact hx n hmem hq
      have hrest := ih h.2 hxs (by
        rcases List.mem_cons.mp hmem with rfl | hmem
        · exact .inl rfl
        · exact .inr ⟨n, hmem, rfl, hq⟩)
      simpa [hqx, lastOf] using hrest

/-- A new node behind the position at the end of `l₁`. -/
theorem Linked.insert (h : Linked next s (l₁ ++ l₂)) (hs : ∀ n ∈ l₁ ++ l₂, s ≠ some n)
    (hnd : (l₁ ++ l₂).Nodup) (hxs : s ≠ some x) (hx : x ∉ l₁ ++ l₂)
    (hprev : next' (lastOf s l₁) = some x) (hnew : next' (some x) = next (lastOf s l₁))
    (hframe : ∀ p, p ≠ lastOf s l₁ → p ≠ some x → next' p = next p) :
    Linked next' s (l₁ ++ x :: l₂) := by
  induction l₁ generalizing s with
  | nil =>
    apply And.intro hprev
    cases l₂ with
    | nil => exact hnew.trans h
    | cons y ys =>
      apply And.intro (hnew.trans h.1)
      have hkeep : ∀ n ∈ y :: ys, next' (some n) = next (some n) := by
        intro n hn
        apply hframe
        · exact (hs n hn).symm
        · intro he
          cases he
          exact hx hn
      apply h.2.congr (hkeep y List.mem_cons_self)
      intro n hn
      exact hkeep n (List.mem_cons_of_mem _ hn)
  | cons y ys ih =>
    obtain ⟨hy, hys⟩ := List.nodup_cons.mp hnd
    have hne : s ≠ lastOf (some y) ys := by
      rcases lastOf_mem (some y) ys with he | ⟨n, hn, he⟩
      · rw [he]
        exact hs y List.mem_cons_self
      · rw [he]
        exact hs n (List.mem_cons_of_mem _ (List.mem_append_left _ hn))
    apply And.intro ((hframe s hne hxs).trans h.1)
    apply ih h.2
    · intro n hn he
      cases he
      exact hy hn
    · exact hys
    · intro he
      cases he
      exact hx List.mem_cons_self
    · exact fun hm => hx (List.mem_cons_of_mem _ hm)
    · exact hprev
    · exact hnew
    · exact hframe

end ZeroFlush.LinkPaths
