import Mathlib.Data.List.Basic

/-! # A sequence cut at bounds

One pass cuts a sequence at a list of bounds: a piece runs as far as its members are below the
bound. The class of a member is the first bound it is below. -/
namespace ZeroFlush.CutSequences

variable {α β : Type*} (below : α → β → Bool)

/-- The piece, unless it is empty. -/
def single (piece : List α) : List (List α) := if piece = [] then [] else [piece]

/-- One piece for every bound, and one for the rest. -/
def cuts : List β → List α → List (List α)
  | [], xs => single xs
  | b :: bs, xs => single (xs.takeWhile (below · b)) ++ cuts bs (xs.dropWhile (below · b))

def classOf (bounds : List β) (x : α) : ℕ := bounds.findIdx (below x)

/-- The classes never go down. -/
def Grouped (bounds : List β) (xs : List α) : Prop :=
  xs.Pairwise fun a b => classOf below bounds a ≤ classOf below bounds b

instance (bounds : List β) (xs : List α) : Decidable (Grouped below bounds xs) :=
  inferInstanceAs (Decidable (List.Pairwise _ xs))

/-- The members of the last class. -/
def lastClass (bounds : List β) (xs : List α) : List α :=
  xs.filter fun x => classOf below bounds x = bounds.length

variable {below}

theorem flatten_single (piece : List α) : (single piece).flatten = piece := by
  rw [single]
  split
  next h => rw [h, List.flatten_nil]
  next => rw [List.flatten_cons, List.flatten_nil, List.append_nil]

theorem mem_single {piece x : List α} : x ∈ single piece ↔ x = piece ∧ piece ≠ [] := by
  rw [single]
  split
  next h => exact iff_of_false List.not_mem_nil fun hx => hx.2 h
  next h => rw [List.mem_singleton, and_iff_left h]

theorem mem_single_of_mem {piece : List α} {a : α} (h : a ∈ piece) : piece ∈ single piece :=
  mem_single.mpr ⟨rfl, List.ne_nil_of_mem h⟩

theorem pairwise_single (R : List α → List α → Prop) (piece : List α) :
    (single piece).Pairwise R := by
  rw [single]
  split
  · exact List.Pairwise.nil
  · exact List.pairwise_singleton R piece

/-- Cutting loses nothing. -/
theorem flatten_cuts (bs : List β) (xs : List α) : (cuts below bs xs).flatten = xs := by
  induction bs generalizing xs with
  | nil => exact flatten_single xs
  | cons b bs ih =>
    rw [cuts, List.flatten_append, flatten_single, ih, List.takeWhile_append_dropWhile]

theorem classOf_of_below {b : β} {bs : List β} {x : α} (h : below x b = true) :
    classOf below (b :: bs) x = 0 := by
  rw [classOf, List.findIdx_cons, h, Bool.cond_true]

theorem classOf_of_not_below {b : β} {bs : List β} {x : α} (h : below x b = false) :
    classOf below (b :: bs) x = classOf below bs x + 1 := by
  rw [classOf, List.findIdx_cons, h, Bool.cond_false, classOf]

theorem classOf_le (bs : List β) (x : α) : classOf below bs x ≤ bs.length := List.findIdx_le_length

/-- Of a grouped sequence none of the rest is below the bound. -/
theorem not_below_of_mem_dropWhile {b : β} {bs : List β} {xs : List α}
    (h : Grouped below (b :: bs) xs) : ∀ x ∈ xs.dropWhile (below · b), below x b = false := by
  have hgrouped := List.Pairwise.sublist (List.dropWhile_sublist (below · b)) h
  cases hrest : xs.dropWhile (below · b) with
  | nil => exact fun x hx => absurd hx List.not_mem_nil
  | cons y ys =>
    rw [hrest] at hgrouped
    have hy : below y b = false := by
      have hhead := List.head?_dropWhile_not (below · b) xs
      rw [hrest] at hhead
      simpa using hhead
    intro x hx
    obtain rfl | hx := List.mem_cons.mp hx
    · exact hy
    · have hle := List.rel_of_pairwise_cons hgrouped hx
      cases hxb : below x b with
      | false => rfl
      | true =>
        rw [classOf_of_not_below hy, classOf_of_below hxb] at hle
        exact absurd hle (Nat.not_succ_le_zero _)

/-- The pieces of a grouped sequence are its classes in their order. The last class comes last, in
two parts if some of its first members are below the last bound. -/
theorem exists_front (bs : List β) (top : β) {xs : List α} (h : Grouped below bs xs) :
    ∃ front, cuts below (bs ++ [top]) xs = front ++ cuts below [top] (lastClass below bs xs) ∧
      (∀ piece ∈ front, ∃ p < bs.length, ∀ x ∈ piece, classOf below bs x = p) ∧
      front.Pairwise fun x y => ∀ a ∈ x, ∀ b ∈ y, classOf below bs a < classOf below bs b := by
  induction bs generalizing xs with
  | nil =>
    refine ⟨[], ?_, fun piece hp => absurd hp List.not_mem_nil, List.Pairwise.nil⟩
    have hall : lastClass below [] xs = xs := List.filter_eq_self.mpr fun x _ => decide_eq_true rfl
    rw [hall, List.nil_append, List.nil_append]
  | cons b bs ih =>
    have hbelow : ∀ x ∈ xs.takeWhile (below · b), below x b = true :=
      fun x hx => List.all_eq_true.mp List.all_takeWhile x hx
    have hrest := not_below_of_mem_dropWhile h
    have hclass : ∀ x ∈ xs.dropWhile (below · b),
        classOf below (b :: bs) x = classOf below bs x + 1 :=
      fun x hx => classOf_of_not_below (hrest x hx)
    have hgrouped : Grouped below bs (xs.dropWhile (below · b)) := by
      refine (List.Pairwise.sublist (List.dropWhile_sublist (below · b)) h).imp_of_mem ?_
      intro a c ha hc hle
      rw [hclass a ha, hclass c hc] at hle
      exact Nat.le_of_succ_le_succ hle
    obtain ⟨front, hcuts, hclasses, hordered⟩ := ih hgrouped
    -- the members of the later pieces are in the rest
    have hmem : ∀ piece ∈ front, ∀ x ∈ piece, x ∈ xs.dropWhile (below · b) := by
      intro piece hp x hx
      rw [← @flatten_cuts _ _ below (bs ++ [top]) (xs.dropWhile (below · b)), hcuts]
      exact List.mem_flatten.mpr ⟨piece, List.mem_append_left _ hp, hx⟩
    have hlast : lastClass below (b :: bs) xs = lastClass below bs (xs.dropWhile (below · b)) := by
      conv_lhs => rw [← @List.takeWhile_append_dropWhile _ (below · b) xs]
      rw [lastClass, List.filter_append, List.filter_eq_nil_iff.mpr, List.nil_append, lastClass]
      · refine List.filter_congr fun x hx => ?_
        simp only [hclass x hx, List.length_cons, Nat.add_right_cancel_iff]
      · intro x hx
        rw [classOf_of_below (hbelow x hx)]
        simp
    refine ⟨single (xs.takeWhile (below · b)) ++ front, ?_, ?_, ?_⟩
    · rw [List.cons_append, cuts, hcuts, hlast, List.append_assoc]
    · intro piece hp
      obtain hp | hp := List.mem_append.mp hp
      · obtain ⟨rfl, -⟩ := mem_single.mp hp
        exact ⟨0, Nat.succ_pos _, fun x hx => classOf_of_below (hbelow x hx)⟩
      · obtain ⟨p, hlt, hx⟩ := hclasses piece hp
        exact ⟨p + 1, Nat.succ_lt_succ hlt, fun x hmx => by
          rw [hclass x (hmem piece hp x hmx), hx x hmx]⟩
    · refine List.pairwise_append.mpr ⟨pairwise_single _ _, ?_, ?_⟩
      · refine hordered.imp_of_mem fun {x y} hx hy hlt a ha c hc => ?_
        rw [hclass a (hmem x hx a ha), hclass c (hmem y hy c hc)]
        exact Nat.succ_lt_succ (hlt a ha c hc)
      · intro x hx y hy a ha c hc
        obtain ⟨rfl, -⟩ := mem_single.mp hx
        rw [classOf_of_below (hbelow a ha), hclass c (hmem y hy c hc)]
        exact Nat.succ_pos _

theorem cuts_top (top : β) (xs : List α) : cuts below [top] xs =
    single (xs.takeWhile (below · top)) ++ single (xs.dropWhile (below · top)) := rfl

end ZeroFlush.CutSequences
