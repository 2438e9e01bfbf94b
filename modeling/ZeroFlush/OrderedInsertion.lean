import Mathlib.Order.Basic
import Mathlib.Data.List.Basic

/-! # Lists kept in ascending order by a three-way comparison -/
namespace ZeroFlush.OrderedInsertion

variable {α β : Type*} {cmp : α → α → Ordering}

/-- Insert at the ordered position; `none` if an equal element is there. -/
def insertNew (cmp : α → α → Ordering) (a : α) : List α → Option (List α)
  | [] => some [a]
  | x :: xs =>
    match cmp a x with
    | .lt => some (a :: x :: xs)
    | .eq => none
    | .gt => (insertNew cmp a xs).map (x :: ·)

theorem insertNew_cons (a x : α) (xs : List α) :
    insertNew cmp a (x :: xs) =
      match cmp a x with
      | .lt => some (a :: x :: xs)
      | .eq => none
      | .gt => (insertNew cmp a xs).map (x :: ·) := rfl

def Ascending (cmp : α → α → Ordering) (l : List α) : Prop :=
  l.Pairwise fun x y => cmp x y = .lt

theorem transCmp_comap (f : β → α) [Std.TransCmp cmp] :
    Std.TransCmp fun a b => cmp (f a) (f b) where
  eq_swap := Std.OrientedCmp.eq_swap
  isLE_trans := Std.TransCmp.isLE_trans

theorem mem_insertNew {a x : α} {l l' : List α} (h : insertNew cmp a l = some l') :
    x ∈ l' ↔ x = a ∨ x ∈ l := by
  induction l generalizing l' with
  | nil =>
    cases h
    simp
  | cons y ys ih =>
    rw [insertNew_cons] at h
    split at h
    · cases h
      simp
    · cases h
    · obtain ⟨zs, hz, rfl⟩ := Option.map_eq_some_iff.mp h
      rw [List.mem_cons, ih hz, List.mem_cons]
      tauto

/-- An insertion fails only on an equal element. -/
theorem exists_eq_of_insertNew_eq_none {a : α} {l : List α} (h : insertNew cmp a l = none) :
    ∃ x ∈ l, cmp a x = .eq := by
  induction l with
  | nil => cases h
  | cons y ys ih =>
    rw [insertNew_cons] at h
    split at h
    · cases h
    · exact ⟨y, List.mem_cons_self, ‹_›⟩
    · obtain ⟨x, hx, he⟩ := ih (by simpa using h)
      exact ⟨x, List.mem_cons_of_mem _ hx, he⟩

theorem insertNew_eq_none_of_eq [Std.TransCmp cmp] {a x : α} {l : List α} (hl : Ascending cmp l)
    (hx : x ∈ l) (he : cmp a x = .eq) : insertNew cmp a l = none := by
  induction l with
  | nil => cases hx
  | cons y ys ih =>
    obtain ⟨hy, hys⟩ := List.pairwise_cons.mp hl
    rcases List.mem_cons.mp hx with rfl | hx
    · simp [insertNew_cons, he]
    · have hgt : cmp a y = .gt := by
        apply Std.OrientedCmp.gt_of_lt
        exact Std.TransCmp.lt_of_lt_of_eq (hy x hx) (Std.OrientedCmp.eq_symm he)
      simp [insertNew_cons, hgt, ih hys hx]

/-- Without an equal element the new one goes behind all that are less. -/
theorem insertNew_eq_some_of_ne [Std.OrientedCmp cmp] {a : α} {l : List α}
    (hne : ∀ x ∈ l, cmp a x ≠ .eq) :
    insertNew cmp a l =
      some (l.takeWhile (fun x => cmp x a == .lt) ++ a :: l.dropWhile fun x => cmp x a == .lt) := by
  induction l with
  | nil => rfl
  | cons y ys ih =>
    rw [insertNew_cons]
    split
    next hlt =>
      have hgt := Std.OrientedCmp.gt_of_lt hlt
      simp [hgt]
    next he => cases hne y List.mem_cons_self he
    next hgt =>
      have hlt := Std.OrientedCmp.lt_of_gt hgt
      rw [ih fun x hx => hne x (List.mem_cons_of_mem _ hx)]
      simp [hlt]

theorem insertNew_map {cmp' : β → β → Ordering} (f : β → α) {b : β} {l : List β}
    (h : ∀ x ∈ l, cmp (f b) (f x) = cmp' b x) :
    insertNew cmp (f b) (l.map f) = (insertNew cmp' b l).map (List.map f) := by
  induction l with
  | nil => rfl
  | cons y ys ih =>
    have hrest := ih fun x hx => h x (List.mem_cons_of_mem _ hx)
    rw [List.map_cons, insertNew_cons, insertNew_cons, h y List.mem_cons_self, hrest]
    cases cmp' b y with
    | lt => rfl
    | eq => rfl
    | gt => cases insertNew cmp' b ys <;> rfl

theorem ascending_insertNew [Std.TransCmp cmp] {a : α} {l l' : List α} (hl : Ascending cmp l)
    (h : insertNew cmp a l = some l') : Ascending cmp l' := by
  induction l generalizing l' with
  | nil =>
    cases h
    exact List.pairwise_singleton _ _
  | cons y ys ih =>
    obtain ⟨hy, hys⟩ := List.pairwise_cons.mp hl
    rw [insertNew_cons] at h
    split at h
    next hlt =>
      cases h
      refine List.pairwise_cons.mpr ⟨?_, hl⟩
      intro x hx
      cases List.mem_cons.mp hx with
      | inl he => exact he ▸ hlt
      | inr hx => exact Std.TransCmp.lt_trans hlt (hy x hx)
    next => cases h
    next hgt =>
      obtain ⟨zs, hz, rfl⟩ := Option.map_eq_some_iff.mp h
      refine List.pairwise_cons.mpr ⟨?_, ih hys hz⟩
      intro x hx
      cases (mem_insertNew hz).mp hx with
      | inl he => exact he ▸ Std.OrientedCmp.gt_iff_lt.mp hgt
      | inr hx => exact hy x hx

/-- A new element in front of all others that meet a condition is the first of them. -/
theorem filter_insertNew_of_first {a : α} {l l' : List α} {q : α → Bool} (hq : q a = true)
    (hfirst : ∀ x ∈ l, q x = true → cmp a x = .lt) (h : insertNew cmp a l = some l') :
    l'.filter q = a :: l.filter q := by
  induction l generalizing l' with
  | nil =>
    cases h
    rw [List.filter_cons_of_pos hq]
  | cons y ys ih =>
    rw [insertNew_cons] at h
    split at h
    · cases h
      rw [List.filter_cons_of_pos hq]
    · cases h
    next hgt =>
      obtain ⟨zs, hz, rfl⟩ := Option.map_eq_some_iff.mp h
      have hy : q y = false := by
        by_contra hy
        have hlt := hfirst y List.mem_cons_self (Bool.not_eq_false _ ▸ hy)
        rw [hgt] at hlt
        cases hlt
      rw [List.filter_cons_of_neg (by simp [hy]), List.filter_cons_of_neg (by simp [hy]),
        ih (fun x hx => hfirst x (List.mem_cons_of_mem _ hx)) hz]

theorem filter_insertNew_of_not {a : α} {l l' : List α} {q : α → Bool} (hq : q a = false)
    (h : insertNew cmp a l = some l') : l'.filter q = l.filter q := by
  induction l generalizing l' with
  | nil =>
    cases h
    rw [List.filter_cons_of_neg (by simp [hq])]
  | cons y ys ih =>
    rw [insertNew_cons] at h
    split at h
    · cases h
      rw [List.filter_cons_of_neg (by simp [hq])]
    · cases h
    · obtain ⟨zs, hz, rfl⟩ := Option.map_eq_some_iff.mp h
      rw [List.filter_cons, List.filter_cons, ih hz]

/-- The first element that meets a condition precedes all others that meet it. -/
theorem find?_ascending {l : List α} (hl : Ascending cmp l) {q : α → Bool} {e : α}
    (h : l.find? q = some e) : ∀ x ∈ l, q x = true → x = e ∨ cmp e x = .lt := by
  induction l with
  | nil => cases h
  | cons y ys ih =>
    obtain ⟨hy, hys⟩ := List.pairwise_cons.mp hl
    intro x hx hq
    cases hqy : q y with
    | true =>
      rw [List.find?_cons_of_pos hqy] at h
      cases h
      exact (List.mem_cons.mp hx).imp id (hy x)
    | false =>
      rw [List.find?_cons_of_neg (by simp [hqy])] at h
      cases List.mem_cons.mp hx with
      | inl he =>
        subst he
        simp [hq] at hqy
      | inr hx => exact ih hys h x hx hq

theorem takeWhile_eq_filter_ascending {l : List α} (hl : Ascending cmp l) {q : α → Bool}
    (hq : ∀ x y, cmp x y = .lt → q y = true → q x = true) : l.takeWhile q = l.filter q := by
  induction l with
  | nil => rfl
  | cons y ys ih =>
    obtain ⟨hy, hys⟩ := List.pairwise_cons.mp hl
    cases hqy : q y with
    | true => rw [List.takeWhile_cons_of_pos hqy, List.filter_cons_of_pos hqy, ih hys]
    | false =>
      rw [List.takeWhile_cons_of_neg (by simp [hqy]), eq_comm, List.filter_eq_nil_iff]
      intro x hx hqx
      obtain rfl | hx := List.mem_cons.mp hx
      · simp [hqy] at hqx
      · simp [hq y x (hy x hx) hqx] at hqy

/-- The last element of an initial segment follows all others of it. -/
theorem getLast?_takeWhile_ascending [Std.TransCmp cmp] {l : List α} (hl : Ascending cmp l)
    {q : α → Bool} (hq : ∀ x y, cmp x y = .lt → q y = true → q x = true) {e : α} :
    (l.takeWhile q).getLast? = some e ↔
      e ∈ l ∧ q e = true ∧ ∀ x ∈ l, q x = true → x = e ∨ cmp x e = .lt := by
  rw [takeWhile_eq_filter_ascending hl hq]
  have hlast : ∀ d, (l.filter q).getLast? = some d →
      d ∈ l ∧ q d = true ∧ ∀ x ∈ l, q x = true → x = d ∨ cmp x d = .lt := by
    intro d hd
    obtain ⟨ys, hys⟩ := List.getLast?_eq_some_iff.mp hd
    have hmem : d ∈ l.filter q := by
      rw [hys]
      simp
    obtain ⟨hdl, hqd⟩ := List.mem_filter.mp hmem
    refine ⟨hdl, hqd, ?_⟩
    intro x hx hqx
    have hord : (ys ++ [d]).Pairwise fun x y => cmp x y = .lt := hys ▸ hl.filter q
    have hxmem : x ∈ ys ++ [d] := hys ▸ List.mem_filter.mpr ⟨hx, hqx⟩
    obtain hxys | hxd := List.mem_append.mp hxmem
    · exact .inr ((List.pairwise_append.mp hord).2.2 x hxys d List.mem_cons_self)
    · exact .inl (List.mem_singleton.mp hxd)
  refine ⟨hlast e, ?_⟩
  rintro ⟨hmem, hqe, hafter⟩
  cases hd : (l.filter q).getLast? with
  | none =>
    have hnil := List.getLast?_eq_none_iff.mp hd
    have hin : e ∈ l.filter q := List.mem_filter.mpr ⟨hmem, hqe⟩
    rw [hnil] at hin
    cases hin
  | some d =>
    obtain ⟨hdl, hqd, hdafter⟩ := hlast d hd
    obtain rfl | hlt := hdafter e hmem hqe
    · rfl
    · obtain rfl | hgt := hafter d hdl hqd
      · rfl
      · have hswap := Std.OrientedCmp.gt_iff_lt.mpr hlt
        rw [hgt] at hswap
        cases hswap

end ZeroFlush.OrderedInsertion
