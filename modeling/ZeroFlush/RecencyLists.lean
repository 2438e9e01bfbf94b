import Mathlib.Data.List.Basic
import Mathlib.Data.List.Nodup

/-! # The most recent uses

A list of uses, the newest first, and what a list bounded by a capacity keeps of it. -/
namespace ZeroFlush.RecencyLists

variable {α : Type*} [BEq α] [LawfulBEq α] {a b : α} {uses l : List α} {n : ℕ}

/-- What has been used, by its most recent use. -/
def recent : List α → List α
  | [] => []
  | a :: uses => a :: (recent uses).erase a

theorem nodup_recent (uses : List α) : (recent uses).Nodup := by
  induction uses with
  | nil => exact List.nodup_nil
  | cons a uses ih => exact List.nodup_cons.mpr ⟨ih.not_mem_erase, ih.erase a⟩

theorem mem_recent : b ∈ recent uses ↔ b ∈ uses := by
  induction uses with
  | nil => exact Iff.rfl
  | cons a uses ih =>
    by_cases hb : b = a
    · rw [hb]
      exact iff_of_true List.mem_cons_self List.mem_cons_self
    · rw [recent, List.mem_cons, List.mem_cons, List.mem_erase_of_ne hb, ih]

theorem erase_take_of_mem (h : a ∈ l.take n) : (l.take n).erase a = (l.erase a).take (n - 1) := by
  induction l generalizing n with
  | nil =>
    rw [List.take_nil] at h
    exact absurd h List.not_mem_nil
  | cons b l ih =>
    cases n with
    | zero => exact absurd h List.not_mem_nil
    | succ n =>
      rw [List.take_succ_cons] at h ⊢
      by_cases hb : b = a
      · rw [hb, List.erase_cons_head, List.erase_cons_head]
        rfl
      · have hmem : a ∈ l.take n := (List.mem_cons.mp h).resolve_left (Ne.symm hb)
        have hpos : 0 < n := by
          apply Nat.pos_of_ne_zero
          rintro rfl
          exact absurd hmem List.not_mem_nil
        obtain ⟨k, rfl⟩ : ∃ k, n = k + 1 := ⟨n - 1, (Nat.sub_add_cancel hpos).symm⟩
        rw [List.erase_cons_tail (by simpa using hb), List.erase_cons_tail (by simpa using hb),
          ih hmem]
        rfl

theorem take_erase_of_not_mem (h : a ∉ l.take n) : (l.erase a).take (n - 1) = l.take (n - 1) := by
  induction l generalizing n with
  | nil => rfl
  | cons b l ih =>
    cases n with
    | zero => exact (List.take_zero).trans (List.take_zero).symm
    | succ n =>
      rw [List.take_succ_cons, List.mem_cons, not_or] at h
      rw [List.erase_cons_tail (by simpa using Ne.symm h.1)]
      cases n with
      | zero => rfl
      | succ n => exact congrArg (b :: ·) (ih h.2)

/-- Something that is kept moves to the front. -/
theorem take_recent_of_mem (h : a ∈ (recent uses).take n) :
    (recent (a :: uses)).take n = a :: ((recent uses).take n).erase a := by
  cases n with
  | zero => exact absurd h List.not_mem_nil
  | succ n => rw [erase_take_of_mem h, recent, List.take_succ_cons, Nat.add_sub_cancel]

/-- Something that is not kept takes the place of the oldest. -/
theorem take_recent_of_not_mem (h : a ∉ (recent uses).take n) :
    (recent (a :: uses)).take n = (a :: (recent uses).take n).take n := by
  cases n with
  | zero => rfl
  | succ n =>
    have herase := take_erase_of_not_mem h
    rw [Nat.add_sub_cancel] at herase
    rw [recent, List.take_succ_cons, List.take_succ_cons, herase, List.take_take,
      Nat.min_eq_left (Nat.le_succ n)]

end ZeroFlush.RecencyLists
