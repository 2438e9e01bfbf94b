import Mathlib.Data.List.Count
import Mathlib.Tactic.Ring

/-! # Quantiles of a list by integer division -/
namespace ZeroFlush.Quantiles

/-- The index at which the `i`-th of `parts` equal shares of `n` items starts. -/
def quantile (n parts i : ℕ) : ℕ := i * n / parts

variable {n parts i : ℕ}

theorem quantile_zero (n parts : ℕ) : quantile n parts 0 = 0 := by
  rw [quantile, Nat.zero_mul, Nat.zero_div]

theorem quantile_all (hparts : 0 < parts) : quantile n parts parts = n := by
  rw [quantile, Nat.mul_comm]
  exact Nat.mul_div_cancel n hparts

theorem quantile_mono {j : ℕ} (h : i ≤ j) : quantile n parts i ≤ quantile n parts j :=
  Nat.div_le_div_right (Nat.mul_le_mul_right n h)

/-- A share has the floor or the ceiling of `n / parts` items. -/
theorem quantile_succ (hparts : 0 < parts) :
    quantile n parts (i + 1) = quantile n parts i + n / parts ∨
      quantile n parts (i + 1) = quantile n parts i + (n + parts - 1) / parts := by
  have hmod := Nat.mod_lt (i * n) hparts
  have hrest := Nat.mod_lt n hparts
  have hi := Nat.div_add_mod (i * n) parts
  have hn := Nat.div_add_mod n parts
  have hsplit : (i + 1) * n = parts * (i * n / parts + n / parts) + (i * n % parts + n % parts) := by
    rw [Nat.mul_add]
    have hmul : (i + 1) * n = i * n + n := by ring
    omega
  have hshare : quantile n parts (i + 1) =
      quantile n parts i + n / parts + (i * n % parts + n % parts) / parts := by
    rw [quantile, quantile, hsplit, Nat.mul_add_div hparts]
  by_cases hcarry : i * n % parts + n % parts < parts
  · rw [Nat.div_eq_of_lt hcarry] at hshare
    exact .inl hshare
  · -- both remainders together fill one more place, so `n` is no multiple of `parts`
    have hone : (i * n % parts + n % parts) / parts = 1 := by
      rw [Nat.div_eq_of_lt_le]
      · omega
      · omega
    have hceil : (n + parts - 1) / parts = n / parts + 1 := by
      have hn' : n + parts - 1 = parts * (n / parts + 1) + (n % parts - 1) := by
        rw [Nat.mul_add]
        omega
      rw [hn', Nat.mul_add_div hparts, Nat.div_eq_of_lt (a := n % parts - 1) (by omega)]
    rw [hone] at hshare
    rw [hceil]
    exact .inr hshare

theorem quantile_lt (hparts : 0 < parts) (h : parts ≤ n) :
    quantile n parts i < quantile n parts (i + 1) := by
  have hpos : 0 < n / parts := Nat.div_pos h hparts
  have hceil : n / parts ≤ (n + parts - 1) / parts := Nat.div_le_div_right (by omega)
  rcases quantile_succ (n := n) (i := i) hparts with hs | hs
  · omega
  · omega

/-- The items of a list whose positions are those from `a` up to `b`. -/
theorem countP_positions {α : Type*} {l : List α} {p : α → Bool} {a b : ℕ} (hab : a ≤ b)
    (hb : b ≤ l.length) (h : ∀ j, ∀ hj : j < l.length, p (l[j]) = true ↔ a ≤ j ∧ j < b) :
    l.countP p = b - a := by
  induction l generalizing a b with
  | nil =>
    rw [List.length_nil] at hb
    rw [List.countP_nil]
    omega
  | cons x l ih =>
    have hx : p x = true ↔ a ≤ 0 ∧ 0 < b := h 0 (by simp)
    have htail : ∀ j, ∀ hj : j < l.length, p (l[j]) = true ↔ a - 1 ≤ j ∧ j < b - 1 := by
      intro j hj
      have hcons : p (l[j]) = true ↔ a ≤ j + 1 ∧ j + 1 < b := h (j + 1) (by simpa using hj)
      rw [hcons]
      omega
    rw [List.length_cons] at hb
    have hrest := ih (a := a - 1) (b := b - 1) (by omega) (by omega) htail
    rw [List.countP_cons, hrest]
    split
    next htrue =>
      have hends := hx.mp htrue
      omega
    next hfalse =>
      have hends : ¬ (a ≤ 0 ∧ 0 < b) := fun hends => hfalse (hx.mpr hends)
      omega

end ZeroFlush.Quantiles
