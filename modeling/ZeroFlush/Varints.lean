import ZeroFlush.ByteMemory

/-! # Numbers in groups of seven bits, the low group first

Every byte but the last has its high bit set. -/
namespace ZeroFlush.Varints
open FixedWidthCodec ByteMemory

variable {m : Memory} {a n k v : ℕ}

def putGroups : ℕ → ℕ → Bytes
  | 0, v => [UInt8.ofNat v]
  | k + 1, v =>
    if 128 ≤ v then UInt8.ofNat (v % 128 + 128) :: putGroups k (v / 128) else [UInt8.ofNat v]

/-- Ten groups are enough for 64 bits. -/
def putVarint (v : ℕ) : Bytes := putGroups 9 v

/-- At most `n` groups from the address on, and the address behind them. -/
def readGroups (m : Memory) : ℕ → ℕ → ℕ × ℕ
  | 0, a => (0, a)
  | n + 1, a =>
    if (m a).toNat < 128 then ((m a).toNat, a + 1)
    else
      let higher := readGroups m n (a + 1)
      ((m a).toNat % 128 + 128 * higher.1, higher.2)

theorem putGroups_zero (v : ℕ) : putGroups 0 v = [UInt8.ofNat v] := rfl

theorem putGroups_succ (k v : ℕ) : putGroups (k + 1) v =
    if 128 ≤ v then UInt8.ofNat (v % 128 + 128) :: putGroups k (v / 128) else [UInt8.ofNat v] := rfl

theorem readGroups_succ (m : Memory) (n a : ℕ) : readGroups m (n + 1) a =
    if (m a).toNat < 128 then ((m a).toNat, a + 1)
    else ((m a).toNat % 128 + 128 * (readGroups m n (a + 1)).1, (readGroups m n (a + 1)).2) := rfl

theorem putGroups_of_lt (h : v < 128) (k : ℕ) : putGroups k v = [UInt8.ofNat v] := by
  cases k with
  | zero => rfl
  | succ k => rw [putGroups_succ, if_neg (by omega)]

theorem putVarint_of_lt (h : v < 128) : putVarint v = [UInt8.ofNat v] := putGroups_of_lt h 9

theorem length_putGroups_pos (k v : ℕ) : 0 < (putGroups k v).length := by
  cases k with
  | zero => exact Nat.one_pos
  | succ k =>
    rw [putGroups_succ]
    split
    · exact Nat.succ_pos _
    · exact Nat.one_pos

theorem length_putGroups_le (h : v < 128 ^ (n + 1)) (k : ℕ) : (putGroups k v).length ≤ n + 1 := by
  induction n generalizing k v with
  | zero => rw [putGroups_of_lt (by simpa using h)]; rfl
  | succ n ih =>
    cases k with
    | zero => exact Nat.succ_le_succ (Nat.zero_le _)
    | succ k =>
      rw [putGroups_succ]
      split
      · have hdiv : v / 128 < 128 ^ (n + 1) := by
          rw [pow_succ] at h
          exact Nat.div_lt_of_lt_mul (by rwa [Nat.mul_comm])
        exact Nat.succ_le_succ (ih hdiv k)
      · exact Nat.succ_le_succ (Nat.zero_le _)

theorem length_putVarint_pos (v : ℕ) : 0 < (putVarint v).length := length_putGroups_pos 9 v

theorem length_putVarint_le (h : v < 128 ^ (n + 1)) : (putVarint v).length ≤ n + 1 :=
  length_putGroups_le h 9

theorem length_putGroups_le_succ (k v : ℕ) : (putGroups k v).length ≤ k + 1 := by
  induction k generalizing v with
  | zero => exact le_rfl
  | succ k ih =>
    rw [putGroups_succ]
    split
    · exact Nat.succ_le_succ (ih _)
    · exact Nat.succ_le_succ (Nat.zero_le _)

theorem length_putVarint_le_ten (v : ℕ) : (putVarint v).length ≤ 10 := length_putGroups_le_succ 9 v

theorem lt_snd_readGroups (m : Memory) (n a : ℕ) : a < (readGroups m (n + 1) a).2 := by
  induction n generalizing a with
  | zero =>
    rw [readGroups_succ]
    split <;> exact Nat.lt_succ_self a
  | succ n ih =>
    rw [readGroups_succ]
    split
    · exact Nat.lt_succ_self a
    · exact (Nat.lt_succ_self a).trans (ih (a + 1))

theorem snd_readGroups_le (m : Memory) (n a : ℕ) : (readGroups m n a).2 ≤ a + n := by
  induction n generalizing a with
  | zero => exact Nat.le_refl a
  | succ n ih =>
    rw [readGroups_succ]
    split
    · exact Nat.add_le_add_left (Nat.succ_le_succ (Nat.zero_le n)) a
    · exact (ih (a + 1)).trans (Nat.le_of_eq (Nat.succ_add_eq_add_succ a n))

/-- No reader goes past a byte without the high bit. -/
theorem snd_readGroups_le_of_lt {t : ℕ} (ht : (m t).toNat < 128) (ha : a ≤ t) (n : ℕ) :
    (readGroups m n a).2 ≤ t + 1 := by
  induction n generalizing a with
  | zero => exact ha.trans (Nat.le_succ t)
  | succ n ih =>
    rw [readGroups_succ]
    split
    · exact Nat.succ_le_succ ha
    next hmore =>
      have hne : a ≠ t := fun heq => hmore (heq ▸ ht)
      exact ih (by omega)

/-- A number is read back by every reader that takes as many groups as it has. -/
theorem readGroups_putGroups (hn : v < 128 ^ (n + 1)) (hk : v < 128 ^ (k + 1))
    (h : Holds m a (putGroups k v)) :
    readGroups m (n + 1) a = (v, a + (putGroups k v).length) := by
  induction k generalizing n a v with
  | zero =>
    rw [putGroups_zero, holds_cons] at h
    have hbyte : (m a).toNat = v := by
      rw [h.1, UInt8.toNat_ofNat']
      exact Nat.mod_eq_of_lt (by omega)
    rw [readGroups_succ, if_pos (by omega), hbyte]
    rfl
  | succ k ih =>
    by_cases hv : 128 ≤ v
    · rw [putGroups_succ, if_pos hv] at h ⊢
      rw [holds_cons] at h
      have hbyte : (m a).toNat = v % 128 + 128 := by
        rw [h.1, UInt8.toNat_ofNat']
        omega
      cases n with
      | zero => omega
      | succ n =>
        have hrest := ih (n := n) (Nat.div_lt_of_lt_mul (by rw [pow_succ] at hn; omega))
          (Nat.div_lt_of_lt_mul (by rw [pow_succ] at hk; omega)) h.2
        rw [readGroups_succ, if_neg (by omega), hrest, hbyte, List.length_cons]
        refine Prod.ext ?_ ?_
        · simp only
          omega
        · simp only
          omega
    · rw [putGroups_of_lt (by omega)] at h ⊢
      rw [holds_cons] at h
      have hbyte : (m a).toNat = v := by
        rw [h.1, UInt8.toNat_ofNat']
        omega
      rw [readGroups_succ, if_pos (by omega), hbyte]
      rfl

theorem readGroups_putVarint (hn : v < 128 ^ (n + 1)) (hv : v < 2 ^ 64)
    (h : Holds m a (putVarint v)) : readGroups m (n + 1) a = (v, a + (putVarint v).length) :=
  readGroups_putGroups hn (hv.trans (by decide)) h

example : putVarint 300 = [172, 2] := by decide

end ZeroFlush.Varints
