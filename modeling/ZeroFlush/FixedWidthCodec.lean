import Mathlib.Data.List.Basic
import Mathlib.Tactic.Ring

/-! # Little-endian words of a fixed number of bytes -/
namespace ZeroFlush.FixedWidthCodec

abbrev Bytes := List UInt8

def putFixed : ℕ → ℕ → Bytes
  | 0, _ => []
  | w + 1, n => UInt8.ofNat n :: putFixed w (n / 256)

def decodeFixed : Bytes → ℕ
  | [] => 0
  | b :: bs => b.toNat + 256 * decodeFixed bs

@[simp] theorem length_putFixed (w n : ℕ) : (putFixed w n).length = w := by
  induction w generalizing n with
  | zero => rfl
  | succ w ih => simp [putFixed, ih]

@[simp] theorem drop_putFixed {w i : ℕ} (h : w ≤ i) (n : ℕ) : (putFixed w n).drop i = [] :=
  List.drop_eq_nil_of_le (by simpa using h)

/-- A word read back is the number written, cut to the width of the word. -/
theorem decodeFixed_putFixed (w n : ℕ) : decodeFixed (putFixed w n) = n % 256 ^ w := by
  induction w generalizing n with
  | zero => simp [putFixed, decodeFixed, Nat.mod_one]
  | succ w ih =>
    have hsplit : n % 256 ^ (w + 1) = n % 256 + 256 * (n / 256 % 256 ^ w) := by
      rw [pow_succ', Nat.mod_mul]
    simp [putFixed, decodeFixed, ih, hsplit]

theorem decodeFixed_putFixed_of_lt {w n : ℕ} (h : n < 256 ^ w) :
    decodeFixed (putFixed w n) = n := by
  rw [decodeFixed_putFixed, Nat.mod_eq_of_lt h]

/-- Every word is the one written for the number it holds. -/
theorem putFixed_decodeFixed (bs : Bytes) : putFixed bs.length (decodeFixed bs) = bs := by
  induction bs with
  | nil => rfl
  | cons b bs ih =>
    have hb := b.toNat_lt
    have hlow : UInt8.ofNat (b.toNat + 256 * decodeFixed bs) = b :=
      UInt8.toNat_inj.mp (by simp)
    have hhigh : (b.toNat + 256 * decodeFixed bs) / 256 = decodeFixed bs := by omega
    rw [List.length_cons, decodeFixed, putFixed, hlow, hhigh, ih]

/-- A word over another word stands behind it. -/
theorem putFixed_add {w n : ℕ} (h : n < 256 ^ w) (k m : ℕ) :
    putFixed (w + k) (n + 256 ^ w * m) = putFixed w n ++ putFixed k m := by
  induction w generalizing n with
  | zero =>
    rw [pow_zero, Nat.lt_one_iff] at h
    rw [h, Nat.zero_add, Nat.zero_add, pow_zero, Nat.one_mul]
    rfl
  | succ w ih =>
    have hdiv : n / 256 < 256 ^ w := by
      rw [pow_succ'] at h
      exact Nat.div_lt_of_lt_mul h
    have hsplit : n + 256 ^ (w + 1) * m = n + 256 * (256 ^ w * m) := by ring
    have hlow : UInt8.ofNat (n + 256 * (256 ^ w * m)) = UInt8.ofNat n :=
      UInt8.toNat_inj.mp (by simp)
    rw [Nat.add_right_comm, hsplit, putFixed, hlow, Nat.add_mul_div_left n _ (by omega), ih hdiv,
      putFixed, List.cons_append]

theorem decodeFixed_append (bs cs : Bytes) :
    decodeFixed (bs ++ cs) = decodeFixed bs + 256 ^ bs.length * decodeFixed cs := by
  induction bs with
  | nil => simp [decodeFixed]
  | cons b bs ih =>
    rw [List.cons_append, decodeFixed, ih, decodeFixed, List.length_cons, pow_succ']
    ring

theorem decodeFixed_lt (bs : Bytes) : decodeFixed bs < 256 ^ bs.length := by
  induction bs with
  | nil => simp [decodeFixed]
  | cons b bs ih =>
    have hb := b.toNat_lt
    simp only [decodeFixed, List.length_cons, pow_succ']
    omega

end ZeroFlush.FixedWidthCodec
