import Mathlib.Logic.Function.Basic
import ZeroFlush.FixedWidthCodec

/-! # Cyclic checksums

A register that shifts towards its low end and takes in a byte at a time. Shifts are linear over
exclusive or and lose nothing if the polynomial has the high bit, so bytes that differ in no more
places than the register is wide leave different registers behind. -/
namespace ZeroFlush.CyclicChecksums
open FixedWidthCodec

variable {n : ℕ}

/-- One shift; `poly` has the term of the highest degree in the low bit, the constant one in the
high bit. -/
def shift (poly x : BitVec n) : BitVec n :=
  if x.getLsbD 0 = true then (x >>> 1) ^^^ poly else x >>> 1

def shifts (poly : BitVec n) : ℕ → BitVec n → BitVec n
  | 0, x => x
  | k + 1, x => shifts poly k (shift poly x)

def feed (poly x : BitVec n) (b : UInt8) : BitVec n :=
  shifts poly 8 (x ^^^ BitVec.ofNat n b.toNat)

/-- The register after the bytes. -/
def register (poly : BitVec n) : BitVec n → Bytes → BitVec n := List.foldl (feed poly)

variable {poly x y : BitVec n}

theorem xor_xor_cancel (a b p : BitVec n) : a ^^^ p ^^^ (b ^^^ p) = a ^^^ b := by
  rw [BitVec.xor_assoc, BitVec.xor_comm b p, ← BitVec.xor_assoc p p b, BitVec.xor_self,
    BitVec.zero_xor]

theorem eq_of_xor_eq_zero (h : x ^^^ y = 0#n) : x = y := by
  have hxy := congrArg (· ^^^ y) h
  simpa [BitVec.xor_assoc] using hxy

theorem shift_xor (poly x y : BitVec n) : shift poly (x ^^^ y) = shift poly x ^^^ shift poly y := by
  simp only [shift, BitVec.getLsbD_xor, BitVec.ushiftRight_xor_distrib]
  cases x.getLsbD 0 <;> cases y.getLsbD 0
  · simp
  · simp [BitVec.xor_assoc]
  · simp only [Bool.xor_false, if_true, Bool.false_eq_true, if_false]
    rw [BitVec.xor_assoc, BitVec.xor_comm (y >>> 1), BitVec.xor_assoc]
  · simp [xor_xor_cancel]

theorem shifts_xor (poly : BitVec n) (k : ℕ) (x y : BitVec n) :
    shifts poly k (x ^^^ y) = shifts poly k x ^^^ shifts poly k y := by
  induction k generalizing x y with
  | zero => rfl
  | succ k ih => rw [shifts, shift_xor, ih, shifts, shifts]

theorem shifts_add (poly : BitVec n) (j k : ℕ) (x : BitVec n) :
    shifts poly (j + k) x = shifts poly k (shifts poly j x) := by
  induction j generalizing x with
  | zero => rw [Nat.zero_add, shifts]
  | succ j ih => rw [Nat.succ_add, shifts, ih, shifts]

theorem getLsbD_zero_eq (x : BitVec n) : x.getLsbD 0 = true ↔ x.toNat % 2 = 1 := by
  rw [BitVec.getLsbD, Nat.testBit_zero, decide_eq_true_iff]

/-- Nothing but zero is shifted to zero. -/
theorem eq_zero_of_shift (hpoly : 2 ^ (n - 1) ≤ poly.toNat) (h : shift poly x = 0#n) : x = 0#n := by
  have hlt := x.isLt
  have hpos := poly.isLt
  rw [shift] at h
  have hhalf : (x >>> 1).toNat = x.toNat / 2 := by
    rw [BitVec.toNat_ushiftRight, Nat.shiftRight_eq_div_pow, pow_one]
  have hpow : n ≠ 0 → 2 ^ n = 2 * 2 ^ (n - 1) := by
    intro hn
    rw [← pow_succ', Nat.sub_add_cancel (Nat.pos_of_ne_zero hn)]
  have hn : n ≠ 0 := by
    rintro rfl
    simp at hpoly hpos
    omega
  split at h
  next hodd =>
    have heq := congrArg BitVec.toNat (eq_of_xor_eq_zero h)
    rw [hhalf] at heq
    have := hpow hn
    omega
  next heven =>
    have hzero := congrArg BitVec.toNat h
    rw [hhalf, BitVec.toNat_ofNat, Nat.zero_mod] at hzero
    rw [getLsbD_zero_eq] at heven
    apply BitVec.eq_of_toNat_eq
    rw [BitVec.toNat_ofNat, Nat.zero_mod]
    omega

theorem shift_injective (hpoly : 2 ^ (n - 1) ≤ poly.toNat) : Function.Injective (shift poly) := by
  intro x y h
  apply eq_of_xor_eq_zero
  apply eq_zero_of_shift hpoly
  rw [shift_xor, h, BitVec.xor_self]

theorem shifts_injective (hpoly : 2 ^ (n - 1) ≤ poly.toNat) (k : ℕ) :
    Function.Injective (shifts poly k) := by
  induction k with
  | zero => exact fun _ _ => id
  | succ k ih => exact fun x y h => shift_injective hpoly (ih h)

/-- Zeros that are shifted out leave the rest as it is. -/
theorem toNat_shifts {k v : ℕ} (h : x.toNat = v * 2 ^ k) : (shifts poly k x).toNat = v := by
  induction k generalizing x with
  | zero => simpa [shifts] using h
  | succ k ih =>
    rw [shifts]
    apply ih
    have hdouble : x.toNat = 2 * (v * 2 ^ k) := by
      rw [h, pow_succ]
      ring
    have heven : ¬x.getLsbD 0 = true := by
      rw [getLsbD_zero_eq]
      omega
    rw [shift, if_neg heven, BitVec.toNat_ushiftRight, Nat.shiftRight_eq_div_pow, pow_one]
    omega

/-- A little-endian word is its low byte and, moved up, the others. -/
theorem ofNat_word (b : UInt8) (v : ℕ) :
    BitVec.ofNat n (b.toNat + 256 * v) = BitVec.ofNat n b.toNat ^^^ BitVec.ofNat n (256 * v) := by
  have hb : b.toNat < 2 ^ 8 := b.toNat_lt
  apply BitVec.eq_of_getLsbD_eq
  intro i hi
  have hsum := Nat.testBit_two_pow_mul_add v hb i
  have hhigh := Nat.testBit_two_pow_mul_add v (Nat.two_pow_pos 8) i
  have hsplit : b.toNat + 256 * v = 2 ^ 8 * v + b.toNat := Nat.add_comm _ _
  have hzero : 256 * v = 2 ^ 8 * v + 0 := rfl
  rw [BitVec.getLsbD_xor, BitVec.getLsbD_ofNat, BitVec.getLsbD_ofNat, BitVec.getLsbD_ofNat, hsplit,
    hzero, hsum, hhigh]
  split
  next => simp [hi]
  next hge =>
    have hlow : b.toNat.testBit i = false := by
      apply Nat.testBit_lt_two_pow
      exact hb.trans_le (Nat.pow_le_pow_right (by decide) (not_lt.mp hge))
    simp [hi, hlow]

/-- Behind a zero byte the others move down. -/
theorem shifts_high {v : ℕ} (hv : 256 * v < 2 ^ n) :
    shifts poly 8 (BitVec.ofNat n (256 * v)) = BitVec.ofNat n v := by
  have hhigh : (BitVec.ofNat n (256 * v)).toNat = v * 2 ^ 8 := by
    rw [BitVec.toNat_ofNat, Nat.mod_eq_of_lt hv, Nat.mul_comm]
    rfl
  apply BitVec.eq_of_toNat_eq
  rw [toNat_shifts hhigh, BitVec.toNat_ofNat, Nat.mod_eq_of_lt (by omega)]

/-- The low byte of a word is shifted on while the others move down. -/
theorem shifts_word (b : UInt8) {v : ℕ} (hv : 256 * v < 2 ^ n) (k : ℕ) :
    shifts poly (8 + k) (BitVec.ofNat n (b.toNat + 256 * v)) =
      shifts poly (8 + k) (BitVec.ofNat n b.toNat) ^^^ shifts poly k (BitVec.ofNat n v) := by
  rw [ofNat_word, shifts_xor, shifts_add poly 8 k (BitVec.ofNat n (256 * v)), shifts_high hv]

/-- Bytes that the register has room for are taken in like one word. -/
theorem register_eq_shifts (poly x : BitVec n) {bs : Bytes} (h : 8 * bs.length ≤ n) :
    register poly x bs = shifts poly (8 * bs.length) (x ^^^ BitVec.ofNat n (decodeFixed bs)) := by
  induction bs generalizing x with
  | nil => simp [register, decodeFixed, shifts]
  | cons b bs ih =>
    rw [List.length_cons] at h
    have hroom : 256 * decodeFixed bs < 2 ^ n := by
      have hlt := decodeFixed_lt bs
      have hpow : 256 * 256 ^ bs.length ≤ 2 ^ n := by
        rw [← pow_succ', show (256 : ℕ) = 2 ^ 8 from rfl, ← pow_mul]
        exact Nat.pow_le_pow_right (by decide) h
      omega
    have hsplit : x ^^^ BitVec.ofNat n (decodeFixed (b :: bs)) =
        x ^^^ BitVec.ofNat n b.toNat ^^^ BitVec.ofNat n (256 * decodeFixed bs) := by
      rw [decodeFixed, ofNat_word, BitVec.xor_assoc]
    calc register poly x (b :: bs)
      _ = shifts poly (8 * bs.length) (feed poly x b ^^^ BitVec.ofNat n (decodeFixed bs)) :=
        ih _ (by omega)
      _ = shifts poly (8 * bs.length)
          (shifts poly 8 (x ^^^ BitVec.ofNat n (decodeFixed (b :: bs)))) := by
        rw [hsplit, shifts_xor poly 8, shifts_high hroom, feed]
      _ = shifts poly (8 * (b :: bs).length) (x ^^^ BitVec.ofNat n (decodeFixed (b :: bs))) := by
        rw [List.length_cons, Nat.mul_succ, Nat.add_comm, shifts_add]

theorem feed_injective (hpoly : 2 ^ (n - 1) ≤ poly.toNat) (b : UInt8) :
    Function.Injective fun x => feed poly x b := by
  intro x y h
  have hxor := shifts_injective hpoly 8 h
  have hback := congrArg (· ^^^ BitVec.ofNat n b.toNat) hxor
  simpa [BitVec.xor_assoc] using hback

theorem register_append (poly x : BitVec n) (bs cs : Bytes) :
    register poly x (bs ++ cs) = register poly (register poly x bs) cs := List.foldl_append

/-- Registers that differ go on to differ. -/
theorem register_injective (hpoly : 2 ^ (n - 1) ≤ poly.toNat) (bs : Bytes) :
    Function.Injective fun x => register poly x bs := by
  induction bs with
  | nil => exact fun _ _ => id
  | cons b bs ih => exact fun x y h => feed_injective hpoly b (ih h)

theorem eq_of_decodeFixed_eq {bs cs : Bytes} (hlen : bs.length = cs.length)
    (h : decodeFixed bs = decodeFixed cs) : bs = cs := by
  rw [← putFixed_decodeFixed bs, ← putFixed_decodeFixed cs, hlen, h]

theorem decodeFixed_lt_two_pow {bs : Bytes} (h : 8 * bs.length ≤ n) : decodeFixed bs < 2 ^ n := by
  apply (decodeFixed_lt bs).trans_le
  rw [show (256 : ℕ) = 2 ^ 8 from rfl, ← pow_mul]
  exact Nat.pow_le_pow_right (by decide) h

/-- A burst of errors no longer than the register is noticed, whatever stands around it. -/
theorem register_burst (hpoly : 2 ^ (n - 1) ≤ poly.toNat) (x : BitVec n) {front bs cs rear : Bytes}
    (hlen : bs.length = cs.length) (hroom : 8 * bs.length ≤ n)
    (h : register poly x (front ++ bs ++ rear) = register poly x (front ++ cs ++ rear)) : bs = cs := by
  have hroom' : 8 * cs.length ≤ n := hlen ▸ hroom
  rw [register_append, register_append, register_append, register_append] at h
  have hwindow := register_injective hpoly rear h
  rw [register_eq_shifts poly _ hroom, register_eq_shifts poly _ hroom', hlen] at hwindow
  have hcancel := congrArg (register poly x front ^^^ ·) (shifts_injective hpoly _ hwindow)
  have hword : BitVec.ofNat n (decodeFixed bs) = BitVec.ofNat n (decodeFixed cs) := by
    simpa [← BitVec.xor_assoc] using hcancel
  have hnat := congrArg BitVec.toNat hword
  rw [BitVec.toNat_ofNat, BitVec.toNat_ofNat, Nat.mod_eq_of_lt (decodeFixed_lt_two_pow hroom),
    Nat.mod_eq_of_lt (decodeFixed_lt_two_pow hroom')] at hnat
  exact eq_of_decodeFixed_eq hlen hnat

/-- Behind its own value, taken with a mask, every register comes to the same. -/
theorem register_own {bs : Bytes} (hlen : 8 * bs.length = n) (mask : BitVec n)
    (hbs : decodeFixed bs = (x ^^^ mask).toNat) : register poly x bs = shifts poly n mask := by
  rw [register_eq_shifts _ _ hlen.le, hbs, BitVec.ofNat_toNat, BitVec.setWidth_eq,
    ← BitVec.xor_assoc, BitVec.xor_self, BitVec.zero_xor, hlen]

end ZeroFlush.CyclicChecksums
