import ZeroFlush.FixedWidthCodec

/-! # Byte strings in lexicographic order

The order of `memcmp`: on strings of one length it is the order of the big-endian numbers, and it
turns around when every bit is flipped. -/
namespace ZeroFlush.LexBytes
open FixedWidthCodec

/-- Byte by byte, a proper beginning before the longer string. -/
def lex (a b : Bytes) : Ordering := List.compareLex Ord.compare a b

/-- `memcmp(a, b, n)` of strings that have `n` bytes. -/
def memcmp (a b : Bytes) (n : ℕ) : Ordering := lex (a.take n) (b.take n)

instance : Std.TransCmp lex := inferInstanceAs (Std.TransCmp (List.compareLex Ord.compare))

instance : Std.LawfulEqCmp lex := inferInstanceAs (Std.LawfulEqCmp (List.compareLex Ord.compare))

@[simp] theorem lex_nil_nil : lex [] [] = .eq := rfl

@[simp] theorem lex_nil_cons (b : UInt8) (bs : Bytes) : lex [] (b :: bs) = .lt := rfl

@[simp] theorem lex_cons_nil (a : UInt8) (as : Bytes) : lex (a :: as) [] = .gt := rfl

theorem lex_cons_cons (a b : UInt8) (as bs : Bytes) :
    lex (a :: as) (b :: bs) = (compare a b).then (lex as bs) := List.compareLex_cons_cons

@[simp] theorem lex_self (a : Bytes) : lex a a = .eq := Std.ReflCmp.compare_self

theorem eq_of_lex {a b : Bytes} (h : lex a b = .eq) : a = b := Std.LawfulEqCmp.eq_of_compare h

theorem lex_append_left (c a b : Bytes) : lex (c ++ a) (c ++ b) = lex a b := by
  induction c with
  | nil => rfl
  | cons x c ih =>
    have hx : compare x x = .eq := Std.ReflCmp.compare_self
    rw [List.cons_append, List.cons_append, lex_cons_cons, ih, hx]
    rfl

/-- Behind beginnings of one length the rest decides only between equal beginnings. -/
theorem lex_append {a b : Bytes} (h : a.length = b.length) (x y : Bytes) :
    lex (a ++ x) (b ++ y) = (lex a b).then (lex x y) := by
  induction a generalizing b with
  | nil =>
    obtain rfl := List.length_eq_zero_iff.mp h.symm
    rfl
  | cons c a ih =>
    cases b with
    | nil => cases h
    | cons d b =>
      rw [List.cons_append, List.cons_append, lex_cons_cons, lex_cons_cons,
        ih (Nat.succ_injective h)]
      cases compare c d <;> rfl

/-- Once neither string is a beginning of the other, what follows does not matter. -/
theorem lex_append_of_lt {a b : Bytes} (h : lex a b = .lt) (hpre : ¬ a <+: b) (x y : Bytes) :
    lex (a ++ x) (b ++ y) = .lt := by
  induction a generalizing b with
  | nil => exact absurd List.nil_prefix hpre
  | cons c a ih =>
    cases b with
    | nil => cases h
    | cons d b =>
      rw [List.cons_append, List.cons_append, lex_cons_cons] at *
      cases hcd : compare c d with
      | lt => rfl
      | gt =>
        rw [hcd] at h
        cases h
      | eq =>
        rw [hcd] at h
        obtain rfl := Std.LawfulEqOrd.eq_of_compare hcd
        exact ih h fun hp => hpre ((List.prefix_cons_inj c).mpr hp)

/-- A shorter string is compared with the beginning of the longer one. -/
theorem lex_append_right {a b : Bytes} (h : a.length < b.length) (y : Bytes) :
    lex a (b ++ y) = lex a b := by
  induction a generalizing b with
  | nil =>
    cases b with
    | nil => cases h
    | cons d b => rfl
  | cons c a ih =>
    cases b with
    | nil => cases h
    | cons d b =>
      rw [List.cons_append, lex_cons_cons, lex_cons_cons, ih (Nat.lt_of_succ_lt_succ h)]

/-- The common length decides, and after it the lengths. -/
theorem lex_eq_take_min (a b : Bytes) :
    lex a b = (memcmp a b (min a.length b.length)).then (compare a.length b.length) := by
  rw [memcmp]
  induction a generalizing b with
  | nil => cases b <;> rfl
  | cons c a ih =>
    cases b with
    | nil => rfl
    | cons d b =>
      rw [List.length_cons, List.length_cons, Nat.succ_min_succ, List.take_succ_cons,
        List.take_succ_cons, lex_cons_cons, lex_cons_cons, ih]
      have hlen : compare (a.length + 1) (b.length + 1) = compare a.length b.length := by
        rw [Nat.compare_eq_ite_lt, Nat.compare_eq_ite_lt]
        simp only [Nat.succ_lt_succ_iff]
      rw [hlen]
      cases compare c d <;> rfl

theorem lex_of_isPrefix {a b : Bytes} (h : a <+: b) (hne : a ≠ b) : lex a b = .lt := by
  obtain ⟨x, rfl⟩ := h
  have hx : x ≠ [] := by
    rintro rfl
    exact hne (List.append_nil a).symm
  obtain ⟨c, x, rfl⟩ := List.exists_cons_of_ne_nil hx
  have happ := lex_append_left a [] (c :: x)
  rw [List.append_nil] at happ
  rw [happ]
  rfl

theorem compare_toNat (a b : UInt8) : compare a b = compare a.toNat b.toNat := by
  rw [Nat.compare_eq_ite_lt]
  change compareOfLessAndEq a b = _
  simp only [compareOfLessAndEq, UInt8.lt_iff_toNat_lt, ← UInt8.toNat_inj]
  grind

/-- The high digit decides before the low one. -/
theorem compare_digits {w x y : ℕ} (hx : x < w) (hy : y < w) (c d : ℕ) :
    compare (x + w * c) (y + w * d) = (compare c d).then (compare x y) := by
  obtain h | rfl | h := lt_trichotomy c d
  · have hmul : w * (c + 1) ≤ w * d := Nat.mul_le_mul_left w h
    rw [Nat.mul_succ] at hmul
    rw [Nat.compare_eq_lt.mpr h, Nat.compare_eq_lt.mpr (by omega)]
    rfl
  · have hcc : compare c c = .eq := Std.ReflCmp.compare_self
    rw [hcc, Nat.compare_eq_ite_lt, Nat.compare_eq_ite_lt]
    simp only [Nat.add_lt_add_iff_right]
    rfl
  · have hmul : w * (d + 1) ≤ w * c := Nat.mul_le_mul_left w h
    rw [Nat.mul_succ] at hmul
    rw [Nat.compare_eq_gt.mpr h, Nat.compare_eq_gt.mpr (by omega)]
    rfl

/-- Strings of one length are in the order of the numbers they are with the highest byte first. -/
theorem lex_eq_compare {a b : Bytes} (h : a.length = b.length) :
    lex a b = compare (decodeFixed a.reverse) (decodeFixed b.reverse) := by
  induction a generalizing b with
  | nil =>
    obtain rfl := List.length_eq_zero_iff.mp h.symm
    rfl
  | cons c a ih =>
    cases b with
    | nil => cases h
    | cons d b =>
      have hlen : a.length = b.length := Nat.succ_injective h
      have ha := decodeFixed_lt a.reverse
      have hb := decodeFixed_lt b.reverse
      rw [List.length_reverse] at ha hb
      rw [hlen] at ha
      rw [lex_cons_cons, ih hlen, List.reverse_cons, List.reverse_cons, decodeFixed_append,
        decodeFixed_append, List.length_reverse, List.length_reverse, hlen, compare_digits ha hb,
        compare_toNat]
      rfl

/-- Flipping every bit turns the order of strings of one length around. -/
theorem lex_map_complement {a b : Bytes} (h : a.length = b.length) :
    lex (a.map (~~~ ·)) (b.map (~~~ ·)) = lex b a := by
  induction a generalizing b with
  | nil =>
    obtain rfl := List.length_eq_zero_iff.mp h.symm
    rfl
  | cons c a ih =>
    cases b with
    | nil => cases h
    | cons d b =>
      have hcd : compare (~~~c) (~~~d) = compare d c := by
        have hc := c.toNat_lt
        have hd := d.toNat_lt
        rw [compare_toNat, compare_toNat, UInt8.toNat_not, UInt8.toNat_not, Nat.compare_eq_ite_lt,
          Nat.compare_eq_ite_lt]
        simp only [UInt8.size]
        grind
      rw [List.map_cons, List.map_cons, lex_cons_cons, lex_cons_cons, hcd,
        ih (Nat.succ_injective h)]

end ZeroFlush.LexBytes
