import Mathlib.Data.Nat.Digits.Lemmas
import ZeroFlush.FixedWidthCodec

/-! # Decimal numerals as bytes

A number has one numeral without zeros in front. A reader of numerals takes those with zeros, too. -/
namespace ZeroFlush.Numerals
open FixedWidthCodec

variable {n m : ℕ} {p p' x x' : Bytes} {c : UInt8}

def isDigit (c : UInt8) : Bool := decide (48 ≤ c.toNat ∧ c.toNat ≤ 57)

/-- The numeral of a number. -/
def decimal (n : ℕ) : Bytes :=
  if n = 0 then [48] else (Nat.digits 10 n).reverse.map fun d => UInt8.ofNat (48 + d)

/-- The number of a numeral. -/
def decimalValue (p : Bytes) : ℕ := Nat.ofDigits 10 (p.reverse.map fun c => c.toNat - 48)

theorem toNat_digit {d : ℕ} (h : d < 10) : (UInt8.ofNat (48 + d)).toNat = 48 + d := by
  rw [UInt8.toNat_ofNat']
  exact Nat.mod_eq_of_lt (by omega)

theorem decimal_ne_nil (n : ℕ) : decimal n ≠ [] := by
  rw [decimal]
  split
  · exact List.cons_ne_nil _ _
  next hn =>
    rw [ne_eq, List.map_eq_nil_iff, List.reverse_eq_nil_iff]
    exact Nat.digits_ne_nil_iff_ne_zero.mpr hn

theorem isDigit_of_mem_decimal (h : c ∈ decimal n) : isDigit c = true := by
  rw [decimal] at h
  split at h
  · rw [List.mem_singleton] at h
    subst h
    decide
  · obtain ⟨d, hd, rfl⟩ := List.mem_map.mp h
    have hlt : d < 10 := Nat.digits_lt_base (by decide) (List.mem_reverse.mp hd)
    rw [isDigit, toNat_digit hlt, decide_eq_true_eq]
    omega

theorem decimalValue_decimal (n : ℕ) : decimalValue (decimal n) = n := by
  rw [decimal]
  split
  next hn =>
    subst hn
    decide
  next hn =>
    have hdigits : (Nat.digits 10 n).map (fun d => (UInt8.ofNat (48 + d)).toNat - 48) =
        Nat.digits 10 n := by
      conv_rhs => rw [← List.map_id (Nat.digits 10 n)]
      apply List.map_congr_left
      intro d hd
      rw [toNat_digit (Nat.digits_lt_base (by decide) hd)]
      exact Nat.add_sub_cancel_left 48 d
    rw [decimalValue, ← List.map_reverse, List.reverse_reverse, List.map_map]
    exact (congrArg _ hdigits).trans (Nat.ofDigits_digits 10 n)

/-- A numeral of digits without a zero in front is that of its number. -/
theorem decimal_decimalValue (hp : ∀ d ∈ p, isDigit d = true) (hhead : p.head? ≠ some 48)
    (hne : p ≠ []) :
    decimal (decimalValue p) = p := by
  have hlt : ∀ d ∈ p.reverse.map fun c => c.toNat - 48, d < 10 := by
    intro d hd
    obtain ⟨c, hc, rfl⟩ := List.mem_map.mp hd
    have hdigit := hp c (List.mem_reverse.mp hc)
    rw [isDigit, decide_eq_true_eq] at hdigit
    omega
  have hdigits : Nat.digits 10 (decimalValue p) = p.reverse.map fun c => c.toNat - 48 := by
    apply Nat.digits_ofDigits 10 (by decide) _ hlt
    intro hrev
    rw [List.getLast_map, List.getLast_reverse]
    have hfirst := hp _ (List.head_mem hne)
    rw [List.head?_eq_some_head hne, ne_eq, Option.some_inj] at hhead
    rw [isDigit, decide_eq_true_eq] at hfirst
    have hzero : (p.head hne).toNat ≠ 48 := fun heq => hhead (UInt8.toNat_inj.mp heq)
    omega
  have hpos : decimalValue p ≠ 0 := by
    intro hzero
    rw [hzero, Nat.digits_zero] at hdigits
    exact hne (List.reverse_eq_nil_iff.mp (List.map_eq_nil_iff.mp hdigits.symm))
  rw [decimal, if_neg hpos, hdigits, ← List.map_reverse, List.reverse_reverse, List.map_map]
  conv_rhs => rw [← List.map_id p]
  apply List.map_congr_left
  intro c hc
  have hdigit := hp c hc
  rw [isDigit, decide_eq_true_eq] at hdigit
  apply UInt8.toNat_inj.mp
  rw [Function.comp_apply, toNat_digit (by omega), id]
  omega

/-- The numeral of a number has no zero in front. -/
theorem head?_decimal (n : ℕ) : decimal n = [48] ∨ (decimal n).head? ≠ some 48 := by
  by_cases hn : n = 0
  · rw [decimal, if_pos hn]
    exact .inl rfl
  · right
    have hlast := Nat.getLast_digit_ne_zero 10 hn
    have hne := Nat.digits_ne_nil_iff_ne_zero (b := 10).mpr hn
    have hlt := Nat.digits_lt_base (b := 10) (by decide) (List.getLast_mem hne)
    rw [decimal, if_neg hn, List.head?_map, List.head?_reverse, List.getLast?_eq_some_getLast hne]
    intro heq
    have hbyte := congrArg UInt8.toNat (Option.some_inj.mp heq)
    rw [toNat_digit hlt] at hbyte
    exact hlast (by simpa using hbyte)

theorem decimal_injective : Function.Injective decimal :=
  Function.LeftInverse.injective decimalValue_decimal

/-- Where the digits end is no choice. -/
theorem append_cons_inj (hp : ∀ d ∈ p, isDigit d = true) (hp' : ∀ d ∈ p', isDigit d = true)
    (hc : isDigit c = false) (h : p ++ c :: x = p' ++ c :: x') : p = p' ∧ x = x' := by
  induction p generalizing p' with
  | nil =>
    cases p' with
    | nil => exact ⟨rfl, (List.cons.inj h).2⟩
    | cons d p' =>
      have heq := (List.cons.inj h).1
      rw [heq, hp' d List.mem_cons_self] at hc
      nomatch hc
  | cons d p ih =>
    cases p' with
    | nil =>
      have heq := (List.cons.inj h).1
      rw [← heq, hp d List.mem_cons_self] at hc
      nomatch hc
    | cons d' p' =>
      obtain ⟨heq, htail⟩ := List.cons.inj h
      obtain ⟨hrest, hx⟩ := ih (fun e he => hp e (List.mem_cons_of_mem _ he))
        (fun e he => hp' e (List.mem_cons_of_mem _ he)) htail
      exact ⟨by rw [heq, hrest], hx⟩

end ZeroFlush.Numerals
