import ZeroFlush.FixedWidthCodec

/-! # Memories addressed by the byte -/
namespace ZeroFlush.ByteMemory
open FixedWidthCodec

abbrev Memory := ℕ → UInt8

variable {m m' : Memory} {a b n k : ℕ} {bs cs : Bytes}

def load (m : Memory) : ℕ → ℕ → Bytes
  | _, 0 => []
  | a, n + 1 => m a :: load m (a + 1) n

def store (m : Memory) (a : ℕ) (bs : Bytes) : Memory :=
  fun i => if a ≤ i then (bs[i - a]?).getD (m i) else m i

/-- A little-endian word of `w` bytes. -/
def loadFixed (m : Memory) (w a : ℕ) : ℕ := decodeFixed (load m a w)

/-- These bytes stand in the memory from the address on. -/
def Holds (m : Memory) (a : ℕ) (bs : Bytes) : Prop := load m a bs.length = bs

@[simp] theorem load_zero (m : Memory) (a : ℕ) : load m a 0 = [] := rfl

@[simp] theorem length_load (m : Memory) (a n : ℕ) : (load m a n).length = n := by
  induction n generalizing a with
  | zero => rfl
  | succ n ih => rw [load, List.length_cons, ih]

theorem load_add (m : Memory) (a n k : ℕ) : load m a (n + k) = load m a n ++ load m (a + n) k := by
  induction n generalizing a with
  | zero => simp
  | succ n ih =>
    rw [Nat.add_right_comm, load, load, List.cons_append, ih, Nat.add_right_comm a 1 n,
      Nat.add_assoc a n 1]

theorem take_load (m : Memory) (a n k : ℕ) : (load m a n).take k = load m a (min k n) := by
  rcases Nat.le_total k n with hle | hle
  · obtain ⟨j, rfl⟩ := Nat.exists_eq_add_of_le hle
    rw [load_add, List.take_left' (length_load m a k), Nat.min_eq_left (by omega)]
  · rw [List.take_of_length_le (by rwa [length_load]), Nat.min_eq_right hle]

theorem load_congr (h : ∀ i, a ≤ i → i < a + n → m i = m' i) : load m a n = load m' a n := by
  induction n generalizing a with
  | zero => rfl
  | succ n ih =>
    rw [load, load, h a le_rfl (by omega), ih fun i hi hlt => h i (by omega) (by omega)]

theorem getElem?_load (m : Memory) (a : ℕ) {n i : ℕ} (h : i < n) :
    (load m a n)[i]? = some (m (a + i)) := by
  induction n generalizing a i with
  | zero => omega
  | succ n ih =>
    cases i with
    | zero => rfl
    | succ i =>
      rw [load, List.getElem?_cons_succ, ih (a + 1) (by omega), Nat.add_right_comm, Nat.add_assoc]

theorem store_apply_of_lt {i : ℕ} (h : i < a) : store m a bs i = m i := if_neg (by omega)

theorem store_apply_of_le {i : ℕ} (h : a + bs.length ≤ i) : store m a bs i = m i := by
  rw [store, if_pos (by omega), List.getElem?_eq_none (by omega), Option.getD_none]

/-- Bytes before the stored ones stay as they are. -/
theorem load_store_of_le (h : b + n ≤ a) : load (store m a bs) b n = load m b n :=
  load_congr fun _ _ hi => store_apply_of_lt (by omega)

/-- So do the bytes behind them. -/
theorem load_store_of_ge (h : a + bs.length ≤ b) : load (store m a bs) b n = load m b n :=
  load_congr fun _ hi _ => store_apply_of_le (by omega)

@[simp] theorem load_store (m : Memory) (a : ℕ) (bs : Bytes) :
    load (store m a bs) a bs.length = bs := by
  apply List.ext_getElem?
  intro i
  by_cases hi : i < bs.length
  · rw [getElem?_load _ _ hi, store, if_pos (by omega), Nat.add_sub_cancel_left,
      List.getElem?_eq_getElem hi, Option.getD_some]
  · rw [List.getElem?_eq_none (by simpa using hi), List.getElem?_eq_none (by omega)]

@[simp] theorem store_nil (m : Memory) (a : ℕ) : store m a [] = m := by
  funext i
  simp [store]

/-- Two stores side by side are one. -/
theorem store_store (m : Memory) (a : ℕ) (bs cs : Bytes) :
    store (store m a bs) (a + bs.length) cs = store m a (bs ++ cs) := by
  funext i
  by_cases ha : a ≤ i
  · by_cases hb : i < a + bs.length
    · rw [store_apply_of_lt hb, store, store, if_pos ha, if_pos ha,
        List.getElem?_append_left (by omega)]
    · rw [store, if_pos (by omega), store_apply_of_le (by omega), store, if_pos ha,
        List.getElem?_append_right (by omega), Nat.sub_sub]
  · rw [store_apply_of_lt (by omega), store_apply_of_lt (by omega), store_apply_of_lt (by omega)]

@[simp] theorem holds_nil (m : Memory) (a : ℕ) : Holds m a [] := rfl

theorem holds_store (m : Memory) (a : ℕ) (bs : Bytes) : Holds (store m a bs) a bs :=
  load_store m a bs

theorem holds_load (m : Memory) (a n : ℕ) : Holds m a (load m a n) := by
  rw [Holds, length_load]

theorem holds_append : Holds m a (bs ++ cs) ↔ Holds m a bs ∧ Holds m (a + bs.length) cs := by
  rw [Holds, List.length_append, load_add]
  constructor
  · intro h
    exact List.append_inj h (length_load m a bs.length)
  · rintro ⟨hfirst, hsecond⟩
    rw [Holds.eq_1] at hfirst hsecond
    rw [hfirst, hsecond]

theorem holds_cons {b : UInt8} : Holds m a (b :: bs) ↔ m a = b ∧ Holds m (a + 1) bs := by
  rw [Holds, List.length_cons, load, List.cons.injEq]
  exact Iff.rfl

theorem Holds.load_eq (h : Holds m a bs) (hn : n = bs.length) : load m a n = bs := by
  subst hn
  exact h

theorem Holds.load_take (h : Holds m a bs) (hn : n ≤ bs.length) : load m a n = bs.take n := by
  rw [← List.take_append_drop n bs, holds_append] at h
  exact h.1.load_eq (by simpa using hn)

theorem Holds.initial (h : Holds m a bs) (hpre : cs <+: bs) : Holds m a cs := by
  obtain ⟨rest, rfl⟩ := hpre
  exact (holds_append.mp h).1

theorem Holds.congr (h : Holds m a bs) (heq : ∀ i, a ≤ i → i < a + bs.length → m' i = m i) :
    Holds m' a bs := (load_congr heq).trans h

theorem Holds.store_of_le (h : Holds m b bs) (hle : b + bs.length ≤ a) :
    Holds (store m a cs) b bs := (load_store_of_le hle).trans h

theorem Holds.store_of_ge (h : Holds m b bs) (hle : a + cs.length ≤ b) :
    Holds (store m a cs) b bs := (load_store_of_ge hle).trans h

/-- What is appended to bytes that are there already. -/
theorem Holds.append_store (h : Holds m a bs) (cs : Bytes) :
    Holds (store m (a + bs.length) cs) a (bs ++ cs) :=
  holds_append.mpr ⟨h.store_of_le le_rfl, holds_store m _ cs⟩

theorem Holds.loadFixed {w : ℕ} (h : Holds m a (putFixed w n)) (hn : n < 256 ^ w) :
    loadFixed m w a = n := by
  rw [ByteMemory.loadFixed, h.load_eq (by simp), decodeFixed_putFixed_of_lt hn]

end ZeroFlush.ByteMemory
