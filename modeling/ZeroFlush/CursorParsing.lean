import ZeroFlush.FixedWidthCodec

/-! # Readers that take bytes from the front of their input -/
namespace ZeroFlush.CursorParsing
open FixedWidthCodec

variable {ε α β : Type}

abbrev Reader (ε α : Type) := StateT Bytes (Except ε) α

/-- Fail unless `n` bytes are left. -/
def need (n : ℕ) (e : ε) : Reader ε Unit :=
  fun input => if input.length < n then .error e else .ok ((), input)

/-- The next bytes, at most `n`. -/
def slice (n : ℕ) : Reader ε Bytes := fun input => .ok (input.take n, input.drop n)

def word (w : ℕ) : Reader ε ℕ := fun input => .ok (decodeFixed (input.take w), input.drop w)

def many : ℕ → Reader ε α → Reader ε (List α)
  | 0, _ => pure []
  | n + 1, r => do
    let x ← r
    let xs ← many n r
    pure (x :: xs)

/-- The reader takes exactly these bytes, whatever follows them. -/
def Reads (r : Reader ε α) (bytes : Bytes) (a : α) : Prop :=
  ∀ rest, r (bytes ++ rest) = .ok (a, rest)

theorem reads_pure (a : α) : Reads (pure a : Reader ε α) [] a := fun _ => rfl

theorem Reads.bind {r : Reader ε α} {f : α → Reader ε β} {bytes bytes' : Bytes} {a : α} {b : β}
    (hr : Reads r bytes a) (hf : Reads (f a) bytes' b) : Reads (r >>= f) (bytes ++ bytes') b := by
  intro rest
  have hfirst := hr (bytes' ++ rest)
  rw [← List.append_assoc] at hfirst
  simp only [Bind.bind, StateT.bind, Except.bind, hfirst]
  exact hf rest

theorem Reads.bind_pure {r : Reader ε α} {bytes : Bytes} {a : α} (hr : Reads r bytes a)
    (f : α → β) : Reads (r >>= fun x => pure (f x)) bytes (f a) := by
  rw [← List.append_nil bytes]
  exact hr.bind (reads_pure (f a))

theorem Reads.need_bind {r : Reader ε α} {bytes : Bytes} {a : α} {n : ℕ} {e : ε}
    (hr : Reads r bytes a) (hn : n ≤ bytes.length) :
    Reads (need n e >>= fun _ => r) bytes a := by
  intro rest
  have hlong : ¬ (bytes ++ rest).length < n := by
    rw [List.length_append]
    omega
  simp only [Bind.bind, StateT.bind, Except.bind, need, if_neg hlong]
  exact hr rest

theorem reads_word {w n : ℕ} (h : n < 256 ^ w) : Reads (word w : Reader ε ℕ) (putFixed w n) n := by
  intro rest
  rw [word, List.take_left' (length_putFixed w n), List.drop_left' (length_putFixed w n),
    decodeFixed_putFixed_of_lt h]

theorem reads_slice (bytes : Bytes) :
    Reads (slice bytes.length : Reader ε Bytes) bytes bytes := by
  intro rest
  rw [slice, List.take_left' rfl, List.drop_left' rfl]

theorem reads_many {r : Reader ε α} {encode : α → Bytes} {xs : List α}
    (h : ∀ x ∈ xs, Reads r (encode x) x) : Reads (many xs.length r) (xs.flatMap encode) xs := by
  induction xs with
  | nil => exact reads_pure []
  | cons x xs ih =>
    have htail := ih fun y hy => h y (List.mem_cons_of_mem _ hy)
    rw [List.flatMap_cons]
    exact (h x List.mem_cons_self).bind (htail.bind_pure (x :: ·))

end ZeroFlush.CursorParsing
