import ZeroFlush.CursorParsing

/-! # Readers that can run off their input

A load behind the end of the input stops the reader with an outcome of its own. -/
namespace ZeroFlush.BoundedReads
open FixedWidthCodec CursorParsing

inductive Stop (ε : Type)
  | fail (e : ε)
  | outside
  deriving DecidableEq, Repr

variable {ε α β : Type}

/-- The word of `w` bytes at the cursor. -/
def load (w : ℕ) : Reader (Stop ε) ℕ :=
  fun input => if input.length < w then .error .outside else word w input

/-- A copy of the next `n` bytes. -/
def copy (n : ℕ) : Reader (Stop ε) Bytes :=
  fun input => if input.length < n then .error .outside else slice n input

section outcomes
variable {r : Reader (Stop ε) α} {f : α → Reader (Stop ε) β} {input rest : Bytes} {n w : ℕ} {e : ε}

theorem bind_eq_ok {b : β} :
    (r >>= f) input = .ok (b, rest) ↔
      ∃ a mid, r input = .ok (a, mid) ∧ f a mid = .ok (b, rest) := by
  simp only [Bind.bind, StateT.bind, Except.bind]
  cases hr : r input with
  | error s => simp
  | ok am =>
    obtain ⟨a, mid⟩ := am
    simp

theorem bind_eq_error {s : Stop ε} :
    (r >>= f) input = .error s ↔
      r input = .error s ∨ ∃ a mid, r input = .ok (a, mid) ∧ f a mid = .error s := by
  simp only [Bind.bind, StateT.bind, Except.bind]
  cases hr : r input with
  | error s => simp
  | ok am =>
    obtain ⟨a, mid⟩ := am
    simp

theorem pure_eq_ok {a b : α} :
    (pure a : Reader (Stop ε) α) input = .ok (b, rest) ↔ a = b ∧ input = rest := by
  have hpure : (pure a : Reader (Stop ε) α) input = .ok (a, input) := rfl
  rw [hpure, Except.ok.injEq, Prod.mk.injEq]

theorem pure_ne_error {a : α} {s : Stop ε} : (pure a : Reader (Stop ε) α) input ≠ .error s := by
  intro h
  cases h

theorem need_eq_ok {s : Stop ε} {u : Unit} :
    need n s input = .ok (u, rest) ↔ n ≤ input.length ∧ input = rest := by
  simp only [need]
  split
  next hlt =>
    simp only [reduceCtorEq, false_iff]
    omega
  next hle => simp [Nat.le_of_not_lt hle]

theorem need_eq_error {s t : Stop ε} : need n s input = .error t ↔ input.length < n ∧ s = t := by
  simp only [need]
  split
  next hlt => simp [hlt]
  next hle => simp [hle]

theorem load_eq_ok {m : ℕ} :
    (load w : Reader (Stop ε) ℕ) input = .ok (m, rest) ↔
      input = putFixed w m ++ rest ∧ m < 256 ^ w := by
  constructor
  · intro h
    simp only [load] at h
    split at h
    · cases h
    next hle =>
      cases h
      have hlen : (input.take w).length = w := by
        rw [List.length_take]
        omega
      have hput := putFixed_decodeFixed (input.take w)
      have hlt := decodeFixed_lt (input.take w)
      rw [hlen] at hput hlt
      exact ⟨by rw [hput, List.take_append_drop], hlt⟩
  · rintro ⟨rfl, hlt⟩
    have hlong : ¬ (putFixed w m ++ rest).length < w := by
      rw [List.length_append, length_putFixed]
      omega
    rw [load, if_neg hlong]
    exact reads_word hlt rest

theorem load_eq_error {s : Stop ε} :
    (load w : Reader (Stop ε) ℕ) input = .error s ↔ input.length < w ∧ s = .outside := by
  simp only [load, word]
  split
  next hlt => simp [hlt, eq_comm]
  next hle => simp [hle]

theorem copy_eq_ok {bytes : Bytes} :
    (copy n : Reader (Stop ε) Bytes) input = .ok (bytes, rest) ↔
      input = bytes ++ rest ∧ bytes.length = n := by
  constructor
  · intro h
    simp only [copy, slice] at h
    split at h
    · cases h
    next hle =>
      cases h
      exact ⟨(List.take_append_drop n input).symm, by rw [List.length_take]; omega⟩
  · rintro ⟨rfl, rfl⟩
    have hlong : ¬ (bytes ++ rest).length < bytes.length := by
      rw [List.length_append]
      omega
    rw [copy, if_neg hlong]
    exact reads_slice bytes rest

theorem copy_eq_error {s : Stop ε} :
    (copy n : Reader (Stop ε) Bytes) input = .error s ↔ input.length < n ∧ s = .outside := by
  simp only [copy, slice]
  split
  next hlt => simp [hlt, eq_comm]
  next hle => simp [hle]

end outcomes

section sequences
variable {r : Reader (Stop ε) α} {f : ℕ → Reader (Stop ε) α} {g : Bytes → Reader (Stop ε) α}
variable {input rest : Bytes} {n w : ℕ} {a : α} {s : Stop ε} {e : ε}

theorem need_bind_eq_ok :
    (need n s >>= fun _ => r) input = .ok (a, rest) ↔
      n ≤ input.length ∧ r input = .ok (a, rest) := by
  rw [bind_eq_ok]
  constructor
  · rintro ⟨u, mid, hneed, hr⟩
    obtain ⟨hle, rfl⟩ := need_eq_ok.mp hneed
    exact ⟨hle, hr⟩
  · rintro ⟨hle, hr⟩
    exact ⟨(), input, need_eq_ok.mpr ⟨hle, rfl⟩, hr⟩

theorem need_bind_eq_outside :
    (need n (.fail e) >>= fun _ => r) input = .error .outside ↔
      n ≤ input.length ∧ r input = .error .outside := by
  rw [bind_eq_error]
  constructor
  · rintro (hneed | ⟨u, mid, hneed, hr⟩)
    · cases (need_eq_error.mp hneed).2
    · obtain ⟨hle, rfl⟩ := need_eq_ok.mp hneed
      exact ⟨hle, hr⟩
  · rintro ⟨hle, hr⟩
    exact .inr ⟨(), input, need_eq_ok.mpr ⟨hle, rfl⟩, hr⟩

theorem load_bind_eq_ok :
    (load w >>= f) input = .ok (a, rest) ↔
      ∃ m mid, input = putFixed w m ++ mid ∧ m < 256 ^ w ∧ f m mid = .ok (a, rest) := by
  simp only [bind_eq_ok, load_eq_ok, and_assoc]

/-- A load of bytes that are there does not stop. -/
theorem load_bind_eq_error (h : w ≤ input.length) :
    (load w >>= f) input = .error s ↔
      ∃ m mid, input = putFixed w m ++ mid ∧ m < 256 ^ w ∧ f m mid = .error s := by
  rw [bind_eq_error]
  constructor
  · rintro (hload | ⟨m, mid, hload, hf⟩)
    · exact absurd (load_eq_error.mp hload).1 (by omega)
    · obtain ⟨hinput, hlt⟩ := load_eq_ok.mp hload
      exact ⟨m, mid, hinput, hlt, hf⟩
  · rintro ⟨m, mid, hinput, hlt, hf⟩
    exact .inr ⟨m, mid, load_eq_ok.mpr ⟨hinput, hlt⟩, hf⟩

theorem need_bind_of_le (h : n ≤ input.length) :
    (need n s >>= fun _ => r) input = r input := by
  simp only [Bind.bind, StateT.bind, Except.bind, need, if_neg (Nat.not_lt.mpr h)]

theorem load_bind_putFixed {m : ℕ} (h : m < 256 ^ w) :
    (load w >>= f) (putFixed w m ++ rest) = f m rest := by
  have hload := (load_eq_ok : (load w : Reader (Stop ε) ℕ) _ = .ok (m, rest) ↔ _).mpr ⟨rfl, h⟩
  simp only [Bind.bind, StateT.bind, Except.bind, hload]

theorem copy_bind_append {bytes : Bytes} :
    (copy bytes.length >>= g) (bytes ++ rest) = g bytes rest := by
  have hcopy :=
    (copy_eq_ok : (copy bytes.length : Reader (Stop ε) Bytes) _ = .ok (bytes, rest) ↔ _).mpr ⟨rfl, rfl⟩
  simp only [Bind.bind, StateT.bind, Except.bind, hcopy]

theorem copy_bind_eq_ok :
    (copy n >>= g) input = .ok (a, rest) ↔
      ∃ bytes mid, input = bytes ++ mid ∧ bytes.length = n ∧ g bytes mid = .ok (a, rest) := by
  simp only [bind_eq_ok, copy_eq_ok, and_assoc]

theorem copy_bind_eq_error (h : n ≤ input.length) :
    (copy n >>= g) input = .error s ↔
      ∃ bytes mid, input = bytes ++ mid ∧ bytes.length = n ∧ g bytes mid = .error s := by
  rw [bind_eq_error]
  constructor
  · rintro (hcopy | ⟨bytes, mid, hcopy, hg⟩)
    · exact absurd (copy_eq_error.mp hcopy).1 (by omega)
    · obtain ⟨hinput, hlen⟩ := copy_eq_ok.mp hcopy
      exact ⟨bytes, mid, hinput, hlen, hg⟩
  · rintro ⟨bytes, mid, hinput, hlen, hg⟩
    exact .inr ⟨bytes, mid, copy_eq_ok.mpr ⟨hinput, hlen⟩, hg⟩

end sequences

/-- The reader takes the encoding of a legal value, and nothing else. -/
def Parses (r : Reader (Stop ε) α) (encode : α → Bytes) (Legal : α → Prop) : Prop :=
  ∀ {input a rest}, r input = .ok (a, rest) ↔ input = encode a ++ rest ∧ Legal a

section many
variable {r : Reader (Stop ε) α} {encode : α → Bytes} {Legal : α → Prop}

theorem Parses.many (hr : Parses r encode Legal) (n : ℕ) :
    Parses (many n r) (List.flatMap encode) fun xs => xs.length = n ∧ ∀ x ∈ xs, Legal x := by
  induction n with
  | zero =>
    intro input xs rest
    rw [CursorParsing.many, pure_eq_ok]
    constructor
    · rintro ⟨rfl, rfl⟩
      simp
    · rintro ⟨rfl, hlen, -⟩
      rw [List.length_eq_zero_iff.mp hlen]
      exact ⟨rfl, rfl⟩
  | succ n ih =>
    intro input xs rest
    rw [CursorParsing.many, bind_eq_ok]
    constructor
    · rintro ⟨x, mid, hx, htail⟩
      obtain ⟨ys, mid', hys, hpure⟩ := bind_eq_ok.mp htail
      obtain ⟨rfl, rfl⟩ := pure_eq_ok.mp hpure
      obtain ⟨rfl, hlegal⟩ := hr.mp hx
      obtain ⟨rfl, hlen, hall⟩ := ih.mp hys
      refine ⟨?_, ?_, ?_⟩
      · rw [List.flatMap_cons, List.append_assoc]
      · rw [List.length_cons, hlen]
      · exact List.forall_mem_cons.mpr ⟨hlegal, hall⟩
    · rintro ⟨rfl, hlen, hall⟩
      cases xs with
      | nil => cases hlen
      | cons x ys =>
        obtain ⟨hlegal, hrest⟩ := List.forall_mem_cons.mp hall
        refine ⟨x, ys.flatMap encode ++ rest, hr.mpr ⟨?_, hlegal⟩, ?_⟩
        · rw [List.flatMap_cons, List.append_assoc]
        · exact bind_eq_ok.mpr ⟨ys, rest, ih.mpr ⟨rfl, Nat.succ.inj hlen, hrest⟩,
            pure_eq_ok.mpr ⟨rfl, rfl⟩⟩

/-- A repeated reader stops where one of its rounds does, behind the values read so far. -/
theorem Parses.many_eq_error (hr : Parses r encode Legal) (n : ℕ) {input : Bytes} {s : Stop ε} :
    CursorParsing.many n r input = .error s ↔
      ∃ (xs : List α) (mid : Bytes), xs.length < n ∧ input = xs.flatMap encode ++ mid ∧ (∀ x ∈ xs, Legal x) ∧
        r mid = .error s := by
  induction n generalizing input with
  | zero =>
    constructor
    · intro h
      exact absurd h pure_ne_error
    · rintro ⟨xs, mid, hlen, -⟩
      exact absurd hlen (Nat.not_lt_zero _)
  | succ n ih =>
    rw [CursorParsing.many, bind_eq_error]
    constructor
    · rintro (hfirst | ⟨x, mid, hx, htail⟩)
      · exact ⟨[], input, Nat.succ_pos n, rfl, by simp, hfirst⟩
      · obtain ⟨rfl, hlegal⟩ := hr.mp hx
        rcases bind_eq_error.mp htail with hstop | ⟨ys, mid', -, hpure⟩
        · obtain ⟨xs, mid', hlen, rfl, hall, hstop⟩ := ih.mp hstop
          refine ⟨x :: xs, mid', Nat.succ_lt_succ hlen, ?_,
            List.forall_mem_cons.mpr ⟨hlegal, hall⟩, hstop⟩
          rw [List.flatMap_cons, List.append_assoc]
        · exact absurd hpure pure_ne_error
    · rintro ⟨xs, mid, hlen, rfl, hall, hstop⟩
      cases xs with
      | nil => exact .inl hstop
      | cons x xs =>
        obtain ⟨hlegal, hrest⟩ := List.forall_mem_cons.mp hall
        refine .inr ⟨x, xs.flatMap encode ++ mid, hr.mpr ⟨?_, hlegal⟩, ?_⟩
        · rw [List.flatMap_cons, List.append_assoc]
        · exact bind_eq_error.mpr (.inl (ih.mpr ⟨xs, mid, Nat.lt_of_succ_lt_succ hlen, rfl, hrest,
            hstop⟩))

end many

theorem parses_load (w : ℕ) :
    Parses (load w : Reader (Stop ε) ℕ) (putFixed w) fun m => m < 256 ^ w := load_eq_ok

/-- Every error of the reader's own is one of these. -/
def FailsWith (P : ε → Prop) (r : Reader (Stop ε) α) : Prop :=
  ∀ (input : Bytes) (e : ε), r input = .error (.fail e) → P e

section failsWith
variable {P : ε → Prop} {r : Reader (Stop ε) α}

theorem failsWith_pure (a : α) : FailsWith P (pure a : Reader (Stop ε) α) :=
  fun _ _ h => absurd h pure_ne_error

theorem FailsWith.bind {f : α → Reader (Stop ε) β} (hr : FailsWith P r)
    (hf : ∀ a, FailsWith P (f a)) : FailsWith P (r >>= f) := by
  intro input e h
  rcases bind_eq_error.mp h with hfirst | ⟨a, mid, -, hsecond⟩
  · exact hr input e hfirst
  · exact hf a mid e hsecond

theorem failsWith_need {e : ε} (he : P e) (n : ℕ) : FailsWith P (need n (.fail e)) := by
  intro input e' h
  cases (need_eq_error.mp h).2
  exact he

theorem failsWith_load (w : ℕ) : FailsWith P (load w) :=
  fun _ _ h => by cases (load_eq_error.mp h).2

theorem failsWith_copy (n : ℕ) : FailsWith P (copy n) :=
  fun _ _ h => by cases (copy_eq_error.mp h).2

theorem FailsWith.many (hr : FailsWith P r) (n : ℕ) : FailsWith P (many n r) := by
  induction n with
  | zero => exact failsWith_pure []
  | succ n ih => exact hr.bind fun x => ih.bind fun xs => failsWith_pure (x :: xs)

end failsWith

/-- `r'` does what `r` does as long as `r` stays inside its input. -/
def Follows (r' : Reader ε α) (r : Reader (Stop ε) α) : Prop :=
  ∀ input, (∀ x, r input = .ok x → r' input = .ok x) ∧
    ∀ e, r input = .error (.fail e) → r' input = .error e

section follows
variable {r : Reader (Stop ε) α} {r' : Reader ε α}

theorem follows_pure (a : α) : Follows (pure a : Reader ε α) (pure a) := by
  intro input
  refine ⟨?_, ?_⟩
  · intro x h
    cases h
    rfl
  · intro e h
    cases h

theorem Follows.bind {f : α → Reader (Stop ε) β} {f' : α → Reader ε β} (hr : Follows r' r)
    (hf : ∀ a, Follows (f' a) (f a)) : Follows (r' >>= f') (r >>= f) := by
  intro input
  simp only [Bind.bind, StateT.bind, Except.bind]
  cases hfirst : r input with
  | ok am =>
    rw [(hr input).1 am hfirst]
    exact hf am.1 am.2
  | error s =>
    refine ⟨fun x h => ?_, fun e h => ?_⟩
    · cases h
    · cases h
      rw [(hr input).2 e hfirst]

theorem follows_need (n : ℕ) (e : ε) : Follows (need n e) (need n (.fail e)) := by
  intro input
  simp only [need]
  split
  · refine ⟨?_, ?_⟩
    · intro x h
      cases h
    · intro e' h
      cases h
      rfl
  · refine ⟨?_, ?_⟩
    · intro x h
      cases h
      rfl
    · intro e' h
      cases h

theorem follows_load (w : ℕ) : Follows (word w : Reader ε ℕ) (load w) := by
  intro input
  simp only [load, word]
  split <;> exact ⟨fun x h => by cases h; try rfl, fun e h => by cases h⟩

theorem follows_copy (n : ℕ) : Follows (slice n : Reader ε Bytes) (copy n) := by
  intro input
  simp only [copy, slice]
  split <;> exact ⟨fun x h => by cases h; try rfl, fun e h => by cases h⟩

theorem Follows.many (hr : Follows r' r) (n : ℕ) :
    Follows (CursorParsing.many n r') (CursorParsing.many n r) := by
  induction n with
  | zero => exact follows_pure []
  | succ n ih => exact hr.bind fun x => ih.bind fun xs => follows_pure (x :: xs)

end follows

end ZeroFlush.BoundedReads
