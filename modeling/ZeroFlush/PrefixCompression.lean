import ZeroFlush.Varints

/-! # Entries that leave out what their key shares with the key before

A block is a run of such entries, the offsets of those that share nothing (the restart points), and
their number. -/
namespace ZeroFlush.PrefixCompression
open FixedWidthCodec ByteMemory Varints

structure Entry where
  key : Bytes
  value : Bytes
deriving DecidableEq

def sharedLength : Bytes → Bytes → ℕ
  | a :: as, b :: bs => if a = b then sharedLength as bs + 1 else 0
  | _, _ => 0

def putEntry (shared : ℕ) (e : Entry) : Bytes :=
  putVarint shared ++ putVarint (e.key.length - shared) ++ putVarint e.value.length ++
    e.key.drop shared ++ e.value

/-- The key the next entry may share with. -/
def finalKey (prev : Bytes) (es : List Entry) : Bytes := (es.getLast?.map Entry.key).getD prev

/-- The bytes are the entries in order behind the key `prev`. Every entry leaves out a beginning
that it has in common with the key before, but never its whole key. -/
inductive Compressed : Bytes → List Entry → Bytes → Prop
  | nil (prev : Bytes) : Compressed prev [] []
  | cons {prev bs : Bytes} {e : Entry} {es : List Entry} (shared : ℕ)
      (hlt : shared < e.key.length) (hshared : e.key.take shared = prev.take shared)
      (hrest : Compressed e.key es bs) : Compressed prev (e :: es) (putEntry shared e ++ bs)

def putBlock (body : Bytes) (restarts : List ℕ) : Bytes :=
  body ++ restarts.flatMap (putFixed 4) ++ putFixed 4 restarts.length

variable {prev a b bs bs' : Bytes} {e : Entry} {es es' : List Entry} {restarts : List ℕ}

@[simp] theorem finalKey_nil (prev : Bytes) : finalKey prev [] = prev := rfl

@[simp] theorem finalKey_append_singleton (prev : Bytes) (es : List Entry) (e : Entry) :
    finalKey prev (es ++ [e]) = e.key := by
  rw [finalKey, List.getLast?_concat]
  rfl

theorem exists_finalKey_eq (prev : Bytes) (h : es ≠ []) : ∃ e ∈ es, finalKey prev es = e.key :=
  ⟨es.getLast h, List.getLast_mem h, by rw [finalKey, List.getLast?_eq_some_getLast h]; rfl⟩

theorem finalKey_cons (prev : Bytes) (e : Entry) (es : List Entry) :
    finalKey prev (e :: es) = finalKey e.key es := by
  cases es with
  | nil => rfl
  | cons e' es => rw [finalKey, finalKey, List.getLast?_cons_cons, List.getLast?_eq_some_getLast (by simp)]; rfl

theorem take_sharedLength (a b : Bytes) : b.take (sharedLength a b) = a.take (sharedLength a b) := by
  induction a generalizing b with
  | nil => cases b <;> rfl
  | cons x a ih =>
    cases b with
    | nil => rfl
    | cons y b =>
      rw [sharedLength]
      split
      · next hxy => rw [List.take_succ_cons, List.take_succ_cons, ih b, hxy]
      · rfl

theorem sharedLength_le (a b : Bytes) : sharedLength a b ≤ b.length := by
  induction a generalizing b with
  | nil => cases b <;> exact Nat.zero_le _
  | cons x a ih =>
    cases b with
    | nil => exact Nat.zero_le _
    | cons y b =>
      rw [sharedLength]
      split
      · exact Nat.succ_le_succ (ih b)
      · exact Nat.zero_le _

/-- A key shares its whole length only with the keys it begins. -/
theorem sharedLength_lt (h : ¬ b <+: a) : sharedLength a b < b.length := by
  apply Nat.lt_of_le_of_ne (sharedLength_le a b)
  intro heq
  have htake := take_sharedLength a b
  rw [heq, List.take_length] at htake
  rw [htake] at h
  exact h (List.take_prefix _ a)

theorem length_putEntry_pos (shared : ℕ) (e : Entry) : 3 ≤ (putEntry shared e).length := by
  have h1 := length_putVarint_pos shared
  have h2 := length_putVarint_pos (e.key.length - shared)
  have h3 := length_putVarint_pos e.value.length
  simp only [putEntry, List.length_append]
  omega

theorem Compressed.eq_nil (h : Compressed prev [] bs) : bs = [] := by
  cases h
  rfl

theorem Compressed.length_le (h : Compressed prev es bs) : 3 * es.length ≤ bs.length := by
  induction h with
  | nil => exact Nat.zero_le _
  | @cons _ _ e _ shared _ _ _ ih =>
    have hpos := length_putEntry_pos shared e
    rw [List.length_cons, List.length_append]
    omega

theorem Compressed.append (h : Compressed prev es bs) (h' : Compressed (finalKey prev es) es' bs') :
    Compressed prev (es ++ es') (bs ++ bs') := by
  induction h with
  | nil prev => exact h'
  | cons shared hlt hshared hrest ih =>
    rw [finalKey_cons] at h'
    rw [List.cons_append, List.append_assoc]
    exact Compressed.cons shared hlt hshared (ih h')

theorem Compressed.concat (h : Compressed prev es bs) {shared : ℕ} (hlt : shared < e.key.length)
    (hshared : e.key.take shared = (finalKey prev es).take shared) :
    Compressed prev (es ++ [e]) (bs ++ putEntry shared e) := by
  apply h.append
  rw [← List.append_nil (putEntry shared e)]
  exact Compressed.cons shared hlt hshared (Compressed.nil _)

/-- The first entry behind the empty key shares nothing, so it may stand behind any key. -/
theorem Compressed.of_nil (h : Compressed [] es bs) (prev : Bytes) : Compressed prev es bs := by
  cases h with
  | nil => exact Compressed.nil prev
  | @cons _ _ e _ shared hlt hshared hrest =>
    have hzero : shared = 0 := by
      have hlen := congrArg List.length hshared
      rw [List.length_take, List.take_nil, List.length_nil] at hlen
      omega
    subst hzero
    exact Compressed.cons 0 hlt rfl hrest

theorem length_putBlock (body : Bytes) (restarts : List ℕ) :
    (putBlock body restarts).length = body.length + (restarts.length * 4 + 4) := by
  have hwords : (restarts.flatMap (putFixed 4)).length = restarts.length * 4 := by
    induction restarts with
    | nil => rfl
    | cons r restarts ih =>
      rw [List.flatMap_cons, List.length_append, ih, length_putFixed, List.length_cons]
      omega
  rw [putBlock, List.length_append, List.length_append, hwords, length_putFixed]
  omega

end ZeroFlush.PrefixCompression
