import ZeroFlush.PrefixCompression

/-! # Restart arrays

A restart is the offset of an entry that has its whole key, so that a reader can start there. -/
namespace ZeroFlush.RestartArrays
open FixedWidthCodec PrefixCompression

/-- At this offset of the body stands an entry that shares nothing, between the entries before and
those behind it. -/
def WholeAt (es : List Entry) (body : Bytes) (o : ℕ) : Prop :=
  ∃ before e behind beforeBytes behindBytes, es = before ++ e :: behind ∧
    body = beforeBytes ++ (putEntry 0 e ++ behindBytes) ∧ beforeBytes.length = o ∧
    Compressed [] before beforeBytes ∧ Compressed e.key behind behindBytes

/-- The restarts of a block: the first entry, and later ones in order. -/
structure RestartArray (es : List Entry) (body : Bytes) (restarts : List ℕ) : Prop where
  first : restarts.head? = some 0
  increasing : restarts.Pairwise (· < ·)
  whole : ∀ o ∈ restarts, WholeAt es body o

variable {es : List Entry} {e : Entry} {body body' : Bytes} {restarts restarts' : List ℕ} {o : ℕ}

theorem WholeAt.lt (h : WholeAt es body o) : o < body.length := by
  obtain ⟨before, e, behind, beforeBytes, behindBytes, -, rfl, rfl, -, -⟩ := h
  have hpos := length_putEntry_pos 0 e
  rw [List.length_append, List.length_append]
  omega

theorem finalKey_append_cons (prev : Bytes) (before : List Entry) (e : Entry)
    (behind : List Entry) : finalKey prev (before ++ e :: behind) = finalKey e.key behind := by
  induction before generalizing prev with
  | nil => exact finalKey_cons prev e behind
  | cons a before ih =>
    rw [List.cons_append, finalKey_cons, ih]

/-- A later entry changes nothing. -/
theorem WholeAt.concat (h : WholeAt es body o) {shared : ℕ} (hlt : shared < e.key.length)
    (hshared : e.key.take shared = (finalKey [] es).take shared) :
    WholeAt (es ++ [e]) (body ++ putEntry shared e) o := by
  obtain ⟨before, e', behind, beforeBytes, behindBytes, rfl, rfl, rfl, hbefore, hbehind⟩ := h
  rw [finalKey_append_cons] at hshared
  refine ⟨before, e', behind ++ [e], beforeBytes, behindBytes ++ putEntry shared e, ?_, ?_, rfl,
    hbefore, hbehind.concat hlt hshared⟩
  · rw [List.append_assoc, List.cons_append]
  · simp only [List.append_assoc]

/-- The entry that is put with its whole key. -/
theorem wholeAt_concat (h : Compressed [] es body) (e : Entry) :
    WholeAt (es ++ [e]) (body ++ putEntry 0 e) body.length :=
  ⟨es, e, [], body, [], rfl, by rw [List.append_nil], rfl, h, .nil _⟩

theorem restartArray_singleton (e : Entry) : RestartArray [e] (putEntry 0 e) [0] where
  first := rfl
  increasing := List.pairwise_singleton _ _
  whole := by
    intro o ho
    rw [List.mem_singleton.mp ho]
    exact wholeAt_concat (.nil []) e

theorem RestartArray.concat (h : RestartArray es body restarts) {shared : ℕ}
    (hlt : shared < e.key.length)
    (hshared : e.key.take shared = (finalKey [] es).take shared) :
    RestartArray (es ++ [e]) (body ++ putEntry shared e) restarts :=
  ⟨h.first, h.increasing, fun o ho => (h.whole o ho).concat hlt hshared⟩

/-- A restart for the new entry stands behind all others. -/
theorem RestartArray.concat_restart (h : RestartArray es body restarts)
    (hes : Compressed [] es body) (hpos : 0 < e.key.length) :
    RestartArray (es ++ [e]) (body ++ putEntry 0 e) (restarts ++ [body.length]) where
  first := by
    rw [List.head?_append, h.first]
    rfl
  increasing := by
    rw [List.pairwise_append]
    refine ⟨h.increasing, List.pairwise_singleton _ _, ?_⟩
    intro o ho o' ho'
    rw [List.mem_singleton.mp ho']
    exact (h.whole o ho).lt
  whole := by
    intro o ho
    rcases List.mem_append.mp ho with ho | ho
    · exact (h.whole o ho).concat hpos rfl
    · rw [List.mem_singleton.mp ho]
      exact wholeAt_concat hes e

/-- The first restart does not stand twice. -/
theorem not_restartArray_doubled (h : [0, 0] <+: restarts) : ¬ RestartArray es body restarts := by
  intro harray
  obtain ⟨later, rfl⟩ := h
  exact absurd (List.rel_of_pairwise_cons harray.increasing List.mem_cons_self) (lt_irrefl 0)

/-! ## A block determines its restarts -/

theorem map_mod_of_flatMap_putFixed (hlen : restarts.length = restarts'.length)
    (heq : restarts.flatMap (putFixed 4) = restarts'.flatMap (putFixed 4)) :
    restarts.map (· % 256 ^ 4) = restarts'.map (· % 256 ^ 4) := by
  induction restarts generalizing restarts' with
  | nil =>
    rw [List.length_eq_zero_iff.mp hlen.symm]
  | cons o restarts ih =>
    cases restarts' with
    | nil => cases hlen
    | cons o' restarts' =>
      rw [List.flatMap_cons, List.flatMap_cons] at heq
      obtain ⟨hfirst, hlater⟩ := List.append_inj heq (by rw [length_putFixed, length_putFixed])
      have hvalue := congrArg decodeFixed hfirst
      rw [decodeFixed_putFixed, decodeFixed_putFixed] at hvalue
      rw [List.map_cons, List.map_cons, hvalue, ih (Nat.succ.inj hlen) hlater]

/-- The last word of a block is the number of its restarts, and they stand before it. -/
theorem map_mod_of_putBlock (hn : restarts.length < 256 ^ 4) (hn' : restarts'.length < 256 ^ 4)
    (heq : putBlock body restarts = putBlock body' restarts') :
    restarts.map (· % 256 ^ 4) = restarts'.map (· % 256 ^ 4) := by
  have hlen := congrArg List.length heq
  rw [length_putBlock, length_putBlock] at hlen
  rw [putBlock, putBlock] at heq
  obtain ⟨hfront, hcount⟩ := List.append_inj' heq (by rw [length_putFixed, length_putFixed])
  have hvalue := congrArg decodeFixed hcount
  rw [decodeFixed_putFixed_of_lt hn, decodeFixed_putFixed_of_lt hn'] at hvalue
  obtain ⟨-, hrestarts⟩ := List.append_inj hfront (by omega)
  exact map_mod_of_flatMap_putFixed hvalue hrestarts

/-- A block whose restarts start with their first twice is no block with a restart array. -/
theorem not_restartArray_of_putBlock (hlen : (putBlock body restarts).length < 256 ^ 4)
    (h : [0, 0] <+: restarts) (heq : putBlock body restarts = putBlock body' restarts') :
    ¬ RestartArray es body' restarts' := by
  intro harray
  have hlen' : (putBlock body' restarts').length < 256 ^ 4 := heq ▸ hlen
  rw [length_putBlock] at hlen hlen'
  have hmod := map_mod_of_putBlock (by omega) (by omega) heq
  have hsmall : restarts'.map (· % 256 ^ 4) = restarts' := by
    rw [List.map_congr_left (g := id), List.map_id]
    intro o ho
    have hlt := (harray.whole o ho).lt
    exact Nat.mod_eq_of_lt (by omega)
  obtain ⟨later, rfl⟩ := h
  rw [hsmall] at hmod
  refine not_restartArray_doubled ⟨later.map (· % 256 ^ 4), ?_⟩ harray
  rw [← hmod]
  rfl

end ZeroFlush.RestartArrays
