import ZeroFlush.IndexChains
import ZeroFlush.RecencyOrder

/-! # The contents of an index chain

An insertion changes one index of the chain or adds one. Along every chain the entries are sorted
and known to the filter of the partition. -/
namespace ZeroFlush.IndexContents
open FixedWidthCodec FiniteMaps WalFormat PartitionedWal UserKeys OrderedInsertion PartitionIndexes
  IndexChains RecencyOrder

variable {ucmp : UserComparator} {s : PartitionIndexSet} {part gen p : ℕ} {e : IndexEntry}
  {idx : PartitionIndex}

/-- The index after an insertion, which keeps an entry with the same key and sequence number. -/
def inserted (ucmp : UserComparator) (e : IndexEntry) (idx : PartitionIndex) : PartitionIndex :=
  (idx.insert ucmp e).getD idx

@[simp] theorem inserted_gen (idx : PartitionIndex) : (inserted ucmp e idx).gen = idx.gen := by
  rw [inserted]
  cases h : idx.insert ucmp e with
  | none => rfl
  | some idx' => exact insert_gen h

theorem mem_inserted {x : IndexEntry} (h : x ∈ (inserted ucmp e idx).entries) :
    x = e ∨ x ∈ idx.entries := by
  rw [inserted] at h
  cases hi : idx.insert ucmp e with
  | none =>
    rw [hi] at h
    exact .inr h
  | some idx' =>
    rw [hi] at h
    exact (mem_insert hi).mp h

theorem subset_inserted : idx.entries ⊆ (inserted ucmp e idx).entries := by
  intro x hx
  rw [inserted]
  cases hi : idx.insert ucmp e with
  | none => exact hx
  | some idx' => exact (mem_insert hi).mpr (.inr hx)

theorem mem_inserted_self (h : ∀ x ∈ idx.entries, compareKeySeq ucmp e x ≠ .eq) :
    e ∈ (inserted ucmp e idx).entries := by
  obtain ⟨idx', hi⟩ := exists_insert h
  rw [inserted, hi]
  exact (mem_insert hi).mpr (.inl rfl)

@[simp] theorem entries_inserted_empty (gen : ℕ) : (inserted ucmp e { gen := gen }).entries = [e] :=
  rfl

theorem ascending_inserted (h : Ascending (compareKeySeq ucmp) idx.entries) :
    Ascending (compareKeySeq ucmp) (inserted ucmp e idx).entries := by
  rw [inserted]
  cases hi : idx.insert ucmp e with
  | none => exact h
  | some idx' =>
    obtain ⟨entries, he, rfl⟩ := Option.map_eq_some_iff.mp hi
    exact ascending_insertNew h he

theorem chain_of_active (ha : s.active.lookup part = some idx) :
    s.chain part = idx :: (s.frozenChain part).reverse := by
  rw [PartitionIndexSet.chain, ha]
  rfl

theorem chain_of_no_active (ha : s.active.lookup part = none) :
    s.chain part = (s.frozenChain part).reverse := by
  rw [PartitionIndexSet.chain, ha]
  rfl

/-- The chain after the active index of a partition was replaced. -/
theorem chain_insert_active (s : PartitionIndexSet) (part : ℕ) (idx : PartitionIndex) (p : ℕ) :
    ({ s with active := s.active.insert part idx } : PartitionIndexSet).chain p =
      if p = part then idx :: (s.frozenChain p).reverse else s.chain p := by
  rw [PartitionIndexSet.chain]
  show ((s.active.insert part idx).lookup p).toList ++ (s.frozenChain p).reverse = _
  rw [lookup_insert_eq]
  split <;> rfl

theorem frozenChain_insert (s : PartitionIndexSet) (part : ℕ) (l : List PartitionIndex) (p : ℕ) :
    ({ s with frozen := s.frozen.insert part l } : PartitionIndexSet).frozenChain p =
      if p = part then l else s.frozenChain p := by
  show ((s.frozen.insert part l).lookup p).getD [] = _
  rw [lookup_insert_eq]
  split <;> rfl

/-- The chain after the frozen chain of a partition was replaced. -/
theorem chain_insert_frozen (s : PartitionIndexSet) (part : ℕ) (l : List PartitionIndex) (p : ℕ) :
    ({ s with frozen := s.frozen.insert part l } : PartitionIndexSet).chain p =
      if p = part then (s.active.lookup p).toList ++ l.reverse else s.chain p := by
  show (s.active.lookup p).toList ++ (PartitionIndexSet.frozenChain _ p).reverse = _
  rw [frozenChain_insert]
  split <;> rfl

theorem chain_insertActive (ha : s.active.lookup part = some idx) (p : ℕ) :
    (s.insertActive ucmp part e).chain p =
      if p = part then inserted ucmp e idx :: (s.frozenChain p).reverse else s.chain p := by
  rw [PartitionIndexSet.insertActive, ha, Option.bind_some, inserted]
  cases hi : idx.insert ucmp e with
  | none =>
    dsimp only
    rw [Option.getD_none]
    split
    next hp =>
      subst hp
      exact chain_of_active ha
    next => rfl
  | some idx' =>
    dsimp only
    rw [chain_noteInserted]
    exact chain_insert_active s part idx' p

theorem active_insertActive (s : PartitionIndexSet) (part : ℕ) (e : IndexEntry) (p : ℕ) :
    (s.insertActive ucmp part e).active.lookup p =
      if p = part then (s.active.lookup part).map (inserted ucmp e) else s.active.lookup p := by
  rw [PartitionIndexSet.insertActive]
  cases ha : s.active.lookup part with
  | none =>
    rw [Option.bind_none, Option.map_none]
    dsimp only
    split
    next hp => exact hp ▸ ha
    next => rfl
  | some idx =>
    rw [Option.bind_some, Option.map_some, inserted]
    cases hi : idx.insert ucmp e with
    | none =>
      rw [Option.getD_none]
      dsimp only
      split
      next hp => exact hp ▸ ha
      next => rfl
    | some idx' => exact lookup_insert_eq s.active part p idx'

/-- The index of the generation that `Insert` finds in a frozen chain. -/
theorem chain_insertFrozen {s' : PartitionIndexSet}
    (h : s.insertFrozen ucmp part gen e = some s') :
    ∃ l₁ j l₂, (s.frozenChain part).reverse = l₁ ++ j :: l₂ ∧ (∀ i ∈ l₁, i.gen ≠ gen) ∧
      j.gen = gen ∧ s'.active = s.active ∧
      (s'.frozenChain part).reverse = l₁ ++ inserted ucmp e j :: l₂ ∧
      ∀ p ≠ part, s'.frozenChain p = s.frozenChain p := by
  rw [PartitionIndexSet.insertFrozen] at h
  cases hf : (s.frozenChain part).reverse.find? fun idx => idx.gen == gen with
  | none =>
    rw [hf] at h
    cases h
  | some j =>
    rw [hf] at h
    obtain ⟨hfound, l₁, l₂, hl, hbefore⟩ := List.find?_eq_some_iff_append.mp hf
    have hj : j.gen = gen := by simpa using hfound
    have hl₁ : ∀ i ∈ l₁, i.gen ≠ gen := by
      intro i hi
      simpa using hbefore i hi
    refine ⟨l₁, j, l₂, hl, hl₁, hj, ?_⟩
    dsimp only at h
    cases hi : j.insert ucmp e with
    | none =>
      rw [hi] at h
      cases h
      rw [inserted, hi]
      exact ⟨rfl, hl, fun _ _ => rfl⟩
    | some j' =>
      rw [hi] at h
      cases h
      rw [inserted, hi]
      have hmod : modifyFirst (fun i => i.gen == gen) (fun _ => j') (s.frozenChain part).reverse =
          some (l₁ ++ j' :: l₂) := by
        rw [hl]
        clear hf hl hbefore
        induction l₁ with
        | nil => simp [modifyFirst, hj]
        | cons i l₁ ih =>
          have hne := hl₁ i List.mem_cons_self
          rw [List.cons_append, modifyFirst, if_neg (by simpa using hne),
            ih fun x hx => hl₁ x (List.mem_cons_of_mem _ hx)]
          rfl
      refine ⟨rfl, ?_, ?_⟩
      · show (PartitionIndexSet.frozenChain { s with
          frozen := s.frozen.insert part ((modifyFirst _ _ _).getD []).reverse } part).reverse = _
        rw [frozenChain_insert, if_pos rfl, hmod]
        exact List.reverse_reverse _
      · intro p hp
        show PartitionIndexSet.frozenChain { s with
          frozen := s.frozen.insert part ((modifyFirst _ _ _).getD []).reverse } p = _
        rw [frozenChain_insert, if_neg hp]

theorem insertFrozen_eq_none (h : s.insertFrozen ucmp part gen e = none) :
    ∀ i ∈ s.frozenChain part, i.gen ≠ gen := by
  rw [PartitionIndexSet.insertFrozen] at h
  split at h
  next hf =>
    intro i hi
    have hne := List.find?_eq_none.mp hf i (List.mem_reverse.mpr hi)
    simpa using hne
  next => split at h <;> cases h

/-- What an insertion does to the chain of its partition: the first index of the generation gets
the entry, or an index is made for it, or nothing happens. -/
inductive Insertion (ucmp : UserComparator) (gen : ℕ) (e : IndexEntry) (s : PartitionIndexSet)
    (part : ℕ) (after : List PartitionIndex) : Prop
  | into (l₁ : List PartitionIndex) (j : PartitionIndex) (l₂ : List PartitionIndex)
      (before : s.chain part = l₁ ++ j :: l₂) (skipped : ∀ i ∈ l₁, i.gen ≠ gen) (gen_eq : j.gen = gen)
      (eq : after = l₁ ++ inserted ucmp e j :: l₂)
  | first (none_active : s.active.lookup part = none)
      (eq : after = inserted ucmp e { gen := gen } :: s.chain part)
  | second (a : PartitionIndex) (l : List PartitionIndex) (active : s.active.lookup part = some a)
      (before : s.chain part = a :: l) (absent : ∀ i ∈ s.chain part, i.gen ≠ gen)
      (eq : after = a :: inserted ucmp e { gen := gen } :: l)
  | dropped (active : s.active.lookup part ≠ none) (absent : ∀ i ∈ s.chain part, i.gen ≠ gen)
      (eq : after = s.chain part)

private theorem insertion_first (ha : s.active.lookup part = none) :
    Insertion ucmp gen e s part
        (((s.createActive part gen).insertActive ucmp part e).chain part) ∧
      ∀ p ≠ part, ((s.createActive part gen).insertActive ucmp part e).chain p = s.chain p := by
  have hactive : (s.createActive part gen).active.lookup part = some { gen := gen } := by
    simp [PartitionIndexSet.createActive]
  have hchain : ∀ p, (s.createActive part gen).chain p =
      if p = part then { gen := gen } :: (s.frozenChain p).reverse else s.chain p :=
    chain_insert_active s part { gen := gen }
  refine ⟨.first ha ?_, ?_⟩
  · rw [chain_insertActive hactive, if_pos rfl, chain_of_no_active ha]
    rfl
  · intro p hp
    rw [chain_insertActive hactive, if_neg hp, hchain, if_neg hp]

private theorem insertion_active (ha : s.active.lookup part = some idx) (hg : idx.gen = gen) :
    Insertion ucmp gen e s part ((s.insertActive ucmp part e).chain part) ∧
      ∀ p ≠ part, (s.insertActive ucmp part e).chain p = s.chain p := by
  refine ⟨.into [] idx (s.frozenChain part).reverse (chain_of_active ha) ?_ hg ?_, ?_⟩
  · exact fun i hi => absurd hi List.not_mem_nil
  · rw [chain_insertActive ha, if_pos rfl]
    rfl
  · intro p hp
    rw [chain_insertActive ha, if_neg hp]

private theorem insertion_frozen (ha : s.active.lookup part = some idx) (hg : idx.gen ≠ gen)
    {s' : PartitionIndexSet} (h : s.insertFrozen ucmp part gen e = some s') :
    Insertion ucmp gen e s part (s'.chain part) ∧ ∀ p ≠ part, s'.chain p = s.chain p := by
  obtain ⟨l₁, j, l₂, hl, hl₁, hj, hactive, hfrozen, hother⟩ := chain_insertFrozen h
  refine ⟨.into (idx :: l₁) j l₂ ?_ ?_ hj ?_, ?_⟩
  · rw [chain_of_active ha, hl]
    rfl
  · intro i hi
    cases List.mem_cons.mp hi with
    | inl he => exact he ▸ hg
    | inr hi => exact hl₁ i hi
  · rw [PartitionIndexSet.chain, hactive, ha, hfrozen]
    rfl
  · intro p hp
    rw [PartitionIndexSet.chain, PartitionIndexSet.chain, hactive, hother p hp]

/-- `Insert` on the chains. -/
theorem chain_insert (ucmp : UserComparator) (s : PartitionIndexSet) (part gen : ℕ)
    (e : IndexEntry) :
    Insertion ucmp gen e s part ((s.insert ucmp part gen e).chain part) ∧
      ∀ p ≠ part, (s.insert ucmp part gen e).chain p = s.chain p := by
  rw [PartitionIndexSet.insert]
  cases ha : s.active.lookup part with
  | none => exact insertion_first ha
  | some idx =>
    dsimp only
    split
    next hg => exact insertion_active ha hg
    next hg =>
      cases hf : s.insertFrozen ucmp part gen e with
      | some s' => exact insertion_frozen ha hg hf
      | none =>
        refine ⟨.dropped (by simp [ha]) ?_ rfl, fun _ _ => rfl⟩
        intro i hi
        rw [chain_of_active ha] at hi
        cases List.mem_cons.mp hi with
        | inl he => exact he ▸ hg
        | inr hi => exact insertFrozen_eq_none hf i (List.mem_reverse.mp hi)

/-- `InsertCreate` on the chains. -/
theorem chain_insertCreate (ucmp : UserComparator) (s : PartitionIndexSet) (part gen : ℕ)
    (e : IndexEntry) :
    Insertion ucmp gen e s part ((s.insertCreate ucmp part gen e).chain part) ∧
      ∀ p ≠ part, (s.insertCreate ucmp part gen e).chain p = s.chain p := by
  rw [PartitionIndexSet.insertCreate]
  cases ha : s.active.lookup part with
  | none => exact insertion_first ha
  | some idx =>
    dsimp only
    split
    next hg => exact insertion_active ha hg
    next hg =>
      cases hf : s.insertFrozen ucmp part gen e with
      | some s' => exact insertion_frozen ha hg hf
      | none =>
        have habsent := insertFrozen_eq_none hf
        dsimp only
        have hpushed : (s.pushFrozen part { gen := gen }).frozenChain part =
            s.frozenChain part ++ [{ gen := gen }] := by
          rw [PartitionIndexSet.pushFrozen, frozenChain_insert, if_pos rfl]
        have hpushed' : ∀ p ≠ part, (s.pushFrozen part { gen := gen }).frozenChain p =
            s.frozenChain p := by
          intro p hp
          rw [PartitionIndexSet.pushFrozen, frozenChain_insert, if_neg hp]
        cases hc : (s.pushFrozen part { gen := gen }).insertFrozen ucmp part gen e with
        | none =>
          have hne := insertFrozen_eq_none hc { gen := gen } (by simp [hpushed])
          exact absurd rfl hne
        | some s' =>
          obtain ⟨l₁, j, l₂, hl, hl₁, hj, hactive, hfrozen, hother⟩ := chain_insertFrozen hc
          rw [hpushed, List.reverse_append, List.reverse_singleton, List.singleton_append] at hl
          -- the new index stands first in the frozen chain
          obtain ⟨rfl, rfl, rfl⟩ : l₁ = [] ∧ j = { gen := gen } ∧
              l₂ = (s.frozenChain part).reverse := by
            cases l₁ with
            | nil =>
              obtain ⟨hj', hl₂⟩ := List.cons.inj hl
              exact ⟨rfl, hj'.symm, hl₂.symm⟩
            | cons i l₁ =>
              obtain ⟨hi, -⟩ := List.cons.inj hl
              exact absurd (hi ▸ rfl) (hl₁ i List.mem_cons_self)
          have hactive' : s'.active = s.active := hactive
          refine ⟨.second idx (s.frozenChain part).reverse ha (chain_of_active ha) ?_ ?_, ?_⟩
          · intro i hi
            rw [chain_of_active ha] at hi
            cases List.mem_cons.mp hi with
            | inl he => exact he ▸ hg
            | inr hi => exact habsent i (List.mem_reverse.mp hi)
          · show s'.chain part = _
            rw [PartitionIndexSet.chain, hactive', ha, hfrozen]
            rfl
          · intro p hp
            show s'.chain p = _
            rw [PartitionIndexSet.chain, PartitionIndexSet.chain, hactive', hother p hp,
              hpushed' p hp]

/-- `InsertCreate` never drops an entry for want of an index. -/
theorem exists_gen_insertCreate (ucmp : UserComparator) (s : PartitionIndexSet) (part gen : ℕ)
    (e : IndexEntry) : ∃ i ∈ (s.insertCreate ucmp part gen e).chain part, i.gen = gen := by
  have hfrozen : ∀ {t t' : PartitionIndexSet}, t.insertFrozen ucmp part gen e = some t' →
      ∃ i ∈ t'.chain part, i.gen = gen := by
    intro t t' ht
    obtain ⟨l₁, j, l₂, -, -, hj, -, hchain, -⟩ := chain_insertFrozen ht
    refine ⟨inserted ucmp e j, ?_, (inserted_gen j).trans hj⟩
    rw [PartitionIndexSet.chain, hchain]
    simp
  have hactive : ∀ {t : PartitionIndexSet} {idx : PartitionIndex},
      t.active.lookup part = some idx → idx.gen = gen →
      ∃ i ∈ (t.insertActive ucmp part e).chain part, i.gen = gen := by
    intro t idx ha hg
    refine ⟨inserted ucmp e idx, ?_, (inserted_gen idx).trans hg⟩
    rw [chain_insertActive ha, if_pos rfl]
    exact List.mem_cons_self
  rw [PartitionIndexSet.insertCreate]
  cases ha : s.active.lookup part with
  | none =>
    have hcreated : (s.createActive part gen).active.lookup part = some { gen := gen } := by
      simp [PartitionIndexSet.createActive]
    exact hactive hcreated rfl
  | some idx =>
    dsimp only
    split
    next hg => exact hactive ha hg
    next =>
      cases hf : s.insertFrozen ucmp part gen e with
      | some s' => exact hfrozen hf
      | none =>
        cases hc : (s.pushFrozen part { gen := gen }).insertFrozen ucmp part gen e with
        | some s' => exact hfrozen hc
        | none =>
          refine absurd rfl (insertFrozen_eq_none hc { gen := gen } ?_)
          rw [PartitionIndexSet.pushFrozen, frozenChain_insert, if_pos rfl]
          simp

/-- Only an active index of the generation is changed or made by `Insert`. -/
theorem active_insert {i : PartitionIndex}
    (h : (s.insert ucmp part gen e).active.lookup p = some i) :
    s.active.lookup p = some i ∨ p = part ∧ i.gen = gen := by
  rw [PartitionIndexSet.insert] at h
  cases ha : s.active.lookup part with
  | none =>
    rw [ha] at h
    dsimp only at h
    rw [active_insertActive] at h
    have hcreated : ∀ p, (s.createActive part gen).active.lookup p =
        if p = part then some { gen := gen } else s.active.lookup p :=
      fun p => lookup_insert_eq s.active part p _
    rw [hcreated, hcreated, if_pos rfl] at h
    split at h
    next hp =>
      cases h
      exact .inr ⟨hp, inserted_gen _⟩
    next => exact .inl h
  | some idx =>
    rw [ha] at h
    dsimp only at h
    split at h
    next hg =>
      rw [active_insertActive, ha] at h
      split at h
      next hp =>
        cases h
        exact .inr ⟨hp, (inserted_gen _).trans hg⟩
      next => exact .inl h
    next =>
      cases hf : s.insertFrozen ucmp part gen e with
      | none =>
        rw [hf] at h
        exact .inl h
      | some s' =>
        obtain ⟨-, -, -, -, -, -, hactive, -, -⟩ := chain_insertFrozen hf
        rw [hf] at h
        exact .inl (hactive ▸ h)

theorem active_freeze (s : PartitionIndexSet) (part newGen p : ℕ) :
    (s.freeze part newGen).active.lookup p =
      if p = part then some { gen := newGen } else s.active.lookup p := by
  rw [PartitionIndexSet.freeze]
  split
  · exact lookup_insert_eq s.active part p _
  · split
    · exact lookup_insert_eq s.active part p _
    · exact lookup_insert_eq s.active part p _

/-- Every index after an insertion was there, or is one of its generation with the entry. -/
theorem Insertion.mem {after : List PartitionIndex} (h : Insertion ucmp gen e s part after)
    {i : PartitionIndex} (hi : i ∈ after) :
    i ∈ s.chain part ∨ i = inserted ucmp e { gen := gen } ∨
      ∃ j ∈ s.chain part, j.gen = gen ∧ i = inserted ucmp e j := by
  cases h with
  | into l₁ j l₂ before skipped gen_eq eq =>
    rw [eq, List.mem_append, List.mem_cons] at hi
    rw [before]
    obtain hi | rfl | hi := hi
    · exact .inl (List.mem_append_left _ hi)
    · exact .inr (.inr ⟨j, by simp, gen_eq, rfl⟩)
    · exact .inl (List.mem_append_right _ (List.mem_cons_of_mem _ hi))
  | first none_active eq =>
    rw [eq, List.mem_cons] at hi
    exact hi.elim (fun he => .inr (.inl he)) .inl
  | second a l active before absent eq =>
    rw [eq, List.mem_cons, List.mem_cons] at hi
    rw [before]
    obtain rfl | rfl | hi := hi
    · exact .inl List.mem_cons_self
    · exact .inr (.inl rfl)
    · exact .inl (List.mem_cons_of_mem _ hi)
  | dropped active absent eq => exact .inl (eq ▸ hi)

/-- No entry is taken away by an insertion. -/
theorem Insertion.keeps {after : List PartitionIndex} (h : Insertion ucmp gen e s part after)
    {i : PartitionIndex} (hi : i ∈ s.chain part) :
    ∃ j ∈ after, j.gen = i.gen ∧ i.entries ⊆ j.entries := by
  cases h with
  | into l₁ j l₂ before skipped gen_eq eq =>
    rw [before, List.mem_append, List.mem_cons] at hi
    rw [eq]
    obtain hi | rfl | hi := hi
    · exact ⟨i, List.mem_append_left _ hi, rfl, List.Subset.refl _⟩
    · exact ⟨inserted ucmp e i, by simp, inserted_gen i, subset_inserted⟩
    · exact ⟨i, List.mem_append_right _ (List.mem_cons_of_mem _ hi), rfl, List.Subset.refl _⟩
  | first none_active eq =>
    exact ⟨i, eq ▸ List.mem_cons_of_mem _ hi, rfl, List.Subset.refl _⟩
  | second a l active before absent eq =>
    refine ⟨i, ?_, rfl, List.Subset.refl _⟩
    rw [before, List.mem_cons] at hi
    rw [eq, List.mem_cons, List.mem_cons]
    exact hi.imp_right .inr
  | dropped active absent eq => exact ⟨i, eq ▸ hi, rfl, List.Subset.refl _⟩

/-- What holds of every index of a chain and of an index with one entry, and is kept by an
insertion, holds after it. -/
theorem Insertion.forall {after : List PartitionIndex} (h : Insertion ucmp gen e s part after)
    {P : PartitionIndex → Prop} (hold : ∀ i ∈ s.chain part, P i)
    (hnew : P (inserted ucmp e { gen := gen })) (hins : ∀ i, i.gen = gen → P i → P (inserted ucmp e i)) :
    ∀ i ∈ after, P i := by
  intro i hi
  obtain hi | rfl | ⟨j, hj, hg, rfl⟩ := h.mem hi
  · exact hold i hi
  · exact hnew
  · exact hins j hg (hold j hj)

/-- `Freeze` puts an empty index in front of the chain, in place of an active one without
entries. -/
theorem chain_freeze (s : PartitionIndexSet) (part newGen : ℕ) :
    (∃ rest, (s.freeze part newGen).chain part = { gen := newGen } :: rest ∧
      (rest = s.chain part ∨
        ∃ a, s.active.lookup part = some a ∧ a.entries = [] ∧ s.chain part = a :: rest)) ∧
      ∀ p ≠ part, (s.freeze part newGen).chain p = s.chain p := by
  rw [PartitionIndexSet.freeze]
  cases ha : s.active.lookup part with
  | none =>
    refine ⟨⟨(s.frozenChain part).reverse, ?_, .inl (chain_of_no_active ha).symm⟩, ?_⟩
    · rw [chain_insert_active, if_pos rfl]
    · intro p hp
      rw [chain_insert_active, if_neg hp]
  | some a =>
    dsimp only
    split
    next hpos =>
      refine ⟨⟨s.chain part, ?_, .inl rfl⟩, ?_⟩
      · rw [PartitionIndexSet.pushFrozen, chain_insert_frozen, if_pos rfl, chain_of_active ha]
        show ((s.active.insert part { gen := newGen }).lookup part).toList ++
          (s.frozenChain part ++ [a]).reverse = _
        rw [lookup_insert_eq, if_pos rfl, List.reverse_append]
        rfl
      · intro p hp
        rw [PartitionIndexSet.pushFrozen, chain_insert_frozen, if_neg hp, chain_insert_active,
          if_neg hp]
    next hzero =>
      have hnil : a.entries = [] := by
        by_contra hne
        exact hzero (memBytes_pos_iff.mpr hne)
      refine ⟨⟨(s.frozenChain part).reverse, ?_, .inr ⟨a, rfl, hnil, chain_of_active ha⟩⟩, ?_⟩
      · rw [chain_insert_active, if_pos rfl]
      · intro p hp
        rw [chain_insert_active, if_neg hp]

/-- `EnsureActive` adds indexes without entries only. -/
theorem mem_chain_ensureActive {i : PartitionIndex} (h : i ∈ (s.ensureActive part gen).chain p) :
    i ∈ s.chain p ∨ i = { gen := gen } := by
  have hreplaced : i ∈ (if p = part then { gen := gen } :: (s.frozenChain p).reverse
      else s.chain p) → i ∈ s.chain p ∨ i = { gen := gen } := by
    intro hi
    split at hi
    · cases List.mem_cons.mp hi with
      | inl he => exact .inr he
      | inr hi => exact .inl (List.mem_append_right _ hi)
    · exact .inl hi
  rw [PartitionIndexSet.ensureActive] at h
  split at h
  · split at h
    · exact .inl h
    · rw [chain_insert_active] at h
      exact hreplaced h
  · replace h : i ∈ (s.createActive part gen).chain p := h
    rw [show (s.createActive part gen).chain p = _ from
      chain_insert_active s part { gen := gen } p] at h
    exact hreplaced h

theorem active_releaseFrozen (s : PartitionIndexSet) (part gen : ℕ) :
    (s.releaseFrozen part gen).active = s.active := by
  rw [PartitionIndexSet.releaseFrozen]
  dsimp only
  split <;> rfl

/-- `ReleaseFrozen` takes the frozen indexes of one generation out of the chain. -/
theorem frozenChain_releaseFrozen (s : PartitionIndexSet) (part gen p : ℕ) :
    (s.releaseFrozen part gen).frozenChain p =
      (s.frozenChain p).filter fun i => decide (¬ (p = part ∧ i.gen = gen)) := by
  rw [PartitionIndexSet.releaseFrozen]
  split
  next hnone =>
    symm
    rw [List.filter_eq_self]
    intro i hi
    rw [decide_eq_true_iff]
    rintro ⟨rfl, hg⟩
    have hmem : i ∈ (s.frozenChain p).filter fun idx => idx.gen == gen :=
      List.mem_filter.mpr ⟨hi, by simpa using hg⟩
    rw [hnone] at hmem
    cases hmem
  next =>
    show ((s.frozen.insert part _).lookup p).getD [] = _
    rw [lookup_insert_eq]
    split
    next hp =>
      subst hp
      refine List.filter_congr fun i _ => ?_
      rw [Bool.eq_iff_iff, decide_eq_true_iff, bne_iff_ne]
      exact not_congr (and_iff_right rfl).symm
    next hp =>
      symm
      exact List.filter_eq_self.mpr fun i _ => by simp [hp]

theorem chain_releaseFrozen_sublist (s : PartitionIndexSet) (part gen p : ℕ) :
    ((s.releaseFrozen part gen).chain p).Sublist (s.chain p) := by
  rw [PartitionIndexSet.chain, PartitionIndexSet.chain, active_releaseFrozen,
    frozenChain_releaseFrozen]
  exact (List.filter_sublist.reverse).append_left _

/-- The filter of the partition has the key. -/
def Knows (s : PartitionIndexSet) (p : ℕ) (key : Bytes) : Prop :=
  ∃ b, s.blooms.lookup p = some b ∧ PartitionBloom.probes key ⊆ b.bits

/-- Every entry of a chain is known to the filter of its partition. -/
def Filtered (s : PartitionIndexSet) : Prop :=
  ∀ p, ∀ i ∈ s.chain p, ∀ x ∈ i.entries, Knows s p x.userKey

def Sorted (ucmp : UserComparator) (s : PartitionIndexSet) : Prop :=
  ∀ p, ∀ i ∈ s.chain p, Ascending (compareKeySeq ucmp) i.entries

theorem Knows.mayContain {key : Bytes} {b : PartitionBloom} (h : Knows s p key)
    (hb : s.blooms.lookup p = some b) : b.mayContain key = true := by
  obtain ⟨b', hb', hsub⟩ := h
  rw [hb] at hb'
  cases hb'
  rw [PartitionBloom.mayContain, List.all_eq_true]
  exact fun x hx => decide_eq_true (hsub hx)

theorem knows_noteInserted {key : Bytes} (h : p = part ∧ key = e.userKey ∨ Knows s p key) :
    Knows (s.noteInserted part e) p key := by
  have hlookup : ∀ p, (s.noteInserted part e).blooms.lookup p = if p = part then
      some (((s.blooms.lookup part).getD {}).add e.userKey) else s.blooms.lookup p :=
    fun p => lookup_insert_eq s.blooms part p _
  cases eq_or_ne p part with
  | inl hp =>
    subst hp
    refine ⟨_, (hlookup p).trans (if_pos rfl), ?_⟩
    obtain ⟨-, rfl⟩ | ⟨b, hb, hsub⟩ := h
    · exact List.subset_append_left _ _
    · rw [hb]
      exact List.Subset.trans hsub (List.subset_append_right _ _)
  | inr hp =>
    obtain ⟨b, hb, hsub⟩ := h.resolve_left fun h => hp h.1
    exact ⟨b, (hlookup p).trans ((if_neg hp).trans hb), hsub⟩

theorem knows_createActive {key : Bytes} (h : Knows s p key) :
    Knows (s.createActive part gen) p key := by
  obtain ⟨b, hb, hsub⟩ := h
  refine ⟨b, ?_, hsub⟩
  show (s.blooms.insert part ((s.blooms.lookup part).getD {})).lookup p = some b
  rw [lookup_insert_eq]
  split
  next hp => rw [← hp, hb, Option.getD_some]
  next => exact hb

/-- An entry that goes into an index of the partition is noted. -/
theorem filtered_noted {s' : PartitionIndexSet} (h : Filtered s) (hblooms : s'.blooms = s.blooms)
    (hchain : ∀ p, ∀ i ∈ s'.chain p, ∀ x ∈ i.entries,
      p = part ∧ x = e ∨ ∃ j ∈ s.chain p, x ∈ j.entries) : Filtered (s'.noteInserted part e) := by
  intro p i hi x hx
  apply knows_noteInserted
  obtain ⟨hp, rfl⟩ | ⟨j, hj, hxj⟩ := hchain p i hi x hx
  · exact .inl ⟨hp, rfl⟩
  · obtain ⟨b, hb, hsub⟩ := h p j hj x hxj
    exact .inr ⟨b, hblooms ▸ hb, hsub⟩

theorem filtered_insertActive (h : Filtered s) (ha : s.active.lookup part = some idx) :
    Filtered (s.insertActive ucmp part e) := by
  have hchain := @chain_insertActive ucmp s part e idx ha
  rw [PartitionIndexSet.insertActive, ha, Option.bind_some] at hchain ⊢
  cases hi : idx.insert ucmp e with
  | none => exact h
  | some idx' =>
    rw [hi] at hchain
    refine filtered_noted h rfl ?_
    intro p i hmem x hx
    replace hmem : i ∈ if p = part then inserted ucmp e idx :: (s.frozenChain p).reverse
        else s.chain p := by
      rw [← hchain p]
      exact hmem
    split at hmem
    next hp =>
      subst hp
      cases List.mem_cons.mp hmem with
      | inl he =>
        subst he
        refine (mem_inserted hx).imp (fun he => ⟨rfl, he⟩) fun hx => ⟨idx, ?_, hx⟩
        rw [chain_of_active ha]
        exact List.mem_cons_self
      | inr hmem =>
        refine .inr ⟨i, ?_, hx⟩
        rw [chain_of_active ha]
        exact List.mem_cons_of_mem _ hmem
    next => exact .inr ⟨i, hmem, hx⟩

theorem filtered_insertFrozen {s' : PartitionIndexSet} (h : Filtered s)
    (hs : s.insertFrozen ucmp part gen e = some s') : Filtered s' := by
  obtain ⟨l₁, j, l₂, hl, -, -, hactive, hfrozen, hother⟩ := chain_insertFrozen hs
  have hmem : ∀ p, ∀ i ∈ s'.chain p, ∀ x ∈ i.entries,
      p = part ∧ x = e ∨ ∃ j ∈ s.chain p, x ∈ j.entries := by
    intro p i hi x hx
    rw [PartitionIndexSet.chain, hactive, List.mem_append] at hi
    cases hi with
    | inl hi => exact .inr ⟨i, List.mem_append_left _ hi, hx⟩
    | inr hi =>
      cases eq_or_ne p part with
      | inl hp =>
        subst hp
        rw [hfrozen, List.mem_append, List.mem_cons] at hi
        have hold : ∀ k ∈ l₁ ++ j :: l₂, k ∈ s.chain p := by
          intro k hk
          rw [PartitionIndexSet.chain, hl]
          exact List.mem_append_right _ hk
        obtain hi | rfl | hi := hi
        · exact .inr ⟨i, hold i (List.mem_append_left _ hi), hx⟩
        · exact (mem_inserted hx).imp (fun he => ⟨rfl, he⟩) fun hx => ⟨j, hold j (by simp), hx⟩
        · exact .inr ⟨i, hold i (List.mem_append_right _ (List.mem_cons_of_mem _ hi)), hx⟩
      | inr hp =>
        rw [hother p hp] at hi
        exact .inr ⟨i, List.mem_append_right _ hi, hx⟩
  rw [PartitionIndexSet.insertFrozen] at hs
  split at hs
  · cases hs
  next k _ =>
    cases hi : k.insert ucmp e with
    | none =>
      rw [hi] at hs
      cases hs
      exact h
    | some k' =>
      rw [hi] at hs
      cases hs
      exact filtered_noted h rfl hmem

theorem filtered_createActive (h : Filtered s) (ha : s.active.lookup part = none) :
    Filtered (s.createActive part gen) := by
  intro p i hi x hx
  replace hi : i ∈ if p = part then { gen := gen } :: (s.frozenChain p).reverse else s.chain p := by
    rw [← chain_insert_active s part { gen := gen } p]
    exact hi
  apply knows_createActive
  split at hi
  next hp =>
    subst hp
    cases List.mem_cons.mp hi with
    | inl he =>
      subst he
      cases hx
    | inr hi =>
      rw [← chain_of_no_active ha] at hi
      exact h p i hi x hx
  next => exact h p i hi x hx

theorem filtered_pushFrozen (h : Filtered s) : Filtered (s.pushFrozen part { gen := gen }) := by
  intro p i hi x hx
  rw [PartitionIndexSet.pushFrozen, chain_insert_frozen] at hi
  split at hi
  next hp =>
    subst hp
    rw [List.reverse_append, List.reverse_singleton, List.singleton_append, List.mem_append,
      List.mem_cons] at hi
    obtain hi | rfl | hi := hi
    · exact h p i (List.mem_append_left _ hi) x hx
    · cases hx
    · exact h p i (List.mem_append_right _ hi) x hx
  next => exact h p i hi x hx

theorem filtered_insert (h : Filtered s) : Filtered (s.insert ucmp part gen e) := by
  rw [PartitionIndexSet.insert]
  cases ha : s.active.lookup part with
  | none =>
    refine @filtered_insertActive ucmp _ _ _ { gen := gen } (filtered_createActive h ha) ?_
    simp [PartitionIndexSet.createActive]
  | some idx =>
    dsimp only
    split
    · exact filtered_insertActive h ha
    · cases hf : s.insertFrozen ucmp part gen e with
      | some s' => exact filtered_insertFrozen h hf
      | none => exact h

theorem filtered_insertCreate (h : Filtered s) : Filtered (s.insertCreate ucmp part gen e) := by
  rw [PartitionIndexSet.insertCreate]
  cases ha : s.active.lookup part with
  | none =>
    refine @filtered_insertActive ucmp _ _ _ { gen := gen } (filtered_createActive h ha) ?_
    simp [PartitionIndexSet.createActive]
  | some idx =>
    dsimp only
    split
    · exact filtered_insertActive h ha
    · cases hf : s.insertFrozen ucmp part gen e with
      | some s' => exact filtered_insertFrozen h hf
      | none =>
        cases hc : (s.pushFrozen part { gen := gen }).insertFrozen ucmp part gen e with
        | some s' => exact filtered_insertFrozen (filtered_pushFrozen h) hc
        | none => exact h

theorem filtered_freeze (h : Filtered s) (newGen : ℕ) : Filtered (s.freeze part newGen) := by
  have hblooms : (s.freeze part newGen).blooms = s.blooms := by
    rw [PartitionIndexSet.freeze]
    split
    · rfl
    · split <;> rfl
  obtain ⟨⟨rest, hchain, hrest⟩, hother⟩ := chain_freeze s part newGen
  intro p i hi x hx
  rw [Knows, hblooms]
  cases eq_or_ne p part with
  | inl hp =>
    subst hp
    rw [hchain, List.mem_cons] at hi
    obtain rfl | hi := hi
    · cases hx
    · obtain rfl | ⟨a, -, -, ha⟩ := hrest
      · exact h p i hi x hx
      · exact h p i (ha ▸ List.mem_cons_of_mem _ hi) x hx
  | inr hp => exact h p i (hother p hp ▸ hi) x hx

/-- The bits of a rebuilt filter. -/
private theorem subset_rebuilt (is : List PartitionIndex) (b : PartitionBloom) :
    b.bits ⊆ (is.foldl (fun bloom idx =>
        idx.entries.foldl (fun b e => b.add e.userKey) bloom) b).bits ∧
      ∀ i ∈ is, ∀ x ∈ i.entries, PartitionBloom.probes x.userKey ⊆ (is.foldl (fun bloom idx =>
        idx.entries.foldl (fun b e => b.add e.userKey) bloom) b).bits := by
  have hone : ∀ (es : List IndexEntry) (b : PartitionBloom),
      b.bits ⊆ (es.foldl (fun b e => b.add e.userKey) b).bits ∧
        ∀ x ∈ es, PartitionBloom.probes x.userKey ⊆ (es.foldl (fun b e => b.add e.userKey) b).bits := by
    intro es
    induction es with
    | nil => exact fun b => ⟨List.Subset.refl _, fun x hx => absurd hx List.not_mem_nil⟩
    | cons y ys ih =>
      intro b
      obtain ⟨hb, hys⟩ := ih (b.add y.userKey)
      refine ⟨List.Subset.trans (List.subset_append_right _ _) hb, ?_⟩
      intro x hx
      cases List.mem_cons.mp hx with
      | inl he =>
        subst he
        exact List.Subset.trans (List.subset_append_left _ _) hb
      | inr hx => exact hys x hx
  induction is generalizing b with
  | nil => exact ⟨List.Subset.refl _, fun i hi => absurd hi List.not_mem_nil⟩
  | cons j js ih =>
    obtain ⟨hb, hjs⟩ := ih (j.entries.foldl (fun b e => b.add e.userKey) b)
    obtain ⟨hb', hj⟩ := hone j.entries b
    refine ⟨List.Subset.trans hb' hb, ?_⟩
    intro i hi x hx
    cases List.mem_cons.mp hi with
    | inl he =>
      subst he
      exact List.Subset.trans (hj x hx) hb
    | inr hi => exact hjs i hi x hx

theorem filtered_releaseFrozen (h : Filtered s) : Filtered (s.releaseFrozen part gen) := by
  have hsub := chain_releaseFrozen_sublist s part gen
  rw [PartitionIndexSet.releaseFrozen] at hsub ⊢
  split
  · exact h
  next hreleased =>
    rw [if_neg hreleased] at hsub
    intro p i hi x hx
    cases eq_or_ne p part with
    | inl hp =>
      subst hp
      refine ⟨_, (lookup_insert_eq _ _ _ _).trans (if_pos rfl), ?_⟩
      exact (subset_rebuilt _ {}).2 i hi x hx
    | inr hp =>
      obtain ⟨b, hb, hbits⟩ := h p i ((hsub p).subset hi) x hx
      refine ⟨b, ?_, hbits⟩
      exact ((lookup_insert_eq _ _ _ _).trans (if_neg hp)).trans hb

theorem filtered_ensureActive (h : Filtered s) : Filtered (s.ensureActive part gen) := by
  rw [PartitionIndexSet.ensureActive]
  cases ha : s.active.lookup part with
  | none => exact filtered_createActive h ha
  | some idx =>
    dsimp only
    split
    next => exact h
    next hg =>
      intro p i hi x hx
      have hi : i ∈ (s.ensureActive part gen).chain p := by
        rw [PartitionIndexSet.ensureActive, ha]
        dsimp only
        rw [if_neg hg]
        exact hi
      obtain hi | rfl := mem_chain_ensureActive hi
      · exact h p i hi x hx
      · cases hx

theorem ascending_singleton (gen : ℕ) :
    Ascending (compareKeySeq ucmp) (inserted ucmp e { gen := gen }).entries :=
  List.pairwise_singleton _ _

theorem sorted_insert (h : Sorted ucmp s) : Sorted ucmp (s.insert ucmp part gen e) := by
  obtain ⟨hins, hother⟩ := chain_insert ucmp s part gen e
  intro p
  cases eq_or_ne p part with
  | inl hp =>
    subst hp
    exact hins.forall (h p) (ascending_singleton gen) fun i _ => ascending_inserted
  | inr hp => exact hother p hp ▸ h p

theorem sorted_insertCreate (h : Sorted ucmp s) : Sorted ucmp (s.insertCreate ucmp part gen e) := by
  obtain ⟨hins, hother⟩ := chain_insertCreate ucmp s part gen e
  intro p
  cases eq_or_ne p part with
  | inl hp =>
    subst hp
    exact hins.forall (h p) (ascending_singleton gen) fun i _ => ascending_inserted
  | inr hp => exact hother p hp ▸ h p

theorem sorted_ensureActive (h : Sorted ucmp s) : Sorted ucmp (s.ensureActive part gen) := by
  intro p i hi
  obtain hi | rfl := mem_chain_ensureActive hi
  · exact h p i hi
  · exact List.Pairwise.nil

/-- `EnsureActive` over new indexes makes indexes without entries. -/
theorem ensureActive_empty (hs : s = {}) (parts : List ℕ) (gens : ℕ → ℕ) :
    Sorted ucmp (parts.foldl (fun t p => t.ensureActive p (gens p)) s) ∧
      Filtered (parts.foldl (fun t p => t.ensureActive p (gens p)) s) ∧
      (∀ q, (parts.foldl (fun t p => t.ensureActive p (gens p)) s).frozenChain q = []) ∧
      ∀ q, ∀ i ∈ (parts.foldl (fun t p => t.ensureActive p (gens p)) s).chain q, i.entries = [] := by
  refine List.foldlRecOn (motive := fun t : PartitionIndexSet => Sorted ucmp t ∧ Filtered t ∧
    (∀ q, t.frozenChain q = []) ∧ ∀ q, ∀ i ∈ t.chain q, i.entries = []) _ _ ?_ ?_
  · subst hs
    refine ⟨?_, ?_, fun _ => rfl, ?_⟩
    · intro q i hi
      cases hi
    · intro q i hi
      cases hi
    · intro q i hi
      cases hi
  · rintro t ⟨ht, hf, hfrozen, hempty⟩ r -
    refine ⟨sorted_ensureActive ht, filtered_ensureActive hf, ?_, ?_⟩
    · intro q
      rw [← hfrozen q, PartitionIndexSet.ensureActive]
      split
      · split <;> rfl
      · rfl
    · intro q i hi
      obtain hi | rfl := mem_chain_ensureActive hi
      · exact hempty q i hi
      · rfl

theorem head?_dropWhile_eq_find? {α : Type*} (q : α → Bool) (l : List α) :
    (l.dropWhile q).head? = l.find? fun x => !q x := by
  induction l with
  | nil => rfl
  | cons x xs ih =>
    rw [List.dropWhile_cons, List.find?_cons]
    cases hx : q x with
    | true => simpa using ih
    | false => rfl

/-- An entry at or behind the probe, among those of the probed key, is one the snapshot may see. -/
theorem compareKeySeq_lookupKey_ne_lt (x : IndexEntry) (snapshot : ℕ) :
    compareKeySeq ucmp x (lookupKey x.userKey snapshot) ≠ .lt ↔ x.seq ≤ snapshot := by
  have hrefl : ucmp.compare x.userKey x.userKey = .eq := Std.ReflCmp.compare_self
  rw [Ne, compareKeySeq, Ordering.then_eq_lt]
  show ¬ (ucmp.compare x.userKey x.userKey = .lt ∨ ucmp.compare x.userKey x.userKey = .eq ∧
    compare snapshot x.seq = .lt) ↔ _
  rw [hrefl, Nat.compare_eq_lt]
  simp

/-- On a sorted index `Get` finds the newest version the snapshot may see. -/
theorem get_eq_some_iff (hd : ucmp.DistinguishesBytes)
    (hs : Ascending (compareKeySeq ucmp) idx.entries) {key : Bytes} {snapshot : ℕ} :
    idx.get ucmp key snapshot = some e ↔
      IsNewest IndexEntry.userKey IndexEntry.seq idx.entries key snapshot e := by
  rw [PartitionIndex.get, PartitionIndex.seek, head?_dropWhile_eq_find?, Option.filter_eq_some_iff]
  constructor
  · rintro ⟨hfind, hkey⟩
    obtain rfl : e.userKey = key := by simpa using hkey
    have hq := List.find?_some hfind
    refine ⟨List.mem_of_find?_eq_some hfind, rfl, ?_, ?_⟩
    · exact (compareKeySeq_lookupKey_ne_lt e snapshot).mp (by simpa using hq)
    · intro x hx hxk hxs
      rw [← hxk] at hfind
      have hqx := (@compareKeySeq_lookupKey_ne_lt ucmp x snapshot).mpr hxs
      obtain rfl | hlt := find?_ascending hs hfind x hx (by simpa using hqx)
      · exact le_rfl
      · have hrefl : ucmp.compare e.userKey x.userKey = .eq := by
          rw [hxk]
          exact Std.ReflCmp.compare_self
        rw [compareKeySeq, hrefl] at hlt
        exact (Nat.compare_eq_lt.mp hlt).le
  · rintro ⟨hmem, rfl, hvis, hnew⟩
    have hqe := (@compareKeySeq_lookupKey_ne_lt ucmp e snapshot).mpr hvis
    refine ⟨?_, by simp⟩
    cases hfind : idx.entries.find? fun x =>
        !(compareKeySeq ucmp x (lookupKey e.userKey snapshot) == .lt) with
    | none =>
      have hnot := List.find?_eq_none.mp hfind e hmem
      simp [hqe] at hnot
    | some d =>
      have hqd := List.find?_some hfind
      obtain rfl | hlt := find?_ascending hs hfind e hmem (by simpa using hqe)
      · rfl
      · -- an earlier entry behind the probe would be a newer version of the same key
        exfalso
        have hqd : compareKeySeq ucmp d (lookupKey e.userKey snapshot) ≠ .lt := by simpa using hqd
        obtain hk | ⟨hk, hseq⟩ := Ordering.then_eq_lt.mp hlt
        · exact hqd (Ordering.then_eq_lt.mpr (.inl hk))
        · have hkey := hd _ _ hk
          rw [← hkey] at hqd
          have hdvis := (compareKeySeq_lookupKey_ne_lt d snapshot).mp hqd
          have hle := hnew d (List.mem_of_find?_eq_some hfind) hkey hdvis
          have hgt := Nat.compare_eq_lt.mp hseq
          omega

/-- The newest version of a key in an ordered chain is what `Get` of the set returns. -/
theorem get_of_isNewest (hd : ucmp.DistinguishesBytes) (hs : Sorted ucmp s) (hf : Filtered s)
    {key : Bytes} {snapshot : ℕ}
    (hord : Ordered IndexEntry.userKey IndexEntry.seq ((s.chain part).map PartitionIndex.entries))
    (he : IsNewest IndexEntry.userKey IndexEntry.seq
      ((s.chain part).flatMap PartitionIndex.entries) key snapshot e) :
    s.get ucmp part key snapshot = some e := by
  obtain ⟨i, hi, hei⟩ := List.mem_flatMap.mp he.mem
  have hknows := hf part i hi e hei
  rw [he.key_eq] at hknows
  obtain ⟨b, hb, hbits⟩ := hknows
  have hmay : b.mayContain key = true := Knows.mayContain ⟨b, hb, hbits⟩ hb
  rw [PartitionIndexSet.get, hb]
  dsimp only
  rw [if_pos hmay]
  exact findSome?_of_isNewest (fun i hi e => get_eq_some_iff hd (hs part i hi)) hord he

/-- Without a version the snapshot may see, `Get` finds nothing. -/
theorem get_eq_none (hd : ucmp.DistinguishesBytes) (hs : Sorted ucmp s) {key : Bytes}
    {snapshot : ℕ} (h : ∀ i ∈ s.chain part, ∀ x ∈ i.entries, x.userKey = key → snapshot < x.seq) :
    s.get ucmp part key snapshot = none := by
  rw [PartitionIndexSet.get]
  split
  · rfl
  · split
    · rw [List.findSome?_eq_none_iff]
      intro i hi
      rw [Option.eq_none_iff_forall_ne_some]
      intro e he
      obtain ⟨hmem, hkey, hvis, -⟩ := (get_eq_some_iff hd (hs part i hi)).mp he
      exact absurd (h i hi e hmem hkey) (by omega)
    · rfl

end ZeroFlush.IndexContents
