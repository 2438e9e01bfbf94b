import ZeroFlush.PartitionIndexes

/-! # What the operations do to the index chain of a partition -/
namespace ZeroFlush.IndexChains
open FixedWidthCodec FiniteMaps WalFormat PartitionedWal UserKeys OrderedInsertion PartitionIndexes

instance compareKeySeq_trans (ucmp : UserComparator) : Std.TransCmp (compareKeySeq ucmp) :=
  have : Std.TransCmp fun a b : IndexEntry => ucmp.compare a.userKey b.userKey :=
    transCmp_comap IndexEntry.userKey
  have : Std.TransCmp fun a b : IndexEntry => compare b.seq a.seq :=
    @transCmp_comap ℕ IndexEntry (fun a b => compare b a) IndexEntry.seq _
  inferInstanceAs (Std.TransCmp (compareLex
    (fun a b : IndexEntry => ucmp.compare a.userKey b.userKey)
    (fun a b : IndexEntry => compare b.seq a.seq)))

/-- The generation of the active index, if the partition has one. -/
def activeGen? (s : PartitionIndexSet) (part : ℕ) : Option ℕ := (s.active.lookup part).map (·.gen)

/-- Some index of the partition has this generation and contains the entry. -/
def Holds (s : PartitionIndexSet) (part gen : ℕ) (e : IndexEntry) : Prop :=
  ∃ idx ∈ s.chain part, idx.gen = gen ∧ e ∈ idx.entries

instance (s : PartitionIndexSet) (part gen : ℕ) (e : IndexEntry) : Decidable (Holds s part gen e) :=
  inferInstanceAs (Decidable (∃ idx ∈ s.chain part, idx.gen = gen ∧ e ∈ idx.entries))

variable {ucmp : UserComparator} {s : PartitionIndexSet} {part gen p : ℕ} {e : IndexEntry}
  {idx idx' : PartitionIndex}

theorem insert_gen (h : idx.insert ucmp e = some idx') : idx'.gen = idx.gen := by
  obtain ⟨entries, -, rfl⟩ := Option.map_eq_some_iff.mp h
  rfl

theorem mem_insert (h : idx.insert ucmp e = some idx') {x : IndexEntry} :
    x ∈ idx'.entries ↔ x = e ∨ x ∈ idx.entries := by
  obtain ⟨entries, he, rfl⟩ := Option.map_eq_some_iff.mp h
  exact mem_insertNew he

/-- An insertion succeeds when no entry has this user key and sequence number. -/
theorem exists_insert (h : ∀ x ∈ idx.entries, compareKeySeq ucmp e x ≠ .eq) :
    ∃ idx', idx.insert ucmp e = some idx' := by
  apply Option.isSome_iff_exists.mp
  rw [PartitionIndex.insert, Option.isSome_map, Option.isSome_iff_ne_none]
  intro hn
  obtain ⟨x, hx, he⟩ := exists_eq_of_insertNew_eq_none hn
  exact h x hx he

theorem memBytes_pos_iff : 0 < idx.memBytes ↔ idx.entries ≠ [] := by
  cases h : idx.entries with
  | nil => simp [PartitionIndex.memBytes, h]
  | cons x xs => simp [PartitionIndex.memBytes, h, IndexEntry.bytes]

@[simp] theorem activeGen?_empty (p : ℕ) : activeGen? {} p = none := by
  simp [activeGen?]

@[simp] theorem chain_noteInserted (s : PartitionIndexSet) (part : ℕ) (e : IndexEntry) (p : ℕ) :
    (s.noteInserted part e).chain p = s.chain p := rfl

@[simp] theorem activeGen?_noteInserted (s : PartitionIndexSet) (part : ℕ) (e : IndexEntry)
    (p : ℕ) : activeGen? (s.noteInserted part e) p = activeGen? s p := rfl

theorem activeGen?_createActive (s : PartitionIndexSet) (part gen p : ℕ) :
    activeGen? (s.createActive part gen) p = if p = part then some gen else activeGen? s p := by
  rw [activeGen?, PartitionIndexSet.createActive, lookup_insert_eq]
  split <;> rfl

theorem activeGen?_insertActive (s : PartitionIndexSet) (part : ℕ) (e : IndexEntry) (p : ℕ) :
    activeGen? (s.insertActive ucmp part e) p = activeGen? s p := by
  rw [PartitionIndexSet.insertActive]
  cases hb : (s.active.lookup part).bind (·.insert ucmp e) with
  | none => rfl
  | some idx' =>
    obtain ⟨idx, hidx, hi⟩ := Option.bind_eq_some_iff.mp hb
    rw [activeGen?_noteInserted, activeGen?, lookup_insert_eq]
    split
    next hp =>
      subst hp
      simp [activeGen?, hidx, insert_gen hi]
    next => rfl

theorem activeGen?_insertFrozen {s' : PartitionIndexSet}
    (h : s.insertFrozen ucmp part gen e = some s') (p : ℕ) : activeGen? s' p = activeGen? s p := by
  rw [PartitionIndexSet.insertFrozen] at h
  split at h
  · cases h
  · split at h
    · cases h
      rfl
    · cases h
      rfl

/-- The active generation an insertion leaves behind: a missing index is created. -/
theorem activeGen?_insert (s : PartitionIndexSet) (part gen : ℕ) (e : IndexEntry) (p : ℕ) :
    activeGen? (s.insert ucmp part gen e) p =
      if p = part ∧ activeGen? s part = none then some gen else activeGen? s p := by
  rw [PartitionIndexSet.insert]
  cases ha : s.active.lookup part with
  | none =>
    rw [activeGen?_insertActive, activeGen?_createActive]
    have hn : activeGen? s part = none := by simp [activeGen?, ha]
    simp [hn]
  | some idx =>
    have hn : activeGen? s part = some idx.gen := by simp [activeGen?, ha]
    simp only [hn, reduceCtorEq, and_false, if_false]
    split
    · exact activeGen?_insertActive s part e p
    · cases hf : s.insertFrozen ucmp part gen e with
      | none => rfl
      | some s' => exact activeGen?_insertFrozen hf p

theorem activeGen?_insertCreate (s : PartitionIndexSet) (part gen : ℕ) (e : IndexEntry) (p : ℕ) :
    activeGen? (s.insertCreate ucmp part gen e) p =
      if p = part ∧ activeGen? s part = none then some gen else activeGen? s p := by
  rw [PartitionIndexSet.insertCreate]
  cases ha : s.active.lookup part with
  | none =>
    rw [activeGen?_insertActive, activeGen?_createActive]
    have hn : activeGen? s part = none := by simp [activeGen?, ha]
    simp [hn]
  | some idx =>
    have hn : activeGen? s part = some idx.gen := by simp [activeGen?, ha]
    simp only [hn, reduceCtorEq, and_false, if_false]
    split
    · exact activeGen?_insertActive s part e p
    · cases hf : s.insertFrozen ucmp part gen e with
      | some s' => exact activeGen?_insertFrozen hf p
      | none =>
        cases hc : (s.pushFrozen part { gen := gen }).insertFrozen ucmp part gen e with
        | none => rfl
        | some s' => exact activeGen?_insertFrozen hc p

theorem activeGen?_freeze (s : PartitionIndexSet) (part newGen p : ℕ) :
    activeGen? (s.freeze part newGen) p = if p = part then some newGen else activeGen? s p := by
  have key : ((s.active.insert part { gen := newGen }).lookup p).map PartitionIndex.gen =
      if p = part then some newGen else activeGen? s p := by
    rw [lookup_insert_eq]
    split <;> rfl
  rw [PartitionIndexSet.freeze]
  split
  · exact key
  · split
    · exact key
    · exact key

@[simp] theorem activeGen?_releaseFrozen (s : PartitionIndexSet) (part gen p : ℕ) :
    activeGen? (s.releaseFrozen part gen) p = activeGen? s p := by
  rw [PartitionIndexSet.releaseFrozen]
  dsimp only
  split <;> rfl

theorem activeGen?_ensureActive (s : PartitionIndexSet) (part gen p : ℕ) :
    activeGen? (s.ensureActive part gen) p = if p = part then some gen else activeGen? s p := by
  rw [PartitionIndexSet.ensureActive]
  cases ha : s.active.lookup part with
  | none => exact activeGen?_createActive s part gen p
  | some idx =>
    dsimp only
    split
    next hg =>
      split
      next hp =>
        subst hp
        simp [activeGen?, ha, hg]
      next => rfl
    next =>
      rw [activeGen?, lookup_insert_eq]
      split <;> rfl

/-- An entry whose generation is active, or which finds no active index, is kept. -/
theorem holds_insert (hg : ∀ g, activeGen? s part = some g → g = gen)
    (hfresh : ∀ idx ∈ s.chain part, ∀ x ∈ idx.entries, compareKeySeq ucmp e x ≠ .eq) :
    Holds (s.insert ucmp part gen e) part gen e := by
  -- in both cases the entry goes into an active index of generation `gen`
  suffices key : ∀ t : PartitionIndexSet, ∀ idx, t.active.lookup part = some idx → idx.gen = gen →
      (∀ x ∈ idx.entries, compareKeySeq ucmp e x ≠ .eq) →
      Holds (t.insertActive ucmp part e) part gen e by
    rw [PartitionIndexSet.insert]
    cases ha : s.active.lookup part with
    | none =>
      apply key (s.createActive part gen) { gen := gen } _ rfl
      · intro x hx
        cases hx
      · simp [PartitionIndexSet.createActive]
    | some idx =>
      have hgen : idx.gen = gen := hg idx.gen (by simp [activeGen?, ha])
      dsimp only
      rw [if_pos hgen]
      apply key s idx ha hgen
      exact hfresh idx (by simp [PartitionIndexSet.chain, ha])
  intro t idx ha hgen hx
  obtain ⟨idx', hi⟩ := exists_insert hx
  have hb : (t.active.lookup part).bind (·.insert ucmp e) = some idx' := by simp [ha, hi]
  rw [PartitionIndexSet.insertActive, hb]
  refine ⟨idx', ?_, (insert_gen hi).trans hgen, (mem_insert hi).mpr (.inl rfl)⟩
  rw [chain_noteInserted]
  simp [PartitionIndexSet.chain]

end ZeroFlush.IndexChains
