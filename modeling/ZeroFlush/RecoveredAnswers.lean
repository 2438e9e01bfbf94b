import ZeroFlush.IndexContents
import ZeroFlush.IndexGenerations

/-! # The answers of the rebuilt indexes

`Recover` indexes every record in the partition the current table routes it to, under the
generation number of its file. A lookup visits the newest generation of that partition first, and
then the other generations against the order in which the replay met them. -/
namespace ZeroFlush.RecoveredAnswers
open FixedWidthCodec FiniteMaps WalFormat WalFiles PartitionedWal WalOpening UserKeys
  OrderedInsertion PartitionIndexes IndexChains RecencyOrder IndexContents PartitionTables
  SealedFiles SequentialScan Context ContextRuns IndexGenerations

/-- A record of a file as a version of its key. -/
def versionOf (f : FileId) (r : Scanned × ℕ) : IndexEntry :=
  ⟨r.1.key, r.1.header.seq.toNat, r.1.header.type,
    ⟨f.1, f.2, r.2 - zfRecordLength r.1.header.keyLen r.1.header.valLen⟩⟩

/-- The versions in all files of a directory, in the order of the replay. -/
def versions (env : Env) : List IndexEntry :=
  (ZeroFlushContext.replayOrder env).flatMap fun f =>
    (WalScanner.scan (env.content f)).1.map (versionOf f)

/-- Every record of a run has its own sequence number, below `kMaxSequenceNumber`. -/
structure Sequenced (env : Env) : Prop where
  bounded : ∀ x ∈ versions env, x.seq < 2 ^ 56
  distinct : ∀ x ∈ versions env, ∀ y ∈ versions env, x.userKey = y.userKey → x.seq = y.seq → x = y

/-- A lookup finds the newest version of all files that the snapshot may see. -/
def Restores (ctx : ZeroFlushContext) : Prop :=
  ∀ key snapshot e, ctx.indexSet.get ctx.ucmp (ctx.route key) key snapshot = some e ↔
    IsNewest IndexEntry.userKey IndexEntry.seq (versions ctx.wal.env) key snapshot e

/-- The generations whose records a table routes to a partition, one for each record. -/
def routedGens (ucmp : UserComparator) (t : PartitionTable) (p : ℕ) (xs : List IndexEntry) : List ℕ :=
  (xs.filter fun x => t.route ucmp x.userKey = p).map fun x => x.loc.gen

/-- A given generation, then the others from the one met last to the one met first. -/
def searchedGens (first : ℕ) (gens : List ℕ) : List ℕ :=
  first :: (gens.filter fun g => g ≠ first).reverse.dedup

/-- Generation `g` has the newer versions of every key of the partition that `h` has too. -/
def NewerGen (ucmp : UserComparator) (t : PartitionTable) (p : ℕ) (xs : List IndexEntry) (g h : ℕ) :
    Prop :=
  ∀ x ∈ xs, ∀ y ∈ xs, t.route ucmp x.userKey = p → x.userKey = y.userKey → x.loc.gen = g →
    y.loc.gen = h → y.seq < x.seq

/-- Of two generations that the replay puts into one partition, the one searched first has the newer
versions. -/
def SearchedByRecency (ucmp : UserComparator) (t : PartitionTable) (env : Env) : Prop :=
  ∀ p < t.partitions,
    (searchedGens (maxGen p env.listFiles) (routedGens ucmp t p (versions env))).Pairwise
      (NewerGen ucmp t p (versions env))

instance (ucmp : UserComparator) (t : PartitionTable) (p : ℕ) (xs : List IndexEntry) (g h : ℕ) :
    Decidable (NewerGen ucmp t p xs g h) :=
  inferInstanceAs (Decidable (∀ x ∈ xs, ∀ y ∈ xs, t.route ucmp x.userKey = p →
    x.userKey = y.userKey → x.loc.gen = g → y.loc.gen = h → y.seq < x.seq))

instance (ucmp : UserComparator) (t : PartitionTable) (env : Env) :
    Decidable (SearchedByRecency ucmp t env) :=
  inferInstanceAs (Decidable (∀ p < t.partitions,
    (searchedGens (maxGen p env.listFiles) (routedGens ucmp t p (versions env))).Pairwise
      (NewerGen ucmp t p (versions env))))

theorem mem_searchedGens {first g : ℕ} {gens : List ℕ} :
    g ∈ searchedGens first gens ↔ g = first ∨ g ∈ gens := by
  rw [searchedGens, List.mem_cons, List.mem_dedup, List.mem_reverse, List.mem_filter,
    decide_eq_true_iff]
  tauto

theorem nodup_searchedGens (first : ℕ) (gens : List ℕ) : (searchedGens first gens).Nodup := by
  refine List.nodup_cons.mpr ⟨?_, List.nodup_dedup _⟩
  rw [List.mem_dedup, List.mem_reverse, List.mem_filter, decide_eq_true_iff]
  exact fun h => h.2 rfl

/-- A generation met for the first time is searched right after the given one. -/
theorem searchedGens_concat (first g : ℕ) (gens : List ℕ) :
    searchedGens first (gens ++ [g]) =
      if g ∈ searchedGens first gens then searchedGens first gens
      else first :: g :: (searchedGens first gens).tail := by
  rw [searchedGens, List.filter_append, List.reverse_append]
  cases eq_or_ne g first with
  | inl hg =>
    subst hg
    simp [searchedGens]
  | inr hg =>
    rw [List.filter_cons_of_pos (by simpa using hg), List.filter_nil, List.reverse_singleton,
      List.singleton_append]
    split
    next hmem =>
      rw [mem_searchedGens] at hmem
      rw [List.dedup_cons_of_mem]
      · rfl
      · simpa [hg] using hmem.resolve_left hg
    next hmem =>
      rw [mem_searchedGens, not_or] at hmem
      rw [List.dedup_cons_of_notMem]
      · rfl
      · simp [hmem.2]

theorem routedGens_concat (ucmp : UserComparator) (t : PartitionTable) (p : ℕ) (xs : List IndexEntry)
    (e : IndexEntry) : routedGens ucmp t p (xs ++ [e]) =
      if t.route ucmp e.userKey = p then routedGens ucmp t p xs ++ [e.loc.gen]
      else routedGens ucmp t p xs := by
  rw [routedGens, List.filter_append, List.map_append, ← routedGens]
  split
  next h => simp [h]
  next h => simp [h]

variable {ucmp : UserComparator} {t : PartitionTable} {s : PartitionIndexSet} {p first : ℕ}
  {e : IndexEntry} {done : List IndexEntry}

/-- The chain of a partition after the replay of some records. -/
structure RebuiltChain (ucmp : UserComparator) (t : PartitionTable) (first : ℕ) (done : List IndexEntry)
    (s : PartitionIndexSet) (p : ℕ) : Prop where
  active : s.active.lookup p ≠ none
  gens_eq : (s.chain p).map PartitionIndex.gen = searchedGens first (routedGens ucmp t p done)
  mem_iff : ∀ i ∈ s.chain p, ∀ x,
    x ∈ i.entries ↔ x ∈ done ∧ t.route ucmp x.userKey = p ∧ x.loc.gen = i.gen

theorem mem_inserted_iff {idx : PartitionIndex}
    (h : ∀ x ∈ idx.entries, compareKeySeq ucmp e x = .eq → x = e) {x : IndexEntry} :
    x ∈ (inserted ucmp e idx).entries ↔ x = e ∨ x ∈ idx.entries := by
  refine ⟨mem_inserted, ?_⟩
  rintro (rfl | hx)
  · rcases Classical.em (∃ y ∈ idx.entries, compareKeySeq ucmp x y = .eq) with ⟨y, hy, he⟩ | hnone
    · exact subset_inserted (h y hy he ▸ hy)
    · exact mem_inserted_self fun y hy he => hnone ⟨y, hy, he⟩
  · exact subset_inserted hx

theorem eq_of_compareKeySeq (hd : ucmp.DistinguishesBytes)
    (hdone : ∀ x ∈ done, x.userKey = e.userKey → x.seq = e.seq → x = e) {x : IndexEntry}
    (hx : x ∈ done) (h : compareKeySeq ucmp e x = .eq) : x = e := by
  obtain ⟨hk, hs⟩ := Ordering.then_eq_eq.mp h
  exact hdone x hx (hd _ _ hk).symm (Nat.compare_eq_eq.mp hs)

/-- The entries of an index that a replayed record does not go into. -/
theorem RebuiltChain.mem_iff_concat (h : RebuiltChain ucmp t first done s p) {i : PartitionIndex}
    (hi : i ∈ s.chain p) (hne : t.route ucmp e.userKey = p → e.loc.gen ≠ i.gen) (x : IndexEntry) :
    x ∈ i.entries ↔ x ∈ done ++ [e] ∧ t.route ucmp x.userKey = p ∧ x.loc.gen = i.gen := by
  rw [h.mem_iff i hi, List.mem_append, List.mem_singleton]
  constructor
  · rintro ⟨hx, hrest⟩
    exact ⟨.inl hx, hrest⟩
  · rintro ⟨hx | rfl, hroute, hg⟩
    · exact ⟨hx, hroute, hg⟩
    · exact absurd hg (hne hroute)

/-- A record goes into the index of its generation. -/
theorem rebuiltChain_into (hd : ucmp.DistinguishesBytes)
    (hdone : ∀ x ∈ done, x.userKey = e.userKey → x.seq = e.seq → x = e)
    (h : RebuiltChain ucmp t first done s (t.route ucmp e.userKey)) {s' : PartitionIndexSet}
    (hactive : s'.active.lookup (t.route ucmp e.userKey) ≠ none) {l₁ l₂ : List PartitionIndex}
    {j : PartitionIndex} (before : s.chain (t.route ucmp e.userKey) = l₁ ++ j :: l₂)
    (skipped : ∀ i ∈ l₁, i.gen ≠ e.loc.gen) (hj : j.gen = e.loc.gen)
    (hchain : s'.chain (t.route ucmp e.userKey) = l₁ ++ inserted ucmp e j :: l₂) :
    RebuiltChain ucmp t first (done ++ [e]) s' (t.route ucmp e.userKey) := by
  have hgens := h.gens_eq
  have hnodup := nodup_searchedGens first (routedGens ucmp t (t.route ucmp e.userKey) done)
  rw [before, List.map_append, List.map_cons, hj] at hgens
  rw [← hgens] at hnodup
  refine ⟨hactive, ?_, ?_⟩
  · rw [hchain, List.map_append, List.map_cons, inserted_gen, hj, hgens, routedGens_concat,
      if_pos rfl, searchedGens_concat, if_pos]
    rw [← hgens]
    simp
  · intro i hi
    rw [hchain, List.mem_append, List.mem_cons] at hi
    obtain hi | rfl | hi := hi
    · apply h.mem_iff_concat (by simp [before, hi])
      exact fun _ => (skipped i hi).symm
    · intro x
      have hmem := h.mem_iff j (by simp [before])
      rw [mem_inserted_iff, hmem, inserted_gen, hj, List.mem_append, List.mem_singleton]
      · constructor
        · rintro (rfl | ⟨hx, hrest⟩)
          · exact ⟨.inr rfl, rfl, rfl⟩
          · exact ⟨.inl hx, hrest⟩
        · rintro ⟨hx | rfl, hrest⟩
          · exact .inr ⟨hx, hrest⟩
          · exact .inl rfl
      · intro y hy
        exact eq_of_compareKeySeq hd hdone ((hmem y).mp hy).1
    · apply h.mem_iff_concat (by simp [before, hi])
      intro _ hg
      have hafter := (List.nodup_append.mp hnodup).2.1
      exact (List.nodup_cons.mp hafter).1 (hg ▸ List.mem_map_of_mem hi)

/-- The first record of a generation makes its index. -/
theorem rebuiltChain_second (h : RebuiltChain ucmp t first done s (t.route ucmp e.userKey))
    {s' : PartitionIndexSet} (hactive : s'.active.lookup (t.route ucmp e.userKey) ≠ none)
    {a : PartitionIndex} {l : List PartitionIndex}
    (before : s.chain (t.route ucmp e.userKey) = a :: l)
    (absent : ∀ i ∈ s.chain (t.route ucmp e.userKey), i.gen ≠ e.loc.gen)
    (hchain : s'.chain (t.route ucmp e.userKey) = a :: inserted ucmp e { gen := e.loc.gen } :: l) :
    RebuiltChain ucmp t first (done ++ [e]) s' (t.route ucmp e.userKey) := by
  have hnew : e.loc.gen ∉ searchedGens first (routedGens ucmp t (t.route ucmp e.userKey) done) := by
    rw [← h.gens_eq]
    intro hmem
    obtain ⟨i, hi, hg⟩ := List.mem_map.mp hmem
    exact absent i hi hg
  have hgens := h.gens_eq
  rw [before, List.map_cons] at hgens
  refine ⟨hactive, ?_, ?_⟩
  · rw [hchain, List.map_cons, List.map_cons, inserted_gen, routedGens_concat, if_pos rfl,
      searchedGens_concat, if_neg hnew, ← hgens, List.tail_cons]
    exact congrArg (· :: _) (List.cons.inj hgens).1
  · have hold : ∀ i ∈ a :: l, ∀ x, x ∈ i.entries ↔ x ∈ done ++ [e] ∧
        t.route ucmp x.userKey = t.route ucmp e.userKey ∧ x.loc.gen = i.gen := by
      intro i hi
      rw [← before] at hi
      exact h.mem_iff_concat hi fun _ => (absent i hi).symm
    intro i hi
    rw [hchain, List.mem_cons, List.mem_cons] at hi
    obtain rfl | rfl | hi := hi
    · exact hold i List.mem_cons_self
    · intro x
      rw [entries_inserted_empty, inserted_gen, List.mem_singleton, List.mem_append,
        List.mem_singleton]
      constructor
      · rintro rfl
        exact ⟨.inr rfl, rfl, rfl⟩
      · rintro ⟨hx | rfl, hroute, hg⟩
        · -- a record of this generation would have made its index
          exfalso
          apply hnew
          rw [mem_searchedGens]
          exact .inr (List.mem_map.mpr ⟨x, List.mem_filter.mpr ⟨hx, by simpa using hroute⟩, hg⟩)
        · rfl
    · exact hold i (List.mem_cons_of_mem _ hi)

theorem active_insertCreate_ne_none {part gen : ℕ} (h : s.active.lookup p ≠ none) :
    (s.insertCreate ucmp part gen e).active.lookup p ≠ none := by
  have hgen := @activeGen?_insertCreate ucmp s part gen e p
  intro hnone
  rw [activeGen?, hnone] at hgen
  split at hgen
  · cases hgen
  · rw [activeGen?, Option.map_none, eq_comm, Option.map_eq_none_iff] at hgen
    exact h hgen

/-- One record of the replay. -/
theorem rebuiltChain_insertCreate (hd : ucmp.DistinguishesBytes)
    (hdone : ∀ x ∈ done, x.userKey = e.userKey → x.seq = e.seq → x = e)
    (h : RebuiltChain ucmp t first done s p) :
    RebuiltChain ucmp t first (done ++ [e])
      (s.insertCreate ucmp (t.route ucmp e.userKey) e.loc.gen e) p := by
  obtain ⟨hins, hother⟩ := chain_insertCreate ucmp s (t.route ucmp e.userKey) e.loc.gen e
  have hactive := @active_insertCreate_ne_none ucmp s p e (t.route ucmp e.userKey) e.loc.gen h.active
  cases eq_or_ne p (t.route ucmp e.userKey) with
  | inr hp =>
    refine ⟨hactive, ?_, ?_⟩
    · rw [hother p hp, h.gens_eq, routedGens_concat, if_neg hp.symm]
    · intro i hi
      rw [hother p hp] at hi
      exact h.mem_iff_concat hi fun hroute => absurd hroute.symm hp
  | inl hp =>
    subst hp
    cases hins with
    | first none_active eq => exact absurd none_active h.active
    | dropped active absent eq =>
      obtain ⟨i, hi, hg⟩ := exists_gen_insertCreate ucmp s (t.route ucmp e.userKey) e.loc.gen e
      exact absurd hg (absent i (eq ▸ hi))
    | into l₁ j l₂ before skipped gen_eq eq =>
      exact rebuiltChain_into hd hdone h hactive before skipped gen_eq eq
    | second a l active before absent eq => exact rebuiltChain_second h hactive before absent eq

/-- The index of a replayed version. -/
def indexVersion (ucmp : UserComparator) (t : PartitionTable) (s : PartitionIndexSet)
    (e : IndexEntry) : PartitionIndexSet :=
  s.insertCreate ucmp (t.route ucmp e.userKey) e.loc.gen e

theorem rebuiltChain_foldl (hd : ucmp.DistinguishesBytes) (xs : List IndexEntry)
    (hdist : ∀ x ∈ done ++ xs, ∀ y ∈ done ++ xs, x.userKey = y.userKey → x.seq = y.seq → x = y)
    (h : RebuiltChain ucmp t first done s p) :
    RebuiltChain ucmp t first (done ++ xs) (xs.foldl (indexVersion ucmp t) s) p := by
  induction xs generalizing done s with
  | nil =>
    rw [List.append_nil]
    exact h
  | cons e xs ih =>
    have hsplit : done ++ e :: xs = done ++ [e] ++ xs := by simp
    rw [hsplit] at hdist ⊢
    rw [List.foldl_cons]
    apply ih hdist
    apply rebuiltChain_insertCreate hd _ h
    intro x hx
    exact hdist x (by simp [hx]) e (by simp)

variable {ctx : ZeroFlushContext}

theorem versionOf_eq_replayed (f : FileId) (r : Scanned × ℕ) (h : (versionOf f r).seq < 2 ^ 56) :
    (⟨r.1.key, r.1.header.seq.toNat % 2 ^ 56, r.1.header.type,
      ⟨f.1, f.2, r.2 - zfRecordLength r.1.header.keyLen r.1.header.valLen⟩⟩ : IndexEntry) =
      versionOf f r := by
  rw [versionOf, IndexEntry.mk.injEq]
  exact ⟨rfl, Nat.mod_eq_of_lt h, rfl, rfl⟩

/-- What a replay leaves alone, and the indexes it builds. -/
structure Replays (ctx ctx' : ZeroFlushContext) (xs : List IndexEntry) : Prop where
  wal_eq : ctx'.wal = ctx.wal
  tables_eq : ctx'.tables = ctx.tables
  ucmp_eq : ctx'.ucmp = ctx.ucmp
  index_eq : ctx'.indexSet = xs.foldl (indexVersion ctx.ucmp ctx.tables.current) ctx.indexSet

theorem Replays.trans {ctx₁ ctx₂ ctx₃ : ZeroFlushContext} {xs ys : List IndexEntry}
    (h : Replays ctx₁ ctx₂ xs) (h' : Replays ctx₂ ctx₃ ys) : Replays ctx₁ ctx₃ (xs ++ ys) where
  wal_eq := h'.wal_eq.trans h.wal_eq
  tables_eq := h'.tables_eq.trans h.tables_eq
  ucmp_eq := h'.ucmp_eq.trans h.ucmp_eq
  index_eq := by
    rw [h'.index_eq, h.index_eq, h.tables_eq, h.ucmp_eq, List.foldl_append]

theorem replays_replayFile (f : FileId)
    (hb : ∀ x ∈ (WalScanner.scan (ctx.wal.env.content f)).1.map (versionOf f), x.seq < 2 ^ 56) :
    Replays ctx (ctx.replayFile f)
      ((WalScanner.scan (ctx.wal.env.content f)).1.map (versionOf f)) := by
  rw [ZeroFlushContext.replayFile]
  generalize (WalScanner.scan (ctx.wal.env.content f)).1 = rs at hb ⊢
  induction rs generalizing ctx with
  | nil => exact ⟨rfl, rfl, rfl, rfl⟩
  | cons r rs ih =>
    obtain ⟨hr, hrs⟩ := List.forall_mem_cons.mp hb
    have hone : Replays ctx (ZeroFlushContext.replayRecord f ctx r) [versionOf f r] := by
      refine ⟨rfl, rfl, rfl, ?_⟩
      rw [ZeroFlushContext.replayRecord, ZeroFlushContext.routeWithVersion,
        PartitionTableSet.get?_currentVersion]
      dsimp only
      rw [versionOf_eq_replayed f r hr]
      rfl
    exact hone.trans (ih hrs)

theorem replays_replayFiles (fs : List FileId)
    (hb : ∀ x ∈ fs.flatMap fun f => (WalScanner.scan (ctx.wal.env.content f)).1.map (versionOf f),
      x.seq < 2 ^ 56) :
    Replays ctx (fs.foldl ZeroFlushContext.replayFile ctx)
      (fs.flatMap fun f => (WalScanner.scan (ctx.wal.env.content f)).1.map (versionOf f)) := by
  induction fs generalizing ctx with
  | nil => exact ⟨rfl, rfl, rfl, rfl⟩
  | cons f fs ih =>
    rw [List.flatMap_cons] at hb ⊢
    have hfile := replays_replayFile f fun x hx => hb x (List.mem_append_left _ hx)
    refine hfile.trans ?_
    have hwal := hfile.wal_eq
    rw [← hwal] at hb ⊢
    exact ih fun x hx => hb x (List.mem_append_right _ hx)

/-- `EnsureActive` over new index sets leaves one index without entries in every chain. -/
theorem chain_ensureActives (hindex : ctx.indexSet = {}) (hp : p ∈ ctx.recoverParts) :
    ctx.ensureActives.indexSet.chain p = [{ gen := maxGen p ctx.wal.env.listFiles }] ∧
      Sorted ctx.ucmp ctx.ensureActives.indexSet ∧ Filtered ctx.ensureActives.indexSet := by
  have hgen := activeGen?_ensureActives ctx p
  rw [if_pos hp] at hgen
  have hall : Sorted ctx.ucmp ctx.ensureActives.indexSet ∧ Filtered ctx.ensureActives.indexSet ∧
      (∀ q, ctx.ensureActives.indexSet.frozenChain q = []) ∧
      ∀ q, ∀ i ∈ ctx.ensureActives.indexSet.chain q, i.entries = [] :=
    ensureActive_empty hindex ctx.recoverParts fun p => maxGen p ctx.wal.env.listFiles
  obtain ⟨hs, hf, hfrozen, hempty⟩ := hall
  refine ⟨?_, hs, hf⟩
  obtain ⟨⟨g, es⟩, ha, hg⟩ := Option.map_eq_some_iff.mp hgen
  have hchain := chain_of_active ha
  rw [hfrozen, List.reverse_nil] at hchain
  have hes := hempty p ⟨g, es⟩ (by simp [hchain])
  rw [hchain]
  cases hes
  cases hg
  rfl

theorem replays_recover (hb : ∀ x ∈ versions ctx.wal.env, x.seq < 2 ^ 56) :
    ∃ cache, Replays ({ ctx with sealedCache := cache } : ZeroFlushContext).ensureActives ctx.recover
      (versions ctx.wal.env) := by
  obtain ⟨cache, hrec⟩ := recover_eq ctx
  refine ⟨cache, ?_⟩
  rw [hrec]
  exact replays_replayFiles (ZeroFlushContext.replayOrder ctx.wal.env) hb

/-- The chains after `Recover`. -/
theorem rebuilt_recover (hd : ctx.ucmp.DistinguishesBytes) (hindex : ctx.indexSet = {})
    (hseq : Sequenced ctx.wal.env) (hp : p < ctx.tables.current.partitions) :
    RebuiltChain ctx.ucmp ctx.tables.current (maxGen p ctx.wal.env.listFiles)
        (versions ctx.wal.env) ctx.recover.indexSet p ∧
      Sorted ctx.ucmp ctx.recover.indexSet ∧ Filtered ctx.recover.indexSet := by
  obtain ⟨cache, -, -, -, heq⟩ := replays_recover hseq.bounded
  set adopted : ZeroFlushContext := { ctx with sealedCache := cache }
  have hmem : p ∈ adopted.recoverParts := by
    rw [ZeroFlushContext.recoverParts, List.mem_insertionSort, List.mem_dedup, List.mem_append]
    exact .inl (List.mem_range.mpr hp)
  obtain ⟨hchain, hs, hf⟩ := @chain_ensureActives p adopted hindex hmem
  rw [heq]
  refine ⟨?_, ?_⟩
  · have hstart : RebuiltChain ctx.ucmp ctx.tables.current (maxGen p ctx.wal.env.listFiles) []
        adopted.ensureActives.indexSet p := by
      refine ⟨?_, by rw [hchain]; rfl, ?_⟩
      · have hgen := activeGen?_ensureActives adopted p
        rw [if_pos hmem] at hgen
        obtain ⟨a, ha, -⟩ := Option.map_eq_some_iff.mp hgen
        simp [ha]
      · intro i hi x
        rw [hchain, List.mem_singleton] at hi
        subst hi
        simp
    exact rebuiltChain_foldl hd (versions ctx.wal.env) hseq.distinct hstart
  · refine List.foldlRecOn (motive := fun s : PartitionIndexSet => Sorted ctx.ucmp s ∧ Filtered s)
      _ _ ⟨hs, hf⟩ ?_
    rintro s ⟨hs, hf⟩ x -
    exact ⟨sorted_insertCreate hs, filtered_insertCreate hf⟩

/-- Every version of a key is in the chain of the partition the key is routed to. -/
theorem RebuiltChain.mem_flatMap (h : RebuiltChain ucmp t first done s p) {x : IndexEntry} :
    x ∈ (s.chain p).flatMap PartitionIndex.entries ↔ x ∈ done ∧ t.route ucmp x.userKey = p := by
  rw [List.mem_flatMap]
  constructor
  · rintro ⟨i, hi, hx⟩
    obtain ⟨hdone, hroute, -⟩ := (h.mem_iff i hi x).mp hx
    exact ⟨hdone, hroute⟩
  · rintro ⟨hx, hroute⟩
    have hgen : x.loc.gen ∈ (s.chain p).map PartitionIndex.gen := by
      rw [h.gens_eq, mem_searchedGens]
      exact .inr (List.mem_map_of_mem (List.mem_filter.mpr ⟨hx, by simpa using hroute⟩))
    obtain ⟨i, hi, hg⟩ := List.mem_map.mp hgen
    exact ⟨i, hi, (h.mem_iff i hi x).mpr ⟨hx, hroute, hg.symm⟩⟩

theorem RebuiltChain.isNewest_iff (h : RebuiltChain ucmp t first done s p) {key : Bytes}
    (hroute : t.route ucmp key = p) {snapshot : ℕ} :
    IsNewest IndexEntry.userKey IndexEntry.seq ((s.chain p).flatMap PartitionIndex.entries) key
        snapshot e ↔ IsNewest IndexEntry.userKey IndexEntry.seq done key snapshot e := by
  have hmem : ∀ x : IndexEntry, x.userKey = key →
      (x ∈ (s.chain p).flatMap PartitionIndex.entries ↔ x ∈ done) := by
    intro x hx
    rw [h.mem_flatMap, hx, and_iff_left hroute]
  constructor
  · rintro ⟨he, hkey, hvis, hnew⟩
    exact ⟨(hmem e hkey).mp he, hkey, hvis, fun x hx hk => hnew x ((hmem x hk).mpr hx) hk⟩
  · rintro ⟨he, hkey, hvis, hnew⟩
    exact ⟨(hmem e hkey).mpr he, hkey, hvis, fun x hx hk => hnew x ((hmem x hk).mp hx) hk⟩

/-- Where the chain is searched by recency the versions get older along it. -/
theorem RebuiltChain.ordered (h : RebuiltChain ucmp t first done s p)
    (hord : (searchedGens first (routedGens ucmp t p done)).Pairwise (NewerGen ucmp t p done)) :
    Ordered IndexEntry.userKey IndexEntry.seq ((s.chain p).map PartitionIndex.entries) := by
  rw [← h.gens_eq, List.pairwise_map] at hord
  rw [Ordered, List.pairwise_map]
  refine hord.imp_of_mem ?_
  intro i j hi hj hij x hx y hy hkey
  obtain ⟨hxd, hxr, hxg⟩ := (h.mem_iff i hi x).mp hx
  obtain ⟨hyd, -, hyg⟩ := (h.mem_iff j hj y).mp hy
  exact hij x hxd y hyd hxr hkey hxg hyg

/-- There the lookup finds the newest version. -/
theorem RebuiltChain.get_iff (h : RebuiltChain ucmp t first done s p)
    (hd : ucmp.DistinguishesBytes) (hs : Sorted ucmp s) (hf : Filtered s)
    (hord : (searchedGens first (routedGens ucmp t p done)).Pairwise (NewerGen ucmp t p done))
    {key : Bytes} (hroute : t.route ucmp key = p) (snapshot : ℕ) :
    s.get ucmp p key snapshot = some e ↔
      IsNewest IndexEntry.userKey IndexEntry.seq done key snapshot e := by
  have hfinds : ∀ d, IsNewest IndexEntry.userKey IndexEntry.seq done key snapshot d →
      s.get ucmp p key snapshot = some d :=
    fun d hnew => get_of_isNewest hd hs hf (h.ordered hord) ((h.isNewest_iff hroute).mpr hnew)
  refine ⟨fun hget => ?_, hfinds e⟩
  rcases Classical.em (∃ x ∈ done, x.userKey = key ∧ x.seq ≤ snapshot) with ⟨x, hx, hk, hv⟩ | hnone
  · obtain ⟨d, hnew⟩ := exists_isNewest hx hk hv
    have hd' := hfinds d hnew
    rw [hget] at hd'
    cases hd'
    exact hnew
  · rw [get_eq_none hd hs] at hget
    · cases hget
    · intro i hi x hx hk
      by_contra hv
      exact hnone ⟨x, ((h.mem_iff i hi x).mp hx).1, hk, Nat.le_of_not_lt hv⟩

/-- A generation searched too early hides the newer version of a key from its own snapshot. -/
theorem RebuiltChain.get_ne (h : RebuiltChain ucmp t first done s p)
    (hd : ucmp.DistinguishesBytes) (hs : Sorted ucmp s) {x y : IndexEntry}
    (hsearch : List.Sublist [x.loc.gen, y.loc.gen] (searchedGens first (routedGens ucmp t p done)))
    (hx : x ∈ done) (hroute : t.route ucmp x.userKey = p) (hkey : x.userKey = y.userKey)
    (hle : x.seq ≤ y.seq) : s.get ucmp p y.userKey y.seq ≠ some y := by
  have hnodup := nodup_searchedGens first (routedGens ucmp t p done)
  rw [← h.gens_eq] at hsearch hnodup
  obtain ⟨l, hl, hmap⟩ := List.sublist_map_iff.mp hsearch
  obtain ⟨i, j, rfl⟩ : ∃ i j, l = [i, j] := List.length_eq_two.mp (by simpa using congrArg List.length hmap.symm)
  obtain ⟨hi, hj⟩ : x.loc.gen = i.gen ∧ y.loc.gen = j.gen := by simpa using hmap
  obtain ⟨front, back, hchain, hfront, hback⟩ := List.cons_sublist_iff.mp hl
  obtain ⟨l₁, l₂, rfl⟩ := List.append_of_mem hfront
  -- the index of the newer version stands behind the one of the older version
  have hbehind : ∀ k ∈ l₁ ++ i :: l₂, y ∉ k.entries := by
    intro k hk hy
    have hky := ((h.mem_iff k (by rw [hchain]; exact List.mem_append_left _ hk) y).mp hy).2.2
    rw [hchain, List.map_append] at hnodup
    exact (List.nodup_append.mp hnodup).2.2 k.gen (List.mem_map_of_mem hk) j.gen
      (List.mem_map_of_mem (List.singleton_sublist.mp hback)) (hky.symm.trans hj)
  have hihit : i.get ucmp y.userKey y.seq ≠ none := by
    have himem : i ∈ s.chain p := by
      rw [hchain]
      exact List.mem_append_left _ hfront
    obtain ⟨d, hnew⟩ := @exists_isNewest IndexEntry Bytes IndexEntry.userKey IndexEntry.seq _ _ _ x
      ((h.mem_iff i himem x).mpr ⟨hx, hroute, hi⟩) hkey hle
    rw [(get_eq_some_iff hd (hs p i himem)).mpr hnew]
    exact Option.some_ne_none d
  rw [PartitionIndexSet.get]
  split
  · exact (Option.some_ne_none y).symm
  · split
    · rw [hchain, List.append_assoc, List.cons_append]
      refine @findSome?_ne_of_hit _ _ PartitionIndex.entries _ _ _ _ ?_ hihit _ ?_ ?_
      rotate_left
      · exact fun k hk => hbehind k (List.mem_append_left _ hk)
      · exact hbehind i hfront
      · intro k hk e he
        refine ((get_eq_some_iff hd (hs p k ?_)).mp he).mem
        rw [hchain, List.append_assoc]
        exact hk
    · exact (Option.some_ne_none y).symm

/-- Where the order of search is the order of recency the lookups are restored; elsewhere one of
them is not. -/
theorem restores_recover_iff (hd : ctx.ucmp.DistinguishesBytes) (hindex : ctx.indexSet = {})
    (hseq : Sequenced ctx.wal.env) :
    Restores ctx.recover ↔ SearchedByRecency ctx.ucmp ctx.tables.current ctx.wal.env := by
  have hrest := fun p hp => @rebuilt_recover p ctx hd hindex hseq hp
  obtain ⟨cache, hwal, htables, hucmp, -⟩ := replays_recover hseq.bounded
  replace htables : ctx.recover.tables = ctx.tables := htables
  replace hucmp : ctx.recover.ucmp = ctx.ucmp := hucmp
  simp only [Restores, ZeroFlushContext.route, htables, hucmp, wal_recover]
  constructor
  · intro h p hp
    obtain ⟨hreb, hs, -⟩ := hrest p hp
    rw [List.pairwise_iff_forall_sublist]
    rintro g g' hsub x hx y hy hroute hkey rfl rfl
    by_contra hlt
    have hne := hreb.get_ne hd hs hsub hx hroute hkey (Nat.le_of_not_lt hlt)
    apply hne
    rw [← hroute, hkey]
    refine (h y.userKey y.seq y).mpr ⟨hy, rfl, le_rfl, ?_⟩
    exact fun z _ _ hz => hz
  · intro h key snapshot e
    obtain ⟨hreb, hs, hf⟩ := hrest _ (PartitionTable.route_lt ctx.ucmp ctx.tables.current key)
    exact hreb.get_iff hd hs hf (h _ (PartitionTable.route_lt ctx.ucmp ctx.tables.current key)) rfl
      snapshot

theorem restores_iff (ctx : ZeroFlushContext) (wal : PartitionedWalManager)
    (tables : PartitionTableSet) (hd : ctx.ucmp.DistinguishesBytes) (hseq : Sequenced wal.env) :
    Restores (ctx.openWith wal tables) ↔ SearchedByRecency ctx.ucmp tables.current wal.env := by
  rw [ZeroFlushContext.openWith]
  exact restores_recover_iff hd rfl hseq

/-- Two ranges that meet at `b`, aligned with level 1 at every freeze. -/
def alignedStart : ZeroFlushContext :=
  start { partitions := 2, maxBatchPartitions := 1, routingMode := .kAlignL1 } .bytewise
    (.init (.cutAt 0 [98])) none

def put (key : UInt8) (value : Bytes) (seq : UInt64) (tableVersion : ℕ) : ContextOp :=
  .addRecord ⟨[key], value, kTypeValue, seq⟩ tableVersion 0

/-- The versions of `a` are in two generations of one partition. -/
def sameTable : List ContextOp :=
  [put 97 [1, 1] 1 0, .freezeBatchPartitions [], put 97 [2] 2 0, put 99 [3] 3 0]

/-- The first new table moves `a` to the partition that is frozen with it, the second one moves it
back to a partition that was never frozen. -/
def movedBack : List ContextOp :=
  [put 97 [1] 1 0, put 99 [2, 2] 2 0, .freezeBatchPartitions [([97], 1), ([120], 1)],
    put 97 [3, 3] 3 1, .freezeBatchPartitions [([98], 1), ([120], 1)]]

def written (ops : List ContextOp) : ZeroFlushContext := ops.foldl step alignedStart

theorem restores_of_sameTable :
    Sequenced (written sameTable).wal.reopen.env ∧
      Restores ((written sameTable).openWith (written sameTable).wal.reopen
        (written sameTable).tables) := by
  have hseq : Sequenced (written sameTable).wal.reopen.env :=
    ⟨by decide +kernel, by decide +kernel⟩
  have hucmp : (written sameTable).ucmp = .bytewise := rfl
  have hsearched : SearchedByRecency .bytewise (written sameTable).tables.current
      (written sameTable).wal.reopen.env := by decide +kernel
  refine ⟨hseq, (restores_iff _ _ _ ?_ hseq).mpr hsearched⟩
  rw [hucmp]
  exact UserComparator.bytewise_distinguishesBytes

def reopenedMovedBack : ZeroFlushContext :=
  (written movedBack).openWith (written movedBack).wal.reopen (written movedBack).tables

/-- The partition of `a` is searched from its generation 0, where the oldest version is. -/
theorem restores_fails :
    reopenedMovedBack.indexSet.get reopenedMovedBack.ucmp (reopenedMovedBack.route [97]) [97] 3 =
        some ⟨[97], 1, kTypeValue, ⟨0, 0, 0⟩⟩ ∧
      (⟨[97], 3, kTypeValue, ⟨1, 1, 0⟩⟩ : IndexEntry) ∈ versions reopenedMovedBack.wal.env ∧
      ¬ Restores reopenedMovedBack := by
  have hget : reopenedMovedBack.indexSet.get reopenedMovedBack.ucmp
      (reopenedMovedBack.route [97]) [97] 3 = some ⟨[97], 1, kTypeValue, ⟨0, 0, 0⟩⟩ := by decide +kernel
  have hmem : (⟨[97], 3, kTypeValue, ⟨1, 1, 0⟩⟩ : IndexEntry) ∈
      versions reopenedMovedBack.wal.env := by decide +kernel
  refine ⟨hget, hmem, fun hrestores => ?_⟩
  have hnew := (hrestores [97] 3 ⟨[97], 1, kTypeValue, ⟨0, 0, 0⟩⟩).mp hget
  have hle := hnew.newest _ hmem rfl (by decide)
  exact absurd hle (by decide)

end ZeroFlush.RecoveredAnswers
