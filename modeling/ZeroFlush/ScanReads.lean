import ZeroFlush.BackedEntries
import ZeroFlush.MultiGets
import ZeroFlush.RecoveredAnswers
import ZeroFlush.ScanIterators

/-! # Scans and point reads

A scan goes over the entries of all partition indexes and of the SSTs. A point read asks the indexes
of one partition first, and the SSTs after a miss. The two agree as long as every key is indexed
where it is routed to, the indexes are never behind the SSTs, and no index has a range tombstone. -/
namespace ZeroFlush.ScanReads
open FixedWidthCodec FiniteMaps WalFormat WalFiles PartitionedWal UserKeys OrderedInsertion
  PartitionIndexes IndexChains RecencyOrder IndexContents PartitionTables SealedFiles TableFiles
  Context ContextRuns ScanIterators RunMerging MultiGets
open ReleasedIndexes (Stored)
open PinnedReaders (allIndexes)

/-- A range tombstone of an SST. -/
structure RangeTombstone where
  first : Bytes
  last : Bytes
  seq : ℕ
  deriving DecidableEq, Repr

/-- The SSTs: their point entries as sorted runs in the order of the search, which are the files of
level 0 and then the levels, and their range tombstones. -/
structure Tables where
  runs : List (List Record) := []
  tombstones : List RangeTombstone := []
  deriving DecidableEq, Repr

/-- A version below a range tombstone that the snapshot may see. -/
def Tables.covered (ucmp : UserComparator) (t : Tables) (snapshot : ℕ) (r : Record) : Bool :=
  t.tombstones.any fun d => decide (d.seq ≤ snapshot ∧ r.1.seq < d.seq) &&
    ucmp.compare d.first r.1.userKey != .gt && ucmp.compare r.1.userKey d.last == .lt

/-- The merge operator of point reads, and of the iterator. -/
structure Database where
  ctx : ZeroFlushContext
  tables : Tables := {}
  fullMerge : Option (Bytes → Option Bytes → List Bytes → Option Bytes) := none
  mergeValues : Bytes → List Record → Except Status Bytes := fun _ _ => .ok []

/-- The entries of an index with the values that their locators read, empty after an error. -/
def indexRecord (ctx : ZeroFlushContext) (e : IndexEntry) : Record :=
  (⟨e.userKey, e.seq, e.type⟩, (ctx.readValue e.loc).toOption.getD [])

namespace Database
variable (db : Database)

/-- What the search of a key meets in the SSTs; a version below a tombstone counts as deleted. -/
def tableVersions (key : Bytes) (snapshot : ℕ) : List (UInt8 × Bytes) :=
  (db.tables.runs.flatMap fun run => run.filter fun r =>
      db.ctx.ucmp.compare r.1.userKey key == .eq && decide (r.1.seq ≤ snapshot)).map
    fun r => (if db.tables.covered db.ctx.ucmp snapshot r then kTypeRangeDeletion else r.1.type, r.2)

/-- `DBImpl::Get`. -/
def get (key : Bytes) (snapshot : ℕ) : Answer :=
  SuperVersion.getImpl ⟨db.ctx, db.fullMerge, db.tableVersions⟩ key snapshot

/-- `NewInternalIterator`: all indexes of all partitions, then the SSTs, whose range tombstones hide
entries of the SSTs only. -/
def newInternalIterator (snapshot : ℕ) : List Record :=
  mergingIterator db.ctx.ucmp
    (((allIndexes db.ctx.indexSet).map fun i => i.2.entries.map (indexRecord db.ctx)) ++
      db.tables.runs.map fun run => run.filter fun r => !db.tables.covered db.ctx.ucmp snapshot r)

/-- The keys and values of a forward scan, and the status it ends with. -/
def scan (snapshot : ℕ) : List (Bytes × Bytes) × Option Status :=
  dbIter db.ctx.ucmp db.mergeValues snapshot none false (db.newInternalIterator snapshot)

end Database

/-- A scan shows exactly the keys and values that point reads return, each once and in order. -/
structure ScanAgrees (db : Database) (snapshot : ℕ) : Prop where
  finishes : (db.scan snapshot).2 = none
  mem_iff : ∀ key v, (key, v) ∈ (db.scan snapshot).1 ↔ db.get key snapshot = .ok v
  ordered : (db.scan snapshot).1.Pairwise fun a b => db.ctx.ucmp.compare a.1 b.1 = .lt

/-- The indexes: every key is in the partition it is routed to, the indexes in front have the newer
versions, and all of them are values and point deletions that can be read. -/
structure Tidy (ctx : ZeroFlushContext) : Prop where
  sorted : Sorted ctx.ucmp ctx.indexSet
  filtered : Filtered ctx.indexSet
  ordered : ∀ p, Ordered IndexEntry.userKey IndexEntry.seq
    ((ctx.indexSet.chain p).map PartitionIndex.entries)
  routed : ∀ p x, Stored ctx.indexSet p x → ctx.route x.userKey = p
  points : ∀ p x, Stored ctx.indexSet p x → IsPoint x.type ∧ 0 < x.seq
  readable : ∀ p x, Stored ctx.indexSet p x → (ctx.readValue x.loc).toOption ≠ none

/-- The SSTs: sorted runs of values and point deletions, of which those searched first have the
newer versions. -/
structure Searchable (ucmp : UserComparator) (t : Tables) : Prop where
  sorted : ∀ run ∈ t.runs, run.Pairwise fun a b => ucmp.compare a.1.userKey b.1.userKey = .lt ∨
    ucmp.compare a.1.userKey b.1.userKey = .eq ∧ b.1.seq < a.1.seq
  ordered : Ordered (fun r : Record => r.1.userKey) (fun r => r.1.seq) t.runs
  points : ∀ run ∈ t.runs, ∀ r ∈ run, IsPoint r.1.type

/-- The indexes are not behind the SSTs: what the SSTs have of a key beyond an indexed version is
indexed too, and a version in both places is the same. -/
structure IndexFirst (ctx : ZeroFlushContext) (t : Tables) : Prop where
  newer : ∀ p x, Stored ctx.indexSet p x → ∀ run ∈ t.runs, ∀ r ∈ run, r.1.userKey = x.userKey →
    x.seq < r.1.seq → ∃ q y, Stored ctx.indexSet q y ∧ y.userKey = r.1.userKey ∧ y.seq = r.1.seq
  same : ∀ p x, Stored ctx.indexSet p x → ∀ run ∈ t.runs, ∀ r ∈ run, r.1.userKey = x.userKey →
    r.1.seq = x.seq → r.1.type = x.type ∧ (x.type = kTypeValue → ctx.readValue x.loc = .ok r.2)

abbrev IsNewestRecord (rs : List Record) (key : Bytes) (snapshot : ℕ) (r : Record) : Prop :=
  IsNewest (fun r : Record => r.1.userKey) (fun r => r.1.seq) rs key snapshot r

section listing
variable {ucmp : UserComparator} {key : Bytes} {snapshot : ℕ} {rs : List Record} {r : Record}

/-- In a sorted list the first visible version of a key is the newest one. -/
theorem isNewest_of_firstVisible (hs : rs.Pairwise fun a b => recordLe ucmp a b)
    (h : firstVisible snapshot key rs = some r) : IsNewestRecord rs key snapshot r := by
  obtain ⟨hr, front, back, rfl, hfront⟩ := List.find?_eq_some_iff_append.mp h
  rw [Bool.and_eq_true, beq_iff_eq, decide_eq_true_iff] at hr
  refine ⟨by simp, hr.1, hr.2, ?_⟩
  intro x hx hkey hvis
  obtain hx | hx := List.mem_append.mp hx
  · have hnot := hfront x hx
    simp [hkey, hvis] at hnot
  · obtain rfl | hx := List.mem_cons.mp hx
    · exact le_rfl
    · have hle := (List.pairwise_cons.mp (List.pairwise_append.mp hs).2.1).1 x hx
      obtain hlt | ⟨-, hseq⟩ := internalLe_iff.mp hle
      · rw [hr.1, hkey] at hlt
        exact absurd (hlt.symm.trans Std.ReflCmp.compare_self) nofun
      · show x.1.seq ≤ r.1.seq
        omega

theorem firstVisible_ne_none (h : ∃ r ∈ rs, r.1.userKey = key ∧ r.1.seq ≤ snapshot) :
    firstVisible snapshot key rs ≠ none := by
  obtain ⟨r, hr, hkey, hvis⟩ := h
  intro hnone
  have hnot := List.find?_eq_none.mp hnone r hr
  simp [hkey, hvis] at hnot

end listing

section indexes
variable {ctx : ZeroFlushContext} {key : Bytes} {snapshot : ℕ}

/-- The indexes that a scan collects are those of the chains. -/
theorem mem_allIndexes {s : PartitionIndexSet} {p : ℕ} {i : PartitionIndex} :
    (p, i) ∈ allIndexes s ↔ i ∈ s.chain p := by
  rw [PartitionIndexSet.chain, List.mem_append, List.mem_reverse, Option.mem_toList, allIndexes,
    List.mem_append]
  constructor
  · rintro (h | h)
    · obtain ⟨q, -, h⟩ := List.mem_flatMap.mp h
      obtain ⟨j, hj, heq⟩ := List.mem_map.mp h
      cases heq
      exact .inr hj
    · obtain ⟨⟨q, j⟩, hj, heq⟩ := List.mem_map.mp h
      cases heq
      exact .inl (AList.mem_lookup_iff.mpr hj)
  · rintro (h | h)
    · exact .inr (List.mem_map.mpr ⟨⟨p, i⟩, AList.mem_lookup_iff.mp h, rfl⟩)
    · refine .inl (List.mem_flatMap.mpr ⟨p, ?_, List.mem_map_of_mem h⟩)
      rw [← AList.mem_keys, ← AList.lookup_isSome]
      rw [PartitionIndexSet.frozenChain] at h
      cases hchain : s.frozen.lookup p with
      | none =>
        rw [hchain] at h
        cases h
      | some l => rfl

/-- A version is indexed once. -/
theorem Tidy.stored_unique (h : Tidy ctx) {p q : ℕ} {x y : IndexEntry}
    (hx : Stored ctx.indexSet p x) (hy : Stored ctx.indexSet q y) (hkey : x.userKey = y.userKey)
    (hseq : x.seq = y.seq) : x = y := by
  obtain rfl : p = q := by rw [← h.routed p x hx, ← h.routed q y hy, hkey]
  obtain ⟨i, hi, hxi⟩ := hx
  obtain ⟨j, hj, hyj⟩ := hy
  by_contra hne
  have hself : ctx.ucmp.compare x.userKey y.userKey = .eq := by
    rw [hkey]
    exact Std.ReflCmp.compare_self
  cases eq_or_ne i j with
  | inl hij =>
    subst hij
    obtain hlt | hlt := rel_or_rel_of_pairwise (h.sorted p i hi) hxi hyj hne
    · rw [compareKeySeq, hself, hseq] at hlt
      exact absurd hlt (by simp)
    · rw [compareKeySeq, Std.OrientedCmp.eq_symm hself, hseq] at hlt
      exact absurd hlt (by simp)
  | inr hij =>
    have hord := h.ordered p
    rw [Ordered, List.pairwise_map] at hord
    obtain hnew | hnew := rel_or_rel_of_pairwise hord hi hj hij
    · have hlt := hnew x hxi y hyj hkey
      omega
    · have hlt := hnew y hyj x hxi hkey.symm
      omega

/-- Without range tombstones nothing is covered. -/
theorem Tidy.checkRangeDelCover_eq (h : Tidy ctx) :
    ctx.checkRangeDelCover key snapshot = false := by
  rw [ZeroFlushContext.checkRangeDelCover, PartitionIndexSet.getRangeDelCover, List.any_eq_false]
  intro i hi
  rw [PartitionIndex.getRangeDelCover, Bool.not_eq_true]
  split
  · rfl
  next e he =>
    have hmem : e ∈ i.entries := (List.takeWhile_sublist _).subset (List.mem_of_getLast? he)
    have hpoint := (h.points kRangeDelPartId e ⟨i, hi, hmem⟩).1
    split
    · rfl
    · rw [if_pos]
      intro htype
      rw [IsPoint, htype] at hpoint
      exact absurd hpoint (by decide)

/-- The point read of an indexed key. -/
theorem Tidy.getFromPartitionIndex_newest (h : Tidy ctx) (hd : ctx.ucmp.DistinguishesBytes)
    {mergeOp : Option (Bytes → Bytes → List Bytes → Option Bytes)} {e : IndexEntry}
    (he : IsNewest IndexEntry.userKey IndexEntry.seq
      ((ctx.indexSet.chain (ctx.route key)).flatMap PartitionIndex.entries) key snapshot e) :
    e.type = kTypeValue ∧ (∃ v, ctx.readValue e.loc = .ok v ∧
        ctx.getFromPartitionIndex mergeOp key snapshot = .found v) ∨
      e.type ≠ kTypeValue ∧ ctx.getFromPartitionIndex mergeOp key snapshot = .notFound := by
  obtain ⟨i, hi, hei⟩ := List.mem_flatMap.mp he.mem
  have hstored : Stored ctx.indexSet (ctx.route key) e := ⟨i, hi, hei⟩
  have hget := get_of_isNewest hd h.sorted h.filtered (h.ordered (ctx.route key)) he
  have hpoint := (h.points _ e hstored).1
  rw [ZeroFlushContext.getFromPartitionIndex, hget]
  dsimp only
  rw [h.checkRangeDelCover_eq, if_neg Bool.false_ne_true]
  cases hread : ctx.readValue e.loc with
  | error s =>
    have hnot := h.readable _ e hstored
    rw [hread] at hnot
    exact absurd rfl hnot
  | ok v =>
    obtain hvalue | hdeleted := hpoint
    · refine .inl ⟨hvalue, v, rfl, ?_⟩
      rw [if_neg (by rw [hvalue]; decide)]
      dsimp only
      rw [if_neg (by rw [hvalue]; decide)]
    · refine .inr ⟨?_, ?_⟩
      · rintro hvalue
        rw [hvalue] at hdeleted
        exact absurd hdeleted (by decide)
      · rw [if_pos]
        exact hdeleted.imp_right .inl

/-- The point read of a key without an indexed version that it may see. -/
theorem Tidy.getFromPartitionIndex_miss (h : Tidy ctx) (hd : ctx.ucmp.DistinguishesBytes)
    {mergeOp : Option (Bytes → Bytes → List Bytes → Option Bytes)}
    (hnone : ∀ p x, Stored ctx.indexSet p x → x.userKey = key → snapshot < x.seq) :
    ctx.getFromPartitionIndex mergeOp key snapshot = .miss := by
  rw [ZeroFlushContext.getFromPartitionIndex,
    get_eq_none hd h.sorted fun i hi x hx => hnone _ x ⟨i, hi, hx⟩]
  dsimp only
  rw [h.checkRangeDelCover_eq, if_neg Bool.false_ne_true]

end indexes

section tables
variable {ucmp : UserComparator} {t : Tables} {key : Bytes} {snapshot : ℕ}

theorem recordLe_of_lt {a b : Record} (h : ucmp.compare a.1.userKey b.1.userKey = .lt ∨
    ucmp.compare a.1.userKey b.1.userKey = .eq ∧ b.1.seq < a.1.seq) : recordLe ucmp a b = true := by
  refine internalLe_iff.mpr ?_
  exact h.imp_right fun h => ⟨h.1, .inl h.2⟩

/-- Over all SSTs the newer versions of a key come first. -/
theorem Searchable.newestFirst (h : Searchable ucmp t) : t.runs.flatten.Pairwise
    fun a b => a.1.userKey = b.1.userKey → b.1.seq < a.1.seq := by
  rw [List.pairwise_flatten]
  refine ⟨?_, h.ordered⟩
  intro run hrun
  refine (h.sorted run hrun).imp ?_
  rintro a b (hlt | ⟨-, hseq⟩) hkey
  · rw [hkey] at hlt
    exact absurd (hlt.symm.trans Std.ReflCmp.compare_self) nofun
  · exact hseq

/-- A version is in the SSTs once. -/
theorem Searchable.unique (h : Searchable ucmp t) {r q : Record} (hr : r ∈ t.runs.flatten)
    (hq : q ∈ t.runs.flatten) (hkey : r.1.userKey = q.1.userKey) (hseq : r.1.seq = q.1.seq) :
    r = q := by
  by_contra hne
  obtain hlt | hlt := rel_or_rel_of_pairwise h.newestFirst hr hq hne
  · exact absurd (hlt hkey) (by omega)
  · exact absurd (hlt hkey.symm) (by omega)

/-- The search of the runs meets the newest version first. -/
theorem Searchable.firstVisible_run (h : Searchable ucmp t) {run : List Record} (hrun : run ∈ t.runs)
    (r : Record) : firstVisible snapshot key run = some r ↔ IsNewestRecord run key snapshot r := by
  have hsorted : run.Pairwise fun a b => recordLe ucmp a b :=
    (h.sorted run hrun).imp recordLe_of_lt
  constructor
  · exact isNewest_of_firstVisible hsorted
  · intro hnew
    obtain ⟨q, hq⟩ := Option.ne_none_iff_exists'.mp
      (firstVisible_ne_none ⟨r, hnew.mem, hnew.key_eq, hnew.visible⟩)
    have hqnew := isNewest_of_firstVisible hsorted hq
    have hrq := hnew.newest q hqnew.mem hqnew.key_eq hqnew.visible
    have hqr := hqnew.newest r hnew.mem hnew.key_eq hnew.visible
    have heq := h.unique (List.mem_flatten.mpr ⟨run, hrun, hqnew.mem⟩)
      (List.mem_flatten.mpr ⟨run, hrun, hnew.mem⟩) (hqnew.key_eq.trans hnew.key_eq.symm)
      (Nat.le_antisymm hrq hqr)
    rw [hq, heq]

theorem Searchable.findSome?_newest (h : Searchable ucmp t) {r : Record}
    (hr : IsNewestRecord t.runs.flatten key snapshot r) :
    t.runs.findSome? (firstVisible snapshot key) = some r := by
  have hord : Ordered (fun r : Record => r.1.userKey) (fun r => r.1.seq) (t.runs.map id) := by
    rw [List.map_id]
    exact h.ordered
  refine findSome?_of_isNewest (fun run hrun r => h.firstVisible_run hrun r) hord ?_
  show IsNewestRecord (t.runs.flatMap id) key snapshot r
  rw [List.flatMap_id]
  exact hr

/-- What is below a tombstone has only older versions below the same tombstone. -/
theorem covered_older {r q : Record} (h : t.covered ucmp snapshot r = true)
    (hkey : q.1.userKey = r.1.userKey) (hseq : q.1.seq ≤ r.1.seq) :
    t.covered ucmp snapshot q = true := by
  rw [Tables.covered, List.any_eq_true] at h ⊢
  obtain ⟨d, hd, h⟩ := h
  refine ⟨d, hd, ?_⟩
  rw [Bool.and_eq_true, Bool.and_eq_true, decide_eq_true_iff] at h ⊢
  rw [hkey]
  exact ⟨⟨⟨h.1.1.1, by omega⟩, h.1.2⟩, h.2⟩

end tables

section database
variable {db : Database} {key : Bytes} {snapshot : ℕ}

/-- The SSTs answer with the version their search meets first. -/
theorem head?_tableVersions (hd : db.ctx.ucmp.DistinguishesBytes) :
    (db.tableVersions key snapshot).head? =
      (db.tables.runs.findSome? (firstVisible snapshot key)).map fun r =>
        (if db.tables.covered db.ctx.ucmp snapshot r then kTypeRangeDeletion else r.1.type, r.2) := by
  have hpred : (fun r : Record => db.ctx.ucmp.compare r.1.userKey key == .eq &&
      decide (r.1.seq ≤ snapshot)) = fun r => r.1.userKey == key && decide (r.1.seq ≤ snapshot) := by
    funext r
    congr 1
    rw [Bool.eq_iff_iff, beq_iff_eq, beq_iff_eq]
    exact ⟨hd _ _, fun h => h ▸ Std.ReflCmp.compare_self⟩
  rw [Database.tableVersions, List.head?_map, List.head?_flatMap, hpred]
  simp only [List.head?_filter]
  rfl

/-- The point read of a key whose newest version is in the SSTs. -/
theorem versionGet_newest (hd : db.ctx.ucmp.DistinguishesBytes)
    (hs : Searchable db.ctx.ucmp db.tables) {r : Record}
    (hr : IsNewestRecord db.tables.runs.flatten key snapshot r) (v : Bytes) :
    saveValues db.fullMerge key none (db.tableVersions key snapshot) = .ok v ↔
      db.tables.covered db.ctx.ucmp snapshot r = false ∧ r.1.type = kTypeValue ∧ r.2 = v := by
  have hhead := @head?_tableVersions db key snapshot hd
  rw [hs.findSome?_newest hr, Option.map_some] at hhead
  obtain ⟨rest, hrest⟩ := List.head?_eq_some_iff.mp hhead
  obtain ⟨run, hrun, hmem⟩ := List.mem_flatten.mp hr.mem
  have hpoint := hs.points run hrun r hmem
  rw [hrest, saveValues]
  cases db.tables.covered db.ctx.ucmp snapshot r with
  | true =>
    rw [if_pos rfl, if_neg (by decide), if_neg (by decide)]
    exact iff_of_false nofun fun h => absurd h.1 nofun
  | false =>
    rw [if_neg Bool.false_ne_true]
    obtain hvalue | hdeleted := hpoint
    · rw [if_pos hvalue]
      simp [hvalue]
    · have hvalue : r.1.type ≠ kTypeValue := by
        rintro hvalue
        rw [hvalue] at hdeleted
        exact absurd hdeleted (by decide)
      have hmerge : r.1.type ≠ kTypeMerge := by
        rintro hmerge
        rw [hmerge] at hdeleted
        exact absurd hdeleted (by decide)
      rw [if_neg hvalue, if_neg hmerge]
      exact iff_of_false nofun fun h => hvalue h.2.1

/-- The children of the merging iterator are sorted. -/
theorem sorted_children (ht : Tidy db.ctx) (hs : Searchable db.ctx.ucmp db.tables) :
    ∀ run ∈ ((allIndexes db.ctx.indexSet).map fun i => i.2.entries.map (indexRecord db.ctx)) ++
      db.tables.runs.map fun run => run.filter fun r => !db.tables.covered db.ctx.ucmp snapshot r,
      run.Pairwise fun a b => recordLe db.ctx.ucmp a b := by
  intro run hrun
  obtain hrun | hrun := List.mem_append.mp hrun
  · obtain ⟨⟨p, i⟩, hi, rfl⟩ := List.mem_map.mp hrun
    rw [List.pairwise_map]
    refine (ht.sorted p i (mem_allIndexes.mp hi)).imp ?_
    intro a b hab
    rw [compareKeySeq, Ordering.then_eq_lt] at hab
    exact recordLe_of_lt (hab.imp_right fun h => ⟨h.1, compare_lt_iff_lt.mp h.2⟩)
  · obtain ⟨run', hrun', rfl⟩ := List.mem_map.mp hrun
    exact ((hs.sorted run' hrun').imp recordLe_of_lt).sublist List.filter_sublist

/-- What the internal iterator goes over. -/
theorem mem_newInternalIterator (ht : Tidy db.ctx) (hs : Searchable db.ctx.ucmp db.tables)
    {r : Record} : r ∈ db.newInternalIterator snapshot ↔
      (∃ p x, Stored db.ctx.indexSet p x ∧ r = indexRecord db.ctx x) ∨
        r ∈ db.tables.runs.flatten ∧ db.tables.covered db.ctx.ucmp snapshot r = false := by
  rw [Database.newInternalIterator, mergingIterator, mergeRuns_eq (sorted_children ht hs),
    List.mem_insertionSort, List.flatten_append, List.mem_append]
  refine or_congr ?_ ?_
  · constructor
    · intro h
      obtain ⟨l, hl, hr⟩ := List.mem_flatten.mp h
      obtain ⟨⟨p, i⟩, hi, rfl⟩ := List.mem_map.mp hl
      obtain ⟨x, hx, rfl⟩ := List.mem_map.mp hr
      exact ⟨p, x, ⟨i, mem_allIndexes.mp hi, hx⟩, rfl⟩
    · rintro ⟨p, x, ⟨i, hi, hx⟩, rfl⟩
      exact List.mem_flatten.mpr ⟨_, List.mem_map_of_mem (mem_allIndexes.mpr hi),
        List.mem_map_of_mem hx⟩
  · constructor
    · intro h
      obtain ⟨l, hl, hr⟩ := List.mem_flatten.mp h
      obtain ⟨run, hrun, rfl⟩ := List.mem_map.mp hl
      obtain ⟨hr, hcov⟩ := List.mem_filter.mp hr
      exact ⟨List.mem_flatten.mpr ⟨run, hrun, hr⟩, by simpa using hcov⟩
    · rintro ⟨h, hcov⟩
      obtain ⟨run, hrun, hr⟩ := List.mem_flatten.mp h
      exact List.mem_flatten.mpr ⟨_, List.mem_map_of_mem hrun,
        List.mem_filter.mpr ⟨hr, by simpa using hcov⟩⟩

theorem listing_newInternalIterator (ht : Tidy db.ctx) (hs : Searchable db.ctx.ucmp db.tables) :
    Listing db.ctx.ucmp (db.newInternalIterator snapshot) := by
  have hmerge := mergeRuns_eq (@sorted_children db snapshot ht hs)
  rw [Database.newInternalIterator, mergingIterator, hmerge]
  refine ⟨List.pairwise_insertionSort _ _, ?_⟩
  have hsymm : ∀ {a b : Record}, (a.1.userKey = b.1.userKey → ¬ (a.1.seq = 0 ∧ b.1.seq = 0)) →
      b.1.userKey = a.1.userKey → ¬ (b.1.seq = 0 ∧ a.1.seq = 0) :=
    fun h hkey hzero => h hkey.symm hzero.symm
  have hzero : (((allIndexes db.ctx.indexSet).map fun i => i.2.entries.map (indexRecord db.ctx)) ++
      db.tables.runs.map fun run => run.filter fun r =>
        !db.tables.covered db.ctx.ucmp snapshot r).flatten.Pairwise
      fun a b => a.1.userKey = b.1.userKey → ¬ (a.1.seq = 0 ∧ b.1.seq = 0) := by
    have hpos : ∀ r ∈ ((allIndexes db.ctx.indexSet).map fun i =>
        i.2.entries.map (indexRecord db.ctx)).flatten, r.1.seq ≠ 0 := by
      intro r hr
      obtain ⟨l, hl, hr⟩ := List.mem_flatten.mp hr
      obtain ⟨⟨p, i⟩, hi, rfl⟩ := List.mem_map.mp hl
      obtain ⟨x, hx, rfl⟩ := List.mem_map.mp hr
      exact Nat.ne_of_gt (ht.points p x ⟨i, mem_allIndexes.mp hi, hx⟩).2
    rw [List.flatten_append, List.pairwise_append]
    refine ⟨List.pairwise_of_forall_mem_list fun a ha b _ _ h => hpos a ha h.1, ?_,
      fun a ha b _ _ h => hpos a ha h.1⟩
    rw [← List.filter_flatten]
    refine (hs.newestFirst.imp ?_).sublist List.filter_sublist
    intro a b hlt hkey hboth
    have := hlt hkey
    omega
  refine ((List.perm_insertionSort _ _).pairwise_iff hsymm |>.mpr hzero).imp ?_
  exact fun h hkey hb ha => h hkey ⟨ha, hb⟩

/-- A key with an indexed version: the scan and the point read meet the same one. -/
theorem mem_scan_indexed (hd : db.ctx.ucmp.DistinguishesBytes) (ht : Tidy db.ctx)
    (hs : Searchable db.ctx.ucmp db.tables) (hfirst : IndexFirst db.ctx db.tables) {p : ℕ}
    {x : IndexEntry} (hx : Stored db.ctx.indexSet p x) (hkey : x.userKey = key)
    (hvis : x.seq ≤ snapshot) (v : Bytes) :
    (∃ r, firstVisible snapshot key (db.newInternalIterator snapshot) = some r ∧
      r.1.type = kTypeValue ∧ r.2 = v) ↔ db.get key snapshot = .ok v := by
  have hroute := ht.routed p x hx
  rw [hkey] at hroute
  subst hroute
  obtain ⟨i, hi, hxi⟩ := id hx
  obtain ⟨e, he⟩ := @exists_isNewest _ _ IndexEntry.userKey IndexEntry.seq _ key snapshot x
    (List.mem_flatMap.mpr ⟨i, hi, hxi⟩) hkey hvis
  obtain ⟨j, hj, hej⟩ := List.mem_flatMap.mp he.mem
  have hstored : Stored db.ctx.indexSet (db.ctx.route key) e := ⟨j, hj, hej⟩
  have hbound : ∀ q y, Stored db.ctx.indexSet q y → y.userKey = key → y.seq ≤ snapshot →
      y.seq ≤ e.seq := by
    intro q y hy hyk hyv
    have hq := ht.routed q y hy
    rw [hyk] at hq
    subst hq
    obtain ⟨k, hk, hyk'⟩ := hy
    exact he.newest y (List.mem_flatMap.mpr ⟨k, hk, hyk'⟩) hyk hyv
  have hmem : indexRecord db.ctx e ∈ db.newInternalIterator snapshot :=
    (mem_newInternalIterator ht hs).mpr (.inl ⟨_, e, hstored, rfl⟩)
  obtain ⟨r, hr⟩ := Option.ne_none_iff_exists'.mp
    (firstVisible_ne_none ⟨_, hmem, he.key_eq, he.visible⟩)
  have hnew := isNewest_of_firstVisible (listing_newInternalIterator ht hs).sorted hr
  have hge : e.seq ≤ r.1.seq := hnew.newest _ hmem he.key_eq he.visible
  -- the version of the scan has the number of the indexed one, so it is the same
  have hsame : r.1.type = e.type ∧ (e.type = kTypeValue → db.ctx.readValue e.loc = .ok r.2) := by
    obtain ⟨q, y, hy, rfl⟩ | ⟨htable, -⟩ := (mem_newInternalIterator ht hs).mp hnew.mem
    · have hle := hbound q y hy hnew.key_eq hnew.visible
      have hyx := ht.stored_unique hy hstored (hnew.key_eq.trans he.key_eq.symm)
        (Nat.le_antisymm hle hge)
      subst hyx
      refine ⟨rfl, fun _ => ?_⟩
      rw [indexRecord]
      cases hread : db.ctx.readValue y.loc with
      | error s =>
        have hnot := ht.readable q y hy
        rw [hread] at hnot
        exact absurd rfl hnot
      | ok w => rfl
    · obtain ⟨run, hrun, hmemr⟩ := List.mem_flatten.mp htable
      have hkeys : r.1.userKey = e.userKey := hnew.key_eq.trans he.key_eq.symm
      refine hfirst.same _ e hstored run hrun r hmemr hkeys (Nat.le_antisymm ?_ hge)
      by_contra hlt
      obtain ⟨q, y, hy, hyk, hys⟩ := hfirst.newer _ e hstored run hrun r hmemr hkeys (by omega)
      have hle := hbound q y hy (hyk.trans hnew.key_eq) (hys ▸ hnew.visible)
      omega
  rw [Database.get, SuperVersion.getImpl]
  dsimp only
  obtain ⟨hvalue, w, hread, hget⟩ | ⟨hvalue, hget⟩ :=
    @Tidy.getFromPartitionIndex_newest db.ctx key snapshot ht hd
      (SuperVersion.mergeOp ⟨db.ctx, db.fullMerge, db.tableVersions⟩) e he
  · rw [hget]
    have hrw : w = r.2 := Except.ok.inj (hread.symm.trans (hsame.2 hvalue))
    constructor
    · rintro ⟨q, hq, -, rfl⟩
      rw [hr] at hq
      cases hq
      rw [hrw]
    · intro hv
      obtain rfl := Answer.ok.inj hv
      exact ⟨r, hr, hsame.1.trans hvalue, hrw.symm⟩
  · rw [hget]
    refine iff_of_false ?_ fun h => by cases h
    rintro ⟨q, hq, htype, -⟩
    rw [hr] at hq
    cases hq
    exact hvalue (hsame.1.symm.trans htype)

/-- A key without one: both go by the SSTs. -/
theorem mem_scan_tables (hd : db.ctx.ucmp.DistinguishesBytes) (ht : Tidy db.ctx)
    (hs : Searchable db.ctx.ucmp db.tables)
    (hnone : ∀ p x, Stored db.ctx.indexSet p x → x.userKey = key → snapshot < x.seq) (v : Bytes) :
    (∃ r, firstVisible snapshot key (db.newInternalIterator snapshot) = some r ∧
      r.1.type = kTypeValue ∧ r.2 = v) ↔ db.get key snapshot = .ok v := by
  have hfrom : ∀ {r : Record}, firstVisible snapshot key (db.newInternalIterator snapshot) = some r →
      IsNewestRecord (db.newInternalIterator snapshot) key snapshot r ∧
        r ∈ db.tables.runs.flatten ∧ db.tables.covered db.ctx.ucmp snapshot r = false := by
    intro r hr
    have hnew := isNewest_of_firstVisible (listing_newInternalIterator ht hs).sorted hr
    refine ⟨hnew, ((mem_newInternalIterator ht hs).mp hnew.mem).resolve_left ?_⟩
    rintro ⟨p, x, hx, rfl⟩
    exact absurd (hnone p x hx hnew.key_eq) (not_lt.mpr hnew.visible)
  rw [Database.get, SuperVersion.getImpl, ht.getFromPartitionIndex_miss hd hnone]
  dsimp only [SuperVersion.versionGet]
  rcases Classical.em (∃ r ∈ db.tables.runs.flatten, r.1.userKey = key ∧ r.1.seq ≤ snapshot)
    with ⟨q, hq, hqk, hqv⟩ | hempty
  · obtain ⟨w, hw⟩ := @exists_isNewest _ _ (fun r : Record => r.1.userKey) (fun r => r.1.seq) _ key
      snapshot q hq hqk hqv
    rw [versionGet_newest hd hs hw]
    constructor
    · rintro ⟨r, hr, htype, hv⟩
      obtain ⟨hnew, hmem, hcov⟩ := hfrom hr
      have hrw : r.1.seq ≤ w.1.seq := hw.newest r hmem hnew.key_eq hnew.visible
      have hkeys : r.1.userKey = w.1.userKey := hnew.key_eq.trans hw.key_eq.symm
      -- a newest version below a tombstone would hide this one too
      have hwcov : db.tables.covered db.ctx.ucmp snapshot w = false := by
        by_contra hc
        rw [Bool.not_eq_false] at hc
        rw [covered_older hc hkeys hrw] at hcov
        cases hcov
      have hwr : w.1.seq ≤ r.1.seq := hnew.newest w
        ((mem_newInternalIterator ht hs).mpr (.inr ⟨hw.mem, hwcov⟩)) hw.key_eq hw.visible
      have heq := hs.unique hmem hw.mem hkeys (Nat.le_antisymm hrw hwr)
      subst heq
      exact ⟨hwcov, htype, hv⟩
    · rintro ⟨hcov, htype, hv⟩
      have hmem : w ∈ db.newInternalIterator snapshot :=
        (mem_newInternalIterator ht hs).mpr (.inr ⟨hw.mem, hcov⟩)
      obtain ⟨r, hr⟩ := Option.ne_none_iff_exists'.mp
        (firstVisible_ne_none ⟨w, hmem, hw.key_eq, hw.visible⟩)
      obtain ⟨hnew, hmemr, -⟩ := hfrom hr
      have heq := hs.unique hmemr hw.mem (hnew.key_eq.trans hw.key_eq.symm)
        (Nat.le_antisymm (hw.newest r hmemr hnew.key_eq hnew.visible)
          (hnew.newest w hmem hw.key_eq hw.visible))
      subst heq
      exact ⟨r, hr, htype, hv⟩
  · have hhead := @head?_tableVersions db key snapshot hd
    have hmiss : db.tables.runs.findSome? (firstVisible snapshot key) = none := by
      rw [List.findSome?_eq_none_iff]
      intro run hrun
      rw [firstVisible, List.find?_eq_none]
      intro r hr hpred
      rw [Bool.and_eq_true, beq_iff_eq, decide_eq_true_iff] at hpred
      exact hempty ⟨r, List.mem_flatten.mpr ⟨run, hrun, hr⟩, hpred⟩
    rw [hmiss, Option.map_none, List.head?_eq_none_iff] at hhead
    rw [hhead]
    refine iff_of_false ?_ fun h => by cases h
    rintro ⟨r, hr, -⟩
    obtain ⟨hnew, hmem, -⟩ := hfrom hr
    exact hempty ⟨r, hmem, hnew.key_eq, hnew.visible⟩

/-- In a state where the indexes are tidy and in front of the SSTs, scans agree with point reads. -/
theorem scanAgrees_of_tidy (hd : db.ctx.ucmp.DistinguishesBytes) (ht : Tidy db.ctx)
    (hs : Searchable db.ctx.ucmp db.tables) (hfirst : IndexFirst db.ctx db.tables) (snapshot : ℕ) :
    ScanAgrees db snapshot := by
  have hpoints : ∀ r ∈ db.newInternalIterator snapshot, r.1.seq ≤ snapshot → IsPoint r.1.type := by
    intro r hr _
    obtain ⟨p, x, hx, rfl⟩ | ⟨hmem, -⟩ := (mem_newInternalIterator ht hs).mp hr
    · exact (ht.points p x hx).1
    · obtain ⟨run, hrun, hr⟩ := List.mem_flatten.mp hmem
      exact hs.points run hrun r hr
  obtain ⟨hshows, hordered, hstatus⟩ := @dbIter_spec _ db.mergeValues _ hd _
    (listing_newInternalIterator ht hs) hpoints none false (fun _ hk => absurd hk nofun)
    (fun h => absurd h nofun)
  refine ⟨hstatus, ?_, hordered⟩
  intro key v
  rw [Database.scan, hshows.mem_iff, and_iff_right nofun]
  rcases Classical.em (∃ p x, Stored db.ctx.indexSet p x ∧ x.userKey = key ∧ x.seq ≤ snapshot)
    with ⟨p, x, hx, hkey, hvis⟩ | hnone
  · exact mem_scan_indexed hd ht hs hfirst hx hkey hvis v
  · refine mem_scan_tables hd ht hs ?_ v
    intro p x hx hkey
    by_contra hvis
    exact hnone ⟨p, x, hx, hkey, not_lt.mp hvis⟩

end database

end ZeroFlush.ScanReads
