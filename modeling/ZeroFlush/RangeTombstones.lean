import ZeroFlush.BackedEntries
import ZeroFlush.RunMerging
import ZeroFlush.SnapshotReads

/-! # The index of the range tombstones

Tombstones are indexed by their begin keys; where one ends stands in its record. A lookup inspects
one tombstone of every generation: the last one at or in front of the key and the snapshot. -/
namespace ZeroFlush.RangeTombstones
open FixedWidthCodec WalFormat PartitionedWal UserKeys OrderedInsertion PartitionIndexes IndexChains
  IndexContents SnapshotReads BackedEntries

/-- `DeleteRange` of the keys from `beginKey` up to `endKey`, which is not deleted itself. -/
structure RangeTombstone where
  beginKey : Bytes
  endKey : Bytes
  seq : ℕ
  deriving DecidableEq, Repr

/-- The indexes, and the values of the records that their locators point to. -/
structure RangeDels where
  indexSet : PartitionIndexSet := {}
  log : List Bytes := []

inductive RangeDelOp
  | insert (gen : ℕ) (t : RangeTombstone)
  | insertCreate (gen : ℕ) (t : RangeTombstone)
  | freeze (newGen : ℕ)
  | release (gen : ℕ)

namespace RangeDels

def readValue (d : RangeDels) (ref : WalRecordRef) : Except Status Bytes :=
  match d.log[ref.offset]? with
  | some v => .ok v
  | none => .error .notFound

/-- The index entry of a tombstone whose record is appended to the log. -/
def entry (d : RangeDels) (gen : ℕ) (t : RangeTombstone) : IndexEntry :=
  ⟨t.beginKey, t.seq, kTypeRangeDeletion, ⟨kRangeDelPartId, gen, d.log.length⟩⟩

def step (ucmp : UserComparator) (d : RangeDels) : RangeDelOp → RangeDels
  | .insert gen t =>
    ⟨d.indexSet.insert ucmp kRangeDelPartId gen (d.entry gen t), d.log ++ [t.endKey]⟩
  | .insertCreate gen t =>
    ⟨d.indexSet.insertCreate ucmp kRangeDelPartId gen (d.entry gen t), d.log ++ [t.endKey]⟩
  | .freeze newGen => { d with indexSet := d.indexSet.freeze kRangeDelPartId newGen }
  | .release gen => { d with indexSet := d.indexSet.releaseFrozen kRangeDelPartId gen }

def run (ucmp : UserComparator) (ops : List RangeDelOp) : RangeDels := ops.foldl (step ucmp) {}

def generations (d : RangeDels) : List PartitionIndex := d.indexSet.chain kRangeDelPartId

/-- The index of some generation holds the tombstone. -/
def Holds (d : RangeDels) (idx : PartitionIndex) (t : RangeTombstone) : Prop :=
  ∃ e ∈ idx.entries, e.userKey = t.beginKey ∧ e.seq = t.seq ∧ d.readValue e.loc = .ok t.endKey

end RangeDels

section lookup
variable (ucmp : UserComparator) (key : Bytes) (snapshot : ℕ)

/-- The key lies in the range. -/
def InRange (t : RangeTombstone) : Prop :=
  ucmp.compare t.beginKey key ≠ .gt ∧ ucmp.compare key t.endKey = .lt

/-- Some tombstone that the snapshot may see deletes the key. -/
def Covered (d : RangeDels) : Prop :=
  ∃ idx ∈ d.generations, ∃ t, d.Holds idx t ∧ t.seq ≤ snapshot ∧ InRange ucmp key t

/-- The tombstone stands at or in front of the key and the snapshot: it begins in front of the
key, or at the key with a sequence number from the snapshot on. -/
def AtOrBefore (t : RangeTombstone) : Prop :=
  ucmp.compare t.beginKey key = .lt ∨ ucmp.compare t.beginKey key = .eq ∧ snapshot ≤ t.seq

/-- `t` begins in front of `u`, or at the same key with a greater sequence number. -/
def Before (t u : RangeTombstone) : Prop :=
  ucmp.compare t.beginKey u.beginKey = .lt ∨
    ucmp.compare t.beginKey u.beginKey = .eq ∧ u.seq < t.seq

/-- The one tombstone of a generation that is inspected. -/
def Inspected (d : RangeDels) (idx : PartitionIndex) (t : RangeTombstone) : Prop :=
  d.Holds idx t ∧ AtOrBefore ucmp key snapshot t ∧
    ∀ u, d.Holds idx u → AtOrBefore ucmp key snapshot u → u = t ∨ Before ucmp u t

/-- No covering tombstone is hidden behind the inspected ones, and none that ends behind the key is
too new for the snapshot, unless another one covers the key as well. -/
def Unobscured (d : RangeDels) : Prop :=
  (Covered ucmp key snapshot d → ∃ idx ∈ d.generations, ∃ t,
    Inspected ucmp key snapshot d idx t ∧ ucmp.compare key t.endKey = .lt) ∧
  ∀ idx ∈ d.generations, ∀ t, Inspected ucmp key snapshot d idx t →
    ucmp.compare key t.endKey = .lt → snapshot < t.seq → Covered ucmp key snapshot d

end lookup

/-- What every run keeps: the indexes are sorted, and their entries are tombstones with a record. -/
structure Sound (ucmp : UserComparator) (d : RangeDels) : Prop where
  sorted : Sorted ucmp d.indexSet
  tombstones : ∀ idx ∈ d.generations, ∀ e ∈ idx.entries,
    e.type = kTypeRangeDeletion ∧ e.loc.offset < d.log.length

section run
variable {ucmp : UserComparator} {d : RangeDels} {key : Bytes} {snapshot : ℕ}

theorem sound_insertion (h : Sound ucmp d) {gen : ℕ} (t : RangeTombstone) {s' : PartitionIndexSet}
    (hsorted : Sorted ucmp s')
    (hins : Insertion ucmp gen (d.entry gen t) d.indexSet kRangeDelPartId
      (s'.chain kRangeDelPartId)) :
    Sound ucmp ⟨s', d.log ++ [t.endKey]⟩ := by
  have hlog : (d.log ++ [t.endKey]).length = d.log.length + 1 := by simp
  refine ⟨hsorted, ?_⟩
  refine hins.forall (P := fun idx => ∀ e ∈ idx.entries,
    e.type = kTypeRangeDeletion ∧ e.loc.offset < (d.log ++ [t.endKey]).length) ?_ ?_ ?_
  · intro idx hidx e he
    obtain ⟨htype, hoff⟩ := h.tombstones idx hidx e he
    exact ⟨htype, by omega⟩
  · intro e he
    rw [entries_inserted_empty, List.mem_singleton] at he
    rw [he]
    exact ⟨rfl, by rw [hlog]; exact Nat.lt_succ_self _⟩
  · intro idx _ hidx e he
    obtain rfl | he := mem_inserted he
    · exact ⟨rfl, by rw [hlog]; exact Nat.lt_succ_self _⟩
    · exact hidx e he

theorem sound_step (h : Sound ucmp d) (op : RangeDelOp) : Sound ucmp (d.step ucmp op) := by
  cases op with
  | insert gen t => exact sound_insertion h t (sorted_insert h.sorted) (chain_insert ucmp _ _ _ _).1
  | insertCreate gen t =>
    exact sound_insertion h t (sorted_insertCreate h.sorted) (chain_insertCreate ucmp _ _ _ _).1
  | freeze newGen =>
    refine ⟨sorted_freezeIndexLoop h.sorted [(kRangeDelPartId, newGen)], ?_⟩
    intro idx hidx e he
    obtain hidx | hnil := mem_chain_freeze hidx
    · exact h.tombstones idx hidx e he
    · rw [hnil] at he
      cases he
  | release gen =>
    have hsub := chain_releaseFrozen_sublist d.indexSet kRangeDelPartId gen
    exact ⟨fun p i hi => h.sorted p i ((hsub p).subset hi),
      fun idx hidx => h.tombstones idx ((hsub kRangeDelPartId).subset hidx)⟩

theorem chain_empty (p : ℕ) : PartitionIndexSet.chain {} p = [] := by
  simp [PartitionIndexSet.chain, PartitionIndexSet.frozenChain]

theorem sound_empty : Sound ucmp {} := by
  refine ⟨fun p i hi => ?_, fun idx hidx => ?_⟩
  · rw [chain_empty] at hi
    cases hi
  · rw [RangeDels.generations, chain_empty] at hidx
    cases hidx

theorem sound_run (ucmp : UserComparator) (ops : List RangeDelOp) :
    Sound ucmp (RangeDels.run ucmp ops) := by
  have hfold : ∀ d, Sound ucmp d → Sound ucmp (ops.foldl (RangeDels.step ucmp) d) := by
    induction ops with
    | nil => exact fun d h => h
    | cons op ops ih => exact fun d h => ih _ (sound_step h op)
  exact hfold {} sound_empty

/-- A fresh tombstone of the active generation is held afterwards. -/
theorem holds_step_insert {gen : ℕ} {t : RangeTombstone}
    (hgen : ∀ g, activeGen? d.indexSet kRangeDelPartId = some g → g = gen)
    (hfresh : ∀ idx ∈ d.generations, ∀ x ∈ idx.entries,
      compareKeySeq ucmp (d.entry gen t) x ≠ .eq) :
    ∃ idx ∈ (d.step ucmp (.insert gen t)).generations, idx.gen = gen ∧
      (d.step ucmp (.insert gen t)).Holds idx t := by
  obtain ⟨idx, hidx, hg, he⟩ := holds_insert hgen hfresh
  refine ⟨idx, hidx, hg, _, he, rfl, rfl, ?_⟩
  simp [RangeDels.readValue, RangeDels.step, RangeDels.entry]

/-- The tombstone of an entry, which its record completes. -/
theorem exists_holds (h : Sound ucmp d) {idx : PartitionIndex} (hidx : idx ∈ d.generations)
    {e : IndexEntry} (he : e ∈ idx.entries) :
    ∃ endKey, d.readValue e.loc = .ok endKey ∧ d.Holds idx ⟨e.userKey, endKey, e.seq⟩ := by
  have hlog := (h.tombstones idx hidx e he).2
  have hread : d.readValue e.loc = .ok d.log[e.loc.offset] := by
    rw [RangeDels.readValue, List.getElem?_eq_getElem hlog]
  exact ⟨_, hread, e, he, rfl, rfl, hread⟩

theorem compareKeySeq_eq_lt {x e : IndexEntry} : compareKeySeq ucmp x e = .lt ↔
    ucmp.compare x.userKey e.userKey = .lt ∨
      ucmp.compare x.userKey e.userKey = .eq ∧ e.seq < x.seq := by
  rw [compareKeySeq, Ordering.then_eq_lt, Nat.compare_eq_lt]

/-- The entry that `SeekForPrev` stops at is that of the inspected tombstone. -/
theorem inspected_iff (h : Sound ucmp d) {idx : PartitionIndex} (hidx : idx ∈ d.generations)
    {e : IndexEntry} (he : e ∈ idx.entries) {endKey : Bytes} (hread : d.readValue e.loc = .ok endKey) :
    Inspected ucmp key snapshot d idx ⟨e.userKey, endKey, e.seq⟩ ↔
      compareKeySeq ucmp e (lookupKey key snapshot) ≠ .gt ∧
        ∀ x ∈ idx.entries, compareKeySeq ucmp x (lookupKey key snapshot) ≠ .gt →
          x = e ∨ compareKeySeq ucmp x e = .lt := by
  constructor
  · rintro ⟨-, hreach, hlast⟩
    refine ⟨compareKeySeq_probe.mpr hreach, fun x hx hxreach => ?_⟩
    obtain ⟨endKey', -, hholds⟩ := exists_holds h hidx hx
    obtain heq | hbefore := hlast _ hholds (compareKeySeq_probe.mp hxreach)
    · by_cases hxe : x = e
      · exact .inl hxe
      · have hkey : x.userKey = e.userKey := congrArg RangeTombstone.beginKey heq
        have hseq : x.seq = e.seq := congrArg RangeTombstone.seq heq
        have hcmp : ∀ y z : IndexEntry, y.userKey = z.userKey → y.seq = z.seq →
            compareKeySeq ucmp y z = .eq := by
          intro y z hyz hseq
          rw [compareKeySeq, hyz, hseq, Ordering.then_eq_eq]
          exact ⟨Std.ReflCmp.compare_self, Std.ReflCmp.compare_self⟩
        obtain hlt | hlt := RunMerging.rel_or_rel_of_pairwise (h.sorted _ idx hidx) hx he hxe
        · rw [hcmp x e hkey hseq] at hlt
          cases hlt
        · rw [hcmp e x hkey.symm hseq.symm] at hlt
          cases hlt
    · exact .inr (compareKeySeq_eq_lt.mpr hbefore)
  · rintro ⟨hreach, hlast⟩
    refine ⟨⟨e, he, rfl, rfl, hread⟩, compareKeySeq_probe.mp hreach, ?_⟩
    rintro ⟨b, f, q⟩ ⟨x, hx, rfl, rfl, hxread⟩ hxreach
    obtain rfl | hbefore := hlast x hx (compareKeySeq_probe.mpr hxreach)
    · rw [hread] at hxread
      cases hxread
      exact .inl rfl
    · exact .inr (compareKeySeq_eq_lt.mp hbefore)

/-- What the lookup answers: some inspected tombstone ends behind the key. -/
theorem getRangeDelCover_inspected (h : Sound ucmp d) :
    d.indexSet.getRangeDelCover ucmp kRangeDelPartId key snapshot d.readValue = true ↔
      ∃ idx ∈ d.generations, ∃ t, Inspected ucmp key snapshot d idx t ∧
        ucmp.compare key t.endKey = .lt := by
  rw [PartitionIndexSet.getRangeDelCover, List.any_eq_true]
  constructor
  · rintro ⟨idx, hidx, hcover⟩
    obtain ⟨e, he, hreach, hlast, -, endKey, hread, hlt⟩ :=
      (getRangeDelCover_iff (h.sorted _ idx hidx)).mp hcover
    exact ⟨idx, hidx, _, (inspected_iff h hidx he hread).mpr ⟨hreach, hlast⟩, hlt⟩
  · rintro ⟨idx, hidx, ⟨b, f, q⟩, hins, hlt⟩
    obtain ⟨e, he, rfl, rfl, hread⟩ := hins.1
    obtain ⟨hreach, hlast⟩ := (inspected_iff h hidx he hread).mp hins
    exact ⟨idx, hidx, (getRangeDelCover_iff (h.sorted _ idx hidx)).mpr
      ⟨e, he, hreach, hlast, (h.tombstones idx hidx e he).1, f, hread, hlt⟩⟩

theorem AtOrBefore.le {t : RangeTombstone} (h : AtOrBefore ucmp key snapshot t) :
    ucmp.compare t.beginKey key ≠ .gt := by
  obtain h | ⟨h, -⟩ := h
  · simp [h]
  · simp [h]

end run

end ZeroFlush.RangeTombstones
