import ZeroFlush.BackedEntries
import ZeroFlush.ChainLookups
import ZeroFlush.SnapshotReads

/-! # Merge operands in the indexes of a partition

A read that finds a merge operand collects the versions of the key along the chain, newest first,
and splits them at the first plain value. -/
namespace ZeroFlush.MergeChains
open FixedWidthCodec FiniteMaps WalFormat PartitionedWal UserKeys OrderedInsertion PartitionIndexes
  IndexChains IndexContents Context ChainLookups SnapshotReads

/-- A write of a key; a deletion carries no value. -/
structure Write where
  key : Bytes
  type : UInt8
  value : Bytes
  seq : ℕ
  loc : WalRecordRef
  deriving DecidableEq, Repr

/-- The history of the indexes: writes, and freezes that start a new generation of a partition. -/
inductive HistoryOp
  | write (part : ℕ) (w : Write)
  | freeze (part newGen : ℕ)

def entryOf (w : Write) : IndexEntry := ⟨w.key, w.seq, w.type, w.loc⟩

/-- A write goes into the active index of its partition. -/
def step (ucmp : UserComparator) (s : PartitionIndexSet) : HistoryOp → PartitionIndexSet
  | .write part w => s.insert ucmp part ((activeGen? s part).getD 0) (entryOf w)
  | .freeze part newGen => s.freeze part newGen

/-- The writes into a partition. -/
def writesTo (part : ℕ) (ops : List HistoryOp) : List Write :=
  ops.filterMap fun
    | .write p w => if p = part then some w else none
    | .freeze _ _ => none

/-- The versions of the key that the snapshot may see, newest first. -/
def visible (ws : List Write) (key : Bytes) (snapshot : ℕ) : List Write :=
  (ws.filter fun w => w.key == key && decide (w.seq ≤ snapshot)).reverse

def IsDelete (w : Write) : Prop := w.type = kTypeDeletion ∨ w.type = kTypeSingleDeletion

instance (w : Write) : Decidable (IsDelete w) := inferInstanceAs (Decidable (_ ∨ _))

/-- Before the first write. -/
def Fresh (s : PartitionIndexSet) : Prop := ∀ p, ∀ i ∈ s.chain p, i.entries = []

/-- The indexes hold a history of Put, Delete and Merge; `ws` are the writes into the partition of
the key. Their sequence numbers ascend, and a record is read back as it was written, if it can be
read. -/
structure HoldsHistory (ctx : ZeroFlushContext) (key : Bytes) (ops : List HistoryOp)
    (ws : List Write) : Prop where
  indexSet : ∃ start, Fresh start ∧ ctx.indexSet = ops.foldl (step ctx.ucmp) start
  writes : writesTo (ctx.route key) ops = ws
  ascending : ws.Pairwise fun u w => u.seq < w.seq
  types : ∀ p w, HistoryOp.write p w ∈ ops → w.type = kTypeValue ∨ IsDelete w ∨ w.type = kTypeMerge
  spelled : ∀ w ∈ ws, ctx.ucmp.compare w.key key = .eq → w.key = key
  reads : ∀ w ∈ ws, ∀ v, ctx.readValue w.loc = .ok v → v = w.value

/-- A merge operator: the key, the existing value if there is one, the operands in write order. -/
abbrev MergeOperator := Bytes → Option Bytes → List Bytes → Option Bytes

/-- The call of `FullMergeV3` with a base; the operands were pushed newest first. -/
def fullMerge (op : MergeOperator) (key base : Bytes) (pushed : List Bytes) : Option Bytes :=
  op key (some base) pushed.reverse

section reference

/-- The merge operands in front of everything else, newest first. -/
def operandsOf (vs : List Write) : List Bytes :=
  (vs.takeWhile fun w => w.type == kTypeMerge).map Write.value

/-- The version behind the operands. -/
def behind (vs : List Write) : Option Write := (vs.dropWhile fun w => w.type == kTypeMerge).head?

/-- What the operands are applied to: the value of a Put, or no value at a Delete. Without either
the indexes cannot tell. -/
def referenceBase (vs : List Write) : Option (Option Bytes) :=
  (behind vs).map fun w => if IsDelete w then none else some w.value

/-- The value a read reports. -/
def finalValue : GetResult → Option Bytes
  | .found v => some v
  | .merged _ _ v => some v
  | _ => none

/-- The answer is the reference's value, or the operands are left for the lookup in the tables. -/
def FoldsAs (op : Option MergeOperator) (key : Bytes) (vs : List Write) (res : GetResult) : Prop :=
  match finalValue res with
  | some v => ∃ m base, op = some m ∧ referenceBase vs = some base ∧
      m key base (operandsOf vs).reverse = some v
  | none => operands res = operandsOf vs

/-- A read of the key folds like the reference whatever the merge operator is. -/
def FoldsLikeReference (ctx : ZeroFlushContext) (key : Bytes) (snapshot : ℕ)
    (vs : List Write) : Prop :=
  ∀ op : Option MergeOperator,
    FoldsAs op key vs (ctx.getFromPartitionIndex (op.map fullMerge) key snapshot)

end reference

/-- The record of the write can be read. -/
def readable (ctx : ZeroFlushContext) (w : Write) : Bool := (ctx.readValue w.loc).toOption.isSome

/-- The versions in front of the first Put that can be read, and that Put. -/
def inFront (vs : List Write) : List Bytes :=
  (vs.takeWhile fun w => w.type != kTypeValue).map Write.value

def firstPut (vs : List Write) : Option Write := (vs.dropWhile fun w => w.type != kTypeValue).head?

/-- The newest version can be read, and without the versions that cannot be read the values in front
of the first Put are the operands and that Put has the value behind them. -/
def Undisturbed (ctx : ZeroFlushContext) (vs : List Write) : Prop :=
  (∀ w ∈ vs.head?, readable ctx w = true) ∧ inFront (vs.filter (readable ctx)) = operandsOf vs ∧
    ∀ p ∈ firstPut (vs.filter (readable ctx)), referenceBase vs = some (some p.value)

variable {ucmp : UserComparator} {part : ℕ} {s : PartitionIndexSet} {ws : List Write} {key : Bytes}
  {snapshot : ℕ}

section run

/-- What a history keeps, with its writes from new to old: the indexes of the partition hold the
versions of every key in the order of the history. -/
structure Chained (ucmp : UserComparator) (part : ℕ) (s : PartitionIndexSet) (ws : List Write) :
    Prop where
  sorted : Sorted ucmp s
  filtered : Filtered s
  points : ∀ p, ∀ x ∈ live s p, x.type ≠ kTypeRangeDeletion
  mem : ∀ x ∈ live s part, ∃ w ∈ ws, x = entryOf w
  versions : ∀ key, (live s part).filter (sameKey ucmp key) =
    (ws.map entryOf).filter (sameKey ucmp key)

theorem compareKeySeq_newer {e x : IndexEntry} (hseq : x.seq < e.seq)
    (hkey : ucmp.compare e.userKey x.userKey = .eq) : compareKeySeq ucmp e x = .lt := by
  rw [compareKeySeq, hkey]
  exact Nat.compare_eq_lt.mpr hseq

/-- An index takes an entry that is newer than all of its own. -/
theorem filter_inserted {idx : PartitionIndex} {e : IndexEntry}
    (hnew : ∀ x ∈ idx.entries, x.seq < e.seq) :
    (inserted ucmp e idx).entries.filter (sameKey ucmp key) =
      if sameKey ucmp key e then e :: idx.entries.filter (sameKey ucmp key)
      else idx.entries.filter (sameKey ucmp key) := by
  have hfresh : ∀ x ∈ idx.entries, compareKeySeq ucmp e x ≠ .eq := by
    intro x hx heq
    rw [compareKeySeq, Ordering.then_eq_eq] at heq
    have hlt := Nat.compare_eq_lt.mpr (hnew x hx)
    rw [heq.2] at hlt
    cases hlt
  obtain ⟨idx', hins⟩ := exists_insert hfresh
  rw [inserted, hins, Option.getD_some]
  obtain ⟨entries, hentries, rfl⟩ := Option.map_eq_some_iff.mp hins
  split
  next hkey =>
    refine filter_insertNew_of_first hkey ?_ hentries
    intro x hx hxkey
    exact compareKeySeq_newer (hnew x hx)
      (Std.TransCmp.eq_trans (sameKey_iff.mp hkey) (Std.OrientedCmp.eq_symm (sameKey_iff.mp hxkey)))
  next hkey => exact filter_insertNew_of_not (by simpa using hkey) hentries

/-- The chain after a write: the first index has the entry. -/
theorem chain_write (ucmp : UserComparator) (s : PartitionIndexSet) (part : ℕ) (w : Write) :
    ∃ idx rest, (step ucmp s (.write part w)).chain part = inserted ucmp (entryOf w) idx :: rest ∧
      (s.chain part = idx :: rest ∨ s.chain part = rest ∧ idx.entries = []) ∧
      ∀ p ≠ part, (step ucmp s (.write part w)).chain p = s.chain p := by
  rw [step, PartitionIndexSet.insert]
  cases ha : s.active.lookup part with
  | none =>
    have hactive : (s.createActive part ((activeGen? s part).getD 0)).active.lookup part =
        some { gen := (activeGen? s part).getD 0 } := by
      simp [PartitionIndexSet.createActive]
    dsimp only
    refine ⟨{ gen := (activeGen? s part).getD 0 }, (s.frozenChain part).reverse, ?_,
      .inr ⟨chain_of_no_active ha, rfl⟩, ?_⟩
    · rw [chain_insertActive hactive, if_pos rfl]
      rfl
    · intro p hp
      rw [chain_insertActive hactive, if_neg hp]
      exact (chain_insert_active s part _ p).trans (if_neg hp)
  | some idx =>
    have hgen : idx.gen = (activeGen? s part).getD 0 := by
      rw [activeGen?, ha]
      rfl
    dsimp only
    rw [if_pos hgen]
    refine ⟨idx, (s.frozenChain part).reverse, ?_, .inl (chain_of_active ha), ?_⟩
    · rw [chain_insertActive ha, if_pos rfl]
    · intro p hp
      rw [chain_insertActive ha, if_neg hp]

/-- The live entries in front of a write and behind it. -/
theorem live_write (ucmp : UserComparator) (s : PartitionIndexSet) (part : ℕ) (w : Write) :
    ∃ idx older, live s part = idx.entries ++ older ∧
      live (step ucmp s (.write part w)) part = (inserted ucmp (entryOf w) idx).entries ++ older ∧
      ∀ p ≠ part, live (step ucmp s (.write part w)) p = live s p := by
  obtain ⟨idx, rest, hchain, hbefore, hother⟩ := chain_write ucmp s part w
  refine ⟨idx, rest.flatMap PartitionIndex.entries, ?_, ?_, ?_⟩
  · obtain hb | ⟨hb, hnil⟩ := hbefore
    · rw [live, hb, List.flatMap_cons]
    · rw [live, hb, hnil, List.nil_append]
  · rw [live, hchain, List.flatMap_cons]
  · intro p hp
    rw [live, hother p hp, live]

/-- A freeze moves indexes along their chains. -/
theorem live_freeze (s : PartitionIndexSet) (part newGen p : ℕ) :
    live (s.freeze part newGen) p = live s p := by
  obtain ⟨⟨rest, hchain, hrest⟩, hother⟩ := chain_freeze s part newGen
  rw [live, live]
  by_cases hp : p = part
  · subst hp
    rw [hchain, List.flatMap_cons]
    obtain rfl | ⟨a, -, hnil, hbefore⟩ := hrest
    · rfl
    · rw [hbefore, List.flatMap_cons, hnil]
  · rw [hother p hp]

theorem points_write {w : Write} (h : ∀ p, ∀ x ∈ live s p, x.type ≠ kTypeRangeDeletion)
    (htype : w.type ≠ kTypeRangeDeletion) (q : ℕ) :
    ∀ p, ∀ x ∈ live (step ucmp s (.write q w)) p, x.type ≠ kTypeRangeDeletion := by
  obtain ⟨idx, older, hlive, hlive', hother⟩ := live_write ucmp s q w
  intro p x hx
  by_cases hp : p = q
  · subst hp
    rw [hlive', List.mem_append] at hx
    obtain hx | hx := hx
    · obtain rfl | hx := mem_inserted hx
      · exact htype
      · exact h p x (hlive ▸ List.mem_append_left _ hx)
    · exact h p x (hlive ▸ List.mem_append_right _ hx)
  · exact h p x (hother p hp ▸ hx)

theorem chained_write (h : Chained ucmp part s ws) {w : Write} (hnew : ∀ u ∈ ws, u.seq < w.seq)
    (htype : w.type ≠ kTypeRangeDeletion) :
    Chained ucmp part (step ucmp s (.write part w)) (w :: ws) := by
  obtain ⟨idx, older, hlive, hlive', -⟩ := live_write ucmp s part w
  have hnewer : ∀ x ∈ idx.entries, x.seq < (entryOf w).seq := by
    intro x hx
    obtain ⟨u, hu, rfl⟩ := h.mem x (hlive ▸ List.mem_append_left _ hx)
    exact hnew u hu
  refine ⟨sorted_insert h.sorted, filtered_insert h.filtered, points_write h.points htype part,
    ?_, ?_⟩
  · intro x hx
    rw [hlive', List.mem_append] at hx
    have hold : ∀ x ∈ live s part, ∃ u ∈ w :: ws, x = entryOf u := by
      intro x hx
      obtain ⟨u, hu, he⟩ := h.mem x hx
      exact ⟨u, List.mem_cons_of_mem _ hu, he⟩
    obtain hx | hx := hx
    · obtain rfl | hx := mem_inserted hx
      · exact ⟨w, List.mem_cons_self, rfl⟩
      · exact hold x (hlive ▸ List.mem_append_left _ hx)
    · exact hold x (hlive ▸ List.mem_append_right _ hx)
  · intro key
    have hversions := h.versions key
    rw [hlive, List.filter_append] at hversions
    rw [hlive', List.filter_append, filter_inserted hnewer, List.map_cons, List.filter_cons,
      ← hversions]
    split <;> rfl

theorem chained_writeOther (h : Chained ucmp part s ws) {w : Write} {q : ℕ} (hq : q ≠ part)
    (htype : w.type ≠ kTypeRangeDeletion) :
    Chained ucmp part (step ucmp s (.write q w)) ws := by
  obtain ⟨-, -, -, -, hother⟩ := live_write ucmp s q w
  have hsame := hother part hq.symm
  exact ⟨sorted_insert h.sorted, filtered_insert h.filtered, points_write h.points htype q,
    hsame ▸ h.mem, fun key => by rw [hsame, h.versions]⟩

theorem chained_freeze (h : Chained ucmp part s ws) (q newGen : ℕ) :
    Chained ucmp part (step ucmp s (.freeze q newGen)) ws := by
  have hlive := live_freeze s q newGen
  refine ⟨BackedEntries.sorted_freezeIndexLoop h.sorted [(q, newGen)],
    filtered_freeze h.filtered newGen, ?_, ?_, ?_⟩
  · intro p
    rw [step, hlive]
    exact h.points p
  · rw [step, hlive]
    exact h.mem
  · intro key
    rw [step, hlive, h.versions]

theorem chained_fresh (h : Fresh s) : Chained ucmp part s [] := by
  have hlive : ∀ p, live s p = [] := by
    intro p
    rw [live, List.flatMap_eq_nil_iff]
    exact h p
  refine ⟨?_, ?_, ?_, ?_, ?_⟩
  · intro p i hi
    rw [h p i hi]
    exact List.Pairwise.nil
  · intro p i hi x hx
    rw [h p i hi] at hx
    cases hx
  · intro p x hx
    rw [hlive] at hx
    cases hx
  · intro x hx
    rw [hlive] at hx
    cases hx
  · intro key
    rw [hlive]
    rfl

theorem not_rangeDeletion {w : Write} (h : w.type = kTypeValue ∨ IsDelete w ∨ w.type = kTypeMerge) :
    w.type ≠ kTypeRangeDeletion := by
  intro htype
  rw [IsDelete, htype] at h
  revert h
  decide

theorem chained_run (hfresh : Fresh s) {ops : List HistoryOp}
    (hasc : (writesTo part ops).Pairwise fun u w => u.seq < w.seq)
    (htypes : ∀ p w, HistoryOp.write p w ∈ ops →
      w.type = kTypeValue ∨ IsDelete w ∨ w.type = kTypeMerge) :
    Chained ucmp part (ops.foldl (step ucmp) s) (writesTo part ops).reverse := by
  -- from the end of the history: the last operation meets a chained state
  induction ops using List.reverseRecOn with
  | nil => exact chained_fresh hfresh
  | append_singleton ops op ih =>
    have htypes' : ∀ p w, HistoryOp.write p w ∈ ops →
        w.type = kTypeValue ∨ IsDelete w ∨ w.type = kTypeMerge :=
      fun p w hw => htypes p w (List.mem_append_left _ hw)
    rw [List.foldl_concat]
    cases op with
    | write q w =>
      have htype := not_rangeDeletion (htypes q w (List.mem_append_right _ List.mem_cons_self))
      by_cases hq : q = part
      · have hwrites : writesTo part (ops ++ [.write q w]) = writesTo part ops ++ [w] := by
          simp [writesTo, hq]
        rw [hwrites, List.pairwise_append] at hasc
        rw [hwrites, List.reverse_append, hq]
        refine chained_write (ih hasc.1 htypes') ?_ htype
        intro u hu
        exact hasc.2.2 u (List.mem_reverse.mp hu) w List.mem_cons_self
      · have hwrites : writesTo part (ops ++ [.write q w]) = writesTo part ops := by
          simp [writesTo, hq]
        rw [hwrites] at hasc ⊢
        exact chained_writeOther (ih hasc htypes') hq htype
    | freeze q newGen =>
      have hwrites : writesTo part (ops ++ [.freeze q newGen]) = writesTo part ops := by
        simp [writesTo]
      rw [hwrites] at hasc ⊢
      exact chained_freeze (ih hasc htypes') q newGen

end run

section reads

/-- The entry is a version of the key that the snapshot may see. -/
def sees (ucmp : UserComparator) (key : Bytes) (snapshot : ℕ) (e : IndexEntry) : Bool :=
  sameKey ucmp key e && decide (e.seq ≤ snapshot)

theorem not_sees_of_lt {e : IndexEntry} (h : compareKeySeq ucmp e (lookupKey key snapshot) = .lt) :
    sees ucmp key snapshot e = false := by
  rw [Bool.eq_false_iff, sees, ne_eq, Bool.and_eq_true, decide_eq_true_iff]
  rintro ⟨hkey, hseq⟩
  exact (compareKeySeq_probe_ne_lt (sameKey_iff.mp hkey)).mpr hseq h

/-- Behind the probe the versions of the key come first. -/
theorem takeWhile_sameKey {l : List IndexEntry} (hl : Ascending (compareKeySeq ucmp) l)
    (hprobe : ∀ x ∈ l, compareKeySeq ucmp x (lookupKey key snapshot) ≠ .lt) :
    l.takeWhile (sameKey ucmp key) = l.filter (sees ucmp key snapshot) := by
  induction l with
  | nil => rfl
  | cons x xs ih =>
    obtain ⟨hx, hxs⟩ := List.pairwise_cons.mp hl
    have hreach := hprobe x List.mem_cons_self
    have hrest := ih hxs fun y hy => hprobe y (List.mem_cons_of_mem _ hy)
    cases hkey : sameKey ucmp key x with
    | true =>
      have hsees : sees ucmp key snapshot x = true := by
        rw [sees, hkey, Bool.true_and, decide_eq_true_iff]
        exact (compareKeySeq_probe_ne_lt (sameKey_iff.mp hkey)).mp hreach
      rw [List.takeWhile_cons_of_pos hkey, List.filter_cons_of_pos hsees, hrest]
    | false =>
      -- the first entry is behind the key, and so are all that follow it
      rw [List.takeWhile_cons_of_neg (by simp [hkey]), eq_comm, List.filter_eq_nil_iff]
      intro y hy hsees
      have hykey := sameKey_iff.mp (Bool.and_eq_true_iff.mp hsees).1
      have hxkey : ucmp.compare x.userKey key = .gt := by
        cases hcmp : ucmp.compare x.userKey key with
        | gt => rfl
        | eq => rw [sameKey_iff.mpr hcmp] at hkey; cases hkey
        | lt =>
          refine absurd ?_ hreach
          exact Ordering.then_eq_lt.mpr (.inl hcmp)
      obtain rfl | hy := List.mem_cons.mp hy
      · rw [hykey] at hxkey
        cases hxkey
      · obtain hlt | ⟨heq, -⟩ := Ordering.then_eq_lt.mp (hx y hy)
        · have hlt' := Std.TransCmp.lt_of_lt_of_eq hlt hykey
          rw [hxkey] at hlt'
          cases hlt'
        · have heq' := Std.TransCmp.eq_trans heq hykey
          rw [hxkey] at heq'
          cases heq'

theorem takeWhile_seek {idx : PartitionIndex} (hs : Ascending (compareKeySeq ucmp) idx.entries) :
    (idx.seek ucmp key snapshot).takeWhile (sameKey ucmp key) =
      idx.entries.filter (sees ucmp key snapshot) := by
  have hprobe : ∀ l : List IndexEntry, Ascending (compareKeySeq ucmp) l →
      (l.dropWhile fun e => compareKeySeq ucmp e (lookupKey key snapshot) == .lt).takeWhile
        (sameKey ucmp key) = l.filter (sees ucmp key snapshot) := by
    intro l hl
    induction l with
    | nil => rfl
    | cons x xs ih =>
      obtain ⟨hx, hxs⟩ := List.pairwise_cons.mp hl
      by_cases hlt : compareKeySeq ucmp x (lookupKey key snapshot) = .lt
      · rw [List.dropWhile_cons_of_pos (by simp [hlt]),
          List.filter_cons_of_neg (by simp [not_sees_of_lt hlt]), ih hxs]
      · rw [List.dropWhile_cons_of_neg (by simpa using hlt)]
        refine takeWhile_sameKey hl ?_
        intro y hy hylt
        obtain rfl | hy := List.mem_cons.mp hy
        · exact hlt hylt
        · exact hlt (Std.TransCmp.lt_trans (hx y hy) hylt)
  exact hprobe _ hs

/-- The versions along a chain that the snapshot may see. -/
theorem filter_sees_live (h : Chained ucmp part s ws) :
    (live s part).filter (sees ucmp key snapshot) =
      (ws.map entryOf).filter (sees ucmp key snapshot) := by
  have hsplit : ∀ l : List IndexEntry, l.filter (sees ucmp key snapshot) =
      (l.filter (sameKey ucmp key)).filter fun e => decide (e.seq ≤ snapshot) := by
    intro l
    rw [List.filter_filter]
    exact List.filter_congr fun e _ => Bool.and_comm _ _
  rw [hsplit, hsplit, h.versions]

theorem collectVersions_eq (h : Chained ucmp part s ws)
    (readValue : WalRecordRef → Except Status Bytes) :
    s.collectVersions ucmp part key snapshot readValue =
      ((ws.map entryOf).filter (sees ucmp key snapshot)).filterMap fun e =>
        match readValue e.loc with
        | .ok v => some (v, e.type)
        | .error _ => none := by
  have hindex : ∀ i ∈ s.chain part, i.collectVersions ucmp key snapshot readValue =
      (i.entries.filter (sees ucmp key snapshot)).filterMap fun e =>
        match readValue e.loc with
        | .ok v => some (v, e.type)
        | .error _ => none := by
    intro i hi
    rw [PartitionIndex.collectVersions, ← takeWhile_seek (h.sorted part i hi)]
    rfl
  rw [PartitionIndexSet.collectVersions, List.flatMap_congr hindex, ← List.filterMap_flatMap,
    ← List.filter_flatMap, ← filter_sees_live h]
  rfl

/-- Of a key that is spelled in one way `Get` of an index returns the newest visible version. -/
theorem get_index_eq {idx : PartitionIndex} (hs : Ascending (compareKeySeq ucmp) idx.entries)
    (hspelled : ∀ x ∈ idx.entries, ucmp.compare x.userKey key = .eq → x.userKey = key) :
    idx.get ucmp key snapshot = (idx.entries.filter (sees ucmp key snapshot)).head? := by
  rw [← takeWhile_seek hs, List.head?_takeWhile, PartitionIndex.get]
  cases hhead : (idx.seek ucmp key snapshot).head? with
  | none => rfl
  | some e =>
    have he : e ∈ idx.entries :=
      (List.dropWhile_sublist _).subset (List.mem_of_head? hhead)
    have hiff : (e.userKey == key) = sameKey ucmp key e := by
      rw [Bool.eq_iff_iff, beq_iff_eq, sameKey_iff]
      constructor
      · intro h
        rw [h]
        exact Std.ReflCmp.compare_self
      · exact hspelled e he
    rw [Option.filter_some, Option.filter_some, hiff]

theorem findSome?_eq_of_eq {α β : Type*} {l : List α} {f g : α → Option β}
    (h : ∀ x ∈ l, f x = g x) : l.findSome? f = l.findSome? g := by
  induction l with
  | nil => rfl
  | cons x xs ih =>
    obtain ⟨hx, hxs⟩ := List.forall_mem_cons.mp h
    rw [List.findSome?_cons, List.findSome?_cons, hx, ih hxs]

theorem get_eq (h : Chained ucmp part s ws)
    (hspelled : ∀ w ∈ ws, ucmp.compare w.key key = .eq → w.key = key) :
    s.get ucmp part key snapshot = ((ws.map entryOf).filter (sees ucmp key snapshot)).head? := by
  have hentries : ∀ i ∈ s.chain part, ∀ x ∈ i.entries,
      ucmp.compare x.userKey key = .eq → x.userKey = key := by
    intro i hi x hx
    obtain ⟨w, hw, rfl⟩ := h.mem x (List.mem_flatMap.mpr ⟨i, hi, hx⟩)
    exact hspelled w hw
  have hfound : (s.chain part).findSome? (fun i => i.get ucmp key snapshot) =
      ((ws.map entryOf).filter (sees ucmp key snapshot)).head? := by
    rw [← filter_sees_live h, live, List.filter_flatMap, List.head?_flatMap]
    exact findSome?_eq_of_eq fun i hi => get_index_eq (h.sorted part i hi) (hentries i hi)
  rw [PartitionIndexSet.get]
  -- the filter lets the key pass if there is a version of it
  cases hhead : ((ws.map entryOf).filter (sees ucmp key snapshot)).head? with
  | none =>
    rw [hhead] at hfound
    split
    · rfl
    · split
      · exact hfound
      · rfl
  | some e =>
    have he := List.mem_of_head? hhead
    rw [← filter_sees_live h, List.mem_filter] at he
    obtain ⟨i, hi, hei⟩ := List.mem_flatMap.mp he.1
    have hkey := hentries i hi e hei (sameKey_iff.mp (Bool.and_eq_true_iff.mp he.2).1)
    have hknows := h.filtered part i hi e hei
    rw [hkey] at hknows
    obtain ⟨b, hb, hbits⟩ := hknows
    have hmay : b.mayContain key = true := Knows.mayContain ⟨b, hb, hbits⟩ hb
    rw [hb]
    dsimp only
    rw [if_pos hmay, hfound, hhead]

/-- A history without range deletions covers no key. -/
theorem getRangeDelCover_eq_false (h : Chained ucmp part s ws)
    (readValue : WalRecordRef → Except Status Bytes) :
    s.getRangeDelCover ucmp kRangeDelPartId key snapshot readValue = false := by
  rw [Bool.eq_false_iff]
  intro hcover
  rw [PartitionIndexSet.getRangeDelCover, List.any_eq_true] at hcover
  obtain ⟨i, hi, hcover⟩ := hcover
  obtain ⟨e, he, -, -, htype, -⟩ := (getRangeDelCover_iff (h.sorted _ i hi)).mp hcover
  exact h.points _ e (List.mem_flatMap.mpr ⟨i, hi, he⟩) htype

end reads

section folds
variable {ctx : ZeroFlushContext} {ops : List HistoryOp} {ws : List Write}

theorem HoldsHistory.chained (h : HoldsHistory ctx key ops ws) :
    Chained ctx.ucmp (ctx.route key) ctx.indexSet ws.reverse := by
  obtain ⟨start, hfresh, hset⟩ := h.indexSet
  have hasc := h.ascending
  rw [← h.writes] at hasc ⊢
  rw [hset]
  exact chained_run hfresh hasc h.types

theorem filter_sees_eq_visible (h : HoldsHistory ctx key ops ws) :
    (ws.reverse.map entryOf).filter (sees ctx.ucmp key snapshot) =
      (visible ws key snapshot).map entryOf := by
  rw [visible, ← List.filter_reverse, List.filter_map]
  congr 1
  refine List.filter_congr fun w hw => ?_
  have hspelled := h.spelled w (List.mem_reverse.mp hw)
  have hiff : sameKey ctx.ucmp key (entryOf w) = (w.key == key) := by
    rw [Bool.eq_iff_iff, beq_iff_eq, sameKey_iff]
    constructor
    · exact hspelled
    · rintro rfl
      exact Std.ReflCmp.compare_self
  rw [Function.comp_apply, sees, hiff]
  rfl

theorem mem_of_visible {w : Write} (hw : w ∈ visible ws key snapshot) : w ∈ ws :=
  (List.mem_filter.mp (List.mem_reverse.mp hw)).1

/-- The split of the collected versions. -/
theorem splitBase_map (us : List Write) :
    splitBase (us.map fun w => (w.value, w.type)) = (inFront us, (firstPut us).map Write.value) := by
  induction us with
  | nil => rfl
  | cons u us ih =>
    rw [List.map_cons, splitBase, ih]
    by_cases hput : u.type = kTypeValue
    · simp [inFront, firstPut, hput]
    · simp [inFront, firstPut, hput]

theorem readValue_of_readable (h : HoldsHistory ctx key ops ws) {w : Write} (hw : w ∈ ws) :
    ctx.readValue w.loc = .ok w.value ∧ readable ctx w = true ∨
      (∃ e, ctx.readValue w.loc = .error e) ∧ readable ctx w = false := by
  rw [readable]
  cases hread : ctx.readValue w.loc with
  | ok v =>
    rw [h.reads w hw v hread]
    exact .inl ⟨rfl, rfl⟩
  | error e => exact .inr ⟨⟨e, rfl⟩, rfl⟩

/-- The collected versions are the visible ones that can be read. -/
theorem collectVersions_eq_kept (h : HoldsHistory ctx key ops ws) :
    ctx.indexSet.collectVersions ctx.ucmp (ctx.route key) key snapshot ctx.readValue =
      ((visible ws key snapshot).filter (readable ctx)).map fun w => (w.value, w.type) := by
  rw [collectVersions_eq h.chained, filter_sees_eq_visible h]
  have hmem : ∀ w ∈ visible ws key snapshot, w ∈ ws := fun w => mem_of_visible
  revert hmem
  induction visible ws key snapshot with
  | nil => exact fun _ => rfl
  | cons w ws ih =>
    intro hmem
    obtain ⟨hw, hws⟩ := List.forall_mem_cons.mp hmem
    have hloc : (entryOf w).loc = w.loc := rfl
    rw [List.map_cons, List.filterMap_cons, ih hws, hloc]
    obtain ⟨hread, hr⟩ | ⟨⟨e, hread⟩, hr⟩ := readValue_of_readable h hw
    · rw [hread, List.filter_cons_of_pos hr]
      rfl
    · rw [hread, List.filter_cons_of_neg (by simp [hr])]

/-- What is left of the visible versions, and what a read makes of them. -/
def foldKept (op : Option MergeOperator) (key : Bytes) (kept : List Write) : GetResult :=
  match firstPut kept, op with
  | some p, some m =>
    match m key (some p.value) (inFront kept).reverse with
    | some v => .merged (inFront kept) p.value v
    | none => .mergeInProgress (inFront kept)
  | _, _ => .mergeInProgress (inFront kept)

theorem getFromPartitionIndex_merge (h : HoldsHistory ctx key ops ws) {newest : Write}
    (hnewest : (visible ws key snapshot).head? = some newest) (htype : newest.type = kTypeMerge)
    (op : Option MergeOperator) :
    ctx.getFromPartitionIndex (op.map fullMerge) key snapshot =
      if readable ctx newest then foldKept op key ((visible ws key snapshot).filter (readable ctx))
      else .miss := by
  have hchained := h.chained
  have hmem := mem_of_visible (List.mem_of_head? hnewest)
  have hget : ctx.indexSet.get ctx.ucmp (ctx.route key) key snapshot = some (entryOf newest) := by
    rw [get_eq hchained fun w hw => h.spelled w (List.mem_reverse.mp hw),
      filter_sees_eq_visible h, List.head?_map, hnewest]
    rfl
  have hcover : ctx.checkRangeDelCover key snapshot = false := by
    rw [ZeroFlushContext.checkRangeDelCover]
    exact getRangeDelCover_eq_false hchained _
  have hnot : ¬ ((entryOf newest).type = kTypeDeletion ∨ (entryOf newest).type = kTypeSingleDeletion ∨
      (entryOf newest).type = kTypeRangeDeletion) := by
    show ¬ (newest.type = _ ∨ newest.type = _ ∨ newest.type = _)
    rw [htype]
    decide
  have hloc : (entryOf newest).loc = newest.loc := rfl
  rw [ZeroFlushContext.getFromPartitionIndex, hget]
  dsimp only
  rw [hcover, if_neg Bool.false_ne_true, if_neg hnot, hloc]
  obtain ⟨hread, hr⟩ | ⟨⟨e, hread⟩, hr⟩ := readValue_of_readable h hmem
  · rw [hread, hr, if_pos rfl]
    dsimp only
    rw [if_pos (show (entryOf newest).type = kTypeMerge from htype),
      ZeroFlushContext.mergeVersions.eq_def, collectVersions_eq_kept h, splitBase_map, foldKept.eq_def]
    have hne : inFront ((visible ws key snapshot).filter (readable ctx)) ≠ [] := by
      obtain ⟨older, hvs⟩ := List.head?_eq_some_iff.mp hnewest
      rw [hvs, List.filter_cons_of_pos hr, inFront, List.takeWhile_cons_of_pos]
      · exact List.cons_ne_nil _ _
      · rw [htype]
        decide
    cases firstPut ((visible ws key snapshot).filter (readable ctx)) with
    | none => rfl
    | some p =>
      cases op with
      | none => rfl
      | some m =>
        rw [Option.map_some, Option.map_some]
        dsimp only
        rw [if_neg hne]
        rfl
  · rw [hread, hr, if_neg Bool.false_ne_true]

/-- Tells its base from the lack of one. -/
def tellBase (_ : Bytes) (base : Option Bytes) (_ : List Bytes) : Option Bytes :=
  some (match base with
    | none => []
    | some b => 0 :: b)

/-- Where all versions can be read, only a deletion behind the operands disturbs the split. -/
theorem undisturbed_iff_of_readable {vs : List Write} (hread : ∀ w ∈ vs, readable ctx w = true)
    (htypes : ∀ w ∈ vs, w.type = kTypeValue ∨ IsDelete w ∨ w.type = kTypeMerge) :
    Undisturbed ctx vs ↔ ∀ w ∈ behind vs, ¬ IsDelete w := by
  have hkept : vs.filter (readable ctx) = vs := List.filter_eq_self.mpr hread
  have hhead : ∀ w ∈ vs.head?, readable ctx w = true := fun w hw => hread w (List.mem_of_head? hw)
  rw [Undisturbed, hkept, and_iff_right hhead]
  clear hkept hhead hread
  induction vs with
  | nil => simp [inFront, operandsOf, firstPut, behind]
  | cons v vs ih =>
    obtain ⟨hv, hvs⟩ := List.forall_mem_cons.mp htypes
    obtain hput | hdel | hmerge := hv
    · have hnot : ¬ IsDelete v := by
        rw [IsDelete, hput]
        decide
      simp [inFront, operandsOf, firstPut, referenceBase, behind, hput, hnot, kTypeValue, kTypeMerge]
    · have hne : v.type ≠ kTypeMerge ∧ v.type ≠ kTypeValue := by
        obtain h | h := hdel
        · rw [h]
          decide
        · rw [h]
          decide
      simp [inFront, operandsOf, behind, hne, hdel]
    · have hne : v.type ≠ kTypeValue := by
        rw [hmerge]
        decide
      have hrest := ih hvs
      simpa [inFront, operandsOf, firstPut, referenceBase, behind, hmerge, hne, kTypeValue,
        kTypeMerge] using hrest

/-- The writes that a session has acknowledged. -/
def acknowledged (s : HeldVersions.Writes) : List Write :=
  s.acked.reverse.map fun a => ⟨a.2.key, a.2.type, ReadPaths.valueOf a.2, a.2.seq.toNat, a.1⟩

/-- A session that writes the records into one of two partitions. -/
def written (rs : List WalRecord) : HeldVersions.Writes :=
  GuardedRuns.run HeldVersions.Writes.step alignedWrites (rs.map fun r => .write r 0 0)

def historyOf (rs : List WalRecord) : List HistoryOp :=
  (acknowledged (written rs)).map fun w => .write w.loc.partId w

theorem fresh_alignedWrites : Fresh alignedWrites.ctx.indexSet := by
  have hstart := HeldVersions.faithful_start { partitions := 2, maxBatchPartitions := 1, routingMode := .kAlignL1 }
    .bytewise twoRanges none (by decide)
  intro p i hi
  rw [List.eq_nil_iff_forall_not_mem]
  intro x hx
  obtain ⟨a, ha, -⟩ := (hstart.indexed.listed.mem_iff p i hi x).mp hx
  cases ha

/-- A session whose records are all read back holds their history. -/
theorem holdsHistory_written {rs : List WalRecord}
    (hset : (written rs).ctx.indexSet = (historyOf rs).foldl (step .bytewise) alignedWrites.ctx.indexSet)
    (hucmp : (written rs).ctx.ucmp = .bytewise)
    (hwrites : writesTo ((written rs).ctx.route key) (historyOf rs) = acknowledged (written rs))
    (hasc : (acknowledged (written rs)).Pairwise fun u w => u.seq < w.seq)
    (hws : ∀ w ∈ acknowledged (written rs), (w.type = kTypeValue ∨ IsDelete w ∨ w.type = kTypeMerge) ∧
      (written rs).ctx.readValue w.loc = .ok w.value) :
    HoldsHistory (written rs).ctx key (historyOf rs) (acknowledged (written rs)) where
  indexSet := ⟨_, fresh_alignedWrites, hucmp ▸ hset⟩
  writes := hwrites
  ascending := hasc
  types := by
    intro p w hw
    obtain ⟨u, hu, heq⟩ := List.mem_map.mp hw
    injection heq with _ huw
    exact huw ▸ (hws u hu).1
  spelled := fun w _ hcmp => UserComparator.bytewise_distinguishesBytes _ _ (hucmp ▸ hcmp)
  reads := by
    intro w hw v hv
    rw [(hws w hw).2] at hv
    exact (Except.ok.inj hv).symm

/-- An operand on a put of the same key. -/
def mergeOnPut : List WalRecord := [put 97 [1] 1, ⟨[97], [2], kTypeMerge, 2⟩]

/-- The put is deleted before the operand is written. -/
def mergeOnDelete : List WalRecord :=
  [put 97 [1] 1, ⟨[97], [], kTypeDeletion, 2⟩, ⟨[97], [2], kTypeMerge, 3⟩]

/-- Without an operator the operands are left, and they have to be the right ones. -/
theorem not_foldsLikeReference {vs : List Write} {os : List Bytes}
    (hres : ctx.getFromPartitionIndex none key snapshot = .mergeInProgress os)
    (hops : os ≠ operandsOf vs) : ¬ FoldsLikeReference ctx key snapshot vs := by
  intro hfolds
  have hnone := hfolds none
  rw [Option.map_none, hres] at hnone
  exact hops hnone

end folds

end ZeroFlush.MergeChains
