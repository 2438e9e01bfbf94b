import Mathlib.Logic.Function.Basic
import ZeroFlush.BackedEntries
import ZeroFlush.GuardedRuns

/-! # Insertions during the rebuild of a filter

`Insert` looks for its index, inserts into the skip list and then adds the key to the filter of the
partition. `ReleaseFrozen` removes frozen indexes, collects the chain, walks it entry by entry into
a new filter and puts that in the place of the old one. Each of these is one turn of its thread;
the threads of several insertions and one release take turns in any order. -/
namespace ZeroFlush.BloomRaces
open FixedWidthCodec FiniteMaps WalFormat PartitionedWal UserKeys OrderedInsertion PartitionIndexes
  IndexChains IndexContents BackedEntries GuardedRuns

/-- The operations on the set of indexes, one at a time. -/
inductive IndexOp
  | insert (part gen : ℕ) (e : IndexEntry)
  | insertCreate (part gen : ℕ) (e : IndexEntry)
  | freeze (part newGen : ℕ)
  | releaseFrozen (part gen : ℕ)
  | ensureActive (part gen : ℕ)

def apply (ucmp : UserComparator) (s : PartitionIndexSet) : IndexOp → PartitionIndexSet
  | .insert part gen e => s.insert ucmp part gen e
  | .insertCreate part gen e => s.insertCreate ucmp part gen e
  | .freeze part newGen => s.freeze part newGen
  | .releaseFrozen part gen => s.releaseFrozen part gen
  | .ensureActive part gen => s.ensureActive part gen

/-- What the threads share about one partition. Every index object has a number; 0 is that of the
active index. -/
structure Shared where
  index : ℕ → PartitionIndex
  active : Option ℕ
  frozen : List ℕ
  bloom : PartitionBloom

/-- The indexes that `Get` searches, as `RebuildBloom` collects them. -/
def Shared.live (sh : Shared) : List ℕ := sh.active.toList ++ sh.frozen

def shared (s : PartitionIndexSet) (part : ℕ) : Shared where
  index i := ((s.active.lookup part).getD { gen := 0 } :: s.frozenChain part).getD i { gen := 0 }
  active := (s.active.lookup part).map fun _ => 0
  frozen := (List.range (s.frozenChain part).length).map (· + 1)
  bloom := (s.blooms.lookup part).getD {}

/-- `creating`: no index was found and the lock is waited for. -/
inductive Phase
  | called
  | creating
  | resolved (i : ℕ)
  | inserted (i : ℕ)
  | returned
  deriving DecidableEq

structure InsertCall where
  entry : IndexEntry
  gen : ℕ
  phase : Phase := .called

def InsertCall.advance (ucmp : UserComparator) (sh : Shared) (c : InsertCall) :
    Shared × InsertCall :=
  match c.phase with
  | .called =>
    match sh.active with
    | none => (sh, { c with phase := .creating })
    | some a =>
      if (sh.index a).gen = c.gen then (sh, { c with phase := .resolved a })
      else
        match sh.frozen.reverse.find? fun i => (sh.index i).gen == c.gen with
        | some i => (sh, { c with phase := .resolved i })
        | none => (sh, { c with phase := .returned })
  | .creating =>
    match sh.active with
    | some a => (sh, { c with phase := .resolved a })
    | none =>
      ({ sh with index := Function.update sh.index 0 { gen := c.gen }, active := some 0 },
        { c with phase := .resolved 0 })
  | .resolved i =>
    match (sh.index i).insert ucmp c.entry with
    | none => (sh, { c with phase := .returned })
    | some idx =>
      ({ sh with index := Function.update sh.index i idx }, { c with phase := .inserted i })
  | .inserted _ =>
    ({ sh with bloom := sh.bloom.add c.entry.userKey }, { c with phase := .returned })
  | .returned => (sh, c)

/-- `scanning`: the indexes still to walk, the entry the iterator of the first one stands on, and
the new filter. -/
inductive Rebuild
  | waiting
  | released
  | scanning (rest : List ℕ) (cursor : Option IndexEntry) (nb : PartitionBloom)
  | scanned (nb : PartitionBloom)
  | finished

/-- The iterator has yet to come to the entry. -/
def ahead (ucmp : UserComparator) (cursor : Option IndexEntry) (e : IndexEntry) : Bool :=
  match cursor with
  | none => true
  | some c => compareKeySeq ucmp c e == .lt

/-- `Next` of a skip list goes to the entry that follows when it is called. -/
def Rebuild.advance (ucmp : UserComparator) (gen : ℕ) (sh : Shared) : Rebuild → Shared × Rebuild
  | .waiting =>
    if sh.frozen.any fun i => (sh.index i).gen == gen then
      ({ sh with frozen := sh.frozen.filter fun i => (sh.index i).gen != gen }, .released)
    else (sh, .finished)
  | .released => (sh, .scanning sh.live none {})
  | .scanning [] _ nb => (sh, .scanned nb)
  | .scanning (i :: rest) cursor nb =>
    match (sh.index i).entries.find? (ahead ucmp cursor) with
    | some e => (sh, .scanning (i :: rest) (some e) (nb.add e.userKey))
    | none => (sh, .scanning rest none nb)
  | .scanned nb => ({ sh with bloom := nb }, .finished)
  | .finished => (sh, .finished)

structure Race where
  shared : Shared
  calls : List InsertCall
  rebuild : Rebuild := .waiting

/-- Which thread takes its next step. -/
inductive Turn
  | insert (j : ℕ)
  | rebuild

def turn (ucmp : UserComparator) (gen : ℕ) (ra : Race) : Turn → Race
  | .insert j =>
    match ra.calls[j]? with
    | none => ra
    | some c =>
      let done := c.advance ucmp ra.shared
      { ra with shared := done.1, calls := ra.calls.set j done.2 }
  | .rebuild =>
    let done := ra.rebuild.advance ucmp gen ra.shared
    { ra with shared := done.1, rebuild := done.2 }

/-- Calls of `Insert` with their entries and generations, before any of them has begun. -/
def start (ucmp : UserComparator) (history : List IndexOp) (part : ℕ)
    (calls : List (IndexEntry × ℕ)) : Race :=
  { shared := shared (history.foldl (apply ucmp) {}) part
    calls := calls.map fun c => { entry := c.1, gen := c.2 } }

def AllDone (ra : Race) : Prop :=
  (∀ c ∈ ra.calls, c.phase = .returned) ∧ ra.rebuild = .finished

instance (ra : Race) : Decidable (AllDone ra) :=
  match hr : ra.rebuild with
  | .finished => decidable_of_iff (∀ c ∈ ra.calls, c.phase = .returned) (by simp [AllDone, hr])
  | .waiting | .released | .scanning .. | .scanned _ => .isFalse (by simp [AllDone, hr])

def NoKeyLost (ra : Race) : Prop :=
  ∀ i ∈ ra.shared.live, ∀ e ∈ (ra.shared.index i).entries,
    ra.shared.bloom.mayContain e.userKey = true

instance (ra : Race) : Decidable (NoKeyLost ra) :=
  inferInstanceAs (Decidable (∀ i ∈ ra.shared.live, ∀ e ∈ (ra.shared.index i).entries,
    ra.shared.bloom.mayContain e.userKey = true))

/-- The filter that a rebuild under way puts in place has the key of the entry, or its walk still
comes to the entry. -/
def Reached (ucmp : UserComparator) : Rebuild → ℕ → IndexEntry → Prop
  | .scanning rest cursor nb, i, e =>
    PartitionBloom.probes e.userKey ⊆ nb.bits ∨ i ∈ rest.tail ∨
      rest.head? = some i ∧ ahead ucmp cursor e = true
  | .scanned nb, _, e => PartitionBloom.probes e.userKey ⊆ nb.bits
  | .waiting, _, _ | .released, _, _ | .finished, _, _ => True

instance decidableReached (ucmp : UserComparator) : (r : Rebuild) → (i : ℕ) → (e : IndexEntry) →
    Decidable (Reached ucmp r i e)
  | .scanning rest cursor nb, i, e =>
    inferInstanceAs (Decidable (PartitionBloom.probes e.userKey ⊆ nb.bits ∨ i ∈ rest.tail ∨
      rest.head? = some i ∧ ahead ucmp cursor e = true))
  | .scanned nb, _, e =>
    inferInstanceAs (Decidable (PartitionBloom.probes e.userKey ⊆ nb.bits))
  | .waiting, _, _ | .released, _, _ | .finished, _, _ => .isTrue trivial

/-- No call adds its key to a filter that is being replaced by one without the key. -/
def InTime (ucmp : UserComparator) (ra : Race) : Turn → Prop
  | .insert j => ∀ c ∈ ra.calls[j]?, ∀ i ∈ ra.shared.live, c.phase = .inserted i →
    Reached ucmp ra.rebuild i c.entry
  | .rebuild => True

instance decidableInTime (ucmp : UserComparator) (ra : Race) : (t : Turn) →
    Decidable (InTime ucmp ra t)
  | .insert j =>
    inferInstanceAs (Decidable (∀ c ∈ ra.calls[j]?, ∀ i ∈ ra.shared.live, c.phase = .inserted i →
      Reached ucmp ra.rebuild i c.entry))
  | .rebuild => .isTrue trivial

/-- A call that has yet to add the key of its entry. -/
def Pending (calls : List InsertCall) (i : ℕ) (e : IndexEntry) : Prop :=
  ∃ (k : ℕ) (c : InsertCall), calls[k]? = some c ∧ c.phase = .inserted i ∧ c.entry = e

/-- The filter has the key of the entry, now or once the rebuild under way is finished. -/
def Safe (ucmp : UserComparator) (bloom : PartitionBloom) (r : Rebuild) (i : ℕ) (e : IndexEntry) :
    Prop :=
  match r with
  | .waiting | .finished => PartitionBloom.probes e.userKey ⊆ bloom.bits
  | .released => True
  | .scanning .. | .scanned _ => Reached ucmp r i e

/-- Every entry of a live index is known to the filter, or one of the threads will see to it. -/
structure Covered (ucmp : UserComparator) (ra : Race) : Prop where
  sorted : ∀ i, Ascending (compareKeySeq ucmp) (ra.shared.index i).entries
  covered : ∀ i ∈ ra.shared.live, ∀ e ∈ (ra.shared.index i).entries,
    Pending ra.calls i e ∨ Safe ucmp ra.shared.bloom ra.rebuild i e

section start
variable {ucmp : UserComparator} {s : PartitionIndexSet}

theorem sorted_filtered_apply (h : Sorted ucmp s ∧ Filtered s) (op : IndexOp) :
    Sorted ucmp (apply ucmp s op) ∧ Filtered (apply ucmp s op) := by
  obtain ⟨hs, hf⟩ := h
  cases op with
  | insert part gen e => exact ⟨sorted_insert hs, filtered_insert hf⟩
  | insertCreate part gen e => exact ⟨sorted_insertCreate hs, filtered_insertCreate hf⟩
  | freeze part newGen => exact ⟨sorted_freezeIndexLoop hs [(part, newGen)], filtered_freeze hf newGen⟩
  | releaseFrozen part gen =>
    refine ⟨?_, filtered_releaseFrozen hf⟩
    intro p i hi
    exact hs p i ((chain_releaseFrozen_sublist s part gen p).subset hi)
  | ensureActive part gen => exact ⟨sorted_ensureActive hs, filtered_ensureActive hf⟩

theorem sorted_filtered_history (ucmp : UserComparator) (history : List IndexOp) :
    Sorted ucmp (history.foldl (apply ucmp) {}) ∧ Filtered (history.foldl (apply ucmp) {}) := by
  refine List.foldlRecOn (motive := fun s => Sorted ucmp s ∧ Filtered s) _ _ ⟨?_, ?_⟩ ?_
  · intro p i hi
    cases hi
  · intro p i hi
    cases hi
  · intro s h op _
    exact sorted_filtered_apply h op

/-- The numbered indexes are those of the chain. -/
theorem mem_chain_of_live {part i : ℕ} (hi : i ∈ (shared s part).live) :
    (shared s part).index i ∈ s.chain part := by
  rw [PartitionIndexSet.chain, List.mem_append, List.mem_reverse]
  rw [Shared.live, List.mem_append] at hi
  rcases hi with hactive | hfrozen
  · left
    cases ha : s.active.lookup part with
    | none => simp [shared, ha] at hactive
    | some idx =>
      have hzero : i = 0 := by simpa [shared, ha] using hactive
      subst hzero
      simp [shared, ha]
  · right
    obtain ⟨j, hj, rfl⟩ := List.mem_map.mp hfrozen
    rw [List.mem_range] at hj
    have hget : (shared s part).index (j + 1) = (s.frozenChain part)[j] := by
      rw [shared]
      dsimp only
      rw [List.getD_cons_succ, List.getD_eq_getElem?_getD, List.getElem?_eq_getElem hj,
        Option.getD_some]
    rw [hget]
    exact List.getElem_mem hj

theorem sorted_shared (h : Sorted ucmp s) (part i : ℕ) :
    Ascending (compareKeySeq ucmp) ((shared s part).index i).entries := by
  cases i with
  | zero =>
    cases ha : s.active.lookup part with
    | none =>
      have hnone : ((shared s part).index 0).entries = [] := by simp [shared, ha]
      rw [hnone]
      exact List.Pairwise.nil
    | some idx =>
      apply h part
      apply mem_chain_of_live
      simp [Shared.live, shared, ha]
  | succ j =>
    by_cases hj : j < (s.frozenChain part).length
    · apply h part
      apply mem_chain_of_live
      refine List.mem_append_right _ (List.mem_map.mpr ⟨j, List.mem_range.mpr hj, rfl⟩)
    · have hnone : ((shared s part).index (j + 1)).entries = [] := by
        rw [shared]
        dsimp only
        rw [List.getD_cons_succ, List.getD_eq_getElem?_getD,
          List.getElem?_eq_none (Nat.le_of_not_lt hj)]
        rfl
      rw [hnone]
      exact List.Pairwise.nil

theorem covered_start (ucmp : UserComparator) (history : List IndexOp) (part : ℕ)
    (calls : List (IndexEntry × ℕ)) : Covered ucmp (start ucmp history part calls) := by
  obtain ⟨hs, hf⟩ := sorted_filtered_history ucmp history
  refine ⟨fun i => sorted_shared hs part i, fun i hi e he => .inr ?_⟩
  obtain ⟨b, hb, hsub⟩ := hf part _ (mem_chain_of_live hi) e he
  have hbloom : (start ucmp history part calls).shared.bloom = b := by
    rw [start, shared]
    dsimp only
    rw [hb, Option.getD_some]
  rw [← hbloom] at hsub
  exact hsub

end start

section turns
variable {ucmp : UserComparator} {ra : Race} {calls : List InsertCall} {c c' : InsertCall}
  {i j gen : ℕ} {e : IndexEntry}

/-- A step of one thread leaves the other calls pending. -/
theorem pending_set (hc : calls[j]? = some c) (hphase : c.phase ≠ .inserted i)
    (h : Pending calls i e) : Pending (calls.set j c') i e := by
  obtain ⟨k, d, hd, hins, hentry⟩ := h
  refine ⟨k, d, ?_, hins, hentry⟩
  have hne : j ≠ k := by
    rintro rfl
    rw [hc] at hd
    cases hd
    exact hphase hins
  rw [List.getElem?_set_ne hne]
  exact hd

theorem safe_add (key : Bytes) {bloom : PartitionBloom} {r : Rebuild}
    (h : Safe ucmp bloom r i e) : Safe ucmp (bloom.add key) r i e := by
  cases r with
  | waiting => exact fun x hx => List.mem_append_right _ (h hx)
  | finished => exact fun x hx => List.mem_append_right _ (h hx)
  | released => trivial
  | scanning rest cursor nb => exact h
  | scanned nb => exact h

/-- A key that is added in time is safe. -/
theorem safe_of_reached {bloom : PartitionBloom} {r : Rebuild} (h : Reached ucmp r i e) :
    Safe ucmp (bloom.add e.userKey) r i e := by
  cases r with
  | waiting => exact fun x hx => List.mem_append_left _ hx
  | finished => exact fun x hx => List.mem_append_left _ hx
  | released => trivial
  | scanning rest cursor nb => exact h
  | scanned nb => exact h

/-- A call that changes nothing but its own phase. -/
theorem covered_phase (h : Covered ucmp ra) (hc : ra.calls[j]? = some c)
    (hphase : ∀ i, c.phase ≠ .inserted i) :
    Covered ucmp { ra with calls := ra.calls.set j c' } := by
  refine ⟨h.sorted, fun i hi e he => ?_⟩
  exact (h.covered i hi e he).imp_left (pending_set hc (hphase i))

theorem covered_insert (h : Covered ucmp ra) (hok : InTime ucmp ra (.insert j)) :
    Covered ucmp (turn ucmp gen ra (.insert j)) := by
  rw [turn]
  cases hc : ra.calls[j]? with
  | none => exact h
  | some c =>
    dsimp only
    rw [InsertCall.advance]
    cases hphase : c.phase with
    | called =>
      have hkept := fun c' => @covered_phase ucmp ra c c' j h hc fun i => by simp [hphase]
      dsimp only
      cases ra.shared.active with
      | none => exact hkept _
      | some a =>
        dsimp only
        split
        · exact hkept _
        · split
          · exact hkept _
          · exact hkept _
    | creating =>
      dsimp only
      cases ha : ra.shared.active with
      | some a => exact covered_phase h hc fun i => by simp [hphase]
      | none =>
        refine ⟨fun i => ?_, fun i hi e he => ?_⟩
        · dsimp only
          rw [Function.update_apply]
          split
          · exact List.Pairwise.nil
          · exact h.sorted i
        · dsimp only at he hi ⊢
          rw [Function.update_apply] at he
          split at he
          · cases he
          next hne =>
            have hold : i ∈ ra.shared.live := by
              rw [Shared.live, ha]
              simp only [Shared.live, Option.toList_some, List.mem_append, List.mem_singleton] at hi
              exact List.mem_append_right _ (hi.resolve_left hne)
            exact (h.covered i hold e he).imp_left (pending_set hc (by simp [hphase]))
    | resolved k =>
      dsimp only
      cases hins : (ra.shared.index k).insert ucmp c.entry with
      | none => exact covered_phase h hc fun i => by simp [hphase]
      | some idx =>
        have hnew : idx = IndexContents.inserted ucmp c.entry (ra.shared.index k) := by
          rw [IndexContents.inserted, hins, Option.getD_some]
        refine ⟨fun i => ?_, fun i hi e he => ?_⟩
        · dsimp only
          rw [Function.update_apply]
          split
          · rw [hnew]
            exact ascending_inserted (h.sorted k)
          · exact h.sorted i
        · dsimp only at he hi ⊢
          have hj : j < ra.calls.length := (List.getElem?_eq_some_iff.mp hc).1
          have hkept : e ∈ (ra.shared.index i).entries →
              Pending (ra.calls.set j { c with phase := .inserted k }) i e ∨
                Safe ucmp ra.shared.bloom ra.rebuild i e := by
            intro hold
            exact (h.covered i hi e hold).imp_left (pending_set hc (by simp [hphase]))
          rw [Function.update_apply] at he
          split at he
          next heq =>
            rw [hnew] at he
            rcases mem_inserted he with rfl | hold
            · exact .inl ⟨j, _, List.getElem?_set_self hj, by rw [heq], rfl⟩
            · exact hkept (heq ▸ hold)
          next => exact hkept he
    | inserted k =>
      refine ⟨h.sorted, fun i hi e he => ?_⟩
      dsimp only at hi he ⊢
      rcases h.covered i hi e he with ⟨l, d, hd, hins, hentry⟩ | hsafe
      · by_cases hl : j = l
        · -- the entry of the call itself
          subst hl
          rw [hc] at hd
          cases hd
          right
          rw [← hentry]
          exact safe_of_reached (hok c hc i hi hins)
        · left
          refine ⟨l, d, ?_, hins, hentry⟩
          rw [List.getElem?_set_ne hl]
          exact hd
      · exact .inr (safe_add _ hsafe)
    | returned => exact covered_phase h hc fun i => by simp [hphase]

/-- One step of the walk: every entry that was ahead is found or still ahead. -/
theorem covered_rebuild (h : Covered ucmp ra) : Covered ucmp (turn ucmp gen ra .rebuild) := by
  rw [turn]
  have hcovered := h.covered
  cases hr : ra.rebuild with
  | waiting =>
    rw [hr] at hcovered
    rw [Rebuild.advance]
    split
    · refine ⟨h.sorted, fun i hi e he => .inr trivial⟩
    · exact ⟨h.sorted, hcovered⟩
  | released =>
    refine ⟨h.sorted, fun i hi e he => .inr ?_⟩
    have hlive : i ∈ ra.shared.live := hi
    right
    cases hl : ra.shared.live with
    | nil =>
      rw [hl] at hlive
      cases hlive
    | cons k rest =>
      rw [hl] at hlive
      rcases List.mem_cons.mp hlive with rfl | hrest
      · exact .inr ⟨rfl, rfl⟩
      · exact .inl hrest
  | scanning rest cursor nb =>
    rw [hr] at hcovered
    cases rest with
    | nil =>
      refine ⟨h.sorted, fun i hi e he => (hcovered i hi e he).imp_right ?_⟩
      rintro (hnb | hrest | ⟨hhead, -⟩)
      · exact hnb
      · cases hrest
      · cases hhead
    | cons k rest =>
      rw [Rebuild.advance]
      cases hfind : (ra.shared.index k).entries.find? (ahead ucmp cursor) with
      | none =>
        refine ⟨h.sorted, fun i hi e he => (hcovered i hi e he).imp_right ?_⟩
        rintro (hnb | hrest | ⟨hhead, hahead⟩)
        · exact .inl hnb
        · right
          have hmem : i ∈ rest := hrest
          cases rest with
          | nil => cases hmem
          | cons l rest =>
            rcases List.mem_cons.mp hmem with rfl | hlater
            · exact .inr ⟨rfl, rfl⟩
            · exact .inl hlater
        · cases hhead
          exact absurd hahead (List.find?_eq_none.mp hfind e he)
      | some y =>
        refine ⟨h.sorted, fun i hi e he => (hcovered i hi e he).imp_right ?_⟩
        rintro (hnb | hrest | ⟨hhead, hahead⟩)
        · exact .inl fun x hx => List.mem_append_right _ (hnb hx)
        · exact .inr (.inl hrest)
        · cases hhead
          rcases find?_ascending (h.sorted k) hfind e he hahead with rfl | hlt
          · exact .inl fun x hx => List.mem_append_left _ hx
          · exact .inr (.inr ⟨rfl, beq_iff_eq.mpr hlt⟩)
  | scanned nb =>
    rw [hr] at hcovered
    exact ⟨h.sorted, hcovered⟩
  | finished =>
    rw [hr] at hcovered
    exact ⟨h.sorted, hcovered⟩

theorem covered_turn (ra : Race) (t : Turn) (hok : InTime ucmp ra t) (h : Covered ucmp ra) :
    Covered ucmp (turn ucmp gen ra t) := by
  cases t with
  | insert j => exact covered_insert h hok
  | rebuild => exact covered_rebuild h

/-- If every key is added in time, the filter has all keys of the live indexes once all threads have
finished. -/
theorem noKeyLost_of_inTime (ucmp : UserComparator) (history : List IndexOp) (part gen : ℕ)
    (calls : List (IndexEntry × ℕ)) (turns : List Turn)
    (hok : Guarded (turn ucmp gen) (InTime ucmp) (start ucmp history part calls) turns)
    (hdone : AllDone (run (turn ucmp gen) (start ucmp history part calls) turns)) :
    NoKeyLost (run (turn ucmp gen) (start ucmp history part calls) turns) := by
  have h := invariant_run covered_turn (covered_start ucmp history part calls) hok
  obtain ⟨hreturned, hfinished⟩ := hdone
  intro i hi e he
  have hcovered := h.covered i hi e he
  rw [hfinished] at hcovered
  rcases hcovered with ⟨k, c, hc, hins, -⟩ | hsafe
  · have hphase := hreturned c (List.mem_of_getElem? hc)
    rw [hins] at hphase
    cases hphase
  · rw [PartitionBloom.mayContain, List.all_eq_true]
    exact fun x hx => decide_eq_true (hsafe hx)

/-- Key `a` in a frozen index of generation 0 and an empty active index. -/
def frozenA : List IndexOp :=
  [.insert 0 0 ⟨[97], 1, kTypeValue, ⟨0, 0, 0⟩⟩, .freeze 0 1]

def entryB : IndexEntry := ⟨[98], 2, kTypeValue, ⟨0, 1, 0⟩⟩

/-- The walk comes after the insertion into the skip list, the key goes to the old filter. -/
def walkedLate : List Turn :=
  [.insert 0, .rebuild, .rebuild, .insert 0, .rebuild, .insert 0, .rebuild, .rebuild, .rebuild]

/-- The walk is over when the entry is inserted, and the old filter is replaced after the key was
added to it. -/
def walkedEarly : List Turn :=
  [.insert 0, .rebuild, .rebuild, .rebuild, .rebuild, .insert 0, .insert 0, .rebuild]

theorem noKeyLost_walkedLate :
    NoKeyLost (run (turn .bytewise 0) (start .bytewise frozenA 0 [(entryB, 1)]) walkedLate) :=
  noKeyLost_of_inTime .bytewise frozenA 0 0 [(entryB, 1)] walkedLate (by decide +kernel)
    (by decide +kernel)

theorem keyLost_walkedEarly :
    AllDone (run (turn .bytewise 0) (start .bytewise frozenA 0 [(entryB, 1)]) walkedEarly) ∧
      ¬ NoKeyLost (run (turn .bytewise 0) (start .bytewise frozenA 0 [(entryB, 1)]) walkedEarly) := by
  decide +kernel

end turns

end ZeroFlush.BloomRaces
