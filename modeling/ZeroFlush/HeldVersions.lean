import ZeroFlush.ReleasedIndexes
import ZeroFlush.WalReferenceStability

/-! # The versions the indexes hold

Along a run of writes, freezes and releases the index of a partition and generation has exactly the
acknowledged records of that generation, until the generation is released. -/
namespace ZeroFlush.HeldVersions
open FixedWidthCodec FiniteMaps WalFormat WalFiles PartitionedWal WalLogs WalOpening UserKeys
  OrderedInsertion PartitionIndexes IndexChains RecencyOrder IndexContents PartitionTables
  SealedFiles Context ContextRuns SealedEpochs IndexGenerations ReadPaths ManagerConsistency
  GuardedRuns
open WalReferenceStability (Good)
open ReleasedIndexes (NoWrap Kept Separate gensOf)

abbrev Acked := WalRecordRef × WalRecord

/-- A context with the records it has acknowledged and the generations it has released. -/
structure Writes where
  ctx : ZeroFlushContext
  acked : List Acked := []
  released : List FileId := []

inductive IndexOp
  | write (r : WalRecord) (tableVersion rnd : ℕ)
  | sync (part : ℕ)
  | freeze (l1 : List L1File)
  | release (epoch : ℕ)

namespace Writes

def step (s : Writes) : IndexOp → Writes
  | .write r v rnd =>
    match s.ctx.addRecord r v rnd with
    | (.ok ref, ctx) => { s with ctx := ctx, acked := (ref, r) :: s.acked }
    | (.error _, ctx) => { s with ctx := ctx }
  | .sync part => { s with ctx := ContextRuns.step s.ctx (.sync part) }
  | .freeze l1 => { s with ctx := s.ctx.freezeBatchPartitions l1 }
  | .release epoch =>
    { s with ctx := s.ctx.releaseEpoch epoch, released := s.released ++ gensOf s.ctx epoch }

/-- The records whose generations are not released. -/
def held (s : Writes) : List Acked := s.acked.filter fun a => a.1.file ∉ s.released

end Writes

/-- A table routes the keys of the records to the partitions they are in. -/
def RoutesBack (ucmp : UserComparator) (t : PartitionTable) (as : List Acked) : Prop :=
  ∀ a ∈ as, a.2.type ≠ kTypeRangeDeletion → t.route ucmp a.2.key = a.1.partId

/-- The table in force after a freeze. -/
def tableAfter (ctx : ZeroFlushContext) (l1 : List L1File) : PartitionTable :=
  if ctx.chooseBatch = [] then ctx.tables.current
  else (ctx.nextEpoch.1.batchTable ctx.nextEpoch.2.epoch l1).getD ctx.tables.current

/-- A new record has its own sequence number, above those of the generations sealed before. -/
def Follows (s : Writes) (r : WalRecord) (part : ℕ) : Prop :=
  ∀ a ∈ s.acked, a.2.seq ≠ r.seq ∧
    (a.1.partId = part → a.1.gen < s.ctx.wal.activeGen part → a.2.seq.toNat < r.seq.toNat)

instance (ucmp : UserComparator) (t : PartitionTable) (as : List Acked) :
    Decidable (RoutesBack ucmp t as) :=
  inferInstanceAs (Decidable (∀ a ∈ as, _ → _))

instance (s : Writes) (r : WalRecord) (part : ℕ) : Decidable (Follows s r part) :=
  inferInstanceAs (Decidable (∀ a ∈ s.acked, a.2.seq ≠ r.seq ∧
    (a.1.partId = part → a.1.gen < s.ctx.wal.activeGen part → a.2.seq.toNat < r.seq.toNat)))

/-- The condition on a step: the table a write group captured routes its keys as the current table
does, and the table a freeze installs routes the held keys to where they are. -/
def StepOk (s : Writes) : IndexOp → Prop
  | .write r v _ =>
    r.frameLength < 2 ^ 32 ∧ r.seq.toNat < 2 ^ 56 ∧ Follows s r (s.ctx.partOf r v) ∧
      (r.type ≠ kTypeRangeDeletion → s.ctx.routeWithVersion r.key v = s.ctx.route r.key)
  | .sync _ | .release _ => True
  | .freeze l1 =>
    NoWrap s.ctx.wal s.ctx.chooseBatch ∧ (tableAfter s.ctx l1).partitions ≤ kRangeDelPartId ∧
      RoutesBack s.ctx.ucmp (tableAfter s.ctx l1) s.held

instance decidableStepOk (s : Writes) : (op : IndexOp) → Decidable (StepOk s op)
  | .write r v _ =>
    inferInstanceAs (Decidable (r.frameLength < 2 ^ 32 ∧ r.seq.toNat < 2 ^ 56 ∧
      Follows s r (s.ctx.partOf r v) ∧
      (r.type ≠ kTypeRangeDeletion → s.ctx.routeWithVersion r.key v = s.ctx.route r.key)))
  | .sync _ | .release _ => .isTrue trivial
  | .freeze l1 =>
    inferInstanceAs (Decidable (NoWrap s.ctx.wal s.ctx.chooseBatch ∧
      (tableAfter s.ctx l1).partitions ≤ kRangeDelPartId ∧
      RoutesBack s.ctx.ucmp (tableAfter s.ctx l1) s.held))

/-- The index of a generation has the records of that generation. -/
structure Listed (ucmp : UserComparator) (is : PartitionIndexSet) (acked : List Acked)
    (released : List FileId) : Prop where
  idle : ∀ p, is.active.lookup p = none → is.chain p = []
  sorted : Sorted ucmp is
  filtered : Filtered is
  desc : ∀ p, (is.chain p).Pairwise fun i j => j.gen < i.gen
  mem_iff : ∀ p, ∀ i ∈ is.chain p, ∀ x, x ∈ i.entries ↔
    ∃ a ∈ acked, a.1.file ∉ released ∧ a.1.file = (p, i.gen) ∧ x = indexEntry a.2 a.1
  complete : ∀ a ∈ acked, a.1.file ∉ released → ∃ i ∈ is.chain a.1.partId, i.gen = a.1.gen

/-- The context against the acknowledged records. -/
structure Indexed (ctx : ZeroFlushContext) (acked : List Acked) (released : List FileId) : Prop where
  ok : Ok ctx.wal
  good : ∀ a ∈ acked, Good ctx.wal a
  below : ∀ a ∈ acked, a.1.gen ≤ ctx.wal.activeGen a.1.partId
  agree : GensAgree ctx
  listed : Listed ctx.ucmp ctx.indexSet acked released
  old : ∀ f ∈ released, Appendable ctx.wal f.1 → f.2 < ctx.wal.activeGen f.1

/-- The sequence numbers of the acknowledged records. -/
structure Numbered (acked : List Acked) : Prop where
  bounded : ∀ a ∈ acked, a.2.seq.toNat < 2 ^ 56
  distinct : ∀ a ∈ acked, ∀ b ∈ acked, a.2.seq = b.2.seq → a = b
  mono : ∀ a ∈ acked, ∀ b ∈ acked, a.1.partId = b.1.partId → a.1.gen < b.1.gen →
    a.2.seq.toNat < b.2.seq.toNat

/-- The generations of the held records are active or in the cache. -/
def Served (s : Writes) : Prop :=
  ∀ a ∈ s.held, a.1.gen = s.ctx.wal.activeGen a.1.partId ∨ Kept s.ctx.sealedCache a.1.file

/-- Every held record is in the partition that a lookup of its key goes to. -/
structure Placed (s : Writes) : Prop where
  small : s.ctx.tables.current.partitions ≤ kRangeDelPartId
  points : RoutesBack s.ctx.ucmp s.ctx.tables.current s.held
  tombstones : ∀ a ∈ s.acked, a.2.type = kTypeRangeDeletion → a.1.partId = kRangeDelPartId

structure Faithful (s : Writes) : Prop where
  indexed : Indexed s.ctx s.acked s.released
  numbered : Numbered s.acked
  served : Served s
  separate : Separate s.ctx
  placed : Placed s

variable {ctx : ZeroFlushContext} {acked : List Acked} {released : List FileId} {s : Writes}

section indexes
variable {ucmp : UserComparator} {is : PartitionIndexSet} {p gen : ℕ}

/-- A freeze to a generation above all of the partition. -/
theorem listed_freeze (h : Listed ucmp is acked released) {newGen : ℕ}
    (hnew : ∀ i ∈ is.chain p, i.gen < newGen)
    (hacked : ∀ a ∈ acked, a.1.file ≠ (p, newGen)) :
    Listed ucmp (is.freeze p newGen) acked released := by
  obtain ⟨⟨rest, hchain, hrest⟩, hother⟩ := chain_freeze is p newGen
  have hsub : rest.Sublist (is.chain p) := by
    obtain rfl | ⟨a, -, -, ha⟩ := hrest
    · exact List.Sublist.refl _
    · rw [ha]
      exact List.sublist_cons_self a rest
  have hmem : ∀ q, ∀ i ∈ (is.freeze p newGen).chain q,
      i ∈ is.chain q ∨ q = p ∧ i = { gen := newGen } := by
    intro q i hi
    cases eq_or_ne q p with
    | inl hq =>
      subst hq
      rw [hchain, List.mem_cons] at hi
      exact hi.elim (fun he => .inr ⟨rfl, he⟩) fun hi => .inl (hsub.subset hi)
    | inr hq => exact .inl (hother q hq ▸ hi)
  refine ⟨?_, ?_, filtered_freeze h.filtered newGen, ?_, ?_, ?_⟩
  · intro q hq
    rw [active_freeze] at hq
    split at hq
    next => cases hq
    next hne =>
      rw [hother q hne]
      exact h.idle q hq
  · intro q i hi
    obtain hi | ⟨-, rfl⟩ := hmem q i hi
    · exact h.sorted q i hi
    · exact List.Pairwise.nil
  · intro q
    cases eq_or_ne q p with
    | inl hq =>
      subst hq
      rw [hchain]
      exact List.pairwise_cons.mpr ⟨fun i hi => hnew i (hsub.subset hi), (h.desc q).sublist hsub⟩
    | inr hq => exact hother q hq ▸ h.desc q
  · intro q i hi x
    obtain hi | ⟨rfl, rfl⟩ := hmem q i hi
    · exact h.mem_iff q i hi x
    · constructor
      · intro hx
        cases hx
      · rintro ⟨a, ha, -, hfile, -⟩
        exact absurd hfile (hacked a ha)
  · intro a ha hrel
    obtain ⟨i, hi, hg⟩ := h.complete a ha hrel
    cases eq_or_ne a.1.partId p with
    | inr hq => exact ⟨i, hother _ hq ▸ hi, hg⟩
    | inl hq =>
      refine ⟨i, ?_, hg⟩
      rw [hq] at hi ⊢
      rw [hchain, List.mem_cons]
      right
      obtain rfl | ⟨b, -, hnil, hb⟩ := hrest
      · exact hi
      · -- the index that is not kept has no entries, and the record is in its own
        rw [hb, List.mem_cons] at hi
        refine hi.resolve_left ?_
        rintro rfl
        have hentry := (h.mem_iff p i (hb ▸ List.mem_cons_self) (indexEntry a.2 a.1)).mpr
          ⟨a, ha, hrel, Prod.ext hq hg.symm, rfl⟩
        rw [hnil] at hentry
        cases hentry

/-- The entries of an index whose generation is not that of a new record. -/
theorem Listed.mem_iff_cons (h : Listed ucmp is acked released) {b : Acked} {i : PartitionIndex}
    (hi : i ∈ is.chain p) (hne : b.1.file ≠ (p, i.gen)) (x : IndexEntry) :
    x ∈ i.entries ↔ ∃ a ∈ b :: acked, a.1.file ∉ released ∧ a.1.file = (p, i.gen) ∧
      x = indexEntry a.2 a.1 := by
  rw [h.mem_iff p i hi x]
  constructor
  · rintro ⟨a, ha, hrest⟩
    exact ⟨a, List.mem_cons_of_mem _ ha, hrest⟩
  · rintro ⟨a, ha, hrel, hfile, hx⟩
    obtain rfl | ha := List.mem_cons.mp ha
    · exact absurd hfile hne
    · exact ⟨a, ha, hrel, hfile, hx⟩

/-- The chain of the partition of a new record: the first index, which is made if there is none,
gets the record. -/
theorem chain_insert_head (h : Listed ucmp is acked released) {ref : WalRecordRef} {e : IndexEntry}
    (hgen : ∀ g, activeGen? is ref.partId = some g → g = ref.gen) :
    (∃ j l, is.chain ref.partId = j :: l ∧ j.gen = ref.gen ∧
      (is.insert ucmp ref.partId ref.gen e).chain ref.partId = inserted ucmp e j :: l) ∨
    is.active.lookup ref.partId = none ∧ is.chain ref.partId = [] ∧
      (is.insert ucmp ref.partId ref.gen e).chain ref.partId = [inserted ucmp e { gen := ref.gen }] := by
  cases ha : is.active.lookup ref.partId with
  | none =>
    have hnil := h.idle _ ha
    refine .inr ⟨rfl, hnil, ?_⟩
    cases (chain_insert ucmp is ref.partId ref.gen e).1 with
    | into l₁ j l₂ before =>
      rw [hnil] at before
      simp at before
    | first none_active eq => rw [eq, hnil]
    | second a l active => simp [ha] at active
    | dropped active => exact absurd ha active
  | some a =>
    have hg : a.gen = ref.gen := hgen a.gen (by simp [activeGen?, ha])
    refine .inl ⟨a, (is.frozenChain ref.partId).reverse, chain_of_active ha, hg, ?_⟩
    rw [PartitionIndexSet.insert, ha]
    dsimp only
    rw [if_pos hg, chain_insertActive ha, if_pos rfl]

/-- A record goes into the index of the active generation, which is made for the first record of a
partition. -/
theorem listed_insert (h : Listed ucmp is acked released) {ref : WalRecordRef} {r : WalRecord}
    (hgen : ∀ g, activeGen? is ref.partId = some g → g = ref.gen) (hrel : ref.file ∉ released)
    (hfresh : ∀ i ∈ is.chain ref.partId, ∀ x ∈ i.entries,
      compareKeySeq ucmp (indexEntry r ref) x ≠ .eq) :
    Listed ucmp (is.insert ucmp ref.partId ref.gen (indexEntry r ref)) ((ref, r) :: acked)
      released := by
  have hother := (chain_insert ucmp is ref.partId ref.gen (indexEntry r ref)).2
  have hhead := @chain_insert_head _ _ ucmp is h ref (indexEntry r ref) hgen
  have hfile : ∀ q, ref.file = (ref.partId, q) ↔ q = ref.gen := by
    intro q
    rw [WalRecordRef.file, Prod.mk.injEq, and_iff_right rfl, eq_comm]
  refine ⟨?_, sorted_insert h.sorted, filtered_insert h.filtered, ?_, ?_, ?_⟩
  · intro q hq
    have hact := @activeGen?_insert ucmp is ref.partId ref.gen (indexEntry r ref) q
    rw [activeGen?, hq, Option.map_none] at hact
    split at hact
    next => cases hact
    next hnot =>
      have hnone : is.active.lookup q = none := by
        rw [activeGen?, eq_comm, Option.map_eq_none_iff] at hact
        exact hact
      have hne : q ≠ ref.partId := by
        rintro rfl
        exact hnot ⟨rfl, by rw [activeGen?, hnone, Option.map_none]⟩
      rw [hother q hne]
      exact h.idle q hnone
  · intro q
    cases eq_or_ne q ref.partId with
    | inr hq => exact hother q hq ▸ h.desc q
    | inl hq =>
      subst hq
      obtain ⟨j, l, hchain, -, hafter⟩ | ⟨-, -, hafter⟩ := hhead
      · have hdesc := h.desc ref.partId
        rw [hchain, List.pairwise_cons] at hdesc
        rw [hafter, List.pairwise_cons, inserted_gen]
        exact hdesc
      · rw [hafter]
        exact List.pairwise_singleton _ _
  · intro q i hi
    cases eq_or_ne q ref.partId with
    | inr hq =>
      rw [hother q hq] at hi
      exact h.mem_iff_cons hi fun hf => hq (congrArg Prod.fst hf).symm
    | inl hq =>
      subst hq
      obtain ⟨j, l, hchain, hg, hafter⟩ | ⟨-, hnil, hafter⟩ := hhead
      · have hj : j ∈ is.chain ref.partId := hchain ▸ List.mem_cons_self
        rw [hafter, List.mem_cons] at hi
        obtain rfl | hi := hi
        · intro x
          rw [inserted_gen]
          constructor
          · intro hx
            obtain rfl | hx := mem_inserted hx
            · exact ⟨(ref, r), List.mem_cons_self, hrel, (hfile j.gen).mpr hg, rfl⟩
            · obtain ⟨a, ha, hrest⟩ := (h.mem_iff _ j hj x).mp hx
              exact ⟨a, List.mem_cons_of_mem _ ha, hrest⟩
          · rintro ⟨a, ha, harel, hafile, rfl⟩
            obtain rfl | ha := List.mem_cons.mp ha
            · exact mem_inserted_self (hfresh j hj)
            · exact subset_inserted ((h.mem_iff _ j hj _).mpr ⟨a, ha, harel, hafile, rfl⟩)
        · have hdesc := h.desc ref.partId
          rw [hchain, List.pairwise_cons] at hdesc
          have hlt := hdesc.1 i hi
          refine h.mem_iff_cons (hchain ▸ List.mem_cons_of_mem _ hi) ?_
          rw [Ne, hfile]
          omega
      · rw [hafter, List.mem_singleton] at hi
        subst hi
        intro x
        rw [entries_inserted_empty, List.mem_singleton, inserted_gen]
        constructor
        · rintro rfl
          exact ⟨(ref, r), List.mem_cons_self, hrel, (hfile _).mpr rfl, rfl⟩
        · rintro ⟨a, ha, harel, hafile, rfl⟩
          obtain rfl | ha := List.mem_cons.mp ha
          · rfl
          · -- an earlier record of the partition would have made an index
            obtain ⟨i, hi, -⟩ := h.complete a ha harel
            rw [show a.1.partId = ref.partId from congrArg Prod.fst hafile, hnil] at hi
            cases hi
  · have hnew : ∃ i ∈ (is.insert ucmp ref.partId ref.gen (indexEntry r ref)).chain ref.partId,
        i.gen = ref.gen := by
      obtain ⟨j, l, -, hg, hafter⟩ | ⟨-, -, hafter⟩ := hhead
      · exact ⟨_, hafter ▸ List.mem_cons_self, (inserted_gen j).trans hg⟩
      · exact ⟨_, hafter ▸ List.mem_cons_self, inserted_gen _⟩
    intro a ha harel
    obtain rfl | ha := List.mem_cons.mp ha
    · exact hnew
    · obtain ⟨i, hi, hg⟩ := h.complete a ha harel
      cases eq_or_ne a.1.partId ref.partId with
      | inr hq => exact ⟨i, hother _ hq ▸ hi, hg⟩
      | inl hq =>
        rw [hq] at hi ⊢
        obtain ⟨j, hj, hjg, -⟩ := (chain_insert ucmp is ref.partId ref.gen (indexEntry r ref)).1.keeps hi
        exact ⟨j, hj, hjg.trans hg⟩

theorem listed_releaseLoop (h : Listed ucmp is acked released) (gens : List FileId)
    (hquiet : ∀ f ∈ gens, ∀ i, is.active.lookup f.1 = some i → i.gen = f.2 → i.entries = []) :
    Listed ucmp (gens.foldl (fun s f => s.releaseFrozen f.1 f.2) is) acked (released ++ gens) := by
  have hactive := ReleasedIndexes.active_releaseLoop gens is
  have hmem := ReleasedIndexes.mem_chain_releaseLoop gens is
  have hloop : Filtered (gens.foldl (fun s f => s.releaseFrozen f.1 f.2) is) ∧
      ∀ q, ((gens.foldl (fun s f => s.releaseFrozen f.1 f.2) is).chain q).Sublist (is.chain q) := by
    refine List.foldlRecOn (motive := fun t : PartitionIndexSet => Filtered t ∧
      ∀ q, (t.chain q).Sublist (is.chain q)) _ _ ⟨h.filtered, fun _ => List.Sublist.refl _⟩ ?_
    rintro t ⟨hf, hs⟩ f -
    exact ⟨filtered_releaseFrozen hf, fun q => (chain_releaseFrozen_sublist t f.1 f.2 q).trans (hs q)⟩
  obtain ⟨hfiltered, hsub⟩ := hloop
  refine ⟨?_, fun q i hi => h.sorted q i ((hsub q).subset hi), hfiltered,
    fun q => (h.desc q).sublist (hsub q), ?_, ?_⟩
  · intro q hq
    rw [hactive] at hq
    have hnil := hsub q
    rw [h.idle q hq] at hnil
    exact List.sublist_nil.mp hnil
  · intro q i hi x
    rw [h.mem_iff q i ((hsub q).subset hi) x]
    constructor
    · rintro ⟨a, ha, hrel, hfile, rfl⟩
      refine ⟨a, ha, ?_, hfile, rfl⟩
      rw [List.mem_append, not_or]
      refine ⟨hrel, fun hg => ?_⟩
      obtain hact | ⟨-, hnot⟩ := (hmem q i).mp hi
      · -- an active index of a released generation would have no entries
        rw [hfile] at hg
        have hentry := (h.mem_iff q i ((hsub q).subset hi) _).mpr ⟨a, ha, hrel, hfile, rfl⟩
        rw [hquiet _ hg i hact rfl] at hentry
        cases hentry
      · exact hnot (hfile ▸ hg)
    · rintro ⟨a, ha, hrel, hrest⟩
      exact ⟨a, ha, fun hr => hrel (List.mem_append_left _ hr), hrest⟩
  · intro a ha hrel
    rw [List.mem_append, not_or] at hrel
    obtain ⟨i, hi, hg⟩ := h.complete a ha hrel.1
    refine ⟨i, (hmem _ i).mpr ?_, hg⟩
    rw [PartitionIndexSet.chain, List.mem_append, List.mem_reverse, Option.mem_toList] at hi
    refine hi.imp_right fun hi => ⟨hi, ?_⟩
    rw [hg]
    exact hrel.2

end indexes

theorem gen_le_activeGen (h : Indexed ctx acked released) {p : ℕ} (happ : Appendable ctx.wal p)
    {i : PartitionIndex} (hi : i ∈ ctx.indexSet.chain p) : i.gen ≤ ctx.wal.activeGen p := by
  cases ha : ctx.indexSet.active.lookup p with
  | none =>
    rw [h.listed.idle p ha] at hi
    cases hi
  | some a =>
    have hgen : a.gen = ctx.wal.activeGen p := h.agree p a.gen (by simp [activeGen?, ha]) happ
    have hdesc := h.listed.desc p
    rw [chain_of_active ha] at hi hdesc
    cases List.mem_cons.mp hi with
    | inl he => rw [he, hgen]
    | inr hi =>
      have hlt := (List.pairwise_cons.mp hdesc).1 i hi
      omega

/-- The freeze of one partition, WAL and index. -/
theorem indexed_freezeBatchStep (h : Indexed ctx acked released) (se : SealedEpoch) {p : ℕ}
    (hp : ctx.wal.hasPartition p = true) (hwrap : ctx.wal.activeGen p + 1 < 2 ^ 32) :
    Indexed (ZeroFlushContext.freezeBatchStep (ctx, se) p).1 acked released := by
  obtain ⟨hold, -⟩ := freezeWal_result ctx hp
  have hnext : (ctx.wal.activeGen p + 1) % 2 ^ 32 = ctx.wal.activeGen p + 1 := Nat.mod_eq_of_lt hwrap
  have hindex : (ZeroFlushContext.freezeBatchStep (ctx, se) p).1.indexSet =
      ctx.indexSet.freeze p (ctx.wal.activeGen p + 1) := by
    show ctx.indexSet.freeze p (((ctx.freezeWal p).1.oldGen + 1) % 2 ^ 32) = _
    rw [hold, hnext]
  have hle : ∀ i, ctx.wal.activeGen i ≤ (ctx.wal.freeze p).2.activeGen i := by
    intro i
    rw [activeGen_freeze, hnext]
    split
    next hi =>
      rw [hi.1]
      omega
    next => exact le_rfl
  refine ⟨ok_freeze h.ok p hwrap, ?_, ?_, gensAgree_freezeBatchStep h.agree se hp, ?_, ?_⟩
  · intro a ha
    exact (h.good a ha).mono (extends_freeze h.ok p hwrap) fun i hi =>
      WalReferenceStability.lookup_freeze_ne_none p hi
  · intro a ha
    exact (h.below a ha).trans (hle _)
  · rw [hindex]
    refine listed_freeze h.listed ?_ ?_
    · intro i hi
      have hge := gen_le_activeGen h (.inl hp) hi
      omega
    · intro a ha hfile
      have hbelow := h.below a ha
      rw [show a.1.partId = p from congrArg Prod.fst hfile,
        show a.1.gen = ctx.wal.activeGen p + 1 from congrArg Prod.snd hfile] at hbelow
      omega
  · intro f hf hi
    have hi : Appendable ctx.wal f.1 := by
      rw [Appendable, ← hasPartition_freeze ctx.wal p]
      exact hi
    exact (h.old f hf hi).trans_le (hle f.1)

theorem indexed_freezeBatchLoop (h : Indexed ctx acked released) {ps : List ℕ} (se : SealedEpoch)
    (hps : ∀ p ∈ ps, ctx.wal.hasPartition p = true) (hwrap : NoWrap ctx.wal ps) :
    Indexed (ps.foldl ZeroFlushContext.freezeBatchStep (ctx, se)).1 acked released := by
  induction ps generalizing ctx se with
  | nil => exact h
  | cons p ps ih =>
    have hp := hps p List.mem_cons_self
    have hone := hwrap p List.mem_cons_self
    rw [List.length_cons] at hone
    have hlt : ctx.wal.activeGen p + 1 < 2 ^ 32 := by omega
    refine ih (indexed_freezeBatchStep h se hp hlt) _ ?_ ?_
    · intro q hq
      rw [hasPartition_freezeBatchStep]
      exact hps q (List.mem_cons_of_mem _ hq)
    · intro q hq
      have hq' := hwrap q (List.mem_cons_of_mem _ hq)
      rw [List.length_cons] at hq'
      show (ctx.wal.freeze p).2.activeGen q + ps.length < 2 ^ 32
      rw [activeGen_freeze, Nat.mod_eq_of_lt hlt]
      split
      next hqp =>
        rw [hqp.1] at hq'
        omega
      next => omega

/-- What a context is indexed by depends on its WAL, its indexes and its comparator. -/
theorem Indexed.congr (h : Indexed ctx acked released) {ctx' : ZeroFlushContext}
    (hwal : ctx'.wal = ctx.wal) (hindex : ctx'.indexSet = ctx.indexSet)
    (hucmp : ctx'.ucmp = ctx.ucmp) : Indexed ctx' acked released := by
  refine ⟨hwal ▸ h.ok, hwal ▸ h.good, hwal ▸ h.below, ?_, ?_, hwal ▸ h.old⟩
  · intro i g hg hi
    rw [hindex] at hg
    rw [hwal] at hi ⊢
    exact h.agree i g hg hi
  · rw [hindex, hucmp]
    exact h.listed

theorem indexed_clearOverTargetFlag (h : Indexed ctx acked released) :
    Indexed { ctx with wal := ctx.wal.clearOverTargetFlag } acked released where
  ok := ⟨h.ok.handles, h.ok.sizes, h.ok.table, h.ok.known, h.ok.newest, h.ok.later, h.ok.unmanaged⟩
  good a ha := ⟨(h.good a ha).short, (h.good a ha).managed,
    ⟨(h.good a ha).placed.inLog, (h.good a ha).placed.uncut⟩⟩
  below := h.below
  agree := h.agree
  listed := h.listed
  old := h.old

theorem indexed_freezeBatch (h : Indexed ctx acked released) (l1 : List L1File)
    (hwrap : NoWrap ctx.wal ctx.chooseBatch) :
    Indexed (ctx.freezeBatchPartitions l1) acked released := by
  rw [ZeroFlushContext.freezeBatchPartitions]
  cases hb : ctx.chooseBatch with
  | nil => exact indexed_clearOverTargetFlag h
  | cons p ps =>
    dsimp only
    rw [← hb]
    generalize ctx.nextEpoch.1.batchTable ctx.nextEpoch.2.epoch l1 = t
    have hstart : Indexed (ctx.nextEpoch.1.installTable t) acked released := by
      refine h.congr (wal_installTable _ _) ?_ ?_
      · cases t <;> rfl
      · cases t <;> rfl
    have hwal : (ctx.nextEpoch.1.installTable t).wal = ctx.wal := wal_installTable _ _
    refine (indexed_clearOverTargetFlag (indexed_freezeBatchLoop hstart ctx.nextEpoch.2 ?_ ?_)).congr
      rfl rfl rfl
    · intro q hq
      rw [hwal]
      exact hasPartition_of_mem_chooseBatch hq
    · rw [hwal]
      exact hwrap

theorem indexed_sync (h : Indexed ctx acked released) (part : ℕ) :
    Indexed (ContextRuns.step ctx (.sync part)) acked released := by
  have hinv := WalReferenceStability.inv_step ⟨ctx.wal, acked⟩ (.sync part) trivial ⟨h.ok, h.good⟩
  refine ⟨hinv.ok, hinv.good, ?_, gensAgree_step ctx (.sync part) trivial h.agree, h.listed, ?_⟩
  · intro a ha
    show a.1.gen ≤ (ctx.wal.sync part).2.activeGen a.1.partId
    rw [activeGen_sync]
    exact h.below a ha
  · intro f hf hi
    show f.2 < (ctx.wal.sync part).2.activeGen f.1
    rw [activeGen_sync]
    refine h.old f hf ?_
    rw [Appendable, ← hasPartition_sync ctx.wal part]
    exact hi

theorem indexed_release (h : Indexed ctx acked released) (hs : Separate ctx) (epoch : ℕ) :
    Indexed (ctx.releaseEpoch epoch) acked (released ++ gensOf ctx epoch) := by
  refine ⟨h.ok, h.good, h.below, gensAgree_step ctx (.releaseEpoch epoch) trivial h.agree, ?_, ?_⟩
  · refine listed_releaseLoop h.listed (gensOf ctx epoch) ?_
    intro f hf
    exact hs.quiet f (ReleasedIndexes.kept_of_mem_gensOf hf)
  · intro f hf hi
    obtain hf | hf := List.mem_append.mp hf
    · exact h.old f hf hi
    · exact hs.old f (ReleasedIndexes.kept_of_mem_gensOf hf) hi

theorem seq_indexEntry {a : Acked} (h : a.2.seq.toNat < 2 ^ 56) :
    (indexEntry a.2 a.1).seq = a.2.seq.toNat :=
  Nat.mod_eq_of_lt h

/-- No index has the sequence number of a new record. -/
theorem Numbered.fresh (hn : Numbered acked) (h : Indexed ctx acked released) {r : WalRecord}
    {ref : WalRecordRef} (hr : r.seq.toNat < 2 ^ 56) (hnew : ∀ a ∈ acked, a.2.seq ≠ r.seq) {p : ℕ} :
    ∀ i ∈ ctx.indexSet.chain p, ∀ x ∈ i.entries,
      compareKeySeq ctx.ucmp (indexEntry r ref) x ≠ .eq := by
  intro i hi x hx he
  obtain ⟨a, ha, -, -, rfl⟩ := (h.listed.mem_iff p i hi x).mp hx
  have hseq := Nat.compare_eq_eq.mp (Ordering.then_eq_eq.mp he).2
  rw [seq_indexEntry (hn.bounded a ha), @seq_indexEntry (ref, r) hr] at hseq
  exact hnew a ha (UInt64.toNat_inj.mp hseq)

theorem indexed_write (h : Indexed ctx acked released) (hn : Numbered acked) {r : WalRecord}
    {v rnd : ℕ} {ref : WalRecordRef} {ctx' : ZeroFlushContext}
    (hadd : ctx.addRecord r v rnd = (.ok ref, ctx')) (hframe : r.frameLength < 2 ^ 32)
    (hr : r.seq.toNat < 2 ^ 56) (hnew : ∀ a ∈ acked, a.2.seq ≠ r.seq) :
    Indexed ctx' ((ref, r) :: acked) released := by
  have hctx : (ctx.addRecord r v rnd).2 = ctx' := congrArg Prod.snd hadd
  have hagree := gensAgree_addRecord h.agree r v rnd
  rw [hctx] at hagree
  rw [ZeroFlushContext.addRecord] at hadd
  cases ha : ctx.wal.append (ctx.partOf r v) r with
  | mk res wal =>
    rw [ha] at hadd
    cases res with
    | error e => cases hadd
    | ok ref' =>
      obtain ⟨rfl, rfl⟩ : ref' = ref ∧ _ = ctx' := by simpa using hadd
      obtain ⟨hpart, hgen, happ, hgens, hiff⟩ := append_ok ha
      have hinv := WalReferenceStability.inv_step ⟨ctx.wal, acked⟩ (.append (ctx.partOf r v) r) hframe
        ⟨h.ok, h.good⟩
      rw [WalReferenceStability.Session.step, ha] at hinv
      have hrel : ref'.file ∉ released := by
        intro hf
        have happ' : Appendable ctx.wal ref'.file.1 := by
          rw [WalRecordRef.file, hpart]
          exact happ
        have hlt := h.old _ hf happ'
        rw [WalRecordRef.file, hpart, hgen] at hlt
        exact lt_irrefl _ hlt
      refine ⟨hinv.ok, hinv.good, ?_, hagree, ?_, ?_⟩
      · intro a ha'
        show a.1.gen ≤ wal.activeGen a.1.partId
        rw [hgens]
        obtain rfl | ha' := List.mem_cons.mp ha'
        · rw [hpart, hgen]
        · exact h.below a ha'
      · show Listed ctx.ucmp (ctx.indexSet.insert ctx.ucmp (ctx.partOf r v) ref'.gen
          (indexEntry r ref')) _ _
        rw [← hpart]
        refine listed_insert h.listed ?_ hrel (hn.fresh h hr hnew)
        intro g hg
        rw [hpart] at hg
        exact (h.agree _ g hg happ).trans hgen.symm
      · intro f hf hi
        show f.2 < wal.activeGen f.1
        rw [hgens]
        exact h.old f hf ((hiff f.1).mp hi)

theorem mem_held {a : Acked} : a ∈ s.held ↔ a ∈ s.acked ∧ a.1.file ∉ s.released := by
  rw [Writes.held, List.mem_filter, decide_eq_true_iff]

/-- A partition with a record in its active generation has bytes. -/
theorem activeSize_pos (h : Indexed ctx acked released) {a : Acked} (ha : a ∈ acked)
    (hgen : a.1.gen = ctx.wal.activeGen a.1.partId) : 0 < ctx.wal.activeSize a.1.partId := by
  have hgood := h.good a ha
  obtain ⟨q, hq⟩ := Option.ne_none_iff_exists'.mp hgood.managed
  have hactive : ctx.wal.activeGen a.1.partId = q.gen := by
    simp [PartitionedWalManager.activeGen, hq]
  have hsize := h.ok.sizes _ q hq
  have hlog := hgood.placed.inLog.length_le
  rw [WalRecordRef.file, hgen, hactive, log_of_lookup hq, List.length_drop, List.length_append,
    ← hsize.flushed_eq, ← hsize.total_eq, length_frame] at hlog
  have hge := frameLength_ge a.2
  have htotal : ctx.wal.activeSize a.1.partId = q.totalSize := by
    simp [PartitionedWalManager.activeSize, hq]
  omega

theorem served_freeze (h : Faithful s) {l1 : List L1File} (hwrap : NoWrap s.ctx.wal s.ctx.chooseBatch) :
    Served (s.step (.freeze l1)) := by
  rcases Classical.em (s.ctx.chooseBatch = []) with hb | hb
  · have hctx : s.ctx.freezeBatchPartitions l1 =
        { s.ctx with wal := s.ctx.wal.clearOverTargetFlag } := by
      rw [ZeroFlushContext.freezeBatchPartitions, hb]
    intro a ha
    rw [Writes.step, hctx]
    exact h.served a ha
  · have hby := sealedBy_freezeBatch l1 hb
    have hseals := @seals_loop s.ctx.chooseBatch s.ctx.wal s.ctx.nextEpoch.2 hwrap
    intro a ha
    obtain ⟨hmem, -⟩ := mem_held.mp ha
    have hcache : (s.step (.freeze l1)).ctx.sealedCache = s.ctx.sealedCache.addEpochWithRecoveryAdoption
        (s.ctx.chooseBatch.foldl sealWal (s.ctx.wal, s.ctx.nextEpoch.2)).2 := hby.cache_eq
    have hgen : (s.step (.freeze l1)).ctx.wal.activeGen a.1.partId =
        (s.ctx.chooseBatch.foldl sealWal (s.ctx.wal, s.ctx.nextEpoch.2)).1.activeGen a.1.partId := by
      rw [Writes.step, hby.wal_eq]
      rfl
    have hnew := h.separate.epoch_new hwrap
    rw [hcache, hgen]
    rcases h.served a ha with hactive | hkept
    · rcases Classical.em (a.1.partId ∈ s.ctx.chooseBatch) with hbatch | hbatch
      · -- the generation is sealed by this freeze
        right
        refine ReleasedIndexes.kept_addEpoch hnew (.inr ?_)
        rw [WalRecordRef.file, hactive]
        exact mem_sealed hbatch (hasPartition_of_mem_chooseBatch hbatch)
          (activeSize_pos h.indexed hmem hactive)
      · left
        rw [hseals.other _ hbatch]
        exact hactive
    · exact .inr (ReleasedIndexes.kept_addEpoch hnew (.inl hkept))

theorem current_freezeBatch (ctx : ZeroFlushContext) (l1 : List L1File) :
    (ctx.freezeBatchPartitions l1).tables.current = tableAfter ctx l1 := by
  rw [tableAfter]
  split
  next hb => rw [ZeroFlushContext.freezeBatchPartitions, hb]
  next hb =>
    rw [(sealedBy_freezeBatch l1 hb).tables_eq]
    cases ctx.nextEpoch.1.batchTable ctx.nextEpoch.2.epoch l1 with
    | none => rfl
    | some t =>
      simp [ZeroFlushContext.installTable, PartitionTableSet.installNewVersion,
        PartitionTableSet.current]

theorem ucmp_freezeBatch (ctx : ZeroFlushContext) (l1 : List L1File) :
    (ctx.freezeBatchPartitions l1).ucmp = ctx.ucmp := by
  rcases Classical.em (ctx.chooseBatch = []) with hb | hb
  · rw [ZeroFlushContext.freezeBatchPartitions, hb]
  · exact (sealedBy_freezeBatch l1 hb).ucmp_eq

theorem faithful_freeze (h : Faithful s) {l1 : List L1File} (hok : StepOk s (.freeze l1)) :
    Faithful (s.step (.freeze l1)) := by
  obtain ⟨hwrap, hsmall, hback⟩ := hok
  refine ⟨indexed_freezeBatch h.indexed l1 hwrap, h.numbered, served_freeze h hwrap,
    ReleasedIndexes.separate_step s.ctx (.context (.freezeBatchPartitions l1)) hwrap h.separate, ?_⟩
  refine ⟨?_, ?_, h.placed.tombstones⟩
  · rw [Writes.step, current_freezeBatch]
    exact hsmall
  · rw [Writes.step, current_freezeBatch, ucmp_freezeBatch]
    exact hback

theorem faithful_sync (h : Faithful s) (part : ℕ) : Faithful (s.step (.sync part)) := by
  refine ⟨indexed_sync h.indexed part, h.numbered, ?_,
    ReleasedIndexes.separate_step s.ctx (.context (.sync part)) trivial h.separate,
    ⟨h.placed.small, h.placed.points, h.placed.tombstones⟩⟩
  intro a ha
  show a.1.gen = (s.ctx.wal.sync part).2.activeGen a.1.partId ∨ _
  rw [activeGen_sync]
  exact h.served a ha

theorem faithful_release (h : Faithful s) (epoch : ℕ) : Faithful (s.step (.release epoch)) := by
  have hheld : ∀ a ∈ (s.step (.release epoch)).held, a ∈ s.held ∧ a.1.file ∉ gensOf s.ctx epoch := by
    intro a ha
    obtain ⟨hmem, hrel⟩ := mem_held.mp ha
    have hrel : a.1.file ∉ s.released ++ gensOf s.ctx epoch := hrel
    rw [List.mem_append, not_or] at hrel
    exact ⟨mem_held.mpr ⟨hmem, hrel.1⟩, hrel.2⟩
  refine ⟨indexed_release h.indexed h.separate epoch, h.numbered, ?_,
    ReleasedIndexes.separate_step s.ctx (.context (.releaseEpoch epoch)) trivial h.separate,
    ⟨h.placed.small, ?_, h.placed.tombstones⟩⟩
  · intro a ha
    obtain ⟨hold, hnot⟩ := hheld a ha
    exact (h.served a hold).imp_right fun hkept => ReleasedIndexes.kept_releaseEpoch hkept hnot
  · exact fun a ha => h.placed.points a (hheld a ha).1

theorem numbered_cons (h : Numbered acked) {ref : WalRecordRef} {r : WalRecord}
    (hr : r.seq.toNat < 2 ^ 56) (hnew : ∀ a ∈ acked, a.2.seq ≠ r.seq)
    (hbelow : ∀ a ∈ acked, a.1.partId = ref.partId → a.1.gen ≤ ref.gen)
    (hmono : ∀ a ∈ acked, a.1.partId = ref.partId → a.1.gen < ref.gen →
      a.2.seq.toNat < r.seq.toNat) : Numbered ((ref, r) :: acked) := by
  refine ⟨?_, ?_, ?_⟩
  · intro a ha
    obtain rfl | ha := List.mem_cons.mp ha
    · exact hr
    · exact h.bounded a ha
  · intro a ha b hb heq
    obtain rfl | ha := List.mem_cons.mp ha
    · obtain rfl | hb := List.mem_cons.mp hb
      · rfl
      · exact absurd heq.symm (hnew b hb)
    · obtain rfl | hb := List.mem_cons.mp hb
      · exact absurd heq (hnew a ha)
      · exact h.distinct a ha b hb heq
  · intro a ha b hb hpart hgen
    obtain rfl | ha := List.mem_cons.mp ha
    · obtain rfl | hb := List.mem_cons.mp hb
      · exact absurd hgen (lt_irrefl _)
      · exact absurd (hbelow b hb hpart.symm) (Nat.not_le_of_lt hgen)
    · obtain rfl | hb := List.mem_cons.mp hb
      · exact hmono a ha hpart hgen
      · exact h.mono a ha b hb hpart hgen

/-- A successful `AddRecord` appends to the active generation of the record's partition. -/
theorem addRecord_ok {r : WalRecord} {v rnd : ℕ} {ref : WalRecordRef} {ctx' : ZeroFlushContext}
    (h : ctx.addRecord r v rnd = (.ok ref, ctx')) :
    ref.partId = ctx.partOf r v ∧ ref.gen = ctx.wal.activeGen (ctx.partOf r v) ∧
      (∀ i, ctx'.wal.activeGen i = ctx.wal.activeGen i) ∧ ctx'.sealedCache = ctx.sealedCache ∧
      ctx'.tables = ctx.tables ∧ ctx'.ucmp = ctx.ucmp := by
  rw [ZeroFlushContext.addRecord] at h
  cases ha : ctx.wal.append (ctx.partOf r v) r with
  | mk res wal =>
    rw [ha] at h
    cases res with
    | error e => cases h
    | ok ref' =>
      obtain ⟨rfl, rfl⟩ : ref' = ref ∧ _ = ctx' := by simpa using h
      obtain ⟨hpart, hgen, -, hgens, -⟩ := append_ok ha
      exact ⟨hpart, hgen, hgens, rfl, rfl, rfl⟩

/-- A failed `AddRecord` leaves the context as it was. -/
theorem addRecord_error {r : WalRecord} {v rnd : ℕ} {e : Status} {ctx' : ZeroFlushContext}
    (h : ctx.addRecord r v rnd = (.error e, ctx')) : ctx' = ctx := by
  rw [ZeroFlushContext.addRecord] at h
  cases ha : ctx.wal.append (ctx.partOf r v) r with
  | mk res wal =>
    rw [ha] at h
    cases res with
    | ok ref => cases h
    | error e' =>
      obtain ⟨-, rfl⟩ : e' = e ∧ _ = ctx' := by simpa using h
      rw [append_error ha]

theorem faithful_write (h : Faithful s) {r : WalRecord} {v rnd : ℕ}
    (hok : StepOk s (.write r v rnd)) : Faithful (s.step (.write r v rnd)) := by
  obtain ⟨hframe, hr, hfollows, hroute⟩ := hok
  have hsep := ReleasedIndexes.separate_step s.ctx (.context (.addRecord r v rnd)) trivial h.separate
  replace hsep : Separate (s.ctx.addRecord r v rnd).2 := hsep
  rw [Writes.step]
  cases hadd : s.ctx.addRecord r v rnd with
  | mk res ctx' =>
    cases res with
    | error e =>
      obtain rfl := addRecord_error hadd
      exact h
    | ok ref =>
      rw [hadd] at hsep
      obtain ⟨hpart, hgen, hgens, hcache, htables, hucmp⟩ := addRecord_ok hadd
      have hnew : ∀ a ∈ s.acked, a.2.seq ≠ r.seq := fun a ha => (hfollows a ha).1
      have hheld : ∀ a ∈ Writes.held { s with ctx := ctx', acked := (ref, r) :: s.acked },
          a = (ref, r) ∨ a ∈ s.held := by
        intro a ha
        obtain ⟨hmem, hrel⟩ := mem_held.mp ha
        exact (List.mem_cons.mp hmem).imp_right fun hmem => mem_held.mpr ⟨hmem, hrel⟩
      refine ⟨indexed_write h.indexed h.numbered hadd hframe hr hnew, ?_, ?_, hsep, ?_, ?_, ?_⟩
      · refine numbered_cons h.numbered hr hnew ?_ ?_
        · intro a ha ha'
          have hbelow := h.indexed.below a ha
          rw [ha', hpart] at hbelow
          exact hgen ▸ hbelow
        · intro a ha ha' hlt
          exact (hfollows a ha).2 (ha'.trans hpart) (hgen ▸ hlt)
      · intro a ha
        show a.1.gen = ctx'.wal.activeGen a.1.partId ∨ Kept ctx'.sealedCache a.1.file
        rw [hgens, hcache]
        obtain rfl | ha := hheld a ha
        · left
          rw [hpart]
          exact hgen
        · exact h.served a ha
      · show ctx'.tables.current.partitions ≤ kRangeDelPartId
        rw [htables]
        exact h.placed.small
      · intro a ha htype
        show ctx'.tables.current.route ctx'.ucmp a.2.key = a.1.partId
        rw [htables, hucmp]
        obtain rfl | ha := hheld a ha
        · rw [hpart, ZeroFlushContext.partOf, if_neg htype, hroute htype]
          rfl
        · exact h.placed.points a ha htype
      · intro a ha htype
        obtain rfl | ha := List.mem_cons.mp ha
        · rw [hpart, ZeroFlushContext.partOf, if_pos htype]
        · exact h.placed.tombstones a ha htype

theorem faithful_step (s : Writes) (op : IndexOp) (hok : StepOk s op) (h : Faithful s) :
    Faithful (s.step op) := by
  cases op with
  | write r v rnd => exact faithful_write h hok
  | sync part => exact faithful_sync h part
  | freeze l1 => exact faithful_freeze h hok
  | release epoch => exact faithful_release h epoch

def Writes.start (zfo : ZeroFlushOptions) (ucmp : UserComparator) (tables : PartitionTableSet)
    (sampler : Option KeySampler) : Writes :=
  { ctx := ContextRuns.start zfo ucmp tables sampler }

/-- The first session finds no files. -/
theorem start_eq (zfo : ZeroFlushOptions) (ucmp : UserComparator) (tables : PartitionTableSet)
    (sampler : Option KeySampler) :
    ∃ cache, ContextRuns.start zfo ucmp tables sampler = ZeroFlushContext.ensureActives
      { zfo := zfo, ucmp := ucmp, tables := tables, sampler := sampler, sealedCache := cache
        wal := (PartitionedWalManager.create Env.empty zfo.partitions zfo.partitionTargetBytes).open_ } := by
  obtain ⟨cache, hrec⟩ := recover_eq
    { zfo := zfo, ucmp := ucmp, tables := tables, sampler := sampler
      wal := (PartitionedWalManager.create Env.empty zfo.partitions zfo.partitionTargetBytes).open_ }
  exact ⟨cache, hrec⟩

theorem listed_ensureActives (hindex : ctx.indexSet = {}) :
    Listed ctx.ucmp ctx.ensureActives.indexSet [] [] := by
  have hall : Sorted ctx.ucmp ctx.ensureActives.indexSet ∧ Filtered ctx.ensureActives.indexSet ∧
      (∀ q, ctx.ensureActives.indexSet.frozenChain q = []) ∧
      ∀ q, ∀ i ∈ ctx.ensureActives.indexSet.chain q, i.entries = [] :=
    ensureActive_empty hindex ctx.recoverParts fun p => maxGen p ctx.wal.env.listFiles
  obtain ⟨hs, hf, hfrozen, hempty⟩ := hall
  refine ⟨?_, hs, hf, ?_, ?_, ?_⟩
  · intro p hp
    rw [chain_of_no_active hp, hfrozen, List.reverse_nil]
  · intro p
    cases ha : ctx.ensureActives.indexSet.active.lookup p with
    | none =>
      rw [chain_of_no_active ha, hfrozen, List.reverse_nil]
      exact List.Pairwise.nil
    | some a =>
      rw [chain_of_active ha, hfrozen, List.reverse_nil]
      exact List.pairwise_singleton _ _
  · intro p i hi x
    rw [hempty p i hi]
    simp
  · intro a ha
    cases ha

theorem faithful_start (zfo : ZeroFlushOptions) (ucmp : UserComparator) (tables : PartitionTableSet)
    (sampler : Option KeySampler) (hsmall : tables.current.partitions ≤ kRangeDelPartId) :
    Faithful (Writes.start zfo ucmp tables sampler) := by
  obtain ⟨cache, heq⟩ := start_eq zfo ucmp tables sampler
  have hgens := gensAgree_start zfo ucmp tables sampler
  have hsep := ReleasedIndexes.separate_start zfo ucmp tables sampler
  have hnone : ∀ a : Acked, a ∉ (Writes.start zfo ucmp tables sampler).acked := fun a ha => by cases ha
  have hheld : ∀ a : Acked, a ∉ (Writes.start zfo ucmp tables sampler).held :=
    fun a ha => hnone a (mem_held.mp ha).1
  refine ⟨⟨?_, fun a ha => absurd ha (hnone a), fun a ha => absurd ha (hnone a), hgens, ?_, ?_⟩,
    ⟨fun a ha => absurd ha (hnone a), fun a ha => absurd ha (hnone a),
      fun a ha => absurd ha (hnone a)⟩, fun a ha => absurd ha (hheld a), hsep,
    ⟨?_, fun a ha => absurd ha (hheld a), fun a ha => absurd ha (hnone a)⟩⟩
  · rw [Writes.start, heq]
    exact (WalReferenceStability.inv_start zfo.partitions zfo.partitionTargetBytes).ok
  · rw [Writes.start, heq]
    exact @listed_ensureActives
      { zfo := zfo, ucmp := ucmp, tables := tables, sampler := sampler, sealedCache := cache
        wal := (PartitionedWalManager.create Env.empty zfo.partitions zfo.partitionTargetBytes).open_ }
      rfl
  · intro f hf
    cases hf
  · rw [Writes.start, heq]
    exact hsmall

theorem readable_of_kept {c : SealedFileCache} {f : FileId} (h : Kept c f) : c.readable f = true := by
  rw [SealedFileCache.readable, Bool.or_eq_true, Bool.or_eq_true, decide_eq_true_iff,
    decide_eq_true_iff]
  obtain ⟨e, se, hse, hmem⟩ | hwait := h
  · right
    rw [List.any_eq_true]
    exact ⟨⟨e, se⟩, AList.mem_lookup_iff.mp hse, decide_eq_true hmem⟩
  · exact .inl hwait

/-- The value of every held record can be read. -/
theorem Faithful.readValue (h : Faithful s) {a : Acked} (ha : a ∈ s.held) :
    s.ctx.readValue a.1 = .ok (valueOf a.2) := by
  obtain ⟨hmem, -⟩ := mem_held.mp ha
  have hgood := h.indexed.good a hmem
  obtain ⟨q, hq⟩ := Option.ne_none_iff_exists'.mp hgood.managed
  have hhas : s.ctx.wal.hasPartition a.1.partId = true := hasPartition_iff.mpr ⟨q, hq⟩
  have hread := readValue_of_placed hq (h.indexed.ok.sizes _ q hq) hgood.short hgood.placed
  rw [ReadPaths.readValue, if_neg (by simp [hhas])] at hread
  rw [ZeroFlushContext.readValue, if_pos hhas]
  split
  next hactive =>
    rw [if_pos hactive] at hread
    exact hread
  next hsealed =>
    rw [if_neg hsealed] at hread
    have hexists : s.ctx.wal.env.exists? a.1.file = true := by
      by_contra hnot
      rw [Env.content_of_not_exists (by simpa using hnot), readFromSealed, List.drop_nil,
        List.take_nil] at hread
      cases hread
    rw [if_pos (readable_of_kept ((h.served a ha).resolve_left hsealed)), if_pos hexists]
    exact hread

end ZeroFlush.HeldVersions
