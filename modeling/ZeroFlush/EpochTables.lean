import ZeroFlush.ContextHistory
import ZeroFlush.SealedEpochs

/-! # The table version of an epoch

A record is routed by the table its write group captured. The epoch that seals its generation
names the table that was current when the freeze began, and its generations are materialized with
that table. -/
namespace ZeroFlush.EpochTables
open FixedWidthCodec FiniteMaps WalFormat WalFiles PartitionedWal WalLogs WalOpening UserKeys
  PartitionTables SealedFiles Context ContextRuns ContextHistory SealedEpochs GuardedRuns

/-- A record, the file it was appended to and the table version that routed it. -/
structure RoutedRecord where
  file : FileId
  record : WalRecord
  version : ℕ
  deriving DecidableEq, Repr

/-- A context with the routed records its files hold; range deletions are not routed. -/
structure RoutedRun where
  ctx : ZeroFlushContext
  routed : List RoutedRecord

inductive RoutedOp
  | context (op : ContextOp)
  | handOffSkipped (epoch : ℕ) (gens : List FileId) (partBytes : Map ℕ ℕ)

namespace RoutedRun

def start (zfo : ZeroFlushOptions) (ucmp : UserComparator) (tables : PartitionTableSet)
    (sampler : Option KeySampler) : RoutedRun :=
  ⟨ContextRuns.start zfo ucmp tables sampler, []⟩

def stored (ctx : ZeroFlushContext) (routed : List RoutedRecord) : List RoutedRecord :=
  routed.filter fun x => ctx.wal.env.exists? x.file

/-- The record of a successful append. -/
def appended (ctx : ZeroFlushContext) (r : WalRecord) (tableVersion rnd : ℕ) : List RoutedRecord :=
  match (ctx.addRecord r tableVersion rnd).1 with
  | .ok ref => if r.type = kTypeRangeDeletion then [] else [⟨ref.file, r, tableVersion⟩]
  | .error _ => []

def step (s : RoutedRun) : RoutedOp → RoutedRun
  | .context op =>
    let ctx := ContextRuns.step s.ctx op
    ⟨ctx, match op with
      | .addRecord r v rnd => s.routed ++ appended s.ctx r v rnd
      | _ => stored ctx s.routed⟩
  | .handOffSkipped epoch gens partBytes =>
    ⟨{ s.ctx with
      sealedCache := s.ctx.sealedCache.handOffSkippedToRecovery epoch gens partBytes }, s.routed⟩

end RoutedRun

/-- Every record of a generation of an epoch was routed by the table the epoch names. -/
def CarriesTable (s : RoutedRun) : Prop :=
  ∀ e se, s.ctx.sealedCache.epochs.lookup e = some se → ∀ f ∈ se.gens, ∀ x ∈ s.routed,
    x.file = f → x.version = se.tableVersion

/-- A freeze of `parts`: generations do not wrap around, and when a table is installed all
partitions whose active file has records are frozen. -/
def FreezeOk (s : RoutedRun) (parts : List ℕ) (table : Option PartitionTable) : Prop :=
  (∀ p ∈ parts, s.ctx.wal.activeGen p + parts.length < 2 ^ 32) ∧
    (table.isSome = true → ∀ x ∈ s.routed, x.file.2 = s.ctx.wal.activeGen x.file.1 →
      x.file.1 ∈ parts)

instance (s : RoutedRun) (parts : List ℕ) (table : Option PartitionTable) :
    Decidable (FreezeOk s parts table) := inferInstanceAs (Decidable (_ ∧ _))

/-- The condition on a step: a record is routed by the current table, a new table leaves no
routed record behind, skipped generations are handed off before the next table and a new session
finds records of its current table only. -/
def StepOk (s : RoutedRun) : RoutedOp → Prop
  | .context (.addRecord r v _) => r.type = kTypeRangeDeletion ∨
      v = s.ctx.tables.currentVersion ∧ s.ctx.partOf r v ≠ kRangeDelPartId
  | .context (.freezeBatchPartitions l1) => FreezeOk s s.ctx.chooseBatch
      (s.ctx.nextEpoch.1.batchTable s.ctx.nextEpoch.2.epoch l1)
  | .context .freezeOnePartition => FreezeOk s s.ctx.chooseOne.toList none
  | .context (.sealEpochAndSwitch l1) => FreezeOk s s.ctx.tables.current.partIds
      (s.ctx.nextEpoch.1.sealTable s.ctx.nextEpoch.2.epoch l1)
  | .context (.reopen tables) | .context (.crash _ tables) =>
    ∀ x ∈ s.routed, s.ctx.wal.env.exists? x.file = true → x.version = tables.currentVersion
  | .context (.sync _) | .context (.releaseEpoch _) | .context .purgeSealedFiles => True
  | .handOffSkipped epoch gens _ => ∀ f ∈ gens, ∃ se ∈ s.ctx.sealedCache.epochs.lookup epoch,
      f ∈ se.gens ∧ se.tableVersion = s.ctx.tables.currentVersion

instance decidableStepOk (s : RoutedRun) : (op : RoutedOp) → Decidable (StepOk s op)
  | .context (.addRecord r v _) => inferInstanceAs (Decidable (r.type = kTypeRangeDeletion ∨
      v = s.ctx.tables.currentVersion ∧ s.ctx.partOf r v ≠ kRangeDelPartId))
  | .context (.freezeBatchPartitions l1) => inferInstanceAs (Decidable (FreezeOk s s.ctx.chooseBatch
      (s.ctx.nextEpoch.1.batchTable s.ctx.nextEpoch.2.epoch l1)))
  | .context .freezeOnePartition => inferInstanceAs
      (Decidable (FreezeOk s s.ctx.chooseOne.toList none))
  | .context (.sealEpochAndSwitch l1) => inferInstanceAs (Decidable (FreezeOk s
      s.ctx.tables.current.partIds (s.ctx.nextEpoch.1.sealTable s.ctx.nextEpoch.2.epoch l1)))
  | .context (.reopen tables) | .context (.crash _ tables) => inferInstanceAs
      (Decidable (∀ x ∈ s.routed, s.ctx.wal.env.exists? x.file = true →
        x.version = tables.currentVersion))
  | .context (.sync _) | .context (.releaseEpoch _) | .context .purgeSealedFiles => .isTrue trivial
  | .handOffSkipped epoch gens _ => inferInstanceAs (Decidable (∀ f ∈ gens,
      ∃ se ∈ s.ctx.sealedCache.epochs.lookup epoch, f ∈ se.gens ∧
        se.tableVersion = s.ctx.tables.currentVersion))

/-- A generation of a table partition that is no longer active. -/
def Sealed (wal : PartitionedWalManager) (f : FileId) : Prop :=
  f.1 < wal.partitions → f.2 < wal.activeGen f.1

structure Carried (s : RoutedRun) : Prop where
  known : ∀ i, s.ctx.wal.hasPartition i = true → i < s.ctx.wal.partitions ∨ i = kRangeDelPartId
  table : ∀ i < s.ctx.wal.partitions, s.ctx.wal.hasPartition i = true
  counter : ∀ e se, s.ctx.sealedCache.epochs.lookup e = some se → e ≤ s.ctx.epochCounter
  epochs : ∀ e se, s.ctx.sealedCache.epochs.lookup e = some se → ∀ f ∈ se.gens,
    Sealed s.ctx.wal f ∧ ∀ x ∈ s.routed, x.file = f → x.version = se.tableVersion
  waiting : ∀ f, f ∈ s.ctx.sealedCache.recoveryGens ∨ f ∈ s.ctx.sealedCache.skipGens →
    Sealed s.ctx.wal f ∧ ∀ x ∈ s.routed, x.file = f → x.version = s.ctx.tables.currentVersion
  active : ∀ x ∈ s.routed, x.file.1 < s.ctx.wal.partitions ∧
    x.file.2 ≤ s.ctx.wal.activeGen x.file.1 ∧
    (x.file.2 = s.ctx.wal.activeGen x.file.1 → x.version = s.ctx.tables.currentVersion)

variable {s : RoutedRun}

theorem Carried.carriesTable (h : Carried s) : CarriesTable s :=
  fun e se hse f hf => (h.epochs e se hse f hf).2

/-- A step that keeps the partitions and generations, the tables and the waiting sets. -/
theorem carried_congr (h : Carried s) {s' : RoutedRun}
    (hpart : s'.ctx.wal.partitions = s.ctx.wal.partitions)
    (hhas : ∀ i, s'.ctx.wal.hasPartition i = s.ctx.wal.hasPartition i)
    (hgen : ∀ i, s'.ctx.wal.activeGen i = s.ctx.wal.activeGen i)
    (hver : s'.ctx.tables.currentVersion = s.ctx.tables.currentVersion)
    (hcount : s'.ctx.epochCounter = s.ctx.epochCounter)
    (hshrink : Shrinks s.ctx.sealedCache s'.ctx.sealedCache)
    (hwait : ∀ f, f ∈ s'.ctx.sealedCache.recoveryGens ∨ f ∈ s'.ctx.sealedCache.skipGens →
      Sealed s.ctx.wal f ∧ ∀ x ∈ s.routed, x.file = f → x.version = s.ctx.tables.currentVersion)
    (hsub : s'.routed ⊆ s.routed) : Carried s' := by
  have hsealed : ∀ f, Sealed s.ctx.wal f → Sealed s'.ctx.wal f := by
    intro f hf hlt
    rw [hgen]
    exact hf (hpart ▸ hlt)
  refine ⟨?_, ?_, ?_, ?_, ?_, ?_⟩
  · intro i hi
    rw [hpart]
    exact h.known i (hhas i ▸ hi)
  · intro i hi
    rw [hhas]
    exact h.table i (hpart ▸ hi)
  · intro e se hse
    obtain ⟨old, hold, -, -⟩ := hshrink e se hse
    rw [hcount]
    exact h.counter e old hold
  · intro e se hse f hf
    obtain ⟨old, hold, hv, hg⟩ := hshrink e se hse
    obtain ⟨hs, hx⟩ := h.epochs e old hold f (hg hf)
    exact ⟨hsealed f hs, fun x hmem he => (hx x (hsub hmem) he).trans hv.symm⟩
  · intro f hf
    obtain ⟨hs, hx⟩ := hwait f hf
    refine ⟨hsealed f hs, fun x hmem he => ?_⟩
    rw [hver]
    exact hx x (hsub hmem) he
  · intro x hx
    rw [hpart, hgen, hver]
    exact h.active x (hsub hx)

theorem partitions_sealLoop (ps : List ℕ) (m : PartitionedWalManager) (se : SealedEpoch) :
    (ps.foldl sealWal (m, se)).1.partitions = m.partitions := by
  induction ps generalizing m se with
  | nil => rfl
  | cons p ps ih => exact (ih _ _).trans (partitions_freeze m p)

/-- A freeze of `ps` registers the next epoch under the old table version. -/
theorem carried_seal (h : Carried s) {ps : List ℕ} {s' : RoutedRun}
    (hwrap : ∀ p ∈ ps, s.ctx.wal.activeGen p + ps.length < 2 ^ 32)
    (hwal : s'.ctx.wal =
      (ps.foldl sealWal (s.ctx.wal, s.ctx.nextEpoch.2)).1.clearOverTargetFlag)
    (hcache : s'.ctx.sealedCache = s.ctx.sealedCache.addEpochWithRecoveryAdoption
      (ps.foldl sealWal (s.ctx.wal, s.ctx.nextEpoch.2)).2)
    (hcount : s'.ctx.epochCounter = s.ctx.epochCounter + 1)
    (hver : s'.ctx.tables.currentVersion = s.ctx.tables.currentVersion ∨
      ∀ x ∈ s.routed, x.file.2 = s.ctx.wal.activeGen x.file.1 → x.file.1 ∈ ps)
    (hsub : s'.routed ⊆ s.routed) : Carried s' := by
  have hseals := @seals_loop ps s.ctx.wal s.ctx.nextEpoch.2 hwrap
  have hpart : s'.ctx.wal.partitions = s.ctx.wal.partitions := by
    rw [hwal]
    exact partitions_sealLoop ps _ _
  have hhas : ∀ i, s'.ctx.wal.hasPartition i = s.ctx.wal.hasPartition i := by
    intro i
    rw [hwal]
    exact hseals.hasPartition_eq i
  have hgen : ∀ i, s'.ctx.wal.activeGen i =
      (ps.foldl sealWal (s.ctx.wal, s.ctx.nextEpoch.2)).1.activeGen i := by
    intro i
    rw [hwal]
    rfl
  have hsealed : ∀ f, Sealed s.ctx.wal f → Sealed s'.ctx.wal f := by
    intro f hf hlt
    rw [hgen]
    exact (hf (hpart ▸ hlt)).trans_le (hseals.le f.1)
  have hnew : s.ctx.sealedCache.epochs.lookup
      (ps.foldl sealWal (s.ctx.wal, s.ctx.nextEpoch.2)).2.epoch = none := by
    by_contra hne
    obtain ⟨se, hse⟩ := Option.ne_none_iff_exists'.mp hne
    have hle := h.counter _ se hse
    have hepoch : (ps.foldl sealWal (s.ctx.wal, s.ctx.nextEpoch.2)).2.epoch =
        s.ctx.epochCounter + 1 := hseals.epoch_eq
    omega
  obtain ⟨merged, hepochs, hmver, hmgens, hrec, hskip⟩ := addEpoch_spec hnew
  rw [← hcache] at hepochs hrec hskip
  -- what the generations of the new epoch are
  have hmerged : ∀ f ∈ merged.gens, Sealed s'.ctx.wal f ∧
      ∀ x ∈ s.routed, x.file = f → x.version = s.ctx.tables.currentVersion := by
    intro f hf
    obtain hown | hwaiting := (hmgens f).mp hf
    · obtain hnil | ⟨-, hge, hlt⟩ := hseals.gens f hown
      · exact absurd hnil List.not_mem_nil
      · refine ⟨fun _ => ?_, ?_⟩
        · rw [hgen]
          exact hlt
        · rintro x hx rfl
          obtain ⟨-, hle, hcur⟩ := h.active x hx
          exact hcur (le_antisymm hle hge)
    · obtain ⟨hs, hx⟩ := h.waiting f hwaiting
      exact ⟨hsealed f hs, hx⟩
  have hlookup : ∀ e se, s'.ctx.sealedCache.epochs.lookup e = some se →
      (e = s.ctx.epochCounter + 1 ∧ se = merged) ∨
        s.ctx.sealedCache.epochs.lookup e = some se := by
    intro e se hse
    rw [hepochs, lookup_insert_eq] at hse
    split at hse
    next he => exact .inl ⟨he.trans hseals.epoch_eq, (Option.some.inj hse).symm⟩
    next => exact .inr hse
  refine ⟨?_, ?_, ?_, ?_, ?_, ?_⟩
  · intro i hi
    rw [hpart]
    exact h.known i (hhas i ▸ hi)
  · intro i hi
    rw [hhas]
    exact h.table i (hpart ▸ hi)
  · intro e se hse
    rw [hcount]
    obtain ⟨rfl, -⟩ | hold := hlookup e se hse
    · exact le_rfl
    · exact (h.counter e se hold).trans (Nat.le_succ _)
  · intro e se hse f hf
    obtain ⟨-, rfl⟩ | hold := hlookup e se hse
    · obtain ⟨hs, hx⟩ := hmerged f hf
      refine ⟨hs, fun x hmem he => (hx x (hsub hmem) he).trans ?_⟩
      exact (hmver.trans hseals.tableVersion_eq).symm
    · obtain ⟨hs, hx⟩ := h.epochs e se hold f hf
      exact ⟨hsealed f hs, fun x hmem he => hx x (hsub hmem) he⟩
  · intro f hf
    rw [hrec, hskip] at hf
    exact absurd hf (by simp)
  · intro x hx
    obtain ⟨hlt, hle, hcur⟩ := h.active x (hsub hx)
    have hmono := hseals.le x.file.1
    rw [hpart, hgen]
    refine ⟨hlt, hle.trans hmono, ?_⟩
    intro he
    have hactive : x.file.2 = s.ctx.wal.activeGen x.file.1 := le_antisymm hle (he ▸ hmono)
    obtain hver | hall := hver
    · rw [hver]
      exact hcur hactive
    · -- the partition was frozen, so its active generation is a later one
      have hfrozen := hseals.lt x.file.1 (hall x (hsub hx) hactive) (h.table _ hlt)
      omega

theorem stored_subset (ctx : ZeroFlushContext) (routed : List RoutedRecord) :
    RoutedRun.stored ctx routed ⊆ routed := List.filter_subset_self _

/-- Without a new table the tables stay, and a new one leaves no routed record behind. -/
theorem version_sealed {ctx' : ZeroFlushContext} {ps : List ℕ} {fs : List (ℕ × ℕ)}
    {t : Option PartitionTable} (h : SealedBy s.ctx ctx' ps fs t) (hok : FreezeOk s ps t) :
    ctx'.tables.currentVersion = s.ctx.tables.currentVersion ∨
      ∀ x ∈ s.routed, x.file.2 = s.ctx.wal.activeGen x.file.1 → x.file.1 ∈ ps := by
  cases t with
  | none => exact .inl (congrArg PartitionTableSet.currentVersion h.tables_eq)
  | some t => exact .inr (hok.2 rfl)

theorem carried_sealedBy (h : Carried s) {ctx' : ZeroFlushContext} {ps : List ℕ}
    {fs : List (ℕ × ℕ)} {t : Option PartitionTable} (hby : SealedBy s.ctx ctx' ps fs t)
    (hok : FreezeOk s ps t) : Carried ⟨ctx', RoutedRun.stored ctx' s.routed⟩ :=
  carried_seal h hok.1 hby.wal_eq hby.cache_eq hby.counter_eq (version_sealed hby hok)
    (stored_subset _ _)

theorem carried_clearOverTargetFlag (h : Carried s) :
    Carried ⟨{ s.ctx with wal := s.ctx.wal.clearOverTargetFlag }, RoutedRun.stored
      { s.ctx with wal := s.ctx.wal.clearOverTargetFlag } s.routed⟩ :=
  carried_congr h rfl (fun _ => rfl) (fun _ => rfl) rfl rfl (Shrinks.refl _) h.waiting
    (stored_subset _ _)

private theorem carried_freezeBatch (h : Carried s) {l1 : List L1File}
    (hok : StepOk s (.context (.freezeBatchPartitions l1))) :
    Carried (s.step (.context (.freezeBatchPartitions l1))) := by
  cases hb : s.ctx.chooseBatch with
  | nil =>
    have hctx : s.ctx.freezeBatchPartitions l1 =
        { s.ctx with wal := s.ctx.wal.clearOverTargetFlag } := by
      rw [ZeroFlushContext.freezeBatchPartitions, hb]
    show Carried ⟨s.ctx.freezeBatchPartitions l1, RoutedRun.stored _ s.routed⟩
    rw [show ContextRuns.step s.ctx (.freezeBatchPartitions l1) = _ from hctx, hctx]
    exact carried_clearOverTargetFlag h
  | cons p ps => exact carried_sealedBy h (sealedBy_freezeBatch l1 (by simp [hb])) hok

private theorem carried_freezeOne (h : Carried s)
    (hok : StepOk s (.context .freezeOnePartition)) :
    Carried (s.step (.context .freezeOnePartition)) := by
  cases hc : s.ctx.chooseOne with
  | none =>
    have hctx : s.ctx.freezeOnePartition =
        { s.ctx with wal := s.ctx.wal.clearOverTargetFlag } := by
      rw [ZeroFlushContext.freezeOnePartition, hc]
    show Carried ⟨s.ctx.freezeOnePartition, RoutedRun.stored _ s.routed⟩
    rw [show ContextRuns.step s.ctx .freezeOnePartition = _ from hctx, hctx]
    exact carried_clearOverTargetFlag h
  | some target =>
    obtain ⟨gen, hby⟩ := sealedBy_freezeOne hc
    rw [StepOk, hc] at hok
    exact carried_sealedBy h hby hok

private theorem carried_sealEpoch (h : Carried s) {l1 : List L1File}
    (hok : StepOk s (.context (.sealEpochAndSwitch l1))) :
    Carried (s.step (.context (.sealEpochAndSwitch l1))) := by
  have hby := sealedBy_sealEpoch s.ctx l1
  have hepoch : (s.ctx.tables.current.partIds.foldl sealWal (s.ctx.wal, s.ctx.nextEpoch.2)).2.epoch =
      s.ctx.nextEpoch.2.epoch := (seals_loop hok.1).epoch_eq
  rw [hepoch] at hby
  exact carried_sealedBy h hby hok

/-- A record goes to the active file of a partition of the table. -/
private theorem carried_addRecord (h : Carried s) {r : WalRecord} {v rnd : ℕ}
    (hok : StepOk s (.context (.addRecord r v rnd))) :
    Carried (s.step (.context (.addRecord r v rnd))) := by
  have hctx : (s.step (.context (.addRecord r v rnd))).ctx = (s.ctx.addRecord r v rnd).2 := rfl
  have hrouted : (s.step (.context (.addRecord r v rnd))).routed =
      s.routed ++ RoutedRun.appended s.ctx r v rnd := rfl
  rw [RoutedRun.appended] at hrouted
  rw [ZeroFlushContext.addRecord] at hctx hrouted
  cases ha : s.ctx.wal.append (s.ctx.partOf r v) r with
  | mk res wal =>
    rw [ha] at hctx hrouted
    cases res with
    | error e =>
      obtain rfl := append_error ha
      refine carried_congr h ?_ ?_ ?_ ?_ ?_ ?_ ?_ ?_
      · rw [hctx]
      · intro i; rw [hctx]
      · intro i; rw [hctx]
      · rw [hctx]
      · rw [hctx]
      · rw [hctx]; exact Shrinks.refl _
      · rw [hctx]; exact h.waiting
      · rw [hrouted, List.append_nil]
        exact List.Subset.refl _
    | ok ref =>
      obtain ⟨hpart, hgen, happ, hgens, hiff⟩ := append_ok ha
      obtain ⟨-, hmono⟩ := hasPartition_append ha
      have hn : wal.partitions = s.ctx.wal.partitions := by
        rw [← partitions_append s.ctx.wal (s.ctx.partOf r v) r, ha]
      have hsealed : ∀ f, Sealed s.ctx.wal f → Sealed wal f := by
        intro f hf hlt
        rw [hgens]
        exact hf (hn ▸ hlt)
      -- the new record, if it is routed
      have hnew : ∀ x ∈ (s.step (.context (.addRecord r v rnd))).routed, x ∈ s.routed ∨
          x.file.1 < s.ctx.wal.partitions ∧ x.file.2 = s.ctx.wal.activeGen x.file.1 ∧
            x.version = s.ctx.tables.currentVersion := by
        intro x hx
        rw [hrouted] at hx
        refine (List.mem_append.mp hx).imp_right fun hx => ?_
        dsimp only at hx
        split at hx
        next => exact absurd hx List.not_mem_nil
        next ht =>
          obtain ⟨hv, hrd⟩ := hok.resolve_left ht
          obtain rfl := List.mem_singleton.mp hx
          have hfile : ref.file = (s.ctx.partOf r v, s.ctx.wal.activeGen (s.ctx.partOf r v)) :=
            Prod.ext hpart hgen
          dsimp only
          rw [hfile]
          exact ⟨(h.known _ (happ.resolve_right hrd)).resolve_right hrd, rfl, hv⟩
      have hold : ∀ f, Sealed s.ctx.wal f → ∀ x ∈ (s.step (.context (.addRecord r v rnd))).routed,
          x.file = f → x ∈ s.routed := by
        rintro f hf x hx rfl
        refine (hnew x hx).resolve_right fun hactive => ?_
        have hlt := hf hactive.1
        omega
      refine ⟨?_, ?_, ?_, ?_, ?_, ?_⟩
      · intro i hi
        rw [hctx] at hi ⊢
        rw [hn]
        exact ((hiff i).mp (.inl hi)).elim (h.known i) .inr
      · intro i hi
        rw [hctx] at hi ⊢
        exact hmono i (h.table i (hn ▸ hi))
      · rw [hctx]
        exact h.counter
      · rw [hctx]
        intro e se hse f hf
        obtain ⟨hs, hx⟩ := h.epochs e se hse f hf
        exact ⟨hsealed f hs, fun x hmem he => hx x (hold f hs x hmem he) he⟩
      · rw [hctx]
        intro f hf
        obtain ⟨hs, hx⟩ := h.waiting f hf
        exact ⟨hsealed f hs, fun x hmem he => hx x (hold f hs x hmem he) he⟩
      · rw [hctx]
        intro x hx
        rw [hn, hgens]
        obtain hmem | ⟨hlt, hact, hv⟩ := hnew x hx
        · exact h.active x hmem
        · exact ⟨hlt, hact.le, fun _ => hv⟩

/-- A new session whose records were all routed by its current table. -/
private theorem carried_recover {ctx : ZeroFlushContext} {env : Env} {n target : ℕ}
    {routed : List RoutedRecord}
    (hwal : ctx.wal = (PartitionedWalManager.create env n target).open_)
    (hepochs : ctx.sealedCache.epochs = ∅) (hrec : ctx.sealedCache.recoveryGens = [])
    (hskip : ctx.sealedCache.skipGens = [])
    (hrouted : ∀ x ∈ routed, x.file.1 < n ∧ env.exists? x.file = true ∧
      x.version = ctx.tables.currentVersion) : Carried ⟨ctx.recover, routed⟩ := by
  have hwal' := (wal_recover ctx).trans hwal
  obtain ⟨htables', -, hepochs', hrec', hskip'⟩ := recover_spec ctx
  have hpart : ctx.recover.wal.partitions = n := by rw [hwal']; rfl
  have hgen : ∀ i, ctx.recover.wal.activeGen i = if i < n then maxGen i env.listFiles else 0 := by
    intro i
    rw [hwal', activeGen_openCreate]
  have hhas : ∀ i, ctx.recover.wal.hasPartition i = true ↔ i < n := by
    intro i
    rw [hwal', PartitionedWalManager.hasPartition, lookup_openCreate]
    split
    next hi => simp [hi]
    next hi => simp [hi]
  have hnone : ∀ e se, ctx.recover.sealedCache.epochs.lookup e ≠ some se := by
    intro e se hse
    rw [hepochs', hepochs] at hse
    cases hse
  refine ⟨?_, ?_, fun e se hse => absurd hse (hnone e se), fun e se hse => absurd hse (hnone e se),
    ?_, ?_⟩
  · intro i hi
    exact .inl (lt_of_lt_of_eq ((hhas i).mp hi) hpart.symm)
  · intro i hi
    exact (hhas i).mpr (lt_of_lt_of_eq hi hpart)
  · intro f hf
    refine ⟨?_, fun x hx _ => ?_⟩
    · intro hlt
      dsimp only at hlt hf ⊢
      rw [hskip', hskip] at hf
      have hf := (hrec' f).mp (hf.resolve_right List.not_mem_nil)
      rw [hrec] at hf
      -- an orphan lies below the newest generation of its partition
      obtain ⟨p, -, hmem⟩ := List.mem_flatMap.mp (hf.resolve_left List.not_mem_nil)
      obtain ⟨-, hdec⟩ := List.mem_filter.mp hmem
      obtain ⟨rfl, hbelow⟩ := of_decide_eq_true hdec
      rw [hgen, if_pos (hpart ▸ hlt)]
      rw [hwal] at hbelow
      exact hbelow
    · dsimp only
      rw [htables']
      exact (hrouted x hx).2.2
  · intro x hx
    obtain ⟨hlt, hex, hv⟩ := hrouted x hx
    dsimp only
    rw [hpart, hgen, if_pos hlt, htables']
    exact ⟨hlt, le_maxGen (Env.mem_listFiles.mpr hex), fun _ => hv⟩

private theorem carried_handOff (h : Carried s) {epoch : ℕ} {gens : List FileId}
    {partBytes : Map ℕ ℕ} (hok : StepOk s (.handOffSkipped epoch gens partBytes)) :
    Carried (s.step (.handOffSkipped epoch gens partBytes)) := by
  obtain ⟨hshrink, hrec, hskip⟩ := handOff_spec s.ctx.sealedCache epoch gens partBytes
  refine carried_congr h rfl (fun _ => rfl) (fun _ => rfl) rfl rfl hshrink ?_ (List.Subset.refl _)
  intro f hf
  obtain hf | hf := hf
  · apply h.waiting f
    rw [← hrec]
    exact .inl hf
  · obtain hf | hf := mem_emplaceAll.mp (hskip ▸ hf)
    · exact h.waiting f (.inr hf)
    · obtain ⟨se, hse, hmem, hv⟩ := hok f hf
      rw [← hv]
      exact h.epochs epoch se hse f hmem

theorem carried_step (h : Carried s) {op : RoutedOp} (hok : StepOk s op) : Carried (s.step op) := by
  cases op with
  | handOffSkipped epoch gens partBytes => exact carried_handOff h hok
  | context op =>
    cases op with
    | addRecord r v rnd => exact carried_addRecord h hok
    | sync part =>
      exact carried_congr h (partitions_sync _ _) (hasPartition_sync _ _) (activeGen_sync _ _) rfl
        rfl (Shrinks.refl _) h.waiting (stored_subset _ _)
    | freezeBatchPartitions l1 => exact carried_freezeBatch h hok
    | freezeOnePartition => exact carried_freezeOne h hok
    | sealEpochAndSwitch l1 => exact carried_sealEpoch h hok
    | releaseEpoch epoch =>
      obtain ⟨hrec, hskip⟩ := waiting_releaseEpoch s.ctx.sealedCache epoch
      refine carried_congr h rfl (fun _ => rfl) (fun _ => rfl) rfl rfl
        (shrinks_releaseEpoch s.ctx.sealedCache epoch) ?_ (stored_subset _ _)
      intro f hf
      apply h.waiting f
      rw [← hrec, ← hskip]
      exact hf
    | purgeSealedFiles =>
      exact carried_congr h rfl (fun _ => rfl) (fun _ => rfl) rfl rfl (Shrinks.refl _) h.waiting
        (stored_subset _ _)
    | reopen tables =>
      refine carried_recover rfl rfl rfl rfl ?_
      intro x hx
      obtain ⟨hmem, hex⟩ := List.mem_filter.mp hx
      have henv : (ContextRuns.step s.ctx (.reopen tables)).wal.env = s.ctx.wal.close.env :=
        (congrArg PartitionedWalManager.env (wal_recover _)).trans rfl
      rw [henv] at hex
      exact ⟨(h.active x hmem).1, hex, hok x hmem ((exists?_close _ _).symm.trans hex)⟩
    | crash cut tables =>
      refine carried_recover rfl rfl rfl rfl ?_
      intro x hx
      obtain ⟨hmem, hex⟩ := List.mem_filter.mp hx
      have henv : (ContextRuns.step s.ctx (.crash cut tables)).wal.env = s.ctx.wal.env.crash cut :=
        (congrArg PartitionedWalManager.env (wal_recover _)).trans rfl
      rw [henv] at hex
      exact ⟨(h.active x hmem).1, hex, hok x hmem ((Env.exists?_crash _ _ _).symm.trans hex)⟩

theorem carried_start (zfo : ZeroFlushOptions) (ucmp : UserComparator) (tables : PartitionTableSet)
    (sampler : Option KeySampler) : Carried (RoutedRun.start zfo ucmp tables sampler) :=
  carried_recover rfl rfl rfl rfl fun _ hx => absurd hx List.not_mem_nil

/-- In a run whose steps all meet the condition every epoch carries the table of its records. -/
theorem carriesTable_of_guarded (zfo : ZeroFlushOptions) (ucmp : UserComparator)
    (tables : PartitionTableSet) (sampler : Option KeySampler) (ops : List RoutedOp)
    (hok : Guarded RoutedRun.step StepOk (RoutedRun.start zfo ucmp tables sampler) ops) :
    CarriesTable (run RoutedRun.step (RoutedRun.start zfo ucmp tables sampler) ops) := by
  have hstep : ∀ s op, StepOk s op → Carried s → Carried (s.step op) :=
    fun _ _ hok h => carried_step h hok
  exact (invariant_run hstep (carried_start zfo ucmp tables sampler) hok).carriesTable

def sampledOptions (maxBatchPartitions : ℕ) : ZeroFlushOptions :=
  { partitions := 2, epochTargetBytes := 40, maxBatchPartitions := maxBatchPartitions
    routingMode := .kSampled }

/-- A session of two partitions that learns its table from the first epoch. -/
def sampledStart (maxBatchPartitions : ℕ) : RoutedRun :=
  RoutedRun.start (sampledOptions maxBatchPartitions) .bytewise
    (.init (.createHash 0 2 Nat.two_pos)) (some { sampleEveryN := 1 })

def putOp (key : UInt8) (seq : UInt64) (tableVersion : ℕ) : RoutedOp :=
  .context (.addRecord ⟨[key], [1], kTypeValue, seq⟩ tableVersion 0)

/-- Both partitions are frozen when the learned table is installed; a generation is skipped and
adopted under that table. -/
def wholeFreeze : List RoutedOp :=
  [putOp 97 1 0, putOp 99 2 0, .context (.freezeBatchPartitions []), putOp 97 3 1, putOp 99 4 1,
    .context (.freezeBatchPartitions []), .handOffSkipped 2 [(0, 1)] ∅, putOp 97 5 1,
    .context (.freezeBatchPartitions [])]

private theorem guarded_wholeFreeze :
    Guarded RoutedRun.step StepOk (sampledStart 2) wholeFreeze := by decide +kernel

theorem carriesTable_of_wholeFreeze :
    Guarded RoutedRun.step StepOk (sampledStart 2) wholeFreeze ∧
      CarriesTable (run RoutedRun.step (sampledStart 2) wholeFreeze) :=
  ⟨guarded_wholeFreeze, carriesTable_of_guarded _ _ _ _ wholeFreeze guarded_wholeFreeze⟩

/-- The first freeze takes one partition and installs the learned table; the write group that
began it had captured the old table. -/
def partialFreeze : List RoutedOp :=
  [putOp 97 1 0, putOp 99 2 0, .context (.freezeBatchPartitions []), putOp 97 3 0,
    .context (.freezeBatchPartitions [])]

/-- The second epoch names table 1, and both records of its generation were routed by table 0. -/
theorem carriesTable_fails :
    ((run RoutedRun.step (sampledStart 1) partialFreeze).ctx.sealedCache.epochs.lookup 2).map
        (fun se => (se.tableVersion, se.gens)) = some (1, [(0, 0)]) ∧
      ((run RoutedRun.step (sampledStart 1) partialFreeze).routed.filter
        (fun x => x.file = (0, 0))).map RoutedRecord.version = [0, 0] ∧
      ¬ CarriesTable (run RoutedRun.step (sampledStart 1) partialFreeze) := by
  have hepoch : ((run RoutedRun.step (sampledStart 1) partialFreeze).ctx.sealedCache.epochs.lookup
      2).map (fun se => (se.tableVersion, se.gens)) = some (1, [(0, 0)]) := by decide +kernel
  have hversions : ((run RoutedRun.step (sampledStart 1) partialFreeze).routed.filter
      (fun x => x.file = (0, 0))).map RoutedRecord.version = [0, 0] := by decide +kernel
  refine ⟨hepoch, hversions, fun hcarries => ?_⟩
  obtain ⟨se, hse, heq⟩ := Option.map_eq_some_iff.mp hepoch
  obtain ⟨hver, hgens⟩ := Prod.mk.inj heq
  have hzero : 0 ∈ ((run RoutedRun.step (sampledStart 1) partialFreeze).routed.filter
      (fun x => x.file = (0, 0))).map RoutedRecord.version := by
    rw [hversions]
    exact List.mem_cons_self
  obtain ⟨x, hx, hxv⟩ := List.mem_map.mp hzero
  obtain ⟨hmem, hfile⟩ := List.mem_filter.mp hx
  have hsame := hcarries 2 se hse (0, 0) (by rw [hgens]; exact List.mem_cons_self) x hmem
    (of_decide_eq_true hfile)
  rw [hxv, hver] at hsame
  cases hsame

end ZeroFlush.EpochTables
