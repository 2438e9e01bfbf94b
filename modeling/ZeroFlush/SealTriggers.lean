import Mathlib.Data.List.Perm.Basic
import ZeroFlush.ActiveBytes
import ZeroFlush.PartitionIds
import ZeroFlush.RoutingRecovery

/-! # The triggers of a seal

`ShouldSeal` reads two counters and a flag. The flag is to say whether some partition has reached
its target, the first counter is to be the sum of the sizes of all partitions. `Append` sets the
flag for its own partition, every freeze clears it, and `Open` does neither. -/
namespace ZeroFlush.SealTriggers
open FixedWidthCodec FiniteMaps WeightedMaps WalFormat WalFiles PartitionedWal WalLogs WalOpening
  UserKeys PartitionTables SealedFiles Context ContextRuns ContextHistory SealedEpochs PartitionIds
  RoutingRecovery RejectedBatches GuardedRuns WriteGroups
open ActiveBytes hiding step

/-- The first session over a directory. -/
def openDirectory (env : Env) (zfo : ZeroFlushOptions) (ucmp : UserComparator)
    (tables : PartitionTableSet) (sampler : Option KeySampler) : ZeroFlushContext :=
  let wal := (PartitionedWalManager.create env zfo.partitions zfo.partitionTargetBytes).open_
  ZeroFlushContext.recover
    { zfo := zfo, ucmp := ucmp, wal := wal, tables := tables, sampler := sampler }

/-- `∑ ActiveSize`. -/
def activeSum (m : PartitionedWalManager) : ℕ := ((allPartitionIds m).map m.activeSize).sum

/-- The triggers as the header of the context lists them. -/
def SealDue (ctx : ZeroFlushContext) : Prop :=
  ctx.zfo.epochTargetBytes ≤ activeSum ctx.wal ∨
    (∃ p ∈ allPartitionIds ctx.wal, ctx.zfo.partitionTargetBytes ≤ ctx.wal.activeSize p) ∨
    0 < ctx.zfo.indexMemBudget ∧ ctx.zfo.indexMemBudget ≤ ctx.indexSet.totalMemBytes

def TriggersExact (ctx : ZeroFlushContext) : Prop := shouldSeal ctx = true ↔ SealDue ctx

instance decidableTriggersExact (ctx : ZeroFlushContext) : Decidable (TriggersExact ctx) :=
  inferInstanceAs (Decidable (shouldSeal ctx = true ↔
    (ctx.zfo.epochTargetBytes ≤ activeSum ctx.wal ∨
      (∃ p ∈ allPartitionIds ctx.wal, ctx.zfo.partitionTargetBytes ≤ ctx.wal.activeSize p) ∨
      0 < ctx.zfo.indexMemBudget ∧ ctx.zfo.indexMemBudget ≤ ctx.indexSet.totalMemBytes)))

/-- Every partition that has reached its target is one of these. -/
def OverOnly (target : ℕ) (m : PartitionedWalManager) (ps : List ℕ) : Prop :=
  ∀ p ∈ allPartitionIds m, target ≤ m.activeSize p → p ∈ ps

instance decidableOverOnly (target : ℕ) (m : PartitionedWalManager) (ps : List ℕ) :
    Decidable (OverOnly target m ps) :=
  inferInstanceAs (Decidable (∀ p ∈ allPartitionIds m, target ≤ m.activeSize p → p ∈ ps))

/-- What `Open` finds is below the target in every partition, and a word can count it. -/
def OpensBelow (target : ℕ) (m : PartitionedWalManager) : Prop :=
  activeSum m < 2 ^ 64 ∧ OverOnly target m []

instance decidableOpensBelow (target : ℕ) (m : PartitionedWalManager) :
    Decidable (OpensBelow target m) :=
  inferInstanceAs (Decidable (activeSum m < 2 ^ 64 ∧ OverOnly target m []))

/-- A freeze that clears the flag has frozen every partition over its target, and no session starts
with one. -/
def FlagKept (ctx : ZeroFlushContext) : ContextOp → Prop
  | .addRecord r _ _ => activeSum ctx.wal + r.frame.length < 2 ^ 64
  | .freezeOnePartition =>
    OverOnly ctx.zfo.partitionTargetBytes ctx.wal ctx.chooseOne.toList
  | .sealEpochAndSwitch _ =>
    OverOnly ctx.zfo.partitionTargetBytes ctx.wal ctx.tables.current.partIds
  | .reopen _ => OpensBelow ctx.zfo.partitionTargetBytes ctx.wal.reopen
  | .crash cut _ => OpensBelow ctx.zfo.partitionTargetBytes (restart ctx.wal cut)
  | .sync _ | .freezeBatchPartitions _ | .releaseEpoch _ | .purgeSealedFiles => True

instance decidableFlagKept (ctx : ZeroFlushContext) : (op : ContextOp) → Decidable (FlagKept ctx op)
  | .addRecord r _ _ => inferInstanceAs (Decidable (activeSum ctx.wal + r.frame.length < 2 ^ 64))
  | .freezeOnePartition => decidableOverOnly _ _ _
  | .sealEpochAndSwitch _ => decidableOverOnly _ _ _
  | .reopen _ => decidableOpensBelow _ _
  | .crash .. => decidableOpensBelow _ _
  | .sync _ | .freezeBatchPartitions _ | .releaseEpoch _ | .purgeSealedFiles => .isTrue trivial

section sums
variable {m : PartitionedWalManager}

theorem weight_eq_sum_keys {κ υ : Type*} [DecidableEq κ] (w : υ → ℕ) (m : Map κ υ) :
    weight w m = (m.keys.map (weightAt w m)).sum := by
  rw [weight, AList.keys, List.keys, List.map_map]
  congr 1
  apply List.map_congr_left
  intro e he
  exact (weightAt_of_some (AList.mem_lookup_iff.mpr he)).symm

theorem activeSize_eq_weightAt (m : PartitionedWalManager) (p : ℕ) :
    m.activeSize p = weightAt Partition.totalSize m.parts p := by
  rw [PartitionedWalManager.activeSize, weightAt]
  cases m.parts.lookup p <;> rfl

theorem activeSum_eq (m : PartitionedWalManager) :
    activeSum m = weight Partition.totalSize m.parts := by
  rw [activeSum, weight_eq_sum_keys, allPartitionIds]
  have hperm := (List.perm_insertionSort (· ≤ ·) m.parts.keys).map m.activeSize
  rw [hperm.sum_eq]
  congr 1
  exact List.map_congr_left fun p _ => activeSize_eq_weightAt m p

theorem activeSize_le_sum (m : PartitionedWalManager) (p : ℕ) : m.activeSize p ≤ activeSum m := by
  rw [activeSum_eq, activeSize_eq_weightAt]
  exact weightAt_le _ _ _

/-- The counter of a manager whose sizes fit a word. -/
theorem totalActiveBytes_eq (h : Tallied m) (hfits : activeSum m < 2 ^ 64) :
    m.totalActiveBytes = activeSum m := by
  rw [activeSum_eq] at hfits ⊢
  exact Nat.ModEq.eq_of_lt_of_lt (h.total.trans (weight_active_modEq m.parts h.counted)) h.word hfits

end sums

/-- Some partition has reached its target. -/
def Over (target : ℕ) (m : PartitionedWalManager) : Prop := ∃ p, target ≤ m.activeSize p

theorem over_iff {target : ℕ} (hpos : 0 < target) (m : PartitionedWalManager) :
    Over target m ↔ ∃ p ∈ allPartitionIds m, target ≤ m.activeSize p := by
  constructor
  · rintro ⟨p, hp⟩
    refine ⟨p, ?_, hp⟩
    rw [allPartitionIds, List.mem_insertionSort]
    exact mem_keys_of_pos (Nat.lt_of_lt_of_le hpos hp)
  · rintro ⟨p, -, hp⟩
    exact ⟨p, hp⟩

theorem OverOnly.mem {target p : ℕ} {m : PartitionedWalManager} {ps : List ℕ}
    (h : OverOnly target m ps) (hpos : 0 < target) (hp : target ≤ m.activeSize p) : p ∈ ps := by
  refine h p ?_ hp
  rw [allPartitionIds, List.mem_insertionSort]
  exact mem_keys_of_pos (Nat.lt_of_lt_of_le hpos hp)

/-- What the guarded steps preserve. -/
structure FlagExact (target : ℕ) (m : PartitionedWalManager) : Prop where
  tallied : Tallied m
  fits : activeSum m < 2 ^ 64
  target_eq : m.partitionTargetBytes = target
  flag : m.anyOverTarget = true ↔ Over target m

section steps
variable {target : ℕ} {m m' : PartitionedWalManager}

/-- An operation that keeps the partitions and what is counted about them. -/
theorem FlagExact.congr (h : FlagExact target m) (htallied : Tallied m')
    (hsum : activeSum m' = activeSum m) (hsize : ∀ p, m'.activeSize p = m.activeSize p)
    (htarget : m'.partitionTargetBytes = m.partitionTargetBytes)
    (hflag : m'.anyOverTarget = m.anyOverTarget) : FlagExact target m' := by
  refine ⟨htallied, ?_, htarget.trans h.target_eq, ?_⟩
  · rw [hsum]
    exact h.fits
  · rw [hflag, h.flag]
    simp only [Over, hsize]

theorem weight_append {part : ℕ} {p q : Partition} (hparts : m'.parts = m.parts.insert part q)
    (hp : weightAt Partition.totalSize m.parts part = p.totalSize) :
    activeSum m' + p.totalSize = activeSum m + q.totalSize := by
  rw [activeSum_eq, activeSum_eq, hparts, ← hp]
  exact weight_insert _ _ _ _

/-- `Append` sets the flag when its partition reaches the target. -/
theorem flagExact_append (h : FlagExact target m) {part : ℕ} {r : WalRecord}
    (hfits : activeSum m + r.frame.length < 2 ^ 64) : FlagExact target (m.append part r).2 := by
  have htallied : Tallied (m.append part r).2 := by
    rw [← FaultyWal.append_faultless]
    exact tallied_append h.tallied part r
  obtain ⟨p, hp, he⟩ | ⟨e, he⟩ := append_cases m part r
  · have hsize := activeSize_append he
    have hweight : weightAt Partition.totalSize m.parts part = p.totalSize := by
      obtain hp | ⟨hp, -, rfl⟩ := hp
      · exact weightAt_of_some hp
      · exact weightAt_of_none hp
    have hactive : p.activeBytes ≡ p.totalSize [MOD 2 ^ 64] := by
      obtain hp | ⟨-, -, rfl⟩ := hp
      · exact (h.tallied.counted part p hp).active
      · exact Nat.ModEq.refl 0
    have hold : m.activeSize part = p.totalSize := (activeSize_eq_weightAt m part).trans hweight
    have hle := activeSize_le_sum m part
    rw [he] at htallied ⊢
    dsimp only at htallied hsize ⊢
    have hsum : activeSum (m.appendTo part p r).2 = activeSum m + r.frame.length := by
      have hw := weight_append (appendTo_parts m part p r) hweight
      rw [maybeFlush_totalSize] at hw
      have hq : (bufferedPartition m.env p r).totalSize = p.totalSize + r.frame.length := by
        simp [bufferedPartition]
      omega
    have hflag : (m.appendTo part p r).2.anyOverTarget = true ↔
        m.anyOverTarget = true ∨ target ≤ m.activeSize part + r.frame.length := by
      have hopened : (ensureOpenForWrite m.env p).2.activeBytes = p.activeBytes := by
        rw [ensureOpenForWrite]
        cases p.wfile <;> rfl
      have hmod : (p.activeBytes + r.frame.length) % 2 ^ 64 = p.totalSize + r.frame.length :=
        Nat.ModEq.eq_of_lt_of_lt ((Nat.mod_modEq _ _).trans (hactive.add_right _))
          (Nat.mod_lt _ (by decide)) (by omega)
      rw [PartitionedWalManager.appendTo]
      dsimp only
      rw [hopened, hmod, h.target_eq, Bool.or_eq_true, decide_eq_true_iff, hold]
    refine ⟨htallied, ?_, ?_, ?_⟩
    · rw [hsum]
      exact hfits
    · exact h.target_eq
    · rw [hflag, h.flag]
      constructor
      · rintro (⟨q, hq⟩ | hnew)
        · exact ⟨q, hq.trans (by rw [hsize]; exact Nat.le_add_right _ _)⟩
        · exact ⟨part, by rw [hsize, if_pos rfl]; exact hnew⟩
      · rintro ⟨q, hq⟩
        rw [hsize] at hq
        split at hq
        next heq => exact .inr (heq ▸ hq)
        next => exact .inl ⟨q, hq⟩
  · rw [he]
    exact h

theorem flagExact_sync (h : FlagExact target m) (part : ℕ) :
    FlagExact target (m.sync part).2 := by
  have htallied : Tallied (m.sync part).2 := by
    rw [← FaultyWal.sync_faultless]
    exact tallied_sync h.tallied part
  have hkept : (m.sync part).2.partitionTargetBytes = m.partitionTargetBytes ∧
      (m.sync part).2.anyOverTarget = m.anyOverTarget := by
    rw [PartitionedWalManager.sync]
    cases m.parts.lookup part <;> exact ⟨rfl, rfl⟩
  refine h.congr htallied ?_ (activeSize_sync m part) hkept.1 hkept.2
  cases hp : m.parts.lookup part with
  | none => rw [PartitionedWalManager.sync, hp]
  | some p =>
    have hparts : (m.sync part).2.parts = m.parts.insert part
        (flushBuf (ensureOpenForWrite m.env p).1 (ensureOpenForWrite m.env p).2).2 := by
      rw [PartitionedWalManager.sync, hp]
    have hw := weight_append hparts (weightAt_of_some hp)
    have hq : (flushBuf (ensureOpenForWrite m.env p).1
        (ensureOpenForWrite m.env p).2).2.totalSize = p.totalSize := by simp
    omega

/-- The sizes after the freezes of a list of partitions. -/
theorem sealed_freezes (ps : List ℕ) (m : PartitionedWalManager) (se : SealedEpoch)
    (h : Tallied m) :
    Tallied (ps.foldl sealWal (m, se)).1 ∧
      activeSum (ps.foldl sealWal (m, se)).1 ≤ activeSum m ∧
      (ps.foldl sealWal (m, se)).1.partitionTargetBytes = m.partitionTargetBytes := by
  induction ps generalizing m se with
  | nil => exact ⟨h, le_rfl, rfl⟩
  | cons p ps ih =>
    have htallied : Tallied (m.freeze p).2 := by
      rw [← FaultyWal.freeze_faultless]
      exact tallied_freeze h p
    have hone : activeSum (m.freeze p).2 ≤ activeSum m ∧
        (m.freeze p).2.partitionTargetBytes = m.partitionTargetBytes := by
      cases hp : m.parts.lookup p with
      | none =>
        rw [freeze_of_lookup_none hp]
        exact ⟨le_rfl, rfl⟩
      | some q =>
        obtain ⟨q', hparts, -, hzero, -⟩ := freeze_parts m hp
        have hw := weight_append hparts (weightAt_of_some hp)
        refine ⟨by omega, ?_⟩
        rw [PartitionedWalManager.freeze, hp]
    obtain ⟨hrest, hle, htarget⟩ := ih (m.freeze p).2 (sealWal (m, se) p).2 htallied
    exact ⟨hrest, hle.trans hone.1, htarget.trans hone.2⟩

/-- After a freeze of every partition over the target the cleared flag is right. -/
theorem flagExact_freezes (hpos : 0 < target) (h : FlagExact target m) {ps : List ℕ}
    (hps : OverOnly target m ps) (se : SealedEpoch) :
    FlagExact target (ps.foldl sealWal (m, se)).1.clearOverTargetFlag := by
  obtain ⟨htallied, hle, htarget⟩ := sealed_freezes ps m se h.tallied
  refine ⟨⟨htallied.total, htallied.word, htallied.counted⟩, hle.trans_lt h.fits,
    htarget.trans h.target_eq, ?_⟩
  refine iff_of_false (Bool.false_ne_true) ?_
  rintro ⟨p, hp⟩
  have hp' : target ≤ (ps.foldl sealWal (m, se)).1.activeSize p := hp
  rw [activeSize_sealLoop] at hp'
  split at hp'
  · exact absurd (hpos.trans_le hp') (Nat.lt_irrefl 0)
  next hno => exact hno (hps.mem hpos hp')

end steps

section opening
variable {target : ℕ}

theorem keys_openCreate (env : Env) (n target : ℕ) :
    (PartitionedWalManager.create env n target).open_.parts.keys.Perm (List.range n) := by
  refine (List.perm_ext_iff_of_nodup (AList.keys_nodup _) List.nodup_range).mpr fun i => ?_
  rw [← AList.mem_keys, ← AList.lookup_isSome, lookup_openCreate, List.mem_range]
  split
  next h => exact iff_of_true rfl h
  next h => exact iff_of_false Bool.false_ne_true h

/-- `Open` of a new manager counts the file of every partition. -/
theorem tallied_openCreate (env : Env) (n target : ℕ) :
    Tallied (PartitionedWalManager.create env n target).open_ := by
  have hactive : weight Partition.activeBytes
      (PartitionedWalManager.create env n target).open_.parts =
      PartitionedWalManager.openedBytes env n := by
    rw [weight_eq_sum_keys, ((keys_openCreate env n target).map _).sum_eq,
      PartitionedWalManager.openedBytes]
    congr 1
    apply List.map_congr_left
    intro i hi
    have hi' : i < n := List.mem_range.mp hi
    rw [weightAt, lookup_openCreate, if_pos hi', Option.map_some, Option.getD_some,
      PartitionedWalManager.openPartition]
    dsimp only
    split
    next => rfl
    next hany =>
      -- a partition without a file has counted nothing
      by_contra hne
      have hmem : (i, maxGen i env.listFiles) ∈ env.listFiles :=
        exists_of_content fun hnil => hne (by rw [hnil]; rfl)
      exact hany (List.any_eq_true.mpr ⟨_, hmem, by simp⟩)
  refine ⟨?_, Nat.mod_lt _ (by decide), fun i p hp => ?_⟩
  · rw [hactive]
    have htotal : (PartitionedWalManager.create env n target).open_.totalActiveBytes =
        (0 + PartitionedWalManager.openedBytes env n) % 2 ^ 64 := rfl
    rw [htotal, Nat.zero_add]
    exact Nat.mod_modEq _ _
  · rw [lookup_openCreate] at hp
    split at hp
    · cases hp
      exact counted_openPartition i ⟨Nat.ModEq.refl 0, rfl⟩ rfl
    · cases hp

/-- `Open` leaves the flag clear. -/
theorem flagExact_openCreate (hpos : 0 < target) {env : Env} {n : ℕ}
    (h : OpensBelow target (PartitionedWalManager.create env n target).open_) :
    FlagExact target (PartitionedWalManager.create env n target).open_ := by
  refine ⟨tallied_openCreate env n target, h.1, rfl, ?_⟩
  refine iff_of_false Bool.false_ne_true ?_
  rintro ⟨p, hp⟩
  exact List.not_mem_nil (h.2.mem hpos hp)

end opening

section runs
variable {ctx : ZeroFlushContext}

def Tracked (ctx : ZeroFlushContext) : Prop :=
  0 < ctx.zfo.partitionTargetBytes ∧ FlagExact ctx.zfo.partitionTargetBytes ctx.wal

theorem Tracked.congr (h : Tracked ctx) {ctx' : ZeroFlushContext} (hzfo : ctx'.zfo = ctx.zfo)
    (hwal : FlagExact ctx.zfo.partitionTargetBytes ctx'.wal) : Tracked ctx' := by
  rw [Tracked, hzfo]
  exact ⟨h.1, hwal⟩

theorem Tracked.triggersExact (h : Tracked ctx) : TriggersExact ctx := by
  obtain ⟨hpos, hflag⟩ := h
  rw [TriggersExact, shouldSeal, SealDue, totalActiveBytes_eq hflag.tallied hflag.fits,
    ← over_iff hpos, ← hflag.flag]
  simp only [Bool.or_eq_true, Bool.and_eq_true, decide_eq_true_eq, gt_iff_lt, ge_iff_le]
  constructor
  · rintro ((hmem | hsum) | hover)
    · exact .inr (.inr hmem)
    · exact .inl hsum
    · exact .inr (.inl hover)
  · rintro (hsum | hover | hmem)
    · exact .inl (.inr hsum)
    · exact .inr hover
    · exact .inl (.inl hmem)

/-- The first partition over the target is frozen, else the largest. -/
theorem overOnly_of_chooseOne_none (hpos : 0 < ctx.zfo.partitionTargetBytes)
    (h : ctx.chooseOne = none) : OverOnly ctx.zfo.partitionTargetBytes ctx.wal [] := by
  intro p hp hsize
  have hmem : p ∈ ctx.overTarget := by
    rw [ZeroFlushContext.overTarget, List.mem_filter]
    exact ⟨hp, decide_eq_true hsize⟩
  rw [ZeroFlushContext.chooseOne] at h
  cases hover : ctx.overTarget with
  | nil =>
    rw [hover] at hmem
    exact hmem
  | cons q qs =>
    rw [hover] at h
    have hq : q ∈ ctx.overTarget := by
      rw [hover]
      exact List.mem_cons_self
    rw [ZeroFlushContext.overTarget, List.mem_filter, decide_eq_true_iff] at hq
    dsimp only at h
    rw [if_pos (hpos.trans_le hq.2)] at h
    cases h

theorem mem_fillBatch_of_mem {k target p : ℕ} {rest : List (ℕ × ℕ)} {batch : List ℕ} {bytes : ℕ}
    (hp : p ∈ batch) : p ∈ ZeroFlushContext.fillBatch k target rest batch bytes := by
  induction rest generalizing batch bytes with
  | nil => exact hp
  | cons e rest ih =>
    rw [ZeroFlushContext.fillBatch]
    split
    · exact hp
    · exact ih (List.mem_append_left _ hp)

/-- A batch has every partition over the target. -/
theorem overOnly_chooseBatch (ctx : ZeroFlushContext) :
    OverOnly ctx.zfo.partitionTargetBytes ctx.wal ctx.chooseBatch := by
  intro p hp hsize
  have hmem : p ∈ ctx.overTarget := by
    rw [ZeroFlushContext.overTarget, List.mem_filter]
    exact ⟨hp, decide_eq_true hsize⟩
  rw [ZeroFlushContext.chooseBatch]
  dsimp only
  split
  · exact mem_fillBatch_of_mem hmem
  · exact hmem

/-- The flag is cleared with no partition over the target. -/
theorem Tracked.cleared (h : Tracked ctx) (hnone : OverOnly ctx.zfo.partitionTargetBytes ctx.wal [])
    {ctx' : ZeroFlushContext} (hzfo : ctx'.zfo = ctx.zfo)
    (hwal : ctx'.wal = ctx.wal.clearOverTargetFlag) : Tracked ctx' := by
  refine h.congr hzfo ?_
  rw [hwal]
  exact flagExact_freezes h.1 h.2 hnone ctx.nextEpoch.2

theorem Tracked.sealed (h : Tracked ctx) {ctx' : ZeroFlushContext} {ps : List ℕ}
    {fs : List (ℕ × ℕ)} {t : Option PartitionTable} (hseal : SealedBy ctx ctx' ps fs t)
    (hps : OverOnly ctx.zfo.partitionTargetBytes ctx.wal ps) : Tracked ctx' := by
  refine h.congr hseal.zfo_eq ?_
  rw [hseal.wal_eq]
  exact flagExact_freezes h.1 h.2 hps _

theorem tracked_openDirectory {env : Env} {zfo : ZeroFlushOptions} (ucmp : UserComparator)
    (tables : PartitionTableSet) (sampler : Option KeySampler) (hpos : 0 < zfo.partitionTargetBytes)
    (h : OpensBelow zfo.partitionTargetBytes
      (PartitionedWalManager.create env zfo.partitions zfo.partitionTargetBytes).open_) :
    Tracked (openDirectory env zfo ucmp tables sampler) := by
  rw [openDirectory, Tracked, wal_recover, (options_recover _).1]
  exact ⟨hpos, flagExact_openCreate hpos h⟩

/-- The steps that keep the flag right. -/
theorem tracked_step (ctx : ZeroFlushContext) (op : ContextOp) (hok : FlagKept ctx op)
    (h : Tracked ctx) : Tracked (step ctx op) := by
  cases op with
  | addRecord r v rnd =>
    refine h.congr (tables_addRecord ctx r v rnd).2.2 ?_
    have hwal : (step ctx (.addRecord r v rnd)).wal = _ := wal_addRecord ctx r v rnd
    rw [hwal]
    exact flagExact_append h.2 hok
  | sync part => exact h.congr rfl (flagExact_sync h.2 part)
  | freezeBatchPartitions l1 =>
    have hover := overOnly_chooseBatch ctx
    rw [step]
    by_cases hb : ctx.chooseBatch = []
    · rw [hb] at hover
      apply h.cleared hover
      · rw [ZeroFlushContext.freezeBatchPartitions, hb]
      · rw [ZeroFlushContext.freezeBatchPartitions, hb]
    · exact h.sealed (sealedBy_freezeBatch l1 hb) hover
  | freezeOnePartition =>
    rw [FlagKept] at hok
    rw [step]
    cases hc : ctx.chooseOne with
    | none =>
      apply h.cleared (overOnly_of_chooseOne_none h.1 hc)
      · rw [ZeroFlushContext.freezeOnePartition, hc]
      · rw [ZeroFlushContext.freezeOnePartition, hc]
    | some p =>
      rw [hc] at hok
      obtain ⟨gen, hseal⟩ := sealedBy_freezeOne hc
      exact h.sealed hseal hok
  | sealEpochAndSwitch l1 => exact h.sealed (sealedBy_sealEpoch ctx l1) hok
  | releaseEpoch epoch => exact h.congr rfl h.2
  | purgeSealedFiles =>
    refine h.congr rfl ?_
    have htallied := h.2.tallied
    exact h.2.congr ⟨htallied.total, htallied.word, htallied.counted⟩ rfl (fun _ => rfl) rfl rfl
  | reopen tables =>
    rw [FlagKept, PartitionedWalManager.reopen, h.2.target_eq] at hok
    refine h.congr (options_recover _).1 ?_
    rw [step, ZeroFlushContext.openWith, wal_recover]
    dsimp only
    rw [PartitionedWalManager.reopen, h.2.target_eq]
    exact flagExact_openCreate h.1 hok
  | crash cut tables =>
    rw [FlagKept, restart, h.2.target_eq] at hok
    refine h.congr (options_recover _).1 ?_
    rw [step, ZeroFlushContext.openWith, wal_recover]
    dsimp only
    rw [restart, h.2.target_eq]
    exact flagExact_openCreate h.1 hok

/-- In a run that clears the flag only after every partition over its target is frozen, and opens
no directory with such a partition, the test is the documented one in every state. -/
theorem triggersExact_of_flagKept (env : Env) (zfo : ZeroFlushOptions) (ucmp : UserComparator)
    (tables : PartitionTableSet) (sampler : Option KeySampler) (ops : List ContextOp)
    (hpos : 0 < zfo.partitionTargetBytes)
    (hopen : OpensBelow zfo.partitionTargetBytes
      (PartitionedWalManager.create env zfo.partitions zfo.partitionTargetBytes).open_)
    (hok : Guarded step FlagKept (openDirectory env zfo ucmp tables sampler) ops) :
    Always step TriggersExact (openDirectory env zfo ucmp tables sampler) ops := by
  apply always_rule tracked_step
  · exact fun s hinv => hinv.triggersExact
  · exact tracked_openDirectory ucmp tables sampler hpos hopen
  · exact hok

/-- One partition with a target of 40 bytes. -/
def smallTargets : ZeroFlushOptions :=
  { partitions := 1, partitionTargetBytes := 40, epochTargetBytes := 1000 }

def onlyPartition : PartitionTableSet := .init (.createHash 0 1 Nat.one_pos)

def freshContext : ZeroFlushContext :=
  openDirectory Env.empty smallTargets .bytewise onlyPartition none

/-- Two records that reach the target together, and a batch freeze. -/
def writeAndFreeze : List ContextOp :=
  [.addRecord ⟨[97], [1], kTypeValue, 1⟩ 0 0, .addRecord ⟨[98], [2], kTypeValue, 2⟩ 0 0,
    .freezeBatchPartitions [], .addRecord ⟨[99], [3], kTypeValue, 3⟩ 0 0, .reopen onlyPartition]

theorem triggersExact_writeAndFreeze : Always step TriggersExact freshContext writeAndFreeze :=
  triggersExact_of_flagKept Env.empty smallTargets .bytewise onlyPartition none writeAndFreeze
    (by decide) (by decide +kernel) (by decide +kernel)

/-- The bytes that a session leaves behind do not set the flag of the next one. -/
theorem not_triggersExact_reopened : ¬ TriggersExact (run step freshContext
    [.addRecord ⟨[97], [1], kTypeValue, 1⟩ 0 0, .addRecord ⟨[98], [2], kTypeValue, 2⟩ 0 0,
      .reopen onlyPartition]) := by
  decide +kernel

end runs

end ZeroFlush.SealTriggers
