import Mathlib.Data.PNat.Basic
import ZeroFlush.GuardedRuns
import ZeroFlush.SealedFiles
import ZeroFlush.WeightedMaps

/-! # The bytes of the registered epochs

`sealed_bytes_` counts the bytes of the registered epochs. A hand-off lowers the total of its epoch
and not the counter, so that the bytes stay counted when the epoch is gone. -/
namespace ZeroFlush.SealedBytes
open FiniteMaps WeightedMaps WalFiles SealedFiles GuardedRuns

/-- An epoch as the callers register it: the bytes of its partitions are part of its total. -/
structure CountedEpoch where
  entry : SealedEpoch
  counted : weight id entry.partBytes ≤ entry.totalBytes

inductive CacheOp
  | addRecoveryGens (gens : List FileId) (totalBytes : ℕ)
  | addEpochWithRecoveryAdoption (e : CountedEpoch) (refcount : ℕ+)
  | handOffSkippedToRecovery (epoch : ℕ) (gens : List FileId) (partBytes : Map ℕ ℕ)
  | releaseGens (epoch : ℕ) (gens : List FileId)
  | releaseEpoch (epoch : ℕ)

/-- `AddEpochWithRecoveryAdoption` with `refcount` references for each generation, one for every
column family that shares the files. -/
def addEpoch (c : SealedFileCache) (e : SealedEpoch) (refcount : ℕ+) : SealedFileCache :=
  match c.epochs.lookup e.epoch with
  | some _ => c
  | none =>
    let merged := c.adoptSkips (c.adoptRecovery e)
    { c.addEpochWithRecoveryAdoption e with
      genRefs := c.genRefs.insert merged.epoch (merged.gens.foldl
        (fun refs f => refs.insert f (refcount : ℕ)) ((c.genRefs.lookup merged.epoch).getD ∅)) }

def step (c : SealedFileCache) : CacheOp → SealedFileCache
  | .addRecoveryGens gens totalBytes => c.addRecoveryGens gens totalBytes
  | .addEpochWithRecoveryAdoption e refcount => addEpoch c e.entry refcount
  | .handOffSkippedToRecovery epoch gens partBytes =>
    c.handOffSkippedToRecovery epoch gens partBytes
  | .releaseGens epoch gens => c.releaseGens epoch gens
  | .releaseEpoch epoch => c.releaseEpoch epoch

/-- The counter is the sum over the registered epochs; what a release takes off it, the total of a
registered epoch, is never more than it. -/
structure Accounted (c : SealedFileCache) : Prop where
  exact : c.sealedBytes = weight SealedEpoch.totalBytes c.epochs
  covered : ∀ e se, c.epochs.lookup e = some se → se.totalBytes ≤ c.sealedBytes

/-- A hand-off takes no bytes off its epoch: for none of its partitions has the epoch counted some. -/
def KeepsBytes (c : SealedFileCache) : CacheOp → Prop
  | .handOffSkippedToRecovery epoch gens _ =>
    ∀ f ∈ gens, ∀ se ∈ c.epochs.lookup epoch, ∀ b ∈ se.partBytes.lookup f.1, b = 0
  | _ => True

/-- The bytes of the partitions, in an epoch and in the two waiting sets, are part of the total. -/
structure Bounded (c : SealedFileCache) : Prop where
  epochs : ∀ e se, c.epochs.lookup e = some se → weight id se.partBytes ≤ se.totalBytes
  recovery : weight id c.recoveryPartBytes ≤ c.recoveryBytes
  skips : weight id c.skipPartBytes ≤ c.skipBytes

/-- The counter exceeds the sum by this much. -/
def Exceeds (c : SealedFileCache) (d : ℕ) : Prop :=
  c.sealedBytes = weight SealedEpoch.totalBytes c.epochs + d

/-- What a hand-off takes off the total of its epoch. -/
def takenBytes (c : SealedFileCache) (epoch : ℕ) (gens : List FileId) : ℕ :=
  match c.epochs.lookup epoch with
  | none => 0
  | some se => se.totalBytes - (SealedFileCache.dropSkipped se gens).totalBytes

variable {c : SealedFileCache} {d : ℕ}

theorem addEpoch_one (e : SealedEpoch) : addEpoch c e 1 = c.addEpochWithRecoveryAdoption e := by
  rw [addEpoch, SealedFileCache.addEpochWithRecoveryAdoption]
  cases c.epochs.lookup e.epoch with
  | some _ => rfl
  | none => rfl

theorem accounted_iff_exceeds : Accounted c ↔ Exceeds c 0 := by
  refine ⟨fun h => h.exact, fun h => ⟨h, fun e se hse => ?_⟩⟩
  have hle := weightAt_le SealedEpoch.totalBytes c.epochs e
  rw [weightAt_of_some hse] at hle
  rw [h]
  exact hle

/-- The counter never falls below the total of a registered epoch. -/
theorem Exceeds.covered (h : Exceeds c d) {e : ℕ} {se : SealedEpoch}
    (hse : c.epochs.lookup e = some se) : se.totalBytes ≤ c.sealedBytes := by
  have hle := weightAt_le SealedEpoch.totalBytes c.epochs e
  rw [weightAt_of_some hse] at hle
  rw [Exceeds] at h
  omega

theorem weight_addCounts (counts more : Map ℕ ℕ) :
    weight id (addCounts counts more) = weight id counts + weight id more := by
  rw [addCounts, weight, weight.eq_1 id more]
  generalize more.entries = es
  induction es generalizing counts with
  | nil => rfl
  | cons e es ih =>
    have hinsert := weight_insert id counts e.1 ((counts.lookup e.1).getD 0 + e.2)
    rw [List.foldl_cons, ih, List.map_cons, List.sum_cons]
    simp only [weight, weightAt, id_eq, Option.map_id_fun] at hinsert ⊢
    omega

section settle
variable (epoch : ℕ)

theorem exceeds_settleEpoch (h : Exceeds c d) (refs : Map FileId ℕ) :
    Exceeds (c.settleEpoch epoch refs) d := by
  rw [SealedFileCache.settleEpoch]
  split
  · have herase := weight_erase SealedEpoch.totalBytes c.epochs epoch
    rw [Exceeds] at *
    dsimp only
    rw [weightAt] at herase
    omega
  · exact h

theorem bounded_settleEpoch (h : Bounded c) (refs : Map FileId ℕ) :
    Bounded (c.settleEpoch epoch refs) := by
  rw [SealedFileCache.settleEpoch]
  split
  · refine ⟨fun e se hse => ?_, h.recovery, h.skips⟩
    dsimp only at hse
    rw [lookup_erase_eq] at hse
    split at hse
    · cases hse
    · exact h.epochs e se hse
  · exact ⟨h.epochs, h.recovery, h.skips⟩

/-- An entry that keeps its bytes and loses a generation. -/
theorem weight_replace {se se' : SealedEpoch} (hse : c.epochs.lookup epoch = some se) :
    weight SealedEpoch.totalBytes (c.epochs.insert epoch se') + se.totalBytes =
      weight SealedEpoch.totalBytes c.epochs + se'.totalBytes := by
  have hinsert := weight_insert SealedEpoch.totalBytes c.epochs epoch se'
  rwa [weightAt_of_some hse] at hinsert

theorem exceeds_releaseGen (h : Exceeds c d) (f : FileId) : Exceeds (c.releaseGen epoch f) d := by
  rw [SealedFileCache.releaseGen]
  split
  · exact h
  next n _ =>
    dsimp only
    split
    · exact h
    · cases hse : c.epochs.lookup epoch with
      | none => exact h
      | some se =>
        have hweight := @weight_replace c epoch se
          { se with gens := se.gens.filter (· ≠ f) } hse
        rw [Exceeds] at *
        dsimp only at *
        omega

theorem bounded_replace (h : Bounded c) {se' : SealedEpoch}
    (hse' : weight id se'.partBytes ≤ se'.totalBytes) (e : ℕ) (se : SealedEpoch)
    (hse : (c.epochs.insert epoch se').lookup e = some se) :
    weight id se.partBytes ≤ se.totalBytes := by
  rw [lookup_insert_eq] at hse
  split at hse
  · cases hse
    exact hse'
  · exact h.epochs e se hse

theorem bounded_releaseGen (h : Bounded c) (f : FileId) : Bounded (c.releaseGen epoch f) := by
  rw [SealedFileCache.releaseGen]
  split
  · exact h
  next n _ =>
    dsimp only
    split
    · exact ⟨h.epochs, h.recovery, h.skips⟩
    · cases hse : c.epochs.lookup epoch with
      | none => exact ⟨h.epochs, h.recovery, h.skips⟩
      | some se => exact ⟨bounded_replace epoch h (h.epochs epoch se hse), h.recovery, h.skips⟩

theorem releaseGen_foldl (h : Exceeds c d ∧ Bounded c) (gens : List FileId) :
    Exceeds (gens.foldl (SealedFileCache.releaseGen epoch) c) d ∧
      Bounded (gens.foldl (SealedFileCache.releaseGen epoch) c) := by
  induction gens generalizing c with
  | nil => exact h
  | cons f gens ih => exact ih ⟨exceeds_releaseGen epoch h.1 f, bounded_releaseGen epoch h.2 f⟩

/-- A release takes the bytes of the epoch off the counter and the sum. -/
theorem releaseGens_spec (h : Exceeds c d ∧ Bounded c) (gens : List FileId) :
    Exceeds (c.releaseGens epoch gens) d ∧ Bounded (c.releaseGens epoch gens) := by
  rw [SealedFileCache.releaseGens]
  split
  · exact h
  · split
    · exact h
    · obtain ⟨hexceeds, hbounded⟩ := releaseGen_foldl epoch h gens
      exact ⟨exceeds_settleEpoch epoch hexceeds _, bounded_settleEpoch epoch hbounded _⟩

end settle

section register

/-- What is adopted keeps the bytes of the partitions within the total. -/
theorem adopted_bounded (h : Bounded c) {e : SealedEpoch}
    (he : weight id e.partBytes ≤ e.totalBytes) :
    weight id (c.adoptSkips (c.adoptRecovery e)).partBytes ≤
      (c.adoptSkips (c.adoptRecovery e)).totalBytes := by
  have hrecovery : weight id (c.adoptRecovery e).partBytes ≤ (c.adoptRecovery e).totalBytes := by
    rw [SealedFileCache.adoptRecovery]
    split
    · exact he
    · dsimp only
      rw [weight_addCounts]
      exact Nat.add_le_add he h.recovery
  rw [SealedFileCache.adoptSkips]
  split
  · exact hrecovery
  · dsimp only
    rw [weight_addCounts]
    exact Nat.add_le_add hrecovery h.skips

theorem addEpoch_spec (h : Exceeds c d ∧ Bounded c) (e : CountedEpoch) (refcount : ℕ+) :
    Exceeds (addEpoch c e.entry refcount) d ∧ Bounded (addEpoch c e.entry refcount) := by
  obtain ⟨hexceeds, hbounded⟩ := h
  rw [addEpoch, SealedFileCache.addEpochWithRecoveryAdoption]
  cases hnew : c.epochs.lookup e.entry.epoch with
  | some _ => exact ⟨hexceeds, hbounded⟩
  | none =>
    have hepoch : (c.adoptSkips (c.adoptRecovery e.entry)).epoch = e.entry.epoch := by simp
    have hadopted := adopted_bounded hbounded e.counted
    generalize c.adoptSkips (c.adoptRecovery e.entry) = merged at hepoch hadopted
    constructor
    · have hinsert := weight_insert SealedEpoch.totalBytes c.epochs merged.epoch merged
      rw [hepoch, weightAt_of_none hnew] at hinsert
      rw [Exceeds] at *
      dsimp only
      rw [hepoch]
      omega
    · refine ⟨bounded_replace _ hbounded hadopted, ?_, ?_⟩
      · dsimp only
        split
        · exact hbounded.recovery
        · exact Nat.le_of_eq weight_empty
      · dsimp only
        split
        · exact hbounded.skips
        · exact Nat.le_of_eq weight_empty

end register

section handOff

/-- One round of the loop that lowers the total of an epoch. -/
def takePart (e : SealedEpoch) (f : FileId) : SealedEpoch :=
  match e.partBytes.lookup f.1 with
  | none => e
  | some b => { e with totalBytes := e.totalBytes - b, partBytes := e.partBytes.erase f.1 }

/-- Bytes are taken for every partition that has some, once. -/
theorem takePart_foldl (gens : List FileId) {e : SealedEpoch}
    (h : weight id e.partBytes ≤ e.totalBytes) :
    weight id (gens.foldl takePart e).partBytes ≤ (gens.foldl takePart e).totalBytes ∧
      (gens.foldl takePart e).totalBytes ≤ e.totalBytes ∧
      ((gens.foldl takePart e).totalBytes = e.totalBytes ↔
        ∀ f ∈ gens, ∀ b ∈ e.partBytes.lookup f.1, b = 0) := by
  induction gens generalizing e with
  | nil => exact ⟨h, Nat.le_refl _, iff_of_true rfl fun f hf => absurd hf List.not_mem_nil⟩
  | cons f gens ih =>
    rw [List.foldl_cons]
    cases hlook : e.partBytes.lookup f.1 with
    | none =>
      have hsame : takePart e f = e := by rw [takePart, hlook]
      rw [hsame]
      obtain ⟨hle, hmono, hiff⟩ := ih h
      refine ⟨hle, hmono, hiff.trans ⟨fun hrest g hg => ?_, fun hall g hg => ?_⟩⟩
      · obtain rfl | hg := List.mem_cons.mp hg
        · rw [hlook]
          exact fun b hb => absurd hb (Option.not_mem_none b)
        · exact hrest g hg
      · exact hall g (List.mem_cons_of_mem _ hg)
    | some b =>
      have htake : takePart e f =
          { e with totalBytes := e.totalBytes - b, partBytes := e.partBytes.erase f.1 } := by
        rw [takePart, hlook]
      have herase := weight_erase id e.partBytes f.1
      rw [weightAt_of_some hlook, id_eq] at herase
      obtain ⟨hle, hmono, hiff⟩ := @ih (takePart e f) (by rw [htake]; dsimp only; omega)
      have htotal : (takePart e f).totalBytes = e.totalBytes - b := by rw [htake]
      have hparts : ∀ p, (takePart e f).partBytes.lookup p =
          if p = f.1 then none else e.partBytes.lookup p := by
        intro p
        rw [htake]
        exact lookup_erase_eq _ _ _
      refine ⟨hle, by omega, ?_⟩
      constructor
      · intro hall g hg
        have hb : b = 0 := by omega
        obtain rfl | hg := List.mem_cons.mp hg
        · rw [hlook]
          rintro _ ⟨⟩
          exact hb
        · intro b' hb'
          by_cases hpart : g.1 = f.1
          · rw [hpart, hlook] at hb'
            cases hb'
            exact hb
          · exact hiff.mp (by omega) g hg b' (by rw [hparts, if_neg hpart]; exact hb')
      · intro hall
        have hb : b = 0 := hall f List.mem_cons_self b hlook
        have hrest : (gens.foldl takePart (takePart e f)).totalBytes = (takePart e f).totalBytes := by
          refine hiff.mpr fun g hg b' hb' => ?_
          rw [hparts] at hb'
          split at hb'
          · cases hb'
          · exact hall g (List.mem_cons_of_mem _ hg) b' hb'
        omega

theorem dropSkipped_eq (e : SealedEpoch) (gens : List FileId) :
    SealedFileCache.dropSkipped e gens =
      gens.foldl takePart { e with gens := e.gens.filter fun f => f ∉ gens } := rfl

variable {epoch : ℕ} {gens : List FileId}

theorem takenBytes_eq_zero_iff (h : Bounded c) (partBytes : Map ℕ ℕ) :
    takenBytes c epoch gens = 0 ↔
      KeepsBytes c (.handOffSkippedToRecovery epoch gens partBytes) := by
  rw [takenBytes, KeepsBytes]
  cases hse : c.epochs.lookup epoch with
  | none => exact iff_of_true rfl fun f _ se hmem => absurd hmem (Option.not_mem_none se)
  | some se =>
    dsimp only
    obtain ⟨-, hmono, hiff⟩ := @takePart_foldl gens
      { se with gens := se.gens.filter fun f => f ∉ gens } (h.epochs epoch se hse)
    rw [← dropSkipped_eq] at hmono hiff
    dsimp only at hmono hiff
    rw [Nat.sub_eq_zero_iff_le, ← Nat.le_antisymm_iff.trans (and_iff_right hmono), hiff]
    constructor
    · rintro hall f hf _ ⟨⟩
      exact hall f hf
    · exact fun hall f hf => hall f hf se rfl

/-- The references of an epoch are settled if it has some. -/
theorem settled_spec (h : Exceeds c d ∧ Bounded c) (o : Option (Map FileId ℕ)) :
    Exceeds (match o with
      | none => c
      | some refs => c.settleEpoch epoch (gens.foldl (fun r f => r.erase f) refs)) d ∧
    Bounded (match o with
      | none => c
      | some refs => c.settleEpoch epoch (gens.foldl (fun r f => r.erase f) refs)) := by
  cases o with
  | none => exact h
  | some refs => exact ⟨exceeds_settleEpoch epoch h.1 _, bounded_settleEpoch epoch h.2 _⟩

/-- A hand-off leaves what it takes off the epoch in the counter. -/
theorem handOff_spec (h : Exceeds c d ∧ Bounded c) (partBytes : Map ℕ ℕ) :
    Exceeds (c.handOffSkippedToRecovery epoch gens partBytes) (d + takenBytes c epoch gens) ∧
      Bounded (c.handOffSkippedToRecovery epoch gens partBytes) := by
  obtain ⟨hexceeds, hbounded⟩ := h
  have hskips : weight id (addCounts c.skipPartBytes partBytes) ≤
      c.skipBytes + (partBytes.entries.map fun e => e.2).sum := by
    rw [weight_addCounts]
    exact Nat.add_le_add_right hbounded.skips _
  rw [SealedFileCache.handOffSkippedToRecovery]
  dsimp only
  apply settled_spec
  cases hse : c.epochs.lookup epoch with
  | none =>
    have htaken : takenBytes c epoch gens = 0 := by rw [takenBytes, hse]
    rw [htaken]
    exact ⟨hexceeds, hbounded.epochs, hbounded.recovery, hskips⟩
  | some se =>
    obtain ⟨hle, hmono, -⟩ := @takePart_foldl gens
      { se with gens := se.gens.filter fun f => f ∉ gens } (hbounded.epochs epoch se hse)
    rw [← dropSkipped_eq] at hle hmono
    dsimp only at hmono
    have htaken : takenBytes c epoch gens =
        se.totalBytes - (SealedFileCache.dropSkipped se gens).totalBytes := by
      rw [takenBytes, hse]
    have hweight := @weight_replace c epoch se (SealedFileCache.dropSkipped se gens) hse
    rw [htaken]
    refine ⟨?_, bounded_replace epoch hbounded hle, hbounded.recovery, hskips⟩
    rw [Exceeds] at *
    dsimp only
    omega

end handOff

section runs

def start (reclaimEnabled : Bool) : SealedFileCache := { reclaimEnabled := reclaimEnabled }

/-- What a step adds to the excess of the counter. -/
def stepTaken (c : SealedFileCache) : CacheOp → ℕ
  | .handOffSkippedToRecovery epoch gens _ => takenBytes c epoch gens
  | _ => 0

theorem step_spec (h : Exceeds c d ∧ Bounded c) (op : CacheOp) :
    Exceeds (step c op) (d + stepTaken c op) ∧ Bounded (step c op) := by
  cases op with
  | addRecoveryGens gens totalBytes =>
    exact ⟨h.1, h.2.epochs, Nat.le_trans h.2.recovery (Nat.le_add_right _ _), h.2.skips⟩
  | addEpochWithRecoveryAdoption e refcount => exact addEpoch_spec h e refcount
  | handOffSkippedToRecovery epoch gens partBytes => exact handOff_spec h partBytes
  | releaseGens epoch gens => exact releaseGens_spec epoch h gens
  | releaseEpoch epoch => exact releaseGens_spec epoch h _

theorem stepTaken_eq_zero_iff (h : Bounded c) (op : CacheOp) :
    stepTaken c op = 0 ↔ KeepsBytes c op := by
  cases op with
  | handOffSkippedToRecovery epoch gens partBytes => exact takenBytes_eq_zero_iff h partBytes
  | addRecoveryGens gens totalBytes => exact iff_of_true rfl trivial
  | addEpochWithRecoveryAdoption e refcount => exact iff_of_true rfl trivial
  | releaseGens epoch gens => exact iff_of_true rfl trivial
  | releaseEpoch epoch => exact iff_of_true rfl trivial

theorem start_spec (reclaimEnabled : Bool) :
    Exceeds (start reclaimEnabled) 0 ∧ Bounded (start reclaimEnabled) :=
  ⟨rfl, ⟨fun e se h => by simp [start] at h, Nat.le_refl _, Nat.le_refl _⟩⟩

/-- In every run the counter is at least the sum, so that no release takes it below zero. -/
theorem exceeds_run (reclaimEnabled : Bool) (ops : List CacheOp) :
    ∃ d, Exceeds (run step (start reclaimEnabled) ops) d := by
  have hinv : ∀ c op, (∃ d, Exceeds c d ∧ Bounded c) → ∃ d, Exceeds (step c op) d ∧ Bounded (step c op) :=
    fun c op ⟨d, h⟩ => ⟨d + stepTaken c op, step_spec h op⟩
  obtain ⟨d, h, -⟩ := run_rule hinv ⟨0, start_spec reclaimEnabled⟩ ops
  exact ⟨d, h⟩

/-- The counter is exact in every state of a run exactly when no hand-off of the run takes bytes off
its epoch. -/
theorem accounted_iff (reclaimEnabled : Bool) (ops : List CacheOp) :
    Always step Accounted (start reclaimEnabled) ops ↔
      Guarded step KeepsBytes (start reclaimEnabled) ops := by
  have hstart := start_spec reclaimEnabled
  refine @always_iff_guarded _ _ step KeepsBytes (fun c => ∃ d, Exceeds c d ∧ Bounded c) Accounted
    ?_ ?_ (start reclaimEnabled) ops ⟨0, hstart⟩ (accounted_iff_exceeds.mpr hstart.1)
  · exact fun c op ⟨d, h⟩ => ⟨d + stepTaken c op, step_spec h op⟩
  · rintro c op ⟨d, -, hbounded⟩ hacc
    obtain ⟨hnext, -⟩ := step_spec ⟨accounted_iff_exceeds.mp hacc, hbounded⟩ op
    rw [← stepTaken_eq_zero_iff hbounded op, accounted_iff_exceeds]
    rw [Exceeds] at hnext ⊢
    omega

/-- An epoch of two partitions of 100 and 50 bytes. -/
def twoPartitions : CountedEpoch where
  entry :=
    { epoch := 1, tableVersion := 0, gens := [(0, 0), (1, 0)], totalBytes := 150
      partBytes := ((∅ : Map ℕ ℕ).insert 0 100).insert 1 50 }
  counted := by decide

/-- Partition 0 is skipped, and the epoch is released. -/
def skipOne : List CacheOp :=
  [.addEpochWithRecoveryAdoption twoPartitions 1,
    .handOffSkippedToRecovery 1 [(0, 0)] ((∅ : Map ℕ ℕ).insert 0 100), .releaseEpoch 1]

theorem not_accounted_skipOne : ¬ Always step Accounted (start true) skipOne := by
  intro h
  -- no epoch is left, and 100 bytes are
  have hexact := (always_iff.mp h skipOne (List.prefix_refl _)).exact
  have hbytes : (run step (start true) skipOne).sealedBytes = 100 := by decide +kernel
  have hnone : weight SealedEpoch.totalBytes (run step (start true) skipOne).epochs = 0 := by
    decide +kernel
  omega

end runs

end ZeroFlush.SealedBytes
