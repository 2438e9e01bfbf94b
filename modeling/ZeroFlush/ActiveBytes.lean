import Mathlib.Data.Nat.ModEq
import ZeroFlush.FaultyWal
import ZeroFlush.GuardedRuns
import ZeroFlush.WalOpening
import ZeroFlush.WeightedMaps

/-! # The counters of active bytes

A partition counts the bytes of its active generation, and the manager those of all partitions. The
counters are words of 64 bits, so that equal counters are congruent numbers. `Open` adds what it
finds to the counter of the manager and takes nothing off it. -/
namespace ZeroFlush.ActiveBytes
open FixedWidthCodec FiniteMaps WeightedMaps WalFormat WalFiles PartitionedWal FaultyWal GuardedRuns

/-- `directory`: the files change between the calls. -/
inductive WalOp
  | open_ (faults : Faults)
  | append (faults : Faults) (part : ℕ) (r : WalRecord)
  | sync (faults : Faults) (part : ℕ)
  | freeze (faults : Faults) (part : ℕ)
  | directory (env : Env)

def step (m : PartitionedWalManager) : WalOp → PartitionedWalManager
  | .open_ faults => (open_ faults m).2
  | .append faults part r => (append faults m part r).2
  | .sync faults part => (sync faults m part).2
  | .freeze faults part => (freeze faults m part).2
  | .directory env => { m with env := env }

/-- The counters of one partition. -/
structure Counted (p : Partition) : Prop where
  active : p.activeBytes ≡ p.totalSize [MOD 2 ^ 64]
  size : p.totalSize = p.flushedSize + p.buf.length

/-- The counters of the manager. `Freeze` takes the size of a partition off the total, which does
not go below zero as long as the bytes of all partitions fit a word. -/
structure CountersExact (m : PartitionedWalManager) : Prop where
  total : m.totalActiveBytes ≡ weight Partition.activeBytes m.parts [MOD 2 ^ 64]
  counted : ∀ i p, m.parts.lookup i = some p → Counted p
  noUnderflow : weight Partition.totalSize m.parts < 2 ^ 64 →
    ∀ i p, m.parts.lookup i = some p → p.totalSize ≤ m.totalActiveBytes

/-- `Open` returns at this partition with an error. -/
def failsAt (faults : Faults) (m : PartitionedWalManager) (i : ℕ) : Bool :=
  (m.parts.lookup i).isSome && m.env.listFiles.any (fun f => f.1 == i) &&
    ((faults.newRandomAccessFile i).isSome || (faults.getFileSize i).isSome)

/-- The partitions that `Open` gets through. -/
def reached (faults : Faults) (m : PartitionedWalManager) : List ℕ :=
  if faults.createDirIfMissing.isSome || faults.getChildren.isSome then []
  else (List.range m.partitions).takeWhile fun i => !failsAt faults m i

/-- `Open` is called while none of the partitions it gets through has logged anything. -/
def OpensEmpty (m : PartitionedWalManager) : WalOp → Prop
  | .open_ faults => ∀ i ∈ reached faults m, ∀ p ∈ m.parts.lookup i, p.totalSize = 0
  | _ => True

instance decidableOpensEmpty (m : PartitionedWalManager) : (op : WalOp) → Decidable (OpensEmpty m op)
  | .open_ faults =>
    inferInstanceAs (Decidable (∀ i ∈ reached faults m, ∀ p ∈ m.parts.lookup i, p.totalSize = 0))
  | .append .. | .sync .. | .freeze .. | .directory _ => .isTrue trivial

/-- What the steps preserve. -/
structure Tallied (m : PartitionedWalManager) : Prop where
  total : m.totalActiveBytes ≡ weight Partition.activeBytes m.parts [MOD 2 ^ 64]
  word : m.totalActiveBytes < 2 ^ 64
  counted : ∀ i p, m.parts.lookup i = some p → Counted p

section sums
variable {m : PartitionedWalManager} {part : ℕ} {p q : Partition}

theorem weight_active_modEq (parts : Map ℕ Partition)
    (h : ∀ i p, parts.lookup i = some p → Counted p) :
    weight Partition.activeBytes parts ≡ weight Partition.totalSize parts [MOD 2 ^ 64] := by
  have hentries : ∀ e ∈ parts.entries, e.2.activeBytes ≡ e.2.totalSize [MOD 2 ^ 64] :=
    fun e he => (h e.1 e.2 (AList.mem_lookup_iff.mpr he)).active
  rw [weight, weight]
  generalize parts.entries = es at hentries
  induction es with
  | nil => exact Nat.ModEq.refl 0
  | cons e es ih =>
    rw [List.map_cons, List.map_cons, List.sum_cons, List.sum_cons]
    exact (hentries e List.mem_cons_self).add (ih fun d hd => hentries d (List.mem_cons_of_mem _ hd))

theorem Tallied.countersExact (h : Tallied m) : CountersExact m := by
  refine ⟨h.total, h.counted, fun hfits i p hp => ?_⟩
  have hsum := h.total.trans (weight_active_modEq m.parts h.counted)
  have hle := weightAt_le Partition.totalSize m.parts i
  rw [weightAt_of_some hp] at hle
  have heq : m.totalActiveBytes = weight Partition.totalSize m.parts :=
    Nat.ModEq.eq_of_lt_of_lt hsum h.word hfits
  omega

/-- One partition is replaced, and the total follows its change. -/
theorem tallied_insert (h : Tallied m) (hq : Counted q) {a d t : ℕ}
    (ha : weightAt Partition.activeBytes m.parts part ≡ a [MOD 2 ^ 64])
    (hactive : q.activeBytes ≡ a + d [MOD 2 ^ 64]) (ht : t ≡ m.totalActiveBytes + d [MOD 2 ^ 64])
    (hword : t < 2 ^ 64) {m' : PartitionedWalManager} (hparts : m'.parts = m.parts.insert part q)
    (htotal : m'.totalActiveBytes = t) : Tallied m' := by
  refine ⟨?_, by omega, fun i p hp => ?_⟩
  · have hinsert := weight_insert Partition.activeBytes m.parts part q
    rw [hparts, htotal]
    refine Nat.ModEq.add_right_cancel ha.symm ?_
    rw [hinsert]
    calc t + a ≡ m.totalActiveBytes + d + a [MOD 2 ^ 64] := ht.add_right a
      _ = m.totalActiveBytes + (a + d) := by omega
      _ ≡ weight Partition.activeBytes m.parts + q.activeBytes [MOD 2 ^ 64] :=
        h.total.add hactive.symm
  · rw [hparts, lookup_insert_eq] at hp
    split at hp
    · cases hp
      exact hq
    · exact h.counted i p hp

/-- A partition gets other handles, another generation or an emptier buffer. -/
theorem tallied_replace (h : Tallied m) (hp : weightAt Partition.activeBytes m.parts part =
      p.activeBytes) (hq : Counted q) (hactive : q.activeBytes = p.activeBytes)
    {m' : PartitionedWalManager} (hparts : m'.parts = m.parts.insert part q)
    (htotal : m'.totalActiveBytes = m.totalActiveBytes) : Tallied m' := by
  refine @tallied_insert m part q h hq p.activeBytes 0 m.totalActiveBytes ?_ ?_ (Nat.ModEq.refl _)
    h.word m' hparts htotal
  · rw [hp]
  · rw [hactive, Nat.add_zero]

end sums

section operations
variable {m : PartitionedWalManager} {faults : Faults} {env : Env} {p : Partition}

theorem counted_ensureOpenForWrite (hp : Counted p) :
    Counted (FaultyWal.ensureOpenForWrite faults env p).2.2 ∧
      (FaultyWal.ensureOpenForWrite faults env p).2.2.activeBytes = p.activeBytes := by
  rw [FaultyWal.ensureOpenForWrite]
  cases p.wfile with
  | some _ => exact ⟨hp, rfl⟩
  | none =>
    cases faults.reopenWritableFile with
    | some _ => exact ⟨hp, rfl⟩
    | none =>
      cases p.rfile with
      | some _ => exact ⟨⟨hp.active, hp.size⟩, rfl⟩
      | none =>
        dsimp only
        cases faults.newRandomAccessFile p.partId with
        | some _ => exact ⟨⟨hp.active, hp.size⟩, rfl⟩
        | none => exact ⟨⟨hp.active, hp.size⟩, rfl⟩

/-- A flush moves bytes from the buffer to the file or leaves both. -/
theorem counted_flushBuf (hp : Counted p) : Counted (FaultyWal.flushBuf faults env p).2.2 ∧
    (FaultyWal.flushBuf faults env p).2.2.activeBytes = p.activeBytes := by
  rw [FaultyWal.flushBuf]
  split
  · cases faults.append with
    | some _ => exact ⟨hp, rfl⟩
    | none =>
      dsimp only
      rw [PartitionedWal.flushBuf]
      split
      · exact ⟨⟨hp.active, rfl⟩, rfl⟩
      · exact ⟨hp, rfl⟩
  · exact ⟨hp, rfl⟩

theorem totalSize_flushBuf : (FaultyWal.flushBuf faults env p).2.2.totalSize = p.totalSize := by
  rw [FaultyWal.flushBuf]
  split
  · cases faults.append with
    | some _ => rfl
    | none =>
      dsimp only
      rw [PartitionedWal.flushBuf]
      split
      · rfl
      · rfl
  · rfl

theorem counted_flushFull (hp : Counted p) : Counted (flushFull faults env p).2.2 ∧
    (flushFull faults env p).2.2.activeBytes = p.activeBytes := by
  rw [flushFull]
  split
  · exact counted_flushBuf hp
  · exact ⟨hp, rfl⟩

theorem counted_bufferFrame (hp : Counted p) (frame : Bytes) : Counted (bufferFrame p frame) := by
  refine ⟨?_, ?_⟩
  · exact (Nat.mod_modEq _ _).trans (hp.active.add_right _)
  · rw [bufferFrame, List.length_append, hp.size, Nat.add_assoc]

theorem counted_openGen (hp : Counted p) : Counted (FaultyWal.openGen faults env p).2.2 ∧
    (FaultyWal.openGen faults env p).2.2.activeBytes = p.activeBytes := by
  rw [FaultyWal.openGen]
  cases faults.newWritableFile with
  | some _ => exact ⟨hp, rfl⟩
  | none =>
    dsimp only
    cases faults.newRandomAccessFile p.partId with
    | some _ => exact ⟨⟨hp.active, hp.size⟩, rfl⟩
    | none => exact ⟨⟨hp.active, hp.size⟩, rfl⟩

/-- `Append` counts its frame everywhere, or fails before it counts anything. -/
theorem tallied_appendTo (h : Tallied m) (part : ℕ) (hp : Counted p)
    (hweight : weightAt Partition.activeBytes m.parts part = p.activeBytes) (r : WalRecord) :
    Tallied (appendTo faults m part p r).2 := by
  obtain ⟨hopened, hsame⟩ := @counted_ensureOpenForWrite faults m.env p hp
  rw [appendTo]
  generalize FaultyWal.ensureOpenForWrite faults m.env p = opened at hopened hsame
  obtain ⟨s, env, q⟩ := opened
  dsimp only at hopened hsame ⊢
  cases s with
  | some e => exact @tallied_replace m part p q h hweight hopened hsame _ rfl rfl
  | none =>
    dsimp only
    have hbuffered := counted_bufferFrame hopened r.frame
    obtain ⟨hflushed, hkept⟩ := @counted_flushFull faults env (bufferFrame q r.frame) hbuffered
    have hactive : (flushFull faults env (bufferFrame q r.frame)).2.2.activeBytes ≡
        p.activeBytes + r.frame.length [MOD 2 ^ 64] := by
      rw [hkept, ← hsame]
      exact Nat.mod_modEq _ _
    have hweight' : weightAt Partition.activeBytes m.parts part ≡ p.activeBytes [MOD 2 ^ 64] := by
      rw [hweight]
    have htallied := @tallied_insert m part _ h hflushed p.activeBytes r.frame.length
      ((m.totalActiveBytes + r.frame.length) % 2 ^ 64) hweight' hactive (Nat.mod_modEq _ _)
      (Nat.mod_lt _ (by decide))
    cases (flushFull faults env (bufferFrame q r.frame)).1 with
    | some e => exact htallied rfl rfl
    | none => exact htallied rfl rfl

theorem tallied_append (h : Tallied m) (part : ℕ) (r : WalRecord) :
    Tallied (FaultyWal.append faults m part r).2 := by
  rw [FaultyWal.append]
  cases hp : m.parts.lookup part with
  | some p => exact tallied_appendTo h part (h.counted part p hp) (weightAt_of_some hp) r
  | none =>
    dsimp only
    split
    · exact tallied_appendTo h part ⟨Nat.ModEq.refl 0, rfl⟩ (weightAt_of_none hp) r
    · exact h

theorem tallied_sync (h : Tallied m) (part : ℕ) : Tallied (FaultyWal.sync faults m part).2 := by
  rw [FaultyWal.sync]
  cases hp : m.parts.lookup part with
  | none => exact h
  | some p =>
    have hweight : weightAt Partition.activeBytes m.parts part = p.activeBytes := weightAt_of_some hp
    obtain ⟨hopened, hsame⟩ := @counted_ensureOpenForWrite faults m.env p (h.counted part p hp)
    dsimp only
    generalize FaultyWal.ensureOpenForWrite faults m.env p = opened at hopened hsame
    obtain ⟨s, env, q⟩ := opened
    dsimp only at hopened hsame ⊢
    cases s with
    | some e => exact @tallied_replace m part p q h hweight hopened hsame _ rfl rfl
    | none =>
      dsimp only
      obtain ⟨hflushed, hkept⟩ := @counted_flushBuf faults env q hopened
      have htallied := @tallied_replace m part p _ h hweight hflushed (hkept.trans hsame)
      cases (FaultyWal.flushBuf faults env q).1 with
      | some e => exact htallied rfl rfl
      | none =>
        dsimp only
        cases (FaultyWal.syncHandle faults (FaultyWal.flushBuf faults env q).2.1
            (FaultyWal.flushBuf faults env q).2.2).1 with
        | some e => exact htallied rfl rfl
        | none => exact htallied rfl rfl

/-- `Freeze` takes off the total what the partition had counted. -/
theorem tallied_freeze (h : Tallied m) (part : ℕ) : Tallied (FaultyWal.freeze faults m part).2 := by
  rw [FaultyWal.freeze]
  cases hp : m.parts.lookup part with
  | none => exact h
  | some p =>
    have hcounted := h.counted part p hp
    have hsealed : (if p.wfile.isSome = true then FaultyWal.flushBuf faults m.env p
        else (none, m.env, p)).2.2.totalSize = p.totalSize := by
      split
      · exact totalSize_flushBuf
      · rfl
    dsimp only
    rw [hsealed]
    generalize (FaultyWal.syncHandle faults _ p).2 = env
    generalize (if p.wfile.isSome = true then FaultyWal.flushBuf faults m.env p
      else (none, m.env, p)).2.2 = q
    have hfresh : Counted { q with
        wfile := none, rfile := none, gen := (q.gen + 1) % 2 ^ 32, flushedSize := 0,
        totalSize := 0, buf := [], activeBytes := 0 } := ⟨Nat.ModEq.refl 0, rfl⟩
    obtain ⟨hopened, hzero⟩ := @counted_openGen faults env _ hfresh
    have hle : p.totalSize % 2 ^ 64 ≤ 2 ^ 64 := Nat.le_of_lt (Nat.mod_lt _ (by decide))
    refine @tallied_insert m part _ h hopened p.totalSize (2 ^ 64 - p.totalSize % 2 ^ 64)
      ((m.totalActiveBytes + 2 ^ 64 - p.totalSize % 2 ^ 64) % 2 ^ 64) ?_ ?_ ?_
      (Nat.mod_lt _ (by decide)) _ rfl rfl
    · rw [weightAt_of_some hp]
      exact hcounted.active
    · rw [hzero]
      dsimp only
      rw [Nat.ModEq]
      omega
    · rw [← Nat.add_sub_assoc hle]
      exact Nat.mod_modEq _ _

/-- `Open` counts the file of a partition that has counted nothing. -/
theorem counted_openPartition (i : ℕ) (hp : Counted p) (hzero : p.totalSize = 0) :
    Counted (PartitionedWalManager.openPartition env i p) := by
  rw [PartitionedWalManager.openPartition]
  dsimp only
  split
  · exact ⟨Nat.ModEq.refl _, rfl⟩
  · have hactive := hp.active
    rw [hzero] at hactive
    exact ⟨hactive, rfl⟩

end operations

section opening
variable {m : PartitionedWalManager} {faults : Faults}

/-- Another size of a partition does not change where `Open` fails. -/
theorem failsAt_insert {i : ℕ} {p q : Partition} (hp : m.parts.lookup i = some p) (t : ℕ) (j : ℕ) :
    failsAt faults { m with parts := m.parts.insert i q, totalActiveBytes := t } j =
      failsAt faults m j := by
  rw [failsAt, failsAt]
  dsimp only
  rw [lookup_insert_eq]
  split
  next h => rw [h, hp]; rfl
  next => rfl

theorem tallied_openLoop (is : List ℕ) (hnodup : is.Nodup) (h : Tallied m)
    (hempty : ∀ i ∈ is.takeWhile fun i => !failsAt faults m i,
      ∀ p ∈ m.parts.lookup i, p.totalSize = 0) : Tallied (openLoop faults m is).2 := by
  induction is generalizing m with
  | nil => exact h
  | cons i is ih =>
    obtain ⟨hi, hnodup⟩ := List.nodup_cons.mp hnodup
    rw [openLoop]
    rw [List.takeWhile_cons] at hempty
    cases hp : m.parts.lookup i with
    | none =>
      have hfails : failsAt faults m i = false := by rw [failsAt, hp]; rfl
      rw [hfails, Bool.not_false, if_pos rfl] at hempty
      exact ih hnodup h fun j hj => hempty j (List.mem_cons_of_mem _ hj)
    | some p =>
      have hcounted := h.counted i p hp
      have hweight : weightAt Partition.activeBytes m.parts i = p.activeBytes := weightAt_of_some hp
      -- the rest of the loop, once this partition is opened
      have hrest : failsAt faults m i = false → ∀ t,
          Tallied { m with
            parts := m.parts.insert i (PartitionedWalManager.openPartition m.env i p)
            totalActiveBytes := t } →
          Tallied (openLoop faults { m with
            parts := m.parts.insert i (PartitionedWalManager.openPartition m.env i p)
            totalActiveBytes := t } is).2 := by
        intro hfails t ht
        rw [hfails, Bool.not_false, if_pos rfl] at hempty
        refine ih hnodup ht fun j hj q hq => ?_
        simp only [failsAt_insert hp] at hj
        have hne : j ≠ i := fun heq => hi (heq ▸ (List.takeWhile_sublist _).subset hj)
        have hq' : m.parts.lookup j = some q := by
          rw [← hq]
          exact ((lookup_insert_eq _ _ _ _).trans (if_neg hne)).symm
        exact hempty j (List.mem_cons_of_mem _ hj) q hq'
      have hzero : failsAt faults m i = false → p.totalSize = 0 := by
        intro hfails
        rw [hfails, Bool.not_false, if_pos rfl] at hempty
        exact hempty i List.mem_cons_self p hp
      dsimp only
      split
      next hlisted =>
        split
        · exact @tallied_replace m i p
            { p with gen := maxGen i m.env.listFiles, rfile := none } h hweight
            ⟨hcounted.active, hcounted.size⟩ rfl _ rfl rfl
        next hread =>
          split
          · exact @tallied_replace m i p
              { p with gen := maxGen i m.env.listFiles, rfile := some (i, maxGen i m.env.listFiles) } h
              hweight ⟨hcounted.active, hcounted.size⟩ rfl _ rfl rfl
          next hsize =>
            have hfails : failsAt faults m i = false := by
              rw [failsAt, hread, hsize, Bool.and_comm]
              rfl
            have hactive : p.activeBytes ≡ 0 [MOD 2 ^ 64] := hzero hfails ▸ hcounted.active
            refine hrest hfails _ (@tallied_insert m i _ h (counted_openPartition i hcounted
              (hzero hfails)) 0 (m.env.content (i, maxGen i m.env.listFiles)).length _ ?_ ?_
              (Nat.mod_modEq _ _) (Nat.mod_lt _ (by decide)) _ rfl rfl)
            · rw [hweight]
              exact hactive
            · rw [PartitionedWalManager.openPartition]
              dsimp only
              rw [if_pos hlisted, Nat.zero_add]
      next hlisted =>
        have hfails : failsAt faults m i = false := by
          rw [failsAt, Bool.eq_false_iff.mpr hlisted, Bool.and_false, Bool.false_and]
        refine hrest hfails m.totalActiveBytes (@tallied_replace m i p _ h hweight
          (counted_openPartition i hcounted (hzero hfails)) ?_ _ rfl rfl)
        rw [PartitionedWalManager.openPartition]
        dsimp only
        rw [if_neg hlisted]

theorem tallied_open (h : Tallied m) (hempty : OpensEmpty m (.open_ faults)) :
    Tallied (FaultyWal.open_ faults m).2 := by
  rw [OpensEmpty, reached] at hempty
  rw [FaultyWal.open_]
  split
  · exact h
  · exact h
  next hdir hlist =>
    rw [hdir, hlist] at hempty
    exact tallied_openLoop _ List.nodup_range h hempty

end opening

section runs

theorem tallied_step (m : PartitionedWalManager) (op : WalOp) (hok : OpensEmpty m op)
    (h : Tallied m) : Tallied (step m op) := by
  cases op with
  | open_ faults => exact tallied_open h hok
  | append faults part r => exact tallied_append h part r
  | sync faults part => exact tallied_sync h part
  | freeze faults part => exact tallied_freeze h part
  | directory env => exact ⟨h.total, h.word, h.counted⟩

theorem weight_create (env : Env) (partitions target : ℕ) :
    weight Partition.activeBytes (PartitionedWalManager.create env partitions target).parts = 0 := by
  rw [PartitionedWalManager.create]
  dsimp only
  induction partitions with
  | zero => exact weight_empty
  | succ n ih =>
    rw [List.range_succ, List.foldl_append, List.foldl_cons, List.foldl_nil]
    have hinsert := weight_insert Partition.activeBytes
      ((List.range n).foldl (fun m i => m.insert i { partId := i }) ∅) n { partId := n }
    dsimp only at hinsert
    omega

theorem tallied_create (env : Env) (partitions target : ℕ) :
    Tallied (.create env partitions target) := by
  refine ⟨?_, Nat.two_pow_pos 64, fun i p hp => ?_⟩
  · rw [weight_create]
    exact Nat.ModEq.refl 0
  · rw [WalOpening.lookup_create] at hp
    split at hp
    · cases hp
      exact ⟨Nat.ModEq.refl 0, rfl⟩
    · cases hp

/-- In a run that opens the manager only while it has logged nothing the counters are exact in every
state, whichever calls of the environment fail. -/
theorem countersExact_of_opensEmpty (env : Env) (partitions target : ℕ) (ops : List WalOp)
    (hok : Guarded step OpensEmpty (.create env partitions target) ops) :
    Always step CountersExact (.create env partitions target) ops := by
  apply always_rule tallied_step
  · exact fun s hinv => hinv.countersExact
  · exact tallied_create env partitions target
  · exact hok

/-- A directory in which partition 0 has five bytes in its first generation. -/
def fiveBytes : Env :=
  ((Env.empty.newWritableFile (0, 0)).appendFile (0, 0) [1, 2, 3, 4, 5])

/-- An append whose write fails, and the calls after it. -/
def logAndFreeze : List WalOp :=
  [.open_ faultless, .append faultless 0 ⟨[97], [98], 1, 1⟩, .sync { append := some (.ioError "", 3) } 0,
    .freeze faultless 0]

theorem countersExact_logAndFreeze :
    Always step CountersExact (.create fiveBytes 2 100) logAndFreeze :=
  countersExact_of_opensEmpty fiveBytes 2 100 logAndFreeze (by decide +kernel)

theorem not_countersExact_openTwice :
    ¬ Always step CountersExact (.create fiveBytes 2 100) [.open_ faultless, .open_ faultless] := by
  intro h
  have htotal := (always_iff.mp h _ (List.prefix_refl _)).total
  exact absurd htotal (by decide +kernel)

end runs

end ZeroFlush.ActiveBytes
