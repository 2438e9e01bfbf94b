import ZeroFlush.ContextHistory
import ZeroFlush.WriteGroups

/-! # Write batches across a crash

The records of a batch lie in the files of several partitions, which are flushed, synced and cut
independently of each other. -/
namespace ZeroFlush.BatchAtomicity
open FixedWidthCodec FiniteMaps WalFormat WalFiles PartitionedWal WalLogs WalOpening
  ConcatenatedFrames SequentialScan WalHistory PartitionTables Context ContextRuns ContextHistory
  UserKeys GuardedRuns WriteGroups

/-- The record is in an SST or is replayed after the crash. -/
def Kept (m : PartitionedWalManager) (materialized : List WalRecord) (cut : FileId → ℕ)
    (r : WalRecord) : Prop :=
  r ∈ materialized ∨ Visible (restart m cut).env r

/-- After every crash all records of the batch are there or none of them is. -/
def Atomic (m : PartitionedWalManager) (materialized batch : List WalRecord) : Prop :=
  ∀ cut : FileId → ℕ, (∀ r ∈ batch, Kept m materialized cut r) ∨
    ∀ r ∈ batch, ¬ Kept m materialized cut r

/-- The record has been written to its file. -/
def Flushed (s : Session) (r : WalRecord) : Prop :=
  ∃ f, r ∈ wholeFrames WalRecord.frame (s.ctx.wal.env.content f).length (s.recordsOf f)

/-- The record has been synced. -/
def Synced (s : Session) (r : WalRecord) : Prop :=
  ∃ f, r ∈ wholeFrames WalRecord.frame (s.ctx.wal.env.syncedSize f) (s.recordsOf f)

variable {s : Session} {r r' : WalRecord} {batch materialized : List WalRecord}

theorem scanned_injective : Function.Injective scanned := by
  intro a b h
  simp only [scanned, Scanned.mk.injEq] at h
  obtain ⟨hh, hk, hv⟩ := h
  have ht : a.type = b.type := congrArg ZfRecordHeader.type hh
  have hs : a.seq = b.seq := congrArg ZfRecordHeader.seq hh
  cases a
  cases b
  simp_all

theorem mem_of_mem_offsets {rs : List WalRecord} {off e : ℕ}
    (h : (scanned r, e) ∈ WalScanner.offsets off rs) : r ∈ rs := by
  induction rs generalizing off with
  | nil => cases h
  | cons q rs ih =>
    cases List.mem_cons.mp h with
    | inl he =>
      have hq : scanned r = scanned q := congrArg Prod.fst he
      rw [scanned_injective hq]
      exact List.mem_cons_self
    | inr h => exact List.mem_cons_of_mem _ (ih h)

theorem visible_restart_iff (h : Tracked s) (cut : FileId → ℕ) :
    Visible (restart s.ctx.wal cut).env r ↔ ∃ f, r ∈ remaining s.hist cut f := by
  constructor
  · intro hv
    obtain ⟨⟨f, q, e⟩, hmem, hq⟩ := List.mem_map.mp hv
    obtain ⟨g, -, hg⟩ := List.mem_flatMap.mp hmem
    obtain ⟨x, hx, hpair⟩ := List.mem_map.mp hg
    cases hpair
    cases hq
    rw [h.scan_restart cut f] at hx
    exact ⟨f, mem_of_mem_offsets hx⟩
  · rintro ⟨f, hmem⟩
    obtain ⟨e, he⟩ := mem_offsets 0 hmem
    refine List.mem_map.mpr ⟨(f, scanned r, e), List.mem_flatMap.mpr ⟨f, ?_,
      List.mem_map.mpr ⟨_, ?_, rfl⟩⟩, rfl⟩
    · -- a file with a record is there
      rw [Env.mem_listFiles, env_restart, Env.exists?_crash]
      by_contra hne
      rw [Session.remaining_eq, cutLength, Env.content_of_not_exists (by simpa using hne), List.length_nil,
        Nat.min_zero, wholeFrames_zero _ frame_pos] at hmem
      cases hmem
    · rw [h.scan_restart cut f]
      exact he

theorem synced_le_cut (h : Tracked s) (cut : FileId → ℕ) (f : FileId) :
    s.ctx.wal.env.syncedSize f ≤ cutLength s.ctx.wal cut f := by
  obtain ⟨rs, hrs⟩ := Option.ne_none_iff_exists'.mp (h.untorn f)
  exact synced_le_cutLength (h.tracks.whole f rs hrs) cut

theorem visible_of_synced (h : Tracked s) (hr : Synced s r) (cut : FileId → ℕ) :
    Visible (restart s.ctx.wal cut).env r := by
  obtain ⟨f, hf⟩ := hr
  exact (visible_restart_iff h cut).mpr
    ⟨f, (wholeFrames_mono _ (synced_le_cut h cut f) _).subset hf⟩

theorem flushed_of_visible (h : Tracked s) {cut : FileId → ℕ}
    (hr : Visible (restart s.ctx.wal cut).env r) : Flushed s r := by
  obtain ⟨f, hf⟩ := (visible_restart_iff h cut).mp hr
  exact ⟨f, (wholeFrames_mono _ (Nat.min_le_right _ _) _).subset hf⟩

/-- No record is in two files. -/
def OneFile (s : Session) : Prop := ∀ f g, ∀ r ∈ s.recordsOf f, r ∈ s.recordsOf g → f = g

/-- The crash that keeps `n` bytes of `f` and the synced bytes of every other file. -/
def cutAt (f : FileId) (n : ℕ) : FileId → ℕ := Function.update (fun _ => 0) f n

theorem remaining_cutAt_self (f : FileId) {n : ℕ}
    (hs : s.ctx.wal.env.syncedSize f ≤ n) (hc : n ≤ (s.ctx.wal.env.content f).length) :
    remaining s.hist (cutAt f n) f = wholeFrames WalRecord.frame n (s.recordsOf f) := by
  rw [Session.remaining_eq, cutLength, cutAt, Function.update_self, max_eq_left hs, min_eq_left hc]

theorem remaining_cutAt_of_ne (h : Tracked s) {f g : FileId} (hg : g ≠ f) (n : ℕ) :
    remaining s.hist (cutAt f n) g =
      wholeFrames WalRecord.frame (s.ctx.wal.env.syncedSize g) (s.recordsOf g) := by
  have hle := synced_le_cut h (cutAt f n) g
  rw [Session.remaining_eq]
  congr 1
  rw [cutLength, cutAt, Function.update_of_ne hg] at hle ⊢
  omega

/-- A flushed record and another one that is not synced are separated by some crash. -/
theorem exists_separating_cut (h : Tracked s) (hone : OneFile s) (hne : r ≠ r')
    (hr : Flushed s r) (hr' : ¬ Synced s r') :
    ∃ cut, (Visible (restart s.ctx.wal cut).env r ∧ ¬ Visible (restart s.ctx.wal cut).env r') ∨
      (Visible (restart s.ctx.wal cut).env r' ∧ ¬ Visible (restart s.ctx.wal cut).env r) := by
  obtain ⟨f, hf⟩ := hr
  have hlost : ∀ g, r' ∉ wholeFrames WalRecord.frame (s.ctx.wal.env.syncedSize g) (s.recordsOf g) :=
    fun g hg => hr' ⟨g, hg⟩
  have hle : s.ctx.wal.env.syncedSize f ≤ (s.ctx.wal.env.content f).length := by
    obtain ⟨rs, hrs⟩ := Option.ne_none_iff_exists'.mp (h.untorn f)
    exact (h.tracks.whole f rs hrs).synced_le
  -- a cut of `f` at which exactly one of the two records is left in `f`
  obtain ⟨n, hsn, hnc, hcut⟩ : ∃ n, s.ctx.wal.env.syncedSize f ≤ n ∧
      n ≤ (s.ctx.wal.env.content f).length ∧
      (r ∈ wholeFrames WalRecord.frame n (s.recordsOf f) ∧
          r' ∉ wholeFrames WalRecord.frame n (s.recordsOf f) ∨
        r' ∈ wholeFrames WalRecord.frame n (s.recordsOf f) ∧
          r ∉ wholeFrames WalRecord.frame n (s.recordsOf f)) := by
    by_cases hmem : r' ∈ s.recordsOf f
    · exact exists_cut_between _ frame_pos hle hne hf hmem (hlost f)
    · exact ⟨_, hle, le_rfl, .inl ⟨hf, fun hc => hmem ((wholeFrames_isPrefix _ _ _).subset hc)⟩⟩
  refine ⟨cutAt f n, ?_⟩
  simp only [visible_restart_iff h]
  have hself := remaining_cutAt_self f hsn hnc
  obtain ⟨hin, hout⟩ | ⟨hin, hout⟩ := hcut
  · refine .inl ⟨⟨f, hself ▸ hin⟩, ?_⟩
    rintro ⟨g, hg⟩
    cases eq_or_ne g f with
    | inl he =>
      subst he
      exact hout (hself ▸ hg)
    | inr he => exact hlost g (remaining_cutAt_of_ne h he n ▸ hg)
  · refine .inr ⟨⟨f, hself ▸ hin⟩, ?_⟩
    rintro ⟨g, hg⟩
    cases eq_or_ne g f with
    | inl he =>
      subst he
      exact hout (hself ▸ hg)
    | inr he =>
      have hrf := (wholeFrames_isPrefix _ _ _).subset hf
      have hrg := (wholeFrames_isPrefix _ _ _).subset hg
      exact he (hone g f r hrg hrf)

theorem exists_mem_ne (hnd : batch.Nodup) (hlen : 1 < batch.length) (a : WalRecord) :
    ∃ c ∈ batch, c ≠ a := by
  match batch, hlen with
  | x :: y :: rest, _ =>
    cases eq_or_ne x a with
    | inr hx => exact ⟨x, List.mem_cons_self, hx⟩
    | inl hx =>
      refine ⟨y, by simp, ?_⟩
      rintro rfl
      exact (List.nodup_cons.mp hnd).1 (hx ▸ List.mem_cons_self)

/-- Two records of a batch that some crash separates. -/
theorem exists_separated (h : Tracked s) (hnd : batch.Nodup) (hlen : 1 < batch.length)
    (hlost : ∃ b ∈ batch, b ∉ materialized ∧ ¬ Synced s b)
    (hkept : ∃ a ∈ batch, a ∈ materialized ∨ Flushed s a) :
    ∃ x ∈ batch, ∃ y ∈ batch, x ≠ y ∧ (x ∈ materialized ∨ Flushed s x) ∧
      y ∉ materialized ∧ ¬ Synced s y := by
  obtain ⟨b, hb, hbm, hbs⟩ := hlost
  obtain ⟨a, ha, hak⟩ := hkept
  cases eq_or_ne a b with
  | inr hne => exact ⟨a, ha, b, hb, hne, hak, hbm, hbs⟩
  | inl he =>
    subst he
    -- the record itself is flushed and not synced: take any other one
    obtain ⟨c, hc, hca⟩ := exists_mem_ne hnd hlen a
    by_cases hcm : c ∈ materialized
    · exact ⟨c, hc, a, ha, hca, .inl hcm, hbm, hbs⟩
    · by_cases hcs : Synced s c
      · have hcf := flushed_of_visible h (visible_of_synced h hcs fun _ => 0)
        exact ⟨c, hc, a, ha, hca, .inr hcf, hbm, hbs⟩
      · exact ⟨a, ha, c, hc, hca.symm, hak, hcm, hcs⟩

/-- A crash keeps no record that is neither synced nor in an SST, if it keeps the synced bytes
only. -/
theorem not_kept_of_not_synced (h : Tracked s) (hm : r ∉ materialized) (hs : ¬ Synced s r) :
    ¬ Kept s.ctx.wal materialized (fun _ => 0) r := by
  rintro (hc | hv)
  · exact hm hc
  · obtain ⟨f, hf⟩ := (visible_restart_iff h _).mp hv
    have hle := synced_le_cut h (fun _ => 0) f
    have hcut : cutLength s.ctx.wal (fun _ => 0) f = s.ctx.wal.env.syncedSize f := by
      rw [cutLength] at hle ⊢
      omega
    rw [Session.remaining_eq, hcut] at hf
    exact hs ⟨f, hf⟩

/-- A batch is atomic exactly when it has at most one record, or all of it is synced or in an SST,
or nothing of it has left the buffers. -/
theorem atomic_iff (h : Tracked s) (hone : OneFile s) (hnd : batch.Nodup) :
    Atomic s.ctx.wal materialized batch ↔ batch.length ≤ 1 ∨
      (∀ r ∈ batch, r ∈ materialized ∨ Synced s r) ∨
      ∀ r ∈ batch, r ∉ materialized ∧ ¬ Flushed s r := by
  constructor
  · intro hatomic
    by_contra hcon
    push Not at hcon
    obtain ⟨hlen, hlost, hkept⟩ := hcon
    obtain ⟨x, hx, y, hy, hxy, hxk, hym, hys⟩ := exists_separated h hnd hlen hlost
      (hkept.imp fun a ha => ⟨ha.1, or_iff_not_imp_left.mpr ha.2⟩)
    obtain hxm | hxf := hxk
    · obtain hall | hnone := hatomic fun _ => 0
      · exact not_kept_of_not_synced h hym hys (hall y hy)
      · exact hnone x hx (.inl hxm)
    · by_cases hxm : x ∈ materialized
      · obtain hall | hnone := hatomic fun _ => 0
        · exact not_kept_of_not_synced h hym hys (hall y hy)
        · exact hnone x hx (.inl hxm)
      · obtain ⟨cut, hcut⟩ := exists_separating_cut h hone hxy hxf hys
        obtain ⟨hvis, hinv⟩ | ⟨hvis, hinv⟩ := hcut
        · obtain hall | hnone := hatomic cut
          · exact (hall y hy).elim hym hinv
          · exact hnone x hx (.inr hvis)
        · obtain hall | hnone := hatomic cut
          · exact (hall x hx).elim hxm hinv
          · exact hnone y hy (.inr hvis)
  · rintro (hlen | hsync | hbuf) cut
    · match batch, hlen with
      | [], _ => exact .inl (by simp)
      | [a], _ =>
        by_cases hv : Kept s.ctx.wal materialized cut a
        · exact .inl (by simpa using hv)
        · exact .inr (by simpa using hv)
    · exact .inl fun r hr => (hsync r hr).imp_right fun hs => visible_of_synced h hs cut
    · refine .inr fun r hr hk => ?_
      exact hk.elim (hbuf r hr).1 fun hv => (hbuf r hr).2 (flushed_of_visible h hv)

/-- A session with the records of the sealed files that were removed once an SST held them. -/
structure BatchRun where
  session : Session
  materialized : List WalRecord

namespace BatchRun

def start (zfo : ZeroFlushOptions) (ucmp : UserComparator) (tables : PartitionTableSet)
    (sampler : Option KeySampler) : BatchRun :=
  ⟨Session.start zfo ucmp tables sampler, []⟩

def step (b : BatchRun) (op : ContextOp) : BatchRun where
  session := b.session.step op
  materialized := match op with
    | .purgeSealedFiles =>
      b.materialized ++ b.session.ctx.sealedCache.pendingUnlink.flatMap b.session.recordsOf
    | _ => b.materialized

end BatchRun

/-- No record is written again while a file holds it. -/
def Fresh (s : Session) : ContextOp → Prop
  | .addRecord r _ _ => ∀ f ∈ s.ctx.wal.env.listFiles, r ∉ s.recordsOf f
  | _ => True

instance decidableFresh (s : Session) : (op : ContextOp) → Decidable (Fresh s op)
  | .addRecord r _ _ =>
    inferInstanceAs (Decidable (∀ f ∈ s.ctx.wal.env.listFiles, r ∉ s.recordsOf f))
  | .sync _ | .freezeBatchPartitions _ | .freezeOnePartition | .sealEpochAndSwitch _
  | .releaseEpoch _ | .purgeSealedFiles | .reopen _ | .crash _ _ => .isTrue trivial

def StepOk (b : BatchRun) (op : ContextOp) : Prop := OpOk b.session op ∧ Fresh b.session op

instance (b : BatchRun) (op : ContextOp) : Decidable (StepOk b op) :=
  inferInstanceAs (Decidable (_ ∧ _))

structure Consistent (b : BatchRun) : Prop where
  tracked : Tracked b.session
  oneFile : OneFile b.session

theorem oneFile_step {b : BatchRun} {op : ContextOp} (hok : StepOk b op) (h : Tracked b.session)
    (hone : OneFile b.session) : OneFile (b.step op).session := by
  intro f g q hf hg
  obtain ⟨r, v, rnd, k, rfl, hstep⟩ | hstep := recordsOf_step b.session op
  · have hold : ∀ e, q ∈ (b.session.step (.addRecord r v rnd)).recordsOf e →
        q ∈ b.session.recordsOf e ∨ (q = r ∧ e = k) := by
      intro e he
      rw [hstep e] at he
      split at he
      next hek =>
        subst hek
        show q ∈ (b.session.records e).getD [] ∨ _
        cases hk : b.session.records e with
        | none => simp [hk] at he
        | some rs => simpa [hk] using he
      next => exact .inl he
    have hfresh : ∀ e, r ∉ b.session.recordsOf e :=
      fun e he => hok.2 e (exists_of_mem_recordsOf h.tracks h.untorn he) he
    obtain hf' | ⟨rfl, rfl⟩ := hold f hf
    · obtain hg' | ⟨rfl, rfl⟩ := hold g hg
      · exact hone f g q hf' hg'
      · exact absurd hf' (hfresh f)
    · obtain hg' | ⟨-, rfl⟩ := hold g hg
      · exact absurd hg' (hfresh g)
      · rfl
  · exact hone f g q ((hstep f).subset hf) ((hstep g).subset hg)

theorem consistent_step (b : BatchRun) (op : ContextOp) (hok : StepOk b op) (h : Consistent b) :
    Consistent (b.step op) :=
  ⟨tracked_step b.session op hok.1 h.tracked, oneFile_step hok h.tracked h.oneFile⟩

theorem consistent_start (zfo : ZeroFlushOptions) (ucmp : UserComparator)
    (tables : PartitionTableSet) (sampler : Option KeySampler) :
    Consistent (.start zfo ucmp tables sampler) := by
  refine ⟨tracked_start zfo ucmp tables sampler, ?_⟩
  intro f g r hr
  cases hr

/-- In every state of a guarded run a batch is atomic exactly when it has at most one record, or
all of it is synced or in an SST, or nothing of it has left the buffers. -/
theorem batch_atomic_iff_of_guarded (zfo : ZeroFlushOptions) (ucmp : UserComparator)
    (tables : PartitionTableSet) (sampler : Option KeySampler) (ops : List ContextOp)
    (hg : Guarded BatchRun.step StepOk (.start zfo ucmp tables sampler) ops)
    (batch : List WalRecord) (hnd : batch.Nodup) :
    let b := run BatchRun.step (.start zfo ucmp tables sampler) ops
    Atomic b.session.ctx.wal b.materialized batch ↔ batch.length ≤ 1 ∨
      (∀ r ∈ batch, r ∈ b.materialized ∨ Synced b.session r) ∨
      ∀ r ∈ batch, r ∉ b.materialized ∧ ¬ Flushed b.session r := by
  have h := invariant_run consistent_step (consistent_start zfo ucmp tables sampler) hg
  exact atomic_iff h.tracked h.oneFile hnd

/-- The two keys lie in different partitions. -/
def pair : List BatchUpdate := [.put 0 [97] [1], .put 0 [99] [2]]

/-- A batch of two records, followed by the syncs of both partitions. -/
def pairSynced : List ContextOp := addOps 0 (fun _ => 0) 1 pair ++ [.sync 0, .sync 1]

theorem batch_atomic_of_pairSynced :
    Guarded BatchRun.step StepOk (.start { partitions := 2 } .bytewise twoPartitions none)
        pairSynced ∧
      let b := run BatchRun.step (.start { partitions := 2 } .bytewise twoPartitions none) pairSynced
      Atomic b.session.ctx.wal b.materialized (recordsFrom 1 pair) := by
  have hg : Guarded BatchRun.step StepOk (.start { partitions := 2 } .bytewise twoPartitions none)
      pairSynced := by decide +kernel
  have hsync : ∀ r ∈ recordsFrom 1 pair, ∃ f ∈ [((0 : ℕ), (0 : ℕ)), (1, 0)],
      let b := run BatchRun.step (.start { partitions := 2 } .bytewise twoPartitions none) pairSynced
      r ∈ wholeFrames WalRecord.frame (b.session.ctx.wal.env.syncedSize f)
        (b.session.recordsOf f) := by
    decide +kernel
  refine ⟨hg, (batch_atomic_iff_of_guarded { partitions := 2 } .bytewise twoPartitions none
    pairSynced hg (recordsFrom 1 pair) (by decide)).mpr (.inr (.inl ?_))⟩
  intro r hr
  obtain ⟨f, -, hf⟩ := hsync r hr
  exact .inr ⟨f, hf⟩

/-- The batch written without `sync`. -/
def pairWritten : Except Status Unit × ZeroFlushContext :=
  writeGroup (start { partitions := 2 } .bytewise twoPartitions none) pair 1 false [] fun _ => 0

/-- A later write to the partition of the first record, with `sync`. -/
def laterSynced : Except Status Unit × ZeroFlushContext :=
  writeGroup pairWritten.2 [.put 0 [97] [3]] 3 true [] fun _ => 0

/-- A crash that keeps the synced bytes only, and `Recover`. -/
def pairRecovered : ZeroFlushContext := step laterSynced.2 (.crash (fun _ => 0) twoPartitions)

/-- Both groups are acknowledged; after the crash the first record of the batch is there without
the second. -/
theorem batch_atomic_fails :
    pairWritten.1 = .ok () ∧ laterSynced.1 = .ok () ∧
      pairRecovered.getFromPartitionIndex none [97] 2 = .found [1] ∧
      pairRecovered.getFromPartitionIndex none [99] 2 = .miss ∧
      ¬ Atomic laterSynced.2.wal [] (recordsFrom 1 pair) := by
  have hcut : ¬ ((∀ r ∈ recordsFrom 1 pair, Visible (restart laterSynced.2.wal fun _ => 0).env r) ∨
      ∀ r ∈ recordsFrom 1 pair, ¬ Visible (restart laterSynced.2.wal fun _ => 0).env r) := by
    decide +kernel
  refine ⟨by decide +kernel, by decide +kernel, by decide +kernel, by decide +kernel,
    fun hatomic => hcut ?_⟩
  refine (hatomic fun _ => 0).imp (fun h r hr => ?_) fun h r hr hv => h r hr (.inr hv)
  exact (h r hr).resolve_left List.not_mem_nil

end ZeroFlush.BatchAtomicity
