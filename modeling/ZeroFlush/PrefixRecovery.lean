import ZeroFlush.ContextHistory
import ZeroFlush.DurableFiles
import ZeroFlush.WriteGroups

/-! # Recovery of a prefix, partition by partition

For every partition we keep the acknowledged records in the order of their appends. What a crash
leaves of them is a prefix, and all of them once the partition has been synced. -/
namespace ZeroFlush.PrefixRecovery
open FixedWidthCodec FiniteMaps WalFormat WalFiles PartitionedWal WalLogs WalOpening
  ConcatenatedFrames SequentialScan WalHistory PartitionTables Context ContextRuns ContextHistory
  UserKeys GuardedRuns DurableFiles WriteGroups

/-- What `Recover` replays of a partition, in the order of the generations. -/
def replayedOf (env : Env) (part : ℕ) : List (FileId × Scanned) :=
  (List.range (maxGen part env.listFiles + 1)).flatMap fun g =>
    (WalScanner.scan (env.content (part, g))).1.map fun x => ((part, g), x.1)

/-- The acknowledged records of every partition. Those of a removed file are in an SST, those a
crash has taken are forgotten. -/
structure Journal where
  hist : History
  acked : ℕ → List (FileId × Scanned)

namespace Journal

def step (j : Journal) (op : HistoryOp) : Journal where
  hist := j.hist.step op
  acked := match op with
    | .append part r =>
      match j.hist.mgr.append part r with
      | (.ok ref, _) =>
        Function.update j.acked part (j.acked part ++ [(ref.file, scanned r)])
      | (.error _, _) => j.acked
    | .unlink f => fun part => (j.acked part).filter fun x => x.1 ≠ f
    | .crash cut => fun part => replayedOf (restart j.hist.mgr cut).env part
    | _ => j.acked

end Journal

/-- Frames fit into a block of the scanner, generations do not wrap around, only sealed files are
removed; a new session finds no later generation of the range deletions and no torn frame. -/
def JournalOk (j : Journal) : HistoryOp → Prop
  | .append _ r => r.frameLength ≤ kScanChunkSize
  | .freeze part => j.hist.mgr.activeGen part + 1 < 2 ^ 32
  | .unlink f => ∀ p ∈ j.hist.mgr.parts.lookup f.1, p.gen ≠ f.2
  | .reopen => Reopenable j.hist.mgr
  | .crash cut => Reopenable j.hist.mgr ∧ ∀ f ∈ j.hist.mgr.env.listFiles,
      (j.hist.records f).bind (survivors j.hist.mgr cut f) ≠ none
  | .sync _ | .close => True

instance (m : PartitionedWalManager) : Decidable (Reopenable m) :=
  inferInstanceAs (Decidable (∀ f ∈ _, _ → _))

instance decidableJournalOk (j : Journal) : (op : HistoryOp) → Decidable (JournalOk j op)
  | .append _ r => inferInstanceAs (Decidable (r.frameLength ≤ kScanChunkSize))
  | .freeze part => inferInstanceAs (Decidable (j.hist.mgr.activeGen part + 1 < 2 ^ 32))
  | .unlink f => inferInstanceAs (Decidable (∀ p ∈ j.hist.mgr.parts.lookup f.1, p.gen ≠ f.2))
  | .reopen => inferInstanceAs (Decidable (Reopenable j.hist.mgr))
  | .crash cut => inferInstanceAs (Decidable (Reopenable j.hist.mgr ∧
      ∀ f ∈ j.hist.mgr.env.listFiles, (j.hist.records f).bind (survivors j.hist.mgr cut f) ≠ none))
  | .sync _ | .close => .isTrue trivial

/-- The records of the files of a partition, in the order of the generations. -/
def logged (h : History) (part : ℕ) : List (FileId × Scanned) :=
  (List.range (h.mgr.activeGen part + 1)).flatMap fun g =>
    (h.recordsOf (part, g)).map fun r => ((part, g), scanned r)

structure Kept (j : Journal) : Prop where
  tracks : Tracks j.hist
  untorn : Untorn j.hist
  durable : Durable j.hist.mgr
  acked_eq : ∀ part, j.acked part = logged j.hist part

variable {j : Journal} {h h' : History} {part : ℕ}

theorem flatMap_range_of_empty {α : Type*} {F : ℕ → List α} {n k : ℕ} (hnk : n ≤ k)
    (hF : ∀ g, n < g → F g = []) :
    (List.range (k + 1)).flatMap F = (List.range (n + 1)).flatMap F := by
  induction k, hnk using Nat.le_induction with
  | base => rfl
  | succ k hk ih =>
    rw [List.range_succ, List.flatMap_append, ih, List.flatMap_singleton, hF (k + 1) (by omega),
      List.append_nil]

theorem recordsOf_eq_nil (ht : Tracks h) (hu : Untorn h) {f : FileId}
    (hf : h.mgr.env.exists? f = false) : h.recordsOf f = [] := by
  rw [List.eq_nil_iff_forall_not_mem]
  intro r hr
  have hex := Env.mem_listFiles.mp (exists_of_mem_recordsOf ht hu hr)
  rw [hf] at hex
  cases hex

/-- The scanner without its offsets. -/
theorem map_offsets (f : FileId) (off : ℕ) (rs : List WalRecord) :
    (WalScanner.offsets off rs).map (fun x => (f, x.1)) = rs.map fun r => (f, scanned r) := by
  induction rs generalizing off with
  | nil => rfl
  | cons r rs ih =>
    rw [WalScanner.offsets, List.map_cons, ih]
    rfl

theorem maxGen_crash (env : Env) (cut : FileId → ℕ) (part : ℕ) :
    maxGen part (env.crash cut).listFiles = maxGen part env.listFiles := by
  apply maxGen_congr
  intro f
  rw [Env.mem_listFiles, Env.exists?_crash, ← Env.mem_listFiles]

/-- Behind the newest generation in the directory there are no records. -/
theorem recordsOf_later (hk : Kept j) {g : ℕ} (hg : maxGen part j.hist.mgr.env.listFiles < g) :
    j.hist.recordsOf (part, g) = [] := by
  apply recordsOf_eq_nil hk.tracks hk.untorn
  by_contra hex
  have hmem : (part, g) ∈ j.hist.mgr.env.listFiles := Env.mem_listFiles.mpr (by simpa using hex)
  exact absurd (le_maxGen hmem) (by omega)

theorem replayedOf_restart (hk : Kept j) (cut : FileId → ℕ) (part : ℕ) :
    replayedOf (restart j.hist.mgr cut).env part =
      (List.range (j.hist.mgr.activeGen part + 1)).flatMap fun g =>
        (remaining j.hist cut (part, g)).map fun r => ((part, g), scanned r) := by
  have hscan : ∀ g, (WalScanner.scan ((restart j.hist.mgr cut).env.content (part, g))).1.map
      (fun x => ((part, g), x.1)) =
      (remaining j.hist cut (part, g)).map fun r => ((part, g), scanned r) := by
    intro g
    rw [scan_restart hk.tracks hk.untorn, map_offsets]
  rw [replayedOf, env_restart, maxGen_crash, ← env_restart]
  simp only [hscan]
  refine (flatMap_range_of_empty (hk.durable.maxGen_le part) ?_).symm
  intro g hg
  have hnil : remaining j.hist cut (part, g) = [] := by
    have hprefix := wholeFrames_isPrefix WalRecord.frame
      (cutLength j.hist.mgr cut (part, g)) (j.hist.recordsOf (part, g))
    rw [recordsOf_later hk hg] at hprefix
    rw [remaining, recordsOf_later hk hg]
    exact List.prefix_nil.mp hprefix
  rw [hnil, List.map_nil]

/-- Nothing is lost of a file whose whole log is synced. -/
theorem remaining_of_settled (hk : Kept j) {f : FileId}
    (hf : (log j.hist.mgr f).length ≤ j.hist.mgr.env.syncedSize f) (cut : FileId → ℕ) :
    remaining j.hist cut f = j.hist.recordsOf f := by
  obtain ⟨rs, hrs⟩ := Option.ne_none_iff_exists'.mp (hk.untorn f)
  have hw := hk.tracks.whole f rs hrs
  have hcut : cutLength j.hist.mgr cut f = (rs.flatMap WalRecord.frame).length := by
    have hle := (content_isPrefix_log j.hist.mgr f).length_le
    have hsync := hw.synced_le
    rw [← hw.log_eq, cutLength]
    omega
  rw [remaining, History.recordsOf, hrs, Option.getD_some, hcut, wholeFrames_length]

/-- The log of a sealed file is in the file. -/
theorem log_sealed {m : PartitionedWalManager} {f : FileId} (hf : f.2 ≠ m.activeGen f.1) :
    log m f = m.env.content f := by
  rw [log, buffered]
  rw [PartitionedWalManager.activeGen] at hf
  cases hp : m.parts.lookup f.1 with
  | none => exact List.append_nil _
  | some p =>
    rw [hp] at hf
    dsimp only
    rw [if_neg hf.symm, List.append_nil]

/-- What a crash leaves of a partition is a prefix of its acknowledged records. -/
theorem replayedOf_isPrefix (hk : Kept j) (cut : FileId → ℕ) (part : ℕ) :
    replayedOf (restart j.hist.mgr cut).env part <+: j.acked part := by
  have hsealed : ∀ g ∈ List.range (j.hist.mgr.activeGen part),
      (remaining j.hist cut (part, g)).map (fun r => (((part, g) : FileId), scanned r)) =
        (j.hist.recordsOf (part, g)).map fun r => ((part, g), scanned r) := by
    intro g hg
    have hne : g ≠ j.hist.mgr.activeGen part := (List.mem_range.mp hg).ne
    rw [remaining_of_settled hk]
    rw [log_sealed hne]
    exact hk.durable.closed hne
  rw [replayedOf_restart hk, hk.acked_eq, logged, List.range_succ, List.flatMap_append,
    List.flatMap_append, List.flatMap_singleton, List.flatMap_singleton,
    List.flatMap_congr hsealed]
  apply (List.prefix_append_right_inj _).mpr
  exact (wholeFrames_isPrefix _ _ _).map _

/-- The logs of all files of the partition are synced. -/
def Settled (m : PartitionedWalManager) (part : ℕ) : Prop :=
  ∀ g, (log m (part, g)).length ≤ m.env.syncedSize (part, g)

theorem replayedOf_of_settled (hk : Kept j) (hs : Settled j.hist.mgr part) (cut : FileId → ℕ) :
    replayedOf (restart j.hist.mgr cut).env part = j.acked part := by
  rw [replayedOf_restart hk, hk.acked_eq, logged]
  apply List.flatMap_congr
  intro g _
  rw [remaining_of_settled hk (hs g)]

theorem logged_congr (hgen : h'.mgr.activeGen part = h.mgr.activeGen part)
    (hrec : ∀ g, h'.recordsOf (part, g) = h.recordsOf (part, g)) : logged h' part = logged h part := by
  rw [logged, logged, hgen]
  simp only [hrec]

private theorem acked_append (hk : Kept j) (part : ℕ) (r : WalRecord) (i : ℕ) :
    (j.step (.append part r)).acked i = logged (j.step (.append part r)).hist i := by
  rw [Journal.step, History.step]
  cases ha : j.hist.mgr.append part r with
  | mk res m' =>
    cases res with
    | error e =>
      obtain rfl := append_error ha
      exact hk.acked_eq i
    | ok ref =>
      obtain ⟨hpart, hgen, -, hgens, -⟩ := append_ok ha
      have hfile : ref.file = (part, j.hist.mgr.activeGen part) := by
        rw [WalRecordRef.file, hpart, hgen]
      obtain ⟨rs, hrs⟩ := Option.ne_none_iff_exists'.mp (hk.untorn ref.file)
      dsimp only
      rw [logged]
      simp only [History.recordsOf, hgens]
      by_cases hi : i = part
      · subst hi
        rw [Function.update_self, hk.acked_eq, logged, List.range_succ, List.flatMap_append,
          List.flatMap_append, List.flatMap_singleton, List.flatMap_singleton, List.append_assoc]
        congr 1
        · apply List.flatMap_congr
          intro g hg
          have hne : ((i, g) : FileId) ≠ ref.file := by
            rw [hfile]
            exact fun he => (List.mem_range.mp hg).ne (congrArg Prod.snd he)
          rw [Function.update_of_ne hne, History.recordsOf]
        · rw [hfile] at hrs
          rw [hfile, Function.update_self, History.recordsOf, hrs]
          simp
      · rw [Function.update_of_ne hi, hk.acked_eq, logged]
        apply List.flatMap_congr
        intro g _
        have hne : ((i, g) : FileId) ≠ ref.file := by
          rw [hfile]
          exact fun he => hi (congrArg Prod.fst he)
        rw [Function.update_of_ne hne, History.recordsOf]

private theorem acked_freeze (hk : Kept j) {part : ℕ}
    (hgen : j.hist.mgr.activeGen part + 1 < 2 ^ 32) (i : ℕ) :
    j.acked i = logged (j.hist.step (.freeze part)) i := by
  rw [hk.acked_eq, History.step]
  cases hp : j.hist.mgr.parts.lookup part with
  | none => rfl
  | some p =>
    have hactive : j.hist.mgr.activeGen part = p.gen := by
      simp [PartitionedWalManager.activeGen, hp]
    have hhas : j.hist.mgr.hasPartition part = true := hasPartition_iff.mpr ⟨p, hp⟩
    have hnext : (p.gen + 1) % 2 ^ 32 = p.gen + 1 := by
      rw [hactive] at hgen
      exact Nat.mod_eq_of_lt hgen
    dsimp only
    rw [logged, logged]
    simp only [History.recordsOf, activeGen_freeze, hhas, and_true, hactive, hnext]
    by_cases hi : i = part
    · subst hi
      -- the file of the new generation is empty
      rw [if_pos rfl, hactive, List.range_succ (n := p.gen + 1), List.flatMap_append,
        List.flatMap_singleton, Function.update_self]
      simp only [Option.getD_some, List.map_nil, List.append_nil]
      apply List.flatMap_congr
      intro g hg
      have hne : ((i, g) : FileId) ≠ (i, p.gen + 1) :=
        fun he => (List.mem_range.mp hg).ne (congrArg Prod.snd he)
      rw [Function.update_of_ne hne]
    · rw [if_neg hi]
      apply List.flatMap_congr
      intro g _
      have hne : ((i, g) : FileId) ≠ (part, p.gen + 1) := fun he => hi (congrArg Prod.fst he)
      rw [Function.update_of_ne hne]

private theorem acked_unlink (hk : Kept j) (f : FileId) (i : ℕ) :
    ((j.acked i).filter fun x => x.1 ≠ f) = logged (j.hist.step (.unlink f)) i := by
  rw [hk.acked_eq, logged, logged, List.filter_flatMap]
  show (List.range (j.hist.mgr.activeGen i + 1)).flatMap _ =
    (List.range (j.hist.mgr.activeGen i + 1)).flatMap _
  apply List.flatMap_congr
  intro g _
  show _ = ((Function.update j.hist.records f (some []) (i, g)).getD []).map _
  by_cases hf : ((i, g) : FileId) = f
  · subst hf
    simp
  · rw [Function.update_of_ne hf, List.filter_map]
    simp [hf, History.recordsOf, Function.comp_def]

private theorem acked_reopen (hk : Kept j) (hr : Reopenable j.hist.mgr) (i : ℕ) :
    j.acked i = logged (j.hist.step .reopen) i := by
  rw [hk.acked_eq, logged, logged]
  show _ = (List.range (j.hist.mgr.reopen.activeGen i + 1)).flatMap _
  rw [activeGen_reopen hk.durable hr]
  refine flatMap_range_of_empty (hk.durable.maxGen_le i) ?_
  intro g hg
  rw [recordsOf_later hk hg, List.map_nil]

/-- A crash that tears no frame leaves whole records. -/
theorem recordsOf_crash {cut : FileId → ℕ} {f : FileId}
    (hf : (h.records f).bind (survivors h.mgr cut f) ≠ none) :
    (h.step (.crash cut)).recordsOf f = remaining h cut f := by
  show ((h.records f).bind (survivors h.mgr cut f)).getD [] = _
  rw [remaining, History.recordsOf]
  cases hrs : h.records f with
  | none => exact absurd (by rw [hrs]; rfl) hf
  | some rs =>
    rw [hrs, Option.bind_some, survivors] at hf
    rw [Option.bind_some, survivors]
    split at hf
    next ht => rw [if_pos ht, Option.getD_some, Option.getD_some]
    next => exact absurd rfl hf

private theorem acked_crash (hk : Kept j) (hr : Reopenable j.hist.mgr) {cut : FileId → ℕ}
    (hu : Untorn (j.hist.step (.crash cut))) (i : ℕ) :
    replayedOf (restart j.hist.mgr cut).env i = logged (j.hist.step (.crash cut)) i := by
  rw [replayedOf, ← activeGen_restart hk.durable hr, logged]
  apply List.flatMap_congr
  intro g _
  rw [scan_restart hk.tracks hk.untorn, map_offsets, recordsOf_crash (hu (i, g))]

theorem untorn_of_journalOk (hk : Kept j) {op : HistoryOp} (hok : JournalOk j op) :
    Untorn (j.hist.step op) := by
  apply untorn_step hk.untorn
  rintro cut rfl f
  cases hf : j.hist.mgr.env.exists? f with
  | true => exact hok.2 f (Env.mem_listFiles.mpr hf)
  | false =>
    obtain ⟨rs, hrs⟩ := Option.ne_none_iff_exists'.mp (hk.untorn f)
    rw [hrs]
    exact survivors_of_not_exists hf cut rs

theorem kept_step (j : Journal) (op : HistoryOp) (hok : JournalOk j op) (hk : Kept j) :
    Kept (j.step op) := by
  have hadm : Admissible j.hist op := by
    cases op with
    | append part r => exact hok
    | unlink f => exact hok
    | _ => trivial
  have ht : Tracks (j.step op).hist := tracks_step j.hist op hadm hk.tracks
  have hu : Untorn (j.step op).hist := untorn_of_journalOk hk hok
  refine ⟨ht, hu, ?_, ?_⟩
  · cases op with
    | append part r =>
      show Durable (j.hist.step (.append part r)).mgr
      rw [History.step]
      cases ha : j.hist.mgr.append part r with
      | mk res m' =>
        cases res with
        | error e => exact append_error ha ▸ hk.durable
        | ok ref => exact durable_append hk.durable ha
    | sync part => exact durable_sync hk.durable part
    | freeze part =>
      show Durable (j.hist.step (.freeze part)).mgr
      rw [mgr_freeze]
      exact durable_freeze hk.durable hok
    | close => exact durable_close hk.durable
    | reopen => exact durable_reopen hk.durable hok
    | crash cut => exact durable_restart hk.durable hok.1 cut
    | unlink f => exact durable_unlink hk.durable hok
  · intro i
    cases op with
    | append part r => exact acked_append hk part r i
    | sync part =>
      have hgen := activeGen_sync j.hist.mgr part i
      have hsame : logged (j.hist.step (.sync part)) i = logged j.hist i :=
        logged_congr hgen fun _ => rfl
      exact (hk.acked_eq i).trans hsame.symm
    | freeze part => exact acked_freeze hk hok i
    | close =>
      have hgen := activeGen_close j.hist.mgr i
      have hsame : logged (j.hist.step .close) i = logged j.hist i :=
        logged_congr hgen fun _ => rfl
      exact (hk.acked_eq i).trans hsame.symm
    | reopen => exact acked_reopen hk hok i
    | crash cut => exact acked_crash hk hok.1 hu i
    | unlink f => exact acked_unlink hk f i

/-- After `Sync` the logs of the partition are on disk. -/
theorem settled_sync {m : PartitionedWalManager} (hd : Durable m) (part : ℕ) :
    Settled (m.sync part).2 part := by
  intro g
  by_cases hg : g = m.activeGen part
  · cases hp : m.parts.lookup part with
    | none =>
      -- without a partition there is neither a handle nor a buffer
      rw [PartitionedWalManager.sync, hp]
      dsimp only
      have hclosed : Closed m (part, g) := by
        refine (hd.backed (part, g)).resolve_left ?_
        rintro ⟨q, hq, -⟩
        rw [hp] at hq
        cases hq
      rw [log, buffered_of_lookup_none hp _ rfl, List.append_nil]
      exact hclosed
    | some p =>
      have hgen : g = p.gen := by rw [hg, PartitionedWalManager.activeGen, hp]
      subst hgen
      rw [log_sync hd.handles, (sync_durable hd.handles hp).2]
  · have hd' := durable_sync hd part
    have hne : g ≠ (m.sync part).2.activeGen part := by rwa [activeGen_sync]
    rw [log_sealed hne]
    exact hd'.closed hne

theorem settled_sync_of_settled (ht : Tracks h) (hu : Untorn h) (hs : Settled h.mgr part) (q : ℕ) :
    Settled (h.mgr.sync q).2 part := by
  intro g
  obtain ⟨rs, hrs⟩ := Option.ne_none_iff_exists'.mp (hu (part, g))
  have hle := (stays_sync ht.handles q (part, g) rs (ht.whole _ rs hrs)).2
  rw [log_sync ht.handles]
  exact (hs g).trans hle

/-- A context with the records of its files and the acknowledged records of its partitions. -/
structure JournaledContext where
  ctx : ZeroFlushContext
  records : FileId → Option (List WalRecord)
  acked : ℕ → List (FileId × Scanned)

namespace JournaledContext

def journal (s : JournaledContext) : Journal := ⟨⟨s.ctx.wal, s.records⟩, s.acked⟩

def start (zfo : ZeroFlushOptions) (ucmp : UserComparator) (tables : PartitionTableSet)
    (sampler : Option KeySampler) : JournaledContext :=
  ⟨ContextRuns.start zfo ucmp tables sampler, fun _ => some [], fun _ => []⟩

def step (s : JournaledContext) (op : ContextOp) : JournaledContext :=
  let j := run Journal.step s.journal (walOps s.ctx op)
  ⟨ContextRuns.step s.ctx op, j.hist.records, j.acked⟩

end JournaledContext

/-- Every operation of the WAL in an operation of the context is allowed. -/
def StepOk (s : JournaledContext) (op : ContextOp) : Prop :=
  Guarded Journal.step JournalOk s.journal (walOps s.ctx op)

instance (s : JournaledContext) (op : ContextOp) : Decidable (StepOk s op) :=
  decidableGuarded Journal.step JournalOk s.journal (walOps s.ctx op)

theorem hist_run (j : Journal) (ops : List HistoryOp) :
    (run Journal.step j ops).hist = run History.step j.hist ops := by
  induction ops generalizing j with
  | nil => rfl
  | cons op ops ih => exact ih (j.step op)

theorem ctx_run (s : JournaledContext) (ops : List ContextOp) :
    (run JournaledContext.step s ops).ctx = run ContextRuns.step s.ctx ops := by
  induction ops generalizing s with
  | nil => rfl
  | cons op ops ih => exact ih (s.step op)

theorem activeGen_congr {m m' : PartitionedWalManager} (hs : SameWal m m') (i : ℕ) :
    m'.activeGen i = m.activeGen i := by
  rw [PartitionedWalManager.activeGen, PartitionedWalManager.activeGen, hs.parts_eq]

theorem Durable.congr {m m' : PartitionedWalManager} (hd : Durable m) (hs : SameWal m m') :
    Durable m' := by
  obtain ⟨env, n, t, parts, b, o⟩ := m
  obtain ⟨env', n', t', parts', b', o'⟩ := m'
  obtain ⟨rfl, rfl, rfl⟩ := hs
  exact ⟨hd.handles, hd.backed, hd.newest, hd.known⟩

theorem kept_contextStep (s : JournaledContext) (op : ContextOp) (hok : StepOk s op)
    (hk : Kept s.journal) : Kept (s.step op).journal := by
  have hrun := invariant_run kept_step hk hok
  have hsame : SameWal (run Journal.step s.journal (walOps s.ctx op)).hist.mgr
      (ContextRuns.step s.ctx op).wal := by
    rw [hist_run]
    exact sameWal_step s.ctx s.records op
  refine ⟨Tracks.congr hrun.tracks hsame, hrun.untorn, Durable.congr hrun.durable hsame, ?_⟩
  intro i
  have hlogged : logged (s.step op).journal.hist i =
      logged (run Journal.step s.journal (walOps s.ctx op)).hist i :=
    logged_congr (activeGen_congr hsame i) fun _ => rfl
  exact (hrun.acked_eq i).trans hlogged.symm

theorem kept_start (zfo : ZeroFlushOptions) (ucmp : UserComparator) (tables : PartitionTableSet)
    (sampler : Option KeySampler) :
    Kept (JournaledContext.start zfo ucmp tables sampler).journal := by
  have hwal : (ContextRuns.start zfo ucmp tables sampler).wal =
      (PartitionedWalManager.create .empty zfo.partitions zfo.partitionTargetBytes).open_ :=
    wal_recover _
  refine ⟨(tracked_start zfo ucmp tables sampler).tracks, fun f => Option.some_ne_none _, ?_, ?_⟩
  · rw [JournaledContext.journal, JournaledContext.start, hwal]
    refine durable_openCreate _ _ (by simp) ?_
    intro i g hex
    simp at hex
  · intro i
    have hrec : ∀ f, (JournaledContext.start zfo ucmp tables sampler).journal.hist.recordsOf f = [] :=
      fun _ => rfl
    rw [logged]
    simp only [hrec, List.map_nil]
    exact (List.flatMap_eq_nil_iff.mpr fun _ _ => rfl).symm

/-- Syncing a list of partitions settles each of them. -/
theorem settled_syncs {part : ℕ} {ps : List ℕ} {s : JournaledContext} (hk : Kept s.journal)
    (hp : part ∈ ps ∨ Settled s.ctx.wal part) :
    Settled (run JournaledContext.step s (ps.map .sync)).ctx.wal part ∧
      Kept (run JournaledContext.step s (ps.map .sync)).journal := by
  induction ps generalizing s with
  | nil => exact ⟨hp.resolve_left List.not_mem_nil, hk⟩
  | cons q ps ih =>
    have hk' : Kept (s.step (.sync q)).journal := kept_contextStep s (.sync q) ⟨trivial, trivial⟩ hk
    refine ih hk' ?_
    obtain hmem | hs := hp
    · cases List.mem_cons.mp hmem with
      | inl he =>
        subst he
        exact .inr (settled_sync hk.durable part)
      | inr hmem => exact .inl hmem
    · exact .inr (settled_sync_of_settled hk.tracks hk.untorn hs q)

/-- The replay of a partition is the part of the whole replay that comes from its files. -/
theorem mem_replayedOf {env : Env} {part g : ℕ} {x : Scanned} :
    ((part, g), x) ∈ replayedOf env part ↔ ∃ e, ((part, g), x, e) ∈ replay env := by
  have hnil : (WalScanner.scan []).1 = [] := by
    have hscan := @WalScanner.scan_frames [] fun _ hr => absurd hr List.not_mem_nil
    exact hscan.1
  constructor
  · intro hmem
    obtain ⟨g', -, hx⟩ := List.mem_flatMap.mp hmem
    obtain ⟨⟨y, e⟩, hy, he⟩ := List.mem_map.mp hx
    cases he
    refine ⟨e, List.mem_flatMap.mpr ⟨(part, g), ?_, List.mem_map.mpr ⟨(y, e), hy, rfl⟩⟩⟩
    rw [Env.mem_listFiles]
    by_contra hex
    rw [Env.content_of_not_exists (by simpa using hex), hnil] at hy
    cases hy
  · rintro ⟨e, hmem⟩
    obtain ⟨f, hf, hx⟩ := List.mem_flatMap.mp hmem
    obtain ⟨y, hy, he⟩ := List.mem_map.mp hx
    cases he
    refine List.mem_flatMap.mpr ⟨g, List.mem_range.mpr ?_, List.mem_map.mpr ⟨(x, e), hy, rfl⟩⟩
    have hle := le_maxGen hf
    omega

/-- A write without `sync`, a freeze, a crash and another write to the same partition. -/
def crashedOnce : List ContextOp :=
  [.addRecord ⟨[97], [1], kTypeValue, 1⟩ 0 0, .freezeBatchPartitions [],
    .addRecord ⟨[97], [2], kTypeValue, 2⟩ 0 0, .crash (fun _ => 0) twoPartitions,
    .addRecord ⟨[97], [3], kTypeValue, 2⟩ 0 0]

@[irreducible] def crashedState : JournaledContext :=
  run JournaledContext.step (.start { partitions := 2 } .bytewise twoPartitions none) crashedOnce

theorem crashedState_eq : crashedState = run JournaledContext.step
    (.start { partitions := 2 } .bytewise twoPartitions none) crashedOnce := by
  unfold crashedState
  rfl

/-- A group with `sync` after the crash. -/
@[irreducible] def syncedGroup : Except Status Unit × ZeroFlushContext :=
  writeGroup crashedState.ctx [.put 0 [97] [4]] 3 true [] fun _ => 0

theorem guarded_crashedOnce :
    Guarded JournaledContext.step StepOk (.start { partitions := 2 } .bytewise twoPartitions none)
      crashedOnce := by
  decide +kernel

theorem syncedGroup_spec :
    Guarded JournaledContext.step StepOk crashedState
      (groupOps crashedState.ctx [.put 0 [97] [4]] 3 true [] fun _ => 0) ∧
    syncedGroup.1 = .ok () ∧ (run JournaledContext.step crashedState
        (groupOps crashedState.ctx [.put 0 [97] [4]] 3 true [] fun _ => 0)).acked 0 =
      [((0, 0), scanned ⟨[97], [1], kTypeValue, 1⟩), ((0, 1), scanned ⟨[97], [3], kTypeValue, 2⟩),
        ((0, 1), scanned ⟨[97], [4], kTypeValue, 3⟩)] ∧
    (sealIfDue crashedState.ctx []).partOf ⟨[97], [4], kTypeValue, 3⟩
      crashedState.ctx.tables.currentVersion = 0 ∧
    (sealIfDue crashedState.ctx []).routeWithVersion [97]
      crashedState.ctx.tables.currentVersion < 63 := by
  decide +kernel

/-- The first record is acknowledged without `sync`. -/
def unsyncedPut : Except Status Unit × ZeroFlushContext :=
  writeGroup (start { partitions := 2 } .bytewise twoPartitions none) [.put 0 [97] [1]] 1 false []
    fun _ => 0

/-- The second one goes to the other partition, with `sync`. -/
def syncedPut : Except Status Unit × ZeroFlushContext :=
  writeGroup unsyncedPut.2 [.put 0 [99] [2]] 2 true [] fun _ => 0

end ZeroFlush.PrefixRecovery
