import ZeroFlush.ContextRuns
import ZeroFlush.GuardedRuns
import ZeroFlush.WalHistory

/-! # The WAL files of a run of the context

Every operation of the context acts on the WAL as a sequence of operations of the manager. We
keep the records its files are made of along a run. -/
namespace ZeroFlush.ContextHistory
open FixedWidthCodec FiniteMaps WalFormat WalFiles PartitionedWal WalLogs WalOpening
  ConcatenatedFrames SequentialScan WalHistory PartitionTables SealedFiles Context ContextRuns
  UserKeys GuardedRuns

/-- The same files and partitions; the counters and the over-target flag may differ. -/
structure SameWal (m m' : PartitionedWalManager) : Prop where
  env_eq : m'.env = m.env
  parts_eq : m'.parts = m.parts
  partitions_eq : m'.partitions = m.partitions

/-- What an operation of the context does with the WAL. -/
def walOps (ctx : ZeroFlushContext) : ContextOp → List HistoryOp
  | .addRecord r v _ => [.append (ctx.partOf r v) r]
  | .sync part => [.sync part]
  | .freezeBatchPartitions _ => ctx.chooseBatch.map .freeze
  | .freezeOnePartition => ctx.chooseOne.toList.map .freeze
  | .sealEpochAndSwitch _ => ctx.tables.current.partIds.map .freeze
  | .releaseEpoch _ => []
  | .purgeSealedFiles => ctx.sealedCache.pendingUnlink.map .unlink
  | .reopen _ => [.reopen]
  | .crash cut _ => [.crash cut]

/-- The freezes of a list of partitions. -/
def freezeAll (m : PartitionedWalManager) (parts : List ℕ) : PartitionedWalManager :=
  parts.foldl (fun m p => (m.freeze p).2) m

theorem mgr_freeze (h : History) (p : ℕ) : (h.step (.freeze p)).mgr = (h.mgr.freeze p).2 := by
  rw [History.step]
  cases hp : h.mgr.parts.lookup p with
  | none => rw [freeze_of_lookup_none hp]
  | some q => rfl

theorem mgr_freezes (parts : List ℕ) (h : History) :
    (run History.step h (parts.map .freeze)).mgr = freezeAll h.mgr parts := by
  induction parts generalizing h with
  | nil => rfl
  | cons p parts ih =>
    rw [List.map_cons, run, ih, mgr_freeze]
    rfl

theorem mgr_unlinks (files : List FileId) (h : History) :
    (run History.step h (files.map .unlink)).mgr =
      { h.mgr with env := files.foldl Env.deleteFile h.mgr.env } := by
  induction files generalizing h with
  | nil => rfl
  | cons f files ih =>
    rw [List.map_cons, run, ih]
    rfl

theorem wal_freezeBatchLoop (batch : List ℕ) (ctx : ZeroFlushContext) (se : SealedEpoch) :
    (batch.foldl ZeroFlushContext.freezeBatchStep (ctx, se)).1.wal = freezeAll ctx.wal batch := by
  induction batch generalizing ctx se with
  | nil => rfl
  | cons p batch ih => exact ih _ _

theorem wal_sealLoop (ids : List ℕ) (ctx : ZeroFlushContext) (se : SealedEpoch) :
    (ids.foldl ZeroFlushContext.sealStep (ctx, se)).1.wal = freezeAll ctx.wal ids := by
  induction ids generalizing ctx se with
  | nil => rfl
  | cons p ids ih => exact ih _ _

theorem wal_addRecord (ctx : ZeroFlushContext) (r : WalRecord) (v rnd : ℕ) :
    (ctx.addRecord r v rnd).2.wal = (ctx.wal.append (ctx.partOf r v) r).2 := by
  rw [ZeroFlushContext.addRecord]
  cases ctx.wal.append (ctx.partOf r v) r with
  | mk res wal => cases res <;> rfl

theorem sameWal_finishSeal {m : PartitionedWalManager} {ctx : ZeroFlushContext} (h : ctx.wal = m)
    (se : SealedEpoch) : SameWal m (ctx.finishSeal se).wal := by
  subst h
  exact ⟨rfl, rfl, rfl⟩

/-- The WAL of the context goes through the operations `walOps` names. -/
theorem sameWal_step (ctx : ZeroFlushContext) (records : FileId → Option (List WalRecord))
    (op : ContextOp) :
    SameWal (run History.step ⟨ctx.wal, records⟩ (walOps ctx op)).mgr (step ctx op).wal := by
  cases op with
  | addRecord r v rnd =>
    have hmgr : (History.step ⟨ctx.wal, records⟩ (.append (ctx.partOf r v) r)).mgr =
        (ctx.wal.append (ctx.partOf r v) r).2 := by
      rw [History.step]
      split <;> simp_all
    have hwal : (step ctx (.addRecord r v rnd)).wal = _ := wal_addRecord ctx r v rnd
    rw [hwal, ← hmgr]
    exact ⟨rfl, rfl, rfl⟩
  | sync part => exact ⟨rfl, rfl, rfl⟩
  | freezeBatchPartitions l1 =>
    rw [walOps, mgr_freezes]
    show SameWal _ (ctx.freezeBatchPartitions l1).wal
    rw [ZeroFlushContext.freezeBatchPartitions]
    cases hb : ctx.chooseBatch with
    | nil => exact ⟨rfl, rfl, rfl⟩
    | cons p rest =>
      have hwal := wal_freezeBatchLoop (p :: rest)
        (ctx.nextEpoch.1.installTable (ctx.nextEpoch.1.batchTable ctx.nextEpoch.2.epoch l1))
        ctx.nextEpoch.2
      rw [wal_installTable] at hwal
      exact sameWal_finishSeal hwal _
  | freezeOnePartition =>
    rw [walOps, mgr_freezes]
    show SameWal _ ctx.freezeOnePartition.wal
    rw [ZeroFlushContext.freezeOnePartition]
    cases ctx.chooseOne with
    | none => exact ⟨rfl, rfl, rfl⟩
    | some target => exact ⟨rfl, rfl, rfl⟩
  | sealEpochAndSwitch l1 =>
    rw [walOps, mgr_freezes]
    have hwal := wal_sealLoop ctx.tables.current.partIds ctx.nextEpoch.1 ctx.nextEpoch.2
    exact sameWal_finishSeal
      ((wal_installTable _ _).trans ((wal_freezeIndexes _ _).trans hwal)) _
  | releaseEpoch epoch => exact ⟨rfl, rfl, rfl⟩
  | purgeSealedFiles =>
    rw [walOps, mgr_unlinks]
    exact ⟨rfl, rfl, rfl⟩
  | reopen tables =>
    show SameWal ctx.wal.reopen (ctx.openWith ctx.wal.reopen tables).wal
    rw [ZeroFlushContext.openWith, wal_recover]
    exact ⟨rfl, rfl, rfl⟩
  | crash cut tables =>
    show SameWal (restart ctx.wal cut) (ctx.openWith (restart ctx.wal cut) tables).wal
    rw [ZeroFlushContext.openWith, wal_recover]
    exact ⟨rfl, rfl, rfl⟩

theorem Tracks.congr {m m' : PartitionedWalManager} {records : FileId → Option (List WalRecord)}
    (ht : Tracks ⟨m, records⟩) (h : SameWal m m') : Tracks ⟨m', records⟩ := by
  have hlog : ∀ f, log m' f = log m f := by
    intro f
    rw [log, log, h.env_eq, h.parts_eq]
  refine ⟨?_, ?_⟩
  · intro i p hp
    have hok := ht.handles i p (h.parts_eq ▸ hp)
    exact h.env_eq ▸ hok
  · intro f rs hrs
    have hw := ht.whole f rs hrs
    have henv : m'.env = m.env := h.env_eq
    refine ⟨hw.short, (hlog f).trans hw.log_eq, ?_, ?_⟩
    · rw [henv]
      exact hw.aligned
    · rw [henv]
      exact hw.synced_le

/-- No crash has torn a frame. -/
def Untorn (h : History) : Prop := ∀ f, h.records f ≠ none

theorem untorn_step {h : History} (hu : Untorn h) (op : HistoryOp)
    (hc : ∀ cut, op = .crash cut → ∀ f, (h.records f).bind (survivors h.mgr cut f) ≠ none) :
    Untorn (h.step op) := by
  have hupdate : ∀ (g : FileId) (v : Option (List WalRecord)), v ≠ none →
      ∀ f, Function.update h.records g v f ≠ none := by
    intro g v hv f
    rw [Function.update_apply]
    split
    · exact hv
    · exact hu f
  intro f
  cases op with
  | append part r =>
    rw [History.step]
    split
    · exact hupdate _ _ (by simpa using hu _) f
    · exact hu f
  | freeze part =>
    rw [History.step]
    split
    · exact hu f
    · exact hupdate _ _ (Option.some_ne_none _) f
  | unlink g => exact hupdate _ _ (Option.some_ne_none _) f
  | crash cut => exact hc cut rfl f
  | sync part => exact hu f
  | close => exact hu f
  | reopen => exact hu f

/-- A file without bytes on disk cannot be torn. -/
theorem survivors_of_not_exists {m : PartitionedWalManager} {f : FileId}
    (h : m.env.exists? f = false) (cut : FileId → ℕ) (rs : List WalRecord) :
    survivors m cut f rs ≠ none := by
  have hzero : cutLength m cut f = 0 := by
    rw [cutLength, Env.content_of_not_exists h]
    exact Nat.min_zero _
  simp [survivors, hzero, tornFrame_zero]

theorem frame_pos (r : WalRecord) : 0 < r.frame.length := by
  rw [length_frame, WalRecord.frameLength]
  omega

/-- A file with records is there. -/
theorem exists_of_mem_recordsOf {h : History} (ht : Tracks h) (hu : Untorn h) {f : FileId}
    {r : WalRecord} (hr : r ∈ h.recordsOf f) : f ∈ h.mgr.env.listFiles := by
  obtain ⟨rs, hrs⟩ := Option.ne_none_iff_exists'.mp (hu f)
  have hlog := (ht.whole f rs hrs).log_eq
  have hmem : r ∈ rs := by
    rwa [History.recordsOf, hrs, Option.getD_some] at hr
  rw [Env.mem_listFiles]
  by_contra hne
  rw [log, Env.content_of_not_exists (by simpa using hne), List.nil_append] at hlog
  have hbuf : buffered h.mgr.parts f ≠ [] := by
    intro he
    rw [he] at hlog
    have hnil := List.flatMap_eq_nil_iff.mp hlog.symm r hmem
    have hpos := frame_pos r
    simp [hnil] at hpos
  cases hp : h.mgr.parts.lookup f.1 with
  | none => exact hbuf (buffered_of_lookup_none hp f rfl)
  | some p =>
    rw [buffered_of_lookup hp f rfl] at hbuf
    by_cases hgen : p.gen = f.2
    · rw [if_pos hgen] at hbuf
      have hh := ht.handles f.1 p hp
      have hex := hh.wfile_exists (hh.buf_open hbuf)
      rw [hgen] at hex
      exact hne hex
    · exact hbuf (if_neg hgen)

/-- A context with the records the files of its WAL are made of. -/
structure Session where
  ctx : ZeroFlushContext
  records : FileId → Option (List WalRecord)

namespace Session

def hist (s : Session) : History := ⟨s.ctx.wal, s.records⟩

def start (zfo : ZeroFlushOptions) (ucmp : UserComparator) (tables : PartitionTableSet)
    (sampler : Option KeySampler) : Session :=
  ⟨ContextRuns.start zfo ucmp tables sampler, fun _ => some []⟩

def step (s : Session) (op : ContextOp) : Session :=
  ⟨ContextRuns.step s.ctx op, (run History.step s.hist (walOps s.ctx op)).records⟩

end Session

/-- Frames fit into a block of the scanner, only sealed files are removed and no crash before
the last one tears a frame. -/
def OpOk (s : Session) : ContextOp → Prop
  | .addRecord r _ _ => r.frameLength ≤ kScanChunkSize
  | .purgeSealedFiles =>
    ∀ f ∈ s.ctx.sealedCache.pendingUnlink, ∀ p ∈ s.ctx.wal.parts.lookup f.1, p.gen ≠ f.2
  | .crash cut _ =>
    ∀ f ∈ s.ctx.wal.env.listFiles, (s.records f).bind (survivors s.ctx.wal cut f) ≠ none
  | _ => True

instance decidableOpOk (s : Session) : (op : ContextOp) → Decidable (OpOk s op)
  | .addRecord r _ _ => inferInstanceAs (Decidable (r.frameLength ≤ kScanChunkSize))
  | .purgeSealedFiles => inferInstanceAs (Decidable (∀ f ∈ s.ctx.sealedCache.pendingUnlink,
      ∀ p ∈ s.ctx.wal.parts.lookup f.1, p.gen ≠ f.2))
  | .crash cut _ => inferInstanceAs (Decidable (∀ f ∈ s.ctx.wal.env.listFiles,
      (s.records f).bind (survivors s.ctx.wal cut f) ≠ none))
  | .sync _ | .freezeBatchPartitions _ | .freezeOnePartition | .sealEpochAndSwitch _
  | .releaseEpoch _ | .reopen _ => .isTrue trivial

structure Tracked (s : Session) : Prop where
  tracks : Tracks s.hist
  untorn : Untorn s.hist

theorem tracked_start (zfo : ZeroFlushOptions) (ucmp : UserComparator) (tables : PartitionTableSet)
    (sampler : Option KeySampler) : Tracked (Session.start zfo ucmp tables sampler) := by
  refine ⟨?_, fun f => Option.some_ne_none _⟩
  have hwal : (ContextRuns.start zfo ucmp tables sampler).wal = _ := wal_recover _
  show Tracks ⟨(ContextRuns.start zfo ucmp tables sampler).wal, _⟩
  rw [hwal]
  exact tracks_start zfo.partitions zfo.partitionTargetBytes

/-- Every operation of the WAL in an allowed operation of the context is admissible. -/
theorem admissible_walOps {s : Session} {op : ContextOp} (hok : OpOk s op) :
    Guarded History.step Admissible s.hist (walOps s.ctx op) := by
  have hfree : ∀ (parts : List ℕ) (h : History),
      Guarded History.step Admissible h (parts.map .freeze) := by
    intro parts
    induction parts with
    | nil => exact fun _ => trivial
    | cons p parts ih => exact fun h => ⟨trivial, ih _⟩
  cases op with
  | addRecord r v rnd => exact ⟨hok, trivial⟩
  | sync part => exact ⟨trivial, trivial⟩
  | freezeBatchPartitions l1 => exact hfree _ _
  | freezeOnePartition => exact hfree _ _
  | sealEpochAndSwitch l1 => exact hfree _ _
  | releaseEpoch epoch => trivial
  | purgeSealedFiles =>
    suffices key : ∀ (files : List FileId) (h : History),
        (∀ f ∈ files, ∀ p ∈ h.mgr.parts.lookup f.1, p.gen ≠ f.2) →
        Guarded History.step Admissible h (files.map .unlink) from key _ _ hok
    intro files
    induction files with
    | nil => exact fun _ _ => trivial
    | cons f files ih =>
      intro h hf
      exact ⟨hf f List.mem_cons_self, ih _ fun g hg => hf g (List.mem_cons_of_mem _ hg)⟩
  | reopen tables => exact ⟨trivial, trivial⟩
  | crash cut tables => exact ⟨trivial, trivial⟩

theorem untorn_walOps {s : Session} {op : ContextOp} (hok : OpOk s op) (hu : Untorn s.hist) :
    Untorn (run History.step s.hist (walOps s.ctx op)) := by
  have hplain : ∀ (ops : List HistoryOp) (h : History), (∀ o ∈ ops, ∀ cut, o ≠ .crash cut) →
      Untorn h → Untorn (run History.step h ops) := by
    intro ops
    induction ops with
    | nil => exact fun _ _ h => h
    | cons o ops ih =>
      intro h ho hh
      refine ih _ (fun o' ho' => ho o' (List.mem_cons_of_mem _ ho')) (untorn_step hh o ?_)
      intro cut hcut
      exact absurd hcut (ho o List.mem_cons_self cut)
  cases op with
  | crash cut tables =>
    show Untorn (s.hist.step (.crash cut))
    refine untorn_step hu _ ?_
    intro cut' hcut f
    cases hcut
    cases hf : s.ctx.wal.env.exists? f with
    | true => exact hok f (Env.mem_listFiles.mpr hf)
    | false =>
      obtain ⟨rs, hrs⟩ := Option.ne_none_iff_exists'.mp (hu f)
      rw [hrs]
      exact survivors_of_not_exists hf cut rs
  | _ =>
    refine hplain _ _ ?_ hu
    rintro o ho cut rfl
    simp [walOps] at ho

theorem tracked_step (s : Session) (op : ContextOp) (hok : OpOk s op) (h : Tracked s) :
    Tracked (s.step op) :=
  ⟨Tracks.congr (invariant_run tracks_step h.tracks (admissible_walOps hok))
    (sameWal_step s.ctx s.records op), untorn_walOps hok h.untorn⟩

/-- The records of a file. -/
def Session.recordsOf (s : Session) (f : FileId) : List WalRecord := s.hist.recordsOf f

/-- The records a file still has after a crash. -/
def remaining (h : History) (cut : FileId → ℕ) (f : FileId) : List WalRecord :=
  wholeFrames WalRecord.frame (cutLength h.mgr cut f) (h.recordsOf f)

/-- After a crash the scanner hands out the records whose frames survived, file by file. -/
theorem scan_restart {h : History} (ht : Tracks h) (hu : Untorn h) (cut : FileId → ℕ) (f : FileId) :
    (WalScanner.scan ((restart h.mgr cut).env.content f)).1 =
      WalScanner.offsets 0 (remaining h cut f) := by
  obtain ⟨rs, hrs⟩ := Option.ne_none_iff_exists'.mp (hu f)
  have hw : Whole h.mgr f rs := ht.whole f rs hrs
  rw [content_restart hw cut, WalScanner.scan_take _ hw.short, remaining, History.recordsOf, hrs,
    Option.getD_some]

theorem Session.remaining_eq (s : Session) (cut : FileId → ℕ) (f : FileId) :
    remaining s.hist cut f =
      wholeFrames WalRecord.frame (cutLength s.ctx.wal cut f) (s.recordsOf f) := rfl

theorem Tracked.scan_restart {s : Session} (h : Tracked s) (cut : FileId → ℕ) (f : FileId) :
    (WalScanner.scan ((restart s.ctx.wal cut).env.content f)).1 =
      WalScanner.offsets 0 (remaining s.hist cut f) :=
  ContextHistory.scan_restart h.tracks h.untorn cut f

/-- An operation other than an append leaves a beginning of every file. -/
theorem shrinks_step (h : History) {op : HistoryOp} (hop : ∀ part r, op ≠ .append part r)
    (f : FileId) : (h.step op).recordsOf f <+: h.recordsOf f := by
  have hupdate : ∀ g, (Function.update h.records g (some []) f).getD [] <+:
      (h.records f).getD [] := by
    intro g
    rw [Function.update_apply]
    split
    · exact List.nil_prefix
    · exact List.prefix_rfl
  cases op with
  | append part r => exact absurd rfl (hop part r)
  | freeze part =>
    rw [History.step]
    split
    · exact List.prefix_rfl
    · exact hupdate _
  | unlink g => exact hupdate g
  | crash cut =>
    show ((h.records f).bind (survivors h.mgr cut f)).getD [] <+: (h.records f).getD []
    cases h.records f with
    | none => exact List.prefix_rfl
    | some rs =>
      rw [Option.bind_some, survivors]
      split
      · exact wholeFrames_isPrefix _ _ rs
      · exact List.nil_prefix
  | sync part => exact List.prefix_rfl
  | close => exact List.prefix_rfl
  | reopen => exact List.prefix_rfl

theorem shrinks_run (ops : List HistoryOp) (hops : ∀ op ∈ ops, ∀ part r, op ≠ .append part r)
    (h : History) (f : FileId) :
    (run History.step h ops).recordsOf f <+: h.recordsOf f := by
  induction ops generalizing h with
  | nil => exact List.prefix_rfl
  | cons op ops ih =>
    have hrest := ih (fun o ho => hops o (List.mem_cons_of_mem _ ho)) (h.step op)
    exact hrest.trans (shrinks_step h (hops op List.mem_cons_self) f)

/-- An operation of the context appends one record to one file, or leaves a beginning of every
file. -/
theorem recordsOf_step (s : Session) (op : ContextOp) :
    (∃ r v rnd f, op = .addRecord r v rnd ∧ ∀ g, (s.step op).recordsOf g =
        if g = f then ((s.records f).map (· ++ [r])).getD [] else s.recordsOf g) ∨
      ∀ g, (s.step op).recordsOf g <+: s.recordsOf g := by
  have hshrink : ∀ o, (∀ x ∈ walOps s.ctx o, ∀ part r, x ≠ .append part r) →
      ∀ g, (s.step o).recordsOf g <+: s.recordsOf g :=
    fun o ho g => shrinks_run (walOps s.ctx o) ho s.hist g
  cases op with
  | addRecord r v rnd =>
    have hstep : (s.step (.addRecord r v rnd)).records =
        (s.hist.step (.append (s.ctx.partOf r v) r)).records := rfl
    rw [History.step] at hstep
    split at hstep
    next ref m _ =>
      refine .inl ⟨r, v, rnd, ref.file, rfl, ?_⟩
      intro g
      show ((s.step (.addRecord r v rnd)).records g).getD [] = _
      rw [hstep]
      dsimp only
      rw [Function.update_apply]
      split <;> rfl
    next =>
      refine .inr fun g => ?_
      show ((s.step (.addRecord r v rnd)).records g).getD [] <+: _
      rw [hstep]
      exact List.prefix_rfl
  | _ =>
    refine .inr (hshrink _ ?_)
    rintro o ho part r rfl
    simp [walOps] at ho

end ZeroFlush.ContextHistory
