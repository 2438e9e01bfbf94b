import ZeroFlush.WalOpening
import ZeroFlush.SequentialScan
import Mathlib.Logic.Function.Basic

/-! # Which records the files are made of

Along a run we keep for every file the records appended to it, or `none` once a crash has torn
one of its frames. Files of whole frames are scanned completely. -/
namespace ZeroFlush.WalHistory
open FixedWidthCodec FiniteMaps WalFormat WalFiles PartitionedWal WalLogs WalOpening
  ConcatenatedFrames SequentialScan

/-- The log of `f` is made of the frames of `rs`, and no flush has cut through a frame. -/
structure Whole (m : PartitionedWalManager) (f : FileId) (rs : List WalRecord) : Prop where
  short : ∀ r ∈ rs, r.frameLength ≤ kScanChunkSize
  log_eq : log m f = rs.flatMap WalRecord.frame
  aligned : tornFrame WalRecord.frame (m.env.content f).length rs = []
  synced_le : m.env.syncedSize f ≤ (m.env.content f).length

variable {m m' : PartitionedWalManager} {f : FileId} {rs : List WalRecord} {i : ℕ} {p : Partition}

theorem content_isPrefix_log (m : PartitionedWalManager) (f : FileId) :
    m.env.content f <+: log m f := List.prefix_append _ _

/-- The file itself holds whole frames. -/
theorem Whole.content_eq (h : Whole m f rs) : m.env.content f =
    (wholeFrames WalRecord.frame (m.env.content f).length rs).flatMap WalRecord.frame := by
  rw [← take_flatMap_of_aligned _ h.aligned, ← h.log_eq]
  exact List.prefix_iff_eq_take.mp (content_isPrefix_log m f)

/-- A whole file stays whole, with the same records, and nothing synced is taken back. -/
def Stays (m m' : PartitionedWalManager) (f : FileId) : Prop :=
  ∀ rs, Whole m f rs → Whole m' f rs ∧ m.env.syncedSize f ≤ m'.env.syncedSize f

theorem Stays.refl (m : PartitionedWalManager) (f : FileId) : Stays m m f :=
  fun _ h => ⟨h, le_refl _⟩

theorem Stays.trans {a b c : PartitionedWalManager} (h : Stays a b f) (h' : Stays b c f) :
    Stays a c f := by
  intro rs hrs
  obtain ⟨hb, hab⟩ := h rs hrs
  obtain ⟨hc, hbc⟩ := h' rs hb
  exact ⟨hc, hab.trans hbc⟩

/-- A step that keeps the log and flushes or syncs all of it or nothing. -/
theorem stays_of_log_eq (hlog : log m' f = log m f)
    (hc : m'.env.content f = m.env.content f ∨ m'.env.content f = log m f)
    (hs : m'.env.syncedSize f = m.env.syncedSize f ∨
      m'.env.syncedSize f = (m'.env.content f).length) : Stays m m' f := by
  intro rs h
  have hle := (content_isPrefix_log m f).length_le
  have hsync := h.synced_le
  have hcontent : (m.env.content f).length ≤ (m'.env.content f).length := by
    rcases hc with hc | hc <;> rw [hc]
    exact hle
  refine ⟨⟨h.short, hlog.trans h.log_eq, ?_, ?_⟩, ?_⟩
  · rcases hc with hc | hc
    · rw [hc]
      exact h.aligned
    · rw [hc, h.log_eq]
      exact tornFrame_length _ rs
  · rcases hs with hs | hs <;> omega
  · rcases hs with hs | hs <;> omega

/-- A step that adds one frame to the log. -/
theorem Whole.snoc (h : Whole m f rs) {r : WalRecord} (hr : r.frameLength ≤ kScanChunkSize)
    (hlog : log m' f = log m f ++ r.frame)
    (hc : m'.env.content f = m.env.content f ∨ m'.env.content f = log m' f)
    (hs : m'.env.syncedSize f = m.env.syncedSize f) : Whole m' f (rs ++ [r]) := by
  have hle := (content_isPrefix_log m f).length_le
  have hsync := h.synced_le
  have hnew : log m' f = (rs ++ [r]).flatMap WalRecord.frame := by
    rw [hlog, h.log_eq]
    simp
  refine ⟨?_, hnew, ?_, ?_⟩
  · intro q hq
    rcases List.mem_append.mp hq with hq | hq
    · exact h.short q hq
    · rw [List.mem_singleton.mp hq]
      exact hr
  · rcases hc with hc | hc
    · rw [hc, tornFrame_append _ (h.log_eq ▸ hle)]
      exact h.aligned
    · rw [hc, hnew]
      exact tornFrame_length _ _
  · rcases hc with hc | hc
    · rw [hs, hc]
      exact hsync
    · rw [hs, hc, hlog, List.length_append]
      omega

@[simp] theorem flushBuf_syncedSize (env : Env) (p : Partition) (g : FileId) :
    (flushBuf env p).1.syncedSize g = env.syncedSize g := by
  unfold flushBuf
  split <;> simp

@[simp] theorem ensureOpenForWrite_syncedSize (env : Env) (p : Partition) (g : FileId) :
    (ensureOpenForWrite env p).1.syncedSize g = env.syncedSize g := by
  unfold ensureOpenForWrite
  split <;> simp

theorem syncHandle_syncedSize (env : Env) (p : Partition) (g : FileId) :
    (PartitionedWalManager.syncHandle env p).syncedSize g = env.syncedSize g ∨
      (PartitionedWalManager.syncHandle env p).syncedSize g =
        ((PartitionedWalManager.syncHandle env p).content g).length := by
  cases hw : p.wfile with
  | none => simp [PartitionedWalManager.syncHandle, hw]
  | some f =>
    simp only [PartitionedWalManager.syncHandle, hw, Env.syncedSize_syncFile, Env.content_syncFile]
    split_ifs with hg
    · exact .inr (by rw [hg])
    · exact .inl rfl

@[simp] theorem maybeFlush_syncedSize (env : Env) (p : Partition) (g : FileId) :
    (maybeFlush env p).1.syncedSize g = env.syncedSize g := by
  unfold maybeFlush
  split_ifs <;> simp

/-- Flushing and syncing a partition keeps whole files whole. -/
theorem stays_flush (hp : m.parts.lookup i = some p) {env : Env} {q : Partition}
    (hcontent : ∀ g, env.content g = m.env.content g)
    (hsynced : ∀ g, env.syncedSize g = m.env.syncedSize g) (hq : HandleOk env i q)
    (hgen : q.gen = p.gen) (hbuf : q.buf = p.buf)
    (henv : m'.env = PartitionedWalManager.syncHandle (flushBuf env q).1 (flushBuf env q).2)
    (hparts : m'.parts = m.parts.insert i (flushBuf env q).2) (f : FileId) : Stays m m' f := by
  refine stays_of_log_eq (log_flush hp hcontent hq hgen hbuf (by simp [henv]) hparts f) ?_ ?_
  · rw [henv, syncHandle_content, hq.flushBuf_content, hcontent, hgen, hbuf]
    split_ifs with hf
    · right
      rw [hf, log, buffered_of_lookup hp _ rfl, if_pos rfl]
    · exact .inl rfl
  · rw [henv]
    refine (syncHandle_syncedSize _ _ f).imp_left fun hs => ?_
    rw [hs, flushBuf_syncedSize, hsynced]

theorem stays_sync (hm : HandlesOk m) (part : ℕ) (f : FileId) : Stays m (m.sync part).2 f := by
  cases hp : m.parts.lookup part with
  | none =>
    simp only [PartitionedWalManager.sync, hp]
    exact Stays.refl m f
  | some p =>
    simp only [PartitionedWalManager.sync, hp]
    exact stays_flush hp (by simp) (by simp) (hm part p hp).ensureOpenForWrite (by simp)
      (by simp) rfl rfl f

/-- After `Sync` everything logged in the active file is on disk. -/
theorem sync_durable (hm : HandlesOk m) (hp : m.parts.lookup i = some p) :
    (m.sync i).2.env.content (i, p.gen) = log m (i, p.gen) ∧
      (m.sync i).2.env.syncedSize (i, p.gen) = (log m (i, p.gen)).length := by
  have hh := (hm i p hp).ensureOpenForWrite
  have hcontent : (flushBuf (ensureOpenForWrite m.env p).1 (ensureOpenForWrite m.env p).2).1.content
      (i, p.gen) = log m (i, p.gen) := by
    rw [hh.flushBuf_content, ensureOpenForWrite_gen, if_pos rfl, ensureOpenForWrite_content,
      ensureOpenForWrite_buf, log, buffered_of_lookup hp _ rfl, if_pos rfl]
  obtain ⟨f, hf⟩ := Option.ne_none_iff_exists'.mp (ensureOpenForWrite_wfile m.env p)
  obtain rfl := hh.wfile_eq f hf
  simp only [PartitionedWalManager.sync, hp, PartitionedWalManager.syncHandle, flushBuf_wfile, hf,
    Env.content_syncFile, Env.syncedSize_syncFile]
  rw [ensureOpenForWrite_gen, if_pos rfl]
  exact ⟨hcontent, by rw [hcontent]⟩

theorem stays_closePartition (hm : HandlesOk m) (part : ℕ) (f : FileId) :
    Stays m (m.closePartition part) f := by
  cases hp : m.parts.lookup part with
  | none =>
    simp only [PartitionedWalManager.closePartition, hp]
    exact Stays.refl m f
  | some p =>
    simp only [PartitionedWalManager.closePartition, hp]
    exact stays_flush hp (by simp) (by simp) (hm part p hp) rfl rfl rfl rfl f

theorem stays_close (hm : HandlesOk m) (f : FileId) : Stays m m.close f := by
  suffices hloop : ∀ (ids : List ℕ) {m}, HandlesOk m →
      Stays m (ids.foldl PartitionedWalManager.closePartition m) f from hloop _ hm
  intro ids
  induction ids with
  | nil => exact fun {m} _ => Stays.refl m f
  | cons j ids ih =>
    intro m hm
    exact (stays_closePartition hm j f).trans (ih (handlesOk_closePartition hm j))

/-- A new session starts with whole files. -/
theorem stays_reopen (hm : HandlesOk m) (f : FileId) : Stays m m.reopen f := by
  refine (stays_close hm f).trans (stays_of_log_eq ?_ (.inl rfl) (.inl rfl))
  rw [log_reopen hm, log_close hm]

/-- `Freeze` leaves every file whole but the one it empties. -/
theorem stays_freeze (hm : HandlesOk m) (hp : m.parts.lookup i = some p)
    (hf : f ≠ (i, (p.gen + 1) % 2 ^ 32)) : Stays m (m.freeze i).2 f := by
  have hh := hm i p hp
  have hfile : (nextPartition p).file = (i, (p.gen + 1) % 2 ^ 32) := by
    simp [nextPartition, Partition.file, hh.partId_eq]
  obtain ⟨-, henv, -⟩ := freeze_of_lookup hp hh
  refine stays_of_log_eq ?_ ?_ ?_
  · rw [log_freeze hm hp, if_neg hf]
  · rw [henv, hfile, Env.content_newWritableFile, if_neg hf, syncHandle_content,
      hh.flushBuf_content]
    split_ifs with hg
    · right
      rw [hg, log, buffered_of_lookup hp _ rfl, if_pos rfl]
    · exact .inl rfl
  · rw [henv, hfile, Env.syncedSize_newWritableFile, Env.content_newWritableFile, if_neg hf,
      if_neg hf]
    refine (syncHandle_syncedSize _ _ f).imp_left fun hs => ?_
    rw [hs, flushBuf_syncedSize]

theorem whole_freeze_new (hm : HandlesOk m) (hp : m.parts.lookup i = some p) :
    Whole (m.freeze i).2 (i, (p.gen + 1) % 2 ^ 32) [] := by
  have hh := hm i p hp
  have hfile : (nextPartition p).file = (i, (p.gen + 1) % 2 ^ 32) := by
    simp [nextPartition, Partition.file, hh.partId_eq]
  obtain ⟨-, henv, -⟩ := freeze_of_lookup hp hh
  refine ⟨by simp, ?_, rfl, ?_⟩
  · rw [log_freeze hm hp, if_pos rfl]
    rfl
  · rw [henv, hfile, Env.syncedSize_newWritableFile, if_pos rfl]
    exact Nat.zero_le _

theorem whole_appendTo (hm : HandlesOk m) (hp : IsPartition m i p) {r : WalRecord}
    (hr : r.frameLength ≤ kScanChunkSize) (h : Whole m (i, p.gen) rs) :
    Whole (m.appendTo i p r).2 (i, p.gen) (rs ++ [r]) := by
  have hlog := log_appendTo hm hp r (i, p.gen)
  rw [if_pos rfl] at hlog
  refine h.snoc hr hlog ?_ ?_
  · exact (content_appendTo hm hp r _).imp_right fun hc => hc.2.trans hlog.symm
  · rw [appendTo_env, maybeFlush_syncedSize, ensureOpenForWrite_syncedSize]

theorem stays_appendTo (hm : HandlesOk m) (hp : IsPartition m i p) (r : WalRecord)
    (hf : f ≠ (i, p.gen)) : Stays m (m.appendTo i p r).2 f := by
  have hlog := log_appendTo hm hp r f
  rw [if_neg hf] at hlog
  refine stays_of_log_eq hlog (.inl ?_) (.inl ?_)
  · exact (content_appendTo hm hp r f).resolve_right fun hc => hf hc.1
  · rw [appendTo_env, maybeFlush_syncedSize, ensureOpenForWrite_syncedSize]

/-- The number of bytes of `f` that survive the crash. -/
def cutLength (m : PartitionedWalManager) (cut : FileId → ℕ) (f : FileId) : ℕ :=
  min (max (cut f) (m.env.syncedSize f)) (m.env.content f).length

theorem content_restart (h : Whole m f rs) (cut : FileId → ℕ) :
    (restart m cut).env.content f = (rs.flatMap WalRecord.frame).take (cutLength m cut f) := by
  have hcontent : m.env.content f =
      (rs.flatMap WalRecord.frame).take (m.env.content f).length := by
    rw [← h.log_eq]
    exact List.prefix_iff_eq_take.mp (content_isPrefix_log m f)
  rw [env_restart, Env.content_crash, cutLength]
  conv_lhs => rw [hcontent]
  rw [List.take_take]

theorem synced_le_cutLength (h : Whole m f rs) (cut : FileId → ℕ) :
    m.env.syncedSize f ≤ cutLength m cut f := by
  have hle := h.synced_le
  simp only [cutLength]
  omega

/-- The records left in `f`, or `none` if the crash cuts through a frame. -/
def survivors (m : PartitionedWalManager) (cut : FileId → ℕ) (f : FileId) (rs : List WalRecord) :
    Option (List WalRecord) :=
  if tornFrame WalRecord.frame (cutLength m cut f) rs = [] then
    some (wholeFrames WalRecord.frame (cutLength m cut f) rs)
  else none

theorem whole_restart (h : Whole m f rs) {cut : FileId → ℕ} {rs' : List WalRecord}
    (hs : survivors m cut f rs = some rs') : Whole (restart m cut) f rs' := by
  simp only [survivors] at hs
  split_ifs at hs with htorn
  obtain rfl := Option.some.inj hs
  have hcontent := content_restart h cut
  rw [take_flatMap_of_aligned _ htorn] at hcontent
  refine ⟨?_, ?_, ?_, ?_⟩
  · exact fun r hr => h.short r ((wholeFrames_isPrefix _ _ rs).subset hr)
  · rw [log, buffered_restart, List.append_nil, hcontent]
  · rw [hcontent]
    exact tornFrame_length _ _
  · rw [env_restart, Env.syncedSize_crash]

theorem stays_unlink (g : FileId) (hg : f ≠ g) :
    Stays m { m with env := m.env.deleteFile g } f := by
  refine stays_of_log_eq ?_ (.inl ?_) (.inl ?_)
  · simp only [log, Env.content_deleteFile, if_neg hg]
  · rw [Env.content_deleteFile, if_neg hg]
  · rw [Env.syncedSize_deleteFile, if_neg hg]

inductive HistoryOp
  | append (part : ℕ) (r : WalRecord)
  | sync (part : ℕ)
  | freeze (part : ℕ)
  | close
  | reopen
  | crash (cut : FileId → ℕ)
  | unlink (f : FileId)

/-- The manager with the records its files are made of. -/
structure History where
  mgr : PartitionedWalManager
  records : FileId → Option (List WalRecord)

namespace History

/-- The records of a file. -/
def recordsOf (h : History) (f : FileId) : List WalRecord := (h.records f).getD []

def start (partitions target : ℕ) : History :=
  ⟨(PartitionedWalManager.create .empty partitions target).open_, fun _ => some []⟩

def step (h : History) : HistoryOp → History
  | .append part r =>
    match h.mgr.append part r with
    | (.ok ref, m) =>
      ⟨m, Function.update h.records ref.file ((h.records ref.file).map (· ++ [r]))⟩
    | (.error _, m) => ⟨m, h.records⟩
  | .sync part => ⟨(h.mgr.sync part).2, h.records⟩
  | .freeze part =>
    match h.mgr.parts.lookup part with
    | none => h
    | some p =>
      ⟨(h.mgr.freeze part).2, Function.update h.records (part, (p.gen + 1) % 2 ^ 32) (some [])⟩
  | .close => ⟨h.mgr.close, h.records⟩
  | .reopen => ⟨h.mgr.reopen, h.records⟩
  | .crash cut => ⟨restart h.mgr cut, fun f => (h.records f).bind (survivors h.mgr cut f)⟩
  | .unlink f =>
    ⟨{ h.mgr with env := h.mgr.env.deleteFile f }, Function.update h.records f (some [])⟩

end History

/-- Frames fit into a block of the scanner, and only sealed files are removed. -/
def Admissible (h : History) : HistoryOp → Prop
  | .append _ r => r.frameLength ≤ kScanChunkSize
  | .unlink f => ∀ p ∈ h.mgr.parts.lookup f.1, p.gen ≠ f.2
  | _ => True

structure Tracks (h : History) : Prop where
  handles : HandlesOk h.mgr
  whole : ∀ f rs, h.records f = some rs → Whole h.mgr f rs

theorem tracks_start (partitions target : ℕ) : Tracks (History.start partitions target) := by
  refine ⟨handlesOk_openCreate _ _ _, ?_⟩
  intro f rs hrs
  obtain rfl := Option.some.inj hrs
  refine ⟨by simp, ?_, rfl, ?_⟩
  · rw [log, History.start, buffered_openCreate]
    exact Env.content_empty f
  · exact (Env.syncedSize_empty f).le.trans (Nat.zero_le _)

private theorem tracks_append {h : History} (ht : Tracks h) (part : ℕ) {r : WalRecord}
    (hr : r.frameLength ≤ kScanChunkSize) : Tracks (h.step (.append part r)) := by
  rcases append_cases h.mgr part r with ⟨p, hp, heq⟩ | ⟨e, heq⟩
  · have hpart : IsPartition h.mgr part p := hp.imp_right fun hn => ⟨hn.1, hn.2.2⟩
    simp only [History.step, heq, appendTo_ref, WalRecordRef.file]
    refine ⟨handlesOk_appendTo ht.handles hpart r, ?_⟩
    intro f rs hrs
    dsimp only at hrs
    by_cases hf : f = (part, p.gen)
    · subst hf
      rw [Function.update_self, Option.map_eq_some_iff] at hrs
      obtain ⟨old, hold, rfl⟩ := hrs
      exact whole_appendTo ht.handles hpart hr (ht.whole _ old hold)
    · rw [Function.update_of_ne hf] at hrs
      exact (stays_appendTo ht.handles hpart r hf rs (ht.whole f rs hrs)).1
  · simp only [History.step, heq]
    exact ht

private theorem tracks_freeze {h : History} (ht : Tracks h) (part : ℕ) :
    Tracks (h.step (.freeze part)) := by
  cases hp : h.mgr.parts.lookup part with
  | none => simpa only [History.step, hp] using ht
  | some p =>
    simp only [History.step, hp]
    refine ⟨handlesOk_freeze ht.handles part, ?_⟩
    intro f rs hrs
    dsimp only at hrs
    by_cases hf : f = (part, (p.gen + 1) % 2 ^ 32)
    · subst hf
      rw [Function.update_self] at hrs
      obtain rfl := Option.some.inj hrs
      exact whole_freeze_new ht.handles hp
    · rw [Function.update_of_ne hf] at hrs
      exact (stays_freeze ht.handles hp hf rs (ht.whole f rs hrs)).1

private theorem tracks_unlink {h : History} (ht : Tracks h) (f : FileId)
    (hf : ∀ p ∈ h.mgr.parts.lookup f.1, p.gen ≠ f.2) : Tracks (h.step (.unlink f)) := by
  have hactive : ∀ i p, h.mgr.parts.lookup i = some p → ((i, p.gen) : FileId) ≠ f := by
    rintro i p hp rfl
    exact hf p hp rfl
  refine ⟨?_, ?_⟩
  · intro i p hp
    have hh := ht.handles i p hp
    refine ⟨hh.partId_eq, hh.wfile_eq, ?_, hh.buf_open⟩
    intro hw
    simp [History.step, Env.exists?_deleteFile, hactive i p hp, hh.wfile_exists hw]
  · intro g rs hrs
    by_cases hg : g = f
    · subst hg
      simp only [History.step, Function.update_self] at hrs
      obtain rfl := Option.some.inj hrs
      have hbuf : buffered h.mgr.parts g = [] := by
        cases hp : h.mgr.parts.lookup g.1 with
        | none => exact buffered_of_lookup_none hp g rfl
        | some p => rw [buffered_of_lookup hp g rfl, if_neg (hf p hp)]
      refine ⟨by simp, ?_, rfl, ?_⟩
      · simp [History.step, log, Env.content_deleteFile, hbuf]
      · simp [History.step, Env.syncedSize_deleteFile]
    · simp only [History.step, Function.update_of_ne hg] at hrs
      exact (stays_unlink f hg rs (ht.whole g rs hrs)).1

theorem tracks_step (h : History) (op : HistoryOp) (hop : Admissible h op) (ht : Tracks h) :
    Tracks (h.step op) := by
  cases op with
  | append part r => exact tracks_append ht part hop
  | sync part =>
    exact ⟨handlesOk_sync ht.handles part,
      fun f rs hrs => (stays_sync ht.handles part f rs (ht.whole f rs hrs)).1⟩
  | freeze part => exact tracks_freeze ht part
  | close =>
    exact ⟨handlesOk_close ht.handles,
      fun f rs hrs => (stays_close ht.handles f rs (ht.whole f rs hrs)).1⟩
  | reopen =>
    exact ⟨handlesOk_reopen h.mgr,
      fun f rs hrs => (stays_reopen ht.handles f rs (ht.whole f rs hrs)).1⟩
  | crash cut =>
    refine ⟨handlesOk_restart h.mgr cut, ?_⟩
    intro f rs hrs
    obtain ⟨old, hold, hs⟩ := Option.bind_eq_some_iff.mp hrs
    exact whole_restart (ht.whole f old hold) hs
  | unlink f => exact tracks_unlink ht f hop

/-- What `Recover` replays: the records of every file, each with the offset behind it. -/
def replay (env : Env) : List (FileId × Scanned × ℕ) :=
  env.listFiles.flatMap fun f => ((WalScanner.scan (env.content f)).1).map fun x => (f, x)

/-- The record as a scanner hands it out. -/
def scanned (r : WalRecord) : Scanned := ⟨r.header, r.key, r.value⟩

/-- `Recover` replays the record. -/
def Visible (env : Env) (r : WalRecord) : Prop := scanned r ∈ (replay env).map fun x => x.2.1

instance (env : Env) (r : WalRecord) : Decidable (Visible env r) :=
  inferInstanceAs (Decidable (scanned r ∈ _))

theorem mem_offsets {r : WalRecord} (off : ℕ) (h : r ∈ rs) :
    ∃ e, (scanned r, e) ∈ WalScanner.offsets off rs := by
  induction rs generalizing off with
  | nil => simp at h
  | cons q rs ih =>
    rcases List.mem_cons.mp h with rfl | h
    · exact ⟨off + r.frameLength, by simp [WalScanner.offsets, scanned]⟩
    · obtain ⟨e, he⟩ := ih (off + q.frameLength) h
      exact ⟨e, List.mem_cons_of_mem _ he⟩

/-- A whole file is scanned to its end, and `Recover` replays what has been flushed to it. -/
theorem Whole.scan (h : Whole m f rs) :
    (WalScanner.scan (m.env.content f)).1 =
        WalScanner.offsets 0 (wholeFrames WalRecord.frame (m.env.content f).length rs) ∧
      (WalScanner.scan (m.env.content f)).2.status = none := by
  have hshort : ∀ r ∈ wholeFrames WalRecord.frame (m.env.content f).length rs,
      r.frameLength ≤ kScanChunkSize :=
    fun r hr => h.short r ((wholeFrames_isPrefix _ _ rs).subset hr)
  have hscan := WalScanner.scan_frames hshort
  rwa [← h.content_eq] at hscan

end ZeroFlush.WalHistory
