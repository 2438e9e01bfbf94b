import Mathlib.Data.List.Infix
import ZeroFlush.FaultyWal
import ZeroFlush.GuardedRuns
import ZeroFlush.WalOpening

/-! # Writes that fail

`Append` buffers and counts a record before the flush that can fail, `Freeze` drops the buffer
whatever the flush said. A run keeps what it has acknowledged, each record with the place of its
frame: behind everything logged in the active file. -/
namespace ZeroFlush.FailedWrites
open FixedWidthCodec FiniteMaps WalFormat WalFiles PartitionedWal WalLogs WalOpening FaultyWal
  GuardedRuns

/-- What `FlushBuf` and `Sync` answer; of a failed write some bytes have reached the file. -/
def ioFaults (write : Option (Status × ℕ)) (sync : Option Status) : Faults :=
  { append := write, sync := sync }

structure Acked where
  file : FileId
  at_ : ℕ
  record : WalRecord

inductive IoOp
  | append (write : Option (Status × ℕ)) (part : ℕ) (r : WalRecord)
  | sync (part : ℕ)
  | freeze (write : Option (Status × ℕ)) (sync : Option Status) (part : ℕ)
  | reopen

structure Session where
  mgr : PartitionedWalManager
  acked : List Acked

/-- A session over any directory. -/
def start (env : Env) (partitions target : ℕ) : Session :=
  ⟨(PartitionedWalManager.create env partitions target).open_, []⟩

/-- The file that a freeze opens is emptied. -/
def step (s : Session) : IoOp → Session
  | .append write part r =>
    match append (ioFaults write none) s.mgr part r with
    | (.ok ref, m) => ⟨m, s.acked ++ [⟨ref.file, (log s.mgr ref.file).length, r⟩]⟩
    | (.error _, m) => ⟨m, s.acked⟩
  | .sync part => ⟨(s.mgr.sync part).2, s.acked⟩
  | .freeze write sync part =>
    ⟨(freeze (ioFaults write sync) s.mgr part).2,
      s.acked.filter fun a => a.file ≠ (part, (s.mgr.activeGen part + 1) % 2 ^ 32)⟩
  | .reopen => ⟨s.mgr.reopen, s.acked⟩

/-- No record has been added to a file, to a buffer or to a counter. -/
structure Unchanged (m m' : PartitionedWalManager) : Prop where
  content_eq : ∀ f, m'.env.content f = m.env.content f
  buffered_eq : ∀ f, buffered m'.parts f = buffered m.parts f
  activeGen_eq : ∀ i, m'.activeGen i = m.activeGen i
  activeSize_eq : ∀ i, m'.activeSize i = m.activeSize i
  totalActiveBytes_eq : m'.totalActiveBytes = m.totalActiveBytes
  anyOverTarget_eq : m'.anyOverTarget = m.anyOverTarget

/-- The frame of an acknowledged record stands at its place. -/
def StandsIn (content : Bytes) (a : Acked) : Prop := a.record.frame <+: content.drop a.at_

instance (content : Bytes) (a : Acked) : Decidable (StandsIn content a) :=
  inferInstanceAs (Decidable (a.record.frame <+: content.drop a.at_))

/-- Every acknowledged record of the reported generation is in the sealed file. -/
def SealsAll (m : PartitionedWalManager) (acked : List Acked) (fr : FreezeResult) : Prop :=
  ∀ a ∈ acked, a.file = fr.sealedPath → StandsIn (m.env.content fr.sealedPath) a

instance (m : PartitionedWalManager) (acked : List Acked) (fr : FreezeResult) :
    Decidable (SealsAll m acked fr) :=
  inferInstanceAs (Decidable (∀ a ∈ acked, a.file = fr.sealedPath →
    StandsIn (m.env.content fr.sealedPath) a))

/-- A failing append leaves no trace, a freeze reports only what it has sealed. -/
def StepSafe (s : Session) : IoOp → Prop
  | .append write part r => ∀ e m, append (ioFaults write none) s.mgr part r = (.error e, m) →
    Unchanged s.mgr m
  | .freeze write sync part => ∀ fr ∈ (freeze (ioFaults write sync) s.mgr part).1,
    SealsAll (freeze (ioFaults write sync) s.mgr part).2 s.acked fr
  | .sync _ | .reopen => True

instance (s : Session) (write : Option (Status × ℕ)) (sync : Option Status) (part : ℕ) :
    Decidable (StepSafe s (.freeze write sync part)) :=
  inferInstanceAs (Decidable (∀ fr ∈ (freeze (ioFaults write sync) s.mgr part).1,
    SealsAll (freeze (ioFaults write sync) s.mgr part).2 s.acked fr))

/-- The write of an append to the partition does not fail. -/
def AppendWrites (m : PartitionedWalManager) (write : Option (Status × ℕ)) (part : ℕ)
    (r : WalRecord) : Prop :=
  ∀ p, IsPartition m part p → (m.hasPartition part = true ∨ part = kRangeDelPartId) →
    4096 ≤ p.buf.length + r.frame.length → write = none

/-- The write of a full buffer does not fail, and that of a freeze leaves nothing in the buffer. -/
def WritesThrough (s : Session) : IoOp → Prop
  | .append write part r => AppendWrites s.mgr write part r
  | .freeze write _ part => ∀ p, s.mgr.parts.lookup part = some p →
    ∀ e n, write = some (e, n) → p.buf.length ≤ n
  | .sync _ | .reopen => True

/-- What a write leaves in the file. -/
def written (write : Option (Status × ℕ)) (buf : Bytes) : Bytes :=
  match write with
  | none => buf
  | some (_, n) => buf.take n

section writes
variable {write : Option (Status × ℕ)} {sync : Option Status} {env : Env} {m : PartitionedWalManager}
  {i part : ℕ} {p : Partition} {r : WalRecord}

theorem content_flushBuf (h : HandleOk env i p) (g : FileId) :
    (FaultyWal.flushBuf (ioFaults write sync) env p).2.1.content g =
      if g = (i, p.gen) then env.content g ++ written write p.buf else env.content g := by
  by_cases hb : p.buf = []
  · have hflush : FaultyWal.flushBuf (ioFaults write sync) env p = (none, env, p) := by
      rw [FaultyWal.flushBuf, hb]
    have hnil : written write p.buf = [] := by
      rw [hb]
      cases write with
      | none => rfl
      | some w => exact List.take_nil
    rw [hflush, hnil]
    simp
  · have hopen := h.buf_open hb
    obtain ⟨f, hf⟩ := Option.ne_none_iff_exists'.mp hopen
    have hfile := h.wfile_eq f hf
    have hex := h.wfile_exists hopen
    subst hfile
    obtain ⟨b, bs, hbuf⟩ := List.exists_cons_of_ne_nil hb
    cases write with
    | none =>
      have hflush : FaultyWal.flushBuf (ioFaults none sync) env p =
          (none, PartitionedWal.flushBuf env p) := by
        rw [FaultyWal.flushBuf, hbuf, hf]
        rfl
      rw [hflush]
      exact h.flushBuf_content g
    | some w =>
      have hflush : FaultyWal.flushBuf (ioFaults (some w) sync) env p =
          (some w.1, env.appendFile (i, p.gen) (p.buf.take w.2), p) := by
        rw [FaultyWal.flushBuf, hbuf, hf]
        rfl
      rw [hflush, Env.content_appendFile hex]
      split
      next hg =>
        rw [hg]
        rfl
      next => rfl

theorem exists?_flushBuf (g : FileId) :
    (FaultyWal.flushBuf (ioFaults write sync) env p).2.1.exists? g = env.exists? g := by
  rw [FaultyWal.flushBuf]
  split
  · cases write with
    | none => exact flushBuf_exists? env p g
    | some w => exact Env.exists?_appendFile env _ g _
  · rfl

theorem syncHandle_same (g : FileId) :
    (FaultyWal.syncHandle (ioFaults write sync) env p).2.content g = env.content g ∧
      (FaultyWal.syncHandle (ioFaults write sync) env p).2.exists? g = env.exists? g := by
  rw [FaultyWal.syncHandle]
  split
  · exact ⟨rfl, rfl⟩
  · rw [PartitionedWalManager.syncHandle]
    cases p.wfile with
    | none => exact ⟨rfl, rfl⟩
    | some f => exact ⟨Env.content_syncFile env f g, Env.exists?_syncFile env f g⟩

/-- `Freeze` reports the generation as sealed whatever its write has left in the file. -/
theorem freeze_spec (hm : HandlesOk m) (hp : m.parts.lookup part = some p) :
    (FaultyWal.freeze (ioFaults write sync) m part).1 =
        some ⟨p.gen, p.totalSize, (part, p.gen)⟩ ∧
      (FaultyWal.freeze (ioFaults write sync) m part).2.parts =
        m.parts.insert part (nextPartition p) ∧
      (∀ f, (FaultyWal.freeze (ioFaults write sync) m part).2.env.content f =
        if f = (part, (p.gen + 1) % 2 ^ 32) then []
        else if f = (part, p.gen) then m.env.content f ++ written write p.buf
        else m.env.content f) ∧
      ∀ f, (FaultyWal.freeze (ioFaults write sync) m part).2.env.exists? f =
        (decide (f = (part, (p.gen + 1) % 2 ^ 32)) || m.env.exists? f) := by
  have hh := hm part p hp
  have hcontent := @content_flushBuf write sync m.env part p hh
  have hexists := @exists?_flushBuf write sync m.env p
  have hkept : (FaultyWal.flushBuf (ioFaults write sync) m.env p).2.2.gen = p.gen ∧
      (FaultyWal.flushBuf (ioFaults write sync) m.env p).2.2.partId = p.partId ∧
      (FaultyWal.flushBuf (ioFaults write sync) m.env p).2.2.totalSize = p.totalSize := by
    rw [FaultyWal.flushBuf]
    split
    · cases write with
      | none => exact ⟨flushBuf_gen m.env p, flushBuf_partId m.env p, flushBuf_totalSize m.env p⟩
      | some w => exact ⟨rfl, rfl, rfl⟩
    · exact ⟨rfl, rfl, rfl⟩
  have hflush : (if p.wfile.isSome then FaultyWal.flushBuf (ioFaults write sync) m.env p
      else (none, m.env, p)) = FaultyWal.flushBuf (ioFaults write sync) m.env p := by
    split
    · rfl
    next hw =>
      have hclosed : p.buf = [] := by
        by_contra hb
        exact hw (Option.isSome_iff_ne_none.mpr (hh.buf_open hb))
      rw [FaultyWal.flushBuf, hclosed]
  have hnext : (nextPartition p).file = (part, (p.gen + 1) % 2 ^ 32) := by
    simp [nextPartition, Partition.file, hh.partId_eq]
  rw [FaultyWal.freeze, hp]
  dsimp only
  rw [hflush]
  generalize FaultyWal.flushBuf (ioFaults write sync) m.env p = flushed at hcontent hexists hkept
  obtain ⟨s, env, q⟩ := flushed
  obtain ⟨hgen, hid, hsize⟩ := hkept
  dsimp only at hcontent hexists hgen hid hsize ⊢
  have hopen : FaultyWal.openGen (ioFaults write sync)
      (FaultyWal.syncHandle (ioFaults write sync) env p).2
      { q with
        wfile := none, rfile := none, gen := (q.gen + 1) % 2 ^ 32, flushedSize := 0,
        totalSize := 0, buf := [], activeBytes := 0 } =
      (none, (FaultyWal.syncHandle (ioFaults write sync) env p).2.newWritableFile
        (nextPartition p).file, nextPartition p) := by
    rw [FaultyWal.openGen]
    simp [ioFaults, nextPartition, Partition.file, hid, hgen]
  rw [hopen, hgen, hsize]
  refine ⟨rfl, rfl, ?_, ?_⟩
  · intro f
    rw [hnext, Env.content_newWritableFile, (syncHandle_same f).1, hcontent]
  · intro f
    rw [hnext, Env.exists?_newWritableFile, (syncHandle_same f).2, hexists]

/-- An append whose buffer stays below 4 KiB writes nothing. -/
theorem appendTo_of_short (hshort : ¬ 4096 ≤ p.buf.length + r.frame.length) :
    FaultyWal.appendTo (ioFaults write none) m part p r =
      FaultyWal.appendTo faultless m part p r := by
  have hopen : FaultyWal.ensureOpenForWrite (ioFaults write none) m.env p =
      (none, PartitionedWal.ensureOpenForWrite m.env p) := ensureOpenForWrite_faultless m.env p
  have hlen : ¬ (bufferFrame (PartitionedWal.ensureOpenForWrite m.env p).2 r.frame).buf.length ≥
      4096 := by
    rw [bufferFrame, List.length_append, ensureOpenForWrite_buf]
    exact hshort
  rw [FaultyWal.appendTo, FaultyWal.appendTo, hopen, ensureOpenForWrite_faultless]
  dsimp only
  rw [flushFull, flushFull, if_neg hlen, if_neg hlen]

/-- An append whose write fails has counted its record. -/
theorem appendTo_of_full {w : Status × ℕ} (hp : IsPartition m part p)
    (hfull : 4096 ≤ p.buf.length + r.frame.length) :
    ∃ m', FaultyWal.appendTo (ioFaults (some w) none) m part p r = (.error w.1, m') ∧
      m'.activeSize part = m.activeSize part + r.frame.length := by
  have hopen : FaultyWal.ensureOpenForWrite (ioFaults (some w) none) m.env p =
      (none, PartitionedWal.ensureOpenForWrite m.env p) := ensureOpenForWrite_faultless m.env p
  have hlen : (bufferFrame (PartitionedWal.ensureOpenForWrite m.env p).2 r.frame).buf.length ≥
      4096 := by
    rw [bufferFrame, List.length_append, ensureOpenForWrite_buf]
    exact hfull
  obtain ⟨f, hf⟩ := Option.ne_none_iff_exists'.mp (ensureOpenForWrite_wfile m.env p)
  generalize hq : (PartitionedWal.ensureOpenForWrite m.env p).2 = q at hlen hf
  have htotal : q.totalSize = m.activeSize part := by
    rw [← hq, ensureOpenForWrite_totalSize, PartitionedWalManager.activeSize]
    rcases hp with hp | ⟨hp, rfl⟩ <;> rw [hp]
  obtain ⟨b, bs, hbuf⟩ : ∃ b bs, (bufferFrame q r.frame).buf = b :: bs := by
    refine List.exists_cons_of_ne_nil fun hnil => ?_
    rw [hnil] at hlen
    exact absurd hlen (by decide)
  have hfile : (bufferFrame q r.frame).wfile = some f := hf
  have hflush : FaultyWal.flushBuf (ioFaults (some w) none)
      (PartitionedWal.ensureOpenForWrite m.env p).1 (bufferFrame q r.frame) =
      (some w.1, (PartitionedWal.ensureOpenForWrite m.env p).1.appendFile f
        ((bufferFrame q r.frame).buf.take w.2), bufferFrame q r.frame) := by
    rw [FaultyWal.flushBuf, hbuf, hfile]
    rfl
  rw [FaultyWal.appendTo, hopen]
  dsimp only
  rw [hq, flushFull, if_pos hlen, hflush]
  refine ⟨_, rfl, ?_⟩
  rw [PartitionedWalManager.activeSize, AList.lookup_insert, ← htotal]
  rfl

theorem append_known (hp : IsPartition m part p)
    (hknown : m.hasPartition part = true ∨ part = kRangeDelPartId) :
    FaultyWal.append (ioFaults write none) m part r =
      FaultyWal.appendTo (ioFaults write none) m part p r := by
  rw [FaultyWal.append]
  rcases hp with hp | ⟨hp, rfl⟩
  · rw [hp]
  · rw [hp]
    refine if_pos (hknown.resolve_left ?_)
    simp [PartitionedWalManager.hasPartition, hp]

theorem append_of_writes (h : AppendWrites m write part r) :
    FaultyWal.append (ioFaults write none) m part r = m.append part r := by
  rw [← append_faultless]
  by_cases hknown : m.hasPartition part = true ∨ part = kRangeDelPartId
  · obtain ⟨p, hp⟩ : ∃ p, IsPartition m part p := by
      cases hl : m.parts.lookup part with
      | none => exact ⟨_, .inr ⟨hl, rfl⟩⟩
      | some p => exact ⟨p, .inl hl⟩
    have hnone : FaultyWal.append faultless m part r = FaultyWal.appendTo faultless m part p r :=
      @append_known none _ _ _ _ hp hknown
    rw [append_known hp hknown, hnone]
    by_cases hfull : 4096 ≤ p.buf.length + r.frame.length
    · rw [h p hp hknown hfull]
      rfl
    · exact appendTo_of_short hfull
  · have hl : m.parts.lookup part = none := by
      by_contra hsome
      exact hknown (.inl (Option.isSome_iff_ne_none.mpr hsome))
    rw [FaultyWal.append, FaultyWal.append, hl]
    dsimp only
    rw [if_neg fun hrd => hknown (.inr hrd), if_neg fun hrd => hknown (.inr hrd)]

/-- A failing append leaves no trace exactly when it is not its write that fails. -/
theorem appendSafe_iff :
    (∀ e m', FaultyWal.append (ioFaults write none) m part r = (.error e, m') → Unchanged m m') ↔
      AppendWrites m write part r := by
  constructor
  · intro hsafe p hp hknown hfull
    cases write with
    | none => rfl
    | some w =>
      obtain ⟨m', hfail, hsize⟩ := @appendTo_of_full m part p r w hp hfull
      have hsame := (hsafe w.1 m' ((append_known hp hknown).trans hfail)).activeSize_eq part
      rw [length_frame, WalRecord.frameLength] at hsize
      omega
  · intro hok e m' herror
    rw [append_of_writes hok] at herror
    obtain ⟨p, -, he⟩ | ⟨e', he⟩ := append_cases m part r
    · rw [he] at herror
      cases herror
    · rw [he] at herror
      cases herror
      exact ⟨fun _ => rfl, fun _ => rfl, fun _ => rfl, fun _ => rfl, rfl, rfl⟩

end writes

section runs
variable {s : Session}

/-- What the session holds: the frames of everything acknowledged, and nothing behind them in the
buffers. -/
structure Holds (s : Session) : Prop where
  handles : HandlesOk s.mgr
  held : ∀ a ∈ s.acked, StandsIn (log s.mgr a.file) a
  tail : ∀ i p, s.mgr.parts.lookup i = some p → p.buf ≠ [] → ∃ a ∈ s.acked,
    a.file = (i, p.gen) ∧ a.at_ + a.record.frame.length = (log s.mgr (i, p.gen)).length

theorem StandsIn.mono {content content' : Bytes} {a : Acked} (h : StandsIn content a)
    (hle : content <+: content') : StandsIn content' a := h.trans (List.IsPrefix.drop hle a.at_)

theorem StandsIn.length_le {content : Bytes} {a : Acked} (h : StandsIn content a) :
    a.at_ + a.record.frame.length ≤ content.length := by
  have hle := List.IsPrefix.length_le h
  rw [List.length_drop, length_frame, WalRecord.frameLength] at hle
  rw [length_frame, WalRecord.frameLength]
  omega

theorem written_isPrefix (write : Option (Status × ℕ)) (buf : Bytes) : written write buf <+: buf := by
  cases write with
  | none => exact List.prefix_rfl
  | some w => exact List.take_prefix w.2 buf

/-- A freeze writes the whole buffer. -/
theorem written_eq_iff {write : Option (Status × ℕ)} {buf : Bytes} :
    written write buf = buf ↔ ∀ e n, write = some (e, n) → buf.length ≤ n := by
  cases write with
  | none => exact iff_of_true rfl (by simp)
  | some w =>
    obtain ⟨e, n⟩ := w
    have htake : written (some (e, n)) buf = buf ↔ buf.length ≤ n := List.take_eq_self_iff buf
    rw [htake]
    constructor
    · rintro hle e' n' heq
      cases heq
      exact hle
    · intro h
      exact h e n rfl

/-- Everything acknowledged of a frozen generation is sealed exactly when its buffer is. -/
theorem freezeSafe_iff (h : Holds s) {write : Option (Status × ℕ)} {sync : Option Status}
    {part : ℕ} :
    StepSafe s (.freeze write sync part) ↔ WritesThrough s (.freeze write sync part) := by
  rw [StepSafe, WritesThrough]
  cases hp : s.mgr.parts.lookup part with
  | none =>
    have hnone : (FaultyWal.freeze (ioFaults write sync) s.mgr part).1 = none := by
      rw [FaultyWal.freeze, hp]
    rw [hnone]
    exact iff_of_true (by simp) (by simp)
  | some p =>
    obtain ⟨hres, -, hcontent, -⟩ := @freeze_spec write sync s.mgr part p h.handles hp
    have hlog : log s.mgr (part, p.gen) = s.mgr.env.content (part, p.gen) ++ p.buf := by
      rw [log, buffered_of_lookup hp _ rfl, if_pos rfl]
    have hnext : ((part, p.gen) : FileId) ≠ (part, (p.gen + 1) % 2 ^ 32) := by
      intro heq
      exact next_gen_ne p.gen (congrArg Prod.snd heq).symm
    have hsealed := hcontent (part, p.gen)
    rw [if_neg hnext, if_pos rfl] at hsealed
    have hsafe : (∀ fr ∈ (FaultyWal.freeze (ioFaults write sync) s.mgr part).1,
        SealsAll (FaultyWal.freeze (ioFaults write sync) s.mgr part).2 s.acked fr) ↔
        ∀ a ∈ s.acked, a.file = (part, p.gen) →
          StandsIn (s.mgr.env.content (part, p.gen) ++ written write p.buf) a := by
      rw [hres]
      simp only [Option.mem_def, Option.some.injEq, forall_eq', SealsAll, hsealed]
    rw [hsafe]
    have hall : (∀ q, some p = some q → ∀ e n, write = some (e, n) → q.buf.length ≤ n) ↔
        written write p.buf = p.buf := by
      rw [written_eq_iff]
      simp
    rw [hall]
    constructor
    · intro hstands
      by_cases hbuf : p.buf = []
      · have hle := (written_isPrefix write p.buf).length_le
        rw [hbuf] at hle ⊢
        exact List.eq_nil_of_length_eq_zero (Nat.le_zero.mp hle)
      · -- the last frame of the buffer is that of an acknowledged record
        obtain ⟨a, ha, hfile, hend⟩ := h.tail part p hp hbuf
        have hle := (hstands a ha hfile).length_le
        rw [hlog, List.length_append] at hend
        rw [List.length_append] at hle
        exact (written_isPrefix write p.buf).eq_of_length_le (by omega)
    · intro hwritten a ha hfile
      have hheld := h.held a ha
      rw [hfile, hlog] at hheld
      rw [hwritten]
      exact hheld

theorem stepSafe_iff (h : Holds s) (op : IoOp) : StepSafe s op ↔ WritesThrough s op := by
  cases op with
  | append write part r => exact appendSafe_iff
  | sync part => exact Iff.rfl
  | freeze write sync part => exact freezeSafe_iff h
  | reopen => exact Iff.rfl

theorem holds_append (h : Holds s) {write : Option (Status × ℕ)} {part : ℕ} {r : WalRecord}
    (hok : AppendWrites s.mgr write part r) : Holds (step s (.append write part r)) := by
  rw [step, append_of_writes hok]
  obtain ⟨p, hp, he⟩ | ⟨e, he⟩ := append_cases s.mgr part r
  · have hpart : IsPartition s.mgr part p := hp.imp_right fun hn => ⟨hn.1, hn.2.2⟩
    have hlog := log_appendTo h.handles hpart r
    have hgrow : ∀ f, log s.mgr f <+: log (s.mgr.appendTo part p r).2 f := by
      intro f
      rw [hlog]
      split
      · exact List.prefix_append _ _
      · exact List.prefix_rfl
    rw [he]
    dsimp only
    rw [appendTo_ref]
    refine ⟨handlesOk_appendTo h.handles hpart r, ?_, ?_⟩
    · intro a ha
      rcases List.mem_append.mp ha with hold | hnew
      · exact (h.held a hold).mono (hgrow a.file)
      · rw [List.mem_singleton] at hnew
        subst hnew
        rw [WalRecordRef.file]
        dsimp only
        rw [hlog, if_pos rfl, StandsIn]
        dsimp only
        rw [List.drop_left]
    · intro i q hq hbuf
      dsimp only at hq ⊢
      rw [appendTo_parts, lookup_insert_eq] at hq
      split at hq
      next hi =>
        cases hq
        refine ⟨_, List.mem_append_right _ List.mem_cons_self, ?_, ?_⟩
        · rw [hi, maybeFlush_gen]
          simp [bufferedPartition, WalRecordRef.file]
        · rw [hi, maybeFlush_gen]
          have hgen : (bufferedPartition s.mgr.env p r).gen = p.gen := by simp [bufferedPartition]
          rw [hgen, hlog, if_pos rfl, List.length_append]
          rfl
      next hi =>
        obtain ⟨a, ha, hfile, hend⟩ := h.tail i q hq hbuf
        refine ⟨a, List.mem_append_left _ ha, hfile, ?_⟩
        rw [hlog, if_neg fun heq => hi (congrArg Prod.fst heq)]
        exact hend
  · rw [he]
    exact h

theorem holds_sync (h : Holds s) (part : ℕ) : Holds (step s (.sync part)) := by
  refine ⟨handlesOk_sync h.handles part, ?_, ?_⟩
  · intro a ha
    have hheld := h.held a ha
    rw [← log_sync h.handles part] at hheld
    exact hheld
  · intro i q hq hbuf
    have hlog := log_sync h.handles part (i, q.gen)
    have hq' : (s.mgr.sync part).2.parts.lookup i = some q := hq
    have hold : s.mgr.parts.lookup i = some q := by
      cases hp : s.mgr.parts.lookup part with
      | none =>
        rw [PartitionedWalManager.sync, hp] at hq'
        exact hq'
      | some p =>
        rw [PartitionedWalManager.sync, hp] at hq'
        dsimp only at hq'
        rw [lookup_insert_eq] at hq'
        split at hq'
        · -- the synced partition has nothing in its buffer
          cases hq'
          exact absurd (h.handles part p hp).ensureOpenForWrite.flushBuf_buf hbuf
        · exact hq'
    obtain ⟨a, ha, hfile, hend⟩ := h.tail i q hold hbuf
    refine ⟨a, ha, hfile, ?_⟩
    rw [← hlog] at hend
    exact hend

theorem holds_freeze (h : Holds s) {write : Option (Status × ℕ)} {sync : Option Status} {part : ℕ}
    (hok : WritesThrough s (.freeze write sync part)) : Holds (step s (.freeze write sync part)) := by
  rw [step]
  cases hp : s.mgr.parts.lookup part with
  | none =>
    have hnone : (FaultyWal.freeze (ioFaults write sync) s.mgr part).2 = s.mgr := by
      rw [FaultyWal.freeze, hp]
    rw [hnone]
    refine ⟨h.handles, fun a ha => h.held a (List.mem_of_mem_filter ha), ?_⟩
    intro i p hi hbuf
    obtain ⟨a, ha, hfile, hend⟩ := h.tail i p hi hbuf
    refine ⟨a, List.mem_filter.mpr ⟨ha, ?_⟩, hfile, hend⟩
    refine decide_eq_true ?_
    rintro heq
    have hi' : i = part := congrArg Prod.fst (hfile.symm.trans heq)
    rw [hi', hp] at hi
    cases hi
  | some p =>
    obtain ⟨-, hparts, hcontent, hexists⟩ := @freeze_spec write sync s.mgr part p h.handles hp
    have hid := (h.handles part p hp).partId_eq
    have hgen : s.mgr.activeGen part = p.gen := by
      rw [PartitionedWalManager.activeGen, hp]
    rw [hgen]
    generalize (FaultyWal.freeze (ioFaults write sync) s.mgr part).2 = m at hparts hcontent hexists
    rw [written_eq_iff.mpr (hok p hp)] at hcontent
    have hlog : ∀ f, log m f = if f = (part, (p.gen + 1) % 2 ^ 32) then [] else log s.mgr f := by
      intro f
      rw [← log_freeze h.handles hp]
      obtain ⟨-, henv, hparts'⟩ := freeze_of_lookup hp (h.handles part p hp)
      have hfile : (nextPartition p).file = (part, (p.gen + 1) % 2 ^ 32) := by
        simp [nextPartition, Partition.file, hid]
      rw [log, log, hparts, hparts', hcontent, henv, hfile, Env.content_newWritableFile,
        syncHandle_content, (h.handles part p hp).flushBuf_content]
    refine ⟨?_, ?_, ?_⟩
    · refine handlesOk_replace (q := nextPartition p) h.handles
        ⟨hid, ?_, ?_, by simp [nextPartition]⟩ hparts ?_
      · intro f hf
        simpa [nextPartition, hid] using hf.symm
      · intro _
        dsimp only
        rw [hexists]
        simp [nextPartition]
      · intro f hf
        dsimp only
        rw [hexists, hf, Bool.or_true]
    · intro a ha
      obtain ⟨hmem, hne⟩ := List.mem_filter.mp ha
      dsimp only
      rw [hlog, if_neg (of_decide_eq_true hne)]
      exact h.held a hmem
    · intro i q hq hbuf
      dsimp only at hq ⊢
      rw [hparts, lookup_insert_eq] at hq
      split at hq
      · cases hq
        exact absurd rfl hbuf
      next hi =>
        obtain ⟨a, ha, hfile, hend⟩ := h.tail i q hq hbuf
        have hne : ((i, q.gen) : FileId) ≠ (part, (p.gen + 1) % 2 ^ 32) :=
          fun heq => hi (congrArg Prod.fst heq)
        refine ⟨a, List.mem_filter.mpr ⟨ha, decide_eq_true (hfile ▸ hne)⟩, hfile, ?_⟩
        rw [hlog, if_neg hne]
        exact hend

theorem holds_reopen (h : Holds s) : Holds (step s .reopen) := by
  refine ⟨handlesOk_reopen s.mgr, ?_, ?_⟩
  · intro a ha
    have hheld := h.held a ha
    rw [← log_reopen h.handles] at hheld
    exact hheld
  · intro i q hq hbuf
    have hq' : s.mgr.reopen.parts.lookup i = some q := hq
    rw [lookup_reopen] at hq'
    split at hq'
    · cases hq'
      exact absurd (openPartition_buf _ _ _) hbuf
    · cases hq'

theorem holds_step (s : Session) (op : IoOp) (hok : WritesThrough s op) (h : Holds s) :
    Holds (step s op) := by
  cases op with
  | append write part r => exact holds_append h hok
  | sync part => exact holds_sync h part
  | freeze write sync part => exact holds_freeze h hok
  | reopen => exact holds_reopen h

theorem holds_start (env : Env) (partitions target : ℕ) : Holds (start env partitions target) := by
  refine ⟨handlesOk_openCreate env partitions target, fun a ha => absurd ha List.not_mem_nil, ?_⟩
  intro i q hq hbuf
  have hq' : (PartitionedWalManager.create env partitions target).open_.parts.lookup i = some q := hq
  rw [lookup_openCreate] at hq'
  split at hq'
  · cases hq'
    exact absurd (openPartition_buf _ _ _) hbuf
  · cases hq'

theorem guarded_safe_iff (h : Holds s) (ops : List IoOp) :
    Guarded step StepSafe s ops ↔ Guarded step WritesThrough s ops := by
  induction ops generalizing s with
  | nil => exact Iff.rfl
  | cons op ops ih =>
    rw [guarded_cons, guarded_cons, stepSafe_iff h]
    constructor
    · rintro ⟨hok, hrest⟩
      exact ⟨hok, (ih (holds_step s op hok h)).mp hrest⟩
    · rintro ⟨hok, hrest⟩
      exact ⟨hok, (ih (holds_step s op hok h)).mpr hrest⟩

/-- Over any directory the steps of a run are safe exactly when no write of a full buffer fails in
an append and no freeze leaves bytes of its buffer unwritten. -/
theorem safe_iff_writesThrough (env : Env) (partitions target : ℕ) (ops : List IoOp) :
    Guarded step StepSafe (start env partitions target) ops ↔
      Guarded step WritesThrough (start env partitions target) ops :=
  guarded_safe_iff (holds_start env partitions target) ops

/-- The freeze reports the generation of the record, of which nothing has been written. -/
theorem not_safe_failedFreeze : ¬ Guarded step StepSafe (start Env.empty 1 100)
    [.append none 0 ⟨[97], [1], 1, 1⟩, .freeze (some (.ioError "", 0)) none 0] := by
  rintro ⟨-, hfreeze, -⟩
  exact absurd hfreeze (by decide +kernel)

end runs

end ZeroFlush.FailedWrites
