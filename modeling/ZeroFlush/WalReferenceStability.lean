import ZeroFlush.ManagerConsistency
import ZeroFlush.GuardedRuns

/-! # A reference returned by `Append` reads back the appended value -/
namespace ZeroFlush.WalReferenceStability
open FixedWidthCodec FiniteMaps WalFormat WalFiles PartitionedWal WalLogs WalOpening
  ReadPaths ManagerConsistency GuardedRuns

/-- `open_` is `Open` called on the running manager, `reopen` a new session. The files of
materialized generations are removed by `unlink`. -/
inductive WalOp
  | append (part : ℕ) (r : WalRecord)
  | sync (part : ℕ)
  | freeze (part : ℕ)
  | close
  | open_
  | reopen
  | unlink (f : FileId)
  deriving DecidableEq

/-- The manager with the references it has returned, as long as their files exist. -/
structure Session where
  mgr : PartitionedWalManager
  acked : List (WalRecordRef × WalRecord)

namespace Session

def start (partitions target : ℕ) : Session :=
  ⟨(PartitionedWalManager.create .empty partitions target).open_, []⟩

def step (s : Session) : WalOp → Session
  | .append part r =>
    match s.mgr.append part r with
    | (.ok ref, m) => ⟨m, (ref, r) :: s.acked⟩
    | (.error _, m) => ⟨m, s.acked⟩
  | .sync part => ⟨(s.mgr.sync part).2, s.acked⟩
  | .freeze part => ⟨(s.mgr.freeze part).2, s.acked⟩
  | .close => ⟨s.mgr.close, s.acked⟩
  | .open_ => ⟨s.mgr.open_, s.acked⟩
  | .reopen => ⟨s.mgr.reopen, s.acked⟩
  | .unlink f =>
    ⟨{ s.mgr with env := s.mgr.env.deleteFile f }, s.acked.filter fun a => a.1.file ≠ f⟩

end Session

/-- Nothing of the range-delete partition is on disk or buffered. -/
def RangeDelQuiet (m : PartitionedWalManager) : Prop :=
  ∀ f ∈ m.env.listFiles, f.1 = kRangeDelPartId → log m f = []

instance (m : PartitionedWalManager) : Decidable (RangeDelQuiet m) :=
  inferInstanceAs (Decidable (∀ f ∈ m.env.listFiles, _))

/-- `Open` on the running manager needs empty buffers, a new session an empty range-delete
partition. Only sealed files are removed. -/
def StepOk (s : Session) : WalOp → Prop
  | .append _ r => r.frameLength < 2 ^ 32
  | .freeze part => s.mgr.activeGen part + 1 < 2 ^ 32
  | .open_ => ∀ i < s.mgr.partitions, ∀ p ∈ s.mgr.parts.lookup i, p.buf = []
  | .reopen => RangeDelQuiet s.mgr
  | .unlink f => ∀ p ∈ s.mgr.parts.lookup f.1, p.gen ≠ f.2
  | .sync _ | .close => True

instance decidableStepOk (s : Session) : (op : WalOp) → Decidable (StepOk s op)
  | .append _ r => inferInstanceAs (Decidable (r.frameLength < 2 ^ 32))
  | .freeze part => inferInstanceAs (Decidable (s.mgr.activeGen part + 1 < 2 ^ 32))
  | .open_ =>
    inferInstanceAs (Decidable (∀ i < s.mgr.partitions, ∀ p ∈ s.mgr.parts.lookup i, p.buf = []))
  | .reopen => inferInstanceAs (Decidable (RangeDelQuiet s.mgr))
  | .unlink f => inferInstanceAs (Decidable (∀ p ∈ s.mgr.parts.lookup f.1, p.gen ≠ f.2))
  | .sync _ | .close => .isTrue trivial

/-- A reference to a managed partition whose record stands in the log. -/
structure Good (m : PartitionedWalManager) (a : WalRecordRef × WalRecord) : Prop where
  short : a.2.frameLength < 2 ^ 32
  managed : m.parts.lookup a.1.partId ≠ none
  placed : Placed m a.1.file a.1.offset a.2

structure Inv (s : Session) : Prop where
  ok : Ok s.mgr
  good : ∀ a ∈ s.acked, Good s.mgr a

theorem Inv.readValue {s : Session} (h : Inv s) (a : WalRecordRef × WalRecord)
    (ha : a ∈ s.acked) : ReadPaths.readValue s.mgr a.1 = .ok (valueOf a.2) := by
  have hg := h.good a ha
  obtain ⟨p, hp⟩ := Option.ne_none_iff_exists'.mp hg.managed
  exact readValue_of_placed hp (h.ok.sizes _ p hp) hg.short hg.placed

theorem inv_start (partitions target : ℕ) : Inv (Session.start partitions target) := by
  refine ⟨ok_open (openable_create _ _ _ ?_), ?_⟩
  · simp
  · simp [Session.start]

variable {m m' : PartitionedWalManager} {a : WalRecordRef × WalRecord}

theorem Good.mono (h : Good m a) (he : Extends m m')
    (hm : ∀ i, m.parts.lookup i ≠ none → m'.parts.lookup i ≠ none) : Good m' a :=
  ⟨h.short, hm _ h.managed, he.placed h.placed⟩

/-- An operation that keeps the manager in order and takes nothing away keeps the session. -/
theorem Inv.mono {s : Session} (h : Inv s) (hok : Ok m') (he : Extends s.mgr m')
    (hm : ∀ i, s.mgr.parts.lookup i ≠ none → m'.parts.lookup i ≠ none) : Inv ⟨m', s.acked⟩ :=
  ⟨hok, fun a ha => (h.good a ha).mono he hm⟩

theorem lookup_insert_ne_none {parts : Map ℕ Partition} {i j : ℕ} {p : Partition}
    (h : parts.lookup i ≠ none) : (parts.insert j p).lookup i ≠ none := by
  rw [lookup_insert_eq]
  split_ifs
  · simp
  · exact h

theorem lookup_sync_ne_none {i : ℕ} (part : ℕ) (h : m.parts.lookup i ≠ none) :
    (m.sync part).2.parts.lookup i ≠ none := by
  unfold PartitionedWalManager.sync
  split
  · exact h
  · exact lookup_insert_ne_none h

theorem lookup_freeze_ne_none {i : ℕ} (part : ℕ) (h : m.parts.lookup i ≠ none) :
    (m.freeze part).2.parts.lookup i ≠ none := by
  unfold PartitionedWalManager.freeze
  split
  · exact h
  · exact lookup_insert_ne_none h

theorem lookup_close_ne_none {i : ℕ} (h : m.parts.lookup i ≠ none) :
    m.close.parts.lookup i ≠ none := by
  have hsome := lookup_closeLoop_isSome m m.parts.keys i
  rw [← Option.isSome_iff_ne_none] at h ⊢
  exact hsome.trans h

private theorem inv_append {s : Session} (h : Inv s) (part : ℕ) (r : WalRecord)
    (hr : r.frameLength < 2 ^ 32) : Inv (s.step (.append part r)) := by
  rcases append_cases s.mgr part r with ⟨p, hp, heq⟩ | ⟨e, heq⟩
  · have hpart : IsPartition s.mgr part p := hp.imp_right fun hn => ⟨hn.1, hn.2.2⟩
    have hknown : part < s.mgr.partitions ∨ part = kRangeDelPartId := by
      rcases hp with hp | hn
      · exact h.ok.known part p hp
      · exact .inr hn.2.1
    have hinv := h.mono (ok_appendTo h.ok hpart hknown r)
      (extends_appendTo h.ok.handles hpart r) (fun i hi => lookup_insert_ne_none hi)
    simp only [Session.step, heq, appendTo_ref]
    refine ⟨hinv.ok, ?_⟩
    intro a ha
    rcases List.mem_cons.mp ha with rfl | ha
    · refine ⟨hr, ?_, placed_appendTo h.ok hpart hknown r⟩
      rw [appendTo_parts, lookup_insert_eq, if_pos rfl]
      simp
    · exact hinv.good a ha
  · simp only [Session.step, heq]
    exact h

private theorem inv_reopen {s : Session} (h : Inv s) (hquiet : RangeDelQuiet s.mgr) :
    Inv (s.step .reopen) := by
  have hrd : ∀ g, log s.mgr (kRangeDelPartId, g) = [] := by
    intro g
    by_cases hex : s.mgr.env.exists? (kRangeDelPartId, g) = true
    · exact hquiet _ (Env.mem_listFiles.mpr hex) rfl
    · have hbuf : buffered s.mgr.parts (kRangeDelPartId, g) = [] := by
        unfold buffered
        cases hp : s.mgr.parts.lookup kRangeDelPartId with
        | none => rfl
        | some p =>
          simp only
          split_ifs with hg
          · have hh := h.ok.handles _ p hp
            by_contra hb
            exact hex (hg ▸ hh.wfile_exists (hh.buf_open hb))
          · rfl
      rw [log, Env.content_of_not_exists (by simpa using hex), hbuf, List.append_nil]
  refine ⟨ok_reopen h.ok hrd, ?_⟩
  intro a ha
  have hg := h.good a ha
  refine ⟨hg.short, ?_, (extends_reopen h.ok).placed hg.placed⟩
  obtain ⟨p, hp⟩ := Option.ne_none_iff_exists'.mp hg.managed
  rcases h.ok.known _ p hp with hi | hi
  · simp [Session.step, lookup_reopen, hi]
  · have hlog := hg.placed.inLog
    have hge := frameLength_ge a.2
    rw [WalRecordRef.file, hi, hrd] at hlog
    have hlen := hlog.length_le
    simp at hlen
    omega

private theorem inv_unlink {s : Session} (h : Inv s) (f : FileId)
    (hf : ∀ p ∈ s.mgr.parts.lookup f.1, p.gen ≠ f.2) : Inv (s.step (.unlink f)) := by
  refine ⟨ok_unlink h.ok hf, ?_⟩
  intro a ha
  obtain ⟨ha, hne⟩ := List.mem_filter.mp ha
  have hg := h.good a ha
  have hcontent : (s.mgr.env.deleteFile f).content a.1.file = s.mgr.env.content a.1.file := by
    rw [Env.content_deleteFile, if_neg (by simpa using hne)]
  refine ⟨hg.short, hg.managed, ?_, ?_⟩
  · simpa only [Session.step, log, hcontent] using hg.placed.inLog
  · simpa only [Session.step, hcontent] using hg.placed.uncut

theorem inv_step (s : Session) (op : WalOp) (hop : StepOk s op) (h : Inv s) : Inv (s.step op) := by
  cases op with
  | append part r => exact inv_append h part r hop
  | sync part =>
    exact h.mono (ok_sync h.ok part) (extends_sync h.ok.handles part)
      (fun i hi => lookup_sync_ne_none part hi)
  | freeze part =>
    exact h.mono (ok_freeze h.ok part hop) (extends_freeze h.ok part hop)
      (fun i hi => lookup_freeze_ne_none part hi)
  | close => exact h.mono (ok_close h.ok) (extends_close h.ok) (fun i hi => lookup_close_ne_none hi)
  | open_ =>
    refine h.mono (ok_open (openable_of_ok h.ok)) (extends_open ?_) ?_
    · exact fun i p hp hi => hop i hi p hp
    · intro i hi
      simpa [lookup_open] using hi
  | reopen => exact inv_reopen h hop
  | unlink f => exact inv_unlink h f hop

/-- In every run whose steps meet `StepOk`, every reference handed out reads back its record
as long as the file exists: from the buffer, from the active file, from a sealed file and in
later sessions. -/
theorem reads_back_of_guarded (partitions target : ℕ) (ops : List WalOp)
    (h : Guarded Session.step StepOk (Session.start partitions target) ops) :
    ∀ a ∈ (run Session.step (Session.start partitions target) ops).acked,
      readValue (run Session.step (Session.start partitions target) ops).mgr a.1 =
        .ok (valueOf a.2) :=
  (invariant_run inv_step (inv_start partitions target) h).readValue

/-- A generation is sealed, and the partition goes on in a second session. -/
def twoSessions : List WalOp :=
  [.append 0 ⟨[0x61], [0x62], kTypeValue, 1⟩, .freeze 0,
    .append 0 ⟨[0x61], [], kTypeDeletion, 2⟩, .reopen, .append 0 ⟨[0x63], [0x64], kTypeValue, 3⟩]

theorem reads_back_of_twoSessions :
    Guarded Session.step StepOk (Session.start 1 64) twoSessions ∧
      ∀ a ∈ (run Session.step (Session.start 1 64) twoSessions).acked,
        readValue (run Session.step (Session.start 1 64) twoSessions).mgr a.1 =
          .ok (valueOf a.2) :=
  have h : Guarded Session.step StepOk (Session.start 1 64) twoSessions := by decide +kernel
  ⟨h, reads_back_of_guarded 1 64 twoSessions h⟩
/-- A second session does not find the tombstones of the first one. -/
def tombstones : List WalOp :=
  [.append kRangeDelPartId ⟨[0x61], [0x62], kTypeRangeDeletion, 1⟩, .reopen,
    .append kRangeDelPartId ⟨[0x63], [0x64], kTypeRangeDeletion, 2⟩, .sync kRangeDelPartId]

/-- The second tombstone gets the offset of the first one and reads its end key. -/
theorem reads_back_fails :
    ¬ ∀ (partitions target : ℕ) (ops : List WalOp),
      ∀ a ∈ (run Session.step (Session.start partitions target) ops).acked,
        readValue (run Session.step (Session.start partitions target) ops).mgr a.1 =
          .ok (valueOf a.2) := by
  intro h
  have hread := h 1 64 tombstones
    (⟨kRangeDelPartId, 0, 0⟩, ⟨[0x63], [0x64], kTypeRangeDeletion, 2⟩) (by decide +kernel)
  revert hread
  decide +kernel

end ZeroFlush.WalReferenceStability
