import ZeroFlush.WalHistory
import ZeroFlush.GuardedRuns

/-! # Records acknowledged with sync, over several sessions and crashes

`Open` takes the raw length of a file as the next offset and leaves a torn frame where it is.
Records behind it are written, synced and never found again. -/
namespace ZeroFlush.TornTails
open FixedWidthCodec FiniteMaps WalFormat WalFiles PartitionedWal WalLogs WalOpening
  ConcatenatedFrames SequentialScan WalHistory GuardedRuns

/-- The record `r` lies in the synced part of the file `f`. -/
def Durable (h : History) (f : FileId) (r : WalRecord) : Prop :=
  ∃ rs, h.records f = some rs ∧ r ∈ wholeFrames WalRecord.frame (h.mgr.env.syncedSize f) rs

/-- The steps that lose the records of a file: `Freeze` into a file that exists, removing the
file, and a crash that cuts through a frame. -/
def Destroys (h : History) (f : FileId) : HistoryOp → Prop
  | .freeze part =>
    f = (part, (h.mgr.activeGen part + 1) % 2 ^ 32) ∧ h.mgr.hasPartition part = true
  | .unlink g => f = g
  | .crash cut => (h.records f).bind (survivors h.mgr cut f) = none
  | _ => False

variable {h : History} {f : FileId} {r : WalRecord}

theorem Durable.stays {m' : PartitionedWalManager} (ht : Tracks h) (hd : Durable h f r)
    (hs : Stays h.mgr m' f) {records : FileId → Option (List WalRecord)}
    (hr : records f = h.records f) : Durable ⟨m', records⟩ f r := by
  obtain ⟨rs, hrs, hmem⟩ := hd
  have hle := (hs rs (ht.whole f rs hrs)).2
  exact ⟨rs, hr.trans hrs, (wholeFrames_mono _ hle rs).subset hmem⟩

private theorem durable_append (ht : Tracks h) (hd : Durable h f r) (part : ℕ) (q : WalRecord) :
    Durable (h.step (.append part q)) f r := by
  rcases append_cases h.mgr part q with ⟨p, hp, heq⟩ | ⟨e, heq⟩
  · have hpart : IsPartition h.mgr part p := hp.imp_right fun hn => ⟨hn.1, hn.2.2⟩
    simp only [History.step, heq, appendTo_ref, WalRecordRef.file]
    by_cases hf : f = (part, p.gen)
    · subst hf
      obtain ⟨rs, hrs, hmem⟩ := hd
      refine ⟨rs ++ [q], by simp [hrs], ?_⟩
      have hsync : (h.mgr.appendTo part p q).2.env.syncedSize (part, p.gen) =
          h.mgr.env.syncedSize (part, p.gen) := by
        rw [appendTo_env, maybeFlush_syncedSize, ensureOpenForWrite_syncedSize]
      dsimp only
      rw [hsync]
      exact (wholeFrames_append_isPrefix _ _ rs [q]).subset hmem
    · exact hd.stays ht (stays_appendTo ht.handles hpart q hf) (Function.update_of_ne hf _ _)
  · simp only [History.step, heq]
    exact hd

private theorem durable_freeze (ht : Tracks h) (hd : Durable h f r) (part : ℕ)
    (hf : ¬ Destroys h f (.freeze part)) : Durable (h.step (.freeze part)) f r := by
  cases hp : h.mgr.parts.lookup part with
  | none => simpa only [History.step, hp] using hd
  | some p =>
    have hne : f ≠ (part, (p.gen + 1) % 2 ^ 32) := by
      intro he
      exact hf ⟨by simpa [PartitionedWalManager.activeGen, hp] using he,
        by simp [PartitionedWalManager.hasPartition, hp]⟩
    simp only [History.step, hp]
    exact hd.stays ht (stays_freeze ht.handles hp hne) (Function.update_of_ne hne _ _)

private theorem durable_crash (ht : Tracks h) (hd : Durable h f r) (cut : FileId → ℕ)
    (hf : ¬ Destroys h f (.crash cut)) : Durable (h.step (.crash cut)) f r := by
  obtain ⟨rs, hrs, hmem⟩ := hd
  obtain ⟨rs', hrs'⟩ := Option.ne_none_iff_exists'.mp hf
  rw [hrs, Option.bind_some] at hrs'
  have hw := ht.whole f rs hrs
  have hw' := whole_restart hw hrs'
  refine ⟨rs', by simpa [History.step, hrs] using hrs', ?_⟩
  have hsync : (restart h.mgr cut).env.syncedSize f = (rs'.flatMap WalRecord.frame).length := by
    rw [env_restart, Env.syncedSize_crash, ← hw'.log_eq, log, buffered_restart, List.append_nil,
      env_restart]
  simp only [History.step]
  rw [hsync, wholeFrames_length]
  simp only [survivors] at hrs'
  split_ifs at hrs'
  obtain rfl := Option.some.inj hrs'
  exact (wholeFrames_mono _ (synced_le_cutLength hw cut) rs).subset hmem

/-- A durable record survives every step that does not destroy its file. -/
theorem durable_step (ht : Tracks h) (hd : Durable h f r) (op : HistoryOp)
    (hop : ¬ Destroys h f op) : Durable (h.step op) f r := by
  cases op with
  | append part q => exact durable_append ht hd part q
  | sync part => exact hd.stays ht (stays_sync ht.handles part f) rfl
  | freeze part => exact durable_freeze ht hd part hop
  | close => exact hd.stays ht (stays_close ht.handles f) rfl
  | reopen => exact hd.stays ht (stays_reopen ht.handles f) rfl
  | crash cut => exact durable_crash ht hd cut hop
  | unlink g => exact hd.stays ht (stays_unlink g hop) (Function.update_of_ne hop _ _)

/-- A durable record is replayed, and its file is scanned without a Corruption. -/
theorem Durable.recovered (ht : Tracks h) (hd : Durable h f r) :
    (∃ e, (f, scanned r, e) ∈ replay h.mgr.env) ∧
      (WalScanner.scan (h.mgr.env.content f)).2.status = none := by
  obtain ⟨rs, hrs, hmem⟩ := hd
  have hw := ht.whole f rs hrs
  obtain ⟨hscan, hstatus⟩ := hw.scan
  have hin := (wholeFrames_mono _ hw.synced_le rs).subset hmem
  obtain ⟨e, he⟩ := mem_offsets 0 hin
  refine ⟨⟨e, ?_⟩, hstatus⟩
  have hexists : h.mgr.env.exists? f = true := by
    by_contra hne
    rw [Env.content_of_not_exists (by simpa using hne)] at hin
    have hnil : wholeFrames WalRecord.frame ([] : Bytes).length rs = [] := by
      cases rs with
      | nil => rfl
      | cons q rs => simp [wholeFrames, WalRecord.frameLength]
    rw [hnil] at hin
    simp at hin
  refine List.mem_flatMap.mpr ⟨f, Env.mem_listFiles.mpr hexists, ?_⟩
  rw [hscan]
  exact List.mem_map.mpr ⟨_, he, rfl⟩

/-- `appended` holds the records of the running session, `synced` those whose write has been
acknowledged with sync, as long as their files exist. -/
structure Session where
  hist : History
  appended : List (FileId × WalRecord)
  synced : List (FileId × WalRecord)

namespace Session

def start (partitions target : ℕ) : Session := ⟨.start partitions target, [], []⟩

/-- The file a sync of `part` is about. -/
def activeFile (s : Session) (part : ℕ) : FileId := (part, s.hist.mgr.activeGen part)

def step (s : Session) (op : HistoryOp) : Session :=
  let hist := s.hist.step op
  match op with
  | .append part r =>
    match s.hist.mgr.append part r with
    | (.ok ref, _) => ⟨hist, (ref.file, r) :: s.appended, s.synced⟩
    | (.error _, _) => ⟨hist, s.appended, s.synced⟩
  | .sync part =>
    match s.hist.mgr.sync part with
    | (.ok _, _) =>
      ⟨hist, s.appended, s.appended.filter (fun a => a.1 = s.activeFile part) ++ s.synced⟩
    | (.error _, _) => ⟨hist, s.appended, s.synced⟩
  | .freeze _ | .close => ⟨hist, s.appended, s.synced⟩
  | .reopen | .crash _ => ⟨hist, [], s.synced⟩
  | .unlink f => ⟨hist, s.appended.filter fun a => a.1 ≠ f, s.synced.filter fun a => a.1 ≠ f⟩

end Session

/-- A crash tears no file that holds a record acknowledged with sync, no record is synced
behind a torn one, and `Freeze` does not open a file that holds such records. -/
def StepOk (s : Session) : HistoryOp → Prop
  | .append _ r => r.frameLength ≤ kScanChunkSize
  | .sync part => ∀ a ∈ s.appended, a.1 = s.activeFile part → s.hist.records a.1 ≠ none
  | .freeze part =>
    ∀ a ∈ s.appended ++ s.synced, a.1 ≠ (part, (s.hist.mgr.activeGen part + 1) % 2 ^ 32)
  | .crash cut =>
    ∀ a ∈ s.synced, (s.hist.records a.1).bind (survivors s.hist.mgr cut a.1) ≠ none
  | .unlink f => ∀ p ∈ s.hist.mgr.parts.lookup f.1, p.gen ≠ f.2
  | .close | .reopen => True

instance decidableStepOk (s : Session) : (op : HistoryOp) → Decidable (StepOk s op)
  | .append _ r => inferInstanceAs (Decidable (r.frameLength ≤ kScanChunkSize))
  | .sync part => inferInstanceAs (Decidable
      (∀ a ∈ s.appended, a.1 = s.activeFile part → s.hist.records a.1 ≠ none))
  | .freeze part => inferInstanceAs (Decidable (∀ a ∈ s.appended ++ s.synced,
      a.1 ≠ (part, (s.hist.mgr.activeGen part + 1) % 2 ^ 32)))
  | .crash cut => inferInstanceAs (Decidable (∀ a ∈ s.synced,
      (s.hist.records a.1).bind (survivors s.hist.mgr cut a.1) ≠ none))
  | .unlink f => inferInstanceAs (Decidable (∀ p ∈ s.hist.mgr.parts.lookup f.1, p.gen ≠ f.2))
  | .close | .reopen => .isTrue trivial

theorem StepOk.admissible {s : Session} {op : HistoryOp} (h : StepOk s op) :
    Admissible s.hist op := by
  cases op with
  | append part r => exact h
  | unlink f => exact h
  | _ => trivial

structure Inv (s : Session) : Prop where
  tracks : Tracks s.hist
  logged : ∀ a ∈ s.appended, ∀ rs, s.hist.records a.1 = some rs → a.2 ∈ rs
  durable : ∀ a ∈ s.synced, Durable s.hist a.1 a.2

theorem inv_start (partitions target : ℕ) : Inv (Session.start partitions target) :=
  ⟨tracks_start partitions target, by simp [Session.start], by simp [Session.start]⟩

variable {s : Session}

private theorem inv_append (hi : Inv s) (part : ℕ) (r : WalRecord)
    (hop : StepOk s (.append part r)) : Inv (s.step (.append part r)) := by
  have ht := tracks_step s.hist _ hop.admissible hi.tracks
  have hd : ∀ a ∈ s.synced, Durable (s.hist.step (.append part r)) a.1 a.2 :=
    fun a ha => durable_step hi.tracks (hi.durable a ha) _ id
  rcases append_cases s.hist.mgr part r with ⟨p, hp, heq⟩ | ⟨e, heq⟩
  · simp only [Session.step, heq, appendTo_ref, WalRecordRef.file]
    refine ⟨ht, ?_, hd⟩
    intro a ha rs hrs
    simp only [History.step, heq, appendTo_ref, WalRecordRef.file] at hrs
    by_cases hf : a.1 = (part, p.gen)
    · rw [hf, Function.update_self, Option.map_eq_some_iff] at hrs
      obtain ⟨old, hold, rfl⟩ := hrs
      rcases List.mem_cons.mp ha with rfl | ha
      · simp
      · exact List.mem_append_left _ (hi.logged a ha old (by rw [hf]; exact hold))
    · rw [Function.update_of_ne hf] at hrs
      rcases List.mem_cons.mp ha with rfl | ha
      · exact absurd rfl hf
      · exact hi.logged a ha rs hrs
  · simp only [Session.step, heq]
    refine ⟨ht, ?_, hd⟩
    intro a ha rs hrs
    simp only [History.step, heq] at hrs
    exact hi.logged a ha rs hrs

private theorem inv_sync (hi : Inv s) (part : ℕ) (hop : StepOk s (.sync part)) :
    Inv (s.step (.sync part)) := by
  have ht := tracks_step s.hist _ hop.admissible hi.tracks
  have hd : ∀ a ∈ s.synced, Durable (s.hist.step (.sync part)) a.1 a.2 :=
    fun a ha => durable_step hi.tracks (hi.durable a ha) _ id
  cases hp : s.hist.mgr.parts.lookup part with
  | none =>
    obtain ⟨e, heq⟩ : ∃ e, s.hist.mgr.sync part = (.error e, s.hist.mgr) := by
      simp [PartitionedWalManager.sync, hp]
    simp only [Session.step, heq]
    exact ⟨ht, hi.logged, hd⟩
  | some p =>
    have heq : s.hist.mgr.sync part = (.ok (), (s.hist.mgr.sync part).2) := by
      simp only [PartitionedWalManager.sync, hp]
    have hfile : s.activeFile part = (part, p.gen) := by
      simp [Session.activeFile, PartitionedWalManager.activeGen, hp]
    rw [Session.step, heq]
    refine ⟨ht, hi.logged, ?_⟩
    intro a ha
    rcases List.mem_append.mp ha with ha | ha
    · obtain ⟨ha, hact⟩ := List.mem_filter.mp ha
      have hact : a.1 = s.activeFile part := by simpa using hact
      obtain ⟨rs, hrs⟩ := Option.ne_none_iff_exists'.mp (hop a ha hact)
      have hsync := (sync_durable hi.tracks.handles hp).2
      rw [hfile] at hact
      refine ⟨rs, hrs, ?_⟩
      simp only [History.step]
      rw [hact, hsync, (hi.tracks.whole _ rs (hact ▸ hrs)).log_eq, wholeFrames_length]
      exact hi.logged a ha rs hrs
    · exact hd a ha

theorem inv_step (s : Session) (op : HistoryOp) (hop : StepOk s op) (hi : Inv s) :
    Inv (s.step op) := by
  have ht := tracks_step s.hist _ hop.admissible hi.tracks
  cases op with
  | append part r => exact inv_append hi part r hop
  | sync part => exact inv_sync hi part hop
  | freeze part =>
    have hne : ∀ a ∈ s.appended ++ s.synced, ¬ Destroys s.hist a.1 (.freeze part) :=
      fun a ha hdes => hop a ha hdes.1
    refine ⟨ht, ?_, fun a ha => durable_step hi.tracks (hi.durable a ha) _
      (hne a (List.mem_append_right _ ha))⟩
    intro a ha rs hrs
    refine hi.logged a ha rs ?_
    cases hp : s.hist.mgr.parts.lookup part with
    | none => simpa only [Session.step, History.step, hp] using hrs
    | some p =>
      simp only [Session.step, History.step, hp] at hrs
      rwa [Function.update_of_ne] at hrs
      simpa [PartitionedWalManager.activeGen, hp] using hop a (List.mem_append_left _ ha)
  | close =>
    exact ⟨ht, hi.logged, fun a ha => durable_step hi.tracks (hi.durable a ha) .close id⟩
  | reopen =>
    exact ⟨ht, by simp [Session.step],
      fun a ha => durable_step hi.tracks (hi.durable a ha) .reopen id⟩
  | crash cut =>
    exact ⟨ht, by simp [Session.step],
      fun a ha => durable_step hi.tracks (hi.durable a ha) (.crash cut) (hop a ha)⟩
  | unlink f =>
    refine ⟨ht, ?_, ?_⟩
    · intro a ha rs hrs
      obtain ⟨ha, hne⟩ := List.mem_filter.mp ha
      simp only [Session.step, History.step] at hrs
      rw [Function.update_of_ne (by simpa using hne)] at hrs
      exact hi.logged a ha rs hrs
    · intro a ha
      obtain ⟨ha, hne⟩ := List.mem_filter.mp ha
      exact durable_step hi.tracks (hi.durable a ha) (.unlink f) (by simpa [Destroys] using hne)

/-- In every run whose steps meet `StepOk`, every record acknowledged with sync is replayed by
`Recover`, and its generation is scanned without a Corruption status. -/
theorem synced_recovered_of_guarded (partitions target : ℕ) (ops : List HistoryOp)
    (hg : Guarded Session.step StepOk (Session.start partitions target) ops) :
    ∀ a ∈ (run Session.step (Session.start partitions target) ops).synced,
      (∃ e, (a.1, scanned a.2, e) ∈
          replay (run Session.step (Session.start partitions target) ops).hist.mgr.env) ∧
        (WalScanner.scan ((run Session.step (Session.start partitions target) ops).hist.mgr.env.content
          a.1)).2.status = none := by
  have hi := invariant_run inv_step (inv_start partitions target) hg
  exact fun a ha => (hi.durable a ha).recovered hi.tracks

/-- The second record is lost in the crash, the third one is synced after it. -/
def cleanCrash : List HistoryOp :=
  [.append 0 ⟨[0x61], [0x62], kTypeValue, 1⟩, .sync 0,
    .append 0 ⟨[0x61], [0x63], kTypeValue, 2⟩, .crash fun _ => 0,
    .append 0 ⟨[0x61], [0x64], kTypeValue, 3⟩, .sync 0, .freeze 0, .reopen]

theorem synced_recovered_of_cleanCrash :
    Guarded Session.step StepOk (Session.start 1 64) cleanCrash ∧
      ∀ a ∈ (run Session.step (Session.start 1 64) cleanCrash).synced,
        (∃ e, (a.1, scanned a.2, e) ∈
            replay (run Session.step (Session.start 1 64) cleanCrash).hist.mgr.env) ∧
          (WalScanner.scan ((run Session.step (Session.start 1 64) cleanCrash).hist.mgr.env.content
            a.1)).2.status = none :=
  have h : Guarded Session.step StepOk (Session.start 1 64) cleanCrash := by decide +kernel
  ⟨h, synced_recovered_of_guarded 1 64 cleanCrash h⟩

/-- A record of 4 KiB is flushed but not synced; ten bytes of it survive the crash. -/
def tornCrash : List HistoryOp :=
  [.append 0 ⟨[0x61], List.replicate 4096 0, kTypeValue, 1⟩, .crash fun _ => 10,
    .append 0 ⟨[0x62], [0x63], kTypeValue, 2⟩, .sync 0, .reopen]

/-- `Recover` finds nothing in the file, although its second record was synced. -/
theorem synced_recovered_fails :
    ¬ ∀ (partitions target : ℕ) (ops : List HistoryOp),
      ∀ a ∈ (run Session.step (Session.start partitions target) ops).synced,
        (∃ e, (a.1, scanned a.2, e) ∈
            replay (run Session.step (Session.start partitions target) ops).hist.mgr.env) ∧
          (WalScanner.scan
            ((run Session.step (Session.start partitions target) ops).hist.mgr.env.content
              a.1)).2.status = none := by
  intro h
  have hmem : ((0, 0), ⟨[0x62], [0x63], kTypeValue, 2⟩) ∈
      (run Session.step (Session.start 1 64) tornCrash).synced := by decide +kernel
  have hreplay : replay (run Session.step (Session.start 1 64) tornCrash).hist.mgr.env = [] := by
    decide +kernel
  obtain ⟨⟨e, he⟩, -⟩ := h 1 64 tornCrash _ hmem
  rw [hreplay] at he
  simp at he

end ZeroFlush.TornTails
