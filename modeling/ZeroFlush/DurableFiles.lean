import ZeroFlush.ContextRuns
import ZeroFlush.WalHistory

/-! # What a crash cannot take

Bytes that are not synced belong to the open write handle of an active file: `Freeze` and `Close`
sync the files they leave behind. -/
namespace ZeroFlush.DurableFiles
open FixedWidthCodec FiniteMaps WalFormat WalFiles PartitionedWal WalLogs WalOpening WalHistory
  ContextRuns

/-- All bytes of the file are synced. -/
def Closed (m : PartitionedWalManager) (f : FileId) : Prop :=
  (m.env.content f).length ≤ m.env.syncedSize f

/-- The file has an open write handle or is closed. -/
def Backed (m : PartitionedWalManager) (f : FileId) : Prop :=
  (∃ p, m.parts.lookup f.1 = some p ∧ p.wfile = some f) ∨ Closed m f

structure Durable (m : PartitionedWalManager) : Prop where
  handles : HandlesOk m
  backed : ∀ f, Backed m f
  newest : ∀ i g, m.env.exists? (i, g) = true → g ≤ m.activeGen i ∧ Appendable m i
  known : ∀ i, m.hasPartition i = true → i < m.partitions ∨ i = kRangeDelPartId

variable {m m' : PartitionedWalManager} {i : ℕ} {p q : Partition} {f : FileId}

/-- A sealed file is closed. -/
theorem Durable.closed (h : Durable m) (hf : f.2 ≠ m.activeGen f.1) : Closed m f := by
  refine (h.backed f).resolve_left ?_
  rintro ⟨p, hp, hw⟩
  have hfile := (h.handles f.1 p hp).wfile_eq f hw
  apply hf
  rw [PartitionedWalManager.activeGen, hp]
  exact congrArg Prod.snd hfile

/-- No file is newer than the active one of its partition. -/
theorem Durable.maxGen_le (h : Durable m) (i : ℕ) : maxGen i m.env.listFiles ≤ m.activeGen i := by
  cases maxGen_eq_zero_or_mem i m.env.listFiles with
  | inl hzero =>
    rw [hzero]
    exact Nat.zero_le _
  | inr hmem => exact (h.newest i _ (Env.mem_listFiles.mp hmem)).1

/-- Replacing a partition touches its old and its new active file only. -/
theorem backed_replace (hm : HandlesOk m) (hg : ∀ f, Backed m f) (hp : IsPartition m i p)
    (hparts : m'.parts = m.parts.insert i q)
    (hsame : ∀ f, f ≠ (i, p.gen) → f ≠ (i, q.gen) → m'.env.content f = m.env.content f ∧
      m'.env.syncedSize f = m.env.syncedSize f)
    (hold : Backed m' (i, p.gen)) (hnew : Backed m' (i, q.gen)) (f : FileId) : Backed m' f := by
  by_cases hfp : f = (i, p.gen)
  · exact hfp ▸ hold
  by_cases hfq : f = (i, q.gen)
  · exact hfq ▸ hnew
  obtain ⟨hc, hs⟩ := hsame f hfp hfq
  obtain ⟨p', hp', hw⟩ | hcl := hg f
  · refine .inl ⟨p', ?_, hw⟩
    rw [hparts, lookup_insert_eq, if_neg, hp']
    -- the handle of partition `i` belongs to its old active file
    rintro rfl
    obtain hp | ⟨hp, -⟩ := hp
    · cases hp.symm.trans hp'
      exact hfp ((hm _ p hp).wfile_eq f hw)
    · rw [hp] at hp'
      cases hp'
  · right
    rw [Closed, hc, hs]
    exact hcl

theorem backed_of_open (hparts : m'.parts = m.parts.insert i q) (hq : HandleOk m'.env i q)
    (hw : q.wfile ≠ none) : Backed m' (i, q.gen) := by
  obtain ⟨f, hf⟩ := Option.ne_none_iff_exists'.mp hw
  obtain rfl := hq.wfile_eq f hf
  refine .inl ⟨q, ?_, hf⟩
  rw [hparts, lookup_insert_eq, if_pos rfl]

@[simp] theorem maybeFlush_wfile (env : Env) (q : Partition) :
    (maybeFlush env q).2.wfile = q.wfile := by
  rw [maybeFlush]
  split_ifs <;> simp

theorem backed_appendTo (hm : HandlesOk m) (hg : ∀ f, Backed m f) (hp : IsPartition m i p)
    (r : WalRecord) (f : FileId) : Backed (m.appendTo i p r).2 f := by
  have hgen : (maybeFlush (ensureOpenForWrite m.env p).1 (bufferedPartition m.env p r)).2.gen =
      p.gen := by simp [bufferedPartition]
  have hactive : Backed (m.appendTo i p r).2 (i, p.gen) := by
    have hq := ((hp.handleOk hm).bufferedPartition r).maybeFlush
    rw [← hgen]
    refine backed_of_open (appendTo_parts m i p r) hq ?_
    rw [maybeFlush_wfile]
    exact ensureOpenForWrite_wfile m.env p
  refine backed_replace hm hg hp (appendTo_parts m i p r) ?_ hactive (hgen ▸ hactive) f
  intro f hf _
  refine ⟨(content_appendTo hm hp r f).resolve_right fun hc => hf hc.1, ?_⟩
  rw [appendTo_env, maybeFlush_syncedSize, ensureOpenForWrite_syncedSize]

theorem syncHandle_of_ne (env : Env) {p : Partition} (h : p.wfile ≠ some f) :
    (PartitionedWalManager.syncHandle env p).syncedSize f = env.syncedSize f := by
  cases hw : p.wfile with
  | none => simp [PartitionedWalManager.syncHandle, hw]
  | some g =>
    have hne : f ≠ g := by
      rintro rfl
      exact h hw
    rw [PartitionedWalManager.syncHandle, hw]
    dsimp only
    rw [Env.syncedSize_syncFile, if_neg hne]

/-- Flushing a partition and syncing its handle leaves the other files alone. -/
theorem flush_of_ne {env : Env} (hq : HandleOk env i q) (hf : f ≠ (i, q.gen)) :
    (PartitionedWalManager.syncHandle (flushBuf env q).1 (flushBuf env q).2).content f =
        env.content f ∧
      (PartitionedWalManager.syncHandle (flushBuf env q).1 (flushBuf env q).2).syncedSize f =
        env.syncedSize f := by
  refine ⟨?_, ?_⟩
  · rw [syncHandle_content, hq.flushBuf_content, if_neg hf]
  · rw [syncHandle_of_ne, flushBuf_syncedSize]
    rw [flushBuf_wfile]
    exact fun hw => hf (hq.wfile_eq f hw)

theorem closed_flush {env : Env} (hq : HandleOk env i q)
    (h : q.wfile ≠ none ∨ (env.content (i, q.gen)).length ≤ env.syncedSize (i, q.gen)) :
    ((PartitionedWalManager.syncHandle (flushBuf env q).1 (flushBuf env q).2).content
        (i, q.gen)).length ≤
      (PartitionedWalManager.syncHandle (flushBuf env q).1 (flushBuf env q).2).syncedSize
        (i, q.gen) := by
  cases hw : q.wfile with
  | none =>
    have hclosed := h.resolve_left fun hne => hne hw
    rw [hq.flushBuf_closed hw, PartitionedWalManager.syncHandle, hw]
    exact hclosed
  | some f =>
    obtain rfl := hq.wfile_eq f hw
    rw [PartitionedWalManager.syncHandle, flushBuf_wfile, hw]
    dsimp only
    rw [Env.syncedSize_syncFile, if_pos rfl, Env.content_syncFile]

theorem Backed.active (hg : Backed m (i, p.gen)) (hp : m.parts.lookup i = some p) :
    p.wfile ≠ none ∨ Closed m (i, p.gen) := by
  refine hg.imp_left ?_
  rintro ⟨q, hq, hw⟩
  cases hp.symm.trans hq
  rw [hw]
  exact Option.some_ne_none _

/-- What flushing and syncing the partition `i` does. -/
theorem closed_flush_step (hm : HandlesOk m) (hg : ∀ f, Backed m f)
    (hp : m.parts.lookup i = some p) {env : Env} (hcontent : ∀ g, env.content g = m.env.content g)
    (hsynced : ∀ g, env.syncedSize g = m.env.syncedSize g) (hq : HandleOk env i q)
    (hgen : q.gen = p.gen) (hopen : p.wfile ≠ none → q.wfile ≠ none)
    (henv : m'.env = PartitionedWalManager.syncHandle (flushBuf env q).1 (flushBuf env q).2)
    (hparts : m'.parts = m.parts.insert i (flushBuf env q).2) :
    Closed m' (i, p.gen) ∧ (∀ f, Closed m f → Closed m' f) ∧ ∀ f, Backed m' f := by
  have hactive : Closed m' (i, p.gen) := by
    rw [Closed, henv, ← hgen]
    apply closed_flush hq
    rw [hcontent, hsynced, hgen]
    exact ((hg (i, p.gen)).active hp).imp_left hopen
  have hsame : ∀ f, f ≠ (i, p.gen) → m'.env.content f = m.env.content f ∧
      m'.env.syncedSize f = m.env.syncedSize f := by
    intro f hf
    obtain ⟨hc, hs⟩ := flush_of_ne hq (hgen.symm ▸ hf)
    rw [henv, hc, hs]
    exact ⟨hcontent f, hsynced f⟩
  have hgen' : (flushBuf env q).2.gen = p.gen := by rw [flushBuf_gen, hgen]
  refine ⟨hactive, ?_, ?_⟩
  · intro f hf
    by_cases he : f = (i, p.gen)
    · exact he ▸ hactive
    · obtain ⟨hc, hs⟩ := hsame f he
      rw [Closed, hc, hs]
      exact hf
  · refine backed_replace hm hg (.inl hp) hparts (fun f hf _ => hsame f hf) (.inr hactive) ?_
    rw [hgen']
    exact .inr hactive

/-- After `Sync` the active file of the partition is closed. -/
theorem backed_sync (hm : HandlesOk m) (hg : ∀ f, Backed m f) (hp : m.parts.lookup i = some p) :
    Closed (m.sync i).2 (i, p.gen) ∧ (∀ f, Closed m f → Closed (m.sync i).2 f) ∧
      ∀ f, Backed (m.sync i).2 f := by
  rw [PartitionedWalManager.sync, hp]
  exact closed_flush_step hm hg hp (by simp) (by simp) (hm i p hp).ensureOpenForWrite (by simp)
    (fun _ => ensureOpenForWrite_wfile m.env p) rfl rfl

theorem backed_closePartition (hm : HandlesOk m) (hg : ∀ f, Backed m f)
    (hp : m.parts.lookup i = some p) :
    Closed (m.closePartition i) (i, p.gen) ∧ (∀ f, Closed m f → Closed (m.closePartition i) f) ∧
      ∀ f, Backed (m.closePartition i) f := by
  rw [PartitionedWalManager.closePartition, hp]
  exact closed_flush_step hm hg hp (fun _ => rfl) (fun _ => rfl) (hm i p hp) rfl id rfl rfl

/-- Closing the partition of a file closes the file. -/
theorem closed_closePartition (hm : HandlesOk m) (hg : ∀ f, Backed m f) (hf : f.1 = i) :
    Closed (m.closePartition i) f := by
  subst hf
  cases hp : m.parts.lookup f.1 with
  | none =>
    rw [PartitionedWalManager.closePartition, hp]
    refine (hg f).resolve_left ?_
    rintro ⟨q, hq, -⟩
    rw [hp] at hq
    cases hq
  | some p =>
    obtain ⟨hactive, hkeeps, -⟩ := backed_closePartition hm hg hp
    by_cases hgen : f.2 = p.gen
    · rw [← Prod.mk.eta (p := f), hgen]
      exact hactive
    · apply hkeeps
      refine (hg f).resolve_left ?_
      rintro ⟨q, hq, hw⟩
      cases hp.symm.trans hq
      exact hgen (congrArg Prod.snd ((hm f.1 p hp).wfile_eq f hw))

/-- `Close` syncs every file. -/
theorem closed_close (hm : HandlesOk m) (hg : ∀ f, Backed m f) (f : FileId) : Closed m.close f := by
  suffices hloop : ∀ (ids : List ℕ) {m}, HandlesOk m → (∀ f, Backed m f) →
      (f.1 ∈ ids ∨ Closed m f) → Closed (ids.foldl PartitionedWalManager.closePartition m) f by
    refine hloop m.parts.keys hm hg ?_
    cases hp : m.parts.lookup f.1 with
    | some p =>
      exact .inl (AList.mem_keys.mp (AList.lookup_isSome.mp (Option.isSome_iff_exists.mpr ⟨p, hp⟩)))
    | none =>
      refine .inr ((hg f).resolve_left ?_)
      rintro ⟨q, hq, -⟩
      rw [hp] at hq
      cases hq
  intro ids
  induction ids with
  | nil =>
    intro m _ _ h
    exact h.resolve_left List.not_mem_nil
  | cons j ids ih =>
    intro m hm hg h
    have hnext : (∀ f, Closed m f → Closed (m.closePartition j) f) ∧
        ∀ f, Backed (m.closePartition j) f := by
      cases hp : m.parts.lookup j with
      | none =>
        rw [PartitionedWalManager.closePartition, hp]
        exact ⟨fun _ h => h, hg⟩
      | some p => exact (backed_closePartition hm hg hp).2
    refine ih (handlesOk_closePartition hm j) hnext.2 ?_
    obtain hmem | hclosed := h
    · cases List.mem_cons.mp hmem with
      | inl he => exact .inr (closed_closePartition hm hg he)
      | inr hmem => exact .inl hmem
    · exact .inr (hnext.1 f hclosed)

theorem syncHandle_congr (env : Env) (h : q.wfile = p.wfile) :
    PartitionedWalManager.syncHandle env q = PartitionedWalManager.syncHandle env p := by
  rw [PartitionedWalManager.syncHandle, PartitionedWalManager.syncHandle, h]

/-- `Freeze` closes the file it seals. -/
theorem backed_freeze (hm : HandlesOk m) (hg : ∀ f, Backed m f) (hp : m.parts.lookup i = some p)
    (f : FileId) : Backed (m.freeze i).2 f := by
  have hh := hm i p hp
  have hfile : (nextPartition p).file = (i, (p.gen + 1) % 2 ^ 32) := by
    simp [nextPartition, Partition.file, hh.partId_eq]
  have hne : ((i, p.gen) : FileId) ≠ (i, (p.gen + 1) % 2 ^ 32) := by
    intro he
    exact next_gen_ne p.gen (congrArg Prod.snd he).symm
  obtain ⟨-, henv, hparts⟩ := freeze_of_lookup hp hh
  rw [← syncHandle_congr _ (flushBuf_wfile m.env p), hfile] at henv
  have hnew : Backed (m.freeze i).2 (i, (nextPartition p).gen) := by
    refine .inl ⟨nextPartition p, ?_, ?_⟩
    · rw [hparts, lookup_insert_eq, if_pos rfl]
    · simp [nextPartition, hh.partId_eq]
  refine backed_replace hm hg (.inl hp) hparts ?_ ?_ hnew f
  · intro f hfp hfq
    have hfn : f ≠ (i, (p.gen + 1) % 2 ^ 32) := hfq
    obtain ⟨hc, hs⟩ := flush_of_ne hh hfp
    rw [henv, Env.content_newWritableFile, Env.syncedSize_newWritableFile, if_neg hfn, if_neg hfn,
      hc, hs]
    exact ⟨rfl, rfl⟩
  · right
    rw [Closed, henv, Env.content_newWritableFile, Env.syncedSize_newWritableFile, if_neg hne,
      if_neg hne]
    exact closed_flush hh ((hg (i, p.gen)).active hp)

theorem durable_append (h : Durable m) {r : WalRecord} {ref : WalRecordRef}
    (ha : m.append i r = (.ok ref, m')) : Durable m' := by
  obtain ⟨-, -, happ, hgen, happ'⟩ := append_ok ha
  obtain ⟨p, hp, he⟩ | ⟨e, he⟩ := append_cases m i r
  · have hpart : IsPartition m i p := hp.imp_right fun hn => ⟨hn.1, hn.2.2⟩
    obtain ⟨-, rfl⟩ : (m.appendTo i p r).1 = ref ∧ (m.appendTo i p r).2 = m' := by
      simpa using he.symm.trans ha
    have hactive : p.gen = m.activeGen i := by
      obtain hp | ⟨hp, -, rfl⟩ := hp
      · simp [PartitionedWalManager.activeGen, hp]
      · simp [PartitionedWalManager.activeGen, hp]
    refine ⟨handlesOk_appendTo h.handles hpart r, backed_appendTo h.handles h.backed hpart r, ?_, ?_⟩
    · intro j g hex
      rw [appendTo_env, maybeFlush_exists?] at hex
      rw [hgen, happ']
      obtain hold | hnew := ensureOpenForWrite_adds (hpart.handleOk h.handles) hex
      · exact h.newest j g hold
      · cases hnew
        exact ⟨hactive.le, happ⟩
    · intro j hj
      rw [hasPartition_insert (appendTo_parts m i p r)] at hj
      obtain rfl | hj := hj
      · exact happ.elim (h.known j) .inr
      · exact h.known j hj
  · rw [ha] at he
    cases he

theorem durable_sync (h : Durable m) (i : ℕ) : Durable (m.sync i).2 := by
  cases hp : m.parts.lookup i with
  | none =>
    rw [PartitionedWalManager.sync, hp]
    exact h
  | some p =>
    have hhas := hasPartition_sync m i
    have happ : ∀ j, Appendable (m.sync i).2 j ↔ Appendable m j := by
      intro j
      rw [Appendable, hhas, Appendable]
    refine ⟨handlesOk_sync h.handles i, (backed_sync h.handles h.backed hp).2.2, ?_, ?_⟩
    · intro j g hex
      rw [activeGen_sync, happ]
      rw [PartitionedWalManager.sync, hp] at hex
      simp only [syncHandle_exists?, flushBuf_exists?] at hex
      obtain hold | hnew := ensureOpenForWrite_adds (h.handles i p hp) hex
      · exact h.newest j g hold
      · cases hnew
        refine ⟨?_, .inl (hasPartition_iff.mpr ⟨p, hp⟩)⟩
        simp [PartitionedWalManager.activeGen, hp]
    · intro j hj
      rw [hhas] at hj
      have hknown := h.known j hj
      rwa [show (m.sync i).2.partitions = m.partitions by
        rw [PartitionedWalManager.sync, hp]]

theorem durable_freeze (h : Durable m) (hgen : m.activeGen i + 1 < 2 ^ 32) :
    Durable (m.freeze i).2 := by
  cases hp : m.parts.lookup i with
  | none =>
    rw [freeze_of_lookup_none hp]
    exact h
  | some p =>
    have hh := h.handles i p hp
    have hhas := hasPartition_freeze m i
    have hi : m.hasPartition i = true := hasPartition_iff.mpr ⟨p, hp⟩
    have hactive : m.activeGen i = p.gen := by simp [PartitionedWalManager.activeGen, hp]
    refine ⟨handlesOk_freeze h.handles i, backed_freeze h.handles h.backed hp, ?_, ?_⟩
    · intro j g hex
      have happ : Appendable (m.freeze i).2 j ↔ Appendable m j := by
        rw [Appendable, hhas, Appendable]
      rw [activeGen_freeze, happ]
      obtain ⟨-, henv, -⟩ := freeze_of_lookup hp hh
      rw [henv, Env.exists?_newWritableFile] at hex
      simp only [hi, and_true]
      by_cases hnew : ((j, g) : FileId) = (nextPartition p).file
      · have hfile : (nextPartition p).file = (i, (p.gen + 1) % 2 ^ 32) := by
          simp [nextPartition, Partition.file, hh.partId_eq]
        rw [hfile] at hnew
        cases hnew
        rw [if_pos rfl, hactive]
        exact ⟨le_rfl, .inl hi⟩
      · simp only [hnew, decide_false, Bool.false_or, syncHandle_exists?, flushBuf_exists?] at hex
        obtain ⟨hle, happ⟩ := h.newest j g hex
        refine ⟨?_, happ⟩
        split
        next hj =>
          subst hj
          omega
        next => exact hle
    · intro j hj
      rw [hhas] at hj
      have hknown := h.known j hj
      rwa [show (m.freeze i).2.partitions = m.partitions by
        rw [PartitionedWalManager.freeze, hp]]

theorem durable_unlink (h : Durable m) (hf : ∀ p ∈ m.parts.lookup f.1, p.gen ≠ f.2) :
    Durable { m with env := m.env.deleteFile f } := by
  have hactive : ∀ i p, m.parts.lookup i = some p → ((i, p.gen) : FileId) ≠ f := by
    rintro i p hp rfl
    exact hf p hp rfl
  refine ⟨?_, ?_, ?_, h.known⟩
  · intro i p hp
    have hh := h.handles i p hp
    refine ⟨hh.partId_eq, hh.wfile_eq, ?_, hh.buf_open⟩
    intro hw
    simp [Env.exists?_deleteFile, hactive i p hp, hh.wfile_exists hw]
  · intro g
    obtain hopen | hclosed := h.backed g
    · exact .inl hopen
    · right
      rw [Closed, Env.content_deleteFile, Env.syncedSize_deleteFile]
      split
      · exact Nat.zero_le _
      · exact hclosed
  · intro i g hex
    rw [Env.exists?_deleteFile] at hex
    have hold : m.env.exists? (i, g) = true := by
      by_contra hne
      simp [hne] at hex
    exact h.newest i g hold

/-- A manager opened over closed files that knows the newest generations. -/
theorem durable_openCreate {env : Env} (n target : ℕ)
    (hc : ∀ f, (env.content f).length ≤ env.syncedSize f)
    (hex : ∀ i g, env.exists? (i, g) = true → i < n ∨ (i, g) = (kRangeDelPartId, 0)) :
    Durable (PartitionedWalManager.create env n target).open_ := by
  have hhas : ∀ i, (PartitionedWalManager.create env n target).open_.hasPartition i = true ↔
      i < n := by
    intro i
    rw [PartitionedWalManager.hasPartition, lookup_openCreate]
    split <;> simp [*]
  refine ⟨handlesOk_openCreate env n target, fun f => .inr (hc f), ?_, ?_⟩
  · intro i g hig
    rw [activeGen_openCreate, Appendable, hhas]
    obtain hi | hrd := hex i g hig
    · rw [if_pos hi]
      exact ⟨le_maxGen (Env.mem_listFiles.mpr hig), .inl hi⟩
    · cases hrd
      exact ⟨Nat.zero_le _, .inr rfl⟩
  · intro i hi
    exact .inl ((hhas i).mp hi)

theorem activeGen_openCreate_eq {env : Env} (n target : ℕ)
    (hex : ∀ i g, env.exists? (i, g) = true → i < n ∨ (i, g) = (kRangeDelPartId, 0)) (i : ℕ) :
    (PartitionedWalManager.create env n target).open_.activeGen i = maxGen i env.listFiles := by
  rw [activeGen_openCreate]
  split
  next => rfl
  next hi =>
    cases maxGen_eq_zero_or_mem i env.listFiles with
    | inl hzero => exact hzero.symm
    | inr hmem =>
      have hrd := (hex i _ (Env.mem_listFiles.mp hmem)).resolve_left hi
      exact (congrArg Prod.snd hrd).symm

/-- Of the range-delete partition, which `Open` does not look for, the directory has at most the
first generation. -/
def Reopenable (m : PartitionedWalManager) : Prop :=
  ∀ f ∈ m.env.listFiles, f.1 = kRangeDelPartId → f.2 = 0

theorem Durable.exists_cases (h : Durable m) (hr : Reopenable m) {g : ℕ}
    (hex : m.env.exists? (i, g) = true) : i < m.partitions ∨ (i, g) = (kRangeDelPartId, 0) := by
  have happ := (h.newest i g hex).2
  obtain hlt | hrd := happ.elim (h.known i) .inr
  · exact .inl hlt
  · have hzero : g = 0 := hr (i, g) (Env.mem_listFiles.mpr hex) hrd
    exact .inr (by rw [hrd, hzero])

theorem durable_reopen (h : Durable m) (hr : Reopenable m) : Durable m.reopen := by
  refine durable_openCreate _ _ (closed_close h.handles h.backed) ?_
  intro i g hex
  rw [exists?_close] at hex
  exact h.exists_cases hr hex

theorem durable_restart (h : Durable m) (hr : Reopenable m) (cut : FileId → ℕ) :
    Durable (restart m cut) := by
  refine durable_openCreate _ _ ?_ ?_
  · intro f
    rw [Env.syncedSize_crash]
  · intro i g hex
    rw [Env.exists?_crash] at hex
    exact h.exists_cases hr hex

theorem activeGen_close (m : PartitionedWalManager) (i : ℕ) : m.close.activeGen i = m.activeGen i := by
  refine List.foldlRecOn
    (motive := fun n : PartitionedWalManager => n.activeGen i = m.activeGen i) _ _ rfl ?_
  intro n hn j _
  rw [← hn, PartitionedWalManager.closePartition]
  cases hp : n.parts.lookup j with
  | none => rfl
  | some p =>
    dsimp only
    rw [activeGen_insert (m := n) rfl]
    split
    next hi =>
      subst hi
      simp [PartitionedWalManager.activeGen, hp]
    next => rfl

theorem hasPartition_close (m : PartitionedWalManager) (i : ℕ) :
    m.close.hasPartition i = m.hasPartition i := lookup_closeLoop_isSome m m.parts.keys i

theorem durable_close (h : Durable m) : Durable m.close := by
  refine ⟨handlesOk_close h.handles, fun f => .inr (closed_close h.handles h.backed f), ?_, ?_⟩
  · intro i g hex
    rw [exists?_close] at hex
    rw [activeGen_close, Appendable, hasPartition_close]
    exact h.newest i g hex
  · intro i hi
    rw [hasPartition_close] at hi
    have hknown := h.known i hi
    rwa [show m.close.partitions = m.partitions from partitions_closeLoop m _]

theorem activeGen_reopen (h : Durable m) (hr : Reopenable m) (i : ℕ) :
    m.reopen.activeGen i = maxGen i m.env.listFiles := by
  refine (activeGen_openCreate_eq _ _ ?_ i).trans (maxGen_congr i ?_)
  · intro i g hex
    rw [exists?_close] at hex
    exact h.exists_cases hr hex
  · intro f
    rw [Env.mem_listFiles, exists?_close, ← Env.mem_listFiles]

theorem activeGen_restart (h : Durable m) (hr : Reopenable m) (cut : FileId → ℕ) (i : ℕ) :
    (restart m cut).activeGen i = maxGen i (restart m cut).env.listFiles := by
  apply activeGen_openCreate_eq
  intro i g hex
  rw [Env.exists?_crash] at hex
  exact h.exists_cases hr hex

end ZeroFlush.DurableFiles
