import ZeroFlush.PartitionedWal

/-! # The log of a file

The log of a file is what it holds together with what is still buffered for it. An append adds
one frame to one log; flushing, syncing, closing and freezing leave all logs alone. -/
namespace ZeroFlush.WalLogs
open FixedWidthCodec FiniteMaps WalFormat WalFiles PartitionedWal

/-- The write handle of a partition belongs to its active file. -/
structure HandleOk (env : Env) (i : ℕ) (p : Partition) : Prop where
  partId_eq : p.partId = i
  wfile_eq : ∀ f, p.wfile = some f → f = (i, p.gen)
  wfile_exists : p.wfile ≠ none → env.exists? (i, p.gen) = true
  buf_open : p.buf ≠ [] → p.wfile ≠ none

def HandlesOk (m : PartitionedWalManager) : Prop :=
  ∀ i p, m.parts.lookup i = some p → HandleOk m.env i p

/-- The bytes buffered for the file `f`. -/
def buffered (parts : Map ℕ Partition) (f : FileId) : Bytes :=
  match parts.lookup f.1 with
  | none => []
  | some p => if p.gen = f.2 then p.buf else []

def log (m : PartitionedWalManager) (f : FileId) : Bytes := m.env.content f ++ buffered m.parts f

theorem HandleOk.file_eq {env : Env} {i : ℕ} {p : Partition} (h : HandleOk env i p) :
    p.file = (i, p.gen) := by
  rw [Partition.file, h.partId_eq]

theorem HandleOk.mono {env env' : Env} {i : ℕ} {p : Partition} (h : HandleOk env i p)
    (he : ∀ f, env.exists? f = true → env'.exists? f = true) : HandleOk env' i p :=
  ⟨h.partId_eq, h.wfile_eq, fun hw => he _ (h.wfile_exists hw), h.buf_open⟩

theorem buffered_insert (parts : Map ℕ Partition) (i : ℕ) (p : Partition) (f : FileId) :
    buffered (parts.insert i p) f =
      if f.1 = i then (if p.gen = f.2 then p.buf else []) else buffered parts f := by
  simp only [buffered, lookup_insert_eq]
  split_ifs <;> simp_all

theorem flushBuf_nil {env : Env} {p : Partition} (h : p.buf = []) : flushBuf env p = (env, p) := by
  simp [flushBuf, h]

theorem flushBuf_open {env : Env} {p : Partition} {f : FileId} (h : p.buf ≠ [])
    (hw : p.wfile = some f) :
    flushBuf env p =
      (env.appendFile f p.buf, { p with flushedSize := p.totalSize, buf := [] }) := by
  cases hb : p.buf with
  | nil => exact absurd hb h
  | cons b bs => simp [flushBuf, hb, hw]

@[simp] theorem flushBuf_gen (env : Env) (p : Partition) : (flushBuf env p).2.gen = p.gen := by
  unfold flushBuf
  split <;> rfl

@[simp] theorem flushBuf_partId (env : Env) (p : Partition) :
    (flushBuf env p).2.partId = p.partId := by
  unfold flushBuf
  split <;> rfl

@[simp] theorem flushBuf_wfile (env : Env) (p : Partition) :
    (flushBuf env p).2.wfile = p.wfile := by
  unfold flushBuf
  split <;> rfl

@[simp] theorem flushBuf_rfile (env : Env) (p : Partition) :
    (flushBuf env p).2.rfile = p.rfile := by
  unfold flushBuf
  split <;> rfl

@[simp] theorem flushBuf_totalSize (env : Env) (p : Partition) :
    (flushBuf env p).2.totalSize = p.totalSize := by
  unfold flushBuf
  split <;> rfl

@[simp] theorem flushBuf_exists? (env : Env) (p : Partition) (g : FileId) :
    (flushBuf env p).1.exists? g = env.exists? g := by
  unfold flushBuf
  split <;> simp

/-- The buffer is empty after `FlushBuf`. -/
theorem HandleOk.flushBuf_buf {env : Env} {i : ℕ} {p : Partition} (h : HandleOk env i p) :
    (flushBuf env p).2.buf = [] := by
  by_cases hb : p.buf = []
  · rw [flushBuf_nil hb, hb]
  · obtain ⟨f, hf⟩ := Option.ne_none_iff_exists'.mp (h.buf_open hb)
    rw [flushBuf_open hb hf]

/-- `FlushBuf` moves the buffer to the end of the active file. -/
theorem HandleOk.flushBuf_content {env : Env} {i : ℕ} {p : Partition} (h : HandleOk env i p)
    (g : FileId) :
    (flushBuf env p).1.content g =
      if g = (i, p.gen) then env.content g ++ p.buf else env.content g := by
  by_cases hb : p.buf = []
  · simp [flushBuf_nil hb, hb]
  · have hopen := h.buf_open hb
    obtain ⟨f, hf⟩ := Option.ne_none_iff_exists'.mp hopen
    have hfile := h.wfile_eq f hf
    have hex := h.wfile_exists hopen
    subst hfile
    rw [flushBuf_open hb hf, Env.content_appendFile hex]
    split_ifs with hg
    · rw [hg]
    · rfl

theorem HandleOk.flushBuf {env : Env} {i : ℕ} {p : Partition} (h : HandleOk env i p) :
    HandleOk (flushBuf env p).1 i (flushBuf env p).2 := by
  refine ⟨by simpa using h.partId_eq, ?_, ?_, ?_⟩
  · simpa using h.wfile_eq
  · simpa using h.wfile_exists
  · intro hb
    exact absurd h.flushBuf_buf hb

@[simp] theorem ensureOpenForWrite_gen (env : Env) (p : Partition) :
    (ensureOpenForWrite env p).2.gen = p.gen := by
  unfold ensureOpenForWrite
  split <;> rfl

@[simp] theorem ensureOpenForWrite_buf (env : Env) (p : Partition) :
    (ensureOpenForWrite env p).2.buf = p.buf := by
  unfold ensureOpenForWrite
  split <;> rfl

@[simp] theorem ensureOpenForWrite_totalSize (env : Env) (p : Partition) :
    (ensureOpenForWrite env p).2.totalSize = p.totalSize := by
  unfold ensureOpenForWrite
  split <;> rfl

@[simp] theorem ensureOpenForWrite_content (env : Env) (p : Partition) (g : FileId) :
    (ensureOpenForWrite env p).1.content g = env.content g := by
  unfold ensureOpenForWrite
  split <;> simp

theorem ensureOpenForWrite_exists? {env : Env} (p : Partition) {g : FileId}
    (h : env.exists? g = true) : (ensureOpenForWrite env p).1.exists? g = true := by
  unfold ensureOpenForWrite
  split
  · exact h
  · simp [Env.exists?_reopenWritableFile, h]

theorem ensureOpenForWrite_wfile (env : Env) (p : Partition) :
    (ensureOpenForWrite env p).2.wfile ≠ none := by
  unfold ensureOpenForWrite
  split
  · simp_all
  · simp

theorem HandleOk.ensureOpenForWrite {env : Env} {i : ℕ} {p : Partition} (h : HandleOk env i p) :
    HandleOk (ensureOpenForWrite env p).1 i (ensureOpenForWrite env p).2 := by
  unfold PartitionedWal.ensureOpenForWrite
  split
  · exact h
  · refine ⟨h.partId_eq, ?_, ?_, ?_⟩
    · intro f hf
      simpa [h.file_eq] using hf.symm
    · intro _
      simp [Env.exists?_reopenWritableFile, h.file_eq]
    · intro _
      simp

/-- Appending bytes to the buffer of an open partition. -/
theorem HandleOk.addBuf {env : Env} {i : ℕ} {p q : Partition} (h : HandleOk env i p)
    (hopen : p.wfile ≠ none) (hid : q.partId = p.partId) (hw : q.wfile = p.wfile)
    (hg : q.gen = p.gen) : HandleOk env i q :=
  ⟨hid.trans h.partId_eq, by rw [hw, hg]; exact h.wfile_eq,
    by rw [hw, hg]; exact h.wfile_exists, fun _ => by rw [hw]; exact hopen⟩

theorem HandleOk.syncHandle {env : Env} {i : ℕ} {p : Partition} (h : HandleOk env i p)
    (q : Partition) : HandleOk (PartitionedWalManager.syncHandle env q) i p := by
  unfold PartitionedWalManager.syncHandle
  split
  · exact h
  · exact h.mono (by simp)

@[simp] theorem syncHandle_content (env : Env) (p : Partition) (g : FileId) :
    (PartitionedWalManager.syncHandle env p).content g = env.content g := by
  unfold PartitionedWalManager.syncHandle
  split <;> simp

@[simp] theorem syncHandle_exists? (env : Env) (p : Partition) (g : FileId) :
    (PartitionedWalManager.syncHandle env p).exists? g = env.exists? g := by
  unfold PartitionedWalManager.syncHandle
  split <;> simp

theorem handleOk_fresh (env : Env) (i : ℕ) : HandleOk env i { partId := i } :=
  ⟨rfl, by simp, by simp, by simp⟩

variable {m m' : PartitionedWalManager} {i : ℕ} {p q : Partition}

theorem buffered_of_lookup (h : m.parts.lookup i = some p) (f : FileId) (hf : f.1 = i) :
    buffered m.parts f = if p.gen = f.2 then p.buf else [] := by
  subst hf
  simp [buffered, h]

theorem buffered_of_lookup_none (h : m.parts.lookup i = none) (f : FileId) (hf : f.1 = i) :
    buffered m.parts f = [] := by
  subst hf
  simp [buffered, h]

/-- Replacing one partition keeps the handles of the others. -/
theorem handlesOk_replace (h : HandlesOk m) (hq : HandleOk m'.env i q)
    (hparts : m'.parts = m.parts.insert i q)
    (hex : ∀ f, m.env.exists? f = true → m'.env.exists? f = true) : HandlesOk m' := by
  intro j r hr
  rw [hparts, lookup_insert_eq] at hr
  split_ifs at hr with hj
  · obtain rfl := Option.some.inj hr
    exact hj ▸ hq
  · exact (h j r hr).mono hex

/-- Which partition `Append` works on, and what it returns. -/
theorem append_cases (m : PartitionedWalManager) (part : ℕ) (r : WalRecord) :
    (∃ p, (m.parts.lookup part = some p ∨
          m.parts.lookup part = none ∧ part = kRangeDelPartId ∧ p = { partId := part }) ∧
        m.append part r = (.ok (m.appendTo part p r).1, (m.appendTo part p r).2)) ∨
      ∃ e, m.append part r = (.error e, m) := by
  unfold PartitionedWalManager.append
  cases hp : m.parts.lookup part with
  | some p => exact .inl ⟨p, .inl rfl, rfl⟩
  | none =>
    by_cases hrd : part = kRangeDelPartId
    · exact .inl ⟨{ partId := part }, .inr ⟨rfl, hrd, rfl⟩, if_pos hrd⟩
    · exact .inr ⟨_, if_neg hrd⟩

theorem appendTo_ref (m : PartitionedWalManager) (part : ℕ) (p : Partition) (r : WalRecord) :
    (m.appendTo part p r).1 = ⟨part, p.gen, p.totalSize⟩ := by
  simp [PartitionedWalManager.appendTo]

/-- The partition `Append` works on, with the frame in its buffer. -/
def bufferedPartition (env : Env) (p : Partition) (r : WalRecord) : Partition :=
  let p := (ensureOpenForWrite env p).2
  { p with
    buf := p.buf ++ r.frame, totalSize := p.totalSize + r.frame.length,
    activeBytes := (p.activeBytes + r.frame.length) % 2 ^ 64 }

theorem HandleOk.bufferedPartition {env : Env} (h : HandleOk env i p) (r : WalRecord) :
    HandleOk (PartitionedWal.ensureOpenForWrite env p).1 i (bufferedPartition env p r) :=
  h.ensureOpenForWrite.addBuf (ensureOpenForWrite_wfile env p) rfl rfl rfl

/-- The buffer is flushed once it holds 4 KiB. -/
def maybeFlush (env : Env) (q : Partition) : Env × Partition :=
  if q.buf.length ≥ 4096 then flushBuf env q else (env, q)

theorem appendTo_env (m : PartitionedWalManager) (part : ℕ) (p : Partition) (r : WalRecord) :
    (m.appendTo part p r).2.env =
      (maybeFlush (ensureOpenForWrite m.env p).1 (bufferedPartition m.env p r)).1 := rfl

theorem appendTo_parts (m : PartitionedWalManager) (part : ℕ) (p : Partition) (r : WalRecord) :
    (m.appendTo part p r).2.parts = m.parts.insert part
      (maybeFlush (ensureOpenForWrite m.env p).1 (bufferedPartition m.env p r)).2 := rfl

theorem HandleOk.maybeFlush {env : Env} (h : HandleOk env i q) :
    HandleOk (maybeFlush env q).1 i (maybeFlush env q).2 := by
  unfold WalLogs.maybeFlush
  split_ifs
  · exact h.flushBuf
  · exact h

@[simp] theorem maybeFlush_gen (env : Env) (q : Partition) : (maybeFlush env q).2.gen = q.gen := by
  unfold maybeFlush
  split_ifs <;> simp

@[simp] theorem maybeFlush_exists? (env : Env) (q : Partition) (g : FileId) :
    (maybeFlush env q).1.exists? g = env.exists? g := by
  unfold maybeFlush
  split_ifs <;> simp

/-- Flushed or not, file and buffer together hold the same bytes. -/
theorem HandleOk.maybeFlush_log {env : Env} (h : HandleOk env i q) (g : FileId) :
    (WalLogs.maybeFlush env q).1.content g ++
        (if g = (i, q.gen) then (WalLogs.maybeFlush env q).2.buf else []) =
      env.content g ++ (if g = (i, q.gen) then q.buf else []) := by
  unfold WalLogs.maybeFlush
  split_ifs with hlen hg
  · simp [h.flushBuf_content, h.flushBuf_buf, hg]
  · simp [h.flushBuf_content, hg]
  · rfl
  · rfl

theorem ite_file (f : FileId) (b : Bytes) :
    (if f.1 = i then (if p.gen = f.2 then b else []) else []) =
      if f = (i, p.gen) then b else [] := by
  by_cases h : f = (i, p.gen)
  · simp [h]
  · rw [if_neg h]
    split_ifs with h1 h2
    · exact absurd (Prod.ext h1 h2.symm) h
    · rfl
    · rfl

/-- The log of a file after one partition has been replaced. -/
theorem log_replace (hparts : m'.parts = m.parts.insert i q) (f : FileId) :
    log m' f = m'.env.content f ++
      (if f.1 = i then (if q.gen = f.2 then q.buf else []) else buffered m.parts f) := by
  rw [log, hparts, buffered_insert]

/-- `p` is the partition `i`, or a fresh one where there is none. -/
def IsPartition (m : PartitionedWalManager) (i : ℕ) (p : Partition) : Prop :=
  m.parts.lookup i = some p ∨ m.parts.lookup i = none ∧ p = { partId := i }

theorem IsPartition.handleOk (h : HandlesOk m) (hp : IsPartition m i p) : HandleOk m.env i p := by
  rcases hp with hp | ⟨-, rfl⟩
  · exact h i p hp
  · exact handleOk_fresh m.env i

theorem IsPartition.buffered_eq (hp : IsPartition m i p) (f : FileId) (hf : f.1 = i) :
    buffered m.parts f = if p.gen = f.2 then p.buf else [] := by
  rcases hp with hp | ⟨hp, rfl⟩
  · exact buffered_of_lookup hp f hf
  · simp [buffered_of_lookup_none hp f hf]

theorem handlesOk_appendTo (h : HandlesOk m) (hp : IsPartition m i p) (r : WalRecord) :
    HandlesOk (m.appendTo i p r).2 := by
  refine handlesOk_replace h ((hp.handleOk h).bufferedPartition r).maybeFlush
    (appendTo_parts m i p r) ?_
  intro f hf
  rw [appendTo_env, maybeFlush_exists?]
  exact ensureOpenForWrite_exists? p hf

/-- `Append` adds one frame to the log of the active file. -/
theorem log_appendTo (h : HandlesOk m) (hp : IsPartition m i p) (r : WalRecord) (f : FileId) :
    log (m.appendTo i p r).2 f =
      if f = (i, p.gen) then log m f ++ r.frame else log m f := by
  have hq := (hp.handleOk h).bufferedPartition r
  have hgen : (bufferedPartition m.env p r).gen = p.gen := by simp [bufferedPartition]
  have hbuf : (bufferedPartition m.env p r).buf = p.buf ++ r.frame := by simp [bufferedPartition]
  rw [log_replace (appendTo_parts m i p r), appendTo_env]
  by_cases hf : f.1 = i
  · have hmf := hq.maybeFlush_log f
    rw [hgen, hbuf, ensureOpenForWrite_content] at hmf
    have hite := ite_file (i := i) (p := p) f
      (maybeFlush (ensureOpenForWrite m.env p).1 (bufferedPartition m.env p r)).2.buf
    rw [if_pos hf] at hite
    rw [if_pos hf, maybeFlush_gen, hgen, hite, hmf, log, hp.buffered_eq f hf]
    split_ifs with h1 h2 h2
    · simp
    · simp [h1] at h2
    · exact absurd (Prod.ext hf h2.symm) h1
    · rfl
  · have hne : f ≠ (i, p.gen) := fun he => hf (by rw [he])
    have hmf := hq.maybeFlush_log f
    rw [hgen, ensureOpenForWrite_content, if_neg hne, if_neg hne, List.append_nil,
      List.append_nil] at hmf
    rw [if_neg hf, if_neg hne, hmf, log]

theorem ensureOpenForWrite_adds (hh : HandleOk m.env i p) {f : FileId}
    (hf : (ensureOpenForWrite m.env p).1.exists? f = true) :
    m.env.exists? f = true ∨ f = (i, p.gen) := by
  unfold ensureOpenForWrite at hf
  split at hf
  · exact .inl hf
  · simp only [Env.exists?_reopenWritableFile, hh.file_eq, Bool.or_eq_true,
      decide_eq_true_eq] at hf
    exact hf.symm

theorem content_maybeFlush {env : Env} (hh : HandleOk env i q) (f : FileId) :
    (maybeFlush env q).1.content f = env.content f ∨
      f = (i, q.gen) ∧ (maybeFlush env q).1.content f = env.content f ++ q.buf := by
  unfold maybeFlush
  split_ifs
  · rw [hh.flushBuf_content]
    split_ifs with hf
    · exact .inr ⟨hf, rfl⟩
    · exact .inl rfl
  · exact .inl rfl

/-- `Append` leaves the files alone, or flushes the whole log of the active one. -/
theorem content_appendTo (h : HandlesOk m) (hp : IsPartition m i p) (r : WalRecord) (f : FileId) :
    (m.appendTo i p r).2.env.content f = m.env.content f ∨
      f = (i, p.gen) ∧ (m.appendTo i p r).2.env.content f = log m f ++ r.frame := by
  have hh := (hp.handleOk h).bufferedPartition r
  have hgen : (bufferedPartition m.env p r).gen = p.gen := by simp [bufferedPartition]
  rw [appendTo_env]
  rcases content_maybeFlush hh f with hc | ⟨hf, hc⟩
  · left
    rw [hc, ensureOpenForWrite_content]
  · right
    rw [hgen] at hf
    refine ⟨hf, ?_⟩
    rw [hc, ensureOpenForWrite_content, log, hp.buffered_eq f (congrArg Prod.fst hf)]
    simp [bufferedPartition, hf]

/-- Flushing one partition keeps every log. -/
theorem log_flush (hp : m.parts.lookup i = some p) {env : Env}
    (hcontent : ∀ g, env.content g = m.env.content g) (hq : HandleOk env i q)
    (hgen : q.gen = p.gen) (hbuf : q.buf = p.buf)
    (henv : ∀ g, m'.env.content g = (flushBuf env q).1.content g)
    (hparts : m'.parts = m.parts.insert i (flushBuf env q).2) (f : FileId) :
    log m' f = log m f := by
  rw [log_replace hparts, henv, hq.flushBuf_content, hq.flushBuf_buf, hcontent, hgen, hbuf,
    ite_self, log]
  by_cases hf : f.1 = i
  · have hite := ite_file (i := i) (p := p) f p.buf
    rw [if_pos hf] at hite ⊢
    rw [buffered_of_lookup hp f hf, hite, List.append_nil]
    split_ifs <;> simp
  · have hne : f ≠ (i, p.gen) := fun he => hf (by rw [he])
    rw [if_neg hf, if_neg hne]

theorem handlesOk_sync (h : HandlesOk m) (part : ℕ) : HandlesOk (m.sync part).2 := by
  unfold PartitionedWalManager.sync
  cases hp : m.parts.lookup part with
  | none => exact h
  | some p =>
    refine handlesOk_replace h (((h part p hp).ensureOpenForWrite.flushBuf).syncHandle _) rfl ?_
    intro f hf
    simpa using ensureOpenForWrite_exists? p hf

theorem log_sync (h : HandlesOk m) (part : ℕ) (f : FileId) :
    log (m.sync part).2 f = log m f := by
  unfold PartitionedWalManager.sync
  cases hp : m.parts.lookup part with
  | none => rfl
  | some p =>
    exact log_flush hp (by simp) (h part p hp).ensureOpenForWrite (by simp) (by simp)
      (by simp) rfl f

theorem handlesOk_closePartition (h : HandlesOk m) (part : ℕ) :
    HandlesOk (m.closePartition part) := by
  unfold PartitionedWalManager.closePartition
  cases hp : m.parts.lookup part with
  | none => exact h
  | some p =>
    exact handlesOk_replace h ((h part p hp).flushBuf.syncHandle _) rfl (by simp)

theorem log_closePartition (h : HandlesOk m) (part : ℕ) (f : FileId) :
    log (m.closePartition part) f = log m f := by
  unfold PartitionedWalManager.closePartition
  cases hp : m.parts.lookup part with
  | none => rfl
  | some p => exact log_flush hp (by simp) (h part p hp) rfl rfl (by simp) rfl f

theorem closeLoop_spec (h : HandlesOk m) (ids : List ℕ) :
    HandlesOk (ids.foldl PartitionedWalManager.closePartition m) ∧
      ∀ f, log (ids.foldl PartitionedWalManager.closePartition m) f = log m f := by
  induction ids generalizing m with
  | nil => exact ⟨h, fun f => rfl⟩
  | cons i ids ih =>
    obtain ⟨hok, hlog⟩ := ih (handlesOk_closePartition h i)
    exact ⟨hok, fun f => (hlog f).trans (log_closePartition h i f)⟩

theorem handlesOk_close (h : HandlesOk m) : HandlesOk m.close := (closeLoop_spec h _).1

theorem log_close (h : HandlesOk m) (f : FileId) : log m.close f = log m f :=
  (closeLoop_spec h _).2 f

/-- The partition `Freeze` leaves behind: the next generation, empty and open. -/
def nextPartition (p : Partition) : Partition :=
  { p with
    gen := (p.gen + 1) % 2 ^ 32, wfile := some (p.partId, (p.gen + 1) % 2 ^ 32),
    rfile := some (p.partId, (p.gen + 1) % 2 ^ 32), flushedSize := 0, totalSize := 0,
    buf := [], activeBytes := 0 }

theorem next_gen_ne (g : ℕ) : (g + 1) % 2 ^ 32 ≠ g := by omega

theorem HandleOk.flushBuf_closed {env : Env} (h : HandleOk env i p) (hw : p.wfile = none) :
    PartitionedWal.flushBuf env p = (env, p) := by
  refine flushBuf_nil ?_
  by_contra hb
  exact h.buf_open hb hw

theorem openGen_reset (env : Env) (q : Partition) (hid : q.partId = p.partId) (hg : q.gen = p.gen) :
    (openGen env
        { q with
          wfile := none, rfile := none, gen := (q.gen + 1) % 2 ^ 32, flushedSize := 0,
          totalSize := 0, buf := [], activeBytes := 0 }) =
      (env.newWritableFile (nextPartition p).file, nextPartition p) := by
  simp [openGen, nextPartition, Partition.file, hid, hg]

/-- `Freeze` flushes the partition and opens the file of the next generation. -/
theorem freeze_of_lookup (hp : m.parts.lookup i = some p) (h : HandleOk m.env i p) :
    (m.freeze i).1 = some ⟨p.gen, p.totalSize, (i, p.gen)⟩ ∧
      (m.freeze i).2.env =
        (PartitionedWalManager.syncHandle (flushBuf m.env p).1 p).newWritableFile
          (nextPartition p).file ∧
      (m.freeze i).2.parts = m.parts.insert i (nextPartition p) := by
  unfold PartitionedWalManager.freeze
  rw [hp]
  have hflush : (if p.wfile.isSome then flushBuf m.env p else (m.env, p)) = flushBuf m.env p := by
    split_ifs with hw
    · rfl
    · exact (h.flushBuf_closed (by simpa using hw)).symm
  simp only [hflush]
  rw [openGen_reset _ _ (flushBuf_partId _ _) (flushBuf_gen _ _)]
  simp

theorem freeze_of_lookup_none (hp : m.parts.lookup i = none) : m.freeze i = (none, m) := by
  simp [PartitionedWalManager.freeze, hp]

theorem handlesOk_freeze (h : HandlesOk m) (part : ℕ) : HandlesOk (m.freeze part).2 := by
  cases hp : m.parts.lookup part with
  | none => rwa [freeze_of_lookup_none hp]
  | some p =>
    obtain ⟨-, henv, hparts⟩ := freeze_of_lookup hp (h part p hp)
    have hid := (h part p hp).partId_eq
    refine handlesOk_replace (q := nextPartition p) h
      ⟨hid, ?_, ?_, by simp [nextPartition]⟩ hparts ?_
    · intro f hf
      simpa [nextPartition, hid] using hf.symm
    · intro _
      simp [henv, Env.exists?_newWritableFile, Partition.file, hid, nextPartition]
    · intro f hf
      simp [henv, Env.exists?_newWritableFile, hf]

/-- `Freeze` keeps every log, except that the file it opens is emptied. -/
theorem log_freeze (h : HandlesOk m) (hp : m.parts.lookup i = some p) (f : FileId) :
    log (m.freeze i).2 f = if f = (i, (p.gen + 1) % 2 ^ 32) then [] else log m f := by
  have hok := h i p hp
  obtain ⟨-, henv, hparts⟩ := freeze_of_lookup hp hok
  have hfile : (nextPartition p).file = (i, (p.gen + 1) % 2 ^ 32) := by
    simp [nextPartition, Partition.file, hok.partId_eq]
  rw [log_replace hparts, henv, hfile, Env.content_newWritableFile, syncHandle_content,
    hok.flushBuf_content]
  have hbuf : (nextPartition p).buf = [] := rfl
  rw [hbuf, ite_self]
  by_cases hnew : f = (i, (p.gen + 1) % 2 ^ 32)
  · simp [hnew]
  · rw [if_neg hnew, if_neg hnew, log]
    by_cases hf : f.1 = i
    · have hite := ite_file (i := i) (p := p) f p.buf
      rw [if_pos hf] at hite ⊢
      rw [buffered_of_lookup hp f hf, hite]
      split_ifs <;> simp
    · have hne : f ≠ (i, p.gen) := fun he => hf (by rw [he])
      rw [if_neg hf, if_neg hne]

end ZeroFlush.WalLogs
