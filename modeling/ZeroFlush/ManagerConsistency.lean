import ZeroFlush.ReadPaths
import ZeroFlush.WalOpening
import Mathlib.Data.List.Infix

/-! # The manager stays consistent with its directory

The offsets handed out are right as long as `flushedSize` and `totalSize` follow the files. Every
operation keeps this, and none takes away what has been logged. -/
namespace ZeroFlush.ManagerConsistency
open FixedWidthCodec FiniteMaps WalFormat WalFiles PartitionedWal WalLogs WalOpening
  ReadPaths

variable {m m' : PartitionedWalManager} {i : ℕ} {p q : Partition}

/-- The logs grow, and a flush takes everything logged before it. -/
def Extends (m m' : PartitionedWalManager) : Prop :=
  ∀ f, log m f <+: log m' f ∧
    (m'.env.content f = m.env.content f ∨ log m f <+: m'.env.content f)

theorem Extends.refl (m : PartitionedWalManager) : Extends m m :=
  fun _ => ⟨List.prefix_rfl, .inl rfl⟩

theorem Extends.trans {a b c : PartitionedWalManager} (h : Extends a b) (h' : Extends b c) :
    Extends a c := by
  intro f
  refine ⟨(h f).1.trans (h' f).1, ?_⟩
  rcases (h' f).2 with hc | hc
  · rw [hc]
    exact (h f).2
  · exact .inr ((h f).1.trans hc)

theorem Extends.placed (he : Extends m m') {f : FileId} {off : ℕ} {r : WalRecord}
    (h : Placed m f off r) : Placed m' f off r := by
  have hlen := length_of_prefix h.inLog
  rw [List.length_drop] at hlen
  have hge := frameLength_ge r
  refine ⟨h.inLog.trans ?_, ?_⟩
  · obtain ⟨t, ht⟩ := (he f).1
    rw [← ht, List.drop_append_of_le_length (by omega)]
    exact List.prefix_append _ _
  · rcases (he f).2 with hc | hc
    · rw [hc]
      exact h.uncut
    · have hle := hc.length_le
      left
      omega

/-- The manager agrees with the directory. Of the range-delete partition, which `Open` never
looks for, nothing may be on disk until its first record. -/
structure Ok (m : PartitionedWalManager) : Prop where
  handles : HandlesOk m
  sizes : ∀ i p, m.parts.lookup i = some p → SizeOk m.env i p
  table : ∀ i < m.partitions, m.parts.lookup i ≠ none
  known : ∀ i p, m.parts.lookup i = some p → i < m.partitions ∨ i = kRangeDelPartId
  newest : ∀ i p, m.parts.lookup i = some p → i < m.partitions → ∀ g,
    m.env.exists? (i, g) = true → g ≤ p.gen ∧ m.env.exists? (i, p.gen) = true
  later : ∀ i p, m.parts.lookup i = some p → ∀ g, p.gen < g → m.env.content (i, g) = []
  unmanaged : m.parts.lookup kRangeDelPartId = none → ∀ g, m.env.content (kRangeDelPartId, g) = []

/-- What an operation that takes partition `i` from generation `g` to `g'` may do to the
directory. -/
structure Touches (m m' : PartitionedWalManager) (i g g' : ℕ) : Prop where
  partitions_eq : m'.partitions = m.partitions
  gen_le : g ≤ g'
  keeps : ∀ f, m.env.exists? f = true → m'.env.exists? f = true
  adds : ∀ f, m'.env.exists? f = true → m.env.exists? f = true ∨ f = (i, g')
  elsewhere : ∀ f, f ≠ (i, g) → f ≠ (i, g') → m'.env.content f = m.env.content f
  opened : g = g' ∨ m'.env.exists? (i, g') = true

/-- Replacing a partition by the same partition in a later generation. -/
theorem Ok.replace (h : Ok m) (hp : IsPartition m i p)
    (hknown : i < m.partitions ∨ i = kRangeDelPartId) (ht : Touches m m' i p.gen q.gen)
    (hparts : m'.parts = m.parts.insert i q) (hq : HandleOk m'.env i q)
    (hs : SizeOk m'.env i q) : Ok m' := by
  have hlook : ∀ j r, m'.parts.lookup j = some r →
      j = i ∧ r = q ∨ j ≠ i ∧ m.parts.lookup j = some r := by
    intro j r hr
    rw [hparts, lookup_insert_eq] at hr
    split_ifs at hr with hj
    · exact .inl ⟨hj, (Option.some.inj hr).symm⟩
    · exact .inr ⟨hj, hr⟩
  have hother : ∀ j g, j ≠ i → m'.env.content (j, g) = m.env.content (j, g) := fun j g hj =>
    ht.elsewhere _ (fun he => hj (congrArg Prod.fst he)) (fun he => hj (congrArg Prod.fst he))
  have hle := ht.gen_le
  refine ⟨handlesOk_replace h.handles hq hparts ht.keeps, ?_, ?_, ?_, ?_, ?_, ?_⟩
  · intro j r hr
    rcases hlook j r hr with ⟨rfl, rfl⟩ | ⟨hj, hr⟩
    · exact hs
    · exact (h.sizes j r hr).congr (hother j r.gen hj) (ht.keeps _)
  · intro j hj
    rw [hparts, lookup_insert_eq]
    split_ifs
    · simp
    · exact h.table j (ht.partitions_eq ▸ hj)
  · intro j r hr
    rw [ht.partitions_eq]
    rcases hlook j r hr with ⟨rfl, -⟩ | ⟨-, hr⟩
    · exact hknown
    · exact h.known j r hr
  · intro j r hr hj g hg
    rw [ht.partitions_eq] at hj
    rcases hlook j r hr with ⟨rfl, rfl⟩ | ⟨hne, hr⟩
    · rcases ht.adds _ hg with hold | hnew
      · rcases hp with hp | ⟨hp, -⟩
        · obtain ⟨hgp, hex⟩ := h.newest j p hp hj g hold
          refine ⟨hgp.trans hle, ?_⟩
          rcases ht.opened with he | he
          · exact he ▸ ht.keeps _ hex
          · exact he
        · exact absurd hp (h.table j hj)
      · obtain rfl : g = r.gen := congrArg Prod.snd hnew
        exact ⟨le_refl _, hg⟩
    · have hold := (ht.adds _ hg).resolve_right (fun he => hne (congrArg Prod.fst he))
      obtain ⟨hgr, hex⟩ := h.newest j r hr hj g hold
      exact ⟨hgr, ht.keeps _ hex⟩
  · intro j r hr g hg
    rcases hlook j r hr with ⟨rfl, rfl⟩ | ⟨hne, hr⟩
    · have hfile : ∀ k, k < g → ((j, g) : FileId) ≠ (j, k) := by
        intro k hk he
        simp only [Prod.mk.injEq] at he
        omega
      rw [ht.elsewhere _ (hfile _ (by omega)) (hfile _ hg)]
      rcases hp with hp | ⟨hp, rfl⟩
      · exact h.later j p hp g (by omega)
      · rcases hknown with hj | rfl
        · exact absurd hp (h.table j hj)
        · exact h.unmanaged hp g
    · rw [hother j g hne]
      exact h.later j r hr g hg
  · intro hnone g
    rw [hparts, lookup_insert_eq] at hnone
    split_ifs at hnone with hi
    rw [hother _ g hi]
    exact h.unmanaged hnone g

theorem Ok.sizeOk (h : Ok m) (hp : IsPartition m i p)
    (hknown : i < m.partitions ∨ i = kRangeDelPartId) : SizeOk m.env i p := by
  rcases hp with hp | ⟨hp, rfl⟩
  · exact h.sizes i p hp
  · rcases hknown with hi | rfl
    · exact absurd hp (h.table i hi)
    · exact sizeOk_fresh (h.unmanaged hp 0)

theorem touches_appendTo (h : Ok m) (hp : IsPartition m i p) (r : WalRecord) :
    Touches m (m.appendTo i p r).2 i p.gen p.gen := by
  have hh := hp.handleOk h.handles
  have hgen : (bufferedPartition m.env p r).gen = p.gen := by simp [bufferedPartition]
  refine ⟨rfl, le_refl _, ?_, ?_, ?_, .inl rfl⟩
  · intro f hf
    rw [appendTo_env, maybeFlush_exists?]
    exact ensureOpenForWrite_exists? p hf
  · intro f hf
    rw [appendTo_env, maybeFlush_exists?] at hf
    exact ensureOpenForWrite_adds hh hf
  · intro f hf _
    rw [appendTo_env]
    rcases content_maybeFlush (hh.bufferedPartition r) f with hc | ⟨hfile, -⟩
    · rw [hc, ensureOpenForWrite_content]
    · exact absurd (hgen ▸ hfile) hf

theorem ok_appendTo (h : Ok m) (hp : IsPartition m i p)
    (hknown : i < m.partitions ∨ i = kRangeDelPartId) (r : WalRecord) :
    Ok (m.appendTo i p r).2 := by
  have hh := hp.handleOk h.handles
  have hs := h.sizeOk hp hknown
  refine h.replace hp hknown ?_ (appendTo_parts m i p r) (hh.bufferedPartition r).maybeFlush
    (SizeOk.maybeFlush (hh.bufferedPartition r) (hs.bufferedPartition hh r))
  have hgen : (maybeFlush (ensureOpenForWrite m.env p).1 (bufferedPartition m.env p r)).2.gen =
      p.gen := by simp [bufferedPartition]
  rw [hgen]
  exact touches_appendTo h hp r

theorem extends_appendTo (h : HandlesOk m) (hp : IsPartition m i p) (r : WalRecord) :
    Extends m (m.appendTo i p r).2 := by
  intro f
  refine ⟨?_, ?_⟩
  · rw [log_appendTo h hp r f]
    split_ifs
    · exact List.prefix_append _ _
    · exact List.prefix_rfl
  · rcases content_appendTo h hp r f with hc | ⟨-, hc⟩
    · exact .inl hc
    · right
      rw [hc]
      exact List.prefix_append _ _

/-- The new frame stands at the offset that `Append` returns. -/
theorem placed_appendTo (h : Ok m) (hp : IsPartition m i p)
    (hknown : i < m.partitions ∨ i = kRangeDelPartId) (r : WalRecord) :
    Placed (m.appendTo i p r).2 (i, p.gen) p.totalSize r := by
  have hs := h.sizeOk hp hknown
  have hbuf := hp.buffered_eq (i, p.gen) rfl
  rw [if_pos rfl] at hbuf
  have hlen : (log m (i, p.gen)).length = p.totalSize := by
    rw [log, hbuf, List.length_append, ← hs.flushed_eq, ← hs.total_eq]
  refine ⟨?_, ?_⟩
  · rw [log_appendTo h.handles hp, if_pos rfl, ← hlen, List.drop_left]
  · rcases content_appendTo h.handles hp r (i, p.gen) with hc | ⟨-, hc⟩
    · right
      rw [hc, ← hs.flushed_eq, hs.total_eq]
      omega
    · left
      rw [hc, List.length_append, hlen, length_frame]

/-- Flushing a partition is one of the replacements that keep the manager in order. -/
theorem ok_flush (h : Ok m) (hp : m.parts.lookup i = some p) {env : Env}
    (hcontent : ∀ g, env.content g = m.env.content g) (hq : HandleOk env i q)
    (hs : SizeOk env i q) (hgen : q.gen = p.gen) (hpn : m'.partitions = m.partitions)
    (henv : m'.env = PartitionedWalManager.syncHandle (flushBuf env q).1 (flushBuf env q).2)
    (hkeeps : ∀ f, m.env.exists? f = true → env.exists? f = true)
    (hadds : ∀ f, env.exists? f = true → m.env.exists? f = true ∨ f = (i, p.gen))
    (hparts : m'.parts = m.parts.insert i (flushBuf env q).2) : Ok m' := by
  have hg : (flushBuf env q).2.gen = p.gen := by simpa using hgen
  refine h.replace (.inl hp) (h.known i p hp)
    ⟨hpn, hg.ge, ?_, ?_, ?_, .inl hg.symm⟩ hparts ?_ ?_
  · intro f hf
    simpa [henv] using hkeeps f hf
  · intro f hf
    rw [hg]
    exact hadds f (by simpa [henv] using hf)
  · intro f hf _
    rw [henv, syncHandle_content, hq.flushBuf_content, hgen, if_neg hf, hcontent]
  · rw [henv]
    exact hq.flushBuf.syncHandle _
  · rw [henv]
    exact (hs.flushBuf hq).congr (by simp) (by simp)

theorem extends_flush (hp : m.parts.lookup i = some p) {env : Env}
    (hcontent : ∀ g, env.content g = m.env.content g) (hq : HandleOk env i q)
    (hgen : q.gen = p.gen) (hbuf : q.buf = p.buf)
    (henv : m'.env = PartitionedWalManager.syncHandle (flushBuf env q).1 (flushBuf env q).2)
    (hparts : m'.parts = m.parts.insert i (flushBuf env q).2) : Extends m m' := by
  intro f
  have hlog := log_flush hp hcontent hq hgen hbuf (by simp [henv]) hparts f
  refine ⟨hlog ▸ List.prefix_rfl, ?_⟩
  rw [henv, syncHandle_content, hq.flushBuf_content, hcontent, hgen, hbuf]
  split_ifs with hf
  · right
    rw [hf, log_of_lookup hp]
  · exact .inl rfl

theorem ok_sync (h : Ok m) (part : ℕ) : Ok (m.sync part).2 := by
  unfold PartitionedWalManager.sync
  cases hp : m.parts.lookup part with
  | none => exact h
  | some p =>
    have hh := h.handles part p hp
    exact ok_flush h hp (by simp) hh.ensureOpenForWrite
      ((h.sizes part p hp).ensureOpenForWrite hh) (by simp) rfl rfl
      (fun f hf => ensureOpenForWrite_exists? p hf) (fun f hf => ensureOpenForWrite_adds hh hf) rfl

theorem extends_sync (h : HandlesOk m) (part : ℕ) : Extends m (m.sync part).2 := by
  unfold PartitionedWalManager.sync
  cases hp : m.parts.lookup part with
  | none => exact Extends.refl m
  | some p =>
    exact extends_flush hp (by simp) (h part p hp).ensureOpenForWrite (by simp) (by simp) rfl rfl

theorem ok_closePartition (h : Ok m) (part : ℕ) : Ok (m.closePartition part) := by
  unfold PartitionedWalManager.closePartition
  cases hp : m.parts.lookup part with
  | none => exact h
  | some p =>
    exact ok_flush h hp (by simp) (h.handles part p hp) (h.sizes part p hp) rfl rfl rfl
      (fun f hf => hf) (fun f hf => .inl hf) rfl

theorem extends_closePartition (h : HandlesOk m) (part : ℕ) :
    Extends m (m.closePartition part) := by
  unfold PartitionedWalManager.closePartition
  cases hp : m.parts.lookup part with
  | none => exact Extends.refl m
  | some p => exact extends_flush hp (by simp) (h part p hp) rfl rfl rfl rfl

theorem closeLoop_ok (h : Ok m) (ids : List ℕ) :
    Ok (ids.foldl PartitionedWalManager.closePartition m) ∧
      Extends m (ids.foldl PartitionedWalManager.closePartition m) := by
  induction ids generalizing m with
  | nil => exact ⟨h, Extends.refl m⟩
  | cons i ids ih =>
    obtain ⟨hok, hext⟩ := ih (ok_closePartition h i)
    exact ⟨hok, (extends_closePartition h.handles i).trans hext⟩

theorem ok_close (h : Ok m) : Ok m.close := (closeLoop_ok h _).1

theorem extends_close (h : Ok m) : Extends m m.close := (closeLoop_ok h _).2

theorem extends_freeze (h : Ok m) (part : ℕ) (hgen : m.activeGen part + 1 < 2 ^ 32) :
    Extends m (m.freeze part).2 := by
  cases hp : m.parts.lookup part with
  | none =>
    rw [freeze_of_lookup_none hp]
    exact Extends.refl m
  | some p =>
    have hh := h.handles part p hp
    have hnext : (p.gen + 1) % 2 ^ 32 = p.gen + 1 :=
      Nat.mod_eq_of_lt (by simpa [PartitionedWalManager.activeGen, hp] using hgen)
    have hempty := h.later part p hp (p.gen + 1) (by omega)
    obtain ⟨-, henv, -⟩ := freeze_of_lookup hp hh
    intro f
    rw [log_freeze h.handles hp, henv, Env.content_newWritableFile, syncHandle_content,
      hh.flushBuf_content, hnext]
    have hfile : (nextPartition p).file = (part, p.gen + 1) := by
      simp only [nextPartition, Partition.file, hnext, hh.partId_eq]
    rw [hfile]
    by_cases hf : f = (part, p.gen + 1)
    · subst hf
      have hlog : log m (part, p.gen + 1) = [] := by
        rw [log, hempty, buffered_of_lookup hp _ rfl]
        simp
      simp [hlog, hempty]
    · simp only [if_neg hf]
      refine ⟨List.prefix_rfl, ?_⟩
      split_ifs with hg
      · right
        rw [hg, log_of_lookup hp]
      · exact .inl rfl

theorem ok_freeze (h : Ok m) (part : ℕ) (hgen : m.activeGen part + 1 < 2 ^ 32) :
    Ok (m.freeze part).2 := by
  cases hp : m.parts.lookup part with
  | none => rwa [freeze_of_lookup_none hp]
  | some p =>
    have hh := h.handles part p hp
    have hnext : (p.gen + 1) % 2 ^ 32 = p.gen + 1 :=
      Nat.mod_eq_of_lt (by simpa [PartitionedWalManager.activeGen, hp] using hgen)
    have hg : (nextPartition p).gen = p.gen + 1 := by simp only [nextPartition, hnext]
    have hfile : (nextPartition p).file = (part, p.gen + 1) := by
      simp only [nextPartition, Partition.file, hnext, hh.partId_eq]
    obtain ⟨-, henv, hparts⟩ := freeze_of_lookup hp hh
    have hex : ∀ f, (m.freeze part).2.env.exists? f = true ↔
        f = (part, p.gen + 1) ∨ m.env.exists? f = true := by
      intro f
      simp [henv, hfile, Env.exists?_newWritableFile]
    have hpn : (m.freeze part).2.partitions = m.partitions := by
      unfold PartitionedWalManager.freeze
      rw [hp]
    refine h.replace (.inl hp) (h.known part p hp) ⟨hpn, ?_, ?_, ?_, ?_, ?_⟩ hparts
      (handlesOk_freeze h.handles part part _ (by rw [hparts]; simp)) ?_
    · omega
    · exact fun f hf => (hex f).mpr (.inr hf)
    · intro f hf
      rw [hg]
      exact ((hex f).mp hf).symm
    · intro f h1 h2
      rw [hg] at h2
      rw [henv, hfile, Env.content_newWritableFile, if_neg h2, syncHandle_content,
        hh.flushBuf_content, if_neg h1]
    · right
      rw [hg]
      exact (hex _).mpr (.inl rfl)
    · have hrf : (nextPartition p).rfile = some (part, p.gen + 1) := by
        simp only [nextPartition, hnext, hh.partId_eq]
      refine ⟨?_, by simp [nextPartition], ?_, by simp [nextPartition], ?_⟩
      · rw [hg, henv, hfile, Env.content_newWritableFile, if_pos rfl]
        rfl
      · intro f hf
        rw [hg]
        exact (Option.some.inj (hrf.symm.trans hf)).symm
      · intro _
        rw [hg]
        exact (hex _).mpr (.inl rfl)

/-- What `Open` relies on in the partitions it is going to set up. -/
structure Openable (m : PartitionedWalManager) : Prop where
  partId_eq : ∀ i p, m.parts.lookup i = some p → p.partId = i
  wfile : ∀ i p, m.parts.lookup i = some p → i < m.partitions → ∀ f, p.wfile = some f →
    f = (i, maxGen i m.env.listFiles) ∧ m.env.exists? f = true
  rfile : ∀ i p, m.parts.lookup i = some p → i < m.partitions →
    (∀ g, m.env.exists? (i, g) = false) → p.rfile = none
  table : ∀ i < m.partitions, m.parts.lookup i ≠ none
  others : ∀ i p, m.parts.lookup i = some p → ¬ i < m.partitions →
    i = kRangeDelPartId ∧ HandleOk m.env i p ∧ SizeOk m.env i p ∧
      ∀ g, p.gen < g → m.env.content (i, g) = []
  unmanaged : m.parts.lookup kRangeDelPartId = none → ∀ g, m.env.content (kRangeDelPartId, g) = []

/-- A partition of the table after `Open`. -/
structure Opened (env : Env) (i : ℕ) (p : Partition) : Prop where
  handle : HandleOk env i p
  size : SizeOk env i p
  newest : ∀ g, env.exists? (i, g) = true → g ≤ p.gen ∧ env.exists? (i, p.gen) = true

theorem opened_openPartition {env : Env} (hid : p.partId = i)
    (hw : ∀ f, p.wfile = some f → f = (i, maxGen i env.listFiles) ∧ env.exists? f = true)
    (hr : (∀ g, env.exists? (i, g) = false) → p.rfile = none) :
    Opened env i (PartitionedWalManager.openPartition env i p) := by
  by_cases hany : env.listFiles.any (fun f => f.1 == i) = true
  · obtain ⟨g₀, hg₀⟩ := (any_listFiles_iff env i).mp hany
    have hmax : env.exists? (i, maxGen i env.listFiles) = true :=
      Env.mem_listFiles.mp (maxGen_mem (Env.mem_listFiles.mpr hg₀))
    simp only [PartitionedWalManager.openPartition, hany, if_true]
    refine ⟨⟨hid, fun f hf => (hw f hf).1, fun _ => hmax, by simp⟩,
      ⟨rfl, by simp, fun f hf => (Option.some.inj hf).symm, by simp, fun _ => hmax⟩, ?_⟩
    intro g hg
    exact ⟨le_maxGen (Env.mem_listFiles.mpr hg), hmax⟩
  · have hnone : ∀ g, env.exists? (i, g) = false := by
      intro g
      by_contra hg
      exact hany ((any_listFiles_iff env i).mpr ⟨g, by simpa using hg⟩)
    have hwnone : p.wfile = none := by
      cases hp : p.wfile with
      | none => rfl
      | some f =>
        obtain ⟨rfl, hex⟩ := hw f hp
        simp [hnone] at hex
    simp only [PartitionedWalManager.openPartition, hany]
    refine ⟨⟨hid, ?_, ?_, by simp⟩, ⟨?_, by simp, ?_, ?_, ?_⟩, ?_⟩
    all_goals simp [hwnone, hr hnone, hnone, Env.content_of_not_exists]

theorem ok_open (h : Openable m) : Ok m.open_ := by
  have hlook : ∀ i p, m.open_.parts.lookup i = some p →
      (i < m.partitions ∧ Opened m.env i p) ∨ (¬ i < m.partitions ∧ m.parts.lookup i = some p) := by
    intro i p hp
    rw [lookup_open, Option.map_eq_some_iff] at hp
    obtain ⟨q, hq, rfl⟩ := hp
    by_cases hi : i < m.partitions
    · rw [if_pos hi]
      exact .inl ⟨hi, opened_openPartition (h.partId_eq i q hq) (h.wfile i q hq hi)
        (h.rfile i q hq hi)⟩
    · rw [if_neg hi]
      exact .inr ⟨hi, hq⟩
  refine ⟨?_, ?_, ?_, ?_, ?_, ?_, ?_⟩
  · intro i p hp
    rcases hlook i p hp with ⟨-, ho⟩ | ⟨hi, hp⟩
    · exact ho.handle
    · exact (h.others i p hp hi).2.1
  · intro i p hp
    rcases hlook i p hp with ⟨-, ho⟩ | ⟨hi, hp⟩
    · exact ho.size
    · exact (h.others i p hp hi).2.2.1
  · intro i hi
    rw [lookup_open]
    simpa using h.table i hi
  · intro i p hp
    rcases hlook i p hp with ⟨hi, -⟩ | ⟨hi, hp⟩
    · exact .inl hi
    · exact .inr (h.others i p hp hi).1
  · intro i p hp hi
    rcases hlook i p hp with ⟨-, ho⟩ | ⟨hni, -⟩
    · exact ho.newest
    · exact absurd hi hni
  · intro i p hp g hg
    rcases hlook i p hp with ⟨-, ho⟩ | ⟨hi, hp⟩
    · refine Env.content_of_not_exists ?_
      by_contra he
      have hle := (ho.newest g (by simpa [PartitionedWalManager.open_] using he)).1
      omega
    · exact (h.others i p hp hi).2.2.2 g hg
  · intro hnone
    rw [lookup_open, Option.map_eq_none_iff] at hnone
    exact h.unmanaged hnone

theorem openable_of_ok (h : Ok m) : Openable m := by
  refine ⟨fun i p hp => (h.handles i p hp).partId_eq, ?_, ?_, h.table, ?_, h.unmanaged⟩
  · intro i p hp hi f hf
    have hh := h.handles i p hp
    have hex := hh.wfile_exists (by simp [hf])
    obtain rfl := hh.wfile_eq f hf
    have hmem := Env.mem_listFiles.mpr hex
    have hle := (h.newest i p hp hi _ (Env.mem_listFiles.mp (maxGen_mem hmem))).1
    have hge := le_maxGen hmem
    exact ⟨by rw [le_antisymm hge hle], hex⟩
  · intro i p hp _ hnone
    by_contra hr
    simpa [hnone] using (h.sizes i p hp).rfile_exists hr
  · intro i p hp hi
    exact ⟨(h.known i p hp).resolve_left hi, h.handles i p hp, h.sizes i p hp, h.later i p hp⟩

/-- Calling `Open` again only forgets what is still buffered. -/
theorem extends_open (hb : ∀ i p, m.parts.lookup i = some p → i < m.partitions → p.buf = []) :
    Extends m m.open_ := by
  intro f
  have hbuf : buffered m.open_.parts f = buffered m.parts f := by
    simp only [buffered, lookup_open]
    cases hp : m.parts.lookup f.1 with
    | none => rfl
    | some p =>
      by_cases hi : f.1 < m.partitions
      · simp [hi, openPartition_buf, hb f.1 p hp hi]
      · simp [hi]
  refine ⟨?_, .inl rfl⟩
  rw [log, log, hbuf]
  exact List.prefix_rfl

theorem openable_create (env : Env) (n target : ℕ)
    (hrd : ∀ g, env.content (kRangeDelPartId, g) = []) :
    Openable (PartitionedWalManager.create env n target) := by
  have hlook : ∀ i p, (PartitionedWalManager.create env n target).parts.lookup i = some p →
      i < n ∧ p = { partId := i } := by
    intro i p hp
    rw [lookup_create] at hp
    split_ifs at hp with hi
    exact ⟨hi, (Option.some.inj hp).symm⟩
  refine ⟨?_, ?_, ?_, ?_, ?_, fun _ => hrd⟩
  · intro i p hp
    rw [(hlook i p hp).2]
  · intro i p hp _ f hf
    simp [(hlook i p hp).2] at hf
  · intro i p hp _ _
    rw [(hlook i p hp).2]
  · intro i hi
    rw [lookup_create, if_pos (show i < n from hi)]
    simp
  · intro i p hp hi
    exact absurd (hlook i p hp).1 hi

/-- Reopening is safe when the log of the range-delete partition is empty. -/
theorem ok_reopen (h : Ok m) (hrd : ∀ g, log m (kRangeDelPartId, g) = []) : Ok m.reopen := by
  refine ok_open (openable_create _ _ _ ?_)
  intro g
  rw [content_close h.handles, hrd]

theorem extends_reopen (h : Ok m) : Extends m m.reopen := by
  intro f
  rw [log_reopen h.handles, env_reopen, content_close h.handles]
  exact ⟨List.prefix_rfl, .inr List.prefix_rfl⟩

/-- Removing a file that is not active. -/
theorem ok_unlink (h : Ok m) {f : FileId} (hf : ∀ p, m.parts.lookup f.1 = some p → p.gen ≠ f.2) :
    Ok { m with env := m.env.deleteFile f } := by
  have hactive : ∀ i p, m.parts.lookup i = some p → ((i, p.gen) : FileId) ≠ f := by
    rintro i p hp rfl
    exact hf p hp rfl
  have hexists : ∀ g, g ≠ f → (m.env.deleteFile f).exists? g = m.env.exists? g := by
    intro g hg
    simp [Env.exists?_deleteFile, hg]
  have hempty : ∀ g, m.env.content g = [] → (m.env.deleteFile f).content g = [] := by
    intro g hg
    rw [Env.content_deleteFile, hg, ite_self]
  refine ⟨?_, ?_, h.table, h.known, ?_, ?_, ?_⟩
  · intro i p hp
    have hh := h.handles i p hp
    refine ⟨hh.partId_eq, hh.wfile_eq, ?_, hh.buf_open⟩
    rw [hexists _ (hactive i p hp)]
    exact hh.wfile_exists
  · intro i p hp
    refine (h.sizes i p hp).congr ?_ ?_
    · rw [Env.content_deleteFile, if_neg (hactive i p hp)]
    · rw [hexists _ (hactive i p hp)]
      exact id
  · intro i p hp hi g hg
    simp only [Env.exists?_deleteFile, Bool.and_eq_true] at hg
    rw [hexists _ (hactive i p hp)]
    exact h.newest i p hp hi g hg.2
  · exact fun i p hp g hg => hempty _ (h.later i p hp g hg)
  · exact fun hnone g => hempty _ (h.unmanaged hnone g)

end ZeroFlush.ManagerConsistency
