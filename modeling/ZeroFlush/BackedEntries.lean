import ZeroFlush.PinnedReaders

/-! # Index entries and the records they are made from

An entry of an index is made from the record at its locator, by `AddRecord` or by a replay. Until
its file is removed the record stays there. -/
namespace ZeroFlush.BackedEntries
open FixedWidthCodec FiniteMaps WalFormat WalFiles PartitionedWal WalLogs WalOpening UserKeys
  OrderedInsertion PartitionIndexes IndexChains IndexContents PartitionTables SealedFiles
  SequentialScan Context ContextRuns SealedEpochs ReadPaths ManagerConsistency RecoveredLocators
open EpochTables (RoutedOp)
open ReleasedIndexes (Stored NoWrap)
open PinnedReaders (SealOp sealedBy_context context_of_not_seals)

/-- The bytes are a record with the internal key of the entry. -/
def Describes (x : IndexEntry) (d : Bytes) : Prop :=
  ∃ r : Scanned, decodeZfRecord d = .ok (r.header, r.key, r.value) ∧
    x.userKey = r.key ∧ x.seq = r.header.seq.toNat % 2 ^ 56 ∧ x.type = r.header.type

/-- Unless its file is gone, a record with the property stands in the log at the locator. -/
structure Keeps (m : PartitionedWalManager) (ref : WalRecordRef) (P : Bytes → Prop) : Prop where
  managed : m.parts.lookup ref.partId ≠ none
  gen_le : ref.gen ≤ m.activeGen ref.partId
  placed : (∃ d, Framed d ∧ P d ∧ d <+: (log m ref.file).drop ref.offset) ∨
    log m ref.file = [] ∧ ref.gen ≠ m.activeGen ref.partId

/-- The record of an entry stands at its locator. -/
def Backed (m : PartitionedWalManager) (x : IndexEntry) : Prop := Keeps m x.loc (Describes x)

section wal
variable {m m' : PartitionedWalManager} {ref : WalRecordRef} {P : Bytes → Prop}

/-- The log of the file has grown, or not changed if the file is sealed. -/
theorem Keeps.mono (h : Keeps m ref P) (hmanaged : m'.parts.lookup ref.partId ≠ none)
    (hgen : m.activeGen ref.partId ≤ m'.activeGen ref.partId)
    (hlog : log m ref.file <+: log m' ref.file)
    (hsealed : ref.gen ≠ m.activeGen ref.partId → log m' ref.file = log m ref.file) :
    Keeps m' ref P := by
  refine ⟨hmanaged, h.gen_le.trans hgen, ?_⟩
  obtain ⟨d, hframed, hd, hplaced⟩ | ⟨hgone, hold⟩ := h.placed
  · have hge := hframed.length_eq.1
    have hin := hplaced.length_le
    rw [List.length_drop] at hin
    obtain ⟨tail, htail⟩ := hlog
    refine .inl ⟨d, hframed, hd, hplaced.trans ?_⟩
    rw [← htail, List.drop_append_of_le_length (by omega)]
    exact List.prefix_append _ _
  · refine .inr ⟨(hsealed hold).trans hgone, ?_⟩
    have hle := h.gen_le
    omega

theorem Keeps.of_log_eq (h : Keeps m ref P) (hmanaged : m'.parts.lookup ref.partId ≠ none)
    (hgen : m.activeGen ref.partId ≤ m'.activeGen ref.partId)
    (hlog : log m' ref.file = log m ref.file) : Keeps m' ref P :=
  h.mono hmanaged hgen (hlog ▸ List.prefix_rfl) fun _ => hlog

theorem Keeps.imp {Q : Bytes → Prop} (h : Keeps m ref P) (hpq : ∀ d, P d → Q d) : Keeps m ref Q := by
  refine ⟨h.managed, h.gen_le, h.placed.imp_left ?_⟩
  rintro ⟨d, hframed, hd, hplaced⟩
  exact ⟨d, hframed, hpq d hd, hplaced⟩

theorem keeps_sync (hok : Ok m) (part : ℕ) (h : Keeps m ref P) : Keeps (m.sync part).2 ref P :=
  h.of_log_eq (WalReferenceStability.lookup_sync_ne_none part h.managed)
    (activeGen_sync m part _).ge (log_sync hok.handles part _)

/-- A freeze empties the log of the next generation, which no locator is in. -/
theorem keeps_freeze (hok : Ok m) {part : ℕ} (hwrap : m.activeGen part + 1 < 2 ^ 32)
    (h : Keeps m ref P) : Keeps (m.freeze part).2 ref P := by
  cases hp : m.parts.lookup part with
  | none =>
    rw [freeze_of_lookup_none hp]
    exact h
  | some p =>
    have hactive : m.activeGen part = p.gen := by simp [PartitionedWalManager.activeGen, hp]
    have hnext : (p.gen + 1) % 2 ^ 32 = p.gen + 1 := Nat.mod_eq_of_lt (hactive ▸ hwrap)
    have hle := h.gen_le
    refine h.of_log_eq (WalReferenceStability.lookup_freeze_ne_none part h.managed) ?_ ?_
    · rw [activeGen_freeze, Nat.mod_eq_of_lt hwrap]
      split
      next hsame =>
        rw [hsame.1]
        exact Nat.le_succ _
      · exact le_rfl
    · rw [log_freeze hok.handles hp, hnext, if_neg]
      intro hfile
      obtain ⟨hpart, hgen⟩ := Prod.mk.inj hfile
      rw [hpart, hactive] at hle
      omega

theorem keeps_seals {ps : List ℕ} {se : SealedEpoch}
    (hwrap : ∀ p ∈ ps, m.activeGen p + ps.length < 2 ^ 32) (hok : Ok m) (h : Keeps m ref P) :
    Keeps (ps.foldl sealWal (m, se)).1 ref P := by
  induction ps generalizing m se with
  | nil => exact h
  | cons p ps ih =>
    obtain ⟨hp, hrest⟩ := noWrap_freeze hwrap
    exact ih hrest (ok_freeze hok p hp) (keeps_freeze hok hp h)

/-- An appended record stands at its locator, and those that were there stay. -/
theorem keeps_append (hok : Ok m) {part : ℕ} {r : WalRecord} (hr : r.frameLength < 2 ^ 32)
    (h : m.append part r = (.ok ref, m')) :
    Ok m' ∧ Keeps m' ref (· = r.frame) ∧ ∀ ref P, Keeps m ref P → Keeps m' ref P := by
  obtain ⟨hpart, hgen, -, hgens, -⟩ := append_ok h
  obtain ⟨p, hp, heq⟩ | ⟨e, heq⟩ := append_cases m part r
  · obtain ⟨href, rfl⟩ : (m.appendTo part p r).1 = ref ∧ (m.appendTo part p r).2 = m' := by
      simpa using heq.symm.trans h
    have his : IsPartition m part p := hp.imp_right fun hn => ⟨hn.1, hn.2.2⟩
    have hknown : part < m.partitions ∨ part = kRangeDelPartId := by
      obtain hp | hn := hp
      · exact hok.known part p hp
      · exact .inr hn.2.1
    have hactive : p.gen = m.activeGen part := by
      rw [← hgen, ← href, appendTo_ref]
    refine ⟨ok_appendTo hok his hknown r, ⟨?_, ?_, ?_⟩, ?_⟩
    · show (m.appendTo part p r).2.parts.lookup ref.partId ≠ none
      rw [hpart, appendTo_parts, lookup_insert_eq, if_pos rfl]
      exact Option.some_ne_none _
    · show ref.gen ≤ _
      rw [hgens]
      exact (hgen.trans (congrArg _ hpart.symm)).le
    · refine .inl ⟨r.frame, framed_frame hr, rfl, ?_⟩
      have hplaced := placed_appendTo hok his hknown r
      show r.frame <+: (log (m.appendTo part p r).2 ref.file).drop ref.offset
      rw [← href, appendTo_ref]
      exact hplaced.inLog
    · intro x P hx
      refine hx.mono ?_ (hgens _).ge (extends_appendTo hok.handles his r x.file).1 ?_
      · rw [appendTo_parts]
        exact WalReferenceStability.lookup_insert_ne_none hx.managed
      · intro hold
        rw [log_appendTo hok.handles his, if_neg]
        intro hfile
        obtain ⟨hpart', hgen'⟩ := Prod.mk.inj hfile
        rw [hpart', hgen', hactive] at hold
        exact hold rfl
  · rw [h] at heq
    cases heq

/-- A removed file takes its records with it. -/
theorem keeps_unlink {f : FileId} (hf : ∀ p, m.parts.lookup f.1 = some p → p.gen ≠ f.2)
    (h : Keeps m ref P) : Keeps { m with env := m.env.deleteFile f } ref P := by
  cases eq_or_ne ref.file f with
  | inl hfile =>
    subst hfile
    obtain ⟨p, hp⟩ := Option.ne_none_iff_exists'.mp h.managed
    have hactive : m.activeGen ref.partId = p.gen := by simp [PartitionedWalManager.activeGen, hp]
    have hold : p.gen ≠ ref.gen := hf p hp
    refine ⟨h.managed, h.gen_le, .inr ⟨?_, ?_⟩⟩
    · have hp' : m.parts.lookup ref.file.1 = some p := hp
      have hbuf : buffered m.parts ref.file = [] := by
        rw [buffered, hp']
        exact if_neg hold
      rw [log, Env.content_deleteFile, if_pos rfl, List.nil_append]
      exact hbuf
    · show ref.gen ≠ m.activeGen ref.partId
      rw [hactive]
      exact hold.symm
  | inr hfile =>
    refine h.of_log_eq h.managed le_rfl ?_
    rw [log, Env.content_deleteFile, if_neg hfile]
    rfl

theorem keeps_unlinks (files : List FileId) (hok : Ok m)
    (hold : ∀ f ∈ files, ∀ p, m.parts.lookup f.1 = some p → p.gen ≠ f.2) :
    Ok { m with env := files.foldl Env.deleteFile m.env } ∧
      ∀ ref P, Keeps m ref P → Keeps { m with env := files.foldl Env.deleteFile m.env } ref P := by
  induction files generalizing m with
  | nil => exact ⟨hok, fun ref P h => h⟩
  | cons f files ih =>
    have hfirst := hold f List.mem_cons_self
    obtain ⟨hrest, hkeeps⟩ := @ih { m with env := m.env.deleteFile f } (ok_unlink hok hfirst)
      fun g hg => hold g (List.mem_cons_of_mem _ hg)
    exact ⟨hrest, fun ref P h => hkeeps ref P (keeps_unlink hfirst h)⟩

end wal

/-- An index after a freeze is an empty one or was there before. -/
theorem mem_chain_freeze {s : PartitionIndexSet} {part gen p : ℕ} {i : PartitionIndex}
    (h : i ∈ (s.freeze part gen).chain p) : i ∈ s.chain p ∨ i.entries = [] := by
  obtain ⟨⟨rest, hchain, hrest⟩, hother⟩ := chain_freeze s part gen
  cases eq_or_ne p part with
  | inl hp =>
    subst hp
    rw [hchain, List.mem_cons] at h
    obtain rfl | h := h
    · exact .inr rfl
    · obtain rfl | ⟨a, -, -, ha⟩ := hrest
      · exact .inl h
      · exact .inl (ha ▸ List.mem_cons_of_mem _ h)
  | inr hp => exact .inl (hother p hp ▸ h)

theorem sorted_freezeIndexLoop {s : PartitionIndexSet} {ucmp : UserComparator} (h : Sorted ucmp s)
    (fs : List (ℕ × ℕ)) : Sorted ucmp (freezeIndexLoop s fs) := by
  induction fs generalizing s with
  | nil => exact h
  | cons f fs ih =>
    refine @ih (s.freeze f.1 f.2) ?_
    intro p i hi
    obtain hi | hnil := mem_chain_freeze hi
    · exact h p i hi
    · rw [hnil]
      exact List.Pairwise.nil

/-- The manager is in order, and the indexes are sorted and made from the records of the log. -/
structure Faithful (ctx : ZeroFlushContext) : Prop where
  ok : Ok ctx.wal
  sorted : Sorted ctx.ucmp ctx.indexSet
  backed : ∀ p x, Stored ctx.indexSet p x → Backed ctx.wal x

/-- All records are in files of partitions that are opened. -/
def Managed (env : Env) (partitions : ℕ) : Prop :=
  ∀ f ∈ env.listFiles, f.1 < partitions ∧ f.1 ≠ kRangeDelPartId ∨ env.content f = []

instance (env : Env) (partitions : ℕ) : Decidable (Managed env partitions) :=
  inferInstanceAs (Decidable (∀ f ∈ env.listFiles, _))

/-- The condition on a step: generations do not wrap around, only sealed files are removed, and a
new session manages the partitions of all records. -/
def StepOk (ctx : ZeroFlushContext) : RoutedOp → Prop
  | .context (.addRecord r _ _) => r.frameLength < 2 ^ 32
  | .context (.freezeBatchPartitions _) => NoWrap ctx.wal ctx.chooseBatch
  | .context .freezeOnePartition => NoWrap ctx.wal ctx.chooseOne.toList
  | .context (.sealEpochAndSwitch _) => NoWrap ctx.wal ctx.tables.current.partIds
  | .context .purgeSealedFiles => ∀ f ∈ ctx.sealedCache.pendingUnlink,
      ∀ p ∈ ctx.wal.parts.lookup f.1, p.gen ≠ f.2
  | .context (.reopen _) => Managed ctx.wal.close.env ctx.wal.partitions
  | .context (.crash cut _) => Managed (ctx.wal.env.crash cut) ctx.wal.partitions
  | .context (.sync _) | .context (.releaseEpoch _) | .handOffSkipped _ _ _ => True

instance decidableStepOk (ctx : ZeroFlushContext) : (op : RoutedOp) → Decidable (StepOk ctx op)
  | .context (.addRecord r _ _) => inferInstanceAs (Decidable (r.frameLength < 2 ^ 32))
  | .context (.freezeBatchPartitions _) =>
    inferInstanceAs (Decidable (NoWrap ctx.wal ctx.chooseBatch))
  | .context .freezeOnePartition =>
    inferInstanceAs (Decidable (NoWrap ctx.wal ctx.chooseOne.toList))
  | .context (.sealEpochAndSwitch _) =>
    inferInstanceAs (Decidable (NoWrap ctx.wal ctx.tables.current.partIds))
  | .context .purgeSealedFiles => inferInstanceAs (Decidable (∀ f ∈ ctx.sealedCache.pendingUnlink,
      ∀ p ∈ ctx.wal.parts.lookup f.1, p.gen ≠ f.2))
  | .context (.reopen _) =>
    inferInstanceAs (Decidable (Managed ctx.wal.close.env ctx.wal.partitions))
  | .context (.crash cut _) =>
    inferInstanceAs (Decidable (Managed (ctx.wal.env.crash cut) ctx.wal.partitions))
  | .context (.sync _) | .context (.releaseEpoch _) | .handOffSkipped _ _ _ => .isTrue trivial

section steps
variable {ctx : ZeroFlushContext}

theorem faithful_addRecord (h : Faithful ctx) {r : WalRecord} (hr : r.frameLength < 2 ^ 32)
    (v rnd : ℕ) : Faithful (ctx.addRecord r v rnd).2 := by
  rw [ZeroFlushContext.addRecord]
  cases ha : ctx.wal.append (ctx.partOf r v) r with
  | mk res wal =>
    cases res with
    | error e =>
      obtain rfl := append_error ha
      exact h
    | ok ref =>
      obtain ⟨hok, hnew, hold⟩ := keeps_append h.ok hr ha
      refine ⟨hok, sorted_insert h.sorted, ?_⟩
      intro p x hx
      obtain ⟨-, rfl⟩ | hx := stored_insert hx
      · refine Keeps.imp hnew ?_
        rintro d rfl
        exact ⟨⟨r.header, r.key, r.value⟩, decodeZfRecord_frame hr, rfl, rfl, rfl⟩
      · exact hold x.loc _ (h.backed p x hx)

theorem faithful_seal (h : Faithful ctx) {op : SealOp} (hwrap : NoWrap ctx.wal (op.parts ctx)) :
    Faithful (op.context ctx) := by
  cases hseals : op.seals ctx with
  | false =>
    rw [context_of_not_seals hseals]
    refine ⟨ok_congr h.ok rfl rfl rfl, h.sorted, ?_⟩
    exact fun p x hx => Keeps.of_log_eq (h.backed p x hx) (h.backed p x hx).managed le_rfl rfl
  | true =>
    obtain ⟨fs, t, hby⟩ := sealedBy_context hseals
    obtain ⟨hok, -⟩ := @readable_seals ctx.wal (op.parts ctx) ctx.nextEpoch.2 hwrap h.ok
    refine ⟨?_, ?_, ?_⟩
    · rw [hby.wal_eq]
      exact ok_congr hok rfl rfl rfl
    · rw [hby.ucmp_eq, hby.index_eq]
      exact sorted_freezeIndexLoop h.sorted fs
    · intro p x hx
      rw [hby.index_eq] at hx
      have hkeeps := @keeps_seals ctx.wal x.loc (Describes x) (op.parts ctx) ctx.nextEpoch.2 hwrap
        h.ok (h.backed p x (stored_freezeIndexLoop.mp hx))
      rw [hby.wal_eq]
      exact hkeeps.of_log_eq hkeeps.managed le_rfl rfl

theorem faithful_releaseEpoch (h : Faithful ctx) (epoch : ℕ) : Faithful (ctx.releaseEpoch epoch) := by
  have hchain : ∀ p, ∀ i ∈ (ctx.releaseEpoch epoch).indexSet.chain p, i ∈ ctx.indexSet.chain p := by
    intro p i hi
    obtain hactive | ⟨hfrozen, -⟩ := (ReleasedIndexes.mem_chain_releaseLoop _ _ _ _).mp hi
    · rw [chain_of_active hactive]
      exact List.mem_cons_self
    · exact List.mem_append_right _ (List.mem_reverse.mpr hfrozen)
  refine ⟨h.ok, fun p i hi => h.sorted p i (hchain p i hi), ?_⟩
  rintro p x ⟨i, hi, hx⟩
  exact h.backed p x ⟨i, hchain p i hi, hx⟩

/-- A record of the scan stands at the locator of its replay. -/
theorem framed_replayed {content : Bytes} {f : FileId} {y : Scanned × ℕ}
    (hy : y ∈ (WalScanner.scan content).1) :
    ∃ d, decodeZfRecord d = .ok (y.1.header, y.1.key, y.1.value) ∧
      d <+: content.drop (replayedRef f y).offset := by
  obtain ⟨d, hdecode, -, hprefix⟩ := scan_sound hy
  have hd : Framed d := ⟨_, hdecode⟩
  have hlen : d.length = zfRecordLength y.1.header.keyLen y.1.header.valLen := by
    rw [header_of_decode hdecode]
    exact hd.length_eq.2
  refine ⟨d, hdecode, ?_⟩
  rw [replayedRef, ← hlen]
  exact hprefix

theorem faithful_recover {env : Env} {n target : ℕ}
    (hwal : ctx.wal = (PartitionedWalManager.create env n target).open_)
    (hindex : ctx.indexSet = {}) (hfiles : Managed env n) : Faithful ctx.recover := by
  have henv : ctx.wal.env = env := by
    rw [hwal]
    rfl
  have hucmp : ctx.recover.ucmp = ctx.ucmp := by
    rw [ZeroFlushContext.recover]
    split <;> exact (sameRest_replay _ _).ucmp_eq
  refine ⟨?_, ?_, ?_⟩
  · rw [wal_recover, hwal]
    refine ok_open (openable_create env n target ?_)
    intro g
    by_cases hex : env.exists? (kRangeDelPartId, g) = true
    · exact (hfiles _ (Env.mem_listFiles.mpr hex)).resolve_left fun hne => hne.2 rfl
    · exact Env.content_of_not_exists (by simpa using hex)
  · rw [hucmp]
    refine recover_induction ?_ fun s part f _ y _ hs => sorted_insertCreate hs
    exact (ensureActive_empty hindex ctx.recoverParts fun p => maxGen p ctx.wal.env.listFiles).1
  · intro p x hx
    obtain ⟨f, hf, y, hy, rfl⟩ := stored_recover hindex hx
    rw [henv] at hf hy
    have hlt : f.1 < n := by
      obtain h | hnil := hfiles f hf
      · exact h.1
      · rw [hnil] at hy
        cases hy
    rw [wal_recover, hwal]
    refine ⟨?_, ?_, .inl ?_⟩
    · show (PartitionedWalManager.create env n target).open_.parts.lookup f.1 ≠ none
      rw [lookup_openCreate, if_pos hlt]
      exact Option.some_ne_none _
    · show f.2 ≤ (PartitionedWalManager.create env n target).open_.activeGen f.1
      rw [activeGen_openCreate, if_pos hlt]
      exact le_maxGen hf
    · obtain ⟨d, hdecode, hprefix⟩ := framed_replayed (f := f) hy
      have hframed : Framed d := ⟨_, hdecode⟩
      refine ⟨d, hframed, ⟨y.1, hdecode, rfl, rfl, rfl⟩, hprefix.trans ?_⟩
      have hge := hframed.length_eq.1
      have hin := hprefix.length_le
      rw [List.length_drop] at hin
      show (env.content f).drop _ <+: (env.content f ++ _).drop (replayedRef f y).offset
      rw [List.drop_append_of_le_length (by omega)]
      exact List.prefix_append _ _

theorem faithful_start (zfo : ZeroFlushOptions) (ucmp : UserComparator) (tables : PartitionTableSet)
    (sampler : Option KeySampler) : Faithful (start zfo ucmp tables sampler) := by
  refine faithful_recover rfl rfl ?_
  intro f hf
  simp [Env.mem_listFiles] at hf

theorem faithful_step (ctx : ZeroFlushContext) (op : RoutedOp) (hok : StepOk ctx op)
    (h : Faithful ctx) : Faithful (ReleasedIndexes.step ctx op) := by
  cases op with
  | handOffSkipped epoch gens partBytes => exact ⟨h.ok, h.sorted, h.backed⟩
  | context op =>
    cases op with
    | addRecord r v rnd => exact faithful_addRecord h hok v rnd
    | sync part =>
      exact ⟨ok_sync h.ok part, h.sorted, fun p x hx => keeps_sync h.ok part (h.backed p x hx)⟩
    | freezeBatchPartitions l1 => exact @faithful_seal ctx h (.freezeBatchPartitions l1) hok
    | freezeOnePartition => exact @faithful_seal ctx h .freezeOnePartition hok
    | sealEpochAndSwitch l1 => exact @faithful_seal ctx h (.sealEpochAndSwitch l1) hok
    | releaseEpoch epoch => exact faithful_releaseEpoch h epoch
    | purgeSealedFiles =>
      obtain ⟨hokp, hkeeps⟩ := keeps_unlinks ctx.sealedCache.pendingUnlink h.ok hok
      exact ⟨hokp, h.sorted, fun p x hx => hkeeps x.loc _ (h.backed p x hx)⟩
    | reopen tables => exact faithful_recover rfl rfl hok
    | crash cut tables => exact faithful_recover rfl rfl hok

end steps

end ZeroFlush.BackedEntries
