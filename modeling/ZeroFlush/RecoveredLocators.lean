import ZeroFlush.ReleasedIndexes
import ZeroFlush.WalReferenceStability

/-! # Locators that can be read

A locator of an index can be read when it points at the bytes of a record in the log of its file.
`AddRecord` hands out such locators, and so does a replay of files with any content. -/
namespace ZeroFlush.RecoveredLocators
open FixedWidthCodec FiniteMaps WalFormat WalFiles PartitionedWal WalLogs WalOpening UserKeys
  PartitionIndexes IndexChains IndexContents PartitionTables SealedFiles SequentialScan Context
  ContextRuns SealedEpochs ReadPaths ManagerConsistency
open WalReferenceStability (Good)
open ReleasedIndexes (Stored)

/-- The scanner took the record from the bytes before its offset. -/
def FoundAt (content : Bytes) (x : Scanned × ℕ) : Prop :=
  ∃ d, decodeZfRecord d = .ok (x.1.header, x.1.key, x.1.value) ∧ d.length ≤ x.2 ∧
    d <+: content.drop (x.2 - d.length)

theorem header_of_decode {d k v : Bytes} {h : ZfRecordHeader}
    (hd : decodeZfRecord d = .ok (h, k, v)) : h = decodeHeader d := by
  rw [decodeZfRecord] at hd
  split at hd
  · cases hd
  · dsimp only at hd
    split at hd
    · cases hd
    · split at hd
      · cases hd
      · split at hd
        · cases hd
        · cases hd
          rfl

/-- A record that is handed out stood at the front of the pending bytes. -/
theorem nextBody_sound {s s' : WalScanner} {r : Scanned} (hs : s.Ready)
    (h : s.nextBody = (some r, s')) :
    ∃ d, decodeZfRecord d = .ok (r.header, r.key, r.value) ∧ d <+: s.pending ∧
      s'.Ready ∧ s'.offset = s.offset + d.length ∧ s'.pending = s.pending.drop d.length := by
  rw [WalScanner.nextBody] at h
  generalize zfRecordLength (decodeKeyValLen (s.buf.drop s.bufPos)).1
    (decodeKeyValLen (s.buf.drop s.bufPos)).2 = total at h
  have hready := WalScanner.ensure_ready (n := total) hs
  have hpend := WalScanner.ensure_pending total s
  have hoff := WalScanner.ensure_offset total s
  generalize s.ensure total = t at h hready hpend hoff
  split at h
  · cases h
  next henough =>
    rw [gt_iff_lt, not_lt] at henough
    have hlen : ((t.buf.drop t.bufPos).take total).length = total := by
      rw [List.length_take, List.length_drop]
      omega
    split at h
    · cases h
    next hdr k v hdecode =>
      obtain ⟨rfl, rfl⟩ : (⟨hdr, k, v⟩ : Scanned) = r ∧ _ = s' := by simpa using h
      refine ⟨(t.buf.drop t.bufPos).take total, hdecode, ?_, ⟨hready.isOpen, henough⟩, ?_, ?_⟩
      · rw [← hpend, WalScanner.take_buffered henough]
        exact List.take_prefix _ _
      · rw [hlen, ← hoff]
      · rw [hlen, ← hpend, WalScanner.pending, WalScanner.pending, List.drop_append_of_le_length,
          List.drop_drop]
        rw [List.length_drop]
        omega

theorem next_sound {s s' : WalScanner} {r : Scanned} (hs : s.Ready) (h : s.next = (some r, s')) :
    ∃ d, decodeZfRecord d = .ok (r.header, r.key, r.value) ∧ d <+: s.pending ∧
      s'.Ready ∧ s'.offset = s.offset + d.length ∧ s'.pending = s.pending.drop d.length := by
  rw [WalScanner.next] at h
  split at h
  · cases h
  · dsimp only at h
    split at h
    · split at h <;> cases h
    · have hbody := nextBody_sound (WalScanner.ensure_ready hs) h
      rwa [WalScanner.ensure_pending, WalScanner.ensure_offset] at hbody

/-- Everything a scan hands out stands in the file, whatever the file contains. -/
theorem scan_sound {content : Bytes} {x : Scanned × ℕ} (h : x ∈ (WalScanner.scan content).1) :
    FoundAt content x := by
  suffices key : ∀ fuel (s : WalScanner), s.Ready → s.pending = content.drop s.offset →
      ∀ x ∈ (WalScanner.drain fuel s).1, FoundAt content x from
    key _ _ ⟨rfl, le_rfl⟩ rfl x h
  intro fuel
  induction fuel with
  | zero => exact fun s _ _ x hx => absurd hx List.not_mem_nil
  | succ fuel ih =>
    intro s hs hp x hx
    rw [WalScanner.drain] at hx
    cases hn : s.next with
    | mk res s' =>
      rw [hn] at hx
      cases res with
      | none => cases hx
      | some r =>
        obtain ⟨d, hdecode, hprefix, hready, hoff, hpend⟩ := next_sound hs hn
        obtain rfl | hx := List.mem_cons.mp hx
        · refine ⟨d, hdecode, ?_, ?_⟩
          · dsimp only
            omega
          · dsimp only
            rw [hoff, Nat.add_sub_cancel, ← hp]
            exact hprefix
        · refine ih s' hready ?_ x hx
          rw [hpend, hp, hoff, List.drop_drop]

/-- A locator of a managed partition that points at a record. -/
structure Readable (m : PartitionedWalManager) (ref : WalRecordRef) : Prop where
  managed : m.parts.lookup ref.partId ≠ none
  placed : ∃ d, Framed d ∧ PlacedBytes m ref.file ref.offset d

variable {m m' : PartitionedWalManager} {ref : WalRecordRef} {ctx : ZeroFlushContext}

theorem Good.readable {a : WalRecordRef × WalRecord} (h : Good m a) : Readable m a.1 :=
  ⟨h.managed, _, framed_frame h.short, h.placed.bytes⟩

theorem PlacedBytes.mono {f : FileId} {off : ℕ} {d : Bytes} (h : PlacedBytes m f off d)
    (hd : Framed d) (he : Extends m m') : PlacedBytes m' f off d := by
  have hlen := h.inLog.length_le
  rw [List.length_drop] at hlen
  have hge := hd.length_eq.1
  refine ⟨h.inLog.trans ?_, ?_⟩
  · obtain ⟨t, ht⟩ := (he f).1
    rw [← ht, List.drop_append_of_le_length (by omega)]
    exact List.prefix_append _ _
  · obtain hc | hc := (he f).2
    · rw [hc]
      exact h.uncut
    · have hle := hc.length_le
      left
      omega

theorem Readable.mono (h : Readable m ref) (he : Extends m m')
    (hm : ∀ i, m.parts.lookup i ≠ none → m'.parts.lookup i ≠ none) : Readable m' ref := by
  obtain ⟨d, hd, hplaced⟩ := h.placed
  exact ⟨hm _ h.managed, d, hd, PlacedBytes.mono hplaced hd he⟩

/-- The flag and the counters are not read. -/
theorem Readable.congr (h : Readable m ref) (henv : m'.env = m.env) (hparts : m'.parts = m.parts) :
    Readable m' ref := by
  have hlog : ∀ f, log m' f = log m f := fun f => by rw [log, log, henv, hparts]
  obtain ⟨d, hd, hplaced⟩ := h.placed
  refine ⟨hparts ▸ h.managed, d, hd, hlog _ ▸ hplaced.inLog, ?_⟩
  rw [henv]
  exact hplaced.uncut

theorem ok_congr (h : Ok m) (henv : m'.env = m.env) (hparts : m'.parts = m.parts)
    (hn : m'.partitions = m.partitions) : Ok m' := by
  refine ⟨?_, ?_, ?_, ?_, ?_, ?_, ?_⟩
  · intro i p hp
    rw [henv]
    exact h.handles i p (hparts ▸ hp)
  · intro i p hp
    rw [henv]
    exact h.sizes i p (hparts ▸ hp)
  · intro i hi
    rw [hparts]
    exact h.table i (hn ▸ hi)
  · intro i p hp
    rw [hn]
    exact h.known i p (hparts ▸ hp)
  · intro i p hp hi
    rw [henv]
    exact h.newest i p (hparts ▸ hp) (hn ▸ hi)
  · intro i p hp
    rw [henv]
    exact h.later i p (hparts ▸ hp)
  · intro hnone
    rw [henv]
    exact h.unmanaged (hparts ▸ hnone)

/-- A file that stays can still be read when another one is unlinked. -/
theorem Readable.unlink (h : Readable m ref) {f : FileId} (hf : ref.file ≠ f) :
    Readable { m with env := m.env.deleteFile f } ref := by
  have hcontent : (m.env.deleteFile f).content ref.file = m.env.content ref.file := by
    rw [Env.content_deleteFile, if_neg hf]
  obtain ⟨d, hd, hplaced⟩ := h.placed
  refine ⟨h.managed, d, hd, ?_, ?_⟩
  · rw [log]
    dsimp only
    rw [hcontent]
    exact hplaced.inLog
  · dsimp only
    rw [hcontent]
    exact hplaced.uncut

/-- An append leaves what is there. -/
theorem readable_append (hok : Ok m) {part : ℕ} {r : WalRecord} {new : WalRecordRef}
    (h : m.append part r = (.ok new, m')) (href : Readable m ref) : Readable m' ref := by
  obtain ⟨p, hp, heq⟩ | ⟨e, heq⟩ := append_cases m part r
  · obtain ⟨-, rfl⟩ : (m.appendTo part p r).1 = new ∧ (m.appendTo part p r).2 = m' := by
      simpa using heq.symm.trans h
    have hpart : IsPartition m part p := hp.imp_right fun hn => ⟨hn.1, hn.2.2⟩
    exact href.mono (extends_appendTo hok.handles hpart r)
      fun i hi => WalReferenceStability.lookup_insert_ne_none hi
  · rw [h] at heq
    cases heq

/-- The freezes of a list of partitions leave what is there. -/
theorem readable_seals {ps : List ℕ} {se : SealedEpoch}
    (hwrap : ∀ p ∈ ps, m.activeGen p + ps.length < 2 ^ 32) (hok : Ok m) :
    Ok (ps.foldl sealWal (m, se)).1 ∧
      ∀ ref, Readable m ref → Readable (ps.foldl sealWal (m, se)).1 ref := by
  induction ps generalizing m se with
  | nil => exact ⟨hok, fun ref h => h⟩
  | cons p ps ih =>
    obtain ⟨hp, hrest⟩ := noWrap_freeze hwrap
    obtain ⟨hokps, hread⟩ := @ih (m.freeze p).2
      (ZeroFlushContext.registerGen se p ((m.freeze p).1.getD ⟨0, 0, (p, 0)⟩)) hrest
      (ok_freeze hok p hp)
    refine ⟨hokps, ?_⟩
    intro ref h
    exact hread ref (h.mono (extends_freeze hok p hp)
      fun i hi => WalReferenceStability.lookup_freeze_ne_none p hi)

/-- A partition with a readable record in its active generation has bytes. -/
theorem Readable.activeSize_pos (h : Readable m ref) (hok : Ok m)
    (hgen : ref.gen = m.activeGen ref.partId) : 0 < m.activeSize ref.partId := by
  obtain ⟨d, hd, hplaced⟩ := h.placed
  obtain ⟨q, hq⟩ := Option.ne_none_iff_exists'.mp h.managed
  have hactive : m.activeGen ref.partId = q.gen := by simp [PartitionedWalManager.activeGen, hq]
  have htotal : m.activeSize ref.partId = q.totalSize := by
    simp [PartitionedWalManager.activeSize, hq]
  have hsize := hok.sizes _ q hq
  have hlog := hplaced.inLog.length_le
  have hge := hd.length_eq.1
  rw [WalRecordRef.file, hgen, hactive, log_of_lookup hq, List.length_drop, List.length_append,
    ← hsize.flushed_eq, ← hsize.total_eq] at hlog
  omega

/-- The manager without the files whose removal is pending. -/
theorem readable_unlinks (files : List FileId) (hok : Ok m)
    (hold : ∀ f ∈ files, ∀ p, m.parts.lookup f.1 = some p → p.gen ≠ f.2) :
    Ok { m with env := files.foldl Env.deleteFile m.env } ∧
      ∀ ref, Readable m ref → ref.file ∉ files →
        Readable { m with env := files.foldl Env.deleteFile m.env } ref := by
  induction files generalizing m with
  | nil => exact ⟨hok, fun ref h _ => h⟩
  | cons f files ih =>
    have hfirst := ok_unlink hok (hold f List.mem_cons_self)
    obtain ⟨hrest, hreads⟩ := @ih { m with env := m.env.deleteFile f } hfirst
      fun g hg => hold g (List.mem_cons_of_mem _ hg)
    refine ⟨hrest, ?_⟩
    intro ref h hnot
    rw [List.mem_cons, not_or] at hnot
    exact hreads ref (h.unlink hnot.1) hnot.2

/-- A readable locator is read, whichever way the read goes. -/
theorem Readable.readValue (h : Readable m ref) (hok : Ok m) :
    ∃ v, ReadPaths.readValue m ref = .ok v := by
  obtain ⟨d, hd, hplaced⟩ := h.placed
  obtain ⟨p, hp⟩ := Option.ne_none_iff_exists'.mp h.managed
  obtain ⟨v, hv⟩ := hd.decodeValue_ok
  exact ⟨v, (readValue_of_placedBytes hp (hok.sizes _ p hp) hd hplaced).trans hv⟩

section stored
variable {s : PartitionIndexSet} {ucmp : UserComparator} {part gen p : ℕ} {e x : IndexEntry}

theorem stored_of_insertion {after : List PartitionIndex} (hins : Insertion ucmp gen e s part after)
    {i : PartitionIndex} (hi : i ∈ after) (hx : x ∈ i.entries) : x = e ∨ Stored s part x := by
  obtain hi | rfl | ⟨j, hj, -, rfl⟩ := hins.mem hi
  · exact .inr ⟨i, hi, hx⟩
  · rw [entries_inserted_empty, List.mem_singleton] at hx
    exact .inl hx
  · exact (mem_inserted hx).imp_right fun hx => ⟨j, hj, hx⟩

theorem stored_insert (h : Stored (s.insert ucmp part gen e) p x) :
    p = part ∧ x = e ∨ Stored s p x := by
  obtain ⟨hins, hother⟩ := chain_insert ucmp s part gen e
  obtain ⟨i, hi, hx⟩ := h
  cases eq_or_ne p part with
  | inl hp =>
    subst hp
    exact (stored_of_insertion hins hi hx).imp_left fun he => ⟨rfl, he⟩
  | inr hp => exact .inr ⟨i, hother p hp ▸ hi, hx⟩

/-- An insertion takes no entry away. -/
theorem stored_insert_of_stored (h : Stored s p x) : Stored (s.insert ucmp part gen e) p x := by
  obtain ⟨hins, hother⟩ := chain_insert ucmp s part gen e
  obtain ⟨i, hi, hx⟩ := h
  cases eq_or_ne p part with
  | inl hp =>
    subst hp
    obtain ⟨j, hj, -, hsub⟩ := hins.keeps hi
    exact ⟨j, hj, hsub hx⟩
  | inr hp => exact ⟨i, (hother p hp).symm ▸ hi, hx⟩

theorem stored_insertCreate (h : Stored (s.insertCreate ucmp part gen e) p x) :
    p = part ∧ x = e ∨ Stored s p x := by
  obtain ⟨hins, hother⟩ := chain_insertCreate ucmp s part gen e
  obtain ⟨i, hi, hx⟩ := h
  cases eq_or_ne p part with
  | inl hp =>
    subst hp
    exact (stored_of_insertion hins hi hx).imp_left fun he => ⟨rfl, he⟩
  | inr hp => exact .inr ⟨i, hother p hp ▸ hi, hx⟩

/-- A freeze neither adds entries nor takes any away. -/
theorem stored_freeze : Stored (s.freeze part gen) p x ↔ Stored s p x := by
  obtain ⟨⟨rest, hchain, hrest⟩, hother⟩ := chain_freeze s part gen
  cases eq_or_ne p part with
  | inl hp =>
    subst hp
    constructor
    · rintro ⟨i, hi, hx⟩
      rw [hchain, List.mem_cons] at hi
      obtain rfl | hi := hi
      · cases hx
      · obtain rfl | ⟨a, -, -, ha⟩ := hrest
        · exact ⟨i, hi, hx⟩
        · exact ⟨i, ha ▸ List.mem_cons_of_mem _ hi, hx⟩
    · rintro ⟨i, hi, hx⟩
      refine ⟨i, hchain ▸ List.mem_cons_of_mem _ ?_, hx⟩
      obtain rfl | ⟨a, -, hnil, ha⟩ := hrest
      · exact hi
      · rw [ha, List.mem_cons] at hi
        obtain rfl | hi := hi
        · rw [hnil] at hx
          cases hx
        · exact hi
  | inr hp => rw [Stored, Stored, hother p hp]

theorem stored_freezeIndexLoop {fs : List (ℕ × ℕ)} :
    Stored (freezeIndexLoop s fs) p x ↔ Stored s p x := by
  induction fs generalizing s with
  | nil => exact Iff.rfl
  | cons f fs ih => exact (@ih (s.freeze f.1 f.2)).trans stored_freeze

end stored

/-- The locator `Recover` makes for a record of a file. -/
def replayedRef (f : FileId) (y : Scanned × ℕ) : WalRecordRef :=
  ⟨f.1, f.2, y.2 - zfRecordLength y.1.header.keyLen y.1.header.valLen⟩

/-- The entry `Recover` makes for a record of a file. -/
def replayedEntry (f : FileId) (y : Scanned × ℕ) : IndexEntry :=
  ⟨y.1.key, y.1.header.seq.toNat % 2 ^ 56, y.1.header.type, replayedRef f y⟩

/-- What holds of the new indexes and is kept by every replayed record holds after `Recover`. -/
theorem recover_induction {P : PartitionIndexSet → Prop} (hstart : P ctx.ensureActives.indexSet)
    (hreplay : ∀ s part, ∀ f ∈ ctx.wal.env.listFiles,
      ∀ y ∈ (WalScanner.scan (ctx.wal.env.content f)).1, P s →
        P (s.insertCreate ctx.ucmp part f.2 (replayedEntry f y))) : P ctx.recover.indexSet := by
  obtain ⟨cache, hrec⟩ := recover_eq ctx
  set adopted : ZeroFlushContext := { ctx with sealedCache := cache }
  have hbase : P adopted.ensureActives.indexSet := hstart
  rw [hrec]
  refine (List.foldlRecOn (motive := fun d : ZeroFlushContext =>
    P d.indexSet ∧ d.wal = ctx.wal ∧ d.ucmp = ctx.ucmp) _ _ ⟨hbase, rfl, rfl⟩ ?_).1
  rintro d ⟨hd, hwal, hucmp⟩ f hf
  have hlisted : f ∈ ctx.wal.env.listFiles := (List.mem_insertionSort _).mp hf
  rw [ZeroFlushContext.replayFile, hwal]
  refine List.foldlRecOn (motive := fun d : ZeroFlushContext =>
    P d.indexSet ∧ d.wal = ctx.wal ∧ d.ucmp = ctx.ucmp) _ _ ⟨hd, hwal, hucmp⟩ ?_
  rintro d ⟨hd, hwal, hucmp⟩ y hy
  refine ⟨?_, hwal, hucmp⟩
  rw [ZeroFlushContext.replayRecord, hucmp]
  exact hreplay _ _ f hlisted y hy hd

/-- Every entry after `Recover` is the replay of a record of some file. -/
theorem stored_recover (hindex : ctx.indexSet = {}) {p : ℕ} {x : IndexEntry}
    (hx : Stored ctx.recover.indexSet p x) : ∃ f ∈ ctx.wal.env.listFiles,
      ∃ y ∈ (WalScanner.scan (ctx.wal.env.content f)).1, x = replayedEntry f y := by
  refine @recover_induction ctx (fun s => ∀ p x, Stored s p x → ∃ f ∈ ctx.wal.env.listFiles,
      ∃ y ∈ (WalScanner.scan (ctx.wal.env.content f)).1, x = replayedEntry f y) ?_ ?_ p x hx
  · rintro q z ⟨i, hi, hz⟩
    obtain ⟨-, -, -, hempty⟩ : Sorted ctx.ucmp ctx.ensureActives.indexSet ∧ _ :=
      ensureActive_empty hindex ctx.recoverParts fun p => maxGen p ctx.wal.env.listFiles
    rw [hempty q i hi] at hz
    cases hz
  · intro s part f hf y hy hs q z hz
    obtain ⟨-, rfl⟩ | hz := stored_insertCreate hz
    · exact ⟨f, hf, y, hy, rfl⟩
    · exact hs q z hz

/-- A replayed locator can be read if its partition is managed. -/
theorem readable_replayed {f : FileId} {y : Scanned × ℕ}
    (hy : y ∈ (WalScanner.scan (m.env.content f)).1) (hpart : m.parts.lookup f.1 ≠ none) :
    Readable m (replayedRef f y) := by
  obtain ⟨d, hdecode, hle, hprefix⟩ := scan_sound hy
  have hd : Framed d := ⟨_, hdecode⟩
  have hlen : d.length = zfRecordLength y.1.header.keyLen y.1.header.valLen := by
    have hheader : y.1.header = decodeHeader d := header_of_decode hdecode
    rw [hheader]
    exact hd.length_eq.2
  have hin := hprefix.length_le
  have hge := hd.length_eq.1
  rw [List.length_drop] at hin
  refine ⟨hpart, d, hd, ?_, .inl ?_⟩
  · rw [replayedRef, ← hlen]
    refine hprefix.trans ?_
    show (m.env.content f).drop (y.2 - d.length) <+: (m.env.content f ++ _).drop (y.2 - d.length)
    rw [List.drop_append_of_le_length (by omega)]
    exact List.prefix_append _ _
  · rw [replayedRef, ← hlen]
    show y.2 - d.length + d.length ≤ (m.env.content f).length
    omega

end ZeroFlush.RecoveredLocators
