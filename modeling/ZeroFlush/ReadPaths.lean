import ZeroFlush.WalLogs

/-! # The three ways to read a record by its reference

A frame is read from the buffer, from the active file or from a sealed file. -/
namespace ZeroFlush.ReadPaths
open FixedWidthCodec FiniteMaps WalFormat WalFiles PartitionedWal WalLogs

/-- `ReadValue` without its value cache: the active file or a sealed one. -/
def readValue (m : PartitionedWalManager) (ref : WalRecordRef) : Except Status Bytes :=
  if m.hasPartition ref.partId = false then .error (.corruption "ZeroFlush: bad part_id")
  else if ref.gen = m.activeGen ref.partId then m.readRecord ref
  else readFromSealed (m.env.content ref.file) ref

/-- What a reader of the record must get. -/
def valueOf (r : WalRecord) : Bytes := if r.type = kTypeDeletion then [] else r.value

/-- The frame of `r` stands at `off`, and a flush has not cut through it. -/
structure Placed (m : PartitionedWalManager) (f : FileId) (off : ℕ) (r : WalRecord) : Prop where
  inLog : r.frame <+: (log m f).drop off
  uncut : off + r.frameLength ≤ (m.env.content f).length ∨ (m.env.content f).length ≤ off

/-- The bytes `d` stand at `off`, and a flush has not cut through them. -/
structure PlacedBytes (m : PartitionedWalManager) (f : FileId) (off : ℕ) (d : Bytes) : Prop where
  inLog : d <+: (log m f).drop off
  uncut : off + d.length ≤ (m.env.content f).length ∨ (m.env.content f).length ≤ off

theorem Placed.bytes {m : PartitionedWalManager} {f : FileId} {off : ℕ} {r : WalRecord}
    (h : Placed m f off r) : PlacedBytes m f off r.frame := by
  refine ⟨h.inLog, ?_⟩
  rw [length_frame]
  exact h.uncut

/-- A reader accepts the bytes as one record. -/
def Framed (d : Bytes) : Prop := ∃ x, decodeZfRecord d = .ok x

theorem framed_frame {r : WalRecord} (h : r.frameLength < 2 ^ 32) : Framed r.frame :=
  ⟨_, decodeZfRecord_frame h⟩

theorem decodeValue_frame {r : WalRecord} (h : r.frameLength < 2 ^ 32) :
    decodeValue r.frame = .ok (valueOf r) := by
  simp [decodeValue, decodeZfRecord_frame h, valueOf, WalRecord.header]

theorem frameLength_ge (r : WalRecord) : 28 ≤ r.frameLength := by
  simp only [WalRecord.frameLength]
  omega

theorem length_of_prefix {r : WalRecord} {data : Bytes} (h : r.frame <+: data) :
    r.frameLength ≤ data.length := by
  rw [← length_frame]
  exact h.length_le

section framed
variable {d data : Bytes}

theorem Framed.decodeValue_ok (h : Framed d) : ∃ v, decodeValue d = .ok v := by
  obtain ⟨x, hx⟩ := h
  rw [decodeValue, hx]
  exact ⟨_, rfl⟩

/-- An accepted record has the length its header gives. -/
theorem Framed.length_eq (h : Framed d) : 28 ≤ d.length ∧
    d.length = zfRecordLength (decodeKeyValLen d).1 (decodeKeyValLen d).2 := by
  obtain ⟨x, hx⟩ := h
  rw [decodeZfRecord] at hx
  split at hx
  · cases hx
  next hlong =>
    dsimp only at hx
    split at hx
    · cases hx
    · split at hx
      · cases hx
      next hlen =>
        rw [not_not] at hlen
        simp only [kZfHeaderSize, kZfCrcSize] at hlong hlen
        simp only [zfRecordLength, kZfHeaderSize, kZfCrcSize, decodeKeyValLen]
        simp only [decodeHeader] at hlen
        exact ⟨by omega, by omega⟩

theorem take_of_isPrefix (h : d <+: data) : data.take d.length = d :=
  (List.prefix_iff_eq_take.mp h).symm

/-- The header of an accepted record gives its length to whoever reads 24 bytes. -/
theorem Framed.lens (hd : Framed d) (h : d <+: data) {n : ℕ} (hn : 24 ≤ n) :
    zfRecordLength (decodeKeyValLen (data.take n)).1 (decodeKeyValLen (data.take n)).2 =
      d.length := by
  obtain ⟨hge, hlen⟩ := hd.length_eq
  have hat : ∀ i, i + 4 ≤ 24 → fixedAt 4 i (data.take n) = fixedAt 4 i d := by
    intro i hi
    obtain ⟨rest, rfl⟩ := h
    rw [fixedAt, fixedAt, List.drop_take, List.take_take, min_eq_left (by omega),
      List.drop_append_of_le_length (by omega), List.take_append_of_le_length]
    rw [List.length_drop]
    omega
  rw [decodeKeyValLen, hat 8 (by decide), hat 12 (by decide)]
  exact hlen.symm

/-- Two frames at one place are the same. -/
theorem eq_of_framed_prefix {e : Bytes} (hd : Framed d) (he : Framed e) (hdp : d <+: data)
    (hep : e <+: data) : d = e := by
  have hlen : d.length = e.length :=
    (hd.lens hdp (le_refl 24)).symm.trans (he.lens hep (le_refl 24))
  rw [← take_of_isPrefix hdp, hlen, take_of_isPrefix hep]

/-- A record in a sealed file is read back, in one read or in two. -/
theorem readFromSealed_of_prefix {ref : WalRecordRef} (hd : Framed d)
    (h : d <+: data.drop ref.offset) : readFromSealed data ref = decodeValue d := by
  have hlen := h.length_le
  have hge := hd.length_eq.1
  have htake := take_of_isPrefix h
  have hlens := hd.lens h (n := kZfHeaderSize + 4096) (by decide)
  have hlong : ¬ ((data.drop ref.offset).take (kZfHeaderSize + 4096)).length < kZfHeaderSize := by
    rw [List.length_take]
    simp only [kZfHeaderSize]
    omega
  simp only [readFromSealed, hlens]
  rw [if_neg hlong]
  by_cases hone : d.length ≤ ((data.drop ref.offset).take (kZfHeaderSize + 4096)).length
  · have hle : d.length ≤ kZfHeaderSize + 4096 := by
      rw [List.length_take] at hone
      omega
    rw [if_pos hone, List.take_take, min_eq_left hle, htake]
  · have hfull : ((data.drop ref.offset).take (kZfHeaderSize + 4096)).length =
        kZfHeaderSize + 4096 := by
      rw [List.length_take] at hone ⊢
      omega
    rw [if_neg hone, hfull]
    have hrest : ¬ ((data.drop (ref.offset + (kZfHeaderSize + 4096))).take
        (d.length - (kZfHeaderSize + 4096))).length < d.length - (kZfHeaderSize + 4096) := by
      rw [List.length_take, List.length_drop]
      rw [List.length_drop] at hlen
      omega
    rw [if_neg hrest, ← List.drop_drop, ← List.take_add, Nat.add_sub_cancel', htake]
    omega

theorem prefix_of_prefix_append {a b : Bytes} {off : ℕ} (h : d <+: (a ++ b).drop off)
    (hle : off + d.length ≤ a.length) : d <+: a.drop off := by
  rw [List.drop_append_of_le_length (by omega)] at h
  refine List.prefix_of_prefix_length_le h (List.prefix_append _ _) ?_
  rw [List.length_drop]
  omega

end framed

/-- The sizes and the read handle of a partition follow its active file. -/
structure SizeOk (env : Env) (i : ℕ) (p : Partition) : Prop where
  flushed_eq : p.flushedSize = (env.content (i, p.gen)).length
  total_eq : p.totalSize = p.flushedSize + p.buf.length
  rfile_eq : ∀ f, p.rfile = some f → f = (i, p.gen)
  rfile_open : p.wfile ≠ none ∨ 0 < p.flushedSize → p.rfile ≠ none
  rfile_exists : p.rfile ≠ none → env.exists? (i, p.gen) = true

variable {m m' : PartitionedWalManager} {i : ℕ} {p q : Partition}

theorem log_of_lookup (hp : m.parts.lookup i = some p) :
    log m (i, p.gen) = m.env.content (i, p.gen) ++ p.buf := by
  simp [log, buffered_of_lookup hp]

/-- A record that is still buffered is read from the buffer. -/
theorem readRecord_buffered (hp : m.parts.lookup i = some p) {off : ℕ} {d : Bytes} (hd : Framed d)
    (hoff : p.flushedSize ≤ off) (h : d <+: p.buf.drop (off - p.flushedSize)) :
    m.readRecord ⟨i, p.gen, off⟩ = decodeValue d := by
  have hlen := h.length_le
  have hge := hd.length_eq.1
  rw [List.length_drop] at hlen
  have hlens := hd.lens h (n := (p.buf.drop (off - p.flushedSize)).length) (by simp; omega)
  rw [List.take_length] at hlens
  have hhead : ¬ off - p.flushedSize + kZfHeaderSize > p.buf.length := by
    simp only [kZfHeaderSize]
    omega
  have hbody : ¬ off - p.flushedSize + d.length > p.buf.length := by omega
  simp only [PartitionedWalManager.readRecord, hp, ge_iff_le, hoff, if_true, hlens]
  rw [if_neg hhead, if_neg hbody, take_of_isPrefix h]

/-- A flushed record is read from the active file. -/
theorem readRecord_flushed (hp : m.parts.lookup i = some p) {off : ℕ} {d : Bytes} (hd : Framed d)
    (hoff : off < p.flushedSize) (hrf : p.rfile = some (i, p.gen))
    (h : d <+: (m.env.content (i, p.gen)).drop off) :
    m.readRecord ⟨i, p.gen, off⟩ = decodeValue d := by
  have hlen := h.length_le
  have hge := hd.length_eq.1
  have hlens := hd.lens h (n := kZfHeaderSize) (by decide)
  have hhead : (((m.env.content (i, p.gen)).drop off).take kZfHeaderSize).length =
      kZfHeaderSize := by
    rw [List.length_take]
    simp only [kZfHeaderSize]
    omega
  have hrest : ¬ (((m.env.content (i, p.gen)).drop (off + kZfHeaderSize)).take
      (d.length - kZfHeaderSize)).length < d.length - kZfHeaderSize := by
    rw [List.length_take, List.length_drop]
    rw [List.length_drop] at hlen
    omega
  simp only [PartitionedWalManager.readRecord, hp, ge_iff_le, not_le.mpr hoff, if_false, hrf,
    hlens]
  rw [if_neg (by rw [hhead]; omega), if_neg hrest, ← List.drop_drop, ← List.take_add,
    Nat.add_sub_cancel', take_of_isPrefix h]
  simp only [kZfHeaderSize]
  omega

/-- Every placed record of a managed partition is read back. -/
theorem readValue_of_placedBytes (hp : m.parts.lookup i = some p) (hs : SizeOk m.env i p) {g off : ℕ}
    {d : Bytes} (hd : Framed d) (hplaced : PlacedBytes m (i, g) off d) :
    readValue m ⟨i, g, off⟩ = decodeValue d := by
  have hhas : m.hasPartition i = true := by simp [PartitionedWalManager.hasPartition, hp]
  have hgen : m.activeGen i = p.gen := by simp [PartitionedWalManager.activeGen, hp]
  unfold readValue
  rw [if_neg (by simp [hhas])]
  by_cases hg : g = p.gen
  · subst hg
    rw [if_pos hgen.symm]
    have hlog := hplaced.inLog
    rw [log_of_lookup hp] at hlog
    rcases hplaced.uncut with hin | hout
    · have hge := hd.length_eq.1
      have hoff : off < p.flushedSize := by
        rw [hs.flushed_eq]
        omega
      obtain ⟨f, hf⟩ := Option.ne_none_iff_exists'.mp (hs.rfile_open (.inr (by omega)))
      have hrf := hs.rfile_eq f hf
      exact readRecord_flushed hp hd hoff (hf.trans (congrArg some hrf))
        (prefix_of_prefix_append hlog hin)
    · rw [← hs.flushed_eq] at hout
      refine readRecord_buffered hp hd hout ?_
      rwa [List.drop_append, List.drop_eq_nil_of_le (by rw [← hs.flushed_eq]; exact hout),
        List.nil_append, ← hs.flushed_eq] at hlog
  · rw [if_neg (by simpa [hgen] using hg)]
    have hbuf : buffered m.parts (i, g) = [] := by
      rw [buffered_of_lookup hp _ rfl, if_neg (fun he => hg he.symm)]
    have hlog := hplaced.inLog
    rw [log, hbuf, List.append_nil] at hlog
    exact readFromSealed_of_prefix hd hlog

theorem readValue_of_placed (hp : m.parts.lookup i = some p) (hs : SizeOk m.env i p) {g off : ℕ}
    {r : WalRecord} (hr : r.frameLength < 2 ^ 32) (hplaced : Placed m (i, g) off r) :
    readValue m ⟨i, g, off⟩ = .ok (valueOf r) := by
  rw [readValue_of_placedBytes hp hs (framed_frame hr) hplaced.bytes, decodeValue_frame hr]

theorem SizeOk.congr {env env' : Env} (h : SizeOk env i p)
    (hc : env'.content (i, p.gen) = env.content (i, p.gen))
    (he : env.exists? (i, p.gen) = true → env'.exists? (i, p.gen) = true) : SizeOk env' i p :=
  ⟨by rw [hc]; exact h.flushed_eq, h.total_eq, h.rfile_eq, h.rfile_open,
    fun hr => he (h.rfile_exists hr)⟩

theorem SizeOk.ensureOpenForWrite {env : Env} (hh : HandleOk env i p) (h : SizeOk env i p) :
    SizeOk (PartitionedWal.ensureOpenForWrite env p).1 i
      (PartitionedWal.ensureOpenForWrite env p).2 := by
  unfold PartitionedWal.ensureOpenForWrite
  split
  · exact h
  · refine ⟨by simpa using h.flushed_eq, h.total_eq, ?_, by simp,
      fun _ => by simp [Env.exists?_reopenWritableFile, hh.file_eq]⟩
    intro f hf
    cases hr : p.rfile with
    | none => simpa [hr, hh.file_eq] using hf.symm
    | some g =>
      have hg := h.rfile_eq g hr
      simpa [hr, hg] using hf.symm

theorem SizeOk.flushBuf {env : Env} (hh : HandleOk env i p) (h : SizeOk env i p) :
    SizeOk (PartitionedWal.flushBuf env p).1 i (PartitionedWal.flushBuf env p).2 := by
  by_cases hb : p.buf = []
  · rwa [flushBuf_nil hb]
  · have hopen := hh.buf_open hb
    have hcontent := hh.flushBuf_content (i, p.gen)
    obtain ⟨f, hf⟩ := Option.ne_none_iff_exists'.mp hopen
    rw [flushBuf_open hb hf] at hcontent ⊢
    refine ⟨?_, by simp, h.rfile_eq, fun _ => h.rfile_open (.inl hopen),
      fun hr => by simpa using h.rfile_exists hr⟩
    rw [hcontent, if_pos rfl, List.length_append, ← h.flushed_eq]
    exact h.total_eq

theorem SizeOk.bufferedPartition {env : Env} (hh : HandleOk env i p) (h : SizeOk env i p)
    (r : WalRecord) :
    SizeOk (PartitionedWal.ensureOpenForWrite env p).1 i (WalLogs.bufferedPartition env p r) := by
  have ho := SizeOk.ensureOpenForWrite hh h
  refine ⟨ho.flushed_eq, ?_, ho.rfile_eq, ho.rfile_open, ho.rfile_exists⟩
  have ht := ho.total_eq
  simp only [WalLogs.bufferedPartition, List.length_append] at ht ⊢
  omega

theorem SizeOk.maybeFlush {env : Env} (hh : HandleOk env i q) (h : SizeOk env i q) :
    SizeOk (WalLogs.maybeFlush env q).1 i (WalLogs.maybeFlush env q).2 := by
  unfold WalLogs.maybeFlush
  split_ifs
  · exact h.flushBuf hh
  · exact h

theorem sizeOk_fresh {env : Env} (h : env.content (i, 0) = []) : SizeOk env i { partId := i } :=
  ⟨by simp [h], by simp, by simp, by simp, by simp⟩

end ZeroFlush.ReadPaths
