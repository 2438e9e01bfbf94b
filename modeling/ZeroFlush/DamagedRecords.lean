import ZeroFlush.Context
import ZeroFlush.CyclicChecksums
import ZeroFlush.SealedBuffers

/-! # Damaged records

The checksum of a record is a cyclic one of 32 bits. A record that had been accepted and in which up
to four neighbouring bytes have changed is rejected by `DecodeZfRecord`, so no reader hands it out. -/
namespace ZeroFlush.DamagedRecords
open FixedWidthCodec WalFormat CyclicChecksums PartitionedWal SequentialScan WalScanner ReadPaths
  SealedBuffers Context

/-- The Castagnoli polynomial. -/
def castagnoli : BitVec 32 := 0x82f63b78#32

def ones : BitVec 32 := 0xffffffff#32

/-- Up to four neighbouring bytes are others. -/
def Burst (d d' : Bytes) : Prop :=
  ∃ front bs cs rear, d = front ++ bs ++ rear ∧ d' = front ++ cs ++ rear ∧
    bs.length = cs.length ∧ bs.length ≤ 4 ∧ bs ≠ cs

theorem Burst.length_eq {d d' : Bytes} (h : Burst d d') : d'.length = d.length := by
  obtain ⟨front, bs, cs, rear, rfl, rfl, hlen, -⟩ := h
  simp [hlen]

section Checksum
variable {d d' : Bytes} {out : ZfRecordHeader × Bytes × Bytes}

theorem toBitVec_crc32cBit (crc : UInt32) :
    (crc32cBit crc).toBitVec = shift castagnoli crc.toBitVec := by
  have hbit : crc &&& 1 = 1 ↔ crc.toBitVec.getLsbD 0 = true := by
    rw [getLsbD_zero_eq, ← UInt32.toNat_inj, UInt32.toNat_and]
    exact ⟨fun h => by simpa [Nat.and_one_is_mod] using h,
      fun h => by simpa [Nat.and_one_is_mod] using h⟩
  rw [crc32cBit, shift]
  by_cases h : crc &&& 1 = 1
  · rw [if_pos h, if_pos (hbit.mp h)]
    rfl
  · rw [if_neg h, if_neg fun hodd => h (hbit.mpr hodd)]
    rfl

theorem toBitVec_iterate (k : ℕ) (crc : UInt32) :
    (Nat.iterate crc32cBit k crc).toBitVec = shifts castagnoli k crc.toBitVec := by
  induction k generalizing crc with
  | zero => rfl
  | succ k ih => rw [Function.iterate_succ_apply, ih, toBitVec_crc32cBit, shifts]

theorem toBitVec_crc32cByte (crc : UInt32) (b : UInt8) :
    (crc32cByte crc b).toBitVec = feed castagnoli crc.toBitVec b := by
  have hb : b.toUInt32.toBitVec = BitVec.ofNat 32 b.toNat := by
    apply BitVec.eq_of_toNat_eq
    have hlt := b.toNat_lt
    rw [UInt32.toNat_toBitVec, UInt8.toNat_toUInt32, BitVec.toNat_ofNat, Nat.mod_eq_of_lt (by omega)]
  rw [crc32cByte, toBitVec_iterate, UInt32.toBitVec_xor, hb, feed]

theorem toBitVec_foldl (crc : UInt32) (bs : Bytes) :
    (bs.foldl crc32cByte crc).toBitVec = register castagnoli crc.toBitVec bs := by
  induction bs generalizing crc with
  | nil => rfl
  | cons b bs ih =>
    rw [List.foldl_cons, ih, toBitVec_crc32cByte]
    rfl

theorem toNat_crc32c (bs : Bytes) :
    (crc32c bs).toNat = (register castagnoli ones bs ^^^ ones).toNat := by
  rw [crc32c, ← UInt32.toNat_toBitVec, UInt32.toBitVec_xor, toBitVec_foldl]
  rfl

/-- The polynomial has its constant term. -/
theorem castagnoli_high : 2 ^ (32 - 1) ≤ castagnoli.toNat := by decide

/-- Over an accepted record and its checksum the register always comes to the same. -/
theorem register_of_decode (h : decodeZfRecord d = .ok out) :
    register castagnoli ones d = shifts castagnoli 32 ones := by
  rw [decodeZfRecord] at h
  split at h
  · cases h
  next hlong =>
    dsimp only at h
    split at h
    · cases h
    · split at h
      · cases h
      next hlen =>
        split at h
        · cases h
        next hcrc =>
          rw [not_not] at hlen hcrc
          have hlt : ((decodeHeader d).keyLen + (decodeHeader d).valLen) % 2 ^ 32 < 2 ^ 32 :=
            Nat.mod_lt _ (by decide)
          generalize ((decodeHeader d).keyLen + (decodeHeader d).valLen) % 2 ^ 32 = n at hlen hcrc hlt
          simp only [kZfHeaderSize, kZfCrcSize] at hlong hlen hcrc
          have hstored : (d.drop (24 + n)).length = 4 := by
            rw [List.length_drop]
            omega
          rw [fixedAt, List.take_of_length_le hstored.le, toNat_crc32c] at hcrc
          rw [← List.take_append_drop (24 + n) d, register_append]
          apply register_own
          · rw [hstored]
          · exact hcrc

theorem isCorruption_of_error {e : Status} (h : decodeZfRecord d = .error e) :
    ∃ text, e = .corruption text := by
  rw [decodeZfRecord] at h
  split at h
  · cases h
    exact ⟨_, rfl⟩
  · dsimp only at h
    split at h
    · cases h
      exact ⟨_, rfl⟩
    · split at h
      · cases h
        exact ⟨_, rfl⟩
      · split at h
        · cases h
          exact ⟨_, rfl⟩
        · cases h

theorem not_framed_of_burst (hd : Framed d) (h : Burst d d') : ¬ Framed d' := by
  rintro ⟨out', hout'⟩
  obtain ⟨out, hout⟩ := hd
  obtain ⟨front, bs, cs, rear, rfl, rfl, hlen, hshort, hne⟩ := h
  apply hne
  apply register_burst castagnoli_high ones hlen (by omega)
  exact (register_of_decode hout).trans (register_of_decode hout').symm

/-- Wherever up to four neighbouring bytes of an accepted record change, the sizes and the checksum
among them, the record is rejected. -/
theorem decode_burst (hd : decodeZfRecord d = .ok out) (h : Burst d d') :
    ∃ text, decodeZfRecord d' = .error (.corruption text) := by
  cases hdecode : decodeZfRecord d' with
  | error e =>
    obtain ⟨text, rfl⟩ := isCorruption_of_error hdecode
    exact ⟨text, rfl⟩
  | ok out' => exact absurd ⟨out', hdecode⟩ (not_framed_of_burst ⟨out, hd⟩ h)

/-- A put, and its bytes when the one of the key is another. -/
def storedPut : WalRecord := ⟨[1], [2], kTypeValue, 3⟩

def changedPut : Bytes := storedPut.frame.take 24 ++ [9] ++ storedPut.frame.drop 25

theorem burst_changedPut : Burst storedPut.frame changedPut :=
  ⟨storedPut.frame.take 24, [1], [9], storedPut.frame.drop 25, by decide +kernel, rfl, rfl,
    by decide, by decide⟩

theorem decode_burst_changedPut : ∃ text, decodeZfRecord changedPut = .error (.corruption text) :=
  decode_burst (decodeZfRecord_frame (by decide)) burst_changedPut

end Checksum

section Readers
variable {d d' data : Bytes} {rs rs' : List WalRecord} {r : WalRecord}

/-- What `ReadFromSealed` reads is an accepted record at the offset. -/
theorem framed_of_readFromSealed {ref : WalRecordRef} {v : Bytes}
    (h : readFromSealed data ref = .ok v) : ∃ e, Framed e ∧ e <+: data.drop ref.offset := by
  have hframed : ∀ {e : Bytes}, decodeValue e = .ok v → Framed e := by
    intro e he
    cases hdecode : decodeZfRecord e with
    | error status =>
      rw [decodeValue, hdecode] at he
      cases he
    | ok out => exact ⟨out, hdecode⟩
  rw [readFromSealed] at h
  dsimp only at h
  split at h
  · cases h
  · split at h
    next hone =>
      refine ⟨_, hframed h, ?_⟩
      exact (List.take_prefix _ _).trans (List.take_prefix _ _)
    next htwo =>
      split at h
      · cases h
      next hrest =>
        refine ⟨_, hframed h, ?_⟩
        have hsplit := List.prefix_iff_eq_append.mp
          (List.take_prefix (kZfHeaderSize + 4096) (data.drop ref.offset))
        rw [List.drop_drop] at hsplit
        conv => rhs; rw [← hsplit]
        exact (List.prefix_append_right_inj _).mpr (List.take_prefix _ _)

/-- Another record cannot be read off the place of a damaged one. -/
theorem framed_prefix_burst (hd : Framed d) (h : Burst d d')
    (hlens : decodeKeyValLen d' = decodeKeyValLen d) {e : Bytes} (he : Framed e) :
    ¬ e <+: d' ++ data := by
  intro hprefix
  obtain ⟨hge, hsize⟩ := hd.length_eq
  have hlong : 24 ≤ d'.length := by
    rw [h.length_eq]
    omega
  have hheader := decodeHeader_append hlong data
  have hsame : decodeKeyValLen (d' ++ data) = decodeKeyValLen d' :=
    Prod.ext (congrArg ZfRecordHeader.keyLen hheader) (congrArg ZfRecordHeader.valLen hheader)
  have hwhole : 24 ≤ (d' ++ data).length := by
    rw [List.length_append]
    omega
  have hlen := he.lens hprefix hwhole
  rw [List.take_length, hsame, hlens, ← hsize, ← h.length_eq] at hlen
  have heq : e = d' := by
    rw [← take_of_isPrefix hprefix, ← hlen, List.take_left]
  exact not_framed_of_burst hd h (heq ▸ he)

theorem isCorruption_of_decodeValue {e : Bytes} {status : Status}
    (h : decodeValue e = .error status) : ∃ text, status = .corruption text := by
  cases hdecode : decodeZfRecord e with
  | error status' =>
    rw [decodeValue, hdecode] at h
    cases h
    exact isCorruption_of_error hdecode
  | ok out =>
    rw [decodeValue, hdecode] at h
    cases h

theorem isCorruption_of_readFromSealed {ref : WalRecordRef} {status : Status}
    (h : readFromSealed data ref = .error status) : ∃ text, status = .corruption text := by
  rw [readFromSealed] at h
  dsimp only at h
  split at h
  · cases h
    exact ⟨_, rfl⟩
  · split at h
    · exact isCorruption_of_decodeValue h
    · split at h
      · cases h
        exact ⟨_, rfl⟩
      · exact isCorruption_of_decodeValue h

/-- What the scanner hands out is an accepted record at the front of what is left. -/
theorem framed_of_next {s : WalScanner} {x : Scanned} (h : s.next.1 = some x) :
    ∃ e, Framed e ∧ e <+: s.pending := by
  rw [next] at h
  split at h
  · cases h
  · dsimp only at h
    split at h
    · split at h <;> cases h
    · rw [nextBody] at h
      split at h
      · cases h
      next hroom =>
        split at h
        next => cases h
        next hdr key value hdecode =>
          rw [take_buffered (not_lt.mp hroom), ensure_pending, ensure_pending] at hdecode
          exact ⟨_, ⟨_, hdecode⟩, List.take_prefix _ _⟩

/-- The scanner says why it stops in front of bytes that are left. -/
theorem isCorruption_of_next {s : WalScanner} (hs : s.Ready) (hlong : kZfHeaderSize ≤ s.pending.length)
    (h : s.next.1 = none) : ∃ text, s.next.2.status = some (.corruption text) := by
  have hopen : s.file.isNone = false := by simpa using hs.isOpen
  have henough := ensure_enough (s := s) (by decide) hlong
  rw [next, hopen, if_neg (by decide)] at h ⊢
  rw [if_neg (not_lt.mpr henough), nextBody] at h ⊢
  split at h
  next hshort =>
    rw [if_pos hshort]
    exact ⟨_, rfl⟩
  next hroom =>
    rw [if_neg hroom]
    split at h
    next e hdecode =>
      obtain ⟨text, rfl⟩ := isCorruption_of_error hdecode
      exact ⟨text, rfl⟩
    next => cases h

theorem isCorruption_of_loadFrom {fuel pos : ℕ} {status : Status}
    (h : SealedGenBuffer.loadFrom data fuel pos = .error status) :
    ∃ text, status = .corruption text := by
  induction fuel generalizing pos with
  | zero => cases h
  | succ fuel ih =>
    rw [SealedGenBuffer.loadFrom] at h
    split at h
    · split at h
      · cases h
        exact ⟨_, rfl⟩
      · dsimp only at h
        split at h
        · cases h
          exact ⟨_, rfl⟩
        · split at h
          · cases h
            exact ⟨_, rfl⟩
          · split at h
            next e hdecode =>
              cases h
              exact isCorruption_of_error hdecode
            next hdecode =>
              generalize zfRecordLength _ _ = total at h
              cases hrest : SealedGenBuffer.loadFrom data fuel (pos + total) with
              | error status' =>
                rw [hrest] at h
                cases h
                exact ih hrest
              | ok records =>
                rw [hrest] at h
                cases h
    · cases h

/-- Behind frames a sequence of frames goes on with one. -/
theorem framed_of_flatMap {ds : List Frame} {tail : Bytes}
    (hrs : ∀ r ∈ rs, r.frameLength ≤ kScanChunkSize) (htail : tail ≠ [])
    (h : rs.flatMap WalRecord.frame ++ tail = ds.flatMap Frame.bytes) :
    ∃ e, Framed e ∧ e <+: tail := by
  induction rs generalizing ds with
  | nil =>
    cases ds with
    | nil => exact absurd h htail
    | cons d ds => exact ⟨d.bytes, d.framed, ds.flatMap Frame.bytes, h.symm⟩
  | cons r rs ih =>
    have hr : Framed r.frame :=
      ⟨_, decodeZfRecord_frame (frameLength_lt_of_le_chunk (hrs r List.mem_cons_self))⟩
    rw [List.flatMap_cons, List.append_assoc] at h
    cases ds with
    | nil =>
      have hlen := congrArg List.length h
      have hge := hr.length_eq.1
      rw [List.length_append, List.flatMap_nil, List.length_nil] at hlen
      omega
    | cons d ds =>
      rw [List.flatMap_cons] at h
      have hsame : r.frame = d.bytes :=
        eq_of_framed_prefix hr d.framed ⟨_, h⟩ (List.prefix_append _ _)
      rw [hsame] at h
      exact ih (fun q hq => hrs q (List.mem_cons_of_mem _ hq)) (List.append_cancel_left h)

/-- A damaged record whose sizes are intact ends every walk over its file: the scanner hands out
the records in front of it and no other, and its status is Corruption; the file is not loaded as a
whole; the record is not read by its locator. `Recover`, which does not look at the status, indexes
the records in front and none behind. -/
theorem readers_stop_at_damage {rear : Bytes} (hrs : ∀ r ∈ rs, r.frameLength ≤ kScanChunkSize)
    (hd : Framed d) (h : Burst d d') (hlens : decodeKeyValLen d' = decodeKeyValLen d)
    (hdata : data = rs.flatMap WalRecord.frame ++ (d' ++ rear)) :
    (scan data).1 = offsets 0 rs ∧ (∃ text, (scan data).2.status = some (.corruption text)) ∧
      (∃ text, SealedGenBuffer.load data = .error (.corruption text)) ∧
      (∀ part gen, ∃ text,
        readFromSealed data ⟨part, gen, (rs.flatMap WalRecord.frame).length⟩ =
          .error (.corruption text)) ∧
      ∀ (ctx : ZeroFlushContext) (f : WalFiles.FileId), ctx.wal.env.content f = data →
        ctx.replayFile f = (offsets 0 rs).foldl (ZeroFlushContext.replayRecord f) ctx := by
  subst hdata
  have hnone : ∀ {e : Bytes}, Framed e → ¬ e <+: d' ++ rear :=
    fun he => framed_prefix_burst hd h hlens he
  have hlong : 28 ≤ (d' ++ rear).length := by
    have hge := hd.length_eq.1
    rw [List.length_append, h.length_eq]
    omega
  have hstop : ∀ s : WalScanner, s.Ready → s.pending = d' ++ rear → s.next.1 = none := by
    intro s _ hp
    cases hnext : s.next.1 with
    | none => rfl
    | some x =>
      obtain ⟨e, he, hprefix⟩ := framed_of_next hnext
      exact absurd (hp ▸ hprefix) (hnone he)
  obtain ⟨s, hs, hpending, -, hscan⟩ := scan_frames_append _ hrs hstop
  have hfirst : (scan (rs.flatMap WalRecord.frame ++ (d' ++ rear))).1 = offsets 0 rs := by
    rw [hscan]
  refine ⟨hfirst, ?_, ?_, ?_, ?_⟩
  · rw [hscan]
    apply isCorruption_of_next hs _ (hstop s hs hpending)
    rw [hpending]
    exact le_trans (by decide) hlong
  · cases hload : SealedGenBuffer.load (rs.flatMap WalRecord.frame ++ (d' ++ rear)) with
    | error status =>
      rw [SealedGenBuffer.load] at hload
      cases hfrom : SealedGenBuffer.loadFrom (rs.flatMap WalRecord.frame ++ (d' ++ rear))
          ((rs.flatMap WalRecord.frame ++ (d' ++ rear)).length + 1) 0 with
      | error status' =>
        rw [hfrom] at hload
        cases hload
        obtain ⟨text, rfl⟩ := isCorruption_of_loadFrom hfrom
        exact ⟨text, rfl⟩
      | ok records =>
        rw [hfrom] at hload
        cases hload
    | ok buf =>
      obtain ⟨ds, hds, -⟩ := load_spec hload
      have htail : d' ++ rear ≠ [] := List.ne_nil_of_length_pos (by omega)
      obtain ⟨e, he, hprefix⟩ := framed_of_flatMap hrs htail hds
      exact absurd hprefix (hnone he)
  · intro part gen
    cases hread : readFromSealed (rs.flatMap WalRecord.frame ++ (d' ++ rear))
        ⟨part, gen, (rs.flatMap WalRecord.frame).length⟩ with
    | error status =>
      obtain ⟨text, rfl⟩ := isCorruption_of_readFromSealed hread
      exact ⟨text, rfl⟩
    | ok v =>
      obtain ⟨e, he, hprefix⟩ := framed_of_readFromSealed hread
      rw [List.drop_left] at hprefix
      exact absurd hprefix (hnone he)
  · intro ctx f hcontent
    rw [ZeroFlushContext.replayFile, hcontent, hfirst]

theorem readers_stop_at_changedPut :
    (scan ([storedPut].flatMap WalRecord.frame ++ (changedPut ++ storedPut.frame))).1 =
      offsets 0 [storedPut] :=
  (readers_stop_at_damage (by decide) ⟨_, decodeZfRecord_frame (by decide)⟩ burst_changedPut
    (by decide +kernel) rfl).1

end Readers

end ZeroFlush.DamagedRecords
