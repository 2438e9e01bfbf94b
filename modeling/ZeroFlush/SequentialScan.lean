import ZeroFlush.WalFormat
import ZeroFlush.ConcatenatedFrames

/-! # The sequential scanner of a partition file

The scanner reads the file in blocks of 1 MiB. `pending` is what it has not handed out yet,
whether the bytes are already in its buffer or not. -/
namespace ZeroFlush.SequentialScan
open FixedWidthCodec WalFormat ConcatenatedFrames

def kScanChunkSize : ℕ := 2 ^ 20

/-- `file` is the unread rest of the sequential file, or `none` when it could not be opened. -/
structure WalScanner where
  file : Option Bytes
  buf : Bytes := []
  bufPos : ℕ := 0
  offset : ℕ := 0
  status : Option Status := none
  deriving DecidableEq, Repr

structure Scanned where
  header : ZfRecordHeader
  key : Bytes
  value : Bytes
  deriving DecidableEq, Repr

namespace WalScanner

/-- Move the unconsumed bytes to the front of the buffer and read one more block. -/
def refill (s : WalScanner) : WalScanner :=
  let rest := s.file.getD []
  { s with
    file := s.file.map (List.drop kScanChunkSize)
    buf := s.buf.drop s.bufPos ++ rest.take kScanChunkSize
    bufPos := 0 }

/-- At most one refill: a record may still be incomplete after it. -/
def ensure (n : ℕ) (s : WalScanner) : WalScanner :=
  if s.bufPos + n > s.buf.length then s.refill else s

/-- The record at the read position, whose first 24 bytes are in the buffer. -/
def nextBody (s : WalScanner) : Option Scanned × WalScanner :=
  let lens := decodeKeyValLen (s.buf.drop s.bufPos)
  let total := zfRecordLength lens.1 lens.2
  let s := s.ensure total
  if s.bufPos + total > s.buf.length then
    (none, { s with
      status := some (.corruption "ZeroFlush: truncated record in sealed WAL") })
  else
    match decodeZfRecord ((s.buf.drop s.bufPos).take total) with
    | .error e => (none, { s with status := some e })
    | .ok (h, k, v) =>
      (some ⟨h, k, v⟩, { s with offset := s.offset + total, bufPos := s.bufPos + total })

def next (s : WalScanner) : Option Scanned × WalScanner :=
  if s.file.isNone then
    (none, { s with status := some (.ioError "ZeroFlush: scanner file not open") })
  else
    let s := s.ensure kZfHeaderSize
    if s.bufPos + kZfHeaderSize > s.buf.length then
      -- an empty buffer is a clean end of file
      if s.buf.length > 0 then
        (none, { s with
          status := some (.corruption "ZeroFlush: truncated record header in sealed WAL") })
      else (none, s)
    else s.nextBody

/-- `while (scanner.Next(..))`: the records with `offset()` after each of them. -/
def drain : ℕ → WalScanner → List (Scanned × ℕ) × WalScanner
  | 0, s => ([], s)
  | fuel + 1, s =>
    match s.next with
    | (none, s') => ([], s')
    | (some r, s') =>
      let rest := drain fuel s'
      ((r, s'.offset) :: rest.1, rest.2)

/-- Every record takes 28 bytes, so this many rounds reach the end of the file. -/
def scan (content : Bytes) : List (Scanned × ℕ) × WalScanner :=
  drain (content.length + 1) { file := some content }

/-- The bytes not yet handed out. -/
def pending (s : WalScanner) : Bytes := s.buf.drop s.bufPos ++ s.file.getD []

/-- The file is open and the read position lies in the buffer. -/
structure Ready (s : WalScanner) : Prop where
  isOpen : s.file.isSome
  bufPos_le : s.bufPos ≤ s.buf.length

theorem refill_pending (s : WalScanner) : s.refill.pending = s.pending := by
  cases h : s.file <;> simp [refill, pending, h]

theorem ensure_pending (n : ℕ) (s : WalScanner) : (s.ensure n).pending = s.pending := by
  unfold ensure
  split_ifs
  · exact s.refill_pending
  · rfl

theorem ensure_ready {n : ℕ} {s : WalScanner} (h : s.Ready) : (s.ensure n).Ready := by
  unfold ensure
  split_ifs
  · exact ⟨by simpa [refill] using h.isOpen, Nat.zero_le _⟩
  · exact h

@[simp] theorem ensure_offset (n : ℕ) (s : WalScanner) : (s.ensure n).offset = s.offset := by
  unfold ensure
  split_ifs <;> rfl

@[simp] theorem ensure_status (n : ℕ) (s : WalScanner) : (s.ensure n).status = s.status := by
  unfold ensure
  split_ifs <;> rfl

/-- Up to a block, one refill brings in everything the file still has. -/
theorem ensure_enough {n : ℕ} {s : WalScanner} (hn : n ≤ kScanChunkSize)
    (hp : n ≤ s.pending.length) : (s.ensure n).bufPos + n ≤ (s.ensure n).buf.length := by
  unfold ensure
  split_ifs with h
  · cases hf : s.file with
    | none =>
      simp only [pending, hf, Option.getD_none, List.append_nil, List.length_drop] at hp
      simp [refill, hf]
      omega
    | some rest =>
      simp only [pending, hf, Option.getD_some, List.length_append, List.length_drop] at hp
      simp [refill, hf]
      omega
  · omega

theorem buffered_le_pending (s : WalScanner) : s.buf.length - s.bufPos ≤ s.pending.length := by
  simp [pending]

/-- Too few bytes in the file are too few bytes in the buffer. -/
theorem ensure_short {n : ℕ} {s : WalScanner} (hs : s.Ready) (hp : s.pending.length < n) :
    (s.ensure n).bufPos + n > (s.ensure n).buf.length := by
  have hb := buffered_le_pending (s.ensure n)
  have hr := (ensure_ready (n := n) hs).bufPos_le
  rw [ensure_pending] at hb
  omega

/-- When the refill does not bring in `n` bytes, the buffer holds the whole rest of the file. -/
theorem ensure_short_buf {n : ℕ} {s : WalScanner} (hn : n ≤ kScanChunkSize)
    (h : (s.ensure n).bufPos + n > (s.ensure n).buf.length) :
    (s.ensure n).buf = s.pending := by
  unfold ensure at h ⊢
  split_ifs at h ⊢ with hs
  swap
  · exact absurd h hs
  cases hf : s.file with
  | none => simp [refill, pending, hf]
  | some rest =>
    simp only [refill, hf, Option.getD_some, List.length_append, List.length_take] at h
    have hrest : rest.length ≤ kScanChunkSize := by omega
    simp [refill, pending, hf, List.take_of_length_le hrest]

theorem take_buffered {n : ℕ} {s : WalScanner} (h : s.bufPos + n ≤ s.buf.length) :
    (s.buf.drop s.bufPos).take n = s.pending.take n := by
  rw [pending, List.take_append_of_le_length]
  simp
  omega

theorem buffered_eq {s : WalScanner} (hs : s.Ready) :
    s.buf.drop s.bufPos = s.pending.take (s.buf.length - s.bufPos) := by
  have hle := hs.bufPos_le
  rw [← take_buffered (n := s.buf.length - s.bufPos) (by omega), List.take_of_length_le]
  simp

/-- The record lengths are read off the front of `pending`. -/
theorem lens_of_frame {s : WalScanner} {r : WalRecord} {rest : Bytes} (hs : s.Ready)
    (hbuf : s.bufPos + kZfHeaderSize ≤ s.buf.length) (hp : s.pending = r.frame ++ rest) :
    decodeKeyValLen (s.buf.drop s.bufPos) =
      (r.key.length % 2 ^ 32, r.value.length % 2 ^ 32) := by
  rw [buffered_eq hs, hp]
  refine decodeKeyValLen_take_frame r rest _ ?_
  simp only [kZfHeaderSize] at hbuf
  omega

theorem frameLength_lt_of_le_chunk {r : WalRecord} (h : r.frameLength ≤ kScanChunkSize) :
    r.frameLength < 2 ^ 32 :=
  lt_of_le_of_lt h (by decide)

theorem nextBody_frame {s : WalScanner} {r : WalRecord} {rest : Bytes} (hs : s.Ready)
    (hr : r.frameLength ≤ kScanChunkSize) (hbuf : s.bufPos + kZfHeaderSize ≤ s.buf.length)
    (hp : s.pending = r.frame ++ rest) :
    ∃ s', s.nextBody = (some ⟨r.header, r.key, r.value⟩, s') ∧ s'.Ready ∧ s'.pending = rest ∧
      s'.offset = s.offset + r.frameLength ∧ s'.status = s.status := by
  have hlt := frameLength_lt_of_le_chunk hr
  have henough := ensure_enough (s := s) hr (by simp [hp])
  have hready := ensure_ready (n := r.frameLength) hs
  have hpend : (s.ensure r.frameLength).pending = r.frame ++ rest := by rw [ensure_pending, hp]
  have htake : ((s.ensure r.frameLength).buf.drop (s.ensure r.frameLength).bufPos).take
      r.frameLength = r.frame := by
    rw [take_buffered henough, hpend]
    exact List.take_left' (length_frame r)
  simp only [nextBody, lens_of_frame hs hbuf hp, zfRecordLength_eq hlt, not_lt.mpr henough,
    if_false, htake, decodeZfRecord_frame hlt]
  refine ⟨_, rfl, ⟨hready.isOpen, henough⟩, ?_, by simp, by simp⟩
  have hdrop := congrArg (List.drop r.frameLength) hpend
  rw [List.drop_left' (length_frame r), pending, List.drop_append_of_le_length,
    List.drop_drop] at hdrop
  · exact hdrop
  · simp
    omega

/-- A frame of at most one block at the front of the pending bytes is handed out. -/
theorem next_frame {s : WalScanner} {r : WalRecord} {rest : Bytes} (hs : s.Ready)
    (hr : r.frameLength ≤ kScanChunkSize) (hp : s.pending = r.frame ++ rest) :
    ∃ s', s.next = (some ⟨r.header, r.key, r.value⟩, s') ∧ s'.Ready ∧ s'.pending = rest ∧
      s'.offset = s.offset + r.frameLength ∧ s'.status = s.status := by
  have hlen : kZfHeaderSize ≤ s.pending.length := by
    simp [hp, WalRecord.frameLength, kZfHeaderSize]
    omega
  have henough := ensure_enough (s := s) (by decide) hlen
  have hopen : s.file.isNone = false := by simpa using hs.isOpen
  have hbody := nextBody_frame (ensure_ready (n := kZfHeaderSize) hs) hr henough
    (by rw [ensure_pending, hp])
  simpa [next, hopen, not_lt.mpr henough] using hbody

/-- Nothing pending is a clean end of file. -/
theorem next_nil {s : WalScanner} (hs : s.Ready) (hp : s.pending = []) :
    s.next.1 = none ∧ s.next.2.status = s.status := by
  have hshort := ensure_short (n := kZfHeaderSize) hs (by simp [hp, kZfHeaderSize])
  have hbuf := ensure_short_buf (by decide) hshort
  have hopen : s.file.isNone = false := by simpa using hs.isOpen
  rw [hbuf, hp] at hshort
  simp only [next, hopen, hbuf, hp, hshort]
  simp

theorem next_shortHeader {s : WalScanner} (hs : s.Ready) (hpos : s.pending ≠ [])
    (hlt : s.pending.length < kZfHeaderSize) :
    s.next.1 = none ∧ ∃ msg, s.next.2.status = some (.corruption msg) := by
  have hshort := ensure_short hs hlt
  have hbuf := ensure_short_buf (by decide) hshort
  have hopen : s.file.isNone = false := by simpa using hs.isOpen
  have hlen : 0 < s.pending.length := List.length_pos_iff.mpr hpos
  rw [hbuf] at hshort
  simp only [next, hopen, hbuf, hlen, hshort]
  simp

theorem nextBody_torn {s : WalScanner} {r : WalRecord} {k : ℕ} (hs : s.Ready)
    (hr : r.frameLength < 2 ^ 32) (hk : k < r.frameLength)
    (hbuf : s.bufPos + kZfHeaderSize ≤ s.buf.length) (hp : s.pending = r.frame.take k) :
    s.nextBody.1 = none ∧ ∃ msg, s.nextBody.2.status = some (.corruption msg) := by
  have hlen := buffered_le_pending s
  have hlens : decodeKeyValLen (s.buf.drop s.bufPos) =
      (r.key.length % 2 ^ 32, r.value.length % 2 ^ 32) := by
    rw [buffered_eq hs, hp, List.take_take]
    have htake := decodeKeyValLen_take_frame r [] (min (s.buf.length - s.bufPos) k)
    rw [List.append_nil] at htake
    refine htake ?_
    simp only [hp, List.length_take, length_frame, kZfHeaderSize] at *
    omega
  have hshort := ensure_short (n := r.frameLength) hs (by simp [hp]; omega)
  simp only [nextBody, hlens, zfRecordLength_eq hr, hshort]
  simp

/-- A proper beginning of a frame stops the scanner with a Corruption status. -/
theorem next_torn {s : WalScanner} {r : WalRecord} {k : ℕ} (hs : s.Ready)
    (hr : r.frameLength < 2 ^ 32) (hk : k < r.frameLength) (hpos : 0 < k)
    (hp : s.pending = r.frame.take k) :
    s.next.1 = none ∧ ∃ msg, s.next.2.status = some (.corruption msg) := by
  have hlen : s.pending.length = k := by
    simp [hp]
    omega
  by_cases hhead : k < kZfHeaderSize
  · exact next_shortHeader hs (List.length_pos_iff.mp (by omega)) (by omega)
  · have henough := ensure_enough (s := s) (n := kZfHeaderSize) (by decide) (by omega)
    have hopen : s.file.isNone = false := by simpa using hs.isOpen
    have hbody := nextBody_torn (ensure_ready (n := kZfHeaderSize) hs) hr hk henough
      (by rw [ensure_pending, hp])
    simpa [next, hopen, not_lt.mpr henough] using hbody

/-- The records of `rs` with the offset behind each frame, the first frame starting at `off`. -/
def offsets : ℕ → List WalRecord → List (Scanned × ℕ)
  | _, [] => []
  | off, r :: rs =>
    (⟨r.header, r.key, r.value⟩, off + r.frameLength) :: offsets (off + r.frameLength) rs

/-- The scanner hands out every frame of at most one block in front of the tail. -/
theorem drain_frames {rs : List WalRecord} {tail : Bytes} {s : WalScanner} (fuel : ℕ)
    (hs : s.Ready) (hrs : ∀ r ∈ rs, r.frameLength ≤ kScanChunkSize)
    (hp : s.pending = rs.flatMap WalRecord.frame ++ tail) :
    ∃ s' : WalScanner, s'.Ready ∧ s'.pending = tail ∧ s'.status = s.status ∧
      drain (rs.length + fuel) s =
        (offsets s.offset rs ++ (drain fuel s').1, (drain fuel s').2) := by
  induction rs generalizing s with
  | nil => exact ⟨s, hs, by simpa using hp, rfl, by simp [offsets]⟩
  | cons r rs ih =>
    obtain ⟨s₁, hnext, hready, hpend, hoff, hstat⟩ :=
      next_frame hs (hrs r List.mem_cons_self)
        (show s.pending = r.frame ++ (rs.flatMap WalRecord.frame ++ tail) by
          simpa [List.append_assoc] using hp)
    obtain ⟨s', hs', htail, hstat', hdrain⟩ :=
      ih hready (fun q hq => hrs q (List.mem_cons_of_mem _ hq)) hpend
    refine ⟨s', hs', htail, hstat'.trans hstat, ?_⟩
    have hfuel : (r :: rs).length + fuel = (rs.length + fuel) + 1 := by
      simp
      omega
    rw [hfuel]
    simp [drain, hnext, hdrain, hoff, offsets]

theorem length_le_flatMap_frame (rs : List WalRecord) :
    rs.length ≤ (rs.flatMap WalRecord.frame).length := by
  induction rs with
  | nil => simp
  | cons r rs ih =>
    simp only [List.flatMap_cons, List.length_append, List.length_cons, length_frame,
      WalRecord.frameLength]
    omega

theorem drain_stuck {s : WalScanner} (h : s.next.1 = none) (fuel : ℕ) :
    drain (fuel + 1) s = ([], s.next.2) := by
  cases hn : s.next with
  | mk out s' =>
    rw [hn] at h
    subst h
    simp [drain, hn]

/-- Scanning whole frames and then bytes on which `next` stops. -/
theorem scan_frames_append {rs : List WalRecord} (tail : Bytes)
    (hrs : ∀ r ∈ rs, r.frameLength ≤ kScanChunkSize)
    (hstop : ∀ s : WalScanner, s.Ready → s.pending = tail → s.next.1 = none) :
    ∃ s' : WalScanner, s'.Ready ∧ s'.pending = tail ∧ s'.status = none ∧
      scan (rs.flatMap WalRecord.frame ++ tail) = (offsets 0 rs, s'.next.2) := by
  have hlen := length_le_flatMap_frame rs
  obtain ⟨s', hs', htail, hstat, hdrain⟩ :=
    drain_frames (s := { file := some (rs.flatMap WalRecord.frame ++ tail) })
      ((rs.flatMap WalRecord.frame ++ tail).length - rs.length + 1) ⟨rfl, le_refl _⟩ hrs
      (show _ = rs.flatMap WalRecord.frame ++ tail by simp [pending])
  have hfuel : rs.length + ((rs.flatMap WalRecord.frame ++ tail).length - rs.length + 1) =
      (rs.flatMap WalRecord.frame ++ tail).length + 1 := by
    rw [List.length_append]
    omega
  rw [hfuel, drain_stuck (hstop s' hs' htail)] at hdrain
  exact ⟨s', hs', htail, hstat, by simpa [scan] using hdrain⟩

/-- A file of whole frames is scanned completely, and its status stays OK. -/
theorem scan_frames {rs : List WalRecord}
    (hrs : ∀ r ∈ rs, r.frameLength ≤ kScanChunkSize) :
    (scan (rs.flatMap WalRecord.frame)).1 = offsets 0 rs ∧
      (scan (rs.flatMap WalRecord.frame)).2.status = none := by
  obtain ⟨s', hs', htail, hstat, hscan⟩ :=
    scan_frames_append [] hrs (fun s hs hp => (next_nil hs hp).1)
  rw [List.append_nil] at hscan
  rw [hscan]
  exact ⟨rfl, (next_nil hs' htail).2.trans hstat⟩

/-- Behind the whole frames a torn one is dropped, and the scan ends with Corruption. -/
theorem scan_torn {rs : List WalRecord} {r : WalRecord} {k : ℕ}
    (hrs : ∀ r ∈ rs, r.frameLength ≤ kScanChunkSize) (hr : r.frameLength < 2 ^ 32)
    (hk : k < r.frameLength) (hpos : 0 < k) :
    (scan (rs.flatMap WalRecord.frame ++ r.frame.take k)).1 = offsets 0 rs ∧
      ∃ msg, (scan (rs.flatMap WalRecord.frame ++ r.frame.take k)).2.status =
        some (.corruption msg) := by
  obtain ⟨s', hs', htail, hstat, hscan⟩ :=
    scan_frames_append _ hrs (fun s hs hp => (next_torn hs hr hk hpos hp).1)
  rw [hscan]
  exact ⟨rfl, (next_torn hs' hr hk hpos htail).2⟩

/-- A cut log yields the records whose frames survived the cut. -/
theorem scan_take {rs : List WalRecord} (n : ℕ)
    (hrs : ∀ r ∈ rs, r.frameLength ≤ kScanChunkSize) :
    (scan ((rs.flatMap WalRecord.frame).take n)).1 =
      offsets 0 (wholeFrames WalRecord.frame n rs) := by
  have hwhole : ∀ r ∈ wholeFrames WalRecord.frame n rs, r.frameLength ≤ kScanChunkSize :=
    fun r hr => hrs r ((wholeFrames_isPrefix _ n rs).subset hr)
  rw [take_flatMap]
  rcases tornFrame_spec WalRecord.frame n rs with h | ⟨r, hr, k, hk, h⟩
  · rw [h, List.append_nil]
    exact (scan_frames hwhole).1
  · rw [h]
    rw [length_frame] at hk
    by_cases hpos : 0 < k
    · exact (scan_torn hwhole (frameLength_lt_of_le_chunk (hrs r hr)) hk hpos).1
    · have hzero : k = 0 := by omega
      simpa [hzero] using (scan_frames hwhole).1

end WalScanner

end ZeroFlush.SequentialScan
