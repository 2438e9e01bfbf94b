import ZeroFlush.ReadPaths
import ZeroFlush.SequentialScan

/-! # Sealed generations in memory

`SealedGenBuffer` reads a sealed file as a whole and parses it on its own. A file that it accepts is
a sequence of frames, and the scanner hands out the same records if none is longer than a block. -/
namespace ZeroFlush.SealedBuffers
open FixedWidthCodec WalFormat SequentialScan ReadPaths

/-- The offset and the value of every record, in the order of the offsets. -/
structure SealedGenBuffer where
  records : List (ℕ × Bytes)

namespace SealedGenBuffer

def truncatedHeader (pos : ℕ) : Status :=
  .corruption s!"ZF D1 buffer: truncated record header at offset {pos}"

def badMagic (pos : ℕ) : Status := .corruption s!"ZF D1 buffer: bad magic at offset {pos}"

def truncatedRecord (pos : ℕ) : Status :=
  .corruption s!"ZF D1 buffer: truncated record at offset {pos}"

/-- The loop of `Load`. -/
def loadFrom (buf : Bytes) : ℕ → ℕ → Except Status (List (ℕ × Bytes))
  | 0, _ => .ok []
  | fuel + 1, pos =>
    if pos < buf.length then
      if buf.length - pos < kZfHeaderSize + kZfCrcSize then .error (truncatedHeader pos)
      else
        let d := buf.drop pos
        if fixedAt 4 0 d ≠ kZfMagic then .error (badMagic pos)
        else
          let total := zfRecordLength (fixedAt 4 8 d) (fixedAt 4 12 d)
          if pos + total > buf.length then .error (truncatedRecord pos)
          else
            match decodeZfRecord (d.take total) with
            | .error e => .error e
            | .ok (_, _, value) => (loadFrom buf fuel (pos + total)).map ((pos, value) :: ·)
    else .ok []

/-- Every record takes 28 bytes, so this many rounds reach the end of the file. -/
def load (content : Bytes) : Except Status SealedGenBuffer :=
  (loadFrom content (content.length + 1) 0).map SealedGenBuffer.mk

def recordCount (buf : SealedGenBuffer) : ℕ := buf.records.length

/-- The lookup by binary search. -/
def getValue (buf : SealedGenBuffer) (offset : ℕ) : Option Bytes :=
  (buf.records.find? fun r => r.1 == offset).map Prod.snd

end SealedGenBuffer

/-- The bytes of a frame and what they decode to. -/
structure Frame where
  bytes : Bytes
  scanned : Scanned
  decodes : decodeZfRecord bytes = .ok (scanned.header, scanned.key, scanned.value)

theorem Frame.framed (d : Frame) : Framed d.bytes := ⟨_, d.decodes⟩

/-- The frames of a file with their offsets. -/
def places : ℕ → List Frame → List (ℕ × Frame)
  | _, [] => []
  | off, d :: ds => (off, d) :: places (off + d.bytes.length) ds

theorem map_snd_places (off : ℕ) (ds : List Frame) : (places off ds).map Prod.snd = ds := by
  induction ds generalizing off with
  | nil => rfl
  | cons d ds ih => rw [places, List.map_cons, ih]

/-- At its offset stands the frame. -/
theorem prefix_of_mem_places {ds : List Frame} {off : ℕ} {front : Bytes} (hoff : front.length = off)
    {p : ℕ × Frame} (h : p ∈ places off ds) :
    p.2.bytes <+: (front ++ ds.flatMap Frame.bytes).drop p.1 := by
  induction ds generalizing off front with
  | nil => cases h
  | cons d ds ih =>
    obtain rfl | h := List.mem_cons.mp h
    · rw [← hoff, List.drop_left]
      exact List.prefix_append _ _
    · have hnext := @ih _ (front ++ d.bytes) (by rw [List.length_append, hoff]) h
      rwa [List.append_assoc] at hnext

/-- What follows a frame does not change its header. -/
theorem decodeHeader_append {d : Bytes} (h : 24 ≤ d.length) (rest : Bytes) :
    decodeHeader (d ++ rest) = decodeHeader d := by
  have hat : ∀ w i, i + w ≤ 24 → fixedAt w i (d ++ rest) = fixedAt w i d := by
    intro w i hi
    rw [fixedAt, fixedAt, List.drop_append_of_le_length (by omega), List.take_append_of_le_length]
    rw [List.length_drop]
    omega
  have hbyte : ∀ i < 24, (d ++ rest).getD i 0 = d.getD i 0 := by
    intro i hi
    rw [List.getD_eq_getElem?_getD, List.getElem?_append_left (by omega), List.getD_eq_getElem?_getD]
  rw [decodeHeader, decodeHeader, hat 4 0 (by decide), hat 2 4 (by decide), hat 4 8 (by decide),
    hat 4 12 (by decide), hat 8 16 (by decide), hbyte 6 (by decide), hbyte 7 (by decide)]

theorem magic_of_decode {d : Bytes} {x : ZfRecordHeader × Bytes × Bytes}
    (h : decodeZfRecord d = .ok x) : fixedAt 4 0 d = kZfMagic := by
  rw [decodeZfRecord] at h
  split at h
  · cases h
  · dsimp only at h
    split at h
    · cases h
    next hmagic => exact not_not.mp hmagic

/-- What `Load` reads off the header of a frame. -/
theorem Frame.header_of_isPrefix (d : Frame) {data : Bytes} (h : d.bytes <+: data) :
    fixedAt 4 0 data = kZfMagic ∧
      zfRecordLength (fixedAt 4 8 data) (fixedAt 4 12 data) = d.bytes.length := by
  obtain ⟨rest, rfl⟩ := h
  have hge := d.framed.length_eq.1
  have hheader := decodeHeader_append (show 24 ≤ d.bytes.length by omega) rest
  have hmagic := congrArg ZfRecordHeader.magic hheader
  have hkey : fixedAt 4 8 (d.bytes ++ rest) = fixedAt 4 8 d.bytes :=
    congrArg ZfRecordHeader.keyLen hheader
  have hval : fixedAt 4 12 (d.bytes ++ rest) = fixedAt 4 12 d.bytes :=
    congrArg ZfRecordHeader.valLen hheader
  rw [hkey, hval]
  exact ⟨hmagic.trans (magic_of_decode d.decodes), d.framed.length_eq.2.symm⟩

section load
open SealedGenBuffer

/-- A file that is loaded is a sequence of frames. -/
theorem loadFrom_spec {buf : Bytes} {fuel pos : ℕ} (hpos : pos ≤ buf.length)
    (hfuel : buf.length - pos < fuel) {records : List (ℕ × Bytes)}
    (h : loadFrom buf fuel pos = .ok records) :
    ∃ ds : List Frame, buf.drop pos = ds.flatMap Frame.bytes ∧
      records = (places pos ds).map fun p => (p.1, p.2.scanned.value) := by
  induction fuel generalizing pos records with
  | zero => omega
  | succ fuel ih =>
    rw [loadFrom] at h
    split at h
    next hlt =>
      split at h
      · cases h
      next hlong =>
        dsimp only at h
        split at h
        · cases h
        · split at h
          · cases h
          next hfits =>
            split at h
            · cases h
            next hdr key value hdecode =>
              generalize htotal : zfRecordLength (fixedAt 4 8 (buf.drop pos))
                (fixedAt 4 12 (buf.drop pos)) = total at h hfits hdecode
              have hlen : ((buf.drop pos).take total).length = total := by
                rw [List.length_take, List.length_drop]
                omega
              have hframed : Framed ((buf.drop pos).take total) := ⟨_, hdecode⟩
              have hge := hframed.length_eq.1
              rw [hlen] at hge
              cases hrest : loadFrom buf fuel (pos + total) with
              | error e =>
                rw [hrest] at h
                cases h
              | ok rest =>
                rw [hrest] at h
                cases h
                obtain ⟨ds, hds, hrecords⟩ := ih (by omega) (by omega) hrest
                refine ⟨⟨_, ⟨hdr, key, value⟩, hdecode⟩ :: ds, ?_, ?_⟩
                · rw [List.flatMap_cons, ← hds, ← List.drop_drop, List.take_append_drop]
                · rw [places, List.map_cons, hlen, hrecords]
    next hge =>
      cases h
      refine ⟨[], ?_, rfl⟩
      rw [List.drop_eq_nil_of_le (not_lt.mp hge)]
      rfl

theorem load_spec {content : Bytes} {buf : SealedGenBuffer} (h : load content = .ok buf) :
    ∃ ds : List Frame, content = ds.flatMap Frame.bytes ∧
      buf.records = (places 0 ds).map fun p => (p.1, p.2.scanned.value) := by
  rw [load] at h
  cases hload : loadFrom content (content.length + 1) 0 with
  | error e =>
    rw [hload] at h
    cases h
  | ok records =>
    rw [hload] at h
    cases h
    obtain ⟨ds, hds, hrecords⟩ := loadFrom_spec (Nat.zero_le _) (by omega) hload
    exact ⟨ds, hds, hrecords⟩

/-- Every sequence of frames is loaded. -/
theorem loadFrom_frames {buf : Bytes} {fuel pos : ℕ} {ds : List Frame}
    (hpos : buf.drop pos = ds.flatMap Frame.bytes) (hfuel : buf.length - pos < fuel) :
    loadFrom buf fuel pos = .ok ((places pos ds).map fun p => (p.1, p.2.scanned.value)) := by
  induction ds generalizing fuel pos with
  | nil =>
    obtain ⟨fuel, rfl⟩ := Nat.exists_eq_succ_of_ne_zero (Nat.ne_of_gt (Nat.zero_lt_of_lt hfuel))
    have hend : ¬ pos < buf.length := not_lt.mpr (List.drop_eq_nil_iff.mp hpos)
    rw [loadFrom, if_neg hend]
    rfl
  | cons d ds ih =>
    obtain ⟨fuel, rfl⟩ := Nat.exists_eq_succ_of_ne_zero (Nat.ne_of_gt (Nat.zero_lt_of_lt hfuel))
    have hprefix : d.bytes <+: buf.drop pos := by
      rw [hpos, List.flatMap_cons]
      exact List.prefix_append _ _
    have hlen := hprefix.length_le
    have hge := d.framed.length_eq.1
    rw [List.length_drop] at hlen
    obtain ⟨hmagic, htotal⟩ := d.header_of_isPrefix hprefix
    have hrest : buf.drop (pos + d.bytes.length) = ds.flatMap Frame.bytes := by
      rw [← List.drop_drop, hpos, List.flatMap_cons, List.drop_left]
    have hlt : pos < buf.length := by omega
    have hlong : ¬ buf.length - pos < kZfHeaderSize + kZfCrcSize := by
      rw [kZfHeaderSize, kZfCrcSize]
      omega
    have hfits : ¬ pos + d.bytes.length > buf.length := by omega
    rw [loadFrom, if_pos hlt, if_neg hlong]
    dsimp only
    rw [if_neg (not_not.mpr hmagic), htotal, if_neg hfits, take_of_isPrefix hprefix, d.decodes]
    dsimp only
    rw [ih hrest (by omega), places]
    rfl

theorem load_frames (ds : List Frame) :
    load (ds.flatMap Frame.bytes) = .ok ⟨(places 0 ds).map fun p => (p.1, p.2.scanned.value)⟩ := by
  have hload := @loadFrom_frames (ds.flatMap Frame.bytes) _ 0 ds rfl
    (Nat.lt_succ_of_le (Nat.sub_le _ _))
  rw [load, hload]
  rfl

end load

section scan
open WalScanner

variable {s : WalScanner} {d : Frame} {rest : Bytes}

theorem lens_of_bytes (hs : s.Ready) (hbuf : s.bufPos + kZfHeaderSize ≤ s.buf.length)
    (hp : s.pending = d.bytes ++ rest) :
    zfRecordLength (decodeKeyValLen (s.buf.drop s.bufPos)).1
      (decodeKeyValLen (s.buf.drop s.bufPos)).2 = d.bytes.length := by
  rw [buffered_eq hs]
  refine d.framed.lens (hp ▸ List.prefix_append _ _) ?_
  simp only [kZfHeaderSize] at hbuf
  omega

/-- A frame is handed out when the refill brings in the rest of it. -/
theorem nextBody_of_enough (hs : s.Ready) (hbuf : s.bufPos + kZfHeaderSize ≤ s.buf.length)
    (hp : s.pending = d.bytes ++ rest)
    (henough : (s.ensure d.bytes.length).bufPos + d.bytes.length ≤
      (s.ensure d.bytes.length).buf.length) :
    ∃ s', s.nextBody = (some d.scanned, s') ∧ s'.Ready ∧ s'.pending = rest ∧
      s'.status = s.status ∧ s'.offset = s.offset + d.bytes.length ∧
      s'.buf.length - s'.bufPos = (s.ensure d.bytes.length).buf.length -
        (s.ensure d.bytes.length).bufPos - d.bytes.length := by
  have hready := ensure_ready (n := d.bytes.length) hs
  have hpend : (s.ensure d.bytes.length).pending = d.bytes ++ rest := by rw [ensure_pending, hp]
  have htake : ((s.ensure d.bytes.length).buf.drop (s.ensure d.bytes.length).bufPos).take
      d.bytes.length = d.bytes := by
    rw [take_buffered henough, hpend]
    exact List.take_left
  simp only [nextBody, lens_of_bytes hs hbuf hp, not_lt.mpr henough, if_false, htake, d.decodes]
  refine ⟨_, rfl, ⟨hready.isOpen, henough⟩, ?_, by simp, by simp, Nat.sub_add_eq _ _ _⟩
  have hdrop := congrArg (List.drop d.bytes.length) hpend
  rw [List.drop_left, pending, List.drop_append_of_le_length, List.drop_drop] at hdrop
  · exact hdrop
  · rw [List.length_drop]
    omega

/-- The scanner stops in front of a frame that the refill does not complete. -/
theorem nextBody_of_short (hs : s.Ready) (hbuf : s.bufPos + kZfHeaderSize ≤ s.buf.length)
    (hp : s.pending = d.bytes ++ rest)
    (hshort : (s.ensure d.bytes.length).bufPos + d.bytes.length >
      (s.ensure d.bytes.length).buf.length) :
    s.nextBody.1 = none ∧ s.nextBody.2.status ≠ none := by
  simp only [nextBody, lens_of_bytes hs hbuf hp, hshort, if_true]
  exact ⟨trivial, Option.some_ne_none _⟩

/-- A frame of at most one block at the front of the pending bytes is handed out. -/
theorem next_frame_bytes (hs : s.Ready) (hd : d.bytes.length ≤ kScanChunkSize)
    (hp : s.pending = d.bytes ++ rest) :
    ∃ s', s.next = (some d.scanned, s') ∧ s'.Ready ∧ s'.pending = rest ∧ s'.status = s.status := by
  have hlen : kZfHeaderSize ≤ s.pending.length := by
    have hge := d.framed.length_eq.1
    rw [hp, List.length_append, kZfHeaderSize]
    omega
  have henough := ensure_enough (s := s) (by decide) hlen
  have hopen : s.file.isNone = false := by simpa using hs.isOpen
  have hready := ensure_ready (n := kZfHeaderSize) hs
  have hpend := (ensure_pending kZfHeaderSize s).trans hp
  obtain ⟨s', hbody, hs', hrest, hstatus, -⟩ := nextBody_of_enough hready henough hpend
    (ensure_enough hd (by simp [hpend]))
  refine ⟨s', ?_, hs', hrest, hstatus.trans (ensure_status _ _)⟩
  simpa [next, hopen, not_lt.mpr henough] using hbody

theorem drain_frame_bytes {ds : List Frame} {fuel : ℕ} (hs : s.Ready)
    (hds : ∀ d ∈ ds, d.bytes.length ≤ kScanChunkSize) (hp : s.pending = ds.flatMap Frame.bytes)
    (hfuel : ds.length < fuel) :
    (drain fuel s).1.map Prod.fst = ds.map Frame.scanned ∧ (drain fuel s).2.status = s.status := by
  induction ds generalizing s fuel with
  | nil =>
    obtain ⟨fuel, rfl⟩ := Nat.exists_eq_succ_of_ne_zero (Nat.ne_of_gt hfuel)
    obtain ⟨hnone, hstatus⟩ := next_nil hs hp
    rw [drain_stuck hnone]
    exact ⟨rfl, hstatus⟩
  | cons d ds ih =>
    obtain ⟨fuel, rfl⟩ := Nat.exists_eq_succ_of_ne_zero (Nat.ne_of_gt (Nat.zero_lt_of_lt hfuel))
    obtain ⟨s', hnext, hready, hpend, hstatus⟩ := next_frame_bytes hs (hds d List.mem_cons_self) hp
    obtain ⟨hrecords, hend⟩ := ih hready (fun e he => hds e (List.mem_cons_of_mem _ he)) hpend
      (Nat.lt_of_succ_lt_succ hfuel)
    rw [drain, hnext]
    exact ⟨by rw [List.map_cons, hrecords, List.map_cons], hend.trans hstatus⟩

theorem length_le_flatMap_bytes (ds : List Frame) :
    ds.length ≤ (ds.flatMap Frame.bytes).length := by
  induction ds with
  | nil => exact le_rfl
  | cons d ds ih =>
    have hge := d.framed.length_eq.1
    rw [List.flatMap_cons, List.length_append, List.length_cons]
    omega

/-- The scanner reads a sequence of frames of at most one block to its end. -/
theorem scan_frame_bytes {ds : List Frame} (hds : ∀ d ∈ ds, d.bytes.length ≤ kScanChunkSize) :
    (scan (ds.flatMap Frame.bytes)).1.map Prod.fst = ds.map Frame.scanned ∧
      (scan (ds.flatMap Frame.bytes)).2.status = none :=
  drain_frame_bytes ⟨rfl, le_rfl⟩ hds rfl (Nat.lt_succ_of_le (length_le_flatMap_bytes ds))

/-- One refill brings in at most one block. -/
theorem ensure_buffered_le (n : ℕ) :
    (s.ensure n).buf.length - (s.ensure n).bufPos ≤ s.buf.length - s.bufPos + kScanChunkSize := by
  rw [ensure]
  split
  · rw [refill]
    dsimp only
    rw [List.length_append, List.length_drop, List.length_take]
    omega
  · omega

/-- The scanner stops at a first frame of more than two blocks. -/
theorem scan_long (hlong : 2 * kScanChunkSize < d.bytes.length) :
    (scan (d.bytes ++ rest)).2.status ≠ none := by
  set start : WalScanner := { file := some (d.bytes ++ rest) }
  have hready : start.Ready := ⟨rfl, le_rfl⟩
  have hpend : start.pending = d.bytes ++ rest := rfl
  have hlen : kZfHeaderSize ≤ start.pending.length := by
    rw [hpend, List.length_append, kZfHeaderSize]
    have hge := d.framed.length_eq.1
    omega
  have henough := ensure_enough (s := start) (by decide) hlen
  have hfirst := ensure_buffered_le (s := start) kZfHeaderSize
  have hready₁ := ensure_ready (n := kZfHeaderSize) hready
  have hpend₁ := (ensure_pending kZfHeaderSize start).trans hpend
  have hbuf : start.buf.length - start.bufPos = 0 := rfl
  generalize hs₁ : start.ensure kZfHeaderSize = s₁ at henough hfirst hready₁ hpend₁
  have hsecond := ensure_buffered_le (s := s₁) d.bytes.length
  have hbody := nextBody_of_short hready₁ henough hpend₁ (by omega)
  have hnext : start.next.1 = none ∧ start.next.2.status ≠ none := by
    rw [next, if_neg (by simp [start]), hs₁]
    dsimp only
    rw [if_neg (not_lt.mpr henough)]
    exact hbody
  rw [scan, drain]
  cases hn : start.next with
  | mk res s' =>
    rw [hn] at hnext
    obtain ⟨rfl, hstatus⟩ := hnext
    exact hstatus

end scan

end ZeroFlush.SealedBuffers
