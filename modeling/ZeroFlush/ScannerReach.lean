import ZeroFlush.SealedBuffers

/-! # What the scanner can reach

A call of `Next` reads at most one block for the header and one for the rest of the record. The
scanner therefore reads a record back only if the record ends at most one block behind the block
in which its header ends, while `Load` reads a record of any length. -/
namespace ZeroFlush.ScannerReach
open FixedWidthCodec WalFormat SequentialScan ReadPaths SealedBuffers

/-- What has been read of a long enough file once its first `n` bytes were asked for. -/
def blockEnd (n : ℕ) : ℕ := (n + (kScanChunkSize - 1)) / kScanChunkSize * kScanChunkSize

theorem le_blockEnd (n : ℕ) : n ≤ blockEnd n := by
  rw [blockEnd, kScanChunkSize]
  omega

/-- A record of `len` bytes that starts at `off`. -/
def Reached (off len : ℕ) : Prop := off + len ≤ blockEnd (off + kZfHeaderSize) + kScanChunkSize

instance (off len : ℕ) : Decidable (Reached off len) := inferInstanceAs (Decidable (_ ≤ _))

/-- Records of these lengths, the first one starting at `off`. -/
def InReach : ℕ → List ℕ → Prop
  | _, [] => True
  | off, len :: lens => Reached off len ∧ InReach (off + len) lens

namespace SealedGenBuffer
open SealedBuffers.SealedGenBuffer

/-- The loop of `Load` with the members as it leaves them: what was decoded before an error stays. -/
def loadMembers (buf : Bytes) : ℕ → ℕ → List (ℕ × Bytes) × Option Status
  | 0, _ => ([], none)
  | fuel + 1, pos =>
    if pos < buf.length then
      if buf.length - pos < kZfHeaderSize + kZfCrcSize then ([], some (truncatedHeader pos))
      else
        let d := buf.drop pos
        if fixedAt 4 0 d ≠ kZfMagic then ([], some (badMagic pos))
        else
          let total := zfRecordLength (fixedAt 4 8 d) (fixedAt 4 12 d)
          if pos + total > buf.length then ([], some (truncatedRecord pos))
          else
            match decodeZfRecord (d.take total) with
            | .error e => ([], some e)
            | .ok (_, _, value) =>
              let rest := loadMembers buf fuel (pos + total)
              ((pos, value) :: rest.1, rest.2)
    else ([], none)

/-- The records and the status behind a call of `Load`. -/
def members (content : Bytes) : List (ℕ × Bytes) × Option Status :=
  loadMembers content (content.length + 1) 0

theorem loadFrom_eq_loadMembers (buf : Bytes) (fuel pos : ℕ) :
    loadFrom buf fuel pos = match (loadMembers buf fuel pos).2 with
      | none => .ok (loadMembers buf fuel pos).1
      | some e => .error e := by
  induction fuel generalizing pos with
  | zero => rfl
  | succ fuel ih =>
    rw [loadFrom, loadMembers]
    dsimp only
    split
    · split
      · rfl
      · split
        · rfl
        · split
          · rfl
          · generalize decodeZfRecord _ = res
            cases res with
            | error e => rfl
            | ok x =>
              dsimp only
              rw [ih]
              cases (loadMembers buf fuel _).2 <;> rfl
    · rfl

/-- The two readings of the loop agree on the result. -/
theorem load_eq_members (content : Bytes) :
    load content = match (members content).2 with
      | none => .ok ⟨(members content).1⟩
      | some e => .error e := by
  rw [load, loadFrom_eq_loadMembers, members]
  cases (loadMembers content (content.length + 1) 0).2 <;> rfl

end SealedGenBuffer

open SealedGenBuffer WalScanner

/-- No record can be read from the front of these bytes. -/
def Unframed (tail : Bytes) : Prop := ∀ d, Framed d → ¬ d <+: tail

theorem unframed_nil : Unframed [] := by
  intro d hd hprefix
  have hge := hd.length_eq.1
  have hle := hprefix.length_le
  rw [List.length_nil] at hle
  omega

/-- Every file is a sequence of frames and a rest without one at its front. -/
theorem exists_frames (content : Bytes) :
    ∃ (ds : List Frame) (tail : Bytes), content = ds.flatMap Frame.bytes ++ tail ∧ Unframed tail := by
  induction hn : content.length using Nat.strong_induction_on generalizing content with
  | _ n ih =>
    by_cases hframe : Unframed content
    · exact ⟨[], content, rfl, hframe⟩
    · simp only [Unframed, not_forall, not_not] at hframe
      obtain ⟨d, ⟨⟨hdr, key, value⟩, hdecode⟩, rest, rfl⟩ := hframe
      have hge := (show Framed d from ⟨_, hdecode⟩).length_eq.1
      rw [List.length_append] at hn
      obtain ⟨ds, tail, rfl, htail⟩ := ih rest.length (by omega) rest rfl
      refine ⟨⟨d, ⟨hdr, key, value⟩, hdecode⟩ :: ds, tail, ?_, htail⟩
      rw [List.flatMap_cons, List.append_assoc]

/-- Whatever frames stand at the front of the file are among its leading frames. -/
theorem isPrefix_of_unframed {as bs : List Frame} {rest tail : Bytes}
    (h : as.flatMap Frame.bytes ++ rest = bs.flatMap Frame.bytes ++ tail) (htail : Unframed tail) :
    as.map (fun d => d.bytes.length) <+: bs.map (fun d => d.bytes.length) := by
  induction as generalizing bs with
  | nil => exact List.nil_prefix
  | cons a as ih =>
    rw [List.flatMap_cons, List.append_assoc] at h
    cases bs with
    | nil => exact absurd ⟨_, h⟩ (htail a.bytes a.framed)
    | cons b bs =>
      rw [List.flatMap_cons, List.append_assoc] at h
      have hbytes : a.bytes = b.bytes :=
        eq_of_framed_prefix a.framed b.framed ⟨_, h⟩ ⟨_, rfl⟩
      rw [hbytes] at h
      rw [List.map_cons, List.map_cons, hbytes]
      exact (List.prefix_cons_inj _).mpr (ih (List.append_cancel_left h))

theorem InReach.of_isPrefix {off : ℕ} {as bs : List ℕ} (hpre : as <+: bs)
    (h : InReach off bs) : InReach off as := by
  induction as generalizing off bs with
  | nil => trivial
  | cons a as ih =>
    obtain ⟨rest, rfl⟩ := hpre
    exact ⟨h.1, ih ⟨rest, rfl⟩ h.2⟩

section load

/-- `Load` decodes the leading frames, and it fails if anything stands behind them. -/
theorem loadMembers_frames {buf tail : Bytes} {fuel pos : ℕ} {ds : List Frame}
    (hpos : buf.drop pos = ds.flatMap Frame.bytes ++ tail) (htail : Unframed tail)
    (hfuel : buf.length - pos < fuel) :
    (loadMembers buf fuel pos).1 = (places pos ds).map (fun p => (p.1, p.2.scanned.value)) ∧
      ((loadMembers buf fuel pos).2 = none ↔ tail = []) := by
  induction ds generalizing fuel pos with
  | nil =>
    obtain ⟨fuel, rfl⟩ := Nat.exists_eq_succ_of_ne_zero (Nat.ne_of_gt (Nat.zero_lt_of_lt hfuel))
    rw [List.flatMap_nil, List.nil_append] at hpos
    subst hpos
    rw [loadMembers]
    dsimp only
    split
    next hlt =>
      have hne : buf.drop pos ≠ [] := by
        rw [ne_eq, List.drop_eq_nil_iff]
        omega
      have hfail : ∀ e : Status, some e = none ↔ buf.drop pos = [] := fun e =>
        ⟨fun h => absurd h (Option.some_ne_none e), fun h => absurd h hne⟩
      split
      · exact ⟨rfl, hfail _⟩
      · split
        · exact ⟨rfl, hfail _⟩
        · split
          · exact ⟨rfl, hfail _⟩
          · split
            · exact ⟨rfl, hfail _⟩
            next hdecode => exact absurd (List.take_prefix _ _) (htail _ ⟨_, hdecode⟩)
    next hge =>
      rw [not_lt, ← List.drop_eq_nil_iff] at hge
      exact ⟨rfl, iff_of_true rfl hge⟩
  | cons d ds ih =>
    obtain ⟨fuel, rfl⟩ := Nat.exists_eq_succ_of_ne_zero (Nat.ne_of_gt (Nat.zero_lt_of_lt hfuel))
    rw [List.flatMap_cons, List.append_assoc] at hpos
    have hprefix : d.bytes <+: buf.drop pos := hpos ▸ List.prefix_append _ _
    have hlen := hprefix.length_le
    have hge := d.framed.length_eq.1
    rw [List.length_drop] at hlen
    obtain ⟨hmagic, htotal⟩ := d.header_of_isPrefix hprefix
    have hrest : buf.drop (pos + d.bytes.length) = ds.flatMap Frame.bytes ++ tail := by
      rw [← List.drop_drop, hpos, List.drop_left]
    have hlt : pos < buf.length := by omega
    have hlong : ¬ buf.length - pos < kZfHeaderSize + kZfCrcSize := by
      rw [kZfHeaderSize, kZfCrcSize]
      omega
    have hfits : ¬ pos + d.bytes.length > buf.length := by omega
    obtain ⟨hrecords, hstatus⟩ := @ih fuel _ hrest (by omega)
    rw [loadMembers, if_pos hlt, if_neg hlong]
    dsimp only
    rw [if_neg (not_not.mpr hmagic), htotal, if_neg hfits, take_of_isPrefix hprefix, d.decodes]
    exact ⟨by rw [hrecords, places, List.map_cons], hstatus⟩

end load

section scanner
variable {s : WalScanner} {d : Frame} {rest tail : Bytes}

/-- How many bytes the buffer still holds behind the read position. -/
def buffered (s : WalScanner) : ℕ := s.buf.length - s.bufPos

/-- The buffer reaches to the end of the block that holds the byte in front of the offset, or to
the end of the file. -/
def Aligned (s : WalScanner) : Prop :=
  buffered s = min s.pending.length (blockEnd s.offset - s.offset)

theorem buffered_refill (hs : s.Ready) :
    buffered s.refill = min s.pending.length (buffered s + kScanChunkSize) := by
  have hle := hs.bufPos_le
  simp only [buffered, refill, pending, List.length_append, List.length_drop, List.length_take]
  omega

theorem buffered_ensure (hs : s.Ready) (n : ℕ) : buffered (s.ensure n) =
    if buffered s < n then min s.pending.length (buffered s + kScanChunkSize) else buffered s := by
  have hle := hs.bufPos_le
  rw [ensure]
  split
  next h =>
    rw [buffered_refill hs, if_pos (by simp only [buffered]; omega)]
  next h =>
    rw [if_neg (by simp only [buffered]; omega)]

/-- The header is in the buffer, and with it the rest of its block. -/
theorem buffered_header (hs : s.Ready) (ha : Aligned s) (hp : kZfHeaderSize ≤ s.pending.length) :
    buffered (s.ensure kZfHeaderSize) =
      min s.pending.length (blockEnd (s.offset + kZfHeaderSize) - s.offset) := by
  rw [buffered_ensure hs, ha]
  split
  all_goals
    simp only [blockEnd, kScanChunkSize, kZfHeaderSize] at *
    omega

/-- The first step of `Next` on a frame. -/
theorem next_eq_nextBody (hs : s.Ready) (hp : s.pending = d.bytes ++ rest) :
    (s.ensure kZfHeaderSize).bufPos + kZfHeaderSize ≤ (s.ensure kZfHeaderSize).buf.length ∧
      s.next = (s.ensure kZfHeaderSize).nextBody := by
  have hge := d.framed.length_eq.1
  have hlen : kZfHeaderSize ≤ s.pending.length := by
    rw [hp, List.length_append, kZfHeaderSize]
    omega
  have henough := ensure_enough (s := s) (by decide) hlen
  have hopen : s.file.isNone = false := by simpa using hs.isOpen
  exact ⟨henough, by simp [next, hopen, not_lt.mpr henough]⟩

theorem buffered_body (hs : s.Ready) (ha : Aligned s) (hp : s.pending = d.bytes ++ rest) :
    buffered ((s.ensure kZfHeaderSize).ensure d.bytes.length) =
      if blockEnd (s.offset + kZfHeaderSize) - s.offset < d.bytes.length then
        min s.pending.length (blockEnd (s.offset + kZfHeaderSize) - s.offset + kScanChunkSize)
      else min s.pending.length (blockEnd (s.offset + kZfHeaderSize) - s.offset) := by
  have hge := d.framed.length_eq.1
  have hlen := congrArg List.length hp
  rw [List.length_append] at hlen
  rw [buffered_ensure (ensure_ready hs), ensure_pending,
    buffered_header hs ha (by rw [kZfHeaderSize]; omega)]
  split <;> split <;> omega

theorem next_reached (hs : s.Ready) (ha : Aligned s) (hp : s.pending = d.bytes ++ rest)
    (hreach : Reached s.offset d.bytes.length) :
    ∃ s', s.next = (some d.scanned, s') ∧ s'.Ready ∧ Aligned s' ∧ s'.pending = rest ∧
      s'.status = s.status ∧ s'.offset = s.offset + d.bytes.length := by
  obtain ⟨hbuf, hnext⟩ := next_eq_nextBody hs hp
  have hready := ensure_ready (n := kZfHeaderSize) hs
  have hready₂ := ensure_ready (n := d.bytes.length) hready
  have hbody := buffered_body hs ha hp
  have hlen := congrArg List.length hp
  have hge := d.framed.length_eq.1
  rw [List.length_append] at hlen
  rw [Reached] at hreach
  have henough : d.bytes.length ≤ buffered ((s.ensure kZfHeaderSize).ensure d.bytes.length) := by
    rw [hbody]
    split <;> omega
  have hle := hready₂.bufPos_le
  obtain ⟨s', hout, hs', hrest, hstatus, hoffset, hbuffered⟩ := nextBody_of_enough hready hbuf
    ((ensure_pending _ _).trans hp) (by rw [buffered] at henough; omega)
  rw [ensure_status] at hstatus
  rw [ensure_offset] at hoffset
  refine ⟨s', hnext.trans hout, hs', ?_, hrest, hstatus, hoffset⟩
  rw [← buffered, ← buffered, hbody] at hbuffered
  rw [Aligned, hbuffered, hrest, hoffset]
  split
  all_goals
    simp only [blockEnd, kScanChunkSize, kZfHeaderSize] at *
    omega

theorem next_not_reached (hs : s.Ready) (ha : Aligned s) (hp : s.pending = d.bytes ++ rest)
    (hreach : ¬ Reached s.offset d.bytes.length) : s.next.1 = none ∧ s.next.2.status ≠ none := by
  obtain ⟨hbuf, hnext⟩ := next_eq_nextBody hs hp
  have hbody := buffered_body hs ha hp
  have hready := ensure_ready (n := kZfHeaderSize) hs
  have hle := (ensure_ready (n := d.bytes.length) hready).bufPos_le
  have hge := le_blockEnd (s.offset + kZfHeaderSize)
  rw [Reached] at hreach
  rw [hnext]
  refine nextBody_of_short hready hbuf ((ensure_pending _ _).trans hp) ?_
  rw [buffered] at hbody
  split at hbody <;> omega

/-- Bytes without a frame at their front are corrupt for the scanner too. -/
theorem next_unframed (hs : s.Ready) (hp : Unframed s.pending) (hne : s.pending ≠ []) :
    s.next.1 = none ∧ s.next.2.status ≠ none := by
  have hopen : s.file.isNone = false := by simpa using hs.isOpen
  rcases Nat.lt_or_ge s.pending.length kZfHeaderSize with hshort | hlong
  · obtain ⟨hnone, msg, hstatus⟩ := next_shortHeader hs hne hshort
    exact ⟨hnone, by rw [hstatus]; exact Option.some_ne_none _⟩
  · have henough := ensure_enough (s := s) (by decide) hlong
    rw [next, if_neg (by simp [hopen]), if_neg (not_lt.mpr henough), nextBody]
    split
    · exact ⟨rfl, Option.some_ne_none _⟩
    next hfits =>
      split
      · exact ⟨rfl, Option.some_ne_none _⟩
      next hdecode =>
        rw [take_buffered (not_lt.mp hfits), ensure_pending, ensure_pending] at hdecode
        exact absurd (List.take_prefix _ _) (hp _ ⟨_, hdecode⟩)

/-- The records of the frames with the offset behind each of them. -/
def ends : ℕ → List Frame → List (Scanned × ℕ)
  | _, [] => []
  | off, d :: ds => (d.scanned, off + d.bytes.length) :: ends (off + d.bytes.length) ds

theorem drain_inReach {ds : List Frame} {fuel : ℕ} (hs : s.Ready) (ha : Aligned s)
    (hstatus : s.status = none) (hp : s.pending = ds.flatMap Frame.bytes ++ tail)
    (htail : Unframed tail) (hfuel : ds.length < fuel)
    (hreach : InReach s.offset (ds.map fun d => d.bytes.length)) :
    (drain fuel s).1 = ends s.offset ds ∧ ((drain fuel s).2.status = none ↔ tail = []) := by
  induction ds generalizing s fuel with
  | nil =>
    obtain ⟨fuel, rfl⟩ := Nat.exists_eq_succ_of_ne_zero (Nat.ne_of_gt hfuel)
    rw [List.flatMap_nil, List.nil_append] at hp
    subst hp
    by_cases hnil : s.pending = []
    · obtain ⟨hnone, hsame⟩ := next_nil hs hnil
      rw [drain_stuck hnone]
      exact ⟨rfl, iff_of_true (hsame.trans hstatus) hnil⟩
    · obtain ⟨hnone, hcorrupt⟩ := next_unframed hs htail hnil
      rw [drain_stuck hnone]
      exact ⟨rfl, iff_of_false hcorrupt hnil⟩
  | cons d ds ih =>
    obtain ⟨fuel, rfl⟩ := Nat.exists_eq_succ_of_ne_zero (Nat.ne_of_gt (Nat.zero_lt_of_lt hfuel))
    rw [List.flatMap_cons, List.append_assoc] at hp
    obtain ⟨s', hnext, hs', ha', hpend, hstat, hoff⟩ := next_reached hs ha hp hreach.1
    obtain ⟨hrecords, hend⟩ := ih hs' ha' (hstat.trans hstatus) hpend
      (Nat.lt_of_succ_lt_succ hfuel) (hoff ▸ hreach.2)
    rw [drain, hnext, ends, ← hoff, ← hrecords]
    exact ⟨rfl, hend⟩

theorem drain_outOfReach {ds : List Frame} {fuel : ℕ} (hs : s.Ready) (ha : Aligned s)
    (hp : s.pending = ds.flatMap Frame.bytes ++ tail) (hfuel : ds.length < fuel)
    (hreach : ¬ InReach s.offset (ds.map fun d => d.bytes.length)) :
    (drain fuel s).1.length < ds.length ∧ (drain fuel s).2.status ≠ none := by
  induction ds generalizing s fuel with
  | nil => exact absurd trivial hreach
  | cons d ds ih =>
    obtain ⟨fuel, rfl⟩ := Nat.exists_eq_succ_of_ne_zero (Nat.ne_of_gt (Nat.zero_lt_of_lt hfuel))
    rw [List.flatMap_cons, List.append_assoc] at hp
    by_cases hfirst : Reached s.offset d.bytes.length
    · obtain ⟨s', hnext, hs', ha', hpend, hstat, hoff⟩ := next_reached hs ha hp hfirst
      have hlater : ¬ InReach s'.offset (ds.map fun d => d.bytes.length) := by
        rw [hoff]
        exact fun h => hreach ⟨hfirst, h⟩
      obtain ⟨hfewer, hcorrupt⟩ := ih hs' ha' hpend (Nat.lt_of_succ_lt_succ hfuel) hlater
      rw [drain, hnext]
      exact ⟨Nat.succ_lt_succ hfewer, hcorrupt⟩
    · obtain ⟨hnone, hcorrupt⟩ := next_not_reached hs ha hp hfirst
      rw [drain_stuck hnone]
      exact ⟨Nat.succ_pos _, hcorrupt⟩

end scanner

/-- A record that `EncodeZfRecord` writes as the reader gets it back. -/
def encode (r : Scanned) : Bytes := encodeZfRecord r.header r.key r.value

def encodedLength (r : Scanned) : ℕ := 28 + r.key.length + r.value.length

/-- The records with `offset()` behind each of them, the first frame starting at `off`. -/
def withOffsets : ℕ → List Scanned → List (Scanned × ℕ)
  | _, [] => []
  | off, r :: rs => (r, off + encodedLength r) :: withOffsets (off + encodedLength r) rs

/-- The scanner reads the concatenated frames back. -/
def ReadsBack (rs : List Scanned) : Prop :=
  (scan (rs.flatMap encode)).1 = withOffsets 0 rs ∧ (scan (rs.flatMap encode)).2.status = none

/-- The offset at which each record starts, and its value: what `Load` keeps of it. -/
def starts : ℕ → List (Scanned × ℕ) → List (ℕ × Bytes)
  | _, [] => []
  | off, (r, after) :: rest => (off, r.value) :: starts after rest

/-- The scanner and `Load` agree on the records and on whether the file is corrupt. -/
def Agree (content : Bytes) : Prop :=
  starts 0 (scan content).1 = (members content).1 ∧
    ((scan content).2.status = none ↔ (members content).2 = none)

/-- Every sequence of frames at the front of the file is in reach. -/
def FramesInReach (content : Bytes) : Prop :=
  ∀ (ds : List Frame) (tail : Bytes), content = ds.flatMap Frame.bytes ++ tail →
    InReach 0 (ds.map fun d => d.bytes.length)

def Encoded (r : Scanned) : Prop := Encodable r.header r.key r.value

/-- The frame of an encoded record. -/
def frameOf (r : Scanned) (h : Encoded r) : Frame := ⟨encode r, r, h.decodeZfRecord_eq⟩

theorem exists_frames_of_encoded {rs : List Scanned} (hrs : ∀ r ∈ rs, Encoded r) :
    ∃ ds : List Frame, rs.flatMap encode = ds.flatMap Frame.bytes ∧
      (∀ off, withOffsets off rs = ends off ds) ∧
      rs.map encodedLength = ds.map fun d => d.bytes.length := by
  induction rs with
  | nil => exact ⟨[], rfl, fun _ => rfl, rfl⟩
  | cons r rs ih =>
    obtain ⟨hr, hrest⟩ := List.forall_mem_cons.mp hrs
    obtain ⟨ds, hbytes, hoffsets, hlens⟩ := ih hrest
    have hlen : (frameOf r hr).bytes.length = encodedLength r := length_encodeZfRecord _ _ _
    refine ⟨frameOf r hr :: ds, ?_, ?_, ?_⟩
    · rw [List.flatMap_cons, List.flatMap_cons, hbytes]
      rfl
    · intro off
      rw [withOffsets, ends, hlen, hoffsets]
      rfl
    · rw [List.map_cons, List.map_cons, hlen, hlens]

theorem length_withOffsets (off : ℕ) (rs : List Scanned) :
    (withOffsets off rs).length = rs.length := by
  induction rs generalizing off with
  | nil => rfl
  | cons r rs ih => rw [withOffsets, List.length_cons, List.length_cons, ih]

theorem length_starts (off : ℕ) (out : List (Scanned × ℕ)) :
    (starts off out).length = out.length := by
  induction out generalizing off with
  | nil => rfl
  | cons r rest ih => rw [starts, List.length_cons, List.length_cons, ih]

theorem starts_ends (off : ℕ) (ds : List Frame) :
    starts off (ends off ds) = (places off ds).map fun p => (p.1, p.2.scanned.value) := by
  induction ds generalizing off with
  | nil => rfl
  | cons d ds ih => rw [ends, starts, places, List.map_cons, ih]

theorem length_places (off : ℕ) (ds : List Frame) : (places off ds).length = ds.length := by
  rw [← List.length_map Prod.snd, map_snd_places]

section scan
variable {ds : List Frame} {tail : Bytes}

theorem start_aligned (content : Bytes) : Aligned { file := some content } := by
  simp [Aligned, buffered, blockEnd, kScanChunkSize]

theorem length_lt_fuel (ds : List Frame) (tail : Bytes) :
    ds.length < (ds.flatMap Frame.bytes ++ tail).length + 1 := by
  have hle := length_le_flatMap_bytes ds
  rw [List.length_append]
  omega

theorem scan_inReach (htail : Unframed tail)
    (hreach : InReach 0 (ds.map fun d => d.bytes.length)) :
    (scan (ds.flatMap Frame.bytes ++ tail)).1 = ends 0 ds ∧
      ((scan (ds.flatMap Frame.bytes ++ tail)).2.status = none ↔ tail = []) :=
  drain_inReach ⟨rfl, le_rfl⟩ (start_aligned _) rfl rfl htail (length_lt_fuel ds tail) hreach

theorem scan_outOfReach (tail : Bytes) (hreach : ¬ InReach 0 (ds.map fun d => d.bytes.length)) :
    (scan (ds.flatMap Frame.bytes ++ tail)).1.length < ds.length ∧
      (scan (ds.flatMap Frame.bytes ++ tail)).2.status ≠ none :=
  drain_outOfReach ⟨rfl, le_rfl⟩ (start_aligned _) rfl (length_lt_fuel ds tail) hreach

theorem members_frames (htail : Unframed tail) :
    (members (ds.flatMap Frame.bytes ++ tail)).1 =
        (places 0 ds).map (fun p => (p.1, p.2.scanned.value)) ∧
      ((members (ds.flatMap Frame.bytes ++ tail)).2 = none ↔ tail = []) :=
  loadMembers_frames rfl htail (Nat.lt_succ_of_le (Nat.sub_le _ _))

theorem agree_iff (htail : Unframed tail) : Agree (ds.flatMap Frame.bytes ++ tail) ↔
    InReach 0 (ds.map fun d => d.bytes.length) := by
  obtain ⟨hloaded, hok⟩ := @members_frames ds tail htail
  constructor
  · intro hagree
    by_contra hreach
    have hfewer := (scan_outOfReach tail hreach).1
    have hlen := congrArg List.length hagree.1
    rw [length_starts, hloaded, List.length_map, length_places] at hlen
    omega
  · intro hreach
    obtain ⟨hscanned, hend⟩ := scan_inReach htail hreach
    exact ⟨by rw [hscanned, starts_ends, hloaded], hend.trans hok.symm⟩

theorem framesInReach_iff (htail : Unframed tail) :
    FramesInReach (ds.flatMap Frame.bytes ++ tail) ↔
      InReach 0 (ds.map fun d => d.bytes.length) := by
  constructor
  · intro hreach
    exact hreach ds tail rfl
  · intro hreach as rest hcontent
    exact hreach.of_isPrefix (isPrefix_of_unframed hcontent.symm htail)

end scan

theorem readsBack_iff {rs : List Scanned} (hrs : ∀ r ∈ rs, Encoded r) :
    ReadsBack rs ↔ InReach 0 (rs.map encodedLength) := by
  obtain ⟨ds, hbytes, hoffsets, hlens⟩ := exists_frames_of_encoded hrs
  rw [ReadsBack, hbytes, hoffsets, hlens, ← List.append_nil (ds.flatMap Frame.bytes)]
  constructor
  · intro hback
    by_contra hreach
    exact (scan_outOfReach [] hreach).2 hback.2
  · intro hreach
    obtain ⟨hscanned, hend⟩ := scan_inReach unframed_nil hreach
    exact ⟨hscanned, hend.mpr rfl⟩

/-- A record without a value, as `Append` writes it. -/
def shortRecord : Scanned := ⟨⟨kZfMagic, 0, kTypeDeletion, 0, 1, 0, 1⟩, [97], []⟩

theorem encoded_shortRecord : Encoded shortRecord := ⟨rfl, by decide, rfl, rfl, by decide⟩

/-- A record whose value is `n` zero bytes. -/
def zeros (n : ℕ) : Scanned := ⟨⟨kZfMagic, 0, kTypeValue, 0, 1, n, 1⟩, [97], List.replicate n 0⟩

theorem encodedLength_zeros (n : ℕ) : encodedLength (zeros n) = 29 + n := by
  simp only [encodedLength, zeros, List.length_replicate, List.length_cons, List.length_nil]

theorem encoded_zeros {n : ℕ} (h : 29 + n < 2 ^ 32) : Encoded (zeros n) where
  magic := rfl
  cfId := Nat.two_pow_pos 16
  keyLen := rfl
  valLen := List.length_replicate.symm
  fits := by
    simp only [zeros, List.length_replicate, List.length_cons, List.length_nil]
    omega

end ZeroFlush.ScannerReach
