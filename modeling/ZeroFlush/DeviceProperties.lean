import ZeroFlush.SealedTables

/-! # What the host is told about a file of the device

The writer counts its records and keeps the extremes of their footers while it writes them. The host
takes the properties of the table from these counters. -/
namespace ZeroFlush.DeviceProperties
open FixedWidthCodec PrefixCompression BlockTables DeviceStreams DeviceEncoder EncoderRuns CsdSlots
  SortKeys SealedTables
open SstDecoder (Fits)
open EncodedTables (Window)

/-- The value from which the writer starts the search for the least footer. -/
def initialMinSeqno : ℕ := 72057594037927935

def footer (e : Entry) : ℕ := extractInternalKeyFooter e.key

/-! ## The counters of the open file -/

variable {s : Encoder} {blocks : List DataBlock} {cur done : List Entry} {body indexBody : Bytes}

structure Counted (s : Encoder) (done : List Entry) : Prop where
  rawKeySize : s.pps.rawKeySize = (done.map fun e => e.key.length).sum
  rawValueSize : s.pps.rawValueSize = (done.map fun e => e.value.length).sum
  minSeqno : s.minSeqno = (done.map footer).foldl min initialMinSeqno
  maxSeqno : s.maxSeqno = (done.map footer).foldl max 0
  smallest : ∀ e, done.head? = some e → s.pps.smallestKey = (keyMeta e).key
  largest : ∀ e, done.getLast? = some e → s.preKey = (keyMeta e).key

theorem counted_start (bram sst index : ByteMemory.Memory) : Counted (.start bram sst index) [] where
  rawKeySize := rfl
  rawValueSize := rfl
  minSeqno := rfl
  maxSeqno := rfl
  smallest := fun _ h => nomatch h
  largest := fun _ h => nomatch h

theorem Counted.withLastUserKey (h : Counted s done) (key : Keystring) :
    Counted { s with lastUserKey := key } done :=
  ⟨h.rawKeySize, h.rawValueSize, h.minSeqno, h.maxSeqno, h.smallest, h.largest⟩

/-- The first record of a file is the one that starts its first block. -/
theorem smallestKey_openEntry (h : Open s blocks cur body indexBody) (km : KeyMeta) :
    (s.openEntry km).pps.smallestKey =
      if blocks.flatMap DataBlock.entries ++ cur = [] then km.key else s.pps.smallestKey := by
  have hblocks : s.sstIndex = 0 ↔ blocks = [] := by
    have hfull := h.full
    rw [h.sstIndex]
    constructor
    · intro hzero
      exact List.length_eq_zero_iff.mp (by omega)
    · rintro rfl
      rfl
  have hempty : blocks.flatMap DataBlock.entries = [] ↔ blocks = [] := by
    constructor
    · intro hnil
      cases blocks with
      | nil => rfl
      | cons b rest =>
        have hentries := (h.finished b List.mem_cons_self).nonempty
        rw [List.flatMap_cons, List.append_eq_nil_iff] at hnil
        exact absurd hnil.1 hentries
    · rintro rfl
      rfl
  have hfirst : blocks.flatMap DataBlock.entries ++ cur = [] ↔
      s.sstIndex = 0 ∧ s.dataBlockIndex = 0 := by
    rw [List.append_eq_nil_iff, hempty, hblocks, h.cur_eq_nil]
  rw [Encoder.openEntry]
  split
  · next hcur =>
    split
    · next hsst => exact (if_pos (hfirst.mpr ⟨hsst, hcur⟩)).symm
    · next hsst => exact (if_neg fun hnil => hsst (hfirst.mp hnil).1).symm
  · next hcur =>
    rw [if_neg fun hnil => hcur (hfirst.mp hnil).2]
    split <;> rfl

theorem seqnoOf_keyMeta {e : Entry} (he : Fits e) : Encoder.seqnoOf (keyMeta e).key = footer e := by
  have hkey : e.key.length = 32 := he.1
  rw [Encoder.seqnoOf, footer, extractInternalKeyFooter, footerBytes, hkey]
  rfl

theorem Counted.putRecord (h : Counted s done) (hopen : Open s blocks cur body indexBody)
    (hdone : blocks.flatMap DataBlock.entries ++ cur = done) {e : Entry} (he : Fits e)
    (window : Bytes) : Counted (s.putRecord (keyMeta e) window) (done ++ [e]) := by
  have hsmallest := smallestKey_openEntry hopen (keyMeta e)
  obtain ⟨smallest, restarts, size, preKey, heq⟩ := openEntry_eq s (keyMeta e)
  rw [heq, hdone] at hsmallest
  rw [Encoder.putRecord, heq, seqnoOf_keyMeta he]
  constructor
  case rawKeySize =>
    have hlen : (keyMeta e).key.length = e.key.length := he.1.symm
    rw [List.map_append, List.sum_append, ← h.rawKeySize, hlen]
    rfl
  case rawValueSize =>
    rw [List.map_append, List.sum_append, ← h.rawValueSize]
    rfl
  case minSeqno =>
    rw [List.map_append, List.foldl_append, ← h.minSeqno]
    rfl
  case maxSeqno =>
    rw [List.map_append, List.foldl_append, ← h.maxSeqno]
    rfl
  case smallest =>
    intro e' he'
    refine hsmallest.trans ?_
    cases done with
    | nil =>
      cases he'
      rfl
    | cons e₀ done => exact h.smallest e' he'
  case largest =>
    intro e' he'
    rw [List.getLast?_concat] at he'
    cases he'
    rfl

/-- Closing a block leaves the counters of the records alone. -/
theorem Counted.closeFullBlock (h : Counted s done) : Counted s.closeFullBlock done :=
  ⟨h.rawKeySize, h.rawValueSize, h.minSeqno, h.maxSeqno, h.smallest, h.largest⟩

theorem Counted.flushed (h : Counted s done) : Counted (flushed s) done := by
  rw [EncoderRuns.flushed]
  split
  · exact ⟨h.rawKeySize, h.rawValueSize, h.minSeqno, h.maxSeqno, h.smallest, h.largest⟩
  · exact ⟨h.rawKeySize, h.rawValueSize, h.minSeqno, h.maxSeqno, h.smallest, h.largest⟩

/-! ## A closed file -/

structure Described (f : OutputFile) (done : List Entry) : Prop where
  rawKeySize : f.pps.rawKeySize = (done.map fun e => e.key.length).sum
  rawValueSize : f.pps.rawValueSize = (done.map fun e => e.value.length).sum
  indexBlockOffset : f.pps.indexBlockOffset = f.topSstIndex
  minSeq : f.pps.minSeq = (done.map footer).foldl min initialMinSeqno
  maxSeq : f.pps.maxSeq = (done.map footer).foldl max 0
  smallest : ∀ e, done.head? = some e → f.pps.smallestKey = (keyMeta e).key
  largest : ∀ e, done.getLast? = some e → f.pps.largestKey = (keyMeta e).key

theorem closed_flushed (s : Encoder) : (flushed s).closed = s.closed := by
  rw [flushed]
  split <;> rfl

theorem Counted.closeFile (h : Counted s done) (fileLimit : ℕ) :
    ∃ f, (s.closeFile fileLimit).closed = s.closed ++ [f] ∧ Described f done := by
  have hflushed := h.flushed
  rw [Encoder.closeFile, ← EncoderRuns.flushed, ← closed_flushed s]
  generalize EncoderRuns.flushed s = s' at hflushed
  exact ⟨_, rfl, hflushed.rawKeySize, hflushed.rawValueSize, rfl, hflushed.minSeqno,
    hflushed.maxSeqno, hflushed.smallest, hflushed.largest⟩

/-- As long as there is one file, its counters are those of these records. -/
structure Metered (s : Encoder) (done : List Entry) : Prop where
  opened : s.closed = [] → Counted s done
  closed : ∀ f, s.closed = [f] → s.pps.entries = 0 → Described f done

theorem metered_of_two (h : 2 ≤ filesSoFar s) : Metered s done := by
  rw [filesSoFar] at h
  constructor
  · intro hnone
    rw [hnone, List.length_nil] at h
    split at h <;> omega
  · intro f hone hentries
    rw [hone, if_pos hentries, List.length_singleton] at h
    omega

theorem Counted.putAndClose (h : Counted s done) (hopen : Open s blocks cur body indexBody)
    (hdone : blocks.flatMap DataBlock.entries ++ cur = done) {e : Entry} (he : Fits e)
    (window : Bytes) : Counted (putAndClose (keyMeta e) window s) (done ++ [e]) := by
  have hput := (h.withLastUserKey (keyMeta e).key).putRecord
    (hopen.withLastUserKey (keyMeta e).key) hdone he window
  rw [EncoderRuns.putAndClose]
  split
  · exact hput.closeFullBlock
  · exact hput

theorem closed_putAndClose (s : Encoder) (km : KeyMeta) (value : Bytes) :
    (putAndClose km value s).closed = s.closed := by
  have hput := (closed_putRecord { s with lastUserKey := km.key } km value).1
  rw [putAndClose]
  split
  · exact hput
  · exact hput

theorem Metered.encodeRecord (h : Metered s done) (hrunning : Running s done)
    {keepAllVersions : Bool} {e : Entry}
    (hkept : (!keepAllVersions && sameUserKey s.lastUserKey (keyMeta e).key) = false)
    (he : Fits e) (window : Bytes) (fileLimit : ℕ) (last : Bool) :
    Metered (s.encodeRecord keepAllVersions fileLimit last (keyMeta e) window) (done ++ [e]) := by
  have hfiles := @filesSoFar_encodeRecord s keepAllVersions fileLimit last (keyMeta e) window hkept
  have hmore (hclosed : 1 ≤ s.closed.length) : Metered
      (s.encodeRecord keepAllVersions fileLimit last (keyMeta e) window) (done ++ [e]) :=
    metered_of_two (by omega)
  cases hrunning with
  | @opened blocks cur body indexBody hopen hroom hdone =>
    have hcount := (h.opened hopen.closed).putAndClose hopen hdone he window
    have hclosed := closed_putAndClose s (keyMeta e) window
    rw [hopen.closed] at hclosed
    obtain heq | heq := @encodeRecord_of_kept s keepAllVersions fileLimit last (keyMeta e) window hkept
    · rw [heq]
      refine ⟨fun _ => hcount, ?_⟩
      intro f hf
      rw [hclosed] at hf
      cases hf
    · obtain ⟨f, hf, hdescribed⟩ := hcount.closeFile fileLimit
      rw [hclosed, List.nil_append] at hf
      rw [heq]
      refine ⟨?_, ?_⟩
      · intro hnone
        rw [hf] at hnone
        cases hnone
      · intro f' hf' _
        rw [hf] at hf'
        cases hf'
        exact hdescribed
  | finished hfinished =>
    apply hmore
    rw [hfinished.closed]
    exact le_rfl
  | spilled hspilled =>
    apply metered_of_two
    refine hspilled.trans (Nat.le_trans ?_ hfiles)
    rw [filesSoFar]
    split <;> omega

/-- The file of a finished run. -/
theorem Metered.finish (h : Metered s done) {fileLimit : ℕ}
    {f : OutputFile} (hf : (s.finish fileLimit).closed = [f]) : Described f done := by
  rw [Encoder.finish] at hf
  split at hf
  · next hentries =>
    have hnone : s.closed = [] := by
      have hlen := congrArg List.length hf
      rw [closed_closeFile, List.length_singleton] at hlen
      exact List.length_eq_zero_iff.mp (by omega)
    obtain ⟨f', hf', hdescribed⟩ := (h.opened hnone).closeFile fileLimit
    rw [hf', hnone] at hf
    cases hf
    exact hdescribed
  · next hentries => exact h.closed f hf (not_not.mp hentries)

/-! ## The words for the host -/

/-- The key whose length is in one word and whose bytes are in four others. -/
def keyAt (pps : ℕ → ℕ) (lengthOff off : ℕ) : Keystring :=
  ⟨(List.range 4).flatMap fun i => putFixed 8 (pps (off + i)), pps lengthOff⟩

/-- The words say what these records in these blocks are. -/
structure TrueFigures (pps : ℕ → ℕ) (blocks : List DataBlock) (es : List Entry) : Prop where
  numDataBlocks : pps 0 = blocks.length
  entries : pps 1 = es.length
  dataSize : pps 2 = (dataArea blocks).length
  rawKeySize : pps 3 = (es.map fun e => e.key.length).sum
  rawValueSize : pps 4 = (es.map fun e => e.value.length).sum
  indexBlockOffset : pps 5 = (dataArea blocks).length
  smallestKey : es.head?.map (fun e => (keyMeta e).key) = some (keyAt pps 8 10)
  largestKey : es.getLast?.map (fun e => (keyMeta e).key) = some (keyAt pps 9 14)

/-- The manifest has the least and the greatest sequence number of these records. -/
def SeqnosExact (m : ZfSealManifest) (es : List Entry) : Prop :=
  (es.map fun e => SortKeys.sequence e.key).min? = some m.keySmallestSeqno ∧
    (es.map fun e => SortKeys.sequence e.key).max? = some m.keyLargestSeqno

/-- What comes back from the device describes these records, which are its data. -/
def MetadataExact (out : ZfCsdOutput) (es : List Entry) : Prop :=
  ∃ blocks, (∀ b ∈ blocks, b.WellFormed KEY_LENGTH) ∧ blocks.flatMap DataBlock.entries = es ∧
    out.data = dataArea blocks ∧ TrueFigures out.pps blocks es ∧
    ∃ m, zfCsdManifestFromPps out.pps out.data.length out.index.length = some m ∧ SeqnosExact m es

/-- The words of a key give the key back. -/
theorem flatMap_words {key : Bytes} (hkey : key.length = 32) :
    ((List.range 4).flatMap fun i => putFixed 8 (decodeFixed ((key.drop (8 * i)).take 8))) = key := by
  have hword (i : ℕ) (hi : i < 4) :
      putFixed 8 (decodeFixed ((key.drop (8 * i)).take 8)) = (key.drop (8 * i)).take 8 := by
    have hput := putFixed_decodeFixed ((key.drop (8 * i)).take 8)
    rwa [List.length_take, List.length_drop, hkey, Nat.min_eq_left (by omega)] at hput
  have hlast : (key.drop 24).take 8 = key.drop 24 :=
    List.take_of_length_le (by rw [List.length_drop]; omega)
  have hsplit (n : ℕ) : (key.drop n).take 8 ++ key.drop (n + 8) = key.drop n := by
    rw [← List.drop_drop, List.take_append_drop]
  simp only [List.range, List.range.loop, List.flatMap_cons, List.flatMap_nil, List.append_nil]
  rw [hword 0 (by decide), hword 1 (by decide), hword 2 (by decide), hword 3 (by decide), hlast,
    hsplit 16, hsplit 8]
  exact hsplit 0

theorem keyAt_smallest {p : Pps} (hkey : p.smallestKey.c.length = 32) :
    keyAt (ppsWord p) 8 10 = p.smallestKey :=
  congrArg (Keystring.mk · p.smallestKey.length) (flatMap_words hkey)

theorem keyAt_largest {p : Pps} (hkey : p.largestKey.c.length = 32) :
    keyAt (ppsWord p) 9 14 = p.largestKey :=
  congrArg (Keystring.mk · p.largestKey.length) (flatMap_words hkey)

theorem trueFigures_of_described {f : OutputFile} {restarts : List ℕ} {es : List Entry}
    (h : Finished s f blocks indexBody restarts) (hes : blocks.flatMap DataBlock.entries = es)
    (hdescribed : Described f es) (hne : es ≠ []) (hfits : ∀ e ∈ es, Fits e) :
    TrueFigures (ppsWord f.pps) blocks es where
  numDataBlocks := h.numDataBlocks
  entries := hes ▸ h.entries
  dataSize := h.dataSize
  rawKeySize := hdescribed.rawKeySize
  rawValueSize := hdescribed.rawValueSize
  indexBlockOffset := hdescribed.indexBlockOffset.trans h.topSstIndex
  smallestKey := by
    obtain ⟨e, he⟩ := Option.isSome_iff_exists.mp (List.isSome_head?.mpr hne)
    have hkey := hdescribed.smallest e he
    rw [keyAt_smallest (by rw [hkey]; exact (hfits e (List.mem_of_mem_head? he)).1), he, hkey]
    rfl
  largestKey := by
    have he := List.getLast?_eq_some_getLast hne
    have hkey := hdescribed.largest _ he
    rw [keyAt_largest (by rw [hkey]; exact (hfits _ (List.getLast_mem hne)).1), he, hkey]
    rfl

/-! ## The sequence numbers -/

theorem min?_map_div {xs : List ℕ} {x : ℕ} (h : xs.min? = some x) (k : ℕ) :
    (xs.map (· / k)).min? = some (x / k) := by
  rw [List.min?_eq_some_iff] at h ⊢
  refine ⟨List.mem_map_of_mem h.1, ?_⟩
  intro y hy
  obtain ⟨z, hz, rfl⟩ := List.mem_map.mp hy
  exact Nat.div_le_div_right (h.2 z hz)

theorem max?_map_div {xs : List ℕ} {x : ℕ} (h : xs.max? = some x) (k : ℕ) :
    (xs.map (· / k)).max? = some (x / k) := by
  rw [List.max?_eq_some_iff] at h ⊢
  refine ⟨List.mem_map_of_mem h.1, ?_⟩
  intro y hy
  obtain ⟨z, hz, rfl⟩ := List.mem_map.mp hy
  exact Nat.div_le_div_right (h.2 z hz)

theorem map_sequence (es : List Entry) :
    (es.map fun e => SortKeys.sequence e.key) = (es.map footer).map (· / 256) := by
  rw [List.map_map]
  rfl

/-- The least footer is found when it is below the value the search starts from. The division by 256
makes this a matter of the sequence number alone. -/
theorem seqnosExact_iff {m : ZfSealManifest} {es : List Entry} (hne : es ≠ [])
    (hsmallest : m.keySmallestSeqno = (es.map footer).foldl min initialMinSeqno / 256)
    (hlargest : m.keyLargestSeqno = (es.map footer).foldl max 0 / 256) :
    SeqnosExact m es ↔ ∃ e ∈ es, sequence e.key < 2 ^ 48 := by
  have hinit : initialMinSeqno = 2 ^ 56 - 1 := rfl
  have hfooters : es.map footer ≠ [] := List.map_eq_nil_iff.not.mpr hne
  obtain ⟨x, hx⟩ := Option.ne_none_iff_exists'.mp (List.min?_eq_none_iff.not.mpr hfooters)
  obtain ⟨y, hy⟩ := Option.ne_none_iff_exists'.mp (List.max?_eq_none_iff.not.mpr hfooters)
  have hmin := min?_map_div hx 256
  have hmax := max?_map_div hy 256
  rw [List.foldl_min, hx, Option.getD_some] at hsmallest
  rw [List.foldl_max, hy, Option.getD_some, Nat.zero_max] at hlargest
  rw [SeqnosExact, map_sequence, hmin, hmax, hsmallest, hlargest, Option.some_inj]
  rw [List.min?_eq_some_iff] at hx
  constructor
  · rintro ⟨hsame, -⟩
    obtain ⟨e, he, rfl⟩ := List.mem_map.mp hx.1
    refine ⟨e, he, ?_⟩
    change footer e / 256 < 2 ^ 48
    rw [hsame]
    omega
  · rintro ⟨e, he, hlt⟩
    have hle := hx.2 (footer e) (List.mem_map_of_mem he)
    have hfooter : footer e / 256 < 2 ^ 48 := hlt
    exact ⟨by rw [Nat.min_eq_right (by omega)], rfl⟩

theorem seqnos_of_manifest {pps : ℕ → ℕ} {dataSize indexSize : ℕ} {m : ZfSealManifest}
    (h : zfCsdManifestFromPps pps dataSize indexSize = some m) :
    m.keySmallestSeqno = pps 6 / 256 ∧ m.keyLargestSeqno = pps 7 / 256 := by
  rw [zfCsdManifestFromPps] at h
  split at h
  · cases h
  split at h
  · cases h
  cases h
  exact ⟨rfl, rfl⟩

theorem manifest_of_finished {f : OutputFile} {restarts : List ℕ}
    (h : Finished s f blocks indexBody restarts) (hne : blocks.flatMap DataBlock.entries ≠ [])
    (indexSize : ℕ) :
    ∃ m, zfCsdManifestFromPps (ppsWord f.pps) (dataArea blocks).length indexSize = some m := by
  have hblocks : blocks ≠ [] := fun hnil => hne (by rw [hnil, List.flatMap_nil])
  have hsome : ¬ (ppsWord f.pps 0 = 0 ∨ ppsWord f.pps 1 = 0) := by
    rw [ppsWord, ppsWord, h.numDataBlocks, h.entries, List.length_eq_zero_iff,
      List.length_eq_zero_iff]
    exact not_or.mpr ⟨hblocks, hne⟩
  have hmatch : ¬ (ppsWord f.pps 2 ≠ 0 ∧ ppsWord f.pps 2 ≠ (dataArea blocks).length) :=
    fun hbad => hbad.2 h.dataSize
  exact ⟨_, by rw [zfCsdManifestFromPps, if_neg hsome, if_neg hmatch]⟩

/-! ## Runs -/

theorem recordsSize_le {es : List Entry} (hfits : ∀ e ∈ es, Fits e) :
    recordsSize es ≤ 1076 * es.length := by
  induction es with
  | nil => exact le_rfl
  | cons e es ih =>
    have hrest := ih fun e' he' => hfits e' (List.mem_cons_of_mem _ he')
    have hvalue : e.value.length ≤ 1024 := (hfits e List.mem_cons_self).2
    have hsum : recordsSize (e :: es) = 52 + e.value.length + recordsSize es := List.sum_cons
    rw [hsum, List.length_cons]
    omega

variable {keepAllVersions : Bool} {es : List Entry} {inputs rest left : Inputs} {km : KeyMeta}
  {kms : List KeyMeta} {port fileLimit : ℕ} {ports : List ℕ} {bram sst index : ByteMemory.Memory}

/-- The file of a run that leaves one, with its counters. -/
theorem described_of_run (hfeeds : Feeds es inputs rest) (hkm : rest.km = km :: kms)
    (hport : rest.mergeResult = port :: ports) (hes : es ≠ []) (hfits : ∀ e ∈ es, Fits e)
    (hdiffer : es.Pairwise fun e e' => e.key ≠ e'.key) (hmax : es.length ≤ kCsdMaxRecords)
    (hrun : encoder keepAllVersions fileLimit es.length (.start bram sst index) inputs =
      some (s, left)) (hone : s.closed.length = 1) :
    ∃ f blocks indexBody restarts, Finished s f blocks indexBody restarts ∧
      blocks.flatMap DataBlock.entries = keptFrom keepAllVersions ⟨[], 0⟩ es ∧
      Described f (keptFrom keepAllVersions ⟨[], 0⟩ es) := by
  have hmaxrecords : kCsdMaxRecords = 4194304 := rfl
  have hsublist := keptFrom_sublist keepAllVersions ⟨[], 0⟩ es
  have hkept : ∀ e ∈ keptFrom keepAllVersions ⟨[], 0⟩ es, Fits e :=
    fun e he => hfits e (hsublist.subset he)
  have hsize : recordsSize (keptFrom keepAllVersions ⟨[], 0⟩ es) < 2 ^ 35 := by
    have hle := recordsSize_le hkept
    have hlen := hsublist.length_le
    omega
  have hstart : Running (.start bram sst index) [] ∧ Metered (.start bram sst index) [] :=
    ⟨.opened (open_start bram sst index) (by decide) rfl,
      fun _ => counted_start bram sst index, fun _ hf => nomatch hf⟩
  obtain ⟨s', hloop, hrunning, hmetered⟩ := @encoderLoop_rule _ keepAllVersions fileLimit
    (keptFrom keepAllVersions ⟨[], 0⟩ es) (fun s done => Running s done ∧ Metered s done)
    (by
      rintro s done e window last ⟨hrunning, hmetered⟩ hall hw hnew
      have he := hkept e (hall.subset (List.mem_append_right _ (List.mem_singleton_self e)))
      exact ⟨hrunning.next hall hkept (hdiffer.sublist hsublist) hsize hnew hw fileLimit last,
        hmetered.encodeRecord hrunning hnew he window fileLimit last⟩)
    es inputs rest hfeeds [] hstart (List.nil_append _)
  rw [encoder, hloop] at hrun
  dsimp only [Option.bind_eq_bind, Option.bind_some] at hrun
  rw [hkm, hport] at hrun
  cases hrun
  rcases hrunning.finish (keptFrom_ne_nil keepAllVersions hes) hkept hsize fileLimit with
    ⟨f', blocks, indexBody, restarts, hfinished, hall⟩ | hmore
  · exact ⟨f', blocks, indexBody, restarts, hfinished, hall, hmetered.finish hfinished.closed⟩
  · omega

/-- With the true counters only the search for the least footer can go wrong. -/
theorem exact_iff_of_described {f : OutputFile} {restarts : List ℕ} {kept : List Entry}
    (h : Finished s f blocks indexBody restarts) (hall : blocks.flatMap DataBlock.entries = kept)
    (hdescribed : Described f kept) (hne : kept ≠ []) (hfits : ∀ e ∈ kept, Fits e) :
    MetadataExact (readBack s) kept ↔ ∃ e ∈ kept, sequence e.key < 2 ^ 48 := by
  have hmin : ppsWord f.pps 6 = (kept.map footer).foldl min initialMinSeqno := hdescribed.minSeq
  have hmax : ppsWord f.pps 7 = (kept.map footer).foldl max 0 := hdescribed.maxSeq
  have hseqnos {indexSize : ℕ} {m : ZfSealManifest}
      (hm : zfCsdManifestFromPps (ppsWord f.pps) (dataArea blocks).length indexSize = some m) :
      SeqnosExact m kept ↔ ∃ e ∈ kept, sequence e.key < 2 ^ 48 := by
    obtain ⟨hsmallest, hlargest⟩ := seqnos_of_manifest hm
    rw [hmin] at hsmallest
    rw [hmax] at hlargest
    exact seqnosExact_iff hne hsmallest hlargest
  rw [readBack_of_finished h]
  constructor
  · rintro ⟨-, -, -, -, -, m, hmanifest, hexact⟩
    exact (hseqnos hmanifest).mp hexact
  · intro hlow
    obtain ⟨m, hmanifest⟩ := manifest_of_finished h (hall ▸ hne)
      (putBlock indexBody restarts ++ trailer).length
    exact ⟨blocks, h.finished, hall, rfl, trueFigures_of_described h hall hdescribed hne hfits, m,
      hmanifest, (hseqnos hmanifest).mpr hlow⟩

/-- The metadata of a run that leaves one file is exact when and only when one of the records that
are written has a sequence number below 2^48. -/
theorem metadataExact_iff (hfeeds : Feeds es inputs rest) (hkm : rest.km = km :: kms)
    (hport : rest.mergeResult = port :: ports) (hes : es ≠ []) (hfits : ∀ e ∈ es, Fits e)
    (hdiffer : es.Pairwise fun e e' => e.key ≠ e'.key) (hmax : es.length ≤ kCsdMaxRecords)
    (hrun : encoder keepAllVersions fileLimit es.length (.start bram sst index) inputs =
      some (s, left)) (hone : s.closed.length = 1) :
    MetadataExact (readBack s) (keptFrom keepAllVersions ⟨[], 0⟩ es) ↔
      ∃ e ∈ keptFrom keepAllVersions ⟨[], 0⟩ es, sequence e.key < 2 ^ 48 := by
  obtain ⟨f, blocks, indexBody, restarts, hfinished, hall, hdescribed⟩ :=
    described_of_run hfeeds hkm hport hes hfits hdiffer hmax hrun hone
  apply exact_iff_of_described hfinished hall hdescribed (keptFrom_ne_nil keepAllVersions hes)
  exact fun e he => hfits e ((keptFrom_sublist keepAllVersions ⟨[], 0⟩ es).subset he)

namespace LargeSeqno

/-- A record under this footer, as the only one of a run. -/
def record (footer : Bytes) : Entry := ⟨List.replicate 24 97 ++ footer, [7]⟩

def window : Bytes := 7 :: List.replicate 1023 0

def fed (footer : Bytes) : Inputs :=
  ⟨[keyMeta (record footer), maxMark], [0, 0], fun _ => [window.take 512, window.drop 512]⟩

def after : Inputs := ⟨[maxMark], [0], fun p => if p = 0 then [] else
  [window.take 512, window.drop 512]⟩

theorem feeds (footer : Bytes) : Feeds [record footer] (fed footer) after :=
  have hwindow : (window.take 512 ++ window.drop 512).take 1 = [7] := by decide +kernel
  .cons rfl rfl rfl ⟨by decide +kernel, hwindow⟩ (.nil _)

/-- The sequence number 1. -/
def low : Bytes := [1, 1, 0, 0, 0, 0, 0, 0]

/-- The sequence number 2^48. -/
def high : Bytes := [1, 0, 0, 0, 0, 0, 0, 1]

def run (footer : Bytes) : Option (Encoder × Inputs) :=
  encoder false (2 ^ 20) 1 (.start (fun _ => 0) (fun _ => 0) fun _ => 0) (fed footer)

end LargeSeqno

open LargeSeqno in
theorem metadataExact_low : ∃ s left, run low = some (s, left) ∧ s.closed.length = 1 ∧
    MetadataExact (readBack s) [record low] := by
  have hfiles : (run low).map (fun r => r.1.closed.length) = some 1 := by decide +kernel
  obtain ⟨⟨s, left⟩, hrun, hone⟩ := Option.map_eq_some_iff.mp hfiles
  refine ⟨s, left, hrun, hone, ?_⟩
  apply (metadataExact_iff (feeds low) rfl rfl (List.cons_ne_nil _ _)
    (List.forall_mem_singleton.mpr ⟨by decide, by decide⟩) (List.pairwise_singleton _ _) (by decide)
    hrun hone).mpr
  exact ⟨record low, List.mem_singleton_self _, by decide +kernel⟩

open LargeSeqno in
/-- The sequence number is below 2^56, and the manifest gives a smaller one. -/
theorem not_metadataExact_high : sequence (record high).key < 2 ^ 56 ∧
    ∃ s left, run high = some (s, left) ∧ s.closed.length = 1 ∧
      Feeds [record high] (fed high) after ∧ keptFrom false ⟨[], 0⟩ [record high] = [record high] ∧
      ¬ MetadataExact (readBack s) [record high] := by
  have hfiles : (run high).map (fun r => r.1.closed.length) = some 1 := by decide +kernel
  obtain ⟨⟨s, left⟩, hrun, hone⟩ := Option.map_eq_some_iff.mp hfiles
  have hfits : ∀ e ∈ [record high], Fits e :=
    List.forall_mem_singleton.mpr ⟨by decide, by decide⟩
  obtain ⟨f, blocks, indexBody, restarts, hfinished, hall, hdescribed⟩ := described_of_run (feeds high)
    rfl rfl (List.cons_ne_nil _ _) hfits (List.pairwise_singleton _ _) (by decide) hrun hone
  refine ⟨by decide +kernel, s, left, hrun, hone, feeds high, rfl, ?_⟩
  have hkept : keptFrom false ⟨[], 0⟩ [record high] = [record high] := rfl
  rw [hkept] at hall hdescribed
  rw [exact_iff_of_described hfinished hall hdescribed (List.cons_ne_nil _ _) hfits]
  decide +kernel

end ZeroFlush.DeviceProperties
