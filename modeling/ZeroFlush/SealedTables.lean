import ZeroFlush.DeviceChains
import ZeroFlush.EncoderRuns
import ZeroFlush.TableBuilders

/-! # Sealing what the device has written

The device leaves the data blocks and the index block of a table. The host appends the properties,
the metaindex and the footer. The file that results is one that the device reads. -/
namespace ZeroFlush.SealedTables
open FixedWidthCodec WalFormat ByteMemory Varints PrefixCompression BlockTables DeviceStreams
  DeviceEncoder EncoderRuns DeviceChains CsdSlots UserKeys SortKeys
open SstDecoder (Fits decoderSst)
open EncodedTables (Window)
open TableBuilders (BlockBuilder)

/-! ## What comes back from the device -/

/-- The words of a file in the record for the host. -/
def ppsWord (p : Pps) : ℕ → ℕ
  | 0 => p.numDataBlocks
  | 1 => p.entries
  | 2 => p.dataSize
  | 3 => p.rawKeySize
  | 4 => p.rawValueSize
  | 5 => p.indexBlockOffset
  | 6 => p.minSeq
  | 7 => p.maxSeq
  | 8 => p.smallestKey.length
  | 9 => p.largestKey.length
  | n + 10 =>
    if n < 4 then decodeFixed ((p.smallestKey.c.drop (8 * n)).take 8)
    else if n < 8 then decodeFixed ((p.largestKey.c.drop (8 * (n - 4))).take 8)
    else 0

/-- The first file. Of the others the host learns only how many there are. -/
def readBack (s : Encoder) : ZfCsdOutput :=
  match s.closed with
  | [] => ⟨0, [], [], fun _ => 0⟩
  | f :: _ =>
    { fileNum := s.closed.length
      data := load s.sst 0 f.topSstIndex
      index := load s.index 0 f.topIndexBlockIndex
      pps := ppsWord f.pps }

/-! ## The host -/

inductive IndexType
  | kBinarySearch
  | kHashSearch
  | kTwoLevelIndexSearch
  | kBinarySearchWithFirstKey
deriving DecidableEq

/-- The options that the gate looks at. Of a pointer it sees whether there is one. -/
structure ZfSealOptions where
  formatVersion : ℕ
  checksum : ChecksumType
  indexType : IndexType
  filterPolicy : Bool
  partitionFilters : Bool
  noCompression : Bool
  compressionManager : Bool
  prefixExtractor : Bool
  mergeOperator : Bool
  collectorFactories : ℕ
  internalCollectorFactories : ℕ

/-- The conditions in the order of the checks, with what is said when one fails. -/
def ZfSealOptions.gates (o : ZfSealOptions) : List (Bool × String) :=
  [(decide (o.formatVersion = 2),
      "only format_version == 2 is supported (context checksum / " ++
        "compression-manager / footer layouts are versioned)"),
    (decide (o.checksum = .kNoChecksum ∨ o.checksum = .kCRC32c),
      "only kNoChecksum / kCRC32c checksum is supported"),
    (decide (o.indexType = .kBinarySearch), "only kBinarySearch index is supported"),
    (!o.filterPolicy, "filter_policy must be nullptr"),
    (!o.partitionFilters, "partition_filters must be false (no filter block)"),
    (o.noCompression, "compression_type must be kNoCompression"),
    (!o.compressionManager, "explicit compression manager not supported"),
    (!o.prefixExtractor, "prefix_extractor must be nullptr"),
    (!o.mergeOperator, "merge_operator must be nullptr"),
    (decide (o.collectorFactories = 0), "table properties collector factories must be empty"),
    (decide (o.internalCollectorFactories = 0),
      "internal table properties collector factories must be empty")]

def zfSealLockedConfigOk (o : ZfSealOptions) : Except String Unit :=
  match o.gates.find? fun g => !g.1 with
  | none => .ok ()
  | some g => .error g.2

def kZfBlockTrailerSize : ℕ := 5

/-- `crc32c::Mask`. -/
def maskCrc (crc : UInt32) : UInt32 := ((crc >>> 15) ||| (crc <<< 17)) + 0xa282ead8

/-- The gate has refused the types that hash. -/
def computeBuiltinChecksumWithLastByte (checksum : ChecksumType) (contents : Bytes)
    (lastByte : UInt8) : UInt32 :=
  if checksum = .kCRC32c then maskCrc (crc32c (contents ++ [lastByte])) else 0

/-- The type of an uncompressed block and the checksum. -/
def sealTrailer (checksum : ChecksumType) (contents : Bytes) : Bytes :=
  0 :: putFixed 4 (computeBuiltinChecksumWithLastByte checksum contents 0).toNat

structure SealWriter where
  file : Bytes
  offset : ℕ

/-- The block goes behind what is written, but its handle says what the writer believes. -/
def zfSealAppendBlock (o : ZfSealOptions) (w : SealWriter) (contents : Bytes) :
    SealWriter × BlockHandle :=
  (⟨w.file ++ (contents ++ sealTrailer o.checksum contents),
      w.offset + contents.length + kZfBlockTrailerSize⟩,
    ⟨w.offset, contents.length⟩)

def kPropertiesBlockName : Bytes := "rocksdb.properties".toList.map fun c => UInt8.ofNat c.toNat

/-- `MetaIndexBuilder` with the properties block only. -/
def metaindexBlock (props : BlockHandle) : Bytes :=
  (BlockBuilder.empty.add 1 ⟨kPropertiesBlockName, props.encodeTo⟩).finish

/-- `ZfSeal` behind the data and the index. `properties` are the contents of the properties block. An
error is the message of `InvalidArgument`. -/
def zfSeal (properties : ZfSealOptions → ZfSealManifest → Bytes) (o : ZfSealOptions)
    (m : ZfSealManifest) (written : Bytes) : Except String Bytes :=
  if m.indexSize < kZfBlockTrailerSize then
    .error "ZfSeal: manifest.index_size too small for a block trailer"
  else
    match zfSealLockedConfigOk o with
    | .error why => .error ("ZfSeal unsupported config: " ++ why)
    | .ok () =>
      let props := zfSealAppendBlock o ⟨written, m.dataSize + m.indexSize⟩ (properties o m)
      let metaindex := zfSealAppendBlock o props.1 (metaindexBlock props.2)
      .ok (metaindex.1.file ++ putFooter o.checksum metaindex.2
        ⟨m.dataSize, m.indexSize - kZfBlockTrailerSize⟩)

/-! ## The sealed file -/

variable {o : ZfSealOptions} {s : Encoder} {f : OutputFile} {blocks : List DataBlock}
  {indexBody : Bytes} {restarts : List ℕ}

theorem checksum_of_locked (h : zfSealLockedConfigOk o = .ok ()) :
    o.checksum = .kNoChecksum ∨ o.checksum = .kCRC32c := by
  rw [zfSealLockedConfigOk] at h
  split at h
  · next hnone =>
    have hgate := List.find?_eq_none.mp hnone
      (decide (o.checksum = .kNoChecksum ∨ o.checksum = .kCRC32c),
        "only kNoChecksum / kCRC32c checksum is supported") (by simp [ZfSealOptions.gates])
    rwa [Bool.not_eq_true, Bool.not_eq_false', decide_eq_true_eq] at hgate
  · cases h

@[simp] theorem length_sealTrailer (checksum : ChecksumType) (contents : Bytes) :
    (sealTrailer checksum contents).length = 5 := by
  rw [sealTrailer, List.length_cons, length_putFixed]

theorem length_metaindexBlock (h : BlockHandle) : (metaindexBlock h).length ≤ 49 := by
  have hlen := length_encodeTo_le h
  have hname : kPropertiesBlockName.length = 18 := by decide
  have hshared : sharedLength BlockBuilder.empty.lastKey kPropertiesBlockName = 0 := rfl
  have hrestarts : BlockBuilder.empty.restarts.length = 1 := rfl
  have h0 : (putVarint 0).length ≤ 0 + 1 := length_putVarint_le (by decide)
  have h1 : (putVarint 18).length ≤ 0 + 1 := length_putVarint_le (by decide)
  have h2 : (putVarint h.encodeTo.length).length ≤ 0 + 1 := length_putVarint_le (by omega)
  rw [metaindexBlock, BlockBuilder.add, BlockBuilder.finish, length_putBlock,
    BlockBuilder.addWithLastKeyImpl_of_lt Nat.zero_lt_one]
  simp only [BlockBuilder.buffer_empty, List.nil_append, putEntry, List.length_append, hshared,
    List.drop_zero, hname, hrestarts, Nat.sub_zero]
  omega

/-- The file as the reader sees it. -/
def sealedLayout (o : ZfSealOptions) (props : Bytes) (blocks : List DataBlock) (indexBody : Bytes)
    (restarts : List ℕ) : Layout :=
  let written := (dataArea blocks).length + (putBlock indexBody restarts ++ trailer).length
  let metaindex := metaindexBlock ⟨written, props.length⟩
  { blocks := blocks
    indexBody := indexBody
    indexRestarts := restarts
    middle := props ++ sealTrailer o.checksum props ++
      (metaindex ++ sealTrailer o.checksum metaindex)
    metaindex := ⟨written + props.length + kZfBlockTrailerSize, metaindex.length⟩
    checksum := o.checksum }

variable {properties : ZfSealOptions → ZfSealManifest → Bytes} {m : ZfSealManifest}

theorem zfSeal_eq (hgate : zfSealLockedConfigOk o = .ok ())
    (hdata : m.dataSize = (dataArea blocks).length)
    (hindex : m.indexSize = (putBlock indexBody restarts ++ trailer).length) :
    zfSeal properties o m (dataArea blocks ++ (putBlock indexBody restarts ++ trailer)) =
      .ok (sealedLayout o (properties o m) blocks indexBody restarts).bytes := by
  have hlong : ¬ m.indexSize < kZfBlockTrailerSize := by
    rw [hindex, List.length_append]
    exact Nat.not_lt.mpr (Nat.le_add_left _ _)
  have hcontents : (putBlock indexBody restarts ++ trailer).length - kZfBlockTrailerSize =
      (putBlock indexBody restarts).length := by
    rw [List.length_append]
    exact Nat.add_sub_cancel _ _
  rw [zfSeal, if_neg hlong, hgate]
  dsimp only [zfSealAppendBlock]
  rw [hindex, hdata, hcontents]
  simp only [Layout.bytes, sealedLayout, Layout.indexContent, Layout.indexHandle, List.append_assoc]

theorem wellFormed_sealedLayout (hgate : zfSealLockedConfigOk o = .ok ())
    (h : Finished s f blocks indexBody restarts) (props : Bytes) :
    (sealedLayout o props blocks indexBody restarts).WellFormed KEY_LENGTH := by
  constructor
  case blocks => exact h.finished
  case index => exact h.index
  case restarts_le => exact h.restarts_le.trans (Nat.le_max_right 1 _)
  case metaindex =>
    have htrailer : kZfBlockTrailerSize = 5 := rfl
    simp only [sealedLayout, Layout.bytes, Layout.indexContent, List.length_append, length_trailer,
      length_sealTrailer, htrailer]
    omega
  case checksum => exact checksum_of_locked hgate

/-- The host finds the data and the index of the file. -/
theorem readBack_of_finished (h : Finished s f blocks indexBody restarts) :
    readBack s = ⟨1, dataArea blocks, putBlock indexBody restarts ++ trailer, ppsWord f.pps⟩ := by
  rw [readBack, h.closed]
  dsimp only
  rw [h.data.load_eq h.topSstIndex, h.written.load_eq h.topIndexBlockIndex]
  rfl

/-- An entry of the index takes at most 55 bytes. -/
theorem length_indexBody_le {prev : Bytes} {offset : ℕ}
    (h : Compressed prev (indexEntries offset blocks) indexBody)
    (hblocks : ∀ b ∈ blocks, b.WellFormed KEY_LENGTH) :
    indexBody.length ≤ 55 * blocks.length := by
  have hK : KEY_LENGTH = 32 := rfl
  induction blocks generalizing prev offset indexBody with
  | nil =>
    rw [h.eq_nil]
    exact le_rfl
  | cons b blocks ih =>
    have hwell := hblocks b List.mem_cons_self
    have hle := hwell.separator_le
    cases h with
    | @cons _ bs _ _ shared hlt hshared hrest =>
      have hnext := ih hrest fun b' hb' => hblocks b' (List.mem_cons_of_mem _ hb')
      have hhandle := length_encodeTo_le ⟨offset, b.content.length⟩
      dsimp only at hlt
      have h1 : (putVarint shared).length ≤ 0 + 1 := length_putVarint_le (by omega)
      have h2 : (putVarint (b.separator.length - shared)).length ≤ 0 + 1 :=
        length_putVarint_le (by omega)
      have h3 : (putVarint (BlockHandle.mk offset b.content.length).encodeTo.length).length ≤
        0 + 1 := length_putVarint_le (by omega)
      simp only [putEntry, List.length_append, List.length_drop, List.length_cons]
      omega

theorem length_sealedLayout_lt (h : Finished s f blocks indexBody restarts)
    (hdata : (dataArea blocks).length ≤ kCsdMaxStagedBytes) {props : Bytes}
    (hprops : props.length < 2 ^ 31) (o : ZfSealOptions) :
    (sealedLayout o props blocks indexBody restarts).bytes.length < 2 ^ 32 := by
  have hmax : kCsdMaxStagedBytes = 67108864 := rfl
  have htrailer : kZfBlockTrailerSize = 5 := rfl
  have hfull := h.full
  have hspaced := h.spaced
  have hindex := length_indexBody_le h.index h.finished
  have hcontent := length_putBlock indexBody restarts
  generalize ht : sealedLayout o props blocks indexBody restarts = t
  have hwritten : t.indexContent.length = (putBlock indexBody restarts).length := by rw [← ht]; rfl
  have harea : (dataArea t.blocks).length = (dataArea blocks).length := by rw [← ht]; rfl
  obtain ⟨hmiddle, hoffset, hsize⟩ : t.middle.length = props.length + 5 + (t.metaindex.size + 5) ∧
      t.metaindex.offset = (dataArea blocks).length + ((putBlock indexBody restarts).length + 5) +
        props.length + 5 ∧ t.metaindex.size ≤ 49 := by
    rw [← ht]
    simp only [sealedLayout, List.length_append, length_trailer, length_sealTrailer, htrailer]
    exact ⟨trivial, trivial, length_metaindexBlock _⟩
  rw [Layout.length_bytes]
  omega

/-- The reader takes a sealed file of no more data than is staged at once. -/
theorem accepted_sealedLayout (hgate : zfSealLockedConfigOk o = .ok ())
    (h : Finished s f blocks indexBody restarts)
    (hfits : ∀ e ∈ blocks.flatMap DataBlock.entries, Fits e)
    (hdata : (dataArea blocks).length ≤ kCsdMaxStagedBytes) {props : Bytes}
    (hsmall : (sealedLayout o props blocks indexBody restarts).bytes.length < 2 ^ 32) :
    Accepted (sealedLayout o props blocks indexBody restarts) ∧
      indexRead (sealedLayout o props blocks indexBody restarts) = true := by
  have hmax : kCsdMaxStagedBytes = 67108864 := rfl
  have hfull := h.full
  have hspaced := h.spaced
  have hblocks : blocks.length ≤ 100000 := by omega
  have hrestarts : restarts.length ≤ 4096 := by omega
  exact ⟨⟨wellFormed_sealedLayout hgate h props, hfits, hsmall, fun _ => hblocks⟩,
    decide_eq_true hrestarts⟩

/-! ## From the staged records to the file -/

variable {part gen : ℕ} {keys values : List Bytes} {slot : ZfCsdSlot × ℕ}

/-- The records of an A slot. -/
def records (keys values : List Bytes) : List Entry := (keys.zip values).map fun r => ⟨r.1, r.2⟩

/-- The host seals the output to this file. -/
def SealsTo (properties : ZfSealOptions → ZfSealManifest → Bytes) (o : ZfSealOptions)
    (out : ZfCsdOutput) (file : Bytes) : Prop :=
  ∃ m, zfCsdManifestFromPps out.pps out.data.length out.index.length = some m ∧
    zfSeal properties o m (out.data ++ out.index) = .ok file

/-- From the chain of this one file the device reads these records, and no others. -/
def ReadsAs (file : Bytes) (es : List Entry) : Prop :=
  ∀ buf, Holds buf 0 (buildCsdSlotB [file]).bytes →
    Emits (decoderSst buf (buildCsdSlotB [file]).fileSize) es

theorem length_slotFrame {ik : Bytes} (hik : ik.length = 32) (part : ℕ) (value : Bytes) :
    (slotFrame part ik value).length = 52 + value.length := by
  rw [slotFrame, length_encodeZfRecord, List.length_take, hik]
  rfl

theorem length_frames {rs : List (Bytes × Bytes)} (hrs : ∀ r ∈ rs, r.1.length = 32) (part : ℕ) :
    (rs.flatMap fun r => slotFrame part r.1 r.2).length =
      recordsSize (rs.map fun r => ⟨r.1, r.2⟩) := by
  induction rs with
  | nil => rfl
  | cons r rs ih =>
    have hrest := ih fun r' hr' => hrs r' (List.mem_cons_of_mem _ hr')
    have hsum : recordsSize ((r :: rs).map fun r => ⟨r.1, r.2⟩) =
        52 + r.2.length + recordsSize (rs.map fun r => ⟨r.1, r.2⟩) := List.sum_cons
    rw [hsum, List.flatMap_cons, List.length_append, length_slotFrame (hrs r List.mem_cons_self),
      hrest]

/-- What the host checks before it stages the records. -/
theorem records_of_slotA (h : buildCsdSlotAFromSorted part gen keys values = some slot) :
    keys.length = values.length ∧ keys ≠ [] ∧ (∀ e ∈ records keys values, Fits e) ∧
      recordsSize (records keys values) ≤ kCsdMaxStagedBytes := by
  have hne := ne_nil_of_slotA h
  rw [buildCsdSlotAFromSorted] at h
  split at h
  · cases h
  next hlists =>
  split at h
  · cases h
  next hall =>
  dsimp only at h
  split at h
  · cases h
  next hsize =>
  have hrecord : ∀ r ∈ keys.zip values, r.1.length = 32 ∧ r.2.length ≤ kCsdMaxValueBytes := by
    intro r hr
    have hno := mt (fun hbad => List.any_eq_true.mpr ⟨r, hr, hbad⟩) hall
    rw [Bool.or_eq_true, bne_iff_ne, decide_eq_true_eq, not_or, not_not, Nat.not_lt] at hno
    exact hno
  rw [length_frames (fun r hr => (hrecord r hr).1)] at hsize
  refine ⟨not_not.mp fun hlen => hlists (.inl hlen), hne, ?_, Nat.not_lt.mp hsize⟩
  intro e he
  obtain ⟨r, hr, rfl⟩ := List.mem_map.mp he
  exact hrecord r hr

theorem map_key_records (h : keys.length = values.length) :
    (records keys values).map Entry.key = keys := by
  rw [records, List.map_map]
  exact List.map_fst_zip h.le

/-- Keys in strictly increasing order are different. -/
theorem ne_of_internalCompare {ucmp : UserComparator} {a b : Bytes}
    (h : internalCompare ucmp a b = .lt) : a ≠ b := by
  rintro rfl
  have hself : ucmp.compare (extractUserKey a) (extractUserKey a) = .eq := Std.ReflCmp.compare_self
  rw [internalCompare, hself] at h
  simp only [gt_iff_lt, lt_self_iff_false, if_false, reduceCtorEq] at h

theorem pairwise_records {ucmp : UserComparator} (hlen : keys.length = values.length)
    (h : keys.Pairwise fun a b => internalCompare ucmp a b = .lt) :
    (records keys values).Pairwise fun e e' => e.key ≠ e'.key := by
  have hkeys := h.imp fun {_ _} hab => ne_of_internalCompare hab
  rw [← map_key_records hlen, List.pairwise_map] at hkeys
  exact hkeys

theorem readsAs_of_accepted {t : Layout} (ht : Accepted t) (hread : indexRead t = true) :
    ReadsAs t.bytes t.entries := by
  intro buf hbuf
  have hmax : kCsdMaxChainFiles = 64 := rfl
  have hsmall := ht.small
  obtain ⟨hsize, -⟩ := @buildCsdSlotB_of_files [t.bytes] (List.cons_ne_nil _ _)
    (by rw [List.length_singleton]; omega)
  have hemits := @decoderSst_chain buf [t] (fun t' ht' => List.mem_singleton.mp ht' ▸ ht)
    (List.cons_ne_nil _ _) (by rw [List.length_singleton]; omega)
    (by
      rw [List.map_singleton, hsize, List.length_singleton, List.flatten_singleton]
      omega) hbuf
  rw [List.takeWhile_cons_of_pos hread, List.takeWhile_nil, List.flatMap_singleton,
    List.map_singleton] at hemits
  exact hemits

/-- Sealed, the one file of a run is read back by the device. -/
theorem readsAs_of_finished {properties : ZfSealOptions → ZfSealManifest → Bytes}
    (hprops : ∀ o m, (properties o m).length < 2 ^ 31) (hgate : zfSealLockedConfigOk o = .ok ())
    (h : Finished s f blocks indexBody restarts) {es : List Entry} (hne : es ≠ [])
    (hes : blocks.flatMap DataBlock.entries = es) (hfits : ∀ e ∈ es, Fits e)
    (hsize : recordsSize es ≤ kCsdMaxStagedBytes) :
    ∃ file, SealsTo properties o (readBack s) file ∧ ReadsAs file es := by
  subst hes
  have hblocks : blocks ≠ [] := fun hnil => hne (by rw [hnil, List.flatMap_nil])
  have hsome : ¬ (ppsWord f.pps 0 = 0 ∨ ppsWord f.pps 1 = 0) := by
    rw [ppsWord, ppsWord, h.numDataBlocks, h.entries, List.length_eq_zero_iff,
      List.length_eq_zero_iff]
    exact not_or.mpr ⟨hblocks, hne⟩
  have hmatch : ¬ (ppsWord f.pps 2 ≠ 0 ∧ ppsWord f.pps 2 ≠ (dataArea blocks).length) :=
    fun hbad => hbad.2 h.dataSize
  let m : ZfSealManifest :=
    { dataSize := (dataArea blocks).length
      indexSize := (putBlock indexBody restarts ++ trailer).length
      numEntries := ppsWord f.pps 1
      numDataBlocks := ppsWord f.pps 0
      rawKeySize := ppsWord f.pps 3
      rawValueSize := ppsWord f.pps 4
      keySmallestSeqno := ppsWord f.pps 6 / 256
      keyLargestSeqno := ppsWord f.pps 7 / 256 }
  have hmanifest : zfCsdManifestFromPps (ppsWord f.pps) m.dataSize m.indexSize = some m := by
    rw [zfCsdManifestFromPps, if_neg hsome, if_neg hmatch]
  have hdata := (length_dataArea_le h.finished hfits).trans hsize
  obtain ⟨haccepted, hread⟩ := accepted_sealedLayout hgate h hfits hdata
    (length_sealedLayout_lt h hdata (hprops o m) o)
  refine ⟨(sealedLayout o (properties o m) blocks indexBody restarts).bytes, ⟨m, ?_, ?_⟩,
    readsAs_of_accepted haccepted hread⟩
  · rw [readBack_of_finished h]
    exact hmanifest
  · rw [readBack_of_finished h]
    exact zfSeal_eq hgate rfl rfl

/-- The device reads what it has written: for every list of records that the host stages in strictly
increasing order, a run of the writer that keeps all versions and leaves one file gives, when it is
sealed, a file from which exactly these records are read. -/
theorem readsAs_sealed {ucmp : UserComparator}
    {properties : ZfSealOptions → ZfSealManifest → Bytes}
    (hprops : ∀ o m, (properties o m).length < 2 ^ 31) (hgate : zfSealLockedConfigOk o = .ok ())
    (hslot : buildCsdSlotAFromSorted part gen keys values = some slot)
    (hsorted : keys.Pairwise fun a b => internalCompare ucmp a b = .lt) {inputs rest : Inputs}
    (hfeeds : Feeds (records keys values) inputs rest) {km : KeyMeta} {kms : List KeyMeta}
    {port : ℕ} {ports : List ℕ} (hkm : rest.km = km :: kms)
    (hport : rest.mergeResult = port :: ports) (fileLimit : ℕ) (bram sst index : Memory) :
    ∃ s, encoder true fileLimit keys.length (.start bram sst index) inputs =
        some (s, { rest with km := kms, mergeResult := ports }) ∧
      (s.closed.length = 1 → s.overflow = false →
        ∃ file, SealsTo properties o (readBack s) file ∧ ReadsAs file (records keys values)) := by
  have hmax : kCsdMaxStagedBytes = 67108864 := rfl
  obtain ⟨hlen, hne, hfits, hsize⟩ := records_of_slotA hslot
  have hcount : (records keys values).length = keys.length := by
    rw [← List.length_map (f := Entry.key), map_key_records hlen]
  have hnonempty : records keys values ≠ [] := by
    intro hnil
    rw [hnil, List.length_nil] at hcount
    exact hne (List.length_eq_zero_iff.mp hcount.symm)
  have hdiffer := pairwise_records hlen hsorted
  obtain ⟨s, hrun, hleft⟩ := @encoder_spec true (records keys values) inputs rest hfeeds km kms port
    ports hkm hport hnonempty (by rwa [keptFrom_all]) (by rwa [keptFrom_all])
    (by rw [keptFrom_all]; omega) fileLimit bram sst index
  rw [hcount] at hrun
  refine ⟨s, hrun, ?_⟩
  intro hone _
  rcases hleft with ⟨f, blocks, indexBody, restarts, hfinished, hall⟩ | hmore
  · rw [keptFrom_all] at hall
    exact readsAs_of_finished hprops hgate hfinished hnonempty hall hfits hsize
  · omega

/-- The options of the device path. -/
def lockedOptions : ZfSealOptions :=
  ⟨2, .kNoChecksum, .kBinarySearch, false, false, true, false, false, false, 0, 0⟩

namespace OneRecord

def key : Bytes := List.replicate 24 97 ++ [1, 1, 0, 0, 0, 0, 0, 0]

def window : Bytes := 7 :: List.replicate 1023 0

def inputs : Inputs :=
  ⟨[keyMeta ⟨key, [7]⟩, maxMark], [0, 0], fun _ => [window.take 512, window.drop 512]⟩

end OneRecord

theorem readsAs_sealed_one : ∃ s rest, encoder true (2 ^ 20) 1
      (.start (fun _ => 0) (fun _ => 0) fun _ => 0) OneRecord.inputs = some (s, rest) ∧
    s.closed.length = 1 ∧ ∃ file, SealsTo (fun _ _ => []) lockedOptions (readBack s) file ∧
      ReadsAs file (records [OneRecord.key] [[7]]) := by
  have hsome : (buildCsdSlotAFromSorted 0 1 [OneRecord.key] [[7]]).isSome := by decide +kernel
  obtain ⟨slot, hslot⟩ := Option.isSome_iff_exists.mp hsome
  have hwindow : Window ⟨OneRecord.key, [7]⟩
      (OneRecord.window.take 512 ++ OneRecord.window.drop 512) := ⟨by decide +kernel, by decide +kernel⟩
  have hfeeds : Feeds (records [OneRecord.key] [[7]]) OneRecord.inputs _ :=
    .cons rfl rfl rfl hwindow (.nil _)
  obtain ⟨s, hrun, hseals⟩ := @readsAs_sealed lockedOptions 0 1 [OneRecord.key] [[7]] slot .bytewise
    (fun _ _ => []) (fun _ _ => by decide) rfl hslot (List.pairwise_singleton _ _) _ _ hfeeds _ _ _ _
    rfl rfl (2 ^ 20) (fun _ => 0) (fun _ => 0) fun _ => 0
  have hfiles : (encoder true (2 ^ 20) 1 (.start (fun _ => 0) (fun _ => 0) fun _ => 0)
      OneRecord.inputs).map (fun r => (r.1.closed.length, r.1.overflow)) = some (1, false) := by
    decide +kernel
  have hrun' : encoder true (2 ^ 20) 1 (.start (fun _ => 0) (fun _ => 0) fun _ => 0)
      OneRecord.inputs = some (s, _) := hrun
  rw [hrun', Option.map_some, Option.some_inj, Prod.mk.injEq] at hfiles
  exact ⟨s, _, hrun, hfiles.1, hseals hfiles.1 hfiles.2⟩

end ZeroFlush.SealedTables
