import Mathlib.Algebra.Order.BigOperators.Group.List
import Mathlib.Data.List.TakeWhile
import ZeroFlush.DeviceFiles
import ZeroFlush.SealedTables

/-! # What the device reads of the B side

The host scans the files of the B side with the reader of the engine and counts their entries. The
device reads the same files from the chain that it is given. -/
namespace ZeroFlush.BaseTables
open FixedWidthCodec UserKeys ByteMemory PrefixCompression BlockTables DeviceStreams DeviceEncoder
  EncoderRuns DeviceChains CsdSlots SealedTables TableBuilders DeviceFiles
open SstDecoder (Fits decoderSst)
open CsdWorld (kMaxMergeInputBytes)

/-- A run of the device whose one file has been sealed. -/
structure SealedRun where
  properties : ZfSealOptions → ZfSealManifest → Bytes
  options : ZfSealOptions
  keepAllVersions : Bool
  fileLimit : ℕ
  bram : Memory
  sst : Memory
  index : Memory
  merged : List Entry
  inputs : Inputs
  rest : Inputs
  final : Encoder
  file : Bytes
  locked : zfSealLockedConfigOk options = .ok ()
  feeds : Feeds merged inputs rest
  ends : rest.km ≠ [] ∧ rest.mergeResult ≠ []
  nonempty : merged ≠ []
  fits : ∀ e ∈ keptFrom keepAllVersions ⟨[], 0⟩ merged, Fits e
  differ : (keptFrom keepAllVersions ⟨[], 0⟩ merged).Pairwise fun e e' => e.key ≠ e'.key
  /-- The offsets in the output have 35 bits. -/
  small : recordsSize (keptFrom keepAllVersions ⟨[], 0⟩ merged) < 2 ^ 35
  run : ∃ left, encoder keepAllVersions fileLimit merged.length (.start bram sst index) inputs =
    some (final, left)
  one : final.closed.length = 1
  written : SealsTo properties options (readBack final) file

/-- The records in the file. -/
def SealedRun.entries (r : SealedRun) : List Entry := keptFrom r.keepAllVersions ⟨[], 0⟩ r.merged

/-- A file of the B side: written by the table builder of the host, or by the device. -/
inductive BaseTable
  | host (ucmp : TableComparator) (es : List Entry) (hes : Buildable es)
      (other metaindexContent : Bytes)
  | device (r : SealedRun)

namespace BaseTable

def bytes : BaseTable → Bytes
  | host ucmp es _ other metaindexContent => buildTable ucmp es other metaindexContent
  | device r => r.file

def entries : BaseTable → List Entry
  | host _ es _ _ _ => es
  | device r => r.entries

/-- The index of a file of the host has a restart for every data block. The reader allows 4096. -/
def IndexFits : BaseTable → Prop
  | host ucmp es _ _ _ => (closedBuilder ucmp es).indexBlock.restarts.length ≤ 4096
  | device _ => True

end BaseTable

variable {w : CsdWorld} {f : TableFile} {files : List TableFile} {t : BaseTable} {ts : List BaseTable}
  {staged : ℕ} {b b' : CsdWorld.BSide} {buf : Memory}

/-- The file is this table, and the reader of the engine finds its entries. -/
structure Stores (w : CsdWorld) (f : TableFile) (t : BaseTable) : Prop where
  read : w.readFile f.fd.number = .ok t.bytes
  iterate : w.iterate f.fd.number = .ok (t.entries.map fun e => (e.key, e.value))

/-- The device delivers the entries of all files in order and nothing else, and they are as many as
the host has counted. -/
def ReadsCompletely (buf : Memory) (b : CsdWorld.BSide) (ts : List BaseTable) : Prop :=
  Emits (decoderSst buf (buildCsdSlotB b.files).fileSize) (ts.flatMap BaseTable.entries) ∧
    (ts.flatMap BaseTable.entries).length = b.count

/-! ## The files of a scan -/

theorem scanFile_spec (hstores : Stores w f t) (h : w.scanFile staged b f = some b') :
    b' = ⟨b.count + t.entries.length, b.bytes + t.bytes.length, b.files ++ [t.bytes]⟩ ∧
      b.bytes + t.bytes.length ≤ kMaxMergeInputBytes ∧ ∀ e ∈ t.entries, Fits e := by
  rw [CsdWorld.scanFile, hstores.read, hstores.iterate] at h
  obtain ⟨hsize, h⟩ := Option.ite_none_left_eq_some.mp h
  dsimp only [Except.toOption, Option.bind_eq_bind, Option.bind_some] at h
  obtain ⟨hlen, h⟩ := Option.ite_none_left_eq_some.mp h
  obtain ⟨hall, h⟩ := Option.ite_none_right_eq_some.mp h
  rw [not_not] at hlen
  rw [← hlen, List.length_map] at h
  refine ⟨(Option.some_inj.mp h).symm, by omega, ?_⟩
  intro e he
  have hrecord := List.all_eq_true.mp hall _ (List.mem_map_of_mem he)
  rw [Bool.and_eq_true, Bool.and_eq_true, beq_iff_eq, decide_eq_true_eq] at hrecord
  exact ⟨hrecord.1.1, hrecord.2⟩

theorem scan_spec (hstores : List.Forall₂ (Stores w) files ts)
    (h : files.foldlM (w.scanFile staged) b = some b') :
    b'.files = b.files ++ ts.map BaseTable.bytes ∧
      b'.count = b.count + (ts.flatMap BaseTable.entries).length ∧
      ∀ t ∈ ts, t.bytes.length ≤ kMaxMergeInputBytes ∧ ∀ e ∈ t.entries, Fits e := by
  induction hstores generalizing b with
  | nil =>
    cases h
    exact ⟨(List.append_nil _).symm, rfl, fun t ht => absurd ht List.not_mem_nil⟩
  | @cons f t files ts hfile _ ih =>
    rw [List.foldlM_cons] at h
    obtain ⟨next, hscan, h⟩ := Option.bind_eq_some_iff.mp h
    obtain ⟨rfl, hsize, hfits⟩ := scanFile_spec hfile hscan
    obtain ⟨hfiles, hcount, hall⟩ := ih h
    refine ⟨?_, ?_, ?_⟩
    · rw [hfiles, List.append_assoc]
      rfl
    · rw [hcount, List.flatMap_cons, List.length_append]
      exact Nat.add_assoc _ _ _
    · intro t' ht'
      rcases List.mem_cons.mp ht' with rfl | ht'
      · exact ⟨by omega, hfits⟩
      · exact hall t' ht'

/-! ## The layout of a file -/

theorem sizes_of_manifest {pps : ℕ → ℕ} {dataSize indexSize : ℕ} {m : ZfSealManifest}
    (h : zfCsdManifestFromPps pps dataSize indexSize = some m) :
    m.dataSize = dataSize ∧ m.indexSize = indexSize := by
  rw [zfCsdManifestFromPps] at h
  obtain ⟨-, h⟩ := Option.ite_none_left_eq_some.mp h
  obtain ⟨-, h⟩ := Option.ite_none_left_eq_some.mp h
  cases h
  exact ⟨rfl, rfl⟩

theorem SealedRun.exists_layout (r : SealedRun) (hlen : r.file.length ≤ kMaxMergeInputBytes) :
    ∃ l : Layout, l.bytes = r.file ∧ l.entries = r.entries ∧ Accepted l ∧ indexRead l = true := by
  have hmax : kMaxMergeInputBytes = 33554432 := rfl
  have hstaged : kCsdMaxStagedBytes = 67108864 := rfl
  obtain ⟨km, kms, hkm⟩ := List.exists_cons_of_ne_nil r.ends.1
  obtain ⟨port, ports, hport⟩ := List.exists_cons_of_ne_nil r.ends.2
  obtain ⟨left, hrun⟩ := r.run
  obtain ⟨s, hspec, hleft⟩ := encoder_spec r.feeds hkm hport r.nonempty r.fits r.differ r.small
    r.fileLimit r.bram r.sst r.index
  rw [hspec, Option.some_inj, Prod.mk.injEq] at hrun
  obtain ⟨rfl, -⟩ := hrun
  have hone := r.one
  obtain ⟨f, blocks, indexBody, restarts, hfinished, hall⟩ | hmore := hleft
  · obtain ⟨m, hmanifest, hseal⟩ := r.written
    rw [readBack_of_finished hfinished] at hmanifest hseal
    obtain ⟨hdata, hindex⟩ := sizes_of_manifest hmanifest
    rw [zfSeal_eq r.locked hdata hindex] at hseal
    have hfile := Except.ok.inj hseal
    have harea : (dataArea blocks).length ≤ r.file.length := by
      rw [← hfile, Layout.bytes]
      simp only [List.length_append]
      show (dataArea blocks).length ≤ (dataArea blocks).length + _ + _ + _
      omega
    obtain ⟨haccepted, hread⟩ := accepted_sealedLayout r.locked hfinished
      (fun e he => r.fits e (hall ▸ he)) (by omega) (by rw [hfile]; omega)
    exact ⟨_, hfile, hall, haccepted, hread⟩
  · omega

/-- Every file of a scan has a layout. What decides is the number of restarts in its index, and a
file without entries has but one. -/
theorem exists_layout_base (t : BaseTable) (hlen : t.bytes.length ≤ kMaxMergeInputBytes)
    (hfits : ∀ e ∈ t.entries, Fits e) :
    ∃ l : Layout, l.bytes = t.bytes ∧ l.entries = t.entries ∧ Accepted l ∧
      (indexRead l = true ↔ t.IndexFits) ∧ (l.entries = [] → indexRead l = true) := by
  have hmax : kMaxMergeInputBytes = 33554432 := rfl
  cases t with
  | host ucmp es hes other metaindexContent =>
    obtain ⟨blocks, hbytes, hwell, hentries, hcount, -⟩ :=
      TableBuilders.exists_layout ucmp hes other metaindexContent
    rw [BaseTable.bytes, hbytes] at hlen
    have hblocks : (closedBuilder ucmp es).indexBlock.restarts.length ≤ 4096 →
        blocks.length ≤ 100000 := by omega
    refine ⟨_, hbytes.symm, hentries, ⟨hwell, hentries ▸ hfits, by omega, hblocks⟩,
      decide_eq_true_iff, ?_⟩
    intro hnil
    have hnone : blocks = [] := List.eq_nil_iff_forall_not_mem.mpr fun b hb =>
      (hwell.blocks b hb).nonempty (List.flatMap_eq_nil_iff.mp hnil b hb)
    have hone : (closedBuilder ucmp es).indexBlock.restarts.length ≤ 4096 := by
      rw [hcount, hnone]
      decide
    exact decide_eq_true hone
  | device r =>
    obtain ⟨l, hbytes, hentries, haccepted, hread⟩ := r.exists_layout hlen
    exact ⟨l, hbytes, hentries, haccepted, iff_of_true hread trivial, fun _ => hread⟩

theorem exists_layouts (hts : ∀ t ∈ ts, t.bytes.length ≤ kMaxMergeInputBytes ∧
    ∀ e ∈ t.entries, Fits e) :
    ∃ ls : List Layout, ls.map Layout.bytes = ts.map BaseTable.bytes ∧
      ls.flatMap Layout.entries = ts.flatMap BaseTable.entries ∧ (∀ l ∈ ls, Accepted l) ∧
      ((∀ l ∈ ls, indexRead l = true) ↔ ∀ t ∈ ts, t.IndexFits) ∧
      ∀ l ∈ ls, l.entries = [] → indexRead l = true := by
  induction ts with
  | nil => exact ⟨[], rfl, rfl, by simp, by simp, by simp⟩
  | cons t ts ih =>
    obtain ⟨ls, hbytes, hentries, haccepted, hread, hempty⟩ :=
      ih fun t' ht' => hts t' (List.mem_cons_of_mem _ ht')
    obtain ⟨hlen, hfits⟩ := hts t List.mem_cons_self
    obtain ⟨l, hl, hes, hacc, hfit, hnone⟩ := exists_layout_base t hlen hfits
    refine ⟨l :: ls, ?_, ?_, ?_, ?_, ?_⟩
    · rw [List.map_cons, List.map_cons, hl, hbytes]
    · rw [List.flatMap_cons, List.flatMap_cons, hes, hentries]
    · exact List.forall_mem_cons.mpr ⟨hacc, haccepted⟩
    · rw [List.forall_mem_cons, List.forall_mem_cons, hfit, hread]
    · exact List.forall_mem_cons.mpr ⟨hnone, hempty⟩

/-! ## The whole chain -/

/-- What is emitted is determined. -/
theorem length_eq_of_emits {s : Streams} {es es' : List Entry} (h : Emits s es) (h' : Emits s es') :
    es.length = es'.length := by
  have hlen := congrArg List.length (h.1.symm.trans h'.1)
  simp only [List.length_append, List.length_cons, List.length_map] at hlen
  omega

/-- Nothing is left out if no entry is. -/
theorem forall_of_length_takeWhile {p : Layout → Bool} {ls : List Layout}
    (hempty : ∀ l ∈ ls, l.entries = [] → p l = true)
    (h : ((ls.takeWhile p).flatMap Layout.entries).length = (ls.flatMap Layout.entries).length) :
    ∀ l ∈ ls, p l = true := by
  induction ls with
  | nil => exact fun l hl => absurd hl List.not_mem_nil
  | cons l ls ih =>
    obtain ⟨hl, hls⟩ := List.forall_mem_cons.mp hempty
    cases hp : p l with
    | true =>
      rw [List.takeWhile_cons_of_pos hp, List.flatMap_cons, List.flatMap_cons, List.length_append,
        List.length_append] at h
      exact List.forall_mem_cons.mpr ⟨hp, ih hls (Nat.add_left_cancel h)⟩
    | false =>
      rw [List.takeWhile_cons_of_neg (by rw [hp]; exact Bool.false_ne_true), List.flatMap_nil,
        List.flatMap_cons, List.length_append, List.length_nil] at h
      have hnil : l.entries = [] := List.length_eq_zero_iff.mp (by omega)
      cases hp.symm.trans (hl hnil)

/-- From the chain of a scan the device reads the files up to the first whose index is too long. -/
theorem emits_of_scan (hstores : List.Forall₂ (Stores w) files ts) (hne : files ≠ [])
    (hcount : files.length ≤ kCsdMaxChainFiles)
    (hscan : files.foldlM (w.scanFile staged) {} = some b)
    (hbuf : Holds buf 0 (buildCsdSlotB b.files).bytes) :
    ∃ ls : List Layout, Emits (decoderSst buf (buildCsdSlotB b.files).fileSize)
        ((ls.takeWhile indexRead).flatMap Layout.entries) ∧
      ls.flatMap Layout.entries = ts.flatMap BaseTable.entries ∧
      ((∀ l ∈ ls, indexRead l = true) ↔ ∀ t ∈ ts, t.IndexFits) ∧
      ∀ l ∈ ls, l.entries = [] → indexRead l = true := by
  have hmax : kMaxMergeInputBytes = 33554432 := rfl
  have hchain : kCsdMaxChainFiles = 64 := rfl
  obtain ⟨hfiles, -, hts⟩ := scan_spec hstores hscan
  rw [List.nil_append] at hfiles
  obtain ⟨ls, hbytes, hentries, haccepted, hread, hempty⟩ := exists_layouts hts
  have hlen : ls.length = files.length := by
    have hmap := congrArg List.length hbytes
    rwa [List.length_map, List.length_map, ← hstores.length_eq] at hmap
  have hls : ls ≠ [] := by
    rintro rfl
    exact hne (List.length_eq_zero_iff.mp hlen.symm)
  have htotal : (ls.map Layout.bytes).flatten.length ≤ ls.length * kMaxMergeInputBytes := by
    rw [List.length_flatten]
    have hsum := List.sum_le_card_nsmul ((ls.map Layout.bytes).map List.length) kMaxMergeInputBytes
      (by
        intro n hn
        obtain ⟨bytes, hmem, rfl⟩ := List.mem_map.mp hn
        rw [hbytes] at hmem
        obtain ⟨t, ht, rfl⟩ := List.mem_map.mp hmem
        exact (hts t ht).1)
    rw [List.length_map, List.length_map] at hsum
    exact hsum
  have hsize := (@buildCsdSlotB_of_files (ls.map Layout.bytes) (by simpa using hls)
    (by rw [List.length_map]; omega)).1
  rw [hfiles, ← hbytes] at hbuf ⊢
  have hemits := decoderSst_chain haccepted hls (by omega)
    (by
      rw [hmax] at htotal
      rw [hsize, List.length_map]
      omega) hbuf
  exact ⟨ls, hemits, hentries, hread, hempty⟩

theorem indexFits_of_readsCompletely (hstores : List.Forall₂ (Stores w) files ts)
    (hne : files ≠ []) (hcount : files.length ≤ kCsdMaxChainFiles)
    (hscan : files.foldlM (w.scanFile staged) {} = some b)
    (hbuf : Holds buf 0 (buildCsdSlotB b.files).bytes) (h : ReadsCompletely buf b ts) :
    ∀ t ∈ ts, t.IndexFits := by
  obtain ⟨ls, hemits, hentries, hread, hempty⟩ := emits_of_scan hstores hne hcount hscan hbuf
  apply hread.mp
  apply forall_of_length_takeWhile hempty
  rw [hentries]
  exact length_eq_of_emits hemits h.1

/-- The device reads the files of a scan completely exactly if the index of every one has no more
restarts than it allows. -/
theorem readsCompletely_iff (hstores : List.Forall₂ (Stores w) files ts) (hne : files ≠ [])
    (hcount : files.length ≤ kCsdMaxChainFiles)
    (hscan : files.foldlM (w.scanFile staged) {} = some b)
    (hbuf : Holds buf 0 (buildCsdSlotB b.files).bytes) :
    ReadsCompletely buf b ts ↔ ∀ t ∈ ts, t.IndexFits := by
  constructor
  · exact indexFits_of_readsCompletely hstores hne hcount hscan hbuf
  · intro hall
    obtain ⟨ls, hemits, hentries, hread, -⟩ := emits_of_scan hstores hne hcount hscan hbuf
    obtain ⟨-, hnumber, -⟩ := scan_spec hstores hscan
    rw [List.takeWhile_eq_self_iff.mpr (hread.mpr hall), hentries] at hemits
    exact ⟨hemits, (Nat.zero_add _).symm.trans hnumber.symm⟩

/-! ## One file -/

/-- `BytewiseComparator` with its `FindShortestSeparator`. -/
def bytewiseSeparator (start limit : Bytes) : Bytes :=
  let diff := sharedLength start limit
  match start.drop diff, limit.drop diff with
  | startByte :: rest, limitByte :: limitRest =>
    if limitByte ≤ startByte then start
    else if limitRest ≠ [] ∨ startByte.toNat + 1 < limitByte.toNat then
      start.take diff ++ [startByte + 1]
    else
      match rest.dropWhile (· == 255) with
      | byte :: _ => start.take diff ++ startByte :: rest.takeWhile (· == 255) ++ [byte + 1]
      | [] => start
  | _, _ => start

def bytewiseTable : TableComparator := ⟨.bytewise, bytewiseSeparator⟩

/-- An engine whose only file is this table. -/
def storing (t : BaseTable) : CsdWorld where
  snapshotSeqs := []
  earliestSnapshot := SortFreeAside.kMaxSequenceNumber
  available := true
  runAb := fun _ _ _ _ _ => .ok ⟨0, [], [], fun _ => 0⟩
  newFileNumber := 2
  newEpochNumber := 0
  writeTable := fun _ _ _ _ => .ok ()
  getFileSize := fun _ => .ok t.bytes.length
  readFile := fun _ => .ok t.bytes
  iterate := fun _ => .ok (t.entries.map fun e => (e.key, e.value))

def fileOf (t : BaseTable) : TableFile := { fd := .ofSize 1 t.bytes.length }

theorem scanFile_of_plain {bytes : Bytes} {entries : List (Bytes × Bytes)}
    (hread : w.readFile f.fd.number = .ok bytes) (hiterate : w.iterate f.fd.number = .ok entries)
    (hlen : bytes.length = f.fd.fileSize)
    (hsize : staged + b.bytes + f.fd.fileSize ≤ kMaxMergeInputBytes)
    (hall : ∀ r ∈ entries, r.1.length = 32 ∧ CsdWorld.isPlain (valueType r.1) = true ∧
      r.2.length ≤ kCsdMaxValueBytes) :
    w.scanFile staged b f =
      some ⟨b.count + entries.length, b.bytes + f.fd.fileSize, b.files ++ [bytes]⟩ := by
  have htake : (entries.all fun r => r.1.length == 32 && CsdWorld.isPlain (valueType r.1) &&
      decide (r.2.length ≤ kCsdMaxValueBytes)) = true := by
    rw [List.all_eq_true]
    intro r hr
    obtain ⟨hkey, hplain, hvalue⟩ := hall r hr
    rw [hkey, hplain, decide_eq_true hvalue]
    rfl
  rw [CsdWorld.scanFile, if_neg (Nat.not_lt.mpr hsize), hread, hiterate]
  dsimp only [Except.toOption, Option.bind_eq_bind, Option.bind_some]
  rw [if_neg (not_not.mpr hlen), if_pos htake]

theorem scan_storing (t : BaseTable) (hsize : staged + t.bytes.length ≤ kMaxMergeInputBytes)
    (hrecords : ∀ e ∈ t.entries, Fits e ∧ CsdWorld.isPlain (valueType e.key) = true) :
    [fileOf t].foldlM ((storing t).scanFile staged) {} =
      some ⟨0 + (t.entries.map fun e => (e.key, e.value)).length, 0 + t.bytes.length,
        [] ++ [t.bytes]⟩ := by
  have hscan := @scanFile_of_plain (storing t) (fileOf t) staged {} t.bytes
    (t.entries.map fun e => (e.key, e.value)) rfl rfl rfl hsize (by
      intro r hr
      obtain ⟨e, he, rfl⟩ := List.mem_map.mp hr
      obtain ⟨⟨hkey, hvalue⟩, hplain⟩ := hrecords e he
      exact ⟨hkey, hplain, hvalue⟩)
  rw [List.foldlM_cons, hscan]
  rfl

theorem stores_storing (t : BaseTable) : List.Forall₂ (Stores (storing t)) [fileOf t] [t] :=
  .cons ⟨rfl, rfl⟩ .nil

/-! ## Files of many blocks -/

theorem payload_of_full {es : List Entry} (h : ∀ e ∈ es, e.value.length = 1024) :
    payload es = 1027 * es.length := by
  induction es with
  | nil => rfl
  | cons e es ih =>
    obtain ⟨he, hes⟩ := List.forall_mem_cons.mp h
    have hsum : payload (e :: es) = 3 + e.value.length + payload es := List.sum_cons
    rw [hsum, he, ih hes, List.length_cons]
    omega

/-- A block takes four records with values of 1024 bytes. -/
theorem length_le_of_full {blocks : List DataBlock}
    (hblocks : ∀ b ∈ blocks, payload b.entries.dropLast < kBlockSize)
    (h : ∀ e ∈ blocks.flatMap DataBlock.entries, e.value.length = 1024) :
    (blocks.flatMap DataBlock.entries).length ≤ 4 * blocks.length := by
  have hsize : kBlockSize = 4096 := rfl
  induction blocks with
  | nil => exact le_rfl
  | cons b blocks ih =>
    obtain ⟨hb, hblocks⟩ := List.forall_mem_cons.mp hblocks
    rw [List.flatMap_cons, List.forall_mem_append] at h
    have hrest := ih hblocks h.2
    rw [payload_of_full fun e he => h.1 e (List.dropLast_subset _ he), List.length_dropLast] at hb
    rw [List.flatMap_cons, List.length_append, List.length_cons]
    omega

theorem length_blocks_le {blocks : List DataBlock} (h : ∀ b ∈ blocks, b.WellFormed KEY_LENGTH) :
    blocks.length ≤ (blocks.flatMap DataBlock.entries).length := by
  induction blocks with
  | nil => exact le_rfl
  | cons b blocks ih =>
    obtain ⟨hb, hblocks⟩ := List.forall_mem_cons.mp h
    have hpos := List.length_pos_of_ne_nil hb.nonempty
    have hrest := ih hblocks
    rw [List.flatMap_cons, List.length_append, List.length_cons]
    omega

/-- The size of a table, of which the index takes 60 bytes for an entry at most. -/
theorem length_buildTable_le (ucmp : TableComparator) {es : List Entry} (hes : Buildable es)
    (hfits : ∀ e ∈ es, Fits e) (other metaindexContent : Bytes) :
    (buildTable ucmp es other metaindexContent).length ≤
      recordsSize es + 60 * es.length + other.length + metaindexContent.length + 100 := by
  obtain ⟨blocks, hbytes, hwell, hentries, hcount, -⟩ :=
    TableBuilders.exists_layout ucmp hes other metaindexContent
  subst hentries
  have hdata : (dataArea blocks).length ≤ recordsSize (blocks.flatMap DataBlock.entries) :=
    length_dataArea_le hwell.blocks hfits
  have hblocks : blocks.length ≤ (blocks.flatMap DataBlock.entries).length :=
    length_blocks_le hwell.blocks
  generalize closedBuilder ucmp (blocks.flatMap DataBlock.entries) = r at hbytes hwell hcount
  have hindex : r.indexBlock.buffer.length ≤ 55 * blocks.length :=
    length_indexBody_le hwell.index hwell.blocks
  have hcontent : (layoutOf r blocks other metaindexContent).indexContent.length =
      r.indexBlock.buffer.length + (r.indexBlock.restarts.length * 4 + 4) := length_putBlock _ _
  rw [hbytes, Layout.length_bytes, hcontent]
  simp only [layoutOf, List.length_append, length_trailer]
  omega

theorem recordsSize_of_full {es : List Entry} (h : ∀ e ∈ es, e.value.length = 1024) :
    recordsSize es = 1076 * es.length := by
  induction es with
  | nil => rfl
  | cons e es ih =>
    obtain ⟨he, hes⟩ := List.forall_mem_cons.mp h
    have hsum : recordsSize (e :: es) = 52 + e.value.length + recordsSize es := List.sum_cons
    rw [hsum, he, ih hes, List.length_cons]
    omega

namespace Wide

/-- A user key that begins with its number, and the trailer of the first write. -/
def key (i : ℕ) : Bytes := (putFixed 8 i).reverse ++ (List.replicate 16 0 ++ putFixed 8 257)

def entries : List Entry := (List.range 16388).map fun i => ⟨key i, List.replicate 1024 0⟩

theorem length_key (i : ℕ) : (key i).length = 32 := by
  rw [key, List.length_append, List.length_reverse, length_putFixed]
  rfl

theorem fits (e : Entry) (he : e ∈ entries) :
    Fits e ∧ CsdWorld.isPlain (valueType e.key) = true := by
  obtain ⟨i, -, rfl⟩ := List.mem_map.mp he
  refine ⟨⟨length_key i, List.length_replicate.le⟩, ?_⟩
  have hfooter : SortKeys.footerBytes (key i) = putFixed 8 257 := by
    rw [SortKeys.footerBytes, length_key, key, ← List.append_assoc]
    exact List.drop_left' (by simp [SortKeys.kNumInternalBytes])
  rw [valueType, SortKeys.extractInternalKeyFooter, hfooter]
  decide

theorem full (e : Entry) (he : e ∈ entries) : e.value.length = 1024 := by
  obtain ⟨i, -, rfl⟩ := List.mem_map.mp he
  exact List.length_replicate

theorem buildable : Buildable entries where
  keys e he := (fits e he).1.1
  differ := by
    rw [entries, List.pairwise_map]
    apply List.Pairwise.imp_of_mem (R := (· < ·)) _ List.pairwise_lt_range
    intro i j hi hj hlt heq
    have hfirst := congrArg (List.take 8) heq
    rw [key, key, List.take_left' (by simp), List.take_left' (by simp)] at hfirst
    have hbytes := congrArg decodeFixed (List.reverse_injective hfirst)
    rw [List.mem_range] at hi hj
    rw [decodeFixed_putFixed_of_lt (by omega), decodeFixed_putFixed_of_lt (by omega)] at hbytes
    omega

def table : BaseTable :=
  .host bytewiseTable entries buildable (BlockBuilder.empty.finish ++ trailer)
    BlockBuilder.empty.finish

theorem length_table : 4096 + table.bytes.length ≤ kMaxMergeInputBytes := by
  have hmax : kMaxMergeInputBytes = 33554432 := rfl
  have hlen : entries.length = 16388 := by rw [entries, List.length_map, List.length_range]
  have hempty : BlockBuilder.empty.finish.length = 8 := by decide
  have hle := length_buildTable_le bytewiseTable buildable (fun e he => (fits e he).1)
    (BlockBuilder.empty.finish ++ trailer) BlockBuilder.empty.finish
  rw [recordsSize_of_full full, hlen, List.length_append, hempty, length_trailer] at hle
  rw [table, BaseTable.bytes, hmax]
  omega

theorem not_indexFits : ¬ table.IndexFits := by
  obtain ⟨blocks, -, -, hentries, hcount, hblocks⟩ :=
    TableBuilders.exists_layout bytewiseTable buildable [] []
  have hle := length_le_of_full hblocks (hentries ▸ full)
  rw [hentries, entries, List.length_map, List.length_range] at hle
  rw [table, BaseTable.IndexFits, hcount]
  omega

end Wide

/-- A table of 16388 records passes the scan, and the device does not read it. -/
theorem readsCompletely_fails : ∃ b buf,
    [fileOf Wide.table].foldlM ((storing Wide.table).scanFile 4096) {} = some b ∧
      Holds buf 0 (buildCsdSlotB b.files).bytes ∧ ¬ ReadsCompletely buf b [Wide.table] := by
  have hscan := @scan_storing 4096 Wide.table Wide.length_table Wide.fits
  refine ⟨_, _, hscan, holds_store (fun _ => 0) 0 _, ?_⟩
  intro hreads
  have hfits := indexFits_of_readsCompletely (stores_storing Wide.table) (List.cons_ne_nil _ _)
    (by decide) hscan (holds_store (fun _ => 0) 0 _) hreads
  exact Wide.not_indexFits (hfits _ (List.mem_singleton_self _))

namespace Narrow

def entry : Entry := ⟨Wide.key 0, [7]⟩

theorem buildable : Buildable [entry] :=
  ⟨fun _ he => List.mem_singleton.mp he ▸ Wide.length_key 0, List.pairwise_singleton _ _⟩

def table : BaseTable :=
  .host bytewiseTable [entry] buildable (BlockBuilder.empty.finish ++ trailer)
    BlockBuilder.empty.finish

end Narrow

theorem readsCompletely_narrow : ∃ b buf,
    [fileOf Narrow.table].foldlM ((storing Narrow.table).scanFile 4096) {} = some b ∧
      Holds buf 0 (buildCsdSlotB b.files).bytes ∧ ReadsCompletely buf b [Narrow.table] := by
  have hsize : 4096 + Narrow.table.bytes.length ≤ kMaxMergeInputBytes := by decide +kernel
  have hindex : (closedBuilder bytewiseTable [Narrow.entry]).indexBlock.restarts.length ≤ 4096 := by
    decide +kernel
  have hscan := @scan_storing 4096 Narrow.table hsize fun _ he =>
    List.mem_singleton.mp he ▸ ⟨⟨Wide.length_key 0, by decide⟩, by decide⟩
  refine ⟨_, _, hscan, holds_store (fun _ => 0) 0 _, ?_⟩
  refine (readsCompletely_iff (stores_storing Narrow.table) (List.cons_ne_nil _ _) (by decide) hscan
    (holds_store (fun _ => 0) 0 _)).mpr ?_
  intro t ht
  rw [List.mem_singleton.mp ht]
  exact hindex

end ZeroFlush.BaseTables
