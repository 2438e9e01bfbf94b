import ZeroFlush.OnChipArrays
import ZeroFlush.RestartArrays
import Mathlib.Data.List.Chain

/-! # Runs of the device writer over several files

A file that is full is closed and the next one starts behind it, in its own part of the two outputs.
Seen from its own start, a later file is written like the first; only the count of its index entries
goes on from the file before. -/
namespace ZeroFlush.FileRollovers
open FixedWidthCodec ByteMemory PrefixCompression BlockTables DeviceStreams DeviceWords DeviceEncoder
  EncodedTables EncoderRuns RestartArrays
open SstDecoder (Fits)
open OnChipArrays (WriteStep encoderSteps)

/-- The part of the index buffer that a file has. -/
def indexPart : ℕ := indexBlockBufferSize / MAX_OUTPUT_FILE_NUM

/-- A finished block, with its last key. -/
structure Complete (b : DataBlock) : Prop where
  compressed : Compressed [] b.entries b.body
  nonempty : b.entries ≠ []
  restarts : RestartArray b.entries b.body b.restarts
  separator : b.separator = finalKey [] b.entries

structure FileContent where
  blocks : List DataBlock
  indexBody : Bytes
  indexRestarts : List ℕ

namespace FileContent

def indexBlock (c : FileContent) : Bytes := putBlock c.indexBody c.indexRestarts ++ trailer

def entries (c : FileContent) : List Entry := c.blocks.flatMap DataBlock.entries

end FileContent

/-- The data and the index of file `i`, each in the part of its output that belongs to the file. -/
structure StoredAt (fileLimit : ℕ) (sst index : Memory) (i : ℕ) (f : OutputFile) (c : FileContent) :
    Prop where
  data : Holds sst (fileLimit * i) (dataArea c.blocks)
  topSstIndex : f.topSstIndex = (dataArea c.blocks).length
  within : (dataArea c.blocks).length ≤ fileLimit
  written : Holds index (indexPart * i) c.indexBlock
  topIndexBlockIndex : f.topIndexBlockIndex = c.indexBlock.length
  indexWithin : c.indexBlock.length ≤ indexPart
  complete : ∀ b ∈ c.blocks, Complete b
  handles : Compressed [] (indexEntries 0 c.blocks) c.indexBody

/-- The index has its restarts, too. -/
structure WellFormedAt (fileLimit : ℕ) (sst index : Memory) (i : ℕ) (f : OutputFile)
    (c : FileContent) : Prop extends StoredAt fileLimit sst index i f c where
  restarts : RestartArray (indexEntries 0 c.blocks) c.indexBody c.indexRestarts

/-- All files of a run, with these records. -/
def WellFormedFiles (fileLimit : ℕ) (s : Encoder) (es : List Entry) : Prop :=
  ∃ contents : List FileContent, contents.flatMap FileContent.entries = es ∧
    contents.length = s.closed.length ∧
    ∀ i f c, s.closed[i]? = some f → contents[i]? = some c →
      WellFormedAt fileLimit s.sst s.index i f c

/-- The first record of a later file does not find the count of index entries at a restart. -/
def CountsOn (s : Encoder) : Prop :=
  s.closed ≠ [] → s.sstIndex = 0 → s.dataBlockIndex = 0 → s.indexEntrySize % restart ≠ 0

instance (s : Encoder) : Decidable (CountsOn s) := inferInstanceAs (Decidable (_ → _ → _ → _))

/-! ## The view from the start of a file -/

variable {s : Encoder} {fileLimit : ℕ} {m : Memory} {a b : ℕ} {bs : Bytes}

/-- The state as if the open file were the first; restarts and count of the index are arbitrary. -/
def inFile (restarts : List ℕ) (size : ℕ) (s : Encoder) : Encoder :=
  { s with
    closed := []
    sstOffset := 0
    indexBlockOffset := 0
    indexBlockIndex := s.indexBlockIndex - s.indexBlockOffset
    sst := fun i => s.sst (s.sstOffset + i)
    index := fun i => s.index (s.indexBlockOffset + i)
    indexRestarts := restarts
    indexEntrySize := size }

theorem store_shift (m : Memory) (b a : ℕ) (bs : Bytes) :
    store (fun i => m (b + i)) a bs = fun i => store m (b + a) bs (b + i) := by
  funext i
  rw [store, store, Nat.add_sub_add_left]
  apply if_congr _ rfl rfl
  exact (Nat.add_le_add_iff_left).symm

theorem holds_shift : Holds (fun i => m (b + i)) a bs ↔ Holds m (b + a) bs := by
  have hload : ∀ a n, load (fun i => m (b + i)) a n = load m (b + a) n := by
    intro a n
    induction n generalizing a with
    | zero => rfl
    | succ n ih => rw [load, load, ih, Nat.add_assoc]
  rw [Holds, Holds, hload]

theorem ap128to128Encoder_shift (hb : 16 ∣ b) (bram m : Memory) (k n : ℕ) :
    ap128to128Encoder bram (fun i => m (b + i)) k n =
      fun i => ap128to128Encoder bram m (k + b) n (b + i) := by
  have hword : b + 16 * (k / 16) = 16 * ((k + b) / 16) := by omega
  rw [ap128to128Encoder, ap128to128Encoder, store_shift, hword]

theorem putKVIndex_shift {k : ℕ} (hb : b ≤ k) (key : Keystring) (value : Bytes) (n : ℕ)
    (m : Memory) :
    putKVIndex key value n (fun i => m (b + i)) (k - b) =
      (fun i => (putKVIndex key value n m k).1 (b + i), (putKVIndex key value n m k).2 - b) := by
  rw [putKVIndex, putKVIndex]
  dsimp only
  rw [store_shift, Nat.add_sub_cancel' hb, Nat.sub_add_comm hb]

theorem openEntry_inFile (restarts : List ℕ) (size : ℕ) (km : KeyMeta) (s : Encoder) :
    (inFile restarts size s).openEntry km = inFile restarts size (s.openEntry km) := by
  have hblock : (inFile restarts size s).dataBlockIndex = s.dataBlockIndex := rfl
  have hentry : (inFile restarts size s).entrySize = s.entrySize := rfl
  rw [Encoder.openEntry, Encoder.openEntry, hblock, hentry]
  split
  · rfl
  · split <;> rfl

theorem putRecord_inFile (restarts : List ℕ) (size : ℕ) (km : KeyMeta) (value : Bytes)
    (s : Encoder) :
    (inFile restarts size s).putRecord km value = inFile restarts size (s.putRecord km value) := by
  rw [Encoder.putRecord, openEntry_inFile]
  rfl

/-- A block is closed alike in every file. -/
theorem closeBlock_inFile (hoffset : 16 ∣ s.sstOffset) (hle : s.indexBlockOffset ≤ s.indexBlockIndex)
    (restarts : List ℕ) (size tail : ℕ) :
    ∃ restarts' size', (inFile restarts size s).closeBlock tail =
      inFile restarts' size' (s.closeBlock tail) := by
  refine ⟨if size % restart = 0 then restarts ++ [s.indexBlockIndex - s.indexBlockOffset] else restarts,
    (if size % restart = 0 then 1 else size) + 1, ?_⟩
  rw [Encoder.closeBlock]
  dsimp only [Encoder.putBlockHandle, inFile]
  rw [putKVIndex_shift hle, Nat.add_zero, ap128to128Encoder_shift hoffset]
  rfl

theorem closeFullBlock_inFile (hoffset : 16 ∣ s.sstOffset)
    (hle : s.indexBlockOffset ≤ s.indexBlockIndex) (restarts : List ℕ) (size : ℕ) :
    ∃ restarts' size', (inFile restarts size s).closeFullBlock =
      inFile restarts' size' s.closeFullBlock := by
  obtain ⟨restarts', size', heq⟩ := closeBlock_inFile hoffset hle restarts size 0
  refine ⟨restarts', size', ?_⟩
  rw [Encoder.closeFullBlock, heq]
  rfl

theorem flushed_inFile (hoffset : 16 ∣ s.sstOffset) (hle : s.indexBlockOffset ≤ s.indexBlockIndex)
    (restarts : List ℕ) (size : ℕ) :
    ∃ restarts' size', flushed (inFile restarts size s) = inFile restarts' size' (flushed s) := by
  have hblock : (inFile restarts size s).dataBlockIndex = s.dataBlockIndex := rfl
  rw [flushed, flushed, hblock]
  split
  · exact closeBlock_inFile hoffset hle restarts size 16
  · refine ⟨restarts, size, ?_⟩
    dsimp only [inFile]
    rw [Nat.add_zero, ap128to128Encoder_shift hoffset]

/-! ## What a state stands for -/

/-- The finished files, and of the open one the finished blocks, the open block and the index. -/
structure View where
  contents : List FileContent
  blocks : List DataBlock
  cur : List Entry
  body : Bytes
  indexBody : Bytes

namespace View

def entries (v : View) : List Entry :=
  v.contents.flatMap FileContent.entries ++ v.blocks.flatMap DataBlock.entries ++ v.cur

def put (v : View) (s : Encoder) (e : Entry) : View :=
  { v with
    cur := v.cur ++ [e]
    body := v.body ++ putEntry (sharedWith (s.openEntry (keyMeta e)).preKey e.key) e }

def closeBlock (v : View) (s : Encoder) : View :=
  { v with
    blocks := v.blocks ++ [closedBlock s v.cur v.body]
    cur := []
    body := []
    indexBody := v.indexBody ++ indexEntry (dataArea v.blocks) (closedBlock s v.cur v.body) }

/-- The last block goes to the file, too. -/
def flush (v : View) (s : Encoder) : View := if s.dataBlockIndex ≠ 0 then v.closeBlock s else v

def closeFile (v : View) (indexRestarts : List ℕ) : View :=
  ⟨v.contents ++ [⟨v.blocks, v.indexBody, indexRestarts⟩], [], [], [], []⟩

end View

variable {v : View} {e : Entry} {i : ℕ} {f : OutputFile} {c : FileContent}

/-- Earlier files are finished and stored; the open one is what the view says. -/
structure Rolling (fileLimit : ℕ) (s : Encoder) (v : View) : Prop where
  opened : ∃ restarts size, Open (inFile restarts size s) v.blocks v.cur v.body v.indexBody
  sstOffset : s.sstOffset = fileLimit * s.closed.length
  indexBlockOffset : s.indexBlockOffset = indexPart * s.closed.length
  offset_le : s.indexBlockOffset ≤ s.indexBlockIndex
  length : v.contents.length = s.closed.length
  stored : ∀ i f c, s.closed[i]? = some f → v.contents[i]? = some c →
    StoredAt fileLimit s.sst s.index i f c
  complete : ∀ b ∈ v.blocks, Complete b
  dataRestarts : v.cur ≠ [] → RestartArray v.cur v.body s.dataRestarts
  small : (dataArea v.blocks).length ≤ bramSize * v.blocks.length
  unlisted : v.blocks = [] → s.indexRestarts = (if s.closed = [] then [] else [0]) ∧
    (s.closed = [] → s.indexEntrySize = 0)

/-- Every index has its restarts, or will have them. -/
structure Listed (s : Encoder) (v : View) : Prop where
  contents : ∀ c ∈ v.contents,
    RestartArray (indexEntries 0 c.blocks) c.indexBody c.indexRestarts
  first : v.blocks = [] → v.cur ≠ [] → s.closed ≠ [] → s.indexEntrySize % restart ≠ 0
  later : v.blocks ≠ [] → RestartArray (indexEntries 0 v.blocks) v.indexBody s.indexRestarts

/-- Some index starts with its first restart twice, or will do so. -/
inductive Doubled (s : Encoder) (v : View) : Prop
  | contents {c : FileContent} (hc : c ∈ v.contents) (h : [0, 0] <+: c.indexRestarts)
  | first (hblocks : v.blocks = []) (hcur : v.cur ≠ []) (hclosed : s.closed ≠ [])
      (hsize : s.indexEntrySize % restart = 0)
  | later (hblocks : v.blocks ≠ []) (h : [0, 0] <+: s.indexRestarts)

/-- The indexes are as they should be if and only if `good`. -/
structure Judged (good : Prop) (s : Encoder) (v : View) : Prop where
  listed : good → Listed s v
  doubled : ¬ good → Doubled s v

theorem rolling_start (fileLimit : ℕ) (bram sst index : Memory) :
    Rolling fileLimit (.start bram sst index) ⟨[], [], [], [], []⟩ where
  opened := ⟨[], 0, open_start bram _ _⟩
  sstOffset := rfl
  indexBlockOffset := rfl
  offset_le := le_rfl
  length := rfl
  stored := fun i f c hf => by cases hf
  complete := fun b hb => absurd hb List.not_mem_nil
  dataRestarts := fun h => absurd rfl h
  small := le_rfl
  unlisted := fun _ => ⟨rfl, fun _ => rfl⟩

theorem judged_start (bram sst index : Memory) :
    Judged True (.start bram sst index) ⟨[], [], [], [], []⟩ where
  listed := fun _ => ⟨fun _ hc => absurd hc List.not_mem_nil, fun _ hcur => absurd rfl hcur,
    fun hblocks => absurd rfl hblocks⟩
  doubled := fun h => absurd trivial h

/-! ## The bytes before the open file -/

theorem agree_ap128to128Encoder (hb : 16 ∣ b) (bram m : Memory) (k n : ℕ) :
    Agree m (ap128to128Encoder bram m (k + b) n) b := by
  intro i hi
  apply store_apply_of_lt
  omega

theorem agree_closeBlock (hoffset : 16 ∣ s.sstOffset) (hle : s.indexBlockOffset ≤ s.indexBlockIndex)
    (tail : ℕ) :
    Agree s.sst (s.closeBlock tail).sst s.sstOffset ∧
      Agree s.index (s.closeBlock tail).index s.indexBlockOffset :=
  ⟨agree_ap128to128Encoder hoffset _ _ _ _, fun _ hi => store_apply_of_lt (hi.trans_le hle)⟩

theorem agree_flushed (hoffset : 16 ∣ s.sstOffset) (hle : s.indexBlockOffset ≤ s.indexBlockIndex) :
    Agree s.sst (flushed s).sst s.sstOffset ∧ Agree s.index (flushed s).index s.indexBlockOffset := by
  rw [flushed]
  split
  · exact agree_closeBlock hoffset hle 16
  · exact ⟨agree_ap128to128Encoder hoffset _ _ _ _, Agree.refl _ _⟩

theorem StoredAt.frame {sst sst' index index' : Memory} {n : ℕ}
    (h : StoredAt fileLimit sst index i f c) (hi : i < n) (hsst : Agree sst sst' (fileLimit * n))
    (hindex : Agree index index' (indexPart * n)) : StoredAt fileLimit sst' index' i f c where
  data := by
    have hle := Nat.mul_le_mul_left fileLimit (Nat.succ_le_of_lt hi)
    have hwithin := h.within
    rw [Nat.mul_succ] at hle
    exact hsst.holds h.data (by omega)
  topSstIndex := h.topSstIndex
  within := h.within
  written := by
    have hle := Nat.mul_le_mul_left indexPart (Nat.succ_le_of_lt hi)
    have hwithin := h.indexWithin
    rw [Nat.mul_succ] at hle
    exact hindex.holds h.written (by omega)
  topIndexBlockIndex := h.topIndexBlockIndex
  indexWithin := h.indexWithin
  complete := h.complete
  handles := h.handles

theorem Rolling.stored_frame (h : Rolling fileLimit s v) {sst index : Memory}
    (hsst : Agree s.sst sst s.sstOffset) (hindex : Agree s.index index s.indexBlockOffset) :
    ∀ i f c, s.closed[i]? = some f → v.contents[i]? = some c → StoredAt fileLimit sst index i f c := by
  intro i f c hf hc
  rw [h.sstOffset] at hsst
  rw [h.indexBlockOffset] at hindex
  obtain ⟨hi, -⟩ := List.getElem?_eq_some_iff.mp hf
  exact (h.stored i f c hf hc).frame hi hsst hindex

/-! ## A record is put -/

variable {window : Bytes} {good : Prop}

/-- What a record leaves as it is. -/
structure Keeps (s t : Encoder) : Prop where
  closed : t.closed = s.closed
  sstOffset : t.sstOffset = s.sstOffset
  indexBlockOffset : t.indexBlockOffset = s.indexBlockOffset
  indexBlockIndex : t.indexBlockIndex = s.indexBlockIndex
  indexRestarts : t.indexRestarts = s.indexRestarts
  indexEntrySize : t.indexEntrySize = s.indexEntrySize
  sstIndex : t.sstIndex = s.sstIndex
  sst : t.sst = s.sst
  index : t.index = s.index
  overflow : t.overflow = s.overflow

theorem keeps_putRecord (s : Encoder) (km : KeyMeta) (value : Bytes) :
    Keeps s (s.putRecord km value) := by
  obtain ⟨smallest, rs, entries, preKey, heq⟩ := openEntry_eq s km
  rw [Encoder.putRecord, heq]
  exact ⟨rfl, rfl, rfl, rfl, rfl, rfl, rfl, rfl, rfl, rfl⟩

theorem sharedWith_maxKey (key : Bytes) : sharedWith maxKey key = 0 := if_pos (by decide)

/-- A restart of a data block is the offset of the record that is put next. -/
theorem restartArray_openEntry {blocks : List DataBlock} {cur : List Entry} {body indexBody : Bytes}
    (h : Open s blocks cur body indexBody) (hr : cur ≠ [] → RestartArray cur body s.dataRestarts)
    (he : Fits e) (hne : cur ≠ [] → finalKey [] cur ≠ e.key) :
    RestartArray (cur ++ [e]) (body ++ putEntry (sharedWith (s.openEntry (keyMeta e)).preKey e.key) e)
      (s.openEntry (keyMeta e)).dataRestarts := by
  obtain ⟨-, hlt, hcommon⟩ := h.shared_spec he hne
  have hkey : e.key.length = 32 := he.1
  rw [Encoder.openEntry] at hlt hcommon ⊢
  split
  · next hzero =>
    obtain rfl := h.cur_eq_nil.mp hzero
    rw [h.data.eq_nil, sharedWith_maxKey]
    exact restartArray_singleton e
  · next hne =>
    have hcur : cur ≠ [] := mt h.cur_eq_nil.mpr hne
    rw [if_neg hne] at hlt hcommon
    split
    · rw [sharedWith_maxKey, h.blockIndex]
      exact (hr hcur).concat_restart h.data (by omega)
    · next hmore =>
      rw [if_neg hmore] at hlt hcommon
      exact (hr hcur).concat (hlt.trans_eq hkey.symm) hcommon

theorem Rolling.withLastUserKey (h : Rolling fileLimit s v) (key : Keystring) :
    Rolling fileLimit { s with lastUserKey := key } v := by
  obtain ⟨restarts, size, hopen⟩ := h.opened
  exact ⟨⟨restarts, size, hopen.withLastUserKey key⟩, h.sstOffset, h.indexBlockOffset, h.offset_le,
    h.length, h.stored, h.complete, h.dataRestarts, h.small, h.unlisted⟩

theorem Rolling.put (h : Rolling fileLimit s v) (hroom : v.body.length < 4096) (he : Fits e)
    (hw : Window e window) (hne : v.cur ≠ [] → finalKey [] v.cur ≠ e.key) :
    Rolling fileLimit (s.putRecord (keyMeta e) window) (v.put s e) := by
  obtain ⟨restarts, size, hopen⟩ := h.opened
  have hput := hopen.putRecord hroom he hw hne
  have harray := restartArray_openEntry hopen h.dataRestarts he hne
  rw [putRecord_inFile, openEntry_inFile] at hput
  rw [openEntry_inFile] at harray
  have hkeeps := keeps_putRecord s (keyMeta e) window
  constructor
  case opened => exact ⟨restarts, size, hput⟩
  case sstOffset => rw [hkeeps.sstOffset, hkeeps.closed, h.sstOffset]
  case indexBlockOffset => rw [hkeeps.indexBlockOffset, hkeeps.closed, h.indexBlockOffset]
  case offset_le =>
    rw [hkeeps.indexBlockOffset, hkeeps.indexBlockIndex]
    exact h.offset_le
  case length =>
    rw [hkeeps.closed]
    exact h.length
  case stored =>
    rw [hkeeps.closed, hkeeps.sst, hkeeps.index]
    exact h.stored
  case complete => exact h.complete
  case dataRestarts => exact fun _ => harray
  case small => exact h.small
  case unlisted =>
    rw [hkeeps.closed, hkeeps.indexRestarts, hkeeps.indexEntrySize]
    exact h.unlisted

theorem Rolling.blocks_eq_nil (h : Rolling fileLimit s v) : s.sstIndex = 0 ↔ v.blocks = [] := by
  obtain ⟨restarts, size, hopen⟩ := h.opened
  have hsst : s.sstIndex = (dataArea v.blocks).length := hopen.sstIndex
  rw [hsst]
  cases v.blocks with
  | nil => exact ⟨fun _ => rfl, fun _ => rfl⟩
  | cons b blocks =>
    have hwritten := length_written b
    refine ⟨fun hzero => ?_, fun hnil => by cases hnil⟩
    rw [dataArea, List.flatMap_cons, List.length_append] at hzero
    omega

theorem Rolling.cur_eq_nil (h : Rolling fileLimit s v) : s.dataBlockIndex = 0 ↔ v.cur = [] := by
  obtain ⟨restarts, size, hopen⟩ := h.opened
  exact hopen.cur_eq_nil

/-- The first record of a later file decides about its index. -/
theorem Judged.put (hj : Judged good s v) (h : Rolling fileLimit s v) (window : Bytes) :
    Judged (good ∧ CountsOn s) (s.putRecord (keyMeta e) window) (v.put s e) := by
  have hkeeps := keeps_putRecord s (keyMeta e) window
  have hput : (v.put s e).cur ≠ [] := List.concat_ne_nil e v.cur
  constructor
  case listed =>
    rintro ⟨hgood, hcounts⟩
    obtain ⟨hcontents, hfirst, hlater⟩ := hj.listed hgood
    constructor
    case contents => exact hcontents
    case first =>
      intro hblocks _ hclosed
      rw [hkeeps.closed] at hclosed
      rw [hkeeps.indexEntrySize]
      by_cases hcur : v.cur = []
      · exact hcounts hclosed (h.blocks_eq_nil.mpr hblocks) (h.cur_eq_nil.mpr hcur)
      · exact hfirst hblocks hcur hclosed
    case later =>
      rw [hkeeps.indexRestarts]
      exact hlater
  case doubled =>
    intro hbad
    by_cases hgood : good
    · have hcounts : ¬ CountsOn s := fun hcounts => hbad ⟨hgood, hcounts⟩
      rw [CountsOn] at hcounts
      push Not at hcounts
      obtain ⟨hclosed, hsst, -, hsize⟩ := hcounts
      exact .first (h.blocks_eq_nil.mp hsst) hput (hkeeps.closed ▸ hclosed)
        (hkeeps.indexEntrySize ▸ hsize)
    · cases hj.doubled hgood with
      | contents hc hdouble => exact .contents hc hdouble
      | first hblocks hcur hclosed hsize =>
        exact .first hblocks hput (hkeeps.closed ▸ hclosed) (hkeeps.indexEntrySize ▸ hsize)
      | later hblocks hdouble => exact .later hblocks (hkeeps.indexRestarts ▸ hdouble)

/-! ## A block is closed -/

theorem Rolling.complete_closedBlock (h : Rolling fileLimit s v) (hcur : v.cur ≠ []) :
    Complete (closedBlock s v.cur v.body) := by
  obtain ⟨restarts, size, hopen⟩ := h.opened
  exact ⟨hopen.data, hcur, h.dataRestarts hcur, hopen.preKey hcur⟩

/-- The entry of a block in the index is put with its whole key. -/
theorem indexEntries_concat (blocks : List DataBlock) (b : DataBlock) :
    indexEntries 0 (blocks ++ [b]) = indexEntries 0 blocks ++
      [⟨b.separator, (BlockHandle.mk (dataArea blocks).length b.content.length).encodeTo⟩] := by
  rw [indexEntries_append, Nat.zero_add]
  rfl

theorem indexRestarts_closeBlock (s : Encoder) (tail : ℕ) :
    (s.closeBlock tail).indexRestarts =
      if s.indexEntrySize % restart = 0 then
        s.indexRestarts ++ [s.indexBlockIndex - s.indexBlockOffset] else s.indexRestarts := rfl

/-- The restarts of the index with the entry of the block. -/
theorem Listed.closeBlock (hl : Listed s v) (h : Rolling fileLimit s v) (hcur : v.cur ≠ [])
    (tail : ℕ) : Listed (s.closeBlock tail) (v.closeBlock s) := by
  obtain ⟨restarts, size, hopen⟩ := h.opened
  have hpos : 0 < (closedBlock s v.cur v.body).separator.length :=
    (hopen.wellFormed_closedBlock hcur).separator_pos
  have hat : s.indexBlockIndex - s.indexBlockOffset = v.indexBody.length := hopen.indexBlockIndex
  have hindex := hopen.index
  refine ⟨hl.contents, fun _ hnil => absurd rfl hnil, fun _ => ?_⟩
  change RestartArray (indexEntries 0 (v.blocks ++ [closedBlock s v.cur v.body]))
    (v.indexBody ++ indexEntry (dataArea v.blocks) (closedBlock s v.cur v.body)) _
  rw [indexRestarts_closeBlock, indexEntries_concat, hat]
  by_cases hblocks : v.blocks = []
  · obtain ⟨hrestarts, hsize⟩ := h.unlisted hblocks
    rw [hblocks] at hindex
    have hone : (if s.indexEntrySize % restart = 0 then s.indexRestarts ++ [v.indexBody.length]
        else s.indexRestarts) = [0] := by
      rw [hindex.eq_nil, hrestarts]
      by_cases hclosed : s.closed = []
      · rw [hsize hclosed, if_pos hclosed]
        rfl
      · rw [if_neg hclosed, if_neg (hl.first hblocks hcur hclosed)]
    rw [hone, hblocks, hindex.eq_nil]
    exact restartArray_singleton _
  · split
    · exact (hl.later hblocks).concat_restart hindex hpos
    · exact (hl.later hblocks).concat hpos rfl

theorem Doubled.closeBlock (hd : Doubled s v) (h : Rolling fileLimit s v) (tail : ℕ) :
    Doubled (s.closeBlock tail) (v.closeBlock s) := by
  obtain ⟨restarts, size, hopen⟩ := h.opened
  have hat : s.indexBlockIndex - s.indexBlockOffset = v.indexBody.length := hopen.indexBlockIndex
  have hindex := hopen.index
  have hblocks : (v.closeBlock s).blocks ≠ [] := List.concat_ne_nil _ _
  cases hd with
  | contents hc hdouble => exact .contents hc hdouble
  | first hnil hcur hclosed hsize =>
    apply Doubled.later hblocks
    rw [hnil] at hindex
    rw [indexRestarts_closeBlock, if_pos hsize, (h.unlisted hnil).1, if_neg hclosed, hat,
      hindex.eq_nil]
    exact List.prefix_refl _
  | later _ hdouble =>
    apply Doubled.later hblocks
    rw [indexRestarts_closeBlock]
    split
    · exact hdouble.trans (List.prefix_append _ _)
    · exact hdouble

theorem Judged.closeBlock (hj : Judged good s v) (h : Rolling fileLimit s v) (hcur : v.cur ≠ [])
    (tail : ℕ) : Judged good (s.closeBlock tail) (v.closeBlock s) :=
  ⟨fun hgood => (hj.listed hgood).closeBlock h hcur tail,
    fun hbad => (hj.doubled hbad).closeBlock h tail⟩

theorem Judged.congr {t : Encoder} (hj : Judged good s v) (hclosed : t.closed = s.closed)
    (hrestarts : t.indexRestarts = s.indexRestarts) (hsize : t.indexEntrySize = s.indexEntrySize) :
    Judged good t v := by
  constructor
  case listed =>
    intro hgood
    obtain ⟨hcontents, hfirst, hlater⟩ := hj.listed hgood
    refine ⟨hcontents, ?_, ?_⟩
    · rwa [hclosed, hsize]
    · rwa [hrestarts]
  case doubled =>
    intro hbad
    cases hj.doubled hbad with
    | contents hc hdouble => exact .contents hc hdouble
    | first hblocks hcur hne hzero => exact .first hblocks hcur (hclosed ▸ hne) (hsize ▸ hzero)
    | later hblocks hdouble => exact .later hblocks (hrestarts ▸ hdouble)

/-- The bytes of the open block when it is closed. -/
theorem length_closedBlock (s : Encoder) (cur : List Entry) (body : Bytes) :
    (closedBlock s cur body).written.length =
      body.length + (s.dataRestarts.length + 1) * 4 + 5 := by
  have hcontent := length_putBlock body s.dataRestarts
  have heq : (closedBlock s cur body).content = putBlock body s.dataRestarts := rfl
  rw [length_written, heq]
  omega

theorem Rolling.dvd_sstOffset (h : Rolling fileLimit s v) (hlimit : 16 ∣ fileLimit) :
    16 ∣ s.sstOffset := h.sstOffset ▸ hlimit.mul_right _

theorem indexBlockIndex_closeBlock (s : Encoder) (tail : ℕ) :
    s.indexBlockIndex ≤ (s.closeBlock tail).indexBlockIndex := Nat.le_add_right _ _

theorem Rolling.complete_closeBlock (h : Rolling fileLimit s v) (hcur : v.cur ≠ []) :
    ∀ b ∈ (v.closeBlock s).blocks, Complete b := by
  intro b hb
  rcases List.mem_append.mp hb with hb | hb
  · exact h.complete b hb
  · rw [List.mem_singleton.mp hb]
    exact h.complete_closedBlock hcur

theorem Rolling.closeFullBlock (h : Rolling fileLimit s v) (hlimit : 16 ∣ fileLimit)
    (hcur : v.cur ≠ []) (hsize : (dataArea v.blocks).length < 2 ^ 35) (hfull : 4096 ≤ v.body.length)
    (hle : (closedBlock s v.cur v.body).written.length ≤ bramSize) :
    Rolling fileLimit s.closeFullBlock (v.closeBlock s) := by
  obtain ⟨restarts, size, hopen⟩ := h.opened
  have hoffset := h.dvd_sstOffset hlimit
  have hnext := hopen.closeFullBlock hcur hsize hfull
  obtain ⟨restarts', size', heq⟩ := closeFullBlock_inFile hoffset h.offset_le restarts size
  rw [heq] at hnext
  obtain ⟨hsst, hindex⟩ := agree_closeBlock hoffset h.offset_le 0
  constructor
  case opened => exact ⟨restarts', size', hnext⟩
  case sstOffset => exact h.sstOffset
  case indexBlockOffset => exact h.indexBlockOffset
  case offset_le => exact h.offset_le.trans (indexBlockIndex_closeBlock s 0)
  case length => exact h.length
  case stored => exact h.stored_frame hsst hindex
  case complete => exact h.complete_closeBlock hcur
  case dataRestarts => exact fun hnil => absurd rfl hnil
  case small =>
    have hsmall := h.small
    change (dataArea (v.blocks ++ [closedBlock s v.cur v.body])).length ≤
      bramSize * (v.blocks ++ [closedBlock s v.cur v.body]).length
    rw [dataArea_append, dataArea_singleton, List.length_append, List.length_append,
      List.length_singleton, Nat.mul_succ]
    exact Nat.add_le_add hsmall hle
  case unlisted => exact fun hnil => absurd hnil (List.concat_ne_nil _ _)

/-! ## A file is closed -/

theorem indexBlockIndex_flushed (s : Encoder) :
    s.indexBlockIndex ≤ (flushed s).indexBlockIndex := by
  rw [flushed]
  split
  · exact indexBlockIndex_closeBlock s 16
  · exact le_rfl

theorem flushed_fields (s : Encoder) : (flushed s).closed = s.closed ∧
    (flushed s).sstOffset = s.sstOffset ∧ (flushed s).indexBlockOffset = s.indexBlockOffset := by
  rw [flushed]
  split
  · exact ⟨rfl, rfl, rfl⟩
  · exact ⟨rfl, rfl, rfl⟩

/-- What the host is told about the file that is closed. -/
def closedOutput (s : Encoder) : OutputFile where
  pps := { (flushed s).pps with
    indexBlockOffset := (flushed s).sstIndex
    largestKey := (flushed s).preKey
    minSeq := (flushed s).minSeqno
    maxSeq := (flushed s).maxSeqno }
  topSstIndex := (flushed s).sstIndex
  topIndexBlockIndex := (flushed s).indexBlockIndex + ((flushed s).indexRestarts.length + 1) * 4 + 5 -
    (flushed s).indexBlockOffset

/-- Restarts and trailer of the index block. -/
def indexTail (restarts : List ℕ) : Bytes :=
  restarts.flatMap (putFixed 4) ++ putFixed 4 restarts.length ++ trailer

theorem closeFile_fields (s : Encoder) (fileLimit : ℕ) :
    (s.closeFile fileLimit).closed = s.closed ++ [closedOutput s] ∧
    (s.closeFile fileLimit).sst = (flushed s).sst ∧
    (s.closeFile fileLimit).index =
      store (flushed s).index (flushed s).indexBlockIndex (indexTail (flushed s).indexRestarts) := by
  have htrailer := store_trailer (flushed s).index (flushed s).indexBlockIndex
    ((flushed s).indexRestarts.flatMap (putFixed 4) ++ putFixed 4 (flushed s).indexRestarts.length)
  rw [length_restartWords] at htrailer
  rw [Encoder.closeFile, ← flushed]
  dsimp only
  rw [htrailer, (flushed_fields s).1]
  exact ⟨rfl, rfl, rfl⟩

theorem indexBlock_eq (c : FileContent) : c.indexBlock = c.indexBody ++ indexTail c.indexRestarts := by
  rw [FileContent.indexBlock, putBlock, indexTail]
  simp only [List.append_assoc]

theorem length_indexTail (restarts : List ℕ) :
    (indexTail restarts).length = (restarts.length + 1) * 4 + 5 := by
  rw [indexTail, List.length_append, length_restartWords, length_trailer]

theorem Rolling.flush_eq (h : Rolling fileLimit s v) {restarts : List ℕ} {size : ℕ}
    {blocks' : List DataBlock} {indexBody' : Bytes}
    (hflushes : Flushes (inFile restarts size s) v.blocks v.cur v.body v.indexBody blocks'
      indexBody') : blocks' = (v.flush s).blocks ∧ indexBody' = (v.flush s).indexBody := by
  cases hflushes with
  | last hcur =>
    rw [View.flush, if_pos (mt h.cur_eq_nil.mp hcur)]
    exact ⟨rfl, rfl⟩
  | nothing hcur =>
    rw [View.flush, if_neg (not_not.mpr (h.cur_eq_nil.mpr hcur))]
    exact ⟨rfl, rfl⟩

theorem Rolling.complete_flush (h : Rolling fileLimit s v) :
    ∀ b ∈ (v.flush s).blocks, Complete b := by
  rw [View.flush]
  split
  · next hne => exact h.complete_closeBlock (mt h.cur_eq_nil.mpr hne)
  · exact h.complete

/-- The file that is closed is stored behind those before. -/
theorem Rolling.stored_closeFile (h : Rolling fileLimit s v) (hlimit : 16 ∣ fileLimit)
    (hsize : (dataArea v.blocks).length < 2 ^ 35)
    (hwithin : (dataArea (v.flush s).blocks).length ≤ fileLimit)
    (hindexWithin : (closedOutput s).topIndexBlockIndex ≤ indexPart) :
    StoredAt fileLimit (s.closeFile fileLimit).sst (s.closeFile fileLimit).index s.closed.length
      (closedOutput s) ⟨(v.flush s).blocks, (v.flush s).indexBody, (flushed s).indexRestarts⟩ := by
  obtain ⟨restarts, size, hopen⟩ := h.opened
  obtain ⟨blocks', indexBody', hflushes, hfiled, hdata, -, -, -⟩ := hopen.flushed_spec hsize
  obtain ⟨restarts', size', heq⟩ := flushed_inFile (h.dvd_sstOffset hlimit) h.offset_le restarts size
  obtain ⟨rfl, rfl⟩ := h.flush_eq hflushes
  obtain ⟨hclosed, hsstOffset, hindexOffset⟩ := flushed_fields s
  obtain ⟨-, hsst, hindex⟩ := closeFile_fields s fileLimit
  rw [heq] at hfiled hdata
  have hat : (flushed s).indexBlockIndex - (flushed s).indexBlockOffset =
      (v.flush s).indexBody.length := hfiled.indexBlockIndex
  have hle : (flushed s).indexBlockOffset ≤ (flushed s).indexBlockIndex := by
    rw [hindexOffset]
    exact h.offset_le.trans (indexBlockIndex_flushed s)
  have hwritten := holds_shift.mp hfiled.written
  have hlen : (closedOutput s).topIndexBlockIndex =
      ((v.flush s).indexBody ++ indexTail (flushed s).indexRestarts).length := by
    rw [List.length_append, length_indexTail, ← hat]
    change (flushed s).indexBlockIndex + _ + 5 - _ = _
    omega
  constructor
  case data =>
    rw [hsst, ← h.sstOffset, ← hsstOffset]
    exact holds_shift.mp hdata
  case topSstIndex => exact hfiled.sstIndex
  case within => exact hwithin
  case written =>
    have happend := hwritten.append_store (indexTail (flushed s).indexRestarts)
    rw [Nat.add_zero, ← hat, Nat.add_sub_cancel' hle, hindexOffset, h.indexBlockOffset] at happend
    rw [hindex, indexBlock_eq]
    exact happend
  case topIndexBlockIndex =>
    rw [indexBlock_eq]
    exact hlen
  case indexWithin =>
    rw [indexBlock_eq, ← hlen]
    exact hindexWithin
  case complete => exact h.complete_flush
  case handles => exact hfiled.index

theorem getElem?_concat_eq_some {α : Type*} {xs : List α} {x y : α} {i : ℕ}
    (h : (xs ++ [x])[i]? = some y) : xs[i]? = some y ∨ i = xs.length ∧ y = x := by
  rcases Nat.lt_or_ge i xs.length with hi | hi
  · rw [List.getElem?_append_left hi] at h
    exact .inl h
  · rw [List.getElem?_append_right hi] at h
    obtain ⟨hlt, hy⟩ := List.getElem?_eq_some_iff.mp h
    rw [List.length_singleton] at hlt
    right
    refine ⟨by omega, ?_⟩
    rw [← hy]
    exact List.getElem_singleton hlt

/-- A file that was just started. -/
theorem open_closeFile (s : Encoder) (fileLimit : ℕ) :
    Open (inFile [] 0 (s.closeFile fileLimit)) [] [] [] [] where
  closed := rfl
  sstOffset := rfl
  indexBlockOffset := rfl
  sstIndex := rfl
  finished := fun _ hb => absurd hb List.not_mem_nil
  index := .nil _
  written := rfl
  indexBlockIndex := Nat.sub_self _
  indexRestarts := le_rfl
  numDataBlocks := rfl
  dataSize := rfl
  spaced := ⟨Nat.zero_le _, fun _ => Nat.zero_le _⟩
  paged := ⟨rfl, rfl⟩
  remain := rfl
  readIndex := rfl
  blockIndex := OnChipArrays.dataBlockIndex_flushed s
  data := .nil _
  preKey := fun h => absurd rfl h
  keys := fun _ he => absurd he List.not_mem_nil
  dataRestarts := fun h => absurd rfl h
  bounded := Nat.zero_le _
  entries := rfl
  full := le_rfl

theorem Rolling.closeFile (h : Rolling fileLimit s v) (hlimit : 16 ∣ fileLimit)
    (hsize : (dataArea v.blocks).length < 2 ^ 35)
    (hwithin : (dataArea (v.flush s).blocks).length ≤ fileLimit)
    (hindexWithin : (closedOutput s).topIndexBlockIndex ≤ indexPart) :
    Rolling fileLimit (s.closeFile fileLimit)
      ((v.flush s).closeFile (flushed s).indexRestarts) := by
  have hnew := h.stored_closeFile hlimit hsize hwithin hindexWithin
  obtain ⟨hsst, hindex⟩ := agree_flushed (h.dvd_sstOffset hlimit) h.offset_le
  obtain ⟨hclosed, hsstEq, hindexEq⟩ := closeFile_fields s fileLimit
  have hbefore := h.offset_le.trans (indexBlockIndex_flushed s)
  have hcontents : (v.flush s).contents = v.contents := by
    rw [View.flush]
    split <;> rfl
  have hagree : Agree s.index (s.closeFile fileLimit).index s.indexBlockOffset := by
    rw [hindexEq]
    exact hindex.trans (agree_store _ _ _) hbefore
  constructor
  case opened => exact ⟨[], 0, open_closeFile s fileLimit⟩
  case sstOffset => rfl
  case indexBlockOffset =>
    have hoffset := (flushed_fields s).2.2.trans h.indexBlockOffset
    rw [hclosed, List.length_append, List.length_singleton, Nat.mul_succ, ← hoffset]
    rfl
  case offset_le => exact le_rfl
  case length =>
    rw [hclosed, View.closeFile, hcontents]
    simp only [List.length_append, List.length_singleton, h.length]
  case stored =>
    intro i f c hf hc
    rw [hclosed] at hf
    rw [View.closeFile, hcontents] at hc
    have hold := h.stored_frame (hsstEq ▸ hsst) hagree
    rcases getElem?_concat_eq_some hf with hf | ⟨rfl, rfl⟩
    · rcases getElem?_concat_eq_some hc with hc | ⟨rfl, -⟩
      · exact hold i f c hf hc
      · obtain ⟨hi, -⟩ := List.getElem?_eq_some_iff.mp hf
        exact absurd h.length (by omega)
    · rcases getElem?_concat_eq_some hc with hc | ⟨-, rfl⟩
      · obtain ⟨hi, -⟩ := List.getElem?_eq_some_iff.mp hc
        exact absurd h.length (by omega)
      · exact hnew
  case complete => exact fun b hb => absurd hb List.not_mem_nil
  case dataRestarts => exact fun hnil => absurd rfl hnil
  case small => exact le_rfl
  case unlisted =>
    have hne : (s.closeFile fileLimit).closed ≠ [] := by
      rw [hclosed]
      exact List.concat_ne_nil _ _
    intro _
    rw [if_neg hne]
    exact ⟨rfl, fun hnil => absurd hnil hne⟩

theorem Rolling.cur_flush (h : Rolling fileLimit s v) : (v.flush s).cur = [] := by
  rw [View.flush]
  split
  · rfl
  · next hzero => exact h.cur_eq_nil.mp (not_not.mp hzero)

theorem Rolling.blocks_flush (h : Rolling fileLimit s v) (hne : v.blocks ≠ [] ∨ v.cur ≠ []) :
    (v.flush s).blocks ≠ [] := by
  rw [View.flush]
  split
  · exact List.concat_ne_nil _ _
  · next hzero =>
    rcases hne with hblocks | hcur
    · exact hblocks
    · exact absurd (h.cur_eq_nil.mp (not_not.mp hzero)) hcur

theorem entries_closeBlock (v : View) (s : Encoder) : (v.closeBlock s).entries = v.entries := by
  simp only [View.entries, View.closeBlock, List.flatMap_append, List.flatMap_singleton,
    List.append_nil, List.append_assoc]
  rfl

theorem entries_flush (v : View) (s : Encoder) : (v.flush s).entries = v.entries := by
  rw [View.flush]
  split
  · exact entries_closeBlock v s
  · rfl

theorem entries_closeFile (hcur : v.cur = []) (indexRestarts : List ℕ) :
    (v.closeFile indexRestarts).entries = v.entries := by
  simp only [View.entries, View.closeFile, List.flatMap_append, List.flatMap_singleton,
    List.flatMap_nil, List.append_nil, hcur]
  rfl

theorem Judged.flush (hj : Judged good s v) (h : Rolling fileLimit s v) :
    Judged good (flushed s) (v.flush s) := by
  rw [flushed, View.flush]
  split
  · next hne => exact hj.closeBlock h (mt h.cur_eq_nil.mpr hne) 16
  · exact hj.congr rfl rfl rfl

/-- The index of the file that is closed is judged with the others. -/
theorem Judged.closeFile (hj : Judged good s v) (h : Rolling fileLimit s v)
    (hne : v.blocks ≠ [] ∨ v.cur ≠ []) (fileLimit : ℕ) :
    Judged good (s.closeFile fileLimit) ((v.flush s).closeFile (flushed s).indexRestarts) := by
  have hflush := hj.flush h
  have hcur := h.cur_flush
  have hblocks := h.blocks_flush hne
  constructor
  case listed =>
    intro hgood
    obtain ⟨hcontents, -, hlater⟩ := hflush.listed hgood
    refine ⟨?_, fun _ hnil => absurd rfl hnil, fun hnil => absurd rfl hnil⟩
    intro c hc
    rcases List.mem_append.mp hc with hc | hc
    · exact hcontents c hc
    · rw [List.mem_singleton.mp hc]
      exact hlater hblocks
  case doubled =>
    intro hbad
    cases hflush.doubled hbad with
    | contents hc hdouble => exact .contents (List.mem_append_left _ hc) hdouble
    | first _ hne => exact absurd hcur hne
    | later _ hdouble => exact .contents (List.mem_append_right _ (List.mem_singleton_self _)) hdouble

/-! ## Runs that fit -/

/-- All blocks were closed inside the buffer, no file had more index than its part, and there are
not too many files. -/
structure Admissible (s : Encoder) : Prop where
  overflow : s.overflow = false
  files : filesSoFar s ≤ MAX_OUTPUT_FILE_NUM
  closed : ∀ f ∈ s.closed, f.topIndexBlockIndex ≤ indexPart
  index : s.indexBlockIndex - s.indexBlockOffset ≤ indexPart

theorem filesSoFar_le (s : Encoder) : filesSoFar s ≤ s.closed.length + 1 := by
  rw [filesSoFar]
  split <;> omega

theorem overflow_closeBlock {tail : ℕ} (h : (s.closeBlock tail).overflow = false) :
    s.overflow = false ∧ s.bramReadIndex + (s.dataRestarts.length + 1) * 4 + 5 ≤ bramSize := by
  have hor : (s.overflow ||
      decide (bramSize < s.bramReadIndex + (s.dataRestarts.length + 1) * 4 + 5)) = false := h
  rw [Bool.or_eq_false_iff, decide_eq_false_iff_not] at hor
  exact ⟨hor.1, Nat.le_of_not_lt hor.2⟩

theorem overflow_flushed (h : (flushed s).overflow = false) : s.overflow = false ∧
    (s.dataBlockIndex ≠ 0 →
      s.bramReadIndex + (s.dataRestarts.length + 1) * 4 + 5 ≤ bramSize) := by
  rw [flushed] at h
  split at h
  · obtain ⟨hbefore, hroom⟩ := overflow_closeBlock h
    exact ⟨hbefore, fun _ => hroom⟩
  · next hzero => exact ⟨h, fun hne => absurd hne hzero⟩

theorem Admissible.of_closeFile (h : Admissible (s.closeFile fileLimit)) : Admissible s := by
  obtain ⟨hclosed, -, -⟩ := closeFile_fields s fileLimit
  have hfiles := h.files
  have hone := filesSoFar_le s
  have hflushed := indexBlockIndex_flushed s
  obtain ⟨-, -, hoffset⟩ := flushed_fields s
  have htop : (closedOutput s).topIndexBlockIndex ≤ indexPart :=
    h.closed _ (hclosed ▸ List.mem_append_right _ (List.mem_singleton_self _))
  have htopEq : (closedOutput s).topIndexBlockIndex = (flushed s).indexBlockIndex +
      ((flushed s).indexRestarts.length + 1) * 4 + 5 - (flushed s).indexBlockOffset := rfl
  constructor
  case overflow => exact (overflow_flushed h.overflow).1
  case files =>
    rw [filesSoFar, hclosed, List.length_append, List.length_singleton] at hfiles
    omega
  case closed =>
    intro f hf
    exact h.closed f (hclosed ▸ List.mem_append_left _ hf)
  case index => omega

theorem Admissible.of_closeFullBlock (h : Admissible s.closeFullBlock) : Admissible s := by
  have hindex := h.index
  have hgrows := indexBlockIndex_closeBlock s 0
  have heq : s.closeFullBlock.indexBlockIndex = (s.closeBlock 0).indexBlockIndex := rfl
  have hoffset : s.closeFullBlock.indexBlockOffset = s.indexBlockOffset := rfl
  exact ⟨(@overflow_closeBlock s 0 h.overflow).1, h.files, h.closed, by omega⟩

theorem Admissible.of_putRecord {km : KeyMeta} {value : Bytes}
    (h : Admissible (s.putRecord km value)) : Admissible s := by
  have hkeeps := keeps_putRecord s km value
  obtain ⟨hclosed, hentries⟩ := closed_putRecord s km value
  have hfiles := h.files
  have hone := filesSoFar_le s
  have hindex := h.index
  constructor
  case overflow => exact hkeeps.overflow ▸ h.overflow
  case files =>
    rw [filesSoFar, hentries, if_neg (Nat.succ_ne_zero _), hclosed] at hfiles
    omega
  case closed => exact hkeeps.closed ▸ h.closed
  case index =>
    rwa [hkeeps.indexBlockIndex, hkeeps.indexBlockOffset] at hindex

theorem Admissible.of_putAndClose {km : KeyMeta} {value : Bytes}
    (h : Admissible (putAndClose km value s)) : Admissible s := by
  rw [putAndClose] at h
  split at h
  · have hput := h.of_closeFullBlock.of_putRecord
    exact ⟨hput.overflow, hput.files, hput.closed, hput.index⟩
  · have hput := h.of_putRecord
    exact ⟨hput.overflow, hput.files, hput.closed, hput.index⟩

theorem Admissible.of_encodeRecord {keepAllVersions : Bool} {last : Bool} {km : KeyMeta}
    {value : Bytes} (h : Admissible (s.encodeRecord keepAllVersions fileLimit last km value)) :
    Admissible s := by
  cases hkept : !keepAllVersions && sameUserKey s.lastUserKey km.key with
  | true =>
    rw [Encoder.encodeRecord, hkept, if_pos rfl] at h
    exact h
  | false =>
    obtain heq | heq := @encodeRecord_of_kept s keepAllVersions fileLimit last km value hkept
    · rw [heq] at h
      exact h.of_putAndClose
    · rw [heq] at h
      exact h.of_closeFile.of_putAndClose

/-! ## Room in the file -/

/-- What is open still fits the file: there is room for any block, the file has only its first
record, or no block is open. -/
inductive Bounded (fileLimit : ℕ) (s : Encoder) (v : View) : Prop
  | room (h : s.sstIndex + bramSize ≤ fileLimit)
  | first (hblocks : v.blocks = []) (hbody : v.body.length ≤ 1060)
      (hrestarts : s.dataRestarts.length = 1)
  | closed (hcur : v.cur = []) (h : s.sstIndex ≤ fileLimit)

theorem Rolling.size_lt (h : Rolling fileLimit s v) (ha : Admissible s) :
    (dataArea v.blocks).length < 2 ^ 35 := by
  obtain ⟨restarts, size, hopen⟩ := h.opened
  have hsmall := h.small
  have hpart := ha.index
  have hat : s.indexBlockIndex - s.indexBlockOffset = v.indexBody.length := hopen.indexBlockIndex
  have hlen := hopen.index.length_le
  have hbram : bramSize = 5200 := rfl
  have hindexPart : indexPart = 2097152 := rfl
  rw [length_indexEntries] at hlen
  rw [hbram] at hsmall
  omega

/-- The bytes that a closed block has in the buffer. -/
theorem Rolling.length_closedBlock_le (h : Rolling fileLimit s v)
    (hroom : s.bramReadIndex + (s.dataRestarts.length + 1) * 4 + 5 ≤ bramSize) :
    (closedBlock s v.cur v.body).written.length ≤ bramSize := by
  obtain ⟨restarts, size, hopen⟩ := h.opened
  have hread : s.bramReadIndex = s.sstIndex % 16 + v.body.length := hopen.readIndex
  rw [length_closedBlock]
  omega

theorem Rolling.sstIndex_eq (h : Rolling fileLimit s v) :
    s.sstIndex = (dataArea v.blocks).length := by
  obtain ⟨restarts, size, hopen⟩ := h.opened
  exact hopen.sstIndex

theorem Rolling.within_flush (h : Rolling fileLimit s v) (hb : Bounded fileLimit s v)
    (hlimit : 4096 ≤ fileLimit) (hoverflow : (flushed s).overflow = false) :
    (dataArea (v.flush s).blocks).length ≤ fileLimit := by
  have hsst := h.sstIndex_eq
  rw [View.flush]
  split
  · next hne =>
    have hle := h.length_closedBlock_le ((overflow_flushed hoverflow).2 hne)
    have hlen := length_closedBlock s v.cur v.body
    change (dataArea (v.blocks ++ [closedBlock s v.cur v.body])).length ≤ fileLimit
    rw [dataArea_append, dataArea_singleton, List.length_append, ← hsst]
    cases hb with
    | room hroom => omega
    | first hblocks hbody hrestarts =>
      have hzero := h.blocks_eq_nil.mpr hblocks
      rw [hrestarts] at hlen
      omega
    | closed hcur hle => exact absurd (h.cur_eq_nil.mpr hcur) hne
  · rw [← hsst]
    cases hb with
    | room hroom => omega
    | first hblocks hbody hrestarts =>
      rw [h.blocks_eq_nil.mpr hblocks]
      exact Nat.zero_le _
    | closed hcur hle => exact hle

/-- The state between two records: the block is not full, and another one finds room in the file
unless nothing is in it. -/
structure Between (fileLimit : ℕ) (s : Encoder) (v : View) : Prop where
  room : v.body.length < 4096
  within : s.sstIndex + bramSize ≤ fileLimit ∨ v.blocks = [] ∧ v.cur = []

/-! ## One record -/

/-- What holds behind a record, before the file is closed. -/
structure Written (fileLimit : ℕ) (good : Prop) (s : Encoder) (v : View) : Prop where
  rolling : Rolling fileLimit s v
  judged : Judged good s v
  bounded : Bounded fileLimit s v
  room : v.body.length < 4096
  some_open : v.blocks ≠ [] ∨ v.cur ≠ []

theorem entries_put (v : View) (s : Encoder) (e : Entry) : (v.put s e).entries = v.entries ++ [e] := by
  simp only [View.entries, View.put, List.append_assoc]

/-- The first record of a file takes little of its block. -/
theorem Rolling.first_put (h : Rolling fileLimit s v) (he : Fits e) (hcur : v.cur = []) :
    (v.put s e).body.length ≤ 1060 ∧ (s.openEntry (keyMeta e)).dataRestarts = [0] := by
  obtain ⟨restarts, size, hopen⟩ := h.opened
  have hzero := h.cur_eq_nil.mpr hcur
  have hV : VALUE_LENGTH = 1024 := rfl
  have hvalue := he.2
  have hdata := hopen.data
  rw [hcur] at hdata
  have hle := @length_putEntry_le e he 0 (Nat.succ_pos 31)
  rw [View.put, Encoder.openEntry, if_pos hzero]
  dsimp only
  rw [hdata.eq_nil, List.nil_append, sharedWith_maxKey]
  exact ⟨by omega, rfl⟩

theorem Rolling.written_put (h : Rolling fileLimit s v) (hj : Judged good s v)
    (hb : Between fileLimit s v) (hlimit : 16 ∣ fileLimit) (he : Fits e) (hw : Window e window)
    (hne : v.cur ≠ [] → finalKey [] v.cur ≠ e.key)
    (ha : Admissible (putAndClose (keyMeta e) window s)) :
    ∃ v', Written fileLimit (good ∧ CountsOn s) (putAndClose (keyMeta e) window s) v' ∧
      v'.entries = v.entries ++ [e] := by
  have hkeyed := h.withLastUserKey (keyMeta e).key
  have hput := hkeyed.put hb.room he hw hne
  have hjudged := (hj.congr (t := { s with lastUserKey := (keyMeta e).key }) rfl rfl rfl).put
    (e := e) hkeyed window
  have hkeeps := keeps_putRecord { s with lastUserKey := (keyMeta e).key } (keyMeta e) window
  have hfirst := fun hcur => hkeyed.first_put he hcur
  have hentries := entries_put v { s with lastUserKey := (keyMeta e).key } e
  have hcur : (v.put { s with lastUserKey := (keyMeta e).key } e).cur ≠ [] :=
    List.concat_ne_nil e v.cur
  have hrestarts : (Encoder.putRecord (keyMeta e) window
      { s with lastUserKey := (keyMeta e).key }).dataRestarts =
      (Encoder.openEntry (keyMeta e) { s with lastUserKey := (keyMeta e).key }).dataRestarts := rfl
  have hsst : (Encoder.putRecord (keyMeta e) window
      { s with lastUserKey := (keyMeta e).key }).sstIndex = s.sstIndex := hkeeps.sstIndex
  have hblocks : (v.put { s with lastUserKey := (keyMeta e).key } e).blocks = v.blocks := rfl
  obtain ⟨restarts, size, hopen⟩ := hput.opened
  have hbody : (Encoder.putRecord (keyMeta e) window
      { s with lastUserKey := (keyMeta e).key }).dataBlockIndex = _ := hopen.blockIndex
  have hwithin := hb.within
  rw [putAndClose] at ha ⊢
  dsimp only [CountsOn] at hjudged ⊢
  generalize Encoder.putRecord (keyMeta e) window { s with lastUserKey := (keyMeta e).key } = t
    at hput hjudged hrestarts hsst hbody ha ⊢
  generalize v.put { s with lastUserKey := (keyMeta e).key } e = w
    at hput hjudged hentries hcur hblocks hbody hfirst ⊢
  split at ha
  · next hfull =>
    obtain ⟨-, hroom⟩ := @overflow_closeBlock t 0 ha.overflow
    have hle := hput.length_closedBlock_le hroom
    have hlen := length_closedBlock t w.cur w.body
    have hnext : t.closeFullBlock.sstIndex =
        t.sstIndex + (t.dataBlockIndex + (t.dataRestarts.length + 1) * 4 + 5) := rfl
    rw [if_pos hfull]
    refine ⟨w.closeBlock t, ?_, (entries_closeBlock w t).trans hentries⟩
    constructor
    case rolling =>
      exact hput.closeFullBlock hlimit hcur (hput.size_lt ha.of_closeFullBlock) (hbody ▸ hfull) hle
    case judged => exact (hjudged.closeBlock hput hcur 0).congr rfl rfl rfl
    case bounded =>
      apply Bounded.closed rfl
      rcases hwithin with hwithin | ⟨-, hnil⟩
      · omega
      · have hsmall := (hfirst hnil).1
        omega
    case room => exact Nat.succ_pos 4095
    case some_open => exact .inl (List.concat_ne_nil _ _)
  · next hmore =>
    rw [if_neg hmore]
    refine ⟨w, ?_, hentries⟩
    constructor
    case rolling => exact hput
    case judged => exact hjudged
    case bounded =>
      rcases hwithin with hwithin | ⟨hnone, hnil⟩
      · exact .room (hsst ▸ hwithin)
      · obtain ⟨hsmall, hone⟩ := hfirst hnil
        exact .first (hblocks ▸ hnone) hsmall (by rw [hrestarts, hone]; rfl)
    case room => omega
    case some_open => exact .inr hcur

theorem Rolling.entries_eq_zero (h : Rolling fileLimit s v) :
    s.pps.entries = 0 ↔ v.blocks = [] ∧ v.cur = [] := by
  obtain ⟨restarts, size, hopen⟩ := h.opened
  have hentries : s.pps.entries = (v.blocks.flatMap DataBlock.entries ++ v.cur).length :=
    hopen.entries
  rw [hentries, List.length_eq_zero_iff, List.append_eq_nil_iff]
  apply and_congr_left
  intro _
  constructor
  · intro hnil
    rw [List.flatMap_eq_nil_iff] at hnil
    apply List.eq_nil_iff_forall_not_mem.mpr
    intro b hb
    exact (h.complete b hb).nonempty (hnil b hb)
  · intro hnil
    rw [hnil]
    rfl

theorem encodeRecord_eq {keepAllVersions : Bool} {last : Bool} {km : KeyMeta} {value : Bytes}
    (hkept : (!keepAllVersions && sameUserKey s.lastUserKey km.key) = false) :
    s.encodeRecord keepAllVersions fileLimit last km value =
      if fileLimit < (putAndClose km value s).sstIndex + bramSize ∧
          (putAndClose km value s).closed.length < MAX_OUTPUT_FILE_NUM ∨ last then
        (putAndClose km value s).closeFile fileLimit
      else putAndClose km value s := by
  rw [Encoder.encodeRecord, hkept, if_neg Bool.false_ne_true]
  rfl

/-- A record that is written keeps everything. -/
theorem Rolling.encodeRecord (h : Rolling fileLimit s v) (hj : Judged good s v)
    (hb : Between fileLimit s v) (hlimit : 4096 ∣ fileLimit) (hpos : 0 < fileLimit) (he : Fits e)
    (hw : Window e window) (hne : v.cur ≠ [] → finalKey [] v.cur ≠ e.key) {keepAllVersions : Bool}
    {last : Bool} (hkept : (!keepAllVersions && sameUserKey s.lastUserKey (keyMeta e).key) = false)
    (ha : Admissible (s.encodeRecord keepAllVersions fileLimit last (keyMeta e) window)) :
    ∃ v', Rolling fileLimit (s.encodeRecord keepAllVersions fileLimit last (keyMeta e) window) v' ∧
      Judged (good ∧ CountsOn s)
        (s.encodeRecord keepAllVersions fileLimit last (keyMeta e) window) v' ∧
      Between fileLimit (s.encodeRecord keepAllVersions fileLimit last (keyMeta e) window) v' ∧
      v'.entries = v.entries ++ [e] := by
  have hsixteen : 16 ∣ fileLimit := Dvd.dvd.trans (by decide) hlimit
  have hle := Nat.le_of_dvd hpos hlimit
  rw [encodeRecord_eq hkept] at ha ⊢
  split at ha
  · next hclose =>
    rw [if_pos hclose]
    obtain ⟨w, hwritten, hentries⟩ := h.written_put hj hb hsixteen he hw hne ha.of_closeFile
    generalize putAndClose (keyMeta e) window s = t at ha hwritten
    obtain ⟨hrolling, hjudged, hbounded, -, hopen⟩ := hwritten
    have hflush := hrolling.within_flush hbounded hle ha.overflow
    obtain ⟨hclosed, -, -⟩ := closeFile_fields t fileLimit
    refine ⟨_, hrolling.closeFile hsixteen (hrolling.size_lt ha.of_closeFile) hflush ?_,
      hjudged.closeFile hrolling hopen fileLimit, ⟨Nat.succ_pos 4095, .inr ⟨rfl, rfl⟩⟩, ?_⟩
    · exact ha.closed _ (hclosed ▸ List.mem_append_right _ (List.mem_singleton_self _))
    · rw [entries_closeFile hrolling.cur_flush, entries_flush, hentries]
  · next hmore =>
    rw [if_neg hmore]
    obtain ⟨w, hwritten, hentries⟩ := h.written_put hj hb hsixteen he hw hne ha
    generalize putAndClose (keyMeta e) window s = t at ha hwritten hmore
    obtain ⟨hrolling, hjudged, -, hroom, hopen⟩ := hwritten
    have hentriesPos : t.pps.entries ≠ 0 := by
      intro hzero
      obtain ⟨hblocks, hcur⟩ := hrolling.entries_eq_zero.mp hzero
      rcases hopen with hblocks' | hcur'
      · exact hblocks' hblocks
      · exact hcur' hcur
    have hfiles := ha.files
    rw [filesSoFar, if_neg hentriesPos] at hfiles
    refine ⟨w, hrolling, hjudged, ⟨hroom, .inl ?_⟩, hentries⟩
    by_contra hfull
    exact hmore (.inl ⟨Nat.lt_of_not_le hfull, hfiles⟩)

/-! ## The run -/

variable {keepAllVersions : Bool} {es all : List Entry} {inputs rest : Inputs} {s' : Encoder}

/-- The streams are read up to the end. -/
theorem encoderLoop_of_feeds (hfeeds : Feeds es inputs rest) (s : Encoder) :
    ∃ s', encoderLoop keepAllVersions fileLimit es.length s inputs = some (s', rest) := by
  obtain ⟨s', hloop, -⟩ := @encoderLoop_rule s keepAllVersions fileLimit _ (fun _ _ => True)
    (fun _ _ _ _ _ _ _ _ _ => trivial) es inputs rest hfeeds [] trivial rfl
  exact ⟨s', hloop⟩

/-- A run that fits fits all along. -/
theorem Admissible.of_encoderLoop (hfeeds : Feeds es inputs rest)
    (hloop : encoderLoop keepAllVersions fileLimit es.length s inputs = some (s', rest))
    (ha : Admissible s') : Admissible s := by
  induction hfeeds generalizing s with
  | nil inputs =>
    cases hloop
    exact ha
  | @cons e es inputs rest kms port ports first second slices hkm hport hvalue hw hrest ih =>
    rw [List.length_cons, encoderLoop, hkm, hport] at hloop
    dsimp only at hloop
    rw [hvalue] at hloop
    exact (ih hloop).of_encodeRecord

/-- The key before a record is another one. -/
theorem finalKey_ne {done cur : List Entry} {xs : List Entry}
    (hchain : all.IsChain fun e e' => e.key ≠ e'.key) (hall : done ++ [e] <+: all)
    (hdone : done = xs ++ cur) (hcur : cur ≠ []) : finalKey [] cur ≠ e.key := by
  obtain ⟨later, rfl⟩ := hall
  obtain ⟨hbefore, -, -⟩ := List.isChain_append.mp hchain
  rw [hdone, List.isChain_append] at hbefore
  obtain ⟨-, -, hnext⟩ := hbefore
  rw [finalKey, List.getLast?_eq_some_getLast hcur]
  apply hnext _ _ e rfl
  rw [List.getLast?_append, List.getLast?_eq_some_getLast hcur]
  rfl

/-- Behind all records everything is as the view says, and the indexes are as they should be if no
later file starts with the count at a restart. -/
theorem encoderLoop_rolls (hlimit : 4096 ∣ fileLimit) (hpos : 0 < fileLimit)
    (hfeeds : Feeds es inputs rest)
    (hloop : encoderLoop keepAllVersions fileLimit es.length s inputs = some (s', rest))
    (ha : Admissible s') (h : Rolling fileLimit s v) (hj : Judged good s v)
    (hb : Between fileLimit s v) (hfits : ∀ e ∈ es, Fits e)
    (hchain : all.IsChain fun e e' => e.key ≠ e'.key)
    (hall : v.entries ++ keptFrom keepAllVersions s.lastUserKey es = all) :
    ∃ v', Rolling fileLimit s' v' ∧
      Judged (good ∧ ∀ step ∈ encoderSteps keepAllVersions fileLimit es.length s inputs,
        CountsOn step.state) s' v' ∧
      Between fileLimit s' v' ∧ v'.entries = all := by
  induction hfeeds generalizing s v good with
  | nil inputs =>
    cases hloop
    rw [keptFrom, List.append_nil] at hall
    refine ⟨v, h, ⟨fun hg => hj.listed hg.1, fun hn => hj.doubled fun hg => hn ⟨hg, ?_⟩⟩, hb, hall⟩
    exact fun step hstep => absurd hstep List.not_mem_nil
  | @cons e es inputs rest kms port ports first second slices hkm hport hvalue hw hrest ih =>
    rw [List.length_cons, encoderLoop, hkm, hport] at hloop
    dsimp only at hloop
    rw [hvalue] at hloop
    dsimp only at hloop
    have hnext := ha.of_encoderLoop hrest hloop
    rw [List.length_cons, encoderSteps, hkm, hport]
    dsimp only
    rw [hvalue]
    dsimp only
    rw [keptFrom] at hall
    have hfitsRest : ∀ e' ∈ es, Fits e' := fun e' he' => hfits e' (List.mem_cons_of_mem _ he')
    cases hkept : !keepAllVersions && sameUserKey s.lastUserKey (keyMeta e).key with
    | true =>
      have hsame : s.encodeRecord keepAllVersions fileLimit (es.length == 0) (keyMeta e)
          (first ++ second) = s := by
        rw [Encoder.encodeRecord, hkept, if_pos rfl]
      rw [hkept, if_pos rfl] at hall
      rw [if_pos rfl, hsame]
      rw [hsame] at hloop
      exact ih hloop h hj hb hfitsRest hall
    | false =>
      rw [hkept, if_neg Bool.false_ne_true, List.append_cons] at hall
      have hne : v.cur ≠ [] → finalKey [] v.cur ≠ e.key :=
        finalKey_ne hchain ⟨_, hall⟩ rfl
      obtain ⟨w, hw', hjw, hbw, hentries⟩ := h.encodeRecord hj hb hlimit hpos
        (hfits e List.mem_cons_self) hw hne hkept hnext
      rw [← lastUserKey_encodeRecord hkept fileLimit (es.length == 0) (first ++ second),
        ← hentries] at hall
      obtain ⟨v', hv', hjv, hbv, hdone⟩ := ih hloop hw' hjw hbw hfitsRest hall
      refine ⟨v', hv', ?_, hbv, hdone⟩
      rwa [if_neg Bool.false_ne_true, List.forall_mem_cons, ← and_assoc]

/-! ## The files of a run -/

/-- With no file open, all files are well formed if and only if all indexes are as they should. -/
theorem wellFormedFiles_iff (h : Rolling fileLimit s v) (hj : Judged good s v)
    (hblocks : v.blocks = []) (hcur : v.cur = []) :
    WellFormedFiles fileLimit s v.entries ↔ good := by
  have hentries : v.entries = v.contents.flatMap FileContent.entries := by
    rw [View.entries, hblocks, hcur, List.flatMap_nil, List.append_nil, List.append_nil]
  rw [hentries]
  constructor
  · rintro ⟨contents, -, hlength, hwell⟩
    by_contra hbad
    cases hj.doubled hbad with
    | @contents c hc hdouble =>
      obtain ⟨i, hi, rfl⟩ := List.getElem_of_mem hc
      have hi' := hi
      rw [h.length] at hi'
      have hstored := h.stored i _ _ (List.getElem?_eq_getElem hi') (List.getElem?_eq_getElem hi)
      have hother := hwell i _ _ (List.getElem?_eq_getElem hi')
        (List.getElem?_eq_getElem (hlength ▸ hi'))
      -- both contents stand at the same place, and the host is told one length
      have hlen := hstored.topIndexBlockIndex.symm.trans hother.topIndexBlockIndex
      have hsame := (hstored.written.load_eq hlen.symm).symm.trans hother.written
      obtain ⟨hblock, -⟩ := List.append_inj' hsame rfl
      have hpart := hstored.indexWithin
      have hindexPart : indexPart = 2097152 := rfl
      rw [FileContent.indexBlock, List.length_append] at hpart
      exact not_restartArray_of_putBlock (by omega) hdouble hblock hother.restarts
    | first _ hne => exact hne hcur
    | later hne => exact hne hblocks
  · intro hgood
    refine ⟨v.contents, rfl, h.length, ?_⟩
    intro i f c hf hc
    exact ⟨h.stored i f c hf hc, (hj.listed hgood).contents c (List.mem_of_getElem? hc)⟩

/-- Without an open file there is no index behind the last one. -/
theorem index_of_encoderLoop (hfeeds : Feeds es inputs rest) (bram sst index : Memory)
    (hloop : encoderLoop keepAllVersions fileLimit es.length (.start bram sst index) inputs =
      some (s, rest)) (hzero : s.pps.entries = 0) : s.indexBlockIndex - s.indexBlockOffset = 0 := by
  have hstep : ∀ (s : Encoder) (e : Entry) (window : Bytes) (last : Bool),
      (!keepAllVersions && sameUserKey s.lastUserKey (keyMeta e).key) = false →
      (s.encodeRecord keepAllVersions fileLimit last (keyMeta e) window).pps.entries = 0 →
      (s.encodeRecord keepAllVersions fileLimit last (keyMeta e) window).indexBlockIndex -
        (s.encodeRecord keepAllVersions fileLimit last (keyMeta e) window).indexBlockOffset = 0 := by
    intro s e window last hkept hnone
    obtain heq | heq := @encodeRecord_of_kept s keepAllVersions fileLimit last (keyMeta e) window hkept
    · rw [heq] at hnone
      exact absurd hnone (entries_putAndClose s (keyMeta e) window).2
    · rw [heq]
      exact Nat.sub_self _
  obtain ⟨t, ht, hindex⟩ := @encoderLoop_rule (.start bram sst index) keepAllVersions fileLimit _
    (fun s _ => s.pps.entries = 0 → s.indexBlockIndex - s.indexBlockOffset = 0)
    (fun s _ e window last _ _ _ hkept => hstep s e window last hkept) es inputs rest hfeeds []
    (fun _ => rfl) rfl
  cases hloop.symm.trans ht
  exact hindex hzero

/-- What is seen at the end of a run held before the last file was closed. -/
theorem admissible_of_finish (hoverflow : (s.finish fileLimit).overflow = false)
    (hfiles : (s.finish fileLimit).closed.length ≤ MAX_OUTPUT_FILE_NUM)
    (hclosed : ∀ f ∈ (s.finish fileLimit).closed, f.topIndexBlockIndex ≤ indexPart)
    (hindex : s.pps.entries = 0 → s.indexBlockIndex - s.indexBlockOffset = 0) : Admissible s := by
  rw [Encoder.finish] at hoverflow hfiles hclosed
  by_cases hzero : s.pps.entries = 0
  · rw [if_neg (not_not.mpr hzero)] at hoverflow hfiles hclosed
    refine ⟨hoverflow, ?_, hclosed, (hindex hzero).trans_le (Nat.zero_le _)⟩
    rw [filesSoFar, if_pos hzero]
    exact hfiles
  · rw [if_pos hzero] at hoverflow hfiles hclosed
    apply @Admissible.of_closeFile s fileLimit
    exact ⟨hoverflow, hfiles, hclosed, (Nat.sub_self _).trans_le (Nat.zero_le _)⟩

theorem Rolling.finish (h : Rolling fileLimit s v) (hj : Judged good s v) (hb : Between fileLimit s v)
    (hlimit : 4096 ∣ fileLimit) (hpos : 0 < fileLimit) (ha : Admissible s)
    (hoverflow : (s.finish fileLimit).overflow = false)
    (hclosed : ∀ f ∈ (s.finish fileLimit).closed, f.topIndexBlockIndex ≤ indexPart) :
    WellFormedFiles fileLimit (s.finish fileLimit) v.entries ↔ good := by
  have hsixteen : 16 ∣ fileLimit := Dvd.dvd.trans (by decide) hlimit
  rw [Encoder.finish] at hoverflow hclosed ⊢
  by_cases hzero : s.pps.entries = 0
  · obtain ⟨hblocks, hcur⟩ := h.entries_eq_zero.mp hzero
    rw [if_neg (not_not.mpr hzero)]
    exact wellFormedFiles_iff h hj hblocks hcur
  · rw [if_pos hzero] at hoverflow hclosed ⊢
    have hopen : v.blocks ≠ [] ∨ v.cur ≠ [] := by
      rw [h.entries_eq_zero, not_and_or] at hzero
      exact hzero
    have hbounded : Bounded fileLimit s v := by
      rcases hb.within with hwithin | hnone
      · exact .room hwithin
      · exact absurd (h.entries_eq_zero.mpr hnone) hzero
    have hflush := h.within_flush hbounded (Nat.le_of_dvd hpos hlimit) hoverflow
    obtain ⟨hfields, -, -⟩ := closeFile_fields s fileLimit
    have hlast : (closedOutput s).topIndexBlockIndex ≤ indexPart :=
      hclosed _ (hfields ▸ List.mem_append_right _ (List.mem_singleton_self _))
    rw [← entries_flush v s, ← entries_closeFile h.cur_flush (flushed s).indexRestarts]
    exact wellFormedFiles_iff (h.closeFile hsixteen (h.size_lt ha) hflush hlast)
      (hj.closeFile h hopen fileLimit) rfl rfl

/-- The loop and the end of the run leave well-formed files if and only if no later file starts with
the count of index entries at a restart. -/
theorem finish_wellFormed_iff (hfeeds : Feeds es inputs rest) {bram sst index : Memory} {t : Encoder}
    (hloop : encoderLoop keepAllVersions fileLimit es.length (.start bram sst index) inputs =
      some (t, rest)) (hfits : ∀ e ∈ es, Fits e)
    (hchain : (keptFrom keepAllVersions ⟨[], 0⟩ es).IsChain fun e e' => e.key ≠ e'.key)
    (hlimit : 4096 ∣ fileLimit) (hpos : 0 < fileLimit)
    (hoverflow : (t.finish fileLimit).overflow = false)
    (hfiles : (t.finish fileLimit).closed.length ≤ MAX_OUTPUT_FILE_NUM)
    (hindex : ∀ f ∈ (t.finish fileLimit).closed, f.topIndexBlockIndex ≤ indexPart) :
    WellFormedFiles fileLimit (t.finish fileLimit) (keptFrom keepAllVersions ⟨[], 0⟩ es) ↔
      ∀ step ∈ encoderSteps keepAllVersions fileLimit es.length (.start bram sst index) inputs,
        CountsOn step.state := by
  have hnone := index_of_encoderLoop hfeeds bram sst index hloop
  have ha := admissible_of_finish hoverflow hfiles hindex hnone
  obtain ⟨v, hv, hj, hb, hentries⟩ := @encoderLoop_rolls (.start bram sst index) fileLimit
    ⟨[], [], [], [], []⟩ True keepAllVersions es _ inputs rest t hlimit hpos hfeeds hloop ha
    (rolling_start fileLimit bram sst index) (judged_start bram sst index)
    ⟨Nat.succ_pos 4095, .inr ⟨rfl, rfl⟩⟩ hfits hchain rfl
  rw [← hentries, hv.finish hj hb hlimit hpos ha hoverflow hindex, true_and]

theorem encoder_eq {kvSum : ℕ} {start t : Encoder} {km : KeyMeta} {kms : List KeyMeta} {port : ℕ}
    {ports : List ℕ}
    (hloop : encoderLoop keepAllVersions fileLimit kvSum start inputs = some (t, rest))
    (hkm : rest.km = km :: kms) (hport : rest.mergeResult = port :: ports) :
    encoder keepAllVersions fileLimit kvSum start inputs =
      some (t.finish fileLimit, { rest with km := kms, mergeResult := ports }) := by
  rw [encoder, hloop]
  dsimp only [Option.bind_eq_bind, Option.bind_some]
  rw [hkm, hport]

/-- A run of the writer over records that end with the mark of the merge, in which all blocks fit the
buffer and all indexes their part, and which makes at most four files. -/
theorem files_wellFormed_iff (hfeeds : Feeds es inputs rest) {km : KeyMeta} {kms : List KeyMeta}
    {port : ℕ} {ports : List ℕ} (hkm : rest.km = km :: kms)
    (hport : rest.mergeResult = port :: ports) (hfits : ∀ e ∈ es, Fits e)
    (hchain : (keptFrom keepAllVersions ⟨[], 0⟩ es).IsChain fun e e' => e.key ≠ e'.key)
    (hlimit : 4096 ∣ fileLimit) (hpos : 0 < fileLimit) (bram sst index : Memory) :
    ∃ s, encoder keepAllVersions fileLimit es.length (.start bram sst index) inputs =
        some (s, { rest with km := kms, mergeResult := ports }) ∧
      (s.overflow = false → s.closed.length ≤ MAX_OUTPUT_FILE_NUM →
        (∀ f ∈ s.closed, f.topIndexBlockIndex ≤ indexPart) →
        (WellFormedFiles fileLimit s (keptFrom keepAllVersions ⟨[], 0⟩ es) ↔
          ∀ step ∈ encoderSteps keepAllVersions fileLimit es.length (.start bram sst index) inputs,
            CountsOn step.state)) := by
  obtain ⟨t, hloop⟩ := @encoderLoop_of_feeds fileLimit keepAllVersions es inputs rest hfeeds
    (.start bram sst index)
  refine ⟨t.finish fileLimit, encoder_eq hloop hkm hport, ?_⟩
  exact finish_wellFormed_iff hfeeds hloop hfits hchain hlimit hpos

/-! ## A count that stops at a restart -/

open OnChipArrays (recordOf inputsOf slicesOf)

/-- Records of full size: four of them fill a block, and 15 such blocks a file of 65536 bytes. -/
def rolled (n : ℕ) : List Entry := (List.range n).map fun i => recordOf i 1024

/-- What the host is told about the files of a run, and whether a block was too large. -/
def told (r : Option (Encoder × Inputs)) : Option (Bool × List (ℕ × ℕ)) :=
  r.map fun r => (r.1.overflow, r.1.closed.map fun f => (f.topSstIndex, f.topIndexBlockIndex))

theorem fits_rolled {n : ℕ} : ∀ e ∈ rolled n, Fits e := by
  intro e he
  obtain ⟨i, -, rfl⟩ := List.mem_map.mp he
  exact ⟨rfl, by rw [recordOf, List.length_replicate]; exact le_rfl⟩

theorem sorted_rolled {n : ℕ} (hn : n ≤ 256) : ((rolled n).map Entry.key).Pairwise
    (fun a b => SortKeys.internalCompare .bytewise a b = .lt) := by
  rw [rolled, List.map_map, List.pairwise_map]
  apply List.pairwise_lt_range.imp_of_mem
  intro i j _ hj hlt
  rw [List.mem_range] at hj
  exact OnChipArrays.internalCompare_recordOf hlt (by omega) 1024 1024

theorem internalCompare_self (key : Bytes) : SortKeys.internalCompare .bytewise key key = .eq := by
  have huser : UserKeys.UserComparator.bytewise.compare (SortKeys.extractUserKey key)
      (SortKeys.extractUserKey key) = .eq := LexBytes.lex_self _
  rw [SortKeys.internalCompare, huser]
  simp only [lt_irrefl, if_false]

theorem chain_rolled {n : ℕ} (hn : n ≤ 256) : (rolled n).IsChain fun e e' => e.key ≠ e'.key := by
  have hsorted := List.pairwise_map.mp (sorted_rolled hn)
  apply (hsorted.imp _).isChain
  intro e e' hlt heq
  rw [heq, internalCompare_self] at hlt
  cases hlt

theorem told_eq_some {r : Option (Encoder × Inputs)} {left : Inputs} {b : Bool} {sizes : List (ℕ × ℕ)}
    (hr : r = some (s, left)) (h : told r = some (b, sizes)) :
    s.overflow = b ∧ s.closed.length = sizes.length ∧
      ∀ f ∈ s.closed, (f.topSstIndex, f.topIndexBlockIndex) ∈ sizes := by
  rw [hr] at h
  obtain ⟨hoverflow, hsizes⟩ := Prod.mk.inj (Option.some.inj h)
  dsimp only at hsizes
  rw [← hsizes, List.length_map]
  exact ⟨hoverflow, rfl, fun f hf => List.mem_map_of_mem hf⟩

/-- In files of 4096 bytes every record has its own. -/
theorem files_wellFormed_two : ∃ s left, encoder true 4096 2
      (.start (fun _ => 0) (fun _ => 0) fun _ => 0) (inputsOf (rolled 2)) = some (s, left) ∧
    s.closed.length = 2 ∧ WellFormedFiles 4096 s (rolled 2) := by
  obtain ⟨left, hfeeds⟩ := @OnChipArrays.feeds_of_slices (rolled 2) fits_rolled [maxMark] [0]
    (fun _ => slicesOf (rolled 2)) rfl
  obtain ⟨s, hrun, hiff⟩ := @files_wellFormed_iff 4096 true (rolled 2) _ _ hfeeds maxMark [] 0 []
    rfl rfl fits_rolled ((keptFrom_all _ _).symm ▸ chain_rolled (by decide)) (by decide) (by decide)
    (fun _ => 0) (fun _ => 0) fun _ => 0
  have htold : told (encoder true 4096 2 (.start (fun _ => 0) (fun _ => 0) fun _ => 0)
      (inputsOf (rolled 2))) = some (false, [(1073, 51), (1073, 51)]) := by decide +kernel
  obtain ⟨hoverflow, hlength, hsizes⟩ := told_eq_some hrun htold
  have hindex : ∀ f ∈ s.closed, f.topIndexBlockIndex ≤ indexPart := by
    intro f hf
    rcases List.mem_pair.mp (hsizes f hf) with heq | heq
    · exact (Prod.mk.inj heq).2.trans_le (by decide)
    · exact (Prod.mk.inj heq).2.trans_le (by decide)
  refine ⟨s, _, hrun, hlength, ?_⟩
  rw [keptFrom_all] at hiff
  apply (hiff hoverflow (by rw [hlength]; decide) hindex).mpr
  decide +kernel

/-- In files of 65536 bytes the first 15 blocks fill the first file. The index of the second one has
its first restart twice. -/
theorem files_malformed_rolled : (∀ e ∈ rolled 61, Fits e) ∧
    ((rolled 61).map Entry.key).Pairwise
      (fun a b => SortKeys.internalCompare .bytewise a b = .lt) ∧
    (∃ rest, Feeds (rolled 61) (inputsOf (rolled 61)) rest) ∧
    ∃ s left, encoder true (16 * 4096) 61 (.start (fun _ => 0) (fun _ => 0) fun _ => 0)
        (inputsOf (rolled 61)) = some (s, left) ∧
      s.overflow = false ∧ s.closed.length ≤ MAX_OUTPUT_FILE_NUM ∧
      (∀ f ∈ s.closed, f.topIndexBlockIndex ≤ indexPart) ∧
      ¬ WellFormedFiles (16 * 4096) s (rolled 61) := by
  obtain ⟨left, hfeeds⟩ := @OnChipArrays.feeds_of_slices (rolled 61) fits_rolled [maxMark] [0]
    (fun _ => slicesOf (rolled 61)) rfl
  obtain ⟨t, hloop⟩ := @encoderLoop_of_feeds (16 * 4096) true (rolled 61) _ _ hfeeds
    (.start (fun _ => 0) (fun _ => 0) fun _ => 0)
  have hrun := encoder_eq hloop rfl rfl
  have htold : told (encoder true (16 * 4096) 61 (.start (fun _ => 0) (fun _ => 0) fun _ => 0)
      (inputsOf (rolled 61))) = some (false, [(62760, 608), (1073, 55)]) := by decide +kernel
  obtain ⟨hoverflow, hlength, hsizes⟩ := told_eq_some hrun htold
  have hfiles : (t.finish (16 * 4096)).closed.length ≤ MAX_OUTPUT_FILE_NUM := by
    rw [hlength]
    decide
  have hindex : ∀ f ∈ (t.finish (16 * 4096)).closed, f.topIndexBlockIndex ≤ indexPart := by
    intro f hf
    rcases List.mem_pair.mp (hsizes f hf) with heq | heq
    · exact (Prod.mk.inj heq).2.trans_le (by decide)
    · exact (Prod.mk.inj heq).2.trans_le (by decide)
  have hiff := finish_wellFormed_iff hfeeds hloop fits_rolled
    ((keptFrom_all _ _).symm ▸ chain_rolled (by decide)) (by decide) (by decide) hoverflow hfiles hindex
  rw [keptFrom_all] at hiff
  refine ⟨fits_rolled, sorted_rolled (by decide), ⟨_, hfeeds⟩, _, _, hrun, hoverflow, hfiles, hindex, ?_⟩
  rw [hiff]
  decide +kernel

end ZeroFlush.FileRollovers
