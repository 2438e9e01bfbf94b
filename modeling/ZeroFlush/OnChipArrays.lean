import ZeroFlush.CsdSlots
import ZeroFlush.EncoderRuns

/-! # The arrays of the writer on the chip

The block that is open, its restarts and the restarts of the index block are kept in arrays of fixed
size. An access is an index into one of them; the accesses of a run are listed in the order of the
code. -/
namespace ZeroFlush.OnChipArrays
open FixedWidthCodec PrefixCompression DeviceStreams DeviceEncoder EncoderRuns CsdSlots
open SstDecoder (Fits)
open EncodedTables (Window)
open SortKeys (internalCompare)

inductive Access
  | bram (word : ℕ)
  | restartPoint (i : ℕ)
  | indexRestartPoint (i : ℕ)

/-- The sizes of `data_block_buffer_bram`, `data_block_restart_point` and
`index_block_restart_point`. -/
def Access.Inside : Access → Prop
  | .bram word => word < 325
  | .restartPoint i => i < 64
  | .indexRestartPoint i => i < 16384

/-! ## The words of one put -/

def ap8Words (index : ℕ) : List ℕ := [index / 16]

def ap32Words (index : ℕ) : List ℕ :=
  if index % 16 ≤ 12 then [index / 16] else [index / 16, index / 16 + 1]

/-- The words of the key behind the first, each in one word of the buffer or in two. -/
def keyWords (left right : ℕ) : ℕ → ℕ → List ℕ
  | 0, _ => []
  | n + 1, outputIndex =>
    (if left = right then [outputIndex] else [outputIndex, outputIndex + 1]) ++
      keyWords left right n (outputIndex + 1)

def putkeyWords (shared index : ℕ) : List ℕ :=
  let left := shared % 16
  let keyIndex := shared / 16
  let right := index % 16
  let outputIndex := index / 16
  if left < right then
    [outputIndex, outputIndex + 1] ++
      keyWords left right (2 - (keyIndex + 1)) (outputIndex + 1)
  else
    outputIndex :: keyWords left right (2 - (keyIndex + 1))
      (if left = right then outputIndex + 1 else outputIndex)

def putvalueWords (length outputIndex : ℕ) : List ℕ :=
  let index := outputIndex / 16
  let copyArrayLength := (length + 15) / 16
  if outputIndex % 16 = 0 then List.range' index copyArrayLength
  else if copyArrayLength = 0 then []
  else List.range' index (copyArrayLength + 1)

/-- What `putKV` takes out of the key. -/
def sharedOf (preKey : Keystring) (km : KeyMeta) : ℕ :=
  if isMaxKey preKey then 0 else genSharedKeyLength preKey km.key

/-- The number of bytes that `putKV` puts. -/
def recordSize (preKey : Keystring) (km : KeyMeta) : ℕ :=
  2 + (valuelengthTo16 km.valueLength).2 + (km.key.length - sharedOf preKey km) + km.valueLength

def putKVWords (preKey : Keystring) (km : KeyMeta) (index : ℕ) : List ℕ :=
  let shared := sharedOf preKey km
  let keyIndex := index + (2 + (valuelengthTo16 km.valueLength).2)
  ap32Words index ++ putkeyWords shared keyIndex ++
    putvalueWords km.valueLength (keyIndex + (km.key.length - shared))

/-! ## The accesses of the run -/

/-- `putRestartPoint_encoder_for_datablock`. -/
def restartAccesses (num index : ℕ) : List Access :=
  (List.range num).flatMap (fun i =>
    .restartPoint i :: (ap32Words (index + 4 * i)).map Access.bram) ++
    (ap32Words (index + 4 * num)).map Access.bram

/-- A block is closed: its restarts, its entry in the index, the trailer, the copy to the output and
the page that goes to the front. -/
def closeBlockAccesses (tail : ℕ) (s : Encoder) : List Access :=
  let num := s.dataRestarts.length
  let bramReadIndex := s.bramReadIndex + (num + 1) * 4
  let datablockSize := s.dataBlockIndex + (num + 1) * 4 + 5 + s.prePageChangeRemain + tail
  restartAccesses num s.bramReadIndex ++
    (if s.indexEntrySize % restart = 0 then [.indexRestartPoint s.indexRestarts.length] else []) ++
    (ap8Words bramReadIndex ++ ap32Words (bramReadIndex + 1) ++ List.range (datablockSize / 16) ++
      [0, (bramReadIndex + 5) / 16]).map Access.bram

/-- The state when the index block is written. -/
def closeFileAccesses (s : Encoder) : List Access :=
  (if s.dataBlockIndex ≠ 0 then closeBlockAccesses 16 s else [.bram 0]) ++
    (List.range (flushed s).indexRestarts.length).map Access.indexRestartPoint ++
    [.indexRestartPoint 0]

def openEntryAccesses (s : Encoder) : List Access :=
  if s.dataBlockIndex = 0 then [.restartPoint 0]
  else if s.entrySize % restart = 0 then [.restartPoint s.dataRestarts.length]
  else []

/-- The accesses of `encodeRecord` for a record that is written. -/
def recordAccesses (fileLimit : ℕ) (last : Bool) (km : KeyMeta) (value : Bytes) (s : Encoder) :
    List Access :=
  let put := Encoder.putRecord km value { s with lastUserKey := km.key }
  let closed := putAndClose km value s
  openEntryAccesses s ++
    (putKVWords (s.openEntry km).preKey km s.bramReadIndex).map Access.bram ++
    (if 4096 ≤ put.dataBlockIndex then closeBlockAccesses 0 put else []) ++
    if fileLimit < closed.sstIndex + 5200 ∧ closed.outputFileNum < MAX_OUTPUT_FILE_NUM ∨ last then
      closeFileAccesses closed
    else []

/-- The state before a record that is written; `last` says that it is the last of the run. -/
structure WriteStep where
  state : Encoder
  km : KeyMeta
  value : Bytes
  last : Bool

def encoderSteps (keepAllVersions : Bool) (fileLimit : ℕ) : ℕ → Encoder → Inputs → List WriteStep
  | 0, _, _ => []
  | n + 1, s, inputs =>
    match inputs.km, inputs.mergeResult with
    | km :: kms, port :: ports =>
      match inputs.value port with
      | first :: second :: slices =>
        let rest := encoderSteps keepAllVersions fileLimit n
          (s.encodeRecord keepAllVersions fileLimit (n == 0) km (first ++ second))
          ⟨kms, ports, fun p => if p = port then slices else inputs.value p⟩
        if !keepAllVersions && sameUserKey s.lastUserKey km.key then rest
        else ⟨s, km, first ++ second, n == 0⟩ :: rest
      | _ => []
    | _, _ => []

def WriteStep.accesses (fileLimit : ℕ) (step : WriteStep) : List Access :=
  recordAccesses fileLimit step.last step.km step.value step.state

/-- Every access of a run: those of the records, and of the file that is closed at the end. -/
def encoderAccesses (keepAllVersions : Bool) (fileLimit kvSum : ℕ) (start : Encoder)
    (inputs : Inputs) : List Access :=
  (encoderSteps keepAllVersions fileLimit kvSum start inputs).flatMap
    (WriteStep.accesses fileLimit) ++
  match encoderLoop keepAllVersions fileLimit kvSum start inputs with
  | some (s, _) => if s.pps.entries ≠ 0 then closeFileAccesses s else []
  | none => []

/-- If the record fills the block, the open word, the block with the record, four bytes for each of
its restarts and nine more stay below the size of the buffer. -/
def RoomFor (s : Encoder) (km : KeyMeta) : Prop :=
  let size := recordSize (s.openEntry km).preKey km
  4096 ≤ s.dataBlockIndex + size →
    s.bramReadIndex + size + 4 * ((s.openEntry km).dataRestarts.length + 1) + 5 < 5200

instance (s : Encoder) (km : KeyMeta) : Decidable (RoomFor s km) :=
  inferInstanceAs (Decidable (_ → _))

/-! ## Bounds for one put -/

variable {w index shared length : ℕ} {km : KeyMeta} {preKey : Keystring}

theorem le_of_mem_ap32Words (h : w ∈ ap32Words index) : w ≤ (index + 3) / 16 := by
  rw [ap32Words] at h
  split at h
  · rw [List.mem_singleton] at h
    omega
  · rcases List.mem_cons.mp h with h | h
    · omega
    · rw [List.mem_singleton] at h
      omega

theorem le_of_mem_keyWords {left right n outputIndex : ℕ}
    (h : w ∈ keyWords left right n outputIndex) : w ≤ outputIndex + n := by
  induction n generalizing outputIndex with
  | zero => cases h
  | succ n ih =>
    rw [keyWords] at h
    rcases List.mem_append.mp h with h | h
    · split at h
      · rw [List.mem_singleton] at h
        omega
      · rcases List.mem_cons.mp h with h | h
        · omega
        · rw [List.mem_singleton] at h
          omega
    · have hle := ih h
      omega

theorem le_of_mem_putkeyWords (h : w ∈ putkeyWords shared index) : w ≤ index / 16 + 2 := by
  rw [putkeyWords] at h
  split at h
  · rcases List.mem_append.mp h with h | h
    · rcases List.mem_cons.mp h with h | h
      · omega
      · rw [List.mem_singleton] at h
        omega
    · have hle := le_of_mem_keyWords h
      omega
  · rcases List.mem_cons.mp h with h | h
    · omega
    · have hle := le_of_mem_keyWords h
      split at hle <;> omega

theorem le_of_mem_putvalueWords (h : w ∈ putvalueWords length index) :
    w ≤ index / 16 + (length + 15) / 16 := by
  rw [putvalueWords] at h
  split at h
  · rw [List.mem_range'_1] at h
    omega
  · split at h
    · cases h
    · rw [List.mem_range'_1] at h
      omega

theorem valuelengthTo16_le (length : ℕ) :
    1 ≤ (valuelengthTo16 length).2 ∧ (valuelengthTo16 length).2 ≤ 2 := by
  rw [valuelengthTo16]
  split
  · exact ⟨one_le_two, le_rfl⟩
  · exact ⟨le_rfl, one_le_two⟩

theorem recordSize_bounds (hkey : km.key.length = 32) (preKey : Keystring) :
    3 + km.valueLength ≤ recordSize preKey km ∧ recordSize preKey km ≤ 36 + km.valueLength := by
  have hlen := valuelengthTo16_le km.valueLength
  rw [recordSize]
  omega

/-- Behind a restart nothing is shared. -/
theorem recordSize_maxKey (hkey : km.key.length = 32) :
    35 + km.valueLength ≤ recordSize maxKey km := by
  have hlen := valuelengthTo16_le km.valueLength
  have hshared : sharedOf maxKey km = 0 := if_pos (by decide)
  rw [recordSize, hshared]
  omega

/-- A record alone does not leave the buffer, whatever its value. -/
theorem putKVWords_inside (hkey : km.key.length = 32) (hvalue : km.valueLength ≤ 1024)
    (hindex : index ≤ 4110) (h : w ∈ putKVWords preKey km index) : w < 325 := by
  have hlen := valuelengthTo16_le km.valueLength
  rw [putKVWords] at h
  rcases List.mem_append.mp h with h | h
  · rcases List.mem_append.mp h with h | h
    · have hle := le_of_mem_ap32Words h
      omega
    · have hle := le_of_mem_putkeyWords h
      omega
  · have hle := le_of_mem_putvalueWords h
    omega

/-! ## Closing a block and a file -/

variable {s : Encoder} {bytes : ℕ} {a : Access}

theorem restartAccesses_inside {num : ℕ} (hnum : num ≤ 64) (hend : index + 4 * num + 4 ≤ 5200)
    (h : a ∈ restartAccesses num index) : a.Inside := by
  rw [restartAccesses] at h
  rcases List.mem_append.mp h with h | h
  · obtain ⟨i, hi, h⟩ := List.mem_flatMap.mp h
    rw [List.mem_range] at hi
    rcases List.mem_cons.mp h with rfl | h
    · exact hi.trans_le hnum
    · obtain ⟨w, hw, rfl⟩ := List.mem_map.mp h
      have hle := le_of_mem_ap32Words hw
      change w < 325
      omega
  · obtain ⟨w, hw, rfl⟩ := List.mem_map.mp h
    have hle := le_of_mem_ap32Words hw
    change w < 325
    omega

/-- The page behind the trailer is the last that is touched. -/
theorem closeBlock_inside_iff {tail : ℕ} (htail : tail ≤ 16)
    (hread : s.bramReadIndex = s.prePageChangeRemain + s.dataBlockIndex)
    (hnum : s.dataRestarts.length ≤ 64) (hindex : s.indexRestarts.length < 16384) :
    (∀ a ∈ closeBlockAccesses tail s, a.Inside) ↔
      s.bramReadIndex + 4 * (s.dataRestarts.length + 1) + 5 < 5200 := by
  constructor
  · intro h
    have hpage : Access.Inside (.bram ((s.bramReadIndex + (s.dataRestarts.length + 1) * 4 + 5) / 16)) :=
      h _ (by simp [closeBlockAccesses])
    change _ / 16 < 325 at hpage
    omega
  · intro hroom a ha
    rw [closeBlockAccesses] at ha
    rcases List.mem_append.mp ha with ha | ha
    · rcases List.mem_append.mp ha with ha | ha
      · exact restartAccesses_inside hnum (by omega) ha
      · split at ha
        · rw [List.mem_singleton] at ha
          rw [ha]
          exact hindex
        · cases ha
    · obtain ⟨w, hw, rfl⟩ := List.mem_map.mp ha
      change w < 325
      simp only [List.mem_append, ap8Words, List.mem_range, List.mem_cons,
        List.not_mem_nil, or_false] at hw
      rcases hw with ((hw | hw) | hw) | hw | hw
      · omega
      · have hle := le_of_mem_ap32Words hw
        omega
      · omega
      · omega
      · omega

theorem indexRestarts_closeBlock (tail : ℕ) (s : Encoder) :
    (s.closeBlock tail).indexRestarts.length ≤ s.indexRestarts.length + 1 := by
  have heq : (s.closeBlock tail).indexRestarts =
      if s.indexEntrySize % restart = 0 then
        s.indexRestarts ++ [s.indexBlockIndex - s.indexBlockOffset] else s.indexRestarts := rfl
  rw [heq]
  split
  · rw [List.length_append, List.length_singleton]
  · exact Nat.le_succ _

theorem indexRestarts_flushed (s : Encoder) :
    (flushed s).indexRestarts.length ≤ s.indexRestarts.length + 1 := by
  rw [flushed]
  split
  · exact indexRestarts_closeBlock 16 s
  · exact Nat.le_succ _

/-! ## What is open -/

/-- `bytes` is a bound for the entries of the records so far. Between two restarts are 15 entries of
at least three bytes, and an entry at a restart has its whole key. -/
structure Filling (s : Encoder) (bytes : ℕ) : Prop where
  lane : s.prePageChangeRemain < 16
  readIndex : s.bramReadIndex = s.prePageChangeRemain + s.dataBlockIndex
  restarts : s.dataBlockIndex ≠ 0 →
    80 * s.dataRestarts.length + 3 * ((s.entrySize + 15) % 16) ≤ s.dataBlockIndex + 45
  indexEntrySize : s.indexEntrySize ≤ 16
  blocks : ∃ n, Spaced s.indexEntrySize s.indexRestarts.length (n + 31) ∧
    4096 * n + s.dataBlockIndex ≤ bytes

/-- The bytes of the records of an admitted run stay below this. -/
def maxBytes : ℕ := 2 ^ 29

theorem filling_start (bram sst index : ByteMemory.Memory) : Filling (.start bram sst index) 0 where
  lane := Nat.succ_pos 15
  readIndex := rfl
  restarts := fun h => absurd rfl h
  indexEntrySize := Nat.zero_le 16
  blocks := ⟨0, ⟨Nat.zero_le _, fun _ => Nat.zero_le _⟩, le_rfl⟩

theorem Filling.mono (h : Filling s bytes) {bytes' : ℕ} (hle : bytes ≤ bytes') : Filling s bytes' := by
  obtain ⟨n, hspaced, hbytes⟩ := h.blocks
  exact ⟨h.lane, h.readIndex, h.restarts, h.indexEntrySize, n, hspaced, hbytes.trans hle⟩

theorem Filling.length_indexRestarts (h : Filling s bytes) (hbytes : bytes ≤ maxBytes) :
    s.indexRestarts.length + 1 < 16384 := by
  have hmax : maxBytes = 536870912 := rfl
  obtain ⟨n, hspaced, hle⟩ := h.blocks
  have hspace := hspaced.le
  omega

theorem Filling.length_dataRestarts (h : Filling s bytes) (hne : s.dataBlockIndex ≠ 0) :
    80 * s.dataRestarts.length ≤ s.dataBlockIndex + 45 :=
  (Nat.le_add_right _ _).trans (h.restarts hne)

/-- A block that is closed before it is full always has room. -/
theorem Filling.closeFile_inside (h : Filling s bytes) (hbytes : bytes ≤ maxBytes)
    (hroom : s.dataBlockIndex < 4096) (ha : a ∈ closeFileAccesses s) : a.Inside := by
  have hindex := h.length_indexRestarts hbytes
  have hflushed := indexRestarts_flushed s
  have hlane := h.lane
  have hread := h.readIndex
  rw [closeFileAccesses] at ha
  rcases List.mem_append.mp ha with ha | ha
  · rcases List.mem_append.mp ha with ha | ha
    · split at ha
      · next hne =>
        have hrestarts := h.length_dataRestarts hne
        exact (closeBlock_inside_iff le_rfl hread (by omega) (by omega)).mpr (by omega) a ha
      · rw [List.mem_singleton] at ha
        rw [ha]
        exact (by decide : 0 < 325)
    · obtain ⟨i, hi, rfl⟩ := List.mem_map.mp ha
      rw [List.mem_range] at hi
      change i < 16384
      omega
  · rw [List.mem_singleton] at ha
    rw [ha]
    exact (by decide : 0 < 16384)

/-! ## What a record adds -/

theorem putRecord_sizes (s : Encoder) (km : KeyMeta) (value : Bytes) :
    let size := recordSize (s.openEntry km).preKey km
    (s.putRecord km value).dataBlockIndex = s.dataBlockIndex + size ∧
      (s.putRecord km value).bramReadIndex = s.bramReadIndex + size ∧
      (s.putRecord km value).dataRestarts = (s.openEntry km).dataRestarts ∧
      (s.putRecord km value).entrySize = (s.openEntry km).entrySize ∧
      (s.putRecord km value).prePageChangeRemain = s.prePageChangeRemain ∧
      (s.putRecord km value).indexEntrySize = s.indexEntrySize ∧
      (s.putRecord km value).indexRestarts = s.indexRestarts := by
  obtain ⟨smallest, restarts, size, preKey, heq⟩ := openEntry_eq s km
  rw [Encoder.putRecord, heq]
  exact ⟨rfl, rfl, rfl, rfl, rfl, rfl, rfl⟩

/-- A restart comes with a whole key. -/
theorem restarts_putRecord (h : Filling s bytes) (hkey : km.key.length = 32) :
    80 * (s.openEntry km).dataRestarts.length + 3 * (((s.openEntry km).entrySize + 15) % 16) ≤
      s.dataBlockIndex + recordSize (s.openEntry km).preKey km + 45 := by
  have hsize := (recordSize_bounds hkey s.preKey).1
  have hwhole := recordSize_maxKey hkey
  rw [Encoder.openEntry]
  split
  · dsimp only [List.length_singleton]
    omega
  · next hne =>
    have hrestarts := h.restarts hne
    split
    · next hfull =>
      have hrestart : s.entrySize % 16 = 0 := hfull
      dsimp only
      rw [List.length_append, List.length_singleton]
      omega
    · next hmore =>
      have hrestart : ¬ s.entrySize % 16 = 0 := hmore
      dsimp only
      omega

theorem Filling.withLastUserKey (h : Filling s bytes) (key : Keystring) :
    Filling { s with lastUserKey := key } bytes :=
  ⟨h.lane, h.readIndex, h.restarts, h.indexEntrySize, h.blocks⟩

theorem Filling.putRecord (h : Filling s bytes) (hkey : km.key.length = 32) (value : Bytes) :
    Filling (s.putRecord km value) (bytes + (36 + km.valueLength)) := by
  obtain ⟨hblock, hread, hrestarts, hentry, hlane, hindexEntry, hindexRestarts⟩ :=
    putRecord_sizes s km value
  have hsize := recordSize_bounds hkey (s.openEntry km).preKey
  obtain ⟨n, hspaced, hbytes⟩ := h.blocks
  constructor
  case lane => exact hlane ▸ h.lane
  case readIndex =>
    rw [hread, hlane, hblock, h.readIndex, Nat.add_assoc]
  case restarts =>
    intro _
    rw [hrestarts, hentry, hblock]
    exact restarts_putRecord h hkey
  case indexEntrySize => exact hindexEntry ▸ h.indexEntrySize
  case blocks =>
    refine ⟨n, ?_, ?_⟩
    · rwa [hindexEntry, hindexRestarts]
    · rw [hblock]
      omega

theorem spaced_closeBlock {n : ℕ}
    (h : Spaced s.indexEntrySize s.indexRestarts.length n) (tail : ℕ) :
    Spaced (s.closeBlock tail).indexEntrySize (s.closeBlock tail).indexRestarts.length (n + 1) := by
  have hnext := h.next
  have hentry : (s.closeBlock tail).indexEntrySize =
      (if s.indexEntrySize % restart = 0 then 1 else s.indexEntrySize) + 1 := rfl
  have hrestarts : (s.closeBlock tail).indexRestarts =
      if s.indexEntrySize % restart = 0 then
        s.indexRestarts ++ [s.indexBlockIndex - s.indexBlockOffset] else s.indexRestarts := rfl
  rw [hentry, hrestarts, apply_ite List.length, List.length_append, List.length_singleton]
  exact hnext

theorem indexEntrySize_closeBlock (h : s.indexEntrySize ≤ 16) (tail : ℕ) :
    (s.closeBlock tail).indexEntrySize ≤ 16 := by
  have heq : (s.closeBlock tail).indexEntrySize =
      (if s.indexEntrySize % 16 = 0 then 1 else s.indexEntrySize) + 1 := rfl
  rw [heq]
  split <;> omega

theorem Filling.closeFullBlock (h : Filling s bytes) (hfull : 4096 ≤ s.dataBlockIndex) :
    Filling s.closeFullBlock bytes := by
  obtain ⟨n, hspaced, hbytes⟩ := h.blocks
  constructor
  case lane => exact Nat.mod_lt _ (by decide)
  case readIndex => rfl
  case restarts => exact fun hne => absurd rfl hne
  case indexEntrySize => exact indexEntrySize_closeBlock h.indexEntrySize 0
  case blocks =>
    refine ⟨n + 1, ?_, ?_⟩
    · exact spaced_closeBlock hspaced 0
    · have hzero : s.closeFullBlock.dataBlockIndex = 0 := rfl
      omega

theorem dataBlockIndex_flushed (s : Encoder) : (flushed s).dataBlockIndex = 0 := by
  rw [flushed]
  split
  · rfl
  · next hzero => exact not_not.mp hzero

/-- With the next file the entries of the index are counted from the start. -/
theorem Filling.closeFile (h : Filling s bytes) (fileLimit : ℕ) :
    Filling (s.closeFile fileLimit) bytes := by
  have hblock := dataBlockIndex_flushed s
  have hentry : (flushed s).indexEntrySize ≤ 16 := by
    rw [flushed]
    split
    · exact indexEntrySize_closeBlock h.indexEntrySize 16
    · exact h.indexEntrySize
  rw [Encoder.closeFile, ← flushed]
  constructor
  case lane => exact Nat.succ_pos 15
  case readIndex => exact hblock.symm.trans (Nat.zero_add _).symm
  case restarts => exact fun hne => absurd hblock hne
  case indexEntrySize => exact hentry
  case blocks =>
    refine ⟨0, ⟨?_, fun _ => Nat.le_add_left 15 16⟩, ?_⟩
    · change 15 * 1 + (flushed s).indexEntrySize ≤ 0 + 31 + 16
      omega
    · change 4096 * 0 + (flushed s).dataBlockIndex ≤ bytes
      omega

/-! ## One record -/

variable {e : Entry} {value : Bytes}

theorem openEntry_withLastUserKey (s : Encoder) (key : Keystring) (km : KeyMeta) :
    Encoder.openEntry km { s with lastUserKey := key } =
      { s.openEntry km with lastUserKey := key } := by
  rw [Encoder.openEntry, Encoder.openEntry]
  split
  · rfl
  · split <;> rfl

theorem Filling.putAndClose (h : Filling s bytes)
    (hkey : km.key.length = 32) (value : Bytes) :
    Filling (putAndClose km value s) (bytes + (36 + km.valueLength)) ∧
      (putAndClose km value s).dataBlockIndex < 4096 := by
  have hput := (h.withLastUserKey km.key).putRecord hkey value
  rw [EncoderRuns.putAndClose]
  split
  · next hfull => exact ⟨hput.closeFullBlock hfull, Nat.succ_pos 4095⟩
  · next hmore => exact ⟨hput, Nat.lt_of_not_le hmore⟩

theorem openEntryAccesses_inside (h : Filling s bytes) (hroom : s.dataBlockIndex < 4096)
    (ha : a ∈ openEntryAccesses s) : a.Inside := by
  rw [openEntryAccesses] at ha
  split at ha
  · rw [List.mem_singleton] at ha
    rw [ha]
    exact (by decide : 0 < 64)
  · next hne =>
    have hrestarts := h.length_dataRestarts hne
    split at ha
    · rw [List.mem_singleton] at ha
      rw [ha]
      change s.dataRestarts.length < 64
      omega
    · cases ha

theorem length_restarts_openEntry (h : Filling s bytes) (hroom : s.dataBlockIndex < 4096)
    (km : KeyMeta) : (s.openEntry km).dataRestarts.length ≤ 64 := by
  rw [Encoder.openEntry]
  split
  · exact Nat.le_add_left 1 63
  · next hne =>
    have hrestarts := h.length_dataRestarts hne
    split
    · dsimp only
      rw [List.length_append, List.length_singleton]
      omega
    · dsimp only
      omega

/-- Of all accesses of a record only those that close a full block can leave their array. -/
theorem recordAccesses_inside_iff (h : Filling s bytes) (hroom : s.dataBlockIndex < 4096)
    (he : Fits e) (hbytes : bytes + (36 + e.value.length) ≤ maxBytes) (fileLimit : ℕ) (last : Bool)
    (value : Bytes) :
    (∀ a ∈ recordAccesses fileLimit last (keyMeta e) value s, a.Inside) ↔ RoomFor s (keyMeta e) := by
  have hkey : (keyMeta e).key.length = 32 := rfl
  have hvalue : (keyMeta e).valueLength ≤ 1024 := he.2
  have hlane := h.lane
  have hread := h.readIndex
  have hput := (h.withLastUserKey (keyMeta e).key).putRecord hkey value
  obtain ⟨hclosed, hclosedroom⟩ := h.putAndClose hkey value
  obtain ⟨hblock, hreadput, hrestarts, -, -, -, -⟩ :=
    putRecord_sizes { s with lastUserKey := (keyMeta e).key } (keyMeta e) value
  rw [openEntry_withLastUserKey] at hblock hreadput hrestarts
  dsimp only at hblock hreadput hrestarts
  have hsize := recordSize_bounds hkey (s.openEntry (keyMeta e)).preKey
  have hindex := hput.length_indexRestarts hbytes
  have hblocks : (∀ a ∈ (if 4096 ≤ (Encoder.putRecord (keyMeta e) value
        { s with lastUserKey := (keyMeta e).key }).dataBlockIndex then
          closeBlockAccesses 0 (Encoder.putRecord (keyMeta e) value
            { s with lastUserKey := (keyMeta e).key }) else []), a.Inside) ↔
      RoomFor s (keyMeta e) := by
    rw [RoomFor, ← hblock, ← hreadput, ← hrestarts]
    split
    · next hfull =>
      have hnum := length_restarts_openEntry h hroom (keyMeta e)
      rw [← hrestarts] at hnum
      rw [closeBlock_inside_iff (Nat.zero_le 16) hput.readIndex hnum (by omega)]
      exact ⟨fun hlt _ => hlt, fun hlt => hlt hfull⟩
    · next hmore => exact ⟨fun _ hfull => absurd hfull hmore, fun _ a ha => absurd ha List.not_mem_nil⟩
  rw [← hblocks, recordAccesses]
  constructor
  · intro hall a ha
    exact hall a (List.mem_append_left _ (List.mem_append_right _ ha))
  · intro hall a ha
    rcases List.mem_append.mp ha with ha | ha
    · rcases List.mem_append.mp ha with ha | ha
      · rcases List.mem_append.mp ha with ha | ha
        · exact openEntryAccesses_inside h hroom ha
        · obtain ⟨w, hw, rfl⟩ := List.mem_map.mp ha
          exact putKVWords_inside hkey hvalue (by omega) hw
      · exact hall a ha
    · split at ha
      · exact hclosed.closeFile_inside hbytes hclosedroom ha
      · cases ha

/-! ## The run -/

theorem Filling.encodeRecord (h : Filling s bytes) (hroom : s.dataBlockIndex < 4096)
    (hkey : km.key.length = 32) (keepAllVersions : Bool) (fileLimit : ℕ) (last : Bool)
    (value : Bytes) :
    Filling (s.encodeRecord keepAllVersions fileLimit last km value)
        (bytes + (36 + km.valueLength)) ∧
      (s.encodeRecord keepAllVersions fileLimit last km value).dataBlockIndex < 4096 := by
  cases hkept : !keepAllVersions && sameUserKey s.lastUserKey km.key with
  | true =>
    rw [Encoder.encodeRecord, hkept, if_pos rfl]
    exact ⟨h.mono (Nat.le_add_right _ _), hroom⟩
  | false =>
    obtain ⟨hput, hputroom⟩ := h.putAndClose hkey value
    obtain heq | heq := @encodeRecord_of_kept s keepAllVersions fileLimit last km value hkept
    · rw [heq]
      exact ⟨hput, hputroom⟩
    · rw [heq]
      refine ⟨hput.closeFile fileLimit, ?_⟩
      have hzero : (Encoder.closeFile fileLimit (EncoderRuns.putAndClose km value s)).dataBlockIndex = 0 :=
        dataBlockIndex_flushed _
      omega

variable {keepAllVersions : Bool} {fileLimit : ℕ} {es : List Entry} {inputs rest : Inputs}

/-- In the loop all accesses are inside when and only when every record finds room. -/
theorem encoderSteps_inside_iff (hfeeds : Feeds es inputs rest) (h : Filling s bytes)
    (hroom : s.dataBlockIndex < 4096) (hfits : ∀ e ∈ es, Fits e)
    (hbytes : bytes + recordsSize es ≤ maxBytes) :
    ((∀ step ∈ encoderSteps keepAllVersions fileLimit es.length s inputs,
        ∀ a ∈ step.accesses fileLimit, a.Inside) ↔
      ∀ step ∈ encoderSteps keepAllVersions fileLimit es.length s inputs,
        RoomFor step.state step.km) ∧
    ∃ s', encoderLoop keepAllVersions fileLimit es.length s inputs = some (s', rest) ∧
      Filling s' maxBytes ∧ s'.dataBlockIndex < 4096 := by
  induction hfeeds generalizing s bytes with
  | nil inputs =>
    refine ⟨⟨fun _ step hstep => absurd hstep List.not_mem_nil,
      fun _ step hstep => absurd hstep List.not_mem_nil⟩, s, rfl, h.mono ?_, hroom⟩
    exact (Nat.le_add_right _ _).trans hbytes
  | @cons e es inputs rest kms port ports first second slices hkm hport hvalue hw hrest ih =>
    have hsum : recordsSize (e :: es) = 52 + e.value.length + recordsSize es := List.sum_cons
    have he := hfits e List.mem_cons_self
    have hlen : (keyMeta e).valueLength = e.value.length := rfl
    obtain ⟨hnext, hnextroom⟩ := @Filling.encodeRecord (keyMeta e) s bytes h hroom rfl
      keepAllVersions fileLimit (es.length == 0) (first ++ second)
    obtain ⟨hiff, s', hloop, hleft, hleftroom⟩ := ih hnext hnextroom
      (fun e' he' => hfits e' (List.mem_cons_of_mem _ he')) (by omega)
    have hone := recordAccesses_inside_iff h hroom he (by omega) fileLimit (es.length == 0)
      (first ++ second)
    rw [List.length_cons, encoderSteps, encoderLoop, hkm, hport]
    dsimp only
    rw [hvalue]
    dsimp only
    refine ⟨?_, s', hloop, hleft, hleftroom⟩
    split
    · exact hiff
    · rw [List.forall_mem_cons, List.forall_mem_cons, hiff]
      exact and_congr hone Iff.rfl

theorem recordsSize_eq (es : List Entry) :
    recordsSize es = 52 * es.length + (es.map fun e => e.value.length).sum := by
  induction es with
  | nil => rfl
  | cons e es ih =>
    have hsum : recordsSize (e :: es) = 52 + e.value.length + recordsSize es := List.sum_cons
    rw [hsum, ih, List.length_cons, List.map_cons, List.sum_cons]
    omega

theorem recordsSize_le_maxBytes (hmax : es.length ≤ kCsdMaxRecords)
    (hstaged : (es.map fun e => e.value.length).sum ≤ kCsdMaxStagedBytes) :
    recordsSize es ≤ maxBytes := by
  have hrecords : kCsdMaxRecords = 4194304 := rfl
  have hbytes : kCsdMaxStagedBytes = 67108864 := rfl
  have hbound : maxBytes = 536870912 := rfl
  have hsize := recordsSize_eq es
  omega

/-- The file that is closed at the end stays inside, so that only the loop decides. -/
theorem encoderAccesses_inside_iff (hfeeds : Feeds es inputs rest) (hfits : ∀ e ∈ es, Fits e)
    (hmax : es.length ≤ kCsdMaxRecords)
    (hstaged : (es.map fun e => e.value.length).sum ≤ kCsdMaxStagedBytes)
    (bram sst index : ByteMemory.Memory) :
    (∀ a ∈ encoderAccesses keepAllVersions fileLimit es.length (.start bram sst index) inputs,
        a.Inside) ↔
      ∀ step ∈ encoderSteps keepAllVersions fileLimit es.length (.start bram sst index) inputs,
        ∀ a ∈ step.accesses fileLimit, a.Inside := by
  have hbytes := recordsSize_le_maxBytes hmax hstaged
  obtain ⟨-, s, hloop, hleft, hroom⟩ := @encoderSteps_inside_iff _ 0 keepAllVersions fileLimit es
    inputs rest hfeeds (filling_start bram sst index) (Nat.succ_pos 4095) hfits (by omega)
  rw [encoderAccesses, hloop]
  dsimp only
  constructor
  · intro hall step hstep a ha
    exact hall a (List.mem_append_left _ (List.mem_flatMap.mpr ⟨step, hstep, ha⟩))
  · intro hall a ha
    rcases List.mem_append.mp ha with ha | ha
    · obtain ⟨step, hstep, ha⟩ := List.mem_flatMap.mp ha
      exact hall step hstep a ha
    · split at ha
      · exact hleft.closeFile_inside le_rfl hroom ha
      · cases ha

/-- No access of an admitted run is outside its array when and only when every record that is
written finds room. -/
theorem accesses_inside_iff (hfeeds : Feeds es inputs rest) (hfits : ∀ e ∈ es, Fits e)
    (hmax : es.length ≤ kCsdMaxRecords)
    (hstaged : (es.map fun e => e.value.length).sum ≤ kCsdMaxStagedBytes)
    (bram sst index : ByteMemory.Memory) :
    (∀ a ∈ encoderAccesses keepAllVersions fileLimit es.length (.start bram sst index) inputs,
        a.Inside) ↔
      ∀ step ∈ encoderSteps keepAllVersions fileLimit es.length (.start bram sst index) inputs,
        RoomFor step.state step.km := by
  have hbytes := recordsSize_le_maxBytes hmax hstaged
  have hsteps := @encoderSteps_inside_iff _ 0 keepAllVersions fileLimit es inputs rest
    hfeeds (filling_start bram sst index) (Nat.succ_pos 4095) hfits (by omega)
  exact (encoderAccesses_inside_iff hfeeds hfits hmax hstaged bram sst index).trans hsteps.1

/-- A value of up to 836 bytes finds room behind any mix of records. -/
theorem Filling.roomFor (h : Filling s bytes) (hroom : s.dataBlockIndex < 4096)
    (hkey : km.key.length = 32) (hvalue : km.valueLength ≤ 836) : RoomFor s km := by
  have hlane := h.lane
  have hread := h.readIndex
  have hsize := recordSize_bounds hkey (s.openEntry km).preKey
  have hnum : (s.openEntry km).dataRestarts.length ≤ 52 := by
    rw [Encoder.openEntry]
    split
    · exact Nat.le_add_left 1 51
    · next hne =>
      have hrestarts := h.restarts hne
      split
      · dsimp only
        rw [List.length_append, List.length_singleton]
        omega
      · dsimp only
        omega
  intro _
  omega

theorem filling_of_mem_encoderSteps (hfeeds : Feeds es inputs rest) (h : Filling s bytes)
    (hroom : s.dataBlockIndex < 4096) {step : WriteStep}
    (hstep : step ∈ encoderSteps keepAllVersions fileLimit es.length s inputs) :
    (∃ bytes, Filling step.state bytes) ∧ step.state.dataBlockIndex < 4096 ∧
      ∃ e ∈ es, step.km = keyMeta e := by
  induction hfeeds generalizing s bytes with
  | nil inputs => cases hstep
  | @cons e es inputs rest kms port ports first second slices hkm hport hvalue hw hrest ih =>
    obtain ⟨hnext, hnextroom⟩ := @Filling.encodeRecord (keyMeta e) s bytes h hroom rfl
      keepAllVersions fileLimit (es.length == 0) (first ++ second)
    have hmore : step ∈ encoderSteps keepAllVersions fileLimit es.length
        (s.encodeRecord keepAllVersions fileLimit (es.length == 0) (keyMeta e) (first ++ second))
        ⟨kms, ports, fun p => if p = port then slices else inputs.value p⟩ →
        (∃ bytes, Filling step.state bytes) ∧ step.state.dataBlockIndex < 4096 ∧
          ∃ e' ∈ e :: es, step.km = keyMeta e' := by
      intro hmem
      obtain ⟨hfilling, hblock, e', he', heq⟩ := ih hnext hnextroom hmem
      exact ⟨hfilling, hblock, e', List.mem_cons_of_mem _ he', heq⟩
    rw [List.length_cons, encoderSteps, hkm, hport] at hstep
    dsimp only at hstep
    rw [hvalue] at hstep
    dsimp only at hstep
    split at hstep
    · exact hmore hstep
    · rcases List.mem_cons.mp hstep with rfl | hmem
      · exact ⟨⟨bytes, h⟩, hroom, e, List.mem_cons_self, rfl⟩
      · exact hmore hmem

theorem accesses_inside_of_values (hfeeds : Feeds es inputs rest) (hfits : ∀ e ∈ es, Fits e)
    (hvalues : ∀ e ∈ es, e.value.length ≤ 836) (hmax : es.length ≤ kCsdMaxRecords)
    (hstaged : (es.map fun e => e.value.length).sum ≤ kCsdMaxStagedBytes)
    (bram sst index : ByteMemory.Memory) :
    ∀ a ∈ encoderAccesses keepAllVersions fileLimit es.length (.start bram sst index) inputs,
      a.Inside := by
  have hbytes := recordsSize_le_maxBytes hmax hstaged
  apply (encoderAccesses_inside_iff hfeeds hfits hmax hstaged bram sst index).mpr
  apply (encoderSteps_inside_iff hfeeds (filling_start bram sst index) (Nat.succ_pos 4095) hfits
    (by omega)).1.mpr
  intro step hstep
  obtain ⟨⟨bytes, hfilling⟩, hroom, e, he, hkm⟩ := filling_of_mem_encoderSteps hfeeds
    (filling_start bram sst index) (Nat.succ_pos 4095) hstep
  apply hfilling.roomFor hroom
  · rw [hkm]
    rfl
  · rw [hkm]
    exact hvalues e he

/-! ## A block that does not fit -/

/-- The value at the front of the two slices. -/
def windowOf (e : Entry) : Bytes := e.value ++ List.replicate (VALUE_LENGTH - e.value.length) 0

def slicesOf (es : List Entry) : List Slice :=
  es.flatMap fun e => [(windowOf e).take 512, (windowOf e).drop 512]

/-- All records come from the first port. -/
def inputsOf (es : List Entry) : Inputs :=
  ⟨es.map keyMeta ++ [maxMark], List.replicate es.length 0 ++ [0], fun _ => slicesOf es⟩

theorem feeds_of_slices (hfits : ∀ e ∈ es, Fits e) (kms : List KeyMeta) (ports : List ℕ)
    {slices : ℕ → List Slice} (hslices : slices 0 = slicesOf es) :
    ∃ left, Feeds es ⟨es.map keyMeta ++ kms, List.replicate es.length 0 ++ ports, slices⟩
      ⟨kms, ports, left⟩ := by
  induction es generalizing slices with
  | nil => exact ⟨slices, .nil _⟩
  | cons e es ih =>
    have hvalue : e.value.length ≤ VALUE_LENGTH := (hfits e List.mem_cons_self).2
    have hwindow : Window e ((windowOf e).take 512 ++ (windowOf e).drop 512) := by
      rw [List.take_append_drop]
      refine ⟨?_, List.take_left⟩
      rw [windowOf, List.length_append, List.length_replicate, Nat.add_sub_cancel' hvalue]
    obtain ⟨left, hleft⟩ := @ih (fun e' he' => hfits e' (List.mem_cons_of_mem _ he'))
      (fun p => if p = 0 then slicesOf es else slices p) (if_pos rfl)
    exact ⟨left, .cons rfl rfl hslices hwindow hleft⟩

/-- A record whose user key ends with this byte, with a value of `n` bytes. -/
def recordOf (i n : ℕ) : Entry :=
  ⟨List.replicate 23 97 ++ [UInt8.ofNat i] ++ [1, 1, 0, 0, 0, 0, 0, 0], List.replicate n 7⟩

/-- Many small records up to one byte before the end of the block, and one of full size. -/
def overfull : List Entry :=
  recordOf 0 37 :: (List.range' 1 159).map (fun i => recordOf i 12) ++ [recordOf 160 1024]

theorem accesses_inside_two : ∃ rest, Feeds [recordOf 0 12, recordOf 1 1024]
      (inputsOf [recordOf 0 12, recordOf 1 1024]) rest ∧
    ∀ a ∈ encoderAccesses false (2 ^ 20) 2 (.start (fun _ => 0) (fun _ => 0) fun _ => 0)
      (inputsOf [recordOf 0 12, recordOf 1 1024]), a.Inside := by
  have hfits : ∀ e ∈ [recordOf 0 12, recordOf 1 1024], Fits e := by
    intro e he
    rcases List.mem_pair.mp he with rfl | rfl
    · exact ⟨by decide, by decide⟩
    · exact ⟨by decide, by decide +kernel⟩
  obtain ⟨left, hfeeds⟩ := @feeds_of_slices [recordOf 0 12, recordOf 1 1024] hfits [maxMark] [0]
    (fun _ => slicesOf [recordOf 0 12, recordOf 1 1024]) rfl
  refine ⟨_, hfeeds, ?_⟩
  apply (accesses_inside_iff hfeeds hfits (by decide) (by decide +kernel) _ _ _).mpr
  decide +kernel

/-- The user keys differ in their last byte only. -/
theorem internalCompare_recordOf {i j : ℕ} (hlt : i < j) (hj : j < 256) (n n' : ℕ) :
    internalCompare .bytewise (recordOf i n).key (recordOf j n').key = .lt := by
  apply SortKeys.internalCompare_of_user_lt
  have hbyte : compare (UInt8.ofNat i) (UInt8.ofNat j) = .lt := by
    apply if_pos
    rw [UInt8.lt_iff_toNat_lt, UInt8.toNat_ofNat', UInt8.toNat_ofNat']
    omega
  change LexBytes.lex (List.replicate 23 97 ++ [UInt8.ofNat i])
    (List.replicate 23 97 ++ [UInt8.ofNat j]) = .lt
  rw [LexBytes.lex_append_left, LexBytes.lex_cons_cons, hbyte]
  rfl

theorem overfull_spec :
    overfull.map Entry.key = (List.range 161).map (fun i => (recordOf i 0).key) ∧
      (∀ e ∈ overfull, e.key.length = KEY_LENGTH ∧ e.value.length ≤ VALUE_LENGTH) ∧
      overfull.length ≤ kCsdMaxRecords ∧
      (overfull.map fun e => e.value.length).sum ≤ kCsdMaxStagedBytes := by
  decide +kernel

theorem sorted_overfull :
    (overfull.map Entry.key).Pairwise (fun a b => internalCompare .bytewise a b = .lt) := by
  rw [overfull_spec.1, List.pairwise_map]
  apply List.pairwise_lt_range.imp_of_mem
  intro i j _ hj hlt
  rw [List.mem_range] at hj
  exact internalCompare_recordOf hlt (by omega) 0 0

theorem fits_overfull : ∀ e ∈ overfull, Fits e := overfull_spec.2.1

/-- In the block of 4095 bytes, eleven restarts and a record of 1060 bytes end behind the buffer. -/
theorem access_outside_overfull : (∀ e ∈ overfull, Fits e) ∧
    (overfull.map Entry.key).Pairwise (fun a b => internalCompare .bytewise a b = .lt) ∧
    overfull.length ≤ kCsdMaxRecords ∧
    (overfull.map fun e => e.value.length).sum ≤ kCsdMaxStagedBytes ∧
    (∃ rest, Feeds overfull (inputsOf overfull) rest) ∧
    ¬ ∀ a ∈ encoderAccesses true (2 ^ 20) overfull.length
      (.start (fun _ => 0) (fun _ => 0) fun _ => 0) (inputsOf overfull), a.Inside := by
  obtain ⟨left, hfeeds⟩ := @feeds_of_slices overfull fits_overfull [maxMark] [0]
    (fun _ => slicesOf overfull) rfl
  obtain ⟨-, -, hmax, hstaged⟩ := overfull_spec
  have hstep : ∃ step ∈ encoderSteps true (2 ^ 20) overfull.length
      (.start (fun _ => 0) (fun _ => 0) fun _ => 0) (inputsOf overfull),
      ¬ RoomFor step.state step.km := by decide +kernel
  refine ⟨fits_overfull, sorted_overfull, hmax, hstaged, ⟨_, hfeeds⟩, ?_⟩
  intro hall
  obtain ⟨step, hmem, hno⟩ := hstep
  have hsteps := @encoderSteps_inside_iff _ 0 true (2 ^ 20) overfull _ _ hfeeds
    (filling_start (fun _ => 0) (fun _ => 0) fun _ => 0) (Nat.succ_pos 4095) fits_overfull
    ((Nat.zero_add _).trans_le (recordsSize_le_maxBytes hmax hstaged))
  apply hno
  apply hsteps.1.mp _ step hmem
  exact (encoderAccesses_inside_iff hfeeds fits_overfull hmax hstaged _ _ _).mp hall

end ZeroFlush.OnChipArrays
