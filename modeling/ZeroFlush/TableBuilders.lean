import ZeroFlush.BlockTables
import ZeroFlush.UserKeys
import Mathlib.Data.List.Induction

/-! # The table builder of the host

Format version 2, blocks of about 4096 bytes, a restart every 16 entries in a data block and at
every entry of the index block. -/
namespace ZeroFlush.TableBuilders
open FixedWidthCodec Varints PrefixCompression BlockTables UserKeys

/-! ## One block -/

structure BlockBuilder where
  buffer : Bytes
  restarts : List ℕ
  estimate : ℕ
  counter : ℕ
  lastKey : Bytes

namespace BlockBuilder

def empty : BlockBuilder := ⟨[], [0], 8, 0, []⟩

def addWithLastKeyImpl (interval : ℕ) (b : BlockBuilder) (e : Entry) (lastKey : Bytes) :
    BlockBuilder :=
  if interval ≤ b.counter then
    { b with
      buffer := b.buffer ++ putEntry 0 e
      restarts := b.restarts ++ [b.buffer.length]
      counter := 1
      estimate := b.estimate + 4 + (putEntry 0 e).length }
  else
    let shared := sharedLength lastKey e.key
    { b with
      buffer := b.buffer ++ putEntry shared e
      counter := b.counter + 1
      estimate := b.estimate + (putEntry shared e).length }

/-- The first entry of a block shares nothing. -/
def addWithLastKey (interval : ℕ) (b : BlockBuilder) (e : Entry) (lastKey : Bytes) :
    BlockBuilder :=
  b.addWithLastKeyImpl interval e (if b.buffer = [] then [] else lastKey)

def add (interval : ℕ) (b : BlockBuilder) (e : Entry) : BlockBuilder :=
  { b.addWithLastKeyImpl interval e b.lastKey with lastKey := e.key }

def finish (b : BlockBuilder) : Bytes := putBlock b.buffer b.restarts

def estimateSizeAfterKV (interval : ℕ) (b : BlockBuilder) (e : Entry) : ℕ :=
  b.estimate + e.key.length + e.value.length + (if interval ≤ b.counter then 4 else 0) + 4 +
    (putVarint e.key.length).length + (putVarint e.value.length).length

end BlockBuilder

variable {interval : ℕ} {b : BlockBuilder} {e : Entry} {es : List Entry} {prev last : Bytes}

namespace BlockBuilder

@[simp] theorem buffer_empty : empty.buffer = [] := rfl

theorem addWithLastKeyImpl_of_restart (h : interval ≤ b.counter) :
    b.addWithLastKeyImpl interval e last =
      { b with
        buffer := b.buffer ++ putEntry 0 e
        restarts := b.restarts ++ [b.buffer.length]
        counter := 1
        estimate := b.estimate + 4 + (putEntry 0 e).length } := if_pos h

theorem addWithLastKeyImpl_of_lt (h : b.counter < interval) :
    b.addWithLastKeyImpl interval e last =
      { b with
        buffer := b.buffer ++ putEntry (sharedLength last e.key) e
        counter := b.counter + 1
        estimate := b.estimate + (putEntry (sharedLength last e.key) e).length } :=
  if_neg (by omega)

/-- An entry is appended behind the entries there are. -/
theorem compressed_addWithLastKeyImpl (h : Compressed prev es b.buffer) (hkey : e.key ≠ [])
    (hlast : b.counter < interval → last = finalKey prev es ∧ ¬ e.key <+: last) :
    Compressed prev (es ++ [e]) (b.addWithLastKeyImpl interval e last).buffer := by
  rcases Nat.lt_or_ge b.counter interval with hlt | hge
  · obtain ⟨rfl, hpre⟩ := hlast hlt
    rw [addWithLastKeyImpl_of_lt hlt]
    exact h.concat (sharedLength_lt hpre) (take_sharedLength _ _)
  · rw [addWithLastKeyImpl_of_restart hge]
    exact h.concat (List.length_pos_of_ne_nil hkey) rfl

/-- The estimate is the size of the finished block. -/
def Estimated (b : BlockBuilder) : Prop :=
  b.estimate = b.buffer.length + 4 * b.restarts.length + 4

theorem estimated_addWithLastKeyImpl (h : b.Estimated) :
    (b.addWithLastKeyImpl interval e last).Estimated := by
  rw [Estimated] at h ⊢
  rcases Nat.lt_or_ge b.counter interval with hlt | hge
  · rw [addWithLastKeyImpl_of_lt hlt]
    simp only [List.length_append]
    omega
  · rw [addWithLastKeyImpl_of_restart hge]
    simp only [List.length_append, List.length_cons, List.length_nil]
    omega

theorem length_restarts_addWithLastKeyImpl (b : BlockBuilder) (interval : ℕ) (e : Entry)
    (last : Bytes) :
    (b.addWithLastKeyImpl interval e last).restarts.length =
      b.restarts.length + if interval ≤ b.counter then 1 else 0 := by
  rw [addWithLastKeyImpl]
  split
  · exact List.length_append
  · rfl

end BlockBuilder

/-! ## The whole table -/

def kBlockSize : ℕ := 4096

def kDataRestartInterval : ℕ := 16

def kIndexRestartInterval : ℕ := 1

/-- Ten percent below the block size, rounded up. -/
def blockSizeDeviationLimit : ℕ := (kBlockSize * (100 - 10) + 99) / 100

def blockAlmostFull (b : BlockBuilder) (e : Entry) : Bool :=
  decide (kBlockSize < b.estimateSizeAfterKV kDataRestartInterval e) &&
    decide (blockSizeDeviationLimit < b.estimate)

/-- `FlushBlockBySizePolicy::Update`. -/
def shouldFlush (b : BlockBuilder) (e : Entry) : Bool :=
  !b.buffer.isEmpty && (decide (kBlockSize ≤ b.estimate) || blockAlmostFull b e)

structure TableComparator extends UserComparator where
  findShortestSeparator : Bytes → Bytes → Bytes

def extractUserKey (ikey : Bytes) : Bytes := ikey.take (ikey.length - 8)

/-- The greatest sequence number and the type that comes first in the order. -/
def seekTrailer : Bytes := putFixed 8 ((2 ^ 56 - 1) * 256 + 0x18)

def findShortestInternalKeySeparator (ucmp : TableComparator) (start limit : Bytes) : Bytes :=
  let userStart := extractUserKey start
  let scratch := ucmp.findShortestSeparator userStart (extractUserKey limit)
  if scratch.length ≤ userStart.length ∧ ucmp.compare userStart scratch = .lt then
    scratch ++ seekTrailer
  else start

def getSeparatorWithSeq (ucmp : TableComparator) (lastKeyInCurrentBlock : Bytes) :
    Option Bytes → Bytes
  | some firstKeyInNextBlock =>
    findShortestInternalKeySeparator ucmp lastKeyInCurrentBlock firstKeyInNextBlock
  | none => lastKeyInCurrentBlock

structure TableBuilder where
  file : Bytes
  dataBlock : BlockBuilder
  indexBlock : BlockBuilder
  lastIkey : Bytes

namespace TableBuilder

def empty : TableBuilder := ⟨[], .empty, .empty, []⟩

/-- The block goes to the file, and its handle into the index under a key between this block and
the next. -/
def flush (ucmp : TableComparator) (firstKeyInNextBlock : Option Bytes) (r : TableBuilder) :
    TableBuilder :=
  if r.dataBlock.buffer = [] then r
  else
    let content := r.dataBlock.finish
    let handle : BlockHandle := ⟨r.file.length, content.length⟩
    { r with
      file := r.file ++ (content ++ trailer)
      dataBlock := .empty
      indexBlock := r.indexBlock.add kIndexRestartInterval
        ⟨getSeparatorWithSeq ucmp r.lastIkey firstKeyInNextBlock, handle.encodeTo⟩ }

def add (ucmp : TableComparator) (r : TableBuilder) (e : Entry) : TableBuilder :=
  let r := if shouldFlush r.dataBlock e then r.flush ucmp (some e.key) else r
  { r with
    dataBlock := r.dataBlock.addWithLastKey kDataRestartInterval e r.lastIkey
    lastIkey := e.key }

/-- `other` is the range deletion and the properties block, as they stand in the file. -/
def finish (ucmp : TableComparator) (other metaindexContent : Bytes) (r : TableBuilder) : Bytes :=
  let r := r.flush ucmp none
  let index : BlockHandle := ⟨r.file.length, r.indexBlock.finish.length⟩
  let file := r.file ++ (r.indexBlock.finish ++ trailer) ++ other
  file ++ (metaindexContent ++ trailer) ++
    putFooter .kNoChecksum ⟨file.length, metaindexContent.length⟩ index

end TableBuilder

/-- The table file of these entries. -/
def buildTable (ucmp : TableComparator) (es : List Entry) (other metaindexContent : Bytes) :
    Bytes :=
  (es.foldl (TableBuilder.add ucmp) .empty).finish ucmp other metaindexContent

variable {ucmp : TableComparator} {r : TableBuilder} {blocks : List DataBlock} {cur : List Entry}
  {start limit : Bytes} {next : Option Bytes}

theorem length_getSeparatorWithSeq (hstart : start.length = 32) (next : Option Bytes) :
    0 < (getSeparatorWithSeq ucmp start next).length ∧
      (getSeparatorWithSeq ucmp start next).length ≤ 32 := by
  cases next with
  | none =>
    rw [getSeparatorWithSeq]
    omega
  | some limit =>
    rw [getSeparatorWithSeq, findShortestInternalKeySeparator]
    split
    · next h =>
      have huser : (extractUserKey start).length = 24 := by
        rw [extractUserKey, List.length_take, hstart]
        rfl
      have htrailer : seekTrailer.length = 8 := length_putFixed 8 _
      rw [List.length_append]
      omega
    · omega

/-- What the entries take at least: the three lengths and the value. -/
def payload (es : List Entry) : ℕ := (es.map fun e => 3 + e.value.length).sum

theorem payload_le_length (h : Compressed prev es bs) : payload es ≤ bs.length := by
  induction h with
  | nil => exact le_rfl
  | @cons _ bs e es shared hlt hshared hrest ih =>
    have h1 := length_putVarint_pos shared
    have h2 := length_putVarint_pos (e.key.length - shared)
    have h3 := length_putVarint_pos e.value.length
    have hsum : payload (e :: es) = 3 + e.value.length + payload es := List.sum_cons
    rw [hsum, putEntry]
    simp only [List.length_append]
    omega

theorem length_le_payload (es : List Entry) : 3 * es.length ≤ payload es := by
  induction es with
  | nil => exact le_rfl
  | cons e es ih =>
    have hsum : payload (e :: es) = 3 + e.value.length + payload es := List.sum_cons
    rw [hsum, List.length_cons]
    omega

/-- The finished blocks and the entries of the open one. A block is as long as it is for its last
entry only. -/
structure Progress (r : TableBuilder) (blocks : List DataBlock) (cur : List Entry) : Prop where
  file : r.file = dataArea blocks
  finished : ∀ b ∈ blocks, b.WellFormed 32
  index : Compressed [] (indexEntries 0 blocks) r.indexBlock.buffer
  indexRestarts : r.indexBlock.restarts.length = max 1 blocks.length
  indexCounter : r.indexBlock.counter = min 1 blocks.length
  indexLast : blocks = [] → r.indexBlock.lastKey = []
  data : Compressed [] cur r.dataBlock.buffer
  dataLast : cur ≠ [] → r.lastIkey = finalKey [] cur
  estimated : r.dataBlock.Estimated
  restarts : r.dataBlock.restarts.length ≤ max 1 cur.length
  counter : r.dataBlock.counter ≤ cur.length
  bounded : payload cur.dropLast < kBlockSize
  boundedBlocks : ∀ b ∈ blocks, payload b.entries.dropLast < kBlockSize

theorem progress_empty : Progress .empty [] [] where
  file := rfl
  finished := by simp
  index := Compressed.nil _
  indexRestarts := rfl
  indexCounter := rfl
  indexLast := fun _ => rfl
  data := Compressed.nil _
  dataLast := fun h => absurd rfl h
  estimated := rfl
  restarts := le_rfl
  counter := le_rfl
  bounded := by decide
  boundedBlocks := by simp

theorem Progress.buffer_eq_nil (h : Progress r blocks cur) : r.dataBlock.buffer = [] ↔ cur = [] := by
  have hlen := h.data.length_le
  constructor
  · intro hnil
    rw [hnil, List.length_nil] at hlen
    exact List.length_eq_zero_iff.mp (by omega)
  · rintro rfl
    exact h.data.eq_nil

/-- What a flush adds to the finished blocks. -/
def closed (ucmp : TableComparator) (r : TableBuilder) (cur : List Entry) (next : Option Bytes) :
    DataBlock :=
  ⟨cur, r.dataBlock.buffer, r.dataBlock.restarts, getSeparatorWithSeq ucmp r.lastIkey next⟩

theorem Progress.flush (h : Progress r blocks cur) (hcur : cur ≠ [])
    (hkeys : ∀ e ∈ cur, e.key.length = 32) (ucmp : TableComparator) (next : Option Bytes) :
    Progress (r.flush ucmp next) (blocks ++ [closed ucmp r cur next]) [] := by
  have hbuffer : r.dataBlock.buffer ≠ [] := mt h.buffer_eq_nil.mp hcur
  have hlast : r.lastIkey.length = 32 := by
    obtain ⟨e, he, hfinal⟩ := exists_finalKey_eq [] hcur
    rw [h.dataLast hcur, hfinal]
    exact hkeys e he
  obtain ⟨hpos, hle⟩ := @length_getSeparatorWithSeq ucmp _ hlast next
  have hlen : 0 < cur.length := List.length_pos_of_ne_nil hcur
  have hbounded := (length_le_payload cur.dropLast).trans_lt h.bounded
  have hsize : kBlockSize = 4096 := rfl
  have hmax : kMaxBlockEntries = 4096 := rfl
  rw [List.length_dropLast] at hbounded
  have hclosed : (closed ucmp r cur next).WellFormed 32 := by
    refine ⟨h.data, hcur, ?_, ?_, hpos, hle⟩
    · have hrestarts := h.restarts
      rwa [Nat.max_eq_right hlen] at hrestarts
    · simp only [closed]
      omega
  have hsep : getSeparatorWithSeq ucmp r.lastIkey next ≠ [] := List.ne_nil_of_length_pos hpos
  have hentries : indexEntries 0 (blocks ++ [closed ucmp r cur next]) = indexEntries 0 blocks ++
      [⟨getSeparatorWithSeq ucmp r.lastIkey next,
        (BlockHandle.mk r.file.length r.dataBlock.finish.length).encodeTo⟩] := by
    rw [indexEntries_append, Nat.zero_add, ← h.file]
    rfl
  have hfirst : r.indexBlock.counter < kIndexRestartInterval → blocks = [] := by
    intro hlt
    rw [h.indexCounter, kIndexRestartInterval] at hlt
    exact List.length_eq_zero_iff.mp (by omega)
  rw [TableBuilder.flush, if_neg hbuffer]
  constructor
  case file =>
    rw [dataArea_append, dataArea_singleton, ← h.file]
    rfl
  case finished =>
    intro b hb
    rcases List.mem_append.mp hb with hb | hb
    · exact h.finished b hb
    · rw [List.mem_singleton.mp hb]
      exact hclosed
  case index =>
    rw [hentries]
    apply BlockBuilder.compressed_addWithLastKeyImpl h.index hsep
    intro hlt
    obtain rfl := hfirst hlt
    rw [h.indexLast rfl]
    exact ⟨rfl, fun hpre => hsep (List.prefix_nil.mp hpre)⟩
  case indexRestarts =>
    have hlength := BlockBuilder.length_restarts_addWithLastKeyImpl r.indexBlock
      kIndexRestartInterval ⟨getSeparatorWithSeq ucmp r.lastIkey next,
        (BlockHandle.mk r.file.length r.dataBlock.finish.length).encodeTo⟩ r.indexBlock.lastKey
    refine hlength.trans ?_
    rw [h.indexRestarts, h.indexCounter, kIndexRestartInterval, List.length_append,
      List.length_singleton]
    split <;> omega
  case indexCounter =>
    rw [List.length_append, List.length_singleton]
    change (BlockBuilder.addWithLastKeyImpl _ _ _ _).counter = _
    rw [BlockBuilder.addWithLastKeyImpl]
    split
    · simp
    · next hlt =>
      obtain rfl := hfirst (Nat.lt_of_not_le hlt)
      simp [h.indexCounter]
  case indexLast => exact fun hnil => absurd hnil (by simp)
  case data => exact Compressed.nil _
  case dataLast => exact fun hnil => absurd rfl hnil
  case estimated => rfl
  case restarts => exact le_rfl
  case counter => exact le_rfl
  case bounded => exact (by decide : 0 < kBlockSize)
  case boundedBlocks =>
    intro b hb
    rcases List.mem_append.mp hb with hb | hb
    · exact h.boundedBlocks b hb
    · rw [List.mem_singleton.mp hb]
      exact h.bounded

/-- A block that is not flushed before the next entry is not full yet. -/
theorem estimate_lt_of_shouldFlush {b : BlockBuilder} (h : shouldFlush b e = false)
    (hb : b.buffer ≠ []) : b.estimate < kBlockSize := by
  have hnonempty : b.buffer.isEmpty = false := by simpa using hb
  rw [shouldFlush, hnonempty, Bool.not_false, Bool.true_and, Bool.or_eq_false_iff,
    decide_eq_false_iff_not] at h
  exact Nat.lt_of_not_le h.1

theorem Progress.append (h : Progress r blocks cur) (he : e.key.length = 32)
    (hdiffer : cur ≠ [] → e.key ≠ finalKey [] cur ∧ (finalKey [] cur).length = 32)
    (hroom : shouldFlush r.dataBlock e = false) :
    Progress
      { r with
        dataBlock := r.dataBlock.addWithLastKey kDataRestartInterval e r.lastIkey
        lastIkey := e.key } blocks (cur ++ [e]) := by
  have hkey : e.key ≠ [] := List.ne_nil_of_length_pos (by omega)
  have hlast : (if r.dataBlock.buffer = [] then [] else r.lastIkey) = finalKey [] cur := by
    split
    · next hnil => rw [h.buffer_eq_nil.mp hnil, finalKey_nil]
    · next hnil => exact h.dataLast (mt h.buffer_eq_nil.mpr hnil)
  have hpre : ¬ e.key <+: finalKey [] cur := by
    intro hpre
    by_cases hnil : cur = []
    · rw [hnil, finalKey_nil, List.prefix_nil] at hpre
      exact hkey hpre
    · obtain ⟨hne, hlen⟩ := hdiffer hnil
      exact hne (hpre.eq_of_length (he.trans hlen.symm))
  have hlength := BlockBuilder.length_restarts_addWithLastKeyImpl r.dataBlock
    kDataRestartInterval e (finalKey [] cur)
  have hrestarts := h.restarts
  have hcounter := h.counter
  constructor
  case file => exact h.file
  case finished => exact h.finished
  case index => exact h.index
  case indexRestarts => exact h.indexRestarts
  case indexCounter => exact h.indexCounter
  case indexLast => exact h.indexLast
  case data =>
    rw [BlockBuilder.addWithLastKey, hlast]
    exact BlockBuilder.compressed_addWithLastKeyImpl h.data hkey fun _ => ⟨rfl, hpre⟩
  case dataLast =>
    rw [finalKey_append_singleton]
    exact fun _ => rfl
  case estimated =>
    rw [BlockBuilder.addWithLastKey]
    exact BlockBuilder.estimated_addWithLastKeyImpl h.estimated
  case restarts =>
    rw [BlockBuilder.addWithLastKey, hlast, hlength, List.length_append, List.length_singleton,
      kDataRestartInterval]
    split <;> omega
  case counter =>
    rw [BlockBuilder.addWithLastKey, BlockBuilder.addWithLastKeyImpl, List.length_append,
      List.length_singleton]
    split
    · exact Nat.le_add_left 1 _
    · exact Nat.succ_le_succ hcounter
  case bounded =>
    rw [List.dropLast_concat]
    by_cases hnil : cur = []
    · rw [hnil]
      decide
    · have hestimate := estimate_lt_of_shouldFlush hroom (mt h.buffer_eq_nil.mp hnil)
      have hpayload := payload_le_length h.data
      rw [h.estimated] at hestimate
      omega
  case boundedBlocks => exact h.boundedBlocks

theorem Progress.add (h : Progress r blocks cur) (ucmp : TableComparator) (he : e.key.length = 32)
    (hkeys : ∀ e' ∈ cur, e'.key.length = 32) (hne : ∀ e' ∈ cur, e.key ≠ e'.key) :
    ∃ blocks' cur', Progress (r.add ucmp e) blocks' cur' ∧
      blocks'.flatMap DataBlock.entries ++ cur' =
        blocks.flatMap DataBlock.entries ++ cur ++ [e] := by
  rw [TableBuilder.add]
  split
  · next hflush =>
    have hcur : cur ≠ [] := by
      rintro rfl
      rw [shouldFlush, h.buffer_eq_nil.mpr rfl] at hflush
      cases hflush
    have hflushed := h.flush hcur hkeys ucmp (some e.key)
    have hempty : shouldFlush (r.flush ucmp (some e.key)).dataBlock e = false := by
      rw [shouldFlush, hflushed.buffer_eq_nil.mpr rfl]
      rfl
    refine ⟨_, _, hflushed.append he (fun hnil => absurd rfl hnil) hempty, ?_⟩
    rw [List.flatMap_append, List.flatMap_singleton, List.nil_append]
    rfl
  · next hroom =>
    refine ⟨_, _, h.append he ?_ (by simpa using hroom), (List.append_assoc _ _ _).symm⟩
    intro hcur
    obtain ⟨e', he', hfinal⟩ := exists_finalKey_eq [] hcur
    rw [hfinal]
    exact ⟨hne e' he', hkeys e' he'⟩

/-- The entries a table is built of. -/
structure Buildable (es : List Entry) : Prop where
  keys : ∀ e ∈ es, e.key.length = 32
  differ : es.Pairwise fun e e' => e'.key ≠ e.key

theorem exists_progress (ucmp : TableComparator) (hes : Buildable es) :
    ∃ blocks cur, Progress (es.foldl (TableBuilder.add ucmp) .empty) blocks cur ∧
      blocks.flatMap DataBlock.entries ++ cur = es := by
  induction es using List.reverseRecOn with
  | nil => exact ⟨[], [], progress_empty, rfl⟩
  | append_singleton es e ih =>
    obtain ⟨hkeys, hdiffer⟩ := hes
    rw [List.pairwise_append] at hdiffer
    obtain ⟨hdiffer, -, hlast⟩ := hdiffer
    obtain ⟨blocks, cur, hprogress, hsplit⟩ :=
      ih ⟨fun e' he' => hkeys e' (List.mem_append_left _ he'), hdiffer⟩
    have hcur : ∀ e' ∈ cur, e' ∈ es := fun e' he' => hsplit ▸ List.mem_append_right _ he'
    obtain ⟨blocks', cur', hprogress', hsplit'⟩ := hprogress.add ucmp (e := e)
      (hkeys e (List.mem_append_right _ (List.mem_singleton_self e)))
      (fun e' he' => hkeys e' (List.mem_append_left _ (hcur e' he')))
      (fun e' he' => hlast e' (hcur e' he') e (List.mem_singleton_self e))
    refine ⟨blocks', cur', ?_, ?_⟩
    · rw [List.foldl_append]
      exact hprogress'
    · rw [hsplit', hsplit]

/-- The file of a builder whose last block is closed. -/
def layoutOf (r : TableBuilder) (blocks : List DataBlock) (other metaindexContent : Bytes) :
    Layout where
  blocks := blocks
  indexBody := r.indexBlock.buffer
  indexRestarts := r.indexBlock.restarts
  middle := other ++ (metaindexContent ++ trailer)
  metaindex :=
    ⟨(r.file ++ (r.indexBlock.finish ++ trailer) ++ other).length, metaindexContent.length⟩
  checksum := .kNoChecksum

theorem Progress.wellFormed (h : Progress r blocks []) (other metaindexContent : Bytes) :
    (layoutOf r blocks other metaindexContent).WellFormed 32 := by
  constructor
  case blocks => exact h.finished
  case index => exact h.index
  case restarts_le => exact h.indexRestarts.le
  case metaindex =>
    simp only [layoutOf, Layout.bytes, Layout.indexContent, BlockBuilder.finish, h.file,
      List.length_append, length_trailer]
    omega
  case checksum => exact .inl rfl

/-- The builder with all entries in finished blocks. -/
def closedBuilder (ucmp : TableComparator) (es : List Entry) : TableBuilder :=
  (es.foldl (TableBuilder.add ucmp) .empty).flush ucmp none

/-- Every table file has the layout, and in it the entries it was built of. -/
theorem exists_layout (ucmp : TableComparator) (hes : Buildable es)
    (other metaindexContent : Bytes) :
    ∃ blocks, buildTable ucmp es other metaindexContent =
        (layoutOf (closedBuilder ucmp es) blocks other metaindexContent).bytes ∧
      (layoutOf (closedBuilder ucmp es) blocks other metaindexContent).WellFormed 32 ∧
      blocks.flatMap DataBlock.entries = es ∧
      (closedBuilder ucmp es).indexBlock.restarts.length = max 1 blocks.length ∧
      ∀ b ∈ blocks, payload b.entries.dropLast < kBlockSize := by
  obtain ⟨blocks, cur, hprogress, hsplit⟩ := exists_progress ucmp hes
  have hclose : ∃ blocks', Progress (closedBuilder ucmp es) blocks' [] ∧
      blocks'.flatMap DataBlock.entries = es := by
    rw [closedBuilder]
    by_cases hcur : cur = []
    · subst hcur
      rw [TableBuilder.flush, if_pos (hprogress.buffer_eq_nil.mpr rfl)]
      exact ⟨blocks, hprogress, by rwa [List.append_nil] at hsplit⟩
    · refine ⟨_, hprogress.flush hcur (fun e he => hes.keys e (hsplit ▸ List.mem_append_right _ he))
        ucmp none, ?_⟩
      rw [List.flatMap_append, List.flatMap_singleton]
      exact hsplit
  obtain ⟨blocks', hclosed, hentries⟩ := hclose
  refine ⟨blocks', ?_, hclosed.wellFormed other metaindexContent, hentries, hclosed.indexRestarts,
    hclosed.boundedBlocks⟩
  rw [buildTable, TableBuilder.finish, ← closedBuilder]
  simp only [layoutOf, Layout.bytes, Layout.indexHandle, Layout.indexContent, BlockBuilder.finish,
    ← hclosed.file, List.append_assoc]

end ZeroFlush.TableBuilders
