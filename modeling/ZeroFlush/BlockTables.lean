import ZeroFlush.PrefixCompression

/-! # Block-based table files

The data blocks, one index block with an entry for each of them, further blocks, and a footer that
says where the index is. -/
namespace ZeroFlush.BlockTables
open FixedWidthCodec ByteMemory Varints PrefixCompression

def kBlockBasedTableMagicNumber : ℕ := 0x88e241b785f4cff7

inductive ChecksumType
  | kNoChecksum
  | kCRC32c
  | kxxHash
  | kxxHash64
  | kXXH3
deriving DecidableEq, Repr

def ChecksumType.toByte : ChecksumType → UInt8
  | kNoChecksum => 0
  | kCRC32c => 1
  | kxxHash => 2
  | kxxHash64 => 3
  | kXXH3 => 4

structure BlockHandle where
  offset : ℕ
  size : ℕ

def BlockHandle.encodeTo (h : BlockHandle) : Bytes := putVarint h.offset ++ putVarint h.size

/-- The type of an uncompressed block, and no checksum. -/
def trailer : Bytes := 0 :: putFixed 4 0

structure DataBlock where
  entries : List Entry
  body : Bytes
  restarts : List ℕ
  separator : Bytes

/-- No block of 4096 bytes has as many entries. -/
def kMaxBlockEntries : ℕ := 4096

def DataBlock.content (b : DataBlock) : Bytes := putBlock b.body b.restarts

def DataBlock.written (b : DataBlock) : Bytes := b.content ++ trailer

/-- A block that is not empty, has no more restarts than entries, and stands in the index under a
key that is no longer than the keys. -/
structure DataBlock.WellFormed (b : DataBlock) (keyLength : ℕ) : Prop where
  compressed : Compressed [] b.entries b.body
  nonempty : b.entries ≠ []
  restarts_le : b.restarts.length ≤ b.entries.length
  entries_lt : b.entries.length < kMaxBlockEntries
  separator_pos : 0 < b.separator.length
  separator_le : b.separator.length ≤ keyLength

def dataArea (blocks : List DataBlock) : Bytes := blocks.flatMap DataBlock.written

/-- The index entries of blocks that stand from `offset` on. -/
def indexEntries : ℕ → List DataBlock → List Entry
  | _, [] => []
  | offset, b :: blocks =>
    ⟨b.separator, (BlockHandle.mk offset b.content.length).encodeTo⟩ ::
      indexEntries (offset + b.written.length) blocks

/-- The footer of format version 2. -/
def putFooter (checksum : ChecksumType) (metaindex index : BlockHandle) : Bytes :=
  let handles := metaindex.encodeTo ++ index.encodeTo
  checksum.toByte :: (handles ++ List.replicate (40 - handles.length) 0) ++ putFixed 4 2 ++
    putFixed 8 kBlockBasedTableMagicNumber

structure Layout where
  blocks : List DataBlock
  indexBody : Bytes
  indexRestarts : List ℕ
  middle : Bytes
  metaindex : BlockHandle
  checksum : ChecksumType

namespace Layout

def indexContent (t : Layout) : Bytes := putBlock t.indexBody t.indexRestarts

def indexHandle (t : Layout) : BlockHandle := ⟨(dataArea t.blocks).length, t.indexContent.length⟩

def bytes (t : Layout) : Bytes :=
  dataArea t.blocks ++ (t.indexContent ++ trailer) ++ t.middle ++
    putFooter t.checksum t.metaindex t.indexHandle

def entries (t : Layout) : List Entry := t.blocks.flatMap DataBlock.entries

structure WellFormed (t : Layout) (keyLength : ℕ) : Prop where
  blocks : ∀ b ∈ t.blocks, b.WellFormed keyLength
  index : Compressed [] (indexEntries 0 t.blocks) t.indexBody
  restarts_le : t.indexRestarts.length ≤ max 1 t.blocks.length
  metaindex : t.metaindex.offset + t.metaindex.size < t.bytes.length
  checksum : t.checksum = .kNoChecksum ∨ t.checksum = .kCRC32c

end Layout

variable {m : Memory} {a v : ℕ} {body : Bytes} {restarts : List ℕ} {h : BlockHandle}
  {b : DataBlock} {blocks : List DataBlock} {checksum : ChecksumType}
  {metaindex index : BlockHandle}

@[simp] theorem length_trailer : trailer.length = 5 := rfl

theorem length_written (b : DataBlock) : b.written.length = b.content.length + 5 := by
  rw [DataBlock.written, List.length_append, length_trailer]

theorem dataArea_append (blocks blocks' : List DataBlock) :
    dataArea (blocks ++ blocks') = dataArea blocks ++ dataArea blocks' := List.flatMap_append

@[simp] theorem dataArea_singleton (b : DataBlock) : dataArea [b] = b.written :=
  List.flatMap_singleton _ _

@[simp] theorem length_indexEntries (offset : ℕ) (blocks : List DataBlock) :
    (indexEntries offset blocks).length = blocks.length := by
  induction blocks generalizing offset with
  | nil => rfl
  | cons b blocks ih => rw [indexEntries, List.length_cons, ih, List.length_cons]

theorem indexEntries_append (offset : ℕ) (blocks blocks' : List DataBlock) :
    indexEntries offset (blocks ++ blocks') =
      indexEntries offset blocks ++ indexEntries (offset + (dataArea blocks).length) blocks' := by
  induction blocks generalizing offset with
  | nil => rfl
  | cons b blocks ih =>
    rw [List.cons_append, indexEntries, indexEntries, ih, List.cons_append, dataArea, dataArea,
      List.flatMap_cons, List.length_append, Nat.add_assoc]

theorem length_encodeTo_le (h : BlockHandle) : h.encodeTo.length ≤ 20 := by
  have hoffset := length_putVarint_le_ten h.offset
  have hsize := length_putVarint_le_ten h.size
  rw [BlockHandle.encodeTo, List.length_append]
  omega

theorem length_encodeTo_pos (h : BlockHandle) : 0 < h.encodeTo.length := by
  have hoffset := length_putVarint_pos h.offset
  rw [BlockHandle.encodeTo, List.length_append]
  omega

theorem length_putFooter (h : (metaindex.encodeTo ++ index.encodeTo).length ≤ 40) :
    (putFooter checksum metaindex index).length = 53 := by
  simp only [putFooter, List.length_append, List.length_cons, List.length_replicate,
    length_putFixed] at h ⊢
  omega

/-- The footer takes 53 bytes. -/
theorem Layout.length_bytes (t : Layout) :
    t.bytes.length =
      (dataArea t.blocks).length + (t.indexContent.length + 5) + t.middle.length + 53 := by
  have hmetaindex := length_encodeTo_le t.metaindex
  have hhandle := length_encodeTo_le t.indexHandle
  rw [Layout.bytes, List.length_append, length_putFooter (by rw [List.length_append]; omega)]
  simp only [List.length_append, length_trailer]

theorem holds_putFooter (h : Holds m a (putFooter checksum metaindex index))
    (hlen : (metaindex.encodeTo ++ index.encodeTo).length ≤ 40) :
    m a = checksum.toByte ∧ Holds m (a + 1) (metaindex.encodeTo ++ index.encodeTo) ∧
      loadFixed m 4 (a + 41) = 2 ∧ loadFixed m 8 (a + 45) = kBlockBasedTableMagicNumber := by
  rw [putFooter, holds_append, holds_append] at h
  obtain ⟨⟨hhead, hversion⟩, hmagic⟩ := h
  simp only [List.length_append, List.length_cons, List.length_replicate, length_putFixed]
    at hlen hversion hmagic
  rw [show a + (_ + 1) = a + 41 by omega] at hversion
  rw [show a + (_ + 1 + 4) = a + 45 by omega] at hmagic
  rw [holds_cons, holds_append] at hhead
  exact ⟨hhead.1, hhead.2.1, hversion.loadFixed (by decide), hmagic.loadFixed (by decide)⟩

/-- The last word of a block counts its restarts. -/
theorem holds_putBlock (h : Holds m a (putBlock body restarts)) (hr : restarts.length < 2 ^ 32) :
    Holds m a body ∧
      loadFixed m 4 (a + (putBlock body restarts).length - 4) = restarts.length := by
  have hlen := length_putBlock body restarts
  have hcount : (body ++ restarts.flatMap (putFixed 4)).length =
      (putBlock body restarts).length - 4 := by
    have hsplit : (putBlock body restarts).length =
        (body ++ restarts.flatMap (putFixed 4)).length + (putFixed 4 restarts.length).length :=
      List.length_append
    rw [hsplit, length_putFixed, Nat.add_sub_cancel]
  rw [putBlock, holds_append, holds_append] at h
  refine ⟨h.1.1, ?_⟩
  rw [Nat.add_sub_assoc (by omega), ← hcount]
  exact h.2.loadFixed (by omega)

end ZeroFlush.BlockTables
