import ZeroFlush.SortKeys
import ZeroFlush.Varints
import ZeroFlush.WalFormat

/-! # What goes to the device and what comes back

The A side of a materialization is packed as frames with an index of locators, the B side as a chain
of whole table files. -/
namespace ZeroFlush.CsdSlots
open FixedWidthCodec WalFormat SortKeys Varints

/-- `kind` 0 is an A slot, 1 a B chain. -/
structure ZfCsdSlot where
  kind : ℕ := 0
  kv : ℕ := 0
  fileSize : ℕ := 0
  bytes : Bytes := []

structure ZfCsdOutput where
  fileNum : ℕ
  data : Bytes
  index : Bytes
  pps : ℕ → ℕ

def kCsdMaxPorts : ℕ := 4
def kCsdMaxChainFiles : ℕ := 64
def kCsdMaxValueBytes : ℕ := 1024
def kCsdMaxStagedBytes : ℕ := 2 ^ 26
def kCsdMaxRecords : ℕ := 2 ^ 22

/-- The type in the footer of an internal key. -/
def valueType (ik : Bytes) : UInt8 := UInt8.ofNat (extractInternalKeyFooter ik)

/-- The frame that is built again for a record; the user key has 24 bytes. -/
def slotFrame (part : ℕ) (ik value : Bytes) : Bytes :=
  encodeZfRecord
    { magic := kZfMagic, cfId := part % 2 ^ 16, type := valueType ik, flags := 0, keyLen := 24
      valLen := value.length, seq := UInt64.ofNat (sequence ik) }
    (ik.take 24) value

/-- An entry of the index: the internal key and the locator of its frame. -/
def slimEntry (part gen off : ℕ) (ik : Bytes) : Bytes :=
  putVarint ik.length ++ ik ++ putVarint 16 ++ putFixed 4 part ++ putFixed 4 gen ++ putFixed 8 off

def slimEntries (part gen : ℕ) : ℕ → List (Bytes × Bytes) → Bytes
  | _, [] => []
  | off, r :: rs =>
    slimEntry part gen off r.1 ++ slimEntries part gen (off + zfRecordLength 24 r.2.length) rs

/-- The types that the builder of the engine counts as deletions. -/
def isDeletion (type : UInt8) : Bool :=
  type == kTypeDeletion || type == kTypeSingleDeletion || type == 0x14

/-- `BuildCsdSlotAFromSorted` and the number of deletions. -/
def buildCsdSlotAFromSorted (part gen : ℕ) (keys values : List Bytes) : Option (ZfCsdSlot × ℕ) :=
  if keys.length ≠ values.length ∨ keys = [] ∨ keys.length > kCsdMaxRecords then none
  else if (keys.zip values).any fun r => r.1.length != 32 || decide (r.2.length > kCsdMaxValueBytes) then
    none
  else
    let wal := (keys.zip values).flatMap fun r => slotFrame part r.1 r.2
    if wal.length > kCsdMaxStagedBytes then none
    else
      some ({ kind := 0, kv := keys.length, fileSize := wal.length
              bytes := wal ++ slimEntries part gen 0 (keys.zip values) },
        keys.countP fun ik => isDeletion (valueType ik))

/-- The offsets of the files in a chain. -/
def chainOffsets : ℕ → List Bytes → List ℕ
  | _, [] => []
  | total, f :: files => total :: chainOffsets (total + f.length) files

/-- `BuildCsdSlotB`: no files or too many of them give an empty slot. -/
def buildCsdSlotB (files : List Bytes) : ZfCsdSlot :=
  if files = [] ∨ files.length > kCsdMaxChainFiles then { kind := 1 }
  else
    let hdr := 8 + 16 * files.length
    { kind := 1
      fileSize := hdr + files.flatten.length
      bytes := putFixed 8 files.length ++
        ((chainOffsets hdr files).zip files).flatMap (fun f =>
          putFixed 8 f.1 ++ putFixed 8 f.2.length) ++ files.flatten }

structure ZfSealManifest where
  dataSize : ℕ
  indexSize : ℕ
  numEntries : ℕ
  numDataBlocks : ℕ
  rawKeySize : ℕ
  rawValueSize : ℕ
  keySmallestSeqno : ℕ
  keyLargestSeqno : ℕ
  numDeletions : ℕ := 0

/-- `ZfCsdManifestFromPps`. -/
def zfCsdManifestFromPps (pps : ℕ → ℕ) (dataSize indexSize : ℕ) : Option ZfSealManifest :=
  if pps 0 = 0 ∨ pps 1 = 0 then none
  else if pps 2 ≠ 0 ∧ pps 2 ≠ dataSize then none
  else some
    { dataSize := dataSize, indexSize := indexSize, numEntries := pps 1, numDataBlocks := pps 0
      rawKeySize := pps 3, rawValueSize := pps 4
      keySmallestSeqno := pps 6 / 256, keyLargestSeqno := pps 7 / 256 }

/-- Only records are packed. -/
theorem ne_nil_of_slotA {part gen : ℕ} {keys values : List Bytes} {slot : ZfCsdSlot × ℕ}
    (h : buildCsdSlotAFromSorted part gen keys values = some slot) : keys ≠ [] := by
  rw [buildCsdSlotAFromSorted] at h
  split at h
  · cases h
  next hbad => exact fun hnil => hbad (.inr (.inl hnil))

end ZeroFlush.CsdSlots
