import Mathlib.Order.Bounds.Basic
import ZeroFlush.CsdSlots
import ZeroFlush.Materialization
import ZeroFlush.SortFreeAside

/-! # The bounds of the files a device builds

The engine keeps with every file the least and the greatest sequence number of its entries. The host
updates them entry by entry. A file of the device keeps the bounds its descriptor starts with. -/
namespace ZeroFlush.DeviceFiles
open FixedWidthCodec UserKeys WalFormat PartitionTables PartitionPlans SortKeys CsdSlots
open SortFreeAside (kMaxSequenceNumber)

structure FileDescriptor where
  number : ℕ
  fileSize : ℕ
  smallestSeqno : ℕ
  largestSeqno : ℕ
  deriving DecidableEq

/-- `FileDescriptor(number, path_id, file_size)`: the bounds of a file without entries. -/
def FileDescriptor.ofSize (number fileSize : ℕ) : FileDescriptor :=
  ⟨number, fileSize, kMaxSequenceNumber, 0⟩

/-- `FileMetaData`; `smallest` and `largest` are internal keys. -/
structure TableFile where
  fd : FileDescriptor
  smallest : Bytes := []
  largest : Bytes := []
  tailSize : ℕ := 0
  epochNumber : ℕ := 0
  deriving DecidableEq

structure DeviceOutput where
  file : TableFile
  partId : ℕ := 0
  decision : MaterializeDecision := .kDirect
  deriving DecidableEq

/-- `UpdateBoundaries`, for an entry without a blob. -/
def TableFile.updateBoundaries (f : TableFile) (ik : Bytes) : TableFile :=
  { f with
    smallest := if f.smallest = [] then ik else f.smallest
    largest := ik
    fd := { f.fd with
      smallestSeqno := min f.fd.smallestSeqno (sequence ik)
      largestSeqno := max f.fd.largestSeqno (sequence ik) } }

/-- The bounds of the entries that the host puts into a file. -/
def hostFile (number : ℕ) (entries : List Bytes) : TableFile :=
  entries.foldl TableFile.updateBoundaries { fd := .ofSize number 0 }

/-- The bounds are the least and the greatest sequence number of the entries. -/
def TrueBounds (entries : List Bytes) (fd : FileDescriptor) : Prop :=
  IsLeast {s | ∃ ik ∈ entries, sequence ik = s} fd.smallestSeqno ∧
    IsGreatest {s | ∃ ik ∈ entries, sequence ik = s} fd.largestSeqno

/-- `max_b_seq`: the greatest sequence number on the B side. -/
def maxBSeq (files : List TableFile) : ℕ :=
  files.foldl (fun s f => max s f.fd.largestSeqno) 0

/-- The device, the files and the snapshots that a job finds. `writeTable` stands for the data and the
index with the tail that `ZfSeal` puts behind them, `iterate` for a scan with the engine's reader. -/
structure CsdWorld where
  snapshotSeqs : List ℕ
  earliestSnapshot : ℕ
  available : Bool
  runAb : List ZfCsdSlot → (kvSum sstBytes idxBytes mode : ℕ) → Except Status ZfCsdOutput
  newFileNumber : ℕ
  newEpochNumber : ℕ
  writeTable : (number : ℕ) → (data index : Bytes) → ZfSealManifest → Except Status Unit
  getFileSize : ℕ → Except Status ℕ
  readFile : ℕ → Except Status Bytes
  iterate : ℕ → Except Status (List (Bytes × Bytes))

namespace CsdWorld

variable (w : CsdWorld)

/-- The output becomes a table file; its manifest and its size. -/
def sealTable (out : ZfCsdOutput) (deletions : ℕ) : Option (ZfSealManifest × ℕ) := do
  let m ← zfCsdManifestFromPps out.pps out.data.length out.index.length
  let m := { m with numDeletions := deletions }
  let _ ← (w.writeTable w.newFileNumber out.data out.index m).toOption
  let fileSize ← (w.getFileSize w.newFileNumber).toOption
  if fileSize = 0 then none else some (m, fileSize)

/-- `TryCsdDirectMaterialize`; `none` if it returns false. -/
def tryCsdDirectMaterialize (partId gen : ℕ) (keys values : List Bytes) : Option DeviceOutput := do
  let (slot, deletions) ← buildCsdSlotAFromSorted partId gen keys values
  if w.available then
    let sstBytes := 8 * slot.fileSize + 64 * 1024
    let idxBytes := sstBytes / 4 + 1024 * 1024
    let out ← (w.runAb [slot, {}, {}, {}] keys.length sstBytes idxBytes 1).toOption
    if out.fileNum ≠ 1 ∨ out.pps 1 ≠ keys.length ∨ out.data = [] ∨ out.index = [] then none
    else
      let (m, fileSize) ← w.sealTable out deletions
      some { file :=
        { fd := .ofSize w.newFileNumber fileSize
          smallest := keys.headD [], largest := keys.getLastD []
          tailSize := fileSize - m.dataSize, epochNumber := w.newEpochNumber } }
  else none

/-- What has been scanned of the B side. -/
structure BSide where
  count : ℕ := 0
  bytes : ℕ := 0
  files : List Bytes := []

def kMaxMergeInputBytes : ℕ := 32 * 2 ^ 20

/-- The types a device can merge. -/
def isPlain (type : UInt8) : Bool := type == kTypeValue || type == kTypeDeletion

/-- `scan_file`. -/
def scanFile (stagedBytes : ℕ) (b : BSide) (f : TableFile) : Option BSide := do
  if stagedBytes + b.bytes + f.fd.fileSize > kMaxMergeInputBytes then none
  else
    let bytes ← (w.readFile f.fd.number).toOption
    if bytes.length ≠ f.fd.fileSize then none
    else
      let entries ← (w.iterate f.fd.number).toOption
      if entries.all fun r =>
          r.1.length == 32 && isPlain (valueType r.1) && decide (r.2.length ≤ kCsdMaxValueBytes) then
        some ⟨b.count + entries.length, b.bytes + f.fd.fileSize, b.files ++ [bytes]⟩
      else none

end CsdWorld

/-- What a merge job knows of its partition. -/
structure MergeJob where
  ucmp : UserComparator
  table : Option PartitionTable
  hasAdoptedOrphans : Bool
  partId : ℕ
  minSeq : ℕ
  lo : Bytes
  hi : Bytes
  overlapAll : List TableFile
  l0Overlap : List TableFile

/-- Outside of the partition of a range table, by the first and the last internal key. -/
def MergeJob.outOfRange (job : MergeJob) (first last : Bytes) : Bool :=
  job.table.any (fun t => !t.isHashMode) &&
    (decide (job.lo ≠ [] ∧ job.ucmp.compare (extractUserKey first) job.lo = .lt) ||
      decide (job.hi ≠ [] ∧ job.ucmp.compare (extractUserKey last) job.hi ≠ .lt))

namespace CsdWorld

variable (w : CsdWorld)

/-- `TryCsdMergeMaterialize`; `none` if it returns false. -/
def tryCsdMergeMaterialize (job : MergeJob) (keys values : List Bytes) : Option DeviceOutput := do
  if w.snapshotSeqs ≠ [] ∨ w.earliestSnapshot ≠ kMaxSequenceNumber then none
  else if job.outOfRange (keys.headD []) (keys.getLastD []) then none
  else if job.hasAdoptedOrphans ∧ job.minSeq ≤ maxBSeq (job.overlapAll ++ job.l0Overlap) then none
  else if !w.available then none
  else
    let (slotA, _) ← buildCsdSlotAFromSorted job.partId 0 keys values
    if !keys.all fun ik => isPlain (valueType ik) then none
    else if job.l0Overlap.length > kCsdMaxPorts - 2 ∨ job.overlapAll.length > kCsdMaxChainFiles then
      none
    else
      let chain ← job.overlapAll.foldlM (w.scanFile slotA.fileSize) {}
      let b ← job.l0Overlap.foldlM (w.scanFile slotA.fileSize) chain
      if keys.length + b.count > kCsdMaxRecords then none
      else
        let l0Chains := b.files.drop chain.files.length
        let slots := slotA :: ((if chain.files = [] then [] else [buildCsdSlotB chain.files]) ++
          l0Chains.map fun f => buildCsdSlotB [f])
        let sstBytes := 4 * (slotA.fileSize + b.bytes) + 256 * 1024
        let idxBytes := 2 * (slotA.fileSize + b.bytes) + 1024 * 1024
        let out ← (w.runAb (slots.rightpad kCsdMaxPorts {}) (keys.length + b.count) sstBytes idxBytes
          2).toOption
        if out.fileNum ≠ 1 ∨ out.data = [] ∨ out.index = [] then none
        else
          let (m, fileSize) ← w.sealTable out 0
          let entries ← (w.iterate w.newFileNumber).toOption
          let first := (entries.head?.map Prod.fst).getD []
          let last := (entries.getLast?.map Prod.fst).getD []
          if entries = [] ∨ entries.length ≠ out.pps 1 then none
          else if job.outOfRange first last then none
          else
            some
              { file :=
                  { fd := .ofSize w.newFileNumber fileSize, smallest := first, largest := last
                    tailSize := fileSize - m.dataSize, epochNumber := w.newEpochNumber }
                partId := job.partId, decision := .kMergeBase }

end CsdWorld

section bounds

theorem sequence_le (ik : Bytes) : SortKeys.sequence ik ≤ kMaxSequenceNumber := by
  have hlt := decodeFixed_lt (footerBytes ik)
  have hlen : (footerBytes ik).length ≤ 8 := by
    rw [footerBytes, List.length_drop, kNumInternalBytes]
    omega
  have hpow : 256 ^ (footerBytes ik).length ≤ 256 ^ 8 := Nat.pow_le_pow_right (by decide) hlen
  rw [SortKeys.sequence, extractInternalKeyFooter, kMaxSequenceNumber]
  omega

/-- After some entries the bounds are those from before or belong to an entry. -/
theorem foldl_updateBoundaries (entries : List Bytes) (f : TableFile) :
    let g := entries.foldl TableFile.updateBoundaries f
    (g.fd.smallestSeqno ≤ f.fd.smallestSeqno ∧ f.fd.largestSeqno ≤ g.fd.largestSeqno) ∧
      (∀ ik ∈ entries, g.fd.smallestSeqno ≤ sequence ik ∧ sequence ik ≤ g.fd.largestSeqno) ∧
      (g.fd.smallestSeqno = f.fd.smallestSeqno ∨ ∃ ik ∈ entries, sequence ik = g.fd.smallestSeqno) ∧
      (g.fd.largestSeqno = f.fd.largestSeqno ∨ ∃ ik ∈ entries, sequence ik = g.fd.largestSeqno) := by
  induction entries generalizing f with
  | nil =>
    exact ⟨⟨Nat.le_refl _, Nat.le_refl _⟩, fun ik hik => absurd hik List.not_mem_nil, .inl rfl, .inl rfl⟩
  | cons e entries ih =>
    obtain ⟨⟨hsmall, hlarge⟩, hall, hleast, hgreatest⟩ := ih (f.updateBoundaries e)
    have hmin : (f.updateBoundaries e).fd.smallestSeqno = min f.fd.smallestSeqno (sequence e) := rfl
    have hmax : (f.updateBoundaries e).fd.largestSeqno = max f.fd.largestSeqno (sequence e) := rfl
    rw [List.foldl_cons]
    rw [hmin] at hsmall hleast
    rw [hmax] at hlarge hgreatest
    refine ⟨⟨?_, ?_⟩, ?_, ?_, ?_⟩
    · exact hsmall.trans (Nat.min_le_left _ _)
    · exact (Nat.le_max_left _ _).trans hlarge
    · intro ik hik
      obtain rfl | hik := List.mem_cons.mp hik
      · exact ⟨hsmall.trans (Nat.min_le_right _ _), (Nat.le_max_right _ _).trans hlarge⟩
      · exact hall ik hik
    · obtain heq | ⟨ik, hik, hseq⟩ := hleast
      · obtain hcase | hcase := Nat.le_total f.fd.smallestSeqno (sequence e)
        · exact .inl (heq.trans (Nat.min_eq_left hcase))
        · exact .inr ⟨e, List.mem_cons_self, (heq.trans (Nat.min_eq_right hcase)).symm⟩
      · exact .inr ⟨ik, List.mem_cons_of_mem _ hik, hseq⟩
    · obtain heq | ⟨ik, hik, hseq⟩ := hgreatest
      · obtain hcase | hcase := Nat.le_total f.fd.largestSeqno (sequence e)
        · exact .inr ⟨e, List.mem_cons_self, (heq.trans (Nat.max_eq_right hcase)).symm⟩
        · exact .inl (heq.trans (Nat.max_eq_left hcase))
      · exact .inr ⟨ik, List.mem_cons_of_mem _ hik, hseq⟩

/-- The host computes the bounds of the entries. -/
theorem trueBounds_hostFile (number : ℕ) {entries : List Bytes} (h : entries ≠ []) :
    TrueBounds entries (hostFile number entries).fd := by
  obtain ⟨-, hall, hleast, hgreatest⟩ :=
    foldl_updateBoundaries entries { fd := .ofSize number 0 }
  obtain ⟨e, he⟩ := List.exists_mem_of_ne_nil entries h
  have hbounds := hall e he
  have hmax := sequence_le e
  constructor
  · refine ⟨?_, fun s ⟨ik, hik, hs⟩ => hs ▸ (hall ik hik).1⟩
    obtain heq | hmem := hleast
    -- the bound of no entries is the bound of an entry if it is still there
    · exact ⟨e, he, Nat.le_antisymm (hmax.trans (Nat.le_of_eq heq.symm)) hbounds.1⟩
    · exact hmem
  · refine ⟨?_, fun s ⟨ik, hik, hs⟩ => hs ▸ (hall ik hik).2⟩
    obtain heq | hmem := hgreatest
    · exact ⟨e, he, Nat.le_antisymm hbounds.2 ((Nat.le_of_eq heq).trans (Nat.zero_le _))⟩
    · exact hmem

/-- The bounds of a file without entries are the bounds of no file. -/
theorem not_trueBounds_ofSize (entries : List Bytes) (number fileSize : ℕ) :
    ¬ TrueBounds entries (.ofSize number fileSize) := by
  rintro ⟨⟨⟨ik, hik, hseq⟩, -⟩, -, hgreatest⟩
  have hle : sequence ik ≤ 0 := hgreatest ⟨ik, hik, rfl⟩
  rw [hseq] at hle
  exact absurd hle (Nat.not_le.mpr (Nat.sub_pos_of_lt (by decide)))

/-- Files of the device do not count on the B side of a later merge. -/
theorem maxBSeq_device {files : List TableFile}
    (h : ∀ f ∈ files, ∃ number fileSize, f.fd = .ofSize number fileSize) : maxBSeq files = 0 := by
  rw [maxBSeq]
  induction files with
  | nil => rfl
  | cons f files ih =>
    obtain ⟨number, fileSize, hfd⟩ := h f List.mem_cons_self
    rw [List.foldl_cons, hfd]
    exact ih fun g hg => h g (List.mem_cons_of_mem _ hg)

end bounds

section device
variable {w : CsdWorld} {keys values : List Bytes} {o : DeviceOutput}

theorem fd_direct {partId gen : ℕ}
    (h : w.tryCsdDirectMaterialize partId gen keys values = some o) :
    ∃ fileSize, o.file.fd = .ofSize w.newFileNumber fileSize := by
  rw [CsdWorld.tryCsdDirectMaterialize] at h
  obtain ⟨⟨slot, deletions⟩, -, h⟩ := Option.bind_eq_some_iff.mp h
  obtain ⟨-, h⟩ := Option.ite_none_right_eq_some.mp h
  obtain ⟨out, -, h⟩ := Option.bind_eq_some_iff.mp h
  obtain ⟨-, h⟩ := Option.ite_none_left_eq_some.mp h
  obtain ⟨⟨m, fileSize⟩, -, h⟩ := Option.bind_eq_some_iff.mp h
  cases h
  exact ⟨fileSize, rfl⟩

theorem fd_merge {job : MergeJob} (h : w.tryCsdMergeMaterialize job keys values = some o) :
    ∃ fileSize, o.file.fd = .ofSize w.newFileNumber fileSize := by
  rw [CsdWorld.tryCsdMergeMaterialize] at h
  -- what cannot go to the device
  obtain ⟨-, h⟩ := Option.ite_none_left_eq_some.mp h
  obtain ⟨-, h⟩ := Option.ite_none_left_eq_some.mp h
  obtain ⟨-, h⟩ := Option.ite_none_left_eq_some.mp h
  obtain ⟨-, h⟩ := Option.ite_none_left_eq_some.mp h
  -- the slots
  obtain ⟨⟨slotA, deletions⟩, -, h⟩ := Option.bind_eq_some_iff.mp h
  obtain ⟨-, h⟩ := Option.ite_none_left_eq_some.mp h
  obtain ⟨-, h⟩ := Option.ite_none_left_eq_some.mp h
  obtain ⟨chain, -, h⟩ := Option.bind_eq_some_iff.mp h
  obtain ⟨b, -, h⟩ := Option.bind_eq_some_iff.mp h
  obtain ⟨-, h⟩ := Option.ite_none_left_eq_some.mp h
  -- the answer
  obtain ⟨out, -, h⟩ := Option.bind_eq_some_iff.mp h
  obtain ⟨-, h⟩ := Option.ite_none_left_eq_some.mp h
  obtain ⟨⟨m, fileSize⟩, -, h⟩ := Option.bind_eq_some_iff.mp h
  obtain ⟨entries, -, h⟩ := Option.bind_eq_some_iff.mp h
  obtain ⟨-, h⟩ := Option.ite_none_left_eq_some.mp h
  obtain ⟨-, h⟩ := Option.ite_none_left_eq_some.mp h
  cases h
  exact ⟨fileSize, rfl⟩

/-- No file of the device carries the bounds of its entries, whatever they are. -/
theorem not_trueBounds_device (w : CsdWorld) (keys values : List Bytes) (o : DeviceOutput)
    (h : (∃ partId gen, w.tryCsdDirectMaterialize partId gen keys values = some o) ∨
      ∃ job, w.tryCsdMergeMaterialize job keys values = some o) (entries : List Bytes) :
    ¬ TrueBounds entries o.file.fd := by
  have hfd : ∃ fileSize, o.file.fd = .ofSize w.newFileNumber fileSize := by
    obtain ⟨partId, gen, h⟩ | ⟨job, h⟩ := h
    · exact fd_direct h
    · exact fd_merge h
  obtain ⟨fileSize, hfd⟩ := hfd
  rw [hfd]
  exact not_trueBounds_ofSize entries _ _

/-- A key of 24 bytes, written with sequence number 5. -/
def fifth : Bytes := makeInternalKey (List.replicate 24 97) 5 1

/-- A device that returns one block with one record, as file 9 of 100 bytes. -/
def oneBlock : CsdWorld where
  snapshotSeqs := []
  earliestSnapshot := kMaxSequenceNumber
  available := true
  runAb _ _ _ _ _ := .ok ⟨1, [0], [0], fun i => if i < 2 then 1 else 0⟩
  newFileNumber := 9
  newEpochNumber := 1
  writeTable _ _ _ _ := .ok ()
  getFileSize _ := .ok 100
  readFile _ := .error .notFound
  iterate _ := .ok [(fifth, [1])]

theorem not_trueBounds_device_fifth : ∃ o,
    oneBlock.tryCsdDirectMaterialize 0 0 [fifth] [[1]] = some o ∧ ¬ TrueBounds [fifth] o.file.fd :=
  ⟨_, rfl, not_trueBounds_device oneBlock [fifth] [[1]] _ (.inl ⟨0, 0, rfl⟩) [fifth]⟩

theorem bounds_of_fifth : ∃ o,
    oneBlock.tryCsdDirectMaterialize 0 0 [fifth] [[1]] = some o ∧
      o.file.fd = ⟨9, 100, 2 ^ 56 - 1, 0⟩ ∧ (hostFile 9 [fifth]).fd = ⟨9, 0, 5, 5⟩ ∧
      ¬ TrueBounds [fifth] o.file.fd :=
  ⟨_, rfl, rfl, by decide +kernel, not_trueBounds_ofSize _ _ _⟩

end device

end ZeroFlush.DeviceFiles
