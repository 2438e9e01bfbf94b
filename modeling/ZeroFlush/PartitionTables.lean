import Mathlib.Data.List.Sort
import ZeroFlush.UserKeys
import ZeroFlush.WalFormat

/-! # Partition tables

A table routes a user key by hash or by range. The set keeps every version of the table; the
sampler and the files of level 1 give the boundaries of new ones. -/
namespace ZeroFlush.PartitionTables
open FixedWidthCodec WalFormat UserKeys

/-- The partition ids of a table are `0 .. partitions - 1`. -/
structure PartitionTable where
  version : ℕ
  isHashMode : Bool
  boundaries : List Bytes
  partitions : ℕ
  partitions_pos : 0 < partitions
  partitions_eq : isHashMode = false → partitions = boundaries.length + 1

/-- The first adjacent pair that is not ascending decides the error. -/
def checkBoundaries (ucmp : UserComparator) : List Bytes → Except Status Unit
  | a :: b :: rest =>
    match ucmp.compare a b with
    | .gt => .error (.invalidArgument "PartitionTable: boundaries not in ascending order")
    | .eq => .error (.invalidArgument "PartitionTable: duplicate boundary key")
    | .lt => checkBoundaries ucmp (b :: rest)
  | _ => .ok ()

namespace PartitionTable

def create (version : ℕ) (boundaries : List Bytes) (ucmp : UserComparator) :
    Except Status PartitionTable :=
  match checkBoundaries ucmp boundaries with
  | .error e => .error e
  | .ok () => .ok ⟨version, false, boundaries, boundaries.length + 1, by omega, fun _ => rfl⟩

def createHash (version partitions : ℕ) (h : 0 < partitions) : PartitionTable :=
  ⟨version, true, [], partitions, h, fun hm => absurd hm (by decide)⟩

/-- Two ranges. -/
def cutAt (version : ℕ) (boundary : Bytes) : PartitionTable :=
  ⟨version, false, [boundary], 2, Nat.two_pos, fun _ => rfl⟩

def partIds (t : PartitionTable) : List ℕ := List.range t.partitions

/-- `Route`: the upper bound of the key among the boundaries. -/
def route (ucmp : UserComparator) (t : PartitionTable) (userKey : Bytes) : ℕ :=
  if t.isHashMode then (hash userKey 0).toNat % t.partitions
  else t.boundaries.findIdx fun b => ucmp.compare userKey b == .lt

/-- `RangeOf`: an empty slice stands for an open end. -/
def rangeOf (t : PartitionTable) (p : ℕ) : Bytes × Bytes :=
  (if p = 0 then [] else t.boundaries.getD (p - 1) [],
    if p ≥ t.boundaries.length then [] else t.boundaries.getD p [])

theorem route_lt (ucmp : UserComparator) (t : PartitionTable) (userKey : Bytes) :
    t.route ucmp userKey < t.partitions := by
  rw [route]
  cases hm : t.isHashMode with
  | true => exact Nat.mod_lt _ t.partitions_pos
  | false =>
    have hle : t.boundaries.findIdx (fun b => ucmp.compare userKey b == .lt) ≤
        t.boundaries.length := List.findIdx_le_length
    have heq := t.partitions_eq hm
    simp only [Bool.false_eq_true, if_false]
    omega

end PartitionTable

/-- The index of a table in `versions` is its version. -/
structure PartitionTableSet where
  versions : List PartitionTable
  currentVersion : ℕ
  currentVersion_lt : currentVersion < versions.length

namespace PartitionTableSet

def init (t : PartitionTable) : PartitionTableSet := ⟨[t], 0, by simp⟩

def current (s : PartitionTableSet) : PartitionTable :=
  s.versions.get ⟨s.currentVersion, s.currentVersion_lt⟩

def get? (s : PartitionTableSet) (version : ℕ) : Option PartitionTable := s.versions[version]?

def installNewVersion (s : PartitionTableSet) (t : PartitionTable) : PartitionTableSet :=
  ⟨s.versions ++ [t], s.versions.length, by simp⟩

theorem get?_currentVersion (s : PartitionTableSet) : s.get? s.currentVersion = some s.current := by
  simp [get?, current, s.currentVersion_lt]

end PartitionTableSet

structure KeySampler where
  sampleEveryN : ℕ
  samples : List Bytes := []
  totalSeen : ℕ := 0
  deriving DecidableEq, Repr

namespace KeySampler

def maxSamples : ℕ := 64 * 1024

/-- `r` is the slot drawn with `std::rand()`, which a full reservoir replaces. -/
def sample (s : KeySampler) (r : ℕ) (userKey : Bytes) : KeySampler :=
  let s := { s with totalSeen := s.totalSeen + 1 }
  if (s.totalSeen - 1) % s.sampleEveryN ≠ 0 then s
  else if s.samples.length < maxSamples then { s with samples := s.samples ++ [userKey] }
  else if r < maxSamples then { s with samples := s.samples.set r userKey }
  else s

/-- The `partitions - 1` quantiles of the sorted samples; `none`: too few samples. -/
def buildBoundaries (ucmp : UserComparator) (s : KeySampler) (partitions : ℕ) :
    Option (List Bytes) :=
  if partitions ≤ 1 then some []
  else if s.samples.length < partitions then none
  else
    let sorted := s.samples.insertionSort fun a b => ucmp.compare a b ≠ .gt
    some ((List.range (partitions - 1)).map fun i =>
      sorted.getD ((i + 1) * sorted.length / partitions) [])

end KeySampler

/-- A file of level 1 as `BuildL1AlignedTable` sees it: largest user key and size. -/
abbrev L1File := Bytes × ℕ

/-- The loop that closes a bucket once it has its share of the bytes. -/
def bucketBoundaries (target targetBytes : ℕ) : ℕ → List Bytes → List L1File → List Bytes
  | acc, bs, f :: g :: rest =>
    if acc + f.2 ≥ targetBytes ∧ bs.length + 1 < target then
      bucketBoundaries target targetBytes 0 (bs ++ [f.1]) (g :: rest)
    else bucketBoundaries target targetBytes (acc + f.2) bs (g :: rest)
  | _, bs, _ => bs

/-- The boundaries of `BuildL1AlignedTable`; none are found for fewer than two files. -/
def l1Boundaries (partitions : ℕ) (l1 : List L1File) : List Bytes :=
  let target := max 1 partitions
  if target ≥ l1.length then l1.dropLast.map Prod.fst
  else bucketBoundaries target ((l1.map Prod.snd).sum / target) 0 [] l1

def buildL1AlignedTable (ucmp : UserComparator) (tables : PartitionTableSet) (partitions : ℕ)
    (l1 : List L1File) : Option PartitionTable :=
  match l1Boundaries partitions l1 with
  | [] => none
  | bs => (PartitionTable.create (tables.currentVersion + 1) bs ucmp).toOption

end ZeroFlush.PartitionTables
