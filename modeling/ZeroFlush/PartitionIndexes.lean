import ZeroFlush.OrderedInsertion
import ZeroFlush.PartitionedWal
import ZeroFlush.UserKeys

/-! # Partition indexes

One skip list per partition and generation maps internal keys to locators of WAL records. The
set of them answers reads from the active index and then from the frozen chain. -/
namespace ZeroFlush.PartitionIndexes
open FixedWidthCodec FiniteMaps WalFormat PartitionedWal UserKeys OrderedInsertion

/-- A skip-list entry: internal key and `SlimLocator`. -/
structure IndexEntry where
  userKey : Bytes
  seq : ℕ
  type : UInt8
  loc : WalRecordRef
  deriving DecidableEq, Repr

/-- `CompareKeySeq`: user keys ascending, sequence numbers descending, types ignored. -/
def compareKeySeq (ucmp : UserComparator) (a b : IndexEntry) : Ordering :=
  (ucmp.compare a.userKey b.userKey).then (compare b.seq a.seq)

/-- The probe of `Seek` and `SeekForPrev`; its locator is never looked at. -/
def lookupKey (userKey : Bytes) (snapshot : ℕ) : IndexEntry :=
  ⟨userKey, snapshot, kTypeValue, ⟨0, 0, 0⟩⟩

def varintLength (v : ℕ) : ℕ :=
  if v < 2 ^ 7 then 1 else if v < 2 ^ 14 then 2 else if v < 2 ^ 21 then 3
  else if v < 2 ^ 28 then 4 else 5

/-- The bytes of an entry: two length-prefixed slices, the second one of 16 bytes. -/
def IndexEntry.bytes (e : IndexEntry) : ℕ :=
  varintLength (e.userKey.length + 8) + (e.userKey.length + 8) + varintLength 16 + 16

structure PartitionIndex where
  gen : ℕ
  entries : List IndexEntry := []
  deriving DecidableEq, Repr

namespace PartitionIndex

/-- The counter `mem_bytes_`, which every successful insertion increases. -/
def memBytes (idx : PartitionIndex) : ℕ := (idx.entries.map IndexEntry.bytes).sum

/-- `none`: an entry with this user key and sequence number exists. -/
def insert (ucmp : UserComparator) (idx : PartitionIndex) (e : IndexEntry) :
    Option PartitionIndex :=
  (insertNew (compareKeySeq ucmp) e idx.entries).map fun entries => { idx with entries := entries }

/-- The entries from the position of `Seek(user_key, snapshot)` on. -/
def seek (ucmp : UserComparator) (idx : PartitionIndex) (userKey : Bytes) (snapshot : ℕ) :
    List IndexEntry :=
  idx.entries.dropWhile fun e => compareKeySeq ucmp e (lookupKey userKey snapshot) == .lt

/-- The found entry is compared with `Slice::compare`, not with the comparator. -/
def get (ucmp : UserComparator) (idx : PartitionIndex) (userKey : Bytes) (snapshot : ℕ) :
    Option IndexEntry :=
  (idx.seek ucmp userKey snapshot).head?.filter fun e => e.userKey == userKey

/-- `SeekForPrev`, then the tombstone found there if it covers the key. -/
def getRangeDelCover (ucmp : UserComparator) (idx : PartitionIndex) (userKey : Bytes)
    (snapshot : ℕ) (readValue : WalRecordRef → Except Status Bytes) : Bool :=
  let upTo := idx.entries.takeWhile
    fun e => compareKeySeq ucmp e (lookupKey userKey snapshot) != .gt
  match upTo.getLast? with
  | none => false
  | some e =>
    if ucmp.compare e.userKey userKey = .gt then false
    else if e.type ≠ kTypeRangeDeletion then false
    else
      match readValue e.loc with
      | .error _ => false
      | .ok rangeEnd => ucmp.compare userKey rangeEnd == .lt

/-- The versions of the key at the snapshot, newest first; unreadable ones are left out. -/
def collectVersions (ucmp : UserComparator) (idx : PartitionIndex) (userKey : Bytes)
    (snapshot : ℕ) (readValue : WalRecordRef → Except Status Bytes) : List (Bytes × UInt8) :=
  let versions := (idx.seek ucmp userKey snapshot).takeWhile
    fun e => ucmp.compare e.userKey userKey == .eq
  versions.filterMap fun e =>
    match readValue e.loc with
    | .ok v => some (v, e.type)
    | .error _ => none

end PartitionIndex

def kNumBits : ℕ := 8 * 2 ^ 20

/-- The set bits of a Bloom filter. -/
structure PartitionBloom where
  bits : List ℕ := []
  deriving DecidableEq, Repr

namespace PartitionBloom

/-- The four probes of a key; `i * h2` is a `uint32_t`. -/
def probes (key : Bytes) : List ℕ :=
  let h₁ := hash key 0x5f10f1
  let h₂ := hash key 0x5f10f2
  (List.range 4).map fun i => (h₁.toNat + (UInt32.ofNat i * h₂).toNat) % kNumBits

def add (bloom : PartitionBloom) (key : Bytes) : PartitionBloom := ⟨probes key ++ bloom.bits⟩

def mayContain (bloom : PartitionBloom) (key : Bytes) : Bool :=
  (probes key).all fun b => decide (b ∈ bloom.bits)

end PartitionBloom

/-- A frozen chain has its newest index last. -/
structure PartitionIndexSet where
  active : Map ℕ PartitionIndex := ∅
  frozen : Map ℕ (List PartitionIndex) := ∅
  blooms : Map ℕ PartitionBloom := ∅
  totalMemBytes : ℕ := 0

/-- Change the first element that meets `p`, if there is one. -/
def modifyFirst {α : Type*} (p : α → Bool) (f : α → α) : List α → Option (List α)
  | [] => none
  | x :: xs => if p x then some (f x :: xs) else (modifyFirst p f xs).map (x :: ·)

namespace PartitionIndexSet

def frozenChain (s : PartitionIndexSet) (part : ℕ) : List PartitionIndex :=
  (s.frozen.lookup part).getD []

/-- The indexes of a partition in the order of `Get`: active, then frozen from new to old. -/
def chain (s : PartitionIndexSet) (part : ℕ) : List PartitionIndex :=
  (s.active.lookup part).toList ++ (s.frozenChain part).reverse

/-- `active_.emplace` and `blooms_.emplace`: an existing filter is kept. -/
def createActive (s : PartitionIndexSet) (part gen : ℕ) : PartitionIndexSet :=
  { s with
    active := s.active.insert part { gen := gen }
    blooms := s.blooms.insert part ((s.blooms.lookup part).getD {}) }

/-- The filter and the memory counter after an entry went into an index. -/
def noteInserted (s : PartitionIndexSet) (part : ℕ) (e : IndexEntry) : PartitionIndexSet :=
  { s with
    blooms := s.blooms.insert part (((s.blooms.lookup part).getD {}).add e.userKey)
    totalMemBytes := (s.totalMemBytes + e.bytes) % 2 ^ 64 }

def insertActive (ucmp : UserComparator) (s : PartitionIndexSet) (part : ℕ) (e : IndexEntry) :
    PartitionIndexSet :=
  match (s.active.lookup part).bind (·.insert ucmp e) with
  | none => s
  | some idx => ({ s with active := s.active.insert part idx } : PartitionIndexSet).noteInserted
      part e

/-- The newest frozen index of the generation; `none` if there is no such index. -/
def insertFrozen (ucmp : UserComparator) (s : PartitionIndexSet) (part gen : ℕ)
    (e : IndexEntry) : Option PartitionIndexSet :=
  match (s.frozenChain part).reverse.find? fun idx => idx.gen == gen with
  | none => none
  | some idx =>
    match idx.insert ucmp e with
    | none => some s
    | some idx' =>
      let chain := modifyFirst (fun i => i.gen == gen) (fun _ => idx') (s.frozenChain part).reverse
      some (({ s with frozen := s.frozen.insert part (chain.getD []).reverse } :
        PartitionIndexSet).noteInserted part e)

/-- `Insert`: an entry of a generation without index is dropped. -/
def insert (ucmp : UserComparator) (s : PartitionIndexSet) (part gen : ℕ) (e : IndexEntry) :
    PartitionIndexSet :=
  match s.active.lookup part with
  | none => (s.createActive part gen).insertActive ucmp part e
  | some idx =>
    if idx.gen = gen then s.insertActive ucmp part e
    else (s.insertFrozen ucmp part gen e).getD s

def pushFrozen (s : PartitionIndexSet) (part : ℕ) (idx : PartitionIndex) : PartitionIndexSet :=
  { s with frozen := s.frozen.insert part (s.frozenChain part ++ [idx]) }

/-- `InsertCreate`: an index of a sealed generation is created at the end of the chain. -/
def insertCreate (ucmp : UserComparator) (s : PartitionIndexSet) (part gen : ℕ)
    (e : IndexEntry) : PartitionIndexSet :=
  match s.active.lookup part with
  | none => (s.createActive part gen).insertActive ucmp part e
  | some idx =>
    if idx.gen = gen then s.insertActive ucmp part e
    else
      match s.insertFrozen ucmp part gen e with
      | some s' => s'
      | none => ((s.pushFrozen part { gen := gen }).insertFrozen ucmp part gen e).getD s

/-- `Freeze`: an index without entries is not kept. -/
def freeze (s : PartitionIndexSet) (part newGen : ℕ) : PartitionIndexSet :=
  let s' := { s with active := s.active.insert part { gen := newGen } }
  match s.active.lookup part with
  | none => s'
  | some old => if old.memBytes > 0 then s'.pushFrozen part old else s'

def rebuildBloom (s : PartitionIndexSet) (part : ℕ) : PartitionIndexSet :=
  { s with
    blooms := s.blooms.insert part
      ((s.chain part).foldl
        (fun bloom idx => idx.entries.foldl (fun b e => b.add e.userKey) bloom) {}) }

def releaseFrozen (s : PartitionIndexSet) (part gen : ℕ) : PartitionIndexSet :=
  let released := (s.frozenChain part).filter fun idx => idx.gen == gen
  if released = [] then s
  else
    let kept := (s.frozenChain part).filter fun idx => idx.gen != gen
    ({ s with
      frozen := s.frozen.insert part kept
      totalMemBytes := released.foldl
        (fun total idx => (total + 2 ^ 64 - idx.memBytes % 2 ^ 64) % 2 ^ 64)
        s.totalMemBytes } : PartitionIndexSet).rebuildBloom part

/-- `EnsureActive`: an active index of another generation is replaced by an empty one. -/
def ensureActive (s : PartitionIndexSet) (part gen : ℕ) : PartitionIndexSet :=
  match s.active.lookup part with
  | some idx =>
    if idx.gen = gen then s else { s with active := s.active.insert part { gen := gen } }
  | none => s.createActive part gen

def getRangeDelCover (ucmp : UserComparator) (s : PartitionIndexSet) (part : ℕ)
    (userKey : Bytes) (snapshot : ℕ) (readValue : WalRecordRef → Except Status Bytes) : Bool :=
  (s.chain part).any fun idx => idx.getRangeDelCover ucmp userKey snapshot readValue

def collectVersions (ucmp : UserComparator) (s : PartitionIndexSet) (part : ℕ)
    (userKey : Bytes) (snapshot : ℕ) (readValue : WalRecordRef → Except Status Bytes) :
    List (Bytes × UInt8) :=
  (s.chain part).flatMap fun idx => idx.collectVersions ucmp userKey snapshot readValue

/-- `Get`: the first hit along the chain, if the filter lets the key pass. -/
def get (ucmp : UserComparator) (s : PartitionIndexSet) (part : ℕ) (userKey : Bytes)
    (snapshot : ℕ) : Option IndexEntry :=
  match s.blooms.lookup part with
  | none => none
  | some bloom =>
    if bloom.mayContain userKey then
      (s.chain part).findSome? fun idx => idx.get ucmp userKey snapshot
    else none

end PartitionIndexSet

end ZeroFlush.PartitionIndexes
