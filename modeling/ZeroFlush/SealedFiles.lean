import ZeroFlush.WalFiles

/-! # The cache of sealed WAL generations

An epoch owns the generations it sealed and those it adopted: orphans of a crash and generations
an earlier epoch skipped. A generation is readable while an epoch or one of the two waiting sets
has it. -/
namespace ZeroFlush.SealedFiles
open FiniteMaps WalFormat WalFiles

structure SealedEpoch where
  epoch : ℕ
  tableVersion : ℕ
  gens : List FileId := []
  totalBytes : ℕ := 0
  partBytes : Map ℕ ℕ := ∅
  hasAdoptedOrphans : Bool := false
  hasAdoptedSkips : Bool := false

/-- `genRefs` counts the references of every generation of an epoch. -/
structure SealedFileCache where
  reclaimEnabled : Bool := true
  epochs : Map ℕ SealedEpoch := ∅
  genRefs : Map ℕ (Map FileId ℕ) := ∅
  pendingUnlink : List FileId := []
  recoveryGens : List FileId := []
  recoveryBytes : ℕ := 0
  recoveryPartBytes : Map ℕ ℕ := ∅
  skipGens : List FileId := []
  skipBytes : ℕ := 0
  skipPartBytes : Map ℕ ℕ := ∅
  sealedBytes : ℕ := 0

/-- `counts[part] += bytes` for every pair. -/
def addCounts (counts more : Map ℕ ℕ) : Map ℕ ℕ :=
  more.entries.foldl (fun m e => m.insert e.1 ((m.lookup e.1).getD 0 + e.2)) counts

/-- `emplace` into a set. -/
def emplaceAll (set more : List FileId) : List FileId :=
  more.foldl (fun s f => if f ∈ s then s else s ++ [f]) set

namespace SealedFileCache

def adoptRecovery (c : SealedFileCache) (e : SealedEpoch) : SealedEpoch :=
  if c.recoveryGens = [] then e
  else
    { e with
      gens := e.gens ++ c.recoveryGens
      totalBytes := e.totalBytes + c.recoveryBytes
      partBytes := addCounts e.partBytes c.recoveryPartBytes
      hasAdoptedOrphans := true }

def adoptSkips (c : SealedFileCache) (e : SealedEpoch) : SealedEpoch :=
  if c.skipGens = [] then e
  else
    { e with
      gens := e.gens ++ c.skipGens
      totalBytes := e.totalBytes + c.skipBytes
      partBytes := addCounts e.partBytes c.skipPartBytes
      hasAdoptedSkips := true }

/-- `AddEpochWithRecoveryAdoption`, with one reference for each generation. -/
def addEpochWithRecoveryAdoption (c : SealedFileCache) (e : SealedEpoch) : SealedFileCache :=
  match c.epochs.lookup e.epoch with
  | some _ => c
  | none =>
    let merged := c.adoptSkips (c.adoptRecovery e)
    { c with
      epochs := c.epochs.insert merged.epoch merged
      genRefs := c.genRefs.insert merged.epoch
        (merged.gens.foldl (fun refs f => refs.insert f 1) ((c.genRefs.lookup merged.epoch).getD ∅))
      recoveryGens := [], skipGens := []
      recoveryBytes := if c.recoveryGens = [] then c.recoveryBytes else 0
      skipBytes := if c.skipGens = [] then c.skipBytes else 0
      recoveryPartBytes := if c.recoveryGens = [] then c.recoveryPartBytes else ∅
      skipPartBytes := if c.skipGens = [] then c.skipPartBytes else ∅
      sealedBytes := c.sealedBytes + merged.totalBytes }

def addRecoveryGens (c : SealedFileCache) (gens : List FileId) (totalBytes : ℕ) :
    SealedFileCache :=
  { c with
    recoveryGens := emplaceAll c.recoveryGens gens
    recoveryBytes := c.recoveryBytes + totalBytes }

/-- The entry of an epoch without the skipped generations. -/
def dropSkipped (e : SealedEpoch) (gens : List FileId) : SealedEpoch :=
  gens.foldl
    (fun e f =>
      match e.partBytes.lookup f.1 with
      | none => e
      | some b => { e with totalBytes := e.totalBytes - b, partBytes := e.partBytes.erase f.1 })
    { e with gens := e.gens.filter fun f => f ∉ gens }

/-- An epoch without references is forgotten. -/
def settleEpoch (c : SealedFileCache) (epoch : ℕ) (refs : Map FileId ℕ) : SealedFileCache :=
  if refs.keys = [] then
    { c with
      genRefs := c.genRefs.erase epoch
      epochs := c.epochs.erase epoch
      sealedBytes := c.sealedBytes - ((c.epochs.lookup epoch).map SealedEpoch.totalBytes).getD 0 }
  else { c with genRefs := c.genRefs.insert epoch refs }

/-- `HandOffSkippedToRecovery`: the generations wait for the next epoch to adopt them. -/
def handOffSkippedToRecovery (c : SealedFileCache) (epoch : ℕ) (gens : List FileId)
    (partBytes : Map ℕ ℕ) : SealedFileCache :=
  let c := match c.epochs.lookup epoch with
    | none => c
    | some e => { c with epochs := c.epochs.insert epoch (dropSkipped e gens) }
  let c := { c with
    skipGens := emplaceAll c.skipGens gens
    skipPartBytes := addCounts c.skipPartBytes partBytes
    skipBytes := c.skipBytes + (partBytes.entries.map fun e => e.2).sum }
  match c.genRefs.lookup epoch with
  | none => c
  | some refs => c.settleEpoch epoch (gens.foldl (fun r f => r.erase f) refs)

/-- One generation in the loop of `ReleaseGens`. -/
def releaseGen (epoch : ℕ) (c : SealedFileCache) (f : FileId) : SealedFileCache :=
  match (c.genRefs.lookup epoch).bind (·.lookup f) with
  | none => c
  | some n =>
    let refs := (c.genRefs.lookup epoch).getD ∅
    if n - 1 > 0 then { c with genRefs := c.genRefs.insert epoch (refs.insert f (n - 1)) }
    else
      { c with
        genRefs := c.genRefs.insert epoch (refs.erase f)
        pendingUnlink := if c.reclaimEnabled then c.pendingUnlink ++ [f] else c.pendingUnlink
        epochs := match c.epochs.lookup epoch with
          | none => c.epochs
          | some e => c.epochs.insert epoch { e with gens := e.gens.filter (· ≠ f) } }

def releaseGens (c : SealedFileCache) (epoch : ℕ) (gens : List FileId) : SealedFileCache :=
  if gens = [] then c
  else
    match c.genRefs.lookup epoch with
    | none => c
    | some _ =>
      let c := gens.foldl (releaseGen epoch) c
      c.settleEpoch epoch ((c.genRefs.lookup epoch).getD ∅)

/-- `GetEpoch`. -/
def getEpoch (c : SealedFileCache) (epoch : ℕ) : Option SealedEpoch := c.epochs.lookup epoch

def releaseEpoch (c : SealedFileCache) (epoch : ℕ) : SealedFileCache :=
  c.releaseGens epoch (((c.getEpoch epoch).map SealedEpoch.gens).getD [])

/-- The check of `Get`. -/
def readable (c : SealedFileCache) (f : FileId) : Bool :=
  decide (f ∈ c.recoveryGens) || decide (f ∈ c.skipGens) ||
    c.epochs.entries.any fun e => decide (f ∈ e.2.gens)

/-- `PurgePending` unlinks the files of released generations. -/
def purgePending (c : SealedFileCache) (env : Env) : SealedFileCache × Env :=
  ({ c with pendingUnlink := [] }, c.pendingUnlink.foldl Env.deleteFile env)

/-! ## What an epoch keeps when it adopts -/

@[simp] theorem epoch_adoptRecovery (c : SealedFileCache) (e : SealedEpoch) :
    (c.adoptRecovery e).epoch = e.epoch := by
  rw [adoptRecovery]
  split <;> rfl

@[simp] theorem epoch_adoptSkips (c : SealedFileCache) (e : SealedEpoch) :
    (c.adoptSkips e).epoch = e.epoch := by
  rw [adoptSkips]
  split <;> rfl

@[simp] theorem tableVersion_adoptRecovery (c : SealedFileCache) (e : SealedEpoch) :
    (c.adoptRecovery e).tableVersion = e.tableVersion := by
  rw [adoptRecovery]
  split <;> rfl

@[simp] theorem tableVersion_adoptSkips (c : SealedFileCache) (e : SealedEpoch) :
    (c.adoptSkips e).tableVersion = e.tableVersion := by
  rw [adoptSkips]
  split <;> rfl

end SealedFileCache

end ZeroFlush.SealedFiles
