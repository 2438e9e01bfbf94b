import ZeroFlush.PartitionedWal

/-! # The WAL manager over files that fail

Every call of the environment may fail. An error ends the operation where it occurs, except in
`Freeze`, which ignores it; what the operation has done until then stays. -/
namespace ZeroFlush.FaultyWal
open FixedWidthCodec FiniteMaps WalFormat WalFiles PartitionedWal

/-- What the environment answers during one operation; `none` is success. Of a failed write some
bytes have reached the file. -/
structure Faults where
  createDirIfMissing : Option Status := none
  getChildren : Option Status := none
  newRandomAccessFile : ℕ → Option Status := fun _ => none
  getFileSize : ℕ → Option Status := fun _ => none
  reopenWritableFile : Option Status := none
  newWritableFile : Option Status := none
  append : Option (Status × ℕ) := none
  sync : Option Status := none

def faultless : Faults := {}

/-- `FlushBuf`: the buffer is emptied only if the write succeeds. -/
def flushBuf (faults : Faults) (env : Env) (p : Partition) : Option Status × Env × Partition :=
  match p.buf, p.wfile with
  | _ :: _, some f =>
    match faults.append with
    | some (e, n) => (some e, env.appendFile f (p.buf.take n), p)
    | none => (none, PartitionedWal.flushBuf env p)
  | _, _ => (none, env, p)

/-- `OpenGen` for a partition without handles. -/
def openGen (faults : Faults) (env : Env) (p : Partition) : Option Status × Env × Partition :=
  match faults.newWritableFile with
  | some e => (some e, env, p)
  | none =>
    let created := env.newWritableFile p.file
    match faults.newRandomAccessFile p.partId with
    | some e => (some e, created, { p with wfile := some p.file, rfile := none })
    | none => (none, created, { p with wfile := some p.file, rfile := some p.file })

def ensureOpenForWrite (faults : Faults) (env : Env) (p : Partition) :
    Option Status × Env × Partition :=
  match p.wfile with
  | some _ => (none, env, p)
  | none =>
    match faults.reopenWritableFile with
    | some e => (some e, env, p)
    | none =>
      let reopened := env.reopenWritableFile p.file
      match p.rfile with
      | some f => (none, reopened, { p with wfile := some p.file, rfile := some f })
      | none =>
        match faults.newRandomAccessFile p.partId with
        | some e => (some e, reopened, { p with wfile := some p.file })
        | none => (none, reopened, { p with wfile := some p.file, rfile := some p.file })

/-- `wfile->Sync()` if the handle is open. -/
def syncHandle (faults : Faults) (env : Env) (p : Partition) : Option Status × Env :=
  match p.wfile, faults.sync with
  | some _, some e => (some e, env)
  | _, _ => (none, PartitionedWalManager.syncHandle env p)

/-- A frame goes to the buffer and is counted. -/
def bufferFrame (p : Partition) (frame : Bytes) : Partition :=
  { p with
    buf := p.buf ++ frame, totalSize := p.totalSize + frame.length
    activeBytes := (p.activeBytes + frame.length) % 2 ^ 64 }

/-- A buffer of 4 KiB is flushed. -/
def flushFull (faults : Faults) (env : Env) (p : Partition) : Option Status × Env × Partition :=
  if p.buf.length ≥ 4096 then flushBuf faults env p else (none, env, p)

/-- The part of `Append` under the partition's mutex. A record whose write fails is counted and
stays in the buffer. -/
def appendTo (faults : Faults) (m : PartitionedWalManager) (part : ℕ) (p : Partition)
    (r : WalRecord) : Except Status WalRecordRef × PartitionedWalManager :=
  let opened := ensureOpenForWrite faults m.env p
  let p := opened.2.2
  match opened.1 with
  | some e => (.error e, { m with env := opened.2.1, parts := m.parts.insert part p })
  | none =>
    let q := bufferFrame p r.frame
    let flushed := flushFull faults opened.2.1 q
    let m := { m with
      env := flushed.2.1
      parts := m.parts.insert part flushed.2.2
      totalActiveBytes := (m.totalActiveBytes + r.frame.length) % 2 ^ 64
      anyOverTarget := m.anyOverTarget || decide (q.activeBytes ≥ m.partitionTargetBytes) }
    match flushed.1 with
    | some e => (.error e, m)
    | none => (.ok ⟨part, p.gen, p.totalSize⟩, m)

def append (faults : Faults) (m : PartitionedWalManager) (part : ℕ) (r : WalRecord) :
    Except Status WalRecordRef × PartitionedWalManager :=
  match m.parts.lookup part with
  | some p => appendTo faults m part p r
  | none =>
    if part = kRangeDelPartId then appendTo faults m part { partId := part } r
    else (.error (.invalidArgument s!"ZF Append: unknown partition {part}"), m)

def sync (faults : Faults) (m : PartitionedWalManager) (part : ℕ) :
    Except Status Unit × PartitionedWalManager :=
  match m.parts.lookup part with
  | none => (.error (.invalidArgument s!"ZF Sync: unknown partition {part}"), m)
  | some p =>
    let opened := ensureOpenForWrite faults m.env p
    match opened.1 with
    | some e => (.error e, { m with env := opened.2.1, parts := m.parts.insert part opened.2.2 })
    | none =>
      let flushed := flushBuf faults opened.2.1 opened.2.2
      let m := { m with env := flushed.2.1, parts := m.parts.insert part flushed.2.2 }
      match flushed.1 with
      | some e => (.error e, m)
      | none =>
        let synced := syncHandle faults flushed.2.1 flushed.2.2
        match synced.1 with
        | some e => (.error e, m)
        | none => (.ok (), { m with env := synced.2 })

/-- `Freeze`: no error is looked at, the buffer is dropped in any case. -/
def freeze (faults : Faults) (m : PartitionedWalManager) (part : ℕ) :
    Option FreezeResult × PartitionedWalManager :=
  match m.parts.lookup part with
  | none => (none, m)
  | some p =>
    let flushed := if p.wfile.isSome then flushBuf faults m.env p else (none, m.env, p)
    let env := (syncHandle faults flushed.2.1 p).2
    let p := flushed.2.2
    let fresh := openGen faults env
      { p with
        wfile := none, rfile := none, gen := (p.gen + 1) % 2 ^ 32, flushedSize := 0,
        totalSize := 0, buf := [], activeBytes := 0 }
    (some ⟨p.gen, p.totalSize, (part, p.gen)⟩,
      { m with
        env := fresh.2.1
        parts := m.parts.insert part fresh.2.2
        totalActiveBytes := (m.totalActiveBytes + 2 ^ 64 - p.totalSize % 2 ^ 64) % 2 ^ 64 })

/-- The partitions of `Open` in their order, up to the first error. -/
def openLoop (faults : Faults) (m : PartitionedWalManager) :
    List ℕ → Option Status × PartitionedWalManager
  | [] => (none, m)
  | i :: is =>
    match m.parts.lookup i with
    | none => openLoop faults m is
    | some p =>
      let done := { m with parts := m.parts.insert i (PartitionedWalManager.openPartition m.env i p) }
      if m.env.listFiles.any (fun f => f.1 == i) then
        let mg := maxGen i m.env.listFiles
        match faults.newRandomAccessFile i with
        | some e =>
          (some e, { m with parts := m.parts.insert i { p with gen := mg, rfile := none } })
        | none =>
          match faults.getFileSize i with
          | some e =>
            (some e, { m with parts := m.parts.insert i { p with gen := mg, rfile := some (i, mg) } })
          | none =>
            let sz := (m.env.content (i, mg)).length
            openLoop faults { done with totalActiveBytes := (m.totalActiveBytes + sz) % 2 ^ 64 } is
      else openLoop faults done is

def open_ (faults : Faults) (m : PartitionedWalManager) : Option Status × PartitionedWalManager :=
  match faults.createDirIfMissing, faults.getChildren with
  | some e, _ => (some e, m)
  | none, some e => (some e, m)
  | none, none => openLoop faults m (List.range m.partitions)

section faultless
variable (env : Env) (p : Partition) (m : PartitionedWalManager) (part : ℕ)

theorem flushBuf_faultless :
    flushBuf faultless env p = (none, PartitionedWal.flushBuf env p) := by
  rw [flushBuf]
  split
  · rfl
  next h =>
    rw [PartitionedWal.flushBuf]
    split
    next hbuf hwfile => exact absurd hwfile (h _ _ _ hbuf)
    next => rfl

theorem ensureOpenForWrite_faultless :
    ensureOpenForWrite faultless env p = (none, PartitionedWal.ensureOpenForWrite env p) := by
  rw [ensureOpenForWrite, PartitionedWal.ensureOpenForWrite]
  cases p.wfile with
  | some _ => rfl
  | none =>
    cases p.rfile with
    | some _ => rfl
    | none => rfl

theorem syncHandle_faultless :
    syncHandle faultless env p = (none, PartitionedWalManager.syncHandle env p) := by
  rw [syncHandle]
  split
  next h => cases h
  · rfl

theorem flushFull_faultless : flushFull faultless env p =
    (none, if p.buf.length ≥ 4096 then PartitionedWal.flushBuf env p else (env, p)) := by
  rw [flushFull]
  split
  · exact flushBuf_faultless env p
  · rfl

theorem appendTo_faultless (r : WalRecord) : appendTo faultless m part p r =
    (.ok (m.appendTo part p r).1, (m.appendTo part p r).2) := by
  rw [appendTo, ensureOpenForWrite_faultless]
  dsimp only
  rw [flushFull_faultless]
  rfl

theorem append_faultless (r : WalRecord) : append faultless m part r = m.append part r := by
  rw [append, PartitionedWalManager.append]
  cases m.parts.lookup part with
  | some p => exact appendTo_faultless p m part r
  | none =>
    dsimp only
    rw [appendTo_faultless]

theorem sync_faultless : sync faultless m part = m.sync part := by
  rw [sync, PartitionedWalManager.sync]
  cases m.parts.lookup part with
  | none => rfl
  | some p =>
    dsimp only
    rw [ensureOpenForWrite_faultless, flushBuf_faultless]
    dsimp only
    rw [syncHandle_faultless]

theorem freeze_faultless : freeze faultless m part = m.freeze part := by
  rw [freeze, PartitionedWalManager.freeze]
  cases m.parts.lookup part with
  | none => rfl
  | some p =>
    dsimp only
    rw [flushBuf_faultless, syncHandle_faultless]
    cases p.wfile with
    | none => rfl
    | some f => rfl

theorem openLoop_faultless (is : List ℕ) (hnodup : is.Nodup) :
    (openLoop faultless m is).1 = none ∧ ∀ j, (openLoop faultless m is).2.parts.lookup j =
      if j ∈ is then (m.parts.lookup j).map (PartitionedWalManager.openPartition m.env j)
      else m.parts.lookup j := by
  induction is generalizing m with
  | nil => exact ⟨rfl, fun j => (if_neg List.not_mem_nil).symm⟩
  | cons i is ih =>
    obtain ⟨hi, hnodup⟩ := List.nodup_cons.mp hnodup
    rw [openLoop]
    cases hp : m.parts.lookup i with
    | none =>
      obtain ⟨hok, hlook⟩ := ih m hnodup
      refine ⟨hok, fun j => (hlook j).trans ?_⟩
      by_cases hj : j = i
      · rw [hj, if_neg hi, if_pos List.mem_cons_self, hp, Option.map_none]
      · simp only [List.mem_cons, or_iff_right hj]
    | some p =>
      have hrest : ∀ t, (openLoop faultless { m with
          parts := m.parts.insert i (PartitionedWalManager.openPartition m.env i p)
          totalActiveBytes := t } is).1 = none ∧ ∀ j, (openLoop faultless { m with
          parts := m.parts.insert i (PartitionedWalManager.openPartition m.env i p)
          totalActiveBytes := t } is).2.parts.lookup j =
            if j ∈ i :: is then (m.parts.lookup j).map (PartitionedWalManager.openPartition m.env j)
            else m.parts.lookup j := by
        intro t
        obtain ⟨hok, hlook⟩ := ih { m with
          parts := m.parts.insert i (PartitionedWalManager.openPartition m.env i p)
          totalActiveBytes := t } hnodup
        refine ⟨hok, fun j => (hlook j).trans ?_⟩
        dsimp only
        rw [lookup_insert_eq]
        by_cases hj : j = i
        · rw [hj, if_neg hi, if_pos rfl, if_pos List.mem_cons_self, hp, Option.map_some]
        · simp only [if_neg hj, List.mem_cons, or_iff_right hj]
      dsimp only
      split
      · exact hrest _
      · exact hrest m.totalActiveBytes

theorem lookup_open_faultless (j : ℕ) :
    (open_ faultless m).2.parts.lookup j = m.open_.parts.lookup j := by
  have hloop := (openLoop_faultless m (List.range m.partitions) List.nodup_range).2 j
  rw [PartitionedWalManager.open_, lookup_mapValues]
  refine hloop.trans ?_
  simp only [List.mem_range]
  split
  · rfl
  · exact Option.map_id'.symm

end faultless

end ZeroFlush.FaultyWal
