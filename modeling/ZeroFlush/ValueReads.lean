import ZeroFlush.ContextRuns
import ZeroFlush.WalReferenceStability

/-! # Values read while partitions are frozen

`ReadValue` looks into the value cache, compares the generation of its locator with the active
one, reads, and fills the cache. The partition's mutex is released between these steps. -/
namespace ZeroFlush.ValueReads
open FixedWidthCodec FiniteMaps WalFormat WalFiles PartitionedWal WalLogs ReadPaths
  ManagerConsistency WalReferenceStability ContextRuns GuardedRuns

/-- Where a call of `ReadValue` stands. -/
inductive Phase
  | lookup
  | test
  | read (active : Bool)
  | insert (value : Bytes)
  | done (result : Except Status Bytes)
  deriving DecidableEq

structure Reader where
  ref : WalRecordRef
  phase : Phase
  deriving DecidableEq

/-- A session with the calls of `ReadValue` begun so far. `registered` are the generations
`SealedFileCache` knows. -/
structure ReadRun where
  session : Session
  registered : List FileId := []
  cacheEnabled : Bool := true
  valueCache : Map WalRecordRef Bytes := ∅
  readers : List Reader := []

inductive ReadOp
  | append (part : ℕ) (r : WalRecord)
  | sync (part : ℕ)
  | freeze (part : ℕ)
  | register (f : FileId)
  | release (f : FileId)
  | evict (ref : WalRecordRef)
  | begin (n : ℕ)
  | advance (i : ℕ)
  deriving DecidableEq

namespace ReadRun

def start (partitions target : ℕ) (cacheEnabled : Bool) : ReadRun :=
  { session := Session.start partitions target, cacheEnabled := cacheEnabled }

/-- The outcome of a read is inserted before it is returned. -/
def returned : Except Status Bytes → Phase
  | .ok v => .insert v
  | .error e => .done (.error e)

/-- The read of a sealed generation. -/
def readSealed (s : ReadRun) (ref : WalRecordRef) : Except Status Bytes :=
  if ref.file ∈ s.registered then
    if s.session.mgr.env.exists? ref.file then
      readFromSealed (s.session.mgr.env.content ref.file) ref
    else .error (.ioError "ZF sealed file missing")
  else .error .notFound

/-- The next phase of a call. -/
def next (s : ReadRun) (ref : WalRecordRef) : Phase → Phase
  | .lookup =>
    match if s.cacheEnabled then s.valueCache.lookup ref else none with
    | some v => .done (.ok v)
    | none => .test
  | .test =>
    if s.session.mgr.hasPartition ref.partId then
      .read (decide (ref.gen = s.session.mgr.activeGen ref.partId))
    else .done (.error (.corruption "ZeroFlush: bad part_id"))
  | .read true => returned (s.session.mgr.readRecord ref)
  | .read false => returned (s.readSealed ref)
  | .insert v => .done (.ok v)
  | .done res => .done res

/-- The value cache after the step of a call. -/
def filled (s : ReadRun) (r : Reader) : Map WalRecordRef Bytes :=
  match r.phase with
  | .insert v => if s.cacheEnabled then s.valueCache.insert r.ref v else s.valueCache
  | _ => s.valueCache

/-- `begin` is a call with one of the locators handed out, `advance` the next step of a call. -/
def step (s : ReadRun) : ReadOp → ReadRun
  | .append part r => { s with session := s.session.step (.append part r) }
  | .sync part => { s with session := s.session.step (.sync part) }
  | .freeze part => { s with session := s.session.step (.freeze part) }
  | .register f => { s with registered := f :: s.registered }
  | .release f => { s with registered := s.registered.filter (· ≠ f) }
  | .evict ref => { s with valueCache := s.valueCache.erase ref }
  | .begin n =>
    match s.session.acked[n]? with
    | none => s
    | some a => { s with readers := s.readers ++ [⟨a.1, .lookup⟩] }
  | .advance i =>
    match s.readers[i]? with
    | none => s
    | some r => { s with
        valueCache := s.filled r
        readers := s.readers.set i ⟨r.ref, s.next r.ref r.phase⟩ }

end ReadRun

/-- Calls return the value appended at their locator, and so does the value cache. -/
def ReadsOwn (s : ReadRun) : Prop :=
  (∀ r ∈ s.readers, ∀ v, r.phase = .done (.ok v) → ∀ a ∈ s.session.acked, a.1 = r.ref →
    v = valueOf a.2) ∧
  ∀ ref v, s.valueCache.lookup ref = some v → ∀ a ∈ s.session.acked, a.1 = ref → v = valueOf a.2

/-- No partition is frozen under a call that has found its generation active and has not read. -/
def StepOk (s : ReadRun) : ReadOp → Prop
  | .append _ r => r.frameLength < 2 ^ 32
  | .freeze part => s.session.mgr.activeGen part + 1 < 2 ^ 32 ∧
      ∀ r ∈ s.readers, r.phase = .read true → r.ref.partId ≠ part
  | _ => True

instance decidableStepOk (s : ReadRun) : (op : ReadOp) → Decidable (StepOk s op)
  | .append _ r => inferInstanceAs (Decidable (r.frameLength < 2 ^ 32))
  | .freeze part => inferInstanceAs (Decidable (s.session.mgr.activeGen part + 1 < 2 ^ 32 ∧
      ∀ r ∈ s.readers, r.phase = .read true → r.ref.partId ≠ part))
  | .sync _ | .register _ | .release _ | .evict _ | .begin _ | .advance _ => .isTrue trivial

/-- What a phase knows about the record `a` it reads. -/
def PhaseOk (m : PartitionedWalManager) (a : WalRecordRef × WalRecord) : Phase → Prop
  | .lookup | .test | .done (.error _) => True
  | .read active => active = decide (a.1.gen = m.activeGen a.1.partId)
  | .insert v | .done (.ok v) => v = valueOf a.2

structure Served (s : ReadRun) : Prop where
  inv : Inv s.session
  cached : ∀ ref v, s.valueCache.lookup ref = some v →
    ∃ a ∈ s.session.acked, a.1 = ref ∧ v = valueOf a.2
  calls : ∀ r ∈ s.readers, ∃ a ∈ s.session.acked, a.1 = r.ref ∧ PhaseOk s.session.mgr a r.phase

variable {s : ReadRun}

/-- Two records acknowledged with one locator have one value. -/
theorem valueOf_eq_of_acked {t : Session} (h : Inv t) {a b : WalRecordRef × WalRecord}
    (ha : a ∈ t.acked) (hb : b ∈ t.acked) (he : a.1 = b.1) : valueOf a.2 = valueOf b.2 := by
  have hread := h.readValue a ha
  rw [he, h.readValue b hb] at hread
  exact (Except.ok.inj hread).symm

theorem Served.readsOwn (h : Served s) : ReadsOwn s := by
  constructor
  · intro r hr v hv a ha he
    obtain ⟨b, hb, hbr, hphase⟩ := h.calls r hr
    rw [hv] at hphase
    exact hphase.trans (valueOf_eq_of_acked h.inv hb ha (hbr.trans he.symm))
  · intro ref v hv a ha he
    obtain ⟨b, hb, hbr, hval⟩ := h.cached ref v hv
    exact hval.trans (valueOf_eq_of_acked h.inv hb ha (hbr.trans he.symm))

/-- No record stands in a generation after the active one. -/
theorem gen_le_activeGen {m : PartitionedWalManager} {a : WalRecordRef × WalRecord} (hok : Ok m)
    (h : Good m a) : a.1.gen ≤ m.activeGen a.1.partId := by
  obtain ⟨p, hp⟩ := Option.ne_none_iff_exists'.mp h.managed
  have hgen : m.activeGen a.1.partId = p.gen := by simp [PartitionedWalManager.activeGen, hp]
  by_contra hlt
  rw [hgen, not_le] at hlt
  have hlog : log m a.1.file = [] := by
    have hcontent := hok.later _ p hp _ hlt
    rw [log, WalRecordRef.file, hcontent, buffered, hp]
    exact if_neg hlt.ne
  have hlen := length_of_prefix h.placed.inLog
  have hge := frameLength_ge a.2
  rw [hlog] at hlen
  simp at hlen
  omega

/-- A step of the session that keeps what it has acknowledged and the phases of the calls. -/
theorem served_session (h : Served s) {t : Session} (ht : Inv t)
    (hacked : s.session.acked ⊆ t.acked)
    (hphase : ∀ r ∈ s.readers, ∀ a ∈ s.session.acked, a.1 = r.ref →
      PhaseOk s.session.mgr a r.phase → PhaseOk t.mgr a r.phase) :
    Served { s with session := t } := by
  refine ⟨ht, ?_, ?_⟩
  · intro ref v hv
    obtain ⟨a, ha, he, hval⟩ := h.cached ref v hv
    exact ⟨a, hacked ha, he, hval⟩
  · intro r hr
    obtain ⟨a, ha, he, hp⟩ := h.calls r hr
    exact ⟨a, hacked ha, he, hphase r hr a ha he hp⟩

theorem phaseOk_congr {m m' : PartitionedWalManager} {a : WalRecordRef × WalRecord} {ph : Phase}
    (hgen : m'.activeGen a.1.partId = m.activeGen a.1.partId) (h : PhaseOk m a ph) :
    PhaseOk m' a ph := by
  cases ph with
  | read active =>
    rw [PhaseOk, hgen]
    exact h
  | done res => cases res <;> exact h
  | lookup => trivial
  | test => trivial
  | insert v => exact h

private theorem served_append (h : Served s) {part : ℕ} {r : WalRecord}
    (hok : r.frameLength < 2 ^ 32) : Served (s.step (.append part r)) := by
  have hinv := inv_step s.session (.append part r) hok h.inv
  cases ha : s.session.mgr.append part r with
  | mk res m =>
    cases res with
    | ok ref =>
      have hstep : s.session.step (.append part r) = ⟨m, (ref, r) :: s.session.acked⟩ := by
        rw [Session.step, ha]
      refine served_session h hinv ?_ ?_
      · rw [hstep]
        exact List.subset_cons_self _ _
      · intro r' _ a _ _ hp
        refine phaseOk_congr ?_ hp
        rw [hstep]
        exact (append_ok ha).2.2.2.1 _
    | error e =>
      have hstep : s.session.step (.append part r) = ⟨m, s.session.acked⟩ := by
        rw [Session.step, ha]
      refine served_session h hinv ?_ ?_
      · rw [hstep]
        exact List.Subset.refl _
      · intro r' _ a _ _ hp
        refine phaseOk_congr ?_ hp
        rw [hstep]
        obtain rfl := append_error ha
        rfl

private theorem served_freeze (h : Served s) {part : ℕ} (hok : StepOk s (.freeze part)) :
    Served (s.step (.freeze part)) := by
  obtain ⟨hwrap, hcalls⟩ := hok
  refine served_session h (inv_step s.session (.freeze part) hwrap h.inv) (List.Subset.refl _) ?_
  intro r hr a ha he hp
  have hgen : (s.session.step (.freeze part)).mgr.activeGen a.1.partId =
      (s.session.mgr.freeze part).2.activeGen a.1.partId := rfl
  rw [activeGen_freeze] at hgen
  split at hgen
  next hpart =>
    -- the partition goes on in a generation after the record's
    have hle := gen_le_activeGen h.inv.ok (h.inv.good a ha)
    rw [hpart.1, Nat.mod_eq_of_lt hwrap] at hgen
    rw [hpart.1] at hle
    cases hph : r.phase with
    | read active =>
      rw [hph, PhaseOk] at hp
      rw [PhaseOk, hpart.1, hgen]
      cases active with
      | true =>
        have hne := hcalls r hr hph
        rw [← he] at hne
        exact absurd hpart.1 hne
      | false =>
        symm
        rw [decide_eq_false_iff_not]
        omega
    | done res =>
      rw [hph] at hp
      cases res <;> exact hp
    | lookup => trivial
    | test => trivial
    | insert v =>
      rw [hph] at hp
      exact hp
  next => exact phaseOk_congr hgen hp

/-- What a call reads after its test is the value of its record. -/
private theorem phaseOk_next (h : Served s) {r : Reader} {a : WalRecordRef × WalRecord}
    (ha : a ∈ s.session.acked) (he : a.1 = r.ref) (hp : PhaseOk s.session.mgr a r.phase) :
    ∃ b ∈ s.session.acked, b.1 = r.ref ∧ PhaseOk s.session.mgr b (s.next r.ref r.phase) := by
  have hread := h.inv.readValue a ha
  have hmanaged := (h.inv.good a ha).managed
  rw [ReadPaths.readValue] at hread
  cases hph : r.phase with
  | lookup =>
    rw [ReadRun.next]
    split
    next v hv =>
      split at hv
      · obtain ⟨b, hb, hbr, hval⟩ := h.cached _ v hv
        exact ⟨b, hb, hbr, hval⟩
      · cases hv
    next => exact ⟨a, ha, he, trivial⟩
  | test =>
    rw [ReadRun.next]
    split
    next =>
      refine ⟨a, ha, he, ?_⟩
      rw [← he]
      rfl
    next => exact ⟨a, ha, he, trivial⟩
  | read active =>
    refine ⟨a, ha, he, ?_⟩
    have hhas : ¬ s.session.mgr.hasPartition a.1.partId = false := by
      rw [PartitionedWalManager.hasPartition, Bool.not_eq_false, Option.isSome_iff_ne_none]
      exact hmanaged
    rw [if_neg hhas] at hread
    rw [hph, PhaseOk] at hp
    rw [← he]
    cases active with
    | true =>
      rw [if_pos (of_decide_eq_true hp.symm)] at hread
      rw [ReadRun.next, hread]
      rfl
    | false =>
      rw [if_neg (of_decide_eq_false hp.symm)] at hread
      rw [ReadRun.next, ReadRun.readSealed]
      split
      · split
        · rw [hread]
          rfl
        · trivial
      · trivial
  | insert v =>
    rw [hph] at hp
    exact ⟨a, ha, he, hp⟩
  | done res =>
    rw [hph] at hp
    exact ⟨a, ha, he, hp⟩

private theorem served_advance (h : Served s) (i : ℕ) : Served (s.step (.advance i)) := by
  rw [ReadRun.step]
  cases hr : s.readers[i]? with
  | none => exact h
  | some r =>
    have hmem : r ∈ s.readers := List.mem_of_getElem? hr
    obtain ⟨a, ha, he, hp⟩ := h.calls r hmem
    refine ⟨h.inv, ?_, ?_⟩
    · intro ref v hv
      dsimp only at hv
      rw [ReadRun.filled] at hv
      split at hv
      next w hw =>
        split at hv
        · rw [lookup_insert_eq] at hv
          split at hv
          next href =>
            cases hv
            rw [hw] at hp
            exact ⟨a, ha, he.trans href.symm, hp⟩
          next => exact h.cached ref v hv
        · exact h.cached ref v hv
      next => exact h.cached ref v hv
    · intro r' hr'
      obtain hold | rfl := List.mem_or_eq_of_mem_set hr'
      · exact h.calls r' hold
      · exact phaseOk_next h ha he hp

theorem served_step (s : ReadRun) (op : ReadOp) (hok : StepOk s op) (h : Served s) :
    Served (s.step op) := by
  cases op with
  | append part r => exact served_append h hok
  | sync part =>
    refine served_session h (inv_step s.session (.sync part) trivial h.inv) (List.Subset.refl _) ?_
    exact fun r _ a _ _ hp => phaseOk_congr (activeGen_sync _ _ _) hp
  | freeze part => exact served_freeze h hok
  | register f => exact ⟨h.inv, h.cached, h.calls⟩
  | release f => exact ⟨h.inv, h.cached, h.calls⟩
  | evict ref =>
    refine ⟨h.inv, ?_, h.calls⟩
    intro ref' v hv
    dsimp only [ReadRun.step] at hv
    rw [lookup_erase_eq] at hv
    split at hv
    · cases hv
    · exact h.cached ref' v hv
  | begin n =>
    rw [ReadRun.step]
    cases hn : s.session.acked[n]? with
    | none => exact h
    | some a =>
      refine ⟨h.inv, h.cached, ?_⟩
      intro r hr
      obtain hr | hr := List.mem_append.mp hr
      · exact h.calls r hr
      · obtain rfl := List.mem_singleton.mp hr
        exact ⟨a, List.mem_of_getElem? hn, rfl, trivial⟩
  | advance i => exact served_advance h i

theorem served_start (partitions target : ℕ) (cacheEnabled : Bool) :
    Served (ReadRun.start partitions target cacheEnabled) := by
  refine ⟨inv_start partitions target, ?_, ?_⟩
  · intro ref v hv
    cases hv
  · intro r hr
    cases hr

/-- In a run in which no partition is frozen under a call that has tested and not read, values
and cached values are those of their locators. -/
theorem readsOwn_of_guarded (partitions target : ℕ) (cacheEnabled : Bool) (ops : List ReadOp)
    (hok : Guarded ReadRun.step StepOk (ReadRun.start partitions target cacheEnabled) ops) :
    ReadsOwn (run ReadRun.step (ReadRun.start partitions target cacheEnabled) ops) :=
  (invariant_run served_step (served_start partitions target cacheEnabled) hok).readsOwn

/-- Two calls, one of them over a freeze, and a third one that finds the cached value. -/
def readsAroundFreeze : List ReadOp :=
  [.append 0 ⟨[0x61], [0x62], kTypeValue, 1⟩, .begin 0, .advance 0, .advance 0, .advance 0,
    .begin 0, .advance 1, .freeze 0, .register (0, 0), .append 0 ⟨[0x61], [0x63], kTypeValue, 2⟩,
    .advance 1, .advance 1, .advance 1, .advance 0, .begin 1, .advance 2]

theorem readsOwn_of_readsAroundFreeze :
    Guarded ReadRun.step StepOk (ReadRun.start 1 64 true) readsAroundFreeze ∧
      ReadsOwn (run ReadRun.step (ReadRun.start 1 64 true) readsAroundFreeze) :=
  have h : Guarded ReadRun.step StepOk (ReadRun.start 1 64 true) readsAroundFreeze := by
    decide +kernel
  ⟨h, readsOwn_of_guarded 1 64 true readsAroundFreeze h⟩

/-- The partition is frozen and written to between the test of a call and its read. -/
def freezeUnderRead : List ReadOp :=
  [.append 0 ⟨[0x61], [0x62], kTypeValue, 1⟩, .begin 0, .advance 0, .advance 0, .freeze 0,
    .append 0 ⟨[0x61], [0x63], kTypeValue, 2⟩, .advance 0, .advance 0]

/-- The call returns the value of the record at its offset in the next generation, and the value
cache keeps it. -/
theorem readsOwn_fails :
    (run ReadRun.step (ReadRun.start 1 64 true) freezeUnderRead).readers =
        [⟨⟨0, 0, 0⟩, .done (.ok [0x63])⟩] ∧
      (run ReadRun.step (ReadRun.start 1 64 true) freezeUnderRead).valueCache.lookup ⟨0, 0, 0⟩ =
        some [0x63] ∧
      (⟨0, 0, 0⟩, ⟨[0x61], [0x62], kTypeValue, 1⟩) ∈
        (run ReadRun.step (ReadRun.start 1 64 true) freezeUnderRead).session.acked ∧
      ¬ ReadsOwn (run ReadRun.step (ReadRun.start 1 64 true) freezeUnderRead) := by
  have hcalls : (run ReadRun.step (ReadRun.start 1 64 true) freezeUnderRead).readers =
      [⟨⟨0, 0, 0⟩, .done (.ok [0x63])⟩] := by decide +kernel
  have hcache : (run ReadRun.step (ReadRun.start 1 64 true) freezeUnderRead).valueCache.lookup
      ⟨0, 0, 0⟩ = some [0x63] := by decide +kernel
  have hacked : (⟨0, 0, 0⟩, ⟨[0x61], [0x62], kTypeValue, 1⟩) ∈
      (run ReadRun.step (ReadRun.start 1 64 true) freezeUnderRead).session.acked := by
    decide +kernel
  refine ⟨hcalls, hcache, hacked, fun howns => ?_⟩
  have hvalue := howns.2 ⟨0, 0, 0⟩ [0x63] hcache _ hacked rfl
  revert hvalue
  decide

end ZeroFlush.ValueReads
