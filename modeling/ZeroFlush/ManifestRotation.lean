import Mathlib.Data.List.Basic
import Mathlib.Logic.Function.Basic
import Mathlib.Order.MinMax
import ZeroFlush.GuardedRuns

/-! # Manifest rotation and the repair of CURRENT

Version edits are appended to the manifest that CURRENT names. A rotation writes the whole state to
a new manifest, syncs it, switches CURRENT and deletes the old manifest. Before the engine recovers,
`Open` makes CURRENT name the manifest with the largest number. -/
namespace ZeroFlush.ManifestRotation
open GuardedRuns

variable {E : Type*}

/-- The records of a manifest, one for each version edit, of which the first `synced` are on disk. -/
structure Manifest (E : Type*) where
  records : List E := []
  synced : ℕ := 0
  deriving DecidableEq, Repr

/-- What the manifest writer is doing. -/
inductive Phase (E : Type*)
  | idle
  | appended (e : E)
  | writing (n : ℕ) (batch todo : List E)
  | ready (n : ℕ) (batch : List E)
  | switched (old : ℕ)

/-- The manifests of a database; their numbers are below `nextFileNumber`. `applied` are the edits
that make up the state in memory, `committed` those of every `LogAndApply` that has ever returned. -/
structure ManifestDir (E : Type*) where
  files : ℕ → Option (Manifest E)
  nextFileNumber : ℕ
  current : ℕ
  applied : List E
  committed : List E
  phase : Phase E

/-- A crash: which files other than the one CURRENT names are lost, and how many records of every
file have reached the disk beyond those that were synced. -/
structure Crash where
  lost : ℕ → Bool
  kept : ℕ → ℕ

namespace ManifestDir

/-- The database as `NewDB` leaves it. -/
def newDb (initial : List E) : ManifestDir E where
  files := Function.update (fun _ => none) 1 (some ⟨initial, initial.length⟩)
  nextFileNumber := 2
  current := 1
  applied := initial
  committed := initial
  phase := .idle

def modify (d : ManifestDir E) (n : ℕ) (f : Manifest E → Manifest E) : ManifestDir E :=
  { d with files := Function.update d.files n ((d.files n).map f) }

/-- `AddRecord`. -/
def addRecord (d : ManifestDir E) (n : ℕ) (e : E) : ManifestDir E :=
  d.modify n fun m => { m with records := m.records ++ [e] }

/-- `SyncManifest`. -/
def syncManifest (d : ManifestDir E) (n : ℕ) : ManifestDir E :=
  d.modify n fun m => { m with synced := m.records.length }

/-- The children of the directory that are manifests. -/
def children (d : ManifestDir E) : List ℕ :=
  (List.range d.nextFileNumber).filter fun n => (d.files n).isSome

/-- `max_mfn`. -/
def maxManifest (d : ManifestDir E) : ℕ := d.children.foldl max 0

/-- The repair at the start of `Open`. -/
def repair (d : ManifestDir E) : ManifestDir E :=
  if d.maxManifest > d.current then { d with current := d.maxManifest } else d

/-- What a crash leaves of a manifest. -/
def survivor (d : ManifestDir E) (c : Crash) (n : ℕ) : Option (Manifest E) :=
  match d.files n with
  | none => none
  | some m =>
    if c.lost n ∧ n ≠ d.current then none
    else
      let records := m.records.take (max m.synced (c.kept n))
      some ⟨records, records.length⟩

def afterCrash (d : ManifestDir E) (c : Crash) : ManifestDir E :=
  { d with files := d.survivor c, phase := .idle }

/-- `Recover` takes the state that the manifest named by CURRENT describes. -/
def recover (d : ManifestDir E) : ManifestDir E :=
  { d with applied := ((d.files d.current).map Manifest.records).getD [] }

end ManifestDir

inductive ManifestOp (E : Type*)
  | append (e : E)
  | sync
  | create (gap : ℕ) (batch : List E)
  | write
  | switch
  | deleteOld
  | crash (c : Crash)

/-- The steps of the manifest writer; one that does not fit the phase changes nothing. -/
def step (d : ManifestDir E) : ManifestOp E → ManifestDir E
  | .append e =>
    match d.phase with
    | .idle => { d.addRecord d.current e with phase := .appended e }
    | _ => d
  | .sync =>
    match d.phase with
    | .appended e =>
      { d.syncManifest d.current with
        applied := d.applied ++ [e], committed := d.committed ++ [e], phase := .idle }
    | .writing n batch [] => { d.syncManifest n with phase := .ready n batch }
    | _ => d
  | .create gap batch =>
    match d.phase with
    | .idle =>
      let n := d.nextFileNumber + gap
      { d with
        files := Function.update d.files n (some {})
        nextFileNumber := n + 1
        phase := .writing n batch (d.applied ++ batch) }
    | _ => d
  | .write =>
    match d.phase with
    | .writing n batch (e :: todo) => { d.addRecord n e with phase := .writing n batch todo }
    | _ => d
  | .switch =>
    match d.phase with
    | .ready n batch =>
      { d with
        current := n, applied := d.applied ++ batch, committed := d.committed ++ batch,
        phase := .switched d.current }
    | _ => d
  | .deleteOld =>
    match d.phase with
    | .switched old => { d with files := Function.update d.files old none, phase := .idle }
    | _ => d
  | .crash c => (d.afterCrash c).repair.recover

/-- CURRENT names a manifest that describes every committed edit. -/
def Complete (d : ManifestDir E) : Prop :=
  ∃ m, d.files d.current = some m ∧ ∀ e ∈ d.committed, e ∈ m.records

/-- No manifest above CURRENT is left without the record of a committed edit. -/
def LeavesComplete (d : ManifestDir E) (c : Crash) : Prop :=
  ∀ n m, d.current < n → d.survivor c n = some m → ∀ e ∈ d.committed, e ∈ m.records

/-- The condition on a step: a crash leaves no incomplete manifest above CURRENT. -/
def StepOk (d : ManifestDir E) : ManifestOp E → Prop
  | .crash c => LeavesComplete d c
  | _ => True

/-- No manifest has a larger number than CURRENT. -/
def NoneAbove (d : ManifestDir E) : Prop := ∀ n, d.current < n → d.files n = none

/-- The only manifest above CURRENT. -/
structure Next (files : ℕ → Option (Manifest E)) (current n : ℕ) (m : Manifest E) : Prop where
  file : files n = some m
  above : current < n
  only : ∀ k, current < k → k ≠ n → files k = none

/-- The state of the directory in each phase. -/
def PhaseOk (d : ManifestDir E) : Phase E → Prop
  | .idle => NoneAbove d
  | .appended e => NoneAbove d ∧ ∀ m, d.files d.current = some m → e ∈ m.records
  | .writing n batch todo => ∃ m, Next d.files d.current n m ∧ m.records ++ todo = d.applied ++ batch
  | .ready n batch =>
    ∃ m, Next d.files d.current n m ∧ m.records = d.applied ++ batch ∧ m.synced = m.records.length
  | .switched old => NoneAbove d ∧ old ≠ d.current

/-- What holds in every state: the committed edits are on disk in the manifest that CURRENT names. -/
structure Durable (d : ManifestDir E) : Prop where
  below : ∀ n m, d.files n = some m → n < d.nextFileNumber
  synced : ∃ m, d.files d.current = some m ∧ ∀ e ∈ d.committed, e ∈ m.records.take m.synced
  known : ∀ e ∈ d.committed, e ∈ d.applied
  phase : PhaseOk d d.phase

variable {d : ManifestDir E}

theorem durable_newDb (initial : List E) : Durable (ManifestDir.newDb initial) := by
  have hne : ∀ n, n ≠ 1 → (ManifestDir.newDb initial).files n = none := by
    intro n hn
    simp [ManifestDir.newDb, Function.update_of_ne hn]
  refine ⟨?_, ⟨⟨initial, initial.length⟩, rfl, ?_⟩, ?_, ?_⟩
  · intro n m hm
    by_cases hn : n = 1
    · subst hn
      exact Nat.one_lt_two
    · cases (hne n hn).symm.trans hm
  · intro e he
    rwa [List.take_length]
  · exact fun e he => he
  · intro n hn
    exact hne n (Nat.ne_of_gt hn)

theorem files_modify (d : ManifestDir E) (n k : ℕ) (f : Manifest E → Manifest E) :
    (d.modify n f).files k = if k = n then (d.files n).map f else d.files k := by
  simp only [ManifestDir.modify, Function.update_apply]

theorem modify_of_ne {n k : ℕ} (h : k ≠ n) (d : ManifestDir E) (f : Manifest E → Manifest E) :
    (d.modify n f).files k = d.files k := by
  rw [files_modify, if_neg h]

theorem below_modify (h : ∀ n m, d.files n = some m → n < d.nextFileNumber) (n : ℕ)
    (f : Manifest E → Manifest E) (k : ℕ) (m : Manifest E) (hm : (d.modify n f).files k = some m) :
    k < d.nextFileNumber := by
  rw [files_modify] at hm
  split at hm
  next hk =>
    subst hk
    obtain ⟨m', hm', -⟩ := Option.map_eq_some_iff.mp hm
    exact h k m' hm'
  next => exact h k m hm

theorem noneAbove_modify (h : NoneAbove d) (f : Manifest E → Manifest E) (k : ℕ)
    (hk : d.current < k) : (d.modify d.current f).files k = none := by
  rw [modify_of_ne (Nat.ne_of_gt hk)]
  exact h k hk

/-- The new manifest is changed and stays the only one above CURRENT. -/
theorem Next.modify {n : ℕ} {m : Manifest E} (h : Next d.files d.current n m)
    (f : Manifest E → Manifest E) : Next (d.modify n f).files d.current n (f m) := by
  refine ⟨?_, h.above, ?_⟩
  · rw [files_modify, if_pos rfl, h.file, Option.map_some]
  · intro k hk hne
    rw [modify_of_ne hne]
    exact h.only k hk hne

theorem known_append (h : ∀ e ∈ d.committed, e ∈ d.applied) (es : List E) :
    ∀ e ∈ d.committed ++ es, e ∈ d.applied ++ es := by
  intro e he
  cases List.mem_append.mp he with
  | inl he => exact List.mem_append_left _ (h e he)
  | inr he => exact List.mem_append_right _ he

theorem durable_append (h : Durable d) (hp : d.phase = .idle) (e : E) :
    Durable { d.addRecord d.current e with phase := .appended e } := by
  have hphase := h.phase
  rw [hp] at hphase
  obtain ⟨m, hm, hsync⟩ := h.synced
  have hfile : (d.addRecord d.current e).files d.current =
      some { m with records := m.records ++ [e] } := by
    rw [ManifestDir.addRecord, files_modify, if_pos rfl, hm, Option.map_some]
  refine ⟨below_modify h.below _ _, ⟨_, hfile, ?_⟩, h.known, noneAbove_modify hphase _, ?_⟩
  · intro x hx
    rw [List.take_append]
    exact List.mem_append_left _ (hsync x hx)
  · intro m' hm'
    cases hfile.symm.trans hm'
    simp

/-- The appended edit is on disk and counts. -/
theorem durable_syncAppended (h : Durable d) {e : E} (hp : d.phase = .appended e) :
    Durable { d.syncManifest d.current with
      applied := d.applied ++ [e], committed := d.committed ++ [e], phase := .idle } := by
  have hphase := h.phase
  rw [hp] at hphase
  obtain ⟨hnone, hmem⟩ := hphase
  obtain ⟨m, hm, hsync⟩ := h.synced
  have hfile : (d.syncManifest d.current).files d.current =
      some { m with synced := m.records.length } := by
    rw [ManifestDir.syncManifest, files_modify, if_pos rfl, hm, Option.map_some]
  refine ⟨below_modify h.below _ _, ⟨_, hfile, ?_⟩, ?_, noneAbove_modify hnone _⟩
  · intro x hx
    rw [List.take_length]
    cases List.mem_append.mp hx with
    | inl hx => exact List.mem_of_mem_take (hsync x hx)
    | inr hx =>
      rw [List.mem_singleton.mp hx]
      exact hmem m hm
  · exact known_append h.known [e]

/-- All records of the new manifest are on disk. -/
theorem durable_syncWritten (h : Durable d) {n : ℕ} {batch : List E}
    (hp : d.phase = .writing n batch []) :
    Durable { d.syncManifest n with phase := .ready n batch } := by
  have hphase := h.phase
  rw [hp] at hphase
  obtain ⟨m', hnext, hrecords⟩ := hphase
  obtain ⟨m, hm, hsync⟩ := h.synced
  rw [List.append_nil] at hrecords
  refine ⟨below_modify h.below _ _, ⟨m, ?_, hsync⟩, h.known, _, hnext.modify _, hrecords, rfl⟩
  exact (modify_of_ne (Nat.ne_of_lt hnext.above) d _).trans hm

theorem durable_create (h : Durable d) (hp : d.phase = .idle) (gap : ℕ) (batch : List E) :
    Durable { d with
      files := Function.update d.files (d.nextFileNumber + gap) (some {})
      nextFileNumber := d.nextFileNumber + gap + 1
      phase := .writing (d.nextFileNumber + gap) batch (d.applied ++ batch) } := by
  have hphase := h.phase
  rw [hp] at hphase
  obtain ⟨m, hm, hsync⟩ := h.synced
  have hcur := h.below _ _ hm
  refine ⟨?_, ⟨m, ?_, hsync⟩, h.known, {}, ⟨Function.update_self _ _ _, ?_, ?_⟩, rfl⟩
  · intro k m' hm'
    by_cases hk : k = d.nextFileNumber + gap
    · exact hk ▸ Nat.lt_succ_self _
    · have hk' := h.below k m' ((Function.update_of_ne hk _ _).symm.trans hm')
      dsimp only
      omega
  · rw [← hm]
    exact Function.update_of_ne (by dsimp only; omega) _ _
  · dsimp only
    omega
  · intro k hk hne
    exact (Function.update_of_ne hne _ _).trans (hphase k hk)

theorem durable_write (h : Durable d) {n : ℕ} {batch todo : List E} {e : E}
    (hp : d.phase = .writing n batch (e :: todo)) :
    Durable { d.addRecord n e with phase := .writing n batch todo } := by
  have hphase := h.phase
  rw [hp] at hphase
  obtain ⟨m', hnext, hrecords⟩ := hphase
  obtain ⟨m, hm, hsync⟩ := h.synced
  refine ⟨below_modify h.below _ _, ⟨m, ?_, hsync⟩, h.known, _, hnext.modify _, ?_⟩
  · exact (modify_of_ne (Nat.ne_of_lt hnext.above) d _).trans hm
  · dsimp only
    rw [List.append_assoc]
    exact hrecords

theorem durable_switch (h : Durable d) {n : ℕ} {batch : List E} (hp : d.phase = .ready n batch) :
    Durable { d with
      current := n, applied := d.applied ++ batch, committed := d.committed ++ batch,
      phase := .switched d.current } := by
  have hphase := h.phase
  rw [hp] at hphase
  obtain ⟨m, hnext, hrecords, hsynced⟩ := hphase
  have hknown := known_append h.known batch
  refine ⟨h.below, ⟨m, hnext.file, ?_⟩, hknown, ?_, Nat.ne_of_lt hnext.above⟩
  · intro e he
    rw [hsynced, List.take_length, hrecords]
    exact hknown e he
  · intro k hk
    exact hnext.only k (Nat.lt_trans hnext.above hk) (Nat.ne_of_gt hk)

theorem durable_deleteOld (h : Durable d) {old : ℕ} (hp : d.phase = .switched old) :
    Durable { d with files := Function.update d.files old none, phase := .idle } := by
  have hphase := h.phase
  rw [hp] at hphase
  obtain ⟨hnone, hne⟩ := hphase
  obtain ⟨m, hm, hsync⟩ := h.synced
  refine ⟨?_, ⟨m, ?_, hsync⟩, h.known, ?_⟩
  · intro k m' hm'
    by_cases hk : k = old
    · subst hk
      cases (Function.update_self _ _ _).symm.trans hm'
    · exact h.below k m' ((Function.update_of_ne hk _ _).symm.trans hm')
  · exact (Function.update_of_ne hne.symm _ _).trans hm
  · intro k hk
    by_cases hko : k = old
    · exact hko ▸ Function.update_self _ _ _
    · exact (Function.update_of_ne hko _ _).trans (hnone k hk)

section repair

theorem le_foldl_max (l : List ℕ) (a : ℕ) : a ≤ l.foldl max a ∧ ∀ n ∈ l, n ≤ l.foldl max a := by
  induction l generalizing a with
  | nil => simp
  | cons x l ih =>
    obtain ⟨ha, hl⟩ := ih (max a x)
    refine ⟨(le_max_left a x).trans ha, ?_⟩
    intro n hn
    cases List.mem_cons.mp hn with
    | inl he => exact he ▸ (le_max_right a x).trans ha
    | inr hn => exact hl n hn

theorem foldl_max_mem (l : List ℕ) (a : ℕ) : l.foldl max a = a ∨ l.foldl max a ∈ l := by
  induction l generalizing a with
  | nil => exact .inl rfl
  | cons x l ih =>
    cases ih (max a x) with
    | inr h => exact .inr (List.mem_cons_of_mem _ h)
    | inl h =>
      rw [List.foldl_cons, h]
      cases max_choice a x with
      | inl ha => exact .inl ha
      | inr hx => exact .inr (by simp [hx])

theorem mem_children {n : ℕ} :
    n ∈ d.children ↔ n < d.nextFileNumber ∧ ∃ m, d.files n = some m := by
  rw [ManifestDir.children, List.mem_filter, List.mem_range, Option.isSome_iff_exists]

/-- Nothing above CURRENT: the repair changes nothing. -/
theorem repair_of_noneAbove (h : NoneAbove d) : d.repair = d := by
  rw [ManifestDir.repair, if_neg]
  intro hgt
  cases foldl_max_mem d.children 0 with
  | inl hzero =>
    rw [ManifestDir.maxManifest, hzero] at hgt
    exact absurd hgt (Nat.not_lt_zero _)
  | inr hmem =>
    obtain ⟨-, m, hm⟩ := mem_children.mp hmem
    cases (h _ hgt).symm.trans hm

/-- One manifest above CURRENT: the repair chooses it. -/
theorem repair_of_next {n : ℕ} {m : Manifest E} (h : Next d.files d.current n m)
    (hlt : n < d.nextFileNumber) : d.repair = { d with current := n } := by
  have hle : n ≤ d.maxManifest :=
    (le_foldl_max d.children 0).2 n (mem_children.mpr ⟨hlt, m, h.file⟩)
  have heq : d.maxManifest = n := by
    by_contra hne
    cases foldl_max_mem d.children 0 with
    | inl hzero =>
      have hpos := h.above
      rw [ManifestDir.maxManifest, hzero] at hle
      omega
    | inr hmem =>
      obtain ⟨-, m', hm'⟩ := mem_children.mp hmem
      cases (h.only _ (Nat.lt_of_lt_of_le h.above hle) hne).symm.trans hm'
  rw [ManifestDir.repair, if_pos (heq ▸ h.above), heq]

end repair

section crash
variable {c : Crash}

theorem survivor_of_none {n : ℕ} (h : d.files n = none) : d.survivor c n = none := by
  rw [ManifestDir.survivor, h]

theorem below_afterCrash (h : Durable d) (n : ℕ) (m : Manifest E)
    (hm : (d.afterCrash c).files n = some m) : n < d.nextFileNumber := by
  cases hf : d.files n with
  | none => cases (survivor_of_none hf).symm.trans hm
  | some m' => exact h.below n m' hf

/-- The manifest that CURRENT names keeps what was synced. -/
theorem survivor_current (h : Durable d) : ∃ m, d.survivor c d.current = some m ∧
    m.synced = m.records.length ∧ ∀ e ∈ d.committed, e ∈ m.records := by
  obtain ⟨m, hm, hsync⟩ := h.synced
  refine ⟨⟨m.records.take (max m.synced (c.kept d.current)),
    (m.records.take (max m.synced (c.kept d.current))).length⟩, ?_, rfl, ?_⟩
  · rw [ManifestDir.survivor, hm]
    simp
  · intro e he
    exact (List.take_subset_take_left _ (le_max_left _ _)) (hsync e he)

/-- A crash leaves at most one manifest above CURRENT. -/
theorem crash_cases (h : Durable d) (c : Crash) : NoneAbove (d.afterCrash c) ∨
    ∃ n m, Next (d.afterCrash c).files d.current n m := by
  have hnone : NoneAbove d → NoneAbove (d.afterCrash c) :=
    fun hd n hn => survivor_of_none (hd n hn)
  have hnext : ∀ n m, Next d.files d.current n m → NoneAbove (d.afterCrash c) ∨
      ∃ n m, Next (d.afterCrash c).files d.current n m := by
    intro n m hm
    cases hs : d.survivor c n with
    | some m' =>
      exact .inr ⟨n, m', hs, hm.above, fun k hk hne => survivor_of_none (hm.only k hk hne)⟩
    | none =>
      refine .inl ?_
      intro k hk
      by_cases hkn : k = n
      · exact hkn ▸ hs
      · exact survivor_of_none (hm.only k hk hkn)
  have hphase := h.phase
  cases hp : d.phase with
  | idle =>
    rw [hp] at hphase
    exact .inl (hnone hphase)
  | appended e =>
    rw [hp] at hphase
    exact .inl (hnone hphase.1)
  | writing n batch todo =>
    rw [hp] at hphase
    obtain ⟨m, hm, -⟩ := hphase
    exact hnext n m hm
  | ready n batch =>
    rw [hp] at hphase
    obtain ⟨m, hm, -⟩ := hphase
    exact hnext n m hm
  | switched old =>
    rw [hp] at hphase
    exact .inl (hnone hphase.1)

/-- After the repair CURRENT names a complete manifest exactly if the crash left no incomplete one
above CURRENT. -/
theorem complete_repair_iff (h : Durable d) (c : Crash) :
    Complete (d.afterCrash c).repair ↔ LeavesComplete d c := by
  obtain hnone | ⟨n, m, hnext⟩ := crash_cases h c
  · rw [repair_of_noneAbove hnone]
    obtain ⟨m, hm, -, hall⟩ := survivor_current (c := c) h
    refine ⟨fun _ n m' hn hm' => ?_, fun _ => ⟨m, hm, hall⟩⟩
    cases (hnone n hn).symm.trans hm'
  · rw [repair_of_next hnext (below_afterCrash h n m hnext.file)]
    constructor
    · rintro ⟨m', hm', hall⟩ k m'' hk hm''
      by_cases hkn : k = n
      · subst hkn
        cases hm'.symm.trans hm''
        exact hall
      · cases (hnext.only k hk hkn).symm.trans hm''
    · intro hleaves
      exact ⟨m, hnext.file, hleaves n m hnext.above hnext.file⟩

theorem synced_survivor {n : ℕ} {m : Manifest E} (hm : d.survivor c n = some m) :
    m.synced = m.records.length := by
  rw [ManifestDir.survivor] at hm
  split at hm
  · cases hm
  · split at hm
    · cases hm
    · cases hm
      rfl

theorem durable_crash (h : Durable d) (hc : LeavesComplete d c) :
    Durable (d.afterCrash c).repair.recover := by
  have hcomplete := (complete_repair_iff h c).mpr hc
  have hbelow := below_afterCrash (c := c) h
  -- the manifest chosen by the repair has the largest number, and all of it is on disk
  obtain ⟨n, hrepair, hnone⟩ : ∃ n, (d.afterCrash c).repair = { d.afterCrash c with current := n } ∧
      ∀ k, n < k → d.survivor c k = none := by
    obtain hnone | ⟨n, m, hnext⟩ := crash_cases h c
    · exact ⟨d.current, repair_of_noneAbove hnone, hnone⟩
    · refine ⟨n, repair_of_next hnext (hbelow n m hnext.file), ?_⟩
      intro k hk
      exact hnext.only k (Nat.lt_trans hnext.above hk) (Nat.ne_of_gt hk)
  rw [hrepair] at hcomplete ⊢
  obtain ⟨m, hm, hall⟩ := hcomplete
  refine ⟨hbelow, ⟨m, hm, ?_⟩, ?_, hnone⟩
  · rw [synced_survivor hm, List.take_length]
    exact hall
  · intro e he
    dsimp only [ManifestDir.recover] at hm ⊢
    rw [hm]
    exact hall e he

end crash

theorem durable_step (d : ManifestDir E) (op : ManifestOp E) (hok : StepOk d op)
    (h : Durable d) : Durable (step d op) := by
  -- a step that does not fit the phase changes nothing
  cases op with
  | append e =>
    rw [step]
    cases hp : d.phase with
    | idle => exact durable_append h hp e
    | _ => exact h
  | sync =>
    rw [step]
    cases hp : d.phase with
    | appended e => exact durable_syncAppended h hp
    | writing n batch todo =>
      cases todo with
      | nil => exact durable_syncWritten h hp
      | cons e todo => exact h
    | _ => exact h
  | create gap batch =>
    rw [step]
    cases hp : d.phase with
    | idle => exact durable_create h hp gap batch
    | _ => exact h
  | write =>
    rw [step]
    cases hp : d.phase with
    | writing n batch todo =>
      cases todo with
      | nil => exact h
      | cons e todo => exact durable_write h hp
    | _ => exact h
  | switch =>
    rw [step]
    cases hp : d.phase with
    | ready n batch => exact durable_switch h hp
    | _ => exact h
  | deleteOld =>
    rw [step]
    cases hp : d.phase with
    | switched old => exact durable_deleteOld h hp
    | _ => exact h
  | crash c => exact durable_crash h hok

/-- However often the database crashes: as long as no crash leaves an incomplete manifest above
CURRENT, the repair names a complete manifest, and it does so after a further crash exactly if that
one leaves no such manifest either. -/
theorem complete_iff (initial : List E) (ops : List (ManifestOp E))
    (hok : Guarded step StepOk (ManifestDir.newDb initial) ops) (c : Crash) :
    Complete ((run step (ManifestDir.newDb initial) ops).afterCrash c).repair ↔
      LeavesComplete (run step (ManifestDir.newDb initial) ops) c :=
  complete_repair_iff (invariant_run durable_step (durable_newDb initial) hok) c

/-- An edit is committed, and a rotation has synced the new manifest. -/
def rotated : List (ManifestOp ℕ) :=
  [.append 1, .sync, .create 0 [2], .write, .write, .write, .sync]

/-- A crash that keeps only what was synced. -/
def powerLoss : Crash := ⟨fun _ => false, fun _ => 0⟩

/-- A crash between the sync and the switch of CURRENT. -/
theorem complete_rotated :
    Complete ((run step (ManifestDir.newDb [0]) rotated).afterCrash powerLoss).repair := by
  refine (complete_iff [0] rotated (by simp [rotated, Guarded, StepOk]) powerLoss).mpr ?_
  intro n m hn hm e he
  have hfile : (run step (ManifestDir.newDb [0]) rotated).survivor powerLoss 2 =
      some ⟨[0, 1, 2], 3⟩ := rfl
  have hn2 : n = 2 := by
    by_contra hne
    have hn1 : n ≠ 1 := Nat.ne_of_gt hn
    simp [rotated, run, step, ManifestDir.newDb, ManifestDir.addRecord, ManifestDir.syncManifest,
      ManifestDir.modify, ManifestDir.survivor, hne, hn1] at hm
  subst hn2
  cases hfile.symm.trans hm
  exact List.mem_of_mem_take (i := 2) he

/-- A crash right after the new manifest has been created: CURRENT is made to name it. -/
theorem complete_fails :
    ¬ Complete ((run step (ManifestDir.newDb [0]) [.append 1, .sync, .create 0 [2]]).afterCrash
      powerLoss).repair := by
  rintro ⟨m, hm, hall⟩
  have hfile : ((run step (ManifestDir.newDb [0]) [.append 1, .sync, .create 0 [2]]).afterCrash
      powerLoss).repair.files 2 = some ⟨[], 0⟩ := rfl
  cases hfile.symm.trans hm
  exact absurd (hall 1 (by decide)) (by simp)

end ZeroFlush.ManifestRotation
