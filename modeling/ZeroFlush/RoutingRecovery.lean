import ZeroFlush.RoutingProps
import ZeroFlush.SealedEpochs
import ZeroFlush.WriteGroups

/-! # The partition tables across a reopen

`SealEpochAndSwitch` writes every version of the table to ZFPROPS when it installs a new one,
`FreezeBatchPartitions` does not. `Open` builds the first version from the options and installs the
others as ZFPROPS has them. -/
namespace ZeroFlush.RoutingRecovery
open FixedWidthCodec WalFormat WalFiles PartitionedWal WalOpening UserKeys PartitionTables Context
  ContextRuns SealedEpochs RoutingProps GuardedRuns WriteGroups

/-- The options that decide about the tables. -/
structure TableOptions where
  zfo : ZeroFlushOptions
  staticBoundaries : List Bytes := []
  useZfprops : Bool := true
  comparatorName : Bytes
  partitions_pos : 0 < zfo.partitions

def routingModeByte : RoutingMode → UInt8
  | .kHash => 0
  | .kStatic => 1
  | .kSampled => 2
  | .kAlignL1 => 3

/-- The boundaries are collected from `RangeOf`. -/
def tableInfo (version : ℕ) (t : PartitionTable) : ZfPropsTableInfo where
  version := version
  partitions := t.partitions
  partIds := t.partIds
  boundaries :=
    if t.isHashMode then [] else (List.range (t.partitions - 1)).map fun i => (t.rangeOf i).2

/-- What `PersistZfProps` writes: version 0 always without boundaries. -/
def zfProps (o : TableOptions) (tables : PartitionTableSet) : ZfPropsV2 where
  routingMode := routingModeByte o.zfo.routingMode
  comparatorName := o.comparatorName
  tables :=
    ⟨0, o.zfo.partitions, List.range o.zfo.partitions, []⟩ ::
      (List.range tables.currentVersion).filterMap fun i =>
        (tables.get? (i + 1)).map (tableInfo (i + 1))
  currentVersion := tables.currentVersion

/-- `PersistZfProps`, given the file as it is. -/
def persistZfProps (o : TableOptions) (tables : PartitionTableSet) (props : Option Bytes) :
    Option Bytes :=
  if o.useZfprops then some (encodeZfPropsV2 (zfProps o tables)) else props

/-- The first version of the table. -/
def initialTable (o : TableOptions) (ucmp : UserComparator) : Except Status PartitionTable :=
  match o.zfo.routingMode with
  | .kStatic =>
    if o.staticBoundaries.length ≠ o.zfo.partitions - 1 then
      .error (.invalidArgument "ZeroFlush: static_boundaries size must be partitions - 1")
    else PartitionTable.create 0 o.staticBoundaries ucmp
  | _ => .ok (PartitionTable.createHash 0 o.zfo.partitions o.partitions_pos)

/-- The checks of a decoded ZFPROPS against the options. -/
def checkZfProps (o : TableOptions) (decoded : ZfPropsV2) : Except Status Unit :=
  let existing := (decoded.tables.head?.map ZfPropsTableInfo.partitions).getD 0
  let requested := o.zfo.partitions
  if existing ≠ requested then
    .error (.invalidArgument (s!"ZeroFlush: ZFPROPS partitions mismatch (existing={existing}" ++
      s!", requested={requested}); cannot change partitions across reopens"))
  else if decoded.routingMode ≠ routingModeByte o.zfo.routingMode ∧
      ¬ (decoded.routingMode = 0 ∧
        (o.zfo.routingMode = .kSampled ∨ o.zfo.routingMode = .kAlignL1)) then
    .error (.invalidArgument "ZeroFlush: ZFPROPS routing_mode mismatch")
  else if decoded.formatVersion ≥ 2 ∧ decoded.comparatorName ≠ [] ∧
      decoded.comparatorName ≠ o.comparatorName then
    .error (.invalidArgument "ZeroFlush: ZFPROPS comparator mismatch")
  else .ok ()

/-- A table without boundaries is restored as a hash table. -/
def restoreTable (ucmp : UserComparator) (ti : ZfPropsTableInfo) : Option PartitionTable :=
  if ti.boundaries = [] then
    if h : 0 < ti.partitions then some (PartitionTable.createHash ti.version ti.partitions h)
    else none
  else (PartitionTable.create ti.version ti.boundaries ucmp).toOption

/-- A version that is there already, or cannot be built, is passed over. -/
def restoreStep (ucmp : UserComparator) (tables : PartitionTableSet) (ti : ZfPropsTableInfo) :
    PartitionTableSet :=
  if (tables.get? ti.version).isSome then tables
  else
    match restoreTable ucmp ti with
    | none => tables
    | some t => tables.installNewVersion t

def restoreTables (ucmp : UserComparator) (tables : PartitionTableSet) (decoded : ZfPropsV2) :
    PartitionTableSet :=
  if decoded.tables.length > 1 ∨
      decoded.tables.length = 1 ∧ (decoded.tables.head?.map ZfPropsTableInfo.version).getD 0 > 0 then
    decoded.tables.foldl (restoreStep ucmp) tables
  else tables

/-- `Open` reads at most 4 MiB of ZFPROPS. -/
def kZfPropsReadSize : ℕ := 4 * 1024 * 1024

/-- The tables `Open` builds; `walFiles` says whether there are WAL files. -/
def openTables (o : TableOptions) (ucmp : UserComparator) (props : Option Bytes) (walFiles : Bool) :
    Except Status PartitionTableSet :=
  match initialTable o ucmp with
  | .error e => .error e
  | .ok t =>
    if o.useZfprops then
      match props with
      | none => .ok (.init t)
      | some data =>
        match decodeZfPropsAuto (data.take kZfPropsReadSize) with
        | .error _ =>
          if walFiles then .error (.corruption "ZeroFlush: ZFPROPS corrupt but zfwal non-empty")
          else .ok (.init t)
        | .ok decoded =>
          match checkZfProps o decoded with
          | .error e => .error e
          | .ok _ => .ok (restoreTables ucmp (.init t) decoded)
    else .ok (.init t)

/-- A database and its ZFPROPS file. -/
structure Deployment where
  opts : TableOptions
  ctx : ZeroFlushContext
  props : Option Bytes

inductive RoutingOp
  | context (op : ContextOp)
  | reopen (cut : Option (FileId → ℕ)) (boundaries : List Bytes)

namespace Deployment

/-- The directory after the manager was closed, or after a crash. -/
def stopped (d : Deployment) : Option (FileId → ℕ) → PartitionedWalManager
  | none => d.ctx.wal.reopen
  | some cut => restart d.ctx.wal cut

/-- The options with other boundaries. -/
def withBoundaries (d : Deployment) (boundaries : List Bytes) : TableOptions :=
  { d.opts with staticBoundaries := boundaries }

/-- The tables with which the database would be opened again. -/
def reopenedTables (d : Deployment) (cut : Option (FileId → ℕ)) (boundaries : List Bytes) :
    Except Status PartitionTableSet :=
  openTables (d.withBoundaries boundaries) d.ctx.ucmp d.props
    (decide ((d.stopped cut).env.listFiles ≠ []))

/-- The first `Open` of an empty directory, whose options are accepted. -/
def create (o : TableOptions) (ucmp : UserComparator) (t : PartitionTable)
    (sampler : Option KeySampler) : Deployment where
  opts := o
  ctx := start o.zfo ucmp (.init t) sampler
  props := persistZfProps o (.init t) none

/-- A table that `SealEpochAndSwitch` installs is persisted; a refused `Open` changes nothing. -/
def step (d : Deployment) : RoutingOp → Deployment
  | .context (.sealEpochAndSwitch l1) =>
    let ctx := d.ctx.sealEpochAndSwitch l1
    { d with
      ctx := ctx
      props :=
        if ctx.tables.currentVersion = d.ctx.tables.currentVersion then d.props
        else persistZfProps d.opts ctx.tables d.props }
  | .context (.reopen _) | .context (.crash _ _) => d
  | .context op => { d with ctx := ContextRuns.step d.ctx op }
  | .reopen cut boundaries =>
    match d.reopenedTables cut boundaries with
    | .error _ => d
    | .ok tables =>
      { opts := d.withBoundaries boundaries
        ctx := d.ctx.openWith (d.stopped cut) tables
        props := persistZfProps (d.withBoundaries boundaries) tables d.props }

end Deployment

/-- The tables route every key alike. -/
def SameRoutes (ucmp : UserComparator) (t t' : PartitionTable) : Prop :=
  ∀ key, t.route ucmp key = t'.route ucmp key

/-- With the same options the database can be opened again, and whenever it is opened again every
key is routed as before. -/
def RoutesSurvive (d : Deployment) (cut : Option (FileId → ℕ)) (boundaries : List Bytes) : Prop :=
  (boundaries = d.opts.staticBoundaries → ∃ tables, d.reopenedTables cut boundaries = .ok tables) ∧
    ∀ tables, d.reopenedTables cut boundaries = .ok tables →
      SameRoutes d.ctx.ucmp tables.current d.ctx.tables.current

/-- In the static mode, boundaries that make a table route as the current one does. -/
def BoundariesAgree (d : Deployment) (boundaries : List Bytes) : Prop :=
  d.opts.zfo.routingMode = .kStatic → ∀ t,
    initialTable (d.withBoundaries boundaries) d.ctx.ucmp = .ok t →
      SameRoutes d.ctx.ucmp t d.ctx.tables.current

/-- ZFPROPS can be read back as a whole. -/
def Readable (o : TableOptions) (tables : PartitionTableSet) : Prop :=
  (encodeZfPropsV2 (zfProps o tables)).length ≤ kZfPropsReadSize

/-- `FreezeBatchPartitions` installs no table, one that `SealEpochAndSwitch` installs is persisted
and fits what `Open` reads, and the database is opened with boundaries that agree. -/
def StepOk (d : Deployment) : RoutingOp → Prop
  | .context (.freezeBatchPartitions l1) =>
    d.ctx.chooseBatch = [] ∨ d.ctx.nextEpoch.1.batchTable d.ctx.nextEpoch.2.epoch l1 = none
  | .context (.sealEpochAndSwitch l1) =>
    (d.ctx.sealEpochAndSwitch l1).tables.currentVersion = d.ctx.tables.currentVersion ∨
      d.opts.useZfprops = true ∧ Readable d.opts (d.ctx.sealEpochAndSwitch l1).tables
  | .context _ => True
  | .reopen _ boundaries => BoundariesAgree d boundaries

/-- A table as `CreateHash` or `Create` builds it. -/
def WellBuilt (ucmp : UserComparator) (t : PartitionTable) : Prop :=
  t.isHashMode = true ∨ t.isHashMode = false ∧ checkBoundaries ucmp t.boundaries = .ok ()

variable {ucmp : UserComparator}

section tables
variable {t : PartitionTable}

theorem wellBuilt_create {version : ℕ} {bs : List Bytes}
    (h : PartitionTable.create version bs ucmp = .ok t) : WellBuilt ucmp t := by
  rw [PartitionTable.create] at h
  cases hc : checkBoundaries ucmp bs with
  | error e =>
    rw [hc] at h
    cases h
  | ok u =>
    rw [hc] at h
    cases h
    exact .inr ⟨rfl, hc⟩

/-- `RangeOf` gives the boundaries back. -/
theorem boundaries_rangeOf (h : t.isHashMode = false) :
    (List.range (t.partitions - 1)).map (fun i => (t.rangeOf i).2) = t.boundaries := by
  rw [t.partitions_eq h, Nat.add_sub_cancel]
  apply List.ext_getElem
  · simp
  · intro i hi hi'
    simp [PartitionTable.rangeOf, Nat.not_le.mpr hi', List.getElem?_eq_getElem hi']

theorem tableInfo_range (version : ℕ) (h : t.isHashMode = false) :
    tableInfo version t = ⟨version, t.partitions, t.partIds, t.boundaries⟩ := by
  rw [tableInfo, boundaries_rangeOf h, h]
  rfl

theorem tableInfo_hash (version : ℕ) (h : t.isHashMode = true) :
    tableInfo version t = ⟨version, t.partitions, t.partIds, []⟩ := by
  rw [tableInfo, h]
  rfl

/-- A persisted table is restored as one that routes alike and is persisted alike. -/
structure Restored (ucmp : UserComparator) (version : ℕ) (t t' : PartitionTable) : Prop where
  info_eq : tableInfo version t' = tableInfo version t
  routes : SameRoutes ucmp t' t
  wellBuilt : WellBuilt ucmp t'

theorem restored_hash {version : ℕ}
    (hinfo : tableInfo version t = ⟨version, t.partitions, t.partIds, []⟩)
    (hroute : ∀ key, t.route ucmp key = (hash key 0).toNat % t.partitions) :
    ∃ t', restoreTable ucmp (tableInfo version t) = some t' ∧ Restored ucmp version t t' := by
  refine ⟨PartitionTable.createHash version t.partitions t.partitions_pos, ?_, ?_, ?_, .inl rfl⟩
  · rw [hinfo, restoreTable, if_pos rfl]
    exact dif_pos t.partitions_pos
  · rw [hinfo, tableInfo_hash version rfl]
    rfl
  · intro key
    rw [hroute key]
    rfl

theorem restoreTable_tableInfo (h : WellBuilt ucmp t) (version : ℕ) :
    ∃ t', restoreTable ucmp (tableInfo version t) = some t' ∧ Restored ucmp version t t' := by
  cases h with
  | inl hash =>
    refine restored_hash (tableInfo_hash version hash) ?_
    intro key
    rw [PartitionTable.route, if_pos hash]
  | inr h =>
    obtain ⟨hrange, hcheck⟩ := h
    have hinfo := tableInfo_range version hrange
    by_cases hbs : t.boundaries = []
    · -- one partition: every key goes there, by range and by hash
      have hone : t.partitions = 1 := by rw [t.partitions_eq hrange, hbs, List.length_nil]
      refine restored_hash (hbs ▸ hinfo) ?_
      intro key
      rw [PartitionTable.route, hrange, hbs, hone, Nat.mod_one]
      rfl
    · rw [restoreTable, hinfo, if_neg hbs]
      dsimp only
      rw [PartitionTable.create, hcheck]
      refine ⟨_, rfl, ?_, ?_, .inr ⟨rfl, hcheck⟩⟩
      · rw [hinfo, tableInfo_range version rfl, PartitionTable.partIds, PartitionTable.partIds,
          t.partitions_eq hrange]
      · intro key
        rw [PartitionTable.route, PartitionTable.route, hrange]
        rfl

end tables

/-- The entries of consecutive versions. -/
def infosFrom : ℕ → List PartitionTable → List ZfPropsTableInfo
  | _, [] => []
  | v, t :: ts => tableInfo v t :: infosFrom (v + 1) ts

theorem filterMap_tableInfo (ts : List PartitionTable) (v : ℕ) :
    ((List.range ts.length).filterMap fun i => (ts[i]?).map (tableInfo (i + v))) =
      infosFrom v ts := by
  induction ts generalizing v with
  | nil => rfl
  | cons t ts ih =>
    rw [List.length_cons, List.range_succ_eq_map, List.filterMap_cons, List.filterMap_map, infosFrom,
      ← ih (v + 1)]
    simp only [List.getElem?_cons_zero, Option.map_some, Nat.zero_add]
    congr 2
    funext i
    simp only [Function.comp_apply, Nat.succ_eq_add_one, List.getElem?_cons_succ]
    rw [Nat.add_assoc, Nat.add_comm 1 v]

/-- The last version is the current one. -/
def LastIsCurrent (tables : PartitionTableSet) : Prop :=
  tables.currentVersion + 1 = tables.versions.length

theorem lastIsCurrent_install (tables : PartitionTableSet) (t : PartitionTable) :
    LastIsCurrent (tables.installNewVersion t) := by
  simp [LastIsCurrent, PartitionTableSet.installNewVersion]

theorem LastIsCurrent.current_eq {tables : PartitionTableSet} (h : LastIsCurrent tables) :
    tables.versions.getLast? = some tables.current := by
  rw [List.getLast?_eq_getElem?, ← h, Nat.add_sub_cancel]
  exact tables.get?_currentVersion

/-- The loop of `Open` installs one table for each persisted version that is not there yet. -/
theorem restore_infosFrom {ts : List PartitionTable} (hts : ∀ t ∈ ts, WellBuilt ucmp t)
    (tables : PartitionTableSet) (hlast : LastIsCurrent tables) :
    ∃ ts', ((infosFrom tables.versions.length ts).foldl (restoreStep ucmp) tables).versions =
        tables.versions ++ ts' ∧
      LastIsCurrent ((infosFrom tables.versions.length ts).foldl (restoreStep ucmp) tables) ∧
      infosFrom tables.versions.length ts' = infosFrom tables.versions.length ts ∧
      List.Forall₂ (SameRoutes ucmp) ts' ts ∧ ∀ t ∈ ts', WellBuilt ucmp t := by
  induction ts generalizing tables with
  | nil => exact ⟨[], (List.append_nil _).symm, hlast, rfl, .nil, by simp⟩
  | cons t ts ih =>
    obtain ⟨t', ht', hrestored⟩ := restoreTable_tableInfo (hts t List.mem_cons_self)
      tables.versions.length
    have hstep : restoreStep ucmp tables (tableInfo tables.versions.length t) =
        tables.installNewVersion t' := by
      have hnone : tables.get? (tableInfo tables.versions.length t).version = none := by
        simp [PartitionTableSet.get?, tableInfo]
      rw [restoreStep, hnone, ht']
      rfl
    have hlen : (tables.installNewVersion t').versions.length = tables.versions.length + 1 := by
      simp [PartitionTableSet.installNewVersion]
    obtain ⟨ts', hversions, hlast', hinfos, hroutes, hbuilt⟩ :=
      ih (fun u hu => hts u (List.mem_cons_of_mem _ hu)) (tables.installNewVersion t')
        (lastIsCurrent_install tables t')
    rw [hlen] at hversions hlast' hinfos
    refine ⟨t' :: ts', ?_, ?_, ?_, .cons hrestored.routes hroutes, ?_⟩
    · rw [infosFrom, List.foldl_cons, hstep, hversions]
      simp [PartitionTableSet.installNewVersion]
    · rw [infosFrom, List.foldl_cons, hstep]
      exact hlast'
    · rw [infosFrom, infosFrom, hrestored.info_eq, hinfos]
    · intro u hu
      cases List.mem_cons.mp hu with
      | inl he => exact he ▸ hrestored.wellBuilt
      | inr hu => exact hbuilt u hu

section props
variable {o : TableOptions} {tables : PartitionTableSet} {t₀ : PartitionTable}
  {ts : List PartitionTable}

theorem zfProps_tables (hversions : tables.versions = t₀ :: ts) (hlast : LastIsCurrent tables) :
    (zfProps o tables).tables =
      ⟨0, o.zfo.partitions, List.range o.zfo.partitions, []⟩ :: infosFrom 1 ts := by
  have hcur : tables.currentVersion = ts.length := by
    rw [LastIsCurrent, hversions, List.length_cons] at hlast
    omega
  rw [zfProps, ← filterMap_tableInfo, hcur]
  simp only [PartitionTableSet.get?, hversions, List.getElem?_cons_succ]

theorem length_infosFrom (v : ℕ) (ts : List PartitionTable) : (infosFrom v ts).length = ts.length := by
  induction ts generalizing v with
  | nil => rfl
  | cons t ts ih => rw [infosFrom, List.length_cons, List.length_cons, ih]

theorem mem_infosFrom {v : ℕ} {ti : ZfPropsTableInfo} (h : ti ∈ infosFrom v ts) :
    ti.version < v + ts.length ∧ ∃ t ∈ ts, ti = tableInfo ti.version t := by
  induction ts generalizing v with
  | nil => cases h
  | cons t ts ih =>
    cases List.mem_cons.mp h with
    | inl he =>
      subst he
      refine ⟨?_, t, List.mem_cons_self, rfl⟩
      rw [List.length_cons]
      dsimp only [tableInfo]
      omega
    | inr h =>
      obtain ⟨hlt, t', ht', he⟩ := ih h
      refine ⟨?_, t', List.mem_cons_of_mem _ ht', he⟩
      rw [List.length_cons]
      omega

end props

/-- What holds in every state: `t₀` is the table of the options, and ZFPROPS has all versions. -/
structure Kept (d : Deployment) (t₀ : PartitionTable) (ts : List PartitionTable) : Prop where
  zfo_eq : d.ctx.zfo = d.opts.zfo
  initial : initialTable d.opts d.ctx.ucmp = .ok t₀
  versions : d.ctx.tables.versions = t₀ :: ts
  last : LastIsCurrent d.ctx.tables
  wellBuilt : ∀ t ∈ ts, WellBuilt d.ctx.ucmp t
  static : d.opts.zfo.routingMode = .kStatic → ts = []
  unpersisted : d.opts.useZfprops = false → ts = []
  props : d.opts.useZfprops = true →
    d.props = some (encodeZfPropsV2 (zfProps d.opts d.ctx.tables)) ∧ Readable d.opts d.ctx.tables

section reopen
variable {d : Deployment} {t₀ t₁ : PartitionTable} {ts : List PartitionTable} {bs : List Bytes}

theorem Kept.fits (h : Kept d t₀ ts) (hread : Readable d.opts d.ctx.tables) :
    (zfProps d.opts d.ctx.tables).Fits := by
  have htables := zfProps_tables (o := d.opts) h.versions h.last
  have hcount : (zfProps d.opts d.ctx.tables).tables.length = ts.length + 1 := by
    rw [htables, List.length_cons, length_infosFrom]
  have hcur : d.ctx.tables.currentVersion + 1 = ts.length + 1 := by
    rw [h.last, h.versions, List.length_cons]
  refine fits_of_length hread rfl ?_ ?_
  · rw [hcount]
    exact Nat.lt_of_succ_le hcur.le
  · intro ti hti
    rw [hcount]
    rw [htables] at hti
    cases List.mem_cons.mp hti with
    | inl he =>
      subst he
      simp
    | inr hti =>
      obtain ⟨hlt, t, -, he⟩ := mem_infosFrom hti
      refine ⟨by omega, ?_, ?_⟩
      · rw [he]
        simp [tableInfo, PartitionTable.partIds]
      · rw [he]
        simp [tableInfo, PartitionTable.partIds]

theorem checkZfProps_zfProps (d : Deployment) (bs : List Bytes) :
    checkZfProps (d.withBoundaries bs) (zfProps d.opts d.ctx.tables) = .ok () := by
  rw [checkZfProps]
  simp [zfProps, Deployment.withBoundaries]

theorem restoreTables_zfProps (h : Kept d t₀ ts) (t₁ : PartitionTable) :
    restoreTables d.ctx.ucmp (.init t₁) (zfProps d.opts d.ctx.tables) =
      (infosFrom 1 ts).foldl (restoreStep d.ctx.ucmp) (.init t₁) := by
  rw [restoreTables, zfProps_tables h.versions h.last]
  cases ts with
  | nil => rfl
  | cons t ts => rfl

/-- Opened again with a first table, the database has the persisted tables on top of it. -/
theorem reopenedTables_ok (h : Kept d t₀ ts) (cut : Option (FileId → ℕ))
    (hinit : initialTable (d.withBoundaries bs) d.ctx.ucmp = .ok t₁) :
    ∃ tables ts', d.reopenedTables cut bs = .ok tables ∧ tables.versions = t₁ :: ts' ∧
      LastIsCurrent tables ∧ infosFrom 1 ts' = infosFrom 1 ts ∧
      List.Forall₂ (SameRoutes d.ctx.ucmp) ts' ts ∧ ∀ t ∈ ts', WellBuilt d.ctx.ucmp t := by
  have hstart : LastIsCurrent (.init t₁) := rfl
  rw [Deployment.reopenedTables, openTables, hinit]
  dsimp only
  cases huse : d.opts.useZfprops with
  | false =>
    rw [if_neg (by simp [Deployment.withBoundaries, huse]), h.unpersisted huse]
    exact ⟨_, [], rfl, rfl, hstart, rfl, .nil, by simp⟩
  | true =>
    obtain ⟨hprops, hread⟩ := h.props huse
    have hdecode : decodeZfPropsAuto ((encodeZfPropsV2 (zfProps d.opts d.ctx.tables)).take
        kZfPropsReadSize) = .ok (zfProps d.opts d.ctx.tables) := by
      rw [List.take_of_length_le hread]
      exact decodeZfPropsAuto_encodeZfPropsV2 (h.fits hread)
    rw [if_pos (by simp [Deployment.withBoundaries, huse]), hprops]
    dsimp only
    rw [hdecode]
    dsimp only
    rw [checkZfProps_zfProps, restoreTables_zfProps h]
    obtain ⟨ts', hversions, hlast, hinfos, hroutes, hbuilt⟩ :=
      restore_infosFrom h.wellBuilt (.init t₁) hstart
    exact ⟨_, ts', rfl, hversions, hlast, hinfos, hroutes, hbuilt⟩

theorem forall₂_getLast? {α β : Type*} {R : α → β → Prop} {as : List α} {bs : List β}
    (h : List.Forall₂ R as bs) {a : α} {b : β} (ha : as.getLast? = some a)
    (hb : bs.getLast? = some b) : R a b := by
  induction h with
  | nil => cases ha
  | cons hxy htail ih =>
    cases htail with
    | nil =>
      cases ha
      cases hb
      exact hxy
    | cons hxy' htail' =>
      rw [List.getLast?_cons_cons] at ha hb
      exact ih ha hb

theorem initialTable_withBoundaries (hmode : d.opts.zfo.routingMode ≠ .kStatic) (bs : List Bytes) :
    initialTable (d.withBoundaries bs) d.ctx.ucmp = initialTable d.opts d.ctx.ucmp := by
  rw [initialTable, initialTable]
  cases hm : d.opts.zfo.routingMode with
  | kStatic => exact absurd hm hmode
  | _ => simp only [Deployment.withBoundaries, hm]

/-- The current table routes as before if the first one does or is not the current one. -/
theorem sameRoutes_current {tables tables' : PartitionTableSet} {ts' : List PartitionTable}
    (hlast : LastIsCurrent tables) (hlast' : LastIsCurrent tables')
    (hversions : tables.versions = t₀ :: ts) (hversions' : tables'.versions = t₁ :: ts')
    (hroutes : List.Forall₂ (SameRoutes ucmp) ts' ts) (hfirst : SameRoutes ucmp t₁ t₀) :
    SameRoutes ucmp tables'.current tables.current := by
  have hcur := hlast.current_eq
  have hcur' := hlast'.current_eq
  rw [hversions] at hcur
  rw [hversions'] at hcur'
  exact forall₂_getLast? (.cons hfirst hroutes) hcur' hcur

/-- In a state whose tables are all persisted, the boundaries decide. -/
theorem routesSurvive_iff_of_kept (h : Kept d t₀ ts) (cut : Option (FileId → ℕ)) (bs : List Bytes) :
    RoutesSurvive d cut bs ↔ BoundariesAgree d bs := by
  cases hinit : initialTable (d.withBoundaries bs) d.ctx.ucmp with
  | error e =>
    -- `Open` refuses these boundaries, which are not the old ones
    have hopen : d.reopenedTables cut bs = .error e := by
      rw [Deployment.reopenedTables, openTables, hinit]
    refine iff_of_true ⟨?_, ?_⟩ ?_
    · intro hbs
      subst hbs
      cases h.initial.symm.trans hinit
    · intro tables htables
      cases hopen.symm.trans htables
    · intro _ t ht
      cases hinit.symm.trans ht
  | ok t₁ =>
    obtain ⟨tables, ts', hopen, hversions, hlast, -, hroutes, -⟩ := reopenedTables_ok h cut hinit
    have hsurvive : RoutesSurvive d cut bs ↔
        SameRoutes d.ctx.ucmp tables.current d.ctx.tables.current := by
      refine ⟨fun hs => hs.2 tables hopen, fun hs => ⟨fun _ => ⟨tables, hopen⟩, ?_⟩⟩
      intro tables' htables'
      cases hopen.symm.trans htables'
      exact hs
    rw [hsurvive]
    by_cases hmode : d.opts.zfo.routingMode = .kStatic
    · have hts := h.static hmode
      subst hts
      cases hroutes
      have hcur := hlast.current_eq
      rw [hversions, List.getLast?_singleton] at hcur
      cases hcur
      constructor
      · intro hs _ t ht
        cases hinit.symm.trans ht
        exact hs
      · intro hagree
        exact hagree hmode _ hinit
    · rw [initialTable_withBoundaries hmode, h.initial] at hinit
      cases hinit
      refine iff_of_true ?_ fun hm => absurd hm hmode
      exact sameRoutes_current h.last hlast h.versions hversions hroutes fun _ => rfl

end reopen

section steps
variable {d : Deployment} {t₀ : PartitionTable} {ts : List PartitionTable}

/-- A step that changes neither options nor tables. -/
theorem Kept.congr (h : Kept d t₀ ts) {ctx : ZeroFlushContext} (hzfo : ctx.zfo = d.ctx.zfo)
    (hucmp : ctx.ucmp = d.ctx.ucmp) (htables : ctx.tables = d.ctx.tables) :
    Kept { d with ctx := ctx } t₀ ts := by
  refine ⟨hzfo.trans h.zfo_eq, ?_, ?_, ?_, ?_, h.static, h.unpersisted, ?_⟩
  · exact hucmp ▸ h.initial
  · exact htables ▸ h.versions
  · exact htables ▸ h.last
  · exact hucmp ▸ h.wellBuilt
  · exact htables ▸ h.props

theorem wellBuilt_toOption {version : ℕ} {bs : List Bytes} {t : PartitionTable}
    (h : (PartitionTable.create version bs ucmp).toOption = some t) : WellBuilt ucmp t := by
  cases hc : PartitionTable.create version bs ucmp with
  | error e =>
    rw [hc] at h
    cases h
  | ok t' =>
    rw [hc] at h
    cases h
    exact wellBuilt_create hc

theorem wellBuilt_learnedTable {ctx : ZeroFlushContext} {epoch : ℕ} {t : PartitionTable}
    (h : ctx.learnedTable epoch = some t) : WellBuilt ctx.ucmp t := by
  rw [ZeroFlushContext.learnedTable] at h
  split at h
  · cases h
  · split at h
    · obtain ⟨bs, -, hbs⟩ := Option.bind_eq_some_iff.mp h
      exact wellBuilt_toOption hbs
    · cases h

theorem wellBuilt_l1Aligned {tables : PartitionTableSet} {n : ℕ} {l1 : List L1File}
    {t : PartitionTable} (h : buildL1AlignedTable ucmp tables n l1 = some t) : WellBuilt ucmp t := by
  rw [buildL1AlignedTable] at h
  split at h
  · cases h
  · exact wellBuilt_toOption h

/-- Tables are installed in the sampling and in the aligning mode only. -/
theorem sealTable_spec {ctx : ZeroFlushContext} {epoch : ℕ} {l1 : List L1File}
    {t : PartitionTable} (h : ctx.sealTable epoch l1 = some t) :
    WellBuilt ctx.ucmp t ∧ ctx.zfo.routingMode ≠ .kStatic := by
  rw [ZeroFlushContext.sealTable] at h
  split at h
  next hm => exact ⟨wellBuilt_learnedTable h, by simp [hm]⟩
  next hm => exact ⟨wellBuilt_l1Aligned h, by simp [hm]⟩
  next => cases h

theorem kept_seal (h : Kept d t₀ ts) (l1 : List L1File)
    (hok : StepOk d (.context (.sealEpochAndSwitch l1))) :
    ∃ ts', Kept (d.step (.context (.sealEpochAndSwitch l1))) t₀ ts' := by
  have hseal := sealedBy_sealEpoch d.ctx l1
  rw [Deployment.step]
  revert hseal
  generalize (d.ctx.tables.current.partIds.foldl sealWal (d.ctx.wal, d.ctx.nextEpoch.2)).2.epoch = e
  intro hseal
  cases ht : d.ctx.nextEpoch.1.sealTable e l1 with
  | none =>
    have htables : (d.ctx.sealEpochAndSwitch l1).tables = d.ctx.tables := by
      rw [hseal.tables_eq, ht]
      rfl
    rw [if_pos (congrArg PartitionTableSet.currentVersion htables)]
    exact ⟨ts, h.congr hseal.zfo_eq hseal.ucmp_eq htables⟩
  | some t =>
    obtain ⟨hbuilt, hmode⟩ := sealTable_spec ht
    have htables : (d.ctx.sealEpochAndSwitch l1).tables = d.ctx.tables.installNewVersion t := by
      rw [hseal.tables_eq, ht]
      rfl
    have hne : (d.ctx.sealEpochAndSwitch l1).tables.currentVersion ≠
        d.ctx.tables.currentVersion := by
      rw [htables]
      have hlast := h.last
      rw [LastIsCurrent] at hlast
      exact fun he => by
        rw [← he] at hlast
        simp [PartitionTableSet.installNewVersion] at hlast
    obtain ⟨huse, hread⟩ := hok.resolve_left hne
    rw [if_neg hne, persistZfProps, if_pos huse]
    refine ⟨ts ++ [t], hseal.zfo_eq.trans h.zfo_eq, hseal.ucmp_eq ▸ h.initial, ?_, ?_, ?_, ?_, ?_,
      fun _ => ⟨rfl, hread⟩⟩
    · exact htables ▸ congrArg (· ++ [t]) h.versions
    · exact htables ▸ lastIsCurrent_install d.ctx.tables t
    · intro u hu
      dsimp only
      rw [hseal.ucmp_eq]
      cases List.mem_append.mp hu with
      | inl hu => exact h.wellBuilt u hu
      | inr hu => exact List.mem_singleton.mp hu ▸ hbuilt
    · intro hm
      exact absurd (h.zfo_eq ▸ hm) hmode
    · intro hfalse
      cases huse.symm.trans hfalse

theorem tables_freezeBatch {ctx : ZeroFlushContext} {l1 : List L1File}
    (hok : ctx.chooseBatch = [] ∨ ctx.nextEpoch.1.batchTable ctx.nextEpoch.2.epoch l1 = none) :
    (ctx.freezeBatchPartitions l1).zfo = ctx.zfo ∧ (ctx.freezeBatchPartitions l1).ucmp = ctx.ucmp ∧
      (ctx.freezeBatchPartitions l1).tables = ctx.tables := by
  by_cases hb : ctx.chooseBatch = []
  · rw [ZeroFlushContext.freezeBatchPartitions, hb]
    exact ⟨rfl, rfl, rfl⟩
  · have hseal := sealedBy_freezeBatch l1 hb
    rw [hok.resolve_left hb] at hseal
    exact ⟨hseal.zfo_eq, hseal.ucmp_eq, hseal.tables_eq⟩

theorem tables_freezeOne (ctx : ZeroFlushContext) :
    ctx.freezeOnePartition.zfo = ctx.zfo ∧ ctx.freezeOnePartition.ucmp = ctx.ucmp ∧
      ctx.freezeOnePartition.tables = ctx.tables := by
  cases hc : ctx.chooseOne with
  | none =>
    rw [ZeroFlushContext.freezeOnePartition, hc]
    exact ⟨rfl, rfl, rfl⟩
  | some target =>
    obtain ⟨gen, hseal⟩ := sealedBy_freezeOne hc
    exact ⟨hseal.zfo_eq, hseal.ucmp_eq, hseal.tables_eq⟩

theorem options_recover (ctx : ZeroFlushContext) :
    ctx.recover.zfo = ctx.zfo ∧ ctx.recover.ucmp = ctx.ucmp ∧ ctx.recover.tables = ctx.tables := by
  obtain ⟨cache, hrec⟩ := recover_eq ctx
  have hrest := sameRest_replay (ZeroFlushContext.replayOrder ctx.wal.env)
    ({ ctx with sealedCache := cache } : ZeroFlushContext).ensureActives
  rw [hrec]
  exact ⟨hrest.zfo_eq, hrest.ucmp_eq, hrest.tables_eq⟩

theorem kept_reopen (h : Kept d t₀ ts) (cut : Option (FileId → ℕ)) (bs : List Bytes) :
    ∃ t₁ ts', Kept (d.step (.reopen cut bs)) t₁ ts' := by
  rw [Deployment.step]
  cases hinit : initialTable (d.withBoundaries bs) d.ctx.ucmp with
  | error e =>
    have hopen : d.reopenedTables cut bs = .error e := by
      rw [Deployment.reopenedTables, openTables, hinit]
    rw [hopen]
    exact ⟨t₀, ts, h⟩
  | ok t₁ =>
    obtain ⟨tables, ts', hopen, hversions, hlast, hinfos, hroutes, hbuilt⟩ :=
      reopenedTables_ok h cut hinit
    have hlen := hroutes.length_eq
    have hprops : zfProps (d.withBoundaries bs) tables = zfProps d.opts d.ctx.tables := by
      have hcur : tables.currentVersion = d.ctx.tables.currentVersion := by
        have hn := hlast
        have hn' := h.last
        rw [LastIsCurrent, hversions, List.length_cons, hlen] at hn
        rw [LastIsCurrent, h.versions, List.length_cons] at hn'
        omega
      have htables : (zfProps (d.withBoundaries bs) tables).tables =
          (zfProps d.opts d.ctx.tables).tables := by
        rw [zfProps_tables hversions hlast, zfProps_tables h.versions h.last, hinfos]
        rfl
      calc zfProps (d.withBoundaries bs) tables
          = ⟨2, routingModeByte d.opts.zfo.routingMode, d.opts.comparatorName,
              (zfProps (d.withBoundaries bs) tables).tables, tables.currentVersion⟩ := rfl
        _ = zfProps d.opts d.ctx.tables := by
          rw [htables, hcur]
          rfl
    obtain ⟨hzfo, hucmp, htables⟩ := options_recover
      { zfo := d.ctx.zfo, ucmp := d.ctx.ucmp, wal := d.stopped cut, tables := tables
        sealedCache := { reclaimEnabled := d.ctx.sealedCache.reclaimEnabled }
        sampler := d.ctx.sampler.map fun s => { sampleEveryN := s.sampleEveryN } }
    rw [hopen]
    refine ⟨t₁, ts', ?_, ?_, ?_, ?_, ?_, ?_, ?_, ?_⟩
    · exact hzfo.trans h.zfo_eq
    · exact (congrArg (initialTable (d.withBoundaries bs)) hucmp).trans hinit
    · exact (congrArg PartitionTableSet.versions htables).trans hversions
    · exact (congrArg LastIsCurrent htables).mpr hlast
    · intro t ht
      exact (congrArg (WellBuilt · t) hucmp).mpr (hbuilt t ht)
    · intro hm
      rw [h.static hm] at hlen
      exact List.length_eq_zero_iff.mp hlen
    · intro hm
      rw [h.unpersisted hm] at hlen
      exact List.length_eq_zero_iff.mp hlen
    · intro huse
      have hread : Readable (d.withBoundaries bs) tables := by
        rw [Readable, hprops]
        exact (h.props huse).2
      refine ⟨?_, (congrArg (Readable (d.withBoundaries bs)) htables).mpr hread⟩
      dsimp only [ZeroFlushContext.openWith]
      rw [htables, persistZfProps, if_pos huse]

theorem kept_step (d : Deployment) (op : RoutingOp) (hok : StepOk d op)
    (h : ∃ t₀ ts, Kept d t₀ ts) : ∃ t₀ ts, Kept (d.step op) t₀ ts := by
  obtain ⟨t₀, ts, h⟩ := h
  cases op with
  | reopen cut bs => exact kept_reopen h cut bs
  | context op =>
    cases op with
    | addRecord r v rnd =>
      obtain ⟨htables, hucmp, hzfo⟩ := tables_addRecord d.ctx r v rnd
      exact ⟨t₀, ts, h.congr hzfo hucmp htables⟩
    | sync part => exact ⟨t₀, ts, h.congr rfl rfl rfl⟩
    | freezeBatchPartitions l1 =>
      obtain ⟨hzfo, hucmp, htables⟩ := tables_freezeBatch hok
      exact ⟨t₀, ts, h.congr hzfo hucmp htables⟩
    | freezeOnePartition =>
      obtain ⟨hzfo, hucmp, htables⟩ := tables_freezeOne d.ctx
      exact ⟨t₀, ts, h.congr hzfo hucmp htables⟩
    | sealEpochAndSwitch l1 => exact ⟨t₀, kept_seal h l1 hok⟩
    | releaseEpoch epoch => exact ⟨t₀, ts, h.congr rfl rfl rfl⟩
    | purgeSealedFiles => exact ⟨t₀, ts, h.congr rfl rfl rfl⟩
    | reopen tables => exact ⟨t₀, ts, h⟩
    | crash cut tables => exact ⟨t₀, ts, h⟩

end steps

theorem kept_create {o : TableOptions} {t : PartitionTable} (sampler : Option KeySampler)
    (hinit : initialTable o ucmp = .ok t) (hread : o.useZfprops = true → Readable o (.init t)) :
    Kept (Deployment.create o ucmp t sampler) t [] := by
  obtain ⟨hzfo, hucmp, htables⟩ := options_recover
    { zfo := o.zfo, ucmp := ucmp, tables := .init t, sampler := sampler
      wal := (PartitionedWalManager.create Env.empty o.zfo.partitions
        o.zfo.partitionTargetBytes).open_ }
  refine ⟨hzfo, ?_, ?_, ?_, by simp, fun _ => rfl, fun _ => rfl, ?_⟩
  · exact (congrArg (initialTable o) hucmp).trans hinit
  · exact congrArg PartitionTableSet.versions htables
  · exact (congrArg LastIsCurrent htables).mpr rfl
  · intro huse
    refine ⟨?_, (congrArg (Readable o) htables).mpr (hread huse)⟩
    dsimp only [Deployment.create, start]
    rw [htables, persistZfProps]
    exact if_pos huse

/-- As long as every table is installed by `SealEpochAndSwitch` and ZFPROPS stays below 4 MiB, a
reopened database routes every key as before exactly if static boundaries that differ agree. -/
theorem routesSurvive_iff (o : TableOptions) (ucmp : UserComparator) (t : PartitionTable)
    (sampler : Option KeySampler) (hinit : initialTable o ucmp = .ok t)
    (hread : o.useZfprops = true → Readable o (.init t)) (ops : List RoutingOp)
    (hok : Guarded Deployment.step StepOk (Deployment.create o ucmp t sampler) ops)
    (cut : Option (FileId → ℕ)) (bs : List Bytes) :
    RoutesSurvive (run Deployment.step (Deployment.create o ucmp t sampler) ops) cut bs ↔
      BoundariesAgree (run Deployment.step (Deployment.create o ucmp t sampler) ops) bs := by
  obtain ⟨t₀, ts, h⟩ := invariant_run kept_step ⟨t, [], kept_create sampler hinit hread⟩ hok
  exact routesSurvive_iff_of_kept h cut bs

/-- Two partitions whose boundary is learned from the keys of the first epoch. -/
def sampling : TableOptions where
  zfo := { partitions := 2, routingMode := .kSampled }
  comparatorName := [98]
  partitions_pos := by decide

def samplingStart : Deployment :=
  .create sampling .bytewise (.createHash 0 2 Nat.two_pos) (some { sampleEveryN := 1 })

def put (key : UInt8) (seq : UInt64) : RoutingOp :=
  .context (.addRecord ⟨[key], [7], kTypeValue, seq⟩ 0 0)

/-- The table is learned by `SealEpochAndSwitch`. -/
def learnedBySeal : List RoutingOp := [put 1 1, put 2 2, .context (.sealEpochAndSwitch [])]

/-- The table is learned by `FreezeBatchPartitions`. -/
def learnedByFreeze : List RoutingOp := [put 1 1, put 2 2, .context (.freezeBatchPartitions [])]

theorem routesSurvive_learnedBySeal :
    RoutesSurvive (run Deployment.step samplingStart learnedBySeal) none [] := by
  have hread : (encodeZfPropsV2 (zfProps sampling (.init (.createHash 0 2 Nat.two_pos)))).length ≤
      kZfPropsReadSize := by decide +kernel
  have hread' : (encodeZfPropsV2 (zfProps sampling
      ((run Deployment.step samplingStart [put 1 1, put 2 2]).ctx.sealEpochAndSwitch
        []).tables)).length ≤ kZfPropsReadSize := by decide +kernel
  refine (routesSurvive_iff sampling .bytewise (.createHash 0 2 Nat.two_pos)
    (some { sampleEveryN := 1 }) rfl (fun _ => hread) learnedBySeal ?_ none []).mpr ?_
  · exact ⟨trivial, trivial, .inr ⟨rfl, hread'⟩, trivial⟩
  · intro hm
    cases hm

/-- Two partitions with a boundary from the options. -/
def static : TableOptions where
  zfo := { partitions := 2, routingMode := .kStatic }
  staticBoundaries := [[3]]
  comparatorName := [98]
  partitions_pos := by decide

def staticStart : Deployment :=
  .create static .bytewise (.cutAt 0 [3]) none

/-- The partition of a key after the database is opened again. -/
def reopenedRoute (d : Deployment) (bs : List Bytes) (key : Bytes) : ℕ :=
  match d.reopenedTables none bs with
  | .ok tables => tables.current.route d.ctx.ucmp key
  | .error _ => 0

theorem RoutesSurvive.reopenedRoute_eq {d : Deployment} {bs : List Bytes}
    (h : RoutesSurvive d none bs) {tables : PartitionTableSet}
    (hopen : d.reopenedTables none bs = .ok tables) (key : Bytes) :
    reopenedRoute d bs key = d.ctx.tables.current.route d.ctx.ucmp key := by
  rw [reopenedRoute, hopen]
  exact h.2 tables hopen key

/-- A learned table that was not persisted is lost, and other static boundaries are accepted. -/
theorem routesSurvive_fails :
    ¬ RoutesSurvive (run Deployment.step samplingStart learnedByFreeze) none [] ∧
      ¬ RoutesSurvive staticStart none [[5]] := by
  constructor
  · intro h
    obtain ⟨tables, hopen⟩ := h.1 rfl
    have hroute := h.reopenedRoute_eq hopen [2]
    have hne : reopenedRoute (run Deployment.step samplingStart learnedByFreeze) [] [2] ≠
        (run Deployment.step samplingStart learnedByFreeze).ctx.tables.current.route
          (run Deployment.step samplingStart learnedByFreeze).ctx.ucmp [2] := by decide +kernel
    exact hne hroute
  · intro h
    have hne : reopenedRoute staticStart [[5]] [4] ≠
        staticStart.ctx.tables.current.route staticStart.ctx.ucmp [4] := by decide +kernel
    have hsome : (staticStart.reopenedTables none [[5]]).toOption.isSome = true := by
      decide +kernel
    cases hopen : staticStart.reopenedTables none [[5]] with
    | error e =>
      rw [hopen] at hsome
      cases hsome
    | ok tables => exact hne (h.reopenedRoute_eq hopen [4])

end ZeroFlush.RoutingRecovery
