import ZeroFlush.BackedEntries
import ZeroFlush.RunMerging
import ZeroFlush.SealedBuffers
import ZeroFlush.TableFiles

/-! # The A side without sorting

A materialization takes the records of the sealed generations of a partition in the order of their
frozen indexes and their values from the loaded files. Where that does not go through it scans the
files and sorts. -/
namespace ZeroFlush.SortFreeAside
open FixedWidthCodec FiniteMaps WalFormat WalFiles PartitionedWal WalLogs WalOpening UserKeys
  OrderedInsertion PartitionIndexes IndexChains IndexContents PartitionTables SealedFiles
  SequentialScan Context ContextRuns SealedEpochs ReadPaths ManagerConsistency RecoveredLocators
  SealedBuffers TableFiles GuardedRuns RunMerging BackedEntries
open EpochTables (RoutedOp)
open ReleasedIndexes (Stored)

def kMaxSequenceNumber : ℕ := 2 ^ 56 - 1

/-- `Status::ToString`. -/
def statusText : Status → String
  | .corruption msg => "Corruption: " ++ msg
  | .ioError msg => "IO error: " ++ msg
  | .invalidArgument msg => "Invalid argument: " ++ msg
  | .notSupported msg => "Not implemented: " ++ msg
  | .notFound => "NotFound: "

/-- An internal key and its value. -/
abbrev AsideRecord := TableEntry × Bytes

/-- `keys` and `values`, which go together, and `min_seq`. -/
structure Aside where
  records : List AsideRecord
  minSeq : ℕ
  deriving DecidableEq, Repr

def asideLe (ucmp : UserComparator) (a b : AsideRecord) : Bool := internalLe ucmp a.1 b.1

/-- `GetFrozen`: the oldest frozen index of the generation. -/
def getFrozen (s : PartitionIndexSet) (part gen : ℕ) : Option PartitionIndex :=
  (s.frozenChain part).find? fun idx => idx.gen == gen

/-- `ReadFileToString` and the parse of what it read. -/
def loadFile (env : Env) (f : FileId) : Except Status SealedGenBuffer :=
  if env.exists? f then SealedGenBuffer.load (env.content f)
  else .error (.ioError "No such file or directory")

def internalKey (e : IndexEntry) : TableEntry := ⟨e.userKey, e.seq, e.type⟩

/-- The loop over the entries: every locator names the generation and hits a record. -/
def drainEntries (buf : SealedGenBuffer) (f : FileId) : List IndexEntry → Option (List AsideRecord)
  | [] => some []
  | e :: es =>
    if e.loc.file = f then
      match buf.getValue e.loc.offset with
      | none => none
      | some v => (drainEntries buf f es).map ((internalKey e, v) :: ·)
    else none

/-- `DrainPartitionAside`. -/
def drainPartitionAside (idx : PartitionIndex) (buf : SealedGenBuffer) (f : FileId) :
    Except Status Aside :=
  match drainEntries buf f idx.entries with
  | none => .error (.corruption s!"ZF aside drain integrity mismatch: part={f.1} gen={f.2}")
  | some records =>
    if records.length ≠ buf.recordCount then
      .error (.corruption (s!"ZF aside drain count mismatch: idx={records.length}" ++
        s!" wal={buf.recordCount} part={f.1} gen={f.2}"))
    else .ok ⟨records, (records.map fun r => r.1.seq).foldl min (2 ^ 64 - 1)⟩

/-- One round of the loop over the generations. -/
def drainGen (ctx : ZeroFlushContext) (f : FileId) : Option Aside :=
  match getFrozen ctx.indexSet f.1 f.2 with
  | none => none
  | some idx =>
    match loadFile ctx.wal.env f with
    | .error _ => none
    | .ok buf => (drainPartitionAside idx buf f).toOption

/-- One run is taken as it is, several are merged. -/
def joinRuns (ucmp : UserComparator) (runs : List (List AsideRecord)) : List AsideRecord :=
  match runs with
  | [] => []
  | [run] => run
  | _ => mergeRuns (asideLe ucmp) runs

/-- `BuildAsideFromFrozenIndex`; `none` if it returns false. -/
def buildAsideFromFrozenIndex (ctx : ZeroFlushContext) (materializeSortAssist : Bool)
    (gens : List FileId) : Option Aside :=
  if materializeSortAssist then
    (gens.mapM (drainGen ctx)).map fun drained =>
      { records := joinRuns ctx.ucmp ((drained.map Aside.records).filter fun run => run ≠ [])
        minSeq := drained.foldl (fun mn d => min mn d.minSeq) kMaxSequenceNumber }
  else none

/-- `MakeInternalKey` of a scanned record. -/
def recordOf (r : Scanned) : AsideRecord :=
  (⟨r.key, r.header.seq.toNat % 2 ^ 56, r.header.type⟩, r.value)

/-- `WalScanner` over a sealed file, which has to be whole. -/
def scanSealed (env : Env) (f : FileId) : Except Status (List Scanned) :=
  let (records, scanner) :=
    if env.exists? f then WalScanner.scan (env.content f) else WalScanner.drain 1 { file := none }
  match scanner.status with
  | none => .ok (records.map Prod.fst)
  | some s => .error (.corruption ("ZF sealed WAL scan failed: " ++ statusText s))

/-- The path with `WalScanner` and a sort. -/
def walSortedAside (ctx : ZeroFlushContext) (gens : List FileId) : Except Status Aside :=
  (gens.mapM (scanSealed ctx.wal.env)).map fun scanned =>
    { records := (scanned.flatten.map recordOf).insertionSort fun a b => asideLe ctx.ucmp a b
      minSeq := (scanned.flatten.map fun r => r.header.seq.toNat).foldl min kMaxSequenceNumber }

/-- What the sort-free path returns is what scanning and sorting returns. -/
def AgreesWithSort (ctx : ZeroFlushContext) (gens : List FileId) : Prop :=
  ∀ sortAssist aside, buildAsideFromFrozenIndex ctx sortAssist gens = some aside →
    walSortedAside ctx gens = .ok aside

section generation
variable {ctx : ZeroFlushContext} {f : FileId} {ucmp : UserComparator}

/-- The value of an entry comes from its own record. -/
theorem mem_records_of_getValue {m : PartitionedWalManager} {x : IndexEntry} (hx : Backed m x)
    {buf : SealedGenBuffer} {ds : List Frame}
    (hcontent : m.env.content x.loc.file = ds.flatMap Frame.bytes)
    (hbuf : buf.records = (places 0 ds).map fun p => (p.1, p.2.scanned.value)) {v : Bytes}
    (hv : buf.getValue x.loc.offset = some v) :
    (internalKey x, v) ∈ ds.map fun d => recordOf d.scanned := by
  rw [SealedGenBuffer.getValue, hbuf] at hv
  obtain ⟨r, hr, rfl⟩ := Option.map_eq_some_iff.mp hv
  obtain ⟨p, hp, rfl⟩ := List.mem_map.mp (List.mem_of_find?_eq_some hr)
  have hpred := List.find?_some hr
  have hoff : p.1 = x.loc.offset := beq_iff_eq.mp hpred
  have hlog : p.2.bytes <+: (log m x.loc.file).drop x.loc.offset := by
    have hplace := @prefix_of_mem_places ds 0 [] rfl p hp
    rw [List.nil_append, ← hcontent, hoff] at hplace
    have hin := hplace.length_le
    have hge := p.2.framed.length_eq.1
    rw [List.length_drop] at hin
    rw [log, List.drop_append_of_le_length (by omega)]
    exact hplace.trans (List.prefix_append _ _)
  obtain ⟨d, -, ⟨r, hdecode, huser, hseq, htype⟩, hd⟩ | ⟨hgone, -⟩ := hx.placed
  · have hsame : d = p.2.bytes := eq_of_framed_prefix ⟨_, hdecode⟩ p.2.framed hd hlog
    have hr : r = p.2.scanned := by
      have hboth := hdecode.symm.trans (hsame ▸ p.2.decodes)
      obtain ⟨hh, hkv⟩ := Prod.mk.inj (Except.ok.inj hboth)
      obtain ⟨hk, hv⟩ := Prod.mk.inj hkv
      cases r
      cases hs : p.2.scanned
      simp_all
    refine List.mem_map.mpr ⟨p.2, ?_, ?_⟩
    · rw [← map_snd_places 0 ds]
      exact List.mem_map_of_mem hp
    · rw [internalKey, huser, hseq, htype, hr]
      rfl
  · have hin := hlog.length_le
    have hge := p.2.framed.length_eq.1
    rw [hgone, List.drop_nil, List.length_nil] at hin
    omega

/-- What the loop over the entries leaves. -/
theorem drainEntries_spec {buf : SealedGenBuffer} {es : List IndexEntry} {rs : List AsideRecord}
    (h : drainEntries buf f es = some rs) :
    rs.map Prod.fst = es.map internalKey ∧
      ∀ r ∈ rs, ∃ e ∈ es, e.loc.file = f ∧ ∃ v, buf.getValue e.loc.offset = some v ∧
        r = (internalKey e, v) := by
  induction es generalizing rs with
  | nil =>
    cases h
    exact ⟨rfl, fun r hr => absurd hr List.not_mem_nil⟩
  | cons e es ih =>
    rw [drainEntries] at h
    split at h
    next hfile =>
      split at h
      · cases h
      next v hv =>
        obtain ⟨rest, hrest, rfl⟩ := Option.map_eq_some_iff.mp h
        obtain ⟨hkeys, hmem⟩ := ih hrest
        refine ⟨by rw [List.map_cons, List.map_cons, hkeys], ?_⟩
        intro r hr
        obtain rfl | hr := List.mem_cons.mp hr
        · exact ⟨e, List.mem_cons_self, hfile, v, hv, rfl⟩
        · obtain ⟨e', he', hrest⟩ := hmem r hr
          exact ⟨e', List.mem_cons_of_mem _ he', hrest⟩
    · cases h

/-- The records of an index come in the order of internal keys, and no two of them are equal in it. -/
theorem pairwise_of_ascending {es : List IndexEntry} (hes : Ascending (compareKeySeq ucmp) es)
    {rs : List AsideRecord} (hkeys : rs.map Prod.fst = es.map internalKey) :
    rs.Pairwise fun a b => asideLe ucmp a b = true ∧ asideLe ucmp b a = false := by
  have hes' : (es.map internalKey).Pairwise
      fun a b => internalLe ucmp a b = true ∧ internalLe ucmp b a = false := by
    rw [List.pairwise_map]
    refine List.Pairwise.imp ?_ hes
    intro a b hab
    rw [compareKeySeq, Ordering.then_eq_lt] at hab
    obtain hlt | ⟨heq, hseq⟩ := hab
    · refine ⟨internalLe_iff.mpr (.inl hlt), ?_⟩
      rw [internalLe]
      dsimp only [internalKey]
      rw [Std.OrientedCmp.gt_iff_lt.mpr hlt]
    · have hlt : b.seq < a.seq := compare_lt_iff_lt.mp hseq
      refine ⟨internalLe_iff.mpr (.inr ⟨heq, .inl hlt⟩), ?_⟩
      rw [Bool.eq_false_iff, ne_eq, internalLe_iff]
      rintro (hgt | ⟨-, hle | ⟨heq', -⟩⟩)
      · cases (Std.OrientedCmp.eq_symm heq).symm.trans hgt
      · exact absurd hle (Nat.not_lt.mpr hlt.le)
      · exact absurd heq' (Nat.ne_of_gt hlt)
  rw [← hkeys, List.pairwise_map] at hes'
  exact hes'

instance : Std.Total fun a b : AsideRecord => asideLe ucmp a b = true :=
  ⟨fun a b => Std.Total.total (r := fun a b => internalLe ucmp a b = true) a.1 b.1⟩

instance : IsTrans AsideRecord fun a b => asideLe ucmp a b = true :=
  ⟨fun a b c => IsTrans.trans (r := fun a b => internalLe ucmp a b = true) a.1 b.1 c.1⟩

/-- A drained generation is its records, sorted. -/
theorem drainGen_spec (hstored : ∀ p x, Stored ctx.indexSet p x → Backed ctx.wal x)
    (hsorted : Sorted ctx.ucmp ctx.indexSet) {aside : Aside} (h : drainGen ctx f = some aside) :
    ctx.wal.env.exists? f = true ∧ ∃ ds : List Frame,
      ctx.wal.env.content f = ds.flatMap Frame.bytes ∧
        aside.records = (ds.map fun d => recordOf d.scanned).insertionSort
          (fun a b => asideLe ctx.ucmp a b) ∧
        aside.minSeq = (aside.records.map fun r => r.1.seq).foldl min (2 ^ 64 - 1) := by
  rw [drainGen] at h
  cases hidx : getFrozen ctx.indexSet f.1 f.2 with
  | none =>
    rw [hidx] at h
    cases h
  | some idx =>
    rw [hidx] at h
    dsimp only at h
    rw [loadFile] at h
    split at h
    · cases h
    next buf hload =>
      split at hload
      swap
      · cases hload
      next hexists =>
        obtain ⟨ds, hcontent, hbuf⟩ := load_spec hload
        have hmem : idx ∈ ctx.indexSet.chain f.1 :=
          List.mem_append_right _ (List.mem_reverse.mpr (List.mem_of_find?_eq_some hidx))
        refine ⟨hexists, ds, hcontent, ?_⟩
        rw [drainPartitionAside] at h
        cases hdrain : drainEntries buf f idx.entries with
        | none =>
          rw [hdrain] at h
          cases h
        | some rs =>
          rw [hdrain] at h
          dsimp only at h
          split at h
          · cases h
          next hcount =>
            cases h
            refine ⟨?_, rfl⟩
            obtain ⟨hkeys, hrecords⟩ := drainEntries_spec hdrain
            have hstrict := pairwise_of_ascending (hsorted f.1 idx hmem) hkeys
            have hsub : rs ⊆ ds.map fun d => recordOf d.scanned := by
              intro r hr
              obtain ⟨e, he, hfile, v, hv, rfl⟩ := hrecords r hr
              rw [← hfile] at hcontent
              exact mem_records_of_getValue (hstored f.1 e ⟨idx, hmem, he⟩) hcontent hbuf hv
            have hlen : rs.length = (ds.map fun d => recordOf d.scanned).length := by
              rw [not_not] at hcount
              rw [hcount, SealedGenBuffer.recordCount, hbuf, List.length_map, List.length_map,
                ← map_snd_places 0 ds, List.length_map, map_snd_places]
            have hnodup : rs.Nodup := by
              refine hstrict.imp ?_
              rintro a b ⟨hle, hnot⟩ rfl
              rw [hle] at hnot
              cases hnot
            have hperm : rs.Perm (ds.map fun d => recordOf d.scanned) :=
              (List.subperm_of_subset hnodup hsub).perm_of_length_le hlen.ge
            refine @List.Perm.eq_of_pairwise _ (fun a b => asideLe ctx.ucmp a b = true) _ _ ?_
              (hstrict.imp And.left) (List.pairwise_insertionSort _ _)
              (hperm.trans (List.perm_insertionSort _ _).symm)
            intro a b ha hb hab hba
            have hb' : b ∈ rs := hperm.mem_iff.mpr ((List.mem_insertionSort _).mp hb)
            by_contra hne
            obtain hlt | hlt := rel_or_rel_of_pairwise hstrict ha hb' hne
            · rw [hba] at hlt
              cases hlt.2
            · rw [hab] at hlt
              cases hlt.2

end generation

/-- Every record from the position on takes at most one block, and its sequence number fits into an
internal key. -/
def plainFrom (buf : Bytes) : ℕ → ℕ → Bool
  | 0, _ => true
  | fuel + 1, pos =>
    if pos < buf.length then
      let h := decodeHeader (buf.drop pos)
      let total := zfRecordLength h.keyLen h.valLen
      decide (total ≤ kScanChunkSize) && decide (h.seq.toNat ≤ kMaxSequenceNumber) &&
        plainFrom buf fuel (pos + total)
    else true

def Plain (content : Bytes) : Prop := plainFrom content (content.length + 1) 0 = true

instance (content : Bytes) : Decidable (Plain content) :=
  inferInstanceAs (Decidable (plainFrom content (content.length + 1) 0 = true))

/-- The walk over the headers sees every frame. -/
theorem plainFrom_frames {buf : Bytes} {fuel pos : ℕ} {ds : List Frame}
    (hpos : buf.drop pos = ds.flatMap Frame.bytes) (hfuel : buf.length - pos < fuel)
    (h : plainFrom buf fuel pos = true) :
    ∀ d ∈ ds, d.bytes.length ≤ kScanChunkSize ∧
      d.scanned.header.seq.toNat ≤ kMaxSequenceNumber := by
  induction ds generalizing fuel pos with
  | nil => exact fun d hd => absurd hd List.not_mem_nil
  | cons d ds ih =>
    obtain ⟨fuel, rfl⟩ := Nat.exists_eq_succ_of_ne_zero (Nat.ne_of_gt (Nat.zero_lt_of_lt hfuel))
    have hge := d.framed.length_eq.1
    have hlt : pos < buf.length := by
      have hlen := congrArg List.length hpos
      rw [List.length_drop, List.flatMap_cons, List.length_append] at hlen
      omega
    have hheader : decodeHeader (buf.drop pos) = d.scanned.header := by
      rw [hpos, List.flatMap_cons, decodeHeader_append (by omega), header_of_decode d.decodes]
    have htotal : zfRecordLength d.scanned.header.keyLen d.scanned.header.valLen =
        d.bytes.length := by
      rw [header_of_decode d.decodes]
      exact d.framed.length_eq.2.symm
    rw [plainFrom, if_pos hlt] at h
    dsimp only at h
    rw [hheader, htotal, Bool.and_eq_true, Bool.and_eq_true, decide_eq_true_iff,
      decide_eq_true_iff] at h
    have hrest : buf.drop (pos + d.bytes.length) = ds.flatMap Frame.bytes := by
      rw [← List.drop_drop, hpos, List.flatMap_cons, List.drop_left]
    intro e he
    obtain rfl | he := List.mem_cons.mp he
    · exact h.1
    · exact ih hrest (by omega) h.2 e he

theorem Plain.frames {content : Bytes} (h : Plain content) {ds : List Frame}
    (hds : content = ds.flatMap Frame.bytes) : ∀ d ∈ ds, d.bytes.length ≤ kScanChunkSize ∧
      d.scanned.header.seq.toNat ≤ kMaxSequenceNumber :=
  @plainFrom_frames content _ 0 ds hds (Nat.lt_succ_of_le (Nat.sub_le _ _)) h

section runs
variable {ctx : ZeroFlushContext} {ucmp : UserComparator}

theorem joinRuns_eq {runs : List (List AsideRecord)}
    (hruns : ∀ run ∈ runs, run.Pairwise fun a b => asideLe ucmp a b) :
    joinRuns ucmp runs = runs.flatten.insertionSort fun a b => asideLe ucmp a b := by
  cases runs with
  | nil => rfl
  | cons run runs =>
    cases runs with
    | nil =>
      have hrun := hruns run List.mem_cons_self
      rw [joinRuns, List.flatten_singleton, List.Pairwise.insertionSort_eq hrun]
    | cons run' runs => exact mergeRuns_eq hruns

/-- What a scan of a plain file returns. -/
theorem scanSealed_frames {env : Env} {f : FileId} (hexists : env.exists? f = true) {ds : List Frame}
    (hcontent : env.content f = ds.flatMap Frame.bytes) (hplain : Plain (env.content f)) :
    scanSealed env f = .ok (ds.map Frame.scanned) := by
  have hds := hplain.frames hcontent
  obtain ⟨hrecords, hstatus⟩ := scan_frame_bytes fun d hd => (hds d hd).1
  rw [scanSealed, if_pos hexists, hcontent]
  dsimp only
  rw [hstatus, hrecords]

/-- The scan of a file whose first record has more than two blocks fails. -/
theorem scanSealed_long {env : Env} {f : FileId} (hexists : env.exists? f = true) {d : Frame}
    {rest : Bytes} (hcontent : env.content f = d.bytes ++ rest)
    (hlong : 2 * kScanChunkSize < d.bytes.length) : ∃ s, scanSealed env f = .error s := by
  obtain ⟨s, hs⟩ := Option.ne_none_iff_exists'.mp (@scan_long d rest hlong)
  rw [scanSealed, if_pos hexists, hcontent]
  dsimp only
  rw [hs]
  exact ⟨_, rfl⟩

/-- A run is its records sorted, with the least of their sequence numbers. -/
structure RunOf (ucmp : UserComparator) (rs : List Scanned) (run : Aside) : Prop where
  records_eq : run.records = (rs.map recordOf).insertionSort fun a b => asideLe ucmp a b
  minSeq_eq : run.minSeq = (rs.map fun r => r.header.seq.toNat).foldl min (2 ^ 64 - 1)

theorem runOf_drainGen (hstored : ∀ p x, Stored ctx.indexSet p x → Backed ctx.wal x)
    (hsorted : Sorted ctx.ucmp ctx.indexSet) {f : FileId} (hplain : Plain (ctx.wal.env.content f))
    {run : Aside} (h : drainGen ctx f = some run) :
    ∃ rs, scanSealed ctx.wal.env f = .ok rs ∧ RunOf ctx.ucmp rs run := by
  obtain ⟨hexists, ds, hcontent, hrecords, hmin⟩ := drainGen_spec hstored hsorted h
  have hds := hplain.frames hcontent
  have hmap : (ds.map fun d => recordOf d.scanned) = (ds.map Frame.scanned).map recordOf := by
    rw [List.map_map]
    rfl
  refine ⟨_, scanSealed_frames hexists hcontent hplain, hmap ▸ hrecords, ?_⟩
  have hseqs : (ds.map fun d => recordOf d.scanned).map (fun r => r.1.seq) =
      (ds.map Frame.scanned).map fun r => r.header.seq.toNat := by
    rw [List.map_map, List.map_map]
    refine List.map_congr_left ?_
    intro d hd
    exact Nat.mod_eq_of_lt (Nat.lt_of_le_pred (by decide) (hds d hd).2)
  rw [hmin, hrecords, ← hseqs]
  exact ((List.perm_insertionSort _ _).map _).foldl_eq' (fun x _ y _ z => min_right_comm z x y) _

/-- What the loop over the generations leaves, and what their scans return. -/
theorem drained_spec (hstored : ∀ p x, Stored ctx.indexSet p x → Backed ctx.wal x)
    (hsorted : Sorted ctx.ucmp ctx.indexSet) {gens : List FileId}
    (hplain : ∀ f ∈ gens, Plain (ctx.wal.env.content f)) {drained : List Aside}
    (h : gens.mapM (drainGen ctx) = some drained) :
    ∃ files, gens.mapM (scanSealed ctx.wal.env) = .ok files ∧
      List.Forall₂ (RunOf ctx.ucmp) files drained := by
  induction gens generalizing drained with
  | nil =>
    cases h
    exact ⟨[], rfl, List.Forall₂.nil⟩
  | cons f gens ih =>
    rw [List.mapM_cons] at h
    obtain ⟨run, hrun, h⟩ := Option.bind_eq_some_iff.mp h
    obtain ⟨rest, hrest, h⟩ := Option.bind_eq_some_iff.mp h
    cases h
    obtain ⟨rs, hrs, hof⟩ := runOf_drainGen hstored hsorted (hplain f List.mem_cons_self) hrun
    obtain ⟨files, hfiles, hall⟩ := ih (fun g hg => hplain g (List.mem_cons_of_mem _ hg)) hrest
    refine ⟨rs :: files, ?_, List.Forall₂.cons hof hall⟩
    rw [List.mapM_cons, hrs, hfiles]
    rfl

/-- The least sequence number over all runs. -/
theorem minSeq_runs {files : List (List Scanned)} {drained : List Aside}
    (h : List.Forall₂ (RunOf ucmp) files drained) {mn : ℕ} (hmn : mn ≤ 2 ^ 64 - 1) :
    drained.foldl (fun mn d => min mn d.minSeq) mn =
      (files.flatten.map fun r => r.header.seq.toNat).foldl min mn := by
  induction h generalizing mn with
  | nil => rfl
  | @cons rs run files drained hof _ ih =>
    have hfirst : min mn run.minSeq = (rs.map fun r => r.header.seq.toNat).foldl min mn := by
      rw [hof.minSeq_eq, ← @List.foldl_assoc _ min, min_eq_left hmn]
    rw [List.foldl_cons, ih ((min_le_left _ _).trans hmn), List.flatten_cons, List.map_append,
      List.foldl_append, hfirst]

theorem records_runs {files : List (List Scanned)} {drained : List Aside}
    (h : List.Forall₂ (RunOf ucmp) files drained) :
    drained.map Aside.records =
      files.map fun rs => (rs.map recordOf).insertionSort fun a b => asideLe ucmp a b := by
  induction h with
  | nil => rfl
  | cons hof _ ih => rw [List.map_cons, List.map_cons, ih, hof.records_eq]

/-- With sorted indexes whose entries stand in the log, the two paths agree. -/
theorem agreesWithSort_of_backed (hstored : ∀ p x, Stored ctx.indexSet p x → Backed ctx.wal x)
    (hsorted : Sorted ctx.ucmp ctx.indexSet) {gens : List FileId}
    (hplain : ∀ f ∈ gens, Plain (ctx.wal.env.content f)) : AgreesWithSort ctx gens := by
  intro sortAssist aside h
  rw [buildAsideFromFrozenIndex] at h
  split at h
  swap
  · cases h
  obtain ⟨drained, hdrained, rfl⟩ := Option.map_eq_some_iff.mp h
  obtain ⟨files, hfiles, hall⟩ := drained_spec hstored hsorted hplain hdrained
  have hruns := records_runs hall
  have hsortedRuns : ∀ run ∈ (drained.map Aside.records).filter fun run => run ≠ [],
      run.Pairwise fun a b => asideLe ctx.ucmp a b := by
    intro run hrun
    rw [hruns] at hrun
    obtain ⟨rs, -, rfl⟩ := List.mem_map.mp (List.mem_filter.mp hrun).1
    exact List.pairwise_insertionSort _ _
  rw [walSortedAside, hfiles, joinRuns_eq hsortedRuns, List.flatten_filter_ne_nil, hruns,
    minSeq_runs hall (by decide), ← List.flatMap_def, insertionSort_flatMap_sorted,
    List.flatMap_def, ← List.map_flatten]
  rfl

end runs

/-- In a run whose steps all meet the condition, the two paths agree for generations whose files have
plain records only. -/
theorem agreesWithSort_of_guarded (zfo : ZeroFlushOptions) (ucmp : UserComparator)
    (tables : PartitionTableSet) (sampler : Option KeySampler) (ops : List RoutedOp)
    (hok : Guarded ReleasedIndexes.step StepOk (start zfo ucmp tables sampler) ops)
    (gens : List FileId)
    (hplain : ∀ f ∈ gens, Plain
      ((run ReleasedIndexes.step (start zfo ucmp tables sampler) ops).wal.env.content f)) :
    AgreesWithSort (run ReleasedIndexes.step (start zfo ucmp tables sampler) ops) gens := by
  have h := invariant_run faithful_step (faithful_start zfo ucmp tables sampler) hok
  exact agreesWithSort_of_backed h.backed h.sorted hplain

def twoRanges : PartitionTableSet := .init (.cutAt 0 [98])

/-- Two generations of a partition, the second of them sealed with the other partition. -/
def sealTwice : List RoutedOp :=
  [.context (.addRecord ⟨[98], [1], kTypeValue, 1⟩ 0 0),
    .context (.addRecord ⟨[99], [2], kTypeDeletion, 2⟩ 0 0), .context (.freezeBatchPartitions []),
    .context (.addRecord ⟨[97], [3], kTypeValue, 3⟩ 0 0),
    .context (.addRecord ⟨[98], [4, 4], kTypeValue, 4⟩ 0 0), .context (.sealEpochAndSwitch [])]

def smallRecords : ZeroFlushContext := start { partitions := 2 } .bytewise twoRanges none

theorem agreesWithSort_sealTwice :
    Guarded ReleasedIndexes.step StepOk smallRecords sealTwice ∧
      buildAsideFromFrozenIndex (run ReleasedIndexes.step smallRecords sealTwice) true
        [(1, 0), (1, 1)] = some ⟨[(⟨[98], 4, kTypeValue⟩, [4, 4]), (⟨[98], 1, kTypeValue⟩, [1]),
          (⟨[99], 2, kTypeDeletion⟩, [2])], 1⟩ ∧
      AgreesWithSort (run ReleasedIndexes.step smallRecords sealTwice) [(1, 0), (1, 1)] := by
  have hg : Guarded ReleasedIndexes.step StepOk smallRecords sealTwice := by decide +kernel
  refine ⟨hg, by decide +kernel, ?_⟩
  exact agreesWithSort_of_guarded _ _ _ _ sealTwice hg _ (by decide +kernel)

section long

def oneRange : PartitionTableSet := .init ⟨0, false, [], 1, Nat.one_pos, fun _ => rfl⟩

def oneRecord : ZeroFlushContext := start { partitions := 1 } .bytewise oneRange none

/-- A generation with one record, sealed. -/
def sealOne (value : Bytes) : List RoutedOp :=
  [.context (.addRecord ⟨[97], value, kTypeValue, 1⟩ 0 0), .context (.sealEpochAndSwitch [])]

/-- The manager after the record: its log, and one partition with bytes. -/
theorem append_oneRecord (value : Bytes) : ∃ m,
    oneRecord.wal.append 0 ⟨[97], value, kTypeValue, 1⟩ = (.ok ⟨0, 0, 0⟩, m) ∧ HandlesOk m ∧
      log m (0, 0) = WalRecord.frame ⟨[97], value, kTypeValue, 1⟩ ∧
      ∃ p, m.parts.lookup 0 = some p ∧ p.gen = 0 ∧ 0 < p.totalSize := by
  have hok : Ok oneRecord.wal := (faithful_start _ _ _ _).ok
  generalize WalRecord.mk [97] value kTypeValue 1 = r
  have hp : oneRecord.wal.parts.lookup 0 = some { partId := 0 } := by decide +kernel
  have his : IsPartition oneRecord.wal 0 { partId := 0 } := .inl hp
  have happend : oneRecord.wal.append 0 r =
      (.ok ⟨0, 0, 0⟩, (oneRecord.wal.appendTo 0 { partId := 0 } r).2) := by
    rw [PartitionedWalManager.append, hp]
    rfl
  obtain ⟨-, -, -, hgens, -⟩ := append_ok happend
  obtain ⟨hhas, -⟩ := hasPartition_append happend
  have hokm := ok_appendTo hok his (.inl (by decide +kernel)) r
  have hlog : log (oneRecord.wal.appendTo 0 { partId := 0 } r).2 (0, 0) = r.frame := by
    have hempty : log oneRecord.wal (0, 0) = [] := by decide +kernel
    rw [log_appendTo hok.handles his, if_pos rfl, hempty, List.nil_append]
  obtain ⟨q, hq⟩ := hasPartition_iff.mp hhas
  have hgen : q.gen = 0 := by
    have hzero : oneRecord.wal.activeGen 0 = 0 := by decide +kernel
    have hactive := (hgens 0).trans hzero
    rwa [PartitionedWalManager.activeGen, hq] at hactive
  refine ⟨_, happend, hokm.handles, hlog, q, hq, hgen, ?_⟩
  have hsize := hokm.sizes 0 q hq
  have hlen := congrArg List.length hlog
  have hall := log_of_lookup hq
  rw [hgen] at hall
  rw [hall, List.length_append, length_frame] at hlen
  have hflushed := hsize.flushed_eq
  rw [hgen] at hflushed
  have htotal := hsize.total_eq
  rw [WalRecord.frameLength] at hlen
  omega

/-- The sealed generation: the frozen index has the entry, and the file the record. -/
theorem run_sealOne (value : Bytes) :
    getFrozen (run ReleasedIndexes.step oneRecord (sealOne value)).indexSet 0 0 =
        some ⟨0, [⟨[97], 1, kTypeValue, ⟨0, 0, 0⟩⟩]⟩ ∧
      (run ReleasedIndexes.step oneRecord (sealOne value)).wal.env.content (0, 0) =
        WalRecord.frame ⟨[97], value, kTypeValue, 1⟩ := by
  obtain ⟨m, happend, hhandles, hlog, p, hp, hgen, hpos⟩ := append_oneRecord value
  generalize hctx : (oneRecord.addRecord ⟨[97], value, kTypeValue, 1⟩ 0 0).2 = ctx
  have hrun : run ReleasedIndexes.step oneRecord (sealOne value) = ctx.sealEpochAndSwitch [] := by
    rw [← hctx]
    rfl
  have hpart : oneRecord.partOf ⟨[97], value, kTypeValue, 1⟩ 0 = 0 := rfl
  rw [ZeroFlushContext.addRecord, hpart, happend] at hctx
  have hwal : ctx.wal = m := by rw [← hctx]
  have hindex : ctx.indexSet = oneRecord.indexSet.insert .bytewise 0 0
      ⟨[97], 1, kTypeValue, ⟨0, 0, 0⟩⟩ := by
    rw [← hctx]
    rfl
  have hids : ctx.tables.current.partIds = [0] := by
    rw [← hctx]
    rfl
  obtain ⟨q, hparts, hnext, -, hfrozen⟩ := freeze_parts m hp
  have hgens : ([0].foldl sealWal (ctx.wal, ctx.nextEpoch.2)).2.gens = [(0, 0)] := by
    rw [List.foldl_cons, List.foldl_nil, sealWal, hwal, hfrozen]
    dsimp only
    rw [Option.getD_some, ZeroFlushContext.registerGen, if_pos hpos, hgen]
    rfl
  have hby := sealedBy_sealEpoch ctx []
  rw [hids, hgens] at hby
  rw [hrun]
  refine ⟨?_, ?_⟩
  · rw [hby.index_eq, hindex]
    decide +kernel
  · -- the sealed file has no buffer any more, so that its content is its log
    have hlog' := log_freeze hhandles hp (0, 0)
    rw [hgen, if_neg (by decide), hlog, log, hparts, buffered, lookup_insert_eq, if_pos rfl] at hlog'
    dsimp only at hlog'
    rw [hnext, hgen, if_neg (by decide), List.append_nil] at hlog'
    rw [hby.wal_eq, hwal]
    exact hlog'

/-- A record of more than two blocks comes out of the sort-free path, and the scan fails. -/
theorem sealOne_long {value : Bytes} (hlong : 2 * kScanChunkSize ≤ value.length)
    (hshort : value.length < 2 ^ 31) :
    buildAsideFromFrozenIndex (run ReleasedIndexes.step oneRecord (sealOne value)) true [(0, 0)] =
        some ⟨[(⟨[97], 1, kTypeValue⟩, value)], 1⟩ ∧
      ∀ aside, walSortedAside (run ReleasedIndexes.step oneRecord (sealOne value)) [(0, 0)] ≠
        .ok aside := by
  obtain ⟨hfrozen, hcontent⟩ := run_sealOne value
  generalize run ReleasedIndexes.step oneRecord (sealOne value) = ctx at hfrozen hcontent
  have hlen : WalRecord.frameLength ⟨[97], value, kTypeValue, 1⟩ = 29 + value.length := rfl
  have hdecode := @decodeZfRecord_frame ⟨[97], value, kTypeValue, 1⟩ (by omega)
  obtain ⟨frame, hframe, hvalue⟩ : ∃ frame : Frame,
      frame.bytes = WalRecord.frame ⟨[97], value, kTypeValue, 1⟩ ∧ frame.scanned.value = value :=
    ⟨⟨_, ⟨_, _, _⟩, hdecode⟩, rfl, rfl⟩
  have hbytes : frame.bytes.length = 29 + value.length := by rw [hframe, length_frame, hlen]
  have hfile : ctx.wal.env.content (0, 0) = [frame].flatMap Frame.bytes := by
    rw [List.flatMap_singleton, hframe, hcontent]
  have hexists : ctx.wal.env.exists? (0, 0) = true := by
    by_contra hnot
    rw [Env.content_of_not_exists (by simpa using hnot)] at hfile
    have hnil := congrArg List.length hfile
    rw [List.length_nil, List.flatMap_singleton, hbytes] at hnil
    omega
  constructor
  · have hload : loadFile ctx.wal.env (0, 0) = .ok ⟨[(0, value)]⟩ := by
      rw [loadFile, if_pos hexists, hfile, load_frames, places, List.map_cons, hvalue]
      rfl
    have hdrain : drainGen ctx (0, 0) = some ⟨[(⟨[97], 1, kTypeValue⟩, value)], 1⟩ := by
      rw [drainGen, hfrozen]
      dsimp only
      rw [hload]
      rfl
    rw [buildAsideFromFrozenIndex, if_pos rfl, List.mapM_cons, hdrain]
    rfl
  · intro aside h
    obtain ⟨s, hs⟩ := scanSealed_long hexists hfile (by omega)
    rw [walSortedAside, List.mapM_cons, hs] at h
    cases h

def longValue : Bytes := List.replicate (2 ^ 21) 0

theorem agreesWithSort_fails :
    buildAsideFromFrozenIndex (run ReleasedIndexes.step oneRecord (sealOne longValue)) true
        [(0, 0)] = some ⟨[(⟨[97], 1, kTypeValue⟩, longValue)], 1⟩ ∧
      (∀ aside, walSortedAside (run ReleasedIndexes.step oneRecord (sealOne longValue)) [(0, 0)] ≠
        .ok aside) ∧
      ¬ ∀ (zfo : ZeroFlushOptions) (ucmp : UserComparator) (tables : PartitionTableSet)
        (sampler : Option KeySampler) (ops : List RoutedOp) (gens : List FileId),
        AgreesWithSort (run ReleasedIndexes.step (start zfo ucmp tables sampler) ops) gens := by
  have hlen : longValue.length = 2 ^ 21 := List.length_replicate
  generalize longValue = value at hlen ⊢
  obtain ⟨hbuild, hscan⟩ := @sealOne_long value (by rw [hlen]; decide) (by rw [hlen]; decide)
  refine ⟨hbuild, hscan, ?_⟩
  intro hall
  exact hscan _ (hall _ _ _ _ (sealOne value) [(0, 0)] true _ hbuild)

end long

end ZeroFlush.SortFreeAside
