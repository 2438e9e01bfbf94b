import ZeroFlush.ScanReads

/-! # Scans and point reads over whole runs

The runs of a database: records are written, epochs sealed, released and purged, sessions begin
anew, and flushes and compactions install SSTs. -/
namespace ZeroFlush.ScanRuns
open FixedWidthCodec FiniteMaps WalFormat WalFiles PartitionedWal WalLogs WalOpening UserKeys
  OrderedInsertion PartitionIndexes IndexChains RecencyOrder IndexContents PartitionTables
  SealedFiles SequentialScan Context ContextRuns SealedEpochs ReadPaths ManagerConsistency
  RecoveredLocators SealedOwnership RecoveredAnswers BackedEntries ScanIterators ScanReads
  GuardedRuns
open ReleasedIndexes (Stored NoWrap gensOf)
open PinnedReaders (SealOp Sound Serves Reopens allIndexes ReaderRun)

inductive DatabaseOp
  | write (r : WalRecord) (tableVersion rnd : ℕ)
  | sync (part : ℕ)
  | sealEpoch (op : SealOp)
  | handOffSkipped (epoch : ℕ) (gens : List FileId) (partBytes : Map ℕ ℕ)
  | releaseEpoch (epoch : ℕ)
  | purgeSealedFiles
  | reopen (tables : PartitionTableSet)
  | crash (cut : FileId → ℕ) (tables : PartitionTableSet)
  | install (t : Tables)

namespace Database

/-- The database with another context. -/
def inContext (db : Database) (ctx : ZeroFlushContext) : Database := { db with ctx := ctx }

def step (db : Database) : DatabaseOp → Database
  | .write r v rnd => inContext db (db.ctx.addRecord r v rnd).2
  | .sync part => inContext db (ContextRuns.step db.ctx (.sync part))
  | .sealEpoch op => inContext db (op.context db.ctx)
  | .handOffSkipped epoch gens partBytes => inContext db { db.ctx with
      sealedCache := db.ctx.sealedCache.handOffSkippedToRecovery epoch gens partBytes }
  | .releaseEpoch epoch => inContext db (db.ctx.releaseEpoch epoch)
  | .purgeSealedFiles => inContext db db.ctx.purgeSealedFiles
  | .reopen tables => inContext db (db.ctx.openWith db.ctx.wal.reopen tables)
  | .crash cut tables => inContext db (db.ctx.openWith (restart db.ctx.wal cut) tables)
  | .install t => { db with tables := t }

/-- A new database, with the merge operators it is opened with. -/
def start (zfo : ZeroFlushOptions) (ucmp : UserComparator) (tables : PartitionTableSet)
    (sampler : Option KeySampler)
    (fullMerge : Option (Bytes → Option Bytes → List Bytes → Option Bytes))
    (mergeValues : Bytes → List Record → Except Status Bytes) : Database :=
  { ctx := ContextRuns.start zfo ucmp tables sampler, fullMerge := fullMerge,
    mergeValues := mergeValues }

end Database

/-- The entries of all indexes. -/
def indexed (s : PartitionIndexSet) : List IndexEntry := (allIndexes s).flatMap fun i => i.2.entries

/-- The records of a file, with their values. -/
def fileRecord (y : Scanned × ℕ) : Record :=
  (⟨y.1.key, y.1.header.seq.toNat, y.1.header.type⟩, y.1.value)

/-- The records of all files of a directory. -/
def fileRecords (env : Env) : List Record :=
  (ZeroFlushContext.replayOrder env).flatMap fun f =>
    (WalScanner.scan (env.content f)).1.map fileRecord

/-- A version that is newer than one of the records is among the records, and a version that one of
the records has too is the same. -/
def Reflected (rs : List Record) (x r : Record) : Prop :=
  r.1.userKey = x.1.userKey →
    (x.1.seq < r.1.seq → ∃ y ∈ rs, y.1.userKey = r.1.userKey ∧ y.1.seq = r.1.seq) ∧
      (r.1.seq = x.1.seq → r.1.type = x.1.type ∧ (x.1.type = kTypeValue → r.2 = x.2))

instance (rs : List Record) (x r : Record) : Decidable (Reflected rs x r) :=
  inferInstanceAs (Decidable (r.1.userKey = x.1.userKey → _ ∧ _))

/-- The records are not behind the SSTs. -/
def InFront (rs : List Record) (t : Tables) : Prop :=
  ∀ x ∈ rs, ∀ run ∈ t.runs, ∀ r ∈ run, Reflected rs x r

instance (rs : List Record) (t : Tables) : Decidable (InFront rs t) :=
  inferInstanceAs (Decidable (∀ x ∈ rs, ∀ run ∈ t.runs, ∀ r ∈ run, _))

/-- A write of a value or a point deletion: it has a sequence number above those of all versions of
its key, and goes into the active index of the partition the key is routed to. -/
def Writes (db : Database) (r : WalRecord) (tableVersion : ℕ) : Prop :=
  r.frameLength < 2 ^ 32 ∧ IsPoint r.type ∧ 0 < r.seq.toNat ∧ r.seq.toNat < 2 ^ 56 ∧
    db.ctx.routeWithVersion r.key tableVersion = db.ctx.route r.key ∧
    activeGen? db.ctx.indexSet (db.ctx.route r.key) =
      some (db.ctx.wal.activeGen (db.ctx.route r.key)) ∧
    (∀ x ∈ indexed db.ctx.indexSet, x.userKey = r.key → x.seq < r.seq.toNat) ∧
    ∀ run ∈ db.tables.runs, ∀ q ∈ run, q.1.userKey = r.key → q.1.seq < r.seq.toNat

instance (db : Database) (r : WalRecord) (tableVersion : ℕ) : Decidable (Writes db r tableVersion) :=
  inferInstanceAs (Decidable (_ ∧ _))

/-- The SSTs have the version of an entry. -/
def Materialized (t : Tables) (x : IndexEntry) : Prop :=
  ∃ run ∈ t.runs, ∃ r ∈ run, r.1.userKey = x.userKey ∧ r.1.seq = x.seq

instance (t : Tables) (x : IndexEntry) : Decidable (Materialized t x) :=
  inferInstanceAs (Decidable (∃ run ∈ t.runs, ∃ r ∈ run, _))

/-- A release takes no version that the SSTs have and leaves an older one of its key. -/
def Releases (db : Database) (epoch : ℕ) : Prop :=
  ∀ x ∈ indexed db.ctx.indexSet, ∀ y ∈ indexed db.ctx.indexSet, x.loc.file ∈ gensOf db.ctx epoch →
    y.loc.file ∉ gensOf db.ctx epoch → y.userKey = x.userKey → y.seq < x.seq →
    ¬ Materialized db.tables x

instance (db : Database) (epoch : ℕ) : Decidable (Releases db epoch) :=
  inferInstanceAs (Decidable (∀ x ∈ indexed db.ctx.indexSet, ∀ y ∈ indexed db.ctx.indexSet, _))

/-- A new session finds values and point deletions in the files that are routed to the partitions of
their files, searched by recency and not behind the SSTs. -/
def Restarts (db : Database) (env : Env) (tables : PartitionTableSet) : Prop :=
  Reopens env db.ctx.ucmp db.ctx.wal.partitions tables ∧ Sequenced env ∧
    SearchedByRecency db.ctx.ucmp tables.current env ∧
    (∀ x ∈ versions env, IsPoint x.type ∧ 0 < x.seq) ∧ InFront (fileRecords env) db.tables

instance (env : Env) : Decidable (Sequenced env) :=
  decidable_of_iff ((∀ x ∈ versions env, x.seq < 2 ^ 56) ∧ ∀ x ∈ versions env, ∀ y ∈ versions env,
    x.userKey = y.userKey → x.seq = y.seq → x = y) ⟨fun h => ⟨h.1, h.2⟩, fun h => ⟨h.1, h.2⟩⟩

instance (db : Database) (env : Env) (tables : PartitionTableSet) : Decidable (Restarts db env tables) :=
  inferInstanceAs (Decidable (_ ∧ _))

instance (ucmp : UserComparator) (t : Tables) : Decidable (Searchable ucmp t) :=
  decidable_of_iff ((∀ run ∈ t.runs, run.Pairwise fun a b =>
      ucmp.compare a.1.userKey b.1.userKey = .lt ∨
        ucmp.compare a.1.userKey b.1.userKey = .eq ∧ b.1.seq < a.1.seq) ∧
    Ordered (fun r : Record => r.1.userKey) (fun r => r.1.seq) t.runs ∧
    ∀ run ∈ t.runs, ∀ r ∈ run, IsPoint r.1.type)
    ⟨fun h => ⟨h.1, h.2.1, h.2.2⟩, fun h => ⟨h.1, h.2, h.3⟩⟩

/-- The condition on a step. A seal keeps every indexed key in its partition. -/
def StepOk (db : Database) : DatabaseOp → Prop
  | .write r v _ => Writes db r v
  | .sealEpoch op => NoWrap db.ctx.wal (op.parts db.ctx) ∧ ∀ x ∈ indexed db.ctx.indexSet,
      (op.context db.ctx).route x.userKey = db.ctx.route x.userKey
  | .handOffSkipped epoch gens _ => ∀ f ∈ gens, f ∈ ownedBy db.ctx.sealedCache epoch
  | .releaseEpoch epoch => Releases db epoch
  | .reopen tables => Restarts db db.ctx.wal.close.env tables
  | .crash cut tables => Restarts db (db.ctx.wal.env.crash cut) tables
  | .install t => Searchable db.ctx.ucmp t ∧
      InFront ((indexed db.ctx.indexSet).map (indexRecord db.ctx)) t
  | .sync _ | .purgeSealedFiles => True

instance decidableStepOk (db : Database) : (op : DatabaseOp) → Decidable (StepOk db op)
  | .write r v _ => inferInstanceAs (Decidable (Writes db r v))
  | .sealEpoch op => inferInstanceAs (Decidable (NoWrap db.ctx.wal (op.parts db.ctx) ∧
      ∀ x ∈ indexed db.ctx.indexSet, (op.context db.ctx).route x.userKey = db.ctx.route x.userKey))
  | .handOffSkipped epoch gens _ =>
    inferInstanceAs (Decidable (∀ f ∈ gens, f ∈ ownedBy db.ctx.sealedCache epoch))
  | .releaseEpoch epoch => inferInstanceAs (Decidable (Releases db epoch))
  | .reopen tables => inferInstanceAs (Decidable (Restarts db db.ctx.wal.close.env tables))
  | .crash cut tables => inferInstanceAs (Decidable (Restarts db (db.ctx.wal.env.crash cut) tables))
  | .install t => inferInstanceAs (Decidable (Searchable db.ctx.ucmp t ∧
      InFront ((indexed db.ctx.indexSet).map (indexRecord db.ctx)) t))
  | .sync _ | .purgeSealedFiles => .isTrue trivial

theorem mem_indexed {s : PartitionIndexSet} {x : IndexEntry} :
    x ∈ indexed s ↔ ∃ p, Stored s p x := by
  rw [indexed, List.mem_flatMap]
  constructor
  · rintro ⟨⟨p, i⟩, hi, hx⟩
    exact ⟨p, i, mem_allIndexes.mp hi, hx⟩
  · rintro ⟨p, i, hi, hx⟩
    exact ⟨(p, i), mem_allIndexes.mpr hi, hx⟩

/-- Sorted indexes with a filter, whose versions get older along every chain. -/
structure Arranged (ucmp : UserComparator) (s : PartitionIndexSet) : Prop where
  sorted : Sorted ucmp s
  filtered : Filtered s
  ordered : ∀ p, Ordered IndexEntry.userKey IndexEntry.seq
    ((s.chain p).map PartitionIndex.entries)

section arranged
variable {ucmp : UserComparator} {s : PartitionIndexSet} {part gen : ℕ} {e : IndexEntry}

theorem arranged_freeze (h : Arranged ucmp s) (part gen : ℕ) : Arranged ucmp (s.freeze part gen) := by
  refine ⟨?_, filtered_freeze h.filtered gen, ?_⟩
  · exact sorted_freezeIndexLoop h.sorted [(part, gen)]
  · intro p
    obtain ⟨⟨rest, hchain, hrest⟩, hother⟩ := chain_freeze s part gen
    cases eq_or_ne p part with
    | inl hp =>
      subst hp
      have hsub : rest.Sublist (s.chain p) := by
        obtain rfl | ⟨a, -, -, ha⟩ := hrest
        · exact List.Sublist.refl _
        · rw [ha]
          exact List.sublist_cons_self a rest
      rw [hchain, List.map_cons]
      refine List.pairwise_cons.mpr ⟨?_, (h.ordered p).sublist (hsub.map _)⟩
      exact fun l _ x hx => absurd hx List.not_mem_nil
    | inr hp =>
      rw [hother p hp]
      exact h.ordered p

theorem arranged_freezeIndexLoop (h : Arranged ucmp s) (fs : List (ℕ × ℕ)) :
    Arranged ucmp (freezeIndexLoop s fs) := by
  induction fs generalizing s with
  | nil => exact h
  | cons f fs ih => exact ih (arranged_freeze h f.1 f.2)

theorem arranged_releaseFrozen (h : Arranged ucmp s) (part gen : ℕ) :
    Arranged ucmp (s.releaseFrozen part gen) := by
  have hsub := chain_releaseFrozen_sublist s part gen
  refine ⟨?_, filtered_releaseFrozen h.filtered, ?_⟩
  · exact fun p i hi => h.sorted p i ((hsub p).subset hi)
  · exact fun p => (h.ordered p).sublist ((hsub p).map _)

/-- A version above all others of its key goes into the active index, which is searched first. -/
theorem arranged_insert (h : Arranged ucmp s) (hactive : activeGen? s part = some gen)
    (hnew : ∀ p x, Stored s p x → x.userKey = e.userKey → x.seq < e.seq) :
    Arranged ucmp (s.insert ucmp part gen e) := by
  refine ⟨sorted_insert h.sorted, filtered_insert h.filtered, ?_⟩
  obtain ⟨a, ha, rfl⟩ := Option.map_eq_some_iff.mp hactive
  have hinsert : s.insert ucmp part a.gen e = s.insertActive ucmp part e := by
    rw [PartitionIndexSet.insert, ha]
    exact if_pos rfl
  intro p
  rw [hinsert, chain_insertActive ha]
  split
  next hp =>
    subst hp
    have hord := h.ordered p
    rw [chain_of_active ha, List.map_cons] at hord
    obtain ⟨hhead, hrest⟩ := List.pairwise_cons.mp hord
    refine List.pairwise_cons.mpr ⟨?_, hrest⟩
    intro l hl x hx y hy hkey
    obtain rfl | hx := mem_inserted hx
    · obtain ⟨j, hj, rfl⟩ := List.mem_map.mp hl
      have hjs : j ∈ s.chain p := chain_of_active ha ▸ List.mem_cons_of_mem _ hj
      exact hnew p y ⟨j, hjs, hy⟩ hkey.symm
    · exact hhead l hl x hx y hy hkey
  · exact h.ordered p

end arranged

/-- What the database keeps to along a run. -/
structure Healthy (db : Database) : Prop where
  distinguishes : db.ctx.ucmp.DistinguishesBytes
  sound : Sound db.ctx
  arranged : Arranged db.ctx.ucmp db.ctx.indexSet
  routed : ∀ p x, Stored db.ctx.indexSet p x → db.ctx.route x.userKey = p
  points : ∀ p x, Stored db.ctx.indexSet p x → IsPoint x.type ∧ 0 < x.seq
  searchable : Searchable db.ctx.ucmp db.tables
  first : IndexFirst db.ctx db.tables

variable {db : Database} {ctx ctx' : ZeroFlushContext} {ref : WalRecordRef}

theorem Healthy.tidy (h : Healthy db) : Tidy db.ctx :=
  ⟨h.arranged.sorted, h.arranged.filtered, h.arranged.ordered, h.routed, h.points,
    fun p x hx => (h.sound.stored p x hx).readValue h.sound.ok⟩

theorem Healthy.scanAgrees (h : Healthy db) (snapshot : ℕ) : ScanAgrees db snapshot :=
  scanAgrees_of_tidy h.distinguishes h.tidy h.searchable h.first snapshot

/-- A locator that is served before and after a step reads the same value if the step keeps the
records of the log. -/
theorem readValue_eq (hs : Sound ctx) (hs' : Sound ctx') (h : Serves ctx ref) (h' : Serves ctx' ref)
    (hkeeps : ∀ P, Keeps ctx.wal ref P → Keeps ctx'.wal ref P) :
    ctx'.readValue ref = ctx.readValue ref := by
  obtain ⟨d, hd, hplaced, hread⟩ := h.decodes hs.ok
  obtain ⟨d', hd', hplaced', hread'⟩ := h'.decodes hs'.ok
  have hgen : ref.gen ≤ ctx.wal.activeGen ref.partId := by
    obtain hactive | hkept := h.held
    · exact hactive.le
    · exact (hs.separate.old ref.file hkept (PinnedReaders.Readable.appendable h.readable).2).le
  have hkept := hkeeps (· = d) ⟨h.readable.managed, hgen, .inl ⟨d, hd, rfl, hplaced⟩⟩
  obtain ⟨c, hc, rfl, hcplaced⟩ | ⟨hgone, -⟩ := hkept.placed
  · rw [hread, hread', eq_of_framed_prefix hd' hc hplaced' hcplaced]
  · have hin := hplaced'.length_le
    have hge := hd'.length_eq.1
    rw [hgone, List.drop_nil, List.length_nil] at hin
    omega

/-- A step that adds no entries, and takes away none of which the SSTs have the version while an
older one of the key stays. -/
theorem Healthy.of_subset (h : Healthy db) (hucmp : ctx'.ucmp = db.ctx.ucmp) (hsound : Sound ctx')
    (harranged : Arranged db.ctx.ucmp ctx'.indexSet)
    (hsub : ∀ p x, Stored ctx'.indexSet p x → Stored db.ctx.indexSet p x ∧
      ctx'.route x.userKey = db.ctx.route x.userKey)
    (hkeeps : ∀ ref P, Keeps db.ctx.wal ref P → Keeps ctx'.wal ref P)
    (hleft : ∀ p x, Stored ctx'.indexSet p x → ∀ q y, Stored db.ctx.indexSet q y →
      y.userKey = x.userKey → x.seq < y.seq → Materialized db.tables y →
      Stored ctx'.indexSet q y) : Healthy (Database.inContext db ctx') where
  distinguishes := by
    show ctx'.ucmp.DistinguishesBytes
    rw [hucmp]
    exact h.distinguishes
  sound := hsound
  arranged := by
    show Arranged ctx'.ucmp _
    rw [hucmp]
    exact harranged
  routed p x hx := (hsub p x hx).2.trans (h.routed p x (hsub p x hx).1)
  points p x hx := h.points p x (hsub p x hx).1
  searchable := by
    show Searchable ctx'.ucmp _
    rw [hucmp]
    exact h.searchable
  first := by
    refine ⟨?_, ?_⟩
    · intro p x hx run hrun r hr hkey hlt
      obtain ⟨q, y, hy, hykey, hyseq⟩ := h.first.newer p x (hsub p x hx).1 run hrun r hr hkey hlt
      refine ⟨q, y, hleft p x hx q y hy (hykey.trans hkey) (hyseq ▸ hlt) ?_, hykey, hyseq⟩
      exact ⟨run, hrun, r, hr, hykey.symm, hyseq.symm⟩
    · intro p x hx run hrun r hr hkey hseq
      obtain ⟨hold, -⟩ := hsub p x hx
      obtain ⟨htype, hvalue⟩ := h.first.same p x hold run hrun r hr hkey hseq
      refine ⟨htype, fun hv => ?_⟩
      show ctx'.readValue x.loc = _
      rw [readValue_eq h.sound hsound (h.sound.stored p x hold) (hsound.stored p x hx) (hkeeps x.loc)]
      exact hvalue hv

/-- A step that leaves the indexes and the routes alone. -/
theorem Healthy.of_indexSet_eq (h : Healthy db) (hucmp : ctx'.ucmp = db.ctx.ucmp)
    (htables : ctx'.tables = db.ctx.tables) (hindex : ctx'.indexSet = db.ctx.indexSet)
    (hsound : Sound ctx') (hkeeps : ∀ ref P, Keeps db.ctx.wal ref P → Keeps ctx'.wal ref P) :
    Healthy (Database.inContext db ctx') := by
  refine h.of_subset hucmp hsound (hindex ▸ h.arranged) ?_ hkeeps ?_
  · intro p x hx
    refine ⟨hindex ▸ hx, ?_⟩
    rw [ZeroFlushContext.route, hucmp, htables]
    rfl
  · exact fun p x _ q y hy _ _ _ => hindex ▸ hy

theorem healthy_sync (h : Healthy db) (part : ℕ) : Healthy (Database.step db (.sync part)) :=
  h.of_indexSet_eq rfl rfl rfl (PinnedReaders.sound_sync h.sound part).1
    fun _ _ hk => keeps_sync h.sound.ok part hk

theorem healthy_handOff (h : Healthy db) {epoch : ℕ} {gens : List FileId} {partBytes : Map ℕ ℕ}
    (hsub : ∀ f ∈ gens, f ∈ ownedBy db.ctx.sealedCache epoch) :
    Healthy (Database.step db (.handOffSkipped epoch gens partBytes)) :=
  h.of_indexSet_eq rfl rfl rfl
    (PinnedReaders.pinned_handOff (PinnedReaders.pinned_reopened h.sound) hsub partBytes).sound
    fun _ _ hk => hk

theorem healthy_purge (h : Healthy db) : Healthy (Database.step db .purgeSealedFiles) := by
  have hactive : ∀ f ∈ db.ctx.sealedCache.pendingUnlink, ∀ p, db.ctx.wal.parts.lookup f.1 = some p →
      p.gen ≠ f.2 := by
    intro f hf p hp he
    have hlt := h.sound.unlinkOld f hf (.inl (hasPartition_iff.mpr ⟨p, hp⟩))
    simp [PartitionedWalManager.activeGen, hp, he] at hlt
  exact h.of_indexSet_eq rfl rfl rfl
    (PinnedReaders.pinned_purge (PinnedReaders.pinned_reopened h.sound)).sound
    (keeps_unlinks _ h.sound.ok hactive).2

theorem healthy_seal (h : Healthy db) {op : SealOp} (hok : StepOk db (.sealEpoch op)) :
    Healthy (Database.step db (.sealEpoch op)) := by
  obtain ⟨hwrap, hroute⟩ := hok
  cases hseals : op.seals db.ctx with
  | false =>
    have hsound := (PinnedReaders.sound_of_not_seals h.sound hseals hwrap).1
    rw [Database.step]
    rw [PinnedReaders.context_of_not_seals hseals] at hsound ⊢
    refine h.of_indexSet_eq rfl rfl rfl hsound ?_
    exact fun ref P hk => hk.of_log_eq hk.managed le_rfl rfl
  | true =>
    obtain ⟨fs, t, hby⟩ := PinnedReaders.sealedBy_context hseals
    have hinto := PinnedReaders.sealsInto_context h.sound hseals hwrap
    refine h.of_subset hby.ucmp_eq hinto.sound ?_ ?_ ?_ ?_
    · rw [hby.index_eq]
      exact arranged_freezeIndexLoop h.arranged fs
    · intro p x hx
      rw [hby.index_eq, stored_freezeIndexLoop] at hx
      exact ⟨hx, hroute x (mem_indexed.mpr ⟨p, hx⟩)⟩
    · intro ref P hk
      have hkeeps := @keeps_seals db.ctx.wal ref P (op.parts db.ctx) db.ctx.nextEpoch.2 hwrap
        h.sound.ok hk
      rw [hby.wal_eq]
      exact hkeeps.of_log_eq hkeeps.managed le_rfl rfl
    · intro p x _ q y hy _ _ _
      rw [hby.index_eq, stored_freezeIndexLoop]
      exact hy

theorem healthy_release (h : Healthy db) {epoch : ℕ} (hok : Releases db epoch) :
    Healthy (Database.step db (.releaseEpoch epoch)) := by
  have hexact := h.sound.separate.releasesExactly epoch
  refine h.of_subset rfl (PinnedReaders.sound_releaseEpoch h.sound epoch).1 ?_ ?_ (fun _ _ hk => hk) ?_
  · refine List.foldlRecOn (motive := Arranged db.ctx.ucmp) _ _ h.arranged ?_
    exact fun s hs f _ => arranged_releaseFrozen hs f.1 f.2
  · exact fun p x hx => ⟨((hexact p x).mp hx).1, rfl⟩
  · intro p x hx q y hy hkey hlt hmat
    obtain ⟨hold, hnot⟩ := (hexact p x).mp hx
    refine (hexact q y).mpr ⟨hy, fun hgen => ?_⟩
    exact hok y (mem_indexed.mpr ⟨q, hy⟩) x (mem_indexed.mpr ⟨p, hold⟩) hgen hnot hkey.symm hlt hmat

theorem healthy_write (h : Healthy db) {r : WalRecord} {v : ℕ} (hok : Writes db r v) (rnd : ℕ) :
    Healthy (Database.step db (.write r v rnd)) := by
  obtain ⟨hlen, hpoint, hpos, hlt, hroute, hactive, hidx, hsst⟩ := hok
  have hpart : db.ctx.partOf r v = db.ctx.route r.key := by
    rw [ZeroFlushContext.partOf, if_neg, hroute]
    intro htype
    rw [IsPoint, htype] at hpoint
    exact absurd hpoint (by decide)
  cases hadd : db.ctx.addRecord r v rnd with
  | mk res ctx' =>
    have hstep : Database.step db (.write r v rnd) = Database.inContext db ctx' := by
      rw [Database.step, hadd]
    rw [hstep]
    cases res with
    | error e =>
      obtain rfl := HeldVersions.addRecord_error hadd
      exact h
    | ok ref =>
      obtain ⟨hsound, hserves, -⟩ := PinnedReaders.sound_addRecord h.sound hlen hadd
      rw [ZeroFlushContext.addRecord] at hadd
      cases ha : db.ctx.wal.append (db.ctx.partOf r v) r with
      | mk res wal =>
        rw [ha] at hadd
        cases res with
        | error e => cases hadd
        | ok ref' =>
          obtain ⟨rfl, rfl⟩ : ref' = ref ∧ _ = ctx' := by simpa using hadd
          obtain ⟨-, hgen, -⟩ := append_ok ha
          obtain ⟨-, -, hkeeps⟩ := keeps_append h.sound.ok hlen ha
          rw [hpart] at hgen hsound hserves ⊢
          have hseq : (indexEntry r ref').seq = r.seq.toNat := Nat.mod_eq_of_lt hlt
          have hnew : ∀ p x, Stored db.ctx.indexSet p x → x.userKey = (indexEntry r ref').userKey →
              x.seq < (indexEntry r ref').seq := by
            intro p x hx hkey
            rw [hseq]
            exact hidx x (mem_indexed.mpr ⟨p, hx⟩) hkey
          refine ⟨h.distinguishes, hsound, ?_, ?_, ?_, h.searchable, ?_, ?_⟩
          · exact arranged_insert h.arranged (hgen ▸ hactive) hnew
          · intro p x hx
            obtain ⟨rfl, rfl⟩ | hx := stored_insert hx
            · rfl
            · exact h.routed p x hx
          · intro p x hx
            obtain ⟨-, rfl⟩ | hx := stored_insert hx
            · exact ⟨hpoint, hseq ▸ hpos⟩
            · exact h.points p x hx
          · intro p x hx run hrun q hq hkey hlt'
            obtain ⟨-, rfl⟩ | hx := stored_insert hx
            · have hbelow := hsst run hrun q hq hkey
              omega
            · obtain ⟨p', y, hy, hrest⟩ := h.first.newer p x hx run hrun q hq hkey hlt'
              exact ⟨p', y, stored_insert_of_stored hy, hrest⟩
          · intro p x hx run hrun q hq hkey hsame
            obtain ⟨-, rfl⟩ | hold := stored_insert hx
            · have hbelow := hsst run hrun q hq hkey
              omega
            · obtain ⟨htype, hvalue⟩ := h.first.same p x hold run hrun q hq hkey hsame
              have hserved := h.sound.stored p x hold
              refine ⟨htype, fun hv => ?_⟩
              refine Eq.trans ?_ (hvalue hv)
              exact readValue_eq h.sound hsound hserved (hserves _ hserved) (hkeeps x.loc)

section recover
variable {env : Env} {n target : ℕ} {t : Tables}

theorem mem_versions {x : IndexEntry} : x ∈ versions env ↔
    ∃ f ∈ env.listFiles, ∃ y ∈ (WalScanner.scan (env.content f)).1, x = versionOf f y := by
  rw [versions, List.mem_flatMap]
  constructor
  · rintro ⟨f, hf, hx⟩
    obtain ⟨y, hy, rfl⟩ := List.mem_map.mp hx
    exact ⟨f, (List.mem_insertionSort _).mp hf, y, hy, rfl⟩
  · rintro ⟨f, hf, y, hy, rfl⟩
    exact ⟨f, (List.mem_insertionSort _).mpr hf, List.mem_map_of_mem hy⟩

theorem mem_fileRecords {r : Record} : r ∈ fileRecords env ↔
    ∃ f ∈ env.listFiles, ∃ y ∈ (WalScanner.scan (env.content f)).1, r = fileRecord y := by
  rw [fileRecords, List.mem_flatMap]
  constructor
  · rintro ⟨f, hf, hx⟩
    obtain ⟨y, hy, rfl⟩ := List.mem_map.mp hx
    exact ⟨f, (List.mem_insertionSort _).mp hf, y, hy, rfl⟩
  · rintro ⟨f, hf, y, hy, rfl⟩
    exact ⟨f, (List.mem_insertionSort _).mpr hf, List.mem_map_of_mem hy⟩

/-- The replay indexes every record in the partition its key is routed to. -/
theorem routed_recover (hindex : ctx.indexSet = {})
    (hb : ∀ x ∈ versions ctx.wal.env, x.seq < 2 ^ 56) {p : ℕ} {x : IndexEntry}
    (hx : Stored ctx.recover.indexSet p x) : ctx.tables.current.route ctx.ucmp x.userKey = p := by
  obtain ⟨cache, -, -, -, heq⟩ := replays_recover hb
  set adopted : ZeroFlushContext := { ctx with sealedCache := cache }
  rw [heq] at hx
  refine List.foldlRecOn (motive := fun s : PartitionIndexSet => ∀ p x, Stored s p x →
    ctx.tables.current.route ctx.ucmp x.userKey = p) (versions ctx.wal.env) _ ?_ ?_ p x hx
  · rintro q z ⟨i, hi, hz⟩
    obtain ⟨-, -, -, hempty⟩ : Sorted ctx.ucmp adopted.ensureActives.indexSet ∧ _ :=
      ensureActive_empty hindex ctx.recoverParts fun p => maxGen p ctx.wal.env.listFiles
    rw [hempty q i hi] at hz
    cases hz
  · rintro s hs y - q z hz
    obtain ⟨rfl, rfl⟩ | hz := stored_insertCreate hz
    · rfl
    · exact hs q z hz

theorem stored_recover_iff (hd : ctx.ucmp.DistinguishesBytes) (hindex : ctx.indexSet = {})
    (hseq : Sequenced ctx.wal.env) {p : ℕ} {x : IndexEntry} :
    Stored ctx.recover.indexSet p x ↔
      x ∈ versions ctx.wal.env ∧ ctx.tables.current.route ctx.ucmp x.userKey = p := by
  have hchain := fun q hq => (@rebuilt_recover q ctx hd hindex hseq hq).1
  have hmem : ∀ q, Stored ctx.recover.indexSet q x ↔
      x ∈ (ctx.recover.indexSet.chain q).flatMap PartitionIndex.entries :=
    fun q => List.mem_flatMap.symm
  constructor
  · intro hx
    have hroute := routed_recover hindex hseq.bounded hx
    subst hroute
    exact (hchain _ (PartitionTable.route_lt _ _ _)).mem_flatMap.mp ((hmem _).mp hx)
  · rintro ⟨hx, rfl⟩
    exact (hmem _).mpr ((hchain _ (PartitionTable.route_lt _ _ _)).mem_flatMap.mpr ⟨hx, rfl⟩)

theorem arranged_recover (hd : ctx.ucmp.DistinguishesBytes) (hindex : ctx.indexSet = {})
    (hseq : Sequenced ctx.wal.env)
    (hsearch : SearchedByRecency ctx.ucmp ctx.tables.current ctx.wal.env) :
    Arranged ctx.ucmp ctx.recover.indexSet := by
  obtain ⟨-, hsorted, hfiltered⟩ :=
    @rebuilt_recover (ctx.tables.current.route ctx.ucmp []) ctx hd hindex hseq
      (PartitionTable.route_lt _ _ _)
  refine ⟨hsorted, hfiltered, ?_⟩
  intro p
  rcases Nat.lt_or_ge p ctx.tables.current.partitions with hp | hp
  · exact (rebuilt_recover hd hindex hseq hp).1.ordered (hsearch p hp)
  · -- no key is routed to such a partition
    refine List.pairwise_of_forall_mem_list ?_
    intro l hl l' _ x hx
    obtain ⟨i, hi, rfl⟩ := List.mem_map.mp hl
    have hroute := routed_recover hindex hseq.bounded ⟨i, hi, hx⟩
    have hlt := PartitionTable.route_lt ctx.ucmp ctx.tables.current x.userKey
    omega

/-- A replayed value is read from its file. -/
theorem readValue_recover (hwal : ctx.wal = (PartitionedWalManager.create env n target).open_)
    (hsound : Sound ctx.recover) {f : FileId} {y : Scanned × ℕ}
    (hy : y ∈ (WalScanner.scan (env.content f)).1)
    (hserves : Serves ctx.recover (replayedRef f y)) (htype : y.1.header.type = kTypeValue) :
    ctx.recover.readValue (replayedRef f y) = .ok y.1.value := by
  obtain ⟨d, hd, hplaced, hread⟩ := hserves.decodes hsound.ok
  obtain ⟨c, hdecode, hprefix⟩ := framed_replayed (f := f) hy
  have hc : Framed c := ⟨_, hdecode⟩
  have hlog : c <+: (log ctx.recover.wal f).drop (replayedRef f y).offset := by
    have hge := hc.length_eq.1
    have hin := hprefix.length_le
    rw [List.length_drop] at hin
    rw [wal_recover, hwal]
    show c <+: (env.content f ++ _).drop _
    rw [List.drop_append_of_le_length (by omega)]
    exact hprefix.trans (List.prefix_append _ _)
  rw [hread, eq_of_framed_prefix hd hc hplaced hlog, decodeValue, hdecode]
  dsimp only
  rw [htype, if_neg (by decide)]

/-- A new session. -/
theorem healthy_recover (hd : ctx.ucmp.DistinguishesBytes)
    (hwal : ctx.wal = (PartitionedWalManager.create env n target).open_)
    (hindex : ctx.indexSet = {}) (hsound : Sound ctx.recover) (hseq : Sequenced env)
    (hsearch : SearchedByRecency ctx.ucmp ctx.tables.current env)
    (hpoints : ∀ x ∈ versions env, IsPoint x.type ∧ 0 < x.seq)
    (hfront : InFront (fileRecords env) db.tables) (hs : Searchable ctx.ucmp db.tables) :
    Healthy (Database.inContext db ctx.recover) := by
  have henv : ctx.wal.env = env := by
    rw [hwal]
    rfl
  rw [← henv] at hseq hsearch hpoints
  obtain ⟨cache, -, htables, hucmp, -⟩ := replays_recover hseq.bounded
  replace htables : ctx.recover.tables = ctx.tables := htables
  replace hucmp : ctx.recover.ucmp = ctx.ucmp := hucmp
  have hiff := fun p x => @stored_recover_iff ctx hd hindex hseq p x
  have hfile : ∀ p x, Stored ctx.recover.indexSet p x → ∃ f, ∃ y ∈ (WalScanner.scan (env.content f)).1,
      x = versionOf f y ∧ fileRecord y ∈ fileRecords env := by
    intro p x hx
    obtain ⟨f, hf, y, hy, rfl⟩ := mem_versions.mp ((hiff p x).mp hx).1
    rw [henv] at hf hy
    exact ⟨f, y, hy, rfl, mem_fileRecords.mpr ⟨f, hf, y, hy, rfl⟩⟩
  refine ⟨?_, hsound, ?_, ?_, ?_, ?_, ?_, ?_⟩
  · show ctx.recover.ucmp.DistinguishesBytes
    rw [hucmp]
    exact hd
  · show Arranged ctx.recover.ucmp _
    rw [hucmp]
    exact arranged_recover hd hindex hseq hsearch
  · intro p x hx
    show ctx.recover.tables.current.route ctx.recover.ucmp x.userKey = p
    rw [htables, hucmp]
    exact ((hiff p x).mp hx).2
  · exact fun p x hx => hpoints x ((hiff p x).mp hx).1
  · show Searchable ctx.recover.ucmp _
    rw [hucmp]
    exact hs
  · intro p x hx run hrun r hr hkey hlt
    obtain ⟨f, y, hy, rfl, hmem⟩ := hfile p x hx
    obtain ⟨z, hz, hzkey, hzseq⟩ := (hfront _ hmem run hrun r hr hkey).1 hlt
    obtain ⟨g, hg, w, hw, rfl⟩ := mem_fileRecords.mp hz
    rw [← henv] at hg hw
    exact ⟨_, versionOf g w, (hiff _ _).mpr ⟨mem_versions.mpr ⟨g, hg, w, hw, rfl⟩, rfl⟩, hzkey, hzseq⟩
  · intro p x hx run hrun r hr hkey hsame
    obtain ⟨f, y, hy, rfl, hmem⟩ := hfile p x hx
    obtain ⟨htype, hvalue⟩ := (hfront _ hmem run hrun r hr hkey).2 hsame
    refine ⟨htype, fun hv => ?_⟩
    have hread := readValue_recover hwal hsound hy (hsound.stored p _ hx) hv
    exact hread.trans (congrArg Except.ok (hvalue hv).symm)

end recover

theorem healthy_install (h : Healthy db) {t : Tables} (hok : StepOk db (.install t)) :
    Healthy (Database.step db (.install t)) := by
  obtain ⟨hs, hfront⟩ := hok
  have hmem : ∀ p x, Stored db.ctx.indexSet p x →
      indexRecord db.ctx x ∈ (indexed db.ctx.indexSet).map (indexRecord db.ctx) :=
    fun p x hx => List.mem_map_of_mem (mem_indexed.mpr ⟨p, hx⟩)
  refine ⟨h.distinguishes, h.sound, h.arranged, h.routed, h.points, hs, ?_, ?_⟩
  · intro p x hx run hrun r hr hkey hlt
    obtain ⟨z, hz, hzkey, hzseq⟩ := (hfront _ (hmem p x hx) run hrun r hr hkey).1 hlt
    obtain ⟨y, hy, rfl⟩ := List.mem_map.mp hz
    obtain ⟨q, hy⟩ := mem_indexed.mp hy
    exact ⟨q, y, hy, hzkey, hzseq⟩
  · intro p x hx run hrun r hr hkey hsame
    obtain ⟨htype, hvalue⟩ := (hfront _ (hmem p x hx) run hrun r hr hkey).2 hsame
    refine ⟨htype, fun hv => ?_⟩
    obtain ⟨v, hread⟩ := Option.ne_none_iff_exists'.mp
      ((h.sound.stored p x hx).readValue h.sound.ok)
    have hv' := hvalue hv
    rw [indexRecord, hread, Option.getD_some] at hv'
    show db.ctx.readValue x.loc = _
    cases hok : db.ctx.readValue x.loc with
    | error e =>
      rw [hok] at hread
      cases hread
    | ok w =>
      rw [hok] at hread
      rw [hv', Option.some.inj hread]

theorem healthy_restart (h : Healthy db) {ctx : ZeroFlushContext} {env : Env} {n target : ℕ}
    (hucmp : ctx.ucmp = db.ctx.ucmp)
    (hwal : ctx.wal = (PartitionedWalManager.create env n target).open_)
    (hindex : ctx.indexSet = {}) (hsound : Sound ctx.recover)
    (hok : Restarts db env ctx.tables) : Healthy (Database.inContext db ctx.recover) := by
  obtain ⟨-, hseq, hsearch, hpoints, hfront⟩ := hok
  rw [← hucmp] at hsearch
  exact healthy_recover (hucmp ▸ h.distinguishes) hwal hindex hsound hseq hsearch hpoints hfront
    (hucmp ▸ h.searchable)

theorem healthy_step (db : Database) (op : DatabaseOp) (hok : StepOk db op) (h : Healthy db) :
    Healthy (Database.step db op) := by
  have hpinned := PinnedReaders.pinned_reopened h.sound
  cases op with
  | write r v rnd => exact healthy_write h hok rnd
  | sync part => exact healthy_sync h part
  | sealEpoch op => exact healthy_seal h hok
  | handOffSkipped epoch gens partBytes => exact healthy_handOff h hok
  | releaseEpoch epoch => exact healthy_release h hok
  | purgeSealedFiles => exact healthy_purge h
  | reopen tables =>
    exact healthy_restart h rfl rfl rfl
      (PinnedReaders.pinned_step (.reopened db.ctx) (.reopen tables) hok.1 hpinned).sound hok
  | crash cut tables =>
    exact healthy_restart h rfl rfl rfl
      (PinnedReaders.pinned_step (.reopened db.ctx) (.crash cut tables) hok.1 hpinned).sound hok
  | install t => exact healthy_install h hok

section start
variable {zfo : ZeroFlushOptions} {ucmp : UserComparator} {tables : PartitionTableSet}
  {sampler : Option KeySampler}
  {fullMerge : Option (Bytes → Option Bytes → List Bytes → Option Bytes)}
  {mergeValues : Bytes → List Record → Except Status Bytes}

theorem healthy_start (hd : ucmp.DistinguishesBytes) :
    Healthy (Database.start zfo ucmp tables sampler fullMerge mergeValues) := by
  have hnone : ∀ x, x ∉ versions Env.empty := by
    intro x hx
    obtain ⟨f, hf, -⟩ := mem_versions.mp hx
    simp [Env.mem_listFiles] at hf
  refine @healthy_recover (Database.start zfo ucmp tables sampler fullMerge mergeValues) _ Env.empty
    zfo.partitions zfo.partitionTargetBytes hd rfl rfl ?_ ⟨?_, ?_⟩ ?_ ?_ ?_ ⟨?_, ?_, ?_⟩
  · exact (PinnedReaders.pinned_start zfo ucmp tables sampler).sound
  · exact fun x hx => absurd hx (hnone x)
  · exact fun x hx => absurd hx (hnone x)
  · intro p _
    exact List.pairwise_of_forall_mem_list fun _ _ _ _ x hx => absurd hx (hnone x)
  · exact fun x hx => absurd hx (hnone x)
  · exact fun x _ run hrun => absurd hrun List.not_mem_nil
  · exact fun run hrun => absurd hrun List.not_mem_nil
  · exact List.Pairwise.nil
  · exact fun run hrun => absurd hrun List.not_mem_nil

/-- In a run whose steps all meet the condition, a scan shows what point reads return, at every
snapshot. -/
theorem scanAgrees_of_guarded (hd : ucmp.DistinguishesBytes) (ops : List DatabaseOp)
    (hok : Guarded Database.step StepOk
      (Database.start zfo ucmp tables sampler fullMerge mergeValues) ops) (snapshot : ℕ) :
    ScanAgrees (run Database.step
      (Database.start zfo ucmp tables sampler fullMerge mergeValues) ops) snapshot :=
  (invariant_run healthy_step (healthy_start hd) hok).scanAgrees snapshot

end start

def twoPartitions : Database :=
  Database.start { partitions := 2 } .bytewise (.init (.cutAt 0 [98]))
    none none fun _ _ => .ok []

def putOp (key : UInt8) (value : Bytes) (seq : UInt64) : DatabaseOp :=
  .write ⟨[key], value, kTypeValue, seq⟩ 0 0

/-- Two partitions are flushed and released, a newer version of one of the keys is replayed. -/
def flushAndReopen : List DatabaseOp :=
  [putOp 97 [1] 1, putOp 99 [2, 2] 2, .write ⟨[97], [], kTypeDeletion, 3⟩ 0 0,
    .sealEpoch (.sealEpochAndSwitch []), putOp 97 [4] 4,
    .install { runs := [[(⟨[97], 3, kTypeDeletion⟩, []), (⟨[97], 1, kTypeValue⟩, [1]),
      (⟨[99], 2, kTypeValue⟩, [2, 2])]] },
    .releaseEpoch 1, .purgeSealedFiles, .reopen twoPartitions.ctx.tables]

theorem scanAgrees_of_flushAndReopen :
    Guarded Database.step StepOk twoPartitions flushAndReopen ∧
      ∀ snapshot, ScanAgrees (run Database.step twoPartitions flushAndReopen) snapshot := by
  have hg : Guarded Database.step StepOk twoPartitions flushAndReopen := by decide +kernel
  exact ⟨hg, scanAgrees_of_guarded UserComparator.bytewise_distinguishesBytes flushAndReopen hg⟩

/-- A value, and a range of other keys that is deleted after it. -/
def deleteOtherRange : List DatabaseOp :=
  [putOp 98 [1] 1, .write ⟨[97], [97, 97], kTypeRangeDeletion, 2⟩ 0 0]

/-- The scan meets the range tombstone and stops there. -/
theorem scanAgrees_fails :
    (run Database.step twoPartitions deleteOtherRange).get [98] 2 = .ok [1] ∧
      (run Database.step twoPartitions deleteOtherRange).scan 2 =
        ([], some (.corruption "Unknown value type: 15")) ∧
      ¬ ∀ (zfo : ZeroFlushOptions) (ucmp : UserComparator) (tables : PartitionTableSet)
        (sampler : Option KeySampler)
        (fullMerge : Option (Bytes → Option Bytes → List Bytes → Option Bytes))
        (mergeValues : Bytes → List Record → Except Status Bytes) (ops : List DatabaseOp)
        (snapshot : ℕ), ScanAgrees (run Database.step
          (Database.start zfo ucmp tables sampler fullMerge mergeValues) ops) snapshot := by
  have hget : (run Database.step twoPartitions deleteOtherRange).get [98] 2 = .ok [1] := by
    decide +kernel
  have hscan : (run Database.step twoPartitions deleteOtherRange).scan 2 =
      ([], some (.corruption "Unknown value type: 15")) := by decide +kernel
  refine ⟨hget, hscan, fun hall => ?_⟩
  have hmem : ([98], [1]) ∈ ((run Database.step twoPartitions deleteOtherRange).scan 2).1 :=
    ((hall _ _ _ _ _ _ deleteOtherRange 2).mem_iff [98] [1]).mpr hget
  rw [hscan] at hmem
  cases hmem

end ZeroFlush.ScanRuns
