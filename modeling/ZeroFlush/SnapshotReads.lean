import ZeroFlush.HeldVersions

/-! # Reads at a snapshot

`GetFromPartitionIndex` asks the partition the current table routes the key to for a version, and
the range-delete partition for a tombstone. Of every generation of tombstones one is looked at. -/
namespace ZeroFlush.SnapshotReads
open FixedWidthCodec FiniteMaps WalFormat WalFiles PartitionedWal UserKeys OrderedInsertion
  PartitionIndexes IndexChains RecencyOrder IndexContents PartitionTables Context ReadPaths
  GuardedRuns HeldVersions

variable {s : Writes} {key : Bytes} {snapshot : ℕ}

/-- The newest version of a key that a snapshot may see, among some records. -/
structure NewestVersion (as : List Acked) (key : Bytes) (snapshot : ℕ) (a : Acked) : Prop where
  mem : a ∈ as
  point : a.2.type ≠ kTypeRangeDeletion
  key_eq : a.2.key = key
  visible : a.2.seq.toNat ≤ snapshot
  newest : ∀ b ∈ as, b.2.type ≠ kTypeRangeDeletion → b.2.key = key → b.2.seq.toNat ≤ snapshot →
    b.2.seq.toNat ≤ a.2.seq.toNat

instance (as : List Acked) (key : Bytes) (snapshot : ℕ) (a : Acked) :
    Decidable (NewestVersion as key snapshot a) :=
  decidable_of_iff (a ∈ as ∧ a.2.type ≠ kTypeRangeDeletion ∧ a.2.key = key ∧
      a.2.seq.toNat ≤ snapshot ∧ ∀ b ∈ as, b.2.type ≠ kTypeRangeDeletion → b.2.key = key →
        b.2.seq.toNat ≤ snapshot → b.2.seq.toNat ≤ a.2.seq.toNat)
    ⟨fun h => ⟨h.1, h.2.1, h.2.2.1, h.2.2.2.1, h.2.2.2.2⟩,
      fun h => ⟨h.mem, h.point, h.key_eq, h.visible, h.newest⟩⟩

/-- In the order of the tombstone index, `t` stands at or in front of the probe. -/
def InReach (ucmp : UserComparator) (key : Bytes) (snapshot : ℕ) (t : WalRecord) : Prop :=
  ucmp.compare t.key key = .lt ∨ ucmp.compare t.key key = .eq ∧ snapshot ≤ t.seq.toNat

/-- In the order of the tombstone index, `t` stands in front of `u`. -/
def InFront (ucmp : UserComparator) (t u : WalRecord) : Prop :=
  ucmp.compare t.key u.key = .lt ∨ ucmp.compare t.key u.key = .eq ∧ u.seq.toNat < t.seq.toNat

/-- The one tombstone of its generation that a read looks at: the last in reach of the probe. -/
structure Seen (s : Writes) (key : Bytes) (snapshot : ℕ) (t : Acked) : Prop where
  mem : t ∈ s.held
  tombstone : t.2.type = kTypeRangeDeletion
  reach : InReach s.ctx.ucmp key snapshot t.2
  last : ∀ u ∈ s.held, u.2.type = kTypeRangeDeletion → u.1.gen = t.1.gen →
    InReach s.ctx.ucmp key snapshot u.2 → u = t ∨ InFront s.ctx.ucmp u.2 t.2

/-- A tombstone that a read looks at ends behind the key. -/
def SeenCovering (s : Writes) (key : Bytes) (snapshot : ℕ) : Prop :=
  ∃ t, Seen s key snapshot t ∧ s.ctx.ucmp.compare key t.2.value = .lt

theorem eq_of_indexEntry (h : Numbered s.acked) {a b : Acked} (ha : a ∈ s.acked) (hb : b ∈ s.acked)
    (he : indexEntry a.2 a.1 = indexEntry b.2 b.1) : a = b := by
  apply h.distinct a ha b hb
  have hseq := congrArg IndexEntry.seq he
  rw [seq_indexEntry (h.bounded a ha), seq_indexEntry (h.bounded b hb)] at hseq
  exact UInt64.toNat_inj.mp hseq

/-- The entries of a chain are those of the held records of the partition. -/
theorem mem_flatMap_chain (h : Faithful s) {p : ℕ} {x : IndexEntry} :
    x ∈ (s.ctx.indexSet.chain p).flatMap PartitionIndex.entries ↔
      ∃ a ∈ s.held, a.1.partId = p ∧ x = indexEntry a.2 a.1 := by
  rw [List.mem_flatMap]
  constructor
  · rintro ⟨i, hi, hx⟩
    obtain ⟨a, ha, hrel, hfile, rfl⟩ := (h.indexed.listed.mem_iff p i hi x).mp hx
    exact ⟨a, mem_held.mpr ⟨ha, hrel⟩, congrArg Prod.fst hfile, rfl⟩
  · rintro ⟨a, ha, rfl, rfl⟩
    obtain ⟨hmem, hrel⟩ := mem_held.mp ha
    obtain ⟨i, hi, hg⟩ := h.indexed.listed.complete a hmem hrel
    exact ⟨i, hi, (h.indexed.listed.mem_iff _ i hi _).mpr
      ⟨a, hmem, hrel, Prod.ext rfl hg.symm, rfl⟩⟩

theorem route_ne_rangeDel (h : Faithful s) (key : Bytes) : s.ctx.route key ≠ kRangeDelPartId := by
  have hlt := PartitionTable.route_lt s.ctx.ucmp s.ctx.tables.current key
  have hsmall := h.placed.small
  intro he
  rw [ZeroFlushContext.route] at he
  omega

/-- The range-delete partition has the tombstones, the others have the points. -/
theorem partId_eq_rangeDel_iff (h : Faithful s) {a : Acked} (ha : a ∈ s.held) :
    a.1.partId = kRangeDelPartId ↔ a.2.type = kTypeRangeDeletion := by
  constructor
  · intro hpart
    by_contra htype
    exact route_ne_rangeDel h a.2.key ((h.placed.points a ha htype).trans hpart)
  · exact h.placed.tombstones a (mem_held.mp ha).1

theorem mem_chain_route (h : Faithful s) {x : IndexEntry} (hx : x.userKey = key) :
    x ∈ (s.ctx.indexSet.chain (s.ctx.route key)).flatMap PartitionIndex.entries ↔
      ∃ a ∈ s.held, a.2.type ≠ kTypeRangeDeletion ∧ x = indexEntry a.2 a.1 := by
  rw [mem_flatMap_chain h]
  constructor
  · rintro ⟨a, ha, hpart, rfl⟩
    refine ⟨a, ha, ?_, rfl⟩
    rw [Ne, ← partId_eq_rangeDel_iff h ha, hpart]
    exact route_ne_rangeDel h key
  · rintro ⟨a, ha, htype, rfl⟩
    refine ⟨a, ha, ?_, rfl⟩
    rw [← h.placed.points a ha htype, ← hx]
    rfl

/-- Along a chain the versions get older. -/
theorem ordered_chain (h : Faithful s) (p : ℕ) :
    Ordered IndexEntry.userKey IndexEntry.seq
      ((s.ctx.indexSet.chain p).map PartitionIndex.entries) := by
  rw [Ordered, List.pairwise_map]
  refine (h.indexed.listed.desc p).imp_of_mem ?_
  intro i j hi hj hlt x hx y hy _
  obtain ⟨a, ha, -, hafile, rfl⟩ := (h.indexed.listed.mem_iff p i hi x).mp hx
  obtain ⟨b, hb, -, hbfile, rfl⟩ := (h.indexed.listed.mem_iff p j hj y).mp hy
  rw [seq_indexEntry (h.numbered.bounded a ha), seq_indexEntry (h.numbered.bounded b hb)]
  apply h.numbered.mono b hb a ha
  · exact (congrArg Prod.fst hbfile).trans (congrArg Prod.fst hafile).symm
  · rw [show b.1.gen = j.gen from congrArg Prod.snd hbfile,
      show a.1.gen = i.gen from congrArg Prod.snd hafile]
    exact hlt

/-- The lookup of the index finds the newest held version. -/
theorem get_newestVersion (h : Faithful s) (hd : s.ctx.ucmp.DistinguishesBytes) {a : Acked}
    (ha : NewestVersion s.held key snapshot a) :
    s.ctx.indexSet.get s.ctx.ucmp (s.ctx.route key) key snapshot = some (indexEntry a.2 a.1) := by
  have hbound : ∀ b ∈ s.held, (indexEntry b.2 b.1).seq = b.2.seq.toNat :=
    fun b hb => seq_indexEntry (h.numbered.bounded b (mem_held.mp hb).1)
  refine get_of_isNewest hd h.indexed.listed.sorted h.indexed.listed.filtered (ordered_chain h _) ?_
  refine ⟨(mem_chain_route h ha.key_eq).mpr ⟨a, ha.mem, ha.point, rfl⟩, ha.key_eq, ?_, ?_⟩
  · rw [hbound a ha.mem]
    exact ha.visible
  · intro x hx hkey hvis
    obtain ⟨b, hb, htype, rfl⟩ := (mem_chain_route h hkey).mp hx
    rw [hbound b hb] at hvis ⊢
    rw [hbound a ha.mem]
    exact ha.newest b hb htype hkey hvis

/-- Without a version that the snapshot may see the lookup finds nothing. -/
theorem get_eq_none_of_held (h : Faithful s) (hd : s.ctx.ucmp.DistinguishesBytes)
    (hnone : ∀ a ∈ s.held, a.2.type ≠ kTypeRangeDeletion → a.2.key = key →
      snapshot < a.2.seq.toNat) :
    s.ctx.indexSet.get s.ctx.ucmp (s.ctx.route key) key snapshot = none := by
  apply get_eq_none hd h.indexed.listed.sorted
  intro i hi x hx hkey
  obtain ⟨a, ha, htype, rfl⟩ := (mem_chain_route h hkey).mp (List.mem_flatMap.mpr ⟨i, hi, hx⟩)
  rw [seq_indexEntry (h.numbered.bounded a (mem_held.mp ha).1)]
  exact hnone a ha htype hkey

/-- An entry of a tombstone index at or in front of the probe. -/
theorem compareKeySeq_probe {ucmp : UserComparator} {e : IndexEntry} :
    compareKeySeq ucmp e (lookupKey key snapshot) ≠ .gt ↔
      ucmp.compare e.userKey key = .lt ∨ ucmp.compare e.userKey key = .eq ∧ snapshot ≤ e.seq := by
  have hle : compare snapshot e.seq ≠ .gt ↔ snapshot ≤ e.seq := Nat.compare_ne_gt
  rw [compareKeySeq]
  show (ucmp.compare e.userKey key).then (compare snapshot e.seq) ≠ .gt ↔ _
  cases ucmp.compare e.userKey key with
  | lt => simp
  | eq =>
    rw [Ordering.eq_then, hle]
    simp
  | gt => simp

/-- `GetRangeDelCover` of one sorted index. -/
theorem getRangeDelCover_iff {ucmp : UserComparator} {idx : PartitionIndex}
    {readValue : WalRecordRef → Except Status Bytes}
    (hs : Ascending (compareKeySeq ucmp) idx.entries) :
    idx.getRangeDelCover ucmp key snapshot readValue = true ↔
      ∃ e ∈ idx.entries, compareKeySeq ucmp e (lookupKey key snapshot) ≠ .gt ∧
        (∀ x ∈ idx.entries, compareKeySeq ucmp x (lookupKey key snapshot) ≠ .gt →
          x = e ∨ compareKeySeq ucmp x e = .lt) ∧
        e.type = kTypeRangeDeletion ∧
        ∃ v, readValue e.loc = .ok v ∧ ucmp.compare key v = .lt := by
  have hq : ∀ x y, compareKeySeq ucmp x y = .lt →
      (compareKeySeq ucmp y (lookupKey key snapshot) != .gt) = true →
      (compareKeySeq ucmp x (lookupKey key snapshot) != .gt) = true := by
    intro x y hxy hy
    rw [bne_iff_ne, Ne, ← Ordering.isLE_iff_ne_gt] at hy ⊢
    exact Std.TransCmp.isLE_trans (Ordering.isLE_of_eq_lt hxy) hy
  have hlast := fun e => @getLast?_takeWhile_ascending _ (compareKeySeq ucmp) _ _ hs _ hq e
  simp only [bne_iff_ne] at hlast
  rw [PartitionIndex.getRangeDelCover]
  cases hl : (idx.entries.takeWhile fun e =>
      compareKeySeq ucmp e (lookupKey key snapshot) != .gt).getLast? with
  | none =>
    rw [hl] at hlast
    constructor
    · intro h
      cases h
    · rintro ⟨e, he, hreach, hafter, -⟩
      cases (hlast e).mpr ⟨he, hreach, hafter⟩
  | some e =>
    rw [hl] at hlast
    obtain ⟨he, hreach, hafter⟩ := (hlast e).mp rfl
    have hkey : ucmp.compare e.userKey key ≠ .gt := by
      obtain hk | ⟨hk, -⟩ := compareKeySeq_probe.mp hreach
      · simp [hk]
      · simp [hk]
    have hunique : ∀ d ∈ idx.entries, compareKeySeq ucmp d (lookupKey key snapshot) ≠ .gt →
        (∀ x ∈ idx.entries, compareKeySeq ucmp x (lookupKey key snapshot) ≠ .gt →
          x = d ∨ compareKeySeq ucmp x d = .lt) → d = e :=
      fun d hd hr ha => (Option.some.inj ((hlast d).mpr ⟨hd, hr, ha⟩)).symm
    dsimp only
    rw [if_neg hkey]
    constructor
    · intro h
      split at h
      · cases h
      next htype =>
        cases hv : readValue e.loc with
        | error st =>
          rw [hv] at h
          cases h
        | ok v =>
          rw [hv] at h
          exact ⟨e, he, hreach, hafter, not_not.mp htype, v, hv, by simpa using h⟩
    · rintro ⟨d, hd, hdreach, hdafter, htype, v, hv, hlt⟩
      obtain rfl := hunique d hd hdreach hdafter
      rw [if_neg (not_not.mpr htype), hv]
      simpa using hlt

/-- A read looks at the last tombstone in reach of every generation. -/
theorem checkRangeDelCover_iff (h : Faithful s) :
    s.ctx.checkRangeDelCover key snapshot = true ↔ SeenCovering s key snapshot := by
  rw [ZeroFlushContext.checkRangeDelCover, PartitionIndexSet.getRangeDelCover, List.any_eq_true]
  have hreach : ∀ a ∈ s.acked, (compareKeySeq s.ctx.ucmp (indexEntry a.2 a.1) (lookupKey key snapshot) ≠
      .gt ↔ InReach s.ctx.ucmp key snapshot a.2) := by
    intro a ha
    rw [compareKeySeq_probe, seq_indexEntry (h.numbered.bounded a ha)]
    rfl
  have hfront : ∀ a ∈ s.acked, ∀ b ∈ s.acked,
      (compareKeySeq s.ctx.ucmp (indexEntry a.2 a.1) (indexEntry b.2 b.1) = .lt ↔
        InFront s.ctx.ucmp a.2 b.2) := by
    intro a ha b hb
    rw [compareKeySeq, seq_indexEntry (h.numbered.bounded a ha),
      seq_indexEntry (h.numbered.bounded b hb), Ordering.then_eq_lt, Nat.compare_eq_lt]
    rfl
  constructor
  · rintro ⟨i, hi, hcover⟩
    obtain ⟨e, he, hr, hafter, htype, v, hv, hlt⟩ :=
      (getRangeDelCover_iff (h.indexed.listed.sorted _ i hi)).mp hcover
    obtain ⟨t, ht, hrel, hfile, rfl⟩ := (h.indexed.listed.mem_iff _ i hi e).mp he
    have hheld := mem_held.mpr ⟨ht, hrel⟩
    refine ⟨t, ⟨hheld, htype, (hreach t ht).mp hr, ?_⟩, ?_⟩
    · intro u hu hutype hgen hur
      obtain ⟨humem, hurel⟩ := mem_held.mp hu
      have hufile : u.1.file = (kRangeDelPartId, i.gen) :=
        Prod.ext (h.placed.tombstones u humem hutype)
          (hgen.trans (congrArg Prod.snd hfile))
      have huentry := (h.indexed.listed.mem_iff _ i hi _).mpr ⟨u, humem, hurel, hufile, rfl⟩
      obtain heq | hlt' := hafter _ huentry ((hreach u humem).mpr hur)
      · exact .inl (eq_of_indexEntry h.numbered humem ht heq)
      · exact .inr ((hfront u humem t ht).mp hlt')
    · have hread := h.readValue hheld
      replace hv : s.ctx.readValue t.1 = .ok v := hv
      have htype' : t.2.type = kTypeRangeDeletion := htype
      rw [hread, valueOf, htype', if_neg (by decide)] at hv
      cases hv
      exact hlt
  · rintro ⟨t, ⟨hheld, htype, hr, hlast⟩, hlt⟩
    obtain ⟨ht, hrel⟩ := mem_held.mp hheld
    have hpart := h.placed.tombstones t ht htype
    obtain ⟨i, hi, hg⟩ := h.indexed.listed.complete t ht hrel
    rw [hpart] at hi
    refine ⟨i, hi, (getRangeDelCover_iff (h.indexed.listed.sorted _ i hi)).mpr ?_⟩
    refine ⟨indexEntry t.2 t.1, (h.indexed.listed.mem_iff _ i hi _).mpr
      ⟨t, ht, hrel, Prod.ext hpart hg.symm, rfl⟩, (hreach t ht).mpr hr, ?_, htype, t.2.value, ?_, hlt⟩
    · intro x hx hxr
      obtain ⟨u, hu, hurel, hufile, rfl⟩ := (h.indexed.listed.mem_iff _ i hi x).mp hx
      have huheld := mem_held.mpr ⟨hu, hurel⟩
      have hutype := (partId_eq_rangeDel_iff h huheld).mp (congrArg Prod.fst hufile)
      have hugen : u.1.gen = t.1.gen := (congrArg Prod.snd hufile).trans hg
      obtain rfl | hfr := hlast u huheld hutype hugen ((hreach u hu).mp hxr)
      · exact .inl rfl
      · exact .inr ((hfront u hu t ht).mpr hfr)
    · have hread := h.readValue hheld
      rw [valueOf, htype, if_neg (by decide)] at hread
      exact hread

/-- The versions collected from a chain begin with the one the lookup finds. -/
theorem head?_collectVersions {ucmp : UserComparator} (hd : ucmp.DistinguishesBytes)
    {readValue : WalRecordRef → Except Status Bytes} {chain : List PartitionIndex} {e : IndexEntry}
    {v : Bytes} (hget : chain.findSome? (fun i => i.get ucmp key snapshot) = some e)
    (hv : readValue e.loc = .ok v) :
    (chain.flatMap fun i => i.collectVersions ucmp key snapshot readValue).head? =
      some (v, e.type) := by
  induction chain with
  | nil => cases hget
  | cons i chain ih =>
    rw [List.findSome?_cons] at hget
    rw [List.flatMap_cons, PartitionIndex.collectVersions]
    cases hi : i.get ucmp key snapshot with
    | some d =>
      rw [hi] at hget
      cases hget
      rw [PartitionIndex.get, Option.filter_eq_some_iff] at hi
      obtain ⟨hhead, hkey⟩ := hi
      obtain ⟨rest, hseek⟩ : ∃ rest, i.seek ucmp key snapshot = e :: rest :=
        List.head?_eq_some_iff.mp hhead
      have hself : (ucmp.compare e.userKey key == .eq) = true := by
        rw [beq_iff_eq, eq_of_beq hkey]
        exact Std.ReflCmp.compare_self
      rw [hseek, List.takeWhile_cons, if_pos hself, List.filterMap_cons, hv]
      rfl
    | none =>
      rw [hi] at hget
      have hnil : (i.seek ucmp key snapshot).takeWhile
          (fun e => ucmp.compare e.userKey key == .eq) = [] := by
        cases hseek : i.seek ucmp key snapshot with
        | nil => rfl
        | cons d rest =>
          rw [PartitionIndex.get, hseek, List.head?_cons] at hi
          apply List.takeWhile_cons_of_neg
          intro heq
          have hkey := hd _ _ (eq_of_beq heq)
          simp [Option.filter, hkey] at hi
      rw [hnil, List.filterMap_nil, List.nil_append]
      exact ih hget

/-- The operands of a read that found a merge operand. -/
def operands : GetResult → List Bytes
  | .mergeInProgress os => os
  | .merged os _ _ => os
  | _ => []

/-- The read has found the record: its value, its deletion, or its operand in front of the others. -/
def Finds (r : WalRecord) (res : GetResult) : Prop :=
  if r.type = kTypeDeletion ∨ r.type = kTypeSingleDeletion then res = .notFound
  else if r.type = kTypeMerge then (operands res).head? = some r.value
  else res = .found r.value

theorem operands_mergeVersions (h : Faithful s) (hd : s.ctx.ucmp.DistinguishesBytes) {a : Acked}
    (ha : NewestVersion s.held key snapshot a) (htype : a.2.type = kTypeMerge)
    (mergeOp : Option (Bytes → Bytes → List Bytes → Option Bytes)) :
    (operands (s.ctx.mergeVersions mergeOp key snapshot)).head? = some a.2.value := by
  have hget := get_newestVersion h hd ha
  have hchain : (s.ctx.indexSet.chain (s.ctx.route key)).findSome?
      (fun i => i.get s.ctx.ucmp key snapshot) = some (indexEntry a.2 a.1) := by
    rw [PartitionIndexSet.get] at hget
    split at hget
    · cases hget
    · split at hget
      · exact hget
      · cases hget
  have hread := h.readValue ha.mem
  rw [valueOf, htype, if_neg (by decide)] at hread
  have hhead := head?_collectVersions hd hchain hread
  obtain ⟨rest, hversions⟩ := List.head?_eq_some_iff.mp hhead
  have hsplit : ∃ os base, splitBase (s.ctx.indexSet.collectVersions s.ctx.ucmp (s.ctx.route key) key
      snapshot s.ctx.readValue) = (a.2.value :: os, base) := by
    rw [PartitionIndexSet.collectVersions, hversions, splitBase]
    have hne : (indexEntry a.2 a.1).type ≠ kTypeValue := by
      show a.2.type ≠ kTypeValue
      rw [htype]
      decide
    rw [if_neg hne]
    exact ⟨_, _, rfl⟩
  obtain ⟨os, base, hsplit⟩ := hsplit
  rw [ZeroFlushContext.mergeVersions.eq_def, hsplit]
  cases base with
  | none => rfl
  | some base =>
    cases mergeOp with
    | none => rfl
    | some fullMerge =>
      dsimp only
      rw [if_neg (List.cons_ne_nil _ _)]
      cases fullMerge key base (a.2.value :: os) <;> rfl

/-- A tombstone that is looked at and covers the key hides every version. -/
theorem getFromPartitionIndex_covered (h : Faithful s) (hcover : SeenCovering s key snapshot)
    (mergeOp : Option (Bytes → Bytes → List Bytes → Option Bytes)) :
    s.ctx.getFromPartitionIndex mergeOp key snapshot = .notFound := by
  have hcheck := (checkRangeDelCover_iff h).mpr hcover
  rw [ZeroFlushContext.getFromPartitionIndex, hcheck]
  split <;> rfl

/-- Without one the newest held version is found. -/
theorem getFromPartitionIndex_newest (h : Faithful s) (hd : s.ctx.ucmp.DistinguishesBytes)
    {a : Acked} (ha : NewestVersion s.held key snapshot a) (hcover : ¬ SeenCovering s key snapshot)
    (mergeOp : Option (Bytes → Bytes → List Bytes → Option Bytes)) :
    Finds a.2 (s.ctx.getFromPartitionIndex mergeOp key snapshot) := by
  have hcheck : s.ctx.checkRangeDelCover key snapshot ≠ true :=
    fun hc => hcover ((checkRangeDelCover_iff h).mp hc)
  have hread := h.readValue ha.mem
  rw [ZeroFlushContext.getFromPartitionIndex, get_newestVersion h hd ha]
  dsimp only
  rw [if_neg hcheck, Finds]
  have htype : (indexEntry a.2 a.1).type = a.2.type := rfl
  have hloc : (indexEntry a.2 a.1).loc = a.1 := rfl
  rw [htype, hloc, hread]
  dsimp only
  rw [valueOf]
  split
  next hdel =>
    rw [if_pos]
    exact hdel.imp_right .inl
  next hdel =>
    have hnot : ¬ (a.2.type = kTypeDeletion ∨ a.2.type = kTypeSingleDeletion ∨
        a.2.type = kTypeRangeDeletion) := by
      rintro (hc | hc | hc)
      · exact hdel (.inl hc)
      · exact hdel (.inr hc)
      · exact ha.point hc
    rw [if_neg hnot, if_neg fun hc => hdel (.inl hc)]
    split
    next hmerge => exact operands_mergeVersions h hd ha hmerge mergeOp
    next => rfl

/-- The record is in some index. -/
def InIndexes (s : Writes) (a : Acked) : Prop :=
  ∃ p, ∃ i ∈ s.ctx.indexSet.chain p, indexEntry a.2 a.1 ∈ i.entries

theorem mem_held_of_inIndexes (h : Faithful s) {a : Acked} (ha : a ∈ s.acked) (hin : InIndexes s a) :
    a ∈ s.held := by
  obtain ⟨p, i, hi, hx⟩ := hin
  obtain ⟨b, hb, hrel, -, he⟩ := (h.indexed.listed.mem_iff p i hi _).mp hx
  obtain rfl := eq_of_indexEntry h.numbered ha hb he
  exact mem_held.mpr ⟨hb, hrel⟩

theorem NewestVersion.held {a : Acked} (h : NewestVersion s.acked key snapshot a)
    (ha : a ∈ s.held) : NewestVersion s.held key snapshot a :=
  ⟨ha, h.point, h.key_eq, h.visible, fun b hb => h.newest b (mem_held.mp hb).1⟩

theorem finds_notFound_iff {r : WalRecord} :
    Finds r .notFound ↔ r.type = kTypeDeletion ∨ r.type = kTypeSingleDeletion := by
  rw [Finds]
  split
  next hdel => exact iff_of_true rfl hdel
  next hdel =>
    refine iff_of_false ?_ hdel
    split
    · exact fun h => by cases h
    · exact fun h => by cases h

theorem ucmp_step (s : Writes) (op : IndexOp) : (s.step op).ctx.ucmp = s.ctx.ucmp := by
  cases op with
  | write r v rnd =>
    rw [Writes.step]
    cases hadd : s.ctx.addRecord r v rnd with
    | mk res ctx' =>
      cases res with
      | error e =>
        obtain rfl := addRecord_error hadd
        rfl
      | ok ref => exact (addRecord_ok hadd).2.2.2.2.2
  | sync part => rfl
  | freeze l1 => exact ucmp_freezeBatch s.ctx l1
  | release epoch => rfl

/-- Every state of a guarded run. -/
theorem faithful_run (zfo : ZeroFlushOptions) (ucmp : UserComparator) (tables : PartitionTableSet)
    (sampler : Option KeySampler) (ops : List IndexOp)
    (hsmall : tables.current.partitions ≤ kRangeDelPartId)
    (hok : Guarded Writes.step StepOk (Writes.start zfo ucmp tables sampler) ops) :
    Faithful (run Writes.step (Writes.start zfo ucmp tables sampler) ops) ∧
      (run Writes.step (Writes.start zfo ucmp tables sampler) ops).ctx.ucmp = ucmp := by
  have hstep : ∀ s op, StepOk s op → Faithful s ∧ s.ctx.ucmp = ucmp →
      Faithful (s.step op) ∧ (s.step op).ctx.ucmp = ucmp :=
    fun s op hop h => ⟨faithful_step s op hop h.1, (ucmp_step s op).trans h.2⟩
  refine invariant_run hstep ⟨faithful_start zfo ucmp tables sampler hsmall, ?_⟩ hok
  obtain ⟨cache, heq⟩ := start_eq zfo ucmp tables sampler
  rw [Writes.start, heq]
  rfl

/-- The value a read returns. -/
def valueRead : GetResult → Option Bytes
  | .found v => some v
  | _ => none

/-- A tombstone of the key between a version and the snapshot. -/
def Hidden (s : Writes) (key : Bytes) (snapshot : ℕ) (a : Acked) : Prop :=
  ∃ t ∈ s.acked, t.2.type = kTypeRangeDeletion ∧ s.ctx.ucmp.compare t.2.key key ≠ .gt ∧
    s.ctx.ucmp.compare key t.2.value = .lt ∧ a.2.seq.toNat < t.2.seq.toNat ∧ t.2.seq.toNat ≤ snapshot

/-- The reference: the value of the newest version, if it is one and no newer tombstone hides it. -/
def AnswersAsReference (s : Writes) (mergeOp : Option (Bytes → Bytes → List Bytes → Option Bytes))
    (key : Bytes) (snapshot : ℕ) : Prop :=
  ∀ v, valueRead (s.ctx.getFromPartitionIndex mergeOp key snapshot) = some v ↔
    ∃ a, NewestVersion s.acked key snapshot a ∧ ¬ Hidden s key snapshot a ∧
      a.2.type = kTypeValue ∧ a.2.value = v

/-- Wherever the newest version is a value, the tombstones that are looked at tell whether it is
hidden. -/
def TombstonesTell (s : Writes) (key : Bytes) (snapshot : ℕ) : Prop :=
  ∀ a, NewestVersion s.acked key snapshot a → a.2.type = kTypeValue →
    (SeenCovering s key snapshot ↔ Hidden s key snapshot a)

/-- Puts, deletions and range deletions; nothing is materialized. -/
def HistoryOk (s : Writes) (op : IndexOp) : Prop :=
  StepOk s op ∧ match op with
    | .write r _ _ => r.type = kTypeValue ∨ r.type = kTypeDeletion ∨ r.type = kTypeSingleDeletion ∨
        r.type = kTypeRangeDeletion
    | .release _ => False
    | _ => True

theorem exists_newestVersion {as : List Acked} {x : Acked} (hx : x ∈ as)
    (htype : x.2.type ≠ kTypeRangeDeletion) (hkey : x.2.key = key)
    (hvis : x.2.seq.toNat ≤ snapshot) : ∃ a, NewestVersion as key snapshot a := by
  have hmem : x ∈ as.filter fun b => b.2.type ≠ kTypeRangeDeletion :=
    List.mem_filter.mpr ⟨hx, decide_eq_true htype⟩
  obtain ⟨a, ha, hk, hv, hnew⟩ := @exists_isNewest Acked Bytes (fun b => b.2.key)
    (fun b => b.2.seq.toNat) _ key snapshot x hmem hkey hvis
  obtain ⟨ha, hpoint⟩ := List.mem_filter.mp ha
  refine ⟨a, ha, of_decide_eq_true hpoint, hk, hv, ?_⟩
  intro b hb hbtype
  exact hnew b (List.mem_filter.mpr ⟨hb, decide_eq_true hbtype⟩)

theorem NewestVersion.eq {a b : Acked} (hn : Numbered s.acked)
    (ha : NewestVersion s.acked key snapshot a) (hb : NewestVersion s.acked key snapshot b) :
    b = a := by
  apply hn.distinct b hb.mem a ha.mem
  apply UInt64.toNat_inj.mp
  exact Nat.le_antisymm (ha.newest b hb.mem hb.point hb.key_eq hb.visible)
    (hb.newest a ha.mem ha.point ha.key_eq ha.visible)

/-- The value that a read returns when there is a newest version. -/
theorem valueRead_newest (h : Faithful s) (hd : s.ctx.ucmp.DistinguishesBytes) {a : Acked}
    (ha : NewestVersion s.held key snapshot a)
    (htype : a.2.type = kTypeValue ∨ a.2.type = kTypeDeletion ∨ a.2.type = kTypeSingleDeletion)
    (mergeOp : Option (Bytes → Bytes → List Bytes → Option Bytes)) (v : Bytes) :
    valueRead (s.ctx.getFromPartitionIndex mergeOp key snapshot) = some v ↔
      ¬ SeenCovering s key snapshot ∧ a.2.type = kTypeValue ∧ a.2.value = v := by
  rcases Classical.em (SeenCovering s key snapshot) with hcover | hcover
  · rw [getFromPartitionIndex_covered h hcover]
    exact iff_of_false (fun hc => by cases hc) fun hc => hc.1 hcover
  · have hfinds := getFromPartitionIndex_newest h hd ha hcover mergeOp
    rw [Finds] at hfinds
    rw [and_iff_right hcover]
    split at hfinds
    next hdel =>
      rw [hfinds]
      refine iff_of_false (fun hc => by cases hc) ?_
      rintro ⟨hval, -⟩
      rw [hval] at hdel
      revert hdel
      decide
    next hdel =>
      have hval : a.2.type = kTypeValue := htype.resolve_right hdel
      rw [hval, if_neg (by decide)] at hfinds
      rw [hfinds, and_iff_right hval]
      exact Option.some_inj

theorem valueRead_none (h : Faithful s) (hd : s.ctx.ucmp.DistinguishesBytes)
    (hnone : ∀ a ∈ s.held, a.2.type ≠ kTypeRangeDeletion → a.2.key = key → snapshot < a.2.seq.toNat)
    (mergeOp : Option (Bytes → Bytes → List Bytes → Option Bytes)) :
    valueRead (s.ctx.getFromPartitionIndex mergeOp key snapshot) = none := by
  rw [ZeroFlushContext.getFromPartitionIndex, get_eq_none_of_held h hd hnone]
  dsimp only
  split <;> rfl

theorem answersAsReference_iff (h : Faithful s) (hd : s.ctx.ucmp.DistinguishesBytes)
    (hreleased : s.released = []) (htypes : ∀ a ∈ s.acked, a.2.type = kTypeValue ∨
      a.2.type = kTypeDeletion ∨ a.2.type = kTypeSingleDeletion ∨ a.2.type = kTypeRangeDeletion)
    (mergeOp : Option (Bytes → Bytes → List Bytes → Option Bytes)) :
    AnswersAsReference s mergeOp key snapshot ↔ TombstonesTell s key snapshot := by
  have hheld : s.held = s.acked := by
    rw [Writes.held, hreleased]
    exact List.filter_eq_self.mpr fun _ _ => decide_eq_true List.not_mem_nil
  rcases Classical.em (∃ x ∈ s.acked, x.2.type ≠ kTypeRangeDeletion ∧ x.2.key = key ∧
    x.2.seq.toNat ≤ snapshot) with ⟨x, hx, hxtype, hxkey, hxvis⟩ | hnone
  · obtain ⟨a, ha⟩ := exists_newestVersion hx hxtype hxkey hxvis
    have htype : a.2.type = kTypeValue ∨ a.2.type = kTypeDeletion ∨
        a.2.type = kTypeSingleDeletion := by
      obtain ht | ht | ht | ht := htypes a ha.mem
      · exact .inl ht
      · exact .inr (.inl ht)
      · exact .inr (.inr ht)
      · exact absurd ht ha.point
    have hread := valueRead_newest h hd (hheld ▸ ha) htype mergeOp
    constructor
    · intro hanswers b hb hval
      obtain rfl := ha.eq h.numbered hb
      have hv := (hread b.2.value).symm.trans (hanswers b.2.value)
      constructor
      · intro hcover
        by_contra hhidden
        exact (hv.mpr ⟨b, ha, hhidden, hval, rfl⟩).1 hcover
      · intro hhidden
        by_contra hcover
        obtain ⟨c, hc, hnot, -⟩ := hv.mp ⟨hcover, hval, rfl⟩
        obtain rfl := ha.eq h.numbered hc
        exact hnot hhidden
    · intro htell v
      rw [hread]
      constructor
      · rintro ⟨hcover, hval, rfl⟩
        exact ⟨a, ha, fun hhidden => hcover ((htell a ha hval).mpr hhidden), hval, rfl⟩
      · rintro ⟨b, hb, hhidden, hval, rfl⟩
        obtain rfl := ha.eq h.numbered hb
        exact ⟨fun hcover => hhidden ((htell b hb hval).mp hcover), hval, rfl⟩
  · have hread : valueRead (s.ctx.getFromPartitionIndex mergeOp key snapshot) = none := by
      apply valueRead_none h hd
      intro a ha htype hkey
      by_contra hvis
      exact hnone ⟨a, (mem_held.mp ha).1, htype, hkey, Nat.le_of_not_lt hvis⟩
    refine iff_of_true ?_ ?_
    · intro v
      rw [hread]
      refine iff_of_false (fun hc => by cases hc) ?_
      rintro ⟨a, ha, -⟩
      exact hnone ⟨a, ha.mem, ha.point, ha.key_eq, ha.visible⟩
    · intro a ha
      exact absurd ⟨a, ha.mem, ha.point, ha.key_eq, ha.visible⟩ hnone

instance decidableHistoryOk (s : Writes) : (op : IndexOp) → Decidable (HistoryOk s op)
  | .write r v rnd =>
    inferInstanceAs (Decidable (StepOk s (.write r v rnd) ∧ (r.type = kTypeValue ∨
      r.type = kTypeDeletion ∨ r.type = kTypeSingleDeletion ∨ r.type = kTypeRangeDeletion)))
  | .release _ => .isFalse fun h => h.2
  | .sync part => inferInstanceAs (Decidable (StepOk s (.sync part) ∧ True))
  | .freeze l1 => inferInstanceAs (Decidable (StepOk s (.freeze l1) ∧ True))

/-- What a history of writes and freezes keeps. -/
structure Unmaterialized (s : Writes) : Prop where
  released_eq : s.released = []
  types : ∀ a ∈ s.acked, a.2.type = kTypeValue ∨ a.2.type = kTypeDeletion ∨
    a.2.type = kTypeSingleDeletion ∨ a.2.type = kTypeRangeDeletion

theorem unmaterialized_step (h : Unmaterialized s) {op : IndexOp} (hok : HistoryOk s op) :
    Unmaterialized (s.step op) := by
  cases op with
  | sync part => exact ⟨h.released_eq, h.types⟩
  | freeze l1 => exact ⟨h.released_eq, h.types⟩
  | release epoch => exact absurd hok.2 id
  | write r v rnd =>
    rw [Writes.step]
    cases hadd : s.ctx.addRecord r v rnd with
    | mk res ctx' =>
      cases res with
      | error e => exact ⟨h.released_eq, h.types⟩
      | ok ref =>
        refine ⟨h.released_eq, ?_⟩
        intro a ha
        obtain rfl | ha := List.mem_cons.mp ha
        · exact hok.2
        · exact h.types a ha

theorem guarded_of_history {s : Writes} {ops : List IndexOp}
    (h : Guarded Writes.step HistoryOk s ops) : Guarded Writes.step StepOk s ops := by
  induction ops generalizing s with
  | nil => trivial
  | cons op ops ih => exact ⟨h.1.1, ih h.2⟩

/-- Two ranges that meet at `b`. -/
def twoRanges : PartitionTableSet := .init (.cutAt 0 [98])

/-- A session that freezes one partition at a time and aligns the table with level 1. -/
def alignedWrites : Writes :=
  Writes.start { partitions := 2, maxBatchPartitions := 1, routingMode := .kAlignL1 } .bytewise
    twoRanges none

def put (key : UInt8) (value : Bytes) (seq : UInt64) : WalRecord := ⟨[key], value, kTypeValue, seq⟩

def deleteRange (first last : UInt8) (seq : UInt64) : WalRecord :=
  ⟨[first], [last], kTypeRangeDeletion, seq⟩

/-- A version is frozen, a newer one follows, and the first epoch is released. -/
def releasedEpoch : List IndexOp :=
  [.write (put 97 [1, 1] 1) 0 0, .write (put 99 [2] 2) 0 0, .freeze [],
    .write (put 97 [3] 3) 0 0, .release 1]

/-- The new table moves the first key to the partition that is frozen with it. -/
def movedAway : List IndexOp :=
  [.write (put 97 [1] 1) 0 0, .write (put 99 [2, 2] 2) 0 0, .freeze [([97], 1), ([120], 1)]]

def tombstoneLast : List IndexOp := [.write (put 98 [1] 1) 0 0, .write (deleteRange 97 99 2) 0 0]

/-- A tombstone is written before the version it is taken to hide. -/
def tombstoneFirst : List IndexOp := [.write (deleteRange 97 99 1) 0 0, .write (put 98 [2] 2) 0 0]

end ZeroFlush.SnapshotReads
