import ZeroFlush.FrameDecoder
import ZeroFlush.IndexChains
import ZeroFlush.SkipListRuns

/-! # The nodes of a partition index

`Insert` packs an internal key and a locator into the bytes of a skip-list node; the comparator and
the reads unpack them again. With concurrent callers the index of bytes answers like the list of
entries. -/
namespace ZeroFlush.IndexNodes
open FixedWidthCodec WalFormat PartitionedWal UserKeys OrderedInsertion PartitionIndexes IndexChains
  SortKeys Varints FrameDecoder GuardedRuns LinkPaths SkipLists SkipListTowers SkipListHistories
  SkipListRuns

/-- `PackSequenceAndType`. -/
def packSequenceAndType (seq : ℕ) (type : UInt8) : ℕ := seq * 256 + type.toNat

def internalKeyBytes (userKey : Bytes) (seq : ℕ) (type : UInt8) : Bytes :=
  userKey ++ putFixed 8 (packSequenceAndType seq type)

def locatorBytes (loc : WalRecordRef) : Bytes :=
  putFixed 4 loc.partId ++ putFixed 4 loc.gen ++ putFixed 8 loc.offset

/-- The buffer that `Insert` fills. -/
def nodeBytes (ik locator : Bytes) : Bytes :=
  putVarint ik.length ++ ik ++ (putVarint locator.length ++ locator)

def entryBytes (e : IndexEntry) : Bytes :=
  nodeBytes (internalKeyBytes e.userKey e.seq e.type) (locatorBytes e.loc)

/-- The probe of `Get` and of the other reads. -/
def lookupBytes (userKey : Bytes) (snapshot : ℕ) : Bytes :=
  let target := internalKeyBytes userKey snapshot kTypeValue
  putVarint target.length ++ target

/-- The slice in front of a node and what follows it. -/
def lengthPrefixed (node : Bytes) : Bytes × Bytes := (getLengthPrefixedSlice node).getD ([], [])

/-- `InternalKeyComparator::CompareKeySeq`. -/
def compareInternalKeys (ucmp : UserComparator) (akey bkey : Bytes) : Ordering :=
  (ucmp.compare (extractUserKey akey) (extractUserKey bkey)).then
    (compare (sequence bkey) (sequence akey))

/-- `ZfKeyComparator`. -/
def compareNodes (ucmp : UserComparator) (a b : Bytes) : Ordering :=
  compareInternalKeys ucmp (lengthPrefixed a).1 (lengthPrefixed b).1

/-- `Get` from where `Seek` has come to: the locator, the sequence number and the type. -/
def getAt (userKey : Bytes) (node : Option Bytes) : Option (Bytes × ℕ × UInt8) :=
  match node with
  | none => none
  | some entry =>
    let ik := (lengthPrefixed entry).1
    if ik.length < 8 ∨ userKey ≠ extractUserKey ik then none
    else
      let packed := extractInternalKeyFooter ik
      let loc := (lengthPrefixed (lengthPrefixed entry).2).1
      if loc.length ≠ 16 then none else some (loc, packed / 256, UInt8.ofNat packed)

/-- `GetRangeDelCover` from where `SeekForPrev` has come to. -/
def rangeDelCoverAt (ucmp : UserComparator) (userKey : Bytes)
    (readValue : Bytes → Except Status Bytes) (node : Option Bytes) : Bool :=
  match node with
  | none => false
  | some entry =>
    let ik := (lengthPrefixed entry).1
    if ik.length < 8 then false
    else if ucmp.compare (extractUserKey ik) userKey = .gt then false
    else if UInt8.ofNat (extractInternalKeyFooter ik) ≠ kTypeRangeDeletion then false
    else
      match readValue (lengthPrefixed (lengthPrefixed entry).2).1 with
      | .error _ => false
      | .ok rangeEnd => ucmp.compare userKey rangeEnd == .lt

/-- `ForEachEntry`: the internal keys and the locators; an empty key is left out. -/
def forEachEntry (nodes : List Bytes) : List (Bytes × Bytes) :=
  nodes.filterMap fun entry =>
    let ik := lengthPrefixed entry
    if ik.1 = [] then none else some (ik.1, (lengthPrefixed ik.2).1)

/-- The locator in the bytes of a slice, as `ReadValue` copies it. -/
def locatorOf (bs : Bytes) : WalRecordRef := ⟨fixedAt 4 0 bs, fixedAt 4 4 bs, fixedAt 8 8 bs⟩

/-- What the fields of a node have room for. -/
structure Fits (e : IndexEntry) : Prop where
  userKey : e.userKey.length + 8 < 2 ^ 32
  seq : e.seq < 2 ^ 56
  partId : e.loc.partId < 2 ^ 32
  gen : e.loc.gen < 2 ^ 32
  offset : e.loc.offset < 2 ^ 64

section Codec
variable {v : ℕ} {bs rest : Bytes} {e : IndexEntry} {ucmp : UserComparator} {userKey : Bytes}
  {snapshot : ℕ}

theorem getGroups_putGroups {n k : ℕ} (hn : v < 128 ^ (n + 1)) (hk : v < 128 ^ (k + 1))
    (rest : Bytes) : getGroups (n + 1) (putGroups k v ++ rest) = some (v, rest) := by
  induction k generalizing n v with
  | zero =>
    have hbyte : (UInt8.ofNat v).toNat = v := by
      rw [UInt8.toNat_ofNat']
      omega
    rw [putGroups, List.singleton_append, getGroups, hbyte, if_pos (by omega)]
  | succ k ih =>
    rw [putGroups]
    split
    next hmore =>
      have hbyte : (UInt8.ofNat (v % 128 + 128)).toNat = v % 128 + 128 := by
        rw [UInt8.toNat_ofNat']
        omega
      have hk' : v / 128 < 128 ^ (k + 1) := by
        rw [pow_succ] at hk
        omega
      cases n with
      | zero => omega
      | succ n =>
        have hn' : v / 128 < 128 ^ (n + 1) := by
          rw [pow_succ] at hn
          omega
        rw [List.cons_append, getGroups, hbyte, if_neg (by omega), ih hn' hk', Option.map_some]
        congr 2
        omega
    next hone =>
      have hbyte : (UInt8.ofNat v).toNat = v := by
        rw [UInt8.toNat_ofNat']
        omega
      rw [List.singleton_append, getGroups, hbyte, if_pos (by omega)]

theorem getVarint32_putVarint (hv : v < 2 ^ 32) (rest : Bytes) :
    getVarint32 (putVarint v ++ rest) = some (v, rest) := by
  have hgroups : getGroups 5 (putVarint v ++ rest) = some (v, rest) := by
    apply getGroups_putGroups
    · omega
    · omega
  rw [getVarint32, hgroups, Option.map_some, Nat.mod_eq_of_lt hv]

theorem lengthPrefixed_put (h : bs.length < 2 ^ 32) (rest : Bytes) :
    lengthPrefixed (putVarint bs.length ++ (bs ++ rest)) = (bs, rest) := by
  rw [lengthPrefixed, getLengthPrefixedSlice, getVarint32_putVarint h]
  simp

theorem length_internalKeyBytes (userKey : Bytes) (seq : ℕ) (type : UInt8) :
    (internalKeyBytes userKey seq type).length = userKey.length + 8 := by
  simp [internalKeyBytes]

theorem extractUserKey_internalKeyBytes (userKey : Bytes) (seq : ℕ) (type : UInt8) :
    extractUserKey (internalKeyBytes userKey seq type) = userKey := by
  rw [extractUserKey, length_internalKeyBytes, internalKeyBytes]
  simp [kNumInternalBytes]

theorem footer_internalKeyBytes {seq : ℕ} (hseq : seq < 2 ^ 56) (userKey : Bytes) (type : UInt8) :
    extractInternalKeyFooter (internalKeyBytes userKey seq type) = packSequenceAndType seq type := by
  have htype := type.toNat_lt
  rw [extractInternalKeyFooter, footerBytes, length_internalKeyBytes, internalKeyBytes]
  simp only [kNumInternalBytes, Nat.add_sub_cancel, List.drop_left]
  apply decodeFixed_putFixed_of_lt
  rw [packSequenceAndType]
  omega

/-- The fields of an internal key are read back. -/
theorem sequence_internalKeyBytes {seq : ℕ} (hseq : seq < 2 ^ 56) (userKey : Bytes) (type : UInt8) :
    sequence (internalKeyBytes userKey seq type) = seq := by
  have htype := type.toNat_lt
  rw [SortKeys.sequence, footer_internalKeyBytes hseq, packSequenceAndType]
  omega

theorem ofNat_footer {seq : ℕ} (hseq : seq < 2 ^ 56) (userKey : Bytes) (type : UInt8) :
    UInt8.ofNat (extractInternalKeyFooter (internalKeyBytes userKey seq type)) = type := by
  have htype := type.toNat_lt
  rw [footer_internalKeyBytes hseq, packSequenceAndType]
  apply UInt8.toNat_inj.mp
  rw [UInt8.toNat_ofNat']
  omega

theorem length_locatorBytes (loc : WalRecordRef) : (locatorBytes loc).length = 16 := by
  simp [locatorBytes]

theorem locatorOf_locatorBytes (h : Fits e) : locatorOf (locatorBytes e.loc) = e.loc := by
  have hloc := ofBytes_locator e.loc.partId e.loc.gen h.offset
  rw [SlimLocator.ofBytes, if_neg (by simp)] at hloc
  simp only [Option.some.injEq, SlimLocator.mk.injEq, Nat.mod_eq_of_lt h.partId,
    Nat.mod_eq_of_lt h.gen] at hloc
  obtain ⟨hpart, hgen, hoffset⟩ := hloc
  rw [locatorOf, locatorBytes, hpart, hgen, hoffset]

theorem lengthPrefixed_entryBytes (h : Fits e) : lengthPrefixed (entryBytes e) =
    (internalKeyBytes e.userKey e.seq e.type, putVarint 16 ++ locatorBytes e.loc) := by
  rw [entryBytes, nodeBytes, List.append_assoc, length_locatorBytes]
  apply lengthPrefixed_put
  rw [length_internalKeyBytes]
  exact h.userKey

theorem lengthPrefixed_locator (loc : WalRecordRef) :
    lengthPrefixed (putVarint 16 ++ locatorBytes loc) = (locatorBytes loc, []) := by
  have hlen : (locatorBytes loc).length < 2 ^ 32 := by simp [length_locatorBytes]
  simpa [length_locatorBytes] using lengthPrefixed_put hlen []

theorem lengthPrefixed_lookupBytes (hkey : userKey.length + 8 < 2 ^ 32) (snapshot : ℕ) :
    lengthPrefixed (lookupBytes userKey snapshot) =
      (internalKeyBytes userKey snapshot kTypeValue, []) := by
  have hlen : (internalKeyBytes userKey snapshot kTypeValue).length < 2 ^ 32 := by
    rwa [length_internalKeyBytes]
  simpa [lookupBytes] using lengthPrefixed_put hlen []

theorem length_putVarint (hv : v < 2 ^ 32) : (putVarint v).length = varintLength v := by
  have hgroup : ∀ k u, 128 ≤ u → (putGroups (k + 1) u).length = (putGroups k (u / 128)).length + 1 := by
    intro k u hu
    rw [putGroups, if_pos hu, List.length_cons]
  have hlast : ∀ k u, u < 128 → (putGroups k u).length = 1 := by
    intro k u hu
    rw [putGroups_of_lt hu]
    rfl
  rw [varintLength, putVarint]
  split
  next h₁ => exact hlast 9 v h₁
  next h₁ =>
    rw [hgroup 8 v (by omega)]
    split
    next h₂ => rw [hlast 8 _ (by omega)]
    next h₂ =>
      rw [hgroup 7 _ (by omega)]
      split
      next h₃ => rw [hlast 7 _ (by omega)]
      next h₃ =>
        rw [hgroup 6 _ (by omega)]
        split
        next h₄ => rw [hlast 6 _ (by omega)]
        next h₄ => rw [hgroup 5 _ (by omega), hlast 5 _ (by omega)]

/-- The bytes of a node as the memory counter adds them up. -/
theorem length_entryBytes (h : Fits e) : (entryBytes e).length = e.bytes := by
  have hlen := length_internalKeyBytes e.userKey e.seq e.type
  simp only [entryBytes, nodeBytes, List.length_append, hlen, length_locatorBytes, IndexEntry.bytes]
  rw [length_putVarint h.userKey, length_putVarint (by omega)]
  omega

/-- Nodes are compared as their entries are. -/
theorem compareNodes_entryBytes {a b : IndexEntry} (ha : Fits a) (hb : Fits b) :
    compareNodes ucmp (entryBytes a) (entryBytes b) = compareKeySeq ucmp a b := by
  rw [compareNodes, lengthPrefixed_entryBytes ha, lengthPrefixed_entryBytes hb, compareInternalKeys,
    extractUserKey_internalKeyBytes, extractUserKey_internalKeyBytes,
    sequence_internalKeyBytes ha.seq, sequence_internalKeyBytes hb.seq]
  rfl

theorem compareNodes_lookupBytes (h : Fits e) (hkey : userKey.length + 8 < 2 ^ 32)
    (hsnapshot : snapshot < 2 ^ 56) :
    compareNodes ucmp (entryBytes e) (lookupBytes userKey snapshot) =
      compareKeySeq ucmp e (lookupKey userKey snapshot) := by
  rw [compareNodes, lengthPrefixed_entryBytes h, lengthPrefixed_lookupBytes hkey,
    compareInternalKeys, extractUserKey_internalKeyBytes, extractUserKey_internalKeyBytes,
    sequence_internalKeyBytes h.seq, sequence_internalKeyBytes hsnapshot]
  rfl

/-- What the comparator looks at. -/
def keyOf (node : Bytes) : IndexEntry :=
  lookupKey (extractUserKey (lengthPrefixed node).1) (sequence (lengthPrefixed node).1)

instance (ucmp : UserComparator) : Std.TransCmp (compareNodes ucmp) :=
  show Std.TransCmp fun a b => compareKeySeq ucmp (keyOf a) (keyOf b) from transCmp_comap keyOf

theorem getAt_entryBytes (h : Fits e) (userKey : Bytes) :
    getAt userKey (some (entryBytes e)) =
      if e.userKey = userKey then some (locatorBytes e.loc, e.seq, e.type) else none := by
  have hlen : ¬ (internalKeyBytes e.userKey e.seq e.type).length < 8 := by
    rw [length_internalKeyBytes]
    omega
  have hseq : extractInternalKeyFooter (internalKeyBytes e.userKey e.seq e.type) / 256 = e.seq :=
    sequence_internalKeyBytes h.seq e.userKey e.type
  simp only [getAt, lengthPrefixed_entryBytes h, lengthPrefixed_locator,
    extractUserKey_internalKeyBytes, length_locatorBytes, ofNat_footer h.seq, hlen, hseq, false_or,
    ne_eq, not_true_eq_false, if_false]
  rcases eq_or_ne e.userKey userKey with heq | hne
  · simp [heq]
  · simp [hne, hne.symm]

/-- The entry that `SeekForPrev` stops at decides. -/
theorem rangeDelCoverAt_eq {idx : PartitionIndex} {o : Option IndexEntry}
    (ho : (idx.entries.takeWhile fun e =>
      compareKeySeq ucmp e (lookupKey userKey snapshot) != .gt).getLast? = o)
    (h : ∀ e ∈ o, Fits e) (readValue : WalRecordRef → Except Status Bytes) :
    rangeDelCoverAt ucmp userKey (fun bs => readValue (locatorOf bs)) (o.map entryBytes) =
      idx.getRangeDelCover ucmp userKey snapshot readValue := by
  rw [PartitionIndex.getRangeDelCover]
  simp only [ho]
  cases o with
  | none => rfl
  | some e =>
    have hfits := h e rfl
    have hlen : ¬ (internalKeyBytes e.userKey e.seq e.type).length < 8 := by
      rw [length_internalKeyBytes]
      omega
    cases hvalue : readValue e.loc <;>
      simp [rangeDelCoverAt, lengthPrefixed_entryBytes hfits, lengthPrefixed_locator,
        extractUserKey_internalKeyBytes, ofNat_footer hfits.seq, hlen,
        locatorOf_locatorBytes hfits, hvalue]

/-- The entry that `Seek` stops at is the answer if it has the key. -/
theorem getAt_eq {idx : PartitionIndex} {o : Option IndexEntry}
    (ho : (idx.seek ucmp userKey snapshot).head? = o) (h : ∀ e ∈ o, Fits e) :
    getAt userKey (o.map entryBytes) =
      (idx.get ucmp userKey snapshot).map fun e => (locatorBytes e.loc, e.seq, e.type) := by
  rw [PartitionIndex.get, ho]
  cases o with
  | none => rfl
  | some e =>
    rw [Option.map_some, getAt_entryBytes (h e rfl)]
    rcases eq_or_ne e.userKey userKey with heq | hne
    · simp [heq]
    · simp [hne]

theorem forEachEntry_entryBytes {es : List IndexEntry} (h : ∀ e ∈ es, Fits e) :
    forEachEntry (es.map entryBytes) =
      es.map fun e => (internalKeyBytes e.userKey e.seq e.type, locatorBytes e.loc) := by
  induction es with
  | nil => rfl
  | cons e es ih =>
    have hne : internalKeyBytes e.userKey e.seq e.type ≠ [] := by
      intro hnil
      have hlen := length_internalKeyBytes e.userKey e.seq e.type
      rw [hnil] at hlen
      cases hlen
    have hrest := ih fun e' he' => h e' (List.mem_cons_of_mem _ he')
    rw [forEachEntry] at hrest
    rw [forEachEntry, List.map_cons, List.filterMap_cons, hrest]
    simp [lengthPrefixed_entryBytes (h e List.mem_cons_self), lengthPrefixed_locator, hne]

end Codec

/-! ## Concurrent callers -/

section Callers
variable {ν ρ : Type*} [DecidableEq ν] [DecidableEq ρ] {ucmp : UserComparator}
  {entry : ν → IndexEntry} {l l' : List ν} {nodes nodes' : ρ → Option ν}

/-- The calls on an index of entries, one after the other: which entries go in, and what `Get` and
`GetRangeDelCover` answer from the nodes that their iterators stop at. -/
inductive Replays (ucmp : UserComparator) (entry : ν → IndexEntry) :
    PartitionIndex → List (Event ν ρ Bytes) → PartitionIndex → Prop
  | nil (idx) : Replays ucmp entry idx [] idx
  | inserted {idx idx' idx'' x es} (h : idx.insert ucmp (entry x) = some idx')
      (rest : Replays ucmp entry idx' es idx'') : Replays ucmp entry idx (.insert x true :: es) idx''
  | duplicate {idx idx'' x es} (h : idx.insert ucmp (entry x) = none)
      (rest : Replays ucmp entry idx es idx'') : Replays ucmp entry idx (.insert x false :: es) idx''
  | read {idx idx'' r op node es}
      (hget : ∀ userKey snapshot, userKey.length + 8 < 2 ^ 32 → snapshot < 2 ^ 56 →
        op = .seek (lookupBytes userKey snapshot) →
        getAt userKey (node.map fun x => entryBytes (entry x)) =
          (idx.get ucmp userKey snapshot).map fun e => (locatorBytes e.loc, e.seq, e.type))
      (hcover : ∀ userKey snapshot readValue, userKey.length + 8 < 2 ^ 32 → snapshot < 2 ^ 56 →
        op = .seekForPrev (lookupBytes userKey snapshot) →
        rangeDelCoverAt ucmp userKey (fun bs => readValue (locatorOf bs))
            (node.map fun x => entryBytes (entry x)) =
          idx.getRangeDelCover ucmp userKey snapshot readValue)
      (rest : Replays ucmp entry idx es idx'') :
      Replays ucmp entry idx (.iterate r op node :: es) idx''

omit [DecidableEq ν] in
theorem byKey_entryBytes (h : ∀ x, Fits (entry x)) (x y : ν) :
    byKey (compareNodes ucmp) (fun x => entryBytes (entry x)) x y =
      compareKeySeq ucmp (entry x) (entry y) := compareNodes_entryBytes (h x) (h y)

omit [DecidableEq ν] in
theorem insert_map (h : ∀ x, Fits (entry x)) (gen : ℕ) (x : ν) (l : List ν) :
    ({ gen := gen, entries := l.map entry } : PartitionIndex).insert ucmp (entry x) =
      (insertNew (byKey (compareNodes ucmp) fun x => entryBytes (entry x)) x l).map fun l =>
        { gen := gen, entries := l.map entry } := by
  have hmap : insertNew (compareKeySeq ucmp) (entry x) (l.map entry) =
      (insertNew (byKey (compareNodes ucmp) fun x => entryBytes (entry x)) x l).map (List.map entry) :=
    insertNew_map entry fun y _ => (byKey_entryBytes h x y).symm
  rw [PartitionIndex.insert, hmap, Option.map_map]
  rfl

omit [DecidableEq ν] in
/-- `Seek` on the nodes stops at the entry that it stops at in the index. -/
theorem seek_map (h : ∀ x, Fits (entry x)) (gen : ℕ) (l : List ν) (node : Option ν)
    {userKey : Bytes} {snapshot : ℕ} (hkey : userKey.length + 8 < 2 ^ 32)
    (hsnapshot : snapshot < 2 ^ 56) :
    (({ gen := gen, entries := l.map entry } : PartitionIndex).seek ucmp userKey snapshot).head? =
      (spec (compareNodes ucmp) (fun x => entryBytes (entry x)) l node
        (.seek (lookupBytes userKey snapshot))).map entry := by
  simp only [PartitionIndex.seek, spec]
  induction l with
  | nil => rfl
  | cons x xs ih =>
    have hcmp : compareNodes ucmp (entryBytes (entry x)) (lookupBytes userKey snapshot) =
        compareKeySeq ucmp (entry x) (lookupKey userKey snapshot) :=
      compareNodes_lookupBytes (h x) hkey hsnapshot
    rw [List.map_cons, List.dropWhile_cons, List.find?_cons, hcmp]
    cases hc : compareKeySeq ucmp (entry x) (lookupKey userKey snapshot) == .lt with
    | true => simpa using ih
    | false => simp

omit [DecidableEq ν] in
theorem seekForPrev_map (h : ∀ x, Fits (entry x)) (l : List ν) (node : Option ν)
    {userKey : Bytes} {snapshot : ℕ} (hkey : userKey.length + 8 < 2 ^ 32)
    (hsnapshot : snapshot < 2 ^ 56) :
    ((l.map entry).takeWhile fun e =>
        compareKeySeq ucmp e (lookupKey userKey snapshot) != .gt).getLast? =
      (spec (compareNodes ucmp) (fun x => entryBytes (entry x)) l node
        (.seekForPrev (lookupBytes userKey snapshot))).map entry := by
  have hsame : ∀ x : ν, (compareKeySeq ucmp (entry x) (lookupKey userKey snapshot) != .gt) =
      !(compareNodes ucmp (lookupBytes userKey snapshot) (entryBytes (entry x)) == .lt) := by
    intro x
    have hcmp : compareNodes ucmp (entryBytes (entry x)) (lookupBytes userKey snapshot) =
        compareKeySeq ucmp (entry x) (lookupKey userKey snapshot) :=
      compareNodes_lookupBytes (h x) hkey hsnapshot
    have hswap : compareKeySeq ucmp (entry x) (lookupKey userKey snapshot) = .gt ↔
        compareNodes ucmp (lookupBytes userKey snapshot) (entryBytes (entry x)) = .lt := by
      rw [← hcmp]
      exact Std.OrientedCmp.gt_iff_lt
    rw [bne, Bool.not_inj_iff, Bool.eq_iff_iff]
    simpa using hswap
  rw [List.takeWhile_map, List.getLast?_map, spec]
  congr 2
  apply congrArg (l.takeWhile ·)
  funext x
  exact hsame x

theorem replays_of_apply (h : ∀ x, Fits (entry x)) (gen : ℕ) {es : List (Event ν ρ Bytes)}
    (hes : es.foldlM (Event.apply (compareNodes ucmp) fun x => entryBytes (entry x)) (l, nodes) =
      some (l', nodes')) :
    Replays ucmp entry { gen := gen, entries := l.map entry } es
      { gen := gen, entries := l'.map entry } := by
  induction es generalizing l nodes with
  | nil =>
    cases hes
    exact .nil _
  | cons e es ih =>
    rw [List.foldlM_cons] at hes
    obtain ⟨⟨l₁, nodes₁⟩, happly, hrest⟩ := Option.bind_eq_some_iff.mp hes
    cases e with
    | insert x ok =>
      cases ok with
      | true =>
        obtain ⟨l₂, hins, he⟩ := Option.map_eq_some_iff.mp happly
        cases he
        apply Replays.inserted _ (ih hrest)
        rw [insert_map h, hins]
        rfl
      | false =>
        rw [Event.apply] at happly
        split at happly
        next hins =>
          cases happly
          apply Replays.duplicate _ (ih hrest)
          rw [insert_map h, hins]
          rfl
        next => cases happly
    | iterate r op node =>
      rw [Event.apply] at happly
      split at happly
      next hspec =>
        cases happly
        have hfits : ∀ e ∈ node.map entry, Fits e := by
          intro e he
          obtain ⟨x, -, rfl⟩ := Option.map_eq_some_iff.mp he
          exact h x
        have hnode : (node.map fun x => entryBytes (entry x)) = (node.map entry).map entryBytes := by
          rw [Option.map_map]
          rfl
        refine .read ?_ ?_ (ih hrest)
        · intro userKey snapshot hkey hsnapshot hop
          subst hop
          rw [hnode]
          apply getAt_eq _ hfits
          rw [seek_map h gen l (nodes r) hkey hsnapshot, hspec]
        · intro userKey snapshot readValue hkey hsnapshot hop
          subst hop
          rw [hnode]
          apply rangeDelCoverAt_eq _ hfits
          rw [seekForPrev_map h l (nodes r) hkey hsnapshot, hspec]
      next => cases happly

/-- With any number of callers, whatever the order of their turns, an index of bytes is an index of
entries: its calls take effect one after the other, a call of `Insert` succeeds when it does there,
`Get` and `GetRangeDelCover` answer what they answer there, and a walk over the nodes gives the
entries in their order. -/
theorem index_linearizable (ucmp : UserComparator) (entry : ν → IndexEntry)
    (hfits : ∀ x, Fits (entry x)) (gen : ℕ) (draws : ν → ℕ → ℕ) (garbage : ν → ℕ → Option ν)
    (ops : ρ → List (IterOp Bytes)) (turns : List (Turn ν ρ)) :
    let key := fun x => entryBytes (entry x)
    let height := fun x => randomHeight (draws x)
    let ra := run (turn (compareNodes ucmp) key height) (start garbage ops) turns
    let es := events (compareNodes ucmp) key height (start garbage ops) turns
    ∃ (idx : PartitionIndex) (nodes : List ν), Replays ucmp entry { gen := gen } es idx ∧
      Linked (fun p => ra.shared.next p 0) none nodes ∧ nodes.map entry = idx.entries ∧
      (forEachEntry (nodes.map key) =
        idx.entries.map fun e => (internalKeyBytes e.userKey e.seq e.type, locatorBytes e.loc)) ∧
      ∀ x, es.filterMap (insertOf x) = outcome (ra.inserts x) := by
  intro key height ra es
  have hheight : ∀ x, 1 ≤ height x ∧ height x ≤ kMaxHeight :=
    fun x => ⟨one_le_randomHeight _, randomHeight_le _⟩
  have hstart : Consistent (compareNodes ucmp) key height (fun _ => []) (start garbage ops) :=
    consistent_start garbage ops
  obtain ⟨L, hc, hl⟩ := run_linearized hheight hstart turns
  refine ⟨{ gen := gen, entries := (L 0).map entry }, L 0, ?_, hc.towers.linked 0, rfl, ?_,
    fun x => hl.inserted x⟩
  · exact replays_of_apply hfits gen hl.replay
  · have hall : ∀ e ∈ (L 0).map entry, Fits e := by
      intro e he
      obtain ⟨x, -, rfl⟩ := List.mem_map.mp he
      exact hfits x
    rw [← forEachEntry_entryBytes hall, List.map_map]
    rfl

/-- Versions of one key. -/
def versions (n : ℕ) : IndexEntry := ⟨[7], n % 100, kTypeValue, ⟨0, 0, 64 * (n % 100)⟩⟩

theorem fits_versions (n : ℕ) : Fits (versions n) := by
  have hlt : n % 100 < 100 := Nat.mod_lt _ (by decide)
  constructor <;> simp [versions] <;> omega

theorem index_linearizable_two :
    (events (compareNodes .bytewise) (fun n => entryBytes (versions n))
        (fun n => randomHeight (twoDraws n)) (start (fun _ _ => some 1) fun _ => []) twoTurns).filterMap
      (insertOf 7) = [true] := by
  obtain ⟨-, -, -, -, -, -, hinserts⟩ := @index_linearizable ℕ ℕ _ _ .bytewise versions
    fits_versions 0 twoDraws (fun _ _ => some 1) (fun _ => []) twoTurns
  rw [hinserts 7]
  decide +kernel

end Callers

end ZeroFlush.IndexNodes
