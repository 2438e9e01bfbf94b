import ZeroFlush.CutSequences
import ZeroFlush.Materialization
import ZeroFlush.RoutedRanges
import ZeroFlush.SortKeys

/-! # Slicing a partition

Records that reach over the range of their partition are cut at the bounds of a partition table.
The loop takes the records as they stand. They come in the order of the frozen indexes, of the
encoded sort keys, or of the writes. -/
namespace ZeroFlush.SlicedPartitions
open FixedWidthCodec UserKeys WalFiles PartitionTables SealedFiles TableFiles Materialization RoutedRanges
  SortKeys CutSequences

/-- An internal key and its value. -/
abbrev Record := Bytes × Bytes

def Record.userKey (r : Record) : Bytes := extractUserKey r.1

def Record.entry (r : Record) : TableEntry :=
  ⟨extractUserKey r.1, sequence r.1, UInt8.ofNat (extractInternalKeyFooter r.1)⟩

/-- The sort of the fallback path; under another comparator than the bytewise one there is none. -/
def fallbackOrder (ucmpName : String) (records : List Record) : List Record :=
  match buildSortKeys (records.map Prod.fst) ucmpName with
  | some (buf, off) =>
    let (keys, values) :=
      reorderBySortKeys (records.map Prod.fst) (records.map Prod.snd) buf off
    keys.zip values
  | none => records

/-- `keys` and `values` before the slice decision: what `BuildAsideFromFrozenIndex` returned, or the
scanned records on the fallback path. -/
def asideRecords (ucmpName : String) (frozen : Option (List Record)) (scanned : List Record) :
    List Record :=
  match frozen with
  | some records => records
  | none => fallbackOrder ucmpName scanned

/-- The records that a slice with this upper bound takes. -/
def belowBound (ucmp : UserComparator) (r : Record) (hi : Bytes) : Bool :=
  ucmp.compare r.userKey hi == .lt

/-- The slice decision and the loop; `none` where `MaterializePartition` does not slice. -/
def slicePartition (input : MaterializeInput) (table : Option PartitionTable) (lo hi : Bytes)
    (records : List Record) : Option (List (List Record)) :=
  let oobData := outOfBounds input.ucmp lo hi (records.map Record.entry)
  let legacyHash := table.any (·.isHashMode) && decide (lo = [] ∧ hi = [])
  let cut := input.sliceTable table
  if records ≠ [] ∧ (oobData ∨ legacyHash) ∧ cut.isHashMode = false ∧ cut.partitions > 1 then
    some (cuts (belowBound input.ucmp) (cut.partIds.map fun i => (cut.rangeOf i).2) records)
  else none

/-- The key is between the ends of the partition. -/
def InRange (ucmp : UserComparator) (t : PartitionTable) (p : ℕ) (k : Bytes) : Prop :=
  (∀ b ∈ lowerEnd t p, KeyRanges.Le ucmp.compare b k) ∧
    ∀ b ∈ upperEnd t p, KeyRanges.Lt ucmp.compare k b

/-- The slices hold every record once, each of them in the range of one partition, in the order of
the keys and without a common key. -/
structure SplitsByPartition (ucmp : UserComparator) (t : PartitionTable) (records : List Record)
    (pieces : List (List Record)) : Prop where
  complete : pieces.flatten.Perm records
  inRange : ∀ piece ∈ pieces, ∃ p < t.partitions, ∀ r ∈ piece, InRange ucmp t p r.userKey
  ascending : pieces.Pairwise fun x y =>
    ∀ a ∈ x, ∀ b ∈ y, KeyRanges.Lt ucmp.compare a.userKey b.userKey
  apart : pieces.Pairwise fun x y => ∀ a ∈ x, ∀ b ∈ y, a.userKey ≠ b.userKey

/-- The records of the last partition. -/
def lastRecords (ucmp : UserComparator) (t : PartitionTable) (records : List Record) : List Record :=
  records.filter fun r => t.route ucmp r.userKey = t.boundaries.length

/-- The partitions of the records never go down. In the last one, whose bound is the empty slice,
what comes before the first key that is not below the empty key is below everything from there. -/
structure Sliceable (ucmp : UserComparator) (t : PartitionTable) (records : List Record) : Prop where
  grouped : records.Pairwise fun a b => t.route ucmp a.userKey ≤ t.route ucmp b.userKey
  last : ∀ a ∈ (lastRecords ucmp t records).takeWhile (belowBound ucmp · []),
    ∀ b ∈ (lastRecords ucmp t records).dropWhile (belowBound ucmp · []),
      KeyRanges.Lt ucmp.compare a.userKey b.userKey

/-- The loop is the one over the keys alone. -/
theorem slices_eq_cuts (ucmp : UserComparator) (his : List Bytes) (records : List Record) :
    slices ucmp his (records.map Record.entry) =
      (cuts (belowBound ucmp) his records).map (List.map Record.entry) := by
  induction his generalizing records with
  | nil =>
    rw [slices, cuts, single]
    cases records with
    | nil => rfl
    | cons r records => rfl
  | cons hi his ih =>
    have htake : (records.map Record.entry).takeWhile (fun e => ucmp.compare e.userKey hi == .lt) =
        (records.takeWhile (belowBound ucmp · hi)).map Record.entry := List.takeWhile_map
    have hdrop : records.drop (records.takeWhile (belowBound ucmp · hi)).length =
        records.dropWhile (belowBound ucmp · hi) := by
      have hsplit := @List.drop_left _ (records.takeWhile (belowBound ucmp · hi))
        (records.dropWhile (belowBound ucmp · hi))
      rwa [List.takeWhile_append_dropWhile] at hsplit
    rw [slices, cuts, single, htake, List.map_append, List.length_map, ← List.map_drop, hdrop]
    simp only [ih, List.map_eq_nil_iff]
    split
    next hnil =>
      have hall : records.dropWhile (belowBound ucmp · hi) = records := by
        conv_rhs => rw [← @List.takeWhile_append_dropWhile _ (belowBound ucmp · hi) records, hnil]
        rw [List.nil_append]
      rw [List.map_nil, List.nil_append, hall]
    next => rfl

/-- What `MaterializePartition` builds from sorted records where it slices. -/
theorem materializePartition_of_slice {input : MaterializeInput} {se : SealedEpoch}
    {table : Option PartitionTable} {pid : ℕ} {gens : List FileId} {lo hi : Bytes}
    {records : List Record} (hrecords : records.map Record.entry = input.aside gens)
    {pieces : List (List Record)} (h : slicePartition input table lo hi records = some pieces) :
    input.materializePartition se table pid gens lo hi =
      .ok (pieces.flatMap fun piece => input.buildOne (piece.map Record.entry)) := by
  rw [slicePartition] at h
  split at h
  next hslice =>
    cases h
    obtain ⟨hne, hcut⟩ := hslice
    rw [hrecords] at hcut
    have hkeys : input.aside gens ≠ [] := by
      rw [← hrecords, ne_eq, List.map_eq_nil_iff]
      exact hne
    rw [MaterializeInput.materializePartition, if_neg hkeys]
    dsimp only
    rw [if_pos hcut, ← hrecords, slices_eq_cuts, List.flatMap_map]
  · cases h

section order
variable {ucmpName : String}

/-- The fallback sort only permutes the records. -/
theorem perm_fallbackOrder (records : List Record) :
    (fallbackOrder ucmpName records).Perm records := by
  rw [fallbackOrder]
  split
  next buf off _ =>
    have hzip := @map_range_eq_zip (records.map Prod.fst) (records.map Prod.snd)
      (by rw [List.length_map, List.length_map])
    have hself : (records.map Prod.fst).zip (records.map Prod.snd) = records :=
      (List.zip_of_prod rfl rfl).symm
    rw [hself] at hzip
    dsimp only [reorderBySortKeys]
    rw [List.zip_map']
    have hperm := List.perm_insertionSort (fun a b => ¬ sortLess buf off b a)
      (List.range (records.map Prod.fst).length)
    exact (hperm.map _).trans (List.Perm.of_eq hzip)
  · exact List.Perm.refl records

theorem perm_asideRecords (frozen : Option (List Record)) (scanned : List Record) :
    (asideRecords ucmpName frozen scanned).Perm (frozen.getD scanned) := by
  cases frozen with
  | some records => exact List.Perm.refl records
  | none => exact perm_fallbackOrder scanned

end order

section partition
variable {ucmp : UserComparator} {t : PartitionTable} {records : List Record}

/-- The bounds of the slices are the boundaries and, for the open end of the last partition, the
empty slice. -/
theorem upperBounds_eq (hmode : t.isHashMode = false) :
    (t.partIds.map fun i => (t.rangeOf i).2) = t.boundaries ++ [[]] := by
  have hparts := t.partitions_eq hmode
  apply List.ext_getElem
  · simp [PartitionTable.partIds, hparts]
  · intro i hi hi'
    simp only [PartitionTable.partIds, List.getElem_map, List.getElem_range, PartitionTable.rangeOf]
    split
    next h =>
      rw [List.getElem_append_right h]
      simp
    next h =>
      rw [List.getElem_append_left (Nat.lt_of_not_le h), List.getD_eq_getElem?_getD,
        List.getElem?_eq_getElem (Nat.lt_of_not_le h), Option.getD_some]

theorem classOf_eq_route (hmode : t.isHashMode = false) (r : Record) :
    classOf (belowBound ucmp) t.boundaries r = t.route ucmp r.userKey := by
  rw [PartitionTable.route, hmode, if_neg Bool.false_ne_true]
  rfl

/-- A key of a lower partition is below every key of a higher one. -/
theorem lt_of_route_lt (hmode : t.isHashMode = false) (hbs : Ascending ucmp t.boundaries)
    {k k' : Bytes} (h : t.route ucmp k < t.route ucmp k') : KeyRanges.Lt ucmp.compare k k' := by
  have hparts := t.partitions_eq hmode
  have hlt' := t.route_lt ucmp k'
  obtain ⟨hlo, -⟩ := (route_eq_iff hmode hbs hlt').mp rfl
  have hprev : t.route ucmp k' - 1 < t.boundaries.length := by omega
  have hbelow : KeyRanges.Le ucmp.compare (t.boundaries[t.route ucmp k' - 1]) k' := by
    refine hlo _ ?_
    rw [lowerEnd, if_neg (Nat.ne_zero_of_lt h), List.getElem?_eq_getElem hprev]
    exact rfl
  obtain ⟨-, hhi⟩ := (route_eq_iff hmode hbs (t.route_lt ucmp k)).mp rfl
  have hk : t.route ucmp k < t.boundaries.length := by omega
  have habove := hhi _ (List.getElem?_eq_getElem hk)
  have hle : KeyRanges.Le ucmp.compare (t.boundaries[t.route ucmp k])
      (t.boundaries[t.route ucmp k' - 1]) := by
    obtain heq | hlt := Nat.eq_or_lt_of_le (Nat.le_sub_one_of_lt h)
    · simp only [heq]
      exact KeyRanges.le_refl _
    · exact KeyRanges.le_of_lt (List.pairwise_iff_getElem.mp hbs _ _ hk hprev hlt)
  exact KeyRanges.lt_of_lt_of_le habove (KeyRanges.le_trans hle hbelow)

/-- Sorted records are sliced well. -/
theorem sliceable_of_sorted (hmode : t.isHashMode = false) (hbs : Ascending ucmp t.boundaries)
    (h : records.Pairwise fun a b => KeyRanges.Le ucmp.compare a.userKey b.userKey) :
    Sliceable ucmp t records := by
  constructor
  · refine h.imp fun {a b} hab => ?_
    by_contra hlt
    exact KeyRanges.not_lt.mpr hab (lt_of_route_lt hmode hbs (Nat.lt_of_not_le hlt))
  · intro a ha b hb
    have habove : ∀ r ∈ (lastRecords ucmp t records).dropWhile (belowBound ucmp · []),
        KeyRanges.Le ucmp.compare [] r.userKey := by
      have hsorted := List.Pairwise.sublist
        ((List.dropWhile_sublist (belowBound ucmp · [])).trans
          (@List.filter_sublist _ (fun r => t.route ucmp r.userKey = t.boundaries.length) records)) h
      cases hrest : (lastRecords ucmp t records).dropWhile (belowBound ucmp · []) with
      | nil => exact fun r hr => absurd hr List.not_mem_nil
      | cons c rest =>
        have hhead := List.head?_dropWhile_not (belowBound ucmp · []) (lastRecords ucmp t records)
        rw [hrest] at hhead
        have hc : KeyRanges.Le ucmp.compare [] c.userKey :=
          KeyRanges.not_lt.mp (by simpa [belowBound, KeyRanges.Lt] using hhead)
        intro r hr
        obtain rfl | hr := List.mem_cons.mp hr
        · exact hc
        · rw [lastRecords] at hrest
          rw [hrest] at hsorted
          exact KeyRanges.le_trans hc (List.rel_of_pairwise_cons hsorted hr)
    have hbelow := List.all_eq_true.mp List.all_takeWhile a ha
    exact KeyRanges.lt_of_lt_of_le (beq_iff_eq.mp hbelow) (habove b hb)

/-- The pieces are the partitions of the records, the last one in two parts. -/
theorem pieces_spec (hmode : t.isHashMode = false)
    (h : records.Pairwise fun a b => t.route ucmp a.userKey ≤ t.route ucmp b.userKey) :
    ∃ front, cuts (belowBound ucmp) (t.boundaries ++ [[]]) records =
        front ++ (single ((lastRecords ucmp t records).takeWhile (belowBound ucmp · [])) ++
          single ((lastRecords ucmp t records).dropWhile (belowBound ucmp · []))) ∧
      (∀ piece ∈ front, ∃ p < t.boundaries.length, ∀ r ∈ piece, t.route ucmp r.userKey = p) ∧
      front.Pairwise fun x y => ∀ a ∈ x, ∀ b ∈ y, t.route ucmp a.userKey < t.route ucmp b.userKey := by
  have hclass := @classOf_eq_route ucmp t hmode
  have hgrouped : Grouped (belowBound ucmp) t.boundaries records := by
    refine h.imp fun {a b} hab => ?_
    rwa [hclass, hclass]
  have hlast : lastClass (belowBound ucmp) t.boundaries records = lastRecords ucmp t records :=
    List.filter_congr fun r _ => by rw [hclass]
  obtain ⟨front, hcuts, hclasses, hordered⟩ := exists_front t.boundaries [] hgrouped
  rw [hlast, cuts_top] at hcuts
  simp only [hclass] at hclasses hordered
  exact ⟨front, hcuts, hclasses, hordered⟩

/-- Slices in the ranges of single partitions and in the order of the keys leave the partitions of
the records in order. -/
theorem grouped_of_split (hmode : t.isHashMode = false) (hbs : Ascending ucmp t.boundaries)
    {pieces : List (List Record)} (hflat : pieces.flatten = records)
    (hrange : ∀ piece ∈ pieces, ∃ p < t.partitions, ∀ r ∈ piece, InRange ucmp t p r.userKey)
    (hasc : pieces.Pairwise fun x y =>
      ∀ a ∈ x, ∀ b ∈ y, KeyRanges.Lt ucmp.compare a.userKey b.userKey) :
    records.Pairwise fun a b => t.route ucmp a.userKey ≤ t.route ucmp b.userKey := by
  rw [← hflat, List.pairwise_flatten]
  refine ⟨fun piece hp => ?_, hasc.imp fun {x y} hxy a ha b hb => ?_⟩
  · obtain ⟨p, hlt, hin⟩ := hrange piece hp
    have hroute : ∀ r ∈ piece, t.route ucmp r.userKey = p := fun r hr =>
      (route_eq_iff hmode hbs hlt).mpr (hin r hr)
    refine List.pairwise_of_forall_mem_list fun a ha b hb => ?_
    rw [hroute a ha, hroute b hb]
  · by_contra hlt
    exact KeyRanges.lt_irrefl a.userKey
      (lt_trans (hxy a ha b hb) (lt_of_route_lt hmode hbs (Nat.lt_of_not_le hlt)))

/-- Slicing at the bounds of the table splits the records by its partitions exactly when they come
in the order of the partitions. -/
theorem split_iff (hmode : t.isHashMode = false) (hbs : Ascending ucmp t.boundaries)
    {given : List Record} (hperm : records.Perm given) :
    SplitsByPartition ucmp t given (cuts (belowBound ucmp) (t.boundaries ++ [[]]) records) ↔
      Sliceable ucmp t records := by
  have hparts := t.partitions_eq hmode
  have hflat := @flatten_cuts _ _ (belowBound ucmp) (t.boundaries ++ [[]]) records
  constructor
  · intro hsplit
    have hgrouped := grouped_of_split hmode hbs hflat hsplit.inRange hsplit.ascending
    refine ⟨hgrouped, fun a ha b hb => ?_⟩
    obtain ⟨front, hcuts, -, -⟩ := pieces_spec hmode hgrouped
    have hasc := hsplit.ascending
    rw [hcuts] at hasc
    exact (List.pairwise_append.mp (List.pairwise_append.mp hasc).2.1).2.2 _ (mem_single_of_mem ha)
      _ (mem_single_of_mem hb) a ha b hb
  · rintro ⟨hgrouped, hlast⟩
    obtain ⟨front, hcuts, hclasses, hordered⟩ := pieces_spec hmode hgrouped
    -- what the last pieces hold
    have htop : ∀ piece ∈ single ((lastRecords ucmp t records).takeWhile (belowBound ucmp · [])) ++
        single ((lastRecords ucmp t records).dropWhile (belowBound ucmp · [])),
        ∀ r ∈ piece, t.route ucmp r.userKey = t.boundaries.length := by
      intro piece hp r hr
      have hmem : r ∈ lastRecords ucmp t records := by
        obtain hp | hp := List.mem_append.mp hp
        · exact (List.takeWhile_sublist _).subset ((mem_single.mp hp).1 ▸ hr)
        · exact (List.dropWhile_sublist _).subset ((mem_single.mp hp).1 ▸ hr)
      exact of_decide_eq_true (List.mem_filter.mp hmem).2
    have hasc : (cuts (belowBound ucmp) (t.boundaries ++ [[]]) records).Pairwise fun x y =>
        ∀ a ∈ x, ∀ b ∈ y, KeyRanges.Lt ucmp.compare a.userKey b.userKey := by
      rw [hcuts]
      refine List.pairwise_append.mpr ⟨?_, List.pairwise_append.mpr ⟨pairwise_single _ _,
        pairwise_single _ _, ?_⟩, ?_⟩
      · exact hordered.imp fun {x y} hxy a ha b hb => lt_of_route_lt hmode hbs (hxy a ha b hb)
      · intro x hx y hy a ha b hb
        exact hlast a ((mem_single.mp hx).1 ▸ ha) b ((mem_single.mp hy).1 ▸ hb)
      · intro x hx y hy a ha b hb
        obtain ⟨p, hlt, hroute⟩ := hclasses x hx
        apply lt_of_route_lt hmode hbs
        rw [hroute a ha, htop y hy b hb]
        exact hlt
    refine ⟨by rwa [hflat], fun piece hp => ?_, hasc, hasc.imp fun {x y} hxy a ha b hb heq => ?_⟩
    · rw [hcuts] at hp
      obtain hp | hp := List.mem_append.mp hp
      · obtain ⟨p, hlt, hroute⟩ := hclasses piece hp
        have hp' : p < t.partitions := by omega
        exact ⟨p, hp', fun r hr => (route_eq_iff hmode hbs hp').mp (hroute r hr)⟩
      · have hp' : t.boundaries.length < t.partitions := by omega
        exact ⟨_, hp', fun r hr => (route_eq_iff hmode hbs hp').mp (htop piece hp r hr)⟩
    · have hlt := hxy a ha b hb
      rw [heq] at hlt
      exact KeyRanges.lt_irrefl _ hlt

/-- Sorted records are always sliced by the partitions. -/
theorem splitsByPartition_of_sorted (input : MaterializeInput) (table : Option PartitionTable)
    {version : ℕ} {bs : List Bytes}
    (hcreate : PartitionTable.create version bs input.ucmp = .ok (input.sliceTable table))
    {records : List Record} {lo hi : Bytes} {pieces : List (List Record)}
    (h : slicePartition input table lo hi records = some pieces)
    (hsorted : records.Pairwise fun a b => KeyRanges.Le input.ucmp.compare a.userKey b.userKey) :
    SplitsByPartition input.ucmp (input.sliceTable table) records pieces := by
  obtain ⟨rfl, hmode, -, hbs⟩ := create_spec hcreate
  rw [slicePartition] at h
  split at h
  · cases h
    rw [upperBounds_eq hmode]
    exact (split_iff hmode hbs (List.Perm.refl records)).mpr (sliceable_of_sorted hmode hbs hsorted)
  · cases h

/-- Where `MaterializePartition` slices, the slices are a split by the partitions of the slice table
exactly when the records, in the order they have then, go through the partitions in order. -/
theorem splitsByPartition_iff (input : MaterializeInput) (table : Option PartitionTable)
    {version : ℕ} {bs : List Bytes}
    (hcreate : PartitionTable.create version bs input.ucmp = .ok (input.sliceTable table))
    (ucmpName : String) (frozen : Option (List Record)) (scanned : List Record) (lo hi : Bytes)
    {pieces : List (List Record)}
    (h : slicePartition input table lo hi (asideRecords ucmpName frozen scanned) = some pieces) :
    SplitsByPartition input.ucmp (input.sliceTable table) (frozen.getD scanned) pieces ↔
      Sliceable input.ucmp (input.sliceTable table) (asideRecords ucmpName frozen scanned) := by
  obtain ⟨rfl, hmode, -, hbs⟩ := create_spec hcreate
  rw [slicePartition] at h
  split at h
  · cases h
    rw [upperBounds_eq hmode]
    exact split_iff hmode hbs (perm_asideRecords frozen scanned)
  · cases h

/-- The epoch was sealed under a hash table; its partitions are cut at the key m. -/
def cutAtM (ucmp : UserComparator) : MaterializeInput :=
  ⟨⟨id, fun _ => false, List.length⟩, ucmp, .cutAt 1 [109],
    fun _ => []⟩

def hashed : PartitionTable := .createHash 0 2 Nat.two_pos

/-- The keys a and z in the order of the writes. -/
def written : List Record :=
  [(makeInternalKey [97] 1 1, [1]), (makeInternalKey [122] 2 1, [2])]

theorem splitsByPartition_iff_written :
    SplitsByPartition .bytewise (cutAtM .bytewise).currentTable written
      [[(makeInternalKey [97] 1 1, [1])], [(makeInternalKey [122] 2 1, [2])]] :=
  (@splitsByPartition_iff (cutAtM .bytewise) (some hashed) 1 [[109]] rfl bytewiseName (some written)
    [] [] [] _ (by decide +kernel)).mpr ⟨by decide +kernel, by decide +kernel⟩

/-- `ReverseBytewiseComparator`. -/
def reverseBytewise : UserComparator :=
  ⟨fun a b => UserComparator.bytewise.compare b a, inferInstance⟩

def reverseBytewiseName : String := "rocksdb.ReverseBytewiseComparator"

theorem not_splitsByPartition_written :
    PartitionTable.create 1 [[109]] reverseBytewise = .ok (cutAtM reverseBytewise).currentTable ∧
      ∃ pieces, slicePartition (cutAtM reverseBytewise) (some hashed) [] []
          (asideRecords reverseBytewiseName none written) = some pieces ∧
        ¬ SplitsByPartition reverseBytewise (cutAtM reverseBytewise).currentTable written pieces := by
  refine ⟨rfl, [written], by decide +kernel, fun h => ?_⟩
  -- one slice holds both keys, which belong to different partitions
  obtain ⟨p, hp, hin⟩ := h.inRange written List.mem_cons_self
  have hbs : Ascending reverseBytewise (cutAtM reverseBytewise).currentTable.boundaries :=
    List.pairwise_singleton _ _
  have hroute : ∀ r ∈ written, (cutAtM reverseBytewise).currentTable.route reverseBytewise
      r.userKey = p := fun r hr => (route_eq_iff rfl hbs hp).mpr (hin r hr)
  have ha := hroute (makeInternalKey [97] 1 1, [1]) (by decide)
  have hz := hroute (makeInternalKey [122] 2 1, [2]) (by decide)
  exact absurd (ha.trans hz.symm) (by decide +kernel)

end partition

end ZeroFlush.SlicedPartitions
