import ZeroFlush.KeyRanges
import ZeroFlush.PartitionTables

/-! # The ranges behind the routing of a table

A partition of a range table holds the keys from its lower end up to, not including, its upper
end; the first partition has no lower end and the last one no upper end. -/
namespace ZeroFlush.RoutedRanges
open FixedWidthCodec UserKeys WalFormat PartitionTables

/-- The boundaries ascend under the comparator. -/
def Ascending (ucmp : UserComparator) (bs : List Bytes) : Prop :=
  bs.Pairwise (KeyRanges.Lt ucmp.compare)

instance (ucmp : UserComparator) (bs : List Bytes) : Decidable (Ascending ucmp bs) :=
  inferInstanceAs (Decidable (List.Pairwise _ bs))

def lowerEnd (t : PartitionTable) (p : ℕ) : Option Bytes :=
  if p = 0 then none else t.boundaries[p - 1]?

def upperEnd (t : PartitionTable) (p : ℕ) : Option Bytes := t.boundaries[p]?

/-- Some key between the ends of `[smallest, largest]` belongs to the partition. -/
def MeetsPartition (ucmp : UserComparator) (t : PartitionTable) (p : ℕ) (smallest largest : Bytes) :
    Prop :=
  ∃ k, KeyRanges.Le ucmp.compare smallest k ∧ KeyRanges.Le ucmp.compare k largest ∧
    t.route ucmp k = p

/-- Every key between the ends of `[smallest, largest]` belongs to the partition. -/
def InPartition (ucmp : UserComparator) (t : PartitionTable) (p : ℕ) (smallest largest : Bytes) :
    Prop :=
  ∀ k, KeyRanges.Le ucmp.compare smallest k → KeyRanges.Le ucmp.compare k largest →
    t.route ucmp k = p

variable {ucmp : UserComparator}

theorem lt_trans {a b c : Bytes} (hab : KeyRanges.Lt ucmp.compare a b)
    (hbc : KeyRanges.Lt ucmp.compare b c) : KeyRanges.Lt ucmp.compare a c :=
  KeyRanges.lt_of_lt_of_le hab (KeyRanges.le_of_lt hbc)

/-- `Create` accepts exactly the ascending boundaries. -/
theorem checkBoundaries_iff {bs : List Bytes} :
    checkBoundaries ucmp bs = .ok () ↔ Ascending ucmp bs := by
  induction bs with
  | nil => exact iff_of_true rfl List.Pairwise.nil
  | cons a bs ih =>
    cases bs with
    | nil => exact iff_of_true rfl (List.pairwise_singleton _ a)
    | cons b rest =>
      rw [checkBoundaries]
      cases hc : ucmp.compare a b with
      | lt =>
        dsimp only
        rw [ih, Ascending, Ascending, @List.pairwise_cons _ _ a]
        refine ⟨fun h => ⟨fun c hcmem => ?_, h⟩, fun h => h.2⟩
        obtain rfl | hrest := List.mem_cons.mp hcmem
        · exact hc
        · exact lt_trans hc (List.rel_of_pairwise_cons h hrest)
      | eq =>
        refine iff_of_false (by simp) fun h => ?_
        have hlt : ucmp.compare a b = .lt := List.rel_of_pairwise_cons h List.mem_cons_self
        rw [hc] at hlt
        cases hlt
      | gt =>
        refine iff_of_false (by simp) fun h => ?_
        have hlt : ucmp.compare a b = .lt := List.rel_of_pairwise_cons h List.mem_cons_self
        rw [hc] at hlt
        cases hlt

theorem create_spec {version : ℕ} {bs : List Bytes} {t : PartitionTable}
    (h : PartitionTable.create version bs ucmp = .ok t) :
    t.boundaries = bs ∧ t.isHashMode = false ∧ t.partitions = bs.length + 1 ∧ Ascending ucmp bs := by
  rw [PartitionTable.create] at h
  cases hc : checkBoundaries ucmp bs with
  | error e =>
    rw [hc] at h
    cases h
  | ok u =>
    rw [hc] at h
    cases h
    exact ⟨rfl, rfl, rfl, checkBoundaries_iff.mp hc⟩

/-- The upper bound of a key among ascending boundaries, by its neighbours. -/
theorem findIdx_eq_iff {bs : List Bytes} (hbs : Ascending ucmp bs) {k : Bytes} {p : ℕ}
    (hp : p ≤ bs.length) :
    bs.findIdx (fun b => ucmp.compare k b == .lt) = p ↔
      (∀ b ∈ (if p = 0 then none else bs[p - 1]?), KeyRanges.Le ucmp.compare b k) ∧
        ∀ b ∈ bs[p]?, KeyRanges.Lt ucmp.compare k b := by
  induction bs generalizing p with
  | nil =>
    cases Nat.le_zero.mp hp
    simp
  | cons a bs ih =>
    obtain ⟨ha, hrest⟩ := List.pairwise_cons.mp hbs
    rw [List.findIdx_cons]
    cases hk : (ucmp.compare k a == Ordering.lt) with
    | true =>
      have hka : KeyRanges.Lt ucmp.compare k a := beq_iff_eq.mp hk
      cases p with
      | zero => simpa using hka
      | succ p =>
        refine iff_of_false (by simp) fun h => ?_
        -- the boundary below the partition is not below `a`, which is above the key
        have hp' : p < (a :: bs).length := hp
        have hle := h.1 ((a :: bs)[p]) (by simp [List.getElem?_eq_getElem hp'])
        have hcontra : KeyRanges.Le ucmp.compare a ((a :: bs)[p]) := by
          obtain heq | hmem := List.mem_cons.mp (List.getElem_mem hp')
          · rw [heq]
            exact KeyRanges.le_refl a
          · exact KeyRanges.le_of_lt (ha _ hmem)
        exact KeyRanges.not_lt.mpr (KeyRanges.le_trans hcontra hle) hka
    | false =>
      have hak : KeyRanges.Le ucmp.compare a k := KeyRanges.not_lt.mp (by simpa [KeyRanges.Lt] using hk)
      cases p with
      | zero =>
        refine iff_of_false (by simp) fun h => ?_
        exact KeyRanges.not_lt.mpr hak (h.2 a (by simp))
      | succ p =>
        have hp' : p ≤ bs.length := by simpa using hp
        have hih := ih hrest hp'
        simp only [Bool.cond_false, Nat.add_right_cancel_iff, hih]
        cases p with
        | zero => simp [hak]
        | succ p => simp

variable {t : PartitionTable} {p : ℕ}

/-- The keys that a range table routes to a partition. -/
theorem route_eq_iff (hmode : t.isHashMode = false) (hbs : Ascending ucmp t.boundaries)
    (hp : p < t.partitions) {k : Bytes} :
    t.route ucmp k = p ↔ (∀ b ∈ lowerEnd t p, KeyRanges.Le ucmp.compare b k) ∧
      ∀ b ∈ upperEnd t p, KeyRanges.Lt ucmp.compare k b := by
  rw [PartitionTable.route, hmode, if_neg Bool.false_ne_true, lowerEnd, upperEnd]
  refine findIdx_eq_iff hbs ?_
  rw [t.partitions_eq hmode] at hp
  omega

/-- Keys on the same side of every boundary are routed alike. -/
theorem route_congr (hmode : t.isHashMode = false) {k k' : Bytes}
    (h : ∀ b ∈ t.boundaries, KeyRanges.Lt ucmp.compare k b ↔ KeyRanges.Lt ucmp.compare k' b) :
    t.route ucmp k = t.route ucmp k' := by
  rw [PartitionTable.route, PartitionTable.route, hmode, if_neg Bool.false_ne_true,
    if_neg Bool.false_ne_true]
  apply Nat.le_antisymm
  · exact List.findIdx_le_findIdx fun b hb hk' => beq_iff_eq.mpr ((h b hb).mpr (beq_iff_eq.mp hk'))
  · exact List.findIdx_le_findIdx fun b hb hk => beq_iff_eq.mpr ((h b hb).mp (beq_iff_eq.mp hk))

/-- No boundary separates the keys of a partition. -/
theorem lt_of_route_eq (hmode : t.isHashMode = false) (hbs : Ascending ucmp t.boundaries)
    {k k' b : Bytes} (hroute : t.route ucmp k = t.route ucmp k') (hb : b ∈ t.boundaries)
    (hk : KeyRanges.Lt ucmp.compare k b) : KeyRanges.Lt ucmp.compare k' b := by
  obtain ⟨i, hi, rfl⟩ := List.mem_iff_getElem.mp hb
  obtain ⟨-, hk'⟩ := (route_eq_iff hmode hbs (t.route_lt ucmp k)).mp hroute.symm
  have hle : t.route ucmp k ≤ i := by
    rw [PartitionTable.route, hmode, if_neg Bool.false_ne_true]
    by_contra hlt
    have hnot := List.not_of_lt_findIdx (Nat.lt_of_not_le hlt)
    exact absurd (beq_iff_eq.mpr hk) (by simpa using hnot)
  have hlen : t.route ucmp k < t.boundaries.length := lt_of_le_of_lt hle hi
  have hfirst := hk' _ (List.getElem?_eq_getElem hlen)
  obtain heq | hlt := Nat.eq_or_lt_of_le hle
  · simpa only [heq] using hfirst
  · exact lt_trans hfirst (List.pairwise_iff_getElem.mp hbs _ _ hlen hi hlt)

/-- `RangeOf` reports an open end as an empty slice. -/
theorem rangeOf_eq : t.rangeOf p = ((lowerEnd t p).getD [], (upperEnd t p).getD []) := by
  rw [PartitionTable.rangeOf, lowerEnd, upperEnd]
  refine Prod.ext ?_ ?_
  · dsimp only
    split
    · rfl
    · rw [List.getD_eq_getElem?_getD]
  · dsimp only
    split
    next h => rw [List.getElem?_eq_none h, Option.getD_none]
    next => rw [List.getD_eq_getElem?_getD]

/-- The ends of a partition are apart. -/
theorem ends_lt (hbs : Ascending ucmp t.boundaries) {lo hi : Bytes} (hlo : lo ∈ lowerEnd t p)
    (hhi : hi ∈ upperEnd t p) : KeyRanges.Lt ucmp.compare lo hi := by
  rw [lowerEnd] at hlo
  split at hlo
  · cases hlo
  next hp =>
    obtain ⟨hi₁, rfl⟩ := List.getElem?_eq_some_iff.mp hlo
    obtain ⟨hi₂, rfl⟩ := List.getElem?_eq_some_iff.mp hhi
    exact List.pairwise_iff_getElem.mp hbs (p - 1) p hi₁ hi₂ (by omega)

/-- A closed range meets a partition by its two ends. -/
theorem meetsPartition_iff (hmode : t.isHashMode = false) (hbs : Ascending ucmp t.boundaries)
    (hp : p < t.partitions) {smallest largest : Bytes}
    (hle : KeyRanges.Le ucmp.compare smallest largest) :
    MeetsPartition ucmp t p smallest largest ↔
      (∀ b ∈ lowerEnd t p, KeyRanges.Le ucmp.compare b largest) ∧
        ∀ b ∈ upperEnd t p, KeyRanges.Lt ucmp.compare smallest b := by
  constructor
  · rintro ⟨k, hsmall, hlarge, hroute⟩
    obtain ⟨hlo, hhi⟩ := (route_eq_iff hmode hbs hp).mp hroute
    exact ⟨fun b hb => KeyRanges.le_trans (hlo b hb) hlarge,
      fun b hb => KeyRanges.lt_of_le_of_lt hsmall (hhi b hb)⟩
  · rintro ⟨hlo, hhi⟩
    -- the larger one of the two lower ends is a common key
    cases hl : lowerEnd t p with
    | none =>
      refine ⟨smallest, KeyRanges.le_refl _, hle, (route_eq_iff hmode hbs hp).mpr ⟨?_, hhi⟩⟩
      rw [hl]
      exact fun b hb => absurd hb (Option.not_mem_none b)
    | some lo =>
      have hlarge : KeyRanges.Le ucmp.compare lo largest := hlo lo hl
      obtain h | h := @KeyRanges.le_total _ ucmp.compare _ lo smallest
      · refine ⟨smallest, KeyRanges.le_refl _, hle, (route_eq_iff hmode hbs hp).mpr ⟨?_, hhi⟩⟩
        rw [hl]
        rintro b ⟨⟩
        exact h
      · refine ⟨lo, h, hlarge, (route_eq_iff hmode hbs hp).mpr ⟨?_, ?_⟩⟩
        · rw [hl]
          rintro b ⟨⟩
          exact KeyRanges.le_refl lo
        · exact fun b hb => ends_lt hbs hl hb

section reported

/-- The key lies in a range whose ends are open where the slice is empty. -/
def InReported (ucmp : UserComparator) (range : Bytes × Bytes) (k : Bytes) : Prop :=
  (range.1 = [] ∨ KeyRanges.Le ucmp.compare range.1 k) ∧
    (range.2 = [] ∨ KeyRanges.Lt ucmp.compare k range.2)

/-- The key lies in the range of the partition it is routed to, and in no other one. -/
def RoutesUniquely (ucmp : UserComparator) (t : PartitionTable) (k : Bytes) : Prop :=
  t.route ucmp k < t.partitions ∧ InReported ucmp (t.rangeOf (t.route ucmp k)) k ∧
    ∀ q < t.partitions, InReported ucmp (t.rangeOf q) k → q = t.route ucmp k

theorem getD_eq_nil_or {P : Bytes → Prop} {o : Option Bytes} (h : ∀ b ∈ o, P b) :
    o.getD [] = [] ∨ P (o.getD []) := by
  cases o with
  | none => exact .inl rfl
  | some b => exact .inr (h b rfl)

theorem forall_mem_of_getD {P : Bytes → Prop} {o : Option Bytes} (hne : [] ∉ o)
    (h : o.getD [] = [] ∨ P (o.getD [])) : ∀ b ∈ o, P b := by
  rintro b ⟨⟩
  obtain hnil | hb := h
  · exact absurd (congrArg some hnil) hne
  · exact hb

/-- The ends that are reported never leave out a key of the partition. -/
theorem inReported_route (hmode : t.isHashMode = false) (hbs : Ascending ucmp t.boundaries)
    (k : Bytes) : InReported ucmp (t.rangeOf (t.route ucmp k)) k := by
  obtain ⟨hlo, hhi⟩ := (route_eq_iff hmode hbs (t.route_lt ucmp k)).mp rfl
  rw [rangeOf_eq]
  exact ⟨getD_eq_nil_or hlo, getD_eq_nil_or hhi⟩

theorem mem_of_lowerEnd {b : Bytes} (h : b ∈ lowerEnd t p) : b ∈ t.boundaries := by
  rw [lowerEnd] at h
  split at h
  · cases h
  · exact List.mem_of_getElem? h

/-- Without an empty boundary a reported end is open only where the partition is. -/
theorem route_eq_of_inReported (hmode : t.isHashMode = false) (hbs : Ascending ucmp t.boundaries)
    (hne : [] ∉ t.boundaries) (hp : p < t.partitions) {k : Bytes}
    (h : InReported ucmp (t.rangeOf p) k) : t.route ucmp k = p := by
  rw [rangeOf_eq] at h
  refine (route_eq_iff hmode hbs hp).mpr ⟨?_, ?_⟩
  · exact forall_mem_of_getD (fun hmem => hne (mem_of_lowerEnd hmem)) h.1
  · exact forall_mem_of_getD (fun hmem => hne (List.mem_of_getElem? hmem)) h.2

/-- An empty boundary opens the partitions on both of its sides. -/
theorem exists_two_inReported (hmode : t.isHashMode = false) (hbs : Ascending ucmp t.boundaries)
    (hmem : [] ∈ t.boundaries) (k : Bytes) :
    ∃ q < t.partitions, InReported ucmp (t.rangeOf q) k ∧ q ≠ t.route ucmp k := by
  obtain ⟨i, hi, hnil⟩ := List.mem_iff_getElem.mp hmem
  have hparts := t.partitions_eq hmode
  have hupper : upperEnd t i = some [] := by
    rw [upperEnd, List.getElem?_eq_getElem hi, hnil]
  have hlower : lowerEnd t (i + 1) = some [] := by
    rw [lowerEnd, if_neg (Nat.succ_ne_zero i), Nat.add_sub_cancel, List.getElem?_eq_getElem hi, hnil]
  have hroute := (route_eq_iff hmode hbs (t.route_lt ucmp k)).mp rfl
  by_cases hk : KeyRanges.Lt ucmp.compare k []
  -- a key below it also lies in the partition above
  · refine ⟨i + 1, by omega, ?_, ?_⟩
    · rw [rangeOf_eq, hlower]
      refine ⟨.inl rfl, getD_eq_nil_or fun b hb => ?_⟩
      exact lt_trans hk (ends_lt hbs hlower hb)
    · intro heq
      rw [← heq] at hroute
      exact KeyRanges.not_lt.mpr (hroute.1 [] hlower) hk
  -- and a key that is not below it in the partition below
  · have hle := KeyRanges.not_lt.mp hk
    refine ⟨i, by omega, ?_, ?_⟩
    · rw [rangeOf_eq, hupper]
      refine ⟨@getD_eq_nil_or (fun b => KeyRanges.Le ucmp.compare b k) _ fun b hb => ?_, .inl rfl⟩
      exact KeyRanges.le_trans (KeyRanges.le_of_lt (ends_lt hbs hb hupper)) hle
    · intro heq
      rw [← heq] at hroute
      exact hk (hroute.2 [] hupper)

/-- `Route` and `RangeOf` describe one partition of the keys if no boundary is empty, and for no key at
all if one is. -/
theorem routesUniquely_iff {version : ℕ} {bs : List Bytes}
    (h : PartitionTable.create version bs ucmp = .ok t) (k : Bytes) :
    RoutesUniquely ucmp t k ↔ [] ∉ bs := by
  obtain ⟨rfl, hmode, -, hbs⟩ := create_spec h
  constructor
  · rintro ⟨-, -, hunique⟩ hmem
    obtain ⟨q, hq, hin, hne⟩ := exists_two_inReported hmode hbs hmem k
    exact hne (hunique q hq hin)
  · intro hne
    exact ⟨t.route_lt ucmp k, inReported_route hmode hbs k,
      fun q hq hin => (route_eq_of_inReported hmode hbs hne hq hin).symm⟩

/-- One boundary, the empty key. -/
def emptyBoundary : PartitionTable := .cutAt 0 []

theorem not_routesUniquely_emptyBoundary :
    PartitionTable.create 0 [[]] .bytewise = .ok emptyBoundary ∧
      ¬ RoutesUniquely .bytewise emptyBoundary [97] := by
  refine ⟨rfl, fun h => ?_⟩
  -- the key is routed to partition 1 and reported for partition 0 too
  exact absurd (h.2.2 0 (by decide) ⟨.inl rfl, .inl rfl⟩) (by decide +kernel)

def oneBoundary : PartitionTable := .cutAt 0 [99]

theorem routesUniquely_iff_oneBoundary : RoutesUniquely .bytewise oneBoundary [97] :=
  (@routesUniquely_iff .bytewise oneBoundary 0 [[99]] rfl [97]).mpr (by decide)

end reported

end ZeroFlush.RoutedRanges
