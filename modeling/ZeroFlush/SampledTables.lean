import Mathlib.Data.List.Sort
import ZeroFlush.Quantiles
import ZeroFlush.RoutedRanges

/-! # Tables built from samples

The boundaries are quantiles of the sorted samples. Routing counts a sample to the partition whose
share of the sorted samples it stands in. -/
namespace ZeroFlush.SampledTables
open FixedWidthCodec UserKeys PartitionTables RoutedRanges Quantiles

variable (ucmp : UserComparator)

/-- `std::sort` of the samples. -/
def sortedSamples (samples : List Bytes) : List Bytes :=
  samples.insertionSort fun a b => ucmp.compare a b ≠ .gt

/-- No two samples are the same key. -/
def DistinctKeys (samples : List Bytes) : Prop :=
  samples.Pairwise fun a b => ucmp.compare a b ≠ .eq

instance (samples : List Bytes) : Decidable (DistinctKeys ucmp samples) :=
  inferInstanceAs (Decidable (List.Pairwise _ samples))

variable {ucmp} {samples : List Bytes}

theorem perm_sorted (samples : List Bytes) : (sortedSamples ucmp samples).Perm samples :=
  List.perm_insertionSort _ samples

theorem length_sorted (samples : List Bytes) :
    (sortedSamples ucmp samples).length = samples.length := (perm_sorted samples).length_eq

/-- Distinct samples ascend once they are sorted. -/
theorem ascending_sorted (h : DistinctKeys ucmp samples) :
    Ascending ucmp (sortedSamples ucmp samples) := by
  have htotal : Std.Total (fun a b : Bytes => ucmp.compare a b ≠ .gt) := ⟨KeyRanges.le_total⟩
  have htrans : IsTrans Bytes fun a b => ucmp.compare a b ≠ .gt := ⟨fun _ _ _ => KeyRanges.le_trans⟩
  have hsorted : (sortedSamples ucmp samples).Pairwise fun a b => ucmp.compare a b ≠ .gt :=
    List.pairwise_insertionSort _ samples
  have hdistinct : (sortedSamples ucmp samples).Pairwise fun a b => ucmp.compare a b ≠ .eq := by
    refine ((perm_sorted samples).pairwise_iff ?_).mpr h
    intro a b hne heq
    exact hne (Std.OrientedCmp.eq_symm heq)
  refine (hsorted.and hdistinct).imp ?_
  rintro a b ⟨hle, hne⟩
  rw [KeyRanges.Lt]
  cases hc : ucmp.compare a b with
  | lt => rfl
  | eq => exact absurd hc hne
  | gt => exact absurd hc hle

/-- The order of ascending keys is that of their positions. -/
theorem lt_getElem_iff {l : List Bytes} (hl : Ascending ucmp l) {i j : ℕ} (hi : i < l.length)
    (hj : j < l.length) : KeyRanges.Lt ucmp.compare l[i] l[j] ↔ i < j := by
  have hpair := List.pairwise_iff_getElem.mp hl
  constructor
  · intro hlt
    by_contra hle
    rcases Nat.lt_or_eq_of_le (Nat.le_of_not_lt hle) with hji | heq
    · exact KeyRanges.not_lt.mpr (KeyRanges.le_of_lt (hpair j i hj hi hji)) hlt
    · subst heq
      exact KeyRanges.lt_irrefl _ hlt
  · exact hpair i j hi hj

theorem le_getElem_iff {l : List Bytes} (hl : Ascending ucmp l) {i j : ℕ} (hi : i < l.length)
    (hj : j < l.length) : KeyRanges.Le ucmp.compare l[i] l[j] ↔ i ≤ j := by
  rw [← KeyRanges.not_lt, lt_getElem_iff hl hj hi, Nat.not_lt]

variable {s : KeySampler} {partitions : ℕ}

theorem quantile_in_range (hn : partitions ≤ s.samples.length) {i : ℕ} (hi : i < partitions) :
    quantile s.samples.length partitions i < (sortedSamples ucmp s.samples).length := by
  have hpos : 0 < partitions := by omega
  have hlt := quantile_lt (i := i) hpos hn
  have hle : quantile s.samples.length partitions (i + 1) ≤
      quantile s.samples.length partitions partitions := quantile_mono hi
  rw [quantile_all hpos] at hle
  rw [length_sorted]
  omega

/-- The boundaries are the keys at which the shares of the sorted samples start. -/
theorem buildBoundaries_eq (hparts : 2 ≤ partitions) (hn : partitions ≤ s.samples.length) :
    s.buildBoundaries ucmp partitions = some ((List.range (partitions - 1)).map fun i =>
      (sortedSamples ucmp s.samples).getD (quantile s.samples.length partitions (i + 1)) []) := by
  rw [KeySampler.buildBoundaries, if_neg (by omega), if_neg (by omega)]
  dsimp only
  rw [List.length_insertionSort]
  rfl

variable {bs : List Bytes}

theorem length_boundaries (hparts : 2 ≤ partitions) (hn : partitions ≤ s.samples.length)
    (h : s.buildBoundaries ucmp partitions = some bs) : bs.length = partitions - 1 := by
  rw [buildBoundaries_eq hparts hn] at h
  cases h
  rw [List.length_map, List.length_range]

theorem getElem?_boundaries (hparts : 2 ≤ partitions) (hn : partitions ≤ s.samples.length)
    (h : s.buildBoundaries ucmp partitions = some bs) {i : ℕ} (hi : i < partitions - 1) :
    bs[i]? = (sortedSamples ucmp s.samples)[quantile s.samples.length partitions (i + 1)]? := by
  rw [buildBoundaries_eq hparts hn] at h
  cases h
  have hrange : quantile s.samples.length partitions (i + 1) <
      (sortedSamples ucmp s.samples).length := quantile_in_range hn (by omega)
  rw [List.getElem?_map, List.getElem?_range hi, Option.map_some, List.getD_eq_getElem?_getD,
    List.getElem?_eq_getElem hrange, Option.getD_some]

/-- Different quantiles of distinct samples. -/
theorem ascending_boundaries (hparts : 2 ≤ partitions) (hn : partitions ≤ s.samples.length)
    (hdistinct : DistinctKeys ucmp s.samples) (h : s.buildBoundaries ucmp partitions = some bs) :
    Ascending ucmp bs := by
  refine List.pairwise_iff_getElem.mpr fun i j hi hj hij => ?_
  have hlen := length_boundaries hparts hn h
  have hsorted := ascending_sorted hdistinct
  have hat : ∀ k, ∀ hk : k < bs.length,
      ∃ hq : quantile s.samples.length partitions (k + 1) < (sortedSamples ucmp s.samples).length,
        bs[k] = (sortedSamples ucmp s.samples)[quantile s.samples.length partitions (k + 1)] := by
    intro k hk
    have hq : quantile s.samples.length partitions (k + 1) <
        (sortedSamples ucmp s.samples).length := quantile_in_range hn (by omega)
    refine ⟨hq, ?_⟩
    have hget := getElem?_boundaries hparts hn h (show k < partitions - 1 by omega)
    rw [List.getElem?_eq_getElem hk, List.getElem?_eq_getElem hq] at hget
    exact Option.some.inj hget
  obtain ⟨hqi, heqi⟩ := hat i hi
  obtain ⟨hqj, heqj⟩ := hat j hj
  rw [heqi, heqj, lt_getElem_iff hsorted hqi hqj]
  calc quantile s.samples.length partitions (i + 1)
      < quantile s.samples.length partitions (i + 1 + 1) := quantile_lt (by omega) hn
    _ ≤ quantile s.samples.length partitions (j + 1) := quantile_mono (by omega)

/-- A sample is routed to the partition whose share it stands in. -/
theorem route_sorted (hparts : 2 ≤ partitions) (hn : partitions ≤ s.samples.length)
    (hdistinct : DistinctKeys ucmp s.samples) (h : s.buildBoundaries ucmp partitions = some bs)
    {version : ℕ} {t : PartitionTable} (ht : PartitionTable.create version bs ucmp = .ok t) {p j : ℕ}
    (hp : p < partitions) (hj : j < (sortedSamples ucmp s.samples).length) :
    t.route ucmp ((sortedSamples ucmp s.samples)[j]) = p ↔
      quantile s.samples.length partitions p ≤ j ∧
        j < quantile s.samples.length partitions (p + 1) := by
  obtain ⟨hbounds, hmode, hcount, hasc⟩ := create_spec ht
  have hlen := length_boundaries hparts hn h
  have hsorted := ascending_sorted hdistinct
  rw [route_eq_iff hmode (hbounds.symm ▸ hasc) (by omega), lowerEnd, upperEnd, hbounds]
  have hlower : (∀ b ∈ (if p = 0 then none else bs[p - 1]?),
      KeyRanges.Le ucmp.compare b ((sortedSamples ucmp s.samples)[j])) ↔
        quantile s.samples.length partitions p ≤ j := by
    split
    next hzero =>
      subst hzero
      rw [quantile_zero]
      exact iff_of_true (fun b hb => absurd hb (by simp)) (Nat.zero_le j)
    next hpos =>
      have hq : quantile s.samples.length partitions p < (sortedSamples ucmp s.samples).length :=
        quantile_in_range hn hp
      have hget := getElem?_boundaries hparts hn h (show p - 1 < partitions - 1 by omega)
      rw [Nat.sub_add_cancel (Nat.pos_of_ne_zero hpos), List.getElem?_eq_getElem hq] at hget
      rw [hget, ← le_getElem_iff hsorted hq hj]
      simp
  have hupper : (∀ b ∈ bs[p]?, KeyRanges.Lt ucmp.compare ((sortedSamples ucmp s.samples)[j]) b) ↔
      j < quantile s.samples.length partitions (p + 1) := by
    by_cases hlast : p < partitions - 1
    · have hq : quantile s.samples.length partitions (p + 1) <
          (sortedSamples ucmp s.samples).length := quantile_in_range hn (by omega)
      rw [getElem?_boundaries hparts hn h hlast, List.getElem?_eq_getElem hq,
        ← lt_getElem_iff hsorted hj hq]
      simp
    · -- the last partition has no upper end
      have hend : p + 1 = partitions := by omega
      rw [List.getElem?_eq_none (by omega), hend, quantile_all (by omega)]
      rw [length_sorted] at hj
      exact iff_of_true (fun b hb => absurd hb (by simp)) hj
  rw [hlower, hupper]

/-- The boundaries learned from distinct samples split them into shares of equal depth. -/
theorem buildBoundaries_equiDepth (ucmp : UserComparator) (s : KeySampler) (version : ℕ)
    {partitions : ℕ} (hparts : 2 ≤ partitions) (hn : partitions ≤ s.samples.length)
    (hdistinct : DistinctKeys ucmp s.samples) :
    ∃ bs t, s.buildBoundaries ucmp partitions = some bs ∧ bs.length = partitions - 1 ∧
      (∀ i, i < partitions - 1 →
        (i + 1) * s.samples.length / partitions < s.samples.length ∧
          bs[i]? = (sortedSamples ucmp s.samples)[(i + 1) * s.samples.length / partitions]?) ∧
      Ascending ucmp bs ∧ PartitionTable.create version bs ucmp = .ok t ∧
      t.partitions = partitions ∧ ∀ p, p < partitions →
        s.samples.countP (fun k => t.route ucmp k == p) = s.samples.length / partitions ∨
          s.samples.countP (fun k => t.route ucmp k == p) =
            (s.samples.length + partitions - 1) / partitions := by
  have hpos : 0 < partitions := by omega
  obtain ⟨bs, h⟩ : ∃ bs, s.buildBoundaries ucmp partitions = some bs :=
    ⟨_, buildBoundaries_eq hparts hn⟩
  have hlen := length_boundaries hparts hn h
  have hasc := ascending_boundaries hparts hn hdistinct h
  obtain ⟨t, ht⟩ : ∃ t, PartitionTable.create version bs ucmp = .ok t := by
    rw [PartitionTable.create, checkBoundaries_iff.mpr hasc]
    exact ⟨_, rfl⟩
  obtain ⟨-, -, hcount, -⟩ := create_spec ht
  refine ⟨bs, t, h, hlen, ?_, hasc, ht, by omega, fun p hp => ?_⟩
  · intro i hi
    have hrange : quantile s.samples.length partitions (i + 1) <
        (sortedSamples ucmp s.samples).length := quantile_in_range hn (by omega)
    rw [length_sorted] at hrange
    exact ⟨hrange, getElem?_boundaries hparts hn h hi⟩
  · have hwidth := quantile_succ (n := s.samples.length) (i := p) hpos
    have hle : quantile s.samples.length partitions p ≤
        quantile s.samples.length partitions (p + 1) := quantile_mono (Nat.le_succ p)
    have hend : quantile s.samples.length partitions (p + 1) ≤
        (sortedSamples ucmp s.samples).length := by
      have hall : quantile s.samples.length partitions (p + 1) ≤
          quantile s.samples.length partitions partitions := quantile_mono hp
      rw [quantile_all hpos] at hall
      rw [length_sorted]
      exact hall
    rw [← (perm_sorted s.samples).countP_eq, countP_positions hle hend]
    · omega
    · intro j hj
      rw [beq_iff_eq]
      exact route_sorted hparts hn hdistinct h ht hp hj

def fiveSamples : KeySampler := ⟨1, [[5], [1], [3], [2], [4]], 5⟩

/-- Five samples in two partitions. -/
theorem buildBoundaries_fiveSamples : ∃ bs t,
    fiveSamples.buildBoundaries .bytewise 2 = some bs ∧
      PartitionTable.create 1 bs .bytewise = .ok t ∧ t.partitions = 2 ∧ ∀ p, p < 2 →
        fiveSamples.samples.countP (fun k => t.route .bytewise k == p) = 2 ∨
          fiveSamples.samples.countP (fun k => t.route .bytewise k == p) = 3 := by
  obtain ⟨bs, t, h, -, -, -, ht, hcount, hshares⟩ :=
    @buildBoundaries_equiDepth .bytewise fiveSamples 1 2 (by decide) (by decide) (by decide)
  exact ⟨bs, t, h, ht, hcount, hshares⟩

end ZeroFlush.SampledTables
