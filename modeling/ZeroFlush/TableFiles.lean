import Mathlib.Data.List.Sort
import ZeroFlush.KeyRanges
import ZeroFlush.UserKeys
import ZeroFlush.WalFormat

/-! # Table files, versions and running compactions

A version is what the engine has installed: the files of every level. The compaction picker knows
the compactions in progress; the files they read are marked as being compacted. -/
namespace ZeroFlush.TableFiles
open FixedWidthCodec UserKeys WalFormat

/-- An internal key of a table. -/
structure TableEntry where
  userKey : Bytes
  seq : ℕ
  type : UInt8
  deriving DecidableEq, Repr

structure FileMetaData where
  number : ℕ
  fileSize : ℕ
  epochNumber : ℕ
  smallest : Bytes
  largest : Bytes
  entries : List TableEntry
  deriving DecidableEq, Repr

/-- The storage info of a version; level 0 is never the base level. -/
structure Version where
  numLevels : ℕ
  baseLevel : ℕ
  files : ℕ → List FileMetaData
  baseLevel_pos : 0 < baseLevel
  baseLevel_lt : baseLevel < numLevels

/-- `proximalRange`: the second output range of a compaction with placement by key. -/
structure Compaction where
  outputLevel : ℕ
  smallest : Bytes
  largest : Bytes
  proximalRange : Option (Bytes × Bytes) := none
  deriving DecidableEq, Repr

structure CompactionPicker where
  compactionsInProgress : List Compaction := []
  beingCompacted : List ℕ := []
  deriving DecidableEq, Repr

section Ranges

variable (ucmp : UserComparator)

/-- The user key ranges `[smallest, largest]` meet. -/
def meets (lo hi lo' hi' : Bytes) : Bool := KeyRanges.meets ucmp.compare lo hi lo' hi'

/-- `RangeOverlapWithCompaction`. -/
def rangeOverlapWithCompaction (running : List Compaction) (smallest largest : Bytes)
    (level : ℕ) : Bool :=
  running.any fun c =>
    (c.outputLevel == level && meets ucmp smallest largest c.smallest c.largest) ||
      c.proximalRange.any fun r => meets ucmp smallest largest r.1 r.2

/-- `OverlapInLevel`: some file of the level meets the range. -/
def overlapInLevel (v : Version) (level : ℕ) (smallest largest : Bytes) : Bool :=
  (v.files level).any fun f => meets ucmp smallest largest f.smallest f.largest

/-- `GetBoundaryKeys`: every file counts on level 0; elsewhere the first and the last one do. -/
def boundaryKeys (l0 inputs : List FileMetaData) : Option (Bytes × Bytes) :=
  let l0Range := (l0.map fun f => (f.smallest, f.largest)).foldl (KeyRanges.widen ucmp.compare) none
  match inputs.head?, inputs.getLast? with
  | some first, some last => KeyRanges.widen ucmp.compare l0Range (first.smallest, last.largest)
  | _, _ => l0Range

/-- The order of internal keys: user keys ascending, then sequence numbers and types descending. -/
def internalLe (a b : TableEntry) : Bool :=
  match ucmp.compare a.userKey b.userKey with
  | .lt => true
  | .gt => false
  | .eq => b.seq < a.seq || (b.seq == a.seq && b.type ≤ a.type)

end Ranges

/-- No key of one file is in the range of the other. -/
def Apart (ucmp : UserComparator) (f g : FileMetaData) : Prop :=
  meets ucmp f.smallest f.largest g.smallest g.largest = false

instance (ucmp : UserComparator) (f g : FileMetaData) : Decidable (Apart ucmp f g) :=
  inferInstanceAs (Decidable (_ = _))

/-- What the engine maintains for every version: numbers name files, the files of the base level
are sorted and disjoint, and a file's range holds its keys. -/
structure Version.WellFormed (ucmp : UserComparator) (v : Version) : Prop where
  number_inj : ∀ l l' f g, f ∈ v.files l → g ∈ v.files l' → f.number = g.number → l = l' ∧ f = g
  sorted : (v.files v.baseLevel).Pairwise fun f g => ucmp.compare f.largest g.smallest = .lt
  ordered : ∀ l, ∀ f ∈ v.files l, KeyRanges.Le ucmp.compare f.smallest f.largest
  keys : ∀ l, ∀ f ∈ v.files l, ∀ e ∈ f.entries, KeyRanges.Le ucmp.compare f.smallest e.userKey ∧
    KeyRanges.Le ucmp.compare e.userKey f.largest

/-- The files of all levels with their levels. -/
def Version.allFiles (v : Version) : List (ℕ × FileMetaData) :=
  (List.range v.numLevels).flatMap fun l => (v.files l).map fun f => (l, f)

variable {ucmp : UserComparator}

/-- A version is checked by going over its levels. -/
theorem Version.wellFormed_of_forall {v : Version} (hnone : ∀ l, v.numLevels ≤ l → v.files l = [])
    (hnumbers : (v.allFiles.map fun p => p.2.number).Nodup)
    (hsorted : (v.files v.baseLevel).Pairwise fun f g => ucmp.compare f.largest g.smallest = .lt)
    (hkeys : ∀ p ∈ v.allFiles, KeyRanges.Le ucmp.compare p.2.smallest p.2.largest ∧
      ∀ e ∈ p.2.entries, KeyRanges.Le ucmp.compare p.2.smallest e.userKey ∧
        KeyRanges.Le ucmp.compare e.userKey p.2.largest) : v.WellFormed ucmp := by
  have hmem : ∀ l f, f ∈ v.files l → (l, f) ∈ v.allFiles := by
    intro l f hf
    refine List.mem_flatMap.mpr ⟨l, List.mem_range.mpr ?_, List.mem_map_of_mem hf⟩
    by_contra hl
    rw [hnone l (not_lt.mp hl)] at hf
    exact absurd hf List.not_mem_nil
  refine ⟨?_, hsorted, fun l f hf => (hkeys _ (hmem l f hf)).1,
    fun l f hf => (hkeys _ (hmem l f hf)).2⟩
  intro l l' f g hf hg heq
  have hpair : ((l, f) : ℕ × FileMetaData) = (l', g) :=
    List.inj_on_of_nodup_map hnumbers (hmem l f hf) (hmem l' g hg) heq
  exact ⟨congrArg Prod.fst hpair, congrArg Prod.snd hpair⟩

theorem apart_comm {f g : FileMetaData} : Apart ucmp f g ↔ Apart ucmp g f := by
  rw [Apart, Apart, meets, meets, KeyRanges.meets_comm]

/-- The hull of a merge's inputs holds the range of each of them. -/
theorem boundaryKeys_covers {l0 inputs : List FileMetaData}
    (hsorted : inputs.Pairwise fun f g => ucmp.compare f.largest g.smallest = .lt)
    (hle : ∀ f ∈ inputs, KeyRanges.Le ucmp.compare f.smallest f.largest) {f : FileMetaData}
    (hf : f ∈ l0 ∨ f ∈ inputs) :
    ∃ r, boundaryKeys ucmp l0 inputs = some r ∧
      KeyRanges.Covers ucmp.compare r (f.smallest, f.largest) := by
  set l0Range := (l0.map fun f => (f.smallest, f.largest)).foldl (KeyRanges.widen ucmp.compare) none
    with hl0Range
  have hl0 : f ∈ l0 → ∃ r ∈ l0Range, KeyRanges.Covers ucmp.compare r (f.smallest, f.largest) :=
    fun h => (KeyRanges.foldl_widen_covers _ none).1 _ (List.mem_map_of_mem h)
  cases hhead : inputs.head? with
  | none =>
    have hnil : inputs = [] := List.head?_eq_none_iff.mp hhead
    obtain h | h := hf
    · obtain ⟨r, hr, hcov⟩ := hl0 h
      refine ⟨r, ?_, hcov⟩
      rw [boundaryKeys, hhead]
      exact hr
    · rw [hnil] at h
      exact absurd h List.not_mem_nil
  | some first =>
    obtain ⟨last, hlast⟩ : ∃ last, inputs.getLast? = some last := by
      rw [← Option.ne_none_iff_exists', Ne, List.getLast?_eq_none_iff]
      rintro rfl
      cases hhead
    obtain ⟨w, hw, hends, hold⟩ := @KeyRanges.widen_covers _ ucmp.compare _ l0Range
      (first.smallest, last.largest)
    refine ⟨w, ?_, ?_⟩
    · rw [boundaryKeys, hhead, hlast]
      exact hw
    · obtain h | h := hf
      · obtain ⟨r, hr, hcov⟩ := hl0 h
        exact (hold r hr).trans hcov
      · obtain ⟨hsmall, hlarge⟩ := KeyRanges.pairwise_ends hsorted hhead hlast h
        refine hends.trans ⟨?_, ?_⟩
        · obtain rfl | hlt := hsmall
          · exact KeyRanges.le_refl _
          · exact KeyRanges.le_trans (hle first (List.mem_of_mem_head? hhead))
              (KeyRanges.le_of_lt hlt)
        · obtain rfl | hlt := hlarge
          · exact KeyRanges.le_refl _
          · exact KeyRanges.le_trans (KeyRanges.le_of_lt hlt)
              (hle last (List.mem_of_getLast? hlast))

theorem internalLe_iff {a b : TableEntry} : internalLe ucmp a b = true ↔
    ucmp.compare a.userKey b.userKey = .lt ∨ ucmp.compare a.userKey b.userKey = .eq ∧
      (b.seq < a.seq ∨ b.seq = a.seq ∧ b.type ≤ a.type) := by
  rw [internalLe]
  cases ucmp.compare a.userKey b.userKey <;> simp

theorem le_of_internalLe {a b : TableEntry} (h : internalLe ucmp a b = true) :
    KeyRanges.Le ucmp.compare a.userKey b.userKey := by
  obtain h | ⟨h, -⟩ := internalLe_iff.mp h
  · exact KeyRanges.le_of_lt h
  · exact KeyRanges.le_of_eq h

/-- Internal keys are totally preordered. -/
instance : Std.Total fun a b : TableEntry => internalLe ucmp a b = true where
  total a b := by
    rw [internalLe_iff, internalLe_iff]
    cases h : ucmp.compare a.userKey b.userKey with
    | lt => exact .inl (.inl rfl)
    | gt => exact .inr (.inl (Std.OrientedCmp.gt_iff_lt.mp h))
    | eq =>
      have h' := Std.OrientedCmp.eq_symm h
      obtain hseq | hseq | hseq := lt_trichotomy a.seq b.seq
      · exact .inr (.inr ⟨h', .inl hseq⟩)
      · obtain ht | ht := UInt8.le_total a.type b.type
        · exact .inr (.inr ⟨h', .inr ⟨hseq, ht⟩⟩)
        · exact .inl (.inr ⟨rfl, .inr ⟨hseq.symm, ht⟩⟩)
      · exact .inl (.inr ⟨rfl, .inl hseq⟩)

instance : IsTrans TableEntry fun a b => internalLe ucmp a b = true where
  trans a b c hab hbc := by
    rw [internalLe_iff] at *
    obtain hab | ⟨hab, hab'⟩ := hab
    · obtain hbc | ⟨hbc, -⟩ := hbc
      · exact .inl (Std.TransCmp.lt_trans hab hbc)
      · exact .inl (Std.TransCmp.lt_of_lt_of_eq hab hbc)
    · obtain hbc | ⟨hbc, hbc'⟩ := hbc
      · exact .inl (Std.TransCmp.lt_of_eq_of_lt hab hbc)
      · refine .inr ⟨Std.TransCmp.eq_trans hab hbc, ?_⟩
        obtain h | ⟨h, ht⟩ := hab'
        · obtain h' | ⟨h', -⟩ := hbc'
          · exact .inl (h'.trans h)
          · exact .inl (h' ▸ h)
        · obtain h' | ⟨h', ht'⟩ := hbc'
          · exact .inl (h ▸ h')
          · exact .inr ⟨h'.trans h, UInt8.le_trans ht' ht⟩

/-- The order of `InternalKeyComparator` on the sorted entries. -/
theorem pairwise_sorted (es : List TableEntry) :
    (es.insertionSort fun a b => internalLe ucmp a b = true).Pairwise
      fun a b => internalLe ucmp a b = true :=
  List.pairwise_insertionSort _ es

end ZeroFlush.TableFiles
