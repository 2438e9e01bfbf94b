import ZeroFlush.RoutedRanges
import ZeroFlush.TableFiles

/-! # Tables aligned with level 1

A bucket of files ends at the largest key of its last file. Ranges are open above, so that key
itself is routed to the next partition. -/
namespace ZeroFlush.AlignedTables
open FixedWidthCodec UserKeys WalFormat PartitionTables TableFiles RoutedRanges

/-- What `BuildL1AlignedTable` reads of the files of level 1. -/
def l1Files (files : List FileMetaData) : List L1File := files.map fun f => (f.largest, f.fileSize)

/-- The files that fill a bucket, while another cut is allowed. -/
def bucketEnds (target targetBytes : ℕ) : ℕ → ℕ → List FileMetaData → List FileMetaData
  | acc, cuts, f :: g :: rest =>
    if acc + f.fileSize ≥ targetBytes ∧ cuts + 1 < target then
      f :: bucketEnds target targetBytes 0 (cuts + 1) (g :: rest)
    else bucketEnds target targetBytes (acc + f.fileSize) cuts (g :: rest)
  | _, _, _ => []

/-- The files that are the last ones of a bucket, the last bucket apart. -/
def closingFiles (partitions : ℕ) (files : List FileMetaData) : List FileMetaData :=
  if max 1 partitions ≥ files.length then files.dropLast
  else bucketEnds (max 1 partitions)
    ((files.map FileMetaData.fileSize).sum / max 1 partitions) 0 0 files

/-- What an aligned table is for. -/
structure Aligned (ucmp : UserComparator) (t : PartitionTable) (partitions : ℕ)
    (files : List FileMetaData) : Prop where
  bounded : t.partitions ≤ max 1 partitions
  accepted : ∃ version, PartitionTable.create version t.boundaries ucmp = .ok t
  inside : ∀ f ∈ files, ∃ p < t.partitions, InPartition ucmp t p f.smallest f.largest
  one : files.length ≤ max 1 partitions → ∀ p < t.partitions,
    ∃! f, f ∈ files ∧ InPartition ucmp t p f.smallest f.largest

section Buckets

variable {target targetBytes : ℕ}

theorem bucketBoundaries_eq (files : List FileMetaData) (acc : ℕ) (bs : List Bytes) :
    bucketBoundaries target targetBytes acc bs (l1Files files) =
      bs ++ (bucketEnds target targetBytes acc bs.length files).map FileMetaData.largest := by
  induction files generalizing acc bs with
  | nil => exact (List.append_nil bs).symm
  | cons f files ih =>
    cases files with
    | nil => exact (List.append_nil bs).symm
    | cons g rest =>
      show bucketBoundaries target targetBytes acc bs
        ((f.largest, f.fileSize) :: (g.largest, g.fileSize) :: l1Files rest) = _
      rw [bucketBoundaries, bucketEnds]
      split
      · have h := ih 0 (bs ++ [f.largest])
        rw [List.length_append, List.length_singleton, List.append_assoc] at h
        exact h
      · exact ih (acc + f.fileSize) bs

theorem bucketEnds_sublist (files : List FileMetaData) (acc cuts : ℕ) :
    (bucketEnds target targetBytes acc cuts files).Sublist files := by
  induction files generalizing acc cuts with
  | nil => exact List.Sublist.refl _
  | cons f files ih =>
    cases files with
    | nil => exact List.nil_sublist _
    | cons g rest =>
      rw [bucketEnds]
      split
      · exact (ih 0 (cuts + 1)).cons_cons f
      · exact (ih (acc + f.fileSize) cuts).cons f

/-- The cap on the number of cuts. -/
theorem length_bucketEnds (files : List FileMetaData) (acc : ℕ) {cuts : ℕ} (h : cuts < target) :
    cuts + (bucketEnds target targetBytes acc cuts files).length < target := by
  induction files generalizing acc cuts with
  | nil => exact h
  | cons f files ih =>
    cases files with
    | nil => exact h
    | cons g rest =>
      rw [bucketEnds]
      split
      next hcut =>
        have := ih 0 hcut.2
        rw [List.length_cons]
        omega
      next => exact ih (acc + f.fileSize) h

end Buckets

section Tables

variable {ucmp : UserComparator} {partitions : ℕ} {files : List FileMetaData}

theorem closingFiles_sublist : (closingFiles partitions files).Sublist files := by
  rw [closingFiles]
  split
  · exact List.dropLast_sublist files
  · exact bucketEnds_sublist files 0 0

theorem l1Boundaries_eq :
    l1Boundaries partitions (l1Files files) =
      (closingFiles partitions files).map FileMetaData.largest := by
  have hlen : (l1Files files).length = files.length := List.length_map _
  have hsizes : (l1Files files).map Prod.snd = files.map FileMetaData.fileSize := by
    simp [l1Files, Function.comp_def]
  simp only [l1Boundaries, closingFiles, hlen, hsizes]
  split
  · simp [l1Files, Function.comp_def, List.map_dropLast]
  · exact bucketBoundaries_eq files 0 []

theorem length_closingFiles (hne : closingFiles partitions files ≠ []) :
    (closingFiles partitions files).length + 1 ≤ max 1 partitions := by
  rw [closingFiles] at hne ⊢
  split at hne
  next h =>
    rw [if_pos h, List.length_dropLast]
    have : files ≠ [] := fun he => hne (by rw [he]; rfl)
    have := List.length_pos_iff.mpr this
    omega
  next h =>
    rw [if_neg h]
    have := @length_bucketEnds (max 1 partitions)
      ((files.map FileMetaData.fileSize).sum / max 1 partitions) files 0 0 (by omega)
    omega

/-- A table that is built has the largest keys of the closing files as its boundaries. -/
theorem build_spec {tables : PartitionTableSet} {t : PartitionTable}
    (h : buildL1AlignedTable ucmp tables partitions (l1Files files) = some t) :
    closingFiles partitions files ≠ [] ∧
      PartitionTable.create (tables.currentVersion + 1)
        ((closingFiles partitions files).map FileMetaData.largest) ucmp = .ok t := by
  rw [buildL1AlignedTable, l1Boundaries_eq] at h
  split at h
  · cases h
  next hne =>
    refine ⟨fun he => hne (by rw [he]; rfl), ?_⟩
    cases hc : PartitionTable.create (tables.currentVersion + 1)
        ((closingFiles partitions files).map FileMetaData.largest) ucmp with
    | error e =>
      rw [hc] at h
      cases h
    | ok t' =>
      rw [hc] at h
      cases h
      rfl

end Tables

section Alignment

variable {ucmp : UserComparator} {partitions : ℕ} {files : List FileMetaData} {t : PartitionTable}

/-- The files of level 1 are sorted and disjoint. -/
structure Disjoint (ucmp : UserComparator) (files : List FileMetaData) : Prop where
  sorted : files.Pairwise fun f g => KeyRanges.Lt ucmp.compare f.largest g.smallest
  ordered : ∀ f ∈ files, KeyRanges.Le ucmp.compare f.smallest f.largest

theorem Disjoint.cases (h : Disjoint ucmp files) {f g : FileMetaData} (hf : f ∈ files)
    (hg : g ∈ files) : f = g ∨ KeyRanges.Lt ucmp.compare f.largest g.smallest ∨
      KeyRanges.Lt ucmp.compare g.largest f.smallest := by
  obtain ⟨i, hi, rfl⟩ := List.mem_iff_getElem.mp hf
  obtain ⟨j, hj, rfl⟩ := List.mem_iff_getElem.mp hg
  have hsorted := List.pairwise_iff_getElem.mp h.sorted
  obtain hij | rfl | hji := lt_trichotomy i j
  · exact .inr (.inl (hsorted i j hi hj hij))
  · exact .inl rfl
  · exact .inr (.inr (hsorted j i hj hi hji))

/-- The largest key of a closing file belongs to the partition behind it. -/
theorem singleKey_of_inPartition (hmode : t.isHashMode = false)
    (hbs : Ascending ucmp t.boundaries) {f : FileMetaData} (hf : f.largest ∈ t.boundaries)
    (hle : KeyRanges.Le ucmp.compare f.smallest f.largest) {p : ℕ}
    (hin : InPartition ucmp t p f.smallest f.largest) :
    KeyRanges.Le ucmp.compare f.largest f.smallest := by
  rw [← KeyRanges.not_lt]
  intro hlt
  have hroute : t.route ucmp f.smallest = t.route ucmp f.largest :=
    (hin _ (KeyRanges.le_refl _) hle).trans (hin _ hle (KeyRanges.le_refl _)).symm
  exact KeyRanges.lt_irrefl _ (lt_of_route_eq hmode hbs hroute hf hlt)

/-- The first partition ends below every largest key. -/
theorem not_inPartition_zero (hdisj : Disjoint ucmp files) (hmode : t.isHashMode = false)
    (hbs : Ascending ucmp t.boundaries) {first : FileMetaData} {rest : List FileMetaData}
    (hfiles : files = first :: rest) (hfirst : t.boundaries.head? = some first.largest)
    {f : FileMetaData} (hf : f ∈ files) : ¬ InPartition ucmp t 0 f.smallest f.largest := by
  intro hin
  have hle := hdisj.ordered f hf
  have hroute := hin _ hle (KeyRanges.le_refl _)
  have hupper := ((route_eq_iff hmode hbs t.partitions_pos).mp hroute).2 first.largest
    (by rw [upperEnd, ← List.head?_eq_getElem?, hfirst]; rfl)
  have hmem : first ∈ files := hfiles ▸ List.mem_cons_self
  rw [hfiles] at hf
  obtain rfl | hrest := List.mem_cons.mp hf
  · exact KeyRanges.lt_irrefl _ hupper
  · have hlt := List.rel_of_pairwise_cons (hfiles ▸ hdisj.sorted) hrest
    exact KeyRanges.lt_irrefl _
      (KeyRanges.lt_of_lt_of_le (lt_trans hupper hlt) hle)

/-- Where the closing files hold one key each, no boundary separates the keys of a file. -/
theorem inPartition_of_singleKey (hdisj : Disjoint ucmp files) (hmode : t.isHashMode = false)
    (hbs : t.boundaries = (closingFiles partitions files).map FileMetaData.largest)
    (hsingle : ∀ g ∈ closingFiles partitions files, KeyRanges.Le ucmp.compare g.largest g.smallest)
    {f : FileMetaData} (hf : f ∈ files) :
    InPartition ucmp t (t.route ucmp f.smallest) f.smallest f.largest := by
  intro k hsmall hlarge
  refine route_congr hmode fun b hb => ?_
  rw [hbs] at hb
  obtain ⟨g, hg, rfl⟩ := List.mem_map.mp hb
  refine ⟨KeyRanges.lt_of_le_of_lt hsmall, fun hlt => ?_⟩
  have hgfiles := closingFiles_sublist.subset hg
  obtain rfl | hfg | hgf := hdisj.cases hf hgfiles
  · exact absurd hlt (KeyRanges.not_lt.mpr (hsingle f hg))
  · exact KeyRanges.lt_of_le_of_lt hlarge
      (KeyRanges.lt_of_lt_of_le hfg (hdisj.ordered g hgfiles))
  · exact absurd hlt (KeyRanges.not_lt.mpr (KeyRanges.le_of_lt hgf))

/-- A table that is built is aligned precisely if there are more files than partitions asked for
and every file that closes a bucket holds a single user key. -/
theorem aligned_iff {tables : PartitionTableSet} (hdisj : Disjoint ucmp files)
    (h : buildL1AlignedTable ucmp tables partitions (l1Files files) = some t) :
    Aligned ucmp t partitions files ↔ max 1 partitions < files.length ∧
      ∀ f ∈ closingFiles partitions files, KeyRanges.Le ucmp.compare f.largest f.smallest := by
  obtain ⟨hne, hcreate⟩ := build_spec h
  obtain ⟨hbs, hmode, hparts, hasc⟩ := create_spec hcreate
  rw [← hbs] at hasc
  constructor
  · intro hal
    constructor
    · by_contra hfew
      have hfew : files.length ≤ max 1 partitions := not_lt.mp hfew
      have hclosing : closingFiles partitions files = files.dropLast := if_pos hfew
      obtain ⟨f, ⟨hf, hin⟩, -⟩ := hal.one hfew 0 t.partitions_pos
      cases hfiles : files with
      | nil => exact hne (by rw [hclosing, hfiles]; rfl)
      | cons first rest =>
        refine not_inPartition_zero hdisj hmode hasc hfiles ?_ hf hin
        rw [hbs, hclosing, hfiles]
        cases rest with
        | nil => exact absurd (by rw [hclosing, hfiles]; rfl) hne
        | cons g rest => rfl
    · intro f hf
      have hmem := closingFiles_sublist.subset hf
      obtain ⟨p, -, hin⟩ := hal.inside f hmem
      exact singleKey_of_inPartition hmode hasc (hbs ▸ List.mem_map_of_mem hf)
        (hdisj.ordered f hmem) hin
  · rintro ⟨hmany, hsingle⟩
    refine ⟨?_, ⟨_, hbs.symm ▸ hcreate⟩, fun f hf => ?_, fun hfew => absurd hfew (not_le.mpr hmany)⟩
    · rw [hparts, List.length_map]
      exact length_closingFiles hne
    · exact ⟨_, t.route_lt ucmp f.smallest,
        inPartition_of_singleKey hdisj hmode hbs hsingle hf⟩

namespace SharedKeys

def file (smallest largest : UInt8) : FileMetaData :=
  { number := 0, fileSize := 1, epochNumber := 0, smallest := [smallest], largest := [largest]
    entries := [] }

def tables : PartitionTableSet := .init (.createHash 0 1 Nat.one_pos)

/-- The table that ends its first partition at `key`. -/
def table (key : UInt8) : PartitionTable := .cutAt 1 [key]

/-- The files `[a]`, `[b]` and `[c, d]`. -/
def narrow : List FileMetaData := [file 97 97, file 98 98, file 99 100]

theorem narrow_disjoint : Disjoint .bytewise narrow := ⟨by decide, by decide⟩

end SharedKeys

/-- Three files for two partitions. -/
theorem aligned_narrow : Aligned .bytewise (SharedKeys.table 97) 2 SharedKeys.narrow ↔
    max 1 2 < SharedKeys.narrow.length ∧ ∀ f ∈ closingFiles 2 SharedKeys.narrow,
      KeyRanges.Le UserComparator.bytewise.compare f.largest f.smallest :=
  @aligned_iff .bytewise 2 SharedKeys.narrow (SharedKeys.table 97) SharedKeys.tables
    SharedKeys.narrow_disjoint rfl

/-- The files `[a, c]` and `[e, g]` for two partitions: `a` and `c` are in different ones. -/
theorem aligned_fails : ¬ ∀ t, buildL1AlignedTable .bytewise SharedKeys.tables 2
    (l1Files [SharedKeys.file 97 99, SharedKeys.file 101 103]) = some t →
      Aligned .bytewise t 2 [SharedKeys.file 97 99, SharedKeys.file 101 103] := by
  intro h
  obtain ⟨p, -, hin⟩ := (h (SharedKeys.table 99) rfl).inside (SharedKeys.file 97 99) (by decide)
  have hlow : (SharedKeys.table 99).route .bytewise [97] = p := hin [97] (by decide) (by decide)
  have hhigh : (SharedKeys.table 99).route .bytewise [99] = p := hin [99] (by decide) (by decide)
  exact absurd (hlow.trans hhigh.symm) (by decide)

end Alignment

end ZeroFlush.AlignedTables
