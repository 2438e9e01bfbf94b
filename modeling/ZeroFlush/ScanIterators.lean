import ZeroFlush.RunMerging
import ZeroFlush.TableFiles

/-! # Forward scans

The merging iterator hands out the entries of its children in the order of internal keys. The
iterator of the database goes over them and shows of every user key the newest version that the
snapshot may see. -/
namespace ZeroFlush.ScanIterators
open FixedWidthCodec WalFormat UserKeys TableFiles RunMerging

/-- An internal key and its value. -/
abbrev Record := TableEntry × Bytes

def recordLe (ucmp : UserComparator) (a b : Record) : Bool := internalLe ucmp a.1 b.1

/-- `MergingIterator` from `SeekToFirst` to its end. -/
def mergingIterator (ucmp : UserComparator) (children : List (List Record)) : List Record :=
  mergeRuns (recordLe ucmp) children

/-- `FindNextUserEntry` and the calls of `Next` that follow: `skip` is the saved key while its other
versions are skipped, `zero` is set if the entry before has sequence number 0. `mergeValues` is
`MergeValuesNewToOld`. Types that are never written to a partition are left out. -/
def dbIter (ucmp : UserComparator) (mergeValues : Bytes → List Record → Except Status Bytes)
    (snapshot : ℕ) : Option Bytes → Bool → List Record → List (Bytes × Bytes) × Option Status
  | _, _, [] => ([], none)
  | skip, zero, r :: rs =>
    let isZero := r.1.seq == 0
    let passed := skip.filter fun k => ucmp.compare r.1.userKey k != .gt
    let next := dbIter ucmp mergeValues snapshot (some r.1.userKey) isZero rs
    if r.1.seq ≤ snapshot then
      if !zero && passed.isSome then dbIter ucmp mergeValues snapshot skip isZero rs
      else if r.1.type = kTypeDeletion ∨ r.1.type = kTypeSingleDeletion then next
      else if r.1.type = kTypeValue then ((r.1.userKey, r.2) :: next.1, next.2)
      else if r.1.type = kTypeMerge then
        match mergeValues r.1.userKey (r :: rs) with
        | .error s => ([], some s)
        | .ok v => ((r.1.userKey, v) :: next.1, next.2)
      else ([], some (.corruption s!"Unknown value type: {r.1.type.toNat}"))
    else dbIter ucmp mergeValues snapshot passed isZero rs

/-- The types of values and point deletions. -/
def IsPoint (type : UInt8) : Prop :=
  type = kTypeValue ∨ type = kTypeDeletion ∨ type = kTypeSingleDeletion

instance (type : UInt8) : Decidable (IsPoint type) := inferInstanceAs (Decidable (_ ∨ _))

variable {ucmp : UserComparator} {mergeValues : Bytes → List Record → Except Status Bytes}
  {snapshot : ℕ}

instance : Std.Total fun a b : Record => recordLe ucmp a b = true :=
  ⟨fun a b => Std.Total.total (r := fun a b => internalLe ucmp a b = true) a.1 b.1⟩

instance : IsTrans Record fun a b => recordLe ucmp a b = true :=
  ⟨fun a b c => IsTrans.trans (r := fun a b => internalLe ucmp a b = true) a.1 b.1 c.1⟩

/-- The first version of a key that the snapshot may see. -/
def firstVisible (snapshot : ℕ) (key : Bytes) (rs : List Record) : Option Record :=
  rs.find? fun r => r.1.userKey == key && decide (r.1.seq ≤ snapshot)

theorem firstVisible_cons {key : Bytes} {r : Record} {rs : List Record} :
    firstVisible snapshot key (r :: rs) =
      if r.1.userKey = key ∧ r.1.seq ≤ snapshot then some r else firstVisible snapshot key rs := by
  rw [firstVisible, List.find?_cons]
  split
  next h => rw [if_pos (by simpa using h)]
  next h => rw [if_neg (by simpa using h), firstVisible]

/-- What is left of a scan shows the keys that are not skipped, with their first visible versions. -/
structure Shows (snapshot : ℕ) (skip : Option Bytes) (rs : List Record)
    (out : List (Bytes × Bytes)) : Prop where
  mem_iff : ∀ key v, (key, v) ∈ out ↔ skip ≠ some key ∧
    ∃ r, firstVisible snapshot key rs = some r ∧ r.1.type = kTypeValue ∧ r.2 = v

theorem Shows.key_mem {skip : Option Bytes} {rs : List Record} {out : List (Bytes × Bytes)}
    (h : Shows snapshot skip rs out) {o : Bytes × Bytes} (ho : o ∈ out) :
    skip ≠ some o.1 ∧ ∃ r ∈ rs, r.1.userKey = o.1 := by
  obtain ⟨hskip, r, hr, -⟩ := (h.mem_iff o.1 o.2).mp ho
  have hpred := List.find?_some hr
  rw [Bool.and_eq_true, beq_iff_eq] at hpred
  exact ⟨hskip, r, List.mem_of_find?_eq_some hr, hpred.1⟩

/-- The entries are in the order of internal keys, and no key has two versions with number 0. -/
structure Listing (ucmp : UserComparator) (rs : List Record) : Prop where
  sorted : rs.Pairwise fun a b => recordLe ucmp a b
  zero : rs.Pairwise fun a b => a.1.userKey = b.1.userKey → b.1.seq = 0 → a.1.seq ≠ 0

theorem Listing.of_cons {r : Record} {rs : List Record} (h : Listing ucmp (r :: rs)) :
    Listing ucmp rs :=
  ⟨h.sorted.of_cons, h.zero.of_cons⟩

/-- A later entry has a later key, or is an older version of the same. -/
theorem Listing.rest {r : Record} {rs : List Record} (h : Listing ucmp (r :: rs)) {q : Record}
    (hq : q ∈ rs) : ucmp.compare q.1.userKey r.1.userKey = .gt ∨
      ucmp.compare q.1.userKey r.1.userKey = .eq ∧ q.1.seq ≤ r.1.seq := by
  have hle := (List.pairwise_cons.mp h.sorted).1 q hq
  obtain hlt | ⟨heq, hseq⟩ := internalLe_iff.mp hle
  · exact .inl (Std.OrientedCmp.gt_iff_lt.mpr hlt)
  · refine .inr ⟨Std.OrientedCmp.eq_symm heq, ?_⟩
    omega

/-- After number 0 comes another key. -/
theorem Listing.rest_of_zero (hd : ucmp.DistinguishesBytes) {r : Record} {rs : List Record}
    (h : Listing ucmp (r :: rs)) (hzero : r.1.seq = 0) {q : Record} (hq : q ∈ rs) :
    ucmp.compare q.1.userKey r.1.userKey = .gt := by
  obtain hgt | ⟨heq, hseq⟩ := h.rest hq
  · exact hgt
  · have hkey := hd _ _ heq
    exact absurd hzero ((List.pairwise_cons.mp h.zero).1 q hq hkey.symm (by omega))

theorem Listing.rest_gt {r : Record} {rs : List Record} (h : Listing ucmp (r :: rs)) {k : Bytes}
    (hk : ucmp.compare r.1.userKey k = .gt) {q : Record} (hq : q ∈ rs) :
    ucmp.compare q.1.userKey k = .gt := by
  obtain hgt | ⟨heq, -⟩ := h.rest hq
  · exact Std.TransCmp.gt_trans hgt hk
  · exact Std.TransCmp.gt_of_eq_of_gt heq hk

/-- A key that is behind the saved one is not skipped. -/
theorem shows_of_behind {skip skip' : Option Bytes} {rs : List Record} {out : List (Bytes × Bytes)}
    (h : Shows snapshot skip' rs out) (hsame : ∀ key, (∃ r ∈ rs, r.1.userKey = key) →
      (skip' = some key ↔ skip = some key)) : Shows snapshot skip rs out := by
  refine ⟨?_⟩
  intro key v
  rw [h.mem_iff]
  constructor
  · rintro ⟨hskip, r, hr, hrest⟩
    have hpred := List.find?_some hr
    rw [Bool.and_eq_true, beq_iff_eq] at hpred
    have hiff := hsame key ⟨r, List.mem_of_find?_eq_some hr, hpred.1⟩
    exact ⟨fun h => hskip (hiff.mpr h), r, hr, hrest⟩
  · rintro ⟨hskip, r, hr, hrest⟩
    have hpred := List.find?_some hr
    rw [Bool.and_eq_true, beq_iff_eq] at hpred
    have hiff := hsame key ⟨r, List.mem_of_find?_eq_some hr, hpred.1⟩
    exact ⟨fun h => hskip (hiff.mp h), r, hr, hrest⟩

section shows
variable {skip : Option Bytes} {r : Record} {rs : List Record} {out : List (Bytes × Bytes)}

theorem shows_invisible (h : Shows snapshot skip rs out) (hvis : ¬ r.1.seq ≤ snapshot) :
    Shows snapshot skip (r :: rs) out := by
  refine ⟨fun key v => ?_⟩
  rw [h.mem_iff, firstVisible_cons, if_neg fun hr => hvis hr.2]

theorem shows_skipped (h : Shows snapshot (some r.1.userKey) rs out) :
    Shows snapshot (some r.1.userKey) (r :: rs) out := by
  refine ⟨fun key v => ?_⟩
  rw [h.mem_iff, firstVisible_cons]
  refine and_congr_right fun hne => ?_
  rw [if_neg fun hr => hne (congrArg some hr.1)]

theorem shows_deleted (h : Shows snapshot (some r.1.userKey) rs out) (hvis : r.1.seq ≤ snapshot)
    (htype : r.1.type ≠ kTypeValue) : Shows snapshot none (r :: rs) out := by
  refine ⟨fun key v => ?_⟩
  rw [h.mem_iff, firstVisible_cons]
  split
  next hr =>
    constructor
    · rintro ⟨hne, -⟩
      exact absurd (congrArg some hr.1) hne
    · rintro ⟨-, q, hq, hvalue, -⟩
      cases hq
      exact absurd hvalue htype
  next hr =>
    have hne : some r.1.userKey ≠ some key := fun heq => hr ⟨Option.some.inj heq, hvis⟩
    exact and_congr_left' (iff_of_true hne nofun)

theorem shows_value (h : Shows snapshot (some r.1.userKey) rs out) (hvis : r.1.seq ≤ snapshot)
    (htype : r.1.type = kTypeValue) :
    Shows snapshot none (r :: rs) ((r.1.userKey, r.2) :: out) := by
  refine ⟨fun key v => ?_⟩
  rw [List.mem_cons, h.mem_iff, firstVisible_cons]
  split
  next hr =>
    constructor
    · rintro (heq | ⟨hne, -⟩)
      · obtain ⟨-, rfl⟩ := Prod.mk.inj heq
        exact ⟨nofun, r, rfl, htype, rfl⟩
      · exact absurd (congrArg some hr.1) hne
    · rintro ⟨-, q, hq, -, rfl⟩
      cases hq
      exact .inl (Prod.ext hr.1.symm rfl)
  next hr =>
    have hne : some r.1.userKey ≠ some key := fun heq => hr ⟨Option.some.inj heq, hvis⟩
    rw [or_iff_right fun heq => hne (congrArg some (Prod.mk.inj heq).1.symm)]
    exact and_congr_left' (iff_of_true hne nofun)

end shows

/-- The iterator shows every key once, in the order of the comparator. -/
theorem dbIter_spec (hd : ucmp.DistinguishesBytes) {rs : List Record} (hl : Listing ucmp rs)
    (hpoint : ∀ r ∈ rs, r.1.seq ≤ snapshot → IsPoint r.1.type) {skip : Option Bytes} {zero : Bool}
    (hskip : ∀ k ∈ skip, ∀ r ∈ rs, ucmp.compare r.1.userKey k ≠ .lt)
    (hzero : zero = true → ∀ k ∈ skip, ∀ r ∈ rs, ucmp.compare r.1.userKey k = .gt) :
    Shows snapshot skip rs (dbIter ucmp mergeValues snapshot skip zero rs).1 ∧
      (dbIter ucmp mergeValues snapshot skip zero rs).1.Pairwise
        (fun a b => ucmp.compare a.1 b.1 = .lt) ∧
      (dbIter ucmp mergeValues snapshot skip zero rs).2 = none := by
  induction rs generalizing skip zero with
  | nil =>
    refine ⟨⟨fun key v => ?_⟩, List.Pairwise.nil, rfl⟩
    simp [dbIter, firstVisible]
  | cons r rs ih =>
    have hpoint' := fun q hq => hpoint q (List.mem_cons_of_mem _ hq)
    have hbehind : ∀ k ∈ some r.1.userKey, ∀ q ∈ rs, ucmp.compare q.1.userKey k ≠ .lt := by
      rintro k hk q hq hlt
      cases hk
      obtain hgt | ⟨heq, -⟩ := hl.rest hq
      · rw [hlt] at hgt
        cases hgt
      · rw [hlt] at heq
        cases heq
    have hbehind₀ : (r.1.seq == 0) = true → ∀ k ∈ some r.1.userKey, ∀ q ∈ rs,
        ucmp.compare q.1.userKey k = .gt := by
      rintro hz k hk q hq
      cases hk
      exact hl.rest_of_zero hd (beq_iff_eq.mp hz) hq
    have hnext := ih hl.of_cons hpoint' hbehind hbehind₀
    have hout : ∀ o ∈ (dbIter ucmp mergeValues snapshot (some r.1.userKey) (r.1.seq == 0) rs).1,
        ucmp.compare r.1.userKey o.1 = .lt := by
      intro o ho
      obtain ⟨hne, q, hq, hkey⟩ := hnext.1.key_mem ho
      rw [← hkey] at hne ⊢
      obtain hgt | ⟨heq, -⟩ := hl.rest hq
      · exact Std.OrientedCmp.gt_iff_lt.mp hgt
      · exact absurd (congrArg some (hd _ _ heq).symm) hne
    rw [dbIter]
    split
    next hvis =>
      split
      next hpassed =>
        -- the saved key again
        rw [Bool.and_eq_true, Option.isSome_iff_exists] at hpassed
        obtain ⟨-, k, hk⟩ := hpassed
        obtain ⟨rfl, hle⟩ := Option.filter_eq_some_iff.mp hk
        have heq : r.1.userKey = k := by
          refine hd _ _ ?_
          cases hcmp : ucmp.compare r.1.userKey k with
          | eq => rfl
          | lt => exact absurd hcmp (hskip k rfl r List.mem_cons_self)
          | gt => simp [hcmp] at hle
        subst heq
        exact ⟨shows_skipped hnext.1, hnext.2⟩
      next hpassed =>
        have hgt : ∀ k ∈ skip, ucmp.compare r.1.userKey k = .gt := by
          intro k hk
          cases hz : zero with
          | true => exact hzero hz k hk r List.mem_cons_self
          | false =>
            rw [hz, hk] at hpassed
            simpa using hpassed
        have hnone : ∀ {out}, Shows snapshot none (r :: rs) out →
            Shows snapshot skip (r :: rs) out := by
          intro out hshows
          refine shows_of_behind hshows ?_
          rintro key ⟨q, hq, rfl⟩
          refine iff_of_false nofun fun hk => ?_
          have hself : ucmp.compare q.1.userKey q.1.userKey = .gt := by
            obtain rfl | hq := List.mem_cons.mp hq
            · exact hgt _ hk
            · exact hl.rest_gt (hgt _ hk) hq
          exact absurd (hself.symm.trans Std.ReflCmp.compare_self) nofun
        obtain hvalue | hdeleted := hpoint r List.mem_cons_self hvis
        · rw [if_neg (by rw [hvalue]; decide), if_pos hvalue]
          refine ⟨hnone (shows_value hnext.1 hvis hvalue), ?_, hnext.2.2⟩
          exact List.pairwise_cons.mpr ⟨hout, hnext.2.1⟩
        · rw [if_pos hdeleted]
          refine ⟨hnone (shows_deleted hnext.1 hvis ?_), hnext.2⟩
          rintro hvalue
          rw [hvalue] at hdeleted
          exact absurd hdeleted (by decide)
    next hvis =>
      have hsub : ∀ k ∈ skip.filter (fun k => ucmp.compare r.1.userKey k != .gt), k ∈ skip :=
        fun k hk => (Option.filter_eq_some_iff.mp hk).1
      obtain ⟨hshows, hrest⟩ := @ih hl.of_cons hpoint' _ (r.1.seq == 0)
        (fun k hk q hq => hskip k (hsub k hk) q (List.mem_cons_of_mem _ hq))
        (fun hz => absurd (beq_iff_eq.mp hz) (by omega))
      refine ⟨shows_invisible (shows_of_behind hshows ?_) hvis, hrest⟩
      rintro key ⟨q, hq, rfl⟩
      constructor
      · exact hsub _
      · intro hk
        refine Option.filter_eq_some_iff.mpr ⟨hk, bne_iff_ne.mpr fun hgt => ?_⟩
        have hself := hl.rest_gt hgt hq
        exact absurd (hself.symm.trans Std.ReflCmp.compare_self) nofun

end ZeroFlush.ScanIterators
