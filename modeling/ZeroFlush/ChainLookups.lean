import ZeroFlush.GuardedRuns
import ZeroFlush.IndexContents

/-! # Lookups along the chain of a partition

The skip list is ordered by the comparator of the column family, the entry a lookup lands on is
compared byte by byte. -/
namespace ZeroFlush.ChainLookups
open FixedWidthCodec FiniteMaps WalFormat PartitionedWal UserKeys OrderedInsertion PartitionIndexes
  IndexChains RecencyOrder IndexContents GuardedRuns

/-- The keys compare as equal. -/
def sameKey (ucmp : UserComparator) (key : Bytes) (e : IndexEntry) : Bool :=
  ucmp.compare e.userKey key == .eq

/-- The version with the largest sequence number that the snapshot may see. -/
abbrev Latest (ucmp : UserComparator) (entries : List IndexEntry) (key : Bytes) (snapshot : ℕ)
    (e : IndexEntry) : Prop :=
  IsNewest (sameKey ucmp key) IndexEntry.seq entries true snapshot e

inductive IndexSetOp
  | insert (part gen : ℕ) (e : IndexEntry)
  | freeze (part newGen : ℕ)
  | releaseFrozen (part gen : ℕ)

def step (ucmp : UserComparator) (s : PartitionIndexSet) : IndexSetOp → PartitionIndexSet
  | .insert part gen e => s.insert ucmp part gen e
  | .freeze part newGen => s.freeze part newGen
  | .releaseFrozen part gen => s.releaseFrozen part gen

/-- A freeze goes to the next generation, and later generations get larger sequence numbers. -/
def StepOk (s : PartitionIndexSet) : IndexSetOp → Prop
  | .insert part gen e => ∀ i ∈ s.chain part, ∀ x ∈ i.entries,
      (i.gen < gen → x.seq < e.seq) ∧ (gen < i.gen → e.seq < x.seq)
  | .freeze part newGen => ∀ g ∈ activeGen? s part, newGen = g + 1
  | .releaseFrozen _ _ => True

instance decidableStepOk (s : PartitionIndexSet) : (op : IndexSetOp) → Decidable (StepOk s op)
  | .insert part gen e => inferInstanceAs (Decidable (∀ i ∈ s.chain part, ∀ x ∈ i.entries,
      (i.gen < gen → x.seq < e.seq) ∧ (gen < i.gen → e.seq < x.seq)))
  | .freeze part newGen => inferInstanceAs (Decidable (∀ g ∈ activeGen? s part, newGen = g + 1))
  | .releaseFrozen _ _ => .isTrue trivial

/-- The entries of the live indexes of a partition. -/
def live (s : PartitionIndexSet) (part : ℕ) : List IndexEntry :=
  (s.chain part).flatMap PartitionIndex.entries

/-- `Get` misses only if there is no version to see, and else returns the latest one. -/
structure LookupExact (ucmp : UserComparator) (s : PartitionIndexSet) (part : ℕ) (key : Bytes)
    (snapshot : ℕ) : Prop where
  miss_iff : s.get ucmp part key snapshot = none ↔
    ∀ x ∈ live s part, sameKey ucmp key x = true → snapshot < x.seq
  hit : ∀ e, Latest ucmp (live s part) key snapshot e → s.get ucmp part key snapshot = some e

/-- Along a chain the generations fall, and with them all sequence numbers. -/
structure Ranked (ucmp : UserComparator) (s : PartitionIndexSet) : Prop where
  idle : ∀ p, s.active.lookup p = none → s.chain p = []
  sorted : Sorted ucmp s
  filtered : Filtered s
  gens : ∀ p, (s.chain p).Pairwise fun i j => j.gen < i.gen
  seqs : ∀ p, (s.chain p).Pairwise fun i j => ∀ x ∈ i.entries, ∀ y ∈ j.entries, y.seq < x.seq

variable {ucmp : UserComparator} {s : PartitionIndexSet} {part gen : ℕ} {e : IndexEntry}
  {key : Bytes} {snapshot : ℕ}

section lookup
variable {idx : PartitionIndex}

/-- The entry the seek lands on, if it is one of the key. -/
def found (ucmp : UserComparator) (key : Bytes) (snapshot : ℕ) (idx : PartitionIndex) :
    Option IndexEntry :=
  (idx.seek ucmp key snapshot).head?.filter (sameKey ucmp key)

theorem sameKey_iff {x : IndexEntry} : sameKey ucmp key x = true ↔ ucmp.compare x.userKey key = .eq :=
  beq_iff_eq

/-- Among the versions of the key the seek lands on or behind those that the snapshot may see. -/
theorem compareKeySeq_probe_ne_lt {x : IndexEntry} (hx : ucmp.compare x.userKey key = .eq) :
    compareKeySeq ucmp x (lookupKey key snapshot) ≠ .lt ↔ x.seq ≤ snapshot := by
  rw [Ne, compareKeySeq, Ordering.then_eq_lt]
  show ¬ (ucmp.compare x.userKey key = .lt ∨ ucmp.compare x.userKey key = .eq ∧
    compare snapshot x.seq = .lt) ↔ _
  rw [hx, Nat.compare_eq_lt]
  simp

/-- A seek lands on the latest version of the key. -/
theorem found_eq_some_iff (hs : Ascending (compareKeySeq ucmp) idx.entries) :
    found ucmp key snapshot idx = some e ↔ Latest ucmp idx.entries key snapshot e := by
  rw [found, PartitionIndex.seek, head?_dropWhile_eq_find?, Option.filter_eq_some_iff]
  constructor
  · rintro ⟨hfind, hkey⟩
    have hek := sameKey_iff.mp hkey
    have hq := List.find?_some hfind
    refine ⟨List.mem_of_find?_eq_some hfind, hkey, ?_, ?_⟩
    · exact (compareKeySeq_probe_ne_lt hek).mp (by simpa using hq)
    · intro x hx hxk hxs
      have hxk := sameKey_iff.mp hxk
      have hqx := (compareKeySeq_probe_ne_lt hxk).mpr hxs
      obtain rfl | hlt := find?_ascending hs hfind x hx (by simpa using hqx)
      · exact le_rfl
      · have hsame : ucmp.compare e.userKey x.userKey = .eq :=
          Std.TransCmp.eq_trans hek (Std.OrientedCmp.eq_symm hxk)
        rw [compareKeySeq, hsame] at hlt
        exact (Nat.compare_eq_lt.mp hlt).le
  · rintro ⟨hmem, hkey, hvis, hnew⟩
    have hek := sameKey_iff.mp hkey
    have hqe := (compareKeySeq_probe_ne_lt hek).mpr hvis
    refine ⟨?_, hkey⟩
    cases hfind : idx.entries.find? fun x =>
        !(compareKeySeq ucmp x (lookupKey key snapshot) == .lt) with
    | none =>
      have hnot := List.find?_eq_none.mp hfind e hmem
      simp [hqe] at hnot
    | some d =>
      have hqd := List.find?_some hfind
      obtain rfl | hlt := find?_ascending hs hfind e hmem (by simpa using hqe)
      · rfl
      · -- an earlier entry behind the probe would be a newer version of the same key
        exfalso
        have hqd : compareKeySeq ucmp d (lookupKey key snapshot) ≠ .lt := by simpa using hqd
        obtain hk | ⟨hk, hseq⟩ := Ordering.then_eq_lt.mp hlt
        · exact hqd (Ordering.then_eq_lt.mpr (.inl (Std.TransCmp.lt_of_lt_of_eq hk hek)))
        · have hdk : ucmp.compare d.userKey key = .eq := Std.TransCmp.eq_trans hk hek
          have hdvis := (compareKeySeq_probe_ne_lt hdk).mp hqd
          have hle := hnew d (List.mem_of_find?_eq_some hfind) (sameKey_iff.mpr hdk) hdvis
          have hgt := Nat.compare_eq_lt.mp hseq
          omega

/-- `Get` of one index keeps what the seek found if it has the bytes of the key. -/
theorem get_eq_filter_found (idx : PartitionIndex) :
    idx.get ucmp key snapshot = (found ucmp key snapshot idx).filter fun e => e.userKey == key := by
  rw [PartitionIndex.get, found]
  cases (idx.seek ucmp key snapshot).head? with
  | none => rfl
  | some d =>
    cases hd : d.userKey == key with
    | false => cases hk : sameKey ucmp key d <;> simp [Option.filter, hd, hk]
    | true =>
      have hk : sameKey ucmp key d = true := by
        rw [sameKey_iff, eq_of_beq hd]
        exact Std.ReflCmp.compare_self
      simp [Option.filter, hd, hk]

end lookup

/-- The first hit along the chain is kept if it has the bytes of the key. -/
theorem findSome?_get {chain : List PartitionIndex}
    (h : chain.findSome? (found ucmp key snapshot) = some e) (hkey : e.userKey = key) :
    chain.findSome? (fun i => i.get ucmp key snapshot) = some e := by
  induction chain with
  | nil => cases h
  | cons i chain ih =>
    rw [List.findSome?_cons] at h ⊢
    rw [get_eq_filter_found]
    cases hi : found ucmp key snapshot i with
    | none =>
      rw [hi] at h
      exact ih h
    | some d =>
      rw [hi] at h
      cases h
      simp [Option.filter, hkey]

/-- What `Get` returns is an entry with the bytes of the key that the snapshot may see. -/
theorem get_sound (h : Ranked ucmp s) (hget : s.get ucmp part key snapshot = some e) :
    e ∈ live s part ∧ e.userKey = key ∧ e.seq ≤ snapshot := by
  rw [PartitionIndexSet.get] at hget
  split at hget
  · cases hget
  · split at hget
    · obtain ⟨i, hi, hie⟩ := List.exists_of_findSome?_eq_some hget
      rw [get_eq_filter_found, Option.filter_eq_some_iff, found_eq_some_iff (h.sorted part i hi)] at hie
      obtain ⟨hlatest, hkey⟩ := hie
      exact ⟨List.mem_flatMap.mpr ⟨i, hi, hlatest.mem⟩, eq_of_beq hkey, hlatest.visible⟩
    · cases hget

/-- `Get` finds the latest version if it was written with the bytes of the key. -/
theorem get_latest (h : Ranked ucmp s) (he : Latest ucmp (live s part) key snapshot e)
    (hkey : e.userKey = key) : s.get ucmp part key snapshot = some e := by
  obtain ⟨i, hi, hei⟩ := List.mem_flatMap.mp he.mem
  have hknows := h.filtered part i hi e hei
  rw [hkey] at hknows
  obtain ⟨b, hb, hbits⟩ := hknows
  have hmay : b.mayContain key = true := Knows.mayContain ⟨b, hb, hbits⟩ hb
  have hord : Ordered (sameKey ucmp key) IndexEntry.seq
      ((s.chain part).map PartitionIndex.entries) := by
    rw [Ordered, List.pairwise_map]
    exact (h.seqs part).imp fun hij x hx y hy _ => hij x hx y hy
  have hfound := findSome?_of_isNewest (fun i hi _ => found_eq_some_iff (h.sorted part i hi)) hord he
  rw [PartitionIndexSet.get, hb]
  dsimp only
  rw [if_pos hmay]
  exact findSome?_get hfound hkey

/-- A lookup is exact unless the latest version of the key has other bytes. -/
theorem Ranked.lookupExact_eq (h : Ranked ucmp s) :
    LookupExact ucmp s part key snapshot ↔
      ∀ e, Latest ucmp (live s part) key snapshot e → e.userKey = key := by
  constructor
  · intro hexact e he
    exact (get_sound h (hexact.hit e he)).2.1
  · intro hbytes
    refine ⟨⟨?_, ?_⟩, fun e he => get_latest h he (hbytes e he)⟩
    · intro hnone x hx hkey
      by_contra hvis
      obtain ⟨e, he⟩ := exists_isNewest hx hkey (not_lt.mp hvis)
      rw [get_latest h he (hbytes e he)] at hnone
      cases hnone
    · intro hall
      rw [Option.eq_none_iff_forall_ne_some]
      intro e hget
      obtain ⟨hmem, hkey, hvis⟩ := get_sound h hget
      have hsame : sameKey ucmp key e = true := by
        rw [sameKey_iff, hkey]
        exact Std.ReflCmp.compare_self
      have hlt := hall e hmem hsame
      omega

/-- An entry of a generation without index is dropped. -/
theorem insert_of_absent {a : PartitionIndex} (ha : s.active.lookup part = some a)
    (habsent : ∀ i ∈ s.chain part, i.gen ≠ gen) : s.insert ucmp part gen e = s := by
  rw [chain_of_active ha] at habsent
  have hnone : (s.frozenChain part).reverse.find? (fun idx => idx.gen == gen) = none := by
    rw [List.find?_eq_none]
    intro i hi
    simpa using habsent i (List.mem_cons_of_mem _ hi)
  rw [PartitionIndexSet.insert, ha]
  dsimp only
  rw [if_neg (habsent a List.mem_cons_self), PartitionIndexSet.insertFrozen, hnone]
  rfl

theorem ranked_insert (h : Ranked ucmp s) (hok : StepOk s (.insert part gen e)) :
    Ranked ucmp (s.insert ucmp part gen e) := by
  obtain ⟨hins, hother⟩ := chain_insert ucmp s part gen e
  have hactive : ∀ p, (s.insert ucmp part gen e).active.lookup p = none →
      s.active.lookup p = none ∧ p ≠ part := by
    intro p hp
    have hgen := @activeGen?_insert ucmp s part gen e p
    rw [activeGen?, hp, Option.map_none] at hgen
    split at hgen
    next => cases hgen
    next hnot =>
      have hnone : s.active.lookup p = none := by
        rw [activeGen?, eq_comm, Option.map_eq_none_iff] at hgen
        exact hgen
      refine ⟨hnone, ?_⟩
      rintro rfl
      exact hnot ⟨rfl, by rw [activeGen?, hnone, Option.map_none]⟩
  -- the chain of the partition, with the entry in the index of its generation
  have hchain : ((s.insert ucmp part gen e).chain part).Pairwise (fun i j => j.gen < i.gen) ∧
      ((s.insert ucmp part gen e).chain part).Pairwise
        fun i j => ∀ x ∈ i.entries, ∀ y ∈ j.entries, y.seq < x.seq := by
    cases hins with
    | into l₁ j l₂ before skipped gen_eq eq =>
      have hgens := h.gens part
      have hseqs := h.seqs part
      rw [StepOk, before] at hok
      rw [before, List.pairwise_append, List.pairwise_cons] at hgens hseqs
      rw [eq, List.pairwise_append, List.pairwise_cons, List.pairwise_append, List.pairwise_cons]
      have hmem : ∀ i ∈ l₁, ∀ k ∈ inserted ucmp e j :: l₂, ∃ k' ∈ j :: l₂, k'.gen = k.gen ∧
          ∀ x ∈ k.entries, x ∈ k'.entries ∨ k' = j ∧ x = e := by
        intro i _ k hk
        obtain rfl | hk := List.mem_cons.mp hk
        · exact ⟨j, List.mem_cons_self, (inserted_gen j).symm,
            fun x hx => (mem_inserted hx).symm.imp_right fun hx => ⟨rfl, hx⟩⟩
        · exact ⟨k, List.mem_cons_of_mem _ hk, rfl, fun x hx => .inl hx⟩
      refine ⟨⟨hgens.1, ⟨?_, hgens.2.1.2⟩, ?_⟩, hseqs.1, ⟨?_, hseqs.2.1.2⟩, ?_⟩
      · rw [inserted_gen]
        exact hgens.2.1.1
      · intro i hi k hk
        obtain ⟨k', hk', hg, -⟩ := hmem i hi k hk
        exact hg ▸ hgens.2.2 i hi k' hk'
      · intro k hk x hx y hy
        obtain rfl | hx := mem_inserted hx
        · have hlt := hgens.2.1.1 k hk
          refine (hok k ?_ y hy).1 (gen_eq ▸ hlt)
          exact List.mem_append_right _ (List.mem_cons_of_mem _ hk)
        · exact hseqs.2.1.1 k hk x hx y hy
      · intro i hi k hk x hx y hy
        obtain ⟨k', hk', -, hentries⟩ := hmem i hi k hk
        obtain hy | ⟨rfl, rfl⟩ := hentries y hy
        · exact hseqs.2.2 i hi k' hk' x hx y hy
        · have hlt := hgens.2.2 i hi k' List.mem_cons_self
          exact (hok i (List.mem_append_left _ hi) x hx).2 (gen_eq ▸ hlt)
    | first none_active eq =>
      rw [eq, h.idle part none_active]
      exact ⟨List.pairwise_singleton _ _, List.pairwise_singleton _ _⟩
    | second a l active before absent eq =>
      rw [insert_of_absent active absent]
      exact ⟨h.gens part, h.seqs part⟩
    | dropped active absent eq =>
      rw [eq]
      exact ⟨h.gens part, h.seqs part⟩
  refine ⟨?_, sorted_insert h.sorted, filtered_insert h.filtered, ?_, ?_⟩
  · intro p hp
    obtain ⟨hnone, hne⟩ := hactive p hp
    rw [hother p hne]
    exact h.idle p hnone
  · intro p
    cases eq_or_ne p part with
    | inl hp => exact hp ▸ hchain.1
    | inr hp => exact hother p hp ▸ h.gens p
  · intro p
    cases eq_or_ne p part with
    | inl hp => exact hp ▸ hchain.2
    | inr hp => exact hother p hp ▸ h.seqs p

theorem ranked_freeze (h : Ranked ucmp s) {newGen : ℕ} (hok : StepOk s (.freeze part newGen)) :
    Ranked ucmp (s.freeze part newGen) := by
  obtain ⟨⟨rest, hchain, hrest⟩, hother⟩ := chain_freeze s part newGen
  have hsub : rest.Sublist (s.chain part) := by
    obtain rfl | ⟨a, -, -, ha⟩ := hrest
    · exact List.Sublist.refl _
    · rw [ha]
      exact List.sublist_cons_self a rest
  have hnew : ∀ i ∈ s.chain part, i.gen < newGen := by
    cases ha : s.active.lookup part with
    | none =>
      rw [h.idle part ha]
      exact fun i hi => absurd hi List.not_mem_nil
    | some a =>
      have heq : newGen = a.gen + 1 := hok a.gen (by rw [activeGen?, ha]; rfl)
      have hgens := h.gens part
      rw [chain_of_active ha] at hgens ⊢
      intro i hi
      obtain rfl | hi := List.mem_cons.mp hi
      · omega
      · have hlt := (List.pairwise_cons.mp hgens).1 i hi
        omega
  refine ⟨?_, ?_, filtered_freeze h.filtered newGen, ?_, ?_⟩
  · intro p hp
    rw [active_freeze] at hp
    split at hp
    next => cases hp
    next hne =>
      rw [hother p hne]
      exact h.idle p hp
  · intro p i hi
    cases eq_or_ne p part with
    | inl hp =>
      subst hp
      rw [hchain, List.mem_cons] at hi
      obtain rfl | hi := hi
      · exact List.Pairwise.nil
      · exact h.sorted p i (hsub.subset hi)
    | inr hp => exact h.sorted p i (hother p hp ▸ hi)
  · intro p
    cases eq_or_ne p part with
    | inl hp =>
      subst hp
      rw [hchain]
      exact List.pairwise_cons.mpr ⟨fun i hi => hnew i (hsub.subset hi), (h.gens p).sublist hsub⟩
    | inr hp => exact hother p hp ▸ h.gens p
  · intro p
    cases eq_or_ne p part with
    | inl hp =>
      subst hp
      rw [hchain]
      exact List.pairwise_cons.mpr ⟨fun i _ x hx => absurd hx List.not_mem_nil,
        (h.seqs p).sublist hsub⟩
    | inr hp => exact hother p hp ▸ h.seqs p

theorem ranked_releaseFrozen (h : Ranked ucmp s) : Ranked ucmp (s.releaseFrozen part gen) := by
  have hsub := chain_releaseFrozen_sublist s part gen
  refine ⟨?_, fun p i hi => h.sorted p i ((hsub p).subset hi), filtered_releaseFrozen h.filtered,
    fun p => (h.gens p).sublist (hsub p), fun p => (h.seqs p).sublist (hsub p)⟩
  intro p hp
  rw [active_releaseFrozen] at hp
  have hnil := hsub p
  rw [h.idle p hp] at hnil
  exact List.sublist_nil.mp hnil

theorem ranked_step (s : PartitionIndexSet) (op : IndexSetOp) (hok : StepOk s op)
    (h : Ranked ucmp s) : Ranked ucmp (step ucmp s op) := by
  cases op with
  | insert part gen e => exact ranked_insert h hok
  | freeze part newGen => exact ranked_freeze h hok
  | releaseFrozen part gen => exact ranked_releaseFrozen h

theorem ranked_empty : Ranked ucmp {} := by
  have hnil : ∀ p, ({} : PartitionIndexSet).chain p = [] := fun _ => rfl
  refine ⟨fun p _ => hnil p, ?_, ?_, ?_, ?_⟩
  · exact fun p i hi => absurd hi (hnil p ▸ List.not_mem_nil)
  · exact fun p i hi => absurd hi (hnil p ▸ List.not_mem_nil)
  · exact fun p => hnil p ▸ List.Pairwise.nil
  · exact fun p => hnil p ▸ List.Pairwise.nil

/-- After every run a lookup is exact if and only if the latest version of the key that the snapshot
may see was written with the bytes that are looked up. -/
theorem lookupExact_iff (ucmp : UserComparator) (ops : List IndexSetOp)
    (hok : Guarded (step ucmp) StepOk {} ops) (part : ℕ) (key : Bytes) (snapshot : ℕ) :
    LookupExact ucmp (run (step ucmp) {} ops) part key snapshot ↔
      ∀ e, Latest ucmp (live (run (step ucmp) {} ops) part) key snapshot e → e.userKey = key :=
  (invariant_run ranked_step ranked_empty hok).lookupExact_eq

def version (key : Bytes) (seq : ℕ) : IndexEntry := ⟨key, seq, kTypeValue, ⟨0, 0, 0⟩⟩

/-- Two generations of a key, and the release of the older one. -/
def overwritten : List IndexSetOp :=
  [.insert 0 0 (version [97] 1), .freeze 0 1, .insert 0 1 (version [97] 2), .releaseFrozen 0 0]

theorem lookupExact_overwritten :
    Guarded (step .bytewise) StepOk {} overwritten ∧
      LookupExact .bytewise (run (step .bytewise) {} overwritten) 0 [97] 2 := by
  have hok : Guarded (step .bytewise) StepOk {} overwritten := by decide +kernel
  refine ⟨hok, (lookupExact_iff .bytewise overwritten hok 0 [97] 2).mpr ?_⟩
  intro e he
  exact UserComparator.bytewise_distinguishesBytes _ _ (sameKey_iff.mp he.key_eq)

def lower (b : UInt8) : UInt8 := if 65 ≤ b ∧ b ≤ 90 then b + 32 else b

/-- A comparator for which upper and lower case are the same. -/
def ignoreCase : UserComparator where
  compare a b := UserComparator.bytewise.compare (a.map lower) (b.map lower)
  trans :=
    { eq_swap := Std.OrientedCmp.eq_swap
      isLE_trans := Std.TransCmp.isLE_trans }

/-- The later version has other bytes. -/
def rewritten : List IndexSetOp :=
  [.insert 0 0 (version [97] 1), .insert 0 0 (version [65] 2)]

/-- The lookup lands on the later version, takes it for another key and misses the first one. -/
theorem lookupExact_fails :
    (run (step ignoreCase) {} rewritten).get ignoreCase 0 [97] 2 = none ∧
      ¬ ∀ (ucmp : UserComparator) (ops : List IndexSetOp), Guarded (step ucmp) StepOk {} ops →
        ∀ (part : ℕ) (key : Bytes) (snapshot : ℕ),
          LookupExact ucmp (run (step ucmp) {} ops) part key snapshot := by
  have hmiss : (run (step ignoreCase) {} rewritten).get ignoreCase 0 [97] 2 = none := by
    decide +kernel
  refine ⟨hmiss, ?_⟩
  intro hall
  have hok : Guarded (step ignoreCase) StepOk {} rewritten := by decide +kernel
  have hlive : version [97] 1 ∈ live (run (step ignoreCase) {} rewritten) 0 := by decide +kernel
  have hseen := (hall ignoreCase rewritten hok 0 [97] 2).miss_iff.mp hmiss _ hlive
    (by decide +kernel)
  exact absurd hseen (by decide)

end ZeroFlush.ChainLookups
