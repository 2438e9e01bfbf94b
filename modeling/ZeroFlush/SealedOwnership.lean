import ZeroFlush.ReleasedIndexes

/-! # Who owns a sealed generation

A sealed generation belongs to one epoch, or it waits for one; what is queued for unlink belongs to
nobody. An epoch is forgotten only when nothing is left of it, because its references cover its
generations. -/
namespace ZeroFlush.SealedOwnership
open FiniteMaps WalFormat WalFiles PartitionedWal SealedFiles Context ContextRuns SealedEpochs
open ReleasedIndexes (Kept)

/-- The generations of an epoch, none if the epoch is unknown. -/
def ownedBy (c : SealedFileCache) (epoch : ℕ) : List FileId :=
  ((c.epochs.lookup epoch).map SealedEpoch.gens).getD []

variable {c c' : SealedFileCache} {epoch e : ℕ} {f : FileId} {gens : List FileId}

theorem mem_ownedBy : f ∈ ownedBy c e ↔ ∃ se, c.epochs.lookup e = some se ∧ f ∈ se.gens := by
  rw [ownedBy]
  cases c.epochs.lookup e with
  | none => simp
  | some se => simp

theorem kept_iff : Kept c f ↔ (∃ e, f ∈ ownedBy c e) ∨ f ∈ c.recoveryGens ∨ f ∈ c.skipGens := by
  rw [Kept]
  simp only [mem_ownedBy]

structure Owned (c : SealedFileCache) : Prop where
  distinct : ∀ e e' f, f ∈ ownedBy c e → f ∈ ownedBy c e' → e = e'
  apart : ∀ e f, f ∈ ownedBy c e → f ∉ c.recoveryGens ∧ f ∉ c.skipGens
  refs : ∀ e f, f ∈ ownedBy c e → ∃ refs, c.genRefs.lookup e = some refs ∧ refs.lookup f ≠ none
  unlinked : ∀ f ∈ c.pendingUnlink, ¬ Kept c f

/-- The references of an epoch are settled without losing a generation. -/
theorem ownedBy_settleEpoch {refs : Map FileId ℕ} (hrefs : ∀ f ∈ ownedBy c epoch, refs.lookup f ≠ none)
    (e : ℕ) : ownedBy (c.settleEpoch epoch refs) e = ownedBy c e := by
  rw [SealedFileCache.settleEpoch]
  split
  next hnil =>
    rw [ownedBy]
    dsimp only
    rw [lookup_erase_eq]
    split
    next he =>
      subst he
      refine (List.eq_nil_iff_forall_not_mem.mpr ?_).symm
      intro f hf
      have hkey : f ∈ refs := AList.lookup_isSome.mp (Option.isSome_iff_ne_none.mpr (hrefs f hf))
      rw [AList.mem_keys, hnil] at hkey
      cases hkey
    next => rfl
  next => rfl

theorem genRefs_settleEpoch_of_ne (refs : Map FileId ℕ) (he : e ≠ epoch) :
    (c.settleEpoch epoch refs).genRefs.lookup e = c.genRefs.lookup e := by
  rw [SealedFileCache.settleEpoch]
  split
  · exact (lookup_erase_eq _ _ _).trans (if_neg he)
  · exact (lookup_insert_eq _ _ _ _).trans (if_neg he)

/-- The settled references are those of the epoch as long as it owns something. -/
theorem genRefs_settleEpoch {refs : Map FileId ℕ} (hf : refs.lookup f ≠ none) :
    (c.settleEpoch epoch refs).genRefs.lookup epoch = some refs := by
  rw [SealedFileCache.settleEpoch, if_neg]
  · exact (lookup_insert_eq _ _ _ _).trans (if_pos rfl)
  · intro hnil
    have hkey : f ∈ refs := AList.lookup_isSome.mp (Option.isSome_iff_ne_none.mpr hf)
    rw [AList.mem_keys, hnil] at hkey
    cases hkey

theorem settleEpoch_rest (refs : Map FileId ℕ) :
    (c.settleEpoch epoch refs).recoveryGens = c.recoveryGens ∧
      (c.settleEpoch epoch refs).skipGens = c.skipGens ∧
      (c.settleEpoch epoch refs).pendingUnlink = c.pendingUnlink := by
  rw [SealedFileCache.settleEpoch]
  split <;> exact ⟨rfl, rfl, rfl⟩

/-- The loop of `ReleaseGens` between two states of the cache: what it queues for unlink was owned
by the epoch and is no longer. -/
structure Releases (epoch : ℕ) (c c' : SealedFileCache) : Prop where
  other : ∀ e ≠ epoch, ownedBy c' e = ownedBy c e ∧ c'.genRefs.lookup e = c.genRefs.lookup e
  own : ownedBy c' epoch ⊆ ownedBy c epoch
  refs : ∀ f ∈ ownedBy c' epoch, ∃ refs, c'.genRefs.lookup epoch = some refs ∧ refs.lookup f ≠ none
  unlinked : ∀ f ∈ c'.pendingUnlink, f ∈ c.pendingUnlink ∨ f ∈ ownedBy c epoch ∧ f ∉ ownedBy c' epoch
  recovery_eq : c'.recoveryGens = c.recoveryGens
  skip_eq : c'.skipGens = c.skipGens

/-- The generations of the epochs after one of them has lost a generation. -/
theorem ownedBy_of_filtered {d : SealedFileCache}
    (hd : d.epochs = match c.epochs.lookup epoch with
      | none => c.epochs
      | some e => c.epochs.insert epoch { e with gens := e.gens.filter (· ≠ f) }) (e : ℕ) :
    ownedBy d e = if e = epoch then (ownedBy c epoch).filter (· ≠ f) else ownedBy c e := by
  rw [ownedBy, ownedBy, ownedBy, hd]
  cases he : c.epochs.lookup epoch with
  | none =>
    dsimp only
    split
    next heq => rw [heq, he]; rfl
    next => rfl
  | some se =>
    dsimp only
    rw [lookup_insert_eq]
    split <;> rfl

theorem releases_releaseGen (h : Releases epoch c c') (hf : f ∈ ownedBy c epoch) :
    Releases epoch c (c'.releaseGen epoch f) := by
  rw [SealedFileCache.releaseGen]
  split
  · exact h
  next n hn =>
    obtain ⟨refs, hrefs, hlookup⟩ := Option.bind_eq_some_iff.mp hn
    rw [hrefs, Option.getD_some]
    dsimp only
    split
    · -- another reference is left
      refine ⟨?_, h.own, ?_, h.unlinked, h.recovery_eq, h.skip_eq⟩
      · intro e he
        exact ⟨(h.other e he).1, ((lookup_insert_eq _ _ _ _).trans (if_neg he)).trans (h.other e he).2⟩
      · intro g hg
        refine ⟨_, (lookup_insert_eq _ _ _ _).trans (if_pos rfl), ?_⟩
        rw [lookup_insert_eq]
        split
        · simp
        · obtain ⟨refs', hrefs', hlook⟩ := h.refs g hg
          obtain rfl : refs' = refs := Option.some.inj (hrefs'.symm.trans hrefs)
          exact hlook
    · have howned := fun d hd => @ownedBy_of_filtered c' epoch f d hd
      refine ⟨?_, ?_, ?_, ?_, h.recovery_eq, h.skip_eq⟩
      · intro e he
        rw [howned _ rfl, if_neg he]
        exact ⟨(h.other e he).1, ((lookup_insert_eq _ _ _ _).trans (if_neg he)).trans (h.other e he).2⟩
      · rw [howned _ rfl, if_pos rfl]
        exact List.Subset.trans (List.filter_subset_self _) h.own
      · intro g hg
        rw [howned _ rfl, if_pos rfl, List.mem_filter, decide_eq_true_iff] at hg
        obtain ⟨refs', hrefs', hlook⟩ := h.refs g hg.1
        obtain rfl : refs' = refs := Option.some.inj (hrefs'.symm.trans hrefs)
        refine ⟨_, (lookup_insert_eq _ _ _ _).trans (if_pos rfl), ?_⟩
        rw [lookup_erase_eq, if_neg hg.2]
        exact hlook
      · intro g hg
        have hcases : g ∈ c'.pendingUnlink ∨ g = f := by
          dsimp only at hg
          split at hg
          · rwa [List.mem_append, List.mem_singleton] at hg
          · exact .inl hg
        obtain hg | rfl := hcases
        · refine (h.unlinked g hg).imp_right fun hg' => ⟨hg'.1, fun hmem => hg'.2 ?_⟩
          rw [howned _ rfl, if_pos rfl, List.mem_filter] at hmem
          exact hmem.1
        · refine .inr ⟨hf, fun hmem => ?_⟩
          rw [howned _ rfl, if_pos rfl, List.mem_filter, decide_eq_true_iff] at hmem
          exact hmem.2 rfl

theorem releases_releaseEpoch (h : Owned c) (epoch : ℕ) : Releases epoch c (c.releaseEpoch epoch) := by
  have hrefl : Releases epoch c c :=
    ⟨fun _ _ => ⟨rfl, rfl⟩, List.Subset.refl _, h.refs epoch, fun f hf => .inl hf, rfl, rfl⟩
  rw [SealedFileCache.releaseEpoch, SealedFileCache.releaseGens]
  split
  · exact hrefl
  · split
    · exact hrefl
    · have hloop : Releases epoch c ((ownedBy c epoch).foldl (SealedFileCache.releaseGen epoch) c) := by
        refine List.foldlRecOn (motive := fun d : SealedFileCache => Releases epoch c d) _ _ hrefl ?_
        exact fun d hd f hf => releases_releaseGen hd hf
      have heq : ((c.getEpoch epoch).map SealedEpoch.gens).getD [] = ownedBy c epoch := rfl
      rw [heq]
      dsimp only
      generalize (ownedBy c epoch).foldl (SealedFileCache.releaseGen epoch) c = d at hloop
      have hcover : ∀ f ∈ ownedBy d epoch, ((d.genRefs.lookup epoch).getD ∅).lookup f ≠ none := by
        intro f hf
        obtain ⟨refs, hrefs, hlook⟩ := hloop.refs f hf
        rw [hrefs]
        exact hlook
      have howned := ownedBy_settleEpoch hcover
      obtain ⟨hrec, hskip, hpend⟩ := @settleEpoch_rest d epoch ((d.genRefs.lookup epoch).getD ∅)
      refine ⟨?_, ?_, ?_, ?_, hrec.trans hloop.recovery_eq, hskip.trans hloop.skip_eq⟩
      · intro e he
        rw [howned, genRefs_settleEpoch_of_ne _ he]
        exact hloop.other e he
      · rw [howned]
        exact hloop.own
      · intro f hf
        rw [howned] at hf
        exact ⟨_, genRefs_settleEpoch (hcover f hf), hcover f hf⟩
      · intro f hf
        rw [hpend] at hf
        rw [howned]
        exact hloop.unlinked f hf

theorem owned_releaseEpoch (h : Owned c) (epoch : ℕ) : Owned (c.releaseEpoch epoch) := by
  have hrel := releases_releaseEpoch h epoch
  have hsub : ∀ e, ownedBy (c.releaseEpoch epoch) e ⊆ ownedBy c e := by
    intro e
    cases eq_or_ne e epoch with
    | inl he => exact he ▸ hrel.own
    | inr he =>
      rw [(hrel.other e he).1]
      exact List.Subset.refl _
  refine ⟨fun e e' f hf hf' => h.distinct e e' f (hsub e hf) (hsub e' hf'), ?_, ?_, ?_⟩
  · intro e f hf
    rw [hrel.recovery_eq, hrel.skip_eq]
    exact h.apart e f (hsub e hf)
  · intro e f hf
    cases eq_or_ne e epoch with
    | inl he =>
      subst he
      exact hrel.refs f hf
    | inr he =>
      rw [(hrel.other e he).2]
      exact h.refs e f (hsub e hf)
  · intro f hf hkept
    rw [kept_iff, hrel.recovery_eq, hrel.skip_eq] at hkept
    obtain hold | ⟨howned, hnot⟩ := hrel.unlinked f hf
    · refine h.unlinked f hold (kept_iff.mpr (hkept.imp_left ?_))
      rintro ⟨e, he⟩
      exact ⟨e, hsub e he⟩
    · obtain ⟨e, he⟩ | hwait := hkept
      · obtain rfl := h.distinct e epoch f (hsub e he) howned
        exact hnot he
      · obtain ⟨hr, hs⟩ := h.apart epoch f howned
        exact hwait.elim hr hs

theorem lookup_eraseAll (refs : Map FileId ℕ) (gens : List FileId) (f : FileId) :
    (gens.foldl (fun r f => r.erase f) refs).lookup f = if f ∈ gens then none else refs.lookup f := by
  induction gens generalizing refs with
  | nil => simp
  | cons g gens ih =>
    rw [List.foldl_cons, ih, lookup_erase_eq]
    cases eq_or_ne f g with
    | inl he => simp [he]
    | inr he => simp [he]

theorem lookup_insertAll (refs : Map FileId ℕ) {gens : List FileId} {f : FileId} (hf : f ∈ gens) :
    (gens.foldl (fun r f => r.insert f 1) refs).lookup f ≠ none := by
  have hkeep : ∀ (gens : List FileId) (refs : Map FileId ℕ), refs.lookup f ≠ none →
      (gens.foldl (fun r f => r.insert f 1) refs).lookup f ≠ none := by
    intro gens refs hrefs
    refine List.foldlRecOn (motive := fun r : Map FileId ℕ => r.lookup f ≠ none) _ _ hrefs ?_
    intro r hr g _
    rw [lookup_insert_eq]
    split
    · simp
    · exact hr
  induction gens generalizing refs with
  | nil => cases hf
  | cons g gens ih =>
    obtain rfl | hf := List.mem_cons.mp hf
    · refine hkeep gens (refs.insert f 1) ?_
      rw [lookup_insert_eq, if_pos rfl]
      simp
    · exact ih _ hf

/-- What a hand-off moves: the generations leave their epoch and wait. -/
structure HandsOff (epoch : ℕ) (gens : List FileId) (c c' : SealedFileCache) : Prop where
  other : ∀ e ≠ epoch, ownedBy c' e = ownedBy c e ∧ c'.genRefs.lookup e = c.genRefs.lookup e
  own : ∀ f, f ∈ ownedBy c' epoch ↔ f ∈ ownedBy c epoch ∧ f ∉ gens
  refs : ∀ f ∈ ownedBy c' epoch, ∃ refs, c'.genRefs.lookup epoch = some refs ∧ refs.lookup f ≠ none
  unlinked_eq : c'.pendingUnlink = c.pendingUnlink
  recovery_eq : c'.recoveryGens = c.recoveryGens
  skip : ∀ f, f ∈ c'.skipGens ↔ f ∈ c.skipGens ∨ f ∈ gens

/-- The first step of a hand-off: the generations leave the entry of their epoch. -/
def dropGens (c : SealedFileCache) (epoch : ℕ) (gens : List FileId) : SealedFileCache :=
  match c.epochs.lookup epoch with
  | none => c
  | some e => { c with epochs := c.epochs.insert epoch (SealedFileCache.dropSkipped e gens) }

/-- The second step: they wait for the next epoch. -/
def awaitGens (c : SealedFileCache) (gens : List FileId) (partBytes : Map ℕ ℕ) : SealedFileCache :=
  { c with
    skipGens := emplaceAll c.skipGens gens
    skipPartBytes := addCounts c.skipPartBytes partBytes
    skipBytes := c.skipBytes + (partBytes.entries.map fun e => e.2).sum }

theorem handOff_eq (c : SealedFileCache) (epoch : ℕ) (gens : List FileId) (partBytes : Map ℕ ℕ) :
    c.handOffSkippedToRecovery epoch gens partBytes =
      match c.genRefs.lookup epoch with
      | none => awaitGens (dropGens c epoch gens) gens partBytes
      | some refs => (awaitGens (dropGens c epoch gens) gens partBytes).settleEpoch epoch
          (gens.foldl (fun r f => r.erase f) refs) := by
  have hrefs : (dropGens c epoch gens).genRefs = c.genRefs := by
    rw [dropGens]
    split <;> rfl
  rw [← hrefs]
  rfl

theorem dropGens_spec (c : SealedFileCache) (epoch : ℕ) (gens : List FileId) :
    (∀ e ≠ epoch, ownedBy (dropGens c epoch gens) e = ownedBy c e) ∧
      (∀ f, f ∈ ownedBy (dropGens c epoch gens) epoch ↔ f ∈ ownedBy c epoch ∧ f ∉ gens) ∧
      (dropGens c epoch gens).genRefs = c.genRefs ∧
      (dropGens c epoch gens).pendingUnlink = c.pendingUnlink ∧
      (dropGens c epoch gens).recoveryGens = c.recoveryGens ∧
      (dropGens c epoch gens).skipGens = c.skipGens := by
  rw [dropGens]
  cases he : c.epochs.lookup epoch with
  | none =>
    refine ⟨fun _ _ => rfl, ?_, rfl, rfl, rfl, rfl⟩
    intro f
    simp [ownedBy, he]
  | some se =>
    refine ⟨?_, ?_, rfl, rfl, rfl, rfl⟩
    · intro e hne
      rw [ownedBy]
      dsimp only
      rw [lookup_insert_eq, if_neg hne]
      rfl
    · intro f
      rw [ownedBy, ownedBy, he]
      dsimp only
      rw [lookup_insert_eq, if_pos rfl, Option.map_some, Option.getD_some, Option.map_some,
        Option.getD_some, (dropSkipped_spec se gens).2, List.mem_filter, decide_eq_true_iff]

theorem handsOff_handOff (h : Owned c) (epoch : ℕ) (gens : List FileId) (partBytes : Map ℕ ℕ) :
    HandsOff epoch gens c (c.handOffSkippedToRecovery epoch gens partBytes) := by
  obtain ⟨hother, hown, hrefs, hpend, hrec, hskip⟩ := dropGens_spec c epoch gens
  generalize hd : awaitGens (dropGens c epoch gens) gens partBytes = d
  have howned : ∀ e, ownedBy d e = ownedBy (dropGens c epoch gens) e := by
    intro e
    rw [← hd]
    rfl
  have hrefs : d.genRefs = c.genRefs := hd ▸ hrefs
  have hpend : d.pendingUnlink = c.pendingUnlink := hd ▸ hpend
  have hrec : d.recoveryGens = c.recoveryGens := hd ▸ hrec
  have hwait : ∀ f, f ∈ d.skipGens ↔ f ∈ c.skipGens ∨ f ∈ gens := by
    intro f
    rw [← hd, awaitGens]
    dsimp only
    rw [mem_emplaceAll, hskip]
  rw [handOff_eq, hd]
  cases hl : c.genRefs.lookup epoch with
  | none =>
    refine ⟨?_, fun f => (howned epoch).symm ▸ hown f, ?_, hpend, hrec, hwait⟩
    · intro e he
      exact ⟨(howned e).trans (hother e he), by rw [hrefs]⟩
    · intro f hf
      rw [howned] at hf
      obtain ⟨refs, hlookup, -⟩ := h.refs epoch f ((hown f).mp hf).1
      rw [hl] at hlookup
      cases hlookup
  | some refs =>
    have hcover : ∀ f ∈ ownedBy d epoch,
        (gens.foldl (fun r f => r.erase f) refs).lookup f ≠ none := by
      intro f hf
      rw [howned] at hf
      obtain ⟨hold, hnot⟩ := (hown f).mp hf
      obtain ⟨refs', hrefs', hlook⟩ := h.refs epoch f hold
      obtain rfl : refs' = refs := Option.some.inj (hrefs'.symm.trans hl)
      rw [lookup_eraseAll, if_neg hnot]
      exact hlook
    have hsettled := ownedBy_settleEpoch hcover
    obtain ⟨hrec', hskip', hpend'⟩ :=
      @settleEpoch_rest d epoch (gens.foldl (fun r f => r.erase f) refs)
    refine ⟨?_, ?_, ?_, hpend'.trans hpend, hrec'.trans hrec, fun f => hskip' ▸ hwait f⟩
    · intro e he
      rw [hsettled, howned, genRefs_settleEpoch_of_ne _ he, hrefs]
      exact ⟨hother e he, rfl⟩
    · intro f
      rw [hsettled, howned]
      exact hown f
    · intro f hf
      rw [hsettled] at hf
      exact ⟨_, genRefs_settleEpoch (hcover f hf), hcover f hf⟩

theorem owned_handOff (h : Owned c) (hsub : ∀ f ∈ gens, f ∈ ownedBy c epoch)
    (partBytes : Map ℕ ℕ) : Owned (c.handOffSkippedToRecovery epoch gens partBytes) := by
  have hoff := handsOff_handOff h epoch gens partBytes
  have howned : ∀ e f, f ∈ ownedBy (c.handOffSkippedToRecovery epoch gens partBytes) e →
      f ∈ ownedBy c e ∧ f ∉ gens := by
    intro e f hf
    cases eq_or_ne e epoch with
    | inl he =>
      subst he
      exact (hoff.own f).mp hf
    | inr he =>
      rw [(hoff.other e he).1] at hf
      exact ⟨hf, fun hg => he (h.distinct e epoch f hf (hsub f hg))⟩
  refine ⟨fun e e' f hf hf' => h.distinct e e' f (howned e f hf).1 (howned e' f hf').1, ?_, ?_, ?_⟩
  · intro e f hf
    obtain ⟨hold, hnot⟩ := howned e f hf
    obtain ⟨hr, hs⟩ := h.apart e f hold
    rw [hoff.recovery_eq, hoff.skip f]
    exact ⟨hr, fun hor => hor.elim hs hnot⟩
  · intro e f hf
    cases eq_or_ne e epoch with
    | inl he =>
      subst he
      exact hoff.refs f hf
    | inr he =>
      rw [(hoff.other e he).2]
      exact h.refs e f (howned e f hf).1
  · intro f hf hkept
    rw [hoff.unlinked_eq] at hf
    refine h.unlinked f hf (kept_iff.mpr ?_)
    rw [kept_iff, hoff.recovery_eq, hoff.skip f] at hkept
    obtain ⟨e, he⟩ | hr | hs | hg := hkept
    · exact .inl ⟨e, (howned e f he).1⟩
    · exact .inr (.inl hr)
    · exact .inr (.inr hs)
    · exact .inl ⟨epoch, hsub f hg⟩

/-- A hand-off keeps every generation in the cache. -/
theorem kept_handOff (h : Owned c) (epoch : ℕ) (gens : List FileId) (partBytes : Map ℕ ℕ)
    (hf : Kept c f) : Kept (c.handOffSkippedToRecovery epoch gens partBytes) f := by
  have hoff := handsOff_handOff h epoch gens partBytes
  rw [kept_iff] at hf ⊢
  rw [hoff.recovery_eq, hoff.skip f]
  obtain ⟨e, he⟩ | hr | hs := hf
  · cases eq_or_ne e epoch with
    | inr hne => exact .inl ⟨e, (hoff.other e hne).1 ▸ he⟩
    | inl heq =>
      subst heq
      rcases Classical.em (f ∈ gens) with hg | hg
      · exact .inr (.inr (.inr hg))
      · exact .inl ⟨e, (hoff.own f).mpr ⟨he, hg⟩⟩
  · exact .inr (.inl hr)
  · exact .inr (.inr (.inl hs))

/-- A new epoch owns its own generations and those that waited. -/
theorem ownedBy_addEpoch {se : SealedEpoch} (hnew : c.epochs.lookup se.epoch = none) (e : ℕ)
    (f : FileId) : f ∈ ownedBy (c.addEpochWithRecoveryAdoption se) e ↔
      if e = se.epoch then f ∈ se.gens ∨ f ∈ c.recoveryGens ∨ f ∈ c.skipGens
      else f ∈ ownedBy c e := by
  obtain ⟨merged, hepochs, -, hgens, -, -⟩ := addEpoch_spec hnew
  rw [ownedBy, hepochs, lookup_insert_eq]
  split
  · exact hgens f
  · exact Iff.rfl

theorem owned_addEpoch (h : Owned c) {se : SealedEpoch} (hnew : c.epochs.lookup se.epoch = none)
    (hfresh : ∀ f ∈ se.gens, ¬ Kept c f ∧ f ∉ c.pendingUnlink) :
    Owned (c.addEpochWithRecoveryAdoption se) := by
  obtain ⟨-, -, -, -, hrec, hskip⟩ := addEpoch_spec hnew
  have howned := fun e f => ownedBy_addEpoch (c := c) hnew e f
  have hdisjoint : ∀ e f, f ∈ ownedBy c e →
      ¬ (f ∈ se.gens ∨ f ∈ c.recoveryGens ∨ f ∈ c.skipGens) := by
    intro e f hf hor
    obtain ⟨hr, hs⟩ := h.apart e f hf
    obtain hg | hwait := hor
    · exact (hfresh f hg).1 (kept_iff.mpr (.inl ⟨e, hf⟩))
    · exact hwait.elim hr hs
  have hpend : (c.addEpochWithRecoveryAdoption se).pendingUnlink = c.pendingUnlink := by
    rw [SealedFileCache.addEpochWithRecoveryAdoption, hnew]
  refine ⟨?_, ?_, ?_, ?_⟩
  · intro e e' f hf hf'
    rw [howned] at hf hf'
    split at hf
    next he =>
      split at hf'
      next he' => rw [he, he']
      next => exact absurd hf (hdisjoint e' f hf')
    next =>
      split at hf'
      next => exact absurd hf' (hdisjoint e f hf)
      next => exact h.distinct e e' f hf hf'
  · intro e f _
    rw [hrec, hskip]
    exact ⟨List.not_mem_nil, List.not_mem_nil⟩
  · intro e f hf
    obtain ⟨owner, hse, hmem⟩ := mem_ownedBy.mp hf
    rw [SealedFileCache.addEpochWithRecoveryAdoption, hnew] at hse ⊢
    dsimp only at hse ⊢
    rw [SealedFileCache.epoch_adoptSkips, SealedFileCache.epoch_adoptRecovery,
      lookup_insert_eq] at hse ⊢
    split at hse
    next he =>
      cases hse
      exact ⟨_, if_pos he, lookup_insertAll _ hmem⟩
    next he =>
      rw [if_neg he]
      exact h.refs e f (mem_ownedBy.mpr ⟨owner, hse, hmem⟩)
  · intro f hf hkept
    rw [hpend] at hf
    rw [kept_iff, hrec, hskip] at hkept
    obtain ⟨e, he⟩ := hkept.resolve_right fun h => h.elim List.not_mem_nil List.not_mem_nil
    rw [howned] at he
    split at he
    next =>
      obtain hg | hwait := he
      · exact (hfresh f hg).2 hf
      · exact h.unlinked f hf (kept_iff.mpr (.inr hwait))
    next => exact h.unlinked f hf (kept_iff.mpr (.inl ⟨e, he⟩))

theorem owned_purgePending (h : Owned c) (env : Env) : Owned (c.purgePending env).1 :=
  ⟨h.distinct, h.apart, h.refs, fun _ hf => absurd hf List.not_mem_nil⟩

end ZeroFlush.SealedOwnership
