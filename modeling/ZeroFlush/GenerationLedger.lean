import ZeroFlush.GuardedRuns
import ZeroFlush.SealedOwnership

/-! # Where a sealed generation is

A sealed generation is in an epoch, waits for one in the recovery or the skip set, or has been
released; its file is queued for unlink at most once. -/
namespace ZeroFlush.GenerationLedger
open FiniteMaps WalFormat WalFiles SealedFiles SealedEpochs SealedOwnership GuardedRuns
open ReleasedIndexes (Kept)

inductive CacheOp
  | addRecoveryGens (gens : List FileId) (totalBytes : ℕ)
  | addEpochWithRecoveryAdoption (e : SealedEpoch)
  | handOffSkippedToRecovery (epoch : ℕ) (gens : List FileId) (partBytes : Map ℕ ℕ)
  | releaseEpoch (epoch : ℕ)
  | purgePending

/-- The cache and the directory, with all generations that were sealed, that were released, and
whose files were ever queued for unlink. -/
structure Ledger where
  env : Env
  cache : SealedFileCache
  sealedGens : List FileId := []
  released : List FileId := []
  queued : List FileId := []

namespace Ledger

def start (env : Env) (reclaimEnabled : Bool) : Ledger :=
  { env := env, cache := { reclaimEnabled := reclaimEnabled } }

def step (s : Ledger) : CacheOp → Ledger
  | .addRecoveryGens gens totalBytes =>
    { s with cache := s.cache.addRecoveryGens gens totalBytes, sealedGens := s.sealedGens ++ gens }
  | .addEpochWithRecoveryAdoption e =>
    { s with
      cache := s.cache.addEpochWithRecoveryAdoption e
      sealedGens := s.sealedGens ++ e.gens }
  | .handOffSkippedToRecovery epoch gens partBytes =>
    { s with cache := s.cache.handOffSkippedToRecovery epoch gens partBytes }
  | .releaseEpoch epoch =>
    let cache := s.cache.releaseEpoch epoch
    { s with
      cache := cache
      released := s.released ++ ownedBy s.cache epoch
      queued := s.queued ++ cache.pendingUnlink.drop s.cache.pendingUnlink.length }
  | .purgePending =>
    let done := s.cache.purgePending s.env
    { s with cache := done.1, env := done.2 }

end Ledger

/-- The protocol of the callers: a generation is sealed once, an epoch is registered once, and what
is handed off is in its epoch. -/
def Conforms (s : Ledger) : CacheOp → Prop
  | .addRecoveryGens gens _ => ∀ f ∈ gens, f ∉ s.sealedGens
  | .addEpochWithRecoveryAdoption e =>
    s.cache.epochs.lookup e.epoch = none ∧ ∀ f ∈ e.gens, f ∉ s.sealedGens
  | .handOffSkippedToRecovery epoch gens _ => ∀ f ∈ gens, f ∈ ownedBy s.cache epoch
  | .releaseEpoch _ | .purgePending => True

instance decidableConforms (s : Ledger) : (op : CacheOp) → Decidable (Conforms s op)
  | .addRecoveryGens gens _ => inferInstanceAs (Decidable (∀ f ∈ gens, f ∉ s.sealedGens))
  | .addEpochWithRecoveryAdoption e =>
    have : Decidable (s.cache.epochs.lookup e.epoch = none) :=
      Option.decidableEqNone _
    inferInstanceAs (Decidable (s.cache.epochs.lookup e.epoch = none ∧ ∀ f ∈ e.gens, f ∉ s.sealedGens))
  | .handOffSkippedToRecovery epoch gens _ =>
    inferInstanceAs (Decidable (∀ f ∈ gens, f ∈ ownedBy s.cache epoch))
  | .releaseEpoch _ | .purgePending => .isTrue trivial

inductive Place
  | epoch (e : ℕ)
  | recovery
  | skip
  | released
  deriving DecidableEq, Repr

/-- The generation is in this place. -/
def At (s : Ledger) (f : FileId) : Place → Prop
  | .epoch e => f ∈ ownedBy s.cache e
  | .recovery => f ∈ s.cache.recoveryGens
  | .skip => f ∈ s.cache.skipGens
  | .released => f ∈ s.released

/-- `SealedFileCache::Get`; `opens`: a handle is cached or the file can be opened. -/
def getSealed (c : SealedFileCache) (opens : FileId → Bool) (f : FileId) : Except Status FileId :=
  if c.readable f then
    if opens f then .ok f else .error (.ioError "ZF sealed file missing")
  else .error .notFound

/-- Every sealed generation is in one place, and its place decides about reads and the unlink. -/
structure SingleOwner (s : Ledger) : Prop where
  one_place : ∀ f ∈ s.sealedGens, ∃! p, At s f p
  sealed_of_at : ∀ f p, At s f p → f ∈ s.sealedGens
  get_ok : ∀ opens f, getSealed s.cache opens f = .ok f ↔
    opens f = true ∧ ∃ p, p ≠ .released ∧ At s f p
  queued_once : s.queued.Nodup
  queued_released : ∀ f ∈ s.queued, At s f .released ∧ ∀ p, p ≠ .released → ¬ At s f p
  pending_queued : s.cache.pendingUnlink ⊆ s.queued

/-- Every reference count of the cache is one. -/
def Counted (c : SealedFileCache) : Prop :=
  ∀ e refs f n, c.genRefs.lookup e = some refs → refs.lookup f = some n → n = 1

/-- The waiting sets have nothing in common, and what is sealed is in the cache or released. -/
structure Balanced (s : Ledger) : Prop where
  owned : Owned s.cache
  counted : Counted s.cache
  waiting : ∀ f ∈ s.cache.recoveryGens, f ∉ s.cache.skipGens
  placed : ∀ f, f ∈ s.sealedGens ↔ Kept s.cache f ∨ f ∈ s.released
  gone : ∀ f ∈ s.released, ¬ Kept s.cache f
  queued_once : s.queued.Nodup
  queued_released : s.queued ⊆ s.released
  pending_queued : s.cache.pendingUnlink ⊆ s.queued

variable {s : Ledger} {c d : SealedFileCache} {epoch : ℕ} {f : FileId} {gens : List FileId}

theorem at_iff_kept : (∃ p, p ≠ .released ∧ At s f p) ↔ Kept s.cache f := by
  rw [kept_iff]
  constructor
  · rintro ⟨p, hp, hat⟩
    cases p with
    | epoch e => exact .inl ⟨e, hat⟩
    | recovery => exact .inr (.inl hat)
    | skip => exact .inr (.inr hat)
    | released => exact absurd rfl hp
  · rintro (⟨e, he⟩ | hr | hs)
    · exact ⟨.epoch e, by simp, he⟩
    · exact ⟨.recovery, by simp, hr⟩
    · exact ⟨.skip, by simp, hs⟩

theorem readable_iff_kept : c.readable f = true ↔ Kept c f := by
  rw [SealedFileCache.readable, kept_iff]
  simp only [Bool.or_eq_true, decide_eq_true_iff, List.any_eq_true]
  constructor
  · rintro ((hr | hs) | ⟨⟨e, se⟩, hmem, hf⟩)
    · exact .inr (.inl hr)
    · exact .inr (.inr hs)
    · exact .inl ⟨e, mem_ownedBy.mpr ⟨se, AList.mem_lookup_iff.mpr hmem, hf⟩⟩
  · rintro (⟨e, he⟩ | hr | hs)
    · obtain ⟨se, hse, hf⟩ := mem_ownedBy.mp he
      exact .inr ⟨⟨e, se⟩, AList.mem_lookup_iff.mp hse, hf⟩
    · exact .inl (.inl hr)
    · exact .inl (.inr hs)

theorem getSealed_ok {opens : FileId → Bool} :
    getSealed c opens f = .ok f ↔ opens f = true ∧ Kept c f := by
  rw [getSealed, ← readable_iff_kept]
  cases c.readable f <;> cases opens f <;> simp

theorem Balanced.singleOwner (h : Balanced s) : SingleOwner s := by
  refine ⟨?_, ?_, ?_, h.queued_once, ?_, h.pending_queued⟩
  · intro f hf
    have hapart : ∀ p, p ≠ .released → At s f p → f ∉ s.released := by
      intro p hp hat hrel
      exact h.gone f hrel (at_iff_kept.mp ⟨p, hp, hat⟩)
    have hunique : ∀ p q, At s f p → At s f q → p = q := by
      intro p q hp hq
      cases p with
      | epoch e =>
        obtain ⟨hr, hs⟩ := h.owned.apart e f hp
        cases q with
        | epoch e' => exact congrArg _ (h.owned.distinct e e' f hp hq)
        | recovery => exact absurd hq hr
        | skip => exact absurd hq hs
        | released => exact absurd hq (hapart _ (by simp) hp)
      | recovery =>
        cases q with
        | epoch e => exact absurd hp (h.owned.apart e f hq).1
        | recovery => rfl
        | skip => exact absurd hq (h.waiting f hp)
        | released => exact absurd hq (hapart .recovery (by simp) hp)
      | skip =>
        cases q with
        | epoch e => exact absurd hp (h.owned.apart e f hq).2
        | recovery => exact absurd hp (h.waiting f hq)
        | skip => rfl
        | released => exact absurd hq (hapart .skip (by simp) hp)
      | released =>
        cases q with
        | released => rfl
        | epoch e => exact absurd hp (hapart (.epoch e) (by simp) hq)
        | recovery => exact absurd hp (hapart .recovery (by simp) hq)
        | skip => exact absurd hp (hapart .skip (by simp) hq)
    obtain hkept | hrel := (h.placed f).mp hf
    · obtain ⟨p, -, hat⟩ := at_iff_kept.mpr hkept
      exact ⟨p, hat, fun q hq => hunique q p hq hat⟩
    · exact ⟨.released, hrel, fun q hq => hunique q .released hq hrel⟩
  · intro f p hat
    refine (h.placed f).mpr ?_
    cases eq_or_ne p .released with
    | inl hp =>
      subst hp
      exact .inr hat
    | inr hp => exact .inl (at_iff_kept.mp ⟨p, hp, hat⟩)
  · intro opens f
    rw [getSealed_ok, at_iff_kept]
  · intro f hf
    have hrel := h.queued_released hf
    exact ⟨hrel, fun p hp hat => h.gone f hrel (at_iff_kept.mp ⟨p, hp, hat⟩)⟩

/-- The loop of `ReleaseGens` over some generations of an epoch, each with one reference. -/
structure Drains (epoch : ℕ) (c : SealedFileCache) (done : List FileId) (d : SealedFileCache) :
    Prop where
  releases : Releases epoch c d
  counted : Counted d
  taken : ∀ f ∈ done, f ∉ ownedBy d epoch
  queue : ∃ new, d.pendingUnlink = c.pendingUnlink ++ new ∧ new.Nodup ∧ new ⊆ ownedBy c epoch ∧
    ∀ f ∈ new, ∀ refs, d.genRefs.lookup epoch = some refs → refs.lookup f = none

theorem drains_releaseGen {done : List FileId} (h : Drains epoch c done d)
    (hf : f ∈ ownedBy c epoch) : Drains epoch c (f :: done) (d.releaseGen epoch f) := by
  have hrel := releases_releaseGen h.releases hf
  cases hbind : (d.genRefs.lookup epoch).bind (·.lookup f) with
  | none =>
    have heq : d.releaseGen epoch f = d := by rw [SealedFileCache.releaseGen, hbind]
    rw [heq]
    refine ⟨h.releases, h.counted, ?_, h.queue⟩
    intro g hg hmem
    obtain rfl | hg := List.mem_cons.mp hg
    · obtain ⟨refs, hrefs, hlook⟩ := h.releases.refs g hmem
      rw [hrefs, Option.bind_some] at hbind
      exact hlook hbind
    · exact h.taken g hg hmem
  | some n =>
    obtain ⟨refs, hrefs, hlookup⟩ := Option.bind_eq_some_iff.mp hbind
    obtain rfl := h.counted epoch refs f n hrefs hlookup
    obtain ⟨new, hpend, hnodup, hsub, hcleared⟩ := h.queue
    have hfresh : f ∉ new := by
      intro hmem
      have hnone := hcleared f hmem refs hrefs
      rw [hlookup] at hnone
      cases hnone
    rw [SealedFileCache.releaseGen, hbind, hrefs, Option.getD_some] at hrel ⊢
    dsimp only [Nat.sub_self] at hrel ⊢
    rw [if_neg (by simp)] at hrel ⊢
    refine ⟨hrel, ?_, ?_, ?_⟩
    · intro e refs' g n hrefs' hn
      dsimp only at hrefs'
      rw [lookup_insert_eq] at hrefs'
      split at hrefs'
      next he =>
        cases hrefs'
        rw [lookup_erase_eq] at hn
        split at hn
        · cases hn
        · exact h.counted epoch refs g n hrefs hn
      next => exact h.counted e refs' g n hrefs' hn
    · intro g hg hmem
      rw [ownedBy_of_filtered rfl, if_pos rfl, List.mem_filter, decide_eq_true_iff] at hmem
      obtain rfl | hg := List.mem_cons.mp hg
      · exact hmem.2 rfl
      · exact h.taken g hg hmem.1
    · dsimp only
      have hkeep : ∀ g ∈ new, ∀ refs', (d.genRefs.insert epoch (refs.erase f)).lookup epoch =
          some refs' → refs'.lookup g = none := by
        intro g hg refs' hrefs'
        rw [lookup_insert_eq, if_pos rfl] at hrefs'
        cases hrefs'
        rw [lookup_erase_eq]
        split
        · rfl
        · exact hcleared g hg refs hrefs
      split
      · refine ⟨new ++ [f], ?_, ?_, ?_, ?_⟩
        · rw [hpend, List.append_assoc]
        · exact List.nodup_append.mpr ⟨hnodup, List.nodup_singleton f,
            fun a ha b hb => by rw [List.mem_singleton.mp hb]; exact fun hab => hfresh (hab ▸ ha)⟩
        · intro g hg
          obtain hg | hg := List.mem_append.mp hg
          · exact hsub hg
          · exact List.mem_singleton.mp hg ▸ hf
        · intro g hg refs' hrefs'
          obtain hg | hg := List.mem_append.mp hg
          · exact hkeep g hg refs' hrefs'
          · rw [lookup_insert_eq, if_pos rfl] at hrefs'
            cases hrefs'
            rw [List.mem_singleton.mp hg, lookup_erase_eq, if_pos rfl]
      · exact ⟨new, hpend, hnodup, hsub, hkeep⟩

theorem counted_settleEpoch {refs : Map FileId ℕ} (h : Counted c)
    (hrefs : ∀ f n, refs.lookup f = some n → n = 1) : Counted (c.settleEpoch epoch refs) := by
  intro e refs' f n he hn
  rw [SealedFileCache.settleEpoch] at he
  split at he
  · dsimp only at he
    rw [lookup_erase_eq] at he
    split at he
    · cases he
    · exact h e refs' f n he hn
  · dsimp only at he
    rw [lookup_insert_eq] at he
    split at he
    · cases he
      exact hrefs f n hn
    · exact h e refs' f n he hn

/-- `ReleaseEpoch` takes all generations of the epoch and queues each at most once. -/
theorem releaseEpoch_drains (h : Owned c) (hone : Counted c) (epoch : ℕ) :
    Counted (c.releaseEpoch epoch) ∧ ownedBy (c.releaseEpoch epoch) epoch = [] ∧
      ∃ new, (c.releaseEpoch epoch).pendingUnlink = c.pendingUnlink ++ new ∧ new.Nodup ∧
        new ⊆ ownedBy c epoch := by
  have hnone : ∃ new, c.pendingUnlink = c.pendingUnlink ++ new ∧ new.Nodup ∧
      new ⊆ ownedBy c epoch :=
    ⟨[], (List.append_nil _).symm, List.nodup_nil, List.nil_subset _⟩
  have heq : ((c.getEpoch epoch).map SealedEpoch.gens).getD [] = ownedBy c epoch := rfl
  rw [SealedFileCache.releaseEpoch, SealedFileCache.releaseGens, heq]
  split
  next hnil => exact ⟨hone, hnil, hnone⟩
  next hne =>
    cases hl : c.genRefs.lookup epoch with
    | none =>
      refine ⟨hone, List.eq_nil_iff_forall_not_mem.mpr ?_, hnone⟩
      intro f hf
      obtain ⟨refs, hrefs, -⟩ := h.refs epoch f hf
      rw [hl] at hrefs
      cases hrefs
    | some refs =>
      have hrefl : Releases epoch c c :=
        ⟨fun _ _ => ⟨rfl, rfl⟩, List.Subset.refl _, h.refs epoch, fun f hf => .inl hf, rfl, rfl⟩
      have hloop : ∀ (gens done : List FileId) (d : SealedFileCache), gens ⊆ ownedBy c epoch →
          Drains epoch c done d →
          ∃ done', gens ⊆ done' ∧ done ⊆ done' ∧
            Drains epoch c done' (gens.foldl (SealedFileCache.releaseGen epoch) d) := by
        intro gens
        induction gens with
        | nil => exact fun done d _ hd => ⟨done, List.nil_subset _, List.Subset.refl _, hd⟩
        | cons f gens ih =>
          intro done d hsub hd
          obtain ⟨done', hgens, hdone, hdrains⟩ := ih (f :: done) _
            (fun g hg => hsub (List.mem_cons_of_mem _ hg))
            (drains_releaseGen hd (hsub List.mem_cons_self))
          refine ⟨done', ?_, fun g hg => hdone (List.mem_cons_of_mem _ hg), hdrains⟩
          intro g hg
          obtain rfl | hg := List.mem_cons.mp hg
          · exact hdone List.mem_cons_self
          · exact hgens hg
      obtain ⟨done, hall, -, hd⟩ := hloop (ownedBy c epoch) [] c (List.Subset.refl _)
        ⟨hrefl, hone, fun f hf => absurd hf List.not_mem_nil, [], (List.append_nil _).symm,
          List.nodup_nil, List.nil_subset _, fun f hf => absurd hf List.not_mem_nil⟩
      dsimp only
      generalize (ownedBy c epoch).foldl (SealedFileCache.releaseGen epoch) c = d at hd
      have hempty : ownedBy d epoch = [] := by
        rw [List.eq_nil_iff_forall_not_mem]
        exact fun f hf => hd.taken f (hall (hd.releases.own hf)) hf
      have howned := @ownedBy_settleEpoch d epoch ((d.genRefs.lookup epoch).getD ∅)
        (by rw [hempty]; exact fun f hf => absurd hf List.not_mem_nil)
      refine ⟨counted_settleEpoch hd.counted ?_, (howned epoch).trans hempty, ?_⟩
      · intro f n hn
        cases hr : d.genRefs.lookup epoch with
        | none =>
          rw [hr] at hn
          cases hn
        | some refs =>
          rw [hr] at hn
          exact hd.counted epoch refs f n hr hn
      · obtain ⟨new, hpend, hnodup, hsub, -⟩ := hd.queue
        exact ⟨new, (settleEpoch_rest _).2.2.trans hpend, hnodup, hsub⟩

theorem Balanced.fresh (h : Balanced s) (hf : f ∉ s.sealedGens) :
    ¬ Kept s.cache f ∧ f ∉ s.released ∧ f ∉ s.cache.pendingUnlink := by
  rw [h.placed, not_or] at hf
  exact ⟨hf.1, hf.2, fun hp => hf.2 (h.queued_released (h.pending_queued hp))⟩

theorem kept_addRecoveryGens {totalBytes : ℕ} :
    Kept (c.addRecoveryGens gens totalBytes) f ↔ Kept c f ∨ f ∈ gens := by
  rw [Kept, Kept]
  dsimp only [SealedFileCache.addRecoveryGens]
  rw [mem_emplaceAll]
  exact (or_congr_right or_right_comm).trans or_assoc.symm

theorem balanced_addRecoveryGens (h : Balanced s) (totalBytes : ℕ)
    (hfresh : ∀ f ∈ gens, f ∉ s.sealedGens) :
    Balanced (s.step (.addRecoveryGens gens totalBytes)) := by
  have hrec : ∀ f, f ∈ (s.cache.addRecoveryGens gens totalBytes).recoveryGens →
      f ∈ s.cache.recoveryGens ∨ f ∈ gens := fun f hf => mem_emplaceAll.mp hf
  have howned : ∀ e, ownedBy (s.cache.addRecoveryGens gens totalBytes) e = ownedBy s.cache e :=
    fun _ => rfl
  refine ⟨⟨h.owned.distinct, ?_, h.owned.refs, ?_⟩, h.counted, ?_, ?_, ?_, h.queued_once,
    h.queued_released, h.pending_queued⟩
  · intro e f hf
    obtain ⟨hr, hs⟩ := h.owned.apart e f hf
    refine ⟨fun hmem => (hrec f hmem).elim hr fun hg => ?_, hs⟩
    exact (h.fresh (hfresh f hg)).1 (kept_iff.mpr (.inl ⟨e, hf⟩))
  · intro f hf hkept
    obtain hkept | hg := kept_addRecoveryGens.mp hkept
    · exact h.owned.unlinked f hf hkept
    · exact (h.fresh (hfresh f hg)).2.2 hf
  · intro f hf hskip
    obtain hr | hg := hrec f hf
    · exact h.waiting f hr hskip
    · exact (h.fresh (hfresh f hg)).1 (.inr (.inr hskip))
  · intro f
    rw [Ledger.step]
    dsimp only
    rw [List.mem_append, h.placed, kept_addRecoveryGens]
    tauto
  · intro f hf hkept
    obtain hkept | hg := kept_addRecoveryGens.mp hkept
    · exact h.gone f hf hkept
    · exact (h.fresh (hfresh f hg)).2.1 hf

theorem kept_addEpoch_iff {e : SealedEpoch} (hnew : c.epochs.lookup e.epoch = none) :
    Kept (c.addEpochWithRecoveryAdoption e) f ↔ Kept c f ∨ f ∈ e.gens := by
  constructor
  · intro hkept
    obtain ⟨-, -, -, -, hrec, hskip⟩ := addEpoch_spec hnew
    rw [kept_iff, hrec, hskip] at hkept
    obtain ⟨e', he⟩ := hkept.resolve_right fun h => h.elim List.not_mem_nil List.not_mem_nil
    rw [ownedBy_addEpoch hnew] at he
    split at he
    next =>
      obtain hg | hwait := he
      · exact .inr hg
      · exact .inl (.inr hwait)
    next => exact .inl (kept_iff.mpr (.inl ⟨e', he⟩))
  · exact ReleasedIndexes.kept_addEpoch hnew

theorem counted_addEpoch (h : Counted c) (e : SealedEpoch) :
    Counted (c.addEpochWithRecoveryAdoption e) := by
  rw [SealedFileCache.addEpochWithRecoveryAdoption]
  split
  · exact h
  · intro e' refs f n hrefs hn
    dsimp only at hrefs
    rw [lookup_insert_eq] at hrefs
    split at hrefs
    next =>
      cases hrefs
      revert hn
      refine List.foldlRecOn (motive := fun r : Map FileId ℕ => r.lookup f = some n → n = 1) _ _ ?_ ?_
      · intro hn
        cases hold : c.genRefs.lookup (c.adoptSkips (c.adoptRecovery e)).epoch with
        | none =>
          rw [hold] at hn
          cases hn
        | some refs =>
          rw [hold] at hn
          exact h _ refs f n hold hn
      · intro r hr g _ hn
        rw [lookup_insert_eq] at hn
        split at hn
        · exact (Option.some.inj hn).symm
        · exact hr hn
    next => exact h e' refs f n hrefs hn

theorem balanced_addEpoch (h : Balanced s) {e : SealedEpoch}
    (hok : Conforms s (.addEpochWithRecoveryAdoption e)) :
    Balanced (s.step (.addEpochWithRecoveryAdoption e)) := by
  obtain ⟨hnew, hfresh⟩ := hok
  obtain ⟨-, -, -, -, hrec, -⟩ := addEpoch_spec hnew
  have hpend : (s.cache.addEpochWithRecoveryAdoption e).pendingUnlink = s.cache.pendingUnlink := by
    rw [SealedFileCache.addEpochWithRecoveryAdoption, hnew]
  refine ⟨owned_addEpoch h.owned hnew ?_, counted_addEpoch h.counted e, ?_, ?_, ?_, h.queued_once,
    h.queued_released, ?_⟩
  · intro f hf
    obtain ⟨hkept, -, hp⟩ := h.fresh (hfresh f hf)
    exact ⟨hkept, hp⟩
  · intro f hf
    rw [Ledger.step] at hf
    dsimp only at hf
    rw [hrec] at hf
    cases hf
  · intro f
    rw [Ledger.step]
    dsimp only
    rw [List.mem_append, h.placed, kept_addEpoch_iff hnew]
    tauto
  · intro f hf hkept
    obtain hkept | hg := (kept_addEpoch_iff hnew).mp hkept
    · exact h.gone f hf hkept
    · exact (h.fresh (hfresh f hg)).2.1 hf
  · rw [Ledger.step]
    dsimp only
    rw [hpend]
    exact h.pending_queued

theorem counted_handOff (h : Counted c) (epoch : ℕ) (gens : List FileId) (partBytes : Map ℕ ℕ) :
    Counted (c.handOffSkippedToRecovery epoch gens partBytes) := by
  have hrefs : (awaitGens (dropGens c epoch gens) gens partBytes).genRefs = c.genRefs :=
    (dropGens_spec c epoch gens).2.2.1
  have hcounted : Counted (awaitGens (dropGens c epoch gens) gens partBytes) := by
    intro e refs
    rw [hrefs]
    exact h e refs
  rw [handOff_eq]
  cases hl : c.genRefs.lookup epoch with
  | none => exact hcounted
  | some refs =>
    refine counted_settleEpoch hcounted ?_
    intro f n hn
    rw [lookup_eraseAll] at hn
    split at hn
    · cases hn
    · exact h epoch refs f n hl hn

theorem balanced_handOff (h : Balanced s) (hsub : ∀ f ∈ gens, f ∈ ownedBy s.cache epoch)
    (partBytes : Map ℕ ℕ) : Balanced (s.step (.handOffSkippedToRecovery epoch gens partBytes)) := by
  have hoff := handsOff_handOff h.owned epoch gens partBytes
  have hkept : ∀ f, Kept (s.cache.handOffSkippedToRecovery epoch gens partBytes) f ↔
      Kept s.cache f := by
    intro f
    refine ⟨?_, kept_handOff h.owned epoch gens partBytes⟩
    rw [kept_iff, kept_iff, hoff.recovery_eq, hoff.skip f]
    rintro (⟨e, he⟩ | hr | hs | hg)
    · cases eq_or_ne e epoch with
      | inl heq =>
        subst heq
        exact .inl ⟨e, ((hoff.own f).mp he).1⟩
      | inr hne => exact .inl ⟨e, (hoff.other e hne).1 ▸ he⟩
    · exact .inr (.inl hr)
    · exact .inr (.inr hs)
    · exact .inl ⟨epoch, hsub f hg⟩
  refine ⟨owned_handOff h.owned hsub partBytes, counted_handOff h.counted epoch gens partBytes, ?_,
    fun f => (h.placed f).trans (or_congr_left (hkept f).symm),
    fun f hf => (hkept f).not.mpr (h.gone f hf), h.queued_once, h.queued_released, ?_⟩
  · intro f hf hskip
    obtain hs | hg := (hoff.skip f).mp hskip
    · exact h.waiting f (hoff.recovery_eq ▸ hf) hs
    · exact (h.owned.apart epoch f (hsub f hg)).1 (hoff.recovery_eq ▸ hf)
  · rw [Ledger.step]
    dsimp only
    rw [hoff.unlinked_eq]
    exact h.pending_queued

theorem balanced_releaseEpoch (h : Balanced s) (epoch : ℕ) :
    Balanced (s.step (.releaseEpoch epoch)) := by
  have hrel := releases_releaseEpoch h.owned epoch
  obtain ⟨hcounted, hempty, new, hpend, hnodup, hsub⟩ := releaseEpoch_drains h.owned h.counted epoch
  have hkept : ∀ f, Kept (s.cache.releaseEpoch epoch) f ↔
      Kept s.cache f ∧ f ∉ ownedBy s.cache epoch := by
    intro f
    rw [kept_iff, kept_iff, hrel.recovery_eq, hrel.skip_eq]
    constructor
    · rintro (⟨e, he⟩ | hwait)
      · cases eq_or_ne e epoch with
        | inl heq =>
          subst heq
          rw [hempty] at he
          cases he
        | inr hne =>
          rw [(hrel.other e hne).1] at he
          exact ⟨.inl ⟨e, he⟩, fun hown => hne (h.owned.distinct e epoch f he hown)⟩
      · refine ⟨.inr hwait, fun hown => ?_⟩
        obtain ⟨hr, hs⟩ := h.owned.apart epoch f hown
        exact hwait.elim hr hs
    · rintro ⟨⟨e, he⟩ | hwait, hnot⟩
      · refine .inl ⟨e, ?_⟩
        rw [(hrel.other e fun heq => hnot (heq ▸ he)).1]
        exact he
      · exact .inr hwait
  have hqueue : (s.cache.releaseEpoch epoch).pendingUnlink.drop s.cache.pendingUnlink.length =
      new := by
    rw [hpend, List.drop_left]
  refine ⟨owned_releaseEpoch h.owned epoch, hcounted, ?_, ?_, ?_, ?_, ?_, ?_⟩
  · rw [Ledger.step]
    dsimp only
    rw [hrel.recovery_eq, hrel.skip_eq]
    exact h.waiting
  · intro f
    rw [Ledger.step]
    dsimp only
    rw [List.mem_append, h.placed, hkept]
    constructor
    · rintro (hk | hr)
      · rcases Classical.em (f ∈ ownedBy s.cache epoch) with hin | hout
        · exact .inr (.inr hin)
        · exact .inl ⟨hk, hout⟩
      · exact .inr (.inl hr)
    · rintro (hk | hr | hown)
      · exact .inl hk.1
      · exact .inr hr
      · exact .inl (kept_iff.mpr (.inl ⟨epoch, hown⟩))
  · intro f hf hk
    obtain ⟨hold, hnot⟩ := (hkept f).mp hk
    obtain hf | hf := List.mem_append.mp hf
    · exact h.gone f hf hold
    · exact hnot hf
  · rw [Ledger.step]
    dsimp only
    rw [hqueue]
    refine List.nodup_append.mpr ⟨h.queued_once, hnodup, ?_⟩
    rintro a ha b hb rfl
    -- what was queued before is released and belongs to no epoch any more
    exact h.gone a (h.queued_released ha) (kept_iff.mpr (.inl ⟨epoch, hsub hb⟩))
  · rw [Ledger.step]
    dsimp only
    rw [hqueue]
    intro f hf
    obtain hf | hf := List.mem_append.mp hf
    · exact List.mem_append_left _ (h.queued_released hf)
    · exact List.mem_append_right _ (hsub hf)
  · rw [Ledger.step]
    dsimp only
    rw [hqueue, hpend]
    exact List.append_subset.mpr ⟨fun f hf => List.mem_append_left _ (h.pending_queued hf),
      List.subset_append_right _ _⟩

theorem balanced_purgePending (h : Balanced s) : Balanced (s.step .purgePending) :=
  ⟨owned_purgePending h.owned s.env, h.counted, h.waiting, h.placed, h.gone, h.queued_once,
    h.queued_released, List.nil_subset _⟩

theorem balanced_step (s : Ledger) (op : CacheOp) (hok : Conforms s op) (h : Balanced s) :
    Balanced (s.step op) := by
  cases op with
  | addRecoveryGens gens totalBytes => exact balanced_addRecoveryGens h totalBytes hok
  | addEpochWithRecoveryAdoption e => exact balanced_addEpoch h hok
  | handOffSkippedToRecovery epoch gens partBytes => exact balanced_handOff h hok partBytes
  | releaseEpoch epoch => exact balanced_releaseEpoch h epoch
  | purgePending => exact balanced_purgePending h

theorem balanced_start (env : Env) (reclaimEnabled : Bool) :
    Balanced (Ledger.start env reclaimEnabled) := by
  have hnone : ∀ e f, f ∉ ownedBy (Ledger.start env reclaimEnabled).cache e :=
    fun _ _ hf => absurd hf List.not_mem_nil
  have hkept : ∀ f, ¬ Kept (Ledger.start env reclaimEnabled).cache f := by
    intro f hf
    obtain ⟨e, he⟩ | hr | hs := kept_iff.mp hf
    · exact hnone e f he
    · cases hr
    · cases hs
  refine ⟨⟨fun e _ f hf => absurd hf (hnone e f), fun e f hf => absurd hf (hnone e f),
    fun e f hf => absurd hf (hnone e f), fun f hf => absurd hf List.not_mem_nil⟩, ?_, ?_, ?_, ?_,
    List.nodup_nil, List.nil_subset _, List.nil_subset _⟩
  · intro e refs f n he
    cases he
  · exact fun f hf => absurd hf List.not_mem_nil
  · intro f
    constructor
    · exact fun hf => absurd hf List.not_mem_nil
    · exact fun hf => hf.elim (fun hk => absurd hk (hkept f)) fun hr => absurd hr List.not_mem_nil
  · exact fun f hf => absurd hf List.not_mem_nil

/-- In every run that keeps to the protocol every sealed generation has one owner, at each moment. -/
theorem singleOwner_of_conforming (env : Env) (reclaimEnabled : Bool) (ops : List CacheOp)
    (hok : Guarded Ledger.step Conforms (Ledger.start env reclaimEnabled) ops) :
    SingleOwner (run Ledger.step (Ledger.start env reclaimEnabled) ops) :=
  (invariant_run balanced_step (balanced_start env reclaimEnabled) hok).singleOwner

/-- Orphans are adopted, all of it is handed off and adopted again, and then released. -/
def handedOn : List CacheOp :=
  [.addRecoveryGens [(0, 0)] 10,
    .addEpochWithRecoveryAdoption { epoch := 1, tableVersion := 0, gens := [(0, 1), (1, 0)] },
    .handOffSkippedToRecovery 1 [(0, 0), (0, 1), (1, 0)] ∅,
    .addEpochWithRecoveryAdoption { epoch := 2, tableVersion := 0, gens := [(1, 1)] },
    .handOffSkippedToRecovery 2 [(1, 1)] ∅, .releaseEpoch 1, .releaseEpoch 2, .purgePending,
    .releaseEpoch 2]

theorem singleOwner_handedOn :
    Guarded Ledger.step Conforms (Ledger.start ⟨∅⟩ true) handedOn ∧
      SingleOwner (run Ledger.step (Ledger.start ⟨∅⟩ true) handedOn) := by
  have hok : Guarded Ledger.step Conforms (Ledger.start ⟨∅⟩ true) handedOn := by decide +kernel
  exact ⟨hok, singleOwner_of_conforming ⟨∅⟩ true handedOn hok⟩

end ZeroFlush.GenerationLedger
