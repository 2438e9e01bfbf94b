import ZeroFlush.RecencyLists
import ZeroFlush.SealedBytes
import ZeroFlush.SharedObjects

/-! # The open handles of the sealed generations

A handle is shared by the cache and by the callers of `Get` that still have it. The cache keeps the
handles of the generations that were read last. -/
namespace ZeroFlush.HandleLru
open FiniteMaps WeightedMaps GuardedRuns SharedObjects RecencyLists WalFiles SealedFiles
open SealedBytes (CacheOp)

/-- The members of `SealedFileCache` that `Get` uses besides the registered generations. -/
structure HandleCache extends SealedFileCache where
  capacity : ℕ
  handles : Map FileId ℕ := ∅
  lruOrder : List FileId := []

/-- The cache, the opened files and the callers' pointers to them. -/
structure State where
  cache : HandleCache
  objects : Objects FileId := {}
  outs : Map ℕ ℕ := ∅

inductive GetStatus
  | ok
  | notFound
  | openFailed
  deriving DecidableEq

/-- `opens` is whether the environment can open the file when `Get` asks for it; `out` is the pointer
of the caller. -/
inductive Op
  | get (f : FileId) (opens : Bool) (out : ℕ)
  | drop (out : ℕ)
  | register (op : CacheOp)

def touchLRU (lruOrder : List FileId) (key : FileId) : List FileId := key :: lruOrder.erase key

namespace State

def dropOut (s : State) (out : ℕ) : State :=
  match s.outs.lookup out with
  | none => s
  | some o => { s with objects := s.objects.drop o, outs := s.outs.erase out }

/-- `*out = o`. -/
def assign (s : State) (out o : ℕ) : State :=
  let s := { s with objects := s.objects.copy o }
  let s := s.dropOut out
  { s with outs := s.outs.insert out o }

/-- The handle that was used least recently leaves the cache. -/
def popBack (s : State) : State :=
  match s.cache.lruOrder.getLast? with
  | none => s
  | some key =>
    let cache := { s.cache with
      lruOrder := s.cache.lruOrder.dropLast
      handles := s.cache.handles.erase key }
    match s.cache.handles.lookup key with
    | none => { s with cache := cache }
    | some o => { s with cache := cache, objects := s.objects.drop o }

theorem length_popBack (s : State) (h : 0 < s.cache.lruOrder.length) :
    s.popBack.cache.lruOrder.length < s.cache.lruOrder.length := by
  have hlast : (s.cache.lruOrder.dropLast).length < s.cache.lruOrder.length := by
    rw [List.length_dropLast]
    omega
  rw [popBack]
  split
  · next hnone =>
    rw [List.getLast?_eq_none_iff] at hnone
    rw [hnone] at h
    exact absurd h (Nat.lt_irrefl 0)
  · dsimp only
    split
    · exact hlast
    · exact hlast

/-- The loop over `lru_order_.size() > capacity_`. -/
def evict (s : State) : State :=
  if s.cache.capacity < s.cache.lruOrder.length then s.popBack.evict else s
termination_by s.cache.lruOrder.length
decreasing_by exact s.length_popBack (by omega)

/-- A new object for the file, with the pointer `sp` of `Get` to it, is emplaced in `handles_`. -/
def emplace (s : State) (f : FileId) : State :=
  let sp := s.objects.made.length
  { s with
    objects := (s.objects.make f).copy sp
    cache := { s.cache with
      handles := s.cache.handles.insert f sp
      lruOrder := f :: s.cache.lruOrder } }

def get (s : State) (f : FileId) (opens : Bool) (out : ℕ) : GetStatus × State :=
  if s.cache.readable f = false then (.notFound, s)
  else
    match s.cache.handles.lookup f with
    | some o =>
      let s := s.assign out o
      (.ok, { s with cache := { s.cache with lruOrder := touchLRU s.cache.lruOrder f } })
    | none =>
      if opens = false then (.openFailed, s)
      else
        let sp := s.objects.made.length
        let s := (s.emplace f).evict.assign out sp
        -- `sp` goes out of scope
        (.ok, { s with objects := s.objects.drop sp })

def step (s : State) : Op → State
  | .get f opens out => (s.get f opens out).2
  | .drop out => s.dropOut out
  | .register op =>
    { s with cache := { s.cache with
      toSealedFileCache := SealedBytes.step s.cache.toSealedFileCache op } }

def start (reclaimEnabled : Bool) (capacity : ℕ) : State where
  cache := { SealedBytes.start reclaimEnabled with capacity := capacity }

end State

/-! ## Pointers -/

section holders
variable {κ : Type*} [DecidableEq κ] {m : Map κ ℕ} {k : κ} {o p : ℕ}

/-- The pointers of a map to an object. -/
def holders (m : Map κ ℕ) (p : ℕ) : ℕ := weight (fun o => one o p) m

theorem holders_insert (h : m.lookup k = none) (o p : ℕ) :
    holders (m.insert k o) p = holders m p + one o p := by
  have hweight := weight_insert (fun o => one o p) m k o
  rw [weightAt_of_none h] at hweight
  exact hweight

theorem holders_erase (h : m.lookup k = some o) (p : ℕ) :
    holders m p = holders (m.erase k) p + one o p := by
  have hweight := weight_erase (fun o => one o p) m k
  rw [weightAt_of_some h] at hweight
  exact hweight.symm

theorem holders_pos (h : m.lookup k = some o) : 0 < holders m o := by
  rw [holders_erase h, one_self]
  exact Nat.succ_pos _

end holders

/-- The handles, their order and the pointers belong together; there are some `extra` pointers. -/
structure Linked (extra : ℕ → ℕ) (s : State) : Prop where
  nodup : s.cache.lruOrder.Nodup
  keys : ∀ f, f ∈ s.cache.lruOrder ↔ f ∈ s.cache.handles
  counted : Counted s.objects fun p => holders s.cache.handles p + holders s.outs p + extra p
  opened : ∀ f o, s.cache.handles.lookup f = some o → s.objects.made[o]? = some f

variable {extra extra' : ℕ → ℕ} {s : State} {f : FileId} {o out : ℕ}

theorem Linked.copy (h : Linked extra s) (hpos : 0 < holders s.cache.handles o + extra o)
    (hextra : ∀ p, extra' p = extra p + one o p) :
    Linked extra' { s with objects := s.objects.copy o } := by
  refine ⟨h.nodup, h.keys, h.counted.copy ?_ ?_, h.opened⟩
  · omega
  · intro p
    rw [hextra]
    exact (Nat.add_assoc _ _ _).symm

theorem Linked.drop (h : Linked extra' s) (hextra : ∀ p, extra' p = extra p + one o p) :
    Linked extra { s with objects := s.objects.drop o } := by
  refine ⟨h.nodup, h.keys, h.counted.drop ?_, h.opened⟩
  intro p
  rw [hextra]
  exact (Nat.add_assoc _ _ _).symm

theorem cache_dropOut (s : State) (out : ℕ) : (s.dropOut out).cache = s.cache := by
  rw [State.dropOut]
  split <;> rfl

theorem made_dropOut (s : State) (out : ℕ) : (s.dropOut out).objects.made = s.objects.made := by
  rw [State.dropOut]
  split <;> rfl

theorem lookup_dropOut (s : State) (out out' : ℕ) :
    (s.dropOut out).outs.lookup out' = if out' = out then none else s.outs.lookup out' := by
  rw [State.dropOut]
  split
  · next hnone =>
    split
    · next heq => rw [heq, hnone]
    · rfl
  · exact lookup_erase_eq s.outs out out'

theorem Linked.dropOut (h : Linked extra s) (out : ℕ) : Linked extra (s.dropOut out) := by
  rw [State.dropOut]
  split
  · exact h
  · next o ho =>
    refine ⟨h.nodup, h.keys, h.counted.drop ?_, h.opened⟩
    intro p
    have herase := holders_erase ho p
    dsimp only
    omega

theorem Linked.insert (h : Linked extra' s) (hout : s.outs.lookup out = none)
    (hextra : ∀ p, extra' p = extra p + one o p) :
    Linked extra { s with outs := s.outs.insert out o } := by
  refine ⟨h.nodup, h.keys, ?_, h.opened⟩
  have hsame : (fun p => holders s.cache.handles p + holders (s.outs.insert out o) p + extra p) =
      fun p => holders s.cache.handles p + holders s.outs p + extra' p := by
    funext p
    rw [holders_insert hout, hextra]
    omega
  exact hsame ▸ h.counted

theorem Linked.assign (h : Linked extra s) (hpos : 0 < holders s.cache.handles o + extra o)
    (out : ℕ) : Linked extra (s.assign out o) := by
  apply ((h.copy hpos fun _ => rfl).dropOut out).insert
  · rw [lookup_dropOut, if_pos rfl]
  · exact fun _ => rfl

theorem cache_assign (s : State) (out o : ℕ) : (s.assign out o).cache = s.cache :=
  cache_dropOut _ out

theorem made_assign (s : State) (out o : ℕ) :
    (s.assign out o).objects.made = s.objects.made := made_dropOut _ out

theorem lookup_assign (s : State) (out o out' : ℕ) :
    (s.assign out o).outs.lookup out' = if out' = out then some o else s.outs.lookup out' := by
  rw [State.assign]
  dsimp only
  rw [lookup_insert_eq, lookup_dropOut]
  split
  · rfl
  · rfl

/-! ## Eviction -/

theorem popBack_spec (h : Linked extra s) (hne : s.cache.lruOrder ≠ []) :
    Linked extra s.popBack ∧ s.popBack.cache.lruOrder = s.cache.lruOrder.dropLast ∧
      s.popBack.cache.capacity = s.cache.capacity ∧ s.popBack.outs = s.outs ∧
      s.popBack.objects.made = s.objects.made := by
  obtain ⟨rest, key, hsplit⟩ : ∃ rest key, s.cache.lruOrder = rest ++ [key] :=
    ⟨_, _, (List.dropLast_concat_getLast hne).symm⟩
  have hnodup := h.nodup
  rw [hsplit, List.nodup_append_comm, List.singleton_append, List.nodup_cons] at hnodup
  have hkey : key ∈ s.cache.handles := by
    rw [← h.keys, hsplit]
    exact List.mem_append_right _ (List.mem_singleton_self key)
  obtain ⟨o, ho⟩ := Option.isSome_iff_exists.mp (AList.lookup_isSome.mpr hkey)
  rw [State.popBack, hsplit, List.getLast?_concat, List.dropLast_concat]
  dsimp only
  rw [ho]
  refine ⟨⟨hnodup.2, ?_, ?_, ?_⟩, rfl, rfl, rfl, rfl⟩
  · intro f
    dsimp only
    rw [AList.mem_erase, ← h.keys, hsplit, List.mem_append, List.mem_singleton]
    constructor
    · exact fun hf => ⟨fun heq => hnodup.1 (heq ▸ hf), .inl hf⟩
    · exact fun hf => hf.2.resolve_right hf.1
  · apply h.counted.drop
    intro p
    have herase := holders_erase ho p
    dsimp only
    omega
  · intro f o' hf
    dsimp only at hf
    rw [lookup_erase_eq] at hf
    split at hf
    · cases hf
    · exact h.opened f o' hf

theorem evict_spec (h : Linked extra s) :
    Linked extra s.evict ∧ s.evict.cache.lruOrder = s.cache.lruOrder.take s.cache.capacity ∧
      s.evict.cache.capacity = s.cache.capacity ∧ s.evict.outs = s.outs ∧
      s.evict.objects.made = s.objects.made := by
  induction s using State.evict.induct with
  | case1 s hlt ih =>
    have hne : s.cache.lruOrder ≠ [] := List.ne_nil_of_length_pos (Nat.zero_lt_of_lt hlt)
    obtain ⟨hlinked, horder, hcapacity, houts, hmade⟩ := popBack_spec h hne
    obtain ⟨hlinked', horder', hcapacity', houts', hmade'⟩ := ih hlinked
    rw [State.evict, if_pos hlt]
    refine ⟨hlinked', ?_, hcapacity'.trans hcapacity, houts'.trans houts, hmade'.trans hmade⟩
    rw [horder', horder, hcapacity, List.dropLast_eq_take, List.take_take]
    congr 1
    omega
  | case2 s hge =>
    rw [State.evict, if_neg hge]
    exact ⟨h, (List.take_of_length_le (Nat.le_of_not_lt hge)).symm, rfl, rfl, rfl⟩

/-! ## Get -/

theorem Linked.touch (h : Linked extra s) (hf : f ∈ s.cache.lruOrder) :
    Linked extra { s with cache := { s.cache with lruOrder := touchLRU s.cache.lruOrder f } } := by
  refine ⟨?_, ?_, h.counted, h.opened⟩
  · exact List.nodup_cons.mpr ⟨h.nodup.not_mem_erase, h.nodup.erase f⟩
  · intro g
    dsimp only [touchLRU]
    rw [← h.keys, (List.perm_cons_erase hf).mem_iff]

theorem Linked.emplace (h : Linked (fun _ => 0) s) (hnone : s.cache.handles.lookup f = none) :
    Linked (one s.objects.made.length) (s.emplace f) := by
  have hnew : f ∉ s.cache.handles := AList.lookup_eq_none.mp hnone
  have hmake := h.counted.make f fun p => rfl
  refine ⟨?_, ?_, hmake.copy ?_ ?_, ?_⟩
  · exact List.nodup_cons.mpr ⟨fun hf => hnew ((h.keys f).mp hf), h.nodup⟩
  · intro g
    dsimp only [State.emplace]
    rw [AList.mem_insert, List.mem_cons, h.keys]
  · rw [one_self]
    exact Nat.succ_pos _
  · intro p
    have hinsert := holders_insert hnone s.objects.made.length p
    dsimp only [State.emplace]
    omega
  · intro g o hg
    have hmade : (s.emplace f).objects.made = s.objects.made ++ [f] := rfl
    dsimp only [State.emplace] at hg
    rw [lookup_insert_eq] at hg
    split at hg
    · next heq =>
      cases hg
      rw [hmade, heq, List.getElem?_concat_length]
    · have hold := h.opened g o hg
      rw [hmade, List.getElem?_append_left (List.getElem?_eq_some_iff.mp hold).1, hold]

/-- What `Get` has done when it returns a handle of `f`. -/
structure Served (f : FileId) (out : ℕ) (s s' : State) : Prop where
  linked : Linked (fun _ => 0) s'
  capacity_eq : s'.cache.capacity = s.cache.capacity
  order : s'.cache.lruOrder = if f ∈ s.cache.lruOrder then f :: s.cache.lruOrder.erase f
    else (f :: s.cache.lruOrder).take s.cache.capacity
  made : s.objects.made <+: s'.objects.made
  handle : ∃ o, s'.outs.lookup out = some o ∧ s'.objects.made[o]? = some f
  others : ∀ out', out' ≠ out → s'.outs.lookup out' = s.outs.lookup out'

theorem served_hit (h : Linked (fun _ => 0) s) (hf : s.cache.handles.lookup f = some o) (out : ℕ) :
    Served f out s { s.assign out o with cache := { (s.assign out o).cache with
      lruOrder := touchLRU (s.assign out o).cache.lruOrder f } } := by
  have hmem : f ∈ s.cache.lruOrder := by
    rw [h.keys, ← AList.lookup_isSome, hf]
    rfl
  have hassign := h.assign (Nat.add_pos_left (holders_pos hf) 0) out
  have hcache := cache_assign s out o
  refine ⟨hassign.touch (hcache ▸ hmem), ?_, ?_, ?_, ⟨o, ?_, ?_⟩, ?_⟩
  · dsimp only
    rw [hcache]
  · dsimp only [touchLRU]
    rw [hcache, if_pos hmem]
  · exact (made_assign s out o).symm ▸ List.prefix_refl _
  · dsimp only
    rw [lookup_assign, if_pos rfl]
  · dsimp only
    rw [made_assign]
    exact h.opened f o hf
  · intro out' hne
    dsimp only
    rw [lookup_assign, if_neg hne]

theorem served_miss (h : Linked (fun _ => 0) s) (hnone : s.cache.handles.lookup f = none) (out : ℕ) :
    Served f out s { (s.emplace f).evict.assign out s.objects.made.length with
      objects := ((s.emplace f).evict.assign out s.objects.made.length).objects.drop
        s.objects.made.length } := by
  have hnot : f ∉ s.cache.lruOrder := by
    rw [h.keys, ← AList.lookup_isSome, hnone]
    exact Bool.false_ne_true
  have hemplace := h.emplace hnone
  obtain ⟨hevict, horder, hcapacity, houts, hmade⟩ := evict_spec hemplace
  generalize (s.emplace f).evict = s' at hevict horder hcapacity houts hmade
  have hassign := hevict.assign (o := s.objects.made.length)
    (by rw [one_self]; exact Nat.succ_pos _) out
  have hobjects : s'.objects.made = s.objects.made ++ [f] := hmade
  refine ⟨hassign.drop fun p => (Nat.zero_add _).symm, ?_, ?_, ?_, ⟨s.objects.made.length, ?_, ?_⟩, ?_⟩
  · dsimp only
    rw [cache_assign, hcapacity]
    rfl
  · dsimp only
    rw [cache_assign, horder, if_neg hnot]
    rfl
  · have hmade' : (s'.assign out s.objects.made.length).objects.made = s.objects.made ++ [f] :=
      (made_assign s' out _).trans hobjects
    exact hmade' ▸ List.prefix_append _ _
  · dsimp only
    rw [lookup_assign, if_pos rfl]
  · have hmade' : (s'.assign out s.objects.made.length).objects.made = s.objects.made ++ [f] :=
      (made_assign s' out _).trans hobjects
    exact (congrArg (·[s.objects.made.length]?) hmade').trans (List.getElem?_concat_length)
  · intro out' hne
    dsimp only
    rw [lookup_assign, if_neg hne, houts]
    rfl

/-- `Get` returns a handle of the generation, or changes nothing. -/
theorem get_spec (h : Linked (fun _ => 0) s) (f : FileId) (opens : Bool) (out : ℕ) :
    (s.get f opens out).1 = .ok ∧ Served f out s (s.get f opens out).2 ∨
      (s.get f opens out).1 ≠ .ok ∧ (s.get f opens out).2 = s := by
  rw [State.get]
  split
  · exact .inr ⟨(fun h => nomatch h), rfl⟩
  · cases hf : s.cache.handles.lookup f with
    | some o => exact .inl ⟨rfl, served_hit h hf out⟩
    | none =>
      dsimp only
      split
      · exact .inr ⟨(fun h => nomatch h), rfl⟩
      · exact .inl ⟨rfl, served_miss h hf out⟩

/-! ## Runs -/

/-- The generation a step returns a handle of. -/
def served (s : State) : Op → List FileId
  | .get f opens out => if (s.get f opens out).1 = .ok then [f] else []
  | _ => []

/-- The generations a run returns handles of, the last of them first. -/
def servedBy : State → List Op → List FileId
  | _, [] => []
  | s, op :: ops => servedBy (s.step op) ops ++ served s op

/-- The cache after these generations were served. -/
structure Consistent (capacity : ℕ) (used : List FileId) (s : State) : Prop where
  capacity_eq : s.cache.capacity = capacity
  order : s.cache.lruOrder = (recent used).take capacity
  linked : Linked (fun _ => 0) s

variable {capacity : ℕ} {used : List FileId}

theorem consistent_start (reclaimEnabled : Bool) (capacity : ℕ) :
    Consistent capacity [] (State.start reclaimEnabled capacity) := by
  refine ⟨rfl, List.take_nil.symm, List.nodup_nil, ?_, counted_empty, ?_⟩
  · exact fun f => iff_of_false List.not_mem_nil (AList.notMem_empty f)
  · exact fun f o hf => nomatch hf

theorem Served.consistent {s' : State} (hs : Served f out s s') (h : Consistent capacity used s) :
    Consistent capacity (f :: used) s' := by
  refine ⟨hs.capacity_eq.trans h.capacity_eq, ?_, hs.linked⟩
  rw [hs.order, h.order, h.capacity_eq]
  split
  · next hmem => exact (take_recent_of_mem hmem).symm
  · next hmem => exact (take_recent_of_not_mem hmem).symm

theorem consistent_step (h : Consistent capacity used s) (op : Op) :
    Consistent capacity (served s op ++ used) (s.step op) := by
  cases op with
  | get f opens out =>
    rw [served, State.step]
    rcases get_spec h.linked f opens out with ⟨hok, hs⟩ | ⟨hne, hs⟩
    · rw [if_pos hok]
      exact hs.consistent h
    · rw [if_neg hne, hs]
      exact h
  | drop out =>
    have hcache := cache_dropOut s out
    refine ⟨?_, ?_, h.linked.dropOut out⟩
    · exact (congrArg HandleCache.capacity hcache).trans h.capacity_eq
    · exact (congrArg HandleCache.lruOrder hcache).trans h.order
  | register op => exact ⟨h.capacity_eq, h.order, h.linked.nodup, h.linked.keys, h.linked.counted, h.linked.opened⟩

theorem consistent_run (h : Consistent capacity used s) (ops : List Op) :
    Consistent capacity (servedBy s ops ++ used) (run State.step s ops) := by
  induction ops generalizing s used with
  | nil => exact h
  | cons op ops ih =>
    rw [servedBy, List.append_assoc]
    exact ih (consistent_step h op)

/-- The caller can read the generation through its pointer. -/
def Usable (f : FileId) (out : ℕ) (s : State) : Prop :=
  ∃ o, s.outs.lookup out = some o ∧ s.objects.made[o]? = some f ∧ o ∉ s.objects.destroyed

/-- The caller's pointer is passed to `Get` or goes out of scope. -/
def Op.Writes (out : ℕ) : Op → Prop
  | .get _ _ out' => out' = out
  | .drop out' => out' = out
  | .register _ => False

theorem usable_of_lookup (h : Linked (fun _ => 0) s) (hout : s.outs.lookup out = some o)
    (hmade : s.objects.made[o]? = some f) : Usable f out s :=
  ⟨o, hout, hmade, h.counted.not_destroyed (Nat.add_pos_left (Nat.add_pos_right _ (holders_pos hout)) 0)⟩

theorem usable_step (h : Consistent capacity used s) {op : Op} (hop : ¬ op.Writes out)
    (hu : Usable f out s) : Usable f out (s.step op) := by
  obtain ⟨o, hout, hmade, -⟩ := hu
  have hlinked := (consistent_step h op).linked
  cases op with
  | get g opens out' =>
    rw [State.step] at hlinked ⊢
    rcases get_spec h.linked g opens out' with ⟨-, hs⟩ | ⟨-, hs⟩
    · apply usable_of_lookup hlinked
      · exact (hs.others out fun heq => hop heq.symm).trans hout
      · obtain ⟨hlt, rfl⟩ := List.getElem?_eq_some_iff.mp hmade
        exact List.prefix_iff_getElem?.mp hs.made o hlt
    · rw [hs]
      exact usable_of_lookup h.linked hout hmade
  | drop out' =>
    apply usable_of_lookup hlinked
    · rw [State.step, lookup_dropOut, if_neg fun heq => hop heq.symm]
      exact hout
    · rw [State.step, made_dropOut]
      exact hmade
  | register op => exact usable_of_lookup hlinked hout hmade

theorem usable_run (h : Consistent capacity used s) (hu : Usable f out s) {ops : List Op}
    (hops : ∀ op ∈ ops, ¬ op.Writes out) : Usable f out (run State.step s ops) := by
  induction ops generalizing s used with
  | nil => exact hu
  | cons op ops ih =>
    apply ih (consistent_step h op)
    · exact usable_step h (hops op List.mem_cons_self) hu
    · exact fun op' hop' => hops op' (List.mem_cons_of_mem _ hop')

/-- After every run the LRU list has exactly the keys of the handles, each once, the most recently
served first and no more than the capacity; and a pointer that `Get` has set stays usable until its
caller passes it to `Get` again or drops it. -/
theorem handles_of_run (reclaimEnabled : Bool) (capacity : ℕ) (ops : List Op) :
    let start := State.start reclaimEnabled capacity
    let s := run State.step start ops
    s.cache.lruOrder.Nodup ∧ s.cache.lruOrder.Perm s.cache.handles.keys ∧
      s.cache.lruOrder = (recent (servedBy start ops)).take capacity ∧
      s.cache.lruOrder.length ≤ capacity ∧
      ∀ (f : FileId) (opens : Bool) (out : ℕ) (rest : List Op), (s.get f opens out).1 = .ok →
        (∀ op ∈ rest, ¬ op.Writes out) →
        Usable f out (run State.step start (ops ++ .get f opens out :: rest)) := by
  intro start s
  have h : Consistent capacity (servedBy start ops) s := by
    rw [← List.append_nil (servedBy start ops)]
    exact consistent_run (consistent_start reclaimEnabled capacity) ops
  refine ⟨h.linked.nodup, ?_, h.order, ?_, ?_⟩
  · apply (List.perm_ext_iff_of_nodup h.linked.nodup s.cache.handles.keys_nodup).mpr
    intro f
    rw [h.linked.keys, AList.mem_keys]
  · rw [h.order, List.length_take]
    exact Nat.min_le_left _ _
  · intro f opens out rest hok hrest
    rw [run_append]
    rcases get_spec h.linked f opens out with ⟨-, hs⟩ | ⟨hne, -⟩
    · obtain ⟨o, hout, hmade⟩ := hs.handle
      exact usable_run (consistent_step h (.get f opens out)) (usable_of_lookup hs.linked hout hmade) hrest
    · exact absurd hok hne

/-- Two generations that wait for an epoch. -/
def waiting : List Op := [.register (.addRecoveryGens [(1, 1), (2, 1)] 0)]

theorem handles_of_run_waiting :
    (run State.step (State.start true 1)
      (waiting ++ .get (1, 1) true 0 :: [.get (2, 1) true 1])).cache.lruOrder = [(2, 1)] ∧
    Usable (1, 1) 0 (run State.step (State.start true 1)
      (waiting ++ .get (1, 1) true 0 :: [.get (2, 1) true 1])) := by
  constructor
  · decide +kernel
  · apply (handles_of_run true 1 waiting).2.2.2.2
    · decide +kernel
    · intro op hop heq
      rw [List.mem_singleton.mp hop] at heq
      exact Nat.one_ne_zero heq

end ZeroFlush.HandleLru
