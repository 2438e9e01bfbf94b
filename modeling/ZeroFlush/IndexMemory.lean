import Mathlib.Algebra.Order.BigOperators.Group.List
import ZeroFlush.GuardedRuns
import ZeroFlush.PartitionIndexes
import ZeroFlush.SharedObjects
import ZeroFlush.WeightedMaps

/-! # The memory of the indexes

`total_mem_bytes_` counts the bytes of all indexes. An insertion adds its bytes to the index and then
to the total; an index that leaves the maps is taken off the total by `ReleaseFrozen` only. Every lock
and every access to an atomic counter is one turn of its thread. -/
namespace ZeroFlush.IndexMemory
open FiniteMaps WeightedMaps GuardedRuns UserKeys PartitionIndexes
open SharedObjects (one one_self one_of_ne)

/-- An index with its counter `mem_bytes_`. -/
structure CountedIndex where
  index : PartitionIndex
  memBytes : ℕ := 0

/-- The numbers of the indexes stand for pointers to them; `made` is the number of the next one. -/
structure Shared where
  index : ℕ → CountedIndex := fun _ => { index := { gen := 0 } }
  made : ℕ := 0
  active : Map ℕ ℕ := ∅
  frozen : Map ℕ (List ℕ) := ∅
  totalMemBytes : ℕ := 0

inductive Call
  | insert (part gen : ℕ) (e : IndexEntry)
  | insertCreate (part gen : ℕ) (e : IndexEntry)
  | ensureActive (part gen : ℕ)
  | freeze (part newGen : ℕ)
  | releaseFrozen (part gen : ℕ)

/-- Where a call is between two turns: an insertion that found no active index, or one of another
generation, one that has its index, one whose entry is in the skip list, and one whose bytes are in
the counter of the index; a `Freeze` that has replaced the index, and one that keeps it. -/
inductive Phase
  | absent (part gen : ℕ) (e : IndexEntry)
  | stale (part gen : ℕ) (e : IndexEntry)
  | found (id : ℕ) (e : IndexEntry)
  | listed (id added : ℕ)
  | counted (id added : ℕ)
  | replaced (part id : ℕ)
  | kept (part id : ℕ)

namespace Shared

def genOf (sh : Shared) (id : ℕ) : ℕ := (sh.index id).index.gen

def frozenChain (sh : Shared) (part : ℕ) : List ℕ := (sh.frozen.lookup part).getD []

/-- The newest frozen index of the generation. -/
def findFrozen (sh : Shared) (part gen : ℕ) : Option ℕ :=
  (sh.frozenChain part).reverse.find? fun id => sh.genOf id == gen

def setIndex (sh : Shared) (id : ℕ) (x : CountedIndex) : Shared :=
  { sh with index := Function.update sh.index id x }

/-- The new index has the number `sh.made`. -/
def make (sh : Shared) (gen : ℕ) : Shared :=
  { sh.setIndex sh.made { index := { gen := gen } } with made := sh.made + 1 }

def setActive (sh : Shared) (part id : ℕ) : Shared :=
  { sh with active := sh.active.insert part id }

def pushFrozen (sh : Shared) (part id : ℕ) : Shared :=
  { sh with frozen := sh.frozen.insert part (sh.frozenChain part ++ [id]) }

/-- `fetch_sub` of a 64-bit counter. -/
def fetchSub (total bytes : ℕ) : ℕ := (total + 2 ^ 64 - bytes % 2 ^ 64) % 2 ^ 64

def released (sh : Shared) (part gen : ℕ) : List ℕ :=
  (sh.frozenChain part).filter fun id => sh.genOf id == gen

def releaseFrozen (sh : Shared) (part gen : ℕ) : Shared :=
  match sh.frozen.lookup part with
  | none => sh
  | some chain =>
    { sh with
      frozen := sh.frozen.insert part (chain.filter fun id => sh.genOf id != gen)
      totalMemBytes := (sh.released part gen).foldl
        (fun total id => fetchSub total (sh.index id).memBytes) sh.totalMemBytes }

/-- The first turn of a call. -/
def enter (sh : Shared) : Call → Shared × Option Phase
  | .insert part gen e =>
    match sh.active.lookup part with
    | none => (sh, some (.absent part gen e))
    | some id =>
      if sh.genOf id = gen then (sh, some (.found id e)) else (sh, some (.stale part gen e))
  | .insertCreate part gen e =>
    match sh.active.lookup part with
    | none => ((sh.make gen).setActive part sh.made, some (.found sh.made e))
    | some id =>
      if sh.genOf id = gen then (sh, some (.found id e))
      else
        match sh.findFrozen part gen with
        | some id => (sh, some (.found id e))
        | none => ((sh.make gen).pushFrozen part sh.made, some (.found sh.made e))
  | .ensureActive part gen =>
    match sh.active.lookup part with
    | none => ((sh.make gen).setActive part sh.made, none)
    | some id =>
      if sh.genOf id = gen then (sh, none) else ((sh.make gen).setActive part sh.made, none)
  | .freeze part newGen =>
    ((sh.make newGen).setActive part sh.made, (sh.active.lookup part).map (.replaced part))
  | .releaseFrozen part gen => (sh.releaseFrozen part gen, none)

/-- The next turn of a call. -/
def resume (ucmp : UserComparator) (sh : Shared) : Phase → Shared × Option Phase
  | .absent part gen e =>
    match sh.active.lookup part with
    | some id => (sh, some (.found id e))
    | none => ((sh.make gen).setActive part sh.made, some (.found sh.made e))
  | .stale part gen e => (sh, (sh.findFrozen part gen).map (.found · e))
  | .found id e =>
    match (sh.index id).index.insert ucmp e with
    | none => (sh, none)
    | some index =>
      (sh.setIndex id { sh.index id with index := index }, some (.listed id e.bytes))
  | .listed id added =>
    (sh.setIndex id { sh.index id with memBytes := (sh.index id).memBytes + added },
      some (.counted id added))
  | .counted _ added =>
    ({ sh with totalMemBytes := (sh.totalMemBytes + added) % 2 ^ 64 }, none)
  | .replaced part id =>
    if (sh.index id).memBytes > 0 then (sh, some (.kept part id)) else (sh, none)
  | .kept part id => (sh.pushFrozen part id, none)

end Shared

/-- What the threads share, and the calls of the threads that are under way. -/
structure State where
  shared : Shared := {}
  calls : Map ℕ Phase := ∅

/-- The turn of a thread; it makes the call if it has none under way. -/
structure Turn where
  thread : ℕ
  call : Call

def setCall (calls : Map ℕ Phase) (thread : ℕ) : Option Phase → Map ℕ Phase
  | none => calls.erase thread
  | some phase => calls.insert thread phase

def act (ucmp : UserComparator) (s : State) (turn : Turn) : Shared × Option Phase :=
  match s.calls.lookup turn.thread with
  | none => s.shared.enter turn.call
  | some phase => s.shared.resume ucmp phase

def step (ucmp : UserComparator) (s : State) (turn : Turn) : State where
  shared := (act ucmp s turn).1
  calls := setCall s.calls turn.thread (act ucmp s turn).2

/-- The index that an insertion under way goes into. -/
def Phase.target : Phase → Option ℕ
  | .found id _ | .listed id _ | .counted id _ => some id
  | _ => none

/-- An insertion into the index is under way. -/
def Pending (s : State) (id : ℕ) : Prop :=
  ∃ c ∈ s.calls.entries, c.2.target = some id

instance (s : State) (id : ℕ) : Decidable (Pending s id) :=
  inferInstanceAs (Decidable (∃ c ∈ s.calls.entries, _))

/-- What a turn takes out of the maps: nothing with an insertion under way into it, and `EnsureActive`
nothing that has bytes. -/
def Keeps (s : State) : Option Phase → Call → Prop
  | some (.replaced _ id), _ => (s.shared.index id).memBytes = 0 → ¬ Pending s id
  | none, .ensureActive part gen =>
    ∀ id ∈ s.shared.active.lookup part, s.shared.genOf id ≠ gen →
      (s.shared.index id).memBytes = 0 ∧ ¬ Pending s id
  | none, .releaseFrozen part gen => ∀ id ∈ s.shared.released part gen, ¬ Pending s id
  | _, _ => True

instance decidableKeeps (s : State) : ∀ (prev : Option Phase) (call : Call),
    Decidable (Keeps s prev call)
  | some (.replaced _ id), _ =>
    inferInstanceAs (Decidable ((s.shared.index id).memBytes = 0 → ¬ Pending s id))
  | none, .ensureActive part gen =>
    inferInstanceAs (Decidable (∀ id ∈ s.shared.active.lookup part, s.shared.genOf id ≠ gen →
      (s.shared.index id).memBytes = 0 ∧ ¬ Pending s id))
  | none, .releaseFrozen part gen =>
    inferInstanceAs (Decidable (∀ id ∈ s.shared.released part gen, ¬ Pending s id))
  | none, .insert .. | none, .insertCreate .. | none, .freeze .. => .isTrue trivial
  | some (.absent ..), _ | some (.stale ..), _ | some (.found ..), _ | some (.listed ..), _
  | some (.counted ..), _ | some (.kept ..), _ => .isTrue trivial

def KeepsIndexes (s : State) (turn : Turn) : Prop :=
  Keeps s (s.calls.lookup turn.thread) turn.call

instance (s : State) (turn : Turn) : Decidable (KeepsIndexes s turn) :=
  decidableKeeps s (s.calls.lookup turn.thread) turn.call

/-- The bytes of an index that an insertion under way has yet to add to the total. -/
def Phase.uncounted (id : ℕ) : Phase → ℕ
  | .counted id' added => if id' = id then added else 0
  | _ => 0

/-- The bytes of the index that are in the total. -/
def countedBytes (s : State) (id : ℕ) : ℕ :=
  (s.shared.index id).memBytes - weight (Phase.uncounted id) s.calls

/-- The index that a call of `Freeze` has taken out of `active_` and not yet put into `frozen_`. -/
def Phase.carried : Phase → Option ℕ
  | .replaced _ id | .kept _ id => some id
  | _ => none

def overActive (f : ℕ → ℕ) (s : State) : ℕ := weight f s.shared.active

def overFrozen (f : ℕ → ℕ) (s : State) : ℕ := weight (fun chain => (chain.map f).sum) s.shared.frozen

def overCarried (f : ℕ → ℕ) (s : State) : ℕ := weight (fun p => p.carried.elim 0 f) s.calls

/-- The sum over the indexes of both maps and those that `Freeze` carries from one to the other. -/
def sumOver (f : ℕ → ℕ) (s : State) : ℕ := overActive f s + overFrozen f s + overCarried f s

/-- The total has the counted bytes of every index and nothing else; it is the sum of `mem_bytes`
over both maps when no call is under way. -/
structure Accounted (s : State) : Prop where
  covered : ∀ id, weight (Phase.uncounted id) s.calls ≤ (s.shared.index id).memBytes
  counted : s.shared.totalMemBytes = sumOver (countedBytes s) s % 2 ^ 64
  settled : s.calls = ∅ → s.shared.totalMemBytes =
    (overActive (fun id => (s.shared.index id).memBytes) s +
      overFrozen (fun id => (s.shared.index id).memBytes) s) % 2 ^ 64

/-! ## Sums over the maps -/

variable {ucmp : UserComparator} {sh : Shared} {f g : ℕ → ℕ} {part gen id old : ℕ} {s : State}
  {prev next : Option Phase} {turn : Turn}

def Shared.sum (f : ℕ → ℕ) (sh : Shared) : ℕ :=
  weight f sh.active + weight (fun chain => (chain.map f).sum) sh.frozen

theorem sum_setActive_of_none (h : sh.active.lookup part = none) (f : ℕ → ℕ) (id : ℕ) :
    (sh.setActive part id).sum f = sh.sum f + f id := by
  have hinsert := weight_insert f sh.active part id
  rw [weightAt_of_none h] at hinsert
  rw [Shared.sum, Shared.sum, Shared.setActive]
  dsimp only
  omega

theorem sum_setActive_of_some (h : sh.active.lookup part = some old) (f : ℕ → ℕ) (id : ℕ) :
    (sh.setActive part id).sum f + f old = sh.sum f + f id := by
  have hinsert := weight_insert f sh.active part id
  rw [weightAt_of_some h] at hinsert
  rw [Shared.sum, Shared.sum, Shared.setActive]
  dsimp only
  omega

theorem weightAt_frozen (sh : Shared) (f : ℕ → ℕ) (part : ℕ) :
    weightAt (fun chain => (chain.map f).sum) sh.frozen part = ((sh.frozenChain part).map f).sum := by
  rw [weightAt, Shared.frozenChain]
  cases sh.frozen.lookup part with
  | none => rfl
  | some chain => rfl

theorem sum_pushFrozen (sh : Shared) (f : ℕ → ℕ) (part id : ℕ) :
    (sh.pushFrozen part id).sum f = sh.sum f + f id := by
  have hinsert := weight_insert (fun chain : List ℕ => (chain.map f).sum) sh.frozen part
    (sh.frozenChain part ++ [id])
  rw [weightAt_frozen, List.map_append, List.sum_append, List.map_singleton, List.sum_singleton]
    at hinsert
  rw [Shared.sum, Shared.sum, Shared.pushFrozen]
  dsimp only
  omega

theorem sum_filter_add (p : ℕ → Bool) (f : ℕ → ℕ) (l : List ℕ) :
    ((l.filter fun x => !p x).map f).sum + ((l.filter p).map f).sum = (l.map f).sum := by
  induction l with
  | nil => rfl
  | cons x l ih =>
    cases hp : p x with
    | true =>
      simp only [List.filter_cons, hp, Bool.not_true, Bool.false_eq_true, if_false, if_true,
        List.map_cons, List.sum_cons]
      omega
    | false =>
      simp only [List.filter_cons, hp, Bool.not_false, Bool.false_eq_true, if_false, if_true,
        List.map_cons, List.sum_cons]
      omega

theorem sum_releaseFrozen (sh : Shared) (f : ℕ → ℕ) (part gen : ℕ) :
    (sh.releaseFrozen part gen).sum f + ((sh.released part gen).map f).sum = sh.sum f := by
  rw [Shared.releaseFrozen, Shared.released, Shared.frozenChain]
  cases hchain : sh.frozen.lookup part with
  | none => rfl
  | some chain =>
    have hinsert := weight_insert (fun chain : List ℕ => (chain.map f).sum) sh.frozen part
      (chain.filter fun id => sh.genOf id != gen)
    have hsplit := sum_filter_add (fun id => sh.genOf id == gen) f chain
    rw [weightAt_of_some hchain] at hinsert
    rw [Shared.sum, Shared.sum, Option.getD_some]
    dsimp only
    have hne : (chain.filter fun id => !(sh.genOf id == gen)) =
        chain.filter fun id => sh.genOf id != gen := rfl
    rw [hne] at hsplit
    omega

/-- An index in a map is counted there. -/
theorem sum_one_of_active (h : sh.active.lookup part = some id) : 0 < sh.sum (one id) := by
  have hle := weightAt_le (one id) sh.active part
  rw [weightAt_of_some h, one_self] at hle
  rw [Shared.sum]
  omega

theorem sum_one_of_frozen (h : id ∈ sh.frozenChain part) : 0 < sh.sum (one id) := by
  have hle := weightAt_le (fun chain => (chain.map (one id)).sum) sh.frozen part
  have hmem : one id id ≤ ((sh.frozenChain part).map (one id)).sum :=
    List.le_sum_of_mem (List.mem_map_of_mem h)
  rw [weightAt_frozen] at hle
  rw [one_self] at hmem
  rw [Shared.sum]
  omega

theorem sum_one_of_findFrozen (h : sh.findFrozen part gen = some id) : 0 < sh.sum (one id) :=
  sum_one_of_frozen (List.mem_reverse.mp (List.mem_of_find?_eq_some h))

theorem weight_setCall (w : Phase → ℕ) (calls : Map ℕ Phase) (thread : ℕ) (next : Option Phase) :
    weight w (setCall calls thread next) + (calls.lookup thread).elim 0 w =
      weight w calls + next.elim 0 w := by
  have hat : weightAt w calls thread = (calls.lookup thread).elim 0 w := by
    rw [weightAt]
    cases calls.lookup thread with
    | none => rfl
    | some p => rfl
  rw [← hat]
  cases next with
  | none => exact weight_erase w calls thread
  | some p => exact weight_insert w calls thread p

/-! ## Moves of a call -/

def carriedBy (f : ℕ → ℕ) (next : Option Phase) : ℕ := next.elim 0 fun p => p.carried.elim 0 f

def uncountedBy (id : ℕ) (next : Option Phase) : ℕ := next.elim 0 (Phase.uncounted id)

/-- A turn that moves no bytes: the maps get the indexes of `new`, which the turn makes, and lose those
of `gone`, which it takes off the total unless they are empty. -/
structure Moves (sh : Shared) (prev : Option Phase) (sh' : Shared) (next : Option Phase)
    (new gone : List ℕ) : Prop where
  sum : ∀ f, sh'.sum f + carriedBy f next + (gone.map f).sum =
    sh.sum f + carriedBy f prev + (new.map f).sum
  bytes : ∀ id, (sh'.index id).memBytes = (sh.index id).memBytes
  made : sh'.made = sh.made + new.length
  fresh : new = [] ∨ new = [sh.made]
  uncounted : ∀ id, uncountedBy id next = uncountedBy id prev
  target : ∀ id, next.bind Phase.target = some id →
    prev.bind Phase.target = some id ∨ 0 < sh.sum (one id) ∨ id ∈ new
  done : gone = [] ∨ next = none
  total : ∀ t, sh.totalMemBytes = t % 2 ^ 64 →
    (gone.map fun id => (sh.index id).memBytes).sum ≤ t →
    sh'.totalMemBytes = (t - (gone.map fun id => (sh.index id).memBytes).sum) % 2 ^ 64

/-- A call goes on, perhaps with an index from the maps. -/
theorem Moves.stay (hcarried : ∀ f, carriedBy f next = carriedBy f prev)
    (huncounted : ∀ id, uncountedBy id next = uncountedBy id prev)
    (htarget : ∀ id, next.bind Phase.target = some id →
      prev.bind Phase.target = some id ∨ 0 < sh.sum (one id)) : Moves sh prev sh next [] [] where
  sum f := by rw [hcarried]
  bytes _ := rfl
  made := rfl
  fresh := .inl rfl
  uncounted := huncounted
  target id h := (htarget id h).imp_right .inl
  done := .inl rfl
  total _ h _ := h

theorem memBytes_make (hblank : (sh.index sh.made).memBytes = 0) (gen id : ℕ) :
    ((sh.make gen).index id).memBytes = (sh.index id).memBytes := by
  rw [Shared.make, Shared.setIndex]
  dsimp only
  by_cases hid : id = sh.made
  · rw [hid, Function.update_self, hblank]
  · rw [Function.update_of_ne hid]

/-- A new active index. -/
theorem Moves.create (hblank : (sh.index sh.made).memBytes = 0)
    (hnone : sh.active.lookup part = none) (gen : ℕ)
    (hcarried : ∀ f, carriedBy f next = carriedBy f prev)
    (huncounted : ∀ id, uncountedBy id next = uncountedBy id prev)
    (htarget : ∀ id, next.bind Phase.target = some id → id = sh.made) :
    Moves sh prev ((sh.make gen).setActive part sh.made) next [sh.made] [] where
  sum f := by
    have hsum : ((sh.make gen).setActive part sh.made).sum f = sh.sum f + f sh.made :=
      sum_setActive_of_none hnone f sh.made
    rw [hsum, hcarried, List.map_singleton, List.sum_singleton, List.map_nil, List.sum_nil]
    omega
  bytes id := memBytes_make hblank gen id
  made := rfl
  fresh := .inr rfl
  uncounted := huncounted
  target id h := .inr (.inr (List.mem_singleton.mpr (htarget id h)))
  done := .inl rfl
  total _ h _ := h

/-- The active index is replaced; `Freeze` carries it on. -/
theorem Moves.replace (hblank : (sh.index sh.made).memBytes = 0)
    (hsome : sh.active.lookup part = some old) (gen : ℕ) :
    Moves sh none ((sh.make gen).setActive part sh.made) (some (.replaced part old)) [sh.made] [] where
  sum f := by
    have hsum : ((sh.make gen).setActive part sh.made).sum f + f old = sh.sum f + f sh.made :=
      sum_setActive_of_some hsome f sh.made
    exact hsum
  bytes id := memBytes_make hblank gen id
  made := rfl
  fresh := .inr rfl
  uncounted _ := rfl
  target _ h := nomatch h
  done := .inl rfl
  total _ h _ := h

/-- An index without bytes goes. -/
theorem total_of_empty (hzero : (sh.index id).memBytes = 0) (t : ℕ)
    (h : sh.totalMemBytes = t % 2 ^ 64) :
    sh.totalMemBytes = (t - ([id].map fun id => (sh.index id).memBytes).sum) % 2 ^ 64 := by
  rw [List.map_singleton, List.sum_singleton, hzero]
  exact h

/-- `EnsureActive` replaces an index without bytes. -/
theorem Moves.ensure (hblank : (sh.index sh.made).memBytes = 0)
    (hsome : sh.active.lookup part = some old) (hzero : (sh.index old).memBytes = 0) (gen : ℕ) :
    Moves sh none ((sh.make gen).setActive part sh.made) none [sh.made] [old] where
  sum f := by
    have hsum : ((sh.make gen).setActive part sh.made).sum f + f old = sh.sum f + f sh.made :=
      sum_setActive_of_some hsome f sh.made
    exact hsum
  bytes id := memBytes_make hblank gen id
  made := rfl
  fresh := .inr rfl
  uncounted _ := rfl
  target _ h := nomatch h
  done := .inr rfl
  total t h _ := total_of_empty hzero t h

/-- A new index at the end of a frozen chain. -/
theorem Moves.push (hblank : (sh.index sh.made).memBytes = 0) (part gen : ℕ) (e : IndexEntry) :
    Moves sh none ((sh.make gen).pushFrozen part sh.made) (some (.found sh.made e)) [sh.made] [] where
  sum f := sum_pushFrozen (sh.make gen) f part sh.made
  bytes id := memBytes_make hblank gen id
  made := rfl
  fresh := .inr rfl
  uncounted _ := rfl
  target _ h := .inr (.inr (List.mem_singleton.mpr (Option.some.inj h).symm))
  done := .inl rfl
  total _ h _ := h

/-- `Freeze` drops an index that it found empty. -/
theorem Moves.drop (hzero : (sh.index id).memBytes = 0) (part : ℕ) :
    Moves sh (some (.replaced part id)) sh none [] [id] where
  sum _ := rfl
  bytes _ := rfl
  made := rfl
  fresh := .inl rfl
  uncounted _ := rfl
  target _ h := nomatch h
  done := .inr rfl
  total t h _ := total_of_empty hzero t h

/-- `Freeze` puts an index into the frozen chain. -/
theorem Moves.keep (sh : Shared) (part id : ℕ) :
    Moves sh (some (.kept part id)) (sh.pushFrozen part id) none [] [] where
  sum f := sum_pushFrozen sh f part id
  bytes _ := rfl
  made := rfl
  fresh := .inl rfl
  uncounted _ := rfl
  target _ h := nomatch h
  done := .inl rfl
  total _ h _ := h

theorem Moves.list (sh : Shared) (id : ℕ) (e : IndexEntry) (index : PartitionIndex) :
    Moves sh (some (.found id e)) (sh.setIndex id { sh.index id with index := index })
      (some (.listed id e.bytes)) [] [] where
  sum _ := rfl
  bytes id' := by
    rw [Shared.setIndex]
    dsimp only
    by_cases hid : id' = id
    · rw [hid, Function.update_self]
    · rw [Function.update_of_ne hid]
  made := rfl
  fresh := .inl rfl
  uncounted _ := rfl
  target _ h := .inl h
  done := .inl rfl
  total _ h _ := h

theorem foldl_fetchSub (bytes : ℕ → ℕ) (ids : List ℕ) {t : ℕ} (h : (ids.map bytes).sum ≤ t) :
    ids.foldl (fun total id => Shared.fetchSub total (bytes id)) (t % 2 ^ 64) =
      (t - (ids.map bytes).sum) % 2 ^ 64 := by
  induction ids generalizing t with
  | nil => rfl
  | cons id ids ih =>
    rw [List.map_cons, List.sum_cons] at h ⊢
    have hsub : Shared.fetchSub (t % 2 ^ 64) (bytes id) = (t - bytes id) % 2 ^ 64 := by
      rw [Shared.fetchSub]
      omega
    rw [List.foldl_cons, hsub, ih (by omega), Nat.sub_sub]

theorem Moves.release (sh : Shared) (part gen : ℕ) :
    Moves sh none (sh.releaseFrozen part gen) none [] (sh.released part gen) where
  sum f := sum_releaseFrozen sh f part gen
  bytes id := by
    rw [Shared.releaseFrozen]
    split <;> rfl
  made := by
    rw [Shared.releaseFrozen]
    split <;> rfl
  fresh := .inl rfl
  uncounted _ := rfl
  target _ h := nomatch h
  done := .inr rfl
  total t h hle := by
    rw [← foldl_fetchSub (fun id => (sh.index id).memBytes) _ hle, ← h, Shared.releaseFrozen]
    cases hchain : sh.frozen.lookup part with
    | none =>
      rw [Shared.released, Shared.frozenChain, hchain]
      rfl
    | some chain => rfl

/-! ## Turns -/

/-- An index is in one place at most, and in one as long as an insertion into it is under way. -/
structure Sound (s : State) : Prop where
  once : ∀ id, sumOver (one id) s ≤ 1
  unused : ∀ id, s.shared.made ≤ id → sumOver (one id) s = 0 ∧ (s.shared.index id).memBytes = 0
  pending : ∀ id, Pending s id → sumOver (one id) s = 1
  covered : ∀ id, weight (Phase.uncounted id) s.calls ≤ (s.shared.index id).memBytes
  counted : s.shared.totalMemBytes = sumOver (countedBytes s) s % 2 ^ 64

theorem over_step (ucmp : UserComparator) (s : State) (turn : Turn) (f : ℕ → ℕ) :
    sumOver f (step ucmp s turn) + carriedBy f (s.calls.lookup turn.thread) =
      (act ucmp s turn).1.sum f + carriedBy f (act ucmp s turn).2 + overCarried f s := by
  have hcalls := weight_setCall (fun p => p.carried.elim 0 f) s.calls turn.thread (act ucmp s turn).2
  have hover : sumOver f (step ucmp s turn) = (act ucmp s turn).1.sum f +
      weight (fun p => p.carried.elim 0 f) (setCall s.calls turn.thread (act ucmp s turn).2) := rfl
  rw [hover, overCarried, carriedBy, carriedBy]
  omega

theorem uncounted_step (ucmp : UserComparator) (s : State) (turn : Turn) (id : ℕ) :
    weight (Phase.uncounted id) (step ucmp s turn).calls +
        uncountedBy id (s.calls.lookup turn.thread) =
      weight (Phase.uncounted id) s.calls + uncountedBy id (act ucmp s turn).2 :=
  weight_setCall (Phase.uncounted id) s.calls turn.thread (act ucmp s turn).2

theorem pending_iff : Pending s id ↔
    ∃ thread p, s.calls.lookup thread = some p ∧ p.target = some id := by
  constructor
  · intro ⟨c, hc, htarget⟩
    exact ⟨c.1, c.2, AList.mem_lookup_iff.mpr hc, htarget⟩
  · intro ⟨thread, p, hlookup, htarget⟩
    exact ⟨⟨thread, p⟩, AList.mem_lookup_iff.mp hlookup, htarget⟩

theorem pending_of_bind {thread : ℕ} (h : (s.calls.lookup thread).bind Phase.target = some id) :
    Pending s id := by
  obtain ⟨p, hp, htarget⟩ := Option.bind_eq_some_iff.mp h
  exact pending_iff.mpr ⟨thread, p, hp, htarget⟩

theorem pending_step (h : Pending (step ucmp s turn) id) :
    (act ucmp s turn).2.bind Phase.target = some id ∨ Pending s id := by
  obtain ⟨thread, p, hlookup, htarget⟩ := pending_iff.mp h
  rw [step] at hlookup
  dsimp only at hlookup
  cases hnext : (act ucmp s turn).2 with
  | none =>
    rw [hnext, setCall, lookup_erase_eq] at hlookup
    split at hlookup
    · cases hlookup
    · exact .inr (pending_iff.mpr ⟨thread, p, hlookup, htarget⟩)
  | some q =>
    rw [hnext, setCall, lookup_insert_eq] at hlookup
    split at hlookup
    · cases hlookup
      exact .inl htarget
    · exact .inr (pending_iff.mpr ⟨thread, p, hlookup, htarget⟩)

theorem uncounted_eq_zero (h : ¬ Pending s id) : weight (Phase.uncounted id) s.calls = 0 := by
  apply List.sum_eq_zero
  intro n hn
  obtain ⟨c, hc, rfl⟩ := List.mem_map.mp hn
  have hne : c.2.target ≠ some id := fun htarget => h ⟨c, hc, htarget⟩
  cases hp : c.2 with
  | counted id' added =>
    rw [hp] at hne
    exact if_neg fun heq => hne (congrArg some heq)
  | absent part gen e => rfl
  | stale part gen e => rfl
  | found id' e => rfl
  | listed id' added => rfl
  | replaced part id' => rfl
  | kept part id' => rfl

theorem sum_one_eq_zero {ids : List ℕ} (h : id ∉ ids) : (ids.map (one id)).sum = 0 := by
  apply List.sum_eq_zero
  intro n hn
  obtain ⟨x, hx, rfl⟩ := List.mem_map.mp hn
  exact one_of_ne fun heq => h (heq ▸ hx)

/-! ## Turns that move no bytes -/

section Moves
variable {new gone : List ℕ}

theorem Moves.made_le (hm : Moves sh prev sh' next new gone) (hid : id ∈ new) :
    sh.made ≤ id ∧ id < sh'.made := by
  have hmade := hm.made
  rcases hm.fresh with hnil | hone
  · rw [hnil] at hid
    exact absurd hid List.not_mem_nil
  · rw [hone] at hid hmade
    rw [List.mem_singleton.mp hid, hmade]
    exact ⟨Nat.le_refl _, Nat.lt_succ_self _⟩

theorem Moves.sum_one (hm : Moves sh prev sh' next new gone) (hid : id ∈ new) :
    (new.map (one id)).sum = 1 := by
  rcases hm.fresh with hnil | hone
  · rw [hnil] at hid
    exact absurd hid List.not_mem_nil
  · rw [hone] at hid ⊢
    rw [List.mem_singleton.mp hid, List.map_singleton, List.sum_singleton, one_self]

variable (hm : Moves s.shared (s.calls.lookup turn.thread) (act ucmp s turn).1 (act ucmp s turn).2
  new gone)

include hm

theorem Moves.over_step (f : ℕ → ℕ) :
    sumOver f (step ucmp s turn) + (gone.map f).sum = sumOver f s + (new.map f).sum := by
  have hstep := IndexMemory.over_step ucmp s turn f
  have hsum := hm.sum f
  have hs : sumOver f s = s.shared.sum f + overCarried f s := rfl
  omega

theorem Moves.uncounted_step (id : ℕ) :
    weight (Phase.uncounted id) (step ucmp s turn).calls = weight (Phase.uncounted id) s.calls := by
  have hstep := IndexMemory.uncounted_step ucmp s turn id
  rw [hm.uncounted id] at hstep
  exact Nat.add_right_cancel hstep

theorem Moves.countedBytes_step : countedBytes (step ucmp s turn) = countedBytes s := by
  funext id
  rw [countedBytes, countedBytes, hm.uncounted_step]
  exact congrArg (· - _) (hm.bytes id)

/-- An index that the turn makes is nowhere before. -/
theorem Moves.over_one_of_mem (h : Sound s) (hid : id ∈ new) :
    sumOver (one id) (step ucmp s turn) + (gone.map (one id)).sum = 1 := by
  rw [hm.over_step, hm.sum_one hid, (h.unused id (hm.made_le hid).1).1]

theorem Moves.over_one_of_not_mem (hid : id ∉ new) :
    sumOver (one id) (step ucmp s turn) + (gone.map (one id)).sum = sumOver (one id) s := by
  rw [hm.over_step, sum_one_eq_zero hid, Nat.add_zero]

/-- An insertion goes on with an index that it had, that a map has, or that it makes. -/
theorem Moves.placed_of_pending (h : Sound s) (hp : Pending (step ucmp s turn) id) :
    sumOver (one id) s = 1 ∨ id ∈ new := by
  rcases pending_step hp with htarget | hpending
  · rcases hm.target id htarget with hprev | hpos | hmem
    · exact .inl (h.pending id (pending_of_bind hprev))
    · have hle := h.once id
      have hs : sumOver (one id) s = s.shared.sum (one id) + overCarried (one id) s := rfl
      exact .inl (by omega)
    · exact .inr hmem
  · exact .inl (h.pending id hpending)

variable (hgone : ∀ id ∈ gone, ¬ Pending s id)

include hgone

theorem Moves.not_mem_gone (hp : Pending (step ucmp s turn) id) : id ∉ gone := by
  rcases hm.done with hnil | hnone
  · rw [hnil]
    exact List.not_mem_nil
  · rcases pending_step hp with htarget | hpending
    · rw [hnone] at htarget
      exact nomatch htarget
    · exact fun hmem => hgone id hmem hpending

theorem Moves.total_step (h : Sound s) : (step ucmp s turn).shared.totalMemBytes =
    sumOver (countedBytes (step ucmp s turn)) (step ucmp s turn) % 2 ^ 64 := by
  have hbytes := hm.over_step (countedBytes s)
  have hempty : (new.map (countedBytes s)).sum = 0 := by
    apply List.sum_eq_zero
    intro n hn
    obtain ⟨id, hid, rfl⟩ := List.mem_map.mp hn
    rw [countedBytes, (h.unused id (hm.made_le hid).1).2, Nat.zero_sub]
  have hwhole : gone.map (countedBytes s) = gone.map fun id => (s.shared.index id).memBytes := by
    apply List.map_congr_left
    intro id hid
    rw [countedBytes, uncounted_eq_zero (hgone id hid), Nat.sub_zero]
  rw [hempty, hwhole, Nat.add_zero] at hbytes
  have htotal := hm.total _ h.counted (hbytes ▸ Nat.le_add_left _ _)
  rw [hm.countedBytes_step, Nat.eq_sub_of_add_eq hbytes]
  exact htotal

theorem Sound.moves (h : Sound s) : Sound (step ucmp s turn) where
  once id := by
    by_cases hmem : id ∈ new
    · have hone := hm.over_one_of_mem h hmem
      omega
    · have hid := hm.over_one_of_not_mem hmem
      have hle := h.once id
      omega
  unused id hle := by
    have hle : (act ucmp s turn).1.made ≤ id := hle
    have hmem : id ∉ new := fun hmem => absurd (hm.made_le hmem).2 (Nat.not_lt.mpr hle)
    have hid := hm.over_one_of_not_mem hmem
    have hmade := hm.made
    obtain ⟨hzero, hbytes⟩ := h.unused id (by omega)
    exact ⟨by omega, (hm.bytes id).trans hbytes⟩
  pending id hp := by
    have hkept := sum_one_eq_zero (hm.not_mem_gone hgone hp)
    by_cases hmem : id ∈ new
    · have hone := hm.over_one_of_mem h hmem
      omega
    · have hid := hm.over_one_of_not_mem hmem
      have hone := (hm.placed_of_pending h hp).resolve_right hmem
      omega
  covered id := by
    rw [hm.uncounted_step]
    exact (h.covered id).trans_eq (hm.bytes id).symm
  counted := hm.total_step hgone h

end Moves

/-! ## Turns that move bytes -/

theorem sum_map_add_mul {α : Type*} (f g : α → ℕ) (n : ℕ) (l : List α) :
    (l.map fun x => f x + n * g x).sum = (l.map f).sum + n * (l.map g).sum := by
  induction l with
  | nil => rfl
  | cons x l ih =>
    rw [List.map_cons, List.sum_cons, ih, List.map_cons, List.sum_cons, List.map_cons, List.sum_cons,
      Nat.mul_add]
    omega

theorem over_add_mul (f g : ℕ → ℕ) (n : ℕ) (s : State) :
    sumOver (fun id => f id + n * g id) s = sumOver f s + n * sumOver g s := by
  have hchain : (fun chain : List ℕ => (chain.map fun id => f id + n * g id).sum) =
      fun chain => (chain.map f).sum + n * (chain.map g).sum :=
    funext fun chain => sum_map_add_mul f g n chain
  have hcarried : (fun p : Phase => p.carried.elim 0 fun id => f id + n * g id) =
      fun p => p.carried.elim 0 f + n * p.carried.elim 0 g := by
    funext p
    cases p.carried with
    | none => rfl
    | some id => rfl
  rw [sumOver, overActive, overFrozen, overCarried, hchain, hcarried, weight, weight, weight,
    sum_map_add_mul, sum_map_add_mul, sum_map_add_mul]
  dsimp only [sumOver, overActive, overFrozen, overCarried, weight]
  rw [Nat.mul_add, Nat.mul_add]
  omega

/-- The bytes of an insertion go into the counter of its index. -/
theorem Sound.listed (h : Sound s) {added : ℕ}
    (hprev : s.calls.lookup turn.thread = some (.listed id added)) : Sound (step ucmp s turn) := by
  have hact : act ucmp s turn = s.shared.resume ucmp (.listed id added) := by
    rw [act, hprev]
  have hpending : Pending s id := pending_of_bind (by rw [hprev]; rfl)
  have hover : ∀ f, sumOver f (step ucmp s turn) = sumOver f s := by
    intro f
    have hstep := over_step ucmp s turn f
    rw [hprev, hact] at hstep
    exact hstep
  have huncounted : ∀ x, weight (Phase.uncounted x) (step ucmp s turn).calls =
      weight (Phase.uncounted x) s.calls + if id = x then added else 0 := by
    intro x
    have hstep := uncounted_step ucmp s turn x
    rw [hprev, hact] at hstep
    exact hstep
  have hbytes : ∀ x, ((step ucmp s turn).shared.index x).memBytes =
      (s.shared.index x).memBytes + if id = x then added else 0 := by
    intro x
    rw [step, hact, Shared.resume, Shared.setIndex]
    dsimp only
    by_cases hx : x = id
    · rw [hx, Function.update_self, if_pos rfl]
    · rw [Function.update_of_ne hx, if_neg (Ne.symm hx), Nat.add_zero]
  have hcounted : countedBytes (step ucmp s turn) = countedBytes s := by
    funext x
    rw [countedBytes, countedBytes, huncounted, hbytes, Nat.add_sub_add_right]
  have hmade : (step ucmp s turn).shared.made = s.shared.made := by
    rw [step, hact]
    rfl
  refine ⟨?_, ?_, ?_, ?_, ?_⟩
  · intro x
    rw [hover]
    exact h.once x
  · intro x hx
    rw [hmade] at hx
    obtain ⟨hzero, hempty⟩ := h.unused x hx
    have hne : id ≠ x := by
      rintro rfl
      have hone := h.pending id hpending
      omega
    rw [hover, hbytes, hempty, if_neg hne]
    exact ⟨hzero, rfl⟩
  · intro x hx
    rw [hover]
    rcases pending_step hx with htarget | hx
    · rw [hact] at htarget
      exact Option.some.inj htarget ▸ h.pending id hpending
    · exact h.pending x hx
  · intro x
    rw [huncounted, hbytes]
    exact Nat.add_le_add_right (h.covered x) _
  · rw [hcounted, hover, step, hact]
    exact h.counted

/-- The bytes of an insertion go into the total. -/
theorem Sound.counted_total (h : Sound s) {added : ℕ}
    (hprev : s.calls.lookup turn.thread = some (.counted id added)) : Sound (step ucmp s turn) := by
  have hact : act ucmp s turn = s.shared.resume ucmp (.counted id added) := by
    rw [act, hprev]
  have hpending : Pending s id := pending_of_bind (by rw [hprev]; rfl)
  have hover : ∀ f, sumOver f (step ucmp s turn) = sumOver f s := by
    intro f
    have hstep := over_step ucmp s turn f
    rw [hprev, hact] at hstep
    exact hstep
  have huncounted : ∀ x, weight (Phase.uncounted x) (step ucmp s turn).calls + added * one id x =
      weight (Phase.uncounted x) s.calls := by
    intro x
    have hstep := uncounted_step ucmp s turn x
    have hone : uncountedBy x (some (.counted id added)) = added * one id x := by
      rw [uncountedBy, Option.elim_some, Phase.uncounted]
      by_cases hx : x = id
      · rw [hx, if_pos rfl, one_self, Nat.mul_one]
      · rw [if_neg (Ne.symm hx), one_of_ne hx, Nat.mul_zero]
    rw [hprev, hact, hone] at hstep
    exact hstep
  have hshared : (step ucmp s turn).shared =
      { s.shared with totalMemBytes := (s.shared.totalMemBytes + added) % 2 ^ 64 } := by
    rw [step, hact]
    rfl
  have hcounted : countedBytes (step ucmp s turn) = fun x => countedBytes s x + added * one id x := by
    funext x
    have hx := huncounted x
    have hle := h.covered x
    rw [countedBytes, countedBytes, hshared]
    dsimp only
    omega
  refine ⟨?_, ?_, ?_, ?_, ?_⟩
  · intro x
    rw [hover]
    exact h.once x
  · intro x hx
    rw [hshared] at hx ⊢
    rw [hover]
    exact h.unused x hx
  · intro x hx
    rw [hover]
    rcases pending_step hx with htarget | hx
    · rw [hact] at htarget
      exact nomatch htarget
    · exact h.pending x hx
  · intro x
    have hx := huncounted x
    rw [hshared]
    exact Nat.le_trans (hx ▸ Nat.le_add_right _ _) (h.covered x)
  · rw [hcounted, hover, over_add_mul, h.pending id hpending, Nat.mul_one, hshared, h.counted]
    exact Nat.mod_add_mod _ _ _

/-- What a first turn does to the maps. -/
theorem moves_enter (h : Sound s) (hnone : s.calls.lookup turn.thread = none)
    (hok : KeepsIndexes s turn) : ∃ new gone,
      Moves s.shared none (s.shared.enter turn.call).1 (s.shared.enter turn.call).2 new gone ∧
        ∀ id ∈ gone, ¬ Pending s id := by
  have hblank : (s.shared.index s.shared.made).memBytes = 0 := (h.unused _ (Nat.le_refl _)).2
  have hnil : ∀ id ∈ ([] : List ℕ), ¬ Pending s id := fun id hid => nomatch hid
  have hfound : ∀ {id : ℕ} (e : IndexEntry), 0 < s.shared.sum (one id) →
      Moves s.shared none s.shared (some (.found id e)) [] [] := by
    intro id e hpos
    apply Moves.stay
    · exact fun _ => rfl
    · exact fun _ => rfl
    · exact fun x hx => .inr (Option.some.inj hx ▸ hpos)
  rw [KeepsIndexes, hnone] at hok
  cases hcall : turn.call with
  | insert part gen e =>
    rw [Shared.enter]
    cases hactive : s.shared.active.lookup part with
    | none => exact ⟨[], [], .stay (fun _ => rfl) (fun _ => rfl) (fun _ hx => nomatch hx), hnil⟩
    | some id =>
      dsimp only
      split
      · exact ⟨[], [], hfound e (sum_one_of_active hactive), hnil⟩
      · exact ⟨[], [], .stay (fun _ => rfl) (fun _ => rfl) (fun _ hx => nomatch hx), hnil⟩
  | insertCreate part gen e =>
    rw [Shared.enter]
    cases hactive : s.shared.active.lookup part with
    | none =>
      refine ⟨_, _, .create hblank hactive gen (fun _ => rfl) (fun _ => rfl) ?_, hnil⟩
      exact fun x hx => (Option.some.inj hx).symm
    | some id =>
      dsimp only
      split
      · exact ⟨[], [], hfound e (sum_one_of_active hactive), hnil⟩
      · cases hfind : s.shared.findFrozen part gen with
        | some id' => exact ⟨[], [], hfound e (sum_one_of_findFrozen hfind), hnil⟩
        | none => exact ⟨_, _, .push hblank part gen e, hnil⟩
  | ensureActive part gen =>
    rw [hcall] at hok
    rw [Shared.enter]
    cases hactive : s.shared.active.lookup part with
    | none =>
      refine ⟨_, _, .create hblank hactive gen (fun _ => rfl) (fun _ => rfl) ?_, hnil⟩
      exact fun x hx => nomatch hx
    | some id =>
      dsimp only
      split
      · exact ⟨[], [], .stay (fun _ => rfl) (fun _ => rfl) (fun _ hx => nomatch hx), hnil⟩
      · next hgen =>
        obtain ⟨hzero, hpending⟩ := hok id hactive hgen
        refine ⟨_, _, .ensure hblank hactive hzero gen, ?_⟩
        exact fun x hx => List.mem_singleton.mp hx ▸ hpending
  | freeze part newGen =>
    rw [Shared.enter]
    dsimp only
    cases hactive : s.shared.active.lookup part with
    | none =>
      refine ⟨_, _, .create hblank hactive newGen (fun _ => rfl) (fun _ => rfl) ?_, hnil⟩
      exact fun x hx => nomatch hx
    | some id => exact ⟨_, _, .replace hblank hactive newGen, hnil⟩
  | releaseFrozen part gen =>
    rw [hcall] at hok
    exact ⟨_, _, .release s.shared part gen, hok⟩

/-- What a later turn does to the maps, unless it counts bytes. -/
theorem moves_resume (ucmp : UserComparator) (h : Sound s) {p : Phase} (hprev : s.calls.lookup turn.thread = some p)
    (hok : KeepsIndexes s turn) (hlisted : ∀ id added, p ≠ .listed id added)
    (hcounted : ∀ id added, p ≠ .counted id added) : ∃ new gone,
      Moves s.shared (some p) (s.shared.resume ucmp p).1 (s.shared.resume ucmp p).2 new gone ∧
        ∀ id ∈ gone, ¬ Pending s id := by
  have hblank : (s.shared.index s.shared.made).memBytes = 0 := (h.unused _ (Nat.le_refl _)).2
  have hnil : ∀ id ∈ ([] : List ℕ), ¬ Pending s id := fun id hid => nomatch hid
  rw [KeepsIndexes, hprev] at hok
  cases p with
  | absent part gen e =>
    rw [Shared.resume]
    cases hactive : s.shared.active.lookup part with
    | some id =>
      refine ⟨[], [], .stay (fun _ => rfl) (fun _ => rfl) ?_, hnil⟩
      exact fun x hx => .inr (Option.some.inj hx ▸ sum_one_of_active hactive)
    | none =>
      refine ⟨_, _, .create hblank hactive gen (fun _ => rfl) (fun _ => rfl) ?_, hnil⟩
      exact fun x hx => (Option.some.inj hx).symm
  | stale part gen e =>
    rw [Shared.resume]
    dsimp only
    cases hfind : s.shared.findFrozen part gen with
    | none => exact ⟨[], [], .stay (fun _ => rfl) (fun _ => rfl) (fun _ hx => nomatch hx), hnil⟩
    | some id =>
      refine ⟨[], [], .stay (fun _ => rfl) (fun _ => rfl) ?_, hnil⟩
      exact fun x hx => .inr (Option.some.inj hx ▸ sum_one_of_findFrozen hfind)
  | found id e =>
    rw [Shared.resume]
    cases (s.shared.index id).index.insert ucmp e with
    | none => exact ⟨[], [], .stay (fun _ => rfl) (fun _ => rfl) (fun _ hx => nomatch hx), hnil⟩
    | some index => exact ⟨_, _, .list s.shared id e index, hnil⟩
  | listed id added => exact absurd rfl (hlisted id added)
  | counted id added => exact absurd rfl (hcounted id added)
  | replaced part id =>
    rw [Shared.resume]
    split
    · exact ⟨[], [], .stay (fun _ => rfl) (fun _ => rfl) (fun _ hx => nomatch hx), hnil⟩
    · next hzero =>
      have hzero := Nat.eq_zero_of_not_pos hzero
      refine ⟨_, _, .drop hzero part, ?_⟩
      exact fun x hx => List.mem_singleton.mp hx ▸ hok hzero
  | kept part id => exact ⟨_, _, .keep s.shared part id, hnil⟩

theorem sound_step (s : State) (turn : Turn) (hok : KeepsIndexes s turn) (h : Sound s) :
    Sound (step ucmp s turn) := by
  cases hprev : s.calls.lookup turn.thread with
  | none =>
    obtain ⟨new, gone, hm, hgone⟩ := moves_enter h hprev hok
    have hact : act ucmp s turn = s.shared.enter turn.call := by
      rw [act, hprev]
    rw [← hact, ← hprev] at hm
    exact h.moves hm hgone
  | some p =>
    by_cases hlisted : ∃ id added, p = .listed id added
    · obtain ⟨id, added, rfl⟩ := hlisted
      exact h.listed hprev
    · by_cases hcounted : ∃ id added, p = .counted id added
      · obtain ⟨id, added, rfl⟩ := hcounted
        exact h.counted_total hprev
      · obtain ⟨new, gone, hm, hgone⟩ := moves_resume ucmp h hprev hok
          (fun id added heq => hlisted ⟨id, added, heq⟩)
          (fun id added heq => hcounted ⟨id, added, heq⟩)
        have hact : act ucmp s turn = s.shared.resume ucmp p := by
          rw [act, hprev]
        rw [← hact, ← hprev] at hm
        exact h.moves hm hgone

theorem sound_start : Sound {} where
  once _ := Nat.zero_le _
  unused _ _ := ⟨rfl, rfl⟩
  pending id h := by
    obtain ⟨c, hc, -⟩ := h
    exact nomatch hc
  covered _ := Nat.le_refl _
  counted := rfl

theorem Sound.accounted (h : Sound s) : Accounted s := by
  refine ⟨h.covered, h.counted, ?_⟩
  intro hidle
  have huncounted : ∀ id, weight (Phase.uncounted id) s.calls = 0 := by
    intro id
    rw [hidle]
    rfl
  have hbytes : countedBytes s = fun id => (s.shared.index id).memBytes := by
    funext id
    rw [countedBytes, huncounted, Nat.sub_zero]
  have hcarried : overCarried (fun id => (s.shared.index id).memBytes) s = 0 := by
    rw [overCarried, hidle]
    rfl
  rw [h.counted, hbytes, sumOver, hcarried, Nat.add_zero]

/-- In every run that takes nothing out of the maps with an insertion under way into it, and in which
`EnsureActive` takes out nothing with bytes, the total is exact in every state. -/
theorem accounted_of_keepsIndexes (ucmp : UserComparator) (turns : List Turn)
    (hok : Guarded (step ucmp) KeepsIndexes {} turns) : Always (step ucmp) Accounted {} turns := by
  apply always_rule sound_step
  · exact fun s h => h.accounted
  · exact sound_start
  · exact hok

/-- The key `a`. -/
def oneEntry : IndexEntry := ⟨[97], 1, 1, ⟨0, 0, 0⟩⟩

/-- An insertion, a `Freeze` of its index and the release of the index. -/
def inOrder : List Turn :=
  [⟨0, .insert 0 0 oneEntry⟩, ⟨0, .insert 0 0 oneEntry⟩, ⟨0, .insert 0 0 oneEntry⟩,
    ⟨0, .insert 0 0 oneEntry⟩, ⟨0, .insert 0 0 oneEntry⟩, ⟨1, .freeze 0 1⟩, ⟨1, .freeze 0 1⟩,
    ⟨1, .freeze 0 1⟩, ⟨1, .releaseFrozen 0 0⟩]

theorem accounted_inOrder : Always (step .bytewise) Accounted {} inOrder := by
  apply accounted_of_keepsIndexes
  decide +kernel

/-- A `Freeze` finds the index empty between the two turns of an insertion into it. -/
def freezeBetween : List Turn :=
  [⟨1, .ensureActive 0 0⟩, ⟨0, .insert 0 0 oneEntry⟩, ⟨1, .freeze 0 1⟩, ⟨1, .freeze 0 1⟩,
    ⟨0, .insert 0 0 oneEntry⟩, ⟨0, .insert 0 0 oneEntry⟩, ⟨0, .insert 0 0 oneEntry⟩]

theorem accounted_fails : ¬ ∀ turns : List Turn, Always (step .bytewise) Accounted {} turns := by
  intro h
  have hend := (always_iff.mp (h freezeBetween) _ (List.prefix_refl _)).settled rfl
  exact absurd hend (by decide +kernel)

end ZeroFlush.IndexMemory
