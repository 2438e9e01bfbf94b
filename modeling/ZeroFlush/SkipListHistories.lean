import ZeroFlush.SkipListTowers

/-! # Histories of a skip list

Each operation on a skip list takes effect in one turn between its first and its last: an insertion
when level 0 is swapped or a duplicate is seen there, an operation of an iterator when it loads the
link that it returns. In the order of these turns the operations are those of a sorted list. -/
namespace ZeroFlush.SkipListHistories
open LinkPaths OrderedInsertion GuardedRuns SkipLists SkipListTowers

variable {ν ρ α : Type*} (cmp : α → α → Ordering) (key : ν → α) (height : ν → ℕ)

section Specifications

/-- What a search finds in a sorted list; `none` is the head or the end. -/
def result (l : List ν) : Search α → Option ν
  | .greaterOrEqual k => l.find? fun n => !(cmp (key n) k == .lt)
  | .lessThan k => (l.takeWhile fun n => cmp (key n) k == .lt).getLast?
  | .last => l.getLast?

/-- What an operation of an iterator does on a sorted list. -/
def spec (l : List ν) (node : Option ν) : IterOp α → Option ν
  | .seekToFirst => l.head?
  | .seekToLast => l.getLast?
  | .seek target => l.find? fun n => !(cmp (key n) target == .lt)
  | .seekForPrev target => (l.takeWhile fun n => !(cmp target (key n) == .lt)).getLast?
  | .next => node.bind fun n => l.find? fun m => cmp (key n) (key m) == .lt
  | .prev => node.bind fun n => (l.takeWhile fun m => cmp (key m) (key n) == .lt).getLast?

inductive Event (ν ρ α : Type*)
  | insert (x : ν) (ok : Bool)
  | iterate (r : ρ) (op : IterOp α) (node : Option ν)

variable [DecidableEq ν] [DecidableEq ρ]

/-- The operation on a sorted list and the nodes the iterators stand on; `none` if its result is
another. -/
def Event.apply (s : List ν × (ρ → Option ν)) : Event ν ρ α → Option (List ν × (ρ → Option ν))
  | .insert x true => (insertNew (byKey cmp key) x s.1).map fun l => (l, s.2)
  | .insert x false => if insertNew (byKey cmp key) x s.1 = none then some s else none
  | .iterate r op node =>
    if spec cmp key s.1 (s.2 r) op = node then some (s.1, Function.update s.2 r node) else none

/-- The operation that is over after the turn. -/
def completes (it it' : Iterator ν α) : Option (IterOp α) :=
  if it'.ops.length < it.ops.length then it.ops.head? else none

/-- The operation that takes effect in a turn. -/
def event (ra : Race ν ρ α) : Turn ν ρ → Option (Event ν ρ α)
  | .insert x _ _ => (takesEffect cmp key x ra.shared (ra.inserts x)).map (.insert x)
  | .iterate r seen =>
    let it := (ra.iterators r).turn cmp key seen ra.shared
    (completes (ra.iterators r) it).map fun op => .iterate r op it.node

/-- The operations of a run in the order in which they take effect. -/
def events : Race ν ρ α → List (Turn ν ρ) → List (Event ν ρ α)
  | _, [] => []
  | ra, t :: ts => (event cmp key ra t).toList ++ events (turn cmp key height ra t) ts

end Specifications

/-- Whether the call has taken effect, and how. -/
def outcome : InsertPhase ν → List Bool
  | .returned ok => [ok]
  | .finding _ (_ + 1) _ _ false | .linking _ (_ + 1) | .publishing _ (_ + 1) => [true]
  | _ => []

/-- The effect of the insertion of `x`. -/
def insertOf [DecidableEq ν] (x : ν) : Event ν ρ α → Option Bool
  | .insert y ok => if y = x then some ok else none
  | .iterate .. => none

/-- The operation of the iterator `r`. -/
def opOf [DecidableEq ρ] (r : ρ) : Event ν ρ α → Option (IterOp α)
  | .insert .. => none
  | .iterate r' op _ => if r' = r then some op else none

section Walks
variable {cmp key height} {L L' : ℕ → List ν} {sh sh' : Shared ν} {inserts : ν → InsertPhase ν}
  {k : α} {l : List ν} {x bigger : Option ν} {level : ℕ} {search : Search α}

/-- What a walk knows of the node it stands on and of the last link it did not follow. -/
def OnWay (cmp : α → α → Ordering) (key : ν → α) (L : ℕ → List ν) (x : Option ν) (level : ℕ)
    (bigger : Option ν) : Search α → Prop
  | .greaterOrEqual k =>
    InFront cmp key k (L level) x ∧ ∀ n, bigger = some n → cmp (key n) k = .gt
  | .lessThan k => InFront cmp key k (L level) x ∧ Behind cmp key k bigger
  | .last => x = none ∨ ∃ n ∈ L level, x = some n

theorem OnWay.mono (h : OnWay cmp key L x level bigger search) (hL : ∀ i, L i ⊆ L' i) :
    OnWay cmp key L' x level bigger search := by
  cases search with
  | greaterOrEqual k => exact ⟨h.1.mono (hL level), h.2⟩
  | lessThan k => exact ⟨h.1.mono (hL level), h.2⟩
  | last =>
    rcases h with h | ⟨n, hn, h⟩
    · exact .inl h
    · exact .inr ⟨n, hL level hn, h⟩

theorem onWay_start (search : Search α) : OnWay cmp key L none level none search := by
  cases search with
  | greaterOrEqual k => exact ⟨.inl rfl, fun n hn => by cases hn⟩
  | lessThan k => exact ⟨.inl rfl, behind_none⟩
  | last => exact .inl rfl

/-- A walk goes on, on the same level or below, or it is over with what it looks for. -/
def Arrives (cmp : α → α → Ordering) (key : ν → α) (L : ℕ → List ν) (level : ℕ)
    (search : Search α) : Walk ν → Prop
  | .standing x level' bigger => level' ≤ level ∧ OnWay cmp key L x level' bigger search
  | .arrived node => node = result cmp key (L 0) search

theorem find?_of_eq [Std.TransCmp cmp] (h : Ascending (byKey cmp key) l) {n : ν} (hn : n ∈ l)
    (he : cmp (key n) k = .eq) : l.find? (fun n => !(cmp (key n) k == .lt)) = some n := by
  cases hf : l.find? fun n => !(cmp (key n) k == .lt) with
  | none =>
    have hall := List.find?_eq_none.mp hf n hn
    simp [he] at hall
  | some e =>
    rcases find?_ascending h hf n hn (by simp [he]) with rfl | hlt
    · rfl
    · have hek : cmp (key e) k = .lt := Std.TransCmp.lt_of_lt_of_eq hlt he
      have hnot := List.find?_some hf
      simp [hek] at hnot

variable [DecidableEq ν] [Std.TransCmp cmp]

theorem arrives_greaterOrEqual (h : Towers cmp key height L sh inserts)
    (hw : OnWay cmp key L x level bigger (.greaterOrEqual k)) :
    Arrives cmp key L level (.greaterOrEqual k)
      (findGreaterOrEqual cmp key k sh x level bigger) := by
  obtain ⟨hfront, hbigger⟩ := hw
  have hgreater : ∀ n, sh.next x level = some n →
      (if sh.next x level = bigger then .gt else cmp (key n) k) = .gt → cmp (key n) k = .gt := by
    intro n hn hc
    split at hc
    next he => exact hbigger n (he ▸ hn)
    next => exact hc
  have hstop : (∀ n, sh.next x level = some n → cmp (key n) k = .gt) →
      Arrives cmp key L level (.greaterOrEqual k)
        (if level = 0 then .arrived (sh.next x level)
        else .standing x (level - 1) (sh.next x level)) := by
    intro hgt
    split
    next h0 =>
      subst h0
      apply (h.bracket hfront _).2
      intro n hn hlt
      cases (hgt n hn).symm.trans hlt
    next => exact ⟨Nat.sub_le _ _, hfront.mono (h.subset (Nat.sub_le _ _)), hgt⟩
  rw [findGreaterOrEqual]
  cases hn : sh.next x level with
  | none =>
    rw [hn] at hstop
    have hgo := hstop fun n hn => by cases hn
    simpa using hgo
  | some n =>
    have hmem := h.next_mem hfront.onPath n hn
    rw [hn] at hstop hgreater
    simp only [Option.map_some, Option.getD_some]
    split
    next hc =>
      split at hc
      · cases hc
      · exact (find?_of_eq (h.ascending 0) (h.subset (Nat.zero_le level) hmem) hc).symm
    next hc =>
      split at hc
      · cases hc
      · exact ⟨le_refl _, .inr ⟨n, hmem, rfl, hc⟩, hbigger⟩
    next hc =>
      apply hstop
      intro m hm
      cases hm
      exact hgreater n rfl hc

theorem arrives_lessThan (h : Towers cmp key height L sh inserts)
    (hw : OnWay cmp key L x level bigger (.lessThan k)) :
    Arrives cmp key L level (.lessThan k) (findLessThan cmp key k sh x level bigger) := by
  obtain ⟨hfront, hbigger⟩ := hw
  rw [findLessThan]
  split
  next hgo =>
    refine ⟨le_refl _, ?_, hbigger⟩
    cases hn : sh.next x level with
    | none => exact .inl rfl
    | some n =>
      have hlt := hgo.2
      rw [hn] at hlt
      exact .inr ⟨n, h.next_mem hfront.onPath n hn, rfl, by simpa [keyIsAfterNode] using hlt⟩
  next hstop =>
    have hbehind : Behind cmp key k (sh.next x level) := by
      rw [not_and_or, not_not, Bool.not_eq_true] at hstop
      rcases hstop with he | hn
      · rw [he]
        exact hbigger
      · exact behind_of_not_after hn
    split
    next h0 =>
      subst h0
      show x = _
      rw [(h.bracket hfront hbehind).1, lastOf_none]
      rfl
    next => exact ⟨Nat.sub_le _ _, hfront.mono (h.subset (Nat.sub_le _ _)), hbehind⟩

omit [Std.TransCmp cmp] [DecidableEq ν] in
theorem arrives_last (h : Towers cmp key height L sh inserts)
    (hw : OnWay cmp key L x level bigger .last) :
    Arrives cmp key L level .last (findLast sh x level) := by
  rw [findLast]
  cases hn : sh.next x level with
  | none =>
    simp only
    split
    next h0 =>
      subst h0
      have hall : Cut (fun _ => true) (L 0) := List.pairwise_of_forall fun _ _ => id
      have hpath : x = none ∨ ∃ n ∈ L 0, x = some n ∧ true = true := by
        rcases hw with hw | ⟨n, hmem, hw⟩
        · exact .inl hw
        · exact .inr ⟨n, hmem, hw, rfl⟩
      have hlast := ((h.linked 0).bracket hall hpath fun n hm => by cases hn.symm.trans hm).1
      have htake : (L 0).takeWhile (fun _ => true) = L 0 :=
        List.takeWhile_eq_self_iff.mpr fun _ _ => rfl
      rw [htake, lastOf_none] at hlast
      exact hlast
    next =>
      refine ⟨Nat.sub_le _ _, ?_⟩
      rcases hw with hw | ⟨m, hm, hw⟩
      · exact .inl hw
      · exact .inr ⟨m, h.subset (Nat.sub_le _ _) hm, hw⟩
  | some n => exact ⟨le_refl _, .inr ⟨n, h.next_mem hw n hn, rfl⟩⟩

/-- The step lemma of a walk. -/
theorem arrives (h : Towers cmp key height L sh inserts)
    (hw : OnWay cmp key L x level bigger search) :
    Arrives cmp key L level search (search.step cmp key sh x level bigger) := by
  cases search with
  | greaterOrEqual k => exact arrives_greaterOrEqual h hw
  | lessThan k => exact arrives_lessThan h hw
  | last => exact arrives_last h hw

end Walks

section Operations
variable {cmp key} {l : List ν} {k target : α} {n : ν} {node : Option ν} {search : Search α}
  {op : IterOp α}

/-- The search of an operation that stands on a node. -/
def Searches (cmp : α → α → Ordering) (key : ν → α) (node : Option ν) :
    IterOp α → Search α → Prop
  | .seekToLast, .last => True
  | .seek target, .greaterOrEqual k => k = target
  | .seekForPrev target, .greaterOrEqual k => k = target
  | .seekForPrev target, .lessThan k => cmp target k = .lt
  | .seekForPrev _, .last => True
  | .prev, .lessThan k => ∃ n, node = some n ∧ k = key n
  | _, _ => False

theorem mem_of_result (h : result cmp key l search = some n) : n ∈ l := by
  cases search with
  | greaterOrEqual k => exact List.mem_of_find?_eq_some h
  | lessThan k => exact List.takeWhile_subset _ (List.mem_of_getLast? h)
  | last => exact List.mem_of_getLast? h

variable [Std.TransCmp cmp]

theorem front_of_lt {a b : ν} (hab : byKey cmp key a b = .lt)
    (hb : (cmp (key b) k == .lt) = true) : (cmp (key a) k == .lt) = true := by
  simp only [beq_iff_eq] at hb ⊢
  exact Std.TransCmp.lt_trans hab hb

theorem atMost_of_lt {a b : ν} (hab : byKey cmp key a b = .lt)
    (hb : (!(cmp target (key b) == .lt)) = true) : (!(cmp target (key a) == .lt)) = true := by
  simp only [Bool.not_eq_true', beq_eq_false_iff_ne, ne_eq] at hb ⊢
  intro ha
  exact hb (Std.TransCmp.lt_trans ha hab)

theorem lt_of_atMost {a : ν} (ha : (!(cmp target (key a) == .lt)) = true)
    (hk : cmp target k = .lt) : cmp (key a) k = .lt := by
  apply Std.TransCmp.lt_of_isLE_of_lt _ hk
  apply Std.OrientedCmp.isLE_of_isGE
  cases hc : cmp target (key a) <;> simp [hc] at ha ⊢

/-- A node that `SeekForPrev` stops at follows all others that are not behind the target. -/
theorem last_of_search (hl : Ascending (byKey cmp key) l)
    (hsearch : Searches cmp key node (.seekForPrev target) search)
    (hn : result cmp key l search = some n) (hle : cmp target (key n) ≠ .lt) {x : ν} (hx : x ∈ l)
    (hxt : (!(cmp target (key x) == .lt)) = true) : x = n ∨ byKey cmp key x n = .lt := by
  cases search with
  | greaterOrEqual k =>
    obtain rfl : k = target := hsearch
    have hnk : cmp (key n) k = .eq := by
      have hge := List.find?_some hn
      cases hc : cmp (key n) k with
      | lt => simp [hc] at hge
      | eq => rfl
      | gt => cases hle (Std.OrientedCmp.lt_of_gt hc)
    cases hc : cmp (key x) k with
    | lt =>
      have hxn : cmp (key x) (key n) = .lt :=
        Std.TransCmp.lt_of_lt_of_eq hc (Std.OrientedCmp.eq_symm hnk)
      exact .inr hxn
    | eq =>
      apply Or.inl
      apply eq_of_mem_ascending hl hx (mem_of_result hn)
      exact Std.TransCmp.eq_trans hc (Std.OrientedCmp.eq_symm hnk)
    | gt => simp [Std.OrientedCmp.lt_of_gt hc] at hxt
  | lessThan k =>
    have hlast := (getLast?_takeWhile_ascending hl fun a b => front_of_lt).mp hn
    apply hlast.2.2 x hx
    simpa using lt_of_atMost hxt hsearch
  | last =>
    have hall : l.takeWhile (fun _ => true) = l := List.takeWhile_eq_self_iff.mpr fun _ _ => rfl
    have hlast : (l.takeWhile fun _ => true).getLast? = some n := by
      rw [hall]
      exact hn
    exact ((getLast?_takeWhile_ascending hl fun _ _ _ => id).mp hlast).2.2 x hx rfl

/-- The loop of `SeekForPrev` ends with the last node that is not behind the target. -/
theorem seekForPrev_ends (hl : Ascending (byKey cmp key) l)
    (hsearch : Searches cmp key node (.seekForPrev target) search)
    (hend : (IterOp.seekForPrev target).again cmp key search (result cmp key l search) = none) :
    result cmp key l search = spec cmp key l node (.seekForPrev target) := by
  cases hn : result cmp key l search with
  | some n =>
    have hle : cmp target (key n) ≠ .lt := by
      intro hlt
      rw [hn] at hend
      simp [IterOp.again, hlt] at hend
    symm
    apply (getLast?_takeWhile_ascending hl fun a b => atMost_of_lt).mpr
    exact ⟨mem_of_result hn, by simpa using hle, fun x hx => last_of_search hl hsearch hn hle hx⟩
  | none =>
    have hnot : ∀ x ∈ l, ¬ (!(cmp target (key x) == .lt)) = true := by
      intro x hx hxt
      cases search with
      | greaterOrEqual k =>
        rw [hn] at hend
        cases hend
      | lessThan k =>
        have hnil := List.getLast?_eq_none_iff.mp hn
        rw [takeWhile_eq_filter_ascending hl fun a b => front_of_lt] at hnil
        apply List.filter_eq_nil_iff.mp hnil x hx
        simpa using lt_of_atMost hxt hsearch
      | last =>
        rw [List.getLast?_eq_none_iff.mp hn] at hx
        cases hx
    symm
    apply List.getLast?_eq_none_iff.mpr
    rw [takeWhile_eq_filter_ascending hl fun a b => atMost_of_lt]
    exact List.filter_eq_nil_iff.mpr hnot

omit [Std.TransCmp cmp] in
/-- Only the loop of `SeekForPrev` searches again. -/
theorem searches_again {search' : Search α} (hsearch : Searches cmp key node op search)
    (hagain : op.again cmp key search (result cmp key l search) = some search') :
    Searches cmp key node op search' := by
  cases op with
  | seekForPrev target =>
    cases hn : result cmp key l search with
    | none =>
      rw [hn] at hagain
      cases search with
      | greaterOrEqual k =>
        cases hagain
        trivial
      | lessThan k => cases hagain
      | last => cases hagain
    | some n =>
      rw [hn] at hagain
      simp only [IterOp.again] at hagain
      split at hagain
      next hlt =>
        cases hagain
        exact hlt
      next => cases hagain
  | seekToFirst => cases hagain
  | seekToLast => cases hagain
  | seek target => cases hagain
  | next => cases hagain
  | prev => cases hagain

/-- An operation that does not search again is done as on a sorted list. -/
theorem result_eq_spec (hl : Ascending (byKey cmp key) l) (hsearch : Searches cmp key node op search)
    (hend : op.again cmp key search (result cmp key l search) = none) :
    result cmp key l search = spec cmp key l node op := by
  cases op with
  | seekForPrev target => exact seekForPrev_ends hl hsearch hend
  | seekToFirst => cases hsearch
  | next => cases hsearch
  | seekToLast =>
    cases search with
    | last => rfl
    | greaterOrEqual k => cases hsearch
    | lessThan k => cases hsearch
  | seek target =>
    cases search with
    | greaterOrEqual k =>
      cases hsearch
      rfl
    | lessThan k => cases hsearch
    | last => cases hsearch
  | prev =>
    cases search with
    | lessThan k =>
      obtain ⟨n, rfl, rfl⟩ := hsearch
      rfl
    | greaterOrEqual k => cases hsearch
    | last => cases hsearch

end Operations

section Iterators
variable {cmp key height} {L L' : ℕ → List ν} {sh sh' : Shared ν} {inserts : ν → InsertPhase ν}
  {it it' : Iterator ν α} {n : ν} {seen : ℕ}

/-- The operation of a walk under way. -/
def Underway (cmp : α → α → Ordering) (key : ν → α) (it : Iterator ν α) (search : Search α) : Prop :=
  ∃ op ∈ it.ops.head?, Searches cmp key it.node op search

def Placed (cmp : α → α → Ordering) (key : ν → α) (L : ℕ → List ν) (sh : Shared ν)
    (it : Iterator ν α) : ReadPhase ν α → Prop
  | .idle => True
  | .waiting search => Underway cmp key it search
  | .walking search x level bigger =>
    Underway cmp key it search ∧ level < sh.maxHeight ∧ OnWay cmp key L x level bigger search

/-- An iterator stands on a node of the list, or is on its way to one. -/
structure Reading (cmp : α → α → Ordering) (key : ν → α) (L : ℕ → List ν) (sh : Shared ν)
    (it : Iterator ν α) : Prop where
  node : ∀ n, it.node = some n → n ∈ L 0
  placed : Placed cmp key L sh it it.phase

theorem Reading.mono (h : Reading cmp key L sh it) (hL : ∀ i, L i ⊆ L' i)
    (hmax : sh.maxHeight ≤ sh'.maxHeight) : Reading cmp key L' sh' it where
  node n hn := hL 0 (h.node n hn)
  placed := by
    have hp := h.placed
    cases hphase : it.phase with
    | idle => trivial
    | waiting search =>
      rw [hphase] at hp
      exact hp
    | walking search x level bigger =>
      rw [hphase] at hp
      exact ⟨hp.1, hp.2.1.trans_le hmax, hp.2.2.mono hL⟩

/-- What a turn does to the iterator: it is as before, or an operation is over as on the list. -/
def Reads (cmp : α → α → Ordering) (key : ν → α) (l : List ν) (it it' : Iterator ν α) : Prop :=
  match completes it it' with
  | none => it'.ops = it.ops ∧ it'.node = it.node
  | some op => it.ops = op :: it'.ops ∧ it'.node = spec cmp key l it.node op

theorem reads_stay (hops : it'.ops = it.ops) (hnode : it'.node = it.node) (l : List ν) :
    Reads cmp key l it it' := by
  have hnone : completes it it' = none := by simp [completes, hops]
  rw [Reads, hnone]
  exact ⟨hops, hnode⟩

theorem reads_finish {op : IterOp α} {rest : List (IterOp α)} (hops : it.ops = op :: rest)
    {l : List ν} : Reads cmp key l it (it.finish (spec cmp key l it.node op)) := by
  have hsome : completes it (it.finish (spec cmp key l it.node op)) = some op := by
    simp [completes, Iterator.finish, hops]
  rw [Reads, hsome]
  simp [Iterator.finish, hops]

theorem mem_of_spec {l : List ν} {node : Option ν} {op : IterOp α}
    (h : spec cmp key l node op = some n) : n ∈ l := by
  cases op with
  | seekToFirst => exact List.mem_of_head? h
  | seekToLast => exact List.mem_of_getLast? h
  | seek target => exact List.mem_of_find?_eq_some h
  | seekForPrev target => exact List.takeWhile_subset _ (List.mem_of_getLast? h)
  | next =>
    obtain ⟨m, -, h⟩ := Option.bind_eq_some_iff.mp h
    exact List.mem_of_find?_eq_some h
  | prev =>
    obtain ⟨m, -, h⟩ := Option.bind_eq_some_iff.mp h
    exact List.takeWhile_subset _ (List.mem_of_getLast? h)

/-- An operation is over: the iterator is idle on the node it returned. -/
theorem reading_finish {op : IterOp α} :
    Reading cmp key L sh (it.finish (spec cmp key (L 0) it.node op)) where
  node _ hn := mem_of_spec hn
  placed := trivial

variable [DecidableEq ν] [Std.TransCmp cmp]

omit [DecidableEq ν] in
/-- `Next` loads the link to the first node behind. -/
theorem next_eq_find? (h : Towers cmp key height L sh inserts) (hn : n ∈ L 0) :
    sh.next (some n) 0 = (L 0).find? fun m => cmp (key n) (key m) == .lt := by
  have hcut : Cut (fun m => !(cmp (key n) (key m) == .lt)) (L 0) :=
    (h.ascending 0).imp fun hab => atMost_of_lt hab
  have hself : cmp (key n) (key n) = .eq := Std.ReflCmp.compare_self
  have hpath : some n = none ∨ ∃ m ∈ L 0, some n = some m ∧
      (!(cmp (key n) (key m) == .lt)) = true := .inr ⟨n, hn, rfl, by simp [hself]⟩
  have hbracket := ((h.linked 0).bracket hcut hpath fun m hm => by
    have hlt : cmp (key n) (key m) = .lt := (h.linked 0).next_rel (h.ascending 0) hn hm
    simpa using hlt).2
  simpa using hbracket

omit [DecidableEq ν] [Std.TransCmp cmp] in
/-- An operation goes on. -/
theorem reading_goOn (hr : Reading cmp key L sh it) {phase : ReadPhase ν α}
    (hp : Placed cmp key L sh it phase) :
    Reading cmp key L sh { it with phase := phase } ∧
      Reads cmp key (L 0) it { it with phase := phase } := by
  refine ⟨⟨hr.node, ?_⟩, reads_stay rfl rfl _⟩
  cases phase with
  | idle => trivial
  | waiting search => exact hp
  | walking search x level bigger => exact hp

omit [DecidableEq ν] [Std.TransCmp cmp] in
theorem reading_done {op : IterOp α} {rest : List (IterOp α)} (hops : it.ops = op :: rest)
    {node : Option ν} (hnode : node = spec cmp key (L 0) it.node op) :
    Reading cmp key L sh (it.finish node) ∧ Reads cmp key (L 0) it (it.finish node) := by
  subst hnode
  exact ⟨reading_finish, reads_finish hops⟩

omit [DecidableEq ν] [Std.TransCmp cmp] in
theorem enter_prev (hn : it.node = some n) :
    it.enter key sh .prev = { it with phase := .waiting (.lessThan (key n)) } := by
  cases it
  cases hn
  rfl

omit [DecidableEq ν] in
theorem reading_enter (h : Towers cmp key height L sh inserts) (hr : Reading cmp key L sh it)
    {op : IterOp α} {rest : List (IterOp α)} (hops : it.ops = op :: rest) :
    Reading cmp key L sh (it.enter key sh op) ∧ Reads cmp key (L 0) it (it.enter key sh op) := by
  have hhead : op ∈ it.ops.head? := by simp [hops]
  cases op with
  | seekToFirst => exact reading_done hops (h.linked 0).head?_eq
  | seekToLast =>
    apply reading_goOn hr
    exact ⟨_, hhead, trivial⟩
  | seek target =>
    apply reading_goOn hr
    exact ⟨_, hhead, rfl⟩
  | seekForPrev target =>
    apply reading_goOn hr
    exact ⟨_, hhead, rfl⟩
  | next =>
    rw [Iterator.enter]
    cases hn : it.node with
    | none => exact reading_done hops (by simp [spec, hn])
    | some n => exact reading_done hops (by simp [spec, hn, next_eq_find? h (hr.node n hn)])
  | prev =>
    cases hn : it.node with
    | none =>
      rw [Iterator.enter, hn]
      exact reading_done hops (by simp [spec, hn])
    | some n =>
      rw [enter_prev hn]
      apply reading_goOn hr
      exact ⟨_, hhead, n, hn, rfl⟩

omit [Std.TransCmp cmp] in
theorem turn_idle {op : IterOp α} {rest : List (IterOp α)} (hops : it.ops = op :: rest)
    (hphase : it.phase = .idle) : it.turn cmp key seen sh = it.enter key sh op := by
  cases it
  cases hops
  cases hphase
  rfl

omit [Std.TransCmp cmp] in
theorem turn_waiting {op : IterOp α} {rest : List (IterOp α)} (hops : it.ops = op :: rest)
    {search : Search α} (hphase : it.phase = .waiting search) :
    it.turn cmp key seen sh =
      { it with phase := .walking search none (sh.getMaxHeight 1 seen - 1) none } := by
  cases it
  cases hops
  cases hphase
  rfl

omit [Std.TransCmp cmp] in
theorem turn_standing {op : IterOp α} {rest : List (IterOp α)} (hops : it.ops = op :: rest)
    {search : Search α} {x bigger x' bigger' : Option ν} {level level' : ℕ}
    (hphase : it.phase = .walking search x level bigger)
    (hstep : search.step cmp key sh x level bigger = .standing x' level' bigger') :
    it.turn cmp key seen sh = { it with phase := .walking search x' level' bigger' } := by
  cases it
  cases hops
  cases hphase
  simp [Iterator.turn, hstep]

omit [Std.TransCmp cmp] in
theorem turn_again {op : IterOp α} {rest : List (IterOp α)} (hops : it.ops = op :: rest)
    {search search' : Search α} {x bigger node : Option ν} {level : ℕ}
    (hphase : it.phase = .walking search x level bigger)
    (hstep : search.step cmp key sh x level bigger = .arrived node)
    (hagain : op.again cmp key search node = some search') :
    it.turn cmp key seen sh = { it with phase := .waiting search' } := by
  cases it
  cases hops
  cases hphase
  simp [Iterator.turn, hstep, hagain]

omit [Std.TransCmp cmp] in
theorem turn_done {op : IterOp α} {rest : List (IterOp α)} (hops : it.ops = op :: rest)
    {search : Search α} {x bigger node : Option ν} {level : ℕ}
    (hphase : it.phase = .walking search x level bigger)
    (hstep : search.step cmp key sh x level bigger = .arrived node)
    (hend : op.again cmp key search node = none) :
    it.turn cmp key seen sh = it.finish node := by
  cases it
  cases hops
  cases hphase
  simp [Iterator.turn, hstep, hend]

theorem reading_walk (h : Towers cmp key height L sh inserts) (hr : Reading cmp key L sh it)
    {op : IterOp α} {rest : List (IterOp α)} (hops : it.ops = op :: rest) {search : Search α}
    {x bigger : Option ν} {level : ℕ} (hphase : it.phase = .walking search x level bigger) :
    Reading cmp key L sh (it.turn cmp key seen sh) ∧
      Reads cmp key (L 0) it (it.turn cmp key seen sh) := by
  have hp := hr.placed
  rw [hphase] at hp
  obtain ⟨hunder, hlevel, hway⟩ := hp
  have harrives := arrives h hway
  cases hstep : search.step cmp key sh x level bigger with
  | standing x' level' bigger' =>
    rw [hstep] at harrives
    rw [turn_standing hops hphase hstep]
    apply reading_goOn hr
    exact ⟨hunder, harrives.1.trans_lt hlevel, harrives.2⟩
  | arrived node =>
    rw [hstep] at harrives
    obtain rfl : node = result cmp key (L 0) search := harrives
    obtain ⟨op', hop', hsearch⟩ := hunder
    obtain rfl : op = op' := by simpa [hops] using hop'
    cases hagain : op.again cmp key search (result cmp key (L 0) search) with
    | some search' =>
      rw [turn_again hops hphase hstep hagain]
      apply reading_goOn hr
      exact ⟨op, hop', searches_again hsearch hagain⟩
    | none =>
      rw [turn_done hops hphase hstep hagain]
      exact reading_done hops (result_eq_spec (h.ascending 0) hsearch hagain)

/-- The step lemma of an iterator. -/
theorem reading_turn (h : Towers cmp key height L sh inserts) (hr : Reading cmp key L sh it)
    (seen : ℕ) : Reading cmp key L sh (it.turn cmp key seen sh) ∧
      Reads cmp key (L 0) it (it.turn cmp key seen sh) := by
  cases hops : it.ops with
  | nil =>
    rw [Iterator.turn, hops]
    exact ⟨hr, reads_stay rfl rfl _⟩
  | cons op rest =>
    cases hphase : it.phase with
    | idle =>
      rw [turn_idle hops hphase]
      exact reading_enter h hr hops
    | waiting search =>
      have hp := hr.placed
      rw [hphase] at hp
      rw [turn_waiting hops hphase]
      apply reading_goOn hr
      refine ⟨hp, ?_, onWay_start search⟩
      have hle := getMaxHeight_le sh 1 seen
      have hone := one_le_getMaxHeight h.one_le (le_refl 1) seen
      omega
    | walking search x level bigger => exact reading_walk h hr hops hphase

end Iterators

end ZeroFlush.SkipListHistories
