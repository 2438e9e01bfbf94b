import Mathlib.Logic.Function.Basic
import ZeroFlush.LinkPaths

/-! # Concurrent skip lists

`InlineSkipList` with `InsertConcurrently` and its iterator. A node is a tower of links, one for
each level below its height. Insertions and iterators run at the same time: in one turn a thread
loads, stores or swaps one link, or the greatest height, and goes on with what is its own. Links
are sequentially consistent; a load of the greatest height may give any earlier value. -/
namespace ZeroFlush.SkipLists

variable {ν ρ α : Type*}

def kMaxHeight : ℕ := 12

/-- `(Random::kMaxNext + 1) / kBranching_`. -/
def kScaledInverseBranching : ℕ := 2147483648 / 4

/-- Further levels while the next draw is small. -/
def climb (draws : ℕ → ℕ) : ℕ → ℕ → ℕ
  | 0, height => height
  | n + 1, height =>
    if draws (height - 1) < kScaledInverseBranching then climb draws n (height + 1) else height

/-- `RandomHeight`. -/
def randomHeight (draws : ℕ → ℕ) : ℕ := climb draws (kMaxHeight - 1) 1

/-- The links of the head (`none`) and of the nodes, level by level. -/
structure Shared (ν : Type*) where
  next : Option ν → ℕ → Option ν
  maxHeight : ℕ := 1

/-- A relaxed load: the current height, or an earlier one that is not below `least`. -/
def Shared.getMaxHeight (sh : Shared ν) (least seen : ℕ) : ℕ :=
  if least ≤ seen ∧ seen ≤ sh.maxHeight then seen else sh.maxHeight

def Shared.setNext [DecidableEq ν] (sh : Shared ν) (n : Option ν) (level : ℕ) (x : Option ν) : Shared ν :=
  { sh with next := Function.update sh.next n (Function.update (sh.next n) level x) }

structure Splice (ν : Type*) where
  prev : ℕ → Option ν := fun _ => none
  next : ℕ → Option ν := fun _ => none

def Splice.set (splice : Splice ν) (level : ℕ) (prev next : Option ν) : Splice ν where
  prev := Function.update splice.prev level prev
  next := Function.update splice.next level next

/-- Where a call of `InsertConcurrently` is. `finding`: in `FindSpliceForLevel`, on the way down the
levels or again for one level after a failed swap. -/
inductive InsertPhase (ν : Type*)
  | called
  | raising (maxHeight : ℕ)
  | finding (splice : Splice ν) (level : ℕ) (before after : Option ν) (descending : Bool)
  | linking (splice : Splice ν) (level : ℕ)
  | publishing (splice : Splice ν) (level : ℕ)
  | returned (ok : Bool)

section Insertion
variable [DecidableEq ν] (cmp : α → α → Ordering) (key : ν → α)

/-- The null pointer is behind every key. -/
def keyIsAfterNode (k : α) : Option ν → Bool
  | none => false
  | some n => cmp (key n) k == .lt

/-- The checks on level 0: the neighbour behind is not greater, or the one in front not less. -/
def duplicate (k : α) (splice : Splice ν) : Bool :=
  ((splice.next 0).any fun n => cmp (key n) k != .gt) ||
    ((splice.prev 0).any fun n => cmp (key n) k != .lt)

/-- The splice is new: every level has to be computed. -/
def recompute (maxHeight : ℕ) : InsertPhase ν := .finding {} (maxHeight - 1) none none true

def afterLoad (height maxHeight : ℕ) : InsertPhase ν :=
  if height > maxHeight then .raising maxHeight else recompute maxHeight

/-- The level's place is found. -/
def found (splice : Splice ν) (level : ℕ) (descending : Bool) : InsertPhase ν :=
  match descending, level with
  | true, level + 1 =>
    .finding splice level (splice.prev (level + 1)) (splice.next (level + 1)) true
  | _, level => .linking splice level

/-- One turn of the insertion of `x`. A weak swap may fail without a reason; one that fails gives a
greater height than the one it expected. -/
def insertTurn (height : ℕ) (x : ν) (seen : ℕ) (weak : Bool) (sh : Shared ν) :
    InsertPhase ν → Shared ν × InsertPhase ν
  | .called => (sh, afterLoad height (sh.getMaxHeight 1 seen))
  | .raising maxHeight =>
    if sh.maxHeight = maxHeight ∧ weak = false then
      ({ sh with maxHeight := height }, recompute height)
    else (sh, afterLoad height (sh.getMaxHeight (maxHeight + 1) seen))
  | .finding splice level before after descending =>
    let next := sh.next before level
    if next = after ∨ keyIsAfterNode cmp key (key x) next = false then
      (sh, found (splice.set level before next) level descending)
    else (sh, .finding splice level next after descending)
  | .linking splice level =>
    if level = 0 ∧ duplicate cmp key (key x) splice then (sh, .returned false)
    else (sh.setNext (some x) level (splice.next level), .publishing splice level)
  | .publishing splice level =>
    if sh.next (splice.prev level) level = splice.next level then
      (sh.setNext (splice.prev level) level (some x),
        if level + 1 < height then .linking splice (level + 1) else .returned true)
    else (sh, .finding splice level (splice.prev level) none false)
  | .returned ok => (sh, .returned ok)

end Insertion

/-- What a walk down the levels looks for. -/
inductive Search (α : Type*)
  | greaterOrEqual (k : α)
  | lessThan (k : α)
  | last

/-- A walk stands on a node, goes on along its level, or has arrived. -/
inductive Walk (ν : Type*)
  | standing (x : Option ν) (level : ℕ) (bigger : Option ν)
  | arrived (node : Option ν)

section Search
variable [DecidableEq ν] (cmp : α → α → Ordering) (key : ν → α)

/-- `FindGreaterOrEqual`: `bigger` is known to be behind the key. -/
def findGreaterOrEqual (k : α) (sh : Shared ν) (x : Option ν) (level : ℕ) (bigger : Option ν) :
    Walk ν :=
  let next := sh.next x level
  let c := if next = bigger then .gt else (next.map fun n => cmp (key n) k).getD .gt
  match c with
  | .eq => .arrived next
  | .lt => .standing next level bigger
  | .gt => if level = 0 then .arrived next else .standing x (level - 1) next

/-- `FindLessThan`: `bigger` is known not to be in front of the key. -/
def findLessThan (k : α) (sh : Shared ν) (x : Option ν) (level : ℕ) (bigger : Option ν) :
    Walk ν :=
  let next := sh.next x level
  if next ≠ bigger ∧ keyIsAfterNode cmp key k next = true then .standing next level bigger
  else if level = 0 then .arrived x
  else .standing x (level - 1) next

/-- `FindLast`. -/
def findLast (sh : Shared ν) (x : Option ν) (level : ℕ) : Walk ν :=
  match sh.next x level with
  | none => if level = 0 then .arrived x else .standing x (level - 1) none
  | some n => .standing (some n) level none

def Search.step (sh : Shared ν) (x : Option ν) (level : ℕ) (bigger : Option ν) :
    Search α → Walk ν
  | .greaterOrEqual k => findGreaterOrEqual cmp key k sh x level bigger
  | .lessThan k => findLessThan cmp key k sh x level bigger
  | .last => findLast sh x level

end Search

/-- The operations of `Iterator`. -/
inductive IterOp (α : Type*)
  | seekToFirst
  | seekToLast
  | seek (target : α)
  | seekForPrev (target : α)
  | next
  | prev

/-- `waiting`: about to load the greatest height. -/
inductive ReadPhase (ν α : Type*)
  | idle
  | waiting (search : Search α)
  | walking (search : Search α) (x : Option ν) (level : ℕ) (bigger : Option ν)

/-- An iterator, the node it stands on, and the operations its user calls one after the other. -/
structure Iterator (ν α : Type*) where
  ops : List (IterOp α)
  node : Option ν := none
  phase : ReadPhase ν α := .idle

section Reading
variable [DecidableEq ν] (cmp : α → α → Ordering) (key : ν → α)

/-- What an operation does once a walk has given it a node: it is done there (`none`), or it
begins another walk. Only the loop of `SeekForPrev` does. -/
def IterOp.again : IterOp α → Search α → Option ν → Option (Search α)
  | .seekForPrev _, .greaterOrEqual _, none => some .last
  | .seekForPrev target, _, some n =>
    if cmp target (key n) = .lt then some (.lessThan (key n)) else none
  | _, _, _ => none

/-- The operation is over and the iterator stands on the node. -/
def Iterator.finish (it : Iterator ν α) (node : Option ν) : Iterator ν α :=
  { ops := it.ops.tail, node := node }

/-- The first turn of an operation; `Next` and `Prev` need a valid iterator. -/
def Iterator.enter (it : Iterator ν α) (sh : Shared ν) : IterOp α → Iterator ν α
  | .seekToFirst => it.finish (sh.next none 0)
  | .seekToLast => { it with phase := .waiting .last }
  | .seek target => { it with phase := .waiting (.greaterOrEqual target) }
  | .seekForPrev target => { it with phase := .waiting (.greaterOrEqual target) }
  | .next =>
    match it.node with
    | none => it.finish none
    | some n => it.finish (sh.next (some n) 0)
  | .prev =>
    match it.node with
    | none => it.finish none
    | some n => { it with phase := .waiting (.lessThan (key n)) }

def Iterator.turn (it : Iterator ν α) (seen : ℕ) (sh : Shared ν) : Iterator ν α :=
  match it.ops with
  | [] => it
  | op :: _ =>
    match it.phase with
    | .idle => it.enter key sh op
    | .waiting search =>
      { it with phase := .walking search none (sh.getMaxHeight 1 seen - 1) none }
    | .walking search x level bigger =>
      match search.step cmp key sh x level bigger with
      | .standing x level bigger => { it with phase := .walking search x level bigger }
      | .arrived node =>
        match op.again cmp key search node with
        | some search => { it with phase := .waiting search }
        | none => it.finish node

end Reading

/-- The list, the calls of `InsertConcurrently`, one for each node, and the iterators. -/
structure Race (ν ρ α : Type*) where
  shared : Shared ν
  inserts : ν → InsertPhase ν
  iterators : ρ → Iterator ν α

/-- Which thread takes its next step, and what the memory shows it of the greatest height. -/
inductive Turn (ν ρ : Type*)
  | insert (x : ν) (seen : ℕ) (weak : Bool)
  | iterate (r : ρ) (seen : ℕ)

section Running
variable [DecidableEq ν] [DecidableEq ρ] (cmp : α → α → Ordering) (key : ν → α) (height : ν → ℕ)

def turn (ra : Race ν ρ α) : Turn ν ρ → Race ν ρ α
  | .insert x seen weak =>
    let done := insertTurn cmp key (height x) x seen weak ra.shared (ra.inserts x)
    { ra with shared := done.1, inserts := Function.update ra.inserts x done.2 }
  | .iterate r seen =>
    let it := (ra.iterators r).turn cmp key seen ra.shared
    { ra with iterators := Function.update ra.iterators r it }

end Running

/-- An empty list; the links of a node that no call has stored into are `garbage`. -/
def start (garbage : ν → ℕ → Option ν) (ops : ρ → List (IterOp α)) : Race ν ρ α where
  shared := { next := fun n level => n.elim none fun x => garbage x level }
  inserts _ := .called
  iterators r := { ops := ops r }

end ZeroFlush.SkipLists
