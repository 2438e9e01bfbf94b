import Mathlib.Order.Nat
import ZeroFlush.GuardedRuns
import ZeroFlush.OrderedInsertion
import ZeroFlush.SkipLists

/-! # Towers of a skip list

Whatever threads insert and in whatever order they take turns, the links of every level lead along
the nodes in the order of their keys, and a node is linked from the bottom of its tower upwards. -/
namespace ZeroFlush.SkipListTowers
open LinkPaths OrderedInsertion GuardedRuns SkipLists

variable {ν ρ α : Type*} (cmp : α → α → Ordering) (key : ν → α) (height : ν → ℕ)

def byKey (a b : ν) : Ordering := cmp (key a) (key b)

instance [Std.TransCmp cmp] : Std.TransCmp (byKey cmp key) := transCmp_comap key

/-- The number of levels at which a call has linked its node. -/
def linkedTo (height : ℕ) : InsertPhase ν → ℕ
  | .called | .raising _ | .finding _ _ _ _ true | .returned false => 0
  | .finding _ level _ _ false | .linking _ level | .publishing _ level => level
  | .returned true => height

/-- The head or a node in front of the key. -/
def InFront (k : α) (l : List ν) (p : Option ν) : Prop :=
  p = none ∨ ∃ n ∈ l, p = some n ∧ cmp (key n) k = .lt

/-- The null pointer or a node that is not in front of the key. -/
def Behind (k : α) (p : Option ν) : Prop := ∀ n, p = some n → cmp (key n) k ≠ .lt

structure Bracketed (L : ℕ → List ν) (k : α) (splice : Splice ν) : Prop where
  prev : ∀ i, InFront cmp key k (L i) (splice.prev i)
  next : ∀ i, Behind cmp key k (splice.next i)
  mem : ∀ i n, splice.next i = some n → n ∈ L i

/-- What a call knows when it has come to a phase. -/
def Sound (L : ℕ → List ν) (sh : Shared ν) (x : ν) : InsertPhase ν → Prop
  | .called => True
  | .raising maxHeight => maxHeight < height x ∧ maxHeight ≤ sh.maxHeight
  | .finding splice level before after descending =>
    (Bracketed cmp key L (key x) splice ∧ height x ≤ sh.maxHeight) ∧
      (InFront cmp key (key x) (L level) before ∧ Behind cmp key (key x) after) ∧
      level < sh.maxHeight ∧ (descending = false → level < height x)
  | .linking splice level =>
    (Bracketed cmp key L (key x) splice ∧ height x ≤ sh.maxHeight) ∧ level < height x
  | .publishing splice level =>
    (Bracketed cmp key L (key x) splice ∧ height x ≤ sh.maxHeight) ∧ level < height x ∧
      sh.next (some x) level = splice.next level ∧
      (level = 0 → duplicate cmp key (key x) splice = false)
  | .returned true => height x ≤ sh.maxHeight
  | .returned false => ∃ y ∈ L 0, cmp (key y) (key x) = .eq

/-- The levels as lists of nodes, and how far the calls are. -/
structure Towers (L : ℕ → List ν) (sh : Shared ν) (inserts : ν → InsertPhase ν) : Prop where
  linked : ∀ i, Linked (fun p => sh.next p i) none (L i)
  ascending : ∀ i, Ascending (byKey cmp key) (L i)
  mem : ∀ i x, x ∈ L i ↔ i < linkedTo (height x) (inserts x)
  sound : ∀ x, Sound cmp key height L sh x (inserts x)
  one_le : 1 ≤ sh.maxHeight
  le_max : sh.maxHeight ≤ kMaxHeight

variable {cmp key height} {L L' : ℕ → List ν} {sh sh' : Shared ν} {inserts : ν → InsertPhase ν}
  {k : α} {p : Option ν} {l l' : List ν} {splice : Splice ν} {phase : InsertPhase ν} {x : ν}
  {level : ℕ}

theorem InFront.mono (h : InFront cmp key k l p) (hl : l ⊆ l') : InFront cmp key k l' p := by
  rcases h with h | ⟨n, hn, h⟩
  · exact .inl h
  · exact .inr ⟨n, hl hn, h⟩

theorem InFront.onPath (h : InFront cmp key k l p) : p = none ∨ ∃ n ∈ l, p = some n := by
  rcases h with h | ⟨n, hn, h, -⟩
  · exact .inl h
  · exact .inr ⟨n, hn, h⟩

theorem behind_none : Behind cmp key k none := by
  intro n hn
  cases hn

theorem behind_of_not_after (h : keyIsAfterNode cmp key k p = false) : Behind cmp key k p := by
  intro n hn hlt
  simp [hn, keyIsAfterNode, hlt] at h

theorem Bracketed.mono (h : Bracketed cmp key L k splice) (hL : ∀ i, L i ⊆ L' i) :
    Bracketed cmp key L' k splice where
  prev i := (h.prev i).mono (hL i)
  next := h.next
  mem i n hn := hL i (h.mem i n hn)

theorem bracketed_empty : Bracketed cmp key L k {} where
  prev _ := .inl rfl
  next _ := behind_none
  mem _ _ h := by cases h

theorem Bracketed.set [DecidableEq ν] (h : Bracketed cmp key L k splice) {next : Option ν}
    (hp : InFront cmp key k (L level) p) (hn : Behind cmp key k next)
    (hmem : ∀ n, next = some n → n ∈ L level) :
    Bracketed cmp key L k (splice.set level p next) := by
  constructor
  · intro i
    rcases eq_or_ne i level with rfl | hi
    · simpa [Splice.set] using hp
    · simpa [Splice.set, hi] using h.prev i
  · intro i
    rcases eq_or_ne i level with rfl | hi
    · simpa [Splice.set] using hn
    · simpa [Splice.set, hi] using h.next i
  · intro i
    rcases eq_or_ne i level with rfl | hi
    · simpa [Splice.set] using hmem
    · simpa [Splice.set, hi] using h.mem i

/-- More nodes and greater heights change nothing of what a call knows. -/
theorem Sound.mono (h : Sound cmp key height L sh x phase) (hL : ∀ i, L i ⊆ L' i)
    (hmax : sh.maxHeight ≤ sh'.maxHeight)
    (hown : ∀ i, i = linkedTo (height x) phase → sh'.next (some x) i = sh.next (some x) i) :
    Sound cmp key height L' sh' x phase := by
  cases phase with
  | called => trivial
  | raising m => exact ⟨h.1, h.2.trans hmax⟩
  | finding splice level before after descending =>
    obtain ⟨⟨hb, hh⟩, ⟨hf, ha⟩, hlevel, hlt⟩ := h
    exact ⟨⟨hb.mono hL, hh.trans hmax⟩, ⟨hf.mono (hL level), ha⟩, hlevel.trans_le hmax, hlt⟩
  | linking splice level =>
    obtain ⟨⟨hb, hh⟩, hlevel⟩ := h
    exact ⟨⟨hb.mono hL, hh.trans hmax⟩, hlevel⟩
  | publishing splice level =>
    obtain ⟨⟨hb, hh⟩, hlevel, hnext, hdup⟩ := h
    exact ⟨⟨hb.mono hL, hh.trans hmax⟩, hlevel, (hown level rfl).trans hnext, hdup⟩
  | returned ok =>
    cases ok with
    | true => exact le_trans h hmax
    | false =>
      obtain ⟨y, hy, he⟩ := h
      exact ⟨y, hL 0 hy, he⟩

theorem Towers.subset (h : Towers cmp key height L sh inserts) {i j : ℕ} (hij : i ≤ j) :
    L j ⊆ L i := by
  intro x hx
  apply (h.mem i x).mpr
  exact lt_of_le_of_lt hij ((h.mem j x).mp hx)

theorem linkedTo_le (h : Sound cmp key height L sh x phase) (hlinked : linkedTo (height x) phase ≠ 0) :
    linkedTo (height x) phase ≤ height x ∧ height x ≤ sh.maxHeight := by
  cases phase with
  | called => cases hlinked rfl
  | raising m => cases hlinked rfl
  | finding splice level before after descending =>
    cases descending with
    | true => cases hlinked rfl
    | false => exact ⟨(h.2.2.2 rfl).le, h.1.2⟩
  | linking splice level => exact ⟨h.2.le, h.1.2⟩
  | publishing splice level => exact ⟨h.2.1.le, h.1.2⟩
  | returned ok =>
    cases ok with
    | true => exact ⟨le_refl _, h⟩
    | false => cases hlinked rfl

/-- A node stands on levels of its tower only, and all of them are below the greatest height. -/
theorem Towers.lt_height (h : Towers cmp key height L sh inserts) (hx : x ∈ L level) :
    level < height x ∧ height x ≤ sh.maxHeight := by
  have hlt := (h.mem level x).mp hx
  have hle := linkedTo_le (h.sound x) (Nat.ne_of_gt (Nat.zero_lt_of_lt hlt))
  exact ⟨hlt.trans_le hle.1, hle.2⟩

theorem Towers.lt_maxHeight (h : Towers cmp key height L sh inserts) (hx : x ∈ L level) :
    level < sh.maxHeight := (h.lt_height hx).1.trans_le (h.lt_height hx).2

/-- A link of a level leads to a node of the level. -/
theorem Towers.next_mem (h : Towers cmp key height L sh inserts)
    (hp : p = none ∨ ∃ n ∈ L level, p = some n) : ∀ n, sh.next p level = some n → n ∈ L level :=
  (h.linked level).next_mem hp

section Cuts
variable [Std.TransCmp cmp]

theorem cut_front (h : Ascending (byKey cmp key) l) (k : α) :
    Cut (fun n => cmp (key n) k == .lt) l := by
  apply h.imp
  intro a b hab hb
  simp only [beq_iff_eq] at hb ⊢
  exact Std.TransCmp.lt_trans hab hb

/-- The place in front of a key whose link leads behind it. -/
theorem Towers.bracket (h : Towers cmp key height L sh inserts)
    (hp : InFront cmp key k (L level) p) (hn : Behind cmp key k (sh.next p level)) :
    p = lastOf none ((L level).takeWhile fun n => cmp (key n) k == .lt) ∧
      sh.next p level = (L level).find? fun n => !(cmp (key n) k == .lt) := by
  apply (h.linked level).bracket (cut_front (h.ascending level) k)
  · rcases hp with rfl | ⟨n, hmem, rfl, hlt⟩
    · exact .inl rfl
    · exact .inr ⟨n, hmem, rfl, by simp [hlt]⟩
  · intro n hnext
    simpa using hn n hnext

theorem nodup_of_ascending (h : Ascending (byKey cmp key) l) : l.Nodup := by
  apply h.imp
  intro a b hab he
  subst he
  have hself : byKey cmp key a a = .eq := Std.ReflCmp.compare_self
  rw [hself] at hab
  cases hab

theorem eq_of_mem_ascending (h : Ascending (byKey cmp key) l) {a b : ν} (ha : a ∈ l) (hb : b ∈ l)
    (he : cmp (key a) (key b) = .eq) : a = b := by
  by_contra hne
  have hlt : byKey cmp key a b = .lt ∨ byKey cmp key b a = .lt := by
    induction l with
    | nil => cases ha
    | cons y ys ih =>
      obtain ⟨hy, hys⟩ := List.pairwise_cons.mp h
      rcases List.mem_cons.mp ha with rfl | hays
      · rcases List.mem_cons.mp hb with rfl | hbys
        · cases hne rfl
        · exact .inl (hy b hbys)
      · rcases List.mem_cons.mp hb with rfl | hbys
        · exact .inr (hy a hays)
        · exact ih hys hays hbys
  rcases hlt with hlt | hlt
  · cases he.symm.trans hlt
  · cases (Std.OrientedCmp.eq_symm he).symm.trans hlt

end Cuts

/-- The new node of a level goes behind all that are less. -/
def inserted (cmp : α → α → Ordering) (key : ν → α) (x : ν) (l : List ν) : List ν :=
  l.takeWhile (fun n => cmp (key n) (key x) == .lt) ++
    x :: l.dropWhile fun n => cmp (key n) (key x) == .lt

theorem mem_inserted {y : ν} : y ∈ inserted cmp key x l ↔ y = x ∨ y ∈ l := by
  have hsplit := @List.takeWhile_append_dropWhile _ (fun n => cmp (key n) (key x) == .lt) l
  rw [inserted, List.mem_append, List.mem_cons, ← or_assoc, or_comm, ← or_assoc, or_comm,
    or_comm (a := y ∈ List.dropWhile _ l), ← List.mem_append, hsplit]

theorem getMaxHeight_le (sh : Shared ν) (least seen : ℕ) :
    sh.getMaxHeight least seen ≤ sh.maxHeight := by
  rw [Shared.getMaxHeight]
  split
  next h => exact h.2
  next => exact le_refl _

theorem le_getMaxHeight {least : ℕ} (h : least ≤ sh.maxHeight) (seen : ℕ) :
    least ≤ sh.getMaxHeight least seen := by
  rw [Shared.getMaxHeight]
  split
  next hs => exact hs.1
  next => exact h

theorem one_le_getMaxHeight (h : 1 ≤ sh.maxHeight) {least : ℕ} (hleast : 1 ≤ least) (seen : ℕ) :
    1 ≤ sh.getMaxHeight least seen := by
  rw [Shared.getMaxHeight]
  split
  next hs => exact hleast.trans hs.1
  next => exact h

theorem sound_recompute {m : ℕ} (hm : 1 ≤ m) (hle : m ≤ sh.maxHeight) (hx : height x ≤ m) :
    Sound cmp key height L sh x (recompute m) := by
  refine ⟨⟨bracketed_empty, hx.trans hle⟩, ⟨.inl rfl, behind_none⟩, ?_, ?_⟩
  · omega
  · intro hd
    cases hd

/-- The splice of a level is found: the walk goes on one level below, or the node is linked. -/
theorem sound_found (h : Towers cmp key height L sh inserts) (hx : 1 ≤ height x)
    (hb : Bracketed cmp key L (key x) splice) (hh : height x ≤ sh.maxHeight)
    (hlevel : level < sh.maxHeight) {descending : Bool}
    (hlt : descending = false → level < height x) :
    Sound cmp key height L sh x (found splice level descending) := by
  cases descending with
  | false => exact ⟨⟨hb, hh⟩, hlt rfl⟩
  | true =>
    cases level with
    | zero => exact ⟨⟨hb, hh⟩, hx⟩
    | succ level =>
      refine ⟨⟨hb, hh⟩, ⟨?_, hb.next (level + 1)⟩, by omega, ?_⟩
      · exact (hb.prev (level + 1)).mono (h.subset (Nat.le_succ level))
      · intro hd
        cases hd

theorem linkedTo_found (height level : ℕ) (splice splice' : Splice ν) (before after : Option ν)
    (descending : Bool) :
    linkedTo height (found splice level descending) =
      linkedTo height (.finding splice' level before after descending) := by
  cases descending with
  | false => rfl
  | true =>
    cases level with
    | zero => rfl
    | succ level => rfl

theorem gt_of_not_duplicate (h : duplicate cmp key k splice = false) {n : ν}
    (hn : splice.next 0 = some n) : cmp (key n) k = .gt := by
  simpa [hn] using (Bool.or_eq_false_iff.mp h).1

/-- The checks find an equal node of level 0. -/
theorem exists_eq_of_duplicate (hb : Bracketed cmp key L k splice)
    (h : duplicate cmp key k splice = true) : ∃ y ∈ L 0, cmp (key y) k = .eq := by
  rcases Bool.or_eq_true_iff.mp h with h | h
  · obtain ⟨n, hn, hle⟩ := (Option.any_eq_true _ _).mp h
    refine ⟨n, hb.mem 0 n hn, ?_⟩
    have hge := hb.next 0 n hn
    cases hc : cmp (key n) k with
    | lt => cases hge hc
    | eq => rfl
    | gt => simp [hc] at hle
  · obtain ⟨n, hn, hge⟩ := (Option.any_eq_true _ _).mp h
    rcases hb.prev 0 with hnone | ⟨m, -, hm, hlt⟩
    · cases hn.symm.trans hnone
    · cases hn.symm.trans hm
      simp [hlt] at hge

theorem towers_start (garbage : ν → ℕ → Option ν) (ops : ρ → List (IterOp α)) :
    Towers cmp key height (fun _ => []) (start garbage ops).shared
      (start garbage ops).inserts where
  linked _ := rfl
  ascending _ := List.Pairwise.nil
  mem i x := by simp [start, linkedTo]
  sound _ := trivial
  one_le := le_refl 1
  le_max := show 1 ≤ kMaxHeight by decide

section Turns
variable [DecidableEq ν]

/-- A turn of one call that links no node. -/
theorem Towers.stay (h : Towers cmp key height L sh inserts) (x : ν)
    (hlinks : ∀ i p, (p = none ∨ ∃ n ∈ L i, p = some n) → sh'.next p i = sh.next p i)
    (hothers : ∀ y, y ≠ x → ∀ i, sh'.next (some y) i = sh.next (some y) i)
    (hmax : sh.maxHeight ≤ sh'.maxHeight) (hle : sh'.maxHeight ≤ kMaxHeight)
    (hphase : linkedTo (height x) phase = linkedTo (height x) (inserts x))
    (hsound : Sound cmp key height L sh' x phase) :
    Towers cmp key height L sh' (Function.update inserts x phase) where
  linked i := by
    apply (h.linked i).congr (hlinks i none (.inl rfl))
    intro n hn
    exact hlinks i (some n) (.inr ⟨n, hn, rfl⟩)
  ascending := h.ascending
  mem i y := by
    rcases eq_or_ne y x with rfl | hy
    · simp [hphase, h.mem i y]
    · simp [hy, h.mem i y]
  sound y := by
    rcases eq_or_ne y x with rfl | hy
    · simpa using hsound
    · simpa [hy] using (h.sound y).mono (fun _ => List.Subset.refl _) hmax fun i _ => hothers y hy i
  one_le := h.one_le.trans hmax
  le_max := hle

/-- The swap of a link puts the node at its place in the order of the level. -/
theorem Towers.publish [Std.TransCmp cmp] (h : Towers cmp key height L sh inserts)
    (hp : InFront cmp key (key x) (L level) p)
    (hgt : ∀ n, sh.next p level = some n → cmp (key n) (key x) = .gt)
    (hx : x ∉ L level) (hnew : sh.next (some x) level = sh.next p level) :
    Linked (fun q => (sh.setNext p level (some x)).next q level) none
        (inserted cmp key x (L level)) ∧
      insertNew (byKey cmp key) x (L level) = some (inserted cmp key x (L level)) := by
  have hbehind : Behind cmp key (key x) (sh.next p level) := by
    intro n hn hlt
    cases (hgt n hn).symm.trans hlt
  obtain ⟨hlast, hfind⟩ := h.bracket hp hbehind
  have hsplit := @List.takeWhile_append_dropWhile _ (fun n => cmp (key n) (key x) == .lt) (L level)
  have hpx : p ≠ some x := by
    rcases hp with rfl | ⟨n, hn, rfl, -⟩
    · simp
    · intro he
      cases he
      exact hx hn
  apply And.intro
  · have hlinked := h.linked level
    rw [← hsplit] at hlinked
    apply hlinked.insert
    · simp
    · rw [hsplit]
      exact nodup_of_ascending (h.ascending level)
    · simp
    · rwa [hsplit]
    · simp [← hlast, Shared.setNext]
    · simpa [← hlast, Shared.setNext, hpx.symm] using hnew
    · intro q hq _
      rw [← hlast] at hq
      simp [Shared.setNext, hq]
  · apply insertNew_eq_some_of_ne
    intro y hy he
    have hyx : cmp (key y) (key x) = .eq := Std.OrientedCmp.eq_symm he
    cases hn : sh.next p level with
    | none =>
      have hall := List.find?_eq_none.mp (hfind.symm.trans hn) y hy
      simp [hyx] at hall
    | some n =>
      rcases find?_ascending (h.ascending level) (hfind.symm.trans hn) y hy (by simp [hyx]) with
        rfl | hlt
      · cases hyx.symm.trans (hgt y hn)
      · have hxn := Std.OrientedCmp.lt_of_gt (hgt n hn)
        cases he.symm.trans (Std.TransCmp.lt_trans hxn hlt)

/-- What a turn of an insertion does to the order of level 0: nothing, or the node takes its place
there, or the node is found to be a duplicate. -/
def takesEffect (cmp : α → α → Ordering) (key : ν → α) (x : ν) (sh : Shared ν) :
    InsertPhase ν → Option Bool
  | .linking splice 0 => if duplicate cmp key (key x) splice then some false else none
  | .publishing splice 0 => if sh.next (splice.prev 0) 0 = splice.next 0 then some true else none
  | _ => none

def Effect (cmp : α → α → Ordering) (key : ν → α) (x : ν) (l l' : List ν) : Option Bool → Prop
  | none => l' = l
  | some true => insertNew (byKey cmp key) x l = some l'
  | some false => insertNew (byKey cmp key) x l = none ∧ l' = l

/-- The towers after a turn of the insertion of `x`, and its effect on level 0. -/
def Advances (cmp : α → α → Ordering) (key : ν → α) (height : ν → ℕ) (L : ℕ → List ν)
    (sh : Shared ν) (inserts : ν → InsertPhase ν) (x : ν) (effect : Option Bool)
    (done : Shared ν × InsertPhase ν) : Prop :=
  ∃ L', Towers cmp key height L' done.1 (Function.update inserts x done.2) ∧
    (∀ i, L i ⊆ L' i) ∧ sh.maxHeight ≤ done.1.maxHeight ∧ Effect cmp key x (L 0) (L' 0) effect

theorem Towers.advances_local (h : Towers cmp key height L sh inserts)
    (hphase : linkedTo (height x) phase = linkedTo (height x) (inserts x))
    (hsound : Sound cmp key height L sh x phase) :
    Advances cmp key height L sh inserts x none (sh, phase) := by
  refine ⟨L, ?_, fun _ => List.Subset.refl _, le_refl _, rfl⟩
  exact h.stay x (fun _ _ _ => rfl) (fun _ _ _ => rfl) (le_refl _) h.le_max hphase hsound

theorem Towers.advances_afterLoad (h : Towers cmp key height L sh inserts)
    (hphase : linkedTo (height x) (inserts x) = 0) {least : ℕ} (hleast : 1 ≤ least) (seen : ℕ) :
    Advances cmp key height L sh inserts x none
      (sh, afterLoad (height x) (sh.getMaxHeight least seen)) := by
  rw [afterLoad]
  split
  next hgt =>
    apply h.advances_local
    · exact hphase.symm
    · exact ⟨hgt, getMaxHeight_le sh _ seen⟩
  next hle =>
    apply h.advances_local
    · exact hphase.symm
    · exact sound_recompute (one_le_getMaxHeight h.one_le hleast seen) (getMaxHeight_le sh _ seen)
        (not_lt.mp hle)

theorem Towers.advances_raise (h : Towers cmp key height L sh inserts)
    (hphase : linkedTo (height x) (inserts x) = 0) (hx : sh.maxHeight < height x)
    (hmax : height x ≤ kMaxHeight) :
    Advances cmp key height L sh inserts x none
      ({ sh with maxHeight := height x }, recompute (height x)) := by
  refine ⟨L, ?_, fun _ => List.Subset.refl _, hx.le, rfl⟩
  apply h.stay x
  · exact fun _ _ _ => rfl
  · exact fun _ _ _ => rfl
  · exact hx.le
  · exact hmax
  · exact hphase.symm
  exact sound_recompute (h.one_le.trans hx.le) (le_refl _) (le_refl _)

theorem Towers.advances_finding (h : Towers cmp key height L sh inserts) (hx : 1 ≤ height x)
    {before after : Option ν} {descending : Bool}
    (hphase : inserts x = .finding splice level before after descending) :
    Advances cmp key height L sh inserts x none
      (if sh.next before level = after ∨
          keyIsAfterNode cmp key (key x) (sh.next before level) = false then
        (sh, found (splice.set level before (sh.next before level)) level descending)
      else (sh, .finding splice level (sh.next before level) after descending)) := by
  have hs := h.sound x
  rw [hphase] at hs
  obtain ⟨⟨hb, hh⟩, ⟨hf, ha⟩, hlevel, hlt⟩ := hs
  split
  next hend =>
    have hbehind : Behind cmp key (key x) (sh.next before level) := by
      rcases hend with he | hn
      · rw [he]
        exact ha
      · exact behind_of_not_after hn
    apply h.advances_local
    · rw [hphase]
      apply linkedTo_found
    · exact sound_found h hx (hb.set hf hbehind (h.next_mem hf.onPath)) hh hlevel hlt
  next hgo =>
    rw [not_or, Bool.not_eq_false] at hgo
    have hfront : InFront cmp key (key x) (L level) (sh.next before level) := by
      cases hn : sh.next before level with
      | none => exact .inl rfl
      | some n =>
        have hlt := hgo.2
        rw [hn] at hlt
        exact .inr ⟨n, h.next_mem hf.onPath n hn, rfl, by simpa [keyIsAfterNode] using hlt⟩
    apply h.advances_local
    · rw [hphase]
      cases descending <;> rfl
    · exact ⟨⟨hb, hh⟩, ⟨hfront, ha⟩, hlevel, hlt⟩

theorem setNext_next (sh : Shared ν) (p q : Option ν) (i j : ℕ) (r : Option ν) :
    (sh.setNext p i r).next q j = if q = p ∧ j = i then r else sh.next q j := by
  rcases eq_or_ne q p with rfl | hq
  · rcases eq_or_ne j i with rfl | hj
    · simp [Shared.setNext]
    · simp [Shared.setNext, hj]
  · simp [Shared.setNext, hq]

theorem Towers.advances_linking [Std.TransCmp cmp] (h : Towers cmp key height L sh inserts)
    (hphase : inserts x = .linking splice level) :
    Advances cmp key height L sh inserts x (takesEffect cmp key x sh (.linking splice level))
      (if level = 0 ∧ duplicate cmp key (key x) splice then (sh, .returned false)
      else (sh.setNext (some x) level (splice.next level), .publishing splice level)) := by
  have hs := h.sound x
  have hmem := h.mem level x
  rw [hphase] at hs hmem
  obtain ⟨⟨hb, hh⟩, hlevel⟩ := hs
  split
  next hdup =>
    obtain ⟨rfl, hd⟩ := hdup
    obtain ⟨y, hy, he⟩ := exists_eq_of_duplicate hb hd
    refine ⟨L, ?_, fun _ => List.Subset.refl _, le_refl _, ?_⟩
    · apply h.stay x
      · exact fun _ _ _ => rfl
      · exact fun _ _ _ => rfl
      · exact le_refl _
      · exact h.le_max
      · rw [hphase]
        rfl
      · exact ⟨y, hy, he⟩
    · rw [takesEffect, if_pos hd]
      exact ⟨insertNew_eq_none_of_eq (h.ascending 0) hy (Std.OrientedCmp.eq_symm he), rfl⟩
  next hgo =>
    have hnone : takesEffect cmp key x sh (.linking splice level) = none := by
      cases level with
      | zero => simpa [takesEffect] using hgo
      | succ level => rfl
    rw [hnone]
    refine ⟨L, ?_, fun _ => List.Subset.refl _, le_refl _, rfl⟩
    apply h.stay x
    · intro i p hp
      rw [setNext_next, if_neg]
      rintro ⟨rfl, rfl⟩
      rcases hp with hp | ⟨n, hn, hp⟩
      · cases hp
      · cases hp
        exact lt_irrefl _ (hmem.mp hn)
    · intro y hy i
      rw [setNext_next, if_neg]
      rintro ⟨he, -⟩
      exact hy (Option.some.inj he)
    · exact le_refl _
    · exact h.le_max
    · rw [hphase]
      rfl
    · refine ⟨⟨hb, hh⟩, hlevel, ?_, ?_⟩
      · simp [setNext_next]
      · intro h0
        simpa [h0] using hgo

/-- The swap links the node at its level, where all other levels and calls stay as they are. -/
theorem Towers.linkUp [Std.TransCmp cmp] (h : Towers cmp key height L sh inserts)
    (hp : InFront cmp key (key x) (L level) p)
    (hgt : ∀ n, sh.next p level = some n → cmp (key n) (key x) = .gt)
    (hlevel : linkedTo (height x) (inserts x) = level)
    (hnew : sh.next (some x) level = sh.next p level)
    (hphase : linkedTo (height x) phase = level + 1)
    (hsound : ∀ L', (∀ i, L i ⊆ L' i) →
      Sound cmp key height L' (sh.setNext p level (some x)) x phase) :
    Advances cmp key height L sh inserts x (if level = 0 then some true else none)
      (sh.setNext p level (some x), phase) := by
  have hx : x ∉ L level := by
    intro hx
    have hlt := (h.mem level x).mp hx
    omega
  obtain ⟨hlinked, hins⟩ := h.publish hp hgt hx hnew
  have hsub : ∀ i, L i ⊆ Function.update L level (inserted cmp key x (L level)) i := by
    intro i y hy
    rcases eq_or_ne i level with rfl | hi
    · simpa using mem_inserted.mpr (.inr hy)
    · simpa [hi] using hy
  refine ⟨Function.update L level (inserted cmp key x (L level)), ?_, hsub, le_refl _, ?_⟩
  · constructor
    · intro i
      rcases eq_or_ne i level with rfl | hi
      · simpa using hlinked
      · have hkeep : (fun q => (sh.setNext p level (some x)).next q i) = fun q => sh.next q i := by
          funext q
          rw [setNext_next, if_neg fun hq => hi hq.2]
        simpa [hi, hkeep] using h.linked i
    · intro i
      rcases eq_or_ne i level with rfl | hi
      · simpa using ascending_insertNew (h.ascending i) hins
      · simpa [hi] using h.ascending i
    · intro i y
      rcases eq_or_ne y x with rfl | hy
      · rcases eq_or_ne i level with rfl | hi
        · simp [mem_inserted, hphase]
        · have hiff := h.mem i y
          simp only [hlevel] at hiff
          simp only [Function.update_self, Function.update_of_ne hi, hphase, hiff]
          omega
      · rcases eq_or_ne i level with rfl | hi
        · simp [mem_inserted, hy, h.mem i y]
        · simp [hy, hi, h.mem i y]
    · intro y
      rcases eq_or_ne y x with rfl | hy
      · simpa using hsound _ hsub
      · rw [Function.update_of_ne hy]
        apply (h.sound y).mono hsub
        · exact le_refl _
        · intro i hi
          rw [setNext_next, if_neg]
          rintro ⟨he, rfl⟩
          rcases hp with rfl | ⟨n, hn, rfl, -⟩
          · cases he
          · cases he
            have hlt := (h.mem i y).mp hn
            omega
    · exact h.one_le
    · exact h.le_max
  · cases level with
    | zero => simpa [Effect] using hins
    | succ level => simp [Effect]

theorem Towers.advances_publishing [Std.TransCmp cmp] (h : Towers cmp key height L sh inserts)
    (hphase : inserts x = .publishing splice level) :
    Advances cmp key height L sh inserts x (takesEffect cmp key x sh (.publishing splice level))
      (if sh.next (splice.prev level) level = splice.next level then
        (sh.setNext (splice.prev level) level (some x),
          if level + 1 < height x then .linking splice (level + 1) else .returned true)
      else (sh, .finding splice level (splice.prev level) none false)) := by
  have hs := h.sound x
  have hmem := h.mem level x
  rw [hphase] at hs hmem
  obtain ⟨⟨hb, hh⟩, hlevel, hnext, hdup⟩ := hs
  split
  next hcas =>
    have heffect : takesEffect cmp key x sh (.publishing splice level) =
        if level = 0 then some true else none := by
      cases level with
      | zero => simp [takesEffect, hcas]
      | succ level => rfl
    rw [heffect]
    apply h.linkUp (hb.prev level)
    · intro n hn
      cases level with
      | zero => exact gt_of_not_duplicate (hdup rfl) (hcas ▸ hn)
      | succ level =>
        have hge := hb.next (level + 1) n (hcas ▸ hn)
        have hnx : n ≠ x := by
          rintro rfl
          exact lt_irrefl _ (hmem.mp (h.next_mem (hb.prev (level + 1)).onPath n hn))
        cases hc : cmp (key n) (key x) with
        | lt => cases hge hc
        | gt => rfl
        | eq =>
          have hx0 : x ∈ L 0 := by
            apply (h.mem 0 x).mpr
            rw [hphase]
            exact Nat.succ_pos level
          have hn0 := h.subset (Nat.zero_le _) (h.next_mem (hb.prev (level + 1)).onPath n hn)
          cases hnx (eq_of_mem_ascending (h.ascending 0) hn0 hx0 hc)
    · rw [hphase]
      rfl
    · exact hnext.trans hcas.symm
    · split
      next => rfl
      next hend =>
        show height x = level + 1
        omega
    · intro L' hL
      split
      next hgo => exact ⟨⟨hb.mono hL, hh⟩, hgo⟩
      next => exact hh
  next hfail =>
    have hnone : takesEffect cmp key x sh (.publishing splice level) = none := by
      cases level with
      | zero => simp [takesEffect, hfail]
      | succ level => rfl
    rw [hnone]
    apply h.advances_local
    · rw [hphase]
      rfl
    · refine ⟨⟨hb, hh⟩, ⟨hb.prev level, behind_none⟩, by omega, fun _ => hlevel⟩

/-- The step lemma: a turn of an insertion keeps the towers, and its effect on level 0 is that of
an insertion into a list at once, or none. -/
theorem Towers.advances_insertTurn [Std.TransCmp cmp] (h : Towers cmp key height L sh inserts)
    (hx : 1 ≤ height x) (hmax : height x ≤ kMaxHeight) (seen : ℕ) (weak : Bool) :
    Advances cmp key height L sh inserts x (takesEffect cmp key x sh (inserts x))
      (insertTurn cmp key (height x) x seen weak sh (inserts x)) := by
  cases hphase : inserts x with
  | called =>
    apply h.advances_afterLoad
    · rw [hphase]
      rfl
    · exact le_refl 1
  | raising m =>
    have hs := h.sound x
    rw [hphase] at hs
    rw [insertTurn]
    split
    next hcas =>
      apply h.advances_raise
      · rw [hphase]
        rfl
      · rw [hcas.1]
        exact hs.1
      · exact hmax
    next =>
      apply h.advances_afterLoad
      · rw [hphase]
        rfl
      · exact Nat.succ_pos m
  | finding splice level before after descending => exact h.advances_finding hx hphase
  | linking splice level => exact h.advances_linking hphase
  | publishing splice level => exact h.advances_publishing hphase
  | returned ok =>
    apply h.advances_local
    · rw [hphase]
    · have hs := h.sound x
      rwa [hphase] at hs

end Turns

end ZeroFlush.SkipListTowers
