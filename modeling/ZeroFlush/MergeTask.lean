import ZeroFlush.DeviceStreams
import ZeroFlush.SortKeys
import ZeroFlush.SourceMerges
import Mathlib.Tactic.FinCases

/-! # The merge on the device

`merge` holds the front record of every port and sends the least of them on, together with the number
of its port. It is a task: it starts over as long as its next port has something for it. What it
holds and the last port outlive a run. -/
namespace ZeroFlush.MergeTask
open FixedWidthCodec PrefixCompression DeviceStreams LexBytes SortKeys SourceMerges

/-- `key_byte_reverse`: the number whose highest byte stands first. -/
def keyByteReverse (bytes : Bytes) : ℕ := decodeFixed bytes.reverse

/-- The last word for a comparison: the rest of the user key above the flipped trailer. -/
def lastWord (key : Keystring) : ℕ :=
  keyByteReverse ((key.c.drop 16).take 8) * 2 ^ 64 + (2 ^ 64 - 1 - decodeFixed (key.c.drop 24))

/-- `keystring::operator<`. -/
def less (lhs rhs : Keystring) : Bool :=
  let key1 := keyByteReverse (lhs.c.take 16)
  let key2 := keyByteReverse (rhs.c.take 16)
  if key1 ≠ key2 then decide (key1 < key2) else decide (lastWord lhs < lastWord rhs)

def isSignalKey (key : Keystring) : Bool := key.c == signalKey.c

abbrev KmStreams := Fin 4 → List KeyMeta

/-- How many elements four streams have together. -/
def total {α : Type*} (src : Fin 4 → List α) : ℕ :=
  (src 0).length + (src 1).length + (src 2).length + (src 3).length

/-- The two static variables. -/
structure MergeState where
  temKm : Fin 4 → KeyMeta
  smallestNum : Fin 4

def MergeState.initial : MergeState := ⟨fun _ => ⟨⟨List.replicate 32 0, 0⟩, 0⟩, 0⟩

/-- A read from an empty stream waits. -/
def read (km : KmStreams) (i : Fin 4) : Option (KeyMeta × KmStreams) :=
  match km i with
  | [] => none
  | x :: xs => some (x, Function.update km i xs)

/-- The first record of another port, behind its signal. -/
def readFirst (i : Fin 4) (s : MergeState) (km : KmStreams) : Option (MergeState × KmStreams) :=
  if s.smallestNum ≠ i then do
    let (_, km) ← read km i
    let (tem, km) ← read km i
    some ({ s with temKm := Function.update s.temKm i tem }, km)
  else some (s, km)

/-- The record behind the one that was sent last. A signal instead of it starts a run: then the first
record of every port is read. -/
def readNext (s : MergeState) (km : KmStreams) : Option (MergeState × KmStreams) := do
  let (tem, km) ← read km s.smallestNum
  if isSignalKey tem.key then
    let (s, km) ← readFirst 0 s km
    let (s, km) ← readFirst 1 s km
    let (s, km) ← readFirst 2 s km
    let (s, km) ← readFirst 3 s km
    let (tem, km) ← read km s.smallestNum
    some ({ s with temKm := Function.update s.temKm s.smallestNum tem }, km)
  else some ({ s with temKm := Function.update s.temKm s.smallestNum tem }, km)

/-- The port with the least record; among equals the last one. -/
def select (temKm : Fin 4 → KeyMeta) : Fin 4 :=
  let smallerOf0and1 := if less (temKm 0).key (temKm 1).key then 0 else 1
  let smallerOf2and3 := if less (temKm 2).key (temKm 3).key then 2 else 3
  if less (temKm smallerOf0and1).key (temKm smallerOf2and3).key then smallerOf0and1
  else smallerOf2and3

/-- What is sent stands last. -/
def merge (s : MergeState) (km : KmStreams) :
    Option (MergeState × KmStreams × KeyMeta × Fin 4) := do
  let (s, km) ← readNext s km
  let smallestNum := select s.temKm
  some (⟨s.temKm, smallestNum⟩, km, s.temKm smallestNum, smallestNum)

/-- The task with at most `n` rounds. Between two rounds it may wait for the next run. -/
def mergeTask : ℕ → MergeState → KmStreams →
    Option (MergeState × KmStreams × List (KeyMeta × Fin 4))
  | 0, s, km => some (s, km, [])
  | n + 1, s, km =>
    match km s.smallestNum with
    | [] => some (s, km, [])
    | _ :: _ => do
      let (s, km, sent) ← merge s km
      let (s, km, later) ← mergeTask n s km
      some (s, km, sent :: later)

/-! ## The order of the keys -/

/-- A key as one number. -/
def rank (key : Bytes) : ℕ :=
  keyByteReverse (key.take 16) * 2 ^ 128 + lastWord ⟨key, KEY_LENGTH⟩

theorem lastWord_lt (key : Keystring) : lastWord key < 2 ^ 128 := by
  have hlt := decodeFixed_lt ((key.c.drop 16).take 8).reverse
  have hlen : ((key.c.drop 16).take 8).reverse.length ≤ 8 := by
    rw [List.length_reverse]
    exact List.length_take_le 8 _
  have hpow := Nat.pow_le_pow_right (by decide : 0 < 256) hlen
  rw [lastWord, keyByteReverse]
  omega

theorem less_iff {lhs rhs : Keystring} : less lhs rhs = true ↔ rank lhs.c < rank rhs.c := by
  have hlhs := lastWord_lt lhs
  have hrhs := lastWord_lt rhs
  have hl : lastWord ⟨lhs.c, KEY_LENGTH⟩ = lastWord lhs := rfl
  have hr : lastWord ⟨rhs.c, KEY_LENGTH⟩ = lastWord rhs := rfl
  rw [less, rank, rank, hl, hr]
  split
  · next hne =>
    rw [decide_eq_true_iff]
    omega
  · next heq =>
    rw [decide_eq_true_iff, not_not.mp heq]
    omega

/-- The user key as a number. -/
def userNumber (key : Bytes) : ℕ := keyByteReverse (extractUserKey key)

/-- The user key is the higher part of the number. -/
theorem rank_eq {key : Bytes} (hlen : key.length = 32) :
    rank key = 2 ^ 64 - 1 - extractInternalKeyFooter key + 2 ^ 64 * userNumber key := by
  have hfooter : extractInternalKeyFooter key = decodeFixed (key.drop 24) := by
    rw [extractInternalKeyFooter, footerBytes, hlen]
    rfl
  have huser : extractUserKey key = key.take 16 ++ (key.drop 16).take 8 := by
    rw [extractUserKey, hlen, ← List.take_add]
    rfl
  have hmiddle : ((key.drop 16).take 8).reverse.length = 8 := by
    rw [List.length_reverse, List.length_take, List.length_drop, hlen]
    rfl
  rw [hfooter, userNumber, huser, keyByteReverse, List.reverse_append, decodeFixed_append, hmiddle,
    rank, lastWord, keyByteReverse, keyByteReverse]
  dsimp only
  omega

section Keys
variable {a b : Bytes} (ha : a.length = 32) (hb : b.length = 32)

theorem length_extractUserKey (ha : a.length = 32) : (extractUserKey a).length = 24 := by
  rw [extractUserKey, List.length_take, ha]
  rfl

theorem extractInternalKeyFooter_lt (ha : a.length = 32) : extractInternalKeyFooter a < 2 ^ 64 := by
  have hlt := decodeFixed_lt (footerBytes a)
  rwa [length_footerBytes (by rw [ha]; decide)] at hlt

include ha hb

/-- The device compares keys of 32 bytes like the host. -/
theorem internalCompare_eq_compare_rank :
    internalCompare .bytewise a b = compare (rank a) (rank b) := by
  have hfa := extractInternalKeyFooter_lt ha
  have hfb := extractInternalKeyFooter_lt hb
  have hcompare : UserKeys.UserComparator.bytewise.compare (extractUserKey a) (extractUserKey b) =
      compare (userNumber a) (userNumber b) :=
    lex_eq_compare ((length_extractUserKey ha).trans (length_extractUserKey hb).symm)
  rw [internalCompare, hcompare, rank_eq ha, rank_eq hb, compare_digits (by omega) (by omega)]
  cases compare (userNumber a) (userNumber b) with
  | lt => rfl
  | gt => rfl
  | eq =>
    dsimp only [Ordering.then]
    rw [Nat.compare_eq_ite_lt]
    grind

theorem internalCompare_eq_lt_iff : internalCompare .bytewise a b = .lt ↔ rank a < rank b := by
  rw [internalCompare_eq_compare_rank ha hb, Nat.compare_eq_lt]

theorem rank_lt_iff : rank a < rank b ↔ userNumber a < userNumber b ∨
    userNumber a = userNumber b ∧ extractInternalKeyFooter b < extractInternalKeyFooter a := by
  have hfa := extractInternalKeyFooter_lt ha
  have hfb := extractInternalKeyFooter_lt hb
  rw [rank_eq ha, rank_eq hb]
  omega

theorem userNumber_inj : userNumber a = userNumber b ↔ extractUserKey a = extractUserKey b := by
  constructor
  · intro h
    have hlen : (extractUserKey a).length = (extractUserKey b).length :=
      (length_extractUserKey ha).trans (length_extractUserKey hb).symm
    apply eq_of_lex
    rw [lex_eq_compare hlen]
    exact Nat.compare_eq_eq.mpr h
  · exact congrArg keyByteReverse

theorem rank_inj : rank a = rank b ↔ a = b := by
  constructor
  · intro h
    have hfa := extractInternalKeyFooter_lt ha
    have hfb := extractInternalKeyFooter_lt hb
    rw [rank_eq ha, rank_eq hb] at h
    have huser : extractUserKey a = extractUserKey b := (userNumber_inj ha hb).mp (by omega)
    have hfooter : extractInternalKeyFooter a = extractInternalKeyFooter b := by omega
    have hbytes : footerBytes a = footerBytes b := by
      have hrow := congrArg (putFixed 8) hfooter
      have hla : (footerBytes a).length = 8 := length_footerBytes (by rw [ha]; decide)
      have hlb : (footerBytes b).length = 8 := length_footerBytes (by rw [hb]; decide)
      rwa [extractInternalKeyFooter, extractInternalKeyFooter, ← hla, putFixed_decodeFixed, hla, ← hlb,
        putFixed_decodeFixed] at hrow
    rw [← List.take_append_drop (a.length - kNumInternalBytes) a,
      ← List.take_append_drop (b.length - kNumInternalBytes) b]
    exact congrArg₂ (· ++ ·) huser hbytes
  · exact congrArg rank

end Keys

/-! ## One round -/

/-- Every port has its records in order, no two ports have one key, and the keys of the two marks do
not occur. -/
structure Mergeable (src : Fin 4 → List Entry) : Prop where
  sorted : ∀ i, (src i).Pairwise fun a b => rank a.key < rank b.key
  apart : ∀ i j, i ≠ j → ∀ a ∈ src i, ∀ b ∈ src j, rank a.key ≠ rank b.key
  below : ∀ i, ∀ a ∈ src i, rank a.key < rank maxKey.c
  real : ∀ i, ∀ a ∈ src i, a.key ≠ signalKey.c

/-- What a port has for the task: its records and the mark behind them. -/
def pending (es : List Entry) : List KeyMeta := es.map keyMeta ++ [maxMark]

/-- The front records are held, the others are on the streams. -/
def Loaded (temKm : Fin 4 → KeyMeta) (km : KmStreams) (src : Fin 4 → List Entry) : Prop :=
  ∀ i, temKm i :: km i = pending (src i)

/-- The reads of the next round get the front records. -/
def Awaits (s : MergeState) (km : KmStreams) (src : Fin 4 → List Entry) : Prop :=
  ∃ temKm km', readNext s km = some (⟨temKm, s.smallestNum⟩, km') ∧ Loaded temKm km' src

variable {s : MergeState} {km : KmStreams} {temKm : Fin 4 → KeyMeta} {src : Fin 4 → List Entry}
  {i : Fin 4} {e : Entry} {rest : List Entry} {n : ℕ}

theorem pending_ne_nil (es : List Entry) : pending es ≠ [] := List.concat_ne_nil _ _

theorem Mergeable.update (h : Mergeable src) (hfront : src i = e :: rest) :
    Mergeable (Function.update src i rest) := by
  have hmem : ∀ {j : Fin 4} {a : Entry}, a ∈ Function.update src i rest j → a ∈ src j := by
    intro j a ha
    by_cases hj : j = i
    · subst hj
      rw [Function.update_self] at ha
      rw [hfront]
      exact List.mem_cons_of_mem e ha
    · rwa [Function.update_of_ne hj] at ha
  constructor
  case sorted =>
    intro j
    by_cases hj : j = i
    · subst hj
      rw [Function.update_self]
      have hsorted := h.sorted j
      rw [hfront] at hsorted
      exact hsorted.of_cons
    · rw [Function.update_of_ne hj]
      exact h.sorted j
  case apart => exact fun j k hjk a ha b hb => h.apart j k hjk a (hmem ha) b (hmem hb)
  case below => exact fun j a ha => h.below j a (hmem ha)
  case real => exact fun j a ha => h.real j a (hmem ha)

theorem select_le (temKm : Fin 4 → KeyMeta) (i : Fin 4) :
    rank (temKm (select temKm)).key.c ≤ rank (temKm i).key.c := by
  have hleast : ∀ j k : Fin 4, rank (temKm (if less (temKm j).key (temKm k).key then j else k)).key.c =
      min (rank (temKm j).key.c) (rank (temKm k).key.c) := by
    intro j k
    split
    · next hless =>
      rw [less_iff] at hless
      exact (min_eq_left hless.le).symm
    · next hnot =>
      rw [less_iff] at hnot
      exact (min_eq_right (Nat.le_of_not_lt hnot)).symm
  rw [select, hleast, hleast, hleast]
  fin_cases i <;> simp

/-- Equal keys: the last port. -/
theorem select_of_eq (h : ∀ i j, rank (temKm i).key.c = rank (temKm j).key.c) : select temKm = 3 := by
  have hnot : ∀ i j : Fin 4, less (temKm i).key (temKm j).key = false := by
    intro i j
    rw [Bool.eq_false_iff, ne_eq, less_iff, h i j]
    exact lt_irrefl _
  rw [select, hnot, hnot, hnot]
  rfl

theorem Loaded.of_nil (h : Loaded temKm km src) (hnil : src i = []) :
    temKm i = maxMark ∧ km i = [] := by
  have hi := h i
  rw [hnil] at hi
  exact List.cons.inj hi

theorem Loaded.of_cons (h : Loaded temKm km src) (hfront : src i = e :: rest) :
    temKm i = keyMeta e ∧ km i = pending rest := by
  have hi := h i
  rw [hfront] at hi
  exact List.cons.inj hi

/-- The least front record is less than all that are left behind it. -/
theorem select_spec (h : Loaded temKm km src) (hm : Mergeable src) :
    ((∀ i, src i = []) ∧ select temKm = 3) ∨
      ∃ e rest, src (select temKm) = e :: rest ∧
        ∀ j, ∀ b ∈ Function.update src (select temKm) rest j, rank e.key < rank b.key := by
  cases hq : src (select temKm) with
  | nil =>
    left
    have hlargest := (h.of_nil hq).1
    have hall : ∀ i, src i = [] := by
      intro i
      cases hi : src i with
      | nil => rfl
      | cons e rest =>
        have hle := select_le temKm i
        have hlt := hm.below i e (hi ▸ List.mem_cons_self)
        rw [hlargest, (h.of_cons hi).1] at hle
        exact absurd hle (Nat.not_le.mpr hlt)
    refine ⟨hall, select_of_eq ?_⟩
    intro i j
    rw [(h.of_nil (hall i)).1, (h.of_nil (hall j)).1]
  | cons e rest =>
    right
    refine ⟨e, rest, rfl, ?_⟩
    have hsorted := hm.sorted (select temKm)
    rw [hq, List.pairwise_cons] at hsorted
    intro j b hb
    by_cases hj : j = select temKm
    · rw [hj, Function.update_self] at hb
      exact hsorted.1 b hb
    · rw [Function.update_of_ne hj] at hb
      have hne := hm.apart _ j (Ne.symm hj) e (hq ▸ List.mem_cons_self) b hb
      have hle := select_le temKm j
      rw [(h.of_cons hq).1] at hle
      cases hfront : src j with
      | nil =>
        rw [hfront] at hb
        exact absurd hb List.not_mem_nil
      | cons f others =>
        rw [(h.of_cons hfront).1] at hle
        have hrest := hm.sorted j
        rw [hfront, List.pairwise_cons] at hrest
        rw [hfront] at hb
        apply lt_of_le_of_ne _ hne
        rcases List.mem_cons.mp hb with rfl | hb
        · exact hle
        · exact hle.trans (hrest.1 b hb).le

/-- The first round of a run: whatever the last port is, the first record of every port is read. -/
theorem readNext_of_signals {temKm : Fin 4 → KeyMeta} {km : KmStreams} (s : MergeState)
    {streams : KmStreams} (h : ∀ i, streams i = signalMark :: temKm i :: km i) :
    readNext s streams = some (⟨temKm, s.smallestNum⟩, km) := by
  have hsignal : isSignalKey signalMark.key = true := by decide
  obtain ⟨old, n⟩ := s
  fin_cases n
  all_goals
    simp only [readNext, readFirst, read, h, hsignal, Fin.zero_eta, Fin.mk_one, Fin.reduceFinMk,
      Fin.isValue, ne_eq, not_true_eq_false, not_false_eq_true, Fin.reduceEq, Fin.zero_eq_one_iff,
      Fin.one_eq_zero_iff, Nat.reduceAdd, OfNat.ofNat_ne_one, ↓reduceIte, ite_not, Prod.mk.eta,
      Option.bind_eq_bind, Option.bind_some, Function.update_of_ne, Function.update_self,
      Function.update_idem, Option.some.injEq, Prod.mk.injEq, MergeState.mk.injEq, and_true]
    constructor
    · funext i
      fin_cases i <;> simp
    · funext i
      fin_cases i <;> simp

theorem not_signal_of_mem_pending {es : List Entry} (hreal : ∀ a ∈ es, a.key ≠ signalKey.c)
    {x : KeyMeta} (hx : x ∈ pending es) : isSignalKey x.key = false := by
  rw [isSignalKey, beq_eq_false_iff_ne]
  rcases List.mem_append.mp hx with hx | hx
  · obtain ⟨a, ha, rfl⟩ := List.mem_map.mp hx
    exact hreal a ha
  · rw [List.mem_singleton.mp hx]
    decide

/-- Behind the record that was sent stands the next one of its port. -/
theorem Loaded.awaits (h : Loaded temKm km src) (hm : Mergeable src) (hfront : src i = e :: rest) :
    Awaits ⟨temKm, i⟩ km (Function.update src i rest) := by
  obtain ⟨-, hleft⟩ := h.of_cons hfront
  have hreal : ∀ a ∈ rest, a.key ≠ signalKey.c := by
    intro a ha
    apply hm.real i
    rw [hfront]
    exact List.mem_cons_of_mem e ha
  obtain ⟨x, xs, hnext⟩ := List.exists_cons_of_ne_nil (pending_ne_nil rest)
  have hsignal := not_signal_of_mem_pending hreal (hnext ▸ List.mem_cons_self)
  have hread : read km i = some (x, Function.update km i xs) := by
    rw [read, hleft, hnext]
  refine ⟨Function.update temKm i x, Function.update km i xs, ?_, ?_⟩
  · rw [readNext, hread]
    dsimp only [Option.bind_eq_bind, Option.bind_some]
    rw [hsignal, if_neg Bool.false_ne_true]
  · intro j
    by_cases hj : j = i
    · subst hj
      rw [Function.update_self, Function.update_self, Function.update_self, hnext]
    · rw [Function.update_of_ne hj, Function.update_of_ne hj, Function.update_of_ne hj]
      exact h j

/-- A round takes the least record, or sends the mark when only the marks are left. -/
theorem merge_spec (h : Awaits s km src) (hm : Mergeable src) :
    (∃ i e rest s' km', merge s km = some (s', km', keyMeta e, i) ∧ src i = e :: rest ∧
      (∀ j, ∀ b ∈ Function.update src i rest j, rank e.key < rank b.key) ∧
      Awaits s' km' (Function.update src i rest)) ∨
    ∃ s' km', merge s km = some (s', km', maxMark, 3) ∧ (∀ i, src i = []) ∧ ∀ i, km' i = [] := by
  obtain ⟨temKm, km', hread, hloaded⟩ := h
  rw [merge, hread]
  dsimp only [Option.bind_eq_bind, Option.bind_some]
  rcases select_spec hloaded hm with ⟨hnil, hthree⟩ | ⟨e, rest, hfront, hleast⟩
  · right
    rw [hthree, (hloaded.of_nil (hnil 3)).1]
    exact ⟨_, _, rfl, hnil, fun i => (hloaded.of_nil (hnil i)).2⟩
  · left
    refine ⟨select temKm, e, rest, ⟨temKm, select temKm⟩, km', ?_, hfront, hleast,
      hloaded.awaits hm hfront⟩
    rw [(hloaded.of_cons hfront).1]

/-! ## All rounds of a run -/

theorem exists_of_merge {r : MergeState × KmStreams × KeyMeta × Fin 4} (h : merge s km = some r) :
    ∃ x xs, km s.smallestNum = x :: xs := by
  cases hkm : km s.smallestNum with
  | nil =>
    have hread : read km s.smallestNum = none := by rw [read, hkm]
    rw [merge, readNext, hread] at h
    cases h
  | cons x xs => exact ⟨x, xs, rfl⟩

theorem mergeTask_succ {r : MergeState × KmStreams × KeyMeta × Fin 4} (h : merge s km = some r)
    (n : ℕ) : mergeTask (n + 1) s km = (mergeTask n r.1 r.2.1).map fun later =>
      (later.1, later.2.1, r.2.2 :: later.2.2) := by
  obtain ⟨x, xs, hkm⟩ := exists_of_merge h
  rw [mergeTask, hkm]
  dsimp only
  rw [h]
  dsimp only [Option.bind_eq_bind, Option.bind_some]
  cases mergeTask n r.1 r.2.1 with
  | none => rfl
  | some later => rfl

theorem mergeTask_of_nil (h : km s.smallestNum = []) (n : ℕ) :
    mergeTask n s km = some (s, km, []) := by
  cases n with
  | zero => rfl
  | succ n => rw [mergeTask, h]

/-- The task merges the records of all ports, sends one mark behind them and waits. -/
theorem mergeTask_spec (h : Awaits s km src) (hm : Mergeable src)
    (hn : ∑ i, (src i).length < n) :
    ∃ s' km' taken, Merged (fun a b => rank a.key < rank b.key) src taken ∧
      mergeTask n s km = some (s', km',
        taken.map (fun x => (keyMeta x.2, x.1)) ++ [(maxMark, 3)]) ∧ ∀ i, km' i = [] := by
  induction n generalizing s km src with
  | zero => exact absurd hn (Nat.not_lt_zero _)
  | succ n ih =>
    rcases merge_spec h hm with ⟨i, e, rest, s', km', hmerge, hfront, hleast, hnext⟩ |
      ⟨s', km', hmerge, hnil, hempty⟩
    · rw [sum_length_update hfront] at hn
      obtain ⟨s'', km'', taken, hmerged, htask, hempty⟩ :=
        ih hnext (hm.update hfront) (Nat.lt_of_succ_lt_succ hn)
      refine ⟨s'', km'', (i, e) :: taken, .take hfront hleast hmerged, ?_, hempty⟩
      rw [mergeTask_succ hmerge, htask]
      rfl
    · refine ⟨s', km', [], .done hnil, ?_, hempty⟩
      rw [mergeTask_succ hmerge, mergeTask_of_nil (hempty _)]
      rfl

end ZeroFlush.MergeTask
