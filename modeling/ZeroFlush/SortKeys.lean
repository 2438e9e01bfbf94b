import Mathlib.Data.List.Sort
import ZeroFlush.KeyRanges
import ZeroFlush.LexBytes
import ZeroFlush.RunMerging
import ZeroFlush.UserKeys

/-! # The encoded sort keys of a materialization

For the bytewise comparator the internal keys are not compared themselves. Each gets an encoding
that is compared with `memcmp`, and keys and values are put into the order of the encodings. -/
namespace ZeroFlush.SortKeys
open FixedWidthCodec UserKeys LexBytes

def kNumInternalBytes : ℕ := 8

def extractUserKey (ik : Bytes) : Bytes := ik.take (ik.length - kNumInternalBytes)

/-- The eight bytes of sequence number and type. -/
def footerBytes (ik : Bytes) : Bytes := ik.drop (ik.length - kNumInternalBytes)

def extractInternalKeyFooter (ik : Bytes) : ℕ := decodeFixed (footerBytes ik)

def sequence (ik : Bytes) : ℕ := extractInternalKeyFooter ik / 256

/-- `InternalKeyComparator::Compare`. -/
def internalCompare (ucmp : UserComparator) (a b : Bytes) : Ordering :=
  match ucmp.compare (extractUserKey a) (extractUserKey b) with
  | .lt => .lt
  | .gt => .gt
  | .eq =>
    if extractInternalKeyFooter a > extractInternalKeyFooter b then .lt
    else if extractInternalKeyFooter a < extractInternalKeyFooter b then .gt
    else .eq

/-- Four bytes, the highest first; what does not fit is cut off. -/
def bigEndian32 (n : ℕ) : Bytes :=
  [UInt8.ofNat (n >>> 24), UInt8.ofNat (n >>> 16), UInt8.ofNat (n >>> 8), UInt8.ofNat n]

/-- The footer is little-endian: its bytes are flipped from the last to the first. -/
def flippedFooter (ik : Bytes) : Bytes := (footerBytes ik).reverse.map (~~~ ·)

/-- One round of the loop of `BuildSortKeys`. -/
def sortKey (ik : Bytes) : Bytes :=
  bigEndian32 (extractUserKey ik).length ++ extractUserKey ik ++ flippedFooter ik

def bytewiseName : String := "leveldb.BytewiseComparator"

/-- The encodings in one buffer, with the offset of each of them. -/
def buildSortKeys (keys : List Bytes) (ucmpName : String) : Option (Bytes × List ℕ) :=
  if ucmpName ≠ bytewiseName then none
  else some (keys.foldl (fun (buf, off) ik => (buf ++ sortKey ik, off ++ [buf.length])) ([], []))

/-- The encoding of the key with this index reaches to the next offset or to the end. -/
def encodingAt (buf : Bytes) (off : List ℕ) (i : ℕ) : Bytes :=
  let next := if i + 1 < off.length then off.getD (i + 1) 0 else buf.length
  (buf.drop (off.getD i 0)).take (next - off.getD i 0)

/-- The comparison passed to `std::sort`. -/
def sortLess (buf : Bytes) (off : List ℕ) (a b : ℕ) : Bool :=
  let pa := encodingAt buf off a
  let pb := encodingAt buf off b
  let r := memcmp pa pb (min pa.length pb.length)
  decide (r = .lt) || decide (r = .eq) && decide (pa.length < pb.length)

def reorderBySortKeys (keys values : List Bytes) (buf : Bytes) (off : List ℕ) :
    List Bytes × List Bytes :=
  let idx := (List.range keys.length).insertionSort fun a b => ¬ sortLess buf off b a
  (idx.map fun i => keys.getD i [], idx.map fun i => values.getD i [])

/-- The fallback sort of `MaterializePartition` under the bytewise comparator. -/
def sortAside (keys values : List Bytes) : Option (List Bytes × List Bytes) :=
  (buildSortKeys keys bytewiseName).map fun (buf, off) => reorderBySortKeys keys values buf off

/-- Keys and values are permuted together into the order of the internal comparator. -/
def SortsLikeComparator (keys values : List Bytes) : Prop :=
  ∃ ks vs, sortAside keys values = some (ks, vs) ∧ ks.length = vs.length ∧
    (ks.zip vs).Perm (keys.zip values) ∧
    ks.Pairwise fun a b => internalCompare .bytewise a b = .lt

/-- What the encoding can tell of two keys with different user keys: the lengths differ in the
right direction, or they have the same 32 bits. User keys of the same 32 bits of length and of
different lengths are told apart by their bytes, unless one is a beginning of the other. Then the
flipped footer of the one stands against the next bytes of the other. -/
def KeepsOrder (a b : Bytes) : Prop :=
  (extractUserKey a).length % 2 ^ 32 < (extractUserKey b).length % 2 ^ 32 ∨
    (extractUserKey a).length % 2 ^ 32 = (extractUserKey b).length % 2 ^ 32 ∧
      (extractUserKey a <+: extractUserKey b →
        lex (flippedFooter a) ((extractUserKey b).drop (extractUserKey a).length) = .lt)

instance (a b : Bytes) : Decidable (KeepsOrder a b) := inferInstanceAs (Decidable (_ ∨ _))

/-- The encoding keeps the order of every two user keys of the list. -/
def OrderKept (keys : List Bytes) : Prop := ∀ a ∈ keys, ∀ b ∈ keys,
  lex (extractUserKey a) (extractUserKey b) = .lt → KeepsOrder a b

instance (keys : List Bytes) : Decidable (OrderKept keys) :=
  inferInstanceAs (Decidable (∀ a ∈ keys, _))

/-- Sequence numbers and user keys identify the internal keys of the list. -/
def Distinct (keys : List Bytes) : Prop :=
  (keys.map fun ik => (extractUserKey ik, sequence ik)).Nodup

instance (keys : List Bytes) : Decidable (Distinct keys) :=
  inferInstanceAs (Decidable (List.Nodup _))

section encoding
variable {a b : Bytes}

theorem bigEndian32_eq (n : ℕ) : bigEndian32 n = (putFixed 4 n).reverse := by
  simp [bigEndian32, putFixed, Nat.shiftRight_eq_div_pow, Nat.div_div_eq_div_mul]

theorem lex_bigEndian32 (m n : ℕ) :
    lex (bigEndian32 m) (bigEndian32 n) = compare (m % 2 ^ 32) (n % 2 ^ 32) := by
  have hlen : (bigEndian32 m).length = (bigEndian32 n).length := rfl
  rw [lex_eq_compare hlen, bigEndian32_eq, bigEndian32_eq, List.reverse_reverse,
    List.reverse_reverse, decodeFixed_putFixed, decodeFixed_putFixed]
  rfl

theorem length_footerBytes (h : kNumInternalBytes ≤ a.length) : (footerBytes a).length = 8 := by
  rw [footerBytes, List.length_drop, kNumInternalBytes] at *
  omega

theorem length_flippedFooter (h : kNumInternalBytes ≤ a.length) :
    (flippedFooter a).length = 8 := by
  rw [flippedFooter, List.length_map, List.length_reverse, length_footerBytes h]

/-- The flipped footers are in the descending order of the footers. -/
theorem lex_flippedFooter (ha : kNumInternalBytes ≤ a.length) (hb : kNumInternalBytes ≤ b.length) :
    lex (flippedFooter a) (flippedFooter b) =
      compare (extractInternalKeyFooter b) (extractInternalKeyFooter a) := by
  have hlen : (footerBytes a).reverse.length = (footerBytes b).reverse.length := by
    rw [List.length_reverse, List.length_reverse, length_footerBytes ha, length_footerBytes hb]
  rw [flippedFooter, flippedFooter, lex_map_complement hlen, lex_eq_compare hlen.symm,
    List.reverse_reverse, List.reverse_reverse, extractInternalKeyFooter, extractInternalKeyFooter]

theorem lex_sortKey (a b : Bytes) : lex (sortKey a) (sortKey b) =
    (compare ((extractUserKey a).length % 2 ^ 32) ((extractUserKey b).length % 2 ^ 32)).then
      (lex (extractUserKey a ++ flippedFooter a) (extractUserKey b ++ flippedFooter b)) := by
  have hlen : (bigEndian32 (extractUserKey a).length).length =
      (bigEndian32 (extractUserKey b).length).length := rfl
  rw [sortKey, sortKey, List.append_assoc, List.append_assoc, lex_append hlen, lex_bigEndian32]

/-- Versions of one user key are in the order of the comparator. -/
theorem lex_sortKey_of_eq (ha : kNumInternalBytes ≤ a.length) (hb : kNumInternalBytes ≤ b.length)
    (h : extractUserKey a = extractUserKey b) : lex (sortKey a) (sortKey b) =
      compare (extractInternalKeyFooter b) (extractInternalKeyFooter a) := by
  have hlen : compare ((extractUserKey b).length % 2 ^ 32) ((extractUserKey b).length % 2 ^ 32) =
      .eq := Std.ReflCmp.compare_self
  rw [lex_sortKey, h, lex_append_left, lex_flippedFooter ha hb, hlen]
  rfl

/-- Keys with different user keys are in the order of the comparator where the encoding keeps it. -/
theorem lex_sortKey_iff (ha : kNumInternalBytes ≤ a.length)
    (h : lex (extractUserKey a) (extractUserKey b) = .lt) :
    lex (sortKey a) (sortKey b) = .lt ↔ KeepsOrder a b := by
  rw [lex_sortKey, KeepsOrder]
  obtain hlt | heq | hgt := lt_trichotomy ((extractUserKey a).length % 2 ^ 32)
    ((extractUserKey b).length % 2 ^ 32)
  · rw [Nat.compare_eq_lt.mpr hlt]
    exact iff_of_true rfl (.inl hlt)
  · rw [Nat.compare_eq_eq.mpr heq]
    by_cases hpre : extractUserKey a <+: extractUserKey b
    · obtain ⟨rest, hrest⟩ := hpre
      have hne : rest ≠ [] := by
        rintro rfl
        rw [List.append_nil] at hrest
        rw [hrest, lex_self] at h
        cases h
      have hlong : 8 < rest.length := by
        have hpos := List.length_pos_iff.mpr hne
        have hlen := congrArg List.length hrest
        rw [List.length_append] at hlen
        omega
      have hbody : lex (extractUserKey a ++ flippedFooter a) (extractUserKey b ++ flippedFooter b) =
          lex (flippedFooter a) ((extractUserKey b).drop (extractUserKey a).length) := by
        rw [← hrest, List.append_assoc, lex_append_left, List.drop_left,
          lex_append_right (by rw [length_flippedFooter ha]; exact hlong)]
      rw [hbody]
      constructor
      · exact fun hlt => .inr ⟨heq, fun _ => hlt⟩
      · rintro (hlen | ⟨-, hlt⟩)
        · exact absurd heq (Nat.ne_of_lt hlen)
        · exact hlt ⟨rest, hrest⟩
    · have hbody := lex_append_of_lt h hpre (flippedFooter a) (flippedFooter b)
      exact iff_of_true hbody (.inr ⟨heq, fun hp => absurd hp hpre⟩)
  · rw [Nat.compare_eq_gt.mpr hgt]
    refine iff_of_false (by simp) ?_
    rintro (hlt | ⟨heq, -⟩)
    · exact absurd hgt (Nat.lt_asymm hlt)
    · exact absurd heq (Nat.ne_of_gt hgt)

end encoding

section buffer

/-- The offsets of the encodings, the first one at `n`. -/
def starts : ℕ → List Bytes → List ℕ
  | _, [] => []
  | n, ik :: keys => n :: starts (n + (sortKey ik).length) keys

theorem starts_nil (n : ℕ) : starts n [] = [] := rfl

theorem starts_cons (n : ℕ) (ik : Bytes) (keys : List Bytes) :
    starts n (ik :: keys) = n :: starts (n + (sortKey ik).length) keys := rfl

theorem length_starts (n : ℕ) (keys : List Bytes) : (starts n keys).length = keys.length := by
  induction keys generalizing n with
  | nil => rfl
  | cons ik keys ih => rw [starts_cons, List.length_cons, List.length_cons, ih]

theorem foldl_eq_starts (keys : List Bytes) (buf : Bytes) (off : List ℕ) :
    keys.foldl (fun (buf, off) ik => (buf ++ sortKey ik, off ++ [buf.length])) (buf, off) =
      (buf ++ keys.flatMap sortKey, off ++ starts buf.length keys) := by
  induction keys generalizing buf off with
  | nil => simp [starts_nil]
  | cons ik keys ih =>
    rw [List.foldl_cons, ih, starts_cons, List.flatMap_cons, List.length_append, List.append_assoc,
      List.append_assoc, List.singleton_append]

theorem buildSortKeys_eq (keys : List Bytes) : buildSortKeys keys bytewiseName =
    some (keys.flatMap sortKey, starts 0 keys) := by
  rw [buildSortKeys, if_neg (not_not.mpr rfl), foldl_eq_starts]
  rfl

/-- Every encoding is cut out of the buffer as it was put in. -/
theorem encodingAt_eq (keys : List Bytes) (front : Bytes) {i : ℕ} (hi : i < keys.length) :
    encodingAt (front ++ keys.flatMap sortKey) (starts front.length keys) i =
      sortKey (keys.getD i []) := by
  induction keys generalizing front i with
  | nil => cases hi
  | cons ik keys ih =>
    have hnext := @ih (front ++ sortKey ik)
    cases i with
    | succ i =>
      rw [List.flatMap_cons, ← List.append_assoc, starts_cons, ← List.length_append, List.getD_cons_succ,
        ← hnext (Nat.lt_of_succ_lt_succ hi)]
      simp only [encodingAt, List.getD_cons_succ, List.length_cons, Nat.add_lt_add_iff_right]
    | zero =>
      have hend : (if 0 + 1 < (starts front.length (ik :: keys)).length then
          (starts front.length (ik :: keys)).getD (0 + 1) 0
          else (front ++ (ik :: keys).flatMap sortKey).length) =
          front.length + (sortKey ik).length := by
        rw [length_starts]
        cases keys with
        | nil => simp
        | cons jk keys => simp [starts_cons]
      rw [encodingAt, hend]
      simp [starts_cons]

end buffer

section order

/-- The comparison of the sort is the order of the encodings. -/
theorem sortLess_iff {buf : Bytes} {off : List ℕ} {i j : ℕ} : sortLess buf off i j = true ↔
    lex (encodingAt buf off i) (encodingAt buf off j) = .lt := by
  rw [lex_eq_take_min, sortLess, Bool.or_eq_true, Bool.and_eq_true, decide_eq_true_iff, decide_eq_true_iff, decide_eq_true_iff,
    ← Nat.compare_eq_lt]
  cases memcmp (encodingAt buf off i) (encodingAt buf off j) _ <;> simp

/-- The order of the encodings, as a relation of the keys. -/
def EncodedBefore (a b : Bytes) : Prop := lex (sortKey a) (sortKey b) = .lt

variable {keys values : List Bytes}

theorem sortKey_injective {a b : Bytes} (ha : kNumInternalBytes ≤ a.length)
    (hb : kNumInternalBytes ≤ b.length) (h : sortKey a = sortKey b) : a = b := by
  have hlen := congrArg List.length h
  simp only [sortKey, List.length_append, length_flippedFooter ha, length_flippedFooter hb] at hlen
  have hbig : ∀ n, (bigEndian32 n).length = 4 := fun _ => rfl
  rw [hbig, hbig] at hlen
  rw [sortKey, sortKey, List.append_assoc, List.append_assoc] at h
  obtain ⟨-, h⟩ := List.append_inj h rfl
  obtain ⟨huser, hfooter⟩ := List.append_inj h (by omega)
  have hbytes : footerBytes a = footerBytes b := by
    have hmap := congrArg (fun l => (l.map (~~~ ·)).reverse) hfooter
    simpa [flippedFooter, List.map_map, Function.comp_def] using hmap
  have hsplit : ∀ ik : Bytes, ik = extractUserKey ik ++ footerBytes ik := fun ik =>
    (List.take_append_drop _ _).symm
  rw [hsplit a, hsplit b, huser, hbytes]

instance (buf : Bytes) (off : List ℕ) : Std.Total fun a b => ¬ sortLess buf off b a where
  total a b := by
    rw [sortLess_iff, sortLess_iff]
    exact (@KeyRanges.le_total _ lex _ (encodingAt buf off a) (encodingAt buf off b)).imp
      KeyRanges.not_lt.mpr KeyRanges.not_lt.mpr

instance (buf : Bytes) (off : List ℕ) : IsTrans ℕ fun a b => ¬ sortLess buf off b a where
  trans a b c hab hbc := by
    rw [sortLess_iff] at *
    exact KeyRanges.not_lt.mpr
      (KeyRanges.le_trans (KeyRanges.not_lt.mp hab) (KeyRanges.not_lt.mp hbc))

theorem map_range_eq_zip (hlen : keys.length = values.length) :
    (List.range keys.length).map (fun i => (keys.getD i [], values.getD i [])) =
      keys.zip values := by
  apply List.ext_getElem
  · simp [hlen]
  · intro i hi hi'
    rw [List.length_map, List.length_range] at hi
    simp [List.getD_eq_getElem?_getD, hi, hlen ▸ hi]

/-- What the sort does: a permutation of keys and values together into the order of the
encodings. -/
theorem sortAside_spec (hlen : keys.length = values.length)
    (hlong : ∀ ik ∈ keys, kNumInternalBytes ≤ ik.length) (hnodup : keys.Nodup) :
    ∃ ks vs, sortAside keys values = some (ks, vs) ∧ ks.length = vs.length ∧
      (ks.zip vs).Perm (keys.zip values) ∧ ks.Pairwise EncodedBefore := by
  rw [sortAside, buildSortKeys_eq, Option.map_some]
  have henc : ∀ i < keys.length,
      encodingAt (keys.flatMap sortKey) (starts 0 keys) i = sortKey (keys.getD i []) :=
    fun i hi => encodingAt_eq keys [] hi
  dsimp only [reorderBySortKeys]
  generalize keys.flatMap sortKey = buf at henc
  generalize starts 0 keys = off at henc
  have hperm := List.perm_insertionSort (fun a b => ¬ sortLess buf off b a) (List.range keys.length)
  have hsorted := List.pairwise_insertionSort (fun a b => ¬ sortLess buf off b a)
    (List.range keys.length)
  generalize (List.range keys.length).insertionSort (fun a b => ¬ sortLess buf off b a) = idx at *
  refine ⟨_, _, rfl, by rw [List.length_map, List.length_map], ?_, ?_⟩
  · rw [List.zip_map', ← map_range_eq_zip hlen]
    exact hperm.map _
  · rw [List.pairwise_map]
    refine (hsorted.and (hperm.nodup_iff.mpr List.nodup_range)).imp_of_mem ?_
    rintro i j hi hj ⟨hle, hne⟩
    have hi' := List.mem_range.mp (hperm.mem_iff.mp hi)
    have hj' := List.mem_range.mp (hperm.mem_iff.mp hj)
    have hki := List.getElem_eq_getD (h := hi') []
    have hkj := List.getElem_eq_getD (h := hj') []
    rw [sortLess_iff, henc i hi', henc j hj', ← hki, ← hkj] at hle
    rw [← hki, ← hkj, EncodedBefore]
    cases hcmp : lex (sortKey keys[i]) (sortKey keys[j]) with
    | lt => rfl
    | gt => exact absurd (Std.OrientedCmp.gt_iff_lt.mp hcmp) hle
    | eq =>
      have hkeys := sortKey_injective (hlong _ (List.getElem_mem hi')) (hlong _ (List.getElem_mem hj'))
        (eq_of_lex hcmp)
      exact absurd ((List.Nodup.getElem_inj_iff hnodup).mp hkeys) hne

variable {a b : Bytes}

theorem internalCompare_of_user_lt (h : lex (extractUserKey a) (extractUserKey b) = .lt) :
    internalCompare .bytewise a b = .lt := by
  have hcmp : UserComparator.bytewise.compare (extractUserKey a) (extractUserKey b) = .lt := h
  rw [internalCompare, hcmp]

theorem internalCompare_of_user_gt (h : lex (extractUserKey b) (extractUserKey a) = .lt) :
    internalCompare .bytewise a b = .gt := by
  have hcmp : UserComparator.bytewise.compare (extractUserKey a) (extractUserKey b) = .gt :=
    Std.OrientedCmp.gt_iff_lt.mpr h
  rw [internalCompare, hcmp]

/-- Versions of one user key: both orders go by the footer. -/
theorem internalCompare_of_user_eq (ha : kNumInternalBytes ≤ a.length)
    (hb : kNumInternalBytes ≤ b.length) (h : extractUserKey a = extractUserKey b) :
    internalCompare .bytewise a b = lex (sortKey a) (sortKey b) := by
  have hcmp : UserComparator.bytewise.compare (extractUserKey a) (extractUserKey b) = .eq := by
    rw [h]
    exact lex_self _
  rw [internalCompare, hcmp, lex_sortKey_of_eq ha hb h, Nat.compare_eq_ite_lt]

/-- A list in the order of the encodings is in the order of the comparator exactly when the
encodings keep the order of every two of its user keys. -/
theorem pairwise_internalCompare_iff (hlong : ∀ ik ∈ keys, kNumInternalBytes ≤ ik.length)
    (hsorted : keys.Pairwise EncodedBefore) :
    (keys.Pairwise fun a b => internalCompare .bytewise a b = .lt) ↔
      OrderKept keys := by
  constructor
  · intro hcmp a ha b hb huser
    have hne : a ≠ b := by
      rintro rfl
      rw [lex_self] at huser
      cases huser
    obtain ⟨henc, -⟩ | ⟨-, hback⟩ :=
      RunMerging.rel_or_rel_of_pairwise (hsorted.and hcmp) ha hb hne
    · exact (lex_sortKey_iff (hlong a ha) huser).mp henc
    · rw [internalCompare_of_user_gt huser] at hback
      cases hback
  · intro hkeeps
    refine hsorted.imp_of_mem ?_
    intro a b ha hb henc
    rw [EncodedBefore] at henc
    cases huser : lex (extractUserKey a) (extractUserKey b) with
    | lt => exact internalCompare_of_user_lt huser
    | eq => rw [internalCompare_of_user_eq (hlong a ha) (hlong b hb) (eq_of_lex huser), henc]
    | gt =>
      have hlt := Std.OrientedCmp.gt_iff_lt.mp huser
      have hback := (lex_sortKey_iff (hlong b hb) hlt).mpr (hkeeps b hb a ha hlt)
      exact absurd (henc.symm.trans (Std.OrientedCmp.gt_iff_lt.mpr hback)) (by decide)

/-- Of user keys shorter than 4 GiB the smaller one must not be the longer one. -/
theorem keepsOrder_iff_of_short (ha : (extractUserKey a).length < 2 ^ 32)
    (hb : (extractUserKey b).length < 2 ^ 32)
    (huser : lex (extractUserKey a) (extractUserKey b) = .lt) :
    KeepsOrder a b ↔ (extractUserKey a).length ≤ (extractUserKey b).length := by
  rw [KeepsOrder, Nat.mod_eq_of_lt ha, Nat.mod_eq_of_lt hb]
  constructor
  · rintro (hlt | ⟨heq, -⟩)
    · exact Nat.le_of_lt hlt
    · exact Nat.le_of_eq heq
  · intro hle
    obtain hlt | heq := Nat.lt_or_eq_of_le hle
    · exact .inl hlt
    · refine .inr ⟨heq, fun hpre => ?_⟩
      rw [List.IsPrefix.eq_of_length hpre heq, lex_self] at huser
      cases huser

theorem perm_of_zip {ks vs : List Bytes} (h : ks.length = vs.length)
    (hlen : keys.length = values.length) (hperm : (ks.zip vs).Perm (keys.zip values)) :
    ks.Perm keys := by
  have hfst := hperm.map Prod.fst
  rwa [List.map_fst_zip h.le, List.map_fst_zip hlen.le] at hfst

/-- The encoded sort is the sort of the comparator exactly when the encoding keeps the order of
every two user keys of the list. -/
theorem sortsLikeComparator_iff (hlen : keys.length = values.length)
    (hlong : ∀ ik ∈ keys, kNumInternalBytes ≤ ik.length) (hdistinct : Distinct keys) :
    SortsLikeComparator keys values ↔ OrderKept keys := by
  obtain ⟨ks, vs, hsort, hks, hperm, hsorted⟩ :=
    sortAside_spec hlen hlong (List.Nodup.of_map _ hdistinct)
  have hkeys := perm_of_zip hks hlen hperm
  have hcmp := pairwise_internalCompare_iff (fun ik hik => hlong ik (hkeys.mem_iff.mp hik)) hsorted
  simp only [OrderKept, hkeys.mem_iff] at hcmp
  rw [OrderKept, ← hcmp]
  constructor
  · rintro ⟨ks', vs', hsort', -, -, hpair⟩
    rw [hsort] at hsort'
    cases hsort'
    exact hpair
  · intro hpair
    exact ⟨ks, vs, hsort, hks, hperm, hpair⟩

/-- `MakeInternalKey`. -/
def makeInternalKey (userKey : Bytes) (seq : ℕ) (type : UInt8) : Bytes :=
  userKey ++ putFixed 8 (seq * 256 + type.toNat)

/-- Two versions of the key a and one of the longer key ab. -/
def versions : List Bytes :=
  [makeInternalKey [97, 98] 1 1, makeInternalKey [97] 2 1, makeInternalKey [97] 3 0]

theorem sortsLikeComparator_versions : SortsLikeComparator versions [[1], [2], []] :=
  (@sortsLikeComparator_iff versions [[1], [2], []] rfl (by decide) (by decide)).mpr (by decide)

/-- The key b is put in front of the longer key aa. -/
theorem sortsLikeComparator_fails : ¬ ∀ keys values : List Bytes, keys.length = values.length →
    (∀ ik ∈ keys, kNumInternalBytes ≤ ik.length) → Distinct keys →
      SortsLikeComparator keys values := by
  intro h
  obtain ⟨ks, vs, hsort, -, -, hpair⟩ :=
    h [makeInternalKey [97, 97] 1 1, makeInternalKey [98] 2 1] [[1], [2]] rfl (by decide) (by decide)
  have hrun : sortAside [makeInternalKey [97, 97] 1 1, makeInternalKey [98] 2 1] [[1], [2]] =
      some ([makeInternalKey [98] 2 1, makeInternalKey [97, 97] 1 1], [[2], [1]]) := by
    decide +kernel
  rw [hrun] at hsort
  cases hsort
  revert hpair
  decide

end order

end ZeroFlush.SortKeys
