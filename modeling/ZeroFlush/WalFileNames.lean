import Mathlib.Data.List.TakeWhile
import ZeroFlush.Numerals
import ZeroFlush.WalFiles

/-! # The names of the WAL files

A name is made from two numbers and read back from the listing of the directory, which may hold any
other names as well. -/
namespace ZeroFlush.WalFileNames
open FixedWidthCodec Numerals WalFiles

/-- `zf-wal-`. -/
def kPrefix : Bytes := [122, 102, 45, 119, 97, 108, 45]

/-- `.log`. -/
def kSuffix : Bytes := [46, 108, 111, 103]

def dash : UInt8 := 45

def slash : UInt8 := 47

def makeFileName (dir : Bytes) (part gen : ℕ) : Bytes :=
  dir ++ slash :: (kPrefix ++ decimal part ++ dash :: (decimal gen ++ kSuffix))

/-- What stands behind the last slash. -/
def baseName (path : Bytes) : Bytes := (path.reverse.takeWhile (· != slash)).reverse

inductive StdException
  | outOfRange
  deriving DecidableEq, Repr

/-- `std::stoul` of digits: a number has 64 bits. -/
def stoul (digits : Bytes) : Except StdException ℕ :=
  if decimalValue digits < 2 ^ 64 then .ok (decimalValue digits) else .error .outOfRange

/-- `std::string::rfind`: where the last occurrence starts. -/
def rfind (pat : Bytes) : Bytes → Option ℕ
  | [] => if pat = [] then some 0 else none
  | c :: s =>
    match rfind pat s with
    | some i => some (i + 1)
    | none => if pat.isPrefixOf (c :: s) then some 0 else none

/-- `ParseFileName`. -/
def parseFileName (name : Bytes) : Except StdException (Option FileId) :=
  if !kPrefix.isPrefixOf name then .ok none
  else
    let rest := name.drop kPrefix.length
    match rest.findIdx? (· == dash) with
    | none => .ok none
    | some dash =>
      match rfind kSuffix rest with
      | none => .ok none
      | some dot =>
        if dot ≤ dash then .ok none
        else
          let pStr := rest.take dash
          let gStr := (rest.drop (dash + 1)).take (dot - dash - 1)
          if pStr = [] ∨ gStr = [] then .ok none
          else if !pStr.all isDigit || !gStr.all isDigit then .ok none
          else do
            let part ← stoul pStr
            let gen ← stoul gStr
            pure (some (part % 2 ^ 32, gen % 2 ^ 32))

/-- The loop of `ListFiles` over the names of the directory. -/
def parseChildren (children : List Bytes) : Except StdException (List FileId) := do
  let parsed ← children.mapM parseFileName
  pure (parsed.reduceOption.insertionSort fun a b => a.1 < b.1 ∨ a.1 = b.1 ∧ a.2 ≤ b.2)

/-- Digits between the fixed parts of a name, and what follows the last of these. -/
structure Shaped (name p g tail : Bytes) : Prop where
  split : name = kPrefix ++ p ++ dash :: (g ++ kSuffix ++ tail)
  part : p ≠ [] ∧ ∀ c ∈ p, isDigit c = true
  gen : g ≠ [] ∧ ∀ c ∈ g, isDigit c = true
  last : ¬ kSuffix <:+: tail

/-- A number of 32 bits without a zero in front. -/
def Canonical (p : Bytes) : Prop := (p = [48] ∨ p.head? ≠ some 48) ∧ decimalValue p < 2 ^ 32

/-- The parser takes the name for the two numbers it was made from, and for nothing else. -/
def ParsesExactly (dir name : Bytes) : Prop :=
  ∃ parsed, parseFileName name = .ok parsed ∧ ∀ part gen, parsed = some (part, gen) ↔
    part < 2 ^ 32 ∧ gen < 2 ^ 32 ∧ name = baseName (makeFileName dir part gen)

variable {name p g tail p' g' tail' s pat dir : Bytes} {i part gen : ℕ}

/-! ## Searching -/

theorem rfind_append (h : rfind pat s = some i) (pre : Bytes) :
    rfind pat (pre ++ s) = some (pre.length + i) := by
  induction pre with
  | nil => rw [List.nil_append, h, List.length_nil, Nat.zero_add]
  | cons c pre ih =>
    rw [List.cons_append, rfind, ih, List.length_cons]
    exact congrArg some (Nat.add_right_comm pre.length i 1)

theorem rfind_eq_none (hpat : pat ≠ []) : rfind pat s = none ↔ ¬ pat <:+: s := by
  induction s with
  | nil =>
    rw [rfind, if_neg hpat, List.infix_nil]
    exact iff_of_true rfl hpat
  | cons c s ih =>
    rw [rfind, List.infix_cons_iff, not_or, ← ih, ← List.isPrefixOf_iff_prefix]
    cases rfind pat s with
    | some i => simp
    | none => simp

/-- The last occurrence, and what follows it. -/
theorem rfind_eq_some (hpat : pat ≠ []) (h : rfind pat s = some i) :
    i ≤ s.length ∧ ∃ tail, s.drop i = pat ++ tail ∧ ¬ pat <:+: tail := by
  induction s generalizing i with
  | nil =>
    rw [rfind, if_neg hpat] at h
    nomatch h
  | cons c s ih =>
    rw [rfind] at h
    cases hrest : rfind pat s with
    | some j =>
      rw [hrest] at h
      cases h
      obtain ⟨hle, htail⟩ := ih hrest
      exact ⟨Nat.succ_le_succ hle, htail⟩
    | none =>
      rw [hrest] at h
      obtain ⟨hfront, hi⟩ := Option.ite_none_right_eq_some.mp h
      cases hi
      obtain ⟨tail, htail⟩ := List.isPrefixOf_iff_prefix.mp hfront
      refine ⟨Nat.zero_le _, tail, htail.symm, ?_⟩
      intro hin
      apply (rfind_eq_none hpat).mp hrest
      obtain ⟨d, rest, rfl⟩ := List.exists_cons_of_ne_nil hpat
      rw [← (List.cons.inj htail).2]
      exact hin.trans (List.suffix_append rest tail).isInfix

theorem rfind_kSuffix (h : ¬ kSuffix <:+: tail) : rfind kSuffix (kSuffix ++ tail) = some 0 := by
  have hnone := (rfind_eq_none (by decide)).mpr h
  simp only [kSuffix, List.cons_append, List.nil_append, rfind] at hnone ⊢
  rw [hnone]
  simp

theorem findIdx?_dash (hp : ∀ c ∈ p, isDigit c = true) (x : Bytes) :
    (p ++ dash :: x).findIdx? (· == dash) = some p.length := by
  have hnone : p.findIdx? (· == dash) = none := by
    rw [List.findIdx?_eq_none_iff]
    intro c hc
    rw [beq_eq_false_iff_ne]
    intro heq
    have hdigit := hp c hc
    rw [heq] at hdigit
    nomatch hdigit
  rw [List.findIdx?_append, hnone, List.findIdx?_cons, if_pos (by decide)]
  exact congrArg some (Nat.zero_add p.length)

/-! ## Parsing -/

/-- The fixed parts and the digits of a name are found. -/
theorem Shaped.parse (h : Shaped name p g tail) : parseFileName name = (do
    let part ← stoul p
    let gen ← stoul g
    pure (some (part % 2 ^ 32, gen % 2 ^ 32))) := by
  obtain ⟨rfl, ⟨hp, hpdigits⟩, ⟨hg, hgdigits⟩, hlast⟩ := h
  have hrest : (kPrefix ++ p ++ dash :: (g ++ kSuffix ++ tail)).drop kPrefix.length =
      p ++ dash :: (g ++ kSuffix ++ tail) := by
    rw [List.append_assoc, List.drop_left]
  have hfront : kPrefix.isPrefixOf (kPrefix ++ p ++ dash :: (g ++ kSuffix ++ tail)) = true := by
    rw [List.isPrefixOf_iff_prefix, List.append_assoc]
    exact List.prefix_append _ _
  have hdot : rfind kSuffix (p ++ dash :: (g ++ kSuffix ++ tail)) = some (p.length + 1 + g.length) := by
    have happ := rfind_append (rfind_kSuffix hlast) (p ++ dash :: g)
    rw [List.length_append, List.length_cons] at happ
    rw [List.append_assoc g, ← List.cons_append, ← List.append_assoc, happ]
    exact congrArg some (by omega)
  have hpStr : (p ++ dash :: (g ++ kSuffix ++ tail)).take p.length = p := List.take_left
  have hgStr : ((p ++ dash :: (g ++ kSuffix ++ tail)).drop (p.length + 1)).take
      (p.length + 1 + g.length - p.length - 1) = g := by
    rw [← List.drop_drop, List.drop_left, List.drop_one, List.tail_cons, List.append_assoc]
    exact List.take_left' (by omega)
  rw [parseFileName, hfront, hrest, Bool.not_true, if_neg Bool.false_ne_true]
  dsimp only
  rw [findIdx?_dash hpdigits]
  dsimp only
  rw [hdot]
  dsimp only
  rw [if_neg (by omega), hpStr, hgStr, if_neg (by rw [not_or]; exact ⟨hp, hg⟩),
    List.all_eq_true.mpr hpdigits, List.all_eq_true.mpr hgdigits]
  rfl

/-- What is not rejected has the shape. -/
theorem parse_of_not_shaped (h : ∀ p g tail, ¬ Shaped name p g tail) :
    parseFileName name = .ok none := by
  rw [parseFileName]
  split
  · rfl
  next hfront =>
  rw [Bool.not_eq_true, Bool.not_eq_false', List.isPrefixOf_iff_prefix] at hfront
  obtain ⟨rest, rfl⟩ := hfront
  rw [List.drop_left]
  dsimp only
  split
  · rfl
  next d hd =>
  split
  · rfl
  next dot hdot =>
  split
  · rfl
  next hlt =>
  split
  · rfl
  next hne =>
  split
  · rfl
  next hdigits =>
  exfalso
  obtain ⟨hle, tail, htail, hlast⟩ := rfind_eq_some (by decide) hdot
  obtain ⟨hlen, hdash, -⟩ := List.findIdx?_eq_some_iff_getElem.mp hd
  rw [Bool.or_eq_true, not_or, Bool.not_eq_true', Bool.not_eq_true', Bool.not_eq_false,
    Bool.not_eq_false, List.all_eq_true, List.all_eq_true] at hdigits
  rw [not_or] at hne
  apply h (rest.take d) ((rest.drop (d + 1)).take (dot - d - 1)) tail
  refine ⟨?_, ⟨hne.1, hdigits.1⟩, ⟨hne.2, hdigits.2⟩, hlast⟩
  have hmiddle : (rest.drop (d + 1)).take (dot - d - 1) ++ (kSuffix ++ tail) = rest.drop (d + 1) := by
    rw [← htail]
    conv_rhs => rw [← List.take_append_drop (dot - d - 1) (rest.drop (d + 1)), List.drop_drop]
    rw [Nat.sub_sub, Nat.add_sub_cancel' (by omega)]
  rw [List.append_assoc, List.append_assoc, hmiddle, ← eq_of_beq hdash, ← List.drop_eq_getElem_cons,
    List.take_append_drop]

/-! ## Names -/

theorem ne_of_isDigit {c d : UInt8} (hc : isDigit c = true) (hd : isDigit d = false) : c ≠ d := by
  intro heq
  rw [heq, hd] at hc
  nomatch hc

theorem baseName_makeFileName (dir : Bytes) (part gen : ℕ) : baseName (makeFileName dir part gen) =
    kPrefix ++ decimal part ++ dash :: (decimal gen ++ kSuffix) := by
  have hslash : ∀ n : ℕ, ∀ c ∈ decimal n, c ≠ slash :=
    fun n c hc => ne_of_isDigit (isDigit_of_mem_decimal hc) (by decide)
  have hpre : ∀ c ∈ kPrefix, c ≠ slash := by decide +kernel
  have hsuf : ∀ c ∈ dash :: kSuffix, c ≠ slash := by decide +kernel
  rw [baseName, makeFileName, List.reverse_append, List.reverse_cons, List.append_assoc,
    List.takeWhile_append_of_pos, List.singleton_append, List.takeWhile_cons_of_neg (by decide),
    List.append_nil, List.reverse_reverse]
  intro c hc
  rw [bne_iff_ne]
  rw [List.mem_reverse, List.mem_append, List.mem_append, List.mem_cons, List.mem_append] at hc
  rcases hc with (hc | hc) | hc | hc | hc
  · exact hpre c hc
  · exact hslash part c hc
  · exact hsuf c (List.mem_cons.mpr (.inl hc))
  · exact hslash gen c hc
  · exact hsuf c (List.mem_cons_of_mem _ hc)

theorem shaped_makeFileName (dir : Bytes) (part gen : ℕ) :
    Shaped (baseName (makeFileName dir part gen)) (decimal part) (decimal gen) [] where
  split := by rw [baseName_makeFileName, List.append_nil]
  part := ⟨decimal_ne_nil part, fun _ hc => isDigit_of_mem_decimal hc⟩
  gen := ⟨decimal_ne_nil gen, fun _ hc => isDigit_of_mem_decimal hc⟩
  last := by decide

/-- A name has this shape in one way. -/
theorem Shaped.unique (h : Shaped name p g tail) (h' : Shaped name p' g' tail') :
    p = p' ∧ g = g' ∧ tail = tail' := by
  have hsplit := h.split.symm.trans h'.split
  rw [List.append_assoc kPrefix p, List.append_assoc kPrefix p'] at hsplit
  obtain ⟨hp, hrest⟩ := append_cons_inj h.part.2 h'.part.2 (by decide)
    (List.append_cancel_left hsplit)
  rw [List.append_assoc, List.append_assoc] at hrest
  obtain ⟨hg, htail⟩ := append_cons_inj h.gen.2 h'.gen.2 (by decide) hrest
  exact ⟨hp, hg, List.append_cancel_left htail⟩

theorem canonical_decimal {n : ℕ} (h : n < 2 ^ 32) : Canonical (decimal n) :=
  ⟨head?_decimal n, by rwa [decimalValue_decimal]⟩

theorem Canonical.decimal_eq (h : Canonical p) (hp : p ≠ [] ∧ ∀ c ∈ p, isDigit c = true) :
    decimal (decimalValue p) = p := by
  rcases h.1 with rfl | hhead
  · decide
  · exact decimal_decimalValue hp.2 hhead hp.1

theorem stoul_of_lt {n : ℕ} (h : decimalValue p < n) (hn : n ≤ 2 ^ 64) :
    stoul p = .ok (decimalValue p) := if_pos (h.trans_le hn)

/-! ## The directory -/

theorem parse_makeFileName (dir : Bytes) {part gen : ℕ} (hpart : part < 2 ^ 32)
    (hgen : gen < 2 ^ 32) :
    parseFileName (baseName (makeFileName dir part gen)) = .ok (some (part, gen)) := by
  have hp := decimalValue_decimal part
  have hg := decimalValue_decimal gen
  rw [(shaped_makeFileName dir part gen).parse, stoul_of_lt (hp.trans_lt hpart) (by decide),
    stoul_of_lt (hg.trans_lt hgen) (by decide), hp, hg]
  change Except.ok (some (part % 2 ^ 32, gen % 2 ^ 32)) = _
  rw [Nat.mod_eq_of_lt hpart, Nat.mod_eq_of_lt hgen]

/-- The listing of a directory of WAL files gives these files. -/
theorem parseChildren_listing (dir : Bytes) (env : Env)
    (h : ∀ f ∈ env.files.keys, f.1 < 2 ^ 32 ∧ f.2 < 2 ^ 32) :
    parseChildren (env.files.keys.map fun f => baseName (makeFileName dir f.1 f.2)) =
      .ok env.listFiles := by
  have hall : ∀ fs : List FileId, (∀ f ∈ fs, f.1 < 2 ^ 32 ∧ f.2 < 2 ^ 32) →
      (fs.map fun f => baseName (makeFileName dir f.1 f.2)).mapM parseFileName =
        .ok (fs.map some) := by
    intro fs hfs
    induction fs with
    | nil => rfl
    | cons f fs ih =>
      obtain ⟨hpart, hgen⟩ := hfs f List.mem_cons_self
      rw [List.map_cons, List.mapM_cons, parse_makeFileName dir hpart hgen,
        ih fun g hg => hfs g (List.mem_cons_of_mem _ hg)]
      rfl
  rw [parseChildren, hall _ h]
  have hsome : (env.files.keys.map some).reduceOption = env.files.keys := by
    exact (List.filterMap_map ..).trans List.filterMap_some
  exact congrArg (fun fs => Except.ok (List.insertionSort _ fs)) hsome

/-! ## Other names -/

/-- A name is parsed exactly unless it has the shape of a file name with other numerals or with
something behind it. -/
theorem parsesExactly_iff (dir name : Bytes) : ParsesExactly dir name ↔
    ∀ p g tail, Shaped name p g tail → Canonical p ∧ Canonical g ∧ tail = [] := by
  constructor
  · rintro ⟨parsed, hparse, hexact⟩ p g tail h
    rw [h.parse] at hparse
    cases hp : stoul p with
    | error e =>
      rw [hp] at hparse
      nomatch hparse
    | ok part =>
      cases hg : stoul g with
      | error e =>
        rw [hp, hg] at hparse
        nomatch hparse
      | ok gen =>
        rw [hp, hg] at hparse
        cases hparse
        obtain ⟨hpart, hgen, hname⟩ := (hexact _ _).mp rfl
        obtain ⟨rfl, rfl, rfl⟩ := (hname ▸ h).unique (shaped_makeFileName dir _ _)
        exact ⟨canonical_decimal hpart, canonical_decimal hgen, rfl⟩
  · intro hshape
    by_cases hsome : ∃ p g tail, Shaped name p g tail
    · obtain ⟨p, g, tail, h⟩ := hsome
      obtain ⟨hp, hg, rfl⟩ := hshape p g tail h
      refine ⟨some (decimalValue p, decimalValue g), ?_, ?_⟩
      · rw [h.parse, stoul_of_lt hp.2 (by decide), stoul_of_lt hg.2 (by decide)]
        change Except.ok (some (decimalValue p % 2 ^ 32, decimalValue g % 2 ^ 32)) = _
        rw [Nat.mod_eq_of_lt hp.2, Nat.mod_eq_of_lt hg.2]
      · intro part gen
        rw [Option.some_inj, Prod.mk.injEq]
        constructor
        · rintro ⟨rfl, rfl⟩
          refine ⟨hp.2, hg.2, ?_⟩
          rw [baseName_makeFileName, hp.decimal_eq h.part, hg.decimal_eq h.gen, h.split,
            List.append_nil]
        · rintro ⟨-, -, hname⟩
          obtain ⟨rfl, rfl, -⟩ := (hname ▸ h).unique (shaped_makeFileName dir part gen)
          exact ⟨decimalValue_decimal part, decimalValue_decimal gen⟩
    · refine ⟨none, parse_of_not_shaped fun p g tail h => hsome ⟨p, g, tail, h⟩, ?_⟩
      intro part gen
      constructor
      · exact fun hnone => nomatch hnone
      · rintro ⟨-, -, rfl⟩
        exact absurd ⟨_, _, _, shaped_makeFileName dir part gen⟩ hsome

/-- `zf-wal-0-1.log~`, the copy that an editor leaves behind. -/
def editorCopy : Bytes := kPrefix ++ [48] ++ dash :: ([49] ++ kSuffix ++ [126])

/-- `zf-wal-0-18446744073709551616.log`. -/
def hugeGen : Bytes := kPrefix ++ [48] ++ dash :: (decimal (2 ^ 64) ++ kSuffix)

/-- The copy is taken for the file, and the number beyond 64 bits is thrown. -/
theorem parsesExactly_fails :
    ¬ ParsesExactly [] editorCopy ∧ parseFileName hugeGen = .error .outOfRange := by
  have hzero : ([48] : Bytes) ≠ [] ∧ ∀ c ∈ ([48] : Bytes), isDigit c = true := by decide +kernel
  constructor
  · rintro ⟨parsed, hparse, hexact⟩
    have hcopy : Shaped editorCopy [48] [49] [126] := ⟨rfl, hzero, by decide +kernel, by decide +kernel⟩
    rw [hcopy.parse] at hparse
    cases hparse
    obtain ⟨-, -, hname⟩ := (hexact _ _).mp rfl
    have htail := (hname ▸ hcopy).unique (shaped_makeFileName [] _ _)
    nomatch htail.2.2
  · have hhuge : Shaped hugeGen [48] (decimal (2 ^ 64)) [] :=
      ⟨by rw [hugeGen, List.append_nil], hzero,
        ⟨decimal_ne_nil _, fun _ hc => isDigit_of_mem_decimal hc⟩, by decide⟩
    have hout : stoul (decimal (2 ^ 64)) = .error .outOfRange := by
      rw [stoul, decimalValue_decimal, if_neg (by decide)]
    rw [hhuge.parse, hout]
    rfl

end ZeroFlush.WalFileNames
