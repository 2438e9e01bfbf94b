import Mathlib.Data.List.Basic
import Mathlib.Data.List.Infix

/-! # Logs made of concatenated frames

A log is the concatenation of the frames of a list of records. A prefix of the log is the
concatenation of its whole frames and of a torn piece of the next one. -/
namespace ZeroFlush.ConcatenatedFrames

variable {α β : Type*} (f : α → List β)

/-- The records whose frames lie wholly in the first `n` symbols of the log. -/
def wholeFrames : ℕ → List α → List α
  | _, [] => []
  | n, r :: rs => if (f r).length ≤ n then r :: wholeFrames (n - (f r).length) rs else []

/-- What is left of the first `n` symbols after the whole frames. -/
def tornFrame : ℕ → List α → List β
  | _, [] => []
  | n, r :: rs => if (f r).length ≤ n then tornFrame (n - (f r).length) rs else (f r).take n

@[simp] theorem wholeFrames_nil (n : ℕ) : wholeFrames f n [] = [] := rfl

@[simp] theorem tornFrame_nil (n : ℕ) : tornFrame f n [] = [] := rfl

theorem wholeFrames_cons (n : ℕ) (r : α) (rs : List α) :
    wholeFrames f n (r :: rs) =
      if (f r).length ≤ n then r :: wholeFrames f (n - (f r).length) rs else [] := rfl

theorem tornFrame_cons (n : ℕ) (r : α) (rs : List α) :
    tornFrame f n (r :: rs) =
      if (f r).length ≤ n then tornFrame f (n - (f r).length) rs else (f r).take n := rfl

theorem take_flatMap (n : ℕ) (rs : List α) :
    (rs.flatMap f).take n = (wholeFrames f n rs).flatMap f ++ tornFrame f n rs := by
  induction rs generalizing n with
  | nil => simp
  | cons r rs ih =>
    by_cases h : (f r).length ≤ n
    · simp [wholeFrames_cons, tornFrame_cons, h, List.take_append, ih, List.take_of_length_le h]
    · have hn : n - (f r).length = 0 := by omega
      simp [wholeFrames_cons, tornFrame_cons, h, List.take_append, hn]

theorem wholeFrames_isPrefix (n : ℕ) (rs : List α) : wholeFrames f n rs <+: rs := by
  induction rs generalizing n with
  | nil => simp
  | cons r rs ih =>
    by_cases h : (f r).length ≤ n
    · simpa [wholeFrames_cons, h] using ih (n - (f r).length)
    · simp [wholeFrames_cons, h]

/-- A torn piece is a proper beginning of the frame of some record of the log. -/
theorem tornFrame_spec (n : ℕ) (rs : List α) :
    tornFrame f n rs = [] ∨
      ∃ r ∈ rs, ∃ k < (f r).length, tornFrame f n rs = (f r).take k := by
  induction rs generalizing n with
  | nil => simp
  | cons r rs ih =>
    by_cases h : (f r).length ≤ n
    · rcases ih (n - (f r).length) with h0 | ⟨s, hs, k, hk, he⟩
      · left
        simpa [tornFrame_cons, h] using h0
      · right
        exact ⟨s, List.mem_cons_of_mem _ hs, k, hk, by simpa [tornFrame_cons, h] using he⟩
    · right
      exact ⟨r, List.mem_cons_self, n, by omega, by simp [tornFrame_cons, h]⟩

/-- The frames of a beginning of the log survive every cut behind them. -/
theorem isPrefix_wholeFrames {n : ℕ} {as bs : List α} (h : (as.flatMap f).length ≤ n) :
    as <+: wholeFrames f n (as ++ bs) := by
  induction as generalizing n with
  | nil => simp
  | cons a as ih =>
    simp only [List.flatMap_cons, List.length_append] at h
    have ha : (f a).length ≤ n := by omega
    simpa [wholeFrames_cons, ha] using ih (n := n - (f a).length) (by omega)

theorem wholeFrames_mono {n n' : ℕ} (h : n ≤ n') (rs : List α) :
    wholeFrames f n rs <+: wholeFrames f n' rs := by
  induction rs generalizing n n' with
  | nil => exact List.prefix_rfl
  | cons r rs ih =>
    by_cases hr : (f r).length ≤ n
    · have hr' : (f r).length ≤ n' := hr.trans h
      simpa [wholeFrames_cons, hr, hr'] using ih (Nat.sub_le_sub_right h (f r).length)
    · simp [wholeFrames_cons, hr]

theorem wholeFrames_append_isPrefix (n : ℕ) (rs ss : List α) :
    wholeFrames f n rs <+: wholeFrames f n (rs ++ ss) := by
  induction rs generalizing n with
  | nil => simp
  | cons r rs ih =>
    by_cases h : (f r).length ≤ n
    · simpa [wholeFrames_cons, h] using ih (n - (f r).length)
    · simp [wholeFrames_cons, h]

theorem wholeFrames_length (rs : List α) : wholeFrames f (rs.flatMap f).length rs = rs := by
  have hle : rs <+: wholeFrames f (rs.flatMap f).length (rs ++ []) :=
    isPrefix_wholeFrames f le_rfl
  rw [List.append_nil] at hle
  exact ((wholeFrames_isPrefix f _ rs).eq_of_length_le hle.length_le)

theorem tornFrame_zero (rs : List α) : tornFrame f 0 rs = [] := by
  induction rs with
  | nil => rfl
  | cons r rs ih => by_cases h : (f r).length ≤ 0 <;> simp [tornFrame_cons, h, ih]

/-- A cut in the first part of a log does not depend on the rest of it. -/
theorem tornFrame_append {n : ℕ} {rs : List α} (h : n ≤ (rs.flatMap f).length) (ss : List α) :
    tornFrame f n (rs ++ ss) = tornFrame f n rs := by
  induction rs generalizing n with
  | nil =>
    obtain rfl : n = 0 := by simpa using h
    simpa using tornFrame_zero f ss
  | cons r rs ih =>
    by_cases hr : (f r).length ≤ n
    · simp only [List.flatMap_cons, List.length_append] at h
      simpa [tornFrame_cons, hr] using ih (n := n - (f r).length) (by omega)
    · simp [tornFrame_cons, hr]

theorem tornFrame_length (rs : List α) : tornFrame f (rs.flatMap f).length rs = [] := by
  have h := take_flatMap f (rs.flatMap f).length rs
  rw [wholeFrames_length, List.take_length] at h
  simpa using h

/-- A cut between two frames leaves the frames in front of it. -/
theorem take_flatMap_of_aligned {n : ℕ} {rs : List α} (h : tornFrame f n rs = []) :
    (rs.flatMap f).take n = (wholeFrames f n rs).flatMap f := by
  rw [take_flatMap, h, List.append_nil]

theorem wholeFrames_zero (hpos : ∀ r, 0 < (f r).length) (rs : List α) : wholeFrames f 0 rs = [] := by
  cases rs with
  | nil => rfl
  | cons r rs =>
    have hr := hpos r
    rw [wholeFrames_cons, if_neg (by omega)]

/-- Between two cuts there is one that separates two records, if the later cut keeps one of them
and the earlier one loses the other. -/
theorem exists_cut_between (hpos : ∀ r, 0 < (f r).length) {s c : ℕ} (hsc : s ≤ c) {a b : α}
    (hne : a ≠ b) {rs : List α} (ha : a ∈ wholeFrames f c rs) (hb : b ∈ rs)
    (hlost : b ∉ wholeFrames f s rs) :
    ∃ n, s ≤ n ∧ n ≤ c ∧ (a ∈ wholeFrames f n rs ∧ b ∉ wholeFrames f n rs ∨
      b ∈ wholeFrames f n rs ∧ a ∉ wholeFrames f n rs) := by
  induction rs generalizing s c with
  | nil => cases hb
  | cons q rs ih =>
    have hq : (f q).length ≤ c := by
      by_contra hlt
      rw [wholeFrames_cons, if_neg hlt] at ha
      cases ha
    -- the cut right behind the first frame keeps only that frame
    have honly : wholeFrames f (f q).length (q :: rs) = [q] := by
      rw [wholeFrames_cons, if_pos le_rfl, Nat.sub_self, wholeFrames_zero f hpos]
    cases eq_or_ne q a with
    | inl hqa =>
      subst hqa
      cases Nat.lt_or_ge s (f q).length with
      | inl hlt => exact ⟨(f q).length, hlt.le, hq, .inl (by simp [honly, hne.symm])⟩
      | inr hge => exact ⟨s, le_rfl, hsc, .inl ⟨by simp [wholeFrames_cons, hge], hlost⟩⟩
    | inr hqa =>
      cases eq_or_ne q b with
      | inl hqb =>
        subst hqb
        refine ⟨(f q).length, ?_, hq, .inr (by simp [honly, hne])⟩
        by_contra hlt
        exact hlost (by simp [wholeFrames_cons, (not_le.mp hlt).le])
      | inr hqb =>
        -- neither record comes first: cut the rest
        rw [wholeFrames_cons, if_pos hq] at ha
        have ha' := (List.mem_cons.mp ha).resolve_left hqa.symm
        have hb' := (List.mem_cons.mp hb).resolve_left hqb.symm
        have hlost' : b ∉ wholeFrames f (s - (f q).length) rs := by
          intro hmem
          apply hlost
          rw [wholeFrames_cons]
          split
          · exact List.mem_cons_of_mem _ hmem
          next hlt =>
            rw [Nat.sub_eq_zero_of_le (by omega), wholeFrames_zero f hpos] at hmem
            exact hmem
        obtain ⟨n, hsn, hnc, h⟩ := ih (by omega) ha' hb' hlost'
        refine ⟨n + (f q).length, by omega, by omega, ?_⟩
        simpa [wholeFrames_cons, hqa.symm, hqb.symm] using h

end ZeroFlush.ConcatenatedFrames
