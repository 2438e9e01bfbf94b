import ZeroFlush.FileRollovers
import ZeroFlush.MergeTask

/-! # Runs of the kernel

Four decoders, the merge and the encoder are connected by streams. The merge and the streams belong to
the instance of the kernel: what a run leaves in them is there for the next run. -/
namespace ZeroFlush.KernelRuns
open FixedWidthCodec ByteMemory PrefixCompression DeviceStreams SortKeys SourceMerges MergeTask
  DeviceEncoder EncodedTables EncoderRuns FileRollovers
open SstDecoder (Fits)
open OnChipArrays (WriteStep encoderSteps)

structure KrnlVadd where
  merge : MergeState
  decoderKm : KmStreams
  encoderKm : List KeyMeta
  mergeResult : List ℕ
  encoderValue : ℕ → List Slice

/-- What the decoders of a run send, the words of `host_data` for the encoder, and the memories that
it finds. -/
structure Call where
  ports : Fin 4 → Streams
  kvSum : ℕ
  mode : ℕ
  sstBytes : ℕ
  bram : Memory
  sst : Memory
  index : Memory

namespace Call

def keepAllVersions (c : Call) : Bool := c.mode % 2 ^ 32 == 1

def maxFileSize (c : Call) : ℕ := (c.sstBytes / MAX_OUTPUT_FILE_NUM + 4095) / 4096 * 4096 % 2 ^ 40

/-- The values of a port go past the merge. -/
def values (c : Call) (port : ℕ) : List Slice :=
  if h : port < 4 then (c.ports ⟨port, h⟩).value else []

end Call

namespace KrnlVadd

def initial : KrnlVadd := ⟨.initial, fun _ => [], [], [], fun _ => []⟩

/-- One run. The merge reads at least one record in every round. -/
def run (k : KrnlVadd) (c : Call) : Option (KrnlVadd × Encoder) := do
  let km := fun i => k.decoderKm i ++ (c.ports i).km
  let (merge, km, sent) ← mergeTask (total km) k.merge km
  let (s, left) ← encoder c.keepAllVersions c.maxFileSize (c.kvSum % 2 ^ 32)
    (.start c.bram c.sst c.index)
    ⟨k.encoderKm ++ sent.map Prod.fst, k.mergeResult ++ sent.map fun x => x.2.val,
      fun port => k.encoderValue port ++ c.values port⟩
  some (⟨merge, km, left.km, left.mergeResult, left.value⟩, s)

def runs : KrnlVadd → List Call → Option (KrnlVadd × List Encoder)
  | k, [] => some (k, [])
  | k, c :: cs => do
    let (k, s) ← k.run c
    let (k, ss) ← k.runs cs
    some (k, s :: ss)

/-- Nothing is left on the streams. -/
structure Clean (k : KrnlVadd) : Prop where
  decoderKm : ∀ i, k.decoderKm i = []
  encoderKm : k.encoderKm = []
  mergeResult : k.mergeResult = []
  encoderValue : ∀ port, k.encoderValue port = []

end KrnlVadd

/-- Every port sends a run of records in the order of internal keys, and no two ports send one key. -/
structure Call.Sends (c : Call) (runs : Fin 4 → List Entry) : Prop where
  emits : ∀ i, Emits (c.ports i) (runs i)
  kvSum : c.kvSum % 2 ^ 32 = ∑ i, (runs i).length
  fits : ∀ i, ∀ e ∈ runs i, Fits e
  footer : ∀ i, ∀ e ∈ runs i, extractInternalKeyFooter e.key ≠ 0
  sorted : ∀ i, (runs i).Pairwise fun a b => internalCompare .bytewise a.key b.key = .lt
  apart : ∀ i j, i ≠ j → ∀ a ∈ runs i, ∀ b ∈ runs j, a.key ≠ b.key

/-- No record of the user key has a greater trailer. -/
def Newest (runs : Fin 4 → List Entry) (e : Entry) : Prop :=
  ∀ i, ∀ e' ∈ runs i, extractUserKey e'.key = extractUserKey e.key →
    extractInternalKeyFooter e'.key ≤ extractInternalKeyFooter e.key

/-- The records of all ports in one order: all of them, or the newest of every user key. -/
structure Reference (keepAllVersions : Bool) (runs : Fin 4 → List Entry) (written : List Entry) :
    Prop where
  sorted : written.Pairwise fun a b => internalCompare .bytewise a.key b.key = .lt
  mem : ∀ e, e ∈ written ↔ (∃ i, e ∈ runs i) ∧ (keepAllVersions = true ∨ Newest runs e)

/-- The output fits one file: there is room for data, a second file is not begun, and the index stays
in the part of its output that a file has. -/
structure FitsOneFile (c : Call) (s : Encoder) : Prop where
  room : 0 < c.maxFileSize
  one : s.closed.length ≤ 1
  index : ∀ f ∈ s.closed, f.topIndexBlockIndex ≤ indexPart

/-- If all blocks fit their buffer and the output one file, there are so many files, with the records
of the reference. -/
def Emitted (files : ℕ) (c : Call) (runs : Fin 4 → List Entry) (s : Encoder) : Prop :=
  s.overflow = false → FitsOneFile c s → s.closed.length = files ∧
    ∃ written, Reference c.keepAllVersions runs written ∧ WellFormedFiles c.maxFileSize s written

/-! ## The records that are kept -/

variable {es : List Entry} {e : Entry} {runs : Fin 4 → List Entry} {c : Call}

theorem sameUserKey_keyMeta {a b : Entry} (ha : a.key.length = 32) (hb : b.key.length = 32) :
    sameUserKey (keyMeta a).key (keyMeta b).key = true ↔
      extractUserKey a.key = extractUserKey b.key := by
  have hkey : (keyMeta a).key.length = 32 := rfl
  have hlen : 16 * ((keyMeta a).key.length / 16) - 8 = 32 - kNumInternalBytes := by
    rw [hkey, kNumInternalBytes]
  rw [extractUserKey, extractUserKey, ha, hb, sameUserKey, Bool.and_eq_true, beq_iff_eq, beq_iff_eq,
    hlen]
  constructor
  · intro h
    exact h.2
  · intro h
    exact ⟨rfl, h⟩

/-- Of two versions of a user key the one in front has the greater trailer. -/
theorem footer_lt_of_rank_lt {a b : Bytes} (ha : a.length = 32) (hb : b.length = 32)
    (hlt : rank a < rank b) (huser : extractUserKey a = extractUserKey b) :
    extractInternalKeyFooter b < extractInternalKeyFooter a := by
  have hnumber := (userNumber_inj ha hb).mpr huser
  rcases (rank_lt_iff ha hb).mp hlt with hless | ⟨-, hfooter⟩
  · omega
  · exact hfooter

/-- Between two versions of a user key stand only versions of it. -/
theorem extractUserKey_eq_of_between {a b l : Bytes} (hl : l.length = 32) (ha : a.length = 32)
    (hb : b.length = 32) (hla : rank l < rank a) (hab : rank a < rank b)
    (huser : extractUserKey l = extractUserKey b) : extractUserKey a = extractUserKey b := by
  have hnumber := (userNumber_inj hl hb).mpr huser
  have hfirst := (rank_lt_iff hl ha).mp hla
  have hsecond := (rank_lt_iff ha hb).mp hab
  apply (userNumber_inj ha hb).mp
  omega

/-- The record that was written last stands in front of those to come. -/
def Behind (last : Keystring) (es : List Entry) : Prop :=
  last.length = 0 ∨ ∃ a : Entry, last = (keyMeta a).key ∧ a.key.length = 32 ∧
    ∀ e ∈ es, rank a.key < rank e.key

theorem Behind.of_same {last : Keystring} (h : Behind last es) {b : Entry} (hb : b.key.length = 32)
    (hsame : sameUserKey last (keyMeta b).key = true) : ∃ a : Entry, last = (keyMeta a).key ∧
      a.key.length = 32 ∧ (∀ e ∈ es, rank a.key < rank e.key) ∧
        extractUserKey a.key = extractUserKey b.key := by
  rcases h with hzero | ⟨a, rfl, ha, hall⟩
  · have hlen : (keyMeta b).key.length = 32 := rfl
    rw [sameUserKey, hzero, hlen, Bool.and_eq_true] at hsame
    exact absurd hsame.1 (by decide)
  · exact ⟨a, rfl, ha, hall, (sameUserKey_keyMeta ha hb).mp hsame⟩

theorem Behind.of_cons {last : Keystring} {a : Entry} (h : Behind last (a :: es)) :
    Behind last es := by
  rcases h with hzero | ⟨b, hb, hlen, hall⟩
  · exact .inl hzero
  · exact .inr ⟨b, hb, hlen, fun e he => hall e (List.mem_cons_of_mem a he)⟩

/-- Of records in order those are kept that have not the user key of the record before them all and
are the newest of their own. -/
theorem mem_keptFrom {last : Keystring} (hlen : ∀ e ∈ es, e.key.length = 32)
    (hsorted : es.Pairwise fun a b => rank a.key < rank b.key) (hlast : Behind last es) :
    e ∈ keptFrom false last es ↔ e ∈ es ∧ sameUserKey last (keyMeta e).key = false ∧
      ∀ e' ∈ es, extractUserKey e'.key = extractUserKey e.key →
        extractInternalKeyFooter e'.key ≤ extractInternalKeyFooter e.key := by
  induction es generalizing last with
  | nil => exact iff_of_false List.not_mem_nil fun h => List.not_mem_nil h.1
  | cons a es ih =>
    obtain ⟨hfirst, hrest⟩ := List.pairwise_cons.mp hsorted
    have ha := hlen a List.mem_cons_self
    have hlens : ∀ e ∈ es, e.key.length = 32 := fun e he => hlen e (List.mem_cons_of_mem a he)
    rw [keptFrom, Bool.not_false, Bool.true_and]
    cases hsame : sameUserKey last (keyMeta a).key with
    | true =>
      rw [if_pos rfl, ih hlens hrest hlast.of_cons]
      obtain ⟨l, rfl, hl, -, huser⟩ := hlast.of_same ha hsame
      constructor
      · rintro ⟨he, hother, hnewest⟩
        refine ⟨List.mem_cons_of_mem a he, hother, ?_⟩
        intro e' he' heq
        rcases List.mem_cons.mp he' with rfl | he'
        · have hbad := (sameUserKey_keyMeta hl (hlens e he)).mpr (huser.trans heq)
          rw [hother] at hbad
          exact absurd hbad Bool.false_ne_true
        · exact hnewest e' he' heq
      · rintro ⟨he, hother, hnewest⟩
        rcases List.mem_cons.mp he with rfl | he
        · rw [hsame] at hother
          exact absurd hother.symm Bool.false_ne_true
        · exact ⟨he, hother, fun e' he' => hnewest e' (List.mem_cons_of_mem a he')⟩
    | false =>
      rw [if_neg Bool.false_ne_true, List.mem_cons, ih hlens hrest (.inr ⟨a, rfl, ha, hfirst⟩)]
      constructor
      · rintro (rfl | ⟨he, hother, hnewest⟩)
        · refine ⟨List.mem_cons_self, hsame, ?_⟩
          intro e' he' heq
          rcases List.mem_cons.mp he' with rfl | he'
          · exact Nat.le_refl _
          · exact (footer_lt_of_rank_lt ha (hlens e' he') (hfirst e' he') heq.symm).le
        · have hne : extractUserKey a.key ≠ extractUserKey e.key := by
            intro heq
            rw [(sameUserKey_keyMeta ha (hlens e he)).mpr heq] at hother
            exact absurd hother.symm Bool.false_ne_true
          refine ⟨List.mem_cons_of_mem a he, ?_, ?_⟩
          · rw [Bool.eq_false_iff]
            intro hbad
            obtain ⟨l, -, hl, hall, huser⟩ := hlast.of_same (hlens e he) hbad
            exact hne (extractUserKey_eq_of_between hl ha (hlens e he) (hall a List.mem_cons_self)
              (hfirst e he) huser)
          · intro e' he' heq
            rcases List.mem_cons.mp he' with rfl | he'
            · exact absurd heq hne
            · exact hnewest e' he' heq
      · rintro ⟨he, hother, hnewest⟩
        rcases List.mem_cons.mp he with rfl | he
        · exact .inl rfl
        · right
          refine ⟨he, ?_, fun e' he' => hnewest e' (List.mem_cons_of_mem a he')⟩
          rw [Bool.eq_false_iff]
          intro hbad
          have heq := (sameUserKey_keyMeta ha (hlens e he)).mp hbad
          have hlt := footer_lt_of_rank_lt ha (hlens e he) (hfirst e he) heq
          exact absurd (hnewest a List.mem_cons_self heq) (Nat.not_le.mpr hlt)

theorem reference_keptFrom {keepAllVersions : Bool} (hlen : ∀ e ∈ es, e.key.length = 32)
    (hsorted : es.Pairwise fun a b => rank a.key < rank b.key)
    (hmem : ∀ e, e ∈ es ↔ ∃ i, e ∈ runs i) :
    Reference keepAllVersions runs (keptFrom keepAllVersions ⟨[], 0⟩ es) where
  sorted := by
    have hsublist := keptFrom_sublist keepAllVersions ⟨[], 0⟩ es
    apply (hsorted.sublist hsublist).imp_of_mem
    intro a b ha hb hlt
    exact (internalCompare_eq_lt_iff (hlen a (hsublist.subset ha)) (hlen b (hsublist.subset hb))).mpr
      hlt
  mem := by
    intro e
    cases keepAllVersions with
    | true =>
      rw [keptFrom_all, hmem]
      exact (and_iff_left (.inl rfl)).symm
    | false =>
      rw [mem_keptFrom hlen hsorted (.inl rfl), hmem]
      apply and_congr_right
      intro _
      constructor
      · intro ⟨_, hnewest⟩
        exact .inr fun i e' he' => hnewest e' ((hmem e').mpr ⟨i, he'⟩)
      · rintro (hall | hnewest)
        · exact absurd hall Bool.false_ne_true
        · refine ⟨rfl, ?_⟩
          intro e' he'
          obtain ⟨i, hi⟩ := (hmem e').mp he'
          exact hnewest i e' hi

/-! ## The streams of the encoder -/

theorem carries_cons {slices : List Slice} (h : Carries (e :: es) slices) :
    ∃ first second later, slices = first :: second :: later ∧ Window e (first ++ second) ∧
      Carries es later := by
  match slices, h with
  | first :: second :: later, ⟨hfirst, hsecond, hvalue, hlater⟩ =>
    refine ⟨first, second, later, rfl, ⟨?_, hvalue⟩, hlater⟩
    rw [List.length_append, hfirst, hsecond]
    rfl

theorem carries_nil {slices : List Slice} (h : Carries [] slices) : slices = [] := by
  match slices, h with
  | [], _ => rfl

/-- The values of every port come in the order in which the merge has taken its records. -/
theorem feeds_of_merged {r : Entry → Entry → Prop} {taken : List (Fin 4 × Entry)}
    (h : Merged r runs taken) {value : ℕ → List Slice}
    (hvalue : ∀ i : Fin 4, Carries (runs i) (value i)) (hother : ∀ port, 4 ≤ port → value port = [])
    (kms : List KeyMeta) (ports : List ℕ) :
    ∃ value', Feeds (taken.map Prod.snd)
      ⟨taken.map (fun x => keyMeta x.2) ++ kms, taken.map (fun x => x.1.val) ++ ports, value⟩
      ⟨kms, ports, value'⟩ ∧ ∀ port, value' port = [] := by
  induction h generalizing value with
  | @done runs h =>
    refine ⟨value, .nil _, ?_⟩
    intro port
    by_cases hport : port < 4
    · have hempty := hvalue ⟨port, hport⟩
      rw [h] at hempty
      exact carries_nil hempty
    · exact hother port (Nat.not_lt.mp hport)
  | @take runs i e rest taken hfront hfirst hrest ih =>
    have hi := hvalue i
    rw [hfront] at hi
    obtain ⟨first, second, later, hslices, hwindow, hlater⟩ := carries_cons hi
    have hnext : ∀ j : Fin 4, Carries (Function.update runs i rest j)
        (if j.val = i then later else value j) := by
      intro j
      by_cases hj : j = i
      · rw [hj, Function.update_self, if_pos rfl]
        exact hlater
      · rw [Function.update_of_ne hj, if_neg fun heq => hj (Fin.ext heq)]
        exact hvalue j
    have hbeyond : ∀ port : ℕ, 4 ≤ port → (if port = i then later else value port) = [] := by
      intro port hport
      rw [if_neg (by omega)]
      exact hother port hport
    obtain ⟨value', hfeeds, hempty⟩ := @ih (fun port => if port = i then later else value port)
      hnext hbeyond
    exact ⟨value', .cons rfl rfl hslices hwindow hfeeds, hempty⟩

/-! ## Runs with one file -/

variable {keepAllVersions : Bool} {fileLimit : ℕ} {inputs rest : Inputs} {s t : Encoder}

theorem filesSoFar_le_encoderLoop (hfeeds : Feeds es inputs rest)
    (hloop : encoderLoop keepAllVersions fileLimit es.length s inputs = some (t, rest)) :
    filesSoFar s ≤ filesSoFar t := by
  obtain ⟨t', hloop', hle⟩ := @encoderLoop_rule s keepAllVersions fileLimit _
    (fun s' _ => filesSoFar s ≤ filesSoFar s') (by
      intro s' done e window last hle _ _ hkept
      have hnext := @filesSoFar_encodeRecord s' keepAllVersions fileLimit last (keyMeta e) window hkept
      have hfiles : filesSoFar s' ≤ s'.closed.length + 1 := by
        rw [filesSoFar]
        split <;> omega
      omega) es inputs rest hfeeds [] (Nat.le_refl _) rfl
  cases hloop.symm.trans hloop'
  exact hle

theorem length_closed_finish (s : Encoder) :
    (s.finish fileLimit).closed.length = filesSoFar s := by
  rw [Encoder.finish, filesSoFar]
  by_cases hzero : s.pps.entries = 0
  · rw [if_neg (not_not.mpr hzero), if_pos hzero, Nat.add_zero]
  · rw [if_pos hzero, if_neg hzero, closed_closeFile]

/-- Behind a closed file no record is written. -/
theorem countsOn_of_one_file (hfeeds : Feeds es inputs rest)
    (hloop : encoderLoop keepAllVersions fileLimit es.length s inputs = some (t, rest))
    (hone : filesSoFar t ≤ 1) :
    ∀ step ∈ encoderSteps keepAllVersions fileLimit es.length s inputs, CountsOn step.state := by
  induction hfeeds generalizing s with
  | nil inputs => exact List.forall_mem_nil _
  | @cons e es inputs rest kms port ports first second slices hkm hport hvalue hw hrest ih =>
    rw [List.length_cons, encoderLoop, hkm, hport] at hloop
    dsimp only at hloop
    rw [hvalue] at hloop
    dsimp only at hloop
    rw [List.length_cons, encoderSteps, hkm, hport]
    dsimp only
    rw [hvalue]
    dsimp only
    cases hkept : !keepAllVersions && sameUserKey s.lastUserKey (keyMeta e).key with
    | true =>
      rw [if_pos rfl]
      exact ih hloop
    | false =>
      rw [if_neg Bool.false_ne_true, List.forall_mem_cons]
      refine ⟨?_, ih hloop⟩
      intro hclosed
      have hnext := @filesSoFar_encodeRecord s keepAllVersions fileLimit (es.length == 0) (keyMeta e)
        (first ++ second) hkept
      have hle := filesSoFar_le_encoderLoop hrest hloop
      have hpos : 0 < s.closed.length := List.length_pos_of_ne_nil hclosed
      omega

/-! ## One run -/

theorem maxFileSize_dvd (c : Call) : 4096 ∣ c.maxFileSize := by
  rw [Call.maxFileSize]
  omega

theorem rank_lt_maxKey {key : Bytes} (hlen : key.length = 32)
    (hfooter : extractInternalKeyFooter key ≠ 0) : rank key < rank maxKey.c := by
  have hlt := decodeFixed_lt (extractUserKey key).reverse
  rw [List.length_reverse, length_extractUserKey hlen] at hlt
  have hmax : rank maxKey.c = 2 ^ 256 - 1 := by decide +kernel
  have hnumber : userNumber key < 256 ^ 24 := hlt
  have hbound := extractInternalKeyFooter_lt hlen
  rw [hmax, rank_eq hlen]
  omega

theorem Call.Sends.mergeable (h : c.Sends runs) : Mergeable runs where
  sorted := by
    intro i
    apply (h.sorted i).imp_of_mem
    intro a b ha hb hlt
    exact (internalCompare_eq_lt_iff (h.fits i a ha).1 (h.fits i b hb).1).mp hlt
  apart := by
    intro i j hij a ha b hb heq
    exact h.apart i j hij a ha b hb ((rank_inj (h.fits i a ha).1 (h.fits j b hb).1).mp heq)
  below := fun i a ha => rank_lt_maxKey (h.fits i a ha).1 (h.footer i a ha)
  real := by
    intro i a ha heq
    apply h.footer i a ha
    rw [heq]
    decide +kernel

/-- On clean streams the first records of all ports are read. -/
theorem Call.Sends.awaits (h : c.Sends runs) (s : MergeState) :
    Awaits s (fun i => (c.ports i).km) runs := by
  have hport : ∀ i, ∃ x xs, pending (runs i) = x :: xs := fun i =>
    List.exists_cons_of_ne_nil (pending_ne_nil (runs i))
  choose x xs hxs using hport
  refine ⟨x, xs, readNext_of_signals s ?_, fun i => (hxs i).symm⟩
  intro i
  rw [(h.emits i).1, ← hxs i]
  rfl

/-- The merge of a run on clean streams. -/
theorem KrnlVadd.Clean.mergeTask {k : KrnlVadd} (hk : k.Clean) (h : c.Sends runs) :
    let km := fun i => k.decoderKm i ++ (c.ports i).km
    ∃ merge km' taken, Merged (fun a b => rank a.key < rank b.key) runs taken ∧
      MergeTask.mergeTask (total km) k.merge km =
        some (merge, km', taken.map (fun x => (keyMeta x.2, x.1)) ++ [(maxMark, 3)]) ∧
      ∀ i, km' i = [] := by
  intro km
  have hkm : km = fun i => (c.ports i).km := by
    funext i
    exact congrArg (· ++ _) (hk.decoderKm i)
  have hlen : ∀ i, (km i).length = (runs i).length + 2 := by
    intro i
    rw [hkm]
    dsimp only
    rw [(h.emits i).1, List.length_append, List.length_cons, List.length_map]
    rfl
  apply mergeTask_spec _ h.mergeable
  · rw [total, hlen, hlen, hlen, hlen, Fin.sum_univ_four]
    omega
  · rw [hkm]
    exact h.awaits k.merge

/-- What the merge has taken is fed to the encoder, with one mark behind it. -/
theorem KrnlVadd.Clean.feeds {k : KrnlVadd} (hk : k.Clean) (h : c.Sends runs)
    {taken : List (Fin 4 × Entry)} (hmerged : Merged (fun a b => rank a.key < rank b.key) runs taken) :
    let sent := taken.map (fun x => (keyMeta x.2, x.1)) ++ [(maxMark, 3)]
    ∃ value', Feeds (taken.map Prod.snd)
      ⟨k.encoderKm ++ sent.map Prod.fst, k.mergeResult ++ sent.map fun x => x.2.val,
        fun port => k.encoderValue port ++ c.values port⟩
      ⟨[maxMark], [3], value'⟩ ∧ ∀ port, value' port = [] := by
  intro sent
  have hvalues : (fun port => k.encoderValue port ++ c.values port) = c.values := by
    funext port
    rw [hk.encoderValue, List.nil_append]
  have hfst : sent.map Prod.fst = taken.map (fun x => keyMeta x.2) ++ [maxMark] := by
    rw [List.map_append, List.map_map]
    rfl
  have hsnd : (sent.map fun x => x.2.val) = taken.map (fun x => x.1.val) ++ [3] := by
    rw [List.map_append, List.map_map]
    rfl
  rw [hk.encoderKm, hk.mergeResult, hvalues, List.nil_append, List.nil_append, hfst, hsnd]
  apply feeds_of_merged hmerged
  · intro i
    rw [Call.values, dif_pos i.isLt]
    exact (h.emits i).2
  · intro port hport
    rw [Call.values, dif_neg (Nat.not_lt.mpr hport)]

/-- The encoder has run over all that the merge has taken, and `t` is its state before the end. -/
theorem emitted_finish {taken : List (Fin 4 × Entry)} (h : c.Sends runs)
    (hmerged : Merged (fun a b => rank a.key < rank b.key) runs taken)
    (hfeeds : Feeds (taken.map Prod.snd) inputs rest)
    (hloop : encoderLoop c.keepAllVersions c.maxFileSize (taken.map Prod.snd).length
      (.start c.bram c.sst c.index) inputs = some (t, rest)) :
    Emitted (if c.kvSum % 2 ^ 32 = 0 then 0 else 1) c runs (t.finish c.maxFileSize) := by
  intro hoverflow hfits
  have hfiles := hfits.one
  rw [length_closed_finish] at hfiles
  have hmem : ∀ e, e ∈ taken.map Prod.snd ↔ ∃ i, e ∈ runs i := fun e => hmerged.mem_iff
  have hall : ∀ e ∈ taken.map Prod.snd, Fits e := by
    intro e he
    obtain ⟨i, hi⟩ := (hmem e).mp he
    exact h.fits i e hi
  have hreference := @reference_keptFrom _ runs c.keepAllVersions (fun e he => (hall e he).1)
    hmerged.pairwise hmem
  have hchain : (keptFrom c.keepAllVersions ⟨[], 0⟩ (taken.map Prod.snd)).IsChain
      fun e e' => e.key ≠ e'.key := by
    apply List.Pairwise.isChain
    apply (hmerged.pairwise.sublist (keptFrom_sublist _ _ _)).imp
    intro a b hlt heq
    rw [heq] at hlt
    exact lt_irrefl _ hlt
  have hwell := (finish_wellFormed_iff hfeeds hloop hall hchain (maxFileSize_dvd c) hfits.room hoverflow
    (hfits.one.trans (by decide)) hfits.index).mpr (countsOn_of_one_file hfeeds hloop hfiles)
  refine ⟨?_, _, hreference, hwell⟩
  have hcount : (taken.map Prod.snd).length = c.kvSum % 2 ^ 32 := by
    rw [List.length_map, hmerged.length_eq, h.kvSum]
  split
  · next hzero =>
    rw [hcount, hzero] at hloop
    cases hloop
    rfl
  · next hsome =>
    have hone : (t.finish c.maxFileSize).closed.length ≤ 1 := hfits.one
    obtain ⟨contents, hentries, hlength, -⟩ := hwell
    have hne : taken.map Prod.snd ≠ [] := by
      intro hnil
      rw [hnil] at hcount
      exact hsome hcount.symm
    have hkept := keptFrom_ne_nil c.keepAllVersions hne
    rw [← hentries] at hkept
    have hpos : 0 < contents.length := by
      apply List.length_pos_of_ne_nil
      rintro rfl
      exact hkept rfl
    omega

/-- A run on clean streams leaves clean streams. -/
theorem KrnlVadd.Clean.run {k : KrnlVadd} (hk : k.Clean) (h : c.Sends runs) :
    ∃ k' s, k.run c = some (k', s) ∧ k'.Clean ∧
      Emitted (if c.kvSum % 2 ^ 32 = 0 then 0 else 1) c runs s := by
  obtain ⟨merge, km', taken, hmerged, htask, hkm⟩ := hk.mergeTask h
  obtain ⟨value, hfeeds, hvalue⟩ := hk.feeds h hmerged
  obtain ⟨t, hloop⟩ := @encoderLoop_of_feeds c.maxFileSize c.keepAllVersions _ _ _ hfeeds
    (.start c.bram c.sst c.index)
  have hcount : (taken.map Prod.snd).length = c.kvSum % 2 ^ 32 := by
    rw [List.length_map, hmerged.length_eq, h.kvSum]
  have hencoder := encoder_eq hloop rfl rfl
  rw [hcount] at hencoder
  refine ⟨⟨merge, km', [], [], value⟩, t.finish c.maxFileSize, ?_, ⟨hkm, rfl, rfl, hvalue⟩,
    emitted_finish h hmerged hfeeds hloop⟩
  rw [KrnlVadd.run]
  dsimp only [Option.bind_eq_bind]
  rw [htask, Option.bind_some]
  dsimp only
  rw [hencoder]
  rfl

/-! ## All runs of an instance -/

theorem clean_initial : KrnlVadd.initial.Clean := ⟨fun _ => rfl, rfl, rfl, fun _ => rfl⟩

theorem runs_spec {calls : List (Call × (Fin 4 → List Entry))} {k : KrnlVadd} (hk : k.Clean)
    (h : ∀ call ∈ calls, call.1.Sends call.2) :
    ∃ k' ss, k.runs (calls.map Prod.fst) = some (k', ss) ∧ k'.Clean ∧ List.Forall₂
      (fun call s => Emitted (if call.1.kvSum % 2 ^ 32 = 0 then 0 else 1) call.1 call.2 s) calls ss := by
  induction calls generalizing k with
  | nil => exact ⟨k, [], rfl, hk, .nil⟩
  | cons call calls ih =>
    obtain ⟨k', s, hrun, hclean, hemitted⟩ := hk.run (h call List.mem_cons_self)
    obtain ⟨k'', ss, hruns, hleft, hall⟩ :=
      ih hclean fun call' hcall => h call' (List.mem_cons_of_mem call hcall)
    refine ⟨k'', s :: ss, ?_, hleft, .cons hemitted hall⟩
    rw [List.map_cons, KrnlVadd.runs, hrun]
    dsimp only [Option.bind_eq_bind, Option.bind_some]
    rw [hruns]
    rfl

/-- In every sequence of runs on one instance every run that has records leaves one file, with the
records of the reference, and nothing on the streams. A run without records leaves no file. -/
theorem initial_runs {calls : List (Call × (Fin 4 → List Entry))}
    (h : ∀ call ∈ calls, call.1.Sends call.2) :
    ∃ k ss, KrnlVadd.initial.runs (calls.map Prod.fst) = some (k, ss) ∧ k.Clean ∧ List.Forall₂
      (fun call s => Emitted (if call.1.kvSum % 2 ^ 32 = 0 then 0 else 1) call.1 call.2 s) calls ss :=
  runs_spec clean_initial h

/-! ## Two runs -/

open OnChipArrays (slicesOf windowOf)

theorem carries_slicesOf (hfits : ∀ e ∈ es, Fits e) : Carries es (slicesOf es) := by
  induction es with
  | nil => trivial
  | cons e es ih =>
    have hvalue : e.value.length ≤ 1024 := (hfits e List.mem_cons_self).2
    have hV : VALUE_LENGTH = 1024 := rfl
    have hlen : (windowOf e).length = 1024 := by
      rw [windowOf, List.length_append, List.length_replicate, hV]
      omega
    refine ⟨?_, ?_, ?_, ih fun e' he' => hfits e' (List.mem_cons_of_mem e he')⟩
    · rw [List.length_take, hlen]
      rfl
    · rw [List.length_drop, hlen]
    · rw [List.take_append_drop, windowOf, List.take_left]

/-- A call with these records on its ports that keeps the newest versions. -/
def sending (runs : Fin 4 → List Entry) : Call where
  ports := fun i => ⟨signalMark :: (runs i).map keyMeta ++ [maxMark], slicesOf (runs i)⟩
  kvSum := total runs
  mode := 2
  sstBytes := 2 ^ 20
  bram := fun _ => 0
  sst := fun _ => 0
  index := fun _ => 0

def version (user seq : UInt8) (value : Bytes) : Entry :=
  ⟨List.replicate 23 97 ++ [user, 1, seq, 0, 0, 0, 0, 0, 0], value⟩

/-- A record, an older version of it and another record. -/
def firstRuns (i : Fin 4) : List Entry :=
  [[version 98 2 [7]], [version 98 1 [8], version 99 1 []]].getD i.val []

def secondRuns (i : Fin 4) : List Entry := [[], [], [version 97 3 [9]]].getD i.val []

theorem sends_sending (hfits : ∀ i, ∀ e ∈ runs i, e.key.length = KEY_LENGTH ∧
      e.value.length ≤ VALUE_LENGTH)
    (hfooter : ∀ i, ∀ e ∈ runs i, extractInternalKeyFooter e.key ≠ 0)
    (hsorted : ∀ i, (runs i).Pairwise fun a b => internalCompare .bytewise a.key b.key = .lt)
    (hapart : ∀ i j, i ≠ j → ∀ a ∈ runs i, ∀ b ∈ runs j, a.key ≠ b.key)
    (hcount : ∑ i, (runs i).length < 2 ^ 32) : (sending runs).Sends runs where
  emits := fun i => ⟨rfl, carries_slicesOf (hfits i)⟩
  kvSum := by
    rw [Fin.sum_univ_four] at hcount ⊢
    exact Nat.mod_eq_of_lt hcount
  fits := hfits
  footer := hfooter
  sorted := hsorted
  apart := hapart

/-- What the host is told about the files of some runs, and whether a block was too large. -/
def report (r : Option (KrnlVadd × List Encoder)) : Option (List (Bool × List ℕ)) :=
  r.map fun r => r.2.map fun s => (s.overflow, s.closed.map OutputFile.topIndexBlockIndex)

theorem fitsOneFile_of_report {r : Option (KrnlVadd × List Encoder)} {k : KrnlVadd} {s : Encoder}
    {ss ss' : List Encoder} {c : Call} (hroom : 0 < c.maxFileSize) (hr : r = some (k, ss ++ s :: ss'))
    {told : List (Bool × List ℕ)} (htold : report r = some told)
    (hall : ∀ x ∈ told, x.1 = false ∧ x.2.length ≤ 1 ∧ ∀ n ∈ x.2, n ≤ indexPart) :
    s.overflow = false ∧ FitsOneFile c s := by
  rw [hr, report, Option.map_some, Option.some_inj] at htold
  obtain ⟨hoverflow, hone, hindex⟩ := hall (s.overflow, s.closed.map OutputFile.topIndexBlockIndex) (by
    rw [← htold]
    exact List.mem_map_of_mem (List.mem_append_right _ List.mem_cons_self))
  rw [List.length_map] at hone
  exact ⟨hoverflow, hroom, hone, fun f hf => hindex _ (List.mem_map_of_mem hf)⟩

theorem initial_runs_two : ∃ k first second,
    KrnlVadd.initial.runs [sending firstRuns, sending secondRuns] = some (k, [first, second]) ∧
      k.Clean ∧ first.closed.length = 1 ∧ second.closed.length = 1 ∧
      (∃ written, Reference false firstRuns written ∧ WellFormedFiles (2 ^ 18) first written) ∧
      ∃ written, Reference false secondRuns written ∧ WellFormedFiles (2 ^ 18) second written := by
  have hsends : ∀ call ∈ [(sending firstRuns, firstRuns), (sending secondRuns, secondRuns)],
      call.1.Sends call.2 := by
    rw [List.forall_mem_cons, List.forall_mem_singleton]
    constructor
    · exact sends_sending (by decide +kernel) (by decide +kernel) (by decide +kernel)
        (by decide +kernel) (by decide +kernel)
    · exact sends_sending (by decide +kernel) (by decide +kernel) (by decide +kernel)
        (by decide +kernel) (by decide +kernel)
  obtain ⟨k, ss, hruns, hclean, hall⟩ := initial_runs hsends
  have hreport : report (KrnlVadd.initial.runs [sending firstRuns, sending secondRuns]) =
      some [(false, [50]), (false, [50])] := by decide +kernel
  obtain ⟨first, ss', hfirst, hrest, rfl⟩ := List.forall₂_cons_left_iff.mp hall
  obtain ⟨second, ss'', hsecond, hnil, rfl⟩ := List.forall₂_cons_left_iff.mp hrest
  obtain rfl := List.forall₂_nil_left_iff.mp hnil
  have htold : ∀ x ∈ [(false, [50]), (false, [50])],
      x.1 = false ∧ x.2.length ≤ 1 ∧ ∀ n ∈ x.2, n ≤ indexPart := by decide +kernel
  obtain ⟨hoverflow, hfits⟩ := @fitsOneFile_of_report _ k first [] [second] (sending firstRuns)
    (by decide) hruns _ hreport htold
  obtain ⟨hoverflow', hfits'⟩ := @fitsOneFile_of_report _ k second [first] [] (sending secondRuns)
    (by decide) hruns _ hreport htold
  obtain ⟨hone, hwritten⟩ := hfirst hoverflow hfits
  obtain ⟨hone', hwritten'⟩ := hsecond hoverflow' hfits'
  exact ⟨k, first, second, hruns, hclean, hone, hone', hwritten, hwritten'⟩

/-- A run without records. -/
theorem initial_runs_fails : ¬ ∀ calls : List (Call × (Fin 4 → List Entry)),
    (∀ call ∈ calls, call.1.Sends call.2) →
      ∃ k ss, KrnlVadd.initial.runs (calls.map Prod.fst) = some (k, ss) ∧ k.Clean ∧
        List.Forall₂ (fun call s => Emitted 1 call.1 call.2 s) calls ss := by
  intro h
  have hsends : (sending fun _ => []).Sends fun _ => [] :=
    sends_sending (by decide) (by decide) (by decide) (by decide) (by decide)
  obtain ⟨k, ss, hruns, -, hall⟩ := h [(sending fun _ => [], fun _ => [])]
    (List.forall_mem_singleton.mpr hsends)
  have hreport : report (KrnlVadd.initial.runs [sending fun _ => []]) = some [(false, [])] := by
    decide +kernel
  obtain ⟨s, ss', hemitted, hnil, rfl⟩ := List.forall₂_cons_left_iff.mp hall
  obtain rfl := List.forall₂_nil_left_iff.mp hnil
  obtain ⟨hoverflow, hfits⟩ := @fitsOneFile_of_report _ k s [] [] (sending fun _ => [])
    (by decide) hruns _ hreport (by decide)
  have hone := (hemitted hoverflow hfits).1
  have hruns' : KrnlVadd.initial.runs [sending fun _ => []] = some (k, [s]) := hruns
  rw [hruns', report, Option.map_some, Option.some_inj, List.map_singleton, List.singleton_inj,
    Prod.mk.injEq, List.map_eq_nil_iff] at hreport
  rw [hreport.2] at hone
  cases hone

end ZeroFlush.KernelRuns
