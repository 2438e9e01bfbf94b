import ZeroFlush.DeviceFiles
import ZeroFlush.KernelRuns
import ZeroFlush.NewestElements
import ZeroFlush.PortReads
import ZeroFlush.SealedTables

/-! # Compactions on the device

The host stages new records, the kernel merges them with the file it has written before, and the
host seals the output: the file of the next compaction. -/
namespace ZeroFlush.DeviceCompactions
open FixedWidthCodec ByteMemory PrefixCompression DeviceStreams SortKeys SourceMerges MergeTask
  DeviceEncoder EncodedTables EncoderRuns KernelRuns CsdSlots FrameDecoder PortReads SealedTables
  NewestElements
open SstDecoder (Fits decoderSst)
open BlockTables (DataBlock)
open DeviceFiles.CsdWorld (kMaxMergeInputBytes)

variable {es all written : List Entry} {runs : Fin 4 → List Entry} {c : Call} {k : KrnlVadd}

theorem recordsSize_le_of_sublist {es' : List Entry} (h : es.Sublist es') :
    recordsSize es ≤ recordsSize es' := by
  induction h with
  | slnil => exact le_refl _
  | cons e _ ih =>
    rw [← List.singleton_append, recordsSize_append]
    exact ih.trans (Nat.le_add_left _ _)
  | cons_cons e _ ih =>
    rw [← List.singleton_append, ← List.singleton_append, recordsSize_append, recordsSize_append]
    exact Nat.add_le_add_left ih _

theorem recordsSize_le_of_subset (hnodup : es.Nodup) (hsub : es ⊆ all) :
    recordsSize es ≤ recordsSize all := by
  obtain ⟨l, hperm, hl⟩ := List.subperm_of_subset hnodup hsub
  have heq : recordsSize l = recordsSize es := (hperm.map _).sum_eq
  exact heq ▸ recordsSize_le_of_sublist hl

/-- A run over some records writes those of the reference; if it leaves one file, they are in it. -/
theorem run_finished (hk : k.Clean) (h : c.Sends runs) {i : Fin 4} (hne : runs i ≠ [])
    (hall : ∀ i, runs i ⊆ all) (hsize : recordsSize all < 2 ^ 35) :
    ∃ k' s written, k.run c = some (k', s) ∧ k'.Clean ∧
      Reference c.keepAllVersions runs written ∧ written ≠ [] ∧
      (s.closed.length = 1 → ∃ f blocks indexBody restarts,
        Finished s f blocks indexBody restarts ∧ blocks.flatMap DataBlock.entries = written) := by
  obtain ⟨merge, km', taken, hmerged, htask, hkm⟩ := hk.mergeTask h
  obtain ⟨value, hfeeds, hvalue⟩ := hk.feeds h hmerged
  have hmem : ∀ e, e ∈ taken.map Prod.snd ↔ ∃ i, e ∈ runs i := fun e => hmerged.mem_iff
  have hfits : ∀ e ∈ taken.map Prod.snd, Fits e := by
    intro e he
    obtain ⟨i, hi⟩ := (hmem e).mp he
    exact h.fits i e hi
  have hsome : taken.map Prod.snd ≠ [] := by
    obtain ⟨e, he⟩ := List.exists_mem_of_ne_nil _ hne
    exact List.ne_nil_of_mem ((hmem e).mpr ⟨i, he⟩)
  have hsublist := keptFrom_sublist c.keepAllVersions ⟨[], 0⟩ (taken.map Prod.snd)
  have hdiffer : (taken.map Prod.snd).Pairwise fun e e' => e.key ≠ e'.key := by
    apply hmerged.pairwise.imp
    intro a b hlt heq
    rw [heq] at hlt
    exact lt_irrefl _ hlt
  have hnodup : (taken.map Prod.snd).Nodup := hdiffer.imp fun hab heq => hab (congrArg Entry.key heq)
  have hbound : recordsSize (keptFrom c.keepAllVersions ⟨[], 0⟩ (taken.map Prod.snd)) < 2 ^ 35 := by
    apply lt_of_le_of_lt (recordsSize_le_of_sublist hsublist)
    apply lt_of_le_of_lt (recordsSize_le_of_subset hnodup _) hsize
    intro e he
    obtain ⟨i, hi⟩ := (hmem e).mp he
    exact hall i hi
  obtain ⟨s, hrun, hleft⟩ := encoder_spec hfeeds rfl rfl hsome
    (fun e he => hfits e (hsublist.subset he)) (hdiffer.sublist hsublist) hbound c.maxFileSize
    c.bram c.sst c.index
  have hcount : (taken.map Prod.snd).length = c.kvSum % 2 ^ 32 := by
    rw [List.length_map, hmerged.length_eq, h.kvSum]
  rw [hcount] at hrun
  refine ⟨⟨merge, km', [], [], value⟩, s, _, ?_, ⟨hkm, rfl, rfl, hvalue⟩,
    reference_keptFrom (fun e he => (hfits e he).1) hmerged.pairwise hmem,
    keptFrom_ne_nil _ hsome, ?_⟩
  · rw [KrnlVadd.run]
    dsimp only [Option.bind_eq_bind]
    rw [htask, Option.bind_some]
    dsimp only
    rw [hrun]
    rfl
  · intro hone
    rcases hleft with hfinished | hmore
    · exact hfinished
    · omega

/-! ## The slots of a compaction -/

/-- The new records, and behind them the file written before. -/
def slotsOf (slotA : ZfCsdSlot) (base : Option Bytes) (i : Fin 4) : ZfCsdSlot :=
  (slotA :: (base.map fun file => buildCsdSlotB [file]).toList).getD i.val {}

/-- The words of the host for a compaction that keeps the newest versions, over these buffers. -/
def compaction (slotA : ZfCsdSlot) (base : Option Bytes) (bufs : Fin 4 → Memory)
    (kvSum sstBytes : ℕ) (bram sst index : Memory) : Call where
  ports := fun i => (decodePort (bufs i) (slotsOf slotA base i)).2
  kvSum := kvSum
  mode := 2
  sstBytes := sstBytes
  bram := bram
  sst := sst
  index := index

/-- The records of the file; without a file there are none. -/
def BaseReads : Option Bytes → List Entry → Prop
  | none, es => es = []
  | some file, es => ReadsAs file es

/-- What the four ports send. -/
def portRuns (staged es : List Entry) (i : Fin 4) : List Entry :=
  if i.val = 0 then staged else if i.val = 1 then es else []

variable {part gen : ℕ} {keys values : List Bytes} {slot : ZfCsdSlot × ℕ} {base : Option Bytes}
  {bufs : Fin 4 → Memory} {buf : Memory}

theorem length_records (hlen : keys.length = values.length) :
    (records keys values).length = keys.length := by
  rw [← List.length_map (f := Entry.key), map_key_records hlen]

theorem key_mem_of_mem_records {e : Entry} (hlen : keys.length = values.length)
    (he : e ∈ records keys values) : e.key ∈ keys := by
  rw [← map_key_records hlen]
  exact List.mem_map_of_mem he

theorem emits_empty (buf : Memory) : Emits (decodePort buf {}).2 [] := ⟨rfl, trivial⟩

theorem emits_slotA (h : buildCsdSlotAFromSorted part gen keys values = some slot)
    (hbuf : Holds buf 0 slot.1.bytes) : Emits (decodePort buf slot.1).2 (records keys values) := by
  have hmax : kCsdMaxStagedBytes = 67108864 := rfl
  obtain ⟨hlen, hne, hfits, hsize⟩ := records_of_slotA h
  obtain ⟨hkv, hfile, -⟩ := slotA_eq h
  have hframes := length_frames (fun r hr => (hfits ⟨r.1, r.2⟩ (List.mem_map_of_mem hr)).1) part
  rw [← records] at hframes
  have hmany := length_le_recordsSize (records keys values)
  rw [length_records hlen] at hmany
  have hkind : slot.1.kind ≠ 1 := by
    rw [kind_slotA h]
    exact Nat.zero_ne_one
  rw [decodePort, if_neg hkind, Nat.mod_eq_of_lt (by omega), Nat.mod_eq_of_lt (by omega)]
  exact (slotA_faithful h).2.2 buf hbuf

theorem emits_base {file : Bytes} (h : BaseReads (some file) es)
    (hsmall : file.length ≤ kMaxMergeInputBytes) (hbuf : Holds buf 0 (buildCsdSlotB [file]).bytes) :
    Emits (decodePort buf (buildCsdSlotB [file])).2 es := by
  have hmax : kCsdMaxChainFiles = 64 := rfl
  obtain ⟨hsize, -⟩ := @DeviceChains.buildCsdSlotB_of_files [file] (List.cons_ne_nil _ _)
    (by rw [List.length_singleton]; omega)
  rw [List.length_singleton, List.flatten_singleton] at hsize
  have hkind : (buildCsdSlotB [file]).kind = 1 := rfl
  have hmerge : kMaxMergeInputBytes = 33554432 := rfl
  rw [decodePort, if_pos hkind, Nat.mod_eq_of_lt (by omega)]
  exact h buf hbuf

theorem emits_ports (h : buildCsdSlotAFromSorted part gen keys values = some slot)
    (hbase : BaseReads base es)
    (hsmall : ∀ file, base = some file → file.length ≤ kMaxMergeInputBytes)
    (hbufs : ∀ i, Holds (bufs i) 0 (slotsOf slot.1 base i).bytes) (i : Fin 4) :
    Emits (decodePort (bufs i) (slotsOf slot.1 base i)).2
      (portRuns (records keys values) es i) := by
  have hbuf := hbufs i
  obtain ⟨i, hi⟩ := i
  match i, hi with
  | 0, _ => exact emits_slotA h hbuf
  | 1, _ =>
    cases base with
    | none =>
      obtain rfl : es = [] := hbase
      exact emits_empty _
    | some file => exact emits_base hbase (hsmall file rfl) hbuf
  | 2, _ =>
    cases base with
    | none => exact emits_empty _
    | some file => exact emits_empty _
  | 3, _ =>
    cases base with
    | none => exact emits_empty _
    | some file => exact emits_empty _

/-! ## One compaction -/

variable {hist : List Entry} {kvSum : ℕ}
  {properties : ZfSealOptions → ZfSealManifest → Bytes} {o : ZfSealOptions}

/-- The newest records of their user keys. -/
def Latest (hist : List Entry) : Entry → Prop :=
  NewestOf (fun e => extractUserKey e.key) (fun e => extractInternalKeyFooter e.key) hist

/-- Records in order, with the newest of all that have been staged and no others. -/
structure Holding (hist es : List Entry) : Prop where
  sorted : es.Pairwise fun a b => internalCompare .bytewise a.key b.key = .lt
  mem : ∀ e, e ∈ es ↔ Latest hist e

/-- What the host makes sure of before it calls the device: the new records are in order, none of
them has been staged before, and together with the file they are within the budget. -/
structure Stages (keys values : List Bytes) (kvSum : ℕ) (base : Option Bytes) (hist : List Entry) :
    Prop where
  sorted : keys.Pairwise fun a b => internalCompare .bytewise a b = .lt
  footer : ∀ key ∈ keys, extractInternalKeyFooter key ≠ 0
  fresh : ∀ key ∈ keys, ∀ e ∈ hist, e.key ≠ key
  count : ∀ es, BaseReads base es → kvSum % 2 ^ 32 = keys.length + es.length
  size : ∀ es, BaseReads base es → recordsSize (records keys values ++ es) ≤ kCsdMaxStagedBytes
  input : ∀ file, base = some file → file.length ≤ kMaxMergeInputBytes

theorem mem_portRuns {staged : List Entry} {e : Entry} :
    (∃ i, e ∈ portRuns staged es i) ↔ e ∈ staged ++ es := by
  constructor
  · rintro ⟨i, he⟩
    rw [portRuns] at he
    split at he
    · exact List.mem_append_left _ he
    · split at he
      · exact List.mem_append_right _ he
      · cases he
  · intro he
    rcases List.mem_append.mp he with hs | hb
    · exact ⟨⟨0, by decide⟩, hs⟩
    · exact ⟨⟨1, by decide⟩, hb⟩

theorem sends_compaction (hslot : buildCsdSlotAFromSorted part gen keys values = some slot)
    (hstages : Stages keys values kvSum base hist) (hbase : BaseReads base es)
    (hes : Holding hist es) (hhist : ∀ e ∈ hist, Fits e ∧ extractInternalKeyFooter e.key ≠ 0)
    (hbufs : ∀ i, Holds (bufs i) 0 (slotsOf slot.1 base i).bytes) (sstBytes : ℕ)
    (bram sst index : Memory) :
    (compaction slot.1 base bufs kvSum sstBytes bram sst index).Sends
      (portRuns (records keys values) es) := by
  obtain ⟨hlen, -, hfits, -⟩ := records_of_slotA hslot
  have hkeys : ∀ e ∈ records keys values, e.key ∈ keys := fun e => key_mem_of_mem_records hlen
  have hold : ∀ e ∈ es, e ∈ hist := fun e he => ((hes.mem e).mp he).1
  have hport : ∀ i, ∀ e ∈ portRuns (records keys values) es i,
      e ∈ records keys values ∨ e ∈ es := fun i e he =>
    List.mem_append.mp (mem_portRuns.mp ⟨i, he⟩)
  constructor
  case emits => exact emits_ports hslot hbase hstages.input hbufs
  case kvSum =>
    rw [Fin.sum_univ_four]
    exact (hstages.count es hbase).trans (by rw [← length_records hlen]; rfl)
  case fits =>
    intro i e he
    rcases hport i e he with hs | hb
    · exact hfits e hs
    · exact (hhist e (hold e hb)).1
  case footer =>
    intro i e he
    rcases hport i e he with hs | hb
    · exact hstages.footer _ (hkeys e hs)
    · exact (hhist e (hold e hb)).2
  case sorted =>
    intro i
    rw [portRuns]
    split
    · have hsorted := hstages.sorted
      rwa [← map_key_records hlen, List.pairwise_map] at hsorted
    · split
      · exact hes.sorted
      · exact List.Pairwise.nil
  case apart =>
    have hapart : ∀ a ∈ records keys values, ∀ b ∈ es, b.key ≠ a.key := fun a ha b hb =>
      hstages.fresh _ (hkeys a ha) b (hold b hb)
    intro i j hij a ha b hb
    rw [portRuns] at ha hb
    have hne : i.val ≠ j.val := fun heq => hij (Fin.ext heq)
    split at ha
    · rw [if_neg (by omega)] at hb
      split at hb
      · exact (hapart a ha b hb).symm
      · cases hb
    · split at ha
      · split at hb
        · exact hapart b hb a ha
        · rw [if_neg (by omega)] at hb
          cases hb
      · cases ha

/-- A compaction answers, and leaves clean streams. If it leaves one file, the host can seal it, and
the device will read from it the newest of all records that have been staged. -/
theorem compaction_spec (hprops : ∀ o m, (properties o m).length < 2 ^ 31)
    (hgate : zfSealLockedConfigOk o = .ok ()) (hk : k.Clean)
    (hslot : buildCsdSlotAFromSorted part gen keys values = some slot)
    (hstages : Stages keys values kvSum base hist) (hbase : BaseReads base es)
    (hes : Holding hist es) (hhist : ∀ e ∈ hist, Fits e ∧ extractInternalKeyFooter e.key ≠ 0)
    (hbufs : ∀ i, Holds (bufs i) 0 (slotsOf slot.1 base i).bytes) (sstBytes : ℕ)
    (bram sst index : Memory) :
    ∃ k' s written, k.run (compaction slot.1 base bufs kvSum sstBytes bram sst index) = some (k', s) ∧
      k'.Clean ∧ Holding (hist ++ records keys values) written ∧ (s.closed.length = 1 →
        ∃ file, SealsTo properties o (readBack s) file ∧ ReadsAs file written) := by
  have hmax : kCsdMaxStagedBytes = 67108864 := rfl
  obtain ⟨hlen, hne, hfits, -⟩ := records_of_slotA hslot
  have hsends := sends_compaction hslot hstages hbase hes hhist hbufs sstBytes bram sst index
  have hsize := hstages.size es hbase
  have hstaged : portRuns (records keys values) es ⟨0, by decide⟩ ≠ [] := by
    intro hnil
    have hkeys := map_key_records hlen
    rw [show records keys values = [] from hnil] at hkeys
    exact hne hkeys.symm
  obtain ⟨k', s, written, hrun, hclean, hreference, hwritten, hone⟩ := run_finished hk hsends hstaged
    (fun i e he => mem_portRuns.mp ⟨i, he⟩) (by omega)
  have hholding : Holding (hist ++ records keys values) written := by
    refine ⟨hreference.sorted, ?_⟩
    intro e
    have hnewest : e ∈ written ↔ Latest (records keys values ++ es) e := by
      rw [hreference.mem e, mem_portRuns]
      apply and_congr_right
      intro _
      constructor
      · rintro (hkeep | hnew)
        · cases hkeep
        · intro e' he' huser
          obtain ⟨i, hi⟩ := mem_portRuns.mpr he'
          exact hnew i e' hi huser
      · intro hnew
        exact .inr fun i e' he' huser => hnew e' (mem_portRuns.mp ⟨i, he'⟩) huser
    rw [hnewest]
    exact newestOf_append hes.mem
  refine ⟨k', s, written, hrun, hclean, hholding, ?_⟩
  intro hfile
  obtain ⟨f, blocks, indexBody, restarts, hfinished, hblocks⟩ := hone hfile
  have hmem : ∀ e ∈ written, e ∈ records keys values ++ es := fun e he =>
    mem_portRuns.mp ((hreference.mem e).mp he).1
  have hnodup : written.Nodup := by
    apply hreference.sorted.imp
    intro a b hlt heq
    exact ne_of_internalCompare hlt (congrArg Entry.key heq)
  apply readsAs_of_finished hprops hgate hfinished hwritten hblocks
  · intro e he
    rcases List.mem_append.mp (hmem e he) with hs | hb
    · exact hfits e hs
    · exact (hhist e ((hes.mem e).mp hb).1).1
  · exact (recordsSize_le_of_subset hnodup hmem).trans hsize

theorem sealsTo_unique {out : ZfCsdOutput} {file file' : Bytes}
    (h : SealsTo properties o out file) (h' : SealsTo properties o out file') : file = file' := by
  obtain ⟨m, hm, hseal⟩ := h
  obtain ⟨m', hm', hseal'⟩ := h'
  cases hm.symm.trans hm'
  cases hseal.symm.trans hseal'
  rfl

/-! ## Compactions one after the other -/

/-- The instance, its file, and all records that have been staged. -/
inductive Compacted (properties : ZfSealOptions → ZfSealManifest → Bytes) (o : ZfSealOptions) :
    KrnlVadd → Option Bytes → List Entry → Prop
  | start : Compacted properties o .initial none []
  | compact {k k' : KrnlVadd} {base : Option Bytes} {hist : List Entry} {part gen : ℕ}
      {keys values : List Bytes} {slot : ZfCsdSlot × ℕ} {bufs : Fin 4 → Memory} {kvSum sstBytes : ℕ}
      {bram sst index : Memory} {s : Encoder} {file : Bytes} (h : Compacted properties o k base hist)
      (hslot : buildCsdSlotAFromSorted part gen keys values = some slot)
      (hstages : Stages keys values kvSum base hist)
      (hbufs : ∀ i, Holds (bufs i) 0 (slotsOf slot.1 base i).bytes)
      (hrun : k.run (compaction slot.1 base bufs kvSum sstBytes bram sst index) = some (k', s))
      (hone : s.closed.length = 1) (hseal : SealsTo properties o (readBack s) file) :
      Compacted properties o k' (some file) (hist ++ records keys values)

/-- One record, and the buffers of its compaction. -/
def stagedOne : Option (ZfCsdSlot × ℕ) := buildCsdSlotAFromSorted 0 1 [OneRecord.key] [[7]]

def buffersOf (slotA : ZfCsdSlot) (i : Fin 4) : Memory :=
  store (fun _ => 0) 0 (slotsOf slotA none i).bytes

end ZeroFlush.DeviceCompactions
