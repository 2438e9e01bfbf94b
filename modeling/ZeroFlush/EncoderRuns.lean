import ZeroFlush.EncodedTables

/-! # Runs of the device writer

While its first file is open the writer has the whole words of the finished blocks in the output and
the rest in its buffer. A run of records that all go to this file leaves the data and the index of a
table of exactly these records. -/
namespace ZeroFlush.EncoderRuns
open FixedWidthCodec ByteMemory Varints PrefixCompression BlockTables DeviceStreams DeviceWords
  DeviceEncoder EncodedTables
open SstDecoder (Fits)

variable {m bram sst : Memory} {a n : ℕ} {bs D w : Bytes}

/-! ## Pages -/

/-- The whole words of `D` are in the output; the bytes of its open word are in the buffer, and `w`
behind them. -/
structure Paged (sst bram : Memory) (D w : Bytes) : Prop where
  words : Holds sst 0 (D.take (16 * (D.length / 16)))
  rest : Holds bram 0 (D.drop (16 * (D.length / 16)) ++ w)

theorem take_isPrefix_load (h : Holds m a bs) (n : ℕ) : bs.take n <+: load m a n := by
  have hbs : load m a bs.length = bs := h
  rcases Nat.le_total n bs.length with hle | hle
  · have htake : bs.take n = load m a n := by
      rw [← hbs, take_load, Nat.min_eq_left hle]
    exact htake ▸ List.prefix_refl _
  · obtain ⟨k, rfl⟩ := Nat.exists_eq_add_of_le hle
    rw [List.take_of_length_le hle, load_add, hbs]
    exact List.prefix_append _ _

theorem length_open (D : Bytes) : (D.drop (16 * (D.length / 16))).length = D.length % 16 := by
  rw [List.length_drop]
  omega

/-- Words of the buffer go behind the words that are out. -/
theorem Paged.holds_ap128 (h : Paged sst bram D w) (n : ℕ) :
    Holds (ap128to128Encoder bram sst D.length n) 0
      ((D ++ w).take (16 * (D.length / 16) + 16 * (n / 16))) := by
  have hle : 16 * (D.length / 16) ≤ D.length := by omega
  have hlen : (D.take (16 * (D.length / 16))).length = 16 * (D.length / 16) := by
    rw [List.length_take, Nat.min_eq_left hle]
  have hsplit : (D ++ w).take (16 * (D.length / 16) + 16 * (n / 16)) =
      D.take (16 * (D.length / 16)) ++
        (D.drop (16 * (D.length / 16)) ++ w).take (16 * (n / 16)) := by
    rw [List.take_add, List.take_append_of_le_length hle, List.drop_append_of_le_length hle]
  rw [hsplit, holds_append, hlen, Nat.zero_add, ap128to128Encoder]
  constructor
  · exact h.words.store_of_le (by rw [hlen, Nat.zero_add])
  · exact (holds_store _ _ _).initial (take_isPrefix_load h.rest _)

/-- The open word of the next block comes to the front of the buffer. -/
theorem Paged.next (h : Paged sst bram D w) :
    Paged (ap128to128Encoder bram sst D.length (w.length + D.length % 16))
      (store bram 0 (load bram (16 * ((D.length % 16 + w.length) / 16)) 16)) (D ++ w) [] := by
  have hopen := length_open D
  have hwords : 16 * ((D ++ w).length / 16) =
      16 * (D.length / 16) + 16 * ((w.length + D.length % 16) / 16) := by
    rw [List.length_append]
    omega
  constructor
  · rw [hwords]
    exact h.holds_ap128 _
  · have hsplit : (D ++ w).drop (16 * ((D ++ w).length / 16)) =
        (D.drop (16 * (D.length / 16)) ++ w).drop (16 * ((D.length % 16 + w.length) / 16)) := by
      rw [hwords, Nat.add_comm w.length, ← List.drop_drop,
        List.drop_append_of_le_length (by omega)]
    have hrest := h.rest
    have hat : (D.drop (16 * (D.length / 16)) ++ w).length = D.length % 16 + w.length := by
      rw [List.length_append, hopen]
    generalize D.drop (16 * (D.length / 16)) ++ w = xs at hsplit hrest hat
    have hdrop : Holds bram (16 * (xs.length / 16)) (xs.drop (16 * (xs.length / 16))) := by
      have hxs := hrest
      rw [← List.take_append_drop (16 * (xs.length / 16)) xs, holds_append, List.length_take,
        Nat.min_eq_left (by omega), Nat.zero_add] at hxs
      exact hxs.2
    have hfirst := take_isPrefix_load hdrop 16
    rw [List.take_of_length_le (by rw [List.length_drop]; omega)] at hfirst
    rw [hsplit, ← hat, List.append_nil]
    exact (holds_store bram 0 _).initial hfirst

/-- With the open word everything is out. -/
theorem Paged.last (h : Paged sst bram D w) (hn : D.length % 16 + w.length ≤ 16 * (n / 16)) :
    Holds (ap128to128Encoder bram sst D.length n) 0 (D ++ w) := by
  have hall := h.holds_ap128 n
  rwa [List.take_of_length_le (by rw [List.length_append]; omega)] at hall

/-! ## The open file -/

variable {s : Encoder} {blocks : List DataBlock} {cur : List Entry} {body indexBody : Bytes}

/-- In the index block there is a restart for every 15 entries. -/
structure Spaced (size restarts entries : ℕ) : Prop where
  le : 15 * restarts + size ≤ entries + 16
  full : size % restart = 0 → 15 * restarts ≤ entries

theorem Spaced.next {size restarts entries : ℕ} (h : Spaced size restarts entries) :
    Spaced ((if size % restart = 0 then 1 else size) + 1)
      (if size % restart = 0 then restarts + 1 else restarts) (entries + 1) := by
  have hrestart : restart = 16 := rfl
  obtain ⟨hle, hfull⟩ := h
  split
  · next hzero =>
    have hrestarts := hfull hzero
    exact ⟨by omega, fun htwo => absurd htwo (by decide)⟩
  · refine ⟨by omega, ?_⟩
    intro hnext
    rw [hrestart] at hnext
    omega

/-- The first file is open: these blocks are finished, and the index has an entry for each. -/
structure Filed (s : Encoder) (blocks : List DataBlock) (indexBody : Bytes) : Prop where
  closed : s.closed = []
  sstOffset : s.sstOffset = 0
  indexBlockOffset : s.indexBlockOffset = 0
  sstIndex : s.sstIndex = (dataArea blocks).length
  finished : ∀ b ∈ blocks, b.WellFormed KEY_LENGTH
  index : Compressed [] (indexEntries 0 blocks) indexBody
  written : Holds s.index 0 indexBody
  indexBlockIndex : s.indexBlockIndex = indexBody.length
  indexRestarts : s.indexRestarts.length ≤ blocks.length
  numDataBlocks : s.pps.numDataBlocks = blocks.length
  dataSize : s.pps.dataSize = (dataArea blocks).length
  spaced : Spaced s.indexEntrySize s.indexRestarts.length blocks.length

/-- Behind the finished blocks stand the entries of the open one, with these bytes. -/
structure Open (s : Encoder) (blocks : List DataBlock) (cur : List Entry) (body indexBody : Bytes) :
    Prop extends Filed s blocks indexBody where
  paged : Paged s.sst s.bram (dataArea blocks) body
  remain : s.prePageChangeRemain = s.sstIndex % 16
  readIndex : s.bramReadIndex = s.sstIndex % 16 + body.length
  blockIndex : s.dataBlockIndex = body.length
  data : Compressed [] cur body
  preKey : cur ≠ [] → s.preKey.c = finalKey [] cur
  keys : ∀ e ∈ cur, Fits e
  dataRestarts : cur ≠ [] → s.dataRestarts.length ≤ cur.length
  bounded : body.length ≤ 4095 + 1060
  entries : s.pps.entries = (blocks.flatMap DataBlock.entries ++ cur).length
  full : 4096 * blocks.length ≤ (dataArea blocks).length

theorem filed_start (bram sst index : Memory) : Filed (.start bram sst index) [] [] where
  closed := rfl
  sstOffset := rfl
  indexBlockOffset := rfl
  sstIndex := rfl
  finished := by simp
  index := Compressed.nil _
  written := rfl
  indexBlockIndex := rfl
  indexRestarts := le_rfl
  numDataBlocks := rfl
  dataSize := rfl
  spaced := ⟨Nat.zero_le _, fun _ => Nat.zero_le _⟩

theorem open_start (bram sst index : Memory) : Open (.start bram sst index) [] [] [] [] where
  toFiled := filed_start bram sst index
  paged := ⟨rfl, rfl⟩
  remain := rfl
  readIndex := rfl
  blockIndex := rfl
  data := Compressed.nil _
  preKey := fun h => absurd rfl h
  keys := by simp
  dataRestarts := fun h => absurd rfl h
  bounded := Nat.zero_le _
  entries := rfl
  full := le_rfl

theorem Open.cur_eq_nil (h : Open s blocks cur body indexBody) : s.dataBlockIndex = 0 ↔ cur = [] := by
  rw [h.blockIndex]
  have hlen := h.data.length_le
  constructor
  · intro hzero
    exact List.length_eq_zero_iff.mp (by omega)
  · rintro rfl
    rw [h.data.eq_nil, List.length_nil]

/-- The entry of a record takes at most 1060 bytes. -/
theorem length_putEntry_le {e : Entry} (he : Fits e) {shared : ℕ} (hlt : shared < 32) :
    (putEntry shared e).length ≤ 36 + e.value.length := by
  obtain ⟨hkey, hvalue⟩ := he
  have hK : KEY_LENGTH = 32 := rfl
  have hV : VALUE_LENGTH = 1024 := rfl
  have h1 : (putVarint shared).length ≤ 0 + 1 := length_putVarint_le (by omega)
  have h2 : (putVarint (e.key.length - shared)).length ≤ 0 + 1 := length_putVarint_le (by omega)
  have h3 : (putVarint e.value.length).length ≤ 1 + 1 := length_putVarint_le (by omega)
  simp only [putEntry, List.length_append, List.length_drop]
  omega

/-- The preparations for a record: what the entry may share, and the restarts. -/
theorem openEntry_spec (h : Open s blocks cur body indexBody) (km : KeyMeta) :
    (isMaxKey (s.openEntry km).preKey = false →
      cur ≠ [] ∧ (s.openEntry km).preKey.c = finalKey [] cur) ∧
    (s.openEntry km).dataRestarts.length ≤ cur.length + 1 := by
  have hmark : isMaxKey maxKey = true := by decide
  rw [Encoder.openEntry]
  split
  · next hzero =>
    rw [h.cur_eq_nil.mp hzero]
    refine ⟨?_, le_rfl⟩
    intro hmax
    cases hmark.symm.trans hmax
  · next hne =>
    have hcur : cur ≠ [] := mt h.cur_eq_nil.mpr hne
    have hrestarts := h.dataRestarts hcur
    split
    · refine ⟨?_, ?_⟩
      · intro hmax
        cases hmark.symm.trans hmax
      · rw [List.length_append, List.length_singleton]
        exact Nat.succ_le_succ hrestarts
    · exact ⟨fun _ => ⟨hcur, h.preKey hcur⟩, Nat.le_succ_of_le hrestarts⟩

theorem openEntry_eq (s : Encoder) (km : KeyMeta) :
    ∃ smallest restarts size preKey, s.openEntry km =
      { s with
        pps := { s.pps with smallestKey := smallest }
        dataRestarts := restarts
        entrySize := size
        preKey := preKey } := by
  rw [Encoder.openEntry]
  split
  · split
    · exact ⟨km.key, [0], 1, maxKey, rfl⟩
    · exact ⟨s.pps.smallestKey, [0], 1, maxKey, rfl⟩
  · split
    · exact ⟨s.pps.smallestKey, _, _, maxKey, rfl⟩
    · exact ⟨s.pps.smallestKey, s.dataRestarts, _, s.preKey, rfl⟩

/-- What the entry of a record leaves out is the same as in the key before. -/
theorem Open.shared_spec (h : Open s blocks cur body indexBody) {e : Entry} (he : Fits e)
    (hne : cur ≠ [] → finalKey [] cur ≠ e.key) :
    (isMaxKey (s.openEntry (keyMeta e)).preKey = false →
      (s.openEntry (keyMeta e)).preKey.c.length = 32 ∧ (s.openEntry (keyMeta e)).preKey.c ≠ e.key) ∧
    sharedWith (s.openEntry (keyMeta e)).preKey e.key < 32 ∧
    e.key.take (sharedWith (s.openEntry (keyMeta e)).preKey e.key) =
      (finalKey [] cur).take (sharedWith (s.openEntry (keyMeta e)).preKey e.key) := by
  obtain ⟨hprev, -⟩ := openEntry_spec h (keyMeta e)
  generalize (s.openEntry (keyMeta e)).preKey = preKey at hprev ⊢
  have hpre : isMaxKey preKey = false → preKey.c.length = 32 ∧ preKey.c ≠ e.key := by
    intro hmax
    obtain ⟨hcur, hfinal⟩ := hprev hmax
    obtain ⟨e', he', hlast⟩ := exists_finalKey_eq [] hcur
    rw [hfinal]
    exact ⟨hlast ▸ (h.keys e' he').1, hne hcur⟩
  obtain ⟨hlt, hshared⟩ := sharedWith_spec he.1 hpre
  refine ⟨hpre, hlt, ?_⟩
  cases hmax : isMaxKey preKey with
  | true =>
    rw [sharedWith, hmax]
    rfl
  | false =>
    rw [previousKey, hmax, if_neg Bool.false_ne_true, (hprev hmax).2] at hshared
    exact hshared

/-- The record becomes the last entry of the open block. -/
theorem Open.putRecord (h : Open s blocks cur body indexBody) (hroom : body.length < 4096)
    {e : Entry} {window : Bytes} (he : Fits e) (hw : Window e window)
    (hne : cur ≠ [] → finalKey [] cur ≠ e.key) :
    Open (s.putRecord (keyMeta e) window) blocks (cur ++ [e])
      (body ++ putEntry (sharedWith (s.openEntry (keyMeta e)).preKey e.key) e) indexBody := by
  have hV : VALUE_LENGTH = 1024 := rfl
  have hkey : e.key.length = 32 := he.1
  have hvalue := he.2
  obtain ⟨smallest, restarts, size, preKey, heq⟩ := openEntry_eq s (keyMeta e)
  obtain ⟨-, hrestarts⟩ := openEntry_spec h (keyMeta e)
  obtain ⟨hpre, hlt, hcommon⟩ := h.shared_spec he hne
  rw [heq] at hrestarts hpre hlt hcommon
  dsimp only at hrestarts hpre hlt hcommon
  obtain ⟨hagree, hput, hlen⟩ := putKV_spec he hw hpre s.bram s.bramReadIndex
  have hle := length_putEntry_le he hlt
  rw [Encoder.putRecord, heq]
  dsimp only
  generalize sharedWith preKey e.key = shared at hlt hcommon hput hlen hle ⊢
  have hat : s.bramReadIndex = (dataArea blocks).length % 16 + body.length := by
    rw [h.readIndex, h.sstIndex]
  have hrest := h.paged.rest
  have hfront : ((dataArea blocks).drop (16 * ((dataArea blocks).length / 16)) ++ body).length =
      s.bramReadIndex := by
    rw [List.length_append, length_open, hat]
  rw [hlen]
  constructor
  case toFiled =>
    obtain ⟨hclosed, hoffset, hindexoffset, hsst, hfinished, hindex, hwritten, hat, hrestarts, hnum,
      hdata, hspaced⟩ := h.toFiled
    exact ⟨hclosed, hoffset, hindexoffset, hsst, hfinished, hindex, hwritten, hat, hrestarts, hnum,
      hdata, hspaced⟩
  case paged =>
    refine ⟨h.paged.words, ?_⟩
    rw [← List.append_assoc, holds_append, hfront, Nat.zero_add]
    exact ⟨hagree.holds hrest (by rw [hfront, Nat.zero_add]), hput⟩
  case remain => exact h.remain
  case readIndex =>
    have hread := h.readIndex
    rw [List.length_append]
    show s.bramReadIndex + _ = s.sstIndex % 16 + _
    omega
  case blockIndex =>
    rw [List.length_append, ← h.blockIndex]
  case data => exact h.data.concat (hkey ▸ hlt) hcommon
  case preKey =>
    rw [finalKey_append_singleton]
    exact fun _ => rfl
  case keys =>
    intro e' he'
    rcases List.mem_append.mp he' with he' | he'
    · exact h.keys e' he'
    · exact List.mem_singleton.mp he' ▸ he
  case dataRestarts =>
    rw [List.length_append, List.length_singleton]
    exact fun _ => hrestarts
  case bounded =>
    rw [List.length_append]
    omega
  case entries =>
    rw [← List.append_assoc, List.length_append, List.length_singleton, ← h.entries]
  case full => exact h.full

/-! ## Closing a block -/

/-- The open block as it is closed: it stands in the index under its last key. -/
def closedBlock (s : Encoder) (cur : List Entry) (body : Bytes) : DataBlock :=
  ⟨cur, body, s.dataRestarts, s.preKey.c⟩

theorem Open.wellFormed_closedBlock (h : Open s blocks cur body indexBody) (hcur : cur ≠ []) :
    (closedBlock s cur body).WellFormed KEY_LENGTH := by
  have hmax : kMaxBlockEntries = 4096 := rfl
  have hlen := h.data.length_le
  have hbounded := h.bounded
  obtain ⟨e, he, hlast⟩ := exists_finalKey_eq [] hcur
  have hkey : s.preKey.c.length = KEY_LENGTH := by
    rw [h.preKey hcur, hlast]
    exact (h.keys e he).1
  refine ⟨h.data, hcur, h.dataRestarts hcur, ?_, ?_, hkey.le⟩
  · simp only [closedBlock]
    omega
  · simp only [closedBlock, hkey]
    decide

/-- The restarts and the trailer stand behind the entries. -/
theorem written_closedBlock (s : Encoder) (cur : List Entry) (body : Bytes) :
    (closedBlock s cur body).written =
      body ++ (s.dataRestarts.flatMap (putFixed 4) ++ putFixed 4 s.dataRestarts.length ++ trailer) := by
  rw [DataBlock.written, DataBlock.content, putBlock]
  simp only [closedBlock, List.append_assoc]

theorem store_trailer (m : Memory) (a : ℕ) (bs : Bytes) :
    ap32to128Encoder 0 (ap8to128Encoder 0 (store m a bs) (a + bs.length)) (a + bs.length + 1) =
      store m a (bs ++ trailer) := by
  have htrailer : trailer = putFixed 1 0 ++ putFixed 4 0 := rfl
  have hone : (putFixed 1 0).length = 1 := rfl
  have hnext := store_store m a (bs ++ putFixed 1 0) (putFixed 4 0)
  rw [List.length_append, hone, ← Nat.add_assoc] at hnext
  rw [ap32to128Encoder, ap8to128Encoder, store_store, hnext, htrailer, List.append_assoc]

theorem length_restartWords (restarts : List ℕ) :
    (restarts.flatMap (putFixed 4) ++ putFixed 4 restarts.length).length =
      (restarts.length + 1) * 4 := by
  have hlen := length_putBlock [] restarts
  rw [putBlock, List.nil_append, List.length_nil] at hlen
  omega

/-- The buffer with the whole open block. -/
def closedBram (s : Encoder) : Memory :=
  store s.bram s.bramReadIndex
    (s.dataRestarts.flatMap (putFixed 4) ++ putFixed 4 s.dataRestarts.length ++ trailer)

def indexEntry (D : Bytes) (b : DataBlock) : Bytes :=
  putEntry 0 ⟨b.separator, (BlockHandle.mk D.length b.content.length).encodeTo⟩

/-- The state behind a closed block: `D` are the bytes before the block. -/
def afterBlock (tail : ℕ) (s : Encoder) (D indexBody : Bytes) (b : DataBlock) : Encoder :=
  { s with
    indexEntrySize := (if s.indexEntrySize % restart = 0 then 1 else s.indexEntrySize) + 1
    indexRestarts :=
      if s.indexEntrySize % restart = 0 then s.indexRestarts ++ [indexBody.length]
      else s.indexRestarts
    index := store s.index indexBody.length (indexEntry D b)
    indexBlockIndex := indexBody.length + (indexEntry D b).length
    sst := ap128to128Encoder (closedBram s) s.sst D.length
      (b.written.length + D.length % 16 + tail)
    bram := store (closedBram s) 0
      (load (closedBram s) (16 * ((D.length % 16 + b.written.length) / 16)) 16)
    bramReadIndex := D.length % 16 + b.written.length
    sstIndex := D.length + b.written.length
    dataBlockIndex := 0
    sstOffset := 0
    indexBlockOffset := 0
    prePageChangeRemain := D.length % 16
    pps := { s.pps with
      numDataBlocks := s.pps.numDataBlocks + 1
      dataSize := s.pps.dataSize + b.written.length }
    overflow := s.overflow || decide (bramSize < D.length % 16 + b.written.length) }

theorem Open.paged_closedBram (h : Open s blocks cur body indexBody) :
    Paged s.sst (closedBram s) (dataArea blocks) (closedBlock s cur body).written := by
  refine ⟨h.paged.words, ?_⟩
  have hfront : 0 + ((dataArea blocks).drop (16 * ((dataArea blocks).length / 16)) ++
      body).length = s.bramReadIndex := by
    rw [List.length_append, length_open, h.readIndex, h.sstIndex, Nat.zero_add]
  have happend := h.paged.rest.append_store (s.dataRestarts.flatMap (putFixed 4) ++
    putFixed 4 s.dataRestarts.length ++ trailer)
  rw [hfront] at happend
  rw [written_closedBlock, ← List.append_assoc]
  exact happend

theorem Open.closeBlock_eq (h : Open s blocks cur body indexBody) (hcur : cur ≠ [])
    (hsize : (dataArea blocks).length < 2 ^ 35) (tail : ℕ) :
    s.closeBlock tail =
      afterBlock tail s (dataArea blocks) indexBody (closedBlock s cur body) := by
  have hwell := h.wellFormed_closedBlock hcur
  have hmax : kMaxBlockEntries = 4096 := rfl
  have hentries := hwell.entries_lt
  have hrestarts := hwell.restarts_le
  have hbounded := h.bounded
  have hkey : s.preKey.c.length = 32 := by
    obtain ⟨e, he, hlast⟩ := exists_finalKey_eq [] hcur
    rw [h.preKey hcur, hlast]
    exact (h.keys e he).1
  have hcontent : s.dataBlockIndex + (s.dataRestarts.length + 1) * 4 =
      (closedBlock s cur body).content.length := by
    have hlen := length_putBlock body s.dataRestarts
    rw [h.blockIndex, DataBlock.content]
    simp only [closedBlock]
    omega
  have hwritten := length_written (closedBlock s cur body)
  have hsmall : (closedBlock s cur body).content.length < 2 ^ 16 := by
    rw [← hcontent, h.blockIndex]
    simp only [closedBlock] at hentries hrestarts
    omega
  have hread : s.bramReadIndex + (s.dataRestarts.length + 1) * 4 + 5 =
      (dataArea blocks).length % 16 + (closedBlock s cur body).written.length := by
    rw [hwritten, ← hcontent, h.readIndex, h.sstIndex, h.blockIndex]
    omega
  have hindex := putKVIndex_spec hkey hsize hsmall s.index indexBody.length
  have htrailer := store_trailer s.bram s.bramReadIndex
    (s.dataRestarts.flatMap (putFixed 4) ++ putFixed 4 s.dataRestarts.length)
  rw [length_restartWords, ← closedBram] at htrailer
  rw [Encoder.closeBlock]
  dsimp only [Encoder.putBlockHandle]
  rw [hcontent, h.sstIndex, h.indexBlockIndex, h.indexBlockOffset, hindex, htrailer, h.sstOffset,
    h.remain, h.sstIndex, Nat.add_zero, Nat.sub_zero, hread, ← hwritten]
  rfl

/-- A closed block is a finished one, with its entry in the index. -/
theorem Open.filed_afterBlock (h : Open s blocks cur body indexBody) (hcur : cur ≠ []) (tail : ℕ) :
    Filed (afterBlock tail s (dataArea blocks) indexBody (closedBlock s cur body))
      (blocks ++ [closedBlock s cur body])
      (indexBody ++ indexEntry (dataArea blocks) (closedBlock s cur body)) := by
  have hwell := h.wellFormed_closedBlock hcur
  have harea : (dataArea (blocks ++ [closedBlock s cur body])).length =
      (dataArea blocks).length + (closedBlock s cur body).written.length := by
    rw [dataArea_append, dataArea_singleton, List.length_append]
  constructor
  case closed => exact h.closed
  case sstOffset => rfl
  case indexBlockOffset => rfl
  case sstIndex => exact harea.symm
  case finished =>
    intro b hb
    rcases List.mem_append.mp hb with hb | hb
    · exact h.finished b hb
    · rw [List.mem_singleton.mp hb]
      exact hwell
  case index =>
    rw [indexEntries_append, Nat.zero_add]
    exact h.index.concat hwell.separator_pos rfl
  case written =>
    have happend := h.written.append_store (indexEntry (dataArea blocks) (closedBlock s cur body))
    rw [Nat.zero_add] at happend
    exact happend
  case indexBlockIndex => exact List.length_append.symm
  case indexRestarts =>
    have hrestarts := h.indexRestarts
    rw [List.length_append, List.length_singleton]
    simp only [afterBlock]
    split
    · rw [List.length_append, List.length_singleton]
      exact Nat.succ_le_succ hrestarts
    · exact Nat.le_succ_of_le hrestarts
  case numDataBlocks =>
    rw [List.length_append, List.length_singleton, ← h.numDataBlocks]
    rfl
  case dataSize =>
    rw [harea, ← h.dataSize]
    rfl
  case spaced =>
    have hnext := h.spaced.next
    rw [List.length_append, List.length_singleton]
    simp only [afterBlock]
    rwa [apply_ite List.length, List.length_append, List.length_singleton]

/-- A full block is closed and the next one is open. -/
theorem Open.closeFullBlock (h : Open s blocks cur body indexBody) (hcur : cur ≠ [])
    (hsize : (dataArea blocks).length < 2 ^ 35) (hfull : 4096 ≤ body.length) :
    Open s.closeFullBlock (blocks ++ [closedBlock s cur body]) [] []
      (indexBody ++ indexEntry (dataArea blocks) (closedBlock s cur body)) := by
  have hfiled := h.filed_afterBlock hcur 0
  have hnext := h.paged_closedBram.next
  rw [Encoder.closeFullBlock, h.closeBlock_eq hcur hsize]
  constructor
  case toFiled =>
    obtain ⟨hclosed, hoffset, hindexoffset, hsst, hfinished, hindex, hwritten, hat, hrestarts, hnum,
      hdata, hspaced⟩ := hfiled
    exact ⟨hclosed, hoffset, hindexoffset, hsst, hfinished, hindex, hwritten, hat, hrestarts, hnum,
      hdata, hspaced⟩
  case paged =>
    rw [dataArea_append, dataArea_singleton]
    exact hnext
  case remain => rfl
  case readIndex => rfl
  case blockIndex => rfl
  case data => exact Compressed.nil _
  case preKey => exact fun hnil => absurd rfl hnil
  case keys => exact fun e he => absurd he List.not_mem_nil
  case dataRestarts => exact fun hnil => absurd rfl hnil
  case bounded => exact Nat.zero_le _
  case entries =>
    rw [List.flatMap_append, List.flatMap_singleton, List.append_nil]
    exact h.entries
  case full =>
    have hlen := h.full
    have hwritten := length_written (closedBlock s cur body)
    have hcontent := length_putBlock body s.dataRestarts
    have heq : (closedBlock s cur body).content = putBlock body s.dataRestarts := rfl
    rw [← heq] at hcontent
    rw [dataArea_append, dataArea_singleton, List.length_append, List.length_append,
      List.length_singleton]
    omega

/-! ## Closing the file -/

/-- One file is closed: its data and its index stand in the two outputs, and `f` is what the host is
told about it. -/
structure Finished (s : Encoder) (f : OutputFile) (blocks : List DataBlock) (indexBody : Bytes)
    (restarts : List ℕ) : Prop where
  closed : s.closed = [f]
  none_open : s.pps = Pps.zero
  finished : ∀ b ∈ blocks, b.WellFormed KEY_LENGTH
  index : Compressed [] (indexEntries 0 blocks) indexBody
  restarts_le : restarts.length ≤ blocks.length
  spaced : 15 * restarts.length ≤ blocks.length + 16
  data : Holds s.sst 0 (dataArea blocks)
  written : Holds s.index 0 (putBlock indexBody restarts ++ trailer)
  topSstIndex : f.topSstIndex = (dataArea blocks).length
  topIndexBlockIndex : f.topIndexBlockIndex = (putBlock indexBody restarts ++ trailer).length
  numDataBlocks : f.pps.numDataBlocks = blocks.length
  dataSize : f.pps.dataSize = (dataArea blocks).length
  entries : f.pps.entries = (blocks.flatMap DataBlock.entries).length
  full : 4096 * blocks.length ≤ (dataArea blocks).length + 4096

/-- The state before the index block is written. -/
def flushed (s : Encoder) : Encoder :=
  if s.dataBlockIndex ≠ 0 then s.closeBlock 16
  else { s with sst := ap128to128Encoder s.bram s.sst (s.sstIndex + s.sstOffset) 16 }

/-- What the last block of a file adds to its blocks and to the index. -/
inductive Flushes (s : Encoder) (blocks : List DataBlock) (cur : List Entry) (body indexBody : Bytes) :
    List DataBlock → Bytes → Prop
  | last (hcur : cur ≠ []) : Flushes s blocks cur body indexBody
      (blocks ++ [closedBlock s cur body])
      (indexBody ++ indexEntry (dataArea blocks) (closedBlock s cur body))
  | nothing (hcur : cur = []) : Flushes s blocks cur body indexBody blocks indexBody

/-- All data is in the output. -/
theorem Open.flushed_spec (h : Open s blocks cur body indexBody)
    (hsize : (dataArea blocks).length < 2 ^ 35) :
    ∃ blocks' indexBody', Flushes s blocks cur body indexBody blocks' indexBody' ∧
      Filed (flushed s) blocks' indexBody' ∧
      Holds (flushed s).sst 0 (dataArea blocks') ∧
      (flushed s).pps.entries = (blocks'.flatMap DataBlock.entries).length ∧
      4096 * blocks'.length ≤ (dataArea blocks').length + 4096 ∧
      blocks'.flatMap DataBlock.entries = blocks.flatMap DataBlock.entries ++ cur := by
  have hfull := h.full
  have hentries := h.entries
  rw [flushed]
  split
  · next hne =>
    have hcur : cur ≠ [] := mt h.cur_eq_nil.mpr hne
    have hwritten := length_written (closedBlock s cur body)
    have hlast : Holds (ap128to128Encoder (closedBram s) s.sst (dataArea blocks).length
        ((closedBlock s cur body).written.length + (dataArea blocks).length % 16 + 16)) 0
        (dataArea blocks ++ (closedBlock s cur body).written) := h.paged_closedBram.last (by omega)
    have hall : (blocks ++ [closedBlock s cur body]).flatMap DataBlock.entries =
        blocks.flatMap DataBlock.entries ++ cur := by
      rw [List.flatMap_append, List.flatMap_singleton]
      rfl
    rw [h.closeBlock_eq hcur hsize]
    refine ⟨_, _, .last hcur, h.filed_afterBlock hcur 16, ?_, ?_, ?_, hall⟩
    · rw [dataArea_append, dataArea_singleton]
      exact hlast
    · rw [hall]
      exact hentries
    · rw [dataArea_append, dataArea_singleton, List.length_append, List.length_append,
        List.length_singleton]
      omega
  · next hzero =>
    obtain rfl := h.cur_eq_nil.mp (not_not.mp hzero)
    have hbody := h.data.eq_nil
    have hpaged := h.paged
    rw [hbody] at hpaged
    have hlast : Holds (ap128to128Encoder s.bram s.sst (dataArea blocks).length 16) 0
        (dataArea blocks ++ []) := hpaged.last (by rw [List.length_nil]; omega)
    rw [List.append_nil] at hlast
    refine ⟨blocks, indexBody, .nothing rfl, ?_, ?_, ?_, by omega, (List.append_nil _).symm⟩
    · obtain ⟨hclosed, hoffset, hindexoffset, hsst, hfinished, hindex, hwritten, hat, hrestarts,
        hnum, hdata, hspaced⟩ := h.toFiled
      exact ⟨hclosed, hoffset, hindexoffset, hsst, hfinished, hindex, hwritten, hat, hrestarts, hnum,
        hdata, hspaced⟩
    · rw [h.sstOffset, h.sstIndex, Nat.add_zero]
      exact hlast
    · rw [List.append_nil] at hentries
      exact hentries

theorem Open.closeFile (h : Open s blocks cur body indexBody)
    (hsize : (dataArea blocks).length < 2 ^ 35) (fileLimit : ℕ) :
    ∃ f blocks' indexBody' restarts, Finished (s.closeFile fileLimit) f blocks' indexBody' restarts ∧
      blocks'.flatMap DataBlock.entries = blocks.flatMap DataBlock.entries ++ cur := by
  obtain ⟨blocks', indexBody', -, hfiled, hdata, hentries, hfull, hall⟩ := h.flushed_spec hsize
  rw [Encoder.closeFile, ← flushed]
  generalize flushed s = s' at hfiled hdata hentries
  have htrailer := store_trailer s'.index indexBody'.length
    (s'.indexRestarts.flatMap (putFixed 4) ++ putFixed 4 s'.indexRestarts.length)
  rw [length_restartWords] at htrailer
  have hblock : putBlock indexBody' s'.indexRestarts ++ trailer =
      indexBody' ++ (s'.indexRestarts.flatMap (putFixed 4) ++
        putFixed 4 s'.indexRestarts.length ++ trailer) := by
    rw [putBlock]
    simp only [List.append_assoc]
  have hlen : (putBlock indexBody' s'.indexRestarts ++ trailer).length =
      indexBody'.length + (s'.indexRestarts.length + 1) * 4 + 5 := by
    rw [List.length_append, length_putBlock, length_trailer]
    omega
  have happend := hfiled.written.append_store (s'.indexRestarts.flatMap (putFixed 4) ++
    putFixed 4 s'.indexRestarts.length ++ trailer)
  rw [Nat.zero_add, ← hblock] at happend
  refine ⟨⟨{ s'.pps with
      indexBlockOffset := s'.sstIndex
      largestKey := s'.preKey
      minSeq := s'.minSeqno
      maxSeq := s'.maxSeqno }, s'.sstIndex,
    s'.indexBlockIndex + (s'.indexRestarts.length + 1) * 4 + 5 - s'.indexBlockOffset⟩, blocks',
    indexBody', s'.indexRestarts, ?_, hall⟩
  constructor
  case closed =>
    dsimp only
    rw [hfiled.closed, List.nil_append]
  case none_open => rfl
  case finished => exact hfiled.finished
  case index => exact hfiled.index
  case restarts_le => exact hfiled.indexRestarts
  case spaced => exact (Nat.le_add_right _ _).trans hfiled.spaced.le
  case data => exact hdata
  case written =>
    dsimp only
    rw [hfiled.indexBlockIndex, htrailer]
    exact happend
  case topSstIndex => exact hfiled.sstIndex
  case topIndexBlockIndex =>
    dsimp only
    rw [hlen, hfiled.indexBlockIndex, hfiled.indexBlockOffset, Nat.sub_zero]
  case numDataBlocks => exact hfiled.numDataBlocks
  case dataSize => exact hfiled.dataSize
  case entries => exact hentries
  case full => exact hfull

/-! ## The size of the data -/

/-- What the records take at most: their entries, a restart each, and the end of a block each. -/
def recordsSize (es : List Entry) : ℕ := (es.map fun e => 52 + e.value.length).sum

@[simp] theorem recordsSize_append (es es' : List Entry) :
    recordsSize (es ++ es') = recordsSize es + recordsSize es' := by
  rw [recordsSize, List.map_append, List.sum_append]
  rfl

theorem length_compressed_le {prev : Bytes} {es : List Entry} (h : Compressed prev es bs)
    (hes : ∀ e ∈ es, Fits e) : bs.length + 16 * es.length ≤ recordsSize es := by
  have hK : KEY_LENGTH = 32 := rfl
  induction h with
  | nil => exact le_rfl
  | @cons _ bs e es shared hlt hshared hrest ih =>
    have he := hes e List.mem_cons_self
    have hkey := he.1
    have hle := length_putEntry_le he (by omega : shared < 32)
    have hrest := ih fun e' he' => hes e' (List.mem_cons_of_mem _ he')
    have hsum : recordsSize (e :: es) = 52 + e.value.length + recordsSize es := List.sum_cons
    rw [hsum, List.length_append, List.length_cons]
    omega

theorem length_dataArea_le (hblocks : ∀ b ∈ blocks, b.WellFormed KEY_LENGTH)
    (hes : ∀ e ∈ blocks.flatMap DataBlock.entries, Fits e) :
    (dataArea blocks).length ≤ recordsSize (blocks.flatMap DataBlock.entries) := by
  induction blocks with
  | nil => exact Nat.zero_le _
  | cons b blocks ih =>
    obtain ⟨hcompressed, hnonempty, hrestarts, -, -, -⟩ := hblocks b List.mem_cons_self
    rw [List.flatMap_cons] at hes ⊢
    have hbody := length_compressed_le hcompressed fun e he => hes e (List.mem_append_left _ he)
    have hrest := ih (fun b' hb' => hblocks b' (List.mem_cons_of_mem _ hb'))
      fun e he => hes e (List.mem_append_right _ he)
    have hwritten := length_written b
    have hcontent : b.content.length = b.body.length + (b.restarts.length * 4 + 4) :=
      length_putBlock b.body b.restarts
    have hpos := List.length_pos_of_ne_nil hnonempty
    rw [recordsSize_append, dataArea, List.flatMap_cons, List.length_append, ← dataArea]
    omega

/-! ## Runs -/

/-- The files of the run, with the one that is open. -/
def filesSoFar (s : Encoder) : ℕ := s.closed.length + if s.pps.entries = 0 then 0 else 1

/-- The records that have gone to the first file, and whether it is still open. -/
inductive Running (s : Encoder) (done : List Entry) : Prop
  | opened {blocks : List DataBlock} {cur : List Entry} {body indexBody : Bytes}
      (h : Open s blocks cur body indexBody) (hroom : body.length < 4096)
      (hdone : blocks.flatMap DataBlock.entries ++ cur = done)
  | finished {f : OutputFile} {blocks : List DataBlock} {indexBody : Bytes} {restarts : List ℕ}
      (h : Finished s f blocks indexBody restarts)
      (hdone : blocks.flatMap DataBlock.entries = done)
  | spilled (h : 2 ≤ filesSoFar s)

theorem closed_putRecord (s : Encoder) (km : KeyMeta) (value : Bytes) :
    (s.putRecord km value).closed = s.closed ∧
      (s.putRecord km value).pps.entries = s.pps.entries + 1 := by
  obtain ⟨smallest, restarts, size, preKey, heq⟩ := openEntry_eq s km
  rw [Encoder.putRecord, heq]
  exact ⟨rfl, rfl⟩

theorem closed_closeFile (s : Encoder) (fileLimit : ℕ) :
    (s.closeFile fileLimit).closed.length = s.closed.length + 1 := by
  have hflushed : (flushed s).closed = s.closed := by
    rw [flushed]
    split <;> rfl
  rw [Encoder.closeFile, ← flushed]
  dsimp only
  rw [List.length_append, List.length_singleton, hflushed]

/-- The record, and the block if it is full then. -/
def putAndClose (km : KeyMeta) (value : Bytes) (s : Encoder) : Encoder :=
  let s := Encoder.putRecord km value { s with lastUserKey := km.key }
  if 4096 ≤ s.dataBlockIndex then s.closeFullBlock else s

theorem encodeRecord_of_kept {keepAllVersions : Bool} {fileLimit : ℕ} {last : Bool} {km : KeyMeta}
    {value : Bytes} (h : (!keepAllVersions && sameUserKey s.lastUserKey km.key) = false) :
    s.encodeRecord keepAllVersions fileLimit last km value = putAndClose km value s ∨
      s.encodeRecord keepAllVersions fileLimit last km value =
        (putAndClose km value s).closeFile fileLimit := by
  rw [Encoder.encodeRecord, h]
  simp only [Bool.false_eq_true, if_false]
  rw [← putAndClose]
  split
  · exact .inr rfl
  · exact .inl rfl

theorem entries_putAndClose (s : Encoder) (km : KeyMeta) (value : Bytes) :
    (putAndClose km value s).closed = s.closed ∧ (putAndClose km value s).pps.entries ≠ 0 := by
  obtain ⟨hclosed, hentries⟩ := closed_putRecord { s with lastUserKey := km.key } km value
  have hpos : (Encoder.putRecord km value { s with lastUserKey := km.key }).pps.entries ≠ 0 := by
    rw [hentries]
    exact Nat.succ_ne_zero _
  rw [putAndClose]
  split
  · exact ⟨hclosed, hpos⟩
  · exact ⟨hclosed, hpos⟩

theorem filesSoFar_encodeRecord {keepAllVersions : Bool} {fileLimit : ℕ} {last : Bool} {km : KeyMeta}
    {value : Bytes} (h : (!keepAllVersions && sameUserKey s.lastUserKey km.key) = false) :
    s.closed.length + 1 ≤ filesSoFar (s.encodeRecord keepAllVersions fileLimit last km value) := by
  have hput := entries_putAndClose s km value
  obtain heq | heq := @encodeRecord_of_kept s keepAllVersions fileLimit last km value h
  · rw [heq, filesSoFar, if_neg hput.2, hput.1]
  · rw [heq, filesSoFar, closed_closeFile, hput.1]
    exact Nat.le_add_right _ _

theorem Open.withLastUserKey (h : Open s blocks cur body indexBody) (key : Keystring) :
    Open { s with lastUserKey := key } blocks cur body indexBody := by
  obtain ⟨⟨hclosed, hoffset, hindexoffset, hsst, hfinished, hindex, hwritten, hat, hrestarts, hnum,
    hdata, hspaced⟩, hpaged, hremain, hread, hblock, hcompressed, hpre, hkeys, hdataRestarts, hbounded,
    hentries, hfull⟩ := h
  exact ⟨⟨hclosed, hoffset, hindexoffset, hsst, hfinished, hindex, hwritten, hat, hrestarts, hnum,
    hdata, hspaced⟩, hpaged, hremain, hread, hblock, hcompressed, hpre, hkeys, hdataRestarts, hbounded,
    hentries, hfull⟩

theorem Open.length_dataArea (h : Open s blocks cur body indexBody) {done : List Entry}
    (hdone : blocks.flatMap DataBlock.entries ++ cur = done) (hes : ∀ e ∈ done, Fits e) :
    (dataArea blocks).length ≤ recordsSize done := by
  have hle := length_dataArea_le h.finished
    fun e he => hes e (hdone ▸ List.mem_append_left _ he)
  rw [← hdone, recordsSize_append]
  exact Nat.le_add_right_of_le hle

/-- A record that is kept goes to the open file. -/
theorem Open.putAndClose (h : Open s blocks cur body indexBody) (hroom : body.length < 4096)
    {e : Entry} {window : Bytes} (he : Fits e) (hw : Window e window)
    (hne : cur ≠ [] → finalKey [] cur ≠ e.key) (hsize : (dataArea blocks).length < 2 ^ 35) :
    ∃ blocks' cur' body' indexBody',
      Open (putAndClose (keyMeta e) window s) blocks' cur' body' indexBody' ∧
      body'.length < 4096 ∧ blocks'.flatMap DataBlock.entries ++ cur' =
        blocks.flatMap DataBlock.entries ++ cur ++ [e] := by
  have hput := (h.withLastUserKey (keyMeta e).key).putRecord hroom he hw hne
  have hcur : cur ++ [e] ≠ [] := List.concat_ne_nil e cur
  rw [EncoderRuns.putAndClose, hput.blockIndex]
  split
  · next hfull =>
    refine ⟨_, _, _, _, hput.closeFullBlock hcur hsize hfull, by decide, ?_⟩
    rw [List.flatMap_append, List.flatMap_singleton, List.append_nil, List.append_assoc]
    rfl
  · next hroom' => exact ⟨_, _, _, _, hput, Nat.lt_of_not_le hroom', (List.append_assoc _ _ _).symm⟩

theorem Running.encodeRecord {done : List Entry} (h : Running s done) {keepAllVersions : Bool}
    {e : Entry} (hkept : (!keepAllVersions && sameUserKey s.lastUserKey (keyMeta e).key) = false)
    {window : Bytes} (he : ∀ e' ∈ done ++ [e], Fits e') (hw : Window e window)
    (hnew : ∀ e' ∈ done, e'.key ≠ e.key) (hsize : recordsSize (done ++ [e]) < 2 ^ 35)
    (fileLimit : ℕ) (last : Bool) :
    Running (s.encodeRecord keepAllVersions fileLimit last (keyMeta e) window) (done ++ [e]) := by
  have hfiles := @filesSoFar_encodeRecord s keepAllVersions fileLimit last (keyMeta e) window hkept
  cases h with
  | @opened blocks cur body indexBody hopen hroom hdone =>
    have hbefore : (dataArea blocks).length < 2 ^ 35 := by
      have hle := hopen.length_dataArea hdone fun e' he' => he e' (List.mem_append_left _ he')
      rw [recordsSize_append] at hsize
      omega
    have hne : cur ≠ [] → finalKey [] cur ≠ e.key := by
      intro hcur
      obtain ⟨e', he', hlast⟩ := exists_finalKey_eq [] hcur
      rw [hlast]
      exact hnew e' (hdone ▸ List.mem_append_right _ he')
    obtain ⟨blocks', cur', body', indexBody', hopen', hroom', hall⟩ :=
      hopen.putAndClose hroom (he e (by simp)) hw hne hbefore
    rw [hdone] at hall
    obtain heq | heq := @encodeRecord_of_kept s keepAllVersions fileLimit last (keyMeta e) window hkept
    · rw [heq]
      exact .opened hopen' hroom' hall
    · have hafter : (dataArea blocks').length < 2 ^ 35 :=
        (hopen'.length_dataArea hall he).trans_lt hsize
      obtain ⟨f, blocks'', indexBody'', restarts, hfinished, hall'⟩ :=
        hopen'.closeFile hafter fileLimit
      rw [heq]
      exact .finished hfinished (hall'.trans hall)
  | finished hfinished hdone =>
    rw [hfinished.closed] at hfiles
    exact .spilled hfiles
  | spilled hspilled =>
    refine .spilled (hspilled.trans (Nat.le_trans ?_ hfiles))
    rw [filesSoFar]
    split <;> omega

/-- A record of the list that is written in this run. -/
theorem Running.next {done all : List Entry} {e : Entry} (h : Running s done)
    (hall : done ++ [e] <+: all) (hfits : ∀ e ∈ all, Fits e)
    (hdiffer : all.Pairwise fun e e' => e.key ≠ e'.key) (hsize : recordsSize all < 2 ^ 35)
    {keepAllVersions : Bool}
    (hkept : (!keepAllVersions && sameUserKey s.lastUserKey (keyMeta e).key) = false)
    {window : Bytes} (hw : Window e window) (fileLimit : ℕ) (last : Bool) :
    Running (s.encodeRecord keepAllVersions fileLimit last (keyMeta e) window) (done ++ [e]) := by
  obtain ⟨later, rfl⟩ := hall
  rw [recordsSize_append] at hsize
  apply h.encodeRecord hkept _ hw
  · intro e' he'
    exact (List.pairwise_append.mp (List.pairwise_append.mp hdiffer).1).2.2 e' he' e
      (List.mem_singleton_self e)
  · exact (Nat.le_add_right _ _).trans_lt hsize
  · exact fun e' he' => hfits e' (List.mem_append_left _ he')

/-- The end of the run. -/
theorem Running.finish {done : List Entry} (h : Running s done) (hdone : done ≠ [])
    (he : ∀ e ∈ done, Fits e) (hsize : recordsSize done < 2 ^ 35) (fileLimit : ℕ) :
    (∃ f blocks indexBody restarts, Finished (s.finish fileLimit) f blocks indexBody restarts ∧
      blocks.flatMap DataBlock.entries = done) ∨ 2 ≤ (s.finish fileLimit).closed.length := by
  rw [Encoder.finish]
  cases h with
  | @opened blocks cur body indexBody hopen hroom hall =>
    have hpos : s.pps.entries ≠ 0 := by
      rw [hopen.entries, hall]
      exact List.length_pos_of_ne_nil hdone |>.ne'
    obtain ⟨f, blocks', indexBody', restarts, hfinished, hall'⟩ :=
      hopen.closeFile ((hopen.length_dataArea hall he).trans_lt hsize) fileLimit
    rw [if_pos hpos]
    exact .inl ⟨f, blocks', indexBody', restarts, hfinished, hall'.trans hall⟩
  | @finished f blocks indexBody restarts hfinished hall =>
    have hzero : ¬ s.pps.entries ≠ 0 := by
      rw [hfinished.none_open]
      exact not_not.mpr rfl
    rw [if_neg hzero]
    exact .inl ⟨f, blocks, indexBody, restarts, hfinished, hall⟩
  | spilled hspilled =>
    right
    rw [filesSoFar] at hspilled
    split
    · next hpos =>
      rw [if_neg hpos] at hspilled
      rwa [closed_closeFile]
    · next hzero =>
      rw [if_pos (not_not.mp hzero)] at hspilled
      exact hspilled

theorem lastUserKey_encodeRecord {keepAllVersions : Bool} {km : KeyMeta}
    (hkept : (!keepAllVersions && sameUserKey s.lastUserKey km.key) = false) (fileLimit : ℕ)
    (last : Bool) (value : Bytes) :
    (s.encodeRecord keepAllVersions fileLimit last km value).lastUserKey = km.key := by
  have hput : (putAndClose km value s).lastUserKey = km.key := by
    obtain ⟨smallest, restarts, size, preKey, heq⟩ :=
      openEntry_eq { s with lastUserKey := km.key } km
    rw [putAndClose, Encoder.putRecord, heq]
    dsimp only
    split <;> rfl
  obtain heq | heq := @encodeRecord_of_kept s keepAllVersions fileLimit last km value hkept
  · rw [heq, hput]
  · have hflushed : (flushed (putAndClose km value s)).lastUserKey = km.key := by
      rw [flushed]
      split
      · exact hput
      · exact hput
    rw [heq, Encoder.closeFile, ← flushed]
    exact hflushed

/-- The records that are written: with all versions every one, else those whose user key is not that
of the last one written. -/
def keptFrom (keepAllVersions : Bool) : Keystring → List Entry → List Entry
  | _, [] => []
  | last, e :: es =>
    if !keepAllVersions && sameUserKey last (keyMeta e).key then keptFrom keepAllVersions last es
    else e :: keptFrom keepAllVersions (keyMeta e).key es

theorem keptFrom_sublist (keepAllVersions : Bool) (last : Keystring) (es : List Entry) :
    (keptFrom keepAllVersions last es).Sublist es := by
  induction es generalizing last with
  | nil => exact List.Sublist.refl _
  | cons e es ih =>
    rw [keptFrom]
    split
    · exact (ih _).cons e
    · exact (ih _).cons_cons e

/-- The three streams carry these records up to `rest`. -/
inductive Feeds : List Entry → Inputs → Inputs → Prop
  | nil (inputs : Inputs) : Feeds [] inputs inputs
  | cons {e : Entry} {es : List Entry} {inputs rest : Inputs} {kms : List KeyMeta} {port : ℕ}
      {ports : List ℕ} {first second : Slice} {slices : List Slice}
      (hkm : inputs.km = keyMeta e :: kms) (hport : inputs.mergeResult = port :: ports)
      (hvalue : inputs.value port = first :: second :: slices) (hw : Window e (first ++ second))
      (hrest : Feeds es ⟨kms, ports, fun p => if p = port then slices else inputs.value p⟩ rest) :
      Feeds (e :: es) inputs rest

/-- The rule of the loop: what one written record preserves holds of all that are written. -/
theorem encoderLoop_rule {keepAllVersions : Bool} {fileLimit : ℕ} {all : List Entry}
    {P : Encoder → List Entry → Prop}
    (hstep : ∀ s done e window last, P s done → done ++ [e] <+: all → Window e window →
      (!keepAllVersions && sameUserKey s.lastUserKey (keyMeta e).key) = false →
      P (s.encodeRecord keepAllVersions fileLimit last (keyMeta e) window) (done ++ [e]))
    {es : List Entry} {inputs rest : Inputs} (hfeeds : Feeds es inputs rest) {done : List Entry}
    (h : P s done) (hall : done ++ keptFrom keepAllVersions s.lastUserKey es = all) :
    ∃ s', encoderLoop keepAllVersions fileLimit es.length s inputs = some (s', rest) ∧ P s' all := by
  induction hfeeds generalizing s done with
  | nil inputs =>
    rw [keptFrom, List.append_nil] at hall
    exact ⟨s, rfl, hall ▸ h⟩
  | @cons e es inputs rest kms port ports first second slices hkm hport hvalue hw hrest ih =>
    rw [List.length_cons, encoderLoop, hkm, hport]
    dsimp only
    rw [hvalue]
    dsimp only
    rw [keptFrom] at hall
    cases hkept : !keepAllVersions && sameUserKey s.lastUserKey (keyMeta e).key with
    | true =>
      rw [hkept, if_pos rfl] at hall
      rw [Encoder.encodeRecord, hkept, if_pos rfl]
      exact ih h hall
    | false =>
      rw [hkept, if_neg Bool.false_ne_true, List.append_cons] at hall
      have hnext := hstep s done e _ (es.length == 0) h ⟨_, hall⟩ hw hkept
      rw [← lastUserKey_encodeRecord hkept fileLimit (es.length == 0) (first ++ second)] at hall
      exact ih hnext hall

/-- The loop takes all records off the streams and writes those it keeps. -/
theorem encoderLoop_spec {keepAllVersions : Bool} {es : List Entry} {inputs rest : Inputs}
    (hfeeds : Feeds es inputs rest) {done : List Entry} (h : Running s done)
    (hfits : ∀ e ∈ done ++ keptFrom keepAllVersions s.lastUserKey es, Fits e)
    (hdiffer : (done ++ keptFrom keepAllVersions s.lastUserKey es).Pairwise
      fun e e' => e.key ≠ e'.key)
    (hsize : recordsSize (done ++ keptFrom keepAllVersions s.lastUserKey es) < 2 ^ 35)
    (fileLimit : ℕ) :
    ∃ s', encoderLoop keepAllVersions fileLimit es.length s inputs = some (s', rest) ∧
      Running s' (done ++ keptFrom keepAllVersions s.lastUserKey es) := by
  apply encoderLoop_rule _ hfeeds h rfl
  intro s' done' e window last hrunning hall hw hkept
  exact hrunning.next hall hfits hdiffer hsize hkept hw fileLimit last

/-- The first record is written: before it there is no user key. -/
theorem keptFrom_ne_nil (keepAllVersions : Bool) {es : List Entry} (h : es ≠ []) :
    keptFrom keepAllVersions ⟨[], 0⟩ es ≠ [] := by
  cases es with
  | nil => exact absurd rfl h
  | cons e es =>
    have hfirst : sameUserKey ⟨[], 0⟩ (keyMeta e).key = false := rfl
    rw [keptFrom, hfirst, Bool.and_false, if_neg Bool.false_ne_true]
    exact List.cons_ne_nil _ _

/-- A run of the writer over records that end with the mark of the merge. It leaves one file of
exactly the records that are kept, unless it leaves more files. -/
theorem encoder_spec {keepAllVersions : Bool} {es : List Entry} {inputs rest : Inputs}
    (hfeeds : Feeds es inputs rest) {km : KeyMeta} {kms : List KeyMeta} {port : ℕ} {ports : List ℕ}
    (hkm : rest.km = km :: kms) (hport : rest.mergeResult = port :: ports) (hes : es ≠ [])
    (hfits : ∀ e ∈ keptFrom keepAllVersions ⟨[], 0⟩ es, Fits e)
    (hdiffer : (keptFrom keepAllVersions ⟨[], 0⟩ es).Pairwise fun e e' => e.key ≠ e'.key)
    (hsize : recordsSize (keptFrom keepAllVersions ⟨[], 0⟩ es) < 2 ^ 35) (fileLimit : ℕ)
    (bram sst index : Memory) :
    ∃ s, encoder keepAllVersions fileLimit es.length (.start bram sst index) inputs =
        some (s, { rest with km := kms, mergeResult := ports }) ∧
      ((∃ f blocks indexBody restarts, Finished s f blocks indexBody restarts ∧
        blocks.flatMap DataBlock.entries = keptFrom keepAllVersions ⟨[], 0⟩ es) ∨
        2 ≤ s.closed.length) := by
  have hstart : Running (.start bram sst index) [] :=
    .opened (open_start bram sst index) (by decide) rfl
  obtain ⟨s, hrun, hrunning⟩ := encoderLoop_spec hfeeds hstart hfits hdiffer hsize fileLimit
  rw [List.nil_append] at hrunning
  refine ⟨s.finish fileLimit, ?_, hrunning.finish (keptFrom_ne_nil keepAllVersions hes) hfits hsize
    fileLimit⟩
  rw [encoder, hrun]
  dsimp only [Option.bind_eq_bind, Option.bind_some]
  rw [hkm, hport]

@[simp] theorem keptFrom_all (last : Keystring) (es : List Entry) : keptFrom true last es = es := by
  induction es generalizing last with
  | nil => rfl
  | cons e es ih => exact congrArg (e :: ·) (ih _)

end ZeroFlush.EncoderRuns
