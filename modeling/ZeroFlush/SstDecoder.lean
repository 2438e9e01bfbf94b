import ZeroFlush.DeviceStreams
import ZeroFlush.BlockTables

/-! # The device reader of table files

`decoderSst` walks a chain of table files: in every file the footer, the index block and the data
blocks it points to. It checks the shape of everything it reads and gives up at the first fault. -/
namespace ZeroFlush.SstDecoder
open FixedWidthCodec ByteMemory Varints PrefixCompression DeviceStreams BlockTables

def ZF_SST_CHAIN_MAX_FILES : ℕ := 64

def rdVarint32 (buf : Memory) (off : ℕ) : ℕ × ℕ :=
  let r := readGroups buf 5 off
  (r.1 % 2 ^ 32, r.2)

def rdVarint64 (buf : Memory) (off : ℕ) : ℕ × ℕ :=
  let r := readGroups buf 10 off
  (r.1 % 2 ^ 64, r.2)

theorem lt_rdVarint32 (buf : Memory) (off : ℕ) : off < (rdVarint32 buf off).2 :=
  lt_snd_readGroups buf 4 off

theorem lt_rdVarint64 (buf : Memory) (off : ℕ) : off < (rdVarint64 buf off).2 :=
  lt_snd_readGroups buf 9 off

theorem rdVarint32_le (buf : Memory) (off : ℕ) : (rdVarint32 buf off).2 ≤ off + 5 :=
  snd_readGroups_le buf 5 off

theorem rdVarint64_le (buf : Memory) (off : ℕ) : (rdVarint64 buf off).2 ≤ off + 10 :=
  snd_readGroups_le buf 10 off

/-- The 64 words of the two slices. A word is read whole when one of its bytes belongs to the
value, so what follows the value in the file may stand behind it. -/
def valueWindow (buf : Memory) (vstart vl : ℕ) : Bytes :=
  (List.range 64).flatMap fun w =>
    if w * 16 < vl then load buf (vstart + w * 16) 16 else List.replicate 16 0

/-- The records of one data block from `dcur` on. -/
def decodeRecords (buf : Memory) (dEnd dcur : ℕ) (runkey : Bytes) (out : Streams) :
    Streams × Bool :=
  if dcur < dEnd then
    let sh := rdVarint32 buf dcur
    let us := rdVarint32 buf sh.2
    let vl := rdVarint32 buf us.2
    if us.1 = 0 ∨ sh.1 + us.1 ≠ KEY_LENGTH ∨ KEY_LENGTH < sh.1 then (out, false)
    else if VALUE_LENGTH < vl.1 then (out, false)
    else
      let nk := runkey.take sh.1 ++ load buf vl.2 us.1
      let vstart := vl.2 + us.1
      if dEnd < vstart + vl.1 then (out, false)
      else
        decodeRecords buf dEnd (vstart + vl.1) nk
          (out.writeRecord ⟨⟨nk, KEY_LENGTH⟩, vl.1 % 2 ^ 11⟩ (valueWindow buf vstart vl.1))
  else (out, true)
termination_by dEnd - dcur
decreasing_by
  have h1 := lt_rdVarint32 buf dcur
  have h2 := lt_rdVarint32 buf (rdVarint32 buf dcur).2
  have h3 := lt_rdVarint32 buf (rdVarint32 buf (rdVarint32 buf dcur).2).2
  omega

/-- The data blocks behind the index entries from `icur` on. -/
def decodeBlocks (buf : Memory) (FB fsz iEnd icur entryCnt : ℕ) (out : Streams) :
    Streams × Bool :=
  if icur < iEnd then
    let sh := rdVarint32 buf icur
    let us := rdVarint32 buf sh.2
    let vl := rdVarint32 buf us.2
    if us.1 = 0 ∨ KEY_LENGTH < sh.1 + us.1 ∨ iEnd < vl.2 + us.1 then (out, false)
    else if vl.1 = 0 ∨ 24 < vl.1 ∨ iEnd < vl.2 + us.1 + vl.1 then (out, false)
    else
      let doff := rdVarint64 buf (vl.2 + us.1)
      let dsz := rdVarint64 buf doff.2
      if dsz.2 - (vl.2 + us.1) ≠ vl.1 then (out, false)
      else if fsz < doff.1 + dsz.1 + 5 ∨ dsz.1 < 4 then (out, false)
      else
        let DB := FB + doff.1
        let dNr := loadFixed buf 4 (DB + dsz.1 - 4)
        if 4096 < dNr ∨ dsz.1 < dNr * 4 + 4 then (out, false)
        else
          let block := decodeRecords buf (DB + dsz.1 - (dNr * 4 + 4)) DB
            (List.replicate KEY_LENGTH 0) out
          if block.2 = false ∨ 100000 < entryCnt + 1 then (block.1, false)
          else decodeBlocks buf FB fsz iEnd (vl.2 + us.1 + vl.1) (entryCnt + 1) block.1
  else (out, true)
termination_by iEnd - icur
decreasing_by
  have h1 := lt_rdVarint32 buf icur
  have h2 := lt_rdVarint32 buf (rdVarint32 buf icur).2
  have h3 := lt_rdVarint32 buf (rdVarint32 buf (rdVarint32 buf icur).2).2
  omega

/-- One file of the chain, `fsz` bytes from `foff` on. -/
def decodeFile (buf : Memory) (foff fsz : ℕ) (out : Streams) : Streams × Bool :=
  let FE := foff + fsz
  if fsz < 53 then (out, false)
  else if loadFixed buf 8 (FE - 8) ≠ kBlockBasedTableMagicNumber then (out, false)
  else if loadFixed buf 4 (FE - 12) ≠ 2 then (out, false)
  else if buf (FE - 53) ≠ 0 ∧ buf (FE - 53) ≠ 1 then (out, false)
  else
    let metaOff := rdVarint64 buf (FE - 52)
    let metaSz := rdVarint64 buf metaOff.2
    let idxOff := rdVarint64 buf metaSz.2
    let idxSz := rdVarint64 buf idxOff.2
    if fsz < idxOff.1 + idxSz.1 ∨ idxSz.1 < 4 then (out, false)
    else
      let IDX := foff + idxOff.1
      let iNr := loadFixed buf 4 (IDX + idxSz.1 - 4)
      if 4096 < iNr ∨ idxSz.1 < iNr * 4 + 4 then (out, false)
      else decodeBlocks buf foff fsz (IDX + idxSz.1 - (iNr * 4 + 4)) IDX 0 out

/-- The files of the descriptors that are left, the first of them at `desc`. -/
def decodeChain (buf : Memory) (chainBytes : ℕ) : ℕ → ℕ → Streams → Streams
  | 0, _, out => out
  | k + 1, desc, out =>
    if chainBytes < desc + 16 then out
    else
      let foff := loadFixed buf 8 desc
      let fsz := loadFixed buf 8 (desc + 8)
      if fsz = 0 then decodeChain buf chainBytes k (desc + 16) out
      else if foff < 8 ∨ chainBytes < foff + fsz then out
      else
        let file := decodeFile buf foff fsz out
        if file.2 then decodeChain buf chainBytes k (desc + 16) file.1 else file.1

def decoderSst (buf : Memory) (fileSize : ℕ) : Streams :=
  let started : Streams := ⟨[signalMark], []⟩
  let K := if 8 ≤ fileSize then loadFixed buf 8 0 else 0
  let decoded :=
    if K ≤ ZF_SST_CHAIN_MAX_FILES then decodeChain buf fileSize K 8 started else started
  decoded.writeKm maxMark

variable {buf : Memory} {a v dEnd dcur vstart vl : ℕ} {runkey bs : Bytes} {es : List Entry}
  {out : Streams}

theorem rdVarint32_put (h : Holds buf a (putVarint v)) (hv : v < 2 ^ 32) :
    rdVarint32 buf a = (v, a + (putVarint v).length) := by
  rw [rdVarint32, readGroups_putVarint (by omega) (by omega) h, Nat.mod_eq_of_lt hv]

theorem rdVarint64_put (h : Holds buf a (putVarint v)) (hv : v < 2 ^ 64) :
    rdVarint64 buf a = (v, a + (putVarint v).length) := by
  rw [rdVarint64, readGroups_putVarint (by omega) hv h, Nat.mod_eq_of_lt hv]

/-- The first `n` words hold the beginning of the value that fits into them. -/
theorem windowWords_spec (buf : Memory) (vstart vl n : ℕ) :
    let words := (List.range n).flatMap fun w =>
      if w * 16 < vl then load buf (vstart + w * 16) 16 else List.replicate 16 0
    words.length = n * 16 ∧ words.take (min vl (n * 16)) = load buf vstart (min vl (n * 16)) := by
  induction n with
  | zero => simp
  | succ n ih =>
    obtain ⟨hlen, htake⟩ := ih
    simp only at hlen htake ⊢
    rw [List.range_succ, List.flatMap_append, List.flatMap_singleton]
    constructor
    · rw [List.length_append, hlen]
      split <;> simp <;> omega
    · split
      · next hw =>
        rw [Nat.min_eq_right (by omega)] at htake
        rw [List.take_of_length_le (by rw [hlen])] at htake
        rw [htake, Nat.add_mul, Nat.one_mul, ← load_add, take_load, Nat.min_assoc, Nat.min_self]
      · next hw =>
        rw [List.take_append_of_le_length (by rw [hlen]; omega), Nat.min_eq_left (by omega)]
        rwa [Nat.min_eq_left (by omega)] at htake

theorem length_valueWindow (buf : Memory) (vstart vl : ℕ) :
    (valueWindow buf vstart vl).length = VALUE_LENGTH :=
  (windowWords_spec buf vstart vl 64).1

theorem take_valueWindow (h : vl ≤ VALUE_LENGTH) :
    (valueWindow buf vstart vl).take vl = load buf vstart vl := by
  have htake := (windowWords_spec buf vstart vl 64).2
  have hmin : min vl (64 * 16) = vl := Nat.min_eq_left h
  rwa [hmin] at htake

/-- The shape the reader asks of a record. -/
def Fits (e : Entry) : Prop := e.key.length = KEY_LENGTH ∧ e.value.length ≤ VALUE_LENGTH

/-- The three lengths before an entry, and where its key, its value and the rest stand. -/
theorem rdVarint32_putEntry {shared : ℕ} {e : Entry} (h : Holds buf a (putEntry shared e ++ bs))
    (hkey : e.key.length < 2 ^ 32) (hvalue : e.value.length < 2 ^ 32)
    (hlt : shared < e.key.length) :
    ∃ a1 a2 a3, rdVarint32 buf a = (shared, a1) ∧
      rdVarint32 buf a1 = (e.key.length - shared, a2) ∧ rdVarint32 buf a2 = (e.value.length, a3) ∧
      load buf a3 (e.key.length - shared) = e.key.drop shared ∧
      Holds buf (a3 + (e.key.length - shared)) e.value ∧
      Holds buf (a3 + (e.key.length - shared) + e.value.length) bs ∧
      a + (putEntry shared e ++ bs).length =
        a3 + (e.key.length - shared) + e.value.length + bs.length := by
  simp only [putEntry, holds_append, List.length_append, ← Nat.add_assoc] at h ⊢
  obtain ⟨⟨⟨⟨⟨hsh, hus⟩, hvl⟩, hsuffix⟩, hval⟩, hbs⟩ := h
  have hload := hsuffix.load_eq (n := e.key.length - shared) (by rw [List.length_drop])
  rw [List.length_drop] at hval hbs ⊢
  exact ⟨_, _, _, rdVarint32_put hsh (by omega), rdVarint32_put hus (by omega),
    rdVarint32_put hvl (by omega), hload, hval, hbs, rfl⟩

theorem decodeRecords_of_compressed (h : Compressed runkey es bs) (hbs : Holds buf dcur bs)
    (hend : dEnd = dcur + bs.length) (hes : ∀ e ∈ es, Fits e) :
    ∃ out', decodeRecords buf dEnd dcur runkey out = (out', true) ∧ Delivers out out' es := by
  have hK : KEY_LENGTH = 32 := rfl
  have hV : VALUE_LENGTH = 1024 := rfl
  induction h generalizing dcur out with
  | nil runkey =>
    rw [List.length_nil] at hend
    rw [decodeRecords, if_neg (by omega)]
    exact ⟨out, rfl, Delivers.refl out⟩
  | @cons runkey bs e es shared hlt hshared hrest ih =>
    obtain ⟨hkey, hvalue⟩ := hes e List.mem_cons_self
    have hpos := length_putEntry_pos shared e
    obtain ⟨a1, a2, a3, hsh, hus, hvl, hsuffix, hval, hbs, hlen⟩ :=
      rdVarint32_putEntry hbs (by omega) (by omega) hlt
    have hmore : dcur < dEnd := by
      rw [hend, List.length_append]
      omega
    have hnk : runkey.take shared ++ e.key.drop shared = e.key := by
      rw [← hshared, List.take_append_drop]
    rw [decodeRecords, if_pos hmore]
    simp only [hsh, hus, hvl]
    rw [if_neg (by omega), if_neg (by omega), hsuffix, hnk, if_neg (by omega),
      Nat.mod_eq_of_lt (by omega)]
    have hwindow : (valueWindow buf _ e.value.length).take e.value.length = e.value :=
      (take_valueWindow hvalue).trans hval
    obtain ⟨out', hrun, hdelivers⟩ := @ih _ (out.writeRecord (keyMeta e)
      (valueWindow buf _ e.value.length)) hbs (hend.trans hlen)
      (fun e' he' => hes e' (List.mem_cons_of_mem _ he'))
    refine ⟨out', hrun, ?_⟩
    rw [← List.singleton_append]
    exact (delivers_writeRecord out (length_valueWindow buf _ _) hwindow).trans hdelivers

variable {FB fsz iEnd icur entryCnt offset : ℕ} {prev : Bytes} {b : DataBlock}
  {blocks : List DataBlock}

theorem holds_dataArea_cons {a : ℕ} (h : Holds buf a (dataArea (b :: blocks))) :
    Holds buf a b.content ∧ Holds buf (a + b.written.length) (dataArea blocks) := by
  rw [dataArea, List.flatMap_cons, holds_append] at h
  refine ⟨?_, h.2⟩
  rw [DataBlock.written, holds_append] at h
  exact h.1.1

theorem decodeBlocks_of_compressed (h : Compressed prev (indexEntries offset blocks) bs)
    (hbs : Holds buf icur bs) (hend : iEnd = icur + bs.length)
    (hdata : Holds buf (FB + offset) (dataArea blocks))
    (hfsz : offset + (dataArea blocks).length ≤ fsz) (hsmall : fsz < 2 ^ 32)
    (hblocks : ∀ b ∈ blocks, b.WellFormed KEY_LENGTH) (hes : ∀ b ∈ blocks, ∀ e ∈ b.entries, Fits e)
    (hcnt : entryCnt + blocks.length ≤ 100000) :
    ∃ out', decodeBlocks buf FB fsz iEnd icur entryCnt out = (out', true) ∧
      Delivers out out' (blocks.flatMap DataBlock.entries) := by
  have hK : KEY_LENGTH = 32 := rfl
  have hmax : kMaxBlockEntries = 4096 := rfl
  induction blocks generalizing prev offset bs icur entryCnt out with
  | nil =>
    cases h
    rw [List.length_nil] at hend
    rw [decodeBlocks, if_neg (by omega)]
    exact ⟨out, rfl, Delivers.refl out⟩
  | cons b blocks ih =>
    obtain ⟨hcompressed, -, hrestarts, hentries, hseppos, hseple⟩ := hblocks b List.mem_cons_self
    obtain ⟨hcontent, hdata⟩ := holds_dataArea_cons hdata
    have harea : (dataArea (b :: blocks)).length = b.written.length + (dataArea blocks).length := by
      rw [dataArea, List.flatMap_cons, List.length_append]
      rfl
    have hwritten := length_written b
    have hcontentlen : b.content.length = b.body.length + (b.restarts.length * 4 + 4) :=
      length_putBlock b.body b.restarts
    cases h with
    | @cons _ bs e _ shared hlt hshared hrest =>
      have hvaluepos := length_encodeTo_pos ⟨offset, b.content.length⟩
      have hvaluele := length_encodeTo_le ⟨offset, b.content.length⟩
      have hpos := length_putEntry_pos shared
        ⟨b.separator, (BlockHandle.mk offset b.content.length).encodeTo⟩
      obtain ⟨a1, a2, a3, hsh, hus, hvl, hsuffix, hval, hbs, hlen⟩ :=
        rdVarint32_putEntry hbs (by simp only; omega) (by simp only; omega) hlt
      have hmore : icur < iEnd := by
        rw [hend, List.length_append]
        omega
      dsimp only at hlt hus hvl hval hbs hlen
      rw [← hend] at hlen
      simp only [BlockHandle.encodeTo, holds_append] at hval
      have hhandle : (BlockHandle.mk offset b.content.length).encodeTo.length =
          (putVarint offset).length + (putVarint b.content.length).length := by
        rw [BlockHandle.encodeTo, List.length_append]
      obtain ⟨hbody, hcount⟩ := holds_putBlock hcontent (by omega)
      rw [← DataBlock.content] at hcount
      obtain ⟨out', hblock, hdelivers⟩ := @decodeRecords_of_compressed buf _ _ _ _ _ out
        (hcompressed.of_nil (List.replicate KEY_LENGTH 0)) hbody rfl (hes b List.mem_cons_self)
      have hstop : FB + offset + b.content.length - (b.restarts.length * 4 + 4) =
          FB + offset + b.body.length := by omega
      rw [List.length_cons] at hcnt
      obtain ⟨out'', hrun, hrest⟩ := @ih _ out' _ (entryCnt + 1) _ _ hrest hbs hlen
        (by rwa [← Nat.add_assoc]) (by omega) (fun b' hb' => hblocks b' (List.mem_cons_of_mem _ hb'))
        (fun b' hb' => hes b' (List.mem_cons_of_mem _ hb')) (by omega)
      rw [decodeBlocks, if_pos hmore]
      simp only [hsh, hus, hvl, rdVarint64_put hval.1 (by omega), rdVarint64_put hval.2 (by omega),
        hcount, hstop, hblock]
      rw [if_neg (by omega), if_neg (by omega), if_neg (by omega), if_neg (by omega),
        if_neg (by omega), if_neg (by simp only [Bool.true_eq_false, false_or]; omega), hrun]
      refine ⟨out'', rfl, ?_⟩
      rw [List.flatMap_cons]
      exact hdelivers.trans hrest

variable {foff : ℕ} {t : Layout}

/-- The footer leads to the index block, and the number of its restarts decides. -/
theorem decodeFile_eq (ht : t.WellFormed KEY_LENGTH) (hbytes : Holds buf foff t.bytes)
    (hsmall : t.bytes.length < 2 ^ 32) :
    decodeFile buf foff t.bytes.length out =
      if 4096 < t.indexRestarts.length then (out, false)
      else decodeBlocks buf foff t.bytes.length
        (foff + (dataArea t.blocks).length + t.indexBody.length)
        (foff + (dataArea t.blocks).length) 0 out := by
  have hmetaindex := ht.metaindex
  have hcontent : t.indexContent.length = t.indexBody.length + (t.indexRestarts.length * 4 + 4) :=
    length_putBlock t.indexBody t.indexRestarts
  have hsplit : t.bytes.length = (dataArea t.blocks).length + (t.indexContent.length + 5) +
      t.middle.length + (putFooter t.checksum t.metaindex t.indexHandle).length := by
    simp only [Layout.bytes, List.length_append, length_trailer]
  have hoffset : t.indexHandle.offset = (dataArea t.blocks).length := rfl
  have hsize : t.indexHandle.size = t.indexContent.length := rfl
  have hhandles : (t.metaindex.encodeTo ++ t.indexHandle.encodeTo).length ≤ 40 := by
    have h1 := length_encodeTo_le t.metaindex
    have h2 := length_encodeTo_le t.indexHandle
    rw [List.length_append]
    omega
  rw [length_putFooter hhandles] at hsplit
  simp only [Layout.bytes, holds_append, List.length_append, length_trailer] at hbytes
  obtain ⟨⟨⟨-, hindexcontent, -⟩, -⟩, hfooter⟩ := hbytes
  generalize hP : (dataArea t.blocks).length + (t.indexContent.length + 5) + t.middle.length = P
    at hfooter hsplit
  obtain ⟨hchk, hat, hversion, hmagic⟩ := holds_putFooter hfooter hhandles
  simp only [BlockHandle.encodeTo, holds_append, List.length_append, ← Nat.add_assoc] at hat
  rw [hoffset, hsize] at hat
  obtain ⟨⟨hmetaoff, hmetasz⟩, hidxoff, hidxsz⟩ := hat
  obtain ⟨-, hiNr⟩ := holds_putBlock hindexcontent (by omega)
  rw [← Layout.indexContent] at hiNr
  have h8 : foff + t.bytes.length - 8 = foff + P + 45 := by omega
  have h12 : foff + t.bytes.length - 12 = foff + P + 41 := by omega
  have h53 : foff + t.bytes.length - 53 = foff + P := by omega
  have h52 : foff + t.bytes.length - 52 = foff + P + 1 := by omega
  have htype : ¬ (t.checksum.toByte ≠ 0 ∧ t.checksum.toByte ≠ 1) := by
    rcases ht.checksum with hchecksum | hchecksum
    · rw [hchecksum]
      decide
    · rw [hchecksum]
      decide
  rw [decodeFile]
  simp only [h8, h12, h53, h52, hmagic, hversion, hchk,
    rdVarint64_put hmetaoff (by omega), rdVarint64_put hmetasz (by omega),
    rdVarint64_put hidxoff (by omega), rdVarint64_put hidxsz (by omega), hiNr]
  have hstop : foff + (dataArea t.blocks).length + t.indexContent.length -
      (t.indexRestarts.length * 4 + 4) =
        foff + (dataArea t.blocks).length + t.indexBody.length := by omega
  rw [if_neg (by omega), if_neg (by simp), if_neg (by simp), if_neg htype, if_neg (by omega), hstop]
  have hroom : ¬ t.indexContent.length < t.indexRestarts.length * 4 + 4 := by omega
  simp only [hroom, or_false]

/-- A file whose index block has no more restarts than the reader allows is read completely. -/
theorem decodeFile_of_layout (ht : t.WellFormed KEY_LENGTH) (hbytes : Holds buf foff t.bytes)
    (hsmall : t.bytes.length < 2 ^ 32) (hes : ∀ e ∈ t.entries, Fits e)
    (hcnt : t.blocks.length ≤ 100000) (hrestarts : t.indexRestarts.length ≤ 4096) :
    ∃ out', decodeFile buf foff t.bytes.length out = (out', true) ∧ Delivers out out' t.entries := by
  rw [decodeFile_eq ht hbytes hsmall, if_neg (by omega)]
  have hlen : (dataArea t.blocks).length ≤ t.bytes.length := by
    simp only [Layout.bytes, List.length_append]
    omega
  simp only [Layout.bytes, holds_append] at hbytes
  obtain ⟨⟨⟨hdata, hindexcontent, -⟩, -⟩, -⟩ := hbytes
  have hbody := (holds_putBlock hindexcontent (by omega)).1
  exact decodeBlocks_of_compressed ht.index hbody rfl hdata (by omega) hsmall ht.blocks
    (fun b hb e he => hes e (List.mem_flatMap.mpr ⟨b, hb, he⟩)) (by omega)

end ZeroFlush.SstDecoder
