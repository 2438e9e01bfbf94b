import ZeroFlush.CsdSlots
import ZeroFlush.SstDecoder

/-! # Chains of table files on the device

The files of a chain are found by a table of offsets and sizes in front of them. A file that the
reader gives up ends the chain. -/
namespace ZeroFlush.DeviceChains
open FixedWidthCodec ByteMemory PrefixCompression BlockTables DeviceStreams SstDecoder CsdSlots

/-- The entries of the table for files that stand from `total` on. -/
def descriptors (total : ℕ) (files : List Bytes) : Bytes :=
  ((chainOffsets total files).zip files).flatMap fun f => putFixed 8 f.1 ++ putFixed 8 f.2.length

/-- A file as the reader takes it: its index is as long as its restarts say. -/
structure Accepted (t : Layout) : Prop where
  wellFormed : t.WellFormed KEY_LENGTH
  fits : ∀ e ∈ t.entries, Fits e
  small : t.bytes.length < 2 ^ 32
  blocks : t.indexRestarts.length ≤ 4096 → t.blocks.length ≤ 100000

/-- The reader takes the index of the file. -/
def indexRead (t : Layout) : Bool := decide (t.indexRestarts.length ≤ 4096)

variable {buf : Memory} {chainBytes desc total a : ℕ} {out : Streams} {ts : List Layout} {t : Layout}

theorem descriptors_cons (total : ℕ) (f : Bytes) (files : List Bytes) :
    descriptors total (f :: files) =
      putFixed 8 total ++ putFixed 8 f.length ++ descriptors (total + f.length) files := rfl

theorem length_descriptors (total : ℕ) (files : List Bytes) :
    (descriptors total files).length = 16 * files.length := by
  induction files generalizing total with
  | nil => rfl
  | cons f files ih =>
    rw [descriptors_cons, List.length_append, List.length_append, length_putFixed, length_putFixed,
      ih, List.length_cons]
    omega

/-- A footer alone is 53 bytes long. -/
theorem length_bytes_pos (t : Layout) : 0 < t.bytes.length := by
  rw [Layout.bytes, List.length_append, putFooter]
  simp only [List.length_append, List.length_cons]
  omega

/-- One file of the chain. -/
theorem decodeChain_cons {k : ℕ} (ht : Accepted t) (htotal : 8 ≤ total)
    (hdesc : Holds buf desc (putFixed 8 total ++ putFixed 8 t.bytes.length))
    (hbytes : Holds buf total t.bytes) (hroom : desc + 16 ≤ chainBytes)
    (hend : total + t.bytes.length ≤ chainBytes) (hsmall : chainBytes < 2 ^ 64) :
    ∃ out', Delivers out out' (if indexRead t then t.entries else []) ∧
      decodeChain buf chainBytes (k + 1) desc out =
        if indexRead t then decodeChain buf chainBytes k (desc + 16) out' else out' := by
  have hpos := length_bytes_pos t
  obtain ⟨hwell, hfits, hfile, hblocks⟩ := ht
  rw [holds_append, length_putFixed] at hdesc
  have hoffset : loadFixed buf 8 desc = total := hdesc.1.loadFixed (by omega)
  have hlength : loadFixed buf 8 (desc + 8) = t.bytes.length := hdesc.2.loadFixed (by omega)
  rw [decodeChain, if_neg (by omega : ¬ chainBytes < desc + 16)]
  dsimp only
  rw [hoffset, hlength, if_neg hpos.ne',
    if_neg (by omega : ¬ (total < 8 ∨ chainBytes < total + t.bytes.length))]
  cases hread : indexRead t with
  | true =>
    have hrestarts : t.indexRestarts.length ≤ 4096 := by simpa [indexRead] using hread
    obtain ⟨out', hdecode, hdelivers⟩ := @decodeFile_of_layout buf out total t hwell hbytes hfile hfits
      (hblocks hrestarts) hrestarts
    rw [hdecode]
    exact ⟨out', hdelivers, rfl⟩
  | false =>
    have hrestarts : 4096 < t.indexRestarts.length := by simpa [indexRead] using hread
    have hdecode := @decodeFile_eq buf out total t hwell hbytes hfile
    rw [if_pos hrestarts] at hdecode
    rw [hdecode]
    exact ⟨out, Delivers.refl out, rfl⟩

/-- The files up to the first whose index is too long are delivered. -/
theorem decodeChain_spec (hts : ∀ t ∈ ts, Accepted t) (htotal : 8 ≤ total)
    (hdesc : Holds buf desc (descriptors total (ts.map Layout.bytes)))
    (hbytes : Holds buf total (ts.flatMap Layout.bytes))
    (hroom : desc + 16 * ts.length ≤ chainBytes)
    (hend : total + (ts.flatMap Layout.bytes).length ≤ chainBytes) (hsmall : chainBytes < 2 ^ 64) :
    Delivers out (decodeChain buf chainBytes ts.length desc out)
      ((ts.takeWhile indexRead).flatMap Layout.entries) := by
  induction ts generalizing total desc out with
  | nil => exact Delivers.refl out
  | cons t ts ih =>
    rw [List.map_cons, descriptors_cons, holds_append, List.length_append, length_putFixed,
      length_putFixed] at hdesc
    rw [List.flatMap_cons, holds_append] at hbytes
    rw [List.flatMap_cons, List.length_append] at hend
    rw [List.length_cons] at hroom ⊢
    obtain ⟨out', hdelivers, hchain⟩ := @decodeChain_cons buf chainBytes desc total out t ts.length
      (hts t List.mem_cons_self) htotal hdesc.1 hbytes.1 (by omega) (by omega) hsmall
    rw [hchain, List.takeWhile_cons]
    cases hread : indexRead t with
    | true =>
      rw [hread, if_pos rfl] at hdelivers
      rw [if_pos rfl, if_pos rfl, List.flatMap_cons]
      exact hdelivers.trans (ih (fun t' ht' => hts t' (List.mem_cons_of_mem _ ht')) (by omega) hdesc.2
        hbytes.2 (by omega) (by omega))
    | false =>
      rw [hread, if_neg Bool.false_ne_true] at hdelivers
      rw [if_neg Bool.false_ne_true, if_neg Bool.false_ne_true]
      exact hdelivers

/-- Between the two marks stands what has been delivered. -/
theorem emits_of_delivers {es : List Entry} {out' : Streams}
    (h : Delivers ⟨[signalMark], []⟩ out' es) : Emits (out'.writeKm maxMark) es := by
  obtain ⟨hkm, slices, hvalue, hcarries⟩ := h
  refine ⟨?_, ?_⟩
  · rw [Streams.writeKm, hkm]
    rfl
  · rw [Streams.writeKm, hvalue]
    exact hcarries

theorem buildCsdSlotB_of_files {files : List Bytes} (hne : files ≠ [])
    (hcount : files.length ≤ kCsdMaxChainFiles) :
    (buildCsdSlotB files).fileSize = 8 + 16 * files.length + files.flatten.length ∧
      (buildCsdSlotB files).bytes = putFixed 8 files.length ++
        descriptors (8 + 16 * files.length) files ++ files.flatten := by
  have hbad : ¬ (files = [] ∨ files.length > kCsdMaxChainFiles) := by
    rintro (hnil | hmany)
    · exact hne hnil
    · exact Nat.not_lt.mpr hcount hmany
  rw [buildCsdSlotB, if_neg hbad]
  exact ⟨rfl, rfl⟩

/-- The reader on the slot of a chain. -/
theorem decoderSst_chain (hts : ∀ t ∈ ts, Accepted t) (hne : ts ≠ [])
    (hcount : ts.length ≤ kCsdMaxChainFiles)
    (hsmall : (buildCsdSlotB (ts.map Layout.bytes)).fileSize < 2 ^ 64)
    (hbuf : Holds buf 0 (buildCsdSlotB (ts.map Layout.bytes)).bytes) :
    Emits (decoderSst buf (buildCsdSlotB (ts.map Layout.bytes)).fileSize)
      ((ts.takeWhile indexRead).flatMap Layout.entries) := by
  have hmax : kCsdMaxChainFiles = 64 := rfl
  obtain ⟨hsize, hslot⟩ := @buildCsdSlotB_of_files (ts.map Layout.bytes) (by simpa using hne)
    (by rwa [List.length_map])
  have hflat : (ts.map Layout.bytes).flatten = ts.flatMap Layout.bytes := rfl
  rw [List.length_map, hflat] at hsize hslot
  rw [hslot, holds_append, holds_append, List.length_append, length_putFixed, length_descriptors,
    List.length_map] at hbuf
  obtain ⟨⟨hnumber, hdesc⟩, hbytes⟩ := hbuf
  have hK : loadFixed buf 8 0 = ts.length := hnumber.loadFixed (by omega)
  rw [hsize] at hsmall
  rw [hsize, decoderSst]
  have hchain : ts.length ≤ ZF_SST_CHAIN_MAX_FILES := hcount
  rw [if_pos (Nat.le_add_right_of_le (Nat.le_add_right 8 _)), hK, if_pos hchain]
  rw [Nat.zero_add] at hdesc hbytes
  exact emits_of_delivers (decodeChain_spec hts (by omega) hdesc hbytes (by omega) (by omega) hsmall)

end ZeroFlush.DeviceChains
