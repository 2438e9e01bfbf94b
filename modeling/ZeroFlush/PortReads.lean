import ZeroFlush.FrameDecoder
import ZeroFlush.DeviceChains

/-! # The words that the port decoders read

A load of four bytes reads the word behind them as well, a window is loaded whole, and the reader of a
chain asks for some bytes before it has compared where they end. -/
namespace ZeroFlush.PortReads
open FixedWidthCodec ByteMemory Varints SortKeys WalFormat PrefixCompression BlockTables DeviceStreams
  SstDecoder CsdSlots SealedTables FrameDecoder DeviceChains EncoderRuns

/-- `CSD_ALIGN_TO_4K`. -/
def csdAlignTo4K (n : ℕ) : ℕ := (n + 4095) / 4096 * 4096

/-- The bytes of the buffer that `RunAb` fills for a port. -/
def bufferSize (slot : ZfCsdSlot) : ℕ := max (csdAlignTo4K slot.bytes.length) 4096

/-- Words of four bytes in a buffer of so many bytes. -/
def Inside (cap : ℕ) (ws : List ℕ) : Prop := ∀ w ∈ ws, w < cap / 4

def words32 (off : ℕ) : List ℕ := [off / 4, off / 4 + 1]

def words64 (off : ℕ) : List ℕ := words32 off ++ words32 (off + 4)

def words128 (addr : ℕ) : List ℕ := words64 addr ++ words64 (addr + 8)

def wordsOfBytes (off stop : ℕ) : List ℕ := (List.range' off (stop - off)).map (· / 4)

/-- What the reader of a chain asks the buffer for. A footer is read back from where it stops: the
magic number, the version and the type of the checksum. -/
inductive SstRead
  | bytes (off stop : ℕ)
  | word (off : ℕ)
  | double (off : ℕ)
  | value (vstart vl : ℕ)
  | footer (stop : ℕ)
  | suffix (off stop : ℕ)

def SstRead.words : SstRead → List ℕ
  | .bytes off stop => wordsOfBytes off stop
  | .word off => words32 off
  | .double off => words64 off
  | .value vstart vl =>
    (List.range 64).flatMap fun w => if w * 16 < vl then words128 (vstart + w * 16) else []
  | .footer stop => words64 (stop - 8) ++ words32 (stop - 12) ++ [(stop - 53) / 4]
  | .suffix off stop => wordsOfBytes off stop

/-- The footer stops before the buffer does, and the suffix of a key does not run over its end. -/
def SstRead.Room (cap : ℕ) : SstRead → Prop
  | .footer stop => stop < cap
  | .suffix _ stop => stop ≤ cap
  | _ => True

/-- The reads of `decodeRecords`. The suffix of a key is read before the end of the block is looked
at. -/
def recordReads (buf : Memory) (dEnd dcur : ℕ) : List SstRead :=
  if dcur < dEnd then
    let sh := rdVarint32 buf dcur
    let us := rdVarint32 buf sh.2
    let vl := rdVarint32 buf us.2
    .bytes dcur vl.2 ::
    if us.1 = 0 ∨ sh.1 + us.1 ≠ KEY_LENGTH ∨ KEY_LENGTH < sh.1 then []
    else if VALUE_LENGTH < vl.1 then []
    else
      let vstart := vl.2 + us.1
      .suffix vl.2 vstart ::
      if dEnd < vstart + vl.1 then []
      else .value vstart vl.1 :: recordReads buf dEnd (vstart + vl.1)
  else []
termination_by dEnd - dcur
decreasing_by
  have h1 := lt_rdVarint32 buf dcur
  have h2 := lt_rdVarint32 buf (rdVarint32 buf dcur).2
  have h3 := lt_rdVarint32 buf (rdVarint32 buf (rdVarint32 buf dcur).2).2
  omega

/-- The reads of `decodeBlocks`. -/
def blockReads (buf : Memory) (FB fsz iEnd icur entryCnt : ℕ) (out : Streams) : List SstRead :=
  if icur < iEnd then
    let sh := rdVarint32 buf icur
    let us := rdVarint32 buf sh.2
    let vl := rdVarint32 buf us.2
    .bytes icur vl.2 ::
    if us.1 = 0 ∨ KEY_LENGTH < sh.1 + us.1 ∨ iEnd < vl.2 + us.1 then []
    else if vl.1 = 0 ∨ 24 < vl.1 ∨ iEnd < vl.2 + us.1 + vl.1 then []
    else
      let doff := rdVarint64 buf (vl.2 + us.1)
      let dsz := rdVarint64 buf doff.2
      .bytes (vl.2 + us.1) dsz.2 ::
      if dsz.2 - (vl.2 + us.1) ≠ vl.1 then []
      else if fsz < doff.1 + dsz.1 + 5 ∨ dsz.1 < 4 then []
      else
        let DB := FB + doff.1
        let dNr := loadFixed buf 4 (DB + dsz.1 - 4)
        .word (DB + dsz.1 - 4) ::
        if 4096 < dNr ∨ dsz.1 < dNr * 4 + 4 then []
        else
          let dEnd := DB + dsz.1 - (dNr * 4 + 4)
          let block := decodeRecords buf dEnd DB (List.replicate KEY_LENGTH 0) out
          recordReads buf dEnd DB ++
          if block.2 = false ∨ 100000 < entryCnt + 1 then []
          else blockReads buf FB fsz iEnd (vl.2 + us.1 + vl.1) (entryCnt + 1) block.1
  else []
termination_by iEnd - icur
decreasing_by
  have h1 := lt_rdVarint32 buf icur
  have h2 := lt_rdVarint32 buf (rdVarint32 buf icur).2
  have h3 := lt_rdVarint32 buf (rdVarint32 buf (rdVarint32 buf icur).2).2
  omega

/-- The reads of `decodeFile`. -/
def fileReads (buf : Memory) (foff fsz : ℕ) (out : Streams) : List SstRead :=
  let FE := foff + fsz
  if fsz < 53 then []
  else
    .footer FE ::
    if loadFixed buf 8 (FE - 8) ≠ kBlockBasedTableMagicNumber then []
    else if loadFixed buf 4 (FE - 12) ≠ 2 then []
    else if buf (FE - 53) ≠ 0 ∧ buf (FE - 53) ≠ 1 then []
    else
      let metaOff := rdVarint64 buf (FE - 52)
      let metaSz := rdVarint64 buf metaOff.2
      let idxOff := rdVarint64 buf metaSz.2
      let idxSz := rdVarint64 buf idxOff.2
      .bytes (FE - 52) idxSz.2 ::
      if fsz < idxOff.1 + idxSz.1 ∨ idxSz.1 < 4 then []
      else
        let IDX := foff + idxOff.1
        let iNr := loadFixed buf 4 (IDX + idxSz.1 - 4)
        .word (IDX + idxSz.1 - 4) ::
        if 4096 < iNr ∨ idxSz.1 < iNr * 4 + 4 then []
        else blockReads buf foff fsz (IDX + idxSz.1 - (iNr * 4 + 4)) IDX 0 out

/-- The reads of `decodeChain`. -/
def chainReads (buf : Memory) (chainBytes : ℕ) : ℕ → ℕ → Streams → List SstRead
  | 0, _, _ => []
  | k + 1, desc, out =>
    if chainBytes < desc + 16 then []
    else
      let foff := loadFixed buf 8 desc
      let fsz := loadFixed buf 8 (desc + 8)
      [.double desc, .double (desc + 8)] ++
      if fsz = 0 then chainReads buf chainBytes k (desc + 16) out
      else if foff < 8 ∨ chainBytes < foff + fsz then []
      else
        let file := decodeFile buf foff fsz out
        fileReads buf foff fsz out ++
        if file.2 then chainReads buf chainBytes k (desc + 16) file.1 else []

/-- The reads of `decoderSst`. -/
def sstReads (buf : Memory) (fileSize : ℕ) : List SstRead :=
  let K := if 8 ≤ fileSize then loadFixed buf 8 0 else 0
  (if 8 ≤ fileSize then [.double 0] else []) ++
    if K ≤ ZF_SST_CHAIN_MAX_FILES then chainReads buf fileSize K 8 ⟨[signalMark], []⟩ else []

/-- `decode_port`: the words that it reads and what it sends. -/
def decodePort (buf : Memory) (slot : ZfCsdSlot) : List ℕ × Streams :=
  if slot.kind = 1 then
    ((sstReads buf (slot.fileSize % 2 ^ 40)).flatMap SstRead.words,
      decoderSst buf (slot.fileSize % 2 ^ 40))
  else
    let run := decoder buf (slot.kv % 2 ^ 32) (slot.fileSize % 2 ^ 40)
    (run.1.words, run.2)

/-- The first and the last thing sent are the two marks, and no word behind the buffer is read. -/
def ReadsInside (buf : Memory) (slot : ZfCsdSlot) : Prop :=
  (decodePort buf slot).2.km.head? = some signalMark ∧
    (decodePort buf slot).2.km.getLast? = some maxMark ∧
    Inside (bufferSize slot) (decodePort buf slot).1

variable {buf : Memory} {cap off stop addr : ℕ} {ws ws' : List ℕ} {p : Port}

/-! ## Words inside a buffer -/

theorem inside_append : Inside cap (ws ++ ws') ↔ Inside cap ws ∧ Inside cap ws' :=
  List.forall_mem_append

theorem inside_words32 (hcap : cap % 1024 = 0) : Inside cap (words32 off) ↔ off + 4 < cap := by
  rw [Inside, words32, List.forall_mem_cons, List.forall_mem_singleton]
  omega

theorem inside_words64 (hcap : cap % 1024 = 0) : Inside cap (words64 off) ↔ off + 8 < cap := by
  rw [words64, inside_append, inside_words32 hcap, inside_words32 hcap]
  omega

theorem inside_words128 (hcap : cap % 1024 = 0) : Inside cap (words128 addr) ↔ addr + 16 < cap := by
  rw [words128, inside_append, inside_words64 hcap, inside_words64 hcap]
  omega

theorem inside_wordsOfBytes (hcap : cap % 1024 = 0) (hlt : off < stop) :
    Inside cap (wordsOfBytes off stop) ↔ stop ≤ cap := by
  rw [Inside, wordsOfBytes, List.forall_mem_map]
  simp only [List.mem_range'_1]
  constructor
  · intro h
    have hlast := h (stop - 1) (by omega)
    omega
  · intro h w hw
    omega

theorem inside_touch : Inside cap (p.touch ws).words ↔ Inside cap p.words ∧ Inside cap ws :=
  inside_append

theorem inside_touchBytes (hcap : cap % 1024 = 0) (hlt : off < stop) :
    Inside cap (p.touchBytes off stop).words ↔ Inside cap p.words ∧ stop ≤ cap :=
  inside_touch.trans (and_congr_right fun _ => inside_wordsOfBytes hcap hlt)

theorem inside_ldU32 (hcap : cap % 1024 = 0) :
    Inside cap (ldU32 buf p off).2.words ↔ Inside cap p.words ∧ off + 4 < cap :=
  inside_touch.trans (and_congr_right fun _ => inside_words32 hcap)

theorem inside_rdU64 (hcap : cap % 1024 = 0) :
    Inside cap (rdU64 buf p off).2.words ↔ Inside cap p.words ∧ off + 8 < cap := by
  rw [rdU64, inside_ldU32 hcap, inside_ldU32 hcap, and_assoc]
  apply and_congr_right
  intro _
  omega

theorem inside_rd16 (hcap : cap % 1024 = 0) :
    Inside cap (rd16 buf p addr).2.words ↔ Inside cap p.words ∧ addr + 16 < cap := by
  rw [rd16, inside_ldU32 hcap, inside_ldU32 hcap, inside_ldU32 hcap, inside_ldU32 hcap]
  simp only [and_assoc]
  apply and_congr_right
  intro _
  omega

/-! ## Frames -/

/-- A window around an address of the buffer ends where the buffer does or before. -/
theorem inside_zfwinEnsure (hcap : cap % 1024 = 0) (haddr : addr < cap) :
    Inside cap (zfwinEnsure buf p addr).words ↔ Inside cap p.words := by
  rw [zfwinEnsure]
  split
  · rw [zfwinLoad, inside_append]
    apply and_iff_left
    intro w hw
    rw [List.mem_range'_1] at hw
    omega
  · exact Iff.rfl

theorem inside_zfwinBytes (hcap : cap % 1024 = 0) {n : ℕ} (haddr : addr + n ≤ cap) :
    Inside cap (zfwinBytes buf n p addr).2.words ↔ Inside cap p.words := by
  induction n generalizing p addr with
  | zero => exact Iff.rfl
  | succ n ih => exact (ih (by omega)).trans (inside_zfwinEnsure hcap (by omega))

theorem inside_zfwinU32 (hcap : cap % 1024 = 0) (haddr : addr + 4 ≤ cap) :
    Inside cap (zfwinU32 buf p addr).2.words ↔ Inside cap p.words :=
  inside_zfwinBytes hcap haddr

theorem inside_rdValueWords (hcap : cap % 1024 = 0) {vbase valLen : ℕ} (hvalue : vbase + valLen + 15 ≤ cap)
    (w k : ℕ) : Inside cap (rdValueWords buf vbase valLen w k p).2.words ↔ Inside cap p.words := by
  induction k generalizing p w with
  | zero => exact Iff.rfl
  | succ k ih =>
    rw [rdValueWords]
    apply (ih (w + 1)).trans
    split
    · exact inside_zfwinBytes hcap (by omega)
    · exact Iff.rfl

variable {part gen recAddr cursor : ℕ} {ik value : Bytes} {key : Keystring} {out : Streams}

theorem inside_decodeFrame (hcap : cap % 1024 = 0) (hport : p.Mirrors buf)
    (h : Holds buf recAddr (slotFrame part ik value)) (hik : ik.length = 32)
    (hvalue : value.length ≤ VALUE_LENGTH) (hroom : recAddr + 63 + value.length ≤ cap) :
    Inside cap (decodeFrame buf p key recAddr out).1.words ↔ Inside cap p.words := by
  obtain ⟨hkeyLen, hvalLen, -⟩ := holds_slotFrame h hik hvalue
  obtain ⟨hk, hport⟩ := zfwinU32_spec hport (recAddr + 8)
  obtain ⟨hv, -⟩ := zfwinU32_spec hport (recAddr + 12)
  rw [decodeFrame]
  dsimp only
  rw [hk, hv, hkeyLen, hvalLen, inside_rdValueWords hcap (by omega), inside_zfwinU32 hcap (by omega),
    inside_zfwinU32 hcap (by omega)]

/-- The last load of an entry is that of the word behind its offset. -/
theorem inside_readSlim (hcap : cap % 1024 = 0)
    (h : Holds buf cursor (slimEntry part gen recAddr ik)) (hik : ik.length = 32)
    (haddr : recAddr < 2 ^ 64) :
    Inside cap (readSlim buf p cursor).port.words ↔ Inside cap p.words ∧ cursor + 50 < cap := by
  obtain ⟨h32, -, h16, -⟩ := holds_slimEntry h hik haddr
  have hcount : (32 % 256 + 15) / 16 % 4 = 2 := rfl
  simp only [readSlim, portVarint32, h32, hcount, h16, rdKeyWords]
  rw [inside_rdU64 hcap, inside_touchBytes hcap (by omega), inside_rd16 hcap, inside_rd16 hcap,
    inside_touchBytes hcap (by omega)]
  simp only [and_assoc]
  apply and_congr_right
  intro _
  omega

theorem inside_decodeEntry {d : Decoding} (hcap : cap % 1024 = 0) (hport : d.port.Mirrors buf)
    (hslim : Holds buf d.slimCursor (slimEntry part gen recAddr ik))
    (hframe : Holds buf recAddr (slotFrame part ik value)) (hik : ik.length = 32)
    (hvalue : value.length ≤ VALUE_LENGTH) (haddr : recAddr < 2 ^ 64)
    (hroom : recAddr + 63 + value.length ≤ cap) :
    Inside cap (decodeEntry buf d).port.words ↔
      Inside cap d.port.words ∧ d.slimCursor + 50 < cap := by
  obtain ⟨-, hoffset, -, hp⟩ := readSlim_spec hport hslim hik haddr
  rw [decodeEntry]
  dsimp only
  rw [hoffset, inside_decodeFrame hcap hp hframe hik hvalue hroom,
    inside_readSlim hcap hslim hik haddr]

/-- All the entries are read inside the buffer unless the last of them ends where the buffer does. -/
theorem inside_decodeEntries {rs : List (Bytes × Bytes)} {d : Decoding} (hcap : cap % 1024 = 0)
    (hport : d.port.Mirrors buf)
    (hslim : Holds buf d.slimCursor (slimEntries part gen off rs))
    (hframes : Holds buf off (rs.flatMap fun r => slotFrame part r.1 r.2))
    (hrs : ∀ r ∈ rs, r.1.length = 32 ∧ r.2.length ≤ VALUE_LENGTH)
    (haddr : off + (rs.flatMap fun r => slotFrame part r.1 r.2).length < 2 ^ 64)
    (hroom : off + (rs.flatMap fun r => slotFrame part r.1 r.2).length + 11 ≤ cap) :
    Inside cap (decodeEntries buf rs.length d).port.words ↔
      Inside cap d.port.words ∧ (rs ≠ [] → d.slimCursor + 50 * rs.length < cap) := by
  have hV : VALUE_LENGTH = 1024 := rfl
  induction rs generalizing d off with
  | nil => simp [decodeEntries]
  | cons r rs ih =>
    obtain ⟨hik, hvalue⟩ := hrs r List.mem_cons_self
    rw [slimEntries, holds_append, length_slimEntry hik] at hslim
    rw [List.flatMap_cons, holds_append, length_slotFrame hik] at hframes
    rw [List.flatMap_cons, List.length_append, length_slotFrame hik] at haddr hroom
    have hnext : zfRecordLength 24 r.2.length = 52 + r.2.length := by
      simp only [zfRecordLength, kZfHeaderSize, kZfCrcSize]
      omega
    rw [hnext] at hslim
    obtain ⟨hleft, hbehind, -⟩ := decodeEntry_spec hport hslim.1 hframes.1 hik hvalue (by omega)
    have hrest := ih hleft (by rw [hbehind]; exact hslim.2) hframes.2
      (fun r' hr' => hrs r' (List.mem_cons_of_mem _ hr')) (by omega) (by omega)
    rw [List.length_cons, decodeEntries]
    apply hrest.trans
    rw [hbehind,
      inside_decodeEntry hcap hport hslim.1 hframes.1 hik hvalue (by omega) (by omega), and_assoc]
    apply and_congr_right
    intro _
    cases rs with
    | nil => simp
    | cons r' rs =>
      simp only [ne_eq, reduceCtorEq, not_false_eq_true, forall_const, List.length_cons]
      omega

/-! ## The buffer of a slot -/

theorem bufferSize_mod (slot : ZfCsdSlot) : bufferSize slot % 1024 = 0 := by
  rw [bufferSize, csdAlignTo4K]
  omega

theorem length_le_bufferSize (slot : ZfCsdSlot) : slot.bytes.length ≤ bufferSize slot := by
  rw [bufferSize, csdAlignTo4K]
  omega

theorem length_lt_bufferSize_iff (slot : ZfCsdSlot) (h : 0 < slot.bytes.length) :
    slot.bytes.length < bufferSize slot ↔ slot.bytes.length % 4096 ≠ 0 := by
  rw [bufferSize, csdAlignTo4K]
  omega

theorem length_slimEntries {rs : List (Bytes × Bytes)} (hrs : ∀ r ∈ rs, r.1.length = 32)
    (part gen off : ℕ) : (slimEntries part gen off rs).length = 50 * rs.length := by
  induction rs generalizing off with
  | nil => rfl
  | cons r rs ih =>
    rw [slimEntries, List.length_append, length_slimEntry (hrs r List.mem_cons_self),
      ih (fun r' hr' => hrs r' (List.mem_cons_of_mem _ hr')), List.length_cons]
    omega

theorem length_le_recordsSize (es : List Entry) : 52 * es.length ≤ recordsSize es := by
  induction es with
  | nil => exact Nat.le_refl 0
  | cons e es ih =>
    have hsum : recordsSize (e :: es) = 52 + e.value.length + recordsSize es := List.sum_cons
    rw [hsum, List.length_cons]
    omega

variable {keys values : List Bytes} {slot : ZfCsdSlot × ℕ}

theorem kind_slotA (h : buildCsdSlotAFromSorted part gen keys values = some slot) :
    slot.1.kind = 0 := by
  rw [buildCsdSlotAFromSorted] at h
  split at h
  · cases h
  split at h
  · cases h
  dsimp only at h
  split at h
  · cases h
  cases h
  rfl

theorem inside_slotA (h : buildCsdSlotAFromSorted part gen keys values = some slot)
    (hbuf : Holds buf 0 slot.1.bytes) :
    Inside (bufferSize slot.1) (decodePort buf slot.1).1 ↔ slot.1.bytes.length % 4096 ≠ 0 := by
  have hmax : kCsdMaxStagedBytes = 67108864 := rfl
  obtain ⟨hlen, hne, hfits, hsize⟩ := records_of_slotA h
  obtain ⟨hkv, hfile, hbytes⟩ := slotA_eq h
  have hrs : ∀ r ∈ keys.zip values, r.1.length = 32 ∧ r.2.length ≤ VALUE_LENGTH :=
    fun r hr => hfits ⟨r.1, r.2⟩ (List.mem_map_of_mem hr)
  have hcount : (keys.zip values).length = keys.length := by
    rw [List.length_zip, ← hlen, Nat.min_self]
  have hlong := length_lt_bufferSize_iff slot.1
  have hcap := length_le_bufferSize slot.1
  have hik : ∀ r ∈ keys.zip values, r.1.length = 32 := fun r hr => (hrs r hr).1
  have hframes := length_frames hik part
  rw [← records] at hframes
  have hslim := length_slimEntries hik part gen 0
  have hpos : 0 < keys.length := List.length_pos_of_ne_nil hne
  have hmany := length_le_recordsSize (records keys values)
  rw [records, List.length_map, hcount, ← records] at hmany
  rw [hbytes, List.length_append, hframes, hslim, hcount] at hlong hcap
  rw [hframes] at hfile
  rw [hbytes, holds_append, Nat.zero_add, hframes] at hbuf
  have hkind : slot.1.kind ≠ 1 := by
    rw [kind_slotA h]
    exact Nat.zero_ne_one
  have hrun := inside_decodeEntries (d := ⟨{}, slot.1.fileSize, ⟨[signalMark], []⟩⟩)
    (bufferSize_mod slot.1) (mirrors_empty buf) (by rw [hfile]; exact hbuf.2) hbuf.1 hrs
    (by rw [hframes]; omega) (by rw [hframes]; omega)
  have hsome : keys.zip values ≠ [] := List.ne_nil_of_length_pos (by omega)
  have hfresh : Inside (bufferSize slot.1) ({} : Port).words := List.forall_mem_nil _
  rw [decodePort, if_neg hkind, Nat.mod_eq_of_lt (by omega), Nat.mod_eq_of_lt (by omega), decoder,
    if_neg (by omega)]
  dsimp only
  rw [hkv, ← hcount, hrun, and_iff_right hfresh, forall_prop_of_true hsome, hbytes,
    List.length_append, hframes, hslim, hcount, hfile]
  exact hlong (by omega)

/-! ## The marks -/

theorem km_writeRecord (out : Streams) (km : KeyMeta) (window : Bytes) :
    out.km <+: (out.writeRecord km window).km := List.prefix_append _ _

theorem km_decodeEntries (buf : Memory) (k : ℕ) (d : Decoding) :
    d.out.km <+: (decodeEntries buf k d).out.km := by
  induction k generalizing d with
  | zero => exact List.prefix_refl _
  | succ k ih => exact (km_writeRecord d.out _ _).trans (ih (decodeEntry buf d))

theorem km_decodeRecords (buf : Memory) (dEnd dcur : ℕ) (runkey : Bytes) (out : Streams) :
    out.km <+: (decodeRecords buf dEnd dcur runkey out).1.km := by
  fun_induction decodeRecords buf dEnd dcur runkey out with
  | case4 dcur runkey out hmore sh us vl hkey hvalue nk vstart hend ih =>
    exact (km_writeRecord out _ _).trans ih
  | _ => exact List.prefix_refl _

theorem km_decodeBlocks (buf : Memory) (FB fsz iEnd icur entryCnt : ℕ) (out : Streams) :
    out.km <+: (decodeBlocks buf FB fsz iEnd icur entryCnt out).1.km := by
  fun_induction decodeBlocks buf FB fsz iEnd icur entryCnt out with
  | case6 => exact km_decodeRecords _ _ _ _ _
  | case7 =>
    rename_i ih
    exact (km_decodeRecords _ _ _ _ _).trans ih
  | _ => exact List.prefix_refl _

theorem km_decodeFile (buf : Memory) (foff fsz : ℕ) (out : Streams) :
    out.km <+: (decodeFile buf foff fsz out).1.km := by
  fun_cases decodeFile buf foff fsz out with
  | case7 => exact km_decodeBlocks _ _ _ _ _ _ _
  | _ => exact List.prefix_refl _

theorem km_decodeChain (buf : Memory) (chainBytes k desc : ℕ) (out : Streams) :
    out.km <+: (decodeChain buf chainBytes k desc out).km := by
  induction k generalizing desc out with
  | zero => exact List.prefix_refl _
  | succ k ih =>
    rw [decodeChain]
    split
    · exact List.prefix_refl _
    dsimp only
    split
    · exact ih _ _
    split
    · exact List.prefix_refl _
    split
    · exact (km_decodeFile _ _ _ _).trans (ih _ _)
    · exact km_decodeFile _ _ _ _

/-- What starts with the one mark ends with the other. -/
theorem marks_of_started {out : Streams} (h : [signalMark] <+: out.km) :
    (out.writeKm maxMark).km.head? = some signalMark ∧
      (out.writeKm maxMark).km.getLast? = some maxMark := by
  obtain ⟨kms, hkms⟩ := h
  rw [Streams.writeKm, ← hkms]
  exact ⟨rfl, List.getLast?_concat⟩

theorem marks_decoderSst (buf : Memory) (fileSize : ℕ) :
    (decoderSst buf fileSize).km.head? = some signalMark ∧
      (decoderSst buf fileSize).km.getLast? = some maxMark := by
  have hchain : ∀ k : ℕ, [signalMark] <+: (decodeChain buf fileSize k 8 ⟨[signalMark], []⟩).km :=
    fun k => km_decodeChain buf fileSize k 8 ⟨[signalMark], []⟩
  rw [decoderSst]
  apply marks_of_started
  generalize (if 8 ≤ fileSize then loadFixed buf 8 0 else 0) = K
  split
  · apply hchain
  · exact List.prefix_refl _

theorem marks_decoder (buf : Memory) (kvSum fileSize : ℕ) :
    (decoder buf kvSum fileSize).2.km.head? = some signalMark ∧
      (decoder buf kvSum fileSize).2.km.getLast? = some maxMark := by
  rw [decoder]
  dsimp only
  split
  · exact marks_of_started (List.prefix_refl _)
  · exact marks_of_started (km_decodeEntries buf _ ⟨{}, _, ⟨[signalMark], []⟩⟩)

theorem marks_decodePort (buf : Memory) (slot : ZfCsdSlot) :
    (decodePort buf slot).2.km.head? = some signalMark ∧
      (decodePort buf slot).2.km.getLast? = some maxMark := by
  rw [decodePort]
  split
  · exact marks_decoderSst buf _
  · exact marks_decoder buf _ _

theorem readsInside_iff_decodePort {slot : ZfCsdSlot} :
    ReadsInside buf slot ↔ Inside (bufferSize slot) (decodePort buf slot).1 :=
  ⟨fun h => h.2.2, fun h => ⟨(marks_decodePort buf slot).1, (marks_decodePort buf slot).2, h⟩⟩

/-! ## Files of a chain -/

variable {FB fsz iEnd icur entryCnt dEnd dcur q vstart vl n : ℕ} {r : SstRead}

theorem SstRead.Room.mono {cap' : ℕ} (h : r.Room cap) (hle : cap ≤ cap') : r.Room cap' := by
  cases r with
  | footer stop => exact h.trans_le hle
  | suffix off stop => exact h.trans hle
  | _ => trivial

theorem inside_value (hcap : cap % 1024 = 0) (h : vstart + vl + 15 < cap) :
    Inside cap (SstRead.value vstart vl).words := by
  intro w hw
  rw [SstRead.words, List.mem_flatMap] at hw
  obtain ⟨k, -, hw⟩ := hw
  split at hw
  · exact (inside_words128 hcap).mpr (by omega) w hw
  · nomatch hw

/-- The reads of a block are inside with the suffixes of its keys, and these end soon behind it. -/
theorem inside_recordReads (hcap : cap % 1024 = 0) (hend : dEnd + 16 ≤ cap) (buf : Memory) (dcur : ℕ) :
    ∀ r ∈ recordReads buf dEnd dcur,
      (Inside cap r.words ↔ r.Room cap) ∧ r.Room (dEnd + 46) := by
  have hK : KEY_LENGTH = 32 := rfl
  induction hn : dEnd - dcur using Nat.strong_induction_on generalizing dcur with
  | h n ih =>
  rw [recordReads]
  split
  · next hmore =>
    have h1 := lt_rdVarint32 buf dcur
    have h2 := lt_rdVarint32 buf (rdVarint32 buf dcur).2
    have h3 := lt_rdVarint32 buf (rdVarint32 buf (rdVarint32 buf dcur).2).2
    have h4 := rdVarint32_le buf dcur
    have h5 := rdVarint32_le buf (rdVarint32 buf dcur).2
    have h6 := rdVarint32_le buf (rdVarint32 buf (rdVarint32 buf dcur).2).2
    dsimp only
    generalize rdVarint32 buf dcur = sh at *
    generalize rdVarint32 buf sh.2 = us at *
    generalize rdVarint32 buf us.2 = vl at *
    rw [List.forall_mem_cons]
    refine ⟨⟨iff_of_true ((inside_wordsOfBytes hcap (by omega)).mpr (by omega)) trivial, trivial⟩, ?_⟩
    split
    · exact List.forall_mem_nil _
    split
    · exact List.forall_mem_nil _
    next hkey _ =>
    rw [List.forall_mem_cons]
    refine ⟨⟨inside_wordsOfBytes hcap (by omega), ?_⟩, ?_⟩
    · change vl.2 + us.1 ≤ dEnd + 46
      omega
    split
    · exact List.forall_mem_nil _
    · rw [List.forall_mem_cons]
      refine ⟨⟨iff_of_true (inside_value hcap (by omega)) trivial, trivial⟩, ?_⟩
      exact ih _ (by omega) _ rfl
  · exact List.forall_mem_nil _

/-- The version and the magic number of a footer stand in the twelve bytes before its end. -/
structure FooterEnd (buf : Memory) (q : ℕ) : Prop where
  version : loadFixed buf 4 q = 2
  magic : loadFixed buf 8 (q + 4) = kBlockBasedTableMagicNumber

theorem loadFixed_four (buf : Memory) (off : ℕ) : loadFixed buf 4 off = (buf off).toNat +
    256 * (buf (off + 1)).toNat + 65536 * (buf (off + 2)).toNat + 16777216 * (buf (off + 3)).toNat := by
  simp only [loadFixed, load, decodeFixed, Nat.add_assoc, Nat.reduceAdd]
  omega

theorem FooterEnd.version_bytes (h : FooterEnd buf q) :
    (buf q).toNat = 2 ∧ (buf (q + 1)).toNat = 0 := by
  have hversion := h.version
  rw [loadFixed_four] at hversion
  omega

theorem FooterEnd.magic_byte (h : FooterEnd buf q) {i : ℕ} (hi : i < 8) :
    0 < (buf (q + 4 + i)).toNat := by
  have hbytes : load buf (q + 4) 8 = putFixed 8 kBlockBasedTableMagicNumber := by
    rw [← h.magic, putFixed_loadFixed]
  have hall : ∀ b ∈ putFixed 8 kBlockBasedTableMagicNumber, 0 < b.toNat := by decide +kernel
  apply hall
  rw [← hbytes]
  exact List.mem_of_getElem? (getElem?_load buf (q + 4) hi)

/-- Restarts whose number is read from the footer's end leave no room for it: what stands before them
ends well before the footer does. -/
theorem FooterEnd.restarts_le (h : FooterEnd buf q) (off : ℕ) (hoff : off + 4 ≤ q + 12)
    (hnr : loadFixed buf 4 off ≤ 4096) : off + 4 ≤ q + 4 * loadFixed buf 4 off := by
  obtain ⟨h0, h1⟩ := h.version_bytes
  have hmagic : ∀ i, i < 8 → 0 < (buf (q + 4 + i)).toNat := fun i hi => h.magic_byte hi
  rw [loadFixed_four] at hnr ⊢
  by_cases hbefore : off + 4 ≤ q
  · omega
  by_cases hbehind : q < off
  · have htop := hmagic (off - q - 1) (by omega)
    have heq : q + 4 + (off - q - 1) = off + 3 := by omega
    rw [heq] at htop
    omega
  obtain hoff | hoff | hoff | hoff : off = q ∨ off + 1 = q ∨ off + 2 = q ∨ off + 3 = q := by omega
  · subst hoff
    omega
  · rw [hoff] at hnr ⊢
    omega
  · rw [hoff] at hnr
    omega
  · rw [hoff] at hnr
    omega

/-- A handle that starts before the footer's end does not run over it. -/
theorem FooterEnd.handle_le (h : FooterEnd buf q) (off : ℕ) (hoff : off ≤ q) :
    (rdVarint64 buf (rdVarint64 buf off).2).2 ≤ q + 2 := by
  obtain ⟨h0, h1⟩ := h.version_bytes
  have hfirst : (rdVarint64 buf off).2 ≤ q + 1 := snd_readGroups_le_of_lt (by omega) hoff 10
  exact snd_readGroups_le_of_lt (by omega) hfirst 10

theorem inside_blockReads (hcap : cap % 1024 = 0) (h : FooterEnd buf q) (hFE : FB + fsz = q + 12)
    (hroom : q + 12 ≤ cap) (hend : iEnd + 4 ≤ q) (icur entryCnt : ℕ) (out : Streams) :
    ∀ r ∈ blockReads buf FB fsz iEnd icur entryCnt out,
      (Inside cap r.words ↔ r.Room cap) ∧ r.Room (q + 42) := by
  have hK : KEY_LENGTH = 32 := rfl
  induction hn : iEnd - icur using Nat.strong_induction_on generalizing icur entryCnt out with
  | h n ih =>
  rw [blockReads]
  split
  · next hmore =>
    have h1 := lt_rdVarint32 buf icur
    have h2 := lt_rdVarint32 buf (rdVarint32 buf icur).2
    have h3 := lt_rdVarint32 buf (rdVarint32 buf (rdVarint32 buf icur).2).2
    have h4 := rdVarint32_le buf icur
    have h5 := rdVarint32_le buf (rdVarint32 buf icur).2
    have h6 := rdVarint32_le buf (rdVarint32 buf (rdVarint32 buf icur).2).2
    dsimp only
    generalize rdVarint32 buf icur = sh at *
    generalize rdVarint32 buf sh.2 = us at *
    generalize rdVarint32 buf us.2 = vl at *
    rw [List.forall_mem_cons]
    refine ⟨⟨iff_of_true ((inside_wordsOfBytes hcap (by omega)).mpr (by omega)) trivial, trivial⟩, ?_⟩
    split
    · exact List.forall_mem_nil _
    split
    · exact List.forall_mem_nil _
    have h7 := lt_rdVarint64 buf (vl.2 + us.1)
    have h8 := lt_rdVarint64 buf (rdVarint64 buf (vl.2 + us.1)).2
    have h9 := h.handle_le (vl.2 + us.1) (by omega)
    generalize rdVarint64 buf (vl.2 + us.1) = doff at *
    generalize rdVarint64 buf doff.2 = dsz at *
    rw [List.forall_mem_cons]
    refine ⟨⟨iff_of_true ((inside_wordsOfBytes hcap (by omega)).mpr (by omega)) trivial, trivial⟩, ?_⟩
    split
    · exact List.forall_mem_nil _
    split
    · exact List.forall_mem_nil _
    rw [List.forall_mem_cons]
    refine ⟨⟨iff_of_true ((inside_words32 hcap).mpr (by omega)) trivial, trivial⟩, ?_⟩
    split
    · exact List.forall_mem_nil _
    have hstop := h.restarts_le (FB + doff.1 + dsz.1 - 4) (by omega) (by omega)
    generalize loadFixed buf 4 (FB + doff.1 + dsz.1 - 4) = dNr at *
    rw [List.forall_mem_append]
    constructor
    · intro r hr
      obtain ⟨hinside, hlast⟩ := inside_recordReads hcap (by omega) buf _ r hr
      exact ⟨hinside, hlast.mono (by omega)⟩
    split
    · exact List.forall_mem_nil _
    · exact ih _ (by omega) _ _ _ rfl
  · exact List.forall_mem_nil _

variable {foff chainBytes : ℕ} {reads : List SstRead}

theorem inside_footer (hcap : cap % 1024 = 0) (hstop : 53 ≤ stop) :
    Inside cap (SstRead.footer stop).words ↔ stop < cap := by
  rw [SstRead.words, inside_append, inside_append, inside_words64 hcap, inside_words32 hcap, Inside,
    List.forall_mem_singleton]
  omega

/-- A footer that does not end with the buffer lets the file be read. -/
theorem inside_fileReads_of_lt (hcap : cap % 1024 = 0) (hlt : foff + fsz < cap) (buf : Memory)
    (out : Streams) : ∀ r ∈ fileReads buf foff fsz out,
      (Inside cap r.words ↔ r.Room cap) ∧ r.Room (foff + fsz + 30) := by
  rw [fileReads]
  dsimp only
  split
  · exact List.forall_mem_nil _
  rw [List.forall_mem_cons]
  refine ⟨⟨inside_footer hcap (by omega), ?_⟩, ?_⟩
  · change foff + fsz < foff + fsz + 30
    omega
  split
  · exact List.forall_mem_nil _
  next hmagic =>
  split
  · exact List.forall_mem_nil _
  next hversion =>
  split
  · exact List.forall_mem_nil _
  have hfoot : FooterEnd buf (foff + fsz - 12) := by
    refine ⟨not_not.mp hversion, ?_⟩
    have heq : foff + fsz - 12 + 4 = foff + fsz - 8 := by omega
    rw [heq]
    exact not_not.mp hmagic
  have h1 := lt_rdVarint64 buf (foff + fsz - 52)
  have h2 := lt_rdVarint64 buf (rdVarint64 buf (foff + fsz - 52)).2
  have h3 := lt_rdVarint64 buf (rdVarint64 buf (rdVarint64 buf (foff + fsz - 52)).2).2
  have h4 := rdVarint64_le buf (foff + fsz - 52)
  have h5 := rdVarint64_le buf (rdVarint64 buf (foff + fsz - 52)).2
  generalize rdVarint64 buf (foff + fsz - 52) = metaOff at *
  generalize rdVarint64 buf metaOff.2 = metaSz at *
  have h6 := hfoot.handle_le metaSz.2 (by omega)
  have h7 := lt_rdVarint64 buf (rdVarint64 buf metaSz.2).2
  generalize rdVarint64 buf metaSz.2 = idxOff at *
  generalize rdVarint64 buf idxOff.2 = idxSz at *
  rw [List.forall_mem_cons]
  refine ⟨⟨iff_of_true ((inside_wordsOfBytes hcap (by omega)).mpr (by omega)) trivial, trivial⟩, ?_⟩
  split
  · exact List.forall_mem_nil _
  rw [List.forall_mem_cons]
  refine ⟨⟨iff_of_true ((inside_words32 hcap).mpr (by omega)) trivial, trivial⟩, ?_⟩
  split
  · exact List.forall_mem_nil _
  have hstop := hfoot.restarts_le (foff + idxOff.1 + idxSz.1 - 4) (by omega) (by omega)
  generalize loadFixed buf 4 (foff + idxOff.1 + idxSz.1 - 4) = iNr at *
  intro r hr
  obtain ⟨hinside, hlast⟩ := inside_blockReads hcap hfoot (by omega) (by omega) (by omega) _ 0 out r hr
  exact ⟨hinside, hlast.mono (by omega)⟩

/-- So many reads are inside together when the footers and the suffixes among them have room, and none
goes far behind `n`. -/
def Settled (cap n : ℕ) (reads : List SstRead) : Prop :=
  ((∀ r ∈ reads, Inside cap r.words) ↔ ∀ r ∈ reads, r.Room cap) ∧ ∀ r ∈ reads, r.Room (n + 30)

theorem settled_of_forall (h : ∀ r ∈ reads, (Inside cap r.words ↔ r.Room cap) ∧ r.Room (n + 30)) :
    Settled cap n reads :=
  ⟨forall₂_congr fun r hr => (h r hr).1, fun r hr => (h r hr).2⟩

theorem Settled.append {reads' : List SstRead} (h : Settled cap n reads) (h' : Settled cap n reads') :
    Settled cap n (reads ++ reads') := by
  refine ⟨?_, List.forall_mem_append.mpr ⟨h.2, h'.2⟩⟩
  rw [List.forall_mem_append, List.forall_mem_append, h.1, h'.1]

theorem settled_fileReads (hcap : cap % 1024 = 0) (hend : foff + fsz ≤ cap) (hn : foff + fsz ≤ n)
    (buf : Memory) (out : Streams) : Settled cap n (fileReads buf foff fsz out) := by
  rcases Nat.lt_or_eq_of_le hend with hlt | heq
  · apply settled_of_forall
    intro r hr
    obtain ⟨hinside, hlast⟩ := inside_fileReads_of_lt hcap hlt buf out r hr
    exact ⟨hinside, hlast.mono (by omega)⟩
  · constructor
    · by_cases hshort : fsz < 53
      · rw [fileReads, if_pos hshort]
        exact iff_of_true (List.forall_mem_nil _) (List.forall_mem_nil _)
      · have hmem : SstRead.footer (foff + fsz) ∈ fileReads buf foff fsz out := by
          rw [fileReads, if_neg hshort]
          exact List.mem_cons_self
        apply iff_of_false
        · intro h
          have hlt := (inside_footer hcap (by omega)).mp (h _ hmem)
          omega
        · intro h
          have hlt : foff + fsz < cap := h _ hmem
          omega
    · intro r hr
      have hcap' : (cap + 1024) % 1024 = 0 := by omega
      exact (inside_fileReads_of_lt hcap' (by omega) buf out r hr).2.mono (by omega)

theorem settled_nil : Settled cap n [] := settled_of_forall (List.forall_mem_nil _)

theorem settled_chainReads (hcap : cap % 1024 = 0) (hend : chainBytes ≤ cap) (buf : Memory)
    {k desc : ℕ} (hdesc : desc + 16 * k < cap) (out : Streams) :
    Settled cap chainBytes (chainReads buf chainBytes k desc out) := by
  induction k generalizing desc out with
  | zero => exact settled_nil
  | succ k ih =>
    rw [chainReads]
    split
    · exact settled_nil
    apply Settled.append
    · apply settled_of_forall
      rw [List.forall_mem_cons, List.forall_mem_singleton]
      exact ⟨⟨iff_of_true ((inside_words64 hcap).mpr (by omega)) trivial, trivial⟩,
        iff_of_true ((inside_words64 hcap).mpr (by omega)) trivial, trivial⟩
    split
    · exact ih (by omega) out
    split
    · exact settled_nil
    apply (settled_fileReads hcap (by omega) (by omega) buf out).append
    split
    · exact ih (by omega) _
    · exact settled_nil

theorem settled_sstReads (hcap : cap % 1024 = 0) (hlong : 4096 ≤ cap) {fileSize : ℕ}
    (hend : fileSize ≤ cap) (buf : Memory) : Settled cap fileSize (sstReads buf fileSize) := by
  have hmax : ZF_SST_CHAIN_MAX_FILES = 64 := rfl
  rw [sstReads]
  apply Settled.append
  · split
    · apply settled_of_forall
      rw [List.forall_mem_singleton]
      exact ⟨iff_of_true ((inside_words64 hcap).mpr (by omega)) trivial, trivial⟩
    · exact settled_nil
  · generalize (if 8 ≤ fileSize then loadFixed buf 8 0 else 0) = K
    split
    · exact settled_chainReads hcap hend buf (by omega) _
    · exact settled_nil

/-! ## Slots -/

variable {files : List Bytes} {ts : List Layout}

theorem inside_flatMap : Inside cap (reads.flatMap SstRead.words) ↔ ∀ r ∈ reads, Inside cap r.words := by
  constructor
  · intro h r hr w hw
    exact h w (List.mem_flatMap.mpr ⟨r, hr, hw⟩)
  · intro h w hw
    obtain ⟨r, hr, hw⟩ := List.mem_flatMap.mp hw
    exact h r hr w hw

/-- What the reader asks for in the slot of a chain. -/
def slotReads (buf : Memory) (slot : ZfCsdSlot) : List SstRead := sstReads buf (slot.fileSize % 2 ^ 40)

theorem slotB_spec (files : List Bytes) :
    (buildCsdSlotB files).kind = 1 ∧
      (buildCsdSlotB files).fileSize = (buildCsdSlotB files).bytes.length := by
  by_cases hbad : files = [] ∨ files.length > kCsdMaxChainFiles
  · rw [buildCsdSlotB, if_pos hbad]
    exact ⟨rfl, rfl⟩
  · obtain ⟨hne, hmany⟩ := not_or.mp hbad
    obtain ⟨hsize, hbytes⟩ := buildCsdSlotB_of_files hne (Nat.not_lt.mp hmany)
    constructor
    · rw [buildCsdSlotB, if_neg hbad]
    · rw [hsize, hbytes, List.length_append, List.length_append, length_putFixed, length_descriptors]

theorem settled_slotReads (buf : Memory) (files : List Bytes) :
    Settled (bufferSize (buildCsdSlotB files)) (buildCsdSlotB files).bytes.length
      (slotReads buf (buildCsdSlotB files)) := by
  obtain ⟨-, hsize⟩ := slotB_spec files
  have hle := length_le_bufferSize (buildCsdSlotB files)
  have hmod := Nat.mod_le (buildCsdSlotB files).fileSize (2 ^ 40)
  have hsettled := settled_sstReads (bufferSize_mod (buildCsdSlotB files)) (le_max_right _ _)
    (hmod.trans (hsize.le.trans hle)) buf
  exact ⟨hsettled.1, fun r hr => (hsettled.2 r hr).mono (by omega)⟩

theorem readsInside_slotB (buf : Memory) (files : List Bytes) :
    ReadsInside buf (buildCsdSlotB files) ↔ ∀ r ∈ slotReads buf (buildCsdSlotB files),
      r.Room (bufferSize (buildCsdSlotB files)) := by
  rw [readsInside_iff_decodePort, decodePort, if_pos (slotB_spec files).1, inside_flatMap]
  exact (settled_slotReads buf files).1

/-- Thirty bytes behind the chain are enough for files of any content. -/
theorem readsInside_slotB_of_tail (buf : Memory)
    (h : (buildCsdSlotB files).bytes.length + 30 ≤ bufferSize (buildCsdSlotB files)) :
    ReadsInside buf (buildCsdSlotB files) := by
  rw [readsInside_slotB]
  exact fun r hr => ((settled_slotReads buf files).2 r hr).mono h

/-! ## Chains of well-formed files -/

/-- The keys of a block that is read without a fault end in it. -/
theorem room_recordReads {runkey : Bytes} {out : Streams}
    (h : (decodeRecords buf dEnd dcur runkey out).2 = true) :
    ∀ r ∈ recordReads buf dEnd dcur, r.Room dEnd := by
  induction hn : dEnd - dcur using Nat.strong_induction_on generalizing dcur runkey out with
  | h n ih =>
  rw [decodeRecords] at h
  rw [recordReads]
  split
  · next hmore =>
    have h1 := lt_rdVarint32 buf dcur
    have h2 := lt_rdVarint32 buf (rdVarint32 buf dcur).2
    have h3 := lt_rdVarint32 buf (rdVarint32 buf (rdVarint32 buf dcur).2).2
    rw [if_pos hmore] at h
    dsimp only at h ⊢
    generalize rdVarint32 buf dcur = sh at *
    generalize rdVarint32 buf sh.2 = us at *
    generalize rdVarint32 buf us.2 = vl at *
    rw [List.forall_mem_cons]
    refine ⟨trivial, ?_⟩
    split
    · exact List.forall_mem_nil _
    next hkey =>
    rw [if_neg hkey] at h
    split
    · exact List.forall_mem_nil _
    next hvalue =>
    rw [if_neg hvalue] at h
    split at h
    · exact absurd h Bool.false_ne_true
    next hend =>
    rw [if_neg hend, List.forall_mem_cons, List.forall_mem_cons]
    refine ⟨?_, trivial, ih _ (by omega) h rfl⟩
    change vl.2 + us.1 ≤ dEnd
    omega
  · exact List.forall_mem_nil _

theorem room_blockReads {out : Streams}
    (h : (decodeBlocks buf FB fsz iEnd icur entryCnt out).2 = true) :
    ∀ r ∈ blockReads buf FB fsz iEnd icur entryCnt out, r.Room (FB + fsz) := by
  induction hn : iEnd - icur using Nat.strong_induction_on generalizing icur entryCnt out with
  | h n ih =>
  rw [decodeBlocks] at h
  rw [blockReads]
  split
  · next hmore =>
    have h1 := lt_rdVarint32 buf icur
    have h2 := lt_rdVarint32 buf (rdVarint32 buf icur).2
    have h3 := lt_rdVarint32 buf (rdVarint32 buf (rdVarint32 buf icur).2).2
    rw [if_pos hmore] at h
    dsimp only at h ⊢
    generalize rdVarint32 buf icur = sh at *
    generalize rdVarint32 buf sh.2 = us at *
    generalize rdVarint32 buf us.2 = vl at *
    rw [List.forall_mem_cons]
    refine ⟨trivial, ?_⟩
    split
    · exact List.forall_mem_nil _
    next hkey =>
    rw [if_neg hkey] at h
    split
    · exact List.forall_mem_nil _
    next hvalue =>
    rw [if_neg hvalue] at h
    rw [List.forall_mem_cons]
    refine ⟨trivial, ?_⟩
    generalize rdVarint64 buf (vl.2 + us.1) = doff at *
    generalize rdVarint64 buf doff.2 = dsz at *
    split
    · exact List.forall_mem_nil _
    next hhandle =>
    rw [if_neg hhandle] at h
    split
    · exact List.forall_mem_nil _
    next hregion =>
    rw [if_neg hregion] at h
    rw [List.forall_mem_cons]
    refine ⟨trivial, ?_⟩
    split
    · exact List.forall_mem_nil _
    next hrestarts =>
    rw [if_neg hrestarts] at h
    split at h
    · exact absurd h Bool.false_ne_true
    next hblock =>
    rw [if_neg hblock, List.forall_mem_append]
    refine ⟨?_, ih _ (by omega) h rfl⟩
    intro r hr
    have hgood := Bool.not_eq_false _ ▸ (not_or.mp hblock).1
    exact (room_recordReads hgood r hr).mono (by omega)
  · exact List.forall_mem_nil _

theorem room_fileReads {out : Streams} (h : (decodeFile buf foff fsz out).2 = true) :
    (∀ r ∈ fileReads buf foff fsz out, r.Room cap) ↔ foff + fsz < cap := by
  rw [decodeFile] at h
  rw [fileReads]
  dsimp only at h ⊢
  split
  · next hshort =>
    rw [if_pos hshort] at h
    exact absurd h Bool.false_ne_true
  next hlong =>
  rw [if_neg hlong] at h
  rw [List.forall_mem_cons]
  apply and_iff_left_of_imp
  intro hlt
  split
  · exact List.forall_mem_nil _
  next hmagic =>
  rw [if_neg hmagic] at h
  split
  · exact List.forall_mem_nil _
  next hversion =>
  rw [if_neg hversion] at h
  split
  · exact List.forall_mem_nil _
  next hchecksum =>
  rw [if_neg hchecksum] at h
  rw [List.forall_mem_cons]
  refine ⟨trivial, ?_⟩
  split
  · exact List.forall_mem_nil _
  next hindex =>
  rw [if_neg hindex] at h
  rw [List.forall_mem_cons]
  refine ⟨trivial, ?_⟩
  split
  · exact List.forall_mem_nil _
  next hrestarts =>
  rw [if_neg hrestarts] at h
  exact fun r hr => (room_blockReads h r hr).mono hlt.le

variable {total desc : ℕ}

theorem room_chainReads (hts : ∀ t ∈ ts, Accepted t ∧ t.indexRestarts.length ≤ 4096)
    (htotal : 8 ≤ total) (hdesc : Holds buf desc (descriptors total (ts.map Layout.bytes)))
    (hbytes : Holds buf total (ts.flatMap Layout.bytes))
    (hroom : desc + 16 * ts.length ≤ chainBytes)
    (hend : total + (ts.flatMap Layout.bytes).length ≤ chainBytes) (hsmall : chainBytes < 2 ^ 64)
    (out : Streams) : (∀ r ∈ chainReads buf chainBytes ts.length desc out, r.Room cap) ↔
      (ts ≠ [] → total + (ts.flatMap Layout.bytes).length < cap) := by
  induction ts generalizing total desc out with
  | nil => simp [chainReads]
  | cons t ts ih =>
    obtain ⟨⟨hwell, hfits, hfile, hblocks⟩, hrestarts⟩ := hts t List.mem_cons_self
    have hpos := length_bytes_pos t
    rw [List.map_cons, descriptors_cons, holds_append, List.length_append, length_putFixed,
      length_putFixed, holds_append, length_putFixed] at hdesc
    rw [List.flatMap_cons, holds_append] at hbytes
    rw [List.flatMap_cons, List.length_append] at hend ⊢
    rw [List.length_cons] at hroom ⊢
    have hoffset : loadFixed buf 8 desc = total := hdesc.1.1.loadFixed (by omega)
    have hlength : loadFixed buf 8 (desc + 8) = t.bytes.length := hdesc.1.2.loadFixed (by omega)
    obtain ⟨out', hdecode, -⟩ := @decodeFile_of_layout buf out total t hwell hbytes.1 hfile hfits
      (hblocks hrestarts) hrestarts
    have hread : (decodeFile buf total t.bytes.length out).2 = true := by rw [hdecode]
    have hrest := ih (fun t' ht' => hts t' (List.mem_cons_of_mem _ ht')) (by omega) hdesc.2 hbytes.2
      (by omega) (by omega) out'
    have htable : ∀ r ∈ [SstRead.double desc, SstRead.double (desc + 8)], r.Room cap := by
      rw [List.forall_mem_cons, List.forall_mem_singleton]
      exact ⟨trivial, trivial⟩
    rw [chainReads, if_neg (by omega)]
    dsimp only
    rw [hoffset, hlength, if_neg hpos.ne', if_neg (by omega), List.forall_mem_append,
      and_iff_right htable, List.forall_mem_append, room_fileReads hread, if_pos hread, hdecode,
      hrest]
    cases ts with
    | nil => simp
    | cons t' ts =>
      -- the footer of a file with another one behind it is no limit
      have hpos' := length_bytes_pos t'
      rw [forall_prop_of_true (List.cons_ne_nil t' ts), forall_prop_of_true (List.cons_ne_nil t _),
        List.flatMap_cons, List.length_append]
      omega

/-- In a chain of well-formed files nothing but the footer of the last one can stand too far back. -/
theorem readsInside_chain_iff (hts : ∀ t ∈ ts, Accepted t ∧ t.indexRestarts.length ≤ 4096)
    (hne : ts ≠ []) (hcount : ts.length ≤ kCsdMaxChainFiles)
    (hsmall : (buildCsdSlotB (ts.map Layout.bytes)).bytes.length < 2 ^ 40)
    (hbuf : Holds buf 0 (buildCsdSlotB (ts.map Layout.bytes)).bytes) :
    ReadsInside buf (buildCsdSlotB (ts.map Layout.bytes)) ↔
      (buildCsdSlotB (ts.map Layout.bytes)).bytes.length % 4096 ≠ 0 := by
  have hmax : kCsdMaxChainFiles = 64 := rfl
  obtain ⟨hsize, hslot⟩ := @buildCsdSlotB_of_files (ts.map Layout.bytes) (by simpa using hne)
    (by rwa [List.length_map])
  have hflat : (ts.map Layout.bytes).flatten = ts.flatMap Layout.bytes := rfl
  have hlong := length_lt_bufferSize_iff (buildCsdSlotB (ts.map Layout.bytes))
  have heq := (slotB_spec (ts.map Layout.bytes)).2
  rw [List.length_map, hflat] at hsize hslot
  rw [← heq, hsize] at hlong
  rw [← heq] at hsmall ⊢
  rw [hslot, holds_append, holds_append, List.length_append, length_putFixed, length_descriptors,
    List.length_map, Nat.zero_add, Nat.zero_add] at hbuf
  obtain ⟨⟨hnumber, hdesc⟩, hbytes⟩ := hbuf
  have hK : loadFixed buf 8 0 = ts.length := hnumber.loadFixed (by omega)
  have hchain : ts.length ≤ ZF_SST_CHAIN_MAX_FILES := hcount
  have hbig : 8 ≤ 8 + 16 * ts.length + (ts.flatMap Layout.bytes).length := by omega
  rw [readsInside_slotB, slotReads, Nat.mod_eq_of_lt hsmall, hsize, sstReads]
  simp only [if_pos hbig, hK, if_pos hchain]
  rw [List.forall_mem_append, List.forall_mem_singleton,
    room_chainReads hts (by omega) hdesc hbytes (by omega) (by omega) (by omega),
    forall_prop_of_true hne, hlong (by omega)]
  exact and_iff_right trivial

/-- The decoders stay inside their buffers when the last load of a slot of frames does, and when the
footers and the suffixes of keys that are read in a chain do. -/
theorem ports_read_inside_iff (h : buildCsdSlotAFromSorted part gen keys values = some slot)
    (hbuf : Holds buf 0 slot.1.bytes) (buf' : Memory) (files : List Bytes) :
    (ReadsInside buf slot.1 ↔ slot.1.bytes.length % 4096 ≠ 0) ∧
      (ReadsInside buf' (buildCsdSlotB files) ↔ ∀ r ∈ slotReads buf' (buildCsdSlotB files),
        r.Room (bufferSize (buildCsdSlotB files))) :=
  ⟨readsInside_iff_decodePort.trans (inside_slotA h hbuf), readsInside_slotB buf' files⟩

theorem ports_read_inside_two : ∃ slot, buildCsdSlotAFromSorted 1 5 twoKeys twoValues = some slot ∧
    (ReadsInside (store (fun _ => 0) 0 slot.1.bytes) slot.1 ↔ slot.1.bytes.length % 4096 ≠ 0) ∧
      (ReadsInside (store (fun _ => 0) 0 (buildCsdSlotB [[1, 2, 3]]).bytes)
          (buildCsdSlotB [[1, 2, 3]]) ↔
        ∀ r ∈ slotReads (store (fun _ => 0) 0 (buildCsdSlotB [[1, 2, 3]]).bytes)
          (buildCsdSlotB [[1, 2, 3]]), r.Room (bufferSize (buildCsdSlotB [[1, 2, 3]]))) := by
  have hsome : (buildCsdSlotAFromSorted 1 5 twoKeys twoValues).isSome := by
    decide +kernel
  obtain ⟨slot, hslot⟩ := Option.isSome_iff_exists.mp hsome
  exact ⟨slot, hslot, ports_read_inside_iff hslot (holds_store _ 0 _) _ _⟩

/-- Five records that fill a page. -/
def pageKeys : List Bytes :=
  (List.range 5).map fun i => List.replicate 24 (UInt8.ofNat (97 + i)) ++ [1, 2, 0, 0, 0, 0, 0, 0]

def pageValues : List Bytes := [1024, 1024, 1024, 514, 0].map fun n => List.replicate n 7

/-- The last entry of a page is followed by a word that is read and does not belong to the buffer. -/
theorem port_reads_behind_page : ∃ slot,
    buildCsdSlotAFromSorted 1 5 pageKeys pageValues = some slot ∧ bufferSize slot.1 = 4096 ∧
      ¬ ReadsInside (store (fun _ => 0) 0 slot.1.bytes) slot.1 := by
  have hlen : (buildCsdSlotAFromSorted 1 5 pageKeys pageValues).map (fun s => s.1.bytes.length) =
      some 4096 := by
    decide +kernel
  obtain ⟨slot, hslot, hbytes⟩ := Option.map_eq_some_iff.mp hlen
  refine ⟨slot, hslot, ?_, ?_⟩
  · rw [bufferSize, hbytes]
    rfl
  · rw [readsInside_iff_decodePort, inside_slotA hslot (holds_store _ 0 _), hbytes]
    exact not_not.mpr rfl

end ZeroFlush.PortReads
