import Mathlib.Data.List.Infix
import ZeroFlush.SstDecoder
import ZeroFlush.SealedTables

/-! # The device reader of staged frames

`decoder` walks the index of an A slot and follows every locator to its frame. The index is read from
the buffer, the frames through a window of 1024 bytes. -/
namespace ZeroFlush.FrameDecoder
open FixedWidthCodec ByteMemory WalFormat SortKeys Varints PrefixCompression DeviceStreams SstDecoder
  CsdSlots SealedTables

/-- `win`, `win_base` and `win_valid`; `words` are the words of the buffer that were read. -/
structure Port where
  win : Bytes := []
  winBase : ℕ := 0
  winValid : Bool := false
  words : List ℕ := []

def Port.touch (p : Port) (ws : List ℕ) : Port := { p with words := p.words ++ ws }

/-- `zf_ld_byte`. -/
def ldByte (buf : Memory) (p : Port) (off : ℕ) : UInt8 × Port := (buf off, p.touch [off / 4])

/-- `zf_ld_u32` reads the next word also when it does not need it. -/
def ldU32 (buf : Memory) (p : Port) (off : ℕ) : ℕ × Port :=
  (loadFixed buf 4 off, p.touch [off / 4, off / 4 + 1])

def rdU64 (buf : Memory) (p : Port) (off : ℕ) : ℕ × Port :=
  let lo := ldU32 buf p off
  let hi := ldU32 buf lo.2 (off + 4)
  (lo.1 + 2 ^ 32 * hi.1, hi.2)

/-- The bytes from `off` to before `stop` are read one after the other. -/
def Port.touchBytes (p : Port) (off stop : ℕ) : Port :=
  p.touch ((List.range' off (stop - off)).map (· / 4))

/-- The value of a varint, the offset behind it, and the port that has read its bytes. -/
def portVarint32 (buf : Memory) (p : Port) (off : ℕ) : ℕ × ℕ × Port :=
  let r := rdVarint32 buf off
  (r.1, r.2, p.touchBytes off r.2)

/-- `zf_rd16`: the image of four words that may stand at any offset. -/
def rd16 (buf : Memory) (p : Port) (addr : ℕ) : Bytes × Port :=
  let e0 := ldU32 buf p addr
  let e1 := ldU32 buf e0.2 (addr + 4)
  let e2 := ldU32 buf e1.2 (addr + 8)
  let e3 := ldU32 buf e2.2 (addr + 12)
  (putFixed 4 e0.1 ++ putFixed 4 e1.1 ++ putFixed 4 e2.1 ++ putFixed 4 e3.1, e3.2)

def zfwinLoad (buf : Memory) (p : Port) (alignedBase : ℕ) : Port :=
  { win := load buf alignedBase 1024, winBase := alignedBase, winValid := true
    words := p.words ++ List.range' (alignedBase / 4) 256 }

def zfwinEnsure (buf : Memory) (p : Port) (addr : ℕ) : Port :=
  if p.winValid = false ∨ addr < p.winBase ∨ p.winBase + 1024 ≤ addr then
    zfwinLoad buf p (addr / 1024 * 1024)
  else p

def zfwinU8 (buf : Memory) (p : Port) (addr : ℕ) : UInt8 × Port :=
  let p := zfwinEnsure buf p addr
  (p.win.getD ((addr - p.winBase) % 1024) 0, p)

/-- Byte after byte through the window. -/
def zfwinBytes (buf : Memory) : ℕ → Port → ℕ → Bytes × Port
  | 0, p, _ => ([], p)
  | n + 1, p, addr =>
    let b := zfwinU8 buf p addr
    let rest := zfwinBytes buf n b.2 (addr + 1)
    (b.1 :: rest.1, rest.2)

def zfwinU32 (buf : Memory) (p : Port) (addr : ℕ) : ℕ × Port :=
  let r := zfwinBytes buf 4 p addr
  (decodeFixed r.1, r.2)

/-- Four words of four bytes, in the order of the bytes. -/
def zfwinRead16 (buf : Memory) (p : Port) (addr : ℕ) : Bytes × Port := zfwinBytes buf 16 p addr

/-- The words of the key, each of 16 bytes. -/
def rdKeyWords (buf : Memory) : ℕ → Port → ℕ → Bytes × Port
  | 0, p, _ => ([], p)
  | k + 1, p, kb =>
    let t := rd16 buf p kb
    let rest := rdKeyWords buf k t.2 (kb + 16)
    (t.1 ++ rest.1, rest.2)

/-- `k` of the 64 words of the two slices, from word `w` on. -/
def rdValueWords (buf : Memory) (vbase valLen : ℕ) : ℕ → ℕ → Port → Bytes × Port
  | _, 0, p => ([], p)
  | w, k + 1, p =>
    let t := if w * 16 < valLen then zfwinRead16 buf p (vbase + w * 16)
      else (List.replicate 16 0, p)
    let rest := rdValueWords buf vbase valLen (w + 1) k t.2
    (t.1 ++ rest.1, rest.2)

/-- What the loop carries from one entry of the index to the next. -/
structure Decoding where
  port : Port
  slimCursor : ℕ
  out : Streams

/-- The frame at `recAddr` gives the value for a key. -/
def decodeFrame (buf : Memory) (p : Port) (key : Keystring) (recAddr : ℕ) (out : Streams) :
    Port × Streams :=
  let wkeyLen := zfwinU32 buf p (recAddr + 8)
  let valLen := zfwinU32 buf wkeyLen.2 (recAddr + 12)
  let value := rdValueWords buf (recAddr + 24 + wkeyLen.1) valLen.1 0 64 valLen.2
  (value.2, out.writeRecord ⟨key, valLen.1 % 2 ^ 11⟩ value.1)

/-- An entry of the index, the cursor behind it and the port that has read it. -/
structure SlimEntry where
  key : Keystring
  walOffset : ℕ
  slimCursor : ℕ
  port : Port

def readSlim (buf : Memory) (p : Port) (slimCursor : ℕ) : SlimEntry :=
  let ikLen := portVarint32 buf p slimCursor
  let key := rdKeyWords buf ((ikLen.1 % 256 + 15) / 16 % 4) ikLen.2.2 ikLen.2.1
  let locLen := portVarint32 buf key.2 (ikLen.2.1 + ikLen.1)
  let walOffset := rdU64 buf locLen.2.2 (locLen.2.1 + 8)
  ⟨⟨key.1, ikLen.1 % 256⟩, walOffset.1, locLen.2.1 + locLen.1, walOffset.2⟩

/-- One round of the main loop. -/
def decodeEntry (buf : Memory) (d : Decoding) : Decoding :=
  let slim := readSlim buf d.port d.slimCursor
  let frame := decodeFrame buf slim.port slim.key slim.walOffset d.out
  ⟨frame.1, slim.slimCursor, frame.2⟩

def decodeEntries (buf : Memory) : ℕ → Decoding → Decoding
  | 0, d => d
  | kvSum + 1, d => decodeEntries buf kvSum (decodeEntry buf d)

/-- `decoder`, with the port it leaves. -/
def decoder (buf : Memory) (kvSum fileSize : ℕ) : Port × Streams :=
  let started : Streams := ⟨[signalMark], []⟩
  if fileSize = 0 ∨ kvSum = 0 then ({}, started.writeKm maxMark)
  else
    let d := decodeEntries buf kvSum ⟨{}, fileSize, started⟩
    (d.port, d.out.writeKm maxMark)

/-! ## The window -/

variable {buf : Memory} {p : Port} {addr off a n : ℕ} {bs : Bytes}

/-- A loaded window shows the bytes of the buffer from its base on. -/
def Port.Mirrors (p : Port) (buf : Memory) : Prop :=
  p.winValid = true → p.win = load buf p.winBase 1024

theorem mirrors_empty (buf : Memory) : ({} : Port).Mirrors buf := fun h => nomatch h

theorem Port.Mirrors.touch (h : p.Mirrors buf) (ws : List ℕ) : (p.touch ws).Mirrors buf := h

theorem Port.Mirrors.touchBytes (h : p.Mirrors buf) (off stop : ℕ) :
    (p.touchBytes off stop).Mirrors buf := h

theorem zfwinEnsure_spec (h : p.Mirrors buf) (addr : ℕ) :
    let p' := zfwinEnsure buf p addr
    p'.win = load buf p'.winBase 1024 ∧ p'.winBase ≤ addr ∧ addr < p'.winBase + 1024 := by
  by_cases hmiss : p.winValid = false ∨ addr < p.winBase ∨ p.winBase + 1024 ≤ addr
  · rw [zfwinEnsure, if_pos hmiss]
    refine ⟨rfl, ?_, ?_⟩
    · simp only [zfwinLoad]
      omega
    · simp only [zfwinLoad]
      omega
  · rw [zfwinEnsure, if_neg hmiss]
    rw [not_or, not_or, Bool.not_eq_false] at hmiss
    exact ⟨h hmiss.1, by omega, by omega⟩

/-- Reading through the window is reading the buffer. -/
theorem zfwinU8_spec (h : p.Mirrors buf) (addr : ℕ) :
    (zfwinU8 buf p addr).1 = buf addr ∧ (zfwinU8 buf p addr).2.Mirrors buf := by
  obtain ⟨hwin, hle, hlt⟩ := zfwinEnsure_spec h addr
  rw [zfwinU8]
  dsimp only
  constructor
  · rw [hwin, Nat.mod_eq_of_lt (by omega), List.getD_eq_getElem?_getD,
      getElem?_load _ _ (by omega), Option.getD_some, Nat.add_sub_cancel' hle]
  · exact fun _ => hwin

theorem zfwinBytes_spec (h : p.Mirrors buf) (n addr : ℕ) :
    (zfwinBytes buf n p addr).1 = load buf addr n ∧ (zfwinBytes buf n p addr).2.Mirrors buf := by
  induction n generalizing p addr with
  | zero => exact ⟨rfl, h⟩
  | succ n ih =>
    obtain ⟨hbyte, hport⟩ := zfwinU8_spec h addr
    obtain ⟨hrest, hleft⟩ := ih hport (addr + 1)
    rw [zfwinBytes]
    dsimp only
    rw [hbyte, hrest]
    exact ⟨rfl, hleft⟩

theorem zfwinU32_spec (h : p.Mirrors buf) (addr : ℕ) :
    (zfwinU32 buf p addr).1 = loadFixed buf 4 addr ∧ (zfwinU32 buf p addr).2.Mirrors buf := by
  obtain ⟨hbytes, hport⟩ := zfwinBytes_spec h 4 addr
  rw [zfwinU32]
  dsimp only
  rw [hbytes]
  exact ⟨rfl, hport⟩

theorem rdValueWords_spec (h : p.Mirrors buf) (vbase valLen w k : ℕ) :
    (rdValueWords buf vbase valLen w k p).1 = (List.range' w k).flatMap (fun w =>
        if w * 16 < valLen then load buf (vbase + w * 16) 16 else List.replicate 16 0) ∧
      (rdValueWords buf vbase valLen w k p).2.Mirrors buf := by
  induction k generalizing p w with
  | zero => exact ⟨rfl, h⟩
  | succ k ih =>
    rw [rdValueWords, List.range'_succ, List.flatMap_cons]
    by_cases hw : w * 16 < valLen
    · obtain ⟨hword, hport⟩ := zfwinBytes_spec h 16 (vbase + w * 16)
      obtain ⟨hrest, hleft⟩ := ih hport (w + 1)
      rw [if_pos hw, if_pos hw, zfwinRead16]
      dsimp only
      rw [hword, hrest]
      exact ⟨rfl, hleft⟩
    · obtain ⟨hrest, hleft⟩ := ih h (w + 1)
      rw [if_neg hw, if_neg hw]
      dsimp only
      rw [hrest]
      exact ⟨rfl, hleft⟩

/-- The two slices of a frame are those of a reader without a window. -/
theorem rdValueWords_window (h : p.Mirrors buf) (vbase valLen : ℕ) :
    (rdValueWords buf vbase valLen 0 64 p).1 = valueWindow buf vbase valLen := by
  rw [(rdValueWords_spec h vbase valLen 0 64).1, valueWindow, List.range_eq_range']

/-! ## Reading the index -/

theorem putFixed_loadFixed (buf : Memory) (w a : ℕ) : putFixed w (loadFixed buf w a) = load buf a w := by
  have hput := putFixed_decodeFixed (load buf a w)
  rwa [length_load] at hput

theorem rd16_spec (h : p.Mirrors buf) (addr : ℕ) :
    (rd16 buf p addr).1 = load buf addr 16 ∧ (rd16 buf p addr).2.Mirrors buf := by
  constructor
  · rw [load_add buf addr 12 4, load_add buf addr 8 4, load_add buf addr 4 4]
    simp only [rd16, ldU32, putFixed_loadFixed]
  · exact h

theorem rdKeyWords_spec (h : p.Mirrors buf) (k addr : ℕ) :
    (rdKeyWords buf k p addr).1 = load buf addr (k * 16) ∧
      (rdKeyWords buf k p addr).2.Mirrors buf := by
  induction k generalizing p addr with
  | zero =>
    rw [Nat.zero_mul]
    exact ⟨rfl, h⟩
  | succ k ih =>
    obtain ⟨hword, hport⟩ := rd16_spec h addr
    obtain ⟨hrest, hleft⟩ := ih hport (addr + 16)
    rw [rdKeyWords]
    dsimp only
    rw [hword, hrest, Nat.add_mul, Nat.one_mul, Nat.add_comm (k * 16) 16, load_add]
    exact ⟨rfl, hleft⟩

theorem loadFixed_add (buf : Memory) (w k a : ℕ) :
    loadFixed buf (w + k) a = loadFixed buf w a + 256 ^ w * loadFixed buf k (a + w) := by
  rw [loadFixed, load_add, decodeFixed_append, length_load]
  rfl

theorem Port.Mirrors.rdU64 (h : p.Mirrors buf) (off : ℕ) : (rdU64 buf p off).2.Mirrors buf := h

theorem rdU64_eq (buf : Memory) (p : Port) (off : ℕ) : (rdU64 buf p off).1 = loadFixed buf 8 off := by
  rw [loadFixed_add buf 4 4 off]
  rfl

/-! ## One record -/

variable {part gen : ℕ} {ik value : Bytes} {recAddr : ℕ} {out : Streams}

/-- Where the lengths, the value and the rest of a frame stand. -/
theorem holds_slotFrame (h : Holds buf recAddr (slotFrame part ik value)) (hik : ik.length = 32)
    (hvalue : value.length ≤ VALUE_LENGTH) :
    loadFixed buf 4 (recAddr + 8) = 24 ∧ loadFixed buf 4 (recAddr + 12) = value.length ∧
      Holds buf (recAddr + 48) value := by
  have hV : VALUE_LENGTH = 1024 := rfl
  have hkey : (ik.take 24).length = 24 := by
    rw [List.length_take, hik]
    rfl
  simp only [slotFrame, encodeZfRecord, encodeHeader, holds_append, List.length_append,
    length_putFixed, List.length_cons, List.length_nil, hkey] at h
  obtain ⟨⟨⟨⟨⟨⟨⟨⟨-, -⟩, -⟩, hkeyLen⟩, hvalLen⟩, -⟩, -⟩, hval⟩, -⟩ := h
  exact ⟨hkeyLen.loadFixed (by decide), hvalLen.loadFixed (by omega), hval⟩

theorem decodeFrame_spec {p : Port} (hport : p.Mirrors buf)
    (h : Holds buf recAddr (slotFrame part ik value)) (hik : ik.length = 32)
    (hvalue : value.length ≤ VALUE_LENGTH) :
    (decodeFrame buf p ⟨ik, 32⟩ recAddr out).1.Mirrors buf ∧
      Delivers out (decodeFrame buf p ⟨ik, 32⟩ recAddr out).2 [⟨ik, value⟩] := by
  have hV : VALUE_LENGTH = 1024 := rfl
  obtain ⟨hkeyLen, hvalLen, hval⟩ := holds_slotFrame h hik hvalue
  obtain ⟨hk, hport⟩ := zfwinU32_spec hport (recAddr + 8)
  obtain ⟨hv, hport⟩ := zfwinU32_spec hport (recAddr + 12)
  have hleft := (rdValueWords_spec hport (recAddr + 24 + 24) value.length 0 64).2
  have hwindow := rdValueWords_window hport (recAddr + 24 + 24) value.length
  rw [decodeFrame]
  dsimp only
  rw [hk, hv, hkeyLen, hvalLen, hwindow, Nat.mod_eq_of_lt (by omega)]
  refine ⟨hleft, ?_⟩
  apply delivers_writeRecord (e := ⟨ik, value⟩) out (length_valueWindow buf _ _)
  exact (take_valueWindow hvalue).trans hval

theorem rdVarint32_of_lt {v : ℕ} (h : Holds buf off (putVarint v)) (hv : v < 128) :
    rdVarint32 buf off = (v, off + 1) := by
  rw [rdVarint32_put h (by omega), putVarint_of_lt hv]
  rfl

theorem length_slimEntry (hik : ik.length = 32) (part gen off : ℕ) :
    (slimEntry part gen off ik).length = 50 := by
  rw [slimEntry, hik, putVarint_of_lt (by decide), putVarint_of_lt (by decide)]
  simp only [List.length_append, length_putFixed, hik, List.length_singleton]

/-- Where the key, the locator and its offset stand in an entry of the index. -/
theorem holds_slimEntry {cursor : ℕ} (h : Holds buf cursor (slimEntry part gen recAddr ik))
    (hik : ik.length = 32) (haddr : recAddr < 2 ^ 64) :
    rdVarint32 buf cursor = (32, cursor + 1) ∧ load buf (cursor + 1) (2 * 16) = ik ∧
      rdVarint32 buf (cursor + 1 + 32) = (16, cursor + 1 + 32 + 1) ∧
      loadFixed buf 8 (cursor + 1 + 32 + 1 + 8) = recAddr := by
  have hone : (putVarint 32).length = 1 ∧ (putVarint 16).length = 1 := ⟨by decide, by decide⟩
  rw [slimEntry, hik] at h
  simp only [holds_append, List.length_append, length_putFixed, hik, hone] at h
  obtain ⟨⟨⟨⟨⟨hikLen, hkey⟩, hlocLen⟩, -⟩, -⟩, hoff⟩ := h
  exact ⟨rdVarint32_of_lt hikLen (by decide), hkey.load_eq (by rw [hik]),
    rdVarint32_of_lt hlocLen (by decide), hoff.loadFixed haddr⟩

theorem readSlim_spec {p : Port} {cursor : ℕ} (hport : p.Mirrors buf)
    (h : Holds buf cursor (slimEntry part gen recAddr ik)) (hik : ik.length = 32)
    (haddr : recAddr < 2 ^ 64) :
    (readSlim buf p cursor).key = ⟨ik, 32⟩ ∧ (readSlim buf p cursor).walOffset = recAddr ∧
      (readSlim buf p cursor).slimCursor = cursor + 50 ∧
      (readSlim buf p cursor).port.Mirrors buf := by
  obtain ⟨h32, hload, h16, hoffset⟩ := holds_slimEntry h hik haddr
  obtain ⟨hwords, hmirrors⟩ := rdKeyWords_spec (hport.touchBytes cursor (cursor + 1)) 2 (cursor + 1)
  rw [hload] at hwords
  have hcount : (32 % 256 + 15) / 16 % 4 = 2 := rfl
  have hlength : 32 % 256 = 32 := rfl
  simp only [readSlim, portVarint32, h32, hcount, hlength, h16, rdU64_eq, hoffset, hwords]
  exact ⟨trivial, trivial, trivial, (hmirrors.touchBytes _ _).rdU64 _⟩

/-- An entry of the index is followed to its frame. -/
theorem decodeEntry_spec {d : Decoding} (hport : d.port.Mirrors buf)
    (hslim : Holds buf d.slimCursor (slimEntry part gen recAddr ik))
    (hframe : Holds buf recAddr (slotFrame part ik value)) (hik : ik.length = 32)
    (hvalue : value.length ≤ VALUE_LENGTH) (haddr : recAddr < 2 ^ 64) :
    (decodeEntry buf d).port.Mirrors buf ∧ (decodeEntry buf d).slimCursor = d.slimCursor + 50 ∧
      Delivers d.out (decodeEntry buf d).out [⟨ik, value⟩] := by
  obtain ⟨hkey, hoffset, hcursor, hp⟩ := readSlim_spec hport hslim hik haddr
  have hdecoded := fun out : Streams => @decodeFrame_spec _ _ _ _ _ out _ hp hframe hik hvalue
  obtain ⟨hleft, hdelivers⟩ := hdecoded d.out
  rw [decodeEntry]
  dsimp only
  rw [hkey, hoffset, hcursor]
  exact ⟨hleft, rfl, hdelivers⟩

/-! ## A whole slot -/

/-- The frames stand from `off` on, and their index from the cursor on. -/
theorem decodeEntries_spec {rs : List (Bytes × Bytes)} {d : Decoding} {off : ℕ}
    (hport : d.port.Mirrors buf)
    (hslim : Holds buf d.slimCursor (slimEntries part gen off rs))
    (hframes : Holds buf off (rs.flatMap fun r => slotFrame part r.1 r.2))
    (hrs : ∀ r ∈ rs, r.1.length = 32 ∧ r.2.length ≤ VALUE_LENGTH)
    (haddr : off + (rs.flatMap fun r => slotFrame part r.1 r.2).length < 2 ^ 64) :
    Delivers d.out (decodeEntries buf rs.length d).out (rs.map fun r => ⟨r.1, r.2⟩) := by
  have hV : VALUE_LENGTH = 1024 := rfl
  induction rs generalizing d off with
  | nil => exact Delivers.refl d.out
  | cons r rs ih =>
    obtain ⟨hik, hvalue⟩ := hrs r List.mem_cons_self
    rw [slimEntries, holds_append, length_slimEntry hik] at hslim
    rw [List.flatMap_cons, holds_append, length_slotFrame hik] at hframes
    rw [List.flatMap_cons, List.length_append, length_slotFrame hik] at haddr
    have hnext : zfRecordLength 24 r.2.length = 52 + r.2.length := by
      simp only [zfRecordLength, kZfHeaderSize, kZfCrcSize]
      omega
    rw [hnext] at hslim
    obtain ⟨hleft, hcursor, hone⟩ := decodeEntry_spec hport hslim.1 hframes.1 hik hvalue (by omega)
    rw [List.length_cons, decodeEntries, List.map_cons, ← List.singleton_append]
    apply hone.trans
    apply ih hleft
    · rw [hcursor]
      exact hslim.2
    · exact hframes.2
    · exact fun r' hr' => hrs r' (List.mem_cons_of_mem _ hr')
    · omega

/-! ## Walking the index -/

structure SlimLocator where
  partId : ℕ
  gen : ℕ
  walOffset : ℕ

/-- Only a slice of this size is copied into a locator. -/
def SlimLocator.ofBytes (bs : Bytes) : Option SlimLocator :=
  if bs.length ≠ 16 then none else some ⟨fixedAt 4 0 bs, fixedAt 4 4 bs, fixedAt 8 8 bs⟩

/-- The loop of `GetVarint32PtrFallback`, which ends without a number at the limit. -/
def getGroups : ℕ → Bytes → Option (ℕ × Bytes)
  | 0, _ => none
  | _ + 1, [] => none
  | n + 1, b :: bs =>
    if b.toNat < 128 then some (b.toNat, bs)
    else (getGroups n bs).map fun higher => (b.toNat % 128 + 128 * higher.1, higher.2)

def getVarint32 (input : Bytes) : Option (ℕ × Bytes) :=
  (getGroups 5 input).map fun r => (r.1 % 2 ^ 32, r.2)

def getLengthPrefixedSlice (input : Bytes) : Option (Bytes × Bytes) :=
  match getVarint32 input with
  | none => none
  | some (len, rest) => if len ≤ rest.length then some (rest.take len, rest.drop len) else none

/-- So many entries of an index, and what follows them. -/
def walkSlim : ℕ → Bytes → Option (List (Bytes × SlimLocator) × Bytes)
  | 0, input => some ([], input)
  | n + 1, input => do
    let ik ← getLengthPrefixedSlice input
    let locator ← getLengthPrefixedSlice ik.2
    let loc ← SlimLocator.ofBytes locator.1
    let rest ← walkSlim n locator.2
    pure ((ik.1, loc) :: rest.1, rest.2)

/-- The locator leads to a frame that is accepted and holds the record. -/
def Locates (wal : Bytes) (e : Entry) (loc : SlimLocator) : Prop :=
  ∃ frame h, frame <+: wal.drop loc.walOffset ∧
    decodeZfRecord frame = .ok (h, extractUserKey e.key, e.value) ∧ h.type = valueType e.key ∧
    h.seq.toNat = sequence e.key

theorem getLengthPrefixedSlice_put {bs : Bytes} (h : bs.length < 128) (rest : Bytes) :
    getLengthPrefixedSlice (putVarint bs.length ++ (bs ++ rest)) = some (bs, rest) := by
  have hbyte : (UInt8.ofNat bs.length).toNat = bs.length := by
    rw [UInt8.toNat_ofNat']
    exact Nat.mod_eq_of_lt (by omega)
  have hvarint : getVarint32 (putVarint bs.length ++ (bs ++ rest)) = some (bs.length, bs ++ rest) := by
    rw [putVarint_of_lt h, List.singleton_append, getVarint32, getGroups, if_pos (by omega), hbyte,
      Option.map_some, Nat.mod_eq_of_lt (by omega)]
  rw [getLengthPrefixedSlice, hvarint]
  dsimp only
  rw [if_pos (by rw [List.length_append]; omega), List.take_left, List.drop_left]

theorem ofBytes_locator (part gen : ℕ) {off : ℕ} (hoff : off < 2 ^ 64) :
    SlimLocator.ofBytes (putFixed 4 part ++ putFixed 4 gen ++ putFixed 8 off) =
      some ⟨part % 2 ^ 32, gen % 2 ^ 32, off⟩ := by
  have hlen : (putFixed 4 part ++ putFixed 4 gen ++ putFixed 8 off).length = 16 := by simp
  rw [SlimLocator.ofBytes, if_neg (not_not.mpr hlen)]
  simp only [fixedAt, List.append_assoc]
  rw [List.drop_zero, List.take_left' (length_putFixed 4 part), decodeFixed_putFixed,
    List.drop_left' (length_putFixed 4 part), List.take_left' (length_putFixed 4 gen),
    decodeFixed_putFixed, ← List.append_assoc, List.drop_left' (by simp),
    List.take_of_length_le (by simp), decodeFixed_putFixed_of_lt hoff]
  rfl

theorem walkSlim_slimEntry (hik : ik.length = 32) (part gen : ℕ) {off : ℕ} (hoff : off < 2 ^ 64)
    (n : ℕ) (rest : Bytes) :
    walkSlim (n + 1) (slimEntry part gen off ik ++ rest) = (walkSlim n rest).map fun r =>
      ((ik, ⟨part % 2 ^ 32, gen % 2 ^ 32, off⟩) :: r.1, r.2) := by
  have hlocator : (putFixed 4 part ++ putFixed 4 gen ++ putFixed 8 off).length = 16 := by simp
  have hsplit : slimEntry part gen off ik ++ rest = putVarint ik.length ++ (ik ++
      (putVarint (putFixed 4 part ++ putFixed 4 gen ++ putFixed 8 off).length ++
        (putFixed 4 part ++ putFixed 4 gen ++ putFixed 8 off ++ rest))) := by
    rw [hlocator, slimEntry]
    simp only [List.append_assoc]
  rw [hsplit, walkSlim, getLengthPrefixedSlice_put (by omega), Option.bind_eq_bind, Option.bind_some,
    getLengthPrefixedSlice_put (by omega), Option.bind_eq_bind, Option.bind_some,
    ofBytes_locator part gen hoff, Option.bind_eq_bind, Option.bind_some]
  cases walkSlim n rest with
  | none => rfl
  | some r => rfl

theorem sequence_lt (hik : ik.length = 32) : sequence ik < 2 ^ 56 := by
  have hlen : (footerBytes ik).length = 8 := by
    rw [footerBytes, List.length_drop, hik]
    rfl
  have hlt := decodeFixed_lt (footerBytes ik)
  rw [hlen] at hlt
  rw [SortKeys.sequence, extractInternalKeyFooter]
  omega

/-- The frame that is built again is accepted. -/
theorem decodeZfRecord_slotFrame (hik : ik.length = 32) (hvalue : value.length ≤ VALUE_LENGTH)
    (part : ℕ) : ∃ h, decodeZfRecord (slotFrame part ik value) =
      .ok (h, extractUserKey ik, value) ∧ h.type = valueType ik ∧ h.seq.toNat = sequence ik := by
  have hV : VALUE_LENGTH = 1024 := rfl
  have huser : extractUserKey ik = ik.take 24 := by
    rw [extractUserKey, hik]
    rfl
  have hkey : (ik.take 24).length = 24 := by
    rw [List.length_take, hik]
    rfl
  rw [huser, slotFrame]
  refine ⟨_, Encodable.decodeZfRecord_eq ⟨rfl, Nat.mod_lt _ (by decide), hkey.symm, rfl, ?_⟩, rfl, ?_⟩
  · omega
  · have hseq := sequence_lt hik
    exact UInt64.toNat_ofNat_of_lt' (by rw [UInt64.size]; omega)

theorem walkSlim_slimEntries {rs : List (Bytes × Bytes)} {wal : Bytes} {off : ℕ}
    (hframes : (rs.flatMap fun r => slotFrame part r.1 r.2) <+: wal.drop off)
    (hrs : ∀ r ∈ rs, r.1.length = 32 ∧ r.2.length ≤ VALUE_LENGTH)
    (haddr : off + (rs.flatMap fun r => slotFrame part r.1 r.2).length < 2 ^ 64) :
    ∃ locs, walkSlim rs.length (slimEntries part gen off rs) =
        some ((rs.map Prod.fst).zip locs, []) ∧
      List.Forall₂ (Locates wal) (rs.map fun r => ⟨r.1, r.2⟩) locs := by
  have hV : VALUE_LENGTH = 1024 := rfl
  induction rs generalizing off with
  | nil => exact ⟨[], rfl, .nil⟩
  | cons r rs ih =>
    obtain ⟨hik, hvalue⟩ := hrs r List.mem_cons_self
    have hlen := length_slotFrame hik part r.2
    rw [List.flatMap_cons, List.length_append, hlen] at haddr
    rw [List.flatMap_cons] at hframes
    have hnext : zfRecordLength 24 r.2.length = 52 + r.2.length := by
      simp only [zfRecordLength, kZfHeaderSize, kZfCrcSize]
      omega
    have hrest : (rs.flatMap fun r => slotFrame part r.1 r.2) <+:
        wal.drop (off + (52 + r.2.length)) := by
      have hdrop := List.IsPrefix.drop hframes (52 + r.2.length)
      rwa [List.drop_left' hlen, List.drop_drop] at hdrop
    obtain ⟨locs, hwalk, hall⟩ := ih hrest (fun r' hr' => hrs r' (List.mem_cons_of_mem _ hr'))
      (by omega)
    obtain ⟨h, hdecode, htype, hseq⟩ := decodeZfRecord_slotFrame hik hvalue part
    refine ⟨⟨part % 2 ^ 32, gen % 2 ^ 32, off⟩ :: locs, ?_, ?_⟩
    · rw [List.length_cons, slimEntries, hnext, walkSlim_slimEntry hik part gen (by omega), hwalk]
      rfl
    · exact .cons ⟨_, h, (List.prefix_append _ _).trans hframes, hdecode, htype, hseq⟩ hall

/-! ## The slot -/

variable {keys values : List Bytes} {slot : ZfCsdSlot × ℕ}

/-- What an accepted pair of lists is packed into. -/
theorem slotA_eq (h : buildCsdSlotAFromSorted part gen keys values = some slot) :
    slot.1.kv = keys.length ∧
      slot.1.fileSize = ((keys.zip values).flatMap fun r => slotFrame part r.1 r.2).length ∧
      slot.1.bytes = ((keys.zip values).flatMap fun r => slotFrame part r.1 r.2) ++
        slimEntries part gen 0 (keys.zip values) := by
  rw [buildCsdSlotAFromSorted] at h
  split at h
  · cases h
  split at h
  · cases h
  dsimp only at h
  split at h
  · cases h
  cases h
  exact ⟨rfl, rfl, rfl⟩

/-- A slot is faithful: its index lists the internal keys and leads to their frames, it ends with the
bytes, and the device reads the records from it. -/
theorem slotA_faithful (h : buildCsdSlotAFromSorted part gen keys values = some slot) :
    slot.1.kv = keys.length ∧
      (∃ locs, walkSlim slot.1.kv (slot.1.bytes.drop slot.1.fileSize) = some (keys.zip locs, []) ∧
        List.Forall₂ (Locates (slot.1.bytes.take slot.1.fileSize)) (records keys values) locs) ∧
      ∀ buf, Holds buf 0 slot.1.bytes →
        Emits (decoder buf slot.1.kv slot.1.fileSize).2 (records keys values) := by
  have hmax : kCsdMaxStagedBytes = 67108864 := rfl
  obtain ⟨hlen, hne, hfits, hsize⟩ := records_of_slotA h
  obtain ⟨hkv, hfile, hbytes⟩ := slotA_eq h
  have hrs : ∀ r ∈ keys.zip values, r.1.length = 32 ∧ r.2.length ≤ VALUE_LENGTH :=
    fun r hr => hfits ⟨r.1, r.2⟩ (List.mem_map_of_mem hr)
  have hcount : (keys.zip values).length = keys.length := by
    rw [List.length_zip, ← hlen, Nat.min_self]
  have hwal := length_frames (fun r hr => (hrs r hr).1) part
  rw [← records] at hwal
  refine ⟨hkv, ?_, ?_⟩
  · rw [hkv, hfile, hbytes, List.drop_left, List.take_left, ← hcount]
    have hkeys : (keys.zip values).map Prod.fst = keys := List.map_fst_zip hlen.le
    obtain ⟨locs, hwalk, hall⟩ := @walkSlim_slimEntries part gen (keys.zip values) _ 0
      List.prefix_rfl hrs (by omega)
    rw [hkeys] at hwalk
    exact ⟨locs, hwalk, hall⟩
  · intro buf hbuf
    rw [hbytes, holds_append, Nat.zero_add, ← hfile] at hbuf
    have hpos : ¬ (slot.1.fileSize = 0 ∨ slot.1.kv = 0) := by
      have hkeys : keys.length ≠ 0 := mt List.length_eq_zero_iff.mp hne
      cases hzip : keys.zip values with
      | nil => rw [hzip, List.length_nil] at hcount; omega
      | cons r rs =>
        have hik := (hrs r (by rw [hzip]; exact List.mem_cons_self)).1
        rw [hfile, hkv, hzip, List.flatMap_cons, List.length_append, length_slotFrame hik]
        omega
    rw [decoder, if_neg hpos]
    dsimp only
    rw [hkv, ← hcount]
    obtain ⟨hkm, slices, hvalue, hcarries⟩ := decodeEntries_spec
      (d := ⟨{}, slot.1.fileSize, ⟨[signalMark], []⟩⟩) (mirrors_empty buf) hbuf.2 hbuf.1 hrs (by omega)
    rw [List.nil_append] at hvalue
    subst hvalue
    exact ⟨congrArg (· ++ [maxMark]) hkm, hcarries⟩

/-- A value and, for the greater key, a deletion. -/
def twoKeys : List Bytes :=
  [List.replicate 24 97 ++ [1, 2, 0, 0, 0, 0, 0, 0], List.replicate 24 98 ++ [0, 3, 0, 0, 0, 0, 0, 0]]

def twoValues : List Bytes := [[7, 8, 9], []]

theorem slotA_faithful_two : ∃ slot,
    buildCsdSlotAFromSorted 1 5 twoKeys twoValues = some slot ∧ slot.1.kv = 2 ∧
      (∃ locs, walkSlim slot.1.kv (slot.1.bytes.drop slot.1.fileSize) =
          some (twoKeys.zip locs, []) ∧
        List.Forall₂ (Locates (slot.1.bytes.take slot.1.fileSize))
          (records twoKeys twoValues) locs) ∧
      ∀ buf, Holds buf 0 slot.1.bytes → Emits (decoder buf slot.1.kv slot.1.fileSize).2
        (records twoKeys twoValues) := by
  have hsome : (buildCsdSlotAFromSorted 1 5 twoKeys twoValues).isSome := by
    decide +kernel
  obtain ⟨slot, hslot⟩ := Option.isSome_iff_exists.mp hsome
  exact ⟨slot, hslot, slotA_faithful hslot⟩

end ZeroFlush.FrameDecoder
