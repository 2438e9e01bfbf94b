import ZeroFlush.WalFormat

/-! # Records as slices of the bytes they are decoded from

`DecodeZfRecord` copies nothing: what it returns are two pointers into its input with the sizes of
the header. -/
namespace ZeroFlush.RecordSlices
open FixedWidthCodec WalFormat

/-- Where a `rocksdb::Slice` starts in the decoded bytes, and how many it spans. -/
structure Slice where
  start : ℕ
  size : ℕ
  deriving DecidableEq, Repr

namespace Slice

def Inside (s : Slice) (data : Bytes) : Prop := s.start + s.size ≤ data.length

instance (s : Slice) (data : Bytes) : Decidable (s.Inside data) :=
  inferInstanceAs (Decidable (s.start + s.size ≤ data.length))

def bytes (s : Slice) (data : Bytes) : Bytes := (data.drop s.start).take s.size

end Slice

def keySlice (h : ZfRecordHeader) : Slice := ⟨kZfHeaderSize, h.keyLen⟩

def valueSlice (h : ZfRecordHeader) : Slice := ⟨kZfHeaderSize + h.keyLen, h.valLen⟩

/-- `DecodeZfRecord` with the slices it sets. -/
def decodeZfRecordSlices (data : Bytes) : Except Status (ZfRecordHeader × Slice × Slice) :=
  if data.length < kZfHeaderSize + kZfCrcSize then .error (.corruption "ZF record too short")
  else
    let h := decodeHeader data
    if h.magic ≠ kZfMagic then .error (.corruption "ZF record bad magic")
    else
      let bodyLen := (h.keyLen + h.valLen) % 2 ^ 32
      if data.length ≠ (kZfHeaderSize + bodyLen + kZfCrcSize) % 2 ^ 32 then
        .error (.corruption "ZF record length mismatch")
      else
        let storedCrc := fixedAt 4 (kZfHeaderSize + bodyLen) data
        let calcCrc := crc32c (data.take (kZfHeaderSize + bodyLen))
        if storedCrc ≠ calcCrc.toNat then .error (.corruption "ZF record crc mismatch")
        else .ok (h, keySlice h, valueSlice h)

/-- The bytes of the slices are the key and the value of the record. -/
theorem decodeZfRecord_eq (data : Bytes) :
    decodeZfRecord data =
      (decodeZfRecordSlices data).map fun r => (r.1, r.2.1.bytes data, r.2.2.bytes data) := by
  simp only [decodeZfRecord, decodeZfRecordSlices]
  split
  · rfl
  split
  · rfl
  split
  · rfl
  split
  · rfl
  · simp [Except.map, keySlice, valueSlice, Slice.bytes, List.drop_drop]

/-- What an accepted input looks like; the sum of the two lengths wraps. -/
structure Accepts (data : Bytes) : Prop where
  long : 28 ≤ data.length
  short : data.length < 2 ^ 32
  magic : (decodeHeader data).magic = kZfMagic
  length : data.length = 28 + ((decodeHeader data).keyLen + (decodeHeader data).valLen) % 2 ^ 32
  crc : fixedAt 4 (data.length - 4) data = (crc32c (data.take (data.length - 4))).toNat

theorem accepts_of_ok {data : Bytes} {h : ZfRecordHeader} {key value : Slice}
    (hok : decodeZfRecordSlices data = .ok (h, key, value)) :
    Accepts data ∧ h = decodeHeader data ∧ key = keySlice h ∧ value = valueSlice h := by
  simp only [decodeZfRecordSlices] at hok
  split at hok
  · cases hok
  next hlong =>
  split at hok
  · cases hok
  next hmagic =>
  split at hok
  · cases hok
  next hlength =>
  split at hok
  · cases hok
  next hcrc =>
  cases hok
  simp only [kZfHeaderSize, kZfCrcSize] at hlong hlength hcrc
  -- a total that wraps is shorter than a header
  have htotal : data.length =
      28 + ((decodeHeader data).keyLen + (decodeHeader data).valLen) % 2 ^ 32 := by omega
  have hend : data.length - 4 =
      24 + ((decodeHeader data).keyLen + (decodeHeader data).valLen) % 2 ^ 32 := by omega
  refine ⟨⟨by omega, by omega, not_not.mp hmagic, htotal, ?_⟩, rfl, rfl, rfl⟩
  rw [hend]
  exact not_not.mp hcrc

/-- The stored word is the one its value is written as. -/
theorem putFixed_fixedAt {w i : ℕ} {data : Bytes} (h : i + w ≤ data.length) :
    putFixed w (fixedAt w i data) = (data.drop i).take w := by
  have hlen : ((data.drop i).take w).length = w := by
    rw [List.length_take, List.length_drop]
    omega
  have hput := putFixed_decodeFixed ((data.drop i).take w)
  rwa [hlen] at hput

theorem getD_eq_take {i : ℕ} {data : Bytes} (h : i < data.length) :
    [data.getD i 0] = (data.drop i).take 1 := by
  rw [List.drop_eq_getElem_cons h, List.take_succ_cons, List.take_zero, List.getD_eq_getElem?_getD,
    List.getElem?_eq_getElem h, Option.getD_some]

theorem take_add_drop (i j : ℕ) (data : Bytes) :
    data.take i ++ (data.drop i).take j = data.take (i + j) := (List.take_add).symm

/-- The header is the first 24 bytes. -/
theorem encodeHeader_decodeHeader {data : Bytes} (h : 24 ≤ data.length) :
    encodeHeader (decodeHeader data) = data.take 24 := by
  have hseq : (UInt64.ofNat (fixedAt 8 16 data)).toNat = fixedAt 8 16 data := by
    have hlt := decodeFixed_lt ((data.drop 16).take 8)
    have hlen : ((data.drop 16).take 8).length = 8 := by
      rw [List.length_take, List.length_drop]
      omega
    rw [hlen] at hlt
    exact UInt64.toNat_ofNat_of_lt' (by simpa [fixedAt, UInt64.size] using hlt)
  have htype : [data.getD 6 0, data.getD 7 0] = (data.drop 6).take 1 ++ (data.drop 7).take 1 := by
    rw [← getD_eq_take (by omega), ← getD_eq_take (by omega)]
    rfl
  rw [encodeHeader, decodeHeader]
  dsimp only
  rw [hseq, putFixed_fixedAt (by omega), putFixed_fixedAt (by omega), putFixed_fixedAt (by omega),
    putFixed_fixedAt (by omega), putFixed_fixedAt (by omega), htype, List.drop_zero, take_add_drop,
    ← List.append_assoc, take_add_drop, take_add_drop, take_add_drop, take_add_drop, take_add_drop]

/-- A record whose lengths do not wrap is made of the header, the two slices and the checksum. -/
theorem Accepts.encode_eq {data : Bytes} (ha : Accepts data)
    (h : (decodeHeader data).keyLen + (decodeHeader data).valLen < 2 ^ 32) :
    encodeZfRecord (decodeHeader data) ((keySlice (decodeHeader data)).bytes data)
      ((valueSlice (decodeHeader data)).bytes data) = data := by
  have hlen := ha.length
  rw [Nat.mod_eq_of_lt h] at hlen
  have hpay : encodeHeader (decodeHeader data) ++ (keySlice (decodeHeader data)).bytes data ++
      (valueSlice (decodeHeader data)).bytes data = data.take (data.length - 4) := by
    have hend : 24 + (decodeHeader data).keyLen + (decodeHeader data).valLen = data.length - 4 := by
      omega
    rw [encodeHeader_decodeHeader (by omega), keySlice, valueSlice, Slice.bytes, Slice.bytes,
      kZfHeaderSize, take_add_drop, take_add_drop, hend]
  have hlast : (data.drop (data.length - 4)).take 4 = data.drop (data.length - 4) := by
    apply List.take_of_length_le
    rw [List.length_drop]
    omega
  rw [encodeZfRecord, hpay, ← ha.crc, putFixed_fixedAt (by omega), hlast, List.take_append_drop]

/-- A value of a wrapping pair of lengths ends behind the input. -/
theorem Accepts.not_inside {data : Bytes} (ha : Accepts data)
    (h : 2 ^ 32 ≤ (decodeHeader data).keyLen + (decodeHeader data).valLen)
    (hval : (decodeHeader data).valLen < 2 ^ 32) (hkey : (decodeHeader data).keyLen < 2 ^ 32) :
    ¬ (valueSlice (decodeHeader data)).Inside data := by
  have hlen := ha.length
  intro hinside
  simp only [Slice.Inside, valueSlice, kZfHeaderSize] at hinside
  omega

theorem fixedAt_lt (w i : ℕ) (data : Bytes) : fixedAt w i data < 256 ^ w := by
  have hlen : ((data.drop i).take w).length ≤ w := by
    rw [List.length_take]
    exact Nat.min_le_left _ _
  calc fixedAt w i data < 256 ^ ((data.drop i).take w).length := decodeFixed_lt _
    _ ≤ 256 ^ w := Nat.pow_le_pow_right (by omega) hlen

/-- The slices lie inside the input, and encoding what they hold gives it back. -/
def DecodesExactly (data : Bytes) : Prop :=
  ∀ h key value, decodeZfRecordSlices data = .ok (h, key, value) →
    key.Inside data ∧ value.Inside data ∧
      encodeZfRecord h (key.bytes data) (value.bytes data) = data

/-- A header with the magic, the sizes of the key and the value, and no field wider than its word. -/
structure Describes (h : ZfRecordHeader) (key value : Bytes) : Prop where
  magic : h.magic = kZfMagic
  cfId : h.cfId < 2 ^ 16
  keyLen : h.keyLen = key.length
  valLen : h.valLen = value.length
  keyLen_lt : h.keyLen < 2 ^ 32
  valLen_lt : h.valLen < 2 ^ 32

def RoundTrips (h : ZfRecordHeader) (key value : Bytes) : Prop :=
  decodeZfRecord (encodeZfRecord h key value) = .ok (h, key, value)

def CodecExact : Prop :=
  (∀ h key value, Describes h key value → RoundTrips h key value) ∧ ∀ data, DecodesExactly data

/-- A record of 4 GiB and more is written, but the length check refuses it. -/
theorem Describes.roundTrips_iff {h : ZfRecordHeader} {key value : Bytes}
    (hd : Describes h key value) :
    RoundTrips h key value ↔ 28 + key.length + value.length < 2 ^ 32 := by
  constructor
  · intro hround
    rw [RoundTrips, decodeZfRecord_eq] at hround
    cases hslices : decodeZfRecordSlices (encodeZfRecord h key value) with
    | error e =>
      rw [hslices] at hround
      cases hround
    | ok r =>
      have hshort := (accepts_of_ok hslices).1.short
      rwa [length_encodeZfRecord] at hshort
  · intro hfits
    have henc : Encodable h key value := ⟨hd.magic, hd.cfId, hd.keyLen, hd.valLen, hfits⟩
    exact henc.decodeZfRecord_eq

theorem decodesExactly_iff {data : Bytes} {h : ZfRecordHeader} {key value : Slice}
    (hok : decodeZfRecordSlices data = .ok (h, key, value)) :
    DecodesExactly data ↔ (decodeKeyValLen data).1 + (decodeKeyValLen data).2 < 2 ^ 32 := by
  obtain ⟨ha, rfl, rfl, rfl⟩ := accepts_of_ok hok
  have hkey : (decodeHeader data).keyLen < 2 ^ 32 := fixedAt_lt 4 8 data
  have hval : (decodeHeader data).valLen < 2 ^ 32 := fixedAt_lt 4 12 data
  have hlens : decodeKeyValLen data = ((decodeHeader data).keyLen, (decodeHeader data).valLen) := rfl
  rw [hlens]
  constructor
  · intro hexact
    apply Nat.lt_of_not_le
    intro hwrap
    exact ha.not_inside hwrap hval hkey (hexact _ _ _ hok).2.1
  · intro hfits h' key' value' hok'
    cases hok.symm.trans hok'
    have hlen := ha.length
    rw [Nat.mod_eq_of_lt hfits] at hlen
    simp only at hlen
    refine ⟨?_, ?_, ha.encode_eq hfits⟩
    · simp only [Slice.Inside, keySlice, kZfHeaderSize]
      omega
    · simp only [Slice.Inside, valueSlice, kZfHeaderSize]
      omega

/-- A record comes back if its frame is shorter than 4 GiB, and what is accepted is exact if its two
lengths do not wrap. -/
theorem codecExact_iff (h : ZfRecordHeader) (key value data : Bytes) :
    (Describes h key value →
      (RoundTrips h key value ↔ 28 + key.length + value.length < 2 ^ 32)) ∧
    ∀ {h' : ZfRecordHeader} {key' value' : Slice},
      decodeZfRecordSlices data = .ok (h', key', value') →
      (DecodesExactly data ↔ (decodeKeyValLen data).1 + (decodeKeyValLen data).2 < 2 ^ 32) :=
  ⟨Describes.roundTrips_iff, decodesExactly_iff⟩

/-- A key of 2^32 - 1 bytes and a value of one: the body is empty. -/
def wrappingHeader : ZfRecordHeader where
  magic := kZfMagic
  cfId := 0
  type := kTypeValue
  flags := 0
  keyLen := 2 ^ 32 - 1
  valLen := 1
  seq := 7

def wrappingRecord : Bytes := encodeZfRecord wrappingHeader [] []

theorem decode_wrappingRecord :
    decodeZfRecordSlices wrappingRecord =
      .ok (wrappingHeader, ⟨24, 2 ^ 32 - 1⟩, ⟨24 + (2 ^ 32 - 1), 1⟩) := by decide +kernel

theorem not_codecExact : ¬ CodecExact := by
  intro hexact
  have hinside := (hexact.2 wrappingRecord _ _ _ decode_wrappingRecord).1
  exact absurd hinside (by decide +kernel)

def smallHeader : ZfRecordHeader where
  magic := kZfMagic
  cfId := 0
  type := kTypeValue
  flags := 0
  keyLen := 1
  valLen := 2
  seq := 7

/-- The bytes of a small record, and a wrapping record. -/
theorem codecExact_iff_small :
    RoundTrips smallHeader [97] [98, 99] ∧ DecodesExactly (encodeZfRecord smallHeader [97] [98, 99]) ∧
      ¬ DecodesExactly wrappingRecord := by
  have hsmall := codecExact_iff smallHeader [97] [98, 99]
    (encodeZfRecord smallHeader [97] [98, 99])
  have hwrap := codecExact_iff smallHeader [97] [98, 99] wrappingRecord
  have hexact := @hsmall.2 smallHeader ⟨24, 1⟩ ⟨25, 2⟩ (by decide +kernel)
  refine ⟨(hsmall.1 ⟨rfl, by decide, rfl, rfl, by decide, by decide⟩).mpr (by decide),
    hexact.mpr (by decide +kernel), ?_⟩
  intro hexact
  exact absurd ((hwrap.2 decode_wrappingRecord).mp hexact) (by decide +kernel)

end ZeroFlush.RecordSlices
