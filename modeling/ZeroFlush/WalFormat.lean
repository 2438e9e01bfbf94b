import ZeroFlush.FixedWidthCodec

/-! # The ZF01 record frame

A frame is a 24-byte header, the key, the value and a CRC-32C trailer over all of them. -/
namespace ZeroFlush.WalFormat
open FixedWidthCodec

inductive Status
  | corruption (msg : String)
  | ioError (msg : String)
  | invalidArgument (msg : String)
  | notSupported (msg : String)
  | notFound
  deriving DecidableEq, Repr

def kZfMagic : ℕ := 0x31304655
def kZfHeaderSize : ℕ := 24
def kZfCrcSize : ℕ := 4

/-- The partition of range tombstones, which no table routes to. -/
def kRangeDelPartId : ℕ := 0xFFFFFFFE

def kTypeDeletion : UInt8 := 0x0
def kTypeValue : UInt8 := 0x1
def kTypeMerge : UInt8 := 0x2
def kTypeSingleDeletion : UInt8 := 0x7
def kTypeRangeDeletion : UInt8 := 0xF

structure ZfRecordHeader where
  magic : ℕ
  cfId : ℕ
  type : UInt8
  flags : UInt8
  keyLen : ℕ
  valLen : ℕ
  seq : UInt64
  deriving DecidableEq, Repr

/-- One shift of the reflected Castagnoli polynomial. -/
def crc32cBit (crc : UInt32) : UInt32 :=
  if crc &&& 1 = 1 then (crc >>> 1) ^^^ 0x82f63b78 else crc >>> 1

def crc32cByte (crc : UInt32) (b : UInt8) : UInt32 :=
  Nat.iterate crc32cBit 8 (crc ^^^ b.toUInt32)

def crc32c (data : Bytes) : UInt32 := data.foldl crc32cByte 0xffffffff ^^^ 0xffffffff

/-- The sum is a `uint32_t`: it wraps for a key and a value of more than 4 GiB together. -/
def zfRecordLength (keyLen valLen : ℕ) : ℕ :=
  (kZfHeaderSize + keyLen + valLen + kZfCrcSize) % 2 ^ 32

def encodeHeader (h : ZfRecordHeader) : Bytes :=
  putFixed 4 h.magic ++ putFixed 2 h.cfId ++ [h.type, h.flags] ++ putFixed 4 h.keyLen ++
    putFixed 4 h.valLen ++ putFixed 8 h.seq.toNat

def encodeZfRecord (h : ZfRecordHeader) (key value : Bytes) : Bytes :=
  let payload := encodeHeader h ++ key ++ value
  payload ++ putFixed 4 (crc32c payload).toNat

/-- The word of `w` bytes at offset `i`. -/
def fixedAt (w i : ℕ) (data : Bytes) : ℕ := decodeFixed ((data.drop i).take w)

def decodeKeyValLen (hdr : Bytes) : ℕ × ℕ := (fixedAt 4 8 hdr, fixedAt 4 12 hdr)

def decodeHeader (data : Bytes) : ZfRecordHeader where
  magic := fixedAt 4 0 data
  cfId := fixedAt 2 4 data
  type := data.getD 6 0
  flags := data.getD 7 0
  keyLen := fixedAt 4 8 data
  valLen := fixedAt 4 12 data
  seq := UInt64.ofNat (fixedAt 8 16 data)

def decodeZfRecord (data : Bytes) : Except Status (ZfRecordHeader × Bytes × Bytes) :=
  if data.length < kZfHeaderSize + kZfCrcSize then .error (.corruption "ZF record too short")
  else
    let h := decodeHeader data
    if h.magic ≠ kZfMagic then .error (.corruption "ZF record bad magic")
    else
      let bodyLen := (h.keyLen + h.valLen) % 2 ^ 32
      if data.length ≠ (kZfHeaderSize + bodyLen + kZfCrcSize) % 2 ^ 32 then
        .error (.corruption "ZF record length mismatch")
      else
        let storedCrc := fixedAt 4 (kZfHeaderSize + bodyLen) data
        let calcCrc := crc32c (data.take (kZfHeaderSize + bodyLen))
        if storedCrc ≠ calcCrc.toNat then .error (.corruption "ZF record crc mismatch")
        else
          let body := data.drop kZfHeaderSize
          .ok (h, body.take h.keyLen, (body.drop h.keyLen).take h.valLen)

/-- What one call of `Append` carries. -/
structure WalRecord where
  key : Bytes
  value : Bytes
  type : UInt8
  seq : UInt64
  deriving DecidableEq, Repr

namespace WalRecord

/-- The header `Append` fills in; the sizes are cast to `uint32_t`. -/
def header (r : WalRecord) : ZfRecordHeader where
  magic := kZfMagic
  cfId := 0
  type := r.type
  flags := 0
  keyLen := r.key.length % 2 ^ 32
  valLen := r.value.length % 2 ^ 32
  seq := r.seq

def frame (r : WalRecord) : Bytes := encodeZfRecord r.header r.key r.value

/-- The number of bytes of the frame, not cut to 32 bits. -/
def frameLength (r : WalRecord) : ℕ := 28 + r.key.length + r.value.length

end WalRecord

@[simp] theorem length_encodeHeader (h : ZfRecordHeader) : (encodeHeader h).length = 24 := by
  simp [encodeHeader]

@[simp] theorem length_frame (r : WalRecord) : r.frame.length = r.frameLength := by
  simp [WalRecord.frame, encodeZfRecord, WalRecord.frameLength]
  omega

/-- Reading a header back gives every field, cut to the width it is stored in. -/
theorem decodeHeader_encodeHeader (h : ZfRecordHeader) (rest : Bytes) :
    decodeHeader (encodeHeader h ++ rest) =
      { h with
        magic := h.magic % 2 ^ 32, cfId := h.cfId % 2 ^ 16,
        keyLen := h.keyLen % 2 ^ 32, valLen := h.valLen % 2 ^ 32 } := by
  simp [decodeHeader, fixedAt, encodeHeader, List.drop_append, decodeFixed_putFixed,
    List.getElem?_append]

theorem decodeHeader_frame (r : WalRecord) (rest : Bytes) :
    decodeHeader (r.frame ++ rest) = r.header := by
  have hsplit : r.frame ++ rest = encodeHeader r.header ++ (r.frame.drop 24 ++ rest) := by
    simp [WalRecord.frame, encodeZfRecord, List.append_assoc]
  rw [hsplit, decodeHeader_encodeHeader]
  simp [WalRecord.header, kZfMagic]

/-- The two lengths a reader takes from the first 24 bytes of a frame. -/
theorem decodeKeyValLen_take_frame (r : WalRecord) (rest : Bytes) (n : ℕ) (hn : 24 ≤ n) :
    decodeKeyValLen ((r.frame ++ rest).take n) =
      (r.key.length % 2 ^ 32, r.value.length % 2 ^ 32) := by
  have hpre : (r.frame ++ rest).take n =
      encodeHeader r.header ++ (r.frame.drop 24 ++ rest).take (n - 24) := by
    have hsplit : r.frame ++ rest = encodeHeader r.header ++ (r.frame.drop 24 ++ rest) := by
      simp [WalRecord.frame, encodeZfRecord, List.append_assoc]
    rw [hsplit, List.take_append, List.take_of_length_le (by simpa using hn)]
    simp
  have hh := decodeHeader_encodeHeader r.header ((r.frame.drop 24 ++ rest).take (n - 24))
  rw [← hpre] at hh
  have hk := congrArg ZfRecordHeader.keyLen hh
  have hv := congrArg ZfRecordHeader.valLen hh
  simp only [decodeHeader] at hk hv
  simp [decodeKeyValLen, hk, hv, WalRecord.header]

theorem zfRecordLength_eq {r : WalRecord} (h : r.frameLength < 2 ^ 32) :
    zfRecordLength (r.key.length % 2 ^ 32) (r.value.length % 2 ^ 32) = r.frameLength := by
  simp only [WalRecord.frameLength] at *
  simp only [zfRecordLength, kZfHeaderSize, kZfCrcSize]
  omega

/-- A header filled in for a key and a value whose frame length fits 32 bits. -/
structure Encodable (h : ZfRecordHeader) (key value : Bytes) : Prop where
  magic : h.magic = kZfMagic
  cfId : h.cfId < 2 ^ 16
  keyLen : h.keyLen = key.length
  valLen : h.valLen = value.length
  fits : 28 + key.length + value.length < 2 ^ 32

section encode
variable {h : ZfRecordHeader} {key value : Bytes}

theorem length_encodeZfRecord (h : ZfRecordHeader) (key value : Bytes) :
    (encodeZfRecord h key value).length = 28 + key.length + value.length := by
  simp [encodeZfRecord]
  omega

theorem Encodable.decodeHeader_eq (hr : Encodable h key value) :
    decodeHeader (encodeZfRecord h key value) = h := by
  have hfits := hr.fits
  have hcfId := hr.cfId
  have hmagic : h.magic % 2 ^ 32 = h.magic := by
    rw [hr.magic]
    rfl
  have hkey : h.keyLen % 2 ^ 32 = h.keyLen := by
    rw [hr.keyLen]
    omega
  have hval : h.valLen % 2 ^ 32 = h.valLen := by
    rw [hr.valLen]
    omega
  rw [encodeZfRecord, List.append_assoc, List.append_assoc, decodeHeader_encodeHeader, hmagic, hkey,
    hval, Nat.mod_eq_of_lt hcfId]

/-- The checksum is read from where it was written. -/
theorem crc_encodeZfRecord (h : ZfRecordHeader) (key value : Bytes) :
    fixedAt 4 (kZfHeaderSize + (key.length + value.length)) (encodeZfRecord h key value) =
      (crc32c (encodeHeader h ++ key ++ value)).toNat := by
  have hdrop : (encodeZfRecord h key value).drop (kZfHeaderSize + (key.length + value.length)) =
      putFixed 4 (crc32c (encodeHeader h ++ key ++ value)).toNat := by
    rw [encodeZfRecord]
    exact List.drop_left' (by simp [kZfHeaderSize])
  rw [fixedAt, hdrop, List.take_of_length_le (by simp)]
  exact decodeFixed_putFixed_of_lt (by simpa using UInt32.toNat_lt _)

/-- A frame of fewer than 2^32 bytes decodes to what it was made of. -/
theorem Encodable.decodeZfRecord_eq (hr : Encodable h key value) :
    decodeZfRecord (encodeZfRecord h key value) = .ok (h, key, value) := by
  have hlen := length_encodeZfRecord h key value
  have hfits := hr.fits
  have hbody : (h.keyLen + h.valLen) % 2 ^ 32 = key.length + value.length := by
    rw [hr.keyLen, hr.valLen, Nat.mod_eq_of_lt (by omega)]
  have hshort : ¬ (encodeZfRecord h key value).length < kZfHeaderSize + kZfCrcSize := by
    simp only [hlen, kZfHeaderSize, kZfCrcSize]
    omega
  have htotal : (encodeZfRecord h key value).length =
      (kZfHeaderSize + (key.length + value.length) + kZfCrcSize) % 2 ^ 32 := by
    simp only [hlen, kZfHeaderSize, kZfCrcSize]
    omega
  have hpay : (encodeZfRecord h key value).take (kZfHeaderSize + (key.length + value.length)) =
      encodeHeader h ++ key ++ value := by
    rw [encodeZfRecord]
    exact List.take_left' (by simp [kZfHeaderSize])
  have hkey : ((encodeZfRecord h key value).drop kZfHeaderSize).take key.length = key := by
    simp [encodeZfRecord, kZfHeaderSize, List.append_assoc]
  have hval : (((encodeZfRecord h key value).drop kZfHeaderSize).drop key.length).take
      value.length = value := by
    simp [encodeZfRecord, kZfHeaderSize, List.append_assoc]
  unfold decodeZfRecord
  rw [if_neg hshort]
  simp only [hr.decodeHeader_eq]
  rw [if_neg (not_not.mpr hr.magic), hbody, if_neg (not_not.mpr htotal), hpay, crc_encodeZfRecord,
    if_neg (not_not.mpr rfl), hr.keyLen, hr.valLen, hkey, hval]

end encode

theorem WalRecord.encodable {r : WalRecord} (h : r.frameLength < 2 ^ 32) :
    Encodable r.header r.key r.value := by
  rw [WalRecord.frameLength] at h
  exact ⟨rfl, Nat.two_pow_pos 16, Nat.mod_eq_of_lt (by omega), Nat.mod_eq_of_lt (by omega), h⟩

/-- A frame of fewer than 2^32 bytes decodes to the record it was made of. -/
theorem decodeZfRecord_frame {r : WalRecord} (h : r.frameLength < 2 ^ 32) :
    decodeZfRecord r.frame = .ok (r.header, r.key, r.value) :=
  (WalRecord.encodable h).decodeZfRecord_eq

end ZeroFlush.WalFormat
