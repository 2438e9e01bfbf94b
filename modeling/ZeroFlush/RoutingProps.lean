import ZeroFlush.CursorParsing
import ZeroFlush.WalFormat

/-! # The ZFPROPS file

The routing mode, the name of the comparator and every version of the partition table, followed by
a CRC-32C over all of it. The first format has only the number of partitions. -/
namespace ZeroFlush.RoutingProps
open FixedWidthCodec WalFormat CursorParsing

def kZfPropsMagic : ℕ := 0x3150465A
def kZfPropsSize : ℕ := 16
def kZfPropsMagicV2 : ℕ := 0x3250465A

structure ZfPropsTableInfo where
  version : ℕ
  partitions : ℕ
  partIds : List ℕ
  boundaries : List Bytes
  deriving DecidableEq, Repr

/-- An empty list of boundaries stands for a hash table. -/
structure ZfPropsV2 where
  formatVersion : ℕ := 2
  routingMode : UInt8
  comparatorName : Bytes
  tables : List ZfPropsTableInfo
  currentVersion : ℕ
  deriving DecidableEq, Repr

def encodeBoundary (b : Bytes) : Bytes := putFixed 4 b.length ++ b

def encodeTable (t : ZfPropsTableInfo) : Bytes :=
  putFixed 4 t.version ++ (putFixed 4 t.partitions ++ (t.partIds.flatMap (putFixed 4) ++
    (putFixed 4 t.boundaries.length ++ t.boundaries.flatMap encodeBoundary)))

/-- Everything before the checksum. -/
def encodePayload (p : ZfPropsV2) : Bytes :=
  putFixed 4 kZfPropsMagicV2 ++ (putFixed 4 2 ++ ([p.routingMode, 0, 0, 0] ++
    (putFixed 4 p.comparatorName.length ++ (p.comparatorName ++ (putFixed 4 p.tables.length ++
      (p.tables.flatMap encodeTable ++ putFixed 4 p.currentVersion))))))

def encodeZfPropsV2 (p : ZfPropsV2) : Bytes :=
  encodePayload p ++ putFixed 4 (crc32c (encodePayload p)).toNat

/-- The first format: magic, version, number of partitions and their checksum. -/
def encodeZfProps (partitions : ℕ) : Bytes :=
  let payload := putFixed 4 kZfPropsMagic ++ (putFixed 4 1 ++ putFixed 4 partitions)
  payload ++ putFixed 4 (crc32c payload).toNat

/-- `DecodeZfProps`: the number of partitions. -/
def decodeZfProps (data : Bytes) : Except Status ℕ :=
  if data.length ≠ kZfPropsSize then .error (.corruption "ZFPROPS: bad size")
  else if fixedAt 4 0 data ≠ kZfPropsMagic then .error (.corruption "ZFPROPS: bad magic")
  else if fixedAt 4 4 data ≠ 1 then .error (.corruption "ZFPROPS: unsupported version")
  else if (crc32c (data.take 12)).toNat ≠ fixedAt 4 12 data then
    .error (.corruption "ZFPROPS: crc mismatch")
  else .ok (fixedAt 4 8 data)

def readBoundary : Reader Status Bytes := do
  need 4 (.corruption "ZFPROPS v2: boundary len truncated")
  let len ← word 4
  need len (.corruption "ZFPROPS v2: boundary data truncated")
  slice len

/-- The size of the partition ids is computed in 32 bits. -/
def readTable : Reader Status ZfPropsTableInfo := do
  need 8 (.corruption "ZFPROPS v2: table header truncated")
  let version ← word 4
  let partitions ← word 4
  need (partitions * 4 % 2 ^ 32) (.corruption "ZFPROPS v2: part_ids truncated")
  let partIds ← many partitions (word 4)
  need 4 (.corruption "ZFPROPS v2: boundary count truncated")
  let count ← word 4
  let boundaries ← many count readBoundary
  pure ⟨version, partitions, partIds, boundaries⟩

def checkFormatVersion (formatVersion : ℕ) : Reader Status Unit := fun input =>
  if formatVersion ≠ 2 then .error (.corruption "ZFPROPS v2: unsupported format_version")
  else .ok ((), input)

/-- The second format up to the checksum. -/
def readZfPropsV2 : Reader Status ZfPropsV2 := do
  need 12 (.corruption "ZFPROPS v2: header too short")
  let _magic ← word 4
  let formatVersion ← word 4
  checkFormatVersion formatVersion
  let mode ← slice 4
  need 4 (.corruption "ZFPROPS v2: cname_len truncated")
  let nameLen ← word 4
  need nameLen (.corruption "ZFPROPS v2: cname truncated")
  let name ← slice nameLen
  need 4 (.corruption "ZFPROPS v2: table_count truncated")
  let tableCount ← word 4
  let tables ← many tableCount readTable
  need 4 (.corruption "ZFPROPS v2: current_version truncated")
  let currentVersion ← word 4
  pure ⟨formatVersion, mode.headD 0, name, tables, currentVersion⟩

def decodeZfPropsAuto (data : Bytes) : Except Status ZfPropsV2 :=
  if data.length < 8 then .error (.corruption "ZFPROPS: too short")
  else if fixedAt 4 0 data = kZfPropsMagic then
    if data.length < kZfPropsSize then .error (.corruption "ZFPROPS: v1 too short")
    else
      match decodeZfProps data with
      | .error e => .error e
      | .ok partitions => .ok
        { formatVersion := 1, routingMode := 0, comparatorName := []
          tables := [⟨0, partitions, List.range partitions, []⟩], currentVersion := 0 }
  else if fixedAt 4 0 data ≠ kZfPropsMagicV2 then .error (.corruption "ZFPROPS: bad magic")
  else
    match readZfPropsV2 data with
    | .error e => .error e
    | .ok (p, rest) =>
      if rest.length < 4 then .error (.corruption "ZFPROPS v2: crc truncated")
      else if (crc32c (data.take (data.length - rest.length))).toNat ≠ fixedAt 4 0 rest then
        .error (.corruption "ZFPROPS v2: crc mismatch")
      else .ok p

/-- The fields fit the words they are stored in. -/
structure ZfPropsTableInfo.Fits (t : ZfPropsTableInfo) : Prop where
  version : t.version < 2 ^ 32
  partitions : t.partitions = t.partIds.length
  partIds_length : t.partIds.length < 2 ^ 30
  partIds : ∀ id ∈ t.partIds, id < 2 ^ 32
  count : t.boundaries.length < 2 ^ 32
  boundaries : ∀ b ∈ t.boundaries, b.length < 2 ^ 32

structure ZfPropsV2.Fits (p : ZfPropsV2) : Prop where
  formatVersion : p.formatVersion = 2
  name : p.comparatorName.length < 2 ^ 32
  count : p.tables.length < 2 ^ 32
  tables : ∀ t ∈ p.tables, t.Fits
  currentVersion : p.currentVersion < 2 ^ 32

theorem reads_boundary {b : Bytes} (h : b.length < 2 ^ 32) :
    Reads readBoundary (encodeBoundary b) b := by
  rw [readBoundary, encodeBoundary]
  refine Reads.need_bind ((reads_word (by omega)).bind ?_) (by simp)
  exact (reads_slice b).need_bind le_rfl

theorem length_flatMap_words (ids : List ℕ) : (ids.flatMap (putFixed 4)).length = 4 * ids.length := by
  induction ids with
  | nil => rfl
  | cons id ids ih =>
    rw [List.flatMap_cons, List.length_append, ih, length_putFixed, List.length_cons]
    omega

theorem reads_table {t : ZfPropsTableInfo} (h : t.Fits) : Reads readTable (encodeTable t) t := by
  have hlen := h.partIds_length
  have hcount := h.count
  have hsize : t.partitions * 4 % 2 ^ 32 ≤ (t.partIds.flatMap (putFixed 4)).length := by
    rw [length_flatMap_words, h.partitions]
    omega
  have hids : Reads (many t.partitions (word 4) : Reader Status (List ℕ))
      (t.partIds.flatMap (putFixed 4)) t.partIds := by
    rw [h.partitions]
    exact reads_many fun id hid => reads_word (h.partIds id hid)
  have hbounds : Reads (many t.boundaries.length readBoundary)
      (t.boundaries.flatMap encodeBoundary) t.boundaries :=
    reads_many fun b hb => reads_boundary (h.boundaries b hb)
  rw [readTable, encodeTable]
  refine Reads.need_bind ((reads_word h.version).bind ((reads_word ?_).bind ?_)) ?_
  · rw [h.partitions]
    omega
  · refine Reads.need_bind (hids.bind (Reads.need_bind ?_ ?_)) ?_
    · exact (reads_word h.count).bind
        (hbounds.bind_pure (ZfPropsTableInfo.mk t.version t.partitions t.partIds))
    · simp
    · rw [List.length_append]
      omega
  · simp only [List.length_append, length_putFixed]
    omega

theorem reads_checkFormatVersion : Reads (checkFormatVersion 2) [] () := by
  intro rest
  rw [checkFormatVersion, if_neg (by decide)]
  rfl

theorem reads_zfPropsV2 {p : ZfPropsV2} (h : p.Fits) : Reads readZfPropsV2 (encodePayload p) p := by
  have hname := h.name
  have hcount := h.count
  have hcur := h.currentVersion
  have htables : Reads (many p.tables.length readTable) (p.tables.flatMap encodeTable) p.tables :=
    reads_many fun t ht => reads_table (h.tables t ht)
  have hmode : Reads (slice 4 : Reader Status Bytes) [p.routingMode, 0, 0, 0] [p.routingMode, 0, 0, 0] :=
    reads_slice [p.routingMode, 0, 0, 0]
  have hformat : ∀ {f : Unit → Reader Status ZfPropsV2} {bytes : Bytes},
      Reads (f ()) bytes p → Reads (checkFormatVersion 2 >>= f) bytes p :=
    fun hf => reads_checkFormatVersion.bind hf
  have hlast : Reads (word 4 >>= fun v => pure (ZfPropsV2.mk 2 p.routingMode p.comparatorName
      p.tables v) : Reader Status ZfPropsV2) (putFixed 4 p.currentVersion) p := by
    have hp : ZfPropsV2.mk 2 p.routingMode p.comparatorName p.tables p.currentVersion = p := by
      rw [← h.formatVersion]
    have hread := (@reads_word Status 4 _ hcur).bind_pure
      (ZfPropsV2.mk 2 p.routingMode p.comparatorName p.tables)
    rwa [hp] at hread
  rw [readZfPropsV2, encodePayload]
  refine Reads.need_bind ((reads_word (by decide)).bind ((reads_word (by decide)).bind
    (hformat (hmode.bind ?_)))) ?_
  · refine Reads.need_bind ((reads_word hname).bind (Reads.need_bind
      ((reads_slice p.comparatorName).bind ?_) ?_)) ?_
    · refine Reads.need_bind ((reads_word hcount).bind (htables.bind ?_)) ?_
      · exact hlast.need_bind (by simp)
      · simp
    · simp
    · simp
  · simp
    omega

/-- What was encoded is decoded. -/
theorem decodeZfPropsAuto_encodeZfPropsV2 {p : ZfPropsV2} (h : p.Fits) :
    decodeZfPropsAuto (encodeZfPropsV2 p) = .ok p := by
  have hmagic : fixedAt 4 0 (encodeZfPropsV2 p) = kZfPropsMagicV2 := by
    rw [fixedAt, List.drop_zero, encodeZfPropsV2, encodePayload, List.append_assoc,
      List.take_left' (length_putFixed 4 _)]
    exact decodeFixed_putFixed_of_lt (by decide)
  have hlen : 24 ≤ (encodePayload p).length := by
    simp only [encodePayload, List.length_append, length_putFixed, List.length_cons,
      List.length_nil]
    omega
  have hlong : ¬ (encodeZfPropsV2 p).length < 8 := by
    rw [encodeZfPropsV2, List.length_append]
    omega
  have hread := reads_zfPropsV2 h (putFixed 4 (crc32c (encodePayload p)).toNat)
  rw [← encodeZfPropsV2] at hread
  have hpayload : (encodeZfPropsV2 p).take ((encodeZfPropsV2 p).length -
      (putFixed 4 (crc32c (encodePayload p)).toNat).length) = encodePayload p := by
    rw [encodeZfPropsV2, List.length_append, Nat.add_sub_cancel, List.take_left' rfl]
  have hcrc : fixedAt 4 0 (putFixed 4 (crc32c (encodePayload p)).toNat) =
      (crc32c (encodePayload p)).toNat := by
    rw [fixedAt, List.drop_zero, List.take_of_length_le (by simp)]
    exact decodeFixed_putFixed_of_lt (UInt32.toNat_lt _)
  rw [decodeZfPropsAuto, if_neg hlong, hmagic, if_neg (by decide), if_neg (by simp), hread]
  dsimp only
  rw [hpayload, hcrc, if_neg (by simp), if_neg (by simp)]

/-- The hash table that stands for a file of the first format. -/
def ofPartitions (partitions : ℕ) : ZfPropsV2 where
  formatVersion := 1
  routingMode := 0
  comparatorName := []
  tables := [⟨0, partitions, List.range partitions, []⟩]
  currentVersion := 0

theorem decodeZfProps_encodeZfProps {partitions : ℕ} (h : partitions < 2 ^ 32) :
    decodeZfProps (encodeZfProps partitions) = .ok partitions := by
  have hpayload : (putFixed 4 kZfPropsMagic ++ (putFixed 4 1 ++ putFixed 4 partitions)).length = 12 := by
    simp only [List.length_append, length_putFixed]
  have hlen : (encodeZfProps partitions).length = kZfPropsSize := by
    rw [encodeZfProps, List.length_append, hpayload, length_putFixed]
    rfl
  have hmagic : fixedAt 4 0 (encodeZfProps partitions) = kZfPropsMagic := by
    rw [fixedAt, List.drop_zero, encodeZfProps, List.append_assoc,
      List.take_left' (length_putFixed 4 _)]
    exact decodeFixed_putFixed_of_lt (by decide)
  have hversion : fixedAt 4 4 (encodeZfProps partitions) = 1 := by
    rw [fixedAt, encodeZfProps, List.append_assoc, List.drop_left' (length_putFixed 4 _),
      List.append_assoc, List.take_left' (length_putFixed 4 _)]
    exact decodeFixed_putFixed_of_lt (by decide)
  have hparts : fixedAt 4 8 (encodeZfProps partitions) = partitions := by
    rw [fixedAt, encodeZfProps, ← List.append_assoc (putFixed 4 kZfPropsMagic), List.append_assoc,
      List.drop_left' (by simp), List.take_left' (length_putFixed 4 _)]
    exact decodeFixed_putFixed_of_lt h
  have htake : (encodeZfProps partitions).take 12 =
      putFixed 4 kZfPropsMagic ++ (putFixed 4 1 ++ putFixed 4 partitions) := by
    rw [encodeZfProps, List.take_left' hpayload]
  have hcrc : fixedAt 4 12 (encodeZfProps partitions) =
      (crc32c (putFixed 4 kZfPropsMagic ++ (putFixed 4 1 ++ putFixed 4 partitions))).toNat := by
    rw [fixedAt, encodeZfProps, List.drop_left' hpayload, List.take_of_length_le (by simp)]
    exact decodeFixed_putFixed_of_lt (UInt32.toNat_lt _)
  rw [decodeZfProps, if_neg (not_not.mpr hlen), if_neg (not_not.mpr hmagic),
    if_neg (not_not.mpr hversion), htake, hcrc, if_neg (not_not.mpr rfl), hparts]

theorem decodeZfPropsAuto_encodeZfProps {partitions : ℕ} (h : partitions < 2 ^ 32) :
    decodeZfPropsAuto (encodeZfProps partitions) = .ok (ofPartitions partitions) := by
  have hlen : (encodeZfProps partitions).length = 16 := by
    simp only [encodeZfProps, List.length_append, length_putFixed]
  have hmagic : fixedAt 4 0 (encodeZfProps partitions) = kZfPropsMagic := by
    rw [fixedAt, List.drop_zero, encodeZfProps, List.append_assoc,
      List.take_left' (length_putFixed 4 _)]
    exact decodeFixed_putFixed_of_lt (by decide)
  rw [decodeZfPropsAuto, if_neg (by omega), if_pos hmagic, if_neg (by simp [hlen, kZfPropsSize]),
    decodeZfProps_encodeZfProps h]
  rfl

/-- Both formats are read back through one decoder. -/
theorem props_roundTrip :
    (∀ {p : ZfPropsV2}, p.Fits → decodeZfPropsAuto (encodeZfPropsV2 p) = .ok p) ∧
      ∀ {partitions : ℕ}, partitions < 2 ^ 32 →
        decodeZfPropsAuto (encodeZfProps partitions) = .ok (ofPartitions partitions) :=
  ⟨decodeZfPropsAuto_encodeZfPropsV2, decodeZfPropsAuto_encodeZfProps⟩

/-- Two range tables, with an empty and a binary boundary. -/
def twoTables : ZfPropsV2 where
  routingMode := 1
  comparatorName := [108, 101, 120]
  tables := [⟨0, 2, [0, 1], [[]]⟩, ⟨1, 3, [0, 1, 2], [[0, 255], [1]]⟩]
  currentVersion := 1

theorem props_roundTrip_twoTables :
    decodeZfPropsAuto (encodeZfPropsV2 twoTables) = .ok twoTables ∧
      decodeZfPropsAuto (encodeZfProps 3) = .ok (ofPartitions 3) := by
  refine ⟨props_roundTrip.1 ⟨rfl, by decide, by decide, ?_, by decide⟩, props_roundTrip.2 (by decide)⟩
  intro t ht
  simp only [twoTables, List.mem_cons, List.not_mem_nil, or_false] at ht
  rcases ht with rfl | rfl
  · exact ⟨by decide, rfl, by decide, by decide, by decide, by decide⟩
  · exact ⟨by decide, rfl, by decide, by decide, by decide, by decide⟩

section size
variable {α : Type*} {f : α → Bytes} {xs : List α}

theorem length_le_flatMap {x : α} (hx : x ∈ xs) : (f x).length ≤ (xs.flatMap f).length := by
  obtain ⟨before, after, rfl⟩ := List.append_of_mem hx
  rw [List.flatMap_append, List.flatMap_cons, List.length_append, List.length_append]
  omega

theorem mul_length_le_flatMap {k : ℕ} (h : ∀ x ∈ xs, k ≤ (f x).length) :
    k * xs.length ≤ (xs.flatMap f).length := by
  induction xs with
  | nil => exact Nat.zero_le _
  | cons x xs ih =>
    have hx := h x List.mem_cons_self
    have hxs := ih fun y hy => h y (List.mem_cons_of_mem _ hy)
    rw [List.flatMap_cons, List.length_append, List.length_cons, Nat.mul_succ]
    omega

end size

/-- The parts of an encoded table are no longer than the whole. -/
theorem length_encodeTable (t : ZfPropsTableInfo) :
    (encodeTable t).length =
      12 + 4 * t.partIds.length + (t.boundaries.flatMap encodeBoundary).length := by
  simp only [encodeTable, List.length_append, length_putFixed, length_flatMap_words]
  omega

theorem length_encodeZfPropsV2 (p : ZfPropsV2) :
    (encodeZfPropsV2 p).length =
      28 + p.comparatorName.length + (p.tables.flatMap encodeTable).length := by
  simp only [encodeZfPropsV2, encodePayload, List.length_append, length_putFixed, List.length_cons,
    List.length_nil]
  omega

/-- A file of at most 4 MiB has no field that overflows its word, if versions and ids are small. -/
theorem fits_of_length {p : ZfPropsV2} (hlen : (encodeZfPropsV2 p).length ≤ 4 * 1024 * 1024)
    (hformat : p.formatVersion = 2) (hcur : p.currentVersion < p.tables.length)
    (htables : ∀ t ∈ p.tables, t.version < p.tables.length ∧ t.partitions = t.partIds.length ∧
      ∀ id ∈ t.partIds, id < t.partIds.length) : p.Fits := by
  rw [length_encodeZfPropsV2] at hlen
  have hcount : 12 * p.tables.length ≤ (p.tables.flatMap encodeTable).length := by
    refine mul_length_le_flatMap ?_
    intro t _
    rw [length_encodeTable]
    omega
  refine ⟨hformat, by omega, by omega, ?_, by omega⟩
  intro t ht
  obtain ⟨hversion, hparts, hids⟩ := htables t ht
  have htable : (encodeTable t).length ≤ (p.tables.flatMap encodeTable).length :=
    length_le_flatMap ht
  rw [length_encodeTable] at htable
  have hbounds : 4 * t.boundaries.length ≤ (t.boundaries.flatMap encodeBoundary).length := by
    refine mul_length_le_flatMap ?_
    intro b _
    simp [encodeBoundary]
  refine ⟨by omega, hparts, by omega, ?_, by omega, ?_⟩
  · intro id hid
    have hlt := hids id hid
    omega
  · intro b hb
    have hle : (encodeBoundary b).length ≤ (t.boundaries.flatMap encodeBoundary).length :=
      length_le_flatMap hb
    rw [encodeBoundary, List.length_append] at hle
    omega

end ZeroFlush.RoutingProps
