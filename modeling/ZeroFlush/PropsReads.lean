import ZeroFlush.BoundedReads
import ZeroFlush.RoutingProps

/-! # The reads of the ZFPROPS decoder

The decoder of `RoutingProps` with every load checked against the end of the file. -/
namespace ZeroFlush.PropsReads
open FixedWidthCodec WalFormat CursorParsing BoundedReads RoutingProps

abbrev Loader (α : Type) := Reader (Stop Status) α

abbrev corrupt (msg : String) : Stop Status := .fail (.corruption msg)

def loadBoundary : Loader Bytes := do
  need 4 (corrupt "ZFPROPS v2: boundary len truncated")
  let len ← load 4
  need len (corrupt "ZFPROPS v2: boundary data truncated")
  copy len

/-- The size of the partition ids is computed in 32 bits, their number is not cut. -/
def loadTable : Loader ZfPropsTableInfo := do
  need 8 (corrupt "ZFPROPS v2: table header truncated")
  let version ← load 4
  let partitions ← load 4
  need (partitions * 4 % 2 ^ 32) (corrupt "ZFPROPS v2: part_ids truncated")
  let partIds ← many partitions (load 4)
  need 4 (corrupt "ZFPROPS v2: boundary count truncated")
  let count ← load 4
  let boundaries ← many count loadBoundary
  pure ⟨version, partitions, partIds, boundaries⟩

def requireFormatVersion (formatVersion : ℕ) : Loader Unit := fun input =>
  if formatVersion ≠ 2 then .error (corrupt "ZFPROPS v2: unsupported format_version")
  else .ok ((), input)

/-- Of the mode and its padding only the first byte is looked at. -/
def loadZfPropsV2 : Loader ZfPropsV2 := do
  need 12 (corrupt "ZFPROPS v2: header too short")
  let _magic ← load 4
  let formatVersion ← load 4
  requireFormatVersion formatVersion
  let mode ← copy 4
  need 4 (corrupt "ZFPROPS v2: cname_len truncated")
  let nameLen ← load 4
  need nameLen (corrupt "ZFPROPS v2: cname truncated")
  let name ← copy nameLen
  need 4 (corrupt "ZFPROPS v2: table_count truncated")
  let tableCount ← load 4
  let tables ← many tableCount loadTable
  need 4 (corrupt "ZFPROPS v2: current_version truncated")
  let currentVersion ← load 4
  pure ⟨formatVersion, mode.headD 0, name, tables, currentVersion⟩

/-- The checksum of the first `n` bytes. -/
def checksum (data : Bytes) (n : ℕ) : Except (Stop Status) ℕ :=
  if data.length < n then .error .outside else .ok (crc32c (data.take n)).toNat

def loadZfProps (data : Bytes) : Except (Stop Status) ℕ :=
  if data.length ≠ kZfPropsSize then .error (corrupt "ZFPROPS: bad size")
  else do
    let (magic, data₁) ← load 4 data
    let (version, data₂) ← load 4 data₁
    let (partitions, data₃) ← load 4 data₂
    let (crc, _) ← load 4 data₃
    if magic ≠ kZfPropsMagic then .error (corrupt "ZFPROPS: bad magic")
    else if version ≠ 1 then .error (corrupt "ZFPROPS: unsupported version")
    else do
      let actual ← checksum data 12
      if actual ≠ crc then .error (corrupt "ZFPROPS: crc mismatch") else .ok partitions

def loadZfPropsAuto (data : Bytes) : Except (Stop Status) ZfPropsV2 :=
  if data.length < 8 then .error (corrupt "ZFPROPS: too short")
  else do
    let (magic, _) ← load 4 data
    if magic = kZfPropsMagic then
      if data.length < kZfPropsSize then .error (corrupt "ZFPROPS: v1 too short")
      else do
        let partitions ← loadZfProps data
        .ok
          { formatVersion := 1, routingMode := 0, comparatorName := []
            tables := [⟨0, partitions, List.range partitions, []⟩], currentVersion := 0 }
    else if magic ≠ kZfPropsMagicV2 then .error (corrupt "ZFPROPS: bad magic")
    else do
      let (p, rest) ← loadZfPropsV2 data
      if rest.length < 4 then .error (corrupt "ZFPROPS v2: crc truncated")
      else do
        let (crc, _) ← load 4 rest
        let actual ← checksum data (data.length - rest.length)
        if actual ≠ crc then .error (corrupt "ZFPROPS v2: crc mismatch") else .ok p

/-- The table is one the decoder can return: each field holds what its words hold. -/
structure Stored (t : ZfPropsTableInfo) : Prop where
  version : t.version < 2 ^ 32
  partitions : t.partitions < 2 ^ 32
  partIds_length : t.partIds.length = t.partitions
  partIds : ∀ id ∈ t.partIds, id < 2 ^ 32
  count : t.boundaries.length < 2 ^ 32
  boundaries : ∀ b ∈ t.boundaries, b.length < 2 ^ 32

section parses

theorem parses_boundary : Parses loadBoundary encodeBoundary fun b => b.length < 2 ^ 32 := by
  intro input b rest
  simp only [loadBoundary, need_bind_eq_ok, load_bind_eq_ok, copy_eq_ok]
  constructor
  · rintro ⟨-, len, mid, rfl, hlt, -, rfl, rfl⟩
    exact ⟨by rw [encodeBoundary, List.append_assoc], hlt⟩
  · rintro ⟨rfl, hlt⟩
    refine ⟨?_, b.length, b ++ rest, ?_, hlt, ?_, rfl, rfl⟩
    · simp only [encodeBoundary, List.length_append, length_putFixed]
      omega
    · rw [encodeBoundary, List.append_assoc]
    · rw [List.length_append]
      omega

/-- A length is checked before the bytes behind it are copied. -/
theorem boundary_ne_outside (input : Bytes) : loadBoundary input ≠ .error .outside := by
  intro h
  obtain ⟨hfour, h⟩ := need_bind_eq_outside.mp h
  obtain ⟨len, mid, -, -, h⟩ := (load_bind_eq_error hfour).mp h
  obtain ⟨hlen, h⟩ := need_bind_eq_outside.mp h
  exact absurd (copy_eq_error.mp h).1 (Nat.not_lt.mpr hlen)

theorem words (n : ℕ) :
    Parses (many n (load 4) : Loader (List ℕ)) (List.flatMap (putFixed 4))
      fun ids => ids.length = n ∧ ∀ id ∈ ids, id < 2 ^ 32 := Parses.many (parses_load 4) n

theorem boundaries (n : ℕ) :
    Parses (many n loadBoundary) (List.flatMap encodeBoundary)
      fun bounds => bounds.length = n ∧ ∀ b ∈ bounds, b.length < 2 ^ 32 :=
  Parses.many parses_boundary n

theorem parses_table : Parses loadTable encodeTable Stored := by
  intro input t rest
  simp only [loadTable, need_bind_eq_ok, load_bind_eq_ok]
  constructor
  · rintro ⟨-, version, mid, rfl, hversion, partitions, mid, rfl, hparts, -, h⟩
    obtain ⟨ids, mid, hids, hrest⟩ := bind_eq_ok.mp h
    obtain ⟨rfl, hlen, hall⟩ := (words partitions).mp hids
    obtain ⟨-, hcounted⟩ := need_bind_eq_ok.mp hrest
    obtain ⟨count, mid, rfl, hcount, hlast⟩ := load_bind_eq_ok.mp hcounted
    obtain ⟨bounds, mid, hbounds, hpure⟩ := bind_eq_ok.mp hlast
    obtain ⟨rfl, rfl, hshort⟩ := (boundaries count).mp hbounds
    obtain ⟨rfl, rfl⟩ := pure_eq_ok.mp hpure
    refine ⟨?_, hversion, hparts, hlen, hall, hcount, hshort⟩
    simp only [encodeTable, List.append_assoc]
  · rintro ⟨rfl, hs⟩
    have hids : (t.partIds.flatMap (putFixed 4)).length = 4 * t.partitions := by
      rw [length_flatMap_words, hs.partIds_length]
    have hle : t.partitions * 4 % 2 ^ 32 ≤ t.partitions * 4 := Nat.mod_le _ _
    have hread : (many t.partitions (load 4) : Loader (List ℕ))
        (t.partIds.flatMap (putFixed 4) ++ (putFixed 4 t.boundaries.length ++
          (t.boundaries.flatMap encodeBoundary ++ rest))) =
        .ok (t.partIds, putFixed 4 t.boundaries.length ++
          (t.boundaries.flatMap encodeBoundary ++ rest)) :=
      (words t.partitions).mpr ⟨rfl, hs.partIds_length, hs.partIds⟩
    have hbounds : many t.boundaries.length loadBoundary
        (t.boundaries.flatMap encodeBoundary ++ rest) = .ok (t.boundaries, rest) :=
      (boundaries _).mpr ⟨rfl, rfl, hs.boundaries⟩
    refine ⟨?_, t.version, _, by rw [encodeTable, List.append_assoc], hs.version, t.partitions, _,
      by rw [List.append_assoc], hs.partitions, ?_, ?_⟩
    · simp only [encodeTable, List.length_append, length_putFixed]
      omega
    · simp only [List.length_append, hids]
      omega
    · rw [List.append_assoc, List.append_assoc]
      refine bind_eq_ok.mpr ⟨_, _, hread, need_bind_eq_ok.mpr ⟨?_, load_bind_eq_ok.mpr ⟨_, _, rfl,
        hs.count, bind_eq_ok.mpr ⟨_, _, hbounds, rfl⟩⟩⟩⟩
      rw [List.length_append, length_putFixed]
      omega

end parses

section outside

theorem words_outside {n : ℕ} {input : Bytes} :
    (many n (load 4) : Loader (List ℕ)) input = .error .outside ↔ input.length < n * 4 := by
  constructor
  · intro h
    obtain ⟨ids, mid, hlen, rfl, -, hload⟩ := (Parses.many_eq_error (parses_load 4) n).mp h
    have hmid := (load_eq_error.mp hload).1
    rw [List.length_append, length_flatMap_words]
    omega
  · intro hshort
    have hload : FailsWith (fun _ => False) (load 4 : Loader ℕ) := failsWith_load 4
    cases hmany : (many n (load 4) : Loader (List ℕ)) input with
    | ok x =>
      obtain ⟨rfl, hlen, -⟩ := (words n).mp hmany
      rw [List.length_append, length_flatMap_words, hlen] at hshort
      omega
    | error s =>
      cases s with
      | fail e => exact (hload.many n input e hmany).elim
      | outside => rfl

theorem boundaries_ne_outside (n : ℕ) (input : Bytes) :
    many n loadBoundary input ≠ .error .outside := by
  intro h
  obtain ⟨bounds, mid, -, -, -, hstop⟩ := (Parses.many_eq_error parses_boundary n).mp h
  exact boundary_ne_outside mid hstop

/-- The ids of the table end behind the file, though their size in 32 bits does not. -/
structure CutShort (version partitions : ℕ) (rest : Bytes) : Prop where
  version_lt : version < 2 ^ 32
  partitions_lt : partitions < 2 ^ 32
  passes : partitions * 4 % 2 ^ 32 ≤ rest.length
  short : rest.length < partitions * 4

theorem CutShort.large {version partitions : ℕ} {rest : Bytes}
    (h : CutShort version partitions rest) : 2 ^ 30 ≤ partitions := by
  have hpasses := h.passes
  have hshort := h.short
  omega

theorem table_outside {input : Bytes} :
    loadTable input = .error .outside ↔
      ∃ version partitions rest, input = putFixed 4 version ++ (putFixed 4 partitions ++ rest) ∧
        CutShort version partitions rest := by
  rw [loadTable, need_bind_eq_outside]
  constructor
  · rintro ⟨height, h⟩
    obtain ⟨version, mid, rfl, hversion, h⟩ := (load_bind_eq_error (by omega)).mp h
    rw [List.length_append, length_putFixed] at height
    obtain ⟨partitions, rest, rfl, hparts, h⟩ := (load_bind_eq_error (by omega)).mp h
    obtain ⟨hpasses, h⟩ := need_bind_eq_outside.mp h
    refine ⟨version, partitions, rest, rfl, hversion, hparts, hpasses, ?_⟩
    rcases bind_eq_error.mp h with hids | ⟨ids, mid, -, hrest⟩
    · exact words_outside.mp hids
    -- behind the ids every load is checked
    · obtain ⟨hfour, hcounted⟩ := need_bind_eq_outside.mp hrest
      obtain ⟨count, mid, -, -, hlast⟩ := (load_bind_eq_error hfour).mp hcounted
      rcases bind_eq_error.mp hlast with hbounds | ⟨bounds, mid, -, hpure⟩
      · exact absurd hbounds (boundaries_ne_outside count _)
      · exact absurd hpure pure_ne_error
  · rintro ⟨version, partitions, rest, rfl, hcut⟩
    have hversion : 4 ≤ (putFixed 4 version ++ (putFixed 4 partitions ++ rest)).length := by
      rw [List.length_append, length_putFixed]
      omega
    have hparts : 4 ≤ (putFixed 4 partitions ++ rest).length := by
      rw [List.length_append, length_putFixed]
      omega
    refine ⟨?_, (load_bind_eq_error hversion).mpr ⟨version, _, rfl, hcut.version_lt,
      (load_bind_eq_error hparts).mpr ⟨partitions, rest, rfl, hcut.partitions_lt,
        need_bind_eq_outside.mpr ⟨hcut.passes, bind_eq_error.mpr
          (.inl (words_outside.mpr hcut.short))⟩⟩⟩⟩
    rw [List.length_append, List.length_append, length_putFixed, length_putFixed]
    omega

end outside

/-- What stands before the first table that is read. -/
structure Preamble where
  mode : Bytes
  name : Bytes
  tableCount : ℕ
  mode_length : mode.length = 4
  name_length : name.length < 2 ^ 32
  tableCount_lt : tableCount < 2 ^ 32

def Preamble.bytes (p : Preamble) : Bytes :=
  putFixed 4 kZfPropsMagicV2 ++ (putFixed 4 2 ++ (p.mode ++ (putFixed 4 p.name.length ++
    (p.name ++ putFixed 4 p.tableCount))))

/-- After some tables that are whole the file has one that is not, and the check passes. -/
def Overruns (data : Bytes) : Prop :=
  ∃ (p : Preamble) (tables : List ZfPropsTableInfo) (version partitions : ℕ) (rest : Bytes),
    data = p.bytes ++ (tables.flatMap encodeTable ++
      (putFixed 4 version ++ (putFixed 4 partitions ++ rest))) ∧
    tables.length < p.tableCount ∧ (∀ t ∈ tables, Stored t) ∧ CutShort version partitions rest

theorem tables_outside {n : ℕ} {input : Bytes} :
    many n loadTable input = .error .outside ↔
      ∃ (tables : List ZfPropsTableInfo) (version partitions : ℕ) (rest : Bytes),
        input = tables.flatMap encodeTable ++
          (putFixed 4 version ++ (putFixed 4 partitions ++ rest)) ∧
        tables.length < n ∧ (∀ t ∈ tables, Stored t) ∧ CutShort version partitions rest := by
  rw [Parses.many_eq_error parses_table n]
  constructor
  · rintro ⟨tables, mid, hlen, rfl, hall, hstop⟩
    obtain ⟨version, partitions, rest, rfl, hcut⟩ := table_outside.mp hstop
    exact ⟨tables, version, partitions, rest, rfl, hlen, hall, hcut⟩
  · rintro ⟨tables, version, partitions, rest, rfl, hlen, hall, hcut⟩
    exact ⟨tables, _, hlen, rfl, hall, table_outside.mpr ⟨version, partitions, rest, rfl, hcut⟩⟩

theorem requireFormatVersion_eq_ok {n : ℕ} {u : Unit} {input rest : Bytes} :
    requireFormatVersion n input = .ok (u, rest) ↔ n = 2 ∧ input = rest := by
  rw [requireFormatVersion]
  split
  next hne => simp [hne]
  next heq => simp [not_not.mp heq]

theorem requireFormatVersion_ne_outside (n : ℕ) (input : Bytes) :
    requireFormatVersion n input ≠ .error .outside := by
  rw [requireFormatVersion]
  split
  · rw [corrupt]
    simp
  · simp

/-- What is left to do behind the preamble. -/
def loadBody (p : Preamble) : Loader ZfPropsV2 := do
  let tables ← many p.tableCount loadTable
  need 4 (corrupt "ZFPROPS v2: current_version truncated")
  let currentVersion ← load 4
  pure ⟨2, p.mode.headD 0, p.name, tables, currentVersion⟩

theorem loadZfPropsV2_preamble (p : Preamble) (body : Bytes) :
    loadZfPropsV2 (p.bytes ++ body) = loadBody p body := by
  have hmode : (copy 4 : Loader Bytes) = copy p.mode.length := by rw [p.mode_length]
  have hformat : ∀ (r : Loader ZfPropsV2) (input : Bytes),
      (requireFormatVersion 2 >>= fun _ => r) input = r input := fun r input => rfl
  have htwelve : 12 ≤ (p.bytes ++ body).length := by
    simp only [Preamble.bytes, List.length_append, length_putFixed, p.mode_length]
    omega
  rw [loadZfPropsV2, need_bind_of_le htwelve]
  simp only [Preamble.bytes, List.append_assoc]
  rw [load_bind_putFixed (by decide), load_bind_putFixed (by decide), hformat, hmode,
    copy_bind_append, need_bind_of_le (by simp), load_bind_putFixed p.name_length,
    need_bind_of_le (by simp), copy_bind_append, need_bind_of_le (by simp),
    load_bind_putFixed p.tableCount_lt]
  rfl

/-- Behind the tables nothing is read that was not checked. -/
theorem body_outside {p : Preamble} {body : Bytes} :
    loadBody p body = .error .outside ↔ many p.tableCount loadTable body = .error .outside := by
  rw [loadBody, bind_eq_error]
  constructor
  · rintro (htables | ⟨tables, mid, -, hlast⟩)
    · exact htables
    · obtain ⟨hfour, hcurrent⟩ := need_bind_eq_outside.mp hlast
      obtain ⟨current, rest, -, -, hpure⟩ := (load_bind_eq_error hfour).mp hcurrent
      exact absurd hpure pure_ne_error
  · intro htables
    exact .inl htables

/-- A read outside is not made before the tables. -/
theorem exists_preamble {data : Bytes} (hmagic : fixedAt 4 0 data = kZfPropsMagicV2)
    (h : loadZfPropsV2 data = .error .outside) : ∃ (p : Preamble) (body : Bytes),
      data = p.bytes ++ body := by
  obtain ⟨htwelve, h₁⟩ := need_bind_eq_outside.mp h
  obtain ⟨magic, data₁, rfl, hlt, h₂⟩ := (load_bind_eq_error (by omega)).mp h₁
  have hsame : magic = kZfPropsMagicV2 := by
    rw [← hmagic, fixedAt, List.drop_zero, List.take_left' (length_putFixed 4 _),
      decodeFixed_putFixed_of_lt hlt]
  rw [List.length_append, length_putFixed] at htwelve
  have hformat : 4 ≤ data₁.length := by omega
  obtain ⟨format, data₂, rfl, -, h₃⟩ := (load_bind_eq_error hformat).mp h₂
  rw [List.length_append, length_putFixed] at htwelve
  rcases bind_eq_error.mp h₃ with hstop | ⟨_, data₃, hok, h₄⟩
  · exact absurd hstop (requireFormatVersion_ne_outside _ _)
  obtain ⟨rfl, rfl⟩ := requireFormatVersion_eq_ok.mp hok
  have hpad : 4 ≤ data₂.length := by omega
  obtain ⟨mode, data₃, rfl, hmode, h₅⟩ := (copy_bind_eq_error hpad).mp h₄
  obtain ⟨hfour, h₆⟩ := need_bind_eq_outside.mp h₅
  obtain ⟨nameLen, data₄, rfl, hname, h₇⟩ := (load_bind_eq_error hfour).mp h₆
  obtain ⟨hlong, h₈⟩ := need_bind_eq_outside.mp h₇
  obtain ⟨name, data₅, rfl, rfl, h₉⟩ := (copy_bind_eq_error hlong).mp h₈
  obtain ⟨hcounted, h₁₀⟩ := need_bind_eq_outside.mp h₉
  obtain ⟨count, body, rfl, hcount, -⟩ := (load_bind_eq_error hcounted).mp h₁₀
  refine ⟨⟨mode, name, count, hmode, hname, hcount⟩, body, ?_⟩
  simp only [Preamble.bytes, hsame, List.append_assoc]

theorem zfPropsV2_outside {data : Bytes} (hmagic : fixedAt 4 0 data = kZfPropsMagicV2) :
    loadZfPropsV2 data = .error .outside ↔ Overruns data := by
  constructor
  · intro h
    obtain ⟨p, body, rfl⟩ := exists_preamble hmagic h
    rw [loadZfPropsV2_preamble, body_outside] at h
    obtain ⟨tables, version, partitions, rest, rfl, hlen, hall, hcut⟩ := tables_outside.mp h
    exact ⟨p, tables, version, partitions, rest, rfl, hlen, hall, hcut⟩
  · rintro ⟨p, tables, version, partitions, rest, rfl, hlen, hall, hcut⟩
    rw [loadZfPropsV2_preamble, body_outside]
    exact tables_outside.mpr ⟨tables, version, partitions, rest, rfl, hlen, hall, hcut⟩

theorem load_eq {w : ℕ} {input : Bytes} (h : w ≤ input.length) :
    (load w : Loader ℕ) input = .ok (fixedAt w 0 input, input.drop w) := by
  rw [load, if_neg (Nat.not_lt.mpr h), word, fixedAt, List.drop_zero]

theorem checksum_eq {data : Bytes} {n : ℕ} (h : n ≤ data.length) :
    checksum data n = .ok (crc32c (data.take n)).toNat := by
  rw [checksum, if_neg (Nat.not_lt.mpr h)]

/-- The loads of the first format stay inside its 16 bytes. -/
theorem loadZfProps_eq (data : Bytes) : loadZfProps data = (decodeZfProps data).mapError .fail := by
  rw [loadZfProps, decodeZfProps]
  split
  · rfl
  next hsize =>
    have hlen : data.length = 16 := not_not.mp hsize
    have hword : ∀ i, fixedAt 4 0 (data.drop i) = fixedAt 4 i data := fun i => rfl
    rw [load_eq (by omega)]
    simp only [Bind.bind, Except.bind]
    rw [load_eq (by rw [List.length_drop]; omega)]
    simp only [List.drop_drop]
    rw [load_eq (by rw [List.length_drop]; omega)]
    simp only [List.drop_drop]
    rw [load_eq (by rw [List.length_drop]; omega), checksum_eq (by omega)]
    simp only [hword]
    split
    · rfl
    split
    · rfl
    split <;> rfl

theorem follows_boundary : Follows readBoundary loadBoundary :=
  (follows_need 4 _).bind fun _ => (follows_load 4).bind fun len =>
    (follows_need len _).bind fun _ => follows_copy len

theorem follows_table : Follows readTable loadTable :=
  (follows_need 8 _).bind fun _ => (follows_load 4).bind fun _ => (follows_load 4).bind fun n =>
    (follows_need _ _).bind fun _ => ((follows_load 4).many n).bind fun _ =>
      (follows_need 4 _).bind fun _ => (follows_load 4).bind fun count =>
        (follows_boundary.many count).bind fun _ => follows_pure _

theorem follows_formatVersion (n : ℕ) : Follows (checkFormatVersion n) (requireFormatVersion n) := by
  intro input
  rw [checkFormatVersion, requireFormatVersion]
  split <;> exact ⟨fun x h => by cases h; try rfl, fun e h => by cases h; try rfl⟩

theorem follows_zfPropsV2 : Follows readZfPropsV2 loadZfPropsV2 :=
  (follows_need 12 _).bind fun _ => (follows_load 4).bind fun _ => (follows_load 4).bind fun n =>
    (follows_formatVersion n).bind fun _ => (follows_copy 4).bind fun _ =>
      (follows_need 4 _).bind fun _ => (follows_load 4).bind fun len =>
        (follows_need len _).bind fun _ => (follows_copy len).bind fun _ =>
          (follows_need 4 _).bind fun _ => (follows_load 4).bind fun count =>
            (follows_table.many count).bind fun _ => (follows_need 4 _).bind fun _ =>
              (follows_load 4).bind fun _ => follows_pure _

/-- The second format: only `loadZfPropsV2` can leave the file. -/
theorem loadZfPropsAuto_v2 {data : Bytes} (hlen : 8 ≤ data.length)
    (hmagic : fixedAt 4 0 data = kZfPropsMagicV2) :
    loadZfPropsAuto data =
      match loadZfPropsV2 data with
      | .error s => .error s
      | .ok (p, rest) =>
        if rest.length < 4 then .error (corrupt "ZFPROPS v2: crc truncated")
        else if (crc32c (data.take (data.length - rest.length))).toNat ≠ fixedAt 4 0 rest then
          .error (corrupt "ZFPROPS v2: crc mismatch")
        else .ok p := by
  rw [loadZfPropsAuto, if_neg (by omega), load_eq (by omega)]
  simp only [Bind.bind, Except.bind]
  rw [hmagic, if_neg (by decide), if_neg (by simp)]
  cases loadZfPropsV2 data with
  | error s => rfl
  | ok x =>
    dsimp only
    split
    · rfl
    next hfour => rw [load_eq (by omega), checksum_eq (by omega)]

/-- As long as nothing is read behind the file, the loads are those of the decoder. -/
theorem loadZfPropsAuto_eq {data : Bytes} (h : loadZfPropsAuto data ≠ .error .outside) :
    loadZfPropsAuto data = (decodeZfPropsAuto data).mapError .fail := by
  by_cases hshort : data.length < 8
  · rw [loadZfPropsAuto, decodeZfPropsAuto, if_pos hshort, if_pos hshort]
    rfl
  by_cases hv2 : fixedAt 4 0 data = kZfPropsMagicV2
  · rw [loadZfPropsAuto_v2 (by omega) hv2] at h ⊢
    rw [decodeZfPropsAuto, if_neg hshort, hv2, if_neg (by decide), if_neg (by simp)]
    obtain ⟨hok, hfail⟩ := follows_zfPropsV2 data
    cases hload : loadZfPropsV2 data with
    | error s =>
      cases s with
      | fail e =>
        rw [hfail e hload]
        rfl
      | outside =>
        rw [hload] at h
        exact absurd rfl h
    | ok x =>
      rw [hok x hload]
      dsimp only
      split
      · rfl
      split <;> rfl
  · rw [loadZfPropsAuto, decodeZfPropsAuto, if_neg hshort, if_neg hshort, load_eq (by omega)]
    simp only [Bind.bind, Except.bind]
    by_cases hv1 : fixedAt 4 0 data = kZfPropsMagic
    · rw [if_pos hv1, if_pos hv1, loadZfProps_eq]
      split
      · rfl
      · cases decodeZfProps data <;> rfl
    · rw [if_neg hv1, if_neg hv1, if_pos hv2, if_pos hv2]
      rfl

def IsCorruption (e : Status) : Prop := ∃ msg, e = .corruption msg

theorem isCorruption (msg : String) : IsCorruption (.corruption msg) := ⟨msg, rfl⟩

theorem failsWith_boundary : FailsWith IsCorruption loadBoundary :=
  (failsWith_need (isCorruption _) 4).bind fun _ => (failsWith_load 4).bind fun len =>
    (failsWith_need (isCorruption _) len).bind fun _ => failsWith_copy len

theorem failsWith_table : FailsWith IsCorruption loadTable :=
  (failsWith_need (isCorruption _) 8).bind fun _ => (failsWith_load 4).bind fun _ =>
    (failsWith_load 4).bind fun n => (failsWith_need (isCorruption _) _).bind fun _ =>
      ((failsWith_load 4).many n).bind fun _ => (failsWith_need (isCorruption _) 4).bind fun _ =>
        (failsWith_load 4).bind fun count => (failsWith_boundary.many count).bind fun _ =>
          failsWith_pure _

theorem failsWith_formatVersion (n : ℕ) : FailsWith IsCorruption (requireFormatVersion n) := by
  intro input e h
  rw [requireFormatVersion] at h
  split at h
  · cases h
    exact isCorruption _
  · cases h

theorem failsWith_zfPropsV2 : FailsWith IsCorruption loadZfPropsV2 :=
  (failsWith_need (isCorruption _) 12).bind fun _ => (failsWith_load 4).bind fun _ =>
    (failsWith_load 4).bind fun n => (failsWith_formatVersion n).bind fun _ =>
      (failsWith_copy 4).bind fun _ => (failsWith_need (isCorruption _) 4).bind fun _ =>
        (failsWith_load 4).bind fun len => (failsWith_need (isCorruption _) len).bind fun _ =>
          (failsWith_copy len).bind fun _ => (failsWith_need (isCorruption _) 4).bind fun _ =>
            (failsWith_load 4).bind fun count => (failsWith_table.many count).bind fun _ =>
              (failsWith_need (isCorruption _) 4).bind fun _ => (failsWith_load 4).bind fun _ =>
                failsWith_pure _

theorem decodeZfProps_error {data : Bytes} {e : Status} (h : decodeZfProps data = .error e) :
    IsCorruption e := by
  rw [decodeZfProps] at h
  split at h
  · cases h
    exact isCorruption _
  split at h
  · cases h
    exact isCorruption _
  split at h
  · cases h
    exact isCorruption _
  split at h <;> cases h
  exact isCorruption _

/-- Every status the decoder returns is `Corruption`. -/
theorem loadZfPropsAuto_fail {data : Bytes} {e : Status}
    (h : loadZfPropsAuto data = .error (.fail e)) : IsCorruption e := by
  by_cases hshort : data.length < 8
  · rw [loadZfPropsAuto, if_pos hshort] at h
    cases h
    exact isCorruption _
  by_cases hv2 : fixedAt 4 0 data = kZfPropsMagicV2
  · rw [loadZfPropsAuto_v2 (by omega) hv2] at h
    cases hload : loadZfPropsV2 data with
    | error s =>
      rw [hload] at h
      cases h
      exact failsWith_zfPropsV2 data e hload
    | ok x =>
      rw [hload] at h
      dsimp only at h
      split at h
      · cases h
        exact isCorruption _
      split at h <;> cases h
      exact isCorruption _
  · rw [loadZfPropsAuto, if_neg hshort, load_eq (by omega)] at h
    simp only [Bind.bind, Except.bind] at h
    by_cases hv1 : fixedAt 4 0 data = kZfPropsMagic
    · rw [if_pos hv1, loadZfProps_eq] at h
      split at h
      · cases h
        exact isCorruption _
      · cases hprops : decodeZfProps data with
        | ok partitions =>
          rw [hprops] at h
          cases h
        | error e' =>
          rw [hprops] at h
          cases h
          exact decodeZfProps_error hprops
    · rw [if_neg hv1, if_pos hv2] at h
      cases h
      exact isCorruption _

/-- The decoder reads nothing outside its input and returns a result or `Corruption`. -/
def ReadsInside (data : Bytes) : Prop :=
  (∃ p, loadZfPropsAuto data = .ok p) ∨ ∃ msg, loadZfPropsAuto data = .error (corrupt msg)

theorem readsInside_iff_ne {data : Bytes} :
    ReadsInside data ↔ loadZfPropsAuto data ≠ .error .outside := by
  constructor
  · rintro (⟨p, h⟩ | ⟨msg, h⟩) hout
    · cases h.symm.trans hout
    · cases h.symm.trans hout
  · intro hne
    cases h : loadZfPropsAuto data with
    | ok p => exact .inl ⟨p, h⟩
    | error s =>
      cases s with
      | fail e =>
        obtain ⟨msg, rfl⟩ := loadZfPropsAuto_fail h
        exact .inr ⟨msg, h⟩
      | outside => exact absurd h hne

theorem Preamble.fixedAt_bytes (p : Preamble) (body : Bytes) :
    fixedAt 4 0 (p.bytes ++ body) = kZfPropsMagicV2 := by
  rw [fixedAt, List.drop_zero, Preamble.bytes, List.append_assoc,
    List.take_left' (length_putFixed 4 _)]
  exact decodeFixed_putFixed_of_lt (by decide)

theorem Preamble.length_bytes (p : Preamble) : p.bytes.length = 20 + p.name.length := by
  simp only [Preamble.bytes, List.length_append, length_putFixed, p.mode_length]
  omega

theorem auto_outside {data : Bytes} : loadZfPropsAuto data = .error .outside ↔ Overruns data := by
  constructor
  · intro h
    by_cases hshort : data.length < 8
    · rw [loadZfPropsAuto, if_pos hshort] at h
      cases h
    by_cases hv2 : fixedAt 4 0 data = kZfPropsMagicV2
    · rw [loadZfPropsAuto_v2 (by omega) hv2] at h
      cases hload : loadZfPropsV2 data with
      | error s =>
        rw [hload] at h
        cases h
        exact (zfPropsV2_outside hv2).mp hload
      | ok x =>
        rw [hload] at h
        dsimp only at h
        split at h
        · cases h
        split at h <;> cases h
    · rw [loadZfPropsAuto, if_neg hshort, load_eq (by omega)] at h
      simp only [Bind.bind, Except.bind] at h
      by_cases hv1 : fixedAt 4 0 data = kZfPropsMagic
      · rw [if_pos hv1, loadZfProps_eq] at h
        split at h
        · cases h
        · cases hprops : decodeZfProps data <;> rw [hprops] at h <;> cases h
      · rw [if_neg hv1, if_pos hv2] at h
        cases h
  · intro h
    obtain ⟨p, tables, version, partitions, rest, hdata, -⟩ := id h
    have hv2 : fixedAt 4 0 data = kZfPropsMagicV2 := by
      rw [hdata]
      exact p.fixedAt_bytes _
    have hlen : 8 ≤ data.length := by
      rw [hdata, List.length_append, p.length_bytes]
      omega
    rw [loadZfPropsAuto_v2 hlen hv2, (zfPropsV2_outside hv2).mpr h]

/-- A table of 2^30 partitions, whose ids take no bytes at all when their size is cut to 32 bits. -/
def overrunning : Bytes :=
  putFixed 4 kZfPropsMagicV2 ++ (putFixed 4 2 ++ ([0, 0, 0, 0] ++ (putFixed 4 0 ++
    (putFixed 4 1 ++ (putFixed 4 0 ++ putFixed 4 (2 ^ 30))))))

end ZeroFlush.PropsReads
