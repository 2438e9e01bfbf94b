import ZeroFlush.DeviceEncoder
import ZeroFlush.SstDecoder

/-! # What the device writer leaves in its output

The output holds the whole words of the finished blocks, the front of the on-chip buffer the bytes
of the open word, and behind them stand the entries of the open block. -/
namespace ZeroFlush.EncodedTables
open FixedWidthCodec ByteMemory Varints PrefixCompression BlockTables DeviceStreams DeviceWords
  DeviceEncoder
open SstDecoder (Fits)

variable {m m' : Memory} {a v index : ℕ} {bs cs : Bytes} {preKey : Keystring} {km : KeyMeta}
  {value : Bytes}

/-! ## One record -/

/-- The same bytes up to an address. -/
def Agree (m m' : Memory) (a : ℕ) : Prop := ∀ i < a, m' i = m i

theorem Agree.refl (m : Memory) (a : ℕ) : Agree m m a := fun _ _ => rfl

theorem agree_store (m : Memory) (a : ℕ) (bs : Bytes) : Agree m (store m a bs) a :=
  fun _ hi => store_apply_of_lt hi

theorem Agree.trans {m'' : Memory} {b : ℕ} (h : Agree m m' a) (h' : Agree m' m'' b) (hab : a ≤ b) :
    Agree m m'' a := fun i hi => (h' i (hi.trans_le hab)).trans (h i hi)

theorem Agree.holds (h : Agree m m' a) {b : ℕ} (hbs : Holds m b bs) (hb : b + bs.length ≤ a) :
    Holds m' b bs := hbs.congr fun i _ hi => h i (by omega)

theorem putFixed_valuelengthTo16 (hv : v < 128 ^ 2) :
    (putFixed 2 (valuelengthTo16 v).1).take (valuelengthTo16 v).2 = putVarint v ∧
      (valuelengthTo16 v).2 = (putVarint v).length ∧ (valuelengthTo16 v).1 < 2 ^ 16 := by
  rw [valuelengthTo16]
  split
  · next hlarge =>
    have hput : putVarint v = [UInt8.ofNat (v % 128 + 128), UInt8.ofNat (v / 128)] := by
      rw [putVarint, putGroups, if_pos (by omega), putGroups_of_lt (by omega)]
    rw [hput]
    refine ⟨?_, rfl, by omega⟩
    have hbytes := putFixed_add (w := 1) (n := v % 128 + 128) (by omega) 1 (v / 128)
    rw [pow_one] at hbytes
    rw [hbytes]
    rfl
  · next hsmall =>
    rw [putVarint_of_lt (by omega)]
    refine ⟨?_, rfl, by omega⟩
    rfl

/-- The head of a record: the three lengths in at most four bytes. -/
theorem holds_head {shared unshared : ℕ} (hshared : shared < 128) (hunshared : unshared < 128)
    (hv : v < 128 ^ 2) (m : Memory) (index : ℕ) :
    Holds (ap32to128Encoder (shared + 256 * unshared + 256 ^ 2 * (valuelengthTo16 v).1) m index)
      index (putVarint shared ++ putVarint unshared ++ putVarint v) := by
  obtain ⟨htake, -, -⟩ := putFixed_valuelengthTo16 hv
  apply (holds_store m index _).initial
  have hword : shared + 256 * unshared + 256 ^ 2 * (valuelengthTo16 v).1 =
      shared + 256 ^ 1 * (unshared + 256 ^ 1 * (valuelengthTo16 v).1) := by ring
  have hbytes : putFixed 4 (shared + 256 ^ 1 * (unshared + 256 ^ 1 * (valuelengthTo16 v).1)) =
      putFixed 1 shared ++ (putFixed 1 unshared ++ putFixed 2 (valuelengthTo16 v).1) := by
    rw [← putFixed_add (by omega), ← putFixed_add (by omega)]
  rw [hword, hbytes, putVarint_of_lt hshared, putVarint_of_lt hunshared, ← htake, List.append_assoc]
  exact (List.prefix_append_right_inj _).mpr
    ((List.prefix_append_right_inj _).mpr (List.take_prefix _ _))

/-- A key of the device that is the key of no record. -/
def previousKey (preKey : Keystring) : Bytes := if isMaxKey preKey then [] else preKey.c

/-- What a record may leave out of its key. -/
def sharedWith (preKey : Keystring) (key : Bytes) : ℕ :=
  if isMaxKey preKey then 0 else sharedLength (preKey.c.take 32) (key.take 32)

theorem sharedWith_spec {key : Bytes} (hkey : key.length = 32)
    (hpre : isMaxKey preKey = false → preKey.c.length = 32 ∧ preKey.c ≠ key) :
    sharedWith preKey key < 32 ∧
      key.take (sharedWith preKey key) = (previousKey preKey).take (sharedWith preKey key) := by
  rw [sharedWith, previousKey]
  cases hmax : isMaxKey preKey with
  | true => exact ⟨Nat.succ_pos 31, rfl⟩
  | false =>
    obtain ⟨hlen, hne⟩ := hpre hmax
    simp only [Bool.false_eq_true, if_false]
    rw [List.take_of_length_le hlen.le, List.take_of_length_le hkey.le]
    refine ⟨?_, take_sharedLength _ _⟩
    have hnot : ¬ key <+: preKey.c := fun h => hne (h.eq_of_length (hkey.trans hlen.symm)).symm
    exact hkey ▸ sharedLength_lt hnot

/-- The slices that carry the value of a record. -/
structure Window (e : Entry) (window : Bytes) : Prop where
  length : window.length = VALUE_LENGTH
  value : window.take e.value.length = e.value

/-- A record is put behind what the buffer holds, as an entry of a block. -/
theorem putKV_spec {e : Entry} {window : Bytes} (he : Fits e) (hw : Window e window)
    (hpre : isMaxKey preKey = false → preKey.c.length = 32 ∧ preKey.c ≠ e.key) (m : Memory)
    (index : ℕ) :
    Agree m (putKV preKey (keyMeta e) window m index).1 index ∧
      Holds (putKV preKey (keyMeta e) window m index).1 index
        (putEntry (sharedWith preKey e.key) e) ∧
      (putKV preKey (keyMeta e) window m index).2 =
        (putEntry (sharedWith preKey e.key) e).length := by
  have hK : KEY_LENGTH = 32 := rfl
  have hV : VALUE_LENGTH = 1024 := rfl
  obtain ⟨hkey, hvalue⟩ := he
  rw [hK] at hkey
  obtain ⟨hlt, -⟩ := sharedWith_spec hkey hpre
  obtain ⟨-, hvlen, -⟩ := @putFixed_valuelengthTo16 e.value.length (by omega)
  generalize hshared : sharedWith preKey e.key = shared at hlt ⊢
  have hunfold : (if isMaxKey preKey then 0 else genSharedKeyLength preKey (keyMeta e).key) =
      shared := by
    have hwords : 16 * ((keyMeta e).key.length / 16) = 32 := by
      show 16 * (KEY_LENGTH / 16) = 32
      rw [hK]
    rw [← hshared, sharedWith, genSharedKeyLength, hwords]
    rfl
  have hput : putKV preKey (keyMeta e) window m index =
      (putvalueData window e.value.length (putkeyData e.key shared
        (ap32to128Encoder (shared + 256 * (32 - shared) +
          256 ^ 2 * (valuelengthTo16 e.value.length).1) m index)
        (index + (2 + (valuelengthTo16 e.value.length).2)))
        (index + (2 + (valuelengthTo16 e.value.length).2) + (32 - shared)),
      2 + (valuelengthTo16 e.value.length).2 + (32 - shared) + e.value.length) := by
    rw [putKV, hunfold]
    rfl
  rw [hput, putkeyData_eq hkey (by omega), putvalueData_eq hw.length (by omega)]
  have hhead := @holds_head e.value.length shared (32 - shared) (by omega) (by omega) (by omega) m
    index
  have hheadlen : (putVarint shared ++ putVarint (32 - shared) ++
      putVarint e.value.length).length = 2 + (valuelengthTo16 e.value.length).2 := by
    rw [List.length_append, List.length_append, putVarint_of_lt (by omega),
      putVarint_of_lt (by omega), hvlen]
    rfl
  have hdrop : (e.key.drop shared).length = 32 - shared := by rw [List.length_drop, hkey]
  generalize hn : 2 + (valuelengthTo16 e.value.length).2 = n at hheadlen ⊢
  have hagree : Agree m (ap32to128Encoder (shared + 256 * (32 - shared) +
      256 ^ 2 * (valuelengthTo16 e.value.length).1) m index) index := agree_store m index _
  generalize ap32to128Encoder (shared + 256 * (32 - shared) +
    256 ^ 2 * (valuelengthTo16 e.value.length).1) m index = m1 at hhead hagree ⊢
  refine ⟨?_, ?_, ?_⟩
  · exact (hagree.trans (agree_store m1 _ _) (by omega)).trans (agree_store _ _ _) (by omega)
  · have hwindow : e.value <+: window.take (16 * ((e.value.length + 15) / 16)) := by
      have htake := List.take_prefix e.value.length
        (window.take (16 * ((e.value.length + 15) / 16)))
      rwa [List.take_take, Nat.min_eq_left (by omega), hw.value] at htake
    rw [putEntry, hkey]
    generalize putVarint shared ++ putVarint (32 - shared) ++ putVarint e.value.length = head
      at hhead hheadlen ⊢
    rw [holds_append, holds_append, List.length_append, hheadlen, hdrop, ← Nat.add_assoc]
    refine ⟨⟨?_, ?_⟩, ?_⟩
    · exact (hhead.store_of_le (by rw [hheadlen])).store_of_le (by rw [hheadlen]; omega)
    · exact (holds_store m1 _ _).store_of_le (by rw [hdrop])
    · exact (holds_store _ _ _).initial hwindow
  · rw [putEntry, hkey, List.length_append, List.length_append, hheadlen, hdrop]

/-! ## One index entry -/

theorem putGroups_of_ge (h : 128 ≤ v) (k : ℕ) :
    putGroups (k + 1) v = UInt8.ofNat (v % 128 + 128) :: putGroups k (v / 128) := if_pos h

theorem sizeToVarint_spec (hv : v < 2 ^ 16) :
    (sizeToVarint v).1.take (sizeToVarint v).2 = putVarint v ∧
      (sizeToVarint v).2 = (putVarint v).length ∧ (sizeToVarint v).2 ≤ 3 := by
  have hlist : List.range 3 = [0, 1, 2] := rfl
  have hgroup2 : v / 128 ^ 2 % 128 = v / 128 / 128 := by omega
  have hgroup1 : v / 128 ^ 1 % 128 = v / 128 % 128 := by omega
  have hgroup0 : v / 128 ^ 0 % 128 = v % 128 := by omega
  rw [sizeToVarint, hlist, putVarint]
  simp only [List.map_cons, List.map_nil, hgroup0, hgroup1, hgroup2]
  rcases Nat.lt_or_ge v 128 with h1 | h1
  · rw [if_neg (by omega), if_neg (by omega), putGroups_of_lt h1, Nat.mod_eq_of_lt h1]
    exact ⟨rfl, rfl, by decide⟩
  · rw [putGroups_of_ge h1]
    rcases Nat.lt_or_ge (v / 128) 128 with h2 | h2
    · rw [if_neg (by omega), if_pos (by omega), putGroups_of_lt h2, Nat.mod_eq_of_lt h2]
      exact ⟨rfl, rfl, by decide⟩
    · rw [if_pos (by omega), putGroups_of_ge h2, putGroups_of_lt (by omega)]
      exact ⟨rfl, rfl, by decide⟩

theorem offsetToVarint_spec (hv : v < 2 ^ 35) :
    (offsetToVarint v).1.take (offsetToVarint v).2 = putVarint v ∧
      (offsetToVarint v).2 = (putVarint v).length ∧ (offsetToVarint v).2 ≤ 5 := by
  have hlist : List.range 5 = [0, 1, 2, 3, 4] := rfl
  have hgroup4 : v / 128 ^ 4 % 128 = v / 128 / 128 / 128 / 128 := by omega
  have hgroup3 : v / 128 ^ 3 % 128 = v / 128 / 128 / 128 % 128 := by omega
  have hgroup2 : v / 128 ^ 2 % 128 = v / 128 / 128 % 128 := by omega
  have hgroup1 : v / 128 ^ 1 % 128 = v / 128 % 128 := by omega
  have hgroup0 : v / 128 ^ 0 % 128 = v % 128 := by omega
  rw [offsetToVarint, hlist, putVarint]
  simp only [List.map_cons, List.map_nil, hgroup0, hgroup1, hgroup2, hgroup3, hgroup4]
  rcases Nat.lt_or_ge v 128 with h1 | h1
  · rw [if_neg (by omega), if_neg (by omega), if_neg (by omega), if_neg (by omega),
      putGroups_of_lt h1, Nat.mod_eq_of_lt h1]
    exact ⟨rfl, rfl, by decide⟩
  rw [putGroups_of_ge h1]
  rcases Nat.lt_or_ge (v / 128) 128 with h2 | h2
  · rw [if_neg (by omega), if_neg (by omega), if_neg (by omega), if_pos (by omega),
      putGroups_of_lt h2, Nat.mod_eq_of_lt h2]
    exact ⟨rfl, rfl, by decide⟩
  rw [putGroups_of_ge h2]
  rcases Nat.lt_or_ge (v / 128 / 128) 128 with h3 | h3
  · rw [if_neg (by omega), if_neg (by omega), if_pos (by omega), putGroups_of_lt h3,
      Nat.mod_eq_of_lt h3]
    exact ⟨rfl, rfl, by decide⟩
  rw [putGroups_of_ge h3]
  rcases Nat.lt_or_ge (v / 128 / 128 / 128) 128 with h4 | h4
  · rw [if_neg (by omega), if_pos (by omega), putGroups_of_lt h4, Nat.mod_eq_of_lt h4]
    exact ⟨rfl, rfl, by decide⟩
  · rw [if_pos (by omega), putGroups_of_ge h4, putGroups_of_lt (by omega)]
    exact ⟨rfl, rfl, by decide⟩

/-- The bytes that count are the handle. -/
theorem putvalueOffsetSizeToString_spec {offset size : ℕ} (hoffset : offset < 2 ^ 35)
    (hsize : size < 2 ^ 16) :
    (putvalueOffsetSizeToString offset size).1.take (putvalueOffsetSizeToString offset size).2 =
        (BlockHandle.mk offset size).encodeTo ∧
      (putvalueOffsetSizeToString offset size).2 = (BlockHandle.mk offset size).encodeTo.length ∧
      (putvalueOffsetSizeToString offset size).2 ≤ 8 := by
  obtain ⟨htake, hlen, hle⟩ := offsetToVarint_spec hoffset
  obtain ⟨htake', hlen', hle'⟩ := sizeToVarint_spec hsize
  have hcount : (sizeToVarint size).2 ≤ (sizeToVarint size).1.length := by
    rw [sizeToVarint]
    simp only [List.length_map, List.length_range]
    split
    · exact le_rfl
    · split <;> omega
  rw [putvalueOffsetSizeToString, BlockHandle.encodeTo]
  dsimp only
  refine ⟨?_, ?_, ?_⟩
  · rw [htake, List.append_assoc, hlen, List.take_length_add_append,
      List.take_append_of_le_length hcount, htake']
  · rw [hlen, hlen', List.length_append]
  · omega

/-- An entry of the index block shares nothing. -/
theorem putKVIndex_spec {key : Keystring} {offset size : ℕ} (hkey : key.c.length = 32)
    (hoffset : offset < 2 ^ 35) (hsize : size < 2 ^ 16) (m : Memory) (index : ℕ) :
    putKVIndex key (putvalueOffsetSizeToString offset size).1
        (putvalueOffsetSizeToString offset size).2 m index =
      (store m index (putEntry 0 ⟨key.c, (BlockHandle.mk offset size).encodeTo⟩),
        index + (putEntry 0 ⟨key.c, (BlockHandle.mk offset size).encodeTo⟩).length) := by
  obtain ⟨htake, hlen, hle⟩ := putvalueOffsetSizeToString_spec hoffset hsize
  have hK : KEY_LENGTH = 32 := rfl
  have hentry : putFixed 1 0 ++ putFixed 1 KEY_LENGTH ++
      putFixed 1 (putvalueOffsetSizeToString offset size).2 ++ key.c.take KEY_LENGTH ++
        (putvalueOffsetSizeToString offset size).1.take
          (putvalueOffsetSizeToString offset size).2 =
      putEntry 0 ⟨key.c, (BlockHandle.mk offset size).encodeTo⟩ := by
    rw [putEntry]
    dsimp only
    rw [htake, hlen, hkey, hK, List.take_of_length_le hkey.le, putVarint_of_lt (by omega),
      putVarint_of_lt (by omega), putVarint_of_lt (by omega)]
    rfl
  rw [putKVIndex, hentry]

end ZeroFlush.EncodedTables
