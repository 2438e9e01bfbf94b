import ZeroFlush.DeviceStreams

/-! # Bytes put into a buffer of 16-byte words

A key or a value starts at any byte of a word. The device shifts it to that lane: it fills the
first word from the lane on, and every further word takes its bytes from two words of the source.
In the model a buffer is addressed by the byte, and the lanes of word `w` are the addresses from
`16 * w` on. -/
namespace ZeroFlush.DeviceWords
open FixedWidthCodec ByteMemory DeviceStreams

variable {m : Memory} {index : ℕ} {bs : Bytes}

/-- The bytes `lo` to `hi` of the word `w` of the source. -/
def lanes (source : Bytes) (w lo hi : ℕ) : Bytes := (source.drop (16 * w + lo)).take (hi - lo)

/-- `output[w].range(.., 8 * lane) = bytes`. -/
def putLanes (output : Memory) (w lane : ℕ) (bytes : Bytes) : Memory :=
  store output (16 * w + lane) bytes

def ap8to128Encoder (input : ℕ) (output : Memory) (index : ℕ) : Memory :=
  store output index (putFixed 1 input)

def ap32to128Encoder (input : ℕ) (output : Memory) (index : ℕ) : Memory :=
  store output index (putFixed 4 input)

/-- Whole words from the start of one buffer to the word of `sstIndex` in the other. -/
def ap128to128Encoder (input output : Memory) (sstIndex datablockSize : ℕ) : Memory :=
  store output (16 * (sstIndex / 16)) (load input 0 (16 * (datablockSize / 16)))

/-- The words of the key behind the first. The word goes to one word of the buffer when nothing is
shifted, and to two otherwise. -/
def putKeyWords (key : Bytes) (left right : ℕ) : ℕ → ℕ → ℕ → Memory → Memory
  | 0, _, _, output => output
  | n + 1, keyIndex, outputIndex, output =>
    let output :=
      if left < right then
        let move := right - left
        putLanes (putLanes output outputIndex move (lanes key keyIndex 0 (16 - move)))
          (outputIndex + 1) 0 (lanes key keyIndex (16 - move) 16)
      else if left = right then putLanes output outputIndex 0 (lanes key keyIndex 0 16)
      else
        let move := left - right
        putLanes (putLanes output outputIndex (16 - move) (lanes key keyIndex 0 move))
          (outputIndex + 1) 0 (lanes key keyIndex move 16)
    putKeyWords key left right n (keyIndex + 1) (outputIndex + 1) output

/-- The bytes of the key from `shared` on. The three cases of the first word are a shift to higher
lanes, none, and a shift to lower lanes, which leaves the word open. -/
def putkeyData (key : Bytes) (shared : ℕ) (output : Memory) (index : ℕ) : Memory :=
  let left := shared % 16
  let keyIndex := shared / 16
  let right := index % 16
  let outputIndex := index / 16
  if left < right then
    let move := right - left
    let output := putLanes (putLanes output outputIndex right (lanes key keyIndex left (16 - move)))
      (outputIndex + 1) 0 (lanes key keyIndex (16 - move) 16)
    putKeyWords key left right (2 - (keyIndex + 1)) (keyIndex + 1) (outputIndex + 1) output
  else
    let output := putLanes output outputIndex right (lanes key keyIndex left 16)
    putKeyWords key left right (2 - (keyIndex + 1)) (keyIndex + 1)
      (if left = right then outputIndex + 1 else outputIndex) output

/-- Words of the value that start inside a word of the buffer. -/
def putValueWords (value : Bytes) (offset index : ℕ) : ℕ → ℕ → Memory → Memory
  | 0, _, output => output
  | n + 1, i, output =>
    putValueWords value offset index n (i + 1)
      (putLanes output (index + i) 0
        (lanes value (i - 1) (16 - offset) 16 ++ lanes value i 0 (16 - offset)))

/-- The words of the value, the last one whole. -/
def putvalueData (value : Bytes) (length : ℕ) (output : Memory) (outputIndex : ℕ) : Memory :=
  let offset := outputIndex % 16
  let index := outputIndex / 16
  let copyArrayLength := (length + 15) / 16
  if offset = 0 then store output (16 * index) (value.take (16 * copyArrayLength))
  else if copyArrayLength = 0 then output
  else
    let output := putLanes output index offset (lanes value 0 0 (16 - offset))
    let output := putValueWords value offset index (copyArrayLength - 1) 1 output
    putLanes output (index + copyArrayLength) 0 (lanes value (copyArrayLength - 1) (16 - offset) 16)

/-- Two neighbouring pieces of a string. -/
theorem take_drop_append (bs : Bytes) {i j k : ℕ} (hij : i ≤ j) (hjk : j ≤ k) :
    (bs.drop i).take (j - i) ++ (bs.drop j).take (k - j) = (bs.drop i).take (k - i) := by
  obtain ⟨a, rfl⟩ := Nat.exists_eq_add_of_le hij
  obtain ⟨b, rfl⟩ := Nat.exists_eq_add_of_le hjk
  rw [Nat.add_sub_cancel_left, Nat.add_sub_cancel_left, Nat.add_assoc, Nat.add_sub_cancel_left,
    List.take_add, List.drop_drop]

/-- A piece stored behind the piece before it. -/
theorem store_piece {source : Bytes} {i j k : ℕ} (hij : i ≤ j) (hj : j ≤ source.length)
    (hjk : j ≤ k) {a : ℕ} (ha : a = index + (j - i)) :
    store (store m index ((source.drop i).take (j - i))) a ((source.drop j).take (k - j)) =
      store m index ((source.drop i).take (k - i)) := by
  have hlen : ((source.drop i).take (j - i)).length = j - i := by
    rw [List.length_take, List.length_drop]
    omega
  have hstore := store_store m index ((source.drop i).take (j - i)) ((source.drop j).take (k - j))
  rwa [hlen, take_drop_append source hij hjk, ← ha] at hstore

theorem putLanes_store {source : Bytes} {i j w lane lo hi : ℕ} (hij : i ≤ j)
    (hj : j ≤ source.length) (hlane : 16 * w + lane = index + (j - i)) {sw : ℕ}
    (hlo : 16 * sw + lo = j) (hhi : lo ≤ hi) :
    putLanes (store m index ((source.drop i).take (j - i))) w lane (lanes source sw lo hi) =
      store m index ((source.drop i).take (16 * sw + hi - i)) := by
  have hpiece := store_piece (m := m) hij hj (k := 16 * sw + hi) (by omega) hlane
  have hsub : 16 * sw + hi - j = hi - lo := by omega
  rw [hsub] at hpiece
  rw [putLanes, lanes, hlo]
  exact hpiece

/-- The lane at which the words behind the first start. -/
def shiftedLane (left right : ℕ) : ℕ := if left ≤ right then right - left else 16 - (left - right)

theorem putKeyWords_store {key : Bytes} {left right shared k n outputIndex : ℕ}
    (hleft : left < 16) (hright : right < 16) (hk : shared ≤ 16 * k)
    (hkey : 16 * (k + n) ≤ key.length)
    (hlane : 16 * outputIndex + shiftedLane left right = index + (16 * k - shared)) :
    putKeyWords key left right n k outputIndex
        (store m index ((key.drop shared).take (16 * k - shared))) =
      store m index ((key.drop shared).take (16 * (k + n) - shared)) := by
  induction n generalizing k outputIndex with
  | zero => rfl
  | succ n ih =>
    rw [shiftedLane] at hlane
    have hnext : k + 1 + n = k + (n + 1) := by omega
    have hword : 16 * k + 16 = 16 * (k + 1) := by omega
    rw [putKeyWords]
    dsimp only
    split
    · next hlt =>
      rw [if_pos (by omega)] at hlane
      rw [putLanes_store hk (by omega) (by omega) (by omega) (by omega),
        putLanes_store (by omega) (by omega) (by omega) rfl (by omega), hword,
        ih (by omega) (by omega) (by rw [shiftedLane, if_pos (by omega)]; omega), hnext]
    · split
      · next hge heq =>
        rw [if_pos (by omega)] at hlane
        rw [putLanes_store hk (by omega) (by omega) (by omega) (by omega), hword,
          ih (by omega) (by omega) (by rw [shiftedLane, if_pos (by omega)]; omega), hnext]
      · next hge hne =>
        rw [if_neg (by omega)] at hlane
        rw [putLanes_store hk (by omega) (by omega) (by omega) (by omega),
          putLanes_store (by omega) (by omega) (by omega) rfl (by omega), hword,
          ih (by omega) (by omega) (by rw [shiftedLane, if_neg (by omega)]; omega), hnext]

/-- The key is shifted to its lane, wherever it starts. -/
theorem putkeyData_eq {key : Bytes} {shared : ℕ} (hkey : key.length = KEY_LENGTH)
    (hshared : shared < KEY_LENGTH) (m : Memory) (index : ℕ) :
    putkeyData key shared m index = store m index (key.drop shared) := by
  have hK : KEY_LENGTH = 32 := rfl
  have hword : shared / 16 + 1 + (2 - (shared / 16 + 1)) = 2 := by omega
  have hwhole : (key.drop shared).take (16 * 2 - shared) = key.drop shared :=
    List.take_of_length_le (by rw [List.length_drop]; omega)
  have hstart : store m index ((key.drop shared).take (shared - shared)) = m := by
    rw [Nat.sub_self, List.take_zero, store_nil]
  have hfirst : 16 * (shared / 16) + 16 = 16 * (shared / 16 + 1) := by omega
  rw [putkeyData]
  dsimp only
  split
  · next hlt =>
    rw [← hstart, putLanes_store le_rfl (by omega) (by omega) (by omega) (by omega), hstart,
      putLanes_store (by omega) (by omega) (by omega) rfl (by omega), hfirst,
      putKeyWords_store (by omega) (by omega) (by omega) (by omega)
        (by rw [shiftedLane, if_pos (by omega)]; omega), hword, hwhole]
  · next hge =>
    rw [← hstart, putLanes_store le_rfl (by omega) (by omega) (by omega) (by omega), hstart, hfirst]
    split
    · next heq =>
      rw [putKeyWords_store (by omega) (by omega) (by omega) (by omega)
        (by rw [shiftedLane, if_pos (by omega)]; omega), hword, hwhole]
    · next hne =>
      rw [putKeyWords_store (by omega) (by omega) (by omega) (by omega)
        (by rw [shiftedLane, if_neg (by omega)]; omega), hword, hwhole]

theorem putValueWords_store {value : Bytes} {offset w i n : ℕ} (hoffset : offset ≤ 16)
    (hi : 0 < i) (hvalue : 16 * (i + n) ≤ value.length)
    (hindex : index = 16 * w + offset) :
    putValueWords value offset w n i (store m index (value.take (16 * i - offset))) =
      store m index (value.take (16 * (i + n) - offset)) := by
  induction n generalizing i with
  | zero => rfl
  | succ n ih =>
    have hword : lanes value (i - 1) (16 - offset) 16 ++ lanes value i 0 (16 - offset) =
        (value.drop (16 * i - offset)).take (16 * (i + 1) - offset - (16 * i - offset)) := by
      have hpieces := take_drop_append value (i := 16 * i - offset) (j := 16 * i)
        (k := 16 * (i + 1) - offset) (by omega) (by omega)
      rw [← hpieces, lanes, lanes, show 16 * (i - 1) + (16 - offset) = 16 * i - offset by omega,
        show 16 - (16 - offset) = 16 * i - (16 * i - offset) by omega,
        show 16 - offset - 0 = 16 * (i + 1) - offset - 16 * i by omega,
        Nat.add_zero (16 * i)]
    have hpiece := @store_piece m index value 0 (16 * i - offset) (16 * (i + 1) - offset)
      (Nat.zero_le _) (by omega) (by omega) (16 * (w + i)) (by omega)
    rw [List.drop_zero, Nat.sub_zero, Nat.sub_zero, ← hword] at hpiece
    rw [putValueWords, putLanes, Nat.add_zero (16 * (w + i)), hpiece, ih (Nat.succ_pos i) (by omega),
      Nat.succ_add_eq_add_succ]

/-- All words that hold a byte of the value are put, the last one whole. -/
theorem putvalueData_eq {value : Bytes} {length : ℕ} (hvalue : value.length = VALUE_LENGTH)
    (hlength : length ≤ VALUE_LENGTH) (m : Memory) (index : ℕ) :
    putvalueData value length m index = store m index (value.take (16 * ((length + 15) / 16))) := by
  have hV : VALUE_LENGTH = 1024 := rfl
  rw [putvalueData]
  dsimp only
  split
  · next hzero => rw [show 16 * (index / 16) = index by omega]
  · next hne =>
    split
    · next hnone => rw [hnone, Nat.mul_zero, List.take_zero, store_nil]
    · next hsome =>
      have hstart : store m index ((value.drop 0).take (0 - 0)) = m := store_nil m index
      have hfirst : putLanes m (index / 16) (index % 16) (lanes value 0 0 (16 - index % 16)) =
          store m index (value.take (16 * 1 - index % 16)) := by
        have hput := @putLanes_store m index value 0 0 (index / 16) (index % 16) 0 (16 - index % 16)
          le_rfl (Nat.zero_le _) (by omega) 0 rfl (Nat.zero_le _)
        rw [hstart] at hput
        have hend : 16 * 0 + (16 - index % 16) - 0 = 16 * 1 - index % 16 := by omega
        rw [hput, List.drop_zero, hend]
      have hput := @putLanes_store m index value 0 (16 * ((length + 15) / 16) - index % 16)
        (index / 16 + (length + 15) / 16) 0 (16 - index % 16) 16 (Nat.zero_le _) (by omega)
        (by omega) ((length + 15) / 16 - 1) (by omega) (by omega)
      have hend : 16 * ((length + 15) / 16 - 1) + 16 - 0 = 16 * ((length + 15) / 16) := by omega
      have hcount : 1 + ((length + 15) / 16 - 1) = (length + 15) / 16 := by omega
      rw [List.drop_zero, Nat.sub_zero, hend] at hput
      rw [hfirst, putValueWords_store (by omega) Nat.one_pos (by omega) (by omega), hcount, hput]

end ZeroFlush.DeviceWords
