import ZeroFlush.FixedWidthCodec

/-! # User keys: the comparator of the column family and the routing hash -/
namespace ZeroFlush.UserKeys
open FixedWidthCodec

/-- A `Comparator` of the host: a total preorder of the keys. -/
structure UserComparator where
  compare : Bytes → Bytes → Ordering
  trans : Std.TransCmp compare

namespace UserComparator

instance (ucmp : UserComparator) : Std.TransCmp ucmp.compare := ucmp.trans

/-- `BytewiseComparator`. -/
def bytewise : UserComparator := ⟨List.compareLex Ord.compare, inferInstance⟩

/-- No two different keys compare as equal. -/
def DistinguishesBytes (ucmp : UserComparator) : Prop := ∀ a b, ucmp.compare a b = .eq → a = b

theorem bytewise_distinguishesBytes : bytewise.DistinguishesBytes := by
  intro a b h
  change List.compareLex Ord.compare a b = .eq at h
  exact Std.LawfulEqCmp.eq_of_compare h

end UserComparator

def kHashMultiplier : UInt32 := 0xc6a4a793

/-- `static_cast<uint32_t>(static_cast<int8_t>(b))`. -/
def signExtend (b : UInt8) : UInt32 :=
  if b < 128 then b.toUInt32 else b.toUInt32 ||| 0xffffff00

def hashWord (h : UInt32) (b₀ b₁ b₂ b₃ : UInt8) : UInt32 :=
  let w := b₀.toUInt32 ||| b₁.toUInt32 <<< 8 ||| b₂.toUInt32 <<< 16 ||| b₃.toUInt32 <<< 24
  let h := (h + w) * kHashMultiplier
  h ^^^ (h >>> 16)

/-- The `switch` over the last bytes multiplies and shifts only if there are some. -/
def hashRest (h : UInt32) : UInt32 :=
  let h := h * kHashMultiplier
  h ^^^ (h >>> 24)

def hashLoop : UInt32 → Bytes → UInt32
  | h, b₀ :: b₁ :: b₂ :: b₃ :: rest => hashLoop (hashWord h b₀ b₁ b₂ b₃) rest
  | h, [b₀, b₁, b₂] =>
    hashRest (h + signExtend b₂ <<< 16 + signExtend b₁ <<< 8 + signExtend b₀)
  | h, [b₀, b₁] => hashRest (h + signExtend b₁ <<< 8 + signExtend b₀)
  | h, [b₀] => hashRest (h + signExtend b₀)
  | h, [] => h

/-- `Hash(data, n, seed)`. -/
def hash (data : Bytes) (seed : UInt32) : UInt32 :=
  hashLoop (seed ^^^ (UInt32.ofNat data.length * kHashMultiplier)) data

end ZeroFlush.UserKeys
