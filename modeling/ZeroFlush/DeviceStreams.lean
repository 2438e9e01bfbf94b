import ZeroFlush.PrefixCompression

/-! # The streams between the parts of the device

A record travels as its key on one stream and as two slices of its value on another. -/
namespace ZeroFlush.DeviceStreams
open FixedWidthCodec PrefixCompression

def KEY_LENGTH : ℕ := 32

def VALUE_LENGTH : ℕ := 1024

/-- The bytes of `c[0]` and `c[1]`, the lowest first. -/
structure Keystring where
  c : Bytes
  length : ℕ
deriving DecidableEq

structure KeyMeta where
  key : Keystring
  valueLength : ℕ
deriving DecidableEq

/-- 512 bytes in 32 words. -/
abbrev Slice := Bytes

structure Streams where
  km : List KeyMeta
  value : List Slice
deriving DecidableEq

def maxKey : Keystring := ⟨List.replicate 24 255 ++ List.replicate 8 0, KEY_LENGTH⟩

/-- The greatest key less one in its first word. -/
def signalKey : Keystring := ⟨254 :: List.replicate 23 255 ++ List.replicate 8 0, KEY_LENGTH⟩

/-- The value length of the two marks is never set. -/
def signalMark : KeyMeta := ⟨signalKey, 0⟩

def maxMark : KeyMeta := ⟨maxKey, 0⟩

def Streams.writeKm (s : Streams) (km : KeyMeta) : Streams := { s with km := s.km ++ [km] }

def Streams.writeRecord (s : Streams) (km : KeyMeta) (window : Bytes) : Streams :=
  ⟨s.km ++ [km], s.value ++ [window.take 512, window.drop 512]⟩

def keyMeta (e : Entry) : KeyMeta := ⟨⟨e.key, KEY_LENGTH⟩, e.value.length⟩

/-- Two slices for every entry, whose first bytes are its value. -/
def Carries : List Entry → List Slice → Prop
  | [], [] => True
  | e :: es, first :: second :: slices =>
    first.length = 512 ∧ second.length = 512 ∧ (first ++ second).take e.value.length = e.value ∧
      Carries es slices
  | _, _ => False

/-- Between the signal and the greatest key stand these entries, and nothing else. -/
def Emits (s : Streams) (es : List Entry) : Prop :=
  s.km = signalMark :: es.map keyMeta ++ [maxMark] ∧ Carries es s.value

/-- What was written between two moments are these entries. -/
def Delivers (s s' : Streams) (es : List Entry) : Prop :=
  s'.km = s.km ++ es.map keyMeta ∧ ∃ slices, s'.value = s.value ++ slices ∧ Carries es slices

variable {s s' s'' : Streams} {e : Entry} {es es' : List Entry} {slices slices' : List Slice}
  {window : Bytes}

theorem Carries.append (h : Carries es slices) (h' : Carries es' slices') :
    Carries (es ++ es') (slices ++ slices') := by
  induction es, slices using Carries.induct with
  | case1 => exact h'
  | case2 e es first second slices ih =>
    obtain ⟨h1, h2, hvalue, hrest⟩ := h
    exact ⟨h1, h2, hvalue, ih hrest⟩
  | case3 es slices hnil hcons =>
    rw [Carries.eq_3 _ _ hnil hcons] at h
    exact h.elim

theorem Delivers.refl (s : Streams) : Delivers s s [] :=
  ⟨by simp, [], by simp, trivial⟩

theorem Delivers.trans (h : Delivers s s' es) (h' : Delivers s' s'' es') :
    Delivers s s'' (es ++ es') := by
  obtain ⟨hkm, slices, hvalue, hcarries⟩ := h
  obtain ⟨hkm', slices', hvalue', hcarries'⟩ := h'
  refine ⟨?_, slices ++ slices', ?_, hcarries.append hcarries'⟩
  · rw [hkm', hkm, List.map_append, List.append_assoc]
  · rw [hvalue', hvalue, List.append_assoc]

theorem delivers_writeRecord (s : Streams) (hlen : window.length = VALUE_LENGTH)
    (hwindow : window.take e.value.length = e.value) :
    Delivers s (s.writeRecord (keyMeta e) window) [e] := by
  refine ⟨rfl, [window.take 512, window.drop 512], rfl, ?_, ?_, ?_, trivial⟩
  · rw [List.length_take, hlen]
    rfl
  · rw [List.length_drop, hlen]
    rfl
  · rwa [List.take_append_drop]

end ZeroFlush.DeviceStreams
