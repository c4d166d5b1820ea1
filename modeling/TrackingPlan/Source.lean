/-!
# Source texts

A source text is a sequence of bytes that is meant to be UTF-8. Reading beyond its end gives zero
bytes, and the text of a range that is not valid UTF-8 is empty.
-/

namespace TrackingPlan

/-- The bytes of a source text. -/
structure Source where
  bytes : ByteArray

namespace Source

/-- `ofString text` is the source text with the bytes of `text`. -/
def ofString (text : String) : Source := ⟨text.toUTF8⟩

/-- `size s` counts the bytes of `s`. -/
def size (s : Source) : Nat := s.bytes.size

/-- `byte s i` is the byte at offset `i`, or zero beyond the end. -/
def byte (s : Source) (i : Nat) : UInt8 :=
  if h : i < s.bytes.size then s.bytes[i] else 0

/-- `slice s start stop` is the text from `start` up to `stop`, or nothing if that is not valid. -/
def slice (s : Source) (start stop : Nat) : String :=
  (String.fromUTF8? (s.bytes.extract start stop)).getD ""

/-- `breaksIn s fuel i stop` counts the line feeds from `i` up to `stop`. -/
def breaksIn (s : Source) : (fuel i stop : Nat) → Nat
  | 0, _, _ => 0
  | fuel + 1, i, stop =>
    if i < stop then (if s.byte i = 10 then 1 else 0) + breaksIn s fuel (i + 1) stop else 0

/-- `breaks s start stop` counts the line feeds from `start` up to `stop`. -/
def breaks (s : Source) (start stop : Nat) : Nat :=
  s.breaksIn (stop - start) start stop

/-- `startsWith s i text` holds when the bytes from `i` on start with those of `text`. -/
def startsWith (s : Source) (i : Nat) (text : String) : Bool :=
  go text.toUTF8.toList i
where
  go : List UInt8 → Nat → Bool
    | [], _ => true
    | b :: rest, i => i < s.size && s.byte i == b && go rest (i + 1)

/-- `skipIn s p fuel i` is the first offset from `i` on whose byte does not satisfy `p`. -/
def skipIn (s : Source) (p : UInt8 → Bool) : (fuel i : Nat) → Nat
  | 0, i => i
  | fuel + 1, i => if i < s.size && p (s.byte i) then skipIn s p fuel (i + 1) else i

/-- `skipWhile s i p` is the first offset from `i` on whose byte does not satisfy `p`. -/
def skipWhile (s : Source) (i : Nat) (p : UInt8 → Bool) : Nat :=
  s.skipIn p (s.size - i) i

end Source

end TrackingPlan
