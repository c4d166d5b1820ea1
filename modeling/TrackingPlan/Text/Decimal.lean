/-!
# Numbers in texts

Reads whole and decimal numbers, and tells which decimal numbers a double can hold: those that it
does not round to infinity.
-/

namespace TrackingPlan.Text

/-- `digit? base c` is the value of the digit `c`. -/
def digit? (base : Nat) (c : Char) : Option Nat :=
  let value :=
    if c.isDigit then c.toNat - 48
    else if c.isLower then c.toNat - 87
    else if c.isUpper then c.toNat - 55
    else base
  if value < base then some value else none

/-- `natural? base cs` is the number with the digits `cs`, of which there must be one. -/
def natural? (base : Nat) : List Char → Option Nat
  | [] => none
  | cs => (cs.mapM (digit? base)).map (·.foldl (fun n d => n * base + d) 0)

/-- A decimal number: its digits, and the power of ten that they count. -/
structure Decimal where
  digits : Nat
  exponent : Int

namespace Decimal

/-- `exponent? cs` is the number that an exponent spells, perhaps with a sign. -/
def exponent? : List Char → Option Int
  | '-' :: cs => (natural? 10 cs).map fun n => -n
  | '+' :: cs => (natural? 10 cs).map Int.ofNat
  | cs => (natural? 10 cs).map Int.ofNat

/-- `read? cs` is the number that `cs` spells without a sign: digits, perhaps with a point among
them, and perhaps an exponent. -/
def read? (cs : List Char) : Option Decimal :=
  let whole := cs.takeWhile Char.isDigit
  let afterWhole := cs.dropWhile Char.isDigit
  let (fraction, rest) := match afterWhole with
    | '.' :: rest => (rest.takeWhile Char.isDigit, rest.dropWhile Char.isDigit)
    | rest => ([], rest)
  match natural? 10 (whole ++ fraction), rest with
  | some digits, [] => some ⟨digits, -fraction.length⟩
  | some digits, e :: power =>
    if e = 'e' || e = 'E' then (exponent? power).map fun n => ⟨digits, n - fraction.length⟩
    else none
  | none, _ => none

/-- `isFinite d` holds when `d` lies below the numbers that a double rounds to infinity. -/
def isFinite (d : Decimal) : Bool :=
  let limit := Nat.pow 2 1024 - Nat.pow 2 970
  let width := (toString d.digits).length + d.exponent
  d.digits = 0 || width ≤ 308 ||
    (width ≤ 310 &&
      if 0 ≤ d.exponent then d.digits * Nat.pow 10 d.exponent.toNat < limit
      else d.digits < limit * Nat.pow 10 (-d.exponent).toNat)

end Decimal

end TrackingPlan.Text
