import TrackingPlan.Text.Decimal

/-!
# The meaning of unquoted scalars

An unquoted YAML scalar may stand for nothing, a truth value or a number instead of its own text.
`isText` holds of the scalars that stand for themselves, and `unsigned?` reads whole numbers.
-/

namespace TrackingPlan.Yaml

/-- `isNull text` holds of the spellings of no value; an empty scalar is one of them. -/
def isNull (text : String) : Bool :=
  ["", "~", "null", "Null", "NULL"].contains text

/-- `isBoolean text` holds of the spellings of truth values. -/
def isBoolean (text : String) : Bool :=
  ["true", "True", "TRUE", "false", "False", "FALSE"].contains text

/-- `isPadded cs` holds of several decimal digits that start with a zero, perhaps after a sign. Such
scalars are codes and not numbers. -/
def isPadded (cs : List Char) : Bool :=
  let bare := match cs with
    | '+' :: rest | '-' :: rest => rest
    | _ => cs
  match bare with
  | '0' :: d :: rest => (d :: rest).all Char.isDigit
  | _ => false

/-- `magnitude? cs` is the number that `cs` spells without a sign: hexadecimal, octal and binary
numbers follow `0x`, `0o` and `0b`. -/
def magnitude? (cs : List Char) : Option Nat :=
  match cs with
  | '0' :: 'x' :: digits => Text.natural? 16 digits
  | '0' :: 'o' :: digits => Text.natural? 8 digits
  | '0' :: 'b' :: digits => Text.natural? 2 digits
  | _ => if isPadded cs then none else Text.natural? 10 cs

/-- `unsigned? text` is the number that `text` spells, perhaps after a plus sign. -/
def unsigned? (text : String) : Option Nat :=
  match text.toList with
  | '+' :: cs => magnitude? cs
  | cs => magnitude? cs

/-- `isInteger text` holds of the spellings of integers of at most 128 bits. -/
def isInteger (text : String) : Bool :=
  match text.toList with
  | '-' :: cs => (magnitude? cs).any (· ≤ Nat.pow 2 127)
  | _ => (unsigned? text).any (· < Nat.pow 2 128)

/-- `isFloat text` holds of the spellings of fractions, infinities and undefined numbers. -/
def isFloat (text : String) : Bool :=
  [".inf", ".Inf", ".INF", "+.inf", "+.Inf", "+.INF", "-.inf", "-.Inf", "-.INF", ".nan", ".NaN",
    ".NAN"].contains text ||
  !isPadded text.toList &&
    match text.toList with
    | '+' :: cs | '-' :: cs => (Text.Decimal.read? cs).any (·.isFinite)
    | cs => (Text.Decimal.read? cs).any (·.isFinite)

/-- `isText text` holds of the unquoted scalars that clearly stand for their own text. -/
def isText (text : String) : Bool :=
  !(isNull text || isBoolean text || isInteger text || isFloat text || isPadded text.toList)

end TrackingPlan.Yaml
