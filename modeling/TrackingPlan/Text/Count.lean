/-!
# Counts

A count is a whole number of 64 bits in decimal digits, perhaps after a plus sign. `readCount` tells
why a text spells none: the first character that does not fit decides.
-/

namespace TrackingPlan.Text

/-- A reason why a text spells no count. -/
inductive CountFault where
  | empty
  | notDigit
  | tooLarge
deriving DecidableEq, Repr

/-- `message f` is the phrase that reports `f`. -/
def CountFault.message : CountFault → String
  | .empty => "cannot parse integer from empty string"
  | .notDigit => "invalid digit found in string"
  | .tooLarge => "number too large to fit in target type"

/-- The least number that is too large for a count. -/
def countLimit : Nat := Nat.pow 2 64

/-- `countFrom n cs` is the count whose first digits make `n` and whose further digits are `cs`. -/
def countFrom : Nat → List Char → Except CountFault Nat
  | n, [] => .ok n
  | n, c :: cs =>
    if !c.isDigit then .error .notDigit
    else
      let more := n * 10 + (c.toNat - 48)
      if more < countLimit then countFrom more cs else .error .tooLarge

/-- `readCount text` is the count that `text` spells. -/
def readCount (text : String) : Except CountFault Nat :=
  match text.toList with
  | [] => .error .empty
  | ['+'] => .error .notDigit
  | '+' :: cs => countFrom 0 cs
  | cs => countFrom 0 cs

end TrackingPlan.Text
