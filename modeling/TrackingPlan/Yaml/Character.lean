/-!
# Characters of YAML

The classes of characters that the reading and the printing of YAML go by.
-/

namespace TrackingPlan.Yaml

/-- `isBreak c` holds of the characters that end a line. -/
def isBreak (c : Char) : Bool :=
  c = '\n' || c = '\r' || c.toNat = 0x85 || c.toNat = 0x2028 || c.toNat = 0x2029

/-- `isPrintable c` holds of the characters that may stand in a printed scalar as they are. -/
def isPrintable (c : Char) : Bool :=
  let n := c.toNat
  n = 10 || (0x20 ≤ n && n ≤ 0x7E) ||
    (0xA0 ≤ n && n ≠ 0xFEFF && n ≠ 0xFFFE && n ≠ 0xFFFF)

/-- `isAllowed c` holds of the characters that a text to read may hold. -/
def isAllowed (c : Char) : Bool :=
  let n := c.toNat
  n = 9 || n = 10 || n = 13 || (0x20 ≤ n && n ≤ 0x7E) || n = 0x85 || (0xA0 ≤ n && n ≤ 0xFFFD) ||
    0x10000 ≤ n

/-- `isBlank c` holds of spaces and tabs. -/
def isBlank (c : Char) : Bool := c = ' ' || c = '\t'

/-- `isSpacing c` holds of blanks, line breaks and the end of the text. -/
def isSpacing : Option Char → Bool
  | none => true
  | some c => isBlank c || c.toNat = 0 || isBreak c

/-- `isWordChar c` holds of the characters in names of anchors and tags. -/
def isWordChar (c : Char) : Bool := c.isAlphanum || c = '_' || c = '-'

end TrackingPlan.Yaml
