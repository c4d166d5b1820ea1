import TrackingPlan.Yaml.Character

/-!
# Places in a YAML text

A cursor is a place in a text: what is left to read, and where in its line that starts.
-/

namespace TrackingPlan.Yaml

/-- A place in a text. -/
structure Cursor where
  rest : List Char
  /-- The characters before the place. -/
  index : Nat := 0
  line : Nat := 0
  column : Nat := 0

namespace Cursor

/-- `next? c` is the character at `c`. -/
def next? (c : Cursor) : Option Char := c.rest.head?

/-- `second? c` is the character after the one at `c`. -/
def second? (c : Cursor) : Option Char := (c.rest.drop 1).head?

/-- `isAt c x` holds when `x` is the character at `c`. -/
def isAt (c : Cursor) (x : Char) : Bool := c.next? = some x

/-- `isAtSpacing c` holds at blanks, line breaks and the end. -/
def isAtSpacing (c : Cursor) : Bool := isSpacing c.next?

/-- `isAtLineEnd c` holds at line breaks and the end. -/
def isAtLineEnd (c : Cursor) : Bool := c.next?.all isBreak

/-- `advance n c` passes `n` characters of one line. -/
def advance (n : Nat) (c : Cursor) : Cursor :=
  { c with rest := c.rest.drop n, index := c.index + n, column := c.column + n }

/-- `skipWhile p c` passes the characters that satisfy `p`, which no line break does. -/
def skipWhile (p : Char → Bool) (c : Cursor) : Cursor :=
  c.advance (c.rest.takeWhile p).length

/-- `takeWhile p c` lists the characters that `skipWhile` passes. -/
def takeWhile (p : Char → Bool) (c : Cursor) : List Char := c.rest.takeWhile p

/-- `skipComment c` passes a comment. -/
def skipComment (c : Cursor) : Cursor :=
  if c.isAt '#' then c.skipWhile (!isBreak ·) else c

/-- `break? c` is the line break at `c` as it counts in a text, and the start of the next line. -/
def break? (c : Cursor) : Option (List Char × Cursor) :=
  let after (text : List Char) (n : Nat) (rest : List Char) : Option (List Char × Cursor) :=
    some (text, ⟨rest, c.index + n, c.line + 1, 0⟩)
  match c.rest with
  | '\r' :: '\n' :: rest => after ['\n'] 2 rest
  | x :: rest =>
    if !isBreak x then none
    else if x.toNat = 0x2028 || x.toNat = 0x2029 then after [x] 1 rest
    else after ['\n'] 1 rest
  | [] => none

/-- `readBreak c` is the line break at `c`, if there is one, and the place after it. -/
def readBreak (c : Cursor) : List Char × Cursor := c.break?.getD ([], c)

/-- `isAtDocumentMark c` holds at three hyphens or full stops that start a line by themselves. -/
def isAtDocumentMark (c : Cursor) : Bool :=
  c.column = 0 && isSpacing (c.rest.drop 3).head? &&
    (c.rest.take 3 = ['-', '-', '-'] || c.rest.take 3 = ['.', '.', '.'])

end Cursor

end TrackingPlan.Yaml
