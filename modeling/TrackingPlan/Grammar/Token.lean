import TrackingPlan.Grammar

/-!
# Tokens

The lexical pieces that the grammars have in common: fixed spellings, words, names and numbers.
A reader of tokens gives the offset after the token, if there is one at its offset.
-/

namespace TrackingPlan.Token

/-- `isDigit b` holds of decimal digits. -/
def isDigit (b : UInt8) : Bool := 48 ≤ b && b ≤ 57

/-- `isUpper b` holds of ASCII capitals. -/
def isUpper (b : UInt8) : Bool := 65 ≤ b && b ≤ 90

/-- `isLower b` holds of ASCII small letters. -/
def isLower (b : UInt8) : Bool := 97 ≤ b && b ≤ 122

/-- `isAlpha b` holds of ASCII letters. -/
def isAlpha (b : UInt8) : Bool := isUpper b || isLower b

/-- `isWordByte b` holds of the bytes that go on with a word; all bytes beyond ASCII do. -/
def isWordByte (b : UInt8) : Bool :=
  isAlpha b || isDigit b || b == 95 || b ≥ 128

/-- `isScriptByte b` holds of the bytes that go on with a name where dollar signs belong to
names. -/
def isScriptByte (b : UInt8) : Bool := isWordByte b || b == 36

/-- `wideBlank src i` is the length of a blank character beyond ASCII at `i`, or zero. -/
def wideBlank (src : Source) (i : Nat) : Nat :=
  let b := src.byte i
  if b < 128 then 0
  else
    let c := src.byte (i + 1)
    let d := src.byte (i + 2)
    if b == 0xC2 then (if c == 0xA0 then 2 else 0)
    else if b == 0xE1 then (if c == 0x9A && d == 0x80 then 3 else 0)
    else if b == 0xE2 then
      if c == 0x80 then (if d ≤ 0x8B || d == 0xA8 || d == 0xA9 || d == 0xAF then 3 else 0)
      else if c == 0x81 then (if d == 0x9F || d == 0xA0 then 3 else 0)
      else 0
    else if b == 0xE3 then (if c == 0x80 && d == 0x80 then 3 else 0)
    else if b == 0xEF then (if c == 0xBB && d == 0xBF then 3 else 0)
    else 0

/-- `wordEnd src fuel i` is the end of the run of word bytes at `i`; wide blanks end it. -/
def wordEnd (src : Source) : (fuel i : Nat) → Nat
  | 0, i => i
  | fuel + 1, i =>
    if i < src.size && isWordByte (src.byte i) && wideBlank src i == 0 then
      wordEnd src fuel (i + 1)
    else i

/-- `wordAt src i` is the word at `i`, which may be empty. -/
def wordAt (src : Source) (i : Nat) : String :=
  src.slice i (wordEnd src (src.size - i) i)

/-- `name? reserved src i` reads a name that starts with no digit and is no reserved word. -/
def name? (reserved : List String) (src : Source) (i : Nat) : Option Nat :=
  if isDigit (src.byte i) then none
  else
    let stop := wordEnd src (src.size - i) i
    if stop = i then none
    else if reserved.contains (src.slice i stop) then none
    else some stop

/-- `spelling? text src i` reads exactly `text`. -/
def spelling? (text : String) (src : Source) (i : Nat) : Option Nat :=
  if src.startsWith i text then some (i + text.utf8ByteSize) else none

/-- `keyword? text src i` reads the word `text`, where no longer word stands. -/
def keyword? (text : String) (src : Source) (i : Nat) : Option Nat :=
  match spelling? text src i with
  | none => none
  | some stop => if isScriptByte (src.byte stop) then none else some stop

/-- `spellingUnless? text after src i` reads `text` where none of the bytes of `after` follows. -/
def spellingUnless? (text after : String) (src : Source) (i : Nat) : Option Nat :=
  match spelling? text src i with
  | none => none
  | some stop =>
    if stop < src.size && after.toUTF8.toList.contains (src.byte stop) then none else some stop

/-- `offsetOf src stops i` is the first offset from `i` on whose byte is in `stops`. -/
def offsetOf (src : Source) (stops : UInt8 → Bool) (i : Nat) : Nat :=
  src.skipWhile i (fun b => !stops b)

/-- `find? src text fuel i` is the first offset from `i` on at which `text` stands. -/
def find? (src : Source) (text : String) : (fuel i : Nat) → Option Nat
  | 0, _ => none
  | fuel + 1, i =>
    if i ≥ src.size then none
    else if src.startsWith i text then some i
    else find? src text fuel (i + 1)

/-- `lineEnd src i` is the offset of the next line feed from `i` on, or the end. -/
def lineEnd (src : Source) (i : Nat) : Nat :=
  src.skipWhile i (· != 10)

/-- `lineStart src i` is the offset of the first byte of the line that `i` is on. -/
def lineStart (src : Source) : Nat → Nat
  | 0 => 0
  | i + 1 => if src.byte i == 10 then i + 1 else lineStart src i

section Rules

variable {ν σ : Type}

/-! ## Blanks of languages whose comments start with a slash -/

/-- `slashBlanksFrom src fuel p found` skips blanks and comments from `p` on. -/
def slashBlanksFrom (src : Source) : (fuel : Nat) → Place σ → List Node → List Node × Place σ
  | 0, p, found => (found.reverse, p)
  | fuel + 1, p, found =>
    let b := src.byte p.pos
    let comment (stop : Nat) :=
      slashBlanksFrom src fuel (p.advance src stop)
        (Grammar.leaf src true "comment" p stop :: found)
    if p.pos ≥ src.size then (found.reverse, p)
    else if b == 32 || (9 ≤ b && b ≤ 13) then
      slashBlanksFrom src fuel (p.advance src (p.pos + 1)) found
    else if wideBlank src p.pos > 0 then
      slashBlanksFrom src fuel (p.advance src (p.pos + wideBlank src p.pos)) found
    else if b == 47 && src.byte (p.pos + 1) == 47 then
      let stop := lineEnd src p.pos
      comment (if src.byte (stop - 1) == 13 then stop - 1 else stop)
    else if b == 47 && src.byte (p.pos + 1) == 42 then
      match find? src "*/" (src.size - p.pos) (p.pos + 2) with
      | some stop => comment (stop + 2)
      | none => (found.reverse, p)
    else (found.reverse, p)

/-- `slashBlanks src p` skips blanks and comments. -/
def slashBlanks (src : Source) (p : Place σ) : List Node × Place σ :=
  slashBlanksFrom src (src.size - p.pos + 1) p []

/-- The next token is on the same line. -/
def sameLine : Rule ν σ :=
  .check fun src p => (slashBlanks src p).2.row == p.row

/-- `nextByte holds` looks at the first byte of the next token. -/
def nextByte (holds : UInt8 → Bool) : Rule ν σ :=
  .check fun src p => holds (src.byte (slashBlanks src p).2.pos)

/-- `text spelling` is the token with that spelling; one that ends in a letter is a whole word. -/
def text (spelling : String) : Rule ν σ :=
  if spelling.toList.getLast?.any (fun c => c.isAlphanum) then
    .lexeme false false spelling (keyword? spelling)
  else .lexeme false false spelling (spelling? spelling)

/-- `textUnless spelling after` is the token with that spelling, not followed by a byte of
`after`. -/
def textUnless (spelling after : String) : Rule ν σ :=
  .lexeme false false spelling (spellingUnless? spelling after)

/-- `tight spelling` is the token with that spelling, with no blank before it. -/
def tight (spelling : String) : Rule ν σ :=
  .lexeme true false spelling (spelling? spelling)

/-- `named kind read` is a token of that kind with a name. -/
def named (kind : String) (read : Source → Nat → Option Nat) : Rule ν σ :=
  .lexeme false true kind read

/-- `tightNamed kind read` is a token of that kind with a name and with no blank before it. -/
def tightNamed (kind : String) (read : Source → Nat → Option Nat) : Rule ν σ :=
  .lexeme true true kind read

/-- `keywordNode word` is a word that is a node of its own kind. -/
def keywordNode (word : String) : Rule ν σ :=
  .lexeme false true word (keyword? word)

instance : Coe String (Rule ν σ) := ⟨text⟩

end Rules

end TrackingPlan.Token
