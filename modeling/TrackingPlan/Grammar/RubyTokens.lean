import TrackingPlan.Grammar.Token

/-!
# The tokens of Ruby

Names, numbers, symbols and quoted texts of Ruby, and the blanks before tokens. The body of a text
that starts with two angle brackets follows on the next lines: the reading state holds the texts
whose bodies are still to come, and the next line break is followed by these bodies.
-/

namespace TrackingPlan.Ruby

open Rule Token

/-- A text whose body follows on the next lines. -/
structure Heredoc where
  /-- The word that ends the body. -/
  word : String
  /-- Blanks may stand before that word. -/
  indented : Bool
  /-- No values are embedded in the body. -/
  isPlain : Bool
deriving DecidableEq, Repr

/-- The texts whose bodies are still to come. -/
abbrev Pending := List Heredoc

/-! ## Blanks -/

/-- `closes src h start` holds when the line at `start` ends the body of `h`. -/
def closes (src : Source) (h : Heredoc) (start : Nat) : Bool :=
  let stop := lineEnd src start
  let inner := if h.indented then src.skipWhile start fun b => b == 32 || b == 9 else start
  let line := src.slice inner stop
  line = h.word || line = h.word ++ "\r"

/-- `bodyEnd src h fuel start` is the end of the body of `h` that starts at `start`. -/
def bodyEnd (src : Source) (h : Heredoc) : (fuel start : Nat) → Nat
  | 0, _ => src.size
  | fuel + 1, start =>
    if start ≥ src.size then src.size
    else if closes src h start then lineEnd src start
    else bodyEnd src h fuel (lineEnd src start + 1)

/-- `bodies src p found` reads the bodies that follow the line break at `p`. -/
def bodies (src : Source) : Pending → Place Pending → List Node → List Node × Place Pending
  | [], p, found => (found, { p with state := [] })
  | h :: rest, p, found =>
    let q := p.advance src (p.pos + 1)
    let stop := bodyEnd src h (src.size - q.pos + 1) q.pos
    let content := if h.isPlain then [Grammar.leaf src true "heredoc_content" q stop] else []
    let body := .mk (Grammar.leaf src true "heredoc_body" q stop).head content
    bodies src rest (q.advance src stop) (body :: found)

/-- `commentEnd src fuel i` is the end of the comment of several lines that is open at `i`. -/
def commentEnd (src : Source) : (fuel i : Nat) → Nat
  | 0, _ => src.size
  | fuel + 1, i =>
    if i ≥ src.size then src.size
    else if src.startsWith i "=end" then lineEnd src i
    else commentEnd src fuel (lineEnd src i + 1)

/-- `blanksFrom src fuel p found` skips blanks, comments and bodies from `p` on. -/
def blanksFrom (src : Source) : (fuel : Nat) → Place Pending → List Node → List Node × Place Pending
  | 0, p, found => (found.reverse, p)
  | fuel + 1, p, found =>
    let b := src.byte p.pos
    let skip (count : Nat) := blanksFrom src fuel (p.advance src (p.pos + count)) found
    let comment (stop : Nat) :=
      blanksFrom src fuel (p.advance src stop) (Grammar.leaf src true "comment" p stop :: found)
    if p.pos ≥ src.size then (found.reverse, p)
    else if b == 10 && !p.state.isEmpty then
      let (found, q) := bodies src p.state p found
      blanksFrom src fuel q found
    else if b == 32 || (9 ≤ b && b ≤ 13) then skip 1
    else if b == 92 && src.byte (p.pos + 1) == 10 then skip 2
    else if b == 92 && src.byte (p.pos + 1) == 13 && src.byte (p.pos + 2) == 10 then skip 3
    else if wideBlank src p.pos > 0 then skip (wideBlank src p.pos)
    else if b == 35 then comment (lineEnd src p.pos)
    else if b == 61 && lineStart src p.pos = p.pos && src.startsWith p.pos "=begin" then
      comment (commentEnd src (src.size - p.pos) (lineEnd src p.pos + 1))
    else (found.reverse, p)

/-- `blanks src p` skips the blanks, comments and bodies that may stand before a token. -/
def blanks (src : Source) (p : Place Pending) : List Node × Place Pending :=
  blanksFrom src (src.size - p.pos + 1) p []

section Tokens

variable {ν : Type}

/-- The next token is on the same line. -/
def onLine : Rule ν Pending :=
  .check fun src p => (blanks src p).2.row == p.row

/-- `next holds` looks at the next token. -/
def next (holds : Source → Nat → Bool) : Rule ν Pending :=
  .check fun src p => holds src (blanks src p).2.pos

/-- `isBlankByte b` holds of blanks and line breaks. -/
def isBlankByte (b : UInt8) : Bool := b == 32 || (9 ≤ b && b ≤ 13)

/-! ## Names -/

/-- The words that are no names. -/
def reserved : List String :=
  ["BEGIN", "END", "alias", "and", "begin", "break", "case", "class", "def", "defined?", "do",
    "else", "elsif", "end", "ensure", "false", "for", "if", "in", "module", "next", "nil", "not",
    "or", "redo", "rescue", "retry", "return", "self", "super", "then", "true", "undef", "unless",
    "until", "when", "while", "yield"]

/-- `word? src i` reads any word. -/
def word? (src : Source) (i : Nat) : Option Nat := name? [] src i

/-- `constant? src i` reads the name of a constant. -/
def constant? (src : Source) (i : Nat) : Option Nat :=
  if isUpper (src.byte i) then name? reserved src i else none

/-- `smallName? src i` reads a name that starts with no capital. -/
def smallName? (src : Source) (i : Nat) : Option Nat :=
  if isUpper (src.byte i) then none else name? reserved src i

/-- `markEnd? src i` reads the mark at the end of the name of a question or a dangerous method. -/
def markEnd? (src : Source) (i : Nat) : Option Nat :=
  let b := src.byte i
  let c := src.byte (i + 1)
  let d := src.byte (i + 2)
  if b == 63 || b == 33 then
    if c != 61 || d == 61 || d == 126 || d == 62 then some (i + 1) else none
  else none

/-- `questioned? src i` reads a name with such a mark. -/
def questioned? (src : Source) (i : Nat) : Option Nat :=
  (name? reserved src i).bind (markEnd? src)

/-- `operators` are the spellings of methods that are operators, longer ones first. -/
def operators : List String :=
  ["[]=", "[]", "===", "==", "=~", "!=", "!~", "<=>", "<=", "<<", "<", ">=", ">>", ">", "+@", "-@",
    "~@", "!@", "+", "-", "**", "*", "/", "%", "&", "|", "^", "~", "!", "\x60"]

/-- `operator? src i` reads such a spelling. -/
def operator? (src : Source) (i : Nat) : Option Nat :=
  operators.findSome? fun spelling => spelling? spelling src i

/-- `methodName? src i` reads the name of a method after a receiver. -/
def methodName? (src : Source) (i : Nat) : Option Nat :=
  match word? src i with
  | some stop => some ((markEnd? src stop).getD stop)
  | none => operator? src i

/-- `setter? src i` reads the name of a method that assigns, in a definition. -/
def setter? (src : Source) (i : Nat) : Option Nat := do
  let stop ← word? src i
  let c := src.byte (stop + 1)
  if src.byte stop == 61 && c != 61 && c != 126 && c != 62 then some (stop + 1) else none

/-- `label? src i` reads the key of a pair that a colon follows. -/
def label? (src : Source) (i : Nat) : Option Nat := do
  let stop ← word? src i
  let stop := if src.byte stop == 63 || src.byte stop == 33 then stop + 1 else stop
  if src.byte stop == 58 && src.byte (stop + 1) != 58 then some stop else none

/-- `sigiled? marks src i` reads a word after one of the marks. -/
def sigiled? (marks : List String) (src : Source) (i : Nat) : Option Nat :=
  marks.findSome? fun mark => (spelling? mark src i).bind (word? src)

/-- `global? src i` reads the name of a global variable. -/
def global? (src : Source) (i : Nat) : Option Nat :=
  if src.byte i == 36 then
    let start := if src.byte (i + 1) == 45 then i + 2 else i + 1
    let stop := wordEnd src (src.size - i) start
    if start < stop then some stop
    else if isBlankByte (src.byte (i + 1)) then none
    else some (i + 2)
  else none

/-! ## Numbers and symbols -/

/-- `digitsEnd src based fuel i` is the end of the digits at `i`, and in a number without a base of
a point with a digit after it and of a signed exponent. -/
def digitsEnd (src : Source) (based : Bool) : (fuel i : Nat) → Nat
  | 0, i => i
  | fuel + 1, i =>
    let b := src.byte i
    let c := src.byte (i + 1)
    let exponent := !based && (b == 101 || b == 69)
    if exponent && (isDigit c || c == 45 || c == 43) then digitsEnd src based fuel (i + 2)
    else if isDigit b || b == 95 || (based && isAlpha b) then digitsEnd src based fuel (i + 1)
    else if !based && b == 46 && isDigit c then digitsEnd src based fuel (i + 2)
    else i

/-- `number? src i` reads a number and tells its kind. -/
def number? (src : Source) (i : Nat) : Option (String × Nat) :=
  if isDigit (src.byte i) then
    let based := src.byte i == 48 && isAlpha (src.byte (i + 1)) && src.byte (i + 1) != 101 &&
      src.byte (i + 1) != 114 && src.byte (i + 1) != 105
    let stop := digitsEnd src based (src.size - i) i
    let digits := src.slice i stop
    let isFloat := !based && digits.toList.any fun c => c = '.' || c = 'e' || c = 'E'
    let rational := src.byte stop == 114
    let stop := if rational then stop + 1 else stop
    if src.byte stop == 105 then some ("complex", stop + 1)
    else if rational then some ("rational", stop)
    else some (if isFloat then "float" else "integer", stop)
  else none

/-- A number. -/
def number : Rule ν Pending :=
  choice (["integer", "float", "rational", "complex"].map fun kind =>
    named kind fun src i =>
      match number? src i with
      | some (found, stop) => if found = kind then some stop else none
      | none => none)

/-- `symbol? src i` reads a symbol without quotes. -/
def symbol? (src : Source) (i : Nat) : Option Nat :=
  if src.byte i == 58 && src.byte (i + 1) != 58 then
    let i := i + 1
    match word? src i with
    | some stop =>
      match setter? src i with
      | some stop => some stop
      | none => some ((markEnd? src stop).getD stop)
    | none => ((operator? src i).or (sigiled? ["@@", "@"] src i)).or (global? src i)
  else none

/-- `character? src i` reads a single character as a text. -/
def character? (src : Source) (i : Nat) : Option Nat :=
  if src.byte i == 63 && !isBlankByte (src.byte (i + 1)) then
    let stop := if src.byte (i + 1) == 92 then i + 3 else i + 2
    if isWordByte (src.byte stop) then none else some stop
  else none

/-! ## Texts -/

/-- `heredoc? src i` reads the beginning of a text whose body follows on the next lines. -/
def heredoc? (src : Source) (i : Nat) : Option (Heredoc × Nat) := do
  let start ← spelling? "<<" src i
  let indented := src.byte start == 126 || src.byte start == 45
  let start := if indented then start + 1 else start
  let mark := src.byte start
  if mark == 34 || mark == 39 || mark == 96 then
    let stop := offsetOf src (fun b => b == mark || b == 10) (start + 1)
    if src.byte stop == mark then
      some (⟨src.slice (start + 1) stop, indented, mark == 39⟩, stop + 1)
    else none
  else if indented || isUpper mark then
    let stop ← word? src start
    some (⟨src.slice start stop, indented, false⟩, stop)
  else none

/-- The beginning of such a text. -/
def heredoc : Rule ν Pending :=
  .scan fun src p =>
    let (extras, q) := blanks src p
    match heredoc? src q.pos with
    | none => none
    | some (h, stop) =>
      some (extras ++ [Grammar.leaf src true "heredoc_beginning" q stop],
        { q.advance src stop with state := q.state ++ [h] })

/-- `byteToken b` is the byte `b` as a token, with no blank before it. -/
def byteToken (b : UInt8) : Rule ν Pending :=
  .lexeme true false (String.singleton (Char.ofNat b.toNat)) fun src i =>
    if i < src.size && src.byte i == b then some (i + 1) else none

/-- `startsVariable src i` holds where the sign at `i` starts the name of a variable of an object, a
class or the program. -/
def startsVariable (src : Source) (i : Nat) : Bool :=
  if src.byte i == 36 then
    "!@&\x60'+~=/\\,;.<>*$?:\"".toUTF8.toList.contains (src.byte (i + 1)) ||
      (if src.byte (i + 1) == 45 then isAlpha (src.byte (i + 2)) || src.byte (i + 2) == 95
      else isAlpha (src.byte (i + 1)) || isDigit (src.byte (i + 1)) || src.byte (i + 1) == 95)
  else if src.byte i == 64 then
    let c := src.byte (if src.byte (i + 1) == 64 then i + 2 else i + 1)
    isWordByte c && !isDigit c
  else false

/-- `embeds src i` holds where a value is embedded in a text. -/
def embeds (src : Source) (i : Nat) : Bool :=
  src.byte i == 35 && (src.byte (i + 1) == 123 || startsVariable src (i + 1))

/-- `contentEnd src opening closing embedding fuel i` is the end of the plain text at `i` in a text
between these bytes. -/
def contentEnd (src : Source) (opening closing : UInt8) (embedding : Bool) : (fuel i : Nat) → Nat
  | 0, i => i
  | fuel + 1, i =>
    let b := src.byte i
    if i ≥ src.size || b == closing || b == opening || (embedding && embeds src i) then i
    else contentEnd src opening closing embedding fuel (if b == 92 then i + 2 else i + 1)

/-- Plain text in a text between these bytes. -/
def content (opening closing : UInt8) (embedding : Bool) : Rule ν Pending :=
  tightNamed "string_content" fun src i =>
    let stop := contentEnd src opening closing embedding (src.size - i) i
    if stop = i then none else some stop

end Tokens

end TrackingPlan.Ruby
