import TrackingPlan.Document
import TrackingPlan.Yaml.Character
import TrackingPlan.Yaml.Plain

/-!
# Documents as YAML

The YAML text of a document in block style: maps and lists take a line for each entry, lists in maps
are not indented, and empty containers stand between brackets. A text is left unquoted where it can
be; texts of several lines become literal blocks. The text grows on a `Sheet`, which knows where on
its line the next thing goes.
-/

namespace TrackingPlan.Yaml

/-- `marksAnywhere previous cs` holds when a character in `cs`, which follow `previous`, would start
something else than text there: a colon before a space, or a number sign after one. -/
def marksAnywhere : (previous : Char) → List Char → Bool
  | _, [] => false
  | previous, c :: rest =>
    (c = ':' && isSpacing rest.head?) || (c = '#' && isSpacing (some previous)) ||
      marksAnywhere c rest

/-- `marksFirst cs` holds when the start of `cs` would start something else than text. -/
def marksFirst (cs : List Char) : Bool :=
  match cs with
  | [] => false
  | c :: rest =>
    "#,[]\x7b\x7d&*!|>'\"%@\x60".contains c ||
      ("?:-".contains c && isSpacing rest.head?) ||
      cs.take 3 = ['-', '-', '-'] || cs.take 3 = ['.', '.', '.']

/-- `meet p q cs` holds when some character that satisfies `p` stands before one that satisfies
`q`. -/
def meet (p q : Char → Bool) : List Char → Bool
  | c :: d :: rest => (p c && q d) || meet p q (d :: rest)
  | _ => false

/-- How a scalar is written. -/
inductive Style where
  | plain
  | single
  | double
  | literal
deriving DecidableEq, Repr

/-- `isSpace c` holds of the space character. -/
def isSpace (c : Char) : Bool := c = ' '

/-- `allowsQuotes cs` holds of the texts that single quotes can hold. -/
def allowsQuotes (cs : List Char) : Bool :=
  cs.all isPrintable && !meet isSpace isBreak cs && !meet isBreak isSpace cs

/-- `allowsPlain cs` holds of the texts that need no quotes. -/
def allowsPlain (cs : List Char) : Bool :=
  let atEnds (c : Option Char) := c.any fun c => isSpace c || isBreak c
  allowsQuotes cs && !cs.any isBreak && !atEnds cs.head? && !atEnds cs.getLast? &&
    !marksFirst cs && !cs.head?.any (marksAnywhere · (cs.drop 1))

/-- `allowsLiteral cs` holds of the texts that a literal block can hold. -/
def allowsLiteral (cs : List Char) : Bool :=
  cs.all isPrintable && !meet isSpace isBreak cs && !(cs.getLast?).any isSpace

/-- `styleOf text` is the way in which `text` is written. -/
def styleOf (text : String) : Style :=
  let cs := text.toList
  if cs.contains '\n' then
    if allowsLiteral cs then .literal else .double
  else if isText text && allowsPlain cs then .plain
  else if allowsQuotes cs then .single
  else .double

/-- The text written so far, and where its last line stands. -/
structure Sheet where
  text : String := ""
  /-- The characters on the last line. -/
  column : Nat := 0
  /-- Something may follow without a space before it. -/
  spaced : Bool := true
  /-- The last line holds nothing but indentation and marks of containers. -/
  bare : Bool := true

namespace Sheet

/-- `put c s` writes `c`. -/
def put (c : Char) (s : Sheet) : Sheet :=
  { s with text := s.text.push c, column := s.column + 1 }

/-- `puts cs s` writes `cs`. -/
def puts (cs : List Char) (s : Sheet) : Sheet := cs.foldl (fun s c => s.put c) s

/-- `endLine c s` writes the line break `c`. -/
def endLine (c : Char) (s : Sheet) : Sheet :=
  { s with text := s.text.push c, column := 0 }

/-- `startLine indent s` goes to the column `indent` of a fresh line, unless the last line is
one. -/
def startLine (indent : Nat) (s : Sheet) : Sheet :=
  let s :=
    if !s.bare || s.column > indent || (s.column = indent && !s.spaced) then s.endLine '\n' else s
  { s.puts (List.replicate (indent - s.column) ' ') with spaced := true, bare := true }

/-- `space s` writes a space if one is needed here. -/
def space (s : Sheet) : Sheet := if s.spaced then s else s.put ' '

/-- `mark text isMark s` writes `text`, which leaves the line bare if it marks an entry. -/
def mark (text : String) (isMark : Bool) (s : Sheet) : Sheet :=
  { s.puts text.toList with spaced := false, bare := s.bare && isMark }

end Sheet

/-- `plain cs s` writes `cs` without quotes. -/
def plain (cs : List Char) (s : Sheet) : Sheet :=
  { s.space.puts cs with spaced := false, bare := false }

/-- `quoted indent broken cs s` writes the inside of single quotes; `broken` tells that a line break
came before. -/
def quoted (indent : Nat) : (broken : Bool) → List Char → Sheet → Sheet
  | broken, [], s => if broken then s.startLine indent else s
  | broken, c :: rest, s =>
    if isSpace c then quoted indent broken rest (s.put c)
    else if isBreak c then
      let s := if !broken && c = '\n' then s.endLine '\n' else s
      quoted indent true rest { s.endLine c with bare := true }
    else
      let s := if broken then s.startLine indent else s
      let s := if c = '\'' then s.put c else s
      quoted indent false rest { s.put c with bare := false }

/-- `hexDigits width n` lists the last `width` hexadecimal digits of `n`, in upper case. -/
def hexDigits : (width n : Nat) → List Char
  | 0, _ => []
  | width + 1, n =>
    let digit := n % 16
    hexDigits width (n / 16) ++ [Char.ofNat (if digit < 10 then 48 + digit else 55 + digit)]

/-- The characters with an escape of one letter, by their numbers. -/
def letterEscapes : List (Nat × Char) :=
  [(0x00, '0'), (0x07, 'a'), (0x08, 'b'), (0x09, 't'), (0x0A, 'n'), (0x0B, 'v'), (0x0C, 'f'),
    (0x0D, 'r'), (0x1B, 'e'), (0x22, '"'), (0x5C, '\\'), (0x85, 'N'), (0xA0, '_'), (0x2028, 'L'),
    (0x2029, 'P')]

/-- `escape c` is how `c` stands between double quotes. -/
def escape (c : Char) : List Char :=
  if isPrintable c && !isBreak c && c ≠ '"' && c ≠ '\\' then [c]
  else match letterEscapes.lookup c.toNat with
    | some letter => ['\\', letter]
    | none =>
      if c.toNat ≤ 0xFF then '\\' :: 'x' :: hexDigits 2 c.toNat
      else if c.toNat ≤ 0xFFFF then '\\' :: 'u' :: hexDigits 4 c.toNat
      else '\\' :: 'U' :: hexDigits 8 c.toNat

/-- `blockHints cs` tells how to read a literal block: how far it is indented, if it starts with a
blank, and whether its last line breaks count. -/
def blockHints (cs : List Char) : List Char :=
  let start := if cs.head?.any fun c => isSpace c || isBreak c then ['2'] else []
  let stop := match cs.reverse with
    | [] => ['-']
    | last :: before =>
      if !isBreak last then ['-']
      else match before with
        | [] => ['+']
        | c :: _ => if isBreak c then ['+'] else []
  start ++ stop

/-- `block indent broken cs s` writes the lines of a literal block. -/
def block (indent : Nat) : (broken : Bool) → List Char → Sheet → Sheet
  | _, [], s => s
  | broken, c :: rest, s =>
    if isBreak c then block indent true rest { s.endLine c with bare := true }
    else
      let s := if broken then s.startLine indent else s
      block indent false rest { s.put c with bare := false }

/-- `scalar indent text s` writes `text`, whose further lines start at the column `indent`. -/
def scalar (indent : Nat) (text : String) (s : Sheet) : Sheet :=
  let cs := text.toList
  match styleOf text with
  | .plain => plain cs s
  | .single => (quoted indent false cs (s.space.mark "'" false)).mark "'" false
  | .double => (s.space.mark "\"" false).puts (cs.flatMap escape) |>.mark "\"" false
  | .literal =>
    let s := (s.space.mark "|" false).puts (blockHints cs)
    block indent true cs { s.endLine '\n' with bare := true, spaced := true }

/-- `isSimpleKey text` holds of the texts that can name an entry without a mark before them. -/
def isSimpleKey (text : String) : Bool :=
  !text.toList.any isBreak && text.utf8ByteSize ≤ 128

/-- `deeper indent` is the column of the entries of a container whose own entry stands at
`indent`. -/
def deeper : (indent : Option Nat) → Nat
  | none => 0
  | some n => n + 2

/-- `textColumn indent` is the column of the further lines of a text whose entry stands at
`indent`. -/
def textColumn : (indent : Option Nat) → Nat
  | none => 2
  | some n => n + 2

mutual
/-- `write indent inMap d s` writes `d` as the value of an entry at `indent`. -/
def write (indent : Option Nat) (inMap : Bool) : Document → Sheet → Sheet
  | .null, s => plain "null".toList s
  | .boolean value, s => plain (if value then "true" else "false").toList s
  | .number value, s => plain (toString value).toList s
  | .decimal written, s => plain written.toList s
  | .text value, s => scalar (textColumn indent) value s
  | .list [], s => s.space.mark "[]" false
  | .list (first :: rest), s =>
    let indent := if inMap && !s.bare then indent.getD 0 else deeper indent
    writeItems indent (first :: rest) s
  | .map [], s => s.space.mark "\x7b\x7d" false
  | .map (first :: rest), s => writeEntries (deeper indent) (first :: rest) s

/-- `writeItems indent items s` writes the items of a list at `indent`. -/
def writeItems (indent : Nat) : List Document → Sheet → Sheet
  | [], s => s
  | d :: rest, s =>
    writeItems indent rest (write (some indent) false d ((s.startLine indent).mark "-" true))

/-- `writeEntries indent entries s` writes the entries of a map at `indent`. A name that is no
simple key has a mark before it, and its value a line of its own. -/
def writeEntries (indent : Nat) : List (String × Document) → Sheet → Sheet
  | [], s => s
  | (name, d) :: rest, s =>
    let s := s.startLine indent
    let s :=
      if isSimpleKey name then (scalar (indent + 2) name s).mark ":" false
      else
        let s := scalar (indent + 2) name (s.mark "?" true)
        (s.startLine indent).mark ":" true
    writeEntries indent rest (write (some indent) true d s)
end

end TrackingPlan.Yaml

namespace TrackingPlan.Document

/-- `yaml d` is the YAML text of `d`, which ends with a line break. -/
def yaml (d : Document) : String := ((Yaml.write none false d {}).startLine 0).text

end TrackingPlan.Document
