import TrackingPlan.Text.Decimal
import TrackingPlan.Yaml.Cursor

/-!
# Scalars in a YAML text

Reads the written forms of a scalar: plain, in quotes, or as a block. Line breaks inside the first
two are folded: one of them counts as a space, and of several the first does not count.
-/

namespace TrackingPlan.Yaml

/-- How a scalar is written. -/
inductive Form where
  | plain
  | quoted
  | literal
  | folded
deriving DecidableEq, Repr

/-- Blanks and line breaks between two words of a scalar. -/
structure Fold where
  /-- The blanks before the first line break. -/
  blanks : List Char := []
  /-- A line break was read. -/
  broken : Bool := false
  first : List Char := []
  /-- The line breaks after the first. -/
  more : List Char := []

namespace Fold

/-- `text f` is what counts of `f` when another word follows. -/
def text (f : Fold) : List Char :=
  if !f.broken then f.blanks
  else if f.first = ['\n'] then (if f.more.isEmpty then [' '] else f.more)
  else f.first ++ f.more

/-- `read? fuel indent f c` reads the blanks and line breaks at `c`. A tab may not stand for
indentation, that is, before the column `indent` of a further line. -/
def read? : (fuel : Nat) → (indent : Int) → Fold → Cursor → Option (Fold × Cursor)
  | 0, _, f, c => some (f, c)
  | fuel + 1, indent, f, c =>
    match c.break? with
    | some (text, next) =>
      if f.broken then read? fuel indent { f with more := f.more ++ text } next
      else read? fuel indent { f with broken := true, first := text } next
    | none =>
      match c.next? with
      | some x =>
        if !isBlank x then some (f, c)
        else if !f.broken then
          read? fuel indent { f with blanks := f.blanks ++ [x] } (c.advance 1)
        else if x = '\t' && c.column < indent then none
        else read? fuel indent f (c.advance 1)
      | none => some (f, c)

end Fold

/-! ## Plain scalars -/

/-- `endsFlowWord x` holds of the characters that end a plain scalar between brackets. -/
def endsFlowWord (x : Char) : Bool := ",[]\x7b\x7d".contains x

/-- `plainWord? inFlow cs` lists the characters of a plain scalar up to the next blank. Between
brackets a colon may not touch another mark. -/
def plainWord? (inFlow : Bool) : List Char → Option (List Char)
  | [] => some []
  | x :: rest =>
    if isSpacing (some x) then some []
    else if inFlow && x = ':' && rest.head?.any fun y => endsFlowWord y || y = '?' then none
    else if x = ':' && isSpacing rest.head? then some []
    else if inFlow && endsFlowWord x then some []
    else (plainWord? inFlow rest).map (x :: ·)

/-- `plainFrom fuel indent inFlow text f c` reads on a plain scalar after `text` and the blanks `f`.
It gives the text, whether a line break follows it, and the place where it stopped. -/
def plainFrom : (fuel : Nat) → (indent : Int) → (inFlow : Bool) → List Char → Fold → Cursor →
    Option (List Char × Bool × Cursor)
  | 0, _, _, _, _, _ => none
  | fuel + 1, indent, inFlow, text, f, c =>
    if c.isAtDocumentMark || c.isAt '#' then some (text, f.broken, c)
    else
      match plainWord? inFlow c.rest with
      | none => none
      | some word =>
        let (text, f) := if word.isEmpty then (text, f) else (text ++ f.text ++ word, {})
        let c := c.advance word.length
        if c.next?.isNone || !c.isAtSpacing then some (text, f.broken, c)
        else
          match Fold.read? (c.rest.length + 1) indent f c with
          | none => none
          | some (f, c) =>
            if !inFlow && c.column < indent then some (text, f.broken, c)
            else plainFrom fuel indent inFlow text f c

/-- `plain? indent inFlow c` reads the plain scalar at `c`. -/
def plain? (indent : Int) (inFlow : Bool) (c : Cursor) : Option (List Char × Bool × Cursor) :=
  plainFrom (c.rest.length + 1) indent inFlow [] {} c

/-! ## Quoted scalars -/

/-- The characters with an escape of one letter. -/
def letterValues : List (Char × Char) :=
  [('0', '\x00'), ('a', '\x07'), ('b', '\x08'), ('t', '\t'), ('\t', '\t'), ('n', '\n'),
    ('v', '\x0b'), ('f', '\x0c'), ('r', '\r'), ('e', '\x1b'), (' ', ' '), ('"', '"'), ('/', '/'),
    ('\\', '\\'), ('N', '\u0085'), ('_', '\u00a0'), ('L', '\u2028'), ('P', '\u2029')]

/-- The number of hexadecimal digits after the letters that name characters by number. -/
def digitCounts : List (Char × Nat) := [('x', 2), ('u', 4), ('U', 8)]

/-- `escaped? cs` is the character that an escape stands for after its backslash, and the length of
the escape without it. -/
def escaped? : List Char → Option (Char × Nat)
  | [] => none
  | x :: rest =>
    match letterValues.lookup x with
    | some value => some (value, 1)
    | none =>
      match digitCounts.lookup x with
      | none => none
      | some width =>
        if rest.length < width then none
        else match Text.natural? 16 (rest.take width) with
          | none => none
          | some n => if n.isValidChar then some (Char.ofNat n, width + 1) else none

/-- `quotedFrom fuel quote text c` reads on a scalar between quotes after `text`. -/
def quotedFrom : (fuel : Nat) → (quote : Char) → List Char → Cursor →
    Option (List Char × Cursor)
  | 0, _, _, _ => none
  | fuel + 1, quote, text, c =>
    if c.isAtDocumentMark then none
    else match c.next? with
      | none => none
      | some x =>
        let isSingle := quote = '\''
        if x = quote then
          if isSingle && c.second? = some '\'' then
            quotedFrom fuel quote (text ++ ['\'']) (c.advance 2)
          else some (text, c.advance 1)
        else if x = '\\' && !isSingle then
          match (c.advance 1).break? with
          | some (_, next) =>
            match Fold.read? (next.rest.length + 1) (-1) ⟨[], true, [], []⟩ next with
            | none => none
            | some (f, next) => quotedFrom fuel quote (text ++ f.text) next
          | none =>
            match escaped? (c.rest.drop 1) with
            | none => none
            | some (value, n) => quotedFrom fuel quote (text ++ [value]) (c.advance (n + 1))
        else if isSpacing (some x) then
          match Fold.read? (c.rest.length + 1) (-1) {} c with
          | none => none
          | some (f, next) => quotedFrom fuel quote (text ++ f.text) next
        else quotedFrom fuel quote (text ++ [x]) (c.advance 1)

/-- `quoted? c` reads the quoted scalar at `c`, which starts with its quote. -/
def quoted? (c : Cursor) : Option (List Char × Cursor) :=
  match c.next? with
  | none => none
  | some quote => quotedFrom (c.rest.length + 1) quote [] (c.advance 1)

/-! ## Block scalars -/

/-- What becomes of the line breaks at the end of a block. -/
inductive Chomping where
  | strip
  | clip
  | keep
deriving DecidableEq, Repr

/-- `chomping? x` is the meaning of the mark `x`. -/
def chomping? (x : Option Char) : Option Chomping :=
  match x with
  | some '+' => some .keep
  | some '-' => some .strip
  | _ => none

/-- `width? x` is the indentation that the digit `x` asks for. -/
def width? (x : Option Char) : Option Nat :=
  x.bind fun x => if x.isDigit then some (x.toNat - 48) else none

/-- `header c` reads the marks after the start of a block, in either order: what becomes of the line
breaks at its end, and its indentation. -/
def header (c : Cursor) : Chomping × Option Nat × Cursor :=
  match chomping? c.next? with
  | some chomping =>
    match width? c.second? with
    | some width => (chomping, some width, c.advance 2)
    | none => (chomping, none, c.advance 1)
  | none =>
    match width? c.next? with
    | none => (.clip, none, c)
    | some width =>
      match chomping? c.second? with
      | some chomping => (chomping, some width, c.advance 2)
      | none => (.clip, some width, c.advance 1)

/-- Empty lines of a block, the place after them, and the greatest column that was seen. -/
structure Gap where
  breaks : List Char
  widest : Nat
  next : Cursor

/-- `gap? fuel indent g` reads on empty lines and the indentation after them, up to the column
`indent` if it is known. A tab may not stand for indentation. -/
def gap? : (fuel : Nat) → (indent : Option Nat) → Gap → Option Gap
  | 0, _, g => some g
  | fuel + 1, indent, g =>
    let spaces := (g.next.takeWhile (· = ' ')).length
    let wanted := match indent with
      | none => spaces
      | some n => min spaces (n - g.next.column)
    let c := g.next.advance wanted
    let widest := max g.widest c.column
    if c.isAt '\t' && indent.all (c.column < ·) then none
    else match c.break? with
      | none => some { g with widest, next := c }
      | some (text, next) => gap? fuel indent ⟨g.breaks ++ text, widest, next⟩

/-- The lines of a block that are read so far. -/
structure Lines where
  text : List Char := []
  /-- The line break at the end of the last line. -/
  ending : List Char := []
  /-- The line breaks of the empty lines after it. -/
  breaks : List Char := []
  /-- The last line starts with a blank. -/
  blankStart : Bool := false
  next : Cursor

/-- `linesFrom fuel isFolded indent l` reads on the lines of a block at the column `indent`. In a
folded block a line break between two lines that start without a blank counts as a space, or not at
all if empty lines follow. -/
def linesFrom : (fuel : Nat) → (isFolded : Bool) → (indent : Nat) → Lines → Option Lines
  | 0, _, _, _ => none
  | fuel + 1, isFolded, indent, l =>
    let c := l.next
    if c.column ≠ indent || c.next?.isNone then some l
    else
      let blank := c.next?.any isBlank
      let joint :=
        if isFolded && l.ending = ['\n'] && !l.blankStart && !blank then
          if l.breaks.isEmpty then [' '] else []
        else l.ending
      let line := c.takeWhile (!isBreak ·)
      let (ending, next) := (c.advance line.length).readBreak
      match gap? (next.rest.length + 1) (some indent) ⟨[], 0, next⟩ with
      | none => none
      | some g =>
        linesFrom fuel isFolded indent
          ⟨l.text ++ joint ++ l.breaks ++ line, ending, g.breaks, blank, g.next⟩

/-- `block? isFolded around c` reads the block scalar at `c`, which starts with its mark and belongs
to an entry at the column `around`. -/
def block? (isFolded : Bool) (around : Int) (c : Cursor) : Option (List Char × Cursor) :=
  let (chomping, width, c) := header (c.advance 1)
  let c := (c.skipWhile isBlank).skipComment
  if width = some 0 || !c.isAtLineEnd then none
  else
    let (_, c) := c.readBreak
    let given := width.map fun width => (max around 0).toNat + width
    match gap? (c.rest.length + 1) given ⟨[], 0, c⟩ with
    | none => none
    | some g =>
      let indent := given.getD (max (max g.widest (around + 1).toNat) 1)
      match linesFrom (c.rest.length + 1) isFolded indent ⟨[], [], g.breaks, false, g.next⟩ with
      | none => none
      | some l =>
        let tail := match chomping with
          | .strip => []
          | .clip => l.ending
          | .keep => l.ending ++ l.breaks
        some (l.text ++ tail, l.next)

end TrackingPlan.Yaml
