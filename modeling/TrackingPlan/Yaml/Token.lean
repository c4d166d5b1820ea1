import TrackingPlan.Yaml.Scalar

/-!
# Tokens of a YAML text

Splits a text into tokens. Indentation becomes tokens of its own, which open and close blocks. A
token that turns out to be the name of an entry, because a colon follows it on its line, gets the
marks of an entry in front of it afterwards. `tokens?` gives none if the text is malformed.
-/

namespace TrackingPlan.Yaml

/-- A token. -/
inductive Token where
  | documentStart
  | documentEnd
  | version (major minor : Nat)
  | tagPrefix (handle start : String)
  | blockSequence
  | blockMapping
  | blockEnd
  | flowSequence
  | flowSequenceEnd
  | flowMapping
  | flowMappingEnd
  | blockEntry
  | flowEntry
  | key
  | value
  | alias (name : String)
  | anchor (name : String)
  | tag (handle suffix : String)
  | scalar (text : String) (form : Form)
deriving DecidableEq, Repr, Inhabited

/-- A token that may be the name of an entry. -/
structure Candidate where
  /-- The line has to hold an entry. -/
  required : Bool
  /-- The number of tokens before it. -/
  place : Nat
  index : Nat
  line : Nat
  column : Nat

/-- What has been read of a text. -/
structure Reader where
  cursor : Cursor
  tokens : Array Token := #[]
  /-- The column of the innermost block, or -1 outside of blocks. -/
  indent : Int := -1
  /-- The columns of the blocks around it. -/
  indents : List Int := []
  /-- For each open bracket, from the innermost on, and for the text around them, the last token
  that may be the name of an entry. -/
  candidates : List (Option Candidate) := [none]
  /-- An entry may start here. -/
  mayStart : Bool := true

namespace Reader

/-- `inFlow r` holds between brackets. -/
def inFlow (r : Reader) : Bool := r.candidates.length > 1

/-- `emit t r` adds a token. -/
def emit (t : Token) (r : Reader) : Reader := { r with tokens := r.tokens.push t }

/-- `pass n r` passes `n` characters. -/
def pass (n : Nat) (r : Reader) : Reader := { r with cursor := r.cursor.advance n }

/-- `forget? r` gives up the last candidate; it may not be required. -/
def forget? (r : Reader) : Option Reader :=
  match r.candidates with
  | some candidate :: rest =>
    if candidate.required then none else some { r with candidates := none :: rest }
  | _ => some r

/-- `offer? r` makes the next token a candidate, if an entry may start here. -/
def offer? (r : Reader) : Option Reader :=
  if !r.mayStart then some r
  else match r.forget? with
    | none => none
    | some r =>
      let c := r.cursor
      let candidate : Candidate :=
        ⟨!r.inFlow && r.indent = c.column, r.tokens.size, c.index, c.line, c.column⟩
      some { r with candidates := some candidate :: r.candidates.drop 1 }

/-- `isStale c candidate` holds when the candidate is on a former line or too far back. -/
def isStale (c : Cursor) (candidate : Candidate) : Bool :=
  candidate.line < c.line || candidate.index + 1024 < c.index

/-- `dropStale? r` gives up all candidates that can be no names any more. -/
def dropStale? (r : Reader) : Option Reader :=
  let stale (k : Option Candidate) := k.any (isStale r.cursor)
  if r.candidates.any fun k => stale k && k.any (·.required) then none
  else some { r with candidates := r.candidates.map fun k => if stale k then none else k }

/-- `openBlock column place start r` opens a block at `column`, unless the innermost one is there
already or a bracket is open. Its token goes to `place`. -/
def openBlock (column place : Nat) (start : Token) (r : Reader) : Reader :=
  if r.inFlow || r.indent ≥ column then r
  else
    { r with
      indents := r.indent :: r.indents
      indent := column
      tokens := r.tokens.insertIdxIfInBounds place start }

/-- `closeBlocks levels column r` closes the blocks beyond `column`. -/
def closeBlocks : (levels : Nat) → (column : Int) → Reader → Reader
  | 0, _, r => r
  | levels + 1, column, r =>
    if r.inFlow || r.indent ≤ column then r
    else
      closeBlocks levels column
        { r.emit .blockEnd with indent := r.indents.headD (-1), indents := r.indents.drop 1 }

/-- `close column r` closes the blocks beyond `column`. -/
def close (column : Int) (r : Reader) : Reader := closeBlocks (r.indents.length + 1) column r

/-- `skipGap fuel r` passes blanks, comments and line breaks. A tab may not stand where an entry may
start. -/
def skipGap : (fuel : Nat) → Reader → Reader
  | 0, r => r
  | fuel + 1, r =>
    let tabs := r.inFlow || !r.mayStart
    let c := (r.cursor.skipWhile fun x => x = ' ' || (tabs && x = '\t')).skipComment
    match c.break? with
    | none => { r with cursor := c }
    | some (_, next) => skipGap fuel { r with cursor := next, mayStart := r.mayStart || !r.inFlow }

/-! ## Marks -/

/-- `documentMark? t r` reads a mark that starts or ends a document. -/
def documentMark? (t : Token) (r : Reader) : Option Reader :=
  ((r.close (-1)).forget?).map fun r => { (r.pass 3).emit t with mayStart := false }

/-- `openBracket? t r` reads an opening bracket. -/
def openBracket? (t : Token) (r : Reader) : Option Reader :=
  r.offer?.map fun r =>
    { (r.pass 1).emit t with candidates := none :: r.candidates, mayStart := true }

/-- `closeBracket? t r` reads a closing bracket. -/
def closeBracket? (t : Token) (r : Reader) : Option Reader :=
  r.forget?.map fun r =>
    { (r.pass 1).emit t with
      candidates := if r.inFlow then r.candidates.drop 1 else r.candidates
      mayStart := false }

/-- `separator? r` reads a comma. -/
def separator? (r : Reader) : Option Reader :=
  r.forget?.map fun r => { (r.pass 1).emit .flowEntry with mayStart := true }

/-- `item? r` reads the mark of an item of a list. -/
def item? (r : Reader) : Option Reader :=
  if !r.inFlow && !r.mayStart then none
  else
    ((r.openBlock r.cursor.column r.tokens.size .blockSequence).forget?).map fun r =>
      { (r.pass 1).emit .blockEntry with mayStart := true }

/-- `name? r` reads the mark in front of the name of an entry. -/
def name? (r : Reader) : Option Reader :=
  if !r.inFlow && !r.mayStart then none
  else
    ((r.openBlock r.cursor.column r.tokens.size .blockMapping).forget?).map fun r =>
      { (r.pass 1).emit .key with mayStart := !r.inFlow }

/-- `value? r` reads the colon of an entry. Its name is the last candidate, which now gets its mark,
or was marked itself. -/
def value? (r : Reader) : Option Reader :=
  match r.candidates with
  | some k :: rest =>
    let r := { r with candidates := none :: rest, tokens :=
      r.tokens.insertIdxIfInBounds k.place .key }
    let r := r.openBlock k.column k.place .blockMapping
    some { (r.pass 1).emit .value with mayStart := false }
  | _ =>
    if !r.inFlow && !r.mayStart then none
    else
      let r := r.openBlock r.cursor.column r.tokens.size .blockMapping
      some { (r.pass 1).emit .value with mayStart := !r.inFlow }

/-! ## Directives -/

/-- `afterLine? c` is the place after the rest of a line, which may hold only a comment. -/
def afterLine? (c : Cursor) : Option Cursor :=
  let c := (c.skipWhile isBlank).skipComment
  if c.isAtLineEnd then some c.readBreak.2 else none

/-- `versionNumber? c` reads one number of a version. -/
def versionNumber? (c : Cursor) : Option (Nat × Cursor) :=
  let digits := c.takeWhile Char.isDigit
  if digits.length > 9 then none
  else (Text.natural? 10 digits).map (·, c.advance digits.length)

/-- `version? c` reads a version, two numbers with a full stop between them. -/
def version? (c : Cursor) : Option (Token × Cursor) :=
  match versionNumber? (c.skipWhile isBlank) with
  | none => none
  | some (major, c) =>
    if !c.isAt '.' then none
    else (versionNumber? (c.advance 1)).map fun (minor, c) => (.version major minor, c)

/-- `isUriChar inBrackets x` holds of the characters of a tag that stand for themselves. -/
def isUriChar (inBrackets : Bool) (x : Char) : Bool :=
  isWordChar x || ";/?:@&=+$.!~*'()".contains x || (inBrackets && ",[]".contains x)

/-- `percent? cs` is the byte of an escape in a tag. -/
def percent? : List Char → Option UInt8
  | '%' :: a :: b :: _ => (Text.natural? 16 [a, b]).map UInt8.ofNat
  | _ => none

/-- `uriFrom fuel inBrackets bytes c` reads the characters of a tag after `bytes`. -/
def uriFrom : (fuel : Nat) → (inBrackets : Bool) → ByteArray → Cursor → Option (String × Cursor)
  | 0, _, _, _ => none
  | fuel + 1, inBrackets, bytes, c =>
    match c.next? with
    | some x =>
      if isUriChar inBrackets x then
        uriFrom fuel inBrackets (bytes ++ x.toString.toUTF8) (c.advance 1)
      else if x = '%' then
        match percent? c.rest with
        | none => none
        | some b => uriFrom fuel inBrackets (bytes.push b) (c.advance 3)
      else (String.fromUTF8? bytes).map (·, c)
    | none => (String.fromUTF8? bytes).map (·, c)

/-- `uri? inBrackets c` reads the characters of a tag. -/
def uri? (inBrackets : Bool) (c : Cursor) : Option (String × Cursor) :=
  uriFrom (c.rest.length + 1) inBrackets .empty c

/-- `handle? c` reads an exclamation mark, and a word and another mark if they follow. -/
def handle? (c : Cursor) : Option (String × Cursor) :=
  if !c.isAt '!' then none
  else
    let word := (c.advance 1).takeWhile isWordChar
    let next := c.advance (word.length + 1)
    if next.isAt '!' then some (String.ofList ('!' :: word ++ ['!']), next.advance 1)
    else some (String.ofList ('!' :: word), next)

/-- `tagDirective? c` reads the handle of a tag and what it stands for. -/
def tagDirective? (c : Cursor) : Option (Token × Cursor) :=
  match handle? (c.skipWhile isBlank) with
  | none => none
  | some (handle, c) =>
    if (handle ≠ "!" && !(handle.length > 1 && handle.endsWith "!")) ||
      !c.next?.any isBlank then none
    else match uri? true (c.skipWhile isBlank) with
      | none => none
      | some (start, c) =>
          if start = "" || !c.isAtSpacing then none else some (.tagPrefix handle start, c)

/-- `directive? r` reads a directive. -/
def directive? (r : Reader) : Option Reader :=
  match (r.close (-1)).forget? with
  | none => none
  | some r =>
    let c := r.cursor.advance 1
    let name := String.ofList (c.takeWhile isWordChar)
    let c := c.skipWhile isWordChar
    let read : Option (Token × Cursor) :=
      if !c.isAtSpacing then none
      else if name = "YAML" then version? c
      else if name = "TAG" then tagDirective? c
      else none
    match read with
    | none => none
    | some (t, c) => (afterLine? c).map fun c => { r.emit t with cursor := c, mayStart := false }

/-! ## Properties and scalars -/

/-- `reference? make r` reads the name of an anchor or an alias after its mark. -/
def reference? (make : String → Token) (r : Reader) : Option Reader :=
  match r.offer? with
  | none => none
  | some r =>
    let c := r.cursor.advance 1
    let name := c.takeWhile isWordChar
    let c := c.skipWhile isWordChar
    if name.isEmpty || !(c.isAtSpacing || c.next?.any fun x => "?:,]\x7d%@\x60".contains x) then
      none
    else some { r.emit (make (String.ofList name)) with cursor := c, mayStart := false }

/-- `tagToken? c` reads a tag: verbatim between angle brackets, or a handle and a suffix. -/
def tagToken? (c : Cursor) : Option (Token × Cursor) :=
  if c.second? = some '<' then
    match uri? true (c.advance 2) with
    | none => none
    | some (suffix, c) =>
        if suffix = "" || !c.isAt '>' then none else some (.tag "" suffix, c.advance 1)
  else
    match handle? c with
    | none => none
    | some (handle, next) =>
      if handle.length > 1 && handle.endsWith "!" then
        match uri? false next with
        | none => none
        | some (suffix, c) => if suffix = "" then none else some (.tag handle suffix, c)
      else
        match uri? false (c.advance 1) with
        | none => none
        | some (suffix, c) => some (if suffix = "" then .tag "" "!" else .tag "!" suffix, c)

/-- `tag? r` reads a tag. -/
def tag? (r : Reader) : Option Reader :=
  match r.offer? with
  | none => none
  | some r =>
    match tagToken? r.cursor with
    | none => none
    | some (t, c) =>
      if c.isAtSpacing || (r.inFlow && c.isAt ',') then
        some { r.emit t with cursor := c, mayStart := false }
      else none

/-- `block? form r` reads a block scalar. -/
def block? (form : Form) (r : Reader) : Option Reader :=
  match r.forget? with
  | none => none
  | some r =>
    (Yaml.block? (form = .folded) r.indent r.cursor).map fun (text, c) =>
      { r.emit (.scalar (String.ofList text) form) with cursor := c, mayStart := true }

/-- `quoted? r` reads a quoted scalar. -/
def quoted? (r : Reader) : Option Reader :=
  match r.offer? with
  | none => none
  | some r =>
    (Yaml.quoted? r.cursor).map fun (text, c) =>
      { r.emit (.scalar (String.ofList text) .quoted) with cursor := c, mayStart := false }

/-- `plain? r` reads a plain scalar; after a line break an entry may start. -/
def plain? (r : Reader) : Option Reader :=
  match r.offer? with
  | none => none
  | some r =>
    (Yaml.plain? (r.indent + 1) r.inFlow r.cursor).map fun (text, broken, c) =>
      { r.emit (.scalar (String.ofList text) .plain) with cursor := c, mayStart := broken }

/-- `startsPlain r x` holds when `x`, the character at the reader, starts a plain scalar. -/
def startsPlain (r : Reader) (x : Char) : Bool :=
  let second := r.cursor.second?
  !("-?:,[]\x7b\x7d#&*!|>'\"%@\x60".contains x || isSpacing (some x)) ||
    (x = '-' && !second.any isBlank) ||
    (!r.inFlow && (x = '?' || x = ':') && !isSpacing second)

/-- `token? x r` reads the token that starts with the character `x`. -/
def token? (x : Char) (r : Reader) : Option Reader :=
  let c := r.cursor
  let endsWord := isSpacing c.second?
  if c.column = 0 && x = '%' then r.directive?
  else if c.isAtDocumentMark then r.documentMark? (if x = '-' then .documentStart else .documentEnd)
  else if x = '[' then r.openBracket? .flowSequence
  else if x = '\x7b' then r.openBracket? .flowMapping
  else if x = ']' then r.closeBracket? .flowSequenceEnd
  else if x = '\x7d' then r.closeBracket? .flowMappingEnd
  else if x = ',' then r.separator?
  else if x = '-' && endsWord then r.item?
  else if x = '?' && (r.inFlow || endsWord) then r.name?
  else if x = ':' && (r.inFlow || endsWord) then r.value?
  else if x = '*' then r.reference? .alias
  else if x = '&' then r.reference? .anchor
  else if x = '!' then r.tag?
  else if x = '|' && !r.inFlow then r.block? .literal
  else if x = '>' && !r.inFlow then r.block? .folded
  else if x = '\'' || x = '"' then r.quoted?
  else if r.startsPlain x then r.plain?
  else none

/-- `run? fuel r` reads all tokens. -/
def run? : (fuel : Nat) → Reader → Option (Array Token)
  | 0, _ => none
  | fuel + 1, r =>
    let r := skipGap (r.cursor.rest.length + 1) r
    match r.dropStale? with
    | none => none
    | some r =>
      match r.cursor.next? with
      | none => ((r.close (-1)).forget?).map (·.tokens)
      | some x =>
        match (r.close r.cursor.column).token? x with
        | none => none
        | some r => run? fuel r

end Reader

/-- `tokens? text` lists the tokens of `text`. Up to two byte order marks at its start do not
count. -/
def tokens? (text : String) : Option (List Token) :=
  let isMark (x : Char) : Bool := x.toNat = 0xFEFF
  let cs := text.toList
  let cs := cs.drop ((cs.take 2).takeWhile isMark).length
  if !cs.all isAllowed then none
  else (Reader.run? (cs.length + 2) { cursor := { rest := cs } }).map (·.toList)

end TrackingPlan.Yaml
