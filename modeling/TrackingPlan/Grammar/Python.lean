import TrackingPlan.Grammar.Token

/-!
# The grammar of Python

Source files of Python. Between brackets a line break is a blank; elsewhere it ends a statement. The
statements of a block start at the column of its first statement or to the right of it, so the
reading state holds the column of the innermost block and whether brackets are open.
-/

namespace TrackingPlan.Python

open Rule Token

/-- Where reading stands: the column of the innermost block, and whether brackets are open. -/
structure Layout where
  column : Nat
  bracketed : Bool
deriving DecidableEq, Repr, Inhabited

/-- The marks that texts stand between. -/
inductive Mark where
  | single | double | longSingle | longDouble
deriving DecidableEq, Repr

/-- The spelling of a mark. -/
def Mark.spelling : Mark → String
  | .single => "'"
  | .double => "\""
  | .longSingle => "'''"
  | .longDouble => "\"\"\""

/-- Texts between long marks may hold line breaks. -/
def Mark.isLong : Mark → Bool
  | .single | .double => false
  | .longSingle | .longDouble => true

/-- The symbols that rules refer to. -/
inductive Symbol where
  | expression
  | binary (level : Nat)
  | unary
  | primary
  | operand
  | text (mark : Mark) (formatted : Bool)
  | embedded (mark : Mark)
  | value
  | arguments
  | type
  | assigned
  | casePattern
  | suite
  | statement
deriving Repr

/-- The rules of Python read with a layout. -/
abbrev Part := Rule Symbol Layout

/-! ## Blanks and lines -/

/-- `blanksFrom src bracketed fuel p found` skips blanks and comments from `p` on; line breaks are
blanks where `bracketed` holds. -/
def blanksFrom (src : Source) (bracketed : Bool) :
    (fuel : Nat) → Place Layout → List Node → List Node × Place Layout
  | 0, p, found => (found.reverse, p)
  | fuel + 1, p, found =>
    let b := src.byte p.pos
    let skip (count : Nat) :=
      blanksFrom src bracketed fuel (p.advance src (p.pos + count)) found
    if p.pos ≥ src.size then (found.reverse, p)
    else if b == 32 || b == 9 || b == 11 || b == 12 || b == 13 then skip 1
    else if b == 10 && bracketed then skip 1
    else if b == 92 && src.byte (p.pos + 1) == 10 then skip 2
    else if b == 92 && src.byte (p.pos + 1) == 13 && src.byte (p.pos + 2) == 10 then skip 3
    else if wideBlank src p.pos > 0 then skip (wideBlank src p.pos)
    else if b == 35 then
      let stop := lineEnd src p.pos
      blanksFrom src bracketed fuel (p.advance src stop)
        (Grammar.leaf src true "comment" p stop :: found)
    else (found.reverse, p)

/-- `blanks src p` skips the blanks and comments that may stand before a token. -/
def blanks (src : Source) (p : Place Layout) : List Node × Place Layout :=
  blanksFrom src p.state.bracketed (src.size - p.pos + 1) p []

/-- `columnFrom src fuel i stop column` is the column of the offset `stop`, when `i` is at `column`
and only blanks lie between. -/
def columnFrom (src : Source) : (fuel i stop column : Nat) → Option Nat
  | 0, _, _, column => some column
  | fuel + 1, i, stop, column =>
    if i ≥ stop then some column
    else
      let b := src.byte i
      if b == 32 then columnFrom src fuel (i + 1) stop (column + 1)
      else if b == 9 then columnFrom src fuel (i + 1) stop (column + 8)
      else if b == 12 || b == 13 then columnFrom src fuel (i + 1) stop 0
      else if wideBlank src i > 0 then columnFrom src fuel (i + wideBlank src i) stop column
      else none

/-- `column? src i` is the column of the offset `i`, if it is the first on its line that is no
blank. -/
def column? (src : Source) (i : Nat) : Option Nat :=
  let start := lineStart src i
  columnFrom src (i - start) start i 0

/-- `nextLine enter` goes to the next line with a token on it; `enter` tells from the column of the
block and that of the token which column the block has from there on, if the line fits at all. -/
def nextLine (enter : Nat → Nat → Option Nat) : Part :=
  .scan fun src p =>
    let (extras, q) := blanksFrom src true (src.size - p.pos + 1) p []
    if q.pos ≥ src.size then none
    else do
      let column ← enter p.state.column (← column? src q.pos)
      pure (extras, { q with state := { p.state with column } })

/-- The next line belongs to the block. -/
def continuing : Part := nextLine fun held column => if held ≤ column then some held else none

/-- The next line starts a block. -/
def indented : Part := nextLine fun held column => if held < column then some column else none

/-- The blanks and comments at the end of the text. -/
def lastLines : Part :=
  .scan fun src p => some (blanksFrom src true (src.size - p.pos + 1) p [])

/-- The end of a line or of the text. -/
def lineBreak : Part :=
  .check fun src p =>
    let q := (blanks src p).2
    q.pos ≥ src.size || src.byte q.pos == 10

/-- `bracketed body` is `body`, which starts with a bracket on the same line; inside, line breaks
are blanks. -/
def bracketed (body : Part) : Part :=
  .seq (.check fun src p => src.byte (blanks src p).2.pos != 10)
    (.within (fun layout => { layout with bracketed := true }) (fun before _ => before) body)

/-! ## Names and literals -/

/-- The words that are no names. -/
def reserved : List String :=
  ["False", "None", "True", "and", "as", "assert", "await", "break", "class", "continue", "def",
    "del", "elif", "else", "except", "finally", "for", "from", "global", "if", "import", "in", "is",
    "lambda", "nonlocal", "not", "or", "pass", "raise", "return", "try", "while", "with", "yield"]

/-- A name. -/
def identifier : Part := named "identifier" (name? reserved)

/-- `digitsEnd src plain fuel i` is the end of the digits and letters at `i`, and in a plain number
of the points and signed exponents. -/
def digitsEnd (src : Source) (plain : Bool) : (fuel i : Nat) → Nat
  | 0, i => i
  | fuel + 1, i =>
    let b := src.byte i
    if isDigit b || isAlpha b || b == 95 || (plain && b == 46) then
      let signed := plain && (b == 101 || b == 69) &&
        (src.byte (i + 1) == 43 || src.byte (i + 1) == 45)
      digitsEnd src plain fuel (if signed then i + 2 else i + 1)
    else i

/-- `number? src i` reads a number and tells its kind. -/
def number? (src : Source) (i : Nat) : Option (String × Nat) :=
  let b := src.byte i
  if isDigit b || (b == 46 && isDigit (src.byte (i + 1))) then
    let based := b == 48 && isAlpha (src.byte (i + 1)) &&
      !(src.byte (i + 1) == 101 || src.byte (i + 1) == 69 || src.byte (i + 1) == 106)
    let stop := digitsEnd src (!based) (src.size - i) i
    let text := src.slice i stop
    let isFloat := !based && text.toList.any fun c => c = '.' || c = 'e' || c = 'E'
    some (if isFloat then "float" else "integer", stop)
  else none

/-- A number. -/
def number : Part :=
  choice (["integer", "float"].map fun kind =>
    named kind fun src i =>
      match number? src i with
      | some (found, stop) => if found = kind then some stop else none
      | none => none)

/-- `contentEnd src mark formatted fuel i` is the end of the plain text inside a text: the closing
mark, or in a formatted text the brace that opens an embedded value. -/
def contentEnd (src : Source) (mark : Mark) (formatted : Bool) : (fuel i : Nat) → Nat
  | 0, i => i
  | fuel + 1, i =>
    let b := src.byte i
    if i ≥ src.size || src.startsWith i mark.spelling then i
    else if b == 10 && !mark.isLong then i
    else if b == 92 then
      let wide := src.byte (i + 1) == 13 && src.byte (i + 2) == 10
      contentEnd src mark formatted fuel (if wide then i + 3 else i + 2)
    else if formatted && b == 123 && src.byte (i + 1) != 123 then i
    else if formatted && b == 123 then contentEnd src mark formatted fuel (i + 2)
    else contentEnd src mark formatted fuel (i + 1)

/-- Plain text inside a text. -/
def content (mark : Mark) (formatted : Bool) : Part :=
  tightNamed "string_content" fun src i =>
    let stop := contentEnd src mark formatted (src.size - i) i
    if stop = i then none else some stop

/-- What may stand before the opening mark of a text, with the marker of formatted texts or
without. -/
def markers (formatted : Bool) : List String :=
  if formatted then ["fr", "rf", "f"] else ["br", "rb", "r", "b", "u", ""]

/-- `opening? mark formatted src i` reads the opening mark of a text. -/
def opening? (mark : Mark) (formatted : Bool) (src : Source) (i : Nat) : Option Nat :=
  let stop := src.skipWhile i isAlpha
  if stop > i + 2 then none
  else if (markers formatted).contains (src.slice i stop).toLower then
    spelling? mark.spelling src stop
  else none

/-- A value inside a formatted text. -/
def embedded (mark : Mark) : Part :=
  let conversion := named "type_conversion" fun src i =>
    if src.byte i == 33 && isLower (src.byte (i + 1)) then some (i + 2) else none
  let plain := tightNamed "format_text" fun src i =>
    let stop := src.skipWhile i fun b => b != 123 && b != 125 && b != 10
    if stop = i then none else some stop
  .node "interpolation" (bracketed (seqs [tight "\x7b", .role "expression" (.call .value),
    opt (text ","), opt (textUnless "=" "="), opt conversion,
    opt (.node "format_specifier" (.seq (text ":") (.many (.call (.embedded mark) <|> plain)))),
    text "\x7d"]))

/-- A text in one piece, with that mark. -/
def markedText (mark : Mark) (formatted : Bool) : Part :=
  .node "string" (seqs [named "string_start" (opening? mark formatted),
    .many (content mark formatted <|> (if formatted then .call (.embedded mark) else .fail)),
    tightNamed "string_end" (spelling? mark.spelling)])

/-- One text. -/
def oneText : Part :=
  .seq
    (.check fun src p =>
      let b := src.byte (blanks src p).2.pos
      b == 34 || b == 39 || isAlpha b)
    (choice ([Mark.longDouble, .longSingle, .double, .single].flatMap fun mark =>
      [.call (.text mark false), .call (.text mark true)]))

/-- One text, or several that count as one. -/
def string : Part :=
  .lead oneText (.node "concatenated_string" (.seq .left (many1 oneText)) <|> .left)

/-! ## Expressions -/

/-- An expression without commas around it. -/
def item : Part := .call .expression

/-- `listed item` is a list of items, separated by commas, with a comma after the last if wanted. -/
def listed (item : Part) : Part :=
  opt (.seq (sepBy1 (text ",") item) (opt (text ",")))

/-- `spread kind mark body` is a `body` whose items are spread. -/
def spread (kind mark : String) (body : Part) : Part :=
  .node kind (.seq (text mark) body)

/-- An item of a list, a tuple or a set. -/
def element : Part := spread "list_splat" "*" (.call (.binary 4)) <|> .call .value

/-- Expressions between commas; several of them are one list. -/
def expressions : Part :=
  .lead element (choice [
    .node "expression_list" (seqs [.left, text ",", listed element]),
    .left])

/-- Where a loop stores its items. -/
def target : Part :=
  let one := spread "list_splat_pattern" "*" (.call .primary) <|> .call .primary
  .lead one (choice [
    .node "pattern_list" (seqs [.left, text ",", listed one]),
    .left])

/-- The clauses of a comprehension. -/
def clauses : Part :=
  many1 (choice [
    .node "for_in_clause" (seqs [opt (text "async"), text "for", .role "left" target, text "in",
      .role "right" item]),
    .node "if_clause" (.seq (text "if") item)])

/-- What stands between parentheses: a tuple, one expression, or a generator. -/
def parenthesized : Part :=
  bracketed (choice [
    .node "tuple" (.seq (text "(") (text ")")),
    .lead (.seq (text "(") element) (choice [
      .node "parenthesized_expression" (.seq .left (text ")")),
      .node "tuple" (seqs [.left, text ",", listed element, text ")"]),
      .node "generator_expression" (seqs [.left, clauses, text ")"])])])

/-- What stands between square brackets. -/
def squared : Part :=
  bracketed (choice [
    .node "list" (.seq (text "[") (text "]")),
    .lead (.seq (text "[") element) (choice [
      .node "list_comprehension" (seqs [.left, clauses, text "]"]),
      .node "list" (seqs [.left, opt (.seq (text ",") (listed element)), text "]"])])])

/-- What stands between braces: a dictionary or a set. -/
def braced : Part :=
  let pair := .node "pair" (seqs [.role "key" item, text ":", .role "value" item])
  let entry := spread "dictionary_splat" "**" (.call (.binary 4)) <|> pair
  let rest (item : Part) : Part := .seq (opt (.seq (text ",") (listed item))) (text "\x7d")
  bracketed (choice [
    .node "dictionary" (.seq (text "\x7b") (text "\x7d")),
    .lead (.seq (text "\x7b") entry) (choice [
      .node "dictionary_comprehension" (seqs [.left, clauses, text "\x7d"]),
      .node "dictionary" (.seq .left (rest entry))]),
    .lead (.seq (text "\x7b") element) (choice [
      .node "set_comprehension" (seqs [.left, clauses, text "\x7d"]),
      .node "set" (.seq .left (rest element))])])

/-- An expression without operators around it. -/
def operand : Part :=
  let constant (word kind : String) : Part := named kind (keyword? word)
  choice [
    string, number, constant "None" "none", constant "True" "true", constant "False" "false",
    .node "ellipsis" (text "..."), identifier, parenthesized, squared, braced]

/-- The arguments of a call. -/
def arguments : Part :=
  let argument := choice [
    spread "dictionary_splat" "**" item, spread "list_splat" "*" item,
    .node "keyword_argument" (seqs [.role "name" identifier, textUnless "=" "=",
      .role "value" item]),
    item]
  bracketed (choice [
    .node "argument_list" (.seq (text "(") (text ")")),
    .lead (.seq (text "(") argument) (choice [
      .node "generator_expression" (seqs [.left, clauses, text ")"]),
      .node "argument_list" (seqs [.left, opt (.seq (text ",") (listed argument)), text ")"])])])

/-- A value with the steps that lead on from it. -/
def primary : Part :=
  let slice (start : Part) := .node "slice"
    (seqs [start, text ":", opt item, opt (.seq (text ":") (opt item))])
  let index := choice [slice .empty, spread "list_splat" "*" item,
    .lead item (slice .left <|> .left)]
  .grow (choice [.node "await" (.seq (text "await") (.call .primary)), .call .operand]) (choice [
    .node "attribute" (seqs [.role "object" .left, text ".", .role "attribute" identifier]),
    .node "call" (.seq (.role "function" .left) (.role "arguments" (.call .arguments))),
    .node "subscript" (.seq (.role "value" .left)
      (bracketed (seqs [text "[", listed (.role "subscript" index), text "]"])))])

/-- An expression that may start with a sign. -/
def unary : Part :=
  choice [
    .node "unary_operator" (.seq (.role "operator" (choice [text "+", text "-", text "~"]))
      (.role "argument" (.call .unary))),
    .lead (.call .primary) (choice [
      .node "binary_operator" (seqs [.role "left" .left, .role "operator" (textUnless "**" "="),
        .role "right" (.call .unary)]),
      .left])]

/-- The operators of each level of precedence from that of the bar on, the weakest first. -/
def operators : List (List Part) := [
  [textUnless "|" "="],
  [textUnless "^" "="],
  [textUnless "&" "="],
  [textUnless "<<" "=", textUnless ">>" "="],
  [textUnless "+" "=", textUnless "-" "="],
  [textUnless "*" "=*", textUnless "//" "=", textUnless "/" "=/", textUnless "%" "=",
    textUnless "@" "="]]

/-- An operator that compares. -/
def comparison : Part :=
  choice [text "<=", text "<>", textUnless "<" "<", text "==", text "!=", text ">=",
    textUnless ">" ">", .seq (text "not") (text "in"), text "in",
    .seq (text "is") (text "not"), text "is"]

/-- An expression of that level: disjunctions, conjunctions, negations, comparisons, and then the
operators of `operators`. -/
def binary (level : Nat) : Part :=
  let next := .call (.binary (level + 1))
  match level with
  | 0 | 1 =>
    .grow next (.node "boolean_operator" (seqs [.role "left" .left,
      .role "operator" (text (if level = 0 then "or" else "and")), .role "right" next]))
  | 2 => .node "not_operator" (.seq (text "not") (.role "argument" (.call (.binary 2)))) <|> next
  | 3 =>
    .lead next (choice [
      .node "comparison_operator" (.seq .left (many1 (.seq (.role "operators" comparison) next))),
      .left])
  | deeper + 4 =>
    match operators[deeper]? with
    | none => .call .unary
    | some spellings =>
      .grow next (.node "binary_operator" (seqs [.role "left" .left,
        .role "operator" (choice spellings), .role "right" next]))

/-- What tells the type of a name. -/
def annotation : Part := .seq (text ":") (.role "type" (.call .type))

/-- A parameter of a function, or of a lambda, which has no types. -/
def parameter (typed : Bool) : Part :=
  let default := .seq (textUnless "=" "=") (.role "value" item)
  let rest := spread "dictionary_splat_pattern" "**" identifier <|>
    spread "list_splat_pattern" "*" identifier
  let withType := choice [
    .node "typed_default_parameter" (seqs [.role "name" identifier, annotation, default]),
    .node "typed_parameter" (.seq (rest <|> identifier) annotation)]
  choice [
    if typed then withType else .fail,
    rest,
    .node "default_parameter" (.seq (.role "name" identifier) default),
    identifier,
    .node "keyword_separator" (text "*"),
    .node "positional_separator" (text "/")]

/-- An expression without commas outside brackets. -/
def expression : Part :=
  choice [
    .node "lambda" (seqs [text "lambda",
      .role "parameters" (.node "lambda_parameters" (listed (parameter false))), text ":",
      .role "body" item]),
    .lead (.call (.binary 0)) (choice [
      .node "named_expression" (seqs [.role "name" .left, text ":=", .role "value" item]),
      .node "conditional_expression"
        (seqs [.left, text "if", .call (.binary 0), text "else", item]),
      .left])]

/-- An expression, or what `yield` hands out. -/
def value : Part :=
  choice [
    .node "yield" (.seq (text "yield") (opt (.seq (text "from") item <|> expressions))),
    item]

/-! ## Statements -/

/-- Expressions, or an assignment of what follows to them. -/
def assigned : Part :=
  let source := .role "right" (.call .assigned)
  let assign := textUnless "=" "="
  let changes := ["+=", "-=", "*=", "/=", "@=", "//=", "%=", "**=", ">>=", "<<=", "&=", "^=",
    "|="].map text
  .lead expressions (choice [
    .node "assignment" (seqs [.role "left" .left, assign, source]),
    .node "assignment" (seqs [.role "left" .left, annotation, opt (.seq assign source)]),
    .node "augmented_assignment" (seqs [.role "left" .left, .role "operator" (choice changes),
      source]),
    .left])

/-- A name with the names that it lies in. -/
def dottedName : Part := .node "dotted_name" (sepBy1 (text ".") identifier)

/-- The words that go on with an expression. -/
def connectives : List String := ["and", "or", "in", "is", "if", "not", "else", "for", "as"]

/-- The next token starts an expression and cannot go on with one. -/
def startsValue : Part :=
  .check fun src p =>
    let q := (blanks src p).2.pos
    let b := src.byte q
    b == 34 || b == 39 || isDigit b || (isWordByte b && !(connectives.contains (wordAt src q)))

/-- Statements of old versions of the language that have no brackets. -/
def bracketless : Part :=
  choice [
    .node "print_statement" (seqs [text "print",
      .seq startsValue (listed (.role "argument" item)) <|>
        .seq (.node "chevron" (.seq (text ">>") item))
          (.seq (.many (.seq (text ",") (.role "argument" item))) (opt (text ",")))]),
    .node "exec_statement" (seqs [text "exec", startsValue,
      .role "code" (string <|> identifier), opt (.seq (text "in") (sepBy1 (text ",") item))])]

/-- A statement on one line. -/
def simple : Part :=
  let names := sepBy1 (text ",") identifier
  let imported := .lead dottedName (choice [
    .node "aliased_import" (seqs [.role "name" .left, text "as", .role "alias" identifier]),
    .left])
  let values := sepBy1 (text ",") item
  let source := choice [
    .node "relative_import" (.seq (many1 (text "..." <|> text ".")) (opt dottedName)),
    dottedName]
  choice [
    .node "import_statement" (.seq (text "import") (listed imported)),
    .node "import_from_statement" (seqs [text "from", .role "module_name" source, text "import",
      choice [
        .node "wildcard_import" (text "*"),
        bracketed (seqs [text "(", listed imported, text ")"]),
        listed imported]]),
    .node "assert_statement" (.seq (text "assert") values),
    .node "return_statement" (.seq (text "return") (opt expressions)),
    .node "delete_statement" (.seq (text "del") expressions),
    .node "raise_statement" (seqs [text "raise", opt expressions,
      opt (.seq (text "from") (.role "cause" item))]),
    .node "pass_statement" (text "pass"),
    .node "break_statement" (text "break"),
    .node "continue_statement" (text "continue"),
    .node "global_statement" (.seq (text "global") names),
    .node "nonlocal_statement" (.seq (text "nonlocal") names),
    .node "type_alias_statement" (seqs [text "type", .role "left" (.call .type), text "=",
      .role "right" (.call .type)]),
    bracketless,
    .node "expression_statement" (.call .assigned)]

/-- Statements on one line. -/
def simples : Part :=
  seqs [simple, .many (.seq (text ";") simple), opt (text ";"), lineBreak]

/-- What follows the head of a statement: statements on the same line, or a block. -/
def suite : Part :=
  let block := .node "block" (seqs [indented, .call .statement,
    .many (.seq continuing (.call .statement))])
  .seq (text ":") (.role "body" (choice [
    .node "block" simples,
    .within id (fun before _ => before) block,
    .node "block" .empty]))

/-- `clause kind body` is a clause of a statement, on a line of its own. -/
def clause (kind : String) (body : Part) : Part :=
  .seq continuing (.node kind (.seq body (.call .suite)))

/-- The clause for the case that a loop or the choices before it went through. -/
def otherwise : Part := opt (clause "else_clause" (text "else"))

/-- What is done with a value that a pattern is matched against. -/
def matchStatement : Part :=
  let arm := .node "case_clause" (seqs [text "case", listed (.call .casePattern),
    opt (.node "if_clause" (.seq (text "if") item)), .call .suite])
  .node "match_statement" (seqs [text "match", .role "subject" expressions, text ":",
    .within id (fun before _ => before)
      (.node "block" (seqs [indented, arm, .many (.seq continuing arm)]))])

/-- A pattern of a case. -/
def casePattern : Part :=
  let inner := .call .casePattern
  let named := .node "keyword_pattern" (seqs [identifier, textUnless "=" "=", inner])
  let entry := choice [spread "splat_pattern" "**" identifier,
    .node "key_value_pattern" (seqs [inner, text ":", inner])]
  let signed := .seq (opt (text "-")) (.seq number (opt (.seq (text "+" <|> text "-") number)))
  let atom := choice [
    spread "splat_pattern" "*" identifier,
    string, signed,
    keywordNode "None", keywordNode "True", keywordNode "False",
    .lead dottedName (choice [
      .node "class_pattern" (.seq .left
        (bracketed (seqs [text "(", listed (named <|> inner), text ")"]))),
      .left]),
    .node "tuple_pattern" (bracketed (seqs [text "(", listed inner, text ")"])),
    .node "list_pattern" (bracketed (seqs [text "[", listed inner, text "]"])),
    .node "dict_pattern" (bracketed (seqs [text "\x7b", listed entry, text "\x7d"]))]
  .node "case_pattern" (.seq (sepBy1 (text "|") atom) (opt (.seq (text "as") identifier)))

/-- A function or a class. -/
def definition : Part :=
  let typeParameters := opt (.role "type_parameters" (.node "type_parameter"
    (bracketed (seqs [text "[", listed (.seq (.call .type) (opt annotation)), text "]"]))))
  choice [
    .node "function_definition" (seqs [opt (text "async"), text "def", .role "name" identifier,
      typeParameters,
      .role "parameters" (.node "parameters"
        (bracketed (seqs [text "(", listed (parameter true), text ")"]))),
      opt (.seq (text "->") (.role "return_type" (.call .type))), .call .suite]),
    .node "class_definition" (seqs [text "class", .role "name" identifier, typeParameters,
      opt (.role "superclasses" (.call .arguments)), .call .suite])]

/-- A statement. -/
def statement : Part :=
  let body := .call .suite
  let resource := .node "with_item" (.role "value" (.lead item (choice [
    .node "as_pattern" (seqs [.left, text "as",
      .role "alias" (.node "as_pattern_target" (.call .primary))]),
    .left])))
  let caught := opt (.seq item (opt (.seq (text "as" <|> text ",") item)))
  let final := clause "finally_clause" (text "finally")
  choice [
    .node "decorated_definition" (.seq
      (many1 (seqs [.node "decorator" (.seq (text "@") item), continuing])) definition),
    definition,
    .node "if_statement" (seqs [text "if", .role "condition" item, body,
      .many (clause "elif_clause" (.seq (text "elif") (.role "condition" item))), otherwise]),
    .node "for_statement" (seqs [opt (text "async"), text "for", .role "left" target, text "in",
      .role "right" expressions, body, otherwise]),
    .node "while_statement" (seqs [text "while", .role "condition" item, body, otherwise]),
    .node "try_statement" (seqs [text "try", body, choice [
      seqs [many1 (clause "except_clause" (seqs [text "except", opt (text "*"), caught])),
        otherwise, opt final],
      final]]),
    .node "with_statement" (seqs [opt (text "async"), text "with", choice [
      .seq (.node "with_clause" (bracketed (seqs [text "(", listed resource, text ")"]))) body,
      .seq (.node "with_clause" (listed resource)) body]]),
    matchStatement,
    simples]

/-- `part symbol` is the rule of a symbol. -/
def part : Symbol → Part
  | .expression => expression
  | .binary level => binary level
  | .unary => unary
  | .primary => primary
  | .operand => operand
  | .text mark formatted => markedText mark formatted
  | .embedded mark => embedded mark
  | .value => value
  | .arguments => arguments
  | .type =>
      .node "type" (choice [spread "splat_type" "**" item, spread "splat_type" "*" item, item])
  | .assigned => assigned
  | .casePattern => casePattern
  | .suite => suite
  | .statement => statement

/-- The grammar of Python. -/
def grammar : Grammar Symbol Layout := ⟨part, blanks⟩

/-- What cannot be read as a statement: one token or word of it. -/
def unreadable : Part :=
  .node "ERROR" (named "ERROR" fun src i =>
    if i ≥ src.size then none
    else
      let stop := wordEnd src (src.size - i) i
      some (if stop = i then i + 1 else stop))

/-- `read src` is the syntax tree of the Python file `src`. -/
def read (src : Source) : Node :=
  grammar.read "module"
    (.seq (.many (choice [.seq continuing (.call .statement), unreadable])) lastLines)
      ⟨0, false⟩ src

end TrackingPlan.Python
