import TrackingPlan.Grammar.RubyTokens

/-!
# The grammar of Ruby

Source files of Ruby. Operators, receivers and arguments without parentheses follow on the same
line, since a line break ends a statement; only a full stop may lead on from an earlier line. A
block between `do` and `end` belongs to the outermost call whose arguments have no parentheses, so
the arguments of such a call are read without these blocks.
-/

namespace TrackingPlan.Ruby

open Rule Token

/-- Where an expression stands. -/
inductive Spot where
  /-- As a statement: it may assign several values, and calls may take blocks. -/
  | statement
  /-- Between brackets: calls may take blocks. -/
  | enclosed
  /-- As an argument without parentheses, or before a `do` that belongs to something else. -/
  | exposed
deriving DecidableEq, Repr

/-- The symbols that rules refer to. -/
inductive Symbol where
  | expression (spot : Spot)
  | binary (spot : Spot) (level : Nat)
  | unary (spot : Spot)
  | primary (spot : Spot)
  | operand (spot : Spot)
  | argument (spot : Spot)
  | commandArguments
  | inside (opening closing : UInt8) (embedding : Bool)
  | joined (spot : Spot)
  | statement
  | statements
  | parameter
  | pattern
deriving Repr

/-- The rules of Ruby read with the texts whose bodies are still to come. -/
abbrev Part := Rule Symbol Pending

/-- `listed item` is a list of items, separated by commas, with a comma after the last if wanted. -/
def listed (item : Part) : Part :=
  opt (.seq (sepBy1 (text ",") item) (opt (text ",")))

/-- A token on the same line. -/
def joinedBy (spelling : String) : Part := .seq onLine (text spelling)

/-! ## Names and literals -/

/-- The name of a variable or of a method without arguments. -/
def identifier : Part := named "identifier" smallName?

/-- The name of a constant. -/
def constant : Part := named "constant" constant?

/-- The name of a method after a receiver. -/
def methodName : Part :=
  choice [named "constant" fun src i =>
      (constant? src i).filter fun stop => (markEnd? src stop).isNone,
    named "identifier" fun src i =>
      (word? src i).map fun stop => (markEnd? src stop).getD stop,
    named "operator" operator?]

/-- A variable of an object, a class or the program. -/
def sigiled : Part :=
  choice [named "class_variable" (sigiled? ["@@"]), named "instance_variable" (sigiled? ["@"]),
    named "global_variable" global?]

/-- A value in a text. -/
def interpolation : Part :=
  .node "interpolation" (choice [
    seqs [tight "#\x7b", .call .statements, text "\x7d"],
    seqs [tightNamed "embedding" (fun src i => if embeds src i then some (i + 1) else none),
      sigiled]])

/-- What stands in a text between these bytes. -/
def inside (opening closing : UInt8) (embedding : Bool) : Part :=
  let nested := seqs [byteToken opening, .call (.inside opening closing embedding),
    byteToken closing]
  .many (choice [
    content opening closing embedding,
    if embedding then interpolation else .fail,
    if opening = closing then .fail else nested])

/-- `quoted kind start mark embedding` is a text that starts with `start` and ends with `mark`. -/
def quoted (kind start : String) (mark : UInt8) (embedding : Bool) : Part :=
  .node kind (seqs [text start, .call (.inside mark mark embedding), byteToken mark])

/-- The brackets and marks that may stand around a text after a percent sign. -/
def delimiters : List (UInt8 × UInt8) :=
  [(40, 41), (91, 93), (123, 125), (60, 62), (124, 124), (33, 33), (47, 47), (94, 94)]

/-- `percent kind letter embedding` is a text after a percent sign and that letter. -/
def percent (kind letter : String) (embedding : Bool) : Part :=
  choice (delimiters.map fun (opening, closing) =>
    .node kind (seqs [text ("%" ++ letter ++ String.singleton (Char.ofNat opening.toNat)),
      .call (.inside opening closing embedding), byteToken closing]))

/-- A text after a percent sign. -/
def percentText : Part :=
  .seq (next fun src i => src.byte i == 37) (choice [
    percent "string" "" true, percent "string" "q" false, percent "string" "Q" true,
    percent "string_array" "w" false, percent "string_array" "W" true,
    percent "symbol_array" "i" false, percent "symbol_array" "I" true,
    percent "regex" "r" true, percent "subshell" "x" true, percent "delimited_symbol" "s" false])

/-- A text between quotes. -/
def string : Part := quoted "string" "\"" 34 true <|> quoted "string" "'" 39 false

/-- One text, or several on one line that count as one. -/
def strings : Part :=
  .lead string (.node "chained_string" (.seq .left (many1 (.seq onLine string))) <|> .left)

/-- A symbol. -/
def symbol : Part :=
  .seq (next fun src i => src.byte i == 58) (choice [
    quoted "delimited_symbol" ":\"" 34 true, quoted "delimited_symbol" ":'" 39 false,
    named "simple_symbol" symbol?])

/-- A regular expression. -/
def regex : Part :=
  .node "regex" (seqs [text "/", .call (.inside 47 47 true), byteToken 47,
    opt (tightNamed "flags" fun src i =>
      let stop := src.skipWhile i isLower
      if stop = i then none else some stop)])

/-- The literals that are single tokens or texts. -/
def literal : Part :=
  choice [number, strings, symbol, percentText, heredoc, regex,
    quoted "subshell" "\x60" 96 true, named "character" character?,
    keywordNode "true", keywordNode "false", keywordNode "nil"]

/-! ## Pairs and arguments -/

/-- A pair of a key and a value, or what `bare` makes of an expression. -/
def pairOr (spot : Spot) (bare : Part) : Part :=
  let value := .role "value" (.call (.expression spot))
  choice [
    .node "pair" (seqs [.role "key" (named "hash_key_symbol" label?), byteToken 58, opt value]),
    .lead (.call (.expression spot)) (choice [
      .node "pair" (seqs [.role "key" .left, text "=>", value]),
      .node "pair" (seqs [.role "key" .left, .absent (tight "::"), byteToken 58, value]),
      bare])]

/-- A value that is spread. -/
def spread (kind mark : String) (spot : Spot) : Part :=
  .node kind (.seq (text mark) (opt (.call (.binary spot 1))))

/-- An argument. -/
def argument (spot : Spot) : Part :=
  choice [
    spread "hash_splat_argument" "**" spot,
    spread "splat_argument" "*" spot,
    .seq (next fun src i => src.byte i == 38 && src.byte (i + 1) != 38)
      (spread "block_argument" "&" spot),
    .node "forward_argument" (text "..."),
    pairOr spot .left]

/-- Arguments between parentheses. -/
def arguments : Part :=
  .node "argument_list" (seqs [tight "(", listed (.call (.argument .enclosed)), text ")"])

/-- The words that start no argument. -/
def connectives : List String :=
  ["and", "do", "else", "elsif", "end", "ensure", "if", "in", "or", "rescue", "then", "unless",
    "until", "when", "while"]

/-- `startsArgument src i` holds where an argument without parentheses may start, when a blank
stands before it. An operator starts one if it has a blank only before it. -/
def startsArgument (src : Source) (i : Nat) : Bool :=
  let b := src.byte i
  let c := src.byte (i + 1)
  let close := i + 1 < src.size && !isBlankByte c && c != 61
  if i ≥ src.size then false
  else if b == 36 || isDigit b then true
  else if isWordByte b then !connectives.contains (wordAt src i) || (label? src i).isSome
  else if b == 34 || b == 39 || b == 96 || b == 64 || b == 91 || b == 40 || b == 126 then true
  else if b == 58 then
    close && (c != 58 || !isBlankByte (src.byte (i + 2)))
  else if b == 45 || b == 43 || b == 47 then close
  else if b == 33 then close && c != 126
  else if b == 42 then close && (c != 42 || !isBlankByte (src.byte (i + 2)))
  else if b == 38 then close && c != 38 && c != 46
  else if b == 37 then
    c == 40 || c == 91 || c == 123 || (isAlpha c && !isWordByte (src.byte (i + 2)) &&
      !isBlankByte (src.byte (i + 2)))
  else if b == 60 then (heredoc? src i).isSome
  else false

/-- An argument without parentheses starts here. -/
def commandStart : Part :=
  .check fun src p =>
    let q := (blanks src p).2
    q.row == p.row && p.pos < q.pos && startsArgument src q.pos

/-- Arguments without parentheses. -/
def commandArguments : Part :=
  .node "argument_list" (seqs [commandStart, sepBy1 (text ",") (.call (.argument .exposed))])

/-! ## Calls -/

/-- The rest of the body of a definition or block, after its statements. -/
def bodyRest : Part :=
  let caught := opt (.seq onLine (.node "exceptions"
    (sepBy1 (text ",") (.call (.argument .exposed)))))
  seqs [
    .many (.node "rescue" (seqs [text "rescue", caught,
      opt (.seq (text "=>") (.role "variable" (.call (.primary .exposed)))), opt (text "then"),
      .call .statements])),
    opt (.node "else" (.seq (text "else") (.call .statements))),
    opt (.node "ensure" (.seq (text "ensure") (.call .statements)))]

/-- A body up to its `end`. -/
def body : Part :=
  seqs [.node "body_statement" (.seq (.call .statements) bodyRest), text "end"]

/-- The parameters of a block. -/
def blockParameters : Part :=
  opt (.role "parameters" (.node "block_parameters" (seqs [joinedBy "|",
    listed (.call .parameter), opt (.seq (text ";") (listed identifier)), text "|"])))

/-- A block between braces. -/
def braceBlock : Part :=
  .node "block" (seqs [joinedBy "\x7b", blockParameters,
    .role "body" (.node "block_body" (.call .statements)), text "\x7d"])

/-- A block between `do` and `end`. -/
def doBlock : Part :=
  .node "do_block" (seqs [joinedBy "do", blockParameters, body])

/-- The blocks that a call may take at that spot. -/
def blockAt (spot : Spot) : Part :=
  .role "block" (if spot = .exposed then braceBlock else braceBlock <|> doBlock)

/-- `callTail spot` is what may follow the name of a method that is called: arguments, a block, or
both. -/
def callTail (spot : Spot) : Part :=
  choice [
    .seq (.role "arguments" arguments) (opt (blockAt spot)),
    .seq (.role "arguments" (.call .commandArguments))
      (if spot = .exposed then .empty else opt (.role "block" doBlock)),
    blockAt spot]

/-- A name, or a call of the method of that name. -/
def nameOrCall (spot : Spot) : Part :=
  choice [
    .node "call" (.seq (.role "method" (named "identifier" questioned?)) (opt (callTail spot))),
    .lead (choice [constant, identifier, keywordNode "super"]) (choice [
      .node "call" (.seq (.role "method" .left) (callTail spot)),
      .left])]

/-- A value with the steps that lead on from it. -/
def primary (spot : Spot) : Part :=
  let operator := .role "operator" (choice [textUnless "." ".", text "&.", tight "::"])
  .grow (.call (.operand spot)) (choice [
    .node "element_reference" (seqs [.role "object" .left, tight "[",
      listed (.call (.argument .enclosed)), text "]"]),
    .node "scope_resolution" (seqs [.role "scope" .left, tight "::", .role "name" constant,
      .absent (tight "(")]),
    .node "call" (seqs [.role "receiver" .left, operator, .role "method" methodName,
      opt (callTail spot)]),
    .node "call" (seqs [.role "receiver" .left, operator, .role "arguments" arguments])])

/-! ## Operands -/

/-- The rest of a statement with branches. -/
def branches : Part :=
  seqs [
    .node "then" (.seq (opt (text "then")) (.call .statements)),
    .many (.node "elsif" (seqs [text "elsif", .role "condition" (.call (.joined .enclosed)),
      .node "then" (.seq (opt (text "then")) (.call .statements))])),
    opt (.node "else" (.seq (text "else") (.call .statements))),
    text "end"]

/-- A choice between cases. -/
def cases : Part :=
  let outcome := .node "then" (.seq (opt (text "then")) (.call .statements))
  let rest := .seq (opt (.node "else" (.seq (text "else") (.call .statements)))) (text "end")
  let guard := opt (.node "guard" (.seq (joinedBy "if" <|> joinedBy "unless")
    (.call (.joined .enclosed))))
  .lead (seqs [text "case", opt (.role "value" (.call .statement)), .many (text ";")]) (choice [
    .node "case" (seqs [.left,
      many1 (.node "when" (seqs [text "when",
        sepBy1 (text ",") (.node "pattern" (.call (.argument .exposed))), outcome])),
      rest]),
    .node "case_match" (seqs [.left,
      many1 (.node "in_clause" (seqs [text "in", .role "pattern" (listed (.call .pattern)), guard,
        outcome])),
      rest])])

/-- The name of a class or module, with what it lies in. -/
def path : Part :=
  .grow (choice [
      .node "scope_resolution" (seqs [text "::", .role "name" constant]),
      constant, keywordNode "self", identifier])
    (.node "scope_resolution" (seqs [.role "scope" .left, tight "::", .role "name" constant]))

/-- The definition of a class or a module. -/
def container : Part :=
  choice [
    .node "singleton_class" (seqs [text "class", text "<<", .role "value" (.call (.expression
      .enclosed)), body]),
    .node "class" (seqs [text "class", .role "name" path,
      opt (.role "superclass" (.node "superclass" (seqs [joinedBy "<",
        .call (.expression .enclosed)]))), body]),
    .node "module" (seqs [text "module", .role "name" path, body])]

/-- The definition of a method. -/
def method : Part :=
  let name := choice [.node "setter" (named "setter" setter?), methodName]
  let parameters := opt (.role "parameters" (.node "method_parameters" (choice [
    seqs [text "(", listed (.call .parameter), text ")"],
    .seq onLine (sepBy1 (text ",") (.call .parameter))])))
  let rest := seqs [.role "name" name, parameters, choice [
    .seq (.seq onLine (textUnless "=" "=~>")) (.role "body" (.call .statement)),
    body]]
  choice [
    .node "singleton_method" (seqs [text "def",
      .role "object" (choice [keywordNode "self", constant, identifier]), tight ".", rest]),
    .node "method" (.seq (text "def") rest)]

/-- A function without a name. -/
def lambda : Part :=
  let parameters := opt (.role "parameters" (.node "lambda_parameters" (choice [
    seqs [text "(", listed (.call .parameter), text ")"],
    .seq onLine (sepBy1 (text ",") (.call .parameter))])))
  .node "lambda" (seqs [text "->", parameters, .role "body" (braceBlock <|> doBlock)])

/-- A loop. -/
def loops : Part :=
  let repeated := .node "do" (seqs [opt (text "do"), .call .statements, text "end"])
  let condition := .role "condition" (.call (.joined .exposed))
  choice [
    .node "while" (seqs [text "while", condition, repeated]),
    .node "until" (seqs [text "until", condition, repeated]),
    .node "for" (seqs [text "for", .role "pattern" (sepBy1 (text ",") (.call .parameter)),
      .node "in" (.seq (text "in") (.call (.expression .exposed))), repeated])]

/-- What leads out of the method or loop around it, or back to its start. -/
def jumps : Part :=
  let jump (word : String) : Part :=
    .node word (.seq (text word) (opt (choice [arguments, .call .commandArguments])))
  choice (["return", "break", "next", "yield", "redo", "retry"].map jump)

/-- An expression without operators around it. -/
def operand (spot : Spot) : Part :=
  let condition := .role "condition" (.call (.joined .enclosed))
  let hash := .node "hash" (seqs [text "\x7b",
    listed (spread "hash_splat_argument" "**" .enclosed <|> pairOr .enclosed .fail), text "\x7d"])
  choice [
    .seq (next fun src i => isAlpha (src.byte i)) (choice [
      .node "if" (seqs [text "if", condition, branches]),
      .node "unless" (seqs [text "unless", condition, branches]),
      .node "begin" (seqs [text "begin", .call .statements, bodyRest, text "end"]),
      cases, container, method, loops, jumps,
      keywordNode "self"]),
    nameOrCall spot,
    lambda, literal, hash, sigiled,
    .node "array" (seqs [text "[", listed (.call (.argument .enclosed)), text "]"]),
    .node "parenthesized_statements" (seqs [text "(", .call .statements, text ")"]),
    .node "scope_resolution" (seqs [text "::", .role "name" constant])]

/-! ## Operators -/

/-- An expression that may start with an operator. -/
def unary (spot : Spot) : Part :=
  let operator := choice [textUnless "-" ">", text "!", text "~", text "+"]
  choice [
    .node "unary" (.seq (.role "operator" operator) (.role "operand" (.call (.unary spot)))),
    .node "unary" (.seq (.role "operator" (text "defined?"))
      (.role "operand" (.call (.unary spot)))),
    .lead (.call (.primary spot)) (choice [
      .node "binary" (seqs [.role "left" .left, onLine, .role "operator" (textUnless "**" "="),
        .role "right" (.call (.unary spot))]),
      .left])]

/-- The operators of each level of precedence, the weakest first; ranges are weaker. -/
def levels : List (List Part) := [
  [textUnless "||" "="],
  [textUnless "&&" "="],
  [text "<=>", text "===", text "==", text "!=", text "=~", text "!~"],
  [text "<=", text ">=", textUnless "<" "<", textUnless ">" ">"],
  [textUnless "|" "|=", textUnless "^" "="],
  [textUnless "&" "&=."],
  [textUnless "<<" "=", textUnless ">>" "="],
  [textUnless "+" "=", textUnless "-" "=>"],
  [textUnless "*" "=*", textUnless "/" "=", textUnless "%" "="]]

/-- An expression whose operators have at least that level. -/
def binary (spot : Spot) (level : Nat) : Part :=
  let higher := .call (.binary spot (level + 1))
  match level with
  | 0 =>
    .lead higher (choice [
      .node "range" (seqs [.left, onLine, text "..." <|> text "..", opt (.seq onLine higher)]),
      .left])
  | level + 1 =>
    match levels[level]? with
    | none => .call (.unary spot)
    | some spellings =>
      .grow higher (.node "binary" (seqs [.role "left" .left, onLine,
        .role "operator" (choice spellings), .role "right" higher]))

/-- Places to assign to, when there are several. -/
def target : Part :=
  choice [
    .node "rest_assignment" (.seq (text "*") (opt (.call (.primary .exposed)))),
    .call (.primary .exposed)]

/-- An expression, perhaps an assignment. -/
def expression (spot : Spot) : Part :=
  let value := .call (.expression spot)
  let more := .seq (text ",") (choice [spread "splat_argument" "*" spot, value])
  let source := .role "right" (choice [
    .node "right_assignment_list" (.seq (spread "splat_argument" "*" spot) (.many more)),
    .lead value (choice [
      if spot = .statement then .node "right_assignment_list" (.seq .left (many1 more)) else .fail,
      .node "rescue_modifier" (seqs [.role "body" .left, joinedBy "rescue",
        .role "handler" value]),
      .left])])
  let assign := .seq onLine (textUnless "=" "=~>")
  let changes := ["||=", "&&=", "+=", "-=", "**=", "*=", "/=", "%=", "<<=", ">>=", "|=", "&=",
    "^="].map text
  let several := .node "assignment" (seqs [
    .role "left" (.node "left_assignment_list" (.seq .left (many1 (.seq (joinedBy ",") target)))),
    assign, source])
  choice [
    .node "unary" (.seq (.role "operator" (text "not")) (.role "operand" value)),
    if spot = .statement then
      .node "assignment" (seqs [
        .role "left" (.node "left_assignment_list" (.seq
          (.node "rest_assignment" (.seq (text "*") (.call (.primary .exposed))))
          (.many (.seq (joinedBy ",") target)))),
        assign, source])
    else .fail,
    .lead (.call (.binary spot 0)) (choice [
      .node "conditional" (seqs [.role "condition" .left, onLine, text "?",
        .role "consequence" (.call (.expression .enclosed)), text ":",
        .role "alternative" value]),
      .node "assignment" (seqs [.role "left" .left, assign, source]),
      .node "operator_assignment" (seqs [.role "left" .left, onLine,
        .role "operator" (choice changes), source]),
      if spot = .statement then several else .fail,
      .left])]

/-- Expressions joined by words. -/
def joined (spot : Spot) : Part :=
  let next := .call (.expression spot)
  .grow next (choice [
    .node "binary" (seqs [.role "left" .left, onLine, .role "operator" (text "and" <|> text "or"),
      .role "right" next])])

/-! ## Statements -/

/-- A parameter of a method or block. -/
def parameter : Part :=
  let value := .role "value" (.call (.binary .exposed 6))
  choice [
    .node "destructured_parameter" (seqs [text "(", listed (.call .parameter), text ")"]),
    .node "hash_splat_parameter" (.seq (text "**") (opt (identifier <|> keywordNode "nil"))),
    .node "splat_parameter" (.seq (text "*") (opt identifier)),
    .node "block_parameter" (.seq (text "&") (opt identifier)),
    .node "forward_parameter" (text "..."),
    .node "keyword_parameter" (seqs [.role "name" (named "identifier" label?), byteToken 58,
      opt (.seq onLine value)]),
    .node "optional_parameter" (seqs [.role "name" identifier, textUnless "=" "=", value]),
    identifier]

/-- A pattern of a case. -/
def pattern : Part :=
  let inner := .call .pattern
  let label := .node "keyword_pattern" (seqs [.role "key" (named "hash_key_symbol" label?),
    byteToken 58, opt (.seq onLine inner)])
  let rest := choice [
    .node "hash_splat_parameter" (.seq (text "**") (opt (identifier <|> keywordNode "nil"))),
    .node "splat_parameter" (.seq (text "*") (opt identifier))]
  let parts := listed (choice [rest, label, inner])
  let simple := .lead (choice [number, strings, symbol]) (choice [
    .node "range" (seqs [.left, text "..." <|> text "..", opt (choice [number, strings])]),
    .left])
  let atom := choice [
    .node "hash_pattern" (seqs [text "\x7b", parts, text "\x7d"]),
    .node "array_pattern" (seqs [text "[", parts, text "]"]),
    .node "variable_reference_pattern" (.seq (text "^") (identifier <|> sigiled)),
    .node "parenthesized_pattern" (seqs [text "(", inner, text ")"]),
    simple, literal, rest, label,
    .lead path (choice [
      .node "hash_pattern" (seqs [.role "class" .left, tight "(", parts, text ")"]),
      .node "array_pattern" (seqs [.role "class" .left, tight "[", parts, text "]"]),
      .left])]
  .lead (sepBy1 (text "|") atom) (choice [
    .node "as_pattern" (seqs [.left, text "=>", identifier]),
    .left])

/-- A statement, with the conditions after it. -/
def statement : Part :=
  let condition := .role "condition" (.call (.joined .enclosed))
  let modifier (word : String) : Part :=
    .node (word ++ "_modifier") (seqs [.role "body" .left, joinedBy word, condition])
  let name := choice [named "identifier" methodName', symbol, sigiled]
  .grow
    (choice [
      .node "alias" (seqs [text "alias", name, name]),
      .node "undef" (.seq (text "undef") (sepBy1 (text ",") name)),
      .node "begin_block" (seqs [text "BEGIN", text "\x7b", .call .statements, text "\x7d"]),
      .node "end_block" (seqs [text "END", text "\x7b", .call .statements, text "\x7d"]),
      .call (.joined .statement)])
    (choice [
      modifier "if", modifier "unless", modifier "while", modifier "until", modifier "rescue",
      .node "test_pattern" (seqs [.left, joinedBy "in", listed (.call .pattern)]),
      .node "match_pattern" (seqs [.left, joinedBy "=>", listed (.call .pattern)])])
where
  /-- The name of a method, with or without a mark. -/
  methodName' (src : Source) (i : Nat) : Option Nat :=
    (setter? src i).or (methodName? src i)

/-- Nothing, except where the rest of the file is no program text. -/
def programGoesOn : Part :=
  .check fun src p =>
    let q := (blanks src p).2
    !(lineStart src q.pos = q.pos && src.slice q.pos (lineEnd src q.pos) = "__END__")

/-- `part symbol` is the rule of a symbol. -/
def part : Symbol → Part
  | .expression spot => expression spot
  | .binary spot level => binary spot level
  | .unary spot => unary spot
  | .primary spot => primary spot
  | .operand spot => operand spot
  | .argument spot => argument spot
  | .commandArguments => commandArguments
  | .inside opening closing embedding => inside opening closing embedding
  | .joined spot => joined spot
  | .statement => statement
  | .statements => .many (.seq programGoesOn (text ";" <|> .call .statement))
  | .parameter => parameter
  | .pattern => pattern

/-- The grammar of Ruby. -/
def grammar : Grammar Symbol Pending := ⟨part, blanks⟩

/-- What cannot be read as a statement: one token or word of it. -/
def unreadable : Part :=
  .node "ERROR" (named "ERROR" fun src i =>
    if i ≥ src.size then none
    else
      let stop := wordEnd src (src.size - i) i
      some (if stop = i then i + 1 else stop))

/-- `embeddedIn src fuel p stop` lists the values embedded in a text from `p` up to `stop`. -/
def embeddedIn (src : Source) : (fuel : Nat) → Place Pending → (stop : Nat) → List Node
  | 0, _, _ => []
  | fuel + 1, p, stop =>
    if p.pos ≥ stop then []
    else
      let next (count : Nat) := embeddedIn src fuel (p.advance src (p.pos + count)) stop
      if src.byte p.pos == 92 then next 2
      else if !embeds src p.pos then next 1
      else match grammar.run src (Grammar.depthFor src) interpolation [] p with
        | none => next 1
        | some (nodes, q) => nodes ++ embeddedIn src fuel q stop

mutual
/-- `withEmbedded src n` is `n` with the values that are embedded in the texts that follow on lines
of their own. -/
def withEmbedded (src : Source) : Node → Node
  | .mk head children =>
    if head.kind = "heredoc_body" && children.isEmpty then
      .mk head (embeddedIn src (head.stop - head.start) ⟨head.start, head.row, []⟩ head.stop)
    else .mk head (withEmbeddedAll src children)

/-- `withEmbeddedAll src nodes` does so for each of `nodes`. -/
def withEmbeddedAll (src : Source) : List Node → List Node
  | [] => []
  | n :: rest => withEmbedded src n :: withEmbeddedAll src rest
end

/-- `read src` is the syntax tree of the Ruby file `src`. -/
def read (src : Source) : Node :=
  withEmbedded src (grammar.read "program"
    (.many (.seq programGoesOn (choice [text ";", .call .statement, unreadable]))) [] src)

end TrackingPlan.Ruby
