import TrackingPlan.Grammar.Token

/-!
# The grammar of scripts

JavaScript, with markup, and TypeScript, with or without markup. The dialects share their
expressions and statements; a typed one adds types, and takes markup only in files that say so.
-/

namespace TrackingPlan.Script

open Rule Token

/-- A variant of the language. -/
structure Dialect where
  /-- Types may be written. -/
  typed : Bool
  /-- Markup elements are expressions. -/
  markup : Bool
deriving DecidableEq, Repr

/-- The variant of JavaScript files. -/
def Dialect.javaScript : Dialect := ⟨false, true⟩

/-- The variant of TypeScript files without markup. -/
def Dialect.typeScript : Dialect := ⟨true, false⟩

/-- The variant of TypeScript files with markup. -/
def Dialect.typeScriptMarkup : Dialect := ⟨true, true⟩

/-- The symbols that rules refer to. -/
inductive Symbol where
  | statement
  | block
  | declaration
  | expressions
  | assignment
  | ternary
  | binary (level : Nat)
  | unary
  | chain
  | constructed
  | primary
  | pattern
  | propertyName
  | parameters
  | arguments
  | classBody
  | decorator
  | objectLiteral
  | template
  | type
  | unionType
  | intersectionType
  | prefixType
  | postfixType
  | primaryType
  | typeArguments
  | typeParameters
  | objectType
  | element
deriving Repr

/-- The rules of scripts have no reading state. -/
abbrev Part := Rule Symbol Unit

/-! ## Blanks -/

/-- The end of a statement: a semicolon, or a place where none is needed. -/
def semicolon : Part :=
  text ";" <|>
    .check fun src p =>
      let q := (slashBlanks src p).2
      q.row != p.row || q.pos ≥ src.size || src.byte q.pos == 125

/-- `lineComments src row comments` lists the first of `comments` up to the end of the line `row`,
or of the line on which the comment before ends. -/
def lineComments (src : Source) : (row : Nat) → List Node → List Node
  | _, [] => []
  | row, c :: rest =>
    if c.head.row == row then c :: lineComments src (row + src.breaks c.start c.stop) rest else []

/-- The first bytes of a line that go on with the line before. -/
def continuations : List UInt8 := "`,.;*%><=?^|&/:([".toUTF8.toList

/-- The end of a block, where a semicolon may be missing. The comments on its last line belong to a
typed block if one is missing behind them; before a comment itself none is. -/
def blockEnd (d : Dialect) : Part :=
  if d.typed then
    .scan fun src p =>
      let (comments, q) := slashBlanks src p
      match lineComments src p.row comments with
      | [] => some ([], p)
      | c :: rest =>
        let after := p.advance src ((rest.getLast?.getD c).stop)
        let isEnd := q.pos ≥ src.size || src.byte q.pos == 125 ||
          (q.row != after.row && !continuations.contains (src.byte q.pos))
        some (if isEnd then (c :: rest, after) else ([], p))
  else .empty

/-! ## Names and literals -/

/-- The words that are no names. -/
def reserved : List String :=
  ["break", "case", "catch", "class", "const", "continue", "debugger", "default", "delete", "do",
    "else", "enum", "export", "extends", "false", "finally", "for", "function", "if", "import",
    "in", "instanceof", "new", "null", "return", "super", "switch", "this", "throw", "true", "try",
    "typeof", "var", "void", "while", "with"]

/-- `nameEnd src fuel i` is the end of the run of name characters and escapes at `i`. -/
def nameEnd (src : Source) : (fuel i : Nat) → Nat
  | 0, i => i
  | fuel + 1, i =>
    if isScriptByte (src.byte i) && wideBlank src i == 0 && i < src.size then
      nameEnd src fuel (i + 1)
    else if src.startsWith i "\\u\x7b" then
      nameEnd src fuel (offsetOf src (· == 125) i + 1)
    else if src.startsWith i "\\u" then nameEnd src fuel (i + 6)
    else i

/-- `anyName? src i` reads a name that may be a reserved word. -/
def anyName? (src : Source) (i : Nat) : Option Nat :=
  if isDigit (src.byte i) then none
  else
    let stop := nameEnd src (src.size - i) i
    if stop = i then none else some stop

/-- `plainName? src i` reads a name that is no reserved word. -/
def plainName? (src : Source) (i : Nat) : Option Nat :=
  match anyName? src i with
  | none => none
  | some stop => if reserved.contains (src.slice i stop) then none else some stop

/-- A name in any role. -/
def identifier : Part := named "identifier" plainName?

/-- A name or the word for the undefined value, in an expression. -/
def identifierOrUndefined : Part := keywordNode "undefined" <|> identifier

/-- A name of a type. -/
def typeName : Part := named "type_identifier" plainName?

/-- `numberEnd src fuel i` is the end of the digits, letters, points and signed exponents at `i`. -/
def numberEnd (src : Source) (hex : Bool) : (fuel i : Nat) → Nat
  | 0, i => i
  | fuel + 1, i =>
    let b := src.byte i
    if isDigit b || isAlpha b || b == 95 || (b == 46 && !hex) then
      let signed := (b == 101 || b == 69) && !hex &&
        (src.byte (i + 1) == 43 || src.byte (i + 1) == 45)
      numberEnd src hex fuel (if signed then i + 2 else i + 1)
    else i

/-- `number? src i` reads a number. -/
def number? (src : Source) (i : Nat) : Option Nat :=
  let b := src.byte i
  if isDigit b || (b == 46 && isDigit (src.byte (i + 1))) then
    let c := src.byte (i + 1)
    let hex := b == 48 && (c == 120 || c == 88 || c == 98 || c == 66 || c == 111 || c == 79)
    some (numberEnd src hex (src.size - i) i)
  else none

/-- `escapeEnd src i` is the end of the escape sequence at `i`. -/
def escapeEnd (src : Source) (i : Nat) : Nat :=
  let c := src.byte (i + 1)
  if c == 117 && src.byte (i + 2) == 123 then offsetOf src (· == 125) i + 1
  else if c == 117 then i + 6
  else if c == 120 then i + 4
  else if c == 13 && src.byte (i + 2) == 10 then i + 3
  else src.skipWhile (i + 2) (fun b => 128 ≤ b && b < 192)

/-- An escape sequence in a text. -/
def escape : Part :=
  tightNamed "escape_sequence" fun src i =>
    if src.byte i == 92 && i + 1 < src.size then some (escapeEnd src i) else none

/-- `fragment stops` is a run of plain characters in a text. -/
def fragment (stops : UInt8 → Bool) : Part :=
  tightNamed "string_fragment" fun src i =>
    let stop := offsetOf src (fun b => stops b || b == 92) i
    if stop = i then none else some stop

/-- `quotedBy mark` is a text between two marks. -/
def quotedBy (mark : String) (byte : UInt8) : Part :=
  .node "string" (seqs [text mark,
    .many (fragment (fun b => b == byte || b == 10) <|> escape), tight mark])

/-- A text between quotes. -/
def string : Part := quotedBy "\"" 34 <|> quotedBy "'" 39

/-- `regexEnd src fuel inClass i` is the offset after the slash that closes a regular expression. -/
def regexEnd (src : Source) : (fuel : Nat) → (inClass : Bool) → (i : Nat) → Option Nat
  | 0, _, _ => none
  | fuel + 1, inClass, i =>
    let b := src.byte i
    if i ≥ src.size || b == 10 then none
    else if b == 92 then regexEnd src fuel inClass (i + 2)
    else if b == 91 then regexEnd src fuel true (i + 1)
    else if b == 93 then regexEnd src fuel false (i + 1)
    else if b == 47 && !inClass then some i
    else regexEnd src fuel inClass (i + 1)

/-- A regular expression. -/
def regex : Part :=
  .node "regex" (seqs [textUnless "/" "*/",
    .role "pattern" (tightNamed "regex_pattern" fun src i => regexEnd src (src.size - i) false i),
    tight "/",
    opt (.role "flags" (tightNamed "regex_flags" fun src i =>
      let stop := src.skipWhile i isLower
      if stop = i then none else some stop))])

/-- A template without the function that it may be passed to. -/
def template : Part :=
  .node "template_string" (seqs [text "`",
    .many (choice [
      .node "template_substitution" (seqs [tight "$\x7b", .call .expressions, text "\x7d"]),
      tightNamed "string_fragment" fun src i =>
        let stop := offsetOf src (fun b => b == 96 || b == 92 || b == 36) i
        if stop = i then
          if src.byte i == 36 && src.byte (i + 1) != 123 then some (i + 1) else none
        else some stop,
      escape]),
    tight "`"])

/-! ## Expressions -/

/-- `when condition part` is `part` in the dialects that have it. -/
def when (condition : Bool) (part : Part) : Part := if condition then part else .fail

/-- `maybe condition part` is `part`, or nothing, in the dialects that have it. -/
def maybe (condition : Bool) (part : Part) : Part := if condition then opt part else .empty

/-- The type after a colon. -/
def typeAnnotation : Part := .node "type_annotation" (seqs [text ":", .call .type])

/-- The type of a result after a colon. -/
def returnType : Part :=
  choice [
    .node "asserts_annotation" (seqs [text ":", .node "asserts" (seqs [text "asserts", sameLine,
      choice [
        .node "type_predicate" (seqs [
          .role "name" (identifier <|> keywordNode "this"), text "is",
          .role "type" (.call .type)]),
        identifier, keywordNode "this"]])]),
    .node "type_predicate_annotation" (seqs [text ":", .node "type_predicate" (seqs [
      .role "name" (identifier <|> keywordNode "this"), sameLine, text "is",
      .role "type" (.call .type)])]),
    typeAnnotation]

/-- The parameters of a function with what may stand around them. -/
def callSignature (d : Dialect) : Part :=
  seqs [maybe d.typed (.role "type_parameters" (.call .typeParameters)),
    .role "parameters" (.call .parameters),
    maybe d.typed (.role "return_type" returnType)]

/-- The value after an equals sign. -/
def initializer : Part := seqs [textUnless "=" "=>", .role "value" (.call .assignment)]

/-- A function written as an expression. -/
def functionExpression (d : Dialect) : Part :=
  let start := seqs [opt (seqs [text "async", sameLine]), text "function"]
  choice [
    .node "generator_function" (seqs [start, text "*", opt (.role "name" identifier),
      callSignature d, .role "body" (.call .block)]),
    .node "function_expression" (seqs [start, opt (.role "name" identifier), callSignature d,
      .role "body" (.call .block)])]

/-- A function written with an arrow. -/
def arrowFunction (d : Dialect) : Part :=
  let body := .role "body" (.call .block <|> .call .assignment)
  let async := seqs [text "async", sameLine]
  choice [
    .node "arrow_function" (seqs [async, .role "parameter" identifier, sameLine, text "=>", body]),
    .node "arrow_function" (seqs [.role "parameter" identifier, sameLine, text "=>", body]),
    .node "arrow_function" (seqs [opt async, callSignature d, text "=>", body])]

/-- The items of a call or an array, with gaps. -/
def items : Part :=
  let item := .node "spread_element" (seqs [text "...", .call .assignment]) <|> .call .assignment
  seqs [opt item, .many (seqs [text ",", opt item])]

/-- The expression between parentheses. -/
def parenthesized (d : Dialect) : Part :=
  .node "parenthesized_expression" (seqs [text "(", .call .expressions,
    maybe d.typed (.role "type" typeAnnotation), text ")"])

/-- A class written as an expression or a declaration. -/
def classRest (d : Dialect) : Part :=
  seqs [maybe d.typed (.role "type_parameters" (.call .typeParameters)),
    if d.typed then
      opt (.node "class_heritage" (choice [
        seqs [
          .node "extends_clause" (seqs [text "extends", sepBy1 (text ",") (seqs [
            .role "value" (.call .chain),
            opt (.role "type_arguments" (.call .typeArguments))])]),
          opt (.node "implements_clause" (seqs [text "implements",
            sepBy1 (text ",") (.call .type)]))],
        .node "implements_clause" (seqs [text "implements", sepBy1 (text ",") (.call .type)])]))
    else opt (.node "class_heritage" (seqs [text "extends", .call .chain])),
    .role "body" (.call .classBody)]

/-- A name that only the class itself can use. -/
def privateName : Part :=
  named "private_property_identifier" fun src i =>
    if src.byte i == 35 then anyName? src (i + 1) else none

/-- A name after a full stop. -/
def memberName : Part :=
  .role "property" (privateName <|> named "property_identifier" anyName?)

/-- The mark of an optional step. -/
def optionalChain : Part :=
  .role "optional_chain" (.node "optional_chain" (.lexeme false false "?." fun src i =>
    if src.startsWith i "?." && !isDigit (src.byte (i + 2)) then some (i + 2) else none))

/-- Access to a member, by name or by index. -/
def memberSteps : List Part := [
  .node "member_expression" (seqs [.role "object" .left,
    choice [optionalChain, textUnless "." "."], memberName]),
  .node "subscript_expression" (seqs [.role "object" .left, opt optionalChain, text "[",
    .role "index" (.call .expressions), text "]"])]

/-- The steps that lead from a value to another. -/
def chainSteps (d : Dialect) : List Part :=
  memberSteps ++ [
    when d.typed (.node "non_null_expression" (seqs [.left, sameLine, textUnless "!" "="])),
    .node "call_expression" (seqs [.role "function" .left,
      .role "arguments" (.call .arguments)]),
    .node "call_expression" (seqs [.role "function" .left,
      .role "arguments" (.call .template)]),
    .node "call_expression" (seqs [.role "function" .left, optionalChain,
      maybe d.typed (.role "type_arguments" (.call .typeArguments)),
      .role "arguments" (.call .arguments)]),
    when d.typed (.node "call_expression" (seqs [.role "function" .left,
      .role "type_arguments" (.call .typeArguments),
      .role "arguments" (.call .arguments <|> .call .template)])),
    when d.typed (.node "instantiation_expression" (seqs [.left,
      .role "type_arguments" (.call .typeArguments),
      .check fun src p =>
        let q := (slashBlanks src p).2
        let b := src.byte q.pos
        q.row != p.row || b == 0 || b == 59 || b == 44 || b == 41 || b == 93 || b == 125 ||
          b == 58 || b == 46]))]

/-- The operators of each level of precedence, the weakest first. -/
def operators : List (List (Rule Symbol Unit)) := [
  [textUnless "??" "="],
  [textUnless "||" "="],
  [textUnless "&&" "="],
  [textUnless "|" "|="],
  [textUnless "^" "="],
  [textUnless "&" "&="],
  [text "===", text "!==", text "==", text "!="],
  [textUnless "<=" "", textUnless "<" "<=", textUnless ">=" "", textUnless ">" ">=",
    text "instanceof", text "in"],
  [textUnless "<<" "=", textUnless ">>>" "=", textUnless ">>" ">="],
  [textUnless "+" "+=", textUnless "-" "-="],
  [textUnless "*" "*=", textUnless "/" "=/*", textUnless "%" "="]]

/-- The number of the level of relations. -/
def relationLevel : Nat := 7

/-- `binary d level` is an expression whose operators have at least that level. -/
def binary (d : Dialect) (level : Nat) : Part :=
  match operators[level]? with
  | none =>
    .grow (.call .unary) (.node "binary_expression" (seqs [.role "left" .left,
      .role "operator" (textUnless "**" "="), .role "right" (.call (.binary level))]))
  | some spellings =>
    let next := .call (.binary (level + 1))
    let plain := .node "binary_expression" (seqs [.role "left" .left,
      .role "operator" (choice spellings), .role "right" next])
    let membership := .lead (.role "left" privateName) (.node "binary_expression" (seqs [.left,
      .role "operator" (text "in"), .role "right" next]))
    let first := if level == relationLevel then membership <|> next else next
    if level == relationLevel && d.typed then
      .grow first (choice [plain,
        .node "as_expression" (seqs [.left, sameLine, text "as",
          text "const" <|> .call .type]),
        .node "satisfies_expression" (seqs [.left, sameLine, text "satisfies", .call .type])])
    else .grow first plain

/-- An expression that starts with an operator, or is followed by one of its own. -/
def unary (d : Dialect) : Part :=
  let prefixed (kind : String) (spellings : List Part) :=
    .node kind (seqs [.role "operator" (choice spellings), .role "argument" (.call .unary)])
  choice [
    prefixed "update_expression" [text "++", text "--"],
    prefixed "unary_expression" [text "!", text "~", text "-", text "+", text "typeof", text "void",
      text "delete"],
    .node "await_expression" (seqs [text "await", .call .unary]),
    when (d.typed && !d.markup)
      (.node "type_assertion" (seqs [.call .typeArguments, .call .unary])),
    .grow (.call .chain) (.node "update_expression" (seqs [.role "argument" .left, sameLine,
      .role "operator" (text "++" <|> text "--")]))]

/-- An object written out. -/
def objectLiteral (d : Dialect) : Part :=
  let member := choice [
    .node "pair" (seqs [.role "key" (.call .propertyName), text ":",
      .role "value" (.call .assignment)]),
    .node "spread_element" (seqs [text "...", .call .assignment]),
    .node "method_definition" (seqs [
      opt (seqs [text "async", .absent (nextByte fun b => b == 40)]),
      opt (choice [
        seqs [text "get", .absent (nextByte fun b => b == 40)],
        seqs [text "set", .absent (nextByte fun b => b == 40)], text "*"]),
      .role "name" (.call .propertyName), maybe d.typed (text "?"), callSignature d,
      .role "body" (.call .block)]),
    .node "object_assignment_pattern" (seqs [
      .role "left" (named "shorthand_property_identifier_pattern" plainName?),
      textUnless "=" "=>", .role "right" (.call .assignment)]),
    named "shorthand_property_identifier" anyName?]
  .node "object" (seqs [text "\x7b", opt member, .many (seqs [text ",", opt member]),
    text "\x7d"])

/-- An element of markup: its name. -/
def elementName : Part :=
  let simple := named "identifier" fun src i =>
    match anyName? src i with
    | none => none
    | some _ => some (src.skipWhile i fun b => isScriptByte b || b == 45)
  choice [
    seqs [.ahead (seqs [simple, text "."]),
      .grow simple (.node "member_expression" (seqs [.role "object" .left, text ".",
        .role "property" (.rename "property_identifier" simple)]))],
    .node "jsx_namespace_name" (seqs [simple, text ":", simple]),
    simple]

/-- An attribute of an element. -/
def markupAttribute : Part :=
  let expression := .node "jsx_expression" (seqs [text "\x7b",
    opt (.node "spread_element" (seqs [text "...", .call .assignment]) <|> .call .expressions),
    text "\x7d"])
  let markupText (mark : String) (byte : UInt8) : Part :=
    .node "string" (seqs [text mark,
      opt (tightNamed "string_fragment" fun src i =>
        let stop := offsetOf src (· == byte) i
        if stop = i then none else some stop), tight mark])
  choice [
    .node "jsx_attribute" (seqs [
      choice [
        .node "jsx_namespace_name" (seqs [.rename "identifier" elementName, text ":",
          .rename "identifier" elementName]),
        named "property_identifier" fun src i =>
          match anyName? src i with
          | none => none
          | some _ => some (src.skipWhile i fun b => isScriptByte b || b == 45)],
      opt (seqs [text "=",
        choice [markupText "\"" 34, markupText "'" 39, expression, .call .element]])]),
    expression]

/-- An element of markup. -/
def element : Part :=
  let child := choice [
    tightNamed "jsx_text" fun src i =>
      let stop := offsetOf src (fun b => b == 123 || b == 60 || b == 125 || b == 62) i
      if stop = i then none else some stop,
    .node "jsx_expression" (seqs [text "\x7b",
      opt (.node "spread_element" (seqs [text "...", .call .assignment]) <|> .call .expressions),
      text "\x7d"]),
    .seq (.absent (seqs [text "<", text "/"])) (.call .element)]
  choice [
    .node "jsx_self_closing_element" (seqs [text "<", .role "name" elementName,
      .many (.role "attribute" markupAttribute), text "/", text ">"]),
    .node "jsx_element" (seqs [
      .role "open_tag" (.node "jsx_opening_element" (seqs [text "<",
        opt (seqs [.role "name" elementName, .many (.role "attribute" markupAttribute)]),
        text ">"])),
      .many child,
      .role "close_tag" (.node "jsx_closing_element" (seqs [text "<", text "/",
        opt (.role "name" elementName), text ">"]))])]

/-- An expression without operators around it. -/
def primary (d : Dialect) : Part :=
  choice [
    parenthesized d,
    .call .objectLiteral,
    .node "array" (seqs [text "[", items, text "]"]),
    .call .template,
    string,
    named "number" number?,
    functionExpression d,
    .node "class" (seqs [.many (.role "decorator" (.call .decorator)), text "class",
      opt (.seq (.absent (text "extends" <|> text "implements"))
        (.role "name" (if d.typed then typeName else identifier))), classRest d]),
    regex,
    keywordNode "this", keywordNode "super", keywordNode "true", keywordNode "false",
    keywordNode "null",
    .node "meta_property" (seqs [text "new", text ".", text "target"]),
    .node "meta_property" (seqs [text "import", text ".", text "meta"]),
    .seq (keywordNode "import") (.ahead (text "(")),
    when d.markup (.call .element),
    identifierOrUndefined]

/-- The value that a new expression constructs from. -/
def constructed (d : Dialect) : Part :=
  choice [
    .node "new_expression" (seqs [text "new", .role "constructor" (.call .constructed),
      maybe d.typed (.role "type_arguments" (.call .typeArguments)),
      opt (.role "arguments" (.call .arguments))]),
    .grow (.call .primary) (choice (memberSteps ++
      [when d.typed (.node "non_null_expression" (seqs [.left, sameLine, textUnless "!" "="]))]))]

/-- A value with the steps that lead on from it. -/
def chain (d : Dialect) : Part :=
  .grow
    (choice [
      .seq (.absent (seqs [text "new", text "."]))
        (.node "new_expression" (seqs [text "new", .role "constructor" (.call .constructed),
          maybe d.typed (.role "type_arguments" (.call .typeArguments)),
          opt (.role "arguments" (.call .arguments))])),
      .call .primary])
    (choice (chainSteps d))

/-- A name in an object pattern. -/
def patternMember : Part :=
  let binding := .lead (.call .pattern) (choice [
    .node "assignment_pattern" (seqs [.role "left" .left, textUnless "=" "=>",
      .role "right" (.call .assignment)]),
    .left])
  choice [
    .node "pair_pattern" (seqs [.role "key" (.call .propertyName), text ":",
      .role "value" binding]),
    .node "rest_pattern" (seqs [text "...", .call .pattern]),
    .node "object_assignment_pattern" (seqs [
      .role "left" (named "shorthand_property_identifier_pattern" plainName?),
      textUnless "=" "=>", .role "right" (.call .assignment)]),
    named "shorthand_property_identifier_pattern" plainName?]

/-- A pattern that takes a value apart. -/
def destructuring : Part :=
  let item := choice [
    .node "rest_pattern" (seqs [text "...", .call .pattern]),
    .lead (.call .pattern) (choice [
      .node "assignment_pattern" (seqs [.role "left" .left, textUnless "=" "=>",
        .role "right" (.call .assignment)]),
      .left])]
  choice [
    .node "object_pattern" (seqs [text "\x7b", opt patternMember,
      .many (seqs [text ",", opt patternMember]), text "\x7d"]),
    .node "array_pattern" (seqs [text "[", opt item, .many (seqs [text ",", opt item]),
      text "]"])]

/-- A place that takes a value. -/
def pattern : Part :=
  choice [destructuring, .node "rest_pattern" (seqs [text "...", .call .pattern]),
    .seq
      (.grow identifierOrUndefined (choice memberSteps))
      (.absent (nextByte fun b => b == 40))]

/-- `quoteEnd src mark fuel i` is the offset after the mark that ends the quoted text at `i`. -/
def quoteEnd (src : Source) (mark : UInt8) : (fuel i : Nat) → Nat
  | 0, i => i
  | fuel + 1, i =>
    if i ≥ src.size then i
    else if src.byte i == 92 then quoteEnd src mark fuel (i + 2)
    else if src.byte i == mark then i + 1
    else quoteEnd src mark fuel (i + 1)

/-- `groupEnd? src fuel depth i` is the offset after the bracket that closes the outermost of
`depth` open ones. Quoted texts and comments are passed over. -/
def groupEnd? (src : Source) : (fuel depth i : Nat) → Option Nat
  | 0, _, _ => none
  | fuel + 1, depth, i =>
    let b := src.byte i
    if i ≥ src.size then none
    else if b == 34 || b == 39 || b == 96 then
      groupEnd? src fuel depth (quoteEnd src b (src.size - i) (i + 1))
    else if b == 47 && src.byte (i + 1) == 47 then groupEnd? src fuel depth (lineEnd src i)
    else if b == 47 && src.byte (i + 1) == 42 then
      (find? src "*/" (src.size - i) (i + 2)).bind fun stop => groupEnd? src fuel depth (stop + 2)
    else if b == 123 || b == 91 || b == 40 then groupEnd? src fuel (depth + 1) (i + 1)
    else if b == 125 || b == 93 || b == 41 then
      if depth ≤ 1 then some (i + 1) else groupEnd? src fuel (depth - 1) (i + 1)
    else groupEnd? src fuel depth (i + 1)

/-- An object or an array follows that a value is assigned to. -/
def takesApart : Part :=
  .check fun src p =>
    let i := (slashBlanks src p).2.pos
    (src.byte i == 123 || src.byte i == 91) &&
      match groupEnd? src (src.size - i + 1) 0 i with
      | none => false
      | some stop =>
        let j := (slashBlanks src { p with pos := stop }).2.pos
        src.byte j == 61 && src.byte (j + 1) != 61 && src.byte (j + 1) != 62

/-- The expression of one value: an assignment or anything that binds tighter. -/
def assignment (d : Dialect) : Part :=
  let augmented := choice (["+=", "-=", "*=", "/=", "%=", "^=", "&=", "|=", ">>=", ">>>=", "<<=",
    "**=", "&&=", "||=", "??="].map text)
  choice [
    arrowFunction d,
    .node "yield_expression" (seqs [text "yield",
      choice [seqs [text "*", .call .assignment],
        seqs [sameLine, .call .assignment],
        .check fun src p =>
          let q := (slashBlanks src p).2
          let b := src.byte q.pos
          q.row != p.row || b == 0 || b == 59 || b == 44 || b == 41 || b == 93 || b == 125 ||
            b == 58]]),
    .seq takesApart
      (.node "assignment_expression" (seqs [.role "left" destructuring, textUnless "=" "=>",
        .role "right" (.call .assignment)])),
    .grow (.call .ternary) (choice [
      .node "assignment_expression" (seqs [.role "left" .left, textUnless "=" "=>",
        .role "right" (.call .assignment)]),
      .node "augmented_assignment_expression" (seqs [.role "left" .left,
        .role "operator" augmented, .role "right" (.call .assignment)])])]

/-! ## Classes -/

/-- A word before a member that is not the name of the member. -/
def modifier (word : String) : Part :=
  seqs [text word, .absent (nextByte fun b =>
    b == 40 || b == 61 || b == 59 || b == 58 || b == 125 || b == 63 || b == 33 || b == 44 ||
      b == 60)]

/-- Who may use a member. -/
def accessibility : Part :=
  .node "accessibility_modifier" (choice (["public", "private", "protected"].map modifier))

/-- The modifiers before a member. -/
def memberModifiers (d : Dialect) : Part :=
  if d.typed then
    .many (choice [accessibility, .node "override_modifier" (modifier "override"),
      modifier "static", modifier "readonly", modifier "declare", modifier "abstract",
      modifier "accessor"])
  else opt (modifier "static")

/-- A body between braces after the members of a class. -/
def classBody (d : Dialect) : Part :=
  let methodHead := seqs [memberModifiers d, opt (modifier "async"),
    opt (choice [modifier "get", modifier "set", text "*"]),
    .role "name" (.call .propertyName), maybe d.typed (text "?"), callSignature d]
  let decorators := .many (.role "decorator" (.call .decorator))
  let method := seqs [
    .node "method_definition" (seqs [decorators, methodHead, .role "body" (.call .block)]),
    opt (text ";")]
  let block := .node "class_static_block" (seqs [text "static", .role "body" (.call .block)])
  let field := if d.typed then
      .node "public_field_definition" (seqs [decorators, memberModifiers d,
        .role "name" (.call .propertyName), opt (text "?" <|> text "!"),
        opt (.role "type" typeAnnotation), opt initializer])
    else
      .node "field_definition" (seqs [decorators, memberModifiers d,
        .role "property" (.call .propertyName), opt initializer])
  let index := .node "index_signature" (seqs [memberModifiers d, text "[",
    .role "name" identifier, text ":", .role "index_type" (.call .type), text "]",
    .role "type" typeAnnotation])
  let abstract := .node "abstract_method_signature" (seqs [.ahead (seqs [
    .many accessibility, text "abstract"]), methodHead])
  let signature := .node "method_signature" methodHead
  let typed := if d.typed then
      [seqs [index, semicolon <|> text ","], seqs [abstract, semicolon <|> text ","],
        seqs [signature, semicolon <|> text ","]]
    else []
  .node "class_body" (seqs [text "\x7b",
    .many (.role "member" (choice ([block, method] ++ typed ++
      [seqs [field, if d.typed then semicolon <|> text "," else semicolon], text ";"]))),
    text "\x7d"])

/-! ## Types -/

/-- The types that have a word of their own. -/
def predefined : Part :=
  .node "predefined_type" (choice [
    text "any", text "number", text "boolean", text "string", text "symbol",
    seqs [text "unique", text "symbol"], text "void", text "unknown", text "never", text "object"])

/-- The type of one value. -/
def literalType : Part :=
  .node "literal_type" (choice [
    .node "unary_expression" (seqs [.role "operator" (text "-" <|> text "+"),
      .role "argument" (named "number" number?)]),
    named "number" number?, string, keywordNode "true", keywordNode "false", keywordNode "null",
    keywordNode "undefined"])

/-- A member of an object type. -/
def typeMember (d : Dialect) : Part :=
  let methodHead := seqs [memberModifiers d, opt (modifier "async"),
    opt (choice [modifier "get", modifier "set", text "*"]),
    .role "name" (.call .propertyName), opt (text "?"), callSignature d]
  choice [
    .node "index_signature" (seqs [
      opt (seqs [opt (text "-" <|> text "+"), text "readonly"]), text "[",
      choice [
        .node "mapped_type_clause" (seqs [.role "name" typeName, text "in",
          .role "type" (.call .type),
          opt (seqs [text "as", .role "alias" (.call .type)])]),
        seqs [.role "name" identifier, text ":", .role "index_type" (.call .type)]],
      text "]", opt (seqs [opt (text "-" <|> text "+"), text "?"]),
      opt (.role "type" typeAnnotation)]),
    .node "construct_signature" (seqs [opt (text "abstract"), text "new",
      opt (.role "type_parameters" (.call .typeParameters)),
      .role "parameters" (.call .parameters), opt (.role "type" typeAnnotation)]),
    .node "call_signature" (callSignature d),
    .node "method_signature" methodHead,
    .node "property_signature" (seqs [memberModifiers d, .role "name" (.call .propertyName),
      opt (text "?"), opt (.role "type" typeAnnotation)]),
    .node "method_signature" methodHead]

/-- An object type. -/
def objectType (d : Dialect) : Part :=
  let separator := choice [text ",", text ";",
    .check fun src p =>
      let q := (slashBlanks src p).2
      q.row != p.row || src.byte q.pos == 125]
  .node "object_type" (seqs [text "\x7b", opt (text "," <|> text ";"),
    .many (seqs [typeMember d, separator, .many (text ";")]), text "\x7d"])

/-- A type without operators around it. -/
def primaryType : Part :=
  let tupleMember := choice [
    .node "tuple_parameter" (seqs [
      .role "name" (.node "rest_pattern" (seqs [text "...", identifier]) <|> identifier),
      .role "type" typeAnnotation]),
    .node "optional_tuple_parameter" (seqs [.role "name" identifier, text "?",
      .role "type" typeAnnotation]),
    .node "rest_type" (seqs [text "...", .call .type]),
    .lead (.call .type) (.node "optional_type" (seqs [.left, text "?"]) <|> .left)]
  let qualified := .grow identifier
    (.node "nested_identifier" (seqs [.role "object" .left, text ".",
      .role "property" (.rename "property_identifier" identifier),
      .ahead (text ".")]))
  let typeReference := choice [
    .node "nested_type_identifier" (seqs [.role "module" qualified, text ".",
      .role "name" typeName]),
    typeName]
  choice [
    .node "parenthesized_type" (seqs [text "(", .call .type, text ")"]),
    predefined,
    literalType,
    .node "template_literal_type" (seqs [text "`",
      .many (choice [
        .node "template_type" (seqs [tight "$\x7b", .call .type, text "\x7d"]),
        tightNamed "string_fragment" fun src i =>
          let stop := offsetOf src (fun b => b == 96 || b == 92 || b == 36) i
          if stop = i then
            if src.byte i == 36 && src.byte (i + 1) != 123 then some (i + 1) else none
          else some stop,
        escape]),
      tight "`"]),
    .call .objectType,
    .node "tuple_type" (seqs [text "[", opt tupleMember, .many (seqs [text ",", opt tupleMember]),
      text "]"]),
    .node "type_query" (seqs [text "typeof",
      choice [
        seqs [
          .grow
            (choice [
              .node "call_expression" (seqs [.role "function" (keywordNode "import"),
                .role "arguments" (.call .arguments)]),
              keywordNode "this", identifier])
            (choice [
              .node "member_expression" (seqs [.role "object" .left, text ".", memberName]),
              .node "subscript_expression" (seqs [.role "object" .left, sameLine, text "[",
                .role "index" (choice [string, named "number" number?, predefined]),
                text "]"])]),
          opt (.seq sameLine (.call .typeArguments))]]]),
    .rename "this_type" (keywordNode "this"),
    .node "nested_type_identifier" (seqs [.role "module" (.node "call_expression" (seqs [
        .role "function" (keywordNode "import"), .role "arguments" (.call .arguments)])),
      text ".", .role "name" typeName]),
    .grow typeReference (.node "generic_type" (seqs [.role "name" .left, sameLine,
      .ahead (nextByte (· == 60)), .role "type_arguments" (.call .typeArguments)]))]

/-- The types between angle brackets. -/
def typeArguments : Part :=
  .node "type_arguments" (seqs [textUnless "<" "<=", sepBy1 (text ",") (.call .type),
    opt (text ","), text ">"])

/-- The type parameters between angle brackets. -/
def typeParameters : Part :=
  let parameter := .node "type_parameter" (seqs [
    opt (text "const"), opt (seqs [text "in", .absent (nextByte fun b => b == 62 || b == 44)]),
    opt (seqs [text "out", .absent (nextByte fun b => b == 62 || b == 44)]),
    .role "name" typeName,
    opt (.role "constraint" (.node "constraint" (seqs [text "extends" <|> text ":",
      .call .type]))),
    opt (.role "value" (.node "default_type" (seqs [text "=", .call .type])))])
  .node "type_parameters" (seqs [textUnless "<" "<=", sepBy1 (text ",") parameter,
    opt (text ","), text ">"])

/-- A type with the words that may stand before it. -/
def prefixType (d : Dialect) : Part :=
  let functionType := .node "function_type" (seqs [
    opt (.role "type_parameters" (.call .typeParameters)),
    .role "parameters" (.call .parameters), text "=>",
    .role "return_type" (choice [
      .node "type_predicate" (seqs [.role "name" (identifier <|> keywordNode "this"),
        sameLine, text "is", .role "type" (.call .type)]),
      .node "asserts" (seqs [text "asserts", sameLine, identifier <|> keywordNode "this"]),
      .call .type])])
  choice [
    when d.typed functionType,
    .node "constructor_type" (seqs [opt (text "abstract"), text "new",
      opt (.role "type_parameters" (.call .typeParameters)),
      .role "parameters" (.call .parameters), text "=>", .role "type" (.call .type)]),
    .node "readonly_type" (seqs [modifier "readonly", .call .prefixType]),
    .node "index_type_query" (seqs [modifier "keyof", .call .prefixType]),
    .node "infer_type" (seqs [modifier "infer", typeName,
      opt (seqs [text "extends", .call .type, .absent (text "?")])]),
    .call .postfixType]

/-- A type with the brackets that may follow it. -/
def postfixType : Part :=
  .grow (.call .primaryType) (choice [
    .node "array_type" (seqs [.left, sameLine, text "[", text "]"]),
    .node "lookup_type" (seqs [.left, sameLine, text "[", .call .type, text "]"])])

/-- An intersection of types. -/
def intersectionType : Part :=
  .grow
    (.node "intersection_type" (seqs [text "&", .call .prefixType]) <|> .call .prefixType)
    (.node "intersection_type" (seqs [.left, text "&", .call .prefixType]))

/-- A union of types. -/
def unionType : Part :=
  .grow
    (.node "union_type" (seqs [text "|", .call .intersectionType]) <|> .call .intersectionType)
    (.node "union_type" (seqs [.left, text "|", .call .intersectionType]))

/-- Any type. -/
def type : Part :=
  .grow (.call .unionType) (.node "conditional_type" (seqs [.role "left" .left, sameLine,
    text "extends", .role "right" (.call .unionType), text "?",
    .role "consequence" (.call .type), text ":", .role "alternative" (.call .type)]))

/-- The parameters of a function. -/
def parameters (d : Dialect) : Part :=
  let typedHead := seqs [.many (.role "decorator" (.call .decorator)), opt accessibility,
    opt (.node "override_modifier" (modifier "override")), opt (modifier "readonly"),
    .role "pattern" (choice [keywordNode "this", .call .pattern])]
  let parameter := if d.typed then choice [
      .node "optional_parameter" (seqs [typedHead, text "?", opt (.role "type" typeAnnotation),
        opt initializer]),
      .node "required_parameter" (seqs [typedHead, opt (.role "type" typeAnnotation),
        opt initializer])]
    else seqs [.many (.role "decorator" (.call .decorator)), choice [
      .node "assignment_pattern" (seqs [.role "left" (.call .pattern), textUnless "=" "=>",
        .role "right" (.call .assignment)]),
      .call .pattern]]
  .node "formal_parameters" (seqs [text "(",
    opt (seqs [sepBy1 (text ",") parameter, opt (text ",")]), text ")"])

/-! ## Statements -/

/-- A name that a variable declaration introduces, with its value. -/
def declarator (d : Dialect) : Part :=
  let target := .role "name" (destructuring <|> identifier)
  .node "variable_declarator" (choice [
    when d.typed (seqs [.role "name" identifier, textUnless "!" "=", .role "type" typeAnnotation]),
    seqs [target, maybe d.typed (.role "type" typeAnnotation), opt initializer]])

/-- The declaration of variables. -/
def variableDeclaration (d : Dialect) : Part :=
  choice [
    .node "variable_declaration" (seqs [text "var", sepBy1 (text ",") (declarator d),
      semicolon]),
    .node "lexical_declaration" (seqs [.role "kind" (text "let" <|> text "const"),
      sepBy1 (text ",") (declarator d), semicolon])]

/-- The body of an enumeration. -/
def enumeration : Part :=
  let entry := choice [
    .node "enum_assignment" (seqs [.role "name" (.call .propertyName), initializer]),
    .role "name" (.call .propertyName)]
  .node "enum_declaration" (seqs [opt (text "const"), text "enum", .role "name" identifier,
    .role "body" (.node "enum_body" (seqs [text "\x7b",
      opt (seqs [sepBy1 (text ",") entry, opt (text ",")]), text "\x7d"]))])

/-- A declaration. -/
def declaration (d : Dialect) : Part :=
  let start := seqs [opt (seqs [text "async", sameLine]), text "function"]
  let common := [
    .node "generator_function_declaration" (seqs [start, text "*", .role "name" identifier,
      callSignature d, .role "body" (.call .block)]),
    .node "function_declaration" (seqs [start, .role "name" identifier, callSignature d,
      .role "body" (.call .block)]),
    .node "class_declaration" (seqs [.many (.role "decorator" (.call .decorator)), text "class",
      .role "name" (if d.typed then typeName else identifier), classRest d, blockEnd d])]
  let heading := .role "name" (choice [string,
    .grow identifier (.node "nested_identifier" (seqs [.role "object" .left, text ".",
      .role "property" (.rename "property_identifier" identifier)]))])
  let typed := if d.typed then [
      .node "function_signature" (seqs [start, .role "name" identifier, callSignature d,
        semicolon]),
      .node "abstract_class_declaration" (seqs [.many (.role "decorator" (.call .decorator)),
        text "abstract", text "class", .role "name" typeName, classRest d]),
      enumeration,
      .node "interface_declaration" (seqs [text "interface", sameLine, .role "name" typeName,
        opt (.role "type_parameters" (.call .typeParameters)),
        opt (.node "extends_type_clause" (seqs [text "extends",
          sepBy1 (text ",") (.role "type" (.call .primaryType))])),
        .role "body" (.rename "interface_body" (.call .objectType))]),
      .node "type_alias_declaration" (seqs [text "type", sameLine, .role "name" typeName,
        opt (.role "type_parameters" (.call .typeParameters)), text "=",
        .role "value" (.call .type), semicolon]),
      .node "module" (seqs [text "module", sameLine, heading, .role "body" (.call .block)]),
      .node "internal_module" (seqs [text "namespace", sameLine, heading,
        .role "body" (.call .block)]),
      .node "import_alias" (seqs [text "import", identifier, text "=",
        .grow identifier (.node "nested_identifier" (seqs [.role "object" .left, text ".",
          .role "property" (.rename "property_identifier" identifier)])), semicolon]),
      .node "ambient_declaration" (seqs [text "declare", sameLine,
        choice [
          seqs [text "global", .call .block],
          seqs [.node "module" (seqs [text "module", heading,
            opt (.role "body" (.call .block))]), opt (text ";")],
          .call .declaration]])]
    else []
  choice (common ++ [variableDeclaration d] ++ typed)

/-- The module that an import or export names. -/
def fromClause : Part := seqs [text "from", .role "source" string]

/-- A name in a list of imports or exports. -/
def exportedName : Part := choice [string, named "identifier" anyName?]

/-- An import of a module. -/
def importStatement (d : Dialect) : Part :=
  let kindWord := maybe d.typed (seqs [text "type" <|> text "typeof",
    .ahead (nextByte fun b => b != 44 && b != 125),
    .absent (seqs [text "as", .absent (seqs [text "as"])])])
  let specifier := .node "import_specifier" (seqs [kindWord,
    choice [
      seqs [.role "name" exportedName, text "as", .role "alias" identifier],
      .role "name" identifier]])
  let wildcard := .node "namespace_import" (seqs [text "*", text "as", identifier])
  let names := .node "named_imports" (seqs [text "\x7b",
    opt (seqs [sepBy1 (text ",") specifier, opt (text ",")]), text "\x7d"])
  let clause := .node "import_clause" (choice [wildcard, names,
    seqs [identifier, opt (seqs [text ",", wildcard <|> names])]])
  let attributes := opt (.node "import_attribute" (seqs [text "with" <|> text "assert",
    .call .objectLiteral]))
  let require := .node "import_require_clause" (seqs [identifier, text "=", text "require",
    text "(", .role "source" string, text ")"])
  let content := choice [
    seqs [clause, fromClause],
    when d.typed require,
    .role "source" string]
  .node "import_statement" (seqs [text "import",
    choice [
      when d.typed (seqs [text "type" <|> text "typeof", content]),
      content],
    attributes, semicolon])

/-- An export of a module. -/
def exportStatement (d : Dialect) : Part :=
  let specifier := .node "export_specifier" (choice [
    when d.typed (seqs [text "type" <|> text "typeof", .role "name" exportedName,
      opt (seqs [text "as", .role "alias" exportedName])]),
    seqs [.role "name" exportedName, opt (seqs [text "as", .role "alias" exportedName])]])
  let clause := .node "export_clause" (seqs [text "\x7b",
    opt (seqs [sepBy1 (text ",") specifier, opt (text ",")]), text "\x7d"])
  choice [
    .node "export_statement" (seqs [text "export", choice [
      seqs [text "*", fromClause],
      seqs [.node "namespace_export" (seqs [text "*", text "as", exportedName]), fromClause],
      seqs [clause, opt fromClause]], semicolon]),
    when d.typed (.node "export_statement" (seqs [text "export", text "type", clause,
      opt fromClause, semicolon])),
    when d.typed (.node "export_statement" (seqs [text "export", text "=", .call .expressions,
      semicolon])),
    when d.typed (.node "export_statement" (seqs [text "export", text "as", text "namespace",
      identifier, semicolon])),
    .node "export_statement" (seqs [.many (.role "decorator" (.call .decorator)), text "export",
      choice [
        seqs [text "default", choice [
          .role "declaration" (.call .declaration),
          seqs [.role "value" (.call .assignment), semicolon]]],
        .role "declaration" (.call .declaration)]])]

/-- A loop over the members of a value. -/
def forIn (d : Dialect) : Part :=
  let target := .role "left" (destructuring <|> identifier)
  .node "for_in_statement" (seqs [text "for", opt (text "await"), text "(",
    choice [
      seqs [.role "kind" (choice [text "var", text "let", text "const"]), target,
        maybe d.typed (.role "type" typeAnnotation)],
      .role "left" (choice [destructuring, .call .chain])],
    .role "operator" (text "in" <|> text "of"), .role "right" (.call .expressions), text ")",
    .role "body" (.call .statement)])

/-- A loop with a condition and a step. -/
def forLoop (d : Dialect) : Part :=
  let nothing := .node "empty_statement" (text ";")
  .node "for_statement" (seqs [text "for", text "(",
    choice [
      .role "initializer" (variableDeclaration d),
      .role "initializer" nothing,
      seqs [.role "initializer" (.call .expressions), text ";"]],
    choice [
      .role "condition" nothing,
      seqs [.role "condition" (.call .expressions), text ";"]],
    opt (.role "increment" (.call .expressions)), text ")",
    .role "body" (.call .statement)])

/-- A statement. -/
def statement (d : Dialect) : Part :=
  let condition := parenthesized d
  let cases := .node "switch_body" (seqs [text "\x7b",
    .many (choice [
      .node "switch_case" (seqs [text "case", .role "value" (.call .expressions), text ":",
        .many (.role "body" (.call .statement))]),
      .node "switch_default" (seqs [text "default", text ":",
        .many (.role "body" (.call .statement))])]),
    text "\x7d"])
  let handler := .node "catch_clause" (seqs [text "catch",
    opt (seqs [text "(", .role "parameter" (destructuring <|> identifier),
      maybe d.typed (.role "type" typeAnnotation), text ")"]),
    .role "body" (.call .block)])
  let jump (word kind : String) : Part :=
    .node kind (seqs [text word, opt (seqs [sameLine,
      .role "label" (named "statement_identifier" plainName?)]), semicolon])
  choice [
    exportStatement d,
    importStatement d,
    .node "debugger_statement" (seqs [text "debugger", semicolon]),
    .call .declaration,
    .call .block,
    .node "if_statement" (seqs [text "if", .role "condition" condition,
      .role "consequence" (.call .statement),
      opt (.role "alternative" (.node "else_clause" (seqs [text "else", .call .statement])))]),
    .node "switch_statement" (seqs [text "switch", .role "value" condition, .role "body" cases]),
    forIn d,
    forLoop d,
    .node "while_statement" (seqs [text "while", .role "condition" condition,
      .role "body" (.call .statement)]),
    .node "do_statement" (seqs [text "do", .role "body" (.call .statement), text "while",
      .role "condition" condition, opt (text ";")]),
    .node "try_statement" (seqs [text "try", .role "body" (.call .block),
      opt (.role "handler" handler),
      opt (.role "finalizer" (.node "finally_clause" (seqs [text "finally",
        .role "body" (.call .block)])))]),
    .node "with_statement" (seqs [text "with", .role "object" condition,
      .role "body" (.call .statement)]),
    jump "break" "break_statement",
    jump "continue" "continue_statement",
    .node "return_statement" (seqs [text "return", opt (seqs [sameLine, .call .expressions]),
      semicolon]),
    .node "throw_statement" (seqs [text "throw", .call .expressions, semicolon]),
    .node "empty_statement" (text ";"),
    .node "labeled_statement" (seqs [.role "label" (named "statement_identifier" plainName?),
      text ":", .role "body" (.call .statement)]),
    .node "expression_statement" (seqs [.call .expressions, semicolon])]

/-- `part d symbol` is the rule of a symbol. -/
def part (d : Dialect) : Symbol → Part
  | .statement => statement d
  | .block =>
    .node "statement_block" (seqs [text "\x7b", .many (.call .statement), text "\x7d", blockEnd d])
  | .declaration => declaration d
  | .expressions =>
    .lead (.call .assignment) (choice [
      .node "sequence_expression" (seqs [.left, many1 (seqs [text ",", .call .assignment])]),
      .left])
  | .assignment => assignment d
  | .ternary =>
    .grow (.call (.binary 0)) (.node "ternary_expression" (seqs [.role "condition" .left,
      .lexeme false false "?" fun src i =>
        if src.byte i == 63 && src.byte (i + 1) != 63 &&
          (src.byte (i + 1) != 46 || isDigit (src.byte (i + 2))) then some (i + 1) else none,
      .role "consequence" (.call .assignment), text ":",
      .role "alternative" (.call .assignment)]))
  | .binary level => binary d level
  | .unary => unary d
  | .chain => chain d
  | .constructed => constructed d
  | .primary => primary d
  | .pattern => pattern
  | .propertyName =>
    choice [
      named "property_identifier" anyName?,
      privateName,
      string,
      named "number" number?,
      .node "computed_property_name" (seqs [text "[", .call .assignment, text "]"])]
  | .parameters => parameters d
  | .arguments => .node "arguments" (seqs [text "(", items, text ")"])
  | .classBody => classBody d
  | .decorator =>
    .node "decorator" (seqs [text "@", .grow (parenthesized d <|> identifier) (choice [
      .node "member_expression" (seqs [.role "object" .left, tight ".", memberName]),
      .node "call_expression" (seqs [.role "function" .left,
        maybe d.typed (.role "type_arguments" (.call .typeArguments)),
        .role "arguments" (.call .arguments)])])])
  | .objectLiteral => objectLiteral d
  | .template => template
  | .type => type
  | .unionType => unionType
  | .intersectionType => intersectionType
  | .prefixType => prefixType d
  | .postfixType => postfixType
  | .primaryType => primaryType
  | .typeArguments => typeArguments
  | .typeParameters => typeParameters
  | .objectType => objectType d
  | .element => element

/-- `grammar d` is the grammar of scripts in the dialect `d`. -/
def grammar (d : Dialect) : Grammar Symbol Unit := ⟨part d, slashBlanks⟩

/-- What cannot be read as a statement: one token or word of it. -/
def unreadable : Part :=
  .node "ERROR" (named "ERROR" fun src i =>
    if i ≥ src.size then none
    else
      let stop := wordEnd src (src.size - i) i
      some (if stop = i then i + 1 else stop))

/-- `program` is a whole script. -/
def program : Part :=
  seqs [
    opt (named "hash_bang_line" fun src i =>
      if src.startsWith i "#!" then some (lineEnd src i) else none),
    .many (.call .statement <|> unreadable)]

/-- `read d src` is the syntax tree of the script `src`. -/
def read (d : Dialect) (src : Source) : Node :=
  (grammar d).read "program" program () src

end TrackingPlan.Script
