import TrackingPlan.Grammar.Token

/-!
# The grammar of Go

Source files of Go. A line break ends a statement wherever a statement may end, so that operators
and calls follow their operand on the same line. In the heads of statements a literal of a named
type needs parentheses, because a brace there opens the body.
-/

namespace TrackingPlan.Go

open Rule Token

/-- The symbols that rules refer to. In the head of a statement, `inHead` holds. -/
inductive Symbol where
  | expression (inHead : Bool)
  | binary (inHead : Bool) (level : Nat)
  | unary (inHead : Bool)
  | operand (inHead : Bool)
  | literalValue
  | arguments
  | typeArguments
  | type
  | parameters
  | block
  | statement
  | simple (inHead : Bool)
  | declaration
deriving Repr

/-- The rules of Go have no reading state. -/
abbrev Part := Rule Symbol Unit

/-! ## Names and literals -/

/-- The words that are no names. -/
def reserved : List String :=
  ["break", "case", "chan", "const", "continue", "default", "defer", "else", "fallthrough", "for",
    "func", "go", "goto", "if", "import", "interface", "map", "package", "range", "return",
    "select", "struct", "switch", "type", "var"]

/-- A name in any role. -/
def nameOf (kind : String) : Part := named kind (name? reserved)

/-- A name of a value. -/
def identifier : Part := nameOf "identifier"

/-- `numberEnd src hex fuel i` is the end of the digits, letters, points and signed exponents. -/
def numberEnd (src : Source) (hex : Bool) : (fuel i : Nat) → Nat
  | 0, i => i
  | fuel + 1, i =>
    let b := src.byte i
    if isDigit b || isAlpha b || b == 95 || b == 46 then
      let exponent := if hex then b == 112 || b == 80 else b == 101 || b == 69
      let signed := exponent && (src.byte (i + 1) == 43 || src.byte (i + 1) == 45)
      numberEnd src hex fuel (if signed then i + 2 else i + 1)
    else i

/-- `number? src i` reads a number and tells its kind. -/
def number? (src : Source) (i : Nat) : Option (String × Nat) :=
  let b := src.byte i
  if isDigit b || (b == 46 && isDigit (src.byte (i + 1))) then
    let hex := b == 48 && (src.byte (i + 1) == 120 || src.byte (i + 1) == 88)
    let stop := numberEnd src hex (src.size - i) i
    let text := src.slice i stop
    let floats := fun c =>
      c = '.' || (if hex then c = 'p' || c = 'P' else c = 'e' || c = 'E')
    let kind :=
      if text.endsWith "i" then "imaginary_literal"
      else if text.toList.any floats then "float_literal"
      else "int_literal"
    some (kind, stop)
  else none

/-- A number. -/
def number : Part :=
  choice (["int_literal", "float_literal", "imaginary_literal"].map fun kind =>
    named kind fun src i =>
      match number? src i with
      | some (found, stop) => if found = kind then some stop else none
      | none => none)

/-- `quotedEnd src mark fuel i` is the offset of the mark that closes a text. -/
def quotedEnd (src : Source) (mark : UInt8) : (fuel i : Nat) → Option Nat
  | 0, _ => none
  | fuel + 1, i =>
    let b := src.byte i
    if i ≥ src.size || b == 10 then none
    else if b == 92 then quotedEnd src mark fuel (i + 2)
    else if b == mark then some i
    else quotedEnd src mark fuel (i + 1)

/-- A text between double quotes. -/
def interpretedText : Part :=
  .node "interpreted_string_literal" (seqs [text "\"",
    .many (choice [
      tightNamed "interpreted_string_literal_content" fun src i =>
        let stop := offsetOf src (fun b => b == 34 || b == 92 || b == 10) i
        if stop = i then none else some stop,
      tightNamed "escape_sequence" fun src i =>
        if src.byte i == 92 then
          let c := src.byte (i + 1)
          some (i + (if c == 120 then 4 else if c == 117 then 6 else if c == 85 then 10
            else if isDigit c then 4 else 2))
        else none]),
    tight "\""])

/-- A text between back quotes. -/
def rawText : Part :=
  .node "raw_string_literal" (seqs [text "`",
    opt (tightNamed "raw_string_literal_content" fun src i =>
      let stop := offsetOf src (· == 96) i
      if stop = i then none else some stop),
    tight "`"])

/-- A text. -/
def string : Part := interpretedText <|> rawText

/-- A character. -/
def rune : Part :=
  named "rune_literal" fun src i =>
    if src.byte i == 39 then (quotedEnd src 39 (src.size - i) (i + 1)).map (· + 1) else none

/-- The end of a statement: a semicolon, a line break, or a place where none is needed. -/
def terminator : Part :=
  text ";" <|>
    .check fun src p =>
      let q := (slashBlanks src p).2
      q.row != p.row || q.pos ≥ src.size || src.byte q.pos == 125 || src.byte q.pos == 41

/-- `closed item` is a list of items, separated by commas, with a comma after the last if wanted. -/
def closed (item : Part) : Part :=
  opt (seqs [sepBy1 (text ",") item, opt (text ",")])

/-! ## Types -/

/-- The name of a type, perhaps with the package it belongs to. -/
def typeName : Part :=
  choice [
    .node "qualified_type" (seqs [.role "package" (nameOf "package_identifier"), text ".",
      .role "name" (nameOf "type_identifier")]),
    nameOf "type_identifier"]

/-- The name of a type with the types it is applied to. -/
def typeReference : Part :=
  .grow typeName (.node "generic_type" (seqs [.role "type" .left, sameLine,
    .role "type_arguments" (.call .typeArguments)]))

/-- What a function gives back. -/
def result : Part := opt (.role "result" (.seq sameLine (.call .parameters <|> .call .type)))

/-- A structure. -/
def structType : Part :=
  let tag := opt (.seq sameLine (.role "tag" string))
  let field := choice [
    .node "field_declaration" (seqs [
      sepBy1 (text ",") (.role "name" (nameOf "field_identifier")), sameLine,
      .role "type" (.call .type), tag]),
    .node "field_declaration" (seqs [opt (text "*"), .role "type" typeReference, tag])]
  .node "struct_type" (seqs [text "struct",
    .node "field_declaration_list" (seqs [text "\x7b", .many (seqs [field, terminator]),
      text "\x7d"])])

/-- An interface. -/
def interfaceType : Part :=
  let element := .node "type_elem" (sepBy1 (text "|")
    (.node "negated_type" (seqs [text "~", .call .type]) <|> .call .type))
  .node "interface_type" (seqs [text "interface", text "\x7b",
    .many (seqs [
      choice [
        .node "method_elem" (seqs [.role "name" (nameOf "field_identifier"), sameLine,
          .role "parameters" (.call .parameters), result]),
        element],
      terminator]),
    text "\x7d"])

/-- A type of an array without its length, which its items tell. -/
def implicitArray : Part :=
  .node "implicit_length_array_type" (seqs [text "[", text "...", text "]",
    .role "element" (.call .type)])

/-- A type with items. -/
def sequenceType : Part :=
  choice [
    .node "slice_type" (seqs [text "[", text "]", .role "element" (.call .type)]),
    .node "array_type" (seqs [text "[", .role "length" (.call (.expression false)), text "]",
      .role "element" (.call .type)])]

/-- A map. -/
def mapType : Part :=
  .node "map_type" (seqs [text "map", text "[", .role "key" (.call .type), text "]",
    .role "value" (.call .type)])

/-- A type. -/
def type : Part :=
  choice [
    .node "pointer_type" (seqs [text "*", .call .type]),
    sequenceType, mapType, structType, interfaceType,
    .node "channel_type" (seqs [
      choice [seqs [text "chan", text "<-"], text "chan", seqs [text "<-", text "chan"]],
      .role "value" (.call .type)]),
    .node "function_type" (seqs [text "func", .role "parameters" (.call .parameters), result]),
    .node "parenthesized_type" (seqs [text "(", .call .type, text ")"]),
    typeReference]

/-- The types that a generic name is applied to. -/
def typeArguments : Part :=
  .node "type_arguments" (seqs [text "[",
    sepBy1 (text ",") (.node "type_elem" (sepBy1 (text "|") (.call .type))), opt (text ","),
    text "]"])

/-- The parameters of a function. -/
def parameters : Part :=
  let parameter := choice [
    .node "variadic_parameter_declaration" (seqs [opt (.role "name" identifier), text "...",
      .role "type" (.call .type)]),
    .node "parameter_declaration" (seqs [sepBy1 (text ",") (.role "name" identifier),
      .role "type" (.call .type)]),
    .node "parameter_declaration" (.role "type" (.call .type))]
  .node "parameter_list" (seqs [text "(", closed parameter, text ")"])

/-! ## Expressions -/

/-- The value of a literal: elements, with or without keys, between braces. -/
def literalValue : Part :=
  let part := .node "literal_element" (.call .literalValue <|> .call (.expression false))
  let element := .lead part (choice [
    .node "keyed_element" (seqs [.role "key" .left, text ":", .role "value" part]), .left])
  .node "literal_value" (seqs [text "\x7b", closed element, text "\x7d"])

/-- A literal with the type it belongs to. -/
def compositeLiteral (inHead : Bool) : Part :=
  let plain := choice [mapType, implicitArray, sequenceType, structType]
  let types := if inHead then plain else .alt plain typeReference
  .node "composite_literal" (seqs [.role "type" types, sameLine,
    .role "body" (.call .literalValue)])

/-- An expression without operators around it. -/
def operand (inHead : Bool) : Part :=
  choice [
    .node "parenthesized_expression" (seqs [text "(", .call (.expression false), text ")"]),
    .node "func_literal" (seqs [text "func", .role "parameters" (.call .parameters), result,
      .role "body" (.call .block)]),
    compositeLiteral inHead,
    .node "call_expression" (seqs [
      .role "function" (.rename "identifier" (text "new" <|> text "make")),
      .role "arguments" (.node "argument_list" (seqs [text "(", .call .type,
        .many (seqs [text ",", .call (.expression false)]), opt (text ","), text ")"]))]),
    .node "type_conversion_expression" (seqs [
      .role "type" (choice [sequenceType, mapType, interfaceType,
        .node "channel_type" (seqs [text "chan", .role "value" (.call .type)])]),
      text "(", .role "operand" (.call (.expression false)), opt (text ","), text ")"]),
    number, string, rune,
    keywordNode "nil", keywordNode "true", keywordNode "false", keywordNode "iota",
    identifier]

/-- A value with the steps that lead on from it. -/
def primary (inHead : Bool) : Part :=
  let inside := .call (.expression false)
  .grow (.call (.operand inHead)) (choice [
    .node "type_assertion_expression" (seqs [.role "operand" .left, sameLine, text ".", text "(",
      .role "type" (.call .type), text ")"]),
    .node "selector_expression" (seqs [.role "operand" .left, sameLine, text ".",
      .role "field" (nameOf "field_identifier")]),
    .node "call_expression" (seqs [.role "function" .left, sameLine,
      .role "arguments" (.call .arguments)]),
    .node "call_expression" (seqs [.role "function" .left, sameLine,
      .role "type_arguments" (.call .typeArguments), sameLine,
      .role "arguments" (.call .arguments)]),
    .node "index_expression" (seqs [.role "operand" .left, sameLine, text "[",
      .role "index" inside, opt (text ","), text "]"]),
    .node "slice_expression" (seqs [.role "operand" .left, sameLine, text "[",
      opt (.role "start" inside), text ":", opt (.role "end" inside),
      opt (seqs [text ":", .role "capacity" inside]), text "]"]),
    .node "type_instantiation_expression" (seqs [.role "type" .left, sameLine, text "[",
      sepBy1 (text ",") (.call .type), opt (text ","), text "]"])])

/-- An expression that may start with an operator. -/
def unary (inHead : Bool) : Part :=
  choice [
    .node "unary_expression" (seqs [
      .role "operator" (choice [textUnless "+" "+", textUnless "-" "-", text "!", text "^",
        text "*", textUnless "&" "&^", text "<-"]),
      .role "operand" (.call (.unary inHead))]),
    primary inHead]

/-- The operators of each level of precedence, the weakest first. -/
def operators : List (List Part) := [
  [text "||"],
  [text "&&"],
  [text "==", text "!=", text "<=", textUnless "<" "<-", text ">=", textUnless ">" ">"],
  [textUnless "+" "+=", textUnless "-" "-=", textUnless "|" "=|", textUnless "^" "="],
  [textUnless "*" "=", textUnless "/" "=", textUnless "%" "=", textUnless "<<" "=",
    textUnless ">>" "=", textUnless "&^" "=", textUnless "&" "=&"]]

/-- An expression whose operators have at least that level. -/
def binary (inHead : Bool) (level : Nat) : Part :=
  match operators[level]? with
  | none => .call (.unary inHead)
  | some spellings =>
    let next := .call (.binary inHead (level + 1))
    .grow next (.node "binary_expression" (seqs [.role "left" .left, sameLine,
      .role "operator" (choice spellings), .role "right" next]))

/-- Expressions between commas. -/
def expressionList (inHead : Bool) : Part :=
  .node "expression_list" (sepBy1 (text ",") (.call (.expression inHead)))

/-! ## Declarations -/

/-- A declaration of one or several constants, variables or types. -/
def declaration : Part :=
  let values := .role "value" (expressionList false)
  let names := sepBy1 (text ",") identifier
  let typed := opt (seqs [sameLine, .role "type" (.call .type)])
  let constant := .node "const_spec" (seqs [.role "name" names,
    opt (seqs [typed, text "=", values])])
  let spec := .node "var_spec" (seqs [sepBy1 (text ",") (.role "name" identifier),
    choice [seqs [text "=", values],
      seqs [.role "type" (.call .type), opt (seqs [text "=", values])]]])
  let typeParameters := opt (.role "type_parameters" (.node "type_parameter_list" (seqs [text "[",
    sepBy1 (text ",") (.node "type_parameter_declaration" (seqs [
      sepBy1 (text ",") (.role "name" identifier),
      .role "type" (.node "type_constraint" (sepBy1 (text "|")
        (.node "negated_type" (seqs [text "~", .call .type]) <|> .call .type)))])),
    opt (text ","), text "]"])))
  let definition := choice [
    .node "type_alias" (seqs [.role "name" (nameOf "type_identifier"), typeParameters, text "=",
      .role "type" (.call .type)]),
    .node "type_spec" (seqs [.role "name" (nameOf "type_identifier"), typeParameters,
      .role "type" (.call .type)])]
  let group (item : Part) : Part := seqs [text "(", .many (seqs [item, terminator]), text ")"]
  choice [
    .node "const_declaration" (seqs [text "const", group constant <|> constant]),
    .node "var_declaration" (seqs [text "var",
      .node "var_spec_list" (group spec) <|> spec]),
    .node "type_declaration" (seqs [text "type", group definition <|> definition]),
    .node "function_declaration" (seqs [text "func", .role "name" identifier, typeParameters,
      .role "parameters" (.call .parameters), result,
      opt (.seq sameLine (.role "body" (.call .block)))]),
    .node "method_declaration" (seqs [text "func", .role "receiver" (.call .parameters),
      .role "name" (nameOf "field_identifier"), .role "parameters" (.call .parameters), result,
      opt (.seq sameLine (.role "body" (.call .block)))])]

/-- The package that a file belongs to. -/
def packageClause : Part :=
  .node "package_clause" (seqs [text "package", nameOf "package_identifier"])

/-- The imports of a file. -/
def importDeclaration : Part :=
  let item := .node "import_spec" (seqs [
    opt (.role "name" (choice [.node "dot" (text "."),
      .node "blank_identifier" (keywordNode "_"), nameOf "package_identifier"])),
    .role "path" string])
  .node "import_declaration" (seqs [text "import",
    choice [.node "import_spec_list" (seqs [text "(", .many (seqs [item, terminator]),
      text ")"]), item]])

/-! ## Statements -/

/-- A statement that may stand in the head of another one. -/
def simple (inHead : Bool) : Part :=
  let values := expressionList inHead
  let targets := .role "left" (.node "expression_list" (seqs [.left,
    .many (seqs [text ",", .call (.expression inHead)])]))
  .lead (.call (.expression inHead)) (choice [
    .node "short_var_declaration" (seqs [targets, sameLine, text ":=", .role "right" values]),
    .node "assignment_statement" (seqs [targets, sameLine,
      .role "operator" (choice [textUnless "=" "=", text "*=", text "/=", text "%=", text "<<=",
        text ">>=", text "&^=", text "&=", text "+=", text "-=", text "|=", text "^="]),
      .role "right" values]),
    .node "send_statement" (seqs [.role "channel" .left, sameLine, text "<-",
      .role "value" (.call (.expression inHead))]),
    .node "inc_statement" (seqs [.left, sameLine, text "++"]),
    .node "dec_statement" (seqs [.left, sameLine, text "--"]),
    .node "expression_statement" .left])

/-- Statements, of which a semicolon by itself is one. -/
def statements : Part :=
  .many (seqs [.call .statement, terminator] <|> .node "empty_statement" (text ";"))

/-- A loop. -/
def loop : Part :=
  let head := .call (.simple true)
  let range := .node "range_clause" (seqs [
    opt (seqs [.role "left" (expressionList true), text ":=" <|> text "="]), text "range",
    .role "right" (.call (.expression true))])
  let clause := .node "for_clause" (seqs [opt (.role "initializer" head), text ";",
    opt (.role "condition" (.call (.expression true))), text ";", opt (.role "update" head)])
  .node "for_statement" (seqs [text "for",
    opt (choice [range, clause, .call (.expression true)]), .role "body" (.call .block)])

/-- A choice between cases. -/
def cases : Part :=
  let head := .call (.simple true)
  let defaultCase := .node "default_case" (seqs [text "default", text ":", statements])
  let initial := opt (seqs [.role "initializer" head, text ";"])
  let typeHead := seqs [
    opt (seqs [.role "alias" (expressionList true), text ":="]),
    .role "value" (primary true), text ".", text "(", text "type", text ")"]
  let asserted := seqs [
    opt (seqs [.role "alias" (expressionList true), text ":="]),
    .role "value" (.grow (.call (.operand true)) (choice [
      .node "selector_expression" (seqs [.role "operand" .left, sameLine, text ".",
        .role "field" (nameOf "field_identifier")]),
      .node "call_expression" (seqs [.role "function" .left, sameLine,
        .role "arguments" (.call .arguments)]),
      .node "index_expression" (seqs [.role "operand" .left, sameLine, text "[",
        .role "index" (.call (.expression false)), text "]"])])),
    text ".", text "(", text "type", text ")"]
  choice [
    .node "type_switch_statement" (seqs [text "switch", initial, asserted <|> typeHead,
      text "\x7b",
      .many (choice [
        .node "type_case" (seqs [text "case", sepBy1 (text ",") (.role "type" (.call .type)),
          text ":", statements]),
        defaultCase]),
      text "\x7d"]),
    .node "expression_switch_statement" (seqs [text "switch", initial,
      opt (.role "value" (.call (.expression true))), text "\x7b",
      .many (choice [
        .node "expression_case" (seqs [text "case", .role "value" (expressionList false),
          text ":", statements]),
        defaultCase]),
      text "\x7d"]),
    .node "select_statement" (seqs [text "select", text "\x7b",
      .many (choice [
        .node "communication_case" (seqs [text "case", .role "communication" (choice [
          .node "receive_statement" (seqs [.role "left" (expressionList false),
            text ":=" <|> textUnless "=" "=", .role "right" (.call (.expression false))]),
          .node "send_statement" (seqs [.role "channel" (.call (.expression false)), text "<-",
            .role "value" (.call (.expression false))]),
          .node "receive_statement" (.role "right" (.call (.expression false)))]),
          text ":", statements]),
        defaultCase]),
      text "\x7d"])]

/-- A statement. -/
def statement : Part :=
  let label := .role "label" (nameOf "label_name")
  let jump (word kind : String) : Part :=
    .node kind (seqs [text word, opt (.seq sameLine label)])
  let branches := .node "if_statement" (seqs [text "if",
    choice [
      seqs [.role "initializer" (.call (.simple true)), text ";",
        .role "condition" (.call (.expression true)), .role "consequence" (.call .block)],
      seqs [.role "condition" (.call (.expression true)), .role "consequence" (.call .block)]],
    opt (seqs [sameLine, text "else",
      .role "alternative" (.seq (.ahead (text "if")) (.call .statement) <|> .call .block)])])
  choice [
    .call .declaration,
    .node "return_statement" (seqs [text "return", opt (.seq sameLine (expressionList false))]),
    .node "go_statement" (seqs [text "go", .call (.expression false)]),
    .node "defer_statement" (seqs [text "defer", .call (.expression false)]),
    branches, loop, cases,
    .node "fallthrough_statement" (text "fallthrough"),
    jump "break" "break_statement",
    jump "continue" "continue_statement",
    jump "goto" "goto_statement",
    .call .block,
    .node "labeled_statement" (seqs [label, textUnless ":" "=", opt (.call .statement)]),
    .call (.simple false),
    .node "empty_statement" (text ";")]

/-- `part symbol` is the rule of a symbol. -/
def part : Symbol → Part
  | .expression inHead => .call (.binary inHead 0)
  | .binary inHead level => binary inHead level
  | .unary inHead => unary inHead
  | .operand inHead => operand inHead
  | .literalValue => literalValue
  | .arguments =>
    .node "argument_list" (seqs [text "(",
      closed (choice [
        .lead (.call (.expression false))
          (.node "variadic_argument" (seqs [.left, text "..."]) <|> .left),
        .call .type]),
      text ")"])
  | .typeArguments => typeArguments
  | .type => type
  | .parameters => parameters
  | .block =>
    .node "block" (seqs [text "\x7b", statements, text "\x7d"])
  | .statement => statement
  | .simple inHead => simple inHead
  | .declaration => declaration

/-- The grammar of Go. -/
def grammar : Grammar Symbol Unit := ⟨part, slashBlanks⟩

/-- What cannot be read as a declaration: one token or word of it. -/
def unreadable : Part :=
  .node "ERROR" (named "ERROR" fun src i =>
    if i ≥ src.size then none
    else
      let stop := wordEnd src (src.size - i) i
      some (if stop = i then i + 1 else stop))

/-- `read src` is the syntax tree of the Go file `src`. -/
def read (src : Source) : Node :=
  let item := choice [
    seqs [packageClause, terminator], seqs [importDeclaration, terminator],
    seqs [.call .statement, terminator], unreadable]
  grammar.read "source_file" (.many item) () src

end TrackingPlan.Go
