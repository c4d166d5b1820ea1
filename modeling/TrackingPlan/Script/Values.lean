import TrackingPlan.Script.Types

/-!
# The schemas of values

The schema of an expression, read off its literals and, in typed scripts, off the declarations of
the names in it. Every step into an expression or through a name uses up one hop, so that the
inference ends on values that refer to themselves. `valueSchema` reads any expression, and
`propertiesOf` the properties of an argument that is an object.
-/

namespace TrackingPlan.Script

/-- What an expression is read against: the other modules, and the script it stands in. -/
structure Scope where
  modules : Modules
  module : Module

/-- `enclosingClass? s` is the body of the class around `s`. -/
def enclosingClass? (s : Site) : Option Site :=
  go s.ancestors
where
  go : List Node → Option Site
    | [] => none
    | n :: rest => if n.kind = "class_body" then some ⟨n, rest⟩ else go rest

/-- `parameterProperty? scope name parameter` is the schema of a parameter that is a property of
that name as well. -/
def parameterProperty? (scope : Scope) (name : String) (parameter : Node) : Option Schema :=
  if (hasMark parameter "accessibility_modifier" || hasMark parameter "readonly") &&
      parameter.childText? "pattern" = some name then
    let schema := match parameter.child? "type" with
      | none => .any
      | some type => annotationSchema scope.modules scope.module type
    some (if parameter.kind = "optional_parameter" then optional schema else schema)
  else none

/-- `classMember scope value place name` is the schema of the property `name` of the object whose
class `place` is in: that of a field, or of a parameter of the constructor. -/
def classMember (scope : Scope) (value : Site → Schema) (place : Site) (name : String) : Schema :=
  match enclosingClass? place with
  | none => .any
  | some body =>
    let found := body.children.findSome? fun member =>
      if member.kind = "public_field_definition" && member.childText? "name" = some name then
        match member.child? "type" with
        | some type => some (annotationSchema scope.modules scope.module type.node)
        | none => some (match member.child? "value" with
          | some initial => value initial
          | none => .any)
      else if member.kind = "method_definition" && member.childText? "name" =
          some "constructor" then
        match member.child? "parameters" with
        | none => none
        | some parameters =>
          parameters.node.namedChildren.findSome? (parameterProperty? scope name)
      else none
    found.getD .any

/-- `memberOf schema s` is the schema of the member that `s` takes from a value of that schema. -/
def memberOf (schema : Schema) (s : Site) : Schema :=
  if s.kind = "subscript_expression" then
    let index := s.node.child? "index"
    match schema with
    | .array items => if index.any (·.kind = "number") then items else .any
    | .object fields =>
      match index.bind literal? with
      | none => .any
      | some key => (Named.find? fields key).getD .any
    | _ => .any
  else
    match s.childText? "property" with
    | none => .any
    | some property =>
      match schema with
      | .array _ | .primitive .string => if property = "length" then .number else .any
      | .object fields => (Named.find? fields property).getD .any
      | _ => .any

/-- `memberSchema scope value s` is the schema of a member of an object or of an item of an
array. -/
def memberSchema (scope : Scope) (value : Site → Schema) (s : Site) : Schema :=
  match s.child? "object" with
  | none => .any
  | some object =>
    let object := unwrap object
    if s.kind ≠ "subscript_expression" && object.kind = "this" then
      match s.childText? "property" with
      | none => .any
      | some property => classMember scope value s property
    else memberOf (value object) s

/-- `sumSchema left right` is the schema of what a plus sign gives. -/
def sumSchema (left right : Schema) : Schema :=
  if left = .string ∨ right = .string then .string
  else if left = .number ∧ right = .number then .number
  else .any

/-- `binarySchema value s` is the schema of what a binary operator gives. -/
def binarySchema (value : Site → Schema) (s : Site) : Schema :=
  let operator := (s.childText? "operator").getD ""
  if ["==", "===", "!=", "!==", "<", ">", "<=", ">=", "instanceof", "in"].contains operator then
    .boolean
  else if ["-", "*", "/", "%", "**", "&", "|", "^", "<<", ">>", ">>>"].contains operator then
    .number
  else if operator = "+" then
    let side (role : String) := match s.child? role with
      | none => .any
      | some operand => value operand
    sumSchema (side "left") (side "right")
  else .any

/-- `unarySchema s` is the schema of what a unary operator gives. -/
def unarySchema (s : Site) : Schema :=
  match s.childText? "operator" with
  | some "!" => .boolean
  | some "-" | some "+" | some "~" => .number
  | some "typeof" => .string
  | _ => .any

/-- `resolveObject? scope s` is the object written out at `s`, or as the value of the variable
there. -/
def resolveObject? (scope : Scope) (s : Site) : Option Site :=
  let s := unwrap s
  if s.kind = "object" then some s
  else if s.kind = "identifier" then
    match (scope.module.lookup? s.text s.node).bind (·.value) with
    | none => none
    | some value =>
      let value := unwrap value
      if value.kind = "object" then some value else none
  else none

/-- `objectFields value name spread object` gives the fields of an object written out, with `value`
for values, `name` for names that stand for themselves, and `spread` for what is spread into it; the
last of a key counts. -/
def objectFields (value name : Site → Schema) (spread : Site → Properties) (object : Site) :
    Properties :=
  object.children.foldl (fun fields entry =>
    match entry.kind with
    | "pair" =>
      match (entry.node.child? "key").bind key? with
      | none => fields
      | some key =>
        fields.insert key (match entry.child? "value" with
          | none => .any
          | some v => value v)
    | "shorthand_property_identifier" => fields.insert entry.text (name entry)
    | "spread_element" =>
      match entry.first? with
      | none => fields
      | some inner => fields.merge (spread inner)
    | _ => fields) []

mutual
/-- `valueSchema scope hops s` is the schema of the expression `s`, found within `hops` steps. -/
def valueSchema (scope : Scope) : (hops : Nat) → Site → Schema
  | 0, _ => .any
  | hops + 1, s =>
    let typed := scope.modules.typed
    match s.kind with
    | "string" | "template_string" => .string
    | "number" => .number
    | "true" | "false" => .boolean
    | "null" => .null
    | "undefined" => if typed then .label "undefined" else .any
    | "object" =>
      .object (objectFields (valueSchema scope hops)
        (fun name => if typed then nameSchema scope hops name.text name else .any)
        (propertiesOf scope (hops - 1)) s)
    | "array" =>
      .array (Schema.arrayItems
        ((s.children.filter (·.kind ≠ "spread_element")).map (valueSchema scope hops)))
    | "identifier" => if typed then nameSchema scope hops s.text s else .any
    | "member_expression" | "subscript_expression" =>
      if typed then
        match eventName? scope.modules scope.module s with
        | some _ => .string
        | none => memberSchema scope (valueSchema scope hops) s
      else .any
    | "parenthesized_expression" | "non_null_expression" | "satisfies_expression" =>
      match s.first? with
      | none => .any
      | some inner => valueSchema scope hops inner
    | "as_expression" =>
      match s.children with
      | [] => .any
      | [inner] => valueSchema scope hops inner
      | inner :: type :: _ =>
        if typed then annotationSchema scope.modules scope.module type.node
        else valueSchema scope hops inner
    | "unary_expression" => if typed then unarySchema s else .any
    | "binary_expression" => if typed then binarySchema (valueSchema scope hops) s else .any
    | "call_expression" =>
      if isCallOf s.node "Object.freeze" then
        match argumentsOf s with
        | [] => .any
        | argument :: _ => valueSchema scope hops argument
      else .any
    | _ => .any

/-- `nameSchema scope hops name place` is the schema of the variable `name` at `place`: its declared
type, or that of its value. -/
def nameSchema (scope : Scope) : (hops : Nat) → String → Site → Schema
  | 0, _, _ => .any
  | hops + 1, name, place =>
    match scope.module.lookup? name place.node with
    | some binding =>
      match binding.annotation with
      | some type => annotationSchema scope.modules scope.module type.node
      | none =>
        match binding.value with
        | none => .any
        | some value =>
          if value.kind = "enum_declaration" then enumSchema value.node
          else valueSchema scope hops value
    | none =>
      match stringConstant? scope.modules (hops + 1) scope.module name [] place.node with
      | some _ => .string
      | none => .any

/-- `propertiesOf scope hops s` gives the properties of the argument `s`: the fields of an object,
those of a variable's value, or those of its declared type. -/
def propertiesOf (scope : Scope) : (hops : Nat) → Site → Properties
  | 0, _ => []
  | hops + 1, s =>
    match resolveObject? scope s with
    | some object =>
      objectFields (valueSchema scope hops)
        (fun name =>
          if scope.modules.typed then nameSchema scope hops name.text name else .any)
        (propertiesOf scope (hops - 1)) object
    | none =>
      let s := unwrap s
      if s.kind = "identifier" then
        match scope.module.lookup? s.text s.node with
        | none => []
        | some binding =>
          match (binding.value.map unwrap).filter (·.kind = "identifier") with
          | some next => propertiesOf scope hops next
          | none =>
            match binding.annotation with
            | none => []
            | some type =>
              if scope.modules.typed then
                match annotationSchema scope.modules scope.module type.node with
                | .object fields => fields
                | _ => []
              else []
      else []
end

/-- `fieldsOfObject scope object` gives the fields of an object written out, with all hops to go. -/
def fieldsOfObject (scope : Scope) (object : Site) : Properties :=
  objectFields (valueSchema scope allHops)
    (fun name => if scope.modules.typed then nameSchema scope allHops name.text name else .any)
    (propertiesOf scope maxHops) object

end TrackingPlan.Script
