import TrackingPlan.Event
import TrackingPlan.Scope.Go
import TrackingPlan.Signature

/-!
# Tracking calls in Go

The events that the calls of a Go file fire. Providers take their events as values of their own
types, so a call is recognised by the types of the literals among its arguments; a call that a
signature accepts is an event of the user's own. `events` lists the events of a file.
-/

namespace TrackingPlan.Go

/-! ## Literals and names -/

/-- `element n` is the value of an element of a literal. -/
def element (n : Node) : Node :=
  if n.kind = "literal_element" then n.firstNamed?.getD n else n

/-- `unwrap n` is the expression behind parentheses and behind the taking of addresses. -/
def unwrap (n : Node) : Node :=
  if n.kind = "unary_expression" && n.childText? "operator" = some "&" then
    match _h : n.child? "operand" with
    | none => n
    | some inner => unwrap inner
  else if n.kind = "parenthesized_expression" then
    match _h : n.firstNamed? with
    | none => n
    | some inner => unwrap inner
  else n
termination_by n.size
decreasing_by
  · exact Node.size_child?_lt _h
  · exact Node.size_firstNamed?_lt _h

/-- `literal? n` is the text of a literal text. -/
def literal? (n : Node) : Option String :=
  if n.kind = "interpreted_string_literal" || n.kind = "raw_string_literal" then
    some (Text.unquote n.text)
  else none

/-- `segments? n` is the path of names that leads to a field or method. -/
def segments? (n : Node) : Option (List String) :=
  match n.kind with
  | "identifier" | "field_identifier" | "package_identifier" => some [n.text]
  | "selector_expression" =>
    match _h : n.child? "operand" with
    | none => none
    | some operand =>
      match segments? operand, n.childText? "field" with
      | some path, some field => some (path ++ [field])
      | _, _ => none
  | _ => none
termination_by n.size
decreasing_by exact Node.size_child?_lt _h

/-- `calleeOf? call` is the path of names that a call calls. -/
def calleeOf? (call : Node) : Option (List String) :=
  (call.child? "function").bind segments?

/-! ## Schemas -/

/-- The names of the types of numbers. -/
def numberTypes : List String :=
  ["int", "int8", "int16", "int32", "int64", "uint", "uint8", "uint16", "uint32", "uint64",
    "uintptr", "float32", "float64", "complex64", "complex128", "byte", "rune"]

/-- `typeSchema n` is the schema of the values of the type `n`. -/
def typeSchema (n : Node) : Schema :=
  match n.kind with
  | "type_identifier" =>
    if n.text = "string" then .string
    else if n.text = "bool" then .boolean
    else if numberTypes.contains n.text then .number
    else .any
  | "slice_type" | "array_type" =>
    match _h : n.child? "element" with
    | none => .array .any
    | some inner => .array (typeSchema inner)
  | "map_type" => .object []
  | "pointer_type" | "parenthesized_type" =>
    match _h : n.firstNamed? with
    | none => .any
    | some inner => typeSchema inner
  | _ => .any
termination_by n.size
decreasing_by
  · exact Node.size_child?_lt _h
  · exact Node.size_firstNamed?_lt _h

/-- How many steps may lead from an expression to its value. -/
def maxSteps : Nat := 8

/-- The number of steps within the limit. -/
def allSteps : Nat := maxSteps + 1

/-- `eventName? u steps n` is the text of the expression `n`: a literal, a name that leads to one,
or a text behind a pointer. -/
def eventName? (u : Unit) : (steps : Nat) → Node → Option String
  | 0, _ => none
  | steps + 1, n =>
    let n := element (unwrap n)
    match literal? n with
    | some text => some text
    | none =>
      match n.kind with
      | "identifier" => ((u.lookup? n.text n).bind (·.value)).bind (eventName? u steps)
      | "call_expression" =>
        if (calleeOf? n).bind (·.getLast?) = some "NewString" then
          (childrenIn n "arguments").head?.bind (eventName? u steps)
        else none
      | _ => none

/-- `entries body` lists the elements of a literal that have a key: a field name or a literal
text. -/
def entries (body : Node) : List (String × Node) :=
  (body.namedChildren.filter (·.kind = "keyed_element")).filterMap fun entry =>
    match entry.namedChildren.head?, entry.namedChildren.getLast? with
    | some key, some value =>
      let key := element key
      let name := if key.kind = "identifier" || key.kind = "field_identifier" then some key.text
        else literal? key
      name.map (·, element value)
    | _, _ => none

/-- `fieldsOf value body` gives the elements with a key of a literal their schemas. -/
def fieldsOf (value : Node → Schema) (body : Node) : Properties :=
  Named.ofEntries ((entries body).map fun (key, n) => (key, value n))

/-- `pointerSchema name` is the schema of a value behind a pointer, made by the function `name`. -/
def pointerSchema (name : String) : Schema :=
  if name = "NewString" then .string
  else if name = "NewBool" then .boolean
  else if name.startsWith "NewFloat" || name.startsWith "NewInt" then .number
  else .any

/-- `valueSchema u steps n` is the schema of the expression `n`, found within `steps` steps. -/
def valueSchema (u : Unit) (steps : Nat) (n : Node) : Schema :=
  match steps with
  | 0 => .any
  | steps + 1 =>
    let n := element (unwrap n)
    let inner : Node → Schema := match steps with
      | 0 => fun _ => .any
      | fewer + 1 => valueSchema u fewer
    match n.kind with
    | "interpreted_string_literal" | "raw_string_literal" => .string
    | "int_literal" | "float_literal" | "imaginary_literal" | "rune_literal" => .number
    | "true" | "false" => .boolean
    | "nil" => .null
    | "literal_value" => .object (fieldsOf (valueSchema u steps) n)
    | "composite_literal" =>
      match n.child? "body" with
      | none => .any
      | some body =>
        let type := n.child? "type"
        if type.any fun t => t.kind = "slice_type" || t.kind = "array_type" ||
            t.kind = "implicit_length_array_type" then
          match body.namedChildren with
          | [] => (type.map typeSchema).getD (.array .any)
          | items => .array (Schema.arrayItems (items.map inner))
        else .object (fieldsOf inner body)
    | "identifier" =>
      match u.lookup? n.text n with
      | none => .any
      | some binding =>
        match binding.value, binding.type with
        | some value, none => valueSchema u steps value
        | some value, some type =>
          if value.kind.endsWith "_literal" then valueSchema u steps value else typeSchema type
        | none, some type => typeSchema type
        | none, none => .any
    | "call_expression" =>
      match (calleeOf? n).bind (·.getLast?) with
      | none => .any
      | some name => pointerSchema name
    | "binary_expression" =>
      if ["==", "!=", "<", "<=", ">", ">=", "&&", "||"].contains
          ((n.childText? "operator").getD "") then .boolean
      else .any
    | "unary_expression" =>
      match n.childText? "operator" with
      | some "!" => .boolean
      | some "-" | some "+" | some "^" => .number
      | _ => .any
    | _ => .any

/-- How many calls of `Set` in a row are read. -/
def maxChain : Nat := maxSteps * 8

/-- `chainFields u calls call` gives the fields that a chain of calls of `Set` adds, from the first
call of the chain on; of longer chains only the last `calls` count. -/
def chainFields (u : Unit) : (calls : Nat) → Node → Properties
  | 0, _ => []
  | calls + 1, call =>
    match call.child? "function" with
    | none => []
    | some function =>
      if function.kind = "selector_expression" && function.childText? "field" = some "Set" then
        let earlier := match (function.child? "operand").filter (·.kind = "call_expression") with
          | none => []
          | some inner => chainFields u calls inner
        match childrenIn call "arguments" with
        | key :: value :: _ =>
          match literal? key with
          | none => earlier
          | some name => Named.insert earlier name (valueSchema u allSteps value)
        | _ => earlier
      else []

/-- `propertiesOf u steps n` gives the properties of the argument `n`: the elements of a literal,
the fields of a chain of calls, or those of a variable's value. -/
def propertiesOf (u : Unit) : (steps : Nat) → Node → Properties
  | 0, _ => []
  | steps + 1, n =>
    let n := element (unwrap n)
    match n.kind with
    | "composite_literal" =>
      match n.child? "body" with
      | none => []
      | some body => fieldsOf (valueSchema u steps) body
    | "call_expression" => chainFields u (maxChain - (maxSteps - steps)) n
    | "identifier" =>
      match (u.lookup? n.text n).bind (·.value) with
      | none => []
      | some value => propertiesOf u steps value
    | _ => []

/-! ## Events -/

/-- Which fields of a provider's type hold what. -/
structure Layout where
  name : String
  properties : String
  /-- A field whose own fields count as properties. -/
  flattened : Option String

/-- `layout? provider method` tells where `provider` finds what it needs, if `method` is the one
that sends its events. -/
def layout? (provider : Provider) (method : String) : Option Layout :=
  match provider, method with
  | .segment, "Enqueue" | .posthog, "Enqueue" => some ⟨"Event", "Properties", none⟩
  | .amplitude, "Track" => some ⟨"EventType", "EventProperties", some "EventOptions"⟩
  | .snowplow, "TrackStructEvent" => some ⟨"Action", "", none⟩
  | _, _ => none

/-- `layoutFields u layout fields` gives the properties of a literal with these fields. -/
def layoutFields (u : Unit) (layout : Layout) (fields : List (String × Node)) : Properties :=
  fields.foldl (fun found (key, value) =>
    if key = layout.name then found
    else if key = layout.properties then found.merge (propertiesOf u allSteps value)
    else if some key = layout.flattened then
      if value.kind = "composite_literal" then
        match value.child? "body" with
        | none => found
        | some body => found.merge (fieldsOf (valueSchema u allSteps) body)
      else found
    else found.insert key (valueSchema u allSteps value)) []

/-- `structured? u method literal type` is the event in a literal of a provider's type. -/
def structured? (u : Unit) (method : String) (literal type : Node) :
    Option (Provider × String × Properties) :=
  match eventType? type.text with
  | none => none
  | some provider =>
    match layout? provider method, literal.child? "body" with
    | some layout, some body =>
      let fields := entries body
      match fields.lookup layout.name with
      | none => none
      | some n =>
        match eventName? u allSteps n with
        | none => none
        | some name => some (provider, name, layoutFields u layout fields)
    | _, _ => none

/-- `batch u literal type` lists the events in a literal that is a list of new events. -/
def batch (u : Unit) (literal type : Node) : List (Provider × String × Properties) :=
  if eventType? ((type.childText? "element").getD "") = some .mixpanel then
    match literal.child? "body" with
    | none => []
    | some body =>
      ((body.namedChildren.map element).filter (·.kind = "call_expression")).filterMap fun made =>
        if (calleeOf? made).bind (·.getLast?) = some "NewEvent" then
          let arguments := childrenIn made "arguments"
          match arguments.head?.bind (eventName? u allSteps) with
          | none => none
          | some name =>
            let identified := match arguments[1]? with
              | none => []
              | some n => Named.insert [] "DistinctId" (valueSchema u allSteps n)
            let properties := match arguments[2]? with
              | none => identified
              | some n => Named.merge identified (propertiesOf u allSteps n)
            some (.mixpanel, name, properties)
        else none
  else []

/-- `custom? u s arguments` is the event that a function with the signature `s` fires. -/
def custom? (u : Unit) (s : Signature) (arguments : List Node) :
    Option (Provider × String × Properties) :=
  match arguments[s.eventIndex]?.bind (eventName? u allSteps) with
  | none => none
  | some name =>
    let extras := s.extraParameters.foldl (fun fields extra =>
      match arguments[extra.index]? with
      | none => fields
      | some n => Named.insert fields extra.name (valueSchema u allSteps n)) []
    let properties := match arguments[s.propertiesIndex]? with
      | none => extras
      | some n => Named.merge extras (propertiesOf u allSteps n)
    some (.custom, name, properties)

/-- `payloads u signatures call` lists what a call sends: the event of a signature, or those of the
literals among the arguments. -/
def payloads (u : Unit) (signatures : List Signature) (call : Node) :
    List (Provider × String × Properties) :=
  match calleeOf? call with
  | none => []
  | some callee =>
    let arguments := childrenIn call "arguments"
    match Signature.find? signatures callee with
    | some s => (custom? u s arguments).toList
    | none =>
      let method := callee.getLast?.getD ""
      (arguments.map unwrap).flatMap fun argument =>
        if argument.kind = "composite_literal" then
          match argument.child? "type" with
          | none => []
          | some type =>
            if method = "Track" && type.kind = "slice_type" then batch u argument type
            else (structured? u method argument type).toList
        else []

/-- `context u call` names the function around `call`. -/
def context (u : Unit) (call : Node) : String :=
  match u.owner? call with
  | none => "global"
  | some declaration => declaration.function.getD "global"

/-- `eventsOf u signatures path call` lists the events that `call` fires. -/
def eventsOf (u : Unit) (signatures : List Signature) (path : Path) (call : Site) : List Event :=
  (payloads u signatures call.node).map fun (provider, name, properties) =>
    ⟨name, provider, properties, path, call.node.line, context u call.node⟩

/-- `calls root` lists the calls of a file, an outer call before those inside it. -/
def calls (root : Node) : List Site := (Site.root root).all.filter (·.kind = "call_expression")

/-- `events signatures path root` lists the events that the calls of a file fire. -/
def events (signatures : List Signature) (path : Path) (root : Node) : List Event :=
  let u := Unit.ofTree root
  (calls root).flatMap (eventsOf u signatures path)

end TrackingPlan.Go
