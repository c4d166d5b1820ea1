import TrackingPlan.Event
import TrackingPlan.Scope.Python
import TrackingPlan.Signature
import TrackingPlan.Text.Unquote

/-!
# Tracking calls in Python

The events that the calls of a Python file fire. Arguments are given by position or by keyword; two
providers take an event as a value that is made in place. `events` lists the events of a file.
-/

namespace TrackingPlan.Python

/-! ## Literals, names and arguments -/

/-- `inside? mark body` is what stands in `body` between two marks of that spelling. -/
def inside? (mark body : List Char) : Option (List Char) :=
  if 2 * mark.length ≤ body.length && mark.isPrefixOf body && mark.isSuffixOf body then
    some ((body.drop mark.length).take (body.length - 2 * mark.length))
  else none

/-- The marks that a text stands between, the longer ones first. -/
def marks : List (List Char) :=
  ["\"\"\"", "'''", "\"", "'"].map (·.toList)

/-- `unquoted? text` is what stands in `text` between marks, behind the letters of a prefix. -/
def unquoted? (text : String) : Option String :=
  let body := text.toList.dropWhile (·.isAlpha)
  (marks.findSome? (inside? · body)).map String.ofList

/-- `literal? n` is the text of a text without embedded values. -/
def literal? (n : Node) : Option String :=
  if n.kind = "string" && !n.namedChildren.any (·.kind = "interpolation") then unquoted? n.text
  else none

/-- `segments? n` is the path of names that leads to a function or attribute. -/
def segments? (n : Node) : Option (List String) :=
  match n.kind with
  | "identifier" => some [n.text]
  | "attribute" =>
    match _h : n.child? "object" with
    | none => none
    | some object =>
      match segments? object, n.childText? "attribute" with
      | some path, some name => some (path ++ [name])
      | _, _ => none
  | _ => none
termination_by n.size
decreasing_by exact Node.size_child?_lt _h

/-- `calleeOf? call` is the path of names that a call calls. -/
def calleeOf? (call : Node) : Option (List String) :=
  (call.child? "function").bind segments?

/-- The arguments of a call. -/
structure Arguments where
  positional : List Node
  keywords : List (String × Node)

namespace Arguments

/-- `keyword? n` is the name and the value of a keyword argument. -/
def keyword? (n : Node) : Option (String × Node) :=
  match n.childText? "name", n.child? "value" with
  | some name, some value => some (name, value)
  | _, _ => none

/-- `ofCall call` lists the arguments of a call, without those that spread a value. -/
def ofCall (call : Node) : Arguments :=
  let all := match call.child? "arguments" with
    | none => []
    | some list => list.namedChildren
  { positional := all.filter fun n =>
      !(["keyword_argument", "list_splat", "dictionary_splat"].contains n.kind)
    keywords := (all.filter (·.kind = "keyword_argument")).filterMap keyword? }

/-- `named? args name` is the first keyword argument of that name. -/
def named? (args : Arguments) (name : String) : Option Node :=
  args.keywords.lookup name

/-- `find? args index name` is the keyword argument `name`, or else the argument at `index`. -/
def find? (args : Arguments) (index : Nat) (name : String) : Option Node :=
  (args.named? name).or args.positional[index]?

end Arguments

/-! ## Names and properties -/

/-- `eventName? u n` is the text of the expression `n`: a literal, a name that is bound to one, or a
constant. -/
def eventName? (u : Unit) (n : Node) : Option String :=
  match literal? n with
  | some text => some text
  | none =>
    match n.kind with
    | "identifier" =>
      (((u.lookup? n.text n).bind (·.value)).or (u.constants.lookup n.text)).bind literal?
    | "attribute" =>
      match segments? n with
      | none => none
      | some path => (u.constants.lookup (".".intercalate path)).bind literal?
    | _ => none

/-- How many steps may lead from an expression to its value. -/
def maxSteps : Nat := 8

/-- The number of steps within the limit. -/
def allSteps : Nat := maxSteps + 1

/-- `dictionaryFields value n` gives the pairs of the dictionary `n` whose key is a literal text
their schemas. -/
def dictionaryFields (value : Node → Schema) (n : Node) : Properties :=
  Named.ofEntries ((n.namedChildren.filter (·.kind = "pair")).filterMap fun pair =>
    ((pair.child? "key").bind literal?).map fun key =>
      (key, ((pair.child? "value").map value).getD .any))

/-- `keywordFields value keywords` gives keyword arguments their schemas. -/
def keywordFields (value : Node → Schema) (keywords : List (String × Node)) : Properties :=
  Named.ofEntries (keywords.map fun (name, n) => (name, value n))

/-- `constructedFields? value call` gives the fields of a dictionary made by a call of `dict`: those
of a leading literal, and then the keyword arguments. -/
def constructedFields? (value : Node → Schema) (call : Node) : Option Properties :=
  if (call.child? "function").any fun f => f.kind = "identifier" && f.text = "dict" then
    let args := Arguments.ofCall call
    let leading := match args.positional.head? with
      | none => []
      | some first => if first.kind = "dictionary" then dictionaryFields value first else []
    some (Named.merge leading (keywordFields value args.keywords))
  else none

/-- `valueSchema u steps n` is the schema of the expression `n`, found within `steps` steps. -/
def valueSchema (u : Unit) (steps : Nat) (n : Node) : Schema :=
  match steps with
  | 0 => .any
  | steps + 1 =>
    let named : Schema := if (eventName? u n).isSome then .string else .any
    match n.kind with
    | "string" | "concatenated_string" => .string
    | "integer" | "float" | "unary_operator" => .number
    | "true" | "false" | "comparison_operator" | "not_operator" => .boolean
    | "none" => .null
    | "dictionary" => .object (dictionaryFields (valueSchema u steps) n)
    | "list" | "tuple" | "set" =>
      .array (Schema.arrayItems (n.namedChildren.map (valueSchema u steps)))
    | "parenthesized_expression" => (n.firstNamed?.map (valueSchema u steps)).getD .any
    | "identifier" =>
      match u.lookup? n.text n with
      | none => named
      | some binding =>
        match binding.annotation, binding.value with
        | some annotation, _ => annotationSchema annotation.text
        | none, some value => valueSchema u steps value
        | none, none => named
    | "attribute" => named
    | "call" => ((constructedFields? (valueSchema u steps) n).map Schema.object).getD .any
    | _ => .any
termination_by steps

/-- `mapping? u n` gives the fields of a dictionary or of a call of `dict`. -/
def mapping? (u : Unit) (n : Node) : Option Properties :=
  match n.kind with
  | "dictionary" => some (dictionaryFields (valueSchema u allSteps) n)
  | "call" => constructedFields? (valueSchema u allSteps) n
  | _ => none

/-- `propertiesOf u n` gives the properties of the argument `n`: the fields of a dictionary, or of
one that a name is bound to. -/
def propertiesOf (u : Unit) (n : Option Node) : Properties :=
  match n with
  | none => []
  | some n =>
    let source := if n.kind = "identifier" then (u.lookup? n.text n).bind (·.value) else some n
    (source.bind (mapping? u)).getD []

/-- `keywordsExcept u args skipped` gives the keyword arguments but `skipped` their schemas. -/
def keywordsExcept (u : Unit) (args : Arguments) (skipped : String) : Properties :=
  keywordFields (valueSchema u allSteps) (args.keywords.filter (·.1 ≠ skipped))

/-! ## Events -/

/-- What a call sends: the provider, the name of the event, and its properties. -/
abbrev Payload := Provider × String × Properties

/-- `carried? u args` is the event that the first argument makes in place. -/
def carried? (u : Unit) (args : Arguments) : Option Payload := do
  let made ← args.positional.head?.filter (·.kind = "call")
  let maker ← (← calleeOf? made).getLast?
  let inner := Arguments.ofCall made
  if maker = "BaseEvent" then
    let name ← (inner.find? 0 "event_type").bind (eventName? u)
    pure (.amplitude, name, propertiesOf u (inner.named? "event_properties"))
  else if maker = "StructuredEvent" then
    let name ← (inner.named? "action").bind (eventName? u)
    pure (.snowplow, name, keywordsExcept u inner "action")
  else none

/-- `nameArgument? provider args` is the argument that names the event. -/
def nameArgument? (provider : Provider) (args : Arguments) : Option Node :=
  match provider with
  | .snowplow => args.named? "action"
  | .posthog => args.find? (if 2 ≤ args.positional.length then 1 else 0) "event"
  | .mixpanel => args.find? 1 "event_name"
  | _ => args.find? 1 "event"

/-- `sent? u callee args` is the event that a call of a provider's function sends. -/
def sent? (u : Unit) (callee : List String) (args : Arguments) : Option Payload := do
  let provider ← ProviderTable.python.lookup? callee
  let name ← (nameArgument? provider args).bind (eventName? u)
  let properties := match provider with
    | .snowplow => keywordsExcept u args "action"
    | _ => propertiesOf u (args.find? 2 "properties")
  pure (provider, name, properties)

/-- `custom? u s args` is the event that a function with the signature `s` fires. -/
def custom? (u : Unit) (s : Signature) (args : Arguments) : Option Payload := do
  let name ← args.positional[s.eventIndex]?.bind (eventName? u)
  let properties := s.extraParameters.foldl (fun fields extra =>
    match args.positional[extra.index]? with
    | none => fields
    | some n => Named.insert fields extra.name (valueSchema u allSteps n))
    (propertiesOf u args.positional[s.propertiesIndex]?)
  pure (.custom, name, properties)

/-- `payload? u signatures call` is what a call sends: the event of a signature, one made in place,
or that of a provider's function. -/
def payload? (u : Unit) (signatures : List Signature) (call : Node) : Option Payload :=
  match calleeOf? call with
  | none => none
  | some callee =>
    let args := Arguments.ofCall call
    match Signature.find? signatures callee with
    | some s => custom? u s args
    | none =>
      let made := if callee.getLast? = some "track" then carried? u args else none
      made.or (sent? u callee args)

/-- `context s` names the function around `s`. -/
def context (s : Site) : String :=
  ((s.ancestors.filter (·.kind = "function_definition")).findSome? (·.childText? "name")).getD
    "global"

/-- `event? u signatures path call` is the event that `call` fires. -/
def event? (u : Unit) (signatures : List Signature) (path : Path) (call : Site) : Option Event :=
  (payload? u signatures call.node).map fun (provider, name, properties) =>
    ⟨name, provider, properties, path, call.node.line, context call⟩

/-- `calls root` lists the calls of a file, an outer call before those inside it. -/
def calls (root : Node) : List Site := (Site.root root).all.filter (·.kind = "call")

/-- `events signatures path root` lists the events that the calls of a file fire. -/
def events (signatures : List Signature) (path : Path) (root : Node) : List Event :=
  let u := Unit.ofTree root
  (calls root).filterMap (event? u signatures path)

end TrackingPlan.Python
