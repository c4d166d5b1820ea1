import TrackingPlan.Event
import TrackingPlan.Script.Values
import TrackingPlan.Signature

/-!
# Tracking calls in scripts

The events that the calls of a script fire. A call that a signature accepts is an event of the
user's own; any other call is looked up among the providers, each of which takes the event name and
the properties from its own places. `events` lists the events of a script in the order of its calls.
-/

namespace TrackingPlan.Script

/-! ## The function around a call -/

/-- The function name of calls outside any function. -/
def globalContext : String := "global"

/-- The hooks whose callbacks are named after the component around them. -/
def hooks : List String :=
  ["useEffect", "useLayoutEffect", "useInsertionEffect", "useCallback", "useMemo", "useReducer",
    "useState", "useImperativeHandle", "useDeferredValue", "useTransition"]

/-- `isFunction n` holds of functions written as expressions. -/
def isFunction (n : Node) : Bool :=
  ["arrow_function", "function_expression", "function", "generator_function"].contains n.kind

/-- `functionName? n` is the name that `n` gives to the function it is or binds. -/
def functionName? (n : Node) : Option String :=
  let binds (role : String) : Bool := (n.child? role).any isFunction
  match n.kind with
  | "function_declaration" | "generator_function_declaration" =>
    some ((n.childText? "name").getD "anonymous")
  | "method_definition" => n.childText? "name"
  | "variable_declarator" =>
    if binds "value" then ((n.child? "name").filter (·.kind = "identifier")).map Node.text
    else none
  | "pair" =>
    if binds "value" then
      (n.childText? "key").map (Text.trimMatching fun c => c = '"' || c = '\'')
    else none
  | "public_field_definition" => if binds "value" then n.childText? "name" else none
  | "field_definition" => if binds "value" then n.childText? "property" else none
  | "assignment_expression" =>
    if binds "right" then (n.childText? "left").map (Text.lastPart '.') else none
  | _ => none

/-- `hookName? n` is the hook that `n` calls. -/
def hookName? (n : Node) : Option String :=
  if n.kind = "call_expression" then
    match n.child? "function" with
    | none => none
    | some callee =>
      let name := match callee.kind with
        | "identifier" => some callee.text
        | "member_expression" => callee.childText? "property"
        | _ => none
      name.filter hooks.contains
  else none

/-- `contextFrom hook ancestors` names the nearest function among `ancestors`; the first hook called
on the way there follows its name. -/
def contextFrom (hook : Option String) : List Node → String
  | [] => hook.getD globalContext
  | n :: rest =>
    let hook := hook.or (hookName? n)
    match functionName? n with
    | none => contextFrom hook rest
    | some name =>
      match hook with
      | none => name
      | some hook => name ++ "." ++ hook

/-- `context call` names the function around `call`. -/
def context (call : Site) : String := contextFrom none call.ancestors

/-! ## Events -/

/-- `positional? scope arguments event properties` takes the event name and the properties from two
arguments. -/
def positional? (scope : Scope) (arguments : List Site) (event properties : Nat) :
    Option (String × Properties) :=
  match arguments[event]? with
  | none => none
  | some argument =>
    match eventName? scope.modules scope.module argument with
    | none => none
    | some name =>
      some (name, match arguments[properties]? with
        | none => []
        | some argument => propertiesOf scope allHops argument)

/-- `keyed? scope payload key` takes the event name from the field `key` of an object, and the
properties from its other fields. -/
def keyed? (scope : Scope) (payload : Site) (key : String) : Option (String × Properties) :=
  match resolveObject? scope payload with
  | none => none
  | some object =>
    match (member? object key).bind (eventName? scope.modules scope.module) with
    | none => none
    | some name => some (name, (fieldsOfObject scope object).erase key)

/-- `structuredPayload? scope argument` is the object that is passed to the call that builds a
structured event, which stands at `argument` or is the value of the variable there. -/
def structuredPayload? (scope : Scope) (argument : Site) : Option Site :=
  let payload := unwrap argument
  let payload := if payload.kind = "identifier" then
      ((scope.module.lookup? payload.text payload.node).bind (·.value)).map unwrap
    else some payload
  match payload with
  | none => none
  | some payload =>
    if isCallOf payload.node "buildStructEvent" then (argumentsOf payload).head? else none

/-- `payload? scope provider arguments` is what `provider` takes from the arguments of a call. -/
def payload? (scope : Scope) (provider : Provider) (arguments : List Site) :
    Option (String × Properties) :=
  match provider with
  | .googleAnalytics =>
    match arguments with
    | [] => none
    | first :: _ =>
      if literal? first.node = some "event" then positional? scope arguments 1 2 else none
  | .snowplow =>
    match arguments with
    | [] => none
    | first :: _ => (structuredPayload? scope first).bind (keyed? scope · "action")
  | .gtm =>
    match arguments with
    | [] => none
    | first :: _ => keyed? scope first "event"
  | .mparticle => positional? scope arguments 0 2
  | _ => positional? scope arguments 0 1

/-- `customPayload? scope s arguments` is what a function with the signature `s` takes from the
arguments of a call. -/
def customPayload? (scope : Scope) (s : Signature) (arguments : List Site) :
    Option (String × Properties) :=
  match positional? scope arguments s.eventIndex s.propertiesIndex with
  | none => none
  | some (name, properties) =>
    some (name, s.extraParameters.foldl (fun fields extra =>
      match arguments[extra.index]? with
      | none => fields
      | some argument => fields.insert extra.name (valueSchema scope allHops argument))
      properties)

/-- `event? scope signatures call` is the event that `call` fires. -/
def event? (scope : Scope) (signatures : List Signature) (call : Site) : Option Event :=
  match (call.node.child? "function").bind segments? with
  | none => none
  | some callee =>
    let arguments := argumentsOf call
    let found := match Signature.find? signatures callee with
      | some s => (customPayload? scope s arguments).map (Provider.custom, ·)
      | none =>
        match ProviderTable.javaScript.lookup? callee with
        | none => none
        | some provider => (payload? scope provider arguments).map (provider, ·)
    found.map fun (provider, name, properties) =>
      ⟨name, provider, properties, scope.module.path, call.node.line, context call⟩

/-- `calls root` lists the calls of a script, an outer call before those inside it. -/
def calls (root : Node) : List Site := (Site.root root).all.filter (·.kind = "call_expression")

/-- `events modules signatures m` lists the events that the calls of `m` fire. -/
def events (modules : Modules) (signatures : List Signature) (m : Module) : List Event :=
  (calls m.root).filterMap (event? ⟨modules, m⟩ signatures)

end TrackingPlan.Script
