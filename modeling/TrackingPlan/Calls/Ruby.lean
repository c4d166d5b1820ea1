import TrackingPlan.Event
import TrackingPlan.Scope.Ruby
import TrackingPlan.Signature

/-!
# Tracking calls in Ruby

The events that the calls of a Ruby file fire. Most providers take their event as pairs, given as
arguments or as one hash. `events` lists the events of a file; calls below more than `maxDepth`
nested parts of the program are not looked at.
-/

namespace TrackingPlan.Ruby

/-! ## Names and hashes -/

/-- How many parts of a program may be nested. -/
def maxDepth : Nat := 20

/-- The number of nested values that are looked at. -/
def allSteps : Nat := maxDepth + 1

/-- `segments? n` is the path of names that leads to a method or constant. -/
def segments? (n : Node) : Option (List String) :=
  let after (role : String) (path : Option (List String)) : Option (List String) :=
    match path, n.childText? role with
    | some path, some name => some (path ++ [name])
    | _, _ => none
  match n.kind with
  | "constant" | "identifier" => some [n.text]
  | "scope_resolution" =>
    after "name" (match _h : n.child? "scope" with
      | none => some []
      | some inner => segments? inner)
  | "call" =>
    after "method" (match _h : n.child? "receiver" with
      | none => some []
      | some inner => segments? inner)
  | _ => none
termination_by n.size
decreasing_by all_goals exact Node.size_child?_lt _h

/-- `pairKey? pair` is the key of a pair: a label, a symbol, a text or a name. -/
def pairKey? (pair : Node) : Option String :=
  match pair.child? "key" with
  | none => none
  | some key =>
    match key.kind with
    | "hash_key_symbol" | "identifier" | "constant" => some key.text
    | "simple_symbol" => some (String.ofList (key.text.toList.dropWhile (· = ':')))
    | "string" => some (Text.unquote key.text)
    | _ => none

/-- `hashOf? s` is the hash that the expression `s` gives, behind parentheses and the methods that
give the hash itself or one like it. -/
def hashOf? (s : Site) : Option Site :=
  match s.kind with
  | "hash" => some s
  | "call" =>
    if ["compact", "compact!", "freeze"].contains ((s.childText? "method").getD "") then
      match _h : s.child? "receiver" with
      | none => none
      | some receiver => hashOf? receiver
    else none
  | "parenthesized_statements" =>
    match _h : s.first? with
    | none => none
    | some inner => hashOf? inner
  | _ => none
termination_by s.node.size
decreasing_by
  · exact Site.size_child?_lt _h
  · exact Site.size_first?_lt _h

/-- `assignedHash? s` is the hash that the assignment `s` gives to a variable. -/
def assignedHash? (s : Site) : Option (String × Site) :=
  match (s.child? "left").filter (·.kind = "identifier"), (s.child? "right").bind hashOf? with
  | some left, some hash => some (left.text, hash)
  | _, _ => none

/-- `lastFirst s` lists the sites of the node and of those in it, outer ones before inner ones and
later ones before earlier ones. -/
def lastFirst (s : Site) : List Site :=
  s :: s.children.reverse.attach.flatMap fun ⟨child, _⟩ => lastFirst child
termination_by s.node.size
decreasing_by exact Site.size_children_lt (List.mem_reverse.1 (by assumption))

/-- A Ruby file with what its names stand for. -/
structure Unit where
  /-- The directory of the file. -/
  directory : Path
  /-- The constants of the file itself. -/
  constants : Constants
  /-- The constants of all files, if they were collected. -/
  index : Option ConstantIndex
  /-- The hashes assigned to variables, the last one first. -/
  hashes : List (String × Site)

namespace Unit

/-- `ofTree index path root` tells what the names of the file `root` at `path` stand for. -/
def ofTree (index : Option ConstantIndex) (path : Path) (root : Node) : Unit where
  directory := path.parent?.getD ⟨""⟩
  constants := Constants.ofTree root
  index := index
  hashes := ((lastFirst (Site.root root)).filter (·.kind = "assignment")).filterMap assignedHash?

/-- `constant? u s` is the value of the constant that is named at `s`, from the index or else from
the file itself. -/
def constant? (u : Unit) (s : Site) : Option String :=
  let around := (s.ancestors.filterMap containerName?).reverse
  (u.index.bind fun index => index.resolve? u.directory s.text around).or
    (ownConstant? u.constants s.text around)

/-- `resolveHash? u s` is the hash that the argument `s` gives: its own, or that of a variable. -/
def resolveHash? (u : Unit) (s : Site) : Option Site :=
  match hashOf? s with
  | some hash => some hash
  | none =>
    if s.kind = "identifier" then
      ((u.hashes.filter fun (name, hash) =>
        name = s.text && hash.node.start < s.node.start).getLast?).map (·.2)
    else none

end Unit

/-- `eventName? u s` is the text of the expression `s`: a literal or a constant. -/
def eventName? (u : Unit) (s : Site) : Option String :=
  (literal? s.node).or
    (if s.kind = "constant" || s.kind = "scope_resolution" then u.constant? s else none)

/-! ## Schemas -/

/-- `pairFields value sites` gives the pairs among `sites` their schemas. -/
def pairFields (value : Site → Schema) (sites : List Site) : Properties :=
  Named.ofEntries ((sites.filter (·.kind = "pair")).filterMap fun pair =>
    (pairKey? pair.node).map fun key => (key, ((pair.child? "value").map value).getD .any))

/-- `valueSchema u steps s` is the schema of the expression `s`, read to that depth. -/
def valueSchema (u : Unit) (steps : Nat) (s : Site) : Schema :=
  match steps with
  | 0 => .any
  | steps + 1 =>
    match s.kind with
    | "string" | "simple_symbol" | "delimited_symbol" | "heredoc_beginning" => .string
    | "integer" | "float" | "rational" => .number
    | "true" | "false" => .boolean
    | "nil" => .null
    | "hash" => .object (pairFields (valueSchema u steps) s.children)
    | "array" => .array (Schema.arrayItems (s.children.map (valueSchema u steps)))
    | "unary" => if s.childText? "operator" = some "!" then .boolean else .number
    | "constant" | "scope_resolution" => if (u.constant? s).isSome then .string else .any
    | "call" =>
      match hashOf? s with
      | some hash => .object (pairFields (valueSchema u steps) hash.children)
      | none => if (literal? s.node).isSome then .string else .any
    | _ => .any
termination_by steps

/-- `propertiesOf u s` gives the properties of the argument `s`: the pairs of a hash. -/
def propertiesOf (u : Unit) (s : Option Site) : Properties :=
  match s.bind u.resolveHash? with
  | none => []
  | some hash => pairFields (valueSchema u allSteps) hash.children

/-! ## Events -/

/-- What a call sends: the provider, the name of the event, and its properties. -/
abbrev Payload := Provider × String × Properties

/-- `argumentsOf s` lists the arguments of a call. -/
def argumentsOf (s : Site) : List Site :=
  match s.child? "arguments" with
  | none => []
  | some list => list.children

/-- `positional arguments` lists the arguments that are neither pairs nor blocks. -/
def positional (arguments : List Site) : List Site :=
  arguments.filter fun s => s.kind != "pair" && s.kind != "block_argument"

/-- `keywords? u arguments` lists the pairs given as arguments, or those of a hash that is the first
argument. -/
def keywords? (u : Unit) (arguments : List Site) : Option (List (String × Site)) :=
  let pairs :=
    if arguments.any (·.kind = "pair") then some arguments
    else (arguments.head?.bind u.resolveHash?).map (·.children)
  pairs.map fun pairs => (pairs.filter (·.kind = "pair")).filterMap fun pair =>
    match pairKey? pair.node, pair.child? "value" with
    | some key, some value => some (key, value)
    | _, _ => none

/-- Under which keys a provider finds what it needs. -/
structure Keys where
  event : String
  properties : String
  /-- What tells the user; it counts as properties. -/
  identity : List String

/-- `fromKeywords? u keys keywords` is the name and the properties of the event in `keywords`. -/
def fromKeywords? (u : Unit) (keys : Keys) (keywords : List (String × Site)) :
    Option (String × Properties) := do
  let name ← (keywords.lookup keys.event).bind (eventName? u)
  let identity := keys.identity.foldl (fun fields key =>
    match keywords.lookup key with
    | none => fields
    | some value => Named.insert fields key (valueSchema u allSteps value)) []
  pure (name, Named.merge identity (propertiesOf u (keywords.lookup keys.properties)))

/-- `sent? u provider arguments` is the event that a call of a provider's method sends. -/
def sent? (u : Unit) (provider : Provider) (arguments : List Site) :
    Option (String × Properties) := do
  let places := positional arguments
  match provider with
  | .segment | .rudderstack =>
    fromKeywords? u ⟨"event", "properties", ["user_id", "anonymous_id"]⟩ (← keywords? u arguments)
  | .posthog => fromKeywords? u ⟨"event", "properties", ["distinct_id"]⟩ (← keywords? u arguments)
  | .mixpanel =>
    let name ← places[1]?.bind (eventName? u)
    let properties := propertiesOf u places[2]?
    pure (name, match places.head? with
      | none => properties
      | some user => Named.insert properties "distinct_id" (valueSchema u allSteps user))
  | .amplitude =>
    let made ← places.head?.filter (·.kind = "call")
    let maker ← segments? made.node
    if maker.getLast? = some "new" then
      fromKeywords? u ⟨"event_type", "event_properties", ["user_id"]⟩
        (← keywords? u (argumentsOf made))
    else none
  | .snowplow =>
    let keywords ← keywords? u arguments
    let name ← (keywords.lookup "action").bind (eventName? u)
    pure (name, Named.ofEntries ((keywords.filter (·.1 ≠ "action")).map fun (key, value) =>
      (key, valueSchema u allSteps value)))
  | _ => none

/-- `custom? u s arguments` is the event that a method with the signature `s` fires. -/
def custom? (u : Unit) (s : Signature) (arguments : List Site) : Option (String × Properties) := do
  let places := positional arguments
  let name ← places[s.eventIndex]?.bind (eventName? u)
  let extras := s.extraParameters.foldl (fun fields extra =>
    match places[extra.index]? with
    | none => fields
    | some value => Named.insert fields extra.name (valueSchema u allSteps value)) []
  pure (name, Named.merge extras (propertiesOf u places[s.propertiesIndex]?))

/-- `payload? u signatures call` is what a call sends: the event of a signature, or that of a
provider's method. -/
def payload? (u : Unit) (signatures : List Signature) (call : Site) : Option Payload := do
  let callee ← segments? call.node
  let arguments := argumentsOf call
  match Signature.find? signatures callee with
  | some s =>
    let (name, properties) ← custom? u s arguments
    pure (.custom, name, properties)
  | none =>
    let provider ← ProviderTable.ruby.lookup? callee
    let (name, properties) ← sent? u provider arguments
    pure (provider, name, properties)

/-- The kinds of nodes that count as nested parts of a program. -/
def nestedKinds : List String :=
  ["class", "module", "singleton_class", "method", "singleton_method", "block",
    "do_block", "lambda",
    "if", "unless", "elsif", "case", "when", "while", "until", "for", "begin", "rescue", "ensure",
    "call"]

/-- `callsFrom depth s` lists the calls at `s` and in it, when `s` lies in `depth` nested parts. -/
def callsFrom (depth : Nat) (s : Site) : List Site :=
  if depth > maxDepth then []
  else
    let deeper := if nestedKinds.contains s.kind then depth + 1 else depth
    (if s.kind = "call" then [s] else []) ++
      s.children.attach.flatMap fun ⟨child, _⟩ => callsFrom deeper child
termination_by s.node.size
decreasing_by exact Site.size_children_lt (by assumption)

/-- `context s` names the method around `s`; outside methods it tells whether `s` is in a block. -/
def context (s : Site) : String :=
  let methods := s.ancestors.filter fun n => n.kind = "method" || n.kind = "singleton_method"
  match methods.findSome? (·.childText? "name") with
  | some name => name
  | none =>
    if s.ancestors.any fun n => ["block", "do_block", "lambda"].contains n.kind then "block"
    else "global"

/-- `event? u signatures path call` is the event that `call` fires. -/
def event? (u : Unit) (signatures : List Signature) (path : Path) (call : Site) : Option Event :=
  (payload? u signatures call).map fun (provider, name, properties) =>
    ⟨name, provider, properties, path, call.node.line, context call⟩

/-- `calls root` lists the calls of a file that are looked at, an outer call before those inside
it. -/
def calls (root : Node) : List Site := callsFrom 0 (Site.root root)

/-- `events index signatures path root` lists the events that the calls of a file fire. -/
def events (index : Option ConstantIndex) (signatures : List Signature) (path : Path)
    (root : Node) : List Event :=
  let u := Unit.ofTree index path root
  (calls root).filterMap (event? u signatures path)

end TrackingPlan.Ruby
