import TrackingPlan.Proofs.TypedScripts

/-!
# Payloads of literals

A payload that is written out from literals is read off the tree alone: `literalSchema` needs
neither names nor types. A sign before a number is an operator, which only typed scripts look at. So
`literal_payloads` gives the properties of a payload up to the schema of its signed numbers, and the
same properties in every script if there are none. By `events_of_literals`, a script whose calls
have such arguments fires the same events with types as without.
-/

namespace TrackingPlan.Script

variable {signs : Bool} {levels : Nat} {n : Node} {s : Site}

/-! ## Literals -/

/-- `isSignedNumber n` holds of numbers with a sign. -/
def isSignedNumber (n : Node) : Bool :=
  n.kind = "unary_expression" && ["-", "+"].any (n.childText? "operator" = some ·) &&
    (n.child? "argument").any (·.kind = "number")

/-- `isLiteral signs levels n` holds of what is written out from literals in fewer than `levels`
levels; its numbers have no signs unless `signs` is true. -/
def isLiteral (signs : Bool) : (levels : Nat) → Node → Bool
  | 0, _ => false
  | levels + 1, n =>
    match n.kind with
    | "string" | "number" | "true" | "false" | "null" => true
    | "template_string" => (literal? n).isSome
    | "unary_expression" => signs && isSignedNumber n
    | "array" => n.namedChildren.all (isLiteral signs levels)
    | "object" =>
      n.namedChildren.all fun entry =>
        entry.kind = "pair" && (entry.child? "value").all (isLiteral signs levels)
    | _ => false

/-- The forms that a literal may have. -/
inductive LiteralForm (signs : Bool) (levels : Nat) (n : Node) : Prop where
  | text (h : n.kind = "string" ∨ n.kind = "template_string")
  | number (h : n.kind = "number")
  | signed (h : n.kind = "unary_expression") (hsigns : signs = true)
      (hsigned : isSignedNumber n = true)
  | boolean (h : n.kind = "true" ∨ n.kind = "false")
  | null (h : n.kind = "null")
  | array (h : n.kind = "array") (hitems : ∀ c ∈ n.namedChildren, isLiteral signs levels c = true)
  | object (h : n.kind = "object") (hpairs : ∀ c ∈ n.namedChildren, c.kind = "pair")
      (hvalues : ∀ c ∈ n.namedChildren, ∀ v, c.child? "value" = some v →
        isLiteral signs levels v = true)

/-- An object that is a literal has pairs, whose values are literals of a level less. -/
theorem pairs_of_isLiteral (h : isLiteral signs (levels + 1) n = true)
    (hobject : n.kind = "object") :
    (∀ c ∈ n.namedChildren, c.kind = "pair") ∧
      ∀ c ∈ n.namedChildren, ∀ v, c.child? "value" = some v → isLiteral signs levels v = true := by
  simp only [isLiteral, hobject, List.all_eq_true, Bool.and_eq_true, decide_eq_true_eq] at h
  refine ⟨fun c hc => (h c hc).1, fun c hc v hv => ?_⟩
  have hvalue := (h c hc).2
  rwa [hv, Option.all_some] at hvalue

/-- A literal has one of the forms of literals. -/
theorem literalForm_of_isLiteral (h : isLiteral signs (levels + 1) n = true) :
    LiteralForm signs levels n := by
  have hform := h
  rw [isLiteral] at hform
  split at hform
  next hkind => exact .text (.inl hkind)
  next hkind => exact .number hkind
  next hkind => exact .boolean (.inl hkind)
  next hkind => exact .boolean (.inr hkind)
  next hkind => exact .null hkind
  next hkind => exact .text (.inr hkind)
  next hkind =>
    obtain ⟨hsigns, hsigned⟩ := Bool.and_eq_true_iff.1 hform
    exact .signed hkind hsigns hsigned
  next hkind => exact .array hkind (List.all_eq_true.1 hform)
  next hkind =>
    obtain ⟨hpairs, hvalues⟩ := pairs_of_isLiteral h hkind
    exact .object hkind hpairs hvalues
  next => cases hform

/-- The kinds of literals. -/
def literalKinds : List String :=
  ["string", "template_string", "number", "unary_expression", "true", "false", "null",
    "array", "object"]

/-- The kind of a literal is one of theirs. -/
theorem kind_mem_of_isLiteral (h : isLiteral signs levels n = true) : n.kind ∈ literalKinds := by
  cases levels with
  | zero => cases h
  | succ levels =>
      cases literalForm_of_isLiteral h with
      | text hkind => rcases hkind with hkind | hkind <;> simp [literalKinds, hkind]
      | boolean hkind => rcases hkind with hkind | hkind <;> simp [literalKinds, hkind]
      | _ hkind => simp [literalKinds, hkind]

/-- A literal is of no kind that literals do not have. -/
theorem kind_ne_of_isLiteral {kind : String} (h : isLiteral signs levels n = true)
    (hkind : kind ∉ literalKinds) : n.kind ≠ kind :=
  fun heq => hkind (heq ▸ kind_mem_of_isLiteral h)

/-- There is nothing to unwrap about a literal. -/
theorem unwrap_of_isLiteral (h : isLiteral signs levels s.node = true) : unwrap s = s := by
  have hinner : inner? s = none := by
    have hne {kind : String} (hkind : kind ∉ literalKinds) : s.kind ≠ kind :=
      kind_ne_of_isLiteral h hkind
    unfold inner?
    split
    next hkind => exact absurd hkind (hne (by decide))
    next hkind => exact absurd hkind (hne (by decide))
    next hkind => exact absurd hkind (hne (by decide))
    next hkind => exact absurd hkind (hne (by decide))
    next hkind => exact absurd hkind (hne (by decide))
    next => rfl
  unfold unwrap
  split
  next => rfl
  next inner hsome => rw [hinner] at hsome; cases hsome

/-! ## Their schemas -/

/-- `pairSchemas value object` gives the fields of an object of pairs, with `value` for their
values; the last of a key counts. -/
def pairSchemas (value : Node → Schema) (object : Node) : Properties :=
  Named.ofEntries (object.namedChildren.filterMap fun pair =>
    ((pair.child? "key").bind key?).map fun key =>
      (key, ((pair.child? "value").map value).getD .any))

/-- `schemaOfLiteral signed hops n` is the schema of the literal `n`, found within `hops` steps,
where numbers with a sign have the schema `signed`. -/
def schemaOfLiteral (signed : Schema) : (hops : Nat) → Node → Schema
  | 0, _ => .any
  | hops + 1, n =>
    match n.kind with
    | "string" | "template_string" => .string
    | "number" => .number
    | "unary_expression" => signed
    | "true" | "false" => .boolean
    | "null" => .null
    | "array" => .array (Schema.arrayItems (n.namedChildren.map (schemaOfLiteral signed hops)))
    | "object" => .object (pairSchemas (schemaOfLiteral signed hops) n)
    | _ => .any

/-- `signedSchema scope` is what a number with a sign is known to be. -/
def signedSchema (scope : Scope) : Schema := if scope.modules.typed then .number else .any

/-- The pairs of a node have the same schemas if their values have. -/
theorem pairSchemas_congr {value value' : Node → Schema}
    (h : ∀ c ∈ n.namedChildren, ∀ v, c.child? "value" = some v → value v = value' v) :
    pairSchemas value n = pairSchemas value' n := by
  refine congrArg Named.ofEntries (List.filterMap_congr fun c hc => ?_)
  cases hv : c.child? "value" with
  | none => rfl
  | some v => rw [Option.map_some, Option.map_some, h c hc v hv]

/-- Without signs, the schema of signed numbers does not count. -/
theorem schemaOfLiteral_of_unsigned (signed other : Schema) (h : isLiteral false levels n = true)
    (hops : Nat) :
    schemaOfLiteral signed hops n = schemaOfLiteral other hops n := by
  induction levels generalizing n hops with
  | zero => cases h
  | succ levels ih =>
      cases hops with
      | zero => rfl
      | succ hops =>
          cases literalForm_of_isLiteral h with
          | text hkind => rcases hkind with hkind | hkind <;> simp [schemaOfLiteral, hkind]
          | number hkind => simp [schemaOfLiteral, hkind]
          | signed hkind hsigns => cases hsigns
          | boolean hkind => rcases hkind with hkind | hkind <;> simp [schemaOfLiteral, hkind]
          | null hkind => simp [schemaOfLiteral, hkind]
          | array hkind hitems =>
              have hschemas : n.namedChildren.map (schemaOfLiteral signed hops) =
                  n.namedChildren.map (schemaOfLiteral other hops) :=
                List.map_congr_left fun c hc => ih (hitems c hc) hops
              simp [schemaOfLiteral, hkind, hschemas]
          | object hkind hpairs hvalues =>
              have hfields : pairSchemas (schemaOfLiteral signed hops) n =
                  pairSchemas (schemaOfLiteral other hops) n :=
                pairSchemas_congr fun c hc v hv => ih (hvalues c hc v hv) hops
              simp [schemaOfLiteral, hkind, hfields]

/-- Without signs the schemas of pairs do not depend on that of signed numbers, or on the hops. -/
theorem pairSchemas_of_unsigned (h : isLiteral false levels n = true) (hobject : n.kind = "object")
    (signed other : Schema) (hops : Nat) :
    pairSchemas (schemaOfLiteral signed hops) n = pairSchemas (schemaOfLiteral other hops) n := by
  cases levels with
  | zero => cases h
  | succ levels =>
      exact pairSchemas_congr fun c hc v hv =>
        schemaOfLiteral_of_unsigned signed other ((pairs_of_isLiteral h hobject).2 c hc v hv) hops

/-! ## What scripts read -/

/-- An object of nothing but pairs has the fields of these pairs, whatever its names and spreads
would give. -/
theorem objectFields_of_pairs {value name : Site → Schema} {spread : Site → Properties}
    {value' : Node → Schema} (hpairs : ∀ c ∈ s.node.namedChildren, c.kind = "pair")
    (hvalues : ∀ c ∈ s.node.namedChildren, ∀ v, c.child? "value" = some v →
      value ((s.below c).below v) = value' v) :
    objectFields value name spread s = pairSchemas value' s.node := by
  rw [objectFields_eq, pairSchemas, Named.ofEntries, Named.merge, Site.children, List.foldl_map,
    List.foldl_filterMap]
  refine List.foldl_ext _ _ _ fun fields c hc => ?_
  have hkind : (s.below c).kind = "pair" := hpairs c hc
  have hkey : (s.below c).node.child? "key" = c.child? "key" := rfl
  have hvalue : (s.below c).child? "value" = (c.child? "value").map (s.below c).below := rfl
  rw [addEntry, hkind]
  rw [hkey, hvalue]
  cases (c.child? "key").bind key? with
  | none => rfl
  | some key =>
      cases hv : c.child? "value" with
      | none => rfl
      | some v => exact congrArg (fields.insert key) (hvalues c hc v hv)

/-- The schema of a literal is read off its tree: neither names nor types count, but for signs. -/
theorem valueSchema_of_literal (scope : Scope) (h : isLiteral signs levels s.node = true)
    (hops : Nat) :
    valueSchema scope hops s = schemaOfLiteral (signedSchema scope) hops s.node := by
  induction levels generalizing s hops with
  | zero => cases h
  | succ levels ih =>
      cases hops with
      | zero => rw [valueSchema, schemaOfLiteral]
      | succ hops =>
          cases literalForm_of_isLiteral h with
          | text hkind =>
              rcases hkind with hkind | hkind <;>
                simp [valueSchema, schemaOfLiteral, Site.kind, hkind]
          | number hkind => simp [valueSchema, schemaOfLiteral, Site.kind, hkind]
          | signed hkind _ hsigned =>
              have hnumber : unarySchema s = .number := by
                simp only [isSignedNumber, List.any_cons, List.any_nil, Bool.or_false,
                  Bool.and_eq_true, Bool.or_eq_true, decide_eq_true_eq] at hsigned
                rcases hsigned.1.2 with hoperator | hoperator <;>
                  simp [unarySchema, Site.childText?, hoperator]
              simp [valueSchema, schemaOfLiteral, signedSchema, Site.kind, hkind, hnumber]
          | boolean hkind =>
              rcases hkind with hkind | hkind <;>
                simp [valueSchema, schemaOfLiteral, Site.kind, hkind]
          | null hkind => simp [valueSchema, schemaOfLiteral, Site.kind, hkind]
          | array hkind hitems =>
              -- no literal is a spread, so that all items count
              have hkept :
                  s.children.filter (fun c => decide (c.kind ≠ "spread_element")) = s.children := by
                refine List.filter_eq_self.2 fun c hc => ?_
                obtain ⟨item, hitem, rfl⟩ := List.mem_map.1 hc
                exact decide_eq_true (kind_ne_of_isLiteral (hitems item hitem) (by decide))
              have hschemas : s.children.map (valueSchema scope hops) =
                  s.node.namedChildren.map (schemaOfLiteral (signedSchema scope) hops) := by
                rw [Site.children, List.map_map]
                exact List.map_congr_left fun item hitem =>
                  ih (s := s.below item) (hitems item hitem) hops
              have hvalue : valueSchema scope (hops + 1) s = .array (Schema.arrayItems
                  ((s.children.filter (·.kind ≠ "spread_element")).map
                    (valueSchema scope hops))) := by
                simp [valueSchema, Site.kind, hkind]
              rw [hvalue, hkept, hschemas]
              simp [schemaOfLiteral, hkind]
          | object hkind hpairs hvalues =>
              have hfields : objectFields (valueSchema scope hops)
                  (fun name =>
                    if scope.modules.typed then nameSchema scope hops name.text name else .any)
                  (propertiesOf scope (hops - 1)) s =
                    pairSchemas (schemaOfLiteral (signedSchema scope) hops) s.node :=
                objectFields_of_pairs hpairs fun c hc v hv =>
                  ih (s := (s.below c).below v) (hvalues c hc v hv) hops
              simp only [valueSchema, schemaOfLiteral, Site.kind, hkind, hfields]

/-- An object of literals has the schemas of its pairs, whatever its names and spreads would
give. -/
theorem objectFields_of_literal {name : Site → Schema} {spread : Site → Properties} (scope : Scope)
    (h : isLiteral signs levels s.node = true) (hobject : s.kind = "object") (hops : Nat) :
    objectFields (valueSchema scope hops) name spread s =
      pairSchemas (schemaOfLiteral (signedSchema scope) hops) s.node := by
  cases levels with
  | zero => cases h
  | succ levels =>
      obtain ⟨hpairs, hvalues⟩ := pairs_of_isLiteral h hobject
      exact objectFields_of_pairs hpairs fun c hc v hv =>
        valueSchema_of_literal (s := (s.below c).below v) scope (hvalues c hc v hv) hops

/-- A literal leads to an object if it is one. -/
theorem resolveObject?_of_literal (scope : Scope) (h : isLiteral signs levels s.node = true) :
    resolveObject? scope s = if s.kind = "object" then some s else none := by
  have hname : s.kind ≠ "identifier" := kind_ne_of_isLiteral h (by decide)
  simp only [resolveObject?, unwrap_of_isLiteral h, if_neg hname]

/-- An object of literals has the fields of its pairs, and other literals have none. -/
theorem propertiesOf_of_literal (scope : Scope) (h : isLiteral signs levels s.node = true)
    (hops : Nat) :
    propertiesOf scope (hops + 1) s =
      if s.kind = "object" then pairSchemas (schemaOfLiteral (signedSchema scope) hops) s.node
          else [] := by
  have hname : s.kind ≠ "identifier" := kind_ne_of_isLiteral h (by decide)
  rw [propertiesOf, resolveObject?_of_literal scope h]
  by_cases hobject : s.kind = "object"
  · simp only [if_pos hobject]
    exact objectFields_of_literal scope h hobject hops
  · simp only [if_neg hobject, unwrap_of_isLiteral h, if_neg hname]

/-- The fields of a literal are those of its pairs. -/
theorem fieldsOfObject_of_literal (scope : Scope) (h : isLiteral signs levels s.node = true)
    (hobject : s.kind = "object") :
    fieldsOfObject scope s = pairSchemas (schemaOfLiteral (signedSchema scope) allHops) s.node :=
  objectFields_of_literal scope h hobject allHops

/-! ## Payloads -/

/-- The properties of an object of literals are the schemas of its pairs, where signed numbers are
numbers in typed scripts and anything in others. If no number is signed, the properties are the same
in every script. -/
theorem literal_payloads {levels : Nat} {object : Site} (hobject : object.kind = "object")
    (h : isLiteral true levels object.node = true) (scope : Scope) :
    propertiesOf scope allHops object =
        pairSchemas (schemaOfLiteral (if scope.modules.typed then .number else .any) maxHops)
          object.node ∧
      valueSchema scope allHops object = .object (propertiesOf scope allHops object) ∧
      fieldsOfObject scope object =
        pairSchemas (schemaOfLiteral (if scope.modules.typed then .number else .any) allHops)
          object.node ∧
      (isLiteral false levels object.node = true → ∀ other : Scope,
        propertiesOf other allHops object = propertiesOf scope allHops object ∧
        valueSchema other allHops object = valueSchema scope allHops object ∧
        fieldsOfObject other object = fieldsOfObject scope object) := by
  have hproperties (scope : Scope) : propertiesOf scope allHops object =
      pairSchemas (schemaOfLiteral (signedSchema scope) maxHops) object.node := by
    rw [allHops, propertiesOf_of_literal scope h, if_pos hobject]
  have hvalue (scope : Scope) : valueSchema scope allHops object =
      .object (propertiesOf scope allHops object) := by
    have hkind : object.node.kind = "object" := hobject
    rw [hproperties, valueSchema_of_literal scope h, allHops]
    simp only [schemaOfLiteral, hkind]
  have hfields (scope : Scope) := fieldsOfObject_of_literal scope h hobject
  refine ⟨hproperties scope, hvalue scope, hfields scope, fun hunsigned other => ?_⟩
  have hsame := pairSchemas_of_unsigned hunsigned hobject (signedSchema other) (signedSchema scope)
  have hpayload : propertiesOf other allHops object = propertiesOf scope allHops object := by
    rw [hproperties, hproperties, hsame]
  exact ⟨hpayload, by rw [hvalue, hvalue, hpayload], by rw [hfields, hfields, hsame]⟩

/-- `payloadOf? source` is the second argument of the first call of a plain script. -/
def payloadOf? (source : String) : Option Site :=
  (calls (Script.read .javaScript (Source.ofString source))).head?.bind fun call =>
    (argumentsOf call)[1]?

/-- A call with a payload of literals without signs. -/
def trialCall : String :=
  "track('Trial', \x7bplan: `pro`, seats: [1, 2], 'trial': \x7bdays: 14, paid: null\x7d\x7d)"

/-- The properties of that call. -/
def trialProperties : Properties :=
  [("plan", .string), ("seats", .array .number),
    ("trial", .object [("days", .number), ("paid", .null)])]

/-- The sample payload is a literal without signs, and has the same properties in every scope. -/
theorem literal_payloads_of_trial :
    ∃ object, payloadOf? trialCall = some object ∧ object.kind = "object" ∧
      isLiteral true 3 object.node = true ∧ isLiteral false 3 object.node = true ∧
      ∀ scope, propertiesOf scope allHops object = trialProperties := by
  have hchecked : (payloadOf? trialCall).map (fun object =>
        (object.kind, isLiteral true 3 object.node, isLiteral false 3 object.node,
          pairSchemas (schemaOfLiteral .any maxHops) object.node)) =
      some ("object", true, true, trialProperties) := by
    decide +kernel
  obtain ⟨object, hobject, hread⟩ := Option.map_eq_some_iff.1 hchecked
  simp only [Prod.mk.injEq] at hread
  obtain ⟨hkind, hliteral, hunsigned, hproperties⟩ := hread
  refine ⟨object, hobject, hkind, hliteral, hunsigned, fun scope => ?_⟩
  obtain ⟨huntyped, -, -, hsame⟩ :=
    literal_payloads hkind hliteral ⟨.untyped, .ofTree ⟨"a.js"⟩ object.node⟩
  rw [(hsame hunsigned scope).1, huntyped, ← hproperties]
  rfl

/-- A signed number is a number in a typed script, and anything in a plain one. -/
theorem signed_number_untyped :
    let call := "analytics.track('Signed Up', \x7bbalance: -5\x7d)"
    let plain := Module.ofTree ⟨"a.js"⟩ (Script.read .javaScript (Source.ofString call))
    let typed := Module.ofTree ⟨"a.ts"⟩ (Script.read .typeScript (Source.ofString call))
    (payloadOf? call).map (fun object => isLiteral true 2 object.node) = some true ∧
      (events .untyped [] plain).map (·.properties) = [[("balance", .any)]] ∧
      (events .localTypes [] typed).map (·.properties) = [[("balance", .number)]] := by
  decide +kernel

/-! ## Events -/

/-- All arguments are written out from literals, without signs. -/
def AreLiterals (arguments : List Site) : Prop :=
  ∀ argument ∈ arguments, ∃ levels, isLiteral false levels argument.node = true

section Events

variable {scope : Scope} {arguments : List Site}

/-- The properties of an argument do not depend on types. -/
theorem AreLiterals.propertiesOf_untype (h : AreLiterals arguments) {argument : Site}
    (hmem : argument ∈ arguments) :
    propertiesOf scope.untype allHops argument = propertiesOf scope allHops argument := by
  obtain ⟨levels, hliteral⟩ := h argument hmem
  rw [allHops, propertiesOf_of_literal _ hliteral, propertiesOf_of_literal _ hliteral]
  split
  next hobject => exact pairSchemas_of_unsigned hliteral hobject _ _ maxHops
  next => rfl

/-- The schema of an argument does not depend on types. -/
theorem AreLiterals.valueSchema_untype (h : AreLiterals arguments) {argument : Site}
    (hmem : argument ∈ arguments) :
    valueSchema scope.untype allHops argument = valueSchema scope allHops argument := by
  obtain ⟨levels, hliteral⟩ := h argument hmem
  rw [valueSchema_of_literal _ hliteral, valueSchema_of_literal _ hliteral,
    schemaOfLiteral_of_unsigned _ _ hliteral]

/-- The payload of arguments at their places does not depend on types. -/
theorem AreLiterals.positional?_untype (h : AreLiterals arguments) (event properties : Nat) :
    positional? scope.untype arguments event properties =
      positional? scope arguments event properties := by
  have hname : eventName? scope.untype.modules scope.untype.module =
      eventName? scope.modules scope.module := funext (eventName?_untype scope.module)
  simp only [positional?, hname]
  cases hargument : arguments[properties]? with
  | none => rfl
  | some argument => simp only [h.propertiesOf_untype (List.mem_of_getElem? hargument)]

/-- The payload of an object with a key for the event does not depend on types. -/
theorem AreLiterals.keyed?_untype (h : AreLiterals arguments) {payload : Site}
    (hmem : payload ∈ arguments)
    (key : String) : keyed? scope.untype payload key = keyed? scope payload key := by
  obtain ⟨levels, hliteral⟩ := h payload hmem
  have hname : eventName? scope.untype.modules scope.untype.module =
      eventName? scope.modules scope.module := funext (eventName?_untype scope.module)
  simp only [keyed?, hname, resolveObject?_of_literal _ hliteral]
  by_cases hobject : payload.kind = "object"
  · have hfields : fieldsOfObject scope.untype payload = fieldsOfObject scope payload := by
      rw [fieldsOfObject_of_literal _ hliteral hobject,
        fieldsOfObject_of_literal _ hliteral hobject]
      exact pairSchemas_of_unsigned hliteral hobject _ _ allHops
    simp only [if_pos hobject, hfields]
  · simp only [if_neg hobject]

/-- The payload of a provider does not depend on types. -/
theorem AreLiterals.payload?_untype (h : AreLiterals arguments) (provider : Provider) :
    payload? scope.untype provider arguments = payload? scope provider arguments := by
  cases arguments with
  | nil => cases provider <;> rfl
  | cons first rest =>
      -- no literal is the call that builds a structured event
      have hstructured (scope : Scope) : structuredPayload? scope first = none := by
        obtain ⟨levels, hliteral⟩ := h first List.mem_cons_self
        have hname : first.kind ≠ "identifier" := kind_ne_of_isLiteral hliteral (by decide)
        have hcall : first.node.kind ≠ "call_expression" :=
          kind_ne_of_isLiteral hliteral (by decide)
        simp [structuredPayload?, unwrap_of_isLiteral hliteral, hname, isCallOf, hcall]
      have hkeyed (key : String) : keyed? scope.untype first key = keyed? scope first key :=
        h.keyed?_untype List.mem_cons_self key
      cases provider <;> simp only [payload?, hstructured, h.positional?_untype, hkeyed,
        Option.bind_none]

/-- The payload of a signature does not depend on types. -/
theorem AreLiterals.customPayload?_untype (h : AreLiterals arguments) (s : Signature) :
    customPayload? scope.untype s arguments = customPayload? scope s arguments := by
  unfold customPayload?
  rw [h.positional?_untype]
  cases positional? scope arguments s.eventIndex s.propertiesIndex with
  | none => rfl
  | some found =>
      obtain ⟨name, properties⟩ := found
      refine congrArg (fun fields => some (name, fields))
        (List.foldl_ext _ _ _ fun fields extra _ => ?_)
      cases hargument : arguments[extra.index]? with
      | none => rfl
      | some argument => simp only [h.valueSchema_untype (List.mem_of_getElem? hargument)]

/-- The event of a call does not depend on types. -/
theorem AreLiterals.event?_untype {call : Site} (h : AreLiterals (argumentsOf call))
    (signatures : List Signature) :
    event? scope.untype signatures call = event? scope signatures call := by
  simp only [event?, h.customPayload?_untype, h.payload?_untype]
  rfl

end Events

/-- A script whose calls take literals without signs fires the same events with types as without. -/
theorem events_of_literals (modules : Modules) (signatures : List Signature) (m : Module)
    (h : ∀ call ∈ calls m.root, AreLiterals (argumentsOf call)) :
    events modules.untype signatures m = events modules signatures m := by
  refine List.filterMap_congr fun call hcall => ?_
  have hevent :
      event? (Scope.untype ⟨modules, m⟩) signatures call = event? ⟨modules, m⟩ signatures call :=
    (h call hcall).event?_untype signatures
  exact hevent

end TrackingPlan.Script
