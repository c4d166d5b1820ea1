import TrackingPlan.Proofs.Tables
import TrackingPlan.Script.Calls

/-!
# What types add to the events of a script

A script that is read without its types fires the same calls as one that is read with them: types
tell more about values, but never what an event is called. `keys_propertiesOf_untype` is the
induction over the steps from an argument to its properties, and `plain_events_typed` the statement
on the events of a script.
-/

namespace TrackingPlan.Script

/-- `untype modules` is what a script sees of other modules when its types tell nothing. -/
def Modules.untype (modules : Modules) : Modules := { modules with typed := false }

/-- `untype scope` is the scope of a script whose types tell nothing. -/
def Scope.untype (scope : Scope) : Scope := { scope with modules := scope.modules.untype }

variable {modules : Modules}

/-! ## Event names -/

/-- Within so many hops, types do not count for the texts that names and expressions lead to. -/
structure UntypedTexts (modules : Modules) (hops : Nat) : Prop where
  constant : ∀ m name members place, stringConstant? modules.untype hops m name members place =
    stringConstant? modules hops m name members place
  value : ∀ m value members,
    stringIn? modules.untype hops m value members = stringIn? modules hops m value members
  exported : ∀ m name members,
    exportedString? modules.untype hops m name members = exportedString? modules hops m name members

/-- Texts do not depend on types. -/
theorem untypedTexts (modules : Modules) (hops : Nat) : UntypedTexts modules hops := by
  have himported : modules.untype.imported = modules.imported := rfl
  induction hops with
  | zero => exact ⟨fun _ _ _ _ => rfl, fun _ _ _ => rfl, fun _ _ _ => rfl⟩
  | succ hops ih =>
      refine ⟨fun m name members place => ?_, fun m value members => ?_, fun m name members => ?_⟩
      · simp only [stringConstant?, himported, ih.value, ih.exported]
      · simp only [stringIn?, ih.constant, ih.value]
      · simp only [exportedString?, himported, ih.constant, ih.exported]

/-- Event names do not depend on types. -/
theorem eventName?_untype (m : Module) (argument : Site) :
    eventName? modules.untype m argument = eventName? modules m argument := by
  simp only [eventName?, (untypedTexts modules allHops).constant]

/-! ## Properties -/

/-- `addEntry value name spread fields entry` adds an entry of an object to the fields before it. -/
def addEntry (value name : Site → Schema) (spread : Site → Properties) (fields : Properties)
    (entry : Site) : Properties :=
  match entry.kind with
  | "pair" =>
    match (entry.node.child? "key").bind key? with
    | none => fields
    | some key =>
      fields.insert key (match entry.child? "value" with
        | none => .any
        | some v => value v)
  | "shorthand_property_identifier" => fields.insert entry.text (name entry)
  | "spread_element" =>
    match entry.first? with
    | none => fields
    | some inner => fields.merge (spread inner)
  | _ => fields

/-- The fields of an object are added entry by entry. -/
theorem objectFields_eq (value name : Site → Schema) (spread : Site → Properties) (object : Site) :
    objectFields value name spread object =
      object.children.foldl (addEntry value name spread) [] := rfl

section Fields

variable {value value' name name' : Site → Schema} {spread spread' : Site → Properties}
  {fields fields' : Properties}

/-- Wider spreads and wider fields give wider fields. -/
theorem keys_addEntry_subset (hspread : ∀ s, (spread s).keys ⊆ (spread' s).keys)
    (hfields : fields.keys ⊆ fields'.keys) (entry : Site) :
    (addEntry value name spread fields entry).keys ⊆
      (addEntry value' name' spread' fields' entry).keys := by
  unfold addEntry
  split
  · cases (entry.node.child? "key").bind key? with
    | none => exact hfields
    | some key => exact Named.keys_insert_subset hfields key _ _
  · exact Named.keys_insert_subset hfields entry.text _ _
  · cases entry.first? with
    | none => exact hfields
    | some inner => exact Named.keys_merge_subset hfields (hspread inner)
  · exact hfields

/-- An object has the keys of its entries, whatever is known about their values. -/
theorem keys_objectFields_subset (hspread : ∀ s, (spread s).keys ⊆ (spread' s).keys)
    (object : Site) :
    (objectFields value name spread object).keys ⊆
      (objectFields value' name' spread' object).keys := by
  rw [objectFields_eq, objectFields_eq]
  refine List.foldl_rel (r := fun a b : Properties => a.keys ⊆ b.keys) (List.Subset.refl _) ?_
  intro entry _ fields fields' hfields
  exact keys_addEntry_subset hspread hfields entry

end Fields

/-- The properties of an argument are found without types, except for those that its type adds. -/
theorem keys_propertiesOf_untype (scope : Scope) (hops : Nat) (s : Site) :
    (propertiesOf scope.untype hops s).keys ⊆ (propertiesOf scope hops s).keys := by
  induction hops using Nat.strongRecOn generalizing s with
  | ind hops ih =>
      cases hops with
      | zero => simp [propertiesOf]
      | succ hops =>
          have hresolve : resolveObject? scope.untype s = resolveObject? scope s := rfl
          rw [propertiesOf, propertiesOf, hresolve]
          cases resolveObject? scope s with
          | some object =>
              exact keys_objectFields_subset (fun inner => ih (hops - 1) (by omega) inner) object
          | none =>
              dsimp only
              split
              · have hlookup : scope.untype.module = scope.module := rfl
                rw [hlookup]
                cases scope.module.lookup? (unwrap s).text (unwrap s).node with
                | none => exact List.Subset.refl _
                | some binding =>
                    dsimp only
                    cases (binding.value.map unwrap).filter (·.kind = "identifier") with
                    | some next => exact ih hops (by omega) next
                    | none =>
                        cases binding.annotation with
                        | none => exact List.Subset.refl _
                        | some type => exact List.nil_subset _
              · exact List.Subset.refl _

/-- With types an object has the keys that it has without, and perhaps more. -/
theorem keys_fieldsOfObject_untype (scope : Scope) (object : Site) :
    (fieldsOfObject scope.untype object).keys ⊆ (fieldsOfObject scope object).keys :=
  keys_objectFields_subset (keys_propertiesOf_untype scope maxHops) object

/-! ## Events -/

/-- The second payload names the same event as the first, and may have more properties. -/
structure Widens (found wider : String × Properties) : Prop where
  name : found.1 = wider.1
  keys : found.2.keys ⊆ wider.2.keys

/-- The second event is that of the same call as the first, and may have more properties. -/
structure EventWidens (e wider : Event) : Prop where
  name : e.name = wider.name
  provider : e.provider = wider.provider
  file : e.file = wider.file
  line : e.line = wider.line
  function : e.function = wider.function
  keys : e.properties.keys ⊆ wider.properties.keys

/-- With types the payload of arguments at their places is as wide as without, or wider. -/
theorem positional?_untype (scope : Scope) (arguments : List Site) (event properties : Nat) :
    Option.Rel Widens (positional? scope.untype arguments event properties)
      (positional? scope arguments event properties) := by
  unfold positional?
  cases arguments[event]? with
  | none => exact .none
  | some argument =>
      have hname : eventName? scope.untype.modules scope.untype.module argument =
        eventName? scope.modules scope.module argument := eventName?_untype scope.module argument
      dsimp only
      rw [hname]
      cases eventName? scope.modules scope.module argument with
      | none => exact .none
      | some name =>
          refine .some ⟨rfl, ?_⟩
          cases arguments[properties]? with
          | none => exact List.Subset.refl _
          | some fields => exact keys_propertiesOf_untype scope allHops fields

/-- With types the payload of an object with a key for the event is as wide as without, or wider. -/
theorem keyed?_untype (scope : Scope) (payload : Site) (key : String) :
    Option.Rel Widens (keyed? scope.untype payload key) (keyed? scope payload key) := by
  have hresolve : resolveObject? scope.untype payload = resolveObject? scope payload := rfl
  have hname : eventName? scope.untype.modules scope.untype.module =
    eventName? scope.modules scope.module := funext (eventName?_untype scope.module)
  unfold keyed?
  rw [hresolve, hname]
  cases resolveObject? scope payload with
  | none => exact .none
  | some object =>
      dsimp only
      cases (member? object key).bind (eventName? scope.modules scope.module) with
      | none => exact .none
      | some name =>
          exact .some ⟨rfl, Named.keys_erase_subset (keys_fieldsOfObject_untype scope object) key⟩

/-- With types the payload of a provider is as wide as without, or wider. -/
theorem payload?_untype (scope : Scope) (provider : Provider) (arguments : List Site) :
    Option.Rel Widens (payload? scope.untype provider arguments)
      (payload? scope provider arguments) := by
  unfold payload?
  split
  · cases arguments with
    | nil => exact .none
    | cons first rest =>
        dsimp only
        split
        · exact positional?_untype scope (first :: rest) 1 2
        · exact .none
  · cases arguments with
    | nil => exact .none
    | cons first rest =>
        have hpayload :
          structuredPayload? scope.untype first = structuredPayload? scope first := rfl
        dsimp only
        rw [hpayload]
        cases structuredPayload? scope first with
        | none => exact .none
        | some payload => exact keyed?_untype scope payload "action"
  · cases arguments with
    | nil => exact .none
    | cons first rest => exact keyed?_untype scope first "event"
  · exact positional?_untype scope arguments 0 2
  · exact positional?_untype scope arguments 0 1

/-- With types the payload of a signature is as wide as without, or wider. -/
theorem customPayload?_untype (scope : Scope) (s : Signature) (arguments : List Site) :
    Option.Rel Widens (customPayload? scope.untype s arguments)
      (customPayload? scope s arguments) := by
  have hpositional := positional?_untype scope arguments s.eventIndex s.propertiesIndex
  unfold customPayload?
  generalize positional? scope.untype arguments s.eventIndex s.propertiesIndex =
    found at hpositional ⊢
  generalize positional? scope arguments s.eventIndex s.propertiesIndex = wider at hpositional ⊢
  cases hpositional with
  | none => exact .none
  | some hwidens =>
      obtain ⟨hname, hkeys⟩ := hwidens
      refine .some ⟨hname, ?_⟩
      -- each further parameter adds its own key on both sides
      refine List.foldl_rel (r := fun a b : Properties => a.keys ⊆ b.keys) hkeys ?_
      intro extra _ fields fields' hfields
      cases arguments[extra.index]? with
      | none => exact hfields
      | some argument => exact Named.keys_insert_subset hfields extra.name _ _

/-- With types the event of a call is as wide as without, or wider. -/
theorem event?_untype (scope : Scope) (signatures : List Signature) (call : Site) :
    Option.Rel EventWidens (event? scope.untype signatures call)
      (event? scope signatures call) := by
  unfold event?
  cases (call.node.child? "function").bind segments? with
  | none => exact .none
  | some callee =>
      -- signatures and providers choose by the callee alone
      have hevent (provider : Provider) {found wider : Option (String × Properties)}
          (h : Option.Rel Widens found wider) :
          Option.Rel EventWidens
            ((found.map (provider, ·)).map fun payload =>
              ⟨payload.2.1, payload.1, payload.2.2, scope.module.path, call.node.line,
                context call⟩)
            ((wider.map (provider, ·)).map fun payload =>
              ⟨payload.2.1, payload.1, payload.2.2, scope.module.path, call.node.line,
                context call⟩) := by
        cases h with
        | none => exact .none
        | some hwidens => exact .some ⟨hwidens.name, rfl, rfl, rfl, rfl, hwidens.keys⟩
      dsimp only
      cases Signature.find? signatures callee with
      | some s => exact hevent .custom (customPayload?_untype scope s (argumentsOf call))
      | none =>
          dsimp only
          cases ProviderTable.javaScript.lookup? callee with
          | none => exact .none
          | some provider =>
              exact hevent provider (payload?_untype scope provider (argumentsOf call))

/-- The calls of a script fire the same events with and without types, but for properties that types
add. -/
theorem events_untype (modules : Modules) (signatures : List Signature) (m : Module) :
    List.Forall₂ EventWidens (events modules.untype signatures m)
      (events modules signatures m) := by
  refine List.rel_filterMap (R := Eq) ?_ (List.forall₂_refl (calls m.root))
  rintro call _ rfl
  exact event?_untype ⟨modules, m⟩ signatures call

/-- A script that stands alone fires the same events as a plain script and as a typed one, in the
same order; every property of the plain script's event is one of the typed script's as well. -/
theorem plain_events_typed (signatures : List Signature) (m : Module) :
    List.Forall₂ EventWidens (events .untyped signatures m) (events .localTypes signatures m) :=
  events_untype .localTypes signatures m

end TrackingPlan.Script
