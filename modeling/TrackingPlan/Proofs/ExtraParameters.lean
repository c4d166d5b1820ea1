import TrackingPlan.Analysis
import TrackingPlan.Proofs.CustomEvents

/-!
# The properties that extra parameters give

An extra parameter of a signature is a property with the schema of its argument. Scripts and Python
keep to that whatever the properties argument says. Ruby and Go do so only for keys that the
properties argument has not, since it is merged last. `extra_parameters_reported` is the main
statement, and `properties_hide_extra` a call that the languages read differently.
-/

namespace TrackingPlan

/-- Where a signature matches the callee and finds a name, the events `found` are one of that name,
in which every extra parameter of a unique name that has an argument among `places` has the schema
that `schema` gives it. -/
def ReportsExtras {α : Type} (signatures : List Signature) (callee? : Option (List String))
    (name? : Signature → Option String) (places : List α)
    (schema : Signature → ExtraParameter → α → Schema) (found : List Event) : Prop :=
  ∀ callee s name, callee? = some callee → Signature.find? signatures callee = some s →
    name? s = some name →
    ∃ event, found = [event] ∧ event.provider = .custom ∧ event.name = name ∧
      ∀ extra ∈ s.extraParameters, s.IsUnique extra →
        ∀ argument, places[extra.index]? = some argument →
          Named.find? event.properties extra.name = some (schema s extra argument)

section

variable {α : Type} {signatures : List Signature} {callee? : Option (List String)}
  {name? : Signature → Option String} {places : List α} {value : α → Schema}
  {given : Signature → Properties} {found : List Event}

/-- A custom event reports the extra parameters that its properties have. -/
theorem HasCustomEvent.reportsExtras_of_find? {properties : Signature → Properties}
    {schema : Signature → ExtraParameter → α → Schema}
    (h : HasCustomEvent signatures callee? name? properties found)
    (hextras : ∀ s, ∀ extra ∈ s.extraParameters, s.IsUnique extra → ∀ argument,
      places[extra.index]? = some argument → Named.find? (properties s) extra.name =
        some (schema s extra argument)) :
    ReportsExtras signatures callee? name? places schema found := by
  intro callee s name hcallee hfind hname
  obtain ⟨event, hfound, hprovider, hevent, hproperties⟩ := h callee s name hcallee hfind hname
  exact ⟨event, hfound, hprovider, hevent, hproperties ▸ hextras s⟩

/-- Extra parameters that are added last have the schemas of their arguments. -/
theorem HasCustomEvent.reportsExtras
    (h : HasCustomEvent signatures callee? name? (fun s =>
      s.withExtras value places (given s)) found) :
    ReportsExtras signatures callee? name? places (fun _ _ argument => value argument) found :=
  h.reportsExtras_of_find? fun _ _ hextra hunique _ hargument =>
    Signature.find?_withExtras hextra hunique hargument

/-- Extra parameters that properties are merged into have the schemas of their arguments where these
properties have none. -/
theorem HasCustomEvent.reportsExtras_of_merge (hgiven : ∀ s, (given s).Ordered)
    (h : HasCustomEvent signatures callee? name?
      (fun s => Named.merge (s.withExtras value places []) (given s)) found) :
    ReportsExtras signatures callee? name? places
      (fun s extra argument => (Named.find? (given s) extra.name).getD (value argument)) found := by
  refine h.reportsExtras_of_find? fun s extra hextra hunique argument hargument => ?_
  rw [(hgiven s).find?_merge, Signature.find?_withExtras hextra hunique hargument, Option.or_some]

end

/-- In every language a matched call that gives a name has one event, and an extra parameter of a
unique name with an argument is a property of it. In scripts and Python it has the schema of the
argument; in Ruby and Go that of the properties argument, if this has the key, and else that of the
argument. -/
theorem extra_parameters_reported (signatures : List Signature) :
    (∀ (modules : Script.Modules) (m : Script.Module) (call : Site),
      ReportsExtras signatures ((call.node.child? "function").bind Script.segments?)
        (fun s => (Script.argumentsOf call)[s.eventIndex]?.bind (Script.eventName? modules m))
        (Script.argumentsOf call)
        (fun _ _ argument => Script.valueSchema ⟨modules, m⟩ Script.allHops argument)
        (Script.event? ⟨modules, m⟩ signatures call).toList) ∧
    (∀ (path : Path) (root : Node) (call : Site),
      let u := Python.Unit.ofTree root
      let places := (Python.Arguments.ofCall call.node).positional
      ReportsExtras signatures (Python.calleeOf? call.node)
        (fun s => places[s.eventIndex]?.bind (Python.eventName? u)) places
        (fun _ _ argument => Python.valueSchema u Python.allSteps argument)
        (Python.event? u signatures path call).toList) ∧
    (∀ (index : Option Ruby.ConstantIndex) (path : Path) (root : Node) (call : Site),
      let u := Ruby.Unit.ofTree index path root
      let places := Ruby.positional (Ruby.argumentsOf call)
      ReportsExtras signatures (Ruby.segments? call.node)
        (fun s => places[s.eventIndex]?.bind (Ruby.eventName? u)) places
        (fun s extra argument =>
          (Named.find? (Ruby.propertiesOf u places[s.propertiesIndex]?) extra.name).getD
            (Ruby.valueSchema u Ruby.allSteps argument))
        (Ruby.event? u signatures path call).toList) ∧
    (∀ (path : Path) (root : Node) (call : Site),
      let u := Go.Unit.ofTree root
      let places := Go.childrenIn call.node "arguments"
      ReportsExtras signatures (Go.calleeOf? call.node)
        (fun s => places[s.eventIndex]?.bind (Go.eventName? u Go.allSteps)) places
        (fun s extra argument =>
          (Named.find? ((places[s.propertiesIndex]?.map (Go.propertiesOf u Go.allSteps)).getD [])
            extra.name).getD (Go.valueSchema u Go.allSteps argument))
        (Go.eventsOf u signatures path call)) := by
  refine ⟨fun modules m call => ?_, fun path root call => ?_, fun index path root call => ?_,
    fun path root call => ?_⟩
  · exact (@Script.hasCustomEvent_event? ⟨modules, m⟩ signatures call).reportsExtras
  · exact Python.hasCustomEvent_event?.reportsExtras
  · exact Ruby.hasCustomEvent_event?.reportsExtras_of_merge fun s => Ruby.ordered_propertiesOf
  · refine Go.hasCustomEvent_eventsOf.reportsExtras_of_merge fun s => ?_
    cases (Go.childrenIn call.node "arguments")[s.propertiesIndex]? with
    | none => exact Named.ordered_nil
    | some argument => exact Go.ordered_propertiesOf

/-! ## A call that the languages read differently -/

/-- The signature `track(EVENT_NAME, plan, PROPERTIES)`. -/
def planSignature : Signature := ⟨"track", ["track"], 0, 2, [⟨1, "plan"⟩]⟩

/-- `plans language text` lists the schemas of the plan in the events of a file. -/
def plans (language : Language) (text : String) : List (Option Schema) :=
  (Analysis.eventsAlone language [planSignature] ⟨"a"⟩ (Source.ofString text)).map fun event =>
    Named.find? event.properties "plan"

/-- A call that gives the plan twice, as a text and as a number. -/
def twoPlans : String := "track('Signup', 'u1', \x7b plan: 5 \x7d)\n"

/-- In Ruby and Go a number in the properties argument hides the text that is the argument of the
extra parameter; scripts report the text. -/
theorem properties_hide_extra :
    Signature.read "track(EVENT_NAME, plan, PROPERTIES)" = .ok planSignature ∧
    (let root := Ruby.read (Source.ofString twoPlans)
     let u := Ruby.Unit.ofTree none ⟨"a.rb"⟩ root
     ∃ call ∈ Ruby.calls root,
      let places := Ruby.positional (Ruby.argumentsOf call)
      ¬ReportsExtras [planSignature] (Ruby.segments? call.node)
        (fun s => places[s.eventIndex]?.bind (Ruby.eventName? u)) places
        (fun _ _ argument => Ruby.valueSchema u Ruby.allSteps argument)
        (Ruby.event? u [planSignature] ⟨"a.rb"⟩ call).toList) ∧
    plans .javaScript twoPlans = [some .string] ∧
    plans .go
      "func f() \x7b\n\ttrack(\"Signup\", \"u1\", map[string]any\x7b\"plan\": 5\x7d)\n\x7d\n" =
      [some .number] := by
  refine ⟨by decide +kernel, ?_, by decide +kernel, by decide +kernel⟩
  intro root u
  have hview : (Ruby.calls root).map (fun call =>
      (Ruby.segments? call.node,
        (Ruby.positional (Ruby.argumentsOf call))[0]?.bind (Ruby.eventName? u),
        (Ruby.positional (Ruby.argumentsOf call))[1]?.map (Ruby.valueSchema u Ruby.allSteps),
        (Ruby.event? u [planSignature] ⟨"a.rb"⟩ call).map fun event =>
          Named.find? event.properties "plan")) =
      [(some ["track"], some "Signup", some .string, some (some .number))] := by
    decide +kernel
  obtain ⟨call, hcalls, hcall⟩ := List.map_eq_singleton_iff.1 hview
  simp only [Prod.mk.injEq] at hcall
  obtain ⟨hcallee, hname, hargument, hevent⟩ := hcall
  obtain ⟨argument, hplace, hschema⟩ := Option.map_eq_some_iff.1 hargument
  refine ⟨call, by simp [hcalls], fun hreports => ?_⟩
  obtain ⟨event, hfound, -, -, hextras⟩ :=
    hreports ["track"] planSignature "Signup" hcallee rfl hname
  have hextra :
      Named.find? event.properties "plan" = some (Ruby.valueSchema u Ruby.allSteps argument) :=
    hextras ⟨1, "plan"⟩ List.mem_cons_self (fun other hother _ => List.mem_singleton.1 hother)
      argument hplace
  rw [Option.toList_eq_singleton_iff.1 hfound, Option.map_some, hextra, hschema] at hevent
  exact absurd hevent (by decide)

end TrackingPlan
