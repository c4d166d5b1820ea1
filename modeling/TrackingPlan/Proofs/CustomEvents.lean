import Mathlib.Data.List.Induction
import TrackingPlan.Proofs.EventSchemas

/-!
# The events of the user's own functions

A call that a signature matches has one event if the argument at the place of the name gives one.
`HasCustomEvent` says which, and holds in every language, but the languages do not put the
properties together alike: scripts and Python add the extra parameters to the properties argument,
and Ruby and Go merge the properties argument into the extra parameters.
-/

namespace TrackingPlan

/-! ## Extra parameters -/

namespace Signature

variable {α : Type} {s : Signature} {value : α → Schema} {places : List α} {argument : α}
  {given : Properties} {extra : ExtraParameter}

/-- `withExtras s value places given` adds to the properties `given` the arguments among `places`
that the extra parameters of `s` stand for. -/
def withExtras (s : Signature) (value : α → Schema) (places : List α) (given : Properties) :
    Properties :=
  s.extraParameters.foldl (fun fields extra =>
    match places[extra.index]? with
    | none => fields
    | some argument => Named.insert fields extra.name (value argument)) given

/-- No other extra parameter of the signature has the name of this one. -/
def IsUnique (s : Signature) (extra : ExtraParameter) : Prop :=
  ∀ other ∈ s.extraParameters, other.name = extra.name → other = extra

/-- An extra parameter of its own name has the schema of its argument. -/
theorem find?_withExtras (hextra : extra ∈ s.extraParameters) (hunique : s.IsUnique extra)
    (hargument : places[extra.index]? = some argument) :
    Named.find? (s.withExtras value places given) extra.name = some (value argument) := by
  unfold withExtras IsUnique at *
  generalize s.extraParameters = extras at hextra hunique ⊢
  induction extras using List.reverseRecOn with
  | nil => cases hextra
  | append_singleton before last ih =>
      rw [List.foldl_append, List.foldl_cons, List.foldl_nil]
      by_cases hname : last.name = extra.name
      · obtain rfl := hunique last (by simp) hname
        simp [hargument, Named.find?_insert]
      · have hbefore : extra ∈ before := by
          rcases List.mem_append.1 hextra with hmem | hmem
          · exact hmem
          · exact absurd (List.mem_singleton.1 hmem ▸ rfl) hname
        have hrest := ih hbefore fun other hother => hunique other (List.mem_append_left _ hother)
        cases places[last.index]? with
        | none => exact hrest
        | some other => simpa [Named.find?_insert, hname] using hrest

/-- Arguments that are put in one by one are the extra parameters with their arguments. -/
theorem foldl_eq_withExtras {step : Properties → ExtraParameter → Properties}
    (hstep : ∀ fields extra, step fields extra = match places[extra.index]? with
      | none => fields
      | some argument => Named.insert fields extra.name (value argument)) :
    s.extraParameters.foldl step given = s.withExtras value places given := by
  obtain rfl : step = _ := funext fun fields => funext fun extra => hstep fields extra
  rfl

/-- A signature without extra parameters adds nothing. -/
theorem withExtras_of_eq_nil (h : s.extraParameters = []) :
    s.withExtras value places given = given := by
  rw [withExtras, h, List.foldl_nil]

end Signature

/-! ## Matched calls -/

/-- Where a signature matches the callee and finds a name, the events `found` are one of that name,
with the properties that the signature finds. -/
def HasCustomEvent (signatures : List Signature) (callee? : Option (List String))
    (name? : Signature → Option String) (properties : Signature → Properties) (found : List Event) :
    Prop :=
  ∀ callee s name, callee? = some callee → Signature.find? signatures callee = some s →
    name? s = some name → ∃ event, found = [event] ∧ event.provider = .custom ∧ event.name = name ∧
      event.properties = properties s

section Script

variable {scope : Script.Scope} {signatures : List Signature} {call : Site}

/-- In scripts the extra parameters are added to the properties argument. -/
theorem Script.hasCustomEvent_event? :
    HasCustomEvent signatures ((call.node.child? "function").bind segments?)
      (fun s => (argumentsOf call)[s.eventIndex]?.bind (eventName? scope.modules scope.module))
      (fun s => s.withExtras (valueSchema scope allHops) (argumentsOf call)
        (((argumentsOf call)[s.propertiesIndex]?.map (propertiesOf scope allHops)).getD []))
      (event? scope signatures call).toList := by
  intro callee s name hcallee hfind hname
  obtain ⟨place, hplace, hname⟩ := Option.bind_eq_some_iff.1 hname
  simp only [event?, hcallee, hfind, customPayload?, positional?, hplace, hname, Option.map_some,
    Option.toList_some]
  refine ⟨_, rfl, rfl, rfl, ?_⟩
  cases (argumentsOf call)[s.propertiesIndex]? <;>
    exact Signature.foldl_eq_withExtras fun fields extra => by
      cases (argumentsOf call)[extra.index]? <;> rfl

end Script

section Python

variable {u : Python.Unit} {signatures : List Signature} {path : Path} {call : Site}

/-- In Python the extra parameters are added to the properties argument. -/
theorem Python.hasCustomEvent_event? :
    HasCustomEvent signatures (calleeOf? call.node)
      (fun s => (Arguments.ofCall call.node).positional[s.eventIndex]?.bind (eventName? u))
      (fun s => s.withExtras (valueSchema u allSteps) (Arguments.ofCall call.node).positional
        (propertiesOf u (Arguments.ofCall call.node).positional[s.propertiesIndex]?))
      (event? u signatures path call).toList := by
  intro callee s name hcallee hfind hname
  simp only [event?, payload?, hcallee, hfind, custom?, hname]
  refine ⟨_, rfl, rfl, rfl, ?_⟩
  exact Signature.foldl_eq_withExtras fun fields extra => by
    cases (Arguments.ofCall call.node).positional[extra.index]? <;> rfl

end Python

section Ruby

variable {u : Ruby.Unit} {signatures : List Signature} {path : Path} {call : Site}

/-- The properties of an argument are in name order. -/
theorem Ruby.ordered_propertiesOf {s : Option Site} : (propertiesOf u s).Ordered :=
  (canonical_propertiesOf s).ordered

/-- In Ruby the properties argument is merged into the extra parameters. -/
theorem Ruby.hasCustomEvent_event? :
    HasCustomEvent signatures (segments? call.node)
      (fun s => (positional (argumentsOf call))[s.eventIndex]?.bind (eventName? u))
      (fun s => Named.merge
        (s.withExtras (valueSchema u allSteps) (positional (argumentsOf call)) [])
        (propertiesOf u (positional (argumentsOf call))[s.propertiesIndex]?))
      (event? u signatures path call).toList := by
  intro callee s name hcallee hfind hname
  simp only [event?, payload?, hcallee, hfind, custom?, hname, bind, Option.bind_some]
  refine ⟨_, rfl, rfl, rfl, ?_⟩
  refine congrArg (Named.merge · _) (Signature.foldl_eq_withExtras fun fields extra => ?_)
  cases (positional (argumentsOf call))[extra.index]? <;> rfl

end Ruby

section Go

variable {u : Go.Unit} {signatures : List Signature} {path : Path} {call : Site}

/-- The properties of an argument are in name order. -/
theorem Go.ordered_propertiesOf {steps : Nat} {n : Node} : (propertiesOf u steps n).Ordered :=
  (canonical_propertiesOf steps n).ordered

/-- In Go the properties argument is merged into the extra parameters. -/
theorem Go.hasCustomEvent_eventsOf :
    HasCustomEvent signatures (calleeOf? call.node)
      (fun s => (childrenIn call.node "arguments")[s.eventIndex]?.bind (eventName? u allSteps))
      (fun s => Named.merge
        (s.withExtras (valueSchema u allSteps) (childrenIn call.node "arguments") [])
        (((childrenIn call.node "arguments")[s.propertiesIndex]?.map
          (propertiesOf u allSteps)).getD []))
      (eventsOf u signatures path call) := by
  intro callee s name hcallee hfind hname
  simp only [eventsOf, payloads, hcallee, hfind, custom?, hname, Option.toList_some, List.map_cons,
    List.map_nil]
  refine ⟨_, rfl, rfl, rfl, ?_⟩
  cases (childrenIn call.node "arguments")[s.propertiesIndex]? with
  | none =>
      exact Signature.foldl_eq_withExtras fun fields extra => by
        cases (childrenIn call.node "arguments")[extra.index]? <;> rfl
  | some argument =>
      refine congrArg (Named.merge · _) (Signature.foldl_eq_withExtras fun fields extra => ?_)
      cases (childrenIn call.node "arguments")[extra.index]? <;> rfl

end Go

end TrackingPlan
