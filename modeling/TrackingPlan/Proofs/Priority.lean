import Mathlib.Data.List.Basic
import TrackingPlan.Calls.Go
import TrackingPlan.Calls.Python
import TrackingPlan.Calls.Ruby
import TrackingPlan.Script.Calls

/-!
# The priority of signatures

A call that a signature matches belongs to the user, whatever a provider's table or its arguments
say. No table names the user's own functions, so an event tells whether it comes from a signature,
and a matched call has at most the one event that its signature finds. `signatures_first` says so of
every call in all languages.
-/

namespace TrackingPlan

/-- A list of signatures has a match exactly when one of them spells out the path of the callee. -/
theorem Signature.exists_find?_iff {signatures : List Signature} {callee : List String} :
    (∃ s, find? signatures callee = some s) ↔ ∃ s ∈ signatures, callee = s.segments := by
  rw [← Option.isSome_iff_exists, find?, List.find?_isSome]
  simp only [accepts, decide_eq_true_eq, @eq_comm _ _ callee]

/-! ## Providers that no table names -/

/-- The calls in a table reach no functions of the user's own. -/
def ProviderTable.NoCustom (table : ProviderTable) : Prop :=
  ∀ entry ∈ table.members ++ table.functions, entry.2 ≠ .custom

/-- No provider of scripts is a custom one. -/
theorem ProviderTable.noCustom_javaScript : javaScript.NoCustom := by
  simp [NoCustom, javaScript]

/-- No provider of Python is a custom one. -/
theorem ProviderTable.noCustom_python : python.NoCustom := by
  simp [NoCustom, python]

/-- No provider of Ruby is a custom one. -/
theorem ProviderTable.noCustom_ruby : ruby.NoCustom := by
  simp [NoCustom, ruby]

/-- A provider that is looked up stands in the table. -/
theorem ProviderTable.mem_of_lookup? {table : ProviderTable} {callee : List String}
    {provider : Provider} (h : table.lookup? callee = some provider) :
    ∃ entry ∈ table.members ++ table.functions, entry.2 = provider := by
  unfold lookup? at h
  split at h
  · cases h
  · exact ⟨_, List.mem_append_right _ (Named.mem_of_lookup h), rfl⟩
  · exact ⟨_, List.mem_append_left _ (Named.mem_of_lookup h), rfl⟩

/-- A provider that is looked up is not the user. -/
theorem ProviderTable.NoCustom.lookup?_ne {table : ProviderTable} (htable : table.NoCustom)
    {callee : List String} {provider : Provider} (h : table.lookup? callee = some provider) :
    provider ≠ .custom := by
  obtain ⟨entry, hentry, rfl⟩ := mem_of_lookup? h
  exact htable entry hentry

/-- The provider of a type stands in the list of types. -/
theorem mem_of_eventType? {typeName : String} {provider : Provider}
    (h : eventType? typeName = some provider) : ∃ entry ∈ eventTypes, entry.2 = provider := by
  simp only [eventType?] at h
  split at h
  next found hfull =>
    obtain rfl := Option.some.inj h
    exact ⟨_, Named.mem_of_lookup hfull, rfl⟩
  next => exact ⟨_, Named.mem_of_lookup h, rfl⟩

/-- The types of providers are not the user's. -/
theorem eventType?_ne_custom {typeName : String} {provider : Provider}
    (h : eventType? typeName = some provider) : provider ≠ .custom := by
  have htypes : ∀ entry ∈ eventTypes, entry.2 ≠ .custom := by simp [eventTypes]
  obtain ⟨entry, hentry, rfl⟩ := mem_of_eventType? h
  exact htypes entry hentry

/-! ## What signatures decide -/

/-- The events `found` at a call of `callee?` leave the first decision to the signatures; `name? s`
is the event name that the signature `s` finds there. -/
structure SignaturesFirst (signatures : List Signature) (callee? : Option (List String))
    (name? : Signature → Option String) (found : List Event) : Prop where
  /-- The events of the user's own functions are those of calls that a signature matches. -/
  custom_iff : ∀ event ∈ found,
    event.provider = .custom ↔ ∃ s ∈ signatures, callee? = some s.segments
  /-- A matched call has one event at most. -/
  length_le : (∃ s ∈ signatures, callee? = some s.segments) → found.length ≤ 1
  /-- A matched call has the event that its first signature finds, and none if that finds no
  name. -/
  matched : ∀ callee s, callee? = some callee → Signature.find? signatures callee = some s →
    found.map (fun event => (event.provider, event.name)) =
      ((name? s).map (Provider.custom, ·)).toList

/-- Signatures come first where matched calls have the event of their signature, and other calls
have events of providers only. -/
theorem SignaturesFirst.of_cases {signatures : List Signature} {callee? : Option (List String)}
    {name? : Signature → Option String} {found : List Event}
    (hnone : callee? = none → found = [])
    (hmatched : ∀ callee s, callee? = some callee → Signature.find? signatures callee = some s →
      found.map (fun event => (event.provider, event.name)) =
        ((name? s).map (Provider.custom, ·)).toList)
    (hother : ∀ callee, callee? = some callee → Signature.find? signatures callee = none →
      ∀ event ∈ found, event.provider ≠ .custom) :
    SignaturesFirst signatures callee? name? found := by
  have hiff : ∀ callee, callee? = some callee →
      ((∃ s ∈ signatures, callee? = some s.segments) ↔
        ∃ s, Signature.find? signatures callee = some s) := by
    rintro callee rfl
    simp only [Signature.exists_find?_iff, Option.some.injEq]
  refine ⟨fun event hevent => ?_, fun hmatch => ?_, hmatched⟩
  · -- an event has a callee, and tells by its provider whether a signature was found for that
    cases hcallee : callee? with
    | none => simp [hnone hcallee] at hevent
    | some callee =>
        rw [← hcallee, hiff callee hcallee]
        cases hfind : Signature.find? signatures callee with
        | none => simpa using hother callee hcallee hfind event hevent
        | some s =>
            have hview : (event.provider, event.name) ∈
                ((name? s).map (Provider.custom, ·)).toList := by
              rw [← hmatched callee s hcallee hfind]
              exact List.mem_map_of_mem hevent
            obtain ⟨name, -, hname⟩ : ∃ name, name? s = some name ∧
                (Provider.custom, name) = (event.provider, event.name) := by
              simpa [Option.mem_toList] using hview
            simpa using (congrArg Prod.fst hname).symm
  · obtain ⟨s, hs, hcallee⟩ := hmatch
    obtain ⟨first, hfind⟩ := (hiff s.segments hcallee).1 ⟨s, hs, hcallee⟩
    have hlength := congrArg List.length (hmatched s.segments first hcallee hfind)
    rw [List.length_map] at hlength
    rw [hlength]
    cases name? first <;> simp

/-! ## Scripts -/

section Script

variable {scope : Script.Scope} {signatures : List Signature} {call : Site}

/-- A function with a signature fires an event of the name at its place, or none. -/
theorem Script.name_customPayload? (s : Signature) (arguments : List Site) :
    (customPayload? scope s arguments).map Prod.fst =
      arguments[s.eventIndex]?.bind (eventName? scope.modules scope.module) := by
  unfold customPayload? positional?
  cases arguments[s.eventIndex]? with
  | none => rfl
  | some argument =>
      cases hname : eventName? scope.modules scope.module argument <;> simp [hname]

/-- Signatures come first in scripts. -/
theorem Script.signaturesFirst_event? :
    SignaturesFirst signatures ((call.node.child? "function").bind segments?)
      (fun s => (argumentsOf call)[s.eventIndex]?.bind (eventName? scope.modules scope.module))
      (event? scope signatures call).toList := by
  refine .of_cases (fun hcallee => ?_) (fun callee s hcallee hfind => ?_)
    (fun callee hcallee hfind event hevent => ?_)
  · simp [event?, hcallee]
  · simp only [event?, hcallee, hfind, ← name_customPayload?]
    cases customPayload? scope s (argumentsOf call) <;> rfl
  · simp only [event?, hcallee, hfind, Option.mem_toList, Option.map_eq_some_iff] at hevent
    obtain ⟨⟨provider, name, properties⟩, hfound, rfl⟩ := hevent
    split at hfound
    · cases hfound
    next found hprovider =>
      obtain ⟨payload, -, hpayload⟩ := Option.map_eq_some_iff.1 hfound
      cases hpayload
      exact ProviderTable.noCustom_javaScript.lookup?_ne hprovider

end Script

/-! ## Python -/

section Python

variable {u : Python.Unit} {signatures : List Signature} {path : Path} {call : Site}

/-- A function with a signature fires an event of the name at its place, or none. -/
theorem Python.view_custom? (s : Signature) (args : Arguments) :
    (custom? u s args).map (fun payload => (payload.1, payload.2.1)) =
      (args.positional[s.eventIndex]?.bind (eventName? u)).map (Provider.custom, ·) := by
  unfold custom?
  cases args.positional[s.eventIndex]?.bind (eventName? u) <;> rfl

/-- An event that is made in place is one of a provider. -/
theorem Python.carried?_ne_custom {args : Arguments} {payload : Payload}
    (h : carried? u args = some payload) : payload.1 ≠ .custom := by
  simp only [carried?, bind, Option.bind_eq_some_iff] at h
  obtain ⟨made, -, path, -, maker, -, h⟩ := h
  split at h
  · obtain ⟨name, -, h⟩ := Option.bind_eq_some_iff.1 h
    cases h
    simp
  · split at h
    · obtain ⟨name, -, h⟩ := Option.bind_eq_some_iff.1 h
      cases h
      simp
    · cases h

/-- An event that a provider's function sends is one of that provider. -/
theorem Python.sent?_ne_custom {callee : List String} {args : Arguments} {payload : Payload}
    (h : sent? u callee args = some payload) : payload.1 ≠ .custom := by
  simp only [sent?, bind, Option.bind_eq_some_iff] at h
  obtain ⟨provider, hprovider, name, -, h⟩ := h
  cases h
  exact ProviderTable.noCustom_python.lookup?_ne hprovider

/-- Signatures come first in Python. -/
theorem Python.signaturesFirst_event? :
    SignaturesFirst signatures (calleeOf? call.node)
      (fun s => (Arguments.ofCall call.node).positional[s.eventIndex]?.bind (eventName? u))
      (event? u signatures path call).toList := by
  refine .of_cases (fun hcallee => ?_) (fun callee s hcallee hfind => ?_)
    (fun callee hcallee hfind event hevent => ?_)
  · simp [event?, payload?, hcallee]
  · simp only [event?, payload?, hcallee, hfind, ← view_custom?]
    cases custom? u s (Arguments.ofCall call.node) <;> rfl
  · simp only [event?, payload?, hcallee, hfind, Option.mem_toList,
      Option.map_eq_some_iff] at hevent
    obtain ⟨payload, hpayload, rfl⟩ := hevent
    rcases Option.or_eq_some_iff.1 hpayload with hmade | ⟨-, hsent⟩
    · split at hmade
      · exact carried?_ne_custom hmade
      · cases hmade
    · exact sent?_ne_custom hsent

end Python

/-! ## Ruby -/

section Ruby

variable {u : Ruby.Unit} {signatures : List Signature} {path : Path} {call : Site}

/-- A method with a signature fires an event of the name at its place, or none. -/
theorem Ruby.name_custom? (s : Signature) (arguments : List Site) :
    (custom? u s arguments).map Prod.fst =
      (positional arguments)[s.eventIndex]?.bind (eventName? u) := by
  simp only [custom?]
  cases (positional arguments)[s.eventIndex]?.bind (eventName? u) <;> rfl

/-- Signatures come first in Ruby. -/
theorem Ruby.signaturesFirst_event? :
    SignaturesFirst signatures (segments? call.node)
      (fun s => (positional (argumentsOf call))[s.eventIndex]?.bind (eventName? u))
      (event? u signatures path call).toList := by
  refine .of_cases (fun hcallee => ?_) (fun callee s hcallee hfind => ?_)
    (fun callee hcallee hfind event hevent => ?_)
  · simp [event?, payload?, hcallee]
  · simp only [event?, payload?, hcallee, hfind, bind, Option.bind_some, ← name_custom?]
    cases custom? u s (argumentsOf call) <;> rfl
  · simp only [event?, payload?, hcallee, hfind, Option.mem_toList, Option.map_eq_some_iff, bind,
      Option.bind_some, Option.bind_eq_some_iff] at hevent
    obtain ⟨payload, ⟨provider, hprovider, sent, -, hpayload⟩, rfl⟩ := hevent
    cases hpayload
    exact ProviderTable.noCustom_ruby.lookup?_ne hprovider

end Ruby

/-! ## Go -/

section Go

variable {u : Go.Unit} {signatures : List Signature} {path : Path} {call : Site}

/-- A function with a signature fires an event of the name at its place, or none. -/
theorem Go.view_custom? (s : Signature) (arguments : List Node) :
    (custom? u s arguments).map (fun payload => (payload.1, payload.2.1)) =
      (arguments[s.eventIndex]?.bind (eventName? u allSteps)).map (Provider.custom, ·) := by
  unfold custom?
  cases arguments[s.eventIndex]?.bind (eventName? u allSteps) <;> rfl

/-- An event in a literal of a provider's type is one of that provider. -/
theorem Go.eventType?_of_structured? {method : String} {literal type : Node}
    {payload : Provider × String × Properties}
    (h : structured? u method literal type = some payload) :
    eventType? type.text = some payload.1 := by
  unfold structured? at h
  split at h
  · cases h
  next provider hprovider =>
    split at h
    next =>
      dsimp only at h
      split at h
      · cases h
      · split at h
        · cases h
        · cases h
          exact hprovider
    · cases h

/-- The events in a list of new events are those of one provider. -/
theorem Go.provider_of_mem_batch {literal type : Node} {payload : Provider × String × Properties}
    (h : payload ∈ batch u literal type) : payload.1 = .mixpanel := by
  unfold batch at h
  split at h
  · split at h
    · simp at h
    · obtain ⟨made, -, h⟩ := List.mem_filterMap.1 h
      dsimp only at h
      split at h
      · split at h
        · cases h
        · cases h
          rfl
      · cases h
  · simp at h

/-- Signatures come first in Go. -/
theorem Go.signaturesFirst_eventsOf :
    SignaturesFirst signatures (calleeOf? call.node)
      (fun s => (childrenIn call.node "arguments")[s.eventIndex]?.bind (eventName? u allSteps))
      (eventsOf u signatures path call) := by
  refine .of_cases (fun hcallee => ?_) (fun callee s hcallee hfind => ?_)
    (fun callee hcallee hfind event hevent => ?_)
  · simp [eventsOf, payloads, hcallee]
  · simp only [eventsOf, payloads, hcallee, hfind, ← view_custom?]
    cases custom? u s (childrenIn call.node "arguments") <;> rfl
  · simp only [eventsOf, payloads, hcallee, hfind] at hevent
    obtain ⟨payload, hpayload, rfl⟩ := List.mem_map.1 hevent
    obtain ⟨argument, -, hpayload⟩ := List.mem_flatMap.1 hpayload
    split at hpayload
    · split at hpayload
      · simp at hpayload
      · split at hpayload
        · show payload.1 ≠ .custom
          rw [provider_of_mem_batch hpayload]
          decide
        · exact eventType?_ne_custom (eventType?_of_structured? (Option.mem_toList.1 hpayload))
    · simp at hpayload

end Go

/-! ## All languages -/

/-- In every language the events of a file are those of its calls, one call after the other, and at
every call the signatures come first. -/
theorem signatures_first (signatures : List Signature) :
    (∀ (modules : Script.Modules) (m : Script.Module),
      Script.events modules signatures m = (Script.calls m.root).flatMap (fun call =>
        (Script.event? ⟨modules, m⟩ signatures call).toList) ∧
      ∀ call : Site, SignaturesFirst signatures
        ((call.node.child? "function").bind Script.segments?)
        (fun s => (Script.argumentsOf call)[s.eventIndex]?.bind (Script.eventName? modules m))
        (Script.event? ⟨modules, m⟩ signatures call).toList) ∧
    (∀ (path : Path) (root : Node),
      let u := Python.Unit.ofTree root
      Python.events signatures path root = (Python.calls root).flatMap (fun call =>
        (Python.event? u signatures path call).toList) ∧
      ∀ call : Site, SignaturesFirst signatures (Python.calleeOf? call.node)
        (fun s =>
          (Python.Arguments.ofCall call.node).positional[s.eventIndex]?.bind (Python.eventName? u))
        (Python.event? u signatures path call).toList) ∧
    (∀ (index : Option Ruby.ConstantIndex) (path : Path) (root : Node),
      let u := Ruby.Unit.ofTree index path root
      Ruby.events index signatures path root = (Ruby.calls root).flatMap (fun call =>
        (Ruby.event? u signatures path call).toList) ∧
      ∀ call : Site, SignaturesFirst signatures (Ruby.segments? call.node)
        (fun s =>
          (Ruby.positional (Ruby.argumentsOf call))[s.eventIndex]?.bind (Ruby.eventName? u))
        (Ruby.event? u signatures path call).toList) ∧
    (∀ (path : Path) (root : Node),
      let u := Go.Unit.ofTree root
      Go.events signatures path root = (Go.calls root).flatMap (Go.eventsOf u signatures path) ∧
      ∀ call : Site, SignaturesFirst signatures (Go.calleeOf? call.node)
        (fun s => (Go.childrenIn call.node "arguments")[s.eventIndex]?.bind
          (Go.eventName? u Go.allSteps))
        (Go.eventsOf u signatures path call)) := by
  refine ⟨fun modules m =>
    ⟨?_, fun call => @Script.signaturesFirst_event? ⟨modules, m⟩ signatures call⟩,
    fun path root => ⟨?_, fun call => Python.signaturesFirst_event?⟩,
    fun index path root => ⟨?_, fun call => Ruby.signaturesFirst_event?⟩,
    fun path root => ⟨rfl, fun call => Go.signaturesFirst_eventsOf⟩⟩
  · exact List.filterMap_eq_flatMap_toList _ _
  · exact List.filterMap_eq_flatMap_toList _ _
  · exact List.filterMap_eq_flatMap_toList _ _

end TrackingPlan
