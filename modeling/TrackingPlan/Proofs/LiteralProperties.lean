import TrackingPlan.Grammar.Go
import TrackingPlan.Grammar.Python
import TrackingPlan.Grammar.Ruby
import TrackingPlan.Grammar.Script
import TrackingPlan.Proofs.CustomEvents
import TrackingPlan.Proofs.LiteralSpellings

/-!
# The properties of literal data

A map that is written out as the properties argument of a matched call has the same properties in
every language: the schemas of its data, as deep as the language looks. `literal_data_reported` is
the main statement.
-/

namespace TrackingPlan

/-- Where a signature without extra parameters matches the callee and finds a name, and the
properties argument is a map as `l` writes it out, the events `found` are one of that name. Its
properties are the schemas of the entries, if these are nested no deeper than `limit`; one level
more would be too deep. -/
def ReportsData (l : Spelling) (limit : Nat) (signatures : List Signature)
    (callee? : Option (List String)) (name? : Signature → Option String)
    (argument? : Signature → Option Node) (found : List Event) : Prop :=
  ∀ callee s name argument entries, callee? = some callee →
    Signature.find? signatures callee = some s →
    s.extraParameters = [] → name? s = some name → argument? s = some argument →
    l.spells (.map entries) argument = true →
    ∃ event, found = [event] ∧ event.provider = .custom ∧ event.name = name ∧
      ((∀ entry ∈ entries, entry.2.nesting ≤ limit) →
        event.properties = Named.ofEntries (Datum.fieldSchemas entries)) ∧
      ∀ key height, entries = [(key, .tower height)] →
        event.properties = Named.ofEntries (Datum.fieldSchemas entries) → height ≤ limit

/-- What is seen of the entries of a map. -/
def Datum.fieldsSeen (levels : Nat) (entries : List (String × Datum)) : List (String × Schema) :=
  entries.map fun entry => (entry.1, entry.2.seen levels)

section

variable {l : Spelling} {limit : Nat} {signatures : List Signature} {callee? : Option (List String)}
  {name? : Signature → Option String} {argument? : Signature → Option Node}
  {given : Signature → Properties} {found : List Event}

/-- A language that looks at one level more than the limit reports the data within the limit. -/
theorem HasCustomEvent.reportsData (h : HasCustomEvent signatures callee? name? given found)
    (hgiven : ∀ s argument entries, s.extraParameters = [] → argument? s = some argument →
      l.spells (.map entries) argument = true →
      given s = Named.ofEntries (Datum.fieldsSeen (limit + 1) entries)) :
    ReportsData l limit signatures callee? name? argument? found := by
  intro callee s name argument entries hcallee hfind hextra hname hargument hspells
  obtain ⟨event, hfound, hprovider, hevent, hproperties⟩ := h callee s name hcallee hfind hname
  rw [hgiven s argument entries hextra hargument hspells] at hproperties
  refine ⟨event, hfound, hprovider, hevent, fun hnesting => ?_, fun key height htower hfull => ?_⟩
  · have hseen : Datum.fieldsSeen (limit + 1) entries = Datum.fieldSchemas entries := by
      rw [Datum.fieldSchemas_eq_map]
      exact List.map_congr_left fun entry hentry => by
        rw [Datum.seen_eq_schema (Nat.lt_succ_of_le (hnesting entry hentry))]
    rw [hproperties, hseen]
  · subst htower
    rw [hproperties] at hfull
    have hschema : (Datum.tower height).seen (limit + 1) = (Datum.tower height).schema := by
      simpa [Datum.fieldsSeen, Datum.fieldSchemas, Named.ofEntries, Named.merge,
        Named.insert] using hfull
    exact Nat.le_of_lt_succ (Datum.seen_tower_eq_schema_iff.1 hschema)

/-- The only signature matches the callee, and the data is within the limit: the event is there. -/
theorem ReportsData.exists_event {s : Signature} {entries : List (String × Datum)} {name : String}
    (h : ReportsData l limit [s] callee? name? argument? found)
    (hcallee : callee? = some s.segments)
    (hextra : s.extraParameters = []) (hname : name? s = some name)
    (hspells : (argument? s).map (l.spells (.map entries)) = some true)
    (hnesting : ∀ entry ∈ entries, entry.2.nesting ≤ limit) :
    ∃ event, found = [event] ∧ event.name = name ∧
      event.properties = Named.ofEntries (Datum.fieldSchemas entries) := by
  obtain ⟨argument, hargument, hspells⟩ := Option.map_eq_some_iff.1 hspells
  have hfind : Signature.find? [s] s.segments = some s := by
    simp [Signature.find?, Signature.accepts]
  obtain ⟨event, hfound, -, hevent, hproperties, -⟩ :=
    h s.segments s name argument entries hcallee hfind hextra hname hargument hspells
  exact ⟨event, hfound, hevent, hproperties hnesting⟩

/-- What an inference reads of a map are the entries seen. -/
theorem Spelling.IsReadBy.fields_eq {α : Type} {node : α → Node} {value : Nat → α → Schema}
    (h : l.IsReadBy node value) {s : α} {levels : Nat} {entries : List (String × Datum)}
    {fields : Properties} (hvalue : value (levels + 1) s = .object fields)
    (hspells : l.spells (.map entries) (node s) = true) :
    fields = Named.ofEntries (Datum.fieldsSeen levels entries) := by
  rw [h.value_eq_seen hspells, Datum.seen] at hvalue
  exact (Schema.object.inj hvalue).symm

end

variable {entries : List (String × Datum)}

/-- In scripts a map that is spelled out has its data as properties, to a depth of eight. -/
theorem Script.propertiesOf_of_spelling {scope : Scope} {s : Site}
    (h : spelling.spells (.map entries) s.node = true) :
    propertiesOf scope allHops s = Named.ofEntries (Datum.fieldsSeen 8 entries) := by
  have hkind : s.node.kind = "object" := Spelling.kind_of_spells_map rfl h
  have hself : unwrap s = s := by
    unfold unwrap
    split
    next => rfl
    next inner hinner => simp [inner?, Site.kind, hkind] at hinner
  refine (isReadBy_valueSchema scope).fields_eq ?_ h
  simp [allHops, maxHops, propertiesOf, valueSchema, resolveObject?, hself, Site.kind, hkind]

/-- In Python a map that is spelled out has its data as properties, to a depth of nine. -/
theorem Python.propertiesOf_of_spelling {u : Unit} {n : Node}
    (h : spelling.spells (.map entries) n = true) :
    propertiesOf u (some n) = Named.ofEntries (Datum.fieldsSeen 9 entries) := by
  have hkind : n.kind = "dictionary" := Spelling.kind_of_spells_map rfl h
  refine (isReadBy_valueSchema u).fields_eq (s := n) ?_ h
  simp [valueSchema, propertiesOf, mapping?, hkind, allSteps, maxSteps]

/-- In Ruby a map that is spelled out has its data as properties, to a depth of twenty-one. -/
theorem Ruby.propertiesOf_of_spelling {u : Unit} {s : Site}
    (h : spelling.spells (.map entries) s.node = true) :
    propertiesOf u (some s) = Named.ofEntries (Datum.fieldsSeen 21 entries) := by
  have hkind : s.node.kind = "hash" := Spelling.kind_of_spells_map rfl h
  have hself : hashOf? s = some s := by
    unfold hashOf?
    simp [Site.kind, hkind]
  refine (isReadBy_valueSchema u).fields_eq ?_ h
  simp [valueSchema, propertiesOf, Unit.resolveHash?, hself, Site.kind, hkind, allSteps, maxDepth]

/-- In Go a map that is spelled out has its data as properties, to a depth of four. -/
theorem Go.propertiesOf_of_spelling {u : Unit} {n : Node}
    (h : spelling.spells (.map entries) n = true) :
    propertiesOf u allSteps n = Named.ofEntries (Datum.fieldsSeen 4 entries) := by
  refine (isReadBy_valueSchema u).fields_eq (s := n) ?_ h
  obtain ⟨fields, hfields, -⟩ := Spelling.spells_map h
  obtain ⟨parts, hparts, -⟩ := Option.bind_eq_some_iff.1 hfields
  obtain ⟨hkind, ⟨t, htype, hmap⟩, body, hbody, -⟩ := bodyOf?_eq_some hparts
  rw [valueSchema_map hkind htype hmap hbody, propertiesOf.eq_def]
  simp [allSteps, maxSteps, element_unwrap_of_kind hkind (by decide), hkind, hbody]

/-- In every language a matched call that gives a name has one event, and its properties are the
schemas of the data that the properties argument writes out, up to the depth that the language looks
at. -/
theorem literal_data_reported (signatures : List Signature) :
    (∀ (modules : Script.Modules) (m : Script.Module) (call : Site),
      ReportsData Script.spelling 7 signatures ((call.node.child? "function").bind Script.segments?)
        (fun s => (Script.argumentsOf call)[s.eventIndex]?.bind (Script.eventName? modules m))
        (fun s => (Script.argumentsOf call)[s.propertiesIndex]?.map Site.node)
        (Script.event? ⟨modules, m⟩ signatures call).toList) ∧
    (∀ (path : Path) (root : Node) (call : Site),
      let u := Python.Unit.ofTree root
      let places := (Python.Arguments.ofCall call.node).positional
      ReportsData Python.spelling 8 signatures (Python.calleeOf? call.node)
        (fun s => places[s.eventIndex]?.bind (Python.eventName? u))
        (fun s => places[s.propertiesIndex]?)
        (Python.event? u signatures path call).toList) ∧
    (∀ (index : Option Ruby.ConstantIndex) (path : Path) (root : Node) (call : Site),
      let u := Ruby.Unit.ofTree index path root
      let places := Ruby.positional (Ruby.argumentsOf call)
      ReportsData Ruby.spelling 20 signatures (Ruby.segments? call.node)
        (fun s => places[s.eventIndex]?.bind (Ruby.eventName? u))
        (fun s => places[s.propertiesIndex]?.map Site.node)
        (Ruby.event? u signatures path call).toList) ∧
    (∀ (path : Path) (root : Node) (call : Site),
      let u := Go.Unit.ofTree root
      let places := Go.childrenIn call.node "arguments"
      ReportsData Go.spelling 3 signatures (Go.calleeOf? call.node)
        (fun s => places[s.eventIndex]?.bind (Go.eventName? u Go.allSteps))
        (fun s => places[s.propertiesIndex]?)
        (Go.eventsOf u signatures path call)) := by
  refine ⟨fun modules m call => ?_, fun path root call => ?_, fun index path root call => ?_,
    fun path root call => ?_⟩
  · refine (@Script.hasCustomEvent_event? ⟨modules, m⟩ signatures call).reportsData
      fun s argument entries hextra hargument hspells => ?_
    obtain ⟨site, hsite, rfl⟩ := Option.map_eq_some_iff.1 hargument
    rw [Signature.withExtras_of_eq_nil hextra, hsite, Option.map_some, Option.getD_some,
      Script.propertiesOf_of_spelling hspells]
  · refine Python.hasCustomEvent_event?.reportsData
      fun s argument entries hextra hargument hspells => ?_
    rw [Signature.withExtras_of_eq_nil hextra, hargument, Python.propertiesOf_of_spelling hspells]
  · refine Ruby.hasCustomEvent_event?.reportsData
      fun s argument entries hextra hargument hspells => ?_
    obtain ⟨site, hsite, rfl⟩ := Option.map_eq_some_iff.1 hargument
    rw [Signature.withExtras_of_eq_nil hextra, Ruby.ordered_propertiesOf.merge_nil, hsite,
      Ruby.propertiesOf_of_spelling hspells]
  · refine Go.hasCustomEvent_eventsOf.reportsData
      fun s argument entries hextra hargument hspells => ?_
    rw [Signature.withExtras_of_eq_nil hextra, hargument, Option.map_some, Option.getD_some,
      Go.ordered_propertiesOf.merge_nil, Go.propertiesOf_of_spelling hspells]

/-! ## One map in every language -/

/-- The signature `track`. -/
def signupSignature : Signature := ⟨"track", ["track"], 0, 1, []⟩

/-- What the calls below write out. -/
def signupData : List (String × Datum) :=
  [("plan", .text "pro"), ("seats", .array [.number "5", .null]),
    ("owner", .map [("vip", .boolean true)])]

/-- The properties that these calls should report. -/
def signupProperties : Properties :=
  [("owner", .object [("vip", .boolean)]), ("plan", .string),
    ("seats", .array (.label "null | number"))]

/-- A call in a script. -/
def signupScript : Node := Script.read .javaScript (Source.ofString
  "track('Signup', \x7bplan: 'pro', 'seats': [5, null], owner: \x7bvip: true\x7d\x7d)\n")

/-- A call in Python. -/
def signupPython : Node := Python.read (Source.ofString
  "track('Signup', \x7b'plan': 'pro', 'seats': [5, None], 'owner': \x7b'vip': True\x7d\x7d)\n")

/-- A call in Ruby. -/
def signupRuby : Node := Ruby.read (Source.ofString
  "track('Signup', \x7bplan: 'pro', 'seats' => [5, nil], owner: \x7bvip: true\x7d\x7d)\n")

/-- A call in Go. -/
def signupGo : Node := Go.read (Source.ofString (
  "func f() \x7b\n\ttrack(\"Signup\", map[string]any\x7b\"plan\": \"pro\", " ++
  "\"seats\": []any\x7b5, nil\x7d, \"owner\": map[string]any\x7b\"vip\": true\x7d\x7d)\n\x7d\n"))

/-- The schemas of the sample data are the sample properties. -/
theorem ofEntries_signupData :
    Named.ofEntries (Datum.fieldSchemas signupData) = signupProperties := by
  decide +kernel

/-- The sample data is nested one level deep. -/
theorem nesting_signupData (limit : Nat) (h : 1 ≤ limit) :
    ∀ entry ∈ signupData, entry.2.nesting ≤ limit := by
  have hone : ∀ entry ∈ signupData, entry.2.nesting ≤ 1 := by decide
  exact fun entry hentry => (hone entry hentry).trans h

/-- Scripts, typed or not, Python, Ruby and Go report the same properties of the same map. -/
theorem literal_data_of_signup :
    (∃ call ∈ Script.calls signupScript, ∀ modules ∈ [Script.Modules.untyped, .localTypes],
      ∃ event, (Script.event? ⟨modules, .ofTree ⟨"a.js"⟩ signupScript⟩ [signupSignature]
        call).toList = [event] ∧ event.name = "Signup" ∧ event.properties = signupProperties) ∧
    (∃ call ∈ Python.calls signupPython,
      ∃ event, (Python.event? (.ofTree signupPython) [signupSignature] ⟨"a.py"⟩ call).toList =
        [event] ∧ event.name = "Signup" ∧ event.properties = signupProperties) ∧
    (∃ call ∈ Ruby.calls signupRuby,
      ∃ event, (Ruby.event? (.ofTree none ⟨"a.rb"⟩ signupRuby) [signupSignature] ⟨"a.rb"⟩
        call).toList = [event] ∧ event.name = "Signup" ∧ event.properties = signupProperties) ∧
    (∃ call ∈ Go.calls signupGo,
      ∃ event, Go.eventsOf (.ofTree signupGo) [signupSignature] ⟨"a.go"⟩ call = [event] ∧
        event.name = "Signup" ∧ event.properties = signupProperties) := by
  have hreported := literal_data_reported [signupSignature]
  rw [← ofEntries_signupData]
  refine ⟨?_, ?_, ?_, ?_⟩
  · have hview : (Script.calls signupScript).map (fun call =>
        ((call.node.child? "function").bind Script.segments?,
          [Script.Modules.untyped, .localTypes].map fun modules =>
            (Script.argumentsOf call)[0]?.bind
              (Script.eventName? modules (.ofTree ⟨"a.js"⟩ signupScript)),
          ((Script.argumentsOf call)[1]?.map Site.node).map
            (Script.spelling.spells (.map signupData)))) =
        [(some ["track"], [some "Signup", some "Signup"], some true)] := by
      decide +kernel
    obtain ⟨call, hcalls, hcall⟩ := List.map_eq_singleton_iff.1 hview
    simp only [Prod.mk.injEq, List.map_cons, List.map_nil, List.cons.injEq] at hcall
    obtain ⟨hcallee, ⟨huntyped, htyped, -⟩, hspells⟩ := hcall
    have hname : ∀ modules ∈ [Script.Modules.untyped, .localTypes],
        (Script.argumentsOf call)[0]?.bind
          (Script.eventName? modules (.ofTree ⟨"a.js"⟩ signupScript)) = some "Signup" := by
      intro modules hmodules
      simp only [List.mem_cons, List.not_mem_nil, or_false] at hmodules
      rcases hmodules with rfl | rfl
      · exact huntyped
      · exact htyped
    exact ⟨call, by simp [hcalls], fun modules hmodules =>
      (hreported.1 modules (.ofTree ⟨"a.js"⟩ signupScript) call).exists_event hcallee rfl
        (hname modules hmodules) hspells (nesting_signupData 7 (by decide))⟩
  · have hview : (Python.calls signupPython).map (fun call =>
        (Python.calleeOf? call.node,
          (Python.Arguments.ofCall call.node).positional[0]?.bind
            (Python.eventName? (.ofTree signupPython)),
          (Python.Arguments.ofCall call.node).positional[1]?.map
            (Python.spelling.spells (.map signupData)))) =
        [(some ["track"], some "Signup", some true)] := by
      decide +kernel
    obtain ⟨call, hcalls, hcall⟩ := List.map_eq_singleton_iff.1 hview
    simp only [Prod.mk.injEq] at hcall
    exact ⟨call, by simp [hcalls],
      (hreported.2.1 ⟨"a.py"⟩ signupPython call).exists_event hcall.1 rfl
      hcall.2.1 hcall.2.2 (nesting_signupData 8 (by decide))⟩
  · have hview : (Ruby.calls signupRuby).map (fun call =>
        (Ruby.segments? call.node,
          (Ruby.positional (Ruby.argumentsOf call))[0]?.bind
            (Ruby.eventName? (.ofTree none ⟨"a.rb"⟩ signupRuby)),
          ((Ruby.positional (Ruby.argumentsOf call))[1]?.map Site.node).map
            (Ruby.spelling.spells (.map signupData)))) =
        [(some ["track"], some "Signup", some true)] := by
      decide +kernel
    obtain ⟨call, hcalls, hcall⟩ := List.map_eq_singleton_iff.1 hview
    simp only [Prod.mk.injEq] at hcall
    exact ⟨call, by simp [hcalls],
      (hreported.2.2.1 none ⟨"a.rb"⟩ signupRuby call).exists_event hcall.1
      rfl hcall.2.1 hcall.2.2 (nesting_signupData 20 (by decide))⟩
  · have hview : (Go.calls signupGo).map (fun call =>
        (Go.calleeOf? call.node,
          (Go.childrenIn call.node "arguments")[0]?.bind
            (Go.eventName? (.ofTree signupGo) Go.allSteps),
          (Go.childrenIn call.node "arguments")[1]?.map (Go.spelling.spells (.map signupData)))) =
        [(some ["track"], some "Signup", some true)] := by
      decide +kernel
    obtain ⟨call, hcalls, hcall⟩ := List.map_eq_singleton_iff.1 hview
    simp only [Prod.mk.injEq] at hcall
    exact ⟨call, by simp [hcalls], (hreported.2.2.2 ⟨"a.go"⟩ signupGo call).exists_event hcall.1 rfl
      hcall.2.1 hcall.2.2 (nesting_signupData 3 (by decide))⟩

end TrackingPlan
