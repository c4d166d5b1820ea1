import Mathlib.Data.List.Induction
import TrackingPlan.Analysis
import TrackingPlan.Proofs.Priority
import TrackingPlan.Proofs.Tables

/-!
# The key that carries the event name

Two providers take the event name from a key of the payload: Snowplow from `action`, Google Tag
Manager from `event`. That key is no property. Payloads are read in different ways, so each way has
its lemma on the keys that it leaves: `mem_keys_keyed?` for objects, whose fields are merged before
the key is taken out, `mem_keys_keywordsExcept` for keyword arguments, `mem_keys_sent?_snowplow` for
pairs, and `mem_keys_layoutFields` for the literals of Go. `event_key_not_reported` is the statement
on the events of all languages.
-/

namespace TrackingPlan

/-- `e` reports no property for the key of the payload that carries its name; `action` is that key
of Snowplow's events. -/
structure Event.OmitsNameKey (action : String) (e : Event) : Prop where
  snowplow : e.provider = .snowplow → action ∉ Named.keys e.properties
  gtm : e.provider = .gtm → "event" ∉ Named.keys e.properties

/-- An event of another provider has its name outside the payload. -/
theorem Event.OmitsNameKey.of_ne {action : String} {e : Event} (hsnowplow : e.provider ≠ .snowplow)
    (hgtm : e.provider ≠ .gtm) : e.OmitsNameKey action :=
  ⟨fun h => absurd h hsnowplow, fun h => absurd h hgtm⟩

/-! ## Scripts -/

namespace Script

variable {scope : Scope} {signatures : List Signature} {call payload : Site} {key name : String}
  {properties : Properties}

/-- An object is reported with all its keys but the one that carries the event name. The object may
be the value of a variable, and its keys may come from what is spread into it. -/
theorem mem_keys_keyed? (h : keyed? scope payload key = some (name, properties)) :
    ∃ object, resolveObject? scope payload = some object ∧ ∀ other,
      other ∈ properties.keys ↔ other ≠ key ∧ other ∈ Named.keys (fieldsOfObject scope object) := by
  unfold keyed? at h
  cases hobject : resolveObject? scope payload with
  | none => simp [hobject] at h
  | some object =>
      refine ⟨object, rfl, fun other => ?_⟩
      simp only [hobject] at h
      split at h
      · cases h
      · cases h
        exact Named.mem_keys_erase

/-- The key of the event is not among the properties. -/
theorem not_mem_keys_keyed? (h : keyed? scope payload key = some (name, properties)) :
    key ∉ properties.keys := by
  obtain ⟨object, -, hkeys⟩ := mem_keys_keyed? h
  rw [hkeys]
  exact fun hkey => hkey.1 rfl

/-- What Snowplow takes is an object with the key `action`. -/
theorem exists_keyed?_of_snowplow {arguments : List Site} {found : String × Properties}
    (h : payload? scope .snowplow arguments = some found) :
    ∃ payload, keyed? scope payload "action" = some found := by
  cases arguments with
  | nil => cases h
  | cons first rest =>
      obtain ⟨payload, -, hkeyed⟩ := Option.bind_eq_some_iff.1 h
      exact ⟨payload, hkeyed⟩

/-- What Google Tag Manager takes is an object with the key `event`. -/
theorem exists_keyed?_of_gtm {arguments : List Site} {found : String × Properties}
    (h : payload? scope .gtm arguments = some found) :
    ∃ payload, keyed? scope payload "event" = some found := by
  cases arguments with
  | nil => cases h
  | cons first rest => exact ⟨first, h⟩

/-- No call of a script reports the key of its event name. -/
theorem omitsNameKey_event? {e : Event} (h : event? scope signatures call = some e) :
    e.OmitsNameKey "action" := by
  unfold event? at h
  split at h
  · cases h
  next callee hcallee =>
    obtain ⟨⟨provider, name, properties⟩, hfound, rfl⟩ := Option.map_eq_some_iff.1 h
    split at hfound
    next s hs =>
      obtain ⟨found, -, hpayload⟩ := Option.map_eq_some_iff.1 hfound
      cases hpayload
      exact .of_ne (by simp) (by simp)
    next =>
      split at hfound
      · cases hfound
      · obtain ⟨found, hpayload, heq⟩ := Option.map_eq_some_iff.1 hfound
        cases heq
        refine ⟨?_, ?_⟩
        · rintro rfl
          obtain ⟨payload, hkeyed⟩ := exists_keyed?_of_snowplow hpayload
          exact not_mem_keys_keyed? hkeyed
        · rintro rfl
          obtain ⟨payload, hkeyed⟩ := exists_keyed?_of_gtm hpayload
          exact not_mem_keys_keyed? hkeyed

end Script

/-! ## Python -/

namespace Python

variable {u : Unit} {signatures : List Signature} {path : Path} {call : Site}

/-- All keyword arguments are reported but the one that is skipped. -/
theorem mem_keys_keywordsExcept {args : Arguments} {skipped key : String} :
    key ∈ Named.keys (keywordsExcept u args skipped) ↔
      key ≠ skipped ∧ ∃ value, (key, value) ∈ args.keywords := by
  rw [keywordsExcept, keywordFields, Named.mem_keys_ofEntries]
  simp [Named.keys, and_comm]

/-- No call reports the keyword of its event name. -/
theorem omitsNameKey_event? {e : Event} (h : event? u signatures path call = some e) :
    e.OmitsNameKey "action" := by
  have hskipped : ∀ args, "action" ∉ Named.keys (keywordsExcept u args "action") :=
    fun args hkey => (mem_keys_keywordsExcept.1 hkey).1 rfl
  obtain ⟨⟨provider, name, properties⟩, hpayload, rfl⟩ := Option.map_eq_some_iff.1 h
  unfold payload? at hpayload
  split at hpayload
  · cases hpayload
  next callee hcallee =>
    dsimp only at hpayload
    split at hpayload
    next s hs =>
      obtain ⟨name, -, hmade⟩ := Option.bind_eq_some_iff.1 hpayload
      cases hmade
      exact .of_ne (by simp) (by simp)
    next =>
      rcases Option.or_eq_some_iff.1 hpayload with hcarried | ⟨-, hsent⟩
      · split at hcarried
        · simp only [carried?, bind, Option.bind_eq_some_iff] at hcarried
          obtain ⟨made, -, path, -, maker, -, hcarried⟩ := hcarried
          split at hcarried
          · obtain ⟨name, -, hmade⟩ := Option.bind_eq_some_iff.1 hcarried
            cases hmade
            exact .of_ne (by simp) (by simp)
          · split at hcarried
            · obtain ⟨name, -, hmade⟩ := Option.bind_eq_some_iff.1 hcarried
              cases hmade
              exact ⟨fun _ => hskipped _, by simp⟩
            · cases hcarried
        · cases hcarried
      · simp only [sent?, bind, Option.bind_eq_some_iff] at hsent
        obtain ⟨found, hprovider, name, -, hsent⟩ := hsent
        cases hsent
        refine ⟨?_, ?_⟩
        · rintro rfl
          exact hskipped _
        · rintro rfl
          have htable : ∀ entry ∈ ProviderTable.python.members ++ ProviderTable.python.functions,
            entry.2 ≠ .gtm := by simp [ProviderTable.python]
          obtain ⟨entry, hentry, hgtm⟩ := ProviderTable.mem_of_lookup? hprovider
          exact absurd hgtm (htable entry hentry)

end Python

/-! ## Ruby -/

namespace Ruby

variable {u : Unit} {signatures : List Signature} {path : Path} {call : Site}

/-- The pairs of a structured event are reported with all their keys but the one of its name,
whether they are arguments, or stand in a hash, or in a hash that a variable holds. -/
theorem mem_keys_sent?_snowplow {arguments : List Site} {name : String} {properties : Properties}
    (h : sent? u .snowplow arguments = some (name, properties)) :
    ∃ keywords, keywords? u arguments = some keywords ∧ ∀ key,
      key ∈ properties.keys ↔ key ≠ "action" ∧ ∃ value, (key, value) ∈ keywords := by
  simp only [sent?, bind, Option.bind_eq_some_iff] at h
  obtain ⟨keywords, hkeywords, found, -, h⟩ := h
  cases h
  refine ⟨keywords, hkeywords, fun key => ?_⟩
  rw [Named.mem_keys_ofEntries]
  simp [Named.keys, and_comm]

/-- No call reports the key of its event name. -/
theorem omitsNameKey_event? {e : Event} (h : event? u signatures path call = some e) :
    e.OmitsNameKey "action" := by
  obtain ⟨⟨provider, name, properties⟩, hpayload, rfl⟩ := Option.map_eq_some_iff.1 h
  simp only [payload?, bind, Option.bind_eq_some_iff] at hpayload
  obtain ⟨callee, -, hpayload⟩ := hpayload
  split at hpayload
  · obtain ⟨found, -, hmade⟩ := Option.bind_eq_some_iff.1 hpayload
    cases hmade
    exact .of_ne (by simp) (by simp)
  · simp only [Option.bind_eq_some_iff] at hpayload
    obtain ⟨found, -, sent, hsent, hmade⟩ := hpayload
    cases hmade
    refine ⟨?_, ?_⟩
    · rintro rfl hkey
      obtain ⟨keywords, -, hkeys⟩ := mem_keys_sent?_snowplow hsent
      exact ((hkeys "action").1 hkey).1 rfl
    · rintro rfl
      cases hsent

end Ruby

/-! ## Go -/

namespace Go

variable {u : Unit} {signatures : List Signature} {path : Path} {call : Site}

/-- The elements of a literal that have a key have the name of a field for it, not a text or a
position. -/
def KeyedByFields (body : Node) : Prop :=
  ∀ entry ∈ body.namedChildren, entry.kind = "keyed_element" →
    ∀ key ∈ entry.namedChildren.head?,
      ((element key).kind = "identifier" ∨ (element key).kind = "field_identifier") ∧
        (element key).text ≠ ""

instance (body : Node) : Decidable (KeyedByFields body) :=
  inferInstanceAs (Decidable (∀ entry ∈ body.namedChildren, _ → ∀ key ∈ _, _))

/-- A literal that is keyed by fields has no empty key. -/
theorem KeyedByFields.ne_empty {body : Node} (h : KeyedByFields body) :
    "" ∉ Named.keys (entries body) := by
  rw [Named.mem_keys_iff]
  rintro ⟨value, hvalue⟩
  obtain ⟨entry, hentry, hmade⟩ := List.mem_filterMap.1 hvalue
  obtain ⟨hchild, hkind⟩ := List.mem_filter.1 hentry
  split at hmade
  next key last hkey hlast =>
    obtain ⟨hnamed, hne⟩ := h entry hchild (of_decide_eq_true hkind) key hkey
    have hname : (decide ((element key).kind = "identifier") ||
        decide ((element key).kind = "field_identifier")) = true := by simpa using hnamed
    simp only [hname, if_true, Option.map_some, Option.some.injEq, Prod.mk.injEq] at hmade
    exact hne hmade.1
  next => cases hmade

/-- Where the properties are the other fields of the literal, these are reported with all their keys
but the one of the event name. -/
theorem mem_keys_layoutFields {name key : String} {fields : List (String × Node)}
    (h : "" ∉ Named.keys fields) :
    key ∈ Named.keys (layoutFields u ⟨name, "", none⟩ fields) ↔
      key ≠ name ∧ key ∈ Named.keys fields := by
  induction fields using List.reverseRecOn with
  | nil => simp [layoutFields, Named.keys]
  | append_singleton before last ih =>
      obtain ⟨first, value⟩ := last
      simp only [Named.keys, List.map_append, List.map_cons, List.map_nil, List.mem_append,
        List.mem_singleton, not_or] at h
      obtain ⟨hbefore, hfirst⟩ := h
      have ih := ih hbefore
      have hstep : layoutFields u ⟨name, "", none⟩ (before ++ [(first, value)]) =
          if first = name then layoutFields u ⟨name, "", none⟩ before
          else Named.insert (layoutFields u ⟨name, "", none⟩ before) first
            (valueSchema u allSteps value) := by
        simp [layoutFields, List.foldl_append, Ne.symm hfirst]
      have hkeys : key ∈ Named.keys (before ++ [(first, value)]) ↔
          key ∈ Named.keys before ∨ key = first := by simp [Named.keys]
      rw [hstep, hkeys]
      split
      next heq =>
        rw [ih, heq]
        tauto
      next hne =>
        rw [Named.mem_keys_insert, ih]
        constructor
        · rintro (rfl | ⟨hname, hmem⟩)
          · exact ⟨hne, .inr rfl⟩
          · exact ⟨hname, .inl hmem⟩
        · rintro ⟨hname, hmem | heq⟩
          · exact .inr ⟨hname, hmem⟩
          · exact .inl heq

/-- `e` is an event in `literal`, a literal of a provider's type among the arguments of `call`. -/
structure InLiteral (u : Unit) (call literal : Node) (e : Event) : Prop where
  argument : ∃ argument ∈ childrenIn call "arguments", literal = unwrap argument
  payload : ∃ callee type, calleeOf? call = some callee ∧ literal.child? "type" = some type ∧
    structured? u (callee.getLast?.getD "") literal type = some (e.provider, e.name, e.properties)

/-- An event of Snowplow stands in a literal, and is reported without the key of its name if the
literal is keyed by the names of fields. -/
theorem not_mem_keys_structured? {method name : String} {literal type : Node}
    {properties : Properties}
    (h : structured? u method literal type = some (.snowplow, name, properties)) :
    ∃ body, literal.child? "body" = some body ∧
      (KeyedByFields body → "Action" ∉ properties.keys) := by
  unfold structured? at h
  split at h
  · cases h
  next provider hprovider =>
    split at h
    next layout body hlayout hbody =>
      refine ⟨body, hbody, fun hkeyed => ?_⟩
      dsimp only at h
      split at h
      · cases h
      · split at h
        · cases h
        · cases h
          obtain rfl : layout = ⟨"Action", "", none⟩ := by
            unfold layout? at hlayout
            split at hlayout <;> simp_all
          rw [mem_keys_layoutFields hkeyed.ne_empty]
          exact fun hkey => hkey.1 rfl
    · cases h

/-- What a signature gives is a custom event. -/
theorem provider_of_custom? {s : Signature} {arguments : List Node}
    {payload : Provider × String × Properties} (h : custom? u s arguments = some payload) :
    payload.1 = .custom := by
  have hview := view_custom? (u := u) s arguments
  rw [h] at hview
  obtain ⟨name, -, hpayload⟩ := Option.map_eq_some_iff.1 hview.symm
  exact (congrArg Prod.fst hpayload).symm

/-- An event is one of a signature or one in a list of new events, or it stands in a literal. -/
theorem cases_of_mem_eventsOf {e : Event} (h : e ∈ eventsOf u signatures path call) :
    e.provider = .custom ∨ e.provider = .mixpanel ∨ ∃ literal, InLiteral u call.node literal e := by
  obtain ⟨payload, hpayload, rfl⟩ := List.mem_map.1 h
  unfold payloads at hpayload
  split at hpayload
  · simp at hpayload
  next callee hcallee =>
    dsimp only at hpayload
    split at hpayload
    next s hs => exact .inl (provider_of_custom? (Option.mem_toList.1 hpayload))
    next =>
      obtain ⟨literal, hliteral, hpayload⟩ := List.mem_flatMap.1 hpayload
      obtain ⟨argument, hargument, rfl⟩ := List.mem_map.1 hliteral
      split at hpayload
      · split at hpayload
        · simp at hpayload
        next type htype =>
          split at hpayload
          · exact .inr (.inl (provider_of_mem_batch hpayload))
          · exact .inr (.inr ⟨_, ⟨argument, hargument, rfl⟩, callee, type, hcallee, htype,
              Option.mem_toList.1 hpayload⟩)
      · simp at hpayload

/-- No type of events is one of Google Tag Manager. -/
theorem provider_ne_gtm_of_mem_eventsOf {e : Event} (h : e ∈ eventsOf u signatures path call) :
    e.provider ≠ .gtm := by
  have htypes : ∀ entry ∈ eventTypes, entry.2 ≠ .gtm := by simp [eventTypes]
  rcases cases_of_mem_eventsOf h with hcustom | hmixpanel | ⟨literal, hliteral⟩
  · simp [hcustom]
  · simp [hmixpanel]
  · obtain ⟨callee, type, -, -, hstructured⟩ := hliteral.payload
    obtain ⟨entry, hentry, hprovider⟩ := mem_of_eventType? (eventType?_of_structured? hstructured)
    have hne := htypes entry hentry
    rwa [hprovider] at hne

/-- An event of Snowplow stands in a literal, and does not report the key of its name if the literal
is keyed by the names of fields. -/
theorem exists_literal_of_snowplow {e : Event} (h : e ∈ eventsOf u signatures path call)
    (hsnowplow : e.provider = .snowplow) :
    ∃ literal body, InLiteral u call.node literal e ∧ literal.child? "body" = some body ∧
      (KeyedByFields body → e.OmitsNameKey "Action") := by
  rcases cases_of_mem_eventsOf h with hcustom | hmixpanel | ⟨literal, hliteral⟩
  · simp [hcustom] at hsnowplow
  · simp [hmixpanel] at hsnowplow
  · obtain ⟨callee, type, -, -, hstructured⟩ := hliteral.payload
    rw [hsnowplow] at hstructured
    obtain ⟨body, hbody, homits⟩ := not_mem_keys_structured? hstructured
    exact ⟨literal, body, hliteral, hbody, fun hkeyed =>
      ⟨fun _ => homits hkeyed, fun hgtm => absurd (hsnowplow.symm.trans hgtm) (by simp)⟩⟩

end Go

/-! ## All languages -/

/-- In every language no event reports the key of the payload that carries its name: `action` and,
in Go, `Action` for events of Snowplow, `event` for those of Google Tag Manager. Every event of
Snowplow in Go stands in a literal, of which that is said if it is keyed by the names of fields. -/
theorem event_key_not_reported (signatures : List Signature) :
    (∀ (modules : Script.Modules) (m : Script.Module),
      ∀ e ∈ Script.events modules signatures m, e.OmitsNameKey "action") ∧
    (∀ (path : Path) (root : Node),
      ∀ e ∈ Python.events signatures path root, e.OmitsNameKey "action") ∧
    (∀ (index : Option Ruby.ConstantIndex) (path : Path) (root : Node),
      ∀ e ∈ Ruby.events index signatures path root, e.OmitsNameKey "action") ∧
    (∀ (path : Path) (root : Node), ∀ e ∈ Go.events signatures path root,
      e.provider ≠ .gtm ∧
      (e.provider = .snowplow → ∃ call ∈ Go.calls root,
        e ∈ Go.eventsOf (.ofTree root) signatures path call ∧ ∃ literal body,
          Go.InLiteral (.ofTree root) call.node literal e ∧ literal.child? "body" = some body ∧
          (Go.KeyedByFields body → e.OmitsNameKey "Action"))) := by
  refine ⟨fun modules m e he => ?_, fun path root e he => ?_, fun index path root e he => ?_,
    fun path root e he => ?_⟩
  · obtain ⟨call, -, hevent⟩ := List.mem_filterMap.1 he
    exact Script.omitsNameKey_event? hevent
  · obtain ⟨call, -, hevent⟩ := List.mem_filterMap.1 he
    exact Python.omitsNameKey_event? hevent
  · obtain ⟨call, -, hevent⟩ := List.mem_filterMap.1 he
    exact Ruby.omitsNameKey_event? hevent
  · obtain ⟨call, hcall, hevent⟩ := List.mem_flatMap.1 he
    exact ⟨Go.provider_ne_gtm_of_mem_eventsOf hevent, fun hsnowplow =>
      ⟨call, hcall, hevent, Go.exists_literal_of_snowplow hevent hsnowplow⟩⟩

/-- A purchase is sent to both providers: from a variable with a key that is spread in and repeated,
and from an object with another one spread into it. -/
def purchaseScript : Node := Script.read .javaScript (.ofString
  ("const base = \x7b action: 'View', label: 'shop' \x7d;\n" ++
    "const payload = \x7b ...base, action: 'Buy', price: 3, action: 'Sell' \x7d;\n" ++
    "snowplow.track(buildStructEvent(payload));\n" ++
    "dataLayer.push(\x7b event: 'Buy', ...\x7b event: 'Sell', price: 3 \x7d \x7d);\n"))

/-- The same purchase in Python. -/
def purchasePython : Node := Python.read (.ofString
  "tracker.track(StructuredEvent(action='Buy', price=3))\n")

/-- The same purchase in Ruby. -/
def purchaseRuby : Node := Ruby.read (.ofString
  "payload = \x7b action: 'Buy', price: 3 \x7d\ntracker.track_struct_event(payload)\n")

/-- The same purchase in Go. -/
def purchaseGo : Node := Go.read (.ofString
  ("package shop\n\nfunc buy() \x7b\n\ttracker.TrackStructEvent(" ++
    "StructuredEvent\x7bAction: \"Buy\", Price: 3\x7d)\n\x7d\n"))

/-- `view e` shows where an event goes, its name, and the names of its properties. -/
def Event.view (e : Event) : Provider × String × List String :=
  (e.provider, e.name, Named.keys e.properties)

/-- The purchases are reported with their prices, and without the keys of their names. -/
theorem event_key_not_reported_of_purchases :
    (∃ e ∈ Script.events .untyped [] (.ofTree ⟨"a.js"⟩ purchaseScript),
      e.view = (.snowplow, "Buy", ["label", "price"]) ∧ e.OmitsNameKey "action") ∧
    (∃ e ∈ Script.events .untyped [] (.ofTree ⟨"a.js"⟩ purchaseScript),
      e.view = (.gtm, "Buy", ["price"]) ∧ e.OmitsNameKey "action") ∧
    (∃ e ∈ Python.events [] ⟨"a.py"⟩ purchasePython,
      e.view = (.snowplow, "Buy", ["price"]) ∧ e.OmitsNameKey "action") ∧
    (∃ e ∈ Ruby.events none [] ⟨"a.rb"⟩ purchaseRuby,
      e.view = (.snowplow, "Buy", ["price"]) ∧ e.OmitsNameKey "action") ∧
    (∃ e ∈ Go.events [] ⟨"a.go"⟩ purchaseGo,
      e.view = (.snowplow, "Buy", ["Price"]) ∧ e.OmitsNameKey "Action") := by
  obtain ⟨hscript, hpython, hruby, hgo⟩ := event_key_not_reported []
  have hscripts : (Script.events .untyped [] (.ofTree ⟨"a.js"⟩ purchaseScript)).map Event.view =
      [(.snowplow, "Buy", ["label", "price"]), (.gtm, "Buy", ["price"])] := by
    decide +kernel
  refine ⟨?_, ?_, ?_, ?_, ?_⟩
  · obtain ⟨e, he, hview⟩ := List.mem_map.1 (hscripts ▸ List.mem_cons_self)
    exact ⟨e, he, hview, hscript .untyped _ e he⟩
  · obtain ⟨e, he, hview⟩ := List.mem_map.1 (hscripts ▸ List.mem_cons_of_mem _ List.mem_cons_self)
    exact ⟨e, he, hview, hscript .untyped _ e he⟩
  · have hviews : (Python.events [] ⟨"a.py"⟩ purchasePython).map Event.view =
        [(.snowplow, "Buy", ["price"])] := by
      decide +kernel
    obtain ⟨e, he, hview⟩ := List.mem_map.1 (hviews ▸ List.mem_cons_self)
    exact ⟨e, he, hview, hpython ⟨"a.py"⟩ _ e he⟩
  · have hviews : (Ruby.events none [] ⟨"a.rb"⟩ purchaseRuby).map Event.view =
        [(.snowplow, "Buy", ["price"])] := by
      decide +kernel
    obtain ⟨e, he, hview⟩ := List.mem_map.1 (hviews ▸ List.mem_cons_self)
    exact ⟨e, he, hview, hruby none ⟨"a.rb"⟩ _ e he⟩
  · obtain ⟨hviews, hkeyed⟩ : (Go.events [] ⟨"a.go"⟩ purchaseGo).map Event.view =
          [(.snowplow, "Buy", ["Price"])] ∧
        ∀ call ∈ Go.calls purchaseGo, ∀ argument ∈ Go.childrenIn call.node "arguments",
          ∀ body ∈ (Go.unwrap argument).child? "body", Go.KeyedByFields body := by
      decide +kernel
    obtain ⟨e, he, hview⟩ := List.mem_map.1 (hviews ▸ List.mem_cons_self)
    obtain ⟨-, hsnowplow⟩ := hgo ⟨"a.go"⟩ _ e he
    obtain ⟨call, hcall, -, literal, body, hliteral, hbody, homits⟩ :=
      hsnowplow (congrArg Prod.fst hview)
    obtain ⟨argument, hargument, rfl⟩ := hliteral.argument
    exact ⟨e, he, hview, homits (hkeyed call hcall argument hargument body hbody)⟩

end TrackingPlan
