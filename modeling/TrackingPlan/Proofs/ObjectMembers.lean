import Mathlib.Data.List.Induction
import TrackingPlan.Proofs.TypedScripts

/-!
# Repeated keys of objects

A key may stand in an object written out more than once. The member of that key is taken from the
first entry (`member?_eq_some_iff`), and its field from the last (`find?_objectFields_eq_some_iff`).
So `members_of_object` says that the two agree where a key is not repeated, and only there:
`repeated_keys_disagree` is an event whose name is not what its key stands for in the end.
-/

namespace TrackingPlan.Script

variable {object entry first last value s : Site} {entries : List Site} {key : String}

/-! ## Entries -/

/-- `entryKey? entry` is the key of an entry of an object, if it has one that can be read. -/
def entryKey? (entry : Site) : Option String :=
  if entry.kind = "pair" then (entry.node.child? "key").bind key?
  else if entry.kind = "shorthand_property_identifier" then some entry.text
  else none

/-- `entryValue? entry` is the value of an entry of an object; a name alone is its own. -/
def entryValue? (entry : Site) : Option Site :=
  if entry.kind = "pair" then entry.child? "value"
  else if entry.kind = "shorthand_property_identifier" then some entry
  else none

/-- `entrySchema value name entry` is the schema of an entry, with `value` for the values of pairs
and `name` for names that stand for themselves. -/
def entrySchema (value name : Site → Schema) (entry : Site) : Schema :=
  if entry.kind = "pair" then ((entry.child? "value").map value).getD .any else name entry

/-- An entry has a value for its own key. -/
theorem memberValue?_eq (key : String) (entry : Site) :
    memberValue? key entry = if entryKey? entry = some key then entryValue? entry else none := by
  unfold memberValue?
  split
  next hkind =>
    have hkey :
        ((entry.child? "key").bind fun k => key? k.node) = (entry.node.child? "key").bind key? := by
      rw [Site.child?, Option.bind_map]
      rfl
    rw [entryKey?, if_pos hkind, entryValue?, if_pos hkind, hkey]
    cases (entry.node.child? "key").bind key? with
    | none => rfl
    | some name => simp
  next hkind => simp [entryKey?, entryValue?, hkind]
  next hpair hname => simp [entryKey?, if_neg hpair, if_neg hname]

/-- An entry that is no spread is put under its key. -/
theorem addEntry_eq {value name : Site → Schema} {spread : Site → Properties}
    (hentry : entry.kind ≠ "spread_element")
    (fields : Properties) : addEntry value name spread fields entry =
      (entryKey? entry).elim fields fun key =>
        fields.insert key (entrySchema value name entry) := by
  unfold addEntry
  split
  next hkind =>
    rw [entryKey?, if_pos hkind, entrySchema, if_pos hkind]
    cases (entry.node.child? "key").bind key? with
    | none => rfl
    | some key => cases entry.child? "value" <;> rfl
  next hkind => simp [entryKey?, entrySchema, hkind]
  next hkind => exact absurd hkind hentry
  next hpair hname _ => simp [entryKey?, if_neg hpair, if_neg hname]

/-- `entry` is the first of the entries with that key. -/
def IsFirstEntry (entries : List Site) (key : String) (entry : Site) : Prop :=
  ∃ before after, entries = before ++ entry :: after ∧ entryKey? entry = some key ∧
    ∀ other ∈ before, entryKey? other ≠ some key

/-- `entry` is the last of the entries with that key. -/
def IsLastEntry (entries : List Site) (key : String) (entry : Site) : Prop :=
  ∃ before after, entries = before ++ entry :: after ∧ entryKey? entry = some key ∧
    ∀ other ∈ after, entryKey? other ≠ some key

/-- The first entry with a key is the one that is found from the front. -/
theorem isFirstEntry_iff :
    IsFirstEntry entries key entry ↔ entries.find? (entryKey? · = some key) = some entry := by
  rw [List.find?_eq_some_iff_append]
  simp only [IsFirstEntry, decide_eq_true_eq, Bool.not_eq_true', decide_eq_false_iff_not]
  constructor
  · rintro ⟨before, after, hentries, hkey, hnone⟩
    exact ⟨hkey, before, after, hentries, hnone⟩
  · rintro ⟨hkey, before, after, hentries, hnone⟩
    exact ⟨before, after, hentries, hkey, hnone⟩

/-- The first entry with a key is one of the entries. -/
theorem IsFirstEntry.mem (h : IsFirstEntry entries key entry) : entry ∈ entries := by
  obtain ⟨before, after, rfl, -⟩ := h
  simp

/-- The first entry with a key has it. -/
theorem IsFirstEntry.key_eq (h : IsFirstEntry entries key entry) : entryKey? entry = some key := by
  obtain ⟨before, after, -, hkey, -⟩ := h
  exact hkey

/-- Where some entry has the key, one of them is the first. -/
theorem exists_isFirstEntry (hentry : entry ∈ entries) (hkey : entryKey? entry = some key) :
    ∃ first, IsFirstEntry entries key first := by
  simp only [isFirstEntry_iff, ← Option.isSome_iff_exists, List.find?_isSome]
  exact ⟨entry, hentry, decide_eq_true hkey⟩

/-- The last entry is the first from behind. -/
theorem isLastEntry_iff :
    IsLastEntry entries key entry ↔ IsFirstEntry entries.reverse key entry := by
  constructor
  · rintro ⟨before, after, rfl, hkey, hnone⟩
    exact ⟨after.reverse, before.reverse, by simp, hkey, fun other hother =>
      hnone other (List.mem_reverse.1 hother)⟩
  · rintro ⟨before, after, hentries, hkey, hnone⟩
    refine ⟨after.reverse, before.reverse, ?_, hkey, fun other hother =>
      hnone other (List.mem_reverse.1 hother)⟩
    rw [← entries.reverse_reverse, hentries]
    simp

/-- The last entry with a key is one of the entries. -/
theorem IsLastEntry.mem (h : IsLastEntry entries key entry) : entry ∈ entries :=
  List.mem_reverse.1 (isLastEntry_iff.1 h).mem

/-- The last entry with a key has it. -/
theorem IsLastEntry.key_eq (h : IsLastEntry entries key entry) : entryKey? entry = some key :=
  (isLastEntry_iff.1 h).key_eq

/-- Where some entry has the key, one of them is the last. -/
theorem exists_isLastEntry (hentry : entry ∈ entries) (hkey : entryKey? entry = some key) :
    ∃ last, IsLastEntry entries key last := by
  simp only [isLastEntry_iff]
  exact exists_isFirstEntry (List.mem_reverse.2 hentry) hkey

/-! ## Objects -/

/-- An object written out into which nothing is spread; its pairs have values. -/
structure IsPlainObject (object : Site) : Prop where
  isObject : object.kind = "object"
  unspread : ∀ entry ∈ object.children, entry.kind ≠ "spread_element"
  valued : ∀ entry ∈ object.children, entry.kind = "pair" → (entry.child? "value").isSome = true

instance (object : Site) : Decidable (IsPlainObject object) :=
  decidable_of_iff (object.kind = "object" ∧
    (∀ entry ∈ object.children, entry.kind ≠ "spread_element") ∧
      ∀ entry ∈ object.children, entry.kind = "pair" → (entry.child? "value").isSome = true)
    ⟨fun h => ⟨h.1, h.2.1, h.2.2⟩, fun h => ⟨h.isObject, h.unspread, h.valued⟩⟩

/-- In a plain object every entry with a key has a value. -/
theorem IsPlainObject.exists_value (h : IsPlainObject object) (hentry : entry ∈ object.children)
    (hkey : entryKey? entry = some key) : ∃ value, entryValue? entry = some value := by
  by_cases hpair : entry.kind = "pair"
  · rw [entryValue?, if_pos hpair]
    exact Option.isSome_iff_exists.1 (h.valued entry hentry hpair)
  · rw [entryKey?, if_neg hpair] at hkey
    rw [entryValue?, if_neg hpair]
    split at hkey
    next hname => exact ⟨entry, if_pos hname⟩
    next => cases hkey

/-- The value that is found for a key is that of the first entry with it. -/
theorem findSome?_memberValue?
    (h : ∀ entry ∈ entries, entryKey? entry = some key → ∃ value, entryValue? entry = some value) :
    entries.findSome? (memberValue? key) = (entries.find? (entryKey? · = some key)).bind
      entryValue? := by
  induction entries with
  | nil => rfl
  | cons entry rest ih =>
      obtain ⟨hentry, hrest⟩ := List.forall_mem_cons.1 h
      rw [List.findSome?_cons, List.find?_cons, memberValue?_eq]
      by_cases hkey : entryKey? entry = some key
      · obtain ⟨value, hvalue⟩ := hentry hkey
        simp [hkey, hvalue]
      · simp [hkey, ih hrest]

/-- The member of a key is the value of the first entry with that key. -/
theorem member?_eq_some_iff (h : IsPlainObject object) : member? object key = some value ↔
    ∃ first, IsFirstEntry object.children key first ∧ entryValue? first = some value := by
  rw [member?, findSome?_memberValue? fun entry hentry => h.exists_value hentry,
    Option.bind_eq_some_iff]
  simp only [isFirstEntry_iff]

/-- What is read off the member of a key is read off the value of the first entry with that key. -/
theorem bind_member?_eq_some_iff {α : Type} {read : Site → Option α} {result : α}
    (h : IsPlainObject object) :
    (member? object key).bind read = some result ↔
      ∃ first value, IsFirstEntry object.children key first ∧
      entryValue? first = some value ∧ read value = some result := by
  simp only [Option.bind_eq_some_iff, member?_eq_some_iff h]
  constructor
  · rintro ⟨value, ⟨first, hfirst, hvalue⟩, hread⟩
    exact ⟨first, value, hfirst, hvalue, hread⟩
  · rintro ⟨first, value, hfirst, hvalue, hread⟩
    exact ⟨value, ⟨first, hfirst, hvalue⟩, hread⟩

/-- The schema that is found for a key is that of the last entry with it. -/
theorem find?_foldl_addEntry {value name : Site → Schema} {spread : Site → Properties}
    (h : ∀ entry ∈ entries, entry.kind ≠ "spread_element") :
    (entries.foldl (addEntry value name spread) []).find? key =
      (entries.reverse.find? (entryKey? · = some key)).map (entrySchema value name) := by
  -- from the last entry on: it replaces what earlier ones of its key have left
  induction entries using List.reverseRecOn with
  | nil => rfl
  | append_singleton before last ih =>
      obtain ⟨hbefore, hlast⟩ := List.forall_mem_append.1 h
      rw [List.foldl_append, List.reverse_append, List.reverse_singleton, List.singleton_append,
        List.find?_cons,
        List.foldl_cons, List.foldl_nil, addEntry_eq (hlast last (List.mem_singleton_self last))]
      cases hkey : entryKey? last with
      | none => simpa using ih hbefore
      | some name =>
          rw [Option.elim_some, Named.find?_insert]
          by_cases hname : name = key
          · simp [hname]
          · simpa [hname] using ih hbefore

/-- The field of a key has the schema of the last entry with that key. -/
theorem find?_objectFields_eq_some_iff {value name : Site → Schema} {spread : Site → Properties}
    {schema : Schema}
    (h : IsPlainObject object) : (objectFields value name spread object).find? key = some schema ↔
      ∃ last, IsLastEntry object.children key last ∧ entrySchema value name last = schema := by
  rw [objectFields_eq, find?_foldl_addEntry h.unspread, Option.map_eq_some_iff]
  simp only [isLastEntry_iff, isFirstEntry_iff]

/-- The entries of an object stand right in it. -/
theorem ancestors_of_mem_children (h : entry ∈ object.children) :
    entry.ancestors = object.node :: object.ancestors := by
  obtain ⟨n, -, rfl⟩ := List.mem_map.1 h
  rfl

/-- A value belongs to one entry of an object. -/
theorem entryValue?_inj {other : Site} (hentry : entry ∈ object.children)
    (hother : other ∈ object.children)
    (hvalue : entryValue? entry = some value) (hsame : entryValue? other = some value) :
    entry = other := by
  have hancestors : entry.ancestors = other.ancestors :=
    (ancestors_of_mem_children hentry).trans (ancestors_of_mem_children hother).symm
  -- the value of a pair stands below the pair, and a name where the entry does
  have hform : ∀ e : Site, entryValue? e = some value →
      value.ancestors = e.node :: e.ancestors ∨ value = e := by
    intro e he
    unfold entryValue? at he
    split at he
    next =>
      obtain ⟨n, -, rfl⟩ := Option.map_eq_some_iff.1 he
      exact .inl rfl
    next =>
      split at he
      next => exact .inr (Option.some.inj he).symm
      next => cases he
  rcases hform entry hvalue with hbelow | rfl
  · rcases hform other hsame with hagain | rfl
    · obtain ⟨hnode, hrest⟩ := List.cons.inj (hbelow.symm.trans hagain)
      exact congr (congrArg Site.mk hnode) hrest
    · rw [hancestors] at hbelow
      exact absurd hbelow.symm (List.cons_ne_self _ _)
  · rcases hform other hsame with hagain | rfl
    · rw [hancestors] at hagain
      exact absurd hagain.symm (List.cons_ne_self _ _)
    · rfl

/-- The schema of an entry in a script. -/
def schemaOf (scope : Scope) : Site → Schema :=
  entrySchema (valueSchema scope allHops)
    fun name => if scope.modules.typed then nameSchema scope allHops name.text name else .any

/-- The member of a key is the value of the first entry with that key, and its field has the schema
of the last; so the two agree just where the first is the last. Event names and constants are taken
from the first. -/
theorem members_of_object (h : IsPlainObject object) (scope : Scope) (key : String) :
    ((∃ value, member? object key = some value) ↔ key ∈ (fieldsOfObject scope object).keys) ∧
    (∀ value, member? object key = some value ↔
      ∃ first, IsFirstEntry object.children key first ∧ entryValue? first = some value) ∧
    (∀ schema, (fieldsOfObject scope object).find? key = some schema ↔
      ∃ last, IsLastEntry object.children key last ∧ schemaOf scope last = schema) ∧
    (∀ first last, IsFirstEntry object.children key first → IsLastEntry object.children key last →
      (member? object key = entryValue? last ↔ first = last)) ∧
    (∀ payload, resolveObject? scope payload = some object → ∀ name properties,
      keyed? scope payload key = some (name, properties) ↔
        properties = (fieldsOfObject scope object).erase key ∧ ∃ first value,
          IsFirstEntry object.children key first ∧ entryValue? first = some value ∧
            eventName? scope.modules scope.module value = some name) ∧
    ∀ modules hops m container rest text, unwrap container = object →
      (stringIn? modules (hops + 1) m container (key :: rest) = some text ↔ ∃ first value,
        IsFirstEntry object.children key first ∧ entryValue? first = some value ∧
          stringIn? modules hops m value rest = some text) := by
  have hmember : ∀ {value}, member? object key = some value ↔
      ∃ first, IsFirstEntry object.children key first ∧ entryValue? first = some value :=
    member?_eq_some_iff h
  have hfield : ∀ {schema}, (fieldsOfObject scope object).find? key = some schema ↔
      ∃ last, IsLastEntry object.children key last ∧ schemaOf scope last = schema :=
    find?_objectFields_eq_some_iff h
  refine ⟨?_, fun _ => hmember, fun _ => hfield, fun first last hfirst hlast => ?_,
    fun payload hpayload name properties =>
      ?_, fun modules hops m container rest text hcontainer => ?_⟩
  · rw [Named.mem_keys_iff_find?]
    simp only [hmember, hfield]
    constructor
    · rintro ⟨value, first, hfirst, -⟩
      obtain ⟨last, hlast⟩ := exists_isLastEntry hfirst.mem hfirst.key_eq
      exact ⟨_, last, hlast, rfl⟩
    · rintro ⟨schema, last, hlast, -⟩
      obtain ⟨first, hfirst⟩ := exists_isFirstEntry hlast.mem hlast.key_eq
      obtain ⟨value, hvalue⟩ := h.exists_value hfirst.mem hfirst.key_eq
      exact ⟨value, first, hfirst, hvalue⟩
  · obtain ⟨value, hvalue⟩ := h.exists_value hfirst.mem hfirst.key_eq
    rw [hmember.2 ⟨first, hfirst, hvalue⟩]
    constructor
    · exact fun hsame => entryValue?_inj hfirst.mem hlast.mem hvalue hsame.symm
    · rintro rfl
      exact hvalue.symm
  · rw [← bind_member?_eq_some_iff h, keyed?, hpayload]
    dsimp only
    cases (member? object key).bind (eventName? scope.modules scope.module) with
    | none => simp
    | some found => simp [and_comm, eq_comm]
  · rw [← bind_member?_eq_some_iff h, stringIn?, hcontainer]
    simp only [h.isObject]
    cases member? object key <;> simp

/-- `plainScript source` is the plain script with that source. -/
def plainScript (source : String) : Module :=
  .ofTree ⟨"a.js"⟩ (read .javaScript (Source.ofString source))

/-- `pushed? m` is the first argument of the first call of a script. -/
def pushed? (m : Module) : Option Site :=
  (calls m.root).head?.bind fun call => (argumentsOf call).head?

/-- A payload with keys of several forms, of which one is repeated. -/
def mixedKeys : Module :=
  plainScript "dataLayer.push(\x7bevent: 'Signup', 'plan': 1, user, [`plan`]: 'pro', 7: null\x7d)"

/-- In the sample object the first entry of a key counts as its member and the last one as its
field. -/
theorem members_of_object_of_mixedKeys :
    ∃ object value, pushed? mixedKeys = some object ∧ IsPlainObject object ∧ value.text = "1" ∧
      (∃ first, IsFirstEntry object.children "plan" first ∧ entryValue? first = some value) ∧
      (∃ last, IsLastEntry object.children "plan" last ∧
        schemaOf ⟨.untyped, mixedKeys⟩ last = .string) ∧
      "plan" ∈ (fieldsOfObject ⟨.untyped, mixedKeys⟩ object).keys := by
  have hchecked : (pushed? mixedKeys).any (fun object => IsPlainObject object ∧
      (member? object "plan").map (·.text) = some "1" ∧
      (fieldsOfObject ⟨.untyped, mixedKeys⟩ object).find? "plan" = some .string) = true := by
    decide +kernel
  obtain ⟨object, hobject, hchecked⟩ := (Option.any_eq_true _ _).1 hchecked
  obtain ⟨hplain, hmember, hfield⟩ := of_decide_eq_true hchecked
  obtain ⟨value, hvalue, htext⟩ := Option.map_eq_some_iff.1 hmember
  obtain ⟨hkey, hfirst, hlast, -⟩ := members_of_object hplain ⟨.untyped, mixedKeys⟩ "plan"
  exact ⟨object, value, hobject, hplain, htext, (hfirst value).1 hvalue, (hlast .string).1 hfield,
    hkey.1 ⟨value, hvalue⟩⟩

/-- The member is not the value of the last entry, which is the one that counts, and the event is
called after it. A constant of a map is taken from the first entry as well. -/
theorem repeated_keys_disagree :
    let pushing := plainScript "dataLayer.push(\x7bevent: 'a', event: 'b'\x7d)"
    let reading := plainScript "const E = \x7bA: 'x', A: 'y'\x7d; analytics.track(E.A)"
    (∃ object last, pushed? pushing = some object ∧ IsPlainObject object ∧
      IsLastEntry object.children "event" last ∧
      (entryValue? last).map (·.text) = some "'b'" ∧ member? object "event" ≠ entryValue? last) ∧
    (events .untyped [] pushing).map (·.name) = ["a"] ∧
    (events .untyped [] reading).map (·.name) = ["x"] := by
  intro pushing reading
  have hchecked : (pushed? pushing).any (fun object => IsPlainObject object ∧
      (object.children.reverse.find? (entryKey? · = some "event")).any
        (fun last => (entryValue? last).map (·.text) = some "'b'") = true ∧
      (member? object "event").map (·.text) = some "'a'") = true ∧
      (events .untyped [] pushing).map (·.name) = ["a"] ∧
      (events .untyped [] reading).map (·.name) = ["x"] := by
    decide +kernel
  obtain ⟨hchecked, hevents⟩ := hchecked
  obtain ⟨object, hobject, hchecked⟩ := (Option.any_eq_true _ _).1 hchecked
  obtain ⟨hplain, hlast, hmember⟩ := of_decide_eq_true hchecked
  obtain ⟨last, hlast, htext⟩ := (Option.any_eq_true _ _).1 hlast
  have htext := of_decide_eq_true htext
  refine ⟨⟨object, last, hobject, hplain, isLastEntry_iff.2 (isFirstEntry_iff.2 hlast), htext,
    fun hsame => ?_⟩, hevents⟩
  rw [hsame, htext] at hmember
  exact absurd hmember (by decide)

end TrackingPlan.Script
