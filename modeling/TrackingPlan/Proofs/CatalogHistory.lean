import Mathlib.Data.List.Induction
import TrackingPlan.Catalog
import TrackingPlan.Proofs.Tables

/-!
# What a catalog remembers of its events

A catalog is filled by steps that add one event or several. `Records root events catalog` says what
it holds once these events were added: which names, and for every name the places in the order of
their first appearance and the schemas of the last events that have them. `Records.add` is the
invariant for one event and `records_extend` for a run of them; `catalog_of_history` is the main
statement.
-/

namespace TrackingPlan

/-- What an entry holds after the events `events`, which all have its name. -/
structure Entry.Records (root : Path) (events : List Event) (entry : Entry) : Prop where
  /-- The places are those of the events. -/
  mem_implementations_iff : ∀ site, site ∈ entry.implementations ↔
    ∃ e ∈ events, Catalog.implementation root e = site
  /-- No place is repeated. -/
  nodup : entry.implementations.Nodup
  /-- A place stands before those that appear later for the first time. -/
  first_appearance : entry.implementations.Pairwise fun a b =>
    (events.map (Catalog.implementation root)).idxOf a <
      (events.map (Catalog.implementation root)).idxOf b
  ordered : entry.properties.Ordered
  /-- The properties are those of the events. -/
  mem_keys_iff : ∀ key, key ∈ entry.properties.keys ↔ ∃ e ∈ events, key ∈ e.properties.keys
  /-- A property has the schema that the last event with this property gives it. -/
  find?_properties : ∀ key, Named.find? entry.properties key =
    events.reverse.findSome? fun e => Named.find? e.properties key

namespace Catalog

/-- What a catalog holds after the events `events`. -/
structure Records (root : Path) (events : List Event) (catalog : Catalog) : Prop where
  ordered : catalog.Ordered
  /-- The names are those of the events. -/
  mem_keys_iff : ∀ name, name ∈ catalog.keys ↔ ∃ e ∈ events, e.name = name
  /-- An entry holds what the events of its name leave. -/
  records_of_find? : ∀ name entry, catalog.find? name = some entry →
    entry.Records root (events.filter (·.name = name))

/-- One step of filling a catalog. -/
inductive Step where
  | add (e : Event)
  | extend (events : List Event)

/-- `added s` lists the events that the step `s` adds. -/
def Step.added : Step → List Event
  | add e => [e]
  | extend events => events

/-- `apply root catalog s` is `catalog` after the step `s`. -/
def Step.apply (root : Path) (catalog : Catalog) : Step → Catalog
  | add e => Catalog.add root catalog e
  | extend events => Catalog.extend root catalog events

/-- `filled root steps` is what the steps make of an empty catalog. -/
def filled (root : Path) (steps : List Step) : Catalog := steps.foldl (Step.apply root) []

/-- `history steps` lists the events that the steps add, in order. -/
def history (steps : List Step) : List Event := steps.flatMap Step.added

variable {root : Path} {events : List Event} {catalog : Catalog} {entry : Entry} {e : Event}

/-! ## One event -/

/-- An entry without anything records no events. -/
theorem records_empty_entry (root : Path) : Entry.Records root [] ⟨[], []⟩ where
  mem_implementations_iff := by simp
  nodup := List.nodup_nil
  first_appearance := List.Pairwise.nil
  ordered := Named.ordered_nil
  mem_keys_iff := by simp [Named.keys]
  find?_properties := by simp

/-- An entry with one more event still holds each place once, in order. -/
theorem first_appearance_addTo (h : entry.Records root events) (e : Event) :
    let sites := (events ++ [e]).map (implementation root)
    (addTo entry (implementation root e) e.properties).implementations.Pairwise
      fun a b => sites.idxOf a < sites.idxOf b := by
  intro sites
  have hsites : sites = events.map (implementation root) ++ [implementation root e] := by
    simp [sites]
  have hmem : ∀ site ∈ entry.implementations, site ∈ events.map (implementation root) := by
    intro site hsite
    obtain ⟨found, hfound, rfl⟩ := (h.mem_implementations_iff site).1 hsite
    exact List.mem_map_of_mem hfound
  -- a new event at the end moves no place that appeared before
  have hkept : entry.implementations.Pairwise fun a b => sites.idxOf a < sites.idxOf b := by
    refine h.first_appearance.imp_of_mem fun ha hb hlt => ?_
    rwa [hsites, List.idxOf_append_of_mem (hmem _ ha), List.idxOf_append_of_mem (hmem _ hb)]
  unfold addTo
  split
  · exact hkept
  next hnew =>
    refine List.pairwise_append.2 ⟨hkept, List.pairwise_singleton _ _, fun a ha b hb => ?_⟩
    obtain rfl := List.mem_singleton.1 hb
    have hfresh : implementation root e ∉ events.map (implementation root) := by
      intro hold
      obtain ⟨found, hfound, heq⟩ := List.mem_map.1 hold
      exact hnew ((h.mem_implementations_iff _).2 ⟨found, hfound, heq⟩)
    rw [hsites, List.idxOf_append_of_mem (hmem a ha), List.idxOf_append_of_notMem hfresh]
    exact Nat.lt_of_lt_of_le (List.idxOf_lt_length_of_mem (hmem a ha)) (Nat.le_add_right _ _)

/-- An entry with one more event holds what one more event leaves. -/
theorem records_addTo (h : entry.Records root events) (hproperties : e.properties.Ordered) :
    (addTo entry (implementation root e) e.properties).Records root (events ++ [e]) where
  mem_implementations_iff site := by
    have hold := h.mem_implementations_iff site
    unfold addTo
    split
    next hknown =>
      simp only [hold, List.mem_append, List.mem_singleton, or_and_right, exists_or, exists_eq_left]
      refine ⟨.inl, ?_⟩
      rintro (hfound | rfl)
      · exact hfound
      · exact (h.mem_implementations_iff _).1 hknown
    next =>
      simp only [hold, List.mem_append, List.mem_singleton, or_and_right, exists_or, exists_eq_left]
      rw [eq_comm (a := site)]
  nodup := by
    unfold addTo
    split
    · exact h.nodup
    next hnew => exact h.nodup.append (List.nodup_singleton _) (by simpa using hnew)
  first_appearance := first_appearance_addTo h e
  ordered := h.ordered.merge e.properties
  mem_keys_iff key := by
    have hkeys : key ∈ (addTo entry (implementation root e) e.properties).properties.keys ↔
        key ∈ entry.properties.keys ∨ key ∈ e.properties.keys := Named.mem_keys_merge
    rw [hkeys, h.mem_keys_iff]
    simp [or_and_right, exists_or]
  find?_properties key := by
    have hmerge : Named.find? (addTo entry (implementation root e) e.properties).properties key =
        (Named.find? e.properties key).or (Named.find? entry.properties key) :=
      hproperties.find?_merge entry.properties key
    rw [hmerge, h.find?_properties, List.reverse_append]
    cases hfound : Named.find? e.properties key <;> simp [hfound]

/-- Adding an event is recorded: under its own name at the end, and under no other name. -/
theorem Records.add (h : Records root events catalog) (hproperties : e.properties.Ordered) :
    Records root (events ++ [e]) (Catalog.add root catalog e) where
  ordered := h.ordered.insert
  mem_keys_iff name := by
    have hkeys : name ∈ (Catalog.add root catalog e).keys ↔ name = e.name ∨ name ∈ catalog.keys :=
      Named.mem_keys_insert
    rw [hkeys, h.mem_keys_iff]
    simp [or_and_right, exists_or, eq_comm, or_comm]
  records_of_find? name entry hentry := by
    simp only [Catalog.add, Named.find?_insert] at hentry
    by_cases hname : e.name = name
    · rw [if_pos hname] at hentry
      obtain rfl := Option.some.inj hentry
      have hevents : (events ++ [e]).filter (·.name = name) =
          events.filter (·.name = name) ++ [e] := by simp [hname]
      rw [hevents, hname]
      refine records_addTo ?_ hproperties
      cases hheld : catalog.find? name with
      | some held => exact h.records_of_find? name held hheld
      | none =>
          -- without an entry there was no event of that name
          have hnone : events.filter (·.name = name) = [] := by
            refine List.filter_eq_nil_iff.2 fun found hfound hsame => ?_
            have hkey := (h.mem_keys_iff name).2 ⟨found, hfound, by simpa using hsame⟩
            obtain ⟨held, hfind⟩ := Named.mem_keys_iff_find?.1 hkey
            rw [hheld] at hfind
            cases hfind
          rw [hnone]
          exact records_empty_entry root
    · rw [if_neg hname] at hentry
      have hevents : (events ++ [e]).filter (·.name = name) = events.filter (·.name = name) := by
        simp [hname]
      rw [hevents]
      exact h.records_of_find? name entry hentry

/-- Events of different names can be added in either order. -/
theorem add_comm (hcatalog : catalog.Ordered) {a b : Event} (hne : a.name ≠ b.name) :
    Catalog.add root (Catalog.add root catalog a) b =
      Catalog.add root (Catalog.add root catalog b) a := by
  unfold Catalog.add
  rw [Named.find?_insert, Named.find?_insert, if_neg hne, if_neg hne.symm]
  exact hcatalog.insert_comm hne

/-! ## Runs -/

/-- Steps add the events of their history, one after the other. -/
theorem filled_eq_extend (root : Path) (steps : List Step) :
    filled root steps = Catalog.extend root [] (history steps) := by
  have hstep : Step.apply root = fun catalog s => s.added.foldl (Catalog.add root) catalog := by
    funext catalog s
    cases s <;> rfl
  rw [filled, history, Catalog.extend, List.foldl_flatMap, hstep]

/-- A catalog holds what its events leave, in whatever steps they were added. -/
theorem records_extend (root : Path) (hproperties : ∀ e ∈ events, e.properties.Ordered) :
    Records root events (Catalog.extend root [] events) := by
  induction events using List.reverseRecOn with
  | nil => exact ⟨Named.ordered_nil, by simp [Catalog.extend, Named.keys], by simp [Catalog.extend]⟩
  | append_singleton events e ih =>
      have hextend : Catalog.extend root [] (events ++ [e]) =
          Catalog.add root (Catalog.extend root [] events) e := by
        simp [Catalog.extend, List.foldl_append]
      rw [hextend]
      refine Records.add (ih fun found hfound => ?_) (hproperties e (by simp))
      exact hproperties found (List.mem_append_left _ hfound)

/-- An extension keeps the names in order. -/
theorem ordered_extend (root : Path) (hcatalog : catalog.Ordered) (events : List Event) :
    (Catalog.extend root catalog events).Ordered := by
  induction events generalizing catalog with
  | nil => exact hcatalog
  | cons e rest ih => exact ih hcatalog.insert

/-- Two neighbours of different names can be exchanged anywhere in a history. -/
theorem extend_swap (root : Path) (before after : List Event) {a b : Event}
    (hne : a.name ≠ b.name) :
    Catalog.extend root [] (before ++ a :: b :: after) =
      Catalog.extend root [] (before ++ b :: a :: after) := by
  have hordered := ordered_extend root Named.ordered_nil before
  simp only [Catalog.extend, List.foldl_append, List.foldl_cons] at hordered ⊢
  rw [add_comm hordered hne]

/-- After any steps, a catalog has the names of the added events, and every entry has the distinct
places of the events of its name in the order of first appearance and, for each of their properties,
the schema of the last of them that has it. Neighbouring events of different names can be
exchanged. -/
theorem catalog_of_history (root : Path) (steps : List Step)
    (hproperties : ∀ e ∈ history steps, e.properties.Ordered) :
    Records root (history steps) (filled root steps) ∧
    ∀ others before a b after, a.name ≠ b.name → history steps = before ++ a :: b :: after →
      history others = before ++ b :: a :: after → filled root steps = filled root others := by
  refine ⟨?_, fun others before a b after hne hsteps hothers => ?_⟩
  · rw [filled_eq_extend]
    exact records_extend root hproperties
  · rw [filled_eq_extend, filled_eq_extend, hsteps, hothers]
    exact extend_swap root before after hne

/-- Two sign-ups at one place, with a login between them: the schema of the plan is that of the
second, and the login can as well come first. -/
theorem catalog_of_two_signups :
    let signup (properties : Properties) : Event :=
      ⟨"Signup", .segment, properties, ⟨"app/a.js"⟩, 1, "join"⟩
    let login : Event := ⟨"Login", .segment, [], ⟨"app/b.js"⟩, 3, "enter"⟩
    let first := signup [("plan", .string)]
    let second := signup [("age", .number), ("plan", .number)]
    let steps : List Step := [.extend [first, login], .add second]
    (∀ e ∈ history steps, e.properties.Ordered) ∧
    Records ⟨"app"⟩ (history steps) (filled ⟨"app"⟩ steps) ∧
    filled ⟨"app"⟩ steps = filled ⟨"app"⟩ [.add login, .extend [first, second]] := by
  intro signup login first second steps
  have hfirst : Named.Ordered first.properties := List.pairwise_singleton _ _
  have hsecond : Named.Ordered second.properties :=
    List.pairwise_pair.2 (by decide)
  have hproperties : ∀ e ∈ history steps, e.properties.Ordered := by
    intro e he
    simp only [history, steps, Step.added, List.flatMap_cons, List.flatMap_nil, List.append_nil,
      List.cons_append, List.nil_append, List.mem_cons, List.not_mem_nil, or_false] at he
    rcases he with rfl | rfl | rfl
    · exact hfirst
    · exact Named.ordered_nil
    · exact hsecond
  obtain ⟨hrecords, hswap⟩ := catalog_of_history ⟨"app"⟩ steps hproperties
  have hnames : first.name ≠ login.name := by decide
  exact ⟨hproperties, hrecords, hswap _ [] first login [second] hnames rfl rfl⟩

end Catalog

end TrackingPlan
