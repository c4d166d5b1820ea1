import TrackingPlan.Event

/-!
# Catalogs of events

A catalog gathers events under their names: where each is fired from, in the order of discovery and
without repetition, and which properties it has, of which a later schema replaces an earlier one.
`Catalog.add` folds in one event.
-/

namespace TrackingPlan

/-- A place that an event is fired from. -/
structure Implementation where
  /-- The file, as seen from the root of the scan. -/
  path : String
  line : Nat
  function : String
  destination : Provider
deriving DecidableEq, Repr

/-- What is known of all events of one name. -/
structure Entry where
  implementations : List Implementation
  properties : Properties
deriving Repr, Inhabited

/-- The entries of all events, in name order. -/
abbrev Catalog := Named Entry

namespace Catalog

/-- `implementation root e` is the place `e` is fired from, seen from `root`. -/
def implementation (root : Path) (e : Event) : Implementation :=
  ⟨Path.relative root e.file, e.line, e.function, e.provider⟩

/-- `addTo entry site properties` adds a place, unless it is known, and merges properties. -/
def addTo (entry : Entry) (site : Implementation) (properties : Properties) : Entry where
  implementations :=
    if site ∈ entry.implementations then entry.implementations
    else entry.implementations ++ [site]
  properties := entry.properties.merge properties

/-- `add root catalog e` folds the event `e` into `catalog`. -/
def add (root : Path) (catalog : Catalog) (e : Event) : Catalog :=
  let entry := (catalog.find? e.name).getD ⟨[], []⟩
  catalog.insert e.name (addTo entry (implementation root e) e.properties)

/-- `extend root catalog events` folds in `events` in order. -/
def extend (root : Path) (catalog : Catalog) (events : List Event) : Catalog :=
  events.foldl (add root) catalog

end Catalog

end TrackingPlan
