import TrackingPlan.Path
import TrackingPlan.Provider
import TrackingPlan.Schema

/-!
# Tracking events

An event is one detected call that sends something to a provider. Two events are repetitions of each
other when they agree in provider, name, line and function; `Event.dedupe` keeps the first of these.
-/

namespace TrackingPlan

/-- One detected tracking call. -/
structure Event where
  name : String
  provider : Provider
  properties : Properties
  file : Path
  /-- The line of the call, counted from one. -/
  line : Nat
  /-- The function around the call. -/
  function : String
deriving Repr, Inhabited

namespace Event

/-- What repeated detections of one call have in common. -/
structure Key where
  provider : Provider
  name : String
  line : Nat
  function : String
deriving DecidableEq, Repr

/-- `key e` is what repetitions of `e` share with it. -/
def key (e : Event) : Key :=
  ⟨e.provider, e.name, e.line, e.function⟩

/-- `dedupeFrom seen events` drops the events whose key is in `seen` or occurred before. -/
def dedupeFrom : List Key → List Event → List Event
  | _, [] => []
  | seen, e :: rest =>
    if e.key ∈ seen then dedupeFrom seen rest else e :: dedupeFrom (e.key :: seen) rest

/-- `dedupe events` keeps the first event of each key. -/
def dedupe (events : List Event) : List Event :=
  dedupeFrom [] events

end Event

end TrackingPlan
