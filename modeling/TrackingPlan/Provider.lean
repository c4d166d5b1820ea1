/-!
# Analytics providers

The services that tracking calls send their events to, and the calls that reach them. A provider is
recognised by the last two parts of a callee path: the receiver in any letter case, and the method
exactly. `Provider.ofName?_name` says that a provider is read back from its name.
-/

namespace TrackingPlan

/-- Where a tracking call sends its event. -/
inductive Provider where
  | segment
  | mixpanel
  | amplitude
  | rudderstack
  | mparticle
  | posthog
  | pendo
  | heap
  | datadog
  | snowplow
  | gtm
  | googleAnalytics
  /-- A function of the user's own, described by a signature. -/
  | custom
deriving DecidableEq, Repr, Inhabited

/-- `lowered text` is `text` in lower case as far as ASCII goes: besides the ASCII capitals, the
Kelvin sign is the only character whose lower case is an ASCII letter. Names with other characters
stand in no table. -/
def lowered (text : String) : String :=
  String.ofList (text.toList.map fun c => if c.toNat = 0x212A then 'k' else c.toLower)

namespace Provider

/-- All providers. -/
def all : List Provider :=
  [segment, mixpanel, amplitude, rudderstack, mparticle, posthog, pendo, heap, datadog, snowplow,
    gtm, googleAnalytics, custom]

/-- `name p` is the name of `p` in reports. -/
def name : Provider → String
  | segment => "segment"
  | mixpanel => "mixpanel"
  | amplitude => "amplitude"
  | rudderstack => "rudderstack"
  | mparticle => "mparticle"
  | posthog => "posthog"
  | pendo => "pendo"
  | heap => "heap"
  | datadog => "datadog"
  | snowplow => "snowplow"
  | gtm => "gtm"
  | googleAnalytics => "googleanalytics"
  | custom => "custom"

/-- `ofName? text` is the provider of exactly that name. -/
def ofName? (text : String) : Option Provider :=
  all.find? (·.name = text)

/-- `read? text` is the provider of that name in any letter case. -/
def read? (text : String) : Option Provider :=
  ofName? (lowered text)

/-- Each provider is read back from its name. -/
theorem ofName?_name (p : Provider) : ofName? p.name = some p := by
  cases p <;> decide

end Provider

/-- The calls that reach providers in one family of languages. -/
structure ProviderTable where
  /-- Receiver and method, joined by a full stop. -/
  members : List (String × Provider)
  /-- Functions called without a receiver. -/
  functions : List (String × Provider)

namespace ProviderTable

/-- `lookup? table callee` is the provider that a call of `callee` reaches. -/
def lookup? (table : ProviderTable) (callee : List String) : Option Provider :=
  match callee.reverse with
  | [] => none
  | [function] => table.functions.lookup function
  | method :: receiver :: _ => table.members.lookup (lowered receiver ++ "." ++ method)

/-- The calls of browser and server libraries for JavaScript and TypeScript. -/
def javaScript : ProviderTable where
  members := [
    ("analytics.track", .segment),
    ("mixpanel.track", .mixpanel),
    ("amplitude.track", .amplitude),
    ("amplitude.logEvent", .amplitude),
    ("rudderanalytics.track", .rudderstack),
    ("mparticle.logEvent", .mparticle),
    ("posthog.capture", .posthog),
    ("pendo.track", .pendo),
    ("heap.track", .heap),
    ("datadogrum.addAction", .datadog),
    ("dd_rum.addAction", .datadog),
    ("tracker.track", .snowplow),
    ("snowplow.track", .snowplow),
    ("datalayer.push", .gtm)]
  functions := [("gtag", .googleAnalytics)]

/-- The calls of libraries for Python. -/
def python : ProviderTable where
  members := [
    ("analytics.track", .segment),
    ("segment.track", .segment),
    ("mp.track", .mixpanel),
    ("mixpanel.track", .mixpanel),
    ("rudder_analytics.track", .rudderstack),
    ("rudderanalytics.track", .rudderstack),
    ("posthog.capture", .posthog),
    ("tracker.track_struct_event", .snowplow)]
  functions := []

/-- The calls of libraries for Ruby. -/
def ruby : ProviderTable where
  members := [
    ("analytics.track", .segment),
    ("segment.track", .segment),
    ("rudder.track", .rudderstack),
    ("rudderanalytics.track", .rudderstack),
    ("rudder_analytics.track", .rudderstack),
    ("tracker.track", .mixpanel),
    ("mixpanel.track", .mixpanel),
    ("posthog.capture", .posthog),
    ("amplitudeapi.track", .amplitude),
    ("tracker.track_struct_event", .snowplow),
    ("snowplow.track_struct_event", .snowplow)]
  functions := []

end ProviderTable

/-- The types whose values are sent as events in Go, in lower case. -/
def eventTypes : List (String × Provider) := [
  ("analytics.track", .segment),
  ("posthog.capture", .posthog),
  ("amplitude.event", .amplitude),
  ("mixpanel.event", .mixpanel),
  ("structuredevent", .snowplow)]

/-- `eventType? typeName` is the provider that takes values of that type. Pointer marks before the
name are skipped; a type is known by its full name or by what follows the last full stop. -/
def eventType? (typeName : String) : Option Provider :=
  let bare := typeName.toList.dropWhile fun c => c = '*' || c = '&'
  let full := lowered (String.ofList bare)
  match eventTypes.lookup full with
  | some provider => some provider
  | none =>
    eventTypes.lookup (String.ofList (full.toList.reverse.takeWhile (· ≠ '.')).reverse)

end TrackingPlan
