import TrackingPlan.Document.Json
import TrackingPlan.Document.Records
import TrackingPlan.Document.Yaml
import TrackingPlan.Scan

/-!
# Reports

A report shows what a scan found: as a page for readers, which terminals may show in colours, or as
a JSON or YAML document. A page lists the events in name order, each with its places and with one
line for each property; `Schema.describe` writes a schema on one line.
-/

namespace TrackingPlan

namespace Schema

mutual
/-- `describe s` is the one-line description of `s`. An item type with spaces stands in
parentheses. -/
def describe : Schema → String
  | .primitive type => type.name
  | .array items =>
    let inner := items.describe
    if items.isPrimitive && inner.contains ' ' then "(" ++ inner ++ ")[]" else inner ++ "[]"
  | .object fields => "\x7b" ++ ", ".intercalate (describeFields fields) ++ "\x7d"

/-- `describeFields fields` lists the descriptions of named schemas. -/
def describeFields : List (String × Schema) → List String
  | [] => []
  | (name, s) :: rest => (name ++ ": " ++ s.describe) :: describeFields rest
end

end Schema

namespace Report

/-- The name of the program, as reports show it. -/
def programName : String := "trackscan"

/-- The version of the program, as reports show it. -/
def version : String := "0.1.0"

/-- How a scan is reported. -/
inductive Format where
  | pretty
  | json
  | yaml
deriving DecidableEq, Repr, Inhabited

namespace Format

/-- `name f` is what users call `f`. -/
def name : Format → String
  | pretty => "pretty"
  | json => "json"
  | yaml => "yaml"

/-- `ofName? text` is the format of that name. -/
def ofName? (text : String) : Option Format :=
  [pretty, json, yaml].find? (·.name = text)

/-- A format is read back from its name. -/
theorem ofName?_name (f : Format) : ofName? f.name = some f := by
  cases f <;> decide

end Format

/-! ## Colours -/

/-- How a part of a page stands out. -/
inductive Emphasis where
  | title
  | eventName
  | place
  | strong
  | faint
  | warning
deriving DecidableEq, Repr

namespace Emphasis

/-- `code e` is the number of the terminal's style for `e`. -/
def code : Emphasis → String
  | title => "1;36"
  | eventName => "1;32"
  | place => "34"
  | strong => "1"
  | faint => "2"
  | warning => "33"

/-- `start e` switches a terminal to the style for `e`. -/
def start (e : Emphasis) : String := "\x1b[" ++ e.code ++ "m"

/-- What switches a terminal back to plain text. -/
def stop : String := "\x1b[0m"

/-- `paint e coloured text` is `text` with the emphasis `e`. A text that switches back to plain text
itself goes on with the emphasis after that. -/
def paint (e : Emphasis) (coloured : Bool) (text : String) : String :=
  if coloured then e.start ++ text.replace stop (stop ++ e.start) ++ stop else text

end Emphasis

/-! ## Pages -/

/-- `padded width text` is `text` with blanks after it up to `width` characters. -/
def padded (width : Nat) (text : String) : String :=
  text.pushn ' ' (width - text.length)

/-- `summary coloured found` counts the events and the files. -/
def summary (coloured : Bool) (found : Scan.Outcome) : String :=
  let events := found.events.length
  "  " ++ Emphasis.strong.paint coloured (toString events) ++ " event" ++
    (if events = 1 then "" else "s") ++ " in " ++ toString found.filesScanned ++ " files" ++
    if found.filesFailed = 0 then ""
    else "  " ++ Emphasis.warning.paint coloured ("(" ++ toString found.filesFailed ++ " skipped)")

/-- `placeLine coloured place` shows one place that an event is fired from. -/
def placeLine (coloured : Bool) (place : Implementation) : String :=
  "    " ++ Emphasis.faint.paint coloured (padded 16 place.destination.name) ++
    Emphasis.place.paint coloured place.path ++
    Emphasis.faint.paint coloured (":" ++ toString place.line) ++ "  " ++ place.function

/-- `propertyLine property` shows one property and its schema. -/
def propertyLine (property : String × Schema) : String :=
  "      " ++ padded 24 property.1 ++ " " ++ property.2.describe

/-- `eventLines coloured event` shows one event: its name, its places and its properties. -/
def eventLines (coloured : Bool) (event : String × Entry) : List String :=
  let properties :=
    if event.2.properties.isEmpty then []
    else ("    " ++ Emphasis.strong.paint coloured "Properties:") ::
      event.2.properties.map propertyLine
  ("  " ++ Emphasis.eventName.paint coloured event.1) ::
    event.2.implementations.map (placeLine coloured) ++ properties

/-- `pageLines coloured path found` lists the lines of the page on a scan of `path`. -/
def pageLines (coloured : Bool) (path : Path) (found : Scan.Outcome) : List String :=
  ["", "  " ++ Emphasis.title.paint coloured programName ++ " v" ++ version, "",
    "  " ++ Emphasis.faint.paint coloured "Scanning: " ++ path.shown, "",
    summary coloured found, ""] ++
  found.events.flatMap fun event => eventLines coloured event ++ [""]

/-- `unlines lines` is the text of `lines`, each with its end. -/
def unlines (lines : List String) : String :=
  String.join (lines.map (· ++ "\n"))

/-- `render format coloured path found` reports what a scan of `path` found. -/
def render (format : Format) (coloured : Bool) (path : Path) (found : Scan.Outcome) : String :=
  match format with
  | .pretty => unlines (pageLines coloured path found)
  | .json => (Catalog.document found.events).json ++ "\n"
  | .yaml => (Catalog.document found.events).yaml

end Report

end TrackingPlan
