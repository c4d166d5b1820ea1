import TrackingPlan.Command.UsageError

/-!
# Help pages

A help page says what a verb does, in which order its words stand, and what each parameter means.
The pages are made from the lists of parameters, so that they name what is read and nothing else.
-/

namespace TrackingPlan

namespace Page

/-- `purpose v` says what `v` does. -/
def purpose : Verb → String
  | .scan => "Scan a file or directory for tracking calls"
  | .init => "Write a starter trackscan.yaml"
  | .help => "Print this message or the help of the given subcommand(s)"

/-- `meaning p` says what `p` sets. -/
def meaning : Parameter → String
  | .path => "Path to scan (file or directory)"
  | .config => "Path to config YAML file (default: auto-discover in the scan root)"
  | .customFunction =>
    "Custom tracking function signature, e.g. \"track(userId, EVENT_NAME, PROPERTIES)\""
  | .ignore => "Glob of files or directories to skip"
  | .format => "Output format [default: pretty] [possible values: pretty, json, yaml]"
  | .concurrency => "Maximum files analyzed at once"
  | .progress => "Show a progress bar on stderr"
  | .output => "Output file path [default: trackscan.yaml]"
  | .verbose => "Log debug output to stderr"
  | .help => "Print help"
  | .version => "Print version"

/-- `spelling p` shows the letter and the name of `p`. -/
def spelling (p : Parameter) : String :=
  match p.letter? with
  | none => "    " ++ p.label
  | some c => String.ofList ['-', c, ',', ' '] ++ p.label

/-- `table rows` shows each name with its meaning, all meanings below each other. -/
def table (rows : List (String × String)) : List String :=
  let width := (rows.map (·.1.length)).foldl max 0
  rows.map fun row => "  " ++ Report.padded width row.1 ++ "  " ++ row.2

/-- `options known` shows the parameters `known`. -/
def options (known : List Parameter) : List String :=
  "Options:" :: table (known.map fun p => (spelling p, meaning p))

/-- The page on the program. -/
def program : List String :=
  ["Static analyzer that catalogues analytics tracking calls across JavaScript, TypeScript, " ++
      "Python, Ruby and Go",
    "", "Usage: " ++ Report.programName ++ " [OPTIONS] <COMMAND>", "", "Commands:"] ++
  table ([Verb.scan, .init, .help].map fun v => (v.name, purpose v)) ++ [""] ++
  options programParameters

/-- `verb v` is the page on `v`. -/
def verb (v : Verb) : List String :=
  let usage := "Usage: " ++ Report.programName ++ " " ++ v.name
  match v with
  | .scan =>
    [purpose v, "", usage ++ " [OPTIONS] " ++ Parameter.path.label, "", "Arguments:"] ++
    table [(Parameter.path.label, meaning .path)] ++ [""] ++ options v.parameters
  | .init => [purpose v, "", usage ++ " [OPTIONS]", ""] ++ options v.parameters
  | .help => [purpose v, "", usage ++ " [COMMAND]..."]

/-- `text topic` is the page on one verb, or on the program. -/
def text (topic : Option Verb) : String :=
  Report.unlines (match topic with
    | none => program
    | some v => verb v)

end Page

end TrackingPlan
