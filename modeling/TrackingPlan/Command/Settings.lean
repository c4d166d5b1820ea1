import TrackingPlan.Command.UsageError

/-!
# Settings

The values that the words of a command give to its parameters. `Settings.assign` gives one; a
parameter is given once, apart from those whose values add up.
-/

namespace TrackingPlan

/-- What the words of a command set. -/
structure Settings where
  path : Option Path := none
  config : Option Path := none
  customFunctions : List String := []
  ignore : List String := []
  format : Option Report.Format := none
  concurrency : Option Nat := none
  progress : Bool := false
  output : Option Path := none
  verbose : Bool := false
deriving DecidableEq, Repr, Inhabited

namespace Settings

/-- `isTaken s p` holds when `p` may not be given again. -/
def isTaken (s : Settings) : Parameter → Bool
  | .path => s.path.isSome
  | .config => s.config.isSome
  | .format => s.format.isSome
  | .concurrency => s.concurrency.isSome
  | .progress => s.progress
  | .output => s.output.isSome
  | .verbose => s.verbose
  | .customFunction | .ignore | .help | .version => false

/-- `place? p text` is the path that `text` spells as the value of `p`. -/
def place? (p : Parameter) (text : String) : Except UsageError Path :=
  if text = "" then .error (.missingValue p) else .ok ⟨text⟩

/-- `format? text` is the format that `text` names. -/
def format? (text : String) : Except UsageError Report.Format :=
  if text = "" then .error (.missingValue .format)
  else match Report.Format.ofName? text with
    | none => .error (.unknownFormat text)
    | some format => .ok format

/-- `count? p text` is the count that `text` spells as the value of `p`. -/
def count? (p : Parameter) (text : String) : Except UsageError Nat :=
  (Text.readCount text).mapError (.badCount p text)

/-- `set s p text` sets `p` to what `text` spells. -/
def set (s : Settings) (p : Parameter) (text : String) : Except UsageError Settings :=
  match p with
  | .path => (place? p text).map fun path => { s with path := some path }
  | .config => (place? p text).map fun path => { s with config := some path }
  | .output => (place? p text).map fun path => { s with output := some path }
  | .customFunction => .ok { s with customFunctions := s.customFunctions ++ [text] }
  | .ignore => .ok { s with ignore := s.ignore ++ [text] }
  | .format => (format? text).map fun format => { s with format := some format }
  | .concurrency => (count? p text).map fun count => { s with concurrency := some count }
  | .progress => .ok { s with progress := true }
  | .verbose => .ok { s with verbose := true }
  | .help | .version => .ok s

/-- `assign s p value` gives `p` its value; parameters that take one need it. -/
def assign (s : Settings) (p : Parameter) (value : Option String) : Except UsageError Settings :=
  if p.takesValue && value.isNone then .error (.missingValue p)
  else if s.isTaken p then .error (.repeated p)
  else s.set p (value.getD "")

/-- `scanRequest? s` is the scan that `s` asks for. -/
def scanRequest? (s : Settings) : Option ScanRequest :=
  s.path.map fun path =>
    { path
      config := s.config
      additions := ⟨s.customFunctions, s.ignore, s.concurrency⟩
      format := s.format.getD .pretty }

/-- The file that a first configuration is written to where none is named. -/
def usualOutput : Path := ⟨"trackscan.yaml"⟩

end Settings

end TrackingPlan
