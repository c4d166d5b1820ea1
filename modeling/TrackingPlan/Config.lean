import TrackingPlan.FileSystem
import TrackingPlan.Ignore
import TrackingPlan.Signature
import TrackingPlan.Yaml.Node
import TrackingPlan.Yaml.Plain

/-!
# Configurations

A configuration lists the signatures of the user's own functions, the globs for what is passed over,
and how many files are read at once. It is written in YAML; `Config.ofText?` reads it,
`Config.merge` adds what the command line says, and `Config.validate` reports the first mistake in
it.
-/

namespace TrackingPlan

/-- What a user may set. -/
structure Config where
  /-- The signatures, as written. -/
  customFunctions : List String := []
  /-- The globs, as written. -/
  ignore : List String := []
  concurrency : Option Nat := none
deriving DecidableEq, Repr, Inhabited

/-- A mistake in a configuration. -/
inductive ConfigError where
  | read (path : Path) (fault : FileFault)
  | malformed
  | signature (e : SignatureError)
  | ignore (e : IgnoreError)
  | zeroConcurrency
deriving DecidableEq, Repr

/-- `message e` is the sentence that reports `e`. -/
def ConfigError.message : ConfigError → String
  | .read path fault => "failed to read config " ++ path.shown ++ ": " ++ fault.message
  | .malformed => "invalid config"
  | .signature e => e.message
  | .ignore e => e.message
  | .zeroConcurrency => "concurrency must be at least 1"

namespace Config

/-! ## Reading -/

/-- `text? n` is the text of any scalar. -/
def text? : Yaml.Node → Option String
  | .scalar text _ _ => some text
  | _ => none

/-- `isOmitted n` holds where a value is left out. -/
def isOmitted : Yaml.Node → Bool
  | .scalar "" .plain _ => true
  | _ => false

/-- `texts? n` reads a list of scalars, which may be left out. -/
def texts? (n : Yaml.Node) : Option (List String) :=
  match n with
  | .list items => items.mapM text?
  | n => if isOmitted n then some [] else none

/-- The tag of values that are none. -/
def nullTag : String := "tag:yaml.org,2002:null"

/-- The tag of whole numbers. -/
def integerTag : String := "tag:yaml.org,2002:int"

/-- `number? text` reads a whole number of 64 bits. -/
def number? (text : String) : Option Nat :=
  (Yaml.unsigned? text).filter (· < Nat.pow 2 64)

/-- `count? n` reads a whole number, which may be left out or null. Quotes make a text of it. -/
def count? : Yaml.Node → Option (Option Nat)
  | .scalar text .plain tag =>
    if tag = some nullTag then
      if text ≠ "" && Yaml.isNull text then some none else none
    else if tag.isNone && Yaml.isNull text then some none
    else (number? text).map some
  | .scalar text .literal tag => if tag = some integerTag then (number? text).map some else none
  | _ => none

/-- What the entries of a configuration say, each at most once. -/
structure Draft where
  customFunctions : Option (List String) := none
  ignore : Option (List String) := none
  concurrency : Option (Option Nat) := none

/-- `addEntry? draft entry` adds one entry; those with other names do not count. -/
def addEntry? (draft : Draft) (entry : Yaml.Node × Yaml.Node) : Option Draft :=
  match text? entry.1 with
  | none => none
  | some name =>
    if name = "custom_functions" then
      if draft.customFunctions.isSome then none
      else (texts? entry.2).map fun texts => { draft with customFunctions := some texts }
    else if name = "ignore" then
      if draft.ignore.isSome then none
      else (texts? entry.2).map fun texts => { draft with ignore := some texts }
    else if name = "concurrency" then
      if draft.concurrency.isSome then none
      else (count? entry.2).map fun count => { draft with concurrency := some count }
    else some draft

/-- `ofNode? n` is the configuration that `n` stands for. -/
def ofNode? (n : Yaml.Node) : Option Config :=
  match n with
  | .map entries =>
    (entries.foldlM addEntry? {}).map fun draft =>
      ⟨draft.customFunctions.getD [], draft.ignore.getD [], draft.concurrency.getD none⟩
  | n => if isOmitted n then some {} else none

/-- `ofText? text` is the configuration that `text` spells. A text without a value sets nothing. -/
def ofText? (text : String) : Option Config :=
  if (Text.trim text).isEmpty then some {}
  else match Yaml.Node.read? text with
    | none => none
    | some none => some {}
    | some (some n) => ofNode? n

/-- `parse text` is the configuration that `text` spells. -/
def parse (text : String) : Except ConfigError Config :=
  match ofText? text with
  | none => .error .malformed
  | some config => .ok config

/-- `load fs path` reads the configuration in the file at `path`. -/
def load (fs : FileSystem) (path : Path) : Except ConfigError Config :=
  match fs.readText path with
  | .error fault => .error (.read path fault)
  | .ok text => parse text

/-- The names of configuration files, the first choice first. -/
def fileNames : List String := ["trackscan.yaml", "trackscan.yml", ".trackscan.yaml"]

/-- `discover? fs directory` is the configuration file in `directory`. -/
def discover? (fs : FileSystem) (directory : Path) : Option Path :=
  (fileNames.map fun name => directory.join ⟨name⟩).find? fs.isFile

/-! ## Changing and checking -/

/-- `merge config more` adds the lists of `more` to those of `config`; its number replaces the
other. -/
def merge (config more : Config) : Config where
  customFunctions := config.customFunctions ++ more.customFunctions
  ignore := config.ignore ++ more.ignore
  concurrency := more.concurrency.or config.concurrency

/-- `validate config` reports the first mistake: in a signature, else in a glob, else in the
number. -/
def validate (config : Config) : Except ConfigError Unit :=
  match Signature.readAll config.customFunctions with
  | .error e => .error (.signature e)
  | .ok _ =>
    match IgnoreRules.read config.ignore with
    | .error e => .error (.ignore e)
    | .ok _ => if config.concurrency = some 0 then .error .zeroConcurrency else .ok ()

/-- The configuration file to start from. -/
def starter : String :=
"# trackscan configuration
#
# Custom tracking wrappers. Forms:
#   name                               event at 0, properties at 1
#   name(EVENT_NAME, PROPERTIES)
#   name(userId, EVENT_NAME, PROPERTIES)  extra params become properties
custom_functions: []

# Globs matched against absolute and root-relative paths.
ignore:
  - \"**/dist/**\"
  - \"**/build/**\"

# Maximum files analyzed at once (default: 80% of the open file limit).
# concurrency: 64
"

end Config

end TrackingPlan
