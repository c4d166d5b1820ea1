import TrackingPlan.Config
import TrackingPlan.Report

/-!
# Commands

What the program can be told to do, and the parameters with which users say how. A parameter has a
long name and perhaps a letter; some take a value. The path of a scan is the one value that is
written by itself.
-/

namespace TrackingPlan

/-- What the program does, as the first word of a command says it. -/
inductive Verb where
  | scan
  | init
  | help
deriving DecidableEq, Repr

namespace Verb

/-- `name v` is the word for `v`. -/
def name : Verb → String
  | scan => "scan"
  | init => "init"
  | help => "help"

/-- `ofName? word` is the verb that `word` spells. -/
def ofName? (word : String) : Option Verb :=
  [scan, init, help].find? (·.name = word)

end Verb

/-- What a user may set. -/
inductive Parameter where
  | path
  | config
  | customFunction
  | ignore
  | format
  | concurrency
  | progress
  | output
  | verbose
  | help
  | version
deriving DecidableEq, Repr

namespace Parameter

/-- `name p` is the long name of `p`. -/
def name : Parameter → String
  | path => "path"
  | config => "config"
  | customFunction => "custom-function"
  | ignore => "ignore"
  | format => "format"
  | concurrency => "concurrency"
  | progress => "progress"
  | output => "output"
  | verbose => "verbose"
  | help => "help"
  | version => "version"

/-- `letter? p` is the short form of `p`. -/
def letter? : Parameter → Option Char
  | config => some 'c'
  | format => some 'f'
  | output => some 'o'
  | verbose => some 'v'
  | help => some 'h'
  | version => some 'V'
  | _ => none

/-- `valueName? p` is what messages call the value of `p`. -/
def valueName? : Parameter → Option String
  | path => some "PATH"
  | config => some "CONFIG"
  | customFunction => some "SIG"
  | ignore => some "GLOB"
  | format => some "FORMAT"
  | concurrency => some "CONCURRENCY"
  | output => some "OUTPUT"
  | progress | verbose | help | version => none

/-- `takesValue p` holds when `p` takes a value. -/
def takesValue (p : Parameter) : Bool := p.valueName?.isSome

/-- `label p` is how messages show `p`. -/
def label (p : Parameter) : String :=
  let value := (p.valueName?.map fun name => "<" ++ name ++ ">").getD ""
  if p = path then value
  else if p.takesValue then "--" ++ p.name ++ " " ++ value
  else "--" ++ p.name

/-- `named? known name` is the parameter of that long name among `known`. -/
def named? (known : List Parameter) (name : String) : Option Parameter :=
  known.find? (·.name = name)

/-- `lettered? known c` is the parameter of that letter among `known`. -/
def lettered? (known : List Parameter) (c : Char) : Option Parameter :=
  known.find? (·.letter? = some c)

end Parameter

/-- The parameters that may stand before the verb. -/
def programParameters : List Parameter := [.verbose, .help, .version]

/-- `parameters v` lists the named parameters of `v`. -/
def Verb.parameters : Verb → List Parameter
  | scan => [.config, .customFunction, .ignore, .format, .concurrency, .progress, .verbose, .help]
  | init => [.output, .verbose, .help]
  | help => []

/-- What to scan and how. -/
structure ScanRequest where
  path : Path
  /-- The configuration file, if it is not the one beside the files. -/
  config : Option Path := none
  /-- What the command itself configures. -/
  additions : Config := {}
  format : Report.Format := .pretty
deriving DecidableEq, Repr

/-- What the program is told to do. -/
inductive Command where
  | scan (request : ScanRequest)
  | init (output : Path)
  /-- Show how to use the program, or one verb. -/
  | help (verb : Option Verb)
  | version
  /-- The user says nothing. -/
  | nothing
deriving DecidableEq, Repr

end TrackingPlan
