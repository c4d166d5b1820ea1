import TrackingPlan.Command
import TrackingPlan.Text.Count

/-!
# Mistakes in commands

The reasons why the words of a command make no sense, and the sentences that report them.
-/

namespace TrackingPlan

/-- A mistake in the words of a command. -/
inductive UsageError where
  /-- A word that is no value of anything and names nothing. -/
  | unexpected (word : String)
  | unknownVerb (word : String)
  | missingVerb
  | missingPath
  | missingValue (p : Parameter)
  /-- A value for a parameter that takes none. -/
  | surplusValue (p : Parameter) (value : String)
  | repeated (p : Parameter)
  | unknownFormat (value : String)
  | badCount (p : Parameter) (value : String) (fault : Text.CountFault)
deriving DecidableEq, Repr

/-- `message e` is the sentence that reports `e`. -/
def UsageError.message : UsageError → String
  | .unexpected word => "unexpected argument '" ++ word ++ "' found"
  | .unknownVerb word => "unrecognized subcommand '" ++ word ++ "'"
  | .missingVerb =>
    "'" ++ Report.programName ++ "' requires a subcommand but one was not provided"
  | .missingPath =>
    "the following required arguments were not provided:\n  " ++ Parameter.path.label
  | .missingValue p => "a value is required for '" ++ p.label ++ "' but none was supplied"
  | .surplusValue p value =>
    "unexpected value '" ++ value ++ "' for '" ++ p.label ++ "' found; no more were expected"
  | .repeated p => "the argument '" ++ p.label ++ "' cannot be used multiple times"
  | .unknownFormat value =>
    "invalid value '" ++ value ++ "' for '" ++ Parameter.format.label ++ "'"
  | .badCount p value fault =>
    "invalid value '" ++ value ++ "' for '" ++ p.label ++ "': " ++ fault.message

end TrackingPlan
