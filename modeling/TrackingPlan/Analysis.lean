import TrackingPlan.Calls.Go
import TrackingPlan.Calls.Python
import TrackingPlan.Calls.Ruby
import TrackingPlan.Grammar.Go
import TrackingPlan.Grammar.Python
import TrackingPlan.Grammar.Ruby
import TrackingPlan.Grammar.Script
import TrackingPlan.Language
import TrackingPlan.Script.Calls

/-!
# Analysis of one file

The events that one source file fires, found without looking at any other file.
-/

namespace TrackingPlan.Analysis

/-- `eventsAlone language signatures path source` lists the events of one file on its own. -/
def eventsAlone (language : Language) (signatures : List Signature) (path : Path)
    (source : Source) : List Event :=
  match language with
  | .javaScript =>
    Script.events .untyped signatures (.ofTree path (Script.read .javaScript source))
  | .typeScript =>
    Script.events .localTypes signatures
      (.ofTree path (Script.read (Script.dialectOf path) source))
  | .go => Go.events signatures path (Go.read source)
  | .python => Python.events signatures path (Python.read source)
  | .ruby => Ruby.events none signatures path (Ruby.read source)

end TrackingPlan.Analysis
