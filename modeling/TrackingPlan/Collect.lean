import TrackingPlan.FileSystem
import TrackingPlan.Ignore
import TrackingPlan.Language

/-!
# The files of a scan

A scan looks at the files in a known language at or below its root, in the order of their paths. It
passes over hidden entries, directories with generated files, and whatever the ignore rules name.
-/

namespace TrackingPlan

/-- The names of directories that are never entered. -/
def skippedNames : List String := ["node_modules", "coverage", "temp", "tmp", "log"]

/-- `isHidden name` holds of names that start with a full stop. -/
def isHidden (name : String) : Bool := name.startsWith "."

/-- `isSkipped name t` holds of the entries below a root that are passed over for their names. -/
def isSkipped (name : String) (t : FileTree) : Bool :=
  isHidden name || (t.isDirectory && skippedNames.contains name)

/-- `collect fs rules root` lists the files of a scan of `root`. -/
def collect (fs : FileSystem) (rules : IgnoreRules) (root : Path) : List Path :=
  if rules.ignores root root then []
  else
    let admits (name : String) (path : Path) (t : FileTree) :=
      !isSkipped name t && !rules.ignores root path
    Path.ordered ((fs.walk admits root).filter fun p => (Language.ofPath? p).isSome)

end TrackingPlan
