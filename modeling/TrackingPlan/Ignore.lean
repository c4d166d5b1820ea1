import TrackingPlan.Glob.Reader
import TrackingPlan.Path
import TrackingPlan.Text.Quoted

/-!
# Ignored paths

Ignore rules are globs for the files and directories that a scan passes over. A glob is tried on the
full path and on the path below the root; one without a slash is tried on the file name as well.
-/

namespace TrackingPlan

/-- A pattern that is no glob. -/
structure IgnoreError where
  pattern : String
  fault : GlobFault
deriving DecidableEq, Repr

/-- `message e` is the sentence that reports `e`. -/
def IgnoreError.message (e : IgnoreError) : String :=
  "invalid ignore pattern " ++ Text.quoted e.pattern ++ ": error parsing glob '" ++
    e.pattern ++ "': "
    ++ e.fault.message

/-- Globs for what is passed over. -/
structure IgnoreRules where
  globs : List Glob
deriving Repr

namespace IgnoreRules

/-- `readGlob pattern` reads one pattern. -/
def readGlob (pattern : String) : Except IgnoreError Glob :=
  match Glob.read pattern with
  | .ok g => .ok g
  | .error fault => .error ⟨pattern, fault⟩

/-- `read patterns` reads every pattern, or reports the first that is no glob. -/
def read (patterns : List String) : Except IgnoreError IgnoreRules :=
  (patterns.mapM readGlob).map IgnoreRules.mk

/-- `lenient patterns` leaves out the patterns that are no globs. -/
def lenient (patterns : List String) : IgnoreRules :=
  ⟨patterns.filterMap fun pattern => (Glob.read pattern).toOption⟩

/-- `globIgnores root path g` holds when `g` makes a scan of `root` pass over `path`. -/
def globIgnores (root path : Path) (g : Glob) : Bool :=
  g.accepts path.text ||
    (root.below? path).any (fun rest => rest ≠ "" && g.accepts rest) ||
    (!g.pattern.contains '/' && path.fileName?.any g.accepts)

/-- `ignores rules root path` holds when a scan of `root` passes over `path`. -/
def ignores (rules : IgnoreRules) (root path : Path) : Bool :=
  rules.globs.any (globIgnores root path)

end IgnoreRules

end TrackingPlan
