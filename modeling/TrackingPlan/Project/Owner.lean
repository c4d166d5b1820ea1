import TrackingPlan.Project

/-!
# The projects of a scan

A script belongs to the project with the nearest manifest above it, as far up as the root of the
scan, and to the project of the root if there is none. Each project is loaded once. `groups` sorts
the scripts of a scan by their projects.
-/

namespace TrackingPlan.Project

/-- `manifestFrom fs stop levels directory` is the first manifest in `directory` and those above it,
up to `stop` and for at most `levels` directories. -/
def manifestFrom (fs : FileSystem) (stop : Path) : (levels : Nat) → Path → Option Path
  | 0, _ => none
  | levels + 1, directory =>
    let manifest := directory.join ⟨manifestName⟩
    if fs.isFile manifest then some manifest
    else if directory.same stop then none
    else directory.parent?.bind (manifestFrom fs stop levels)

/-- `manifestOf? fs stop file` is the nearest manifest above `file`, up to the directory `stop`. -/
def manifestOf? (fs : FileSystem) (stop file : Path) : Option Path :=
  file.parent?.bind (manifestFrom fs stop (file.components.length + 1))

/-- The projects of a scan. -/
structure Workspace where
  /-- The directory that no search for a manifest leaves. -/
  root : Path
  /-- The projects that are loaded, by their manifests, or by the root. -/
  loaded : List (Path × Project)

namespace Workspace

/-- `ofRoot fs root` is the workspace of a scan of `root`, of the directory around it if it is a
file. -/
def ofRoot (fs : FileSystem) (root : Path) : Workspace :=
  ⟨if fs.isFile root then root.parent?.getD root else root, []⟩

/-- `manifest? fs w file` is the manifest of the project that `file` belongs to. -/
def manifest? (fs : FileSystem) (w : Workspace) (file : Path) : Option Path :=
  manifestOf? fs w.root file

/-- `loadFor fs w file` loads the project that `file` belongs to. -/
def loadFor (fs : FileSystem) (w : Workspace) (file : Path) : Project :=
  match w.manifest? fs file with
  | some manifest => load fs manifest
  | none => standalone fs w.root

/-- `key fs w file` tells the project of `file` from others. -/
def key (fs : FileSystem) (w : Workspace) (file : Path) : Path :=
  (w.manifest? fs file).getD w.root

/-- `loadedAt? w key` is the project that is loaded under `key`. -/
def loadedAt? (w : Workspace) (key : Path) : Option Project :=
  (w.loaded.find? fun entry => entry.1.same key).map (·.2)

/-- `loaded? fs w file` is the project of `file`, if it is loaded. -/
def loaded? (fs : FileSystem) (w : Workspace) (file : Path) : Option Project :=
  w.loadedAt? (w.key fs file)

/-- `visit fs w file` is the project of `file`, and the workspace in which it is loaded. -/
def visit (fs : FileSystem) (w : Workspace) (file : Path) : Project × Workspace :=
  match w.loaded? fs file with
  | some p => (p, w)
  | none =>
    let p := w.loadFor fs file
    (p, { w with loaded := w.loaded ++ [(w.key fs file, p)] })

/-- `visitAll fs w files` is the workspace in which the projects of all `files` are loaded. -/
def visitAll (fs : FileSystem) (w : Workspace) (files : List Path) : Workspace :=
  files.foldl (fun w file => (w.visit fs file).2) w

/-- `projectOf fs w file` is the project that `file` belongs to. -/
def projectOf (fs : FileSystem) (w : Workspace) (file : Path) : Project :=
  (w.visit fs file).1

/-! ## Groups -/

/-- The scripts of one project, each with its number among the files of the scan. -/
structure Group where
  /-- What tells the project from others. -/
  key : Path
  project : Project
  members : List (Path × Nat)

/-- `addMember key p member groups` puts `member` into the group of its project `p`, a new one at
the end if there is none. -/
def addMember (key : Path) (p : Project) (member : Path × Nat) : List Group → List Group
  | [] => [⟨key, p, [member]⟩]
  | g :: rest =>
    if g.key.same key then { g with members := g.members ++ [member] } :: rest
    else g :: addMember key p member rest

/-- `groups fs w files` sorts numbered scripts by their projects. -/
def groups (fs : FileSystem) (w : Workspace) (files : List (Path × Nat)) : List Group :=
  files.foldl (fun found member =>
    addMember (w.key fs member.1) (w.projectOf fs member.1) member found) []

end Workspace

end TrackingPlan.Project
