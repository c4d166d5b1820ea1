import TrackingPlan.Analysis
import TrackingPlan.Catalog
import TrackingPlan.Pool
import TrackingPlan.Project.Owner
import TrackingPlan.Scope.RubyFiles
import TrackingPlan.Text.Count

/-!
# Scans

A scan finds the events of every file at or below a root and gathers them in a catalog. Files are
analyzed independently of each other once the constants of the Ruby directories and the TypeScript
projects are known: the scripts of the projects in one batch, sorted by project, and all other files
before them in a pool. `assemble` puts the results in the order of the files before it folds them,
so that the order in which they arrive does not count.
-/

namespace TrackingPlan

namespace Scan

/-- What to scan for. -/
structure Options where
  /-- The signatures of the user's own functions, as written. -/
  signatures : List String := []
  /-- Globs for what is passed over. -/
  ignore : List String := []
  /-- How many files are read at once at most. -/
  concurrency : Option Nat := none
deriving DecidableEq, Repr

/-- The least number of files that are read at once where nobody sets one. -/
def minimumConcurrency : Nat := 4

/-- How many files are read at once where the limit on open files is not known. -/
def usualConcurrency : Nat := 64

/-- `concurrencyFor openFiles` is how many files are read at once under a limit on open files, as
the system spells it: four fifths of the limit, counted in 64 bits. -/
def concurrencyFor (openFiles : Option String) : Nat :=
  match openFiles.map fun text => Text.readCount (Text.trim text) with
  | some (.ok limit) => max minimumConcurrency (min (limit * 4) (Text.countLimit - 1) / 5)
  | _ => usualConcurrency

/-- What a scan leaves to the system that it runs on. -/
structure System where
  /-- The limit on open files, as the system spells it. -/
  openFiles : Option String := none
  /-- Which of the running tasks finishes next, at each point in time. -/
  choose : Nat → Nat := fun _ => 0

/-- `poolSize system options` is how many files are read at once. -/
def poolSize (system : System) (options : Options) : Nat :=
  max 1 (options.concurrency.getD (concurrencyFor system.openFiles))

/-- A reason why there is nothing to scan. -/
inductive Error where
  | signature (e : SignatureError)
  | root (path : Path) (fault : FileFault)
deriving DecidableEq, Repr

/-- `message e` is the sentence that reports `e`. -/
def Error.message : Error → String
  | .signature e => e.message
  | .root path fault => "scan root " ++ path.shown ++ " is not accessible: " ++ fault.message

/-- What a scan found. -/
structure Outcome where
  events : Catalog := []
  filesScanned : Nat := 0
  filesFailed : Nat := 0
deriving Repr

/-- What became of one file: its place among the files of the scan, and its events, unless it could
not be read. -/
structure FileResult where
  index : Nat
  file : Path
  events : Except FileFault (List Event)

/-- `fold root outcome result` adds the result of one file to what was found before. -/
def fold (root : Path) (outcome : Outcome) (result : FileResult) : Outcome :=
  match result.events with
  | .ok events =>
    { outcome with
      filesScanned := outcome.filesScanned + 1
      events := Catalog.extend root outcome.events (Event.dedupe events) }
  | .error _ => { outcome with filesFailed := outcome.filesFailed + 1 }

/-- `assemble root results` is the outcome of a scan of `root` with these results, in any order. -/
def assemble (root : Path) (results : List FileResult) : Outcome :=
  (results.mergeSort fun a b => a.index ≤ b.index).foldl (fold root) {}

/-- What the analysis of a file may know of other files. -/
structure Surroundings where
  signatures : List Signature
  constants : Option Ruby.ConstantIndex
  workspace : Project.Workspace
  modules : Project.ModuleTable

/-- `isIn language file` holds of the files in `language`. -/
def isIn (language : Language) (file : Path) : Bool := Language.ofPath? file = some language

/-- `surroundings fs root signatures files` is what the analysis of `files`, which are those of a
scan of `root`, may know of other files. -/
def surroundings (fs : FileSystem) (root : Path) (signatures : List Signature) (files : List Path) :
    Surroundings :=
  let rubyFiles := files.filter (isIn .ruby)
  let workspace := (Project.Workspace.ofRoot fs root).visitAll fs (files.filter (isIn .typeScript))
  { signatures
    constants := if rubyFiles.isEmpty then none else some (.ofFiles fs rubyFiles)
    workspace
    modules := .ofFiles fs (Project.scripts fs workspace.root) }

/-- `events fs around project? language file source` lists the events of one file; a script may
belong to a project. -/
def events (fs : FileSystem) (around : Surroundings) (project? : Option Project)
    (language : Language) (file : Path) (source : Source) : List Event :=
  match language, project? with
  | .typeScript, some project =>
    Script.events (project.modules fs around.modules) around.signatures
      (.ofTree file (Script.read (Script.dialectOf file) source))
  | .ruby, _ => Ruby.events around.constants around.signatures file (Ruby.read source)
  | _, _ => Analysis.eventsAlone language around.signatures file source

/-- `analyze fs around project? file` reads one file and finds its events. -/
def analyze (fs : FileSystem) (around : Surroundings) (project? : Option Project) (file : Path) :
    Except FileFault (List Event) :=
  match fs.read file with
  | .error fault => .error fault
  | .ok bytes =>
    match Language.ofPath? file with
    | none => .ok []
    | some language => .ok (events fs around project? language file ⟨bytes⟩)

/-- `result fs around project? file` is what becomes of a numbered file. -/
def result (fs : FileSystem) (around : Surroundings) (project? : Option Project)
    (file : Path × Nat) : FileResult :=
  ⟨file.2, file.1, analyze fs around project? file.1⟩

/-- `pooled system limit fs around files` analyzes numbered files in a pool. The results are in the
order in which they are ready. -/
def pooled (system : System) (limit : Nat) (fs : FileSystem) (around : Surroundings)
    (files : List (Path × Nat)) : List FileResult :=
  ((Pool.ofTasks files).drain limit system.choose 0).map (result fs around none)

/-- `batched fs around files` analyzes the scripts of projects, one project after the other. -/
def batched (fs : FileSystem) (around : Surroundings) (files : List (Path × Nat)) :
    List FileResult :=
  (around.workspace.groups fs files).flatMap fun group =>
    group.members.map (result fs around (some group.project))

/-- `results system limit fs around files` analyzes every file: the scripts of projects last. -/
def results (system : System) (limit : Nat) (fs : FileSystem) (around : Surroundings)
    (files : List Path) : List FileResult :=
  let (scripts, others) := files.zipIdx.partition fun (file, _) => isIn .typeScript file
  pooled system limit fs around others ++ batched fs around scripts

/-- `runOn system fs root options` scans what stands at `root` on that system. -/
def runOn (system : System) (fs : FileSystem) (root : Path) (options : Options) :
    Except Error Outcome :=
  match Signature.readAll options.signatures with
  | .error e => .error (.signature e)
  | .ok signatures =>
    match fs.tree root with
    | .error fault => .error (.root root fault)
    | .ok _ =>
      let files := collect fs (.lenient options.ignore) root
      let around := surroundings fs root signatures files
      .ok (assemble root (results system (poolSize system options) fs around files))

/-- `run fs root options` scans what stands at `root` where tasks finish in the order in which they
start. -/
def run (fs : FileSystem) (root : Path) (options : Options) : Except Error Outcome :=
  runOn {} fs root options

end Scan

end TrackingPlan
