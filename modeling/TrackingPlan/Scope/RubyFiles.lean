import TrackingPlan.FileSystem
import TrackingPlan.Grammar.Ruby
import TrackingPlan.Scope.Ruby

/-!
# The constants of Ruby directories

Reads the constant index of a scan: every directory that holds one of the scanned files contributes
the constants of all its Ruby files, also of those that are not scanned.
-/

namespace TrackingPlan.Ruby

/-- `rubyFile? directory entry` is the Ruby file that an entry of `directory` is, with its bytes. -/
def rubyFile? (directory : Path) : String × FileTree → Option (Path × ByteArray)
  | (name, .file bytes) =>
    let path := directory.join ⟨name⟩
    if path.extension? = some "rb" then some (path, bytes) else none
  | (_, .directory _) => none

/-- `rubyFiles fs directory` lists the Ruby files in `directory`, in the order of their paths. -/
def rubyFiles (fs : FileSystem) (directory : Path) : List (Path × ByteArray) :=
  ((fs.entriesAt directory).filterMap (rubyFile? directory)).mergeSort fun a b =>
    (Path.compare a.1 b.1).isLE

/-- `constantsOfDirectory fs directory` gives the constants of the files in `directory`; a later
file replaces what an earlier one says. -/
def constantsOfDirectory (fs : FileSystem) (directory : Path) : Constants :=
  (rubyFiles fs directory).foldl (fun (constants : Constants) (_, bytes) =>
    constants.merge (Constants.ofTree (read ⟨bytes⟩))) []

/-- `distinctPaths paths` drops the paths with the same components as their predecessor. -/
def distinctPaths : List Path → List Path
  | p :: q :: rest => if p.same q then distinctPaths (p :: rest) else p :: distinctPaths (q :: rest)
  | paths => paths
termination_by paths => paths.length

/-- `ConstantIndex.ofFiles fs files` indexes the directories of `files`. -/
def ConstantIndex.ofFiles (fs : FileSystem) (files : List Path) : ConstantIndex :=
  let directories := distinctPaths (Path.ordered (files.filterMap Path.parent?))
  ⟨directories.map fun directory => (directory, constantsOfDirectory fs directory)⟩

end TrackingPlan.Ruby
