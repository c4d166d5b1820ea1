import TrackingPlan.Named
import TrackingPlan.Path

/-!
# Trees of files

What stands at a place of the file system: a file with its bytes, or a directory with named entries.
`FileTree.walk` lists the files below a directory; `at?_put` says that what was put at a place is
found there.
-/

namespace TrackingPlan

/-- A file, or a directory with everything below it. -/
inductive FileTree where
  | file (bytes : ByteArray)
  | directory (entries : List (String × FileTree))
deriving Inhabited

namespace FileTree

/-- `isFile t` holds of files. -/
def isFile : FileTree → Bool
  | .file _ => true
  | .directory _ => false

/-- `isDirectory t` holds of directories. -/
def isDirectory (t : FileTree) : Bool := !t.isFile

/-- `entries t` lists the entries of a directory. -/
def entries : FileTree → Named FileTree
  | .file _ => []
  | .directory entries => entries

/-- `at? t names` is what stands at the place that `names` lead to. -/
def at? : FileTree → List String → Option FileTree
  | t, [] => some t
  | t, name :: rest => (t.entries.find? name).bind (at? · rest)

/-- `put t names new` is `t` with `new` at the place that `names` lead to; directories on the way
are made. -/
def put : FileTree → List String → FileTree → FileTree
  | _, [], new => new
  | t, name :: rest, new =>
    .directory (t.entries.insert name
      (put ((t.entries.find? name).getD (.directory [])) rest new))

/-- What was put at a place is found there. -/
theorem at?_put (t : FileTree) (names : List String) (new : FileTree) :
    at? (put t names new) names = some new := by
  induction names generalizing t with
  | nil => rfl
  | cons name rest ih =>
    rw [put, at?, entries, Named.find?_insert, if_pos rfl]
    exact ih _

mutual
/-- `walk admits path t` lists the files of `t`, which stands at `path`. Below it, entries that
`admits` refuses are passed over with everything inside them. -/
def walk (admits : (name : String) → Path → FileTree → Bool) (path : Path) : FileTree → List Path
  | .file _ => [path]
  | .directory entries => walkEntries admits path entries

/-- `walkEntries admits path entries` lists the files of the entries of the directory at `path`. -/
def walkEntries (admits : (name : String) → Path → FileTree → Bool) (path : Path) :
    List (String × FileTree) → List Path
  | [] => []
  | (name, t) :: rest =>
    let place := path.join ⟨name⟩
    (if admits name place t then walk admits place t else []) ++ walkEntries admits path rest
end

end FileTree

end TrackingPlan
