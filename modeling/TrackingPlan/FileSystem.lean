import TrackingPlan.FileTree

/-!
# File systems

A file system is a tree of files and the directory in which relative paths start. `locate` follows a
path, name by name, to the names of the place that it leads to; every name on the way has to be that
of a directory. The other operations are stated through it.

All that stands there can be read. Where something can be made or changed is for the system to say:
the operations that do so are given the places that it refuses, for want of permission or of room.
Links are left out, and so are faults in the middle of reading or writing.
-/

namespace TrackingPlan

/-- A reason why the file system refuses something. -/
inductive FileFault where
  | missing
  | exists
  | notDirectory
  | isDirectory
  | denied
  | notText
deriving DecidableEq, Repr

/-- `message f` is the sentence that reports `f`. -/
def FileFault.message : FileFault → String
  | .missing => "No such file or directory (os error 2)"
  | .exists => "File exists (os error 17)"
  | .notDirectory => "Not a directory (os error 20)"
  | .isDirectory => "Is a directory (os error 21)"
  | .denied => "Permission denied (os error 13)"
  | .notText => "stream did not contain valid UTF-8"

/-- `refused names` holds where nothing can be made at the place `names`, or what stands there
cannot be changed. -/
abbrev Refusals := List String → Bool

/-- The files, and the directory in which relative paths start. -/
structure FileSystem where
  top : FileTree
  workingDirectory : List String
deriving Inhabited

namespace FileSystem

/-- `step fs names piece` goes on from the place `names` by one piece of a path. -/
def step (fs : FileSystem) (names : List String) (piece : String) :
    Except FileFault (List String) :=
  match fs.top.at? names with
  | none => .error .missing
  | some (.file _) => .error .notDirectory
  | some (.directory entries) =>
    if piece = "" || piece = "." then .ok names
    else if piece = ".." then .ok names.dropLast
    else if (Named.find? entries piece).isSome then .ok (names ++ [piece])
    else .error .missing

/-- `start fs path` is the place where `path` starts. -/
def start (fs : FileSystem) (path : Path) : List String :=
  if path.isAbsolute then [] else fs.workingDirectory

/-- `locate fs path` lists the names that lead from the top to the place at `path`. -/
def locate (fs : FileSystem) (path : Path) : Except FileFault (List String) :=
  if path.text = "" then .error .missing
  else path.pieces.foldlM fs.step (fs.start path)

/-- `tree fs path` is what stands at `path`. -/
def tree (fs : FileSystem) (path : Path) : Except FileFault FileTree :=
  match fs.locate path with
  | .error fault => .error fault
  | .ok names =>
    match fs.top.at? names with
    | none => .error .missing
    | some t => .ok t

/-- `canonical fs path` is the path from the top to the place at `path`. -/
def canonical (fs : FileSystem) (path : Path) : Except FileFault Path :=
  (fs.locate path).map fun names => ⟨"/" ++ "/".intercalate names⟩

/-- `isThere fs path` holds when something stands at `path`. -/
def isThere (fs : FileSystem) (path : Path) : Bool :=
  (fs.tree path).toOption.isSome

/-- `isFile fs path` holds when a file stands at `path`. -/
def isFile (fs : FileSystem) (path : Path) : Bool :=
  (fs.tree path).toOption.any (·.isFile)

/-- `isDirectory fs path` holds when a directory stands at `path`. -/
def isDirectory (fs : FileSystem) (path : Path) : Bool :=
  (fs.tree path).toOption.any (·.isDirectory)

/-- `read fs path` gives the bytes of the file at `path`. -/
def read (fs : FileSystem) (path : Path) : Except FileFault ByteArray :=
  match fs.tree path with
  | .error fault => .error fault
  | .ok (.directory _) => .error .isDirectory
  | .ok (.file bytes) => .ok bytes

/-- `readText fs path` gives the text of the file at `path`. -/
def readText (fs : FileSystem) (path : Path) : Except FileFault String :=
  match fs.read path with
  | .error fault => .error fault
  | .ok bytes =>
    match String.fromUTF8? bytes with
    | none => .error .notText
    | some text => .ok text

/-- `entriesAt fs path` lists the entries of the directory at `path`. -/
def entriesAt (fs : FileSystem) (path : Path) : Named FileTree :=
  match fs.tree path with
  | .ok t => t.entries
  | .error _ => []

/-- `walk fs admits root` lists the files at or below `root`; `admits` says which entries below it
are walked. -/
def walk (fs : FileSystem) (admits : (name : String) → Path → FileTree → Bool) (root : Path) :
    List Path :=
  match fs.tree root with
  | .ok t => t.walk admits root
  | .error _ => []

/-- `placeOf fs path` is the directory that holds the last name of `path`, and that name. -/
def placeOf (fs : FileSystem) (path : Path) :
    Except FileFault (List String × Named FileTree × String) :=
  let pieces := (path.pieces.reverse.dropWhile (· = "")).reverse
  match pieces.dropLast.foldlM fs.step (fs.start path) with
  | .error fault => .error fault
  | .ok names =>
    match fs.top.at? names with
    | none => .error .missing
    | some (.file _) => .error .notDirectory
    | some (.directory entries) => .ok (names, entries, pieces.getLastD ".")

/-- `write fs refused path bytes` puts a file at `path`, in a directory that is there. -/
def write (fs : FileSystem) (refused : Refusals) (path : Path) (bytes : ByteArray) :
    Except FileFault FileSystem :=
  if path.text = "" then .error .missing
  else match fs.placeOf path with
    | .error fault => .error fault
    | .ok (names, entries, name) =>
      let isTaken := (Named.find? entries name).any (·.isDirectory)
      if path.text.endsWith "/" || name = "." || name = ".." || isTaken then .error .isDirectory
      else if refused (names ++ [name]) then .error .denied
      else .ok { fs with top := fs.top.put (names ++ [name]) (.file bytes) }

/-- `createDirectory fs refused path` makes one directory, in a directory that is there. -/
def createDirectory (fs : FileSystem) (refused : Refusals) (path : Path) :
    Except FileFault FileSystem :=
  if path.text = "" then .error .missing
  else match fs.placeOf path with
    | .error fault => .error fault
    | .ok (names, entries, name) =>
      if name = "." || name = ".." || (Named.find? entries name).isSome then .error .exists
      else if refused (names ++ [name]) then .error .denied
      else .ok { fs with top := fs.top.put (names ++ [name]) (.directory []) }

/-- `createEach fs refused levels path` makes the directory `path` and those above it that are
missing, up to `levels` of them. What was made stays there when a fault stops it. -/
def createEach (fs : FileSystem) (refused : Refusals) :
    (levels : Nat) → Path → FileSystem × Option FileFault
  | 0, _ => (fs, some .missing)
  | levels + 1, path =>
    if path.text = "" then (fs, none)
    else match fs.createDirectory refused path with
      | .ok made => (made, none)
      | .error .missing =>
        match path.parent? with
        | none => (fs, some .missing)
        | some parent =>
          match fs.createEach refused levels parent with
          | (made, some fault) => (made, some fault)
          | (made, none) =>
            match made.createDirectory refused path with
            | .ok made => (made, none)
            | .error fault => (made, if made.isDirectory path then none else some fault)
      | .error fault => (fs, if fs.isDirectory path then none else some fault)

/-- `createDirectories fs refused path` makes the directory `path` and those above it that are
missing. -/
def createDirectories (fs : FileSystem) (refused : Refusals) (path : Path) :
    FileSystem × Option FileFault :=
  fs.createEach refused (path.components.length + 1) path

/-- `changed before after root` lists the files at or below `root` that `after` has and `before` has
not, or not with these bytes. -/
def changed (before after : FileSystem) (root : Path) : List Path :=
  (after.walk (fun _ _ _ => true) root).filter fun path =>
    match before.read path, after.read path with
    | .ok old, .ok new => old != new
    | _, _ => true

end FileSystem

end TrackingPlan
