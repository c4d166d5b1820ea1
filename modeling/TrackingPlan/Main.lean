import TrackingPlan.Command.Run

/-!
# The program

Reads the files below the working directory, and those that the command names elsewhere, runs the
command on them, writes the files that it made and prints its reply.
-/

namespace TrackingPlan.Main

/-- `namesOf path` lists the names that lead to an absolute path. -/
def namesOf (path : String) : List String :=
  (path.splitOn "/").filter (· ≠ "")

/-- `load entry` reads what stands at `entry`. Links are not followed, and what cannot be read is
left out. -/
partial def load (entry : IO.FS.DirEntry) : IO (Option FileTree) := do
  try
    match (← entry.path.symlinkMetadata).type with
    | .dir =>
      let mut entries : Named FileTree := []
      for below in ← entry.path.readDir do
        if let some tree ← load below then
          entries := entries.insert below.fileName tree
      return some (.directory entries)
    | .file => return some (.file (← IO.FS.readBinFile entry.path))
    | _ => return none
  catch _ => return none

/-- `loadAt top path` adds what stands at an absolute path to `top`. -/
def loadAt (top : FileTree) (path : String) : IO FileTree := do
  match ← load ⟨⟨path⟩, ""⟩ with
  | none => return top
  | some tree => return top.put (namesOf path) tree

/-- `loadFor words` reads the files of the working directory and those that `words` name. -/
def loadFor (words : List String) : IO FileSystem := do
  let here := (← IO.FS.realPath (← IO.currentDir)).toString
  let mut top ← loadAt (.directory []) here
  for word in words do
    try
      let place := (← IO.FS.realPath ⟨word⟩).toString
      if (top.at? (namesOf place)).isNone then
        top ← loadAt top place
    catch _ => pure ()
  return ⟨top, namesOf here⟩

/-- `store before after` writes the files that `after` has and `before` has not. -/
def store (before after : FileSystem) : IO Unit := do
  for path in before.changed after ⟨"/"⟩ do
    if let .ok bytes := after.read path then
      if let some parent := path.parent? then
        IO.FS.createDirAll ⟨parent.text⟩
      IO.FS.writeBinFile ⟨path.text⟩ bytes

/-- Whether reports are shown in colours: as the environment asks, or else on a terminal. -/
def isColoured : IO Bool := do
  if ((← IO.getEnv "CLICOLOR_FORCE").getD "0") ≠ "0" then return true
  if (← IO.getEnv "NO_COLOR").isSome then return false
  (← IO.getStdout).isTty

/-- `run words` is the exit status of the command that `words` spell. -/
def run (words : List String) : IO UInt32 := do
  let files ← loadFor words
  let reply := Command.respond files (← isColoured) words
  store files reply.files
  IO.print reply.output
  IO.eprint reply.errors
  return reply.status.toUInt32

end TrackingPlan.Main

/-- The entry of the program. -/
def main (words : List String) : IO UInt32 := TrackingPlan.Main.run words
