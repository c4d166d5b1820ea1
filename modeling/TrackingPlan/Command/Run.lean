import TrackingPlan.Command.Page
import TrackingPlan.Command.Reader
import TrackingPlan.Text.Quoted

/-!
# Running commands

`Command.run` carries a command out on a file system and replies with what is printed, the exit
status and the file system that is left. A scan leaves the files as they are; `init` writes a first
configuration where nothing stands yet. `respond` reads a command from words and runs it.
-/

namespace TrackingPlan

/-- What comes of a command. -/
structure Reply where
  status : Nat
  output : String
  errors : String
  /-- The files when the command is done. -/
  files : FileSystem

namespace Reply

/-- The status of a command that was carried out. -/
def success : Nat := 0

/-- The status of a command that failed. -/
def failure : Nat := 2

/-- `print fs text` replies with `text`. -/
def print (fs : FileSystem) (text : String) : Reply := ⟨success, text, "", fs⟩

/-- `refuse fs message` replies that a command failed. -/
def refuse (fs : FileSystem) (message : String) : Reply :=
  ⟨failure, "", "Error: " ++ message ++ "\n", fs⟩

/-- `correct fs e` replies that the words of a command make no sense. -/
def correct (fs : FileSystem) (e : UsageError) : Reply :=
  ⟨failure, "", "error: " ++ e.message ++ "\n\nFor more information, try '--help'.\n", fs⟩

end Reply

namespace ScanRequest

/-- `configIn fs directory request` is the configuration of a scan: that of the file the command
names, or else of the one in `directory`, with what the command adds. -/
def configIn (fs : FileSystem) (directory : Path) (request : ScanRequest) :
    Except ConfigError Config :=
  let loaded : Except ConfigError Config :=
    match request.config.or (Config.discover? fs directory) with
    | none => .ok {}
    | some file => Config.load fs file
  match loaded with
  | .error e => .error e
  | .ok loaded =>
    let config := loaded.merge request.additions
    match config.validate with
    | .error e => .error e
    | .ok () => .ok config

/-- `run fs coloured request` scans and reports. -/
def run (fs : FileSystem) (coloured : Bool) (request : ScanRequest) : Reply :=
  match fs.canonical request.path with
  | .error fault =>
    .refuse fs ("cannot access path " ++ Text.quotedName request.path.text ++ ": " ++
      fault.message)
  | .ok root =>
    let directory := if fs.isFile root then root.parent?.getD root else root
    match request.configIn fs directory with
    | .error e => .refuse fs e.message
    | .ok config =>
      match Scan.run fs root ⟨config.customFunctions, config.ignore, config.concurrency⟩ with
      | .error e => .refuse fs e.message
      | .ok found => .print fs (Report.render request.format coloured request.path found)

end ScanRequest

namespace Command

/-- `directoryFor? output` is the directory that has to be there before `output` can be written,
unless it is the one where the program runs. -/
def directoryFor? (output : Path) : Option Path :=
  output.parent?.filter fun parent => parent.text ≠ "" && !parent.same ⟨"."⟩

/-- `created output` tells that `output` was written, and what to do next. -/
def created (output : Path) : String :=
  Report.unlines ["Created " ++ output.shown, "", "Next steps:",
    "  1. Add your tracking wrappers under custom_functions",
    "  2. Run: " ++ Report.programName ++ " scan . --config " ++ output.shown]

/-- `start fs refused output` writes a first configuration to `output`. -/
def start (fs : FileSystem) (refused : Refusals) (output : Path) : Reply :=
  if fs.isThere output then
    .refuse fs ("file already exists: " ++ output.shown ++
      "\nRemove it or use --output to specify a different path")
  else
    let (ready, problem) := match directoryFor? output with
      | none => (fs, none)
      | some directory => fs.createDirectories refused directory
    match problem with
    | some fault => .refuse ready ("failed to create directory: " ++ fault.message)
    | none =>
      match ready.write refused output Config.starter.toUTF8 with
      | .error fault => .refuse ready ("failed to write config: " ++ fault.message)
      | .ok written => .print written (created output)

/-- `run fs refused coloured command` carries out `command`. -/
def run (fs : FileSystem) (refused : Refusals) (coloured : Bool) : Command → Reply
  | .scan request => request.run fs coloured
  | .init output => start fs refused output
  | .help topic => .print fs (Page.text topic)
  | .version => .print fs (Report.programName ++ " " ++ Report.version ++ "\n")
  | .nothing => ⟨Reply.failure, "", Page.text none, fs⟩

/-- `respond fs coloured words` carries out the command that `words` spell, where every place can be
written. -/
def respond (fs : FileSystem) (coloured : Bool) (words : List String) : Reply :=
  match read words with
  | .error e => .correct fs e
  | .ok command => run fs (fun _ => false) coloured command

end Command

end TrackingPlan
