import TrackingPlan.Collect
import TrackingPlan.Grammar.Script
import TrackingPlan.Project.Settings
import TrackingPlan.Project.TypeNames
import TrackingPlan.Script.Modules

/-!
# TypeScript projects

A project is a directory whose scripts import each other. `Project.resolve?` finds the file that a
specifier leads to: a relative one is taken from the importing file, any other from the aliases and
the base directory of the project. The types that scripts declare are known by name in the whole
project.
-/

namespace TrackingPlan

/-- A directory with scripts. -/
structure Project where
  root : Path
  /-- The directory that imports start from. -/
  base? : Option Path
  /-- The targets of patterns for imports, in the order of the patterns. -/
  aliases : List (String × List Path)
  /-- For the name of a type, the first file that seems to declare it. -/
  typeFiles : Named Path

namespace Project

/-- The name of the manifest of a project. -/
def manifestName : String := "tsconfig.json"

/-- A project with more scripts than this has no table of types. -/
def maxFiles : Nat := 10000

/-- `isScript path` holds of the files with TypeScript modules. -/
def isScript (path : Path) : Bool :=
  path.extension?.any Language.typeScript.extensions.contains

/-- `scripts fs root` lists the scripts of the project at `root`. -/
def scripts (fs : FileSystem) (root : Path) : List Path :=
  let admits (name : String) (_ : Path) (_ : FileTree) :=
    !isHidden name && !skippedNames.contains name
  Path.ordered ((fs.walk admits root).filter isScript)

/-- `addTypes fs files path` adds the types that the script at `path` seems to declare to the table
`files`, unless they are in it. -/
def addTypes (fs : FileSystem) (files : Named Path) (path : Path) : Named Path :=
  match fs.readText path with
  | .error _ => files
  | .ok text =>
    (typeNames text).foldl (fun (files : Named Path) name =>
      if (files.find? name).isSome then files else files.insert name path) files

/-- `typeFilesOf fs root` is the table of types of the project at `root`. -/
def typeFilesOf (fs : FileSystem) (root : Path) : Named Path :=
  let files := scripts fs root
  if files.length > maxFiles then [] else files.foldl (addTypes fs) []

/-- `ofSettings fs root settings` is the project at `root` with these settings. -/
def ofSettings (fs : FileSystem) (root : Path) (settings : Settings) : Project :=
  let base := settings.base?.map fun b => root.join ⟨b⟩
  let start := base.getD root
  { root
    base? := base
    aliases := settings.aliases.map fun (pattern, targets) =>
      (pattern, targets.map fun target => start.join ⟨target⟩)
    typeFiles := typeFilesOf fs root }

/-- `load fs manifest` is the project with that manifest. -/
def load (fs : FileSystem) (manifest : Path) : Project :=
  let settings := match fs.readText manifest with
    | .ok text => Settings.ofText text
    | .error _ => {}
  ofSettings fs (manifest.parent?.getD ⟨""⟩) settings

/-- `standalone fs root` is the project at `root` without a manifest. -/
def standalone (fs : FileSystem) (root : Path) : Project :=
  ofSettings fs root {}

/-! ## Imports -/

/-- `dropEnd? ending text` is `text` without `ending`, if it ends with it. -/
def dropEnd? (ending text : String) : Option String :=
  if text.endsWith ending then some (String.ofList (text.toList.take (text.length - ending.length)))
  else none

/-- What may be added to an import to get the name of a file. -/
def moduleEndings : List String := [".ts", ".tsx", ".d.ts", "/index.ts", "/index.tsx"]

/-- `expansion path` lists the files that `path` may mean as an import: the script itself, the
scripts that a compiled file stems from, and files with an ending added. Endings are changed in the
text that is shown for the path. -/
def expansion (path : Path) : List Path :=
  let path := path.normalize
  let itself := if isScript path then [path] else []
  let siblings := match dropEnd? ".js" path.shown with
    | none => []
    | some stem => [⟨stem ++ ".ts"⟩, ⟨stem ++ ".tsx"⟩]
  itself ++ siblings ++ moduleEndings.map fun ending => ⟨path.shown ++ ending⟩

/-- `isRelative specifier` holds of imports that start from the importing file. -/
def isRelative (specifier : String) : Bool :=
  specifier.startsWith "./" || specifier.startsWith "../"

/-- `matched? pattern specifier` is what a star at the end of `pattern` stands for in `specifier`,
and the empty text if the pattern has none and is the same. -/
def matched? (pattern specifier : String) : Option String :=
  match dropEnd? "*" pattern with
  | some start =>
    if specifier.startsWith start then
      some (String.ofList (specifier.toList.drop start.length))
    else none
  | none => if pattern = specifier then some "" else none

/-- `fillStar rest cs` puts `rest` in the place of the first star in `cs`. -/
def fillStar (rest : List Char) : List Char → List Char
  | [] => []
  | c :: cs => if c = '*' then rest ++ cs else c :: fillStar rest cs

/-- `candidates p importer specifier` lists the files that an import may mean, the first choice
first. -/
def candidates (p : Project) (importer : Path) (specifier : String) : List Path :=
  if isRelative specifier then
    match importer.parent? with
    | none => []
    | some directory => expansion (directory.join ⟨specifier⟩)
  else
    let aliased := p.aliases.flatMap fun (pattern, targets) =>
      match matched? pattern specifier with
      | none => []
      | some rest =>
        targets.flatMap fun target =>
          expansion ⟨String.ofList (fillStar rest.toList target.shown.toList)⟩
    let based := match p.base? with
      | none => []
      | some base => expansion (base.join ⟨specifier⟩)
    aliased ++ based

/-- `resolve? fs p importer specifier` is the file that an import leads to. -/
def resolve? (fs : FileSystem) (p : Project) (importer : Path) (specifier : String) : Option Path :=
  (p.candidates importer specifier).find? fs.isFile

/-! ## Modules -/

/-- `moduleAt? fs path` is the module in the file at `path`. -/
def moduleAt? (fs : FileSystem) (path : Path) : Option Script.Module :=
  let path := path.normalize
  match fs.read path with
  | .error _ => none
  | .ok bytes => some (.ofTree path (Script.read (Script.dialectOf path) ⟨bytes⟩))

/-- Modules by the text of their paths, each of them read when it is first asked for. -/
structure ModuleTable where
  modules : List (String × Thunk (Option Script.Module))

namespace ModuleTable

/-- `ofFiles fs paths` is the table of the modules in the files at `paths`. -/
def ofFiles (fs : FileSystem) (paths : List Path) : ModuleTable :=
  ⟨paths.map fun path => (path.normalize.text, ⟨fun _ => moduleAt? fs path⟩)⟩

/-- `find? fs table path` is the module in the file at `path`, taken from the table if it is
there. -/
def find? (fs : FileSystem) (table : ModuleTable) (path : Path) : Option Script.Module :=
  match table.modules.lookup path.normalize.text with
  | some found => found.get
  | none => moduleAt? fs path

end ModuleTable

/-- `modules fs table p` is what the scripts of `p` see of other modules. -/
def modules (fs : FileSystem) (table : ModuleTable) (p : Project) : Script.Modules where
  typed := true
  imported importer specifier := (p.resolve? fs importer specifier).bind (table.find? fs)
  declaring name := (p.typeFiles.find? name).bind (table.find? fs)

end Project

end TrackingPlan
