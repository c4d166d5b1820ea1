import TrackingPlan.Document.Json5
import TrackingPlan.Named

/-!
# Settings of a TypeScript project

What the manifest of a project says about modules: a directory that imports start from, and other
names for modules. A manifest that cannot be read, or that gives one of these parts a wrong form,
says nothing.
-/

namespace TrackingPlan.Project

/-- What a manifest says about modules. -/
structure Settings where
  /-- The directory that imports start from, seen from the manifest. -/
  base? : Option String := none
  /-- The targets of patterns for imports, in the order of the patterns. -/
  aliases : Named (List String) := []
deriving DecidableEq, Repr

namespace Settings

/-- The value of an entry that may be missing. Two entries of one name are a mistake. -/
inductive Part where
  | absent
  | value (d : Document)
  | repeated

/-- `part entries name` is the value of the entry `name`. -/
def part (entries : List (String × Document)) (name : String) : Part :=
  match entries.filter (·.1 = name) with
  | [] => .absent
  | [(_, d)] => .value d
  | _ => .repeated

/-- `baseOfDocument? d` reads the directory that imports start from; no value means none. -/
def baseOfDocument? : Document → Option (Option String)
  | .null => some none
  | .text base => some (some base)
  | _ => none

/-- `targets? d` reads a list of texts. -/
def targets? : Document → Option (List String)
  | .list items => items.mapM fun d => match d with
    | .text target => some target
    | _ => none
  | _ => none

/-- `aliasesOfDocument? d` reads the targets of all patterns; the last entry of a pattern counts. -/
def aliasesOfDocument? : Document → Option (Named (List String))
  | .map entries =>
    (entries.mapM fun entry => (targets? entry.2).map (entry.1, ·)).map Named.ofEntries
  | _ => none

/-- `ofParts? base paths` puts settings together from documents. -/
def ofParts? (base paths : Option Document) : Option Settings :=
  match (base.map baseOfDocument?).getD (some none),
    (paths.map aliasesOfDocument?).getD (some []) with
  | some base, some aliases => some ⟨base, aliases⟩
  | _, _ => none

/-- `ofOptions? d` reads the options of the compiler, a map or the list of its parts. -/
def ofOptions? : Document → Option Settings
  | .map entries =>
    match part entries "baseUrl", part entries "paths" with
    | .repeated, _ | _, .repeated => none
    | .absent, .absent => some {}
    | .value base, .absent => ofParts? (some base) none
    | .absent, .value paths => ofParts? none (some paths)
    | .value base, .value paths => ofParts? (some base) (some paths)
  | .list [base] => ofParts? (some base) none
  | .list (base :: paths :: _) => ofParts? (some base) (some paths)
  | _ => none

/-- `ofDocument? d` reads a manifest, a map or the list of its parts. -/
def ofDocument? : Document → Option Settings
  | .map entries =>
    match part entries "compilerOptions" with
    | .absent => some {}
    | .value options => ofOptions? options
    | .repeated => none
  | .list [] => some {}
  | .list (options :: _) => ofOptions? options
  | _ => none

/-- `ofText text` reads the text of a manifest. -/
def ofText (text : String) : Settings :=
  ((Document.ofJson5? text).bind ofDocument?).getD {}

end Settings

end TrackingPlan.Project
