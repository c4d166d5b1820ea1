import TrackingPlan.Path

/-!
# Languages

The languages whose tracking calls are found, and the files that are written in them. Declaration
files of TypeScript hold no calls and belong to no language.
-/

namespace TrackingPlan

/-- A language with tracking calls. -/
inductive Language where
  | javaScript
  | typeScript
  | python
  | ruby
  | go
deriving DecidableEq, Repr

namespace Language

/-- All languages. -/
def all : List Language := [javaScript, typeScript, python, ruby, go]

/-- `name l` is the name of `l`. -/
def name : Language → String
  | javaScript => "javascript"
  | typeScript => "typescript"
  | python => "python"
  | ruby => "ruby"
  | go => "go"

/-- `extensions l` lists the endings of the files in `l`. -/
def extensions : Language → List String
  | javaScript => ["js", "jsx", "mjs", "cjs"]
  | typeScript => ["ts", "tsx", "mts", "cts"]
  | python => ["py"]
  | ruby => ["rb"]
  | go => ["go"]

/-- `ofExtension? extension` is the language of files with that ending. -/
def ofExtension? (extension : String) : Option Language :=
  all.find? (·.extensions.contains extension)

/-- `ofPath? p` is the language of the file at `p`, unless it holds declarations only. A name that
is no text has no language. -/
def ofPath? (p : Path) : Option Language :=
  match p.fileName? with
  | none => none
  | some name =>
    if !Text.isPlain name || name.endsWith ".d.ts" then none else p.extension?.bind ofExtension?

end Language

end TrackingPlan
