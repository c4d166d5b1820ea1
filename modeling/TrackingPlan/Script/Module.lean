import TrackingPlan.Grammar.Script
import TrackingPlan.Path
import TrackingPlan.Text.Unquote
import TrackingPlan.Tree

/-!
# The declarations of a module

What one script declares, indexed by name: variables and parameters with the scope they belong to,
types, imports and exports of other modules. A `Module` holds the declarations of its own tree and
no others. `Module.lookup?` picks the declaration of a name that is visible at a place: the
innermost scope first, then the latest declaration before the place.
-/

namespace TrackingPlan.Script

/-- `dialectOf path` is the variant of TypeScript that the file at `path` is written in. -/
def dialectOf (path : Path) : Dialect :=
  if path.extension? = some "tsx" then .typeScriptMarkup else .typeScript

/-- A name that has a value or a type in some scope. -/
structure Binding where
  declaration : Node
  value : Option Site
  annotation : Option Site
  scope : Node

/-- What an import takes from the other module. -/
inductive Imported where
  | named (name : String)
  | all
  | default
deriving DecidableEq, Repr

/-- An imported name. -/
structure Import where
  specifier : String
  imported : Imported
deriving DecidableEq, Repr

/-- An export of what another module exports: one name under a name, or everything. -/
structure Reexport where
  /-- The exported name and the name in the other module, or everything. -/
  names : Option (String × String)
  specifier : String
deriving DecidableEq, Repr

/-- `inner? passed name` is the name in the other module of what is exported as `name`. -/
def Reexport.inner? (passed : Reexport) (name : String) : Option String :=
  match passed.names with
  | none => some name
  | some (exported, inner) => if exported = name then some inner else none

namespace Module

/-- `isScope kind` holds of the kinds of nodes that variables belong to. -/
def isScope (kind : String) : Bool :=
  ["program", "function_declaration", "generator_function_declaration", "function_expression",
    "function", "generator_function", "arrow_function", "method_definition"].contains kind

/-- `scopeOf root s` is the innermost scope around `s`. -/
def scopeOf (root : Node) (s : Site) : Node :=
  (s.ancestors.find? (isScope ·.kind)).getD root

/-- `named? s role` is the child in that role if it is an identifier. -/
def named? (s : Site) (role : String) : Option Site :=
  (s.child? role).filter (·.kind = "identifier")

/-- `bindingsAt root s` lists what the node of `s` binds by itself. -/
def bindingsAt (root : Node) (s : Site) : List (String × Binding) :=
  let one (name : Option Site) (value annotation : Option Site) (scope : Node) :=
    match name with
    | none => []
    | some name => [(name.text, ⟨s.node, value, annotation, scope⟩)]
  match s.kind with
  | "variable_declarator" =>
    one (named? s "name") (s.child? "value") (s.child? "type") (scopeOf root s)
  | "required_parameter" | "optional_parameter" =>
    one (named? s "pattern") none (s.child? "type") (scopeOf root s)
  | "formal_parameters" =>
    s.children.flatMap fun parameter =>
      let name := match parameter.kind with
        | "identifier" => some parameter
        | "assignment_pattern" => named? parameter "left"
        | _ => none
      match name with
      | none => []
      | some name => [(name.text, ⟨parameter.node, none, none, scopeOf root s⟩)]
  | "enum_declaration" => one (s.child? "name") (some s) none root
  | _ => []

/-- `typesAt s` lists the types that the node of `s` declares by itself. -/
def typesAt (s : Site) : List (String × Node) :=
  match s.kind with
  | "enum_declaration" | "interface_declaration" | "type_alias_declaration" =>
    match s.childText? "name" with
    | none => []
    | some name => [(name, s.node)]
  | _ => []

/-- `importsIn specifier part` lists the names that a part of an import clause imports. -/
def importsIn (specifier : String) (part : Node) : List (String × Import) :=
  match part.kind with
  | "identifier" => [(part.text, ⟨specifier, .default⟩)]
  | "named_imports" =>
    (part.namedChildren.filter (·.kind = "import_specifier")).flatMap fun entry =>
      match entry.childText? "name" with
      | none => []
      | some name => [((entry.childText? "alias").getD name, ⟨specifier, .named name⟩)]
  | "namespace_import" =>
    match part.firstNamed? with
    | none => []
    | some name => [(name.text, ⟨specifier, .all⟩)]
  | _ => []

/-- `importsAt n` lists the names that an import statement imports. -/
def importsAt (n : Node) : List (String × Import) :=
  match n.kind, n.childText? "source" with
  | "import_statement", some source =>
    let specifier := Text.unquote source
    (n.namedChildren.filter (·.kind = "import_clause")).flatMap fun clause =>
      clause.namedChildren.flatMap (importsIn specifier)
  | _, _ => []

/-- `reexportsAt n` lists what an export statement passes on from another module. -/
def reexportsAt (n : Node) : List Reexport :=
  match n.kind, n.childText? "source" with
  | "export_statement", some source =>
    let specifier := Text.unquote source
    match n.namedChildren.find? (·.kind = "export_clause") with
    | none => [⟨none, specifier⟩]
    | some clause =>
      clause.namedChildren.flatMap fun entry =>
        match entry.childText? "name" with
        | none => []
        | some name => [⟨some ((entry.childText? "alias").getD name, name), specifier⟩]
  | _, _ => []

/-- `sites root` lists all places in the script `root`, outer ones before inner ones. -/
def sites (root : Node) : List Site := (Site.root root).all

end Module

/-- A script with its declarations, which are those of its tree. -/
structure Module where
  path : Path
  root : Node
  bindings : List (String × Binding)
  /-- The declarations of types, of which the last of a name counts. -/
  types : List (String × Node)
  /-- The imported names, of which the last of a name counts. -/
  imports : List (String × Import)
  reexports : List Reexport
  bindings_eq : bindings = (Module.sites root).flatMap (Module.bindingsAt root)
  types_eq : types = (Module.sites root).flatMap Module.typesAt
  imports_eq : imports = (Module.sites root).flatMap (Module.importsAt ·.node)
  reexports_eq : reexports = (Module.sites root).flatMap (Module.reexportsAt ·.node)

namespace Module

/-- `ofTree path root` indexes the declarations of the script `root`. -/
def ofTree (path : Path) (root : Node) : Module :=
  let places := sites root
  { path, root
    bindings := places.flatMap (bindingsAt root)
    types := places.flatMap typesAt
    imports := places.flatMap (importsAt ·.node)
    reexports := places.flatMap (reexportsAt ·.node)
    bindings_eq := rfl
    types_eq := rfl
    imports_eq := rfl
    reexports_eq := rfl }

/-- `type? m name` is the declaration of the type `name`. -/
def type? (m : Module) (name : String) : Option Node :=
  m.types.reverse.lookup name

/-- `import? m name` is the import that brings in `name`. -/
def import? (m : Module) (name : String) : Option Import :=
  m.imports.reverse.lookup name

/-- `closer place a b` holds when `a` is nearer to `place` than `b`: its scope is smaller, or
it alone is declared before the place, or it is the later one before or the earlier one after. -/
def closer (place : Node) (a b : Binding) : Bool :=
  let width (x : Binding) := x.scope.stop - x.scope.start
  let isBefore (x : Binding) : Bool := x.declaration.start ≤ place.start
  if width a ≠ width b then width a < width b
  else if isBefore a ≠ isBefore b then isBefore a
  else if isBefore a then b.declaration.start < a.declaration.start
  else a.declaration.start < b.declaration.start

/-- `nearest? place bindings` is the first of the nearest of `bindings`. -/
def nearest? (place : Node) : List Binding → Option Binding
  | [] => none
  | b :: rest =>
    match nearest? place rest with
    | none => some b
    | some best => if closer place best b then some best else some b

/-- `lookup? m name place` is the declaration of `name` that is visible at `place`. -/
def lookup? (m : Module) (name : String) (place : Node) : Option Binding :=
  nearest? place
    (((m.bindings.filter (·.1 = name)).map (·.2)).filter fun b => b.scope.contains place)

end Module

end TrackingPlan.Script
