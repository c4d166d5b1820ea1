import TrackingPlan.Schema
import TrackingPlan.Text.Unquote
import TrackingPlan.Tree

/-!
# The declarations of a Go file

A file declares functions, variables and constants. Every function has its own names: its receiver,
its parameters, and what is declared anywhere in its body. `Unit.lookup?` finds what a name stands
for at a place: the latest declaration before it in the function there, else that of the package.
-/

namespace TrackingPlan.Go

/-- What a name is declared as. -/
structure Binding where
  type : Option Node
  value : Option Node
  /-- The offset of the declaration. -/
  start : Nat

/-- The names declared somewhere, in order. -/
abbrev Bindings := List (String × Binding)

/-- A declaration outside all functions. -/
structure Declaration where
  /-- The name of a function; nothing for a variable or a constant. -/
  function : Option String
  body : Node
  /-- The names that belong to a function. -/
  locals : Bindings

/-- A Go file with its declarations. -/
structure Unit where
  declarations : List Declaration
  package : Bindings

/-- `declaredNames n` lists the children of `n` in the role of a name. -/
def declaredNames (n : Node) : List Node :=
  n.children.filter (·.head.role = some "name")

/-- `childrenIn n role` lists the named children of the child of `n` in that role. -/
def childrenIn (n : Node) (role : String) : List Node :=
  match n.child? role with
  | none => []
  | some child => child.namedChildren

/-- `pairUp names values` gives every name the value at its position. -/
def pairUp : List Node → List Node → List (Node × Option Node)
  | [], _ => []
  | n :: ns, [] => (n, none) :: pairUp ns []
  | n :: ns, v :: vs => (n, some v) :: pairUp ns vs

/-- `specBindings spec` lists the names that a declaration of variables or constants binds. -/
def specBindings (spec : Node) : Bindings :=
  (pairUp (declaredNames spec) (childrenIn spec "value")).map fun (name, value) =>
    (name.text, ⟨spec.child? "type", value, spec.start⟩)

/-- `shortBindings declaration` lists the names that a short declaration binds. -/
def shortBindings (declaration : Node) : Bindings :=
  ((pairUp (childrenIn declaration "left") (childrenIn declaration "right")).filter
    (·.1.kind = "identifier")).map fun (name, value) =>
      (name.text, ⟨none, value, declaration.start⟩)

/-- `parameterBindings function role` lists the names that a parameter list binds. -/
def parameterBindings (function : Node) (role : String) : Bindings :=
  (childrenIn function role).flatMap fun parameter =>
    (declaredNames parameter).map fun name =>
      (name.text, ⟨parameter.child? "type", none, parameter.start⟩)

/-- `isSpec n` holds of declarations of variables and constants. -/
def isSpec (n : Node) : Bool := n.kind = "var_spec" || n.kind = "const_spec"

/-- `localBindings n` lists the names that `n` binds by itself inside a function. -/
def localBindings (n : Node) : Bindings :=
  if isSpec n then specBindings n
  else if n.kind = "short_var_declaration" then shortBindings n
  else []

/-- `functionBindings function` lists the names that belong to a function. -/
def functionBindings (function : Node) : Bindings :=
  parameterBindings function "receiver" ++ parameterBindings function "parameters" ++
    match function.child? "body" with
    | none => []
    | some body => (Site.root body).all.flatMap (localBindings ·.node)

/-- `specsIn n` lists the outermost declarations of variables and constants in `n`, the last one
first. -/
def specsIn (n : Node) : List Node :=
  if isSpec n then [n]
  else n.namedChildren.reverse.attach.flatMap fun ⟨child, _⟩ => specsIn child
termination_by n.size
decreasing_by exact Node.size_namedChildren_lt (List.mem_reverse.1 (by assumption))

namespace Unit

/-- `declarationsAt n` lists the declarations that `n`, a part of the file, makes. -/
def declarationsAt (n : Node) : List Declaration :=
  match n.kind with
  | "function_declaration" | "method_declaration" =>
    [⟨some ((n.childText? "name").getD "global"), n, functionBindings n⟩]
  | "var_declaration" | "const_declaration" => (specsIn n).map fun spec => ⟨none, spec, []⟩
  | _ => []

/-- `packageAt n` lists the names that `n`, a part of the file, binds in the package. -/
def packageAt (n : Node) : Bindings :=
  if n.kind = "var_declaration" || n.kind = "const_declaration" then
    (specsIn n).flatMap specBindings
  else []

/-- `ofTree root` lists the declarations of the file `root`. -/
def ofTree (root : Node) : Unit where
  declarations := root.namedChildren.flatMap declarationsAt
  package := root.namedChildren.flatMap packageAt

/-- `owner? u place` is the first declaration that `place` is in. -/
def owner? (u : Unit) (place : Node) : Option Declaration :=
  u.declarations.find? (·.body.contains place)

/-- `latest? bindings name place` is the latest declaration of `name` that starts no later than
`place`; of several at one place the last counts. -/
def latest? (bindings : Bindings) (name : String) (place : Node) : Option Binding :=
  bindings.foldl (fun best entry =>
    if entry.1 = name && entry.2.start ≤ place.start then
      match best with
      | none => some entry.2
      | some held => if held.start ≤ entry.2.start then some entry.2 else best
    else best) none

/-- `lookup? u name place` is what `name` stands for at `place`. -/
def lookup? (u : Unit) (name : String) (place : Node) : Option Binding :=
  let inFunction := match u.owner? place with
    | none => none
    | some declaration =>
      if declaration.function.isSome then latest? declaration.locals name place else none
  inFunction.or (u.package.lookup name)

end Unit

end TrackingPlan.Go
