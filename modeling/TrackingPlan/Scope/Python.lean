import TrackingPlan.Schema
import TrackingPlan.Text.Blank
import TrackingPlan.Tree

/-!
# The names of a Python file

A file binds names by assignments and as the parameters of functions. `Unit.lookup?` finds what a
name stands for at a place: of the bindings made before it in the scopes around it, the innermost
and latest one. Constants are the names assigned to outside functions, those of a class under the
name of the class.
-/

namespace TrackingPlan.Python

/-- One binding of a name. -/
structure Binding where
  value : Option Node
  /-- What tells the type. -/
  annotation : Option Node
  /-- The function or file that the name belongs to. -/
  scope : Node
  /-- The offset of the binding. -/
  start : Nat

/-- A Python file with its names. -/
structure Unit where
  /-- The bindings of all names, in order. -/
  bindings : List (String × Binding)
  /-- The constants, the last one first. -/
  constants : List (String × Node)

/-- `isScope n` holds of nodes with names of their own. -/
def isScope (n : Node) : Bool :=
  ["module", "function_definition", "lambda"].contains n.kind

/-- `scopeAround root s` is the scope that a name bound at `s` belongs to. -/
def scopeAround (root : Node) (s : Site) : Node :=
  (s.ancestors.find? isScope).getD root

/-- `owningClass? s` is the name of the class in whose body the assignment `s` stands. -/
def owningClass? (s : Site) : Option String :=
  match s.ancestors with
  | statement :: block :: owner :: _ =>
    if statement.kind = "expression_statement" && block.kind = "block" &&
        owner.kind = "class_definition" then owner.childText? "name"
    else none
  | _ => none

/-- `assignedName? n` is the name that the assignment `n` assigns to, if it is a single name. -/
def assignedName? (n : Node) : Option String :=
  ((n.child? "left").filter (·.kind = "identifier")).map (·.text)

/-- `assignmentConstant? root s` is the constant that the assignment `s` makes. -/
def assignmentConstant? (root : Node) (s : Site) : Option (String × Node) :=
  match assignedName? s.node, s.node.child? "right" with
  | some name, some value =>
    match owningClass? s with
    | some owner => some (owner ++ "." ++ name, value)
    | none => if (scopeAround root s).kind = "module" then some (name, value) else none
  | _, _ => none

/-- `assignmentBinding? root s` is the binding that the assignment `s` makes. -/
def assignmentBinding? (root : Node) (s : Site) : Option (String × Binding) :=
  match assignedName? s.node, owningClass? s with
  | some name, none =>
    some (name, ⟨s.node.child? "right", s.node.child? "type", scopeAround root s, s.node.start⟩)
  | _, _ => none

/-- `parameterName? n` is the name that the parameter `n` binds. -/
def parameterName? (n : Node) : Option String :=
  match n.kind with
  | "identifier" => some n.text
  | "typed_parameter" => (n.namedChildren.find? (·.kind = "identifier")).map (·.text)
  | "default_parameter" | "typed_default_parameter" => n.childText? "name"
  | _ => none

/-- `parameterBindings function` lists the bindings of the parameters of a function. -/
def parameterBindings (function : Node) : List (String × Binding) :=
  match function.child? "parameters" with
  | none => []
  | some parameters => parameters.namedChildren.filterMap fun parameter =>
    (parameterName? parameter).map (·, ⟨none, parameter.child? "type", function, parameter.start⟩)

/-- `bindingsAt root s` lists the bindings that the node at `s` makes by itself. -/
def bindingsAt (root : Node) (s : Site) : List (String × Binding) :=
  match s.kind with
  | "assignment" => (assignmentBinding? root s).toList
  | "function_definition" => parameterBindings s.node
  | _ => []

namespace Unit

/-- `ofTree root` lists the names of the file `root`. -/
def ofTree (root : Node) : Unit :=
  let sites := (Site.root root).all
  { bindings := sites.flatMap (bindingsAt root)
    constants := ((sites.filter (·.kind = "assignment")).filterMap
      (assignmentConstant? root)).reverse }

/-- `width n` is the number of bytes of `n`. -/
def width (n : Node) : Nat := n.stop - n.start

/-- `closer b held` holds when `b` is in an inner scope, or later in one of the same width. -/
def closer (b held : Binding) : Bool :=
  width b.scope < width held.scope || (width b.scope = width held.scope && held.start < b.start)

/-- `lookup? u name place` is the binding of `name` that counts at `place`. -/
def lookup? (u : Unit) (name : String) (place : Node) : Option Binding :=
  u.bindings.foldl (fun best (key, b) =>
    if key = name && b.scope.contains place && b.start ≤ place.start then
      match best with
      | none => some b
      | some held => if closer b held then some b else best
    else best) none

end Unit

/-! ## Types written as annotations -/

/-- `headAndItem text` splits the annotation `text` at its first bracket: the name of the type, and
what stands between that bracket and one at the end. -/
def headAndItem (text : List Char) : List Char × Option (List Char) :=
  let text := Text.trimChars text
  match text.dropWhile (· ≠ '[') with
  | [] => (text, none)
  | _ :: rest =>
    (Text.trimChars (text.takeWhile (· ≠ '[')),
      if rest.getLast? = some ']' then some (Text.trimChars rest.dropLast) else none)

/-- `annotationWithin depth text` is the schema that the annotation `text` stands for, read to that
depth of brackets. -/
def annotationWithin : (depth : Nat) → (text : List Char) → Schema
  | 0, _ => .any
  | depth + 1, text =>
    let (head, item) := headAndItem text
    match String.ofList head with
    | "str" => .string
    | "int" | "float" => .number
    | "bool" => .boolean
    | "None" => .null
    | "list" | "List" | "set" | "Set" | "tuple" | "Tuple" | "Sequence" =>
      .array (match item with
        | none => .any
        | some item => annotationWithin depth (item.takeWhile (· ≠ ',')))
    | "dict" | "Dict" | "Mapping" => .object []
    | "Optional" =>
      match item with
      | none => .any
      | some item => annotationWithin depth item
    | _ => .any

/-- `annotationSchema text` is the schema that an annotation stands for. -/
def annotationSchema (text : String) : Schema :=
  annotationWithin (text.toList.length + 1) text.toList

end TrackingPlan.Python
