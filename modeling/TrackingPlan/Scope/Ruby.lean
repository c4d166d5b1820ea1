import TrackingPlan.Named
import TrackingPlan.Path
import TrackingPlan.Text.Unquote
import TrackingPlan.Tree

/-!
# The constants of Ruby files

A constant of a file is a text assigned to a capital name, known by its full name: the names of the
modules and classes around it, joined by double colons. `ConstantIndex` holds the constants of
several directories, and `ConstantIndex.resolve?` finds the constant that a name stands for in one
of them.
-/

namespace TrackingPlan.Ruby

/-- The values of constants by their full names. -/
abbrev Constants := Named String

/-- `unrooted cs` is the name `cs` without the double colons in front. -/
def unrooted : List Char → List Char
  | ':' :: ':' :: rest => unrooted rest
  | cs => cs

/-- `relativeName text` is the name `text` without the double colons in front. -/
def relativeName (text : String) : String := String.ofList (unrooted text.toList)

/-- `fullName names` joins the parts of a name. -/
def fullName (names : List String) : String := "::".intercalate names

/-- `literal? n` is the text of a text without embedded values, perhaps a frozen one. -/
def literal? (n : Node) : Option String :=
  match n.kind with
  | "string" =>
    if n.namedChildren.any (·.kind = "interpolation") then none else some (Text.unquote n.text)
  | "call" =>
    if n.childText? "method" = some "freeze" then
      match _h : n.child? "receiver" with
      | none => none
      | some receiver => literal? receiver
    else none
  | _ => none
termination_by n.size
decreasing_by exact Node.size_child?_lt _h

/-- `isContainer n` holds of modules and classes. -/
def isContainer (n : Node) : Bool := n.kind = "module" || n.kind = "class"

/-- `containerName? n` is the name of a module or a class as it is written, taken from the
outside. -/
def containerName? (n : Node) : Option String :=
  if isContainer n then (n.childText? "name").map relativeName else none

/-- `assignedConstant? around n` is the constant that the assignment `n` makes in the modules and
classes `around`. -/
def assignedConstant? (around : List String) (n : Node) : Option (String × String) :=
  match n.child? "left", (n.child? "right").bind literal? with
  | some left, some value =>
    match left.kind with
    | "constant" => some (fullName (around ++ [left.text]), value)
    | "scope_resolution" => some (relativeName left.text, value)
    | _ => none
  | _, _ => none

/-- `constantsIn around n` lists the constants made in `n`, which lies in the modules and classes
`around`. -/
def constantsIn (around : List String) (n : Node) : List (String × String) :=
  let own := if n.kind = "assignment" then (assignedConstant? around n).toList else []
  let inner := around ++ (containerName? n).toList
  own ++ n.namedChildren.attach.flatMap fun ⟨child, _⟩ => constantsIn inner child
termination_by n.size
decreasing_by exact Node.size_namedChildren_lt (by assumption)

/-- `Constants.ofTree root` gives the constants of the file `root`; the last value of a name
counts. -/
def Constants.ofTree (root : Node) : Constants := Named.ofEntries (constantsIn [] root)

/-- `candidates name around` lists the full names that `name` may stand for in the modules and
classes `around`, the innermost first. -/
def candidates (name : String) (around : List String) : List String :=
  (List.range (around.length + 1)).reverse.map fun depth =>
    fullName (around.take depth ++ [relativeName name])

/-- `ownConstant? constants name around` is the value that a file with these constants gives `name`
inside the modules and classes `around`. -/
def ownConstant? (constants : Constants) (name : String) (around : List String) : Option String :=
  (candidates name around).findSome? constants.find?

/-- The constants of several directories, in the order of their paths. -/
structure ConstantIndex where
  directories : List (Path × Constants)

namespace ConstantIndex

/-- `size index` counts the constants. -/
def size (index : ConstantIndex) : Nat :=
  index.directories.foldl (fun n entry => n + entry.2.length) 0

/-- `isEmpty index` holds when there is no constant. -/
def isEmpty (index : ConstantIndex) : Bool := index.size = 0

/-- `seenFrom index directory` lists the constants of all directories, those of `directory`
first. -/
def seenFrom (index : ConstantIndex) (directory : Path) : List Constants :=
  let (own, others) := index.directories.partition (·.1.same directory)
  (own ++ others).map (·.2)

/-- `bySuffix? tables name` is the value of the constants whose full name ends in `name`, if they
all have the same value. -/
def bySuffix? (tables : List Constants) (name : String) : Option String :=
  let ending := "::" ++ name
  let found := (tables.flatMap fun table => table.filter (·.1.endsWith ending)).map (·.2)
  match found with
  | [] => none
  | first :: rest => if rest.all (· = first) then some first else none

/-- `resolve? index directory name around` is the value of `name` in a file of `directory`, inside
the modules and classes `around`: the first full name that is known, and else the only value of the
constants with that ending. -/
def resolve? (index : ConstantIndex) (directory : Path) (name : String) (around : List String) :
    Option String :=
  let tables := index.seenFrom directory
  let names := candidates name around
  (tables.findSome? fun table => names.findSome? table.find?).or
    (bySuffix? tables (relativeName name))

end ConstantIndex

end TrackingPlan.Ruby
