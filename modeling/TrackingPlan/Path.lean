import TrackingPlan.Text.Names

/-!
# Paths

A path is a text whose parts stand between slashes. Comparisons look at its components only:
repeated slashes, slashes at the end and single dots after the start do not count. The text itself
is kept, because reports show it. The names in it need not be texts; `Text.Names` says how they are
kept, and `Path.shown` is what reports show of them.
-/

namespace TrackingPlan

/-- A part of a path. -/
inductive Component where
  | root
  | current
  | parent
  | normal (name : String)
deriving DecidableEq, Repr

namespace Component

/-- `text c` is the spelling of `c`. -/
def text : Component → String
  | root => "/"
  | current => "."
  | parent => ".."
  | normal name => name

/-- `rank c` orders the kinds of components. -/
def rank : Component → Nat
  | root => 0
  | current => 1
  | parent => 2
  | normal _ => 3

/-- `compare a b` orders components by kind, and names by their bytes. Two ways to keep the same
bytes are told apart as texts. -/
def compare : Component → Component → Ordering
  | normal a, normal b => (Ord.compare (Text.bytes a) (Text.bytes b)).then (Ord.compare a b)
  | a, b => Ord.compare a.rank b.rank

end Component

/-- A path of the file system, as written. -/
structure Path where
  text : String
deriving DecidableEq, Repr, Inhabited

namespace Path

/-- `shown p` is the text that is shown for `p`. -/
def shown (p : Path) : String := Text.shown p.text

/-- `pieces p` lists the texts between the slashes of `p`. -/
def pieces (p : Path) : List String :=
  p.text.splitOn "/"

/-- `isAbsolute p` holds when `p` starts at the root. -/
def isAbsolute (p : Path) : Bool :=
  p.text.startsWith "/"

/-- `component? piece` is the component that `piece` spells after the start of a path. -/
def component? (piece : String) : Option Component :=
  if piece = "" || piece = "." then none
  else if piece = ".." then some .parent
  else some (.normal piece)

/-- `components p` lists the components of `p`. A single dot counts only at the start. -/
def components (p : Path) : List Component :=
  if p.isAbsolute then .root :: p.pieces.filterMap component?
  else match p.pieces with
    | "." :: rest => .current :: rest.filterMap component?
    | pieces => pieces.filterMap component?

/-- `compare a b` orders paths by their components, from the first on. -/
def compare (a b : Path) : Ordering :=
  go a.components b.components
where
  go : List Component → List Component → Ordering
    | [], [] => .eq
    | [], _ :: _ => .lt
    | _ :: _, [] => .gt
    | c :: cs, d :: ds => (Component.compare c d).then (go cs ds)

/-- `same a b` holds when `a` and `b` have the same components. -/
def same (a b : Path) : Bool :=
  a.components = b.components

/-- `fileName? p` is the last component of `p` if it is a name. -/
def fileName? (p : Path) : Option String :=
  match p.components.getLast? with
  | some (.normal name) => some name
  | _ => none

/-- `extension? p` is what follows the last full stop of the file name, if something precedes it. -/
def extension? (p : Path) : Option String :=
  match p.fileName? with
  | none => none
  | some name =>
    match name.toList.reverse.span (· ≠ '.') with
    | (extension, '.' :: (_ :: _)) => some (String.ofList extension.reverse)
    | _ => none

/-- `trimPieces pieces` drops what spells no component from the end of reversed pieces, apart from
the first piece of the path. -/
def trimPieces : List String → List String
  | [] => []
  | [first] => [first]
  | piece :: rest => if piece = "" || piece = "." then trimPieces rest else piece :: rest

/-- `parent? p` is `p` without its last component; a root and an empty path have no parent. -/
def parent? (p : Path) : Option Path :=
  match trimPieces p.pieces.reverse with
  | [] => none
  | [""] => none
  | [_] => some ⟨""⟩
  | _ :: rest =>
    match trimPieces rest with
    | [""] => some ⟨"/"⟩
    | kept => some ⟨"/".intercalate kept.reverse⟩

/-- `join base p` is `p` taken from `base`; an absolute `p` stands for itself. -/
def join (base p : Path) : Path :=
  if p.isAbsolute then p
  else if base.text = "" || base.text.endsWith "/" then ⟨base.text ++ p.text⟩
  else ⟨base.text ++ "/" ++ p.text⟩

/-- `stripPrefix? base p` lists the components of `p` after those of `base`, if it starts with
them. -/
def stripPrefix? (base p : Path) : Option (List Component) :=
  go base.components p.components
where
  go : List Component → List Component → Option (List Component)
    | [], rest => some rest
    | _ :: _, [] => none
    | c :: cs, d :: ds => if c = d then go cs ds else none

/-- `isComponent piece` holds when `piece` spells a component after the start of a path. -/
def isComponent (piece : String) : Bool := (component? piece).isSome

/-- `dropComponents n pieces` drops the first `n` components and what spells none up to the next. -/
def dropComponents : Nat → List String → List String
  | _, [] => []
  | 0, piece :: rest => if isComponent piece then piece :: rest else dropComponents 0 rest
  | n + 1, piece :: rest => dropComponents (if isComponent piece then n else n + 1) rest

/-- `below? root p` is the text of `p` after the components of `root`, if it starts with them.
Slashes and dots inside the text are kept, and those at its ends are not. -/
def below? (root p : Path) : Option String :=
  if (stripPrefix? root p).isNone then none
  else
    let trim (pieces : List String) :=
      (pieces.reverse.dropWhile (!isComponent ·)).reverse
    let body (n : Nat) (pieces : List String) := trim (dropComponents n pieces)
    match root.components.length, p.components, p.pieces with
    | 0, .root :: _, _ :: pieces => some ("/" ++ "/".intercalate (trim pieces))
    | 0, .current :: _, first :: pieces => some ("/".intercalate (first :: trim pieces))
    | 0, _, pieces => some ("/".intercalate (trim pieces))
    | n + 1, .root :: _, _ :: pieces | n + 1, .current :: _, _ :: pieces =>
      some ("/".intercalate (body n pieces))
    | n, _, pieces => some ("/".intercalate (body n pieces))

/-- `ofComponents cs` spells a path with the components `cs`. -/
def ofComponents : List Component → Path
  | .root :: rest => ⟨"/" ++ "/".intercalate (rest.map Component.text)⟩
  | cs => ⟨"/".intercalate (cs.map Component.text)⟩

/-- `relative root p` is how reports name `p`: its components after `root` as they are shown, or all
of them if it is not below `root`; the root itself goes by its file name. -/
def relative (root p : Path) : String :=
  let rest := (stripPrefix? root p).getD p.components
  let rendered := "/".intercalate (rest.map fun c => Text.shown c.text)
  if rendered = "" then (p.fileName?.map Text.shown).getD "" else rendered

/-- `normalizeStep stack c` applies one component to a reversed stack of components: two dots take a
name away, and are kept only at the start of a path that has no root. -/
def normalizeStep (stack : List Component) : Component → List Component
  | .current => stack
  | .parent =>
    match stack with
    | .normal _ :: rest => rest
    | _ => if stack.contains .root then stack else .parent :: stack
  | c => c :: stack

/-- `normalize p` resolves the dots of `p` without looking at any file. -/
def normalize (p : Path) : Path :=
  ofComponents (p.components.foldl normalizeStep []).reverse

/-- `ordered paths` sorts `paths` by their components. -/
def ordered (paths : List Path) : List Path :=
  paths.mergeSort fun a b => (compare a b).isLE

end Path

end TrackingPlan
