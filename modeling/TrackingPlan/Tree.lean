/-!
# Syntax trees

A concrete syntax tree keeps every token of a source text. A node has a kind, a range of bytes, the
text of that range, and perhaps a role in its parent. A `Site` is a node together with the nodes
around it; `Site.all` lists the sites of a tree with outer nodes before inner ones, and
`Site.children` never shows a comment among the named children.
-/

namespace TrackingPlan

/-- What a node says of itself. -/
structure Head where
  kind : String
  /-- Punctuation and keywords have no name of their own. -/
  named : Bool
  /-- The role of the node in its parent. -/
  role : Option String
  /-- The offset of the first byte. -/
  start : Nat
  /-- The offset after the last byte. -/
  stop : Nat
  /-- The line of the first byte, counted from zero. -/
  row : Nat
  text : String
deriving DecidableEq, Repr, Inhabited

/-- A node of a concrete syntax tree. -/
inductive Node where
  | mk (head : Head) (children : List Node)
deriving Inhabited

namespace Node

/-- `head n` is what `n` says of itself. -/
def head : Node → Head
  | mk head _ => head

/-- `children n` lists the nodes right below `n`. -/
def children : Node → List Node
  | mk _ children => children

/-- `kind n` is the kind of `n`. -/
def kind (n : Node) : String := n.head.kind

/-- `text n` is the source text of `n`. -/
def text (n : Node) : String := n.head.text

/-- `start n` is the offset of the first byte of `n`. -/
def start (n : Node) : Nat := n.head.start

/-- `stop n` is the offset after the last byte of `n`. -/
def stop (n : Node) : Nat := n.head.stop

/-- `line n` is the line that `n` starts on, counted from one. -/
def line (n : Node) : Nat := n.head.row + 1

/-- `isComment n` holds of comments. -/
def isComment (n : Node) : Bool := n.kind = "comment"

/-- `namedChildren n` lists the children of `n` that are neither punctuation nor comments. -/
def namedChildren (n : Node) : List Node :=
  n.children.filter fun c => c.head.named && !c.isComment

/-- `firstNamed? n` is the first child of `n` that is not punctuation; it may be a comment. -/
def firstNamed? (n : Node) : Option Node :=
  n.children.find? (·.head.named)

/-- `child? n role` is the first child of `n` in that role. -/
def child? (n : Node) (role : String) : Option Node :=
  n.children.find? (·.head.role = some role)

/-- `childText? n role` is the text of the first child of `n` in that role. -/
def childText? (n : Node) (role : String) : Option String :=
  (n.child? role).map text

/-- `contains outer inner` holds when the bytes of `inner` are among those of `outer`. -/
def contains (outer inner : Node) : Bool :=
  outer.start ≤ inner.start && inner.stop ≤ outer.stop

mutual
/-- `size n` counts the nodes of the tree `n`. -/
def size : Node → Nat
  | mk _ children => sizeList children + 1

/-- `sizeList ns` counts the nodes of the trees `ns`. -/
def sizeList : List Node → Nat
  | [] => 0
  | n :: ns => size n + sizeList ns
end

/-- A member of a list is no larger than the list. -/
theorem size_lt_sizeList {c : Node} : ∀ {ns : List Node}, c ∈ ns → c.size ≤ sizeList ns
  | n :: ns, h => by
    rcases List.mem_cons.1 h with rfl | h
    · simp [sizeList]
    · have := size_lt_sizeList h
      simp only [sizeList]
      omega

/-- A child is smaller than its parent. -/
theorem size_lt_of_mem {n c : Node} (h : c ∈ n.children) : c.size < n.size := by
  cases n with
  | mk head children =>
    have := size_lt_sizeList h
    simp only [size, Node.children] at *
    omega

/-- The child in a role is smaller than the node. -/
theorem size_child?_lt {n c : Node} {role : String} (h : n.child? role = some c) :
    c.size < n.size :=
  size_lt_of_mem (List.mem_of_find?_eq_some h)

/-- The first named child is smaller than the node. -/
theorem size_firstNamed?_lt {n c : Node} (h : n.firstNamed? = some c) : c.size < n.size :=
  size_lt_of_mem (List.mem_of_find?_eq_some h)

/-- The named children are smaller than the node. -/
theorem size_namedChildren_lt {n c : Node} (h : c ∈ n.namedChildren) : c.size < n.size :=
  size_lt_of_mem ((List.mem_filter.1 h).1)

end Node

/-- A node together with its ancestors, the parent first. -/
structure Site where
  node : Node
  ancestors : List Node
deriving Inhabited

namespace Site

/-- `root n` is the node `n` with nothing around it. -/
def root (n : Node) : Site := ⟨n, []⟩

/-- `kind s` is the kind of the node. -/
def kind (s : Site) : String := s.node.kind

/-- `text s` is the source text of the node. -/
def text (s : Site) : String := s.node.text

/-- `below s n` is the child `n` of the node seen from `s`. -/
def below (s : Site) (n : Node) : Site := ⟨n, s.node :: s.ancestors⟩

/-- `parent? s` is the site of the parent. -/
def parent? (s : Site) : Option Site :=
  match s.ancestors with
  | [] => none
  | parent :: rest => some ⟨parent, rest⟩

/-- `children s` lists the named children that are no comments. -/
def children (s : Site) : List Site :=
  s.node.namedChildren.map s.below

/-- `first? s` is the first named child, which may be a comment. -/
def first? (s : Site) : Option Site :=
  s.node.firstNamed?.map s.below

/-- `child? s role` is the first child in that role. -/
def child? (s : Site) (role : String) : Option Site :=
  (s.node.child? role).map s.below

/-- `childText? s role` is the text of the first child in that role. -/
def childText? (s : Site) (role : String) : Option String :=
  s.node.childText? role

/-- The child of a site in a role is smaller than the site. -/
theorem size_child?_lt {s c : Site} {role : String} (h : s.child? role = some c) :
    c.node.size < s.node.size := by
  obtain ⟨n, hn, rfl⟩ := Option.map_eq_some_iff.1 h
  exact Node.size_child?_lt hn

/-- The first child of a site is smaller than the site. -/
theorem size_first?_lt {s c : Site} (h : s.first? = some c) : c.node.size < s.node.size := by
  obtain ⟨n, hn, rfl⟩ := Option.map_eq_some_iff.1 h
  exact Node.size_firstNamed?_lt hn

/-- The children of a site are smaller than the site. -/
theorem size_children_lt {s c : Site} (h : c ∈ s.children) : c.node.size < s.node.size := by
  obtain ⟨n, hn, rfl⟩ := List.mem_map.1 h
  exact Node.size_namedChildren_lt hn

mutual
/-- `allBelow ancestors n` lists the sites of `n` and of all nodes in it, outer ones first. -/
def allBelow (ancestors : List Node) : Node → List Site
  | .mk head children =>
    ⟨.mk head children, ancestors⟩ :: allInList (.mk head children :: ancestors) children

/-- `allInList ancestors ns` lists the sites of all nodes in the trees `ns`. -/
def allInList (ancestors : List Node) : List Node → List Site
  | [] => []
  | n :: ns => allBelow ancestors n ++ allInList ancestors ns
end

/-- `all s` lists the sites of the node and of all nodes in it, outer ones before inner ones. -/
def all (s : Site) : List Site := allBelow s.ancestors s.node

end Site

end TrackingPlan
