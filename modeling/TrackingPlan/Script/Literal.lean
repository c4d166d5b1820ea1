import TrackingPlan.Text.Unquote
import TrackingPlan.Tree

/-!
# Literals and names in scripts

What can be read off an expression without looking at any declaration: its value behind parentheses
and type assertions, the text of a literal, the path of names of a callee, and the members of an
object written out.
-/

namespace TrackingPlan.Script

/-- `isCallOf call name` holds of calls of `name`, with or without a receiver. -/
def isCallOf (call : Node) (name : String) : Bool :=
  call.kind = "call_expression" &&
    match call.childText? "function" with
    | none => false
    | some text => text = name || text.endsWith ("." ++ name)

/-- `argumentsOf call` lists the arguments of a call. -/
def argumentsOf (call : Site) : List Site :=
  match call.child? "arguments" with
  | none => []
  | some list => if list.kind = "arguments" then list.children else []

/-- The arguments of a call are smaller than the call. -/
theorem size_argumentsOf_lt {call argument : Site} (h : argument ∈ argumentsOf call) :
    argument.node.size < call.node.size := by
  unfold argumentsOf at h
  split at h
  · simp at h
  · rename_i list hlist
    split at h
    · exact Nat.lt_trans (Site.size_children_lt h) (Site.size_child?_lt hlist)
    · simp at h

/-- `inner? s` is the expression right inside parentheses, a type assertion or a call that freezes
an object. -/
def inner? (s : Site) : Option Site :=
  match s.kind with
  | "parenthesized_expression" | "as_expression" | "satisfies_expression"
  | "non_null_expression" => s.first?
  | "call_expression" =>
    if isCallOf s.node "Object.freeze" then (argumentsOf s).head? else none
  | _ => none

/-- What stands inside a wrapper is smaller than it. -/
theorem size_inner?_lt {s inner : Site} (h : inner? s = some inner) :
    inner.node.size < s.node.size := by
  unfold inner? at h
  split at h
  · exact Site.size_first?_lt h
  · exact Site.size_first?_lt h
  · exact Site.size_first?_lt h
  · exact Site.size_first?_lt h
  · split at h
    · exact size_argumentsOf_lt (List.mem_of_mem_head? h)
    · simp at h
  · simp at h

/-- `unwrap s` is the expression behind all parentheses, type assertions and freezing calls. -/
def unwrap (s : Site) : Site :=
  match _h : inner? s with
  | none => s
  | some inner => unwrap inner
termination_by s.node.size
decreasing_by exact size_inner?_lt _h

/-- `literal? n` is the text of a string, or of a template without substitutions. -/
def literal? (n : Node) : Option String :=
  match n.kind with
  | "string" => some (Text.unquote n.text)
  | "template_string" =>
    if n.namedChildren.any (·.kind = "template_substitution") then none
    else some (Text.unquote n.text)
  | _ => none

/-- `segments? n` is the path of names that leads to a member, as in a callee. -/
def segments? (n : Node) : Option (List String) :=
  match n.kind with
  | "identifier" | "this" | "property_identifier" | "private_property_identifier" =>
    some [n.text]
  | "member_expression" =>
    match _h : n.child? "object" with
    | none => none
    | some object =>
      match segments? object, n.childText? "property" with
      | some path, some property => some (path ++ [property])
      | _, _ => none
  | "subscript_expression" =>
    match _h : n.child? "object" with
    | none => none
    | some object =>
      match segments? object, (n.child? "index").bind literal? with
      | some path, some index => some (path ++ [index])
      | _, _ => none
  | "parenthesized_expression" | "non_null_expression" =>
    match _h : n.firstNamed? with
    | none => none
    | some inner => segments? inner
  | _ => none
termination_by n.size
decreasing_by
  · exact Node.size_child?_lt _h
  · exact Node.size_child?_lt _h
  · exact Node.size_firstNamed?_lt _h

/-- `key? n` is the name that a key of an object stands for. -/
def key? (n : Node) : Option String :=
  match n.kind with
  | "property_identifier" | "number" | "private_property_identifier" => some n.text
  | "string" => some (Text.unquote n.text)
  | "computed_property_name" => n.firstNamed?.bind literal?
  | _ => none

/-- `memberValue? key entry` is the value of `entry`, an entry of an object, if its key is `key`. -/
def memberValue? (key : String) (entry : Site) : Option Site :=
  match entry.kind with
  | "pair" =>
    match (entry.child? "key").bind fun k => key? k.node with
    | none => none
    | some name => if name = key then entry.child? "value" else none
  | "shorthand_property_identifier" => if entry.text = key then some entry else none
  | _ => none

/-- `member? object key` is the value of the first entry of an object with that key. -/
def member? (object : Site) (key : String) : Option Site :=
  object.children.findSome? (memberValue? key)

/-- `enumMember? declaration member` is the text of a member of an enumeration. -/
def enumMember? (declaration : Node) (member : String) : Option String :=
  match declaration.child? "body" with
  | none => none
  | some body =>
    body.namedChildren.findSome? fun entry =>
      if entry.kind = "enum_assignment" && entry.childText? "name" = some member then
        (entry.child? "value").bind literal?
      else none

end TrackingPlan.Script
