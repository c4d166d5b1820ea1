import TrackingPlan.Named

/-!
# Property schemas

A tracked property has a schema: a primitive, an array of one item schema, or an object of named
fields. `Schema.union` and `Schema.arrayItems` combine the schemas of several values into one.
A primitive that is none of the five known ones is a label, a name or a list of alternatives kept as
text; `Primitive.ofName_ne_label` says that reading a known name never makes a label.
-/

namespace TrackingPlan

/-- A schema without parts. -/
inductive Primitive where
  | string
  | number
  | boolean
  | null
  | any
  /-- A type known by its text only, such as a union of alternatives or a name. -/
  | label (text : String)
deriving DecidableEq, Repr, Inhabited

namespace Primitive

/-- `name p` is the text of `p`. -/
def name : Primitive → String
  | string => "string"
  | number => "number"
  | boolean => "boolean"
  | null => "null"
  | any => "any"
  | label text => text

/-- `ofName text` is the known primitive of that name, or else a label. -/
def ofName (text : String) : Primitive :=
  if text = "string" then string
  else if text = "number" then number
  else if text = "boolean" then boolean
  else if text = "null" then null
  else if text = "any" then any
  else label text

/-- A schema that is made for a name has it for its own. -/
@[simp] theorem name_ofName (text : String) : (ofName text).name = text := by
  unfold ofName
  split
  · simp_all [name]
  split
  · simp_all [name]
  split
  · simp_all [name]
  split
  · simp_all [name]
  split <;> simp_all [name]

/-- The five known names are read as their primitives and never as labels. -/
theorem ofName_ne_label {text : String}
    (known : text ∈ ["string", "number", "boolean", "null", "any"]) (other : String) :
    ofName text ≠ label other := by
  simp only [List.mem_cons, List.not_mem_nil, or_false] at known
  rcases known with rfl | rfl | rfl | rfl | rfl <;> simp [ofName]

end Primitive

/-- The schema of a tracked property. -/
inductive Schema where
  | primitive (type : Primitive)
  | array (items : Schema)
  | object (fields : List (String × Schema))
deriving Repr, Inhabited

/-- The schemas of the properties of an event, in name order. -/
abbrev Properties := Named Schema

namespace Schema

mutual
/-- Equality of schemas is decidable. -/
def decEq : (a b : Schema) → Decidable (a = b)
  | .primitive s, .primitive t =>
    if h : s = t then .isTrue (by rw [h]) else .isFalse (by simp [h])
  | .array s, .array t =>
    match decEq s t with
    | .isTrue h => .isTrue (by rw [h])
    | .isFalse h => .isFalse (by simp [h])
  | .object s, .object t =>
    match decEqFields s t with
    | .isTrue h => .isTrue (by rw [h])
    | .isFalse h => .isFalse (by simp [h])
  | .primitive _, .array _ | .primitive _, .object _ | .array _, .primitive _
  | .array _, .object _ | .object _, .primitive _ | .object _, .array _ => .isFalse (by simp)

/-- Equality of field lists is decidable. -/
def decEqFields : (a b : List (String × Schema)) → Decidable (a = b)
  | [], [] => .isTrue rfl
  | [], _ :: _ | _ :: _, [] => .isFalse (by simp)
  | (m, s) :: rest, (n, t) :: others =>
    if h : m = n then
      match decEq s t, decEqFields rest others with
      | .isTrue hs, .isTrue hr => .isTrue (by rw [h, hs, hr])
      | .isFalse hs, _ => .isFalse (by simp [hs])
      | _, .isFalse hr => .isFalse (by simp [hr])
    else .isFalse (by simp [h])
end

instance : DecidableEq Schema := decEq

/-- The schema of a text. -/
def string : Schema := .primitive .string

/-- The schema of a number. -/
def number : Schema := .primitive .number

/-- The schema of a truth value. -/
def boolean : Schema := .primitive .boolean

/-- The schema of a missing value. -/
def null : Schema := .primitive .null

/-- The schema of a value about which nothing is known. -/
def any : Schema := .primitive .any

/-- `label name` is the primitive of that name. -/
def label (name : String) : Schema := .primitive (.ofName name)

/-- `isAny s` holds of the schema about which nothing is known. -/
def isAny (s : Schema) : Bool := s = any

/-- `isObject s` holds of object schemas. -/
def isObject : Schema → Bool
  | .object _ => true
  | _ => false

/-- `isPrimitive s` holds of schemas without parts. -/
def isPrimitive : Schema → Bool
  | .primitive _ => true
  | _ => false

/-- `typeLabel s` is the text that stands for `s` among alternatives. -/
def typeLabel : Schema → String
  | .primitive type => type.name
  | .array items => items.typeLabel ++ "[]"
  | .object _ => "object"

/-- `distinct members` keeps the first of equal schemas. -/
def distinct (members : List Schema) : List Schema :=
  members.foldl (fun kept s => if s ∈ kept then kept else kept ++ [s]) []

/-- `union members` is the one schema that covers `members`, in the given order: the member itself
if they are all equal, and otherwise a label of the alternatives. -/
def union (members : List Schema) : Schema :=
  match distinct members with
  | [] => any
  | [one] => one
  | several => label (" | ".intercalate (several.map typeLabel))

/-- `fieldsOf elements` merges the fields of the objects among `elements`; the last of a name
wins. -/
def fieldsOf (elements : List Schema) : Properties :=
  elements.foldl (fun acc s => match s with | .object fields => acc.merge fields | _ => acc) []

/-- `insertLabel labels text` adds `text` to a list of labels in order, unless it is there. -/
def insertLabel : List String → String → List String
  | [], text => [text]
  | head :: rest, text =>
    if text = head then head :: rest
    else if text < head then text :: head :: rest
    else head :: insertLabel rest text

/-- `arrayItems elements` is the item schema of an array with these elements: their common schema,
else the merged fields of the objects among them, else a label of their sorted type labels. -/
def arrayItems : List Schema → Schema
  | [] => any
  | first :: rest =>
    if rest.all (· = first) then first
    else if (first :: rest).any isObject then .object (fieldsOf (first :: rest))
    else label (" | ".intercalate (((first :: rest).map typeLabel).foldl insertLabel []))

end Schema

end TrackingPlan
