import TrackingPlan.Catalog
import TrackingPlan.Document

/-!
# Schemas and catalogs as documents

How schemas, properties and catalogs are written as documents and read back. A schema is a map that
names its kind; other entries of a map that stands for a record do not matter. A record may also be
given as the list of its parts.
-/

namespace TrackingPlan

/-- The kind of a schema. -/
inductive Schema.Kind where
  | primitive
  | array
  | object
deriving DecidableEq, Repr

namespace Schema

/-- `Kind.ofDocument? outermost d` is the kind that `d` names. Below the outermost schema a kind may
also be given by its number. -/
def Kind.ofDocument? (outermost : Bool) : Document → Option Kind
  | .text name =>
    if name = "primitive" then some primitive
    else if name = "array" then some array
    else if name = "object" then some object
    else none
  | .number n =>
    if outermost then none
    else if n = 0 then some primitive
    else if n = 1 then some array
    else if n = 2 then some object
    else none
  | _ => none

mutual
/-- `document s` is the document that stands for `s`. -/
def document : Schema → Document
  | .primitive type => .map [("kind", .text "primitive"), ("type", .text type.name)]
  | .array items => .map [("kind", .text "array"), ("items", items.document)]
  | .object fields => .map [("kind", .text "object"), ("fields", .map (documents fields))]

/-- `documents fields` lists the documents that stand for the named schemas. -/
def documents : List (String × Schema) → List (String × Document)
  | [] => []
  | (name, s) :: rest => (name, s.document) :: documents rest
end

mutual
/-- `ofDocument? outermost d` is the schema that `d` stands for. -/
def ofDocument? (outermost : Bool) (d : Document) : Option Schema :=
  match d with
  | .map entries =>
    match (entries.lookup "kind").bind (Kind.ofDocument? outermost) with
    | some .primitive =>
      match entries.lookup "type" with
      | some (.text name) => some (label name)
      | _ => none
    | some .array =>
      match _h : entries.lookup "items" with
      | some items => (ofDocument? false items).map .array
      | none => none
    | some .object =>
      match _h : entries.lookup "fields" with
      | some (.map fields) => (ofDocuments? false fields).map fun fs => .object (Named.ofEntries fs)
      | _ => none
    | none => none
  | .list [kind, part] =>
    match Kind.ofDocument? outermost kind, part with
    | some .primitive, .text name => some (label name)
    | some .array, items => (ofDocument? false items).map .array
    | some .object, .map fields =>
      (ofDocuments? false fields).map fun fs => .object (Named.ofEntries fs)
    | _, _ => none
  | _ => none
termination_by sizeOf d
decreasing_by
  all_goals simp_wf
  · have := Document.sizeOf_lookup_lt _h
    omega
  · have := Document.sizeOf_lookup_lt _h
    simp only [Document.map.sizeOf_spec] at this
    omega
  all_goals omega

/-- `ofDocuments? outermost entries` lists the schemas that the named documents stand for. -/
def ofDocuments? (outermost : Bool) (entries : List (String × Document)) :
    Option (List (String × Schema)) :=
  match entries with
  | [] => some []
  | (name, d) :: rest =>
    match ofDocument? outermost d, ofDocuments? outermost rest with
    | some s, some others => some ((name, s) :: others)
    | _, _ => none
termination_by sizeOf entries
end

end Schema

namespace Properties

/-- `document properties` is the document that stands for `properties`. -/
def document (properties : Properties) : Document := .map (Schema.documents properties)

/-- `ofDocument? d` is the table of properties that `d` stands for. -/
def ofDocument? : Document → Option Properties
  | .map entries => (Schema.ofDocuments? true entries).map Named.ofEntries
  | _ => none

end Properties

/-- `Provider.ofDocument? d` is the provider that `d` names; a map with that only name and no value
names it too. -/
def Provider.ofDocument? : Document → Option Provider
  | .text name => ofName? name
  | .map [(name, .null)] => ofName? name
  | _ => none

namespace Implementation

/-- `document i` is the document that stands for `i`. -/
def document (i : Implementation) : Document :=
  .map [("path", .text i.path), ("line", .number i.line), ("function", .text i.function),
    ("destination", .text i.destination.name)]

/-- `ofParts? path line function destination` puts an implementation together. Lines are counted
with 64 bits. -/
def ofParts? : (path line function destination : Document) → Option Implementation
  | .text path, .number line, .text function, destination =>
    if 0 ≤ line ∧ line < Int.ofNat (Nat.pow 2 64) then
      (Provider.ofDocument? destination).map fun provider => ⟨path, line.toNat, function, provider⟩
    else none
  | _, _, _, _ => none

/-- `ofDocument? d` is the implementation that `d` stands for. -/
def ofDocument? : Document → Option Implementation
  | .list [path, line, function, destination] => ofParts? path line function destination
  | d =>
    match d.field? "path", d.field? "line", d.field? "function", d.field? "destination" with
    | some path, some line, some function, some destination =>
      ofParts? path line function destination
    | _, _, _, _ => none

end Implementation

namespace Entry

/-- `document e` is the document that stands for `e`. -/
def document (e : Entry) : Document :=
  .map [("implementations", .list (e.implementations.map Implementation.document)),
    ("properties", Properties.document e.properties)]

/-- `ofParts? implementations properties` puts an entry together. -/
def ofParts? : (implementations properties : Document) → Option Entry
  | .list implementations, properties =>
    match implementations.mapM Implementation.ofDocument?, Properties.ofDocument? properties with
    | some implementations, some properties => some ⟨implementations, properties⟩
    | _, _ => none
  | _, _ => none

/-- `ofDocument? d` is the entry that `d` stands for. -/
def ofDocument? : Document → Option Entry
  | .list [implementations, properties] => ofParts? implementations properties
  | d =>
    match d.field? "implementations", d.field? "properties" with
    | some implementations, some properties => ofParts? implementations properties
    | _, _ => none

end Entry

namespace Catalog

/-- `document c` is the document that stands for `c`. -/
def document (c : Catalog) : Document :=
  .map (c.map fun entry => (entry.1, entry.2.document))

/-- `ofDocument? d` is the catalog that `d` stands for. -/
def ofDocument? : Document → Option Catalog
  | .map entries =>
    (entries.mapM fun entry => (Entry.ofDocument? entry.2).map (entry.1, ·)).map Named.ofEntries
  | _ => none

end Catalog

end TrackingPlan
