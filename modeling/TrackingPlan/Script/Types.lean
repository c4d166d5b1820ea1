import TrackingPlan.Schema
import TrackingPlan.Script.Modules

/-!
# The schemas of declared types

A type annotation gives the schema of the values it admits. Named types are expanded through
declarations, imports and the project. The declarations that are being expanded are kept on a stack,
and one that is on it already stands for `any`: `Modules.expandDeclaration` puts a declaration on
the stack and takes it off again, and `Modules.expandType` reads a type.
-/

namespace TrackingPlan.Script

/-- `predefinedType name` is the schema of a type that has a word of its own. -/
def predefinedType (name : String) : Schema :=
  if name = "bigint" then .number
  else if name = "unknown" then .any
  else .label name

/-- `literalSchema n` is the schema of the type of one value. -/
def literalSchema (n : Node) : Schema :=
  match n.kind with
  | "string" | "template_string" | "template_literal_type" => .string
  | "number" | "unary_expression" => .number
  | "true" | "false" => .boolean
  | "null" => .null
  | "undefined" => .label "undefined"
  | _ => .any

/-- `enumSchema declaration` is the schema of the members of an enumeration. -/
def enumSchema (declaration : Node) : Schema :=
  match declaration.child? "body" with
  | none => .number
  | some body =>
    if body.namedChildren.any fun entry => ((entry.child? "value").bind literal?).isSome then
      .string
    else .number

/-- `isNullish s` holds of the schemas of missing values. -/
def isNullish (s : Schema) : Bool :=
  s.typeLabel = "null" || s.typeLabel = "undefined"

/-- `optional s` is the schema of a member that may be left out. -/
def optional (s : Schema) : Schema :=
  if s.isPrimitive && !s.isAny then .union [s, .label "undefined"] else s

/-- `unionSchema members` is the schema of one of several types: nothing is known if nothing is
known of one of them, and a single structured type outweighs missing values. -/
def unionSchema (members : List Schema) : Schema :=
  if members.any Schema.isAny then .any
  else match members.filter (!·.isPrimitive) with
    | [one] => if (members.filter Schema.isPrimitive).all isNullish then one else .union members
    | _ => .union members

/-- `unionMembers n` lists the members of a union, also of the unions right inside it. -/
def unionMembers (n : Node) : List Node :=
  n.namedChildren.attach.flatMap fun ⟨member, _⟩ =>
    if member.kind = "union_type" then unionMembers member else [member]
termination_by n.size
decreasing_by exact Node.size_namedChildren_lt (by assumption)

/-- The members of a union are smaller than the union. -/
theorem size_unionMembers_lt {n member : Node} (h : member ∈ unionMembers n) :
    member.size < n.size := by
  induction n using unionMembers.induct with
  | case1 n ih =>
    rw [unionMembers] at h
    obtain ⟨⟨child, hchild⟩, _, hmember⟩ := List.mem_flatMap.1 h
    have hlt := Node.size_namedChildren_lt hchild
    by_cases hkind : child.kind = "union_type"
    · simp only [hkind, if_true] at hmember
      exact Nat.lt_trans (ih child hchild hmember) hlt
    · simp only [hkind, if_false, List.mem_singleton] at hmember
      subst hmember
      exact hlt

/-- `hasMark n mark` holds when `mark` is among the children of `n`. -/
def hasMark (n : Node) (mark : String) : Bool :=
  n.children.any (·.kind = mark)

/-- `propertySignatures body` lists the properties of an object type by their names. -/
def propertySignatures (body : Node) : List (String × Node) :=
  (body.namedChildren.filter (·.kind = "property_signature")).filterMap fun member =>
    ((member.child? "name").bind key?).map (·, member)

/-- `markedSchema member schema` is the schema of a property whose type has that schema. -/
def markedSchema (member : Node) (schema : Schema) : Schema :=
  if hasMark member "?" then optional schema else schema

/-- `basesOf declaration` lists the types that an interface extends. -/
def basesOf (declaration : Node) : List Node :=
  (declaration.namedChildren.filter (·.kind = "extends_type_clause")).flatMap Node.namedChildren

/-- `firstArgument? n` is the first type argument of the generic type `n`. -/
def firstArgument? (n : Node) : Option Node :=
  (n.child? "type_arguments").bind (·.namedChildren.head?)

/-- The generic types whose values are lists of their argument. -/
def listTypes : List String := ["Array", "ReadonlyArray", "Set", "ReadonlySet"]

/-- The generic types whose values have any keys. -/
def tableTypes : List String := ["Record", "Map", "ReadonlyMap", "WeakMap"]

/-- The generic types that stand for their argument. -/
def transparentTypes : List String := ["Partial", "Required", "Readonly", "NonNullable"]

/-- A type declaration that is being expanded: the path of its module, and its name. -/
abbrev Expanding := List (String × String)

/-- A computation over the stack of the declarations that are being expanded. One that goes on
forever has no result. -/
abbrev Expansion (α : Type) := StateT Expanding Option α

mutual
/-- `modules.expandType m n depth` is the schema of the type `n` written in `m`, which is `depth`
hops away from the script that is analyzed. -/
def Modules.expandType (modules : Modules) (m : Module) (n : Node) (depth : Nat) :
    Expansion Schema :=
  match n.kind with
  | "type_annotation" | "parenthesized_type" | "readonly_type" =>
    match n.firstNamed? with
    | none => pure .any
    | some inner => modules |>.expandType m inner depth
  | "predefined_type" => pure (predefinedType n.text)
  | "literal_type" => pure ((n.firstNamed?.map literalSchema).getD .any)
  | "template_literal_type" => pure .string
  | "union_type" => do
    let members ← (unionMembers n).mapM fun member => modules |>.expandType m member depth
    pure (unionSchema members)
  | "array_type" =>
    match n.firstNamed? with
    | none => pure (.array .any)
    | some inner => do
      let items ← modules |>.expandType m inner depth
      pure (.array items)
  | "tuple_type" => do
    let members ← n.namedChildren.mapM fun member => modules |>.expandType m member depth
    pure (.array (.union members))
  | "object_type" => do
    let fields ← modules |>.expandMembers m n depth
    pure (.object fields)
  | "intersection_type" => do
    let members ← n.namedChildren.mapM fun member => modules |>.expandType m member depth
    pure (.object (Schema.fieldsOf members))
  | "generic_type" => modules |>.expandGeneric m n depth
  | "type_identifier" => do
    let found ← modules |>.expandName m n.text depth
    pure (found.getD (.label n.text))
  | "nested_type_identifier" => pure (.label n.text)
  | _ => pure .any
partial_fixpoint

/-- `modules.expandGeneric m n depth` is the schema of the generic type `n`: the known ones
first. -/
def Modules.expandGeneric (modules : Modules) (m : Module) (n : Node) (depth : Nat) :
    Expansion Schema :=
  let name := (n.childText? "name").getD ""
  if listTypes.contains name then
    match firstArgument? n with
    | none => pure (.array .any)
    | some argument => do
      let items ← modules |>.expandType m argument depth
      pure (.array items)
  else if tableTypes.contains name then pure (.object [])
  else if transparentTypes.contains name then
    match firstArgument? n with
    | none => pure .any
    | some argument => modules |>.expandType m argument depth
  else do
    let found ← modules |>.expandName m name depth
    pure (found.getD (.label n.text))
partial_fixpoint

/-- `modules.expandMembers m body depth` gives the schemas of the properties that an object type
lists; the last of a name counts. -/
def Modules.expandMembers (modules : Modules) (m : Module) (body : Node) (depth : Nat) :
    Expansion Properties := do
  let fields ← (propertySignatures body).mapM fun (name, member) =>
    match member.child? "type" with
    | none => pure (name, markedSchema member .any)
    | some type => do
      let schema ← modules |>.expandType m type depth
      pure (name, markedSchema member schema)
  pure (Named.ofEntries fields)
partial_fixpoint

/-- `modules.expandName m name depth` is the schema of the type `name` as `m` sees it: its own
declaration, an imported one, or, in the script that is analyzed, one of the project. -/
def Modules.expandName (modules : Modules) (m : Module) (name : String) (depth : Nat) :
    Expansion (Option Schema) :=
  if depth > maxHops then pure none
  else match m.type? name with
    | some declaration => do
      let schema ← modules |>.expandDeclaration m name declaration depth
      pure (some schema)
    | none =>
      match m.import? name with
      | some ⟨specifier, .named exported⟩ =>
        match modules.imported m.path specifier with
        | none => pure none
        | some target => do
          match ← modules |>.expandName target exported (depth + 1) with
          | some found => pure (some found)
          | none =>
            target.reexports.findSomeM? fun passed =>
              match passed.inner? exported, modules.imported target.path passed.specifier with
              | some inner, some next => modules |>.expandName next inner (depth + 2)
              | _, _ => pure none
      | some _ => pure none
      | none =>
        if depth = 0 then
          match modules.declaring name with
          | none => pure none
          | some target =>
            if target.path.same m.path then pure none
            else match target.type? name with
              | none => pure none
              | some declaration => do
                let schema ← modules |>.expandDeclaration target name declaration (depth + 1)
                pure (some schema)
        else pure none
partial_fixpoint

/-- `modules.expandDeclaration m name declaration depth` is the schema of the type `name` that `m`
declares, or `any` while that type is being expanded. -/
def Modules.expandDeclaration (modules : Modules) (m : Module) (name : String) (declaration : Node)
    (depth : Nat) : Expansion Schema := do
  let seen ← get
  if (m.path.shown, name) ∈ seen then pure .any
  else
    set ((m.path.shown, name) :: seen)
    let schema ← modules |>.expandBody m declaration depth
    modify List.tail
    pure schema
partial_fixpoint

/-- `modules.expandBody m declaration depth` is the schema of what a declaration says. The members
of an interface replace those it inherits. -/
def Modules.expandBody (modules : Modules) (m : Module) (declaration : Node) (depth : Nat) :
    Expansion Schema :=
  match declaration.kind with
  | "interface_declaration" => do
    let bases ← (basesOf declaration).mapM fun base => modules |>.expandType m base depth
    match declaration.child? "body" with
    | none => pure (.object (Schema.fieldsOf bases))
    | some body => do
      let own ← modules |>.expandMembers m body depth
      pure (.object (Named.merge (Schema.fieldsOf bases) own))
  | "type_alias_declaration" =>
    match declaration.child? "value" with
    | none => pure .any
    | some value => modules |>.expandType m value depth
  | "enum_declaration" => pure (enumSchema declaration)
  | _ => pure .any
partial_fixpoint
end

/-- `annotationSchema modules m n` is the schema of the type `n` written in `m`. -/
def annotationSchema (modules : Modules) (m : Module) (n : Node) : Schema :=
  match modules.expandType m n 0 [] with
  | some (schema, _) => schema
  | none => .any

end TrackingPlan.Script
