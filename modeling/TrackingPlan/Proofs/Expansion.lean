import Mathlib.Data.List.Basic
import TrackingPlan.Script.Types

/-!
# What a type stands for, given a table of names

`typeSchema` reads a type where a table says what the names in it stand for. It has no stack and no
end of its own to reach, since every step goes to a smaller node. `yields_expandType` says that the
expansion of a type is this reading, provided that the expansion of each name gives what the table
says, and that the stack is then as it was before.
-/

namespace TrackingPlan.Script

open Modules

/-! ## Computations that leave the stack alone -/

/-- Started with the stack `seen`, the computation ends with `a`, and with that stack. -/
def Yields {α : Type} (c : Expansion α) (seen : Expanding) (a : α) : Prop :=
  c seen = some (a, seen)

section Yields

variable {α β : Type} {seen : Expanding}

/-- A result that is there yields itself. -/
theorem Yields.pure (a : α) : Yields (pure a) seen a := rfl

/-- What yields a result that goes on to yield another yields that one. -/
theorem Yields.bind {c : Expansion α} {f : α → Expansion β} {a : α} {b : β} (hc : Yields c seen a)
    (hf : Yields (f a) seen b) : Yields (c >>= f) seen b := by
  show (c seen).bind (fun x => f x.1 x.2) = some (b, seen)
  rw [hc]
  exact hf

/-- A result that is worked on without the stack. -/
theorem Yields.map {c : Expansion α} {a : α} (hc : Yields c seen a) (f : α → β) :
    Yields (c >>= fun x => Pure.pure (f x)) seen (f a) :=
  hc.bind (.pure (f a))

/-- A list yields its results one by one, since each restores what is being expanded. -/
theorem Yields.mapM {γ : Type} {f : γ → Expansion α} {g : γ → α} {xs : List γ}
    (h : ∀ x ∈ xs, Yields (f x) seen (g x)) : Yields (xs.mapM f) seen (xs.map g) := by
  induction xs with
  | nil => exact .pure []
  | cons x xs ih =>
      rw [List.mapM_cons]
      refine (h x List.mem_cons_self).bind ?_
      exact (ih fun y hy => h y (List.mem_cons_of_mem x hy)).map (g x :: ·)

/-- The first result that is found is yielded, since each restores what is being expanded. -/
theorem Yields.findSomeM? {γ : Type} {f : γ → Expansion (Option α)} {g : γ → Option α}
    {xs : List γ} (h : ∀ x ∈ xs, Yields (f x) seen (g x)) :
    Yields (xs.findSomeM? f) seen (xs.findSome? g) := by
  induction xs with
  | nil => exact .pure none
  | cons x xs ih =>
      have hx := h x List.mem_cons_self
      rw [List.findSome?_cons]
      cases hg : g x with
      | some a =>
          rw [hg] at hx
          exact hx.bind (.pure (some a))
      | none =>
          rw [hg] at hx
          exact hx.bind (ih fun y hy => h y (List.mem_cons_of_mem x hy))

/-- What reads the names being expanded yields what it yields with them. -/
theorem Yields.get {f : Expanding → Expansion β} {b : β} (hf : Yields (f seen) seen b) :
    Yields (MonadState.get >>= f) seen b :=
  hf

/-- What is put on the stack for a while is taken off again. -/
theorem Yields.bracket {key : String × String} {c : Expansion α} {a : α}
    (hc : Yields c (key :: seen) a) :
    Yields (do set (key :: seen); let x ← c; modify List.tail; Pure.pure x) seen a := by
  show (c (key :: seen)).bind (fun x => some (x.1, x.2.tail)) = some (a, seen)
  rw [hc]
  rfl

/-- `resultOf c seen` is what `c` ends with, started with the stack `seen`. -/
def resultOf [Inhabited α] (c : Expansion α) (seen : Expanding) : α :=
  match c seen with
  | some (a, _) => a
  | none => default

/-- A computation that ends and leaves the stack alone ends with its result. -/
theorem yields_resultOf [Inhabited α] {c : Expansion α} (hc : ∃ a, Yields c seen a) :
    Yields c seen (resultOf c seen) := by
  obtain ⟨a, ha⟩ := hc
  have hresult : resultOf c seen = a := by rw [resultOf, ha]
  rw [hresult]
  exact ha

/-- A computation has one result. -/
theorem Yields.eq {c : Expansion α} {a b : α} (ha : Yields c seen a) (hb : Yields c seen b) :
    a = b :=
  congrArg Prod.fst (Option.some.inj (ha.symm.trans hb))

end Yields

/-! ## Reading types by a table of names -/

/-- The first argument of a type is smaller than the type. -/
theorem size_firstArgument?_lt {n argument : Node} (h : firstArgument? n = some argument) :
    argument.size < n.size := by
  obtain ⟨arguments, harguments, hfirst⟩ := Option.bind_eq_some_iff.1 h
  have hlt := Node.size_namedChildren_lt (List.mem_of_mem_head? hfirst)
  exact Nat.lt_trans hlt (Node.size_child?_lt harguments)

/-- The property signatures are children of the body. -/
theorem mem_of_mem_propertySignatures {body member : Node} {name : String}
    (h : (name, member) ∈ propertySignatures body) : member ∈ body.namedChildren := by
  obtain ⟨found, hfound, hname⟩ := List.mem_filterMap.1 h
  obtain ⟨key, -, hpair⟩ := Option.map_eq_some_iff.1 hname
  cases hpair
  exact (List.mem_filter.1 hfound).1

mutual
/-- `typeSchema named n` is the schema of the type `n`, where `named` tells what names stand for. -/
def typeSchema (named : String → Option Schema) (n : Node) : Schema :=
  match n.kind with
  | "type_annotation" | "parenthesized_type" | "readonly_type" =>
    match _h : n.firstNamed? with
    | none => .any
    | some inner => typeSchema named inner
  | "predefined_type" => predefinedType n.text
  | "literal_type" => (n.firstNamed?.map literalSchema).getD .any
  | "template_literal_type" => .string
  | "union_type" =>
    unionSchema ((unionMembers n).attach.map fun ⟨member, _⟩ => typeSchema named member)
  | "array_type" =>
    match _h : n.firstNamed? with
    | none => .array .any
    | some inner => .array (typeSchema named inner)
  | "tuple_type" =>
    .array (.union (n.namedChildren.attach.map fun ⟨member, _⟩ => typeSchema named member))
  | "object_type" => .object (memberFields named n)
  | "intersection_type" =>
    .object (Schema.fieldsOf
      (n.namedChildren.attach.map fun ⟨member, _⟩ => typeSchema named member))
  | "generic_type" => genericSchema named n
  | "type_identifier" => (named n.text).getD (.label n.text)
  | "nested_type_identifier" => .label n.text
  | _ => .any
termination_by (n.size, 1)
decreasing_by
  all_goals first
    | exact Prod.Lex.left _ _ (Node.size_firstNamed?_lt _h)
    | exact Prod.Lex.left _ _ (size_unionMembers_lt (by assumption))
    | exact Prod.Lex.left _ _ (Node.size_namedChildren_lt (by assumption))
    | exact Prod.Lex.right _ (by decide)

/-- `genericSchema named n` is the schema of the generic type `n`. -/
def genericSchema (named : String → Option Schema) (n : Node) : Schema :=
  let name := (n.childText? "name").getD ""
  if listTypes.contains name then
    match _h : firstArgument? n with
    | none => .array .any
    | some argument => .array (typeSchema named argument)
  else if tableTypes.contains name then .object []
  else if transparentTypes.contains name then
    match _h : firstArgument? n with
    | none => .any
    | some argument => typeSchema named argument
  else (named name).getD (.label n.text)
termination_by (n.size, 0)
decreasing_by
  all_goals exact Prod.Lex.left _ _ (size_firstArgument?_lt _h)

/-- `memberFields named body` gives the schemas of the properties that an object type lists. -/
def memberFields (named : String → Option Schema) (body : Node) : Properties :=
  Named.ofEntries ((propertySignatures body).attach.map fun ⟨(name, member), _⟩ =>
    match _h : member.child? "type" with
    | none => (name, markedSchema member .any)
    | some type => (name, markedSchema member (typeSchema named type)))
termination_by (body.size, 0)
decreasing_by
  exact Prod.Lex.left _ _ (Nat.lt_trans (Node.size_child?_lt _h)
    (Node.size_namedChildren_lt (mem_of_mem_propertySignatures (by assumption))))
end

/-- `declaredSchema named declaration` is the schema of a declared type, where `named` tells what
the names in it stand for. -/
def declaredSchema (named : String → Option Schema) (declaration : Node) : Schema :=
  match declaration.kind with
  | "interface_declaration" =>
    let inherited := Schema.fieldsOf ((basesOf declaration).map (typeSchema named))
    match declaration.child? "body" with
    | none => .object inherited
    | some body => .object (Named.merge inherited (memberFields named body))
  | "type_alias_declaration" =>
    match declaration.child? "value" with
    | none => .any
    | some value => typeSchema named value
  | "enum_declaration" => enumSchema declaration
  | _ => .any

variable {modules : Modules} {m : Module} {depth : Nat} {seen : Expanding}
  {named : String → Option Schema}

/-! ### The readings in terms of the readings of their parts -/

/-- The schema of a type by its kind, without the bookkeeping of sizes. -/
theorem typeSchema_eq (named : String → Option Schema) (n : Node) :
    typeSchema named n = match n.kind with
      | "type_annotation" | "parenthesized_type" | "readonly_type" =>
        (n.firstNamed?.map (typeSchema named)).getD .any
      | "predefined_type" => predefinedType n.text
      | "literal_type" => (n.firstNamed?.map literalSchema).getD .any
      | "template_literal_type" => .string
      | "union_type" => unionSchema ((unionMembers n).map (typeSchema named))
      | "array_type" =>
        (n.firstNamed?.map fun inner => .array (typeSchema named inner)).getD (.array .any)
      | "tuple_type" => .array (.union (n.namedChildren.map (typeSchema named)))
      | "object_type" => .object (memberFields named n)
      | "intersection_type" => .object (Schema.fieldsOf (n.namedChildren.map (typeSchema named)))
      | "generic_type" => genericSchema named n
      | "type_identifier" => (named n.text).getD (.label n.text)
      | "nested_type_identifier" => .label n.text
      | _ => .any := by
  have hfirst : (match _h : n.firstNamed? with
      | none => Schema.any
      | some inner =>
          typeSchema named inner) = (n.firstNamed?.map (typeSchema named)).getD .any := by
    split <;> simp [*]
  rw [typeSchema]
  split
  case h_1 | h_2 | h_3 => exact hfirst
  case h_7 | h_9 | h_11 => simp
  case h_8 => split <;> simp [*]
  all_goals rfl

/-- The schema of a type with arguments by its name, without the bookkeeping of sizes. -/
theorem genericSchema_eq (named : String → Option Schema) (n : Node) :
    genericSchema named n =
      let name := (n.childText? "name").getD ""
      if listTypes.contains name then
        ((firstArgument? n).map fun argument => .array (typeSchema named argument)).getD
          (.array .any)
      else if tableTypes.contains name then .object []
      else if transparentTypes.contains name then
        ((firstArgument? n).map (typeSchema named)).getD .any
      else (named name).getD (.label n.text) := by
  rw [genericSchema]
  dsimp only
  split
  · split <;> simp [*]
  · split
    · rfl
    · split
      · split <;> simp [*]
      · rfl

/-- The fields of a body are those of its property signatures, without the bookkeeping of sizes. -/
theorem memberFields_eq (named : String → Option Schema) (body : Node) :
    memberFields named body = Named.ofEntries ((propertySignatures body).map fun (name, member) =>
      ((member.child? "type").map fun type =>
        (name, markedSchema member (typeSchema named type))).getD
        (name, markedSchema member .any)) := by
  rw [memberFields]
  conv_rhs => rw [← List.attach_map_subtype_val (propertySignatures body), List.map_map]
  refine congrArg Named.ofEntries (List.map_congr_left fun ⟨⟨name, member⟩, _⟩ _ => ?_)
  dsimp only [Function.comp]
  split <;> simp [*]

/-! ### Readings level by level -/

/-- `typeAbove named inner n` is the schema of the type `n`, where `inner` tells the schemas of
smaller types. -/
def typeAbove (named : String → Option Schema) (inner : Node → Schema) (n : Node) : Schema :=
  match n.kind with
  | "type_annotation" | "parenthesized_type" | "readonly_type" =>
      (n.firstNamed?.map inner).getD .any
  | "predefined_type" => predefinedType n.text
  | "literal_type" => (n.firstNamed?.map literalSchema).getD .any
  | "template_literal_type" => .string
  | "union_type" => unionSchema ((unionMembers n).map inner)
  | "array_type" => (n.firstNamed?.map fun item => .array (inner item)).getD (.array .any)
  | "tuple_type" => .array (.union (n.namedChildren.map inner))
  | "object_type" =>
    .object (Named.ofEntries ((propertySignatures n).map fun (name, member) =>
      ((member.child? "type").map fun type => (name, markedSchema member (inner type))).getD
        (name, markedSchema member .any)))
  | "intersection_type" => .object (Schema.fieldsOf (n.namedChildren.map inner))
  | "generic_type" =>
    let name := (n.childText? "name").getD ""
    if listTypes.contains name then
      ((firstArgument? n).map fun argument => .array (inner argument)).getD (.array .any)
    else if tableTypes.contains name then .object []
    else if transparentTypes.contains name then ((firstArgument? n).map inner).getD .any
    else (named name).getD (.label n.text)
  | "type_identifier" => (named n.text).getD (.label n.text)
  | "nested_type_identifier" => .label n.text
  | _ => .any

/-- `typeWithin named levels n` is the schema of the type `n`, read so many levels deep. -/
def typeWithin (named : String → Option Schema) : Nat → Node → Schema
  | 0 => fun _ => .any
  | levels + 1 => typeAbove named (typeWithin named levels)

/-- The schema of a type is made from those of the types inside. -/
theorem typeSchema_eq_typeAbove (named : String → Option Schema) (n : Node) :
    typeSchema named n = typeAbove named (typeSchema named) n := by
  rw [typeSchema_eq, memberFields_eq, genericSchema_eq]
  rfl

/-- Types are read alike where smaller types are. -/
theorem typeAbove_congr {n : Node} {inner inner' : Node → Schema}
    (h : ∀ c : Node, c.size < n.size → inner c = inner' c) :
    typeAbove named inner n = typeAbove named inner' n := by
  have hargument :
      ∀ argument, firstArgument? n = some argument → inner argument = inner' argument :=
    fun argument hargument => h argument (size_firstArgument?_lt hargument)
  have hitem : ∀ item, n.firstNamed? = some item → inner item = inner' item :=
    fun item hitem => h item (Node.size_firstNamed?_lt hitem)
  have hmembers : n.namedChildren.map inner = n.namedChildren.map inner' :=
    List.map_congr_left fun member hmember => h member (Node.size_namedChildren_lt hmember)
  unfold typeAbove
  split
  case h_1 | h_2 | h_3 => rw [Option.map_congr hitem]
  case h_7 => rw [List.map_congr_left fun member hmember => h member (size_unionMembers_lt hmember)]
  case h_8 => rw [Option.map_congr fun item h => congrArg Schema.array (hitem item h)]
  case h_9 | h_11 => rw [hmembers]
  case h_10 =>
    refine congrArg (fun fields => Schema.object (Named.ofEntries fields)) (List.map_congr_left ?_)
    rintro ⟨name, member⟩ hmember
    have hsmaller := Node.size_namedChildren_lt (mem_of_mem_propertySignatures hmember)
    dsimp only
    rw [Option.map_congr fun type htype => by
      rw [h type (Nat.lt_trans (Node.size_child?_lt htype) hsmaller)]]
  case h_12 =>
    rw [Option.map_congr hargument, Option.map_congr fun item h =>
      congrArg Schema.array (hargument item h)]
  all_goals rfl

/-- Types are read to the end within as many levels as they have nodes. -/
theorem typeWithin_eq {n : Node} (levels : Nat) (hlevels : n.size < levels) :
    typeWithin named levels n = typeSchema named n := by
  induction levels generalizing n with
  | zero => omega
  | succ levels ih =>
      rw [typeWithin, typeSchema_eq_typeAbove]
      exact typeAbove_congr fun c hc => ih (by omega)

variable {modules : Modules} {m : Module} {depth : Nat} {seen : Expanding}
  {named : String → Option Schema}

mutual
/-- Where the table says what each name expands to, types expand to their reading. -/
theorem yields_expandType (hnamed : ∀ name, Yields (expandName modules m name depth) seen
    (named name))
    (n : Node) : Yields (expandType modules m n depth) seen (typeSchema named n) := by
  rw [expandType]
  split
  case h_1 hkind | h_2 hkind | h_3 hkind =>
    rw [typeSchema_eq]
    simp only [hkind]
    cases hfirst : n.firstNamed? with
    | none => exact Yields.pure Schema.any
    | some inner => exact yields_expandType hnamed inner
  case h_4 hkind | h_5 hkind | h_6 hkind | h_14 hkind =>
    rw [typeSchema_eq]
    simp only [hkind]
    exact Yields.pure _
  case h_7 hkind =>
    rw [typeSchema_eq]
    simp only [hkind]
    exact (Yields.mapM fun member hmember => yields_expandType hnamed member).map unionSchema
  case h_8 hkind =>
    rw [typeSchema_eq]
    simp only [hkind]
    cases hfirst : n.firstNamed? with
    | none => exact Yields.pure (Schema.array .any)
    | some inner => exact (yields_expandType hnamed inner).map Schema.array
  case h_9 hkind =>
    rw [typeSchema_eq]
    simp only [hkind]
    exact (Yields.mapM fun member hmember => yields_expandType hnamed member).map
      fun members => Schema.array (.union members)
  case h_10 hkind =>
    rw [typeSchema_eq]
    simp only [hkind]
    exact (yields_expandMembers hnamed n).map Schema.object
  case h_11 hkind =>
    rw [typeSchema_eq]
    simp only [hkind]
    exact (Yields.mapM fun member hmember => yields_expandType hnamed member).map
      fun members => Schema.object (Schema.fieldsOf members)
  case h_12 hkind =>
    rw [typeSchema_eq]
    simp only [hkind]
    exact yields_expandGeneric hnamed n
  case h_13 hkind =>
    rw [typeSchema_eq]
    simp only [hkind]
    exact (hnamed n.text).map fun found => found.getD (.label n.text)
  case h_15 =>
    -- a kind that the expansion does not know is none that the reading knows
    rw [typeSchema_eq]
    split
    case h_15 => exact Yields.pure Schema.any
    all_goals contradiction
termination_by (n.size, 1)
decreasing_by
  all_goals first
    | exact Prod.Lex.left _ _ (Node.size_firstNamed?_lt (by assumption))
    | exact Prod.Lex.left _ _ (size_unionMembers_lt (by assumption))
    | exact Prod.Lex.left _ _ (Node.size_namedChildren_lt (by assumption))
    | exact Prod.Lex.right _ (by decide)

/-- Generic types expand to their reading. -/
theorem yields_expandGeneric
    (hnamed : ∀ name, Yields (expandName modules m name depth) seen (named name)) (n : Node) :
    Yields (expandGeneric modules m n depth) seen (genericSchema named n) := by
  rw [expandGeneric, genericSchema_eq]
  dsimp only
  split
  · cases hargument : firstArgument? n with
    | none => exact Yields.pure (Schema.array .any)
    | some argument => exact (yields_expandType hnamed argument).map Schema.array
  · split
    · exact Yields.pure (Schema.object [])
    · split
      · cases hargument : firstArgument? n with
        | none => exact Yields.pure Schema.any
        | some argument => exact yields_expandType hnamed argument
      · exact (hnamed _).map fun found => found.getD (.label n.text)
termination_by (n.size, 0)
decreasing_by
  all_goals exact Prod.Lex.left _ _ (size_firstArgument?_lt (by assumption))

/-- The properties of an object type expand to their reading. -/
theorem yields_expandMembers
    (hnamed : ∀ name, Yields (expandName modules m name depth) seen (named name)) (body : Node) :
    Yields (expandMembers modules m body depth) seen (memberFields named body) := by
  rw [expandMembers, memberFields_eq]
  refine Yields.map (Yields.mapM fun ⟨name, member⟩ hmember => ?_) Named.ofEntries
  dsimp only
  cases htype : member.child? "type" with
  | none => exact Yields.pure (name, markedSchema member .any)
  | some type =>
      exact (yields_expandType hnamed type).map fun schema => (name, markedSchema member schema)
termination_by (body.size, 0)
decreasing_by
  exact Prod.Lex.left _ _ (Nat.lt_trans (Node.size_child?_lt (by assumption))
    (Node.size_namedChildren_lt (mem_of_mem_propertySignatures (by assumption))))
end

/-- What a declaration says expands to its reading. -/
theorem yields_expandBody
    (hnamed : ∀ name, Yields (expandName modules m name depth) seen (named name))
    (declaration : Node) :
    Yields (expandBody modules m declaration depth) seen (declaredSchema named declaration) := by
  rw [expandBody]
  split
  case h_1 hkind =>
    rw [declaredSchema]
    simp only [hkind]
    refine (Yields.mapM fun base _ => yields_expandType hnamed base).bind ?_
    cases declaration.child? "body" with
    | none => exact Yields.pure _
    | some body =>
        exact (yields_expandMembers hnamed body).map fun own => Schema.object (Named.merge _ own)
  case h_2 hkind =>
    rw [declaredSchema]
    simp only [hkind]
    cases declaration.child? "value" with
    | none => exact Yields.pure Schema.any
    | some value => exact yields_expandType hnamed value
  case h_3 hkind =>
    rw [declaredSchema]
    simp only [hkind]
    exact Yields.pure (enumSchema declaration)
  case h_4 =>
    rw [declaredSchema]
    split
    case h_4 => exact Yields.pure Schema.any
    all_goals contradiction

/-- A declaration that is being expanded stands for anything. -/
theorem yields_expandDeclaration_of_mem {name : String} (hseen : (m.path.shown, name) ∈ seen)
    (declaration : Node) :
    Yields (expandDeclaration modules m name declaration depth) seen .any := by
  rw [expandDeclaration]
  refine Yields.get ?_
  rw [if_pos hseen]
  exact Yields.pure Schema.any

/-- Any other declaration is read with its key on the stack. -/
theorem yields_expandDeclaration_of_not_mem {name : String} (hseen : (m.path.shown, name) ∉ seen)
    (hnamed : ∀ inner, Yields (expandName modules m inner depth) ((m.path.shown, name) :: seen)
      (named inner)) (declaration : Node) :
    Yields (expandDeclaration modules m name declaration depth) seen
      (declaredSchema named declaration) := by
  rw [expandDeclaration]
  refine Yields.get ?_
  rw [if_neg hseen]
  exact (yields_expandBody hnamed declaration).bracket

end TrackingPlan.Script
