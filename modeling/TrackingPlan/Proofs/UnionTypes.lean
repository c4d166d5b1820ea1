import Mathlib.Tactic.MkIffOfInductiveProp
import TrackingPlan.Proofs.Alternatives
import TrackingPlan.Proofs.RenamedParameters
import TrackingPlan.Proofs.ScriptSchemas

/-!
# Unions among declared types

The label of a union lists the labels of its members, which may be unions themselves: in
parentheses, behind a name, or as the type of an optional property. `DistinctAt` says when the types
at a node have no alternative in common, and `eachOnce_types_iff` that nothing less will do. From
there, `alternatives_once` comes to all schemas of a script, and `union_repeats_alternatives` shows
what happens otherwise.
-/

namespace TrackingPlan.Script

open Schema

variable {named : String → Option Schema} {root n : Node} {members : List Schema} {s : Schema}

/-! ## Labels that types make -/

/-- If the type is a label, then it does not list the missing value yet, unless it is nothing but
that. -/
def ApartFromMissing (s : Schema) : Prop :=
  s.isPrimitive = true → s.isAny = false → Apart [s, .label "undefined"]

instance (s : Schema) : Decidable (ApartFromMissing s) :=
  inferInstanceAs (Decidable (_ → _ → _))

/-- A schema that repeats nothing repeats nothing when it is optional, if it is not missing
already. -/
theorem eachOnce_optional_iff (h : s.EachOnce) : (optional s).EachOnce ↔ ApartFromMissing s := by
  have hmembers : ∀ t ∈ [s, .label "undefined"], t.EachOnce := by
    intro t ht
    rcases List.mem_pair.1 ht with rfl | rfl
    · exact h
    · exact eachOnce_invariant.undefined
  unfold optional ApartFromMissing
  split
  next hlabel =>
    rw [eachOnce_union_iff hmembers]
    simp only [Bool.and_eq_true, Bool.not_eq_true'] at hlabel
    exact ⟨fun hapart _ _ => hapart, fun hapart => hapart hlabel.1 hlabel.2⟩
  next hlabel =>
    refine iff_of_true h ?_
    intro hprimitive hknown
    simp [hprimitive, hknown] at hlabel

/-- A union is nothing that is known, one of its members, or what its members have as a label. -/
theorem unionSchema_cases (members : List Schema) :
    unionSchema members = .any ∨ unionSchema members ∈ members ∨
    unionSchema members = .union members := by
  unfold unionSchema
  split
  · exact .inl rfl
  · split
    next one hone =>
      have hmem : one ∈ members.filter (!·.isPrimitive) := hone ▸ List.mem_cons_self
      split
      · exact .inr (.inl (List.mem_filter.1 hmem).1)
      · exact .inr (.inr rfl)
    · exact .inr (.inr rfl)

/-- A union of schemas that repeat nothing repeats nothing, if its members are apart. -/
theorem eachOnce_unionSchema_iff (h : ∀ s ∈ members, s.EachOnce) :
    (unionSchema members).EachOnce ↔ (unionSchema members = .union members → Apart members) := by
  constructor
  · intro honce heq
    rw [heq] at honce
    exact (eachOnce_union_iff h).1 honce
  · intro hapart
    rcases unionSchema_cases members with hany | hmem | heq
    · exact hany ▸ eachOnce_invariant.any
    · exact h _ hmem
    · exact heq ▸ (eachOnce_union_iff h).2 (hapart heq)

/-! ## Types -/

section Types

variable {read read' : Node → Schema}

/-- No alternative comes twice at this node, where `read` tells the schemas of types: in a text that
stands for itself, among the members of a union or a tuple, and in the type of an optional property
beside the missing value. -/
@[mk_iff]
structure DistinctAt (read : Node → Schema) (n : Node) : Prop where
  word : n.kind ∈ wordTypes → read n = .label n.text → (alternatives n.text).Nodup
  union : n.kind = "union_type" →
    unionSchema ((unionMembers n).map read) = .union ((unionMembers n).map read) →
    Apart ((unionMembers n).map read)
  tuple : n.kind = "tuple_type" → Apart (n.namedChildren.map read)
  optional : hasMark n "?" = true → ∀ type ∈ n.child? "type", ApartFromMissing (read type)

instance (read : Node → Schema) (n : Node) : Decidable (DistinctAt read n) :=
  decidable_of_iff' _ (distinctAt_iff read n)

/-- To repeat nothing is kept by all that scripts read from types, if the types are distinct. -/
theorem eachOnce_keptByTypes (h : ∀ n, root.Within n → DistinctAt (typeSchema named) n) :
    KeptByTypes EachOnce named root where
  word n hn hkind hlabel := eachOnce_label_iff.2 ((h n hn).word hkind hlabel)
  union n hn hkind hmembers :=
  (eachOnce_unionSchema_iff (List.forall_mem_map.2 hmembers)).2 ((h n hn).union hkind)
  tuple n hn hkind hmembers :=
  (eachOnce_union_iff (List.forall_mem_map.2 hmembers)).2 ((h n hn).tuple hkind)
  optional n type hn hmark htype honce :=
  (eachOnce_optional_iff honce).2 ((h n hn).optional hmark type htype)

/-- If all types of a tree list their alternatives once, then they are distinct at each node. -/
theorem distinctAt_of_eachOnce (htypes : ∀ n, root.Within n → (typeSchema named n).EachOnce)
    (hoptional : ∀ n, root.Within n → hasMark n "?" = true → ∀ type ∈ n.child? "type",
      (optional (typeSchema named type)).EachOnce) (hn : root.Within n) :
        DistinctAt (typeSchema named) n where
  word _ hlabel := by
    have honce := htypes n hn
    rw [hlabel] at honce
    exact eachOnce_label_iff.1 honce
  union hkind := by
    have hmembers : ∀ s ∈ (unionMembers n).map (typeSchema named), s.EachOnce :=
      List.forall_mem_map.2 fun member hmember => htypes member (within_unionMembers hn hmember)
    have honce := htypes n hn
    rw [typeSchema_eq] at honce
    simp only [hkind] at honce
    exact (eachOnce_unionSchema_iff hmembers).1 honce
  tuple hkind := by
    have hmembers : ∀ s ∈ n.namedChildren.map (typeSchema named), s.EachOnce :=
      List.forall_mem_map.2 fun member hmember => htypes member (hn.namedChildren hmember)
    have honce := htypes n hn
    rw [typeSchema_eq] at honce
    simp only [hkind] at honce
    exact (eachOnce_union_iff hmembers).1 (eachOnce_invariant.array.1 honce)
  optional hmark type htype :=
    -- no type shows the schema of an optional property that another one of the same name replaces
    (eachOnce_optional_iff (htypes type (hn.child? htype))).1 (hoptional n hn hmark type htype)

/-- The types of a tree list each alternative once if and only if they are distinct at each node. -/
theorem eachOnce_types_iff (hnamed : ∀ name s, named name = some s → s.EachOnce) :
    (∀ n, root.Within n → (typeSchema named n).EachOnce ∧
      (hasMark n "?" = true →
        ∀ type ∈ n.child? "type", (optional (typeSchema named type)).EachOnce)) ↔
    ∀ n, root.Within n → DistinctAt (typeSchema named) n := by
  constructor
  · intro h n hn
    exact distinctAt_of_eachOnce (fun n hn => (h n hn).1) (fun n hn => (h n hn).2) hn
  · intro h n hn
    have hkept := eachOnce_keptByTypes h
    refine ⟨holds_typeSchema eachOnce_invariant hkept hnamed n hn, ?_⟩
    intro hmark type htype
    exact hkept.optional n type hn hmark htype
      (holds_typeSchema eachOnce_invariant hkept hnamed type (hn.child? htype))

/-- Types that are read alike are distinct alike. -/
theorem DistinctAt.congr (h : DistinctAt read n) (hread : ∀ c, n.Within c → read c = read' c) :
    DistinctAt read' n := by
  have hmembers : (unionMembers n).map read' = (unionMembers n).map read :=
    List.map_congr_left fun member hmember =>
      (hread member (within_unionMembers .root hmember)).symm
  have hchildren : n.namedChildren.map read' = n.namedChildren.map read :=
    List.map_congr_left fun member hmember =>
      (hread member (Node.Within.root.namedChildren hmember)).symm
  refine ⟨?_, ?_, ?_, ?_⟩
  · rw [← hread n .root]
    exact h.word
  · rw [hmembers]
    exact h.union
  · rw [hchildren]
    exact h.tuple
  · intro hmark type htype
    rw [← hread type (Node.Within.root.child? htype)]
    exact h.optional hmark type htype

/-- Whether the types of a tree are distinct is decided by reading them as deep as the tree goes. -/
theorem distinctAt_of_levels (levels : Nat) (hlevels : root.size < levels)
    (h : ∀ s ∈ Module.sites root, DistinctAt (typeWithin named levels) s.node)
    (hn : root.Within n) :
    DistinctAt (typeSchema named) n := by
  obtain ⟨s, hs, rfl⟩ := Site.exists_mem_all hn
  refine (h s hs).congr fun c hc => typeWithin_eq levels ?_
  have hsize := (hn.trans hc).size_le
  omega

end Types

/-! ## Scripts -/

/-- The types that a script can refer to are distinct at each node. -/
def DistinctTypes (modules : Modules) (m : Module) : Prop :=
  ∀ target depth seen, modules.Visits m target depth seen →
    ∀ n, target.root.Within n → DistinctAt (typeSchema (reference modules target depth seen)) n

/-- The values of a script make no labels with an alternative twice: the types in it are distinct at
each node, also beside the missing value for parameters that may be left out, and so are the items
of the arrays in it. -/
structure DistinctValues (scope : Scope) : Prop where
  types : DistinctTypes scope.modules scope.module
  parameter : ∀ n type, scope.module.root.Within n → n.kind = "optional_parameter" →
    n.child? "type" = some type →
    ApartFromMissing (annotationSchema scope.modules scope.module type)
  items : ∀ hops, ∀ s ∈ Module.sites scope.module.root, s.kind = "array" →
    ApartItems ((s.children.filter (·.kind ≠ "spread_element")).map (valueSchema scope hops))

variable {modules : Modules} {m : Module} {scope : Scope}

/-- An annotation repeats nothing if the types of the module are distinct. -/
theorem DistinctTypes.eachOnce (h : DistinctTypes modules m) (hn : m.root.Within n) :
    (annotationSchema modules m n).EachOnce :=
  holds_annotationSchema eachOnce_invariant
    (fun target depth seen hvisited => eachOnce_keptByTypes (h target depth seen hvisited)) hn

/-- To repeat nothing is kept by all that scripts infer from values, if the values are distinct. -/
theorem DistinctValues.keptByValues (h : DistinctValues scope) : KeptByValues EachOnce scope where
  types target depth seen hvisited := eachOnce_keptByTypes (h.types target depth seen hvisited)
  parameter n type hn hkind htype honce :=
  (eachOnce_optional_iff honce).2 (h.parameter n type hn hkind htype)
  items hops s hs hkind hitems := by
    refine EachOnce.arrayItems ?_ (h.items hops s hs hkind)
    intro item hitem
    obtain ⟨c, hc, rfl⟩ := List.mem_map.1 hitem
    obtain ⟨hmem, hother⟩ := List.mem_filter.1 hc
    exact hitems c hmem (by simpa using hother)

/-! ## Scripts with one alias -/

/-- The value of the alias `name`. -/
def aliased? (m : Module) (name : String) : Option Node :=
  (m.type? name).bind fun declaration =>
    if declaration.kind = "type_alias_declaration" then declaration.child? "value" else none

/-- The table that knows `known` only. -/
def knownAs (known : String) (s : Schema) (name : String) : Option Schema :=
  if name = known then some s else none

/-- A known type repeats nothing if its schema does. -/
theorem eachOnce_knownAs {known name : String} {t : Schema} (hs : s.EachOnce)
    (h : knownAs known s name = some t) : t.EachOnce := by
  unfold knownAs at h
  split at h
  · exact Option.some.inj h ▸ hs
  · cases h

/-- The script imports nothing and declares no other type than `known`, which stands for `s`. -/
@[mk_iff]
structure HasAlias (m : Module) (known : String) (s : Schema) : Prop where
  imports : m.imports.isEmpty = true
  types : m.types.map (·.1) = [known]
  value : (aliased? m known).map (fun value =>
    typeWithin (knownAs known .any) (value.size + 1) value) = some s

instance (m : Module) (known : String) (s : Schema) : Decidable (HasAlias m known s) :=
  decidable_of_iff' _ (hasAlias_iff m known s)

/-- Outside any project, a name stands for what the script declares. -/
theorem reference_localTypes (himports : m.imports.isEmpty = true) (seen : Expanding)
    (name : String) :
    reference .localTypes m 0 seen name =
      (m.type? name).map fun declaration => declaredType .localTypes name seen m declaration 0 := by
  have himport : m.import? name = none := by
    rw [Module.import?, List.isEmpty_iff.1 himports]
    rfl
  rw [reference_eq, namedSchema, if_neg (by decide)]
  cases hdeclared : m.type? name with
  | none => simp [himport, Modules.localTypes]
  | some declaration => rfl

namespace HasAlias

variable {known : String} {s : Schema} (h : HasAlias m known s)
include h

/-- The script declares no other type than the known one. -/
theorem type?_eq_none {name : String} (hname : name ≠ known) : m.type? name = none := by
  rw [Module.type?, List.lookup_eq_none_iff]
  intro entry hentry
  have hmem : entry.1 ∈ m.types.map (·.1) := List.mem_map_of_mem (List.mem_reverse.1 hentry)
  rw [h.types, List.mem_singleton] at hmem
  simpa [hmem] using hname

/-- The known type is declared as an alias, with the schema that is known. -/
theorem declared : ∃ declaration value, m.type? known = some declaration ∧
    declaration.kind = "type_alias_declaration" ∧ declaration.child? "value" = some value ∧
    typeSchema (knownAs known .any) value = s := by
  obtain ⟨value, hvalue, hschema⟩ := Option.map_eq_some_iff.1 h.value
  obtain ⟨declaration, hdeclaration, hchild⟩ := Option.bind_eq_some_iff.1 hvalue
  split at hchild
  next hkind =>
    refine ⟨declaration, value, hdeclaration, hkind, hchild, ?_⟩
    rw [← typeWithin_eq (value.size + 1) (Nat.lt_succ_self _)]
    exact hschema
  next => cases hchild

/-- While the alias is being expanded, it stands for anything. -/
theorem reference_inside :
    reference .localTypes m 0 [(m.path.shown, known)] = knownAs known .any := by
  obtain ⟨declaration, value, hdeclaration, -⟩ := h.declared
  funext name
  rw [reference_localTypes h.imports, knownAs]
  split
  next hname =>
    rw [hname, hdeclaration, Option.map_some, declaredType_eq, if_pos List.mem_cons_self]
  next hname =>
    rw [h.type?_eq_none hname, Option.map_none]

/-- From the start a reference knows the one type. -/
theorem reference_start : reference .localTypes m 0 [] = knownAs known s := by
  obtain ⟨declaration, value, hdeclaration, hkind, hvalue, hschema⟩ := h.declared
  funext name
  rw [reference_localTypes h.imports, knownAs]
  split
  next hname =>
    -- the value of the alias is read with the alias on the stack
    rw [hname, hdeclaration, Option.map_some, declaredType_eq, if_neg List.not_mem_nil,
      h.reference_inside, declaredSchema, hkind]
    simp only [hvalue, hschema]
  next hname =>
    rw [h.type?_eq_none hname, Option.map_none]

/-- The expansion of a type comes to no other script, and to the alias at most. -/
theorem visits {target : Module} {depth : Nat} {seen : Expanding}
    (hvisited : Modules.localTypes.Visits m target depth seen) :
    target = m ∧ depth = 0 ∧ (seen = [] ∨ seen = [(m.path.shown, known)]) := by
  induction hvisited with
  | start => exact ⟨rfl, rfl, .inl rfl⟩
  | @declaration target depth seen name declaration htarget hseen hdeclared ih =>
      obtain ⟨rfl, hdepth, hstack⟩ := ih
      have hname : name = known := by
        by_contra hother
        rw [h.type?_eq_none hother] at hdeclared
        cases hdeclared
      refine ⟨rfl, hdepth, .inr ?_⟩
      -- the expansion does not enter a declaration that is on the stack
      rcases hstack with rfl | rfl
      · rw [hname]
      · exact absurd (hname ▸ List.mem_cons_self) hseen
  | imported _ htarget => cases htarget
  | declaring _ htarget => cases htarget

/-- An annotation has the schema that it has where the one type is known. -/
theorem annotationSchema_eq_typeWithin {levels : Nat} (hn : n.size < levels) :
    annotationSchema .localTypes m n = typeWithin (knownAs known s) levels n := by
  rw [annotationSchema_eq, h.reference_start, typeWithin_eq levels hn]

/-- The types of the script are distinct if those are that it reads with the alias known, and while
the alias is being expanded. -/
theorem distinctTypes {levels : Nat} (hlevels : m.root.size < levels)
    (hsites : ∀ c ∈ Module.sites m.root, ∀ meaning ∈ [s, .any],
      DistinctAt (typeWithin (knownAs known meaning) levels) c.node) :
        DistinctTypes .localTypes m := by
  intro target depth seen hvisited n hn
  obtain ⟨rfl, rfl, rfl | rfl⟩ := h.visits hvisited
  · rw [h.reference_start]
    exact distinctAt_of_levels levels hlevels (fun c hc => hsites c hc s List.mem_cons_self) hn
  · rw [h.reference_inside]
    exact distinctAt_of_levels levels hlevels (fun c hc => hsites c hc .any (by simp)) hn

/-- Without arrays, the values of the script are distinct if the types are, also beside the missing
value. -/
theorem distinctValues {levels : Nat} (hlevels : m.root.size < levels)
    (htypes : DistinctTypes .localTypes m)
    (hparameters : ∀ c ∈ Module.sites m.root, c.kind = "optional_parameter" →
      ∀ type ∈ c.node.child? "type", ApartFromMissing (typeWithin (knownAs known s) levels type))
    (harrays : ∀ c ∈ Module.sites m.root, c.kind ≠ "array") : DistinctValues ⟨.localTypes, m⟩ where
  types := htypes
  parameter n type hn hkind htype := by
    obtain ⟨c, hc, rfl⟩ := Site.exists_mem_all hn
    have hsize : type.size ≤ m.root.size := (hn.child? htype).size_le
    show ApartFromMissing (annotationSchema .localTypes m type)
    rw [h.annotationSchema_eq_typeWithin (Nat.lt_of_le_of_lt hsize hlevels)]
    exact hparameters c hc hkind type htype
  items hops c hc hkind := absurd hkind (harrays c hc)

end HasAlias

/-! ## All schemas of a script -/

/-- A union lists each alternative once just if different members have none in common, an optional
property just if its type is apart from the missing value, and the types of a tree just if they are
distinct at each node. Where all types are that a script can refer to, the schemas of its
annotations list each alternative once, so that the label of a type has no part twice, and where its
values are, so do the properties of its events. -/
theorem alternatives_once (modules : Modules) (m : Module) :
    (∀ members : List Schema, (∀ s ∈ members, s.EachOnce) →
      ((union members).EachOnce ↔ Apart members)) ∧
    (∀ s : Schema, s.EachOnce → ((optional s).EachOnce ↔ ApartFromMissing s)) ∧
    (∀ (named : String → Option Schema) (root : Node), (∀ name s, named name = some s →
      s.EachOnce) → ((∀ n, root.Within n → (typeSchema named n).EachOnce ∧
        (hasMark n "?" = true →
          ∀ type ∈ n.child? "type", (optional (typeSchema named type)).EachOnce)) ↔
      ∀ n, root.Within n → DistinctAt (typeSchema named) n)) ∧
    (DistinctTypes modules m → ∀ n, m.root.Within n → (annotationSchema modules m n).EachOnce ∧
      ∀ parts, annotationSchema modules m n = .label (" | ".intercalate parts) → parts.Nodup) ∧
    (DistinctValues ⟨modules, m⟩ → ∀ signatures, ∀ e ∈ events modules signatures m,
      (Schema.object e.properties).EachOnce) := by
  refine ⟨fun members => eachOnce_union_iff, fun s => eachOnce_optional_iff,
    fun named root => eachOnce_types_iff, ?_, ?_⟩
  · intro h n hn
    have honce := h.eachOnce hn
    refine ⟨honce, ?_⟩
    intro parts hparts
    rw [hparts] at honce
    exact nodup_of_intercalate (eachOnce_label_iff.1 honce)
  · intro h signatures e he
    exact holds_of_mem_events eachOnce_invariant h.keptByValues he

/-- `planned type` is a script that sends a parameter of that type, and has an alias for a union. -/
def planned (type : String) : Module :=
  scriptOf ["type Plan = 'free' | number;",
    "function f(p: " ++ type ++ ", q?: Plan) \x7b analytics.track('Signup', p); \x7d"]

/-- A union of an alias with another type, and a pair. -/
def plans : Module := planned "\x7b plan: Plan | null, note?: string, pair: [Plan, null] \x7d"

/-- The sample plans are distinct, and so no property of the event repeats an alternative, as a
union of their types could. -/
theorem alternatives_once_of_plans :
    DistinctValues ⟨.localTypes, plans⟩ ∧
      (∀ n, plans.root.Within n → (annotationSchema .localTypes plans n).EachOnce) ∧
      (events .localTypes [] plans).map (·.name) = ["Signup"] ∧
      (∀ e ∈ events .localTypes [] plans, (Schema.object e.properties).EachOnce) ∧
      ¬(union [.label "string | number", .string]).EachOnce ∧
      (optional (.label "string | number")).EachOnce ∧
      ∀ n, plans.root.Within n →
        (typeSchema (knownAs "Plan" (.label "string | number")) n).EachOnce := by
  have hchecked : HasAlias plans "Plan" (.label "string | number") ∧ plans.root.size < 200 ∧
      (∀ c ∈ Module.sites plans.root,
        (∀ meaning ∈ [.label "string | number", .any],
          DistinctAt (typeWithin (knownAs "Plan" meaning) 200) c.node) ∧
        (c.kind = "optional_parameter" → ∀ type ∈ c.node.child? "type",
          ApartFromMissing (typeWithin (knownAs "Plan" (.label "string | number")) 200 type)) ∧
        c.kind ≠ "array") ∧
      (events .localTypes [] plans).map (·.name) = ["Signup"] := by
    decide +kernel
  obtain ⟨halias, hlevels, hsites, hevents⟩ := hchecked
  have htypes : DistinctTypes .localTypes plans :=
    halias.distinctTypes hlevels fun c hc => (hsites c hc).1
  have hvalues : DistinctValues ⟨.localTypes, plans⟩ :=
    halias.distinctValues hlevels htypes (fun c hc => (hsites c hc).2.1) fun c hc =>
      (hsites c hc).2.2
  have hplan : (label "string | number").EachOnce := eachOnce_label_iff.2 (by decide)
  obtain ⟨hunions, hoptional, htrees, hannotations, hproperties⟩ :=
    alternatives_once .localTypes plans
  refine ⟨hvalues, fun n hn => (hannotations htypes n hn).1, hevents,
    hproperties hvalues [], ?_, ?_, ?_⟩
  · rw [hunions _ (by simp [eachOnce_invariant.string, hplan])]
    decide
  · rw [hoptional _ hplan]
    decide
  · have htable := htrees (knownAs "Plan" (.label "string | number")) plans.root fun _ _ =>
      eachOnce_knownAs hplan
    have hdistinct : ∀ n, plans.root.Within n →
        DistinctAt (typeSchema (knownAs "Plan" (.label "string | number"))) n :=
      fun n hn =>
        distinctAt_of_levels 200 hlevels (fun c hc => (hsites c hc).1 _ List.mem_cons_self) hn
    exact fun n hn => (htable.2 hdistinct n hn).1

/-- Parentheses and names hide that a member of a union is a union itself, and an optional property
adds the missing value to a type that has it. -/
theorem union_repeats_alternatives :
    let m :=
      planned "\x7b a?: string | undefined, b: (string | number) | string, c: Plan | string \x7d"
    ∃ n, m.root.Within n ∧ annotationSchema .localTypes m n = .object
        [("a", .label (" | ".intercalate ["string", "undefined", "undefined"])),
          ("b", .label (" | ".intercalate ["string", "number", "string"])),
          ("c", .label (" | ".intercalate ["string", "number", "string"]))] ∧
      ¬["string", "undefined", "undefined"].Nodup ∧ ¬["string", "number", "string"].Nodup := by
  intro m
  have hchecked : HasAlias m "Plan" (.label "string | number") ∧ m.root.size < 200 ∧
      ((Module.sites m.root).find? (·.kind = "object_type")).map
          (fun c => typeWithin (knownAs "Plan" (.label "string | number")) 200 c.node) =
            some (.object
        [("a", .label (" | ".intercalate ["string", "undefined", "undefined"])),
          ("b", .label (" | ".intercalate ["string", "number", "string"])),
          ("c", .label (" | ".intercalate ["string", "number", "string"]))]) := by
    decide +kernel
  obtain ⟨halias, hlevels, hschema⟩ := hchecked
  obtain ⟨c, hc, hschema⟩ := Option.map_eq_some_iff.1 hschema
  have hwithin := within_of_mem_sites (List.mem_of_find?_eq_some hc)
  refine ⟨c.node, hwithin, ?_, by decide, by decide⟩
  rw [halias.annotationSchema_eq_typeWithin (Nat.lt_of_le_of_lt hwithin.size_le hlevels), hschema]

end TrackingPlan.Script
