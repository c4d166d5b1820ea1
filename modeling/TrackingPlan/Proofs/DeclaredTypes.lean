import TrackingPlan.Proofs.SchemaInvariants
import TrackingPlan.Proofs.ScriptNames
import TrackingPlan.Proofs.TypeTables

/-!
# What holds of the schemas of declared types

An invariant of schemas holds of all types that are written in a script, and of all that they refer
to, if it is kept where types make labels: `KeptByTypes`. `holds_typeSchema` reads a type where the
invariant holds of what names stand for, and `holds_reference` says that it does, wherever the
expansion comes (`Modules.Visits`).
-/

namespace TrackingPlan.Script

open Schema

variable {P : Schema → Prop} {named : String → Option Schema} {root n : Node} {modules : Modules}

/-! ## Declared types -/

/-- The kinds of types that may stand for nothing but their text. -/
def wordTypes : List String :=
  ["predefined_type", "type_identifier", "nested_type_identifier", "generic_type"]

/-- Where names are read by a table, the types of a tree have the property if those that they are
made of do: types that are labels of their text, unions, tuples, and optional properties. -/
structure KeptByTypes (P : Schema → Prop) (named : String → Option Schema)
    (root : Node) : Prop where
  word : ∀ n, root.Within n → n.kind ∈ wordTypes → typeSchema named n = .label n.text →
    P (.label n.text)
  union : ∀ n, root.Within n → n.kind = "union_type" →
    (∀ c ∈ unionMembers n, P (typeSchema named c)) →
    P (unionSchema ((unionMembers n).map (typeSchema named)))
  tuple : ∀ n, root.Within n → n.kind = "tuple_type" →
    (∀ c ∈ n.namedChildren, P (typeSchema named c)) →
    P (.union (n.namedChildren.map (typeSchema named)))
  optional : ∀ n type, root.Within n → hasMark n "?" = true → n.child? "type" = some type →
    P (typeSchema named type) → P (optional (typeSchema named type))

/-- The members of a union stand in it. -/
theorem within_unionMembers {member : Node} (hn : root.Within n) (h : member ∈ unionMembers n) :
    root.Within member := by
  induction n using unionMembers.induct with
  | case1 n ih =>
      rw [unionMembers] at h
      obtain ⟨⟨child, hchild⟩, -, hmember⟩ := List.mem_flatMap.1 h
      have hwithin := hn.namedChildren hchild
      by_cases hkind : child.kind = "union_type"
      · simp only [hkind, if_true] at hmember
        exact ih child hchild hwithin hmember
      · simp only [hkind, if_false, List.mem_singleton] at hmember
        exact hmember ▸ hwithin

/-- The first argument of a type stands in it. -/
theorem within_firstArgument? {argument : Node} (hn : root.Within n)
    (h : firstArgument? n = some argument) : root.Within argument := by
  obtain ⟨arguments, harguments, hfirst⟩ := Option.bind_eq_some_iff.1 h
  exact (hn.child? harguments).namedChildren (List.mem_of_mem_head? hfirst)

/-- What is optional and may be anything is anything. -/
theorem optional_any : optional .any = .any := rfl

section Types

variable (hP : Invariant P)
include hP

/-- What holds of labels holds of a type that is built in. -/
theorem holds_predefinedType {name : String}
    (h : predefinedType name = .label name → P (.label name)) :
    P (predefinedType name) := by
  unfold predefinedType at h ⊢
  split
  · exact hP.number
  · split
    · exact hP.any
    next hbig hunknown =>
      rw [if_neg hbig, if_neg hunknown] at h
      exact h rfl

/-- What holds of labels holds of the schemas of literal types. -/
theorem holds_literalSchema (n : Node) : P (literalSchema n) := by
  unfold literalSchema
  split
  case h_1 | h_2 | h_3 => exact hP.string
  case h_4 | h_5 => exact hP.number
  case h_6 | h_7 => exact hP.boolean
  case h_8 => exact hP.null
  case h_9 => exact hP.undefined
  case h_10 => exact hP.any

/-- What holds of labels holds of the schemas of enumerations. -/
theorem holds_enumSchema (declaration : Node) : P (enumSchema declaration) := by
  unfold enumSchema
  split
  · exact hP.number
  · split
    · exact hP.string
    · exact hP.number

mutual
/-- The invariant holds of the schemas of types where it holds of what names stand for. -/
theorem holds_typeSchema (hkept : KeptByTypes P named root)
    (hnamed : ∀ name s, named name = some s → P s)
    (n : Node) (hn : root.Within n) : P (typeSchema named n) := by
  have hword := hkept.word n hn
  rw [typeSchema_eq] at hword ⊢
  split
  case h_1 | h_2 | h_3 =>
    exact Invariant.getD_map hP.any fun inner hinner =>
      holds_typeSchema hkept hnamed inner (hn.firstNamed? hinner)
  case h_4 hkind =>
    simp only [hkind] at hword
    exact holds_predefinedType hP (hword (by decide))
  case h_5 => exact Invariant.getD_map hP.any fun inner _ => holds_literalSchema hP inner
  case h_6 => exact hP.string
  case h_7 hkind =>
    exact hkept.union n hn hkind fun member hmember =>
      holds_typeSchema hkept hnamed member (within_unionMembers hn hmember)
  case h_8 =>
    exact Invariant.getD_map (hP.array.2 hP.any) fun inner hinner =>
      hP.array.2 (holds_typeSchema hkept hnamed inner (hn.firstNamed? hinner))
  case h_9 hkind =>
    exact hP.array.2 (hkept.tuple n hn hkind fun member hmember =>
      holds_typeSchema hkept hnamed member (hn.namedChildren hmember))
  case h_10 => exact holds_memberFields hkept hnamed n hn
  case h_11 =>
    refine hP.fieldsOf fun s hs => ?_
    obtain ⟨member, hmember, rfl⟩ := List.mem_map.1 hs
    exact holds_typeSchema hkept hnamed member (hn.namedChildren hmember)
  case h_12 hkind => exact holds_genericSchema hkept hnamed n hn hkind
  case h_13 hkind =>
    simp only [hkind] at hword
    cases hfound : named n.text with
    | none =>
        rw [hfound] at hword
        exact hword (by decide) rfl
    | some s => exact hnamed n.text s hfound
  case h_14 hkind =>
    simp only [hkind] at hword
    exact hword (by decide) trivial
  case h_15 => exact hP.any
termination_by (n.size, 1)
decreasing_by
  all_goals first
    | exact Prod.Lex.left _ _ (Node.size_firstNamed?_lt (by assumption))
    | exact Prod.Lex.left _ _ (size_unionMembers_lt (by assumption))
    | exact Prod.Lex.left _ _ (Node.size_namedChildren_lt (by assumption))
    | exact Prod.Lex.right _ (by decide)

/-- The invariant holds of the schemas of generic types. -/
theorem holds_genericSchema (hkept : KeptByTypes P named root)
    (hnamed : ∀ name s, named name = some s → P s)
    (n : Node) (hn : root.Within n) (hkind : n.kind = "generic_type") :
    P (genericSchema named n) := by
  have hword := hkept.word n hn
  rw [typeSchema_eq] at hword
  simp only [hkind] at hword
  rw [genericSchema_eq] at hword ⊢
  dsimp only at hword ⊢
  split
  · exact Invariant.getD_map (hP.array.2 hP.any) fun argument hargument =>
      hP.array.2 (holds_typeSchema hkept hnamed argument (within_firstArgument? hn hargument))
  next hlist =>
    split
    · exact hP.nil
    next htable =>
      split
      · exact Invariant.getD_map hP.any fun argument hargument =>
          holds_typeSchema hkept hnamed argument (within_firstArgument? hn hargument)
      next htransparent =>
        rw [if_neg hlist, if_neg htable, if_neg htransparent] at hword
        cases hfound : named ((n.childText? "name").getD "") with
        | none =>
            rw [hfound] at hword
            exact hword (by decide) rfl
        | some s => exact hnamed _ s hfound
termination_by (n.size, 0)
decreasing_by
  all_goals exact Prod.Lex.left _ _ (size_firstArgument?_lt (by assumption))

/-- The invariant holds of the schemas of the properties of an object type. -/
theorem holds_memberFields (hkept : KeptByTypes P named root)
    (hnamed : ∀ name s, named name = some s → P s)
    (n : Node) (hn : root.Within n) : P (.object (memberFields named n)) := by
  rw [memberFields_eq]
  refine hP.ofEntries fun entry hentry => ?_
  obtain ⟨⟨name, member⟩, hmember, rfl⟩ := List.mem_map.1 hentry
  have hwithin := hn.namedChildren (mem_of_mem_propertySignatures hmember)
  dsimp only
  cases htype : member.child? "type" with
  | none =>
      simp only [Option.map_none, Option.getD_none, markedSchema, optional_any, ite_self]
      exact hP.any
  | some type =>
      have hschema := holds_typeSchema hkept hnamed type (hwithin.child? htype)
      simp only [Option.map_some, Option.getD_some, markedSchema]
      split
      next hmark => exact hkept.optional member type hwithin hmark htype hschema
      next => exact hschema
termination_by (n.size, 0)
decreasing_by
  exact Prod.Lex.left _ _ (Nat.lt_trans (Node.size_child?_lt (by assumption))
    (Node.size_namedChildren_lt (mem_of_mem_propertySignatures (by assumption))))
end

/-- The invariant holds of what a declaration of the tree says. -/
theorem holds_declaredSchema (hkept : KeptByTypes P named root)
    (hnamed : ∀ name s, named name = some s → P s)
    (n : Node) (hn : root.Within n) : P (declaredSchema named n) := by
  have hinherited : P (.object (Schema.fieldsOf ((basesOf n).map (typeSchema named)))) := by
    refine hP.fieldsOf fun s hs => ?_
    obtain ⟨base, hbase, rfl⟩ := List.mem_map.1 hs
    obtain ⟨clause, hclause, hmem⟩ := List.mem_flatMap.1 hbase
    exact holds_typeSchema hP hkept hnamed base
      ((hn.namedChildren (List.mem_filter.1 hclause).1).namedChildren hmem)
  unfold declaredSchema
  split
  · dsimp only
    split
    · exact hinherited
    next body hbody =>
      refine hP.merge hinherited fun entry hentry => ?_
      exact hP.of_mem (holds_memberFields hP hkept hnamed body (hn.child? hbody)) hentry
  · split
    · exact hP.any
    next value hvalue => exact holds_typeSchema hP hkept hnamed value (hn.child? hvalue)
  · exact holds_enumSchema hP n
  · exact hP.any

end Types

/-! ## Names -/

/-- The expansion of a type that is written in `m` may come to `target`, so many hops away, with
these declarations on the stack. -/
inductive Modules.Visits (modules : Modules) (m : Module) : Module → Nat → Expanding → Prop where
  | start : Visits modules m m 0 []
  | declaration {target : Module} {depth : Nat} {seen : Expanding} {name : String}
      {declaration : Node}
      (htarget : Visits modules m target depth seen) (hseen : (target.path.shown, name) ∉ seen)
      (hdeclared : target.type? name = some declaration) :
      Visits modules m target depth ((target.path.shown, name) :: seen)
  | imported {source target : Module} {depth : Nat} {seen : Expanding} {specifier : String}
      (hsource : Visits modules m source depth seen)
      (htarget : modules.imported source.path specifier = some target) :
      Visits modules m target (depth + 1) seen
  | declaring {source target : Module} {seen : Expanding} {name : String}
      (hsource : Visits modules m source 0 seen) (htarget : modules.declaring name = some target) :
      Visits modules m target 1 seen

/-- A property of schemas holds of what a name stands for if it holds of the declarations and of the
names after more hops that the name may lead to. -/
theorem holds_namedSchema {m : Module} {name : String} {depth : Nat}
    {declared : Module → Node → Nat → Schema}
    {elsewhere : Module → String → Nat → Option Schema} {s : Schema}
    (h : namedSchema modules m name depth declared elsewhere = some s)
    (hown : depth ≤ maxHops → ∀ declaration, m.type? name = some declaration →
      P (declared m declaration depth))
    (hforeign : depth = 0 → ∀ target declaration, modules.declaring name = some target →
      target.type? name = some declaration → P (declared target declaration (depth + 1)))
    (himported : depth ≤ maxHops → ∀ specifier target, modules.imported m.path specifier =
      some target → ∀ inner s, elsewhere target inner (depth + 1) = some s → P s)
    (hpassed : depth ≤ maxHops → ∀ specifier target, modules.imported m.path specifier =
      some target → ∀ specifier next, modules.imported target.path specifier = some next →
      ∀ inner s, elsewhere next inner (depth + 2) = some s → P s) : P s := by
  unfold namedSchema at h
  split at h
  · cases h
  next hdepth =>
    replace hdepth := Nat.not_lt.1 hdepth
    split at h
    next declaration hdeclared =>
      cases h
      exact hown hdepth declaration hdeclared
    next =>
      split at h
      next specifier exported _ =>
        split at h
        · cases h
        next target htarget =>
          rcases Option.or_eq_some_iff.1 h with hfirst | ⟨-, hfound⟩
          · exact himported hdepth specifier target htarget exported s hfirst
          · obtain ⟨passed, -, hinner⟩ := List.exists_of_findSome?_eq_some hfound
            split at hinner
            next inner next _ hnext =>
              exact hpassed hdepth specifier target htarget _ next hnext inner s hinner
            next => cases hinner
      · cases h
      · split at h
        next hnear =>
          split at h
          · cases h
          next target htarget =>
            split at h
            · cases h
            · split at h
              · cases h
              next declaration hdeclared =>
                cases h
                exact hforeign hnear target declaration htarget hdeclared
        next => cases h

/-- The invariant holds of what names stand for, wherever the expansion of a type of `m` comes. -/
theorem holds_reference (hP : Invariant P) {m : Module}
    (hkept : ∀ target depth seen, modules.Visits m target depth seen →
      KeptByTypes P (reference modules target depth seen) target.root)
    {target : Module} {depth : Nat} {seen : Expanding}
    (htarget : modules.Visits m target depth seen)
    (name : String) (s : Schema) (h : reference modules target depth seen name = some s) : P s := by
  induction target, depth, seen using expansion_induction generalizing name s with
  | step target depth seen hinside haway =>
      -- a declaration is read with its key on the stack, unless it is being expanded
      have hdeclared : ∀ (source : Module) (declaration : Node) (hops : Nat),
          modules.Visits m source hops seen → source.type? name = some declaration →
          ((source.path.shown, name) ∉ seen → ∀ inner s,
            reference modules source hops ((source.path.shown, name) :: seen) inner = some s →
            P s) →
          P (declaredType modules name seen source declaration hops) := by
        intro source declaration hops hsource hdeclaration hinner
        rw [declaredType_eq]
        split
        · exact hP.any
        next hseen =>
          exact holds_declaredSchema hP (hkept _ _ _ (.declaration hsource hseen hdeclaration))
            (hinner hseen)
            declaration (Module.within_type? hdeclaration)
      rw [reference_eq] at h
      refine holds_namedSchema h ?_ ?_ ?_ ?_
      · intro hdepth declaration hown
        refine hdeclared target declaration depth htarget hown ?_
        intro hseen inner s hs
        exact hinside name declaration hown hseen (.declaration htarget hseen hown) inner s hs
      · intro hnear source declaration hsource hforeign
        subst hnear
        have hvisited := htarget.declaring hsource
        refine hdeclared source declaration 1 hvisited hforeign ?_
        intro hseen inner s hs
        exact haway (Nat.zero_le _) source 1 _ Nat.one_pos
          (.declaration hvisited hseen hforeign) inner s hs
      · intro hdepth specifier source hsource inner s hs
        exact haway hdepth source (depth + 1) seen (by omega) (htarget.imported hsource) inner s hs
      · intro hdepth specifier source hsource specifier' next hnext inner s hs
        exact haway hdepth next (depth + 2) seen (by omega)
          ((htarget.imported hsource).imported hnext) inner s hs

/-- The invariant holds of the schemas of the types that are written in a script. -/
theorem holds_annotationSchema (hP : Invariant P) {m : Module}
    (hkept : ∀ target depth seen, modules.Visits m target depth seen →
      KeptByTypes P (reference modules target depth seen) target.root)
    (hn : m.root.Within n) : P (annotationSchema modules m n) := by
  rw [annotationSchema_eq]
  exact holds_typeSchema hP (hkept m 0 [] .start) (holds_reference hP hkept .start) n hn

end TrackingPlan.Script
