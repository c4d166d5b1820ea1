import Mathlib.Data.List.Basic
import TrackingPlan.Proofs.Expansion
import TrackingPlan.Proofs.Related

/-!
# The expansion of types comes to an end

Whatever a declaration refers to, its expansion ends: every hop to another module uses up one of the
hops that are left, and within a module every declaration goes on the stack. `expansion_induction`
is the induction that this gives. By it `yields_reference` says so of names, with `reference` as the
table of what names stand for, and `expansion_ends` of all functions that take part: they leave the
stack as they found it, and read all names in a declaration by one table.
`Modules.Corresponds.reference_eq` compares what names stand for in two scripts, and what stands in
a declaration that is being expanded does not count, as `reference_congr` says.
-/

namespace TrackingPlan.Script

open Modules

variable {modules : Modules} {m : Module} {name : String} {depth : Nat} {seen : Expanding}

/-! ## Names -/

/-- `namedSchema modules m name depth declared elsewhere` is what `name` stands for in `m`, where
`declared` tells the schemas of the declarations of that name, and `elsewhere` what names stand for
after more hops. -/
def namedSchema (modules : Modules) (m : Module) (name : String) (depth : Nat)
    (declared : Module → Node → Nat → Schema) (elsewhere : Module → String → Nat → Option Schema) :
    Option Schema :=
  if depth > maxHops then none
  else match m.type? name with
    | some declaration => some (declared m declaration depth)
    | none =>
      match m.import? name with
      | some ⟨specifier, .named exported⟩ =>
        match modules.imported m.path specifier with
        | none => none
        | some target =>
          (elsewhere target exported (depth + 1)).or
            (target.reexports.findSome? fun passed =>
              match passed.inner? exported, modules.imported target.path passed.specifier with
              | some inner, some next => elsewhere next inner (depth + 2)
              | _, _ => none)
      | some _ => none
      | none =>
        if depth = 0 then
          match modules.declaring name with
          | none => none
          | some target =>
            if target.path.same m.path then none
            else match target.type? name with
              | none => none
              | some declaration => some (declared target declaration (depth + 1))
        else none

/-- The expansion of a name gives what the name stands for, if the expansions of declarations and of
names after more hops do. -/
theorem yields_expandName {declared : Module → Node → Nat → Schema}
    {elsewhere : Module → String → Nat → Option Schema}
    (hown : depth ≤ maxHops → ∀ declaration, m.type? name = some declaration →
      Yields (expandDeclaration modules m name declaration depth) seen
        (declared m declaration depth))
    (hforeign : depth ≤ maxHops → ∀ target declaration,
      Yields (expandDeclaration modules target name declaration (depth + 1)) seen
        (declared target declaration (depth + 1)))
    (helsewhere : depth ≤ maxHops → ∀ target inner hops, depth < hops →
      Yields (expandName modules target inner hops) seen (elsewhere target inner hops)) :
    Yields (expandName modules m name depth) seen
      (namedSchema modules m name depth declared elsewhere) := by
  rw [expandName, namedSchema]
  by_cases hdepth : depth > maxHops
  · rw [if_pos hdepth, if_pos hdepth]
    exact Yields.pure none
  rw [if_neg hdepth, if_neg hdepth]
  replace hdepth := Nat.not_lt.1 hdepth
  cases hdeclared : m.type? name with
  | some declaration => exact (hown hdepth declaration hdeclared).map some
  | none =>
      cases m.import? name with
      | none =>
          dsimp only
          by_cases hfar : depth = 0
          · rw [if_pos hfar, if_pos hfar]
            cases modules.declaring name with
            | none => exact Yields.pure none
            | some target =>
                dsimp only
                split
                · exact Yields.pure none
                · cases target.type? name with
                  | none => exact Yields.pure none
                  | some declaration => exact (hforeign hdepth target declaration).map some
          · rw [if_neg hfar, if_neg hfar]
            exact Yields.pure none
      | some import_ =>
          obtain ⟨specifier, imported⟩ := import_
          cases imported with
          | all | default => exact Yields.pure none
          | named exported =>
              dsimp only
              cases modules.imported m.path specifier with
              | none => exact Yields.pure none
              | some target =>
                  dsimp only
                  refine (helsewhere hdepth target exported (depth + 1) (by omega)).bind ?_
                  cases elsewhere target exported (depth + 1) with
                  | some found => exact Yields.pure (some found)
                  | none =>
                      refine Yields.findSomeM? fun passed _ => ?_
                      cases passed.inner? exported with
                      | none => exact Yields.pure none
                      | some inner =>
                          cases modules.imported target.path passed.specifier with
                          | none => exact Yields.pure none
                          | some next => exact helsewhere hdepth next inner (depth + 2) (by omega)

/-! ## The end of the expansion -/

/-- `unseen m seen` counts the declarations of `m` that are not being expanded. -/
def unseen (m : Module) (seen : Expanding) : Nat :=
  (m.types.filter fun entry => !seen.contains (m.path.shown, entry.1)).length

/-- A declaration that goes on the stack is one less to come. -/
theorem unseen_cons_lt {declaration : Node} (hdeclared : m.type? name = some declaration)
    (hseen : (m.path.shown, name) ∉ seen) :
    unseen m ((m.path.shown, name) :: seen) < unseen m seen := by
  have hsplit : (m.types.filter fun entry =>
        !((m.path.shown, name) :: seen).contains (m.path.shown, entry.1)) =
      (m.types.filter fun entry => !seen.contains (m.path.shown, entry.1)).filter
        fun entry => entry.1 ≠ name := by
    rw [List.filter_filter]
    refine List.filter_congr fun entry _ => ?_
    simp
  have hmem : (name, declaration) ∈ m.types :=
    List.mem_reverse.1 (Named.mem_of_lookup hdeclared)
  rw [unseen, unseen, hsplit, List.length_filter_lt_length_iff_exists]
  exact ⟨(name, declaration), List.mem_filter.2 ⟨hmem, by simpa using hseen⟩, by simp⟩

/-- Induction over where the expansion of names comes: the names in a declaration find one more
declaration of their module on the stack, and any other name is a hop away. -/
@[elab_as_elim]
theorem expansion_induction {motive : Module → Nat → Expanding → Prop}
    (step : ∀ m depth seen,
      (∀ name declaration, m.type? name = some declaration → (m.path.shown, name) ∉ seen →
        motive m depth ((m.path.shown, name) :: seen)) →
      (depth ≤ maxHops → ∀ target hops stack, depth < hops → motive target hops stack) →
      motive m depth seen)
    (m : Module) (depth : Nat) (seen : Expanding) : motive m depth seen := by
  induction hleft : maxHops + 1 - depth using Nat.strongRecOn generalizing m depth seen with
  | ind left haway =>
      induction hcount : unseen m seen using Nat.strongRecOn generalizing seen with
      | ind count hinside =>
          subst hleft hcount
          refine step m depth seen (fun name declaration hdeclared hseen => ?_)
            fun hdepth target hops stack hhops => ?_
          · exact hinside _ (unseen_cons_lt hdeclared hseen) _ rfl
          · exact haway _ (by omega) target hops stack rfl

/-- The expansion of a declaration ends if that of the names in it does. -/
theorem exists_yields_expandDeclaration (declaration : Node)
    (hinner : (m.path.shown, name) ∉ seen → ∀ inner, ∃ found,
      Yields (expandName modules m inner depth) ((m.path.shown, name) :: seen) found) :
    ∃ schema, Yields (expandDeclaration modules m name declaration depth) seen schema := by
  by_cases hseen : (m.path.shown, name) ∈ seen
  · exact ⟨.any, yields_expandDeclaration_of_mem hseen declaration⟩
  · choose named hnamed using hinner hseen
    exact ⟨_, yields_expandDeclaration_of_not_mem hseen hnamed declaration⟩

/-- `reference modules m depth seen name` is the schema that `name` stands for in `m`. -/
def reference (modules : Modules) (m : Module) (depth : Nat) (seen : Expanding) (name : String) :
    Option Schema :=
  resultOf (expandName modules m name depth) seen

/-- `declaredType modules m name declaration depth seen` is the schema of a declaration of `m`. -/
def declaredType (modules : Modules) (name : String) (seen : Expanding) (m : Module)
    (declaration : Node) (depth : Nat) : Schema :=
  resultOf (expandDeclaration modules m name declaration depth) seen

/-- The expansion of every name ends, and leaves the stack as it was. -/
theorem yields_reference (modules : Modules) (m : Module) (name : String) (depth : Nat)
    (seen : Expanding) :
    Yields (expandName modules m name depth) seen (reference modules m depth seen name) := by
  induction m, depth, seen using expansion_induction generalizing name with
  | step m depth seen hinside haway =>
      refine yields_resultOf ⟨_, @yields_expandName modules m name depth seen
        (declaredType modules name seen)
        (fun target inner hops => reference modules target hops seen inner)
        (fun hdepth declaration hdeclared => ?_) (fun hdepth target declaration => ?_)
        (fun hdepth target inner hops hhops => ?_)⟩
      · refine yields_resultOf (exists_yields_expandDeclaration declaration fun hseen inner => ?_)
        exact ⟨_, hinside name declaration hdeclared hseen inner⟩
      · refine yields_resultOf (exists_yields_expandDeclaration declaration fun hseen inner => ?_)
        exact ⟨_, haway hdepth target (depth + 1) _ (Nat.lt_succ_self depth) inner⟩
      · exact haway hdepth target hops seen hhops inner

/-- The expansion of every declaration ends, and leaves the stack as it was. -/
theorem yields_declaredType (modules : Modules) (name : String) (seen : Expanding) (m : Module)
    (declaration : Node) (depth : Nat) :
    Yields (expandDeclaration modules m name declaration depth) seen
      (declaredType modules name seen m declaration depth) :=
  yields_resultOf (exists_yields_expandDeclaration declaration fun _ inner =>
    ⟨_, yields_reference modules m inner depth _⟩)

/-- What a name stands for, in terms of declarations and of names after more hops. -/
theorem reference_eq (modules : Modules) (m : Module) (name : String) (depth : Nat)
    (seen : Expanding) :
    reference modules m depth seen name = namedSchema modules m name depth
      (declaredType modules name seen) fun target inner hops =>
        reference modules target hops seen inner :=
  (yields_reference modules m name depth seen).eq (yields_expandName
    (fun _ declaration _ => yields_declaredType modules name seen m declaration depth)
    (fun _ target declaration =>
      yields_declaredType modules name seen target declaration (depth + 1))
    fun _ target inner hops _ => yields_reference modules target inner hops seen)

/-- The schema of a declaration is `any` while it is being expanded, and otherwise the reading of
what it says, where names stand for what they stand for with the declaration on the stack. -/
theorem declaredType_eq (modules : Modules) (name : String) (seen : Expanding) (m : Module)
    (declaration : Node) (depth : Nat) :
    declaredType modules name seen m declaration depth =
      if (m.path.shown, name) ∈ seen then .any
      else declaredSchema (reference modules m depth ((m.path.shown, name) :: seen))
          declaration := by
  have hyields := yields_declaredType modules name seen m declaration depth
  split
  next hseen => exact hyields.eq (yields_expandDeclaration_of_mem hseen declaration)
  next hseen =>
    exact hyields.eq (yields_expandDeclaration_of_not_mem hseen
      (fun inner => yields_reference modules m inner depth _) declaration)

/-! ## Scripts with the same names -/

/-- Scripts that are related by `agrees` have the same path, imports and exports, and declare types
of the same names; and what `modules` and `others` tell of is so related. -/
structure Modules.Corresponds (agrees : Module → Module → Prop)
    (modules others : Modules) : Prop where
  path : ∀ {m other : Module}, agrees m other → m.path = other.path
  imports : ∀ {m other : Module}, agrees m other → m.imports = other.imports
  reexports : ∀ {m other : Module}, agrees m other → m.reexports = other.reexports
  declares : ∀ {m other : Module}, agrees m other → ∀ name,
    (∃ declaration, m.type? name = some declaration) ↔
      ∃ declaration, other.type? name = some declaration
  imported : ∀ path specifier,
    Option.Rel agrees (modules.imported path specifier) (others.imported path specifier)
  declaring : ∀ name, Option.Rel agrees (modules.declaring name) (others.declaring name)

section Corresponds

variable {agrees : Module → Module → Prop} {others : Modules} {other : Module}

/-- Modules that correspond import a name from the same place. -/
theorem Modules.Corresponds.import?_eq (h : modules.Corresponds agrees others) (hm : agrees m other)
    (name : String) : m.import? name = other.import? name := by
  rw [Module.import?, Module.import?, h.imports hm]

/-- A type that one of two corresponding modules does not declare, the other does not declare
either. -/
theorem Modules.Corresponds.type?_eq_none (h : modules.Corresponds agrees others)
    (hm : agrees m other) (hnone : m.type? name = none) : other.type? name = none := by
  refine Option.eq_none_iff_forall_ne_some.2 fun declaration hsome => ?_
  obtain ⟨found, hfound⟩ := (h.declares hm name).2 ⟨declaration, hsome⟩
  rw [hnone] at hfound
  cases hfound

/-- A name stands for the same if declarations and names after more hops do. -/
theorem namedSchema_congr {declared declared' : Module → Node → Nat → Schema}
    {elsewhere elsewhere' : Module → String → Nat → Option Schema}
    (h : modules.Corresponds agrees others) (hm : agrees m other)
    (hown : depth ≤ maxHops → ∀ declaration declaration', m.type? name = some declaration →
      other.type? name = some declaration' →
      declared m declaration depth = declared' other declaration' depth)
    (hforeign : depth = 0 → ∀ target target' declaration declaration',
      agrees target target' → target.type? name = some declaration →
      target'.type? name = some declaration' →
      declared target declaration (depth + 1) = declared' target' declaration' (depth + 1))
    (helsewhere : depth ≤ maxHops → ∀ target target' inner hops, agrees target target' →
      depth < hops → elsewhere target inner hops = elsewhere' target' inner hops) :
    namedSchema modules m name depth declared elsewhere =
      namedSchema others other name depth declared' elsewhere' := by
  unfold namedSchema
  by_cases hdepth : depth > maxHops
  · rw [if_pos hdepth, if_pos hdepth]
  rw [if_neg hdepth, if_neg hdepth]
  replace hdepth := Nat.not_lt.1 hdepth
  cases hdeclared : m.type? name with
  | some declaration =>
      obtain ⟨declaration', hdeclared'⟩ := (h.declares hm name).1 ⟨declaration, hdeclared⟩
      rw [hdeclared']
      exact congrArg some (hown hdepth declaration declaration' hdeclared hdeclared')
  | none =>
      rw [h.type?_eq_none hm hdeclared, ← h.import?_eq hm, ← h.path hm]
      cases m.import? name with
      | none =>
          dsimp only
          by_cases hfar : depth = 0
          · rw [if_pos hfar, if_pos hfar]
            refine (h.declaring name).elim rfl fun target target' htarget => ?_
            dsimp only
            rw [← h.path htarget]
            split
            · rfl
            · cases hdeclaration : target.type? name with
              | none => rw [h.type?_eq_none htarget hdeclaration]
              | some declaration =>
                  obtain ⟨declaration', hdeclaration'⟩ :=
                    (h.declares htarget name).1 ⟨declaration, hdeclaration⟩
                  rw [hdeclaration']
                  exact congrArg some (hforeign hfar target target' declaration declaration'
                    htarget hdeclaration hdeclaration')
          · rw [if_neg hfar, if_neg hfar]
      | some import_ =>
          obtain ⟨specifier, imported⟩ := import_
          cases imported with
          | all | default => rfl
          | named exported =>
              dsimp only
              refine (h.imported m.path specifier).elim rfl fun target target' htarget => ?_
              dsimp only
              rw [helsewhere hdepth target target' exported (depth + 1) htarget (by omega),
                ← h.reexports htarget, ← h.path htarget]
              congr 2
              funext passed
              cases passed.inner? exported with
              | none => rfl
              | some inner =>
                  exact (h.imported target.path passed.specifier).elim rfl fun next next' hnext =>
                    helsewhere hdepth next next' inner (depth + 2) hnext (by omega)

/-- Names stand for the same if declarations do wherever the names in them stand for the same. Of
the stack it need only be known that it holds `known`. -/
theorem Modules.Corresponds.reference_eq (h : modules.Corresponds agrees others) (known : Expanding)
    (hdeclared : ∀ {target target' : Module} {name : String} {declaration
      declaration' : Node} {hops : Nat}
      {stack : Expanding}, agrees target target' → target.type? name = some declaration →
      target'.type? name = some declaration' → hops ≤ maxHops → known ⊆ stack →
      (target.path.shown, name) ∉ stack →
      let named := reference modules target hops ((target.path.shown, name) :: stack)
      declaredSchema named declaration = declaredSchema named declaration')
    (hm : agrees m other) (hknown : known ⊆ seen) (name : String) :
    reference modules m depth seen name = reference others other depth seen name := by
  induction m, depth, seen using expansion_induction generalizing other name with
  | step m depth seen hinside haway =>
      have hsame : ∀ {target target' : Module} {declaration declaration' : Node} {hops : Nat},
          agrees target target' → target.type? name = some declaration →
          target'.type? name = some declaration' → hops ≤ maxHops →
          ((target.path.shown, name) ∉ seen → ∀ inner,
            reference modules target hops ((target.path.shown, name) :: seen) inner =
              reference others target' hops ((target.path.shown, name) :: seen) inner) →
          declaredType modules name seen target declaration hops =
            declaredType others name seen target' declaration' hops := by
        intro target target' declaration declaration' hops htarget hdeclaration hdeclaration'
          hhops hinner
        rw [declaredType_eq, declaredType_eq, ← h.path htarget]
        split
        · rfl
        next hseen =>
          rw [← funext (hinner hseen)]
          exact hdeclared htarget hdeclaration hdeclaration' hhops hknown hseen
      have hmore (entry : String × String) : known ⊆ entry :: seen :=
        List.subset_cons_of_subset entry hknown
      rw [reference_eq, reference_eq]
      refine namedSchema_congr h hm (fun hdepth declaration declaration' hown hown' => ?_)
        (fun hfar target target' declaration declaration' htarget hforeign hforeign' => ?_)
        (fun hdepth target target' inner hops htarget hhops => ?_)
      · refine hsame hm hown hown' hdepth fun hseen inner => ?_
        exact hinside name declaration hown hseen hm (hmore _) inner
      · have hhops : depth + 1 ≤ maxHops := by rw [hfar]; decide
        refine hsame htarget hforeign hforeign' hhops fun hseen inner => ?_
        exact haway (by omega) target (depth + 1) _ (Nat.lt_succ_self depth) htarget (hmore _) inner
      · exact haway hdepth target hops seen hhops htarget hknown inner

end Corresponds

/-! ## What stands in a declaration that is being expanded -/

/-- The module says the same as another one, except perhaps in the declaration with that key. -/
structure Module.AgreesExcept (key : String × String) (m other : Module) : Prop where
  path : m.path = other.path
  imports : m.imports = other.imports
  reexports : m.reexports = other.reexports
  types : ∀ name, (m.path.shown, name) ≠ key → m.type? name = other.type? name
  declares : ∀ name, (∃ declaration, m.type? name = some declaration) ↔
    ∃ declaration, other.type? name = some declaration

/-- What a script sees of other modules is the same, except perhaps in the declaration with that
key. -/
structure Modules.AgreesExcept (key : String × String) (modules others : Modules) : Prop where
  imported : ∀ path specifier, Option.Rel (Module.AgreesExcept key)
    (modules.imported path specifier) (others.imported path specifier)
  declaring : ∀ name, Option.Rel (Module.AgreesExcept key)
    (modules.declaring name) (others.declaring name)

/-- Modules that agree but for one declaration correspond. -/
theorem Modules.AgreesExcept.corresponds {key : String × String} {others : Modules}
    (h : modules.AgreesExcept key others) :
    modules.Corresponds (Module.AgreesExcept key) others where
  path := Module.AgreesExcept.path
  imports := Module.AgreesExcept.imports
  reexports := Module.AgreesExcept.reexports
  declares := Module.AgreesExcept.declares
  imported := h.imported
  declaring := h.declaring

/-- While a declaration is being expanded, no name depends on what stands in it. -/
theorem reference_congr {key : String × String} {modules others : Modules} {m other : Module}
    {depth : Nat} {seen : Expanding} (hmodules : modules.AgreesExcept key others)
    (hm : m.AgreesExcept key other) (hseen : key ∈ seen) (name : String) :
    reference modules m depth seen name = reference others other depth seen name := by
  refine hmodules.corresponds.reference_eq [key] ?_ hm
    (List.cons_subset.2 ⟨hseen, List.nil_subset _⟩) name
  intro target target' name declaration declaration' hops stack htarget hdeclaration hdeclaration' _
    hkey hunseen
  -- a declaration that is not on the stack has another key, so that it is the same in both
  have hne : (target.path.shown, name) ≠ key := fun heq => hunseen (heq ▸ hkey List.mem_cons_self)
  rw [htarget.types name hne, hdeclaration'] at hdeclaration
  rw [Option.some.inj hdeclaration]

/-! ## The expansion as a whole -/

/-- Types that are expanded one after the other are read by one table. -/
theorem yields_mapM_expandType (modules : Modules) (m : Module) (depth : Nat) (seen : Expanding)
    (ns : List Node) :
    Yields (ns.mapM fun n => expandType modules m n depth) seen
      (ns.map (typeSchema (reference modules m depth seen))) :=
  Yields.mapM fun n _ => yields_expandType (yields_reference modules m · depth seen) n

/-- The schema of an annotation is its reading. -/
theorem annotationSchema_eq (modules : Modules) (m : Module) (n : Node) :
    annotationSchema modules m n = typeSchema (reference modules m 0 []) n := by
  have hyields := yields_expandType (yields_reference modules m · 0 []) n
  rw [annotationSchema, hyields]

/-- Within the limit on hops, a name that the module declares stands for something. -/
theorem isSome_reference (hdeclared : (m.type? name).isSome = true) (hdepth : depth ≤ maxHops) :
    (reference modules m depth seen name).isSome = true := by
  obtain ⟨declaration, hdeclaration⟩ := Option.isSome_iff_exists.1 hdeclared
  rw [reference_eq, namedSchema, if_neg (Nat.not_lt.2 hdepth), hdeclaration]
  rfl

/-- A name whose declaration is being expanded stands for anything. -/
theorem reference_of_mem {declaration : Node} (hdeclared : m.type? name = some declaration)
    (hseen : (m.path.shown, name) ∈ seen) (hdepth : depth ≤ maxHops) :
    reference modules m depth seen name = some .any := by
  rw [reference_eq, namedSchema, if_neg (Nat.not_lt.2 hdepth), hdeclared]
  dsimp only
  rw [declaredType_eq, if_pos hseen]

/-- The expansion of types, properties, names and declarations ends and leaves the stack as it was.
It reads all names by one table, so that siblings that refer to one type have one schema; in a
declaration, that table is the one with the declaration on the stack, and depends on nothing that
stands in it. -/
theorem expansion_ends (modules : Modules) (m : Module) (depth : Nat) (seen : Expanding) :
    let named := reference modules m depth seen
    (∀ n, Yields (expandType modules m n depth) seen (typeSchema named n)) ∧
    (∀ n, Yields (expandGeneric modules m n depth) seen (genericSchema named n)) ∧
    (∀ body, Yields (expandMembers modules m body depth) seen (memberFields named body)) ∧
    (∀ name, Yields (expandName modules m name depth) seen (named name)) ∧
    (∀ name declaration,
      let key := (m.path.shown, name)
      let inside := reference modules m depth (key :: seen)
      Yields (expandDeclaration modules m name declaration depth) seen
        (if key ∈ seen then .any else declaredSchema inside declaration) ∧
      (m.type? name = some declaration → depth ≤ maxHops → inside name = some .any) ∧
      ∀ others other, modules.AgreesExcept key others → m.AgreesExcept key other →
        inside = reference others other depth (key :: seen)) ∧
    ∀ first between second, first.kind = "type_identifier" → second.kind = "type_identifier" →
      first.text = second.text → ∃ schema schemas,
        Yields ((first :: between ++ [second]).mapM fun n => expandType modules m n depth) seen
          (schema :: schemas ++ [schema]) := by
  have hnamed := (yields_reference modules m · depth seen)
  refine ⟨yields_expandType hnamed, yields_expandGeneric hnamed,
    yields_expandMembers hnamed, hnamed,
    fun name declaration => ⟨?_, fun hdeclared hdepth => ?_, fun others other hmodules hm => ?_⟩,
    fun first between second hfirst hsecond htext => ?_⟩
  · rw [← declaredType_eq]
    exact yields_declaredType modules name seen m declaration depth
  · exact reference_of_mem hdeclared List.mem_cons_self hdepth
  · funext inner
    exact reference_congr hmodules hm List.mem_cons_self inner
  · have hsame : typeSchema (reference modules m depth seen) second =
        typeSchema (reference modules m depth seen) first := by
      rw [typeSchema_eq, typeSchema_eq, hfirst, hsecond]
      simp only [htext]
    have hyields := yields_mapM_expandType modules m depth seen (first :: between ++ [second])
    rw [List.map_append, List.map_cons, List.map_singleton, hsame] at hyields
    exact ⟨_, _, hyields⟩

end TrackingPlan.Script
