import TrackingPlan.Script.Calls

/-!
# Names that modules pass on

A module that neither declares nor imports a name may pass it on from other modules, under the name
itself or with everything else that they export. `LeadsTo` says which text one export statement has
for the name. The first statement that has a text decides, as `reexported_names` says, so a
statement that passes on everything hides one for the name if it stands before it, which
`reexport_hidden_by_star` shows.
-/

namespace TrackingPlan.Script

variable {modules : Modules} {m : Module} {hops : Nat} {path : Path}
  {name inner specifier text : String}
  {members : List String} {passed : Reexport} {passes before after : List Reexport}

/-! ## What export statements lead to -/

/-- The module itself declares the name for the whole module, or imports it. -/
def Owns (m : Module) (name : String) : Prop := m.lookup? name m.root ≠ none ∨ m.import? name ≠ none

/-- The re-export, in the file at `path`, leads to a text for the name, after access to
`members`. -/
inductive LeadsTo (modules : Modules) (hops : Nat) (path : Path) (name : String)
    (members : List String) :
    Reexport → String → Prop where
  | explicit {inner specifier text : String} {target : Module}
      (htarget : modules.imported path specifier = some target)
      (htext : exportedString? modules hops target inner members = some text) :
      LeadsTo modules hops path name members ⟨some (name, inner), specifier⟩ text
  | star {specifier text : String} {target : Module}
      (htarget : modules.imported path specifier = some target)
      (htext : exportedString? modules hops target name members = some text) :
      LeadsTo modules hops path name members ⟨none, specifier⟩ text

/-- The text is that of the first of the re-exports that lead to any. -/
def IsFirstText (modules : Modules) (hops : Nat) (path : Path) (name : String)
    (members : List String) (passes : List Reexport) (text : String) : Prop :=
  ∃ sooner first later, passes = sooner ++ first :: later ∧
    (∀ passed ∈ sooner, ∀ other, ¬LeadsTo modules hops path name members passed other) ∧
    LeadsTo modules hops path name members first text

/-- The argument is a name that is imported from the module `m`, or a member of one, where it is
what `m` exports as `name`, after access to `members`. -/
inductive TakesFrom (modules : Modules) (importer : Module) (argument : Site) (m : Module) :
    (name : String) → (members : List String) → Prop where
  | named {base specifier name : String} {members : List String}
      (hkind : (unwrap argument).kind ∈ ["identifier", "member_expression", "subscript_expression"])
      (hsegments : segments? (unwrap argument).node = some (base :: members))
      (hlocal : importer.lookup? base (unwrap argument).node = none)
      (himport : importer.import? base = some ⟨specifier, .named name⟩)
      (htarget : modules.imported importer.path specifier = some m) :
      TakesFrom modules importer argument m name members
  | all {base specifier name : String} {members : List String}
      (hkind : (unwrap argument).kind ∈ ["identifier", "member_expression", "subscript_expression"])
      (hsegments : segments? (unwrap argument).node = some (base :: name :: members))
      (hlocal : importer.lookup? base (unwrap argument).node = none)
      (himport : importer.import? base = some ⟨specifier, .all⟩)
      (htarget : modules.imported importer.path specifier = some m) :
      TakesFrom modules importer argument m name members

/-! ## The first statement that leads to a text -/

/-- `passedText? modules hops path name members passed` is the text that the re-export leads to. -/
def passedText? (modules : Modules) (hops : Nat) (path : Path) (name : String)
    (members : List String) (passed : Reexport) : Option String :=
  match passed.inner? name, modules.imported path passed.specifier with
  | some inner, some target => exportedString? modules hops target inner members
  | _, _ => none

/-- A passed name leads to the text that is found for it. -/
theorem leadsTo_iff :
    LeadsTo modules hops path name members passed text ↔
      passedText? modules hops path name members passed = some text := by
  unfold passedText?
  constructor
  · intro h
    cases h with
    | explicit htarget htext => simp [Reexport.inner?, htarget, htext]
    | star htarget htext => simp [Reexport.inner?, htarget, htext]
  · intro h
    split at h
    next inner target hinner htarget =>
      obtain ⟨names, specifier⟩ := passed
      cases names with
      | none =>
          obtain rfl := Option.some.inj hinner
          exact .star htarget h
      | some names =>
          simp only [Reexport.inner?, Option.ite_none_right_eq_some, Option.some.injEq] at hinner
          obtain ⟨rfl, rfl⟩ := hinner
          exact .explicit htarget h
    next => cases h

/-- A passed name leads nowhere if no text is found for it. -/
theorem not_leadsTo_iff : (∀ other, ¬LeadsTo modules hops path name members passed other) ↔
    passedText? modules hops path name members passed = none := by
  rw [Option.eq_none_iff_forall_ne_some]
  exact forall_congr' fun other => not_congr leadsTo_iff

/-- The first text is that of the first re-export that has one. -/
theorem isFirstText_iff : IsFirstText modules hops path name members passes text ↔
    passes.findSome? (passedText? modules hops path name members) = some text := by
  rw [List.findSome?_eq_some_iff]
  simp only [IsFirstText, not_leadsTo_iff]
  simp only [leadsTo_iff]
  refine exists_congr fun sooner => exists_congr fun first => exists_congr fun later => ?_
  exact and_congr_right fun _ => and_comm

/-- There is no first text if no re-export has one. -/
theorem not_isFirstText_iff : (∀ other, ¬IsFirstText modules hops path name members passes other) ↔
    passes.findSome? (passedText? modules hops path name members) = none := by
  rw [Option.eq_none_iff_forall_ne_some]
  exact forall_congr' fun other => not_congr isFirstText_iff

/-- A module owns the names that it declares or imports. -/
theorem owns_iff :
    Owns m name ↔ ((m.lookup? name m.root).isSome || (m.import? name).isSome) = true := by
  rw [Owns, Bool.or_eq_true, Option.isSome_iff_ne_none, Option.isSome_iff_ne_none]

/-- What a module owns and exports has the text that it has at the top. -/
theorem exportedString?_of_owns (h : Owns m name) :
    exportedString? modules (hops + 1) m name members =
      stringConstant? modules hops m name members m.root := by
  rw [exportedString?, if_pos (owns_iff.1 h)]

/-- What a module does not own has the text of the first re-export that has one. -/
theorem exportedString?_of_not_owns (h : ¬Owns m name) :
    exportedString? modules (hops + 1) m name members =
    m.reexports.findSome? (passedText? modules hops m.path name members) := by
  rw [exportedString?, if_neg fun howns => h (owns_iff.2 howns)]
  rfl

/-- If all that lead to a text agree, one that leads to it is enough, whatever the order. -/
theorem exportedString?_of_agree (hpath : path = m.path) (hown : ¬Owns m name)
    (hpassed : passed ∈ m.reexports) (hleads : LeadsTo modules hops path name members passed text)
    (hagree : ∀ passed ∈ m.reexports, ∀ other, LeadsTo modules hops path name members passed other →
      other = text) :
    exportedString? modules (hops + 1) m name members = some text := by
  subst hpath
  rw [exportedString?_of_not_owns hown]
  cases hfirst : m.reexports.findSome? (passedText? modules hops m.path name members) with
  | none =>
      have hnone := List.findSome?_eq_none_iff.1 hfirst passed hpassed
      rw [leadsTo_iff.1 hleads] at hnone
      cases hnone
  | some result =>
      obtain ⟨first, hmem, htext⟩ := List.exists_of_findSome?_eq_some hfirst
      rw [hagree first hmem result (leadsTo_iff.2 htext)]

/-! ## Event names -/

/-- A name, or a member of one, is no literal. -/
theorem literal?_of_path {n : Node}
    (h : n.kind ∈ ["identifier", "member_expression", "subscript_expression"]) :
    literal? n = none := by
  simp only [List.mem_cons, List.not_mem_nil, or_false] at h
  rcases h with hkind | hkind | hkind <;> simp [literal?, hkind]

/-- A name, or a member of one, names the event by the text that it stands for. -/
theorem eventName?_of_segments {importer : Module} {argument : Site} {base : String}
    (hkind : (unwrap argument).kind ∈ ["identifier", "member_expression", "subscript_expression"])
    (hsegments : segments? (unwrap argument).node = some (base :: members)) :
    eventName? modules importer argument =
      stringConstant? modules allHops importer base members (unwrap argument).node := by
  rw [eventName?, literal?_of_path hkind]
  by_cases hidentifier : (unwrap argument).kind = "identifier"
  · rw [segments?, show (unwrap argument).node.kind = "identifier" from hidentifier] at hsegments
    obtain ⟨rfl, rfl⟩ := List.cons.inj (Option.some.inj hsegments)
    simp [hidentifier, Site.text]
  · simp only [List.mem_cons, List.not_mem_nil, or_false, hidentifier, false_or] at hkind
    rcases hkind with hkind | hkind <;> simp [hkind, hsegments]

/-- An argument that is taken from a module names the event by what that exports. -/
theorem TakesFrom.eventName?_eq {importer : Module} {argument : Site}
    (h : TakesFrom modules importer argument m name members) :
    eventName? modules importer argument = exportedString? modules maxHops m name members := by
  cases h with
  | named hkind hsegments hlocal himport htarget =>
      rw [eventName?_of_segments hkind hsegments, allHops, stringConstant?, hlocal]
      simp [himport, htarget]
  | all hkind hsegments hlocal himport htarget =>
      rw [eventName?_of_segments hkind hsegments, allHops, stringConstant?, hlocal]
      simp [himport, htarget]

/-- Let a module have a re-export for the name that leads to a text. If the module has the name
itself, that counts. If not, the name stands for what the first re-export before this one leads to,
and for the text if they lead to none. So it stands for the text, in whatever order the re-exports
are written, if no other leads to another text. What scripts import from the module as the name of
an event is what the name stands for. -/
theorem reexported_names (hsplit : m.reexports = before ++ ⟨some (name, inner), specifier⟩ :: after)
    (hleads : LeadsTo modules hops m.path name members ⟨some (name, inner), specifier⟩ text) :
    (Owns m name →
      exportedString? modules (hops + 1) m name members =
        stringConstant? modules hops m name members m.root) ∧
    (¬Owns m name →
      (∀ result, exportedString? modules (hops + 1) m name members = some result ↔
        IsFirstText modules hops m.path name members before result ∨
          (∀ other, ¬IsFirstText modules hops m.path name members before other) ∧ result = text) ∧
      ((∀ passed ∈ m.reexports, ∀ other, LeadsTo modules hops m.path name members passed other →
        other = text) →
        ∀ other : Module, other.path = m.path → ¬Owns other name →
          other.reexports.Perm m.reexports →
          exportedString? modules (hops + 1) other name members = some text)) ∧
    ∀ importer argument, hops + 1 = maxHops → TakesFrom modules importer argument m name members →
      eventName? modules importer argument = exportedString? modules (hops + 1) m name members := by
  refine ⟨exportedString?_of_owns, fun hown =>
    ⟨fun result => ?_, fun hagree other hpath hother hperm => ?_⟩,
    fun importer argument hhops htakes => hhops ▸ htakes.eventName?_eq⟩
  · rw [exportedString?_of_not_owns hown, hsplit, List.findSome?_append, isFirstText_iff,
      not_isFirstText_iff,
      List.findSome?_cons_of_isSome (by simp [leadsTo_iff.1 hleads]), leadsTo_iff.1 hleads]
    cases before.findSome? (passedText? modules hops m.path name members) with
    | none => simp [eq_comm]
    | some first => simp
  · have hmem : ⟨some (name, inner), specifier⟩ ∈ other.reexports :=
      hperm.mem_iff.2 (hsplit ▸ List.mem_append_right before List.mem_cons_self)
    exact exportedString?_of_agree hpath.symm hother hmem hleads fun passed hpassed =>
      hagree passed (hperm.mem_iff.1 hpassed)

/-! ## Orders -/

/-- `moduleAt name source` is the module with this source in the file of that name. -/
def moduleAt (name source : String) : Module :=
  .ofTree ⟨"/web/" ++ name ++ ".ts"⟩ (read .typeScript (.ofString source))

/-- `besides index` are two modules with one constant each, and a module `index` beside them. -/
def besides (index : Module) : Modules where
  typed := true
  imported _ specifier :=
    if specifier = "./a" then some (moduleAt "a" "export const X = 'a';\n")
    else if specifier = "./m" then some (moduleAt "m" "export const Y = 'm';\n")
    else if specifier = "./index" then some index
    else none
  declaring _ := none

/-- The re-export for the name, and then everything. -/
def starLast : Module :=
  moduleAt "index" "export \x7b Y as X \x7d from './m';\nexport * from './a';\n"

/-- Everything, and then the re-export for the name. -/
def starFirst : Module :=
  moduleAt "index" "export * from './a';\nexport \x7b Y as X \x7d from './m';\n"

/-- A constant that is not exported, and a re-export under its name. -/
def starless : Module :=
  moduleAt "index" "const X = 'local';\nexport \x7b Y as X \x7d from './m';\n"

/-- A script that tracks the name. -/
def importing : Module := moduleAt "app" "import \x7b X \x7d from './index';\nanalytics.track(X);\n"

/-- `trackedName? index` is the name of the event that the script tracks. -/
def trackedName? (index : Module) : Option String :=
  ((calls importing.root).head?.bind fun call => (argumentsOf call)[0]?).bind
    (eventName? (besides index) importing)

/-- What stands behind the re-export for the name does not hide it. -/
theorem reexported_names_of_starLast :
    LeadsTo (besides starLast) 7 starLast.path "X" [] ⟨some ("X", "Y"), "./m"⟩ "m" ∧
    ¬Owns starLast "X" ∧
      exportedString? (besides starLast) 8 starLast "X" [] = some "m" := by
  have hleads : LeadsTo (besides starLast) 7 starLast.path "X" [] ⟨some ("X", "Y"), "./m"⟩ "m" :=
    leadsTo_iff.2 (by decide +kernel)
  have hsplit : starLast.reexports = [] ++ ⟨some ("X", "Y"), "./m"⟩ :: [⟨none, "./a"⟩] := by
    decide +kernel
  have hown : ¬Owns starLast "X" := by
    rw [owns_iff]
    decide +kernel
  obtain ⟨hfirst, -⟩ := (reexported_names hsplit hleads).2.1 hown
  refine ⟨hleads, hown, (hfirst "m").2 (.inr ⟨fun other hother => ?_, rfl⟩)⟩
  obtain ⟨sooner, first, later, hnil, -⟩ := hother
  cases sooner <;> cases hnil

/-- What stands before it hides it, and so does a constant of the module that is not exported. -/
theorem reexport_hidden_by_star :
    (starFirst.reexports.Perm starLast.reexports ∧ ¬Owns starFirst "X" ∧
      LeadsTo (besides starFirst) 7 starFirst.path "X" [] ⟨some ("X", "Y"), "./m"⟩ "m" ∧
      exportedString? (besides starFirst) 8 starFirst "X" [] = some "a" ∧
      trackedName? starFirst = some "a" ∧ trackedName? starLast = some "m") ∧
    ⟨some ("X", "Y"), "./m"⟩ ∈ starless.reexports ∧
      LeadsTo (besides starless) 7 starless.path "X" [] ⟨some ("X", "Y"), "./m"⟩ "m" ∧
      exportedString? (besides starless) 8 starless "X" [] = some "local" ∧
      trackedName? starless = some "local" := by
  rw [owns_iff, leadsTo_iff, leadsTo_iff]
  decide +kernel

end TrackingPlan.Script
