import Mathlib.Data.Prod.Lex
import Mathlib.Data.List.MinMax
import TrackingPlan.Proofs.NestedNodes
import TrackingPlan.Script.Calls

/-!
# Visible names

Which declaration of a name counts at a place of a script. `nearest?_eq_argmin` says that it is the
nearest in one order, first by the width of scopes. As nodes are nested or apart, the narrowest
scope around a place is the innermost one: `innermost_declaration`. So a parameter hides what is
declared outside its function. Only functions and files are scopes, and a constant of a block is
visible behind it: `block_constant_visible`.
-/

namespace TrackingPlan

namespace Script.Module

variable {m : Module} {root place : Node} {s use f : Site} {b other : Binding} {name : String}
  {bindings : List Binding}

/-! ## The nearest declaration -/

/-- What decides how near a declaration is to a place: the width of its scope, then whether it
stands before the place, then how many bytes are between the two. -/
def distance (place : Node) (b : Binding) : ℕ ×ₗ ℕ ×ₗ ℕ :=
  toLex (b.scope.width,
    if b.declaration.start ≤ place.start then toLex (0, place.start - b.declaration.start)
    else toLex (1, b.declaration.start - place.start))

/-- A declaration is closer if its distance is less. -/
theorem closer_iff (place : Node) (a b : Binding) :
    closer place a b = true ↔ distance place a < distance place b := by
  have hwidth (x : Binding) : x.scope.stop - x.scope.start = x.scope.width := rfl
  simp only [closer, distance, hwidth, Prod.Lex.toLex_lt_toLex]
  by_cases hscope : a.scope.width = b.scope.width
  · by_cases ha : a.declaration.start ≤ place.start <;> by_cases hb :
      b.declaration.start ≤ place.start <;>
      simp [hscope, ha, hb, Prod.Lex.toLex_lt_toLex] <;> omega
  · simp [hscope]

/-- The nearest declaration is the first of those at the least distance. -/
theorem nearest?_eq_argmin (place : Node) (bindings : List Binding) :
    nearest? place bindings = bindings.argmin (distance place) := by
  induction bindings with
  | nil => rfl
  | cons b rest ih =>
      rw [nearest?, List.argmin_cons, ih]
      cases rest.argmin (distance place) with
      | none => rfl
      | some best =>
          simp only [closer_iff]

/-- What is at a lesser distance has no wider scope. -/
theorem width_le_of_distance_le {a b : Binding} (h : distance place a ≤ distance place b) :
    a.scope.width ≤ b.scope.width := by
  rcases Prod.Lex.toLex_le_toLex.1 h with hlt | ⟨heq, -⟩
  · exact Nat.le_of_lt hlt
  · exact Nat.le_of_eq heq

/-- The declarations of a name whose scopes are around a place. -/
theorem mem_visible_iff :
    b ∈ ((m.bindings.filter (·.1 = name)).map (·.2)).filter (fun b => b.scope.contains place) ↔
      (name, b) ∈ m.bindings ∧ b.scope.contains place = true := by
  simp only [List.mem_filter, List.mem_map, decide_eq_true_eq]
  constructor
  · rintro ⟨⟨⟨found, b⟩, ⟨hmem, rfl⟩, rfl⟩, hplace⟩
    exact ⟨hmem, hplace⟩
  · rintro ⟨hmem, hplace⟩
    exact ⟨⟨(name, b), ⟨hmem, rfl⟩, rfl⟩, hplace⟩

/-- What counts is a declaration around the place, and none around the place is nearer. -/
theorem nearest_of_lookup? (h : m.lookup? name place = some b) :
    (name, b) ∈ m.bindings ∧ b.scope.contains place = true ∧
      ∀ other, (name, other) ∈ m.bindings → other.scope.contains place = true →
        distance place b ≤ distance place other := by
  rw [lookup?, nearest?_eq_argmin] at h
  obtain ⟨hmem, hplace⟩ := mem_visible_iff.1 (List.argmin_mem h)
  exact ⟨hmem, hplace, fun other hother hin =>
    List.le_of_mem_argmin (mem_visible_iff.2 ⟨hother, hin⟩) h⟩

/-- Where a declaration is visible, some declaration counts. -/
theorem exists_lookup? (hb : (name, b) ∈ m.bindings) (hplace : b.scope.contains place = true) :
    ∃ found, m.lookup? name place = some found := by
  rw [← Option.isSome_iff_exists, lookup?, nearest?_eq_argmin, Option.isSome_iff_ne_none, ne_eq,
    List.argmin_eq_none]
  exact List.ne_nil_of_mem (mem_visible_iff.2 ⟨hb, hplace⟩)

/-! ## Scopes -/

/-- The innermost scope around a site is one of the nodes around it, or the file. -/
theorem scopeOf_cases (root : Node) (s : Site) :
    scopeOf root s = root ∨ scopeOf root s ∈ s.ancestors := by
  unfold scopeOf
  cases hfound : s.ancestors.find? (isScope ·.kind) with
  | none => exact .inl rfl
  | some scope => exact .inr (List.mem_of_find?_eq_some hfound)

/-- The scope around a site stands in the script, and the site in its scope. -/
theorem within_scopeOf (hs : s ∈ sites root) :
    root.Within (scopeOf root s) ∧ (scopeOf root s).Within s.node := by
  rcases scopeOf_cases root s with heq | hmem
  · rw [heq]
    exact ⟨.root, Site.within_of_mem_all .root hs⟩
  · rcases Site.within_of_mem_ancestors hs hmem with hnone | hwithin
    · cases hnone
    · exact hwithin

/-- A declaration of one name, if there is the name. -/
theorem parts_of_mem_one {binder value annotation : Option Site} {scope declaration : Node}
    (h : (name, b) ∈ (match binder with
      | none => []
      | some binder => [(binder.text, (⟨declaration, value, annotation, scope⟩ : Binding))])) :
    b.declaration = declaration ∧ b.scope = scope := by
  cases binder with
  | none => simp at h
  | some binder =>
      obtain ⟨-, rfl⟩ := Prod.mk.inj (List.mem_singleton.1 h)
      exact ⟨rfl, rfl⟩

/-- What is bound at a site stands there or right below it, in the innermost scope. An enumeration
belongs to the file. -/
theorem parts_of_mem_bindingsAt (h : (name, b) ∈ bindingsAt root s) : s.node.Within b.declaration ∧
    (b.scope = scopeOf root s ∨ s.kind = "enum_declaration" ∧ b.scope = root) := by
  unfold bindingsAt at h
  dsimp only at h
  split at h
  next =>
    obtain ⟨hdeclaration, hscope⟩ := parts_of_mem_one h
    exact ⟨hdeclaration ▸ .root, .inl hscope⟩
  next =>
    obtain ⟨hdeclaration, hscope⟩ := parts_of_mem_one h
    exact ⟨hdeclaration ▸ .root, .inl hscope⟩
  next =>
    obtain ⟨hdeclaration, hscope⟩ := parts_of_mem_one h
    exact ⟨hdeclaration ▸ .root, .inl hscope⟩
  next =>
    obtain ⟨parameter, hparameter, hmem⟩ := List.mem_flatMap.1 h
    obtain ⟨hdeclaration, hscope⟩ := parts_of_mem_one hmem
    exact ⟨hdeclaration ▸ Site.within_children .root hparameter, .inl hscope⟩
  next hkind =>
    obtain ⟨hdeclaration, hscope⟩ := parts_of_mem_one h
    exact ⟨hdeclaration ▸ .root, .inr ⟨hkind, hscope⟩⟩
  next => simp at h

/-- The bindings of a module are those of its sites. -/
theorem mem_bindings_iff :
    (name, b) ∈ m.bindings ↔ ∃ s ∈ sites m.root, (name, b) ∈ bindingsAt m.root s := by
  rw [m.bindings_eq, List.mem_flatMap]

/-- A declaration stands in its scope, and that is a node of the script. -/
theorem within_scope (hb : (name, b) ∈ m.bindings) :
    m.root.Within b.scope ∧ b.scope.Within b.declaration := by
  obtain ⟨s, hs, hbound⟩ := mem_bindings_iff.1 hb
  obtain ⟨hdeclaration, hscope | ⟨-, hscope⟩⟩ := parts_of_mem_bindingsAt hbound
  · obtain ⟨hwithin, hinner⟩ := within_scopeOf hs
    rw [hscope]
    exact ⟨hwithin, hinner.trans hdeclaration⟩
  · rw [hscope]
    exact ⟨.root, (Site.within_of_mem_all .root hs).trans hdeclaration⟩

/-! ## Parameters -/

/-- `parameterName? s` is the name of a parameter, plain or with a default. -/
def parameterName? (s : Site) : Option Site :=
  match s.kind with
  | "identifier" => some s
  | "assignment_pattern" => named? s "left"
  | "required_parameter" | "optional_parameter" => named? s "pattern"
  | _ => none

/-- `parameterNames f` lists the names in the parameter list of the function at `f`. -/
def parameterNames (f : Site) : List String :=
  (f.children.filter (·.kind = "formal_parameters")).flatMap fun list =>
    list.children.filterMap fun parameter => (parameterName? parameter).map (·.text)

/-- The children of a site of the script are sites of it. -/
theorem mem_sites_of_mem_children (hs : s ∈ sites root) {c : Site} (hc : c ∈ s.children) :
    c ∈ sites root := by
  obtain ⟨n, hn, rfl⟩ := List.mem_map.1 hc
  exact Site.below_mem_all hs (List.mem_filter.1 hn).1

/-- A parameter of a function is declared in it, without a value. -/
theorem exists_binding_of_mem_parameterNames (hf : f ∈ sites m.root)
    (hscope : isScope f.kind = true) (h : name ∈ parameterNames f) :
    ∃ b, (name, b) ∈ m.bindings ∧ b.scope = f.node ∧ b.value = none := by
  obtain ⟨list, hlist, hname⟩ := List.mem_flatMap.1 h
  obtain ⟨hchild, hkind⟩ := List.mem_filter.1 hlist
  have hkind : list.kind = "formal_parameters" := of_decide_eq_true hkind
  obtain ⟨parameter, hparameter, hname⟩ := List.mem_filterMap.1 hname
  obtain ⟨named, hnamed, rfl⟩ := Option.map_eq_some_iff.1 hname
  have hlistSite : list ∈ sites m.root := mem_sites_of_mem_children hf hchild
  have hparameterSite : parameter ∈ sites m.root := mem_sites_of_mem_children hlistSite hparameter
  have hlistAncestors : list.ancestors = f.node :: f.ancestors := by
    obtain ⟨n, -, rfl⟩ := List.mem_map.1 hchild
    rfl
  have hancestors : parameter.ancestors = list.node :: list.ancestors := by
    obtain ⟨n, -, rfl⟩ := List.mem_map.1 hparameter
    rfl
  have hfunction : isScope f.node.kind = true := hscope
  have hlistKind : isScope list.node.kind = false := by
    rw [show list.node.kind = "formal_parameters" from hkind]
    decide
  have hlistScope : scopeOf m.root list = f.node := by
    simp [scopeOf, hlistAncestors, hfunction]
  have hparameterScope : scopeOf m.root parameter = f.node := by
    simp [scopeOf, hancestors, hlistAncestors, hfunction, hlistKind]
  unfold parameterName? at hnamed
  split at hnamed
  next hidentifier =>
    obtain rfl := Option.some.inj hnamed
    refine ⟨⟨parameter.node, none, none, f.node⟩, mem_bindings_iff.2 ⟨list, hlistSite, ?_⟩, rfl,
      rfl⟩
    simp only [bindingsAt, hkind, List.mem_flatMap]
    exact ⟨parameter, hparameter, by simp [hidentifier, hlistScope]⟩
  next hassignment =>
    refine ⟨⟨parameter.node, none, none, f.node⟩, mem_bindings_iff.2 ⟨list, hlistSite, ?_⟩, rfl,
      rfl⟩
    simp only [bindingsAt, hkind, List.mem_flatMap]
    exact ⟨parameter, hparameter, by simp [hassignment, hnamed, hlistScope]⟩
  next hrequired =>
    refine ⟨⟨parameter.node, none, parameter.child? "type", f.node⟩,
      mem_bindings_iff.2 ⟨parameter, hparameterSite, ?_⟩, rfl, rfl⟩
    simp [bindingsAt, hrequired, hnamed, hparameterScope]
  next hoptional =>
    refine ⟨⟨parameter.node, none, parameter.child? "type", f.node⟩,
      mem_bindings_iff.2 ⟨parameter, hparameterSite, ?_⟩, rfl, rfl⟩
    simp [bindingsAt, hoptional, hnamed, hparameterScope]
  next => cases hnamed

/-! ## Names without a value -/

/-- A name whose declaration has no value leads to no text. -/
theorem stringConstant?_of_no_value (hfound : m.lookup? name place = some b)
    (hvalue : b.value = none) (modules : Modules) (hops : Nat) (members : List String) :
    stringConstant? modules hops m name members place = none := by
  cases hops with
  | zero => rw [stringConstant?]
  | succ hops => simp only [stringConstant?, hfound, hvalue]

/-- An identifier has no wrappers. -/
theorem unwrap_identifier (hkind : use.kind = "identifier") : unwrap use = use := by
  have hinner : inner? use = none := by simp [inner?, hkind]
  rw [unwrap]
  split
  · rfl
  next inner hsome => simp [hinner] at hsome

/-- An identifier whose declaration has no value names no event and stands for no object. -/
theorem unresolved_of_no_value (hfound : m.lookup? use.text use.node = some b)
    (hvalue : b.value = none)
    (hkind : use.kind = "identifier") {argument : Site} (hargument : unwrap argument = use)
    (modules : Modules) :
    eventName? modules m argument = none ∧ resolveObject? ⟨modules, m⟩ argument = none := by
  have hliteral : literal? use.node = none := by
    unfold literal?
    rw [show use.node.kind = "identifier" from hkind]
    rfl
  constructor
  · simp only [eventName?, hargument, hliteral, hkind, if_true]
    exact stringConstant?_of_no_value hfound hvalue modules allHops []
  · simp [resolveObject?, hargument, hkind, hfound, hvalue]

/-- The declaration of a name that counts at a place is one of the script whose scope is around the
place: the innermost function around the declaration, or the file. All other scopes around the place
with a declaration of the name are around that one. So a declaration outside a function does not
count in it when the function has a parameter of that name, and the name stays unresolved unless the
declaration that counts has a value. -/
theorem innermost_declaration (h : m.root.LaidOut) (hbytes : use.node.start < use.node.stop)
    (name : String) :
    (∀ b, m.lookup? name use.node = some b →
      (∃ s ∈ sites m.root, (name, b) ∈ bindingsAt m.root s ∧
        (b.scope = scopeOf m.root s ∨ s.kind = "enum_declaration" ∧ b.scope = m.root)) ∧
      b.scope.contains use.node = true ∧
      ∀ other, (name, other) ∈ m.bindings → other.scope.contains use.node = true →
        other.scope.contains b.scope = true) ∧
    ∀ f ∈ sites m.root, isScope f.kind = true → use ∈ f.all → name ∈ parameterNames f →
      ∃ b, m.lookup? name use.node = some b ∧ f.node.contains b.declaration = true ∧
        (b.value = none → ∀ modules,
          (∀ hops members, stringConstant? modules hops m name members use.node = none) ∧
          ∀ argument, unwrap argument = use → use.kind = "identifier" → use.text = name →
            eventName? modules m argument = none ∧
            resolveObject? ⟨modules, m⟩ argument = none) := by
  have hscopes : ∀ b, m.lookup? name use.node = some b → b.scope.contains use.node = true ∧
      ∀ other, (name, other) ∈ m.bindings → other.scope.contains use.node = true →
        other.scope.contains b.scope = true := by
    intro b hb
    obtain ⟨hmem, hplace, hnearest⟩ := nearest_of_lookup? hb
    refine ⟨hplace, fun other hother hin => ?_⟩
    obtain ⟨s, hs, hscope⟩ := Site.exists_mem_all (within_scope hmem).1
    obtain ⟨t, ht, hother'⟩ := Site.exists_mem_all (within_scope hother).1
    rw [← hscope] at hplace ⊢
    rw [← hother'] at hin ⊢
    refine Site.contains_of_width_le h hs ht hbytes hplace hin ?_
    rw [hscope, hother']
    exact width_le_of_distance_le (hnearest other hother (by rwa [← hother']))
  refine ⟨fun b hb => ⟨?_, hscopes b hb⟩, fun f hf hfunction hin hparameter => ?_⟩
  · obtain ⟨s, hs, hbound⟩ := mem_bindings_iff.1 (nearest_of_lookup? hb).1
    exact ⟨s, hs, hbound, (parts_of_mem_bindingsAt hbound).2⟩
  · obtain ⟨own, hown, hscope, -⟩ := exists_binding_of_mem_parameterNames hf hfunction hparameter
    have hwithin : m.root.Within f.node := Site.within_of_mem_all .root hf
    have haround : own.scope.contains use.node = true := by
      rw [hscope, Node.contains_iff]
      refine Node.contains_of_within (fun n hn => ?_) (Site.within_of_mem_all .root hin)
      exact h.holdsChildren_of_within (hwithin.trans hn)
    obtain ⟨b, hb⟩ := exists_lookup? hown haround
    obtain ⟨hmem, -, -⟩ := nearest_of_lookup? hb
    have hinside : f.node.contains b.declaration = true := by
      have houter : f.node.contains b.scope = true := by
        rw [← hscope]
        exact (hscopes b hb).2 own hown haround
      obtain ⟨hscopeWithin, hdeclaration⟩ := within_scope hmem
      have hinner := Node.contains_of_within
        (fun n hn => h.holdsChildren_of_within (hscopeWithin.trans hn)) hdeclaration
      rw [Node.contains_iff] at houter ⊢
      omega
    refine ⟨b, hb, hinside, fun hvalue modules =>
      ⟨stringConstant?_of_no_value hb hvalue modules, ?_⟩⟩
    rintro argument hargument hkind rfl
    exact unresolved_of_no_value hb hvalue hkind hargument modules

/-! ## A parameter and a block -/

/-- `scriptOf lines` is the script with those lines. -/
def scriptOf (lines : List String) : Module :=
  .ofTree ⟨"a.js"⟩ (read .javaScript ⟨(String.join (lines.map (· ++ "\n"))).toUTF8⟩)

/-- `lastName? s` is the last identifier in `s`. -/
def lastName? (s : Site) : Option Site := (s.all.filter (·.kind = "identifier")).getLast?

/-- The last name is an identifier at the site or below. -/
theorem parts_of_lastName? (h : lastName? s = some use) :
    use ∈ s.all ∧ use.kind = "identifier" := by
  have hmem := List.mem_of_getLast? h
  simpa using hmem

/-- A script whose function has a parameter with the name of a constant. -/
def hiddenConstant : Module :=
  scriptOf ["const E = 'Signup';", "function f(E) \x7b analytics.track(E); \x7d"]

/-- `hidingFunction?` is the function of that script. -/
def hidingFunction? : Option Site :=
  (sites hiddenConstant.root).find? (·.kind = "function_declaration")

/-- A constant is hidden by a parameter, and the event has no name. -/
theorem innermost_declaration_of_hiddenConstant :
    hiddenConstant.root.LaidOut ∧ ∃ f ∈ sites hiddenConstant.root, isScope f.kind = true ∧
      "E" ∈ parameterNames f ∧ ∃ use ∈ f.all, use.node.start < use.node.stop ∧
        use.kind = "identifier" ∧ use.text = "E" ∧
        eventName? .untyped hiddenConstant use = none := by
  have hlaid : hiddenConstant.root.LaidOut := by decide +kernel
  have hview : hidingFunction?.map (fun f => (parameterNames f, (lastName? f).map fun use =>
      (use.text, use.node.start, use.node.stop))) = some (["E"], some ("E", 52, 53)) := by
    decide +kernel
  have hvalueless : ∀ entry ∈ hiddenConstant.bindings, entry.1 = "E" →
      hidingFunction?.any (·.node.contains entry.2.declaration) = true →
      entry.2.value.isNone = true := by
    decide +kernel
  cases hf : hidingFunction? with
  | none => simp [hf] at hview
  | some f =>
      cases huse : lastName? f with
      | none => simp [hf, huse] at hview
      | some use =>
          simp only [hf, huse, Option.map_some, Option.some.injEq, Prod.mk.injEq] at hview
          obtain ⟨hnames, htext, hstart, hstop⟩ := hview
          obtain ⟨hin, hkind⟩ := parts_of_lastName? huse
          have hfunction : f.kind = "function_declaration" := by
            simpa using List.find?_some hf
          have hscope : isScope f.kind = true := by rw [hfunction]; decide
          have hmem : f ∈ sites hiddenConstant.root := List.mem_of_find?_eq_some hf
          have hparameter : "E" ∈ parameterNames f := by simp [hnames]
          have hbytes : use.node.start < use.node.stop := by omega
          obtain ⟨b, hb, hinside, hunresolved⟩ :=
            (innermost_declaration hlaid hbytes "E").2 f hmem hscope hin hparameter
          have hvalue : b.value = none := by
            simpa using hvalueless ("E", b) (nearest_of_lookup? hb).1
              rfl (by simpa [hf] using hinside)
          have hunwrap : unwrap use = use := unwrap_identifier hkind
          refine ⟨hlaid, f, hmem, hscope, hparameter, use, hin, hbytes, hkind, htext, ?_⟩
          exact ((hunresolved hvalue .untyped).2 use hunwrap hkind htext).1

/-- A script with a constant in a block, and a use behind it. -/
def blockConstant : Module := scriptOf ["\x7b const E = 'Signup'; \x7d", "analytics.track(E);"]

/-- The constant counts although its block is not around the use. -/
theorem block_constant_visible :
    (∃ use ∈ sites blockConstant.root, ∃ block ∈ sites blockConstant.root,
      use.kind = "identifier" ∧ use.text = "E" ∧ block.kind = "statement_block" ∧
      block.node.contains use.node = false ∧
      (block.children.any fun declaration => declaration.kind = "lexical_declaration" &&
        (blockConstant.lookup? use.text use.node).any fun b =>
          declaration.node.contains b.declaration) = true ∧
      eventName? .untyped blockConstant use = some "Signup") ∧
    (events .untyped [] blockConstant).map (·.name) = ["Signup"] := by
  decide +kernel

end Script.Module

end TrackingPlan
