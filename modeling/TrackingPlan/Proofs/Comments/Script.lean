import TrackingPlan.Proofs.Comments.Tree
import TrackingPlan.Proofs.Likeness.Calls

/-!
# Comments in scripts

A script with more comments in it is read like the script without them, as `Module.Twin.like` says:
names are declared by the same bindings, by `rel_lookup?`, and there are the same calls in it.
`content_events` is the statement on the events, with the functions around their calls.
-/

namespace TrackingPlan.Script

open Node (Insertion)

/-- What the reading of scripts relies on. -/
def reading : Node.Reading where
  top := "program"
  scopes := ["program", "function_declaration", "generator_function_declaration",
    "function_expression", "function", "generator_function", "arrow_function",
    "method_definition"]
  firsts := ["parenthesized_expression", "as_expression", "satisfies_expression",
    "non_null_expression", "computed_property_name", "spread_element", "namespace_import",
    "type_annotation", "parenthesized_type", "readonly_type", "literal_type", "array_type"]

variable {root root' n n' : Node} {R : Node → Node → Prop} {s s' : Site}

/-! ## Nodes -/

section Nodes

variable (h : Insertion reading root root' R)
include h

/-- All that the reading of a node looks at has twins. -/
theorem open_twin (hn : R n n') : Open R n n' where
  self := hn
  child? := h.child? hn
  children := h.namedChildren hn
  mark := fun mark hmark => by
    refine (h.children hn).any_eq (fun _ _ hc => h.isKind hc mark) fun c hc => ?_
    -- marks are punctuation and keywords, which no comment can stand for
    rw [hc.kind]
    exact decide_eq_false hmark.symm

/-- Commented twins are alike in all that scripts are read by. -/
theorem likeness_twin : Likeness R where
  kind := h.kind
  opened := fun hn _ => open_twin h hn
  part := fun hn _ => (h.child? hn _).imp fun _ _ => open_twin h
  listed := fun hn _ => (h.child? hn _).imp fun _ _ hlist =>
    (h.namedChildren hlist).imp fun _ _ => open_twin h
  first := fun {n _} hn hkind =>
    h.first hn ((show ∀ kind ∈ firstKinds, kind ∈ reading.firsts by decide) n.kind hkind)
  word := fun hn _ => h.text hn
  texts := fun hn _ => h.childText? hn _
  template := fun hn _ _ => h.text hn
  callee := fun hn _ name _ => by rw [isCallOf, isCallOf, h.kind hn, h.childText? hn]
  pattern := fun _ hp _ _ => by rw [h.childText? hp]

omit h in
/-- Sites that are twins are alike. -/
theorem like_of_twin (h : Insertion reading root root' R) (hs : s.Twin R s') : s.Like R s' :=
  ⟨hs.node, hs.ancestors.imp fun _ _ => (likeness_twin h).around⟩

end Nodes

/-! ## Declarations -/

/-- Related bindings, which neither is the whole script. -/
structure Binding.Twin (root : Node) (R : Node → Node → Prop) (b b' : Binding) : Prop where
  declaration : R b.declaration b'.declaration
  ne_root : b.declaration ≠ root
  value : Option.Rel (Site.Twin R) b.value b'.value
  annotation : Option.Rel (Site.Twin R) b.annotation b'.annotation
  scope : R b.scope b'.scope
  isScope : b.scope.kind ∈ reading.scopes

namespace Module

section Declarations

variable (h : Insertion reading root root' R)
include h

/-- The scope around a site has a twin. -/
theorem rel_scopeOf (hs : s.Twin R s') : R (scopeOf root s) (scopeOf root' s') := by
  refine (hs.ancestors.find? fun a a' ha => ?_).getD h.rooted
  rw [h.kind ha]

/-- The file is a scope. -/
theorem isScope_root : root.kind ∈ reading.scopes := by
  rw [h.top]
  decide

/-- The scope around a site is a function or the file. -/
theorem isScope_scopeOf (s : Site) : (scopeOf root s).kind ∈ reading.scopes := by
  unfold scopeOf
  cases hfound : s.ancestors.find? (isScope ·.kind) with
  | none => exact isScope_root h
  | some scope =>
      have hscope := List.find?_some hfound
      simpa [isScope, reading] using hscope

/-- The name in a role has a twin. -/
theorem rel_named? (hs : s.Twin R s') (role : String) :
    Option.Rel (Site.Twin R) (named? s role) (named? s' role) :=
  (h.childAt? hs role).filter fun _ _ hc => h.isKindAt hc _

/-- A node of a kind that no file has is not the root. -/
theorem ne_root_of_kind {kind : String} (hkind : s.kind = kind) (hne : kind ≠ "program") :
    s.node ≠ root :=
  h.ne_root fun htop => hne (hkind.symm.trans htop)

/-- The parts of one binding are those of the other. -/
theorem rel_one {name name' value value' annotation annotation' : Option Site} {scope scope' : Node}
    (hs : s.Twin R s') (hne : s.node ≠ root) (hvalue : Option.Rel (Site.Twin R) value value')
    (htyped : Option.Rel (Site.Twin R) annotation annotation') (hscope : R scope scope')
    (hisScope : scope.kind ∈ reading.scopes) : Option.Rel (Site.Twin R) name name' →
    List.Forall₂ (Keyed (Binding.Twin root R))
      (match name with
        | none => []
        | some name => [(name.text, ⟨s.node, value, annotation, scope⟩)])
      (match name' with
        | none => []
        | some name => [(name.text, ⟨s'.node, value', annotation', scope'⟩)]) := by
  intro hname
  refine hname.elim .nil fun name name' hname => .cons ⟨h.textAt hname, ?_⟩ .nil
  exact ⟨hs.node, hne, hvalue, htyped, hscope, hisScope⟩

/-- The bindings at a site have twins. -/
theorem rel_bindingsAt (hs : s.Twin R s') :
    List.Forall₂ (Keyed (Binding.Twin root R)) (bindingsAt root s) (bindingsAt root' s') := by
  have hscope := rel_scopeOf h hs
  have hisScope := isScope_scopeOf h s
  unfold bindingsAt
  rw [← h.kindAt hs]
  dsimp only
  split
  next hkind =>
    exact rel_one h hs (ne_root_of_kind h hkind (by decide)) (h.childAt? hs "value")
      (h.childAt? hs "type") hscope hisScope (rel_named? h hs "name")
  next hkind =>
    exact rel_one h hs (ne_root_of_kind h hkind (by decide)) .none (h.childAt? hs "type") hscope
      hisScope (rel_named? h hs "pattern")
  next hkind =>
    exact rel_one h hs (ne_root_of_kind h hkind (by decide)) .none (h.childAt? hs "type") hscope
      hisScope (rel_named? h hs "pattern")
  next =>
    refine List.rel_flatMap (h.childrenAt hs) fun parameter parameter' hparameter => ?_
    rw [← h.kindAt hparameter]
    by_cases hidentifier : parameter.kind = "identifier"
    · simp only [hidentifier]
      exact rel_one h hparameter (ne_root_of_kind h hidentifier (by decide)) .none .none
        hscope hisScope
        (.some hparameter)
    · by_cases hpattern : parameter.kind = "assignment_pattern"
      · simp only [hpattern]
        exact rel_one h hparameter (ne_root_of_kind h hpattern (by decide)) .none .none
          hscope hisScope
          (rel_named? h hparameter "left")
      · simp only
        exact .nil
  next hkind =>
    exact rel_one h hs (ne_root_of_kind h hkind (by decide)) (.some hs) .none h.rooted
      (isScope_root h) (h.childAt? hs "name")
  next => exact .nil

/-- The types that a site declares have twins. -/
theorem rel_typesAt (hs : s.Twin R s') :
    List.Forall₂ (Keyed R) (typesAt s) (typesAt s') := by
  unfold typesAt
  rw [h.kindAt hs, h.childTextAt? hs]
  split
  case h_1 | h_2 | h_3 =>
    cases s'.childText? "name" with
    | none => exact .nil
    | some name => exact .cons ⟨rfl, hs.node⟩ .nil
  case h_4 => exact .nil

/-- An import clause imports the same in both files. -/
theorem importsIn_twin (hn : R n n') (specifier : String) :
    importsIn specifier n = importsIn specifier n' := by
  unfold importsIn
  rw [h.kind hn, h.text hn]
  split
  next => rfl
  next =>
    refine ((h.namedChildren hn).filter fun _ _ hc => h.isKind hc _).flatMap_eq
      fun entry entry' hentry => ?_
    rw [h.childText? hentry, h.childText? hentry]
  next hkind =>
    refine (h.first hn (by rw [h.kind hn, hkind]; decide)).elim rfl fun name name' hname => ?_
    dsimp only
    rw [h.text hname]
  next => rfl

/-- A node imports the same in both files. -/
theorem importsAt_twin (hn : R n n') : importsAt n = importsAt n' := by
  unfold importsAt
  rw [h.kind hn, h.childText? hn]
  split
  next =>
    refine ((h.namedChildren hn).filter fun _ _ hc => h.isKind hc _).flatMap_eq
      fun clause clause' hclause => ?_
    exact (h.namedChildren hclause).flatMap_eq fun _ _ hc => importsIn_twin h hc _
  next => rfl

/-- A node passes on the same in both files. -/
theorem reexportsAt_twin (hn : R n n') : reexportsAt n = reexportsAt n' := by
  unfold reexportsAt
  rw [h.kind hn, h.childText? hn]
  split
  next =>
    have hclause := (h.namedChildren hn).find? fun _ _ hc => h.isKind hc "export_clause"
    refine hclause.elim rfl fun clause clause' hclause => ?_
    refine (h.namedChildren hclause).flatMap_eq fun entry entry' hentry => ?_
    rw [h.childText? hentry, h.childText? hentry]
  next => rfl

end Declarations

/-- Related scripts: one has more comments than the other. -/
structure Twin (R : Node → Node → Prop) (m m' : Module) : Prop where
  path : m.path = m'.path
  insertion : Insertion reading m.root m'.root R

/-- The second script is the first one with more comments in it. -/
def Commented (m m' : Module) : Prop := ∃ R, m.Twin R m'

section Scripts

variable {m m' : Module} (hm : m.Twin R m')
include hm

/-- The bindings of the two modules are twins. -/
theorem rel_bindings :
    List.Forall₂ (Keyed (Binding.Twin m.root R)) m.bindings m'.bindings := by
  rw [m.bindings_eq, m'.bindings_eq]
  refine (hm.insertion.interleaved_all hm.insertion.twin_root).flatMap
    (fun s s' hs => rel_bindingsAt hm.insertion hs) fun s hs => ?_
  rw [bindingsAt, show s.kind = "comment" from hs.kind]
  rfl

/-- The types of the two modules are twins. -/
theorem rel_types : List.Forall₂ (Keyed R) m.types m'.types := by
  rw [m.types_eq, m'.types_eq]
  refine (hm.insertion.interleaved_all hm.insertion.twin_root).flatMap
    (fun s s' hs => rel_typesAt hm.insertion hs) fun s hs => ?_
  rw [typesAt, show s.kind = "comment" from hs.kind]
  rfl

/-- Both modules import the same. -/
theorem imports_twin : m.imports = m'.imports := by
  rw [m.imports_eq, m'.imports_eq, ← List.forall₂_eq_eq_eq]
  refine (hm.insertion.interleaved_all hm.insertion.twin_root).flatMap (fun s s' hs => ?_)
    fun s hs => ?_
  · rw [importsAt_twin hm.insertion hs.node, List.forall₂_eq_eq_eq]
  · rw [importsAt, hs.kind]
    rfl

/-- Both modules pass on the same. -/
theorem reexports_twin : m.reexports = m'.reexports := by
  rw [m.reexports_eq, m'.reexports_eq, ← List.forall₂_eq_eq_eq]
  refine (hm.insertion.interleaved_all hm.insertion.twin_root).flatMap (fun s s' hs => ?_)
    fun s hs => ?_
  · rw [reexportsAt_twin hm.insertion hs.node, List.forall₂_eq_eq_eq]
  · rw [reexportsAt, hs.kind]
    rfl

/-- The declaration of a type has a twin. -/
theorem rel_type? (name : String) : Option.Rel R (m.type? name) (m'.type? name) :=
  rel_lookup (List.rel_reverse (rel_types hm)) name

end Scripts

/-! ### Names at places -/

/-- Related places: parts of the scripts, or both of the scripts as a whole. -/
structure IsPlace (root root' : Node) (R : Node → Node → Prop) (n n' : Node) : Prop where
  rel : R n n'
  whole : n = root → n' = root'

/-- From the start of a script on, the first declaration is the nearest. -/
theorem isPreferred_of_le {place : Node} {a b : Binding} (ha : place.start ≤ a.declaration.start)
    (hb : place.start ≤ b.declaration.start) :
    isPreferred place a b = decide (a.declaration.start < b.declaration.start) := by
  have hbefore (x : Binding) (hx : place.start ≤ x.declaration.start) :
      x.declaration.start ≤ place.start ↔ x.declaration.start = place.start := by omega
  simp only [isPreferred, hbefore a ha, hbefore b hb]
  by_cases hastart : a.declaration.start = place.start <;>
    by_cases hbstart : b.declaration.start = place.start <;>
    simp [hastart, hbstart] <;> omega

section Places

variable (h : Insertion reading root root' R) {a a' b b' : Binding} {place place' : Node}
  (ha : Binding.Twin root R a a') (hb : Binding.Twin root R b b')
  (hplace : IsPlace root root' R place place')
include h ha hb hplace

/-- Of two declarations that stand before or behind a place, the same is preferred in both files. -/
theorem isPreferred_twin : isPreferred place a b = isPreferred place' a' b' := by
  have hlt := h.lt_iff ha.declaration hb.declaration ha.ne_root hb.ne_root
  by_cases hwhole : place = root
  · -- the script as a whole starts with its first comment, if it has one
    obtain rfl := hplace.whole hwhole
    subst hwhole
    have hopen := h.opens ha.declaration
    have hopen' := h.opens hb.declaration
    rw [isPreferred_of_le hopen.1 hopen'.1, isPreferred_of_le hopen.2 hopen'.2]
    simp only [hlt]
  · have hgt := h.lt_iff hb.declaration ha.declaration hb.ne_root ha.ne_root
    have hbeforeA := h.starts ha.declaration hplace.rel ha.ne_root hwhole
    have hbeforeB := h.starts hb.declaration hplace.rel hb.ne_root hwhole
    simp only [isPreferred, hlt, hgt, hbeforeA, hbeforeB]

/-- Of two declarations whose scopes are around a place, the same is closer in both files. -/
theorem closer_twin (hain : a.scope.contains place = true) (hbin : b.scope.contains place = true) :
    closer place a b = closer place' a' b' := by
  have hnarrower := h.narrower ha.scope hb.scope hplace.rel ha.isScope hb.isScope hain hbin
  have hwider := h.narrower hb.scope ha.scope hplace.rel hb.isScope ha.isScope hbin hain
  have hwidth : a.scope.width = b.scope.width ↔ a'.scope.width = b'.scope.width := by omega
  rw [closer_eq, closer_eq, isPreferred_twin h ha hb hplace]
  simp only [ne_eq, hwidth, hnarrower]

end Places

/-- A name is declared by the same binding at related places. -/
theorem rel_lookup? {m m' : Module} (hm : m.Twin R m') {place place' : Node}
    (hplace : IsPlace m.root m'.root R place place') (name : String) :
    Option.Rel (Binding.Twin m.root R) (m.lookup? name place) (m'.lookup? name place') := by
  have h := hm.insertion
  have hnamed : List.Forall₂ (Binding.Twin m.root R)
      ((m.bindings.filter (·.1 = name)).map (·.2)) ((m'.bindings.filter (·.1 = name)).map (·.2)) :=
    List.rel_map (fun _ _ hb => hb.value)
      ((rel_bindings hm).filter fun _ _ hb => by rw [hb.name])
  have hvisible := hnamed.filter (p := fun b => b.scope.contains place)
    (q := fun b => b.scope.contains place') fun _ _ hb => h.contains hb.scope hplace.rel hb.isScope
  -- bindings are compared only when their scopes contain the place
  have hnearest := rel_nearest?
    (T := fun b b' => Binding.Twin m.root R b b' ∧ b.scope.contains place = true)
    (fun a a' b b' ha hb => closer_twin h ha.1 hb.1 hplace ha.2 hb.2)
    (hvisible.attach.imp fun b b' ⟨hmem, hb⟩ => ⟨hb, (List.mem_filter.1 hmem).2⟩)
  exact hnearest.imp fun _ _ hb => hb.1

/-- A commented script is read like the script without the comments. -/
theorem Twin.like {m m' : Module} (hm : m.Twin R m') : m.Like R m' := by
  have h := hm.insertion
  have hbinding {b b' : Binding} (hb : Binding.Twin m.root R b b') : Binding.Like R b b' :=
    ⟨hb.value.imp fun _ _ => like_of_twin h, hb.annotation.imp fun _ _ => like_of_twin h⟩
  have hroot : IsPlace m.root m'.root R m.root m'.root := ⟨h.rooted, fun _ => rfl⟩
  exact
    { path := hm.path
      tree := likeness_twin h
      calls := (h.sitesOfKind h.twin_root (by decide)).imp fun _ _ => like_of_twin h
      imports := imports_twin hm
      reexports := reexports_twin hm
      type? := rel_type? hm
      labels := fun hn _ => .inr (.inr (h.text hn))
      lookup? := fun hn hused => by
        have hplace : IsPlace m.root m'.root R _ _ :=
          ⟨hn, fun hwhole => absurd h.top (hwhole ▸ ne_program_of_usedName? hused)⟩
        exact (rel_lookup? hm hplace _).imp fun _ _ => hbinding
      exported := fun name => .inl ((rel_lookup? hm hroot name).imp fun _ _ => hbinding) }

end Module

/-- What related scripts see of other modules is related, too. -/
structure Modules.Twin (modules others : Modules) : Prop where
  typed : modules.typed = others.typed
  imported : ∀ path specifier, Option.Rel Module.Commented (modules.imported path specifier)
    (others.imported path specifier)
  declaring : ∀ name, Option.Rel Module.Commented (modules.declaring name) (others.declaring name)

/-- Modules that are twins are alike. -/
theorem Modules.Twin.like {modules others : Modules} (h : modules.Twin others) :
    modules.Like others where
  typed := h.typed
  imported := fun path specifier => (h.imported path specifier).imp fun _ _ ⟨R, hm⟩ => ⟨R, hm.like⟩
  declaring := fun name => (h.declaring name).imp fun _ _ ⟨R, hm⟩ => ⟨R, hm.like⟩

/-! ## The function around a call -/

section Context

variable (h : Insertion reading root root' R)
include h

/-- A function has the same name in both files. -/
theorem functionName?_twin (hn : R n n') : functionName? n = functionName? n' := by
  have hbinds (role : String) : (n.child? role).any isFunction = (n'.child? role).any isFunction :=
    (h.child? hn role).any_eq fun _ _ hc => by rw [isFunction, isFunction, h.kind hc]
  have hname : ((n.child? "name").filter (·.kind = "identifier")).map Node.text =
      ((n'.child? "name").filter (·.kind = "identifier")).map Node.text :=
    ((h.child? hn "name").filter fun _ _ hc => h.isKind hc _).map_eq fun _ _ => h.text
  unfold functionName?
  simp only [h.kind hn, h.childText? hn, hbinds, hname]

/-- A callback stands in the same hook in both files. -/
theorem hookName?_twin (hn : R n n') : hookName? n = hookName? n' := by
  unfold hookName?
  rw [h.kind hn]
  split
  · refine (h.child? hn "function").elim rfl fun callee callee' hcallee => ?_
    dsimp only
    rw [h.kind hcallee, h.text hcallee, h.childText? hcallee]
  · rfl

/-- The context that is found among the nodes around is the same in both files. -/
theorem contextFrom_twin {ancestors ancestors' : List Node}
    (hancestors : List.Forall₂ R ancestors ancestors')
    (hook : Option String) : contextFrom hook ancestors = contextFrom hook ancestors' := by
  induction hancestors generalizing hook with
  | nil => rfl
  | cons ha _ ih => rw [contextFrom, contextFrom, hookName?_twin h ha, functionName?_twin h ha, ih]

end Context

/-! ## Events -/

/-- What an event says is what its call sends, and the function around the call. -/
theorem content_event? (scope : Scope) (signatures : List Signature) (call : Site) :
    (event? scope signatures call).map Event.content =
      ((event? scope signatures call).map Event.sent).map
      fun (name, provider, properties) => (name, provider, properties, context call) := by
  unfold event?
  cases (call.node.child? "function").bind segments? with
  | none => rfl
  | some callee =>
      dsimp only
      simp only [Option.map_map]
      rfl

/-- More comments in a script, and in the modules that it sees, leave what its calls send as it was,
but for comments in front of what is read first. -/
theorem content_events {modules others : Modules} {m m' : Module} (hmodules : modules.Twin others)
    (hm : m.Commented m') (signatures : List Signature) :
    (events modules signatures m).map Event.content =
      (events others signatures m').map Event.content := by
  obtain ⟨R, hm⟩ := hm
  have h := hm.insertion
  have hscope : Scope.Like R ⟨modules, m⟩ ⟨others, m'⟩ := ⟨hmodules.like, hm.like⟩
  have hcalls : List.Forall₂ (Site.Twin R) (calls m.root) (calls m'.root) :=
    h.sitesOfKind h.twin_root (by decide)
  rw [events, events, List.map_filterMap, List.map_filterMap]
  refine hcalls.attach.filterMap_eq fun s s' hs => ?_
  obtain ⟨hmem, hs⟩ := hs
  have hkind : s.kind = "call_expression" := by simpa using (List.mem_filter.1 hmem).2
  have hcontext : context s = context s' := contextFrom_twin h hs.ancestors none
  rw [content_event?, content_event?, hcontext, sent_event?_like hscope (like_of_twin h hs) hkind]

end TrackingPlan.Script
