import TrackingPlan.Proofs.Within
import TrackingPlan.Script.Calls

/-!
# Where scripts take event names from

Every way from an expression to an event name ends at a literal text, in the script itself or in a
module that imports and exports lead to. `hopsSpell` is the induction over the hops of such a way,
and `spells_of_mem_events` the statement on the events of a script.
-/

namespace TrackingPlan.Script

/-! ## Literals -/

/-- Literal texts: strings, and templates without substitutions. -/
inductive IsText (n : Node) : Prop where
  | string (h : n.kind = "string")
  | template (h : n.kind = "template_string")
      (hplain : ∀ c ∈ n.namedChildren, c.kind ≠ "template_substitution")

/-- A script spells a text when that stands between the quotes of a literal in it. -/
abbrev Spells (root : Node) (text : String) : Prop :=
  root.Spells IsText (some ∘ Text.unquote) text

variable {root n : Node} {s : Site} {text : String}

/-- What is read off a literal is spelled there. -/
theorem spells_of_literal (hn : root.Within n) (h : literal? n = some text) : Spells root text := by
  unfold literal? at h
  split at h
  next hkind =>
    cases h
    exact ⟨n, hn, .string hkind, rfl, Text.unquote_infix n.text⟩
  next hkind =>
    split at h
    · cases h
    next hplain =>
      cases h
      refine ⟨n, hn, .template hkind fun c hc hsubstitution => hplain ?_, rfl,
        Text.unquote_infix n.text⟩
      exact List.any_eq_true.2 ⟨c, hc, decide_eq_true hsubstitution⟩
  · cases h

section Inherited

variable {Q : Site → Prop} (hQ : Site.Inherited Q)
include hQ

/-- What is inherited by children holds of the arguments of a call. -/
theorem inherited_argumentsOf {argument : Site} (hs : Q s) (h : argument ∈ argumentsOf s) :
    Q argument := by
  unfold argumentsOf at h
  split at h
  · cases h
  next list hlist =>
    split at h
    · exact hQ.children (hQ.child? hs hlist) h
    · cases h

/-- What is inherited by children holds of what stands inside a wrapper. -/
theorem inherited_inner? {inner : Site} (hs : Q s) (h : inner? s = some inner) : Q inner := by
  unfold inner? at h
  split at h
  · exact hQ.first? hs h
  · exact hQ.first? hs h
  · exact hQ.first? hs h
  · exact hQ.first? hs h
  · split at h
    · exact inherited_argumentsOf hQ hs (List.mem_of_mem_head? h)
    · cases h
  · cases h

/-- What is inherited gets behind parentheses and type assertions. -/
theorem inherited_unwrap (hs : Q s) : Q (unwrap s) := by
  induction s using unwrap.induct with
  | case1 s hinner =>
      rw [unwrap, hinner]
      exact hs
  | case2 s inner hinner ih =>
      rw [unwrap, hinner]
      exact ih (inherited_inner? hQ hs hinner)

end Inherited

/-- The arguments of a call stand in the script. -/
theorem within_argumentsOf {argument : Site} (hs : root.Within s.node)
    (h : argument ∈ argumentsOf s) : root.Within argument.node :=
  inherited_argumentsOf (Site.inherited_within root) hs h

/-- What stands behind parentheses and type assertions is part of the same tree. -/
theorem within_unwrap (hs : root.Within s.node) : root.Within (unwrap s).node :=
  inherited_unwrap (Site.inherited_within root) hs

/-- The member of an object stands in the script. -/
theorem within_member? {object member : Site} {key : String} (hs : root.Within object.node)
    (h : member? object key = some member) : root.Within member.node := by
  obtain ⟨entry, hentry, hvalue⟩ := List.exists_of_findSome?_eq_some h
  have hwithin := Site.within_children hs hentry
  unfold memberValue? at hvalue
  split at hvalue
  · split at hvalue
    · cases hvalue
    · split at hvalue
      · exact Site.within_child? hwithin hvalue
      · cases hvalue
  · split at hvalue
    · cases hvalue
      exact hwithin
    · cases hvalue
  · cases hvalue

/-- The text of a member of an enumeration is that of its initializer. -/
theorem spells_of_enumMember {member : String} (hn : root.Within n)
    (h : enumMember? n member = some text) : Spells root text := by
  unfold enumMember? at h
  split at h
  · cases h
  next body hbody =>
    obtain ⟨entry, hentry, hvalue⟩ := List.exists_of_findSome?_eq_some h
    split at hvalue
    · obtain ⟨initial, hinitial, hliteral⟩ := Option.bind_eq_some_iff.1 hvalue
      have hwithin := (hn.child? hbody).namedChildren hentry
      exact spells_of_literal (hwithin.child? hinitial) hliteral
    · cases hvalue

/-! ## Declarations -/

namespace Module

variable {m : Module}

/-- `specifiers m` lists the specifiers of the imports of `m` and of its exports from other
modules. -/
def specifiers (m : Module) : List String :=
  m.imports.map (·.2.specifier) ++ m.reexports.map (·.specifier)

/-- The nearest declaration is one of the declarations. -/
theorem mem_of_nearest? {place : Node} {bindings : List Binding} {b : Binding}
    (h : nearest? place bindings = some b) : b ∈ bindings := by
  induction bindings with
  | nil => cases h
  | cons first rest ih =>
      unfold nearest? at h
      split at h
      · cases h
        exact List.mem_cons_self
      next best hbest =>
        split at h
        · cases h
          exact List.mem_cons_of_mem _ (ih hbest)
        · cases h
          exact List.mem_cons_self

/-- The value and the annotation of a binding inherit from the site that makes the binding. -/
theorem inherited_of_mem_bindingsAt {Q : Site → Prop} (hQ : Site.Inherited Q) {name : String}
    {b : Binding} {part : Site} (hs : Q s) (h : (name, b) ∈ bindingsAt root s)
    (hpart : b.value = some part ∨ b.annotation = some part) : Q part := by
  unfold bindingsAt at h
  split at h
  · dsimp only at h
    split at h
    · cases h
    · cases List.mem_singleton.1 h
      exact hpart.elim (hQ.child? hs) (hQ.child? hs)
  · dsimp only at h
    split at h
    · cases h
    · cases List.mem_singleton.1 h
      exact hpart.elim (fun hvalue => by cases hvalue) (hQ.child? hs)
  · dsimp only at h
    split at h
    · cases h
    · cases List.mem_singleton.1 h
      exact hpart.elim (fun hvalue => by cases hvalue) (hQ.child? hs)
  · obtain ⟨parameter, -, h⟩ := List.mem_flatMap.1 h
    dsimp only at h
    split at h
    · cases h
    · cases List.mem_singleton.1 h
      rcases hpart with hpart | hpart <;> cases hpart
  · dsimp only at h
    split at h
    · cases h
    · cases List.mem_singleton.1 h
      rcases hpart with hpart | hpart <;> cases hpart
      exact hs
  · cases h

/-- The value and the annotation of a visible declaration are sites of the module. -/
theorem mem_sites_of_lookup? {name : String} {place : Node} {b : Binding} {part : Site}
    (h : m.lookup? name place = some b) (hpart : b.value = some part ∨ b.annotation = some part) :
    part ∈ sites m.root := by
  obtain ⟨hmem, -⟩ := List.mem_filter.1 (mem_of_nearest? h)
  obtain ⟨⟨key, found⟩, hentry, rfl⟩ := List.mem_map.1 hmem
  obtain ⟨hentry, -⟩ := List.mem_filter.1 hentry
  rw [m.bindings_eq] at hentry
  obtain ⟨place, hplace, hentry⟩ := List.mem_flatMap.1 hentry
  exact inherited_of_mem_bindingsAt (Site.inherited_mem_all m.root) hplace hentry hpart

/-- The value of a visible declaration is part of the module. -/
theorem within_lookup? {name : String} {place : Node} {b : Binding} {value : Site}
    (h : m.lookup? name place = some b) (hvalue : b.value = some value) :
    m.root.Within value.node :=
  Site.within_of_mem_all .root (mem_sites_of_lookup? h (.inl hvalue))

/-- The declaration of a type is part of the module. -/
theorem within_type? {name : String} {declaration : Node} (h : m.type? name = some declaration) :
    m.root.Within declaration := by
  have hmem := List.mem_reverse.1 (Named.mem_of_lookup h)
  rw [m.types_eq] at hmem
  obtain ⟨s, hs, hmem⟩ := List.mem_flatMap.1 hmem
  have hdeclaration : declaration = s.node := by
    unfold typesAt at hmem
    split at hmem
    · split at hmem
      · cases hmem
      · exact (Prod.mk.inj (List.mem_singleton.1 hmem)).2
    · split at hmem
      · cases hmem
      · exact (Prod.mk.inj (List.mem_singleton.1 hmem)).2
    · split at hmem
      · cases hmem
      · exact (Prod.mk.inj (List.mem_singleton.1 hmem)).2
    · cases hmem
  rw [hdeclaration]
  exact Site.within_of_mem_all .root hs

/-- The specifier of an import is one of the module. -/
theorem specifier_mem_of_import? {name : String} {import_ : Import}
    (h : m.import? name = some import_) : import_.specifier ∈ m.specifiers := by
  have hmem := List.mem_reverse.1 (Named.mem_of_lookup h)
  exact List.mem_append_left _ (List.mem_map_of_mem (f := fun entry => entry.2.specifier) hmem)

/-- The specifier of a re-export is one of the module. -/
theorem specifier_mem_of_reexport {passed : Reexport} (h : passed ∈ m.reexports) :
    passed.specifier ∈ m.specifiers :=
  List.mem_append_right _ (List.mem_map_of_mem h)

end Module

/-! ## Modules that are reached -/

/-- The modules that a chain of imports and exports leads to from `m`. -/
inductive Modules.Reaches (modules : Modules) (m : Module) : Module → Prop where
  | refl : Reaches modules m m
  | step {between target : Module} {specifier : String} (hbetween : Reaches modules m between)
      (hmem : specifier ∈ between.specifiers)
      (htarget : modules.imported between.path specifier = some target) : Reaches modules m target

/-- A module that imports nothing reaches itself only. -/
theorem Modules.Reaches.eq_of_imported {modules : Modules} {m target : Module}
    (hnone : ∀ path specifier, modules.imported path specifier = none)
    (h : modules.Reaches m target) : target = m := by
  cases h with
  | refl => rfl
  | step _ _ htarget => simp [hnone] at htarget

/-- `SpellsFrom modules m text` holds when `m` or a module that it reaches spells `text`. -/
def SpellsFrom (modules : Modules) (m : Module) (text : String) : Prop :=
  ∃ target, modules.Reaches m target ∧ Spells target.root text

variable {modules : Modules} {m : Module}

/-- What the script spells is spelled from the module. -/
theorem SpellsFrom.of_spells (h : Spells m.root text) : SpellsFrom modules m text :=
  ⟨m, .refl, h⟩

/-- What an imported module reaches is reached by the importing one. -/
theorem SpellsFrom.of_imported {target : Module} {specifier : String}
    (hmem : specifier ∈ m.specifiers) (htarget : modules.imported m.path specifier = some target)
    (h : SpellsFrom modules target text) : SpellsFrom modules m text := by
  obtain ⟨last, hreaches, hspells⟩ := h
  -- the new hop comes first in the chain, so the chain is rebuilt from its start
  refine ⟨last, ?_, hspells⟩
  clear hspells
  induction hreaches with
  | refl => exact .step .refl hmem htarget
  | step _ hmem' htarget' ih => exact .step ih hmem' htarget'

/-! ## Names that lead to literals -/

/-- Within so many hops, names and expressions lead to nothing but spelled texts. -/
structure HopsSpell (modules : Modules) (hops : Nat) : Prop where
  constant : ∀ {m : Module} {name : String} {members : List String} {place : Node} {text : String},
    stringConstant? modules hops m name members place = some text → SpellsFrom modules m text
  value : ∀ {m : Module} {value : Site} {members : List String} {text : String},
    m.root.Within value.node → stringIn? modules hops m value members = some text →
      SpellsFrom modules m text
  exported : ∀ {m : Module} {name : String} {members : List String} {text : String},
    exportedString? modules hops m name members = some text → SpellsFrom modules m text

variable {hops : Nat} {members : List String}

/-- A name leads to the value of its declaration, or to what another module exports. -/
theorem HopsSpell.constant_succ (h : HopsSpell modules hops) {name : String} {place : Node}
    (hname : stringConstant? modules (hops + 1) m name members place = some text) :
    SpellsFrom modules m text := by
  unfold stringConstant? at hname
  split at hname
  next binding hbinding =>
    split at hname
    · cases hname
    next value hvalue => exact h.value (Module.within_lookup? hbinding hvalue) hname
  next =>
    split at hname
    · cases hname
    next import_ himport =>
      split at hname
      · cases hname
      next target htarget =>
        have hmem := Module.specifier_mem_of_import? himport
        split at hname
        · exact .of_imported hmem htarget (h.exported hname)
        · exact .of_imported hmem htarget (h.exported hname)
        · cases hname

/-- An expression leads on to a name, into an object or an enumeration, or is a literal. -/
theorem HopsSpell.value_succ (h : HopsSpell modules hops) {value : Site}
    (hwithin : m.root.Within value.node)
    (hvalue : stringIn? modules (hops + 1) m value members = some text) :
    SpellsFrom modules m text := by
  have hunwrapped := within_unwrap hwithin
  -- names first, then what needs no member, then a member of an object or an enumeration
  unfold stringIn? at hvalue
  dsimp only at hvalue
  split at hvalue
  · exact h.constant hvalue
  · split at hvalue
    · split at hvalue
      · exact h.constant hvalue
      · cases hvalue
    · split at hvalue
      · exact .of_spells (spells_of_literal hunwrapped hvalue)
      · split at hvalue
        · split at hvalue
          · cases hvalue
          next member hmember => exact h.value (within_member? hunwrapped hmember) hvalue
        · split at hvalue
          · exact .of_spells (spells_of_enumMember hunwrapped hvalue)
          · cases hvalue

/-- An export is a name of the module itself, or passed on from another module. -/
theorem HopsSpell.exported_succ (h : HopsSpell modules hops) {name : String}
    (hname : exportedString? modules (hops + 1) m name members = some text) :
    SpellsFrom modules m text := by
  unfold exportedString? at hname
  split at hname
  · exact h.constant hname
  · obtain ⟨passed, hpassed, hinner⟩ := List.exists_of_findSome?_eq_some hname
    split at hinner
    next target _ htarget =>
      exact .of_imported (Module.specifier_mem_of_reexport hpassed) htarget (h.exported hinner)
    · cases hinner

/-- However many hops are left, only spelled texts are found. -/
theorem hopsSpell (modules : Modules) (hops : Nat) : HopsSpell modules hops := by
  induction hops with
  | zero =>
      refine ⟨fun h => ?_, fun _ h => ?_, fun h => ?_⟩
      · simp [stringConstant?] at h
      · simp [stringIn?] at h
      · simp [exportedString?] at h
  | succ hops ih => exact ⟨ih.constant_succ, ih.value_succ, ih.exported_succ⟩

/-- The text of an argument is spelled in its module or in one that is reached from there. -/
theorem spells_of_eventName {argument : Site} (hs : m.root.Within argument.node)
    (h : eventName? modules m argument = some text) : SpellsFrom modules m text := by
  unfold eventName? at h
  dsimp only at h
  split at h
  next literal hliteral =>
    cases h
    exact .of_spells (spells_of_literal (within_unwrap hs) hliteral)
  · split at h
    · exact (hopsSpell modules allHops).constant h
    · split at h
      · split at h
        · exact (hopsSpell modules allHops).constant h
        · cases h
      · cases h

/-! ## Events -/

section Events

variable {scope : Scope} {properties : Properties} {arguments : List Site}

/-- What is inherited by children holds of the object that an argument leads to. -/
theorem inherited_resolveObject? {Q : Site → Prop} (hQ : Site.Inherited Q)
    (hsites : ∀ site ∈ Module.sites scope.module.root, Q site) {object : Site} (hs : Q s)
    (h : resolveObject? scope s = some object) : Q object := by
  unfold resolveObject? at h
  dsimp only at h
  split at h
  · cases h
    exact inherited_unwrap hQ hs
  · split at h
    · split at h
      · cases h
      next value hvalue =>
        obtain ⟨binding, hbinding, hvalue⟩ := Option.bind_eq_some_iff.1 hvalue
        split at h
        · cases h
          exact inherited_unwrap hQ
            (hsites value (Module.mem_sites_of_lookup? hbinding (.inl hvalue)))
        · cases h
    · cases h

/-- What is inherited by children holds of a structured payload. -/
theorem inherited_structuredPayload? {Q : Site → Prop} (hQ : Site.Inherited Q)
    (hsites : ∀ site ∈ Module.sites scope.module.root, Q site) {payload : Site} (hs : Q s)
    (h : structuredPayload? scope s = some payload) : Q payload := by
  unfold structuredPayload? at h
  dsimp only at h
  split at h
  · cases h
  next made hmade =>
    have hinherited : Q made := by
      split at hmade
      · obtain ⟨value, hvalue, rfl⟩ := Option.map_eq_some_iff.1 hmade
        obtain ⟨binding, hbinding, hvalue⟩ := Option.bind_eq_some_iff.1 hvalue
        exact inherited_unwrap hQ
          (hsites value (Module.mem_sites_of_lookup? hbinding (.inl hvalue)))
      · cases hmade
        exact inherited_unwrap hQ hs
    split at h
    · exact inherited_argumentsOf hQ hinherited (List.mem_of_mem_head? h)
    · cases h

/-- The object that an argument leads to stands in the script. -/
theorem within_resolveObject? {object : Site} (hs : scope.module.root.Within s.node)
    (h : resolveObject? scope s = some object) : scope.module.root.Within object.node :=
  inherited_resolveObject? (Site.inherited_within _) (fun _ => Site.within_of_mem_all .root) hs h

/-- A structured payload stands in the script. -/
theorem within_structuredPayload? {payload : Site} (hs : scope.module.root.Within s.node)
    (h : structuredPayload? scope s = some payload) : scope.module.root.Within payload.node :=
  inherited_structuredPayload? (Site.inherited_within _) (fun _ =>
    Site.within_of_mem_all .root) hs h

/-- The name at the place of an argument is spelled from the module. -/
theorem spells_of_positional? {event place : Nat}
    (hs : ∀ argument ∈ arguments, scope.module.root.Within argument.node)
    (h : positional? scope arguments event place = some (text, properties)) :
    SpellsFrom scope.modules scope.module text := by
  unfold positional? at h
  split at h
  · cases h
  next argument hargument =>
    split at h
    · cases h
    next name hname =>
      cases h
      exact spells_of_eventName (hs argument (List.mem_of_getElem? hargument)) hname

/-- The name under the key of an object is spelled from the module. -/
theorem spells_of_keyed? {key : String} (hs : scope.module.root.Within s.node)
    (h : keyed? scope s key = some (text, properties)) :
    SpellsFrom scope.modules scope.module text := by
  unfold keyed? at h
  split at h
  · cases h
  next object hobject =>
    split at h
    · cases h
    next name hname =>
      cases h
      obtain ⟨member, hmember, hname⟩ := Option.bind_eq_some_iff.1 hname
      exact spells_of_eventName (within_member? (within_resolveObject? hs hobject) hmember) hname

/-- A provider takes the name of its event from a literal text. -/
theorem spells_of_payload? {provider : Provider}
    (hs : ∀ argument ∈ arguments, scope.module.root.Within argument.node)
    (h : payload? scope provider arguments = some (text, properties)) :
    SpellsFrom scope.modules scope.module text := by
  unfold payload? at h
  split at h
  · split at h
    · cases h
    · split at h
      · exact spells_of_positional? hs h
      · cases h
  · split at h
    · cases h
    next first _ =>
      obtain ⟨payload, hpayload, h⟩ := Option.bind_eq_some_iff.1 h
      exact spells_of_keyed? (within_structuredPayload? (hs first List.mem_cons_self) hpayload) h
  · split at h
    · cases h
    next first _ => exact spells_of_keyed? (hs first List.mem_cons_self) h
  · exact spells_of_positional? hs h
  · exact spells_of_positional? hs h

/-- A function with a signature takes the name of its event from a literal text. -/
theorem spells_of_customPayload? {signature : Signature}
    (hs : ∀ argument ∈ arguments, scope.module.root.Within argument.node)
    (h : customPayload? scope signature arguments = some (text, properties)) :
    SpellsFrom scope.modules scope.module text := by
  unfold customPayload? at h
  split at h
  · cases h
  next hname =>
    cases h
    exact spells_of_positional? hs hname

/-- A call in a script takes the name of its event from a literal text. -/
theorem spells_of_event? {signatures : List Signature} {call : Site} {event : Event}
    (hcall : scope.module.root.Within call.node) (h : event? scope signatures call = some event) :
    SpellsFrom scope.modules scope.module event.name := by
  have harguments : ∀ argument ∈ argumentsOf call, scope.module.root.Within argument.node :=
    fun argument hargument => within_argumentsOf hcall hargument
  unfold event? at h
  split at h
  · cases h
  · dsimp only at h
    obtain ⟨⟨provider, name, properties⟩, hfound, rfl⟩ := Option.map_eq_some_iff.1 h
    split at hfound
    · obtain ⟨payload, hpayload, hpair⟩ := Option.map_eq_some_iff.1 hfound
      cases hpair
      exact spells_of_customPayload? harguments hpayload
    · split at hfound
      · cases hfound
      · obtain ⟨payload, hpayload, hpair⟩ := Option.map_eq_some_iff.1 hfound
        cases hpair
        exact spells_of_payload? harguments hpayload

/-- Every event of a script has a name that is spelled there, or in a module that imports and
exports lead to. -/
theorem spells_of_mem_events {signatures : List Signature} {event : Event}
    (h : event ∈ events modules signatures m) : SpellsFrom modules m event.name := by
  obtain ⟨call, hcall, h⟩ := List.mem_filterMap.1 h
  exact spells_of_event? (Site.within_of_mem_all .root (List.mem_filter.1 hcall).1) h

end Events

end TrackingPlan.Script
