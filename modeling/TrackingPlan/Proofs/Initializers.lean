import TrackingPlan.Grammar.Go
import TrackingPlan.Proofs.FunctionScopes

/-!
# Variables with a name of their own in the initializer

A name in a Go function stands for the latest declaration that starts no later than the name does. A
name in the initializer of a declaration of that very name starts behind the declaration, so it
never stands for what was declared before: `own_name_in_initializer`. A variable that is initialised
by its own name then leads to itself, and has no text and no schema, as `initializer_finds_itself`
shows. Outside functions it is the package that counts, whatever is declared around the name.
-/

namespace TrackingPlan.Go

variable {root function declaration use n n' : Node} {u : Unit} {b own : Binding} {name : String}

/-! ## Names that stand for the same -/

/-- The expression `n` is a name, in parentheses or not, that stands for `b`. -/
structure StandsFor (u : Unit) (n : Node) (b : Binding) : Prop where
  kind : (element (unwrap n)).kind = "identifier"
  lookup : u.lookup? (element (unwrap n)).text (element (unwrap n)) = some b

/-- The schema of a name is that of what it stands for: of its value, or of its type. -/
theorem valueSchema_of_identifier (hkind : (element (unwrap n)).kind = "identifier") (steps : Nat) :
    valueSchema u (steps + 1) n =
      match u.lookup? (element (unwrap n)).text (element (unwrap n)) with
      | none => .any
      | some binding =>
        match binding.value, binding.type with
        | some value, none => valueSchema u steps value
        | some value, some type =>
          if value.kind.endsWith "_literal" then valueSchema u steps value else typeSchema type
        | none, some type => typeSchema type
        | none, none => .any := by
  rw [valueSchema.eq_def]
  dsimp only
  rw [hkind]
  rfl

/-- No name that stands for `b` has a text or properties, nor a schema beyond the type of `b`. -/
def LeadsNowhere (u : Unit) (b : Binding) : Prop :=
  ∀ n, StandsFor u n b → ∀ steps, eventName? u steps n = none ∧ propertiesOf u steps n = [] ∧
    (b.type = none → valueSchema u steps n = .any)

/-- What has only its own name as its value leads nowhere, however many steps are left. -/
theorem leadsNowhere_of_self {value : Node} (hvalue : b.value = some value)
    (hself : StandsFor u value b) :
    LeadsNowhere u b := by
  intro n hn steps
  induction steps generalizing n with
  | zero =>
      refine ⟨rfl, rfl, ?_⟩
      intro _
      rw [valueSchema]
  | succ steps ih =>
      obtain ⟨hname, hproperties, hschema⟩ := ih value hself
      have hliteral : literal? (element (unwrap n)) = none := by simp [literal?, hn.kind]
      refine ⟨?_, ?_, ?_⟩
      · simp only [eventName?, hliteral, hn.kind, hn.lookup, Option.bind_some, hvalue, hname]
      · simp only [propertiesOf, hn.kind, hn.lookup, Option.bind_some, hvalue, hproperties]
      · intro htype
        simp only [valueSchema_of_identifier hn.kind, hn.lookup, hvalue, htype, hschema htype]

/-- The expressions have the same text, properties and schema. -/
def MeansSame (u : Unit) (n n' : Node) : Prop :=
  ∀ steps, eventName? u steps n = eventName? u steps n' ∧
    propertiesOf u steps n = propertiesOf u steps n' ∧
    valueSchema u steps n = valueSchema u steps n'

/-- Names that stand for the same mean the same. -/
theorem meansSame_of_lookup? (hkind : n.kind = "identifier") (hkind' : n'.kind = "identifier")
    (hlookup : u.lookup? n.text n = u.lookup? n'.text n') : MeansSame u n n' := by
  intro steps
  have hbare (m : Node) (hm : m.kind = "identifier") : element (unwrap m) = m := by
    rw [unwrap]
    simp [hm, element]
  have hliteral (m : Node) (hm : m.kind = "identifier") : literal? m = none := by
    simp [literal?, hm]
  cases steps with
  | zero => exact ⟨rfl, rfl, by rw [valueSchema, valueSchema]⟩
  | succ steps =>
      refine ⟨?_, ?_, ?_⟩
      · simp only [eventName?, hbare, hkind, hkind', hliteral, hlookup]
      · simp only [propertiesOf, hbare, hkind, hkind', hlookup]
      · have hname : (element (unwrap n)).kind = "identifier" := by rw [hbare n hkind, hkind]
        have hname' : (element (unwrap n')).kind = "identifier" := by rw [hbare n' hkind', hkind']
        rw [valueSchema_of_identifier hname, valueSchema_of_identifier hname', hbare n hkind,
          hbare n' hkind', hlookup]

/-! ## Names in their own initializer -/

/-- `initializer? n` is the part of the declaration `n` that has the values. -/
def initializer? (n : Node) : Option Node := if isSpec n then n.child? "value" else n.child? "right"

/-- The identifier `use` stands in the initializer of `declaration`, which itself declares that name
as `own`. -/
structure InOwnInitializer (declaration use : Node) (own : Binding) : Prop where
  identifier : use.kind = "identifier"
  bytes : use.start < use.stop
  declared : (use.text, own) ∈ localBindings declaration
  initialises : ∃ init, initializer? declaration = some init ∧ init.Within use

/-- A local binding starts with its declaration. -/
theorem start_of_mem_localBindings (h : (name, b) ∈ localBindings n) : b.start = n.start := by
  unfold localBindings at h
  split at h
  next =>
    obtain ⟨_, _, hb⟩ := List.mem_map.1 h
    rw [← (Prod.mk.inj hb).2]
  next =>
    split at h
    next =>
      obtain ⟨_, _, hb⟩ := List.mem_map.1 h
      rw [← (Prod.mk.inj hb).2]
    next => cases h

/-- The bindings of a function hold those of the declarations in its body. -/
theorem mem_functionBindings_of_local {body : Node} (hbody : function.child? "body" = some body)
    (hin : body.Within declaration) (hb : (name, b) ∈ localBindings declaration) :
    (name, b) ∈ functionBindings function := by
  obtain ⟨s, hs, rfl⟩ := Site.exists_mem_all hin
  rw [functionBindings, hbody]
  exact List.mem_append_right _ (List.mem_flatMap.2 ⟨s, hs, hb⟩)

/-- The initializer stands in its declaration. -/
theorem within_of_initializer? {init : Node} (h : initializer? n = some init) : n.Within init := by
  unfold initializer? at h
  split at h
  · exact Node.Within.root.child? h
  · exact Node.Within.root.child? h

/-- In a function, a name in the initializer of its own declaration stands for that declaration or a
later one. -/
theorem lookup?_in_initializer {body : Node} (h : root.LaidOut)
    (hown : InOwnInitializer declaration use own)
    (hmem : function ∈ root.namedChildren) (hfunction : IsFunction function)
    (hbody : function.child? "body" = some body) (hin : body.Within declaration) :
    ∃ b, (Unit.ofTree root).lookup? use.text use = some b ∧
      IsLatest (functionBindings function) use.text use b ∧ own.start ≤ b.start := by
  obtain ⟨init, hinit, hwithin⟩ := hown.initialises
  have hfunctionIn : root.Within function := Node.Within.root.namedChildren hmem
  have hdeclarationIn : function.Within declaration := (Node.Within.root.child? hbody).trans hin
  have huse : declaration.Within use := (within_of_initializer? hinit).trans hwithin
  have hplace : function.contains use = true := by
    refine Node.contains_iff.2 (Node.contains_of_within ?_ (hdeclarationIn.trans huse))
    intro m hm
    exact h.holdsChildren_of_within (hfunctionIn.trans hm)
  -- the declaration is around the use, so that it starts no later
  have hbefore : own.start ≤ use.start := by
    rw [start_of_mem_localBindings hown.declared]
    refine (Node.contains_of_within ?_ huse).1
    intro m hm
    exact h.holdsChildren_of_within ((hfunctionIn.trans hdeclarationIn).trans hm)
  have hbound := mem_functionBindings_of_local hbody hin hown.declared
  obtain ⟨b, hb, hlatest⟩ | ⟨hbehind, -⟩ :=
    lookup?_in_function h hmem hfunction hplace hown.bytes use.text
  · exact ⟨b, hb, hlatest, hlatest.latest own hbound hbefore⟩
  · have := hbehind own hbound
    omega

/-- In a function, a name in the initializer of its own declaration stands for that declaration or a
later one, never for what was declared before or in the package. If what it stands for has just this
name as its value, then the variable leads nowhere. Outside functions the name, in the initializer
and behind it, stands for what the package declares first. -/
theorem own_name_in_initializer (h : root.LaidOut) (hown : InOwnInitializer declaration use own) :
    let u := Unit.ofTree root
    (∀ function ∈ root.namedChildren, IsFunction function →
      ∀ body, function.child? "body" = some body → body.Within declaration →
      ∃ b, u.lookup? use.text use = some b ∧ IsLatest (functionBindings function) use.text use b ∧
        own.start ≤ b.start ∧
        ((∀ other, (use.text, other) ∈ functionBindings function → own.start ≤ other.start →
          other.start ≤ use.start → (use.text, other) ∈ localBindings declaration) →
          (use.text, b) ∈ localBindings declaration) ∧
        (∀ value, b.value = some value → element (unwrap value) = use → LeadsNowhere u b)) ∧
    (OutsideFunctions root use → u.lookup? use.text use = u.package.lookup use.text ∧
      ∀ n, n.kind = "identifier" → n.text = use.text → OutsideFunctions root n →
        MeansSame u n use) := by
  intro u
  refine ⟨?_, ?_⟩
  · intro function hmem hfunction body hbody hin
    obtain ⟨b, hb, hlatest, hle⟩ := lookup?_in_initializer h hown hmem hfunction hbody hin
    refine ⟨b, hb, hlatest, hle, ?_, ?_⟩
    · intro honly
      exact honly b hlatest.bound hle hlatest.before
    · intro value hvalue hself
      exact leadsNowhere_of_self hvalue ⟨by rw [hself, hown.identifier], by rw [hself, hb]⟩
  · intro houtside
    refine ⟨lookup?_outside houtside use.text, ?_⟩
    intro n hn htext houtside'
    refine meansSame_of_lookup? hn hown.identifier ?_
    rw [htext, lookup?_outside houtside', lookup?_outside houtside]

/-! ## A variable that hides a constant of its name -/

/-- The function declares `use` anew, with nothing but the name itself as its value. -/
structure Redeclares (root function declaration use : Node) : Prop where
  member : function ∈ root.namedChildren
  isFunction : IsFunction function
  inside : ∃ body, function.child? "body" = some body ∧ body.Within declaration
  bindings : localBindings declaration = [(use.text, ⟨none, some use, declaration.start⟩)]
  own : InOwnInitializer declaration use ⟨none, some use, declaration.start⟩

/-- `redeclared? root` is the first short declaration in the first function of a file, with its
function and the name in its initializer, if it declares nothing but that name anew. -/
def redeclared? (root : Node) : Option (Node × Node × Node) := do
  let function ← root.namedChildren.find? fun n => IsFunction n
  let body ← function.child? "body"
  let s ← (Site.root body).all.find? (·.kind = "short_var_declaration")
  match childrenIn s.node "left", childrenIn s.node "right" with
  | [new], [use] =>
    if new.kind = "identifier" && use.kind = "identifier" && new.text = use.text &&
        use.start < use.stop then
      some (function, s.node, use)
    else none
  | _, _ => none

/-- What is found as a redeclaration in an initializer is one. -/
theorem redeclares_of_redeclared? (h : redeclared? root = some (function, declaration, use)) :
    Redeclares root function declaration use := by
  simp only [redeclared?, bind, Option.bind_eq_some_iff] at h
  obtain ⟨f, hf, body, hbody, s, hs, h⟩ := h
  split at h
  next new name hleft hright =>
    split at h
    next hconditions =>
      obtain ⟨rfl, rfl, rfl⟩ : f = function ∧ s.node = declaration ∧ name = use := by simpa using h
      simp only [Bool.and_eq_true, decide_eq_true_eq] at hconditions
      obtain ⟨⟨⟨hnew, hname⟩, htext⟩, hbytes⟩ := hconditions
      have hkind : s.kind = "short_var_declaration" := by simpa using List.find?_some hs
      rw [Site.kind] at hkind
      have hspec : isSpec s.node = false := by simp [isSpec, hkind]
      have hbindings : localBindings s.node = [(name.text, ⟨none, some name, s.node.start⟩)] := by
        simp [localBindings, hspec, hkind, shortBindings, hleft, hright, pairUp, hnew, htext]
      refine ⟨List.mem_of_find?_eq_some hf, by simpa using List.find?_some hf,
        ⟨body, hbody, Site.within_of_mem_all .root (List.mem_of_find?_eq_some hs)⟩, hbindings,
        hname, hbytes, by simp [hbindings], ?_⟩
      rw [childrenIn] at hright
      split at hright
      next => cases hright
      next init hinit =>
        refine ⟨init, by simp [initializer?, hspec, hinit], Node.Within.root.namedChildren ?_⟩
        rw [hright]
        exact List.mem_cons_self
    next => cases h
  next => cases h

/-- What a function declares is what it declares anew, if it declares nothing else. -/
theorem eq_of_redeclares (h : Redeclares root function declaration use)
    (hone : (functionBindings function).length = 1) (hb : (name, b) ∈ functionBindings function) :
    b = ⟨none, some use, declaration.start⟩ := by
  obtain ⟨body, hbody, hin⟩ := h.inside
  have hown := mem_functionBindings_of_local hbody hin h.own.declared
  obtain ⟨entry, hentry⟩ := List.length_eq_one_iff.1 hone
  rw [hentry, List.mem_singleton] at hb hown
  exact (Prod.mk.inj (hb.trans hown.symm)).2

/-- A file with a constant, and a variable of the same name in a function that should hold the
constant. -/
def shadowedConstant : Node :=
  read (Source.ofString
    "const name = \"Signup\"\n\nfunc f() \x7b\n\tname := name\n\ttrack(name)\n\x7d\n")

/-- The variable stands for itself and leads nowhere. -/
theorem own_name_in_initializer_of_shadowed :
    shadowedConstant.LaidOut ∧ ∃ function declaration use own, InOwnInitializer
      declaration use own ∧ Redeclares shadowedConstant function declaration use ∧
      (Unit.ofTree shadowedConstant).lookup? use.text use = some own ∧
      LeadsNowhere (Unit.ofTree shadowedConstant) own := by
  have hchecked :
      shadowedConstant.LaidOut ∧ (redeclared? shadowedConstant).map (fun (function, _) =>
      (functionBindings function).length) = some 1 := by
    decide +kernel
  obtain ⟨hlaid, hview⟩ := hchecked
  cases hfound : redeclared? shadowedConstant with
  | none => simp [hfound] at hview
  | some found =>
      obtain ⟨function, declaration, use⟩ := found
      have hone : (functionBindings function).length = 1 := by simpa [hfound] using hview
      have hredeclares := redeclares_of_redeclared? hfound
      obtain ⟨body, hbody, hin⟩ := hredeclares.inside
      obtain ⟨b, hb, hlatest, -, hsame, hself⟩ :=
        (own_name_in_initializer hlaid hredeclares.own).1 function
        hredeclares.member hredeclares.isFunction body hbody hin
      obtain rfl := eq_of_redeclares hredeclares hone hlatest.bound
      refine ⟨hlaid, function, declaration, use, _, hredeclares.own, hredeclares, hb,
        hself use rfl ?_⟩
      simp [unwrap, element, hredeclares.own.identifier]

/-- A constant has a text, and the variable that is initialised by it stands for itself and has
none, so that its event is lost. -/
theorem initializer_finds_itself :
    (∃ function declaration use constant, Redeclares shadowedConstant function declaration use ∧
      (Unit.ofTree shadowedConstant).package.lookup use.text = some constant ∧
      constant.start < declaration.start ∧
      constant.value.bind (eventName? (Unit.ofTree shadowedConstant) allSteps) = some "Signup" ∧
      (Unit.ofTree shadowedConstant).lookup? use.text use =
        some ⟨none, some use, declaration.start⟩ ∧
      eventName? (Unit.ofTree shadowedConstant) allSteps use = none) ∧
    events [⟨"track", ["track"], 0, 1, []⟩] ⟨"a.go"⟩ shadowedConstant = [] := by
  have hchecked : shadowedConstant.LaidOut ∧
      (redeclared? shadowedConstant).map (fun (function, declaration, use) =>
        ((functionBindings function).length,
          ((Unit.ofTree shadowedConstant).package.lookup use.text).map fun constant =>
            (decide (constant.start < declaration.start),
              constant.value.bind (eventName? (Unit.ofTree shadowedConstant) allSteps)),
          eventName? (Unit.ofTree shadowedConstant) allSteps use)) =
        some (1, some (true, some "Signup"), none) ∧
      (events [⟨"track", ["track"], 0, 1, []⟩] ⟨"a.go"⟩ shadowedConstant).length = 0 := by
    decide +kernel
  obtain ⟨hlaid, hview, hevents⟩ := hchecked
  refine ⟨?_, List.eq_nil_of_length_eq_zero hevents⟩
  cases hfound : redeclared? shadowedConstant with
  | none => simp [hfound] at hview
  | some found =>
      obtain ⟨function, declaration, use⟩ := found
      simp only [hfound, Option.map_some, Option.some.injEq, Prod.mk.injEq] at hview
      obtain ⟨hone, hpackage, hname⟩ := hview
      have hredeclares := redeclares_of_redeclared? hfound
      obtain ⟨constant, hconstant, hvalue⟩ := Option.map_eq_some_iff.1 hpackage
      simp only [Prod.mk.injEq, decide_eq_true_eq] at hvalue
      refine ⟨function, declaration, use, constant, hredeclares, hconstant, hvalue.1,
        hvalue.2, ?_, hname⟩
      obtain ⟨body, hbody, hin⟩ := hredeclares.inside
      obtain ⟨b, hb, hlatest, -⟩ := lookup?_in_initializer hlaid hredeclares.own hredeclares.member
        hredeclares.isFunction hbody hin
      rw [hb, eq_of_redeclares hredeclares hone hlatest.bound]

end TrackingPlan.Go
