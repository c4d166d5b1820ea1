import TrackingPlan.Proofs.Related
import TrackingPlan.Proofs.Within
import TrackingPlan.Script.Calls

/-!
# Scripts that are read alike: names

`Likeness` says what the reading of scripts asks of a relation between the nodes of two trees, so
that it finds the same in both. Nothing inside a signature without a body is read; parameters of
such signatures count only where names are looked up, which `Module.Like` speaks of. `sameTexts`
says that names lead to the same texts then, however many modules are on the way there.
-/

namespace TrackingPlan

/-! ## Sites -/

/-- Nodes around related ones: they have one kind, and are related where the members of a class are
read. -/
structure Site.Around (R : Node → Node → Prop) (n n' : Node) : Prop where
  kind : n.kind = n'.kind
  classBody : n.kind = "class_body" → R n n'

/-- Related nodes, with nodes of the same kinds around them. -/
structure Site.Like (R : Node → Node → Prop) (s s' : Site) : Prop where
  node : R s.node s'.node
  ancestors : List.Forall₂ (Site.Around R) s.ancestors s'.ancestors

namespace Script

/-- The kinds of signatures that have no body. -/
def signatureKinds : List String :=
  ["function_type", "constructor_type", "method_signature", "call_signature", "construct_signature",
    "function_signature", "abstract_method_signature"]

/-- The kinds of nodes whose first named child is read. -/
def firstKinds : List String :=
  ["parenthesized_expression", "as_expression", "satisfies_expression", "non_null_expression",
    "computed_property_name", "spread_element", "type_annotation", "parenthesized_type",
    "readonly_type", "literal_type", "array_type"]

/-- The kinds of nodes whose text is read. -/
def wordKinds : List String :=
  ["identifier", "shorthand_property_identifier", "property_identifier",
    "private_property_identifier",
    "this", "number", "string", "predefined_type", "type_identifier", "nested_type_identifier"]

/-- The kinds of nodes with a child in a role whose text is read. -/
def textRoles : List (String × String) :=
  [("member_expression", "property"), ("binary_expression", "operator"),
    ("unary_expression", "operator"),
    ("enum_assignment", "name"), ("public_field_definition", "name"), ("method_definition", "name"),
    ("generic_type", "name")]

/-- The kinds of nodes with a part in a role that is no signature. -/
def partRoles : List (String × String) :=
  [("interface_declaration", "body"), ("generic_type", "type_arguments")]

/-- The kinds of nodes with a list in a role that has no signature among its members. -/
def listRoles : List (String × String) :=
  [("enum_declaration", "body"), ("method_definition", "parameters")]

/-- The functions that a call is compared with by its text. -/
def wrappers : List String := ["Object.freeze", "buildStructEvent"]

/-- The generic types that are known by their names. -/
def knownTypes : List String := listTypes ++ tableTypes ++ transparentTypes

/-- `usedName? n` is the name that is looked up where the value of `n` is asked for. -/
def usedName? (n : Node) : Option String :=
  match n.kind with
  | "identifier" | "shorthand_property_identifier" => some n.text
  | "member_expression" | "subscript_expression" => (segments? n).bind List.head?
  | _ => none

/-- A call of a function is a call. -/
theorem kind_of_isCallOf {call : Node} {name : String} (h : isCallOf call name = true) :
    call.kind = "call_expression" := by
  rw [isCallOf, Bool.and_eq_true] at h
  exact of_decide_eq_true h.1

/-- A name uses itself. -/
theorem usedName?_of_word {n : Node}
    (hkind : n.kind = "identifier" ∨ n.kind = "shorthand_property_identifier") :
    usedName? n = some n.text := by
  rcases hkind with hkind | hkind <;> simp only [usedName?, hkind]

/-- No file is the use of a name. -/
theorem ne_program_of_usedName? {n : Node} {name : String} (h : usedName? n = some name) :
    n.kind ≠ "program" := by
  intro hkind
  simp only [usedName?, hkind] at h
  cases h

/-- A dotted name uses its first segment. -/
theorem usedName?_of_segments? {n : Node} {base : String} {rest : List String}
    (hkind : n.kind = "member_expression" ∨ n.kind = "subscript_expression")
    (hsegments : segments? n = some (base :: rest)) : usedName? n = some base := by
  rcases hkind with hkind | hkind <;> simp only [usedName?, hkind, hsegments] <;> rfl

variable {R : Node → Node → Prop} {n n' p p' : Node} {s s' : Site} {role name : String}

/-- Related nodes with related children. -/
structure Open (R : Node → Node → Prop) (n n' : Node) : Prop where
  self : R n n'
  child? : ∀ role, Option.Rel R (n.child? role) (n'.child? role)
  children : List.Forall₂ R n.namedChildren n'.namedChildren
  mark : ∀ mark, mark ≠ "comment" → hasMark n mark = hasMark n' mark

/-- Related nodes have the same kinds, related children unless they are signatures, and the same
texts as far as these are read. -/
structure Likeness (R : Node → Node → Prop) : Prop where
  kind : ∀ {n n'}, R n n' → n.kind = n'.kind
  opened : ∀ {n n'}, R n n' → n.kind ∉ signatureKinds → Open R n n'
  part : ∀ {n n' role}, R n n' → (n.kind, role) ∈ partRoles →
    Option.Rel (Open R) (n.child? role) (n'.child? role)
  listed : ∀ {n n' role}, R n n' → (n.kind, role) ∈ listRoles →
    Option.Rel (fun list list' => List.Forall₂ (Open R) list.namedChildren list'.namedChildren)
      (n.child? role) (n'.child? role)
  first : ∀ {n n'}, R n n' → n.kind ∈ firstKinds → Option.Rel R n.firstNamed? n'.firstNamed?
  word : ∀ {n n'}, R n n' → n.kind ∈ wordKinds → n.text = n'.text
  texts : ∀ {n n' role}, R n n' → (n.kind, role) ∈ textRoles →
    n.childText? role = n'.childText? role
  template : ∀ {n n'}, R n n' → n.kind = "template_string" →
    n.namedChildren.any (·.kind = "template_substitution") = false → n.text = n'.text
  callee : ∀ {n n'}, R n n' → n.kind = "call_expression" → ∀ name ∈ wrappers,
    isCallOf n name = isCallOf n' name
  /-- A parameter has the name of a member, or has not. -/
  pattern : ∀ {n n' p p' name}, R n n' → R p p' → n.kind = "member_expression" →
    n.childText? "property" = some name → (p.childText? "pattern" = some name ↔
      p'.childText? "pattern" = some name)

/-- A generic type has the same text, unless its name is known or stands for something. -/
def KeepsLabels (R : Node → Node → Prop) (stands : String → Bool) : Prop :=
  ∀ {n n'}, R n n' → n.kind = "generic_type" →
    let name := (n.childText? "name").getD ""
    name ∈ knownTypes ∨ stands name = true ∨ n.text = n'.text

namespace Likeness

variable (h : Likeness R)
include h

/-- A node is of a kind if the one that is like it is. -/
theorem isKind (hn : R n n') (kind : String) :
    decide (n.kind = kind) = decide (n'.kind = kind) := by
  rw [h.kind hn]

/-- Nodes that are alike have surroundings that are alike. -/
theorem around (hn : R n n') : Site.Around R n n' := ⟨h.kind hn, fun _ => hn⟩

/-- Sites that are alike have the same kind. -/
theorem kindAt (hs : s.Like R s') : s.kind = s'.kind := h.kind hs.node

/-- A site is of a kind if the one that is like it is. -/
theorem isKindAt (hs : s.Like R s') (kind : String) :
    decide (s.kind = kind) = decide (s'.kind = kind) :=
  h.isKind hs.node kind

/-- The sites of two children that are alike are alike. -/
theorem below (hs : s.Like R s') (hn : R n n') : (s.below n).Like R (s'.below n') :=
  ⟨hn, .cons (h.around hs.node) hs.ancestors⟩

/-- The children of a site have ones that are like them, outside signatures. -/
theorem childrenAt (hs : s.Like R s') (hkind : s.kind ∉ signatureKinds) :
    List.Forall₂ (Site.Like R) s.children s'.children :=
  List.rel_map (fun _ _ hn => h.below hs hn) (h.opened hs.node hkind).children

/-- The child of a site in a role has one that is like it, outside signatures. -/
theorem childAt? (hs : s.Like R s') (hkind : s.kind ∉ signatureKinds) (role : String) :
    Option.Rel (Site.Like R) (s.child? role) (s'.child? role) :=
  ((h.opened hs.node hkind).child? role).map fun _ _ => h.below hs

/-- The first child of a site has one that is like it. -/
theorem firstAt? (hs : s.Like R s') (hkind : s.kind ∈ firstKinds) :
    Option.Rel (Site.Like R) s.first? s'.first? :=
  (h.first hs.node hkind).map fun _ _ => h.below hs

end Likeness

/-! ## Literals -/

section Literals

variable (h : Likeness R)
include h

/-- A call is one of a wrapper if the one that is like it is. -/
theorem isCallOf_like (hn : R n n') (hname : name ∈ wrappers) :
    isCallOf n name = isCallOf n' name := by
  by_cases hkind : n.kind = "call_expression"
  · exact h.callee hn hkind name hname
  · have hkind' : n'.kind ≠ "call_expression" := by rwa [← h.kind hn]
    simp [isCallOf, hkind, hkind']

/-- The arguments of a call have ones that are like them. -/
theorem argumentsOf_like (hs : s.Like R s') (hkind : s.kind = "call_expression") :
    List.Forall₂ (Site.Like R) (argumentsOf s) (argumentsOf s') := by
  unfold argumentsOf
  refine (h.childAt? hs (by rw [hkind]; decide) "arguments").elim .nil fun list list' hlist => ?_
  dsimp only
  rw [← h.kindAt hlist]
  split
  next hlistKind => exact h.childrenAt hlist (by rw [hlistKind]; decide)
  next => exact .nil

/-- What stands inside a wrapper has one that is like it. -/
theorem inner?_like (hs : s.Like R s') : Option.Rel (Site.Like R) (inner? s) (inner? s') := by
  unfold inner?
  rw [← h.kindAt hs, ← isCallOf_like h hs.node (by decide)]
  split
  next hkind => exact h.firstAt? hs (by rw [hkind]; decide)
  next hkind => exact h.firstAt? hs (by rw [hkind]; decide)
  next hkind => exact h.firstAt? hs (by rw [hkind]; decide)
  next hkind => exact h.firstAt? hs (by rw [hkind]; decide)
  next hkind =>
    split
    · exact (argumentsOf_like h hs hkind).head?
    · exact .none
  next => exact .none

/-- An expression without its wrappers has one that is like it. -/
theorem unwrap_like (hs : s.Like R s') : (unwrap s).Like R (unwrap s') := by
  induction s using Site.induction_size generalizing s' with
  | h s ih =>
      have hinner : Option.Rel (fun c c' => c.node.size < s.node.size ∧ c.Like R c') (inner? s)
          (inner? s') :=
        (inner?_like h hs).attach.imp fun _ _ ⟨hmem, hc⟩ => ⟨size_inner?_lt hmem, hc⟩
      rw [unwrap, unwrap]
      exact hinner.elim hs fun inner inner' hc => ih inner hc.1 hc.2

/-- A literal has the same text on both sides. -/
theorem literal?_like (hn : R n n') : literal? n = literal? n' := by
  rw [literal?, literal?, ← h.kind hn]
  split
  next hkind => rw [h.word hn (by rw [hkind]; decide)]
  next hkind =>
    have hchildren := (h.opened hn (by rw [hkind]; decide)).children
    rw [← hchildren.any_eq fun _ _ hc => h.isKind hc "template_substitution"]
    split
    next => rfl
    next hplain => rw [h.template hn hkind (Bool.not_eq_true _ ▸ hplain)]
  next => rfl

/-- A dotted name has the same segments on both sides. -/
theorem segments?_like (hn : R n n') : segments? n = segments? n' := by
  induction n using Node.induction_size generalizing n' with
  | h n ih =>
      have hobject (hkind : n.kind ∉ signatureKinds) :
          Option.Rel (fun c c' => segments? c = segments? c') (n.child? "object")
            (n'.child? "object") :=
        ((h.opened hn hkind).child? "object").attach.imp fun c c' ⟨hmem, hc⟩ =>
          ih c (Node.size_child?_lt hmem) hc
      have hfirst (hkind : n.kind ∈ firstKinds) :
          Option.Rel (fun c c' => segments? c = segments? c') n.firstNamed? n'.firstNamed? :=
        (h.first hn hkind).attach.imp fun c c' ⟨hmem, hc⟩ => ih c (Node.size_firstNamed?_lt hmem) hc
      rw [segments?, segments?, ← h.kind hn]
      split
      case h_1 hkind | h_2 hkind | h_3 hkind | h_4 hkind =>
        rw [h.word hn (by rw [hkind]; decide)]
      case h_5 hkind =>
        have hsignature : n.kind ∉ signatureKinds := by rw [hkind]; decide
        refine (hobject hsignature).elim rfl fun object object' hsegments => ?_
        dsimp only
        rw [hsegments, h.texts hn (by rw [hkind]; decide)]
      case h_6 hkind =>
        have hsignature : n.kind ∉ signatureKinds := by rw [hkind]; decide
        have hindex : (n.child? "index").bind literal? = (n'.child? "index").bind literal? :=
          ((h.opened hn hsignature).child? "index").bind_eq fun _ _ => literal?_like h
        refine (hobject hsignature).elim rfl fun object object' hsegments => ?_
        dsimp only
        rw [hsegments, hindex]
      case h_7 hkind | h_8 hkind =>
        exact (hfirst (by rw [hkind]; decide)).elim rfl fun _ _ hsegments => hsegments
      case h_9 => rfl

/-- A key has the same text on both sides. -/
theorem key?_like (hn : R n n') : key? n = key? n' := by
  unfold key?
  rw [← h.kind hn]
  split
  next hkind => rw [h.word hn (by rw [hkind]; decide)]
  next hkind => rw [h.word hn (by rw [hkind]; decide)]
  next hkind => rw [h.word hn (by rw [hkind]; decide)]
  next hkind => rw [h.word hn (by rw [hkind]; decide)]
  next hkind => exact (h.first hn (by rw [hkind]; decide)).bind_eq fun _ _ => literal?_like h
  next => rfl

/-- The key in a role has the same text on both sides, outside signatures. -/
theorem keyOf_like (hn : R n n') (hkind : n.kind ∉ signatureKinds) (role : String) :
    (n.child? role).bind key? = (n'.child? role).bind key? :=
  ((h.opened hn hkind).child? role).bind_eq fun _ _ => key?_like h

/-- The value that an entry has for a key has one that is like it. -/
theorem memberValue?_like (hs : s.Like R s') (key : String) :
    Option.Rel (Site.Like R) (memberValue? key s) (memberValue? key s') := by
  unfold memberValue?
  rw [← h.kindAt hs]
  split
  next hkind =>
    have hpair : s.kind ∉ signatureKinds := by rw [hkind]; decide
    have hkey : ((s.child? "key").bind fun k => key? k.node) = (s'.child? "key").bind fun k =>
        key? k.node :=
      (h.childAt? hs hpair "key").bind_eq fun _ _ hc => key?_like h hc.node
    rw [hkey]
    cases (s'.child? "key").bind fun k => key? k.node with
    | none => exact .none
    | some name =>
        dsimp only
        split
        · exact h.childAt? hs hpair "value"
        · exact .none
  next hkind =>
    rw [show s.text = s'.text from h.word hs.node (by rw [show s.node.kind = _ from hkind]; decide)]
    split
    · exact .some hs
    · exact .none
  next => exact .none

/-- The member of an object has one that is like it. -/
theorem member?_like (hs : s.Like R s') (hkind : s.kind = "object") (key : String) :
    Option.Rel (Site.Like R) (member? s key) (member? s' key) :=
  (h.childrenAt hs (by rw [hkind]; decide)).findSome? fun _ _ hc => memberValue?_like h hc key

/-- The members of an enumeration have the same values. -/
theorem enumEntries_like (hn : R n n') (hkind : n.kind = "enum_declaration") :
    Option.Rel (fun body body' => List.Forall₂ (fun entry entry' => R entry entry' ∧
      (entry.child? "value").bind literal? = (entry'.child? "value").bind literal?)
      body.namedChildren body'.namedChildren) (n.child? "body") (n'.child? "body") := by
  refine (h.listed hn (by rw [hkind]; decide)).imp fun body body' hbody => ?_
  refine hbody.imp fun entry entry' hentry => ⟨hentry.self, ?_⟩
  exact (hentry.child? "value").bind_eq fun _ _ => literal?_like h

/-- A member of an enumeration has the same text on both sides. -/
theorem enumMember?_like (hn : R n n') (hkind : n.kind = "enum_declaration") (member : String) :
    enumMember? n member = enumMember? n' member := by
  unfold enumMember?
  refine (enumEntries_like h hn hkind).elim rfl fun body body' hbody => ?_
  refine hbody.findSome?_eq fun entry entry' ⟨hentry, hvalue⟩ => ?_
  rw [← h.kind hentry, hvalue]
  by_cases hassigned : entry.kind = "enum_assignment"
  · rw [h.texts hentry (by rw [hassigned]; decide)]
  · simp [hassigned]

end Literals

/-! ## Declarations -/

/-- `isPreferred place a b` holds when `a` is nearer to `place` than `b`, where their scopes have
one width. -/
def Module.isPreferred (place : Node) (a b : Binding) : Bool :=
  let isBefore (x : Binding) : Bool := x.declaration.start ≤ place.start
  if isBefore a ≠ isBefore b then isBefore a
  else if isBefore a then b.declaration.start < a.declaration.start
  else a.declaration.start < b.declaration.start

/-- The narrower scope is closer, and of two of one width the declaration that is preferred. -/
theorem Module.closer_eq (place : Node) (a b : Binding) : closer place a b =
    if a.scope.width ≠ b.scope.width then decide (a.scope.width < b.scope.width)
    else isPreferred place a b := rfl

/-- The nearest declarations are related, if it is the same of any two that is nearer. -/
theorem Module.rel_nearest? {T : Binding → Binding → Prop} {place place' : Node}
    {bindings bindings' : List Binding}
    (hcloser : ∀ a a' b b', T a a' → T b b' → closer place a b = closer place' a' b')
    (hbindings : List.Forall₂ T bindings bindings') :
    Option.Rel T (nearest? place bindings) (nearest? place' bindings') := by
  induction hbindings with
  | nil => exact .none
  | cons hb _ ih =>
      rw [nearest?, nearest?]
      refine ih.elim (.some hb) fun best best' hbest => ?_
      dsimp only
      rw [hcloser _ _ _ _ hbest hb]
      split
      · exact .some hbest
      · exact .some hb

/-- Declarations with the same values and types. -/
structure Binding.Like (R : Node → Node → Prop) (b b' : Binding) : Prop where
  value : Option.Rel (Site.Like R) b.value b'.value
  annotation : Option.Rel (Site.Like R) b.annotation b'.annotation

/-- What other modules import from `m` as `name` has no value. -/
structure Module.Withholds (m : Module) (name : String) : Prop where
  valueless : ∀ b, m.lookup? name m.root = some b → b.value = none
  unimported : m.import? name = none
  reexports : ∀ passed ∈ m.reexports, passed.inner? name = none

instance (m : Module) (name : String) : Decidable (m.Withholds name) :=
  decidable_of_iff ((∀ b ∈ m.lookup? name m.root, b.value.isNone = true) ∧ m.import? name = none ∧
      ∀ passed ∈ m.reexports, passed.inner? name = none)
    ⟨fun ⟨valueless, unimported, reexports⟩ =>
      ⟨fun b hb => Option.isNone_iff_eq_none.1 (valueless b hb), unimported, reexports⟩,
      fun h =>
        ⟨fun b hb => Option.isNone_iff_eq_none.2 (h.valueless b hb), h.unimported, h.reexports⟩⟩

/-- Scripts whose trees are alike, and whose names have the same values where they are used. -/
structure Module.Like (R : Node → Node → Prop) (m m' : Module) : Prop where
  path : m.path = m'.path
  tree : Likeness R
  calls : List.Forall₂ (Site.Like R) (calls m.root) (calls m'.root)
  imports : m.imports = m'.imports
  reexports : m.reexports = m'.reexports
  type? : ∀ name, Option.Rel R (m.type? name) (m'.type? name)
  labels : KeepsLabels R fun name => (m.type? name).isSome
  lookup? : ∀ {n n' name}, R n n' → usedName? n = some name →
    Option.Rel (Binding.Like R) (m.lookup? name n) (m'.lookup? name n')
  exported : ∀ name, Option.Rel (Binding.Like R) (m.lookup? name m.root) (m'.lookup? name m'.root) ∨
    m.Withholds name ∧ m'.Withholds name

/-- Scripts that are read alike. -/
def Module.Alike (m m' : Module) : Prop := ∃ R, m.Like R m'

/-- Modules that are alike import a name from the same place. -/
theorem Module.Like.import? {m m' : Module} (hm : m.Like R m') (name : String) :
    m.import? name = m'.import? name := by
  rw [Module.import?, Module.import?, hm.imports]

/-- A name that is used has one text in both scripts, and declarations with the same values. -/
theorem Module.Like.named {m m' : Module} (hm : m.Like R m') (hs : s.Like R s')
    (hkind : s.kind = "identifier" ∨ s.kind = "shorthand_property_identifier") :
    s.text = s'.text ∧
      Option.Rel (Binding.Like R) (m.lookup? s.text s.node) (m'.lookup? s'.text s'.node) := by
  have htext : s.text = s'.text := by
    refine hm.tree.word hs.node ?_
    rcases hkind with hkind | hkind <;> rw [show s.node.kind = _ from hkind] <;> decide
  refine ⟨htext, ?_⟩
  rw [← htext]
  exact hm.lookup? hs.node (usedName?_of_word hkind)

/-- A tree is like itself. -/
theorem likeness_self : Likeness Eq := by
  have hopen (n : Node) : Open Eq n n :=
    ⟨rfl, fun _ => .same fun _ => rfl, List.forall₂_refl _, fun _ _ => rfl⟩
  exact
    { kind := fun hn => hn ▸ rfl
      opened := fun hn _ => hn ▸ hopen _
      part := fun hn _ => hn ▸ .same hopen
      listed := fun hn _ => hn ▸ .same fun _ => List.forall₂_same.2 fun c _ => hopen c
      first := fun hn _ => hn ▸ .same fun _ => rfl
      word := fun hn _ => hn ▸ rfl
      texts := fun hn _ => hn ▸ rfl
      template := fun hn _ _ => hn ▸ rfl
      callee := fun hn _ _ _ => hn ▸ rfl
      pattern := fun _ hp _ _ => hp ▸ Iff.rfl }

/-- A script is read like itself. -/
theorem Module.like_self (m : Module) : m.Like Eq m := by
  have hsite (s : Site) : s.Like Eq s := ⟨rfl, List.forall₂_same.2 fun _ _ => ⟨rfl, fun _ => rfl⟩⟩
  have hbinding (b : Binding) : b.Like Eq b := ⟨.same hsite, .same hsite⟩
  exact
    { path := rfl
      tree := likeness_self
      calls := List.forall₂_same.2 fun s _ => hsite s
      imports := rfl
      reexports := rfl
      type? := fun _ => .same fun _ => rfl
      labels := fun hn _ => .inr (.inr (hn ▸ rfl))
      lookup? := by
        rintro n _ name rfl -
        exact .same hbinding
      exported := fun _ => .inl (.same hbinding) }

/-! ## Names across modules -/

/-- What is seen of other modules is read alike. -/
structure Modules.Like (modules others : Modules) : Prop where
  typed : modules.typed = others.typed
  imported : ∀ path specifier, Option.Rel Module.Alike (modules.imported path specifier)
    (others.imported path specifier)
  declaring : ∀ name, Option.Rel Module.Alike (modules.declaring name) (others.declaring name)

/-- Within so many hops, names and expressions lead to the same texts. -/
structure SameTexts (modules others : Modules) (hops : Nat) : Prop where
  constant : ∀ {m m' : Module} {R : Node → Node → Prop} {name : String} {place place' : Node},
    m.Like R m' → Option.Rel (Binding.Like R) (m.lookup? name place) (m'.lookup? name place') →
    ∀ members, stringConstant? modules hops m name members place =
      stringConstant? others hops m' name members place'
  value : ∀ {m m' : Module} {R : Node → Node → Prop} {s s' : Site}, m.Like R m' → s.Like R s' →
    ∀ members, stringIn? modules hops m s members = stringIn? others hops m' s' members
  exported : ∀ {m m' : Module}, m.Alike m' → ∀ name members,
    exportedString? modules hops m name members = exportedString? others hops m' name members

section Texts

variable {modules others : Modules} {hops : Nat} {m m' : Module}

/-- The text that is exported as `name` is found nowhere if `name` is withheld. -/
theorem Module.Withholds.exportedString?_eq_none (h : m.Withholds name) (modules : Modules)
    (hops : Nat) (members : List String) : exportedString? modules hops m name members = none := by
  cases hops with
  | zero => rw [exportedString?]
  | succ hops =>
      rw [exportedString?, h.unimported]
      split
      next =>
        cases hops with
        | zero => rw [stringConstant?]
        | succ hops =>
            rw [stringConstant?, h.unimported]
            cases hfound : m.lookup? name m.root with
            | none => rfl
            | some b =>
                dsimp only
                rw [h.valueless b hfound]
      next =>
        refine List.findSome?_eq_none_iff.2 fun passed hpassed => ?_
        rw [h.reexports passed hpassed]

/-- A name has the same text in modules that are alike, for one hop more. -/
theorem SameTexts.constant_succ (ih : SameTexts modules others hops)
    (hmodules : modules.Like others) (hm : m.Like R m') {place place' : Node}
    (hfound : Option.Rel (Binding.Like R) (m.lookup? name place) (m'.lookup? name place'))
    (members : List String) :
    stringConstant? modules (hops + 1) m name members place =
      stringConstant? others (hops + 1) m' name members place' := by
  rw [stringConstant?, stringConstant?]
  refine hfound.elim ?_ fun binding binding' hbinding => ?_
  · dsimp only
    rw [hm.import?, hm.path]
    cases m'.import? name with
    | none => rfl
    | some import_ =>
        dsimp only
        refine (hmodules.imported m'.path import_.specifier).elim rfl
          fun target target' htarget => ?_
        dsimp only
        simp only [ih.exported htarget]
  · dsimp only
    exact hbinding.value.elim rfl fun value value' hvalue => ih.value hm hvalue members

/-- The first name of a path leads to the same text. -/
theorem SameTexts.path (htexts : SameTexts modules others hops) (hm : m.Like R m')
    (hs : s.Like R s')
    (hkind : s.kind = "member_expression" ∨ s.kind = "subscript_expression") {base : String}
    {rest : List String} (hsegments : segments? s.node = some (base :: rest))
    (members : List String) :
    stringConstant? modules hops m base members s.node =
      stringConstant? others hops m' base members s'.node :=
  htexts.constant hm (hm.lookup? hs.node (usedName?_of_segments? hkind hsegments)) members

/-- A value has the same text in modules that are alike, for one hop more. -/
theorem SameTexts.value_succ (ih : SameTexts modules others hops) (hm : m.Like R m')
    (hs : s.Like R s') (members : List String) :
    stringIn? modules (hops + 1) m s members = stringIn? others (hops + 1) m' s' members := by
  have h := hm.tree
  have hvalue := unwrap_like h hs
  rw [stringIn?.eq_def modules, stringIn?.eq_def others]
  dsimp only
  rw [← h.kindAt hvalue]
  split
  next hkind =>
    obtain ⟨htext, hfound⟩ := hm.named hvalue (by simpa using hkind)
    rw [← htext] at hfound ⊢
    exact ih.constant hm hfound members
  next =>
    split
    next hkind =>
      rw [← segments?_like h hvalue.node]
      split
      next hsegments => exact ih.path hm hvalue (by simpa using hkind) hsegments _
      next => rfl
    next =>
      cases members with
      | nil => exact literal?_like h hvalue.node
      | cons first rest =>
          dsimp only
          split
          next hkind =>
            exact (member?_like h hvalue hkind first).elim rfl fun _ _ hmember =>
              ih.value hm hmember rest
          next =>
            split
            next hkind =>
              exact enumMember?_like h hvalue.node (by simp at hkind; exact hkind.1) first
            next => rfl

/-- What is exported has the same text in modules that are alike, for one hop more. -/
theorem SameTexts.exported_succ (ih : SameTexts modules others hops)
    (hmodules : modules.Like others) (hm : m.Alike m') (name : String) (members : List String) :
    exportedString? modules (hops + 1) m name members =
      exportedString? others (hops + 1) m' name members := by
  obtain ⟨R, hm⟩ := hm
  -- a name that is withheld may be declared in one of the scripts only, and leads to no text in
  -- either
  rcases hm.exported name with hfound | ⟨hwithheld, hwithheld'⟩
  · rw [exportedString?, exportedString?, hfound.isSome_eq, hm.import?, ih.constant hm hfound,
      hm.reexports, hm.path]
    split
    · rfl
    · congr 1
      funext passed
      cases passed.inner? name with
      | none => rfl
      | some inner =>
          exact (hmodules.imported m'.path passed.specifier).elim rfl fun _ _ htarget =>
            ih.exported htarget inner members
  · rw [hwithheld.exportedString?_eq_none, hwithheld'.exportedString?_eq_none]

/-- However many hops are left, the texts are the same. -/
theorem sameTexts (hmodules : modules.Like others) (hops : Nat) :
    SameTexts modules others hops := by
  induction hops with
  | zero => exact ⟨fun _ _ _ => rfl, fun _ _ _ => rfl, fun _ _ _ => rfl⟩
  | succ hops ih =>
      exact ⟨fun hm hfound => ih.constant_succ hmodules hm hfound, fun hm hs => ih.value_succ hm hs,
        fun hm => ih.exported_succ hmodules hm⟩

/-- An argument names the same event in modules that are alike. -/
theorem eventName?_like (hmodules : modules.Like others) (hm : m.Like R m') (hs : s.Like R s') :
    eventName? modules m s = eventName? others m' s' := by
  have h := hm.tree
  have hvalue := unwrap_like h hs
  have htexts := sameTexts hmodules allHops
  unfold eventName?
  dsimp only
  rw [← h.kindAt hvalue, ← literal?_like h hvalue.node]
  split
  · rfl
  · split
    next hkind =>
      obtain ⟨htext, hfound⟩ := hm.named hvalue (.inl hkind)
      rw [← htext] at hfound ⊢
      exact htexts.constant hm hfound []
    next =>
      split
      next hkind =>
        rw [← segments?_like h hvalue.node]
        split
        next hsegments => exact htexts.path hm hvalue (by simpa using hkind) hsegments _
        next => rfl
      next => rfl

end Texts

end Script

end TrackingPlan
