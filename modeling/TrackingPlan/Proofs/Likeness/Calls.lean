import TrackingPlan.Proofs.Likeness.Types

/-!
# Scripts that are read alike: values and calls

Values have the same schemas in scripts that are read alike, and calls send the same events:
`valuesAlike` is the induction over the steps into values, and `sent_events` the statement on the
events.
-/

namespace TrackingPlan

/-- `sent e` is what `e` sends: its name, where it goes, and its properties. -/
def Event.sent (e : Event) : String × Provider × Properties := (e.name, e.provider, e.properties)

namespace Script

/-- What related expressions are read against: scripts that are read alike, which see modules that
are. -/
structure Scope.Like (R : Node → Node → Prop) (scope scope' : Scope) : Prop where
  modules : scope.modules.Like scope'.modules
  module : scope.module.Like R scope'.module

variable {R : Node → Node → Prop} {n n' : Node} {s s' : Site} {scope scope' : Scope} {name : String}

/-! ## Members and operators -/

/-- The class around a site has one that is like it. -/
theorem enclosingClass?_like (hs : s.Like R s') :
    Option.Rel (fun body body' => body.Like R body' ∧ body.kind = "class_body") (enclosingClass? s)
      (enclosingClass? s') := by
  have hgo {ancestors ancestors' : List Node}
    (hancestors : List.Forall₂ (Site.Around R) ancestors ancestors') :
      Option.Rel (fun body body' => body.Like R body' ∧ body.kind = "class_body")
        (enclosingClass?.go ancestors) (enclosingClass?.go ancestors') := by
    induction hancestors with
    | nil => exact .none
    | cons ha hrest ih =>
        rw [enclosingClass?.go, enclosingClass?.go, ← ha.kind]
        split
        next hkind => exact .some ⟨⟨ha.classBody hkind, hrest⟩, hkind⟩
        next => exact ih
  exact hgo hs.ancestors

section Members

variable (hscope : scope.Like R scope')
include hscope

/-- Sites that are alike have the same annotation. -/
theorem annotation_like (hs : s.Like R s') :
    annotationSchema scope.modules scope.module s.node =
      annotationSchema scope'.modules scope'.module s'.node :=
  annotationSchema_like hscope.modules hscope.module hs.node

/-- A parameter that declares a member has the same schema on both sides. -/
theorem parameterProperty?_like (hn : Open R n n')
    (hname : n.childText? "pattern" = some name ↔ n'.childText? "pattern" = some name) :
    parameterProperty? scope name n = parameterProperty? scope' name n' := by
  have hpattern :
      decide (n.childText? "pattern" = some name) = decide (n'.childText? "pattern" = some name) :=
    decide_eq_decide.2 hname
  unfold parameterProperty?
  rw [hn.mark _ (by decide), hn.mark _ (by decide), hscope.module.tree.kind hn.self, hpattern]
  split
  · refine (hn.child? "type").elim rfl fun type type' htype => ?_
    dsimp only
    rw [annotationSchema_like hscope.modules hscope.module htype]
  · rfl

/-- A member of a class has the same schema on both sides. -/
theorem classMember_like {value value' : Site → Schema}
    (hvalue : ∀ c c', c.Like R c' → value c = value' c')
    (hs : s.Like R s') (hname : ∀ {p p'}, R p p' →
      (p.childText? "pattern" = some name ↔ p'.childText? "pattern" = some name)) :
    classMember scope value s name = classMember scope' value' s' name := by
  have h := hscope.module.tree
  unfold classMember
  refine (enclosingClass?_like hs).elim rfl fun body body' ⟨hbody, hbodyKind⟩ => ?_
  have hmembers := h.childrenAt hbody (by rw [hbodyKind]; decide)
  refine congrArg (·.getD Schema.any) (hmembers.findSome?_eq fun member member' hmember => ?_)
  rw [← h.kindAt hmember]
  -- a property is declared by a field, or by a parameter of a constructor
  by_cases hfield : member.kind = "public_field_definition"
  · have hnamed : member.childText? "name" = member'.childText? "name" :=
      h.texts hmember.node (by rw [show member.node.kind = _ from hfield]; decide)
    have hopen : member.kind ∉ signatureKinds := by rw [hfield]; decide
    rw [← hnamed]
    split
    · refine (h.childAt? hmember hopen "type").elim ?_ fun type type' htype => ?_
      · exact (h.childAt? hmember hopen "value").elim rfl fun _ _ hc =>
          congrArg some (hvalue _ _ hc)
      · exact congrArg some (annotation_like hscope htype)
    · simp [hfield]
  · by_cases hmethod : member.kind = "method_definition"
    · have hnamed : member.childText? "name" = member'.childText? "name" :=
        h.texts hmember.node (by rw [show member.node.kind = _ from hmethod]; decide)
      have hparameters : Option.Rel (fun list list' : Site =>
          List.Forall₂ (Open R) list.node.namedChildren list'.node.namedChildren)
          (member.child? "parameters") (member'.child? "parameters") :=
        (h.listed hmember.node (by rw [show member.node.kind = _ from hmethod]; decide)).map
          fun _ _ hc => hc
      simp only [hfield, hnamed, decide_false, Bool.false_and, Bool.false_eq_true, if_false]
      split
      · refine hparameters.elim rfl fun list list' hlist => ?_
        exact hlist.findSome?_eq fun _ _ hc => parameterProperty?_like hscope hc (hname hc.self)
      · rfl
    · simp [hfield, hmethod]

omit hscope in
/-- A member of a schema is the same on both sides. -/
theorem memberOf_like (h : Likeness R) (hs : s.Like R s')
    (hkind : s.kind = "member_expression" ∨ s.kind = "subscript_expression") (schema : Schema) :
    memberOf schema s = memberOf schema s' := by
  unfold memberOf
  dsimp only
  rw [← h.kindAt hs]
  rcases hkind with hkind | hkind
  · have hproperty : s.childText? "property" = s'.childText? "property" :=
      h.texts hs.node (by rw [show s.node.kind = _ from hkind]; decide)
    rw [hproperty]
    simp [hkind]
  · have hindex :=
      (h.opened hs.node (by rw [show s.node.kind = _ from hkind]; decide)).child? "index"
    rw [hindex.any_eq fun _ _ hc => h.isKind hc _, hindex.bind_eq fun _ _ => literal?_like h]
    simp [hkind]

/-- An access to a member has the same schema on both sides. -/
theorem memberSchema_like {value value' : Site → Schema}
    (hvalue : ∀ c c', c.Like R c' → value c = value' c')
    (hs : s.Like R s') (hkind : s.kind = "member_expression" ∨ s.kind = "subscript_expression") :
    memberSchema scope value s = memberSchema scope' value' s' := by
  have h := hscope.module.tree
  have hsignature : s.kind ∉ signatureKinds := by rcases hkind with hkind | hkind <;>
    rw [hkind] <;> decide
  unfold memberSchema
  refine (h.childAt? hs hsignature "object").elim rfl fun object object' hobject => ?_
  have hunwrapped := unwrap_like h hobject
  dsimp only
  rw [← h.kindAt hs, ← h.kindAt hunwrapped, hvalue _ _ hunwrapped, memberOf_like h hs hkind]
  split
  next hthis =>
    have hmember : s.node.kind = "member_expression" :=
      hkind.resolve_right (by simp at hthis; exact hthis.1)
    have hproperties : s.childText? "property" = s'.childText? "property" :=
      h.texts hs.node (by rw [hmember]; decide)
    rw [← hproperties]
    cases hproperty : s.childText? "property" with
    | none => rfl
    | some property =>
        exact classMember_like hscope hvalue hs fun hp => h.pattern hs.node hp hmember hproperty
  next => rfl

omit hscope in
/-- An operation on two values has the same schema on both sides. -/
theorem binarySchema_like (h : Likeness R) {value value' : Site → Schema}
    (hvalue : ∀ c c', c.Like R c' → value c = value' c') (hs : s.Like R s')
    (hkind : s.kind = "binary_expression") : binarySchema value s = binarySchema value' s' := by
  have hsignature : s.kind ∉ signatureKinds := by rw [hkind]; decide
  unfold binarySchema
  dsimp only
  rw [show s.childText? "operator" = s'.childText? "operator" from
    h.texts hs.node (by rw [show s.node.kind = _ from hkind]; decide)]
  split
  · rfl
  · split
    · rfl
    · split
      · congr 1
        · exact (h.childAt? hs hsignature "left").elim rfl fun _ _ hc => hvalue _ _ hc
        · exact (h.childAt? hs hsignature "right").elim rfl fun _ _ hc => hvalue _ _ hc
      · rfl

omit hscope in
/-- An operation on one value has the same schema on both sides. -/
theorem unarySchema_like (h : Likeness R) (hs : s.Like R s') (hkind : s.kind = "unary_expression") :
    unarySchema s = unarySchema s' := by
  have hoperator : s.childText? "operator" = s'.childText? "operator" :=
    h.texts hs.node (by rw [show s.node.kind = _ from hkind]; decide)
  rw [unarySchema, unarySchema, hoperator]

/-! ## Objects -/

/-- The object that an argument leads to has one that is like it. -/
theorem resolveObject?_like (hs : s.Like R s') :
    Option.Rel (fun object object' => object.Like R object' ∧ object.kind = "object")
      (resolveObject? scope s) (resolveObject? scope' s') := by
  have h := hscope.module.tree
  have hunwrapped := unwrap_like h hs
  unfold resolveObject?
  dsimp only
  rw [← h.kindAt hunwrapped]
  split
  next hkind => exact .some ⟨hunwrapped, hkind⟩
  next =>
    split
    next hkind =>
      have hfound := (hscope.module.named hunwrapped (.inl hkind)).2
      refine (hfound.bind fun _ _ hb => hb.value).elim .none fun value value' hvalue => ?_
      have hinner := unwrap_like h hvalue
      dsimp only
      rw [← h.kindAt hinner]
      split
      next hkind => exact .some ⟨hinner, hkind⟩
      next => exact .none
    next => exact .none

omit hscope in
/-- The fields of related objects are the same, if values, names and spreads are. -/
theorem objectFields_like (h : Likeness R) {value value' name name' : Site → Schema}
    {spread spread' : Site → Properties} (hvalue : ∀ c c', c.Like R c' → value c = value' c')
    (hname : ∀ c c', c.Like R c' → c.kind = "shorthand_property_identifier" → name c = name' c')
    (hspread : ∀ c c', c.Like R c' → spread c = spread' c') (hs : s.Like R s')
    (hkind : s.kind = "object") :
    objectFields value name spread s = objectFields value' name' spread' s' := by
  refine (h.childrenAt hs (by rw [hkind]; decide)).foldl_eq
    (fun fields entry entry' hentry => ?_) []
  rw [← h.kindAt hentry]
  split
  next hkind =>
    have hpair : entry.kind ∉ signatureKinds := by rw [hkind]; decide
    rw [keyOf_like h hentry.node hpair]
    cases (entry'.node.child? "key").bind key? with
    | none => rfl
    | some key =>
        dsimp only
        congr 1
        exact (h.childAt? hentry hpair "value").elim rfl fun _ _ hc => hvalue _ _ hc
  next hkind =>
    have htext : entry.text = entry'.text :=
      h.word hentry.node (by rw [show entry.node.kind = _ from hkind]; decide)
    rw [htext, hname _ _ hentry hkind]
  next hkind =>
    refine (h.firstAt? hentry (by rw [hkind]; decide)).elim rfl fun inner inner' hinner => ?_
    dsimp only
    rw [hspread _ _ hinner]
  next => rfl

end Members

/-! ## Values -/

/-- Within so many steps, related expressions have the same schemas and properties. -/
structure ValuesAlike (R : Node → Node → Prop) (scope scope' : Scope) (hops : Nat) : Prop where
  value : ∀ {s s'}, s.Like R s' → valueSchema scope hops s = valueSchema scope' hops s'
  name : ∀ {s s' name}, Option.Rel (Binding.Like R) (scope.module.lookup? name s.node)
    (scope'.module.lookup? name s'.node) → nameSchema scope hops name s =
      nameSchema scope' hops name s'
  properties : ∀ {s s'}, s.Like R s' → propertiesOf scope hops s = propertiesOf scope' hops s'

section Values

variable (hscope : scope.Like R scope')
include hscope

/-- A name that is used stands for the same in both scripts. -/
theorem ValuesAlike.used {hops : Nat} (hvalues : ValuesAlike R scope scope' hops) (hs : s.Like R s')
    (hkind : s.kind = "identifier" ∨ s.kind = "shorthand_property_identifier") :
    nameSchema scope hops s.text s = nameSchema scope' hops s'.text s' := by
  obtain ⟨htext, hfound⟩ := hscope.module.named hs hkind
  rw [← htext] at hfound ⊢
  exact hvalues.name hfound

/-- Objects that are alike have the same fields, if the schemas of their values agree. -/
theorem ValuesAlike.objectFields_eq {hops fewer : Nat} (hvalues : ValuesAlike R scope scope' hops)
    (hspreads : ValuesAlike R scope scope' fewer) (hs : s.Like R s') (hkind : s.kind = "object")
    (typed : Bool) :
    objectFields (valueSchema scope hops)
      (fun name => if typed then nameSchema scope hops name.text name else .any)
      (propertiesOf scope fewer) s =
    objectFields (valueSchema scope' hops)
      (fun name => if typed then nameSchema scope' hops name.text name else .any)
      (propertiesOf scope' fewer) s' := by
  refine objectFields_like hscope.module.tree (fun _ _ hc => hvalues.value hc)
    (fun c c' hc hshort => ?_) (fun _ _ hc => hspreads.properties hc) hs hkind
  rw [hvalues.used hscope hc (.inr hshort)]

/-- A name has the same schema for one hop more. -/
theorem ValuesAlike.name_succ {hops : Nat} (ih : ValuesAlike R scope scope' hops)
    (hfound : Option.Rel (Binding.Like R) (scope.module.lookup? name s.node)
      (scope'.module.lookup? name s'.node)) :
    nameSchema scope (hops + 1) name s = nameSchema scope' (hops + 1) name s' := by
  have h := hscope.module.tree
  have hconstant := (sameTexts hscope.modules (hops + 1)).constant hscope.module hfound []
  rw [nameSchema, nameSchema]
  refine hfound.elim ?_ fun binding binding' hbinding => ?_
  · dsimp only
    rw [hconstant]
  · dsimp only
    refine hbinding.annotation.elim ?_ fun type type' htype => ?_
    · refine hbinding.value.elim rfl fun value value' hvalue => ?_
      dsimp only
      rw [← h.kindAt hvalue, ih.value hvalue]
      split
      next hkind => exact enumSchema_like h hvalue.node hkind
      next => rfl
    · exact annotation_like hscope htype

/-- An argument has the same properties for one hop more. -/
theorem ValuesAlike.properties_succ {hops : Nat} (ih : ValuesAlike R scope scope' hops)
    (hspreads : ValuesAlike R scope scope' (hops - 1)) (hs : s.Like R s') :
    propertiesOf scope (hops + 1) s = propertiesOf scope' (hops + 1) s' := by
  have h := hscope.module.tree
  have hunwrapped := unwrap_like h hs
  rw [propertiesOf, propertiesOf]
  refine (resolveObject?_like hscope hs).elim ?_ fun object object' hresolved => ?_
  · dsimp only
    rw [← h.kindAt hunwrapped]
    split
    next hkind =>
      refine (hscope.module.named hunwrapped (.inl hkind)).2.elim
        rfl fun binding binding' hbinding => ?_
      have hnext : Option.Rel (Site.Like R)
          ((binding.value.map unwrap).filter (·.kind = "identifier"))
          ((binding'.value.map unwrap).filter (·.kind = "identifier")) :=
        (hbinding.value.map fun _ _ => unwrap_like h).filter fun _ _ hc => h.isKindAt hc _
      dsimp only
      refine hnext.elim ?_ fun next next' hc => ih.properties hc
      refine hbinding.annotation.elim rfl fun type type' htype => ?_
      dsimp only
      rw [hscope.modules.typed, annotation_like hscope htype]
    next => rfl
  · rw [hscope.modules.typed]
    exact ih.objectFields_eq hscope hspreads hresolved.1 hresolved.2 _

/-- An expression has the same schema for one hop more. -/
theorem ValuesAlike.value_succ {hops : Nat} (ih : ValuesAlike R scope scope' hops)
    (hspreads : ValuesAlike R scope scope' (hops - 1)) (hs : s.Like R s') :
    valueSchema scope (hops + 1) s = valueSchema scope' (hops + 1) s' := by
  have h := hscope.module.tree
  have hvalue : ∀ c c', c.Like R c' → valueSchema scope hops c = valueSchema scope' hops c' :=
    fun c c' hc => ih.value hc
  have hfirst (hkind : s.kind ∈ firstKinds) : Option.Rel
      (fun c c' => valueSchema scope hops c = valueSchema scope' hops c') s.first? s'.first? :=
    (h.firstAt? hs hkind).imp hvalue
  rw [valueSchema.eq_def scope, valueSchema.eq_def scope']
  dsimp only
  rw [← h.kindAt hs, hscope.modules.typed, ← isCallOf_like h hs.node (by decide),
    eventName?_like hscope.modules hscope.module hs]
  split
  case h_8 hkind => rw [ih.objectFields_eq hscope hspreads hs hkind]
  case h_9 hkind =>
    have hitems := (h.childrenAt hs (by rw [hkind]; decide)).filter
      (p := (·.kind ≠ "spread_element")) (q := (·.kind ≠ "spread_element"))
      fun _ _ hc => by rw [h.kindAt hc]
    rw [hitems.map_eq hvalue]
  case h_10 hkind => rw [ih.used hscope hs (.inl hkind)]
  case h_11 hkind => rw [memberSchema_like hscope hvalue hs (.inl hkind)]
  case h_12 hkind => rw [memberSchema_like hscope hvalue hs (.inr hkind)]
  case h_13 hkind | h_14 hkind | h_15 hkind =>
    exact (hfirst (by rw [hkind]; decide)).elim rfl fun _ _ heq => heq
  case h_16 hkind =>
    have hchildren := h.childrenAt hs (by rw [hkind]; decide)
    generalize s.children = children at hchildren ⊢
    generalize s'.children = children' at hchildren ⊢
    cases hchildren with
    | nil => rfl
    | cons hinner hrest =>
        cases hrest with
        | nil => exact hvalue _ _ hinner
        | cons htype _ =>
            dsimp only
            rw [hvalue _ _ hinner, annotation_like hscope htype]
  case h_17 hkind => rw [unarySchema_like h hs hkind]
  case h_18 hkind => rw [binarySchema_like h hvalue hs hkind]
  case h_19 hkind =>
    have harguments := argumentsOf_like h hs hkind
    generalize argumentsOf s = arguments at harguments ⊢
    generalize argumentsOf s' = arguments' at harguments ⊢
    cases harguments with
    | nil => rfl
    | cons hargument _ =>
        dsimp only
        rw [hvalue _ _ hargument]
  all_goals rfl

/-- However many steps are left, values are the same. -/
theorem valuesAlike (hops : Nat) : ValuesAlike R scope scope' hops := by
  -- an object that is spread has one step less than the other fields, so that one step back is not
  -- enough
  induction hops using Nat.strongRecOn with
  | ind hops ih =>
      cases hops with
      | zero =>
          refine ⟨fun hs => ?_, fun hs => ?_, fun hs => ?_⟩
          · rw [valueSchema, valueSchema]
          · rw [nameSchema, nameSchema]
          · rw [propertiesOf, propertiesOf]
      | succ hops =>
          have hvalues := ih hops (Nat.lt_succ_self hops)
          have hspreads := ih (hops - 1) (by omega)
          exact ⟨hvalues.value_succ hscope hspreads, hvalues.name_succ hscope,
            hvalues.properties_succ hscope hspreads⟩

/-- Objects that are alike have the same fields. -/
theorem fieldsOfObject_like (hs : s.Like R s') (hkind : s.kind = "object") :
    fieldsOfObject scope s = fieldsOfObject scope' s' := by
  rw [fieldsOfObject, fieldsOfObject, hscope.modules.typed]
  exact (valuesAlike hscope allHops).objectFields_eq hscope (valuesAlike hscope maxHops) hs hkind _

end Values

/-! ## Events -/

section Events

variable (hscope : scope.Like R scope') {arguments arguments' : List Site}
include hscope

/-- The payload of arguments at their places is the same on both sides. -/
theorem positional?_like (harguments : List.Forall₂ (Site.Like R) arguments arguments')
    (event properties : Nat) : positional? scope arguments event properties =
      positional? scope' arguments' event properties := by
  unfold positional?
  refine (harguments.getElem? event).elim rfl fun argument argument' hargument => ?_
  dsimp only
  rw [eventName?_like hscope.modules hscope.module hargument]
  cases eventName? scope'.modules scope'.module argument' with
  | none => rfl
  | some name =>
      refine (harguments.getElem? properties).elim rfl fun fields fields' hfields => ?_
      dsimp only
      rw [(valuesAlike hscope allHops).properties hfields]

/-- The payload of an object with a key for the event is the same on both sides. -/
theorem keyed?_like (hs : s.Like R s') (key : String) :
    keyed? scope s key = keyed? scope' s' key := by
  have h := hscope.module.tree
  unfold keyed?
  refine (resolveObject?_like hscope hs).elim rfl fun object object' ⟨hobject, hkind⟩ => ?_
  have hname : (member? object key).bind (eventName? scope.modules scope.module) =
      (member? object' key).bind (eventName? scope'.modules scope'.module) :=
    (member?_like h hobject hkind key).bind_eq fun _ _ hc =>
      eventName?_like hscope.modules hscope.module hc
  dsimp only
  rw [hname, fieldsOfObject_like hscope hobject hkind]

/-- The object of a structured payload has one that is like it. -/
theorem structuredPayload?_like (hs : s.Like R s') :
    Option.Rel (Site.Like R) (structuredPayload? scope s) (structuredPayload? scope' s') := by
  have h := hscope.module.tree
  have hunwrapped := unwrap_like h hs
  have hpayload : Option.Rel (Site.Like R)
      (if (unwrap s).kind = "identifier" then
        ((scope.module.lookup? (unwrap s).text (unwrap s).node).bind (·.value)).map unwrap
      else some (unwrap s))
      (if (unwrap s').kind = "identifier" then
        ((scope'.module.lookup? (unwrap s').text (unwrap s').node).bind (·.value)).map unwrap
      else some (unwrap s')) := by
    rw [← h.kindAt hunwrapped]
    split
    next hkind =>
      have hfound := (hscope.module.named hunwrapped (.inl hkind)).2
      exact (hfound.bind fun _ _ hb => hb.value).map fun _ _ => unwrap_like h
    next => exact .some hunwrapped
  unfold structuredPayload?
  dsimp only
  refine hpayload.elim .none fun payload payload' hpayload => ?_
  dsimp only
  rw [← isCallOf_like h hpayload.node (by decide)]
  split
  next hcall => exact (argumentsOf_like h hpayload (kind_of_isCallOf hcall)).head?
  next => exact .none

/-- A provider has the same payload on both sides. -/
theorem payload?_like (harguments : List.Forall₂ (Site.Like R) arguments arguments')
    (provider : Provider) :
    payload? scope provider arguments = payload? scope' provider arguments' := by
  have h := hscope.module.tree
  unfold payload?
  split
  · rw [positional?_like hscope harguments]
    cases harguments with
    | nil => rfl
    | cons hfirst _ =>
        dsimp only
        rw [literal?_like h hfirst.node]
  · cases harguments with
    | nil => rfl
    | cons hfirst _ =>
        exact (structuredPayload?_like hscope hfirst).bind_eq fun _ _ hc => keyed?_like hscope hc _
  · cases harguments with
    | nil => rfl
    | cons hfirst _ => exact keyed?_like hscope hfirst "event"
  · exact positional?_like hscope harguments 0 2
  · exact positional?_like hscope harguments 0 1

/-- A signature has the same payload on both sides. -/
theorem customPayload?_like (harguments : List.Forall₂ (Site.Like R) arguments arguments')
    (signature : Signature) :
    customPayload? scope signature arguments = customPayload? scope' signature arguments' := by
  unfold customPayload?
  rw [positional?_like hscope harguments]
  cases positional? scope' arguments' signature.eventIndex signature.propertiesIndex with
  | none => rfl
  | some found =>
      dsimp only
      congr 3
      funext fields extra
      exact (harguments.getElem? extra.index).elim rfl fun _ _ hc =>
        congrArg (Named.insert fields extra.name) ((valuesAlike hscope allHops).value hc)

/-- Related calls send the same event, if any. -/
theorem sent_event?_like (hs : s.Like R s') (hkind : s.kind = "call_expression")
    (signatures : List Signature) :
    (event? scope signatures s).map Event.sent = (event? scope' signatures s').map Event.sent := by
  have h := hscope.module.tree
  have harguments := argumentsOf_like h hs hkind
  have hopened := h.opened hs.node (by rw [show s.node.kind = _ from hkind]; decide)
  have hcallee :
      (s.node.child? "function").bind segments? = (s'.node.child? "function").bind segments? :=
    (hopened.child? "function").bind_eq fun _ _ => segments?_like h
  unfold event?
  rw [hcallee]
  cases (s'.node.child? "function").bind segments? with
  | none => rfl
  | some callee =>
      dsimp only
      simp only [customPayload?_like hscope harguments, payload?_like hscope harguments,
        Option.map_map]
      rfl

end Events

/-- Scripts that are read alike send the same events. -/
theorem sent_events {modules others : Modules} {m m' : Module} (hmodules : modules.Like others)
    (hm : m.Alike m') (signatures : List Signature) :
    (events modules signatures m).map Event.sent = (events others signatures m').map
      Event.sent := by
  obtain ⟨R, hm⟩ := hm
  rw [events, events, List.map_filterMap, List.map_filterMap]
  refine hm.calls.attach.filterMap_eq fun s s' ⟨hmem, hs⟩ => ?_
  have hkind : s.kind = "call_expression" := by simpa using (List.mem_filter.1 hmem).2
  exact sent_event?_like ⟨hmodules, hm⟩ hs hkind signatures

end Script

end TrackingPlan
