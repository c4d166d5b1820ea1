import TrackingPlan.Calls.Python
import TrackingPlan.Proofs.Comments.Tree

/-!
# Comments in Python files

Every function that reads a Python file gives the same on a file with more comments in it:
`content_events` says so of its events. Only behind a parenthesis a comment must not come first.
-/

namespace TrackingPlan.Python

open Node (Insertion)

/-- What the reading of Python files relies on. -/
def reading : Node.Reading where
  top := "module"
  scopes := ["module", "function_definition", "lambda"]
  firsts := ["parenthesized_expression"]

variable {root root' n n' : Node} {R : Node → Node → Prop} {s s' : Site}

/-! ## Names -/

/-- Related bindings: nodes in their places are related, and they start where related nodes do. -/
structure Binding.Twin (root : Node) (R : Node → Node → Prop) (b b' : Binding) : Prop where
  value : Option.Rel R b.value b'.value
  annotation : Option.Rel R b.annotation b'.annotation
  scope : R b.scope b'.scope
  isScope : b.scope.kind ∈ reading.scopes
  start : ∃ n n', R n n' ∧ n ≠ root ∧ b.start = n.start ∧ b'.start = n'.start

section Names

variable (h : Insertion reading root root' R)
include h

/-- The scope around a site has a twin. -/
theorem rel_scopeAround (hs : s.Twin R s') : R (scopeAround root s) (scopeAround root' s') := by
  refine (hs.ancestors.find? fun a a' ha => ?_).getD h.rooted
  rw [isScope, isScope, h.kind ha]

/-- The scope around a site is a function or the file. -/
theorem isScope_scopeAround (s : Site) : (scopeAround root s).kind ∈ reading.scopes := by
  unfold scopeAround
  cases hfound : s.ancestors.find? isScope with
  | none =>
      show root.kind ∈ reading.scopes
      rw [h.top]
      decide
  | some scope =>
      have hscope := List.find?_some hfound
      simpa [isScope, reading] using hscope

/-- A site has the same class around it in both files. -/
theorem owningClass?_eq (hs : s.Twin R s') : owningClass? s = owningClass? s' := by
  unfold owningClass?
  obtain ⟨-, hancestors⟩ := hs
  revert hancestors
  generalize s.ancestors = ancestors
  generalize s'.ancestors = ancestors'
  rintro (_ | ⟨hstatement, _ | ⟨hblock, _ | ⟨howner, -⟩⟩⟩) <;> try rfl
  dsimp only
  rw [h.kind hstatement, h.kind hblock, h.kind howner, h.childText? howner]

/-- An assignment gives a value to the same name in both files. -/
theorem assignedName?_eq (hn : R n n') : assignedName? n = assignedName? n' :=
  ((h.child? hn "left").filter fun _ _ hc => h.isKind hc _).map_eq fun _ _ => h.text

/-- The constant of an assignment has a twin. -/
theorem rel_assignmentConstant? (hs : s.Twin R s') :
    Option.Rel (Keyed R) (assignmentConstant? root s) (assignmentConstant? root' s') := by
  unfold assignmentConstant?
  rw [assignedName?_eq h hs.node, owningClass?_eq h hs, h.kind (rel_scopeAround h hs)]
  cases assignedName? s'.node with
  | none => exact .none
  | some name =>
      refine (h.child? hs.node "right").elim .none fun value value' hvalue => ?_
      cases owningClass? s' with
      | some owner => exact .some ⟨rfl, hvalue⟩
      | none =>
          dsimp only
          split
          · exact .some ⟨rfl, hvalue⟩
          · exact .none

/-- The binding of an assignment has a twin. -/
theorem rel_assignmentBinding? (hs : s.Twin R s') (hkind : s.kind = "assignment") :
    Option.Rel (Keyed (Binding.Twin root R)) (assignmentBinding? root s)
      (assignmentBinding? root' s') := by
  have hne : s.node ≠ root := h.ne_root (by rw [show s.node.kind = "assignment" from hkind]; decide)
  unfold assignmentBinding?
  rw [assignedName?_eq h hs.node, owningClass?_eq h hs]
  cases assignedName? s'.node with
  | none => exact .none
  | some name =>
      cases owningClass? s' with
      | some owner => exact .none
      | none =>
          refine .some ⟨rfl, ?_⟩
          exact {
            value := h.child? hs.node "right"
            annotation := h.child? hs.node "type"
            scope := rel_scopeAround h hs
            isScope := isScope_scopeAround h s
            start := ⟨s.node, s'.node, hs.node, hne, rfl, rfl⟩ }

/-- A parameter has the same name in both files. -/
theorem parameterName?_eq (hn : R n n') : parameterName? n = parameterName? n' := by
  unfold parameterName?
  rw [h.kind hn]
  split
  · rw [h.text hn]
  · exact ((h.namedChildren hn).find? fun _ _ hc => h.isKind hc _).map_eq fun _ _ => h.text
  · exact h.childText? hn "name"
  · exact h.childText? hn "name"
  · rfl

/-- A parameter is not the root. -/
theorem ne_root_of_parameterName? {name : String} (hn : parameterName? n = some name) :
    n ≠ root := by
  refine h.ne_root fun hkind => ?_
  rw [parameterName?, hkind] at hn
  cases hn

/-- The bindings of parameters have twins. -/
theorem rel_parameterBindings (hn : R n n') (hkind : n.kind = "function_definition") :
    List.Forall₂ (Keyed (Binding.Twin root R)) (parameterBindings n) (parameterBindings n') := by
  unfold parameterBindings
  refine (h.child? hn "parameters").elim .nil fun parameters parameters' hparameters => ?_
  refine List.rel_filterMap (fun parameter parameter' hparameter => ?_)
    (h.namedChildren hparameters)
  rw [parameterName?_eq h hparameter]
  cases hname : parameterName? parameter' with
  | none => exact .none
  | some name =>
      rw [← parameterName?_eq h hparameter] at hname
      refine .some ⟨rfl, ?_⟩
      exact {
        value := .none
        annotation := h.child? hparameter "type"
        scope := hn
        isScope := by rw [hkind]; decide
        start := ⟨_, _, hparameter, ne_root_of_parameterName? h hname, rfl, rfl⟩ }

/-- The bindings at a site have twins. -/
theorem rel_bindingsAt (hs : s.Twin R s') :
    List.Forall₂ (Keyed (Binding.Twin root R)) (bindingsAt root s) (bindingsAt root' s') := by
  unfold bindingsAt
  rw [h.kindAt hs]
  split
  next hkind => exact (rel_assignmentBinding? h hs ((h.kindAt hs).trans hkind)).toList
  next hkind => exact rel_parameterBindings h hs.node ((h.kindAt hs).trans hkind)
  next => exact .nil

end Names

/-- Related files: the same names, with related bindings. -/
structure Unit.Twin (root : Node) (R : Node → Node → Prop) (u u' : Unit) : Prop where
  bindings : List.Forall₂ (Keyed (Binding.Twin root R)) u.bindings u'.bindings
  constants : List.Forall₂ (Keyed R) u.constants u'.constants

/-- A file and its commented twin declare the same. -/
theorem twin_ofTree (h : Insertion reading root root' R) :
    (Unit.ofTree root).Twin root R (Unit.ofTree root') where
  bindings := (h.interleaved_all h.twin_root).flatMap (fun s s' hs => rel_bindingsAt h hs)
    fun s hs => by
      rw [bindingsAt, show s.kind = "comment" from hs.kind]
      rfl
  constants := List.rel_reverse (List.rel_filterMap (fun s s' hs => rel_assignmentConstant? h hs)
    (h.sitesOfKind h.twin_root (by decide)))

section Lookup

variable (h : Insertion reading root root' R) {u u' : Unit} (hu : u.Twin root R u')
include h hu

/-- What a name stands for at a place is declared by the same binding. -/
theorem rel_lookup? (hn : R n n') (hne : n ≠ root) (name : String) :
    Option.Rel (Binding.Twin root R) (u.lookup? name n) (u'.lookup? name n') := by
  -- bindings are compared only when their scopes contain the place
  have hfold : Option.Rel
      (fun b b' => Binding.Twin root R b b' ∧ b.scope.contains n = true ∧
        b'.scope.contains n' = true)
      (u.lookup? name n) (u'.lookup? name n') := by
    unfold Unit.lookup?
    refine List.rel_foldl (P := Option.Rel _) ?_ .none hu.bindings
    rintro best best' hbest ⟨key, b⟩ ⟨key', b'⟩ ⟨rfl, hb⟩
    obtain ⟨m, m', hm, hmne, hstart, hstart'⟩ := hb.start
    have hcontains : b.scope.contains n = b'.scope.contains n' := h.contains hb.scope hn hb.isScope
    have hbefore : b.start ≤ n.start ↔ b'.start ≤ n'.start := by
      rw [hstart, hstart']
      exact h.starts hm hn hmne hne
    dsimp only
    simp only [hcontains, hbefore]
    split
    next hvisible =>
      have hin' : b'.scope.contains n' = true := by simp_all
      have hin : b.scope.contains n = true := hcontains.trans hin'
      cases hbest with
      | none => exact .some ⟨hb, hin, hin'⟩
      | @some held held' hheld =>
          obtain ⟨hheld, hheldIn, hheldIn'⟩ := hheld
          obtain ⟨k, k', hk, hkne, hheldStart, hheldStart'⟩ := hheld.start
          have hnarrower : Unit.width b.scope < Unit.width held.scope ↔
              Unit.width b'.scope < Unit.width held'.scope :=
            h.narrower hb.scope hheld.scope hn hb.isScope hheld.isScope hin hheldIn
          have hwider : Unit.width held.scope < Unit.width b.scope ↔
              Unit.width held'.scope < Unit.width b'.scope :=
            h.narrower hheld.scope hb.scope hn hheld.isScope hb.isScope hheldIn hin
          have hlater : held.start < b.start ↔ held'.start < b'.start := by
            rw [hheldStart, hheldStart', hstart, hstart']
            exact h.lt_iff hk hm hkne hmne
          have hcloser : Unit.closer b held = Unit.closer b' held' := by
            unfold Unit.closer
            have hsame : Unit.width b.scope = Unit.width held.scope ↔
                Unit.width b'.scope = Unit.width held'.scope := by omega
            simp only [hnarrower, hsame, hlater]
          dsimp only
          rw [hcloser]
          split
          · exact .some ⟨hb, hin, hin'⟩
          · exact .some ⟨hheld, hheldIn, hheldIn'⟩
    next => exact hbest
  exact hfold.imp fun b b' hb => hb.1

end Lookup

/-! ## Literals and arguments -/

section Arguments

variable (h : Insertion reading root root' R)
include h

/-- A literal has the same text in both files. -/
theorem literal?_eq (hn : R n n') : literal? n = literal? n' := by
  unfold literal?
  rw [h.kind hn, h.text hn, (h.namedChildren hn).any_eq fun _ _ hc => h.isKind hc _]

/-- A dotted name has the same segments in both files. -/
theorem segments?_eq (hn : R n n') : segments? n = segments? n' := by
  induction n using Node.induction_size generalizing n' with
  | h n ih =>
      rw [segments?, segments?, h.kind hn, h.text hn, h.childText? hn]
      split
      · rfl
      · refine (h.smallerChild? hn "object").elim rfl fun object object' hobject => ?_
        dsimp only
        rw [ih object hobject.1 hobject.2]
      · rfl

/-- A call has the same callee in both files. -/
theorem calleeOf?_eq (hn : R n n') : calleeOf? n = calleeOf? n' :=
  (h.child? hn "function").bind_eq fun _ _ hc => segments?_eq h hc

/-- A keyword argument has a twin. -/
theorem rel_keyword? (hn : R n n') :
    Option.Rel (Keyed R) (Arguments.keyword? n) (Arguments.keyword? n') := by
  unfold Arguments.keyword?
  rw [h.childText? hn]
  cases n'.childText? "name" with
  | none => exact .none
  | some name => exact (h.child? hn "value").elim .none fun _ _ hvalue => .some ⟨rfl, hvalue⟩

end Arguments

/-- Related arguments. -/
structure Arguments.Twin (R : Node → Node → Prop) (args args' : Arguments) : Prop where
  positional : List.Forall₂ R args.positional args'.positional
  keywords : List.Forall₂ (Keyed R) args.keywords args'.keywords

/-- The arguments of a call have twins. -/
theorem Arguments.twin_ofCall (h : Insertion reading root root' R) (hn : R n n') :
    (ofCall n).Twin R (ofCall n') := by
  unfold ofCall
  refine (h.child? hn "arguments").elim ⟨.nil, .nil⟩ fun list list' hlist => ?_
  have hall := h.namedChildren hlist
  constructor
  · exact hall.filter fun c c' hc => by rw [h.kind hc]
  · exact List.rel_filterMap (fun c c' hc => rel_keyword? h hc)
      (hall.filter fun _ _ hc => h.isKind hc _)

section Arguments

variable {args args' : Arguments} (hargs : args.Twin R args')
include hargs

/-- The keyword argument with a name has a twin. -/
theorem Arguments.Twin.named? (name : String) :
    Option.Rel R (args.named? name) (args'.named? name) :=
  rel_lookup hargs.keywords name

/-- The argument at a place, or with a name, has a twin. -/
theorem Arguments.Twin.find? (index : Nat) (name : String) :
    Option.Rel R (args.find? index name) (args'.find? index name) :=
  (hargs.named? name).or (hargs.positional.getElem? index)

end Arguments

/-! ## Names and schemas -/

section Values

variable (h : Insertion reading root root' R) {u u' : Unit} (hu : u.Twin root R u')
include h hu

/-- An argument names the same event in both files. -/
theorem eventName?_eq (hn : R n n') : eventName? u n = eventName? u' n' := by
  unfold eventName?
  rw [literal?_eq h hn, h.kind hn, h.text hn, segments?_eq h hn]
  split
  · rfl
  · split
    next hkind =>
      have hne : n ≠ root := h.ne_root (by rw [h.kind hn, hkind]; decide)
      have hvalue := (rel_lookup? h hu hn hne n'.text).bind fun _ _ hb => hb.value
      exact (hvalue.or (rel_lookup hu.constants _)).bind_eq fun _ _ hc => literal?_eq h hc
    next =>
      split
      · rfl
      · exact (rel_lookup hu.constants _).bind_eq fun _ _ hc => literal?_eq h hc
    next => rfl

omit hu in
/-- Related values have the same schemas, and so do the fields of related dictionaries. -/
theorem dictionaryFields_eq {value value' : Node → Schema}
    (hvalue : ∀ c c', R c c' → value c = value' c') (hn : R n n') :
    dictionaryFields value n = dictionaryFields value' n' := by
  unfold dictionaryFields
  refine congrArg Named.ofEntries ?_
  refine ((h.namedChildren hn).filter fun _ _ hc => h.isKind hc _).filterMap_eq
    fun pair pair' hpair => ?_
  rw [(h.child? hpair "key").bind_eq fun _ _ hc => literal?_eq h hc,
    (h.child? hpair "value").map_eq hvalue]

omit h hu in
/-- Keyword arguments have the same fields in both files. -/
theorem keywordFields_eq {value value' : Node → Schema}
    (hvalue : ∀ c c', R c c' → value c = value' c') {keywords keywords' : List (String × Node)}
    (hkeywords : List.Forall₂ (Keyed R) keywords keywords') :
    keywordFields value keywords = keywordFields value' keywords' := by
  refine congrArg Named.ofEntries (hkeywords.map_eq ?_)
  rintro ⟨name, n⟩ ⟨name', n'⟩ ⟨rfl, hn⟩
  exact Prod.ext rfl (hvalue n n' hn)

omit hu in
/-- The fields of a dictionary that is made by a call are the same in both files. -/
theorem constructedFields?_eq {value value' : Node → Schema}
    (hvalue : ∀ c c', R c c' → value c = value' c') (hn : R n n') :
    constructedFields? value n = constructedFields? value' n' := by
  have hargs := Arguments.twin_ofCall h hn
  have hmaker : (n.child? "function").any (fun f => f.kind = "identifier" && f.text = "dict") =
      (n'.child? "function").any fun f => f.kind = "identifier" && f.text = "dict" :=
    (h.child? hn "function").any_eq fun f f' hf => by rw [h.kind hf, h.text hf]
  unfold constructedFields?
  rw [hmaker]
  split
  · dsimp only
    rw [keywordFields_eq hvalue hargs.keywords]
    refine hargs.positional.head?.elim rfl fun first first' hfirst => ?_
    dsimp only
    rw [h.kind hfirst, dictionaryFields_eq h hvalue hfirst]
  · rfl

/-- An expression has the same schema in both files. -/
theorem valueSchema_eq (steps : Nat) (hn : R n n') :
    valueSchema u steps n = valueSchema u' steps n' := by
  induction steps generalizing n n' with
  | zero => rw [valueSchema, valueSchema]
  | succ steps ih =>
      have hvalue : ∀ c c', R c c' → valueSchema u steps c = valueSchema u' steps c' :=
        fun c c' => ih
      rw [valueSchema, valueSchema, eventName?_eq h hu hn, h.kind hn, h.text hn,
        dictionaryFields_eq h hvalue hn, constructedFields?_eq h hvalue hn,
        (h.namedChildren hn).map_eq hvalue]
      split <;> try rfl
      next hkind =>
        have hfirst := h.first hn (by rw [h.kind hn, hkind]; decide)
        rw [hfirst.map_eq hvalue]
      next hkind =>
        have hne : n ≠ root := h.ne_root (by rw [h.kind hn, hkind]; decide)
        refine (rel_lookup? h hu hn hne n'.text).elim rfl fun b b' hb => ?_
        dsimp only
        refine hb.annotation.elim ?_ fun type type' htype => ?_
        · exact hb.value.elim rfl fun _ _ hc => ih hc
        · dsimp only
          rw [h.text htype]

/-- An expression is the same mapping in both files. -/
theorem mapping?_eq (hn : R n n') : mapping? u n = mapping? u' n' := by
  have hvalue : ∀ c c', R c c' → valueSchema u allSteps c = valueSchema u' allSteps c' :=
    fun c c' => valueSchema_eq h hu allSteps
  unfold mapping?
  rw [h.kind hn, dictionaryFields_eq h hvalue hn, constructedFields?_eq h hvalue hn]

/-- An argument has the same properties in both files. -/
theorem propertiesOf_eq {argument argument' : Option Node}
    (hargument : Option.Rel R argument argument') :
    propertiesOf u argument = propertiesOf u' argument' := by
  cases hargument with
  | none => rfl
  | @some n n' hn =>
      have hsource : Option.Rel R
          (if n.kind = "identifier" then (u.lookup? n.text n).bind (·.value) else some n)
          (if n'.kind = "identifier" then (u'.lookup? n'.text n').bind (·.value) else some n') := by
        rw [h.kind hn, h.text hn]
        split
        next hkind =>
          have hne : n ≠ root := h.ne_root (by rw [h.kind hn, hkind]; decide)
          exact (rel_lookup? h hu hn hne n'.text).bind fun _ _ hb => hb.value
        next => exact .some hn
      unfold propertiesOf
      dsimp only
      rw [hsource.bind_eq fun _ _ hc => mapping?_eq h hu hc]

/-! ## Events -/

variable {args args' : Arguments}

/-- The keyword arguments apart from one have the same properties in both files. -/
theorem keywordsExcept_eq (hargs : args.Twin R args') (skipped : String) :
    keywordsExcept u args skipped = keywordsExcept u' args' skipped := by
  have hkeywords := hargs.keywords.filter (p := fun entry => decide (entry.1 ≠ skipped))
    (q := fun entry => decide (entry.1 ≠ skipped)) fun _ _ ⟨hname, _⟩ => by rw [hname]
  exact keywordFields_eq (fun _ _ hc => valueSchema_eq h hu allSteps hc) hkeywords

/-- An event object carries the same name and properties in both files. -/
theorem carried?_eq (hargs : args.Twin R args') : carried? u args = carried? u' args' := by
  unfold carried?
  refine (hargs.positional.head?.filter fun _ _ hc => h.isKind hc _).bind_eq
    fun made made' hmade => ?_
  have hinner := Arguments.twin_ofCall h hmade
  have hname {n n' : Option Node} (hn : Option.Rel R n n') :
      n.bind (eventName? u) = n'.bind (eventName? u') :=
    hn.bind_eq fun _ _ hc => eventName?_eq h hu hc
  rw [calleeOf?_eq h hmade]
  simp only [hname (hinner.find? 0 "event_type"), hname (hinner.named? "action"),
    propertiesOf_eq h hu (hinner.named? "event_properties"), keywordsExcept_eq h hu hinner]

omit h hu in
/-- The argument for the name of an event has a twin. -/
theorem rel_nameArgument? (hargs : args.Twin R args') (provider : Provider) :
    Option.Rel R (nameArgument? provider args) (nameArgument? provider args') := by
  unfold nameArgument?
  rw [hargs.positional.length_eq]
  split
  · exact hargs.named? "action"
  · exact hargs.find? _ "event"
  · exact hargs.find? 1 "event_name"
  · exact hargs.find? 1 "event"

/-- A provider is sent the same in both files. -/
theorem sent?_eq (hargs : args.Twin R args') (callee : List String) :
    sent? u callee args = sent? u' callee args' := by
  have hname (provider : Provider) : (nameArgument? provider args).bind (eventName? u) =
      (nameArgument? provider args').bind (eventName? u') :=
    (rel_nameArgument? hargs provider).bind_eq fun _ _ hc => eventName?_eq h hu hc
  unfold sent?
  simp only [hname, keywordsExcept_eq h hu hargs, propertiesOf_eq h hu (hargs.find? 2 "properties")]

/-- A call has the same payload for a signature in both files. -/
theorem custom?_eq (hargs : args.Twin R args') (signature : Signature) :
    custom? u signature args = custom? u' signature args' := by
  have hname : args.positional[signature.eventIndex]?.bind (eventName? u) =
      args'.positional[signature.eventIndex]?.bind (eventName? u') :=
    (hargs.positional.getElem? signature.eventIndex).bind_eq fun _ _ hc => eventName?_eq h hu hc
  unfold custom?
  rw [hname, propertiesOf_eq h hu (hargs.positional.getElem? signature.propertiesIndex)]
  congr 1
  funext name
  dsimp only
  congr 4
  funext fields extra
  exact (hargs.positional.getElem? extra.index).elim rfl fun _ _ hc =>
    congrArg (Named.insert fields extra.name) (valueSchema_eq h hu allSteps hc)

/-- A call has the same payload in both files. -/
theorem payload?_eq (hn : R n n') (signatures : List Signature) :
    payload? u signatures n = payload? u' signatures n' := by
  have hargs := Arguments.twin_ofCall h hn
  unfold payload?
  rw [calleeOf?_eq h hn]
  cases calleeOf? n' with
  | none => rfl
  | some callee =>
      dsimp only
      simp only [custom?_eq h hu hargs, carried?_eq h hu hargs, sent?_eq h hu hargs]

end Values

/-- A call has the same context in both files. -/
theorem context_eq (h : Insertion reading root root' R) (hs : s.Twin R s') :
    context s = context s' := by
  unfold context
  rw [(hs.ancestors.filter fun _ _ ha => h.isKind ha _).findSome?_eq fun _ _ ha =>
    h.childText? ha _]

/-- More comments in a Python file, but for the first place behind a parenthesis, leave what its
calls send as it was. -/
theorem content_events (h : Node.Commented reading root root') (signatures : List Signature)
    (path : Path) : (events signatures path root).map Event.content =
      (events signatures path root').map Event.content := by
  obtain ⟨R, h⟩ := h
  have hcalls : List.Forall₂ (Site.Twin R) (calls root) (calls root') :=
    h.sitesOfKind h.twin_root (by decide)
  have hevent (s s' : Site) (hs : s.Twin R s') :
      (event? (Unit.ofTree root) signatures path s).map Event.content =
        (event? (Unit.ofTree root') signatures path s').map Event.content := by
    rw [event?, event?, payload?_eq h (twin_ofTree h) hs.node, context_eq h hs, Option.map_map,
      Option.map_map]
    rfl
  rw [events, events, List.map_filterMap, List.map_filterMap]
  exact hcalls.filterMap_eq hevent

end TrackingPlan.Python
