import TrackingPlan.Calls.Ruby
import TrackingPlan.Proofs.Comments.Tree

/-!
# Comments in Ruby files

Every function that reads a Ruby file gives the same on a file with more comments in it:
`constants_ofTree` says so of its constants, and `content_events` of its events. Only behind a
parenthesis a comment must not come first.
-/

namespace TrackingPlan.Ruby

open Node (Insertion)

/-- What the reading of Ruby files relies on. -/
def reading : Node.Reading where
  top := "program"
  scopes := []
  firsts := ["parenthesized_statements"]

variable {root root' n n' : Node} {R : Node → Node → Prop} {s s' : Site}

section Names

variable (h : Insertion reading root root' R)
include h

/-! ## Constants -/

/-- A literal has the same text in both files. -/
theorem literal?_eq (hn : R n n') : literal? n = literal? n' := by
  induction n using Node.induction_size generalizing n' with
  | h n ih =>
      rw [literal?, literal?, h.kind hn, h.text hn, h.childText? hn,
        (h.namedChildren hn).any_eq fun _ _ hc => h.isKind hc _]
      split
      · rfl
      · split
        · refine (h.smallerChild? hn "receiver").elim rfl fun receiver receiver' hreceiver => ?_
          exact ih receiver hreceiver.1 hreceiver.2
        · rfl
      · rfl

/-- A class or module has the same name in both files. -/
theorem containerName?_eq (hn : R n n') : containerName? n = containerName? n' := by
  rw [containerName?, containerName?, isContainer, isContainer, h.kind hn, h.childText? hn]

/-- An assignment gives a value to the same constant in both files. -/
theorem assignedConstant?_eq (hn : R n n') (around : List String) :
    assignedConstant? around n = assignedConstant? around n' := by
  have hvalue : (n.child? "right").bind literal? = (n'.child? "right").bind literal? :=
    (h.child? hn "right").bind_eq fun _ _ hc => literal?_eq h hc
  unfold assignedConstant?
  rw [hvalue]
  refine (h.child? hn "left").elim rfl fun left left' hleft => ?_
  cases (n'.child? "right").bind literal? with
  | none => rfl
  | some value =>
      dsimp only
      rw [h.kind hleft, h.text hleft]

omit h in
/-- The constants in a node are its own, if it is an assignment, and those in its children. -/
theorem constantsIn_eq_append (around : List String) (n : Node) : constantsIn around n =
    (if n.kind = "assignment" then (assignedConstant? around n).toList else []) ++
      n.namedChildren.flatMap (constantsIn (around ++ (containerName? n).toList)) := by
  rw [constantsIn]
  simp only [List.flatMap_subtype, List.unattach_attach]

/-- A node has the same constants in both files. -/
theorem constantsIn_eq (hn : R n n') (around : List String) :
    constantsIn around n = constantsIn around n' := by
  induction n using Node.induction_size generalizing n' around with
  | h n ih =>
      rw [constantsIn_eq_append, constantsIn_eq_append, h.kind hn, assignedConstant?_eq h hn,
        containerName?_eq h hn]
      congr 1
      refine (h.namedChildren hn).attach.flatMap_eq fun c c' ⟨hmem, hc⟩ => ?_
      exact ih c (Node.size_namedChildren_lt hmem) hc _

/-! ## Names and hashes -/

/-- A dotted name has the same segments in both files. -/
theorem segments?_eq (hn : R n n') : segments? n = segments? n' := by
  induction n using Node.induction_size generalizing n' with
  | h n ih =>
      rw [segments?, segments?, h.kind hn, h.text hn]
      split
      · rfl
      · rfl
      · dsimp only
        rw [h.childText? hn]
        refine (h.smallerChild? hn "scope").elim rfl fun inner inner' hinner => ?_
        dsimp only
        rw [ih inner hinner.1 hinner.2]
      · dsimp only
        rw [h.childText? hn]
        refine (h.smallerChild? hn "receiver").elim rfl fun inner inner' hinner => ?_
        dsimp only
        rw [ih inner hinner.1 hinner.2]
      · rfl

/-- A pair has the same key in both files. -/
theorem pairKey?_eq (hn : R n n') : pairKey? n = pairKey? n' := by
  unfold pairKey?
  refine (h.child? hn "key").elim rfl fun key key' hkey => ?_
  dsimp only
  rw [h.kind hkey, h.text hkey]

/-- The hash that an expression is has a twin. -/
theorem rel_hashOf? (hs : s.Twin R s') : Option.Rel (Site.Twin R) (hashOf? s) (hashOf? s') := by
  induction s using Site.induction_size generalizing s' with
  | h s ih =>
      rw [hashOf?, hashOf?, h.kindAt hs, h.childTextAt? hs]
      split
      next => exact .some hs
      next =>
        split
        · refine (h.smallerChildAt? hs "receiver").elim .none fun receiver receiver' hreceiver => ?_
          exact ih receiver hreceiver.1 hreceiver.2
        · exact .none
      next hkind =>
        have hfirst := h.smallerFirstAt? hs (by rw [h.kindAt hs, hkind]; decide)
        refine hfirst.elim .none fun inner inner' hinner => ?_
        exact ih inner hinner.1 hinner.2
      next => exact .none

omit h in
/-- What an expression is as a hash is a hash. -/
theorem kind_of_hashOf? {hash : Site} (hs : hashOf? s = some hash) : hash.kind = "hash" := by
  fun_induction hashOf? s with
  | case1 s hkind =>
      cases hs
      exact hkind
  | case2 => cases hs
  | case3 s hkind hmethod receiver hreceiver ih => exact ih hs
  | case4 => cases hs
  | case5 => cases hs
  | case6 s hkind inner hinner ih => exact ih hs
  | case7 => cases hs

/-- Related sites of hashes. -/
structure HashTwin (R : Node → Node → Prop) (s s' : Site) : Prop where
  twin : s.Twin R s'
  kind : s.kind = "hash"

/-- The hash that is assigned to a variable has a twin. -/
theorem rel_assignedHash? (hs : s.Twin R s') :
    Option.Rel (Keyed (HashTwin R)) (assignedHash? s) (assignedHash? s') := by
  unfold assignedHash?
  have hhash : Option.Rel (HashTwin R) ((s.child? "right").bind hashOf?)
      ((s'.child? "right").bind hashOf?) := by
    refine (h.childAt? hs "right").bind fun c c' hc => ?_
    exact (rel_hashOf? h hc).attach.imp fun _ _ ⟨hmem, hr⟩ => ⟨hr, kind_of_hashOf? hmem⟩
  have hleft : Option.Rel (Site.Twin R) ((s.child? "left").filter (·.kind = "identifier"))
      ((s'.child? "left").filter (·.kind = "identifier")) :=
    (h.childAt? hs "left").filter fun _ _ hc => h.isKindAt hc _
  refine hleft.elim .none fun left left' hr => ?_
  exact hhash.elim .none fun _ _ hhash => .some ⟨h.textAt hr, hhash⟩

omit h in
/-- A site comes before its children, and the last child before the others. -/
theorem lastFirst_eq_cons (s : Site) : lastFirst s = s :: s.children.reverse.flatMap lastFirst := by
  rw [lastFirst]
  simp only [List.flatMap_subtype, List.unattach_attach]

/-- The sites, the last ones first, have twins. -/
theorem rel_lastFirst (hs : s.Twin R s') :
    List.Forall₂ (Site.Twin R) (lastFirst s) (lastFirst s') := by
  induction s using Site.induction_size generalizing s' with
  | h s ih =>
      rw [lastFirst_eq_cons, lastFirst_eq_cons]
      refine .cons hs (List.rel_flatMap (List.rel_reverse (h.childrenAt hs).attach) ?_)
      rintro c c' ⟨hmem, hc⟩
      exact ih c (Site.size_children_lt hmem) hc

end Names

/-- Related files: the same constants, and related hashes of variables. -/
structure Unit.Twin (R : Node → Node → Prop) (u u' : Unit) : Prop where
  directory : u.directory = u'.directory
  constants : u.constants = u'.constants
  index : u.index = u'.index
  hashes : List.Forall₂ (Keyed (HashTwin R)) u.hashes u'.hashes

/-- A file and its commented twin declare the same. -/
theorem twin_ofTree (h : Insertion reading root root' R) (index : Option ConstantIndex)
    (path : Path) :
    (Unit.ofTree index path root).Twin R (Unit.ofTree index path root') where
  directory := rfl
  constants := congrArg Named.ofEntries (constantsIn_eq h h.rooted [])
  index := rfl
  hashes := List.rel_filterMap (fun _ _ hs => rel_assignedHash? h hs)
    ((rel_lastFirst h h.twin_root).filter fun _ _ hs => h.isKindAt hs _)

section Values

variable (h : Insertion reading root root' R) {u u' : Unit} (hu : u.Twin R u')
include h hu

/-- A name stands for the same constant in both files. -/
theorem constant?_eq (hs : s.Twin R s') : u.constant? s = u'.constant? s' := by
  unfold Unit.constant?
  rw [hs.ancestors.filterMap_eq fun _ _ => containerName?_eq h, h.textAt hs, hu.directory,
    hu.constants, hu.index]

/-- The hash that an expression leads to has a twin. -/
theorem rel_resolveHash? (hs : s.Twin R s') :
    Option.Rel (Site.Twin R) (u.resolveHash? s) (u'.resolveHash? s') := by
  unfold Unit.resolveHash?
  refine (rel_hashOf? h hs).elim ?_ fun _ _ hhash => .some hhash
  dsimp only
  rw [h.kindAt hs]
  split
  next hkind =>
    have hkind' : s.node.kind = "identifier" := (h.kindAt hs).trans hkind
    have hne : s.node ≠ root := h.ne_root (by rw [hkind']; decide)
    refine Option.Rel.map (List.Forall₂.getLast? (hu.hashes.filter ?_)) fun _ _ hhash =>
      hhash.value.twin
    rintro ⟨name, hash⟩ ⟨name', hash'⟩ ⟨rfl, htwin, hhash⟩
    have hhashNe : hash.node ≠ root :=
      h.ne_root (by rw [show hash.node.kind = _ from hhash]; decide)
    have hlt := h.lt_iff htwin.node hs.node hhashNe hne
    dsimp only
    rw [h.textAt hs]
    simp only [hlt]
  next => exact .none

/-- An argument names the same event in both files. -/
theorem eventName?_eq (hs : s.Twin R s') : eventName? u s = eventName? u' s' := by
  unfold eventName?
  rw [literal?_eq h hs.node, h.kindAt hs, constant?_eq h hu hs]

/-! ## Schemas -/

omit hu in
/-- Pairs have the same fields in both files. -/
theorem pairFields_eq {value value' : Site → Schema}
    (hvalue : ∀ c c', c.Twin R c' → value c = value' c')
    {sites sites' : List Site} (hsites : List.Forall₂ (Site.Twin R) sites sites') :
    pairFields value sites = pairFields value' sites' := by
  refine congrArg Named.ofEntries ?_
  refine (hsites.filter fun _ _ hc => h.isKindAt hc _).filterMap_eq fun pair pair' hpair => ?_
  rw [pairKey?_eq h hpair.node, (h.childAt? hpair "value").map_eq hvalue]

/-- An expression has the same schema in both files. -/
theorem valueSchema_eq (steps : Nat) (hs : s.Twin R s') :
    valueSchema u steps s = valueSchema u' steps s' := by
  induction steps generalizing s s' with
  | zero => rw [valueSchema, valueSchema]
  | succ steps ih =>
      have hvalue : ∀ c c', c.Twin R c' → valueSchema u steps c = valueSchema u' steps c' :=
        fun c c' => ih
      rw [valueSchema, valueSchema, h.kindAt hs, pairFields_eq h hvalue (h.childrenAt hs),
        (h.childrenAt hs).map_eq hvalue, h.childTextAt? hs, constant?_eq h hu hs,
        literal?_eq h hs.node]
      split <;> try rfl
      refine (rel_hashOf? h hs).elim rfl fun hash hash' hhash => ?_
      dsimp only
      rw [pairFields_eq h hvalue (h.childrenAt hhash)]

/-- An argument has the same properties in both files. -/
theorem propertiesOf_eq {argument argument' : Option Site}
    (hargument : Option.Rel (Site.Twin R) argument argument') :
    propertiesOf u argument = propertiesOf u' argument' := by
  unfold propertiesOf
  refine (hargument.bind fun _ _ => rel_resolveHash? h hu).elim rfl fun hash hash' hhash => ?_
  exact pairFields_eq h (fun _ _ hc => valueSchema_eq h hu allSteps hc) (h.childrenAt hhash)

/-! ## Events -/

omit hu in
/-- The arguments of a call have twins. -/
theorem rel_argumentsOf (hs : s.Twin R s') :
    List.Forall₂ (Site.Twin R) (argumentsOf s) (argumentsOf s') := by
  unfold argumentsOf
  exact (h.childAt? hs "arguments").elim .nil fun _ _ hlist => h.childrenAt hlist

variable {arguments arguments' : List Site}
  (harguments : List.Forall₂ (Site.Twin R) arguments arguments')
include harguments

omit hu in
/-- The positional arguments have twins. -/
theorem rel_positional :
    List.Forall₂ (Site.Twin R) (positional arguments) (positional arguments') :=
  harguments.filter fun _ _ hc => by rw [h.kindAt hc]

/-- The keyword arguments have twins, if there are any. -/
theorem rel_keywords? : Option.Rel (List.Forall₂ (Keyed (Site.Twin R))) (keywords? u arguments)
    (keywords? u' arguments') := by
  unfold keywords?
  rw [harguments.any_eq fun _ _ hc => h.isKindAt hc _]
  have hpairs : Option.Rel (List.Forall₂ (Site.Twin R))
      (if arguments'.any (fun s => decide (s.kind = "pair")) = true then some arguments
        else (arguments.head?.bind u.resolveHash?).map (·.children))
      (if arguments'.any (fun s => decide (s.kind = "pair")) = true then some arguments'
        else (arguments'.head?.bind u'.resolveHash?).map (·.children)) := by
    split
    · exact .some harguments
    · exact (harguments.head?.bind fun _ _ => rel_resolveHash? h hu).map fun _ _ => h.childrenAt
  refine hpairs.map fun pairs pairs' hpairs => ?_
  refine List.rel_filterMap (fun pair pair' hpair => ?_)
    (hpairs.filter fun _ _ hc => h.isKindAt hc _)
  rw [pairKey?_eq h hpair.node]
  cases pairKey? pair'.node with
  | none => exact .none
  | some key => exact (h.childAt? hpair "value").elim .none fun _ _ hvalue => .some ⟨rfl, hvalue⟩

omit harguments in
/-- Keyword arguments give the same name and properties in both files. -/
theorem fromKeywords?_eq (keys : Keys) {keywords keywords' : List (String × Site)}
    (hkeywords : List.Forall₂ (Keyed (Site.Twin R)) keywords keywords') :
    fromKeywords? u keys keywords = fromKeywords? u' keys keywords' := by
  have hname : (keywords.lookup keys.event).bind (eventName? u) =
      (keywords'.lookup keys.event).bind (eventName? u') :=
    (rel_lookup hkeywords keys.event).bind_eq fun _ _ hc => eventName?_eq h hu hc
  unfold fromKeywords?
  rw [hname, propertiesOf_eq h hu (rel_lookup hkeywords keys.properties)]
  congr 1
  funext name
  dsimp only
  congr 4
  funext fields key
  exact (rel_lookup hkeywords key).elim rfl fun _ _ hc =>
    congrArg (Named.insert fields key) (valueSchema_eq h hu allSteps hc)

/-- A provider is sent the same in both files. -/
theorem sent?_eq (provider : Provider) :
    sent? u provider arguments = sent? u' provider arguments' := by
  have hplaces := rel_positional h harguments
  have hkeywords := rel_keywords? h hu harguments
  have hfrom (keys : Keys) : (keywords? u arguments).bind (fromKeywords? u keys) =
      (keywords? u' arguments').bind (fromKeywords? u' keys) :=
    hkeywords.bind_eq fun _ _ hc => fromKeywords?_eq h hu keys hc
  unfold sent?
  dsimp only
  split
  · exact hfrom _
  · exact hfrom _
  · exact hfrom _
  · have hname : (positional arguments)[1]?.bind (eventName? u) =
        (positional arguments')[1]?.bind (eventName? u') :=
      (hplaces.getElem? 1).bind_eq fun _ _ hc => eventName?_eq h hu hc
    rw [hname, propertiesOf_eq h hu (hplaces.getElem? 2)]
    congr 1
    funext name
    refine hplaces.head?.elim rfl fun user user' huser => ?_
    dsimp only
    rw [valueSchema_eq h hu allSteps huser]
  · refine (hplaces.head?.filter fun _ _ hc => h.isKindAt hc _).bind_eq fun made made' hmade => ?_
    rw [segments?_eq h hmade.node]
    congr 1
    funext maker
    split
    · refine (rel_keywords? h hu (rel_argumentsOf h hmade)).bind_eq fun _ _ hc => ?_
      exact fromKeywords?_eq h hu _ hc
    · rfl
  · refine hkeywords.bind_eq fun keywords keywords' hc => ?_
    have hname : (keywords.lookup "action").bind (eventName? u) =
        (keywords'.lookup "action").bind (eventName? u') :=
      (rel_lookup hc "action").bind_eq fun _ _ hvalue => eventName?_eq h hu hvalue
    rw [hname]
    refine congrArg (Option.bind _) (funext fun name => ?_)
    refine congrArg (fun entries => some (name, Named.ofEntries entries)) ?_
    refine (hc.filter fun _ _ hentry => by rw [hentry.name]).map_eq fun entry entry' hentry => ?_
    exact Prod.ext hentry.name (valueSchema_eq h hu allSteps hentry.value)
  · rfl

/-- A call has the same payload for a signature in both files. -/
theorem custom?_eq (signature : Signature) :
    custom? u signature arguments = custom? u' signature arguments' := by
  have hplaces := rel_positional h harguments
  have hname : (positional arguments)[signature.eventIndex]?.bind (eventName? u) =
      (positional arguments')[signature.eventIndex]?.bind (eventName? u') :=
    (hplaces.getElem? signature.eventIndex).bind_eq fun _ _ hc => eventName?_eq h hu hc
  unfold custom?
  dsimp only
  rw [hname, propertiesOf_eq h hu (hplaces.getElem? signature.propertiesIndex)]
  congr 1
  funext name
  congr 4
  funext fields extra
  exact (hplaces.getElem? extra.index).elim rfl fun _ _ hc =>
    congrArg (Named.insert fields extra.name) (valueSchema_eq h hu allSteps hc)

omit harguments in
/-- A call has the same payload in both files. -/
theorem payload?_eq (hs : s.Twin R s') (signatures : List Signature) :
    payload? u signatures s = payload? u' signatures s' := by
  have harguments := rel_argumentsOf h hs
  unfold payload?
  rw [segments?_eq h hs.node]
  simp only [custom?_eq h hu harguments, sent?_eq h hu harguments]

end Values

section Events

variable (h : Insertion reading root root' R)
include h

omit h in
/-- The calls from a site on are the site itself, if it is one, and those from its children, until
it is too deep. -/
theorem callsFrom_eq_append (depth : Nat) (s : Site) : callsFrom depth s =
    if depth > maxDepth then []
    else (if s.kind = "call" then [s] else []) ++ s.children.flatMap
      (callsFrom (if nestedKinds.contains s.kind then depth + 1 else depth)) := by
  rw [callsFrom]
  simp only [List.flatMap_subtype, List.unattach_attach]

/-- The calls that are looked at are the same: comments do not count as parts of the program. -/
theorem rel_callsFrom (hs : s.Twin R s') (depth : Nat) :
    List.Forall₂ (Site.Twin R) (callsFrom depth s) (callsFrom depth s') := by
  induction s using Site.induction_size generalizing s' depth with
  | h s ih =>
      rw [callsFrom_eq_append, callsFrom_eq_append, h.kindAt hs]
      split
      · exact .nil
      · refine List.rel_append ?_ (List.rel_flatMap (h.childrenAt hs).attach ?_)
        · split
          · exact .cons hs .nil
          · exact .nil
        · rintro c c' ⟨hmem, hc⟩
          exact ih c (Site.size_children_lt hmem) hc _

/-- A call has the same context in both files. -/
theorem context_eq (hs : s.Twin R s') : context s = context s' := by
  have hmethods : List.Forall₂ R
      (s.ancestors.filter fun n => n.kind = "method" || n.kind = "singleton_method")
      (s'.ancestors.filter fun n => n.kind = "method" || n.kind = "singleton_method") :=
    hs.ancestors.filter fun _ _ ha => by rw [h.kind ha]
  unfold context
  dsimp only
  rw [hmethods.findSome?_eq fun _ _ ha => h.childText? ha _,
    hs.ancestors.any_eq fun _ _ ha => by rw [h.kind ha]]

end Events

/-- More comments in a Ruby file, but for the first place behind a parenthesis, leave its constants
as they were. -/
theorem constants_ofTree (h : Node.Commented reading root root') :
    Constants.ofTree root = Constants.ofTree root' := by
  obtain ⟨R, h⟩ := h
  exact congrArg Named.ofEntries (constantsIn_eq h h.rooted [])

/-- They leave what its calls send as it was, too. -/
theorem content_events (h : Node.Commented reading root root') (index : Option ConstantIndex)
    (signatures : List Signature) (path : Path) :
    (events index signatures path root).map Event.content =
      (events index signatures path root').map Event.content := by
  obtain ⟨R, h⟩ := h
  have hcalls : List.Forall₂ (Site.Twin R) (calls root) (calls root') :=
    rel_callsFrom h h.twin_root 0
  have hevent (s s' : Site) (hs : s.Twin R s') :
      (event? (Unit.ofTree index path root) signatures path s).map Event.content =
        (event? (Unit.ofTree index path root') signatures path s').map Event.content := by
    rw [event?, event?, payload?_eq h (twin_ofTree h index path) hs, context_eq h hs,
      Option.map_map, Option.map_map]
    rfl
  rw [events, events, List.map_filterMap, List.map_filterMap]
  exact hcalls.filterMap_eq hevent

end TrackingPlan.Ruby
