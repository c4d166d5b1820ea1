import TrackingPlan.Calls.Go
import TrackingPlan.Proofs.Related
import TrackingPlan.Proofs.Within

/-!
# Go files that are read alike

`Likeness` says what the reading of Go files asks of a relation between the nodes of two trees, and
`Unit.Like` what it asks of the declarations of the two files: names that are looked up stand for
the same, as far as their values and types are read. `payloads_eq` says that related calls then send
the same.
-/

namespace TrackingPlan.Go

/-- The kinds of nodes whose first named child is read, comment or not. -/
def firstKinds : List String :=
  ["literal_element", "parenthesized_expression", "pointer_type", "parenthesized_type"]

variable {n n' : Node} {R : Node → Node → Prop}

/-- Related nodes have the same kinds and texts, and related children. -/
structure Likeness (R : Node → Node → Prop) : Prop where
  kind : ∀ {n n'}, R n n' → n.kind = n'.kind
  text : ∀ {n n'}, R n n' → n.text = n'.text
  child? : ∀ {n n'}, R n n' → ∀ role, Option.Rel R (n.child? role) (n'.child? role)
  namedChildren : ∀ {n n'}, R n n' → List.Forall₂ R n.namedChildren n'.namedChildren
  first : ∀ {n n'}, R n n' → n.kind ∈ firstKinds → Option.Rel R n.firstNamed? n'.firstNamed?

/-- Bindings with related values, and with types that give the same schemas. -/
structure Binding.Like (R : Node → Node → Prop) (b b' : Binding) : Prop where
  type : Option.Rel (fun type type' => typeSchema type = typeSchema type') b.type b'.type
  value : Option.Rel R b.value b'.value

/-- Names stand for like bindings at related places where they are read. -/
structure Unit.Like (R : Node → Node → Prop) (u u' : Unit) : Prop where
  lookup? : ∀ {n n'}, R n n' → n.kind = "identifier" → ∀ name,
    Option.Rel (Binding.Like R) (u.lookup? name n) (u'.lookup? name n')

namespace Likeness

variable (h : Likeness R)
include h

/-- The children in a role, which are smaller than their parents. -/
theorem smallerChild? (hn : R n n') (role : String) :
    Option.Rel (fun c c' => c.size < n.size ∧ R c c') (n.child? role) (n'.child? role) :=
  (h.child? hn role).attach.imp fun _ _ ⟨hmem, hc⟩ => ⟨Node.size_child?_lt hmem, hc⟩

/-- The first named child is smaller, and has one that is like it. -/
theorem smallerFirst? (hn : R n n') (hkind : n.kind ∈ firstKinds) :
    Option.Rel (fun c c' => c.size < n.size ∧ R c c') n.firstNamed? n'.firstNamed? :=
  (h.first hn hkind).attach.imp fun _ _ ⟨hmem, hc⟩ => ⟨Node.size_firstNamed?_lt hmem, hc⟩

/-- The child in a role has the same text on both sides. -/
theorem childText? (hn : R n n') (role : String) : n.childText? role = n'.childText? role :=
  (h.child? hn role).map_eq fun _ _ => h.text

/-- A node is of a kind if the one that is like it is. -/
theorem isKind (hn : R n n') (kind : String) :
    decide (n.kind = kind) = decide (n'.kind = kind) := by
  rw [h.kind hn]

end Likeness

/-! ## Literals and types -/

section Literals

variable (h : Likeness R)
include h

/-- The children in a role have ones that are like them. -/
theorem rel_childrenIn (hn : R n n') (role : String) :
    List.Forall₂ R (childrenIn n role) (childrenIn n' role) := by
  unfold childrenIn
  exact (h.child? hn role).elim .nil fun _ _ hc => h.namedChildren hc

/-- The expression in an element has one that is like it. -/
theorem rel_element (hn : R n n') : R (element n) (element n') := by
  unfold element
  rw [← h.kind hn]
  split
  next hkind => exact (h.first hn (by rw [hkind]; decide)).getD hn
  next => exact hn

/-- An expression without its parentheses has one that is like it. -/
theorem rel_unwrap (hn : R n n') : R (unwrap n) (unwrap n') := by
  induction n using Node.induction_size generalizing n' with
  | h n ih =>
      rw [unwrap, unwrap, h.kind hn, h.childText? hn]
      split
      next =>
        refine (h.smallerChild? hn "operand").elim hn fun inner inner' hinner => ?_
        exact ih inner hinner.1 hinner.2
      next =>
        split
        next hkind =>
          have hfirst := h.smallerFirst? hn (by rw [h.kind hn, hkind]; decide)
          refine hfirst.elim hn fun inner inner' hinner => ?_
          exact ih inner hinner.1 hinner.2
        next => exact hn

/-- A literal has the same text on both sides. -/
theorem literal?_eq (hn : R n n') : literal? n = literal? n' := by
  rw [literal?, literal?, h.kind hn, h.text hn]

/-- A dotted name has the same segments on both sides. -/
theorem segments?_eq (hn : R n n') : segments? n = segments? n' := by
  induction n using Node.induction_size generalizing n' with
  | h n ih =>
      rw [segments?, segments?, h.kind hn, h.text hn, h.childText? hn]
      split
      · rfl
      · rfl
      · rfl
      · refine (h.smallerChild? hn "operand").elim rfl fun operand operand' hoperand => ?_
        dsimp only
        rw [ih operand hoperand.1 hoperand.2]
      · rfl

/-- A call has the same callee on both sides. -/
theorem calleeOf?_eq (hn : R n n') : calleeOf? n = calleeOf? n' :=
  (h.child? hn "function").bind_eq fun _ _ hc => segments?_eq h hc

/-- A type has the same schema on both sides. -/
theorem typeSchema_eq (hn : R n n') : typeSchema n = typeSchema n' := by
  induction n using Node.induction_size generalizing n' with
  | h n ih =>
      rw [typeSchema, typeSchema, h.kind hn, h.text hn]
      split
      case h_2 | h_3 =>
        exact (h.smallerChild? hn "element").elim rfl fun inner _ hc =>
          congrArg Schema.array (ih inner hc.1 hc.2)
      case h_5 hkind | h_6 hkind =>
        have hfirsts : n.kind ∈ firstKinds := by rw [h.kind hn, hkind]; decide
        exact (h.smallerFirst? hn hfirsts).elim rfl fun inner _ hc => ih inner hc.1 hc.2
      all_goals rfl

/-- The entries of a literal have ones that are like them. -/
theorem rel_entries (hn : R n n') : List.Forall₂ (Keyed R) (entries n) (entries n') := by
  unfold entries
  refine List.rel_filterMap (fun entry entry' hentry => ?_)
    ((h.namedChildren hn).filter fun _ _ hc => h.isKind hc _)
  refine (h.namedChildren hentry).head?.elim .none fun key key' hkey => ?_
  refine (h.namedChildren hentry).getLast?.elim .none fun value value' hvalue => ?_
  have hname := rel_element h hkey
  dsimp only
  rw [h.kind hname, h.text hname, literal?_eq h hname]
  generalize (if (element key').kind = "identifier" || (element key').kind = "field_identifier" then
    some (element key').text else literal? (element key')) = name
  cases name with
  | none => exact .none
  | some name => exact .some ⟨rfl, rel_element h hvalue⟩

/-- The fields of a literal are the same on both sides. -/
theorem fieldsOf_eq {value value' : Node → Schema} (hvalue : ∀ c c', R c c' → value c = value' c')
    (hn : R n n') : fieldsOf value n = fieldsOf value' n' := by
  refine congrArg Named.ofEntries ((rel_entries h hn).map_eq fun entry entry' hentry => ?_)
  exact Prod.ext hentry.name (hvalue _ _ hentry.value)

/-- Related literals of a type have the same schemas. -/
theorem literalSchema_eq {value value' : Node → Schema}
    (hvalue : ∀ c c', R c c' → value c = value' c')
    {type type' : Option Node} (htype : Option.Rel R type type') (hn : R n n') :
    (if type.any (fun t => t.kind = "slice_type" || t.kind = "array_type" ||
        t.kind = "implicit_length_array_type") then
      match n.namedChildren with
      | [] => (type.map typeSchema).getD (.array .any)
      | items => .array (Schema.arrayItems (items.map value))
    else .object (fieldsOf value n)) =
    if type'.any (fun t => t.kind = "slice_type" || t.kind = "array_type" ||
        t.kind = "implicit_length_array_type") then
      match n'.namedChildren with
      | [] => (type'.map typeSchema).getD (.array .any)
      | items => .array (Schema.arrayItems (items.map value'))
    else .object (fieldsOf value' n') := by
  rw [htype.any_eq fun _ _ ht => by rw [h.kind ht], fieldsOf_eq h hvalue hn,
    htype.map_eq fun _ _ ht => typeSchema_eq h ht]
  split
  · have hitems := h.namedChildren hn
    generalize n.namedChildren = items at hitems ⊢
    generalize n'.namedChildren = items' at hitems ⊢
    cases hitems with
    | nil => rfl
    | cons hc hcs =>
        dsimp only
        rw [(List.Forall₂.cons hc hcs).map_eq hvalue]
  · rfl

end Literals

/-! ## Names and schemas -/

section Values

variable (h : Likeness R) {u u' : Unit} (hu : u.Like R u')
include h hu

omit h in
/-- The value of a name at a place where it stands. -/
theorem rel_valueOf (hn : R n n') (hkind : n.kind = "identifier") (name : String) :
    Option.Rel R ((u.lookup? name n).bind (·.value)) ((u'.lookup? name n').bind (·.value)) :=
  (hu.lookup? hn hkind name).bind fun _ _ hb => hb.value

/-- An argument names the same event on both sides. -/
theorem eventName?_eq (steps : Nat) (hn : R n n') :
    eventName? u steps n = eventName? u' steps n' := by
  induction steps generalizing n n' with
  | zero => rfl
  | succ steps ih =>
      have hinner := rel_element h (rel_unwrap h hn)
      rw [eventName?, eventName?]
      rw [literal?_eq h hinner, ← h.kind hinner, h.text hinner, calleeOf?_eq h hinner]
      split
      · rfl
      · split
        next hkind => exact (rel_valueOf hu hinner hkind _).bind_eq fun _ _ hc => ih hc
        next =>
          split
          · exact (rel_childrenIn h hinner "arguments").head?.bind_eq fun _ _ hc => ih hc
          · rfl
        next => rfl

/-- An expression has the same schema on both sides. -/
theorem valueSchema_eq (steps : Nat) (hn : R n n') :
    valueSchema u steps n = valueSchema u' steps n' := by
  induction steps using Nat.strongRecOn generalizing n n' with
  | ind steps ih =>
      cases steps with
      | zero => rw [valueSchema, valueSchema]
      | succ steps =>
          have hinner := rel_element h (rel_unwrap h hn)
          have hvalue : ∀ c c', R c c' → valueSchema u steps c = valueSchema u' steps c' :=
            fun c c' hc => ih steps (Nat.lt_succ_self steps) hc
          rw [valueSchema.eq_def u, valueSchema.eq_def u']
          dsimp only
          rw [← h.kind hinner, fieldsOf_eq h hvalue hinner, h.text hinner, calleeOf?_eq h hinner,
            h.childText? hinner]
          split <;> try rfl
          next =>
            refine (h.child? hinner "body").elim rfl fun body body' hbody => ?_
            cases steps with
            | zero => exact literalSchema_eq h (fun _ _ _ => rfl) (h.child? hinner "type") hbody
            | succ fewer =>
                refine literalSchema_eq h (fun _ _ hc => ?_) (h.child? hinner "type") hbody
                exact ih fewer (by omega) hc
          next hkind =>
            refine (hu.lookup? hinner hkind _).elim rfl fun b b' hb => ?_
            dsimp only
            refine hb.value.elim ?_ fun value value' hvalued => ?_
            · exact hb.type.elim rfl fun _ _ ht => ht
            · refine hb.type.elim (hvalue _ _ hvalued) fun type type' ht => ?_
              dsimp only
              rw [h.kind hvalued, hvalue _ _ hvalued, ht]

omit h hu in
/-- The fields of the earlier calls of a chain are the same if those of related calls are. -/
theorem earlier_eq {calls : Nat}
    (hcalls : ∀ {c c' : Node}, R c c' → chainFields u calls c = chainFields u' calls c')
    {call? call?' : Option Node} :
    Option.Rel R call? call?' →
      (match call? with
        | none => []
        | some inner => chainFields u calls inner) =
      match call?' with
        | none => []
        | some inner => chainFields u' calls inner
  | .none => rfl
  | .some hr => hcalls hr

/-- Chained calls have the same fields on both sides. -/
theorem chainFields_eq (calls : Nat) (hn : R n n') :
    chainFields u calls n = chainFields u' calls n' := by
  induction calls generalizing n n' with
  | zero => rfl
  | succ calls ih =>
      rw [chainFields, chainFields]
      refine (h.child? hn "function").elim rfl fun function function' hfunction => ?_
      have hoperand : Option.Rel R ((function.child? "operand").filter (·.kind = "call_expression"))
          ((function'.child? "operand").filter (·.kind = "call_expression")) :=
        (h.child? hfunction "operand").filter fun _ _ hc => h.isKind hc _
      have hearlier := earlier_eq ih hoperand
      dsimp only
      rw [h.kind hfunction, h.childText? hfunction]
      split
      next =>
        have harguments := rel_childrenIn h hn "arguments"
        generalize childrenIn n "arguments" = arguments at harguments ⊢
        generalize childrenIn n' "arguments" = arguments' at harguments ⊢
        cases harguments with
        | nil => exact hearlier
        | cons hkey hrest =>
            cases hrest with
            | nil => exact hearlier
            | @cons _ value' _ _ hvalue _ =>
                dsimp only
                rw [literal?_eq h hkey, valueSchema_eq h hu allSteps hvalue]
                cases literal? _ with
                | none => exact hearlier
                | some name =>
                    exact congrArg (Named.insert · name (valueSchema u' allSteps value')) hearlier
      next => rfl

/-- An argument has the same properties on both sides. -/
theorem propertiesOf_eq (steps : Nat) (hn : R n n') :
    propertiesOf u steps n = propertiesOf u' steps n' := by
  induction steps generalizing n n' with
  | zero => rfl
  | succ steps ih =>
      have hinner := rel_element h (rel_unwrap h hn)
      rw [propertiesOf, propertiesOf]
      rw [← h.kind hinner, h.text hinner, chainFields_eq h hu _ hinner]
      split
      next =>
        refine (h.child? hinner "body").elim rfl fun body body' hbody => ?_
        exact fieldsOf_eq h (fun _ _ hc => valueSchema_eq h hu steps hc) hbody
      next => rfl
      next hkind => exact (rel_valueOf hu hinner hkind _).elim rfl fun _ _ hc => ih hc
      next => rfl

/-! ## Events -/

/-- A literal that is laid out for an event has the same fields on both sides. -/
theorem layoutFields_eq (layout : Layout) {fields fields' : List (String × Node)}
    (hfields : List.Forall₂ (Keyed R) fields fields') :
    layoutFields u layout fields = layoutFields u' layout fields' := by
  have hvalue : ∀ c c', R c c' → valueSchema u allSteps c = valueSchema u' allSteps c' :=
    fun c c' hc => valueSchema_eq h hu allSteps hc
  refine hfields.foldl_eq (fun found entry entry' hentry => ?_) []
  obtain ⟨key, value⟩ := entry
  obtain ⟨key', value'⟩ := entry'
  obtain ⟨hname, hr⟩ := hentry
  dsimp only at hname hr ⊢
  rw [hname, propertiesOf_eq h hu allSteps hr, hvalue _ _ hr, h.kind hr]
  refine (h.child? hr "body").elim rfl fun body body' hbody => ?_
  dsimp only
  rw [fieldsOf_eq h hvalue hbody]

/-- A literal with a type has the same payload on both sides. -/
theorem structured?_eq (method : String) (hn : R n n') {type type' : Node} (htype : R type type') :
    structured? u method n type = structured? u' method n' type' := by
  unfold structured?
  rw [h.text htype]
  cases eventType? type'.text with
  | none => rfl
  | some provider =>
      dsimp only
      cases layout? provider method with
      | none => rfl
      | some layout =>
          refine (h.child? hn "body").elim rfl fun body body' hbody => ?_
          have hentries := rel_entries h hbody
          dsimp only
          rw [layoutFields_eq h hu layout hentries]
          refine (rel_lookup hentries layout.name).elim rfl fun name name' hname => ?_
          dsimp only
          rw [eventName?_eq h hu allSteps hname]

/-- A related user is identified alike. -/
theorem identified_eq {user? user?' : Option Node} :
    Option.Rel R user? user?' →
      (match user? with
        | none => []
        | some n => Named.insert [] "DistinctId" (valueSchema u allSteps n)) =
      match user?' with
        | none => []
        | some n => Named.insert [] "DistinctId" (valueSchema u' allSteps n)
  | .none => rfl
  | .some hr => congrArg (Named.insert [] "DistinctId") (valueSchema_eq h hu allSteps hr)

/-- A batch has the same payloads on both sides. -/
theorem batch_eq (hn : R n n') {type type' : Node} (htype : R type type') :
    batch u n type = batch u' n' type' := by
  unfold batch
  rw [h.childText? htype]
  split
  next =>
    refine (h.child? hn "body").elim rfl fun body body' hbody => ?_
    have hmade :
      List.Forall₂ R ((body.namedChildren.map element).filter (·.kind = "call_expression"))
        ((body'.namedChildren.map element).filter (·.kind = "call_expression")) :=
      List.Forall₂.filter (List.rel_map (fun _ _ hc => rel_element h hc) (h.namedChildren hbody))
        fun _ _ hc => h.isKind hc _
    refine hmade.filterMap_eq fun made made' hr => ?_
    have harguments := rel_childrenIn h hr "arguments"
    have hname : (childrenIn made "arguments").head?.bind (eventName? u allSteps) =
        (childrenIn made' "arguments").head?.bind (eventName? u' allSteps) :=
      harguments.head?.bind_eq fun _ _ hc => eventName?_eq h hu allSteps hc
    rw [calleeOf?_eq h hr]
    dsimp only
    rw [hname]
    split
    next =>
      cases (childrenIn made' "arguments").head?.bind (eventName? u' allSteps) with
      | none => rfl
      | some name =>
          dsimp only
          have hidentified := identified_eq h hu (harguments.getElem? 1)
          refine (harguments.getElem? 2).elim ?_ fun fields fields' hfields => ?_
          · exact congrArg (fun found => some (Provider.mixpanel, name, found)) hidentified
          · dsimp only
            rw [propertiesOf_eq h hu allSteps hfields]
            exact congrArg (fun found => some (Provider.mixpanel, name,
              Named.merge found (propertiesOf u' allSteps fields'))) hidentified
    next => rfl
  next => rfl

/-- The fields of the extra parameters are the same where the arguments are related. -/
theorem foldl_extras_eq {arguments arguments' : List Node}
    (harguments : List.Forall₂ R arguments arguments')
    (extras : List ExtraParameter) :
    extras.foldl (fun fields extra =>
        match arguments[extra.index]? with
        | none => fields
        | some n => Named.insert fields extra.name (valueSchema u allSteps n)) [] =
      extras.foldl (fun fields extra =>
        match arguments'[extra.index]? with
        | none => fields
        | some n => Named.insert fields extra.name (valueSchema u' allSteps n)) [] := by
  congr 1
  funext fields extra
  exact (harguments.getElem? extra.index).elim rfl fun _ _ hc =>
    congrArg (Named.insert fields extra.name) (valueSchema_eq h hu allSteps hc)

/-- A signature has the same payload on both sides. -/
theorem custom?_eq (signature : Signature) {arguments arguments' : List Node}
    (harguments : List.Forall₂ R arguments arguments') :
    custom? u signature arguments = custom? u' signature arguments' := by
  have hname : arguments[signature.eventIndex]?.bind (eventName? u allSteps) =
      arguments'[signature.eventIndex]?.bind (eventName? u' allSteps) :=
    (harguments.getElem? signature.eventIndex).bind_eq fun _ _ hc => eventName?_eq h hu allSteps hc
  unfold custom?
  rw [hname]
  cases arguments'[signature.eventIndex]?.bind (eventName? u' allSteps) with
  | none => rfl
  | some name =>
      dsimp only
      have hextras := foldl_extras_eq h hu harguments signature.extraParameters
      refine (harguments.getElem? signature.propertiesIndex).elim ?_
        fun fields fields' hfields => ?_
      · exact congrArg (fun extras => some (Provider.custom, name, extras)) hextras
      · dsimp only
        rw [propertiesOf_eq h hu allSteps hfields]
        exact congrArg (fun extras =>
          some (Provider.custom, name, Named.merge extras (propertiesOf u' allSteps fields')))
            hextras

/-- A call has the same payloads on both sides. -/
theorem payloads_eq (hn : R n n') (signatures : List Signature) :
    payloads u signatures n = payloads u' signatures n' := by
  have harguments := rel_childrenIn h hn "arguments"
  unfold payloads
  rw [calleeOf?_eq h hn]
  cases calleeOf? n' with
  | none => rfl
  | some callee =>
      dsimp only
      cases Signature.find? signatures callee with
      | some signature => exact congrArg Option.toList (custom?_eq h hu signature harguments)
      | none =>
          dsimp only
          have hunwrapped : List.Forall₂ R ((childrenIn n "arguments").map unwrap)
              ((childrenIn n' "arguments").map unwrap) :=
            List.rel_map (fun _ _ hc => rel_unwrap h hc) harguments
          refine hunwrapped.flatMap_eq fun argument argument' hargument => ?_
          rw [h.kind hargument]
          split
          · refine (h.child? hargument "type").elim rfl fun type type' htype => ?_
            dsimp only
            rw [h.kind htype, batch_eq h hu hargument htype, structured?_eq h hu _ hargument htype]
          · rfl

end Values

end TrackingPlan.Go
