import Mathlib.Data.List.Infix
import TrackingPlan.Calls.Go
import TrackingPlan.Calls.Python
import TrackingPlan.Proofs.RubyNames
import TrackingPlan.Proofs.ScriptNames

/-!
# Event names are source text

No event has a name that is made up: in every language it stands between the quotes of a literal
without embedded values. `event_names_spelled` says so of all languages, and where the literal
stands: in the file itself, in a module that imports and exports lead to, or in a Ruby file of a
directory whose constants are known.
-/

namespace TrackingPlan

/-- A search through a list that holds on to the element it takes ends with one of the list. -/
theorem exists_of_foldl_eq_some {α β : Type} {choose : Option β → α → Option β} {value : α → β}
    (hchoose : ∀ best x, choose best x = some (value x) ∨ choose best x = best)
    {xs : List α} {b : β} (h : xs.foldl choose none = some b) : ∃ x ∈ xs, value x = b := by
  refine List.foldlRecOn (motive := fun best => best = some b → ∃ x ∈ xs, value x = b)
    xs choose (fun hnone => by cases hnone) (fun best ih x hx hstep => ?_) h
  rcases hchoose best x with htaken | hheld
  · exact ⟨x, hx, Option.some.inj (htaken.symm.trans hstep)⟩
  · exact ih (hheld.symm.trans hstep)

/-! ## Python -/

namespace Python

/-- A file spells a text when that stands between the marks of a literal in it. -/
abbrev Spells (root : Node) (text : String) : Prop :=
  root.Spells Node.IsPlainString unquoted? text

variable {root n : Node} {text : String}

/-- What stands between two marks, with the marks around it, is the whole. -/
theorem eq_of_inside? {mark body found : List Char} (h : inside? mark body = some found) :
    body = mark ++ found ++ mark := by
  unfold inside? at h
  split at h
  next hmarks =>
    simp only [Bool.and_eq_true, decide_eq_true_eq, List.isPrefixOf_iff_prefix,
      List.isSuffixOf_iff_suffix] at hmarks
    obtain ⟨⟨hlength, rest, rfl⟩, hsuffix⟩ := hmarks
    rw [List.length_append] at hlength
    -- the marks do not overlap, so that the one at the end lies behind the one in front
    obtain ⟨found, rfl⟩ : mark <:+ rest :=
      List.suffix_of_suffix_length_le hsuffix (List.suffix_append mark rest) (by omega)
    have htake : mark.length + (found.length + mark.length) - 2 * mark.length = found.length := by
      omega
    simp only [List.length_append, htake, List.drop_left, List.take_left, Option.some.injEq] at h
    rw [h, List.append_assoc]
  · cases h

/-- The text of a quoted literal is part of its source. -/
theorem infix_of_unquoted? {source : String} (h : unquoted? source = some text) :
    text.toList <:+: source.toList := by
  obtain ⟨found, hfound, rfl⟩ := Option.map_eq_some_iff.1 h
  obtain ⟨mark, -, hinside⟩ := List.exists_of_findSome?_eq_some hfound
  rw [String.toList_ofList]
  have hbody : found <:+: source.toList.dropWhile (·.isAlpha) :=
    ⟨mark, mark, (eq_of_inside? hinside).symm⟩
  exact hbody.trans (List.dropWhile_suffix _).isInfix

/-- What is read off a literal is spelled there. -/
theorem spells_of_literal (hn : root.Within n) (h : literal? n = some text) : Spells root text := by
  unfold literal? at h
  split at h
  next hplain =>
    obtain ⟨hkind, hnone⟩ :
        n.kind = "string" ∧ ¬n.namedChildren.any (·.kind = "interpolation") := by
      simpa using hplain
    exact ⟨n, hn, Node.isPlainString_of_not_any hkind hnone, h, infix_of_unquoted? h⟩
  · cases h

/-- What the names of a file stand for is part of the file. -/
structure Unit.StemsFrom (u : Unit) (root : Node) : Prop where
  bindings : ∀ entry ∈ u.bindings, ∀ value, entry.2.value = some value → root.Within value
  constants : ∀ entry ∈ u.constants, root.Within entry.2

/-- The values of the bindings at a site stand in the file. -/
theorem within_of_mem_bindingsAt {s : Site} {entry : String × Binding} {value : Node}
    (hs : root.Within s.node) (h : entry ∈ bindingsAt root s)
    (hvalue : entry.2.value = some value) :
    root.Within value := by
  unfold bindingsAt at h
  split at h
  · have hassigned := Option.mem_toList.1 h
    unfold assignmentBinding? at hassigned
    split at hassigned
    · cases hassigned
      exact hs.child? hvalue
    · cases hassigned
  · unfold parameterBindings at h
    split at h
    · cases h
    · obtain ⟨parameter, -, h⟩ := List.mem_filterMap.1 h
      obtain ⟨name, -, rfl⟩ := Option.map_eq_some_iff.1 h
      cases hvalue
  · cases h

/-- All that a file declares stems from it. -/
theorem Unit.stemsFrom_ofTree (root : Node) : (Unit.ofTree root).StemsFrom root := by
  refine ⟨fun entry hentry value hvalue => ?_, fun entry hentry => ?_⟩
  · obtain ⟨place, hplace, hentry⟩ := List.mem_flatMap.1 hentry
    exact within_of_mem_bindingsAt (Site.within_of_mem_all .root hplace) hentry hvalue
  · obtain ⟨place, hplace, hassigned⟩ := List.mem_filterMap.1 (List.mem_reverse.1 hentry)
    have hwithin := Site.within_of_mem_all .root (List.mem_filter.1 hplace).1
    unfold assignmentConstant? at hassigned
    split at hassigned
    next name value hname hvalue =>
      have hvalue := hwithin.child? hvalue
      split at hassigned
      · cases hassigned
        exact hvalue
      · split at hassigned
        · cases hassigned
          exact hvalue
        · cases hassigned
    · cases hassigned

/-- What is looked up is one of the bindings. -/
theorem Unit.mem_of_lookup? {u : Unit} {name : String} {place : Node} {b : Binding}
    (h : u.lookup? name place = some b) : ∃ entry ∈ u.bindings, entry.2 = b := by
  refine exists_of_foldl_eq_some (fun best ⟨key, bound⟩ => ?_) h
  dsimp only
  split
  · split
    · exact .inl rfl
    · split
      · exact .inl rfl
      · exact .inr rfl
  · exact .inr rfl

variable {u : Unit} {args : Arguments} {payload : Payload}

/-- The text of an argument is spelled in the file. -/
theorem spells_of_eventName (hu : u.StemsFrom root) (hn : root.Within n)
    (h : eventName? u n = some text) : Spells root text := by
  unfold eventName? at h
  split at h
  next literal hliteral =>
    cases h
    exact spells_of_literal hn hliteral
  · split at h
    · obtain ⟨value, hvalue, hliteral⟩ := Option.bind_eq_some_iff.1 h
      rcases Option.or_eq_some_iff.1 hvalue with hbound | ⟨-, hconstant⟩
      · obtain ⟨binding, hbinding, hvalue⟩ := Option.bind_eq_some_iff.1 hbound
        obtain ⟨entry, hentry, rfl⟩ := Unit.mem_of_lookup? hbinding
        exact spells_of_literal (hu.bindings entry hentry value hvalue) hliteral
      · exact spells_of_literal (hu.constants _ (Named.mem_of_lookup hconstant)) hliteral
    · split at h
      · cases h
      · obtain ⟨value, hvalue, hliteral⟩ := Option.bind_eq_some_iff.1 h
        exact spells_of_literal (hu.constants _ (Named.mem_of_lookup hvalue)) hliteral
    · cases h

/-- The arguments of a call in a tree are part of it. -/
structure Arguments.Within (root : Node) (args : Arguments) : Prop where
  positional : ∀ n ∈ args.positional, root.Within n
  keywords : ∀ entry ∈ args.keywords, root.Within entry.2

/-- The arguments of a call stand in the file. -/
theorem Arguments.within_ofCall (hn : root.Within n) : (Arguments.ofCall n).Within root := by
  have hall : ∀ list, n.child? "arguments" = some list → ∀ c ∈ list.namedChildren, root.Within c :=
    fun list hlist c hc => (hn.child? hlist).namedChildren hc
  unfold ofCall
  cases hlist : n.child? "arguments" with
  | none => exact ⟨by simp, by simp⟩
  | some list =>
      refine ⟨fun c hc => hall list hlist c (List.mem_filter.1 hc).1, fun entry hentry => ?_⟩
      obtain ⟨c, hc, hkeyword⟩ := List.mem_filterMap.1 hentry
      have hwithin := hall list hlist c (List.mem_filter.1 hc).1
      unfold keyword? at hkeyword
      split at hkeyword
      next name value hname hvalue =>
        cases hkeyword
        exact hwithin.child? hvalue
      · cases hkeyword

/-- A keyword argument stands in the file. -/
theorem Arguments.Within.named? {name : String} (hargs : args.Within root)
    (h : args.named? name = some n) : root.Within n :=
  hargs.keywords _ (Named.mem_of_lookup h)

/-- An argument at a place or with a name stands in the file. -/
theorem Arguments.Within.find? {place : Nat} {name : String} (hargs : args.Within root)
    (h : args.find? place name = some n) : root.Within n := by
  rcases Option.or_eq_some_iff.1 h with hnamed | ⟨-, hplace⟩
  · exact hargs.named? hnamed
  · exact hargs.positional n (List.mem_of_getElem? hplace)

/-- An event that is made in place takes its name from a literal text. -/
theorem spells_of_carried? (hu : u.StemsFrom root) (hargs : args.Within root)
    (h : carried? u args = some payload) : Spells root payload.2.1 := by
  simp only [carried?, bind, Option.bind_eq_some_iff] at h
  obtain ⟨made, hmade, path, -, maker, -, h⟩ := h
  obtain ⟨hmade, -⟩ := Option.filter_eq_some_iff.1 hmade
  have hinner := Arguments.within_ofCall (hargs.positional made (List.mem_of_mem_head? hmade))
  split at h
  · obtain ⟨name, hname, hpair⟩ := Option.bind_eq_some_iff.1 h
    cases hpair
    obtain ⟨argument, hargument, hname⟩ := Option.bind_eq_some_iff.1 hname
    exact spells_of_eventName hu (hinner.find? hargument) hname
  · split at h
    · obtain ⟨name, hname, hpair⟩ := Option.bind_eq_some_iff.1 h
      cases hpair
      obtain ⟨argument, hargument, hname⟩ := Option.bind_eq_some_iff.1 hname
      exact spells_of_eventName hu (hinner.named? hargument) hname
    · cases h

/-- The argument for the name of an event stands in the file. -/
theorem within_nameArgument? {provider : Provider} (hargs : args.Within root)
    (h : nameArgument? provider args = some n) : root.Within n := by
  unfold nameArgument? at h
  split at h
  · exact hargs.named? h
  · exact hargs.find? h
  · exact hargs.find? h
  · exact hargs.find? h

/-- A call in Python takes the name of its event from a literal text. -/
theorem spells_of_payload? {signatures : List Signature} (hu : u.StemsFrom root)
    (hn : root.Within n) (h : payload? u signatures n = some payload) :
    Spells root payload.2.1 := by
  have hargs := Arguments.within_ofCall hn
  unfold payload? at h
  split at h
  · cases h
  · dsimp only at h
    split at h
    · obtain ⟨name, hname, hpair⟩ := Option.bind_eq_some_iff.1 h
      cases hpair
      obtain ⟨argument, hargument, hname⟩ := Option.bind_eq_some_iff.1 hname
      exact spells_of_eventName hu (hargs.positional _ (List.mem_of_getElem? hargument)) hname
    · rcases Option.or_eq_some_iff.1 h with hmade | ⟨-, hsent⟩
      · split at hmade
        · exact spells_of_carried? hu hargs hmade
        · cases hmade
      · simp only [sent?, bind, Option.bind_eq_some_iff] at hsent
        obtain ⟨provider, -, name, ⟨argument, hargument, hname⟩, hpair⟩ := hsent
        cases hpair
        exact spells_of_eventName hu (within_nameArgument? hargs hargument) hname

/-- Every event of a Python file has a name that the file spells. -/
theorem spells_of_mem_events {signatures : List Signature} {path : Path} {event : Event}
    (h : event ∈ events signatures path root) : Spells root event.name := by
  obtain ⟨call, hcall, h⟩ := List.mem_filterMap.1 h
  obtain ⟨payload, hpayload, rfl⟩ := Option.map_eq_some_iff.1 h
  have hwithin := Site.within_of_mem_all .root (List.mem_filter.1 hcall).1
  exact spells_of_payload? (Unit.stemsFrom_ofTree root) hwithin hpayload

end Python

/-! ## Go -/

namespace Go

/-- Literal texts: those between quotes and those between backquotes. -/
def IsText (n : Node) : Prop :=
  n.kind = "interpreted_string_literal" ∨ n.kind = "raw_string_literal"

/-- A file spells a text when that stands between the quotes of a literal in it. -/
abbrev Spells (root : Node) (text : String) : Prop :=
  root.Spells IsText (some ∘ Text.unquote) text

variable {root n : Node} {text : String}

/-- What is read off a literal is spelled there. -/
theorem spells_of_literal (hn : root.Within n) (h : literal? n = some text) : Spells root text := by
  unfold literal? at h
  split at h
  next hkind =>
    cases h
    exact ⟨n, hn, by simpa [IsText] using hkind, rfl, Text.unquote_infix n.text⟩
  · cases h

/-- What an expression is without its parentheses stands in the file. -/
theorem within_unwrap (hn : root.Within n) : root.Within (unwrap n) := by
  fun_induction unwrap n with
  | case1 n haddress hoperand => exact hn
  | case2 n haddress inner hoperand ih => exact ih (hn.child? hoperand)
  | case3 n haddress hparenthesized hfirst => exact hn
  | case4 n haddress hparenthesized inner hfirst ih => exact ih (hn.firstNamed? hfirst)
  | case5 n haddress hparenthesized => exact hn

/-- The expression in an element stands in the file. -/
theorem within_element (hn : root.Within n) : root.Within (element n) := by
  unfold element
  split
  · cases hfirst : n.firstNamed? with
    | none => exact hn
    | some inner => exact hn.firstNamed? hfirst
  · exact hn

/-- The children in a role stand in the file. -/
theorem within_childrenIn {role : String} {c : Node} (hn : root.Within n)
    (h : c ∈ childrenIn n role) : root.Within c := by
  unfold childrenIn at h
  split at h
  · cases h
  next list hlist => exact (hn.child? hlist).namedChildren h

/-! ### Declarations -/

/-- The values of bindings are part of the tree. -/
def ValuesWithin (root : Node) (bindings : Bindings) : Prop :=
  ∀ entry ∈ bindings, ∀ value, entry.2.value = some value → root.Within value

/-- The values of two lists of bindings stand in the file if those of each do. -/
theorem ValuesWithin.append {first second : Bindings} (hfirst : ValuesWithin root first)
    (hsecond : ValuesWithin root second) : ValuesWithin root (first ++ second) :=
  fun entry hentry => (List.mem_append.1 hentry).elim (hfirst entry) (hsecond entry)

/-- The values of the pairs are among the values. -/
theorem mem_of_mem_pairUp {names values : List Node} {name value : Node}
    (h : (name, some value) ∈ pairUp names values) : value ∈ values := by
  fun_induction pairUp names values with
  | case1 values => cases h
  | case2 n ns ih =>
      rcases List.mem_cons.1 h with hfirst | hrest
      · cases hfirst
      · exact ih hrest
  | case3 n ns v vs ih =>
      rcases List.mem_cons.1 h with hfirst | hrest
      · cases hfirst
        exact List.mem_cons_self
      · exact List.mem_cons_of_mem v (ih hrest)

/-- The values of a specification stand in the file. -/
theorem within_specBindings (hn : root.Within n) : ValuesWithin root (specBindings n) := by
  intro entry hentry value hvalue
  obtain ⟨⟨name, found⟩, hpair, rfl⟩ := List.mem_map.1 hentry
  cases hvalue
  exact within_childrenIn hn (mem_of_mem_pairUp hpair)

/-- The values of a short declaration stand in the file. -/
theorem within_shortBindings (hn : root.Within n) : ValuesWithin root (shortBindings n) := by
  intro entry hentry value hvalue
  obtain ⟨⟨name, found⟩, hpair, rfl⟩ := List.mem_map.1 hentry
  cases hvalue
  exact within_childrenIn hn (mem_of_mem_pairUp (List.mem_filter.1 hpair).1)

/-- Parameters have no values, so that all of them stand in the file. -/
theorem within_parameterBindings (role : String) :
    ValuesWithin root (parameterBindings n role) := by
  intro entry hentry value hvalue
  obtain ⟨parameter, -, hentry⟩ := List.mem_flatMap.1 hentry
  obtain ⟨name, -, rfl⟩ := List.mem_map.1 hentry
  cases hvalue

/-- The values of local bindings stand in the file. -/
theorem within_localBindings (hn : root.Within n) : ValuesWithin root (localBindings n) := by
  unfold localBindings
  split
  · exact within_specBindings hn
  · split
    · exact within_shortBindings hn
    · exact fun entry hentry => by cases hentry

/-- The values of the bindings of a function stand in the file. -/
theorem within_functionBindings (hn : root.Within n) : ValuesWithin root (functionBindings n) := by
  refine ((within_parameterBindings _).append (within_parameterBindings _)).append ?_
  split
  · exact fun entry hentry => by cases hentry
  next body hbody =>
    intro entry hentry
    obtain ⟨place, hplace, hentry⟩ := List.mem_flatMap.1 hentry
    exact within_localBindings (Site.within_of_mem_all (hn.child? hbody) hplace) entry hentry

/-- The specifications in a node stand in the file. -/
theorem within_of_mem_specsIn {spec : Node} (hn : root.Within n) (h : spec ∈ specsIn n) :
    root.Within spec := by
  induction n using specsIn.induct with
  | case1 n hspec =>
      rw [specsIn, if_pos hspec] at h
      cases List.mem_singleton.1 h
      exact hn
  | case2 n hspec ih =>
      rw [specsIn, if_neg hspec] at h
      obtain ⟨⟨child, hchild⟩, -, hmem⟩ := List.mem_flatMap.1 h
      exact ih child hchild (hn.namedChildren (List.mem_reverse.1 hchild)) hmem

/-- What the names of a file stand for is part of the file. -/
structure Unit.StemsFrom (u : Unit) (root : Node) : Prop where
  locals : ∀ declaration ∈ u.declarations, ValuesWithin root declaration.locals
  package : ValuesWithin root u.package

/-- All that a file declares stems from it. -/
theorem Unit.stemsFrom_ofTree (root : Node) : (Unit.ofTree root).StemsFrom root := by
  refine ⟨fun declaration hdeclaration => ?_, fun entry hentry => ?_⟩
  · obtain ⟨n, hn, hdeclaration⟩ := List.mem_flatMap.1 hdeclaration
    unfold declarationsAt at hdeclaration
    split at hdeclaration
    · cases List.mem_singleton.1 hdeclaration
      exact within_functionBindings (Node.Within.root.namedChildren hn)
    · cases List.mem_singleton.1 hdeclaration
      exact within_functionBindings (Node.Within.root.namedChildren hn)
    · obtain ⟨spec, -, rfl⟩ := List.mem_map.1 hdeclaration
      exact fun entry hentry => by cases hentry
    · obtain ⟨spec, -, rfl⟩ := List.mem_map.1 hdeclaration
      exact fun entry hentry => by cases hentry
    · cases hdeclaration
  · obtain ⟨n, hn, hentry⟩ := List.mem_flatMap.1 hentry
    unfold packageAt at hentry
    split at hentry
    · obtain ⟨spec, hspec, hentry⟩ := List.mem_flatMap.1 hentry
      have hwithin := within_of_mem_specsIn (Node.Within.root.namedChildren hn) hspec
      exact within_specBindings hwithin entry hentry
    · cases hentry

/-- The latest binding is one of the bindings. -/
theorem Unit.mem_of_latest? {bindings : Bindings} {name : String} {place : Node} {b : Binding}
    (h : latest? bindings name place = some b) : ∃ entry ∈ bindings, entry.2 = b := by
  refine exists_of_foldl_eq_some (fun best entry => ?_) h
  split
  · split
    · exact .inl rfl
    · split
      · exact .inl rfl
      · exact .inr rfl
  · exact .inr rfl

variable {u : Unit}

/-- The value of a binding that is looked up stands in the file. -/
theorem Unit.StemsFrom.lookup? (hu : u.StemsFrom root) {name : String} {place : Node} {b : Binding}
    {value : Node} (h : u.lookup? name place = some b) (hvalue : b.value = some value) :
    root.Within value := by
  rcases Option.or_eq_some_iff.1 h with hfunction | ⟨-, hpackage⟩
  · split at hfunction
    · cases hfunction
    next declaration hdeclaration =>
      split at hfunction
      · obtain ⟨entry, hentry, rfl⟩ := mem_of_latest? hfunction
        have hmem := List.mem_of_find?_eq_some hdeclaration
        exact hu.locals declaration hmem entry hentry value hvalue
      · cases hfunction
  · exact hu.package _ (Named.mem_of_lookup hpackage) value hvalue

/-! ### Events -/

/-- However many steps are left, the text of an expression is spelled in the file. -/
theorem spells_of_eventName (hu : u.StemsFrom root) {steps : Nat} (hn : root.Within n)
    (h : eventName? u steps n = some text) : Spells root text := by
  induction steps generalizing n with
  | zero => cases h
  | succ steps ih =>
      have hwithin := within_element (within_unwrap hn)
      unfold eventName? at h
      dsimp only at h
      split at h
      next literal hliteral =>
        cases h
        exact spells_of_literal hwithin hliteral
      · split at h
        · obtain ⟨value, hvalue, hname⟩ := Option.bind_eq_some_iff.1 h
          obtain ⟨binding, hbinding, hvalue⟩ := Option.bind_eq_some_iff.1 hvalue
          exact ih (hu.lookup? hbinding hvalue) hname
        · split at h
          · obtain ⟨argument, hargument, hname⟩ := Option.bind_eq_some_iff.1 h
            exact ih (within_childrenIn hwithin (List.mem_of_mem_head? hargument)) hname
          · cases h
        · cases h

/-- The values of the entries of a literal stand in the file. -/
theorem within_of_mem_entries {entry : String × Node} (hn : root.Within n) (h : entry ∈ entries n) :
    root.Within entry.2 := by
  obtain ⟨keyed, hkeyed, h⟩ := List.mem_filterMap.1 h
  have hwithin := hn.namedChildren (List.mem_filter.1 hkeyed).1
  split at h
  next key value hkey hvalue =>
    obtain ⟨name, -, rfl⟩ := Option.map_eq_some_iff.1 h
    exact within_element (hwithin.namedChildren (List.mem_of_getLast? hvalue))
  · cases h

variable {payload : Provider × String × Properties}

/-- An event in a literal of a provider's type takes its name from a literal text. -/
theorem spells_of_structured? (hu : u.StemsFrom root) {method : String} {type : Node}
    (hn : root.Within n) (h : structured? u method n type = some payload) :
    Spells root payload.2.1 := by
  unfold structured? at h
  split at h
  · cases h
  · split at h
    next body _ hbody =>
      dsimp only at h
      split at h
      · cases h
      next value hvalue =>
        have hwithin := within_of_mem_entries (hn.child? hbody) (Named.mem_of_lookup hvalue)
        split at h
        · cases h
        next name hname =>
          cases h
          exact spells_of_eventName hu hwithin hname
    · cases h

/-- The events in a list of new events take their names from literal texts. -/
theorem spells_of_mem_batch (hu : u.StemsFrom root) {type : Node} (hn : root.Within n)
    (h : payload ∈ batch u n type) : Spells root payload.2.1 := by
  unfold batch at h
  split at h
  · split at h
    · cases h
    next body hbody =>
      obtain ⟨made, hmade, h⟩ := List.mem_filterMap.1 h
      obtain ⟨c, hc, rfl⟩ := List.mem_map.1 (List.mem_filter.1 hmade).1
      have hwithin := within_element ((hn.child? hbody).namedChildren hc)
      dsimp only at h
      split at h
      · split at h
        · cases h
        next name hname =>
          cases h
          obtain ⟨argument, hargument, hname⟩ := Option.bind_eq_some_iff.1 hname
          have hargument := within_childrenIn hwithin (List.mem_of_mem_head? hargument)
          exact spells_of_eventName hu hargument hname
      · cases h
  · cases h

/-- A function with a signature takes the name of its event from a literal text. -/
theorem spells_of_custom? (hu : u.StemsFrom root) {signature : Signature} {arguments : List Node}
    (hs : ∀ argument ∈ arguments, root.Within argument)
    (h : custom? u signature arguments = some payload) : Spells root payload.2.1 := by
  unfold custom? at h
  split at h
  · cases h
  next name hname =>
    cases h
    obtain ⟨argument, hargument, hname⟩ := Option.bind_eq_some_iff.1 hname
    exact spells_of_eventName hu (hs argument (List.mem_of_getElem? hargument)) hname

/-- A call in Go takes the names of its events from literal texts. -/
theorem spells_of_mem_payloads {signatures : List Signature} (hu : u.StemsFrom root)
    (hn : root.Within n) (h : payload ∈ payloads u signatures n) : Spells root payload.2.1 := by
  unfold payloads at h
  split at h
  · cases h
  · dsimp only at h
    split at h
    · refine spells_of_custom? hu (fun argument hargument => ?_) (Option.mem_toList.1 h)
      exact within_childrenIn hn hargument
    · obtain ⟨argument, hargument, h⟩ := List.mem_flatMap.1 h
      obtain ⟨c, hc, rfl⟩ := List.mem_map.1 hargument
      have hwithin := within_unwrap (within_childrenIn hn hc)
      split at h
      · split at h
        · cases h
        · split at h
          · exact spells_of_mem_batch hu hwithin h
          · exact spells_of_structured? hu hwithin (Option.mem_toList.1 h)
      · cases h

/-- Every event of a Go file has a name that the file spells. -/
theorem spells_of_mem_events {signatures : List Signature} {path : Path} {event : Event}
    (h : event ∈ events signatures path root) : Spells root event.name := by
  obtain ⟨call, hcall, h⟩ := List.mem_flatMap.1 h
  obtain ⟨payload, hpayload, rfl⟩ := List.mem_map.1 h
  have hwithin := Site.within_of_mem_all .root (List.mem_filter.1 hcall).1
  exact spells_of_mem_payloads (Unit.stemsFrom_ofTree root) hwithin hpayload

end Go

/-! ## All languages -/

/-- Every event has a name that stands between the quotes of a literal without embedded values: one
in the file itself, in a module that a chain of imports and exports leads to from a typed script, or
in a Ruby file of a directory that the constants were collected from. -/
theorem event_names_spelled (signatures : List Signature) :
    (∀ m : Script.Module, ∀ event ∈ Script.events .untyped signatures m,
      Script.Spells m.root event.name) ∧
    (∀ (modules : Script.Modules) (m : Script.Module),
      ∀ event ∈ Script.events modules signatures m,
        ∃ target, modules.Reaches m target ∧ Script.Spells target.root event.name) ∧
    (∀ (path : Path) (root : Node), ∀ event ∈ Python.events signatures path root,
      Python.Spells root event.name) ∧
    (∀ (path : Path) (root : Node), ∀ event ∈ Ruby.events none signatures path root,
      Ruby.Spells root event.name) ∧
    (∀ (fs : FileSystem) (files : List Path) (path : Path) (root : Node),
      ∀ event ∈ Ruby.events (some (.ofFiles fs files)) signatures path root,
        Ruby.Spells root event.name ∨
          ∃ directory ∈ files.filterMap Path.parent?, Ruby.SpellsIn fs directory event.name) ∧
    (∀ (path : Path) (root : Node), ∀ event ∈ Go.events signatures path root,
      Go.Spells root event.name) := by
  refine ⟨fun m event h => ?_, fun modules m event h => Script.spells_of_mem_events h,
    fun path root event h => Python.spells_of_mem_events h, fun path root event h => ?_,
    fun fs files path root event h => ?_, fun path root event h => Go.spells_of_mem_events h⟩
  · obtain ⟨target, hreaches, hspells⟩ := Script.spells_of_mem_events h
    rwa [hreaches.eq_of_imported fun _ _ => rfl] at hspells
  · rcases Ruby.knows_of_mem_events h with hspells | ⟨index, hnone, -⟩
    · exact hspells
    · cases hnone
  · rcases Ruby.knows_of_mem_events h with hspells | ⟨index, hsome, entry, hentry, name, hname⟩
    · exact .inl hspells
    · cases hsome
      exact .inr (Ruby.spells_of_mem_directories hentry hname)

end TrackingPlan
