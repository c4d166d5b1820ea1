import Mathlib.Data.Prod.Lex
import Mathlib.Data.List.MinMax
import TrackingPlan.Calls.Python
import TrackingPlan.Grammar.Python
import TrackingPlan.Proofs.NestedNodes

/-!
# Parameters with the name of a constant

What the name of a parameter stands for in a Python function, where the file has a constant of that
name as well. `lookup?_eq_argmin` says which binding of a name counts, and `latest_of_parameter`
that it is the latest one of the function. A parameter has no value, and a name without a value is
looked up among the constants: so a constant is seen through the parameter, as
`constant_behind_parameter` says and `parameter_shows_constant` shows. Where no constant of that
name is a plain text, a call that is named by the parameter fires nothing.
-/

namespace TrackingPlan.Python

variable {root place call : Node} {u : Unit} {s f use : Site} {b p : Binding} {name : String}
  {signatures : List Signature} {args : Arguments}

/-! ## The binding that counts -/

/-- What decides which of several bindings counts: the width of its scope, and then how late it is
made. -/
def rank (b : Binding) : ℕ ×ₗ ℕᵒᵈ := toLex (b.scope.width, OrderDual.toDual b.start)

/-- A binding is closer if its rank is less. -/
theorem closer_iff (b held : Binding) : Unit.closer b held = true ↔ rank b < rank held := by
  have hwidth (n : Node) : Unit.width n = n.width := rfl
  simp [Unit.closer, rank, hwidth, Prod.Lex.toLex_lt_toLex]

/-- The binding is made before `place`, in a scope around it. -/
def IsVisible (place : Node) (b : Binding) : Prop :=
  b.scope.contains place = true ∧ b.start ≤ place.start

instance (place : Node) (b : Binding) : Decidable (IsVisible place b) :=
  inferInstanceAs (Decidable (_ ∧ _))

/-- `visible u name place` lists the bindings of `name` that are visible at `place`. -/
def visible (u : Unit) (name : String) (place : Node) : List Binding :=
  (u.bindings.filter fun entry => entry.1 = name ∧ IsVisible place entry.2).map (·.2)

/-- The visible bindings are those with the name that can be seen from the place. -/
theorem mem_visible_iff :
    b ∈ visible u name place ↔ (name, b) ∈ u.bindings ∧ IsVisible place b := by
  simp only [visible, List.mem_map, List.mem_filter, decide_eq_true_eq]
  constructor
  · rintro ⟨⟨key, b⟩, ⟨hmem, rfl, hvisible⟩, rfl⟩
    exact ⟨hmem, hvisible⟩
  · rintro ⟨hmem, hvisible⟩
    exact ⟨(name, b), ⟨hmem, rfl, hvisible⟩, rfl⟩

/-- The binding that counts is the first of those with the least rank. -/
theorem lookup?_eq_argmin (u : Unit) (name : String) (place : Node) :
    u.lookup? name place = (visible u name place).argmin rank := by
  rw [visible, List.argmin, List.foldl_map, List.foldl_filter, Unit.lookup?]
  congr 1
  funext best ⟨key, b⟩
  have hcondition : (key = name && b.scope.contains place && b.start ≤ place.start) =
      decide (key = name ∧ IsVisible place b) := by
    rw [Bool.eq_iff_iff, decide_eq_true_iff]
    simp [IsVisible, and_assoc]
  dsimp only
  rw [hcondition]
  split
  · cases best with
    | none => rfl
    | some held =>
        show (if Unit.closer b held = true then some b else some held) = _
        simp only [closer_iff]
        rfl
  · rfl

/-- What is looked up is visible and of the least rank. -/
theorem parts_of_lookup? (h : u.lookup? name place = some b) : (name, b) ∈ u.bindings ∧
    IsVisible place b ∧ ∀ other, (name, other) ∈ u.bindings → IsVisible place other →
    rank b ≤ rank other := by
  rw [lookup?_eq_argmin] at h
  obtain ⟨hmem, hvisible⟩ := mem_visible_iff.1 (List.argmin_mem h)
  refine ⟨hmem, hvisible, ?_⟩
  intro other hother hin
  exact List.le_of_mem_argmin (mem_visible_iff.2 ⟨hother, hin⟩) h

/-- A name with a visible binding is looked up. -/
theorem exists_lookup? (hmem : (name, b) ∈ u.bindings) (hvisible : IsVisible place b) :
    ∃ found, u.lookup? name place = some found := by
  rw [← Option.isSome_iff_exists, lookup?_eq_argmin, Option.isSome_iff_ne_none, ne_eq,
    List.argmin_eq_none]
  exact List.ne_nil_of_mem (mem_visible_iff.2 ⟨hmem, hvisible⟩)

/-! ## The bindings of a file -/

/-- The bindings of a file are those of its sites. -/
theorem mem_bindings_iff : (name, b) ∈ (Unit.ofTree root).bindings ↔
    ∃ s ∈ (Site.root root).all, (name, b) ∈ bindingsAt root s :=
  List.mem_flatMap

/-- A parameter belongs to its function, and has no value. -/
theorem parts_of_parameter {function : Node} (h : (name, p) ∈ parameterBindings function) :
    p.scope = function ∧ p.value = none := by
  unfold parameterBindings at h
  split at h
  · cases h
  · obtain ⟨parameter, -, hparameter⟩ := List.mem_filterMap.1 h
    obtain ⟨key, -, hpair⟩ := Option.map_eq_some_iff.1 hparameter
    cases hpair
    exact ⟨rfl, rfl⟩

/-- The scope around a site stands in the file. -/
theorem within_scopeAround (hs : s ∈ (Site.root root).all) : root.Within (scopeAround root s) := by
  unfold scopeAround
  cases hfound : s.ancestors.find? isScope with
  | none => exact .root
  | some scope =>
      rcases Site.within_of_mem_ancestors hs (List.mem_of_find?_eq_some hfound) with hnone | hwithin
      · cases hnone
      · exact hwithin.1

/-- The scopes of names are nodes of the file. -/
theorem within_scope (h : (name, b) ∈ (Unit.ofTree root).bindings) : root.Within b.scope := by
  obtain ⟨s, hs, hbound⟩ := mem_bindings_iff.1 h
  unfold bindingsAt at hbound
  split at hbound
  · have hassigned := Option.mem_toList.1 hbound
    unfold assignmentBinding? at hassigned
    split at hassigned
    · cases hassigned
      exact within_scopeAround hs
    · cases hassigned
  · rw [(parts_of_parameter hbound).1]
    exact Site.within_of_mem_all .root hs
  · cases hbound

/-- The constants are made by assignments of the file. -/
theorem exists_assignment_of_lookup {value : Node}
    (h : (Unit.ofTree root).constants.lookup name = some value) :
    ∃ s ∈ (Site.root root).all, s.kind = "assignment" ∧
      assignmentConstant? root s = some (name, value) := by
  have hmem := List.mem_reverse.1 (Named.mem_of_lookup h)
  obtain ⟨s, hs, hconstant⟩ := List.mem_filterMap.1 hmem
  obtain ⟨hsite, hkind⟩ := List.mem_filter.1 hs
  exact ⟨s, hsite, of_decide_eq_true hkind, hconstant⟩

/-! ## The parameters of a function -/

/-- The function at `f` is around `use` and has the parameter `p` called `name` before it, and no
scope inside the function binds that name before `use`. -/
structure IsParameterAt (root : Node) (f use : Site) (name : String) (p : Binding) : Prop where
  function : f ∈ (Site.root root).all
  kind : f.kind = "function_definition"
  inside : use ∈ f.all
  parameter : (name, p) ∈ parameterBindings f.node
  before : p.start ≤ use.node.start
  innermost : ∀ b, (name, b) ∈ (Unit.ofTree root).bindings → IsVisible use.node b →
    b.scope.contains f.node = true

/-- The binding belongs to the function at `f`, and is the latest one there before `use`. -/
structure IsLatestIn (root : Node) (f use : Site) (name : String) (b : Binding) : Prop where
  bound : (name, b) ∈ (Unit.ofTree root).bindings
  start_scope : b.scope.start = f.node.start
  stop_scope : b.scope.stop = f.node.stop
  before : b.start ≤ use.node.start
  latest : ∀ other, (name, other) ∈ (Unit.ofTree root).bindings → other.scope = f.node →
    other.start ≤ use.node.start → other.start ≤ b.start

/-- A function holds the use of its parameter. -/
theorem IsParameterAt.contains (h : root.LaidOut) (hp : IsParameterAt root f use name p) :
    f.node.contains use.node = true := by
  have hwithin : root.Within f.node := Site.within_of_mem_all .root hp.function
  rw [Node.contains_iff]
  refine Node.contains_of_within ?_ (Site.within_of_mem_all .root hp.inside)
  intro n hn
  exact h.holdsChildren_of_within (hwithin.trans hn)

/-- A parameter is bound to its name. -/
theorem IsParameterAt.bound (hp : IsParameterAt root f use name p) :
    (name, p) ∈ (Unit.ofTree root).bindings := by
  refine mem_bindings_iff.2 ⟨f, hp.function, ?_⟩
  have hkind := hp.kind
  simp only [bindingsAt, hkind]
  exact hp.parameter

/-- In a function with a parameter of that name, the latest binding of the function counts. -/
theorem latest_of_parameter (h : root.LaidOut) (hbytes : use.node.start < use.node.stop)
    (hp : IsParameterAt root f use name p) :
    ∃ b, (Unit.ofTree root).lookup? name use.node = some b ∧ IsLatestIn root f use name b := by
  have haround := hp.contains h
  have hscope : p.scope = f.node := (parts_of_parameter hp.parameter).1
  have hvisible : IsVisible use.node p := ⟨by rwa [hscope], hp.before⟩
  obtain ⟨b, hb⟩ := exists_lookup? hp.bound hvisible
  obtain ⟨hmem, hin, hleast⟩ := parts_of_lookup? hb
  -- the scope of the binding is no wider than the function, so it is inside, and so the two are one
  -- range
  have hwidth : b.scope.width ≤ f.node.width := by
    rcases Prod.Lex.toLex_le_toLex.1 (hleast p hp.bound hvisible) with hlt | ⟨heq, -⟩
    · rw [← hscope]
      exact Nat.le_of_lt hlt
    · rw [← hscope]
      exact Nat.le_of_eq heq
  obtain ⟨scope, hscopeMem, hscopeNode⟩ := Site.exists_mem_all (within_scope hmem)
  have hinner : f.node.contains b.scope = true := by
    rw [← hscopeNode] at hwidth ⊢
    exact Site.contains_of_width_le h hscopeMem hp.function hbytes (hscopeNode ▸ hin.1)
      haround hwidth
  have houter : b.scope.contains f.node = true := hp.innermost b hmem hin
  rw [Node.contains_iff] at hinner houter
  have hstart : b.scope.start = f.node.start := by omega
  have hstop : b.scope.stop = f.node.stop := by omega
  refine ⟨b, hb, hmem, hstart, hstop, hin.2, ?_⟩
  intro other hother hsame hbefore
  have hotherIn : IsVisible use.node other := ⟨by rwa [hsame], hbefore⟩
  have hsameWidth : other.scope.width = b.scope.width := by
    rw [hsame, Node.width, Node.width, hstart, hstop]
  rcases Prod.Lex.toLex_le_toLex.1 (hleast other hother hotherIn) with hlt | ⟨-, hle⟩
  · show other.start ≤ b.start
    have hlt : b.scope.width < other.scope.width := hlt
    omega
  · exact hle

/-! ## The argument that names an event -/

/-- `madeName? args` is the name in an event that the first argument makes in place. -/
def madeName? (args : Arguments) : Option Node := do
  let made ← args.positional.head?.filter (·.kind = "call")
  let maker ← (← calleeOf? made).getLast?
  let inner := Arguments.ofCall made
  if maker = "BaseEvent" then inner.find? 0 "event_type"
  else if maker = "StructuredEvent" then inner.named? "action"
  else none

/-- `namingArguments signatures call` lists the arguments that may name the event of a call: that of
a signature, or else that of an event made in place, and that of a provider. -/
def namingArguments (signatures : List Signature) (call : Node) : List Node :=
  match calleeOf? call with
  | none => []
  | some callee =>
    let args := Arguments.ofCall call
    match Signature.find? signatures callee with
    | some s => args.positional[s.eventIndex]?.toList
    | none =>
      (if callee.getLast? = some "track" then madeName? args else none).toList ++
        ((ProviderTable.python.lookup? callee).bind (nameArgument? · args)).toList

/-- A signature takes the name from the argument at its place. -/
theorem name_of_custom? (u : Unit) (s : Signature) (args : Arguments) :
    (custom? u s args).map (·.2.1) = args.positional[s.eventIndex]?.bind (eventName? u) := by
  unfold custom?
  cases args.positional[s.eventIndex]?.bind (eventName? u) <;> rfl

/-- An event object has the name that it is made with. -/
theorem name_of_carried? (u : Unit) (args : Arguments) :
    (carried? u args).map (·.2.1) = (madeName? args).bind (eventName? u) := by
  unfold carried? madeName?
  cases args.positional.head?.filter (·.kind = "call") with
  | none => rfl
  | some made =>
      cases hcallee : calleeOf? made with
      | none => simp [hcallee]
      | some callee =>
          cases hmaker : callee.getLast? with
          | none => simp [hcallee, hmaker]
          | some maker =>
              simp only [hcallee, hmaker, bind, Option.bind_some]
              split
              · cases ((Arguments.ofCall made).find? 0 "event_type").bind (eventName? u) <;> rfl
              · split
                · cases ((Arguments.ofCall made).named? "action").bind (eventName? u) <;> rfl
                · rfl

/-- A provider takes the name from the argument that is for it. -/
theorem name_of_sent? (u : Unit) (callee : List String) (args : Arguments) :
    (sent? u callee args).map (·.2.1) =
      ((ProviderTable.python.lookup? callee).bind (nameArgument? · args)).bind (eventName? u) := by
  unfold sent?
  cases ProviderTable.python.lookup? callee with
  | none => rfl
  | some provider =>
      simp only [bind, Option.bind_some]
      cases (nameArgument? provider args).bind (eventName? u) <;> rfl

/-- The event of a call has the name of the first of these arguments that stands for a text, and
there is none if none of them does. -/
theorem name_of_payload? (u : Unit) (signatures : List Signature) (call : Node) :
    (payload? u signatures call).map (·.2.1) =
      (namingArguments signatures call).findSome? (eventName? u) := by
  have hone (n? : Option Node) : n?.toList.findSome? (eventName? u) = n?.bind (eventName? u) := by
    cases n? with
    | none => rfl
    | some n => cases hname : eventName? u n <;> simp [hname]
  unfold payload? namingArguments
  cases calleeOf? call with
  | none => rfl
  | some callee =>
      dsimp only
      cases Signature.find? signatures callee with
      | some s =>
          dsimp only
          rw [name_of_custom?, hone]
      | none =>
          dsimp only
          rw [List.findSome?_append, hone, hone, ← name_of_sent?, Option.map_or]
          split
          · rw [name_of_carried?]
          · rfl

/-! ## Constants behind parameters -/

/-- A name that is bound at a place stands for the value of the binding, or else for the constant of
that name. -/
theorem eventName?_of_lookup? (hkind : use.kind = "identifier")
    (h : u.lookup? use.text use.node = some b) :
    eventName? u use.node = (b.value.or (u.constants.lookup use.text)).bind literal? := by
  have hkind : use.node.kind = "identifier" := hkind
  have hliteral : literal? use.node = none := by simp [literal?, hkind]
  have htext : use.text = use.node.text := rfl
  rw [htext] at h ⊢
  simp [eventName?, hliteral, hkind, h]

/-- An identifier in a function with a parameter of its name stands for the latest binding of the
name in the function, and if that has no value, as the parameter itself has none, for the constant
of the name. Where no assignment outside functions and classes gives the name a plain text, the
parameter is unresolved, and a call whose event only it could name fires none. -/
theorem constant_behind_parameter (h : root.LaidOut) (hbytes : use.node.start < use.node.stop)
    (hkind : use.kind = "identifier") (hp : IsParameterAt root f use use.text p) :
    let u := Unit.ofTree root
    ∃ b, u.lookup? use.text use.node = some b ∧ IsLatestIn root f use use.text b ∧
      eventName? u use.node = (b.value.or (u.constants.lookup use.text)).bind literal? ∧
      (b.value = none →
        (∀ s ∈ (Site.root root).all, ∀ value, s.kind = "assignment" →
          assignmentConstant? root s = some (use.text, value) → literal? value = none) →
        eventName? u use.node = none ∧ ∀ signatures path (call : Site),
          namingArguments signatures call.node = [use.node] →
          event? u signatures path call = none) := by
  intro u
  obtain ⟨b, hb, hlatest⟩ := latest_of_parameter h hbytes hp
  have hname := eventName?_of_lookup? hkind hb
  refine ⟨b, hb, hlatest, hname, ?_⟩
  intro hvalue hconstants
  have hnone : eventName? u use.node = none := by
    rw [hname, hvalue, Option.none_or]
    cases hconstant : (Unit.ofTree root).constants.lookup use.text with
    | none => rfl
    | some value =>
        obtain ⟨s, hs, hassignment, hmade⟩ := exists_assignment_of_lookup hconstant
        exact hconstants s hs value hassignment hmade
  refine ⟨hnone, ?_⟩
  intro signatures path call hnaming
  have hpayload := name_of_payload? u signatures call.node
  rw [hnaming, List.findSome?_singleton, hnone, Option.map_eq_none_iff] at hpayload
  rw [event?, hpayload]
  rfl

/-! ## A constant that is computed, and one that is a text -/

/-- The file with the lines `lines`. -/
def fileOf (lines : List String) : Node := read ⟨(String.join (lines.map (· ++ "\n"))).toUTF8⟩

/-- `parameterUse? root` is the first function of a file with the last identifier in it, if that is
called like a parameter and nothing inside the function binds the name. -/
def parameterUse? (root : Node) : Option (Site × Site) := do
  let f ← (Site.root root).all.find? (·.kind = "function_definition")
  let use ← (f.all.filter (·.kind = "identifier")).getLast?
  if (parameterBindings f.node).any (fun entry => entry.1 = use.text &&
    entry.2.start ≤ use.node.start) &&
      (Unit.ofTree root).bindings.all (fun entry => entry.1 ≠ use.text ||
        !entry.2.scope.contains use.node || entry.2.scope.contains f.node) then
    some (f, use)
  else none

/-- What is found as the use of a parameter is one. -/
theorem exists_parameter_of_parameterUse? (h : parameterUse? root = some (f, use)) :
    use.kind = "identifier" ∧ ∃ p, IsParameterAt root f use use.text p := by
  simp only [parameterUse?, bind, Option.bind_eq_some_iff] at h
  obtain ⟨function, hfunction, name, hname, h⟩ := h
  split at h
  next hconditions =>
    obtain ⟨rfl, rfl⟩ := Prod.mk.inj (Option.some.inj h)
    obtain ⟨hparameter, hinnermost⟩ := Bool.and_eq_true_iff.1 hconditions
    obtain ⟨⟨key, p⟩, hmem, hp⟩ := List.any_eq_true.1 hparameter
    simp only [Bool.and_eq_true, decide_eq_true_eq] at hp
    obtain ⟨rfl, hbefore⟩ := hp
    obtain ⟨hin, hkind⟩ := List.mem_filter.1 (List.mem_of_getLast? hname)
    have hfunctionKind : function.kind = "function_definition" := by
      simpa using List.find?_some hfunction
    refine ⟨of_decide_eq_true hkind, p, List.mem_of_find?_eq_some hfunction,
      hfunctionKind, hin, hmem, hbefore, ?_⟩
    intro b hb hvisible
    have hinner := List.all_eq_true.1 hinnermost (name.text, b) hb
    simpa [hvisible.1] using hinner
  next => cases h

/-- A file with a constant that is no plain text, and a parameter of its name. -/
def computedConstant : Node := fileOf ["E = make()", "def run(E):", "    analytics.track('u', E)"]

/-- A file with a constant that is a plain text, and a parameter of its name. -/
def spelledConstant : Node := fileOf ["E = 'Signup'", "def run(E):", "    analytics.track('u', E)"]

/-- A parameter with the name of a computed constant is unresolved. -/
theorem constant_behind_parameter_of_computed :
    computedConstant.LaidOut ∧ ∃ f use p, use.node.start < use.node.stop ∧ use.kind = "identifier" ∧
      IsParameterAt computedConstant f use use.text p ∧
      eventName? (Unit.ofTree computedConstant) use.node = none := by
  have hchecked : computedConstant.LaidOut ∧
      (parameterUse? computedConstant).map (fun (_, use) =>
        (decide (use.node.start < use.node.stop),
        ((Unit.ofTree computedConstant).lookup? use.text use.node).map (·.value.isNone))) =
          some (true, some true) ∧
      ∀ s ∈ (Site.root computedConstant).all,
        ((assignmentConstant? computedConstant s).all fun entry => (literal? entry.2).isNone) =
          true := by
    decide +kernel
  obtain ⟨hlaid, hview, hconstants⟩ := hchecked
  cases hfound : parameterUse? computedConstant with
  | none => simp [hfound] at hview
  | some found =>
      obtain ⟨f, use⟩ := found
      simp only [hfound, Option.map_some, Option.some.injEq, Prod.mk.injEq,
        decide_eq_true_eq] at hview
      obtain ⟨hbytes, hvalueless⟩ := hview
      obtain ⟨hkind, p, hp⟩ := exists_parameter_of_parameterUse? hfound
      obtain ⟨b, hb, -, -, hunresolved⟩ := constant_behind_parameter hlaid hbytes hkind hp
      have hvalue : b.value = none := by simpa [hb] using hvalueless
      refine ⟨hlaid, f, use, p, hbytes, hkind, hp, (hunresolved hvalue ?_).1⟩
      intro s hs value _ hconstant
      simpa [hconstant] using hconstants s hs

/-- A parameter is what its name stands for, and still the event has the text of the constant. -/
theorem parameter_shows_constant :
    (∃ f use p b, use.kind = "identifier" ∧ IsParameterAt spelledConstant f use use.text p ∧
      (Unit.ofTree spelledConstant).lookup? use.text use.node = some b ∧ b.value = none ∧
      eventName? (Unit.ofTree spelledConstant) use.node = some "Signup") ∧
    (events [] ⟨"a.py"⟩ spelledConstant).map (·.name) = ["Signup"] := by
  have hchecked : (parameterUse? spelledConstant).map (fun (_, use) =>
        (((Unit.ofTree spelledConstant).lookup? use.text use.node).map (·.value.isNone),
          eventName? (Unit.ofTree spelledConstant) use.node)) = some (some true, some "Signup") ∧
      (events [] ⟨"a.py"⟩ spelledConstant).map (·.name) = ["Signup"] := by
    decide +kernel
  obtain ⟨hview, hevents⟩ := hchecked
  refine ⟨?_, hevents⟩
  cases hfound : parameterUse? spelledConstant with
  | none => simp [hfound] at hview
  | some found =>
      obtain ⟨f, use⟩ := found
      simp only [hfound, Option.map_some, Option.some.injEq, Prod.mk.injEq] at hview
      obtain ⟨hvalueless, hname⟩ := hview
      obtain ⟨hkind, p, hp⟩ := exists_parameter_of_parameterUse? hfound
      obtain ⟨b, hb, hvalue⟩ := Option.map_eq_some_iff.1 hvalueless
      exact ⟨f, use, p, b, hkind, hp, hb, Option.isNone_iff_eq_none.1 hvalue, hname⟩

end TrackingPlan.Python
