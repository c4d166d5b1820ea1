import TrackingPlan.Proofs.CanonicalSchemas
import TrackingPlan.Proofs.DeclaredTypes
import TrackingPlan.Proofs.TypedScripts

/-!
# What holds of all schemas of a script

An invariant of schemas holds of all that a script says of a value if it is kept where labels are
made, in the types of the script and among its values: `KeptByValues`. `holdsWithin` is the
induction over the steps from an expression to its value, and `holds_of_mem_events` the statement on
the events of a script. All that makes labels keeps to canonical schemas: `canonical_of_mem_events`.
-/

namespace TrackingPlan.Script

open Schema

variable {P : Schema → Prop} {root : Node} {modules : Modules}

/-! ## Values -/

/-- The schemas of the values of a script have the property if those that they are made of do: in
the types that are written in the script, for parameters that may be left out, and for the items of
arrays. -/
structure KeptByValues (P : Schema → Prop) (scope : Scope) : Prop where
  types : ∀ target depth seen, scope.modules.Visits scope.module target depth seen →
    KeptByTypes P (reference scope.modules target depth seen) target.root
  parameter : ∀ n type, scope.module.root.Within n → n.kind = "optional_parameter" →
    n.child? "type" = some type → P (annotationSchema scope.modules scope.module type) →
    P (optional (annotationSchema scope.modules scope.module type))
  items : ∀ hops, ∀ s ∈ Module.sites scope.module.root, s.kind = "array" →
    (∀ c ∈ s.children, c.kind ≠ "spread_element" → P (valueSchema scope hops c)) →
    P (arrayItems ((s.children.filter (·.kind ≠ "spread_element")).map (valueSchema scope hops)))

variable {scope : Scope} {value name : Site → Schema} {spread : Site → Properties}

/-- The class around a site of a script is a site of the script. -/
theorem mem_sites_of_enclosingClass? {s body : Site} (hs : s ∈ Module.sites root)
    (h : enclosingClass? s = some body) : body ∈ Module.sites root := by
  have hgo : ∀ ns, enclosingClass?.go ns = some body → body.node :: body.ancestors <:+ ns := by
    intro ns hfound
    induction ns with
    | nil => cases hfound
    | cons n rest ih =>
        rw [enclosingClass?.go] at hfound
        split at hfound
        · cases hfound
          exact List.suffix_rfl
        · exact (ih hfound).trans (List.suffix_cons n rest)
  exact Site.mem_all_of_suffix hs (hgo s.ancestors h)

/-- The sites of a script stand in it. -/
theorem within_of_mem_sites {s : Site} (hs : s ∈ Module.sites root) : root.Within s.node :=
  Site.within_of_mem_all .root hs

section Values

variable (hP : Invariant P) (hkept : KeptByValues P scope)
include hP hkept

/-- The property holds of annotations. -/
theorem holds_annotation {type : Node} (htype : scope.module.root.Within type) :
    P (annotationSchema scope.modules scope.module type) :=
  holds_annotationSchema hP hkept.types htype

/-- The property holds of parameters that declare members. -/
theorem holds_parameterProperty? {property : String} {parameter : Node} {s : Schema}
    (hparameter : scope.module.root.Within parameter)
    (h : parameterProperty? scope property parameter = some s) : P s := by
  unfold parameterProperty? at h
  split at h
  · obtain rfl := Option.some.inj h
    cases htype : parameter.child? "type" with
    | none => simpa only [optional_any, ite_self] using hP.any
    | some type =>
        have hschema := holds_annotation hP hkept (hparameter.child? htype)
        dsimp only
        split
        next hkind => exact hkept.parameter parameter type hparameter hkind htype hschema
        next => exact hschema
  · cases h

/-- The invariant holds of the schemas of the properties of a class. -/
theorem holds_classMember (hvalue : ∀ s ∈ Module.sites scope.module.root, P (value s))
    {place : Site} (hplace : place ∈ Module.sites scope.module.root) (property : String) :
    P (classMember scope value place property) := by
  unfold classMember
  split
  · exact hP.any
  next body hbody =>
    have hbody := mem_sites_of_enclosingClass? hplace hbody
    refine Invariant.getD hP.any fun s hs => ?_
    obtain ⟨member, hmember, hfound⟩ := List.exists_of_findSome?_eq_some hs
    have hmember := (Site.inherited_mem_all scope.module.root).children hbody hmember
    split at hfound
    · split at hfound
      next type htype =>
        cases hfound
        exact holds_annotation hP hkept (Site.within_child? (within_of_mem_sites hmember) htype)
      next =>
        cases hfound
        split
        next initial hinitial =>
          exact hvalue initial ((Site.inherited_mem_all scope.module.root).child? hmember hinitial)
        next => exact hP.any
    · split at hfound
      · split at hfound
        · cases hfound
        next parameters hparameters =>
          obtain ⟨parameter, hparameter, hschema⟩ := List.exists_of_findSome?_eq_some hfound
          have hwithin := Site.within_child? (within_of_mem_sites hmember) hparameters
          exact holds_parameterProperty? hP hkept (hwithin.namedChildren hparameter) hschema
      · cases hfound

omit hkept in
/-- The property holds of the member of a schema that has it. -/
theorem holds_memberOf {schema : Schema} (h : P schema) (s : Site) : P (memberOf schema s) := by
  have hfield (fields : Properties) (key : String) (hfields : schema = .object fields) :
      P ((Named.find? fields key).getD .any) :=
    Invariant.getD hP.any fun _ hfound => hP.of_find? (hfields ▸ h) hfound
  unfold memberOf
  split
  · dsimp only
    split
    next items =>
      split
      · exact hP.array.1 h
      · exact hP.any
    next fields =>
      split
      · exact hP.any
      next key _ => exact hfield fields key rfl
    · exact hP.any
  · split
    · exact hP.any
    next property _ =>
      split
      · split
        · exact hP.number
        · exact hP.any
      · split
        · exact hP.number
        · exact hP.any
      next fields => exact hfield fields property rfl
      · exact hP.any

/-- The property holds of members of the values that have it. -/
theorem holds_memberSchema (hvalue : ∀ s ∈ Module.sites scope.module.root, P (value s)) {s : Site}
    (hs : s ∈ Module.sites scope.module.root) : P (memberSchema scope value s) := by
  unfold memberSchema
  split
  · exact hP.any
  next object hobject =>
    have hinherited := Site.inherited_mem_all scope.module.root
    dsimp only
    split
    · split
      · exact hP.any
      next property _ => exact holds_classMember hP hkept hvalue hs property
    · exact holds_memberOf hP
        (hvalue _ (inherited_unwrap hinherited (hinherited.child? hs hobject))) s

omit hkept in
/-- The property holds of sums. -/
theorem holds_sumSchema (left right : Schema) : P (sumSchema left right) := by
  unfold sumSchema
  split
  · exact hP.string
  · split
    · exact hP.number
    · exact hP.any

omit hkept in
/-- The property holds of operations on two values. -/
theorem holds_binarySchema (s : Site) : P (binarySchema value s) := by
  unfold binarySchema
  dsimp only
  split
  · exact hP.boolean
  · split
    · exact hP.number
    · split
      · exact holds_sumSchema hP _ _
      · exact hP.any

omit hkept in
/-- The property holds of operations on one value. -/
theorem holds_unarySchema (s : Site) : P (unarySchema s) := by
  unfold unarySchema
  split
  · exact hP.boolean
  · exact hP.number
  · exact hP.number
  · exact hP.number
  · exact hP.string
  · exact hP.any

omit hkept in
/-- The invariant holds of the schemas of an object written out. -/
theorem holds_objectFields (hvalue : ∀ s ∈ Module.sites root, P (value s)) (hname : ∀ s, P (name s))
    (hspread : ∀ s ∈ Module.sites root, P (.object (spread s))) {object : Site}
    (hobject : object ∈ Module.sites root) :
    P (.object (objectFields value name spread object)) := by
  have hinherited := Site.inherited_mem_all root
  rw [objectFields_eq]
  refine List.foldlRecOn (motive := fun fields => P (.object fields)) _ _ hP.nil ?_
  intro fields hfields entry hentry
  have hentry := hinherited.children hobject hentry
  unfold addEntry
  split
  · split
    · exact hfields
    · refine hP.insert hfields ?_
      split
      · exact hP.any
      next v hv => exact hvalue v (hinherited.child? hentry hv)
  · exact hP.insert hfields (hname entry)
  · split
    · exact hfields
    next inner hinner =>
      exact hP.merge hfields fun _ hmem =>
        hP.of_mem (hspread inner (hinherited.first? hentry hinner)) hmem
  · exact hfields

end Values

/-- Within so many hops, the property holds of the schemas of values, names and arguments. -/
structure HoldsWithin (P : Schema → Prop) (scope : Scope) (hops : Nat) : Prop where
  value : ∀ s ∈ Module.sites scope.module.root, P (valueSchema scope hops s)
  name : ∀ name place, P (nameSchema scope hops name place)
  properties : ∀ s ∈ Module.sites scope.module.root, P (.object (propertiesOf scope hops s))

section Step

variable {hops : Nat} (hP : Invariant P) (hkept : KeptByValues P scope)
  (h : HoldsWithin P scope hops)
  (hbefore : HoldsWithin P scope (hops - 1))
include hP h

/-- The property holds of names that stand for themselves in an object. -/
theorem HoldsWithin.standing (place : Site) : P (if scope.modules.typed then
    nameSchema scope hops place.text place else .any) := by
  split
  · exact h.name _ place
  · exact hP.any

include hkept

/-- The property holds of names for one hop more. -/
theorem HoldsWithin.name_succ (name : String) (place : Site) :
    P (nameSchema scope (hops + 1) name place) := by
  rw [nameSchema]
  split
  next binding hbinding =>
    split
    next type htype =>
      have htype := Module.mem_sites_of_lookup? hbinding (.inr htype)
      exact holds_annotation hP hkept (within_of_mem_sites htype)
    next =>
      split
      · exact hP.any
      next value hvalue =>
        split
        · exact holds_enumSchema hP _
        · exact h.value value (Module.mem_sites_of_lookup? hbinding (.inl hvalue))
  next =>
    split
    · exact hP.string
    · exact hP.any

include hbefore

omit hkept in
/-- The property holds of the fields of an object. -/
theorem HoldsWithin.fields {object : Site} (hobject : object ∈ Module.sites scope.module.root) :
    P (.object (objectFields (valueSchema scope hops)
      (fun name => if scope.modules.typed then nameSchema scope hops name.text name else .any)
      (propertiesOf scope (hops - 1)) object)) :=
  holds_objectFields hP h.value (h.standing hP) hbefore.properties hobject

/-- The property holds of expressions for one hop more. -/
theorem HoldsWithin.value_succ {s : Site} (hs : s ∈ Module.sites scope.module.root) :
    P (valueSchema scope (hops + 1) s) := by
  have hinherited := Site.inherited_mem_all scope.module.root
  rw [valueSchema]
  split
  case h_1 | h_2 => exact hP.string
  case h_3 => exact hP.number
  case h_4 | h_5 => exact hP.boolean
  case h_6 => exact hP.null
  case h_7 =>
    split
    · exact hP.undefined
    · exact hP.any
  case h_8 => exact h.fields hP hbefore hs
  case h_9 hkind =>
    exact hP.array.2 (hkept.items hops s hs hkind fun c hc _ =>
      h.value c (hinherited.children hs hc))
  case h_10 => exact h.standing hP s
  case h_11 | h_12 =>
    split
    · split
      · exact hP.string
      · exact holds_memberSchema hP hkept h.value hs
    · exact hP.any
  case h_13 | h_14 | h_15 =>
    split
    · exact hP.any
    next inner hinner => exact h.value inner (hinherited.first? hs hinner)
  case h_16 =>
    split
    · exact hP.any
    next inner hinner => exact h.value inner (hinherited.children hs (hinner ▸ List.mem_cons_self))
    next inner type rest hparts =>
      have htype : type ∈ s.children := hparts ▸ List.mem_cons_of_mem _ List.mem_cons_self
      split
      · exact holds_annotation hP hkept (within_of_mem_sites (hinherited.children hs htype))
      · exact h.value inner (hinherited.children hs (hparts ▸ List.mem_cons_self))
  case h_17 =>
    split
    · exact holds_unarySchema hP s
    · exact hP.any
  case h_18 =>
    split
    · exact holds_binarySchema hP s
    · exact hP.any
  case h_19 =>
    split
    · split
      · exact hP.any
      next argument _ harguments =>
        have hargument : argument ∈ argumentsOf s := harguments ▸ List.mem_cons_self
        exact h.value argument (inherited_argumentsOf hinherited hs hargument)
    · exact hP.any
  case h_20 => exact hP.any

/-- The property holds of the properties of arguments for one hop more. -/
theorem HoldsWithin.properties_succ {s : Site} (hs : s ∈ Module.sites scope.module.root) :
    P (.object (propertiesOf scope (hops + 1) s)) := by
  have hinherited := Site.inherited_mem_all scope.module.root
  rw [propertiesOf]
  split
  next object hobject =>
    exact h.fields hP hbefore (inherited_resolveObject? hinherited
      (fun _ hsite => hsite) hs hobject)
  · dsimp only
    split
    · split
      · exact hP.nil
      next binding hbinding =>
        split
        next inner hinner =>
          obtain ⟨hmapped, -⟩ := Option.filter_eq_some_iff.1 hinner
          obtain ⟨value, hvalue, rfl⟩ := Option.map_eq_some_iff.1 hmapped
          exact h.properties _
            (inherited_unwrap hinherited (Module.mem_sites_of_lookup? hbinding (.inl hvalue)))
        next =>
          split
          · exact hP.nil
          next type htype =>
            have htype := Module.mem_sites_of_lookup? hbinding (.inr htype)
            have hschema := holds_annotation hP hkept (within_of_mem_sites htype)
            split
            · split
              next fields hfields =>
                rw [hfields] at hschema
                exact hschema
              · exact hP.nil
            · exact hP.nil
    · exact hP.nil

end Step

section Events

variable (hP : Invariant P) (hkept : KeptByValues P scope)
include hP hkept

/-- The property holds of all that is inferred, for any number of hops. -/
theorem holdsWithin (hops : Nat) : HoldsWithin P scope hops := by
  induction hops using Nat.strongRecOn with
  | ind hops ih =>
      cases hops with
      | zero =>
          refine ⟨fun s _ => ?_, fun name place => ?_, fun s _ => ?_⟩
          · rw [valueSchema]
            exact hP.any
          · rw [nameSchema]
            exact hP.any
          · rw [propertiesOf]
            exact hP.nil
      | succ hops =>
          have h := ih hops (by omega)
          have hbefore := ih (hops - 1) (by omega)
          exact ⟨fun _ => h.value_succ hP hkept hbefore, h.name_succ hP hkept,
            fun _ => h.properties_succ hP hkept hbefore⟩

/-! ## Events -/

variable {signatures : List Signature} {arguments : List Site} {found : String × Properties}

/-- The property holds of the payload of arguments at their places. -/
theorem holds_positional? {event properties : Nat}
    (harguments : ∀ argument ∈ arguments, argument ∈ Module.sites scope.module.root)
    (h : positional? scope arguments event properties = some found) : P (.object found.2) := by
  unfold positional? at h
  split at h
  · cases h
  · split at h
    · cases h
    · cases h
      dsimp only
      split
      · exact hP.nil
      next argument hargument =>
        exact (holdsWithin hP hkept allHops).properties _
          (harguments _ (List.mem_of_getElem? hargument))

/-- The property holds of the payload of an object with a key for the event. -/
theorem holds_keyed? {payload : Site} {key : String}
    (hpayload : payload ∈ Module.sites scope.module.root)
    (h : keyed? scope payload key = some found) : P (.object found.2) := by
  unfold keyed? at h
  split at h
  · cases h
  next object hobject =>
    have hobject :=
      inherited_resolveObject? (Site.inherited_mem_all _) (fun _ hsite => hsite) hpayload hobject
    split at h
    · cases h
    · cases h
      have hall := holdsWithin hP hkept allHops
      exact hP.erase key (holds_objectFields hP hall.value (hall.standing hP)
        (holdsWithin hP hkept maxHops).properties hobject)

/-- The property holds of the payload of a provider. -/
theorem holds_payload? {provider : Provider}
    (harguments : ∀ argument ∈ arguments, argument ∈ Module.sites scope.module.root)
    (h : payload? scope provider arguments = some found) : P (.object found.2) := by
  unfold payload? at h
  split at h
  · split at h
    · cases h
    · split at h
      · exact holds_positional? hP hkept harguments h
      · cases h
  · split at h
    · cases h
    next first _ =>
      obtain ⟨payload, hpayload, hkeyed⟩ := Option.bind_eq_some_iff.1 h
      have hpayload :=
        inherited_structuredPayload? (Site.inherited_mem_all _) (fun _ hsite => hsite)
        (harguments first List.mem_cons_self) hpayload
      exact holds_keyed? hP hkept hpayload hkeyed
  · split at h
    · cases h
    next first _ => exact holds_keyed? hP hkept (harguments first List.mem_cons_self) h
  · exact holds_positional? hP hkept harguments h
  · exact holds_positional? hP hkept harguments h

/-- The property holds of the payload of a signature. -/
theorem holds_customPayload? {s : Signature}
    (harguments : ∀ argument ∈ arguments, argument ∈ Module.sites scope.module.root)
    (h : customPayload? scope s arguments = some found) : P (.object found.2) := by
  unfold customPayload? at h
  split at h
  · cases h
  next name properties hpositional =>
    cases h
    refine List.foldlRecOn (motive := fun fields => P (.object fields)) s.extraParameters _
      (holds_positional? hP hkept harguments hpositional) fun fields hfields extra _ => ?_
    split
    · exact hfields
    next argument hargument =>
      exact hP.insert hfields
        ((holdsWithin hP hkept allHops).value _ (harguments _ (List.mem_of_getElem? hargument)))

end Events

/-- The invariant holds of the schemas of the properties of all events of a script. -/
theorem holds_of_mem_events (hP : Invariant P) {m : Module} (hkept : KeptByValues P ⟨modules, m⟩)
    {signatures : List Signature} {e : Event} (he : e ∈ events modules signatures m) :
    P (.object e.properties) := by
  obtain ⟨call, hcall, h⟩ := List.mem_filterMap.1 he
  have harguments : ∀ argument ∈ argumentsOf call, argument ∈ Module.sites m.root :=
    fun _ => inherited_argumentsOf (Site.inherited_mem_all m.root) (List.mem_filter.1 hcall).1
  unfold event? at h
  split at h
  · cases h
  next callee _ =>
    obtain ⟨⟨provider, found⟩, hfound, rfl⟩ := Option.map_eq_some_iff.1 h
    split at hfound
    next s _ =>
      obtain ⟨payload, hpayload, heq⟩ := Option.map_eq_some_iff.1 hfound
      cases heq
      exact holds_customPayload? hP hkept harguments hpayload
    next =>
      split at hfound
      · cases hfound
      · obtain ⟨payload, hpayload, heq⟩ := Option.map_eq_some_iff.1 hfound
        cases heq
        exact holds_payload? hP hkept harguments hpayload

/-! ## Canonical schemas -/

/-- A canonical schema is canonical when it is optional. -/
theorem canonical_optional {s : Schema} (h : s.Canonical) : (optional s).Canonical := by
  unfold optional
  split
  · refine Canonical.union fun member hmember => ?_
    rcases List.mem_pair.1 hmember with rfl | rfl
    · exact h
    · exact canonical_label _
  · exact h

/-- A union of canonical schemas is canonical. -/
theorem canonical_unionSchema {members : List Schema} (h : ∀ s ∈ members, s.Canonical) :
    (unionSchema members).Canonical := by
  unfold unionSchema
  split
  · exact canonical_any
  · split
    next one hone =>
      have hmem : one ∈ members :=
        (List.mem_filter.1 (hone ▸ List.mem_cons_self : one ∈ members.filter (!·.isPrimitive))).1
      split
      · exact h one hmem
      · exact Canonical.union h
    · exact Canonical.union h

/-- Canonical schemas are kept by all types. -/
theorem canonical_keptByTypes (named : String → Option Schema) (root : Node) :
    KeptByTypes Canonical named root where
  word n _ _ _ := canonical_label n.text
  union _ _ _ h := canonical_unionSchema (List.forall_mem_map.2 h)
  tuple _ _ _ h := Canonical.union (List.forall_mem_map.2 h)
  optional _ _ _ _ _ h := canonical_optional h

/-- To be canonical is kept by all that scripts infer from values. -/
theorem canonical_keptByValues (scope : Scope) : KeptByValues Canonical scope where
  types _ _ _ _ := canonical_keptByTypes _ _
  parameter _ _ _ _ _ h := canonical_optional h
  items hops s _ _ h := by
    refine Canonical.arrayItems fun item hitem => ?_
    obtain ⟨c, hc, rfl⟩ := List.mem_map.1 hitem
    obtain ⟨hmem, hkind⟩ := List.mem_filter.1 hc
    exact h c hmem (by simpa using hkind)

/-- The properties of every event of a script are canonical. -/
theorem canonical_of_mem_events {signatures : List Signature} {m : Module} {e : Event}
    (he : e ∈ events modules signatures m) : e.properties.Canonical :=
  holds_of_mem_events canonical_invariant (canonical_keptByValues ⟨modules, m⟩) he

end TrackingPlan.Script
