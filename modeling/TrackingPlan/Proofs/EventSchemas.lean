import TrackingPlan.Proofs.ScriptSchemas
import TrackingPlan.Scan

/-!
# The schemas of events are canonical

In Python, Ruby and Go a value is read by its literals and the names in it, within a number of
steps. `canonical_valueSchema` is the induction over these steps in each of the languages, and
`canonical_of_mem_events` says that the events of a file have canonical properties; for all
languages, `Scan.canonical_of_mem_events` does.
-/

namespace TrackingPlan

open Schema

/-! ## Python -/

namespace Python

variable {u : Unit} {value : Node → Schema} {signatures : List Signature} {path : Path}
  {root call : Node} {args : Arguments} {payload : Payload}

/-- The schema of an annotation is canonical. -/
theorem canonical_annotationWithin (depth : Nat) (text : List Char) :
    (annotationWithin depth text).Canonical := by
  induction depth generalizing text with
  | zero => exact canonical_any
  | succ depth ih =>
      rw [annotationWithin]
      dsimp only
      split
      case h_1 => exact canonical_string
      case h_2 | h_3 => exact canonical_number
      case h_4 => exact canonical_boolean
      case h_5 => exact canonical_null
      case h_13 | h_14 | h_15 => exact Properties.Canonical.nil
      case h_16 =>
        split
        · exact canonical_any
        · exact ih _
      case h_17 => exact canonical_any
      all_goals
        refine .array ?_
        split
        · exact canonical_any
        · exact ih _

/-- The fields of a dictionary are canonical if the schemas of its values are. -/
theorem canonical_dictionaryFields (h : ∀ n, (value n).Canonical) (n : Node) :
    Properties.Canonical (dictionaryFields value n) := by
  refine .ofEntries fun entry hentry => ?_
  obtain ⟨pair, -, hpair⟩ := List.mem_filterMap.1 hentry
  obtain ⟨key, -, rfl⟩ := Option.map_eq_some_iff.1 hpair
  exact canonical_getD_map canonical_any fun n _ => h n

/-- The fields of keyword arguments are canonical if the schemas of their values are. -/
theorem canonical_keywordFields (h : ∀ n, (value n).Canonical) (keywords : List (String × Node)) :
    Properties.Canonical (keywordFields value keywords) := by
  refine .ofEntries fun entry hentry => ?_
  obtain ⟨keyword, -, rfl⟩ := List.mem_map.1 hentry
  exact h keyword.2

/-- The fields of a dictionary that is made by a call are canonical if the schemas of its values
are. -/
theorem canonical_constructedFields? (h : ∀ n, (value n).Canonical) {p : Properties}
    (hp : constructedFields? value call = some p) : Properties.Canonical p := by
  unfold constructedFields? at hp
  split at hp
  · obtain rfl := Option.some.inj hp
    refine Properties.Canonical.merge ?_ fun _ hmem => (canonical_keywordFields h _).of_mem hmem
    split
    · exact .nil
    · split
      · exact canonical_dictionaryFields h _
      · exact .nil
  · cases hp

/-- Expressions have canonical schemas. -/
theorem canonical_valueSchema (u : Unit) (steps : Nat) (n : Node) :
    (valueSchema u steps n).Canonical := by
  induction steps generalizing n with
  | zero =>
      rw [valueSchema]
      exact canonical_any
  | succ steps ih =>
      rw [valueSchema]
      have hnamed : (if (eventName? u n).isSome then Schema.string else .any).Canonical := by
        split <;> simp
      split
      case h_1 | h_2 => exact canonical_string
      case h_3 | h_4 | h_5 => exact canonical_number
      case h_6 | h_7 | h_8 | h_9 => exact canonical_boolean
      case h_10 => exact canonical_null
      case h_11 => exact canonical_dictionaryFields ih n
      case h_12 | h_13 | h_14 =>
        refine .array (Canonical.arrayItems fun item hitem => ?_)
        obtain ⟨element, -, rfl⟩ := List.mem_map.1 hitem
        exact ih element
      case h_15 => exact canonical_getD_map canonical_any fun inner _ => ih inner
      case h_16 =>
        split
        · exact hnamed
        · split
          · exact canonical_annotationWithin _ _
          · exact ih _
          · exact hnamed
      case h_17 => exact hnamed
      case h_18 =>
        exact canonical_getD_map canonical_any fun p hp => canonical_constructedFields? ih hp
      case h_19 => exact canonical_any

/-- The properties of an argument are canonical. -/
theorem canonical_propertiesOf (n : Option Node) : Properties.Canonical (propertiesOf u n) := by
  unfold propertiesOf
  split
  · exact .nil
  next n =>
    refine .getD fun p hp => ?_
    obtain ⟨source, -, hmapping⟩ := Option.bind_eq_some_iff.1 hp
    unfold mapping? at hmapping
    split at hmapping
    · cases hmapping
      exact canonical_dictionaryFields (canonical_valueSchema u allSteps) _
    · exact canonical_constructedFields? (canonical_valueSchema u allSteps) hmapping
    · cases hmapping

/-- The properties of keyword arguments are canonical. -/
theorem canonical_keywordsExcept (skipped : String) :
    Properties.Canonical (keywordsExcept u args skipped) :=
  canonical_keywordFields (canonical_valueSchema u allSteps) _

/-- The payload of a signature has canonical properties. -/
theorem canonical_custom? {s : Signature} (h : custom? u s args = some payload) :
    payload.2.2.Canonical := by
  obtain ⟨name, -, hmade⟩ := Option.bind_eq_some_iff.1 h
  cases hmade
  refine List.foldlRecOn s.extraParameters _ (canonical_propertiesOf _)
    fun fields hfields extra _ => ?_
  split
  · exact hfields
  · exact hfields.insert (canonical_valueSchema u allSteps _)

/-- The payload of an event object has canonical properties. -/
theorem canonical_carried? (h : carried? u args = some payload) : payload.2.2.Canonical := by
  simp only [carried?, bind, Option.bind_eq_some_iff] at h
  obtain ⟨made, -, callee, -, maker, -, h⟩ := h
  split at h
  · obtain ⟨name, -, hmade⟩ := Option.bind_eq_some_iff.1 h
    cases hmade
    exact canonical_propertiesOf _
  · split at h
    · obtain ⟨name, -, hmade⟩ := Option.bind_eq_some_iff.1 h
      cases hmade
      exact canonical_keywordsExcept "action"
    · cases h

/-- The payload of a provider has canonical properties. -/
theorem canonical_sent? {callee : List String} (h : sent? u callee args = some payload) :
    payload.2.2.Canonical := by
  simp only [sent?, bind, Option.bind_eq_some_iff] at h
  obtain ⟨provider, -, name, -, h⟩ := h
  cases h
  dsimp only
  split
  · exact canonical_keywordsExcept "action"
  · exact canonical_propertiesOf _

/-- The properties of every event of a Python file are canonical. -/
theorem canonical_of_mem_events {e : Event} (he : e ∈ events signatures path root) :
    e.properties.Canonical := by
  obtain ⟨call, -, h⟩ := List.mem_filterMap.1 he
  obtain ⟨payload, hpayload, rfl⟩ := Option.map_eq_some_iff.1 h
  unfold payload? at hpayload
  split at hpayload
  · cases hpayload
  · dsimp only at hpayload
    split at hpayload
    · exact canonical_custom? hpayload
    · rcases Option.or_eq_some_iff.1 hpayload with hcarried | ⟨-, hsent⟩
      · split at hcarried
        · exact canonical_carried? hcarried
        · cases hcarried
      · exact canonical_sent? hsent

end Python

/-! ## Ruby -/

namespace Ruby

variable {u : Unit} {value : Site → Schema} {signatures : List Signature} {path : Path}
  {index : Option ConstantIndex} {root : Node} {arguments : List Site} {found : String × Properties}

/-- The fields of pairs are canonical if the schemas of their values are. -/
theorem canonical_pairFields (h : ∀ s, (value s).Canonical) (sites : List Site) :
    Properties.Canonical (pairFields value sites) := by
  refine .ofEntries fun entry hentry => ?_
  obtain ⟨pair, -, hpair⟩ := List.mem_filterMap.1 hentry
  obtain ⟨key, -, rfl⟩ := Option.map_eq_some_iff.1 hpair
  exact canonical_getD_map canonical_any fun s _ => h s

/-- Expressions have canonical schemas. -/
theorem canonical_valueSchema (u : Unit) (steps : Nat) (s : Site) :
    (valueSchema u steps s).Canonical := by
  induction steps generalizing s with
  | zero =>
      rw [valueSchema]
      exact canonical_any
  | succ steps ih =>
      rw [valueSchema]
      split
      case h_1 | h_2 | h_3 | h_4 => exact canonical_string
      case h_5 | h_6 | h_7 => exact canonical_number
      case h_8 | h_9 => exact canonical_boolean
      case h_10 => exact canonical_null
      case h_11 => exact canonical_pairFields ih s.children
      case h_12 =>
        refine .array (Canonical.arrayItems fun item hitem => ?_)
        obtain ⟨element, -, rfl⟩ := List.mem_map.1 hitem
        exact ih element
      case h_13 => split <;> simp
      case h_14 | h_15 => split <;> simp
      case h_16 =>
        split
        next hash _ => exact canonical_pairFields ih hash.children
        · split <;> simp
      case h_17 => exact canonical_any

/-- The properties of an argument are canonical. -/
theorem canonical_propertiesOf (s : Option Site) : Properties.Canonical (propertiesOf u s) := by
  unfold propertiesOf
  split
  · exact .nil
  next hash _ => exact canonical_pairFields (canonical_valueSchema u allSteps) hash.children

/-- Keyword arguments give canonical properties. -/
theorem canonical_fromKeywords? {keys : Keys} {keywords : List (String × Site)}
    (h : fromKeywords? u keys keywords = some found) : found.2.Canonical := by
  obtain ⟨name, -, hmade⟩ := Option.bind_eq_some_iff.1 h
  cases hmade
  refine Properties.Canonical.merge ?_ fun _ hmem => (canonical_propertiesOf _).of_mem hmem
  refine List.foldlRecOn keys.identity _ .nil fun fields hfields key _ => ?_
  split
  · exact hfields
  · exact hfields.insert (canonical_valueSchema u allSteps _)

/-- The payload of a provider has canonical properties. -/
theorem canonical_sent? {provider : Provider} (h : sent? u provider arguments = some found) :
    found.2.Canonical := by
  unfold sent? at h
  dsimp only at h
  split at h
  case h_1 | h_2 | h_3 =>
    obtain ⟨keywords, -, hmade⟩ := Option.bind_eq_some_iff.1 h
    exact canonical_fromKeywords? hmade
  case h_4 =>
    obtain ⟨name, -, hmade⟩ := Option.bind_eq_some_iff.1 h
    cases hmade
    dsimp only
    split
    · exact canonical_propertiesOf _
    · exact (canonical_propertiesOf _).insert (canonical_valueSchema u allSteps _)
  case h_5 =>
    simp only [bind, Option.bind_eq_some_iff] at h
    obtain ⟨made, -, maker, -, h⟩ := h
    split at h
    · obtain ⟨keywords, -, hmade⟩ := Option.bind_eq_some_iff.1 h
      exact canonical_fromKeywords? hmade
    · cases h
  case h_6 =>
    simp only [bind, Option.bind_eq_some_iff] at h
    obtain ⟨keywords, -, name, -, hmade⟩ := h
    cases hmade
    refine .ofEntries fun entry hentry => ?_
    obtain ⟨keyword, -, rfl⟩ := List.mem_map.1 hentry
    exact canonical_valueSchema u allSteps keyword.2
  case h_7 => cases h

/-- The payload of a signature has canonical properties. -/
theorem canonical_custom? {s : Signature} (h : custom? u s arguments = some found) :
    found.2.Canonical := by
  obtain ⟨name, -, hmade⟩ := Option.bind_eq_some_iff.1 h
  cases hmade
  refine Properties.Canonical.merge ?_ fun _ hmem => (canonical_propertiesOf _).of_mem hmem
  refine List.foldlRecOn s.extraParameters _ .nil fun fields hfields extra _ => ?_
  split
  · exact hfields
  · exact hfields.insert (canonical_valueSchema u allSteps _)

/-- The properties of every event of a Ruby file are canonical. -/
theorem canonical_of_mem_events {e : Event} (he : e ∈ events index signatures path root) :
    e.properties.Canonical := by
  obtain ⟨call, -, h⟩ := List.mem_filterMap.1 he
  obtain ⟨payload, hpayload, rfl⟩ := Option.map_eq_some_iff.1 h
  obtain ⟨callee, -, hsent⟩ := Option.bind_eq_some_iff.1 hpayload
  dsimp only at hsent
  split at hsent
  · obtain ⟨found, hcustom, hmade⟩ := Option.bind_eq_some_iff.1 hsent
    cases hmade
    exact canonical_custom? hcustom
  · simp only [bind, Option.bind_eq_some_iff] at hsent
    obtain ⟨provider, -, found, hfound, hmade⟩ := hsent
    cases hmade
    exact canonical_sent? hfound

end Ruby

/-! ## Go -/

namespace Go

variable {u : Unit} {value : Node → Schema} {signatures : List Signature} {path : Path}
  {root : Node} {arguments : List Node} {payload : Provider × String × Properties}

/-- The schema of a type is canonical. -/
theorem canonical_typeSchema (n : Node) : (typeSchema n).Canonical := by
  fun_induction typeSchema n
  all_goals first
    | exact .array canonical_any
    | exact .array (by assumption)
    | exact Properties.Canonical.nil
    | simp [*]

/-- The schema behind a pointer is canonical. -/
theorem canonical_pointerSchema (name : String) : (pointerSchema name).Canonical := by
  unfold pointerSchema
  repeat' split
  all_goals simp

/-- The fields of a literal are canonical if the schemas of its values are. -/
theorem canonical_fieldsOf (h : ∀ n, (value n).Canonical) (body : Node) :
    Properties.Canonical (fieldsOf value body) := by
  refine .ofEntries fun entry hentry => ?_
  obtain ⟨element, -, rfl⟩ := List.mem_map.1 hentry
  exact h element.2

/-- The elements of a literal are read within one step fewer than the literal. -/
theorem canonical_inner : {steps : Nat} →
    (∀ fewer < steps, ∀ n, (valueSchema u fewer n).Canonical) → ∀ n,
      ((match (motive := Nat → Node → Schema) steps with
        | 0 => fun _ => .any
        | fewer + 1 => valueSchema u fewer) n).Canonical
  | 0, _, _ => canonical_any
  | fewer + 1, h, n => h fewer (by omega) n

/-- Expressions have canonical schemas. The induction is a strong one, since the elements of a
literal are read within two steps fewer. -/
theorem canonical_valueSchema (u : Unit) (steps : Nat) (n : Node) :
    (valueSchema u steps n).Canonical := by
  induction steps using Nat.strongRecOn generalizing n with
  | ind steps ih =>
      rw [valueSchema.eq_def]
      cases steps with
      | zero => exact canonical_any
      | succ steps =>
          have hless (n : Node) : (valueSchema u steps n).Canonical := ih steps (by omega) n
          have hinner := @canonical_inner u steps fun fewer hfewer => ih fewer (by omega)
          dsimp only
          split
          case h_1 | h_2 => exact canonical_string
          case h_3 | h_4 | h_5 | h_6 => exact canonical_number
          case h_7 | h_8 => exact canonical_boolean
          case h_9 => exact canonical_null
          case h_10 => exact canonical_fieldsOf hless _
          case h_11 =>
            split
            · exact canonical_any
            next body _ =>
              split
              · split
                · exact canonical_getD_map (.array canonical_any) fun t _ => canonical_typeSchema t
                · refine .array (Canonical.arrayItems fun item hitem => ?_)
                  obtain ⟨element, -, rfl⟩ := List.mem_map.1 hitem
                  exact hinner element
              · exact canonical_fieldsOf hinner body
          case h_12 =>
            split
            · exact canonical_any
            · split
              · exact hless _
              · split
                · exact hless _
                · exact canonical_typeSchema _
              · exact canonical_typeSchema _
              · exact canonical_any
          case h_13 =>
            split
            · exact canonical_any
            · exact canonical_pointerSchema _
          case h_14 | h_15 => split <;> simp
          case h_16 => exact canonical_any

/-- What the earlier calls of a chain add is canonical. -/
theorem canonical_earlier {calls : Nat}
    (hcalls : ∀ call, Properties.Canonical (chainFields u calls call)) :
    (call? : Option Node) → Properties.Canonical
      (match call? with
        | none => []
        | some inner => chainFields u calls inner)
  | none => .nil
  | some inner => hcalls inner

/-- The fields of chained calls are canonical. -/
theorem canonical_chainFields (calls : Nat) (call : Node) :
    Properties.Canonical (chainFields u calls call) := by
  induction calls generalizing call with
  | zero => exact .nil
  | succ calls ih =>
      unfold chainFields
      split
      · exact .nil
      next function _ =>
        split
        · have hearlier := canonical_earlier ih
            ((function.child? "operand").filter (·.kind = "call_expression"))
          dsimp only
          split
          · split
            · exact hearlier
            · exact hearlier.insert (canonical_valueSchema u allSteps _)
          · exact hearlier
        · exact .nil

/-- The properties of an argument are canonical. -/
theorem canonical_propertiesOf (steps : Nat) (n : Node) :
    Properties.Canonical (propertiesOf u steps n) := by
  induction steps generalizing n with
  | zero => exact .nil
  | succ steps ih =>
      unfold propertiesOf
      dsimp only
      split
      · split
        · exact .nil
        · exact canonical_fieldsOf (canonical_valueSchema u steps) _
      · exact canonical_chainFields _ _
      · split
        · exact .nil
        · exact ih _
      · exact .nil

/-- The fields of a literal that is laid out for an event are canonical. -/
theorem canonical_layoutFields (layout : Layout) (fields : List (String × Node)) :
    Properties.Canonical (layoutFields u layout fields) := by
  refine List.foldlRecOn fields _ .nil fun found hfound field _ => ?_
  dsimp only
  split
  · exact hfound
  split
  · exact hfound.merge fun _ hmem => (canonical_propertiesOf allSteps _).of_mem hmem
  split
  · split
    · split
      · exact hfound
      · exact hfound.merge fun _ hmem =>
          (canonical_fieldsOf (canonical_valueSchema u allSteps) _).of_mem hmem
    · exact hfound
  · exact hfound.insert (canonical_valueSchema u allSteps _)

/-- The payload of a literal with a type has canonical properties. -/
theorem canonical_structured? {method : String} {literal type : Node}
    (h : structured? u method literal type = some payload) : payload.2.2.Canonical := by
  unfold structured? at h
  split at h
  · cases h
  · split at h
    · dsimp only at h
      split at h
      · cases h
      · split at h
        · cases h
        · cases h
          exact canonical_layoutFields _ _
    · cases h

/-- The properties that tell who a user is are canonical. -/
theorem canonical_identified (u : Unit) : (user? : Option Node) → Properties.Canonical
    (match user? with
      | none => []
      | some n => Named.insert [] "DistinctId" (valueSchema u allSteps n))
  | none => .nil
  | some n => Properties.Canonical.nil.insert (canonical_valueSchema u allSteps n)

/-- All payloads of a batch have canonical properties. -/
theorem canonical_of_mem_batch {literal type : Node} (h : payload ∈ batch u literal type) :
    payload.2.2.Canonical := by
  unfold batch at h
  split at h
  · split at h
    · cases h
    · obtain ⟨made, -, hmade⟩ := List.mem_filterMap.1 h
      split at hmade
      · dsimp only at hmade
        split at hmade
        · cases hmade
        · cases hmade
          -- the user comes first, and then the properties
          have hidentified := canonical_identified u (childrenIn made "arguments")[1]?
          dsimp only
          split
          · exact hidentified
          · exact hidentified.merge fun _ hmem => (canonical_propertiesOf allSteps _).of_mem hmem
      · cases hmade
  · cases h

/-- What stands in the places of the extra parameters is canonical. -/
theorem canonical_extras (u : Unit) (arguments : List Node) (extras : List ExtraParameter) :
    Properties.Canonical (extras.foldl (fun fields extra =>
      match arguments[extra.index]? with
      | none => fields
      | some n => Named.insert fields extra.name (valueSchema u allSteps n)) []) := by
  refine List.foldlRecOn extras _ .nil fun fields hfields extra _ => ?_
  split
  · exact hfields
  · exact hfields.insert (canonical_valueSchema u allSteps _)

/-- The payload of a signature has canonical properties. -/
theorem canonical_custom? {s : Signature} (h : custom? u s arguments = some payload) :
    payload.2.2.Canonical := by
  unfold custom? at h
  split at h
  · cases h
  · cases h
    dsimp only
    have hextras := canonical_extras u arguments s.extraParameters
    split
    · exact hextras
    · exact hextras.merge fun _ hmem => (canonical_propertiesOf allSteps _).of_mem hmem

/-- The properties of every event of a Go file are canonical. -/
theorem canonical_of_mem_events {e : Event} (he : e ∈ events signatures path root) :
    e.properties.Canonical := by
  obtain ⟨call, -, h⟩ := List.mem_flatMap.1 he
  obtain ⟨payload, hpayload, rfl⟩ := List.mem_map.1 h
  unfold payloads at hpayload
  split at hpayload
  · cases hpayload
  · dsimp only at hpayload
    split at hpayload
    · exact canonical_custom? (Option.mem_toList.1 hpayload)
    · obtain ⟨argument, -, hsent⟩ := List.mem_flatMap.1 hpayload
      split at hsent
      · split at hsent
        · cases hsent
        · split at hsent
          · exact canonical_of_mem_batch hsent
          · exact canonical_structured? (Option.mem_toList.1 hsent)
      · cases hsent

end Go

/-! ## All languages -/

/-- The properties of every event of a file alone are canonical. -/
theorem Analysis.canonical_of_mem_eventsAlone {language : Language} {signatures : List Signature}
    {path : Path} {source : Source} {e : Event}
    (he : e ∈ eventsAlone language signatures path source) : e.properties.Canonical := by
  cases language with
  | javaScript => exact Script.canonical_of_mem_events he
  | typeScript => exact Script.canonical_of_mem_events he
  | python => exact Python.canonical_of_mem_events he
  | ruby => exact Ruby.canonical_of_mem_events he
  | go => exact Go.canonical_of_mem_events he

/-- The properties of every event of a file are canonical, whatever is known of the other files. -/
theorem Scan.canonical_of_mem_events {fs : FileSystem} {around : Surroundings}
    {project? : Option Project} {language : Language} {file : Path} {source : Source} {e : Event}
    (he : e ∈ events fs around project? language file source) : e.properties.Canonical := by
  unfold events at he
  split at he
  · exact Script.canonical_of_mem_events he
  · exact Ruby.canonical_of_mem_events he
  · exact Analysis.canonical_of_mem_eventsAlone he

end TrackingPlan
