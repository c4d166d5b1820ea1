import TrackingPlan.Grammar.Go
import TrackingPlan.Proofs.LiteralSpellings

/-!
# The keys of Go literals

In a literal of a struct a name in front of a colon is that of a field, in a literal of a map it is
a variable whose text is the key. Both are read alike, for `spelling?` does not ask what the literal
is of: a name is the key itself. So `literal_keys` says which names the properties have, in literals
that are given as they are, through variables or inside others, and that they come from texts just
where no key is a name, or where what the names spell is a key anyway. `name_of_variable_as_key` is
a map where it is not.
-/

namespace TrackingPlan

namespace Schema

variable {name : String} {s : Schema} {members : List Schema} {fields : Properties}

/-- An object in the schema has a field of this name. -/
inductive HasField (name : String) : Schema → Prop where
  | own {fields : Properties} (h : name ∈ Named.keys fields) : HasField name (.object fields)
  | inField {fields : Properties} {field : String × Schema} (hfield : field ∈ fields)
      (h : HasField name field.2) : HasField name (.object fields)
  | inItems {items : Schema} (h : HasField name items) : HasField name (.array items)

/-- No plain schema has a field. -/
theorem not_hasField_primitive {type : Primitive} : ¬HasField name (.primitive type) := nofun

/-- An array has the fields of its items. -/
theorem hasField_array_iff : HasField name (.array s) ↔ HasField name s :=
  ⟨fun h => by cases h; assumption, .inItems⟩

/-- An object has the fields that it names and those of their schemas. -/
theorem hasField_object_iff : HasField name (.object fields) ↔
    ∃ field ∈ fields, field.1 = name ∨ HasField name field.2 := by
  constructor
  · intro h
    cases h with
    | own hkey =>
        obtain ⟨field, hfield, rfl⟩ := List.mem_map.1 hkey
        exact ⟨field, hfield, .inl rfl⟩
    | inField hfield h => exact ⟨_, hfield, .inr h⟩
  · rintro ⟨field, hfield, rfl | h⟩
    · exact .own (List.mem_map_of_mem hfield)
    · exact .inField hfield h

/-- Merged fields come from the objects among the elements. -/
theorem exists_of_mem_fieldsOf {field : String × Schema} (h : field ∈ fieldsOf members) :
    ∃ fields, .object fields ∈ members ∧ field ∈ fields := by
  have hsource :
      ∀ field ∈ fieldsOf members, ∃ fields, .object fields ∈ members ∧ field ∈ fields := by
    refine List.foldlRecOn (motive := fun (table : Properties) =>
      ∀ field ∈ table, ∃ fields, .object fields ∈ members ∧ field ∈ fields) members _
        (List.forall_mem_nil _) ?_
    intro table htable s hs field hfield
    split at hfield
    next fields =>
      rcases Named.mem_of_mem_merge hfield with hold | hnew
      · exact htable field hold
      · exact ⟨fields, hs, hnew⟩
    next => exact htable field hfield
  exact hsource field h

/-- A field of the items is one of some element. -/
theorem HasField.exists_of_arrayItems (h : HasField name (arrayItems members)) :
    ∃ s ∈ members, HasField name s := by
  unfold arrayItems at h
  split at h
  next => exact absurd h not_hasField_primitive
  next first rest =>
    split at h
    · exact ⟨first, List.mem_cons_self, h⟩
    · split at h
      · obtain ⟨field, hfield, hname⟩ := hasField_object_iff.1 h
        obtain ⟨fields, hmember, hfield⟩ := exists_of_mem_fieldsOf hfield
        exact ⟨_, hmember, hasField_object_iff.2 ⟨field, hfield, hname⟩⟩
      · exact absurd h not_hasField_primitive

end Schema

namespace Go

open Schema (HasField)

variable {u : Unit} {n literal body key value : Node} {name : String} {steps hops : Nat}
  {schema : Node → Schema}

/-! ## Keys -/

/-- `pairs body` lists the keys and the values of the elements of a literal that have a key. -/
def pairs (body : Node) : List (Node × Node) :=
  (body.namedChildren.filter (·.kind = "keyed_element")).filterMap fun entry =>
    match entry.namedChildren.head?, entry.namedChildren.getLast? with
    | some key, some value => some (element key, element value)
    | _, _ => none

/-- `isName key` holds of keys that are names. -/
def isName (key : Node) : Bool := key.kind = "identifier" || key.kind = "field_identifier"

/-- `spelling? key` is what is written as a key: a name, or a text without its quotes. -/
def spelling? (key : Node) : Option String := if isName key then some key.text else literal? key

/-- A key of the literal is written like this. -/
def IsSpelled (body : Node) (name : String) : Prop :=
  ∃ pair ∈ pairs body, spelling? pair.1 = some name

/-- A key of the literal has this text: it is a literal text, or a name that leads to one. -/
def IsTextKey (u : Unit) (body : Node) (name : String) : Prop :=
  ∃ pair ∈ pairs body, eventName? u allSteps pair.1 = some name

instance (u : Unit) (body : Node) (name : String) : Decidable (IsTextKey u body name) :=
  inferInstanceAs (Decidable (∃ pair ∈ pairs body, eventName? u allSteps pair.1 = some name))

/-- The entries are the pairs whose key is spelled. -/
theorem entries_eq_filterMap (body : Node) :
    entries body = (pairs body).filterMap fun (key, value) => (spelling? key).map (·, value) := by
  rw [entries, pairs, List.filterMap_filterMap]
  refine List.filterMap_congr fun entry _ => ?_
  cases entry.namedChildren.head? <;> cases entry.namedChildren.getLast? <;> rfl

/-- A name has a value if a key that spells the name has it. -/
theorem mem_entries_iff :
    (name, value) ∈ entries body ↔ ∃ key, (key, value) ∈ pairs body ∧
    spelling? key = some name := by
  simp [entries_eq_filterMap]

/-- Whatever the values are, the names are the keys as they are written. -/
theorem mem_keys_fieldsOf_iff : name ∈ Named.keys (fieldsOf schema body) ↔ IsSpelled body name := by
  rw [fieldsOf, Named.mem_keys_ofEntries, Named.mem_keys_iff]
  simp only [List.mem_map, Prod.mk.injEq, IsSpelled]
  constructor
  · rintro ⟨_, ⟨_, value⟩, hentry, rfl, rfl⟩
    obtain ⟨key, hpair, hspelling⟩ := mem_entries_iff.1 hentry
    exact ⟨(key, value), hpair, hspelling⟩
  · rintro ⟨⟨key, value⟩, hpair, hspelling⟩
    exact ⟨schema value, (name, value), mem_entries_iff.2 ⟨key, hpair, hspelling⟩, rfl, rfl⟩

/-- A literal names the event that it spells. -/
theorem eventName?_of_literal? (h : literal? key = some name) :
    eventName? u (steps + 1) key = some name := by
  have hkind : key.kind = "interpreted_string_literal" ∨ key.kind = "raw_string_literal" := by
    unfold literal? at h
    split at h
    next hkind => simpa using hkind
    next => cases h
  have hself : element (unwrap key) = key := by
    rcases hkind with hkind | hkind <;> exact element_unwrap_of_kind hkind (by decide)
  rw [eventName?, hself, h]

/-- The keys of a literal are texts just if those that are names spell a key that is a text. -/
theorem forall_isTextKey_iff : (∀ name, IsSpelled body name → IsTextKey u body name) ↔
    ∀ pair ∈ pairs body, isName pair.1 = true → IsTextKey u body pair.1.text := by
  constructor
  · exact fun h pair hpair hname => h pair.1.text ⟨pair, hpair, if_pos hname⟩
  · rintro h name ⟨pair, hpair, hspelling⟩
    unfold spelling? at hspelling
    split at hspelling
    next hname =>
      obtain rfl := Option.some.inj hspelling
      exact h pair hpair hname
    next => exact ⟨pair, hpair, eventName?_of_literal? hspelling⟩

/-- The fields are named by the keys of the literal, which are texts only as far as names spell
texts. -/
structure HasKeysOf (u : Unit) (body : Node) (fields : Properties) : Prop where
  mem_keys_iff : ∀ name, name ∈ Named.keys fields ↔ IsSpelled body name
  forall_isTextKey_iff : (∀ name ∈ Named.keys fields, IsTextKey u body name) ↔
    ∀ pair ∈ pairs body, isName pair.1 = true → IsTextKey u body pair.1.text

/-- The fields of a literal are named by its keys. -/
theorem hasKeysOf_fieldsOf (u : Unit) (body : Node) (schema : Node → Schema) :
    HasKeysOf u body (fieldsOf schema body) where
  mem_keys_iff _ := mem_keys_fieldsOf_iff
  forall_isTextKey_iff := by
    rw [← forall_isTextKey_iff]
    exact forall_congr' fun _ => imp_congr_left mem_keys_fieldsOf_iff

/-! ## Literals that give the properties -/

/-- The expression is the literal, or a variable that leads to it in so many steps. -/
inductive LeadsTo (u : Unit) (literal : Node) : Node → Nat → Prop where
  | here {n : Node} (hself : element (unwrap n) = literal)
      (hkind : literal.kind = "composite_literal") :
      LeadsTo u literal n 0
  | named {n name value : Node} {hops : Nat} (hself : element (unwrap n) = name)
      (hkind : name.kind = "identifier")
      (hvalue : (u.lookup? name.text name).bind (·.value) = some value)
      (h : LeadsTo u literal value hops) : LeadsTo u literal n (hops + 1)

/-- The properties are those of the literal, if it is near enough. -/
theorem LeadsTo.propertiesOf_eq (h : LeadsTo u literal n hops)
    (hbody : literal.child? "body" = some body)
    (steps : Nat) : propertiesOf u steps n =
      if hops < steps then fieldsOf (valueSchema u (steps - hops - 1)) body else [] := by
  induction h generalizing steps with
  | here hself hkind =>
      cases steps with
      | zero => rfl
      | succ steps => simp [propertiesOf, hself, hkind, hbody]
  | @named n name value hops hself hkind hvalue h ih =>
      cases steps with
      | zero => rfl
      | succ steps =>
          have hless : steps + 1 - (hops + 1) - 1 = steps - hops - 1 := by omega
          rw [propertiesOf]
          simp only [hself, hkind, hvalue, ih, hless, Nat.add_lt_add_iff_right]

/-! ## Literals inside others -/

/-- `isSequence type` holds of the types of slices and arrays. -/
def isSequence (type : Option Node) : Bool :=
  type.any fun t =>
    t.kind = "slice_type" || t.kind = "array_type" || t.kind = "implicit_length_array_type"

/-- The expression is a literal with this body: without a type of its own, or of any type but a
slice or an array. -/
inductive HasBody (n body : Node) : Prop where
  | elided (hself : element (unwrap n) = body) (hkind : body.kind = "literal_value")
  | typed {literal : Node} (hself : element (unwrap n) = literal)
      (hkind : literal.kind = "composite_literal")
      (htype : isSequence (literal.child? "type") = false)
      (hbody : literal.child? "body" = some body)

/-- The schema of the expression is made from the elements with a key in this body: of a literal
that the expression is, or of one that is met in it or through a variable. -/
inductive Reads (u : Unit) : Node → Node → Prop where
  | here {n body : Node} (h : HasBody n body) : Reads u n body
  | item {n literal items item body : Node} (hself : element (unwrap n) = literal)
      (hkind : literal.kind = "composite_literal")
      (htype : isSequence (literal.child? "type") = true)
      (hitems : literal.child? "body" = some items) (hitem : item ∈ items.namedChildren)
      (h : Reads u item body) : Reads u n body
  | value {n outer value body : Node} {name : String} (houter : Reads u n outer)
      (hentry : (name, value) ∈ entries outer) (h : Reads u value body) : Reads u n body
  | named {n name value body : Node} (hself : element (unwrap n) = name)
      (hkind : name.kind = "identifier")
      (hvalue : (u.lookup? name.text name).bind (·.value) = some value) (h : Reads u value body) :
      Reads u n body

/-- With its type or without, a literal gives an object with the fields of its body. -/
theorem HasBody.valueSchema_eq (h : HasBody n body) (u : Unit) (steps : Nat) :
    ∃ schema, valueSchema u (steps + 1) n = .object (fieldsOf schema body) := by
  rw [valueSchema.eq_def]
  cases h with
  | elided hself hkind =>
      simp only [hself, hkind]
      exact ⟨_, rfl⟩
  | typed hself hkind htype hbody =>
      rw [isSequence] at htype
      simp only [hself, hkind, hbody, htype]
      exact ⟨_, rfl⟩

/-- The schema of a type has no fields. -/
theorem not_hasField_typeSchema (n : Node) : ¬HasField name (typeSchema n) := by
  fun_induction typeSchema n
  all_goals first
    | assumption
    | exact Schema.not_hasField_primitive
    | exact fun h => Schema.not_hasField_primitive (Schema.hasField_array_iff.1 h)
    | exact fun h => absurd (Schema.hasField_array_iff.1 h) (by assumption)
    | simp [Schema.hasField_object_iff]

/-- The schema behind a pointer has no fields. -/
theorem not_hasField_pointerSchema (function : String) :
    ¬HasField name (pointerSchema function) := by
  unfold pointerSchema
  repeat' split
  all_goals exact Schema.not_hasField_primitive

/-- A field of a literal is one of its keys, or stands in the value of one. -/
theorem hasField_fieldsOf (h : HasField name (.object (fieldsOf schema body))) :
    IsSpelled body name ∨ ∃ key value, (key, value) ∈ entries body ∧
    HasField name (schema value) := by
  obtain ⟨field, hfield, rfl | hname⟩ := Schema.hasField_object_iff.1 h
  · exact .inl (mem_keys_fieldsOf_iff.1 (List.mem_map_of_mem hfield))
  · obtain ⟨⟨key, value⟩, hentry, rfl⟩ := List.mem_map.1 (Named.mem_of_mem_ofEntries hfield)
    exact .inr ⟨key, value, hentry, hname⟩

/-- What the fields of a read body come from, if those of its values come from bodies that are
read. -/
theorem exists_reads_of_fieldsOf (hbody : Reads u n body)
    (h : ∀ value, HasField name (schema value) → ∃ inner, Reads u value inner ∧
      IsSpelled inner name)
    (hname : HasField name (.object (fieldsOf schema body))) :
    ∃ inner, Reads u n inner ∧ IsSpelled inner name := by
  rcases hasField_fieldsOf hname with hspelled | ⟨key, value, hentry, hvalue⟩
  · exact ⟨body, hbody, hspelled⟩
  · obtain ⟨inner, hinner, hspelled⟩ := h value hvalue
    exact ⟨inner, .value hbody hentry hinner, hspelled⟩

/-- The elements of a literal are read within one step fewer than the literal. -/
theorem exists_reads_inner : {steps : Nat} →
    (∀ fewer < steps, ∀ n, HasField name (valueSchema u fewer n) →
      ∃ body, Reads u n body ∧ IsSpelled body name) →
    ∀ n, HasField name ((match (motive := Nat → Node → Schema) steps with
      | 0 => fun _ => .any
      | fewer + 1 => valueSchema u fewer) n) → ∃ body, Reads u n body ∧ IsSpelled body name
  | 0, _, _, hname => absurd hname Schema.not_hasField_primitive
  | fewer + 1, h, n, hname => h fewer (by omega) n hname

/-- A field in the schema of a slice or an array is one of an item, for the types have none. -/
theorem exists_item_of_hasField {type : Option Node} {items : List Node}
    (h : HasField name (match items with
      | [] => (type.map typeSchema).getD (.array .any)
      | items =>
          .array (Schema.arrayItems (items.map schema)))) :
            ∃ item ∈ items, HasField name (schema item) := by
  split at h
  · cases type with
    | none => exact absurd (Schema.hasField_array_iff.1 h) Schema.not_hasField_primitive
    | some t => exact absurd h (not_hasField_typeSchema t)
  · obtain ⟨s, hs, hname⟩ := (Schema.hasField_array_iff.1 h).exists_of_arrayItems
    obtain ⟨item, hitem, rfl⟩ := List.mem_map.1 hs
    exact ⟨item, hitem, hname⟩

/-- A field in the schema of a name is one of its value. -/
theorem exists_value_of_hasField {b : Binding}
    (h : HasField name (match b.value, b.type with
      | some value, none => schema value
      | some value, some type =>
          if value.kind.endsWith "_literal" then schema value else typeSchema type
      | none, some type => typeSchema type
      | none, none => .any)) : ∃ value, b.value = some value ∧ HasField name (schema value) := by
  split at h
  next value hvalue _ => exact ⟨value, hvalue, h⟩
  next value type hvalue _ =>
    split at h
    · exact ⟨value, hvalue, h⟩
    · exact absurd h (not_hasField_typeSchema type)
  next type _ _ => exact absurd h (not_hasField_typeSchema type)
  next => exact absurd h Schema.not_hasField_primitive

/-- However deep a field is in the schema of an expression, its name is a key of a literal that is
read. The induction is a strong one, since the elements of a literal with a type are read within two
steps fewer. -/
theorem exists_reads_of_hasField (u : Unit) (steps : Nat) (n : Node)
    (h : HasField name (valueSchema u steps n)) :
    ∃ body, Reads u n body ∧ IsSpelled body name := by
  induction steps using Nat.strongRecOn generalizing n with
  | ind steps ih =>
      rw [valueSchema.eq_def] at h
      cases steps with
      | zero => exact absurd h Schema.not_hasField_primitive
      | succ steps =>
          have hless : ∀ n, HasField name (valueSchema u steps n) →
              ∃ body, Reads u n body ∧ IsSpelled body name :=
            ih steps (by omega)
          have hinner := @exists_reads_inner u name steps fun fewer hfewer => ih fewer (by omega)
          dsimp only at h
          split at h
          case h_10 hkind => exact exists_reads_of_fieldsOf (.here (.elided rfl hkind)) hless h
          case h_11 hkind =>
            split at h
            next => exact absurd h Schema.not_hasField_primitive
            next body hbody =>
              split at h
              next htype =>
                obtain ⟨item, hitem, hname⟩ := exists_item_of_hasField h
                obtain ⟨inner, hreads, hspelled⟩ := hinner item hname
                exact ⟨inner, .item rfl hkind htype hbody hitem hreads, hspelled⟩
              next htype =>
                have hhas : HasBody n body := .typed rfl hkind (Bool.eq_false_iff.2 htype) hbody
                exact exists_reads_of_fieldsOf (.here hhas) hinner h
          case h_12 hkind =>
            split at h
            next => exact absurd h Schema.not_hasField_primitive
            next b hb =>
              obtain ⟨value, hvalue, hname⟩ := exists_value_of_hasField h
              obtain ⟨inner, hreads, hspelled⟩ := hless value hname
              exact ⟨inner, .named rfl hkind (by rw [hb]; exact hvalue) hreads, hspelled⟩
          case h_13 =>
            split at h
            · exact absurd h Schema.not_hasField_primitive
            · exact absurd h (not_hasField_pointerSchema _)
          case h_14 | h_15 => split at h <;> exact absurd h Schema.not_hasField_primitive
          all_goals exact absurd h Schema.not_hasField_primitive

/-! ## The names of properties -/

/-- The body is that of the literal, or is read in one of its values. -/
def IsReadIn (u : Unit) (body inner : Node) : Prop :=
  inner = body ∨ ∃ entry ∈ entries body, Reads u entry.2 inner

/-- The names of the properties in a literal are its keys as they are written, whatever it is a
literal of, and the same holds of each literal inside. So they come from texts just if every key
that is a name spells a key that is a text. Names at any depth are keys of some literal that is
read, and literal texts if no key there is a name. -/
theorem literal_keys (h : LeadsTo u literal n hops) (hbody : literal.child? "body" = some body) :
    let fields := propertiesOf u allSteps n
    (hops ≤ maxSteps → HasKeysOf u body fields) ∧ (maxSteps < hops → fields = []) ∧
    (∀ value inner steps, HasBody value inner →
      ∃ nested, valueSchema u (steps + 1) value = .object nested ∧ HasKeysOf u inner nested) ∧
    (∀ name, HasField name (.object fields) → ∃ inner, IsReadIn u body inner ∧
      IsSpelled inner name) ∧
    ((∀ inner, IsReadIn u body inner → ∀ pair ∈ pairs inner, isName pair.1 = false) →
      ∀ name, HasField name (.object fields) →
        ∃ inner, IsReadIn u body inner ∧ ∃ pair ∈ pairs inner, literal? pair.1 = some name) := by
  intro fields
  have hfields : fields = if hops < allSteps
      then fieldsOf (valueSchema u (allSteps - hops - 1)) body else [] :=
    h.propertiesOf_eq hbody allSteps
  have hspelled : ∀ name, HasField name (.object fields) →
      ∃ inner, IsReadIn u body inner ∧ IsSpelled inner name := by
    intro name hname
    rw [hfields] at hname
    split at hname
    · rcases hasField_fieldsOf hname with hspelled | ⟨key, value, hentry, hvalue⟩
      · exact ⟨body, .inl rfl, hspelled⟩
      · obtain ⟨inner, hreads, hspelled⟩ := exists_reads_of_hasField u _ value hvalue
        exact ⟨inner, .inr ⟨_, hentry, hreads⟩, hspelled⟩
    · simp [Schema.hasField_object_iff] at hname
  refine ⟨fun hnear => ?_, fun hfar => ?_, fun value inner steps hinner => ?_, hspelled,
    fun hnames name hname => ?_⟩
  · have hless : hops < allSteps := Nat.lt_succ_of_le hnear
    rw [hfields, if_pos hless]
    exact hasKeysOf_fieldsOf u body _
  · have hmore : ¬hops < allSteps := Nat.not_lt.2 hfar
    rw [hfields, if_neg hmore]
  · obtain ⟨schema, hschema⟩ := hinner.valueSchema_eq u steps
    exact ⟨_, hschema, hasKeysOf_fieldsOf u inner schema⟩
  · obtain ⟨inner, hinner, pair, hpair, hspelling⟩ := hspelled name hname
    rw [spelling?, hnames inner hinner pair hpair, if_neg Bool.false_ne_true] at hspelling
    exact ⟨inner, hinner, pair, hpair, hspelling⟩

/-! ## A variable as a key -/

/-- `literalOf? u steps n` is the literal that `n` leads to, with the number of variables on the
way. -/
def literalOf? (u : Unit) : (steps : Nat) → Node → Option (Node × Nat)
  | 0, _ => none
  | steps + 1, n =>
    let n := element (unwrap n)
    if n.kind = "composite_literal" then some (n, 0)
    else if n.kind = "identifier" then
      (((u.lookup? n.text n).bind (·.value)).bind (literalOf? u steps)).map fun (literal, hops) =>
        (literal, hops + 1)
    else none

/-- The literal that is found is one that the expression leads to. -/
theorem leadsTo_of_literalOf? (h : literalOf? u steps n = some (literal, hops)) :
    LeadsTo u literal n hops := by
  induction steps generalizing n literal hops with
  | zero => cases h
  | succ steps ih =>
      rw [literalOf?] at h
      dsimp only at h
      split at h
      next hkind =>
        obtain ⟨rfl, rfl⟩ := Prod.mk.inj (Option.some.inj h)
        exact .here rfl hkind
      next =>
        split at h
        next hkind =>
          obtain ⟨⟨found, before⟩, hfound, heq⟩ := Option.map_eq_some_iff.1 h
          obtain ⟨value, hvalue, hfound⟩ := Option.bind_eq_some_iff.1 hfound
          obtain ⟨rfl, rfl⟩ := Prod.mk.inj heq
          exact .named rfl hkind hvalue (ih hfound)
        next => cases h

/-- `sentLiteral? root` is the last argument of the first call, with the literal that it leads to,
the body of that, and the number of variables on the way. -/
def sentLiteral? (root : Node) : Option (Node × Node × Node × Nat) := do
  let call ← (calls root).head?
  let n ← (childrenIn call.node "arguments").getLast?
  let (literal, hops) ← literalOf? (.ofTree root) allSteps n
  let body ← literal.child? "body"
  pure (n, literal, body, hops)

/-- The literal of the first call is one that its argument leads to. -/
theorem leadsTo_of_sentLiteral? {root : Node}
    (h : sentLiteral? root = some (n, literal, body, hops)) :
    LeadsTo (.ofTree root) literal n hops ∧ literal.child? "body" = some body := by
  simp only [sentLiteral?, bind, pure, Option.bind_eq_some_iff] at h
  obtain ⟨call, -, n', -, ⟨literal', hops'⟩, hliteral, body', hbody, h⟩ := h
  obtain ⟨rfl, rfl, rfl, rfl⟩ : n' = n ∧ literal' = literal ∧ body' = body ∧ hops' = hops := by
    simpa using h
  exact ⟨leadsTo_of_literalOf? hliteral, hbody⟩

/-- A file that sends a map in a map, which a variable holds. -/
def heldMap : Node :=
  read (Source.ofString
    ("func f() \x7b\n\tm := map[string]any\x7b\"plan\": map[string]any\x7b\"tier\": 1\x7d\x7d\n" ++
      "\ttrack(\"Signup\", m)\n\x7d\n"))

/-- All its keys are literal texts. -/
theorem literal_keys_of_held :
    let u := Unit.ofTree heldMap
    ∃ n literal body, LeadsTo u literal n 1 ∧ literal.child? "body" = some body ∧
      (∀ name, name ∈ Named.keys (propertiesOf u allSteps n) ↔ IsSpelled body name) ∧
      (∀ name ∈ Named.keys (propertiesOf u allSteps n), IsTextKey u body name) ∧
      propertiesOf u allSteps n = [("plan", .object [("tier", .number)])] := by
  intro u
  have hview : (sentLiteral? heldMap).map (fun (n, _, body, hops) =>
      (hops, (pairs body).any (fun pair => isName pair.1), propertiesOf u allSteps n)) =
      some (1, false, [("plan", .object [("tier", .number)])]) := by decide +kernel
  obtain ⟨⟨n, literal, body, hops⟩, hsent, h⟩ := Option.map_eq_some_iff.1 hview
  simp only [Prod.mk.injEq] at h
  obtain ⟨rfl, hnames, hproperties⟩ := h
  obtain ⟨hleads, hbody⟩ := leadsTo_of_sentLiteral? hsent
  obtain ⟨hkeys, -⟩ := literal_keys hleads hbody
  have hkeys := hkeys (by decide)
  refine ⟨n, literal, body, hleads, hbody, hkeys.mem_keys_iff, hkeys.forall_isTextKey_iff.2 ?_,
    hproperties⟩
  intro pair hpair hname
  exact absurd hname (List.any_eq_false.1 hnames pair hpair)

/-- A file that sends a map whose key is a parameter. -/
def variableKey : Node :=
  read (Source.ofString
    "func f(key string) \x7b\n\ttrack(\"Signup\", map[string]any\x7bkey: 1\x7d)\n\x7d\n")

/-- Nothing is known of the text of the parameter, and its name becomes that of a property. -/
theorem name_of_variable_as_key :
    let u := Unit.ofTree variableKey
    (∃ n literal body, LeadsTo u literal n 0 ∧ (literal.child? "type").map (·.kind) =
      some "map_type" ∧ literal.child? "body" = some body ∧
      (∀ pair ∈ pairs body, pair.1.kind = "identifier" ∧ eventName? u allSteps pair.1 = none) ∧
      "key" ∈ Named.keys (propertiesOf u allSteps n) ∧ ¬IsTextKey u body "key") ∧
    (events [⟨"track", ["track"], 0, 1, []⟩] ⟨"a.go"⟩ variableKey).map (·.properties) =
      [[("key", .number)]] := by
  intro u
  have hview : (sentLiteral? variableKey).map (fun (n, literal, body, hops) =>
        (hops, (literal.child? "type").map (·.kind), decide (∀ pair ∈ pairs body,
          pair.1.kind = "identifier" ∧ eventName? u allSteps pair.1 = none),
          decide ("key" ∈ Named.keys (propertiesOf u allSteps n)),
            decide (IsTextKey u body "key"))) =
        some (0, some "map_type", true, true, false) ∧
      (events [⟨"track", ["track"], 0, 1, []⟩] ⟨"a.go"⟩ variableKey).map (·.properties) =
        [[("key", .number)]] := by decide +kernel
  obtain ⟨hview, hevents⟩ := hview
  obtain ⟨⟨n, literal, body, hops⟩, hsent, h⟩ := Option.map_eq_some_iff.1 hview
  simp only [Prod.mk.injEq, decide_eq_true_eq, decide_eq_false_iff_not] at h
  obtain ⟨rfl, htype, hpairs, hkey, htext⟩ := h
  obtain ⟨hleads, hbody⟩ := leadsTo_of_sentLiteral? hsent
  exact ⟨⟨n, literal, body, hleads, htype, hbody, hpairs, hkey, htext⟩, hevents⟩

end Go

end TrackingPlan
