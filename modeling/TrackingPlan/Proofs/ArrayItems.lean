import TrackingPlan.Proofs.Alternatives

/-!
# Items of arrays

The items of an array without objects depend only on the set of its elements (`arrayItems_congr`): a
single one stands for itself, several become a label of their type labels in order. With objects
among the elements, only these count (`arrayItems_of_object`), and of the fields that they share the
last one is kept (`find?_fieldsOf_eq_some_iff`). `items_of_elements` puts the two cases together.
-/

namespace TrackingPlan.Schema

variable {elements others : List Schema} {fields own : Properties} {labels more : List String}
  {one s t : Schema}
  {key : String}

/-! ## Elements without fields -/

/-- The texts are the type labels of the elements, in order. -/
structure IsLabels (elements : List Schema) (labels : List String) : Prop where
  increasing : labels.Pairwise (· < ·)
  mem_iff : ∀ label, label ∈ labels ↔ ∃ s ∈ elements, s.typeLabel = label

/-- The labels of the elements, put in one by one, are the sorted labels without repetitions. -/
theorem isLabels_foldl_insertLabel (elements : List Schema) :
    IsLabels elements ((elements.map typeLabel).foldl insertLabel []) where
  increasing := pairwise_foldl_insertLabel _
  mem_iff label := by rw [mem_foldl_insertLabel, List.mem_map]

/-- The labels depend on the set of the elements only. -/
theorem IsLabels.eq (h : IsLabels elements labels) (hmore : IsLabels others more)
    (hmem : ∀ s, s ∈ others ↔ s ∈ elements) : labels = more := by
  have : Std.Irrefl fun a b : String => a < b := ⟨String.lt_irrefl⟩
  have : Std.Antisymm fun a b : String => a < b :=
    ⟨fun a b hab hba => absurd hba (String.lt_asymm hab)⟩
  refine List.Pairwise.eq_of_mem_iff h.increasing hmore.increasing fun label => ?_
  simp only [h.mem_iff, hmore.mem_iff, hmem]

/-- Elements that are all alike have the items that each of them is. -/
theorem arrayItems_of_all_eq (hne : elements ≠ []) (h : ∀ s ∈ elements, s = one) :
    arrayItems elements = one := by
  obtain ⟨first, rest, rfl⟩ := List.exists_cons_of_ne_nil hne
  obtain ⟨rfl, hrest⟩ := List.forall_mem_cons.1 h
  rw [arrayItems, if_pos (by simpa using hrest)]

/-- Elements of which two differ have no common schema. -/
theorem not_all_eq_of_ne {first : Schema} {rest : List Schema} (hs : s ∈ first :: rest)
    (ht : t ∈ first :: rest) (hne : s ≠ t) : ¬rest.all (· = first) = true := by
  intro hall
  have hfirst : ∀ u ∈ first :: rest, u = first := by simpa using hall
  exact hne ((hfirst s hs).trans (hfirst t ht).symm)

/-- Elements that differ, and of which none is an object, have the label that joins theirs. -/
theorem arrayItems_of_ne (h : ∀ u ∈ elements, u.isObject = false) (hs : s ∈ elements)
    (ht : t ∈ elements) (hne : s ≠ t) :
    arrayItems elements =
      label (" | ".intercalate ((elements.map typeLabel).foldl insertLabel [])) := by
  obtain ⟨first, rest, rfl⟩ := List.exists_cons_of_ne_nil (List.ne_nil_of_mem hs)
  have hobject : ¬(first :: rest).any isObject = true := by simpa using h
  rw [arrayItems, if_neg (not_all_eq_of_ne hs ht hne), if_neg hobject]

/-- Without objects, neither the order of the elements nor their number matters. -/
theorem arrayItems_congr (h : ∀ u ∈ elements, u.isObject = false)
    (hmem : ∀ u, u ∈ others ↔ u ∈ elements) :
    arrayItems others = arrayItems elements := by
  by_cases hdiffer : ∃ s ∈ elements, ∃ t ∈ elements, s ≠ t
  · obtain ⟨s, hs, t, ht, hne⟩ := hdiffer
    have hothers : ∀ u ∈ others, u.isObject = false := fun u hu => h u ((hmem u).1 hu)
    have hlabels :=
      (isLabels_foldl_insertLabel elements).eq (isLabels_foldl_insertLabel others) hmem
    rw [arrayItems_of_ne h hs ht hne, arrayItems_of_ne hothers ((hmem s).2 hs) ((hmem t).2 ht) hne,
      hlabels]
  · simp only [not_exists, not_and, not_not] at hdiffer
    cases elements with
    | nil =>
        obtain rfl : others = [] := List.eq_nil_iff_forall_not_mem.2 fun u hu =>
          nomatch (hmem u).1 hu
        rfl
    | cons first rest =>
        have hfirst : first ∈ others := (hmem first).2 List.mem_cons_self
        rw [arrayItems_of_all_eq (List.cons_ne_nil _ _) fun u hu =>
          hdiffer u hu first List.mem_cons_self, arrayItems_of_all_eq (List.ne_nil_of_mem hfirst)
            fun u hu => hdiffer u ((hmem u).1 hu) first List.mem_cons_self]

/-! ## Objects among the elements -/

/-- `fieldOf? key s` is the field `key` of `s`, if that is an object. -/
def fieldOf? (key : String) : Schema → Option Schema
  | .object fields => Named.find? fields key
  | _ => none

/-- The fields of every object among the elements are in name order, as in all tables of
properties. -/
def FieldsOrdered (elements : List Schema) : Prop :=
  ∀ fields, .object fields ∈ elements → Named.Ordered fields

/-- The fields of all elements are in order. -/
theorem ordered_fieldsOf (elements : List Schema) : Named.Ordered (fieldsOf elements) := by
  refine List.foldlRecOn (motive :=
    fun table : Properties => table.Ordered) elements _ Named.ordered_nil ?_
  intro table htable s _
  split
  · exact htable.merge _
  · exact htable

/-- A field that the objects among the elements share is that of the last of them. -/
theorem find?_fieldsOf (h : FieldsOrdered elements) (key : String) :
    Named.find? (fieldsOf elements) key = elements.reverse.findSome? (fieldOf? key) := by
  induction elements using List.reverseRecOn with
  | nil => rfl
  | append_singleton elements last ih =>
      have hbefore := ih fun fields hfields => h fields (List.mem_append_left _ hfields)
      rw [List.reverse_append, List.reverse_singleton, List.singleton_append,
        List.findSome?_cons, ← hbefore,
        fieldsOf, List.foldl_append, List.foldl_cons, List.foldl_nil, ← fieldsOf]
      cases last with
      | primitive type => rfl
      | array items => rfl
      | object fields =>
          have hfields : Named.Ordered fields := h fields (by simp)
          refine (hfields.find?_merge (fieldsOf elements) key).trans ?_
          rw [fieldOf?]
          cases Named.find? fields key <;> rfl

/-- `s` is the field `key` of the last object among the elements that has this field. -/
def IsLastField (elements : List Schema) (key : String) (s : Schema) : Prop :=
  ∃ before own after, elements = before ++ .object own :: after ∧ Named.find? own key = some s ∧
    ∀ later, .object later ∈ after → key ∉ Named.keys later

/-- No field is found where no later object has the key. -/
theorem fieldOf?_eq_none_iff :
    fieldOf? key t = none ↔ ∀ later, t = .object later → key ∉ Named.keys later := by
  cases t with
  | primitive type => simp [fieldOf?]
  | array items => simp [fieldOf?]
  | object fields =>
      rw [fieldOf?, Option.eq_none_iff_forall_ne_some]
      simp [Named.mem_keys_iff_find?]

/-- A field of the elements is that of the last object with the key. -/
theorem find?_fieldsOf_eq_some_iff (h : FieldsOrdered elements) :
    Named.find? (fieldsOf elements) key = some s ↔ IsLastField elements key s := by
  rw [find?_fieldsOf h, List.findSome?_eq_some_iff]
  constructor
  · rintro ⟨after, t, before, hsplit, ht, hafter⟩
    cases t with
    | primitive type => cases ht
    | array items => cases ht
    | object own =>
        refine ⟨before.reverse, own, after.reverse,
          by simpa using congrArg List.reverse hsplit, ht, ?_⟩
        intro later hlater
        exact fieldOf?_eq_none_iff.1 (hafter _ (List.mem_reverse.1 hlater)) later rfl
  · rintro ⟨before, own, after, rfl, hown, hafter⟩
    refine ⟨after.reverse, .object own, before.reverse, by simp, hown,
      fun t ht => fieldOf?_eq_none_iff.2 ?_⟩
    rintro later rfl
    exact hafter later (List.mem_reverse.1 ht)

/-- The keys of the fields are those of the objects among the elements. -/
theorem mem_keys_fieldsOf (elements : List Schema) (key : String) :
    key ∈ Named.keys (fieldsOf elements) ↔ ∃ own, .object own ∈ elements ∧
    key ∈ Named.keys own := by
  induction elements using List.reverseRecOn with
  | nil => simp [fieldsOf, Named.keys]
  | append_singleton elements last ih =>
      rw [fieldsOf, List.foldl_append, List.foldl_cons, List.foldl_nil, ← fieldsOf]
      cases last with
      | primitive type => simpa using ih
      | array items => simpa using ih
      | object fields =>
          refine Named.mem_keys_merge.trans ?_
          rw [ih]
          simp [or_and_right, exists_or]

/-- What is no object brings no field. -/
theorem fieldsOf_filter_isObject (elements : List Schema) :
    fieldsOf (elements.filter isObject) = fieldsOf elements := by
  rw [fieldsOf, fieldsOf, List.foldl_filter]
  congr 1
  funext table s
  cases s <;> rfl

/-- Equal objects merge to themselves. -/
theorem fieldsOf_of_all_eq (hne : elements ≠ []) (hall : ∀ u ∈ elements, u = .object fields)
    (h : FieldsOrdered elements) :
    fieldsOf elements = fields := by
  obtain ⟨u, hu⟩ := List.exists_mem_of_ne_nil elements hne
  have hfields : Named.Ordered fields := h fields (hall u hu ▸ hu)
  have hequal : elements = List.replicate elements.length (.object fields) :=
    List.eq_replicate_of_mem hall
  refine (ordered_fieldsOf elements).ext hfields fun key => ?_
  rw [find?_fieldsOf h, hequal, List.reverse_replicate,
    List.findSome?_replicate_of_pos (List.length_pos_of_ne_nil hne), fieldOf?]

/-- With an object among the elements, the items are an object of all fields. -/
theorem arrayItems_of_object (hs : s ∈ elements) (hobject : s.isObject = true)
    (h : FieldsOrdered elements) :
    arrayItems elements = .object (fieldsOf elements) := by
  by_cases hall : ∀ u ∈ elements, u = s
  · rw [arrayItems_of_all_eq (List.ne_nil_of_mem hs) hall]
    cases s with
    | primitive type => cases hobject
    | array items => cases hobject
    | object fields => rw [fieldsOf_of_all_eq (List.ne_nil_of_mem hs) hall h]
  · simp only [not_forall] at hall
    obtain ⟨u, hu, hne⟩ := hall
    obtain ⟨first, rest, rfl⟩ := List.exists_cons_of_ne_nil (List.ne_nil_of_mem hs)
    rw [arrayItems, if_neg (not_all_eq_of_ne hu hs hne),
      if_pos (List.any_eq_true.2 ⟨s, hs, hobject⟩)]

/-- With objects, it does not matter which other elements there are. -/
theorem arrayItems_congr_objects (hs : s ∈ elements) (hobject : s.isObject = true)
    (h : FieldsOrdered elements) (hsame : others.filter isObject = elements.filter isObject) :
    arrayItems others = arrayItems elements := by
  have hmem (u : Schema) (hu : u.isObject = true) : u ∈ others ↔ u ∈ elements := by
    have hfilter := congrArg (u ∈ ·) hsame
    simpa [List.mem_filter, hu] using hfilter
  have hothers : FieldsOrdered others := fun fields hfields => h fields ((hmem _ rfl).1 hfields)
  rw [arrayItems_of_object hs hobject h, arrayItems_of_object ((hmem s hobject).2 hs)
    hobject hothers, ← fieldsOf_filter_isObject, hsame, fieldsOf_filter_isObject]

/-- Without objects, the items of an array depend on the set of its elements only: nothing is known
of the items of an empty array, a single schema is that of all items, and several give the label of
their type labels, in order and each once. With objects, they are an object with the fields of all
of these, each with the schema of the last object that has it, whatever else there is among the
elements. -/
theorem items_of_elements (elements : List Schema) :
    ((∀ s ∈ elements, s.isObject = false) →
      (elements = [] → arrayItems elements = any) ∧
      (∀ one, (∀ s, s ∈ elements ↔ s = one) → arrayItems elements = one) ∧
      (∀ s ∈ elements, ∀ t ∈ elements, s ≠ t → ∃ labels, IsLabels elements labels ∧
        arrayItems elements = label (" | ".intercalate labels)) ∧
      ∀ others, (∀ s, s ∈ others ↔ s ∈ elements) → arrayItems others = arrayItems elements) ∧
    ((∃ s ∈ elements, s.isObject = true) → FieldsOrdered elements →
      (∃ fields, arrayItems elements = .object fields ∧ Named.Ordered fields ∧
        (∀ key, key ∈ Named.keys fields ↔ ∃ own, .object own ∈ elements ∧ key ∈ Named.keys own) ∧
        ∀ key s, Named.find? fields key = some s ↔ IsLastField elements key s) ∧
      ∀ others, others.filter isObject = elements.filter isObject →
        arrayItems others = arrayItems elements) := by
  refine ⟨fun hnone => ⟨?_, fun one hone => ?_, fun s hs t ht hne => ?_,
    fun others => arrayItems_congr hnone⟩, ?_⟩
  · rintro rfl
    rfl
  · exact arrayItems_of_all_eq (List.ne_nil_of_mem ((hone one).2 rfl)) fun s hs => (hone s).1 hs
  · exact ⟨_, isLabels_foldl_insertLabel elements, arrayItems_of_ne hnone hs ht hne⟩
  · rintro ⟨s, hs, hobject⟩ hordered
    refine ⟨⟨fieldsOf elements, arrayItems_of_object hs hobject hordered, ordered_fieldsOf elements,
      mem_keys_fieldsOf elements, fun key t => find?_fieldsOf_eq_some_iff hordered⟩,
        fun others hsame => ?_⟩
    exact arrayItems_congr_objects hs hobject hordered hsame

/-- Numbers and a text, then a number alone, and two orders with something missing between them. -/
theorem items_of_orders :
    let plain : List Schema := [.number, .string, .number]
    let first : Schema := .object [("id", .number), ("total", .number)]
    let second : Schema := .object [("id", .string)]
    ((∀ s ∈ plain, s.isObject = false) ∧
      (∃ labels, IsLabels plain labels ∧ arrayItems plain = label (" | ".intercalate labels)) ∧
      arrayItems [.string, .number] = arrayItems plain) ∧
    ((∀ s, s ∈ [number, number] ↔ s = number) ∧ arrayItems [.number, .number] = .number) ∧
    FieldsOrdered [first, .null, second] ∧
    (∃ fields, arrayItems [first, .null, second] = .object fields ∧
      Named.find? fields "id" = some .string) ∧
    arrayItems [first, second] = arrayItems [first, .null, second] := by
  intro plain first second
  have hplain : ∀ s ∈ plain, s.isObject = false := by decide
  have hordered : FieldsOrdered [first, .null, second] := by
    intro fields hfields
    simp only [List.mem_cons, List.not_mem_nil, or_false, first, second, null,
      reduceCtorEq, false_or, Schema.object.injEq] at hfields
    rcases hfields with rfl | rfl
    · exact List.pairwise_pair.2 (by decide)
    · exact List.pairwise_singleton _ _
  have hlast : IsLastField [first, .null, second] "id" .string :=
    ⟨[first, .null], [("id", .string)], [], rfl, rfl, fun later hlater => nomatch hlater⟩
  have hnumber : ∀ s, s ∈ [number, number] ↔ s = number := by simp
  obtain ⟨-, -, hlabels, hset⟩ := (items_of_elements plain).1 hplain
  obtain ⟨-, hone, -, -⟩ := (items_of_elements [number, number]).1 (by decide)
  obtain ⟨⟨fields, hfields, -, -, hfind⟩, hsame⟩ :=
    (items_of_elements [first, .null, second]).2 ⟨first, List.mem_cons_self, rfl⟩ hordered
  refine ⟨⟨hplain, hlabels number (by decide) string (by decide) (by decide), hset _ fun s => ?_⟩,
    ⟨hnumber, hone number hnumber⟩, hordered, ⟨fields, hfields, (hfind "id" .string).2 hlast⟩,
    hsame _ rfl⟩
  simp only [plain, List.mem_cons, List.not_mem_nil, or_false]
  tauto

end TrackingPlan.Schema
