import TrackingPlan.Proofs.SchemaInvariants

/-!
# Canonical schemas

A primitive and a label are written alike where the label has the name of the primitive. A schema is
canonical if no label in it has such a name, and if the fields of every object in it stand in name
order. All ways to make schemas keep to canonical ones: `canonical_label` for single names,
`Canonical.union` and `Canonical.arrayItems` for the schemas of several values, and
`Properties.Canonical.insert` and its neighbours for tables of properties.
-/

namespace TrackingPlan

/-- The names of the primitives that are no labels. -/
def Primitive.knownNames : List String := ["string", "number", "boolean", "null", "any"]

/-- No label in the schema has a known name, and the fields of objects are in name order. -/
inductive Schema.Canonical : Schema → Prop where
  | primitive {type : Primitive} (h : ∀ text, type = .label text → text ∉ Primitive.knownNames) :
      Canonical (.primitive type)
  | array {items : Schema} (h : Canonical items) : Canonical (.array items)
  | object {fields : List (String × Schema)} (ordered : Named.Ordered fields)
      (h : ∀ field ∈ fields, Canonical field.2) : Canonical (.object fields)

/-- The properties are the fields of a canonical object. -/
def Properties.Canonical (p : Properties) : Prop := (Schema.object p).Canonical

namespace Properties.Canonical

variable {p q : Properties} {s : Schema} {name : String} {entries : List (String × Schema)}

/-- Canonical properties are in order. -/
theorem ordered (h : Canonical p) : Named.Ordered p := by
  cases h
  assumption

/-- The fields of canonical properties are canonical. -/
theorem of_mem (h : Canonical p) {field : String × Schema} (hfield : field ∈ p) :
    field.2.Canonical := by
  cases h with
  | object _ hfields => exact hfields field hfield

/-- No properties are canonical. -/
theorem nil : Canonical [] := .object Named.ordered_nil (by simp)

/-- A canonical schema put into canonical properties leaves them canonical. -/
theorem insert (h : Canonical p) (hs : s.Canonical) : Canonical (Named.insert p name s) := by
  refine .object h.ordered.insert fun field hfield => ?_
  rcases Named.mem_of_mem_insert hfield with rfl | hmem
  · exact hs
  · exact h.of_mem hmem

/-- Canonical properties stay canonical without a field. -/
theorem erase (h : Canonical p) (name : String) : Canonical (Named.erase p name) :=
  .object (h.ordered.erase name) fun _ hfield => h.of_mem (List.mem_filter.1 hfield).1

end Properties.Canonical

namespace Schema

/-! ## Single schemas -/

/-- Every label is canonical. -/
@[simp] theorem canonical_label (name : String) : (label name).Canonical := by
  refine .primitive fun text htext hknown => ?_
  have hname : name = text := by
    have hnames := congrArg Primitive.name htext
    rwa [Primitive.name_ofName] at hnames
  subst hname
  exact Primitive.ofName_ne_label hknown name htext

/-- The schema of texts is canonical. -/
@[simp] theorem canonical_string : string.Canonical := .primitive (by simp)

/-- The schema of numbers is canonical. -/
@[simp] theorem canonical_number : number.Canonical := .primitive (by simp)

/-- The schema of truth values is canonical. -/
@[simp] theorem canonical_boolean : boolean.Canonical := .primitive (by simp)

/-- The schema of missing values is canonical. -/
@[simp] theorem canonical_null : null.Canonical := .primitive (by simp)

/-- The schema of anything is canonical. -/
@[simp] theorem canonical_any : any.Canonical := .primitive (by simp)

/-- The items of a canonical array are canonical. -/
theorem Canonical.items {items : Schema} (h : (Schema.array items).Canonical) :
    items.Canonical := by
  cases h
  assumption

/-- Being canonical is shared with the parts. -/
theorem canonical_invariant : Invariant Canonical where
  primitive _ htype := .primitive fun text hlabel => absurd hlabel (htype text)
  undefined := canonical_label "undefined"
  array := ⟨Canonical.items, .array⟩
  nil := Properties.Canonical.nil
  insert := Properties.Canonical.insert
  erase name h := Properties.Canonical.erase h name
  of_mem h := Properties.Canonical.of_mem h

/-- The schema of something that may be missing is canonical if it is canonical wherever it is
there. -/
theorem canonical_getD_map {f : α → Schema} {a? : Option α} {default : Schema}
    (hdefault : default.Canonical) (h : ∀ a, a? = some a → (f a).Canonical) :
    ((a?.map f).getD default).Canonical :=
  Invariant.getD_map hdefault h

/-! ## Several schemas -/

variable {members : List Schema}

/-- The distinct members are among the members. -/
theorem distinct_subset (members : List Schema) : distinct members ⊆ members := by
  unfold distinct
  refine List.foldlRecOn (motive := (· ⊆ members)) members _ (List.nil_subset _)
    fun kept hkept s hs => ?_
  split
  · exact hkept
  · exact List.append_subset.2 ⟨hkept, List.cons_subset.2 ⟨hs, List.nil_subset _⟩⟩

/-- A union of canonical schemas is canonical. -/
theorem Canonical.union (h : ∀ s ∈ members, s.Canonical) : (union members).Canonical := by
  unfold Schema.union
  split
  · exact canonical_any
  next one hone => exact h one (distinct_subset members (hone ▸ List.mem_cons_self))
  · exact canonical_label _

/-- The fields of canonical elements are canonical. -/
theorem Canonical.fieldsOf (h : ∀ s ∈ members, s.Canonical) :
    Properties.Canonical (fieldsOf members) :=
  canonical_invariant.fieldsOf h

/-- The items of canonical elements are canonical. -/
theorem Canonical.arrayItems (h : ∀ s ∈ members, s.Canonical) : (arrayItems members).Canonical := by
  unfold Schema.arrayItems
  split
  · exact canonical_any
  next first rest =>
    split
    · exact h first List.mem_cons_self
    · split
      · exact Canonical.fieldsOf h
      · exact canonical_label _

end Schema

/-! ## Tables of properties -/

namespace Properties.Canonical

variable {p : Properties} {s : Schema} {name : String} {entries : List (String × Schema)}

/-- Canonical entries merged into canonical properties leave them canonical. -/
theorem merge (h : Canonical p) (hnewer : ∀ entry ∈ entries, entry.2.Canonical) :
    Canonical (Named.merge p entries) :=
  Schema.canonical_invariant.merge h hnewer

/-- Canonical entries make canonical properties. -/
theorem ofEntries (h : ∀ entry ∈ entries, entry.2.Canonical) :
    Canonical (Named.ofEntries entries) :=
  Schema.canonical_invariant.ofEntries h

/-- Properties that are found are canonical, and so are none. -/
theorem getD {found : Option Properties} (h : ∀ p, found = some p → Canonical p) :
    Canonical (found.getD []) := by
  cases found with
  | none => exact nil
  | some p => exact h p rfl

end Properties.Canonical

end TrackingPlan
