import TrackingPlan.Proofs.Tables
import TrackingPlan.Schema

/-!
# Properties that schemas share with their parts

An `Invariant` holds of the known primitives, and of arrays and objects just if it holds of what is
in them. It then passes through look-ups and through tables of properties, as `Invariant.merge` and
`Invariant.fieldsOf` say. What is left to ask for is how labels are made.
-/

namespace TrackingPlan

namespace Schema

/-- The property holds of the known primitives, and passes between structured schemas and their
parts. -/
structure Invariant (P : Schema → Prop) : Prop where
  primitive : ∀ type, (∀ text, type ≠ .label text) → P (.primitive type)
  undefined : P (.label "undefined")
  array : ∀ {items}, P (.array items) ↔ P items
  nil : P (.object [])
  insert : ∀ {p name s}, P (.object p) → P s → P (.object (Named.insert p name s))
  erase : ∀ {p} name, P (.object p) → P (.object (Named.erase p name))
  of_mem : ∀ {p} {field : String × Schema}, P (.object p) → field ∈ p → P field.2

namespace Invariant

variable {P : Schema → Prop} (hP : Invariant P) {p : Properties} {s default : Schema}
  {name : String}
  {entries : List (String × Schema)} {members : List Schema}
include hP

/-- The property holds of texts. -/
theorem string : P .string := hP.primitive .string (by simp)

/-- The property holds of numbers. -/
theorem number : P .number := hP.primitive .number (by simp)

/-- The property holds of truth values. -/
theorem boolean : P .boolean := hP.primitive .boolean (by simp)

/-- The property holds of missing values. -/
theorem null : P .null := hP.primitive .null (by simp)

/-- The property holds of anything. -/
theorem any : P .any := hP.primitive .any (by simp)

/-- A merge brings in no other schemas than those of its entries. -/
theorem merge (h : P (.object p)) (hnewer : ∀ entry ∈ entries, P entry.2) :
    P (.object (Named.merge p entries)) := by
  refine List.foldlRecOn (motive := fun table => P (.object table)) entries _ h ?_
  intro table htable entry hentry
  exact hP.insert htable (hnewer entry hentry)

/-- The property holds of an object if it holds of its entries. -/
theorem ofEntries (h : ∀ entry ∈ entries, P entry.2) : P (.object (Named.ofEntries entries)) :=
  hP.merge hP.nil h

/-- The property holds of the fields of an object that has it. -/
theorem of_find? (h : P (.object p)) (hfound : Named.find? p name = some s) : P s := by
  obtain ⟨key, hmem⟩ := Named.mem_of_find? hfound
  exact hP.of_mem h hmem

/-- The property holds of the fields of all elements together if it holds of the elements. -/
theorem fieldsOf (h : ∀ s ∈ members, P s) : P (.object (Schema.fieldsOf members)) := by
  refine List.foldlRecOn (motive := fun table => P (.object table)) members _ hP.nil ?_
  intro table htable s hs
  split
  next fields => exact hP.merge htable fun entry hentry => hP.of_mem (h _ hs) hentry
  next => exact htable

omit hP in
/-- The property holds of a schema that is found, and of the one that is taken otherwise. -/
theorem getD {s? : Option Schema} (hdefault : P default) (h : ∀ s, s? = some s → P s) :
    P (s?.getD default) := by
  cases s? with
  | none => exact hdefault
  | some s => exact h s rfl

omit hP in
/-- The property holds of the schema of something that may be missing if it holds wherever it is
there. -/
theorem getD_map {f : α → Schema} {a? : Option α} (hdefault : P default)
    (h : ∀ a, a? = some a → P (f a)) : P ((a?.map f).getD default) := by
  refine getD hdefault ?_
  intro s hs
  obtain ⟨a, ha, rfl⟩ := Option.map_eq_some_iff.1 hs
  exact h a ha

end Invariant

end Schema

end TrackingPlan
