/-!
# Documents

A document is a structured value as data formats carry it: texts, numbers, lists and maps. Reports
are documents before they are printed in one format or another.
-/

namespace TrackingPlan

/-- A structured value. -/
inductive Document where
  | null
  | boolean (value : Bool)
  | number (value : Int)
  /-- A number with a fraction or an exponent, as written. -/
  | decimal (written : String)
  | text (value : String)
  | list (items : List Document)
  /-- Named values in the order in which they are printed. -/
  | map (entries : List (String × Document))
deriving Repr, Inhabited

namespace Document

/-- `field? d name` is the value of `name` if `d` is a map with that name. -/
def field? (d : Document) (name : String) : Option Document :=
  match d with
  | .map entries => entries.lookup name
  | _ => none

/-- A value that is found under a name is smaller than the list of entries. -/
theorem sizeOf_lookup_lt {entries : List (String × Document)} {name : String} {value : Document}
    (h : entries.lookup name = some value) : sizeOf value < sizeOf entries := by
  induction entries with
  | nil => simp at h
  | cons entry rest ih =>
    obtain ⟨key, held⟩ := entry
    rw [List.lookup_cons] at h
    split at h
    · simp only [Option.some.injEq] at h
      subst h
      simp only [List.cons.sizeOf_spec, Prod.mk.sizeOf_spec]
      omega
    · have := ih h
      simp only [List.cons.sizeOf_spec]
      omega

end Document

end TrackingPlan
