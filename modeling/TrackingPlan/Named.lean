/-!
# Tables ordered by name

A table keyed by names is a list of entries in increasing name order, each name once. The order is
that of the code points, which is also the order of the UTF-8 bytes. `find?_insert` reads back what
was inserted, and `find?_merge` says that a merge prefers the entries of its second table.
-/

namespace TrackingPlan

/-- `Named α` is a list of named values; the operations below keep it in name order. -/
abbrev Named (α : Type u) := List (String × α)

namespace Named

variable {α : Type u}

/-- `insert table name value` puts `value` at `name`, replacing the value that stood there. -/
def insert : Named α → String → α → Named α
  | [], name, value => [(name, value)]
  | (key, held) :: rest, name, value =>
    if name = key then (name, value) :: rest
    else if name < key then (name, value) :: (key, held) :: rest
    else (key, held) :: insert rest name value

/-- `find? table name` is the first value at `name`. -/
def find? (table : Named α) (name : String) : Option α :=
  (List.find? (·.1 == name) table).map (·.2)

/-- `erase table name` drops every entry at `name`. -/
def erase (table : Named α) (name : String) : Named α :=
  table.filter (·.1 != name)

/-- `keys table` lists the names of `table` in order. -/
def keys (table : Named α) : List String :=
  table.map (·.1)

/-- `merge table newer` inserts the entries of `newer` one after the other. -/
def merge (table newer : Named α) : Named α :=
  newer.foldl (fun acc entry => acc.insert entry.1 entry.2) table

/-- `ofEntries entries` is the table in which the last entry of each name stands. -/
def ofEntries (entries : List (String × α)) : Named α :=
  merge [] entries

/-- A look-up finds nothing but the values of its list. -/
theorem mem_of_lookup {entries : List (String × α)} {name : String} {value : α}
    (h : entries.lookup name = some value) : (name, value) ∈ entries := by
  obtain ⟨before, after, rfl, _⟩ := List.lookup_eq_some_iff.1 h
  simp

/-- Nothing is found in the empty table. -/
@[simp] theorem find?_nil (name : String) : find? ([] : Named α) name = none := rfl

/-- What is found in a table is the first entry, if it has the name, or else what the others
have. -/
theorem find?_cons (key : String) (held : α) (rest : Named α) (name : String) :
    find? ((key, held) :: rest) name = if key = name then some held else find? rest name := by
  by_cases h : key = name <;> simp [find?, h]

/-- The value just inserted is found at its name, and every other name is as before. -/
theorem find?_insert (table : Named α) (name : String) (value : α) (other : String) :
    find? (insert table name value) other =
      if name = other then some value else find? table other := by
  induction table with
  | nil => simp [insert, find?_cons]
  | cons entry rest ih =>
    obtain ⟨key, held⟩ := entry
    unfold insert
    by_cases hname : name = key
    · subst hname
      simp [find?_cons]
      split <;> simp_all
    · by_cases hlt : name < key
      · simp [hname, hlt, find?_cons]
      · simp only [hname, hlt, if_false, find?_cons, ih]
        by_cases hkey : key = other
        · subst hkey
          simp [hname]
        · simp [hkey]

/-- A merge gives the last value of `newer` at a name, and the value of `table` at other names. -/
theorem find?_merge (table newer : Named α) (name : String) :
    find? (merge table newer) name = (find? newer.reverse name).or (find? table name) := by
  induction newer generalizing table with
  | nil => simp [merge]
  | cons entry rest ih =>
    have step : merge table (entry :: rest) = merge (table.insert entry.1 entry.2) rest := rfl
    rw [step, ih, find?_insert]
    simp only [find?, List.reverse_cons, List.find?_append]
    cases hrest : List.find? (fun e => e.1 == name) rest.reverse with
    | some found => simp
    | none =>
      by_cases hname : entry.1 = name <;> simp [hname]

end Named

end TrackingPlan
