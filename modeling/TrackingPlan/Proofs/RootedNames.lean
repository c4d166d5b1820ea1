import TrackingPlan.Proofs.ConstantLookup

/-!
# Names with colons in front

Double colons in front of a Ruby name ask for the constant outside all modules and classes. They are
dropped before the name is looked up in the modules and classes around it, so that a constant in one
of these is found first, if it is in a table up to the first one with a constant outside.
`rooted_names` says when that happens, and that the name has its value outside all modules and
classes else; in `nested_constant_hides_root` it happens.
-/

namespace TrackingPlan.Ruby

variable {name : String} {around : List String} {tables : List Constants}

/-! ## Colons in front -/

/-- A rooted name is relative to the same as the name. -/
@[simp] theorem relativeName_rooted (name : String) :
    relativeName ("::" ++ name) = relativeName name := by
  have hchars : ("::" ++ name).toList = ':' :: ':' :: name.toList := String.toList_append
  rw [relativeName, relativeName, hchars, unrooted]

/-- A rooted name has the candidates of the name. -/
@[simp] theorem candidates_rooted (name : String) (around : List String) :
    candidates ("::" ++ name) around = candidates name around := by
  rw [candidates, candidates, relativeName_rooted]

/-- Colons in front of a name do not count. -/
theorem resolve?_rooted (index : ConstantIndex) (directory : Path) (name : String)
    (around : List String) :
    index.resolve? directory ("::" ++ name) around = index.resolve? directory name around := by
  rw [ConstantIndex.resolve?, ConstantIndex.resolve?, candidates_rooted, relativeName_rooted]

/-! ## Nested constants -/

/-- `nestedNames name around` lists the full names that `name` may stand for in one of the modules
and classes `around`, the innermost first. -/
def nestedNames (name : String) (around : List String) : List String :=
  (List.range around.length).reverse.map fun depth =>
    fullName (around.take (depth + 1) ++ [relativeName name])

/-- Outside all modules and classes, a name stands for itself. -/
theorem candidates_eq (name : String) (around : List String) :
    candidates name around = nestedNames name around ++ [relativeName name] := by
  rw [candidates, nestedNames, List.range_succ_eq_map, List.reverse_cons, List.map_append,
    ← List.map_reverse, List.map_map]
  rfl

/-- At the top a name is its only candidate. -/
theorem candidates_nil (name : String) : candidates name [] = [relativeName name] := by
  rw [candidates_eq]
  rfl

/-- `upTo tables root` lists the tables up to the first one with the constant `root`. -/
def upTo : (tables : List Constants) → (root : String) → List Constants
  | [], _ => []
  | table :: rest, root =>
      if (Named.find? table root).isSome then [table] else table :: upTo rest root

/-- `nestedValue? tables name around` is the value of a constant in one of the modules and classes
`around`: of the innermost one in the first table that has any. -/
def nestedValue? (tables : List Constants) (name : String) (around : List String) : Option String :=
  tables.findSome? fun table => (nestedNames name around).findSome? (Named.find? table)

/-- Some of the tables has a constant in one of the modules and classes `around`. -/
def HasNested (tables : List Constants) (name : String) (around : List String) : Prop :=
  ∃ table ∈ tables, ∃ nested ∈ nestedNames name around, nested ∈ Named.keys table

/-- A name has no nested value if it has no nested candidate. -/
theorem nestedValue?_eq_none_iff :
    nestedValue? tables name around = none ↔ ¬HasNested tables name around := by
  simp only [nestedValue?, HasNested, List.findSome?_eq_none_iff, find?_eq_none_iff,
    not_exists, not_and]

/-- What is found besides the nested constants counts if there are none. -/
theorem dichotomy_of_eq_or {found outside : Option String}
    (h : found = (nestedValue? tables name around).or outside) :
    (HasNested tables name around →
      ∃ value, nestedValue? tables name around = some value ∧ found = some value) ∧
    (¬HasNested tables name around → found = outside) := by
  refine ⟨fun hnested => ?_, fun hnested => ?_⟩
  · have hsome : nestedValue? tables name around ≠ none :=
      fun hnone => nestedValue?_eq_none_iff.1 hnone hnested
    obtain ⟨value, hvalue⟩ := Option.ne_none_iff_exists'.1 hsome
    exact ⟨value, hvalue, by rw [h, hvalue, Option.some_or]⟩
  · rw [h, nestedValue?_eq_none_iff.2 hnested, Option.none_or]

/-- The search ends with the first table that has the root, if no table has a nested constant
before. -/
theorem findSome?_candidates (tables : List Constants) (name : String) (around : List String) :
    tables.findSome? (fun table => (candidates name around).findSome? (Named.find? table)) =
      (nestedValue? (upTo tables (relativeName name)) name around).or
        (tables.findSome? (Named.find? · (relativeName name))) := by
  induction tables with
  | nil => rfl
  | cons table rest ih =>
      have hnames : (candidates name around).findSome? (Named.find? table) =
          ((nestedNames name around).findSome? (Named.find? table)).or
            (Named.find? table (relativeName name)) := by
        rw [candidates_eq, List.findSome?_append, List.findSome?_singleton]
      cases hroot : Named.find? table (relativeName name) with
      | some value =>
          -- the root ends the search, so that nested constants of the tables behind do not count
          have hlast : upTo (table :: rest) (relativeName name) = [table] := by simp [upTo, hroot]
          rw [List.findSome?_cons, List.findSome?_cons, hnames, hlast, hroot, nestedValue?,
            List.findSome?_singleton]
          cases (nestedNames name around).findSome? (Named.find? table) <;> rfl
      | none =>
          have hmore : upTo (table :: rest) (relativeName name) =
              table :: upTo rest (relativeName name) := by simp [upTo, hroot]
          rw [List.findSome?_cons, List.findSome?_cons, hnames, hmore, hroot, ih, nestedValue?,
            nestedValue?, List.findSome?_cons]
          cases (nestedNames name around).findSome? (Named.find? table) <;> rfl

/-! ## What is found -/

/-- A rooted name has the nested value that comes first, or else the value that the name has at the
top. -/
theorem resolve?_rooted_eq_or (index : ConstantIndex) (directory : Path) (name : String)
    (around : List String) :
    index.resolve? directory ("::" ++ name) around =
      (nestedValue? (upTo (index.seenFrom directory) (relativeName name)) name around).or
        (index.resolve? directory name []) := by
  rw [resolve?_rooted, ConstantIndex.resolve?, ConstantIndex.resolve?, candidates_nil]
  simp only [findSome?_candidates, List.findSome?_singleton, Option.or_assoc]

/-- In its own file a rooted name has its nested value, or else the value that the name has at the
top. -/
theorem ownConstant?_rooted_eq_or (constants : Constants) (name : String) (around : List String) :
    ownConstant? constants ("::" ++ name) around =
      (nestedValue? [constants] name around).or (ownConstant? constants name []) := by
  simp only [ownConstant?, candidates_rooted, candidates_nil, candidates_eq name around,
    List.findSome?_append, nestedValue?, List.findSome?_singleton]

/-- A name with colons in front has the value of a constant nested in the modules and classes around
it, if some table has one up to the first table with a constant outside. Else it has the value of
the name outside all modules and classes, which it should have. The constants of the file itself are
searched the same way. -/
theorem rooted_names (index : ConstantIndex) (directory : Path) (constants : Constants)
    (name : String) (around : List String) :
    let tables := upTo (index.seenFrom directory) (relativeName name)
    (HasNested tables name around → ∃ value, nestedValue? tables name around = some value ∧
        index.resolve? directory ("::" ++ name) around = some value) ∧
      (¬HasNested tables name around →
        index.resolve? directory ("::" ++ name) around = index.resolve? directory name []) ∧
      (HasNested [constants] name around → ∃ value, nestedValue? [constants] name around =
        some value ∧ ownConstant? constants ("::" ++ name) around = some value) ∧
      (¬HasNested [constants] name around →
        ownConstant? constants ("::" ++ name) around = ownConstant? constants name []) := by
  intro tables
  obtain ⟨hnested, houtside⟩ :=
    dichotomy_of_eq_or (resolve?_rooted_eq_or index directory name around)
  obtain ⟨hnestedOwn, houtsideOwn⟩ :=
    dichotomy_of_eq_or (ownConstant?_rooted_eq_or constants name around)
  exact ⟨hnested, houtside, hnestedOwn, houtsideOwn⟩

/-- A directory that stands alone sees its own constants. -/
theorem seenFrom_singleton (directory : Path) (constants : Constants) :
    (ConstantIndex.mk [(directory, constants)]).seenFrom directory = [constants] := by
  simp [ConstantIndex.seenFrom, List.partition_eq_filter_filter, Path.same_self]

/-- A file with a constant in a module that sends the constant outside, which has the same name. -/
def rootedCall : Node :=
  read (Source.ofString "N = 'top'\nmodule A\n  N = 'inner'\n  track(::N)\nend\n")

/-- The nested constant is found, in an index as in the file itself. -/
theorem nested_constant_hides_root :
    let constants := Constants.ofTree rootedCall
    let index : ConstantIndex := ⟨[(⟨"d"⟩, constants)]⟩
    index.resolve? ⟨"d"⟩ "::N" ["A"] = some "inner" ∧ index.resolve? ⟨"d"⟩ "N" [] = some "top" ∧
      ownConstant? constants "::N" ["A"] = some "inner" ∧
      ownConstant? constants "N" [] = some "top" ∧
      (events none [trackSignature] ⟨"a.rb"⟩ rootedCall).map (·.name) = ["inner"] := by
  intro constants index
  rw [ConstantIndex.resolve?, ConstantIndex.resolve?, seenFrom_singleton]
  decide +kernel

end TrackingPlan.Ruby
