import TrackingPlan.Proofs.RubyNeighbours

/-!
# What a name of a constant stands for

The tables of an index are searched twice: for a constant with one of the full names that the name
may stand for, and for constants whose full name ends in it. `Resolved` says what the search should
find, and `lookUp?_eq_iff` that it finds just that. So the order of the constants in a table does
not count (`lookUp?_perm`).
-/

namespace TrackingPlan

/-- What is found in a table without repetitions does not depend on its order. -/
theorem Named.find?_perm {α : Type u} {table other : Named α} (h : table.Perm other)
    (hnodup : table.keys.Nodup) (key : String) : table.find? key = other.find? key := by
  have hother : other.keys.Nodup := (h.map _).nodup_iff.1 hnodup
  refine Option.ext fun value => ?_
  rw [find?_eq_some_iff hnodup, find?_eq_some_iff hother, h.mem_iff]

namespace Ruby

variable {tables : List Constants} {table : Constants} {name value : String} {around : List String}
  {result : Option String} {depth : Nat}

/-! ## The specification -/

/-- `nameAt name around depth` is the full name of `name` in the outermost `depth` of the modules
and classes `around`. -/
def nameAt (name : String) (around : List String) (depth : Nat) : String :=
  fullName (around.take depth ++ [name])

/-- The table has a constant that `name` may stand for inside `around`. -/
def HasCandidate (table : Constants) (name : String) (around : List String) : Prop :=
  ∃ depth ≤ around.length, nameAt name around depth ∈ Named.keys table

/-- Of the constants that `name` may stand for in this table, the innermost one has this value. -/
def IsInnermostValue (table : Constants) (name : String) (around : List String)
    (value : String) : Prop :=
  ∃ depth ≤ around.length, (nameAt name around depth, value) ∈ table ∧
    ∀ deeper ≤ around.length, depth < deeper → nameAt name around deeper ∉ Named.keys table

/-- Some table has a constant whose full name ends in `name`, and all such constants have this
value. -/
structure IsOnlyValue (tables : List Constants) (name value : String) : Prop where
  exists_entry : ∃ table ∈ tables, ∃ entry ∈ table,
    ("::" ++ name).toList <:+ entry.1.toList ∧ entry.2 = value
  eq_value : ∀ table ∈ tables, ∀ entry ∈ table, ("::" ++ name).toList <:+ entry.1.toList →
    entry.2 = value

/-- What `name` stands for inside `around`, where these tables are searched one after the other. -/
inductive Resolved (tables : List Constants) (name : String) (around : List String) :
    Option String → Prop where
  /-- The first table with a candidate decides. -/
  | candidate {before after : List Constants} {table : Constants} {value : String}
      (htables : tables = before ++ table :: after)
      (hbefore : ∀ earlier ∈ before, ¬HasCandidate earlier name around)
      (hvalue : IsInnermostValue table name around value) : Resolved tables name around (some value)
  /-- Without candidates, the constants that end in the name have to agree. -/
  | ending {value : String} (hnone : ∀ table ∈ tables, ¬HasCandidate table name around)
      (hvalue : IsOnlyValue tables name value) : Resolved tables name around (some value)
  | missing (hnone : ∀ table ∈ tables, ¬HasCandidate table name around)
      (hends : ∀ value, ¬IsOnlyValue tables name value) : Resolved tables name around none

/-! ## Candidates -/

/-- A name is relative to where it stands if it does not start with colons. -/
theorem relativeName_of_not_prefix (h : ¬"::".toList <+: name.toList) :
    relativeName name = name := by
  have hchars : unrooted name.toList = name.toList := by
    unfold unrooted
    split
    next rest hrest => exact absurd (hrest ▸ ⟨rest, rfl⟩) h
    next => rfl
  rw [relativeName, hchars, String.ofList_toList]

/-- The candidates are the name within the classes around it, the innermost first. -/
theorem candidates_eq_map (h : relativeName name = name) (around : List String) :
    candidates name around = (List.range (around.length + 1)).reverse.map (nameAt name around) := by
  rw [candidates, h]
  rfl

/-- Depths are tried from the innermost one on. -/
theorem mem_before_iff {n other : Nat} {before after : List Nat}
    (h : (List.range (n + 1)).reverse = before ++ depth :: after) :
    other ∈ before ↔ depth < other ∧ other ≤ n := by
  have hpairwise : (before ++ depth :: after).Pairwise (· > ·) := by
    rw [← h]
    exact List.pairwise_reverse.2 List.pairwise_lt_range
  obtain ⟨-, hrest, hcross⟩ := List.pairwise_append.1 hpairwise
  have hmem : other ∈ before ++ depth :: after ↔ other ≤ n := by
    rw [← h, List.mem_reverse, List.mem_range, Nat.lt_succ_iff]
  -- depths decrease, so that those in front are greater and those behind are less
  constructor
  · intro hbefore
    exact ⟨hcross other hbefore depth List.mem_cons_self, hmem.1 (List.mem_append_left _ hbefore)⟩
  · rintro ⟨hlt, hle⟩
    rcases List.mem_append.1 (hmem.2 hle) with hbefore | hafter
    · exact hbefore
    · rcases List.mem_cons.1 hafter with rfl | hafter
      · omega
      · have hgt := (List.pairwise_cons.1 hrest).1 other hafter
        omega

/-- The candidates are the name within each of the classes around it. -/
theorem mem_candidates_iff (h : relativeName name = name) {candidate : String} :
    candidate ∈ candidates name around ↔ ∃ depth ≤ around.length, nameAt name around depth =
      candidate := by
  simp only [candidates_eq_map h, List.mem_map, List.mem_reverse, List.mem_range, Nat.lt_succ_iff]

/-- Nothing is found under a name that is no key. -/
theorem find?_eq_none_iff : Named.find? table name = none ↔ name ∉ Named.keys table := by
  rw [Named.mem_keys_iff_find?, ← Option.ne_none_iff_exists', not_not]

/-- No candidate is found in a table that has none. -/
theorem findSome?_candidates_eq_none_iff (h : relativeName name = name) :
    (candidates name around).findSome? (Named.find? table) = none ↔
      ¬HasCandidate table name around := by
  simp only [List.findSome?_eq_none_iff, mem_candidates_iff h, find?_eq_none_iff,
    HasCandidate, not_exists, not_and, forall_exists_index, and_imp]
  constructor
  · exact fun hnone depth hdepth => hnone _ depth hdepth rfl
  · rintro hnone _ depth hdepth rfl
    exact hnone depth hdepth

/-- The search through the candidates finds the innermost constant of the table. -/
theorem findSome?_candidates_eq_some_iff (h : relativeName name = name)
    (hnodup : (Named.keys table).Nodup) :
    (candidates name around).findSome? (Named.find? table) = some value ↔
      IsInnermostValue table name around value := by
  rw [candidates_eq_map h, List.findSome?_map, List.findSome?_eq_some_iff]
  constructor
  · rintro ⟨before, depth, after, hsplit, hvalue, hbefore⟩
    have hdepth : depth ∈ (List.range (around.length + 1)).reverse := by simp [hsplit]
    refine ⟨depth, ?_, (Named.find?_eq_some_iff hnodup).1 hvalue, fun deeper hdeeper hlt => ?_⟩
    · exact Nat.lt_succ_iff.1 (List.mem_range.1 (List.mem_reverse.1 hdepth))
    · exact find?_eq_none_iff.1 (hbefore deeper ((mem_before_iff hsplit).2 ⟨hlt, hdeeper⟩))
  · rintro ⟨depth, hdepth, hvalue, hinner⟩
    obtain ⟨before, after, hsplit⟩ :=
      List.append_of_mem (List.mem_reverse.2 (List.mem_range.2 (Nat.lt_succ_of_le hdepth)))
    refine ⟨before, depth, after, hsplit, (Named.find?_eq_some_iff hnodup).2 hvalue,
      fun other hother => ?_⟩
    obtain ⟨hlt, hle⟩ := (mem_before_iff hsplit).1 hother
    exact find?_eq_none_iff.2 (hinner other hle hlt)

/-! ## Endings -/

/-- A key ends with a text if the text is a suffix of it. -/
theorem endsWith_iff {key ending : String} :
    key.endsWith ending = true ↔ ending.toList <:+ key.toList := by
  rw [← String.endsWith_toSlice, String.Slice.endsWith_string_iff, String.copy_toSlice]

/-- `valuesOfEnding tables name` lists the values of the constants whose full name ends in
`name`. -/
def valuesOfEnding (tables : List Constants) (name : String) : List String :=
  (tables.flatMap fun table => table.filter (·.1.endsWith ("::" ++ name))).map (·.2)

/-- The values under the ending are those of the keys that end with colons and the name. -/
theorem mem_valuesOfEnding_iff : value ∈ valuesOfEnding tables name ↔
    ∃ table ∈ tables, ∃ entry ∈ table, ("::" ++ name).toList <:+ entry.1.toList ∧
      entry.2 = value := by
  simp only [valuesOfEnding, List.mem_map, List.mem_flatMap, List.mem_filter, endsWith_iff]
  constructor
  · rintro ⟨entry, ⟨table, htable, hentry, hends⟩, rfl⟩
    exact ⟨table, htable, entry, hentry, hends, rfl⟩
  · rintro ⟨table, htable, entry, hentry, hends, rfl⟩
    exact ⟨entry, ⟨table, htable, hentry, hends⟩, rfl⟩

/-- The only value under the ending is the one that all of them are. -/
theorem isOnlyValue_iff : IsOnlyValue tables name value ↔
    value ∈ valuesOfEnding tables name ∧ ∀ other ∈ valuesOfEnding tables name, other = value := by
  rw [mem_valuesOfEnding_iff]
  constructor
  · rintro ⟨hsome, hall⟩
    refine ⟨hsome, fun other hother => ?_⟩
    obtain ⟨table, htable, entry, hentry, hends, rfl⟩ := mem_valuesOfEnding_iff.1 hother
    exact hall table htable entry hentry hends
  · rintro ⟨hsome, hall⟩
    exact ⟨hsome, fun table htable entry hentry hends =>
      hall entry.2 (mem_valuesOfEnding_iff.2 ⟨table, htable, entry, hentry, hends, rfl⟩)⟩

/-- A name is resolved by its ending if there is one value under it. -/
theorem bySuffix?_eq_some_iff :
    ConstantIndex.bySuffix? tables name = some value ↔ IsOnlyValue tables name value := by
  have hvalues :
    (tables.flatMap fun table => table.filter (·.1.endsWith ("::" ++ name))).map (·.2) =
      valuesOfEnding tables name := rfl
  rw [isOnlyValue_iff, ConstantIndex.bySuffix?, hvalues]
  cases valuesOfEnding tables name with
  | nil => simp
  | cons first rest =>
      dsimp only
      constructor
      · intro h
        split at h
        next hall =>
          obtain rfl := Option.some.inj h
          exact ⟨List.mem_cons_self, by simpa using hall⟩
        next => cases h
      · rintro ⟨-, hall⟩
        have hfirst : first = value := hall first List.mem_cons_self
        subst hfirst
        exact if_pos (by simpa using fun other hother => hall other (List.mem_cons_of_mem _ hother))

/-! ## The search -/

/-- `lookUp? tables name around` is what `name` stands for inside `around`, where these tables are
searched. -/
def lookUp? (tables : List Constants) (name : String) (around : List String) : Option String :=
  (tables.findSome? fun table => (candidates name around).findSome? (Named.find? table)).or
    (ConstantIndex.bySuffix? tables (relativeName name))

/-- An index resolves a name in the tables that the directory sees. -/
theorem resolve?_eq_lookUp? (index : ConstantIndex) (directory : Path) (name : String)
    (around : List String) :
    index.resolve? directory name around = lookUp? (index.seenFrom directory) name around := rfl

/-- Without candidates, the endings decide. -/
theorem lookUp?_of_no_candidate (h : relativeName name = name)
    (hnone : ∀ table ∈ tables, ¬HasCandidate table name around) :
    lookUp? tables name around = ConstantIndex.bySuffix? tables name := by
  have hcandidates : (tables.findSome? fun table =>
      (candidates name around).findSome? (Named.find? table)) = none :=
    List.findSome?_eq_none_iff.2 fun table htable =>
      (findSome?_candidates_eq_none_iff h).2 (hnone table htable)
  rw [lookUp?, hcandidates, h, Option.none_or]

/-- What is looked up in tables without repetitions is what they resolve the name to. -/
theorem resolved_lookUp? (h : relativeName name = name)
    (hnodup : ∀ table ∈ tables, (Named.keys table).Nodup) :
    Resolved tables name around (lookUp? tables name around) := by
  cases hcandidates : tables.findSome? fun table =>
    (candidates name around).findSome? (Named.find? table) with
  | some value =>
      obtain ⟨before, table, after, htables, hvalue, hbefore⟩ :=
        List.findSome?_eq_some_iff.1 hcandidates
      have htable : table ∈ tables := by simp [htables]
      rw [lookUp?, hcandidates, Option.some_or]
      exact .candidate htables
        (fun earlier hearlier => (findSome?_candidates_eq_none_iff h).1 (hbefore earlier hearlier))
        ((findSome?_candidates_eq_some_iff h (hnodup table htable)).1 hvalue)
  | none =>
      have hnone : ∀ table ∈ tables, ¬HasCandidate table name around := fun table htable =>
        (findSome?_candidates_eq_none_iff h).1
          (List.findSome?_eq_none_iff.1 hcandidates table htable)
      rw [lookUp?_of_no_candidate h hnone]
      cases hends : ConstantIndex.bySuffix? tables name with
      | some value => exact .ending hnone (bySuffix?_eq_some_iff.1 hends)
      | none =>
          refine .missing hnone fun value hvalue => ?_
          rw [bySuffix?_eq_some_iff.2 hvalue] at hends
          cases hends

/-- Tables without repetitions resolve a name to one result only. -/
theorem Resolved.lookUp?_eq (hresolved : Resolved tables name around result)
    (h : relativeName name = name) (hnodup : ∀ table ∈ tables, (Named.keys table).Nodup) :
    lookUp? tables name around = result := by
  cases hresolved with
  | @candidate before after table value htables hbefore hvalue =>
      have htable : table ∈ tables := by simp [htables]
      have hfound : (tables.findSome? fun table =>
          (candidates name around).findSome? (Named.find? table)) = some value :=
        List.findSome?_eq_some_iff.2 ⟨before, table, after, htables,
          (findSome?_candidates_eq_some_iff h (hnodup table htable)).2 hvalue,
          fun earlier hearlier => (findSome?_candidates_eq_none_iff h).2 (hbefore earlier hearlier)⟩
      rw [lookUp?, hfound, Option.some_or]
  | ending hnone hvalue => rw [lookUp?_of_no_candidate h hnone, bySuffix?_eq_some_iff.2 hvalue]
  | missing hnone hends =>
      rw [lookUp?_of_no_candidate h hnone]
      exact Option.eq_none_iff_forall_ne_some.2 fun value hvalue =>
        hends value (bySuffix?_eq_some_iff.1 hvalue)

/-- The search finds what the name stands for, and nothing else. -/
theorem lookUp?_eq_iff (h : relativeName name = name)
    (hnodup : ∀ table ∈ tables, (Named.keys table).Nodup) :
    lookUp? tables name around = result ↔ Resolved tables name around result := by
  constructor
  · rintro rfl
    exact resolved_lookUp? h hnodup
  · exact fun hresolved => hresolved.lookUp?_eq h hnodup

/-! ## The order of constants -/

/-- The order in which the tables list their constants does not count. -/
theorem lookUp?_perm {α : Type} {places : List α} {f g : α → Constants}
    (h : ∀ place, (f place).Perm (g place))
    (hnodup : ∀ place, (Named.keys (f place)).Nodup) (name : String) (around : List String) :
    lookUp? (places.map f) name around = lookUp? (places.map g) name around := by
  have hfind (place : α) : Named.find? (f place) = Named.find? (g place) :=
    funext (Named.find?_perm (h place) (hnodup place))
  have hvalues (value : String) : value ∈ valuesOfEnding (places.map f) (relativeName name) ↔
      value ∈ valuesOfEnding (places.map g) (relativeName name) := by
    simp only [mem_valuesOfEnding_iff, List.mem_map, exists_exists_and_eq_and, (h _).mem_iff]
  have hends : ConstantIndex.bySuffix? (places.map f) (relativeName name) =
      ConstantIndex.bySuffix? (places.map g) (relativeName name) := by
    refine Option.ext fun value => ?_
    simp only [bySuffix?_eq_some_iff, isOnlyValue_iff, hvalues]
  rw [lookUp?, lookUp?, hends, List.findSome?_map, List.findSome?_map]
  simp only [Function.comp_def, hfind]

end Ruby

end TrackingPlan
