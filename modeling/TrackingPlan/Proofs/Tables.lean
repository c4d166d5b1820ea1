import Mathlib.Data.List.Sort
import Mathlib.Data.String.Basic
import TrackingPlan.Named

/-!
# Tables in name order

A table that is built by inserting has its names in increasing order, so that each name occurs once.
`mem_keys_insert`, `mem_keys_merge` and `mem_keys_erase` say which names an operation leaves, and
`Ordered.ext` that two such tables are equal when they answer every look-up alike.
-/

namespace TrackingPlan.Named

variable {α : Type u} {table newer other : Named α} {name key : String} {value : α}

/-! ## The names of a table -/

/-- The keys of a table are the names of its entries. -/
theorem mem_keys_iff : key ∈ table.keys ↔ ∃ value, (key, value) ∈ table := by
  simp [keys]

/-- A table has a name exactly when something is found there. -/
theorem mem_keys_iff_find? : key ∈ table.keys ↔ ∃ value, find? table key = some value := by
  induction table with
  | nil => simp [keys]
  | cons entry rest ih =>
      obtain ⟨first, held⟩ := entry
      rw [find?_cons]
      by_cases hfirst : first = key
      · simp [keys, hfirst]
      · have hne : key ≠ first := Ne.symm hfirst
        simpa [keys, hfirst, hne] using ih

/-- An insertion adds its name to the keys. -/
theorem mem_keys_insert : key ∈ (insert table name value).keys ↔ key = name ∨ key ∈ table.keys := by
  simp only [mem_keys_iff_find?, find?_insert]
  by_cases hkey : name = key
  · simp [hkey]
  · have hne : key ≠ name := Ne.symm hkey
    simp [hkey, hne]

/-- A merged table has the keys of both. -/
theorem mem_keys_merge : key ∈ (merge table newer).keys ↔ key ∈ table.keys ∨ key ∈ newer.keys := by
  induction newer generalizing table with
  | nil => simp [merge, keys]
  | cons entry rest ih =>
      have hstep : merge table (entry :: rest) = merge (table.insert entry.1 entry.2) rest := rfl
      rw [hstep, ih, mem_keys_insert]
      simp only [keys, List.map_cons, List.mem_cons]
      tauto

/-- A table that is made from entries has their keys. -/
theorem mem_keys_ofEntries {entries : List (String × α)} :
    key ∈ (ofEntries entries).keys ↔ key ∈ keys entries := by
  rw [ofEntries, mem_keys_merge]
  simp [keys]

/-- An erasure takes its name from the keys. -/
theorem mem_keys_erase : key ∈ (erase table name).keys ↔ key ≠ name ∧ key ∈ table.keys := by
  simp only [mem_keys_iff, erase, List.mem_filter, bne_iff_ne]
  tauto

/-- More keys stay more when one is inserted into both. -/
theorem keys_insert_subset (h : table.keys ⊆ other.keys) (name : String) (value held : α) :
    (insert table name value).keys ⊆ (insert other name held).keys := by
  intro key hkey
  rw [mem_keys_insert] at hkey ⊢
  exact hkey.imp_right (@h key)

/-- More keys stay more when more are merged in. -/
theorem keys_merge_subset {wider : Named α} (h : table.keys ⊆ other.keys)
    (hnewer : newer.keys ⊆ wider.keys) : (merge table newer).keys ⊆ (merge other wider).keys := by
  intro key hkey
  rw [mem_keys_merge] at hkey ⊢
  exact hkey.imp (@h key) (@hnewer key)

/-- More keys stay more when one is erased from both. -/
theorem keys_erase_subset (h : table.keys ⊆ other.keys) (name : String) :
    (erase table name).keys ⊆ (erase other name).keys := by
  intro key hkey
  rw [mem_keys_erase] at hkey ⊢
  exact hkey.imp_right (@h key)

/-- What stands in a table without repeated names is found there. -/
theorem find?_eq_some_iff (h : table.keys.Nodup) :
    find? table key = some value ↔ (key, value) ∈ table := by
  induction table with
  | nil => simp
  | cons entry rest ih =>
      obtain ⟨first, held⟩ := entry
      obtain ⟨hfirst, hrest⟩ := List.nodup_cons.1 h
      rw [find?_cons, List.mem_cons]
      by_cases hkey : first = key
      · subst hkey
        have hmem : (first, value) ∉ rest := fun hmem => hfirst (mem_keys_iff.2 ⟨value, hmem⟩)
        simp [hmem, eq_comm]
      · have hne : key ≠ first := Ne.symm hkey
        simp [hkey, hne, ih hrest]

/-- In a table without repeated names the last entry of a name is the first. -/
theorem find?_reverse (h : table.keys.Nodup) (key : String) :
    find? table.reverse key = find? table key := by
  have hreverse : (keys table.reverse).Nodup := by
    rw [keys, List.map_reverse]
    exact List.nodup_reverse.2 h
  refine Option.ext fun value => ?_
  rw [find?_eq_some_iff hreverse, find?_eq_some_iff h, List.mem_reverse]

/-! ## Where entries come from -/

/-- An insertion adds its own entry only. -/
theorem mem_of_mem_insert {entry : String × α}
    (h : entry ∈ insert table name value) : entry = (name, value) ∨ entry ∈ table := by
  induction table with
  | nil => exact .inl (List.mem_singleton.1 h)
  | cons first rest ih =>
      unfold insert at h
      split at h
      · exact (List.mem_cons.1 h).imp_right (List.mem_cons_of_mem first)
      · split at h
        · exact List.mem_cons.1 h
        · rcases List.mem_cons.1 h with rfl | hrest
          · exact .inr List.mem_cons_self
          · exact (ih hrest).imp_right (List.mem_cons_of_mem first)

/-- A merge makes up no entry. -/
theorem mem_of_mem_merge {entry : String × α}
    (h : entry ∈ merge table newer) : entry ∈ table ∨ entry ∈ newer := by
  induction newer generalizing table with
  | nil => exact .inl h
  | cons first rest ih =>
      rcases ih h with hinsert | hrest
      · rcases mem_of_mem_insert hinsert with rfl | htable
        · exact .inr List.mem_cons_self
        · exact .inl htable
      · exact .inr (List.mem_cons_of_mem first hrest)

/-- A table that is made from entries has no others. -/
theorem mem_of_mem_ofEntries {entries : List (String × α)} {entry : String × α}
    (h : entry ∈ ofEntries entries) : entry ∈ entries := by
  rcases mem_of_mem_merge h with hnil | hmem
  · cases hnil
  · exact hmem

/-- A value that is found is in the table. -/
theorem mem_of_find? (h : table.find? name = some value) : ∃ key, (key, value) ∈ table := by
  obtain ⟨entry, hentry, rfl⟩ := Option.map_eq_some_iff.1 h
  exact ⟨entry.1, List.mem_of_find?_eq_some hentry⟩

/-! ## Order -/

/-- The names of the table increase. -/
def Ordered (table : Named α) : Prop := table.Pairwise fun a b => a.1 < b.1

/-- The empty table is in order. -/
theorem ordered_nil : Ordered ([] : Named α) := List.Pairwise.nil

/-- An insertion keeps the order. -/
theorem Ordered.insert (h : Ordered table) : Ordered (insert table name value) := by
  induction table with
  | nil => exact List.pairwise_singleton _ _
  | cons entry rest ih =>
      obtain ⟨first, held⟩ := entry
      obtain ⟨hfirst, hrest⟩ := List.pairwise_cons.1 h
      unfold Named.insert
      split
      next heq =>
        subst heq
        exact List.pairwise_cons.2 ⟨hfirst, hrest⟩
      next hne =>
        split
        next hlt =>
          refine List.pairwise_cons.2 ⟨fun later hlater => ?_, h⟩
          rcases List.mem_cons.1 hlater with rfl | hmem
          · exact hlt
          · exact String.lt_trans hlt (hfirst later hmem)
        next hnlt =>
          -- the new name belongs behind the first one, and so does all that the rest holds
          have hgt : first < name := lt_of_le_of_ne (not_lt.1 hnlt) (Ne.symm hne)
          refine List.pairwise_cons.2 ⟨fun later hlater => ?_, ih hrest⟩
          have hkey : later.1 ∈ (Named.insert rest name value).keys := List.mem_map_of_mem hlater
          rcases mem_keys_insert.1 hkey with hname | hmem
          · exact hname ▸ hgt
          · obtain ⟨held', hheld'⟩ := mem_keys_iff.1 hmem
            exact hfirst (later.1, held') hheld'

/-- A merge keeps the order. -/
theorem Ordered.merge (h : Ordered table) (newer : Named α) : Ordered (merge table newer) := by
  induction newer generalizing table with
  | nil => exact h
  | cons entry rest ih => exact ih h.insert

/-- An erasure keeps the order. -/
theorem Ordered.erase (h : Ordered table) (name : String) : Ordered (erase table name) :=
  List.Pairwise.filter _ h

/-- A table that is made from entries is in order. -/
theorem ordered_ofEntries (entries : List (String × α)) : Ordered (ofEntries entries) :=
  ordered_nil.merge entries

/-- Among entries that are named differently, those are found that the table has. -/
theorem find?_ofEntries {entries : List (String × α)} (h : (keys entries).Nodup) (key : String) :
    find? (ofEntries entries) key = find? entries key := by
  rw [ofEntries, Named.find?_merge, find?_nil, Option.or_none, find?_reverse h]

/-- A table in order has no key twice. -/
theorem Ordered.nodup_keys (h : Ordered table) : table.keys.Nodup := by
  refine List.pairwise_map.2 (h.imp fun {a b} hlt heq => ?_)
  exact String.lt_irrefl b.1 (heq ▸ hlt)

/-- A merge with an ordered table prefers the entries of that table. -/
theorem Ordered.find?_merge (h : Ordered newer) (table : Named α) (key : String) :
    find? (Named.merge table newer) key = (find? newer key).or (find? table key) := by
  rw [Named.find?_merge, find?_reverse h.nodup_keys]

/-- Ordered tables that answer every look-up alike are equal. -/
theorem Ordered.ext (h : Ordered table) (hother : Ordered other)
    (hfind : ∀ key, find? table key = find? other key) : table = other := by
  have : Std.Irrefl fun a b : String × α => a.1 < b.1 := ⟨fun a => String.lt_irrefl a.1⟩
  have : Std.Antisymm fun a b : String × α => a.1 < b.1 :=
    ⟨fun a b hab hba => absurd hba (String.lt_asymm hab)⟩
  refine List.Pairwise.eq_of_mem_iff h hother fun entry => ?_
  rw [← find?_eq_some_iff h.nodup_keys, ← find?_eq_some_iff hother.nodup_keys, hfind]

/-- An ordered table merged into nothing is the table itself. -/
theorem Ordered.merge_nil (h : Ordered table) : Named.merge [] table = table :=
  (ordered_ofEntries table).ext h fun key => find?_ofEntries h.nodup_keys key

/-- Entries of distinct names make the same table in every order. -/
theorem ofEntries_perm {entries others : List (String × α)} (h : entries.Perm others)
    (hnodup : (keys entries).Nodup) : ofEntries entries = ofEntries others := by
  have hothers : (keys others).Nodup := (h.map _).nodup_iff.1 hnodup
  refine (ordered_ofEntries entries).ext (ordered_ofEntries others) fun key =>
    Option.ext fun value => ?_
  rw [find?_ofEntries hnodup, find?_ofEntries hothers, find?_eq_some_iff hnodup,
    find?_eq_some_iff hothers, h.mem_iff]

/-- Insertions at different names can be made in either order. -/
theorem Ordered.insert_comm (h : Ordered table) {first second : String} {a b : α}
    (hne : first ≠ second) :
    (table.insert first a).insert second b = (table.insert second b).insert first a := by
  refine h.insert.insert.ext h.insert.insert fun key => ?_
  simp only [find?_insert]
  by_cases hfirst : first = key
  · have hsecond : second ≠ key := fun hsecond => hne (hfirst.trans hsecond.symm)
    simp [hfirst, hsecond]
  · simp [hfirst]

end TrackingPlan.Named
