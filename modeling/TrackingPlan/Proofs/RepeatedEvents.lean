import TrackingPlan.Proofs.EntryOrder
import TrackingPlan.Proofs.ProjectPlaces

/-!
# Repeated events

Dropping repetitions keeps the first event of each key and nothing else, so that a second time
changes nothing. To a catalog the events that are dropped from one file bring no place that it has
not: `placesByName_add_of_mem` says so of one event and `placesByName_extend_dedupeFrom` of a run.
`repeated_events` is the main statement.
-/

namespace TrackingPlan

/-! ## First events -/

namespace Event

variable {events : List Event} {seen : List Key}

/-- No key is kept twice. -/
theorem nodup_keys_dedupeFrom (seen : List Key) (events : List Event) :
    ((dedupeFrom seen events).map key).Nodup := by
  induction events generalizing seen with
  | nil => exact List.nodup_nil
  | cons e rest ih =>
      rw [dedupeFrom]
      split
      · exact ih seen
      · refine List.nodup_cons.2 ⟨fun hmem => ?_, ih _⟩
        obtain ⟨later, hlater, hkey⟩ := List.mem_map.1 hmem
        have hnew : later.key ∉ e.key :: seen := (mem_dedupeFrom_iff.1 hlater).1
        exact hnew (hkey ▸ List.mem_cons_self)

/-- The first event of a key that was not seen before is the first one that is kept. -/
theorem find?_dedupeFrom {k : Key} (hnew : k ∉ seen) (events : List Event) :
    (dedupeFrom seen events).find? (·.key = k) = events.find? (·.key = k) := by
  induction events generalizing seen with
  | nil => rfl
  | cons e rest ih =>
      rw [dedupeFrom]
      by_cases hkey : e.key = k
      · have hunseen : e.key ∉ seen := fun hseen => hnew (hkey ▸ hseen)
        rw [if_neg hunseen, List.find?_cons_of_pos (by simpa using hkey),
          List.find?_cons_of_pos (by simpa using hkey)]
      · rw [List.find?_cons_of_neg (by simpa using hkey)]
        split
        · exact ih hnew
        · rw [List.find?_cons_of_neg (by simpa using hkey)]
          exact ih fun hseen => (List.mem_cons.1 hseen).elim (Ne.symm hkey) hnew

/-- Events with different keys, none of which was seen before, are all kept. -/
theorem dedupeFrom_eq_self (hnew : ∀ e ∈ events, e.key ∉ seen) (hnodup : (events.map key).Nodup) :
    dedupeFrom seen events = events := by
  induction events generalizing seen with
  | nil => rfl
  | cons e rest ih =>
      obtain ⟨hfirst, hrest⟩ := List.nodup_cons.1 hnodup
      rw [dedupeFrom, if_neg (hnew e List.mem_cons_self)]
      refine congrArg (e :: ·) (ih (fun later hlater hseen => ?_) hrest)
      rcases List.mem_cons.1 hseen with hkey | hseen
      · exact hfirst (hkey ▸ List.mem_map_of_mem hlater)
      · exact hnew later (List.mem_cons_of_mem e hlater) hseen

end Event

/-! ## Places in catalogs -/

/-- A table stays as it is if a value is put in that was there. -/
theorem Named.Ordered.insert_eq_self {α : Type u} {table : Named α} (h : table.Ordered)
    {name : String}
    {value : α} (hfind : table.find? name = some value) : table.insert name value = table := by
  refine h.insert.ext h fun key => ?_
  rw [find?_insert]
  split
  next heq => rw [← heq, hfind]
  next => rfl

namespace Catalog

variable {root file : Path} {catalog other : Catalog} {e : Event} {events : List Event}

/-- `placesByName catalog` lists the names of a catalog in order, each with the places in its
entry. -/
def placesByName (catalog : Catalog) : Named (List Implementation) :=
  Named.mapValues Entry.implementations catalog

/-- The known implementations are the places that are kept for the name. -/
theorem known_eq (catalog : Catalog) (name : String) :
    catalog.known name = (catalog.placesByName.find? name).getD [] := by
  rw [known, placesByName, Named.find?_mapValues]

/-- One event changes the places of its own entry only: its place is added at the end, unless it is
there. -/
theorem placesByName_add (root : Path) (catalog : Catalog) (e : Event) :
    (add root catalog e).placesByName = catalog.placesByName.insert e.name
      (if implementation root e ∈ catalog.known e.name then catalog.known e.name
        else catalog.known e.name ++ [implementation root e]) := by
  have hknown : catalog.known e.name = ((catalog.find? e.name).getD ⟨[], []⟩).implementations := by
    unfold known
    cases catalog.find? e.name <;> rfl
  rw [hknown, placesByName, add, Named.mapValues_insert]
  rfl

/-- Which places are kept depends on those that were kept before. -/
theorem placesByName_add_congr (h : catalog.placesByName = other.placesByName) (e : Event) :
    (add root catalog e).placesByName = (add root other e).placesByName := by
  rw [placesByName_add, placesByName_add, known_eq, known_eq, h]

/-- An event from a place that is known changes no places. -/
theorem placesByName_add_of_mem (hcatalog : catalog.Ordered)
    (hmem : implementation root e ∈ catalog.known e.name) :
    (add root catalog e).placesByName = catalog.placesByName := by
  have hordered : catalog.placesByName.Ordered := List.pairwise_map.2 hcatalog
  obtain ⟨entry, hentry, -⟩ := exists_entry_of_mem_known hmem
  rw [placesByName_add, if_pos hmem]
  refine hordered.insert_eq_self ?_
  rw [known_of_find? hentry, placesByName, Named.find?_mapValues, hentry, Option.map_some]

/-- An event that is added is known under its name. -/
theorem mem_known_add (root : Path) (catalog : Catalog) (e : Event) :
    implementation root e ∈ (add root catalog e).known e.name := by
  rw [known_add]
  by_cases hmem : implementation root e ∈ catalog.known e.name <;> simp [hmem]

/-- What is known stays known when an event is added. -/
theorem known_subset_add (root : Path) (catalog : Catalog) (e : Event) (name : String) :
    catalog.known name ⊆ (add root catalog e).known name := by
  rw [known_add]
  split
  · exact List.subset_append_left _ _
  · exact List.Subset.refl _

/-- In one file, repetitions of an event come from the same place. -/
theorem implementation_eq_of_key {a b : Event} (hfile : a.file = b.file) (hkey : a.key = b.key) :
    implementation root a = implementation root b := by
  simp only [Event.key, Event.Key.mk.injEq] at hkey
  simp only [implementation, hfile, hkey]

/-- Two catalogs with the same places have the same places after a run over the events of one file
and after a run over those that are kept, if the places of what was seen before are known. -/
theorem placesByName_extend_dedupeFrom (hcatalog : catalog.Ordered)
    (hsame : other.placesByName = catalog.placesByName) (hfile : ∀ e ∈ events, e.file = file)
    {seen : List Event.Key}
    (hseen : ∀ e ∈ events, e.key ∈ seen → implementation root e ∈ catalog.known e.name) :
    (extend root other (Event.dedupeFrom seen events)).placesByName =
      (extend root catalog events).placesByName := by
  induction events generalizing catalog other seen with
  | nil => exact hsame
  | cons e rest ih =>
      have hrest : ∀ later ∈ rest, later.file = file :=
        fun later hlater => hfile later (List.mem_cons_of_mem e hlater)
      have hkept : ∀ later ∈ rest, later.key ∈ seen →
          implementation root later ∈ (add root catalog e).known later.name :=
        fun later hlater hkey =>
        known_subset_add root catalog e later.name
          (hseen later (List.mem_cons_of_mem e hlater) hkey)
      have hstep : extend root catalog (e :: rest) = extend root (add root catalog e) rest := rfl
      rw [Event.dedupeFrom, hstep]
      split
      next hold =>
        have hknown := placesByName_add_of_mem hcatalog (hseen e List.mem_cons_self hold)
        exact ih hcatalog.insert (hsame.trans hknown.symm) hrest hkept
      next =>
        show (extend root (add root other e) (Event.dedupeFrom (e.key :: seen) rest)).placesByName
          = _
        refine ih hcatalog.insert (placesByName_add_congr hsame e) hrest fun later hlater hkey => ?_
        rcases List.mem_cons.1 hkey with hkey | hkey
        · -- a repetition of this event has its name and its place
          have hplace : implementation root later = implementation root e :=
            implementation_eq_of_key ((hrest later hlater).trans (hfile e List.mem_cons_self).symm)
              hkey
          have hname : later.name = e.name := congrArg Event.Key.name hkey
          rw [hplace, hname]
          exact mem_known_add root catalog e
        · exact hkept later hlater hkey

end Catalog

namespace Event

/-- What is kept of a list of events stands in its order, has no key twice and the first event of
each key, and has no repetitions of its own. If the events are those of one file, a catalog gets the
same names from it in the same order, with the same places in the same order, as from the whole
list. -/
theorem repeated_events (events : List Event) :
    (dedupe events).Sublist events ∧ ((dedupe events).map key).Nodup ∧
      (∀ k, (dedupe events).find? (·.key = k) = events.find? (·.key = k)) ∧
      dedupe (dedupe events) = dedupe events ∧
      ∀ (root file : Path) (catalog : Catalog), catalog.Ordered → (∀ e ∈ events, e.file = file) →
        (Catalog.extend root catalog (dedupe events)).placesByName =
          (Catalog.extend root catalog events).placesByName := by
  have hnodup := nodup_keys_dedupeFrom [] events
  refine ⟨sublist_dedupe events, hnodup, fun k =>
    ?_, ?_, fun root file catalog hcatalog hfile => ?_⟩
  · exact find?_dedupeFrom (List.not_mem_nil) events
  · exact dedupeFrom_eq_self (fun e _ => List.not_mem_nil) hnodup
  · exact Catalog.placesByName_extend_dedupeFrom hcatalog rfl hfile fun e _ hkey =>
      absurd hkey List.not_mem_nil

/-- A sign-up that is found twice, with other properties, and a login: a catalog that knows the
sign-up from another file has it from two places, in whichever way the three events are added. -/
theorem repeated_events_of_two_signups :
    let signup (file : String) (properties : Properties) : Event :=
      ⟨"Signup", .segment, properties, ⟨file⟩, 1, "join"⟩
    let login : Event := ⟨"Login", .segment, [], ⟨"app/b.js"⟩, 3, "enter"⟩
    let events :=
      [signup "app/b.js" [("plan", .string)], login, signup "app/b.js" [("plan", .number)]]
    let catalog := Catalog.add ⟨"app"⟩ [] (signup "app/a.js" [])
    catalog.Ordered ∧ (∀ e ∈ events, e.file = ⟨"app/b.js"⟩) ∧ (dedupe events).length = 2 ∧
      (Catalog.extend ⟨"app"⟩ catalog (dedupe events)).placesByName =
        (Catalog.extend ⟨"app"⟩ catalog events).placesByName := by
  intro signup login events catalog
  have hcatalog : catalog.Ordered := Named.ordered_nil.insert
  have hfile : ∀ e ∈ events, e.file = ⟨"app/b.js"⟩ := by
    simp [events, signup, login]
  obtain ⟨-, -, -, -, hplaces⟩ := repeated_events events
  exact ⟨hcatalog, hfile, by decide, hplaces ⟨"app"⟩ ⟨"app/b.js"⟩ catalog hcatalog hfile⟩

end Event

end TrackingPlan
