import TrackingPlan.Document.Records
import TrackingPlan.Proofs.CanonicalSchemas

/-!
# Schemas as documents

Whatever a document stands for is canonical (`canonical_of_ofDocument?`), and the canonical schemas
are those that their own documents stand for (`ofDocument?_document_iff`). `ofDocument?_map_congr`
says which entries of a map count, and `ofEntries_ofDocuments?_perm` that named documents may stand
in any order.
-/

namespace TrackingPlan

namespace Primitive

/-- A type that is no label of a known name is known by its name. -/
theorem ofName_name {type : Primitive} (h : ∀ text, type = .label text → text ∉ knownNames) :
    ofName type.name = type := by
  cases type with
  | string | number | boolean | null | any => rfl
  | label text =>
      have hunknown := h text rfl
      simp only [knownNames, List.mem_cons, List.not_mem_nil, or_false, not_or] at hunknown
      obtain ⟨hstring, hnumber, hboolean, hnull, hany⟩ := hunknown
      simp only [name, ofName, hstring, hnumber, hboolean, hnull, hany, if_false]

end Primitive

namespace Schema

variable {outermost : Bool} {d : Document} {s : Schema} {fields : List (String × Schema)}
  {entries : List (String × Document)}

/-! ## Reading -/

/-- A document is read by its kind. -/
theorem ofDocument?_map (outermost : Bool) (entries : List (String × Document)) :
    ofDocument? outermost (.map entries) =
      match (entries.lookup "kind").bind (Kind.ofDocument? outermost) with
      | some .primitive =>
        match entries.lookup "type" with
        | some (.text name) => some (label name)
        | _ => none
      | some .array =>
          (entries.lookup "items").bind fun items => (ofDocument? false items).map .array
      | some .object =>
        match entries.lookup "fields" with
        | some (.map fields) =>
          (ofDocuments? false fields).map fun fs => .object (Named.ofEntries fs)
        | _ => none
      | none => none := by
  rw [ofDocument?]
  cases (entries.lookup "kind").bind (Kind.ofDocument? outermost) with
  | none => rfl
  | some kind =>
      cases kind with
      | primitive => rfl
      | array => cases entries.lookup "items" <;> rfl
      | object =>
          cases entries.lookup "fields" with
          | none => rfl
          | some d => cases d <;> rfl

/-- What is read is canonical. The induction is the one of the two readers, of a document and of
named documents. -/
theorem canonical_read :
    (∀ outermost d s, ofDocument? outermost d = some s → s.Canonical) ∧
    ∀ outermost entries fields, ofDocuments? outermost entries = some fields →
      ∀ field ∈ fields, field.2.Canonical := by
  apply ofDocument?.mutual_induct
    (fun outermost d => ∀ s, ofDocument? outermost d = some s → s.Canonical)
    (fun outermost entries => ∀ fields, ofDocuments? outermost entries = some fields →
      ∀ field ∈ fields, field.2.Canonical)
  case case1 =>
    intro outermost entries hkind name htype s h
    rw [ofDocument?_map, hkind, htype] at h
    obtain rfl := Option.some.inj h
    exact canonical_label name
  case case3 =>
    intro outermost entries hkind items hitems ih s h
    rw [ofDocument?_map, hkind, hitems] at h
    obtain ⟨read, hread, rfl⟩ := Option.map_eq_some_iff.1 h
    exact .array (ih read hread)
  case case5 =>
    intro outermost entries hkind fields hfields ih s h
    rw [ofDocument?_map, hkind, hfields] at h
    obtain ⟨read, hread, rfl⟩ := Option.map_eq_some_iff.1 h
    exact Properties.Canonical.ofEntries (ih read hread)
  case case8 =>
    intro outermost kind name hkind s h
    rw [ofDocument?.eq_def] at h
    simp only [hkind] at h
    obtain rfl := Option.some.inj h
    exact canonical_label name
  case case9 =>
    intro outermost kind items hkind ih s h
    rw [ofDocument?.eq_def] at h
    simp only [hkind] at h
    obtain ⟨read, hread, rfl⟩ := Option.map_eq_some_iff.1 h
    exact .array (ih read hread)
  case case10 =>
    intro outermost kind fields hkind ih s h
    rw [ofDocument?.eq_def] at h
    simp only [hkind] at h
    obtain ⟨read, hread, rfl⟩ := Option.map_eq_some_iff.1 h
    exact Properties.Canonical.ofEntries (ih read hread)
  case case13 =>
    intro outermost fields h
    rw [ofDocuments?] at h
    obtain rfl := Option.some.inj h
    simp
  case case14 =>
    intro outermost name d rest s others hothers hs ihd ihrest fields h
    rw [ofDocuments?, hs, hothers] at h
    obtain rfl := Option.some.inj h
    exact List.forall_mem_cons.2 ⟨ihd s hs, ihrest others hothers⟩
  -- nothing stands for these
  case case4 =>
    intro outermost entries hkind hitems s h
    simp [ofDocument?_map, hkind, hitems] at h
  case case7 =>
    intro outermost entries hkind s h
    simp [ofDocument?_map, hkind] at h
  all_goals
    intros
    simp_all [ofDocument?, ofDocuments?]

/-- The schema that a document stands for is canonical. -/
theorem canonical_of_ofDocument? (h : ofDocument? outermost d = some s) : s.Canonical :=
  canonical_read.1 outermost d s h

/-! ## Writing and reading back -/

/-- Schemas that are known by their own documents are listed by theirs. -/
theorem ofDocuments?_documents
    (h : ∀ field ∈ fields, ofDocument? outermost field.2.document = some field.2) :
    ofDocuments? outermost (documents fields) = some fields := by
  induction fields with
  | nil => rw [documents, ofDocuments?]
  | cons field rest ih =>
      obtain ⟨hfield, hrest⟩ := List.forall_mem_cons.1 h
      rw [documents, ofDocuments?, hfield, ih hrest]

/-- A canonical schema is read back from its document. -/
theorem Canonical.ofDocument?_document (h : s.Canonical) (outermost : Bool) :
    ofDocument? outermost s.document = some s := by
  induction h generalizing outermost with
  | primitive htype =>
      simp [document, ofDocument?_map, Kind.ofDocument?, List.lookup_cons, label,
        Primitive.ofName_name htype]
  | array _ ih => simp [document, ofDocument?_map, Kind.ofDocument?, List.lookup_cons, ih]
  | object hordered _ ih =>
      simp [document, ofDocument?_map, Kind.ofDocument?, List.lookup_cons, Named.ofEntries,
        ofDocuments?_documents fun field hfield => ih field hfield false, hordered.merge_nil]

/-- The canonical schemas are those that their own documents stand for. -/
theorem ofDocument?_document_iff :
    ofDocument? outermost s.document = some s ↔ s.Canonical :=
  ⟨canonical_of_ofDocument?, fun h => h.ofDocument?_document outermost⟩

/-! ## Other spellings -/

/-- Two maps whose entries agree on what a schema has stand for the same schema. -/
theorem ofDocument?_map_congr {others : List (String × Document)}
    (h : ∀ name ∈ ["kind", "type", "items", "fields"], entries.lookup name = others.lookup name) :
    ofDocument? outermost (.map entries) = ofDocument? outermost (.map others) := by
  simp only [List.forall_mem_cons] at h
  obtain ⟨hkind, htype, hitems, hfields, -⟩ := h
  rw [ofDocument?_map, ofDocument?_map, hkind, htype, hitems, hfields]

/-- The fields that are read have the names of the entries. -/
theorem keys_of_ofDocuments? (h : ofDocuments? outermost entries = some fields) :
    Named.keys fields = entries.map (·.1) := by
  induction entries generalizing fields with
  | nil =>
      rw [ofDocuments?] at h
      obtain rfl := Option.some.inj h
      rfl
  | cons entry rest ih =>
      rw [ofDocuments?] at h
      split at h
      next s others _ hothers =>
        obtain rfl := Option.some.inj h
        rw [Named.keys, List.map_cons, List.map_cons, ← ih hothers, Named.keys]
      · cases h

/-- Entries in another order are read as the same fields in another order. -/
theorem ofDocuments?_perm {others : List (String × Document)} (h : entries.Perm others)
    (hread : ofDocuments? outermost entries = some fields) :
    ∃ read, ofDocuments? outermost others = some read ∧ fields.Perm read := by
  induction h generalizing fields with
  | nil => exact ⟨fields, hread, .refl fields⟩
  | cons entry _ ih =>
      rw [ofDocuments?] at hread ⊢
      split at hread
      next s rest hs hrest =>
        obtain rfl := Option.some.inj hread
        obtain ⟨read, hread, hperm⟩ := ih hrest
        rw [hs, hread]
        exact ⟨_, rfl, hperm.cons _⟩
      · cases hread
  | swap first second rest =>
      obtain ⟨firstName, first⟩ := first
      obtain ⟨secondName, second⟩ := second
      simp only [ofDocuments?] at hread ⊢
      cases hfirst : ofDocument? outermost first <;>
        cases hsecond : ofDocument? outermost second <;>
        cases hrest : ofDocuments? outermost rest <;>
        simp only [hfirst, hsecond, hrest, reduceCtorEq] at hread ⊢
      obtain rfl := Option.some.inj hread
      exact ⟨_, rfl, .swap _ _ _⟩
  | trans _ _ ihfirst ihsecond =>
      obtain ⟨middle, hmiddle, hfirst⟩ := ihfirst hread
      obtain ⟨read, hread, hsecond⟩ := ihsecond hmiddle
      exact ⟨read, hread, hfirst.trans hsecond⟩

/-- Named documents of distinct names stand for the same table in every order. -/
theorem ofEntries_ofDocuments?_perm {others : List (String × Document)} (h : entries.Perm others)
    (hnodup : (entries.map (·.1)).Nodup) :
    (ofDocuments? outermost entries).map Named.ofEntries =
      (ofDocuments? outermost others).map Named.ofEntries := by
  cases hread : ofDocuments? outermost entries with
  | some fields =>
      obtain ⟨read, hothers, hperm⟩ := ofDocuments?_perm h hread
      rw [hothers, Option.map_some, Option.map_some,
        Named.ofEntries_perm hperm (keys_of_ofDocuments? hread ▸ hnodup)]
  | none =>
      cases hothers : ofDocuments? outermost others with
      | none => rfl
      | some fields =>
          obtain ⟨read, hentries, -⟩ := ofDocuments?_perm h.symm hothers
          rw [hread] at hentries
          cases hentries

end Schema

end TrackingPlan
