import TrackingPlan.Proofs.EntryOrder
import TrackingPlan.Proofs.EventSchemas
import TrackingPlan.Proofs.ReportedProperties
import TrackingPlan.Proofs.SchemaDocuments

/-!
# Catalogs as documents

A catalog is canonical if its names are in order and its properties are canonical. Such are the
catalogs of scans (`Scan.canonical_of_runOn`), and with lines that can be counted they are those
that their own documents stand for (`Catalog.ofDocument?_document_iff`). `schemas_read_back` gathers
what holds of schemas, catalogs and scans.
-/

namespace TrackingPlan

section

variable {α β : Type} {f : α → Option β} {g : β → α} {xs : List α} {ys : List β} {y : β}

/-- Where each of a list is read back from what is written for it, so is the list. -/
theorem mapM_map_eq_some (h : ∀ y ∈ ys, f (g y) = some y) : (ys.map g).mapM f = some ys := by
  induction ys with
  | nil => rfl
  | cons y rest ih =>
      obtain ⟨hy, hrest⟩ := List.forall_mem_cons.1 h
      rw [List.map_cons, List.mapM_cons, hy, ih hrest]
      rfl

/-- All that a list is read as is read from some member of it. -/
theorem exists_of_mem_mapM (h : xs.mapM f = some ys) (hy : y ∈ ys) : ∃ x ∈ xs, f x = some y := by
  induction xs generalizing ys with
  | nil =>
      obtain rfl := Option.some.inj h
      cases hy
  | cons x rest ih =>
      rw [List.mapM_cons] at h
      obtain ⟨first, hfirst, h⟩ := Option.bind_eq_some_iff.1 h
      obtain ⟨others, hothers, h⟩ := Option.bind_eq_some_iff.1 h
      obtain rfl := Option.some.inj h
      rcases List.mem_cons.1 hy with rfl | hmem
      · exact ⟨x, List.mem_cons_self, hfirst⟩
      · obtain ⟨found, hfound, hread⟩ := ih hothers hmem
        exact ⟨found, List.mem_cons_of_mem x hfound, hread⟩

end

/-! ## Properties -/

namespace Properties

variable {d : Document} {p : Properties}

/-- Properties that are read from a document are canonical. -/
theorem canonical_of_ofDocument? (h : ofDocument? d = some p) : p.Canonical := by
  cases d with
  | map entries =>
      obtain ⟨fields, hfields, rfl⟩ := Option.map_eq_some_iff.1 h
      exact .ofEntries (Schema.canonical_read.2 _ _ _ hfields)
  | _ => cases h

/-- Canonical properties are read back from their document. -/
theorem Canonical.ofDocument?_document (h : p.Canonical) : ofDocument? p.document = some p := by
  have hfields : Schema.ofDocuments? true (Schema.documents p) = some p :=
    Schema.ofDocuments?_documents fun field hfield => (h.of_mem hfield).ofDocument?_document true
  rw [document, ofDocument?, hfields, Option.map_some, Named.ofEntries, h.ordered.merge_nil]

end Properties

/-! ## Places and entries -/

namespace Implementation

variable {d : Document} {i : Implementation}

/-- Lines are counted with 64 bits. -/
def LineFits (i : Implementation) : Prop := i.line < 2 ^ 64

/-- The line of an implementation that is put together from parts fits. -/
theorem lineFits_of_ofParts? {path line function destination : Document}
    (h : ofParts? path line function destination = some i) : i.LineFits := by
  unfold ofParts? at h
  split at h
  · split at h
    next hline =>
      obtain ⟨provider, -, rfl⟩ := Option.map_eq_some_iff.1 h
      obtain ⟨hzero, hlimit⟩ := hline
      exact (Int.toNat_lt hzero).2 hlimit
    · cases h
  · cases h

/-- The line of an implementation that is read from a document fits. -/
theorem lineFits_of_ofDocument? (h : ofDocument? d = some i) : i.LineFits := by
  unfold ofDocument? at h
  split at h
  · exact lineFits_of_ofParts? h
  · split at h
    · exact lineFits_of_ofParts? h
    · cases h

/-- An implementation whose line fits is read back from its document. -/
theorem LineFits.ofDocument?_document (h : i.LineFits) : ofDocument? i.document = some i := by
  have hline : 0 ≤ (i.line : Int) ∧ (i.line : Int) < Int.ofNat (Nat.pow 2 64) :=
    ⟨Int.natCast_nonneg _, Int.ofNat_lt.2 h⟩
  have hread : ofDocument? i.document =
      ofParts? (.text i.path) (.number i.line) (.text i.function) (.text i.destination.name) := rfl
  rw [hread, ofParts?, if_pos hline, Provider.ofDocument?, Provider.ofName?_name]
  rfl

end Implementation

namespace Entry

variable {d : Document} {e : Entry}

/-- An entry of canonical properties, whose places have lines that can be counted. -/
structure IsReadable (e : Entry) : Prop where
  lineFits : ∀ site ∈ e.implementations, site.LineFits
  properties : e.properties.Canonical

/-- An entry that is put together from parts is readable. -/
theorem isReadable_of_ofParts? {implementations properties : Document}
    (h : ofParts? implementations properties = some e) : e.IsReadable := by
  unfold ofParts? at h
  split at h
  · split at h
    next hsites hproperties =>
      obtain rfl := Option.some.inj h
      refine ⟨fun site hsite => ?_, Properties.canonical_of_ofDocument? hproperties⟩
      obtain ⟨written, -, hwritten⟩ := exists_of_mem_mapM hsites hsite
      exact Implementation.lineFits_of_ofDocument? hwritten
    · cases h
  · cases h

/-- An entry that is read from a document is readable. -/
theorem isReadable_of_ofDocument? (h : ofDocument? d = some e) : e.IsReadable := by
  unfold ofDocument? at h
  split at h
  · exact isReadable_of_ofParts? h
  · split at h
    · exact isReadable_of_ofParts? h
    · cases h

/-- A readable entry is read back from its document. -/
theorem IsReadable.ofDocument?_document (h : e.IsReadable) : ofDocument? e.document = some e := by
  have hsites : (e.implementations.map Implementation.document).mapM Implementation.ofDocument? =
      some e.implementations :=
    mapM_map_eq_some fun site hsite => (h.lineFits site hsite).ofDocument?_document
  simp [document, ofDocument?, Document.field?, List.lookup_cons, ofParts?, hsites,
    h.properties.ofDocument?_document]

end Entry

/-! ## Catalogs -/

namespace Catalog

variable {d : Document} {c : Catalog} {root : Path}

/-- The names are in order, and the properties of every entry are canonical. -/
structure Canonical (c : Catalog) : Prop where
  ordered : Named.Ordered c
  properties : ∀ entry ∈ c, entry.2.properties.Canonical

/-- The lines of all places are counted with 64 bits. -/
def LinesFit (c : Catalog) : Prop := ∀ entry ∈ c, ∀ site ∈ entry.2.implementations, site.LineFits

/-- A catalog that is read from a document is canonical, and its lines fit. -/
theorem canonical_of_ofDocument? (h : ofDocument? d = some c) : c.Canonical ∧ c.LinesFit := by
  cases d with
  | map entries =>
      obtain ⟨read, hread, rfl⟩ := Option.map_eq_some_iff.1 h
      have hreadable : ∀ entry ∈ Named.ofEntries read, entry.2.IsReadable := by
        intro entry hentry
        obtain ⟨written, -, hwritten⟩ :=
          exists_of_mem_mapM hread (Named.mem_of_mem_ofEntries hentry)
        obtain ⟨found, hfound, rfl⟩ := Option.map_eq_some_iff.1 hwritten
        exact Entry.isReadable_of_ofDocument? hfound
      exact ⟨⟨Named.ordered_ofEntries read, fun entry hentry =>
        (hreadable entry hentry).properties⟩, fun entry hentry => (hreadable entry hentry).lineFits⟩
  | _ => cases h

/-- A canonical catalog whose lines fit is read back from its document. -/
theorem Canonical.ofDocument?_document (h : c.Canonical) (hlines : c.LinesFit) :
    ofDocument? c.document = some c := by
  have hentries : (c.map fun entry => (entry.1, entry.2.document)).mapM (fun entry =>
      (Entry.ofDocument? entry.2).map (entry.1, ·)) = some c := by
    refine mapM_map_eq_some fun entry hentry => ?_
    have hreadable : entry.2.IsReadable := ⟨hlines entry hentry, h.properties entry hentry⟩
    rw [hreadable.ofDocument?_document]
    rfl
  rw [document, ofDocument?, hentries, Option.map_some, Named.ofEntries, h.ordered.merge_nil]

/-- The catalogs that their own documents stand for. -/
theorem ofDocument?_document_iff :
    ofDocument? c.document = some c ↔ c.Canonical ∧ c.LinesFit :=
  ⟨canonical_of_ofDocument?, fun h => h.1.ofDocument?_document h.2⟩

/-- An event with canonical properties leaves a canonical catalog canonical. -/
theorem Canonical.add (h : c.Canonical) {e : Event} (he : e.properties.Canonical) :
    (add root c e).Canonical := by
  refine ⟨h.ordered.insert, fun entry hentry => ?_⟩
  rcases Named.mem_of_mem_insert hentry with rfl | hmem
  · -- what the entry had before is canonical, and so is what is merged into it
    have hheld : ((c.find? e.name).getD ⟨[], []⟩).properties.Canonical := by
      cases hfound : c.find? e.name with
      | none => exact .nil
      | some held =>
          obtain ⟨name, hmem⟩ := Named.mem_of_find? hfound
          exact h.properties _ hmem
    exact hheld.merge fun _ hfield => he.of_mem hfield
  · exact h.properties entry hmem

/-- Events with canonical properties leave a canonical catalog canonical. -/
theorem Canonical.extend (h : c.Canonical) {events : List Event}
    (hevents : ∀ e ∈ events, e.properties.Canonical) : (extend root c events).Canonical :=
  List.foldlRecOn events _ h fun _ hfilled e he => hfilled.add (hevents e he)

end Catalog

/-! ## Scans -/

namespace Scan

variable {system : System} {fs : FileSystem} {around : Surroundings} {root file : Path}
  {options : Options} {outcome : Outcome}

/-- The events that are found in a file have canonical properties. -/
theorem canonical_of_analysis {found : List Event}
    (h : (analysis fs around file).toOption = some found) {e : Event} (he : e ∈ found) :
    e.properties.Canonical := by
  unfold analysis analyze at h
  split at h
  · cases h
  · split at h
    · cases h
      cases he
    · cases h
      exact canonical_of_mem_events he

/-- The catalog of a scan is canonical. -/
theorem canonical_of_runOn (h : runOn system fs root options = .ok outcome) :
    outcome.events.Canonical := by
  cases hsignatures : Signature.readAll options.signatures with
  | error e =>
      simp only [runOn, hsignatures] at h
      cases h
  | ok signatures =>
      cases htree : fs.tree root with
      | error fault =>
          simp only [runOn, hsignatures, htree] at h
          cases h
      | ok tree =>
          rw [runOn_eq_outcomeOf hsignatures htree] at h
          obtain rfl := Except.ok.inj h
          refine List.foldlRecOn (motive := Catalog.Canonical) _ _ ⟨Named.ordered_nil, by simp⟩
            fun filled hfilled found hfound => hfilled.extend fun e he => ?_
          obtain ⟨analyzed, hanalyzed, hok⟩ := List.mem_filterMap.1 hfound
          obtain ⟨file, -, rfl⟩ := List.mem_map.1 hanalyzed
          exact canonical_of_analysis hok (Event.mem_dedupe_iff.1 he).mem

end Scan

/-! ## Everything that is read back -/

/-- The schemas of single names, of several canonical schemas, of documents and of events are
canonical, and so are the catalogs of scans. What is canonical is read back from its document, a
catalog if its lines can be counted; hence so is whatever was read from any document. Only the
entries that a schema has count in its document, and named schemas may stand in any order. -/
theorem schemas_read_back :
    (∀ name, (Schema.label name).Canonical) ∧
    (∀ members : List Schema, (∀ s ∈ members, s.Canonical) →
      (Schema.union members).Canonical ∧ (Schema.arrayItems members).Canonical) ∧
    (∀ fs around project? language file source,
      ∀ e ∈ Scan.events fs around project? language file source, e.properties.Canonical) ∧
    (∀ system fs root options outcome, Scan.runOn system fs root options = .ok outcome →
      outcome.events.Canonical) ∧
    (∀ outermost s, s.Canonical → Schema.ofDocument? outermost s.document = some s) ∧
    (∀ c : Catalog, c.Canonical → c.LinesFit → Catalog.ofDocument? c.document = some c) ∧
    (∀ outermost d s, Schema.ofDocument? outermost d = some s →
      s.Canonical ∧ Schema.ofDocument? outermost s.document = some s) ∧
    (∀ d c, Catalog.ofDocument? d = some c →
      c.Canonical ∧ Catalog.ofDocument? c.document = some c) ∧
    (∀ outermost (entries others : List (String × Document)),
      (∀ name ∈ ["kind", "type", "items", "fields"], entries.lookup name = others.lookup name) →
      Schema.ofDocument? outermost (.map entries) = Schema.ofDocument? outermost (.map others)) ∧
    ∀ outermost (entries others : List (String × Document)), entries.Perm others →
      (entries.map (·.1)).Nodup →
      (Schema.ofDocuments? outermost entries).map Named.ofEntries =
        (Schema.ofDocuments? outermost others).map Named.ofEntries := by
  refine ⟨Schema.canonical_label,
    fun members hmembers => ⟨Schema.Canonical.union hmembers, Schema.Canonical.arrayItems hmembers⟩,
    fun _ _ _ _ _ _ e he => Scan.canonical_of_mem_events he,
    fun _ _ _ _ _ houtcome => Scan.canonical_of_runOn houtcome,
    fun outermost s hs => hs.ofDocument?_document outermost,
    fun c hc hlines => hc.ofDocument?_document hlines,
    fun outermost d s hs => ?_, fun d c hc => ?_,
    fun outermost entries others hagree => Schema.ofDocument?_map_congr hagree,
    fun outermost entries others hperm hnodup => Schema.ofEntries_ofDocuments?_perm hperm hnodup⟩
  · have hcanonical := Schema.canonical_of_ofDocument? hs
    exact ⟨hcanonical, hcanonical.ofDocument?_document outermost⟩
  · obtain ⟨hcanonical, hlines⟩ := Catalog.canonical_of_ofDocument? hc
    exact ⟨hcanonical, hcanonical.ofDocument?_document hlines⟩

/-- A document of a user, with more than it needs and in another order. -/
def userDocument : Document :=
  .map [("note", .null), ("fields", .map [("name", .map [("type", .text "string"),
    ("kind", .text "primitive")]),
      ("id", .map [("kind", .text "primitive"), ("type", .text "Id")])]),
    ("kind", .text "object")]

/-- The schema of that user. -/
def userSchema : Schema := .object [("id", .label "Id"), ("name", .string)]

/-- A catalog in which every sign-up has that user. -/
def userCatalog : Catalog :=
  [("Signup", ⟨[⟨"a.js", 1, "global", .segment⟩], [("user", userSchema)]⟩)]

/-- The user is read back from the document at hand, from its own document and within a catalog, and
the schemas of a script and of a scan are canonical. -/
theorem schemas_read_back_of_user :
    Schema.ofDocument? true userDocument = some userSchema ∧
    Schema.ofDocument? true userSchema.document = some userSchema ∧
    (Schema.union [userSchema, .null]).Canonical ∧
    Catalog.ofDocument? userCatalog.document = some userCatalog ∧
    (∃ e ∈ Scan.events Scan.signups (Scan.surroundings Scan.signups ⟨"/"⟩ [] []) none .javaScript
      ⟨"/a.js"⟩ ⟨Scan.signupScript.toUTF8⟩, e.properties ≠ [] ∧ e.properties.Canonical) ∧
    (∃ outcome, Scan.run Scan.signups ⟨"/"⟩ {} = .ok outcome ∧ outcome.events.Canonical) ∧
    Schema.ofDocument? true (.map [("note", .null), ("type", .text "Id"),
      ("kind", .text "primitive")]) =
      Schema.ofDocument? true (.map [("kind", .text "primitive"), ("type", .text "Id")]) ∧
    (Schema.ofDocuments? true [("b", Schema.string.document), ("a", userDocument)]).map
      Named.ofEntries =
      (Schema.ofDocuments? true [("a", userDocument), ("b", Schema.string.document)]).map
        Named.ofEntries := by
  obtain ⟨-, hunion, hevents, hscan, hback, hcatalog, hread, hreadCatalog, hagree, hperm⟩ :=
    schemas_read_back
  have huser : Schema.ofDocument? true userDocument = some userSchema := by
    simp [userDocument, userSchema, Schema.ofDocument?_map, Schema.ofDocuments?,
      Schema.Kind.ofDocument?, List.lookup_cons, Named.ofEntries, Named.merge, Named.insert]
    cbv
  obtain ⟨hcanonical, hagain⟩ := hread true userDocument userSchema huser
  have hproperties : Properties.Canonical [("user", userSchema)] :=
    .object (List.pairwise_singleton _ _) (by simpa using hcanonical)
  have hsigned : userCatalog.Canonical :=
    ⟨List.pairwise_singleton _ _, by simpa [userCatalog] using hproperties⟩
  have hlines : userCatalog.LinesFit := by
    simp [userCatalog, Catalog.LinesFit, Implementation.LineFits]
  have htwice := hreadCatalog _ _ (hcatalog userCatalog hsigned hlines)
  have htree : Scan.signups.tree ⟨"/"⟩ = .ok (.directory Scan.signupFiles) :=
    FileSystem.tree_slash rfl
  have hrun : Scan.runOn {} Scan.signups ⟨"/"⟩ {} = .ok _ := Scan.runOn_eq_outcomeOf rfl htree
  have hcalls : (Analysis.eventsAlone .javaScript [] ⟨"/a.js"⟩ ⟨Scan.signupScript.toUTF8⟩).map
      (fun e => e.properties.keys) = [["plan", "via"], [], ["plan"]] := by
    decide +kernel
  obtain ⟨e, he, hkeys⟩ := List.mem_map.1 (hcalls ▸ List.mem_cons_self)
  have hsome : e.properties ≠ [] := by
    intro hnone
    rw [hnone] at hkeys
    cases hkeys
  have hfound := hevents Scan.signups (Scan.surroundings Scan.signups ⟨"/"⟩ [] []) none .javaScript
    ⟨"/a.js"⟩ ⟨Scan.signupScript.toUTF8⟩ e he
  refine ⟨huser, hback true userSchema hcanonical, (hunion _ ?_).1, htwice.2,
    ⟨e, he, hsome, hfound⟩,
    ⟨_, hrun, hscan _ _ _ _ _ hrun⟩, hagree true _ _ ?_, hperm true _ _ (.swap _ _ _) (by decide)⟩
  · simpa using hcanonical
  · simp [List.lookup_cons]

end TrackingPlan
