import TrackingPlan.Proofs.Directories
import TrackingPlan.Proofs.ScanOutcome
import TrackingPlan.Proofs.Tables

/-!
# The properties that a scan reports

Of the events of a file that share provider, name, line and function, a scan keeps the first.
`mem_dedupe_iff` says which events are kept, `reports_extend` that the catalog then loses none of
their properties, and `reported_properties` is the main statement: a property is reported under a
name exactly if a first event of that name has it. `second_branch_lost` is a call whose property is
lost, because another branch on its line has the same event.
-/

namespace TrackingPlan

/-! ## First events -/

namespace Event

variable {e a : Event} {events rest : List Event} {seen : List Key}

/-- The event `e` is in the list, and no event before it has its key. -/
def IsFirst (e : Event) (events : List Event) : Prop :=
  ∃ before after, events = before ++ e :: after ∧ ∀ earlier ∈ before, earlier.key ≠ e.key

/-- The first event of its kind is one of the events. -/
theorem IsFirst.mem (h : e.IsFirst events) : e ∈ events := by
  obtain ⟨before, after, rfl, -⟩ := h
  simp

/-- Among no events none is the first. -/
theorem not_isFirst_nil : ¬e.IsFirst [] := fun h => List.not_mem_nil h.mem

/-- The first event of its kind is in front, or comes behind one of another kind. -/
theorem isFirst_cons_iff : e.IsFirst (a :: rest) ↔ e = a ∨ a.key ≠ e.key ∧ e.IsFirst rest := by
  constructor
  · rintro ⟨before, after, hevents, hbefore⟩
    cases before with
    | nil => exact .inl (List.cons.inj hevents).1.symm
    | cons first before =>
        obtain ⟨rfl, hrest⟩ := List.cons.inj hevents
        refine .inr ⟨hbefore a List.mem_cons_self, before, after, hrest, fun earlier hearlier => ?_⟩
        exact hbefore earlier (List.mem_cons_of_mem a hearlier)
  · rintro (rfl | ⟨hne, before, after, rfl, hbefore⟩)
    · exact ⟨[], rest, rfl, by simp⟩
    · refine ⟨a :: before, after, rfl, fun earlier hearlier => ?_⟩
      rcases List.mem_cons.1 hearlier with rfl | hmem
      · exact hne
      · exact hbefore earlier hmem

/-- Every event has a first one with its key. -/
theorem exists_isFirst (h : e ∈ events) :
    ∃ first : Event, first.IsFirst events ∧ first.key = e.key := by
  induction events with
  | nil => cases h
  | cons a rest ih =>
      by_cases hkey : a.key = e.key
      · exact ⟨a, isFirst_cons_iff.2 (.inl rfl), hkey⟩
      · have hrest : e ∈ rest := by
          rcases List.mem_cons.1 h with rfl | hmem
          · exact absurd rfl hkey
          · exact hmem
        obtain ⟨first, hfirst, hsame⟩ := ih hrest
        exact ⟨first, isFirst_cons_iff.2 (.inr ⟨hsame ▸ hkey, hfirst⟩), hsame⟩

/-- What is kept are the first events with keys that were not seen before. -/
theorem mem_dedupeFrom_iff : e ∈ dedupeFrom seen events ↔ e.key ∉ seen ∧ e.IsFirst events := by
  induction events generalizing seen with
  | nil => simp [dedupeFrom, not_isFirst_nil]
  | cons a rest ih =>
      rw [dedupeFrom, isFirst_cons_iff]
      split
      next hseen =>
        rw [ih]
        refine and_congr_right fun hnew => ?_
        have hne : a.key ≠ e.key := fun hkey => hnew (hkey ▸ hseen)
        have hother : e ≠ a := fun heq => hne (heq ▸ rfl)
        simp [hne, hother]
      next hnew =>
        rw [List.mem_cons, ih, List.mem_cons, not_or]
        constructor
        · rintro (rfl | ⟨⟨hne, hunseen⟩, hfirst⟩)
          · exact ⟨hnew, .inl rfl⟩
          · exact ⟨hunseen, .inr ⟨Ne.symm hne, hfirst⟩⟩
        · rintro ⟨hunseen, rfl | ⟨hne, hfirst⟩⟩
          · exact .inl rfl
          · exact .inr ⟨⟨Ne.symm hne, hunseen⟩, hfirst⟩

/-- Dropping repetitions keeps exactly the first events. -/
theorem mem_dedupe_iff : e ∈ dedupe events ↔ e.IsFirst events := by
  rw [dedupe, mem_dedupeFrom_iff]
  simp

/-- The event `e` has that name, and a property with that key. -/
def HasProperty (e : Event) (name key : String) : Prop := e.name = name ∧ key ∈ e.properties.keys

/-- No event has a property that an earlier one with its key has not. -/
def RepeatsOnly (events : List Event) : Prop :=
  events.Pairwise fun a b => a.key = b.key → b.properties.keys ⊆ a.properties.keys

/-- Where repetitions bring nothing new, the first events have all properties. -/
theorem RepeatsOnly.exists_isFirst_iff {name key : String} (h : RepeatsOnly events) :
    (∃ e : Event, e.IsFirst events ∧ e.HasProperty name key) ↔
      ∃ e ∈ events, e.HasProperty name key := by
  constructor
  · rintro ⟨e, hfirst, hproperty⟩
    exact ⟨e, hfirst.mem, hproperty⟩
  · rintro ⟨e, he, hname, hkey⟩
    obtain ⟨first, hfirst, hsame⟩ := exists_isFirst he
    refine ⟨first, hfirst, (congrArg Key.name hsame).trans hname, ?_⟩
    obtain ⟨before, after, rfl, hbefore⟩ := hfirst
    -- an event with this key stands at the first one or behind it
    rcases List.mem_append.1 he with hmem | hmem
    · exact absurd hsame.symm (hbefore e hmem)
    · rcases List.mem_cons.1 hmem with rfl | hmem
      · exact hkey
      · obtain ⟨-, hlater, -⟩ := List.pairwise_append.1 h
        exact (List.pairwise_cons.1 hlater).1 e hmem hsame hkey

end Event

/-! ## Catalogs -/

namespace Catalog

variable {root : Path} {catalog : Catalog} {e : Event} {events : List Event} {name key : String}

/-- The entry at that name has a property with that key. -/
def Reports (catalog : Catalog) (name key : String) : Prop :=
  ∃ entry, catalog.find? name = some entry ∧ key ∈ entry.properties.keys

/-- A property is reported if it was before or is one of the event that is added. -/
theorem reports_add :
    (add root catalog e).Reports name key ↔ catalog.Reports name key ∨ e.HasProperty name key := by
  have hentry :
    ∀ entry : Entry, key ∈ (addTo entry (implementation root e) e.properties).properties.keys ↔
      key ∈ entry.properties.keys ∨ key ∈ e.properties.keys := fun entry => Named.mem_keys_merge
  unfold Reports add Event.HasProperty
  rw [Named.find?_insert]
  by_cases hname : e.name = name
  · subst hname
    cases hheld : catalog.find? e.name with
    | none =>
        have hnone : key ∉ Named.keys ([] : Properties) := List.not_mem_nil
        simp [hentry, hnone]
    | some held => simp [hentry]
  · simp [hname]

/-- Adding events adds their properties under their names. -/
theorem reports_extend : (extend root catalog events).Reports name key ↔
    catalog.Reports name key ∨ ∃ e ∈ events, e.HasProperty name key := by
  induction events generalizing catalog with
  | nil => simp [extend]
  | cons e rest ih =>
      have hcons : extend root catalog (e :: rest) = extend root (add root catalog e) rest := rfl
      rw [hcons, ih, reports_add, or_assoc]
      simp [or_and_right, exists_or]

end Catalog

/-! ## Scans -/

namespace Scan

variable {root : Path} {analyses : List (Except FileFault (List Event))} {name key : String}

/-- An outcome reports the properties of the first events of the files that could be read. -/
theorem reports_outcomeOf : (outcomeOf root analyses).events.Reports name key ↔
    ∃ found, .ok found ∈ analyses ∧ ∃ e : Event, e.IsFirst found ∧ e.HasProperty name key := by
  have hevents : (outcomeOf root analyses).events =
      Catalog.extend root [] ((analyses.filterMap Except.toOption).flatMap Event.dedupe) := by
    rw [Catalog.extend, List.foldl_flatMap]
    rfl
  have hnone : ¬Catalog.Reports [] name key := by simp [Catalog.Reports]
  have hread : ∀ found, found ∈ analyses.filterMap Except.toOption ↔ .ok found ∈ analyses := by
    intro found
    rw [List.mem_filterMap]
    constructor
    · rintro ⟨result, hresult, hfound⟩
      cases result with
      | error fault => cases hfound
      | ok events =>
          cases hfound
          exact hresult
    · exact fun h => ⟨.ok found, h, rfl⟩
  rw [hevents, Catalog.reports_extend]
  simp only [hnone, false_or, List.mem_flatMap, hread, Event.mem_dedupe_iff]
  constructor
  · rintro ⟨e, ⟨found, hfound, hfirst⟩, hproperty⟩
    exact ⟨found, hfound, e, hfirst, hproperty⟩
  · rintro ⟨found, hfound, e, hfirst, hproperty⟩
    exact ⟨e, ⟨found, hfound, hfirst⟩, hproperty⟩

/-- A scan that can start reports a property under a name exactly if, in one of its files, an event
of that name has it that is the first with its provider, name, line and function. Where repetitions
bring no new properties, these are all properties of all events. -/
theorem reported_properties (system : System) (fs : FileSystem) (root : Path) (options : Options) :
    match Signature.readAll options.signatures, fs.tree root with
    | .ok signatures, .ok _ =>
      let files := collect fs (.lenient options.ignore) root
      let around := surroundings fs root signatures files
      ∃ outcome, runOn system fs root options = .ok outcome ∧
        (∀ name key, outcome.events.Reports name key ↔
          ∃ file ∈ files, ∃ found, analysis fs around file = .ok found ∧
            ∃ e : Event, e.IsFirst found ∧ e.HasProperty name key) ∧
        ((∀ file ∈ files, ∀ found, analysis fs around file = .ok found → Event.RepeatsOnly found) →
          ∀ name key, outcome.events.Reports name key ↔
            ∃ file ∈ files, ∃ found, analysis fs around file = .ok found ∧
              ∃ e ∈ found, e.HasProperty name key)
    | _, _ => ∃ e, runOn system fs root options = .error e := by
  cases hsignatures : Signature.readAll options.signatures with
  | error e => exact ⟨.signature e, by simp only [runOn, hsignatures]⟩
  | ok signatures =>
      cases htree : fs.tree root with
      | error fault => exact ⟨.root root fault, by simp only [runOn, hsignatures, htree]⟩
      | ok tree =>
          dsimp -zeta only
          intro files around
          have hreports : ∀ name key,
              (outcomeOf root (files.map (analysis fs around))).events.Reports name key ↔
                ∃ file ∈ files, ∃ found, analysis fs around file = .ok found ∧
                  ∃ e : Event, e.IsFirst found ∧ e.HasProperty name key := by
            intro name key
            rw [reports_outcomeOf]
            constructor
            · rintro ⟨found, hfound, e, hfirst, hproperty⟩
              obtain ⟨file, hfile, heq⟩ := List.mem_map.1 hfound
              exact ⟨file, hfile, found, heq, e, hfirst, hproperty⟩
            · rintro ⟨file, hfile, found, heq, e, hfirst, hproperty⟩
              exact ⟨found, List.mem_map.2 ⟨file, hfile, heq⟩, e, hfirst, hproperty⟩
          refine ⟨_, runOn_eq_outcomeOf hsignatures htree, hreports, fun hrepeats name key => ?_⟩
          rw [hreports]
          refine exists_congr fun file => and_congr_right fun hfile => ?_
          refine exists_congr fun found => and_congr_right fun hfound => ?_
          exact (hrepeats file hfile found hfound).exists_isFirst_iff

/-- Both branches of a condition send an event of the same name. -/
def branchSource : String :=
  "x ? analytics.track('Signup', \x7bplan: 1\x7d) : analytics.track('Signup', \x7bseats: 2\x7d);\n"

/-- A project of one script with such a condition. -/
def branches : FileSystem := ⟨.directory [("a.js", .file branchSource.toUTF8)], []⟩

/-- The second of two branches on one line has the key of the first, so that its property is
lost. -/
theorem second_branch_lost :
    let files := collect branches (.lenient []) ⟨"/"⟩
    let around := surroundings branches ⟨"/"⟩ [] files
    ∃ outcome, run branches ⟨"/"⟩ {} = .ok outcome ∧
      (∃ file ∈ files, ∃ found, analysis branches around file = .ok found ∧
        ∃ e ∈ found, e.HasProperty "Signup" "seats") ∧
      ¬outcome.events.Reports "Signup" "seats" := by
  intro files around
  have hjoin : (Path.mk "/").join ⟨"a.js"⟩ = ⟨"/a.js"⟩ := by cbv
  have hname : Path.IsName "a.js" := by constructor <;> decide
  have htree : branches.tree ⟨"/"⟩ = .ok branches.top := FileSystem.tree_slash rfl
  have hread : branches.read ⟨"/a.js"⟩ = .ok branchSource.toUTF8 :=
    hjoin ▸ FileSystem.read_join hname htree rfl
  have hlanguage : Language.ofPath? ⟨"/a.js"⟩ = some .javaScript :=
    hjoin ▸ Language.ofPath?_join (by decide) hname (by decide) (by cbv)
      (rfl : _ = ['a'] ++ '.' :: ['j', 's'])
      (by decide) (by decide)
  have hfiles : files = [⟨"/a.js"⟩] := by
    have hvisible : isHidden "a.js" = false := by cbv
    have hsources : files = _ :=
      collect_sources htree (by simp [hvisible, FileTree.isFile, hjoin, hlanguage])
    simpa [hjoin, Path.ordered] using hsources
  have hanalysis : analysis branches around ⟨"/a.js"⟩ =
      .ok (Analysis.eventsAlone .javaScript [] ⟨"/a.js"⟩ (Source.ofString branchSource)) :=
    analysis_eq hread hlanguage (by decide)
  set found := Analysis.eventsAlone .javaScript [] ⟨"/a.js"⟩ (Source.ofString branchSource)
  obtain ⟨hall, hkept⟩ : found.map (fun e => (e.name, e.properties.keys)) =
        [("Signup", ["plan"]), ("Signup", ["seats"])] ∧
      (Event.dedupe found).map (fun e => (e.name, e.properties.keys)) = [("Signup", ["plan"])] := by
    decide +kernel
  have hrun : run branches ⟨"/"⟩ {} =
      .ok (outcomeOf ⟨"/"⟩ (files.map (analysis branches around))) := runOn_eq_outcomeOf rfl htree
  refine ⟨_, hrun, ?_, ?_⟩
  · obtain ⟨e, he, hsame⟩ : ∃ e ∈ found, (e.name, e.properties.keys) = ("Signup", ["seats"]) :=
      List.mem_map.1 (hall ▸ by simp)
    obtain ⟨hsignup, hkeys⟩ := Prod.mk.inj hsame
    exact ⟨⟨"/a.js"⟩, by simp [hfiles], found, hanalysis, e, he, hsignup, by simp [hkeys]⟩
  · rw [reports_outcomeOf]
    rintro ⟨found', hfound', e, hfirst, -, hkey⟩
    rw [hfiles, List.map_singleton, List.mem_singleton, hanalysis] at hfound'
    have hfound : found' = found := Except.ok.inj hfound'
    rw [hfound] at hfirst
    have hmem := List.mem_map_of_mem (f := fun e : Event => (e.name, e.properties.keys))
      (Event.mem_dedupe_iff.2 hfirst)
    rw [hkept, List.mem_singleton] at hmem
    rw [(Prod.mk.inj hmem).2] at hkey
    exact absurd hkey (by decide)

end Scan

end TrackingPlan
