import TrackingPlan.Proofs.ReportedProperties
import TrackingPlan.Proofs.SourceOrder

/-!
# The order of the places of an event

An entry of a catalog lists the places that its event is fired from. `exists_added_extend` says that
adding events appends places in the order of the events, and `exists_parts` that the analyses of
several files add their places one after the other. `places_in_order` is the main statement: the
files follow each other in the order in which they are collected, and the lines of one file do not
decrease.
-/

namespace TrackingPlan

/-- Events without repetitions are some of the events, in their order. -/
theorem Event.sublist_dedupeFrom (seen : List Key) (events : List Event) :
    (dedupeFrom seen events).Sublist events := by
  induction events generalizing seen with
  | nil => exact List.Sublist.slnil
  | cons e rest ih =>
      rw [dedupeFrom]
      split
      · exact (ih seen).cons e
      · exact (ih _).cons_cons e

/-- Dropping repetitions keeps the order of events. -/
theorem Event.sublist_dedupe (events : List Event) : (dedupe events).Sublist events :=
  sublist_dedupeFrom [] events

/-! ## Catalogs -/

namespace Catalog

variable {root : Path} {catalog : Catalog} {name : String} {entry : Entry}

/-- `placesOf root name events` lists the places of the events of that name. -/
def placesOf (root : Path) (name : String) (events : List Event) : List Implementation :=
  (events.filter (·.name = name)).map (implementation root)

/-- `known catalog name` lists the places in the entry of that name, if there is one. -/
def known (catalog : Catalog) (name : String) : List Implementation :=
  ((catalog.find? name).map (·.implementations)).getD []

/-- The known implementations under a name are those of its entry. -/
theorem known_of_find? (h : catalog.find? name = some entry) :
    catalog.known name = entry.implementations := by
  rw [known, h]
  rfl

/-- What is known under a name is in its entry. -/
theorem exists_entry_of_mem_known {site : Implementation} (h : site ∈ catalog.known name) :
    ∃ entry, catalog.find? name = some entry ∧ site ∈ entry.implementations := by
  unfold known at h
  cases hentry : catalog.find? name with
  | none => simp [hentry] at h
  | some entry =>
      rw [hentry] at h
      exact ⟨entry, rfl, h⟩

/-- One event adds its place at the end of its own entry, unless it is there. -/
theorem known_add (root : Path) (catalog : Catalog) (e : Event) (name : String) :
    (add root catalog e).known name =
      if e.name = name ∧ implementation root e ∉ catalog.known name then
        catalog.known name ++ [implementation root e]
      else catalog.known name := by
  unfold known add
  rw [Named.find?_insert]
  by_cases hname : e.name = name
  · subst hname
    cases hheld : catalog.find? e.name with
    | none => simp [addTo]
    | some held =>
        by_cases hmem : implementation root e ∈ held.implementations <;> simp [addTo, hmem]
  · simp [hname]

/-- Adding events appends their places, those of earlier events first, and leaves none out. -/
theorem exists_added_extend (root : Path) (catalog : Catalog) (events : List Event)
    (name : String) :
    ∃ added, (extend root catalog events).known name = catalog.known name ++ added ∧
      added.Sublist (placesOf root name events) ∧
      placesOf root name events ⊆ catalog.known name ++ added := by
  induction events generalizing catalog with
  | nil => exact ⟨[], by simp [extend], List.Sublist.slnil, by simp [placesOf]⟩
  | cons e rest ih =>
      obtain ⟨added, hextend, hsublist, hsubset⟩ := ih (add root catalog e)
      have hcons : extend root catalog (e :: rest) = extend root (add root catalog e) rest := rfl
      rw [hcons, hextend, known_add] at *
      by_cases hname : e.name = name
      · have hplaces : placesOf root name (e :: rest) =
            implementation root e :: placesOf root name rest := by simp [placesOf, hname]
        rw [hplaces]
        by_cases hmem : implementation root e ∈ catalog.known name
        · rw [if_neg (by simp [hmem])] at *
          refine ⟨added, rfl, hsublist.cons _, List.cons_subset.2 ⟨?_, hsubset⟩⟩
          exact List.mem_append_left _ hmem
        · rw [if_pos ⟨hname, hmem⟩, List.append_assoc] at *
          refine ⟨implementation root e :: added, rfl, hsublist.cons_cons _,
            List.cons_subset.2 ⟨by simp, hsubset⟩⟩
      · have hplaces : placesOf root name (e :: rest) = placesOf root name rest := by
          simp [placesOf, hname]
        rw [if_neg (by simp [hname])] at *
        rw [hplaces]
        exact ⟨added, rfl, hsublist, hsubset⟩

end Catalog

/-! ## Scans -/

namespace Scan

variable {root : Path} {name : String}

/-- `foundIn analysis` lists the events that were found, which are none where a file could not be
read. -/
def foundIn (analysis : Except FileFault (List Event)) : List Event := analysis.toOption.getD []

/-- The events of a file that can be read are found in it. -/
theorem foundIn_ok (found : List Event) : foundIn (.ok found) = found := rfl

/-- Analyses add their places one after the other, and leave none out. -/
theorem exists_parts (catalog : Catalog) (analyses : List (Except FileFault (List Event))) :
    let filled := (analyses.filterMap Except.toOption).foldl
      (fun catalog found => Catalog.extend root catalog (Event.dedupe found)) catalog
    ∃ parts, filled.known name = catalog.known name ++ parts.flatten ∧
      List.Forall₂ (fun analysis places =>
        places.Sublist (Catalog.placesOf root name (Event.dedupe (foundIn analysis))))
          analyses parts ∧
      ∀ analysis ∈ analyses,
        Catalog.placesOf root name (Event.dedupe (foundIn analysis)) ⊆ filled.known name := by
  induction analyses generalizing catalog with
  | nil => exact ⟨[], by simp, .nil, by simp⟩
  | cons analysis rest ih =>
      intro filled
      obtain ⟨added, hadded, hsublist, hsubset⟩ :=
        Catalog.exists_added_extend root catalog (Event.dedupe (foundIn analysis)) name
      obtain ⟨parts, hparts, hrelated, hall⟩ :=
        ih (Catalog.extend root catalog (Event.dedupe (foundIn analysis)))
      -- a file that could not be read adds no events
      have hfilled : filled = (rest.filterMap Except.toOption).foldl
          (fun catalog found => Catalog.extend root catalog (Event.dedupe found))
          (Catalog.extend root catalog (Event.dedupe (foundIn analysis))) := by
        cases analysis <;> rfl
      have hknown : filled.known name = catalog.known name ++ (added :: parts).flatten := by
        rw [hfilled, hparts, hadded, List.flatten_cons, List.append_assoc]
      refine ⟨added :: parts, hknown, .cons hsublist hrelated, fun other hother => ?_⟩
      rcases List.mem_cons.1 hother with rfl | hrest
      · rw [hknown, List.flatten_cons, ← List.append_assoc]
        exact List.Subset.trans hsubset (List.subset_append_left _ _)
      · rw [hfilled]
        exact hall other hrest

/-- `treeOf language file source` is the tree that the analysis of a file in `language` looks at. -/
def treeOf (language : Language) (file : Path) (source : Source) : Node :=
  match language with
  | .javaScript => Script.read .javaScript source
  | .typeScript => Script.read (Script.dialectOf file) source
  | .go => Go.read source
  | .python => Python.read source
  | .ruby => Ruby.read source

variable {fs : FileSystem} {around : Surroundings} {project? : Option Project} {language : Language}
  {file : Path} {source : Source}

/-- The events of a file whose tree is laid out have lines that do not decrease. -/
theorem byLine_events (h : (treeOf language file source).LaidOut) :
    Event.ByLine (events fs around project? language file source) := by
  unfold events
  split
  · exact Script.byLine_events h
  · exact Ruby.byLine_events h
  · cases language with
    | javaScript => exact Script.byLine_events h
    | typeScript => exact Script.byLine_events h
    | python => exact Python.byLine_events h
    | ruby => exact Ruby.byLine_events h
    | go => exact Go.byLine_events h

/-- The events of a file are those of that file. -/
theorem file_of_mem_events {e : Event}
    (he : e ∈ events fs around project? language file source) : e.file = file := by
  unfold events at he
  split at he
  · exact Script.file_of_mem_events he
  · exact Ruby.file_of_mem_events he
  · cases language with
    | javaScript => exact Script.file_of_mem_events he
    | typeScript => exact Script.file_of_mem_events he
    | python => exact Python.file_of_mem_events he
    | ruby => exact Ruby.file_of_mem_events he
    | go => exact Go.file_of_mem_events he

/-- The tree of a file, if it can be read, is laid out in its text. -/
def TreeLaidOut (fs : FileSystem) (file : Path) : Prop :=
  ∀ bytes language, fs.read file = .ok bytes → Language.ofPath? file = some language →
    (treeOf language file ⟨bytes⟩).LaidOut

/-- An analysis finds the events of a file, or nothing. -/
theorem foundIn_analysis (fs : FileSystem) (around : Surroundings) (file : Path) :
    foundIn (analysis fs around file) = [] ∨ ∃ bytes language, fs.read file = .ok bytes ∧
      Language.ofPath? file = some language ∧ foundIn (analysis fs around file) =
        events fs around (ownProject? fs around file) language file ⟨bytes⟩ := by
  unfold analysis analyze
  cases hread : fs.read file with
  | error fault => exact .inl rfl
  | ok bytes =>
      cases hlanguage : Language.ofPath? file with
      | none => exact .inl rfl
      | some language => exact .inr ⟨bytes, language, rfl, rfl, rfl⟩

/-- The events that are found in a file are those of that file. -/
theorem file_of_mem_foundIn {e : Event} (he : e ∈ foundIn (analysis fs around file)) :
    e.file = file := by
  rcases foundIn_analysis fs around file with hnone | ⟨bytes, language, -, -, hfound⟩
  · simp [hnone] at he
  · exact file_of_mem_events (hfound ▸ he)

/-- The events that are found in a file that is laid out as a source are in the order of their
lines. -/
theorem byLine_foundIn (h : TreeLaidOut fs file) :
    Event.ByLine (foundIn (analysis fs around file)) := by
  rcases foundIn_analysis fs around file with hnone | ⟨bytes, language, hread, hlanguage, hfound⟩
  · rw [hnone]
    exact List.Pairwise.nil
  · rw [hfound]
    exact byLine_events (h bytes language hread hlanguage)

/-- An event has the place of the first event that it repeats. -/
theorem place_mem_dedupe {e : Event} (he : e ∈ foundIn (analysis fs around file)) :
    Catalog.implementation root e ∈
      Catalog.placesOf root e.name (Event.dedupe (foundIn (analysis fs around file))) := by
  obtain ⟨first, hfirst, hkey⟩ := Event.exists_isFirst he
  obtain ⟨hprovider, hname, hline, hfunction⟩ := Event.Key.mk.inj hkey
  have hfile : first.file = e.file :=
    (file_of_mem_foundIn hfirst.mem).trans (file_of_mem_foundIn he).symm
  refine List.mem_map.2 ⟨first, List.mem_filter.2 ⟨Event.mem_dedupe_iff.2 hfirst, ?_⟩, ?_⟩
  · exact decide_eq_true hname
  · rw [Catalog.implementation, Catalog.implementation, hfile, hline, hfunction, hprovider]

/-- `places` are places of the events named `name` that were found in `file`, in the order of the
events; where the tree of the file is laid out, their lines do not decrease. -/
structure AreListed (fs : FileSystem) (root file : Path) (name : String) (found : List Event)
    (places : List Implementation) : Prop where
  sublist : places.Sublist (Catalog.placesOf root name found)
  path_eq : ∀ place ∈ places, place.path = Path.relative root file
  byLine : TreeLaidOut fs file → places.Pairwise fun a b => a.line ≤ b.line

/-- What the events of a file without repetitions leave in an entry are listed places. -/
theorem areListed_of_sublist {places : List Implementation}
    (h : places.Sublist
      (Catalog.placesOf root name (Event.dedupe (foundIn (analysis fs around file))))) :
    AreListed fs root file name (foundIn (analysis fs around file)) places := by
  have hsublist : places.Sublist (Catalog.placesOf root name (foundIn (analysis fs around file))) :=
    h.trans (((Event.sublist_dedupe _).filter _).map _)
  refine ⟨hsublist, fun place hplace => ?_, fun hlaidOut => List.Pairwise.sublist hsublist ?_⟩
  · obtain ⟨e, he, rfl⟩ := List.mem_map.1 (hsublist.subset hplace)
    rw [Catalog.implementation, file_of_mem_foundIn (List.mem_filter.1 he).1]
  · exact List.pairwise_map.2 ((byLine_foundIn hlaidOut).filter _)

/-- Every language looks at the calls of a file in pre-order and at none twice, so that the events
of a file never go back to an earlier line where its tree is laid out in its text. A scan that can
start lists the places of an event file by file, in the order in which the files are collected, and
leaves none out; where the tree of a file is laid out, the lines of its places do not decrease. -/
theorem places_in_order (system : System) (fs : FileSystem) (root : Path) (options : Options) :
    (∀ tree : Node, VisitsInOrder tree (Script.calls tree) ∧
      VisitsInOrder tree (Python.calls tree) ∧
      VisitsInOrder tree (Ruby.calls tree) ∧ VisitsInOrder tree (Go.calls tree)) ∧
    match Signature.readAll options.signatures, fs.tree root with
    | .ok signatures, .ok _ =>
      let files := collect fs (.lenient options.ignore) root
      let around := surroundings fs root signatures files
      (∀ file ∈ files, TreeLaidOut fs file → Event.ByLine (foundIn (analysis fs around file))) ∧
      ∃ outcome, runOn system fs root options = .ok outcome ∧
        (∀ name entry, outcome.events.find? name = some entry →
          ∃ parts, entry.implementations = parts.flatten ∧ List.Forall₂ (fun file places =>
            AreListed fs root file name (foundIn (analysis fs around file)) places) files parts) ∧
        ∀ file ∈ files, ∀ e ∈ foundIn (analysis fs around file), ∃ entry,
          outcome.events.find? e.name = some entry ∧
            Catalog.implementation root e ∈ entry.implementations
    | _, _ => ∃ e, runOn system fs root options = .error e := by
  refine ⟨fun tree => ⟨Script.visitsInOrder_calls tree, Python.visitsInOrder_calls tree,
    Ruby.visitsInOrder_calls tree, Go.visitsInOrder_calls tree⟩, ?_⟩
  cases hsignatures : Signature.readAll options.signatures with
  | error e => exact ⟨.signature e, by simp only [runOn, hsignatures]⟩
  | ok signatures =>
      cases htree : fs.tree root with
      | error fault => exact ⟨.root root fault, by simp only [runOn, hsignatures, htree]⟩
      | ok tree =>
          dsimp -zeta only
          intro files around
          refine ⟨fun file _ => byLine_foundIn, _, runOn_eq_outcomeOf hsignatures htree,
            fun name entry hentry => ?_, fun file hfile e he => ?_⟩
          · obtain ⟨parts, hparts, hrelated, -⟩ :=
              @exists_parts root name [] (files.map (analysis fs around))
            refine ⟨parts, (Catalog.known_of_find? hentry).symm.trans hparts, ?_⟩
            refine (List.forall₂_map_left_iff.1 hrelated).imp fun file places hplaces => ?_
            exact areListed_of_sublist hplaces
          · obtain ⟨parts, -, -, hall⟩ :=
              @exists_parts root e.name [] (files.map (analysis fs around))
            exact Catalog.exists_entry_of_mem_known
              (hall _ (List.mem_map_of_mem hfile) (place_mem_dedupe he))

/-- A script that signs up twice, the first time with a login inside the call. -/
def signupScript : String :=
  "analytics.track('Signup', \x7bplan: 1, via: analytics.track('Login')\x7d);\n" ++
    "analytics.track('Signup', \x7bplan: 2\x7d);\n"

/-- The entries of a directory with that script, and with a program that signs up as well. -/
def signupFiles : List (String × FileTree) :=
  [("a.js", .file signupScript.toUTF8), ("b.py", .file "\nanalytics.track('u', 'Signup')\n".toUTF8)]

/-- A project of that directory. -/
def signups : FileSystem := ⟨.directory signupFiles, []⟩

/-- Both trees are laid out, so that the places of the sign-ups are listed by file and line. -/
theorem places_in_order_of_signups :
    let files := collect signups (.lenient []) ⟨"/"⟩
    let around := surroundings signups ⟨"/"⟩ [] files
    (∀ file ∈ files, TreeLaidOut signups file) ∧
    ∃ outcome entry, run signups ⟨"/"⟩ {} = .ok outcome ∧
      outcome.events.find? "Signup" = some entry ∧ entry.implementations ≠ [] ∧
      ∃ parts, entry.implementations = parts.flatten ∧ List.Forall₂ (fun file places =>
        places.Sublist (Catalog.placesOf ⟨"/"⟩ "Signup" (foundIn (analysis signups around file))) ∧
          places.Pairwise fun a b => a.line ≤ b.line) files parts := by
  intro files around
  have htree : signups.tree ⟨"/"⟩ = .ok (.directory signupFiles) := FileSystem.tree_slash rfl
  have hscript : Path.IsName "a.js" := by constructor <;> decide
  have hprogram : Path.IsName "b.py" := by constructor <;> decide
  have hjavaScript : Language.ofPath? ((Path.mk "/").join ⟨"a.js"⟩) = some .javaScript :=
    Language.ofPath?_join (by decide) hscript (by decide) (by cbv)
      (rfl : _ = ['a'] ++ '.' :: ['j', 's'])
      (by decide) (by decide)
  have hpython : Language.ofPath? ((Path.mk "/").join ⟨"b.py"⟩) = some .python :=
    Language.ofPath?_join (by decide) hprogram (by decide) (by cbv)
      (rfl : _ = ['b'] ++ '.' :: ['p', 'y'])
      (by decide) (by decide)
  have hfiles :
      files = Path.ordered [(Path.mk "/").join ⟨"a.js"⟩, (Path.mk "/").join ⟨"b.py"⟩] := by
    refine collect_sources htree fun entry hentry => ?_
    rcases List.mem_pair.1 hentry with rfl | rfl
    · exact ⟨by cbv, rfl, by rw [hjavaScript]; rfl⟩
    · exact ⟨by cbv, rfl, by rw [hpython]; rfl⟩
  obtain ⟨hscriptLaidOut, hviews⟩ :
      (treeOf .javaScript ((Path.mk "/").join ⟨"a.js"⟩) ⟨signupScript.toUTF8⟩).LaidOut ∧
        (Analysis.eventsAlone .javaScript [] ((Path.mk "/").join ⟨"a.js"⟩)
          ⟨signupScript.toUTF8⟩).map
          (fun e => (e.name, e.line)) = [("Signup", 1), ("Login", 1), ("Signup", 2)] := by
    decide +kernel
  have hlaidOut : ∀ file ∈ files, TreeLaidOut signups file := by
    intro file hfile bytes language hbytes hlanguage
    rw [hfiles, Path.mem_ordered, List.mem_pair] at hfile
    rcases hfile with rfl | rfl
    · obtain rfl := Except.ok.inj ((FileSystem.read_join hscript htree rfl).symm.trans hbytes)
      obtain rfl := Option.some.inj (hjavaScript.symm.trans hlanguage)
      exact hscriptLaidOut
    · obtain rfl := Except.ok.inj ((FileSystem.read_join hprogram htree rfl).symm.trans hbytes)
      obtain rfl := Option.some.inj (hpython.symm.trans hlanguage)
      decide +kernel
  have hplaces := places_in_order {} signups ⟨"/"⟩ {}
  rw [htree] at hplaces
  obtain ⟨-, -, outcome, houtcome, hparts, hcomplete⟩ := hplaces
  have hfirst : (Path.mk "/").join ⟨"a.js"⟩ ∈ files := by
    rw [hfiles, Path.mem_ordered]
    exact List.mem_cons_self
  have hfound : foundIn (analysis signups around ((Path.mk "/").join ⟨"a.js"⟩)) =
      Analysis.eventsAlone .javaScript [] ((Path.mk "/").join ⟨"a.js"⟩) ⟨signupScript.toUTF8⟩ := by
    rw [analysis_eq (FileSystem.read_join hscript htree rfl) hjavaScript (by decide), foundIn_ok,
      events_eq_eventsAlone (by decide)]
    rfl
  obtain ⟨e, he, hview⟩ := List.mem_map.1 (hviews ▸ List.mem_cons_self)
  obtain ⟨entry, hentry, hplace⟩ := hcomplete _ hfirst e (hfound ▸ he)
  rw [(Prod.mk.inj hview).1] at hentry
  obtain ⟨parts, hflatten, hlisted⟩ := hparts "Signup" entry hentry
  refine ⟨hlaidOut, outcome, entry, houtcome, hentry, List.ne_nil_of_mem hplace, parts,
    hflatten, ?_⟩
  refine ((List.forall₂_and_left _ _).2 ⟨hlaidOut, hlisted⟩).imp fun file places hfile => ?_
  exact ⟨hfile.2.sublist, hfile.2.byLine hfile.1⟩

end Scan

end TrackingPlan
