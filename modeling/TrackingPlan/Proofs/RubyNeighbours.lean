import TrackingPlan.Analysis
import TrackingPlan.Proofs.Directories
import TrackingPlan.Proofs.Priority
import TrackingPlan.Proofs.RubyNames
import TrackingPlan.Proofs.ScanOutcome

/-!
# Ruby constants and their neighbours

A scan reads the constants of all Ruby files of a directory into one table, in which a later file
replaces what an earlier one says. `find?_constantsOfDirectory` says which value that is, and
`constant?_of_scan` that a file of the directory sees it. `names_among_neighbours` is the main
statement: a constant that a file makes itself names its events alike in a scan and alone, unless a
file behind it makes the same constant another value, which `later_neighbour_wins` does.
-/

namespace TrackingPlan

namespace Named

variable {α : Type u}

/-- Of tables that are merged one after the other, the last one with a name says its value. -/
theorem find?_foldl_merge {tables : List (Named α)} (h : ∀ newer ∈ tables, newer.Ordered)
    (table : Named α) (name : String) :
    find? (tables.foldl merge table) name =
      (tables.reverse.findSome? (find? · name)).or (find? table name) := by
  induction tables generalizing table with
  | nil => simp
  | cons newer rest ih =>
      have hnewer := h newer List.mem_cons_self
      rw [List.foldl_cons, ih fun other hother => h other (List.mem_cons_of_mem newer hother),
        hnewer.find?_merge, List.reverse_cons, List.findSome?_append, Option.or_assoc,
        List.findSome?_singleton]

end Named

namespace Ruby

variable {fs : FileSystem} {directory base p q : Path} {name : String}
  {entries : List (String × FileTree)}

/-! ## The constants of a directory -/

/-- `tablesOf fs directory` lists the constants of each Ruby file in `directory`. -/
def tablesOf (fs : FileSystem) (directory : Path) : List Constants :=
  (rubyFiles fs directory).map fun file => Constants.ofTree (read ⟨file.2⟩)

/-- The last file of a directory that makes a constant says its value. -/
theorem find?_constantsOfDirectory (fs : FileSystem) (directory : Path) (name : String) :
    Named.find? (constantsOfDirectory fs directory) name =
      (tablesOf fs directory).reverse.findSome? (Named.find? · name) := by
  have hfold :
      constantsOfDirectory fs directory = (tablesOf fs directory).foldl Named.merge [] := by
    rw [tablesOf, List.foldl_map]
    rfl
  have hordered : ∀ table ∈ tablesOf fs directory, table.Ordered := by
    intro table htable
    obtain ⟨file, -, rfl⟩ := List.mem_map.1 htable
    exact Named.ordered_ofEntries _
  rw [hfold, Named.find?_foldl_merge hordered, Named.find?_nil, Option.or_none]

/-- A file's value of a constant is the last one if no file behind it gives another. -/
theorem findSome?_tablesOf {before after : List (Path × ByteArray)} {file : Path}
    {bytes : ByteArray}
    {value : String} (hfiles : rubyFiles fs directory = before ++ (file, bytes) :: after)
    (hown : Named.find? (Constants.ofTree (read ⟨bytes⟩)) name = some value)
    (hlater : ∀ later ∈ after, ∀ other,
      Named.find? (Constants.ofTree (read ⟨later.2⟩)) name = some other → other = value) :
    (tablesOf fs directory).reverse.findSome? (Named.find? · name) = some value := by
  rw [tablesOf, hfiles, List.map_append, List.map_cons, List.reverse_append, List.reverse_cons,
    List.append_assoc, List.findSome?_append, List.singleton_append, List.findSome?_cons, hown]
  cases hfound : (after.map fun file => Constants.ofTree (read ⟨file.2⟩)).reverse.findSome?
      (Named.find? · name) with
  | none => rfl
  | some other =>
      obtain ⟨table, htable, hother⟩ := List.exists_of_findSome?_eq_some hfound
      obtain ⟨later, hmem, rfl⟩ := List.mem_map.1 (List.mem_reverse.1 htable)
      rw [hlater later hmem other hother]
      rfl

/-- The Ruby files of a directory are found in the same order however its path is spelled. -/
theorem rubyFiles_congr (hnames : ∀ entry ∈ entries, Path.IsName entry.1)
    (hp : fs.tree p = .ok (.directory entries)) (hsame : p.components = q.components) :
    (rubyFiles fs p).map (fun file => (file.1.components, file.2)) =
      (rubyFiles fs q).map fun file => (file.1.components, file.2) := by
  have hptext := FileSystem.text_ne_empty_of_tree hp
  have hqtext := Path.text_ne_empty_congr hsame hptext
  have hq := FileSystem.tree_congr hsame hqtext hp
  have hentries : (entries.filterMap (rubyFile? p)).map (fun file => (file.1.components, file.2)) =
      (entries.filterMap (rubyFile? q)).map fun file => (file.1.components, file.2) := by
    rw [List.map_filterMap, List.map_filterMap]
    refine List.filterMap_congr fun entry hentry => ?_
    have hname := hnames entry hentry
    have hextension : (p.join ⟨entry.1⟩).extension? = (q.join ⟨entry.1⟩).extension? := by
      rw [Path.extension?, Path.extension?, Path.fileName?_join hptext hname,
        Path.fileName?_join hqtext hname]
    have hcomponents := Path.components_join_congr hsame ⟨entry.1⟩
    obtain ⟨name, t⟩ := entry
    cases t with
    | directory below => rfl
    | file bytes =>
        simp only [rubyFile?, hextension]
        split
        · exact congrArg (fun components => some (components, bytes)) hcomponents
        · rfl
  -- the order looks at the components of the paths only
  have hsorted (files : List (Path × ByteArray)) :
      (files.mergeSort fun a b => (Path.compare a.1 b.1).isLE).map
          (fun file => (file.1.components, file.2)) =
        (files.map fun file => (file.1.components, file.2)).mergeSort fun a b =>
          (Path.compare.go a.1 b.1).isLE :=
    List.map_mergeSort fun a _ b _ => rfl
  rw [rubyFiles, rubyFiles, FileSystem.entriesAt, FileSystem.entriesAt, hp, hq, hsorted, hsorted]
  dsimp only [FileTree.entries]
  rw [hentries]

/-- A directory has the same constants however its path is spelled. -/
theorem tablesOf_congr (hnames : ∀ entry ∈ entries, Path.IsName entry.1)
    (hp : fs.tree p = .ok (.directory entries)) (hsame : p.components = q.components) :
    tablesOf fs p = tablesOf fs q := by
  have htables (directory : Path) : tablesOf fs directory =
      ((rubyFiles fs directory).map fun file => (file.1.components, file.2)).map fun file =>
        Constants.ofTree (read ⟨file.2⟩) := by
    rw [List.map_map]
    rfl
  rw [htables p, htables q, rubyFiles_congr hnames hp hsame]

/-! ## The index of a scan -/

/-- Each path is the same as one of the distinct paths. -/
theorem exists_same_of_mem {paths : List Path} {path : Path} (h : path ∈ paths) :
    ∃ kept ∈ distinctPaths paths, kept.same path = true := by
  induction paths using distinctPaths.induct generalizing path with
  | case1 p q rest hsame ih =>
      rw [distinctPaths, if_pos hsame]
      rcases List.mem_cons.1 h with rfl | hrest
      · exact ih List.mem_cons_self
      · rcases List.mem_cons.1 hrest with rfl | hrest
        · -- the path itself is dropped, but its predecessor is the same place
          obtain ⟨kept, hkept, hp⟩ := ih List.mem_cons_self
          exact ⟨kept, hkept, (Path.same_congr hsame kept) ▸ hp⟩
        · exact ih (List.mem_cons_of_mem _ hrest)
  | case2 p q rest hsame ih =>
      rw [distinctPaths, if_neg hsame]
      rcases List.mem_cons.1 h with rfl | hrest
      · exact ⟨_, List.mem_cons_self, Path.same_self _⟩
      · obtain ⟨kept, hkept, hp⟩ := ih hrest
        exact ⟨kept, List.mem_cons_of_mem _ hkept, hp⟩
  | case3 paths hpaths =>
      rw [distinctPaths]
      · exact ⟨path, h, Path.same_self path⟩
      · exact hpaths

/-- From a file, the constants of its own directory are seen first. -/
theorem seenFrom_ofFiles (fs : FileSystem) {files : List Path} {file : Path} (hfile : file ∈ files)
    (hparent : file.parent? = some directory) :
    ∃ kept rest, kept.same directory = true ∧
      (ConstantIndex.ofFiles fs files).seenFrom directory =
        constantsOfDirectory fs kept :: rest := by
  have hdirectory : directory ∈ Path.ordered (files.filterMap Path.parent?) :=
    Path.mem_ordered.2 (List.mem_filterMap.2 ⟨file, hfile, hparent⟩)
  obtain ⟨found, hfound, hsame⟩ := exists_same_of_mem hdirectory
  -- every directory that counts as the own one is the same place
  have hown : ((ConstantIndex.ofFiles fs files).directories.filter (·.1.same directory)) ≠ [] := by
    refine List.ne_nil_of_mem (List.mem_filter.2 ⟨List.mem_map_of_mem hfound, hsame⟩)
  obtain ⟨own, others, hcons⟩ := List.exists_cons_of_ne_nil hown
  obtain ⟨hmem, hkept⟩ := List.mem_filter.1 (hcons ▸ List.mem_cons_self)
  obtain ⟨kept, -, rfl⟩ := List.mem_map.1 hmem
  rw [ConstantIndex.seenFrom, List.partition_eq_filter_filter]
  dsimp only
  rw [hcons]
  exact ⟨kept, _, hkept, rfl⟩

/-! ## Where events take their names from -/

variable {u : Unit} {signatures : List Signature} {path : Path} {call s : Site}

/-- `sentSite? u provider arguments` is the expression that a call of a provider's method takes the
name of its event from. -/
def sentSite? (u : Unit) (provider : Provider) (arguments : List Site) : Option Site :=
  match provider with
  | .segment | .rudderstack | .posthog => (keywords? u arguments).bind (·.lookup "event")
  | .mixpanel => (positional arguments)[1]?
  | .amplitude =>
    ((positional arguments).head?.filter (·.kind = "call")).bind fun made =>
      if (segments? made.node).bind (·.getLast?) = some "new" then
        (keywords? u (argumentsOf made)).bind (·.lookup "event_type")
      else none
  | .snowplow => (keywords? u arguments).bind (·.lookup "action")
  | _ => none

/-- `nameSite? u signatures call` is the expression that `call` takes the name of its event from. -/
def nameSite? (u : Unit) (signatures : List Signature) (call : Site) : Option Site :=
  (segments? call.node).bind fun callee =>
    match Signature.find? signatures callee with
    | some s => (positional (argumentsOf call))[s.eventIndex]?
    | none =>
      (ProviderTable.ruby.lookup? callee).bind (sentSite? u · (argumentsOf call))

/-- Which expression that is does not depend on constants. -/
theorem nameSite?_congr {v : Unit} (h : u.hashes = v.hashes) :
    nameSite? u signatures call = nameSite? v signatures call := by
  have hhash : u.resolveHash? = v.resolveHash? := by
    funext s
    rw [Unit.resolveHash?, Unit.resolveHash?, h]
  have hkeywords : keywords? u = keywords? v := by
    funext arguments
    rw [keywords?, keywords?, hhash]
  have hsent : sentSite? u = sentSite? v := by
    funext provider arguments
    unfold sentSite?
    rw [hkeywords]
  rw [nameSite?, nameSite?, hsent]

/-- Keyword arguments give the name that stands under the key for the event. -/
theorem name_fromKeywords? {keys : Keys} {keywords : List (String × Site)} :
    (fromKeywords? u keys keywords).map Prod.fst =
      (keywords.lookup keys.event).bind (eventName? u) := by
  simp only [fromKeywords?, bind, pure]
  cases (keywords.lookup keys.event).bind (eventName? u) <;> rfl

/-- A provider is sent the name of the argument that is for it. -/
theorem name_sent? {provider : Provider} {arguments : List Site} :
    (sent? u provider arguments).map Prod.fst =
      (sentSite? u provider arguments).bind (eventName? u) := by
  have hkeywords (keys : Keys) (arguments : List Site) :
      ((keywords? u arguments).bind (fromKeywords? u keys)).map Prod.fst =
        ((keywords? u arguments).bind (·.lookup keys.event)).bind (eventName? u) := by
    cases keywords? u arguments with
    | none => rfl
    | some keywords => exact name_fromKeywords?
  cases provider with
  | segment | rudderstack =>
      exact hkeywords ⟨"event", "properties", ["user_id", "anonymous_id"]⟩ arguments
  | posthog => exact hkeywords ⟨"event", "properties", ["distinct_id"]⟩ arguments
  | mixpanel =>
      simp only [sent?, sentSite?, bind]
      cases (positional arguments)[1]?.bind (eventName? u) <;> rfl
  | amplitude =>
      simp only [sent?, sentSite?, bind]
      cases (positional arguments).head?.filter (·.kind = "call") with
      | none => rfl
      | some made =>
          rw [Option.bind_some, Option.bind_some]
          cases segments? made.node with
          | none => rfl
          | some maker =>
              rw [Option.bind_some, Option.bind_some]
              split
              · exact hkeywords ⟨"event_type", "event_properties", ["user_id"]⟩ (argumentsOf made)
              · rfl
  | snowplow =>
      simp only [sent?, sentSite?, bind]
      cases keywords? u arguments with
      | none => rfl
      | some keywords =>
          rw [Option.bind_some, Option.bind_some]
          cases (keywords.lookup "action").bind (eventName? u) <;> rfl
  | mparticle | pendo | heap | datadog | gtm | googleAnalytics | custom => rfl

/-- The name of an event is the text of the expression that it is taken from. -/
theorem name_event? : (event? u signatures path call).map (·.name) =
    (nameSite? u signatures call).bind (eventName? u) := by
  unfold event? payload? nameSite?
  rw [Option.map_map]
  cases segments? call.node with
  | none => rfl
  | some callee =>
      simp only [bind, pure, Option.bind_some]
      cases Signature.find? signatures callee with
      | some signature =>
          dsimp only
          rw [← name_custom?]
          cases custom? u signature (argumentsOf call) <;> rfl
      | none =>
          cases ProviderTable.ruby.lookup? callee with
          | none => rfl
          | some provider =>
              rw [Option.bind_some, Option.bind_some, ← name_sent?]
              cases sent? u provider (argumentsOf call) <;> rfl

/-! ## The innermost name -/

/-- `fullNames s` lists the full names that the constant at `s` may stand for, the innermost
first. -/
def fullNames (s : Site) : List String :=
  candidates s.text (s.ancestors.filterMap containerName?).reverse

/-- Of the names, `name` is the first that one of the tables has. -/
def IsInnermost (tables : List Constants) (names : List String) (name : String) : Prop :=
  ∃ before after, names = before ++ name :: after ∧
    (∃ table ∈ tables, name ∈ Named.keys table) ∧
    ∀ earlier ∈ before, ∀ table ∈ tables, earlier ∉ Named.keys table

variable {tables rest : List Constants} {table : Constants} {names : List String}
  {index : ConstantIndex}
  {value : String}

/-- A search through the names stops at the innermost one, if that is found. -/
theorem IsInnermost.findSome?_eq (h : IsInnermost tables names name) {find : String → Option String}
    (hfound : find name = some value)
    (hnone : ∀ earlier, (∀ table ∈ tables, earlier ∉ Named.keys table) → find earlier = none) :
    names.findSome? find = some value := by
  obtain ⟨before, after, rfl, -, hbefore⟩ := h
  have hskipped : before.findSome? find = none :=
    List.findSome?_eq_none_iff.2 fun earlier hearlier => hnone earlier (hbefore earlier hearlier)
  rw [List.findSome?_append, hskipped, List.findSome?_cons, hfound]
  rfl

/-- Nothing is found under a name that is no key. -/
theorem find?_eq_none_of_not_mem_keys (h : name ∉ Named.keys table) :
    Named.find? table name = none := by
  refine Option.eq_none_iff_forall_ne_some.2 fun value hvalue => h ?_
  exact Named.mem_keys_iff_find?.2 ⟨value, hvalue⟩

/-- Without an index, the innermost name has the value that the file itself gives it. -/
theorem constant?_of_own (hindex : u.index = none)
    (hinnermost : IsInnermost tables (fullNames s) name)
    (hown : u.constants ∈ tables) (hvalue : Named.find? u.constants name = some value) :
    u.constant? s = some value := by
  have hfound : (fullNames s).findSome? (Named.find? u.constants) = some value := by
    refine hinnermost.findSome?_eq hvalue fun earlier hearlier => ?_
    exact find?_eq_none_of_not_mem_keys (hearlier _ hown)
  rw [Unit.constant?, hindex]
  exact hfound

/-- In an index, the innermost name has the value that the table of the directory gives it. -/
theorem constant?_of_index (hindex : u.index = some index)
    (hseen : index.seenFrom u.directory = table :: rest)
    (htable : ∀ name, Named.find? table name = tables.reverse.findSome? (Named.find? · name))
    (hinnermost : IsInnermost tables (fullNames s) name)
    (hvalue : tables.reverse.findSome? (Named.find? · name) = some value) :
    u.constant? s = some value := by
  have hfound : (fullNames s).findSome? (Named.find? table) = some value := by
    refine hinnermost.findSome?_eq ((htable name).trans hvalue) fun earlier hearlier => ?_
    rw [htable]
    refine List.findSome?_eq_none_iff.2 fun other hother => ?_
    exact find?_eq_none_of_not_mem_keys (hearlier other (List.mem_reverse.1 hother))
  have hresolve : index.resolve? u.directory s.text (s.ancestors.filterMap containerName?).reverse =
      some value := by
    rw [ConstantIndex.resolve?, hseen, List.findSome?_cons]
    simp only [fullNames] at hfound
    rw [hfound]
    rfl
  rw [Unit.constant?, hindex, Option.bind_some, hresolve]
  rfl

/-- A constant names the event by its value. -/
theorem eventName?_of_constant? (hkind : s.kind = "constant" ∨ s.kind = "scope_resolution")
    (h : u.constant? s = some value) : eventName? u s = some value := by
  have hliteral : literal? s.node = none := by
    have hnode : s.node.kind = s.kind := rfl
    unfold literal?
    rcases hkind with h | h <;> simp [hnode, h]
  rw [eventName?, hliteral, Option.none_or, if_pos (by simpa using hkind), h]

/-! ## Scans -/

/-- A scan reads a Ruby file with the index of the directories of all its Ruby files. -/
theorem analysis_eq (signatures : List Signature) (root : Path) {file : Path} {files : List Path}
    {bytes : ByteArray} (hfile : file ∈ files)
    (hruby : Language.ofPath? file = some .ruby) (hread : fs.read file = .ok bytes) :
    let around := Scan.surroundings fs root signatures files
    around.constants = some (.ofFiles fs (files.filter (Scan.isIn .ruby))) ∧
      Scan.analysis fs around file =
        .ok (events around.constants signatures file (read ⟨bytes⟩)) := by
  intro around
  have hin : file ∈ files.filter (Scan.isIn .ruby) :=
    List.mem_filter.2 ⟨hfile, by simpa [Scan.isIn] using hruby⟩
  constructor
  · have hsome : (files.filter (Scan.isIn .ruby)).isEmpty = false := by
      simpa using List.ne_nil_of_mem hin
    show (if (files.filter (Scan.isIn .ruby)).isEmpty then none else _) = _
    rw [hsome]
    rfl
  · exact Scan.analysis_eq hread hruby (by decide)

/-- A constant in a file of a scan has the value that the last file of the directory gives its
innermost name. -/
theorem constant?_of_scan {files : List Path} {tree : Node} {t : FileTree} {constant : String}
    (hnames : ∀ entry ∈ entries, Path.IsName entry.1)
    (hbase : fs.tree base = .ok (.directory entries)) (hentry : (name, t) ∈ entries)
    (hfile : base.join ⟨name⟩ ∈ files) (hruby : Language.ofPath? (base.join ⟨name⟩) = some .ruby)
    (hinnermost : IsInnermost (tablesOf fs base) (fullNames s) constant)
    (hvalue : (tablesOf fs base).reverse.findSome? (Named.find? · constant) = some value) :
    (Unit.ofTree (some (.ofFiles fs (files.filter (Scan.isIn .ruby)))) (base.join ⟨name⟩)
      tree).constant?
      s = some value := by
  obtain ⟨parent, hparent, hcomponents⟩ :=
    Path.parent?_join (FileSystem.text_ne_empty_of_tree hbase) (hnames (name, t) hentry)
  have hin : base.join ⟨name⟩ ∈ files.filter (Scan.isIn .ruby) :=
    List.mem_filter.2 ⟨hfile, by simpa [Scan.isIn] using hruby⟩
  obtain ⟨kept, rest, hkept, hseen⟩ := seenFrom_ofFiles fs hin hparent
  have hsame : base.components = kept.components := by
    rw [Path.same, decide_eq_true_eq] at hkept
    rw [hkept, hcomponents]
  have htable : ∀ other, Named.find? (constantsOfDirectory fs kept) other =
      (tablesOf fs base).reverse.findSome? (Named.find? · other) := by
    intro other
    rw [find?_constantsOfDirectory, tablesOf_congr hnames hbase hsame]
  have hown : (ConstantIndex.ofFiles fs (files.filter (Scan.isIn .ruby))).seenFrom
      ((base.join ⟨name⟩).parent?.getD ⟨""⟩) = constantsOfDirectory fs kept :: rest := by
    rw [hparent]
    exact hseen
  exact constant?_of_index rfl hown htable hinnermost hvalue

/-- A Ruby file has the extension of one. -/
theorem extension?_of_ruby (h : Language.ofPath? path = some .ruby) :
    path.extension? = some "rb" := by
  unfold Language.ofPath? at h
  split at h
  · cases h
  split at h
  · cases h
  obtain ⟨extension, hextension, hlanguage⟩ := Option.bind_eq_some_iff.1 h
  have hmem : Language.ruby.extensions.contains extension = true :=
    @List.find?_some _ (fun l : Language => l.extensions.contains extension) _ _ hlanguage
  obtain rfl : extension = "rb" := by simpa [Language.extensions] using hmem
  exact hextension

/-- A Ruby file in a directory is one of its Ruby files. -/
theorem mem_rubyFiles {bytes : ByteArray} (hbase : fs.tree base = .ok (.directory entries))
    (hentry : (name, .file bytes) ∈ entries)
    (hruby : Language.ofPath? (base.join ⟨name⟩) = some .ruby) :
    (base.join ⟨name⟩, bytes) ∈ rubyFiles fs base := by
  rw [rubyFiles, List.mem_mergeSort, FileSystem.entriesAt, hbase]
  refine List.mem_filterMap.2 ⟨(name, FileTree.file bytes), hentry, ?_⟩
  simp [rubyFile?, extension?_of_ruby hruby]

/-- Where a file makes a constant, some file of the directory is the last one to do so. -/
theorem exists_last_value {bytes : ByteArray} (hfile : (path, bytes) ∈ rubyFiles fs directory)
    (hown : Named.find? (Constants.ofTree (read ⟨bytes⟩)) name = some value) :
    ∃ last, (tablesOf fs directory).reverse.findSome? (Named.find? · name) = some last := by
  refine Option.isSome_iff_exists.1 (List.findSome?_isSome_iff.2 ?_)
  exact ⟨_, List.mem_reverse.2 (List.mem_map.2 ⟨(path, bytes), hfile, rfl⟩), by rw [hown]; rfl⟩

/-- The constant that an event takes its name from has the file's own value in the file alone, and
in a scan the value of the last file that makes it. -/
theorem name_alone_and_scanned (hnames : ∀ entry ∈ entries, Path.IsName entry.1)
    (signatures : List Signature) (root : Path) {files : List Path} {bytes : ByteArray}
    (hbase : fs.tree base = .ok (.directory entries)) (hentry : (name, .file bytes) ∈ entries)
    (hfile : base.join ⟨name⟩ ∈ files) (hruby : Language.ofPath? (base.join ⟨name⟩) = some .ruby)
    (hread : fs.read (base.join ⟨name⟩) = .ok bytes)
    (hsite : nameSite? (.ofTree none (base.join ⟨name⟩) (read ⟨bytes⟩)) signatures call = some s)
    (hkind : s.kind = "constant" ∨ s.kind = "scope_resolution") {constant value : String}
    (hinnermost : IsInnermost (tablesOf fs base) (fullNames s) constant)
    (hown : Named.find? (Constants.ofTree (read ⟨bytes⟩)) constant = some value) :
    let file := base.join ⟨name⟩
    let around := Scan.surroundings fs root signatures files
    (event? (.ofTree none file (read ⟨bytes⟩)) signatures file call).map (·.name) = some value ∧
      (event? (.ofTree around.constants file (read ⟨bytes⟩)) signatures file call).map (·.name) =
        (tablesOf fs base).reverse.findSome? (Named.find? · constant) := by
  intro file around
  have hmem := mem_rubyFiles hbase hentry hruby
  have htable : Constants.ofTree (read ⟨bytes⟩) ∈ tablesOf fs base :=
    List.mem_map.2 ⟨(file, bytes), hmem, rfl⟩
  obtain ⟨last, hlast⟩ := exists_last_value hmem hown
  have hscanned : eventName? (.ofTree around.constants file (read ⟨bytes⟩)) s = some last := by
    refine eventName?_of_constant? hkind ?_
    rw [(analysis_eq signatures root hfile hruby hread).1]
    exact constant?_of_scan hnames hbase hentry hfile hruby hinnermost hlast
  have hsame : nameSite? (.ofTree around.constants file (read ⟨bytes⟩)) signatures call = some s :=
    (nameSite?_congr rfl).trans hsite
  rw [name_event?, name_event?, hsite, hsame, Option.bind_some, Option.bind_some, hscanned, hlast]
  exact ⟨eventName?_of_constant? hkind (constant?_of_own rfl hinnermost htable hown), rfl⟩

/-- Let an event of a file take its name from a constant, whose innermost name among those that the
files of its directory make is one that the file itself makes. Alone, the file gives the event the
value that it gives that name. A scan gives it the value of the last file of the directory that
makes that name, which is the same one if no file behind it gives another. -/
theorem names_among_neighbours (htop : fs.top.Proper) (signatures : List Signature) {root : Path}
    {rules : IgnoreRules} {bytes : ByteArray} (hbase : fs.tree base = .ok (.directory entries))
    (hentry : (name, .file bytes) ∈ entries) (hfile : base.join ⟨name⟩ ∈ collect fs rules root)
    (hruby : Language.ofPath? (base.join ⟨name⟩) = some .ruby)
    (hcall : call ∈ calls (read ⟨bytes⟩))
    (hsite : nameSite? (.ofTree none (base.join ⟨name⟩) (read ⟨bytes⟩)) signatures call = some s)
    (hkind : s.kind = "constant" ∨ s.kind = "scope_resolution") {constant value : String}
    (hinnermost : IsInnermost (tablesOf fs base) (fullNames s) constant)
    (hown : Named.find? (Constants.ofTree (read ⟨bytes⟩)) constant = some value) :
    let file := base.join ⟨name⟩
    let around := Scan.surroundings fs root signatures (collect fs rules root)
    ∃ alone scanned : Event,
      event? (.ofTree none file (read ⟨bytes⟩)) signatures file call = some alone ∧
      event? (.ofTree around.constants file (read ⟨bytes⟩)) signatures file call = some scanned ∧
      alone ∈ Analysis.eventsAlone .ruby signatures file ⟨bytes⟩ ∧
      (∃ found, Scan.analysis fs around file = .ok found ∧ scanned ∈ found) ∧
      alone.name = value ∧
      (tablesOf fs base).reverse.findSome? (Named.find? · constant) = some scanned.name ∧
      ((∃ before after, rubyFiles fs base = before ++ (file, bytes) :: after ∧ ∀ later ∈ after,
          ∀ other, Named.find? (Constants.ofTree (read ⟨later.2⟩)) constant = some other →
            other = value) →
        scanned.name = alone.name) := by
  intro file around
  obtain ⟨distinct, hnames⟩ :
      (Named.keys entries).Nodup ∧ ∀ entry ∈ entries, Path.IsName entry.1 := by
    cases FileSystem.proper_of_tree htop hbase with
    | directory distinct hnames hbelow => exact ⟨distinct, hnames⟩
  have hread : fs.read file = .ok bytes := by
    have ht := (Named.find?_eq_some_iff distinct).2 hentry
    rw [FileSystem.read, FileSystem.tree_join (hnames _ hentry) hbase ht]
  obtain ⟨haloneName, hscannedName⟩ :=
    name_alone_and_scanned hnames signatures root hbase hentry hfile hruby hread hsite hkind
      hinnermost hown
  obtain ⟨alone, halone, hvalue⟩ := Option.map_eq_some_iff.1 haloneName
  obtain ⟨last, hlast⟩ := exists_last_value (mem_rubyFiles hbase hentry hruby) hown
  obtain ⟨scanned, hscanned, rfl⟩ := Option.map_eq_some_iff.1 (hscannedName.trans hlast)
  have hevents : Analysis.eventsAlone .ruby signatures file ⟨bytes⟩ =
      events none signatures file (read ⟨bytes⟩) := rfl
  refine ⟨alone, scanned, halone, hscanned, hevents ▸ List.mem_filterMap.2 ⟨call, hcall, halone⟩,
    ⟨_, (analysis_eq signatures root hfile hruby hread).2,
      List.mem_filterMap.2 ⟨call, hcall, hscanned⟩⟩,
    hvalue, hlast, ?_⟩
  rintro ⟨before, after, hfiles, hlater⟩
  rw [hvalue]
  exact Option.some.inj (hlast.symm.trans (findSome?_tablesOf hfiles hown hlater))

/-! ## Two files that make one constant -/

/-- A file that makes the constant `N` and names an event by it. -/
def constantFile (value : String) : ByteArray := ("N = '" ++ value ++ "'\ntrack(N)\n").toUTF8

/-- The entries of a directory with two such files. -/
def twoConstants : List (String × FileTree) :=
  [("a.rb", .file (constantFile "x")), ("b.rb", .file (constantFile "y"))]

/-- A project of that directory. -/
def neighbours : FileSystem := ⟨.directory twoConstants, []⟩

/-- The entries of the sample directory have proper names. -/
theorem isName_of_mem_twoConstants : ∀ entry ∈ twoConstants, Path.IsName entry.1 := by
  intro entry hentry
  constructor <;> revert entry <;> decide

/-- The two neighbours are a proper tree. -/
theorem proper_neighbours : neighbours.top.Proper :=
  .directory (by decide) isName_of_mem_twoConstants
    (by simp [twoConstants, FileTree.Proper.file])

/-- The two neighbours stand at the top. -/
theorem tree_neighbours : neighbours.tree ⟨"/"⟩ = .ok (.directory twoConstants) :=
  FileSystem.tree_slash rfl

/-- Both neighbours are Ruby files. -/
theorem ofPath?_neighbours {name : String} {t : FileTree} (h : (name, t) ∈ twoConstants) :
    Language.ofPath? ((Path.mk "/").join ⟨name⟩) = some .ruby := by
  have hname : Path.IsName name := isName_of_mem_twoConstants _ h
  obtain rfl | rfl : name = "a.rb" ∨ name = "b.rb" := by
    simp only [twoConstants, List.mem_cons, Prod.mk.injEq, List.not_mem_nil, or_false] at h
    exact h.imp And.left And.left
  · exact Language.ofPath?_join (by decide) hname (by decide) (by cbv)
      (rfl : _ = ['a'] ++ '.' :: ['r', 'b'])
      (by decide) (by decide)
  · exact Language.ofPath?_join (by decide) hname (by decide) (by cbv)
      (rfl : _ = ['b'] ++ '.' :: ['r', 'b'])
      (by decide) (by decide)

/-- Both neighbours are collected. -/
theorem collect_neighbours {name : String} {t : FileTree} (h : (name, t) ∈ twoConstants) :
    (Path.mk "/").join ⟨name⟩ ∈ collect neighbours ⟨[]⟩ ⟨"/"⟩ := by
  rw [collect_sources tree_neighbours, Path.mem_ordered]
  · exact List.mem_map.2 ⟨(name, t), h, rfl⟩
  · rintro ⟨name, t⟩ hentry
    rw [ofPath?_neighbours hentry]
    simp only [twoConstants, List.mem_cons, Prod.mk.injEq, List.not_mem_nil, or_false] at hentry
    rcases hentry with ⟨rfl, rfl⟩ | ⟨rfl, rfl⟩ <;> exact ⟨by cbv, rfl, rfl⟩

/-- The Ruby files at the top are the two neighbours, in order. -/
theorem rubyFiles_neighbours : rubyFiles neighbours ⟨"/"⟩ =
    [((Path.mk "/").join ⟨"a.rb"⟩, constantFile "x"),
      ((Path.mk "/").join ⟨"b.rb"⟩, constantFile "y")] := by
  have hfirst := extension?_of_ruby (ofPath?_neighbours List.mem_cons_self)
  have hsecond :=
    extension?_of_ruby (ofPath?_neighbours (List.mem_cons_of_mem _ List.mem_cons_self))
  have hentries : twoConstants.filterMap (rubyFile? ⟨"/"⟩) =
      [((Path.mk "/").join ⟨"a.rb"⟩, constantFile "x"),
        ((Path.mk "/").join ⟨"b.rb"⟩, constantFile "y")] := by
    simp only [twoConstants, List.filterMap_cons, List.filterMap_nil, rubyFile?, hfirst,
      hsecond, if_pos]
  have horder :
      (Path.compare ((Path.mk "/").join ⟨"a.rb"⟩) ((Path.mk "/").join ⟨"b.rb"⟩)).isLE = true := by
    rw [Path.compare, Path.components_join (by decide)
      (isName_of_mem_twoConstants _ List.mem_cons_self), Path.components_join (by decide)
        (isName_of_mem_twoConstants _ (List.mem_cons_of_mem _ List.mem_cons_self))]
    cbv
  rw [rubyFiles, FileSystem.entriesAt, tree_neighbours]
  refine (congrArg (List.mergeSort · _) hentries).trans (List.mergeSort_of_pairwise ?_)
  exact List.pairwise_pair.2 horder

/-- The neighbours can be read. -/
theorem read_neighbours {name : String} {bytes : ByteArray}
    (h : (name, .file bytes) ∈ twoConstants) :
    neighbours.read ((Path.mk "/").join ⟨name⟩) = .ok bytes := by
  have hdistinct : (Named.keys twoConstants).Nodup := by decide
  exact FileSystem.read_join (isName_of_mem_twoConstants _ h) tree_neighbours
    ((Named.find?_eq_some_iff hdistinct).2 h)

/-- The signature `track`. -/
def trackSignature : Signature := ⟨"track", ["track"], 0, 1, []⟩

/-- The tables of the top directory are those of the two neighbours. -/
theorem tablesOf_neighbours : tablesOf neighbours ⟨"/"⟩ =
    [Constants.ofTree (read ⟨constantFile "x"⟩), Constants.ofTree (read ⟨constantFile "y"⟩)] := by
  rw [tablesOf, rubyFiles_neighbours]
  rfl

/-- Each of the files gives the constant its value, and names the event of its call by it. -/
theorem parts_of_constantFile {name value : String}
    (h : (name, value) ∈ [("a.rb", "x"), ("b.rb", "y")]) :
    Named.find? (Constants.ofTree (read ⟨constantFile value⟩)) "N" = some value ∧
      (calls (read ⟨constantFile value⟩)).map (fun call =>
        (nameSite? (.ofTree none ((Path.mk "/").join ⟨name⟩) (read ⟨constantFile value⟩))
          [trackSignature] call).map
          fun s => (s.kind, fullNames s)) = [some ("constant", ["N"])] := by
  simp only [List.mem_cons, Prod.mk.injEq, List.not_mem_nil, or_false] at h
  rcases h with ⟨rfl, rfl⟩ | ⟨rfl, rfl⟩ <;> decide +kernel

/-- The constant is the innermost of its name in both neighbours. -/
theorem isInnermost_neighbours : IsInnermost (tablesOf neighbours ⟨"/"⟩) ["N"] "N" := by
  refine ⟨[], [], rfl, ⟨_, tablesOf_neighbours ▸ List.mem_cons_self, ?_⟩, by simp⟩
  exact Named.mem_keys_iff_find?.2 ⟨"x", (parts_of_constantFile List.mem_cons_self).1⟩

/-- The call in such a file takes its name from the constant `N`, and no other. -/
theorem exists_call_constantFile (value : String) (path : Path)
    (hview : (calls (read ⟨constantFile value⟩)).map (fun call =>
      (nameSite? (.ofTree none path (read ⟨constantFile value⟩)) [trackSignature] call).map fun s =>
        (s.kind, fullNames s)) = [some ("constant", ["N"])]) :
    ∃ call ∈ calls (read ⟨constantFile value⟩), ∃ s,
      nameSite? (.ofTree none path (read ⟨constantFile value⟩)) [trackSignature] call = some s ∧
        s.kind = "constant" ∧ fullNames s = ["N"] := by
  obtain ⟨call, hcalls, hcall⟩ := List.map_eq_singleton_iff.1 hview
  obtain ⟨s, hsite, hs⟩ := Option.map_eq_some_iff.1 hcall
  obtain ⟨hkind, hnames⟩ := Prod.mk.inj hs
  exact ⟨call, by simp [hcalls], s, hsite, hkind, hnames⟩

/-- The second file has the same event alone and in a scan, since no file behind it makes the
constant. -/
theorem names_among_neighbours_of_last :
    let file := (Path.mk "/").join ⟨"b.rb"⟩
    let tree := read ⟨constantFile "y"⟩
    let around :=
      Scan.surroundings neighbours ⟨"/"⟩ [trackSignature] (collect neighbours ⟨[]⟩ ⟨"/"⟩)
    ∃ call ∈ calls tree, ∃ alone scanned : Event,
      event? (.ofTree none file tree) [trackSignature] file call = some alone ∧
      event? (.ofTree around.constants file tree) [trackSignature] file call = some scanned ∧
      alone.name = "y" ∧ scanned.name = alone.name := by
  intro file tree around
  have hentry : ("b.rb", FileTree.file (constantFile "y")) ∈ twoConstants :=
    List.mem_cons_of_mem _ List.mem_cons_self
  obtain ⟨hown, hview⟩ := parts_of_constantFile (List.mem_cons_of_mem _ List.mem_cons_self)
  obtain ⟨call, hcall, s, hsite, hkind, hnames⟩ := exists_call_constantFile "y" file hview
  obtain ⟨alone, scanned, h⟩ :=
    names_among_neighbours proper_neighbours [trackSignature] tree_neighbours
    hentry (collect_neighbours hentry) (ofPath?_neighbours hentry) hcall hsite (.inl hkind)
    (hnames ▸ isInnermost_neighbours) hown
  have hlast : scanned.name = alone.name :=
    h.2.2.2.2.2.2 ⟨[_], [], rubyFiles_neighbours, fun later hlater =>
      absurd hlater List.not_mem_nil⟩
  exact ⟨call, hcall, alone, scanned, h.1, h.2.1, h.2.2.2.2.1, hlast⟩

/-- The second file replaces what the first one says of its own constant. -/
theorem later_neighbour_wins :
    let file := (Path.mk "/").join ⟨"a.rb"⟩
    let tree := read ⟨constantFile "x"⟩
    let files := collect neighbours ⟨[]⟩ ⟨"/"⟩
    let around := Scan.surroundings neighbours ⟨"/"⟩ [trackSignature] files
    file ∈ files ∧ Named.find? (Constants.ofTree tree) "N" = some "x" ∧
      ∃ call ∈ calls tree, ∃ s, nameSite? (.ofTree none file tree) [trackSignature] call = some s ∧
        s.kind = "constant" ∧ IsInnermost (tablesOf neighbours ⟨"/"⟩) (fullNames s) "N" ∧
        (event? (.ofTree none file tree) [trackSignature] file call).map (·.name) = some "x" ∧
        (event? (.ofTree around.constants file tree) [trackSignature] file call).map (·.name) =
          some "y" := by
  intro file tree files around
  have hentry : ("a.rb", FileTree.file (constantFile "x")) ∈ twoConstants := List.mem_cons_self
  have hfile : file ∈ files := collect_neighbours hentry
  obtain ⟨hown, hview⟩ := parts_of_constantFile List.mem_cons_self
  obtain ⟨hlater, -⟩ := parts_of_constantFile (List.mem_cons_of_mem _ List.mem_cons_self)
  obtain ⟨call, hcall, s, hsite, hkind, hnames⟩ := exists_call_constantFile "x" file hview
  have hinnermost : IsInnermost (tablesOf neighbours ⟨"/"⟩) (fullNames s) "N" :=
    hnames ▸ isInnermost_neighbours
  have hvalues :=
    name_alone_and_scanned isName_of_mem_twoConstants [trackSignature] ⟨"/"⟩ tree_neighbours
    hentry hfile (ofPath?_neighbours hentry) (read_neighbours hentry) hsite (.inl hkind)
      hinnermost hown
  have hlast : (tablesOf neighbours ⟨"/"⟩).reverse.findSome? (Named.find? · "N") = some "y" := by
    rw [tablesOf_neighbours, List.reverse_cons, List.reverse_singleton, List.singleton_append,
      List.findSome?_cons, hlater]
  exact ⟨hfile, hown, call, hcall, s, hsite, hkind, hinnermost, hvalues.1, hvalues.2.trans hlast⟩

end Ruby

end TrackingPlan
