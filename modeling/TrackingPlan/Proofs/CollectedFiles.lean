import Mathlib
import TrackingPlan.Collect
import TrackingPlan.Proofs.PathOrder
import TrackingPlan.Proofs.Tables

/-!
# The files that a scan looks at

A walk goes down a tree and leaves out the entries that are not admitted, with all that is in them.
`mem_walk_iff` says that it finds exactly the files to which a way of admitted entries leads, and
`nodup_walk` that it finds no file twice. `collected_files` is the main statement, on the files of a
scan and their order.
-/

namespace TrackingPlan

namespace FileTree

/-- Trees as file systems hold them: the entries of a directory have names, each a different one. -/
inductive Proper : FileTree → Prop where
  | file (bytes : ByteArray) : Proper (.file bytes)
  | directory {entries : List (String × FileTree)} (distinct : (Named.keys entries).Nodup)
      (names : ∀ entry ∈ entries, Path.IsName entry.1) (below : ∀ entry ∈ entries, Proper entry.2) :
      Proper (.directory entries)

variable {admits : (name : String) → Path → FileTree → Bool} {path f : Path} {t below : FileTree}
  {entries : List (String × FileTree)} {name : String} {names : List String}

/-! ## Places in a tree -/

/-- An entry of a proper directory stands at its name. -/
theorem at?_cons_iff (distinct : (Named.keys entries).Nodup) :
    at? (.directory entries) (name :: names) = some below ↔
      ∃ entry ∈ entries, entry.1 = name ∧ at? entry.2 names = some below := by
  rw [at?, Option.bind_eq_some_iff]
  constructor
  · rintro ⟨t, ht, hbelow⟩
    exact ⟨(name, t), (Named.find?_eq_some_iff distinct).1 ht, rfl, hbelow⟩
  · rintro ⟨⟨name, t⟩, hmem, rfl, hbelow⟩
    exact ⟨t, (Named.find?_eq_some_iff distinct).2 hmem, hbelow⟩

/-- A way through a tree is followed in parts. -/
theorem at?_append (t : FileTree) (up rest : List String) :
    t.at? (up ++ rest) = (t.at? up).bind (at? · rest) := by
  induction up generalizing t with
  | nil => rfl
  | cons name up ih =>
      rw [List.cons_append, at?, at?, Option.bind_assoc]
      simp only [ih]

/-- What stands in a proper tree is proper. -/
theorem Proper.of_at? (ht : t.Proper) (h : t.at? names = some below) : below.Proper := by
  induction ht generalizing names with
  | file bytes =>
      cases names with
      | nil =>
          obtain rfl := Option.some.inj h
          exact .file bytes
      | cons name rest => cases h
  | directory distinct hnames hbelow ih =>
      cases names with
      | nil =>
          obtain rfl := Option.some.inj h
          exact .directory distinct hnames hbelow
      | cons name rest =>
          obtain ⟨entry, hentry, -, hat⟩ := (at?_cons_iff distinct).1 h
          exact ih entry hentry hat

/-- Places in a proper tree are reached by names. -/
theorem Proper.isName_of_at? (ht : t.Proper) (h : t.at? names = some below) :
    ∀ name ∈ names, Path.IsName name := by
  induction ht generalizing names with
  | file bytes =>
      cases names with
      | nil => simp
      | cons name rest => cases h
  | directory distinct hnames hbelow ih =>
      cases names with
      | nil => simp
      | cons name rest =>
          obtain ⟨entry, hentry, rfl, hat⟩ := (at?_cons_iff distinct).1 h
          intro other hother
          rcases List.mem_cons.1 hother with rfl | hrest
          · exact hnames entry hentry
          · exact ih entry hentry hat other hrest

/-! ## Walks -/

/-- Every entry on the way along `names`, from `path` where `t` stands, is admitted. -/
def Admitted (admits : (name : String) → Path → FileTree → Bool) (path : Path) (t : FileTree)
    (names : List String) : Prop :=
  ∀ up name below, up ++ [name] <+: names → t.at? (up ++ [name]) = some below →
    admits name (path.descend (up ++ [name])) below = true

/-- The file that a walk starts from is admitted. -/
theorem admitted_nil : Admitted admits path t [] := by
  intro up name below habove
  simp at habove

/-- A way is admitted if its first entry is, and the rest of the way from there. -/
theorem admitted_cons_iff (distinct : (Named.keys entries).Nodup) {entry : String × FileTree}
    (hentry : entry ∈ entries) :
    Admitted admits path (.directory entries) (entry.1 :: names) ↔
      admits entry.1 (path.join ⟨entry.1⟩) entry.2 = true ∧
        Admitted admits (path.join ⟨entry.1⟩) entry.2 names := by
  have hat : ∀ rest, at? (.directory entries) (entry.1 :: rest) = at? entry.2 rest := by
    intro rest
    rw [at?, FileTree.entries, (Named.find?_eq_some_iff distinct).2 hentry, Option.bind_some]
  constructor
  · intro h
    refine ⟨h [] entry.1 entry.2 (by simp) (hat []), fun up name below habove hbelow => ?_⟩
    exact h (entry.1 :: up) name below ((List.prefix_cons_inj entry.1).2 habove)
      ((hat (up ++ [name])).trans hbelow)
  · rintro ⟨hfirst, hrest⟩ up name below habove hbelow
    cases up with
    | nil =>
        obtain ⟨rfl, -⟩ := List.cons_prefix_cons.1 habove
        obtain rfl := Option.some.inj ((hat []).symm.trans hbelow)
        exact hfirst
    | cons first up =>
        obtain ⟨rfl, hrestPrefix⟩ := List.cons_prefix_cons.1 habove
        exact hrest up name below hrestPrefix ((hat (up ++ [name])).symm.trans hbelow)

/-- `walkEntry admits path entry` lists the files of an entry of the directory at `path`. -/
def walkEntry (admits : (name : String) → Path → FileTree → Bool) (path : Path)
    (entry : String × FileTree) : List Path :=
  let place := path.join ⟨entry.1⟩
  if admits entry.1 place entry.2 then walk admits place entry.2 else []

/-- A walk finds a file in an entry that is admitted, and that it finds the file below. -/
theorem mem_walkEntry_iff {entry : String × FileTree} : f ∈ walkEntry admits path entry ↔
    admits entry.1 (path.join ⟨entry.1⟩) entry.2 = true ∧
      f ∈ walk admits (path.join ⟨entry.1⟩) entry.2 := by
  simp [walkEntry]

/-- A walk of a directory walks its entries. -/
theorem walk_directory (path : Path) (entries : List (String × FileTree)) :
    walk admits path (.directory entries) = entries.flatMap (walkEntry admits path) := by
  rw [walk]
  induction entries with
  | nil => rfl
  | cons entry rest ih =>
      rw [List.flatMap_cons, ← ih]
      rfl

/-- A walk finds exactly the files to which a way of admitted entries leads. -/
theorem mem_walk_iff (ht : t.Proper) : f ∈ walk admits path t ↔
    ∃ names bytes, t.at? names = some (.file bytes) ∧ Admitted admits path t names ∧
      f = path.descend names := by
  induction ht generalizing path with
  | file bytes =>
      have hwalk : walk admits path (.file bytes) = [path] := rfl
      rw [hwalk, List.mem_singleton]
      constructor
      · rintro rfl
        exact ⟨[], bytes, rfl, admitted_nil, rfl⟩
      · rintro ⟨names, found, hat, -, rfl⟩
        cases names with
        | nil => rfl
        | cons name rest => cases hat
  | directory distinct hnames hbelow ih =>
      simp only [walk_directory, List.mem_flatMap, mem_walkEntry_iff]
      constructor
      · rintro ⟨entry, hentry, hadmits, hf⟩
        obtain ⟨names, bytes, hat, hadmitted, rfl⟩ := (ih entry hentry).1 hf
        refine ⟨entry.1 :: names, bytes, ?_, ?_, rfl⟩
        · exact (at?_cons_iff distinct).2 ⟨entry, hentry, rfl, hat⟩
        · exact (admitted_cons_iff distinct hentry).2 ⟨hadmits, hadmitted⟩
      · rintro ⟨names, bytes, hat, hadmitted, rfl⟩
        cases names with
        | nil => cases hat
        | cons name rest =>
            obtain ⟨entry, hentry, rfl, hbytes⟩ := (at?_cons_iff distinct).1 hat
            obtain ⟨hadmits, hrest⟩ := (admitted_cons_iff distinct hentry).1 hadmitted
            exact ⟨entry, hentry, hadmits, (ih entry hentry).2 ⟨rest, bytes, hbytes, hrest, rfl⟩⟩

/-- The files that a walk finds lie at or below the place where it starts. -/
theorem components_prefix_of_mem_walk (ht : t.Proper) (hpath : path.text ≠ "")
    (h : f ∈ walk admits path t) : path.components <+: f.components := by
  obtain ⟨names, bytes, hat, -, rfl⟩ := (mem_walk_iff ht).1 h
  rw [Path.components_descend hpath (ht.isName_of_at? hat)]
  exact List.prefix_append _ _

/-- All that a walk finds in an entry lies below the entry. -/
theorem components_prefix_of_mem_walkEntry {entry : String × FileTree} (hentry : entry.2.Proper)
    (hpath : path.text ≠ "") (hname : Path.IsName entry.1) (h : f ∈ walkEntry admits path entry) :
    path.components ++ [.normal entry.1] <+: f.components := by
  rw [← Path.components_join hpath hname]
  exact components_prefix_of_mem_walk hentry (Path.text_join_ne_empty hpath)
    (mem_walkEntry_iff.1 h).2

/-- A walk finds no file twice, by the components of the paths. -/
theorem nodup_walk (ht : t.Proper) (hpath : path.text ≠ "") :
    ((walk admits path t).map Path.components).Nodup := by
  induction ht generalizing path with
  | file bytes => exact List.nodup_singleton _
  | directory distinct hnames hbelow ih =>
      rw [walk_directory, List.map_flatMap, List.nodup_flatMap]
      constructor
      · intro entry hentry
        unfold walkEntry
        dsimp only
        split
        · exact ih entry hentry (Path.text_join_ne_empty hpath)
        · exact List.nodup_nil
      · -- a path in two entries would have both of their names behind the components of `path`
        refine (List.pairwise_map.1 distinct).imp_of_mem fun {a b} ha hb hne cs hcs hcs' => ?_
        obtain ⟨f, hf, rfl⟩ := List.mem_map.1 hcs
        obtain ⟨g, hg, hsame⟩ := List.mem_map.1 hcs'
        have hfirst := components_prefix_of_mem_walkEntry (hbelow a ha) hpath (hnames a ha) hf
        have hsecond := components_prefix_of_mem_walkEntry (hbelow b hb) hpath (hnames b hb) hg
        rw [hsame] at hsecond
        have heq :=
          (List.prefix_of_prefix_length_le hfirst hsecond (by simp)).eq_of_length (by simp)
        exact hne (by simpa using heq)

end FileTree

/-! ## Scans -/

namespace FileSystem

variable {fs : FileSystem} {root : Path} {t : FileTree}

/-- No tree is found at the empty path. -/
theorem text_ne_empty_of_tree (h : fs.tree root = .ok t) : root.text ≠ "" := by
  intro hempty
  simp [tree, locate, hempty] at h

/-- What stands at a path of a proper file system is proper. -/
theorem proper_of_tree (htop : fs.top.Proper) (h : fs.tree root = .ok t) : t.Proper := by
  unfold tree at h
  split at h
  · cases h
  next names hnames =>
    split at h
    · cases h
    next found hfound =>
      cases h
      exact htop.of_at? hfound

end FileSystem

/-- The way along `names` leads from `root`, where `t` stands, to a file that a scan looks at. -/
structure LeadsToSource (rules : IgnoreRules) (root : Path) (t : FileTree) (names : List String) :
    Prop where
  /-- A file stands there. -/
  file : ∃ bytes, t.at? names = some (.file bytes)
  /-- The file is in a known language. -/
  language : ∃ l, Language.ofPath? (root.descend names) = some l
  /-- No rule names an entry on the way, the root and the file included. -/
  not_ignored : ∀ up, up <+: names → rules.ignores root (root.descend up) = false
  /-- No entry below the root is hidden. -/
  not_hidden : ∀ name ∈ names, isHidden name = false
  /-- No directory below the root has one of the names that are never entered. -/
  not_skipped : ∀ up name below, up ++ [name] <+: names → t.at? (up ++ [name]) = some below →
    below.isDirectory = true → name ∉ skippedNames

variable {fs : FileSystem} {rules : IgnoreRules} {root : Path} {t : FileTree} {names : List String}

/-- `isEntered rules root name path t` holds of the entries below `root` that a scan walks. -/
def isEntered (rules : IgnoreRules) (root : Path) (name : String) (path : Path) (t : FileTree) :
    Bool :=
  !isSkipped name t && !rules.ignores root path

/-- A scan enters what is not hidden, not ignored, and no directory with a name that is skipped. -/
theorem isEntered_iff {name : String} {path : Path} : isEntered rules root name path t = true ↔
    isHidden name = false ∧ (t.isDirectory = true → name ∉ skippedNames) ∧
      rules.ignores root path = false := by
  cases hdirectory : t.isDirectory <;> simp [isEntered, isSkipped, hdirectory, and_assoc]

/-- The files that a scan looks at are those of the walk from its root, in order. -/
theorem collect_eq (hroot : rules.ignores root root = false) (ht : fs.tree root = .ok t) :
    collect fs rules root = Path.ordered
      ((t.walk (isEntered rules root) root).filter fun p => (Language.ofPath? p).isSome) := by
  have hwalk : fs.walk (isEntered rules root) root = t.walk (isEntered rules root) root := by
    rw [FileSystem.walk, ht]
  rw [← hwalk, collect, hroot]
  rfl

/-- Nothing is collected where nothing stands. -/
theorem collect_of_error {fault : FileFault} (ht : fs.tree root = .error fault) :
    collect fs rules root = [] := by
  have hwalk (admits) : fs.walk admits root = [] := by rw [FileSystem.walk, ht]
  unfold collect
  split
  · rfl
  · simp only [hwalk, List.filter_nil]
    exact List.mergeSort_nil

/-- A way is a way to a source when its entries are entered and a file in a known language is
there. -/
theorem leadsToSource_iff (hroot : rules.ignores root root = false) :
    LeadsToSource rules root t names ↔
      (∃ bytes, t.at? names = some (.file bytes)) ∧
        FileTree.Admitted (isEntered rules root) root t names ∧
        (Language.ofPath? (root.descend names)).isSome = true := by
  constructor
  · rintro ⟨hfile, hlanguage, hignored, hhidden, hskipped⟩
    refine ⟨hfile, fun up name below habove hbelow => isEntered_iff.2 ⟨?_, ?_, ?_⟩, ?_⟩
    · exact hhidden name (habove.subset (by simp))
    · exact hskipped up name below habove hbelow
    · exact hignored _ habove
    · exact Option.isSome_iff_exists.2 hlanguage
  · rintro ⟨⟨bytes, hbytes⟩, hadmitted, hlanguage⟩
    -- what stands on the way to the file stands in the tree
    have hentered : ∀ up name, up ++ [name] <+: names → ∃ below,
        t.at? (up ++ [name]) = some below ∧
          isEntered rules root name (root.descend (up ++ [name])) below = true := by
      intro up name habove
      obtain ⟨rest, rfl⟩ := habove
      rw [FileTree.at?_append] at hbytes
      obtain ⟨below, hbelow, -⟩ := Option.bind_eq_some_iff.1 hbytes
      exact ⟨below, hbelow, hadmitted up name below (List.prefix_append _ _) hbelow⟩
    refine ⟨⟨bytes, hbytes⟩, Option.isSome_iff_exists.1 hlanguage, ?_, ?_, ?_⟩
    · intro up habove
      rcases List.eq_nil_or_concat up with rfl | ⟨init, name, rfl⟩
      · exact hroot
      · rw [List.concat_eq_append] at habove ⊢
        obtain ⟨below, -, hbelow⟩ := hentered init name habove
        exact (isEntered_iff.1 hbelow).2.2
    · intro name hname
      obtain ⟨up, rest, rfl⟩ := List.append_of_mem hname
      obtain ⟨below, -, hbelow⟩ := hentered up name ⟨rest, by simp⟩
      exact (isEntered_iff.1 hbelow).1
    · intro up name below habove hbelow
      exact (isEntered_iff.1 (hadmitted up name below habove hbelow)).2.1

/-- Nothing is collected below a root that is ignored. -/
theorem collect_of_ignored (hroot : rules.ignores root root = true) :
    collect fs rules root = [] := by
  rw [collect, if_pos hroot]

/-- The files of a scan come in strictly increasing order. -/
theorem pairwise_lt_collect (htop : fs.top.Proper) (rules : IgnoreRules) (root : Path) :
    (collect fs rules root).Pairwise fun a b => Path.compare a b = .lt := by
  by_cases hroot : rules.ignores root root = true
  · rw [collect_of_ignored hroot]
    exact List.Pairwise.nil
  · rw [Bool.not_eq_true] at hroot
    cases ht : fs.tree root with
    | error fault =>
        rw [collect_of_error ht]
        exact List.Pairwise.nil
    | ok t =>
        have hnodup : ((t.walk (isEntered rules root) root).map Path.components).Nodup :=
          FileTree.nodup_walk (FileSystem.proper_of_tree htop ht)
            (FileSystem.text_ne_empty_of_tree ht)
        rw [collect_eq hroot ht]
        exact Path.pairwise_lt_ordered (hnodup.sublist (List.filter_sublist.map _))

/-- The files of a scan are those to which a way leads from its root. -/
theorem mem_collect_iff (htop : fs.top.Proper) {f : Path} : f ∈ collect fs rules root ↔
    ∃ t names, fs.tree root = .ok t ∧ LeadsToSource rules root t names ∧
      f = root.descend names := by
  by_cases hroot : rules.ignores root root = true
  · rw [collect_of_ignored hroot]
    refine ⟨fun hf => absurd hf List.not_mem_nil, ?_⟩
    rintro ⟨t, names, -, hleads, -⟩
    have hkept : rules.ignores root root = false := hleads.not_ignored [] List.nil_prefix
    rw [hroot] at hkept
    cases hkept
  · rw [Bool.not_eq_true] at hroot
    cases ht : fs.tree root with
    | error fault => simp [collect_of_error ht]
    | ok t =>
        rw [collect_eq hroot ht, Path.mem_ordered, List.mem_filter,
          FileTree.mem_walk_iff (FileSystem.proper_of_tree htop ht)]
        constructor
        · rintro ⟨⟨names, bytes, hbytes, hadmitted, rfl⟩, hlanguage⟩
          have hleads := (leadsToSource_iff hroot).2 ⟨⟨bytes, hbytes⟩, hadmitted, hlanguage⟩
          exact ⟨t, names, rfl, hleads, rfl⟩
        · rintro ⟨t', names, ht', hleads, rfl⟩
          cases ht'
          obtain ⟨⟨bytes, hbytes⟩, hadmitted, hlanguage⟩ := (leadsToSource_iff hroot).1 hleads
          exact ⟨⟨names, bytes, hbytes, hadmitted, rfl⟩, hlanguage⟩

/-- A scan of a proper file system looks at each file to which a way leads from its root exactly
once, in strictly increasing order, and at no others. -/
theorem collected_files (htop : fs.top.Proper) (rules : IgnoreRules) (root : Path) :
    (collect fs rules root).Pairwise (fun a b => Path.compare a b = .lt) ∧
      ∀ f, f ∈ collect fs rules root ↔
        ∃ t names, fs.tree root = .ok t ∧ LeadsToSource rules root t names ∧
          f = root.descend names :=
  ⟨pairwise_lt_collect htop rules root, fun _ => mem_collect_iff htop⟩

/-- What the directory of a small project holds: a source, a hidden directory, and a directory that
is never entered. -/
def sampleProject : FileTree :=
  .directory
    [(".git", .directory [("hook.py", .file ByteArray.empty)]),
     ("main.js", .file ByteArray.empty),
     ("tmp", .directory [("old.js", .file ByteArray.empty)])]

/-- The sample project is a proper tree. -/
theorem proper_sampleProject : sampleProject.Proper := by
  have hname : ∀ name ∈ [".git", "hook.py", "main.js", "tmp", "old.js"], Path.IsName name := by
    intro name hmem
    constructor <;> revert name <;> decide
  have hhook : FileTree.Proper (.directory [("hook.py", .file ByteArray.empty)]) :=
    .directory (by decide) (by simp [hname]) (by simp [FileTree.Proper.file])
  have hold : FileTree.Proper (.directory [("old.js", .file ByteArray.empty)]) :=
    .directory (by decide) (by simp [hname]) (by simp [FileTree.Proper.file])
  exact .directory (by decide) (by simp [hname]) (by simp [hhook, hold, FileTree.Proper.file])

/-- The script at the top of the sample project is collected. -/
theorem collected_files_of_sampleProject :
    sampleProject.Proper ∧ ⟨"/main.js"⟩ ∈ collect ⟨sampleProject, []⟩ ⟨[]⟩ ⟨"/"⟩ := by
  refine ⟨proper_sampleProject, ?_⟩
  have hplace : (Path.mk "/").descend ["main.js"] = ⟨"/main.js"⟩ := by cbv
  have habsolute : (Path.mk "/").isAbsolute = true := by cbv
  have htree : FileSystem.tree ⟨sampleProject, []⟩ ⟨"/"⟩ = .ok sampleProject := by
    simp only [FileSystem.tree, FileSystem.locate, FileSystem.start, Path.pieces_eq, habsolute]
    rfl
  have hcomponents : (Path.mk "/main.js").components = [.root, .normal "main.js"] := by
    rw [← hplace, Path.components_descend (by decide) (fun name hname => ?_), Path.components,
      if_pos habsolute, Path.pieces_eq]
    · rfl
    · rw [List.mem_singleton.1 hname]
      constructor <;> decide
  have hlanguage : Language.ofPath? ⟨"/main.js"⟩ = some .javaScript := by
    have hname : (Path.mk "/main.js").fileName? = some "main.js" := by
      rw [Path.fileName?, hcomponents]
      rfl
    have hplain : "main.js".endsWith ".d.ts" = false := by cbv
    simp only [Language.ofPath?, Path.extension?, hname, hplain]
    decide
  have hway : LeadsToSource ⟨[]⟩ ⟨"/"⟩ sampleProject ["main.js"] := by
    refine ⟨⟨ByteArray.empty, rfl⟩, ⟨.javaScript, hplace ▸ hlanguage⟩, fun _ _ => rfl, ?_, ?_⟩
    · intro name hname
      rw [List.mem_singleton.1 hname]
      cbv
    · intro up name below habove hbelow hdirectory
      cases up with
      | nil =>
          obtain ⟨rfl, -⟩ := List.cons_prefix_cons.1 habove
          decide
      | cons first up => simp at habove
  have hmem := (@collected_files ⟨sampleProject, []⟩ proper_sampleProject ⟨[]⟩ ⟨"/"⟩).2 ⟨"/main.js"⟩
  exact hmem.2 ⟨sampleProject, ["main.js"], htree, hway, hplace.symm⟩

end TrackingPlan
