import TrackingPlan.Proofs.Directories
import TrackingPlan.Proofs.Tables
import TrackingPlan.Project

/-!
# Projects under other spellings

The paths that a project holds are spelled as its root is. `places_ofSettings` says that nothing
else in a project depends on the spelling: the directory of a project may be given by any path with
its components.
-/

namespace TrackingPlan

namespace Named

variable {α : Type u} {β : Type v} (f : α → β) (table : Named α)

/-- `mapValues f table` has the values of `table` under `f`. -/
def mapValues : Named β := table.map fun entry => (entry.1, f entry.2)

/-- What is found among changed values is what was found, changed. -/
theorem find?_mapValues (name : String) :
    (mapValues f table).find? name = (table.find? name).map f := by
  induction table with
  | nil => rfl
  | cons entry rest ih =>
      have hstep : mapValues f (entry :: rest) = (entry.1, f entry.2) :: mapValues f rest := rfl
      rw [hstep, find?_cons, find?_cons, ih]
      split <;> rfl

/-- A value may be changed before or after it is inserted. -/
theorem mapValues_insert (name : String) (value : α) :
    mapValues f (table.insert name value) = (mapValues f table).insert name (f value) := by
  induction table with
  | nil => rfl
  | cons entry rest ih =>
      have hstep : mapValues f (entry :: rest) = (entry.1, f entry.2) :: mapValues f rest := rfl
      rw [hstep, insert, insert]
      split
      · rfl
      · split
        · rfl
        · rw [← ih]
          rfl

end Named

/-! ## Walks from a directory -/

namespace Path

variable {base other : Path}

/-- Places below two spellings of a directory have the same components. -/
theorem components_descend_congr (h : base.components = other.components) (names : List String) :
    (base.descend names).components = (other.descend names).components := by
  induction names generalizing base other with
  | nil => exact h
  | cons name rest ih => exact ih (components_join_congr h ⟨name⟩)

end Path

namespace FileTree

mutual

/-- Where only names and trees decide what is walked, the same ways are walked from every path. -/
theorem exists_ways (admits : String → FileTree → Bool) : (t : FileTree) →
    ∃ ways : List (List String), ∀ path : Path,
      walk (fun name _ below => admits name below) path t = ways.map path.descend
  | .file _ => ⟨[[]], fun _ => rfl⟩
  | .directory entries => exists_ways_entries admits entries

/-- A walk goes the same ways from wherever it starts. -/
theorem exists_ways_entries (admits : String → FileTree → Bool) :
    (entries : List (String × FileTree)) → ∃ ways : List (List String), ∀ path : Path,
      walkEntries (fun name _ below => admits name below) path entries = ways.map path.descend
  | [] => ⟨[], fun _ => rfl⟩
  | (name, t) :: rest => by
      obtain ⟨below, hbelow⟩ := exists_ways admits t
      obtain ⟨others, hothers⟩ := exists_ways_entries admits rest
      refine ⟨(if admits name t then below.map (name :: ·) else []) ++ others, fun path => ?_⟩
      rw [walkEntries, hbelow, hothers, List.map_append]
      cases admits name t with
      | false => rfl
      | true =>
          rw [if_pos rfl, if_pos rfl, List.map_map]
          rfl

end

end FileTree

namespace FileSystem

variable {fs : FileSystem} {base other : Path}

/-- The same stands below two spellings of a directory. -/
theorem tree_descend_congr (h : base.components = other.components)
    (htree : fs.tree base = fs.tree other)
    (names : List String) : fs.tree (base.descend names) = fs.tree (other.descend names) := by
  induction names generalizing base other with
  | nil => exact htree
  | cons name rest ih => exact ih (Path.components_join_congr h ⟨name⟩) (tree_join_congr h ⟨name⟩)

end FileSystem

namespace Project

variable {fs : FileSystem} {root other : Path}

/-! ## The types of a project -/

/-- A path is a script however it is spelled. -/
theorem isScript_congr (h : root.components = other.components) :
    isScript root = isScript other := by
  rw [isScript, isScript, Path.extension?, Path.extension?, Path.fileName?, Path.fileName?, h]

/-- The scripts of a directory are reached by the same names from every spelling of it. -/
theorem exists_names_scripts (h : root.components = other.components)
    (htree : fs.tree root = fs.tree other) :
    ∃ names : List (List String), scripts fs root = names.map root.descend ∧
      scripts fs other = names.map other.descend := by
  unfold scripts FileSystem.walk
  cases hroot : fs.tree other with
  | error fault =>
      rw [htree, hroot]
      exact ⟨[], by simp [Path.ordered], by simp [Path.ordered]⟩
  | ok t =>
      obtain ⟨ways, hways⟩ := FileTree.exists_ways
        (fun name _ => !isHidden name && !skippedNames.contains name) t
      have hcomponents := Path.components_descend_congr h
      have hscripts : isScript ∘ root.descend = isScript ∘ other.descend :=
        funext fun names => isScript_congr (hcomponents names)
      have horder : (fun a b => (Path.compare (root.descend a) (root.descend b)).isLE) =
          fun a b => (Path.compare (other.descend a) (other.descend b)).isLE := by
        funext a b
        rw [Path.compare_eq, Path.compare_eq, hcomponents, hcomponents]
      -- both lists are sorted alike before the path is put in front
      have hsorted (base : Path) (names : List (List String)) :
        Path.ordered (names.map base.descend) =
          (names.mergeSort fun a b => (Path.compare (base.descend a) (base.descend b)).isLE).map
            base.descend :=
        (List.map_mergeSort (f := base.descend) fun _ _ _ _ => rfl).symm
      refine ⟨(ways.filter (isScript ∘ other.descend)).mergeSort fun a b =>
        (Path.compare (other.descend a) (other.descend b)).isLE, ?_, ?_⟩
      · rw [htree, hroot]
        dsimp only
        rw [hways, List.filter_map, hsorted, hscripts, horder]
      · dsimp only
        rw [hways, List.filter_map, hsorted]

/-- A script adds the same names to tables that agree up to spelling. -/
theorem mapValues_addTypes {table others : Named Path} (h : root.components = other.components)
    (htree : fs.tree root = fs.tree other)
    (htable : table.mapValues Path.components = others.mapValues Path.components) :
    (addTypes fs table root).mapValues Path.components =
      (addTypes fs others other).mapValues Path.components := by
  have htext : fs.readText root = fs.readText other := by
    rw [FileSystem.readText, FileSystem.readText, FileSystem.read, FileSystem.read, htree]
  unfold addTypes
  rw [htext]
  cases fs.readText other with
  | error fault => exact htable
  | ok text =>
      dsimp only
      generalize typeNames text = names
      induction names generalizing table others with
      | nil => exact htable
      | cons name rest ih =>
          refine ih ?_
          dsimp only
          have hfound : (table.find? name).isSome = (others.find? name).isSome := by
            rw [← Option.isSome_map (f := Path.components), ← Named.find?_mapValues, htable,
              Named.find?_mapValues, Option.isSome_map]
          rw [hfound]
          split
          · exact htable
          · rw [Named.mapValues_insert, Named.mapValues_insert, htable, h]

/-- The types are found in the same files below two spellings of a directory. -/
theorem mapValues_foldl_addTypes {table others : Named Path}
    (h : root.components = other.components) (htree : fs.tree root = fs.tree other)
    (htable : table.mapValues Path.components = others.mapValues Path.components)
    (names : List (List String)) :
    ((names.map root.descend).foldl (addTypes fs) table).mapValues Path.components =
      ((names.map other.descend).foldl (addTypes fs) others).mapValues Path.components := by
  induction names generalizing table others with
  | nil => exact htable
  | cons way rest ih =>
      refine ih (mapValues_addTypes (Path.components_descend_congr h way) ?_ htable)
      exact FileSystem.tree_descend_congr h htree way

/-- The table of types is the same for every spelling of the root, up to the spelling of its
files. -/
theorem mapValues_typeFilesOf (h : root.components = other.components)
    (htree : fs.tree root = fs.tree other) :
    (typeFilesOf fs root).mapValues Path.components = (typeFilesOf fs other).mapValues
      Path.components := by
  obtain ⟨names, hroot, hother⟩ := exists_names_scripts h htree
  unfold typeFilesOf
  rw [hroot, hother]
  simp only [List.length_map]
  split
  · rfl
  · exact mapValues_foldl_addTypes h htree rfl names

/-! ## Projects -/

/-- `places p` is what `p` holds, with paths told by their components. -/
def places (p : Project) : List Component × Option (List Component) ×
    List (String × List (List Component)) × Named (List Component) :=
  (p.root.components, p.base?.map Path.components,
    p.aliases.map fun (pattern, targets) => (pattern, targets.map Path.components),
    p.typeFiles.mapValues Path.components)

/-- The places of a project do not depend on the spelling of its root. -/
theorem places_ofSettings (h : root.components = other.components)
    (htree : fs.tree root = fs.tree other) (settings : Settings) :
    (ofSettings fs root settings).places = (ofSettings fs other settings).places := by
  have hbase : (settings.base?.map fun b => root.join ⟨b⟩).map Path.components =
      (settings.base?.map fun b => other.join ⟨b⟩).map Path.components := by
    cases settings.base? with
    | none => rfl
    | some b => exact congrArg some (Path.components_join_congr h ⟨b⟩)
  -- aliases start from the base directory, where the settings name one
  have hstart : ((settings.base?.map fun b => root.join ⟨b⟩).getD root).components =
      ((settings.base?.map fun b => other.join ⟨b⟩).getD other).components := by
    cases settings.base? with
    | none => exact h
    | some b => exact Path.components_join_congr h ⟨b⟩
  have haliases := Path.components_join_congr hstart
  simp only [places, ofSettings, h, hbase, mapValues_typeFilesOf h htree, List.map_map,
    Function.comp_def, haliases]

end Project

end TrackingPlan
