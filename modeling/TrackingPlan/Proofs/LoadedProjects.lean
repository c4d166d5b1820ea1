import Mathlib.Data.Finset.Card
import TrackingPlan.Proofs.NearestManifest
import TrackingPlan.Proofs.ProjectPlaces
import TrackingPlan.Proofs.Workspace

/-!
# The projects that are loaded

A workspace loads one project for each owner of the files it is asked for: a manifest, or the root
where there is none. `HasLoaded.visit` is what one query preserves and `hasLoaded_visitAll` what a
sequence of queries does; `projects_of_queries` is the main statement on the projects that the
queries give.
-/

namespace TrackingPlan.Project

variable {fs : FileSystem}

/-! ## Projects of directories -/

section

variable {directory other : Path}

/-- A manifest is loaded with the project of its directory. -/
theorem components_root_load (directory : Path) :
    (load fs (directory.join ⟨manifestName⟩)).root.components = directory.components := by
  obtain ⟨parent, hparent, hcomponents⟩ :=
    Path.exists_parent? (components_manifest directory) Component.noConfusion
  simp only [load, ofSettings, hparent, Option.getD_some, hcomponents]

/-- The project of a manifest does not depend on how the directory of the manifest is spelled. -/
theorem places_load_congr (h : directory.components = other.components)
    (hhas : HasManifest fs directory) :
    (load fs (directory.join ⟨manifestName⟩)).places =
      (load fs (other.join ⟨manifestName⟩)).places := by
  obtain ⟨parent, hparent, hcomponents⟩ :=
    Path.exists_parent? (components_manifest directory) Component.noConfusion
  obtain ⟨parent', hparent', hcomponents'⟩ :=
    Path.exists_parent? (components_manifest other) Component.noConfusion
  have hsame : parent.components = parent'.components := by rw [hcomponents, hcomponents', h]
  have htext :
      fs.readText (directory.join ⟨manifestName⟩) = fs.readText (other.join ⟨manifestName⟩) := by
    simp only [FileSystem.readText, FileSystem.read, FileSystem.tree_join_congr h]
  have htree : fs.tree parent = fs.tree parent' := by
    by_cases hempty : parent.text = ""
    · rw [Path.eq_of_text_eq_empty hsame hempty]
    · -- the manifest is there, so that its directory is one, too
      obtain ⟨t, ht⟩ : ∃ t, fs.tree (directory.join ⟨manifestName⟩) = .ok t := by
        unfold HasManifest FileSystem.isFile at hhas
        cases htree : fs.tree (directory.join ⟨manifestName⟩) with
        | error fault => simp [htree, Except.toOption] at hhas
        | ok t => exact ⟨t, rfl⟩
      rw [FileSystem.tree_join_congr hcomponents.symm] at ht
      obtain ⟨entries, hentries⟩ :=
        FileSystem.exists_directory_of_tree_join hempty isName_manifestName.isAbsolute_eq ht
      rw [hentries, FileSystem.tree_congr hsame (Path.text_ne_empty_congr hsame hempty) hentries]
  simp only [load, hparent, hparent', Option.getD_some, htext]
  exact places_ofSettings hsame htree _

end

namespace Workspace

variable {w : Workspace} {file other : Path} {files : List Path}

/-! ## Owners -/

/-- `owner? fs w file` tells the manifest of the project of `file` from others, and is nothing if
there is none. -/
def owner? (fs : FileSystem) (w : Workspace) (file : Path) : Option (List Component) :=
  (w.manifest? fs file).map Path.components

/-- The components of the key are those of the owner of a file, or of the root. -/
theorem components_key :
    (w.key fs file).components = (w.owner? fs file).getD w.root.components := by
  unfold key owner?
  cases w.manifest? fs file <;> rfl

/-- The manifest of a file stands in a directory at or below the root. -/
theorem exists_directory_of_owner? {cs : List Component} (h : w.root.IsBelow file)
    (howner : w.owner? fs file = some cs) :
    ∃ directory, w.manifest? fs file = some (directory.join ⟨manifestName⟩) ∧
      cs = directory.components ++ [.normal manifestName] ∧ HasManifest fs directory ∧
      w.root.components <+: directory.components := by
  obtain ⟨manifest, hmanifest, rfl⟩ := Option.map_eq_some_iff.1 howner
  obtain ⟨_, _, hparent, -⟩ := h.exists_parent?
  have hnearest := nearest_manifest? fs h hparent
  rw [hmanifest] at hnearest
  obtain ⟨directory, hbetween, hhas, rfl, -⟩ := hnearest
  exact ⟨directory, hmanifest, components_manifest directory, hhas, hbetween.below⟩

/-- Where the root has a manifest, every file below it has one. -/
theorem owner?_ne_none {directory : Path} (h : w.root.IsBelow file)
    (hroot : directory.components = w.root.components) (hhas : HasManifest fs directory) :
    w.owner? fs file ≠ none := by
  intro hnone
  obtain ⟨_, _, hparent, -, hbelow⟩ := h.exists_parent?
  have hnearest := nearest_manifest? fs h hparent
  rw [Option.map_eq_none_iff.1 hnone] at hnearest
  exact hnearest directory ⟨hroot ▸ List.prefix_rfl, hroot ▸ hbelow⟩ hhas

/-- The manifest of a file is the nearest one to the directory that the file is in, however that is
spelled. -/
theorem isNearest_manifest? {directory : Path} {last : Component} (h : w.root.IsBelow file)
    (hfile : file.components = directory.components ++ [last]) :
    IsNearest fs (IsBetween w.root directory) (w.manifest? fs file) := by
  obtain ⟨parent, _, hparent, hcomponents, -⟩ := h.exists_parent?
  obtain ⟨hsame, -⟩ := List.append_inj' (hcomponents.symm.trans hfile) rfl
  have hbetween : ∀ other, IsBetween w.root parent other ↔ IsBetween w.root directory other :=
      fun other =>
    ⟨fun h => ⟨h.below, hsame ▸ h.above⟩, fun h => ⟨h.below, hsame ▸ h.above⟩⟩
  exact (nearest_manifest? fs h hparent).of_wider (fun other => (hbetween other).1)
    fun other hother _ => (hbetween other).2 hother

/-- A manifest in the directory of a file is the manifest of the file. -/
theorem owner?_of_hasManifest {directory : Path} {last : Component} (h : w.root.IsBelow file)
    (hfile : file.components = directory.components ++ [last])
    (hbelow : w.root.components <+: directory.components) (hhas : HasManifest fs directory) :
    w.owner? fs file = some (directory.components ++ [.normal manifestName]) := by
  have hnearest : IsNearest fs (IsBetween w.root directory) (w.manifest? fs file) :=
    isNearest_manifest? h hfile
  have hbetween : IsBetween w.root directory directory := ⟨hbelow, List.prefix_rfl⟩
  cases hmanifest : w.manifest? fs file with
  | none =>
      rw [hmanifest] at hnearest
      exact absurd hhas (hnearest directory hbetween)
  | some manifest =>
      rw [hmanifest] at hnearest
      obtain ⟨found, hfound, -, rfl, hdeepest⟩ := hnearest
      have heq := hfound.above.eq_of_length_le (hdeepest directory hbetween hhas).length_le
      rw [owner?, hmanifest, Option.map_some, components_manifest, heq]

/-- Where the root has no manifest, a file in the root itself has none. -/
theorem owner?_eq_none {last : Component} (h : w.root.IsBelow file)
    (hfile : file.components = w.root.components ++ [last]) (hhas : ¬HasManifest fs w.root) :
    w.owner? fs file = none := by
  have hnearest : IsNearest fs (IsBetween w.root w.root) (w.manifest? fs file) :=
    isNearest_manifest? h hfile
  cases hmanifest : w.manifest? fs file with
  | none => rw [owner?, hmanifest, Option.map_none]
  | some manifest =>
      rw [hmanifest] at hnearest
      obtain ⟨directory, hbetween, hdirectory, -⟩ := hnearest
      have heq := hbetween.above.eq_of_length_le hbetween.below.length_le
      exact absurd ((hasManifest_congr heq).1 hdirectory) hhas

/-- The root is no manifest, so that keys tell owners from each other. -/
theorem owner?_eq_iff (hfile : w.root.IsBelow file) (hother : w.root.IsBelow other) :
    (w.key fs file).components = (w.key fs other).components ↔
      w.owner? fs file = w.owner? fs other := by
  rw [components_key, components_key]
  have hroot : ∀ {file cs}, w.root.IsBelow file → w.owner? fs file = some cs →
      cs ≠ w.root.components := by
    rintro file cs hfile howner rfl
    obtain ⟨directory, -, hcs, -, hbelow⟩ := exists_directory_of_owner? hfile howner
    have hlength := hbelow.length_le
    rw [hcs] at hlength
    simp at hlength
  cases hf : w.owner? fs file with
  | none =>
      cases ho : w.owner? fs other with
      | none => simp
      | some cs => simpa using (hroot hother ho).symm
  | some cs =>
      cases ho : w.owner? fs other with
      | none => simpa using hroot hfile hf
      | some cs' => simp

/-- Files of one owner are loaded with the same project, up to its spelling. -/
theorem places_loadFor_congr (hfile : w.root.IsBelow file) (hother : w.root.IsBelow other)
    (h : w.owner? fs file = w.owner? fs other) :
    (w.loadFor fs file).places = (w.loadFor fs other).places := by
  unfold loadFor
  cases howner : w.owner? fs other with
  | none =>
      rw [Option.map_eq_none_iff.1 howner, Option.map_eq_none_iff.1 (h.trans howner)]
  | some cs =>
      obtain ⟨directory, hmanifest, rfl, hhas, -⟩ :=
        exists_directory_of_owner? hfile (h.trans howner)
      obtain ⟨directory', hmanifest', hcs, -⟩ := exists_directory_of_owner? hother howner
      rw [hmanifest, hmanifest']
      exact places_load_congr (List.append_cancel_right hcs) hhas

/-- A project tells its owner by its root. -/
theorem owner?_eq_of_root_eq (hfile : w.root.IsBelow file) (hother : w.root.IsBelow other)
    (h : (w.loadFor fs file).root.components = (w.loadFor fs other).root.components) :
    w.owner? fs file = w.owner? fs other := by
  unfold loadFor at h
  cases hf : w.owner? fs file with
  | none =>
      rw [Option.map_eq_none_iff.1 hf] at h
      cases ho : w.owner? fs other with
      | none => rfl
      | some cs =>
          obtain ⟨directory, hmanifest, -, hhas, -⟩ := exists_directory_of_owner? hother ho
          rw [hmanifest] at h
          exact absurd hf
            (owner?_ne_none hfile ((components_root_load directory).symm.trans h.symm) hhas)
  | some cs =>
      obtain ⟨directory, hmanifest, rfl, hhas, -⟩ := exists_directory_of_owner? hfile hf
      rw [hmanifest] at h
      cases ho : w.owner? fs other with
      | none =>
          rw [Option.map_eq_none_iff.1 ho] at h
          exact absurd ho
            (owner?_ne_none hother ((components_root_load directory).symm.trans h) hhas)
      | some cs' =>
          obtain ⟨directory', hmanifest', rfl, -⟩ := exists_directory_of_owner? hother ho
          rw [hmanifest'] at h
          have hsame : directory.components = directory'.components :=
            (components_root_load directory).symm.trans (h.trans (components_root_load directory'))
          rw [hsame]

/-! ## Queries -/

/-- What is loaded after queries for `files`, with the same root as `w`: one project for each key,
loaded for one of the files. -/
structure HasLoaded (fs : FileSystem) (w : Workspace) (files : List Path)
    (now : Workspace) : Prop where
  root : now.root = w.root
  loaded : ∀ entry ∈ now.loaded, ∃ file ∈ files, entry = (w.key fs file, w.loadFor fs file)
  nodup : (now.loaded.map (·.1.components)).Nodup
  complete : ∀ file ∈ files, (w.key fs file).components ∈ now.loaded.map (·.1.components)

variable {now : Workspace}

/-- The key of a file does not change while files are loaded. -/
theorem HasLoaded.key_eq (h : HasLoaded fs w files now) (file : Path) :
    now.key fs file = w.key fs file := by
  simp only [key, manifest?, h.root]

/-- A file is loaded in the same way while files are loaded. -/
theorem HasLoaded.loadFor_eq (h : HasLoaded fs w files now) (file : Path) :
    now.loadFor fs file = w.loadFor fs file := by
  simp only [loadFor, manifest?, h.root]

/-- A file is not loaded yet if no project is there under its key. -/
theorem loaded?_eq_none_iff :
    w.loaded? fs file = none ↔ (w.key fs file).components ∉ w.loaded.map (·.1.components) := by
  simp [loaded?, loadedAt?, Path.same]

/-- What holds after some queries holds after one more. -/
theorem HasLoaded.visit (h : HasLoaded fs w files now) (file : Path) :
    HasLoaded fs w (files ++ [file]) (now.visit fs file).2 := by
  unfold Workspace.visit
  cases hloaded : now.loaded? fs file with
  | some p =>
      refine ⟨h.root, fun entry hentry => ?_, h.nodup, fun other hother => ?_⟩
      · obtain ⟨first, hfirst, heq⟩ := h.loaded entry hentry
        exact ⟨first, List.mem_append_left _ hfirst, heq⟩
      · rcases List.mem_append.1 hother with hmem | hmem
        · exact h.complete other hmem
        · obtain rfl := List.mem_singleton.1 hmem
          by_contra hnone
          rw [← h.key_eq, ← loaded?_eq_none_iff, hloaded] at hnone
          cases hnone
  | none =>
      have hnew := loaded?_eq_none_iff.1 hloaded
      rw [h.key_eq] at hnew
      simp only [h.key_eq, h.loadFor_eq]
      refine ⟨h.root, fun entry hentry => ?_, ?_, fun other hother => ?_⟩
      · rcases List.mem_append.1 hentry with hmem | hmem
        · obtain ⟨first, hfirst, heq⟩ := h.loaded entry hmem
          exact ⟨first, List.mem_append_left _ hfirst, heq⟩
        · exact ⟨file, by simp, List.mem_singleton.1 hmem⟩
      · rw [List.map_append]
        refine h.nodup.append (List.nodup_singleton _) fun cs hcs hcs' => ?_
        obtain rfl : cs = (w.key fs file).components := List.mem_singleton.1 hcs'
        exact hnew hcs
      · rw [List.map_append]
        rcases List.mem_append.1 hother with hmem | hmem
        · exact List.mem_append_left _ (h.complete other hmem)
        · obtain rfl := List.mem_singleton.1 hmem
          exact List.mem_append_right _ List.mem_cons_self

/-- What holds after queries for a sequence of files. -/
theorem hasLoaded_visitAll (hempty : w.loaded = []) (files : List Path) :
    HasLoaded fs w files (w.visitAll fs files) := by
  induction files using List.reverseRecOn with
  | nil => exact ⟨rfl, by simp [visitAll, hempty], by simp [visitAll, hempty], by simp⟩
  | append_singleton files file ih =>
      have hstep : w.visitAll fs (files ++ [file]) = ((w.visitAll fs files).visit fs file).2 := by
        simp [visitAll, List.foldl_append]
      rw [hstep]
      exact ih.visit file

/-- As many projects are loaded as the files have owners. -/
theorem HasLoaded.length_loaded (h : HasLoaded fs w files now)
    (hfiles : ∀ file ∈ files, w.root.IsBelow file) :
    now.loaded.length = (files.map (w.owner? fs)).toFinset.card := by
  have hkeys : (now.loaded.map (·.1.components)).toFinset =
      (files.map (w.owner? fs)).toFinset.image (·.getD w.root.components) := by
    ext cs
    simp only [List.mem_toFinset, Finset.mem_image, List.mem_map]
    constructor
    · rintro ⟨entry, hentry, rfl⟩
      obtain ⟨file, hfile, rfl⟩ := h.loaded entry hentry
      exact ⟨_, ⟨file, hfile, rfl⟩, components_key.symm⟩
    · rintro ⟨_, ⟨file, hfile, rfl⟩, rfl⟩
      rw [← components_key]
      exact List.mem_map.1 (h.complete file hfile)
  have hinjective :
    Set.InjOn (fun owner? : Option (List Component) => owner?.getD w.root.components)
      (files.map (w.owner? fs)).toFinset := by
    intro first hfirst second hsecond heq
    obtain ⟨file, hfile, rfl⟩ := List.mem_map.1 (List.mem_toFinset.1 hfirst)
    obtain ⟨other, hother, rfl⟩ := List.mem_map.1 (List.mem_toFinset.1 hsecond)
    refine (owner?_eq_iff (hfiles file hfile) (hfiles other hother)).1 ?_
    rw [components_key, components_key]
    exact heq
  calc now.loaded.length
      = (now.loaded.map (·.1.components)).length := (List.length_map _).symm
    _ = (now.loaded.map (·.1.components)).toFinset.card :=
      (List.toFinset_card_of_nodup h.nodup).symm
    _ = (files.map (w.owner? fs)).toFinset.card := by
      rw [hkeys, Finset.card_image_of_injOn hinjective]

/-- A query gives the project that was loaded for a file with the same owner. -/
theorem HasLoaded.exists_projectOf (h : HasLoaded fs w files now) (file : Path) :
    ∃ first ∈ files ++ [file], (w.key fs first).components = (w.key fs file).components ∧
      now.projectOf fs file = w.loadFor fs first := by
  have hvisited : (now.visit fs file).2.loaded? fs file = some (now.projectOf fs file) :=
    loaded?_visit file
  obtain ⟨entry, hfound, hproject⟩ := Option.map_eq_some_iff.1 hvisited
  obtain ⟨first, hfirst, rfl⟩ := (h.visit file).loaded entry (List.mem_of_find?_eq_some hfound)
  have hsame : (w.key fs first).same ((now.visit fs file).2.key fs file) = true := by
    simpa using List.find?_some hfound
  rw [(h.visit file).key_eq, Path.same_iff] at hsame
  exact ⟨first, hfirst, hsame, hproject.symm⟩

/-- A query gives the project that is loaded for its file, up to spelling. -/
theorem HasLoaded.places_projectOf (h : HasLoaded fs w files now)
    (hfiles : ∀ file ∈ files, w.root.IsBelow file)
    (hfile : w.root.IsBelow file) :
    (now.projectOf fs file).places = (w.loadFor fs file).places := by
  obtain ⟨first, hfirst, hsame, hproject⟩ := h.exists_projectOf file
  have hbelow : w.root.IsBelow first := by
    rcases List.mem_append.1 hfirst with hmem | hmem
    · exact hfiles first hmem
    · exact List.mem_singleton.1 hmem ▸ hfile
  rw [hproject]
  exact places_loadFor_congr hbelow hfile ((owner?_eq_iff hbelow hfile).1 hsame)

/-- A query repeats the project of an earlier one if its file has the same key. -/
theorem projectOf_visitAll (files between : List Path)
    (h : (w.key fs file).components = (w.key fs other).components) :
    (w.visitAll fs (files ++ file :: between)).projectOf fs other =
      (w.visitAll fs files).projectOf fs file := by
  have hsplit : w.visitAll fs (files ++ file :: between) =
      ((w.visitAll fs files).visit fs file).2.visitAll fs between := by
    simp [visitAll, List.foldl_append]
  have hkeys : ∀ other, ((w.visitAll fs files).visit fs file).2.key fs other = w.key fs other :=
    fun other => (key_visit file other).trans ((visitAll_keeps files).1 other)
  obtain ⟨hkept, hloaded⟩ := @visitAll_keeps fs ((w.visitAll fs files).visit fs file).2 between
  have hvisited := @loaded?_visit fs (w.visitAll fs files) file
  rw [loaded?, hkeys, loadedAt?_congr (Path.same_iff.2 h)] at hvisited
  refine projectOf_of_loaded ?_
  rw [hsplit, loaded?, hkept, hkeys]
  exact hloaded _ _ hvisited

/-- Every file below the root of a workspace has the nearest manifest between the root and itself.
After any queries as many projects are loaded as these have owners, a further query gives the
project that it would give without them, up to spelling, and it gives the project of a later one if
and only if both find the same manifest or none. -/
theorem projects_of_queries (fs : FileSystem) (root : Path) :
    let w := ofRoot fs root
    (∀ file, w.root.IsBelow file → ∃ directory, file.parent? = some directory ∧
      w.root.components <+: directory.components ∧
      IsNearest fs (IsBetween w.root directory) (w.manifest? fs file)) ∧
    ∀ before, (∀ file ∈ before, w.root.IsBelow file) →
      (w.visitAll fs before).loaded.length = (before.map (w.owner? fs)).toFinset.card ∧
      ∀ file, w.root.IsBelow file →
        ((w.visitAll fs before).projectOf fs file).places = (w.projectOf fs file).places ∧
        ∀ between other, (∀ file ∈ between, w.root.IsBelow file) → w.root.IsBelow other →
          ((w.visitAll fs before).projectOf fs file =
              (w.visitAll fs (before ++ file :: between)).projectOf fs other ↔
            w.owner? fs file = w.owner? fs other) := by
  intro w
  have hloads : ∀ files, HasLoaded fs w files (w.visitAll fs files) := hasLoaded_visitAll rfl
  refine ⟨fun file hfile => ?_, fun before hbefore => ?_⟩
  · obtain ⟨directory, _, hparent, -, hbelow⟩ := hfile.exists_parent?
    exact ⟨directory, hparent, hbelow, nearest_manifest? fs hfile hparent⟩
  refine ⟨(hloads before).length_loaded hbefore, fun file hfile =>
    ⟨?_, fun between other hbetween hother => ?_⟩⟩
  · have hfirst := (hloads []).places_projectOf (by simp) hfile
    exact ((hloads before).places_projectOf hbefore hfile).trans hfirst.symm
  constructor
  · intro heq
    have hearlier : ∀ earlier ∈ before ++ file :: between, w.root.IsBelow earlier := by
      intro earlier hearlier
      rcases List.mem_append.1 hearlier with hmem | hmem
      · exact hbefore earlier hmem
      · rcases List.mem_cons.1 hmem with rfl | hmem
        · exact hfile
        · exact hbetween earlier hmem
    have hfirst := (hloads before).places_projectOf hbefore hfile
    have hsecond := (hloads _).places_projectOf hearlier hother
    rw [heq, hsecond] at hfirst
    exact owner?_eq_of_root_eq hfile hother (congrArg Prod.fst hfirst).symm
  · intro howner
    exact (projectOf_visitAll before between ((owner?_eq_iff hfile hother).2 howner)).symm

/-! ## A directory with one project -/

/-- The directory of the project. -/
def webDirectory : Path := (Path.mk "/").join ⟨"web"⟩

/-- Its entries: a manifest and two scripts. -/
def webEntries : List (String × FileTree) :=
  [("a.ts", .file "".toUTF8), ("b.ts", .file "".toUTF8), ("tsconfig.json", .file "{}".toUTF8)]

/-- That directory, next to a script without a manifest. -/
def webFiles : FileSystem :=
  ⟨.directory [("c.ts", .file "".toUTF8), ("web", .directory webEntries)], []⟩

/-- The root of the sample workspace is the top directory. -/
theorem root_ofRoot_webFiles : (ofRoot webFiles ⟨"/"⟩).root = ⟨"/"⟩ := by
  have htree : webFiles.tree ⟨"/"⟩ = .ok (.directory _) := FileSystem.tree_slash rfl
  simp [ofRoot, FileSystem.isFile, htree, Except.toOption, FileTree.isFile]

/-- The top directory has one component. -/
theorem components_slash : (Path.mk "/").components = [.root] := by cbv

/-- The sample project stands in a directory at the top. -/
theorem components_webDirectory : webDirectory.components = [.root, .normal "web"] := by
  rw [webDirectory, Path.components_join (by decide) (by constructor <;> decide), components_slash]
  rfl

/-- The sample project has a manifest. -/
theorem hasManifest_webDirectory : HasManifest webFiles webDirectory := by
  have hweb : webFiles.tree webDirectory = .ok (.directory webEntries) :=
    FileSystem.tree_join (by constructor <;> decide) (FileSystem.tree_slash rfl) rfl
  have hmanifest : webFiles.tree (webDirectory.join ⟨manifestName⟩) = .ok (.file "{}".toUTF8) :=
    FileSystem.tree_join isName_manifestName hweb rfl
  simp [HasManifest, FileSystem.isFile, hmanifest, Except.toOption, FileTree.isFile]

/-- The top directory has no manifest. -/
theorem not_hasManifest_slash : ¬HasManifest webFiles ⟨"/"⟩ := by
  have hsteps : (Path.mk "/").steps = [] := by
    rw [Path.steps, Path.pieces_root]
    decide
  have hmissing : webFiles.locate ((Path.mk "/").join ⟨manifestName⟩) = .error .missing := by
    rw [FileSystem.locate_join (by decide) isName_manifestName.isAbsolute_eq, hsteps,
      isName_manifestName.pieces_eq, FileSystem.start, if_pos (by cbv)]
    rfl
  simp [HasManifest, FileSystem.isFile, FileSystem.tree, hmissing, Except.toOption]

/-- Names taken from an absolute path lie below the root. -/
theorem isBelow_join {base : Path} {name : String} (hbase : base.isAbsolute = true)
    (htext : base.text ≠ "") (hname : Path.IsName name) {up : List Component}
    (hcomponents : base.components = [.root] ++ up) :
    (ofRoot webFiles ⟨"/"⟩).root.IsBelow (base.join ⟨name⟩) := by
  have hslash : (Path.mk "/").isAbsolute = true := by cbv
  rw [root_ofRoot_webFiles]
  refine ⟨?_, up, .normal name, ?_⟩
  · rw [Path.isAbsolute_join htext hname.isAbsolute_eq, hbase, hslash]
  · rw [Path.components_join htext hname, hcomponents, components_slash]

/-- Two scripts share the project of their manifest, and a third one has the project of the root. -/
theorem projects_of_three_queries :
    let w := ofRoot webFiles ⟨"/"⟩
    let a := webDirectory.join ⟨"a.ts"⟩
    let b := webDirectory.join ⟨"b.ts"⟩
    let c := (Path.mk "/").join ⟨"c.ts"⟩
    w.owner? webFiles a = some [.root, .normal "web", .normal manifestName] ∧
      w.owner? webFiles c = none ∧
      (w.visitAll webFiles [a, b, c]).loaded.length = 2 ∧
      w.projectOf webFiles a = (w.visitAll webFiles [a]).projectOf webFiles b ∧
      w.projectOf webFiles a ≠ (w.visitAll webFiles [a, b]).projectOf webFiles c ∧
      ((w.visitAll webFiles [a, b]).projectOf webFiles c).places = (w.projectOf webFiles c).places ∧
      ∃ directory, c.parent? = some directory ∧
        IsNearest webFiles (IsBetween w.root directory) (w.manifest? webFiles c) := by
  intro w a b c
  have hslash : (Path.mk "/").isAbsolute = true := by cbv
  have htext : webDirectory.text ≠ "" := Path.text_join_ne_empty (by decide)
  have hweb : webDirectory.isAbsolute = true :=
    (Path.isAbsolute_join (by decide) (by cbv)).trans hslash
  have ha : w.root.IsBelow a :=
    isBelow_join hweb htext (by constructor <;> decide) components_webDirectory
  have hb : w.root.IsBelow b :=
    isBelow_join hweb htext (by constructor <;> decide) components_webDirectory
  have hc : w.root.IsBelow c :=
    isBelow_join hslash (by decide) (by constructor <;> decide) components_slash
  have howner : ∀ name, Path.IsName name → w.root.IsBelow (webDirectory.join ⟨name⟩) →
      w.owner? webFiles (webDirectory.join ⟨name⟩) =
        some [.root, .normal "web", .normal manifestName] := by
    intro name hname hbelow
    have hroot : w.root.components <+: webDirectory.components :=
      ⟨[.normal "web"], by
        rw [root_ofRoot_webFiles, components_slash, components_webDirectory]; rfl⟩
    have hfound := owner?_of_hasManifest hbelow (Path.components_join htext hname) hroot
      hasManifest_webDirectory
    rwa [components_webDirectory] at hfound
  have hownerA : w.owner? webFiles a = _ := howner "a.ts" (by constructor <;> decide) ha
  have hownerB : w.owner? webFiles b = _ := howner "b.ts" (by constructor <;> decide) hb
  have hownerC : w.owner? webFiles c = none := by
    have hcomponents : c.components = w.root.components ++ [.normal "c.ts"] := by
      rw [root_ofRoot_webFiles]
      exact Path.components_join (by decide) (by constructor <;> decide)
    refine owner?_eq_none hc hcomponents ?_
    rw [root_ofRoot_webFiles]
    exact not_hasManifest_slash
  obtain ⟨hnearest, hqueries⟩ := projects_of_queries webFiles ⟨"/"⟩
  have hcount : (w.visitAll webFiles [a, b, c]).loaded.length = 2 := by
    rw [(hqueries [a, b, c] (by simpa using ⟨ha, hb, hc⟩)).1]
    show [w.owner? webFiles a, w.owner? webFiles b, w.owner? webFiles c].toFinset.card = 2
    rw [hownerA, hownerB, hownerC]
    decide
  have hshared := ((hqueries [] (by simp)).2 a ha).2 [] b (by simp) hb
  have hseparate := ((hqueries [] (by simp)).2 a ha).2 [b] c (by simpa using hb) hc
  have hplaces := ((hqueries [a, b] (by simpa using ⟨ha, hb⟩)).2 c hc).1
  obtain ⟨directory, hparent, -, hfound⟩ := hnearest c hc
  refine ⟨hownerA, hownerC, hcount, hshared.2 (hownerA.trans hownerB.symm), fun heq => ?_, hplaces,
    directory, hparent, hfound⟩
  rw [hseparate.1 heq, hownerC] at hownerA
  cases hownerA

end Workspace

end TrackingPlan.Project
