import TrackingPlan.Proofs.Directories
import TrackingPlan.Project

/-!
# Relative imports

An import that starts from the importing file leads to a file that its directory and the file system
decide alone: `resolve?_of_startsWithDots`. The dots without a slash, which mean the directory
itself and the one above it, are not counted among these imports. They are looked for in the aliases
and the base directory of the project, whatever file they stand in, as `relative_imports` says, and
`directory_import_misread` is a project where they lead to another file, or to none.
-/

namespace TrackingPlan.Project

variable {fs : FileSystem} {p q : Project} {importer other directory base path : Path}
  {specifier : String}

/-! ## Where imports lead -/

/-- `fileOf? fs path` is the file that `path` means as an import. -/
def fileOf? (fs : FileSystem) (path : Path) : Option Path := (expansion path).find? fs.isFile

/-- `fileFrom? fs importer specifier` is the file that `specifier` means when it is taken from the
directory of the importing file. -/
def fileFrom? (fs : FileSystem) (importer : Path) (specifier : String) : Option Path :=
  importer.parent?.bind fun directory => fileOf? fs (directory.join ⟨specifier⟩)

/-- `aliased p specifier` lists the paths that the aliases of the project have for `specifier`. -/
def aliased (p : Project) (specifier : String) : List Path :=
  p.aliases.flatMap fun (pattern, targets) =>
    match matched? pattern specifier with
    | none => []
    | some rest =>
        targets.map fun target => ⟨String.ofList (fillStar rest.toList target.shown.toList)⟩

/-- `fileOutside? fs p specifier` is the file that `specifier` means by the aliases and the base
directory of the project. -/
def fileOutside? (fs : FileSystem) (p : Project) (specifier : String) : Option Path :=
  (p.aliased specifier ++ (p.base?.map (·.join ⟨specifier⟩)).toList).findSome? (fileOf? fs)

/-- Outside the directory an import may mean what the aliases say, or a path from the base
directory. -/
theorem candidates_outside (h : isRelative specifier = false) (importer : Path) :
    p.candidates importer specifier =
      (p.aliased specifier ++ (p.base?.map (·.join ⟨specifier⟩)).toList).flatMap expansion := by
  rw [List.flatMap_append, aliased, List.flatMap_assoc]
  refine (if_neg (Bool.eq_false_iff.1 h)).trans (congrArg₂ (· ++ ·) ?_ ?_)
  · refine List.flatMap_congr fun (pattern, targets) _ => ?_
    dsimp only
    cases matched? pattern specifier with
    | none => rfl
    | some rest => exact (List.flatMap_map _ _ _).symm
  · cases p.base? with
    | none => rfl
    | some base => exact (List.flatMap_singleton _ _).symm

/-- An import that is not relative leads to the file outside. -/
theorem resolve?_outside (h : isRelative specifier = false) (importer : Path) :
    p.resolve? fs importer specifier = p.fileOutside? fs specifier := by
  rw [resolve?, candidates_outside h, List.find?_flatMap]
  rfl

/-- The import starts with a dot or two and a slash. -/
def StartsWithDots (specifier : String) : Prop :=
  "./".toList <+: specifier.toList ∨ "../".toList <+: specifier.toList

/-- An import is relative if it starts with dots and a slash. -/
theorem isRelative_iff : isRelative specifier = true ↔ StartsWithDots specifier := by
  rw [isRelative, Bool.or_eq_true, StartsWithDots]
  simp

/-- An import that starts with dots leads to the file from the importing one. -/
theorem resolve?_of_startsWithDots (h : StartsWithDots specifier) (p : Project) (importer : Path) :
    p.resolve? fs importer specifier = fileFrom? fs importer specifier := by
  rw [resolve?, candidates, if_pos (isRelative_iff.2 h), fileFrom?]
  cases importer.parent? with
  | none => rw [List.find?_nil, Option.bind_none]
  | some directory => rw [Option.bind_some, fileOf?]

/-! ## Spellings of paths -/

/-- A path means the same however it is spelled. -/
theorem expansion_congr (h : path.components = other.components) :
    expansion path = expansion other := by
  rw [expansion, expansion, Path.normalize, Path.normalize, h]

/-- The file at a joined path depends on the components of the directory only. -/
theorem fileOf?_join_congr (h : directory.components = base.components) (fs : FileSystem)
    (specifier : String) :
    fileOf? fs (directory.join ⟨specifier⟩) = fileOf? fs (base.join ⟨specifier⟩) := by
  rw [fileOf?, fileOf?, expansion_congr (Path.components_join_congr h ⟨specifier⟩)]

/-- `directoryOf? importer` is the place of the directory of a file. -/
def directoryOf? (importer : Path) : Option (List Component) := importer.parent?.map Path.components

/-- The file that a relative import leads to depends on the directory of the importing file only. -/
theorem fileFrom?_congr (h : directoryOf? importer = directoryOf? other) (fs : FileSystem)
    (specifier : String) :
    fileFrom? fs importer specifier = fileFrom? fs other specifier := by
  unfold directoryOf? at h
  unfold fileFrom?
  cases himporter : importer.parent? with
  | none =>
      rw [himporter, Option.map_none, eq_comm, Option.map_eq_none_iff] at h
      rw [h]
  | some directory =>
      rw [himporter, Option.map_some, eq_comm, Option.map_eq_some_iff] at h
      obtain ⟨directory', hother, hsame⟩ := h
      rw [hother, Option.bind_some, Option.bind_some]
      exact fileOf?_join_congr hsame.symm fs specifier

/-! ## Dots without a slash -/

/-- One or two dots alone do not start a relative import. -/
theorem not_startsWithDots (h : specifier ∈ [".", ".."]) : ¬StartsWithDots specifier := by
  simp only [List.mem_cons, List.not_mem_nil, or_false] at h
  rcases h with rfl | rfl <;> unfold StartsWithDots <;> decide

/-- One or two dots alone lead to the file outside. -/
theorem resolve?_of_dots (h : specifier ∈ [".", ".."]) (p : Project) (importer : Path) :
    p.resolve? fs importer specifier = p.fileOutside? fs specifier :=
  resolve?_outside (Bool.eq_false_iff.2 fun hrelative =>
    not_startsWithDots h (isRelative_iff.1 hrelative)) importer

/-- An import that starts with dots and a slash leads to the file that it means in the directory of
the importing file, in every project and from every file of that directory. The dots alone lead to
what the aliases and the base directory have for them, from every file of the project: to none
without an alias or a base directory, and where there is only the latter, to the right file from
files that lie in it. -/
theorem relative_imports (fs : FileSystem) (p : Project) (importer : Path) :
    (∀ specifier, StartsWithDots specifier →
      p.resolve? fs importer specifier = fileFrom? fs importer specifier ∧
      ∀ (q : Project) (other : Path), directoryOf? other = directoryOf? importer →
        q.resolve? fs other specifier = p.resolve? fs importer specifier) ∧
    ∀ specifier ∈ [".", ".."],
      (∀ other, p.resolve? fs other specifier = p.fileOutside? fs specifier) ∧
      (p.aliased specifier = [] → p.base? = none → p.resolve? fs importer specifier = none) ∧
      (p.aliased specifier = [] → ∀ base, p.base? = some base →
        directoryOf? importer = some base.components →
        p.resolve? fs importer specifier = fileFrom? fs importer specifier) := by
  refine ⟨fun specifier hdots =>
    ⟨resolve?_of_startsWithDots hdots p importer, fun q other hsame => ?_⟩,
    fun specifier hdots =>
      ⟨resolve?_of_dots hdots p, fun haliased hbase => ?_, fun haliased base hbase hsame => ?_⟩⟩
  · rw [resolve?_of_startsWithDots hdots, resolve?_of_startsWithDots hdots]
    exact fileFrom?_congr hsame fs specifier
  · rw [resolve?_of_dots hdots, fileOutside?, haliased, hbase]
    rfl
  · obtain ⟨directory, hparent, hcomponents⟩ := Option.map_eq_some_iff.1 hsame
    rw [resolve?_of_dots hdots, fileOutside?, haliased, hbase, fileFrom?, hparent, Option.bind_some,
      fileOf?_join_congr hcomponents]
    exact List.findSome?_singleton

/-! ## Modules of directories -/

/-- A path that leads to a directory means the module of that directory, if no script stands beside
it under its name. -/
theorem fileOf?_of_index {text : String} (hpath : path.normalize = ⟨text⟩)
    (htext : Text.isPlain text = true) (hscript : isScript ⟨text⟩ = false)
    (hcompiled : dropEnd? ".js" text = none)
    (hbeside : ∀ ending ∈ [".ts", ".tsx", ".d.ts"], fs.isFile ⟨text ++ ending⟩ = false)
    (hindex : fs.isFile ⟨text ++ "/index.ts"⟩ = true) :
    fileOf? fs path = some ⟨text ++ "/index.ts"⟩ := by
  have hfiles : expansion path = ([".ts", ".tsx", ".d.ts"].map fun ending => ⟨text ++ ending⟩) ++
      [⟨text ++ "/index.ts"⟩, ⟨text ++ "/index.tsx"⟩] := by
    simp [expansion, hpath, Path.shown, Text.shown_of_isPlain htext, hscript, hcompiled,
      moduleEndings]
  have hnone : ([".ts", ".tsx", ".d.ts"].map fun ending => Path.mk (text ++ ending)).find?
      fs.isFile = none := by
    simpa using hbeside
  rw [fileOf?, hfiles, List.find?_append, hnone, Option.none_or, List.find?_cons_of_pos hindex]

/-- A project with a module for each of two directories, and two scripts below. -/
def indexFiles : FileSystem :=
  let script := FileTree.file "".toUTF8
  let source := FileTree.directory
    [("a.ts", script), ("app", .directory [("page.ts", script)]), ("index.ts", script)]
  ⟨.directory [("web", .directory [("index.ts", script), ("src", source)])], []⟩

/-- The sample page stands in a directory of its own. -/
theorem parent?_page : (Path.mk "/web/src/app/page.ts").parent? = some ⟨"/web/src/app"⟩ := by
  simp only [Path.parent?, Path.pieces_eq]
  decide +kernel

/-- In every project, the script in the innermost directory finds the one that lies above it. -/
theorem relative_imports_of_page : StartsWithDots "../index" ∧ ∀ p : Project,
    p.resolve? indexFiles ⟨"/web/src/app/page.ts"⟩ "../index" = some ⟨"/web/src/index.ts"⟩ := by
  have hdots : StartsWithDots "../index" := .inr (by decide)
  have hpath : ((Path.mk "/web/src/app").join ⟨"../index"⟩).normalize = ⟨"/web/src/index"⟩ := by
    simp only [Path.normalize, Path.components, Path.pieces_eq]
    decide +kernel
  have htext : Text.isPlain "/web/src/index" = true := by decide
  have hfile : isScript ⟨"/web/src/index"⟩ = false ∧ dropEnd? ".js" "/web/src/index" = none ∧
      indexFiles.isFile ⟨"/web/src/index.ts"⟩ = true := by
    simp only [isScript, Path.extension?, Path.fileName?, Path.components, FileSystem.isFile,
      FileSystem.tree, FileSystem.locate, Path.pieces_eq]
    decide +kernel
  obtain ⟨hscript, hcompiled, hindex⟩ := hfile
  have hfiles : ∃ rest, expansion ((Path.mk "/web/src/app").join ⟨"../index"⟩) =
      ⟨"/web/src/index.ts"⟩ :: rest := by
    simp [expansion, hpath, Path.shown, Text.shown_of_isPlain htext, hscript, hcompiled,
      moduleEndings]
  obtain ⟨rest, hrest⟩ := hfiles
  refine ⟨hdots, fun p => ?_⟩
  obtain ⟨hrelative, -⟩ := relative_imports indexFiles p ⟨"/web/src/app/page.ts"⟩
  rw [(hrelative "../index" hdots).1, fileFrom?, parent?_page, Option.bind_some, fileOf?, hrest,
    List.find?_cons_of_pos hindex]

/-- In these files, whatever leads to one of the two directories means its module. -/
theorem fileOf?_indexFiles {text : String} (h : text ∈ ["/web", "/web/src"])
    (hpath : path.normalize = ⟨text⟩) :
    fileOf? indexFiles path = some ⟨text ++ "/index.ts"⟩ := by
  have htexts : ∀ text ∈ ["/web", "/web/src"], Text.isPlain text = true := by decide
  have hfiles : ∀ text ∈ ["/web", "/web/src"], isScript ⟨text⟩ = false ∧
    dropEnd? ".js" text = none ∧
      (∀ ending ∈ [".ts", ".tsx", ".d.ts"], indexFiles.isFile ⟨text ++ ending⟩ = false) ∧
      indexFiles.isFile ⟨text ++ "/index.ts"⟩ = true := by
    -- texts are split where the slashes are, which is decided for lists of characters only
    simp only [isScript, Path.extension?, Path.fileName?, Path.components, FileSystem.isFile,
      FileSystem.tree, FileSystem.locate, Path.pieces_eq]
    decide +kernel
  obtain ⟨hscript, hcompiled, hbeside, hindex⟩ := hfiles text h
  exact fileOf?_of_index hpath (htexts text h) hscript hcompiled hbeside hindex

/-- The module of the directory is not found from a script in it, nor the one above, where another
is found if the project has a base directory. -/
theorem directory_import_misread :
    let plain := ofSettings indexFiles ⟨"/web"⟩ {}
    let based := ofSettings indexFiles ⟨"/web"⟩ ⟨some "src", []⟩
    fileFrom? indexFiles ⟨"/web/src/a.ts"⟩ "." = some ⟨"/web/src/index.ts"⟩ ∧
      plain.resolve? indexFiles ⟨"/web/src/a.ts"⟩ "." = none ∧
      fileFrom? indexFiles ⟨"/web/src/app/page.ts"⟩ ".." = some ⟨"/web/src/index.ts"⟩ ∧
      based.resolve? indexFiles ⟨"/web/src/app/page.ts"⟩ ".." = some ⟨"/web/index.ts"⟩ := by
  have hparent : (Path.mk "/web/src/a.ts").parent? = some ⟨"/web/src"⟩ := by
    simp only [Path.parent?, Path.pieces_eq]
    decide +kernel
  have hpaths : ((Path.mk "/web/src").join ⟨"."⟩).normalize = ⟨"/web/src"⟩ ∧
      ((Path.mk "/web/src/app").join ⟨".."⟩).normalize = ⟨"/web/src"⟩ ∧
      (((Path.mk "/web").join ⟨"src"⟩).join ⟨".."⟩).normalize = ⟨"/web"⟩ := by
    simp only [Path.normalize, Path.components, Path.pieces_eq]
    decide +kernel
  obtain ⟨hownPath, habovePath, hbasePath⟩ := hpaths
  intro plain based
  refine ⟨?_, ?_, ?_, ?_⟩
  · rw [fileFrom?, hparent, Option.bind_some]
    exact fileOf?_indexFiles (by decide) hownPath
  · exact resolve?_of_dots (by decide) plain _
  · rw [fileFrom?, parent?_page, Option.bind_some]
    exact fileOf?_indexFiles (by decide) habovePath
  · have hbased :
        fileOf? indexFiles (((Path.mk "/web").join ⟨"src"⟩).join ⟨".."⟩) = some ⟨"/web/index.ts"⟩ :=
      fileOf?_indexFiles (by decide) hbasePath
    rw [resolve?_of_dots (by decide)]
    exact List.findSome?_singleton.trans hbased

end TrackingPlan.Project
