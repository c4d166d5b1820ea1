import Mathlib.Data.List.Forall2
import TrackingPlan.Proofs.Related
import TrackingPlan.Proofs.RelativeImports
import TrackingPlan.Proofs.ShownPaths

/-!
# Resolved imports

An import leads to the first file among its choices. `IsChoices` says what these are without looking
for them: the paths that the import may mean (`MayMean`), each with the files that stand for it
(`Expands`). They depend on how imports read paths: endings are changed in the text that is shown
for a path, and the star is filled in the whole path of a target (`Reading.shown`), where the path
itself and the target alone are meant (`Reading.written`). `resolved_imports` is the main statement:
what an import leads to in a project as it is loaded, and that the readings agree on texts, as long
as no directory before a target has a star in its name. `choices_passed_over` has a project for each
of the ways in which they differ.
-/

namespace TrackingPlan.Project

variable {fs : FileSystem} {p : Project} {settings : Settings} {root start importer path : Path}
  {files paths : List Path} {specifier pattern target rest text stem ending : String}

/-! ## What imports may mean -/

/-- The pattern is the specifier itself, or has a star at its end that stands for the rest of the
specifier. -/
inductive Matches : (pattern specifier rest : String) → Prop where
  | same {text : String} (h : ¬"*".toList <:+ text.toList) : Matches text text ""
  | star (start rest : String) : Matches (start ++ "*") (start ++ rest) rest

/-- The first star of the target is replaced by the rest of the specifier. -/
inductive Fills (rest : String) : (target filled : String) → Prop where
  | star {before after : String} (h : '*' ∉ before.toList) :
      Fills rest (before ++ "*" ++ after) (before ++ rest ++ after)
  | plain {target : String} (h : '*' ∉ target.toList) : Fills rest target target

/-- How imports read paths. -/
structure Reading where
  /-- The text of a path that endings are changed in. -/
  text : Path → String
  /-- What a target means, taken from the directory `start`, when its star stands for `rest`. -/
  Aims : (start : Path) → (rest target : String) → Path → Prop

namespace Reading

/-- Endings are changed in the text of the path, and stars are filled in the target. -/
def written : Reading where
  text := Path.text
  Aims start rest target path := ∃ lead filled, (start.join ⟨target⟩).text = lead ++ target ∧
    Fills rest target filled ∧ path = ⟨lead ++ filled⟩

/-- Endings are changed in what is shown for the path, and stars are filled in what is shown for the
target behind the directory that it is taken from. -/
def shown : Reading where
  text := Path.shown
  Aims start rest target path := Fills rest (start.join ⟨target⟩).shown path.text

end Reading

/-- The scripts that a compiled file stems from, which stand beside it. -/
inductive StemsFrom : (text : String) → List Path → Prop where
  | compiled (stem : String) : StemsFrom (stem ++ ".js") [⟨stem ++ ".ts"⟩, ⟨stem ++ ".tsx"⟩]
  | other {text : String} (h : ¬".js".toList <:+ text.toList) : StemsFrom text []

/-- The files that stand for a path: the normal path if it is a script, the scripts that it stems
from, and the normal path with something added. -/
def Expands (reading : Reading) (path : Path) (files : List Path) : Prop :=
  ∃ stems, StemsFrom (reading.text path.normalize) stems ∧
    files = (if isScript path.normalize then [path.normalize] else []) ++ stems ++
      [".ts", ".tsx", ".d.ts", "/index.ts", "/index.tsx"].map fun ending =>
        ⟨reading.text path.normalize ++ ending⟩

/-- The paths that aliases have for a specifier, where targets are taken from the directory
`start`. -/
inductive HasPaths (reading : Reading) (start : Path) (specifier : String) :
    List (String × List String) → List Path → Prop where
  | nil : HasPaths reading start specifier [] []
  | skip {pattern : String} {targets : List String} {aliases : List (String × List String)}
      {paths : List Path} (h : ∀ rest, ¬Matches pattern specifier rest)
      (hmore : HasPaths reading start specifier aliases paths) :
      HasPaths reading start specifier ((pattern, targets) :: aliases) paths
  | take {pattern rest : String} {targets : List String} {aliases : List (String × List String)}
      {filled paths : List Path} (h : Matches pattern specifier rest)
      (hfilled : List.Forall₂ (reading.Aims start rest) targets filled)
      (hmore : HasPaths reading start specifier aliases paths) :
      HasPaths reading start specifier ((pattern, targets) :: aliases) (filled ++ paths)

/-- `directory? root settings` is the directory that imports start from. -/
def Settings.directory? (root : Path) (settings : Settings) : Option Path :=
  settings.base?.map fun base => root.join ⟨base⟩

/-- The paths that an import may mean, the first choice first. -/
inductive MayMean (reading : Reading) (root : Path) (settings : Settings) (importer : Path)
    (specifier : String) : List Path → Prop where
  | relative {directory : Path} (h : StartsWithDots specifier)
      (hparent : importer.parent? = some directory) :
      MayMean reading root settings importer specifier [directory.join ⟨specifier⟩]
  | nowhere (h : StartsWithDots specifier) (hparent : importer.parent? = none) :
      MayMean reading root settings importer specifier []
  | named {paths : List Path} (h : ¬StartsWithDots specifier)
      (haliases : HasPaths reading ((settings.directory? root).getD root) specifier
        settings.aliases paths) :
      MayMean reading root settings importer specifier
        (paths ++ ((settings.directory? root).map (·.join ⟨specifier⟩)).toList)

/-- The files that an import may lead to, the first choice first. -/
def IsChoices (reading : Reading) (root : Path) (settings : Settings) (importer : Path)
    (specifier : String) (files : List Path) : Prop :=
  ∃ paths parts, MayMean reading root settings importer specifier paths ∧
    List.Forall₂ (Expands reading) paths parts ∧ files = parts.flatten

/-- The result is the first of the paths where a file stands, and nothing if there is none. -/
def IsFirstFile (fs : FileSystem) (files : List Path) : Option Path → Prop
  | none => ∀ path ∈ files, fs.isFile path = false
  | some path => ∃ before after, files = before ++ path :: after ∧ fs.isFile path = true ∧
      ∀ earlier ∈ before, fs.isFile earlier = false

/-- All that an import is looked for with is text, and there is no star in the path of the directory
that targets are taken from. -/
structure IsOrdinary (root : Path) (settings : Settings) (importer : Path) (specifier : String) :
    Prop where
  importer : Text.isPlain importer.text = true
  specifier : Text.isPlain specifier = true
  start : Text.isPlain ((settings.directory? root).getD root).text = true
  no_star : '*' ∉ ((settings.directory? root).getD root).text.toList
  targets : ∀ entry ∈ settings.aliases, ∀ target ∈ entry.2, Text.isPlain target = true

/-- Projects as they are loaded, each with its settings. -/
inductive IsLoaded (fs : FileSystem) : Project → Settings → Prop where
  | manifest (manifest : Path) :
      IsLoaded fs (load fs manifest) (match fs.readText manifest with
        | .ok text => Settings.ofText text
        | .error _ => {})
  | plain (root : Path) : IsLoaded fs (standalone fs root) {}

/-! ## The choices of an import -/

/-- What is left without an ending stands before it. -/
theorem dropEnd?_eq_some_iff : dropEnd? ending text = some stem ↔ text = stem ++ ending := by
  have hends : text.endsWith ending = true ↔ ending.toList <:+ text.toList := by
    rw [← String.endsWith_toSlice, String.Slice.endsWith_string_iff, String.copy_toSlice]
  have htake : ∀ before, text.toList = before ++ ending.toList →
      text.toList.take (text.length - ending.length) = before := by
    intro before hbefore
    have hlength := congrArg List.length hbefore
    rw [List.length_append, String.length_toList, String.length_toList] at hlength
    rw [hbefore, List.take_append_of_le_length (by omega), List.take_of_length_le (by omega)]
  unfold dropEnd?
  constructor
  · intro h
    split at h
    next hsuffix =>
      obtain ⟨before, hbefore⟩ := hends.1 hsuffix
      rw [htake before hbefore.symm] at h
      obtain rfl := Option.some.inj h
      rw [← String.toList_inj, ← hbefore]
      simp
    next => cases h
  · rintro rfl
    rw [if_pos (hends.2 ⟨stem.toList, by simp⟩), htake stem.toList (by simp), String.ofList_toList]

/-- Nothing is left of a text that does not end so. -/
theorem dropEnd?_eq_none_iff : dropEnd? ending text = none ↔ ¬ending.toList <:+ text.toList := by
  rw [Option.eq_none_iff_forall_ne_some]
  constructor
  · rintro h ⟨before, hbefore⟩
    refine h (String.ofList before) (dropEnd?_eq_some_iff.2 ?_)
    rw [← String.toList_inj, ← hbefore]
    simp
  · rintro h stem hstem
    exact h ⟨stem.toList, by simp [dropEnd?_eq_some_iff.1 hstem]⟩

/-- A pattern matches a specifier if the rest of it is found. -/
theorem matches_iff : Matches pattern specifier rest ↔ matched? pattern specifier = some rest := by
  unfold matched?
  constructor
  · intro h
    cases h with
    | same h =>
        rw [dropEnd?_eq_none_iff.2 h]
        simp
    | star start rest =>
        have hstart : (start ++ rest).startsWith start = true :=
          String.startsWith_string_iff.2 ⟨rest.toList, by simp⟩
        rw [dropEnd?_eq_some_iff.2 rfl]
        simp [hstart, ← String.length_toList]
  · intro h
    split at h
    next start hstart =>
      split at h
      next hprefix =>
        obtain ⟨after, hafter⟩ := String.startsWith_string_iff.1 hprefix
        obtain rfl := dropEnd?_eq_some_iff.1 hstart
        obtain rfl : specifier = start ++ rest := by
          obtain rfl := Option.some.inj h
          rw [← String.toList_inj, ← hafter]
          simp [← String.length_toList]
        exact .star start rest
      next => cases h
    next hnone =>
      split at h
      next hsame =>
        obtain rfl := Option.some.inj h
        exact hsame ▸ .same (dropEnd?_eq_none_iff.1 hnone)
      next => cases h

/-- The first star is not filled before it comes. -/
theorem fillStar_append_left {before : List Char} (h : '*' ∉ before) (rest after : List Char) :
    fillStar rest (before ++ after) = before ++ fillStar rest after := by
  induction before with
  | nil => rfl
  | cons c cs ih =>
      have hfirst : ¬c = '*' := fun heq => h (heq ▸ List.mem_cons_self)
      rw [List.cons_append, fillStar, if_neg hfirst, ih fun hmem => h (List.mem_cons_of_mem c hmem)]
      rfl

/-- The first star is filled, and what follows it stays. -/
theorem fillStar_append {before : List Char} (h : '*' ∉ before) (rest after : List Char) :
    fillStar rest (before ++ '*' :: after) = before ++ rest ++ after := by
  rw [fillStar_append_left h, fillStar, if_pos rfl, List.append_assoc]

/-- Without a star nothing is filled. -/
theorem fillStar_of_notMem {cs : List Char} (h : '*' ∉ cs) (rest : List Char) :
    fillStar rest cs = cs := by
  have hfilled := fillStar_append_left h rest []
  rwa [List.append_nil, fillStar, List.append_nil] at hfilled

/-- A target is filled if its first star is replaced. -/
theorem fills_iff {filled : String} :
    Fills rest target filled ↔ String.ofList (fillStar rest.toList target.toList) = filled := by
  constructor
  · intro h
    cases h with
    | star h =>
        rw [String.toList_append, String.toList_append, List.append_assoc]
        refine (congrArg String.ofList (fillStar_append h _ _)).trans ?_
        simp [String.append_assoc]
    | plain h => rw [fillStar_of_notMem h, String.ofList_toList]
  · rintro rfl
    by_cases hstar : '*' ∈ target.toList
    · obtain ⟨before, after, htarget, hbefore⟩ := List.eq_append_cons_of_mem hstar
      obtain rfl : target = String.ofList before ++ "*" ++ String.ofList after := by
        rw [← String.toList_inj, htarget]
        simp
      have hfilled : String.ofList
        (fillStar rest.toList (String.ofList before ++ "*" ++ String.ofList after).toList) =
          String.ofList before ++ rest ++ String.ofList after := by
        rw [htarget, fillStar_append hbefore]
        simp [String.append_assoc]
      rw [hfilled]
      exact .star (by simpa using hbefore)
    · rw [fillStar_of_notMem hstar, String.ofList_toList]
      exact .plain hstar

/-- The scripts that a text stems from are those beside it, if it ends as a compiled file. -/
theorem stemsFrom_iff : StemsFrom text files ↔ (match dropEnd? ".js" text with
    | none => []
    | some stem => [⟨stem ++ ".ts"⟩, ⟨stem ++ ".tsx"⟩]) = files := by
  constructor
  · intro h
    cases h with
    | compiled stem => rw [dropEnd?_eq_some_iff.2 rfl]
    | other h => rw [dropEnd?_eq_none_iff.2 h]
  · rintro rfl
    cases hstem : dropEnd? ".js" text with
    | none => exact .other (dropEnd?_eq_none_iff.1 hstem)
    | some stem => exact dropEnd?_eq_some_iff.1 hstem ▸ .compiled stem

/-- The files that stand for a path are its expansion, as imports read paths. -/
theorem expands_iff : Expands .shown path files ↔ expansion path = files := by
  unfold Expands expansion moduleEndings
  dsimp only [Reading.shown]
  generalize path.normalize.shown = text
  constructor
  · rintro ⟨stems, hstems, rfl⟩
    obtain rfl := stemsFrom_iff.1 hstems
    rfl
  · rintro rfl
    exact ⟨_, stemsFrom_iff.2 rfl, rfl⟩

/-- `pathsOf start specifier pattern targets` lists the paths that one alias has for `specifier`. -/
def pathsOf (start : Path) (specifier pattern : String) (targets : List String) : List Path :=
  match matched? pattern specifier with
  | none => []
  | some rest => targets.map fun target =>
    ⟨String.ofList (fillStar rest.toList (start.join ⟨target⟩).shown.toList)⟩

/-- The paths that aliases have are those of each alias, in their order. -/
theorem hasPaths_iff {aliases : List (String × List String)} {paths : List Path} :
    HasPaths .shown start specifier aliases paths ↔
      (aliases.flatMap fun entry => pathsOf start specifier entry.1 entry.2) = paths := by
  constructor
  · intro h
    induction h with
    | nil => rfl
    | skip hnone _ ih =>
        have hmatched := Option.eq_none_iff_forall_ne_some.2 fun rest hrest =>
          hnone rest (matches_iff.2 hrest)
        rw [List.flatMap_cons, ih, pathsOf, hmatched, List.nil_append]
    | take hmatch hfilled _ ih =>
        rw [List.flatMap_cons, ih, pathsOf, matches_iff.1 hmatch]
        exact congrArg (· ++ _)
          (List.forall₂_eq_iff.1 (hfilled.imp fun _ _ h => congrArg Path.mk (fills_iff.1 h)))
  · rintro rfl
    induction aliases with
    | nil => exact .nil
    | cons first aliases ih =>
        rw [List.flatMap_cons, pathsOf]
        cases hmatched : matched? first.1 specifier with
        | none =>
            refine .skip (fun rest hrest => ?_) ih
            rw [matches_iff.1 hrest] at hmatched
            cases hmatched
        | some rest =>
            refine .take (matches_iff.2 hmatched) ((List.forall₂_eq_iff.2 rfl).imp ?_) ih
            rintro target _ rfl
            exact fills_iff.2 rfl

/-- The aliases of a project say what its settings say. -/
theorem aliased_ofSettings (fs : FileSystem) (root : Path) (settings : Settings)
    (specifier : String) :
    (ofSettings fs root settings).aliased specifier = settings.aliases.flatMap fun entry =>
      pathsOf ((settings.directory? root).getD root) specifier entry.1 entry.2 := by
  rw [aliased, ofSettings, List.flatMap_map]
  refine List.flatMap_congr fun entry _ => ?_
  rw [pathsOf]
  cases hmatched : matched? entry.1 specifier with
  | none => simp [hmatched]
  | some rest => simp [hmatched, Settings.directory?]

/-- `meant root settings importer specifier` lists the paths that an import may mean, the first
choice first. -/
def meant (root : Path) (settings : Settings) (importer : Path) (specifier : String) : List Path :=
  if isRelative specifier then (importer.parent?.map (·.join ⟨specifier⟩)).toList
  else (settings.aliases.flatMap fun entry =>
      pathsOf ((settings.directory? root).getD root) specifier entry.1 entry.2) ++
    ((settings.directory? root).map (·.join ⟨specifier⟩)).toList

/-- The paths that an import may mean are those that are listed. -/
theorem mayMean_iff {paths : List Path} :
    MayMean .shown root settings importer specifier paths ↔
      meant root settings importer specifier = paths := by
  unfold meant
  constructor
  · intro h
    cases h with
    | relative h hparent => rw [if_pos (isRelative_iff.2 h), hparent]; rfl
    | nowhere h hparent => rw [if_pos (isRelative_iff.2 h), hparent]; rfl
    | named h haliases =>
        rw [if_neg fun hrelative => h (isRelative_iff.1 hrelative), hasPaths_iff.1 haliases]
  · rintro rfl
    split
    next h =>
      cases hparent : importer.parent? with
      | none => exact .nowhere (isRelative_iff.1 h) hparent
      | some directory => exact .relative (isRelative_iff.1 h) hparent
    next h => exact .named (fun hdots => h (isRelative_iff.2 hdots)) (hasPaths_iff.2 rfl)

/-- The candidates of an import are the files of the paths that it may mean. -/
theorem candidates_ofSettings (fs : FileSystem) (root : Path) (settings : Settings)
    (importer : Path) (specifier : String) :
    (ofSettings fs root settings).candidates importer specifier =
      (meant root settings importer specifier).flatMap expansion := by
  cases hrelative : isRelative specifier with
  | true =>
      rw [candidates, meant, if_pos hrelative, if_pos hrelative]
      cases importer.parent? with
      | none => rfl
      | some directory => exact (List.flatMap_singleton _ _).symm
  | false =>
      rw [candidates_outside hrelative, aliased_ofSettings, meant, hrelative,
        if_neg Bool.false_ne_true]
      rfl

/-- The choices of an import are its candidates. -/
theorem isChoices_iff : IsChoices .shown root settings importer specifier files ↔
    (ofSettings fs root settings).candidates importer specifier = files := by
  rw [candidates_ofSettings]
  constructor
  · rintro ⟨paths, parts, hpaths, hparts, rfl⟩
    rw [mayMean_iff.1 hpaths, List.flatMap]
    exact congrArg List.flatten (List.forall₂_eq_iff.1 (hparts.imp fun _ _ => expands_iff.1))
  · rintro rfl
    let paths := meant root settings importer specifier
    have hparts :
        List.Forall₂ (fun path part => expansion path = part) paths (paths.map expansion) :=
      List.forall₂_eq_iff.2 rfl
    exact ⟨paths, _, mayMean_iff.2 rfl, hparts.imp fun _ _ => expands_iff.2, rfl⟩

/-- What is found is the first that passes, with all that fail before it. -/
theorem find?_eq_some_iff_split {p : Path → Bool} : files.find? p = some path ↔
    ∃ before after, files = before ++ path :: after ∧ p path = true ∧
      ∀ earlier ∈ before, p earlier = false := by
  rw [List.find?_eq_some_iff_append]
  simp only [Bool.not_eq_true']
  constructor
  · rintro ⟨hpath, before, after, hfiles, hbefore⟩
    exact ⟨before, after, hfiles, hpath, hbefore⟩
  · rintro ⟨before, after, hfiles, hpath, hbefore⟩
    exact ⟨hpath, before, after, hfiles, hbefore⟩

/-- The first file is what is found among the choices. -/
theorem isFirstFile_iff {result : Option Path} :
    IsFirstFile fs files result ↔ files.find? fs.isFile = result := by
  cases result with
  | none => simp [IsFirstFile]
  | some path => exact find?_eq_some_iff_split.symm

/-! ## The files that stand for a path -/

/-- The text ends as the names of scripts do. -/
def EndsAsScript (text : String) : Prop :=
  ∃ start, ∃ ending ∈ [".ts", ".tsx", ".mts", ".cts"], text = start ++ ending

/-- A text ends as a script whatever stands before it. -/
theorem EndsAsScript.append (h : EndsAsScript text) (before : String) :
    EndsAsScript (before ++ text) := by
  obtain ⟨start, ending, hending, rfl⟩ := h
  exact ⟨before ++ start, ending, hending, (String.append_assoc ..).symm⟩

/-- A path with an extension has a last name that ends with it. -/
theorem exists_of_extension? {extension : String} (h : path.extension? = some extension) :
    ∃ start, path.components.getLast? = some (.normal (start ++ ("." ++ extension))) := by
  unfold Path.extension? at h
  split at h
  next => cases h
  next name hname =>
    split at h
    next reversed c cs hspan =>
      obtain rfl := Option.some.inj h
      have hlast : path.components.getLast? = some (.normal name) := by
        unfold Path.fileName? at hname
        split at hname
        next last hlast => exact Option.some.inj hname ▸ hlast
        next => cases hname
      have hreversed : name.toList.reverse = reversed ++ '.' :: c :: cs := by
        rw [List.span_eq_takeWhile_dropWhile, Prod.mk.injEq] at hspan
        rw [← hspan.1, ← hspan.2, List.takeWhile_append_dropWhile]
      refine ⟨String.ofList (c :: cs).reverse, ?_⟩
      rw [hlast, ← String.toList_inj.1 (show _ = name.toList from ?_)]
      rw [← List.reverse_reverse name.toList, hreversed]
      simp
    next => cases h

/-- The normal form of a script ends as a script. -/
theorem endsAsScript_normalize (h : isScript path.normalize = true) :
    EndsAsScript path.normalize.text := by
  rw [isScript, Option.any_eq_true] at h
  obtain ⟨extension, hextension, hscript⟩ := h
  obtain ⟨start, hlast⟩ := exists_of_extension? hextension
  obtain ⟨before, htext⟩ := Path.exists_text_normalize hlast
  refine htext ▸ EndsAsScript.append ⟨start, "." ++ extension, ?_, rfl⟩ before
  simp only [Language.extensions, List.contains_iff_mem, List.mem_cons, List.not_mem_nil,
    or_false] at hscript
  rcases hscript with rfl | rfl | rfl | rfl <;> decide

/-- The endings that are changed leave a name behind a start without slashes. -/
theorem isEnding_of_mem (h : ending ∈ [".ts", ".tsx", ".d.ts", ".js"]) : Path.IsEnding ending := by
  have hslash : ∀ ending ∈ [".ts", ".tsx", ".d.ts", ".js"], '/' ∉ ending.toList ∧
    's' ∈ ending.toList := by decide
  exact ⟨(hslash ending h).1, 's', (hslash ending h).2, by decide⟩

/-- The files that stand for a path have names of scripts and are normal. -/
theorem of_mem_expansion {file : Path} (h : file ∈ expansion path) :
    EndsAsScript file.text ∧ Path.IsNormal file.components := by
  have hnormal := Path.isNormal_normalize path
  have hshown := hnormal.shown
  rw [← Path.components_shown] at hshown
  unfold expansion at h
  dsimp only at h
  generalize path.normalize.shown = text at h hshown
  rw [List.mem_append, List.mem_append, List.mem_map] at h
  rcases h with (hself | hsibling) | ⟨ending, hending, rfl⟩
  · split at hself
    next hscript =>
      obtain rfl := List.mem_singleton.1 hself
      exact ⟨endsAsScript_normalize hscript, hnormal⟩
    next => cases hself
  · split at hsibling
    next => cases hsibling
    next stem hstem =>
      have hcompiled : Path.IsEnding ".js" := isEnding_of_mem (by decide)
      rw [dropEnd?_eq_some_iff.1 hstem] at hshown
      rcases List.mem_pair.1 hsibling with rfl | rfl
      · exact ⟨⟨stem, ".ts", by decide, rfl⟩,
          hshown.replace_ending hcompiled (isEnding_of_mem (by decide))⟩
      · exact ⟨⟨stem, ".tsx", by decide, rfl⟩,
          hshown.replace_ending hcompiled (isEnding_of_mem (by decide))⟩
  · refine ⟨EndsAsScript.append ?_ _, ?_⟩
    · have hendings : ∀ ending ∈ moduleEndings, ∃ start ∈ ["", ".d", "/index"],
          ∃ last ∈ [".ts", ".tsx"], ending = start ++ last := by decide
      obtain ⟨start, -, last, hlast, rfl⟩ := hendings ending hending
      exact ⟨start, last, List.mem_append_left [".mts", ".cts"] hlast, rfl⟩
    · have hendings : ∀ ending ∈ moduleEndings, ending ∈ [".ts", ".tsx", ".d.ts", ".js"] ∨
          ∃ name ∈ ["index.ts", "index.tsx"], ending = "/" ++ name := by decide
      rcases hendings ending hending with hshort | ⟨name, hname, rfl⟩
      · exact hshown.append_ending (isEnding_of_mem hshort)
      · have hnames : ∀ name ∈ ["index.ts", "index.tsx"],
            '/' ∉ name.toList ∧ name ∉ ["", ".", ".."] := by decide
        obtain ⟨hslash, hdots⟩ := hnames name hname
        simp only [List.mem_cons, List.not_mem_nil, or_false, not_or] at hdots
        rw [← String.append_assoc]
        exact hshown.append_slash ⟨hdots.1, hdots.2.1, hdots.2.2, hslash⟩

/-- What an import leads to is a file with the name of a script, at a normal path. -/
theorem of_resolve? {fs' : FileSystem} {importer : Path}
    (h : (ofSettings fs' root settings).resolve? fs importer specifier = some path) :
    fs.isFile path = true ∧ EndsAsScript path.text ∧ path.normalize.components =
      path.components := by
  have hmem := List.mem_of_find?_eq_some h
  rw [candidates_ofSettings, List.mem_flatMap] at hmem
  obtain ⟨meant, -, hfile⟩ := hmem
  obtain ⟨hscript, hnormal⟩ := of_mem_expansion hfile
  exact ⟨List.find?_some h, hscript, Path.components_normalize_of_isNormal hnormal⟩

/-! ## Loaded projects -/

/-- The aliases that are read from the parts of the settings are in the order of their patterns. -/
theorem Settings.ordered_of_ofParts? {base paths : Option Document}
    (h : ofParts? base paths = some settings) :
    settings.aliases.Ordered := by
  unfold ofParts? at h
  split at h
  next base aliases _ haliases =>
    obtain rfl := Option.some.inj h
    cases paths with
    | none => exact Option.some.inj haliases ▸ Named.ordered_nil
    | some paths =>
        change aliasesOfDocument? paths = some aliases at haliases
        unfold aliasesOfDocument? at haliases
        split at haliases
        next entries =>
          obtain ⟨read, -, rfl⟩ := Option.map_eq_some_iff.1 haliases
          exact Named.ordered_ofEntries read
        next => cases haliases
  next => cases h

/-- The aliases that are read from the options are in the order of their patterns. -/
theorem Settings.ordered_of_ofOptions? {d : Document} (h : ofOptions? d = some settings) :
    settings.aliases.Ordered := by
  unfold ofOptions? at h
  split at h
  · split at h
    · cases h
    · cases h
    · exact Option.some.inj h ▸ Named.ordered_nil
    all_goals exact ordered_of_ofParts? h
  · exact ordered_of_ofParts? h
  · exact ordered_of_ofParts? h
  · cases h

/-- The aliases that are read from a manifest are in the order of their patterns. -/
theorem Settings.ordered_ofText (text : String) : (ofText text).aliases.Ordered := by
  unfold ofText
  cases hread : (Document.ofJson5? text).bind ofDocument? with
  | none => exact Named.ordered_nil
  | some settings =>
      obtain ⟨d, -, hd⟩ := Option.bind_eq_some_iff.1 hread
      change settings.aliases.Ordered
      unfold ofDocument? at hd
      split at hd
      · split at hd
        · exact Option.some.inj hd ▸ Named.ordered_nil
        · exact ordered_of_ofOptions? hd
        · cases hd
      · exact Option.some.inj hd ▸ Named.ordered_nil
      · exact ordered_of_ofOptions? hd
      · cases hd

/-- A loaded project is made from its root and its settings. -/
theorem IsLoaded.eq_ofSettings (h : IsLoaded fs p settings) :
    p = ofSettings fs p.root settings := by
  cases h <;> rfl

/-- The aliases of a loaded project are in the order of their patterns. -/
theorem IsLoaded.ordered (h : IsLoaded fs p settings) : settings.aliases.Ordered := by
  cases h with
  | manifest manifest =>
      split
      · exact Settings.ordered_ofText _
      · exact Named.ordered_nil
  | plain root => exact Named.ordered_nil

/-! ## The readings on texts -/

/-- A path that is taken from a directory has it in front, or stands alone. -/
theorem exists_text_join (start : Path) (target : String) :
    ∃ lead, (start.join ⟨target⟩).text = lead ++ target ∧
      ('*' ∉ start.text.toList → '*' ∉ lead.toList) := by
  rw [Path.join]
  split
  · exact ⟨"", by simp, by simp⟩
  · split
    · exact ⟨start.text, rfl, id⟩
    · exact ⟨start.text ++ "/", rfl, by simp⟩

/-- The star of a target is the first one of its path if there is none before the target. -/
theorem aims_iff (hstart : Text.isPlain start.text = true) (hstar : '*' ∉ start.text.toList)
    (htarget : Text.isPlain target = true) :
    Reading.written.Aims start rest target path ↔ Reading.shown.Aims start rest target path := by
  obtain ⟨lead, hlead, hnone⟩ := exists_text_join start target
  have hshown : (start.join ⟨target⟩).shown = lead ++ target := by
    rw [Path.shown, Text.shown_of_isPlain (Path.isPlain_join hstart htarget), hlead]
  have hfilled : String.ofList (fillStar rest.toList (lead ++ target).toList) =
      lead ++ String.ofList (fillStar rest.toList target.toList) := by
    rw [String.toList_append, fillStar_append_left (hnone hstar), String.ofList_append,
      String.ofList_toList]
  dsimp only [Reading.written, Reading.shown]
  rw [hshown, hlead, fills_iff, hfilled]
  constructor
  · rintro ⟨other, filled, hother, hfills, rfl⟩
    obtain rfl := (String.append_left_inj target).1 hother
    rw [fills_iff.1 hfills]
  · exact fun hpath => ⟨lead, _, rfl, fills_iff.2 rfl, Path.mk.injEq _ _ ▸ hpath.symm⟩

/-- Another reading has the same paths, if it aims all targets that are texts in the same way. -/
theorem HasPaths.imp {reading other : Reading} {aliases : List (String × List String)}
    (h : HasPaths reading start specifier aliases paths)
    (htargets : ∀ entry ∈ aliases, ∀ target ∈ entry.2, Text.isPlain target = true)
    (haims : ∀ target, Text.isPlain target = true → ∀ rest path,
      reading.Aims start rest target path → other.Aims start rest target path) :
    HasPaths other start specifier aliases paths := by
  induction h with
  | nil => exact .nil
  | skip hnone _ ih => exact .skip hnone (ih fun entry hentry => htargets entry (.tail _ hentry))
  | take hmatch hfilled _ ih =>
      have hplain := (List.forall₂_and_left _ _).2 ⟨htargets _ (.head _), hfilled⟩
      refine .take hmatch (hplain.imp fun target path ⟨htarget, haim⟩ => ?_)
        (ih fun entry hentry => htargets entry (.tail _ hentry))
      exact haims target htarget _ path haim

/-- An import of an ordinary project may mean the same paths in both readings. -/
theorem IsOrdinary.mayMean_iff (h : IsOrdinary root settings importer specifier) :
    MayMean .written root settings importer specifier paths ↔
      MayMean .shown root settings importer specifier paths := by
  have haims (target : String) (htarget : Text.isPlain target = true) (rest : String)
      (path : Path) :=
    @aims_iff _ path target rest h.start h.no_star htarget
  constructor
  · rintro (⟨hdots, hparent⟩ | ⟨hdots, hparent⟩ | ⟨hdots, haliases⟩)
    · exact .relative hdots hparent
    · exact .nowhere hdots hparent
    · exact .named hdots (haliases.imp h.targets fun target ht rest path =>
        (haims target ht rest path).1)
  · rintro (⟨hdots, hparent⟩ | ⟨hdots, hparent⟩ | ⟨hdots, haliases⟩)
    · exact .relative hdots hparent
    · exact .nowhere hdots hparent
    · exact .named hdots (haliases.imp h.targets fun target ht rest path =>
        (haims target ht rest path).2)

/-- The rest of a specifier that is a text is a text. -/
theorem Matches.isPlain (h : Matches pattern specifier rest)
    (hspecifier : Text.isPlain specifier = true) : Text.isPlain rest = true := by
  cases h with
  | same h => rfl
  | star start rest =>
      exact (Bool.and_eq_true_iff.1 (Text.isPlain_append start rest ▸ hspecifier)).2

/-- A target that is filled is a text if it and the rest are. -/
theorem Fills.isPlain {filled : String} (h : Fills rest target filled)
    (hrest : Text.isPlain rest = true) (htarget : Text.isPlain target = true) :
    Text.isPlain filled = true := by
  cases h with
  | star h =>
      simp only [Text.isPlain_append, Bool.and_eq_true] at htarget ⊢
      exact ⟨⟨htarget.1.1, hrest⟩, htarget.2⟩
  | plain h => exact htarget

/-- What a target means is a text if it, its start and the rest are. -/
theorem Reading.isPlain_of_aims (h : written.Aims start rest target path)
    (hstart : Text.isPlain start.text = true) (hrest : Text.isPlain rest = true)
    (htarget : Text.isPlain target = true) : Text.isPlain path.text = true := by
  obtain ⟨lead, filled, hlead, hfills, rfl⟩ := h
  have hjoined := Path.isPlain_join hstart (q := ⟨target⟩) htarget
  rw [hlead, Text.isPlain_append, Bool.and_eq_true] at hjoined
  rw [Text.isPlain_append, hjoined.1, hfills.isPlain hrest htarget]
  rfl

/-- The paths that aliases have are texts if the targets, their start and the specifier are. -/
theorem HasPaths.isPlain {aliases : List (String × List String)}
    (h : HasPaths .written start specifier aliases paths) (hstart : Text.isPlain start.text = true)
    (hspecifier : Text.isPlain specifier = true)
    (htargets : ∀ entry ∈ aliases, ∀ target ∈ entry.2, Text.isPlain target = true) :
    ∀ path ∈ paths, Text.isPlain path.text = true := by
  induction h with
  | nil => simp
  | skip hnone _ ih => exact ih fun entry hentry => htargets entry (.tail _ hentry)
  | take hmatch hfilled _ ih =>
      have hmore := ih fun entry hentry => htargets entry (.tail _ hentry)
      have haims := (List.forall₂_and_left _ _).2 ⟨htargets _ (.head _), hfilled⟩
      have hplain : List.Forall₂ (fun path target => Text.isPlain path.text = true ∧
          Reading.written.Aims start _ target path) _ _ :=
        .flip (haims.imp fun target path hpath =>
          ⟨Reading.isPlain_of_aims hpath.2 hstart (hmatch.isPlain hspecifier) hpath.1, hpath.2⟩)
      exact List.forall_mem_append.2 ⟨((List.forall₂_and_left _ _).1 hplain).1, hmore⟩

/-- In an ordinary project all that an import may mean is text. -/
theorem IsOrdinary.isPlain (h : IsOrdinary root settings importer specifier)
    (hpaths : MayMean .written root settings importer specifier paths) :
    ∀ path ∈ paths, Text.isPlain path.text = true := by
  rcases hpaths with ⟨-, hparent⟩ | ⟨-, -⟩ | ⟨-, haliases⟩
  · have hdirectory := Path.isPlain_of_parent? h.importer hparent
    intro path hpath
    rw [List.mem_singleton.1 hpath]
    exact Path.isPlain_join hdirectory h.specifier
  · simp
  · intro path hpath
    rcases List.mem_append.1 hpath with halias | hbase
    · exact haliases.isPlain h.start h.specifier h.targets path halias
    · obtain ⟨base, hdirectory, rfl⟩ := Option.map_eq_some_iff.1 (Option.mem_toList.1 hbase)
      have hstart := h.start
      rw [hdirectory] at hstart
      exact Path.isPlain_join hstart h.specifier

/-- A path that is a text has the same files in both readings. -/
theorem expands_written_iff (h : Text.isPlain path.text = true) :
    Expands .written path files ↔ Expands .shown path files := by
  have htext : Reading.written.text path.normalize = Reading.shown.text path.normalize :=
    (Text.shown_of_isPlain (Path.isPlain_normalize h)).symm
  rw [Expands, Expands, htext]

/-- Paths that are texts have the same files in both readings. -/
theorem forall₂_expands_iff {parts : List (List Path)}
    (h : ∀ path ∈ paths, Text.isPlain path.text = true) :
    List.Forall₂ (Expands .written) paths parts ↔ List.Forall₂ (Expands .shown) paths parts := by
  constructor
  · intro hparts
    exact ((List.forall₂_and_left _ _).2 ⟨h, hparts⟩).imp fun path files hpath =>
      (expands_written_iff hpath.1).1 hpath.2
  · intro hparts
    exact ((List.forall₂_and_left _ _).2 ⟨h, hparts⟩).imp fun path files hpath =>
      (expands_written_iff hpath.1).2 hpath.2

/-- An import of an ordinary project has the same choices in both readings. -/
theorem IsOrdinary.isChoices_iff (h : IsOrdinary root settings importer specifier) :
    IsChoices .written root settings importer specifier files ↔
      IsChoices .shown root settings importer specifier files := by
  refine exists_congr fun paths => exists_congr fun parts => ?_
  rw [← h.mayMean_iff]
  refine and_congr_right fun hpaths => ?_
  rw [forall₂_expands_iff (h.isPlain hpaths)]

/-- In a loaded project an import has one list of choices, which its settings and the importing file
decide, and leads to the first of them where a file stands, now and whenever files have changed; the
aliases are taken in the order of their patterns. What it leads to is a file with the name of a
script, and its path is normal. The choices are those that are written, as long as all that they are
looked for with is text and no star stands before the targets. -/
theorem resolved_imports {fs₀ : FileSystem} (h : IsLoaded fs₀ p settings) (fs : FileSystem)
    (importer : Path) (specifier : String) :
    settings.aliases.Ordered ∧
    (∃ files, (∀ choices, IsChoices .shown p.root settings importer specifier choices ↔
        choices = files) ∧
      ∀ result, p.resolve? fs importer specifier = result ↔ IsFirstFile fs files result) ∧
    (∀ path, p.resolve? fs importer specifier = some path →
      fs.isFile path = true ∧ EndsAsScript path.text ∧
        path.normalize.components = path.components) ∧
    (IsOrdinary p.root settings importer specifier → ∀ choices,
      IsChoices .written p.root settings importer specifier choices ↔
        IsChoices .shown p.root settings importer specifier choices) := by
  rw [h.eq_ofSettings]
  refine ⟨h.ordered, ⟨_, fun choices => isChoices_iff.trans eq_comm, fun result =>
    isFirstFile_iff.symm⟩, fun path hpath => of_resolve? hpath, fun hordinary choices => ?_⟩
  exact hordinary.isChoices_iff

/-! ## Projects with manifests -/

/-- The text of a file that stands at a path is read from it. -/
theorem readText_of_tree (h : fs.tree path = .ok (.file text.toUTF8)) :
    fs.readText path = .ok text := by
  have hutf8 : String.fromUTF8? text.toUTF8 = some text := dif_pos text.isValidUTF8
  simp only [FileSystem.readText, FileSystem.read, h, hutf8]

/-- A project with a manifest has the settings that the manifest says. -/
theorem isLoaded_of_manifest {manifest : Path} (hparent : manifest.parent? = some root)
    (hread : fs.readText manifest = .ok text) (hsettings : Settings.ofText text = settings) :
    IsLoaded fs (ofSettings fs root settings) settings := by
  have hloaded := @IsLoaded.manifest fs manifest
  simpa only [load, hread, hsettings, hparent, Option.getD_some] using hloaded

/-- A manifest with a base directory, and with an alias that may mean two directories. -/
def aliasManifest : String :=
  "\x7b\"compilerOptions\": \x7b\"baseUrl\": \"src\", " ++
    "\"paths\": \x7b\"@/*\": [\"lib/*\", \"app/*\"]\x7d\x7d\x7d"

/-- What the manifest says. -/
def aliasSettings : Settings := ⟨some "src", [("@/*", ["lib/*", "app/*"])]⟩

/-- A project with this manifest, and only one of the directories. -/
def aliasFiles : FileSystem :=
  let script := FileTree.file "".toUTF8
  let source := FileTree.directory
    [("app", .directory [("events.ts", script)]), ("main.ts", script)]
  ⟨.directory [("web", .directory
    [("src", source), ("tsconfig.json", .file aliasManifest.toUTF8)])], []⟩

/-- The project with the alias is loaded with its settings. -/
theorem isLoaded_aliasFiles :
    IsLoaded aliasFiles (ofSettings aliasFiles ⟨"/web"⟩ aliasSettings) aliasSettings := by
  have hparent : (Path.mk "/web/tsconfig.json").parent? = some ⟨"/web"⟩ := by
    simp only [Path.parent?, Path.pieces_eq]
    decide +kernel
  have hlocate : aliasFiles.locate ⟨"/web/tsconfig.json"⟩ = .ok ["web", "tsconfig.json"] := by
    simp only [FileSystem.locate, Path.pieces_eq]
    decide +kernel
  have htree : aliasFiles.tree ⟨"/web/tsconfig.json"⟩ = .ok (.file aliasManifest.toUTF8) := by
    rw [FileSystem.tree, hlocate]
    rfl
  have hsettings : Settings.ofText aliasManifest = aliasSettings := by decide +kernel
  exact isLoaded_of_manifest hparent (readText_of_tree htree) hsettings

/-- The alias leads past the first directory, and from the compiled file to the script that it stems
from. -/
theorem resolved_imports_of_alias :
    IsLoaded aliasFiles (ofSettings aliasFiles ⟨"/web"⟩ aliasSettings) aliasSettings ∧
    IsOrdinary ⟨"/web"⟩ aliasSettings ⟨"/web/src/main.ts"⟩ "@/events.js" ∧
    ∃ files, IsChoices .written ⟨"/web"⟩ aliasSettings ⟨"/web/src/main.ts"⟩ "@/events.js" files ∧
      IsFirstFile aliasFiles files (some ⟨"/web/src/app/events.ts"⟩) := by
  have hordinary : IsOrdinary ⟨"/web"⟩ aliasSettings ⟨"/web/src/main.ts"⟩ "@/events.js" := by
    constructor <;> decide +kernel
  have hresolve : (ofSettings aliasFiles ⟨"/web"⟩ aliasSettings).resolve? aliasFiles
      ⟨"/web/src/main.ts"⟩ "@/events.js" = some ⟨"/web/src/app/events.ts"⟩ := by
    have hmeant : meant ⟨"/web"⟩ aliasSettings ⟨"/web/src/main.ts"⟩ "@/events.js" =
        [⟨"/web/src/lib/events.js"⟩, ⟨"/web/src/app/events.js"⟩, ⟨"/web/src/@/events.js"⟩] := by
      decide +kernel
    rw [resolve?, candidates_ofSettings, hmeant]
    simp only [List.flatMap_cons, expansion, isScript, Path.extension?, Path.fileName?,
      Path.normalize, Path.components, Path.pieces_eq]
    unfold FileSystem.isFile FileSystem.tree FileSystem.locate
    simp only [Path.pieces_eq]
    decide +kernel
  obtain ⟨-, ⟨files, hchoices, hfirst⟩, -, hwritten⟩ :=
    resolved_imports isLoaded_aliasFiles aliasFiles ⟨"/web/src/main.ts"⟩ "@/events.js"
  exact ⟨isLoaded_aliasFiles, hordinary, files,
    (hwritten hordinary files).2 ((hchoices files).2 rfl), (hfirst _).1 hresolve⟩

/-! ## Directories that imports get wrong -/

/-- A manifest with an alias for another directory. -/
def starManifest : String :=
  "\x7b\"compilerOptions\": \x7b\"paths\": \x7b\"@e/*\": [\"shared/*\"]\x7d\x7d\x7d"

/-- What the manifest says. -/
def starSettings : Settings := ⟨none, [("@e/*", ["shared/*"])]⟩

/-- A project with this manifest in a directory with a star in its name. -/
def starFiles : FileSystem :=
  let script := FileTree.file "".toUTF8
  ⟨.directory [("p*q", .directory [("a.ts", script), ("shared", .directory [("names.ts", script)]),
    ("tsconfig.json", .file starManifest.toUTF8)])], []⟩

/-- The project with the star is loaded with its settings. -/
theorem isLoaded_starFiles :
    IsLoaded starFiles (ofSettings starFiles ⟨"/p*q"⟩ starSettings) starSettings := by
  have hparent : (Path.mk "/p*q/tsconfig.json").parent? = some ⟨"/p*q"⟩ := by
    simp only [Path.parent?, Path.pieces_eq]
    decide +kernel
  have hlocate : starFiles.locate ⟨"/p*q/tsconfig.json"⟩ = .ok ["p*q", "tsconfig.json"] := by
    simp only [FileSystem.locate, Path.pieces_eq]
    decide +kernel
  have htree : starFiles.tree ⟨"/p*q/tsconfig.json"⟩ = .ok (.file starManifest.toUTF8) := by
    rw [FileSystem.tree, hlocate]
    rfl
  have hsettings : Settings.ofText starManifest = starSettings := by decide +kernel
  exact isLoaded_of_manifest hparent (readText_of_tree htree) hsettings

/-- Two scripts in a directory whose name is no text. -/
def strayFiles : FileSystem :=
  let script := FileTree.file "".toUTF8
  ⟨.directory [("\x00\u00FF", .directory [("a.ts", script), ("names.ts", script)])], []⟩

/-- An import that means one path, which is no script itself, has the script with its name for its
first choice. -/
theorem exists_choices_of_script (hmeant : MayMean .written root settings importer specifier [path])
    (hpath : path.normalize = ⟨text⟩) (hscript : isScript ⟨text⟩ = false)
    (hcompiled : dropEnd? ".js" text = none) (hfile : fs.isFile ⟨text ++ ".ts"⟩ = true) :
    ∃ files, IsChoices .written root settings importer specifier files ∧
      IsFirstFile fs files (some ⟨text ++ ".ts"⟩) := by
  have hexpands : Expands .written path
      ([".ts", ".tsx", ".d.ts", "/index.ts", "/index.tsx"].map fun ending => ⟨text ++ ending⟩) := by
    refine ⟨[], .other ?_, ?_⟩
    · rw [hpath]
      exact dropEnd?_eq_none_iff.1 hcompiled
    · rw [hpath, hscript]
      rfl
  refine ⟨_, ⟨[path], _, hmeant, .cons hexpands .nil, rfl⟩, isFirstFile_iff.2 ?_⟩
  exact List.find?_cons_of_pos hfile

/-- What is written leads to a file below the directory with the star, but the import finds
nothing. -/
theorem choices_of_starFiles :
    (∃ files, IsChoices .written ⟨"/p*q"⟩ starSettings ⟨"/p*q/a.ts"⟩ "@e/names" files ∧
      IsFirstFile starFiles files (some ⟨"/p*q/shared/names.ts"⟩)) ∧
    (ofSettings starFiles ⟨"/p*q"⟩ starSettings).resolve? starFiles ⟨"/p*q/a.ts"⟩ "@e/names" =
      none := by
  have hmeant : MayMean .written ⟨"/p*q"⟩ starSettings ⟨"/p*q/a.ts"⟩ "@e/names"
      [⟨"/p*q/shared/names"⟩] := by
    have hdots : ¬StartsWithDots "@e/names" := by
      unfold StartsWithDots
      decide
    have hmatch : Matches "@e/*" "@e/names" "names" := matches_iff.2 (by decide +kernel)
    have hfills : Fills "names" "shared/*" "shared/names" := fills_iff.2 (by decide +kernel)
    have haims : Reading.written.Aims ⟨"/p*q"⟩ "names" "shared/*" ⟨"/p*q/shared/names"⟩ :=
      ⟨"/p*q/", "shared/names", by decide +kernel, hfills, rfl⟩
    have haliases : HasPaths .written ⟨"/p*q"⟩ "@e/names" starSettings.aliases
        [⟨"/p*q/shared/names"⟩] := .take hmatch (.cons haims .nil) .nil
    exact @MayMean.named .written ⟨"/p*q"⟩ starSettings _ _ _ hdots haliases
  have hread : (Path.mk "/p*q/shared/names").normalize = ⟨"/p*q/shared/names"⟩ ∧
      isScript ⟨"/p*q/shared/names"⟩ = false ∧ dropEnd? ".js" "/p*q/shared/names" = none ∧
      starFiles.isFile ⟨"/p*q/shared/names.ts"⟩ = true ∧
      (ofSettings starFiles ⟨"/p*q"⟩ starSettings).resolve? starFiles ⟨"/p*q/a.ts"⟩ "@e/names" =
        none := by
    have hmeant : meant ⟨"/p*q"⟩ starSettings ⟨"/p*q/a.ts"⟩ "@e/names" =
        [⟨"/pnamesq/shared/*"⟩] := by decide +kernel
    rw [resolve?, candidates_ofSettings, hmeant]
    simp only [List.flatMap_cons, expansion, isScript, Path.extension?, Path.fileName?,
      Path.normalize, Path.components, Path.pieces_eq]
    unfold FileSystem.isFile FileSystem.tree FileSystem.locate
    simp only [Path.pieces_eq]
    decide +kernel
  obtain ⟨hpath, hscript, hcompiled, hfile, hnone⟩ := hread
  exact ⟨exists_choices_of_script hmeant hpath hscript hcompiled hfile, hnone⟩

/-- What an import is written as leads to a file, but the star of the directory is filled in place
of that of the target, or the shown name of the directory is taken for its name, and nothing is
found. -/
theorem choices_passed_over :
    (IsLoaded starFiles (ofSettings starFiles ⟨"/p*q"⟩ starSettings) starSettings ∧
      (∃ files, IsChoices .written ⟨"/p*q"⟩ starSettings ⟨"/p*q/a.ts"⟩ "@e/names" files ∧
        IsFirstFile starFiles files (some ⟨"/p*q/shared/names.ts"⟩)) ∧
      (ofSettings starFiles ⟨"/p*q"⟩ starSettings).resolve? starFiles ⟨"/p*q/a.ts"⟩ "@e/names" =
        none) ∧
    (IsLoaded strayFiles (standalone strayFiles ⟨"/\x00\u00FF"⟩) {} ∧
      (∃ files, IsChoices .written ⟨"/\x00\u00FF"⟩ {} ⟨"/\x00\u00FF/a.ts"⟩ "./names" files ∧
        IsFirstFile strayFiles files (some ⟨"/\x00\u00FF/names.ts"⟩)) ∧
      (standalone strayFiles ⟨"/\x00\u00FF"⟩).resolve? strayFiles ⟨"/\x00\u00FF/a.ts"⟩ "./names" =
        none) := by
  have hmeant : MayMean .written ⟨"/\x00\u00FF"⟩ {} ⟨"/\x00\u00FF/a.ts"⟩ "./names"
      [(Path.mk "/\x00\u00FF").join ⟨"./names"⟩] := by
    refine .relative (.inl (by decide)) ?_
    simp only [Path.parent?, Path.pieces_eq]
    decide +kernel
  have hread : ((Path.mk "/\x00\u00FF").join ⟨"./names"⟩).normalize = ⟨"/\x00\u00FF/names"⟩ ∧
      isScript ⟨"/\x00\u00FF/names"⟩ = false ∧ dropEnd? ".js" "/\x00\u00FF/names" = none ∧
      strayFiles.isFile ⟨"/\x00\u00FF/names.ts"⟩ = true := by
    simp only [isScript, Path.extension?, Path.fileName?, Path.normalize, Path.components,
      FileSystem.isFile, FileSystem.tree, FileSystem.locate, Path.pieces_eq]
    decide +kernel
  obtain ⟨hpath, hscript, hcompiled, hfile⟩ := hread
  refine ⟨⟨isLoaded_starFiles, choices_of_starFiles⟩, .plain _,
    exists_choices_of_script hmeant hpath hscript hcompiled hfile, ?_⟩
  have hexpansion : meant ⟨"/\x00\u00FF"⟩ {} ⟨"/\x00\u00FF/a.ts"⟩ "./names" =
      [(Path.mk "/\x00\u00FF").join ⟨"./names"⟩] := by
    simp only [meant, Path.parent?, Path.pieces_eq]
    decide +kernel
  rw [standalone, resolve?, candidates_ofSettings, hexpansion]
  simp only [List.flatMap_cons, expansion, hpath, hscript]
  unfold FileSystem.isFile FileSystem.tree FileSystem.locate
  simp only [Path.pieces_eq]
  decide +kernel

end TrackingPlan.Project
