import TrackingPlan.Proofs.DeclarationLines
import TrackingPlan.Proofs.ResolvedImports
import TrackingPlan.Proofs.ScriptNames
import TrackingPlan.Proofs.TypeTables

/-!
# Types that a project knows by name

A type that a script neither declares nor imports is looked for in one script of its project: the
first one with a line that seems to declare it (`yields_expandName_iff`). So the type is found if
all such lines belong to true declarations in other scripts, which is what `project_types` says, and
`lookalike_hides_type` is a project where it is not.
-/

namespace TrackingPlan

namespace Script

variable {m : Module} {root n declaration : Node} {name : String}

/-! ## Declarations of a module -/

/-- The node declares a type of that name. -/
def DeclaresType (n : Node) (name : String) : Prop :=
  n.kind ∈ ["enum_declaration", "interface_declaration", "type_alias_declaration"] ∧
  n.childText? "name" = some name

/-- The node is a statement of the script itself, perhaps one that is exported or says what exists
elsewhere. -/
inductive IsTopLevel (root : Node) : Node → Prop where
  | child {n : Node} (h : n ∈ root.children) : IsTopLevel root n
  | inside {statement n : Node} (h : IsTopLevel root statement)
      (hkind : statement.kind ∈ ["export_statement", "ambient_declaration"])
      (hn : n ∈ statement.children) :
      IsTopLevel root n

/-- A declaration at the top of a file stands in it. -/
theorem IsTopLevel.within (h : IsTopLevel root n) : root.Within n := by
  induction h with
  | child h => exact .child .root h
  | inside _ _ hn ih => exact .child ih hn

/-- A site declares a type if it is its declaration. -/
theorem mem_typesAt_iff {s : Site} :
    (name, n) ∈ Module.typesAt s ↔ n = s.node ∧ DeclaresType n name := by
  have hkinds : s.kind ∈ ["enum_declaration", "interface_declaration", "type_alias_declaration"] →
      Module.typesAt s = (s.childText? "name").toList.map (·, s.node) := by
    intro hkind
    simp only [List.mem_cons, List.not_mem_nil, or_false] at hkind
    unfold Module.typesAt
    rcases hkind with hkind | hkind | hkind <;> rw [hkind] <;> cases s.childText? "name" <;> rfl
  constructor
  · intro h
    by_cases hkind :
      s.kind ∈ ["enum_declaration", "interface_declaration", "type_alias_declaration"]
    · rw [hkinds hkind] at h
      obtain ⟨found, hfound, hpair⟩ := List.mem_map.1 h
      obtain ⟨rfl, rfl⟩ := Prod.mk.inj hpair
      exact ⟨rfl, hkind, Option.mem_toList.1 hfound⟩
    · simp only [List.mem_cons, List.not_mem_nil, or_false, not_or] at hkind
      unfold Module.typesAt at h
      split at h
      all_goals first
        | exact absurd (by assumption) hkind.1
        | exact absurd (by assumption) hkind.2.1
        | exact absurd (by assumption) hkind.2.2
        | cases h
  · rintro ⟨rfl, hkind, hname⟩
    rw [hkinds hkind]
    exact List.mem_map.2 ⟨name, Option.mem_toList.2 hname, rfl⟩

/-- A module lists the types that are declared in it. -/
theorem mem_types_iff : (name, n) ∈ m.types ↔ m.root.Within n ∧ DeclaresType n name := by
  rw [m.types_eq, List.mem_flatMap]
  constructor
  · rintro ⟨s, hs, hmem⟩
    obtain ⟨rfl, hdeclares⟩ := mem_typesAt_iff.1 hmem
    exact ⟨Site.within_of_mem_all .root hs, hdeclares⟩
  · rintro ⟨hwithin, hdeclares⟩
    obtain ⟨s, hs, rfl⟩ := Site.exists_mem_all hwithin
    exact ⟨s, hs, mem_typesAt_iff.2 ⟨rfl, hdeclares⟩⟩

/-- The declaration that is found for a type is one of it in the module. -/
theorem declaresType_of_type? (h : m.type? name = some declaration) :
    m.root.Within declaration ∧ DeclaresType declaration name :=
  mem_types_iff.1 (List.mem_reverse.1 (Named.mem_of_lookup h))

/-- A type that is declared in a module is found there. -/
theorem exists_type? (hwithin : m.root.Within n) (h : DeclaresType n name) :
    ∃ declaration, m.type? name = some declaration := by
  refine Option.ne_none_iff_exists'.1 fun hnone => ?_
  have hmem := List.mem_reverse.2 (mem_types_iff.2 ⟨hwithin, h⟩)
  simpa using List.lookup_eq_none_iff.1 hnone _ hmem

end Script

namespace Project

open Script

variable {fs : FileSystem} {p : Project} {settings : Settings} {root path : Path}
  {paths files : List Path}
  {table : Named Path} {name : String} {m : Module} {seen : Expanding}

/-! ## The scripts that seem to declare a type -/

/-- A line of the script reads as the declaration of the type. -/
def Seems (fs : FileSystem) (path : Path) (name : String) : Prop :=
  ∃ text before line rest, fs.readText path = .ok text ∧ text.toList = before ++ line ∧
    StartsLine true before ∧ Declares line name rest

/-- `lists fs name path` holds when the script at `path` is listed for the type. -/
def lists (fs : FileSystem) (name : String) (path : Path) : Bool :=
  match fs.readText path with
  | .ok text => (typeNames text).contains name
  | .error _ => false

/-- A file that lists a type has a line that seems to declare it. -/
theorem seems_of_lists (h : lists fs name path = true) : Seems fs path name := by
  unfold lists at h
  split at h
  next text htext =>
    obtain ⟨before, line, rest, hsplit, hstart, hdeclares⟩ :=
      exists_of_mem_typeNames (List.contains_iff_mem.1 h)
    exact ⟨text, before, line, rest, htext, hsplit, hstart, hdeclares⟩
  next => cases h

/-- Names are put in where nothing was found before. -/
theorem find?_foldl_insert (names : List String) (table : Named Path) :
    (names.foldl (fun (files : Named Path) n => if (files.find? n).isSome then files
      else files.insert n path)
      table).find? name = (table.find? name).or (if name ∈ names then some path else none) := by
  induction names generalizing table with
  | nil => simp
  | cons first names ih =>
      rw [List.foldl_cons, ih]
      by_cases hfirst : first = name
      · subst hfirst
        cases hfound : table.find? first with
        | none => simp [Named.find?_insert]
        | some found => simp [hfound]
      · have hmem : name ∈ first :: names ↔ name ∈ names := by simp [Ne.symm hfirst]
        split
        · simp only [hmem]
        · simp only [hmem, Named.find?_insert, if_neg hfirst]

/-- The types of a file are put in where nothing was found before. -/
theorem find?_addTypes (fs : FileSystem) (table : Named Path) (path : Path) (name : String) :
    (addTypes fs table path).find? name =
      (table.find? name).or (if lists fs name path = true then some path else none) := by
  unfold addTypes lists
  cases fs.readText path with
  | error fault => simp
  | ok text => simp only [find?_foldl_insert, List.contains_iff_mem]

/-- The table has the first of the files that are listed for a type. -/
theorem find?_foldl_addTypes (fs : FileSystem) (files : List Path) (table : Named Path)
    (name : String) :
    (files.foldl (addTypes fs) table).find? name = (table.find? name).or
      (files.find? (lists fs name)) := by
  induction files generalizing table with
  | nil => simp
  | cons first files ih =>
      rw [List.foldl_cons, ih, find?_addTypes, Option.or_assoc, List.find?_cons]
      cases lists fs name first <;> simp

/-- A loaded project knows the types of the scripts below its root. -/
theorem IsLoaded.typeFiles_eq (h : IsLoaded fs p settings) :
    p.typeFiles = typeFilesOf fs p.root := by
  cases h <;> rfl

/-- The file of a type is the first script that lists it, if there are not too many. -/
theorem IsLoaded.find?_typeFiles (h : IsLoaded fs p settings)
    (hlimit : (scripts fs p.root).length ≤ maxFiles)
    (name : String) : p.typeFiles.find? name = (scripts fs p.root).find? (lists fs name) := by
  rw [h.typeFiles_eq, typeFilesOf, if_neg (Nat.not_lt.2 hlimit), find?_foldl_addTypes]
  rfl

/-- A table of modules holds what stands in the files. -/
theorem find?_ofFiles (fs : FileSystem) (files : List Path) (path : Path) :
    (ModuleTable.ofFiles fs files).find? fs path = moduleAt? fs path := by
  unfold ModuleTable.find? ModuleTable.ofFiles
  split
  next found hfound =>
    obtain ⟨file, -, hfile⟩ := List.mem_map.1 (Named.mem_of_lookup hfound)
    obtain ⟨htext, rfl⟩ := Prod.mk.inj hfile
    have hsame : file.normalize = path.normalize := congrArg Path.mk htext
    show moduleAt? fs file = moduleAt? fs path
    rw [moduleAt?, moduleAt?, hsame]
  next => rfl

/-- The module that declares a type is that of the first script that lists it. -/
theorem IsLoaded.declaring_eq (h : IsLoaded fs p settings)
    (hlimit : (scripts fs p.root).length ≤ maxFiles)
    (files : List Path) (name : String) : (p.modules fs (.ofFiles fs files)).declaring name =
      ((scripts fs p.root).find? (lists fs name)).bind (moduleAt? fs) := by
  show (p.typeFiles.find? name).bind ((ModuleTable.ofFiles fs files).find? fs) = _
  rw [h.find?_typeFiles hlimit]
  exact congrArg _ (funext (find?_ofFiles fs files))

/-! ## What the project says of a type -/

variable {modules : Modules} {result : Option Schema}

/-- What a type stands for in a script that neither declares nor imports it: the declaration in the
first of the scripts that are listed for it, if it is there, and that script is another one. -/
inductive IsFallback (modules : Modules) (fs : FileSystem) (paths : List Path) (m : Module)
    (name : String) (seen : Expanding) : Option Schema → Prop where
  | found {before after : List Path} {path : Path} {target : Module} {declaration : Node}
      {schema : Schema}
      (hpaths : paths = before ++ path :: after) (hlists : lists fs name path = true)
      (hbefore : ∀ earlier ∈ before, lists fs name earlier = false)
      (hmodule : moduleAt? fs path = some target)
      (hother : target.path.same m.path = false) (hdeclared : target.type? name = some declaration)
      (hschema : Yields (modules.expandDeclaration target name declaration 1) seen schema) :
      IsFallback modules fs paths m name seen (some schema)
  | missed {before after : List Path} {path : Path} (hpaths : paths = before ++ path :: after)
      (hlists : lists fs name path = true)
      (hbefore : ∀ earlier ∈ before, lists fs name earlier = false)
      (hmissed : ∀ target, moduleAt? fs path = some target → target.path.same m.path = false →
        target.type? name = none) : IsFallback modules fs paths m name seen none
  | unlisted (h : ∀ path ∈ paths, lists fs name path = false) :
      IsFallback modules fs paths m name seen none

/-- A name that is neither declared nor imported is looked for in the whole project. -/
theorem reference_of_unknown (hown : m.type? name = none) (himport : m.import? name = none)
    (seen : Expanding) :
    reference modules m 0 seen name = (modules.declaring name).bind fun target =>
      if target.path.same m.path then none
      else (target.type? name).map fun declaration =>
          declaredType modules name seen target declaration 1 := by
  rw [reference_eq, namedSchema, if_neg (by decide), hown, himport]
  dsimp only
  rw [if_pos rfl]
  cases modules.declaring name with
  | none => rfl
  | some target =>
      dsimp only [Option.bind_some]
      split
      · rfl
      · cases target.type? name <;> rfl

/-- A fallback is what a name refers to that is neither declared nor imported. -/
theorem isFallback_iff
    (hdeclaring : modules.declaring name = (paths.find? (lists fs name)).bind (moduleAt? fs))
    (hown : m.type? name = none) (himport : m.import? name = none) :
    IsFallback modules fs paths m name seen result ↔ reference modules m 0 seen name = result := by
  rw [reference_of_unknown hown himport, hdeclaring]
  constructor
  · intro h
    cases h with
    | found hpaths hlists hbefore hmodule hother hdeclared hschema =>
        rw [find?_eq_some_iff_split.2 ⟨_, _, hpaths, hlists, hbefore⟩, Option.bind_some, hmodule,
          Option.bind_some, hother, if_neg Bool.false_ne_true, hdeclared, Option.map_some,
          (yields_declaredType modules name seen _ _ 1).eq hschema]
    | missed hpaths hlists hbefore hmissed =>
        rw [find?_eq_some_iff_split.2 ⟨_, _, hpaths, hlists, hbefore⟩, Option.bind_some,
          Option.bind_eq_none_iff]
        intro target hmodule
        split
        next => rfl
        next hother => rw [hmissed target hmodule (Bool.eq_false_iff.2 hother), Option.map_none]
    | unlisted h =>
        have hnone : paths.find? (lists fs name) = none :=
          List.find?_eq_none.2 fun path hpath => by simp [h path hpath]
        rw [hnone, Option.bind_none, Option.bind_none]
  · rintro rfl
    cases hfirst : paths.find? (lists fs name) with
    | none =>
        refine .unlisted fun path hpath => ?_
        simpa using List.find?_eq_none.1 hfirst path hpath
    | some path =>
        obtain ⟨before, after, hpaths, hlists, hbefore⟩ := find?_eq_some_iff_split.1 hfirst
        rw [Option.bind_some]
        cases hmodule : moduleAt? fs path with
        | none =>
            exact .missed hpaths hlists hbefore fun target htarget => by simp [hmodule] at htarget
        | some target =>
            rw [Option.bind_some]
            cases hsame : target.path.same m.path with
            | true =>
                refine .missed hpaths hlists hbefore fun other hother hne => ?_
                obtain rfl := Option.some.inj (hmodule.symm.trans hother)
                cases hsame.symm.trans hne
            | false =>
                rw [if_neg Bool.false_ne_true]
                cases hdeclared : target.type? name with
                | none =>
                    refine .missed hpaths hlists hbefore fun other hother _ => ?_
                    obtain rfl := Option.some.inj (hmodule.symm.trans hother)
                    exact hdeclared
                | some declaration =>
                    exact .found hpaths hlists hbefore hmodule hsame hdeclared
                      (yields_declaredType modules name seen target declaration 1)

/-- The expansion of such a name yields its fallback. -/
theorem yields_expandName_iff
    (hdeclaring : modules.declaring name = (paths.find? (lists fs name)).bind (moduleAt? fs))
    (hown : m.type? name = none) (himport : m.import? name = none) :
    Yields (modules.expandName m name 0) seen result ↔
      IsFallback modules fs paths m name seen result := by
  have hyields := yields_reference modules m name 0 seen
  rw [isFallback_iff hdeclaring hown himport]
  constructor
  · exact hyields.eq
  · rintro rfl
    exact hyields

/-- The script at `path` declares the type where the lines say so. -/
def DeclaresPlainly (fs : FileSystem) (path : Path) (name : String) : Prop :=
  ∃ text before line rest, fs.readText path = .ok text ∧ text.toList = before ++ line ∧
    StartsLine true before ∧ ¬EndsInWord before ∧ Declares line name rest

/-- A file with a plain declaration of a type lists it. -/
theorem DeclaresPlainly.lists (h : DeclaresPlainly fs path name) : lists fs name path = true := by
  obtain ⟨text, before, line, rest, htext, hsplit, hstart, hword, hdeclares⟩ := h
  rw [Project.lists, htext]
  exact List.contains_iff_mem.2 (mem_typeNames hsplit hstart hword hdeclares)

/-- The script at `path` has the module `target`, which is not `m`, and declares the type among its
own statements only. -/
structure DeclaresOnTop (fs : FileSystem) (m : Module) (name : String) (path : Path)
    (target : Module) : Prop where
  module : moduleAt? fs path = some target
  other : target.path.same m.path = false
  declares : ∃ n, IsTopLevel target.root n ∧ DeclaresType n name
  onTop : ∀ n, target.root.Within n → DeclaresType n name → IsTopLevel target.root n

/-- In a project within the limit, a type that a script neither declares nor imports stands for what
the first of the scripts that are listed for it declares, and for nothing if that script does not
declare it. So it has the schema of a declaration among the statements of another script, if there
is a line that declares it, and if each line that seems to declare it is in another script that does
so among its own statements only. -/
theorem project_types (hproject : IsLoaded fs p settings)
    (hlimit : (scripts fs p.root).length ≤ maxFiles)
    (files : List Path) (hown : m.type? name = none) (himport : m.import? name = none)
    (seen : Expanding) :
    let modules := p.modules fs (.ofFiles fs files)
    (∀ result, Yields (modules.expandName m name 0) seen result ↔
      IsFallback modules fs (scripts fs p.root) m name seen result) ∧
    ((∃ path ∈ scripts fs p.root, DeclaresPlainly fs path name) →
      (∀ path ∈ scripts fs p.root, Seems fs path name →
        ∃ target, DeclaresOnTop fs m name path target) →
      ∃ path ∈ scripts fs p.root, ∃ target declaration schema, DeclaresOnTop fs m name path target ∧
        IsTopLevel target.root declaration ∧ DeclaresType declaration name ∧
        Yields (modules.expandDeclaration target name declaration 1) seen schema ∧
        Yields (modules.expandName m name 0) seen (some schema)) := by
  intro modules
  have hiff : ∀ result, Yields (modules.expandName m name 0) seen result ↔
      IsFallback modules fs (scripts fs p.root) m name seen result := fun result =>
    yields_expandName_iff (hproject.declaring_eq hlimit files name) hown himport
  refine ⟨hiff, fun ⟨path, hpath, hplain⟩ htrue => ?_⟩
  obtain ⟨first, hfirst⟩ :=
    Option.isSome_iff_exists.1 (List.find?_isSome.2 ⟨path, hpath, hplain.lists⟩)
  obtain ⟨before, after, hpaths, hlists, hbefore⟩ := find?_eq_some_iff_split.1 hfirst
  have hmem : first ∈ scripts fs p.root := List.mem_of_find?_eq_some hfirst
  obtain ⟨target, htarget⟩ := htrue first hmem (seems_of_lists hlists)
  obtain ⟨n, hn, hdeclares⟩ := htarget.declares
  obtain ⟨declaration, hdeclared⟩ := exists_type? hn.within hdeclares
  obtain ⟨hwithin, hname⟩ := declaresType_of_type? hdeclared
  have hschema := yields_declaredType modules name seen target declaration 1
  refine ⟨first, hmem, target, declaration, _, htarget, htarget.onTop declaration hwithin hname,
    hname, hschema, ?_⟩
  exact (hiff _).2 (.found hpaths hlists hbefore htarget.module htarget.other hdeclared hschema)

/-! ## Looking alike -/

/-- The module at a path is read from the text of the file. -/
theorem moduleAt?_of_tree {text : String} (hnormal : path.normalize = path)
    (h : fs.tree path = .ok (.file text.toUTF8)) :
    moduleAt? fs path = some (.ofTree path (Script.read (dialectOf path) (.ofString text))) := by
  simp only [moduleAt?, hnormal, FileSystem.read, h, Source.ofString]

/-- A text whose lines do not read as the declaration of a type does not seem to declare it. -/
theorem not_seems {text : String} (htext : fs.readText path = .ok text)
    (h : ∀ line ∈ text.toList.tails, (declared? line).map Prod.fst ≠ some name) :
    ¬Seems fs path name := by
  rintro ⟨other, before, line, rest, hother, hsplit, -, hdeclares⟩
  obtain rfl := Except.ok.inj (htext.symm.trans hother)
  refine h line ((List.mem_tails ..).2 ⟨before, hsplit.symm⟩) ?_
  rw [declared?_eq_some_iff.2 hdeclares, Option.map_some]

/-- A file that starts with a declaration declares the type plainly. -/
theorem declaresPlainly_of_first {text : String} (htext : fs.readText path = .ok text)
    (h : (declared? text.toList).map Prod.fst = some name) : DeclaresPlainly fs path name := by
  obtain ⟨⟨found, rest⟩, hdeclared, rfl⟩ := Option.map_eq_some_iff.1 h
  refine ⟨text, [], _, rest, htext, rfl, .inl ⟨rfl, rfl⟩, ?_, declared?_eq_some_iff.1 hdeclared⟩
  rintro ⟨start, gap, introducer, hword, -, hnil⟩
  have hne : ∀ introducer ∈ introducers, introducer.toList ≠ [] := by decide
  exact hne introducer hword (List.append_eq_nil_iff.1 (List.append_eq_nil_iff.1 hnil.symm).1).2

/-- One declaration among the statements of a script is the only one if no other is indexed. -/
theorem onTop_of_length_le_one {n : Node} (h : (m.types.filter (·.1 = name)).length ≤ 1)
    (hn : IsTopLevel m.root n) (hname : DeclaresType n name) :
    ∀ other, m.root.Within other → DeclaresType other name → IsTopLevel m.root other := by
  intro other hwithin hother
  have hmem : ∀ {d}, m.root.Within d → DeclaresType d name →
      (name, d) ∈ m.types.filter (·.1 = name) := fun hd hname =>
    List.mem_filter.2 ⟨mem_types_iff.2 ⟨hd, hname⟩, decide_eq_true rfl⟩
  obtain ⟨entry, hentry⟩ := List.length_eq_one_iff.1
    (Nat.le_antisymm h (List.length_pos_of_mem (hmem hn.within hname)))
  have hfirst := hmem hn.within hname
  have hsecond := hmem hwithin hother
  rw [hentry, List.mem_singleton] at hfirst hsecond
  obtain ⟨-, rfl⟩ := Prod.mk.inj (hfirst.trans hsecond.symm)
  exact hn

/-- A script with a type. -/
def declaringScript : String := "export interface P \x7b plan: string \x7d\n"

/-- A script that uses the type, and neither declares nor imports it. -/
def usingScript : String := "function f(p: P) \x7b analytics.track('Signup', p); \x7d\n"

/-- A script that has nothing to do with the type. -/
def plainScript : String := "export const help = 'plan';\n"

/-- A script with a text in which a line reads as the declaration of the type. -/
def lookalikeScript : String := "export const help = `\ninterface P \x7b wrong: string \x7d\n`;\n"

/-- A directory with the two scripts, and one more that comes first. -/
def filesBehind (first : String) : FileSystem :=
  let entries := [("a.ts", first), ("b.ts", declaringScript), ("c.ts", usingScript)]
  ⟨.directory [("web", .directory (entries.map fun entry => (entry.1, .file entry.2.toUTF8)))], []⟩

/-- `scriptPath name` is the path of the script of that name in the directory. -/
def scriptPath (name : String) : Path := ⟨"/web/" ++ name⟩

/-- `scriptModule name text` is the module with that text in the directory. -/
def scriptModule (name text : String) : Module :=
  .ofTree (scriptPath name) (Script.read .typeScript (.ofString text))

section FilesBehind

variable {first text : String} (hfirst : first ∈ [plainScript, lookalikeScript])
include hfirst

/-- The sample scripts stand where they are said to. -/
theorem tree_filesBehind (h : (name, text) ∈ [("a.ts", first), ("b.ts", declaringScript),
    ("c.ts", usingScript)]) :
    (filesBehind first).tree (scriptPath name) = .ok (.file text.toUTF8) := by
  have hlocate : ∀ first ∈ [plainScript, lookalikeScript], ∀ name ∈ ["a.ts", "b.ts", "c.ts"],
      (filesBehind first).locate (scriptPath name) = .ok ["web", name] := by
    simp only [FileSystem.locate, Path.pieces_eq]
    decide +kernel
  rw [FileSystem.tree, hlocate first hfirst name (List.mem_map_of_mem (f := Prod.fst) h)]
  simp only [List.mem_cons, List.not_mem_nil, or_false, Prod.mk.injEq] at h
  rcases h with ⟨rfl, rfl⟩ | ⟨rfl, rfl⟩ | ⟨rfl, rfl⟩ <;> rfl

/-- The sample scripts are read as modules. -/
theorem moduleAt?_filesBehind (h : (name, text) ∈ [("a.ts", first), ("b.ts", declaringScript),
    ("c.ts", usingScript)]) :
    moduleAt? (filesBehind first) (scriptPath name) = some (scriptModule name text) := by
  have hpaths : ∀ name ∈ ["a.ts", "b.ts", "c.ts"], (scriptPath name).normalize = scriptPath name ∧
      dialectOf (scriptPath name) = .typeScript := by
    simp only [Path.normalize, dialectOf, Path.extension?, Path.fileName?, Path.components,
      Path.pieces_eq]
    decide +kernel
  have hname : name ∈ ["a.ts", "b.ts", "c.ts"] := List.mem_map_of_mem (f := Prod.fst) h
  obtain ⟨hnormal, hdialect⟩ := hpaths name hname
  rw [moduleAt?_of_tree hnormal (tree_filesBehind hfirst h), hdialect, scriptModule]

/-- The sample scripts are those of the project, in order. -/
theorem scripts_filesBehind :
    scripts (filesBehind first) ⟨"/web"⟩ = [scriptPath "a.ts", scriptPath "b.ts",
      scriptPath "c.ts"] := by
  have hwalk : ∀ first ∈ [plainScript, lookalikeScript],
      ((filesBehind first).walk (fun name _ _ => !isHidden name && !skippedNames.contains name)
        ⟨"/web"⟩).filter
        isScript = [scriptPath "a.ts", scriptPath "b.ts", scriptPath "c.ts"] := by
    unfold isScript Path.extension? Path.fileName? FileSystem.walk FileSystem.tree FileSystem.locate
      Path.components
    simp only [Path.pieces_eq]
    decide +kernel
  have hsorted : [scriptPath "a.ts", scriptPath "b.ts", scriptPath "c.ts"].Pairwise
      fun a b => (Path.compare a b).isLE = true := by
    simp only [Path.compare, Path.components, Path.pieces_eq]
    decide +kernel
  rw [scripts, hwalk first hfirst]
  exact List.mergeSort_of_pairwise hsorted

/-- The type is declared in another script, among its own statements. -/
theorem declaresOnTop_filesBehind :
    DeclaresOnTop (filesBehind first) (scriptModule "c.ts" usingScript) "P"
    (scriptPath "b.ts") (scriptModule "b.ts" declaringScript) := by
  obtain ⟨⟨statement, hstatement, hkind, n, hn, hnkind, hname⟩, honly⟩ :
      (∃ statement ∈ (scriptModule "b.ts" declaringScript).root.children,
        statement.kind = "export_statement" ∧ ∃ n ∈ statement.children,
          n.kind = "interface_declaration" ∧ n.childText? "name" = some "P") ∧
        ((scriptModule "b.ts" declaringScript).types.filter (·.1 = "P")).length ≤ 1 := by
    decide +kernel
  have htop : IsTopLevel (scriptModule "b.ts" declaringScript).root n :=
    .inside (.child hstatement) (by simp [hkind]) hn
  have hdeclares : DeclaresType n "P" := ⟨by simp [hnkind], hname⟩
  have hother : (scriptPath "b.ts").same (scriptPath "c.ts") = false := by
    simp only [Path.same, Path.components, Path.pieces_eq]
    decide +kernel
  exact ⟨moduleAt?_filesBehind hfirst (by simp), hother, ⟨n, htop, hdeclares⟩,
    onTop_of_length_le_one honly htop hdeclares⟩

/-- The second sample script declares the type. -/
theorem declaresPlainly_filesBehind :
    DeclaresPlainly (filesBehind first) (scriptPath "b.ts") "P" := by
  have htext : (filesBehind first).readText (scriptPath "b.ts") = .ok declaringScript :=
    readText_of_tree (tree_filesBehind hfirst (by simp))
  exact declaresPlainly_of_first htext (by decide +kernel)

end FilesBehind

/-- The sample project is small enough. -/
theorem length_scripts_filesBehind {first : String}
    (hfirst : first ∈ [plainScript, lookalikeScript]) :
    (scripts (filesBehind first) (standalone (filesBehind first) ⟨"/web"⟩).root).length ≤
      maxFiles := by
  show (scripts (filesBehind first) ⟨"/web"⟩).length ≤ maxFiles
  rw [scripts_filesBehind hfirst]
  decide

/-- The third sample script neither declares nor imports the type. -/
theorem unbound_usingScript : (scriptModule "c.ts" usingScript).type? "P" = none ∧
    (scriptModule "c.ts" usingScript).import? "P" = none := by
  rw [← Option.isNone_iff_eq_none]
  decide +kernel

/-- Beside a script that has nothing to do with the type, it is found. -/
theorem project_types_of_plain :
    let fs := filesBehind plainScript
    let p := standalone fs ⟨"/web"⟩
    let m := scriptModule "c.ts" usingScript
    (IsLoaded fs p {} ∧ (scripts fs p.root).length ≤ maxFiles ∧ m.type? "P" = none ∧
        m.import? "P" = none) ∧
      (∃ path ∈ scripts fs p.root, DeclaresPlainly fs path "P") ∧
      (∀ path ∈ scripts fs p.root, Seems fs path "P" →
        ∃ target, DeclaresOnTop fs m "P" path target) ∧
      ∃ schema, Yields ((p.modules fs (.ofFiles fs [])).expandName m "P" 0) [] (some schema) := by
  intro fs p m
  have hfirst : plainScript ∈ [plainScript, lookalikeScript] := List.mem_cons_self
  have hlimit := length_scripts_filesBehind hfirst
  have hscripts : scripts fs p.root = [scriptPath "a.ts", scriptPath "b.ts", scriptPath "c.ts"] :=
    scripts_filesBehind hfirst
  have hplain : ∃ path ∈ scripts fs p.root, DeclaresPlainly fs path "P" :=
    ⟨scriptPath "b.ts", by simp [hscripts], declaresPlainly_filesBehind hfirst⟩
  have htexts : fs.readText (scriptPath "a.ts") = .ok plainScript ∧
      fs.readText (scriptPath "c.ts") = .ok usingScript :=
    ⟨readText_of_tree (tree_filesBehind hfirst (by simp)),
      readText_of_tree (tree_filesBehind hfirst (by simp))⟩
  have htrue : ∀ path ∈ scripts fs p.root, Seems fs path "P" →
      ∃ target, DeclaresOnTop fs m "P" path target := by
    intro path hpath hseems
    rw [hscripts] at hpath
    simp only [List.mem_cons, List.not_mem_nil, or_false] at hpath
    rcases hpath with rfl | rfl | rfl
    · exact absurd hseems (not_seems htexts.1 (by decide +kernel))
    · exact ⟨_, declaresOnTop_filesBehind hfirst⟩
    · exact absurd hseems (not_seems htexts.2 (by decide +kernel))
  obtain ⟨-, htypes⟩ :=
    project_types (.plain ⟨"/web"⟩) hlimit [] unbound_usingScript.1 unbound_usingScript.2 []
  obtain ⟨-, -, -, -, schema, -, -, -, -, hschema⟩ := htypes hplain htrue
  exact ⟨⟨.plain _, hlimit, unbound_usingScript⟩, hplain, htrue, schema, hschema⟩

/-- A text in which a line reads as its declaration hides the type, which is declared in another
script. -/
theorem lookalike_hides_type :
    let fs := filesBehind lookalikeScript
    let p := standalone fs ⟨"/web"⟩
    let m := scriptModule "c.ts" usingScript
    (IsLoaded fs p {} ∧ (scripts fs p.root).length ≤ maxFiles ∧ m.type? "P" = none ∧
        m.import? "P" = none) ∧
      (∃ path ∈ scripts fs p.root, DeclaresPlainly fs path "P" ∧
        ∃ target, DeclaresOnTop fs m "P" path target) ∧
      Yields ((p.modules fs (.ofFiles fs [])).expandName m "P" 0) [] none := by
  intro fs p m
  have hfirst : lookalikeScript ∈ [plainScript, lookalikeScript] :=
    List.mem_cons_of_mem _ List.mem_cons_self
  have hlimit := length_scripts_filesBehind hfirst
  have hproject : IsLoaded fs p {} := .plain ⟨"/web"⟩
  have hscripts : scripts fs p.root = [scriptPath "a.ts", scriptPath "b.ts", scriptPath "c.ts"] :=
    scripts_filesBehind hfirst
  have htext : fs.readText (scriptPath "a.ts") = .ok lookalikeScript :=
    readText_of_tree (tree_filesBehind hfirst (by simp))
  have hlists : lists fs "P" (scriptPath "a.ts") = true := by
    rw [lists, htext]
    decide +kernel
  have hmissed : ∀ target, moduleAt? fs (scriptPath "a.ts") = some target →
    target.path.same m.path = false →
      target.type? "P" = none := by
    intro target htarget _
    have hmodule : moduleAt? fs (scriptPath "a.ts") = some (scriptModule "a.ts" lookalikeScript) :=
      moduleAt?_filesBehind hfirst (by simp)
    rw [hmodule, Option.some.injEq] at htarget
    rw [← htarget, ← Option.isNone_iff_eq_none]
    decide +kernel
  refine ⟨⟨hproject, hlimit, unbound_usingScript⟩, ⟨scriptPath "b.ts", by simp [hscripts],
    declaresPlainly_filesBehind hfirst, _, declaresOnTop_filesBehind hfirst⟩, ?_⟩
  refine (yields_expandName_iff (hproject.declaring_eq hlimit [] "P") unbound_usingScript.1
    unbound_usingScript.2).2 ?_
  rw [hscripts]
  exact .missed (List.nil_append _).symm hlists (by simp) hmissed

end Project

end TrackingPlan
