import TrackingPlan.Catalog
import TrackingPlan.Proofs.ShownPaths

/-!
# Reported paths

A report names a file by the names that lead to it from the root of the scan, as they are shown
(`relative_of_isNamedBelow`). Files are reported alike only if these names are shown alike
(`IsNamedBelow.shown_inj`), which means that they are the same if they are texts
(`IsNamedBelow.names_inj`). How the root or the file is spelled does not matter:
`components_eq_of_isRespelled`. `reported_paths` has all of this, and that no scan reports two files
alike whose names are texts. `strays_reported_alike` has two files that are, and a root that is not
only spelled otherwise with a slash behind it.
-/

namespace TrackingPlan

namespace Path

variable {root p q : Path} {names others : List String} {name : String}

/-! ## Spellings -/

/-- One path is the other with a slash repeated, a dot between two slashes, or a slash at the
end. -/
inductive Respells : Path → Path → Prop where
  | repeated (before after : String) : Respells ⟨before ++ "/" ++ after⟩ ⟨before ++ "//" ++ after⟩
  | dotted (before after : String) : Respells ⟨before ++ "/" ++ after⟩ ⟨before ++ "/./" ++ after⟩
  | ended (text : String) (h : text ≠ "") : Respells ⟨text⟩ ⟨text ++ "/"⟩

/-- Each path can be made from the other by changes of slashes and dots, back and forth. -/
def IsRespelled : Path → Path → Prop := Relation.EqvGen Respells

/-- Texts that are joined by a slash have the pieces of both. -/
theorem pieces_append_slash (before after : String) :
    (Path.mk (before ++ "/" ++ after)).pieces = (Path.mk before).pieces ++
      (Path.mk after).pieces := by
  have hchars : (before ++ "/" ++ after).toList = before.toList ++ '/' :: after.toList := by simp
  rw [pieces_eq, pieces_eq, pieces_eq, hchars, List.splitOn_append_cons_self, List.map_append]

/-- Pieces that spell no component can stand anywhere behind the first slash of a path. -/
theorem components_congr {first : String} {rest rest' : List String} (hp : p.pieces = first :: rest)
    (hq : q.pieces = first :: rest') (habsolute : p.isAbsolute = q.isAbsolute)
    (hrest : rest.filterMap component? = rest'.filterMap component?) :
    p.components = q.components := by
  rw [components_of_pieces hp, components_of_pieces hq, habsolute, hrest]

/-- Whether a path is absolute is told by its first piece, if there are more. -/
theorem isAbsolute_congr {first : String} {rest rest' : List String} (hp : p.pieces = first :: rest)
    (hq : q.pieces = first :: rest') (hrest : rest ≠ []) (hrest' : rest' ≠ []) :
    p.isAbsolute = q.isAbsolute := by
  obtain ⟨second, more, rfl⟩ := List.exists_cons_of_ne_nil hrest
  obtain ⟨second', more', rfl⟩ := List.exists_cons_of_ne_nil hrest'
  rw [Bool.eq_iff_iff, isAbsolute_iff_pieces, isAbsolute_iff_pieces, hp, hq]
  simp

/-- Another piece without a component may stand between two slashes. -/
theorem components_between (before after : String) {blank : String}
    (hblank : component? blank = none) (hslash : '/' ∉ blank.toList) :
    (Path.mk (before ++ "/" ++ after)).components =
      (Path.mk (before ++ "/" ++ (blank ++ "/" ++ after))).components := by
  obtain ⟨first, rest, hbefore⟩ := List.exists_cons_of_ne_nil (pieces_ne_nil ⟨before⟩)
  have hpiece : (Path.mk blank).pieces = [blank] := by
    rw [pieces_eq, List.splitOn_eq_singleton hslash]
    simp
  have hp := pieces_append_slash before after
  have hq := pieces_append_slash before (blank ++ "/" ++ after)
  rw [pieces_append_slash blank, hpiece, hbefore, List.cons_append] at hq
  rw [hbefore, List.cons_append] at hp
  have hafter := pieces_ne_nil ⟨after⟩
  refine components_congr hp hq (isAbsolute_congr hp hq (by simp [hafter]) (by simp)) ?_
  simp [hblank]

/-- A path has the same components when it is spelled another way. -/
theorem Respells.components_eq (h : Respells p q) : p.components = q.components := by
  cases h with
  | repeated before after =>
      have hbetween :=
        components_between before after (show component? "" = none by decide) (by decide)
      have htext : before ++ "//" ++ after = before ++ "/" ++ ("" ++ "/" ++ after) := by
        apply String.toList_injective
        simp
      rw [htext]
      exact hbetween
  | dotted before after =>
      have hbetween :=
        components_between before after (show component? "." = none by decide) (by decide)
      have htext : before ++ "/./" ++ after = before ++ "/" ++ ("." ++ "/" ++ after) := by
        apply String.toList_injective
        simp
      rw [htext]
      exact hbetween
  | ended text hempty =>
      obtain ⟨first, rest, hp⟩ := List.exists_cons_of_ne_nil (pieces_ne_nil ⟨text⟩)
      have hq := pieces_append_slash text ""
      rw [String.append_empty, hp, List.cons_append] at hq
      refine components_congr hp hq ?_ (by simp [pieces_of_empty, component?])
      cases rest with
      | nil =>
          -- a single piece is no root, and neither is it before a slash unless it is empty
          have hfirst : first ≠ "" := by
            rintro rfl
            exact hempty (text_eq_empty_of_pieces hp)
          rw [Bool.eq_iff_iff, isAbsolute_iff_pieces, isAbsolute_iff_pieces, hp, hq]
          simp [hfirst]
      | cons second more => exact isAbsolute_congr hp hq (by simp) (by simp)

/-- A path has the same components however it is spelled. -/
theorem components_eq_of_isRespelled (h : IsRespelled p q) : p.components = q.components := by
  induction h with
  | rel p q hstep => exact hstep.components_eq
  | refl p => rfl
  | symm p q _ ih => exact ih.symm
  | trans p q r _ _ hfirst hsecond => exact hfirst.trans hsecond

/-! ## Paths below a root -/

/-- The names `names`, at least one, lead from `root` to `p`. -/
structure IsNamedBelow (root p : Path) (names : List String) : Prop where
  ne_nil : names ≠ []
  components_eq : p.components = root.components ++ names.map .normal

/-- What leads to a place below a root are names. -/
theorem IsNamedBelow.isName (h : IsNamedBelow root p names) : ∀ name ∈ names, IsName name := by
  intro name hname
  have hmem : .normal name ∈ names.map Component.normal := List.mem_map_of_mem hname
  exact isName_of_mem_components (p := p) (h.components_eq ▸ List.mem_append_right _ hmem)

/-- What follows a start is left when the start is stripped. -/
theorem stripPrefix?_go_append (cs rest : List Component) :
    stripPrefix?.go cs (cs ++ rest) = some rest := by
  induction cs with
  | nil => rfl
  | cons c cs ih => rw [List.cons_append, stripPrefix?.go, if_pos rfl, ih]

/-- The names below the root are also names where they are shown. -/
theorem IsNamedBelow.pieces_shown (h : IsNamedBelow root p names) :
    (Path.mk ("/".intercalate (names.map Text.shown))).pieces = names.map Text.shown := by
  refine pieces_intercalate_of_no_slash (by simpa using h.ne_nil) fun piece hpiece => ?_
  obtain ⟨name, hname, rfl⟩ := List.mem_map.1 hpiece
  exact (h.isName name hname).shown.no_slash

/-- A path below the root is reported by the names that lead to it, as they are shown. -/
theorem relative_of_isNamedBelow (h : IsNamedBelow root p names) :
    relative root p = "/".intercalate (names.map Text.shown) := by
  have hrest : stripPrefix? root p = some (names.map .normal) := by
    rw [stripPrefix?, h.components_eq, stripPrefix?_go_append]
  have htexts : (names.map Component.normal).map (fun c => Text.shown c.text) =
      names.map Text.shown := by
    rw [List.map_map]
    rfl
  have hsome : "/".intercalate (names.map Text.shown) ≠ "" := by
    intro hempty
    have hpieces := h.pieces_shown
    rw [hempty, pieces_of_empty] at hpieces
    obtain ⟨name, hname, hshown⟩ := List.mem_map.1 (hpieces ▸ List.mem_singleton_self "")
    exact (h.isName name hname).shown.ne_empty hshown
  simp only [relative, hrest, Option.getD_some, htexts, if_neg hsome]

/-- Places below one root are reported alike only if the names that lead to them are shown alike. -/
theorem IsNamedBelow.shown_inj (hp : IsNamedBelow root p names) (hq : IsNamedBelow root q others)
    (h : relative root p = relative root q) : names.map Text.shown = others.map Text.shown := by
  rw [relative_of_isNamedBelow hp, relative_of_isNamedBelow hq] at h
  rw [← hp.pieces_shown, h, hq.pieces_shown]

/-- The names that lead from `root` to `p`, if there are any, are texts. -/
def IsTextBelow (root p : Path) : Prop :=
  ∀ names, IsNamedBelow root p names → ∀ name ∈ names, Text.isPlain name = true

/-- A place that texts lead to is one below the root that texts lead to. -/
theorem IsNamedBelow.isTextBelow (h : IsNamedBelow root p names)
    (htexts : ∀ name ∈ names, Text.isPlain name = true) : IsTextBelow root p := by
  intro others hothers
  have hsame := List.append_cancel_left (h.components_eq.symm.trans hothers.components_eq)
  have hnormal : Function.Injective Component.normal := fun _ _ => Component.normal.inj
  rwa [← List.map_injective_iff.2 hnormal hsame]

/-- Places below one root that texts lead to are reported alike only if they are the same. -/
theorem IsNamedBelow.names_inj (hp : IsNamedBelow root p names) (hq : IsNamedBelow root q others)
    (htexts : IsTextBelow root p) (htexts' : IsTextBelow root q)
    (h : relative root p = relative root q) : names = others := by
  have hshown := hp.shown_inj hq h
  have hkept {names : List String} (htext : ∀ name ∈ names, Text.isPlain name = true) :
      names.map Text.shown = names :=
    (List.map_congr_left fun name hname => Text.shown_of_isPlain (htext name hname)).trans
      (List.map_id names)
  rwa [hkept (htexts names hp), hkept (htexts' others hq)] at hshown

/-- The root itself is reported by its name. -/
theorem relative_self (hp : p.components = root.components)
    (hname : p.components.getLast? = some (.normal name)) :
    relative root p = Text.shown name := by
  have hrest : stripPrefix? root p = some [] := by
    have hgo := stripPrefix?_go_append root.components []
    rw [List.append_nil] at hgo
    rw [stripPrefix?, hp]
    exact hgo
  have hempty : "/".intercalate ([].map fun c : Component => Text.shown c.text) = "" := by decide
  simp only [relative, hrest, Option.getD_some, hempty, if_true, fileName?, hname, Option.map_some]

/-- What is reported depends on the components only. -/
theorem relative_congr {root' p' : Path} (hroot : root.components = root'.components)
    (hp : p.components = p'.components) : relative root p = relative root' p' := by
  rw [relative, relative, stripPrefix?, stripPrefix?, fileName?, fileName?, hroot, hp]

end Path

/-! ## Files of a scan -/

variable {fs : FileSystem} {rules : IgnoreRules} {root f g : Path} {t : FileTree}
  {names : List String}

/-- The files that a scan finds in a directory lie below it. -/
theorem LeadsToSource.isNamedBelow {entries : List (String × FileTree)} (htop : fs.top.Proper)
    (htree : fs.tree root = .ok (.directory entries))
    (h : LeadsToSource rules root (.directory entries) names) :
    Path.IsNamedBelow root (root.descend names) names where
  ne_nil := by
    rintro rfl
    obtain ⟨bytes, hbytes⟩ := h.file
    cases hbytes
  components_eq := by
    obtain ⟨bytes, hbytes⟩ := h.file
    have hproper := FileSystem.proper_of_tree htop htree
    exact Path.components_descend (FileSystem.text_ne_empty_of_tree htree)
      (hproper.isName_of_at? hbytes)

/-- A scan of a file finds the file itself. -/
theorem LeadsToSource.names_eq_nil {bytes : ByteArray}
    (h : LeadsToSource rules root (.file bytes) names) :
    names = [] := by
  obtain ⟨found, hfound⟩ := h.file
  cases names with
  | nil => rfl
  | cons name rest => cases hfound

/-- A scan has another reported path for each file that it looks at and that texts lead to. -/
theorem eq_of_relative_eq (htop : fs.top.Proper) (hf : f ∈ collect fs rules root)
    (hg : g ∈ collect fs rules root) (hftexts : Path.IsTextBelow root f)
    (hgtexts : Path.IsTextBelow root g) (h : Path.relative root f = Path.relative root g) :
    f = g := by
  obtain ⟨t, names, htree, hnames, rfl⟩ := (mem_collect_iff htop).1 hf
  obtain ⟨t', others, htree', hothers, rfl⟩ := (mem_collect_iff htop).1 hg
  obtain rfl : t = t' := Except.ok.inj (htree.symm.trans htree')
  cases t with
  | file bytes => rw [hnames.names_eq_nil, hothers.names_eq_nil]
  | directory entries =>
      have hsame := (hnames.isNamedBelow htop htree).names_inj (hothers.isNamedBelow htop htree)
        hftexts hgtexts h
      rw [hsame]

/-- A file below the root is reported by the names that lead to it, as they are shown, so that files
at different places are reported differently if their names are texts, and the root by its own name.
No spelling of the root or the file changes what is reported, and the events of one scan that are
fired from one reported path are those of one file, if texts lead to it. -/
theorem reported_paths (root : Path) :
    (∀ p names, Path.IsNamedBelow root p names →
      Path.relative root p = "/".intercalate (names.map Text.shown)) ∧
    (∀ p q names others, Path.IsNamedBelow root p names → Path.IsNamedBelow root q others →
      Path.relative root p = Path.relative root q → names.map Text.shown = others.map Text.shown ∧
        (Path.IsTextBelow root p → Path.IsTextBelow root q → p.components = q.components)) ∧
    (∀ p name, p.components = root.components → p.components.getLast? = some (.normal name) →
      Path.relative root p = Text.shown name) ∧
    (∀ root' p p', Path.IsRespelled root root' → Path.IsRespelled p p' →
      Path.relative root p = Path.relative root' p') ∧
    ∀ (fs : FileSystem) (rules : IgnoreRules) (e e' : Event), fs.top.Proper →
      e.file ∈ collect fs rules root → e'.file ∈ collect fs rules root →
      Path.IsTextBelow root e.file → Path.IsTextBelow root e'.file →
      (Catalog.implementation root e).path = (Catalog.implementation root e').path →
      e.file = e'.file := by
  refine ⟨fun p names h => Path.relative_of_isNamedBelow h,
    fun p q names others hp hq h => ⟨hp.shown_inj hq h, fun hptexts hqtexts => ?_⟩,
    fun p name hp hname => Path.relative_self hp hname, fun root' p p' hroot hp => ?_,
    fun fs rules e e' htop he he' htexts htexts' h =>
      eq_of_relative_eq htop he he' htexts htexts' h⟩
  · rw [hp.components_eq, hq.components_eq, hp.names_inj hq hptexts hqtexts h]
  · exact Path.relative_congr (Path.components_eq_of_isRespelled hroot)
      (Path.components_eq_of_isRespelled hp)

/-- The files of a project with one script at the top. -/
def scriptFiles : FileSystem := ⟨.directory [("a.js", .file ByteArray.empty)], []⟩

/-- The files with one script are a proper tree. -/
theorem proper_scriptFiles : scriptFiles.top.Proper := by
  have hname : Path.IsName "a.js" := by constructor <;> decide
  exact .directory (by decide) (by simp [hname]) (by simp [FileTree.Proper.file])

/-- The one script is collected. -/
theorem collect_scriptFiles : (Path.mk "/").join ⟨"a.js"⟩ ∈ collect scriptFiles ⟨[]⟩ ⟨"/"⟩ := by
  have hname : Path.IsName "a.js" := by constructor <;> decide
  have hlanguage :=
    Language.ofPath?_join (show (Path.mk "/").text ≠ "" by decide) hname (by decide) (by cbv)
    (rfl : _ = ['a'] ++ '.' :: ['j', 's']) (by decide) (by decide)
  rw [collect_sources (FileSystem.tree_slash rfl), Path.mem_ordered]
  · exact List.mem_singleton_self _
  · intro entry hentry
    obtain rfl := List.mem_singleton.1 hentry
    exact ⟨by cbv, rfl, by rw [hlanguage]; rfl⟩

/-- A text leads to the one script. -/
theorem isTextBelow_scriptFiles : Path.IsTextBelow ⟨"/"⟩ ((Path.mk "/").join ⟨"a.js"⟩) := by
  have hname : Path.IsName "a.js" := by constructor <;> decide
  have hbelow : Path.IsNamedBelow ⟨"/"⟩ ((Path.mk "/").join ⟨"a.js"⟩) ["a.js"] :=
    ⟨by decide, Path.components_join (by decide) hname⟩
  exact hbelow.isTextBelow (by decide)

/-- A script below a repository, under two spellings, a scan of that script alone, and two calls in
one script. -/
theorem reported_paths_of_scripts :
    let root : Path := ⟨"/repo"⟩
    let script : Path := ⟨"/repo/src/a.js"⟩
    let other : Path := ⟨"/repo//src/a.js"⟩
    let first : Event := ⟨"Signup", .segment, [], (Path.mk "/").join ⟨"a.js"⟩, 1, "join"⟩
    let second : Event := ⟨"Login", .segment, [], (Path.mk "/").join ⟨"a.js"⟩, 2, "enter"⟩
    (Path.IsNamedBelow root script ["src", "a.js"] ∧
      Path.relative root script = "/".intercalate (["src", "a.js"].map Text.shown)) ∧
    (Path.IsNamedBelow root other ["src", "a.js"] ∧ Path.IsTextBelow root script ∧
      Path.IsTextBelow root other ∧ script.components = other.components) ∧
    Path.relative script script = Text.shown "a.js" ∧
    (Path.IsRespelled root ⟨"/repo/"⟩ ∧ Path.IsRespelled script other ∧
      Path.relative root script = Path.relative ⟨"/repo/"⟩ other) ∧
    first.file = second.file := by
  intro root script other first second
  have hscript : Path.IsNamedBelow root script ["src", "a.js"] := by
    refine ⟨by decide, ?_⟩
    simp only [root, script, Path.components, Path.pieces_eq]
    decide +kernel
  have hother : Path.IsNamedBelow root other ["src", "a.js"] := by
    refine ⟨by decide, ?_⟩
    simp only [root, other, Path.components, Path.pieces_eq]
    decide +kernel
  have htexts := hscript.isTextBelow (by decide)
  have htexts' := hother.isTextBelow (by decide)
  have hlast : script.components.getLast? = some (.normal "a.js") := by
    rw [hscript.components_eq]
    exact List.getLast?_append_of_ne_nil _ (by decide)
  have hroot : Path.IsRespelled root ⟨"/repo/"⟩ := .rel _ _ (.ended "/repo" (by decide))
  have hrespelled : Path.IsRespelled script other := .rel _ _ (.repeated "/repo" "src/a.js")
  obtain ⟨hbelow, hinj, -, hspelling, -⟩ := reported_paths root
  obtain ⟨-, -, hself, -, -⟩ := reported_paths script
  obtain ⟨-, -, -, -, hfiles⟩ := reported_paths ⟨"/"⟩
  have hsame := hspelling ⟨"/repo/"⟩ script other hroot hrespelled
  have halike : Path.relative root script = Path.relative root other := by
    rw [hbelow script _ hscript, hbelow other _ hother]
  refine ⟨⟨hscript, hbelow script _ hscript⟩, ⟨hother, htexts, htexts', ?_⟩,
    hself script "a.js" rfl hlast, ⟨hroot, hrespelled, hsame⟩, ?_⟩
  · exact (hinj script other _ _ hscript hother halike).2 htexts htexts'
  · exact hfiles scriptFiles ⟨[]⟩ first second proper_scriptFiles collect_scriptFiles
      collect_scriptFiles isTextBelow_scriptFiles isTextBelow_scriptFiles rfl

/-! ## Names that are reported alike -/

/-- A repository with one script in each of two directories, whose names are no texts. -/
def strayRepository : FileSystem :=
  let scripts := FileTree.directory [("a.js", .file ByteArray.empty)]
  ⟨.directory [("repo", .directory [("\x00\u00FF", scripts), ("\x00\u00FE", scripts)])], []⟩

/-- The repository with the two stray directories is a proper tree. -/
theorem proper_strayRepository : strayRepository.top.Proper := by
  have hname : ∀ name ∈ ["a.js", "repo", "\x00\u00FF", "\x00\u00FE"], Path.IsName name := by
    intro name hmem
    constructor <;> revert name <;> decide
  have hscripts : FileTree.Proper (.directory [("a.js", .file ByteArray.empty)]) :=
    .directory (by decide) (by simp [hname]) (by simp [FileTree.Proper.file])
  have hrepo : FileTree.Proper (.directory
      [("\x00\u00FF", .directory [("a.js", .file ByteArray.empty)]),
        ("\x00\u00FE", .directory [("a.js", .file ByteArray.empty)])]) :=
    .directory (by decide) (by simp [hname]) (by simp [hscripts])
  exact .directory (by decide) (by simp [hname]) (by simp [hrepo])

/-- A scan finds the script in either directory. -/
theorem mem_collect_strayRepository {stray : String} (h : stray ∈ ["\x00\u00FF", "\x00\u00FE"]) :
    (Path.mk "/repo").descend [stray, "a.js"] ∈ collect strayRepository ⟨[]⟩ ⟨"/repo"⟩ := by
  obtain ⟨t, htree, hfile⟩ : ∃ t, strayRepository.tree ⟨"/repo"⟩ = .ok t ∧
      t.at? [stray, "a.js"] = some (.file ByteArray.empty) := by
    have hlocate : strayRepository.locate ⟨"/repo"⟩ = .ok ["repo"] := by
      simp only [FileSystem.locate, Path.pieces_eq]
      decide +kernel
    simp only [FileSystem.tree, hlocate]
    refine ⟨_, rfl, ?_⟩
    rcases List.mem_pair.1 h with rfl | rfl <;> rfl
  have hlanguage : Language.ofPath? ((Path.mk "/repo").descend [stray, "a.js"]) =
      some .javaScript := by
    have hbase : ((Path.mk "/repo").join ⟨stray⟩).text ≠ "" := by
      rcases List.mem_pair.1 h with rfl | rfl <;> decide +kernel
    have hname : Path.IsName "a.js" := by constructor <;> decide
    exact Language.ofPath?_join hbase hname (by decide) (by cbv)
      (rfl : _ = ['a'] ++ '.' :: ['j', 's']) (by decide) (by decide)
  refine (mem_collect_iff proper_strayRepository).2 ⟨t, _, htree, ⟨⟨_, hfile⟩, ⟨_, hlanguage⟩,
    fun _ _ => rfl, ?_, ?_⟩, rfl⟩
  · intro name hname
    rcases List.mem_pair.1 hname with rfl | rfl
    · rcases List.mem_pair.1 h with rfl | rfl <;> cbv
    · cbv
  · intro up name below habove _ _
    have hmem : name ∈ [stray, "a.js"] := habove.subset (by simp)
    rcases List.mem_pair.1 hmem with rfl | rfl
    · rcases List.mem_pair.1 h with rfl | rfl <;> decide
    · decide

/-- Two scripts of one scan are reported alike, and the empty path is not the same with a slash
behind it. -/
theorem strays_reported_alike :
    let first := (Path.mk "/repo").descend ["\x00\u00FF", "a.js"]
    let second := (Path.mk "/repo").descend ["\x00\u00FE", "a.js"]
    (first ∈ collect strayRepository ⟨[]⟩ ⟨"/repo"⟩ ∧
      second ∈ collect strayRepository ⟨[]⟩ ⟨"/repo"⟩ ∧ first.components ≠ second.components ∧
      Path.IsNamedBelow ⟨"/repo"⟩ first ["\x00\u00FF", "a.js"] ∧
      Path.IsNamedBelow ⟨"/repo"⟩ second ["\x00\u00FE", "a.js"] ∧
      Path.relative ⟨"/repo"⟩ first = Path.relative ⟨"/repo"⟩ second) ∧
    Path.relative ⟨""⟩ ⟨"/a"⟩ = "//a" ∧ Path.relative ⟨"" ++ "/"⟩ ⟨"/a"⟩ = "a" := by
  intro first second
  have hbelow {stray : String} (h : stray ∈ ["\x00\u00FF", "\x00\u00FE"]) :
      Path.IsNamedBelow ⟨"/repo"⟩ ((Path.mk "/repo").descend [stray, "a.js"]) [stray, "a.js"] := by
    refine ⟨List.cons_ne_nil _ _, Path.components_descend (by decide) fun name hname => ?_⟩
    rcases List.mem_pair.1 hname with rfl | rfl
    · rcases List.mem_pair.1 h with rfl | rfl <;> constructor <;> decide
    · constructor <;> decide
  have hfirst : Path.IsNamedBelow _ first _ := hbelow (List.mem_cons_self)
  have hsecond : Path.IsNamedBelow _ second _ := hbelow (List.mem_cons_of_mem _ List.mem_cons_self)
  have hshown : Text.shown "\x00\u00FF" = Text.shown "\x00\u00FE" := by decide +kernel
  refine ⟨⟨mem_collect_strayRepository (by decide), mem_collect_strayRepository (by decide), ?_,
    hfirst, hsecond, ?_⟩, ?_⟩
  · rw [hfirst.components_eq, hsecond.components_eq]
    exact fun hsame => absurd (List.append_cancel_left hsame) (by decide)
  · rw [Path.relative_of_isNamedBelow hfirst, Path.relative_of_isNamedBelow hsecond, List.map_cons,
      hshown]
    rfl
  · simp only [Path.relative, Path.stripPrefix?, Path.components, Path.pieces_eq]
    decide +kernel

end TrackingPlan
