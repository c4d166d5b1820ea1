import TrackingPlan.Proofs.ValidConfigs

/-!
# Ignore rules put together

A path is ignored when one of the patterns names it (`ignores_lenient_iff`), whatever the order of
the patterns. So rules that are put together leave a way to a file open if each of them does, and by
`ignored_unions` a scan with both looks at the files that the scans with either have in common.
-/

namespace TrackingPlan

namespace IgnoreRules

variable {patterns others : List String} {rules : IgnoreRules} {root path : Path}

/-- `pattern` is a glob that makes a scan of `root` pass over `path`. -/
def Names (root path : Path) (pattern : String) : Prop :=
  ∃ g, Glob.read pattern = .ok g ∧ globIgnores root path g = true

/-- `isGlob pattern` holds of the patterns that can be read. -/
def isGlob (pattern : String) : Bool := (Glob.read pattern).toOption.isSome

/-- A glob can be read if the reader gives it. -/
theorem toOption_read_eq_some_iff {pattern : String} {g : Glob} :
    (Glob.read pattern).toOption = some g ↔ Glob.read pattern = .ok g := by
  cases Glob.read pattern <;> simp [Except.toOption]

/-- What is no glob ignores nothing. -/
theorem ignores_lenient_iff :
    (lenient patterns).ignores root path = true ↔
      ∃ pattern ∈ patterns, Names root path pattern := by
  simp only [ignores, lenient, List.any_eq_true, List.mem_filterMap,
    toOption_read_eq_some_iff, Names]
  constructor
  · rintro ⟨g, ⟨pattern, hpattern, hread⟩, hignores⟩
    exact ⟨pattern, hpattern, g, hread, hignores⟩
  · rintro ⟨pattern, hpattern, g, hread, hignores⟩
    exact ⟨g, ⟨pattern, hpattern, hread⟩, hignores⟩

/-- Lenient rules of two lists ignore what those of either ignore. -/
theorem ignores_lenient_append : (lenient (patterns ++ others)).ignores root path =
    ((lenient patterns).ignores root path || (lenient others).ignores root path) := by
  rw [Bool.eq_iff_iff, Bool.or_eq_true]
  simp only [ignores_lenient_iff, List.mem_append, or_and_right, exists_or]

/-- Lenient rules depend on which patterns there are only. -/
theorem ignores_lenient_congr (h : ∀ pattern, pattern ∈ patterns ↔ pattern ∈ others) :
    (lenient patterns).ignores root path = (lenient others).ignores root path := by
  rw [Bool.eq_iff_iff]
  simp only [ignores_lenient_iff, h]

/-- Patterns that are no globs do not count for lenient rules. -/
theorem lenient_filter_isGlob (patterns : List String) :
    lenient (patterns.filter isGlob) = lenient patterns := by
  rw [lenient, lenient, List.filterMap_filter]
  refine congrArg _ (List.filterMap_congr fun pattern _ => ?_)
  rw [isGlob]
  cases Glob.read pattern <;> rfl

/-- All patterns that are globs can be read. -/
theorem allRead_filter_isGlob (patterns : List String) :
    AllRead readGlob (patterns.filter isGlob) := by
  intro pattern hpattern
  obtain ⟨g, hg⟩ := Option.isSome_iff_exists.1 (List.mem_filter.1 hpattern).2
  exact ⟨g, readGlob_eq_ok_iff.2 (toOption_read_eq_some_iff.1 hg)⟩

/-- Rules that are read are the same as those that leave nothing out. -/
theorem read_eq_ok_iff :
    read patterns = .ok rules ↔ AllRead readGlob patterns ∧ rules = lenient patterns := by
  constructor
  · intro h
    have hall := exists_read_iff.1 ⟨rules, h⟩
    rw [read_eq_lenient hall] at h
    exact ⟨hall, (Except.ok.inj h).symm⟩
  · rintro ⟨hall, rfl⟩
    exact read_eq_lenient hall

end IgnoreRules

/-! ## Files that are left -/

section Unions

variable {fs : FileSystem} {rules first second : IgnoreRules} {root : Path} {t : FileTree}
  {names : List String}

/-- Files at different places of a tree have different paths. -/
theorem FileTree.Proper.descend_inj {others : List String} {below otherBelow : FileTree}
    (ht : t.Proper) (hroot : root.text ≠ "") (hat : t.at? names = some below)
    (hother : t.at? others = some otherBelow)
    (h : root.descend names = root.descend others) : names = others := by
  have hcomponents := congrArg Path.components h
  rw [Path.components_descend hroot (ht.isName_of_at? hat),
    Path.components_descend hroot (ht.isName_of_at? hother)] at hcomponents
  have hinj : Function.Injective Component.normal := fun _ _ => Component.normal.inj
  exact List.map_injective_iff.2 hinj (List.append_cancel_left hcomponents)

variable (h : ∀ path, rules.ignores root path = (first.ignores root path ||
  second.ignores root path))
include h

/-- A way is left open by two lists of rules if it is by each of them. -/
theorem leadsToSource_union_iff :
    LeadsToSource rules root t names ↔ LeadsToSource first root t names ∧
    LeadsToSource second root t names := by
  constructor
  · rintro ⟨hfile, hlanguage, hignored, hhidden, hskipped⟩
    simp only [h, Bool.or_eq_false_iff] at hignored
    exact ⟨⟨hfile, hlanguage, fun up hup => (hignored up hup).1, hhidden, hskipped⟩,
      ⟨hfile, hlanguage, fun up hup => (hignored up hup).2, hhidden, hskipped⟩⟩
  · rintro ⟨hfirst, hsecond⟩
    refine ⟨hfirst.file, hfirst.language, fun up hup => ?_, hfirst.not_hidden, hfirst.not_skipped⟩
    rw [h, hfirst.not_ignored up hup, hsecond.not_ignored up hup, Bool.or_false]

/-- A file is collected under both lists of rules together if it is collected under each. -/
theorem mem_collect_union_iff (htop : fs.top.Proper) {f : Path} :
    f ∈ collect fs rules root ↔ f ∈ collect fs first root ∧ f ∈ collect fs second root := by
  simp only [mem_collect_iff htop, leadsToSource_union_iff h]
  constructor
  · rintro ⟨t, names, ht, ⟨hfirst, hsecond⟩, hf⟩
    exact ⟨⟨t, names, ht, hfirst, hf⟩, ⟨t, names, ht, hsecond, hf⟩⟩
  · rintro ⟨⟨t, names, ht, hfirst, rfl⟩, ⟨t', others, ht', hsecond, hf⟩⟩
    obtain rfl := Except.ok.inj (ht.symm.trans ht')
    obtain ⟨⟨bytes, hbytes⟩, ⟨otherBytes, hotherBytes⟩⟩ := And.intro hfirst.file hsecond.file
    -- the file is found along one way only
    obtain rfl :=
      (FileSystem.proper_of_tree htop ht).descend_inj (FileSystem.text_ne_empty_of_tree ht) hbytes
      hotherBytes hf
    exact ⟨t, names, ht, ⟨hfirst, hsecond⟩, rfl⟩

/-- A scan with two lists of rules looks at the files that scans with either look at, in the same
order. -/
theorem collect_union (htop : fs.top.Proper) :
    collect fs rules root = (collect fs first root).filter (· ∈ collect fs second root) := by
  refine Path.eq_of_pairwise_lt (pairwise_lt_collect htop rules root)
    ((pairwise_lt_collect htop first root).filter _) fun f => ?_
  rw [List.mem_filter, decide_eq_true_eq, mem_collect_union_iff h htop]

end Unions

/-- Rules that are put together ignore what either of them ignores, in any order and with any
repetitions; lenient rules ignore what the patterns that can be read ignore; and a scan with two
lists of patterns looks at the files that the scans with either of them have in common. -/
theorem ignored_unions :
    (∀ p q first second, IgnoreRules.read p = .ok first → IgnoreRules.read q = .ok second →
      ∃ rules, IgnoreRules.read (p ++ q) = .ok rules ∧
        ∀ root path, rules.ignores root path = (first.ignores root path ||
          second.ignores root path)) ∧
    (∀ p q first, IgnoreRules.read p = .ok first → (∀ pattern, pattern ∈ p ↔ pattern ∈ q) →
      ∃ second, IgnoreRules.read q = .ok second ∧
        ∀ root path, first.ignores root path = second.ignores root path) ∧
    (∀ p, ∃ rules, IgnoreRules.read (p.filter IgnoreRules.isGlob) = .ok rules ∧
      ∀ root path, (IgnoreRules.lenient p).ignores root path = rules.ignores root path) ∧
    ∀ fs : FileSystem, fs.top.Proper → ∀ p q root,
      collect fs (.lenient (p ++ q)) root =
          (collect fs (.lenient p) root).filter (· ∈ collect fs (.lenient q) root) ∧
        collect fs (.lenient (p ++ q)) root =
          (collect fs (.lenient q) root).filter (· ∈ collect fs (.lenient p) root) := by
  refine ⟨fun p q first second hfirst hsecond => ?_, fun p q first hfirst hsame => ?_, fun p => ?_,
    fun fs htop p q root => ⟨?_, ?_⟩⟩
  · obtain ⟨hp, rfl⟩ := IgnoreRules.read_eq_ok_iff.1 hfirst
    obtain ⟨hq, rfl⟩ := IgnoreRules.read_eq_ok_iff.1 hsecond
    have hall : AllRead IgnoreRules.readGlob (p ++ q) := List.forall_mem_append.2 ⟨hp, hq⟩
    exact ⟨_, IgnoreRules.read_eq_lenient hall, fun _ _ => IgnoreRules.ignores_lenient_append⟩
  · obtain ⟨hp, rfl⟩ := IgnoreRules.read_eq_ok_iff.1 hfirst
    have hall : AllRead IgnoreRules.readGlob q :=
      fun pattern hpattern => hp pattern ((hsame pattern).2 hpattern)
    exact ⟨_, IgnoreRules.read_eq_lenient hall, fun _ _ => IgnoreRules.ignores_lenient_congr hsame⟩
  · refine ⟨_, IgnoreRules.read_eq_lenient (IgnoreRules.allRead_filter_isGlob p),
      fun root path => ?_⟩
    rw [IgnoreRules.lenient_filter_isGlob]
  · exact collect_union (fun _ => IgnoreRules.ignores_lenient_append) htop
  · exact collect_union (fun _ => by rw [IgnoreRules.ignores_lenient_append, Bool.or_comm]) htop

/-- In the sample project a union of rules collects what both collect, and drops a pattern that is
no glob. -/
theorem ignored_unions_of_sampleProject :
    IgnoreRules.isGlob "[" = false ∧ sampleProject.Proper ∧
      (∃ first second rules, IgnoreRules.read ["tmp"] = .ok first ∧
        IgnoreRules.read ["*.md", "tmp"] = .ok second ∧
        IgnoreRules.read ["tmp", "*.md", "tmp"] = .ok rules ∧
        (∀ root path, rules.ignores root path = (first.ignores root path ||
          second.ignores root path)) ∧
        ∀ root path, second.ignores root path = rules.ignores root path) ∧
      ∀ root, collect ⟨sampleProject, []⟩ (.lenient ["[", "*.md", "tmp"]) root =
        (collect ⟨sampleProject, []⟩ (.lenient ["[", "*.md"]) root).filter
          (· ∈ collect ⟨sampleProject, []⟩ (.lenient ["tmp"]) root) := by
  obtain ⟨hunion, hsame, -, hcollect⟩ := ignored_unions
  have hfirst : IgnoreRules.read ["tmp"] = .ok (.lenient ["tmp"]) := rfl
  have hsecond : IgnoreRules.read ["*.md", "tmp"] = .ok (.lenient ["*.md", "tmp"]) := rfl
  obtain ⟨rules, hrules, hignores⟩ := hunion _ _ _ _ hfirst hsecond
  obtain ⟨again, hagain, hequal⟩ :=
    hsame ["*.md", "tmp"] ["tmp", "*.md", "tmp"] _ hsecond (by simp +contextual)
  obtain rfl := Except.ok.inj (hrules.symm.trans hagain)
  exact ⟨by decide +kernel, proper_sampleProject,
    ⟨_, _, rules, hfirst, hsecond, hrules, hignores, hequal⟩,
    fun root => (hcollect ⟨sampleProject, []⟩ proper_sampleProject ["[", "*.md"] ["tmp"] root).1⟩

end TrackingPlan
