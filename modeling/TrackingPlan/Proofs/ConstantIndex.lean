import TrackingPlan.Proofs.ConstantLookup
import TrackingPlan.Proofs.Pool

/-!
# Indexes of constants

An index is read from the directories of a list of files. `IsDirectoryList` says which these are and
in which order, without a word on the order of the files. A `Reading` is what is left to the system:
how many directories are read at once, which of them is done first, and in which order hash tables
list their constants. `constant_lookup` says what a name stands for in an index: none of this
counts.
-/

namespace TrackingPlan

/-- An ordered table takes over the entries of another one in any order. -/
theorem Named.Ordered.merge_perm {α : Type u} {table newer other : Named α} (h : table.Ordered)
    (hperm : newer.Perm other) (hnodup : newer.keys.Nodup) :
    Named.merge table newer = Named.merge table other := by
  have hother : other.keys.Nodup := (hperm.map _).nodup_iff.1 hnodup
  refine (h.merge newer).ext (h.merge other) fun key => ?_
  rw [Named.find?_merge, Named.find?_merge, Named.find?_reverse hnodup, Named.find?_reverse hother,
    Named.find?_perm hperm hnodup]

namespace Ruby

variable {fs : FileSystem} {files directories others : List Path} {p q directory : Path}

/-! ## Directories of files -/

/-- These are the directories of the files in the order of their paths, each of them once. -/
structure IsDirectoryList (files directories : List Path) : Prop where
  ordered : directories.Pairwise fun p q => Path.compare p q = .lt
  mem_iff : ∀ components, components ∈ directories.map Path.components ↔
    components ∈ (files.filterMap Path.parent?).map Path.components

/-- Of paths in order, the distinct ones increase strictly. -/
theorem pairwise_lt_distinctPaths {paths : List Path}
    (h : paths.Pairwise fun p q => (Path.compare p q).isLE = true) :
    (distinctPaths paths).Pairwise fun p q => Path.compare p q = .lt := by
  induction paths using distinctPaths.induct with
  | case1 p q rest hsame ih =>
      rw [distinctPaths, if_pos hsame]
      obtain ⟨hp, hrest⟩ := List.pairwise_cons.1 h
      refine ih (List.pairwise_cons.2 ⟨fun x hx => ?_, (List.pairwise_cons.1 hrest).2⟩)
      exact hp x (List.mem_cons_of_mem _ hx)
  | case2 p q rest hsame ih =>
      rw [distinctPaths, if_neg hsame]
      obtain ⟨hp, hrest⟩ := List.pairwise_cons.1 h
      refine List.pairwise_cons.2 ⟨fun x hx => ?_, ih hrest⟩
      have hmem := mem_of_mem_distinctPaths hx
      have hle := hp x hmem
      cases hcompare : Path.compare p x with
      | lt => rfl
      | gt => simp [hcompare] at hle
      | eq =>
          -- what stands between two paths with the same components has these components as well
          have hcomponents := Path.compare_eq_eq_iff.1 hcompare
          have hqx : (Path.compare q x).isLE = true := by
            rcases List.mem_cons.1 hmem with rfl | hbehind
            · rw [Path.compare_eq_eq_iff.2 rfl]
              rfl
            · exact (List.pairwise_cons.1 hrest).1 x hbehind
          have hpq := hp q List.mem_cons_self
          rw [Path.compare_eq] at hpq hqx
          rw [← hcomponents] at hqx
          have hsamePlace := Std.LawfulEqCmp.eq_of_compare (Std.OrientedCmp.isLE_antisymm hpq hqx)
          exact absurd (Path.same_iff.2 hsamePlace) hsame
  | case3 paths hpaths =>
      rw [distinctPaths]
      · cases paths with
        | nil => exact List.Pairwise.nil
        | cons p rest =>
            cases rest with
            | nil => exact List.pairwise_singleton _ _
            | cons q rest => exact absurd rfl (hpaths p q rest)
      · exact hpaths

/-- The directories of the files, in order and without repetitions, are a list of directories. -/
theorem isDirectoryList_distinctPaths (files : List Path) :
    IsDirectoryList files (distinctPaths (Path.ordered (files.filterMap Path.parent?))) where
  ordered := pairwise_lt_distinctPaths (Path.pairwise_isLE_ordered _)
  mem_iff components := by
    constructor
    · intro h
      obtain ⟨p, hp, rfl⟩ := List.mem_map.1 h
      exact List.mem_map_of_mem (Path.mem_ordered.1 (mem_of_mem_distinctPaths hp))
    · intro h
      obtain ⟨p, hp, rfl⟩ := List.mem_map.1 h
      obtain ⟨kept, hkept, hsame⟩ := exists_same_of_mem (Path.mem_ordered.2 hp)
      exact List.mem_map.2 ⟨kept, hkept, Path.same_iff.1 hsame⟩

/-- The files alone say which components the directories have. -/
theorem IsDirectoryList.components_eq (h : IsDirectoryList files directories)
    (hother : IsDirectoryList files others) :
    directories.map Path.components = others.map Path.components := by
  have hpairwise {directories : List Path} (h : IsDirectoryList files directories) :
      (directories.map Path.components).Pairwise fun a b =>
        List.compareLex Component.compare a b = .lt := by
    refine List.pairwise_map.2 (h.ordered.imp fun {p q} hlt => ?_)
    rwa [← Path.compare_eq]
  exact List.Pairwise.eq_of_mem_iff (hpairwise h) (hpairwise hother) fun components => by
    rw [h.mem_iff, hother.mem_iff]

/-! ## Tables of directories -/

/-- The constants of a directory are the tables of its files, merged one after the other. -/
theorem constantsOfDirectory_eq_foldl (fs : FileSystem) (directory : Path) :
    constantsOfDirectory fs directory = (tablesOf fs directory).foldl Named.merge [] := by
  rw [tablesOf, List.foldl_map]
  rfl

/-- Where there is no directory, there are no constants. -/
theorem tablesOf_eq_nil (h : ∀ entries, fs.tree p ≠ .ok (.directory entries)) :
    tablesOf fs p = [] := by
  have hentries : fs.entriesAt p = [] := by
    rw [FileSystem.entriesAt]
    cases htree : fs.tree p with
    | error fault => rfl
    | ok t =>
        cases t with
        | file bytes => rfl
        | directory entries => exact absurd htree (h entries)
  rw [tablesOf, rubyFiles, hentries, List.filterMap_nil, List.mergeSort_nil, List.map_nil]

/-- The constants of a directory do not depend on how its path is spelled. -/
theorem constantsOfDirectory_congr (hfs : fs.top.Proper) (h : p.components = q.components) :
    constantsOfDirectory fs p = constantsOfDirectory fs q := by
  have hnames {p : Path} {entries : Named FileTree} (hp : fs.tree p = .ok (.directory entries)) :
      ∀ entry ∈ entries, Path.IsName entry.1 := by
    cases FileSystem.proper_of_tree hfs hp with
    | directory _ hnames _ => exact hnames
  have htables : tablesOf fs p = tablesOf fs q := by
    by_cases hp : ∃ entries, fs.tree p = .ok (.directory entries)
    · obtain ⟨entries, hp⟩ := hp
      exact tablesOf_congr (hnames hp) hp h
    · by_cases hq : ∃ entries, fs.tree q = .ok (.directory entries)
      · obtain ⟨entries, hq⟩ := hq
        exact (tablesOf_congr (hnames hq) hq h.symm).symm
      · rw [tablesOf_eq_nil (not_exists.1 hp), tablesOf_eq_nil (not_exists.1 hq)]
  rw [constantsOfDirectory_eq_foldl, constantsOfDirectory_eq_foldl, htables]

/-- `tablesFrom tableOf directories directory` lists the tables of the directories, that of
`directory` first. -/
def tablesFrom (tableOf : Path → Constants) (directories : List Path) (directory : Path) :
    List Constants :=
  (directories.filter (·.same directory) ++ directories.filter (!·.same directory)).map tableOf

/-- The tables that a directory sees are its own and those of the directories around it. -/
theorem seenFrom_eq_tablesFrom (tableOf : Path → Constants) (directories : List Path)
    (directory : Path) :
    (ConstantIndex.mk (directories.map fun directory => (directory, tableOf directory))).seenFrom
      directory = tablesFrom tableOf directories directory := by
  simp [ConstantIndex.seenFrom, tablesFrom, List.partition_eq_filter_filter, List.filter_map,
    Function.comp_def]

/-- What is read off some of the paths does not depend on how they are spelled. -/
theorem map_filter_congr {α : Type} {paths others : List Path} {chosen : Path → Bool} {f : Path → α}
    (hchosen : ∀ p q, p.components = q.components → chosen p = chosen q)
    (hf : ∀ p q, p.components = q.components → f p = f q)
    (h : paths.map Path.components = others.map Path.components) :
    (paths.filter chosen).map f = (others.filter chosen).map f := by
  induction paths generalizing others with
  | nil =>
      rw [List.map_nil] at h
      rw [List.map_eq_nil_iff.1 h.symm]
  | cons p rest ih =>
      obtain ⟨q, behind, rfl, hq, hrest⟩ := List.map_eq_cons_iff.1 h.symm
      rw [List.filter_cons, List.filter_cons, hchosen q p hq]
      split
      · rw [List.map_cons, List.map_cons, hf q p hq, ih hrest.symm]
      · exact ih hrest.symm

/-- Which tables are seen depends on the components of the directories only. -/
theorem tablesFrom_congr (hfs : fs.top.Proper)
    (h : directories.map Path.components = others.map Path.components)
    (directory : Path) : tablesFrom (constantsOfDirectory fs) directories directory =
      tablesFrom (constantsOfDirectory fs) others directory := by
  have hsame (p q : Path) (h : p.components = q.components) :
      p.same directory = q.same directory := by
    rw [Path.same, Path.same, h]
  have htable (p q : Path) := constantsOfDirectory_congr (p := p) (q := q) hfs
  rw [tablesFrom, tablesFrom, List.map_append, List.map_append, map_filter_congr hsame htable h,
    map_filter_congr (fun p q hpq => congrArg not (hsame p q hpq)) htable h]

/-! ## Readings -/

/-- What reading directories leaves to the system. -/
structure Reading (fs : FileSystem) where
  /-- How many directories are read at once. -/
  limit : Nat
  /-- Which of these is done next, at each point in time. -/
  choose : Nat → Nat
  /-- The constants of each file of a directory, in the order in which the directory takes them
  over. -/
  taken : Path → List Constants
  /-- The constants of a directory, in the order in which its table lists them. -/
  listed : Path → Constants
  taken_perm : ∀ directory, List.Forall₂ List.Perm (taken directory) (tablesOf fs directory)
  listed_perm : ∀ directory, (listed directory).Perm ((taken directory).foldl Named.merge [])

/-- Tables that are merged may list their constants in any order. -/
theorem foldl_merge_perm {taken tables : List Constants} (h : List.Forall₂ List.Perm taken tables)
    (hordered : ∀ table ∈ tables, Named.Ordered table) {start : Constants}
    (hstart : start.Ordered) :
    taken.foldl Named.merge start = tables.foldl Named.merge start := by
  induction h generalizing start with
  | nil => rfl
  | @cons table other taken tables hperm _ ih =>
      have hother : Named.Ordered other := hordered other List.mem_cons_self
      rw [List.foldl_cons, List.foldl_cons,
        hstart.merge_perm hperm ((hperm.map _).nodup_iff.2 hother.nodup_keys)]
      exact ih (fun table htable => hordered table (List.mem_cons_of_mem _ htable))
        (hstart.merge other)

/-- The constants of a directory are in order. -/
theorem ordered_constantsOfDirectory (fs : FileSystem) (directory : Path) :
    (constantsOfDirectory fs directory).Ordered := by
  rw [constantsOfDirectory_eq_foldl]
  exact List.foldlRecOn (motive := Named.Ordered) _ _ Named.ordered_nil fun _ h table _ =>
    h.merge table

namespace Reading

variable {r : Reading fs}

/-- A directory has its constants, in some order. -/
theorem listed_perm_constants (r : Reading fs) (directory : Path) :
    (r.listed directory).Perm (constantsOfDirectory fs directory) := by
  have hordered : ∀ table ∈ tablesOf fs directory, Named.Ordered table := by
    intro table htable
    obtain ⟨file, -, rfl⟩ := List.mem_map.1 htable
    exact Named.ordered_ofEntries _
  rw [constantsOfDirectory_eq_foldl, ← foldl_merge_perm (r.taken_perm directory) hordered
    Named.ordered_nil]
  exact r.listed_perm directory

/-- `index r files` is the index of the directories of `files`, sorted by their paths when all are
read. -/
def index (r : Reading fs) (files : List Path) : ConstantIndex :=
  let directories := distinctPaths (Path.ordered (files.filterMap Path.parent?))
  let done := (Pool.ofTasks directories).drain (max 1 r.limit) r.choose 0
  ⟨(Path.ordered done).map fun directory => (directory, r.listed directory)⟩

/-- Directories that are done in any order are sorted again. -/
theorem ordered_done (r : Reading fs) (h : directories.Pairwise fun p q => Path.compare p q = .lt) :
    Path.ordered ((Pool.ofTasks directories).drain (max 1 r.limit) r.choose 0) = directories := by
  have hdone := Pool.drain_perm (Nat.le_max_left 1 r.limit) r.choose 0 (.ofTasks directories)
  -- directories differ in their components, not only in their spelling, so that there is one order
  -- of them
  have hcomponents : (directories.map Path.components).Nodup := by
    refine List.pairwise_map.2 (h.imp fun {p q} hlt heq => ?_)
    rw [Path.compare_eq_eq_iff.2 heq] at hlt
    cases hlt
  have hsorted := Path.pairwise_lt_ordered ((hdone.map Path.components).nodup_iff.2 hcomponents)
  refine ((List.mergeSort_perm _ _).trans hdone).eq_of_pairwise
    (fun p q _ _ hpq hqp => ?_) hsorted h
  rw [Path.compare_eq] at hpq hqp
  exact absurd hqp (Component.not_lt_of_lt hpq)

/-- An index resolves names in the same way, in whatever order its files were read. -/
theorem resolve?_index (r : Reading fs) (files : List Path) (directory : Path) (name : String)
    (around : List String) : (r.index files).resolve? directory name around =
      (ConstantIndex.ofFiles fs files).resolve? directory name around := by
  have hordered := (isDirectoryList_distinctPaths files).ordered
  rw [resolve?_eq_lookUp?, resolve?_eq_lookUp?, index, ordered_done r hordered,
    ConstantIndex.ofFiles, seenFrom_eq_tablesFrom, seenFrom_eq_tablesFrom]
  refine lookUp?_perm r.listed_perm_constants (fun directory => ?_) name around
  have hnodup := (ordered_constantsOfDirectory fs directory).nodup_keys
  exact ((r.listed_perm_constants directory).map _).nodup_iff.2 hnodup

end Reading

/-! ## Look-ups -/

/-- What an index resolves a name to is what the tables that are seen resolve it to. -/
theorem resolve?_ofFiles_eq_iff (hfs : fs.top.Proper)
    (hdirectories : IsDirectoryList files directories)
    {name : String} (hname : relativeName name = name) {around : List String}
    {result : Option String} :
    (ConstantIndex.ofFiles fs files).resolve? directory name around = result ↔
      Resolved (tablesFrom (constantsOfDirectory fs) directories directory) name around result := by
  have hcomponents := (isDirectoryList_distinctPaths files).components_eq hdirectories
  have hnodup : ∀ table ∈ tablesFrom (constantsOfDirectory fs) directories directory,
      (Named.keys table).Nodup := by
    intro table htable
    obtain ⟨place, -, rfl⟩ := List.mem_map.1 htable
    exact (ordered_constantsOfDirectory fs place).nodup_keys
  rw [resolve?_eq_lookUp?, ConstantIndex.ofFiles, seenFrom_eq_tablesFrom,
    tablesFrom_congr hfs hcomponents, lookUp?_eq_iff hname hnodup]

/-- A name without colons in front stands for the innermost candidate in the first table that has
any, the own directory first and the others in the order of their paths; without candidates, it
stands for the only value of the constants that end in it. Neither the files, their order and
repetitions, nor what reading the directories leaves to the system counts for that, as long as the
directories of the files are the same. -/
theorem constant_lookup (hfs : fs.top.Proper) (hdirectories : IsDirectoryList files directories)
    {name : String} (hname : ¬"::".toList <+: name.toList) (directory : Path) (around : List String)
    (r : Reading fs) :
    (∀ result, (r.index files).resolve? directory name around = result ↔
      Resolved (tablesFrom (constantsOfDirectory fs) directories directory) name around result) ∧
    (r.index files).resolve? directory name around =
      (ConstantIndex.ofFiles fs files).resolve? directory name around ∧
    ∀ (others : List Path) (other : Reading fs), (∀ file, file ∈ others ↔ file ∈ files) →
      (other.index others).resolve? directory name around =
        (r.index files).resolve? directory name around := by
  have hrelative := relativeName_of_not_prefix hname
  refine ⟨fun result => ?_, r.resolve?_index files directory name around,
    fun others other hmem => ?_⟩
  · rw [r.resolve?_index, resolve?_ofFiles_eq_iff hfs hdirectories hrelative]
  · have hothers : IsDirectoryList others directories := by
      refine ⟨hdirectories.ordered, fun components => ?_⟩
      simp only [hdirectories.mem_iff, List.mem_map, List.mem_filterMap, hmem]
    rw [r.resolve?_index, other.resolve?_index, resolve?_ofFiles_eq_iff hfs hothers hrelative,
      ← resolve?_ofFiles_eq_iff hfs hdirectories hrelative]

/-- A reading that lists the constants of a directory backwards. -/
def backwards (fs : FileSystem) : Reading fs where
  limit := 0
  choose := fun time => time
  taken := tablesOf fs
  listed := fun directory => (constantsOfDirectory fs directory).reverse
  taken_perm := fun _ => List.forall₂_same.2 fun _ _ => .refl _
  listed_perm := fun directory => constantsOfDirectory_eq_foldl fs directory ▸ List.reverse_perm _

/-- The files of two neighbours, one of them twice. -/
def neighbouringFiles : List Path := ["b.rb", "a.rb", "b.rb"].map fun name =>
  (Path.mk "/").join ⟨name⟩

/-- The files lie side by side in the top directory. -/
theorem isDirectoryList_neighbouringFiles : IsDirectoryList neighbouringFiles [⟨"/"⟩] := by
  have hslash : (Path.mk "/").text ≠ "" := by decide
  have hname (name : String) (h : name = "a.rb" ∨ name = "b.rb") : Path.IsName name := by
    rcases h with rfl | rfl <;> constructor <;> decide
  obtain ⟨a, ha, hacomponents⟩ := Path.parent?_join hslash (hname "a.rb" (.inl rfl))
  obtain ⟨b, hb, hbcomponents⟩ := Path.parent?_join hslash (hname "b.rb" (.inr rfl))
  refine ⟨List.pairwise_singleton _ _, fun components => ?_⟩
  simp [neighbouringFiles, ha, hb, hacomponents, hbcomponents]

/-- The last of the neighbours counts, from whichever of the files the index is made. -/
theorem constant_lookup_of_neighbours :
    neighbours.top.Proper ∧ IsDirectoryList neighbouringFiles [⟨"/"⟩] ∧
    ¬"::".toList <+: "N".toList ∧
      ((backwards neighbours).index neighbouringFiles).resolve? ⟨"/"⟩ "N" ["A"] = some "y" ∧
      ((backwards neighbours).index neighbouringFiles.tail).resolve? ⟨"/"⟩ "N" ["A"] =
        some "y" := by
  have htable : constantsOfDirectory neighbours ⟨"/"⟩ = [("N", "y")] := by
    rw [constantsOfDirectory_eq_foldl, tablesOf_neighbours]
    decide +kernel
  have htables :
      tablesFrom (constantsOfDirectory neighbours) [⟨"/"⟩] ⟨"/"⟩ = [] ++ [("N", "y")] :: [] := by
    simp [tablesFrom, Path.same_self, htable]
  have hname : ¬"::".toList <+: "N".toList := by decide
  have hvalue : IsInnermostValue [("N", "y")] "N" ["A"] "y" := by
    refine ⟨0, Nat.zero_le _, List.mem_cons_self, fun deeper hdeeper hlt => ?_⟩
    obtain rfl : deeper = 1 := by simp at hdeeper; omega
    decide
  obtain ⟨hresolve, -, hothers⟩ :=
    constant_lookup proper_neighbours isDirectoryList_neighbouringFiles hname
    ⟨"/"⟩ ["A"] (backwards neighbours)
  have hfound :=
    (hresolve (some "y")).2 (.candidate htables (fun _ h => absurd h List.not_mem_nil) hvalue)
  have hmem (file : Path) : file ∈ neighbouringFiles.tail ↔ file ∈ neighbouringFiles := by
    simp only [neighbouringFiles, List.map_cons, List.map_nil, List.tail_cons, List.mem_cons,
      List.not_mem_nil, or_false]
    tauto
  exact ⟨proper_neighbours, isDirectoryList_neighbouringFiles, hname, hfound,
    (hothers _ (backwards neighbours) hmem).trans hfound⟩

end Ruby

end TrackingPlan
