import TrackingPlan.Project
import TrackingPlan.Proofs.NormalPaths

/-!
# The places of paths

A path names a place without a look at any file: it starts at the root or some levels up, and goes
down by names. `Path.place` evaluates the components of a path on a stack of names, where two dots
pop a name and stay at the root when none is left. To normalize a path spells its place
(`normalize_eq`), so that `normalized_paths` gets the form of normal paths, the law for joined ones
and the sharing of modules from what is said of places.
-/

namespace TrackingPlan

namespace Path

/-- Where a way starts. -/
inductive Start where
  | root
  /-- So many levels above the directory where relative paths start. -/
  | above (levels : Nat)
deriving DecidableEq

namespace Start

/-- `up s` is the start one level above `s`; nothing is above the root. -/
def up : Start → Start
  | root => root
  | above levels => above (levels + 1)

/-- `components s` are the components that lead to `s`. -/
def components : Start → List Component
  | root => [.root]
  | above levels => List.replicate levels .parent

end Start

/-- The place that a path names. -/
structure Place where
  start : Start
  /-- The names that lead down from there, the last one first. -/
  stack : List String
deriving DecidableEq

namespace Place

/-- The place where relative paths start. -/
def here : Place := ⟨.above 0, []⟩

/-- `step place c` goes on from `place` by one component. -/
def step (place : Place) : Component → Place
  | .root => ⟨.root, []⟩
  | .current => place
  | .normal name => { place with stack := name :: place.stack }
  | .parent =>
    match place.stack with
    | _ :: above => { place with stack := above }
    | [] => { place with start := place.start.up }

/-- `components place` are the components that lead to `place` and do not turn back. -/
def components (place : Place) : List Component :=
  place.start.components ++ place.stack.reverse.map .normal

variable {place : Place} {c : Component} {cs : List Component} {names : List String}

/-- Names are put on the stack one by one, the last on top. -/
theorem foldl_step_names : (names.map .normal).foldl step place = { place with stack :=
    names.reverse ++ place.stack } := by
  induction names generalizing place with
  | nil => rfl
  | cons name rest ih =>
      rw [List.map_cons, List.foldl_cons, ih, List.reverse_cons, List.append_assoc]
      rfl

/-- The components of a start lead to it. -/
theorem foldl_step_start (start : Start) : start.components.foldl step here = ⟨start, []⟩ := by
  cases start with
  | root => rfl
  | above levels =>
      induction levels with
      | zero => rfl
      | succ levels ih =>
          rw [Start.components] at ih ⊢
          rw [List.replicate_succ', List.foldl_append, ih]
          rfl

/-- A way without the root starts there if it did before. -/
theorem start_foldl_step (hcs : .root ∉ cs) :
    (cs.foldl step place).start = .root ↔ place.start = .root := by
  induction cs generalizing place with
  | nil => rfl
  | cons c rest ih =>
      have hstep : (place.step c).start = .root ↔ place.start = .root := by
        obtain ⟨start, stack⟩ := place
        cases c with
        | root => exact absurd List.mem_cons_self hcs
        | current | normal => rfl
        | parent => cases stack <;> cases start <;> simp [step, Start.up]
      exact (ih (List.not_mem_of_not_mem_cons hcs)).trans hstep

/-- The components of a place lead there. -/
theorem foldl_step_components (place : Place) : place.components.foldl step here = place := by
  rw [components, List.foldl_append, foldl_step_start, foldl_step_names]
  simp

/-- One component does to the reversed components of a place what it does to the place, if it is no
root behind others. -/
theorem normalizeStep_components (place : Place) (hc : c = .root → place = here) :
    normalizeStep place.components.reverse c = (place.step c).components.reverse := by
  obtain ⟨start, stack⟩ := place
  cases c with
  | root =>
      rw [hc rfl]
      rfl
  | current => rfl
  | normal name => simp [components, normalizeStep, step]
  | parent =>
      cases stack with
      | cons name above => simp [components, normalizeStep, step]
      | nil =>
          cases start with
          | root => rfl
          | above levels =>
              simp [components, Start.components, step, Start.up, normalizeStep_parent_replicate]

/-- A path is normalized by the steps that its components make on the stack. -/
theorem foldl_normalizeStep_components (hcs : .root ∉ cs) (place : Place) :
    cs.foldl normalizeStep place.components.reverse = (cs.foldl step place).components.reverse := by
  induction cs generalizing place with
  | nil => rfl
  | cons c rest ih =>
      have hc : c = .root → place = here :=
        fun hroot => absurd hroot.symm (List.ne_of_not_mem_cons hcs)
      rw [List.foldl_cons, List.foldl_cons, normalizeStep_components place hc]
      exact ih (List.not_mem_of_not_mem_cons hcs) _

/-- No place has a single dot among its components. -/
theorem current_not_mem_components : .current ∉ place.components := by
  obtain ⟨start, stack⟩ := place
  cases start <;> simp [components, Start.components]

/-- Behind the levels that a place goes up, it goes down only. -/
theorem parent_not_mem_dropWhile_components :
    .parent ∉ place.components.dropWhile (· = .parent) := by
  obtain ⟨start, stack⟩ := place
  cases start with
  | root => simp [components, Start.components]
  | above levels =>
      have hlevels :
        (List.replicate levels Component.parent).dropWhile (· = .parent) = [] := by simp
      have hnames : .parent ∉ (stack.reverse.map Component.normal).dropWhile (· = .parent) := by
        intro hmem
        simpa using (List.dropWhile_sublist _).subset hmem
      rw [components, Start.components, List.dropWhile_append, hlevels]
      exact hnames

/-- A place has the root among its components if it starts there. -/
theorem root_mem_components_iff : .root ∈ place.components ↔ place.start = .root := by
  obtain ⟨start, stack⟩ := place
  cases start <;> simp [components, Start.components]

/-- From the root no place goes up. -/
theorem parent_not_mem_components (h : place.start = .root) : .parent ∉ place.components := by
  simp [components, h, Start.components]

end Place

variable {a b p q : Path}

/-- `place p` is the place that `p` names. -/
def place (p : Path) : Place := p.components.foldl Place.step Place.here

/-! ## Normalized paths -/

/-- To resolve the dots of a path finds its place. -/
theorem normalized_components (p : Path) : normalized p.components = p.place.components := by
  obtain ⟨start, hcomponents, hstart⟩ := components_eq_append p
  have hrest := Place.foldl_normalizeStep_components (root_not_mem_moves p.pieces)
  rw [normalized, place, hcomponents, List.foldl_append, List.foldl_append, List.reverse_eq_iff]
  rcases hstart with ⟨-, rfl⟩ | ⟨-, rfl | rfl⟩
  · exact hrest ⟨.root, []⟩
  · exact hrest Place.here
  · exact hrest Place.here

/-- A normalized path is the spelling of its place. -/
theorem normalize_eq (p : Path) : p.normalize = ofComponents p.place.components := by
  rw [← normalized_components]
  rfl

/-- The normal form of a path has the components of its place. -/
theorem components_normalize_eq (p : Path) : p.normalize.components = p.place.components := by
  rw [components_normalize, normalized_components]

/-- The place of a path starts at the root if the path is absolute. -/
theorem start_place_eq_root_iff : p.place.start = .root ↔ p.isAbsolute = true := by
  obtain ⟨start, hcomponents, hstart⟩ := components_eq_append p
  rw [place, hcomponents, List.foldl_append,
    Place.start_foldl_step (root_not_mem_moves p.pieces)]
  rcases hstart with ⟨habsolute, rfl⟩ | ⟨habsolute, rfl | rfl⟩ <;>
    simp [habsolute, Place.step, Place.here]

/-- The normal form of a path is absolute if the path is. -/
theorem isAbsolute_normalize (p : Path) : p.normalize.isAbsolute = p.isAbsolute := by
  rw [Bool.eq_iff_iff, isAbsolute_iff_root_mem, components_normalize_eq,
    Place.root_mem_components_iff, start_place_eq_root_iff]

/-- To normalize a path does not change its place. -/
theorem place_normalize (p : Path) : p.normalize.place = p.place := by
  rw [place, components_normalize_eq, Place.foldl_step_components]

/-- Paths are normalized alike exactly when they name the same place. -/
theorem normalize_eq_normalize_iff : p.normalize = q.normalize ↔ p.place = q.place := by
  constructor
  · intro h
    rw [← place_normalize p, h, place_normalize]
  · intro h
    rw [normalize_eq, h, ← normalize_eq]

/-- A normal form is its own normal form. -/
theorem normalize_normalize (p : Path) : p.normalize.normalize = p.normalize :=
  normalize_eq_normalize_iff.2 (place_normalize p)

/-! ## Joined paths -/

/-- A relative path goes on from the place of the path that it is taken from. -/
theorem place_join (hb : b.isAbsolute = false) :
    (a.join b).place = (b.pieces.filterMap component?).foldl Place.step a.place := by
  by_cases ha : a.text = ""
  · have hjoin : a.join b = b := by
      obtain rfl : a = ⟨""⟩ := Path.mk.injEq _ _ ▸ ha
      simp [join, hb]
    have hplace : a.place = Place.here := by
      obtain rfl : a = ⟨""⟩ := Path.mk.injEq _ _ ▸ ha
      cbv
    obtain ⟨start, hcomponents, hstart⟩ := components_eq_append b
    rw [hjoin, hplace, place, hcomponents, List.foldl_append]
    rcases hstart with ⟨habsolute, -⟩ | ⟨-, rfl | rfl⟩
    · rw [hb] at habsolute
      cases habsolute
    · rfl
    · rfl
  · rw [place, components_join_of_relative ha hb, List.foldl_append]
    rfl

/-- A path may be normalized before another is put behind it. -/
theorem normalize_join (a : Path) (hb : b.isAbsolute = false) :
    (a.join b).normalize = (a.normalize.join b).normalize := by
  rw [normalize_eq_normalize_iff, place_join hb, place_join hb, place_normalize]

end Path

/-! ## Modules under their normalized paths -/

namespace Project

variable {p q : Path}

/-- Paths with one place have the same module. -/
theorem moduleAt?_congr (fs : FileSystem) (h : p.place = q.place) :
    moduleAt? fs p = moduleAt? fs q := by
  rw [moduleAt?, moduleAt?, Path.normalize_eq_normalize_iff.2 h]

/-- Paths of one place are looked up alike, in whatever table. -/
theorem ModuleTable.find?_congr (fs : FileSystem) (table : ModuleTable) (h : p.place = q.place) :
    table.find? fs p = table.find? fs q := by
  rw [find?, find?, Path.normalize_eq_normalize_iff.2 h, moduleAt?_congr fs h]

/-- A table has an entry for a path exactly when it was made of one that names the same place. -/
theorem ModuleTable.isSome_lookup_ofFiles (fs : FileSystem) (paths : List Path) (p : Path) :
    ((ofFiles fs paths).modules.lookup p.normalize.text).isSome = true ↔
      ∃ other ∈ paths, other.place = p.place := by
  have hkey (other : Path) : other.normalize.text = p.normalize.text ↔ other.place = p.place := by
    rw [← Path.normalize_eq_normalize_iff, Path.mk.injEq]
  induction paths with
  | nil => simp [ofFiles]
  | cons first rest ih =>
      rw [ofFiles, List.map_cons, List.lookup_cons, List.exists_mem_cons_iff, ← hkey]
      by_cases hfirst : first.normalize.text = p.normalize.text
      · simp [hfirst]
      · have hnot : (p.normalize.text == first.normalize.text) = false := by
          simpa using Ne.symm hfirst
        rw [hnot, or_iff_right hfirst]
        exact ih

end Project

/-- To normalize a path spells the place to which its components lead on a stack of names: without
single dots, and with two dots at the start only, where the path is relative. It is done once and
for all, it does not matter for the relative paths that are taken from a path, and paths are
normalized alike exactly when they name one place. So all spellings of the path of a module share
one entry. -/
theorem normalized_paths (p : Path) :
    (p.normalize.components = p.place.components ∧ p.normalize.isAbsolute = p.isAbsolute ∧
      .current ∉ p.normalize.components ∧ .parent ∉ p.normalize.components.dropWhile (· = .parent) ∧
      (p.isAbsolute = true → .parent ∉ p.normalize.components)) ∧
    p.normalize.normalize = p.normalize ∧
    (∀ b : Path, b.isAbsolute = false → (p.join b).normalize = (p.normalize.join b).normalize) ∧
    (∀ q : Path, p.normalize = q.normalize ↔ p.place = q.place) ∧
    ∀ fs : FileSystem,
      (∀ (table : Project.ModuleTable) (q : Path), p.place = q.place →
        table.find? fs p = table.find? fs q) ∧
      ∀ paths : List Path, ((Project.ModuleTable.ofFiles fs paths).modules.lookup
        p.normalize.text).isSome = true ↔ ∃ other ∈ paths, other.place = p.place := by
  have hform := Path.components_normalize_eq p
  refine ⟨⟨hform, Path.isAbsolute_normalize p, ?_, ?_, fun habsolute => ?_⟩,
    Path.normalize_normalize p,
    fun b hb => Path.normalize_join p hb, fun q => Path.normalize_eq_normalize_iff,
    fun fs => ⟨fun table q h => table.find?_congr fs h,
      fun paths => Project.ModuleTable.isSome_lookup_ofFiles fs paths p⟩⟩
  · rw [hform]
    exact Path.Place.current_not_mem_components
  · rw [hform]
    exact Path.Place.parent_not_mem_dropWhile_components
  · rw [hform]
    exact Path.Place.parent_not_mem_components (Path.start_place_eq_root_iff.2 habsolute)

/-- What a page imports in a roundabout way is the module under its plain path. -/
theorem normalized_paths_of_import :
    let page : Path := ⟨"/web/src/app/pages/.."⟩
    let specifier : Path := ⟨"./.././shared/names.ts"⟩
    let names : Path := ⟨"/web/src/shared/names.ts"⟩
    page.isAbsolute = true ∧ specifier.isAbsolute = false ∧
    (page.join specifier).place = names.place ∧ .parent ∉ page.normalize.components ∧
    (page.join specifier).normalize = (page.normalize.join specifier).normalize ∧
    ∀ (fs : FileSystem) (table : Project.ModuleTable), table.find? fs (page.join specifier) =
      table.find? fs names := by
  intro page specifier names
  have hpage : page.isAbsolute = true := by cbv
  have hspecifier : specifier.isAbsolute = false := by decide +kernel
  have hplace : (page.join specifier).place = names.place := by
    simp only [page, specifier, names, Path.place, Path.components, Path.pieces_eq]
    decide +kernel
  have hnormal := normalized_paths page
  have hmodules := (normalized_paths (page.join specifier)).2.2.2.2
  refine ⟨hpage, hspecifier, hplace, hnormal.1.2.2.2.2 hpage,
    hnormal.2.2.1 specifier hspecifier, ?_⟩
  exact fun fs table => (hmodules fs).1 table names hplace

end TrackingPlan
