import TrackingPlan.Proofs.Comments.Ruby
import TrackingPlan.Proofs.ReachedSites
import TrackingPlan.Proofs.RootedNames

/-!
# Constants in nested modules and classes

The constants of a Ruby file are collected by a walk that keeps the names of the modules and classes
it is in, `Collector.around`, while the name of a constant is looked up in those that are found
around it. `collect_eq` says that the walk has the same names in hand at every site that it comes
by, and leaves them as they were. So a constant is known by the full name under which it is looked
up, and `nested_constants` says what is found: the value last assigned in the innermost of the
modules and classes that assign one.
-/

namespace TrackingPlan.Ruby

variable {root : Node} {s t c : Site} {name value : String} {around : List String}

/-! ## The modules and classes around a site -/

/-- `nesting s` names the modules and classes around the site, the outermost first. -/
def nesting (s : Site) : List String := (s.ancestors.filterMap containerName?).reverse

/-- The child of a container is nested in what the container is nested in, and in the container. -/
theorem nesting_of_mem_children (hc : c ∈ s.children) :
    nesting c = nesting s ++ (containerName? s.node).toList := by
  obtain ⟨n, -, rfl⟩ := List.mem_map.1 hc
  show ((s.node :: s.ancestors).filterMap containerName?).reverse = _
  rw [List.filterMap_cons]
  cases containerName? s.node with
  | none => exact (List.append_nil _).symm
  | some name => exact List.reverse_cons

/-- The full name of two runs of names has colons between their own. -/
theorem fullName_append {names others : List String} (hnames : names ≠ []) (hothers : others ≠ []) :
    fullName (names ++ others) = fullName names ++ "::" ++ fullName others :=
  String.intercalate_append_of_ne_nil hnames hothers

/-- A path as the name of a module or class counts as its names one after the other: `A::B` as `B`
in `A`. -/
theorem fullName_compact {path : List String} (hpath : path ≠ []) (before after : List String) :
    fullName (before ++ [fullName path] ++ after) = fullName (before ++ path ++ after) := by
  have hsingle : fullName [fullName path] = fullName path := String.intercalate_singleton
  have hbefore : fullName (before ++ [fullName path]) = fullName (before ++ path) := by
    rcases eq_or_ne before [] with rfl | hne
    · exact hsingle
    · rw [fullName_append hne (List.cons_ne_nil _ _), fullName_append hne hpath, hsingle]
  rcases eq_or_ne after [] with rfl | hne
  · rw [List.append_nil, List.append_nil, hbefore]
  · rw [fullName_append (by simp) hne, fullName_append (by simp [hpath]) hne, hbefore]

/-! ## The walk -/

/-- `assignment? s` is the constant that is assigned at `s`. -/
def assignment? (s : Site) : Option (String × String) :=
  if s.kind = "assignment" then assignedConstant? (nesting s) s.node else none

/-- What the walk knows: the modules and classes that it is in, the sites that it came by, each with
those that it was in, and the constants found. -/
structure Collector where
  around : List String
  visits : List (Site × List String)
  constants : Constants

namespace Collector

variable {w : Collector}

/-- `enter w s` is the walk at the site `s`, before it goes into it. -/
def enter (w : Collector) (s : Site) : Collector where
  around := w.around
  visits := w.visits ++ [(s, w.around)]
  constants :=
    match if s.kind = "assignment" then assignedConstant? w.around s.node else none with
    | none => w.constants
    | some (name, value) => Named.insert w.constants name value

/-- `push w name` is the walk in the module or class `name`. -/
def push (w : Collector) (name : String) : Collector := { w with around := w.around ++ [name] }

/-- `pop w` is the walk out of the innermost module or class. -/
def pop (w : Collector) : Collector := { w with around := w.around.dropLast }

/-- `after w sites` is the walk when it came by `sites`, each in the modules and classes around
it. -/
def after (w : Collector) (sites : List Site) : Collector where
  around := w.around
  visits := w.visits ++ sites.map fun t => (t, nesting t)
  constants := Named.merge w.constants (sites.filterMap assignment?)

/-- A collector stays as it is after no sites. -/
theorem after_nil (w : Collector) : w.after [] = w := by
  simp [after, Named.merge]

/-- A collector goes on after some sites with the others. -/
theorem after_after (w : Collector) (sites others : List Site) :
    (w.after sites).after others = w.after (sites ++ others) := by
  simp [after, Named.merge]

/-- To enter a site is to go on after it, where it is nested. -/
theorem enter_eq_after (h : w.around = nesting s) : w.enter s = w.after [s] := by
  have hconstants : (w.enter s).constants = (w.after [s]).constants := by
    simp only [enter, after, h, List.filterMap_cons, List.filterMap_nil, assignment?]
    split <;> simp_all [Named.merge]
  simp only [enter, after, h, List.map_cons, List.map_nil] at hconstants ⊢
  rw [hconstants]

/-- A container that is entered and left changes nothing but for the sites inside. -/
theorem pop_after_push (w : Collector) (name : String) (sites : List Site) :
    ((w.push name).after sites).pop = w.after sites := by
  simp [push, pop, after]

end Collector

/-- `collect s w` goes through the node at `s` and what is in it. -/
def collect (s : Site) (w : Collector) : Collector :=
  let inside (w : Collector) := s.children.attach.foldl (fun w ⟨child, _⟩ => collect child w) w
  match containerName? s.node with
  | none => inside (w.enter s)
  | some name => (inside ((w.enter s).push name)).pop
termination_by s.node.size
decreasing_by exact Site.size_children_lt (by assumption)

/-- A collector enters a site, and goes through its children inside its name if it has one. -/
theorem collect_eq_foldl (s : Site) (w : Collector) : collect s w =
    match containerName? s.node with
    | none => s.children.foldl (fun w child => collect child w) (w.enter s)
    | some name =>
        (s.children.foldl (fun w child => collect child w) ((w.enter s).push name)).pop := by
  rw [collect]
  simp only [List.foldl_subtype, List.unattach_attach]

/-- Through children that each have the same names around them, the walk goes with these names. -/
theorem foldl_collect {children : List Site}
    (h : ∀ w : Collector, w.around = around → ∀ child ∈ children, collect child w =
      w.after child.reachedFrom)
    (w : Collector) (hw : w.around = around) :
    children.foldl (fun w child => collect child w) w =
      w.after (children.flatMap Site.reachedFrom) := by
  induction children generalizing w with
  | nil => exact w.after_nil.symm
  | cons child rest ih =>
      rw [List.foldl_cons, h w hw child List.mem_cons_self,
        ih (fun w hw child hchild => h w hw child (List.mem_cons_of_mem _ hchild))
          (w.after child.reachedFrom) hw,
        Collector.after_after, List.flatMap_cons]

/-- The walk has at each site the names of the modules and classes around it, and leaves them as
they were. -/
theorem collect_eq (w : Collector) (hw : w.around = nesting s) :
    collect s w = w.after s.reachedFrom := by
  induction s using Site.induction_size generalizing w with
  | h s ih =>
      have hinside : ∀ w : Collector, w.around = nesting s ++ (containerName? s.node).toList →
          s.children.foldl (fun w child => collect child w) w =
            w.after (s.children.flatMap Site.reachedFrom) := by
        refine foldl_collect fun w hw child hchild => ?_
        exact ih child (Site.size_children_lt hchild) w
          (hw.trans (nesting_of_mem_children hchild).symm)
      rw [collect_eq_foldl, Collector.enter_eq_after hw, Site.reachedFrom_eq_cons]
      -- a module or a class is in hand for what is in it, and is put away behind it
      cases hname : containerName? s.node with
      | none =>
          have haround : (w.after [s]).around = nesting s ++ (containerName? s.node).toList := by
            rw [hname]
            exact hw.trans (List.append_nil _).symm
          dsimp only
          rw [hinside _ haround, Collector.after_after, List.singleton_append]
      | some name =>
          have haround :
              ((w.after [s]).push name).around = nesting s ++ (containerName? s.node).toList := by
            rw [hname]
            exact congrArg (· ++ [name]) hw
          dsimp only
          rw [hinside _ haround, Collector.pop_after_push, Collector.after_after,
            List.singleton_append]

/-- Inside the names around it, a node makes the constants that are assigned at the sites reached
from it. -/
theorem constantsIn_nesting (s : Site) :
    constantsIn (nesting s) s.node = s.reachedFrom.filterMap assignment? := by
  induction s using Site.induction_size with
  | h s ih =>
      have hown :
        (if s.node.kind = "assignment" then (assignedConstant? (nesting s) s.node).toList else []) =
          (assignment? s).toList := by
        rw [assignment?, Site.kind]
        split <;> rfl
      have hinside : s.node.namedChildren.flatMap
            (constantsIn (nesting s ++ (containerName? s.node).toList)) =
          (s.children.flatMap Site.reachedFrom).filterMap assignment? := by
        rw [List.filterMap_flatMap, Site.children, List.flatMap_map]
        refine List.flatMap_congr fun n hn => ?_
        have hmem : s.below n ∈ s.children := List.mem_map_of_mem hn
        rw [← nesting_of_mem_children hmem]
        exact ih (s.below n) (Site.size_children_lt hmem)
      rw [constantsIn_eq_append, hown, hinside, Site.reachedFrom_eq_cons, List.filterMap_cons]
      cases assignment? s <;> rfl

/-- The constants of a file are the assignments among the sites that are reached. -/
theorem constantsIn_root (root : Node) :
    constantsIn [] root = (Site.root root).reachedFrom.filterMap assignment? :=
  constantsIn_nesting (Site.root root)

/-- The walk through a file collects its constants. -/
theorem collect_root (root : Node) : collect (Site.root root) ⟨[], [], []⟩ =
    ⟨[], ((Site.root root).all.filter Site.isReached).map fun t => (t, nesting t),
      Constants.ofTree root⟩ := by
  rw [collect_eq ⟨[], [], []⟩ rfl, Collector.after, Constants.ofTree, constantsIn_root,
    ← Site.reachedFrom_root]
  rfl

/-! ## The value last assigned -/

/-- In a table of entries that the elements of a list give, the last element with an entry of a name
counts. -/
theorem find?_ofEntries_filterMap {α : Type} {f : α → Option (String × String)} {l : List α} :
    Named.find? (Named.ofEntries (l.filterMap f)) name = some value ↔
      ∃ before a after, l = before ++ a :: after ∧ f a = some (name, value) ∧
        ∀ later ∈ after, ∀ other, f later ≠ some (name, other) := by
  have hnone (a : α) : (!(f a).any (·.1 == name)) = true ↔ ∀ other, f a ≠ some (name, other) := by
    cases f a <;> simp [Prod.ext_iff]
  have hfind : Named.find? (Named.ofEntries (l.filterMap f)) name =
      ((l.reverse.find? fun a => (f a).any (·.1 == name)).bind f).map (·.2) := by
    rw [Named.ofEntries, Named.find?_merge, Named.find?_nil, Option.or_none,
      ← List.filterMap_reverse, Named.find?, List.find?_filterMap]
  simp only [hfind, Option.map_eq_some_iff, Option.bind_eq_some_iff,
    List.find?_eq_some_iff_append, hnone]
  constructor
  · rintro ⟨⟨key, held⟩, ⟨a, ⟨hkey, after, before, hsplit, hafter⟩, hentry⟩, rfl⟩
    obtain rfl : key = name := by simpa [hentry] using hkey
    refine ⟨before.reverse, a, after.reverse, ?_, hentry, fun later hlater =>
      hafter later (by simpa using hlater)⟩
    rw [← List.reverse_reverse l, hsplit]
    simp
  · rintro ⟨before, a, after, rfl, hentry, hafter⟩
    refine ⟨(name, value), ⟨a, ⟨by simp [hentry], after.reverse, before.reverse, by simp, ?_⟩,
      hentry⟩, rfl⟩
    exact fun later hlater => hafter later (by simpa using hlater)

/-- At the site, `value` is assigned to the constant of this full name: to a bare name in the
modules and classes around it, or to a path that is taken from the outside. -/
inductive Assigns (t : Site) (name value : String) : Prop where
  | bare {left right : Node} (hkind : t.kind = "assignment")
      (hleft : t.node.child? "left" = some left)
      (hright : t.node.child? "right" = some right) (hvalue : literal? right = some value)
      (hname : left.kind = "constant") (hfull : fullName (nesting t ++ [left.text]) = name) :
      Assigns t name value
  | path {left right : Node} (hkind : t.kind = "assignment")
      (hleft : t.node.child? "left" = some left)
      (hright : t.node.child? "right" = some right) (hvalue : literal? right = some value)
      (hname : left.kind = "scope_resolution") (hfull : relativeName left.text = name) :
      Assigns t name value

/-- Some site that is reached assigns the constant of this full name. -/
def IsAssigned (root : Node) (name : String) : Prop :=
  ∃ t ∈ (Site.root root).all, t.isReached = true ∧ ∃ value, Assigns t name value

/-- Of the sites that assign the constant of this full name, the last one assigns it `value`. -/
def LastAssigned (root : Node) (name value : String) : Prop :=
  ∃ before t after, (Site.root root).all = before ++ t :: after ∧ t.isReached = true ∧
    Assigns t name value ∧
    ∀ later ∈ after, later.isReached = true → ∀ other, ¬Assigns later name other

/-- An assignment gives a value to a name. -/
theorem assignment?_eq_some_iff : assignment? t = some (name, value) ↔ Assigns t name value := by
  constructor
  · intro h
    unfold assignment? at h
    split at h
    next hkind =>
      unfold assignedConstant? at h
      split at h
      next left _ hleft hright =>
        obtain ⟨right, hright, hvalue⟩ := Option.bind_eq_some_iff.1 hright
        split at h
        next hname =>
          obtain ⟨rfl, rfl⟩ := Prod.mk.inj (Option.some.inj h)
          exact .bare hkind hleft hright hvalue hname rfl
        next hname =>
          obtain ⟨rfl, rfl⟩ := Prod.mk.inj (Option.some.inj h)
          exact .path hkind hleft hright hvalue hname rfl
        next => cases h
      next => cases h
    next => cases h
  · intro h
    cases h with
    | bare hkind hleft hright hvalue hname hfull =>
        simp [assignment?, assignedConstant?, hkind, hleft, hright, hvalue, hname, hfull]
    | path hkind hleft hright hvalue hname hfull =>
        simp [assignment?, assignedConstant?, hkind, hleft, hright, hvalue, hname, hfull]

/-- Of the sites that are walked by, those that assign a constant give the entries of the table. -/
theorem ofTree_eq_ofEntries (root : Node) : Constants.ofTree root = Named.ofEntries
    ((Site.root root).all.filterMap fun t => if t.isReached then assignment? t else none) := by
  rw [Constants.ofTree, constantsIn_root, Site.reachedFrom_root, List.filterMap_filter]

/-- Among the reached sites, those count that give a value to the name. -/
theorem reached_assignment_iff :
    (if t.isReached then assignment? t else none) = some (name, value) ↔
    t.isReached = true ∧ Assigns t name value := by
  rw [← assignment?_eq_some_iff]
  split <;> simp_all

/-- The table has the values that are last assigned. -/
theorem find?_ofTree_iff :
    Named.find? (Constants.ofTree root) name = some value ↔ LastAssigned root name value := by
  simp only [ofTree_eq_ofEntries, find?_ofEntries_filterMap, ne_eq, reached_assignment_iff,
    LastAssigned, not_and, and_assoc, forall_comm (α := String)]

/-- The keys of a table are the names that are assigned to. -/
theorem mem_keys_ofTree_iff : name ∈ Named.keys (Constants.ofTree root) ↔ IsAssigned root name := by
  rw [ofTree_eq_ofEntries, Named.mem_keys_ofEntries, Named.mem_keys_iff]
  simp only [List.mem_filterMap, reached_assignment_iff, IsAssigned]
  constructor
  · rintro ⟨value, t, ht, hreached, hassigns⟩
    exact ⟨t, ht, hreached, value, hassigns⟩
  · rintro ⟨t, ht, hreached, value, hassigns⟩
    exact ⟨value, t, ht, hreached, hassigns⟩

/-- Of the full names that `name` may have in the modules and classes `around`, the innermost one
that the file assigns is last assigned `value`. -/
def IsInnermostAssigned (root : Node) (name : String) (around : List String)
    (value : String) : Prop :=
  ∃ depth ≤ around.length, LastAssigned root (nameAt name around depth) value ∧
    ∀ deeper ≤ around.length, depth < deeper → ¬IsAssigned root (nameAt name around deeper)

/-- The innermost value of a table is the innermost one that is assigned. -/
theorem isInnermostValue_ofTree_iff : IsInnermostValue (Constants.ofTree root) name around value ↔
    IsInnermostAssigned root name around value := by
  have hnodup : (Named.keys (Constants.ofTree root)).Nodup := (Named.ordered_ofEntries _).nodup_keys
  simp only [IsInnermostValue, IsInnermostAssigned, ← Named.find?_eq_some_iff hnodup,
    find?_ofTree_iff, mem_keys_ofTree_iff]

/-- A table has a candidate for a name that is assigned to in one of the classes around. -/
theorem hasCandidate_ofTree_iff : HasCandidate (Constants.ofTree root) name around ↔
    ∃ depth ≤ around.length, IsAssigned root (nameAt name around depth) := by
  simp only [HasCandidate, mem_keys_ofTree_iff]

/-- In a file that is looked at alone, a name without colons in front stands for the value that is
last assigned in the innermost of the modules and classes around it that assign one, or outside of
all; it stands for nothing if none does. The names around a site are those that the walk has there,
which comes by all parts of the program, and a path such as `A::B` counts as its names one in the
other. -/
theorem nested_constants (root : Node) (path : Path) {use : Site}
    (hbare : ¬"::".toList <+: use.text.toList) :
    let u := Unit.ofTree none path root
    let walk := collect (Site.root root) ⟨[], [], []⟩
    (walk.around = [] ∧ walk.constants = u.constants ∧
      walk.visits = ((Site.root root).all.filter Site.isReached).map fun t => (t, nesting t)) ∧
    (root.MarksAreLeaves → use ∈ (Site.root root).all → use.node.isPart = true →
      ∀ names, (use, names) ∈ walk.visits ↔ names = nesting use) ∧
    (∀ value, u.constant? use = some value ↔
      IsInnermostAssigned root use.text (nesting use) value) ∧
    (u.constant? use = none ↔
      ∀ depth ≤ (nesting use).length, ¬IsAssigned root (nameAt use.text (nesting use) depth)) ∧
    ∀ before compact after, compact ≠ [] →
      fullName (before ++ [fullName compact] ++ after) = fullName (before ++ compact ++ after) := by
  intro u walk
  have hname : relativeName use.text = use.text := relativeName_of_not_prefix hbare
  have hnodup : (Named.keys u.constants).Nodup := (Named.ordered_ofEntries _).nodup_keys
  have hconstant :
      u.constant? use = (candidates use.text (nesting use)).findSome? (Named.find? u.constants) :=
    Option.none_or
  have hwalk : walk = ⟨[], ((Site.root root).all.filter Site.isReached).map fun t => (t, nesting t),
      u.constants⟩ :=
    collect_root root
  refine ⟨⟨by rw [hwalk], by rw [hwalk], by rw [hwalk]⟩, fun hmarks huse hpart names => ?_,
    fun value => ?_, ?_, fun before compact after hne => fullName_compact hne before after⟩
  · have hreached : use.isReached = true := (Site.isReached_eq_isPart hmarks huse).trans hpart
    rw [hwalk, List.mem_map]
    constructor
    · rintro ⟨t, -, hpair⟩
      obtain ⟨rfl, rfl⟩ := Prod.mk.inj hpair
      rfl
    · rintro rfl
      exact ⟨use, List.mem_filter.2 ⟨huse, hreached⟩, rfl⟩
  · rw [hconstant, findSome?_candidates_eq_some_iff hname hnodup]
    exact isInnermostValue_ofTree_iff
  · rw [hconstant, findSome?_candidates_eq_none_iff hname]
    show ¬HasCandidate (Constants.ofTree root) _ _ ↔ _
    rw [hasCandidate_ofTree_iff]
    simp only [not_exists, not_and]

/-- A file with a class in a module that is opened again under its path. -/
def reopened : Node :=
  read (Source.ofString
    ("X = 'top'\nmodule A\n  X = 'outer'\n  class B\n    Y = 'one'\n    track(X)\n  end\nend\n" ++
    "class A::B\n  Y = 'two'\n  track(X, Y)\nend\n"))

/-- `sentNames root` lists the names of constants among the arguments of calls. -/
def sentNames (root : Node) : List Site :=
  (Site.root root).all.filter fun s =>
    s.kind = "constant" && s.ancestors.head?.any (·.kind = "argument_list")

/-- In the class, `X` is that of the module only where the module is written around it; what is
opened again assigns `Y` anew. -/
theorem nested_constants_of_reopened :
    reopened.MarksAreLeaves ∧
      (sentNames reopened).map (fun s => (s.text, nesting s)) =
        [("X", ["A", "B"]), ("X", ["A::B"]), ("Y", ["A::B"])] ∧
      List.Forall₂ (fun s value => ¬"::".toList <+: s.text.toList ∧
        IsInnermostAssigned reopened s.text (nesting s) value) (sentNames reopened)
          ["outer", "top", "two"] := by
  have h : reopened.MarksAreLeaves ∧
      (sentNames reopened).map (fun s => (s.text, nesting s)) =
        [("X", ["A", "B"]), ("X", ["A::B"]), ("Y", ["A::B"])] ∧
      List.Forall₂ (fun s value => ¬"::".toList <+: s.text.toList ∧
        (Unit.ofTree none ⟨"a.rb"⟩ reopened).constant? s = some value) (sentNames reopened)
        ["outer", "top", "two"] := by decide +kernel
  obtain ⟨hmarks, hnames, hvalues⟩ := h
  refine ⟨hmarks, hnames, hvalues.imp ?_⟩
  rintro s value ⟨hbare, hvalue⟩
  obtain ⟨-, -, hinnermost, -, -⟩ := nested_constants reopened ⟨"a.rb"⟩ hbare
  exact ⟨hbare, (hinnermost value).1 hvalue⟩

end TrackingPlan.Ruby
