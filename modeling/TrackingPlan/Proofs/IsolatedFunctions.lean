import TrackingPlan.Grammar.Go
import TrackingPlan.Proofs.FunctionScopes
import TrackingPlan.Proofs.Likeness.Go

/-!
# Functions that do not disturb each other

What stands in one function of a Go file says nothing about the events of calls elsewhere: they are
those of the file without the function, as `eventsIn_without` says, and so they stay the same when
another function takes its place. The names of a function are found by the bytes of the function,
and no byte of a call elsewhere is among them.
-/

namespace TrackingPlan

namespace Node

/-- The children of `n` have bytes, which are among those of `n`, and no two of them share a
byte. -/
structure SeparatesChildren (n : Node) : Prop where
  bytes : ∀ c ∈ n.children, c.start < c.stop
  nested : ∀ c ∈ n.children, n.contains c = true
  disjoint : n.children.Pairwise fun a b => a.stop ≤ b.start ∨ b.stop ≤ a.start

/-- All nodes of a tree separate their children. -/
def Separated (root : Node) : Prop := ∀ s ∈ (Site.root root).all, s.node.SeparatesChildren

instance (n : Node) : Decidable n.SeparatesChildren :=
  decidable_of_iff ((∀ c ∈ n.children, c.start < c.stop) ∧ (∀ c ∈ n.children, n.contains c = true) ∧
      n.children.Pairwise fun a b => a.stop ≤ b.start ∨ b.stop ≤ a.start)
    ⟨fun ⟨bytes, nested, disjoint⟩ => ⟨bytes, nested, disjoint⟩,
      fun h => ⟨h.bytes, h.nested, h.disjoint⟩⟩

instance (root : Node) : Decidable root.Separated :=
  inferInstanceAs (Decidable (∀ s ∈ (Site.root root).all, s.node.SeparatesChildren))

variable {root n c : Node}

/-- In a file whose nodes are apart, so are the children of each node. -/
theorem Separated.separatesChildren (h : root.Separated) (hn : root.Within n) :
    n.SeparatesChildren := by
  obtain ⟨s, hs, rfl⟩ := Site.exists_mem_all hn
  exact h s hs

/-- What is within a child has bytes, which are among those of the child. -/
theorem Separated.within_child (h : root.Separated) (hc : c ∈ root.children) (hn : c.Within n) :
    c.start ≤ n.start ∧ n.start < n.stop ∧ n.stop ≤ c.stop := by
  have hroot := h.separatesChildren .root
  induction hn with
  | root => exact ⟨Nat.le_refl _, hroot.bytes c hc, Nat.le_refl _⟩
  | @child m inner hm hinner ih =>
      have hm := h.separatesChildren ((Within.child .root hc).trans hm)
      have hbytes := hm.bytes inner hinner
      have hnested := contains_iff.1 (hm.nested inner hinner)
      omega

/-- What is in a tree is its root, or within a child. -/
theorem Within.exists_child (hn : root.Within n) (hne : n ≠ root) :
    ∃ c ∈ root.children, c.Within n := by
  induction hn with
  | root => exact absurd rfl hne
  | @child m inner hm hinner ih =>
      by_cases hm : m = root
      · exact ⟨inner, hm ▸ hinner, .root⟩
      · obtain ⟨c, hc, hwithin⟩ := ih hm
        exact ⟨c, hc, .child hwithin hinner⟩

end Node

namespace Site

/-- The nodes of a tree are the same, whatever is around it. -/
theorem nodes_all {s s' : Site} (h : s.node = s'.node) :
    s.all.map (·.node) = s'.all.map (·.node) := by
  induction s using Site.induction_size generalizing s' with
  | h s ih =>
      rw [all_eq_cons, all_eq_cons, List.map_cons, List.map_cons, h, List.map_flatMap,
        List.map_flatMap]
      congr 1
      refine List.flatMap_congr ?_
      intro c hc
      exact ih (s.below c) (Node.size_lt_of_mem (h ▸ hc)) rfl

end Site

namespace Go

variable {head : Head} {before after parts others : List Node} {function other place n : Node}
  {signatures : List Signature} {path : Path}

/-! ## The events of a part of a file -/

/-- `eventsIn u signatures path ns` lists the events that the calls in the trees `ns` fire. -/
def eventsIn (u : Unit) (signatures : List Signature) (path : Path) (ns : List Node) : List Event :=
  ns.flatMap fun n => (calls n).flatMap (eventsOf u signatures path)

/-- The events of two runs of nodes are those of both. -/
theorem eventsIn_append (u : Unit) (ns ms : List Node) :
    eventsIn u signatures path (ns ++ ms) = eventsIn u signatures path ns ++
      eventsIn u signatures path ms :=
  List.flatMap_append

/-- The events of calls are told from the nodes. -/
theorem eventsOf_calls (u : Unit) (s : Site) :
    (s.all.filter (·.kind = "call_expression")).flatMap (eventsOf u signatures path) =
      ((s.all.map (·.node)).filter (·.kind = "call_expression")).flatMap fun n =>
        eventsOf u signatures path (Site.root n) := by
  rw [List.filter_map, List.flatMap_map]
  rfl

/-- The events of a file are those of its parts, one part after the other. -/
theorem events_eq_eventsIn {root : Node} (hroot : root.kind = "source_file") :
    events signatures path root = eventsIn (Unit.ofTree root) signatures path root.children := by
  have hcall : (Site.root root).kind ≠ "call_expression" := by
    show root.kind ≠ "call_expression"
    rw [hroot]
    decide
  rw [events, calls, Site.all_eq_cons, List.filter_cons_of_neg (by simpa using hcall),
    List.filter_flatMap, List.flatMap_assoc]
  refine List.flatMap_congr ?_
  intro c _
  have hnodes := Site.nodes_all (show ((Site.root root).below c).node = (Site.root c).node from rfl)
  rw [eventsOf_calls, calls, eventsOf_calls, hnodes]

/-! ## Files without one of their functions -/

/-- The functions of a file are those of its first and its last declarations. -/
theorem declarations_append (before after : List Node) :
    (Unit.ofTree (.mk head (before ++ after))).declarations =
      (Unit.ofTree (.mk head before)).declarations ++
        (Unit.ofTree (.mk head after)).declarations := by
  simp only [Unit.ofTree, Node.namedChildren, Node.children, List.filter_append,
    List.flatMap_append]

/-- The bindings of a package are those of its first and its last declarations. -/
theorem package_append (before after : List Node) :
    (Unit.ofTree (.mk head (before ++ after))).package =
      (Unit.ofTree (.mk head before)).package ++ (Unit.ofTree (.mk head after)).package := by
  simp only [Unit.ofTree, Node.namedChildren, Node.children, List.filter_append,
    List.flatMap_append]

/-- What a file of one function declares is the function. -/
theorem body_of_mem_declarations {d : Declaration} (hfunction : IsFunction function)
    (hd : d ∈ (Unit.ofTree (.mk head [function])).declarations) : d.body = function := by
  obtain ⟨c, hc, hdeclared⟩ := List.mem_flatMap.1 hd
  obtain rfl := List.mem_singleton.1 (List.mem_filter.1 hc).1
  rw [declarationsAt_of_function hfunction, List.mem_singleton] at hdeclared
  rw [hdeclared]
  rfl

/-- A function declares nothing in the package. -/
theorem package_of_function (hfunction : IsFunction function) :
    (Unit.ofTree (.mk head [function])).package = [] := by
  refine List.flatMap_eq_nil_iff.2 ?_
  intro c hc
  obtain rfl := List.mem_singleton.1 (List.mem_filter.1 hc).1
  rcases hfunction with hkind | hkind <;> simp [Unit.packageAt, hkind]

/-- A place outside a function belongs to what it belongs to without the function. -/
theorem owner?_without (hfunction : IsFunction function)
    (hplace : function.contains place = false) :
    (Unit.ofTree (.mk head (before ++ [function] ++ after))).owner? place =
      (Unit.ofTree (.mk head (before ++ after))).owner? place := by
  have hnone :
      (Unit.ofTree (.mk head [function])).declarations.find? (·.body.contains place) = none := by
    rw [List.find?_eq_none]
    intro d hd
    rw [body_of_mem_declarations hfunction hd, hplace]
    decide
  rw [Unit.owner?, Unit.owner?, declarations_append, declarations_append, declarations_append,
    List.find?_append, List.find?_append, List.find?_append, hnone, Option.or_none]

/-- A name outside a function stands for what it stands for without the function. -/
theorem lookup?_without (hfunction : IsFunction function) (hplace : function.contains place = false)
    (name : String) :
    (Unit.ofTree (.mk head (before ++ [function] ++ after))).lookup? name place =
      (Unit.ofTree (.mk head (before ++ after))).lookup? name place := by
  rw [Unit.lookup?, Unit.lookup?, owner?_without hfunction hplace, package_append, package_append,
    package_append, package_of_function hfunction, List.append_nil]

/-- The nodes of a file that are the same with and without a function. -/
def Shared (rest : Node) (n n' : Node) : Prop := n = n' ∧ rest.Within n

/-- Nodes outside the function are alike in both files, as they are the same. -/
theorem likeness_shared (rest : Node) : Likeness (Shared rest) where
  kind h := by rw [h.1]
  text h := by rw [h.1]
  child? := by
    rintro n _ ⟨rfl, hn⟩ role
    cases hchild : n.child? role with
    | none => exact .none
    | some c => exact .some ⟨rfl, hn.child? hchild⟩
  namedChildren := by
    rintro n _ ⟨rfl, hn⟩
    exact List.forall₂_same.2 fun c hc => ⟨rfl, hn.namedChildren hc⟩
  first := by
    rintro n _ ⟨rfl, hn⟩ -
    cases hfirst : n.firstNamed? with
    | none => exact .none
    | some c => exact .some ⟨rfl, hn.firstNamed? hfirst⟩

/-- The function has no byte of a node in the parts of the file before and after it. -/
def ApartFrom (before after : List Node) (function : Node) : Prop :=
  ∀ c ∈ before ++ after, ∀ n, c.Within n → function.contains n = false

/-- A function in a file whose nodes are apart is apart from what stands around it. -/
theorem apartFrom_of_separated (h : (Node.mk head (before ++ [function] ++ after)).Separated) :
    ApartFrom before after function := by
  intro c hc n hn
  have hmem : c ∈ (Node.mk head (before ++ [function] ++ after)).children := by
    rw [Node.children, List.append_assoc]
    rcases List.mem_append.1 hc with hc | hc
    · exact List.mem_append_left _ hc
    · exact List.mem_append_right _ (List.mem_append_right _ hc)
  have hdisjoint : c.stop ≤ function.start ∨ function.stop ≤ c.start := by
    have hpairs := (h.separatesChildren .root).disjoint
    rw [Node.children, List.append_assoc, List.singleton_append] at hpairs
    obtain ⟨-, hafter, hacross⟩ := List.pairwise_append.1 hpairs
    rcases List.mem_append.1 hc with hc | hc
    · exact hacross c hc function List.mem_cons_self
    · exact ((List.pairwise_cons.1 hafter).1 c hc).symm
  have hin := h.within_child hmem hn
  rw [← Bool.not_eq_true, Node.contains_iff]
  omega

/-- Names around a function stand for what they stand for without it. -/
theorem like_without (hkind : head.kind = "source_file") (hfunction : IsFunction function)
    (hapart : ApartFrom before after function) :
    Unit.Like (Shared (.mk head (before ++ after)))
      (Unit.ofTree (.mk head (before ++ [function] ++ after)))
      (Unit.ofTree (.mk head (before ++ after))) where
  lookup? := by
    rintro n _ ⟨rfl, hn⟩ hidentifier name
    have hne : n ≠ Node.mk head (before ++ after) := by
      rintro rfl
      have hfile : head.kind = "identifier" := hidentifier
      rw [hkind] at hfile
      exact absurd hfile (by decide)
    obtain ⟨c, hc, hwithin⟩ := hn.exists_child hne
    rw [lookup?_without hfunction (hapart c hc n hwithin)]
    cases hlookup : (Unit.ofTree (.mk head (before ++ after))).lookup? name n with
    | none => exact .none
    | some b =>
        refine .some ⟨Option.Rel.same fun _ => rfl, ?_⟩
        cases hvalue : b.value with
        | none => exact .none
        | some value => exact .some ⟨rfl, (Unit.stemsFrom_ofTree _).lookup? hlookup hvalue⟩

/-- The calls around a function fire the events that they fire without it. -/
theorem eventsIn_without (hkind : head.kind = "source_file") (hfunction : IsFunction function)
    (hapart : ApartFrom before after function) (hparts : parts ⊆ before ++ after) :
    eventsIn (Unit.ofTree (.mk head (before ++ [function] ++ after))) signatures path parts =
      eventsIn (Unit.ofTree (.mk head (before ++ after))) signatures path parts := by
  refine List.flatMap_congr ?_
  intro c hc
  refine List.flatMap_congr ?_
  intro call hcall
  have hwithin : c.Within call.node := Site.within_of_mem_all .root (List.mem_filter.1 hcall).1
  have hrest : (Node.mk head (before ++ after)).Within call.node :=
    (Node.Within.child .root (hparts hc)).trans hwithin
  rw [eventsOf, eventsOf, context, context, owner?_without hfunction
    (hapart c (hparts hc) _ hwithin),
    payloads_eq (likeness_shared _) (like_without hkind hfunction hapart) ⟨rfl, hrest⟩]

/-- When a function takes the place of another one, whatever is in the two, then the calls before
and after that place fire the same events in the same order as before, which are those of the file
without either function. -/
theorem events_outside_function (hkind : head.kind = "source_file")
    (hfunction : IsFunction function)
    (hother : IsFunction other) (hstart : other.start = function.start)
    (hstop : other.stop = function.stop)
    (h : (Node.mk head (before ++ [function] ++ after)).Separated) (signatures : List Signature)
    (path : Path) :
    let u := Unit.ofTree (.mk head (before ++ [function] ++ after))
    let u' := Unit.ofTree (.mk head (before ++ [other] ++ after))
    events signatures path (.mk head (before ++ [function] ++ after)) =
        eventsIn u signatures path before ++ eventsIn u signatures path [function] ++
          eventsIn u signatures path after ∧
      events signatures path (.mk head (before ++ [other] ++ after)) =
        eventsIn u' signatures path before ++ eventsIn u' signatures path [other] ++
          eventsIn u' signatures path after ∧
      eventsIn u signatures path before = eventsIn u' signatures path before ∧
      eventsIn u signatures path after = eventsIn u' signatures path after ∧
      eventsIn u signatures path before ++ eventsIn u signatures path after =
        events signatures path (.mk head (before ++ after)) := by
  intro u u'
  have hapart := apartFrom_of_separated h
  have hapart' : ApartFrom before after other := by
    intro c hc n hn
    rw [Node.contains, hstart, hstop]
    exact hapart c hc n hn
  have hparts (ns : List Node) : events signatures path (.mk head ns) =
      eventsIn (Unit.ofTree (.mk head ns)) signatures path ns :=
    events_eq_eventsIn hkind
  have hbefore := List.subset_append_left before after
  have hafter := List.subset_append_right before after
  have hfirst : eventsIn u signatures path before = _ :=
    eventsIn_without hkind hfunction hapart hbefore
  have hlast : eventsIn u signatures path after = _ :=
    eventsIn_without hkind hfunction hapart hafter
  refine ⟨?_, ?_, ?_, ?_, ?_⟩
  · rw [hparts, eventsIn_append, eventsIn_append]
  · rw [hparts, eventsIn_append, eventsIn_append]
  · exact hfirst.trans (eventsIn_without hkind hother hapart' hbefore).symm
  · exact hlast.trans (eventsIn_without hkind hother hapart' hafter).symm
  · rw [hfirst, hlast, hparts, eventsIn_append]

/-! ## A function that hides a constant -/

/-- The signature `track`. -/
def trackSignature : Signature := ⟨"track", ["track"], 0, 1, []⟩

/-- `constantUsed body` is a file with a constant, a function with the line `body`, and a call with
the constant. -/
def constantUsed (body : String) : Node :=
  read (Source.ofString ("const name = \"Signup\"\n\nfunc f() \x7b\n\t" ++ body ++
    "\n\x7d\n\nfunc g() \x7b\n\ttrack(name)\n\x7d\n"))

/-- A file where a function has a call of its own. -/
def openedFile : Node := constantUsed "track(\"Opened\")"

/-- The same file where the function has a variable with the name of the constant. -/
def hidingFile : Node := constantUsed "name := \"Other\""

/-- A function with a variable that hides the constant leaves the event of the call behind it. -/
theorem events_outside_function_of_hiding :
    ∃ constant function other caller, openedFile.children = [constant, function, caller] ∧
      hidingFile.children[1]? = some other ∧
      (events [trackSignature] ⟨"a.go"⟩ openedFile).map (·.name) = ["Opened", "Signup"] ∧
      (eventsIn (Unit.ofTree (.mk openedFile.head [constant, other, caller]))
        [trackSignature] ⟨"a.go"⟩
        [caller]).map (·.name) = ["Signup"] := by
  have hchecked : openedFile.Separated ∧ openedFile.head.kind = "source_file" ∧
      (events [trackSignature] ⟨"a.go"⟩ openedFile).map (·.name) = ["Opened", "Signup"] ∧
      openedFile.children.map (fun n => decide (IsFunction n)) = [false, true, true] ∧
      (hidingFile.children[1]?).map (fun n => (decide (IsFunction n), n.start, n.stop)) =
        (openedFile.children[1]?).map (fun n => (true, n.start, n.stop)) ∧
      openedFile.children[2]?.map (fun caller =>
        (eventsIn (Unit.ofTree openedFile) [trackSignature] ⟨"a.go"⟩ [caller]).map (·.name)) =
          some ["Signup"] := by
    decide +kernel
  obtain ⟨hseparated, hhead, hnames, hview, hother, hlast⟩ := hchecked
  obtain ⟨constant, function, caller, hchildren⟩ : ∃ a b c, openedFile.children = [a, b, c] :=
    List.length_eq_three.1 (by simpa using congrArg List.length hview)
  have hfile : openedFile = .mk openedFile.head ([constant] ++ [function] ++ [caller]) := by
    rw [← show openedFile.children = [constant] ++ [function] ++ [caller] from hchildren]
    cases openedFile
    rfl
  rw [hchildren] at hview hother hlast
  cases hfound : hidingFile.children[1]? with
  | none => simp [hfound] at hother
  | some other =>
      simp only [hfound, Option.map_some, List.getElem?_cons_succ, List.getElem?_cons_zero,
        Option.some.injEq, Prod.mk.injEq, decide_eq_true_eq] at hother hlast
      obtain ⟨hotherFunction, hstart, hstop⟩ := hother
      have hfunction : IsFunction function := by
        simpa using (List.cons.inj (List.cons.inj hview).2).1
      rw [hfile] at hseparated
      have hsame := (events_outside_function hhead hfunction hotherFunction hstart hstop hseparated
        [trackSignature] ⟨"a.go"⟩).2.2.2.1
      rw [← hfile] at hsame
      refine ⟨constant, function, other, caller, hchildren, rfl, hnames, ?_⟩
      exact (congrArg (List.map (·.name)) hsame).symm.trans hlast

end Go

end TrackingPlan
