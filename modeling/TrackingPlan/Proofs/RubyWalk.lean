import TrackingPlan.Proofs.Comments.Ruby
import TrackingPlan.Proofs.ReachedSites

/-!
# The walk through a Ruby file

`visit` walks through a file with a set of the nodes that it is in, by which it would notice a node
that it comes by again inside itself, and stops where parts of the program are nested too deep. As
nodes at different places differ, the set keeps no node back and is left as it was: `visit_eq`. So
the walk finds what the calls send that are nested in no more than `maxDepth` parts, as
`calls_within_depth` says, and these are the calls of `Ruby.calls`.
-/

namespace TrackingPlan.Ruby

variable {root : Node} {s t c : Site} {depth : Nat}

/-! ## The depth of a call -/

/-- `nestedAround s` counts the nested parts of the program around the site. -/
def nestedAround (s : Site) : Nat := s.ancestors.countP fun n => nestedKinds.contains n.kind

/-- `callsWithin s` lists the calls that are reached from `s` and are not nested too deep. -/
def callsWithin (s : Site) : List Site :=
  s.reachedFrom.filter fun t => t.kind = "call" && nestedAround t ≤ maxDepth

/-- A child is nested one level deeper if its parent is of a kind that counts. -/
theorem nestedAround_of_mem_children (hc : c ∈ s.children) : nestedAround c =
    if nestedKinds.contains s.kind then nestedAround s + 1 else nestedAround s := by
  obtain ⟨n, -, rfl⟩ := List.mem_map.1 hc
  show (s.node :: s.ancestors).countP _ = _
  rw [List.countP_cons]
  show nestedAround s + (if nestedKinds.contains s.kind then 1 else 0) = _
  split <;> rfl

/-- What is reached from a site is nested as deep as the site at least. -/
theorem nestedAround_le_of_mem_reachedFrom (h : t ∈ s.reachedFrom) :
    nestedAround s ≤ nestedAround t := by
  refine Site.forall_mem_reachedFrom (P :=
    fun t => nestedAround s ≤ nestedAround t) (Nat.le_refl _) ?_ t h
  intro t hle c hc
  rw [nestedAround_of_mem_children hc]
  split <;> omega

/-- The calls within a site are the site itself, if it is one that is not too deep, and those within
its children. -/
theorem callsWithin_eq_append (s : Site) : callsWithin s =
    (if s.kind = "call" && nestedAround s ≤ maxDepth then [s] else []) ++
      s.children.flatMap callsWithin := by
  rw [callsWithin, Site.reachedFrom_eq_cons, List.filter_cons, List.filter_flatMap]
  split <;> rfl

/-- With the right depth at the start, the calls that are looked at are those that are not nested
too deep. -/
theorem callsFrom_nestedAround (s : Site) : callsFrom (nestedAround s) s = callsWithin s := by
  induction s using Site.induction_size with
  | h s ih =>
      rw [callsFrom_eq_append]
      split
      next hdeep =>
        refine (List.filter_eq_nil_iff.2 fun t ht hcall => ?_).symm
        have hle := nestedAround_le_of_mem_reachedFrom ht
        simp only [Bool.and_eq_true, decide_eq_true_eq] at hcall
        omega
      next hdepth =>
        have hinner : s.children.flatMap (callsFrom
            (if nestedKinds.contains s.kind then nestedAround s + 1 else nestedAround s)) =
            s.children.flatMap callsWithin := by
          refine List.flatMap_congr fun c hc => ?_
          rw [← nestedAround_of_mem_children hc]
          exact ih c (Site.size_children_lt hc)
        have hle : nestedAround s ≤ maxDepth := Nat.not_lt.1 hdepth
        rw [hinner, callsWithin_eq_append]
        simp [hle]

/-- The calls of a file are those within its root. -/
theorem calls_eq_callsWithin (root : Node) : calls root = callsWithin (Site.root root) :=
  callsFrom_nestedAround (Site.root root)

/-- Which calls are looked at below a node depends on the node and its depth, not on what is around
it. -/
theorem map_node_callsFrom (depth : Nat) (hnode : s.node = t.node) :
    (callsFrom depth s).map (·.node) = (callsFrom depth t).map (·.node) := by
  induction s using Site.induction_size generalizing t depth with
  | h s ih =>
      have hkind : s.kind = t.kind := congrArg Node.kind hnode
      rw [callsFrom_eq_append, callsFrom_eq_append, hkind]
      split
      · rfl
      · have hown : (if t.kind = "call" then [s] else []).map (·.node) =
            (if t.kind = "call" then [t] else []).map (·.node) := by
          split
          · simp [hnode]
          · rfl
        rw [List.map_append, List.map_append, hown, List.map_flatMap, List.map_flatMap,
          Site.children, Site.children, ← hnode, List.flatMap_map, List.flatMap_map]
        congr 1
        refine List.flatMap_congr fun n hn => ?_
        exact ih (s.below n) (Node.size_namedChildren_lt hn) _ rfl

/-! ## The set of nodes that the walk is in -/

section Walk

variable {ι : Type} [DecidableEq ι] {idOf : List Nat → ι} {place : List Nat}
  {inspect : Site → Option Event}

/-- `siteAt? root place` is the site at `place`, which gives the number of the node among the
children of its parent, that of the parent among the children of its own, and so on. -/
def siteAt? (root : Node) : List Nat → Option Site
  | [] => some (Site.root root)
  | i :: place => (siteAt? root place).bind (·.children[i]?)

/-- Nodes at different places of a file are different. -/
def DistinctIds (root : Node) (idOf : List Nat → ι) : Prop :=
  ∀ p q, (siteAt? root p).isSome → (siteAt? root q).isSome → idOf p = idOf q → p = q

/-- `idsAround idOf place` lists the nodes around the node at `place`, the parent first. -/
def idsAround (idOf : List Nat → ι) : List Nat → List ι
  | [] => []
  | _ :: place => idOf place :: idsAround idOf place

/-- What a walk knows: the nodes that it is in, and the events found so far. -/
structure Walk (ι : Type) where
  inside : List ι
  found : List Event

/-- `visit idOf inspect depth place s w` walks on through the node at `s`, which lies in `depth`
nested parts, if it is not in that node already. -/
def visit (idOf : List Nat → ι) (inspect : Site → Option Event) (depth : Nat)
    (place : List Nat) (s : Site)
    (w : Walk ι) : Walk ι :=
  if depth > maxDepth || w.inside.contains (idOf place) then w
  else
    let entered : Walk ι :=
      ⟨w.inside.insert (idOf place), w.found ++ if s.kind = "call" then (inspect s).toList else []⟩
    let deeper := if nestedKinds.contains s.kind then depth + 1 else depth
    let left := s.children.attach.zipIdx.foldl (fun w (⟨child, _⟩, i) =>
      visit idOf inspect deeper (i :: place) child w) entered
    { left with inside := left.inside.erase (idOf place) }
termination_by s.node.size
decreasing_by exact Site.size_children_lt (by assumption)

/-- A visit goes through the children with the site on the way, and leaves the way as it was. -/
theorem visit_eq_foldl (depth : Nat) (place : List Nat) (s : Site) (w : Walk ι) :
    visit idOf inspect depth place s w =
      if depth > maxDepth || w.inside.contains (idOf place) then w
      else
        let left := s.children.zipIdx.foldl
          (fun w child => visit idOf inspect
            (if nestedKinds.contains s.kind then depth + 1 else depth) (child.2 :: place) child.1 w)
          ⟨w.inside.insert (idOf place),
            w.found ++ if s.kind = "call" then (inspect s).toList else []⟩
        { left with inside := left.inside.erase (idOf place) } := by
  have hchildren : s.children.zipIdx = s.children.attach.zipIdx.map (Prod.map Subtype.val id) := by
    rw [← List.zipIdx_map, List.attach_map_subtype_val]
  rw [visit, hchildren, List.foldl_map]
  rfl

omit [DecidableEq ι] in
/-- The nodes around a node are at shorter places, so they are other nodes. -/
theorem exists_of_mem_idsAround {found : ι} (hsite : (siteAt? root place).isSome)
    (h : found ∈ idsAround idOf place) :
    ∃ outer, (siteAt? root outer).isSome ∧ outer.length < place.length ∧ idOf outer = found := by
  induction place with
  | nil => cases h
  | cons i place ih =>
      have houter : (siteAt? root place).isSome := Option.isSome_of_isSome_bind hsite
      rcases List.mem_cons.1 h with rfl | h
      · exact ⟨place, houter, Nat.lt_succ_self _, rfl⟩
      · obtain ⟨outer, hsome, hlength, hfound⟩ := ih houter h
        exact ⟨outer, hsome, Nat.lt_succ_of_lt hlength, hfound⟩

omit [DecidableEq ι] in
/-- A site is not on the way to itself if the identities are distinct. -/
theorem not_mem_idsAround (hid : DistinctIds root idOf) (hsite : siteAt? root place = some s) :
    idOf place ∉ idsAround idOf place := by
  intro hmem
  have hsome : (siteAt? root place).isSome := by rw [hsite]; rfl
  obtain ⟨outer, houter, hlength, heq⟩ := exists_of_mem_idsAround hsome hmem
  obtain rfl := hid outer place houter hsome heq
  exact Nat.lt_irrefl _ hlength

omit [DecidableEq ι] in
/-- Steps that each add something to what is found, and keep the set, add all of it one after the
other. -/
theorem foldl_steps {step : Walk ι → Site × Nat → Walk ι} (gives : Site → List Event)
    {inside : List ι} {children : List (Site × Nat)}
    (h : ∀ w : Walk ι, w.inside = inside → ∀ child ∈ children,
      step w child = ⟨inside, w.found ++ gives child.1⟩)
    (w : Walk ι) (hw : w.inside = inside) :
    children.foldl step w = ⟨inside, w.found ++ children.flatMap fun child => gives child.1⟩ := by
  induction children generalizing w with
  | nil => rw [List.foldl_nil, List.flatMap_nil, List.append_nil, ← hw]
  | cons child rest ih =>
      rw [List.foldl_cons, h w hw child List.mem_cons_self,
        ih (fun w hw child hchild => h w hw child (List.mem_cons_of_mem _ hchild)) _ rfl,
        List.flatMap_cons, List.append_assoc]

/-- Numbering a list does not change what it is flattened to. -/
theorem flatMap_zipIdx {α β : Type} (f : α → List β) (l : List α) :
    (l.zipIdx.flatMap fun a => f a.1) = l.flatMap f := by
  conv_rhs => rw [← List.zipIdx_map_fst 0 l, List.flatMap_map]

/-- The walk through a node finds what the calls send that are looked at there, and leaves the set
of the nodes that it is in as it was. -/
theorem visit_eq (hid : DistinctIds root idOf) (inspect : Site → Option Event) (depth : Nat)
    (hsite : siteAt? root place = some s) (w : Walk ι) (hw : w.inside = idsAround idOf place) :
    visit idOf inspect depth place s w =
      ⟨w.inside, w.found ++ (callsFrom depth s).filterMap inspect⟩ := by
  induction s using Site.induction_size generalizing depth place w with
  | h s ih =>
      rw [visit_eq_foldl, callsFrom_eq_append]
      by_cases hdepth : depth > maxDepth
      · simp [hdepth]
      have hnew : idOf place ∉ w.inside := hw ▸ not_mem_idsAround hid hsite
      have hinsert : w.inside.insert (idOf place) = idOf place :: w.inside :=
        List.insert_of_not_mem hnew
      -- the children are visited with the node itself in the set
      have hchild : ∀ (deeper : Nat) (w' : Walk ι), w'.inside = idOf place :: w.inside →
          ∀ child ∈ s.children.zipIdx, visit idOf inspect deeper (child.2 :: place) child.1 w' =
            ⟨idOf place :: w.inside, w'.found ++ (callsFrom deeper child.1).filterMap inspect⟩ := by
        intro deeper w' hw' child hmem
        have hget : s.children[child.2]? = some child.1 := List.mem_zipIdx_iff_getElem?.1 hmem
        have hplace : siteAt? root (child.2 :: place) = some child.1 := by
          rw [siteAt?, hsite, Option.bind_some, hget]
        rw [ih child.1 (Site.size_children_lt (List.mem_of_getElem? hget)) deeper hplace w'
          (by rw [hw', hw, idsAround]), hw']
      have hguard : (decide (depth > maxDepth) || w.inside.contains (idOf place)) = false := by
        simp [hdepth, hnew]
      have hown : (if s.kind = "call" then [s] else []).filterMap inspect =
          if s.kind = "call" then (inspect s).toList else [] := by
        split
        · rw [List.filterMap_cons, List.filterMap_nil]
          cases inspect s <;> rfl
        · rfl
      rw [hguard, hinsert, if_neg Bool.false_ne_true, if_neg hdepth]
      generalize (if nestedKinds.contains s.kind then depth + 1 else depth) = deeper
      have hfold := foldl_steps (fun c => (callsFrom deeper c).filterMap inspect) (hchild deeper)
        ⟨idOf place :: w.inside, w.found ++ if s.kind = "call" then (inspect s).toList else []⟩ rfl
      dsimp only
      rw [hfold, flatMap_zipIdx fun c => (callsFrom deeper c).filterMap inspect,
        List.erase_cons_head,
        List.filterMap_append, List.filterMap_flatMap, hown, List.append_assoc]

/-- For nodes with numbers of their own, the walk inspects the calls that are reached and have no
more than `maxDepth` nested parts around them, in the order of the file; the set keeps no node back,
and each part of the file leaves it as it was. Where punctuation and comments hold nothing, no call
is left out but for its depth. What is looked at in a part of the file does not depend on what
stands beside it. The events of a file are those of these calls. -/
theorem calls_within_depth (root : Node) (hid : DistinctIds root idOf)
    (inspect : Site → Option Event) :
    (∀ place s, siteAt? root place = some s → ∀ w : Walk ι, w.inside = idsAround idOf place →
      idOf place ∉ w.inside ∧ visit idOf inspect (nestedAround s) place s w =
        ⟨w.inside, w.found ++ (callsWithin s).filterMap inspect⟩) ∧
    visit idOf inspect 0 [] (Site.root root) ⟨[], []⟩ =
      ⟨[], (callsWithin (Site.root root)).filterMap inspect⟩ ∧
    callsWithin (Site.root root) = (Site.root root).all.filter (fun t =>
      t.isReached && (t.kind = "call" && nestedAround t ≤ maxDepth)) ∧
    (root.MarksAreLeaves → callsWithin (Site.root root) = (Site.root root).all.filter (fun t =>
      t.node.isPart && (t.kind = "call" && nestedAround t ≤ maxDepth))) ∧
    (∀ s t, s.node = t.node → nestedAround s = nestedAround t →
      (callsWithin s).map (·.node) = (callsWithin t).map (·.node)) ∧
    ∀ index signatures path, events index signatures path root =
      (callsWithin (Site.root root)).filterMap
        (event? (Unit.ofTree index path root) signatures path) := by
  have hreached : callsWithin (Site.root root) = (Site.root root).all.filter (fun t =>
      t.isReached && (t.kind = "call" && nestedAround t ≤ maxDepth)) := by
    rw [callsWithin, Site.reachedFrom_root, List.filter_filter]
    simp only [Bool.and_comm]
  refine ⟨?_, ?_, hreached, ?_, ?_, ?_⟩
  · intro place s hsite w hw
    refine ⟨hw ▸ not_mem_idsAround hid hsite, ?_⟩
    rw [visit_eq hid inspect _ hsite w hw, callsFrom_nestedAround]
  · have hsite : siteAt? root [] = some (Site.root root) := rfl
    rw [visit_eq hid inspect 0 hsite ⟨[], []⟩ rfl, List.nil_append, ← callsFrom_nestedAround]
    rfl
  · intro hmarks
    rw [hreached]
    exact List.filter_congr fun t ht => by rw [Site.isReached_eq_isPart hmarks ht]
  · intro s t hnode hnested
    rw [← callsFrom_nestedAround, ← callsFrom_nestedAround, ← hnested]
    exact map_node_callsFrom (nestedAround s) hnode
  · intro index signatures path
    rw [← calls_eq_callsWithin]
    rfl

end Walk

/-! ## Two calls at the limit -/

/-- `partOf kind role text children` is a node that is no punctuation. -/
def partOf (kind : String) (role : Option String) (text : String) (children : List Node) : Node :=
  .mk ⟨kind, true, role, 0, 0, 0, text⟩ children

/-- `conditions depth n` is the node `n` in `depth` conditions, one in the other. -/
def conditions : Nat → Node → Node
  | 0, n => n
  | depth + 1, n => partOf "if" none "" [conditions depth n]

/-- `trackCall text` is a call of `track` with a string. -/
def trackCall (text : String) : Node :=
  partOf "call" none "" [partOf "identifier" (some "method") "track" [],
    partOf "argument_list" (some "arguments") "" [partOf "string" none text []]]

/-- A file with a call in as many conditions as are looked into, and with one in a condition
more. -/
def nestedCalls : Node :=
  partOf "program" none "" [conditions maxDepth (trackCall "'Signup'"),
    conditions (maxDepth + 1) (trackCall "'Purchase'")]

/-- With places for numbers, the walk finds the first of the two calls. -/
theorem calls_within_depth_of_nested :
    DistinctIds nestedCalls (fun place => place) ∧ nestedCalls.MarksAreLeaves ∧
      ((Site.root nestedCalls).all.filter fun t => t.kind = "call").length = 2 ∧
      callsWithin (Site.root nestedCalls) = (Site.root nestedCalls).all.filter (fun t =>
        t.node.isPart && (t.kind = "call" && nestedAround t ≤ maxDepth)) ∧
      ∃ found, visit (fun place => place)
          (event? (.ofTree none ⟨"a.rb"⟩ nestedCalls) [⟨"track", ["track"], 0, 1, []⟩] ⟨"a.rb"⟩)
          0 []
          (Site.root nestedCalls) ⟨[], []⟩ = ⟨[], found⟩ ∧
        found.map (·.name) = ["Signup"] := by
  have hid : DistinctIds nestedCalls (fun place => place) := fun _ _ _ _ h => h
  have hmarks : nestedCalls.MarksAreLeaves := by decide +kernel
  obtain ⟨-, hwalk, -, hwithin, -, hevents⟩ := calls_within_depth nestedCalls hid
    (event? (.ofTree none ⟨"a.rb"⟩ nestedCalls) [⟨"track", ["track"], 0, 1, []⟩] ⟨"a.rb"⟩)
  refine ⟨hid, hmarks, by decide +kernel, hwithin hmarks, _, hwalk, ?_⟩
  rw [← hevents]
  decide +kernel

end TrackingPlan.Ruby
