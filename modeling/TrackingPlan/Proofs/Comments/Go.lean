import TrackingPlan.Proofs.Comments.Tree
import TrackingPlan.Proofs.Likeness.Go

/-!
# Comments in Go files

Every function that reads a Go file gives the same on a file with more comments in it:
`content_events` says so of its events. Only behind a parenthesis, behind the star of a pointer type
and in an element of a literal a comment must not come first.
-/

namespace TrackingPlan.Go

open Node (Insertion)

/-- What the reading of Go files relies on. -/
def reading : Node.Reading where
  top := "source_file"
  scopes := ["function_declaration", "method_declaration", "var_spec", "const_spec"]
  firsts := ["literal_element", "parenthesized_expression", "pointer_type", "parenthesized_type"]

variable {root root' n n' : Node} {R : Node → Node → Prop} {s s' : Site}

/-! ## Declarations -/

/-- Related bindings: nodes in their places are related, and they start where related nodes do. -/
structure Binding.Twin (root : Node) (R : Node → Node → Prop) (b b' : Binding) : Prop where
  type : Option.Rel R b.type b'.type
  value : Option.Rel R b.value b'.value
  start : ∃ n n', R n n' ∧ n ≠ root ∧ b.start = n.start ∧ b'.start = n'.start

/-- Related bindings of the same names. -/
abbrev Bindings.Twin (root : Node) (R : Node → Node → Prop)
    (bindings bindings' : Bindings) : Prop :=
  List.Forall₂ (Keyed (Binding.Twin root R)) bindings bindings'

/-- Related declarations of the same name. -/
structure Declaration.Twin (root : Node) (R : Node → Node → Prop) (d d' : Declaration) : Prop where
  function : d.function = d'.function
  body : R d.body d'.body
  isScope : d.body.kind ∈ reading.scopes
  locals : Bindings.Twin root R d.locals d'.locals

/-- Related files: related declarations, in the same order. -/
structure Unit.Twin (root : Node) (R : Node → Node → Prop) (u u' : Unit) : Prop where
  declarations : List.Forall₂ (Declaration.Twin root R) u.declarations u'.declarations
  package : Bindings.Twin root R u.package u'.package

/-- A name and perhaps its value, both related. -/
structure PairTwin (R : Node → Node → Prop) (p p' : Node × Option Node) : Prop where
  name : R p.1 p'.1
  value : Option.Rel R p.2 p'.2

/-- The pairs of names and values have twins. -/
theorem rel_pairUp {names names' values values' : List Node} (hnames : List.Forall₂ R names names')
    (hvalues : List.Forall₂ R values values') :
    List.Forall₂ (PairTwin R) (pairUp names values) (pairUp names' values') := by
  induction hnames generalizing values values' with
  | nil => exact .nil
  | cons hn _ ih =>
      cases hvalues with
      | nil => exact .cons ⟨hn, .none⟩ (ih .nil)
      | cons hv hvs => exact .cons ⟨hn, .some hv⟩ (ih hvs)

section Declarations

variable (h : Insertion reading root root' R)
include h

/-- A file with more comments in it is read alike, but for its places. -/
theorem likeness_of_insertion : Likeness R :=
  ⟨h.kind, h.text, h.child?, h.namedChildren, h.first⟩

/-- The names that a node declares have twins. -/
theorem rel_declaredNames (hn : R n n') : List.Forall₂ R (declaredNames n) (declaredNames n') := by
  refine (h.children hn).filter (fun c c' hc => ?_) fun c hc => ?_
  · rw [h.role hc]
  · rw [hc.role]
    rfl

/-- The bindings of a specification have twins. -/
theorem rel_specBindings (hn : R n n') (hne : n ≠ root) :
    Bindings.Twin root R (specBindings n) (specBindings n') := by
  refine List.rel_map (fun p p' hp => ?_)
    (rel_pairUp (rel_declaredNames h hn) (rel_childrenIn (likeness_of_insertion h) hn "value"))
  exact ⟨h.text hp.name, h.child? hn "type", hp.value, n, n', hn, hne, rfl, rfl⟩

/-- The bindings of a short declaration have twins. -/
theorem rel_shortBindings (hn : R n n') (hne : n ≠ root) :
    Bindings.Twin root R (shortBindings n) (shortBindings n') := by
  have hpairs := rel_pairUp (rel_childrenIn (likeness_of_insertion h) hn "left")
    (rel_childrenIn (likeness_of_insertion h) hn "right")
  refine List.rel_map (fun p p' hp => ?_) (hpairs.filter fun p p' hp =>
    h.isKind hp.name "identifier")
  exact ⟨h.text hp.name, .none, hp.value, n, n', hn, hne, rfl, rfl⟩

omit h in
/-- A child in a list that is found by its role is smaller than the node. -/
theorem size_childrenIn_lt {child : Node} {role : String} (hchild : child ∈ childrenIn n role) :
    child.size < n.size := by
  unfold childrenIn at hchild
  split at hchild
  · cases hchild
  next list hlist =>
    exact Nat.lt_trans (Node.size_namedChildren_lt hchild) (Node.size_child?_lt hlist)

/-- The bindings of parameters have twins. -/
theorem rel_parameterBindings (hn : R n n') (hsize : n.size < root.size) (role : String) :
    Bindings.Twin root R (parameterBindings n role) (parameterBindings n' role) := by
  refine List.rel_flatMap (rel_childrenIn (likeness_of_insertion h) hn role).attach
    fun parameter parameter' hparameter => ?_
  obtain ⟨hmem, hr⟩ := hparameter
  have hne : parameter ≠ root :=
    Insertion.ne_root_of_size_lt (Nat.lt_trans (size_childrenIn_lt hmem) hsize)
  refine List.rel_map (fun name name' hname => ?_) (rel_declaredNames h hr)
  exact ⟨h.text hname, h.child? hr "type", .none, parameter, parameter', hr, hne, rfl, rfl⟩

/-- A node is a specification if its twin is one. -/
theorem isSpec_eq (hn : R n n') : isSpec n = isSpec n' := by
  rw [isSpec, isSpec, h.kind hn]

/-- A specification is not the root. -/
theorem ne_root_of_isSpec (hspec : isSpec n = true) : n ≠ root := by
  refine h.ne_root fun hkind => ?_
  rw [isSpec, hkind] at hspec
  revert hspec
  decide

/-- The local bindings of a node have twins. -/
theorem rel_localBindings (hn : R n n') :
    Bindings.Twin root R (localBindings n) (localBindings n') := by
  unfold localBindings
  rw [← isSpec_eq h hn, ← h.kind hn]
  split
  next hspec => exact rel_specBindings h hn (ne_root_of_isSpec h hspec)
  next =>
    split
    next hkind => exact rel_shortBindings h hn (h.ne_root (by rw [hkind]; decide))
    next => exact .nil

/-- The bindings of a function have twins. -/
theorem rel_functionBindings (hn : R n n') (hsize : n.size < root.size) :
    Bindings.Twin root R (functionBindings n) (functionBindings n') := by
  unfold functionBindings
  refine List.rel_append (List.rel_append (rel_parameterBindings h hn hsize "receiver")
    (rel_parameterBindings h hn hsize "parameters")) ?_
  refine (h.child? hn "body").elim .nil fun body body' hbody => ?_
  have hroots : (Site.root body).Twin R (Site.root body') := ⟨hbody, .nil⟩
  refine (h.interleaved_all hroots).flatMap (fun s s' hs => rel_localBindings h hs.node)
    fun s hs => ?_
  simp [localBindings, isSpec, hs.kind]

omit h in
/-- The specifications in a node are the node itself, if it is one, or else those in its
children. -/
theorem specsIn_eq_flatMap (n : Node) : specsIn n =
    if isSpec n then [n] else n.namedChildren.reverse.flatMap specsIn := by
  rw [specsIn]
  simp only [List.flatMap_subtype, List.unattach_attach]

/-- Related declarations of variables and constants, in the same order. -/
theorem rel_specsIn (hn : R n n') :
    List.Forall₂ (fun spec spec' => R spec spec' ∧ isSpec spec = true) (specsIn n)
      (specsIn n') := by
  induction n using Node.induction_size generalizing n' with
  | h n ih =>
      rw [specsIn_eq_flatMap, specsIn_eq_flatMap, ← isSpec_eq h hn]
      split
      next hspec => exact .cons ⟨hn, hspec⟩ .nil
      next =>
        refine List.rel_flatMap (List.rel_reverse (h.namedChildren hn).attach) ?_
        rintro c c' ⟨hmem, hc⟩
        exact ih c (Node.size_namedChildren_lt hmem) hc

/-- The functions that a node declares have twins. -/
theorem rel_declarationsAt (hn : R n n') (hsize : n.size < root.size) :
    List.Forall₂ (Declaration.Twin root R) (Unit.declarationsAt n) (Unit.declarationsAt n') := by
  have hfunction (hkind : n.kind ∈ reading.scopes) : List.Forall₂ (Declaration.Twin root R)
      [⟨some ((n.childText? "name").getD "global"), n, functionBindings n⟩]
      [⟨some ((n'.childText? "name").getD "global"), n', functionBindings n'⟩] := by
    rw [h.childText? hn]
    exact .cons ⟨rfl, hn, hkind, rel_functionBindings h hn hsize⟩ .nil
  have hspecs : List.Forall₂ (Declaration.Twin root R) ((specsIn n).map (⟨none, ·, []⟩))
      ((specsIn n').map (⟨none, ·, []⟩)) := by
    refine List.rel_map (fun spec spec' hspec => ?_) (rel_specsIn h hn)
    refine ⟨rfl, hspec.1, ?_, .nil⟩
    have hkind := hspec.2
    simp only [isSpec, Bool.or_eq_true, decide_eq_true_eq] at hkind
    rcases hkind with hkind | hkind <;> rw [hkind] <;> decide
  unfold Unit.declarationsAt
  rw [← h.kind hn]
  split
  next hkind => exact hfunction (by rw [hkind]; decide)
  next hkind => exact hfunction (by rw [hkind]; decide)
  next => exact hspecs
  next => exact hspecs
  next => exact .nil

/-- The bindings that a node gives the package have twins. -/
theorem rel_packageAt (hn : R n n') :
    Bindings.Twin root R (Unit.packageAt n) (Unit.packageAt n') := by
  unfold Unit.packageAt
  rw [h.kind hn]
  split
  · exact List.rel_flatMap (rel_specsIn h hn) fun spec spec' hspec =>
      rel_specBindings h hspec.1 (ne_root_of_isSpec h hspec.2)
  · exact .nil

/-- A file and its commented twin declare the same. -/
theorem twin_ofTree : (Unit.ofTree root).Twin root R (Unit.ofTree root') where
  declarations := List.rel_flatMap (h.namedChildren h.rooted).attach fun _ _ ⟨hmem, hc⟩ =>
    rel_declarationsAt h hc (Node.size_namedChildren_lt hmem)
  package := List.rel_flatMap (h.namedChildren h.rooted) fun _ _ hc => rel_packageAt h hc

variable {u u' : Unit} (hu : u.Twin root R u')
include hu

/-- The function around a node has a twin. -/
theorem rel_owner? (hn : R n n') :
    Option.Rel (Declaration.Twin root R) (u.owner? n) (u'.owner? n') :=
  hu.declarations.find? fun _ _ hd => h.contains hd.body hn hd.isScope

omit hu in
/-- The latest binding of a name before a node has a twin. -/
theorem rel_latest? {bindings bindings' : Bindings}
    (hbindings : Bindings.Twin root R bindings bindings')
    (hn : R n n') (hne : n ≠ root) (name : String) : Option.Rel (Binding.Twin root R)
      (Unit.latest? bindings name n) (Unit.latest? bindings' name n') := by
  unfold Unit.latest?
  refine List.rel_foldl (P := Option.Rel _) ?_ .none hbindings
  rintro best best' hbest ⟨key, b⟩ ⟨key', b'⟩ ⟨rfl, hb⟩
  obtain ⟨m, m', hm, hmne, hstart, hstart'⟩ := hb.start
  have hbefore : b.start ≤ n.start ↔ b'.start ≤ n'.start := by
    rw [hstart, hstart']
    exact h.starts hm hn hmne hne
  dsimp only
  simp only [hbefore]
  split
  · refine hbest.elim (.some hb) fun held held' hheld => ?_
    obtain ⟨k, k', hk, hkne, hheldStart, hheldStart'⟩ := hheld.start
    have hlater : held.start ≤ b.start ↔ held'.start ≤ b'.start := by
      rw [hheldStart, hheldStart', hstart, hstart']
      exact h.starts hk hm hkne hmne
    dsimp only
    simp only [hlater]
    split
    · exact .some hb
    · exact .some hheld
  · exact hbest

/-- What a name stands for at a place is declared by the same binding. -/
theorem rel_lookup? (hn : R n n') (hne : n ≠ root) (name : String) :
    Option.Rel (Binding.Twin root R) (u.lookup? name n) (u'.lookup? name n') := by
  unfold Unit.lookup?
  refine Option.Rel.or ?_ (rel_lookup hu.package name)
  refine (rel_owner? h hu hn).elim .none fun d d' hd => ?_
  dsimp only
  rw [hd.function]
  split
  · exact rel_latest? h hd.locals hn hne name
  · exact .none

/-- Names stand for the same in a file with more comments in it. -/
theorem like_of_twin : u.Like R u' where
  lookup? hn hkind name := by
    have hne := h.ne_root (r := reading) (by rw [hkind]; decide)
    refine (rel_lookup? h hu hn hne name).imp fun b b' hb => ⟨?_, hb.value⟩
    exact hb.type.imp fun _ _ ht => typeSchema_eq (likeness_of_insertion h) ht

/-- A call has the same context in both files. -/
theorem context_eq (hn : R n n') : context u n = context u' n' := by
  unfold context
  refine (rel_owner? h hu hn).elim rfl fun d d' hd => ?_
  dsimp only
  rw [hd.function]

end Declarations

/-- More comments in a Go file, but for the places in front of what is read first, leave what its
calls send as it was. -/
theorem content_events (h : Node.Commented reading root root') (signatures : List Signature)
    (path : Path) : (events signatures path root).map Event.content =
      (events signatures path root').map Event.content := by
  obtain ⟨R, h⟩ := h
  have hcalls : List.Forall₂ (Site.Twin R) (calls root) (calls root') :=
    h.sitesOfKind h.twin_root (by decide)
  have hlike := likeness_of_insertion h
  have hunits := like_of_twin h (twin_ofTree h)
  have hevents (s s' : Site) (hs : s.Twin R s') :
      (eventsOf (Unit.ofTree root) signatures path s).map Event.content =
        (eventsOf (Unit.ofTree root') signatures path s').map Event.content := by
    rw [eventsOf, eventsOf, payloads_eq hlike hunits hs.node, context_eq h (twin_ofTree h) hs.node,
      List.map_map, List.map_map]
    rfl
  rw [events, events, List.map_flatMap, List.map_flatMap]
  exact hcalls.flatMap_eq hevents

end TrackingPlan.Go
