import TrackingPlan.Event
import TrackingPlan.Proofs.Related
import TrackingPlan.Proofs.Within

/-!
# Trees with further comments

`Node.Insertion` relates the nodes of a tree to those of the same tree with more comments in it. Its
lemmas say what the accessors of nodes find on the two sides: the same texts, and nodes that are
related again. The order of the places is kept as far as a reading can ask for it, and
`interleaved_all` says that the sites of the two trees are the same but for those of the new
comments.
-/

namespace TrackingPlan

/-- `content e` is what `e` says apart from the place of its call. -/
def Event.content (e : Event) : String × Provider × Properties × String :=
  (e.name, e.provider, e.properties, e.function)

namespace Node

/-- Comments as they are put into a tree: they have no role and nothing in them. -/
structure IsInserted (n : Node) : Prop where
  kind : n.kind = "comment"
  role : n.head.role = none
  children : n.children = []

/-- What a reading of trees relies on. -/
structure Reading where
  /-- The kind of whole files. -/
  top : String
  /-- The kinds of nodes that are asked for the nodes in them by their places. -/
  scopes : List String
  /-- The kinds of nodes whose first named child is read, comment or not. -/
  firsts : List String

/-- The nodes of a file and those of the file with more comments in it: related nodes agree in all
but their places, and the new file has nothing but comments that the old one has not. -/
structure Insertion (r : Reading) (root root' : Node) (R : Node → Node → Prop) : Prop where
  rooted : R root root'
  top : root.kind = r.top
  kind : ∀ {n n'}, R n n' → n.kind = n'.kind
  named : ∀ {n n'}, R n n' → n.head.named = n'.head.named
  role : ∀ {n n'}, R n n' → n.head.role = n'.head.role
  text : ∀ {n n'}, R n n' → n.text = n'.text
  children : ∀ {n n'}, R n n' → Interleaved R IsInserted n.children n'.children
  /-- No new comment comes first where the first named child is read. -/
  first : ∀ {n n'}, R n n' → n.kind ∈ r.firsts → Option.Rel R n.firstNamed? n'.firstNamed?
  /-- A file starts no later than what is in it. -/
  opens : ∀ {n n'}, R n n' → root.start ≤ n.start ∧ root'.start ≤ n'.start
  /-- Nodes start in the same order as before; comments before all other nodes belong to the
  file. -/
  starts : ∀ {a a' b b'}, R a a' → R b b' → a ≠ root → b ≠ root →
    (a.start ≤ b.start ↔ a'.start ≤ b'.start)
  /-- Scopes have the same nodes in them. -/
  contains : ∀ {a a' b b'}, R a a' → R b b' → a.kind ∈ r.scopes → a.contains b = a'.contains b'
  /-- Of scopes around a node, the same ones are narrower. -/
  narrower : ∀ {a a' b b' p p'}, R a a' → R b b' → R p p' → a.kind ∈ r.scopes → b.kind ∈ r.scopes →
    a.contains p = true → b.contains p = true → (a.width < b.width ↔ a'.width < b'.width)

/-- The second tree is the first one with more comments in it. -/
def Commented (r : Reading) (root root' : Node) : Prop := ∃ R, Insertion r root root' R

/-- What is inserted is a comment. -/
theorem IsInserted.isComment {n : Node} (h : n.IsInserted) : n.isComment = true :=
  decide_eq_true h.kind

namespace Insertion

variable {r : Reading} {root root' n n' a a' b b' : Node} {R : Node → Node → Prop}

/-! ## Nodes -/

/-- A node of another kind than the root is not the root. -/
theorem ne_root (h : Insertion r root root' R) (hkind : n.kind ≠ r.top) : n ≠ root := by
  rintro rfl
  exact hkind h.top

/-- A node that is smaller than the root is not the root. -/
theorem ne_root_of_size_lt (hsize : n.size < root.size) : n ≠ root := by
  rintro rfl
  exact Nat.lt_irrefl _ hsize

/-- A node is a comment if its twin is one. -/
theorem isComment (h : Insertion r root root' R) (hn : R n n') : n.isComment = n'.isComment := by
  rw [Node.isComment, Node.isComment, h.kind hn]

/-- The named children have twins, since comments are left out of both. -/
theorem namedChildren (h : Insertion r root root' R) (hn : R n n') :
    List.Forall₂ R n.namedChildren n'.namedChildren := by
  refine (h.children hn).filter (fun c c' hc => ?_) fun c hc => ?_
  · rw [h.named hc, h.isComment hc]
  · rw [hc.isComment, Bool.not_true, Bool.and_false]

/-- The child in a role has a twin. -/
theorem child? (h : Insertion r root root' R) (hn : R n n') (role : String) :
    Option.Rel R (n.child? role) (n'.child? role) := by
  refine (h.children hn).find? (fun c c' hc => ?_) fun c hc => ?_
  · rw [h.role hc]
  · rw [hc.role]
    rfl

/-- The children in a role, which are smaller than their parents. -/
theorem smallerChild? (h : Insertion r root root' R) (hn : R n n') (role : String) :
    Option.Rel (fun c c' => c.size < n.size ∧ R c c') (n.child? role) (n'.child? role) :=
  (h.child? hn role).attach.imp fun _ _ ⟨hmem, hc⟩ => ⟨Node.size_child?_lt hmem, hc⟩

/-- The child in a role has the same text in both trees. -/
theorem childText? (h : Insertion r root root' R) (hn : R n n') (role : String) :
    n.childText? role = n'.childText? role :=
  (h.child? hn role).map_eq fun _ _ => h.text

/-- A node is of a kind if its twin is. -/
theorem isKind (h : Insertion r root root' R) (hn : R n n') (kind : String) :
    (decide (n.kind = kind)) = decide (n'.kind = kind) := by
  rw [h.kind hn]

/-- Below the root, one node starts before another if their twins do. -/
theorem lt_iff (h : Insertion r root root' R) (ha : R a a') (hb : R b b') (hne : a ≠ root)
    (hne' : b ≠ root) : a.start < b.start ↔ a'.start < b'.start := by
  have hle := h.starts hb ha hne' hne
  omega

end Insertion

end Node

/-! ## Sites -/

namespace Site

/-- Related nodes with related nodes around them. -/
structure Twin (R : Node → Node → Prop) (s s' : Site) : Prop where
  node : R s.node s'.node
  ancestors : List.Forall₂ R s.ancestors s'.ancestors

end Site

namespace Node.Insertion

variable {r : Reading} {root root' n n' : Node} {R : Node → Node → Prop} {s s' : Site}

/-- A site has the same kind in both trees. -/
theorem kindAt (h : Insertion r root root' R) (hs : s.Twin R s') : s.kind = s'.kind :=
  h.kind hs.node

/-- A site has the same text in both trees. -/
theorem textAt (h : Insertion r root root' R) (hs : s.Twin R s') : s.text = s'.text :=
  h.text hs.node

/-- A site is of a kind if its twin is. -/
theorem isKindAt (h : Insertion r root root' R) (hs : s.Twin R s') (kind : String) :
    (decide (s.kind = kind)) = decide (s'.kind = kind) := by
  rw [h.kindAt hs]

/-- The sites of two children that are twins are twins. -/
theorem below (hs : s.Twin R s') (hn : R n n') : (s.below n).Twin R (s'.below n') :=
  ⟨hn, .cons hs.node hs.ancestors⟩

/-- The children of a site have twins. -/
theorem childrenAt (h : Insertion r root root' R) (hs : s.Twin R s') :
    List.Forall₂ (Site.Twin R) s.children s'.children :=
  List.rel_map (fun _ _ hn => below hs hn) (h.namedChildren hs.node)

/-- The child of a site in a role has a twin. -/
theorem childAt? (h : Insertion r root root' R) (hs : s.Twin R s') (role : String) :
    Option.Rel (Site.Twin R) (s.child? role) (s'.child? role) :=
  (h.child? hs.node role).map fun _ _ => below hs

/-- The child of a site in a role has the same text in both trees. -/
theorem childTextAt? (h : Insertion r root root' R) (hs : s.Twin R s') (role : String) :
    s.childText? role = s'.childText? role :=
  h.childText? hs.node role

/-- The first child has a twin where no comment is put in front of it. -/
theorem firstAt? (h : Insertion r root root' R) (hs : s.Twin R s') (hkind : s.kind ∈ r.firsts) :
    Option.Rel (Site.Twin R) s.first? s'.first? :=
  (h.first hs.node hkind).map fun _ _ => below hs

/-- The child of a site in a role is smaller, and has a twin. -/
theorem smallerChildAt? (h : Insertion r root root' R) (hs : s.Twin R s') (role : String) :
    Option.Rel (fun c c' => c.node.size < s.node.size ∧ c.Twin R c') (s.child? role)
      (s'.child? role) :=
  (h.childAt? hs role).attach.imp fun _ _ ⟨hmem, hc⟩ => ⟨Site.size_child?_lt hmem, hc⟩

/-- The first child of a site is smaller, and has a twin where no comment is put in front of it. -/
theorem smallerFirstAt? (h : Insertion r root root' R) (hs : s.Twin R s')
    (hkind : s.kind ∈ r.firsts) :
    Option.Rel (fun c c' => c.node.size < s.node.size ∧ c.Twin R c') s.first? s'.first? :=
  (h.firstAt? hs hkind).attach.imp fun _ _ ⟨hmem, hc⟩ => ⟨Site.size_first?_lt hmem, hc⟩

/-- In the new tree there are the sites of the old one, and those of the new comments. -/
theorem interleaved_all (h : Insertion r root root' R) (hs : s.Twin R s') :
    Interleaved (Site.Twin R) (fun s => s.node.IsInserted) s.all s'.all := by
  induction s using Site.induction_size generalizing s' with
  | h s ih =>
      rw [Site.all_eq_cons, Site.all_eq_cons]
      refine .keep hs ((h.children hs.node).flatMap_interleaved (fun c hc c' hcc => ?_)
        fun comment hcomment => ?_)
      · exact ih (s.below c) (Node.size_lt_of_mem hc) (below hs hcc)
      · -- a comment has no other site in it than its own
        rw [Site.all_eq_cons, Site.below, hcomment.children]
        exact .insert hcomment .nil

/-- The roots are twins. -/
theorem twin_root (h : Insertion r root root' R) : (Site.root root).Twin R (Site.root root') :=
  ⟨h.rooted, .nil⟩

/-- The sites of one kind are the same in both trees, if it is not that of comments. -/
theorem sitesOfKind (h : Insertion r root root' R) (hs : s.Twin R s') {kind : String}
    (hkind : kind ≠ "comment") :
    List.Forall₂ (Site.Twin R) (s.all.filter (·.kind = kind)) (s'.all.filter (·.kind = kind)) := by
  refine (h.interleaved_all hs).filter (fun t t' ht => h.isKindAt ht kind) fun t ht => ?_
  have hcomment : t.kind = "comment" := ht.kind
  rw [hcomment]
  exact decide_eq_false hkind.symm

end Node.Insertion

end TrackingPlan
