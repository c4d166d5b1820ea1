import TrackingPlan.Proofs.SourceOrder

/-!
# The sites that a walk reaches

A walk through a file goes from a node to its named children that are no comments.
`Site.reachedFrom` lists the sites that it comes by, outer ones before inner ones. Seen from the
root they are the sites of the tree that have neither punctuation nor comments on the way to them,
in the order of `Site.all`: `reachedFrom_root`. Where punctuation and comments hold nothing, no
other node is left out (`isReached_eq_isPart`).
-/

namespace TrackingPlan

namespace Node

/-- `isPart n` holds of nodes that are neither punctuation nor comments. -/
def isPart (n : Node) : Bool := n.head.named && !n.isComment

/-- The root is a part of the program, and punctuation and comments hold no other nodes. -/
structure MarksAreLeaves (root : Node) : Prop where
  isPart : root.isPart = true
  leaves : ∀ s ∈ (Site.root root).all, s.node.isPart = false → s.node.children = []

instance (root : Node) : Decidable root.MarksAreLeaves :=
  decidable_of_iff (root.isPart = true ∧
      ∀ s ∈ (Site.root root).all, s.node.isPart = false → s.node.children.isEmpty = true)
    ⟨fun ⟨hroot, hleaves⟩ => ⟨hroot, fun s hs hpart => List.isEmpty_iff.1 (hleaves s hs hpart)⟩,
      fun h => ⟨h.isPart, fun s hs hpart => List.isEmpty_iff.2 (h.leaves s hs hpart)⟩⟩

end Node

namespace Site

variable {root : Node} {s t : Site}

/-- `lineage s` lists the node and those around it, up to the root. -/
def lineage (s : Site) : List Node := s.node :: s.ancestors

/-- `isReached s` holds when neither the node nor a node around it is punctuation or a comment,
apart from the root. -/
def isReached (s : Site) : Bool := s.lineage.dropLast.all Node.isPart

/-- `reachedFrom s` lists the sites that named children lead to from `s`, outer ones before inner
ones. -/
def reachedFrom (s : Site) : List Site :=
  s :: s.children.attach.flatMap fun ⟨child, _⟩ => reachedFrom child
termination_by s.node.size
decreasing_by exact size_children_lt (by assumption)

/-- From a site are reached the site itself and what is reached from its children. -/
theorem reachedFrom_eq_cons (s : Site) : s.reachedFrom = s :: s.children.flatMap reachedFrom := by
  rw [reachedFrom]
  simp only [List.flatMap_subtype, List.unattach_attach]

/-- A property that passes to named children holds of all that is reached. -/
theorem forall_mem_reachedFrom {P : Site → Prop} (hs : P s) (h : ∀ t, P t → ∀ c ∈ t.children, P c) :
    ∀ t ∈ s.reachedFrom, P t := by
  induction s using induction_size with
  | h s ih =>
      intro t ht
      rw [reachedFrom_eq_cons] at ht
      rcases List.mem_cons.1 ht with rfl | ht
      · exact hs
      · obtain ⟨c, hc, ht⟩ := List.mem_flatMap.1 ht
        exact ih c (size_children_lt hc) (h s hs c hc) t ht

/-! ## Seen from the root -/

/-- What stands below `s` has the nodes around it that `s` has. -/
theorem lineage_suffix_of_mem_all (h : t ∈ s.all) : s.lineage <:+ t.lineage := by
  have hinherited : Inherited fun t => s.lineage <:+ t.lineage := fun t c ht _ => by
    show s.lineage <:+ c :: t.lineage
    exact ht.trans (List.suffix_cons c t.lineage)
  exact hinherited.of_mem_all (List.suffix_refl _) h

/-- The line above a child starts with the child and goes on with that of the site. -/
theorem dropLast_lineage_below (s : Site) (c : Node) :
    (s.below c).lineage.dropLast = c :: s.lineage.dropLast := by
  simp [lineage, below]

/-- A child of a reached site is reached if it is a part. -/
theorem isReached_below (c : Node) (hs : s.isReached = true) :
    (s.below c).isReached = c.isPart := by
  have hlast : s.lineage.dropLast.all Node.isPart = true := hs
  rw [isReached, dropLast_lineage_below, List.all_cons, hlast, Bool.and_true]

/-- Nothing is reached in punctuation and comments. -/
theorem filter_isReached_eq_nil {c : Node} (hc : c.isPart = false) :
    (s.below c).all.filter isReached = [] := by
  rw [List.filter_eq_nil_iff]
  intro t ht hreached
  obtain ⟨before, hlineage⟩ := lineage_suffix_of_mem_all ht
  have hdrop : t.lineage.dropLast = before ++ c :: s.lineage.dropLast := by
    have hne : (s.below c).lineage ≠ [] := by simp [lineage]
    rw [← hlineage, List.dropLast_append_of_ne_nil hne, dropLast_lineage_below]
  have hpart : c.isPart = true := by
    rw [isReached, hdrop] at hreached
    exact List.all_eq_true.1 hreached c (by simp)
  simp [hc] at hpart

/-- Lists made from some of the elements, put together. -/
theorem flatMap_filter {α β : Type} (p : α → Bool) (f : α → List β) (l : List α) :
    (l.filter p).flatMap f = l.flatMap fun a => if p a then f a else [] := by
  induction l with
  | nil => rfl
  | cons a rest ih =>
      rw [List.filter_cons, List.flatMap_cons]
      split
      · rw [List.flatMap_cons, ih]
      · rw [ih, List.nil_append]

/-- From a site that is reached, a walk comes by all sites below it that are reached. -/
theorem filter_isReached_all (hs : s.isReached = true) :
    s.all.filter isReached = s.reachedFrom := by
  induction s using induction_size with
  | h s ih =>
      have hbelow : ∀ c ∈ s.node.children, (s.below c).all.filter isReached =
          if c.isPart then (s.below c).reachedFrom else [] := by
        intro c hc
        split
        next hpart =>
          exact ih (s.below c) (Node.size_lt_of_mem hc) ((isReached_below c hs).trans hpart)
        next hpart => exact filter_isReached_eq_nil (Bool.eq_false_iff.2 hpart)
      rw [all_eq_cons, reachedFrom_eq_cons, List.filter_cons_of_pos hs, List.filter_flatMap,
        List.flatMap_congr hbelow, children, List.flatMap_map]
      exact congrArg (s :: ·) (flatMap_filter Node.isPart _ _).symm

/-- The root is reached. -/
theorem isReached_root (root : Node) : (Site.root root).isReached = true := rfl

/-- A walk through a file comes by the sites that are reached, in the order of all sites. -/
theorem reachedFrom_root (root : Node) :
    (Site.root root).reachedFrom = (Site.root root).all.filter isReached :=
  (filter_isReached_all (isReached_root root)).symm

/-- Where punctuation and comments hold nothing, all other nodes are reached. -/
theorem isReached_eq_isPart (h : root.MarksAreLeaves) (hs : s ∈ (Site.root root).all) :
    s.isReached = s.node.isPart := by
  have hinherited : Inherited fun s => s ∈ (Site.root root).all ∧ s.isReached = s.node.isPart := by
    rintro s c ⟨hs, hreached⟩ hc
    refine ⟨inherited_mem_all root s c hs hc, ?_⟩
    cases hparent : s.node.isPart with
    | true => exact isReached_below c (hreached.trans hparent)
    | false =>
        rw [h.leaves s hs hparent] at hc
        cases hc
  have hroot : (Site.root root).isReached = root.isPart := (isReached_root root).trans h.isPart.symm
  exact (hinherited.of_mem_all ⟨self_mem_all (Site.root root), hroot⟩ hs).2

end Site

end TrackingPlan
