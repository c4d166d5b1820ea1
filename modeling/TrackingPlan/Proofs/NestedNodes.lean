import TrackingPlan.Proofs.SourceOrder

/-!
# Nested nodes

Where nodes are laid out as in a text, two of them are nested or apart: `nested_or_apart`. Of
several nodes around a place, the narrowest one is therefore inside the others, as
`contains_of_width_le` says, and the scopes around a place can be told apart by their widths.
-/

namespace TrackingPlan

namespace Site

variable {root : Node} {s t : Site}

/-- Nodes of a source are nested or apart. -/
theorem nested_or_apart (h : root.LaidOut) (hs : s ∈ (Site.root root).all)
    (ht : t ∈ (Site.root root).all) :
    s.node.contains t.node = true ∨ t.node.contains s.node = true ∨ s.node.stop ≤ t.node.start ∨
      t.node.stop ≤ s.node.start := by
  have hself (u : Site) : u.node.contains u.node = true :=
    Node.contains_iff.2 ⟨Nat.le_refl _, Nat.le_refl _⟩
  have hboth : s.Precedes t ∨ t.Precedes s := by
    refine List.Pairwise.forall_of_forall_of_flip (R := fun s t => s.Precedes t ∨ t.Precedes s)
      (fun u _ => .inl (.inl (hself u))) ((pairwise_precedes_all h).imp .inl) ?_ hs ht
    exact (pairwise_precedes_all h).imp .inr
  rcases hboth with (hcontains | hbefore) | hcontains | hbefore
  · exact .inl hcontains
  · exact .inr (.inr (.inl hbefore))
  · exact .inr (.inl hcontains)
  · exact .inr (.inr (.inr hbefore))

/-- Of two nodes around a third one that has bytes, the wider one is around the other. -/
theorem contains_of_width_le (h : root.LaidOut) {use : Site} (hs : s ∈ (Site.root root).all)
    (ht : t ∈ (Site.root root).all) (huse : use.node.start < use.node.stop)
    (hsuse : s.node.contains use.node = true) (htuse : t.node.contains use.node = true)
    (hwidth : s.node.width ≤ t.node.width) : t.node.contains s.node = true := by
  have hsrange := (h.holdsChildren s hs).range
  have htrange := (h.holdsChildren t ht).range
  have hnested := nested_or_apart h hs ht
  simp only [Node.contains_iff, Node.width] at *
  omega

end Site

end TrackingPlan
