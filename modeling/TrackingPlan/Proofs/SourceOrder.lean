import Mathlib.Data.List.Basic
import Mathlib.Data.List.Flatten
import TrackingPlan.Analysis
import TrackingPlan.Proofs.Within

/-!
# The order of the calls of a file

The nodes of a tree are laid out in its text: a node holds its children, one behind the other, and
rows grow with offsets. `pairwise_precedes_all` says that `Site.all` then lists an outer node before
the nodes in it, and others in the order of the text. Every language looks at its calls in that
order, and at none twice, which `VisitsInOrder` says of a list of calls; `byLine_flatMap` is what
follows for the lines of events.
-/

namespace TrackingPlan

namespace Node

/-- The bytes of `n` hold those of its children, one child behind the other. -/
structure HoldsChildren (n : Node) : Prop where
  range : n.start ≤ n.stop
  nested : ∀ c ∈ n.children, n.contains c = true
  inOrder : n.children.Pairwise fun a b => a.stop ≤ b.start

/-- The nodes of a tree have nested, ordered ranges of bytes, and rows that grow with the
offsets. -/
structure LaidOut (root : Node) : Prop where
  holdsChildren : ∀ s ∈ (Site.root root).all, s.node.HoldsChildren
  rows : ∀ s ∈ (Site.root root).all, ∀ t ∈ (Site.root root).all,
    s.node.start ≤ t.node.start → s.node.line ≤ t.node.line

instance (n : Node) : Decidable n.HoldsChildren :=
  decidable_of_iff (n.start ≤ n.stop ∧ (∀ c ∈ n.children, n.contains c = true) ∧
      n.children.Pairwise fun a b => a.stop ≤ b.start)
    ⟨fun ⟨range, nested, inOrder⟩ => ⟨range, nested, inOrder⟩,
      fun h => ⟨h.range, h.nested, h.inOrder⟩⟩

instance (root : Node) : Decidable root.LaidOut :=
  decidable_of_iff ((∀ s ∈ (Site.root root).all, s.node.HoldsChildren) ∧
      ∀ s ∈ (Site.root root).all, ∀ t ∈ (Site.root root).all,
        s.node.start ≤ t.node.start → s.node.line ≤ t.node.line)
    ⟨fun ⟨holdsChildren, rows⟩ => ⟨holdsChildren, rows⟩, fun h => ⟨h.holdsChildren, h.rows⟩⟩

variable {root n c : Node}

/-- A node holds another that starts no earlier and ends no later. -/
theorem contains_iff : n.contains c = true ↔ n.start ≤ c.start ∧ c.stop ≤ n.stop := by
  simp [contains]

/-- A node that holds its children holds everything within them. -/
theorem contains_of_within (h : ∀ m, root.Within m → m.HoldsChildren) (hn : root.Within n) :
    root.start ≤ n.start ∧ n.stop ≤ root.stop := by
  induction hn with
  | root => exact ⟨Nat.le_refl _, Nat.le_refl _⟩
  | @child n c hn hc ih =>
      have hnested := contains_iff.1 ((h n hn).nested c hc)
      exact ⟨Nat.le_trans ih.1 hnested.1, Nat.le_trans hnested.2 ih.2⟩

/-- In a file that is laid out as a source every node holds its children. -/
theorem LaidOut.holdsChildren_of_within (h : root.LaidOut) (hn : root.Within n) :
    n.HoldsChildren := by
  obtain ⟨s, hs, rfl⟩ := Site.exists_mem_all hn
  exact h.holdsChildren s hs

end Node

namespace Site

/-- The node of `s` is around that of `t`, or ends before it starts. -/
def Precedes (s t : Site) : Prop := s.node.contains t.node = true ∨ s.node.stop ≤ t.node.start

variable {s t : Site}

/-- A tree lists each node before those in it, and before those behind it. -/
theorem pairwise_precedes (h : ∀ n, s.node.Within n → n.HoldsChildren) :
    s.all.Pairwise Precedes := by
  induction s using induction_size with
  | h s ih =>
      have hbelow {c : Node} (hc : c ∈ s.node.children) : ∀ n, c.Within n → n.HoldsChildren :=
        fun n hn => h n ((Node.Within.child .root hc).trans hn)
      -- what stands in a child has its bytes in those of the child
      have hinside {c : Node} (hc : c ∈ s.node.children) {t : Site} (ht : t ∈ (s.below c).all) :
          c.start ≤ t.node.start ∧ t.node.stop ≤ c.stop :=
        Node.contains_of_within (hbelow hc) (within_of_mem_all .root ht)
      rw [all_eq_cons]
      refine List.pairwise_cons.2 ⟨fun t ht =>
        .inl ?_, List.pairwise_flatMap.2 ⟨fun c hc => ?_, ?_⟩⟩
      · obtain ⟨c, hc, ht⟩ := List.mem_flatMap.1 ht
        have hwithin := within_of_mem_all (Node.Within.child .root hc) ht
        exact Node.contains_iff.2 (Node.contains_of_within h hwithin)
      · exact ih (s.below c) (Node.size_lt_of_mem hc) (hbelow hc)
      · refine (h _ .root).inOrder.imp_of_mem fun ha hb hab t ht u hu => .inr ?_
        exact Nat.le_trans (hinside ha ht).2 (Nat.le_trans hab (hinside hb hu).1)

/-- The sites of a tree stand in pre-order. -/
theorem pairwise_precedes_all {root : Node} (h : root.LaidOut) :
    (Site.root root).all.Pairwise Precedes :=
  pairwise_precedes fun _ hm => h.holdsChildren_of_within hm

/-- What precedes a node of a tree starts on no later line. -/
theorem Precedes.line_le {root : Node} (h : root.LaidOut) (hs : s ∈ (Site.root root).all)
    (ht : t ∈ (Site.root root).all) (hst : s.Precedes t) : s.node.line ≤ t.node.line := by
  refine h.rows s hs t ht ?_
  rcases hst with hcontains | hbehind
  · exact (Node.contains_iff.1 hcontains).1
  · exact Nat.le_trans (h.holdsChildren s hs).range hbehind

end Site

/-! ## Calls -/

/-- The calls `calls` of a tree are sites of the tree in pre-order, none of them listed twice; where
the tree is laid out in a text, outer calls come before those in them, and lines do not decrease. -/
structure VisitsInOrder (root : Node) (calls : List Site) : Prop where
  sublist : calls.Sublist (Site.root root).all
  precedes : root.LaidOut → calls.Pairwise Site.Precedes
  line_le : root.LaidOut → calls.Pairwise fun s t => s.node.line ≤ t.node.line

/-- The lines of the events do not decrease. -/
abbrev Event.ByLine (events : List Event) : Prop := events.Pairwise fun a b => a.line ≤ b.line

namespace VisitsInOrder

variable {root : Node} {calls : List Site}

/-- Sites of a tree that are taken in the order of all its sites are visited in order. -/
theorem of_sublist (h : calls.Sublist (Site.root root).all) : VisitsInOrder root calls where
  sublist := h
  precedes hroot := (Site.pairwise_precedes_all hroot).sublist h
  line_le hroot := by
    refine ((Site.pairwise_precedes_all hroot).imp_of_mem fun hs ht hst => ?_).sublist h
    exact Site.Precedes.line_le hroot hs ht hst

/-- Events with the lines of their calls have lines that do not decrease. -/
theorem byLine_flatMap (h : VisitsInOrder root calls) (hroot : root.LaidOut)
    {eventsOf : Site → List Event} (hline : ∀ call, ∀ e ∈ eventsOf call, e.line = call.node.line) :
    Event.ByLine (calls.flatMap eventsOf) := by
  refine List.pairwise_flatMap.2 ⟨fun call hcall =>
    ?_, (h.line_le hroot).imp fun hle a ha b hb => ?_⟩
  · -- the events of one call stand on one line
    refine List.pairwise_of_forall_mem_list fun a ha b hb => ?_
    exact Nat.le_of_eq ((hline call a ha).trans (hline call b hb).symm)
  · rw [hline _ a ha, hline _ b hb]
    exact hle

/-- That holds as well where a call has one event at most. -/
theorem byLine_filterMap (h : VisitsInOrder root calls) (hroot : root.LaidOut)
    {event? : Site → Option Event} (hline : ∀ call e, event? call = some e →
      e.line = call.node.line) :
    Event.ByLine (calls.filterMap event?) := by
  rw [List.filterMap_eq_flatMap_toList]
  exact h.byLine_flatMap hroot fun call e he => hline call e (Option.mem_toList.1 he)

end VisitsInOrder

/-- The calls of a script are visited in order. -/
theorem Script.visitsInOrder_calls (root : Node) : VisitsInOrder root (calls root) :=
  .of_sublist List.filter_sublist

/-- The calls of a Python file are visited in order. -/
theorem Python.visitsInOrder_calls (root : Node) : VisitsInOrder root (calls root) :=
  .of_sublist List.filter_sublist

/-- The calls of a Go file are visited in order. -/
theorem Go.visitsInOrder_calls (root : Node) : VisitsInOrder root (calls root) :=
  .of_sublist List.filter_sublist

/-- A walk through nested parts leaves sites out, but keeps the order of the others. -/
theorem Ruby.sublist_callsFrom (depth : Nat) (s : Site) : (callsFrom depth s).Sublist s.all := by
  induction depth, s using callsFrom.induct with
  | case1 depth s hdepth =>
      rw [callsFrom, if_pos hdepth]
      exact List.nil_sublist _
  | case2 depth s hdepth deeper ih =>
      have hchildren : (s.children.flatMap (callsFrom deeper)).Sublist
          (s.node.children.flatMap fun c => (s.below c).all) := by
        rw [Site.children, List.flatMap_map]
        have hall : (s.node.namedChildren.flatMap fun c => (s.below c).all).Sublist
            (s.node.children.flatMap fun c => (s.below c).all) := List.filter_sublist.flatMap _
        exact (List.Sublist.flatMap_right _ fun c hc =>
          ih (s.below c) (List.mem_map_of_mem hc)).trans hall
      rw [callsFrom, if_neg hdepth, Site.all_eq_cons]
      simp only [List.flatMap_subtype, List.unattach_attach]
      split
      · exact hchildren.cons_cons s
      · exact hchildren.cons s

/-- The calls of a Ruby file are visited in order. -/
theorem Ruby.visitsInOrder_calls (root : Node) : VisitsInOrder root (calls root) :=
  .of_sublist (sublist_callsFrom 0 (Site.root root))

/-! ## Events -/

section Events

variable {signatures : List Signature} {path : Path} {root : Node}

/-- The events of a script are in the order of their lines. -/
theorem Script.byLine_events {modules : Modules} {m : Module} (h : m.root.LaidOut) :
    Event.ByLine (events modules signatures m) := by
  refine (visitsInOrder_calls m.root).byLine_filterMap h fun call e he => ?_
  unfold event? at he
  split at he
  · cases he
  · obtain ⟨payload, -, rfl⟩ := Option.map_eq_some_iff.1 he
    rfl

/-- The events of a Python file are in the order of their lines. -/
theorem Python.byLine_events (h : root.LaidOut) : Event.ByLine (events signatures path root) := by
  refine (visitsInOrder_calls root).byLine_filterMap h fun call e he => ?_
  obtain ⟨payload, -, rfl⟩ := Option.map_eq_some_iff.1 he
  rfl

/-- The events of a Ruby file are in the order of their lines. -/
theorem Ruby.byLine_events {index : Option ConstantIndex} (h : root.LaidOut) :
    Event.ByLine (events index signatures path root) := by
  refine (visitsInOrder_calls root).byLine_filterMap h fun call e he => ?_
  obtain ⟨payload, -, rfl⟩ := Option.map_eq_some_iff.1 he
  rfl

/-- The events of a Go file are in the order of their lines. -/
theorem Go.byLine_events (h : root.LaidOut) : Event.ByLine (events signatures path root) := by
  refine (visitsInOrder_calls root).byLine_flatMap h fun call e he => ?_
  obtain ⟨payload, -, rfl⟩ := List.mem_map.1 he
  rfl

/-! The events of a file are said to be there. -/

/-- The events of a script are those of its file. -/
theorem Script.file_of_mem_events {modules : Modules} {m : Module} {e : Event}
    (he : e ∈ events modules signatures m) : e.file = m.path := by
  obtain ⟨call, -, hevent⟩ := List.mem_filterMap.1 he
  unfold event? at hevent
  split at hevent
  · cases hevent
  · obtain ⟨payload, -, rfl⟩ := Option.map_eq_some_iff.1 hevent
    rfl

/-- The events of a Python file are those of that file. -/
theorem Python.file_of_mem_events {e : Event} (he : e ∈ events signatures path root) :
    e.file = path := by
  obtain ⟨call, -, hevent⟩ := List.mem_filterMap.1 he
  obtain ⟨payload, -, rfl⟩ := Option.map_eq_some_iff.1 hevent
  rfl

/-- The events of a Ruby file are those of that file. -/
theorem Ruby.file_of_mem_events {index : Option ConstantIndex} {e : Event}
    (he : e ∈ events index signatures path root) : e.file = path := by
  obtain ⟨call, -, hevent⟩ := List.mem_filterMap.1 he
  obtain ⟨payload, -, rfl⟩ := Option.map_eq_some_iff.1 hevent
  rfl

/-- The events of a Go file are those of that file. -/
theorem Go.file_of_mem_events {e : Event} (he : e ∈ events signatures path root) :
    e.file = path := by
  obtain ⟨call, -, hevent⟩ := List.mem_flatMap.1 he
  obtain ⟨payload, -, rfl⟩ := List.mem_map.1 hevent
  rfl

end Events

end TrackingPlan
