import TrackingPlan.Text.Unquote
import TrackingPlan.Tree

/-!
# Nodes within a tree

`root.Within n` says that the node `n` occurs in the tree `root`. Steps from a node to its children
stay within the tree, and `within_of_mem_all` and `exists_mem_all` say that `Site.all` lists the
sites of just these nodes. `root.Spells` says which texts the literals of a tree stand for.
`Node.induction_size` and `Site.induction_size` are the inductions for what is read off smaller
nodes, and `Site.Inherited.of_mem_all` is the one for what passes from a site to all those below it.
-/

namespace TrackingPlan

namespace Text

/-- What stands between two marks is a part of the whole. -/
theorem between?_infix {mark : Char} {cs inside : List Char} (h : between? mark cs = some inside) :
    inside <:+: cs := by
  unfold between? at h
  split at h
  next first rest =>
    split at h
    · cases h
      exact (List.dropLast_prefix rest).isInfix.trans (List.suffix_cons first rest).isInfix
    · cases h
  · cases h

/-- A text without its quotes is a part of the text. -/
theorem unquote_infix (text : String) : (unquote text).toList <:+: text.toList := by
  unfold unquote
  dsimp only
  split
  next inside h =>
    rw [String.toList_ofList]
    rcases Option.or_eq_some_iff.1 h with h | ⟨-, h⟩
    · rcases Option.or_eq_some_iff.1 h with h | ⟨-, h⟩
      · exact between?_infix h
      · exact between?_infix h
    · exact between?_infix h
  · exact List.infix_rfl

end Text

namespace Node

/-- What holds of a node if it holds of all smaller ones holds of every node. -/
theorem induction_size {P : Node → Prop} (h : ∀ n, (∀ c, c.size < n.size → P c) → P n) (n : Node) :
    P n := by
  induction hsize : n.size using Nat.strongRecOn generalizing n with
  | ind size ih =>
      subst hsize
      exact h n fun c hc => ih c.size hc c rfl

/-- `width n` is the number of bytes of `n`. -/
def width (n : Node) : Nat := n.stop - n.start

/-- The nodes of a tree: the root, and the children of its nodes. -/
inductive Within (root : Node) : Node → Prop where
  | root : Within root root
  | child {n c : Node} (hn : Within root n) (hc : c ∈ n.children) : Within root c

variable {root n c : Node}

/-- Trees within a tree have no other nodes than it. -/
theorem Within.trans (hn : root.Within n) (hc : n.Within c) : root.Within c := by
  induction hc with
  | root => exact hn
  | child _ hmem ih => exact .child ih hmem

/-- A node is no larger than the one that it stands in. -/
theorem Within.size_le (hn : root.Within n) : n.size ≤ root.size := by
  induction hn with
  | root => exact Nat.le_refl _
  | child _ hmem ih => exact Nat.le_trans (Nat.le_of_lt (size_lt_of_mem hmem)) ih

/-- The child in a role stands in the root. -/
theorem Within.child? {role : String} (hn : root.Within n) (h : n.child? role = some c) :
    root.Within c :=
  .child hn (List.mem_of_find?_eq_some h)

/-- The first named child stands in the root. -/
theorem Within.firstNamed? (hn : root.Within n) (h : n.firstNamed? = some c) : root.Within c :=
  .child hn (List.mem_of_find?_eq_some h)

/-- The named children stand in the root. -/
theorem Within.namedChildren (hn : root.Within n) (h : c ∈ n.namedChildren) : root.Within c :=
  .child hn (List.mem_filter.1 h).1

/-- A tree spells a text when one of its literals has it between its quotes: a node with `isText`,
whose source text holds that text and gives it when `inside?` strips the quotes. -/
def Spells (isText : Node → Prop) (inside? : String → Option String) (root : Node)
    (text : String) : Prop :=
  ∃ n, root.Within n ∧ isText n ∧ inside? n.text = some text ∧ text.toList <:+: n.text.toList

/-- Strings without embedded values. -/
structure IsPlainString (n : Node) : Prop where
  kind : n.kind = "string"
  plain : ∀ c ∈ n.namedChildren, c.kind ≠ "interpolation"

/-- A string is plain when the search for embedded values finds none. -/
theorem isPlainString_of_not_any (hkind : n.kind = "string")
    (hplain : ¬n.namedChildren.any (·.kind = "interpolation")) : n.IsPlainString := by
  refine ⟨hkind, fun c hc hinterpolation => hplain ?_⟩
  exact List.any_eq_true.2 ⟨c, hc, decide_eq_true hinterpolation⟩

end Node

namespace Site

/-- What holds of a site if it holds of all smaller ones holds of every site. -/
theorem induction_size {P : Site → Prop}
    (h : ∀ s, (∀ c : Site, c.node.size < s.node.size → P c) → P s)
    (s : Site) : P s := by
  induction hsize : s.node.size using Nat.strongRecOn generalizing s with
  | ind size ih =>
      subst hsize
      exact h s fun c hc => ih c.node.size hc c rfl

variable {root : Node} {s c : Site}

/-- The property passes from sites to those right below them. -/
def Inherited (Q : Site → Prop) : Prop := ∀ s c, Q s → c ∈ s.node.children → Q (s.below c)

namespace Inherited

variable {Q : Site → Prop} (h : Inherited Q)
include h

/-- What is inherited holds of the child in a role. -/
theorem child? {role : String} (hs : Q s) (hc : s.child? role = some c) : Q c := by
  obtain ⟨n, hn, rfl⟩ := Option.map_eq_some_iff.1 hc
  exact h s n hs (List.mem_of_find?_eq_some hn)

/-- What is inherited holds of the first child. -/
theorem first? (hs : Q s) (hc : s.first? = some c) : Q c := by
  obtain ⟨n, hn, rfl⟩ := Option.map_eq_some_iff.1 hc
  exact h s n hs (List.mem_of_find?_eq_some hn)

/-- What is inherited holds of the children. -/
theorem children (hs : Q s) (hc : c ∈ s.children) : Q c := by
  obtain ⟨n, hn, rfl⟩ := List.mem_map.1 hc
  exact h s n hs (List.mem_filter.1 hn).1

end Inherited

/-- Nodes below those of a tree are of the tree. -/
theorem inherited_within (root : Node) : Inherited fun s => root.Within s.node :=
  fun _ _ => .child

/-- The child of a site in a role stands in the root. -/
theorem within_child? {role : String} (hs : root.Within s.node) (h : s.child? role = some c) :
    root.Within c.node :=
  (inherited_within root).child? hs h

/-- The first child of a site stands in the root. -/
theorem within_first? (hs : root.Within s.node) (h : s.first? = some c) : root.Within c.node :=
  (inherited_within root).first? hs h

/-- The children of a site stand in the root. -/
theorem within_children (hs : root.Within s.node) (h : c ∈ s.children) : root.Within c.node :=
  (inherited_within root).children hs h

/-! ## All sites of a tree -/

/-- The sites in a list of nodes are those of each. -/
theorem allInList_eq_flatMap (ancestors ns : List Node) :
    allInList ancestors ns = ns.flatMap (allBelow ancestors) := by
  induction ns with
  | nil => rfl
  | cons n ns ih => rw [allInList, ih, List.flatMap_cons]

/-- The sites at and below a site are the site itself, and those at and below its children. -/
theorem all_eq_cons (s : Site) :
    s.all = s :: s.node.children.flatMap fun c => (s.below c).all := by
  obtain ⟨⟨head, children⟩, ancestors⟩ := s
  rw [all, allBelow, allInList_eq_flatMap]
  rfl

/-- A site is one of the sites at or below itself. -/
theorem self_mem_all (s : Site) : s ∈ s.all := by
  rw [all_eq_cons]
  exact List.mem_cons_self

/-- The sites below a child are among those below the site. -/
theorem all_below_subset {n : Node} (hn : n ∈ s.node.children) : (s.below n).all ⊆ s.all := by
  intro t ht
  rw [all_eq_cons s]
  exact List.mem_cons_of_mem s (List.mem_flatMap.2 ⟨n, hn, ht⟩)

/-- A property that is inherited holds of the sites of a tree if it holds of the root. -/
theorem Inherited.of_mem_all {Q : Site → Prop} (h : Inherited Q) (hs : Q s)
    (hc : c ∈ s.all) : Q c := by
  induction s using induction_size with
  | h s ih =>
      rw [all_eq_cons] at hc
      rcases List.mem_cons.1 hc with rfl | hc
      · exact hs
      · obtain ⟨n, hn, hc⟩ := List.mem_flatMap.1 hc
        exact ih (s.below n) (Node.size_lt_of_mem hn) (h s n hs hn) hc

/-- All sites of a tree are those of nodes within it. -/
theorem within_of_mem_all (hs : root.Within s.node) (h : c ∈ s.all) : root.Within c.node :=
  (inherited_within root).of_mem_all hs h

/-- The trees at the sites of a tree have no other sites than it. -/
theorem all_subset_of_mem (h : c ∈ s.all) : c.all ⊆ s.all := by
  have hinherited : Inherited fun c => c.all ⊆ s.all := fun c n hc hn =>
    List.Subset.trans (all_below_subset hn) hc
  exact hinherited.of_mem_all (List.Subset.refl _) h

/-- The children of a node in a tree have sites in it. -/
theorem below_mem_all {n : Node} (h : c ∈ s.all) (hn : n ∈ c.node.children) : c.below n ∈ s.all :=
  all_subset_of_mem h (all_below_subset hn (self_mem_all (c.below n)))

/-- Sites below those of a tree are of the tree. -/
theorem inherited_mem_all (root : Node) : Inherited (· ∈ (Site.root root).all) :=
  fun _ _ => below_mem_all

/-- The nodes around a site of a tree are in the tree, or around it. -/
theorem within_of_mem_ancestors {a : Node} (h : c ∈ s.all) (ha : a ∈ c.ancestors) :
    a ∈ s.ancestors ∨ s.node.Within a ∧ a.Within c.node := by
  have hinherited : Inherited fun c => s.node.Within c.node ∧
      ∀ a ∈ c.ancestors, a ∈ s.ancestors ∨ s.node.Within a ∧ a.Within c.node := by
    rintro c n ⟨hc, haround⟩ hn
    refine ⟨.child hc hn, fun a ha => ?_⟩
    rcases List.mem_cons.1 ha with rfl | ha
    · exact .inr ⟨hc, .child .root hn⟩
    · exact (haround a ha).imp_right fun ⟨hwithin, hac⟩ => ⟨hwithin, .child hac hn⟩
  exact (hinherited.of_mem_all ⟨.root, fun a ha => .inl ha⟩ h).2 a ha

/-- The sites around a site of a tree are of the tree. -/
theorem mem_all_of_suffix {n : Node} {rest : List Node} (hs : s ∈ (Site.root root).all)
    (hsuffix : n :: rest <:+ s.ancestors) : ⟨n, rest⟩ ∈ (Site.root root).all := by
  have hinherited : Inherited fun s => s ∈ (Site.root root).all ∧
      ∀ n rest, n :: rest <:+ s.ancestors → (⟨n, rest⟩ : Site) ∈ (Site.root root).all := by
    rintro s c ⟨hs, haround⟩ hc
    refine ⟨inherited_mem_all root s c hs hc, ?_⟩
    intro n rest hsuffix
    rcases List.suffix_cons_iff.1 hsuffix with hwhole | hinner
    · obtain ⟨rfl, rfl⟩ := List.cons.inj hwhole
      exact hs
    · exact haround n rest hinner
  refine (hinherited.of_mem_all ⟨self_mem_all (Site.root root), ?_⟩ hs).2 n rest hsuffix
  intro n rest hsuffix
  simp [Site.root] at hsuffix

/-- The nodes within a tree have sites. -/
theorem exists_mem_all {root n : Node} (hn : root.Within n) :
    ∃ s ∈ (Site.root root).all, s.node = n := by
  induction hn with
  | root => exact ⟨Site.root root, self_mem_all _, rfl⟩
  | @child n c _ hc ih =>
      obtain ⟨s, hs, rfl⟩ := ih
      exact ⟨s.below c, below_mem_all hs hc, rfl⟩

end Site

end TrackingPlan
