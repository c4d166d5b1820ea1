import TrackingPlan.Proofs.Likeness.Names
import TrackingPlan.Proofs.VisibleNames

/-!
# Trees with other names in signatures

A `Renaming` gives the nodes of a tree other texts and moves them to where these texts leave room
for them. `isMute` holds of what is only part of a signature without a body, where the parameters
are that a renaming is about, and `Fits` says that a renaming leaves all texts alone that are read
elsewhere. By `likeness` the two trees are alike then.
-/

namespace TrackingPlan

/-! ## Renamings -/

/-- Other texts for the nodes of a tree, and where the offsets of the old text are in the new
one. -/
structure Renaming where
  place : Nat → Nat
  text : Node → String

namespace Renaming

mutual
/-- `r.apply n` is the tree `n` with the texts and places that `r` gives to its nodes. -/
def apply (r : Renaming) : Node → Node
  | .mk head children =>
    .mk { head with
      start := r.place head.start, stop := r.place head.stop, text := r.text (.mk head children) }
      (r.applyList children)

/-- `r.applyList ns` applies `r` to all trees of `ns`. -/
def applyList (r : Renaming) : List Node → List Node
  | [] => []
  | n :: ns => r.apply n :: r.applyList ns
end

/-- `toText place text` is the renaming that leads to `text`. -/
def toText (place : Nat → Nat) (text : String) : Renaming where
  place := place
  text := fun n =>
    String.ofList ((text.toList.drop (place n.start)).take (place n.stop - place n.start))

/-- `r.applySite s` applies `r` to a node and to those around it. -/
def applySite (r : Renaming) (s : Site) : Site := ⟨r.apply s.node, s.ancestors.map r.apply⟩

variable (r : Renaming) (n : Node)

/-- A list of nodes is renamed one by one. -/
theorem applyList_eq_map (ns : List Node) : r.applyList ns = ns.map r.apply := by
  induction ns with
  | nil => rfl
  | cons n ns ih => rw [applyList, ih, List.map_cons]

/-- A renamed node keeps its kind. -/
@[simp]
theorem kind_apply : (r.apply n).kind = n.kind := by cases n; rfl

/-- A renamed node keeps its role. -/
@[simp]
theorem role_apply : (r.apply n).head.role = n.head.role := by cases n; rfl

/-- A renamed node is named if it was before. -/
@[simp]
theorem named_apply : (r.apply n).head.named = n.head.named := by cases n; rfl

/-- A renamed node starts at the place of its start. -/
@[simp]
theorem start_apply : (r.apply n).start = r.place n.start := by cases n; rfl

/-- A renamed node ends at the place of its end. -/
@[simp]
theorem stop_apply : (r.apply n).stop = r.place n.stop := by cases n; rfl

/-- A renamed node has its new text. -/
@[simp]
theorem text_apply : (r.apply n).text = r.text n := by cases n; rfl

/-- The children of a renamed node are the renamed ones. -/
@[simp]
theorem children_apply : (r.apply n).children = n.children.map r.apply := by
  cases n
  rw [apply, Node.children, Node.children, applyList_eq_map]

/-- The named children of a renamed node are the renamed ones. -/
@[simp]
theorem namedChildren_apply : (r.apply n).namedChildren = n.namedChildren.map r.apply := by
  simp [Node.namedChildren, Node.isComment, List.filter_map, Function.comp_def]

/-- The child of a renamed node in a role is the renamed one. -/
@[simp]
theorem child?_apply (role : String) : (r.apply n).child? role = (n.child? role).map r.apply := by
  simp only [Node.child?, children_apply, List.find?_map, Function.comp_def, role_apply]

/-- The first named child of a renamed node is the renamed one. -/
@[simp]
theorem firstNamed?_apply : (r.apply n).firstNamed? = n.firstNamed?.map r.apply := by
  simp only [Node.firstNamed?, children_apply, List.find?_map, Function.comp_def, named_apply]

/-- The child of a renamed node in a role has its new text. -/
theorem childText?_apply (role : String) :
    (r.apply n).childText? role = (n.child? role).map r.text := by
  simp [Node.childText?, Function.comp_def]

/-- A renamed node keeps its marks. -/
theorem hasMark_apply (mark : String) :
    Script.hasMark (r.apply n) mark = Script.hasMark n mark := by
  simp [Script.hasMark, List.any_map, Function.comp_def]

/-- The sites below a renamed one are the renamed ones. -/
theorem all_applySite (s : Site) : (r.applySite s).all = s.all.map r.applySite := by
  induction s using Site.induction_size with
  | h s ih =>
      have hchildren : (r.applySite s).node.children = s.node.children.map r.apply :=
        children_apply r s.node
      rw [Site.all_eq_cons, Site.all_eq_cons, List.map_cons, List.map_flatMap, hchildren,
        List.flatMap_map]
      exact congrArg _ (List.flatMap_congr fun c hc => ih (s.below c) (Node.size_lt_of_mem hc))

/-- The sites of a tree are those of the same nodes after a renaming. -/
theorem sites_apply (root : Node) :
    Script.Module.sites (r.apply root) = (Script.Module.sites root).map r.applySite :=
  all_applySite r (Site.root root)

end Renaming

namespace Script

open Script.Module (sites isScope)

/-! ## What is only part of a signature -/

/-- `isActive kind` holds of the kinds of nodes that are read wherever they stand: calls, functions,
classes, and what declares variables, types, imports and exports. -/
def isActive (kind : String) : Bool :=
  isScope kind || ["call_expression", "class_body", "variable_declarator", "enum_declaration",
    "interface_declaration", "type_alias_declaration", "import_statement",
    "export_statement"].contains kind

/-- `inSignature ancestors` holds when the first active node or signature among `ancestors` is a
signature without a body. -/
def inSignature : List Node → Bool
  | [] => false
  | n :: rest => signatureKinds.contains n.kind || !isActive n.kind && inSignature rest

/-- `isMute s` holds of what is only part of a signature without a body. -/
def isMute (s : Site) : Bool := !isActive s.kind && inSignature s.ancestors

/-- Signatures do not stand where members of an enumeration, parameters of a method, bodies of
interfaces and type arguments stand. -/
structure Shaped (n : Node) : Prop where
  parts : ∀ entry ∈ partRoles ++ listRoles, n.kind = entry.1 →
    ∀ c ∈ n.child? entry.2, c.kind ∉ signatureKinds
  members : ∀ entry ∈ listRoles, n.kind = entry.1 → ∀ list ∈ n.child? entry.2,
    ∀ c ∈ list.namedChildren, c.kind ∉ signatureKinds

/-- The roles in which a name is declared, apart from those of variables and parameters. -/
def declaredRoles : List (String × String) :=
  [("enum_declaration", "name"), ("interface_declaration", "name"),
    ("type_alias_declaration", "name")]

/-- A renaming leaves the texts alone that are read at `n`. In a script that is well formed, these
have no signatures in them. -/
structure Keeps (r : Renaming) (n : Node) : Prop where
  word : n.kind ∈ wordKinds → r.text n = n.text
  texts : ∀ entry ∈ textRoles ++ declaredRoles, n.kind = entry.1 →
    (r.apply n).childText? entry.2 = n.childText? entry.2
  template : n.kind = "template_string" →
    n.namedChildren.any (·.kind = "template_substitution") = false → r.text n = n.text
  callee :
    n.kind = "call_expression" → ∀ name ∈ wrappers, isCallOf (r.apply n) name = isCallOf n name
  imports : Module.importsAt (r.apply n) = Module.importsAt n
  reexports : Module.reexportsAt (r.apply n) = Module.reexportsAt n

instance (n : Node) : Decidable (Shaped n) :=
  decidable_of_iff (_ ∧ _) ⟨fun ⟨parts, members⟩ => ⟨parts, members⟩, fun h => ⟨h.parts, h.members⟩⟩

instance (r : Renaming) (n : Node) : Decidable (Keeps r n) :=
  decidable_of_iff (_ ∧ _ ∧ _ ∧ _ ∧ _ ∧ _)
    ⟨fun ⟨word, texts, template, callee, imports, reexports⟩ =>
      ⟨word, texts, template, callee, imports, reexports⟩,
      fun h => ⟨h.word, h.texts, h.template, h.callee, h.imports, h.reexports⟩⟩

/-- `offsets root` lists where the nodes of a tree start and stop. -/
def offsets (root : Node) : List Nat := (sites root).flatMap fun s => [s.node.start, s.node.stop]

/-- `declaredTypes root` lists the names of the types that a script declares. -/
def declaredTypes (root : Node) : List String := ((sites root).flatMap Module.typesAt).map (·.1)

/-- A renaming keeps the order of all nodes, and the texts of all but what is mute. -/
structure Fits (r : Renaming) (root : Node) : Prop where
  laidOut : root.LaidOut
  /-- Names have bytes. -/
  filled : ∀ s ∈ sites root, (usedName? s.node).isSome = true → s.node.start < s.node.stop
  shaped : ∀ s ∈ sites root, Shaped s.node
  order : ∀ x ∈ offsets root, ∀ y ∈ offsets root, x < y → r.place x < r.place y
  keeps : ∀ s ∈ sites root, isMute s = false → Keeps r s.node
  /-- The label of a generic type is its text, unless its name is known or declared in the
  script. -/
  labels : ∀ s ∈ sites root, isMute s = false → s.kind = "generic_type" →
    (s.childText? "name").getD "" ∈ knownTypes ∨ (s.childText? "name").getD "" ∈
      declaredTypes root ∨ r.text s.node = s.text
  /-- No parameter gets or loses the name of a member. -/
  patterns : ∀ s ∈ sites root, ∀ p ∈ sites root, isMute s = false → isMute p = false →
    s.kind = "member_expression" → ∀ name ∈ s.childText? "property",
      ((r.apply p.node).childText? "pattern" = some name ↔ p.childText? "pattern" = some name)

set_option synthInstance.maxSize 400 in
instance (r : Renaming) (root : Node) : Decidable (Fits r root) :=
  decidable_of_iff (_ ∧ _ ∧ _ ∧ _ ∧ _ ∧ _ ∧ _)
    ⟨fun ⟨laidOut, filled, shaped, order, keeps, labels, patterns⟩ =>
      ⟨laidOut, filled, shaped, order, keeps, labels, patterns⟩,
      fun h => ⟨h.laidOut, h.filled, h.shaped, h.order, h.keeps, h.labels, h.patterns⟩⟩

/-! ## Trees that are alike -/

/-- Kinds with parts are no signatures. -/
theorem kind_of_partRoles {kind role : String} (h : (kind, role) ∈ partRoles) :
    kind ∉ signatureKinds :=
  (by decide : ∀ entry ∈ partRoles, entry.1 ∉ signatureKinds) _ h

/-- Kinds with lists are no signatures. -/
theorem kind_of_listRoles {kind role : String} (h : (kind, role) ∈ listRoles) :
    kind ∉ signatureKinds :=
  (by decide : ∀ entry ∈ listRoles, entry.1 ∉ signatureKinds) _ h

/-- Kinds that are read by their first child are no signatures. -/
theorem kind_of_firstKinds {kind : String} (h : kind ∈ firstKinds) : kind ∉ signatureKinds :=
  (by decide : ∀ kind ∈ firstKinds, kind ∉ signatureKinds) _ h

/-- A node that is not mute, and what a renaming makes of it. -/
def Renamed (r : Renaming) (root n n' : Node) : Prop :=
  ∃ s ∈ sites root, isMute s = false ∧ s.node = n ∧ r.apply n = n'

variable {r : Renaming} {root n n' c : Node} {s : Site}

/-- What stands right below a node that is not mute is not mute either, unless the node is a
signature. -/
theorem isMute_below (hs : isMute s = false) (hkind : s.kind ∉ signatureKinds) (c : Node) :
    isMute (s.below c) = false := by
  have hinside : (!isActive s.node.kind && inSignature s.ancestors) = false := hs
  have hsignature : signatureKinds.contains s.node.kind = false := by
    rw [← Bool.not_eq_true, List.contains_iff_mem]
    exact hkind
  show (!isActive c.kind && inSignature (s.node :: s.ancestors)) = false
  rw [inSignature, hsignature, hinside, Bool.or_false, Bool.and_false]

/-- A site of an active kind is not mute. -/
theorem isMute_of_isActive (hkind : isActive s.kind = true) : isMute s = false := by
  rw [isMute, hkind, Bool.not_true, Bool.false_and]

namespace Renamed

/-- The child of a node that is related is related, outside signatures. -/
theorem of_child (hn : Renamed r root n n') (hkind : n.kind ∉ signatureKinds)
    (hc : c ∈ n.children) :
    Renamed r root c (r.apply c) := by
  obtain ⟨s, hs, hmute, rfl, -⟩ := hn
  exact ⟨s.below c, Site.below_mem_all hs hc, isMute_below hmute hkind c, rfl, rfl⟩

/-- The child in a role is related, outside signatures. -/
theorem rel_child? (hn : Renamed r root n n') (hkind : n.kind ∉ signatureKinds) (role : String) :
    Option.Rel (fun c c' => c ∈ n.child? role ∧ Renamed r root c c') (n.child? role)
      (n'.child? role) := by
  obtain ⟨-, -, -, -, rfl⟩ := id hn
  rw [Renaming.child?_apply]
  cases hc : n.child? role with
  | none => exact .none
  | some c => exact .some ⟨rfl, hn.of_child hkind (List.mem_of_find?_eq_some hc)⟩

/-- The first named child is related, outside signatures. -/
theorem rel_firstNamed? (hn : Renamed r root n n') (hkind : n.kind ∉ signatureKinds) :
    Option.Rel (Renamed r root) n.firstNamed? n'.firstNamed? := by
  obtain ⟨-, -, -, -, rfl⟩ := id hn
  rw [Renaming.firstNamed?_apply]
  cases hc : n.firstNamed? with
  | none => exact .none
  | some c => exact .some (hn.of_child hkind (List.mem_of_find?_eq_some hc))

/-- The named children are related, outside signatures. -/
theorem rel_namedChildren (hn : Renamed r root n n') (hkind : n.kind ∉ signatureKinds) :
    List.Forall₂ (fun c c' => c ∈ n.namedChildren ∧ Renamed r root c c') n.namedChildren
      n'.namedChildren := by
  obtain ⟨-, -, -, -, rfl⟩ := id hn
  rw [Renaming.namedChildren_apply, List.forall₂_map_right_iff, List.forall₂_same]
  exact fun c hc => ⟨hc, hn.of_child hkind (List.mem_filter.1 hc).1⟩

/-- Nodes that are no signatures have related children. -/
theorem opened (hn : Renamed r root n n') (hkind : n.kind ∉ signatureKinds) :
    Open (Renamed r root) n n' where
  self := hn
  child? := fun role => (hn.rel_child? hkind role).imp fun _ _ hc => hc.2
  children := (hn.rel_namedChildren hkind).imp fun _ _ hc => hc.2
  mark := fun mark _ => by
    obtain ⟨-, -, -, -, rfl⟩ := hn
    rw [Renaming.hasMark_apply]

end Renamed

/-- A renaming that fits a tree makes one of it that is read alike. -/
theorem Fits.likeness (h : Fits r root) : Likeness (Renamed r root) where
  -- related nodes are not mute, so that `Fits` speaks of their texts
  kind := by
    rintro n _ ⟨s, -, -, -, rfl⟩
    rw [Renaming.kind_apply]
  opened := fun hn hkind => hn.opened hkind
  part := by
    intro n n' role hn hrole
    have hkind : n.kind ∉ signatureKinds := kind_of_partRoles hrole
    refine (hn.rel_child? hkind role).imp fun c c' ⟨hmem, hc⟩ => hc.opened ?_
    obtain ⟨s, hs, -, rfl, -⟩ := hn
    exact (h.shaped s hs).parts _ (List.mem_append_left _ hrole) rfl c hmem
  listed := by
    intro n n' role hn hrole
    have hkind : n.kind ∉ signatureKinds := kind_of_listRoles hrole
    refine (hn.rel_child? hkind role).imp fun list list' ⟨hmem, hlist⟩ => ?_
    obtain ⟨s, hs, -, rfl, -⟩ := hn
    have hlistKind := (h.shaped s hs).parts _ (List.mem_append_right _ hrole) rfl list hmem
    refine (hlist.rel_namedChildren hlistKind).imp fun c c' ⟨hc, hrel⟩ => hrel.opened ?_
    exact (h.shaped s hs).members _ hrole rfl list hmem c hc
  first := fun hn hkind => hn.rel_firstNamed? (kind_of_firstKinds hkind)
  word := by
    rintro _ _ ⟨s, hs, hmute, rfl, rfl⟩ hkind
    rw [Renaming.text_apply, (h.keeps s hs hmute).word hkind]
  texts := by
    rintro _ _ role ⟨s, hs, hmute, rfl, rfl⟩ hrole
    exact ((h.keeps s hs hmute).texts _ (List.mem_append_left _ hrole) rfl).symm
  template := by
    rintro _ _ ⟨s, hs, hmute, rfl, rfl⟩ hkind hplain
    rw [Renaming.text_apply, (h.keeps s hs hmute).template hkind hplain]
  callee := by
    rintro _ _ ⟨s, hs, hmute, rfl, rfl⟩ hkind name hname
    exact ((h.keeps s hs hmute).callee hkind name hname).symm
  pattern := by
    rintro _ _ _ _ name ⟨s, hs, hmute, rfl, rfl⟩ ⟨p, hp, hpmute, rfl, rfl⟩ hkind hname
    exact (h.patterns s hs p hp hmute hpmute hkind name hname).symm

end Script

end TrackingPlan
