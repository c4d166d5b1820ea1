import TrackingPlan.Proofs.Likeness.Names
import TrackingPlan.Proofs.TypeTables

/-!
# Scripts that are read alike: types

Declared types stand for the same in scripts that are read alike. `typeSchema_like` reads one type,
where names stand for the same, and `reference_like` says that they do.
-/

namespace TrackingPlan.Script

variable {R : Node → Node → Prop} {n n' : Node}

/-! ## Parts of types -/

/-- The members of a union are its children, with those of unions among them in their place. -/
theorem unionMembers_eq (n : Node) : unionMembers n = n.namedChildren.flatMap fun member =>
    if member.kind = "union_type" then unionMembers member else [member] := by
  rw [unionMembers]
  simp only [List.flatMap_subtype, List.unattach_attach]

/-- A mark makes the same of a schema on both sides. -/
theorem markedSchema_like (hn : Open R n n') (schema : Schema) :
    markedSchema n schema = markedSchema n' schema := by
  rw [markedSchema, markedSchema, hn.mark "?" (by decide)]

section Parts

variable (h : Likeness R)
include h

/-- A literal type has the same schema on both sides. -/
theorem literalSchema_like (hn : R n n') : literalSchema n = literalSchema n' := by
  rw [literalSchema, literalSchema, h.kind hn]

/-- An enumeration has the same schema on both sides. -/
theorem enumSchema_like (hn : R n n') (hkind : n.kind = "enum_declaration") :
    enumSchema n = enumSchema n' := by
  unfold enumSchema
  refine (enumEntries_like h hn hkind).elim rfl fun body body' hbody => ?_
  dsimp only
  rw [hbody.any_eq fun _ _ hentry => by rw [hentry.2]]

/-- The members of a union have ones that are like them. -/
theorem unionMembers_like (hn : R n n') (hkind : n.kind = "union_type") :
    List.Forall₂ R (unionMembers n) (unionMembers n') := by
  induction n using Node.induction_size generalizing n' with
  | h n ih =>
      rw [unionMembers_eq, unionMembers_eq]
      refine List.rel_flatMap (h.opened hn (by rw [hkind]; decide)).children.attach ?_
      rintro c c' ⟨hmem, hc⟩
      dsimp only
      rw [← h.kind hc]
      split
      next hunion => exact ih c (Node.size_namedChildren_lt hmem) hc hunion
      next => exact .cons hc .nil

/-- Properties have the same names, and are no signatures themselves. -/
theorem propertySignatures_like (hn : Open R n n') :
    List.Forall₂ (Keyed (Open R)) (propertySignatures n) (propertySignatures n') := by
  have hmembers : List.Forall₂ (Open R) (n.namedChildren.filter (·.kind = "property_signature"))
      (n'.namedChildren.filter (·.kind = "property_signature")) := by
    refine (hn.children.filter fun _ _ hc => h.isKind hc _).attach.imp
      fun member _ ⟨hmem, hmember⟩ => ?_
    have hkind : member.kind = "property_signature" := by simpa using (List.mem_filter.1 hmem).2
    exact h.opened hmember (by rw [hkind]; decide)
  unfold propertySignatures
  refine List.rel_filterMap (fun member member' hmember => ?_) hmembers
  rw [(hmember.child? "name").bind_eq fun _ _ => key?_like h]
  cases (member'.child? "name").bind key? with
  | none => exact .none
  | some key => exact .some ⟨rfl, hmember⟩

/-- The bases of an interface have ones that are like them. -/
theorem basesOf_like (hn : R n n') (hkind : n.kind = "interface_declaration") :
    List.Forall₂ R (basesOf n) (basesOf n') := by
  have hchildren := (h.opened hn (by rw [hkind]; decide)).children
  refine List.rel_flatMap (hchildren.filter fun _ _ hc =>
    h.isKind hc "extends_type_clause").attach ?_
  rintro clause clause' ⟨hmem, hclause⟩
  have hkind : clause.kind = "extends_type_clause" := by simpa using (List.mem_filter.1 hmem).2
  exact (h.opened hclause (by rw [hkind]; decide)).children

/-- The first argument of a type has one that is like it. -/
theorem firstArgument?_like (hn : R n n') (hkind : n.kind = "generic_type") :
    Option.Rel R (firstArgument? n) (firstArgument? n') :=
  (h.part hn (by rw [hkind]; decide)).bind fun _ _ hc => hc.children.head?

end Parts

/-! ## Types -/

/-- What is in a signature without a body does not count. -/
theorem typeSchema_of_signature (named : String → Option Schema) (hkind : n.kind ∈ signatureKinds) :
    typeSchema named n = .any := by
  rw [typeSchema_eq]
  split
  case h_15 => rfl
  all_goals
    next h => exact absurd hkind (by rw [h]; decide)

section Types

variable (h : Likeness R) (named : String → Option Schema)
include h

/-- A type with arguments has the same schema on both sides, if the types inside have. -/
theorem genericSchema_like (hlabels : KeepsLabels R fun name => (named name).isSome) (hn : R n n')
    (hkind : n.kind = "generic_type")
    (htype : ∀ c c', c.size < n.size → R c c' → typeSchema named c = typeSchema named c') :
    genericSchema named n = genericSchema named n' := by
  have hargument :
    Option.Rel (fun c c' => typeSchema named c = typeSchema named c') (firstArgument? n)
      (firstArgument? n') :=
    (firstArgument?_like h hn hkind).attach.imp fun c c' ⟨hmem, hc⟩ =>
      htype c c' (size_firstArgument?_lt hmem) hc
  rw [genericSchema_eq, genericSchema_eq, ← h.texts hn (by rw [hkind]; decide),
    hargument.map_eq fun _ _ heq => heq, hargument.map_eq fun _ _ heq => congrArg Schema.array heq]
  dsimp only
  rcases hlabels hn hkind with hknown | hstands | htext
  · -- a known type is not called by its text
    split
    · rfl
    next hlist =>
      split
      · rfl
      next htable =>
        split
        · rfl
        next htransparent =>
          exfalso
          simp only [knownTypes, List.mem_append] at hknown
          simp only [List.contains_iff_mem] at hlist htable htransparent
          tauto
  · obtain ⟨schema, hschema⟩ := Option.isSome_iff_exists.1 hstands
    rw [hschema, Option.getD_some, Option.getD_some]
  · rw [htext]

/-- A body has the same fields on both sides, if the types inside have the same schemas. -/
theorem memberFields_like (hn : Open R n n')
    (htype : ∀ c c', c.size < n.size → R c c' → typeSchema named c = typeSchema named c') :
    memberFields named n = memberFields named n' := by
  rw [memberFields_eq, memberFields_eq]
  refine congrArg Named.ofEntries ((propertySignatures_like h hn).attach.map_eq ?_)
  rintro ⟨name, member⟩ ⟨name', member'⟩ ⟨hmem, hname, hmember⟩
  obtain rfl : name = name' := hname
  have hsize := Node.size_namedChildren_lt (mem_of_mem_propertySignatures hmem)
  dsimp only at hmember ⊢
  refine (hmember.child? "type").attach.elim ?_ fun type type' ⟨hmem, htyped⟩ => ?_
  · rw [Option.map_none, Option.map_none, markedSchema_like hmember]
  · rw [Option.map_some, Option.map_some,
      htype type type' (Nat.lt_trans (Node.size_child?_lt hmem) hsize) htyped,
      markedSchema_like hmember, markedSchema_like hmember]

/-- Related types stand for the same, if names do. -/
theorem typeSchema_like (hlabels : KeepsLabels R fun name => (named name).isSome) (hn : R n n') :
    typeSchema named n = typeSchema named n' := by
  induction n using Node.induction_size generalizing n' with
  | h n ih =>
      by_cases hsignature : n.kind ∈ signatureKinds
      · -- nothing is known of what is in the two signatures, and nothing of it is read
        rw [typeSchema_of_signature named hsignature,
          typeSchema_of_signature named (h.kind hn ▸ hsignature)]
      have htype : ∀ c c', c.size < n.size → R c c' → typeSchema named c = typeSchema named c' :=
        fun c c' hsize hc => ih c hsize hc
      have hopened := h.opened hn hsignature
      have hchildren :
          n.namedChildren.map (typeSchema named) = n'.namedChildren.map (typeSchema named) :=
        hopened.children.attach.map_eq fun c c' hc => ih c (Node.size_namedChildren_lt hc.1) hc.2
      have hfirst (hkind : n.kind ∈ firstKinds) : Option.Rel
          (fun c c' => typeSchema named c = typeSchema named c') n.firstNamed? n'.firstNamed? :=
        (h.first hn hkind).attach.imp fun c c' hc => ih c (Node.size_firstNamed?_lt hc.1) hc.2
      rw [typeSchema_eq, typeSchema_eq, ← h.kind hn, hchildren,
        memberFields_like h named hopened htype]
      split
      case h_1 hkind | h_2 hkind | h_3 hkind =>
        rw [(hfirst (by rw [hkind]; decide)).map_eq fun _ _ heq => heq]
      case h_4 hkind => rw [h.word hn (by rw [hkind]; decide)]
      case h_5 hkind =>
        rw [(h.first hn (by rw [hkind]; decide)).map_eq fun _ _ => literalSchema_like h]
      case h_6 => rfl
      case h_7 hkind =>
        rw [(unionMembers_like h hn hkind).attach.map_eq fun c c' hc =>
          ih c (size_unionMembers_lt hc.1) hc.2]
      case h_8 hkind =>
        rw [(hfirst (by rw [hkind]; decide)).map_eq fun _ _ heq => congrArg Schema.array heq]
      case h_12 hkind => exact genericSchema_like h named hlabels hn hkind htype
      case h_13 hkind | h_14 hkind => rw [h.word hn (by rw [hkind]; decide)]
      all_goals rfl

/-- A declaration has the same schema on both sides. -/
theorem declaredSchema_like (hlabels : KeepsLabels R fun name => (named name).isSome)
    (hn : R n n') :
    declaredSchema named n = declaredSchema named n' := by
  have htype : ∀ c c', R c c' → typeSchema named c = typeSchema named c' :=
    fun c c' hc => typeSchema_like h named hlabels hc
  unfold declaredSchema
  rw [← h.kind hn]
  split
  next hkind =>
    rw [(basesOf_like h hn hkind).map_eq htype]
    refine (h.part hn (by rw [hkind]; decide)).elim rfl fun body body' hbody => ?_
    dsimp only
    rw [memberFields_like h named hbody fun c c' _ hc => htype c c' hc]
  next hkind =>
    have hvalue := (h.opened hn (by rw [hkind]; decide)).child? "value"
    exact hvalue.elim rfl fun value value' hc => htype value value' hc
  next hkind => exact enumSchema_like h hn hkind
  next => rfl

end Types

/-! ## Names -/

/-- Modules that are alike correspond to each other, file by file. -/
theorem Modules.Like.corresponds {modules others : Modules} (h : modules.Like others) :
    modules.Corresponds Module.Alike others where
  path := fun ⟨_, hm⟩ => hm.path
  imports := fun ⟨_, hm⟩ => hm.imports
  reexports := fun ⟨_, hm⟩ => hm.reexports
  declares := fun ⟨_, hm⟩ name => by
    simp only [← Option.isSome_iff_exists, (hm.type? name).isSome_eq]
  imported := h.imported
  declaring := h.declaring

/-- A reference gives a schema to a name on both sides or on none. -/
theorem Module.Like.labels_reference {m m' : Module} (hm : m.Like R m') {depth : Nat}
    (hdepth : depth ≤ maxHops) (modules : Modules) (seen : Expanding) :
    KeepsLabels R fun name => (reference modules m depth seen name).isSome := by
  intro n n' hn hkind
  exact (hm.labels hn hkind).imp_right (Or.imp_left fun hdeclared =>
    isSome_reference hdeclared hdepth)

/-- Names stand for the same in scripts that are read alike. -/
theorem reference_like {modules others : Modules} {m m' : Module} (hmodules : modules.Like others)
    (hm : m.Alike m') (depth : Nat) (seen : Expanding) (name : String) :
    reference modules m depth seen name = reference others m' depth seen name := by
  refine hmodules.corresponds.reference_eq [] ?_ hm (List.nil_subset seen) name
  intro target target' name declaration declaration' hops stack htarget hdeclaration
    hdeclaration' hhops _ _
  obtain ⟨R, htarget⟩ := htarget
  have hrel := htarget.type? name
  rw [hdeclaration, hdeclaration'] at hrel
  cases hrel with
  | some hr =>
      exact declaredSchema_like htarget.tree _ (htarget.labels_reference hhops modules _) hr

/-- Related annotations have the same schemas. -/
theorem annotationSchema_like {modules others : Modules} {m m' : Module}
    (hmodules : modules.Like others) (hm : m.Like R m') (hn : R n n') :
    annotationSchema modules m n = annotationSchema others m' n' := by
  have hnamed : reference modules m 0 [] = reference others m' 0 [] :=
    funext (reference_like hmodules ⟨R, hm⟩ 0 [])
  rw [annotationSchema_eq, annotationSchema_eq, ← hnamed]
  exact typeSchema_like hm.tree _ (hm.labels_reference (Nat.zero_le _) modules []) hn

end TrackingPlan.Script
