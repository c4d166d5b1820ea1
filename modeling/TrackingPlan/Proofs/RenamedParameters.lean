import TrackingPlan.Proofs.Likeness.Calls
import TrackingPlan.Proofs.RenamedParameters.Tree

/-!
# Names of parameters that stand for nothing

Parameters of signatures without a body are declared in the function or file around the signature,
as only functions with bodies are scopes. A renaming of such parameters leaves what the events of a
script send as it was, as long as no name that is used elsewhere is declared by one of them, before
or after: `sent_of_renamed`. By `parameter_hides_constant` a renaming can bring an event to light
otherwise.
-/

namespace TrackingPlan.Script

open Script.Module (sites scopeOf bindingsAt named? typesAt)

variable {r : Renaming} {root n n' a b : Node} {s : Site}

/-! ## Places -/

section Places

/-- The start of a node is one of the offsets of the tree. -/
theorem start_mem_offsets (hn : root.Within n) : n.start ∈ offsets root := by
  obtain ⟨s, hs, rfl⟩ := Site.exists_mem_all hn
  exact List.mem_flatMap.2 ⟨s, hs, by simp⟩

/-- The end of a node is one of the offsets of the tree. -/
theorem stop_mem_offsets (hn : root.Within n) : n.stop ∈ offsets root := by
  obtain ⟨s, hs, rfl⟩ := Site.exists_mem_all hn
  exact List.mem_flatMap.2 ⟨s, hs, by simp⟩

variable (h : Fits r root)
include h

/-- A renaming that fits keeps the order of the offsets. -/
theorem Fits.le_iff {x y : Nat} (hx : x ∈ offsets root) (hy : y ∈ offsets root) :
    r.place x ≤ r.place y ↔ x ≤ y := by
  rcases Nat.lt_trichotomy x y with hlt | rfl | hgt
  · have := h.order x hx y hy hlt
    omega
  · omega
  · have := h.order y hy x hx hgt
    omega

/-- A renaming that fits keeps the order in which nodes start. -/
theorem Fits.starts_iff (ha : root.Within a) (hb : root.Within b) :
    (r.apply a).start ≤ (r.apply b).start ↔ a.start ≤ b.start := by
  rw [Renaming.start_apply, Renaming.start_apply,
    h.le_iff (start_mem_offsets ha) (start_mem_offsets hb)]

/-- A renaming that fits keeps the order in which nodes end. -/
theorem Fits.stops_iff (ha : root.Within a) (hb : root.Within b) :
    (r.apply a).stop ≤ (r.apply b).stop ↔ a.stop ≤ b.stop := by
  rw [Renaming.stop_apply, Renaming.stop_apply,
    h.le_iff (stop_mem_offsets ha) (stop_mem_offsets hb)]

/-- A renaming that fits keeps which nodes hold which. -/
theorem Fits.contains_apply (ha : root.Within a) (hb : root.Within b) :
    (r.apply a).contains (r.apply b) = a.contains b := by
  rw [Node.contains, Node.contains, decide_eq_decide.2 (h.starts_iff ha hb),
    decide_eq_decide.2 (h.stops_iff hb ha)]

/-- Of nodes around each other, the same one is narrower after a renaming. -/
theorem Fits.narrower_iff (ha : root.Within a) (hb : root.Within b)
    (hnested : a.contains b = true ∨ b.contains a = true) :
    (r.apply a).width < (r.apply b).width ↔ a.width < b.width := by
  have hstarts := h.starts_iff ha hb
  have hstarts' := h.starts_iff hb ha
  have hstops := h.stops_iff ha hb
  have hstops' := h.stops_iff hb ha
  have harange := (h.laidOut.holdsChildren_of_within ha).range
  have hbrange := (h.laidOut.holdsChildren_of_within hb).range
  have harange' : (r.apply a).start ≤ (r.apply a).stop := by
    rwa [Renaming.start_apply, Renaming.stop_apply,
      h.le_iff (start_mem_offsets ha) (stop_mem_offsets ha)]
  have hbrange' : (r.apply b).start ≤ (r.apply b).stop := by
    rwa [Renaming.start_apply, Renaming.stop_apply,
      h.le_iff (start_mem_offsets hb) (stop_mem_offsets hb)]
  simp only [Node.contains_iff] at hnested
  simp only [Node.width]
  omega

end Places

/-- Nodes around a place that has bytes, or around the whole script, are around each other. -/
theorem nested_of_contains (h : root.LaidOut) {place : Node} (ha : root.Within a)
    (hb : root.Within b)
    (hplace : place.start < place.stop ∨ place = root) (haplace : a.contains place = true)
    (hbplace : b.contains place = true) : a.contains b = true ∨ b.contains a = true := by
  obtain ⟨s, hs, rfl⟩ := Site.exists_mem_all ha
  obtain ⟨t, ht, rfl⟩ := Site.exists_mem_all hb
  have hnested := Site.nested_or_apart h hs ht
  have harange := Node.contains_of_within (fun m hm => h.holdsChildren_of_within hm) ha
  have hbrange := Node.contains_of_within (fun m hm => h.holdsChildren_of_within hm) hb
  simp only [Node.contains_iff] at *
  rcases hplace with hbytes | rfl
  · omega
  · omega

/-! ## Sites -/

/-- A site is mute after a renaming if it was before. -/
theorem isMute_applySite (r : Renaming) (s : Site) : isMute (r.applySite s) = isMute s := by
  have hinside (ancestors : List Node) :
      inSignature (ancestors.map r.apply) = inSignature ancestors := by
    induction ancestors with
    | nil => rfl
    | cons n rest ih => rw [List.map_cons, inSignature, inSignature, ih, Renaming.kind_apply]
  rw [isMute, isMute, Renaming.applySite, hinside, Site.kind, Renaming.kind_apply, Site.kind]

/-- The scope around a renamed site is the renamed one. -/
theorem scopeOf_applySite (r : Renaming) (root : Node) (s : Site) :
    scopeOf (r.apply root) (r.applySite s) = r.apply (scopeOf root s) := by
  simp only [scopeOf, Renaming.applySite, List.find?_map, Function.comp_def, Renaming.kind_apply]
  cases s.ancestors.find? (Module.isScope ·.kind) <;> rfl

/-- The child of a renamed site in a role is the renamed one. -/
theorem child?_applySite (r : Renaming) (s : Site) (role : String) :
    (r.applySite s).child? role = (s.child? role).map r.applySite := by
  simp only [Site.child?, Renaming.applySite, Renaming.child?_apply, Option.map_map]
  rfl

/-- A renamed site keeps its kind. -/
theorem kind_applySite (r : Renaming) (s : Site) : (r.applySite s).kind = s.kind :=
  Renaming.kind_apply r s.node

/-- The name of a renamed site in a role is the renamed one. -/
theorem named?_applySite (r : Renaming) (s : Site) (role : String) :
    named? (r.applySite s) role = (named? s role).map r.applySite := by
  rw [named?, named?, child?_applySite, Option.filter_map]
  simp only [Function.comp_def, kind_applySite]

/-- The children of a renamed site are the renamed ones. -/
theorem children_applySite (r : Renaming) (s : Site) :
    (r.applySite s).children = s.children.map r.applySite := by
  simp only [Site.children, Renaming.applySite, Renaming.namedChildren_apply, List.map_map]
  rfl

/-- What is not mute is read alike. -/
theorem like_applySite (hs : s ∈ sites root) (hmute : isMute s = false) :
    s.Like (Renamed r root) (r.applySite s) := by
  refine ⟨⟨s, hs, hmute, rfl, rfl⟩, ?_⟩
  show List.Forall₂ _ s.ancestors (s.ancestors.map r.apply)
  rw [List.forall₂_map_right_iff, List.forall₂_same]
  intro around haround
  refine ⟨(Renaming.kind_apply r around).symm, fun hkind => ?_⟩
  have hwithin : root.Within around := by
    rcases Site.within_of_mem_ancestors hs haround with hnone | hwithin
    · cases hnone
    · exact hwithin.1
  obtain ⟨t, ht, rfl⟩ := Site.exists_mem_all hwithin
  exact ⟨t, ht, isMute_of_isActive (by rw [show t.kind = _ from hkind]; decide), rfl, rfl⟩

/-! ## Declarations -/

/-- `isMuteAt root d` holds of declarations that are only part of signatures: a mute node of that
kind has the bytes of `d`. -/
def isMuteAt (root d : Node) : Bool :=
  (sites root).any fun s =>
    isMute s && s.node.kind = d.kind && s.node.start = d.start && s.node.stop = d.stop

/-- A site of a node that is not mute anywhere is not mute. -/
theorem isMute_of_isMuteAt (hs : s ∈ sites root) (h : isMuteAt root s.node = false) :
    isMute s = false := by
  rw [isMuteAt, List.any_eq_false] at h
  simpa using h s hs

/-- A declaration of a script, and the same declaration after a renaming. -/
structure Binding.Moves (r : Renaming) (root : Node) (b b' : Binding) : Prop where
  declaration : b'.declaration = r.apply b.declaration
  scope : b'.scope = r.apply b.scope
  within : root.Within b.declaration
  withinScope : root.Within b.scope

/-- An entry of a table of declarations, and the one that follows from it by a renaming. What is not
mute keeps its name, its value and its type. -/
structure Follows (r : Renaming) (root : Node) (entry entry' : String × Binding) : Prop where
  moves : entry.2.Moves r root entry'.2
  alike : isMuteAt root entry.2.declaration = false →
    entry.1 = entry'.1 ∧ Binding.Like (Renamed r root) entry.2 entry'.2

/-- A declaration of one name, if there is the name. -/
theorem follows_one (binder : Option Site) {value value' annotation annotation' : Option Site}
    {d scope : Node} (hd : root.Within d) (hscope : root.Within scope) :
    (isMuteAt root d = false → (∀ name ∈ binder, name.text = (r.applySite name).text) ∧
      Option.Rel (Site.Like (Renamed r root)) value value' ∧
      Option.Rel (Site.Like (Renamed r root)) annotation annotation') →
    List.Forall₂ (Follows r root)
      (match binder with
        | none => []
        | some name => [(name.text, ⟨d, value, annotation, scope⟩)])
      (match binder.map r.applySite with
        | none => []
        | some name => [(name.text, ⟨r.apply d, value', annotation', r.apply scope⟩)]) := by
  intro halike
  cases binder with
  | none => exact .nil
  | some name =>
      refine .cons ⟨⟨rfl, rfl, hd, hscope⟩, fun hmute => ?_⟩ .nil
      obtain ⟨hname, hvalue, htyped⟩ := halike hmute
      exact ⟨hname name rfl, hvalue, htyped⟩

section Declarations

variable (h : Fits r root)
include h

/-- A node is mute after a renaming that fits if it was before. -/
theorem Fits.isMuteAt_apply {d : Node} (hd : root.Within d) :
    isMuteAt (r.apply root) (r.apply d) = isMuteAt root d := by
  have hplace {x y : Nat} (hx : x ∈ offsets root) (hy : y ∈ offsets root) :
      r.place x = r.place y ↔ x = y := by
    have := h.le_iff hx hy
    have := h.le_iff hy hx
    omega
  rw [isMuteAt, isMuteAt, Renaming.sites_apply, List.any_map, Bool.eq_iff_iff, List.any_eq_true,
    List.any_eq_true]
  refine exists_congr fun s => and_congr_right fun hs => ?_
  have hwithin : root.Within s.node := Site.within_of_mem_all .root hs
  have hstart := hplace (start_mem_offsets hwithin) (start_mem_offsets hd)
  have hstop := hplace (stop_mem_offsets hwithin) (stop_mem_offsets hd)
  show (isMute (r.applySite s) && (r.apply s.node).kind = (r.apply d).kind &&
    (r.apply s.node).start = (r.apply d).start && (r.apply s.node).stop = (r.apply d).stop) = true
    ↔ _
  simp only [isMute_applySite, Renaming.kind_apply, Renaming.start_apply, Renaming.stop_apply,
    hstart, hstop]

/-- Outside signatures the name of a site that is not mute keeps its text. -/
theorem Fits.text_of_named? (hs : s ∈ sites root) (hmute : isMute s = false)
    (hkind : s.kind ∉ signatureKinds)
    {role : String} : ∀ name ∈ named? s role, name.text = (r.applySite name).text := by
  intro name hname
  obtain ⟨hchild, hidentifier⟩ := Option.filter_eq_some_iff.1 hname
  obtain ⟨c, hc, rfl⟩ := Option.map_eq_some_iff.1 hchild
  have hrenamed : Renamed r root c (r.apply c) :=
    Renamed.of_child ⟨s, hs, hmute, rfl, rfl⟩ hkind (List.mem_of_find?_eq_some hc)
  have hword : c.kind = "identifier" := of_decide_eq_true hidentifier
  exact h.likeness.word hrenamed (hword ▸ by decide)

/-- What is declared at a site follows from what was declared there. -/
theorem Fits.follows_bindingsAt (hs : s ∈ sites root) :
    List.Forall₂ (Follows r root) (bindingsAt root s)
      (bindingsAt (r.apply root) (r.applySite s)) := by
  have hwithin : root.Within s.node := Site.within_of_mem_all .root hs
  have hscope : root.Within (scopeOf root s) := (Module.within_scopeOf hs).1
  unfold bindingsAt
  dsimp only
  rw [kind_applySite, scopeOf_applySite, named?_applySite, named?_applySite]
  split
  next hkind =>
    refine follows_one _ hwithin hscope fun hmuteAt => ?_
    have hmute := isMute_of_isMuteAt hs hmuteAt
    have hopen : s.kind ∉ signatureKinds := by rw [hkind]; decide
    have hlike : s.Like (Renamed r root) (r.applySite s) := like_applySite hs hmute
    exact ⟨h.text_of_named? hs hmute hopen, h.likeness.childAt? hlike hopen "value",
      h.likeness.childAt? hlike hopen "type"⟩
  case h_2 hkind | h_3 hkind =>
    refine follows_one _ hwithin hscope fun hmuteAt => ?_
    have hmute := isMute_of_isMuteAt hs hmuteAt
    have hopen : s.kind ∉ signatureKinds := by rw [hkind]; decide
    exact ⟨h.text_of_named? hs hmute hopen, .none,
      h.likeness.childAt? (like_applySite hs hmute) hopen "type"⟩
  next =>
    rw [children_applySite, List.flatMap_map]
    refine List.rel_flatMap (R := fun p p' => p ∈ s.children ∧ p = p') ?_ ?_
    · exact List.forall₂_same.2 fun p hp => ⟨hp, rfl⟩
    rintro p _ ⟨hp, rfl⟩
    have hpSite : p ∈ sites root := Module.mem_sites_of_mem_children hs hp
    have hpWithin : root.Within p.node := Site.within_of_mem_all .root hpSite
    dsimp only
    rw [kind_applySite]
    -- parameters of functions without types stand for themselves
    by_cases hidentifier : p.kind = "identifier"
    · simp only [hidentifier]
      refine follows_one (some p) hpWithin hscope fun hmuteAt => ⟨?_, .none, .none⟩
      rintro _ ⟨rfl⟩
      have hmute := isMute_of_isMuteAt hpSite hmuteAt
      exact h.likeness.word ⟨p, hpSite, hmute, rfl, rfl⟩
        (by rw [show p.node.kind = _ from hidentifier]; decide)
    · by_cases hpattern : p.kind = "assignment_pattern"
      · simp only [hpattern, named?_applySite]
        refine follows_one _ hpWithin hscope fun hmuteAt => ⟨?_, .none, .none⟩
        have hmute := isMute_of_isMuteAt hpSite hmuteAt
        exact h.text_of_named? hpSite hmute (by rw [hpattern]; decide)
      · simp only
        exact .nil
  next hkind =>
    rw [child?_applySite]
    refine follows_one _ hwithin .root fun hmuteAt => ?_
    have hmute := isMute_of_isMuteAt hs hmuteAt
    refine ⟨fun name hname => ?_, .some (like_applySite hs hmute), .none⟩
    obtain ⟨c, hc, rfl⟩ := Option.map_eq_some_iff.1 hname
    have htexts := (h.keeps s hs hmute).texts ("enum_declaration", "name") (by decide) hkind
    rw [Renaming.childText?_apply, Node.childText?, hc] at htexts
    exact (Option.some.inj htexts).symm.trans (Renaming.text_apply r c).symm
  next => exact .nil

end Declarations

/-! ## Names that are used -/

/-- Without what is left out, the nearest declaration is the same, if it is not left out itself. -/
theorem nearest?_filter {place : Node} {kept : Binding → Bool} {bindings : List Binding}
    (hkept : ∀ b ∈ Module.nearest? place bindings, kept b = true) :
    Module.nearest? place (bindings.filter kept) = Module.nearest? place bindings := by
  induction bindings with
  | nil => rfl
  | cons b rest ih =>
      rw [Module.nearest?] at hkept ⊢
      cases hbest : Module.nearest? place rest with
      | none =>
          rw [Module.nearest?_eq_argmin, List.argmin_eq_none] at hbest
          subst hbest
          have hb : kept b = true := hkept b rfl
          rw [List.filter_cons_of_pos hb, List.filter_nil, Module.nearest?]
          rfl
      | some best =>
          rw [hbest] at ih hkept
          dsimp only at hkept ⊢
          by_cases hcloser : Module.closer place best b = true
          · -- `b` does not count, kept or not
            rw [if_pos hcloser] at hkept ⊢
            replace ih := ih hkept
            rw [List.filter_cons]
            split
            · rw [Module.nearest?, ih]
              exact if_pos hcloser
            · exact ih
          · -- no declaration behind `b` is nearer, so none of those that are kept is
            rw [if_neg hcloser] at hkept ⊢
            rw [List.filter_cons_of_pos (hkept b rfl), Module.nearest?]
            cases hother : Module.nearest? place (rest.filter kept) with
            | none => rfl
            | some other =>
                refine if_neg fun hnearer => hcloser ?_
                rw [Module.nearest?_eq_argmin] at hbest hother
                have hmem : other ∈ rest := List.mem_of_mem_filter (List.argmin_mem hother)
                have hleast := List.le_of_mem_argmin hmem hbest
                rw [Module.closer_iff] at hnearer ⊢
                exact lt_of_le_of_lt hleast hnearer

/-- `captured m name place` holds when the declaration of `name` that counts at `place` is only part
of a signature. -/
def captured (m : Module) (name : String) (place : Node) : Bool :=
  (m.lookup? name place).any fun b => isMuteAt m.root b.declaration

/-- `heard m name place` lists the declarations of `name` around `place` that are not mute. -/
def heard (m : Module) (name : String) (place : Node) : List Binding :=
  (((m.bindings.filter fun entry => !isMuteAt m.root entry.2.declaration).filter (·.1 = name)).map
    (·.2)).filter fun b => b.scope.contains place

/-- Names that are not captured are looked up among the declarations that are not mute. -/
theorem lookup?_of_not_captured {m : Module} {name : String} {place : Node}
    (h : captured m name place = false) :
    m.lookup? name place = Module.nearest? place (heard m name place) := by
  have hheard : heard m name place = (((m.bindings.filter (·.1 = name)).map (·.2)).filter
      fun b => b.scope.contains place).filter fun b => !isMuteAt m.root b.declaration := by
    simp only [heard, List.filter_map, List.filter_filter, Function.comp_def, Bool.and_comm,
      Bool.and_left_comm, Bool.and_assoc]
  rw [hheard]
  refine (nearest?_filter fun b hb => ?_).symm
  have hfound : m.lookup? name place = some b := hb
  rw [captured, hfound, Option.any_some] at h
  rw [h, Bool.not_false]

/-- Scripts of which the second is a renaming of the first, which no name is captured in that is
used. -/
structure Module.Renames (r : Renaming) (m m' : Module) : Prop where
  path : m.path = m'.path
  root : m'.root = r.apply m.root
  fits : Fits r m.root
  used : ∀ s ∈ sites m.root, isMute s = false → ∀ name ∈ usedName? s.node,
    captured m name s.node = false ∧ captured m' name (r.apply s.node) = false
  /-- What a signature declares in the script as a whole stands for nothing that is exported. -/
  exported : ∀ name, captured m name m.root = false ∧ captured m' name m'.root = false ∨
    m.Withholds name ∧ m'.Withholds name

section Scripts

variable {m m' : Module} (hm : m.Renames r m')
include hm

/-- The bindings of the renamed module follow those of the module. -/
theorem Module.Renames.follows_bindings :
    List.Forall₂ (Follows r m.root) m.bindings m'.bindings := by
  rw [m.bindings_eq, m'.bindings_eq, hm.root, Renaming.sites_apply, List.flatMap_map]
  refine List.rel_flatMap (R := fun s s' => s ∈ sites m.root ∧ s = s') ?_ ?_
  · exact List.forall₂_same.2 fun s hs => ⟨hs, rfl⟩
  · rintro s _ ⟨hs, rfl⟩
    exact hm.fits.follows_bindingsAt hs

/-- The declarations around a place that are not mute are the same after a renaming. -/
theorem Module.Renames.rel_heard {place : Node} (hplace : m.root.Within place) (name : String) :
    List.Forall₂ (fun b b' => b.scope.contains place = true ∧ b.Moves r m.root b' ∧
        Binding.Like (Renamed r m.root) b b') (heard m name place)
          (heard m' name (r.apply place)) := by
  have h := hm.fits
  have hkept : List.Forall₂ (fun entry entry' => entry.1 = entry'.1 ∧
        entry.2.Moves r m.root entry'.2 ∧ Binding.Like (Renamed r m.root) entry.2 entry'.2)
      (m.bindings.filter fun entry => !isMuteAt m.root entry.2.declaration)
      (m'.bindings.filter fun entry => !isMuteAt m'.root entry.2.declaration) := by
    have hfiltered :=
      hm.follows_bindings.filter (p := fun entry => !isMuteAt m.root entry.2.declaration)
      (q := fun entry => !isMuteAt m'.root entry.2.declaration) fun entry entry' hentry => by
        rw [hentry.moves.declaration, hm.root, h.isMuteAt_apply hentry.moves.within]
    refine hfiltered.attach.imp fun entry entry' ⟨hmem, hentry⟩ => ?_
    obtain ⟨hname, hlike⟩ := hentry.alike (by simpa using (List.mem_filter.1 hmem).2)
    exact ⟨hname, hentry.moves, hlike⟩
  have hnamed :
    List.Forall₂ (fun b b' => b.Moves r m.root b' ∧ Binding.Like (Renamed r m.root) b b')
      (((m.bindings.filter fun entry => !isMuteAt m.root entry.2.declaration).filter
        (·.1 = name)).map (·.2))
      (((m'.bindings.filter fun entry => !isMuteAt m'.root entry.2.declaration).filter
        (·.1 = name)).map
        (·.2)) :=
    List.rel_map (fun _ _ hentry => hentry.2) (hkept.filter fun _ _ hentry => by rw [hentry.1])
  have hvisible := hnamed.filter (p := fun b => b.scope.contains place)
    (q := fun b => b.scope.contains (r.apply place)) fun b b' hb => by
      rw [hb.1.scope, h.contains_apply hb.1.withinScope hplace]
  exact hvisible.attach.imp fun b b' ⟨hmem, hb⟩ => ⟨(List.mem_filter.1 hmem).2, hb⟩

/-- A name that is not captured has a declaration with the same value, if any. -/
theorem Module.Renames.lookup? {name : String} {place : Node} (hplace : m.root.Within place)
    (hbytes : place.start < place.stop ∨ place = m.root) (hfree : captured m name place = false)
    (hfree' : captured m' name (r.apply place) = false) :
    Option.Rel (Binding.Like (Renamed r m.root)) (m.lookup? name place)
      (m'.lookup? name (r.apply place)) := by
  have h := hm.fits
  rw [lookup?_of_not_captured hfree, lookup?_of_not_captured hfree']
  refine (Module.rel_nearest? (fun a a' b b' ha hb => ?_) (hm.rel_heard hplace name)).imp
    fun _ _ hb => hb.2.2
  obtain ⟨hain, ha, -⟩ := ha
  obtain ⟨hbin, hb, -⟩ := hb
  -- both scopes are around the place, so that the order of all offsets decides which is narrower
  have hnested := nested_of_contains h.laidOut ha.withinScope hb.withinScope hbytes hain hbin
  have hnarrower := h.narrower_iff ha.withinScope hb.withinScope hnested
  have hwider := h.narrower_iff hb.withinScope ha.withinScope hnested.symm
  have hwidth : (r.apply a.scope).width = (r.apply b.scope).width ↔
      a.scope.width = b.scope.width := by
    omega
  have hlt : (r.apply a.declaration).start < (r.apply b.declaration).start ↔
      a.declaration.start < b.declaration.start := by
    have := h.starts_iff hb.within ha.within
    omega
  have hgt : (r.apply b.declaration).start < (r.apply a.declaration).start ↔
      b.declaration.start < a.declaration.start := by
    have := h.starts_iff ha.within hb.within
    omega
  simp only [Module.closer_eq, Module.isPreferred, ha.scope, hb.scope, ha.declaration,
    hb.declaration, ne_eq,
    hwidth, hnarrower, hlt, hgt, h.starts_iff ha.within hplace, h.starts_iff hb.within hplace]

/-! ## Scripts that are alike -/

omit hm in
/-- What is mute is of no kind that is read wherever it stands. -/
theorem kind_ne_of_isMute (hmute : isMute s = true) (kind : String) (hkind : isActive kind = true) :
    s.node.kind ≠ kind := by
  intro heq
  have hactive : isMute s = false :=
    isMute_of_isActive (by rw [show s.kind = kind from heq]; exact hkind)
  rw [hactive] at hmute
  cases hmute

/-- The types of the two modules are related. -/
theorem Module.Renames.rel_types : List.Forall₂ (Keyed (Renamed r m.root)) m.types m'.types := by
  rw [m.types_eq, m'.types_eq, hm.root, Renaming.sites_apply, List.flatMap_map]
  refine List.rel_flatMap (R := fun s s' => s ∈ sites m.root ∧ s = s')
    (List.forall₂_same.2 fun s hs => ⟨hs, rfl⟩) ?_
  rintro s _ ⟨hs, rfl⟩
  dsimp only
  unfold typesAt
  rw [kind_applySite]
  -- what declares a type is read wherever it stands, also below a signature
  cases hmute : isMute s with
  | true =>
      split
      next hkind => exact absurd hkind (kind_ne_of_isMute hmute _ (by decide))
      next hkind => exact absurd hkind (kind_ne_of_isMute hmute _ (by decide))
      next hkind => exact absurd hkind (kind_ne_of_isMute hmute _ (by decide))
      next => exact .nil
  | false =>
      have hkeeps := (hm.fits.keeps s hs hmute).texts
      split
      case h_4 => exact .nil
      all_goals
        next hkind =>
          have htext : (r.applySite s).childText? "name" = s.childText? "name" :=
            hkeeps (s.node.kind, "name") (by rw [show s.node.kind = _ from hkind]; decide) rfl
          rw [htext]
          cases s.childText? "name" with
          | none => exact .nil
          | some name => exact .cons ⟨rfl, s, hs, hmute, rfl, rfl⟩ .nil

/-- Both modules import the same. -/
theorem Module.Renames.imports_eq : m.imports = m'.imports := by
  rw [m.imports_eq, m'.imports_eq, hm.root, Renaming.sites_apply, List.flatMap_map]
  refine List.flatMap_congr fun s hs => ?_
  show Module.importsAt s.node = Module.importsAt (r.apply s.node)
  cases hmute : isMute s with
  | false => exact (hm.fits.keeps s hs hmute).imports.symm
  | true =>
      have hkind := kind_ne_of_isMute hmute "import_statement" (by decide)
      simp [Module.importsAt, hkind]

/-- Both modules pass on the same. -/
theorem Module.Renames.reexports_eq : m.reexports = m'.reexports := by
  rw [m.reexports_eq, m'.reexports_eq, hm.root, Renaming.sites_apply, List.flatMap_map]
  refine List.flatMap_congr fun s hs => ?_
  show Module.reexportsAt s.node = Module.reexportsAt (r.apply s.node)
  cases hmute : isMute s with
  | false => exact (hm.fits.keeps s hs hmute).reexports.symm
  | true =>
      have hkind := kind_ne_of_isMute hmute "export_statement" (by decide)
      simp [Module.reexportsAt, hkind]

/-- The calls of the two modules are alike. -/
theorem Module.Renames.rel_calls :
    List.Forall₂ (Site.Like (Renamed r m.root)) (calls m.root) (calls m'.root) := by
  have hcalls : calls m'.root = (calls m.root).map r.applySite := by
    show (sites m'.root).filter _ = ((sites m.root).filter _).map r.applySite
    rw [hm.root, Renaming.sites_apply, List.filter_map]
    simp only [Function.comp_def, kind_applySite]
  rw [hcalls, List.forall₂_map_right_iff, List.forall₂_same]
  intro s hs
  obtain ⟨hs, hkind⟩ := List.mem_filter.1 hs
  have hkind : s.kind = "call_expression" := of_decide_eq_true hkind
  exact like_applySite hs (isMute_of_isActive (by rw [hkind]; decide))

omit hm in
/-- A type that is declared in a module is found there. -/
theorem isSome_type?_of_mem {m : Module} {name : String} (h : name ∈ declaredTypes m.root) :
    (m.type? name).isSome = true := by
  rw [declaredTypes, ← m.types_eq] at h
  obtain ⟨entry, hentry, rfl⟩ := List.mem_map.1 h
  exact List.lookup_isSome_iff.2 ⟨entry, List.mem_reverse.2 hentry, beq_self_eq_true _⟩

/-- Renamed scripts are read alike. -/
theorem Module.Renames.like : m.Like (Renamed r m.root) m' where
  path := hm.path
  tree := hm.fits.likeness
  calls := hm.rel_calls
  imports := hm.imports_eq
  reexports := hm.reexports_eq
  type? := fun name => rel_lookup (List.rel_reverse hm.rel_types) name
  labels := by
    rintro _ _ ⟨s, hs, hmute, rfl, rfl⟩ hkind
    rcases hm.fits.labels s hs hmute hkind with hknown | hdeclared | htext
    · exact .inl hknown
    · exact .inr (.inl (isSome_type?_of_mem hdeclared))
    · exact .inr (.inr (htext.symm.trans (Renaming.text_apply r s.node).symm))
  lookup? := by
    rintro _ _ name ⟨s, hs, hmute, rfl, rfl⟩ hused
    obtain ⟨hfree, hfree'⟩ := hm.used s hs hmute name hused
    have hbytes := hm.fits.filled s hs (by rw [hused]; rfl)
    exact hm.lookup? (Site.within_of_mem_all .root hs) (.inl hbytes) hfree hfree'
  exported := fun name => (hm.exported name).imp_left fun ⟨hfree, hfree'⟩ => by
    rw [hm.root] at hfree' ⊢
    exact hm.lookup? .root (.inr rfl) hfree hfree'

end Scripts

/-- The second script is the first one, or a renaming of it. -/
def Module.Renamed (m m' : Module) : Prop := m = m' ∨ ∃ r, m.Renames r m'

/-- What is seen of other modules is the same, but for renamings. -/
structure Modules.Renamed (modules others : Modules) : Prop where
  typed : modules.typed = others.typed
  imported : ∀ path specifier, Option.Rel Module.Renamed (modules.imported path specifier)
    (others.imported path specifier)
  declaring : ∀ name, Option.Rel Module.Renamed (modules.declaring name) (others.declaring name)

/-- A module and the renamed one are alike. -/
theorem Module.Renamed.alike {m m' : Module} (h : m.Renamed m') : m.Alike m' := by
  rcases h with rfl | ⟨r, hm⟩
  · exact ⟨Eq, m.like_self⟩
  · exact ⟨_, hm.like⟩

/-- Modules that are renamed are alike. -/
theorem Modules.Renamed.like {modules others : Modules} (h : modules.Renamed others) :
    modules.Like others where
  typed := h.typed
  imported := fun path specifier => (h.imported path specifier).imp fun _ _ => Module.Renamed.alike
  declaring := fun name => (h.declaring name).imp fun _ _ => Module.Renamed.alike

/-- Other names for the parameters of signatures without a body, in a script and in the modules that
it sees, leave the names, providers and properties of all events as they were, if no name that is
used elsewhere is declared by such a parameter, before or after, and no label of a generic type
tells the name. -/
theorem sent_of_renamed {modules others : Modules} {m m' : Module}
    (hmodules : modules.Renamed others) (hm : m.Renamed m') (signatures : List Signature) :
    (events modules signatures m).map Event.sent = (events others signatures m').map Event.sent :=
  sent_events hmodules.like hm.alike signatures

/-! ## Names that are not used -/

/-- `muteNames m` lists the names that signatures declare in `m`. -/
def muteNames (m : Module) : List String :=
  (m.bindings.filter fun entry => isMuteAt m.root entry.2.declaration).map (·.1)

/-- Only names that signatures declare are captured. -/
theorem captured_of_not_mem {m : Module} {name : String} (h : name ∉ muteNames m) (place : Node) :
    captured m name place = false := by
  cases hfound : m.lookup? name place with
  | none => rw [captured, hfound, Option.any_none]
  | some b =>
      rw [captured, hfound, Option.any_some, ← Bool.not_eq_true]
      intro hmute
      refine h (List.mem_map.2 ⟨(name, b), List.mem_filter.2 ⟨?_, hmute⟩, rfl⟩)
      exact (Module.nearest_of_lookup? hfound).1

/-- A renaming of parameters whose names are not used, before or after, and not exported. -/
theorem Module.Renames.of_unused {m m' : Module} (path : m.path = m'.path)
    (root : m'.root = r.apply m.root) (fits : Fits r m.root)
    (hused : ∀ s ∈ sites m.root, isMute s = false → ∀ name ∈ usedName? s.node,
      name ∉ muteNames m ++ muteNames m')
    (hexported : ∀ name ∈ muteNames m ++ muteNames m', m.Withholds name ∧ m'.Withholds name) :
    m.Renames r m' := by
  have hfree {name : String} (h : name ∉ muteNames m ++ muteNames m') (place place' : Node) :
      captured m name place = false ∧ captured m' name place' = false := by
    rw [List.mem_append, not_or] at h
    exact ⟨captured_of_not_mem h.1 place, captured_of_not_mem h.2 place'⟩
  refine ⟨path, root, fits, fun s hs hmute name hname => hfree (hused s hs hmute name hname) _ _,
    fun name => ?_⟩
  by_cases hdeclared : name ∈ muteNames m ++ muteNames m'
  · exact .inr (hexported name hdeclared)
  · exact .inl (hfree hdeclared _ _)

/-! ## A handler and a constant -/

/-- `textOf lines` is the text of a script with those lines. -/
def textOf (lines : List String) : String := String.join (lines.map (· ++ "\n"))

/-- `typedScript root` is the script with that tree, in TypeScript. -/
def typedScript (root : Node) : Module := .ofTree ⟨"a.ts"⟩ root

/-- `scriptOf lines` is the script with those lines, in TypeScript. -/
def scriptOf (lines : List String) : Module :=
  typedScript (read .typeScript ⟨(textOf lines).toUTF8⟩)

/-- The sample module has the tree that it is made from. -/
theorem root_typedScript (root : Node) : (typedScript root).root = root := rfl

/-- The sample modules have the same path. -/
theorem path_typedScript (root root' : Node) :
    (typedScript root).path = (typedScript root').path := rfl

/-- `handled parameter` is a script with a constant and the type of a handler, whose parameter has
that name. -/
def handled (parameter : String) : List String :=
  ["const E = 'Signup';", "type F = (" ++ parameter ++ ": string) => void;", "analytics.track(E);"]

/-- The renaming of `to` to `x`, which is shorter by one byte. -/
def shorter : Renaming :=
  .toText (fun offset => if offset ≤ 30 then offset else offset - 1) (textOf (handled "x"))

/-- The script whose handler has a parameter `to`, and the one with `x` for it, send the same
event. -/
theorem sent_of_renamed_of_handled :
    let m := scriptOf (handled "to")
    let m' := typedScript (shorter.apply m.root)
    Modules.Renamed .localTypes .localTypes ∧ m.Renamed m' ∧
      (events .localTypes [] m).map Event.sent = [("Signup", .segment, [])] ∧
      (events .localTypes [] m').map Event.sent = [("Signup", .segment, [])] := by
  intro m m'
  have hmodules : Modules.Renamed .localTypes .localTypes := ⟨rfl, fun _ _ => .none, fun _ => .none⟩
  have hchecked : (Fits shorter m.root ∧
        (∀ s ∈ sites m.root, isMute s = false → ∀ name ∈ usedName? s.node, name ∉ muteNames m ++
          muteNames m') ∧
        ∀ name ∈ muteNames m ++ muteNames m', m.Withholds name ∧ m'.Withholds name) ∧
      (events .localTypes [] m).map Event.sent = [("Signup", .segment, [])] := by
    decide +kernel
  obtain ⟨⟨hfits, hused, hexported⟩, hsent⟩ := hchecked
  have hrenamed : m.Renamed m' :=
    .inr ⟨shorter, .of_unused (path_typedScript _ _) (root_typedScript _) hfits hused hexported⟩
  exact ⟨hmodules, hrenamed, hsent, (sent_of_renamed hmodules hrenamed []).symm.trans hsent⟩

/-- A parameter with the name of the constant hides it from the rest of the file, although the
parameter is only part of a type: the event comes to light when the parameter is called
otherwise. -/
theorem parameter_hides_constant :
    let m := scriptOf (handled "E")
    let r : Renaming := .toText id (textOf (handled "x"))
    Fits r m.root ∧ (events .localTypes [] m).map Event.sent = [] ∧
      (events .localTypes [] (typedScript (r.apply m.root))).map Event.sent =
        [("Signup", .segment, [])] := by
  decide +kernel

end TrackingPlan.Script
