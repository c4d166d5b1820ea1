import TrackingPlan.Proofs.Comments
import TrackingPlan.Proofs.RubyNames
import TrackingPlan.Proofs.SourceOrder

/-!
# The hashes of variables

The assignments of a Ruby file are gathered from its end to its start, an outer one before those in
it, and the one gathered last before a use counts. `pairwise_outlasts_lastFirst` says that every
other one stands around that assignment or behind it. So a variable that is assigned once has its
hash, and of several assignments the one that ends first is taken: `hash_of_first_assignment`. In
`reassigned` that is not the latest one.
-/

namespace TrackingPlan

/-! ## From the end to the start -/

namespace Site

/-- The sites that named children lead to from `s`. -/
inductive Reaches (s : Site) : Site → Prop where
  | self : Reaches s s
  | child {t c : Site} (ht : Reaches s t) (hc : c ∈ t.children) : Reaches s c

/-- The node of `s` is around that of `t`, or starts where it has ended. -/
def Outlasts (s t : Site) : Prop := s.node.contains t.node = true ∨ t.node.stop ≤ s.node.start

variable {s t c : Site}

/-- What a site reaches through another one it reaches. -/
theorem Reaches.trans (hc : s.Reaches c) (ht : c.Reaches t) : s.Reaches t := by
  induction ht with
  | self => exact hc
  | child _ hmem ih => exact .child ih hmem

/-- What a site reaches stands in it. -/
theorem Reaches.within (h : s.Reaches t) : s.node.Within t.node := by
  induction h with
  | self => exact .root
  | child _ hmem ih => exact within_children ih hmem

/-- A site that is reached is the start, or is reached from one of its children. -/
theorem Reaches.eq_or_child (h : s.Reaches t) : t = s ∨ ∃ c ∈ s.children, c.Reaches t := by
  induction h with
  | self => exact .inl rfl
  | @child u d _ hmem ih =>
      right
      rcases ih with rfl | ⟨c, hc, hreach⟩
      · exact ⟨d, hmem, .self⟩
      · exact ⟨c, hc, .child hreach hmem⟩

end Site

namespace Ruby

variable {s t : Site} {root : Node}

/-- The search finds the sites that named children lead to, and no others. -/
theorem mem_lastFirst_iff : t ∈ lastFirst s ↔ s.Reaches t := by
  induction s using Site.induction_size with
  | h s ih =>
      rw [lastFirst_eq_cons, List.mem_cons, List.mem_flatMap]
      constructor
      · rintro (rfl | ⟨c, hc, ht⟩)
        · exact .self
        · have hmem := List.mem_reverse.1 hc
          have hreach := (ih c (Site.size_children_lt hmem)).1 ht
          exact (Site.Reaches.child .self hmem).trans hreach
      · intro h
        rcases h.eq_or_child with rfl | ⟨c, hc, hreach⟩
        · exact .inl rfl
        · exact .inr ⟨c, List.mem_reverse.2 hc, (ih c (Site.size_children_lt hc)).2 hreach⟩

/-- The children of a node stand one behind the other. -/
theorem pairwise_children (h : s.node.HoldsChildren) :
    s.children.Pairwise fun c d => c.node.stop ≤ d.node.start := by
  rw [Site.children, List.pairwise_map]
  show (s.node.children.filter _).Pairwise fun a b => a.stop ≤ b.start
  exact h.inOrder.sublist List.filter_sublist

/-- What is found early stands around what is found later, or behind it. -/
theorem pairwise_outlasts_lastFirst (h : ∀ n, s.node.Within n → n.HoldsChildren) :
    (lastFirst s).Pairwise Site.Outlasts := by
  induction s using Site.induction_size with
  | h s ih =>
      have hinner : ∀ c ∈ s.children, ∀ n, c.node.Within n → n.HoldsChildren := fun c hc n hn =>
        h n ((Site.within_children .root hc).trans hn)
      have hspan : ∀ c ∈ s.children, ∀ t ∈ lastFirst c,
          c.node.start ≤ t.node.start ∧ t.node.stop ≤ c.node.stop := fun c hc t ht =>
        Node.contains_of_within (hinner c hc) (mem_lastFirst_iff.1 ht).within
      rw [lastFirst_eq_cons]
      refine List.pairwise_cons.2 ⟨fun t ht =>
        .inl ?_, List.pairwise_flatMap.2 ⟨fun c hc => ?_, ?_⟩⟩
      · obtain ⟨c, hc, ht⟩ := List.mem_flatMap.1 ht
        have hmem := List.mem_reverse.1 hc
        have hreach : s.Reaches t := (Site.Reaches.child .self hmem).trans (mem_lastFirst_iff.1 ht)
        exact Node.contains_iff.2 (Node.contains_of_within h hreach.within)
      · have hmem := List.mem_reverse.1 hc
        exact ih c (Site.size_children_lt hmem) (hinner c hmem)
      · -- the children are searched from the last one on
        rw [List.pairwise_reverse]
        refine (pairwise_children (h s.node .root)).imp_of_mem
          fun {c d} hc hd hcd t ht u hu => .inr ?_
        have hfirst := (hspan c hc u hu).2
        have hsecond := (hspan d hd t ht).1
        omega

/-! ## Assignments before a use -/

/-- The assignment at `a` gives `hash` to the variable that is named at `use`, before that. -/
structure AssignsBefore (root : Node) (use a hash : Site) : Prop where
  reached : (Site.root root).Reaches a
  kind : a.kind = "assignment"
  assigned : assignedHash? a = some (use.text, hash)
  before : hash.node.start < use.node.start

/-- `hashBefore? use a` is the hash that the assignment at `a` gives to the variable at `use` before
that. -/
def hashBefore? (use a : Site) : Option Site :=
  if a.kind = "assignment" then
    ((assignedHash? a).filter fun (name, hash) =>
      name = use.text && hash.node.start < use.node.start).map (·.2)
  else none

/-- A hash is assigned before a use if it is that of an assignment to the same name that starts
earlier. -/
theorem hashBefore?_eq_some_iff {use a hash : Site} : hashBefore? use a = some hash ↔
    a.kind = "assignment" ∧ assignedHash? a = some (use.text, hash) ∧
    hash.node.start < use.node.start := by
  unfold hashBefore?
  by_cases hkind : a.kind = "assignment"
  · cases hassigned : assignedHash? a with
    | none => simp [hkind]
    | some entry =>
        obtain ⟨name, found⟩ := entry
        by_cases hname : name = use.text ∧ found.node.start < use.node.start
        · simp only [if_pos hkind, Option.filter_some, hname, decide_true, Bool.and_self, if_true]
          constructor
          · intro h
            obtain rfl : found = hash := Option.some.inj h
            exact ⟨hkind, rfl, hname.2⟩
          · rintro ⟨-, heq, -⟩
            simpa using heq
        · have hnot :
              ¬(decide (name = use.text) && decide (found.node.start < use.node.start)) = true := by
            simpa using hname
          simp only [if_pos hkind, Option.filter_some, if_neg hnot, Option.map_none, reduceCtorEq,
            false_iff]
          rintro ⟨-, heq, hbefore⟩
          obtain ⟨rfl, rfl⟩ := Prod.mk.inj (Option.some.inj heq)
          exact hname ⟨rfl, hbefore⟩
  · simp [hkind]

/-- An assignment before a use is one of the sites that has a hash for it. -/
theorem assignsBefore_iff {use a hash : Site} : AssignsBefore root use a hash ↔
    a ∈ lastFirst (Site.root root) ∧ hashBefore? use a = some hash := by
  rw [hashBefore?_eq_some_iff, mem_lastFirst_iff]
  exact ⟨fun ⟨reached, kind, assigned, before⟩ => ⟨reached, kind, assigned, before⟩,
    fun ⟨reached, kind, assigned, before⟩ => ⟨reached, kind, assigned, before⟩⟩

/-- An assigned hash stands in the assignment. -/
theorem within_assignedHash? {a hash : Site} {name : String}
    (h : assignedHash? a = some (name, hash)) :
    a.node.Within hash.node := by
  unfold assignedHash? at h
  split at h
  next left found hleft hfound =>
    cases h
    obtain ⟨right, hright, hhash⟩ := Option.bind_eq_some_iff.1 hfound
    exact within_hashOf? (Site.within_child? .root hright) hhash
  · cases h

/-- An assigned hash starts in the assignment. -/
theorem hash_span (h : root.LaidOut) {use a hash : Site} (ha : AssignsBefore root use a hash) :
    a.node.start ≤ hash.node.start ∧ hash.node.start ≤ a.node.stop := by
  have hholds : ∀ n, a.node.Within n → n.HoldsChildren := fun n hn =>
    h.holdsChildren_of_within (ha.reached.within.trans hn)
  have hwithin := within_assignedHash? ha.assigned
  have hspan := Node.contains_of_within hholds hwithin
  have hrange := (hholds _ hwithin).range
  omega

/-- The last result comes from an element that all others with a result stand before. -/
theorem exists_of_getLast?_filterMap {α β : Type} {R : α → α → Prop} {f : α → Option β}
    {places : List α}
    (h : places.Pairwise R) {found : β} (hfound : (places.filterMap f).getLast? = some found) :
    ∃ a ∈ places, f a = some found ∧ ∀ b ∈ places, ∀ other, f b = some other → b = a ∨ R b a := by
  obtain ⟨before, hbefore⟩ := List.getLast?_eq_some_iff.1 hfound
  obtain ⟨early, late, rfl, -, hlate⟩ := List.filterMap_eq_append_iff.1 hbefore
  obtain ⟨skipped, a, rest, rfl, hskipped, ha, hrest⟩ := List.filterMap_eq_cons_iff.1 hlate
  have hafter := List.filterMap_eq_nil_iff.1 hrest
  refine ⟨a, by simp, ha, fun b hb other hother => ?_⟩
  rw [List.pairwise_append, List.pairwise_append] at h
  simp only [List.mem_append, List.mem_cons] at hb
  rcases hb with hearly | hmiddle | rfl | hlast
  · exact .inr (h.2.2 b hearly a (by simp))
  · simp [hskipped b hmiddle] at hother
  · exact .inl rfl
  · simp [hafter b hlast] at hother

/-- A variable has the hash that was gathered last. -/
theorem resolveHash?_eq_getLast? (index : Option ConstantIndex) (path : Path) {use : Site}
    (huse : use.kind = "identifier") : (Unit.ofTree index path root).resolveHash? use =
      ((lastFirst (Site.root root)).filterMap (hashBefore? use)).getLast? := by
  have hown : hashOf? use = none := by
    unfold hashOf?
    simp [huse]
  rw [Unit.resolveHash?, hown]
  simp only [huse, if_true, Unit.ofTree]
  rw [← List.getLast?_map, List.filterMap_filter, List.filter_filterMap, List.map_filterMap]
  congr 2
  funext a
  by_cases hkind : a.kind = "assignment"
  · simp only [hashBefore?, hkind, decide_true, if_true]
  · simp [hashBefore?, hkind]

/-- Of the assignments of hashes to a variable before a use, the one that ends first counts: all
others stand around it or behind it. So the hash is the one of the earliest where they stand one
behind the other, and the only one is always found. -/
theorem hash_of_first_assignment (index : Option ConstantIndex) (path : Path) (h : root.LaidOut)
    {use : Site} (huse : use.kind = "identifier") :
    ((Unit.ofTree index path root).resolveHash? use = none ↔
      ∀ a hash, ¬AssignsBefore root use a hash) ∧
    (∀ hash, (Unit.ofTree index path root).resolveHash? use = some hash →
      ∃ a, AssignsBefore root use a hash ∧ ∀ b other, AssignsBefore root use b other →
        b.node.contains a.node = true ∨
          a.node.stop ≤ b.node.start ∧ hash.node.start ≤ other.node.start) ∧
    (∀ a hash, AssignsBefore root use a hash → (∀ b other, AssignsBefore root use b other → b = a) →
      (Unit.ofTree index path root).resolveHash? use = some hash ∧
        ∀ b other, AssignsBefore root use b other → other.node.start ≤ hash.node.start) := by
  have hnone : (Unit.ofTree index path root).resolveHash? use = none ↔
      ∀ a hash, ¬AssignsBefore root use a hash := by
    rw [resolveHash?_eq_getLast? index path huse, List.getLast?_eq_none_iff,
      List.filterMap_eq_nil_iff]
    simp only [assignsBefore_iff, not_and]
    exact ⟨fun h a hash ha hhash => by simp [h a ha] at hhash,
      fun h a ha => Option.eq_none_iff_forall_ne_some.2 fun hash => h a hash ha⟩
  have hfirst : ∀ hash, (Unit.ofTree index path root).resolveHash? use = some hash →
      ∃ a, AssignsBefore root use a hash ∧ ∀ b other, AssignsBefore root use b other →
        b.node.contains a.node = true ∨
          a.node.stop ≤ b.node.start ∧ hash.node.start ≤ other.node.start := by
    intro hash hhash
    rw [resolveHash?_eq_getLast? index path huse] at hhash
    have hordered := pairwise_outlasts_lastFirst (s := Site.root root) fun n hn =>
      h.holdsChildren_of_within hn
    obtain ⟨a, hmem, hassigned, hothers⟩ := exists_of_getLast?_filterMap hordered hhash
    have ha : AssignsBefore root use a hash := assignsBefore_iff.2 ⟨hmem, hassigned⟩
    refine ⟨a, ha, fun b other hb => ?_⟩
    obtain ⟨hbmem, hother⟩ := assignsBefore_iff.1 hb
    rcases hothers b hbmem other hother with rfl | haround | hbehind
    · exact .inl (Node.contains_iff.2 ⟨Nat.le_refl _, Nat.le_refl _⟩)
    · exact .inl haround
    · -- the hashes stand in their assignments, so they are in the same order
      have hin := hash_span h ha
      have hbin := hash_span h hb
      exact .inr ⟨hbehind, by omega⟩
  refine ⟨hnone, hfirst, fun a hash ha honly => ?_⟩
  cases hfound : (Unit.ofTree index path root).resolveHash? use with
  | none => exact absurd ha (hnone.1 hfound a hash)
  | some found =>
      have hsame : ∀ b other, AssignsBefore root use b other → other = hash := by
        intro b other hb
        obtain rfl := honly b other hb
        have hboth := hb.assigned.symm.trans ha.assigned
        exact (Prod.mk.inj (Option.some.inj hboth)).2
      obtain ⟨b, hb, -⟩ := hfirst found hfound
      refine ⟨by rw [hsame b found hb], fun b other hb => ?_⟩
      rw [hsame b other hb]

/-! ## A variable assigned once, and twice -/

/-- The file with the lines `lines`. -/
def fileOf (lines : List String) : Node := read ⟨(String.join (lines.map (· ++ "\n"))).toUTF8⟩

/-- A file that assigns a hash once. -/
def assignedOnce : Node := fileOf ["data = { a: 1 }", "track('Signup', data)"]

/-- A file that assigns a hash twice before the variable is used. -/
def reassigned : Node := fileOf ["data = { a: 1 }", "data = { b: 2 }", "track('Signup', data)"]

/-- `lastName? root` is the last name in a file. -/
def lastName? (root : Node) : Option Site :=
  ((Site.root root).all.filter (·.kind = "identifier")).getLast?

/-- The assignments before the last name of a file with their hashes, in the order in which they are
found. -/
def assignments (root : Node) : List (Site × Site) :=
  match lastName? root with
  | none => []
  | some use =>
    (lastFirst (Site.root root)).filterMap fun a => (hashBefore? use a).map fun hash => (a, hash)

/-- The last name is an identifier of the file. -/
theorem kind_of_lastName? {use : Site} (h : lastName? root = some use) :
    use ∈ (Site.root root).all ∧ use.kind = "identifier" := by
  have hmem := List.mem_of_getLast? h
  simpa using hmem

/-- Where something is assigned, there is a last name. -/
theorem exists_lastName? (h : assignments root ≠ []) : ∃ use, lastName? root = some use := by
  refine Option.ne_none_iff_exists'.1 fun hnone => h ?_
  rw [assignments, hnone]

/-- The assignments of the file are those before its last name. -/
theorem mem_assignments_iff {use a hash : Site} (huse : lastName? root = some use) :
    (a, hash) ∈ assignments root ↔ AssignsBefore root use a hash := by
  rw [assignments, huse, assignsBefore_iff, List.mem_filterMap]
  constructor
  · rintro ⟨b, hb, heq⟩
    obtain ⟨found, hfound, heq⟩ := Option.map_eq_some_iff.1 heq
    obtain ⟨rfl, rfl⟩ := Prod.mk.inj heq
    exact ⟨hb, hfound⟩
  · rintro ⟨ha, hhash⟩
    exact ⟨a, ha, by rw [hhash]; rfl⟩

/-- The last name leads to the hash of the assignment that is listed last. -/
theorem resolveHash?_eq_getLast?_assignments {use : Site} (path : Path)
    (huse : lastName? root = some use) :
    (Unit.ofTree none path root).resolveHash? use = ((assignments root).map (·.2)).getLast? := by
  rw [resolveHash?_eq_getLast? none path (kind_of_lastName? huse).2, assignments, huse]
  show _ = (List.map _ (List.filterMap _ _)).getLast?
  rw [List.map_filterMap]
  simp only [Option.map_map, Function.comp_def, Option.map_id']

/-- The only hash of a variable is found. -/
theorem hash_of_first_assignment_of_only :
    assignedOnce.LaidOut ∧ ∃ use a hash, use.kind = "identifier" ∧
    AssignsBefore assignedOnce use a hash ∧
      (∀ b other, AssignsBefore assignedOnce use b other → b = a) ∧ hash.text = "{ a: 1 }" ∧
      (Unit.ofTree none ⟨"a.rb"⟩ assignedOnce).resolveHash? use = some hash := by
  obtain ⟨hlaid, hview⟩ : assignedOnce.LaidOut ∧
      (assignments assignedOnce).map (fun entry => entry.2.text) = ["{ a: 1 }"] := by
    decide +kernel
  obtain ⟨use, huse⟩ : ∃ use, lastName? assignedOnce = some use :=
    exists_lastName? fun hnil => by simp [hnil] at hview
  obtain ⟨⟨a, hash⟩, hassignments, htext⟩ := List.map_eq_singleton_iff.1 hview
  have hkind := (kind_of_lastName? huse).2
  have ha : AssignsBefore assignedOnce use a hash :=
    (mem_assignments_iff huse).1 (by simp [hassignments])
  have honly : ∀ b other, AssignsBefore assignedOnce use b other → b = a := by
    intro b other hb
    have hmem := (mem_assignments_iff huse).2 hb
    rw [hassignments, List.mem_singleton] at hmem
    exact (Prod.mk.inj hmem).1
  have hresolved := (hash_of_first_assignment none ⟨"a.rb"⟩ hlaid hkind).2.2 a hash ha honly
  exact ⟨hlaid, use, a, hash, hkind, ha, honly, htext, hresolved.1⟩

/-- The second hash of a variable is passed over, and the event has the properties of the first
one. -/
theorem later_hash_ignored :
    ∃ use ∈ (Site.root reassigned).all, ∃ a hash b other, use.kind = "identifier" ∧
      AssignsBefore reassigned use a hash ∧ AssignsBefore reassigned use b other ∧
      hash.node.start < other.node.start ∧
      (Unit.ofTree none ⟨"a.rb"⟩ reassigned).resolveHash? use = some hash ∧
      (events none [⟨"track", ["track"], 0, 1, []⟩] ⟨"a.rb"⟩ reassigned).map (·.properties) =
        [[("a", .number)]] := by
  obtain ⟨hview, hevents⟩ :
    (assignments reassigned).map (fun entry => entry.2.node.start) = [23, 7] ∧
      (events none [⟨"track", ["track"], 0, 1, []⟩] ⟨"a.rb"⟩ reassigned).map (·.properties) =
        [[("a", .number)]] := by
    decide +kernel
  obtain ⟨use, huse⟩ : ∃ use, lastName? reassigned = some use :=
    exists_lastName? fun hnil => by simp [hnil] at hview
  obtain ⟨⟨b, other⟩, rest, hassignments, hother, hrest⟩ := List.map_eq_cons_iff.1 hview
  obtain ⟨⟨a, hash⟩, rfl, hhash⟩ := List.map_eq_singleton_iff.1 hrest
  have hresolved := resolveHash?_eq_getLast?_assignments ⟨"a.rb"⟩ huse
  rw [hassignments] at hresolved
  refine ⟨use, (kind_of_lastName? huse).1, a, hash, b, other, (kind_of_lastName? huse).2,
    (mem_assignments_iff huse).1 (by simp [hassignments]),
    (mem_assignments_iff huse).1 (by simp [hassignments]), ?_, hresolved, hevents⟩
  have hfirst : hash.node.start = 7 := hhash
  have hlater : other.node.start = 23 := hother
  omega

end Ruby

end TrackingPlan
