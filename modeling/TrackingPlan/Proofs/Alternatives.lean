import Mathlib.Data.List.Dedup
import Mathlib.Data.List.DropRight
import Mathlib.Data.List.Pairwise
import TrackingPlan.Proofs.CanonicalSchemas

/-!
# The alternatives of a label

A label with several alternatives has bars between them. `alternatives_intercalate` says that
joining labels joins their alternatives, so that a union whose members are labels themselves may
list an alternative twice. It does exactly if two different members have one in common, as
`eachOnce_union_iff` says, since only members that are equal as a whole are left out. The items of
arrays have a label of their own making: `EachOnce.arrayItems`.
-/

namespace TrackingPlan.Schema

variable {text : String} {members : List Schema} {s : Schema}

/-! ## Texts with bars -/

/-- `trim cs` is `cs` without the blanks around it. -/
def trim (cs : List Char) : List Char := (cs.rdropWhile (· = ' ')).dropWhile (· = ' ')

/-- `alternatives text` lists what stands between the bars of a label, without the blanks around
it. -/
def alternatives (text : String) : List String :=
  ((text.toList.splitOn '|').map trim).map String.ofList

/-- What is cut off at the end of a list with one more element in front. -/
theorem rdropWhile_cons (p : Char → Bool) (c : Char) (cs : List Char) :
    (c :: cs).rdropWhile p = if cs.rdropWhile p = [] then [c].rdropWhile p
      else c :: cs.rdropWhile p := by
  simp only [List.rdropWhile, List.reverse_cons, List.dropWhile_append, List.reverse_eq_nil_iff,
    List.isEmpty_iff, List.nil_append, List.reverse_nil]
  split
  · rfl
  · rw [List.reverse_append, List.reverse_singleton, List.singleton_append]

/-- A blank in front is trimmed away. -/
theorem trim_cons_blank (cs : List Char) : trim (' ' :: cs) = trim cs := by
  rw [trim, rdropWhile_cons]
  split
  next hblank =>
    rw [trim, hblank]
    rfl
  next => rfl

/-- Splitting goes on with the first part, unless a bar stands at the front. -/
theorem splitOn_cons (bar c : Char) (cs : List Char) : (c :: cs).splitOn bar =
    if c == bar then [] :: cs.splitOn bar else (cs.splitOn bar).modifyHead (c :: ·) := by
  rw [List.splitOn_eq_splitOnP, List.splitOn_eq_splitOnP, List.splitOnP_cons_eq_if_modifyHead]

/-- A blank in front is cut off. -/
theorem map_trim_splitOn_cons (cs : List Char) :
    ((' ' :: cs).splitOn '|').map trim = (cs.splitOn '|').map trim := by
  rw [splitOn_cons, if_neg (by decide)]
  cases hpieces : cs.splitOn '|' with
  | nil => exact absurd hpieces (List.splitOn_ne_nil _ _)
  | cons first rest => simp [trim_cons_blank]

/-- A blank at the end is cut off. -/
theorem map_rdropWhile_splitOn_concat (cs : List Char) :
    ((cs ++ [' ']).splitOn '|').map (List.rdropWhile (· = ' ')) =
      (cs.splitOn '|').map (List.rdropWhile (· = ' ')) := by
  induction cs with
  | nil => decide
  | cons c cs ih =>
      rw [List.cons_append, splitOn_cons, splitOn_cons]
      split
      · rw [List.map_cons, List.map_cons, ih]
      · -- the pieces differ in the first one at most, and only in blanks at its end
        cases hpieces : (cs ++ [' ']).splitOn '|' with
        | nil => exact absurd hpieces (List.splitOn_ne_nil _ _)
        | cons first rest =>
            cases hpieces' : cs.splitOn '|' with
            | nil => exact absurd hpieces' (List.splitOn_ne_nil _ _)
            | cons first' rest' =>
                rw [hpieces, hpieces', List.map_cons, List.map_cons] at ih
                obtain ⟨hfirst, hrest⟩ := List.cons.inj ih
                rw [List.modifyHead_cons, List.modifyHead_cons, List.map_cons, List.map_cons, hrest,
                  rdropWhile_cons, hfirst, ← rdropWhile_cons]

/-- A blank at the end does not change the trimmed parts. -/
theorem map_trim_splitOn_concat (cs : List Char) :
    ((cs ++ [' ']).splitOn '|').map trim = (cs.splitOn '|').map trim := by
  have hcut := congrArg (List.map (List.dropWhile (· = ' '))) (map_rdropWhile_splitOn_concat cs)
  rwa [List.map_map, List.map_map] at hcut

/-- The alternatives of two texts with a bar between them are those of both. -/
theorem alternatives_append (first second : String) :
    alternatives (first ++ " | " ++ second) = alternatives first ++ alternatives second := by
  have hchars : (first ++ " | " ++ second).toList = (first.toList ++ [' ']) ++ '|' ::
      (' ' :: second.toList) := by
    rw [String.toList_append, String.toList_append, show (" | " : String).toList =
      [' ', '|', ' '] from rfl]
    simp
  have hsplit : ((first.toList ++ [' ']) ++ '|' :: (' ' :: second.toList)).splitOn '|' =
      (first.toList ++ [' ']).splitOn '|' ++ (' ' :: second.toList).splitOn '|' := by
    simp only [List.splitOn_eq_splitOnP]
    exact List.splitOnP_append_cons _ _ (by decide)
  rw [alternatives, hchars, hsplit, List.map_append, map_trim_splitOn_concat, map_trim_splitOn_cons,
    List.map_append]
  rfl

/-- Every text has an alternative, be it an empty one. -/
theorem alternatives_ne_nil (text : String) : alternatives text ≠ [] := by
  rw [alternatives, Ne, List.map_eq_nil_iff, List.map_eq_nil_iff]
  exact List.splitOn_ne_nil _ _

/-- The alternatives of joined labels are those of the labels. -/
theorem alternatives_intercalate {labels : List String} (h : labels ≠ []) :
    alternatives (" | ".intercalate labels) = labels.flatMap alternatives := by
  induction labels with
  | nil => exact absurd rfl h
  | cons first rest ih =>
      cases rest with
      | nil => simp
      | cons second rest =>
          rw [String.intercalate_cons_cons, alternatives_append, ih (List.cons_ne_nil second rest)]
          rfl

/-- However a label is seen as joined from parts, the parts are different if its alternatives
are. -/
theorem nodup_of_intercalate {parts : List String}
    (h : (alternatives (" | ".intercalate parts)).Nodup) :
    parts.Nodup := by
  by_cases hparts : parts = []
  · rw [hparts]
    exact List.nodup_nil
  · rw [alternatives_intercalate hparts, List.nodup_flatMap] at h
    refine h.2.imp ?_
    rintro part _ hdisjoint rfl
    obtain ⟨alternative, halternative⟩ := List.exists_mem_of_ne_nil _ (alternatives_ne_nil part)
    exact hdisjoint halternative halternative

/-! ## Schemas whose labels have no alternative twice -/

/-- Every label in the schema lists each of its alternatives once. -/
inductive EachOnce : Schema → Prop where
  | primitive {type : Primitive} (h : ∀ text, type = .label text → (alternatives text).Nodup) :
      EachOnce (.primitive type)
  | array {items : Schema} (h : EachOnce items) : EachOnce (.array items)
  | object {fields : List (String × Schema)} (h : ∀ field ∈ fields, EachOnce field.2) :
      EachOnce (.object fields)

/-- The fields of an object repeat nothing if the object repeats nothing. -/
theorem EachOnce.of_mem {fields : List (String × Schema)} (h : (Schema.object fields).EachOnce)
    {field : String × Schema} (hfield : field ∈ fields) : field.2.EachOnce := by
  cases h with
  | object h => exact h field hfield

/-- The names of the known primitives are alternatives of their own, so that it is the text that
counts. -/
theorem eachOnce_label_iff : (label text).EachOnce ↔ (alternatives text).Nodup := by
  constructor
  · intro h
    by_cases hknown : text ∈ Primitive.knownNames
    · -- a known name has no bars
      have honce : ∀ name ∈ Primitive.knownNames, (alternatives name).Nodup := by decide
      exact honce text hknown
    · have hlabel : Primitive.ofName text = .label text := by
        simp only [Primitive.knownNames, List.mem_cons, List.not_mem_nil, or_false,
          not_or] at hknown
        simp [Primitive.ofName, hknown]
      cases h with
      | primitive h => exact h text hlabel
  · intro h
    refine .primitive ?_
    intro other hother
    have hname : text = other := by
      have hnames := congrArg Primitive.name hother
      rwa [Primitive.name_ofName] at hnames
    exact hname ▸ h

/-- To repeat no alternative is kept by all that makes schemas out of others. -/
theorem eachOnce_invariant : Invariant EachOnce where
  primitive _ htype := .primitive fun text hlabel => absurd hlabel (htype text)
  undefined := eachOnce_label_iff.2 (by decide)
  array := ⟨fun h => by cases h; assumption, .array⟩
  nil := .object (by simp)
  insert h hs := by
    refine .object fun field hfield => ?_
    rcases Named.mem_of_mem_insert hfield with rfl | hmem
    · exact hs
    · exact h.of_mem hmem
  erase _ h := .object fun _ hfield => h.of_mem (List.mem_filter.1 hfield).1
  of_mem h := h.of_mem

/-! ## Unions -/

/-- Two different members have no alternative in common, and neither of them has one twice. -/
def Apart (members : List Schema) : Prop :=
  ∀ s ∈ members, ∀ t ∈ members, s ≠ t → (alternatives s.typeLabel ++ alternatives t.typeLabel).Nodup

instance (members : List Schema) : Decidable (Apart members) :=
  inferInstanceAs (Decidable (∀ s ∈ members, ∀ t ∈ members, _ → _))

/-- The distinct members are listed once each. -/
theorem nodup_distinct (members : List Schema) : (distinct members).Nodup := by
  refine List.foldlRecOn (motive := List.Nodup) members _ List.nodup_nil ?_
  intro kept hkept s _
  split
  · exact hkept
  next hnew =>
    rw [← List.concat_eq_append]
    exact hkept.concat hnew

/-- No member is lost among the distinct ones. -/
theorem subset_distinct (members : List Schema) : members ⊆ distinct members := by
  -- of the members that have been seen, each is kept
  induction members using List.reverseRecOn with
  | nil => exact List.nil_subset _
  | append_singleton members s ih =>
      have hlast : distinct (members ++ [s]) =
          if s ∈ distinct members then distinct members else distinct members ++ [s] := by
        rw [distinct, List.foldl_append, List.foldl_cons, List.foldl_nil]
        rfl
      rw [hlast]
      split
      next hseen => exact List.append_subset.2 ⟨ih, by simpa using hseen⟩
      next =>
        have hkept := List.Subset.trans ih (List.subset_append_left (distinct members) [s])
        exact List.append_subset.2 ⟨hkept, List.subset_append_right _ _⟩

/-- The distinct members are the members. -/
theorem mem_distinct : s ∈ distinct members ↔ s ∈ members :=
  ⟨fun h => distinct_subset members h, fun h => subset_distinct members h⟩

/-- The alternatives of several labels are different if and only if those of any two are. -/
theorem nodup_flatMap_alternatives_iff {α : Type} {xs : List α} {f : α → String} (hxs : xs.Nodup)
    (hseveral : ∀ x, xs ≠ [x]) : (xs.flatMap fun x => alternatives (f x)).Nodup ↔
      ∀ x ∈ xs, ∀ y ∈ xs, x ≠ y → (alternatives (f x) ++ alternatives (f y)).Nodup := by
  rw [List.nodup_flatMap]
  constructor
  · rintro ⟨honce, hpairs⟩ x hx y hy hne
    have hsymm : Std.Symm (Function.onFun List.Disjoint fun x => alternatives (f x)) :=
      ⟨fun _ _ hdisjoint => List.disjoint_symm hdisjoint⟩
    exact List.nodup_append'.2 ⟨honce x hx, honce y hy, hpairs.forall hx hy hne⟩
  · intro h
    refine ⟨?_, hxs.pairwise_of_forall_ne fun x hx y hy hne =>
      (List.nodup_append'.1 (h x hx y hy hne)).2.2⟩
    intro x hx
    rcases (hxs.ne_singleton_iff x).1 (hseveral x) with rfl | ⟨y, hy, hne⟩
    · cases hx
    · exact (List.nodup_append'.1 (h x hx y hy hne.symm)).1

/-- A union lists each alternative once if and only if its members are apart. -/
theorem eachOnce_union_iff (h : ∀ s ∈ members, s.EachOnce) :
    (union members).EachOnce ↔ Apart members := by
  unfold union
  split
  next hnone =>
    refine iff_of_true eachOnce_invariant.any ?_
    intro s hs
    have hkept := mem_distinct.2 hs
    rw [hnone] at hkept
    cases hkept
  next one hone =>
    have hall (s : Schema) (hs : s ∈ members) : s = one :=
      List.mem_singleton.1 (hone ▸ mem_distinct.2 hs)
    refine iff_of_true (h one (mem_distinct.1 (hone ▸ List.mem_cons_self))) ?_
    intro s hs t ht hne
    exact absurd ((hall s hs).trans (hall t ht).symm) hne
  next hseveral hnone hone =>
    have hlabels : (distinct members).map typeLabel ≠ [] := by
      intro hnil
      rw [List.map_eq_nil_iff] at hnil
      exact hnone hnil
    rw [eachOnce_label_iff, alternatives_intercalate hlabels, List.flatMap_map,
      nodup_flatMap_alternatives_iff (nodup_distinct members) hone]
    simp only [mem_distinct, Apart]

/-! ## Items of arrays -/

/-- Two different elements have no alternative in common, save for what is in the label of both, and
neither of them has one twice. -/
def ApartItems (elements : List Schema) : Prop :=
  ∀ s ∈ elements, ∀ t ∈ elements, s ≠ t →
    (([s.typeLabel, t.typeLabel].dedup).flatMap alternatives).Nodup

instance (elements : List Schema) : Decidable (ApartItems elements) :=
  inferInstanceAs (Decidable (∀ s ∈ elements, ∀ t ∈ elements, _ → _))

/-- A label is added to those that are there. -/
theorem mem_insertLabel {labels : List String} {label other : String} :
    other ∈ insertLabel labels label ↔ other = label ∨ other ∈ labels := by
  induction labels with
  | nil => simp [insertLabel]
  | cons first rest ih =>
      rw [insertLabel]
      split
      next heq => simp [heq]
      next =>
        split
        · rw [List.mem_cons]
        · rw [List.mem_cons, ih, List.mem_cons]
          exact or_left_comm

/-- A label is put where it keeps the labels in order. -/
theorem pairwise_insertLabel {labels : List String} (h : labels.Pairwise (· < ·)) (label : String) :
    (insertLabel labels label).Pairwise (· < ·) := by
  induction labels with
  | nil => exact List.pairwise_singleton _ _
  | cons first rest ih =>
      obtain ⟨hfirst, hrest⟩ := List.pairwise_cons.1 h
      rw [insertLabel]
      split
      · exact h
      next hne =>
        split
        next hlt =>
          refine List.pairwise_cons.2 ⟨?_, h⟩
          intro other hother
          rcases List.mem_cons.1 hother with rfl | hother
          · exact hlt
          · exact hlt.trans (hfirst other hother)
        next hge =>
          refine List.pairwise_cons.2 ⟨?_, ih hrest⟩
          intro other hother
          rcases mem_insertLabel.1 hother with rfl | hother
          · exact lt_of_le_of_ne (not_lt.1 hge) (Ne.symm hne)
          · exact hfirst other hother

/-- Labels that are put in one by one are in order. -/
theorem pairwise_foldl_insertLabel (labels : List String) :
    (labels.foldl insertLabel []).Pairwise (· < ·) :=
  List.foldlRecOn (motive := List.Pairwise (· < ·)) labels _ List.Pairwise.nil
    fun _ hkept label _ => pairwise_insertLabel hkept label

/-- Labels that are put in one by one are listed once each. -/
theorem nodup_foldl_insertLabel (labels : List String) : (labels.foldl insertLabel []).Nodup :=
  (pairwise_foldl_insertLabel labels).imp ne_of_lt

/-- The labels are all those that were put in. -/
theorem mem_foldl_insertLabel {labels : List String} {label : String} :
    label ∈ labels.foldl insertLabel [] ↔ label ∈ labels := by
  induction labels using List.reverseRecOn with
  | nil => exact Iff.rfl
  | append_singleton labels last ih =>
      rw [List.foldl_append, List.foldl_cons, List.foldl_nil, mem_insertLabel, ih, List.mem_append,
        List.mem_singleton, or_comm]

/-- Where not all elements are equal, each of them has another one beside it. -/
theorem exists_ne_of_not_all {first : Schema} {rest : List Schema} (h : ¬rest.all (· = first)) :
    ∀ s ∈ first :: rest, ∃ t ∈ first :: rest, s ≠ t := by
  have hother : ∃ s ∈ rest, s ≠ first := by simpa using h
  intro s hs
  by_cases heq : s = first
  · obtain ⟨t, ht, hne⟩ := hother
    exact ⟨t, List.mem_cons_of_mem first ht, heq ▸ hne.symm⟩
  · exact ⟨first, List.mem_cons_self, heq⟩

/-- If items share no alternatives and none is like all others, their labels list no alternative
twice. -/
theorem nodup_alternatives_sortedLabels {elements : List Schema} (hapart : ApartItems elements)
    (hbeside : ∀ s ∈ elements, ∃ t ∈ elements, s ≠ t) :
    (((elements.map typeLabel).foldl insertLabel []).flatMap alternatives).Nodup := by
  have hlabelled {label : String} (h : label ∈ (elements.map typeLabel).foldl insertLabel []) :
      ∃ s ∈ elements, s.typeLabel = label := List.mem_map.1 (mem_foldl_insertLabel.1 h)
  rw [List.nodup_flatMap]
  refine ⟨?_, (nodup_foldl_insertLabel _).pairwise_of_forall_ne ?_⟩
  · intro label hlabel
    obtain ⟨s, hs, rfl⟩ := hlabelled hlabel
    obtain ⟨t, ht, hne⟩ := hbeside s hs
    exact (List.nodup_flatMap.1 (hapart s hs t ht hne)).1 _ (List.mem_dedup.2 List.mem_cons_self)
  · intro label hlabel label' hlabel' hne
    obtain ⟨s, hs, rfl⟩ := hlabelled hlabel
    obtain ⟨t, ht, rfl⟩ := hlabelled hlabel'
    have htwo := hapart s hs t ht (by rintro rfl; exact hne rfl)
    have hpair : [s.typeLabel, t.typeLabel].dedup = [s.typeLabel, t.typeLabel] :=
      List.Nodup.dedup (by simpa using hne)
    rw [hpair] at htwo
    exact List.rel_of_pairwise_cons (List.nodup_flatMap.1 htwo).2 List.mem_cons_self

/-- The items of an array list each alternative once if the labels of its elements are apart. -/
theorem EachOnce.arrayItems {elements : List Schema} (h : ∀ s ∈ elements, s.EachOnce)
    (hapart : ApartItems elements) : (arrayItems elements).EachOnce := by
  unfold Schema.arrayItems
  split
  · exact eachOnce_invariant.any
  next first rest =>
    split
    · exact h first List.mem_cons_self
    next hdiffer =>
      split
      · exact eachOnce_invariant.fieldsOf h
      · have hsome : ((first :: rest).map typeLabel).foldl insertLabel [] ≠ [] :=
          List.ne_nil_of_mem (mem_foldl_insertLabel.2 (List.mem_map_of_mem List.mem_cons_self))
        rw [eachOnce_label_iff, alternatives_intercalate hsome]
        exact nodup_alternatives_sortedLabels hapart (exists_ne_of_not_all hdiffer)

end TrackingPlan.Schema
