import Mathlib.Data.List.Sort
import Mathlib.Data.Prod.Basic
import Mathlib.Data.String.Basic
import TrackingPlan.Path

/-!
# Components and the order of paths

Taking a name from a path adds one component to it, which `components_join` says and
`components_descend` repeats for several names. Paths are compared by their components from the
first on, so that `pairwise_lt_ordered` sorts paths with different components into a strictly
increasing list, of which `eq_of_pairwise_lt` says that it is the only one.
-/

namespace TrackingPlan

/-! ## The pieces of a text between slashes -/

open String in
/-- Splitting goes on from a place in a text with the characters behind it. -/
theorem splitOnAux_slash (l m r : List Char) (acc : List String) :
    String.splitOnAux (ofList (l ++ m ++ r)) "/" ⟨utf8Len l⟩ ⟨utf8Len l + utf8Len m⟩ 0 acc =
      acc.reverse ++ (List.splitOnPPrepend (· == '/') r m.reverse).map ofList := by
  unfold String.splitOnAux
  simp only [List.append_assoc, atEnd_iff, rawEndPos_ofList, utf8Len_append, Pos.Raw.mk_le_mk,
    Nat.add_le_add_iff_left, (by omega : utf8Len m + utf8Len r ≤ utf8Len m ↔ utf8Len r = 0),
    utf8Len_eq_zero, List.reverse_cons]
  split
  next hempty =>
    subst hempty
    simpa using extract_of_valid l m []
  next hmore =>
    obtain ⟨c, r, rfl⟩ := r.exists_cons_of_ne_nil hmore
    have hmark : Pos.Raw.get "/" 0 = '/' := by decide
    have hafter : Pos.Raw.next "/" 0 = ⟨1⟩ := by decide
    have hend : "/".rawEndPos ≤ ⟨1⟩ := by decide
    have hback : (⟨utf8Len l + utf8Len m + 1⟩ : Pos.Raw).unoffsetBy ⟨1⟩ =
        ⟨utf8Len l + utf8Len m⟩ := by simp [Pos.Raw.unoffsetBy]
    have hstay : (⟨utf8Len l + utf8Len m⟩ : Pos.Raw).unoffsetBy 0 = ⟨utf8Len l + utf8Len m⟩ := by
      simp [Pos.Raw.unoffsetBy]
    have hget := get_of_valid (l ++ m) (c :: r)
    have hnext := next_of_valid (l ++ m) c r
    have hextract := extract_of_valid l m (c :: r)
    simp only [List.append_assoc, utf8Len_append, List.headD_cons] at hget hnext hextract
    rw [hget, hmark, hafter, hnext, hstay, hnext, if_pos hend]
    split
    next hslash =>
      obtain rfl : c = '/' := by simpa using hslash
      have hsize : ('/').utf8Size = 1 := by decide
      have hrest := splitOnAux_slash (l ++ m ++ ['/']) [] r (ofList m :: acc)
      rw [hsize, hback, hextract]
      simpa [hsize, Nat.add_assoc, List.splitOnPPrepend_cons_eq_if] using hrest
    next hother =>
      have hrest := splitOnAux_slash l (m ++ [c]) r acc
      simpa [hother, Nat.add_assoc, List.splitOnPPrepend_cons_eq_if] using hrest
termination_by r.length

namespace Path

/-- Paths are the same if they have the same components. -/
theorem same_iff {a b : Path} : a.same b = true ↔ a.components = b.components := by
  simp [same]

/-- The pieces of a path stand between its slashes. -/
theorem pieces_eq (p : Path) : p.pieces = (p.text.toList.splitOn '/').map String.ofList := by
  have hsplit := splitOnAux_slash [] [] p.text.toList []
  simp only [List.nil_append, String.ofList_toList, List.reverse_nil] at hsplit
  rw [List.splitOn_eq_splitOnP, List.splitOnP_eq_splitOnPPrepend]
  exact hsplit

/-- A path has at least one piece. -/
theorem pieces_ne_nil (p : Path) : p.pieces ≠ [] := by
  simp [pieces_eq, List.splitOn_ne_nil]

/-- The empty path has one empty piece. -/
theorem pieces_of_empty : (Path.mk "").pieces = [""] := by
  rw [pieces_eq]
  rfl

/-! ## Names taken from a path -/

/-- Texts that name an entry of a directory. -/
structure IsName (name : String) : Prop where
  ne_empty : name ≠ ""
  ne_dot : name ≠ "."
  ne_dots : name ≠ ".."
  no_slash : '/' ∉ name.toList

variable {base p q : Path} {name : String}

/-- A name is a component of its own. -/
theorem IsName.component?_eq (h : IsName name) : component? name = some (.normal name) := by
  simp [component?, h.ne_empty, h.ne_dot, h.ne_dots]

/-- A path is absolute if it starts with a slash. -/
theorem isAbsolute_iff : p.isAbsolute = true ↔ ∃ rest, p.text.toList = '/' :: rest := by
  rw [isAbsolute, String.startsWith_string_iff]
  constructor
  · rintro ⟨rest, hrest⟩
    exact ⟨rest, hrest.symm⟩
  · rintro ⟨rest, hrest⟩
    exact ⟨rest, hrest.symm⟩

/-- A path ends with a slash if its text does. -/
theorem endsWith_slash_iff :
    base.text.endsWith "/" = true ↔ ∃ start, base.text.toList = start ++ ['/'] := by
  rw [← String.endsWith_toSlice, String.Slice.endsWith_string_iff, String.copy_toSlice]
  constructor
  · rintro ⟨start, hstart⟩
    exact ⟨start, hstart.symm⟩
  · rintro ⟨start, hstart⟩
    exact ⟨start, hstart.symm⟩

/-- A name is no absolute path. -/
theorem IsName.isAbsolute_eq (h : IsName name) : (Path.mk name).isAbsolute = false := by
  refine Bool.eq_false_iff.2 fun habsolute => ?_
  obtain ⟨rest, hrest⟩ := isAbsolute_iff.1 habsolute
  exact h.no_slash (by rw [show name.toList = '/' :: rest from hrest]; simp)

/-- A name is a path of one piece. -/
theorem IsName.pieces_eq (h : IsName name) : (Path.mk name).pieces = [name] := by
  rw [Path.pieces_eq, List.splitOn_eq_singleton h.no_slash]
  simp

/-! ## Paths taken from a path -/

/-- A relative path taken from another one stands behind a slash, which that may end with
already. -/
theorem toList_join (hbase : base.text ≠ "") (hp : p.isAbsolute = false) :
    ∃ start, (base.join p).text.toList = start ++ '/' :: p.text.toList ∧
      (base.text.toList = start ∨ base.text.toList = start ++ ['/']) := by
  unfold join
  rw [hp]
  by_cases hends : base.text.endsWith "/" = true
  · obtain ⟨start, hstart⟩ := endsWith_slash_iff.1 hends
    refine ⟨start, ?_, .inr hstart⟩
    simp [hends, hstart]
  · refine ⟨base.text.toList, ?_, .inl rfl⟩
    simp [hends, hbase]

/-- The pieces of a relative path follow those of the path that it was taken from, where a slash at
the end of that gives none. -/
theorem pieces_join (hbase : base.text ≠ "") (hp : p.isAbsolute = false) :
    ∃ first rest, (base.join p).pieces = first :: (rest ++ p.pieces) ∧
      (base.pieces = first :: rest ∨ base.pieces = first :: (rest ++ [""])) := by
  obtain ⟨start, hjoin, hstart⟩ := toList_join hbase hp
  obtain ⟨first, rest, hsplit⟩ := List.exists_cons_of_ne_nil (List.splitOn_ne_nil '/' start)
  refine ⟨String.ofList first, rest.map String.ofList, ?_, hstart.imp (fun h => ?_) fun h => ?_⟩
  · rw [pieces_eq, hjoin, List.splitOn_append_cons_self, hsplit, pieces_eq]
    simp
  · rw [pieces_eq, h, hsplit]
    rfl
  · rw [pieces_eq, h, List.splitOn_append_cons_self, List.splitOn_nil, hsplit]
    simp

/-- A path behind another is absolute if the other one is. -/
theorem isAbsolute_join (hbase : base.text ≠ "") (hp : p.isAbsolute = false) :
    (base.join p).isAbsolute = base.isAbsolute := by
  obtain ⟨start, hjoin, hstart⟩ := toList_join hbase hp
  rw [Bool.eq_iff_iff, isAbsolute_iff, isAbsolute_iff, hjoin]
  cases start with
  | nil =>
      have htext : base.text.toList = ['/'] := hstart.resolve_left (by simpa using hbase)
      simp [htext]
  | cons c rest => rcases hstart with h | h <;> simp [h]

/-- The first piece of a relative path is a component also if it is a dot. -/
theorem components_of_relative {first : String} {rest : List String} (h : ¬p.isAbsolute = true)
    (hpieces : p.pieces = first :: rest) :
    p.components =
      (if first = "." then [.current] else (component? first).toList) ++
        rest.filterMap component? := by
  rw [components, if_neg h, hpieces]
  by_cases hdot : first = "."
  · simp [hdot]
  · rw [if_neg hdot]
    cases hfirst : component? first <;> simp [hdot, hfirst]

/-- What is taken from a path has further components, which its pieces spell. -/
theorem components_join_of_relative (hbase : base.text ≠ "") (hp : p.isAbsolute = false) :
    (base.join p).components = base.components ++ p.pieces.filterMap component? := by
  obtain ⟨first, rest, hjoin, hpieces⟩ := pieces_join hbase hp
  have hblank : ∀ pieces : List String,
      (pieces ++ [""]).filterMap component? = pieces.filterMap component? := by
    intro pieces
    simp [component?]
  by_cases habsolute : base.isAbsolute = true
  · rw [components, components, isAbsolute_join hbase hp, if_pos habsolute, if_pos habsolute, hjoin,
      ← List.cons_append, List.filterMap_append, List.cons_append]
    rcases hpieces with h | h
    · rw [h]
    · rw [h, ← hblank (first :: rest), List.cons_append]
  · have hjoined : ¬(base.join p).isAbsolute = true := by rwa [isAbsolute_join hbase hp]
    rw [components_of_relative hjoined hjoin, List.filterMap_append, ← List.append_assoc]
    rcases hpieces with h | h
    · rw [components_of_relative habsolute h]
    · rw [components_of_relative habsolute h, hblank]

/-- A name taken from a path is one more component. -/
theorem components_join (hbase : base.text ≠ "") (hname : IsName name) :
    (base.join ⟨name⟩).components = base.components ++ [.normal name] := by
  rw [components_join_of_relative hbase hname.isAbsolute_eq, hname.pieces_eq]
  simp [hname.component?_eq]

/-- A path behind another is not empty. -/
theorem text_join_ne_empty (hbase : base.text ≠ "") : (base.join p).text ≠ "" := by
  intro hempty
  cases hp : p.isAbsolute with
  | true =>
      rw [join, hp, if_pos rfl] at hempty
      simp [isAbsolute, hempty] at hp
  | false =>
      obtain ⟨start, hjoin, -⟩ := toList_join hbase hp
      rw [hempty] at hjoin
      simp at hjoin

/-- `descend p names` is the place that `names` lead to from `p`. -/
def descend (p : Path) (names : List String) : Path :=
  names.foldl (fun place name => place.join ⟨name⟩) p

/-- Names taken from a path one after the other are its further components. -/
theorem components_descend {names : List String} (hbase : base.text ≠ "")
    (hnames : ∀ name ∈ names, IsName name) :
    (base.descend names).components = base.components ++ names.map .normal := by
  induction names generalizing base with
  | nil => simp [descend]
  | cons name rest ih =>
      have hname := hnames name List.mem_cons_self
      have hrest := ih (text_join_ne_empty (p := ⟨name⟩) hbase)
        fun other hother => hnames other (List.mem_cons_of_mem name hother)
      rw [components_join hbase hname] at hrest
      simpa [descend] using hrest

end Path

/-! ## The order of paths -/

namespace Component

/-- `key c` is the rank of `c`, and the bytes and the text of its name, if it has one. -/
def key : Component → Nat × List UInt8 × String
  | normal name => (3, Text.bytes name, name)
  | c => (c.rank, [], "")

/-- Components are compared by their ranks, and names by their bytes. -/
theorem compare_eq (a b : Component) :
    compare a b = compareLex (compareOn (·.1)) (compareLex (compareOn (·.2.1)) (compareOn (·.2.2)))
      a.key b.key := by
  cases a <;> cases b <;> rfl

/-- Components with the same key are the same. -/
theorem key_injective : Function.Injective key := by
  intro a b h
  cases a <;> cases b <;> simp_all [key, rank]

instance : Std.TransCmp Component.compare where
  eq_swap := by
    intro a b
    rw [compare_eq, compare_eq]
    exact Std.OrientedCmp.eq_swap
  isLE_trans := by
    intro a b c hab hbc
    rw [compare_eq] at hab hbc ⊢
    exact Std.TransCmp.isLE_trans hab hbc

instance : Std.LawfulEqCmp Component.compare where
  compare_self := by
    intro a
    rw [compare_eq]
    exact Std.ReflCmp.compare_self
  eq_of_compare := by
    intro a b h
    rw [compare_eq, compareLex, compareLex, Ordering.then_eq_eq, Ordering.then_eq_eq] at h
    obtain ⟨hrank, hbytes, hname⟩ := h
    exact key_injective (Prod.ext (Std.LawfulEqCmp.eq_of_compare hrank)
      (Prod.ext (Std.LawfulEqCmp.eq_of_compare hbytes) (Std.LawfulEqCmp.eq_of_compare hname)))

/-- If one list of components comes before another, the other does not come before it. -/
theorem not_lt_of_lt {a b : List Component} (h : List.compareLex compare a b = .lt) :
    List.compareLex compare b a ≠ .lt := by
  have hswap : List.compareLex compare a b = (List.compareLex compare b a).swap :=
    Std.OrientedCmp.eq_swap
  intro hba
  rw [hswap, hba] at h
  cases h

instance : Std.Irrefl fun a b : List Component => List.compareLex compare a b = .lt :=
  ⟨fun a => by simp [Std.ReflCmp.compare_self]⟩

instance : Std.Antisymm fun a b : List Component => List.compareLex compare a b = .lt :=
  ⟨fun _ _ hab hba => absurd hba (not_lt_of_lt hab)⟩

end Component

namespace Path

/-- Paths are compared component by component. -/
theorem compare_go_eq (a b : List Component) :
    compare.go a b = List.compareLex Component.compare a b := by
  induction a generalizing b with
  | nil => cases b <;> rfl
  | cons c cs ih =>
      cases b with
      | nil => rfl
      | cons d ds =>
          rw [compare.go, ih, List.compareLex]
          cases Component.compare c d <;> rfl

/-- Paths are compared by their components, from the first on. -/
theorem compare_eq (a b : Path) :
    compare a b = List.compareLex Component.compare a.components b.components :=
  compare_go_eq a.components b.components

/-- Paths are equal in order if they have the same components. -/
theorem compare_eq_eq_iff {a b : Path} : compare a b = .eq ↔ a.components = b.components := by
  rw [compare_eq]
  exact Std.LawfulEqCmp.compare_eq_iff_eq

/-- Sorted paths are in order. -/
theorem pairwise_isLE_ordered (paths : List Path) :
    (ordered paths).Pairwise fun a b => (compare a b).isLE = true := by
  refine List.pairwise_mergeSort (fun a b c hab hbc => ?_) (fun a b => ?_) paths
  · rw [compare_eq] at hab hbc ⊢
    exact Std.TransCmp.isLE_trans hab hbc
  · have hswap : List.compareLex Component.compare b.components a.components =
        (List.compareLex Component.compare a.components b.components).swap :=
      Std.OrientedCmp.eq_swap
    rw [compare_eq a b, compare_eq b a, hswap]
    cases List.compareLex Component.compare a.components b.components <;> rfl

/-- Ordering paths neither adds nor drops any. -/
theorem mem_ordered {paths : List Path} {p : Path} : p ∈ ordered paths ↔ p ∈ paths :=
  (List.mergeSort_perm paths _).mem_iff

/-- Paths with different components are sorted into a strictly increasing list. -/
theorem pairwise_lt_ordered {paths : List Path} (h : (paths.map components).Nodup) :
    (ordered paths).Pairwise fun a b => compare a b = .lt := by
  have hnodup : ((ordered paths).map components).Nodup :=
    ((List.mergeSort_perm paths _).map components).nodup_iff.2 h
  have hne : (ordered paths).Pairwise fun a b => a.components ≠ b.components :=
    List.pairwise_map.1 hnodup
  refine ((pairwise_isLE_ordered paths).and hne).imp fun {a b} ⟨hle, hcomponents⟩ => ?_
  cases hcompare : compare a b with
  | lt => rfl
  | eq => exact absurd (compare_eq_eq_iff.1 hcompare) hcomponents
  | gt =>
      rw [hcompare] at hle
      cases hle

/-- Strictly increasing lists of the same paths are equal. -/
theorem eq_of_pairwise_lt {paths others : List Path}
    (h : paths.Pairwise fun a b => compare a b = .lt)
    (hother : others.Pairwise fun a b => compare a b = .lt) (hmem : ∀ p, p ∈ paths ↔ p ∈ others) :
    paths = others := by
  have : Std.Irrefl fun a b : Path => compare a b = .lt :=
    ⟨fun a => by simp [compare_eq_eq_iff.2 (rfl : a.components = a.components)]⟩
  have : Std.Antisymm fun a b : Path => compare a b = .lt :=
    ⟨fun a b hab hba =>
      absurd (compare_eq b a ▸ hba) (Component.not_lt_of_lt (compare_eq a b ▸ hab))⟩
  exact List.Pairwise.eq_of_mem_iff h hother hmem

end Path

end TrackingPlan
