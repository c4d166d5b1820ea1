import TrackingPlan.Calls.Go
import TrackingPlan.Calls.Ruby
import TrackingPlan.Proofs.EventNames
import TrackingPlan.Proofs.LiteralData
import TrackingPlan.Script.Values

/-!
# Literal data in each language

How scripts, Python, Ruby and Go write data out, and that the inference of each language reads it.
Three of them write maps as pairs and look one step further for each level; in Go, where a level is
a literal with a type and a body, a level takes two steps.
-/

namespace TrackingPlan

/-- What stands between a pair of equal marks is what is left without quotes. -/
theorem Spelling.unquote_of_content? {l : Spelling} (hmarks : l.marks ⊆ ["\"", "'", "`"]) {n : Node}
    {content : String} (h : l.content? n = some content) : Text.unquote n.text = content := by
  obtain ⟨mark, hmark, htext, -⟩ := content?_eq_some h
  have hcases := hmarks hmark
  simp only [List.mem_cons, List.not_mem_nil, or_false] at hcases
  rcases hcases with rfl | rfl | rfl <;> simp [Text.unquote, Text.between?, htext]

/-! ## Scripts -/

namespace Script

/-- How scripts write data out. -/
def spelling : Spelling where
  marks := ["\"", "'", "`"]
  texts := ["string", "template_string"]
  numbers := ["number"]
  missing := "null"
  keys := ["string"]
  bareKeys := ["property_identifier"]
  parts? := Spelling.childrenOf? "array"
  item? := some
  pairs? := Spelling.childrenOf? "object"
  pair? := Spelling.pairOf?

/-- A key that is spelled is read as its name. -/
theorem key?_of_spelling {n : Node} {name : String} (h : spelling.key? n = some name) :
    key? n = some name := by
  rcases Spelling.key?_cases h with ⟨hbare, rfl⟩ | ⟨hquoted, hcontent⟩
  · have hkind : n.kind = "property_identifier" := by simpa [spelling] using hbare
    simp [key?, hkind]
  · have hkind : n.kind = "string" := by simpa [spelling] using hquoted
    simp [key?, hkind, Spelling.unquote_of_content? (List.Subset.refl _) hcontent]

/-- A value is no spread. -/
theorem kind_ne_of_isValue {n : Node} (h : spelling.IsValue n) : n.kind ≠ "spread_element" :=
  h.kind_ne (by decide) (fun _ => Spelling.childrenOf?_of_ne (by decide))
    (fun _ => Spelling.childrenOf?_of_ne (by decide))

/-- An object of nothing but pairs has the fields of these pairs. -/
theorem objectFields_of_spelling {value name : Site → Schema}
    {spread : Site → Properties} {s : Site}
    (h : ∀ c ∈ s.node.namedChildren, ∃ field, spelling.field? c = some field) :
    objectFields value name spread s = Named.ofEntries (s.node.namedChildren.filterMap fun c =>
      (spelling.field? c).map fun field => (field.1, value ((s.below c).below field.2))) := by
  unfold objectFields Named.ofEntries Site.children
  generalize ([] : Properties) = fields
  generalize s.node.namedChildren = children at h ⊢
  induction children generalizing fields with
  | nil => rfl
  | cons c rest ih =>
      obtain ⟨⟨name, n⟩, hfield⟩ := h c List.mem_cons_self
      obtain ⟨hkind, hvalue, key, hkey, hname⟩ := Spelling.field?_of_pair rfl hfield
      rw [List.map_cons, List.foldl_cons, ih _ (fun c hc => h c (List.mem_cons_of_mem _ hc)),
        List.filterMap_cons, hfield]
      simp [Site.kind, Site.below, Site.child?, hkind, hkey, key?_of_spelling hname, hvalue,
        Named.merge]

/-- Scripts are read as they are spelled, whatever their names are declared as. -/
theorem isReadBy_valueSchema (scope : Scope) :
    spelling.IsReadBy Site.node (valueSchema scope) where
  none s := by rw [valueSchema]
  text levels s h := by
    have hkind : s.node.kind = "string" ∨ s.node.kind = "template_string" := by
      simpa [spelling] using h
    rcases hkind with hkind | hkind <;> simp [valueSchema, Site.kind, hkind]
  number levels s h := by
    have hkind : s.node.kind = "number" := by simpa [spelling] using h
    simp [valueSchema, Site.kind, hkind]
  boolean levels s h := by
    rcases h with hkind | hkind <;> simp [valueSchema, Site.kind, hkind]
  null levels s h := by
    have hkind : s.node.kind = "null" := h
    simp [valueSchema, Site.kind, hkind]
  array levels s nodes h hvalues := by
    obtain ⟨hkind, rfl⟩ := Spelling.items?_of_children rfl rfl h
    have hvalue : valueSchema scope (levels + 1) s = .array (Schema.arrayItems
        ((s.children.filter (·.kind ≠ "spread_element")).map (valueSchema scope levels))) := by
      simp [valueSchema, Site.kind, hkind]
    have hitems : s.children.filter (fun c => decide (c.kind ≠ "spread_element")) = s.children :=
      List.filter_eq_self.2 fun c hc => by
        obtain ⟨n, hn, rfl⟩ := List.mem_map.1 hc
        exact decide_eq_true (kind_ne_of_isValue (hvalues n hn))
    refine ⟨s.children, by simp [Site.children, Site.below, Function.comp_def], ?_⟩
    rw [hvalue, hitems]
  map levels s fields h _ := by
    obtain ⟨hkind, hpairs, rfl⟩ := Spelling.fields?_of_children rfl h
    have hvalue :
      valueSchema scope (levels + 1) s = .object (objectFields (valueSchema scope levels)
        (fun name => if scope.modules.typed then nameSchema scope levels name.text name else .any)
        (propertiesOf scope (levels - 1)) s) := by
      simp [valueSchema, Site.kind, hkind]
    obtain ⟨sites, hsites, hread⟩ := spelling.exists_fieldSites Site.node
      (fun c => (s.below c).below) (fun _ _ => rfl) s.node.namedChildren
    exact ⟨sites, hsites, by rw [hvalue, objectFields_of_spelling hpairs, hread]⟩

end Script

/-! ## Python -/

namespace Python

open Spelling (isPlain)

/-- How Python writes data out. -/
def spelling : Spelling where
  marks := ["\"\"\"", "'''", "\"", "'"]
  texts := ["string"]
  numbers := ["integer", "float"]
  missing := "none"
  keys := ["string"]
  bareKeys := []
  parts? := Spelling.childrenOf? "list"
  item? := some
  pairs? := Spelling.childrenOf? "dictionary"
  pair? := Spelling.pairOf?

/-- What stands between two marks is read as the text inside. -/
theorem inside?_append {mark content : List Char} :
    inside? mark (mark ++ content ++ mark) = some content := by
  have hlength : 2 * mark.length ≤ (mark ++ content ++ mark).length := by
    simp only [List.length_append]; omega
  have hbefore : mark.isPrefixOf (mark ++ content ++ mark) = true :=
    List.isPrefixOf_iff_prefix.2 ⟨content ++ mark, (List.append_assoc ..).symm⟩
  have hafter : mark.isSuffixOf (mark ++ content ++ mark) = true :=
    List.isSuffixOf_iff_suffix.2 (List.suffix_append _ _)
  have hinside : (mark ++ content ++ mark).length - 2 * mark.length = content.length := by
    simp only [List.length_append]; omega
  unfold inside?
  rw [if_pos (by rw [decide_eq_true hlength, hbefore, hafter]; rfl), hinside, List.append_assoc,
    List.drop_left, List.take_left]

/-- Nothing is read inside marks that the text does not start with. -/
theorem inside?_eq_none_of_ne {mark other : Char} {rest body : List Char} (h : other ≠ mark) :
    inside? (other :: rest) (mark :: body) = none := by
  simp [inside?, List.isPrefixOf, h]

/-- A plain text between single marks does not look like one between triple marks. -/
theorem inside?_triple_eq_none {mark other : Char} {content : List Char} (h : isPlain mark = false)
    (hplain : content.all isPlain = true) :
    inside? [other, other, other] (mark :: content ++ [mark]) = none := by
  cases hinside : inside? [other, other, other] (mark :: content ++ [mark]) with
  | none => rfl
  | some inside =>
      have htext := eq_of_inside? hinside
      cases content with
      | nil => simp at htext
      | cons c rest =>
          -- the text starts with a second mark, which is no plain character
          obtain ⟨hmark, hfirst, -⟩ : mark = other ∧ c = other ∧ _ := by simpa using htext
          rw [List.all_cons, hfirst, ← hmark, h] at hplain
          cases hplain

/-- Of all marks the ones that were written are found. -/
theorem findSome?_marks {mark content : List Char} (hmark : mark ∈ marks)
    (hplain : content.all isPlain = true) :
    marks.findSome? (inside? · (mark ++ content ++ mark)) = some content := by
  have hmarks : marks = [['"', '"', '"'], ['\'', '\'', '\''], ['"'], ['\'']] := by simp [marks]
  have hself := @inside?_append mark content
  rw [hmarks] at hmark ⊢
  simp only [List.mem_cons, List.not_mem_nil, or_false] at hmark
  rcases hmark with rfl | rfl | rfl | rfl
  · simp only [List.findSome?_cons, hself]
  · have hdouble : inside? ['"', '"', '"']
        (['\'', '\'', '\''] ++ content ++ ['\'', '\'', '\'']) = none :=
      inside?_eq_none_of_ne (by decide)
    simp only [List.findSome?_cons, hdouble, hself]
  · have htriple : inside? ['"', '"', '"'] (['"'] ++ content ++ ['"']) = none :=
      inside?_triple_eq_none rfl hplain
    have hsingle : inside? ['\'', '\'', '\''] (['"'] ++ content ++ ['"']) = none :=
      inside?_eq_none_of_ne (by decide)
    simp only [List.findSome?_cons, htriple, hsingle, hself]
  · have hdouble : inside? ['"', '"', '"'] (['\''] ++ content ++ ['\'']) = none :=
      inside?_eq_none_of_ne (by decide)
    have htriple : inside? ['\'', '\'', '\''] (['\''] ++ content ++ ['\'']) = none :=
      inside?_triple_eq_none rfl hplain
    have hmark : inside? ['"'] (['\''] ++ content ++ ['\'']) = none :=
      inside?_eq_none_of_ne (by decide)
    simp only [List.findSome?_cons, hdouble, htriple, hmark, hself]

/-- A text without its quotes is the content that is spelled. -/
theorem unquoted?_of_content? {n : Node} {content : String}
    (h : spelling.content? n = some content) :
    unquoted? n.text = some content := by
  obtain ⟨mark, hmark, htext, hplain, -⟩ := Spelling.content?_eq_some h
  have hmem : mark.toList ∈ marks := List.mem_map_of_mem hmark
  have hbody : n.text.toList.dropWhile (·.isAlpha) = n.text.toList := by
    have hcases := hmem
    simp only [marks, List.map_cons, List.map_nil, List.mem_cons, List.not_mem_nil,
      or_false] at hcases
    rcases hcases with hcases | hcases | hcases | hcases <;> simp [htext, hcases]
  rw [unquoted?, hbody, htext, findSome?_marks hmem hplain, Option.map_some, String.ofList_toList]

/-- A key that is spelled is a literal with its name. -/
theorem literal?_of_spelling {n : Node} {name : String} (h : spelling.key? n = some name) :
    literal? n = some name := by
  rcases Spelling.key?_cases h with ⟨hbare, -⟩ | ⟨hquoted, hcontent⟩
  · simp [spelling] at hbare
  · have hkind : n.kind = "string" := by simpa [spelling] using hquoted
    obtain ⟨-, -, -, -, hisText⟩ := Spelling.content?_eq_some hcontent
    have hinterpolation : n.namedChildren.any (·.kind = "interpolation") = false := by
      have hnone := (Bool.and_eq_true_iff.1 hisText).2
      simp only [Bool.not_eq_true', List.any_eq_false, Bool.or_eq_true, not_or] at hnone
      exact List.any_eq_false.2 fun c hc => (hnone c hc).1
    rw [literal?, hkind, hinterpolation, unquoted?_of_content? hcontent]
    rfl

/-- A dictionary of nothing but pairs has the fields of these pairs. -/
theorem dictionaryFields_of_spelling {value : Node → Schema} {n : Node}
    (h : ∀ c ∈ n.namedChildren, ∃ field, spelling.field? c = some field) :
    dictionaryFields value n = Named.ofEntries (n.namedChildren.filterMap fun c =>
      (spelling.field? c).map fun field => (field.1, value field.2)) := by
  rw [dictionaryFields, List.filterMap_filter]
  refine congrArg Named.ofEntries (List.filterMap_congr fun c hc => ?_)
  obtain ⟨⟨name, n⟩, hfield⟩ := h c hc
  obtain ⟨hkind, hvalue, key, hkey, hname⟩ := Spelling.field?_of_pair rfl hfield
  simp [hkind, hkey, literal?_of_spelling hname, hvalue, hfield]

/-- Python is read as it is spelled, whatever its names are bound to. -/
theorem isReadBy_valueSchema (u : Unit) : spelling.IsReadBy id (valueSchema u) where
  none n := by rw [valueSchema]
  text levels n h := by
    have hkind : n.kind = "string" := by simpa [spelling] using h
    simp [valueSchema, hkind]
  number levels n h := by
    have hkind : n.kind = "integer" ∨ n.kind = "float" := by simpa [spelling] using h
    rcases hkind with hkind | hkind <;> simp [valueSchema, hkind]
  boolean levels n h := by
    have hkind : n.kind = "true" ∨ n.kind = "false" := h
    rcases hkind with hkind | hkind <;> simp [valueSchema, hkind]
  null levels n h := by
    have hkind : n.kind = "none" := h
    simp [valueSchema, hkind]
  array levels n nodes h _ := by
    obtain ⟨hkind, rfl⟩ := Spelling.items?_of_children rfl rfl h
    refine ⟨n.namedChildren, List.map_id _, ?_⟩
    simp only [id_eq] at hkind
    simp [valueSchema, hkind]
  map levels n fields h _ := by
    obtain ⟨hkind, hpairs, rfl⟩ := Spelling.fields?_of_children rfl h
    have hvalue :
        valueSchema u (levels + 1) n = .object (dictionaryFields (valueSchema u levels) n) := by
      simp only [id_eq] at hkind
      simp [valueSchema, hkind]
    obtain ⟨sites, hsites, hread⟩ := spelling.exists_fieldSites id (fun _ n => n) (fun _ _ => rfl)
      n.namedChildren
    exact ⟨sites, hsites, by
      rw [hvalue, dictionaryFields_of_spelling (n := n) hpairs, hread]⟩

end Python

/-! ## Ruby -/

namespace Ruby

/-- How Ruby writes data out. -/
def spelling : Spelling where
  marks := ["\"", "'"]
  texts := ["string"]
  numbers := ["integer", "float"]
  missing := "nil"
  keys := ["string"]
  bareKeys := ["hash_key_symbol"]
  parts? := Spelling.childrenOf? "array"
  item? := some
  pairs? := Spelling.childrenOf? "hash"
  pair? := Spelling.pairOf?

/-- A pair whose key is spelled has its name for a key. -/
theorem pairKey?_of_spelling {pair key : Node} {name : String} (hkey : pair.child? "key" = some key)
    (h : spelling.key? key = some name) : pairKey? pair = some name := by
  rcases Spelling.key?_cases h with ⟨hbare, rfl⟩ | ⟨hquoted, hcontent⟩
  · have hkind : key.kind = "hash_key_symbol" := by simpa [spelling] using hbare
    simp [pairKey?, hkey, hkind]
  · have hkind : key.kind = "string" := by simpa [spelling] using hquoted
    simp [pairKey?, hkey, hkind, Spelling.unquote_of_content? (by simp [spelling]) hcontent]

/-- A hash of nothing but pairs has the fields of these pairs. -/
theorem pairFields_of_spelling {value : Site → Schema} {s : Site}
    (h : ∀ c ∈ s.node.namedChildren, ∃ field, spelling.field? c = some field) :
    pairFields value s.children = Named.ofEntries (s.node.namedChildren.filterMap fun c =>
      (spelling.field? c).map fun field => (field.1, value ((s.below c).below field.2))) := by
  rw [pairFields, List.filterMap_filter, Site.children, List.filterMap_map]
  refine congrArg Named.ofEntries (List.filterMap_congr fun c hc => ?_)
  obtain ⟨⟨name, n⟩, hfield⟩ := h c hc
  obtain ⟨hkind, hvalue, key, hkey, hname⟩ := Spelling.field?_of_pair rfl hfield
  simp [Site.kind, Site.below, Site.child?, hkind, pairKey?_of_spelling hkey hname, hvalue, hfield]

/-- Ruby is read as it is spelled, whatever its constants stand for. -/
theorem isReadBy_valueSchema (u : Unit) : spelling.IsReadBy Site.node (valueSchema u) where
  none s := by rw [valueSchema]
  text levels s h := by
    have hkind : s.node.kind = "string" := by simpa [spelling] using h
    simp [valueSchema, Site.kind, hkind]
  number levels s h := by
    have hkind : s.node.kind = "integer" ∨ s.node.kind = "float" := by simpa [spelling] using h
    rcases hkind with hkind | hkind <;> simp [valueSchema, Site.kind, hkind]
  boolean levels s h := by
    rcases h with hkind | hkind <;> simp [valueSchema, Site.kind, hkind]
  null levels s h := by
    have hkind : s.node.kind = "nil" := h
    simp [valueSchema, Site.kind, hkind]
  array levels s nodes h _ := by
    obtain ⟨hkind, rfl⟩ := Spelling.items?_of_children rfl rfl h
    refine ⟨s.children, by simp [Site.children, Site.below, Function.comp_def], ?_⟩
    simp [valueSchema, Site.kind, hkind]
  map levels s fields h _ := by
    obtain ⟨hkind, hpairs, rfl⟩ := Spelling.fields?_of_children rfl h
    have hvalue : valueSchema u (levels + 1) s =
        .object (pairFields (valueSchema u levels) s.children) := by
      simp [valueSchema, Site.kind, hkind]
    obtain ⟨sites, hsites, hread⟩ := spelling.exists_fieldSites Site.node
      (fun c => (s.below c).below) (fun _ _ => rfl) s.node.namedChildren
    exact ⟨sites, hsites, by rw [hvalue, pairFields_of_spelling hpairs, hread]⟩

end Ruby

/-! ## Go -/

namespace Go

/-- `isAny t` holds of the type of all values. -/
def isAny (t : Node) : Bool := t.kind = "type_identifier" && t.text = "any"

/-- `isSliceOfAny t` holds of the type of slices of any values. -/
def isSliceOfAny (t : Node) : Bool := t.kind = "slice_type" && (t.child? "element").any isAny

/-- `isMapToAny t` holds of the type of maps from texts to any values. -/
def isMapToAny (t : Node) : Bool :=
  t.kind = "map_type" && t.childText? "key" = some "string" && (t.child? "value").any isAny

/-- `bodyOf? isType n` lists the elements of a literal of such a type. -/
def bodyOf? (isType : Node → Bool) (n : Node) : Option (List Node) :=
  if n.kind = "composite_literal" && (n.child? "type").any isType then
    (n.child? "body").map Node.namedChildren
  else none

/-- `elementOf? n` is the value of an element. -/
def elementOf? (n : Node) : Option Node :=
  if n.kind = "literal_element" then n.firstNamed? else none

/-- `keyedOf? n` is the key and the value of an element with a key. -/
def keyedOf? (n : Node) : Option (Node × Node) :=
  if n.kind = "keyed_element" then
    match n.namedChildren.map elementOf? with
    | [some key, some value] => some (key, value)
    | _ => none
  else none

/-- How Go writes data out. -/
def spelling : Spelling where
  marks := ["\"", "`"]
  texts := ["interpreted_string_literal", "raw_string_literal"]
  numbers := ["int_literal", "float_literal"]
  missing := "nil"
  keys := ["interpreted_string_literal", "raw_string_literal"]
  bareKeys := []
  parts? := bodyOf? isSliceOfAny
  item? := elementOf?
  pairs? := bodyOf? isMapToAny
  pair? := keyedOf?

/-- The parts of a literal are the named children of its body, behind a type that is wanted. -/
theorem bodyOf?_eq_some {isType : Node → Bool} {n : Node} {parts : List Node}
    (h : bodyOf? isType n = some parts) :
    n.kind = "composite_literal" ∧ (∃ t, n.child? "type" = some t ∧ isType t = true) ∧
      ∃ body, n.child? "body" = some body ∧ parts = body.namedChildren := by
  unfold bodyOf? at h
  split at h
  next hliteral =>
    obtain ⟨hkind, htype⟩ := Bool.and_eq_true_iff.1 hliteral
    obtain ⟨body, hbody, rfl⟩ := Option.map_eq_some_iff.1 h
    exact ⟨of_decide_eq_true hkind, (Option.any_eq_true _ _).1 htype, body, hbody, rfl⟩
  next => cases h

/-- An element holds the value. -/
theorem elementOf?_eq_some {n value : Node} (h : elementOf? n = some value) :
    n.kind = "literal_element" ∧ element n = value := by
  unfold elementOf? at h
  split at h
  next hkind => exact ⟨hkind, by rw [element, if_pos hkind, h, Option.getD_some]⟩
  next => cases h

/-- A keyed element holds a key and a value. -/
theorem keyedOf?_eq_some {n key value : Node} (h : keyedOf? n = some (key, value)) :
    n.kind = "keyed_element" ∧ ∃ first last, n.namedChildren = [first, last] ∧
      element first = key ∧ element last = value := by
  unfold keyedOf? at h
  split at h
  next hkind =>
    split at h
    next hparts =>
      cases h
      obtain ⟨first, rest, hchildren, hfirst, hrest⟩ := List.map_eq_cons_iff.1 hparts
      obtain ⟨last, rfl, hlast⟩ := List.map_eq_singleton_iff.1 hrest
      exact ⟨hkind, first, last, hchildren, (elementOf?_eq_some hfirst).2,
        (elementOf?_eq_some hlast).2⟩
    next => cases h
  next => cases h

/-- A node of another kind has no body. -/
theorem bodyOf?_of_ne {isType : Node → Bool} {n : Node} {kind : String}
    (hne : kind ≠ "composite_literal") (h : n.kind = kind) : bodyOf? isType n = none := by
  simp [bodyOf?, h, hne]

/-- The kinds of nodes that only stand around a value. -/
def wrappers : List String := ["unary_expression", "parenthesized_expression", "literal_element"]

/-- A node that is no wrapper stands for itself. -/
theorem element_unwrap_of_kind {n : Node} {kind : String} (hkind : n.kind = kind)
    (h : kind ∉ wrappers) : element (unwrap n) = n := by
  simp only [wrappers, List.mem_cons, List.not_mem_nil, or_false, not_or] at h
  obtain ⟨hunary, hparentheses, helement⟩ := h
  rw [unwrap]
  simp [hkind, hunary, hparentheses, element, helement]

/-- A value that is written out is looked at as it is. -/
theorem element_unwrap_of_isValue {n : Node} (h : spelling.IsValue n) : element (unwrap n) = n := by
  have hne : ∀ kind ∈ wrappers, n.kind ≠ kind := by
    intro kind hkind
    refine h.kind_ne ?_ (fun _ => bodyOf?_of_ne ?_) (fun _ => bodyOf?_of_ne ?_) <;>
      revert kind <;> decide
  exact element_unwrap_of_kind rfl fun hmem => hne _ hmem rfl

/-- An element is looked at as its value. -/
theorem element_unwrap_of_elementOf? {n value : Node} (h : elementOf? n = some value) :
    element (unwrap n) = value := by
  obtain ⟨hkind, helement⟩ := elementOf?_eq_some h
  rw [unwrap]
  simp [hkind, helement]

/-- The schema of an expression depends on what stands inside its wrappers only. -/
theorem valueSchema_congr {u : Unit} {steps : Nat} {n other : Node}
    (h : element (unwrap n) = element (unwrap other)) :
    valueSchema u steps n = valueSchema u steps other := by
  rw [valueSchema.eq_def, valueSchema.eq_def u steps other, h]

/-- A key that is spelled is a literal with its name, and no identifier. -/
theorem literal?_of_spelling {n : Node} {name : String} (h : spelling.key? n = some name) :
    n.kind ≠ "identifier" ∧ n.kind ≠ "field_identifier" ∧ literal? n = some name := by
  rcases Spelling.key?_cases h with ⟨hbare, -⟩ | ⟨hquoted, hcontent⟩
  · simp [spelling] at hbare
  · have hkind : n.kind = "interpreted_string_literal" ∨ n.kind = "raw_string_literal" := by
      simpa [spelling] using hquoted
    have hname := Spelling.unquote_of_content? (by simp [spelling]) hcontent
    rcases hkind with hkind | hkind <;> simp [literal?, hkind, hname]

/-- A body of nothing but keyed elements has these as its entries. -/
theorem entries_of_spelling {body : Node}
    (h : ∀ c ∈ body.namedChildren, ∃ field, spelling.field? c = some field) :
    entries body = body.namedChildren.filterMap spelling.field? := by
  rw [entries, List.filterMap_filter]
  refine List.filterMap_congr fun c hc => ?_
  obtain ⟨⟨name, value⟩, hfield⟩ := h c hc
  obtain ⟨pair, hpair, hname⟩ := Option.bind_eq_some_iff.1 hfield
  obtain ⟨key, hkey, heq⟩ := Option.map_eq_some_iff.1 hname
  cases heq
  obtain ⟨hkind, first, last, hchildren, hfirst, hlast⟩ := keyedOf?_eq_some hpair
  obtain ⟨hname, hfieldName, hliteral⟩ := literal?_of_spelling hkey
  simp [hkind, hchildren, hfirst, hlast, hname, hfieldName, hliteral, hfield]

/-- A slice of anything has the items of its elements, two steps on. -/
theorem valueSchema_slice {u : Unit} {steps : Nat} {n t body : Node}
    (hkind : n.kind = "composite_literal") (htype : n.child? "type" = some t)
    (hslice : isSliceOfAny t = true) (hbody : n.child? "body" = some body) :
    valueSchema u (steps + 2) n =
      .array (Schema.arrayItems (body.namedChildren.map (valueSchema u steps))) := by
  obtain ⟨hslice, helement⟩ : t.kind = "slice_type" ∧ (t.child? "element").any isAny = true := by
    simpa [isSliceOfAny] using hslice
  obtain ⟨inner, hinner, hany⟩ := (Option.any_eq_true _ _).1 helement
  obtain ⟨hname, htext⟩ : inner.kind = "type_identifier" ∧ inner.text = "any" := by
    simpa [isAny] using hany
  -- nothing is known of the items of an empty slice, by its type as by its items
  have hitems : typeSchema inner = .any := by
    rw [typeSchema.eq_def]
    simp [hname, htext, numberTypes]
  have hempty : typeSchema t = .array .any := by
    rw [typeSchema.eq_def]
    simp only [hslice]
    split
    next hnone => cases hinner.symm.trans hnone
    next found hfound =>
      rw [hinner] at hfound
      rw [← Option.some.inj hfound, hitems]
  rw [valueSchema.eq_def]
  simp only [element_unwrap_of_kind hkind (by decide), hkind, hbody, htype, Option.any_some, hslice]
  cases body.namedChildren with
  | nil => simp [hempty, Schema.arrayItems]
  | cons first rest => rfl

/-- A map to anything has the fields of its elements, two steps on. -/
theorem valueSchema_map {u : Unit} {steps : Nat} {n t body : Node}
    (hkind : n.kind = "composite_literal") (htype : n.child? "type" = some t)
    (hmap : isMapToAny t = true) (hbody : n.child? "body" = some body) :
    valueSchema u (steps + 2) n = .object (fieldsOf (valueSchema u steps) body) := by
  have hmap : t.kind = "map_type" := by
    simp only [isMapToAny, Bool.and_eq_true, decide_eq_true_eq] at hmap
    exact hmap.1.1
  rw [valueSchema.eq_def]
  simp [element_unwrap_of_kind hkind (by decide), hkind, hbody, htype, hmap]

/-- Go is read as it is spelled, whatever its names are bound to; a level takes two steps, one into
a literal and one into its body. -/
theorem isReadBy_valueSchema (u : Unit) :
    spelling.IsReadBy id fun levels => valueSchema u (2 * levels) where
  none n := by rw [Nat.mul_zero, valueSchema.eq_def]
  text levels n h := by
    have hkind : n.kind = "interpreted_string_literal" ∨ n.kind = "raw_string_literal" := by
      simpa [spelling] using h
    rw [Nat.mul_succ, valueSchema.eq_def]
    rcases hkind with hkind | hkind <;>
      simp [element_unwrap_of_kind hkind (by decide), hkind]
  number levels n h := by
    have hkind : n.kind = "int_literal" ∨ n.kind = "float_literal" := by simpa [spelling] using h
    rw [Nat.mul_succ, valueSchema.eq_def]
    rcases hkind with hkind | hkind <;>
      simp [element_unwrap_of_kind hkind (by decide), hkind]
  boolean levels n h := by
    have hkind : n.kind = "true" ∨ n.kind = "false" := h
    rw [Nat.mul_succ, valueSchema.eq_def]
    rcases hkind with hkind | hkind <;>
      simp [element_unwrap_of_kind hkind (by decide), hkind]
  null levels n h := by
    have hkind : n.kind = "nil" := h
    rw [Nat.mul_succ, valueSchema.eq_def]
    simp [element_unwrap_of_kind hkind (by decide), hkind]
  array levels n nodes h hvalues := by
    obtain ⟨parts, hparts, hnodes⟩ := Option.bind_eq_some_iff.1 h
    obtain ⟨hkind, ⟨t, htype, hslice⟩, body, hbody, rfl⟩ := bodyOf?_eq_some hparts
    obtain ⟨helements, rfl⟩ := Spelling.each?_eq_some hnodes
    refine ⟨body.namedChildren.filterMap elementOf?, List.map_id _, ?_⟩
    have hvalue : body.namedChildren.map (valueSchema u (2 * levels)) =
        (body.namedChildren.filterMap elementOf?).map (valueSchema u (2 * levels)) := by
      rw [List.map_filterMap, ← List.filterMap_eq_map]
      refine List.filterMap_congr fun part hpart => ?_
      obtain ⟨value, helement⟩ := helements part hpart
      have hvalue := hvalues value (List.mem_filterMap.2 ⟨part, hpart, helement⟩)
      have hsame : element (unwrap part) = element (unwrap value) := by
        rw [element_unwrap_of_elementOf? helement, element_unwrap_of_isValue hvalue]
      rw [show elementOf? part = some value from helement, Option.map_some, Function.comp_apply,
        valueSchema_congr hsame]
    rw [Nat.mul_succ, valueSchema_slice (n := n) hkind htype hslice hbody, hvalue]
  map levels n fields h _ := by
    obtain ⟨parts, hparts, hnodes⟩ := Option.bind_eq_some_iff.1 h
    obtain ⟨hkind, ⟨t, htype, hmap⟩, body, hbody, rfl⟩ := bodyOf?_eq_some hparts
    obtain ⟨hpairs, rfl⟩ := Spelling.each?_eq_some hnodes
    refine ⟨body.namedChildren.filterMap spelling.field?, List.map_id _, ?_⟩
    rw [Nat.mul_succ, valueSchema_map (n := n) hkind htype hmap hbody, fieldsOf,
      entries_of_spelling hpairs]

end Go

end TrackingPlan
