import TrackingPlan.Proofs.Related
import TrackingPlan.Schema
import TrackingPlan.Tree

/-!
# Literal data

The texts, numbers, truth values, arrays and maps that every language can write out, apart from how
it writes them. `Datum.schema` is the schema that such data should have, and `Datum.seen` what is
left of it when only some levels are looked at: `Datum.seen_eq_schema` says when that is everything.

A language has a `Spelling`, which tells the nodes that stand for a datum. `Spelling.IsReadBy` says
what an inference does with one node of each kind, and `Spelling.IsReadBy.value_eq_seen` concludes
that the inference finds what can be seen of the datum.
-/

namespace TrackingPlan

/-- A value that can be written out in every language. -/
inductive Datum where
  /-- A text, as it is written between its marks. -/
  | text (content : String)
  | number (digits : String)
  | boolean (value : Bool)
  | null
  | array (items : List Datum)
  /-- The entries in the order in which they are written; a name may occur again. -/
  | map (entries : List (String × Datum))
deriving Inhabited

namespace Datum

/-! ## Schemas -/

mutual
/-- `schema d` is the schema of the datum `d`. -/
def schema : Datum → Schema
  | .text _ => .string
  | .number _ => .number
  | .boolean _ => .boolean
  | .null => .null
  | .array items => .array (Schema.arrayItems (schemas items))
  | .map entries => .object (Named.ofEntries (fieldSchemas entries))

/-- `schemas items` lists the schemas of `items`. -/
def schemas : List Datum → List Schema
  | [] => []
  | d :: rest => schema d :: schemas rest

/-- `fieldSchemas entries` gives the names of `entries` the schemas of their values. -/
def fieldSchemas : List (String × Datum) → List (String × Schema)
  | [] => []
  | (name, d) :: rest => (name, schema d) :: fieldSchemas rest
end

mutual
/-- `nesting d` is the number of levels below `d`. -/
def nesting : Datum → Nat
  | .array items => nestingOfItems items
  | .map entries => nestingOfEntries entries
  | _ => 0

/-- `nestingOfItems items` is the number of levels below an array of these items. -/
def nestingOfItems : List Datum → Nat
  | [] => 0
  | d :: rest => max (nesting d + 1) (nestingOfItems rest)

/-- `nestingOfEntries entries` is the number of levels below a map of these entries. -/
def nestingOfEntries : List (String × Datum) → Nat
  | [] => 0
  | (_, d) :: rest => max (nesting d + 1) (nestingOfEntries rest)
end

/-- `seen levels d` is the schema of `d` when that many levels are looked at. -/
def seen : (levels : Nat) → Datum → Schema
  | 0, _ => .any
  | levels + 1, .array items => .array (Schema.arrayItems (items.map (seen levels)))
  | levels + 1, .map entries =>
    .object (Named.ofEntries (entries.map fun entry => (entry.1, seen levels entry.2)))
  | _ + 1, d => d.schema

variable {d : Datum} {items : List Datum} {entries : List (String × Datum)} {levels : Nat}

/-- The schemas of the items are taken one by one. -/
theorem schemas_eq_map : schemas items = items.map schema := by
  induction items with
  | nil => rfl
  | cons d rest ih => rw [schemas, ih, List.map_cons]

/-- The schemas of the fields are taken one by one. -/
theorem fieldSchemas_eq_map :
    fieldSchemas entries = entries.map fun entry => (entry.1, entry.2.schema) := by
  induction entries with
  | nil => rfl
  | cons entry rest ih => rw [fieldSchemas, ih, List.map_cons]

/-- The items are nested less deep than the list. -/
theorem nesting_lt_of_mem_items (h : d ∈ items) : d.nesting < (array items).nesting := by
  simp only [nesting]
  induction items with
  | nil => cases h
  | cons first rest ih =>
      rw [nestingOfItems]
      rcases List.mem_cons.1 h with rfl | hmem
      · omega
      · exact Nat.lt_of_lt_of_le (ih hmem) (Nat.le_max_right _ _)

/-- The values of a map are nested less deep than the map. -/
theorem nesting_lt_of_mem_entries {entry : String × Datum} (h : entry ∈ entries) :
    entry.2.nesting < (map entries).nesting := by
  simp only [nesting]
  induction entries with
  | nil => cases h
  | cons first rest ih =>
      rw [nestingOfEntries]
      rcases List.mem_cons.1 h with rfl | hmem
      · omega
      · exact Nat.lt_of_lt_of_le (ih hmem) (Nat.le_max_right _ _)

/-- A datum that is nested no deeper than the levels looked at has its full schema. -/
theorem seen_eq_schema (h : d.nesting < levels) : d.seen levels = d.schema := by
  induction levels generalizing d with
  | zero => cases h
  | succ levels ih =>
      cases d with
      | array items =>
          have hitems : items.map (seen levels) = items.map schema :=
            List.map_congr_left fun d hd => ih (by have := nesting_lt_of_mem_items hd; omega)
          rw [seen, schema, schemas_eq_map, hitems]
      | map entries =>
          have hentries : entries.map (fun entry => (entry.1, seen levels entry.2)) =
              entries.map fun entry => (entry.1, entry.2.schema) :=
            List.map_congr_left fun entry hentry => by
              rw [ih (by have := nesting_lt_of_mem_entries hentry; omega)]
          rw [seen, schema, fieldSchemas_eq_map, hentries]
      | _ => rfl

/-- `tower height` is a missing value inside that many arrays. -/
def tower : (height : Nat) → Datum
  | 0 => .null
  | height + 1 => .array [tower height]

/-- The number of levels can not be smaller: of a tower all levels have to be looked at. -/
theorem seen_tower_eq_schema_iff {height : Nat} :
    (tower height).seen levels = (tower height).schema ↔ height < levels := by
  induction height generalizing levels with
  | zero =>
      cases levels with
      | zero => simp [seen, tower, schema, Schema.any, Schema.null]
      | succ levels => simp [seen, tower]
  | succ height ih =>
      cases levels with
      | zero => simp [seen, tower, schema, Schema.any]
      | succ levels => simpa [seen, tower, schema, schemas, Schema.arrayItems] using ih

end Datum

/-! ## Spellings -/

/-- How a language writes data out. -/
structure Spelling where
  /-- What stands on either side of a text. -/
  marks : List String
  /-- The kinds of texts. -/
  texts : List String
  /-- The kinds of numbers. -/
  numbers : List String
  /-- The kind of the missing value. -/
  missing : String
  /-- The kinds of texts that may be keys. -/
  keys : List String
  /-- The kinds of names that stand for themselves as keys. -/
  bareKeys : List String
  /-- The parts of an array. -/
  parts? : Node → Option (List Node)
  /-- The item that a part of an array is. -/
  item? : Node → Option Node
  /-- The parts of a map. -/
  pairs? : Node → Option (List Node)
  /-- The key and the value that a part of a map is. -/
  pair? : Node → Option (Node × Node)

namespace Spelling

/-- `each? f list` lists what `f` gives, if it gives something everywhere. -/
def each? {α β : Type} (f : α → Option β) (list : List α) : Option (List β) :=
  if list.all fun a => (f a).isSome then some (list.filterMap f) else none

/-- `isText l n` holds of texts without embedded values. -/
def isText (l : Spelling) (n : Node) : Bool :=
  l.texts.contains n.kind &&
    !n.namedChildren.any fun c => c.kind = "interpolation" || c.kind = "template_substitution"

/-- `isPlain c` holds of characters that mean themselves between all marks. -/
def isPlain (c : Char) : Bool := !(['"', '\'', '`', '\\'].contains c)

/-- `within? mark cs` is the plain text that stands in `cs` between two marks. -/
def within? (mark : String) (cs : List Char) : Option (List Char) :=
  ((cs.dropPrefix? mark.toList).bind (·.dropSuffix? mark.toList)).filter (·.all isPlain)

/-- `content? l n` is the plain text that `n` stands for. -/
def content? (l : Spelling) (n : Node) : Option String :=
  if l.isText n then (l.marks.findSome? (within? · n.text.toList)).map String.ofList else none

/-- `key? l n` is the text that the key `n` stands for. -/
def key? (l : Spelling) (n : Node) : Option String :=
  if l.bareKeys.contains n.kind && n.text.toList.all isPlain then some n.text
  else if l.keys.contains n.kind then l.content? n
  else none

/-- `items? l n` lists the items of the array `n`. -/
def items? (l : Spelling) (n : Node) : Option (List Node) :=
  (l.parts? n).bind (each? l.item?)

/-- `field? l part` is the name and the value of a part of a map. -/
def field? (l : Spelling) (part : Node) : Option (String × Node) :=
  (l.pair? part).bind fun pair => (l.key? pair.1).map (·, pair.2)

/-- `fields? l n` lists the names and the values of the map `n`. -/
def fields? (l : Spelling) (n : Node) : Option (List (String × Node)) :=
  (l.pairs? n).bind (each? l.field?)

mutual
/-- `spells l d n` holds when `n` is the datum `d` written out. -/
def spells (l : Spelling) : Datum → Node → Bool
  | .text content, n => l.isText n && l.marks.any fun mark => n.text = mark ++ content ++ mark
  | .number digits, n => l.numbers.contains n.kind && n.text = digits
  | .boolean value, n => n.kind = if value then "true" else "false"
  | .null, n => n.kind = l.missing
  | .array items, n =>
    match l.items? n with
    | none => false
    | some nodes => spellsItems l items nodes
  | .map entries, n =>
    match l.fields? n with
    | none => false
    | some fields => spellsFields l entries fields

/-- `spellsItems l items nodes` holds when `nodes` are the items written out. -/
def spellsItems (l : Spelling) : List Datum → List Node → Bool
  | [], [] => true
  | d :: items, n :: nodes => spells l d n && spellsItems l items nodes
  | _, _ => false

/-- `spellsFields l entries fields` holds when `fields` are the entries written out. -/
def spellsFields (l : Spelling) : List (String × Datum) → List (String × Node) → Bool
  | [], [] => true
  | (name, d) :: entries, (key, n) :: fields =>
    name = key && spells l d n && spellsFields l entries fields
  | _, _ => false
end

variable {l : Spelling}

/-- Nodes spell items if each spells its own. -/
theorem spellsItems_iff {items : List Datum} {nodes : List Node} :
    l.spellsItems items nodes = true ↔
      List.Forall₂ (fun d n => l.spells d n = true) items nodes := by
  induction items generalizing nodes with
  | nil => cases nodes <;> simp [spellsItems]
  | cons d items ih => cases nodes <;> simp [spellsItems, ih]

/-- Fields spell entries if each has the name of its own and spells its value. -/
theorem spellsFields_iff {entries : List (String × Datum)} {fields : List (String × Node)} :
    l.spellsFields entries fields = true ↔
      List.Forall₂ (fun entry field => entry.1 = field.1 ∧ l.spells entry.2 field.2 = true)
        entries fields := by
  induction entries generalizing fields with
  | nil => cases fields <;> simp [spellsFields]
  | cons entry entries ih => cases fields <;> simp [spellsFields, ih]

/-- What is a text has one of the kinds of texts. -/
theorem contains_of_isText {n : Node} (h : l.isText n = true) : l.texts.contains n.kind = true :=
  (Bool.and_eq_true_iff.1 h).1

/-- What spells a text is a text. -/
theorem isText_of_spells {content : String} {n : Node} (h : l.spells (.text content) n = true) :
    l.isText n = true :=
  (Bool.and_eq_true_iff.1 h).1

/-- What spells a truth value has its kind. -/
theorem kind_of_boolean {truth : Bool} {n : Node} (h : l.spells (.boolean truth) n = true) :
    n.kind = "true" ∨ n.kind = "false" := by
  cases truth
  · exact .inr (of_decide_eq_true h)
  · exact .inl (of_decide_eq_true h)

/-- What spells a list has items that spell those of the list. -/
theorem spells_array {items : List Datum} {n : Node} (h : l.spells (.array items) n = true) :
    ∃ nodes, l.items? n = some nodes ∧
      List.Forall₂ (fun d n => l.spells d n = true) items nodes := by
  rw [spells] at h
  split at h
  next => cases h
  next nodes hnodes => exact ⟨nodes, hnodes, spellsItems_iff.1 h⟩

/-- What spells a map has fields that spell its entries. -/
theorem spells_map {entries : List (String × Datum)} {n : Node}
    (h : l.spells (.map entries) n = true) :
    ∃ fields, l.fields? n = some fields ∧
      List.Forall₂ (fun entry field => entry.1 = field.1 ∧ l.spells entry.2 field.2 = true)
        entries fields := by
  rw [spells] at h
  split at h
  next => cases h
  next fields hfields => exact ⟨fields, hfields, spellsFields_iff.1 h⟩

/-- If each member is read, what is found are the results in order. -/
theorem each?_eq_some {α β : Type} {f : α → Option β} {list : List α} {found : List β}
    (h : each? f list = some found) :
    (∀ a ∈ list, ∃ b, f a = some b) ∧ found = list.filterMap f := by
  unfold each? at h
  split at h
  next hall =>
    refine ⟨fun a ha => Option.isSome_iff_exists.1 (List.all_eq_true.1 hall a ha), ?_⟩
    exact (Option.some.inj h).symm
  next => cases h

/-- What stands between two marks is the text without them, and plain. -/
theorem eq_of_within? {mark : String} {cs content : List Char}
    (h : within? mark cs = some content) :
    cs = mark.toList ++ content ++ mark.toList ∧ content.all isPlain = true := by
  obtain ⟨hinside, hplain⟩ := Option.filter_eq_some_iff.1 h
  obtain ⟨rest, hbefore, hafter⟩ := Option.bind_eq_some_iff.1 hinside
  obtain ⟨first, rfl, hfirst⟩ := List.dropPrefix?_eq_some_iff.1 hbefore
  obtain ⟨last, rfl, hlast⟩ := List.dropSuffix?_eq_some_iff.1 hafter
  rw [eq_of_beq hfirst, eq_of_beq hlast, List.append_assoc]
  exact ⟨rfl, hplain⟩

/-- A plain text stands between two equal marks. -/
theorem content?_eq_some {n : Node} {content : String} (h : l.content? n = some content) :
    ∃ mark ∈ l.marks, n.text.toList = mark.toList ++ content.toList ++ mark.toList ∧
      content.toList.all isPlain = true ∧ l.isText n = true := by
  unfold content? at h
  split at h
  next hisText =>
    obtain ⟨inside, hinside, rfl⟩ := Option.map_eq_some_iff.1 h
    obtain ⟨mark, hmark, hwithin⟩ := List.exists_of_findSome?_eq_some hinside
    obtain ⟨htext, hplain⟩ := eq_of_within? hwithin
    rw [String.toList_ofList]
    exact ⟨mark, hmark, htext, hplain, hisText⟩
  next => cases h

/-- `l.IsValue n` holds when `n` is some datum written out. -/
def IsValue (l : Spelling) (n : Node) : Prop := ∃ d, l.spells d n = true

/-- What a key may be: a name that stands for itself, or a text. -/
theorem key?_cases {n : Node} {name : String} (h : l.key? n = some name) :
    l.bareKeys.contains n.kind = true ∧ n.text = name ∨
      l.keys.contains n.kind = true ∧ l.content? n = some name := by
  unfold key? at h
  split at h
  next hbare => exact .inl ⟨(Bool.and_eq_true_iff.1 hbare).1, Option.some.inj h⟩
  next =>
    split at h
    next hquoted => exact .inr ⟨hquoted, h⟩
    next => cases h

/-- A kind that stands for nothing is not that of a value. -/
theorem IsValue.kind_ne {n : Node} {kind : String} (h : l.IsValue n)
    (hleaf : kind ∉ l.texts ++ l.numbers ++ ["true", "false", l.missing])
    (hparts : ∀ n : Node, n.kind = kind → l.parts? n = none)
    (hpairs : ∀ n : Node, n.kind = kind → l.pairs? n = none) : n.kind ≠ kind := by
  rintro rfl
  simp only [List.mem_append, List.mem_cons, List.not_mem_nil, or_false, not_or] at hleaf
  obtain ⟨⟨htexts, hnumbers⟩, htrue, hfalse, hmissing⟩ := hleaf
  obtain ⟨d, hd⟩ := h
  cases d with
  | text content =>
      exact htexts (List.contains_iff_mem.1 (contains_of_isText (isText_of_spells hd)))
  | number digits => exact hnumbers (List.contains_iff_mem.1 (Bool.and_eq_true_iff.1 hd).1)
  | boolean truth => exact (kind_of_boolean hd).elim htrue hfalse
  | null => exact hmissing (of_decide_eq_true hd)
  | array items =>
      obtain ⟨nodes, hnodes, -⟩ := spells_array hd
      rw [items?, hparts n rfl] at hnodes
      cases hnodes
  | map entries =>
      obtain ⟨fields, hfields, -⟩ := spells_map hd
      rw [fields?, hpairs n rfl] at hfields
      cases hfields

/-! ## Parts that are children -/

/-- `childrenOf? kind n` lists the children of a node of that kind. -/
def childrenOf? (kind : String) (n : Node) : Option (List Node) :=
  if n.kind = kind then some n.namedChildren else none

/-- `pairOf? n` is the key and the value of a pair. -/
def pairOf? (n : Node) : Option (Node × Node) :=
  if n.kind = "pair" then
    match n.child? "key", n.child? "value" with
    | some key, some value => some (key, value)
    | _, _ => none
  else none

variable {kind : String} {n : Node}

/-- A node of another kind has no children to be read. -/
theorem childrenOf?_of_ne {other : String} (hne : other ≠ kind) (h : n.kind = other) :
    childrenOf? kind n = none :=
  if_neg (h ▸ hne)

/-- The children that are read are the named ones of a node of the kind. -/
theorem childrenOf?_eq_some {children : List Node} (h : childrenOf? kind n = some children) :
    n.kind = kind ∧ children = n.namedChildren := by
  unfold childrenOf? at h
  split at h
  next hkind => exact ⟨hkind, (Option.some.inj h).symm⟩
  next => cases h

/-- Items that are read from children are the named children of the node. -/
theorem items?_of_children (hparts : l.parts? = childrenOf? kind) (hitem : l.item? = some)
    {nodes : List Node} (h : l.items? n = some nodes) :
    n.kind = kind ∧ nodes = n.namedChildren := by
  unfold items? at h
  rw [hparts, hitem] at h
  obtain ⟨parts, hchildren, hnodes⟩ := Option.bind_eq_some_iff.1 h
  obtain ⟨hkind, rfl⟩ := childrenOf?_eq_some hchildren
  refine ⟨hkind, ?_⟩
  rw [(each?_eq_some hnodes).2, List.filterMap_some]

/-- Fields that are read from children are those of the named children of the node. -/
theorem fields?_of_children (hpairs : l.pairs? = childrenOf? kind) {fields : List (String × Node)}
    (h : l.fields? n = some fields) :
    n.kind = kind ∧ (∀ c ∈ n.namedChildren, ∃ field, l.field? c = some field) ∧
      fields = n.namedChildren.filterMap l.field? := by
  unfold fields? at h
  rw [hpairs] at h
  obtain ⟨parts, hchildren, hfields⟩ := Option.bind_eq_some_iff.1 h
  obtain ⟨hkind, rfl⟩ := childrenOf?_eq_some hchildren
  exact ⟨hkind, each?_eq_some hfields⟩

/-- What spells a map has the kind of maps. -/
theorem kind_of_spells_map (hpairs : l.pairs? = childrenOf? kind) {entries : List (String × Datum)}
    (h : l.spells (.map entries) n = true) : n.kind = kind := by
  obtain ⟨fields, hfields, -⟩ := spells_map h
  exact (fields?_of_children hpairs hfields).1

/-- A field that is read from a pair is its key and its value. -/
theorem field?_of_pair (hpair : l.pair? = pairOf?) {name : String} {value : Node}
    (h : l.field? n = some (name, value)) :
    n.kind = "pair" ∧ n.child? "value" = some value ∧
      ∃ key, n.child? "key" = some key ∧ l.key? key = some name := by
  unfold field? at h
  rw [hpair] at h
  obtain ⟨pair, hnodes, hname⟩ := Option.bind_eq_some_iff.1 h
  obtain ⟨key, hkey, heq⟩ := Option.map_eq_some_iff.1 hname
  cases heq
  unfold pairOf? at hnodes
  split at hnodes
  next hkind =>
    split at hnodes
    next keyNode valueNode hchild hvalue =>
      cases hnodes
      exact ⟨hkind, hvalue, keyNode, hchild, hkey⟩
    next => cases hnodes
  next => cases hnodes

/-! ## Inferences -/

variable {α : Type} {node : α → Node} {value : Nat → α → Schema}

/-- The inference `value` reads what `l` spells, one level at a time. Its sites are nodes with their
surroundings. -/
structure IsReadBy (l : Spelling) (node : α → Node) (value : Nat → α → Schema) : Prop where
  /-- Without a level to look at nothing is known. -/
  none : ∀ s, value 0 s = .any
  text : ∀ levels s, l.texts.contains (node s).kind → value (levels + 1) s = .string
  number : ∀ levels s, l.numbers.contains (node s).kind → value (levels + 1) s = .number
  boolean : ∀ levels s, (node s).kind = "true" ∨ (node s).kind = "false" →
    value (levels + 1) s = .boolean
  null : ∀ levels s, (node s).kind = l.missing → value (levels + 1) s = .null
  /-- An array is read by reading its items with a level less. -/
  array : ∀ levels s nodes, l.items? (node s) = some nodes → (∀ n ∈ nodes, l.IsValue n) →
    ∃ sites : List α, sites.map node = nodes ∧
      value (levels + 1) s = .array (Schema.arrayItems (sites.map (value levels)))
  /-- A map is read by reading its values with a level less. -/
  map : ∀ levels s fields, l.fields? (node s) = some fields →
    (∀ field ∈ fields, l.IsValue field.2) →
    ∃ sites : List (String × α), sites.map (fun site => (site.1, node site.2)) = fields ∧
      value (levels + 1) s =
        .object (Named.ofEntries (sites.map fun site => (site.1, value levels site.2)))

/-- The values of the parts of a map have sites wherever the values of one part are. -/
theorem exists_fieldSites (l : Spelling) (node : α → Node) (place : Node → Node → α)
    (hplace : ∀ part n, node (place part n) = n) (parts : List Node) :
    ∃ sites : List (String × α),
      sites.map (fun site => (site.1, node site.2)) = parts.filterMap l.field? ∧
        ∀ read : α → Schema, sites.map (fun site => (site.1, read site.2)) =
          parts.filterMap fun part =>
            (l.field? part).map fun field => (field.1, read (place part field.2)) := by
  refine ⟨parts.filterMap fun part =>
    (l.field? part).map fun field => (field.1, place part field.2), ?_, fun read => ?_⟩
  · simp [List.map_filterMap, Option.map_map, Function.comp_def, hplace]
  · simp [List.map_filterMap, Option.map_map, Function.comp_def]

/-- An inference that reads what is spelled finds what can be seen of it. -/
theorem IsReadBy.value_eq_seen (h : l.IsReadBy node value) {d : Datum} {s : α} {levels : Nat}
    (hspells : l.spells d (node s) = true) : value levels s = d.seen levels := by
  induction levels generalizing d s with
  | zero => exact h.none s
  | succ levels ih =>
      cases d with
      | text content => exact h.text levels s (contains_of_isText (isText_of_spells hspells))
      | number digits => exact h.number levels s (Bool.and_eq_true_iff.1 hspells).1
      | boolean truth => exact h.boolean levels s (kind_of_boolean hspells)
      | null => exact h.null levels s (of_decide_eq_true hspells)
      | array items =>
          obtain ⟨nodes, hnodes, hitems⟩ := spells_array hspells
          have hvalues : ∀ n ∈ nodes, l.IsValue n := fun n hn =>
            let ⟨d, _, hd⟩ := hitems.exists_left hn
            ⟨d, hd⟩
          obtain ⟨sites, rfl, hvalue⟩ := h.array levels s nodes hnodes hvalues
          have hschemas : items.map (Datum.seen levels) = sites.map (value levels) :=
            (List.forall₂_map_right_iff.1 hitems).map_eq fun d s hd => (ih hd).symm
          rw [hvalue, Datum.seen, hschemas]
      | map entries =>
          obtain ⟨fields, hfields, hentries⟩ := spells_map hspells
          have hvalues : ∀ field ∈ fields, l.IsValue field.2 := fun field hfield =>
            let ⟨entry, _, hentry⟩ := hentries.exists_left hfield
            ⟨entry.2, hentry.2⟩
          obtain ⟨sites, rfl, hvalue⟩ := h.map levels s fields hfields hvalues
          have hschemas : entries.map (fun entry => (entry.1, entry.2.seen levels)) =
              sites.map fun site => (site.1, value levels site.2) :=
            (List.forall₂_map_right_iff.1 hentries).map_eq fun entry site hentry =>
              Prod.ext hentry.1 (ih hentry.2).symm
          rw [hvalue, Datum.seen, hschemas]

end Spelling

end TrackingPlan
