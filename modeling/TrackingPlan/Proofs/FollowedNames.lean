import Mathlib.Logic.Relation
import TrackingPlan.Proofs.ReexportedNames

/-!
# How far names are followed

A name leads to a text through declarations, imports and exports. `Chain` says so without any limit,
and `cost` is what a chain takes of the limit: two for a name that is another name, and one more for
each level down in an object; one for an import, one for what a module passes on, and one for a name
that the module has itself; one for the text at the end. By `followed_chains` a text is found just
if some chain within the limit ends in one, and names in a circle have none. So a chain of three
hops is followed if it goes down one level at most, but `fourth_alias_not_followed` has one of four.
-/

namespace TrackingPlan.Script

open Relation

variable {modules : Modules} {m : Module} {value part argument : Site}
  {members rest left path : List String}
  {name first base text other : String} {place : Node} {hops spare levels : Nat}

/-! ## Values -/

/-- The members are taken one after another from the objects written out at `value`, so many levels
down to `part`, which is no object; those that are left are still to take. -/
inductive Enters : (value : Site) → (members : List String) → (part : Site) → (left : List String) →
    (levels : Nat) → Prop where
  | here {value : Site} {members : List String} (hkind : (unwrap value).kind ≠ "object") :
      Enters value members (unwrap value) members 0
  | member {value inner part : Site} {first : String} {rest left : List String} {levels : Nat}
      (hkind : (unwrap value).kind = "object") (hmember : member? (unwrap value) first = some inner)
      (hinner : Enters inner rest part left levels) :
      Enters value (first :: rest) part left (levels + 1)

/-- The expression is a name or a path of names, and its members are those of `base` at `path`. -/
inductive RefersTo (part : Site) (members : List String) :
    (base : String) → (path : List String) → Prop where
  | name (hkind : part.kind ∈ ["identifier", "shorthand_property_identifier"]) :
      RefersTo part members part.text members
  | path {base : String} {rest : List String}
      (hkind : part.kind ∈ ["member_expression", "subscript_expression"])
      (hsegments : segments? part.node = some (base :: rest)) :
      RefersTo part members base (rest ++ members)

/-- The expression is a literal text, or an enumeration with a literal text for the member. -/
inductive HasText (part : Site) : (members : List String) → (text : String) → Prop where
  | literal {text : String} (htext : literal? part.node = some text) : HasText part [] text
  | enumMember {member text : String} (hkind : part.kind = "enum_declaration")
      (htext : enumMember? part.node member = some text) : HasText part [member] text

/-- Literals are strings and templates. -/
theorem kind_of_literal? {n : Node} (h : literal? n = some text) :
    n.kind ∈ ["string", "template_string"] := by
  unfold literal? at h
  split at h
  next hkind => simp [hkind]
  next hkind => simp [hkind]
  next => cases h

/-- A text is that of a string, a template or an enumeration. -/
theorem HasText.kind_mem (h : HasText part left text) :
    part.kind ∈ ["string", "template_string", "enum_declaration"] := by
  cases h with
  | literal htext => exact List.mem_append_left ["enum_declaration"] (kind_of_literal? htext)
  | enumMember hkind => simp [hkind]

/-- What refers to a name is a name or a member of one. -/
theorem RefersTo.kind_mem (h : RefersTo part left base path) : part.kind ∈
    ["identifier", "shorthand_property_identifier", "member_expression",
      "subscript_expression"] := by
  cases h with
  | name hkind => exact List.mem_append_left ["member_expression", "subscript_expression"] hkind
  | path hkind => exact List.mem_append_right ["identifier", "shorthand_property_identifier"] hkind

/-- A name has no text of its own. -/
theorem RefersTo.not_hasText (h : RefersTo part left base path) : ¬HasText part left text := by
  intro htext
  have hname := h.kind_mem
  have hkind := htext.kind_mem
  simp only [List.mem_cons, List.not_mem_nil, or_false] at hkind
  rcases hkind with hkind | hkind | hkind <;> simp [hkind] at hname

/-- A part refers to one name, and to one member of what that stands for. -/
theorem RefersTo.unique {base' : String} {path' : List String} (h : RefersTo part left base path)
    (h' : RefersTo part left base' path') : base = base' ∧ path = path' := by
  have hdisjoint : part.kind ∈ ["identifier", "shorthand_property_identifier"] →
      part.kind ∉ ["member_expression", "subscript_expression"] := by
    simp only [List.mem_cons, List.not_mem_nil, or_false]
    rintro (hkind | hkind) <;> simp [hkind]
  cases h with
  | name hkind =>
      cases h' with
      | name => exact ⟨rfl, rfl⟩
      | path hkind' => exact absurd hkind' (hdisjoint hkind)
  | path hkind hsegments =>
      cases h' with
      | name hkind' => exact absurd hkind (hdisjoint hkind')
      | path _ hsegments' =>
          obtain ⟨rfl, rfl⟩ := List.cons.inj (Option.some.inj (hsegments.symm.trans hsegments'))
          exact ⟨rfl, rfl⟩

/-- A part has one text. -/
theorem HasText.unique (h : HasText part left text) (h' : HasText part left other) :
    text = other := by
  cases h with
  | literal htext =>
      cases h' with
      | literal htext' => exact Option.some.inj (htext.symm.trans htext')
  | enumMember _ htext =>
      cases h' with
      | enumMember _ htext' => exact Option.some.inj (htext.symm.trans htext')

/-- An access to members enters one part of a value, after one number of levels. -/
theorem Enters.unique {part' : Site} {left' : List String} {levels' : Nat}
    (h : Enters value members part left levels)
    (h' : Enters value members part' left' levels') :
    part = part' ∧ left = left' ∧ levels = levels' := by
  induction h generalizing levels' with
  | here hkind =>
      cases h' with
      | here => exact ⟨rfl, rfl, rfl⟩
      | member hkind' => exact absurd hkind' hkind
  | member hkind hmember _ ih =>
      cases h' with
      | here hkind' => exact absurd hkind hkind'
      | member _ hmember' hinner' =>
          obtain rfl := Option.some.inj (hmember.symm.trans hmember')
          obtain ⟨rfl, rfl, rfl⟩ := ih hinner'
          exact ⟨rfl, rfl, rfl⟩

/-- A level of access into an object goes on in its member, for one hop. -/
theorem stringIn?_of_object (hkind : (unwrap value).kind = "object") :
    stringIn? modules (hops + 1) m value (first :: rest) =
      (member? (unwrap value) first).bind (stringIn? modules hops m · rest) := by
  rw [stringIn?]
  simp only [hkind]
  cases member? (unwrap value) first <;> simp

/-- A part that refers to a name has the text of what it refers to, for one hop. -/
theorem stringIn?_of_refersTo (h : RefersTo (unwrap value) members base path) :
    stringIn? modules (hops + 1) m value members =
      stringConstant? modules hops m base path (unwrap value).node := by
  unfold stringIn?
  dsimp only
  cases h with
  | name hkind =>
      simp only [List.mem_cons, List.not_mem_nil, or_false] at hkind
      rcases hkind with hkind | hkind <;> simp [hkind]
  | path hkind hsegments =>
      simp only [List.mem_cons, List.not_mem_nil, or_false] at hkind
      rcases hkind with hkind | hkind <;> simp [hkind, hsegments]

/-- A part with a text has it as soon as there is a hop to spend. -/
theorem stringIn?_of_hasText (h : HasText (unwrap value) members text) :
    stringIn? modules (hops + 1) m value members = some text := by
  unfold stringIn?
  dsimp only
  cases h with
  | literal htext =>
      have hkind : (unwrap value).kind ∈ ["string", "template_string"] := kind_of_literal? htext
      simp only [List.mem_cons, List.not_mem_nil, or_false] at hkind
      rcases hkind with hkind | hkind <;> simp [hkind, htext]
  | enumMember hkind htext => simp [hkind, htext]

/-- A part with a text has one of its own or refers to a name that has it. -/
theorem hasText_or_refersTo (hkind : (unwrap value).kind ≠ "object")
    (h : stringIn? modules (hops + 1) m value members = some text) :
    HasText (unwrap value) members text ∨ ∃ base path, RefersTo (unwrap value) members base path ∧
      stringConstant? modules hops m base path (unwrap value).node = some text := by
  unfold stringIn? at h
  dsimp only at h
  split at h
  next hname => exact .inr ⟨_, _, .name (by simpa using hname), h⟩
  next =>
    split at h
    next hpath =>
      split at h
      next base rest hsegments =>
        exact .inr ⟨base, rest ++ members, .path (by simpa using hpath) hsegments, h⟩
      next => cases h
    next =>
      split at h
      next => exact .inl (.literal h)
      next first rest =>
        split at h
        next henum =>
          simp only [Bool.and_eq_true, decide_eq_true_eq, List.isEmpty_iff] at henum
          obtain ⟨henum, rfl⟩ := henum
          exact .inl (.enumMember henum h)
        next => cases h

/-- The text of a value is that of the expression behind its objects, or of the name there. -/
theorem exists_enters (h : stringIn? modules hops m value members = some text) :
    ∃ part left levels, Enters value members part left levels ∧
      (HasText part left text ∧ levels < hops ∨
      ∃ base path spare, RefersTo part left base path ∧ hops = levels + 1 + spare ∧
        stringConstant? modules spare m base path part.node = some text) := by
  induction hops generalizing value members with
  | zero => simp [stringIn?] at h
  | succ hops ih =>
      by_cases hkind : (unwrap value).kind = "object"
      · cases members with
        | nil =>
            simp [stringIn?, hkind, literal?, show (unwrap value).node.kind = "object" from hkind]
              at h
        | cons first rest =>
            rw [stringIn?_of_object hkind] at h
            obtain ⟨inner, hmember, hinner⟩ := Option.bind_eq_some_iff.1 h
            obtain ⟨part, left, levels, henters, hpart⟩ := ih hinner
            refine ⟨part, left, levels + 1, .member hkind hmember henters, hpart.imp ?_ ?_⟩
            · rintro ⟨htext, hlevels⟩
              exact ⟨htext, Nat.succ_lt_succ hlevels⟩
            · rintro ⟨base, path, spare, hrefers, hhops, hbase⟩
              exact ⟨base, path, spare, hrefers, by omega, hbase⟩
      · refine ⟨unwrap value, members, 0, .here hkind, (hasText_or_refersTo hkind h).imp ?_ ?_⟩
        · exact fun htext => ⟨htext, Nat.succ_pos hops⟩
        · rintro ⟨base, path, hrefers, hbase⟩
          exact ⟨base, path, hops, hrefers, by omega, hbase⟩

/-- A value is followed like the part that it enters, with a hop less for each level. -/
theorem Enters.stringIn?_eq {found : Option String} (h : Enters value members part left levels)
    (hpart : ∀ inner, unwrap inner = part → stringIn? modules (spare + 1) m inner left = found) :
    stringIn? modules (levels + 1 + spare) m value members = found := by
  induction h with
  | here => rw [show 0 + 1 + spare = spare + 1 by omega, hpart _ rfl]
  | @member _ _ _ _ _ _ levels hkind hmember _ ih =>
      rw [show levels + 1 + 1 + spare = levels + 1 + spare + 1 by omega,
        stringIn?_of_object hkind, hmember, Option.bind_some, ih hpart]

/-- Behind all its levels, a value has the text that the part refers to. -/
theorem Enters.stringIn?_of_refersTo (h : Enters value members part left levels)
    (hrefers : RefersTo part left base path) :
    stringIn? modules (levels + 1 + spare) m value members =
      stringConstant? modules spare m base path part.node :=
  h.stringIn?_eq fun inner hinner => by
    subst hinner
    exact Script.stringIn?_of_refersTo hrefers

/-- Behind all its levels, a value has the text of the part. -/
theorem Enters.stringIn?_of_hasText (h : Enters value members part left levels)
    (htext : HasText part left text) :
    stringIn? modules (levels + 1 + spare) m value members = some text :=
  h.stringIn?_eq fun inner hinner => by
    subst hinner
    exact Script.stringIn?_of_hasText htext

/-! ## Chains -/

/-- Where a chain stands: at a name that is used at a place of a script, or at one that a script
exports, each with the members that are still to take. -/
inductive Mention where
  | used (m : Module) (name : String) (members : List String) (place : Node)
  | exported (m : Module) (name : String) (members : List String)

/-- The name is declared with a value that has `part` for the members, so many levels down. -/
inductive HasValue (m : Module) (name : String) (members : List String) (place : Node) :
    (part : Site) → (left : List String) → (levels : Nat) → Prop where
  | intro {b : Binding} {value part : Site} {left : List String} {levels : Nat}
      (hlookup : m.lookup? name place = some b) (hvalue : b.value = some value)
      (henters : Enters value members part left levels) :
      HasValue m name members place part left levels

/-- A name with a value is declared. -/
theorem HasValue.lookup?_ne_none (h : HasValue m name members place part left levels) :
    m.lookup? name place ≠ none := by
  cases h with
  | intro hlookup => simp [hlookup]

/-- A name has one value, entered at one part after one number of levels. -/
theorem HasValue.unique {part' : Site} {left' : List String} {levels' : Nat}
    (h : HasValue m name members place part left levels)
    (h' : HasValue m name members place part' left' levels') :
    part = part' ∧ left = left' ∧ levels = levels' := by
  cases h with
  | intro hlookup hvalue henters =>
      cases h' with
      | intro hlookup' hvalue' henters' =>
          obtain rfl := Option.some.inj (hlookup.symm.trans hlookup')
          obtain rfl := Option.some.inj (hvalue.symm.trans hvalue')
          exact henters.unique henters'

/-- What a chain does next. -/
inductive Move where
  /-- From a declared name to the one that its value refers to, so many levels down in objects. -/
  | refers (levels : Nat)
  /-- From an imported name to the module that exports it. -/
  | imports
  /-- From a module to one that it passes the name on from. -/
  | passes
  /-- From an exported name to the name that the module has itself. -/
  | owned
  /-- From a declared name to the text of its value, so many levels down in objects. -/
  | literal (levels : Nat)
deriving DecidableEq, Repr

/-- The move leads from one mention to another. -/
inductive Moves (modules : Modules) : Mention → Move → Mention → Prop where
  | refers {m : Module} {name base : String} {members left path : List String} {place : Node}
      {part : Site}
      {levels : Nat} (hvalue : HasValue m name members place part left levels)
      (hrefers : RefersTo part left base path) :
      Moves modules (.used m name members place) (.refers levels) (.used m base path part.node)
  | named {m target : Module} {name specifier exported : String} {members : List String}
      {place : Node}
      (hlookup : m.lookup? name place = none)
      (himport : m.import? name = some ⟨specifier, .named exported⟩)
      (htarget : modules.imported m.path specifier = some target) :
      Moves modules (.used m name members place) .imports (.exported target exported members)
  | all {m target : Module} {name specifier exported : String} {members : List String}
      {place : Node}
      (hlookup : m.lookup? name place = none) (himport : m.import? name = some ⟨specifier, .all⟩)
      (htarget : modules.imported m.path specifier = some target) :
      Moves modules (.used m name (exported :: members) place) .imports
        (.exported target exported members)
  | owned {m : Module} {name : String} {members : List String} (howns : Owns m name) :
      Moves modules (.exported m name members) .owned (.used m name members m.root)
  | passes {m target : Module} {name inner : String} {members : List String} {passed : Reexport}
      (howns : ¬Owns m name) (hpassed : passed ∈ m.reexports)
      (hinner : passed.inner? name = some inner)
      (htarget : modules.imported m.path passed.specifier = some target) :
      Moves modules (.exported m name members) .passes (.exported target inner members)

/-- The name is declared with a value that has the text, so many levels down in objects. -/
inductive Ends : Mention → (levels : Nat) → (text : String) → Prop where
  | text {m : Module} {name text : String} {members left : List String} {place : Node} {part : Site}
      {levels : Nat}
      (hvalue : HasValue m name members place part left levels) (htext : HasText part left text) :
      Ends (.used m name members place) levels text

/-- The moves lead from the mention to the text. -/
inductive Chain (modules : Modules) : Mention → List Move → (text : String) → Prop where
  | ends {start : Mention} {levels : Nat} {text : String} (hends : Ends start levels text) :
      Chain modules start [.literal levels] text
  | move {start next : Mention} {move : Move} {moves : List Move} {text : String}
      (hmove : Moves modules start move next) (hrest : Chain modules next moves text) :
      Chain modules start (move :: moves) text

/-- Some move leads from one mention to the other. -/
def GoesOn (modules : Modules) (start next : Mention) : Prop :=
  ∃ move, Moves modules start move next

/-- The argument of a call is a name, or a path of names, that the mention stands for. -/
inductive Mentions (m : Module) (argument : Site) : Mention → Prop where
  | path {name : String} {members : List String}
      (hkind : (unwrap argument).kind ∈ ["identifier", "member_expression", "subscript_expression"])
      (hsegments : segments? (unwrap argument).node = some (name :: members)) :
      Mentions m argument (.used m name members (unwrap argument).node)

variable {start next back last : Mention} {move : Move} {moves others : List Move}

namespace Move

/-- `cost move` is what a move takes of the limit. -/
def cost : Move → Nat
  | refers levels => levels + 2
  | literal levels => levels + 1
  | imports | passes | owned => 1

/-- `hop move` is one for moves that lead to another declaration or to another module. -/
def hop : Move → Nat
  | refers _ | imports | passes => 1
  | owned | literal _ => 0

/-- `depth move` is how many levels a move goes down in objects. -/
def depth : Move → Nat
  | refers levels | literal levels => levels
  | imports | passes | owned => 0

end Move

/-- `total measure moves` adds up a measure of the moves of a chain. -/
def total (measure : Move → Nat) : List Move → Nat
  | [] => 0
  | move :: moves => measure move + total measure moves

/-! ## What chains take of the limit -/

/-- `duty mention` is what it takes to come from a mention to a name in its module. -/
def Mention.duty : Mention → Nat
  | used .. => 0
  | exported .. => 1

/-- A mention owes one hop at most. -/
theorem Mention.duty_le_one (mention : Mention) : mention.duty ≤ 1 := by
  cases mention with
  | used => exact Nat.zero_le 1
  | exported => exact Nat.le_refl 1

/-- A hop takes two of the limit, where one to a module is only through when the name is there. -/
theorem Moves.cost_le (h : Moves modules start move next) :
    move.cost + next.duty ≤ 2 * move.hop + move.depth + start.duty := by
  cases h <;> simp only [Move.cost, Move.hop, Move.depth, Mention.duty] <;> omega

/-- A move takes fewer hops than it costs together with what is owed behind it. -/
theorem Moves.hop_lt (h : Moves modules start move next) : move.hop < move.cost + next.duty := by
  cases h <;> simp only [Move.cost, Move.hop, Mention.duty] <;> omega

/-- A hop takes no more than two, if the levels of objects are left aside, and the text takes
one. -/
theorem Chain.cost_le (h : Chain modules start moves text) :
    total Move.cost moves ≤ 2 * total Move.hop moves + total Move.depth moves + 1 + start.duty := by
  induction h with
  | ends hends =>
      simp only [total, Move.cost, Move.hop, Move.depth]
      omega
  | move hmove _ ih =>
      have hle := hmove.cost_le
      simp only [total]
      omega

/-- A hop takes at least one, and so does the text. -/
theorem Chain.hops_lt (h : Chain modules start moves text) :
    total Move.hop moves + start.duty < total Move.cost moves := by
  induction h with
  | ends hends =>
      cases hends
      exact Nat.succ_pos _
  | @move start _ _ _ _ hmove _ ih =>
      have hlt := hmove.hop_lt
      have hduty := start.duty_le_one
      simp only [total]
      omega

/-- The last hop takes two, whether it leads to a declaration or to a module. -/
theorem Chain.hops_add_two_le (h : Chain modules start moves text)
    (hhops : total Move.hop moves ≠ 0) :
    total Move.hop moves + 2 ≤ total Move.cost moves := by
  cases h with
  | ends => exact absurd rfl hhops
  | move hmove hrest =>
      have hfirst := hmove.hop_lt
      have hlt := hrest.hops_lt
      simp only [total]
      omega

/-! ## Texts that are found -/

/-- `textOf? modules hops mention` is the text that is found for a mention within so many steps. -/
def textOf? (modules : Modules) (hops : Nat) : Mention → Option String
  | .used m name members place => stringConstant? modules hops m name members place
  | .exported m name members => exportedString? modules hops m name members

/-- A mention that ends at a text has it as soon as there are more hops than its levels and one. -/
theorem Ends.textOf?_eq (h : Ends start levels text) (hhops : levels + 1 < hops) :
    textOf? modules hops start = some text := by
  obtain ⟨spare, rfl⟩ := Nat.exists_eq_add_of_lt hhops
  obtain ⟨⟨hlookup, hvalue, henters⟩, htext⟩ := h
  rw [textOf?, stringConstant?, hlookup]
  simp [hvalue, henters.stringIn?_of_hasText htext]

/-- What is found for a mention that a move leads to is found, or something before it, where the
move starts. -/
theorem Moves.isSome_textOf? (h : Moves modules start move next)
    (hnext : (textOf? modules spare next).isSome = true) :
    (textOf? modules (move.cost + spare) start).isSome = true := by
  cases h with
  | @refers _ _ _ _ _ _ _ _ levels hvalue hrefers =>
      obtain ⟨hlookup, hvalue, henters⟩ := hvalue
      rw [Move.cost, show levels + 2 + spare = levels + 1 + spare + 1 by omega, textOf?,
        stringConstant?, hlookup]
      simpa [textOf?, hvalue, henters.stringIn?_of_refersTo hrefers] using hnext
  | named hlookup himport htarget =>
      rw [Move.cost, Nat.add_comm, textOf?, stringConstant?, hlookup]
      simpa [textOf?, himport, htarget] using hnext
  | all hlookup himport htarget =>
      rw [Move.cost, Nat.add_comm, textOf?, stringConstant?, hlookup]
      simpa [textOf?, himport, htarget] using hnext
  | owned howns =>
      rw [Move.cost, Nat.add_comm, textOf?, exportedString?_of_owns howns]
      exact hnext
  | passes howns hpassed hinner htarget =>
      rw [Move.cost, Nat.add_comm, textOf?, exportedString?_of_not_owns howns,
        List.findSome?_isSome_iff]
      exact ⟨_, hpassed, by simpa [textOf?, passedText?, hinner, htarget] using hnext⟩

/-- A text is found where it stands, or after a move. -/
theorem ends_or_moves (h : textOf? modules hops start = some text) :
    (∃ levels, Ends start levels text ∧ levels + 1 < hops) ∨
      ∃ move next spare, Moves modules start move next ∧ hops = move.cost + spare ∧
        textOf? modules spare next = some text := by
  cases hops with
  | zero => cases start <;> simp [textOf?, stringConstant?, exportedString?] at h
  | succ hops =>
      cases start with
      | used m name members place =>
          rw [textOf?, stringConstant?] at h
          split at h
          next b hlookup =>
            split at h
            next => cases h
            next value hvalue =>
              obtain ⟨part, left, levels, henters, hpart⟩ := exists_enters h
              refine hpart.imp ?_ ?_
              · rintro ⟨htext, hlevels⟩
                exact ⟨levels, .text ⟨hlookup, hvalue, henters⟩ htext, Nat.succ_lt_succ hlevels⟩
              · rintro ⟨base, path, spare, hrefers, rfl, hbase⟩
                exact ⟨_, _, spare, .refers ⟨hlookup, hvalue, henters⟩ hrefers,
                  by rw [Move.cost]; omega, hbase⟩
          next hlookup =>
            split at h
            next => cases h
            next import_ himport =>
              obtain ⟨specifier, imported⟩ := import_
              split at h
              next => cases h
              next target htarget =>
                split at h
                next _ exported himported =>
                  obtain rfl : imported = .named exported := himported
                  exact .inr ⟨_, _, hops, .named hlookup himport htarget, Nat.add_comm _ _, h⟩
                next exported rest himported =>
                  obtain rfl : imported = .all := himported
                  exact .inr ⟨_, _, hops, .all hlookup himport htarget, Nat.add_comm _ _, h⟩
                next => cases h
      | exported m name members =>
          by_cases howns : Owns m name
          · rw [textOf?, exportedString?_of_owns howns] at h
            exact .inr ⟨_, _, hops, .owned howns, Nat.add_comm _ _, h⟩
          · rw [textOf?, exportedString?_of_not_owns howns] at h
            obtain ⟨passed, hpassed, htext⟩ := List.exists_of_findSome?_eq_some h
            unfold passedText? at htext
            split at htext
            next inner target hinner htarget =>
              exact .inr ⟨_, _, hops, .passes howns hpassed hinner htarget, Nat.add_comm _ _, htext⟩
            next => cases htext

/-- A chain that takes less than the limit leads to some text. -/
theorem Chain.isSome_textOf? (h : Chain modules start moves text)
    (hcost : total Move.cost moves < hops) :
    (textOf? modules hops start).isSome = true := by
  induction h generalizing hops with
  | @ends _ levels _ hends =>
      have hlevels : levels + 1 < hops := by simpa [total, Move.cost] using hcost
      rw [hends.textOf?_eq hlevels, Option.isSome_some]
  | @move _ _ move moves _ hmove _ ih =>
      rw [total] at hcost
      obtain ⟨spare, rfl⟩ : ∃ spare, hops = move.cost + spare := ⟨hops - move.cost, by omega⟩
      exact hmove.isSome_textOf? (ih (Nat.lt_of_add_lt_add_left hcost))

/-- Every text that is found stands at the end of a chain that takes less than the limit. -/
theorem exists_chain (h : textOf? modules hops start = some text) :
    ∃ moves, Chain modules start moves text ∧ total Move.cost moves < hops := by
  induction hops using Nat.strongRecOn generalizing start with
  | ind hops ih =>
      rcases ends_or_moves h with ⟨levels, hends, hlevels⟩ | ⟨move, next, spare, hmove, rfl, hnext⟩
      · exact ⟨_, .ends hends, by simpa [total, Move.cost] using hlevels⟩
      · have hpos : 0 < move.cost := by cases move <;> simp [Move.cost]
        obtain ⟨moves, hchain, hcost⟩ := ih spare (Nat.lt_add_of_pos_left hpos) hnext
        exact ⟨_, .move hmove hchain, Nat.add_lt_add_left hcost _⟩

/-! ## Where chains lead -/

/-- A name that is used is followed in one way only. -/
theorem GoesOn.unique (h : GoesOn modules (.used m name members place) next)
    (h' : GoesOn modules (.used m name members place) back) : next = back := by
  obtain ⟨move, hmove⟩ := h
  obtain ⟨move', hmove'⟩ := h'
  cases hmove with
  | refers hvalue hrefers =>
      cases hmove' with
      | refers hvalue' hrefers' =>
          obtain ⟨rfl, rfl, -⟩ := hvalue.unique hvalue'
          obtain ⟨rfl, rfl⟩ := hrefers.unique hrefers'
          rfl
      | named hlookup | all hlookup => exact absurd hlookup hvalue.lookup?_ne_none
  | named hlookup himport htarget =>
      cases hmove' with
      | refers hvalue => exact absurd hlookup hvalue.lookup?_ne_none
      | named _ himport' htarget' =>
          obtain ⟨rfl, hexported⟩ := Import.mk.inj (Option.some.inj (himport.symm.trans himport'))
          obtain rfl := Imported.named.inj hexported
          obtain rfl := Option.some.inj (htarget.symm.trans htarget')
          rfl
      | all _ himport' => simp [himport] at himport'
  | all hlookup himport htarget =>
      cases hmove' with
      | refers hvalue => exact absurd hlookup hvalue.lookup?_ne_none
      | named _ himport' => simp [himport] at himport'
      | all _ himport' htarget' =>
          obtain ⟨rfl, -⟩ := Import.mk.inj (Option.some.inj (himport.symm.trans himport'))
          obtain rfl := Option.some.inj (htarget.symm.trans htarget')
          rfl

/-- A name that has a text is not followed. -/
theorem Ends.not_goesOn (h : Ends start levels text) : ¬GoesOn modules start next := by
  obtain ⟨hvalue, htext⟩ := h
  rintro ⟨move, hmove⟩
  cases hmove with
  | refers hvalue' hrefers =>
      obtain ⟨rfl, rfl, -⟩ := hvalue.unique hvalue'
      exact hrefers.not_hasText htext
  | named hlookup | all hlookup => exact absurd hlookup hvalue.lookup?_ne_none

/-- A mention ends at one text. -/
theorem Ends.unique {levels' : Nat} (h : Ends start levels text) (h' : Ends start levels' other) :
    text = other := by
  cases h with
  | text hvalue htext =>
      cases h' with
      | text hvalue' htext' =>
          obtain ⟨rfl, rfl, -⟩ := hvalue.unique hvalue'
          exact htext.unique htext'

/-- A chain ends in a mention that has the text. -/
theorem Chain.exists_ends (h : Chain modules start moves text) :
    ∃ last levels, ReflTransGen (GoesOn modules) start last ∧ Ends last levels text := by
  induction h with
  | ends hends => exact ⟨_, _, .refl, hends⟩
  | move hmove _ ih =>
      obtain ⟨last, levels, hlast, hends⟩ := ih
      exact ⟨last, levels, .head ⟨_, hmove⟩ hlast, hends⟩

/-- No module on the way passes the name on from two others. -/
def Unbranched (modules : Modules) (start : Mention) : Prop :=
  ∀ m name members, ReflTransGen (GoesOn modules) start (.exported m name members) →
    ∀ next back, GoesOn modules (.exported m name members) next →
      GoesOn modules (.exported m name members) back → next = back

/-- Wherever the name is followed to, it is followed on. -/
def Endless (modules : Modules) (start : Mention) : Prop :=
  ∀ last, ReflTransGen (GoesOn modules) start last → ∃ next, GoesOn modules last next

/-- Where nothing branches, every mention goes on to one other at most. -/
theorem Unbranched.unique (h : Unbranched modules start)
    (hlast : ReflTransGen (GoesOn modules) start last)
    (hnext : GoesOn modules last next) (hback : GoesOn modules last back) : next = back := by
  cases last with
  | used => exact hnext.unique hback
  | exported m name members => exact h m name members hlast next back hnext hback

/-- Where no way branches off, all chains end in one text. -/
theorem Unbranched.text_eq (h : Unbranched modules start) (hchain : Chain modules start moves text)
    (hother : Chain modules start others other) : text = other := by
  induction hchain generalizing others with
  | ends hends =>
      cases hother with
      | ends hends' => exact hends.unique hends'
      | move hmove => exact absurd ⟨_, hmove⟩ hends.not_goesOn
  | move hmove _ ih =>
      cases hother with
      | ends hends => exact absurd ⟨_, hmove⟩ hends.not_goesOn
      | move hmove' hrest' =>
          obtain rfl := h.unique .refl ⟨_, hmove⟩ ⟨_, hmove'⟩
          exact ih (fun m name members hlast => h m name members (.head ⟨_, hmove⟩ hlast)) hrest'

/-- An endless mention has no text, however many hops there are. -/
theorem Endless.textOf?_eq_none (h : Endless modules start) :
    textOf? modules hops start = none := by
  rw [Option.eq_none_iff_forall_ne_some]
  intro text htext
  obtain ⟨moves, hchain, -⟩ := exists_chain htext
  obtain ⟨last, levels, hlast, hends⟩ := hchain.exists_ends
  obtain ⟨next, hnext⟩ := h last hlast
  exact hends.not_goesOn hnext

/-- A way that comes back to a mention goes round for ever if no other branches off. -/
theorem Unbranched.endless (h : Unbranched modules start)
    (hstart : ReflTransGen (GoesOn modules) start back)
    (hcircle : TransGen (GoesOn modules) back back) : Endless modules start := by
  intro last hlast
  have hback : TransGen (GoesOn modules) last back := by
    induction hlast with
    | refl => exact .trans_right hstart hcircle
    | tail hlast hnext ih =>
        -- the only way on from here is the one that comes back
        obtain ⟨other, hother, hrest⟩ := TransGen.head'_iff.1 ih
        obtain rfl := h.unique hlast hnext hother
        exact .trans_right hrest hcircle
  obtain ⟨next, hnext, -⟩ := TransGen.head'_iff.1 hback
  exact ⟨next, hnext⟩

/-! ## Event names -/

/-- An argument names the event that its mention leads to. -/
theorem Mentions.eventName?_eq (h : Mentions m argument start) :
    eventName? modules m argument = textOf? modules allHops start := by
  cases h with
  | path hkind hsegments => exact eventName?_of_segments hkind hsegments

/-- Let the argument of an event be a name. Every text that is found for it stands at the end of a
chain that takes no more than the limit. Some text is found if there is such a chain, and it is the
text of the chain if no other within the limit ends in another. A chain takes at most two of the
limit for a hop, one for a level down in an object and one for the text; if there are hops, it takes
at least one for each and two besides. A name that is followed for ever has no text, and that is so
of a name that comes back to where it has been, if no module on the way passes it on from two
others. -/
theorem followed_chains (modules : Modules) (h : Mentions m argument start) :
    (∀ text, eventName? modules m argument = some text →
      ∃ moves, Chain modules start moves text ∧ total Move.cost moves ≤ maxHops) ∧
    (∀ moves text, Chain modules start moves text →
      (total Move.cost moves ≤ maxHops → eventName? modules m argument ≠ none ∧
        ((∀ others other, Chain modules start others other → total Move.cost others ≤ maxHops →
          other = text) → eventName? modules m argument = some text)) ∧
      total Move.cost moves ≤ 2 * total Move.hop moves + total Move.depth moves + 1 ∧
      (total Move.hop moves ≠ 0 → total Move.hop moves + 2 ≤ total Move.cost moves)) ∧
    (Endless modules start → eventName? modules m argument = none) ∧
    ∀ back, ReflTransGen (GoesOn modules) start back → TransGen (GoesOn modules) back back →
      Unbranched modules start → Endless modules start := by
  rw [h.eventName?_eq]
  have hfound : ∀ text, textOf? modules allHops start = some text →
      ∃ moves, Chain modules start moves text ∧ total Move.cost moves ≤ maxHops := by
    intro text htext
    obtain ⟨moves, hchain, hcost⟩ := exists_chain htext
    exact ⟨moves, hchain, Nat.le_of_lt_succ hcost⟩
  refine ⟨hfound, fun moves text hchain => ⟨fun hcost => ?_, ?_, hchain.hops_add_two_le⟩,
    Endless.textOf?_eq_none, fun back hback hcircle hunbranched =>
      hunbranched.endless hback hcircle⟩
  · have hlimit : total Move.cost moves < allHops := Nat.lt_succ_of_le hcost
    obtain ⟨found, htext⟩ := Option.isSome_iff_exists.1 (hchain.isSome_textOf? hlimit)
    obtain ⟨others, hothers, hlimit⟩ := hfound found htext
    exact ⟨by simp [htext], fun hagree => by rw [htext, hagree others found hothers hlimit]⟩
  · cases h
    exact hchain.cost_le

/-! ## The limit -/

/-- A script outside any project has no way to branch off. -/
theorem unbranched_of_imported (hnone : ∀ path specifier, modules.imported path specifier = none) :
    Unbranched modules start := by
  rintro m name members - next back ⟨move, hmove⟩ ⟨move', hmove'⟩
  cases hmove with
  | owned =>
      cases hmove' with
      | owned => rfl
      | passes _ _ _ htarget => simp [hnone] at htarget
  | passes _ _ _ htarget => simp [hnone] at htarget

/-- A module that has one re-export passes a name on from one module only. -/
theorem goesOn_passed_iff {target : Module} {inner : String} {passed : Reexport}
    (howns : ¬Owns m name)
    (hreexports : m.reexports = [passed]) (hinner : passed.inner? name = some inner)
    (htarget : modules.imported m.path passed.specifier = some target) :
    GoesOn modules (.exported m name members) next ↔ next = .exported target inner members := by
  constructor
  · rintro ⟨move, hmove⟩
    cases hmove with
    | owned howns' => exact absurd howns' howns
    | passes _ hpassed hinner' htarget' =>
        rw [hreexports, List.mem_singleton] at hpassed
        subst hpassed
        obtain rfl := Option.some.inj (hinner.symm.trans hinner')
        obtain rfl := Option.some.inj (htarget.symm.trans htarget')
        rfl
  · rintro rfl
    exact ⟨_, .passes howns (hreexports ▸ List.mem_singleton_self passed) hinner htarget⟩

/-- `tracked? m` is the first argument of the first call of a script. -/
def tracked? (m : Module) : Option Site :=
  (calls m.root).head?.bind fun call => (argumentsOf call)[0]?

/-- `IsTracked m name argument` holds of the first argument of a script if it is that name. -/
def IsTracked (m : Module) (name : String) (argument : Site) : Prop :=
  tracked? m = some argument ∧ (unwrap argument).kind = "identifier" ∧ (unwrap argument).text = name

/-- A tracked argument mentions its name. -/
theorem IsTracked.mentions (h : IsTracked m name argument) :
    Mentions m argument (.used m name [] (unwrap argument).node) := by
  obtain ⟨-, hkind, rfl⟩ := h
  refine .path (by simp [hkind]) ?_
  rw [segments?, show (unwrap argument).node.kind = "identifier" from hkind]
  rfl

/-- A tracked argument that passes a check is one of the tracked arguments. -/
theorem exists_isTracked {p : Site → Bool} (h : (tracked? m).any (fun argument =>
      decide ((unwrap argument).kind = "identifier" ∧ (unwrap argument).text = name) &&
        p argument) = true) :
    ∃ argument, IsTracked m name argument ∧ p argument = true := by
  obtain ⟨argument, hargument, hchecked⟩ := (Option.any_eq_true _ _).1 h
  obtain ⟨hname, hp⟩ := (Bool.and_eq_true _ _).mp hchecked
  exact ⟨argument, ⟨hargument, of_decide_eq_true hname⟩, hp⟩

/-- A script that tracks a name which is another name three times over. -/
def threeAliases : Module :=
  moduleAt "app"
    "const D = 'Signed Up';\nconst C = D;\nconst B = C;\nconst A = B;\nanalytics.track(A);\n"

/-- A script that tracks a name which is another name four times over. -/
def fourAliases : Module :=
  moduleAt "app"
    ("const E = 'Signed Up';\nconst D = E;\nconst C = D;\nconst B = C;\nconst A = B;\n" ++
      "analytics.track(A);\n")

/-- A module that passes on a name from itself. -/
def circular : Module := moduleAt "index" "export \x7b X \x7d from './index';\n"

/-- `besideItself` has no module but that one. -/
def besideItself : Modules where
  typed := true
  imported _ specifier := if specifier = "./index" then some circular else none
  declaring _ := none

/-- The module that passes on its own name goes on to itself only. -/
theorem goesOn_circular_iff :
    GoesOn besideItself (.exported circular "X" []) next ↔ next = .exported circular "X" [] := by
  have hchecked :
    ((circular.lookup? "X" circular.root).isSome || (circular.import? "X").isSome) = false ∧
      circular.reexports = [⟨some ("X", "X"), "./index"⟩] := by
    decide +kernel
  have howns : ¬Owns circular "X" := by simp [owns_iff, hchecked.1]
  exact goesOn_passed_iff howns hchecked.2 rfl rfl

/-- A name that leads to the module stays there. -/
theorem unbranched_circular
    (hstart : GoesOn besideItself (.used m name members place) (.exported circular "X" [])) :
    Unbranched besideItself (.used m name members place) := by
  have hway : ∀ last, ReflTransGen (GoesOn besideItself) (.used m name members place) last →
      last = .used m name members place ∨ last = .exported circular "X" [] := by
    intro last hlast
    induction hlast with
    | refl => exact .inl rfl
    | tail _ hnext ih =>
        rcases ih with rfl | rfl
        · exact .inr (hnext.unique hstart)
        · exact .inr (goesOn_circular_iff.1 hnext)
  intro _ _ _ hlast next back hnext hback
  rcases hway _ hlast with hused | hexported
  · cases hused
  · rw [hexported, goesOn_circular_iff] at hnext hback
    exact hnext.trans hback.symm

/-- A chain of three hops is followed, and a circle is left without a text. -/
theorem followed_chains_of_threeAliases :
    (∃ argument start moves, IsTracked threeAliases "A" argument ∧
      Mentions threeAliases argument start ∧
      Chain .untyped start moves "Signed Up" ∧ total Move.cost moves ≤ maxHops ∧
        eventName? .untyped threeAliases argument = some "Signed Up") ∧
    ∃ argument start back, IsTracked importing "X" argument ∧ Mentions importing argument start ∧
      ReflTransGen (GoesOn besideItself) start back ∧ TransGen (GoesOn besideItself) back back ∧
        Unbranched besideItself start ∧ eventName? besideItself importing argument = none := by
  constructor
  · have hchecked : (tracked? threeAliases).any (fun argument =>
        decide ((unwrap argument).kind = "identifier" ∧ (unwrap argument).text = "A") &&
          decide (eventName? .untyped threeAliases argument = some "Signed Up")) = true := by
      decide +kernel
    obtain ⟨argument, htracked, hfound⟩ := exists_isTracked hchecked
    obtain ⟨hchains, htexts, -⟩ := followed_chains .untyped htracked.mentions
    obtain ⟨moves, hchain, hcost⟩ := hchains "Signed Up" (of_decide_eq_true hfound)
    obtain ⟨hlimit, -⟩ := htexts moves "Signed Up" hchain
    refine ⟨argument, _, moves, htracked, htracked.mentions, hchain, hcost,
      (hlimit hcost).2 fun _ _ hother _ => ?_⟩
    exact (unbranched_of_imported fun _ _ => rfl).text_eq hother hchain
  · obtain ⟨hchecked, himport⟩ : (tracked? importing).any (fun argument =>
          decide ((unwrap argument).kind = "identifier" ∧ (unwrap argument).text = "X") &&
            (importing.lookup? "X" (unwrap argument).node).isNone) = true ∧
        importing.import? "X" = some ⟨"./index", .named "X"⟩ := by
      decide +kernel
    obtain ⟨argument, htracked, hlookup⟩ := exists_isTracked hchecked
    have hstart : GoesOn besideItself (.used importing "X" [] (unwrap argument).node)
        (.exported circular "X" []) :=
      ⟨_, .named (Option.isNone_iff_eq_none.1 hlookup) himport rfl⟩
    have hcircle :
        TransGen (GoesOn besideItself) (.exported circular "X" []) (.exported circular "X" []) :=
      .single (goesOn_circular_iff.2 rfl)
    have hunbranched := unbranched_circular hstart
    obtain ⟨-, -, hnone, hendless⟩ := followed_chains besideItself htracked.mentions
    exact ⟨argument, _, _, htracked, htracked.mentions, .single hstart, hcircle, hunbranched,
      hnone (hendless _ (.single hstart) hcircle hunbranched)⟩

/-- A module that passes on a name from a long chain, and everything from another module. -/
def behindStar : Modules where
  typed := true
  imported _ specifier :=
    if specifier = "./index" then
      some (moduleAt "index" "export \x7b X \x7d from './long';\nexport * from './a';\n")
    else if specifier = "./long" then
      some (moduleAt "long" "const D = 'right';\nconst C = D;\nconst B = C;\nexport const X = B;\n")
    else if specifier = "./a" then some (moduleAt "a" "export const X = 'a';\n")
    else none
  declaring _ := none

/-- A chain with no more hops than the limit says is not followed to its end. Behind a module that
passes on the name twice, another text is found for it. -/
theorem fourth_alias_not_followed :
    (∃ argument start moves, IsTracked fourAliases "A" argument ∧
      Mentions fourAliases argument start ∧
      Chain .untyped start moves "Signed Up" ∧ total Move.hop moves ≤ maxHops ∧
        eventName? .untyped fourAliases argument = none) ∧
    ∃ argument start moves, IsTracked importing "X" argument ∧ Mentions importing argument start ∧
      Chain behindStar start moves "right" ∧ total Move.hop moves ≤ maxHops ∧
        eventName? behindStar importing argument = some "a" := by
  constructor
  · have hchecked : (tracked? fourAliases).any (fun argument =>
        decide ((unwrap argument).kind = "identifier" ∧ (unwrap argument).text = "A") &&
          decide (eventName? .untyped fourAliases argument = none ∧
            textOf? .untyped 10 (.used fourAliases "A" [] (unwrap argument).node) =
              some "Signed Up")) = true := by
      decide +kernel
    obtain ⟨argument, htracked, hfound⟩ := exists_isTracked hchecked
    obtain ⟨hnone, hfound⟩ := of_decide_eq_true hfound
    -- with one step more the chain is followed to its end
    obtain ⟨moves, hchain, hcost⟩ := exists_chain hfound
    have hlt := hchain.hops_lt
    have hhops : total Move.hop moves ≤ maxHops := by
      rw [maxHops]
      omega
    exact ⟨argument, _, moves, htracked, htracked.mentions, hchain, hhops, hnone⟩
  · have hchecked : (tracked? importing).any (fun argument =>
        decide ((unwrap argument).kind = "identifier" ∧ (unwrap argument).text = "X") &&
          decide (eventName? behindStar importing argument = some "a" ∧
            textOf? behindStar 11 (.used importing "X" [] (unwrap argument).node) = some "right"))
        = true := by
      decide +kernel
    obtain ⟨argument, htracked, hfound⟩ := exists_isTracked hchecked
    obtain ⟨hother, hfound⟩ := of_decide_eq_true hfound
    obtain ⟨moves, hchain, hcost⟩ := exists_chain hfound
    have hle := hchain.hops_add_two_le
    have hhops : total Move.hop moves ≤ maxHops := by
      rw [maxHops]
      omega
    exact ⟨argument, _, moves, htracked, htracked.mentions, hchain, hhops, hother⟩

end TrackingPlan.Script
