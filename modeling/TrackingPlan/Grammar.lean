import TrackingPlan.Source
import TrackingPlan.Tree

/-!
# Grammars that build syntax trees

A grammar gives each of its symbols a rule. `Grammar.run` reads a source text by a rule: choices are
tried in order, repetition takes as much as it can, and left recursion is written with `Rule.grow`.
What a rule reads is a list of nodes, which `Rule.node` gathers below one node. Blanks and comments
may stand before every token; comments become nodes, and a comment before the first token of a node
stands outside that node.
-/

namespace TrackingPlan

/-- How far reading has come, with a state that only some languages need. -/
structure Place (σ : Type) where
  pos : Nat
  row : Nat
  state : σ

/-- `advance p src pos` moves `p` on to the offset `pos`. -/
def Place.advance {σ : Type} (p : Place σ) (src : Source) (pos : Nat) : Place σ :=
  { p with pos, row := p.row + src.breaks p.pos pos }

/-- What may stand at some point of a source text, over symbols `ν` and a reading state `σ`. -/
inductive Rule (ν σ : Type) where
  /-- Nothing. -/
  | empty
  /-- No text at all. -/
  | fail
  /-- A token that `read` finds; blanks may stand before it unless it is tight. -/
  | lexeme (tight named : Bool) (kind : String) (read : Source → Nat → Option Nat)
  /-- What a function reads. -/
  | scan (read : Source → Place σ → Option (List Node × Place σ))
  /-- Nothing, where a condition holds. -/
  | check (holds : Source → Place σ → Bool)
  /-- The rule of a symbol. -/
  | call (symbol : ν)
  /-- One after the other. -/
  | seq (first second : Rule ν σ)
  /-- The first of two that is there. -/
  | alt (first second : Rule ν σ)
  /-- As often as it is there. -/
  | many (item : Rule ν σ)
  /-- The nodes read, below a node of that kind. -/
  | node (kind : String) (body : Rule ν σ)
  /-- The nodes read, in that role. -/
  | role (name : String) (body : Rule ν σ)
  /-- The nodes read, with another kind. -/
  | rename (kind : String) (body : Rule ν σ)
  /-- A base and then steps; each step has what was read so far in place of `left`. -/
  | grow (base step : Rule ν σ)
  /-- A base and then one step, which has what was read so far in place of `left`. -/
  | lead (base step : Rule ν σ)
  /-- What was read before the current step. -/
  | left
  /-- Nothing, where the rule does not apply. -/
  | absent (item : Rule ν σ)
  /-- Nothing, where the rule applies. -/
  | ahead (item : Rule ν σ)
  /-- The rule in a changed state; afterwards the state is mended from those before and after. -/
  | within (enter : σ → σ) (leave : σ → σ → σ) (body : Rule ν σ)

instance {ν σ : Type} : Inhabited (Rule ν σ) := ⟨.empty⟩

/-- The rules of a language. -/
structure Grammar (ν σ : Type) where
  rule : ν → Rule ν σ
  /-- Blanks and comments before a token. -/
  blanks : Source → Place σ → List Node × Place σ

namespace Node

/-- `isExtra n` holds of nodes that may stand anywhere. -/
def isExtra (n : Node) : Bool := n.kind = "comment" || n.kind = "heredoc_body"

/-- `withRole n name` is `n` in that role; nodes that may stand anywhere have none. -/
def withRole (n : Node) (name : String) : Node :=
  if n.isExtra then n else match n with
  | mk head children => mk { head with role := some name } children

/-- `withKind n kind` is `n` with another kind; it has a name from then on. -/
def withKind (n : Node) (kind : String) : Node :=
  if n.isExtra then n else match n with
  | mk head children => mk { head with kind, named := true } children

end Node

namespace Grammar

variable {ν σ : Type}

/-- `leaf src named kind p stop` is the node of a token from `p` up to `stop`. -/
def leaf (src : Source) (named : Bool) (kind : String) (p : Place σ) (stop : Nat) : Node :=
  .mk ⟨kind, named, none, p.pos, stop, p.row, src.slice p.pos stop⟩ []

/-- `gather src kind p nodes` puts `nodes`, read up to `p`, below a node of that kind. Nodes at the
front that may stand anywhere stay in front of it. -/
def gather (src : Source) (kind : String) (p : Place σ) (nodes : List Node) : List Node :=
  let (before, inside) := nodes.span Node.isExtra
  match inside with
  | [] => before ++ [.mk ⟨kind, true, none, p.pos, p.pos, p.row, ""⟩ []]
  | first :: _ =>
    let start := first.start
    let stop := (inside.getLast?.map Node.stop).getD start
    before ++ [.mk ⟨kind, true, none, start, stop, first.head.row, src.slice start stop⟩ inside]

/-- `run g src fuel rule left p` reads by `rule` from `p` on. The depth of the recursion is bounded
by `fuel`. -/
def run (g : Grammar ν σ) (src : Source) : (fuel : Nat) → Rule ν σ → (left : List Node) →
    Place σ → Option (List Node × Place σ)
  | 0, _, _, _ => none
  | fuel + 1, rule, before, p =>
    match rule with
    | .empty => some ([], p)
    | .fail => none
    | .lexeme tight named kind read =>
      let (extras, q) := if tight then ([], p) else g.blanks src p
      match read src q.pos with
      | none => none
      | some stop => some (extras ++ [leaf src named kind q stop], q.advance src stop)
    | .scan read => read src p
    | .check holds => if holds src p then some ([], p) else none
    | .call symbol => run g src fuel (g.rule symbol) [] p
    | .seq first second =>
      match run g src fuel first before p with
      | none => none
      | some (ns, q) =>
        match run g src fuel second before q with
        | none => none
        | some (ms, r) => some (ns ++ ms, r)
    | .alt first second =>
      match run g src fuel first before p with
      | none => run g src fuel second before p
      | found => found
    | .many item =>
      match run g src fuel item before p with
      | none => some ([], p)
      | some (ns, q) =>
        if q.pos ≤ p.pos then some ([], p)
        else match run g src fuel (.many item) before q with
          | none => none
          | some (ms, r) => some (ns ++ ms, r)
    | .node kind body =>
      match run g src fuel body before p with
      | none => none
      | some (ns, q) => some (gather src kind q ns, q)
    | .role name body =>
      match run g src fuel body before p with
      | none => none
      | some (ns, q) => some (ns.map (·.withRole name), q)
    | .rename kind body =>
      match run g src fuel body before p with
      | none => none
      | some (ns, q) => some (ns.map (·.withKind kind), q)
    | .grow base step =>
      match run g src fuel base before p with
      | none => none
      | some (ns, q) =>
        match run g src fuel step ns q with
        | none => some (ns, q)
        | some (ms, r) =>
          run g src fuel (.grow (.scan fun _ _ => some (ms, r)) step) before r
    | .lead base step =>
      match run g src fuel base before p with
      | none => none
      | some (ns, q) => run g src fuel step ns q
    | .left => some (before, p)
    | .absent item =>
      match run g src fuel item before p with
      | none => some ([], p)
      | some _ => none
    | .ahead item =>
      match run g src fuel item before p with
      | none => none
      | some _ => some ([], p)
    | .within enter leave body =>
      match run g src fuel body before { p with state := enter p.state } with
      | none => none
      | some (ns, q) => some (ns, { q with state := leave p.state q.state })

/-- `depthFor src` bounds the depth of the recursion on `src`: no byte adds more than a few hundred
steps of depth. -/
def depthFor (src : Source) : Nat := 400 * (src.size + 16)

/-- `read g rule state src` reads all of `src` by `rule`, and puts what it reads below a node of the
given kind that covers the whole text; what is left over becomes one erroneous node. -/
def read (g : Grammar ν σ) (kind : String) (rule : Rule ν σ) (state : σ) (src : Source) : Node :=
  let begin : Place σ := ⟨0, 0, state⟩
  let (nodes, p) := (g.run src (depthFor src) rule [] begin).getD ([], begin)
  let (extras, q) := g.blanks src p
  let rest :=
    if q.pos < src.size then [leaf src true "ERROR" q src.size] else []
  let children := nodes ++ extras ++ rest
  let start := match children with
    | [] => src.size
    | first :: _ => first.start
  let row := src.breaks 0 start
  .mk ⟨kind, true, none, start, src.size, row, src.slice start src.size⟩ children

end Grammar

namespace Rule

variable {ν σ : Type}

instance : Append (Rule ν σ) := ⟨.seq⟩

instance : OrElse (Rule ν σ) := ⟨fun first second => .alt first (second ())⟩

/-- `opt rule` is `rule` or nothing. -/
def opt (rule : Rule ν σ) : Rule ν σ := .alt rule .empty

/-- `seqs rules` is all of `rules` in order. -/
def seqs : List (Rule ν σ) → Rule ν σ
  | [] => .empty
  | [rule] => rule
  | rule :: rest => .seq rule (seqs rest)

/-- `choice rules` is the first of `rules` that is there. -/
def choice : List (Rule ν σ) → Rule ν σ
  | [] => .fail
  | [rule] => rule
  | rule :: rest => .alt rule (choice rest)

/-- `many1 rule` is `rule` once or more often. -/
def many1 (rule : Rule ν σ) : Rule ν σ := .seq rule (.many rule)

/-- `sepBy1 separator rule` is `rule` once or more often with `separator` between. -/
def sepBy1 (separator rule : Rule ν σ) : Rule ν σ := .seq rule (.many (.seq separator rule))

end Rule

end TrackingPlan
