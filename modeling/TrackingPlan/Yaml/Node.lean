import TrackingPlan.Yaml.Token

/-!
# Nodes of a YAML text

The tree that the tokens of a text stand for: scalars, lists and maps, with tags and with the nodes
that aliases repeat in their places. `Node.read?` reads a text with at most one document.
-/

namespace TrackingPlan.Yaml

/-- A value in a YAML text. -/
inductive Node where
  | scalar (text : String) (form : Form) (tag : Option String)
  | list (items : List Node)
  /-- Names and values in turn. -/
  | map (entries : List (Node × Node))
  /-- An alias inside the value that it repeats. -/
  | cycle
deriving Repr, Inhabited

namespace Node

/-- `empty` is the scalar where a value is left out. -/
def empty : Node := .scalar "" .plain none

/-- What is known while the nodes of a document are read. -/
structure Names where
  /-- What the handles of tags stand for. -/
  handles : List (String × String)
  /-- The nodes by their anchors, the last one first. -/
  anchors : List (String × Node) := []

/-- A node, the tokens after it, and what is known there. -/
structure Result (α : Type) where
  value : α
  rest : List Token
  names : Names

/-- `Result.map f r` applies `f` to the value. -/
def Result.map {α β : Type} (f : α → β) (r : Result α) : Result β := ⟨f r.value, r.rest, r.names⟩

/-- `omitted names ts` is the result where a value is left out. -/
def omitted (names : Names) (ts : List Token) : Option (Result Node) := some ⟨empty, ts, names⟩

/-- The anchor and the tag in front of a node. -/
structure Properties where
  anchor : Option String := none
  tag : Option String := none

/-- `tag? names handle suffix` is the full tag; its handle has to be known. -/
def tag? (names : Names) (handle suffix : String) : Option String :=
  if handle = "" then some suffix else (names.handles.lookup handle).map (· ++ suffix)

/-- `properties? names ts` reads an anchor and a tag in either order. -/
def properties? (names : Names) : List Token → Option (Properties × List Token)
  | .anchor a :: .tag handle suffix :: rest | .tag handle suffix :: .anchor a :: rest =>
    (tag? names handle suffix).map fun tag => (⟨some a, some tag⟩, rest)
  | .anchor a :: rest => some (⟨some a, none⟩, rest)
  | .tag handle suffix :: rest =>
    (tag? names handle suffix).map fun tag => (⟨none, some tag⟩, rest)
  | rest => some ({}, rest)

/-- `endsEntry ts` holds where a name or a value of a block is left out. -/
def endsEntry : List Token → Bool
  | .key :: _ | .value :: _ | .blockEnd :: _ => true
  | _ => false

/-- `endsItem ts` holds where an item of a block is left out. -/
def endsItem : List Token → Bool
  | .blockEntry :: _ | .blockEnd :: _ => true
  | _ => false

mutual
/-- `node? fuel isBlock mayHang names ts` reads a node. Blocks are nodes only outside of brackets,
and `mayHang` tells that a list need not be indented. -/
def node? : (fuel : Nat) → (isBlock mayHang : Bool) → Names → List Token → Option (Result Node)
  | 0, _, _, _, _ => none
  | _ + 1, _, _, names, .alias name :: rest =>
    (names.anchors.lookup name).map fun n => ⟨n, rest, names⟩
  | fuel + 1, isBlock, mayHang, names, ts =>
    match properties? names ts with
    | none => none
    | some (props, ts) =>
      let inside := match props.anchor with
        | none => names
        | some a => { names with anchors := (a, .cycle) :: names.anchors }
      match content? fuel isBlock mayHang props inside ts with
      | none => none
      | some r =>
        match props.anchor with
        | none => some r
        | some a => some { r with names.anchors := (a, r.value) :: r.names.anchors }

/-- `content? fuel isBlock mayHang props names ts` reads a node after its properties. -/
def content? : (fuel : Nat) → (isBlock mayHang : Bool) → Properties → Names → List Token →
    Option (Result Node)
  | 0, _, _, _, _, _ => none
  | fuel + 1, isBlock, mayHang, props, names, ts =>
    match ts with
    | .scalar text form :: rest => some ⟨.scalar text form props.tag, rest, names⟩
    | .flowSequence :: rest => (flowItems? fuel true names rest).map (·.map .list)
    | .flowMapping :: rest => (flowEntries? fuel true names rest).map (·.map .map)
    | .blockEntry :: _ =>
      if mayHang then (hangingItems? fuel names ts).map (·.map .list) else absent props names ts
    | .blockSequence :: rest =>
      if isBlock then (blockItems? fuel names rest).map (·.map .list) else absent props names ts
    | .blockMapping :: rest =>
      if isBlock then (blockEntries? fuel names rest).map (·.map .map) else absent props names ts
    | ts => absent props names ts
where
  /-- Only an anchor or a tag may stand without a value. -/
  absent (props : Properties) (names : Names) (ts : List Token) : Option (Result Node) :=
    if props.anchor.isSome || props.tag.isSome then some ⟨.scalar "" .plain props.tag, ts, names⟩
    else none

/-- `blockItems? fuel names ts` reads the items of a block up to its end. -/
def blockItems? : (fuel : Nat) → Names → List Token → Option (Result (List Node))
  | 0, _, _ => none
  | fuel + 1, names, ts =>
    match ts with
    | .blockEnd :: rest => some ⟨[], rest, names⟩
    | .blockEntry :: rest =>
      let item := if endsItem rest then omitted names rest else node? fuel true false names rest
      item.bind fun r => (blockItems? fuel r.names r.rest).map (·.map (r.value :: ·))
    | _ => none

/-- `hangingItems? fuel names ts` reads the items of a list that is not indented. -/
def hangingItems? : (fuel : Nat) → Names → List Token → Option (Result (List Node))
  | 0, _, _ => none
  | fuel + 1, names, ts =>
    match ts with
    | .blockEntry :: rest =>
      let item :=
        if endsItem rest || endsEntry rest then omitted names rest
        else node? fuel true false names rest
      item.bind fun r => (hangingItems? fuel r.names r.rest).map (·.map (r.value :: ·))
    | ts => some ⟨[], ts, names⟩

/-- `blockEntries? fuel names ts` reads the entries of a block up to its end. -/
def blockEntries? : (fuel : Nat) → Names → List Token → Option (Result (List (Node × Node)))
  | 0, _, _ => none
  | fuel + 1, names, ts =>
    match ts with
    | .blockEnd :: rest => some ⟨[], rest, names⟩
    | .key :: rest =>
      let name := if endsEntry rest then omitted names rest else node? fuel true true names rest
      name.bind fun n =>
        (blockValue? fuel n.names n.rest).bind fun v =>
          (blockEntries? fuel v.names v.rest).map (·.map ((n.value, v.value) :: ·))
    | _ => none

/-- `blockValue? fuel names ts` reads the value of an entry of a block. -/
def blockValue? : (fuel : Nat) → Names → List Token → Option (Result Node)
  | 0, _, _ => none
  | fuel + 1, names, ts =>
    match ts with
    | .value :: rest =>
      if endsEntry rest then omitted names rest else node? fuel true true names rest
    | ts => omitted names ts

/-- `flowItems? fuel isFirst names ts` reads the items of a list up to its bracket. -/
def flowItems? : (fuel : Nat) → (isFirst : Bool) → Names → List Token →
    Option (Result (List Node))
  | 0, _, _, _ => none
  | fuel + 1, isFirst, names, ts =>
    match ts with
    | .flowSequenceEnd :: rest => some ⟨[], rest, names⟩
    | ts =>
      let start := match isFirst, ts with
        | true, ts => some ts
        | false, .flowEntry :: rest => some rest
        | false, _ => none
      match start with
      | none => none
      | some (.flowSequenceEnd :: rest) => some ⟨[], rest, names⟩
      | some (.key :: rest) =>
        (pair? fuel names rest).bind fun r =>
          (flowItems? fuel false r.names r.rest).map (·.map (.map [r.value] :: ·))
      | some ts =>
        (node? fuel false false names ts).bind fun r =>
          (flowItems? fuel false r.names r.rest).map (·.map (r.value :: ·))

/-- `pair? fuel names ts` reads an entry that is an item of a list. -/
def pair? : (fuel : Nat) → Names → List Token → Option (Result (Node × Node))
  | 0, _, _ => none
  | fuel + 1, names, ts =>
    let name : Option (Result Node) := match ts with
      | .value :: rest | .flowEntry :: rest | .flowSequenceEnd :: rest => omitted names rest
      | ts => node? fuel false false names ts
    name.bind fun n =>
      let value : Option (Result Node) := match n.rest with
        | .value :: rest =>
          match rest with
          | .flowEntry :: _ | .flowSequenceEnd :: _ => omitted n.names rest
          | rest => node? fuel false false n.names rest
        | rest => omitted n.names rest
      value.map (·.map (n.value, ·))

/-- `flowEntries? fuel isFirst names ts` reads the entries of a map up to its bracket. -/
def flowEntries? : (fuel : Nat) → (isFirst : Bool) → Names → List Token →
    Option (Result (List (Node × Node)))
  | 0, _, _, _ => none
  | fuel + 1, isFirst, names, ts =>
    match ts with
    | .flowMappingEnd :: rest => some ⟨[], rest, names⟩
    | ts =>
      let start := match isFirst, ts with
        | true, ts => some ts
        | false, .flowEntry :: rest => some rest
        | false, _ => none
      match start with
      | none => none
      | some (.flowMappingEnd :: rest) => some ⟨[], rest, names⟩
      | some (.key :: rest) =>
        let name : Option (Result Node) := match rest with
          | .value :: _ | .flowEntry :: _ | .flowMappingEnd :: _ => omitted names rest
          | rest => node? fuel false false names rest
        name.bind fun n =>
          let value : Option (Result Node) := match n.rest with
            | .value :: rest =>
              match rest with
              | .flowEntry :: _ | .flowMappingEnd :: _ => omitted n.names rest
              | rest => node? fuel false false n.names rest
            | rest => omitted n.names rest
          value.bind fun v =>
            (flowEntries? fuel false v.names v.rest).map (·.map ((n.value, v.value) :: ·))
      | some ts =>
        (node? fuel false false names ts).bind fun n =>
          (flowEntries? fuel false n.names n.rest).map (·.map ((n.value, empty) :: ·))
end

/-! ## Documents -/

/-- The handles that every document knows. -/
def knownHandles : List (String × String) := [("!", "!"), ("!!", "tag:yaml.org,2002:")]

/-- The directives in front of a document. -/
structure Directives where
  hasVersion : Bool := false
  handles : List (String × String) := []

/-- `directives? d ts` reads directives: at most one version, which is 1.1 or 1.2, and no handle
twice. -/
def directives? (d : Directives) : List Token → Option (Directives × List Token)
  | .version major minor :: rest =>
    if d.hasVersion || major ≠ 1 || (minor ≠ 1 && minor ≠ 2) then none
    else directives? { d with hasVersion := true } rest
  | .tagPrefix handle start :: rest =>
    if (d.handles.lookup handle).isSome then none
    else directives? { d with handles := (handle, start) :: d.handles } rest
  | rest => some (d, rest)

/-- `isDocumentEdge ts` holds where a document without a value ends. -/
def isDocumentEdge : List Token → Bool
  | [] | .version _ _ :: _ | .tagPrefix _ _ :: _ | .documentStart :: _ | .documentEnd :: _ => true
  | _ => false

/-- `document? ts` reads a document, and what follows it. Only a document with a mark in front may
have directives or be without a value. -/
def document? (ts : List Token) : Option (Node × List Token) :=
  let fuel := 4 * ts.length + 8
  let root (names : Names) (ts : List Token) : Option (Node × List Token) :=
    (node? fuel true false names ts).map fun r => (r.value, r.rest)
  match directives? {} ts with
  | none => none
  | some (d, rest) =>
    match rest with
    | .documentStart :: rest =>
      if isDocumentEdge rest then some (empty, rest) else root ⟨d.handles ++ knownHandles, []⟩ rest
    | rest =>
      if d.hasVersion || !d.handles.isEmpty then none else root ⟨knownHandles, []⟩ rest

/-- `ofTokens? ts` is the value of the only document, or nothing if there is none. -/
def ofTokens? (ts : List Token) : Option (Option Node) :=
  if ts.isEmpty then some none
  else match document? ts with
    | none => none
    | some (n, rest) =>
      if (rest.dropWhile (· = .documentEnd)).isEmpty then some (some n) else none

/-- `read? text` is the value of the only document in `text`, if the text is well-formed, or nothing
if there is none. -/
def read? (text : String) : Option (Option Node) := (tokens? text).bind ofTokens?

end Node

end TrackingPlan.Yaml
