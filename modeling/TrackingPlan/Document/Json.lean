import TrackingPlan.Document

/-!
# Documents as JSON

The JSON text of a document, with one entry a line and two spaces for each level. Only the
characters that have to be escaped are escaped.
-/

namespace TrackingPlan.Document

/-- `hexDigit n` is the hexadecimal digit of `n`, in lower case. -/
def hexDigit (n : Nat) : Char :=
  if n < 10 then Char.ofNat (48 + n) else Char.ofNat (87 + n)

/-- `escapeJson c` is how `c` stands between quotes. -/
def escapeJson (c : Char) : List Char :=
  if c = '"' then ['\\', '"']
  else if c = '\\' then ['\\', '\\']
  else if c = '\n' then ['\\', 'n']
  else if c = '\r' then ['\\', 'r']
  else if c = '\t' then ['\\', 't']
  else if c.toNat = 8 then ['\\', 'b']
  else if c.toNat = 12 then ['\\', 'f']
  else if c.toNat < 32 then
    ['\\', 'u', '0', '0', hexDigit (c.toNat / 16), hexDigit (c.toNat % 16)]
  else [c]

/-- `quoteJson text` is `text` as a JSON string. -/
def quoteJson (text : String) : String :=
  String.ofList ('"' :: text.toList.flatMap escapeJson ++ ['"'])

/-- `indent depth` is the blank space in front of an entry at that depth. -/
def indent (depth : Nat) : String :=
  String.ofList (List.replicate (2 * depth) ' ')

/-- `block opening closing depth entries` puts each entry on a line of its own between the brackets
of a container at `depth`. -/
def block (opening closing : String) (depth : Nat) (entries : List String) : String :=
  if entries.isEmpty then opening ++ closing
  else
    let lines := entries.map (indent (depth + 1) ++ ·)
    opening ++ "\n" ++ ",\n".intercalate lines ++ "\n" ++ indent depth ++ closing

mutual
/-- `jsonAt depth d` is the JSON text of `d` inside `depth` containers. -/
def jsonAt (depth : Nat) : Document → String
  | .null => "null"
  | .boolean value => if value then "true" else "false"
  | .number value => toString value
  | .decimal written => written
  | .text value => quoteJson value
  | .list items => block "[" "]" depth (jsonItems (depth + 1) items)
  | .map entries => block "\x7b" "\x7d" depth (jsonEntries (depth + 1) entries)

/-- `jsonItems depth items` lists the JSON texts of `items`. -/
def jsonItems (depth : Nat) : List Document → List String
  | [] => []
  | d :: rest => jsonAt depth d :: jsonItems depth rest

/-- `jsonEntries depth entries` lists the JSON texts of `entries` with their names. -/
def jsonEntries (depth : Nat) : List (String × Document) → List String
  | [] => []
  | (name, d) :: rest => (quoteJson name ++ ": " ++ jsonAt depth d) :: jsonEntries depth rest
end

/-- `json d` is the JSON text of `d`, without a line end after it. -/
def json (d : Document) : String := jsonAt 0 d

end TrackingPlan.Document
