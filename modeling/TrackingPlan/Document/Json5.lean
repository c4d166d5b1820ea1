import TrackingPlan.Document
import TrackingPlan.Text.Blank
import TrackingPlan.Text.Decimal

/-!
# Documents from JSON5

JSON5 is JSON with comments, trailing commas, bare names, single quotes and more spellings of
numbers. `Document.ofJson5?` reads the document that a text spells. The entries of a map keep their
order, and a name may occur more than once.
-/

namespace TrackingPlan.Json5

/-- `isLineEnd c` holds of the characters that end a line. -/
def isLineEnd (c : Char) : Bool :=
  c = '\n' || c = '\r' || c.toNat = 0x2028 || c.toNat = 0x2029

/-- `isSpace c` holds of the characters that may stand between tokens. -/
def isSpace (c : Char) : Bool :=
  (Text.isBlank c && c.toNat ≠ 0x85) || c.toNat = 0xFEFF

/-- `afterComment? cs` is what follows the end of the block comment that `cs` are inside of. -/
def afterComment? : List Char → Option (List Char)
  | [] => none
  | '*' :: '/' :: rest => some rest
  | _ :: rest => afterComment? rest

/-- `skip fuel cs` drops spaces and comments from the front of `cs`. -/
def skip : (fuel : Nat) → List Char → List Char
  | 0, cs => cs
  | fuel + 1, '/' :: '/' :: rest => skip fuel (rest.dropWhile (!isLineEnd ·))
  | fuel + 1, '/' :: '*' :: rest =>
    match afterComment? rest with
    | none => '/' :: '*' :: rest
    | some rest => skip fuel rest
  | _ + 1, [] => []
  | fuel + 1, c :: rest => if isSpace c then skip fuel rest else c :: rest

/-- `gap cs` drops spaces and comments from the front of `cs`. -/
def gap (cs : List Char) : List Char := skip cs.length cs

/-- `after? word cs` is what follows `word` at the front of `cs`. -/
def after? : (word cs : List Char) → Option (List Char)
  | [], cs => some cs
  | w :: word, c :: cs => if w = c then after? word cs else none
  | _ :: _, [] => none

/-- `unit? cs` is the number of a character in four hexadecimal digits, and what follows them. -/
def unit? : List Char → Option (Nat × List Char)
  | a :: b :: c :: d :: rest => (Text.natural? 16 [a, b, c, d]).map (·, rest)
  | _ => none

/-- `unicode? cs` is the text of an escape after `\u`, and what follows it. A character beyond the
first plane takes two escapes; half of such a pair stands for nothing. -/
def unicode? (cs : List Char) : Option (List Char × List Char) :=
  match unit? cs with
  | none => none
  | some (n, rest) =>
    if 0xDC00 ≤ n ∧ n ≤ 0xDFFF then some ([], rest)
    else if 0xD800 ≤ n ∧ n ≤ 0xDBFF then
      match (after? ['\\', 'u'] rest).bind unit? with
      | some (low, rest) =>
        if 0xDC00 ≤ low ∧ low ≤ 0xDFFF then
          some ([Char.ofNat (0x10000 + (n - 0xD800) * 0x400 + (low - 0xDC00))], rest)
        else none
      | none => none
    else some ([Char.ofNat n], rest)

/-- The letters that name a character after a backslash. -/
def letterEscapes : List (Char × Char) :=
  [('b', '\x08'), ('f', '\x0c'), ('n', '\n'), ('r', '\r'), ('t', '\t'), ('v', '\x0b'),
    ('0', '\x00')]

/-- `escape? cs` is the text of an escape after its backslash, and what follows it. A line end after
a backslash stands for nothing. -/
def escape? : List Char → Option (List Char × List Char)
  | [] => none
  | '\r' :: '\n' :: rest => some ([], rest)
  | 'u' :: rest => unicode? rest
  | 'x' :: a :: b :: rest => (Text.natural? 16 [a, b]).map fun n => ([Char.ofNat n], rest)
  | c :: rest =>
    if isLineEnd c then some ([], rest)
    else match letterEscapes.lookup c with
      | some letter => some ([letter], rest)
      | none => if c.isDigit || c = 'x' then none else some ([c], rest)

/-- `quotedFrom fuel quote cs` is the text up to the next `quote`, and what follows that. -/
def quotedFrom : (fuel : Nat) → (quote : Char) → List Char → Option (List Char × List Char)
  | 0, _, _ => none
  | _ + 1, _, [] => none
  | fuel + 1, quote, c :: rest =>
    if c = quote then some ([], rest)
    else if c = '\\' then
      match escape? rest with
      | none => none
      | some (text, rest) =>
        (quotedFrom fuel quote rest).map fun (more, rest) => (text ++ more, rest)
    else if isLineEnd c then none
    else (quotedFrom fuel quote rest).map fun (more, rest) => (c :: more, rest)

/-- `quoted? cs` is the text of a quoted string, and what follows it. -/
def quoted? : List Char → Option (String × List Char)
  | c :: rest =>
    if c = '"' || c = '\'' then
      (quotedFrom (rest.length + 1) c rest).map fun (text, rest) => (String.ofList text, rest)
    else none
  | [] => none

/-- `isNameStart c` holds of the characters that start a bare name. Beyond ASCII every character
that is no space counts as a letter. -/
def isNameStart (c : Char) : Bool :=
  c.isAlpha || c = '$' || c = '_' || (c.toNat ≥ 0x80 && !isSpace c && !Text.isBlank c)

/-- `nameFrom fuel first cs` is the rest of a bare name, and what follows it. -/
def nameFrom : (fuel : Nat) → (first : Bool) → List Char → List Char × List Char
  | 0, _, cs => ([], cs)
  | fuel + 1, first, cs =>
    match cs with
    | '\\' :: 'u' :: rest =>
      match unicode? rest with
      | none => ([], cs)
      | some (text, rest) =>
        let (more, rest) := nameFrom fuel false rest
        (text ++ more, rest)
    | c :: rest =>
      if isNameStart c || (!first && c.isDigit) then
        let (more, rest) := nameFrom fuel false rest
        (c :: more, rest)
      else ([], cs)
    | [] => ([], [])

/-- `key? cs` is the name of an entry, and what follows it. -/
def key? (cs : List Char) : Option (String × List Char) :=
  match quoted? cs with
  | some found => some found
  | none =>
    match nameFrom (cs.length + 1) true cs with
    | ([], _) => none
    | (name, rest) => some (String.ofList name, rest)

/-- `splitNumber cs` splits a number without a sign from what follows it; there is none if the
first part is empty. -/
def splitNumber (cs : List Char) : List Char × List Char :=
  let whole := match cs with
    | '0' :: _ => ['0']
    | _ => cs.takeWhile Char.isDigit
  let rest := cs.drop whole.length
  let (fraction, rest) := match rest with
    | '.' :: more =>
      let digits := more.takeWhile Char.isDigit
      if whole.isEmpty && digits.isEmpty then ([], rest)
        else ('.' :: digits, more.drop digits.length)
    | _ => ([], rest)
  if whole.isEmpty && fraction.isEmpty then ([], cs)
  else
    let power := match rest with
      | e :: more =>
        let sign := more.takeWhile fun c => c = '+' || c = '-'
        let digits := (more.drop sign.length).takeWhile Char.isDigit
        if (e = 'e' || e = 'E') && sign.length ≤ 1 && !digits.isEmpty then e :: sign ++ digits
        else []
      | [] => []
    (whole ++ fraction ++ power, rest.drop power.length)

/-- `decimalValue? negative text` is the number that `text` spells: an integer of 64 bits, or a
fraction that a double can hold. -/
def decimalValue? (negative : Bool) (text : List Char) : Option Document :=
  if text.all Char.isDigit then
    match Text.natural? 10 text with
    | none => none
    | some n =>
      let value : Int := if negative then -n else n
      let limit := Int.ofNat (Nat.pow 2 63)
      if -limit ≤ value ∧ value < limit then some (.number value) else none
  else
    match Text.Decimal.read? text with
    | none => none
    | some d =>
      if d.isFinite then some (.decimal (String.ofList (if negative then '-' :: text else text)))
      else none

/-- `number? cs` is the number at the front of `cs`, and what follows it. Hexadecimal numbers have
no sign and at most 32 bits. -/
def number? (cs : List Char) : Option (Document × List Char) :=
  let (sign, bare) := match cs with
    | '+' :: rest => (['+'], rest)
    | '-' :: rest => (['-'], rest)
    | _ => ([], cs)
  let hexadecimal (digits rest : List Char) : Option (Document × List Char) :=
    match sign, Text.natural? 16 digits with
    | [], some n => if n < Nat.pow 2 32 then some (.number n, rest) else none
    | _, _ => none
  let named (name : String) : Option (Document × List Char) :=
    (after? name.toList bare).bind fun rest =>
      if sign = ['+'] then none else some (.decimal (String.ofList sign ++ name), rest)
  let isHexDigit (c : Char) : Bool := (Text.digit? 16 c).isSome
  match bare with
  | '0' :: 'x' :: rest | '0' :: 'X' :: rest =>
    hexadecimal (rest.takeWhile isHexDigit) (rest.dropWhile isHexDigit)
  | _ =>
    match splitNumber bare with
    | ([], _) => (named "Infinity").or (named "NaN")
    | (text, rest) => (decimalValue? (sign = ['-']) text).map (·, rest)

mutual
/-- `valueFrom fuel cs` is the value at the front of `cs`, and what follows it. -/
def valueFrom : (fuel : Nat) → List Char → Option (Document × List Char)
  | 0, _ => none
  | fuel + 1, cs =>
    match cs with
    | '[' :: rest => (itemsFrom fuel (gap rest)).map fun (items, rest) => (.list items, rest)
    | '\x7b' :: rest =>
        (entriesFrom fuel (gap rest)).map fun (entries, rest) => (.map entries, rest)
    | _ =>
      let word (text : String) (value : Document) := (after? text.toList cs).map (value, ·)
      (word "null" .null).or <| (word "true" (.boolean true)).or <|
        (word "false" (.boolean false)).or <|
        ((quoted? cs).map fun (text, rest) => (.text text, rest)).or <| number? cs

/-- `itemsFrom fuel cs` lists the items up to the end of a list, and what follows it. -/
def itemsFrom : (fuel : Nat) → List Char → Option (List Document × List Char)
  | 0, _ => none
  | fuel + 1, cs =>
    match cs with
    | ']' :: rest => some ([], rest)
    | _ =>
      match valueFrom fuel cs with
      | none => none
      | some (value, rest) =>
        match gap rest with
        | ']' :: rest => some ([value], rest)
        | ',' :: rest => (itemsFrom fuel (gap rest)).map fun (more, rest) => (value :: more, rest)
        | _ => none

/-- `entriesFrom fuel cs` lists the entries up to the end of a map, and what follows it. -/
def entriesFrom : (fuel : Nat) → List Char → Option (List (String × Document) × List Char)
  | 0, _ => none
  | fuel + 1, cs =>
    match cs with
    | '\x7d' :: rest => some ([], rest)
    | _ =>
      match key? cs with
      | none => none
      | some (name, rest) =>
        match gap rest with
        | ':' :: rest =>
          match valueFrom fuel (gap rest) with
          | none => none
          | some (value, rest) =>
            match gap rest with
            | '\x7d' :: rest => some ([(name, value)], rest)
            | ',' :: rest =>
              (entriesFrom fuel (gap rest)).map fun (more, rest) => ((name, value) :: more, rest)
            | _ => none
        | _ => none
end

end TrackingPlan.Json5

namespace TrackingPlan.Document

/-- `ofJson5? text` is the document that `text` spells. -/
def ofJson5? (text : String) : Option Document :=
  let cs := text.toList
  match Json5.valueFrom (2 * cs.length + 2) (Json5.gap cs) with
  | some (value, rest) => if (Json5.gap rest).isEmpty then some value else none
  | none => none

end TrackingPlan.Document
