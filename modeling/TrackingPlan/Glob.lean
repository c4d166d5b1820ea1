import TrackingPlan.Text.Names

/-!
# Globs

A glob is a list of tokens, and a token says which bytes of a path it may stand for. `Token.rests`
lists what may be left of a text after a token; a glob accepts a path if nothing may be left of it.
A star and a question mark also stand for slashes. Only two stars that fill a place between slashes
mean whole directories.
-/

namespace TrackingPlan

/-- A part of a glob. -/
inductive Glob.Token where
  | literal (c : Char)
  /-- Any one byte. -/
  | one
  /-- Any bytes. -/
  | many
  /-- Any directories at the start of a path, with the slash after them. -/
  | leading
  /-- Any directories inside a path, with the slashes around them. -/
  | inner
  /-- A slash and whatever follows it. -/
  | trailing
  /-- One byte of the ranges, or one of the others. -/
  | oneOf (negated : Bool) (ranges : List (Char × Char))
  /-- One of several lists of tokens. -/
  | alternatives (branches : List (List Glob.Token))
deriving Repr, Inhabited

namespace Glob

/-- The byte of a slash. -/
def slash : UInt8 := 47

/-- `tails s` lists `s` and all that is left of it after some bytes. -/
def tails : List UInt8 → List (List UInt8)
  | [] => [[]]
  | b :: rest => (b :: rest) :: tails rest

/-- `afterSlashes s` lists what follows the slashes in `s`. -/
def afterSlashes : List UInt8 → List (List UInt8)
  | [] => []
  | b :: rest => if b = slash then rest :: afterSlashes rest else afterSlashes rest

/-- `byteRanges lo hi` lists the ranges of bytes that a range of characters stands for: the bytes of
both ends by themselves, and what lies between the last of `lo` and the first of `hi`. -/
def byteRanges (lo hi : Char) : List (UInt8 × UInt8) :=
  let each (bytes : List UInt8) := bytes.map fun b => (b, b)
  let first := String.utf8EncodeChar lo
  let last := String.utf8EncodeChar hi
  if lo = hi then each first
  else match first.reverse, last with
    | a :: before, b :: after => each before.reverse ++ (a, b) :: each after
    | _, _ => []

/-- `afterBytes bytes s` is what is left of `s` after `bytes`, if it starts with them. -/
def afterBytes : (bytes s : List UInt8) → List (List UInt8)
  | [], s => [s]
  | b :: bytes, c :: s => if b = c then afterBytes bytes s else []
  | _ :: _, [] => []

mutual
/-- `standsForNothing tokens` holds when `tokens` hold no more than empty groups. -/
def standsForNothing : List Token → Bool
  | [] => true
  | .alternatives branches :: rest => branchesAreEmpty branches && standsForNothing rest
  | _ :: _ => false

/-- `branchesAreEmpty branches` holds when no branch stands for something. Only then does a group
match the empty text; beside other branches an empty one does not count. -/
def branchesAreEmpty : List (List Token) → Bool
  | [] => true
  | tokens :: branches => standsForNothing tokens && branchesAreEmpty branches
end

mutual
/-- `rests t s` lists what may be left of `s` after `t`. -/
def Token.rests : Token → List UInt8 → List (List UInt8)
  | .literal c, s => afterBytes (String.utf8EncodeChar c) s
  | .one, s => s.tail?.toList
  | .many, s => tails s
  | .leading, s => s :: afterSlashes s
  | .inner, s =>
    match s with
    | [] => []
    | b :: rest => if b = slash then rest :: afterSlashes rest else []
  | .trailing, s =>
    match s with
    | [] => []
    | b :: rest => if b = slash then tails rest else []
  | .oneOf negated ranges, s =>
    match s with
    | [] => []
    | b :: rest =>
      let inside := ranges.any fun (lo, hi) =>
        (byteRanges lo hi).any fun (first, last) => first ≤ b && b ≤ last
      if inside != negated then [rest] else []
  | .alternatives branches, s =>
    if branchesAreEmpty branches then [s] else branchRests branches s

/-- `branchRests branches s` lists what may be left of `s` after one of the branches that stand for
something. -/
def branchRests : List (List Token) → List UInt8 → List (List UInt8)
  | [], _ => []
  | tokens :: branches, s =>
    (if standsForNothing tokens then [] else listRests tokens [s]) ++ branchRests branches s

/-- `listRests tokens starts` lists what may be left of one of `starts` after all `tokens`. -/
def listRests : List Token → List (List UInt8) → List (List UInt8)
  | [], starts => starts
  | t :: ts, starts => listRests ts (starts.flatMap fun s => t.rests s).eraseDups
end

/-- `isLiteral t` holds of literal characters. -/
def isLiteral : Token → Bool
  | .literal _ => true
  | _ => false

/-- `isLiteralOf p t` holds of literal characters that satisfy `p`. -/
def isLiteralOf (p : Char → Bool) : Token → Bool
  | .literal c => p c
  | _ => false

/-- `isName tokens` holds of a literal name in any directory. -/
def isName : List Token → Bool
  | .leading :: rest => !rest.isEmpty && rest.all (isLiteralOf (· ≠ '/'))
  | _ => false

/-- `isExtension tokens` holds of any name with a literal extension. -/
def isExtension : List Token → Bool
  | .leading :: .many :: .literal '.' :: rest | .many :: .literal '.' :: rest =>
    rest.all (isLiteralOf fun c => c ≠ '/' && c ≠ '.')
  | _ => false

/-- `isEnding tokens` holds of literal characters after any others, except for a single slash. -/
def isEnding : List Token → Bool
  | .leading :: .many :: rest | .many :: rest =>
    rest.all isLiteral && !rest.isEmpty && !(rest.length = 1 && rest.all (isLiteralOf (· = '/')))
  | .leading :: rest => rest.all isLiteral && !rest.isEmpty
  | _ => false

/-- `hasExtension tokens` holds when the last tokens are a full stop and literal characters of the
same name. -/
def hasExtension (tokens : List Token) : Bool :=
  let isNameChar := isLiteralOf fun c => c ≠ '/' && c ≠ '.'
  match tokens.reverse.dropWhile isNameChar with
  | .literal '.' :: _ => true
  | _ => false

/-- `needsName tokens` holds of the globs that look at the name of a file or its extension. A path
that ends in a full stop has none. -/
def needsName (tokens : List Token) : Bool :=
  isName tokens ||
    (!tokens.all isLiteral && (isExtension tokens || (!isEnding tokens && hasExtension tokens)))

end Glob

/-- A pattern for paths. -/
structure Glob where
  /-- The pattern as written. -/
  pattern : String
  tokens : List Glob.Token
deriving Repr

namespace Glob

/-- `accepts g path` holds when `g` matches the bytes of `path` from its start to its end. -/
def accepts (g : Glob) (path : String) : Bool :=
  match g.tokens with
  | [.leading] => true
  | tokens =>
    !(needsName tokens && path.endsWith ".") &&
      (listRests tokens [Text.bytes path]).any (·.isEmpty)

end Glob

end TrackingPlan
