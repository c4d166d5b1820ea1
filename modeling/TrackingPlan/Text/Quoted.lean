import TrackingPlan.Text.Names
import TrackingPlan.Text.Unprintable

/-!
# Quoted texts

The quoted form of a text stands between double quotes. Quotes and backslashes inside it follow a
backslash, four control characters have a letter, and characters without a printed form are shown by
their code point in lower-case hexadecimal. In the names of files, bytes that belong to no character
are shown by their number in upper-case hexadecimal.
-/

namespace TrackingPlan.Text

/-- `codePoint c` is the form of a character shown by its code point. -/
def codePoint (c : Char) : List Char :=
  ['\\', 'u', '\x7b'] ++ Nat.toDigits 16 c.toNat ++ ['\x7d']

/-- `quoteChar c` is the form of `c` between double quotes. -/
def quoteChar (c : Char) : List Char :=
  if c = '"' then ['\\', '"']
  else if c = '\\' then ['\\', '\\']
  else if c = '\n' then ['\\', 'n']
  else if c = '\t' then ['\\', 't']
  else if c = '\r' then ['\\', 'r']
  else if c.toNat = 0 then ['\\', '0']
  else if c.toNat < 0x20 || c.toNat = 0x7F then codePoint c
  else if 0x7F < c.toNat && isUnprintable c then codePoint c
  else [c]

/-- `quoted text` is the quoted form of `text`. -/
def quoted (text : String) : String :=
  String.ofList ('"' :: text.toList.flatMap quoteChar ++ ['"'])

/-- `quoteNameChar c` is the form of `c` in the name of a file, where a backslash stands before
single quotes too. -/
def quoteNameChar (c : Char) : List Char := if c = '\'' then ['\\', c] else quoteChar c

/-- `quoteByte b` is the form of a byte that belongs to no character. -/
def quoteByte (b : UInt8) : List Char := '\\' :: 'x' :: (Nat.toDigits 16 b.toNat).map Char.toUpper

/-- `quoteName cs` is the form of the characters `cs` in the name of a file. -/
def quoteName : List Char → List Char
  | [] => []
  | [c] => quoteNameChar c
  | mark :: c :: rest =>
    match stray? mark c with
    | some b => quoteByte b ++ quoteName rest
    | none => quoteNameChar mark ++ quoteName (c :: rest)

/-- `quotedName name` is the quoted form of the name of a file. -/
def quotedName (name : String) : String :=
  String.ofList ('"' :: quoteName name.toList ++ ['"'])

end TrackingPlan.Text
