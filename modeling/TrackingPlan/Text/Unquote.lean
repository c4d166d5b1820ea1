/-!
# Quotes around a literal

Removal of one pair of quotes, and a few other cuts at the ends of a text.
-/

namespace TrackingPlan.Text

/-- `between? mark cs` is what stands in `cs` between two marks at its ends. -/
def between? (mark : Char) (cs : List Char) : Option (List Char) :=
  match cs with
  | first :: rest =>
    if first = mark ∧ rest.getLast? = some mark then some rest.dropLast else none
  | [] => none

/-- `unquote text` is `text` without one pair of equal quotes around it, if there is one. -/
def unquote (text : String) : String :=
  let cs := text.toList
  match ((between? '"' cs).or (between? '\'' cs)).or (between? '`' cs) with
  | some inside => String.ofList inside
  | none => text

/-- `trimMatching p text` is `text` without the characters at its ends that satisfy `p`. -/
def trimMatching (p : Char → Bool) (text : String) : String :=
  String.ofList ((text.toList.dropWhile p).reverse.dropWhile p).reverse

/-- `lastPart separator text` is what follows the last `separator` in `text`. -/
def lastPart (separator : Char) (text : String) : String :=
  String.ofList (text.toList.reverse.takeWhile (· ≠ separator)).reverse

end TrackingPlan.Text
