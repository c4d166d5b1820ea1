import TrackingPlan.Text.Blank

/-!
# The types that a text seems to declare

Finds the names of interfaces, types and enumerations that are declared at the start of a line,
without parsing the text. What was read as one declaration is not looked at again.
-/

namespace TrackingPlan.Project

/-- `afterWord? word cs` is what follows `word` and the blanks after it, of which there must be
one. -/
def afterWord? (word : List Char) (cs : List Char) : Option (List Char) :=
  if word.isPrefixOf cs then
    match cs.drop word.length with
    | c :: rest => if Text.isBlank c then some (rest.dropWhile Text.isBlank) else none
    | [] => none
  else none

/-- `afterModifier cs word` is what follows `word` and blanks, if they stand at the front of `cs`,
and else `cs`. -/
def afterModifier (cs : List Char) (word : String) : List Char :=
  (afterWord? word.toList cs).getD cs

/-- `declared? cs` is the name of the type that is declared at the start of the line `cs`, and what
follows the name. -/
def declared? (cs : List Char) : Option (String × List Char) :=
  let bare :=
    ["export", "default", "declare", "const"].foldl afterModifier (cs.dropWhile Text.isBlank)
  match ["interface", "type", "enum"].findSome? fun word => afterWord? word.toList bare with
  | none => none
  | some rest =>
    let isStart (c : Char) : Bool := c.isAlpha || c = '_' || c = '$'
    let name := rest.takeWhile fun c => isStart c || c.isDigit
    if name.head?.any isStart then some (String.ofList name, rest.drop name.length) else none

/-- `typeNamesFrom fuel atStart cs` lists the names of the types declared in `cs`; `atStart` tells
that a line starts with them. -/
def typeNamesFrom : (fuel : Nat) → (atStart : Bool) → List Char → List String
  | 0, _, _ => []
  | _ + 1, _, [] => []
  | fuel + 1, atStart, c :: rest =>
    match if atStart then declared? (c :: rest) else none with
    | some (name, rest) => name :: typeNamesFrom fuel false rest
    | none => typeNamesFrom fuel (c = '\n') rest

/-- `typeNames text` lists the names of the types that `text` seems to declare. -/
def typeNames (text : String) : List String :=
  typeNamesFrom (text.length + 1) true text.toList

end TrackingPlan.Project
