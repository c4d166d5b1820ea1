import TrackingPlan.Script.Literal
import TrackingPlan.Script.Module

/-!
# Names across modules

A script sees other modules through `Modules`: what an import specifier leads to, and which module
declares a type. `stringConstant?` follows a name through declarations, imports and exports to a
literal text, for a limited number of hops.
-/

namespace TrackingPlan.Script

/-- What a script sees of other modules. -/
structure Modules where
  /-- Declared types tell something about values. -/
  typed : Bool
  /-- The module that a file imports by a specifier. -/
  imported : Path → String → Option Module
  /-- A module of the same project that declares a type. -/
  declaring : String → Option Module

namespace Modules

/-- Plain scripts: no types, and no module but the script itself. -/
def untyped : Modules := ⟨false, fun _ _ => none, fun _ => none⟩

/-- Typed scripts outside any project: the types of the script itself. -/
def localTypes : Modules := ⟨true, fun _ _ => none, fun _ => none⟩

end Modules

/-- How many hops may lead from a name to its value. -/
def maxHops : Nat := 8

/-- The number of steps within the limit on hops. -/
def allHops : Nat := maxHops + 1

mutual
/-- `stringConstant? modules hops m name members place` is the text that `name` stands for at
`place`, after access to `members`. -/
def stringConstant? (modules : Modules) : (hops : Nat) → Module → String → List String → Node →
    Option String
  | 0, _, _, _, _ => none
  | hops + 1, m, name, members, place =>
    match m.lookup? name place with
    | some binding =>
      match binding.value with
      | none => none
      | some value => stringIn? modules hops m value members
    | none =>
      match m.import? name with
      | none => none
      | some import_ =>
        match modules.imported m.path import_.specifier with
        | none => none
        | some target =>
          match import_.imported, members with
          | .named name, members => exportedString? modules hops target name members
          | .all, name :: rest => exportedString? modules hops target name rest
          | _, _ => none

/-- `stringIn? modules hops m value members` is the text of `value` after access to `members`. -/
def stringIn? (modules : Modules) : (hops : Nat) → Module → Site → List String → Option String
  | 0, _, _, _ => none
  | hops + 1, m, value, members =>
    let value := unwrap value
    if value.kind = "identifier" || value.kind = "shorthand_property_identifier" then
      stringConstant? modules hops m value.text members value.node
    else if value.kind = "member_expression" || value.kind = "subscript_expression" then
      match segments? value.node with
      | some (base :: rest) => stringConstant? modules hops m base (rest ++ members) value.node
      | _ => none
    else match members with
      | [] => literal? value.node
      | first :: rest =>
        if value.kind = "object" then
          match member? value first with
          | none => none
          | some member => stringIn? modules hops m member rest
        else if value.kind = "enum_declaration" && rest.isEmpty then enumMember? value.node first
        else none

/-- `exportedString? modules hops m name members` is the text that `m` exports as `name`, after
access to `members`: its own declaration or import, or else what it passes on from other modules, in
the order of its export statements. -/
def exportedString? (modules : Modules) : (hops : Nat) → Module → String → List String →
    Option String
  | 0, _, _, _ => none
  | hops + 1, m, name, members =>
    if (m.lookup? name m.root).isSome || (m.import? name).isSome then
      stringConstant? modules hops m name members m.root
    else
      m.reexports.findSome? fun passed =>
        match passed.inner? name, modules.imported m.path passed.specifier with
        | some inner, some target => exportedString? modules hops target inner members
        | _, _ => none
end

/-- `eventName? modules m argument` is the text of `argument`: a literal, or a name that leads to
one. -/
def eventName? (modules : Modules) (m : Module) (argument : Site) : Option String :=
  let value := unwrap argument
  match literal? value.node with
  | some text => some text
  | none =>
    if value.kind = "identifier" then
      stringConstant? modules allHops m value.text [] value.node
    else if value.kind = "member_expression" || value.kind = "subscript_expression" then
      match segments? value.node with
      | some (base :: members) => stringConstant? modules allHops m base members value.node
      | _ => none
    else none

end TrackingPlan.Script
