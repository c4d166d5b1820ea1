import TrackingPlan.Text.Blank
import TrackingPlan.Text.Quoted

/-!
# Signatures of tracking functions

A signature names a function that fires events and tells which argument holds the event name, which
one the properties, and which ones are properties of their own: `track(user, EVENT_NAME,
PROPERTIES)`. `Signature.read` reads the written form, or says why it is none; `Signature.accepts`
compares the name with the path of a callee.
-/

namespace TrackingPlan

/-- A reason why a text is not a signature. -/
inductive SignatureError where
  | empty
  | malformed (raw : String)
  | missingEventName (raw : String)
  | duplicateToken (raw token : String)
deriving DecidableEq, Repr

/-- `message e` is the sentence that reports `e`. -/
def SignatureError.message : SignatureError → String
  | .empty => "custom function signature is empty"
  | .malformed raw => "invalid custom function signature " ++ Text.quoted raw
  | .missingEventName raw =>
    "custom function signature " ++ Text.quoted raw ++ " has no EVENT_NAME parameter"
  | .duplicateToken raw token =>
    "custom function signature " ++ Text.quoted raw ++ " declares " ++ token ++ " more than once"

/-- A parameter that is a property of its own. -/
structure ExtraParameter where
  index : Nat
  name : String
deriving DecidableEq, Repr

/-- A function that fires events, and the places of its arguments. -/
structure Signature where
  /-- The name as written. -/
  functionName : String
  /-- The parts of the name. -/
  segments : List String
  eventIndex : Nat
  propertiesIndex : Nat
  extraParameters : List ExtraParameter
deriving DecidableEq, Repr

namespace Signature

/-- The word that marks the parameter with the event name. -/
def eventToken : String := "EVENT_NAME"

/-- The word that marks the parameter with the properties. -/
def propertiesToken : String := "PROPERTIES"

/-- `isNameChar c` holds of the characters of a function name. -/
def isNameChar (c : Char) : Bool :=
  c.isAlphanum || c = '_' || c = '$' || c = '.' || c = ':'

/-- `shape? raw` splits `raw` into the function name and, if there is one, the body of its parameter
list; blanks may stand around both. -/
def shape? (raw : List Char) : Option (List Char × Option (List Char)) :=
  let start := raw.dropWhile Text.isBlank
  let name := start.takeWhile isNameChar
  let after := (start.dropWhile isNameChar).dropWhile Text.isBlank
  if name.isEmpty then none
  else match after with
    | [] => some (name, none)
    | '(' :: inside =>
      match inside.dropWhile (· ≠ ')') with
      | ')' :: rest =>
        if rest.all Text.isBlank then some (name, some (inside.takeWhile (· ≠ ')'))) else none
      | _ => none
    | _ => none

/-- `splitOn separator cs` lists the parts of `cs` between the occurrences of `separator`. -/
def splitOn (separator : Char) : List Char → List (List Char)
  | [] => [[]]
  | c :: rest =>
    if c = separator then [] :: splitOn separator rest
    else match splitOn separator rest with
      | [] => [[c]]
      | part :: parts => (c :: part) :: parts

/-- `splitScopes cs` lists the parts of `cs` between the occurrences of two colons. -/
def splitScopes : List Char → List (List Char)
  | [] => [[]]
  | ':' :: ':' :: rest => [] :: splitScopes rest
  | c :: rest =>
    match splitScopes rest with
    | [] => [[c]]
    | part :: parts => (c :: part) :: parts

/-- `segmentsOf name` splits a name at two colons and at full stops. -/
def segmentsOf (name : List Char) : List (List Char) :=
  (splitScopes name).flatMap (splitOn '.')

/-- `parametersOf body` lists the parameters of a list: trimmed, without empty ones. -/
def parametersOf (body : List Char) : List String :=
  (((splitOn ',' body).map Text.trimChars).filter (!·.isEmpty)).map String.ofList

/-- `upper text` is `text` with its ASCII letters in upper case. -/
def upper (text : String) : String :=
  String.ofList (text.toList.map Char.toUpper)

/-- The places found so far in a parameter list. -/
structure Slots where
  event : Option Nat := none
  properties : Option Nat := none
  extras : List ExtraParameter := []

/-- `assign raw slots index parameters` gives the parameters from `index` on their places. -/
def assign (raw : String) : Slots → Nat → List String → Except SignatureError Slots
  | slots, _, [] => .ok slots
  | slots, index, parameter :: rest =>
    if upper parameter = eventToken then
      if slots.event.isSome then .error (.duplicateToken raw eventToken)
      else assign raw { slots with event := some index } (index + 1) rest
    else if upper parameter = propertiesToken then
      if slots.properties.isSome then .error (.duplicateToken raw propertiesToken)
      else assign raw { slots with properties := some index } (index + 1) rest
    else
      assign raw { slots with extras := slots.extras ++ [⟨index, parameter⟩] } (index + 1) rest

/-- `read raw` reads the written form of a signature. A name without a parameter list has the event
name first and the properties second; a list without a place for properties has them after its last
parameter. -/
def read (raw : String) : Except SignatureError Signature :=
  if (Text.trim raw).isEmpty then .error .empty
  else match shape? raw.toList with
    | none => .error (.malformed raw)
    | some (name, body) =>
      let segments := segmentsOf name
      if segments.any (·.isEmpty) then .error (.malformed raw)
      else
        let functionName := String.ofList name
        let segments := segments.map String.ofList
        match body with
        | none => .ok ⟨functionName, segments, 0, 1, []⟩
        | some body =>
          let parameters := parametersOf body
          match assign raw {} 0 parameters with
          | .error e => .error e
          | .ok slots =>
            match slots.event with
            | none => .error (.missingEventName raw)
            | some event =>
              .ok ⟨functionName, segments, event, slots.properties.getD parameters.length,
                slots.extras⟩

/-- `readAll raws` reads every signature, or reports the first that is none. -/
def readAll (raws : List String) : Except SignatureError (List Signature) :=
  raws.mapM read

/-- `accepts s callee` holds when the parts of the name are exactly the path of the callee. -/
def accepts (s : Signature) (callee : List String) : Bool :=
  s.segments = callee

/-- `find? signatures callee` is the first signature that matches `callee`. -/
def find? (signatures : List Signature) (callee : List String) : Option Signature :=
  List.find? (·.accepts callee) signatures

end Signature

end TrackingPlan
