import TrackingPlan.Command.Settings

/-!
# Reading commands

A command is a list of words. A word that starts with a dash gives a parameter, by its long name
after two dashes or by its letter after one; the value follows in the same word or in the next. Two
dashes by themselves say that all further words are plain. `Command.read` reads the words from left
to right and stops at the first mistake. The value of a parameter is looked at when the next
parameter comes, so a mistake in the following word may be found before one in the value.
-/

namespace TrackingPlan

/-- A reason to read no further. -/
inductive Stop where
  | mistake (e : UsageError)
  /-- The command is known, whatever the further words are. -/
  | known (command : Command)
deriving DecidableEq, Repr

/-- What was read so far. -/
structure Reader where
  settings : Settings := {}
  /-- The parameter given last, and its value if that was read. -/
  pending : Option (Parameter × Option String) := none
  /-- All further words are plain. -/
  isPlain : Bool := false
deriving DecidableEq, Repr

namespace Reader

/-- `settle r` looks at the value that waits. -/
def settle (r : Reader) : Except Stop Reader :=
  match r.pending with
  | none => .ok r
  | some (p, value) =>
    match r.settings.assign p value with
    | .error e => .error (.mistake e)
    | .ok settings => .ok { r with settings, pending := none }

/-- `give verb r p value` settles what waits and gives `p` its value. -/
def give (verb : Option Verb) (r : Reader) (p : Parameter) (value : Option String) :
    Except Stop Reader :=
  match r.settle with
  | .error stop => .error stop
  | .ok r =>
    if p = .help then .error (.known (.help verb))
    else if p = .version then .error (.known .version)
    else settle { r with pending := some (p, value) }

/-- `await r p` settles what waits and lets the value of `p` be read. -/
def await (r : Reader) (p : Parameter) : Except Stop Reader :=
  r.settle.map ({ · with pending := some (p, none) })

/-- `long verb known r cs` reads a word that has `cs` after two dashes. -/
def long (verb : Option Verb) (known : List Parameter) (r : Reader) (cs : List Char) :
    Except Stop Reader :=
  let name := String.ofList (cs.takeWhile (· ≠ '='))
  let value : Option String := match cs.dropWhile (· ≠ '=') with
    | [] => none
    | _ :: value => some (String.ofList value)
  match Parameter.named? known name with
  | none => .error (.mistake (.unexpected ("--" ++ name)))
  | some p =>
    match p.takesValue, value with
    | false, some value => .error (.mistake (.surplusValue p value))
    | true, none => r.await p
    | _, value => r.give verb p value

/-- `letters verb known r cs` reads the letters `cs` after one dash. What follows the letter of a
parameter with a value is that value. -/
def letters (verb : Option Verb) (known : List Parameter) : Reader → List Char → Except Stop Reader
  | r, [] => .ok r
  | r, c :: rest =>
    match Parameter.lettered? known c with
    | none => .error (.mistake (.unexpected (String.ofList ['-', c])))
    | some p =>
      if p.takesValue then
        match rest with
        | [] => r.await p
        | '=' :: value | value => r.give verb p (some (String.ofList value))
      else
        match r.give verb p none with
        | .error stop => .error stop
        | .ok r => letters verb known r rest

/-- `plain verb r word` reads a word that stands for itself: the path of a scan, once. -/
def plain (verb : Verb) (r : Reader) (word : String) : Except Stop Reader :=
  let isPlaced := r.settings.path.isSome || r.pending.any (·.1 = .path)
  if verb ≠ .scan || isPlaced then .error (.mistake (.unexpected word))
  else r.settle.map ({ · with pending := some (.path, some word) })

/-- `word verb r text` reads one word after `verb`. -/
def word (verb : Verb) (r : Reader) (text : String) : Except Stop Reader :=
  if r.isPlain then r.plain verb text
  else match text.toList with
    | ['-', '-'] => .ok { r with isPlain := true }
    | '-' :: '-' :: cs => r.long verb verb.parameters cs
    | '-' :: c :: cs => r.letters verb verb.parameters (c :: cs)
    | _ =>
      match r.pending with
      | some (p, none) => .ok { r with pending := some (p, some text) }
      | _ => r.plain verb text

/-- `words verb texts` is what the words after `verb` set. -/
def words (verb : Verb) (texts : List String) : Except Stop Settings :=
  match texts.foldlM (word verb) {} with
  | .error stop => .error stop
  | .ok r => r.settle.map (·.settings)

/-- `topic texts` reads the words after the verb that asks for help. -/
def topic : List String → Except Stop Command
  | [] => .ok (.help none)
  | [text] =>
    match Verb.ofName? text with
    | none => .error (.mistake (.unknownVerb text))
    | some verb => .ok (.help (some verb))
  | first :: second :: _ =>
    if (Verb.ofName? first).isNone then .error (.mistake (.unknownVerb first))
    else .error (.mistake (.unknownVerb second))

/-- `command verb texts` is the command with the words `texts` after `verb`. -/
def command (verb : Verb) (texts : List String) : Except Stop Command :=
  match verb with
  | .help => topic texts
  | .init => (words .init texts).map fun s => .init (s.output.getD Settings.usualOutput)
  | .scan =>
    match words .scan texts with
    | .error stop => .error stop
    | .ok s =>
      match s.scanRequest? with
      | none => .error (.mistake .missingPath)
      | some request => .ok (.scan request)

/-- `program r texts` reads the words from the first on, up to the verb and with what follows it. -/
def program : Reader → List String → Except Stop Command
  | r, [] => if r.settings = {} then .ok .nothing else .error (.mistake .missingVerb)
  | r, text :: rest =>
    match Verb.ofName? text with
    | some verb =>
      if r.isPlain then .error (.mistake (.unexpected text)) else command verb rest
    | none =>
      let next : Except Stop Reader :=
        if r.isPlain then .error (.mistake (.unknownVerb text))
        else match text.toList with
          | ['-', '-'] => .ok { r with isPlain := true }
          | '-' :: '-' :: cs => r.long none programParameters cs
          | '-' :: c :: cs => r.letters none programParameters (c :: cs)
          | _ => .error (.mistake (.unknownVerb text))
      match next with
      | .error stop => .error stop
      | .ok r => program r rest

end Reader

/-- `read words` is the command that `words` spell. -/
def Command.read (words : List String) : Except UsageError Command :=
  match Reader.program {} words with
  | .ok command | .error (.known command) => .ok command
  | .error (.mistake e) => .error e

end TrackingPlan
