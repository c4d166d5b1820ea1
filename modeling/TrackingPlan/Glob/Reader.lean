import TrackingPlan.Glob

/-!
# Reading globs

`Glob.read` reads a pattern. Square brackets hold a class of characters, braces hold alternatives
between commas, and a backslash makes the next character literal. The faults are the brackets that
are not matched, ranges that run backwards and a backslash at the end.
-/

namespace TrackingPlan

/-- A reason why a pattern is no glob. -/
inductive GlobFault where
  | unclosedClass
  | invalidRange (first last : Char)
  | unopenedAlternatives
  | unclosedAlternatives
  | danglingEscape
deriving DecidableEq, Repr

/-- `message f` is the sentence that reports `f`. -/
def GlobFault.message : GlobFault → String
  | .unclosedClass => "unclosed character class; missing ']'"
  | .invalidRange first last =>
      "invalid range; '" ++ first.toString ++ "' > '" ++ last.toString ++ "'"
  | .unopenedAlternatives =>
    "unopened alternate group; missing '\x7b' (maybe escape '\x7d' with '[\x7d]'?)"
  | .unclosedAlternatives =>
    "unclosed alternate group; missing '\x7d' (maybe escape '\x7b' with '[\x7b]'?)"
  | .danglingEscape => "dangling '\\'"

namespace Glob

/-- A group of alternatives that is not closed yet. -/
structure Group where
  /-- The tokens before the group, the last one first. -/
  before : List Token
  /-- The branches before the one that is being read. -/
  branches : List (List Token)

/-- What has been read of a pattern. -/
structure Reading where
  /-- The open groups, the innermost first. -/
  groups : List Group := []
  /-- The tokens of the innermost branch, the last one first. -/
  branch : List Token := []
  /-- The character read last. -/
  previous : Option Char := none

namespace Reading

/-- `push r tokens last` adds `tokens`, of which `last` was the last character. -/
def push (r : Reading) (tokens : List Token) (last : Char) : Reading :=
  { r with branch := tokens.reverse ++ r.branch, previous := some last }

/-- `openGroup r` starts a group of alternatives. -/
def openGroup (r : Reading) : Reading :=
  ⟨⟨r.branch, []⟩ :: r.groups, [], some '\x7b'⟩

/-- `nextBranch? r` starts the next branch of the innermost group, if there is one. -/
def nextBranch? (r : Reading) : Option Reading :=
  match r.groups with
  | [] => none
  | g :: groups =>
    some ⟨{ g with branches := g.branches ++ [r.branch.reverse] } :: groups, [], some ','⟩

/-- `closeGroup? r` closes the innermost group, if there is one. -/
def closeGroup? (r : Reading) : Option Reading :=
  match r.groups with
  | [] => none
  | g :: groups =>
    some ⟨groups, .alternatives (g.branches ++ [r.branch.reverse]) :: g.before, some '\x7d'⟩

/-- `pushDirectories r isLast last` adds two stars that follow a slash and end the branch or precede
another slash. They take the place of the slash before them. -/
def pushDirectories (r : Reading) (isLast : Bool) (last : Char) : Reading :=
  match r.branch with
  | [] => r.push [.many, .many] last
  | .leading :: _ | .trailing :: _ => { r with previous := some last }
  | _ :: before =>
    { r with branch := (if isLast then .trailing else .inner) :: before, previous := some last }

/-- `followsSeparator r` holds when two stars may mean whole directories here. -/
def followsSeparator (r : Reading) : Bool :=
  r.previous = some '/' ||
  (!r.groups.isEmpty && (r.previous = some ',' || r.previous = some '\x7b'))

/-- `finish r` gives the tokens of the whole pattern. -/
def finish (r : Reading) : Except GlobFault (List Token) :=
  if r.groups.isEmpty then .ok r.branch.reverse else .error .unclosedAlternatives

end Reading

/-- A class of characters that is not closed yet. -/
structure ClassReading where
  negated : Bool
  /-- The ranges so far, the last one first. -/
  ranges : List (Char × Char) := []
  /-- A hyphen was read that may continue the last range. -/
  inRange : Bool := false

namespace ClassReading

/-- `add k c` adds the character `c`, as the end of the last range if a hyphen came before it. -/
def add (k : ClassReading) (c : Char) : Except GlobFault ClassReading :=
  match k.inRange, k.ranges with
  | true, (first, _) :: before =>
    if c < first then .error (.invalidRange first c)
    else .ok { k with ranges := (first, c) :: before, inRange := false }
  | _, ranges => .ok { k with ranges := (c, c) :: ranges, inRange := false }

/-- `token k` is the finished class; a hyphen at its end is a member. -/
def token (k : ClassReading) : Token :=
  .oneOf k.negated (if k.inRange then ('-', '-') :: k.ranges else k.ranges).reverse

end ClassReading

mutual
/-- `readFrom r cs` reads the rest `cs` of a pattern. -/
def readFrom (r : Reading) : List Char → Except GlobFault (List Token)
  | [] => r.finish
  | '?' :: rest => readFrom (r.push [.one] '?') rest
  | '*' :: '*' :: rest =>
    if r.branch.isEmpty then
      match rest with
      | [] => readFrom (r.push [.leading] '*') []
      | '/' :: rest => readFrom (r.push [.leading] '/') rest
      | rest => readFrom (r.push [.many, .many] '*') rest
    else if !r.followsSeparator then readFrom (r.push [.many, .many] '*') rest
    else
      match rest with
      | [] => readFrom (r.pushDirectories true '*') []
      | '/' :: rest => readFrom (r.pushDirectories false '/') rest
      | c :: rest =>
        if (c = ',' || c = '\x7d') && !r.groups.isEmpty then
          readFrom (r.pushDirectories true '*') (c :: rest)
        else readFrom (r.push [.many, .many] '*') (c :: rest)
  | '*' :: rest => readFrom (r.push [.many] '*') rest
  | '[' :: '!' :: rest | '[' :: '^' :: rest => readClass r ⟨true, [], false⟩ rest
  | '[' :: rest => readClass r ⟨false, [], false⟩ rest
  | '\x7b' :: rest => readFrom r.openGroup rest
  | '\x7d' :: rest =>
    match r.closeGroup? with
    | none => .error .unopenedAlternatives
    | some r => readFrom r rest
  | ',' :: rest =>
    match r.nextBranch? with
    | none => readFrom (r.push [.literal ','] ',') rest
    | some r => readFrom r rest
  | ['\\'] => .error .danglingEscape
  | '\\' :: c :: rest => readFrom (r.push [.literal c] c) rest
  | c :: rest => readFrom (r.push [.literal c] c) rest

/-- `readClass r k cs` reads the rest `cs` of a pattern, which starts inside the class `k`. A
closing bracket or a hyphen that comes first is a member. -/
def readClass (r : Reading) (k : ClassReading) : List Char → Except GlobFault (List Token)
  | [] => .error .unclosedClass
  | c :: rest =>
    if c = ']' && !k.ranges.isEmpty then readFrom (r.push [k.token] ']') rest
    else if c = '-' && !k.ranges.isEmpty && !k.inRange then
      readClass r { k with inRange := true } rest
    else match k.add c with
      | .error fault => .error fault
      | .ok k => readClass r k rest
end

/-- `read pattern` reads a pattern. -/
def read (pattern : String) : Except GlobFault Glob :=
  (readFrom {} pattern.toList).map fun tokens => ⟨pattern, tokens⟩

end Glob

end TrackingPlan
