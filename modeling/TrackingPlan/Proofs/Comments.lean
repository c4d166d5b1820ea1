import TrackingPlan.Proofs.Comments.Go
import TrackingPlan.Proofs.Comments.Python
import TrackingPlan.Proofs.Comments.Ruby
import TrackingPlan.Proofs.Comments.Script
import TrackingPlan.Proofs.Within

/-!
# Comments do not count

Comments in the files of any language leave the names, providers, properties and functions of the
events as they were, unless they come first where the first named child is read:
`contents_of_commented`. By `commented_withoutComments` comments were put into any tree whose
comments can be taken out again; `comment_hides_name` is a script in which a comment comes first in
parentheses and the event is lost.
-/

namespace TrackingPlan

/-! ## Trees without their comments -/

namespace Node

mutual
/-- `withoutComments n` is the tree `n` with no comments below its root; all places stay. -/
def withoutComments : Node → Node
  | mk head children => mk head (keptOf children)

/-- `keptOf ns` drops the comments among `ns` and those in the other trees. -/
def keptOf : List Node → List Node
  | [] => []
  | n :: ns => if n.isComment then keptOf ns else withoutComments n :: keptOf ns
end

/-- A node keeps its head without its comments. -/
theorem head_withoutComments (n : Node) : n.withoutComments.head = n.head := by
  cases n
  rw [withoutComments, head, head]

/-- Without comments the children are those that are kept. -/
theorem children_withoutComments (n : Node) : n.withoutComments.children = keptOf n.children := by
  cases n
  rw [withoutComments, children, children]

/-- Nothing at the node `n` depends on comments: if it is a comment itself it is one that was put
in, none comes first in it where the first named child is read, and the file starts no later than
it. -/
structure Unhidden (r : Reading) (root n : Node) : Prop where
  comment : n.isComment = true → n.head.role = none ∧ n.children.isEmpty = true
  first : n.kind ∈ r.firsts → n.firstNamed?.any isComment = false
  opens : root.start ≤ n.start

instance (r : Reading) (root n : Node) : Decidable (Unhidden r root n) :=
  decidable_of_iff ((n.isComment = true → n.head.role = none ∧ n.children.isEmpty = true) ∧
    (n.kind ∈ r.firsts → n.firstNamed?.any isComment = false) ∧ root.start ≤ n.start)
    ⟨fun h => ⟨h.1, h.2.1, h.2.2⟩, fun h => ⟨h.comment, h.first, h.opens⟩⟩

variable {r : Reading} {root n : Node}

/-- The children of a node are those that are kept, with the comments put in between. -/
theorem interleaved_keptOf {R : Node → Node → Prop} {ns : List Node}
    (hkept : ∀ c ∈ ns, R c.withoutComments c)
    (hcomment : ∀ c ∈ ns, c.isComment = true → IsInserted c) :
    Interleaved R IsInserted (keptOf ns) ns := by
  induction ns with
  | nil =>
      rw [keptOf]
      exact .nil
  | cons c cs ih =>
      have hrest := ih (fun d hd => hkept d (List.mem_cons_of_mem _ hd))
        fun d hd => hcomment d (List.mem_cons_of_mem _ hd)
      rw [keptOf]
      split
      next hc => exact .insert (hcomment c List.mem_cons_self hc) hrest
      next => exact .keep (hkept c List.mem_cons_self) hrest

/-- The first named child is the same without comments, unless it is one. -/
theorem rel_find?_keptOf {R : Node → Node → Prop} {ns : List Node}
    (hkept : ∀ c ∈ ns, R c.withoutComments c)
    (hfirst : (ns.find? (·.head.named)).any isComment = false) :
    Option.Rel R ((keptOf ns).find? (·.head.named)) (ns.find? (·.head.named)) := by
  induction ns with
  | nil =>
      rw [keptOf]
      exact .none
  | cons c cs ih =>
      have hrest := ih fun d hd => hkept d (List.mem_cons_of_mem _ hd)
      rw [List.find?_cons] at hfirst ⊢
      rw [keptOf]
      cases hnamed : c.head.named with
      | true =>
          rw [hnamed] at hfirst
          have hc : ¬c.isComment = true := by simpa using hfirst
          rw [if_neg hc, List.find?_cons, head_withoutComments, hnamed]
          exact .some (hkept c List.mem_cons_self)
      | false =>
          rw [hnamed] at hfirst
          split
          · exact hrest hfirst
          · rw [List.find?_cons, head_withoutComments, hnamed]
            exact hrest hfirst

variable {r : Reading} {root : Node}

/-- Comments that come first nowhere they must not can be taken out. -/
theorem commented_withoutComments (htop : root.kind = r.top)
    (hsites : ∀ s ∈ (Site.root root).all, Unhidden r root s.node) :
    Commented r root.withoutComments root := by
  have hunhidden (n : Node) (hn : root.Within n) : Unhidden r root n := by
    obtain ⟨s, hs, rfl⟩ := Site.exists_mem_all hn
    exact hsites s hs
  have hstart (n : Node) : n.withoutComments.start = n.start :=
    congrArg Head.start (head_withoutComments n)
  have hstop (n : Node) : n.withoutComments.stop = n.stop :=
    congrArg Head.stop (head_withoutComments n)
  have hkind (n : Node) : n.withoutComments.kind = n.kind :=
    congrArg Head.kind (head_withoutComments n)
  refine ⟨fun n n' => n = n'.withoutComments ∧ root.Within n', ?_⟩
  exact
    { rooted := ⟨rfl, .root⟩
      top := (hkind root).trans htop
      kind := by
        rintro _ n ⟨rfl, -⟩
        exact hkind n
      named := by
        rintro _ n ⟨rfl, -⟩
        rw [head_withoutComments]
      role := by
        rintro _ n ⟨rfl, -⟩
        rw [head_withoutComments]
      text := by
        rintro _ n ⟨rfl, -⟩
        exact congrArg Head.text (head_withoutComments n)
      children := by
        rintro _ n ⟨rfl, hn⟩
        rw [children_withoutComments]
        refine interleaved_keptOf (fun c hc => ⟨rfl, .child hn hc⟩) fun c hc hcomment => ?_
        obtain ⟨hrole, hempty⟩ := (hunhidden c (.child hn hc)).comment hcomment
        exact ⟨of_decide_eq_true hcomment, hrole, List.isEmpty_iff.1 hempty⟩
      first := by
        rintro _ n ⟨rfl, hn⟩ hfirsts
        rw [firstNamed?, children_withoutComments]
        refine rel_find?_keptOf (fun c hc => ⟨rfl, .child hn hc⟩) ?_
        exact (hunhidden n hn).first (by rwa [← hkind])
      opens := by
        rintro _ n ⟨rfl, hn⟩
        have hopens := (hunhidden n hn).opens
        rw [hstart, hstart]
        exact ⟨hopens, hopens⟩
      starts := by
        rintro _ n _ m ⟨rfl, -⟩ ⟨rfl, -⟩ - -
        rw [hstart, hstart]
      contains := by
        rintro _ n _ m ⟨rfl, -⟩ ⟨rfl, -⟩ -
        rw [Node.contains, Node.contains, hstart, hstop, hstart, hstop]
      narrower := by
        rintro _ n _ m _ p ⟨rfl, -⟩ ⟨rfl, -⟩ - - - - -
        rw [width, width, width, width, hstart, hstop, hstart, hstop] }

end Node

/-! ## All languages -/

/-- More comments in files of any language leave the names, providers, properties and functions of
all events as they were. No new comment comes first where `Node.Reading.firsts` says so. -/
theorem contents_of_commented (signatures : List Signature) :
    (∀ (modules others : Script.Modules) (m m' : Script.Module), modules.Twin others →
      m.Commented m' → (Script.events modules signatures m).map Event.content =
        (Script.events others signatures m').map Event.content) ∧
    (∀ (path : Path) (root root' : Node), Node.Commented Python.reading root root' →
      (Python.events signatures path root).map Event.content =
        (Python.events signatures path root').map Event.content) ∧
    (∀ (index : Option Ruby.ConstantIndex) (path : Path) (root root' : Node),
      Node.Commented Ruby.reading root root' →
        Ruby.Constants.ofTree root = Ruby.Constants.ofTree root' ∧
        (Ruby.events index signatures path root).map Event.content =
          (Ruby.events index signatures path root').map Event.content) ∧
    (∀ (path : Path) (root root' : Node), Node.Commented Go.reading root root' →
      (Go.events signatures path root).map Event.content =
        (Go.events signatures path root').map Event.content) :=
  ⟨fun _ _ _ _ hmodules hm => Script.content_events hmodules hm signatures,
    fun path _ _ h => Python.content_events h signatures path,
    fun index path _ _ h => ⟨Ruby.constants_ofTree h, Ruby.content_events h index signatures path⟩,
    fun path _ _ h => Go.content_events h signatures path⟩

/-! ## Calls with comments -/

namespace Node

/-- `leaf kind text start` is a node with nothing in it. -/
def leaf (kind text : String) (start : Nat) : Node :=
  mk ⟨kind, true, none, start, start + text.length, 0, text⟩ []

/-- `mark text start` is punctuation. -/
def mark (text : String) (start : Nat) : Node :=
  mk ⟨text, false, none, start, start + text.length, 0, text⟩ []

/-- `branch kind children` is a node with `children` in it; its text leaves out what is between
them. -/
def branch (kind : String) (children : List Node) : Node :=
  mk ⟨kind, true, none, (children.head?.map start).getD 0, (children.getLast?.map stop).getD 0, 0,
    String.join (children.map text)⟩ children

/-- `inRole role n` is `n` in that role. -/
def inRole (role : String) : Node → Node
  | mk head children => mk { head with role := some role } children

/-- `trackCall kind called list start arguments` is a call of `track`. -/
def trackCall (kind called list : String) (start : Nat) (arguments : List Node) : Node :=
  branch kind [(leaf "identifier" "track" start).inRole called,
    (branch list arguments).inRole "arguments"]

end Node

section Calls

open Node

/-- The script `track(/*c*/'Signup')`. -/
def commentedScript : Node :=
  branch "program" [branch "expression_statement"
    [trackCall "call_expression" "function" "arguments" 0
    [mark "(" 5, leaf "comment" "/*c*/" 6, leaf "string" "'Signup'" 11, mark ")" 19]]]

/-- The Python file `track('Signup')#c`. -/
def commentedPython : Node :=
  branch "module" [branch "expression_statement" [trackCall "call" "function" "argument_list" 0
    [mark "(" 5, leaf "string" "'Signup'" 6, mark ")" 14]], leaf "comment" "#c" 15]

/-- The Ruby file `track('Signup')#c`. -/
def commentedRuby : Node :=
  branch "program" [trackCall "call" "method" "argument_list" 0
    [mark "(" 5, leaf "string" "'Signup'" 6, mark ")" 14], leaf "comment" "#c" 15]

/-- The Go declaration `var _ = track(/*c*/"Signup")`. -/
def commentedGo : Node :=
  branch "source_file" [branch "var_declaration" [mark "var" 0, branch "var_spec"
    [(leaf "identifier" "_" 4).inRole "name", mark "=" 6, (branch "expression_list"
      [trackCall "call_expression" "function" "argument_list" 8 [mark "(" 13,
        leaf "comment" "/*c*/" 14,
        leaf "interpreted_string_literal" "\"Signup\"" 19, mark ")" 27]]).inRole "value"]]]

/-- Calls of a function with a signature send the same event with and without the comments. -/
theorem contents_of_track_calls :
    let signature : Signature := ⟨"track", ["track"], 0, 1, []⟩
    let script := Script.Module.ofTree ⟨"a.js"⟩ commentedScript.withoutComments
    let script' := Script.Module.ofTree ⟨"a.js"⟩ commentedScript
    let sent := [("Signup", Provider.custom, ([] : Properties), "global")]
    (Script.Modules.Twin .untyped .untyped ∧ script.Commented script' ∧
      (Script.events .untyped [signature] script).map Event.content = sent ∧
      (Script.events .untyped [signature] script').map Event.content = sent) ∧
    (Node.Commented Python.reading commentedPython.withoutComments commentedPython ∧
      (Python.events [signature] ⟨"a.py"⟩ commentedPython.withoutComments).map
        Event.content = sent ∧
      (Python.events [signature] ⟨"a.py"⟩ commentedPython).map Event.content = sent) ∧
    (Node.Commented Ruby.reading commentedRuby.withoutComments commentedRuby ∧
      (Ruby.events none [signature] ⟨"a.rb"⟩ commentedRuby.withoutComments).map
        Event.content = sent ∧
      (Ruby.events none [signature] ⟨"a.rb"⟩ commentedRuby).map Event.content = sent) ∧
    (Node.Commented Go.reading commentedGo.withoutComments commentedGo ∧
      (Go.events [signature] ⟨"a.go"⟩ commentedGo.withoutComments).map Event.content = sent ∧
      (Go.events [signature] ⟨"a.go"⟩ commentedGo).map Event.content = sent) := by
  intro signature script script' sent
  obtain ⟨hscripts, hpython, hruby, hgo⟩ := contents_of_commented [signature]
  refine ⟨?_, ?_, ?_, ?_⟩
  · have hmodules : Script.Modules.Twin .untyped .untyped := ⟨rfl, fun _ _ => .none, fun _ => .none⟩
    have hscript : script.Commented script' := by
      obtain ⟨R, h⟩ : Commented Script.reading commentedScript.withoutComments commentedScript :=
        commented_withoutComments rfl (by decide +kernel)
      exact ⟨R, rfl, h⟩
    have hsent : (Script.events .untyped [signature] script).map Event.content = sent := by
      decide +kernel
    exact ⟨hmodules, hscript, hsent, (hscripts _ _ _ _ hmodules hscript).symm.trans hsent⟩
  · have hcommented : Commented Python.reading commentedPython.withoutComments commentedPython :=
      commented_withoutComments rfl (by decide +kernel)
    have hsent : (Python.events [signature] ⟨"a.py"⟩ commentedPython.withoutComments).map
        Event.content = sent := by
      decide +kernel
    exact ⟨hcommented, hsent, (hpython _ _ _ hcommented).symm.trans hsent⟩
  · have hcommented : Commented Ruby.reading commentedRuby.withoutComments commentedRuby :=
      commented_withoutComments rfl (by decide +kernel)
    have hsent : (Ruby.events none [signature] ⟨"a.rb"⟩ commentedRuby.withoutComments).map
        Event.content = sent := by
      decide +kernel
    exact ⟨hcommented, hsent, (hruby none _ _ _ hcommented).2.symm.trans hsent⟩
  · have hcommented : Commented Go.reading commentedGo.withoutComments commentedGo :=
      commented_withoutComments rfl (by decide +kernel)
    have hsent : (Go.events [signature] ⟨"a.go"⟩ commentedGo.withoutComments).map
        Event.content = sent := by
      decide +kernel
    exact ⟨hcommented, hsent, (hgo _ _ _ hcommented).symm.trans hsent⟩

/-- The script `analytics.track((/*c*/'Signup'));`. -/
def hiddenName : Node :=
  branch "program" [branch "expression_statement" [branch "call_expression"
    [(branch "member_expression" [(leaf "identifier" "analytics" 0).inRole "object", mark "." 9,
        (leaf "property_identifier" "track" 10).inRole "property"]).inRole "function",
      (branch "arguments" [mark "(" 15, branch "parenthesized_expression" [mark "(" 16,
        leaf "comment" "/*c*/" 17, leaf "string" "'Signup'" 22, mark ")" 30],
        mark ")" 31]).inRole "arguments"], mark ";" 32]]

/-- A comment that comes first in parentheses takes the place of what is in them, and the event is
lost. -/
theorem comment_hides_name :
    Node.Commented { Script.reading with firsts := [] } hiddenName.withoutComments hiddenName ∧
    (Script.events .untyped [] (.ofTree ⟨"a.js"⟩ hiddenName.withoutComments)).map Event.content =
      [("Signup", .segment, [], "global")] ∧
    Script.events .untyped [] (.ofTree ⟨"a.js"⟩ hiddenName) = [] := by
  refine ⟨commented_withoutComments rfl (by decide +kernel), by decide +kernel, ?_⟩
  have hcontent :
      (Script.events .untyped [] (.ofTree ⟨"a.js"⟩ hiddenName)).map Event.content = [] := by
    decide +kernel
  exact List.map_eq_nil_iff.1 hcontent

end Calls

end TrackingPlan
