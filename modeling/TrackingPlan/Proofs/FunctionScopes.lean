import Mathlib.Data.List.MinMax
import TrackingPlan.Proofs.EventNames
import TrackingPlan.Proofs.SourceOrder

/-!
# What names stand for in Go functions

A file declares functions, and each has its own names. A place in a function belongs to that
function (`owner?_eq_function`), and a name there stands for the latest declaration that starts no
later than the place: `lookup?_in_function`. Only if there is none, and outside all functions, the
first declaration of the package counts.
-/

namespace TrackingPlan.Go

variable {root place function n : Node} {b : Binding} {bindings : Bindings} {name : String}

/-! ## The latest declaration -/

/-- The binding is the latest of `bindings` with that name that starts no later than `place`. -/
structure IsLatest (bindings : Bindings) (name : String) (place : Node) (b : Binding) : Prop where
  bound : (name, b) ∈ bindings
  before : b.start ≤ place.start
  latest : ∀ other, (name, other) ∈ bindings → other.start ≤ place.start → other.start ≤ b.start

/-- `visible bindings name place` lists the bindings of `name` that start no later than `place`. -/
def visible (bindings : Bindings) (name : String) (place : Node) : List Binding :=
  (bindings.filter fun entry => entry.1 = name && entry.2.start ≤ place.start).map (·.2)

/-- The visible bindings are those with the name that start no later than the place. -/
theorem mem_visible_iff :
    b ∈ visible bindings name place ↔ (name, b) ∈ bindings ∧ b.start ≤ place.start := by
  simp only [visible, List.mem_map, List.mem_filter, Bool.and_eq_true, decide_eq_true_eq]
  constructor
  · rintro ⟨⟨key, b⟩, ⟨hmem, rfl, hbefore⟩, rfl⟩
    exact ⟨hmem, hbefore⟩
  · rintro ⟨hmem, hbefore⟩
    exact ⟨(name, b), ⟨hmem, rfl, hbefore⟩, rfl⟩

/-- The latest declaration is the last of those with the greatest offset. -/
theorem latest?_eq_argmax (bindings : Bindings) (name : String) (place : Node) :
    Unit.latest? bindings name place = (visible bindings name place).reverse.argmax (·.start) := by
  -- the search goes on from what it holds after all but the last declaration
  induction bindings using List.reverseRecOn with
  | nil => rfl
  | append_singleton bindings entry ih =>
      rw [visible, List.filter_append, List.map_append, List.reverse_append, List.filter_singleton]
      rw [Unit.latest?] at ih ⊢
      rw [List.foldl_append, List.foldl_cons, List.foldl_nil, ih]
      split
      next hcounts =>
        rw [hcounts, cond_true]
        show _ = (entry.2 :: (visible bindings name place).reverse).argmax (·.start)
        rw [List.argmax_cons]
        cases hheld : (visible bindings name place).reverse.argmax (·.start) with
        | none => rfl
        | some held =>
            dsimp only
            by_cases hle : held.start ≤ entry.2.start
            · rw [if_pos hle, if_neg (by omega)]
            · rw [if_neg hle, if_pos (by omega)]
      next hcounts =>
        rw [Bool.not_eq_true] at hcounts
        rw [hcounts, cond_false]
        rfl

/-- What is found last is the latest binding. -/
theorem isLatest_of_latest? (h : Unit.latest? bindings name place = some b) :
    IsLatest bindings name place b := by
  rw [latest?_eq_argmax] at h
  obtain ⟨hmem, hbefore⟩ := mem_visible_iff.1 (List.mem_reverse.1 (List.argmax_mem h))
  refine ⟨hmem, hbefore, ?_⟩
  intro other hother hin
  exact List.le_of_mem_argmax (List.mem_reverse.2 (mem_visible_iff.2 ⟨hother, hin⟩)) h

/-- Nothing is found only if all declarations of the name start behind the place. -/
theorem lt_of_latest?_eq_none (h : Unit.latest? bindings name place = none)
    (hb : (name, b) ∈ bindings) :
    place.start < b.start := by
  rw [latest?_eq_argmax, List.argmax_eq_none, List.reverse_eq_nil_iff] at h
  by_contra hle
  have hmem : b ∈ visible bindings name place := mem_visible_iff.2 ⟨hb, by omega⟩
  rw [h] at hmem
  cases hmem

/-! ## The declaration around a place -/

/-- The node is a function or a method. -/
def IsFunction (n : Node) : Prop := n.kind = "function_declaration" ∨ n.kind = "method_declaration"

instance (n : Node) : Decidable (IsFunction n) := inferInstanceAs (Decidable (_ ∨ _))

/-- `functionDeclaration n` is the declaration that the function `n` makes. -/
def functionDeclaration (n : Node) : Declaration :=
  ⟨some ((n.childText? "name").getD "global"), n, functionBindings n⟩

/-- A node that is a function declares itself. -/
theorem declarationsAt_of_function (h : IsFunction n) :
    Unit.declarationsAt n = [functionDeclaration n] := by
  rcases h with h | h <;> simp only [Unit.declarationsAt, h] <;> rfl

/-- A part of a file declares what is in it, and only functions declare functions. -/
theorem parts_of_mem_declarationsAt {d : Declaration} (h : d ∈ Unit.declarationsAt n) :
    n.Within d.body ∧ (d.function.isSome = true → IsFunction n ∧ d = functionDeclaration n) := by
  have hspec : d ∈ (specsIn n).map (fun spec => (⟨none, spec, []⟩ : Declaration)) →
      n.Within d.body ∧ (d.function.isSome = true → IsFunction n ∧ d = functionDeclaration n) := by
    intro hmem
    obtain ⟨spec, hspec, rfl⟩ := List.mem_map.1 hmem
    refine ⟨within_of_mem_specsIn .root hspec, ?_⟩
    intro hsome
    cases hsome
  unfold Unit.declarationsAt at h
  split at h
  next hkind =>
    cases List.mem_singleton.1 h
    exact ⟨.root, fun _ => ⟨.inl hkind, rfl⟩⟩
  next hkind =>
    cases List.mem_singleton.1 h
    exact ⟨.root, fun _ => ⟨.inr hkind, rfl⟩⟩
  next => exact hspec h
  next => exact hspec h
  next => cases h

/-- A place in a function belongs to that function. -/
theorem owner?_eq_function (h : root.LaidOut) (hmem : function ∈ root.namedChildren)
    (hfunction : IsFunction function) (hplace : function.contains place = true)
    (hbytes : place.start < place.stop) :
    (Unit.ofTree root).owner? place = some (functionDeclaration function) := by
  obtain ⟨before, after, hsplit⟩ := List.append_of_mem hmem
  have hin (c : Node) (hc : c ∈ root.namedChildren) : ∀ n, c.Within n → n.HoldsChildren := by
    intro n hn
    exact h.holdsChildren_of_within ((Node.Within.root.namedChildren hc).trans hn)
  have horder : root.namedChildren.Pairwise fun a b => a.stop ≤ b.start :=
    (h.holdsChildren_of_within .root).inOrder.sublist List.filter_sublist
  -- what is declared before the function ends before it
  have hearlier : (before.flatMap Unit.declarationsAt).find? (·.body.contains place) = none := by
    rw [List.find?_eq_none]
    intro d hd hcontains
    obtain ⟨c, hc, hdeclared⟩ := List.mem_flatMap.1 hd
    have hcmem : c ∈ root.namedChildren := by
      rw [hsplit]
      exact List.mem_append_left _ hc
    have hends : c.stop ≤ function.start := by
      rw [hsplit] at horder
      exact (List.pairwise_append.1 horder).2.2 c hc function List.mem_cons_self
    have hbody := Node.contains_of_within (hin c hcmem) (parts_of_mem_declarationsAt hdeclared).1
    rw [Node.contains_iff] at hcontains hplace
    omega
  have hself : (functionDeclaration function).body.contains place = true := hplace
  rw [Unit.owner?, Unit.ofTree, hsplit, List.flatMap_append, List.flatMap_cons,
    declarationsAt_of_function hfunction, List.find?_append, hearlier, Option.none_or,
    List.singleton_append, List.find?_cons, hself]

/-- In a function the latest declaration counts that starts no later than the place, and that of the
package only if there is none. -/
theorem lookup?_in_function (h : root.LaidOut) (hmem : function ∈ root.namedChildren)
    (hfunction : IsFunction function) (hplace : function.contains place = true)
    (hbytes : place.start < place.stop) (name : String) :
    (∃ b, (Unit.ofTree root).lookup? name place = some b ∧
      IsLatest (functionBindings function) name place b) ∨
    (∀ b, (name, b) ∈ functionBindings function → place.start < b.start) ∧
      (Unit.ofTree root).lookup? name place = (Unit.ofTree root).package.lookup name := by
  have hlookup : (Unit.ofTree root).lookup? name place =
      (Unit.latest? (functionBindings function) name place).or
        ((Unit.ofTree root).package.lookup name) := by
    rw [Unit.lookup?, owner?_eq_function h hmem hfunction hplace hbytes]
    rfl
  cases hlatest : Unit.latest? (functionBindings function) name place with
  | some b =>
      rw [hlatest, Option.some_or] at hlookup
      exact .inl ⟨b, hlookup, isLatest_of_latest? hlatest⟩
  | none =>
      rw [hlatest, Option.none_or] at hlookup
      exact .inr ⟨fun _ => lt_of_latest?_eq_none hlatest, hlookup⟩

/-- The place is in no function of the file. -/
def OutsideFunctions (root place : Node) : Prop :=
  ∀ function ∈ root.namedChildren, IsFunction function → function.contains place = false

/-- Outside functions the package counts. -/
theorem lookup?_outside (houtside : OutsideFunctions root place) (name : String) :
    (Unit.ofTree root).lookup? name place = (Unit.ofTree root).package.lookup name := by
  rw [Unit.lookup?]
  cases howner : (Unit.ofTree root).owner? place with
  | none => rfl
  | some d =>
      obtain ⟨c, hc, hd⟩ := List.mem_flatMap.1 (List.mem_of_find?_eq_some howner)
      have hcontains : d.body.contains place = true := by simpa using List.find?_some howner
      dsimp only
      split
      next hsome =>
        obtain ⟨hfunction, rfl⟩ := (parts_of_mem_declarationsAt hd).2 hsome
        rw [show (functionDeclaration c).body = c from rfl, houtside c hc hfunction] at hcontains
        cases hcontains
      next => rfl

end TrackingPlan.Go
