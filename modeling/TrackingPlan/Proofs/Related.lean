import Mathlib.Data.List.Forall2

/-!
# Related options and lists

Two runs of one reading are compared by a relation between what they look at. The lemmas here carry
a relation through the operations on options and lists, and end in equations where the results no
longer mention what was looked at. `Interleaved` relates a list to one with further elements, and
`List.mergeSort_eq_of_perm` a list to the one that its numbers put into order.
-/

namespace Option

variable {α β γ δ : Type*} {R : α → β → Prop} {S : γ → δ → Prop} {a c : Option α} {b d : Option β}

/-- Related options are both empty, or hold related values. -/
@[elab_as_elim]
theorem Rel.elim {motive : Option α → Option β → Prop} (h : Rel R a b)
    (hnone : motive Option.none Option.none)
    (hsome : ∀ x y, R x y → motive (Option.some x) (Option.some y)) : motive a b := by
  cases h with
  | none => exact hnone
  | some hr => exact hsome _ _ hr

/-- What is related to itself may be there or not. -/
theorem Rel.same {R : α → α → Prop} {a : Option α} (h : ∀ x, R x x) : Rel R a a := by
  cases a with
  | none => exact .none
  | some x => exact .some (h x)

/-- Related options are related by all that follows. -/
theorem Rel.imp {R' : α → β → Prop} (h : Rel R a b) (hr : ∀ x y, R x y → R' x y) : Rel R' a b := by
  cases h with
  | none => exact .none
  | some hxy => exact .some (hr _ _ hxy)

/-- Related options hold related values, if any. -/
theorem Rel.attach (h : Rel R a b) : Rel (fun x y => x ∈ a ∧ R x y) a b := by
  cases h with
  | none => exact .none
  | some hr => exact .some ⟨rfl, hr⟩

/-- Related options go on to options that are related. -/
theorem Rel.bind {f : α → Option γ} {g : β → Option δ} (h : Rel R a b)
    (hf : ∀ x y, R x y → Rel S (f x) (g y)) : Rel S (a.bind f) (b.bind g) := by
  cases h with
  | none => exact .none
  | some hr => exact hf _ _ hr

/-- Related options go on to equal ones if related members do. -/
theorem Rel.bind_eq {f : α → Option γ} {g : β → Option γ} (h : Rel R a b)
    (hf : ∀ x y, R x y → f x = g y) : a.bind f = b.bind g := by
  cases h with
  | none => rfl
  | some hr => exact hf _ _ hr

/-- Related options stay related if their members are mapped. -/
theorem Rel.map {f : α → γ} {g : β → δ} (h : Rel R a b) (hf : ∀ x y, R x y → S (f x) (g y)) :
    Rel S (a.map f) (b.map g) := by
  cases h with
  | none => exact .none
  | some hr => exact .some (hf _ _ hr)

/-- Related options are mapped to equal ones if related members are. -/
theorem Rel.map_eq {f : α → γ} {g : β → γ} (h : Rel R a b) (hf : ∀ x y, R x y → f x = g y) :
    a.map f = b.map g := by
  cases h with
  | none => rfl
  | some hr => exact congrArg _ (hf _ _ hr)

/-- Related options are kept or dropped together. -/
theorem Rel.filter {p : α → Bool} {q : β → Bool} (h : Rel R a b)
    (hp : ∀ x y, R x y → p x = q y) : Rel R (a.filter p) (b.filter q) := by
  cases h with
  | none => exact .none
  | some hr =>
      rw [Option.filter_some, Option.filter_some, hp _ _ hr]
      split
      · exact .some hr
      · exact .none

/-- Related options are checked alike. -/
theorem Rel.any_eq {p : α → Bool} {q : β → Bool} (h : Rel R a b)
    (hp : ∀ x y, R x y → p x = q y) : a.any p = b.any q := by
  cases h with
  | none => rfl
  | some hr => exact hp _ _ hr

/-- The first of two options is there on both sides or on none. -/
theorem Rel.or (h : Rel R a b) (h' : Rel R c d) : Rel R (a.or c) (b.or d) := by
  cases h with
  | none => exact h'
  | some hr => exact .some hr

/-- What is there, or else the default, is related. -/
theorem Rel.getD {x : α} {y : β} (h : Rel R a b) (hdefault : R x y) : R (a.getD x) (b.getD y) := by
  cases h with
  | none => exact hdefault
  | some hr => exact hr

/-- Related options are there on both sides or on none. -/
theorem Rel.isSome_eq (h : Rel R a b) : a.isSome = b.isSome := by
  cases h <;> rfl

/-- Related options are related lists of one or none. -/
theorem Rel.toList (h : Rel R a b) : List.Forall₂ R a.toList b.toList := by
  cases h with
  | none => exact .nil
  | some hr => exact .cons hr .nil

end Option

/-- A list that is related to another by a function is its image. -/
theorem List.forall₂_eq_iff {α β : Type*} {f : α → β} {xs : List α} {ys : List β} :
    List.Forall₂ (fun x y => f x = y) xs ys ↔ xs.map f = ys := by
  rw [← List.forall₂_map_left_iff (R := Eq), List.forall₂_eq_eq_eq]

/-- The numbers that a list gives its elements grow. -/
theorem List.pairwise_lt_zipIdx {α : Type*} (xs : List α) : xs.zipIdx.Pairwise fun a b =>
    a.2 < b.2 := by
  have hlt : (List.range' 0 xs.length).Pairwise (· < ·) := List.pairwise_lt_range'
  rw [← List.zipIdx_map_snd 0 xs] at hlt
  exact List.pairwise_map.1 hlt

/-- Sorting elements by their numbers leaves no choice where no two have the same. -/
theorem List.mergeSort_eq_of_perm {α : Type*} {number : α → Nat} {arrived xs : List α}
    (h : arrived.Perm xs) (hxs : xs.Pairwise fun a b => number a < number b) :
    arrived.mergeSort (fun a b => number a ≤ number b) = xs := by
  have hperm := (List.mergeSort_perm arrived fun a b => number a ≤ number b).trans h
  have hsorted : (arrived.mergeSort fun a b => number a ≤ number b).Pairwise
      fun a b => decide (number a ≤ number b) = true :=
    List.pairwise_mergeSort (fun a b c hab hbc => by simp at *; omega) (fun a b => by simp; omega) _
  have hstrict : (arrived.mergeSort fun a b => number a ≤ number b).Pairwise fun a b =>
      number a < number b := by
    have hnodup : ((arrived.mergeSort fun a b => number a ≤ number b).map number).Nodup :=
      (hperm.map number).nodup_iff.2 (List.pairwise_map.2 (hxs.imp Nat.ne_of_lt))
    refine (hsorted.and (List.pairwise_map.1 hnodup)).imp fun ⟨hle, hne⟩ => ?_
    exact Nat.lt_of_le_of_ne (by simpa using hle) hne
  refine hperm.eq_of_pairwise (fun a b _ _ hab hba => ?_) hstrict hxs
  exact absurd hab (Nat.lt_asymm hba)

namespace List.Forall₂

variable {α β γ δ : Type*} {R : α → β → Prop} {S : γ → δ → Prop} {xs : List α} {ys : List β}

/-- Related lists have related elements. -/
theorem attach (h : Forall₂ R xs ys) : Forall₂ (fun x y => x ∈ xs ∧ R x y) xs ys := by
  induction h with
  | nil => exact .nil
  | cons hr _ ih =>
      refine .cons ⟨mem_cons_self, hr⟩ (ih.imp fun x y hxy => ?_)
      exact ⟨mem_cons_of_mem _ hxy.1, hxy.2⟩

/-- Every member on the right is related to one on the left. -/
theorem exists_left (h : Forall₂ R xs ys) {y : β} (hy : y ∈ ys) : ∃ x ∈ xs, R x y := by
  induction h with
  | nil => cases hy
  | cons hr _ ih =>
      rcases mem_cons.1 hy with rfl | hmem
      · exact ⟨_, mem_cons_self, hr⟩
      · obtain ⟨x, hx, hxy⟩ := ih hmem
        exact ⟨x, mem_cons_of_mem _ hx, hxy⟩

/-- Related lists are mapped to equal ones. -/
theorem map_eq {f : α → γ} {g : β → γ} (h : Forall₂ R xs ys) (hf : ∀ x y, R x y → f x = g y) :
    xs.map f = ys.map g := by
  have hmap : Forall₂ Eq (xs.map f) (ys.map g) := rel_map (fun x y => hf x y) h
  rwa [forall₂_eq_eq_eq] at hmap

/-- Related lists are mapped and filtered to equal ones. -/
theorem filterMap_eq {f : α → Option γ} {g : β → Option γ} (h : Forall₂ R xs ys)
    (hf : ∀ x y, R x y → f x = g y) : xs.filterMap f = ys.filterMap g := by
  induction h with
  | nil => rfl
  | cons hr _ ih => rw [filterMap_cons, filterMap_cons, hf _ _ hr, ih]

/-- Related lists are flattened to equal ones. -/
theorem flatMap_eq {f : α → List γ} {g : β → List γ} (h : Forall₂ R xs ys)
    (hf : ∀ x y, R x y → f x = g y) : xs.flatMap f = ys.flatMap g := by
  rw [flatMap_def, flatMap_def, h.map_eq hf]

/-- Related lists are folded to equal results. -/
theorem foldl_eq {f : γ → α → γ} {g : γ → β → γ} (h : Forall₂ R xs ys)
    (hf : ∀ z x y, R x y → f z x = g z y) (z : γ) : xs.foldl f z = ys.foldl g z := by
  induction h generalizing z with
  | nil => rfl
  | cons hr _ ih => rw [foldl_cons, foldl_cons, hf _ _ _ hr, ih]

/-- Related lists stay related if members are kept or dropped together. -/
theorem filter {p : α → Bool} {q : β → Bool} (h : Forall₂ R xs ys)
    (hp : ∀ x y, R x y → p x = q y) : Forall₂ R (xs.filter p) (ys.filter q) :=
  rel_filter (fun x y hr => Bool.eq_iff_iff.1 (hp x y hr)) h

/-- Related lists are checked alike. -/
theorem any_eq {p : α → Bool} {q : β → Bool} (h : Forall₂ R xs ys)
    (hp : ∀ x y, R x y → p x = q y) : xs.any p = ys.any q := by
  induction h with
  | nil => rfl
  | cons hr _ ih => rw [any_cons, any_cons, hp _ _ hr, ih]

/-- The first members that pass a check are related. -/
theorem find? {p : α → Bool} {q : β → Bool} (h : Forall₂ R xs ys)
    (hp : ∀ x y, R x y → p x = q y) : Option.Rel R (xs.find? p) (ys.find? q) := by
  induction h with
  | nil => exact .none
  | cons hr _ ih =>
      rw [find?_cons, find?_cons, hp _ _ hr]
      split
      · exact .some hr
      · exact ih

/-- The first results that are found are related. -/
theorem findSome? {f : α → Option γ} {g : β → Option δ} (h : Forall₂ R xs ys)
    (hf : ∀ x y, R x y → Option.Rel S (f x) (g y)) :
    Option.Rel S (xs.findSome? f) (ys.findSome? g) := by
  induction h with
  | nil => exact .none
  | cons hr _ ih =>
      rw [findSome?_cons, findSome?_cons]
      exact (hf _ _ hr).elim ih fun _ _ hs => .some hs

/-- The first results that are found are equal if those of related members are. -/
theorem findSome?_eq {f : α → Option γ} {g : β → Option γ} (h : Forall₂ R xs ys)
    (hf : ∀ x y, R x y → f x = g y) : xs.findSome? f = ys.findSome? g := by
  induction h with
  | nil => rfl
  | cons hr _ ih => rw [findSome?_cons, findSome?_cons, hf _ _ hr, ih]

/-- The first members of related lists are related. -/
theorem head? (h : Forall₂ R xs ys) : Option.Rel R xs.head? ys.head? := by
  cases h with
  | nil => exact .none
  | cons hr _ => exact .some hr

/-- The last members of related lists are related. -/
theorem getLast? (h : Forall₂ R xs ys) : Option.Rel R xs.getLast? ys.getLast? := by
  rw [getLast?_eq_head?_reverse, getLast?_eq_head?_reverse]
  exact (rel_reverse h).head?

/-- The members of related lists at one place are related. -/
theorem getElem? (h : Forall₂ R xs ys) (i : Nat) : Option.Rel R xs[i]? ys[i]? := by
  induction h generalizing i with
  | nil => exact .none
  | cons hr _ ih =>
      cases i with
      | zero => exact .some hr
      | succ i => exact ih i

end List.Forall₂

namespace TrackingPlan

variable {α β γ δ : Type*} {R : α → β → Prop} {S : γ → δ → Prop}

/-! ## Entries of tables -/

/-- Entries under the same name with related values. -/
structure Keyed (R : α → β → Prop) (a : String × α) (b : String × β) : Prop where
  name : a.1 = b.1
  value : R a.2 b.2

/-- Look-ups in related tables find related values. -/
theorem rel_lookup {xs : List (String × α)} {ys : List (String × β)}
    (h : List.Forall₂ (Keyed R) xs ys) (name : String) :
    Option.Rel R (xs.lookup name) (ys.lookup name) := by
  induction h with
  | nil => exact .none
  | @cons x y _ _ hr _ ih =>
      obtain ⟨key, value⟩ := x
      obtain ⟨key', value'⟩ := y
      obtain rfl : key = key' := hr.name
      rw [List.lookup_cons, List.lookup_cons]
      split
      · exact .some hr.value
      · exact ih

/-! ## Lists with further elements -/

/-- The second list has elements related to those of the first, in the same order, and `extra`
elements among them. -/
inductive Interleaved (R : α → β → Prop) (extra : β → Prop) : List α → List β → Prop where
  | nil : Interleaved R extra [] []
  | keep {x : α} {y : β} {xs : List α} {ys : List β} (hr : R x y) (h : Interleaved R extra xs ys) :
      Interleaved R extra (x :: xs) (y :: ys)
  | insert {y : β} {xs : List α} {ys : List β} (hextra : extra y) (h : Interleaved R extra xs ys) :
      Interleaved R extra xs (y :: ys)

namespace Interleaved

variable {extra : β → Prop} {xs xs' : List α} {ys ys' : List β}

/-- Interleaved lists may be put one behind the other. -/
theorem append (h : Interleaved R extra xs ys) (h' : Interleaved R extra xs' ys') :
    Interleaved R extra (xs ++ xs') (ys ++ ys') := by
  induction h with
  | nil => exact h'
  | keep hr _ ih => exact .keep hr ih
  | insert hextra _ ih => exact .insert hextra ih

/-- Lists with further elements, put together; in place of a further element there are only further
ones. -/
theorem flatMap_interleaved {extra' : δ → Prop} {f : α → List γ} {g : β → List δ}
    (h : Interleaved R extra xs ys) (hf : ∀ x ∈ xs, ∀ y, R x y → Interleaved S extra' (f x) (g y))
    (hextra : ∀ y, extra y → Interleaved S extra' [] (g y)) :
    Interleaved S extra' (xs.flatMap f) (ys.flatMap g) := by
  induction h with
  | nil => exact .nil
  | keep hr _ ih =>
      exact (hf _ List.mem_cons_self _ hr).append (ih fun x hx => hf x (List.mem_cons_of_mem _ hx))
  | insert hy _ ih => exact (hextra _ hy).append (ih hf)

/-- A choice that leaves out the further elements leaves related lists. -/
theorem filter {p : α → Bool} {q : β → Bool} (h : Interleaved R extra xs ys)
    (hp : ∀ x y, R x y → p x = q y) (hextra : ∀ y, extra y → q y = false) :
    List.Forall₂ R (xs.filter p) (ys.filter q) := by
  induction h with
  | nil => exact .nil
  | keep hr _ ih =>
      rw [List.filter_cons, List.filter_cons, hp _ _ hr]
      split
      · exact .cons hr ih
      · exact ih
  | insert hy _ ih =>
      rw [List.filter_cons, hextra _ hy]
      exact ih

/-- The first members that pass a check are related if no extra member passes it. -/
theorem find? {p : α → Bool} {q : β → Bool} (h : Interleaved R extra xs ys)
    (hp : ∀ x y, R x y → p x = q y) (hextra : ∀ y, extra y → q y = false) :
    Option.Rel R (xs.find? p) (ys.find? q) := by
  rw [← List.head?_filter, ← List.head?_filter]
  exact (h.filter hp hextra).head?

/-- Interleaved lists are checked alike if no extra member passes the check. -/
theorem any_eq {p : α → Bool} {q : β → Bool} (h : Interleaved R extra xs ys)
    (hp : ∀ x y, R x y → p x = q y) (hextra : ∀ y, extra y → q y = false) :
    xs.any p = ys.any q := by
  induction h with
  | nil => rfl
  | keep hr _ ih => rw [List.any_cons, List.any_cons, hp _ _ hr, ih]
  | insert hy _ ih => rw [List.any_cons, hextra _ hy, ih, Bool.false_or]

/-- What the elements give in turn is related, if the further elements give nothing. -/
theorem flatMap {f : α → List γ} {g : β → List δ} (h : Interleaved R extra xs ys)
    (hf : ∀ x y, R x y → List.Forall₂ S (f x) (g y)) (hextra : ∀ y, extra y → g y = []) :
    List.Forall₂ S (xs.flatMap f) (ys.flatMap g) := by
  induction h with
  | nil => exact .nil
  | keep hr _ ih => exact List.rel_append (hf _ _ hr) ih
  | insert hy _ ih =>
      rw [List.flatMap_cons, hextra _ hy]
      exact ih

end Interleaved

end TrackingPlan
