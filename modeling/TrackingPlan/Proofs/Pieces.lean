import Mathlib.Data.List.Basic
import Mathlib.Data.List.Infix
import Mathlib.Data.List.TakeWhile
import TrackingPlan.Text.Blank

/-!
# The pieces of a text

Three ways to cut a text up, each said without the function that does it: a run of characters of one
class, a text between the blanks at its ends (`IsTrimmed`), and the pieces between the occurrences
of a separator, which are looked for from the left (`IsSplit`). Both relations leave no choice, by
`trimChars_eq_iff` and `IsSplit.unique`.
-/

namespace TrackingPlan.Text

variable {c : Char} {cs rest before after text inner : List Char}

/-! ## Runs of characters -/

/-- What is dropped ends where something stands that is kept. -/
theorem dropWhile_append_of_stops {p : Char → Bool} (h : ∀ c ∈ cs, p c = true)
    (hrest : ∀ c ∈ rest.head?, p c = false) : (cs ++ rest).dropWhile p = rest := by
  rw [List.dropWhile_append_of_pos h]
  cases rest with
  | nil => rfl
  | cons c rest => exact List.dropWhile_cons_of_neg (by simp [hrest c rfl])

/-- What is taken ends where something stands that is not. -/
theorem takeWhile_append_of_stops {p : Char → Bool} (h : ∀ c ∈ cs, p c = true)
    (hrest : ∀ c ∈ rest.head?, p c = false) : (cs ++ rest).takeWhile p = cs := by
  rw [List.takeWhile_append_of_pos h]
  cases rest with
  | nil => simp
  | cons c rest => rw [List.takeWhile_cons_of_neg (by simp [hrest c rfl]), List.append_nil]

/-- What is left begins with something that is kept. -/
theorem head?_dropWhile {p : Char → Bool} (cs : List Char) :
    ∀ c ∈ (cs.dropWhile p).head?, p c = false := by
  intro c hc
  have h := List.head?_dropWhile_not p cs
  rw [hc] at h
  simpa using h

/-! ## Blanks at the ends -/

/-- Printed characters of the ASCII range are not blank. -/
theorem isBlank_of_ascii (hlow : 0x20 < c.toNat) (hhigh : c.toNat < 0x7F) : isBlank c = false := by
  simp only [isBlank, Bool.or_eq_false_iff, Bool.and_eq_false_iff, beq_eq_false_iff_ne,
    decide_eq_false_iff_not]
  omega

/-- The text has no character that is not blank. -/
def AllBlank (cs : List Char) : Prop := ∀ c ∈ cs, isBlank c = true

/-- A blank in front is trimmed away. -/
theorem trimChars_cons (h : isBlank c = true) (cs : List Char) :
    trimChars (c :: cs) = trimChars cs := by
  rw [trimChars, trimChars, List.dropWhile_cons_of_pos h]

/-- A blank at the end is trimmed away. -/
theorem trimChars_concat (h : isBlank c = true) (cs : List Char) :
    trimChars (cs ++ [c]) = trimChars cs := by
  rw [trimChars, trimChars, List.dropWhile_append]
  split
  next hblank => simp [List.isEmpty_iff.1 hblank, h]
  next => rw [List.reverse_append, List.reverse_singleton, List.singleton_append,
    List.dropWhile_cons_of_pos h]

/-- Blanks in front are trimmed away. -/
theorem trimChars_append_left (h : ∀ c ∈ before, isBlank c = true) (cs : List Char) :
    trimChars (before ++ cs) = trimChars cs := by
  induction before with
  | nil => rfl
  | cons c rest ih =>
      rw [List.cons_append, trimChars_cons (h c List.mem_cons_self),
        ih fun c hc => h c (List.mem_cons_of_mem _ hc)]

/-- Blanks at the end are trimmed away. -/
theorem trimChars_append_right (h : ∀ c ∈ after, isBlank c = true) (cs : List Char) :
    trimChars (cs ++ after) = trimChars cs := by
  induction after using List.reverseRecOn with
  | nil => rw [List.append_nil]
  | append_singleton rest c ih =>
      rw [← List.append_assoc, trimChars_concat (h c (by simp)), ih fun c hc => h c (by simp [hc])]

/-- A trimmed text is what stands behind the first blanks, without the last ones. -/
theorem trimChars_append_eq_dropWhile (cs : List Char) :
    trimChars cs ++ ((cs.dropWhile isBlank).reverse.takeWhile isBlank).reverse =
      cs.dropWhile isBlank := by
  rw [trimChars, ← List.reverse_append, List.takeWhile_append_dropWhile, List.reverse_reverse]

/-- A text is what is left of it between blanks. -/
theorem exists_blanks (cs : List Char) : ∃ before after, cs = before ++ trimChars cs ++ after ∧
    (∀ c ∈ before, isBlank c = true) ∧ ∀ c ∈ after, isBlank c = true := by
  refine ⟨cs.takeWhile isBlank, ((cs.dropWhile isBlank).reverse.takeWhile isBlank).reverse, ?_, ?_,
    ?_⟩
  · rw [List.append_assoc, trimChars_append_eq_dropWhile, List.takeWhile_append_dropWhile]
  · exact fun c hc => List.mem_takeWhile_imp hc
  · exact fun c hc => List.mem_takeWhile_imp (List.mem_reverse.1 hc)

/-- A trimmed text is trimmed already. -/
theorem trimChars_trimChars (cs : List Char) : trimChars (trimChars cs) = trimChars cs := by
  obtain ⟨before, after, hcs, hbefore, hafter⟩ := exists_blanks cs
  conv_rhs => rw [hcs]
  rw [trimChars_append_right hafter, trimChars_append_left hbefore]

/-- `inner` is the text without the blanks at its two ends. -/
structure IsTrimmed (text inner : List Char) : Prop where
  between : ∃ before after, text = before ++ inner ++ after ∧ AllBlank before ∧ AllBlank after
  /-- It does not start with a blank. -/
  starts : ∀ c ∈ inner.head?, isBlank c = false
  /-- It does not end with a blank. -/
  ends : ∀ c ∈ inner.getLast?, isBlank c = false

/-- Nothing is dropped if the first character is kept. -/
theorem dropWhile_eq_self {p : Char → Bool} (h : ∀ c ∈ cs.head?, p c = false) :
    cs.dropWhile p = cs := by
  have hall := List.forall_mem_nil fun c => p c = true
  exact dropWhile_append_of_stops hall h

/-- What a text is trimmed to is what stands between its blanks. -/
theorem trimChars_eq_iff : trimChars text = inner ↔ IsTrimmed text inner := by
  constructor
  · rintro rfl
    refine ⟨exists_blanks text, fun c hc => ?_, fun c hc => ?_⟩
    · -- what is left starts where the text does after its first blanks
      refine head?_dropWhile text c ?_
      rw [← trimChars_append_eq_dropWhile]
      exact List.mem_head?_append_of_mem_head? hc
    · rw [trimChars, List.getLast?_reverse] at hc
      exact head?_dropWhile _ c hc
  · rintro ⟨⟨before, after, rfl, hbefore, hafter⟩, hstarts, hends⟩
    rw [trimChars_append_right hafter, trimChars_append_left hbefore, trimChars,
      dropWhile_eq_self hstarts, dropWhile_eq_self (by simpa using hends), List.reverse_reverse]

/-- One more blank in front is trimmed away as well. -/
theorem IsTrimmed.cons (h : IsTrimmed text inner) (hc : isBlank c = true) :
    IsTrimmed (c :: text) inner := by
  obtain ⟨before, after, rfl, hbefore, hafter⟩ := h.between
  exact ⟨⟨c :: before, after, rfl, List.forall_mem_cons.2 ⟨hc, hbefore⟩, hafter⟩, h.starts, h.ends⟩

/-- A trimmed text is part of the text. -/
theorem IsTrimmed.isInfix (h : IsTrimmed text inner) : inner <:+: text := by
  obtain ⟨before, after, htext, -⟩ := h.between
  exact ⟨before, after, htext.symm⟩

/-- Nothing is left to take away. -/
theorem IsTrimmed.trimmed (h : IsTrimmed text inner) : IsTrimmed inner inner where
  between := ⟨[], [], by simp, List.forall_mem_nil _, List.forall_mem_nil _⟩
  starts := h.starts
  ends := h.ends

/-- Nothing is left of a text that is all blank. -/
theorem trimChars_eq_nil_iff : trimChars text = [] ↔ AllBlank text := by
  constructor
  · intro h
    obtain ⟨before, after, htext, hbefore, hafter⟩ := exists_blanks text
    rw [h, List.append_nil] at htext
    rw [htext]
    exact fun c hc => (List.mem_append.1 hc).elim (hbefore c) (hafter c)
  · intro h
    rw [← text.append_nil, trimChars_append_left h]
    rfl

/-! ## Pieces between separators -/

/-- `pieces` are the texts between the occurrences of `separator`, which are looked for from the
left: in front of one that counts, none begins earlier. -/
inductive IsSplit (separator : List Char) : List Char → List (List Char) → Prop where
  | last {piece : List Char} (hnone : ¬separator <:+: piece) : IsSplit separator piece [piece]
  | more {piece rest : List Char} {pieces : List (List Char)}
      (hfirst : ¬separator <:+: piece ++ separator.dropLast)
      (hrest : IsSplit separator rest pieces) :
      IsSplit separator (piece ++ separator ++ rest) (piece :: pieces)

namespace IsSplit

variable {separator : List Char} {piece other : List Char} {pieces others : List (List Char)}

/-- A text has at least one piece. -/
theorem ne_nil (h : IsSplit separator text pieces) : pieces ≠ [] := by
  cases h <;> exact List.cons_ne_nil _ _

/-- The pieces of a text are parts of it. -/
theorem isInfix_of_mem (h : IsSplit separator text pieces) (hpiece : piece ∈ pieces) :
    piece <:+: text := by
  induction h with
  | last => exact List.mem_singleton.1 hpiece ▸ List.infix_rfl
  | @more first rest pieces hfirst hrest ih =>
      rcases List.mem_cons.1 hpiece with rfl | hlater
      · exact ⟨[], separator ++ rest, by simp⟩
      · exact (ih hlater).trans (List.suffix_append _ rest).isInfix

/-- Pieces do not hold the separator. -/
theorem not_isInfix_of_mem (h : IsSplit separator text pieces) (hpiece : piece ∈ pieces) :
    ¬separator <:+: piece := by
  induction h with
  | last hnone => exact List.mem_singleton.1 hpiece ▸ hnone
  | @more first rest pieces hfirst hrest ih =>
      rcases List.mem_cons.1 hpiece with rfl | hlater
      · exact fun hheld => hfirst (hheld.trans (List.prefix_append _ _).isInfix)
      · exact ih hlater

/-- Where no separator begins, a character belongs to the first piece. -/
theorem cons (h : IsSplit separator text (piece :: pieces)) (hc : ¬separator <+: c :: text) :
    IsSplit separator (c :: text) ((c :: piece) :: pieces) := by
  cases h with
  | last hnone => exact .last fun hinfix => (List.infix_cons_iff.1 hinfix).elim hc hnone
  | @more _ rest _ hfirst hrest =>
      have hnone : ¬separator <:+: c :: (piece ++ separator.dropLast) := by
        intro hinfix
        refine (List.infix_cons_iff.1 hinfix).elim (fun hfront => hc (hfront.trans ?_)) hfirst
        -- an occurrence at the front would lie in the first piece and the separator behind it
        refine (List.prefix_cons_inj c).2 (List.IsPrefix.trans ?_ (List.prefix_append _ rest))
        exact (List.prefix_append_right_inj piece).2 (List.dropLast_prefix separator)
      exact @IsSplit.more separator (c :: piece) rest _ hnone hrest

/-- No piece that is followed by a separator ends before one that counts. -/
theorem length_le_of_append_eq {more : List Char} (hseparator : separator ≠ [])
    (hfirst : ¬separator <:+: other ++ separator.dropLast)
    (heq : piece ++ separator ++ rest = other ++ separator ++ more) :
    other.length ≤ piece.length := by
  by_contra hlonger
  have hpiece : piece ++ separator <+: other ++ separator ++ more := ⟨rest, heq⟩
  have hother : other ++ separator.dropLast <+: other ++ separator ++ more :=
    ((List.prefix_append_right_inj other).2 (List.dropLast_prefix separator)).trans
      (List.prefix_append _ more)
  have hlength : (piece ++ separator).length ≤ (other ++ separator.dropLast).length := by
    have hpositive := List.length_pos_iff.2 hseparator
    simp only [List.length_append, List.length_dropLast]
    omega
  obtain ⟨after, hafter⟩ := List.prefix_of_prefix_length_le hpiece hother hlength
  exact hfirst ⟨piece, after, hafter⟩

/-- A text has one list of pieces. -/
theorem unique (hseparator : separator ≠ []) (h : IsSplit separator text pieces)
    (hother : IsSplit separator text others) : pieces = others := by
  induction h generalizing others with
  | @last piece hnone =>
      generalize htext : piece = text at hother
      cases hother with
      | last => rfl
      | @more other rest =>
          exact absurd ⟨other, rest, htext.symm⟩ hnone
  | @more piece rest pieces hfirst hrest ih =>
      generalize htext : piece ++ separator ++ rest = text at hother
      cases hother with
      | last hnone => exact absurd ⟨piece, rest, htext⟩ hnone
      | more hotherFirst hotherRest =>
          have hlength := Nat.le_antisymm (length_le_of_append_eq hseparator hfirst htext.symm)
            (length_le_of_append_eq hseparator hotherFirst htext)
          rw [List.append_assoc, List.append_assoc] at htext
          obtain ⟨rfl, hbehind⟩ := List.append_inj htext hlength
          obtain rfl := List.append_cancel_left hbehind
          rw [ih hotherRest]

end IsSplit

end TrackingPlan.Text
