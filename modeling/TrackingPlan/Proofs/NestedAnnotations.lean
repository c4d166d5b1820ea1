import Mathlib.Data.List.DropRight
import TrackingPlan.Proofs.Alternatives
import TrackingPlan.Proofs.Pieces
import TrackingPlan.Scope.Python

/-!
# Annotations within annotations

An annotation is a name, or a generic type with arguments in brackets, which are annotations again.
`IsWritten` tells the texts of an annotation. The item of a sequence is read up to the first comma,
also where that stands in brackets of its own, so that the rest of the item is lost with the
brackets that it closes: `Opens` tells the texts that are left. `nested_annotations` says exactly
when a sequence is read as an array of its item, and `list_of_pairs_misread` is one that is not. An
optional type is always read as the type in its brackets.
-/

namespace TrackingPlan.Python

open Text (isBlank trimChars trimChars_cons trimChars_concat trimChars_append_left
    trimChars_append_right exists_blanks
  trimChars_trimChars)

variable {c : Char} {cs before after text inner gap : List Char}

/-! ## One reading -/

/-- `headSchema head item inside` is the schema of the type `head`, whose first argument has the
schema `item`, and what is between its brackets, `inside`. -/
def headSchema (head : String) (item inside : Schema) : Schema :=
  match head with
  | "str" => .string
  | "int" | "float" => .number
  | "bool" => .boolean
  | "None" => .null
  | "list" | "List" | "set" | "Set" | "tuple" | "Tuple" | "Sequence" => .array item
  | "dict" | "Dict" | "Mapping" => .object []
  | "Optional" => inside
  | _ => .any

/-- `beforeComma cs` is what stands before the first comma. -/
def beforeComma (cs : List Char) : List Char := cs.takeWhile (· ≠ ',')

/-- `annotationOf cs` is the schema that the annotation `cs` stands for. -/
def annotationOf (cs : List Char) : Schema := annotationSchema (String.ofList cs)

/-- An annotation has the schema of its head, with the item and all that stands inside, one level
less deep. -/
theorem annotationWithin_succ (depth : Nat) (text : List Char) :
    annotationWithin (depth + 1) text =
      headSchema (String.ofList (headAndItem text).1)
        (((headAndItem text).2.map fun item => annotationWithin depth (beforeComma item)).getD .any)
        (((headAndItem text).2.map (annotationWithin depth)).getD .any) := by
  rw [annotationWithin]
  obtain ⟨head, item⟩ := headAndItem text
  cases item <;> rfl

/-- A text does not get longer when it is trimmed. -/
theorem length_trimChars_le (cs : List Char) : (trimChars cs).length ≤ cs.length := by
  obtain ⟨before, after, hcs, -⟩ := exists_blanks cs
  have hlength := congrArg List.length hcs
  simp only [List.length_append] at hlength
  omega

/-- What is between the brackets is shorter than the annotation. -/
theorem length_item_lt {item : List Char} (h : (headAndItem text).2 = some item) :
    item.length < text.length := by
  unfold headAndItem at h
  dsimp only at h
  split at h
  next => cases h
  next bracket rest hrest =>
    split at h
    next =>
      obtain rfl := Option.some.inj h
      have hitem := length_trimChars_le rest.dropLast
      have htrim := length_trimChars_le text
      have hdrop := (List.dropWhile_suffix (l := trimChars text) (· ≠ '[')).length_le
      rw [hrest, List.length_cons] at hdrop
      rw [List.length_dropLast] at hitem
      omega
    next => cases h

/-- More depth than the length of the text does not count. -/
theorem annotationWithin_congr {depth other : Nat} (hdepth : text.length < depth)
    (hother : text.length < other) : annotationWithin depth text = annotationWithin other text := by
  induction depth generalizing text other with
  | zero => cases hdepth
  | succ depth ih =>
      obtain ⟨other, rfl⟩ := Nat.exists_eq_succ_of_ne_zero (Nat.ne_of_gt (Nat.zero_lt_of_lt hother))
      rw [annotationWithin_succ, annotationWithin_succ]
      cases hitem : (headAndItem text).2 with
      | none => rfl
      | some item =>
          have hlength := length_item_lt hitem
          have hcomma := (List.takeWhile_sublist (l := item) (· ≠ ',')).length_le
          simp only [Option.map_some, Option.getD_some]
          have hinside : annotationWithin depth item = annotationWithin other item :=
            ih (by omega) (by omega)
          have hfirst : annotationWithin depth (beforeComma item) =
              annotationWithin other (beforeComma item) :=
            ih (by unfold beforeComma; omega) (by unfold beforeComma; omega)
          rw [hinside, hfirst]

/-- An annotation is read by its head, and what is between its brackets as an annotation again. -/
theorem annotationOf_eq (cs : List Char) : annotationOf cs =
    headSchema (String.ofList (headAndItem cs).1)
      (((headAndItem cs).2.map fun item => annotationOf (beforeComma item)).getD .any)
      (((headAndItem cs).2.map annotationOf).getD .any) := by
  rw [annotationOf, annotationSchema, String.toList_ofList, annotationWithin_succ]
  cases hitem : (headAndItem cs).2 with
  | none => simp only [Option.map_none, Option.getD_none]
  | some item =>
      have hlength := length_item_lt hitem
      have hcomma := (List.takeWhile_sublist (l := item) (· ≠ ',')).length_le
      simp only [Option.map_some, Option.getD_some, annotationOf, annotationSchema,
        String.toList_ofList]
      have hshorter : (beforeComma item).length < cs.length := by unfold beforeComma; omega
      rw [annotationWithin_congr hlength (Nat.lt_succ_self _),
        annotationWithin_congr hshorter (Nat.lt_succ_self _)]

/-- Blanks at the ends do not count. -/
theorem annotationOf_congr {other : List Char} (h : trimChars cs = trimChars other) :
    annotationOf cs = annotationOf other := by
  have hparts : headAndItem cs = headAndItem other := by
    unfold headAndItem
    rw [h]
  rw [annotationOf_eq cs, annotationOf_eq other, hparts]

/-- All of a text without commas stands before the first one. -/
theorem beforeComma_of_not_mem (h : ',' ∉ cs) : beforeComma cs = cs :=
  List.takeWhile_eq_self_iff.2 fun _ hc => decide_eq_true fun hcomma => h (hcomma ▸ hc)

/-- A start without commas stands before the first one. -/
theorem beforeComma_append_of_not_mem (h : ',' ∉ before) (cs : List Char) :
    beforeComma (before ++ cs) = before ++ beforeComma cs :=
  List.takeWhile_append_of_pos fun _ hc => decide_eq_true fun hcomma => h (hcomma ▸ hc)

/-- What follows a comma does not count for what stands before the first one. -/
theorem beforeComma_append_of_mem (h : ',' ∈ cs) (after : List Char) :
    beforeComma (cs ++ after) = beforeComma cs := by
  rw [beforeComma, List.takeWhile_append, if_neg]
  · rfl
  · intro hlength
    have hself : cs.takeWhile (· ≠ ',') = cs := (List.takeWhile_prefix _).eq_of_length hlength
    have hcomma := List.takeWhile_eq_self_iff.1 hself ',' h
    simp at hcomma

/-- What stands before the first comma stands before the one that follows it. -/
theorem beforeComma_append_comma (cs others : List Char) :
    beforeComma (cs ++ ',' :: others) = beforeComma cs := by
  by_cases hcomma : ',' ∈ cs
  · exact beforeComma_append_of_mem hcomma _
  · rw [beforeComma_append_of_not_mem hcomma, beforeComma_of_not_mem hcomma, beforeComma,
      List.takeWhile_cons_of_neg (by decide), List.append_nil]

/-- There is no comma among blanks. -/
theorem not_mem_of_blank (h : ∀ c ∈ cs, isBlank c = true) : ',' ∉ cs := by
  intro hmem
  have hcomma := h ',' hmem
  revert hcomma
  decide

/-- Blanks around a text do not change the annotation before its first comma. -/
theorem annotationOf_beforeComma_trimChars (cs : List Char) :
    annotationOf (beforeComma (trimChars cs)) = annotationOf (beforeComma cs) := by
  obtain ⟨before, after, hcs, hbefore, hafter⟩ := exists_blanks cs
  have hblank : ∀ c ∈ beforeComma after, isBlank c = true := fun c hc =>
    hafter c ((List.takeWhile_sublist _).mem hc)
  conv_rhs => rw [hcs, List.append_assoc, beforeComma_append_of_not_mem (not_mem_of_blank hbefore)]
  refine annotationOf_congr ?_
  rw [trimChars_append_left hbefore]
  by_cases hcomma : ',' ∈ trimChars cs
  · rw [beforeComma_append_of_mem hcomma]
  · rw [beforeComma_append_of_not_mem hcomma, trimChars_append_right hblank,
      beforeComma_of_not_mem hcomma]

/-! ## Words and brackets -/

/-- Names of types: texts without blanks, brackets and commas. -/
structure IsWord (word : List Char) : Prop where
  ne_nil : word ≠ []
  plain : ∀ c ∈ word, isBlank c = false ∧ c ≠ '[' ∧ c ≠ ']' ∧ c ≠ ','

instance (word : List Char) : Decidable (IsWord word) :=
  decidable_of_iff
    (word ≠ [] ∧ (word.all fun c => isBlank c = false ∧ c ≠ '[' ∧ c ≠ ']' ∧ c ≠ ',') = true)
    ⟨fun h => ⟨h.1, fun c hc => of_decide_eq_true (List.all_eq_true.1 h.2 c hc)⟩,
      fun h => ⟨h.ne_nil, List.all_eq_true.2 fun c hc => decide_eq_true (h.plain c hc)⟩⟩

variable {word head : List Char}

/-- There is no comma in a word. -/
theorem IsWord.not_mem_comma (h : IsWord word) : ',' ∉ word :=
  fun hmem => (h.plain ',' hmem).2.2.2 rfl

/-- What ends in a character that is no blank keeps it. -/
theorem rdropWhile_append_cons (h : isBlank c = false) (before after : List Char) :
    (before ++ c :: after).rdropWhile isBlank = before ++ c :: after.rdropWhile isBlank := by
  induction after using List.reverseRecOn with
  | nil =>
      rw [List.rdropWhile_concat_neg _ _ _ (by simp [h]), List.rdropWhile_nil]
  | append_singleton rest last ih =>
      rw [← List.cons_append, ← List.append_assoc]
      cases hlast : isBlank last with
      | true =>
          rw [List.rdropWhile_concat_pos _ _ _ hlast, List.rdropWhile_concat_pos _ _ _ hlast, ih]
      | false =>
          rw [List.rdropWhile_concat_neg _ _ _ (by simp [hlast]),
            List.rdropWhile_concat_neg _ _ _ (by simp [hlast])]
          simp

/-- A text that starts with a word is trimmed at its end only. -/
theorem IsWord.trimChars_append (h : IsWord word) (cs : List Char) :
    trimChars (word ++ cs) = (word ++ cs).rdropWhile isBlank := by
  obtain ⟨c, rest, rfl⟩ := List.exists_cons_of_ne_nil h.ne_nil
  have hfirst := (h.plain c List.mem_cons_self).1
  rw [trimChars, List.cons_append, List.dropWhile_cons_of_neg (by simp [hfirst])]
  rfl

/-- A word is trimmed already. -/
theorem IsWord.trimChars_eq (h : IsWord word) : trimChars word = word := by
  have htrim := h.trimChars_append []
  obtain ⟨before, last, hword⟩ := List.eq_nil_or_concat' word |>.resolve_left h.ne_nil
  have hlast := (h.plain last (by simp [hword])).1
  rw [List.append_nil, hword, List.rdropWhile_concat_neg _ _ _ (by simp [hlast]), ← hword] at htrim
  exact htrim

/-- A word is read as a head without anything in brackets. -/
theorem IsWord.headAndItem_eq (h : IsWord word) : headAndItem word = (word, none) := by
  have hnone : word.dropWhile (· ≠ '[') = [] :=
    List.dropWhile_eq_nil_iff.2 fun c hc => decide_eq_true (h.plain c hc).2.1
  simp only [headAndItem, h.trimChars_eq, hnone]

/-- A word before a bracket is the head, and what follows is the item if a bracket is at its end. -/
theorem headAndItem_bracket (hhead : IsWord head) (hgap : ∀ c ∈ gap, isBlank c = true)
    (inner : List Char) : headAndItem (head ++ gap ++ '[' :: inner) =
      (head, if (inner.rdropWhile isBlank).getLast? = some ']' then
        some (trimChars (inner.rdropWhile isBlank).dropLast) else none) := by
  have htrim : trimChars (head ++ gap ++ '[' :: inner) =
      head ++ gap ++ '[' :: inner.rdropWhile isBlank := by
    rw [List.append_assoc, hhead.trimChars_append, ← List.append_assoc,
      rdropWhile_append_cons (by decide)]
  have hbefore : ∀ c ∈ head ++ gap, decide (c ≠ '[') = true := by
    intro c hc
    rcases List.mem_append.1 hc with hc | hc
    · exact decide_eq_true (hhead.plain c hc).2.1
    · refine decide_eq_true fun hbracket => ?_
      have hblank := hgap c hc
      rw [hbracket] at hblank
      revert hblank
      decide
  have hdrop : (head ++ gap ++ '[' :: inner.rdropWhile isBlank).dropWhile (· ≠ '[') =
      '[' :: inner.rdropWhile isBlank := by
    rw [List.dropWhile_append_of_pos hbefore, List.dropWhile_cons_of_neg (by decide)]
  have htake :
      (head ++ gap ++ '[' :: inner.rdropWhile isBlank).takeWhile (· ≠ '[') = head ++ gap := by
    rw [List.takeWhile_append_of_pos hbefore, List.takeWhile_cons_of_neg (by decide),
      List.append_nil]
  simp only [headAndItem, htrim, hdrop, htake, trimChars_append_right hgap, hhead.trimChars_eq]

/-- A generic type with brackets around its arguments is read by the first argument. -/
theorem annotationOf_closed (hhead : IsWord head) (hgap : ∀ c ∈ gap, isBlank c = true)
    (inner : List Char) : annotationOf (head ++ gap ++ '[' :: (inner ++ [']'])) =
      headSchema (String.ofList head) (annotationOf (beforeComma inner)) (annotationOf inner) := by
  have hclosed : (inner ++ [']']).rdropWhile isBlank = inner ++ [']'] :=
    List.rdropWhile_concat_neg _ _ _ (by decide)
  have hparts := headAndItem_bracket hhead hgap (inner ++ [']'])
  rw [hclosed, List.getLast?_concat, if_pos rfl, List.dropLast_concat] at hparts
  rw [annotationOf_eq, hparts]
  simp only [Option.map_some, Option.getD_some]
  rw [annotationOf_beforeComma_trimChars, annotationOf_congr (trimChars_trimChars inner)]

/-- A generic type whose bracket is not closed is read as if it had none. -/
theorem annotationOf_open (hhead : IsWord head) (hgap : ∀ c ∈ gap, isBlank c = true)
    (hopen : (inner.rdropWhile isBlank).getLast? ≠ some ']') :
    annotationOf (head ++ gap ++ '[' :: inner) = headSchema (String.ofList head) .any .any := by
  rw [annotationOf_eq, headAndItem_bracket hhead hgap, if_neg hopen]
  simp only [Option.map_none, Option.getD_none]

/-- A word is an annotation with its own schema. -/
theorem annotationOf_word (h : IsWord word) :
    annotationOf word = headSchema (String.ofList word) .any .any := by
  rw [annotationOf_eq, h.headAndItem_eq]
  simp only [Option.map_none, Option.getD_none]

/-! ## Annotations -/

/-- A type as an annotation writes it. -/
inductive Annotation where
  /-- A name by itself. -/
  | name (word : String)
  /-- A name with a first argument and further ones. -/
  | generic (head : String) (first : Annotation) (rest : List Annotation)

namespace Annotation

/-- `hasComma a` holds when `a` cannot be written without a comma before the end of its first
argument. -/
def hasComma : Annotation → Bool
  | name _ => false
  | generic _ first rest => !rest.isEmpty || first.hasComma

/-- `closings a` counts the brackets that `a` closes before its first comma. -/
def closings : Annotation → Nat
  | name _ => 0
  | generic _ first rest =>
    if !rest.isEmpty || first.hasComma then first.closings else first.closings + 1

/-- `readTo levels a` is the schema of `a` when only that many of its brackets count, the outer ones
first. -/
def readTo : (levels : Nat) → Annotation → Schema
  | _, name word => headSchema word .any .any
  | 0, generic head _ _ => headSchema head .any .any
  | levels + 1, generic head first _ => headSchema head (readTo levels first) (readTo levels first)

/-- `read a` is the schema that `a` is read as: of a first argument with a comma only as many
brackets count as are closed before the comma. -/
def read : Annotation → Schema
  | name word => headSchema word .any .any
  | generic head first _ => headSchema head (first.readTo first.closings) first.read

/-- `isFit a` holds when no optional type among the first arguments in `a` has a second argument. -/
def isFit : Annotation → Bool
  | name _ => true
  | generic head first rest => (head ≠ "Optional" || rest.isEmpty) && first.isFit

end Annotation

open Annotation (name generic hasComma closings)

mutual
/-- `IsWritten a text` says that `text` writes `a` out, with blanks between its parts. -/
inductive IsWritten : Annotation → List Char → Prop where
  | name {word : String} : IsWord word.toList → IsWritten (.name word) word.toList
  | generic {head : String} {first : Annotation} {rest : List Annotation} {gap inner : List Char} :
      IsWord head.toList → (∀ c ∈ gap, isBlank c = true) → AreWritten first rest inner →
      IsWritten (.generic head first rest) (head.toList ++ gap ++ '[' :: (inner ++ [']']))
  | before {a : Annotation} {c : Char} {text : List Char} :
      isBlank c = true → IsWritten a text → IsWritten a (c :: text)
  | after {a : Annotation} {c : Char} {text : List Char} :
      isBlank c = true → IsWritten a text → IsWritten a (text ++ [c])

/-- `AreWritten first rest text` says that `text` writes out all arguments with commas between
them. -/
inductive AreWritten : Annotation → List Annotation → List Char → Prop where
  | last {a : Annotation} {text : List Char} : IsWritten a text → AreWritten a [] text
  | more {a b : Annotation} {rest : List Annotation} {text others : List Char} :
      IsWritten a text → AreWritten b rest others → AreWritten a (b :: rest) (text ++ ',' :: others)
end

/-- `Opens a n text` says that `text` writes out the first arguments in `a` down to a name, each
behind the bracket that it stands in, and that it closes `n` of these brackets. -/
inductive Opens : Annotation → Nat → List Char → Prop where
  | name {word : String} : IsWord word.toList → Opens (.name word) 0 word.toList
  | left {head : String} {first : Annotation} {rest : List Annotation} {gap inner : List Char} :
      IsWord head.toList → (∀ c ∈ gap, isBlank c = true) → Opens first 0 inner →
      Opens (.generic head first rest) 0 (head.toList ++ gap ++ '[' :: inner)
  | closed {head : String} {first : Annotation} {rest : List Annotation} {n : Nat}
      {gap inner : List Char} :
      IsWord head.toList → (∀ c ∈ gap, isBlank c = true) → Opens first n inner →
      Opens (.generic head first rest) (n + 1) (head.toList ++ gap ++ '[' :: (inner ++ [']']))
  | before {a : Annotation} {n : Nat} {c : Char} {text : List Char} :
      isBlank c = true → Opens a n text → Opens a n (c :: text)
  | after {a : Annotation} {n : Nat} {c : Char} {text : List Char} :
      isBlank c = true → Opens a n text → Opens a n (text ++ [c])

variable {a first : Annotation} {rest : List Annotation} {n : Nat}

/-! ## Texts that are broken off -/

/-- No blank is a comma. -/
theorem ne_comma_of_isBlank (h : isBlank c = true) : ',' ≠ c := by
  rintro rfl
  revert h
  decide

/-- There is no comma in what an annotation opens with. -/
theorem Opens.not_mem_comma (h : Opens a n text) : ',' ∉ text := by
  induction h with
  | name hword => exact hword.not_mem_comma
  | left hhead hgap _ ih => simp [hhead.not_mem_comma, not_mem_of_blank hgap, ih]
  | closed hhead hgap _ ih => simp [hhead.not_mem_comma, not_mem_of_blank hgap, ih]
  | before hc _ ih => simp [ne_comma_of_isBlank hc, ih]
  | after hc _ ih => simp [ne_comma_of_isBlank hc, ih]

/-- Blanks behind do not change what an annotation opens with. -/
theorem Opens.append_blanks (h : Opens a n text) (hafter : ∀ c ∈ after, isBlank c = true) :
    Opens a n (text ++ after) := by
  induction after using List.reverseRecOn with
  | nil => rwa [List.append_nil]
  | append_singleton rest c ih =>
      rw [← List.append_assoc]
      exact .after (hafter c (by simp)) (ih fun c hc => hafter c (by simp [hc]))

/-- A text that closes no bracket does not end in one. -/
theorem Opens.getLast?_ne (h : Opens a 0 text) : (text.rdropWhile isBlank).getLast? ≠ some ']' := by
  -- the number of brackets is an index of `Opens`, so the induction needs a variable for it
  generalize hn : 0 = n at h
  induction h with
  | name hword =>
      have hself : List.rdropWhile isBlank _ = _ := hword.trimChars_append [] |>.symm
      rw [List.append_nil, hword.trimChars_eq] at hself
      rw [hself]
      intro hlast
      exact (hword.plain ']' (List.mem_of_getLast? hlast)).2.2.1 rfl
  | left hhead hgap _ ih =>
      rw [rdropWhile_append_cons (by decide)]
      cases hinner : List.rdropWhile isBlank _ with
      | nil => simp
      | cons c rest =>
          rw [List.getLast?_append_of_ne_nil _ (by simp), List.getLast?_cons_cons, ← hinner]
          exact ih hn
  | closed => cases hn
  | before hc _ ih =>
      rw [Schema.rdropWhile_cons]
      split
      next => simp [List.rdropWhile, hc]
      next hne =>
        obtain ⟨c, rest, hcons⟩ := List.exists_cons_of_ne_nil hne
        rw [hcons, List.getLast?_cons_cons, ← hcons]
        exact ih hn
  | after hc _ ih =>
      rw [List.rdropWhile_concat_pos _ _ _ hc]
      exact ih hn

/-- Such a text is read as far as its brackets are closed. -/
theorem Opens.annotationOf_eq (h : Opens a n text) : annotationOf text = a.readTo n := by
  induction h with
  | name hword =>
      rw [annotationOf_word hword, String.ofList_toList]
      rfl
  | left hhead hgap hinner ih =>
      rw [annotationOf_open hhead hgap hinner.getLast?_ne, String.ofList_toList]
      rfl
  | closed hhead hgap hinner ih =>
      rw [annotationOf_closed hhead hgap, beforeComma_of_not_mem hinner.not_mem_comma, ih,
        String.ofList_toList]
      rfl
  | before hc _ ih => rw [annotationOf_congr (trimChars_cons hc _), ih]
  | after hc _ ih => rw [annotationOf_congr (trimChars_concat hc _), ih]

/-- A bracket at the end of the first argument can close the bracket in front of it instead of its
own. -/
theorem Opens.around {head : String} (hhead : IsWord head.toList)
    (hgap : ∀ c ∈ gap, isBlank c = true) (h : Opens first n inner)
    (hlast : ∀ m, n = m + 1 → ∃ shorter after, inner = shorter ++ ']' :: after ∧
      (∀ c ∈ after, isBlank c = true) ∧ Opens first m shorter) :
    Opens (.generic head first rest) n (head.toList ++ gap ++ '[' :: inner) := by
  cases n with
  | zero => exact .left hhead hgap h
  | succ m =>
      obtain ⟨shorter, after, rfl, hafter, hshorter⟩ := hlast m rfl
      have hclosed : Opens (.generic head first rest) (m + 1)
          (head.toList ++ gap ++ '[' :: (shorter ++ [']']) ++ after) :=
        (Opens.closed hhead hgap hshorter).append_blanks hafter
      simpa using hclosed

/-- Without its last bracket a text closes one bracket less. -/
theorem Opens.exists_last (h : Opens a (n + 1) text) :
    ∃ shorter after, text = shorter ++ ']' :: after ∧
    (∀ c ∈ after, isBlank c = true) ∧ Opens a n shorter := by
  generalize hm : n + 1 = m at h
  induction h generalizing n with
  | name => cases hm
  | left => cases hm
  | @closed head first rest k gap inner hhead hgap hinner ih =>
      obtain rfl := Nat.succ.inj hm
      refine ⟨head.toList ++ gap ++ '[' :: inner, [], by simp, by simp, ?_⟩
      exact .around hhead hgap hinner fun m hk => ih hk.symm
  | @before a m c text hc _ ih =>
      obtain ⟨shorter, after, rfl, hafter, hshorter⟩ := ih hm
      exact ⟨c :: shorter, after, rfl, hafter, .before hc hshorter⟩
  | @after a m c text hc _ ih =>
      obtain ⟨shorter, after, rfl, hafter, hshorter⟩ := ih hm
      refine ⟨shorter, after ++ [c], by simp, fun d hd => ?_, hshorter⟩
      rcases List.mem_append.1 hd with hd | hd
      · exact hafter d hd
      · exact List.mem_singleton.1 hd ▸ hc

/-! ## Texts that are written out -/

/-- The first argument is written out, and what follows it starts with a comma. -/
theorem AreWritten.exists_first (h : AreWritten first rest text) : ∃ written more,
    IsWritten first written ∧ text = written ++ more ∧
      (rest = [] ∧ more = [] ∨ rest ≠ [] ∧ ∃ others, more = ',' :: others) := by
  cases h with
  | last hwritten => exact ⟨text, [], hwritten, (List.append_nil text).symm, .inl ⟨rfl, rfl⟩⟩
  | @more _ b rest written others hwritten _ =>
      exact ⟨written, ',' :: others, hwritten, rfl, .inr ⟨List.cons_ne_nil b rest, others, rfl⟩⟩

/-- Induction over how an annotation is written, by its first argument and by what has blanks around
it. -/
@[elab_as_elim]
theorem IsWritten.induction {motive : ∀ a text, IsWritten a text → Prop}
    (name : ∀ {word : String} (hword : IsWord word.toList), motive _ _ (.name hword))
    (generic : ∀ {head : String} {first : Annotation} {rest : List Annotation} {gap written
      more : List Char}
      (hhead : IsWord head.toList) (hgap : ∀ c ∈ gap, isBlank c = true)
      (harguments : AreWritten first rest (written ++ more)) (hwritten : IsWritten first written),
      (rest = [] ∧ more = [] ∨ rest ≠ [] ∧ ∃ others, more = ',' :: others) →
      motive _ _ hwritten → motive _ _ (.generic hhead hgap harguments))
    (before : ∀ {a : Annotation} {c : Char} {text : List Char} (hc : isBlank c = true)
      (hwritten : IsWritten a text), motive _ _ hwritten → motive _ _ (.before hc hwritten))
    (after : ∀ {a : Annotation} {c : Char} {text : List Char} (hc : isBlank c = true)
      (hwritten : IsWritten a text), motive _ _ hwritten → motive _ _ (.after hc hwritten))
    {a : Annotation} {text : List Char} (h : IsWritten a text) : motive a text h := by
  -- every part is shorter than what it is a part of
  induction hlength : text.length using Nat.strongRecOn generalizing a text with
  | ind length ih =>
      subst hlength
      cases h with
      | name hword => exact name hword
      | generic hhead hgap harguments =>
          obtain ⟨written, more, hwritten, rfl, hmore⟩ := harguments.exists_first
          refine generic hhead hgap harguments hwritten hmore (ih written.length ?_ hwritten rfl)
          simp only [List.length_append, List.length_cons]
          omega
      | before hc hwritten =>
          exact before hc hwritten (ih _ (Nat.lt_succ_self _) hwritten rfl)
      | after hc hwritten =>
          refine after hc hwritten (ih _ ?_ hwritten rfl)
          rw [List.length_append]
          exact Nat.lt_succ_self _

/-- The commas of an annotation stand between arguments. -/
theorem IsWritten.mem_comma_iff (h : IsWritten a text) : ',' ∈ text ↔ a.hasComma = true := by
  induction h using IsWritten.induction with
  | name hword => simp [hasComma, hword.not_mem_comma]
  | generic hhead hgap _ _ hmore ih =>
      rcases hmore with ⟨rfl, rfl⟩ | ⟨hrest, others, rfl⟩
      · simp [hasComma, hhead.not_mem_comma, not_mem_of_blank hgap, ih]
      · simp [hasComma, hrest]
  | before hc _ ih => simp [ne_comma_of_isBlank hc, ih]
  | after hc _ ih => simp [ne_comma_of_isBlank hc, ih]

/-- What stands before the first comma of an annotation closes the brackets that the annotation
closes there. -/
theorem IsWritten.opens (h : IsWritten a text) : Opens a a.closings (beforeComma text) := by
  induction h using IsWritten.induction with
  | name hword =>
      rw [beforeComma_of_not_mem hword.not_mem_comma]
      exact .name hword
  | @generic head first rest gap written more hhead hgap _ hwritten hmore hfirst =>
      have hcomma := hwritten.mem_comma_iff
      have hopening : ',' ∉ head.toList ++ gap ++ ['['] := by
        simp [hhead.not_mem_comma, not_mem_of_blank hgap]
      have hsplit (cs : List Char) :
          head.toList ++ gap ++ '[' :: cs = head.toList ++ gap ++ ['['] ++ cs := by
        simp
      rw [hsplit, beforeComma_append_of_not_mem hopening, ← hsplit, List.append_assoc written]
      have haround : Opens (.generic head first rest) first.closings
          (head.toList ++ gap ++ '[' :: beforeComma written) :=
        hfirst.around hhead hgap fun m hm => (hm ▸ hfirst).exists_last
      by_cases hmem : ',' ∈ written
      · -- the brackets that are closed before the comma are too few by one
        rw [beforeComma_append_of_mem hmem, closings, if_pos (by simp [hcomma.1 hmem])]
        exact haround
      · rw [beforeComma_append_of_not_mem hmem]
        rw [beforeComma_of_not_mem hmem] at hfirst haround
        rcases hmore with ⟨rfl, rfl⟩ | ⟨hrest, others, rfl⟩
        · rw [closings, if_neg (by simpa using fun h => hmem (hcomma.2 h))]
          exact .closed hhead hgap hfirst
        · rw [closings, if_pos (by simp [hrest])]
          simpa [beforeComma] using haround
  | @before a c text hc _ ih =>
      rw [beforeComma, List.takeWhile_cons_of_pos (by simp [(ne_comma_of_isBlank hc).symm])]
      exact .before hc ih
  | @after a c text hc _ ih =>
      by_cases hcomma : ',' ∈ text
      · rwa [beforeComma_append_of_mem hcomma]
      · have hnone : ',' ∉ text ++ [c] := by simp [hcomma, ne_comma_of_isBlank hc]
        rw [beforeComma_of_not_mem hcomma] at ih
        rw [beforeComma_of_not_mem hnone]
        exact .after hc ih

/-- Of a list of annotations, what stands before the first comma opens the first one. -/
theorem AreWritten.opens (h : AreWritten first rest text) :
    Opens first first.closings (beforeComma text) := by
  obtain ⟨written, more, hwritten, rfl, ⟨-, rfl⟩ | ⟨-, others, rfl⟩⟩ := h.exists_first
  · rw [List.append_nil]
    exact hwritten.opens
  · rw [beforeComma_append_comma]
    exact hwritten.opens

/-- The item counts for optional values only, and not what else stands inside. -/
theorem headSchema_congr {head : String} (h : head ≠ "Optional") (item inside other : Schema) :
    headSchema head item inside = headSchema head item other := by
  unfold headSchema
  split <;> first | rfl | exact absurd rfl h

/-- An annotation is read alike however it is written. -/
theorem IsWritten.annotationOf_eq (h : IsWritten a text) (hfit : a.isFit = true) :
    annotationOf text = a.read := by
  induction h using IsWritten.induction with
  | name hword =>
      rw [annotationOf_word hword, String.ofList_toList]
      rfl
  | @generic head first rest gap written more hhead hgap harguments _ hmore ih =>
      obtain ⟨hone, hfirst⟩ := Bool.and_eq_true_iff.1 hfit
      rw [annotationOf_closed hhead hgap, harguments.opens.annotationOf_eq, String.ofList_toList]
      by_cases hoptional : head = "Optional"
      · rcases hmore with ⟨-, rfl⟩ | ⟨hrest, -⟩
        · rw [List.append_nil, ih hfirst, Annotation.read]
        · simp [hoptional, hrest] at hone
      · exact headSchema_congr hoptional _ _ _
  | before hc _ ih => rw [annotationOf_congr (trimChars_cons hc _), ih hfit]
  | after hc _ ih => rw [annotationOf_congr (trimChars_concat hc _), ih hfit]

/-- What is between the brackets of an optional type is read by itself. -/
theorem annotationSchema_optional (text : String) :
    annotationSchema ("Optional[" ++ text ++ "]") = annotationSchema text := by
  have hhead : IsWord "Optional".toList := by decide
  have hgap : ∀ c ∈ ([] : List Char), isBlank c = true := fun _ hc => absurd hc List.not_mem_nil
  have hread := annotationOf_closed hhead hgap text.toList
  have htext : "Optional".toList ++ [] ++ '[' :: (text.toList ++ [']']) =
      ("Optional[" ++ text ++ "]").toList := by
    simp
  simp only [htext, annotationOf, String.ofList_toList] at hread
  rw [hread]
  simp [headSchema]

/-! ## Sequences and optional types -/

/-- The names of types whose values are items of one type. -/
def sequenceNames : List String := ["list", "List", "set", "Set", "tuple", "Tuple", "Sequence"]

/-- The names of types whose values have fields. -/
def mappingNames : List String := ["dict", "Dict", "Mapping"]

/-- Sequences are arrays of their item. -/
theorem headSchema_sequence {head : String} (h : head ∈ sequenceNames) (item inside : Schema) :
    headSchema head item inside = .array item := by
  simp only [sequenceNames, List.mem_cons, List.not_mem_nil, or_false] at h
  rcases h with rfl | rfl | rfl | rfl | rfl | rfl | rfl <;> simp [headSchema]

/-- Mappings are objects without fields. -/
theorem headSchema_mapping {head : String} (h : head ∈ mappingNames) (item inside : Schema) :
    headSchema head item inside = .object [] := by
  simp only [mappingNames, List.mem_cons, List.not_mem_nil, or_false] at h
  rcases h with rfl | rfl | rfl <;> simp [headSchema]

/-- Without a comma no optional type has a second argument. -/
theorem Annotation.isFit_of_no_comma (a : Annotation) (h : a.hasComma = false) :
    a.isFit = true := by
  cases a with
  | name word => rfl
  | generic head first rest =>
      obtain ⟨hrest, hfirst⟩ := Bool.or_eq_false_iff.1 h
      rw [isFit, first.isFit_of_no_comma hfirst]
      simpa using .inr (by simpa using hrest)

/-- Without a comma no bracket is lost. -/
theorem Annotation.readTo_of_no_comma (a : Annotation) (h : a.hasComma = false) :
    a.readTo a.closings = a.read := by
  cases a with
  | name word => rfl
  | generic head first rest =>
      have hfirst : first.hasComma = false := (Bool.or_eq_false_iff.1 h).2
      rw [closings, if_neg (by rwa [Bool.not_eq_true]), readTo, read,
        first.readTo_of_no_comma hfirst]

/-- Nothing is read between the brackets of a mapping. -/
theorem Annotation.readTo_of_mapping {head : String} (h : head ∈ mappingNames) (first : Annotation)
    (rest : List Annotation) (levels : Nat) :
    (generic head first rest).readTo levels = .object [] := by
  cases levels with
  | zero => exact headSchema_mapping h _ _
  | succ levels => exact headSchema_mapping h _ _

/-- What is read of an annotation with arguments depends on its head, and on the first argument as
far as that closes its brackets before its first comma. -/
theorem IsWritten.annotationOf_generic {head : String}
    (h : IsWritten (.generic head first rest) text) :
    ∃ inside, annotationOf text = headSchema head (first.readTo first.closings) inside := by
  generalize hgeneric : Annotation.generic head first rest = a at h
  induction h using IsWritten.induction with
  | name => cases hgeneric
  | @generic _ _ _ _ written more hhead hgap harguments =>
      cases hgeneric
      refine ⟨annotationOf (written ++ more), ?_⟩
      rw [annotationOf_closed hhead hgap, harguments.opens.annotationOf_eq, String.ofList_toList]
  | before hc _ ih =>
      rw [annotationOf_congr (trimChars_cons hc _)]
      exact ih hgeneric
  | after hc _ ih =>
      rw [annotationOf_congr (trimChars_concat hc _)]
      exact ih hgeneric

/-- A mapping that is written out is an object without fields. -/
theorem IsWritten.annotationOf_mapping {head : String} (hhead : head ∈ mappingNames)
    (h : IsWritten (.generic head first rest) text) : annotationOf text = .object [] := by
  obtain ⟨inside, hread⟩ := h.annotationOf_generic
  rw [hread, headSchema_mapping hhead]

/-- A sequence is read as an array of its item, as far as that closes its brackets before its first
comma. -/
theorem IsWritten.annotationOf_sequence {head : String} (hhead : head ∈ sequenceNames)
    (h : IsWritten (.generic head first rest) text) :
    annotationOf text = .array (first.readTo first.closings) := by
  obtain ⟨inside, hread⟩ := h.annotationOf_generic
  rw [hread, headSchema_sequence hhead]

/-- What is in the brackets of an optional type is read by itself. A sequence is read as an array of
its item, as far as the item closes its brackets before its first comma. So it is read as an array
of what the item is read as by itself exactly if that is the same, as it is for items without
commas, however deep they are nested, and for mappings. -/
theorem nested_annotations {a : Annotation} {text : String} (h : IsWritten a text.toList) :
    annotationSchema ("Optional[" ++ text ++ "]") = annotationSchema text ∧
    (a.isFit = true → annotationSchema text = a.read) ∧
    ∀ head ∈ sequenceNames, ∀ (rest : List Annotation) (whole : String),
      IsWritten (.generic head a rest) whole.toList →
        annotationSchema whole = .array (a.readTo a.closings) ∧
        (annotationSchema whole = .array (annotationSchema text) ↔
          a.readTo a.closings = annotationSchema text) ∧
        (a.hasComma = false → annotationSchema whole = .array (annotationSchema text)) ∧
        ∀ mapping ∈ mappingNames, ∀ (first : Annotation) (more : List Annotation),
          a = .generic mapping first more → annotationSchema whole =
            .array (annotationSchema text) := by
  have hchars (written : String) : annotationSchema written = annotationOf written.toList := by
    rw [annotationOf, String.ofList_toList]
  refine ⟨annotationSchema_optional text, fun hfit => ?_, fun head hhead rest whole hwhole => ?_⟩
  · rw [hchars, h.annotationOf_eq hfit]
  · have harray : annotationSchema whole = .array (a.readTo a.closings) := by
      rw [hchars, hwhole.annotationOf_sequence hhead]
    have hiff : annotationSchema whole = .array (annotationSchema text) ↔
        a.readTo a.closings = annotationSchema text := by
      rw [harray, Schema.array.injEq]
    refine ⟨harray, hiff, fun hcomma => hiff.2 ?_, ?_⟩
    · rw [hchars, h.annotationOf_eq (a.isFit_of_no_comma hcomma), a.readTo_of_no_comma hcomma]
    · rintro mapping hmapping first more rfl
      rw [hiff, hchars, h.annotationOf_mapping hmapping, Annotation.readTo_of_mapping hmapping]

/-! ## Two arguments in brackets -/

/-- `typeOfTwo head` has the arguments `str` and `int`. -/
def typeOfTwo (head : String) : Annotation := .generic head (.name "str") [.name "int"]

/-- A type of two others is written with a comma between them. -/
theorem isWritten_typeOfTwo {head : String} (h : IsWord head.toList) :
    IsWritten (typeOfTwo head) (head ++ "[str, int]").toList := by
  have hstr : IsWritten (.name "str") "str".toList := .name (by decide)
  have hint : IsWritten (.name "int") "int".toList := .name (by decide)
  have hwritten :
      IsWritten (typeOfTwo head) (head.toList ++ [] ++ '[' :: ("str, int".toList ++ [']'])) :=
    .generic h (fun _ hc => absurd hc List.not_mem_nil) (.more hstr (.last (.before rfl hint)))
  simpa using hwritten

/-- A type around another is written with brackets around it. -/
theorem isWritten_around {head written : String} (h : IsWord head.toList)
    (hwritten : IsWritten a written.toList) :
    IsWritten (.generic head a []) (head ++ "[" ++ written ++ "]").toList := by
  have hall :
      IsWritten (.generic head a []) (head.toList ++ [] ++ '[' :: (written.toList ++ [']'])) :=
    .generic h (fun _ hc => absurd hc List.not_mem_nil) (.last hwritten)
  simpa using hall

/-- A list of mappings is read as an array of their schema, although they are written with a
comma. -/
theorem nested_annotations_of_mappings :
    IsWritten (typeOfTwo "dict") "dict[str, int]".toList ∧
      IsWritten (.generic "list" (typeOfTwo "dict") []) "list[dict[str, int]]".toList ∧
      (typeOfTwo "dict").isFit = true ∧ (typeOfTwo "dict").hasComma = true ∧
      annotationSchema "dict[str, int]" = .object [] ∧
      annotationSchema "Optional[dict[str, int]]" = annotationSchema "dict[str, int]" ∧
      annotationSchema "list[dict[str, int]]" = .array (annotationSchema "dict[str, int]") := by
  have hwritten : IsWritten (typeOfTwo "dict") "dict[str, int]".toList :=
    isWritten_typeOfTwo (by decide)
  have hwhole : IsWritten (.generic "list" (typeOfTwo "dict") []) "list[dict[str, int]]".toList :=
    isWritten_around (by decide) hwritten
  have hfit : (typeOfTwo "dict").isFit = true := by simp [typeOfTwo, Annotation.isFit]
  have hmapping : (typeOfTwo "dict").read = .object [] := headSchema_mapping (by decide) _ _
  obtain ⟨hoptional, hread, hsequence⟩ := nested_annotations hwritten
  refine ⟨hwritten, hwhole, hfit, rfl, (hread hfit).trans hmapping, hoptional, ?_⟩
  exact (hsequence "list" (by decide) [] _ hwhole).2.2.2 "dict" (by decide) _ _ rfl

/-- Of a list of pairs only the first bracket is closed before the comma, so that the pairs have
items of which nothing is known. By itself a pair is read as an array of its first type. -/
theorem list_of_pairs_misread :
    IsWritten (typeOfTwo "tuple") "tuple[str, int]".toList ∧
      IsWritten (.generic "list" (typeOfTwo "tuple") []) "list[tuple[str, int]]".toList ∧
      annotationSchema "tuple[str, int]" = .array .string ∧
      annotationSchema "list[tuple[str, int]]" = .array (.array .any) ∧
      annotationSchema "list[tuple[str, int]]" ≠ .array (annotationSchema "tuple[str, int]") := by
  have hwritten : IsWritten (typeOfTwo "tuple") "tuple[str, int]".toList :=
    isWritten_typeOfTwo (by decide)
  have hwhole : IsWritten (.generic "list" (typeOfTwo "tuple") []) "list[tuple[str, int]]".toList :=
    isWritten_around (by decide) hwritten
  exact ⟨hwritten, hwhole, by decide +kernel, by decide +kernel, by decide +kernel⟩

end TrackingPlan.Python
