import Mathlib.Data.List.Basic
import Mathlib.Data.List.TakeWhile
import TrackingPlan.Project.TypeNames
import TrackingPlan.Proofs.Pieces

/-!
# Lines that seem to declare types

`Declares` says what the start of a text must look like to be read as the declaration of a type, and
`declared?_eq_some_iff` that just this is looked for. A type is listed only for such a start of a
line (`exists_of_mem_typeNames`), and for each of them (`mem_typeNames`), unless it follows a line
that ends with one of the words that introduce a type: there, the first word of the line is taken
for the name.
-/

namespace TrackingPlan.Project

open Text

variable {cs front line rest gap : List Char} {name other word : String} {words : List String}

/-! ## The look of declarations -/

/-- The words that may stand before a declaration, in this order. -/
def modifiers : List String := ["export", "default", "declare", "const"]

/-- The words that introduce a type. -/
def introducers : List String := ["interface", "type", "enum"]

/-- `startsName c` holds of the characters that a name may start with. -/
def startsName (c : Char) : Bool := c.isAlpha || c = '_' || c = '$'

/-- `goesOn c` holds of the characters that a name may go on with. -/
def goesOn (c : Char) : Bool := startsName c || c.isDigit

/-- Names that are read as such in full. -/
structure IsTypeName (name : String) : Prop where
  starts : name.toList.head?.any startsName
  goesOn : ∀ c ∈ name.toList, goesOn c = true

/-- Blank characters, of which there is one at least. -/
structure IsGap (gap : List Char) : Prop where
  ne_nil : gap ≠ []
  blank : ∀ c ∈ gap, isBlank c = true

/-- The text starts with some of the words, in this order, then with a word that introduces a type
and with the name, and goes on with `rest`. -/
inductive Reads (name : String) (rest : List Char) : (words : List String) → List Char → Prop where
  | skip {word : String} {words : List String} {cs : List Char} (h : Reads name rest words cs) :
      Reads name rest (word :: words) cs
  | word {word : String} {words : List String} {gap cs : List Char} (hgap : IsGap gap)
      (h : Reads name rest words cs) : Reads name rest (word :: words) (word.toList ++ gap ++ cs)
  | name {introducer : String} {gap : List Char} (hword : introducer ∈ introducers)
      (hgap : IsGap gap)
      (hname : IsTypeName name) (hrest : ∀ c ∈ rest.head?, goesOn c = false) :
      Reads name rest [] (introducer.toList ++ gap ++ name.toList ++ rest)

/-- The text starts with the declaration of a type, perhaps behind blanks, and goes on with
`rest`. -/
def Declares (cs : List Char) (name : String) (rest : List Char) : Prop :=
  ∃ indent front, (∀ c ∈ indent, isBlank c = true) ∧ cs = indent ++ front ∧
    Reads name rest modifiers front

/-! ## Reading words -/

/-- The words of a declaration have neither blanks nor line ends in them. -/
theorem isBlank_of_mem_word (h : word ∈ modifiers ++ introducers) {c : Char}
    (hc : c ∈ word.toList) :
    isBlank c = false := by
  have hall :
    ∀ word ∈ modifiers ++ introducers, word.toList.all (fun c => !isBlank c) = true := by decide
  simpa using List.all_eq_true.1 (hall word h) c hc

/-- What is left behind the longest start is what is left when it is dropped. -/
theorem drop_length_takeWhile (p : Char → Bool) (cs : List Char) :
    cs.drop (cs.takeWhile p).length = cs.dropWhile p := by
  have hdrop := @List.drop_left _ (cs.takeWhile p) (cs.dropWhile p)
  rwa [List.takeWhile_append_dropWhile] at hdrop

/-- Behind a word stands a gap, and what follows the gap is not blank. -/
theorem afterWord?_eq_some_iff {word : List Char} : afterWord? word cs = some rest ↔
    ∃ gap, IsGap gap ∧ cs = word ++ gap ++ rest ∧ ∀ c ∈ rest.head?, isBlank c = false := by
  unfold afterWord?
  constructor
  · intro h
    split at h
    next hprefix =>
      obtain ⟨after, rfl⟩ := List.isPrefixOf_iff_prefix.1 hprefix
      rw [List.drop_left] at h
      split at h
      next c more =>
        split at h
        next hc =>
          obtain rfl := Option.some.inj h
          refine ⟨c :: more.takeWhile isBlank, ⟨List.cons_ne_nil _ _, ?_⟩, ?_, head?_dropWhile more⟩
          · intro d hd
            rcases List.mem_cons.1 hd with rfl | hd
            · exact hc
            · exact (List.mem_takeWhile_imp hd)
          · simp [List.takeWhile_append_dropWhile]
        next => cases h
      next => cases h
    next => cases h
  · rintro ⟨gap, ⟨hne, hblank⟩, rfl, hrest⟩
    obtain ⟨c, more, rfl⟩ := List.exists_cons_of_ne_nil hne
    have hprefix : word.isPrefixOf (word ++ (c :: more) ++ rest) = true :=
      List.isPrefixOf_iff_prefix.2 ⟨c :: more ++ rest, (List.append_assoc ..).symm⟩
    have hmore : ∀ d ∈ more, isBlank d = true := fun d hd => hblank d (List.mem_cons_of_mem c hd)
    rw [if_pos hprefix, List.append_assoc, List.drop_left, List.cons_append]
    dsimp only
    rw [if_pos (hblank c List.mem_cons_self), dropWhile_append_of_stops hmore hrest]

/-- A text that starts with one word does not start with another. -/
theorem afterWord?_eq_none (hword : word ∈ modifiers ++ introducers)
    (hother : other ∈ modifiers ++ introducers)
    (hne : other ≠ word) (hgap : IsGap gap) (tail : List Char) :
    afterWord? other.toList (word.toList ++ gap ++ tail) = none := by
  refine Option.eq_none_iff_forall_ne_some.2 fun rest hrest => hne ?_
  obtain ⟨gap', hgap', heq, -⟩ := afterWord?_eq_some_iff.1 hrest
  have hfirst : ∀ {word gap tail}, word ∈ modifiers ++ introducers → IsGap gap →
      (word.toList ++ gap ++ tail).takeWhile (fun c => !isBlank c) = word.toList := by
    intro word gap tail hword hgap
    rw [List.append_assoc]
    refine takeWhile_append_of_stops (fun c hc => by simp [isBlank_of_mem_word hword hc])
      fun c hc => ?_
    obtain ⟨d, more, rfl⟩ := List.exists_cons_of_ne_nil hgap.ne_nil
    obtain rfl := Option.some.inj hc
    simp [hgap.blank d List.mem_cons_self]
  rw [← String.toList_inj, ← hfirst hother hgap', ← heq, hfirst hword hgap]

/-- What is read starts with one of the words, or with one that introduces a type. -/
theorem Reads.exists_word (h : Reads name rest words cs) :
    ∃ word ∈ words ++ introducers, ∃ gap tail, IsGap gap ∧ cs = word.toList ++ gap ++ tail := by
  induction h with
  | skip _ ih =>
      obtain ⟨word, hword, hgap⟩ := ih
      exact ⟨word, List.mem_cons_of_mem _ hword, hgap⟩
  | word hgap _ _ => exact ⟨_, List.mem_cons_self, _, _, hgap, rfl⟩
  | name hword hgap _ _ => exact ⟨_, hword, _, _, hgap, List.append_assoc ..⟩

/-- No blank stands before what is read. -/
theorem Reads.head?_eq (h : Reads name rest words cs) (hwords : words ⊆ modifiers) :
    ∀ c ∈ cs.head?, isBlank c = false := by
  obtain ⟨word, hword, gap, tail, hgap, rfl⟩ := h.exists_word
  have hmem : word ∈ modifiers ++ introducers :=
    (List.mem_append.1 hword).elim (fun h => List.mem_append_left _ (hwords h))
    (List.mem_append_right _)
  have hne : word.toList ≠ [] := by
    have hall : ∀ word ∈ modifiers ++ introducers, word.toList ≠ [] := by decide
    exact hall word hmem
  obtain ⟨d, more, hd⟩ := List.exists_cons_of_ne_nil hne
  intro c hc
  rw [hd] at hc
  obtain rfl := Option.some.inj hc
  exact isBlank_of_mem_word hmem (hd ▸ List.mem_cons_self)

/-- No word is listed twice. -/
theorem nodup_words : (modifiers ++ introducers).Nodup := by decide

/-! ## What is looked for -/

/-- `named? cs` is the name after a word that introduces a type, and what follows the name. -/
def named? (cs : List Char) : Option (String × List Char) :=
  match introducers.findSome? fun word => afterWord? word.toList cs with
  | none => none
  | some rest =>
    let name := rest.takeWhile goesOn
    if name.head?.any startsName then some (String.ofList name, rest.drop name.length) else none

/-- A line is read from its first word on, past the modifiers. -/
theorem declared?_eq (cs : List Char) :
    declared? cs = named? (modifiers.foldl afterModifier (cs.dropWhile isBlank)) := by
  unfold declared? named?
  rfl

/-- A name does not start with a blank. -/
theorem isBlank_of_startsName {c : Char} (h : startsName c = true) : isBlank c = false := by
  have hrange : c.toNat = 36 ∨ 65 ≤ c.toNat ∧ c.toNat ≤ 122 := by
    change (((decide (c.val ≥ 'A'.val ∧ c.val ≤ 'Z'.val) || (c.val ≥ 'a'.val && c.val ≤ 'z'.val)) ||
      c = '_') || c = '$') = true at h
    simp only [Bool.or_eq_true, Bool.and_eq_true, decide_eq_true_eq, ge_iff_le,
      UInt32.le_iff_toNat_le] at h
    rcases h with ((⟨hlow, hhigh⟩ | ⟨hlow, hhigh⟩) | rfl) | rfl
    · exact .inr ⟨hlow, Nat.le_trans hhigh (by decide)⟩
    · exact .inr ⟨Nat.le_trans (by decide) hlow, hhigh⟩
    · decide
    · decide
  exact isBlank_of_ascii (by omega) (by omega)

/-- Where a name stands in front, no blank does. -/
theorem IsTypeName.head?_eq (h : IsTypeName name) (rest : List Char) :
    ∀ c ∈ (name.toList ++ rest).head?, isBlank c = false := by
  intro c hc
  have hstarts := h.starts
  cases hname : name.toList with
  | nil => simp [hname] at hstarts
  | cons first more =>
      rw [hname] at hc hstarts
      obtain rfl := Option.some.inj hc
      exact isBlank_of_startsName (by simpa using hstarts)

/-- A search finds what it finds at one place, if it finds nothing at any other. -/
theorem findSome?_of_only {α : Type} {f : String → Option α} {found : α} (hmem : word ∈ words)
    (hself : f word = some found) (hothers : ∀ other ∈ words, other ≠ word → f other = none) :
    words.findSome? f = some found := by
  induction words with
  | nil => cases hmem
  | cons first words ih =>
      rw [List.findSome?_cons]
      by_cases hfirst : first = word
      · rw [hfirst, hself]
      · rw [hothers first List.mem_cons_self hfirst]
        exact ih (List.mem_of_ne_of_mem (Ne.symm hfirst) hmem) fun other hother =>
          hothers other (List.mem_cons_of_mem first hother)

/-- The name of a type is read behind the words that introduce it. -/
theorem named?_eq_some_iff : named? cs = some (name, rest) ↔ Reads name rest [] cs := by
  unfold named?
  constructor
  · intro h
    split at h
    next => cases h
    next after hafter =>
      dsimp only at h
      split at h
      next hstarts =>
        obtain ⟨word, hword, hread⟩ := List.exists_of_findSome?_eq_some hafter
        obtain ⟨gap, hgap, rfl, -⟩ := afterWord?_eq_some_iff.1 hread
        obtain ⟨rfl, rfl⟩ := Prod.mk.inj (Option.some.inj h)
        have hsplit : after = (String.ofList (after.takeWhile goesOn)).toList ++
            after.drop (after.takeWhile goesOn).length := by
          rw [String.toList_ofList, drop_length_takeWhile, List.takeWhile_append_dropWhile]
        have hname : IsTypeName (String.ofList (after.takeWhile goesOn)) :=
          ⟨by simpa using hstarts, fun c hc => List.mem_takeWhile_imp (by simpa using hc)⟩
        have hrest :
            ∀ c ∈ (after.drop (after.takeWhile goesOn).length).head?, goesOn c = false := by
          rw [drop_length_takeWhile]
          exact head?_dropWhile after
        have hreads := Reads.name hword hgap hname hrest
        rwa [List.append_assoc, ← hsplit] at hreads
      next => cases h
  · intro h
    cases h with
    | @name introducer gap hword hgap hname hrest =>
        have hword' : introducer ∈ modifiers ++ introducers := List.mem_append_right _ hword
        have hself :
          afterWord? introducer.toList (introducer.toList ++ gap ++ name.toList ++ rest) =
            some (name.toList ++ rest) :=
          afterWord?_eq_some_iff.2 ⟨gap, hgap, List.append_assoc .., hname.head?_eq rest⟩
        have hothers : ∀ word ∈ introducers, word ≠ introducer →
            afterWord? word.toList (introducer.toList ++ gap ++ name.toList ++ rest) = none := by
          intro word hmem hne
          rw [List.append_assoc]
          exact afterWord?_eq_none hword' (List.mem_append_right _ hmem) hne hgap _
        have hfound : (introducers.findSome? fun word =>
            afterWord? word.toList (introducer.toList ++ gap ++ name.toList ++ rest)) =
              some (name.toList ++ rest) :=
          findSome?_of_only hword hself hothers
        rw [hfound]
        dsimp only
        rw [takeWhile_append_of_stops hname.goesOn hrest, if_pos hname.starts, String.ofList_toList,
          List.drop_left]

/-- The name is read past the modifiers that are still to come. -/
theorem reads_iff (hwords : words <:+ modifiers) :
    named? (words.foldl afterModifier cs) = some (name, rest) ↔ Reads name rest words cs := by
  induction words generalizing cs with
  | nil => exact named?_eq_some_iff
  | cons word words ih =>
      have hrest : words <:+ modifiers := (List.suffix_cons word words).trans hwords
      rw [List.foldl_cons, ih hrest]
      constructor
      · intro h
        unfold afterModifier at h
        cases hafter : afterWord? word.toList cs with
        | none =>
            rw [hafter] at h
            exact .skip h
        | some after =>
            rw [hafter] at h
            obtain ⟨gap, hgap, rfl, -⟩ := afterWord?_eq_some_iff.1 hafter
            exact .word hgap h
      · intro h
        unfold afterModifier
        cases h with
        | skip h =>
            obtain ⟨first, hfirst, gap, tail, hgap, rfl⟩ := h.exists_word
            have hnodup : (word :: words ++ introducers).Nodup := by
              obtain ⟨before, hbefore⟩ := hwords
              have hall := nodup_words
              rw [← hbefore, List.append_assoc] at hall
              exact (List.nodup_append.1 hall).2.1
            have hne : word ≠ first := fun heq => (List.nodup_cons.1 hnodup).1 (heq ▸ hfirst)
            have hmem : ∀ w ∈ word :: words ++ introducers, w ∈ modifiers ++ introducers := by
              intro w hw
              exact (List.mem_append.1 hw).elim (fun h => List.mem_append_left _ (hwords.subset h))
                (List.mem_append_right _)
            rw [afterWord?_eq_none (hmem first (List.mem_cons_of_mem _ hfirst))
              (hmem word List.mem_cons_self) hne hgap]
            exact h
        | word hgap h =>
            rw [afterWord?_eq_some_iff.2 ⟨_, hgap, rfl, h.head?_eq hrest.subset⟩]
            exact h

/-- Just the declarations are found at the start of a line. -/
theorem declared?_eq_some_iff : declared? cs = some (name, rest) ↔ Declares cs name rest := by
  rw [declared?_eq, reads_iff List.suffix_rfl]
  constructor
  · intro h
    exact ⟨cs.takeWhile isBlank, _, fun c hc => List.mem_takeWhile_imp hc,
      (List.takeWhile_append_dropWhile ..).symm, h⟩
  · rintro ⟨indent, front, hindent, rfl, h⟩
    rwa [dropWhile_append_of_stops hindent (h.head?_eq (List.Subset.refl _))]

/-! ## Declarations at the starts of lines -/

/-- A line starts after the text; `atStart` tells that it does so before the text. -/
def StartsLine (atStart : Bool) (before : List Char) : Prop :=
  (before = [] ∧ atStart = true) ∨ before.getLast? = some '\n'

/-- The text ends with a word that introduces a type, perhaps before blanks. -/
def EndsInWord (before : List Char) : Prop :=
  ∃ start gap, ∃ introducer ∈ introducers, (∀ c ∈ gap, isBlank c = true) ∧
    before = start ++ introducer.toList ++ gap

variable {before : List Char} {fuel : Nat} {atStart : Bool} {text : String}

/-- What ends in a word does so behind any other start. -/
theorem EndsInWord.append (h : EndsInWord before) (start : List Char) :
    EndsInWord (start ++ before) := by
  obtain ⟨start', gap, introducer, hword, hgap, rfl⟩ := h
  exact ⟨start ++ start', gap, introducer, hword, hgap, by simp⟩

/-- No line ends within a word. -/
theorem not_endsLine_word (hword : word ∈ modifiers ++ introducers) {after : List Char}
    (h : word.toList = before ++ after) : before.getLast? ≠ some '\n' := by
  intro hlast
  have hmem : '\n' ∈ word.toList := h ▸ List.mem_append_left after (List.mem_of_getLast? hlast)
  exact absurd (isBlank_of_mem_word hword hmem) (by decide)

/-- No line ends within the name of a type. -/
theorem IsTypeName.not_endsLine (hname : IsTypeName name) {after : List Char}
    (h : name.toList = before ++ after) :
    before.getLast? ≠ some '\n' := by
  intro hlast
  have hmem : '\n' ∈ name.toList := h ▸ List.mem_append_left after (List.mem_of_getLast? hlast)
  exact absurd (hname.goesOn _ hmem) (by decide)

/-- A word and the blanks after it reach into the next line with blanks only. -/
theorem exists_gap_of_append_eq (hword : word ∈ modifiers ++ introducers) {after : List Char}
    (h : word.toList ++ gap = before ++ after) (hlast : before.getLast? = some '\n') :
    ∃ between, before = word.toList ++ between ∧ gap = between ++ after := by
  rcases List.append_eq_append_iff.1 h with ⟨between, rfl, hgap⟩ | ⟨between, hbetween, -⟩
  · exact ⟨between, rfl, hgap⟩
  · exact absurd hlast (not_endsLine_word hword hbetween)

/-- What is read with fewer words before it is a declaration. -/
theorem Reads.declares {indent : List Char} (h : Reads name rest words front)
    (hwords : words <:+ modifiers)
    (hindent : ∀ c ∈ indent, isBlank c = true) : Declares (indent ++ front) name rest := by
  refine ⟨indent, front, hindent, rfl, ?_⟩
  obtain ⟨sooner, hsooner⟩ := hwords
  rw [← hsooner]
  clear hsooner
  induction sooner with
  | nil => exact h
  | cons _ _ ih => exact .skip ih

/-- Where the reading of a declaration stands that starts in `before`, when it comes to the line
after it: it has ended before the line, or takes the first word of the line for the name of a type,
or reads the line as it would alone. -/
inductive Reaches (name : String) (rest before line : List Char) : Prop where
  | inside {between : List Char} :
      rest = between ++ line → between <:+ before → between.getLast? = some '\n' →
      Reaches name rest before line
  | word : EndsInWord before → Reaches name rest before line
  | line : Declares line name rest → Reaches name rest before line

/-- What stands before does not matter. -/
theorem Reaches.append (h : Reaches name rest before line) (front : List Char) :
    Reaches name rest (front ++ before) line := by
  cases h with
  | inside hrest hsuffix hend => exact .inside hrest (hsuffix.trans (List.suffix_append _ _)) hend
  | word hends => exact .word (hends.append front)
  | line hline => exact .line hline

/-- A declaration that starts before a line ends before it, or goes on in it, or takes the first
word of the line for its name. -/
theorem Reads.reaches (h : Reads name rest words cs) (hwords : words <:+ modifiers)
    (hcs : cs = before ++ line)
    (hlast : before.getLast? = some '\n') : Reaches name rest before line := by
  induction h generalizing before with
  | skip h ih => exact ih ((List.suffix_cons _ _).trans hwords) hcs hlast
  | @word word words gap cs hgap h ih =>
      have hrest : words <:+ modifiers := (List.suffix_cons word words).trans hwords
      have hword : word ∈ modifiers ++ introducers :=
        List.mem_append_left _ (hwords.subset List.mem_cons_self)
      rcases List.append_eq_append_iff.1 hcs with ⟨between, rfl, rfl⟩ | ⟨between, hbetween, rfl⟩
      · by_cases hnil : between = []
        · subst hnil
          have hline : Declares ([] ++ line) name rest := h.declares hrest (by simp)
          exact .line hline
        · rw [List.getLast?_append_of_ne_nil _ hnil] at hlast
          exact (ih hrest rfl hlast).append _
      · obtain ⟨start, -, rfl⟩ := exists_gap_of_append_eq hword hbetween hlast
        exact .line (h.declares hrest fun c hc => hgap.blank c (List.mem_append_right _ hc))
  | @name introducer gap hword hgap hname hnext =>
      have hmem : introducer ∈ modifiers ++ introducers := List.mem_append_right _ hword
      rcases List.append_eq_append_iff.1 hcs with ⟨between, rfl, rfl⟩ | ⟨between, hbetween, rfl⟩
      · by_cases hnil : between = []
        · have hne : name.toList ≠ [] := by
            intro hempty
            simpa [hempty] using hname.starts
          rw [hnil, List.append_nil, List.getLast?_append_of_ne_nil _ hne] at hlast
          exact absurd hlast (hname.not_endsLine (List.append_nil _).symm)
        · rw [List.getLast?_append_of_ne_nil _ hnil] at hlast
          exact .inside rfl (List.suffix_append _ _) hlast
      · refine .word ?_
        rcases List.append_eq_append_iff.1 hbetween with ⟨start, rfl, hstart⟩ | ⟨start, hstart, -⟩
        · by_cases hnil : start = []
          · exact ⟨[], gap, introducer, hword, hgap.blank, by simp [hnil]⟩
          · rw [List.getLast?_append_of_ne_nil _ hnil] at hlast
            exact absurd hlast (hname.not_endsLine hstart)
        · obtain ⟨start', rfl, rfl⟩ := exists_gap_of_append_eq hmem hstart hlast
          exact ⟨[], start', introducer, hword, fun c hc =>
            hgap.blank c (List.mem_append_left _ hc), by simp⟩

/-- A declaration that starts before the end of a line reaches into the next one. -/
theorem Declares.reaches (h : Declares (before ++ line) name rest)
    (hlast : before.getLast? = some '\n') :
    Reaches name rest before line := by
  obtain ⟨indent, front, hindent, hcs, hreads⟩ := h
  rcases List.append_eq_append_iff.1 hcs with ⟨between, rfl, rfl⟩ | ⟨between, rfl, rfl⟩
  · exact .line ⟨between, front, fun c hc => hindent c (List.mem_append_right _ hc), rfl, hreads⟩
  · by_cases hnil : between = []
    · subst hnil
      exact .line ⟨[], line, by simp, rfl, hreads⟩
    · rw [List.getLast?_append_of_ne_nil _ hnil] at hlast
      exact (hreads.reaches List.suffix_rfl rfl hlast).append _

/-- A declaration takes up some of the text. -/
theorem Declares.exists_append (h : Declares cs name rest) :
    ∃ consumed, consumed ≠ [] ∧ cs = consumed ++ rest := by
  have hreads : ∀ {words front}, Reads name rest words front → ∃ consumed, consumed ≠ [] ∧
      front = consumed ++ rest := by
    intro words front hreads
    induction hreads with
    | skip _ ih => exact ih
    | word hgap _ ih =>
        obtain ⟨consumed, hne, rfl⟩ := ih
        exact ⟨_, List.append_ne_nil_of_right_ne_nil _ hne, (List.append_assoc ..).symm⟩
    | name hword hgap _ _ =>
        exact ⟨_, List.append_ne_nil_of_left_ne_nil
          (List.append_ne_nil_of_right_ne_nil _ hgap.ne_nil) _, rfl⟩
  obtain ⟨indent, front, -, rfl, hfront⟩ := h
  obtain ⟨consumed, hne, rfl⟩ := hreads hfront
  exact ⟨_, List.append_ne_nil_of_right_ne_nil _ hne, (List.append_assoc ..).symm⟩

/-- What is listed is declared at the start of a line. -/
theorem exists_of_mem_typeNamesFrom (h : name ∈ typeNamesFrom fuel atStart cs) :
    ∃ before line rest, cs = before ++ line ∧ StartsLine atStart before ∧
      Declares line name rest := by
  induction fuel generalizing atStart cs with
  | zero => cases h
  | succ fuel ih =>
      cases cs with
      | nil => cases h
      | cons c cs =>
          rw [typeNamesFrom] at h
          split at h
          next first after hdeclared =>
            obtain ⟨hstart, hfound⟩ := Option.ite_none_right_eq_some.1 hdeclared
            have hdeclares := declared?_eq_some_iff.1 hfound
            rcases List.mem_cons.1 h with rfl | hmore
            · exact ⟨[], _, after, rfl, .inl ⟨rfl, hstart⟩, hdeclares⟩
            · obtain ⟨before, line, rest, rfl, hline, hname⟩ := ih hmore
              obtain ⟨consumed, -, hconsumed⟩ := hdeclares.exists_append
              refine ⟨consumed ++ before, line, rest, by simp [hconsumed], ?_, hname⟩
              rcases hline with ⟨-, hfalse⟩ | hlast
              · cases hfalse
              · exact .inr (by rw [List.getLast?_append, hlast, Option.some_or])
          next =>
            obtain ⟨before, line, rest, rfl, hline, hname⟩ := ih h
            refine ⟨c :: before, line, rest, rfl, .inr ?_, hname⟩
            rcases hline with ⟨rfl, hc⟩ | hlast
            · rw [List.getLast?_singleton, of_decide_eq_true hc]
            · rw [List.getLast?_cons, hlast, Option.getD_some]

/-- What is declared at the start of a line is listed, unless a word that introduces a type stands
before. -/
theorem mem_typeNamesFrom (hfuel : (before ++ line).length < fuel)
    (hstart : StartsLine atStart before)
    (hword : ¬EndsInWord before) (h : Declares line name rest) :
    name ∈ typeNamesFrom fuel atStart (before ++ line) := by
  induction fuel generalizing atStart before with
  | zero => cases hfuel
  | succ fuel ih =>
      have hline := declared?_eq_some_iff.2 h
      cases hcs : before ++ line with
      | nil =>
          obtain ⟨-, rfl⟩ := List.append_eq_nil_iff.1 hcs
          obtain ⟨consumed, hne, hnil⟩ := h.exists_append
          exact absurd (List.append_eq_nil_iff.1 hnil.symm).1 hne
      | cons c cs =>
          rw [typeNamesFrom, ← hcs]
          rw [hcs, List.length_cons] at hfuel
          split
          next first after hdeclared =>
            obtain ⟨hatStart, hfound⟩ := Option.ite_none_right_eq_some.1 hdeclared
            rcases hstart with ⟨rfl, -⟩ | hlast
            · rw [List.nil_append, hline] at hfound
              obtain ⟨rfl, -⟩ := Prod.mk.inj (Option.some.inj hfound)
              exact List.mem_cons_self
            · have hdeclares := declared?_eq_some_iff.1 hfound
              rcases hdeclares.reaches hlast with ⟨rfl, hsuffix, hend⟩ | hends | hsame
              · refine List.mem_cons_of_mem _ (ih ?_ (.inr hend) fun hends => hword ?_)
                · obtain ⟨consumed, hne, hconsumed⟩ := hdeclares.exists_append
                  have hlength := congrArg List.length (hcs.symm.trans hconsumed)
                  have hpos := List.length_pos_iff.2 hne
                  rw [List.length_append, List.length_cons] at hlength
                  omega
                · obtain ⟨start, rfl⟩ := hsuffix
                  exact hends.append start
              · exact absurd hends hword
              · rw [declared?_eq_some_iff.2 hsame] at hline
                obtain ⟨rfl, -⟩ := Prod.mk.inj (Option.some.inj hline)
                exact List.mem_cons_self
          next hnone =>
            cases before with
            | nil =>
                rcases hstart with ⟨-, rfl⟩ | hlast
                · simp [hline] at hnone
                · cases hlast
            | cons first more =>
                rw [List.cons_append] at hcs
                obtain ⟨rfl, rfl⟩ := List.cons.inj hcs
                refine ih (by omega) ?_ fun hends => hword (hends.append [first])
                rcases hstart with ⟨hnil, -⟩ | hlast
                · cases hnil
                · by_cases hnil : more = []
                  · subst hnil
                    exact .inl ⟨rfl, by simpa using hlast⟩
                  · refine .inr ?_
                    rwa [← List.singleton_append, List.getLast?_append_of_ne_nil _ hnil] at hlast

/-- A name is listed for a line that declares it. -/
theorem exists_of_mem_typeNames (h : name ∈ typeNames text) :
    ∃ before line rest, text.toList = before ++ line ∧ StartsLine true before ∧
      Declares line name rest :=
  exists_of_mem_typeNamesFrom h

/-- A line that declares a name, and follows no word that introduces types, lists it. -/
theorem mem_typeNames (htext : text.toList = before ++ line) (hstart : StartsLine true before)
    (hword : ¬EndsInWord before) (h : Declares line name rest) : name ∈ typeNames text := by
  have hlength := congrArg List.length htext
  rw [String.length_toList] at hlength
  rw [typeNames, htext]
  exact mem_typeNamesFrom (by omega) hstart hword h

end TrackingPlan.Project
