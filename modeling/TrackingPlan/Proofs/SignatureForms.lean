import TrackingPlan.Proofs.Pieces
import TrackingPlan.Proofs.Related
import TrackingPlan.Proofs.ValidConfigs

/-!
# The written forms of signatures

A signature is written as a function name, perhaps with a parameter list (`IsWritten`), whose name
falls into parts that are not empty (`HasForm`) and whose parameters stand between commas
(`AreParameters`). `assign_of_markedOnce` and `assign_of_repeatsFirst` say what becomes of the
parameters, one after the other, and `classified_signatures` which texts are signatures, and for
which reason each of the others is none.
-/

namespace TrackingPlan.Signature

open Text

variable {raw text after : List Char} {name body piece : List Char}
  {pieces segments : List (List Char)}
  {parameters before rest : List String} {p q token : String}

/-! ## Names and parameter lists -/

/-- Texts that are function names: one character at least, all of them letters, digits and a few
marks. -/
structure IsFunctionName (name : List Char) : Prop where
  ne_nil : name ≠ []
  chars : ∀ c ∈ name, isNameChar c = true

/-- The text is the function name `name`, perhaps with a parameter list, where `body` stands between
the round brackets. Blanks may stand around both. -/
inductive IsWritten (name : List Char) : Option (List Char) → List Char → Prop where
  | bare {before after : List Char} (hbefore : AllBlank before) (hname : IsFunctionName name)
      (hafter : AllBlank after) : IsWritten name none (before ++ (name ++ after))
  | list {before gap body after : List Char} (hbefore : AllBlank before)
      (hname : IsFunctionName name)
      (hgap : AllBlank gap) (hbody : ')' ∉ body) (hafter : AllBlank after) :
      IsWritten name (some body) (before ++ (name ++ (gap ++ '(' :: (body ++ ')' :: after))))

/-- No blank is a character of names. -/
theorem isBlank_of_isNameChar {c : Char} (h : isNameChar c = true) : isBlank c = false := by
  simp only [isNameChar, Char.isAlphanum, Char.isAlpha, Char.isUpper, Char.isLower, Char.isDigit,
    Bool.or_eq_true, Bool.and_eq_true, decide_eq_true_eq, ge_iff_le, UInt32.le_iff_toNat_le] at h
  have hrange : 36 ≤ c.toNat ∧ c.toNat ≤ 122 := by
    rcases h with ((((((h | h) | h) | rfl) | rfl) | rfl) | rfl)
    · exact ⟨Nat.le_trans (by decide) h.1, Nat.le_trans h.2 (by decide)⟩
    · exact ⟨Nat.le_trans (by decide) h.1, Nat.le_trans h.2 (by decide)⟩
    · exact ⟨Nat.le_trans (by decide) h.1, Nat.le_trans h.2 (by decide)⟩
    all_goals decide
  exact isBlank_of_ascii (by omega) (by omega)

/-- `listed? after` is the body of the parameter list that `after` is, if `after` is not empty. -/
def listed? : List Char → Option (Option (List Char))
  | [] => some none
  | '(' :: inside =>
    match inside.dropWhile (· ≠ ')') with
    | ')' :: rest => if rest.all isBlank then some (some (inside.takeWhile (· ≠ ')'))) else none
    | _ => none
  | _ => none

/-- A signature has a shape if it starts with a name, and what follows is a list or nothing. -/
theorem shape?_eq_ite (raw : List Char) :
    shape? raw = if (raw.dropWhile isBlank).takeWhile isNameChar = [] then none
      else (listed? (((raw.dropWhile isBlank).dropWhile isNameChar).dropWhile isBlank)).map
        ((raw.dropWhile isBlank).takeWhile isNameChar, ·) := by
  simp only [shape?, List.isEmpty_iff]
  split
  · rfl
  · generalize ((raw.dropWhile isBlank).dropWhile isNameChar).dropWhile isBlank = after
    fun_cases listed? after with
    | case1 => rfl
    | case2 inside rest hrest hblank => simp only [hrest, hblank, if_true, Option.map_some]
    | case3 inside rest hrest hblank => simp only [hrest, if_neg hblank, Option.map_none]
    | case4 inside hrest =>
        show (match inside.dropWhile (· ≠ ')') with | ')' :: rest => _ | _ => none) = none
        split
        next rest hfound => exact absurd hfound (hrest rest)
        next => rfl
    | case5 after hnil hlist =>
        split
        next => exact absurd rfl hnil
        next inside => exact absurd rfl (hlist inside)
        next => rfl

/-- A text is cut behind the blanks at its start, behind the name, and behind the blanks after
that. -/
theorem shape?_append {before gap : List Char} (hbefore : AllBlank before)
    (hname : IsFunctionName name)
    (hgap : AllBlank gap) (hafter : ∀ c ∈ after.head?, isBlank c = false ∧ isNameChar c = false) :
    shape? (before ++ (name ++ (gap ++ after))) = (listed? after).map (name, ·) := by
  have hstart : ∀ c ∈ (name ++ (gap ++ after)).head?, isBlank c = false := by
    intro c hc
    obtain ⟨first, rest, rfl⟩ := List.exists_cons_of_ne_nil hname.ne_nil
    obtain rfl := Option.some.inj hc
    exact isBlank_of_isNameChar (hname.chars first List.mem_cons_self)
  have hrest : ∀ c ∈ (gap ++ after).head?, isNameChar c = false := by
    intro c hc
    cases gap with
    | nil => exact (hafter c hc).2
    | cons first rest =>
        obtain rfl := Option.some.inj hc
        by_contra hchar
        have hblank := hgap first List.mem_cons_self
        rw [isBlank_of_isNameChar (by simpa using hchar)] at hblank
        cases hblank
  rw [shape?_eq_ite, dropWhile_append_of_stops hbefore hstart,
    takeWhile_append_of_stops hname.chars hrest,
    dropWhile_append_of_stops hname.chars hrest, dropWhile_append_of_stops hgap fun c hc =>
      (hafter c hc).1, if_neg hname.ne_nil]

/-- What stands between the brackets is listed, if only blanks follow. -/
theorem listed?_list (hbody : ')' ∉ body) (hafter : AllBlank after) :
    listed? ('(' :: (body ++ ')' :: after)) = some (some body) := by
  have hchars : ∀ c ∈ body, (c ≠ ')' : Bool) = true := by
    intro c hc
    have hne : c ≠ ')' := fun heq => hbody (heq ▸ hc)
    simpa using hne
  have hstop : ∀ c ∈ (')' :: after).head?, (c ≠ ')' : Bool) = false := by simp
  rw [listed?, dropWhile_append_of_stops hchars hstop, takeWhile_append_of_stops hchars hstop]
  exact if_pos (List.all_eq_true.2 hafter)

/-- What is listed stands between brackets that only blanks follow, if anything does. -/
theorem exists_of_listed? {inside : Option (List Char)} (h : listed? after = some inside) :
    after = [] ∧ inside = none ∨ ∃ body rest, after = '(' :: (body ++ ')' :: rest) ∧
    inside = some body ∧
      ')' ∉ body ∧ AllBlank rest := by
  unfold listed? at h
  split at h
  next => exact .inl ⟨rfl, (Option.some.inj h).symm⟩
  next inside =>
    split at h
    next rest hrest =>
      split at h
      next hblank =>
        obtain rfl := Option.some.inj h
        have hinside := (List.takeWhile_append_dropWhile (p := (· ≠ ')')) (l := inside)).symm
        rw [hrest] at hinside
        refine .inr ⟨_, rest, congrArg _ hinside, rfl, fun hmem => ?_, List.all_eq_true.1 hblank⟩
        simpa using List.mem_takeWhile_imp hmem
      next => cases h
    next => cases h
  next => cases h

/-- The reader finds the name and the parameter list of the texts that have them, and of no
others. -/
theorem shape?_eq_some_iff {inside : Option (List Char)} :
    shape? raw = some (name, inside) ↔ IsWritten name inside raw := by
  constructor
  · intro h
    rw [shape?_eq_ite] at h
    split at h
    next => cases h
    next hne =>
      obtain ⟨found, hfound, heq⟩ := Option.map_eq_some_iff.1 h
      obtain ⟨rfl, rfl⟩ := Prod.mk.inj heq
      have hname : IsFunctionName ((raw.dropWhile isBlank).takeWhile isNameChar) :=
        ⟨hne, fun c hc => List.mem_takeWhile_imp hc⟩
      have hbefore : AllBlank (raw.takeWhile isBlank) := fun c hc => List.mem_takeWhile_imp hc
      have hgap : AllBlank (((raw.dropWhile isBlank).dropWhile isNameChar).takeWhile isBlank) :=
        fun c hc => List.mem_takeWhile_imp hc
      have hcut : raw = raw.takeWhile isBlank ++ ((raw.dropWhile isBlank).takeWhile isNameChar ++
          (((raw.dropWhile isBlank).dropWhile isNameChar).takeWhile isBlank ++
            ((raw.dropWhile isBlank).dropWhile isNameChar).dropWhile isBlank)) := by
        simp only [List.takeWhile_append_dropWhile]
      rcases exists_of_listed? hfound with ⟨hafter, rfl⟩ | ⟨body, rest, hafter, rfl, hbody, hrest⟩
      · have hwritten := IsWritten.bare hbefore hname hgap
        rw [hafter, List.append_nil] at hcut
        rwa [← hcut] at hwritten
      · have hwritten := IsWritten.list hbefore hname hgap hbody hrest
        rw [hafter] at hcut
        rwa [← hcut] at hwritten
  · intro h
    cases h with
    | bare hbefore hname hafter =>
        have hnone :
          ∀ c ∈ ([] : List Char).head?, isBlank c = false ∧ isNameChar c = false := by simp
        have hshape := shape?_append hbefore hname hafter hnone
        rwa [List.append_nil] at hshape
    | @list before gap body after hbefore hname hgap hbody hafter =>
        have hbracket : ∀ c ∈ ('(' :: (body ++ ')' :: after)).head?, isBlank c = false ∧
            isNameChar c = false := by
          intro c hc
          obtain rfl := Option.some.inj hc
          decide
        rw [shape?_append hbefore hname hgap hbracket, listed?_list hbody hafter]
        rfl

/-! ## Parts of names -/

/-- Splitting at a character gives the pieces between it. -/
theorem isSplit_splitOn (separator : Char) (text : List Char) :
    IsSplit [separator] text (splitOn separator text) := by
  induction text with
  | nil => exact .last (by simp)
  | cons c rest ih =>
      rw [splitOn]
      split
      next hc =>
        subst hc
        exact @IsSplit.more [c] [] rest _ (by simp) ih
      next hc =>
        have hnone : ¬[separator] <+: c :: rest := fun h => hc (List.cons_prefix_cons.1 h).1.symm
        cases hpieces : splitOn separator rest with
        | nil => exact absurd hpieces ih.ne_nil
        | cons piece pieces => exact (hpieces ▸ ih).cons hnone

/-- The pieces between a character are those that splitting gives. -/
theorem splitOn_eq_iff {separator : Char} :
    splitOn separator text = pieces ↔ IsSplit [separator] text pieces :=
  ⟨fun h => h ▸ isSplit_splitOn separator text,
    fun h => (isSplit_splitOn separator text).unique (List.cons_ne_nil _ _) h⟩

/-- Splitting at colons gives the pieces between them. -/
theorem isSplit_splitScopes (text : List Char) : IsSplit [':', ':'] text (splitScopes text) := by
  fun_induction splitScopes text with
  | case1 => exact .last (by simp)
  | case2 rest ih => exact @IsSplit.more [':', ':'] [] rest _ (by decide) ih
  | case3 c rest hc hpieces ih => exact absurd hpieces ih.ne_nil
  | case4 c rest hc piece pieces hpieces ih =>
      refine (hpieces ▸ ih).cons fun h => ?_
      obtain ⟨rfl, hrest⟩ := List.cons_prefix_cons.1 h
      obtain ⟨more, hmore⟩ := hrest
      exact hc more rfl hmore.symm

/-- The pieces between colons are those that splitting gives. -/
theorem splitScopes_eq_iff : splitScopes text = pieces ↔ IsSplit [':', ':'] text pieces :=
  ⟨fun h => h ▸ isSplit_splitScopes text,
    fun h => (isSplit_splitScopes text).unique (List.cons_ne_nil _ _) h⟩

/-- `segments` are the parts of a name, which is split at two colons and then at full stops. -/
def AreSegments (name : List Char) (segments : List (List Char)) : Prop :=
  ∃ scopes parts, IsSplit [':', ':'] name scopes ∧ List.Forall₂ (IsSplit ['.']) scopes parts ∧
    segments = parts.flatten

/-- The segments of a name are those that are read. -/
theorem segmentsOf_eq_iff : segmentsOf name = segments ↔ AreSegments name segments := by
  have hparts : ∀ scopes parts, List.Forall₂ (IsSplit ['.']) scopes parts ↔
      scopes.map (splitOn '.') = parts := by
    intro scopes parts
    rw [← List.forall₂_eq_iff]
    exact ⟨fun h => h.imp fun _ _ => splitOn_eq_iff.2, fun h => h.imp fun _ _ => splitOn_eq_iff.1⟩
  constructor
  · rintro rfl
    exact ⟨_, _, isSplit_splitScopes name, (hparts _ _).2 rfl, List.flatMap_def⟩
  · rintro ⟨scopes, parts, hscopes, hsplit, rfl⟩
    rw [segmentsOf, splitScopes_eq_iff.2 hscopes, List.flatMap_def, (hparts _ _).1 hsplit]

/-- `parameters` are what stands between the commas of a parameter list: without blanks at the ends,
and without those of which nothing is left then. -/
def AreParameters (body : List Char) (parameters : List String) : Prop :=
  ∃ pieces inner, IsSplit [','] body pieces ∧ List.Forall₂ IsTrimmed pieces inner ∧
    parameters = (inner.filter (· ≠ [])).map String.ofList

/-- The parameters of a list are those that are read. -/
theorem parametersOf_eq_iff : parametersOf body = parameters ↔ AreParameters body parameters := by
  have hinner : ∀ pieces inner, List.Forall₂ IsTrimmed pieces inner ↔
      pieces.map trimChars = inner := by
    intro pieces inner
    rw [← List.forall₂_eq_iff]
    exact ⟨fun h => h.imp fun _ _ => trimChars_eq_iff.2,
      fun h => h.imp fun _ _ => trimChars_eq_iff.1⟩
  have hfilter : ∀ inner : List (List Char), inner.filter (!·.isEmpty) = inner.filter (· ≠ []) := by
    intro inner
    refine List.filter_congr fun part _ => ?_
    cases part <;> rfl
  constructor
  · rintro rfl
    exact ⟨_, _, isSplit_splitOn ',' body, (hinner _ _).2 rfl, by rw [← hfilter]; rfl⟩
  · rintro ⟨pieces, inner, hpieces, htrimmed, rfl⟩
    rw [parametersOf, splitOn_eq_iff.2 hpieces, (hinner _ _).1 htrimmed, hfilter]

/-! ## Parameters one after the other -/

/-- The words that mark parameters. -/
def tokens : List String := [eventToken, propertiesToken]

/-- The parameter is the word `token`, in any letter case. -/
def Marks (token parameter : String) : Prop := upper parameter = token

instance (token parameter : String) : Decidable (Marks token parameter) :=
  inferInstanceAs (Decidable (upper parameter = token))

/-- No word marks two of the parameters. -/
def MarkedOnce (parameters : List String) : Prop :=
  parameters.Pairwise fun q p => ∀ token ∈ tokens, Marks token q → ¬Marks token p

/-- `token` is the word that is the first to come again: it marks a parameter and one before that,
up to which no word marks two. -/
def RepeatsFirst (token : String) (parameters : List String) : Prop :=
  token ∈ tokens ∧ ∃ before p after, parameters = before ++ p :: after ∧ MarkedOnce before ∧
    (∃ q ∈ before, Marks token q) ∧ Marks token p

/-- `extrasOf parameters` lists the parameters that no word marks, with their places. -/
def extrasOf (parameters : List String) : List ExtraParameter :=
  (parameters.zipIdx.filter fun entry => upper entry.1 ∉ tokens).map fun entry => ⟨entry.2, entry.1⟩

/-- `slotsOf parameters` gives each parameter its place; that of a word is the first that it
marks. -/
def slotsOf (parameters : List String) : Slots where
  event := parameters.findIdx? (upper · = eventToken)
  properties := parameters.findIdx? (upper · = propertiesToken)
  extras := extrasOf parameters

/-- The two words that mark parameters differ. -/
theorem eventToken_ne : eventToken ≠ propertiesToken := by decide

/-- A word that marks parameters is that of the event or that of the properties. -/
theorem mem_tokens_iff : token ∈ tokens ↔ token = eventToken ∨ token = propertiesToken := by
  simp [tokens]

/-- The word of the event marks parameters. -/
theorem eventToken_mem : eventToken ∈ tokens := mem_tokens_iff.2 (.inl rfl)

/-- The word of the properties marks parameters. -/
theorem propertiesToken_mem : propertiesToken ∈ tokens := mem_tokens_iff.2 (.inr rfl)

/-- The last parameter is an extra one if it is no word that marks. -/
theorem extrasOf_concat (before : List String) (p : String) : extrasOf (before ++ [p]) =
    extrasOf before ++ if upper p ∈ tokens then [] else [⟨before.length, p⟩] := by
  by_cases hp : upper p ∈ tokens <;> simp [extrasOf, List.zipIdx_append, hp]

/-- A word is found before the last parameter, or else in it. -/
theorem findIdx?_concat (before : List String) (p token : String) :
    (before ++ [p]).findIdx? (upper · = token) =
      (before.findIdx? (upper · = token)).or
        (if upper p = token then some before.length else none) := by
  rw [List.findIdx?_append]
  by_cases hp : upper p = token <;> simp [hp]

/-- A word is not found if it marks no parameter. -/
theorem findIdx?_eq_none_iff :
    before.findIdx? (upper · = token) = none ↔ ∀ q ∈ before, ¬Marks token q := by
  simp [List.findIdx?_eq_none_iff, Marks]

/-- The last parameter has a slot of its own, unless its word had one before. -/
theorem slotsOf_concat (before : List String) (p : String) : slotsOf (before ++ [p]) =
    { event := (slotsOf before).event.or (if upper p = eventToken then some before.length else none)
      properties := (slotsOf before).properties.or
        (if upper p = propertiesToken then some before.length else none)
      extras := (slotsOf before).extras ++
        if upper p ∈ tokens then [] else [⟨before.length, p⟩] } := by
  rw [slotsOf, findIdx?_concat, findIdx?_concat, extrasOf_concat]
  rfl

/-- A parameter that repeats no word is given its place. -/
theorem assign_step {raw : String} (h : ∀ token ∈ tokens, ∀ q ∈ before, Marks token q →
    ¬Marks token p) :
    assign raw (slotsOf before) before.length (p :: rest) =
      assign raw (slotsOf (before ++ [p])) (before ++ [p]).length rest := by
  have hfree : ∀ token ∈ tokens, upper p = token → before.findIdx? (upper · = token) = none :=
    fun token htoken hp => findIdx?_eq_none_iff.2 fun q hq hmarks => h token htoken q hq hmarks hp
  rw [assign, slotsOf_concat, List.length_append, List.length_singleton]
  by_cases hevent : upper p = eventToken
  · have hnone : (slotsOf before).event = none := hfree _ eventToken_mem hevent
    have hother : eventToken ≠ propertiesToken := eventToken_ne
    simp [hevent, hnone, hother, tokens]
  · by_cases hproperties : upper p = propertiesToken
    · have hnone : (slotsOf before).properties = none := hfree _ propertiesToken_mem hproperties
      have hother : propertiesToken ≠ eventToken := Ne.symm eventToken_ne
      simp [hproperties, hnone, hother, tokens]
    · simp [hevent, hproperties, tokens]

/-- A parameter that repeats a word is refused. -/
theorem assign_repeated {raw : String} (htoken : token ∈ tokens) (hq : ∃ q ∈ before, Marks token q)
    (hp : Marks token p) :
    assign raw (slotsOf before) before.length (p :: rest) = .error (.duplicateToken raw token) := by
  have htaken : (before.findIdx? (upper · = token)).isSome = true := by
    obtain ⟨q, hmem, hmarks⟩ := hq
    rw [Option.isSome_iff_ne_none, ne_eq, findIdx?_eq_none_iff]
    exact fun hnone => hnone q hmem hmarks
  have hp : upper p = token := hp
  rw [assign]
  rcases mem_tokens_iff.1 htoken with rfl | rfl
  · rw [if_pos hp]
    exact if_pos htaken
  · rw [if_neg fun hevent => eventToken_ne (hevent.symm.trans hp), if_pos hp]
    exact if_pos htaken

/-- Each word marks once if it did before, and the last parameter repeats none. -/
theorem markedOnce_concat_iff : MarkedOnce (before ++ [p]) ↔
    MarkedOnce before ∧ ∀ token ∈ tokens, ∀ q ∈ before, Marks token q → ¬Marks token p := by
  simp only [MarkedOnce, List.pairwise_append, List.pairwise_singleton,
    List.mem_singleton, true_and, forall_eq]
  exact and_congr_right fun _ => ⟨fun h token htoken q hq => h q hq token htoken,
    fun h q hq token htoken => h token htoken q hq⟩

/-- Parameters in which no word comes again are given their places, whatever follows them. -/
theorem assign_append {raw : String} (h : MarkedOnce before) (rest : List String) :
    assign raw {} 0 (before ++ rest) = assign raw (slotsOf before) before.length rest := by
  -- from the last parameter on: what a step does depends on those before it
  induction before using List.reverseRecOn generalizing rest with
  | nil => rfl
  | append_singleton before p ih =>
      obtain ⟨hbefore, hp⟩ := markedOnce_concat_iff.1 h
      rw [List.append_assoc, List.singleton_append, ih hbefore, assign_step hp]

/-- Parameters that are marked once are given their slots. -/
theorem assign_of_markedOnce {raw : String} (h : MarkedOnce parameters) :
    assign raw {} 0 parameters = .ok (slotsOf parameters) := by
  have hassign := @assign_append _ raw h []
  rwa [List.append_nil] at hassign

/-- A word that is repeated first is the fault that is reported. -/
theorem assign_of_repeatsFirst {raw : String} (h : RepeatsFirst token parameters) :
    assign raw {} 0 parameters = .error (.duplicateToken raw token) := by
  obtain ⟨htoken, before, p, after, rfl, hbefore, hq, hp⟩ := h
  rw [assign_append hbefore, assign_repeated htoken hq hp]

/-- Either no word comes again, or one of them is the first to do so. -/
theorem markedOnce_or_repeatsFirst (parameters : List String) :
    MarkedOnce parameters ∨ ∃ token, RepeatsFirst token parameters := by
  induction parameters using List.reverseRecOn with
  | nil => exact .inl List.Pairwise.nil
  | append_singleton before p ih =>
      -- a word that has come again stays the first to do so, whatever follows
      rcases ih with hbefore | ⟨token, htoken, first, q, after, rfl, hfirst, hseen, hq⟩
      · by_cases hp : ∃ token ∈ tokens, (∃ q ∈ before, Marks token q) ∧ Marks token p
        · obtain ⟨token, htoken, hseen, hagain⟩ := hp
          exact .inr ⟨token, htoken, before, p, [], rfl, hbefore, hseen, hagain⟩
        · refine .inl (markedOnce_concat_iff.2 ⟨hbefore, fun token htoken q hq hmarks hagain => ?_⟩)
          exact hp ⟨token, htoken, ⟨q, hq, hmarks⟩, hagain⟩
      · exact .inr ⟨token, htoken, first, q, after ++ [p], by simp, hfirst, hseen, hq⟩

/-! ## Readings -/

/-- The text is written as a signature with this name and, inside its brackets, this parameter list;
the name has the parts `segments`, and none of them is empty. -/
structure HasForm (raw : String) (name : List Char) (segments : List (List Char))
    (inside : Option (List Char)) :
    Prop where
  written : IsWritten name inside raw.toList
  parts : AreSegments name segments
  complete : [] ∉ segments

/-- The text is written as a signature with these parameters. -/
def HasParameters (raw : String) (name : List Char) (segments : List (List Char))
    (parameters : List String) : Prop :=
  ∃ body, HasForm raw name segments (some body) ∧ AreParameters body parameters

/-- `placed name segments parameters` is the signature with these parameters. Where no parameter is
marked by a word, its place is behind all of them. -/
def placed (name : List Char) (segments : List (List Char)) (parameters : List String) :
    Signature where
  functionName := String.ofList name
  segments := segments.map String.ofList
  eventIndex := parameters.findIdx (upper · = eventToken)
  propertiesIndex := parameters.findIdx (upper · = propertiesToken)
  extraParameters := extrasOf parameters

/-- What a text is read as, with the conditions for each reading. -/
inductive Reads (raw : String) : Except SignatureError Signature → Prop where
  | empty (h : AllBlank raw.toList) : Reads raw (.error .empty)
  | malformed (hsome : ¬AllBlank raw.toList)
      (hnone : ∀ name segments inside, ¬HasForm raw name segments inside) :
      Reads raw (.error (.malformed raw))
  | bare {name : List Char} {segments : List (List Char)} (h : HasForm raw name segments none) :
      Reads raw (.ok ⟨String.ofList name, segments.map String.ofList, 0, 1, []⟩)
  | repeated {name : List Char} {segments : List (List Char)} {parameters : List String}
      {token : String}
      (h : HasParameters raw name segments parameters) (hrepeats : RepeatsFirst token parameters) :
      Reads raw (.error (.duplicateToken raw token))
  | eventless {name : List Char} {segments : List (List Char)} {parameters : List String}
      (h : HasParameters raw name segments parameters) (honce : MarkedOnce parameters)
      (hnone : ∀ p ∈ parameters, ¬Marks eventToken p) : Reads raw (.error (.missingEventName raw))
  | placed {name : List Char} {segments : List (List Char)} {parameters : List String}
      (h : HasParameters raw name segments parameters) (honce : MarkedOnce parameters)
      (hevent : ∃ p ∈ parameters, Marks eventToken p) :
      Reads raw (.ok (placed name segments parameters))

section Readings

variable {raw : String} {inside : Option (List Char)} {result : Except SignatureError Signature}

/-- Nothing is left of a text that is all blank. -/
theorem isEmpty_trim_iff : (trim raw).isEmpty = true ↔ AllBlank raw.toList := by
  rw [← trimChars_eq_nil_iff, trim, String.isEmpty_iff, ← String.toList_inj, String.toList_ofList]
  rfl

/-- What is written for a function is the name of one. -/
theorem IsWritten.isFunctionName (h : IsWritten name inside text) : IsFunctionName name := by
  cases h <;> assumption

/-- There is no closing bracket in a list of parameters. -/
theorem IsWritten.no_bracket (h : IsWritten name (some body) text) : ')' ∉ body := by
  cases h
  assumption

/-- What is written for a signature is not all blank. -/
theorem IsWritten.not_allBlank (h : IsWritten name inside text) : ¬AllBlank text := by
  intro hblank
  have hname : ∀ c ∈ name, c ∈ text := by cases h <;> simp +contextual
  have hform := h.isFunctionName
  obtain ⟨c, hc⟩ := List.exists_mem_of_ne_nil name hform.ne_nil
  have hother := isBlank_of_isNameChar (hform.chars c hc)
  rw [hblank c (hname c hc)] at hother
  cases hother

/-- A segment is empty if the empty one is among them. -/
theorem any_isEmpty_iff : segments.any (·.isEmpty) = true ↔ [] ∈ segments := by
  simp [List.isEmpty_iff]

/-- A text that has no form is malformed. -/
theorem read_of_formless (hsome : ¬AllBlank raw.toList)
    (hnone : ∀ name segments inside, ¬HasForm raw name segments inside) :
    read raw = .error (.malformed raw) := by
  rw [read, if_neg fun hempty => hsome (isEmpty_trim_iff.1 hempty)]
  split
  · rfl
  next name inside hshape =>
    have hwritten := shape?_eq_some_iff.1 hshape
    refine if_pos (any_isEmpty_iff.2 (by_contra fun hcomplete => ?_))
    exact hnone name _ inside ⟨hwritten, segmentsOf_eq_iff.1 rfl, hcomplete⟩

/-- What is made of the parts of a text that has the form of a signature. -/
theorem read_of_hasForm (h : HasForm raw name segments inside) : read raw =
    inside.elim (.ok ⟨String.ofList name, segments.map String.ofList, 0, 1, []⟩) fun body =>
      match assign raw {} 0 (parametersOf body) with
      | .error e => .error e
      | .ok slots =>
        match slots.event with
        | none => .error (.missingEventName raw)
        | some event =>
          .ok ⟨String.ofList name, segments.map String.ofList, event,
            slots.properties.getD (parametersOf body).length, slots.extras⟩ := by
  have hcomplete : ¬segments.any (·.isEmpty) = true :=
    fun hany => h.complete (any_isEmpty_iff.1 hany)
  rw [read, if_neg fun hempty => h.written.not_allBlank (isEmpty_trim_iff.1 hempty),
    shape?_eq_some_iff.2 h.written]
  simp only [segmentsOf_eq_iff.2 h.parts, if_neg hcomplete]
  cases inside <;> rfl

/-- Where parameters are marked once, the signature is read if one is marked as the event. -/
theorem read_of_markedOnce (h : HasParameters raw name segments parameters)
    (honce : MarkedOnce parameters) :
    read raw = if ∃ p ∈ parameters, Marks eventToken p then .ok (placed name segments parameters)
      else .error (.missingEventName raw) := by
  obtain ⟨body, hform, hparameters⟩ := h
  rw [read_of_hasForm hform]
  simp only [Option.elim_some, parametersOf_eq_iff.2 hparameters, assign_of_markedOnce honce]
  split
  next hnone =>
    have hnone := findIdx?_eq_none_iff.1 hnone
    rw [if_neg fun ⟨p, hp, hmarks⟩ => hnone p hp hmarks]
  next event hevent =>
    have hfound : parameters.findIdx? (upper · = eventToken) = some event := hevent
    have hmarked : ∃ p ∈ parameters, Marks eventToken p := by
      by_contra hnone
      rw [findIdx?_eq_none_iff.2 fun p hp hmarks => hnone ⟨p, hp, hmarks⟩] at hfound
      cases hfound
    rw [if_pos hmarked, placed, List.findIdx_eq_getD_findIdx?,
      List.findIdx_eq_getD_findIdx?, hfound]
    rfl

/-- Where a word is repeated, that is the fault. -/
theorem read_of_repeatsFirst (h : HasParameters raw name segments parameters)
    (hrepeats : RepeatsFirst token parameters) : read raw = .error (.duplicateToken raw token) := by
  obtain ⟨body, hform, hparameters⟩ := h
  rw [read_of_hasForm hform]
  simp only [Option.elim_some, parametersOf_eq_iff.2 hparameters, assign_of_repeatsFirst hrepeats]

/-- Each text has the reading whose conditions it meets. -/
theorem read_eq_iff : read raw = result ↔ Reads raw result := by
  constructor
  · rintro rfl
    by_cases hblank : AllBlank raw.toList
    · rw [read, if_pos (isEmpty_trim_iff.2 hblank)]
      exact .empty hblank
    by_cases hform : ∃ name segments inside, HasForm raw name segments inside
    · obtain ⟨name, segments, inside, hform⟩ := hform
      cases inside with
      | none =>
          rw [read_of_hasForm hform]
          exact .bare hform
      | some body =>
          have hparameters : HasParameters raw name segments (parametersOf body) :=
            ⟨body, hform, parametersOf_eq_iff.1 rfl⟩
          rcases markedOnce_or_repeatsFirst (parametersOf body) with honce | ⟨token, hrepeats⟩
          · rw [read_of_markedOnce hparameters honce]
            split
            next hevent => exact .placed hparameters honce hevent
            next hnone =>
              exact .eventless hparameters honce fun p hp hmarks => hnone ⟨p, hp, hmarks⟩
          · rw [read_of_repeatsFirst hparameters hrepeats]
            exact .repeated hparameters hrepeats
    · have hnone : ∀ name segments inside, ¬HasForm raw name segments inside :=
        fun name segments inside h => hform ⟨name, segments, inside, h⟩
      rw [read_of_formless hblank hnone]
      exact .malformed hblank hnone
  · intro h
    cases h with
    | empty h => rw [read, if_pos (isEmpty_trim_iff.2 h)]
    | malformed hsome hnone => exact read_of_formless hsome hnone
    | bare h => exact read_of_hasForm h
    | repeated h hrepeats => exact read_of_repeatsFirst h hrepeats
    | eventless h honce hnone =>
        rw [read_of_markedOnce h honce, if_neg fun ⟨p, hp, hmarks⟩ => hnone p hp hmarks]
    | placed h honce hevent => rw [read_of_markedOnce h honce, if_pos hevent]

end Readings

/-- A text is empty, malformed, a signature with a word that comes again or without an event name,
or a good signature, just as it is written; and a list of texts is read if each of them is a good
signature, or else as the first that is none. -/
theorem classified_signatures :
    (∀ raw,
      (read raw = .error .empty ↔ AllBlank raw.toList) ∧
      (∀ shown, read raw = .error (.malformed shown) ↔
        shown = raw ∧ ¬AllBlank raw.toList ∧
        ∀ name segments inside, ¬HasForm raw name segments inside) ∧
      (∀ shown token, read raw = .error (.duplicateToken shown token) ↔
        shown = raw ∧ ∃ name segments parameters, HasParameters raw name segments parameters ∧
          RepeatsFirst token parameters) ∧
      (∀ shown, read raw = .error (.missingEventName shown) ↔
        shown = raw ∧ ∃ name segments parameters, HasParameters raw name segments parameters ∧
          MarkedOnce parameters ∧ ∀ p ∈ parameters, ¬Marks eventToken p) ∧
      (∀ s, read raw = .ok s ↔
        (∃ name segments, HasForm raw name segments none ∧
          s = ⟨String.ofList name, segments.map String.ofList, 0, 1, []⟩) ∨
        ∃ name segments parameters, HasParameters raw name segments parameters ∧
          MarkedOnce parameters ∧
          (∃ p ∈ parameters, Marks eventToken p) ∧ s = placed name segments parameters)) ∧
    ∀ raws,
      ((∃ signatures, readAll raws = .ok signatures) ↔ AllRead read raws) ∧
      (∀ signatures, readAll raws = .ok signatures ↔
        List.Forall₂ (fun raw s => read raw = .ok s) raws signatures) ∧
      ∀ e, readAll raws = .error e ↔ FirstRefusal read raws e := by
  refine ⟨fun raw => ?_, fun raws =>
    ⟨exists_mapM_eq_ok_iff, fun _ => mapM_eq_ok_iff, fun _ => mapM_eq_error_iff⟩⟩
  simp only [read_eq_iff]
  refine ⟨⟨?_, .empty⟩, fun shown => ⟨?_, ?_⟩, fun shown token => ⟨?_, ?_⟩, fun shown => ⟨?_, ?_⟩,
    fun s => ⟨?_, ?_⟩⟩
  · rintro ⟨h⟩
    exact h
  · rintro ⟨⟩
    next hsome hnone => exact ⟨rfl, hsome, hnone⟩
  · rintro ⟨rfl, hsome, hnone⟩
    exact .malformed hsome hnone
  · rintro ⟨⟩
    next name segments parameters h hrepeats => exact ⟨rfl, name, segments, parameters, h, hrepeats⟩
  · rintro ⟨rfl, name, segments, parameters, h, hrepeats⟩
    exact .repeated h hrepeats
  · rintro ⟨⟩
    next name segments parameters h honce hnone =>
      exact ⟨rfl, name, segments, parameters, h, honce, hnone⟩
  · rintro ⟨rfl, name, segments, parameters, h, honce, hnone⟩
    exact .eventless h honce hnone
  · intro h
    cases h with
    | bare h => exact .inl ⟨_, _, h, rfl⟩
    | placed h honce hevent => exact .inr ⟨_, _, _, h, honce, hevent, rfl⟩
  · rintro (⟨name, segments, h, rfl⟩ | ⟨name, segments, parameters, h, honce, hevent, rfl⟩)
    · exact .bare h
    · exact .placed h honce hevent

end TrackingPlan.Signature
