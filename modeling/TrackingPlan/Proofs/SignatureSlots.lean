import TrackingPlan.Proofs.SignatureForms

/-!
# The slots of signatures

A signature keeps where its parameters stand: the event name, the properties and each of the others.
`sorted_places` puts them back into the list that they were read from, to which a name alone and a
list without properties come down as well (`exists_complete`). `complete_slots` is the main
statement: the slots are numbered without gaps, and a signature that is written out from them is
read back.
-/

namespace TrackingPlan.Signature

open Text

variable {raw p text token : String} {parameters : List String} {name body : List Char}
  {segments : List (List Char)} {s : Signature} {i : Nat}

/-- `places s` lists the parameters of `s` with their slots. -/
def places (s : Signature) : List (String × Nat) :=
  (eventToken, s.eventIndex) :: (propertiesToken, s.propertiesIndex) ::
    s.extraParameters.map fun extra => (extra.name, extra.index)

/-- `written s` writes `s` out, with its parameters in the order of their slots. -/
def written (s : Signature) : String :=
  s.functionName ++ "(" ++ ", ".intercalate ((s.places.mergeSort fun a b => a.2 ≤ b.2).map (·.1)) ++
    ")"

/-! ## Items between commas -/

/-- Texts that stand between the commas of a parameter list as they are. -/
structure IsItem (p : String) : Prop where
  ne_empty : p ≠ ""
  trimmed : IsTrimmed p.toList p.toList
  no_comma : ',' ∉ p.toList
  no_bracket : ')' ∉ p.toList

/-- The words that mark are parameters themselves. -/
theorem isItem_of_mem_tokens (h : token ∈ tokens) : IsItem token := by
  rcases mem_tokens_iff.1 h with rfl | rfl
  · exact ⟨by decide, trimChars_eq_iff.1 (by decide), by decide, by decide⟩
  · exact ⟨by decide, trimChars_eq_iff.1 (by decide), by decide, by decide⟩

/-- What is read between commas, inside brackets, are items. -/
theorem AreParameters.isItem (h : AreParameters body parameters) (hbody : ')' ∉ body)
    (hp : p ∈ parameters) :
    IsItem p := by
  obtain ⟨pieces, inner, hpieces, htrimmed, rfl⟩ := h
  obtain ⟨part, hpart, rfl⟩ := List.mem_map.1 hp
  obtain ⟨hmem, hsome⟩ := List.mem_filter.1 hpart
  obtain ⟨piece, hpiece, hinner⟩ := htrimmed.exists_left hmem
  have hcomma : ',' ∉ piece := by
    simpa [List.singleton_infix_iff] using hpieces.not_isInfix_of_mem hpiece
  refine ⟨by simpa [String.ofList_eq_empty_iff] using hsome, by simpa using hinner.trimmed, ?_, ?_⟩
  · simpa using fun hmem => hcomma (hinner.isInfix.subset hmem)
  · simpa using fun hmem =>
      hbody ((hpieces.isInfix_of_mem hpiece).subset (hinner.isInfix.subset hmem))

/-- Items that are joined by a comma and a blank are the pieces between the commas, the later ones
behind a blank. -/
theorem exists_split_intercalate (hne : parameters ≠ []) (h : ∀ p ∈ parameters, IsItem p) :
    ∃ pieces, IsSplit [','] (", ".intercalate parameters).toList pieces ∧
      List.Forall₂ IsTrimmed pieces (parameters.map String.toList) := by
  induction parameters with
  | nil => exact absurd rfl hne
  | cons p rest ih =>
      obtain ⟨hp, hrest⟩ := List.forall_mem_cons.1 h
      have hnone : ¬[','] <:+: p.toList := by simpa [List.singleton_infix_iff] using hp.no_comma
      cases rest with
      | nil =>
          rw [String.intercalate_singleton]
          exact ⟨[p.toList], .last hnone, .cons hp.trimmed .nil⟩
      | cons q rest =>
          obtain ⟨pieces, hpieces, htrimmed⟩ := ih (List.cons_ne_nil q rest) hrest
          cases htrimmed with
          | @cons piece _ others _ hpiece hothers =>
              have hblank := hpieces.cons (c := ' ') (by simp)
              have hmore := @IsSplit.more [','] p.toList _ _ (by simpa using hnone) hblank
              -- the blank behind the comma belongs to the next piece, from which it is trimmed
              have hsecond := hpiece.cons (c := ' ') (by decide)
              refine ⟨p.toList :: (' ' :: piece) :: others, ?_,
                .cons hp.trimmed (.cons hsecond hothers)⟩
              rw [String.intercalate_cons_cons]
              simpa using hmore

/-- Parameters that are joined by commas are read back. -/
theorem areParameters_intercalate (hne : parameters ≠ []) (h : ∀ p ∈ parameters, IsItem p) :
    AreParameters (", ".intercalate parameters).toList parameters := by
  obtain ⟨pieces, hpieces, htrimmed⟩ := exists_split_intercalate hne h
  refine ⟨pieces, _, hpieces, htrimmed, ?_⟩
  have hall : ∀ part ∈ parameters.map String.toList, decide (part ≠ []) = true := by
    intro part hpart
    obtain ⟨p, hp, rfl⟩ := List.mem_map.1 hpart
    simpa using (h p hp).ne_empty
  rw [List.filter_eq_self.2 hall, List.map_map]
  simp

/-! ## Parameters and their slots -/

/-- The parameters of a signature: each of them is an item, and each word marks one of them and no
other. -/
structure IsComplete (parameters : List String) : Prop where
  items : ∀ p ∈ parameters, IsItem p
  once : MarkedOnce parameters
  marked : ∀ token ∈ tokens, ∃ p ∈ parameters, Marks token p

/-- `spelled p` is the parameter `p`, where a word is in upper case. -/
def spelled (p : String) : String :=
  if upper p ∈ tokens then upper p else p

/-- A parameter that a word marks is written as the word. -/
theorem spelled_of_marks (htoken : token ∈ tokens) (h : Marks token p) : spelled p = token := by
  have hupper : upper p = token := h
  rw [spelled, hupper, if_pos htoken]

/-- A parameter is written with the same capitals as it has. -/
theorem upper_spelled (p : String) : upper (spelled p) = upper p := by
  by_cases hp : upper p ∈ tokens
  · rw [spelled_of_marks hp rfl]
    rcases mem_tokens_iff.1 hp with htoken | htoken
    · rw [htoken]
      decide
    · rw [htoken]
      decide
  · rw [spelled, if_neg hp]

/-- Complete parameters are complete as they are written. -/
theorem IsComplete.map_spelled (h : IsComplete parameters) :
    IsComplete (parameters.map spelled) where
  items := by
    refine List.forall_mem_map.2 fun p hp => ?_
    by_cases htoken : upper p ∈ tokens
    · rw [spelled_of_marks htoken rfl]
      exact isItem_of_mem_tokens htoken
    · rw [spelled, if_neg htoken]
      exact h.items p hp
  once := by
    have hspelled := h.once
    simp only [MarkedOnce, Marks, List.pairwise_map, upper_spelled] at hspelled ⊢
    exact hspelled
  marked token htoken := by
    obtain ⟨p, hp, hmarks⟩ := h.marked token htoken
    exact ⟨spelled p, List.mem_map_of_mem hp, (upper_spelled p).trans hmarks⟩

/-- Spelling words in upper case moves no slot. -/
theorem placed_map_spelled (name : List Char) (segments : List (List Char))
    (parameters : List String) :
    placed name segments (parameters.map spelled) = placed name segments parameters := by
  have hextras : extrasOf (parameters.map spelled) = extrasOf parameters := by
    rw [extrasOf, extrasOf, List.zipIdx_map, List.filter_map, List.map_map]
    simp only [Function.comp_def, Prod.map_fst, Prod.map_snd, upper_spelled, id_eq]
    refine List.map_congr_left fun entry hentry => ?_
    have hfree : upper entry.1 ∉ tokens := by simpa using (List.mem_filter.1 hentry).2
    rw [spelled, if_neg hfree]
  rw [placed, placed, List.findIdx_map, List.findIdx_map, hextras]
  simp only [Function.comp_def, upper_spelled]

/-- The slot of a word is where the parameter stands that it marks. -/
theorem findIdx_eq_iff (h : IsComplete parameters) (htoken : token ∈ tokens) :
    parameters.findIdx (upper · = token) = i ↔ ∃ p, parameters[i]? = some p ∧ Marks token p := by
  constructor
  · rintro rfl
    obtain ⟨p, hp, hmarks⟩ := h.marked token htoken
    have hlt : parameters.findIdx (upper · = token) < parameters.length :=
      List.findIdx_lt_length_of_exists ⟨p, hp, decide_eq_true hmarks⟩
    have hfound := @List.findIdx_getElem _ _ _ hlt
    exact ⟨_, List.getElem?_eq_getElem hlt, of_decide_eq_true hfound⟩
  · rintro ⟨p, hp, hmarks⟩
    obtain ⟨hi, rfl⟩ := List.getElem?_eq_some_iff.1 hp
    refine (List.findIdx_eq hi).2 ⟨decide_eq_true hmarks, fun j hj => ?_⟩
    -- an earlier parameter with the same word would make this one the second
    have honce := List.pairwise_iff_getElem.1 h.once j i (hj.trans hi) hi hj token htoken
    exact decide_eq_false fun hagain => honce hagain hmarks

/-- The extra parameters are those that no word marks, at their places. -/
theorem mem_extrasOf_iff {extra : ExtraParameter} :
    extra ∈ extrasOf parameters ↔ parameters[extra.index]? = some extra.name ∧
    upper extra.name ∉ tokens := by
  simp only [extrasOf, List.mem_map, List.mem_filter, List.mem_zipIdx_iff_getElem?,
    decide_eq_true_eq]
  constructor
  · rintro ⟨entry, hentry, rfl⟩
    exact hentry
  · exact fun h => ⟨(extra.name, extra.index), h, rfl⟩

/-- The slots hold the parameters, each at its place. -/
theorem mem_places_iff (h : IsComplete parameters) :
    (text, i) ∈ (placed name segments parameters).places ↔
      (text, i) ∈ (parameters.map spelled).zipIdx := by
  rw [List.mk_mem_zipIdx_iff_getElem?, List.getElem?_map, Option.map_eq_some_iff]
  simp only [places, placed, List.mem_cons, List.mem_map, Prod.mk.injEq]
  constructor
  · rintro (⟨rfl, rfl⟩ | ⟨rfl, rfl⟩ | ⟨extra, hextra, rfl, rfl⟩)
    · obtain ⟨p, hp, hmarks⟩ := (findIdx_eq_iff h eventToken_mem).1 rfl
      exact ⟨p, hp, spelled_of_marks eventToken_mem hmarks⟩
    · obtain ⟨p, hp, hmarks⟩ := (findIdx_eq_iff h propertiesToken_mem).1 rfl
      exact ⟨p, hp, spelled_of_marks propertiesToken_mem hmarks⟩
    · obtain ⟨hp, hfree⟩ := mem_extrasOf_iff.1 hextra
      exact ⟨extra.name, hp, if_neg hfree⟩
  · rintro ⟨p, hp, rfl⟩
    -- a word stands in its own slot, and everything else is an extra parameter
    by_cases htoken : upper p ∈ tokens
    · have hslot := ((findIdx_eq_iff h htoken).2 ⟨p, hp, rfl⟩).symm
      rw [spelled_of_marks htoken rfl]
      rcases mem_tokens_iff.1 htoken with hevent | hproperties
      · exact .inl ⟨hevent, hevent ▸ hslot⟩
      · exact .inr (.inl ⟨hproperties, hproperties ▸ hslot⟩)
    · exact .inr (.inr ⟨⟨i, p⟩, mem_extrasOf_iff.2 ⟨hp, htoken⟩, (if_neg htoken).symm, rfl⟩)

/-- The extra parameters come in the order of their places. -/
theorem pairwise_lt_extrasOf (parameters : List String) :
    (extrasOf parameters).Pairwise fun a b => a.index < b.index :=
  List.pairwise_map.2 ((List.pairwise_lt_zipIdx parameters).filter _)

/-- No place of a signature is listed twice. -/
theorem nodup_places (parameters : List String) :
    (placed name segments parameters).places.Nodup := by
  have hextras : ((extrasOf parameters).map fun extra => (extra.name, extra.index)).Nodup :=
    List.pairwise_map.2 ((pairwise_lt_extrasOf parameters).imp fun hlt heq =>
      hlt.ne (Prod.mk.inj heq).2)
  have hfree : ∀ token ∈ tokens, ∀ i,
      (token, i) ∉ (extrasOf parameters).map fun extra => (extra.name, extra.index) := by
    intro token htoken i hmem
    obtain ⟨extra, hextra, heq⟩ := List.mem_map.1 hmem
    obtain ⟨rfl, rfl⟩ := Prod.mk.inj heq
    refine (mem_extrasOf_iff.1 hextra).2 ?_
    rcases mem_tokens_iff.1 htoken with hname | hname
    · rw [hname]
      decide
    · rw [hname]
      decide
  refine List.nodup_cons.2 ⟨fun hmem =>
    ?_, List.nodup_cons.2 ⟨hfree _ propertiesToken_mem _, hextras⟩⟩
  rcases List.mem_cons.1 hmem with heq | hmem
  · exact eventToken_ne (Prod.mk.inj heq).1
  · exact hfree _ eventToken_mem _ hmem

/-- The places of a complete signature are those of its parameters. -/
theorem places_perm (h : IsComplete parameters) :
    (placed name segments parameters).places.Perm (parameters.map spelled).zipIdx := by
  have hnodup : (parameters.map spelled).zipIdx.Nodup :=
    (List.pairwise_lt_zipIdx _).imp fun hlt heq => hlt.ne (congrArg Prod.snd heq)
  exact (List.perm_ext_iff_of_nodup (nodup_places parameters) hnodup).2 fun _ => mem_places_iff h

/-- In the order of their slots, the parameters are the list that they were read from. -/
theorem sorted_places (h : IsComplete parameters) :
    ((placed name segments parameters).places.mergeSort fun a b => a.2 ≤ b.2) =
      (parameters.map spelled).zipIdx :=
  List.mergeSort_eq_of_perm (places_perm h) (List.pairwise_lt_zipIdx _)

/-- The slots are numbered from nothing on without gaps. -/
theorem slots_perm (h : IsComplete parameters) :
    ((placed name segments parameters).places.map (·.2)).Perm
    (List.range ((placed name segments parameters).extraParameters.length + 2)) := by
  have hperm := @places_perm parameters name segments h
  have hlength : (parameters.map spelled).length =
      (placed name segments parameters).extraParameters.length + 2 := by
    rw [← List.length_zipIdx, ← hperm.length_eq, places, List.length_cons, List.length_cons,
      List.length_map]
  rw [List.range_eq_range', ← hlength, ← List.zipIdx_map_snd]
  exact hperm.map _

/-! ## Writing signatures out -/

/-- A word marks itself. -/
theorem marks_self (h : token ∈ tokens) : Marks token token := by
  rcases mem_tokens_iff.1 h with rfl | rfl
  · decide
  · decide

/-- The two words are the parameters of a name alone. -/
theorem isComplete_tokens : IsComplete tokens where
  items _ := isItem_of_mem_tokens
  once := by
    unfold MarkedOnce
    decide
  marked token htoken := ⟨token, htoken, marks_self htoken⟩

/-- Where no parameter is marked as the properties, they can stand behind the others. -/
theorem isComplete_concat (hitems : ∀ p ∈ parameters, IsItem p) (honce : MarkedOnce parameters)
    (hevent : ∃ p ∈ parameters, Marks eventToken p)
    (hnone : ∀ p ∈ parameters, ¬Marks propertiesToken p) :
    IsComplete (parameters ++ [propertiesToken]) where
  items := List.forall_mem_append.2
    ⟨hitems, List.forall_mem_singleton.2 (isItem_of_mem_tokens (by decide))⟩
  once := by
    refine markedOnce_concat_iff.2 ⟨honce, fun token htoken q hq hmarks hagain => ?_⟩
    rcases mem_tokens_iff.1 htoken with rfl | rfl
    · exact absurd hagain (by decide)
    · exact hnone q hq hmarks
  marked token htoken := by
    rcases mem_tokens_iff.1 htoken with rfl | rfl
    · obtain ⟨p, hp, hmarks⟩ := hevent
      exact ⟨p, List.mem_append_left _ hp, hmarks⟩
    · exact ⟨propertiesToken, List.mem_append_right _ (List.mem_singleton_self _),
        marks_self htoken⟩

/-- Properties at the end have the place that they have when they are left out. -/
theorem placed_concat (hevent : ∃ p ∈ parameters, Marks eventToken p)
    (hnone : ∀ p ∈ parameters, ¬Marks propertiesToken p) :
    placed name segments (parameters ++ [propertiesToken]) = placed name segments parameters := by
  have hfound : parameters.findIdx (upper · = eventToken) < parameters.length := by
    obtain ⟨p, hp, hmarks⟩ := hevent
    exact List.findIdx_lt_length_of_exists ⟨p, hp, decide_eq_true hmarks⟩
  have hbehind : parameters.findIdx (upper · = propertiesToken) = parameters.length :=
    List.findIdx_eq_length.2 fun p hp => decide_eq_false (hnone p hp)
  have hword : upper propertiesToken = propertiesToken := marks_self propertiesToken_mem
  rw [placed, placed, List.findIdx_append, if_pos hfound, List.findIdx_append, hbehind,
    if_neg (lt_irrefl _),
    List.findIdx_cons, hword, decide_eq_true rfl, cond_true, Nat.zero_add, extrasOf_concat, hword,
    if_pos propertiesToken_mem, List.append_nil]

/-- Every signature that is read has its slots from a list of parameters. -/
theorem exists_complete (h : read raw = .ok s) : ∃ name segments parameters, IsFunctionName name ∧
    AreSegments name segments ∧ [] ∉ segments ∧ IsComplete parameters ∧
    s = placed name segments parameters := by
  cases read_eq_iff.1 h with
  | @bare name segments hform =>
      exact ⟨name, segments, tokens, hform.written.isFunctionName, hform.parts, hform.complete,
        isComplete_tokens, rfl⟩
  | @placed name segments parameters hparameters honce hevent =>
      obtain ⟨body, hform, hparameters⟩ := hparameters
      have hitems : ∀ p ∈ parameters, IsItem p :=
        fun p => hparameters.isItem hform.written.no_bracket
      by_cases hproperties : ∃ p ∈ parameters, Marks propertiesToken p
      · have hmarked : ∀ token ∈ tokens, ∃ p ∈ parameters, Marks token p := by
          intro token htoken
          rcases mem_tokens_iff.1 htoken with rfl | rfl
          · exact hevent
          · exact hproperties
        exact ⟨name, segments, parameters, hform.written.isFunctionName, hform.parts,
          hform.complete, ⟨hitems, honce, hmarked⟩, rfl⟩
      · -- the reader assumes the properties where the next parameter would stand
        have hnone : ∀ p ∈ parameters, ¬Marks propertiesToken p :=
          fun p hp hmarks => hproperties ⟨p, hp, hmarks⟩
        exact ⟨name, segments, _, hform.written.isFunctionName, hform.parts, hform.complete,
          isComplete_concat hitems honce hevent hnone, (placed_concat hevent hnone).symm⟩

/-- A complete signature is written as its name, with its parameters in brackets. -/
theorem written_placed (h : IsComplete parameters) : (placed name segments parameters).written =
    String.ofList name ++ "(" ++ ", ".intercalate (parameters.map spelled) ++ ")" := by
  rw [written, sorted_places h, List.zipIdx_map_fst]
  rfl

/-- There is no closing bracket among joined parameters. -/
theorem no_bracket_intercalate (h : ∀ p ∈ parameters, IsItem p) :
    ')' ∉ (", ".intercalate parameters).toList := by
  induction parameters with
  | nil => decide
  | cons p rest ih =>
      obtain ⟨hp, hrest⟩ := List.forall_mem_cons.1 h
      cases rest with
      | nil => simpa using hp.no_bracket
      | cons q rest =>
          rw [String.intercalate_cons_cons]
          simpa [hp.no_bracket] using ih hrest

/-- A signature that is written out has the parameters in its slots, with their words in upper
case. -/
theorem hasParameters_written (hname : IsFunctionName name) (hsegments : AreSegments name segments)
    (hcomplete : [] ∉ segments) (h : IsComplete parameters) :
    HasParameters (placed name segments parameters).written name segments
      (parameters.map spelled) := by
  have hitems := h.map_spelled.items
  have hne : parameters.map spelled ≠ [] := by
    obtain ⟨p, hp, -⟩ := h.map_spelled.marked eventToken eventToken_mem
    exact List.ne_nil_of_mem hp
  refine ⟨_, ⟨?_, hsegments, hcomplete⟩, areParameters_intercalate hne hitems⟩
  have hwritten := IsWritten.list (List.forall_mem_nil _) hname (List.forall_mem_nil _)
    (no_bracket_intercalate hitems) (List.forall_mem_nil _)
  rw [written_placed h]
  simpa using hwritten

/-- The slots of a signature that has been read are all different and numbered from nothing on
without gaps; the extra parameters come in the order of their slots, and none is a word; and the
signature, written out, is read back. -/
theorem complete_slots (h : read raw = .ok s) :
    ((s.places.map (·.2)).Nodup ∧ ∀ i, i ∈ s.places.map (·.2) ↔ i ≤ 1 + s.extraParameters.length) ∧
    s.extraParameters.Pairwise (fun a b => a.index < b.index) ∧
    (∀ extra ∈ s.extraParameters, IsItem extra.name ∧ ∀ token ∈ tokens, ¬Marks token extra.name) ∧
    read s.written = .ok s := by
  obtain ⟨name, segments, parameters, hname, hsegments, hcomplete, hparameters, rfl⟩ :=
    exists_complete h
  have hslots := @slots_perm parameters name segments hparameters
  refine ⟨⟨hslots.nodup_iff.2 List.nodup_range, fun i => ?_⟩, pairwise_lt_extrasOf parameters,
    fun extra hextra => ?_, ?_⟩
  · rw [hslots.mem_iff, List.mem_range]
    omega
  · obtain ⟨hplace, hfree⟩ := mem_extrasOf_iff.1 hextra
    refine ⟨hparameters.items _ (List.mem_of_getElem? hplace), fun token htoken hmarks => hfree ?_⟩
    exact hmarks.symm ▸ htoken
  · have hwritten := hasParameters_written hname hsegments hcomplete hparameters
    have hspelled := hparameters.map_spelled
    have hread := Reads.placed hwritten hspelled.once (hspelled.marked eventToken eventToken_mem)
    -- only the letter case of words is another than that of the parameters
    rw [placed_map_spelled] at hread
    exact read_eq_iff.2 hread

/-- A signature that leaves out the properties has them last, and is read back as it is written. -/
theorem complete_slots_of_omitted_properties : ∃ s, read "log( user, event_name , ctx)" = .ok s ∧
    s.places.map (·.2) = [1, 3, 0, 2] ∧ s.written = "log(user, EVENT_NAME, ctx, PROPERTIES)" ∧
    read s.written = .ok s := by
  refine ⟨⟨"log", ["log"], 1, 3, [⟨0, "user"⟩, ⟨2, "ctx"⟩]⟩, ?_, rfl, ?_, ?_⟩
  · decide +kernel
  · cbv
  · exact (complete_slots (by decide +kernel : read "log( user, event_name , ctx)" = _)).2.2.2

end TrackingPlan.Signature
