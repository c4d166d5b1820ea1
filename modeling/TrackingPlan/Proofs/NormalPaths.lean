import TrackingPlan.Proofs.Directories

/-!
# Normal paths

The components of a normal path start with the root or go up, and then name one place below the
other. `components_normalize` says that normalized paths are normal, and
`components_normalize_of_isNormal` that to normalize a normal path changes no component. A path
stays normal when its last name gets an ending (`IsNormal.append_ending`), when one ending takes the
place of another (`IsNormal.replace_ending`), and when a name follows (`IsNormal.append_slash`).
-/

namespace TrackingPlan.Path

variable {p : Path} {cs stack : List Component} {c : Component} {name text ending other : String}

/-! ## Normal components -/

/-- The components start with the root or go up, and then name one place below the other. -/
def IsNormal (cs : List Component) : Prop :=
  ∃ (start : List Component) (names : List String),
    (start = [.root] ∨ ∃ levels, start = List.replicate levels .parent) ∧
    cs = start ++ names.map .normal

/-- A name behind normal components leaves them normal. -/
theorem IsNormal.append_name (h : IsNormal cs) (name : String) :
    IsNormal (cs ++ [.normal name]) := by
  obtain ⟨start, names, hstart, rfl⟩ := h
  exact ⟨start, names ++ [name], hstart, by simp⟩

/-- The start of normal components is normal. -/
theorem IsNormal.of_prefix {before : List Component} (h : IsNormal cs) (hbefore : before <+: cs) :
    IsNormal before := by
  obtain ⟨start, names, hstart, rfl⟩ := h
  rw [List.prefix_iff_eq_take, List.take_append, ← List.map_take] at hbefore
  refine ⟨start.take before.length, _, ?_, hbefore⟩
  rcases hstart with rfl | ⟨levels, rfl⟩
  · cases before.length with
    | zero => exact .inr ⟨0, rfl⟩
    | succ length => exact .inl (by simp)
  · exact .inr ⟨_, List.take_replicate⟩

/-- `normalized cs` resolves the dots among the components `cs`. -/
def normalized (cs : List Component) : List Component := (cs.foldl normalizeStep []).reverse

/-- A step up from nothing but steps up is one of them more. -/
theorem normalizeStep_parent_replicate (levels : Nat) :
    normalizeStep (List.replicate levels .parent) .parent =
      List.replicate (levels + 1) .parent := by
  cases levels <;> simp [normalizeStep, List.replicate_succ]

/-- One more component leaves normal components normal, if it is no root behind others. -/
theorem IsNormal.step (h : IsNormal stack.reverse) (hroot : c = .root → stack = []) :
    IsNormal (normalizeStep stack c).reverse := by
  obtain ⟨start, names, hstart, hstack⟩ := h
  cases c with
  | root =>
      rw [hroot rfl]
      exact ⟨[.root], [], .inl rfl, rfl⟩
  | current => exact ⟨start, names, hstart, hstack⟩
  | normal name =>
      refine ⟨start, names ++ [name], hstart, ?_⟩
      simp [normalizeStep, hstack]
  | parent =>
      rcases List.eq_nil_or_concat' names with rfl | ⟨above, last, rfl⟩
      · obtain rfl : stack = start.reverse := by simpa using congrArg List.reverse hstack
        rcases hstart with rfl | ⟨levels, rfl⟩
        · exact ⟨[.root], [], .inl rfl, rfl⟩
        · rw [List.reverse_replicate, normalizeStep_parent_replicate]
          exact ⟨_, [], .inr ⟨levels + 1, rfl⟩, by simp⟩
      · obtain rfl : stack = .normal last :: (start ++ above.map Component.normal).reverse := by
          simpa using congrArg List.reverse hstack
        exact ⟨start, above, hstart, by simp [normalizeStep]⟩

/-- Components are put on a normal stack so that it stays normal. -/
theorem IsNormal.foldl (h : IsNormal stack.reverse) (hroot : .root ∉ cs) :
    IsNormal (cs.foldl normalizeStep stack).reverse := by
  induction cs generalizing stack with
  | nil => exact h
  | cons c rest ih =>
      have hfirst : .root ≠ c := List.ne_of_not_mem_cons hroot
      exact ih (h.step fun hc => absurd hc.symm hfirst) (List.not_mem_of_not_mem_cons hroot)

/-- No components are normal. -/
theorem isNormal_nil : IsNormal [] := ⟨[], [], .inr ⟨0, rfl⟩, rfl⟩

/-- The normalized components of a path are normal. -/
theorem isNormal_normalized (p : Path) : IsNormal (normalized p.components) := by
  obtain ⟨start, hcomponents, hstart⟩ := components_eq_append p
  rw [normalized, hcomponents, List.foldl_append]
  refine IsNormal.foldl ?_ (root_not_mem_moves p.pieces)
  rcases hstart with ⟨-, rfl⟩ | ⟨-, rfl | rfl⟩
  · exact ⟨[.root], [], .inl rfl, rfl⟩
  · exact isNormal_nil
  · exact isNormal_nil

/-- Names are put on the stack one by one. -/
theorem foldl_names (names : List String) (stack : List Component) :
    (names.map .normal).foldl normalizeStep stack = (names.map .normal).reverse ++ stack := by
  induction names generalizing stack with
  | nil => rfl
  | cons name rest ih =>
      rw [List.map_cons, List.foldl_cons, ih]
      simp [normalizeStep]

/-- Normal components have no dots to resolve. -/
theorem IsNormal.normalized_eq (h : IsNormal cs) : normalized cs = cs := by
  obtain ⟨start, names, hstart, rfl⟩ := h
  have hfold : start.foldl normalizeStep [] = start.reverse := by
    rcases hstart with rfl | ⟨levels, rfl⟩
    · rfl
    · induction levels with
      | zero => rfl
      | succ levels ih =>
          rw [List.replicate_succ', List.foldl_append, ih, List.reverse_replicate, List.foldl_cons,
            List.foldl_nil, normalizeStep_parent_replicate, ← List.replicate_succ',
            List.reverse_replicate]
  rw [normalized, List.foldl_append, hfold, foldl_names]
  simp

/-! ## Spellings of normal components -/

/-- What is on the stack was there, is one of the components, or is a step up. -/
theorem mem_foldl_normalizeStep (h : c ∈ cs.foldl normalizeStep stack) :
    c ∈ stack ∨ c ∈ cs ∨ c = .parent := by
  induction cs generalizing stack with
  | nil => exact .inl h
  | cons first rest ih =>
      rcases ih h with hstep | hrest | hparent
      · have hkept : c ∈ stack ∨ c = first ∨ c = .parent := by
          unfold normalizeStep at hstep
          split at hstep
          · exact .inl hstep
          · split at hstep
            · exact .inl (List.mem_cons_of_mem _ hstep)
            · split at hstep
              · exact .inl hstep
              · exact (List.mem_cons.1 hstep).elim (fun h => .inr (.inr h)) .inl
          · exact (List.mem_cons.1 hstep).elim (fun h => .inr (.inl h)) .inl
        rcases hkept with hmem | rfl | hparent
        · exact .inl hmem
        · exact .inr (.inl List.mem_cons_self)
        · exact .inr (.inr hparent)
      · exact .inr (.inl (List.mem_cons_of_mem _ hrest))
      · exact .inr (.inr hparent)

/-- The names of a path are those of entries of directories. -/
theorem isName_of_mem_components (h : .normal name ∈ p.components) : IsName name := by
  obtain ⟨start, hcomponents, hstart⟩ := components_eq_append p
  have hmem : .normal name ∈ p.pieces.filterMap component? := by
    rw [hcomponents] at h
    rcases hstart with ⟨-, rfl⟩ | ⟨-, rfl | rfl⟩ <;> simpa using h
  obtain ⟨piece, hpiece, hname⟩ := List.mem_filterMap.1 hmem
  obtain rfl : name = piece := text_of_component? hname
  refine ⟨?_, ?_, ?_, no_slash_of_mem_pieces hpiece⟩ <;>
    · intro heq
      rw [heq] at hname
      exact absurd hname (by decide)

/-- The names among normalized components are those of the path. -/
theorem isName_of_mem_normalized (h : .normal name ∈ normalized p.components) : IsName name := by
  rcases mem_foldl_normalizeStep (List.mem_reverse.1 h) with hnil | hmem | hparent
  · cases hnil
  · exact isName_of_mem_components hmem
  · cases hparent

/-- What spells a component that goes on is read as that component. -/
theorem filterMap_map_text (h : ∀ c ∈ cs, c = .parent ∨ ∃ name, IsName name ∧ c = .normal name) :
    (cs.map Component.text).filterMap component? = cs := by
  induction cs with
  | nil => rfl
  | cons c rest ih =>
      have hfirst : component? c.text = some c := by
        rcases h c List.mem_cons_self with rfl | ⟨name, hname, rfl⟩
        · rfl
        · exact hname.component?_eq
      have hrest := ih fun other hother => h other (List.mem_cons_of_mem c hother)
      rw [List.map_cons, List.filterMap_cons_some hfirst, hrest]

/-- The texts of steps up and names hold no slash. -/
theorem no_slash_of_mem_map_text (h : ∀ c ∈ cs, c = .parent ∨ ∃ name, IsName name ∧
    c = .normal name) :
    ∀ piece ∈ cs.map Component.text, '/' ∉ piece.toList := by
  intro piece hpiece
  obtain ⟨c, hc, rfl⟩ := List.mem_map.1 hpiece
  rcases h c hc with rfl | ⟨name, hname, rfl⟩
  · decide
  · exact hname.no_slash

/-- A path from the root is read as it is spelled. -/
theorem components_spelled_root (h : ∀ c ∈ cs, c = .parent ∨ ∃ name, IsName name ∧
    c = .normal name) :
    (ofComponents (.root :: cs)).components = .root :: cs := by
  cases cs with
  | nil => cbv
  | cons c rest =>
      have htext : "/" ++ "/".intercalate ((c :: rest).map Component.text) =
          "/".intercalate ("" :: (c :: rest).map Component.text) := by
        rw [String.intercalate_cons_of_ne_nil (by simp)]
        simp
      have hpieces : (Path.mk ("/".intercalate ("" :: (c :: rest).map Component.text))).pieces =
          "" :: (c :: rest).map Component.text := by
        refine pieces_intercalate_of_no_slash (List.cons_ne_nil _ _) fun piece hpiece => ?_
        rcases List.mem_cons.1 hpiece with rfl | hmem
        · decide
        · exact no_slash_of_mem_map_text h piece hmem
      rw [ofComponents, htext, components_of_pieces hpieces,
        isAbsolute_iff_pieces.2 ⟨_, _, hpieces⟩, filterMap_map_text h]
      rfl

/-- A path that goes on from anywhere is read as it is spelled. -/
theorem components_spelled (h : ∀ c ∈ cs, c = .parent ∨ ∃ name, IsName name ∧ c = .normal name) :
    (ofComponents cs).components = cs := by
  cases cs with
  | nil => cbv
  | cons c rest =>
      have hspelled :
          ofComponents (c :: rest) = ⟨"/".intercalate ((c :: rest).map Component.text)⟩ := by
        rcases h c List.mem_cons_self with rfl | ⟨name, -, rfl⟩ <;> rfl
      have hpieces := pieces_intercalate_of_no_slash (by simp) (no_slash_of_mem_map_text h)
      have hfirst : c.text ≠ "" ∧ c.text ≠ "." := by
        rcases h c List.mem_cons_self with rfl | ⟨name, hname, rfl⟩
        · decide
        · exact ⟨hname.ne_empty, hname.ne_dot⟩
      have hrelative : (ofComponents (c :: rest)).isAbsolute = false := by
        refine Bool.eq_false_iff.2 fun habsolute => ?_
        obtain ⟨second, more, hmore⟩ := isAbsolute_iff_pieces.1 habsolute
        rw [hspelled, hpieces] at hmore
        exact hfirst.1 (List.cons.inj hmore).1
      rw [hspelled] at hrelative ⊢
      have hread := filterMap_map_text h
      rw [components_of_pieces hpieces, hrelative, opening, if_neg Bool.false_ne_true,
        if_neg hfirst.2]
      rw [List.map_cons] at hread
      cases hc : component? c.text with
      | none => simpa [hc] using hread
      | some found => simpa [hc] using hread

/-- To normalize a path resolves its dots. -/
theorem components_normalize (p : Path) : p.normalize.components = normalized p.components := by
  obtain ⟨start, names, hstart, hcs⟩ := isNormal_normalized p
  rw [normalize, ← normalized, hcs]
  have hnames : ∀ c ∈ names.map Component.normal, c = .parent ∨ ∃ name, IsName name ∧
      c = .normal name := by
    intro c hc
    obtain ⟨name, hmem, rfl⟩ := List.mem_map.1 hc
    exact .inr ⟨name, isName_of_mem_normalized (p := p) (hcs ▸ List.mem_append_right _ hc), rfl⟩
  rcases hstart with rfl | ⟨levels, rfl⟩
  · exact components_spelled_root hnames
  · refine components_spelled fun c hc => ?_
    rcases List.mem_append.1 hc with hup | hmem
    · exact .inl (List.eq_of_mem_replicate hup)
    · exact hnames c hmem

/-- The normal form of a path has normal components. -/
theorem isNormal_normalize (p : Path) : IsNormal p.normalize.components := by
  rw [components_normalize]
  exact isNormal_normalized p

/-- The normal form of a path with normal components has the same ones. -/
theorem components_normalize_of_isNormal (h : IsNormal p.components) :
    p.normalize.components = p.components := by
  rw [components_normalize, h.normalized_eq]

/-! ## Endings -/

/-- Texts that make a name of whatever they are added to. -/
structure IsEnding (ending : String) : Prop where
  no_slash : '/' ∉ ending.toList
  exists_ne_dot : ∃ c ∈ ending.toList, c ≠ '.'

/-- A start without slashes with an ending is a name. -/
theorem IsEnding.isName (h : IsEnding ending) {start : List Char} (hslash : '/' ∉ start) :
    IsName (String.ofList start ++ ending) := by
  obtain ⟨c, hc, hne⟩ := h.exists_ne_dot
  have hmem : c ∈ (String.ofList start ++ ending).toList := by simp [hc]
  refine ⟨?_, ?_, ?_, by simp [hslash, h.no_slash]⟩ <;>
    · intro heq
      rw [heq] at hmem
      simp [hne] at hmem

/-- The components before the last name of a text that gets an ending do not depend on the
ending. -/
theorem exists_components_append (text : String) :
    ∃ before last, before <+: (Path.mk text).components ∧
    ∀ ending, IsEnding ending → (Path.mk (text ++ ending)).components = before ++
      [.normal (last ++ ending)] := by
  by_cases hslash : '/' ∈ text.toList.reverse
  · obtain ⟨reversed, rest, hsplit, hlast⟩ := List.eq_append_cons_of_mem hslash
    have htext : text.toList = rest.reverse ++ '/' :: reversed.reverse := by
      simpa using congrArg List.reverse hsplit
    have hlast' : '/' ∉ reversed.reverse := by simpa using hlast
    obtain ⟨first, more, hfirst⟩ :=
      List.exists_cons_of_ne_nil (List.splitOn_ne_nil '/' rest.reverse)
    -- whatever follows the last slash is one more piece
    have hpieces (ending : String) (h : '/' ∉ ending.toList) : (Path.mk (text ++ ending)).pieces =
        String.ofList first ::
          (more.map String.ofList ++ [String.ofList reversed.reverse ++ ending]) := by
      have hnone : '/' ∉ reversed.reverse ++ ending.toList := by simpa [h] using hlast
      rw [pieces_eq, String.toList_append, htext, List.append_assoc, List.cons_append,
        List.splitOn_append_cons_self, List.splitOn_eq_singleton hnone, hfirst]
      simp
    have habsolute (ending : String) :
        (Path.mk (text ++ ending)).isAbsolute = (Path.mk text).isAbsolute := by
      rw [Bool.eq_iff_iff, isAbsolute_iff, isAbsolute_iff, String.toList_append, htext]
      cases rest.reverse <;> simp
    refine ⟨opening (Path.mk text).isAbsolute (String.ofList first) ++
      (more.map String.ofList).filterMap component?, String.ofList reversed.reverse, ?_,
      fun ending hending => ?_⟩
    · have hself := hpieces "" (by decide)
      rw [String.append_empty] at hself
      rw [components_of_pieces hself, List.filterMap_append, ← List.append_assoc]
      exact List.prefix_append _ _
    · have hname := (hending.isName hlast').component?_eq
      rw [components_of_pieces (hpieces ending hending.no_slash), habsolute, List.filterMap_append,
        List.filterMap_cons_some hname, List.filterMap_nil, List.append_assoc]
  · have hnone : '/' ∉ text.toList := by simpa using hslash
    refine ⟨[], text, List.nil_prefix, fun ending hending => ?_⟩
    have hname : IsName (text ++ ending) := by simpa using hending.isName hnone
    rw [components_of_pieces hname.pieces_eq, hname.isAbsolute_eq, opening,
      if_neg Bool.false_ne_true, if_neg hname.ne_dot, hname.component?_eq]
    rfl

/-- A normal path with an ending behind its text is normal. -/
theorem IsNormal.append_ending (h : IsNormal (Path.mk text).components)
    (hending : IsEnding ending) :
    IsNormal (Path.mk (text ++ ending)).components := by
  obtain ⟨before, last, hbefore, hcomponents⟩ := exists_components_append text
  rw [hcomponents ending hending]
  exact (h.of_prefix hbefore).append_name _

/-- A normal path with another ending is normal. -/
theorem IsNormal.replace_ending (h : IsNormal (Path.mk (text ++ ending)).components)
    (hending : IsEnding ending)
    (hother : IsEnding other) : IsNormal (Path.mk (text ++ other)).components := by
  obtain ⟨before, last, -, hcomponents⟩ := exists_components_append text
  rw [hcomponents ending hending] at h
  rw [hcomponents other hother]
  exact (h.of_prefix (List.prefix_append _ _)).append_name _

/-- A normal path with a name behind it is normal. -/
theorem IsNormal.append_slash (h : IsNormal (Path.mk text).components) (hname : IsName name) :
    IsNormal (Path.mk (text ++ "/" ++ name)).components := by
  obtain ⟨first, rest, hpieces⟩ := List.exists_cons_of_ne_nil (List.splitOn_ne_nil '/' text.toList)
  have hself : (Path.mk text).pieces = String.ofList first :: rest.map String.ofList := by
    rw [pieces_eq, hpieces]
    rfl
  have hmore : (Path.mk (text ++ "/" ++ name)).pieces =
      String.ofList first :: (rest.map String.ofList ++ [name]) := by
    have htext : (text ++ "/" ++ name).toList = text.toList ++ '/' :: name.toList := by simp
    rw [pieces_eq, htext, List.splitOn_append_cons_self, hpieces,
      List.splitOn_eq_singleton hname.no_slash]
    simp
  by_cases hempty : text = ""
  · -- the slash is the root
    subst hempty
    obtain ⟨rfl, rfl⟩ : [] = first ∧ [] = rest := List.cons.inj (List.splitOn_nil '/' ▸ hpieces)
    refine ⟨[.root], [name], .inl rfl, ?_⟩
    rw [components_of_pieces hmore, isAbsolute_iff_pieces.2 ⟨_, _, hmore⟩, opening, if_pos rfl,
      List.map_nil, List.nil_append, List.filterMap_cons_some hname.component?_eq]
    rfl
  · have habsolute : (Path.mk (text ++ "/" ++ name)).isAbsolute = (Path.mk text).isAbsolute := by
      obtain ⟨c, cs, htext⟩ := List.exists_cons_of_ne_nil (String.toList_eq_nil_iff.not.2 hempty)
      rw [Bool.eq_iff_iff, isAbsolute_iff, isAbsolute_iff, String.toList_append,
        String.toList_append, htext]
      simp
    have hcomponents : (Path.mk (text ++ "/" ++ name)).components = (Path.mk text).components ++
        [.normal name] := by
      rw [components_of_pieces hmore, components_of_pieces hself, habsolute, List.filterMap_append,
        List.filterMap_cons_some hname.component?_eq, List.filterMap_nil, List.append_assoc]
    rw [hcomponents]
    exact h.append_name name

/-- Joined pieces end with the last one. -/
theorem exists_intercalate_concat (pieces : List String) (last : String) :
    ∃ start, "/".intercalate (pieces ++ [last]) = start ++ last := by
  by_cases hnil : pieces = []
  · exact ⟨"", by simp [hnil]⟩
  · refine ⟨"/".intercalate pieces ++ "/", ?_⟩
    rw [String.intercalate_append_of_ne_nil hnil (List.cons_ne_nil _ _),
      String.intercalate_singleton]

/-- A path whose components end with a name is spelled with it at the end. -/
theorem exists_text_normalize (h : p.normalize.components.getLast? = some (.normal name)) :
    ∃ start, p.normalize.text = start ++ name := by
  rw [components_normalize, List.getLast?_eq_some_iff] at h
  obtain ⟨before, hbefore⟩ := h
  rw [normalize, ← normalized, hbefore]
  have hplain : ∃ start, "/".intercalate ((before ++ [Component.normal name]).map Component.text) =
      start ++ name := by
    rw [List.map_append]
    exact exists_intercalate_concat _ name
  cases before with
  | nil => exact hplain
  | cons c rest =>
      cases c with
      | root =>
          obtain ⟨start, hstart⟩ := exists_intercalate_concat (rest.map Component.text) name
          refine ⟨"/" ++ start, ?_⟩
          rw [String.append_assoc, ← hstart, List.cons_append, ofComponents, List.map_append]
          rfl
      | current | parent | normal => exact hplain

end TrackingPlan.Path
