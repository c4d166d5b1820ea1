import TrackingPlan.Proofs.ValidConfigs

/-!
# Ways through the directories

The parent of a path goes all steps of the path but the last one (`Path.exists_parent?_of_steps`),
and ends with a step itself (`Path.isTrimmed_of_parent?`). A way from a place passes the places to
which its pieces `move`, whatever stands there. It enters a directory when it passes directories
only (`enter_eq_ok_iff`); where something is missing, nothing stands behind it
(`at?_of_enter_missing`), unless two dots lead up again.
-/

namespace TrackingPlan

/-- One step after another succeeds if both do. -/
theorem bind_eq_ok_iff {ε α β : Type} {x : Except ε α} {f : α → Except ε β} {b : β} :
    (x >>= f) = .ok b ↔ ∃ a, x = .ok a ∧ f a = .ok b := by
  cases x <;> simp [bind, Except.bind]

/-! ## Parents -/

namespace Path

variable {p q : Path}

/-- The steps of a path are what its components say apart from where it starts. -/
theorem steps_eq (p : Path) :
    p.steps = (p.components.filter fun c => c ≠ .root ∧ c ≠ .current).map Component.text := by
  obtain ⟨start, hcomponents, hstart⟩ := components_eq_append p
  have hkept : (p.pieces.filterMap component?).filter (fun c => c ≠ .root ∧ c ≠ .current) =
      p.pieces.filterMap component? := by
    refine List.filter_eq_self.2 fun c hc => ?_
    simpa using ne_of_mem_moves hc
  rw [steps, ← map_text_filterMap, hcomponents, List.filter_append, hkept]
  rcases hstart with ⟨-, rfl⟩ | ⟨-, rfl | rfl⟩ <;> simp

/-- A piece is not blank if it is a component. -/
theorem isBlank_eq_false_iff {piece : String} :
    isBlank piece = false ↔ isComponent piece = true := by
  rw [isComponent, Bool.eq_false_iff, ne_eq, isBlank_iff]
  cases component? piece <;> simp

/-- A name is a component. -/
theorem IsName.isComponent_eq {name : String} (h : IsName name) : isComponent name = true := by
  rw [isComponent, h.component?_eq]
  rfl

/-- The last piece of the path is a step, or it has no steps at all. -/
inductive IsTrimmed (p : Path) : Prop where
  | stays (h : p.steps = [])
  | goes {front : List String} {last : String} (hpieces : p.pieces = front ++ [last])
      (hlast : isComponent last = true)

/-- The steps of a path are those pieces that are components, if the last one is. -/
theorem steps_of_pieces {front : List String} {last : String} (hpieces : p.pieces = front ++ [last])
    (hlast : isComponent last = true) : p.steps = front.filter isComponent ++ [last] := by
  rw [steps, hpieces, List.filter_append, List.filter_cons_of_pos hlast, List.filter_nil]

/-- No slash and no dot stands at the end of the parent of a path. -/
theorem isTrimmed_of_parent? (h : p.parent? = some q) : q.IsTrimmed := by
  obtain ⟨first, rest, hpieces⟩ : ∃ first rest, p.pieces = first :: rest :=
    List.exists_cons_of_ne_nil p.pieces_ne_nil
  have htrim := trimPieces_append rest.reverse first
  rw [← List.reverse_cons, ← hpieces] at htrim
  cases hkept : rest.reverse.dropWhile isBlank with
  | nil =>
      rw [hkept, List.nil_append] at htrim
      by_cases hfirst : first = ""
      · simp [parent?, htrim, hfirst] at h
      · obtain rfl : ⟨""⟩ = q := by simpa [parent?, htrim, hfirst] using h
        exact .stays (by rw [steps_eq]; cbv)
  | cons piece kept =>
      rw [hkept, List.cons_append] at htrim
      rw [parent?_of_trimPieces htrim (by simp), trimPieces_append, Option.some.injEq] at h
      have hsubset : first :: (kept.dropWhile isBlank).reverse ⊆ p.pieces := by
        rw [hpieces]
        refine List.cons_subset_cons _ fun other hother => ?_
        have hmem : other ∈ rest.reverse.dropWhile isBlank :=
          hkept ▸ List.mem_cons_of_mem _
            ((List.dropWhile_sublist _).subset (List.mem_reverse.1 hother))
        exact List.mem_reverse.1 ((List.dropWhile_sublist _).subset hmem)
      have hleft := pieces_intercalate (List.cons_ne_nil _ _) hsubset
      split at h
      · subst h
        exact .stays (by rw [steps_eq]; cbv)
      · rw [List.reverse_append, List.reverse_singleton, List.singleton_append] at h
        rw [h] at hleft
        cases hmore : kept.dropWhile isBlank with
        | nil =>
            rw [hmore] at hleft
            by_cases hfirst : isComponent first = true
            · exact IsTrimmed.goes (List.nil_append [first] ▸ hleft) hfirst
            · exact .stays (by rw [steps, hleft]; simp [hfirst])
        | cons last more =>
            rw [hmore, List.reverse_cons, ← List.cons_append] at hleft
            refine .goes hleft ?_
            have hlast := List.head_dropWhile_not isBlank (l := kept) (by simp [hmore])
            simpa [hmore, isBlank_eq_false_iff] using hlast

/-- A path with steps has a parent, which leaves out the last one. -/
theorem exists_parent?_of_steps (h : p.steps ≠ []) : ∃ q last, p.parent? = some q ∧
    q.isAbsolute = p.isAbsolute ∧ p.steps = q.steps ++ [last] := by
  obtain ⟨start, hcomponents, hstart⟩ := components_eq_append p
  have hsteps := map_text_filterMap p.pieces
  rcases List.eq_nil_or_concat' (p.pieces.filterMap component?) with hnone | ⟨before, last, hmoves⟩
  · rw [hnone, List.map_nil] at hsteps
    exact absurd hsteps.symm h
  · have hmove (c : Component) (hc : c ∈ before ++ [last]) : c ≠ .root ∧ c ≠ .current :=
      ne_of_mem_moves (hmoves ▸ hc)
    have hlast := hmove last (by simp)
    rw [hmoves, ← List.append_assoc] at hcomponents
    obtain ⟨q, hq, hbefore⟩ := exists_parent? hcomponents hlast.1
    have hkept : before.filter (fun c => c ≠ .root ∧ c ≠ .current) = before :=
      List.filter_eq_self.2 fun c hc => by simpa using hmove c (List.mem_append_left _ hc)
    refine ⟨q, last.text, hq, ?_, ?_⟩
    · rw [Bool.eq_iff_iff, isAbsolute_iff_root_mem, isAbsolute_iff_root_mem, hcomponents, hbefore]
      simp [hlast.1.symm]
    · rw [steps, ← hsteps, hmoves, steps_eq q, hbefore, List.filter_append, hkept]
      rcases hstart with ⟨-, rfl⟩ | ⟨-, rfl | rfl⟩ <;> simp

/-- A path without steps has a parent only if it is a dot. -/
theorem eq_of_parent?_of_steps_eq_nil (hsteps : p.steps = []) (h : p.parent? = some q) :
    q = ⟨""⟩ ∧ p.isAbsolute = false := by
  obtain ⟨first, rest, hpieces⟩ : ∃ first rest, p.pieces = first :: rest :=
    List.exists_cons_of_ne_nil p.pieces_ne_nil
  have hblank : rest.reverse.dropWhile isBlank = [] := by
    refine List.dropWhile_eq_nil_iff.2 fun piece hpiece => ?_
    have hmem : piece ∈ p.pieces := hpieces ▸ List.mem_cons_of_mem _ (List.mem_reverse.1 hpiece)
    have hnone := List.filter_eq_nil_iff.1 hsteps piece hmem
    rwa [← isBlank_eq_false_iff, Bool.not_eq_false] at hnone
  have htrim := trimPieces_append rest.reverse first
  rw [← List.reverse_cons, ← hpieces, hblank, List.nil_append] at htrim
  by_cases hfirst : first = ""
  · simp [parent?, htrim, hfirst] at h
  · obtain rfl : ⟨""⟩ = q := by simpa [parent?, htrim, hfirst] using h
    refine ⟨rfl, Bool.eq_false_iff.2 fun habsolute => hfirst ?_⟩
    obtain ⟨second, more, habsolute⟩ := isAbsolute_iff_pieces.1 habsolute
    exact (List.cons.inj (hpieces.symm.trans habsolute)).1

/-- The empty path has no steps. -/
theorem steps_of_empty : (Path.mk "").steps = [] := by
  rw [steps_eq]
  cbv

/-- The empty path is not absolute. -/
theorem isAbsolute_of_empty : (Path.mk "").isAbsolute = false := by
  decide +kernel

/-- The parent of a path starts where the path does and goes some of its steps. -/
theorem steps_prefix_of_parent? (h : p.parent? = some q) :
    q.isAbsolute = p.isAbsolute ∧ q.steps <+: p.steps := by
  by_cases hsteps : p.steps = []
  · obtain ⟨rfl, hrelative⟩ := eq_of_parent?_of_steps_eq_nil hsteps h
    rw [isAbsolute_of_empty, hrelative, steps_of_empty]
    exact ⟨rfl, List.nil_prefix⟩
  · obtain ⟨parent, last, hparent, habsolute, hlast⟩ := exists_parent?_of_steps hsteps
    obtain rfl := Option.some.inj (hparent.symm.trans h)
    exact ⟨habsolute, hlast ▸ List.prefix_append _ _⟩

/-- A path has no more steps than components. -/
theorem length_steps_le (p : Path) : p.steps.length ≤ p.components.length := by
  rw [steps_eq, List.length_map]
  exact List.length_filter_le _ _

end Path

namespace FileSystem

variable {fs : FileSystem} {p : Path} {place names pieces more : List String} {piece : String}
  {fault : FileFault}
  {P Q : List String → Prop}

/-! ## Ways -/

/-- A directory stands at the place `names`. -/
def HoldsDirectory (fs : FileSystem) (names : List String) : Prop :=
  ∃ entries, fs.top.at? names = some (.directory entries)

/-- A file stands at the place `names`. -/
def HoldsFile (fs : FileSystem) (names : List String) : Prop :=
  ∃ bytes, fs.top.at? names = some (.file bytes)

/-- `move names piece` is the place to which `piece` leads from the place `names`, whatever stands
there. -/
def move (names : List String) (piece : String) : List String :=
  if piece = "" || piece = "." then names else if piece = ".." then names.dropLast
    else names ++ [piece]

/-- A piece that is no component leads nowhere else. -/
theorem move_of_not_isComponent (h : Path.isComponent piece = false) :
    move names piece = names := by
  have hblank : Path.isBlank piece = true := by
    rw [Path.isBlank_iff]
    simpa [Path.isComponent] using h
  rw [move]
  exact if_pos hblank

/-- Pieces that are no components may be left out of a way. -/
theorem foldl_move_filter (place : List String) (pieces : List String) :
    (pieces.filter Path.isComponent).foldl move place = pieces.foldl move place := by
  rw [List.foldl_filter]
  congr 1
  funext names piece
  cases h : Path.isComponent piece with
  | true => rfl
  | false => exact (move_of_not_isComponent h).symm

/-- `P` holds of every place on the way from `place` along `pieces`, both ends included. -/
def Along (P : List String → Prop) (place pieces : List String) : Prop :=
  ∀ up, up <+: pieces → P (up.foldl move place)

/-- A way without pieces passes the place where it starts. -/
theorem along_nil_iff : Along P place [] ↔ P place := by
  simp [Along]

/-- A way passes its start, and then what the rest of it passes. -/
theorem along_cons_iff :
    Along P place (piece :: pieces) ↔ P place ∧ Along P (move place piece) pieces := by
  constructor
  · intro h
    exact ⟨h [] List.nil_prefix, fun up hup => h (piece :: up) ((List.prefix_cons_inj piece).2 hup)⟩
  · rintro ⟨hfirst, hrest⟩ up hup
    cases up with
    | nil => exact hfirst
    | cons other up =>
        obtain ⟨rfl, hshorter⟩ := List.cons_prefix_cons.1 hup
        exact hrest up hshorter

/-- What follows from a property holds along the way as well. -/
theorem Along.mono (h : Along P place pieces) (hPQ : ∀ names, P names → Q names) :
    Along Q place pieces :=
  fun up hup => hPQ _ (h up hup)

/-- A property along a way holds where it starts. -/
theorem Along.first (h : Along P place pieces) : P place := h [] List.nil_prefix

/-- A property along a way holds where it ends. -/
theorem Along.last (h : Along P place pieces) : P (pieces.foldl move place) :=
  h pieces List.prefix_rfl

/-- A property along a way holds along the start of it. -/
theorem Along.of_append (h : Along P place (pieces ++ more)) : Along P place pieces :=
  fun up hup => h up (hup.trans (List.prefix_append _ _))

/-- A property holds along a way if it does along all but its last piece, and at the end. -/
theorem along_append_singleton_iff :
    Along P place (pieces ++ [piece]) ↔ Along P place pieces ∧
    P (move (pieces.foldl move place) piece) := by
  have hlast : (pieces ++ [piece]).foldl move place = move (pieces.foldl move place) piece := by
    rw [List.foldl_append, List.foldl_cons, List.foldl_nil]
  constructor
  · exact fun h => ⟨h.of_append, hlast ▸ h.last⟩
  · rintro ⟨hbefore, hend⟩ up hup
    rcases List.prefix_concat_iff.1 hup with rfl | hup
    · exact hlast ▸ hend
    · exact hbefore up hup

/-- A property holds along a way if it does before its end and there. -/
theorem along_iff_dropLast :
    Along P place pieces ↔ Along P place pieces.dropLast ∧ P (pieces.foldl move place) := by
  rcases List.eq_nil_or_concat' pieces with rfl | ⟨before, last, rfl⟩
  · simp [along_nil_iff]
  · rw [along_append_singleton_iff, List.dropLast_concat, List.foldl_append, List.foldl_cons,
      List.foldl_nil]

/-- Pieces that spell no component pass no other places. -/
theorem along_filter_iff :
    Along P place (pieces.filter Path.isComponent) ↔ Along P place pieces := by
  induction pieces generalizing place with
  | nil => rfl
  | cons piece rest ih =>
      cases h : Path.isComponent piece with
      | true => rw [List.filter_cons_of_pos h, along_cons_iff, along_cons_iff, ih]
      | false =>
          rw [List.filter_cons_of_neg (by simp [h]), along_cons_iff, move_of_not_isComponent h, ih]
          exact ⟨fun hrest => ⟨hrest.first, hrest⟩, And.right⟩

/-- Something stands where a directory does. -/
theorem HoldsDirectory.isSome (h : fs.HoldsDirectory names) : (fs.top.at? names).isSome = true := by
  obtain ⟨entries, hentries⟩ := h
  rw [hentries]
  rfl

/-- No file stands where a directory does. -/
theorem HoldsDirectory.not_holdsFile (h : fs.HoldsDirectory names) : ¬fs.HoldsFile names := by
  obtain ⟨entries, hentries⟩ := h
  rintro ⟨bytes, hbytes⟩
  simp [hentries] at hbytes

/-- A tree is a directory if a directory stands there. -/
theorem any_isDirectory_iff :
    (fs.top.at? names).any FileTree.isDirectory = true ↔ fs.HoldsDirectory names := by
  rw [HoldsDirectory]
  cases fs.top.at? names with
  | none => simp
  | some t => cases t <;> simp [FileTree.isDirectory, FileTree.isFile]

/-- Neither a file nor a directory stands where nothing does. -/
theorem not_holds_of_at? (h : fs.top.at? names = none) :
    ¬fs.HoldsFile names ∧ ¬fs.HoldsDirectory names := by
  constructor
  · rintro ⟨bytes, hbytes⟩
    simp [h] at hbytes
  · rintro ⟨entries, hentries⟩
    simp [h] at hentries

/-- What holds a directory is a directory. -/
theorem HoldsDirectory.dropLast (h : fs.HoldsDirectory names) :
    fs.HoldsDirectory names.dropLast := by
  obtain ⟨entries, hentries⟩ := h
  rcases List.eq_nil_or_concat' names with rfl | ⟨above, last, rfl⟩
  · exact ⟨entries, hentries⟩
  · rw [FileTree.at?_append] at hentries
    obtain ⟨t, ht, hlast⟩ := Option.bind_eq_some_iff.1 hentries
    rw [List.dropLast_concat]
    cases t with
    | file bytes => cases hlast
    | directory entries => exact ⟨entries, ht⟩

/-- From a directory, a step goes to whatever stands where it leads. -/
theorem step_eq (h : fs.HoldsDirectory place) (piece : String) : fs.step place piece =
    if (fs.top.at? (move place piece)).isSome then .ok (move place piece) else .error .missing := by
  have habove := h.dropLast.isSome
  have hthere := h.isSome
  obtain ⟨entries, hplace⟩ := h
  have hentry : fs.top.at? (place ++ [piece]) = Named.find? entries piece := by
    rw [FileTree.at?_append, hplace, Option.bind_some]
    cases hentry : Named.find? entries piece <;> simp [FileTree.at?, FileTree.entries, hentry]
  simp only [step, hplace]
  by_cases hblank : (piece = "" || piece = ".") = true
  · have hmove : move place piece = place := if_pos hblank
    rw [hmove, if_pos hblank, if_pos hthere]
  · rw [if_neg hblank]
    by_cases hdots : piece = ".."
    · have hmove : move place piece = place.dropLast := (if_neg hblank).trans (if_pos hdots)
      rw [hmove, if_pos hdots, if_pos habove]
    · have hmove : move place piece = place ++ [piece] := (if_neg hblank).trans (if_neg hdots)
      rw [hmove, if_neg hdots, hentry]

/-- A step from a directory succeeds if something stands where it leads. -/
theorem step_of_holdsDirectory (h : fs.HoldsDirectory place)
    (hnext : (fs.top.at? (move place piece)).isSome = true) :
    fs.step place piece = .ok (move place piece) := by
  rw [step_eq h, if_pos hnext]

/-- A step leads where its piece moves. -/
theorem eq_move_of_step (h : fs.step place piece = .ok names) : names = move place piece := by
  rw [step_eq (directory_of_step h)] at h
  split at h
  · exact (Except.ok.inj h).symm
  · cases h

/-- A step that fails where no file stands fails since something is missing. -/
theorem eq_missing_of_step (hplace : ¬fs.HoldsFile place) (h : fs.step place piece = .error fault) :
    fault = .missing := by
  cases ht : fs.top.at? place with
  | none => simpa [step, ht] using h.symm
  | some t =>
      cases t with
      | file bytes => exact absurd ⟨bytes, ht⟩ hplace
      | directory entries =>
          rw [step_eq ⟨entries, ht⟩] at h
          split at h
          · cases h
          · exact (Except.error.inj h).symm

/-! ## Entering directories -/

/-- `enter fs place pieces` is the directory to which `pieces` lead from `place`. -/
def enter (fs : FileSystem) (place pieces : List String) : Except FileFault (List String) :=
  (pieces ++ [""]).foldlM fs.step place

/-- To enter a way is to take its first step and then the others. -/
theorem enter_cons :
    fs.enter place (piece :: pieces) = fs.step place piece >>= (fs.enter · pieces) := rfl

/-- Only a directory is entered, and what else stands there is the fault. -/
theorem enter_nil (fs : FileSystem) (place : List String) :
    fs.enter place [] = match fs.top.at? place with
      | none => .error .missing
      | some (.file _) => .error .notDirectory
      | some (.directory _) => .ok place := by
  rw [enter, List.nil_append, List.foldlM_cons]
  simp only [List.foldlM_nil, bind_pure, step]
  rfl

/-- Without pieces the place that is entered is that of a directory, where the way starts. -/
theorem enter_nil_eq_ok_iff :
    fs.enter place [] = .ok names ↔ fs.HoldsDirectory place ∧ names = place := by
  rw [enter_nil, HoldsDirectory]
  cases fs.top.at? place with
  | none => simp
  | some t => cases t <;> simp [eq_comm]

/-- A directory is entered when the way there passes directories only. -/
theorem enter_eq_ok_iff :
    fs.enter place pieces = .ok names ↔ Along fs.HoldsDirectory place pieces ∧
    names = pieces.foldl move place := by
  induction pieces generalizing place with
  | nil => rw [enter_nil_eq_ok_iff, along_nil_iff, List.foldl_nil]
  | cons piece rest ih =>
      rw [enter_cons, bind_eq_ok_iff, along_cons_iff, List.foldl_cons, and_assoc, ← ih]
      constructor
      · rintro ⟨next, hstep, h⟩
        exact ⟨directory_of_step hstep, eq_move_of_step hstep ▸ h⟩
      · rintro ⟨hplace, h⟩
        exact ⟨_, step_of_holdsDirectory hplace (ih.1 h).1.first.isSome, h⟩

/-- Pieces that are no components may be left out of the way that is entered. -/
theorem enter_filter : fs.enter place (pieces.filter Path.isComponent) = fs.enter place pieces :=
  (foldlM_step_append (by simp)).symm

/-- What comes behind a directory is entered from there. -/
theorem enter_append :
    fs.enter place (pieces ++ more) = fs.enter place pieces >>= (fs.enter · more) := by
  have hblank : (pieces ++ [""]).filter Path.isComponent = pieces.filter Path.isComponent := by
    simp [show Path.isComponent "" = false by decide]
  have hmore : more ++ [""] ≠ [] := by simp
  calc (pieces ++ more ++ [""]).foldlM fs.step place
      = (pieces ++ (more ++ [""])).foldlM fs.step place := by rw [List.append_assoc]
    _ = ((pieces ++ [""]).filter Path.isComponent ++ (more ++ [""])).foldlM fs.step place := by
        rw [hblank, foldlM_step_append hmore]
    _ = (pieces ++ [""] ++ (more ++ [""])).foldlM fs.step place := (foldlM_step_append hmore).symm
    _ = fs.enter place pieces >>= (fs.enter · more) := List.foldlM_append

/-- A way that can be entered can be gone. -/
theorem foldlM_of_enter (h : fs.enter place pieces = .ok names) :
    pieces.foldlM fs.step place = .ok names := by
  rw [enter, List.foldlM_append, bind_eq_ok_iff] at h
  obtain ⟨last, hway, hlast⟩ := h
  rw [hway, (enter_nil_eq_ok_iff.1 hlast).2]

/-- A path leads to a directory when the way there passes directories only. -/
theorem isDirectory_iff :
    fs.isDirectory p = true ↔ p.text ≠ "" ∧ Along fs.HoldsDirectory (fs.start p) p.steps := by
  rw [Path.steps, along_filter_iff]
  constructor
  · intro h
    unfold isDirectory at h
    cases htree : fs.tree p with
    | error fault => simp [htree, Except.toOption] at h
    | ok t =>
        cases t with
        | file bytes => simp [htree, Except.toOption, FileTree.isDirectory, FileTree.isFile] at h
        | directory entries =>
            obtain ⟨htext, names, hway, hnames⟩ := tree_eq_ok_iff.1 htree
            have henter : fs.enter (fs.start p) p.pieces = .ok names := by
              rw [enter, List.foldlM_append, hway]
              exact enter_nil_eq_ok_iff.2 ⟨⟨entries, hnames⟩, rfl⟩
            exact ⟨htext, (enter_eq_ok_iff.1 henter).1⟩
  · rintro ⟨htext, halong⟩
    obtain ⟨entries, hentries⟩ := halong.last
    have hway := foldlM_of_enter (enter_eq_ok_iff.2 ⟨halong, rfl⟩)
    rw [isDirectory, tree_eq_ok_iff.2 ⟨htext, _, hway, hentries⟩]
    rfl

/-- A way without files is stopped only where something is missing. -/
theorem eq_missing_of_enter (h : Along (¬fs.HoldsFile ·) place pieces)
    (hfault : fs.enter place pieces = .error fault) :
    fault = .missing := by
  induction pieces generalizing place with
  | nil =>
      have hstep : fs.step place "" = .error fault := by
        simpa only [enter, List.nil_append, List.foldlM_cons, List.foldlM_nil, bind_pure]
          using hfault
      exact eq_missing_of_step h.first hstep
  | cons piece rest ih =>
      obtain ⟨hplace, hrest⟩ := along_cons_iff.1 h
      rw [enter_cons] at hfault
      cases hstep : fs.step place piece with
      | ok next =>
          rw [hstep] at hfault
          exact ih (eq_move_of_step hstep ▸ hrest) hfault
      | error stop =>
          rw [hstep] at hfault
          exact Except.error.inj hfault ▸ eq_missing_of_step hplace hstep

/-- A way that is stopped is stopped at once for what comes behind it. -/
theorem enter_of_dropLast (h : fs.enter place pieces.dropLast = .error fault) :
    fs.enter place pieces = .error fault := by
  rcases List.eq_nil_or_concat' pieces with rfl | ⟨before, last, rfl⟩
  · exact h
  · rw [List.dropLast_concat] at h
    rw [enter_append, h]
    rfl

/-- A way of directories to where nothing stands is stopped there. -/
theorem enter_of_at? (h : Along fs.HoldsDirectory place pieces.dropLast)
    (hlast : fs.top.at? (pieces.foldl move place) = none) :
    fs.enter place pieces = .error .missing := by
  cases henter : fs.enter place pieces with
  | ok names => exact absurd (enter_eq_ok_iff.1 henter).1.last (not_holds_of_at? hlast).2
  | error fault =>
      have hclear : Along (¬fs.HoldsFile ·) place pieces :=
        along_iff_dropLast.2 ⟨h.mono fun _ => HoldsDirectory.not_holdsFile,
          (not_holds_of_at? hlast).1⟩
      rw [eq_missing_of_enter hclear henter]

/-! ## Missing directories -/

/-- Two dots stand behind a place where nothing is. -/
def GoesUpFromMissing (fs : FileSystem) (place pieces : List String) : Prop :=
  ∃ before after, pieces = before ++ ".." :: after ∧ fs.enter place before = .error .missing

/-- A way goes up from where something is missing whatever follows. -/
theorem GoesUpFromMissing.append (h : fs.GoesUpFromMissing place pieces) (more : List String) :
    fs.GoesUpFromMissing place (pieces ++ more) := by
  obtain ⟨before, after, rfl, hmissing⟩ := h
  exact ⟨before, after ++ more, by simp, hmissing⟩

/-- Behind a missing directory nothing stands, unless the way goes up again. -/
theorem at?_of_enter_missing (hup : ¬fs.GoesUpFromMissing place pieces)
    (hmissing : fs.enter place pieces = .error .missing) :
    Along (¬fs.HoldsFile ·) place pieces ∧ fs.top.at? (pieces.foldl move place) = none := by
  induction pieces using List.reverseRecOn with
  | nil =>
      rw [along_nil_iff, List.foldl_nil]
      suffices h : fs.top.at? place = none from ⟨(not_holds_of_at? h).1, h⟩
      rw [enter_nil] at hmissing
      cases hplace : fs.top.at? place with
      | none => rfl
      | some t => cases t <;> simp [hplace] at hmissing
  | append_singleton pieces piece ih =>
      have hbefore : ¬fs.GoesUpFromMissing place pieces := fun h => hup (h.append _)
      rw [along_append_singleton_iff, List.foldl_append, List.foldl_cons, List.foldl_nil]
      cases henter : fs.enter place pieces with
      | error fault =>
          have hfault : fault = .missing := by
            rw [enter_append, henter] at hmissing
            exact Except.error.inj hmissing
          subst hfault
          obtain ⟨halong, hlast⟩ := ih hbefore henter
          have hdots : piece ≠ ".." := by
            rintro rfl
            exact hup ⟨pieces, [], rfl, henter⟩
          suffices h : fs.top.at? (move (pieces.foldl move place) piece) = none from
            ⟨⟨halong, (not_holds_of_at? h).1⟩, h⟩
          rw [move, if_neg hdots]
          split
          · exact hlast
          · rw [FileTree.at?_append, hlast, Option.bind_none]
      | ok names =>
          obtain ⟨halong, rfl⟩ := enter_eq_ok_iff.1 henter
          cases hnext : fs.top.at? (move (pieces.foldl move place) piece) with
          | none =>
              exact ⟨⟨halong.mono fun _ => HoldsDirectory.not_holdsFile,
                (not_holds_of_at? hnext).1⟩, rfl⟩
          | some t =>
              -- something stands there, so that the way is stopped behind it, if at all
              have hstep := step_of_holdsDirectory halong.last (by rw [hnext]; rfl)
              have hlast : fs.enter place (pieces ++ [piece]) =
                  fs.enter (move (pieces.foldl move place) piece) [] := by
                rw [enter_append, henter]
                show fs.step (pieces.foldl move place) piece >>= (fs.enter · []) = _
                rw [hstep]
                rfl
              rw [hlast, enter_nil, hnext] at hmissing
              cases t <;> cases hmissing

/-- Without two dots, a way leads down. -/
theorem foldl_move_of_not_dots (h : ".." ∉ pieces) :
    pieces.foldl move place = place ++ pieces.filter Path.isComponent := by
  induction pieces generalizing place with
  | nil => simp
  | cons piece rest ih =>
      obtain ⟨hpiece, hrest⟩ := not_or.1 (List.mem_cons.not.1 h)
      rw [List.foldl_cons, ih hrest]
      cases hcomponent : Path.isComponent piece with
      | false =>
          rw [move_of_not_isComponent hcomponent, List.filter_cons_of_neg (by simp [hcomponent])]
      | true =>
          have hblank : Path.isBlank piece = false := Path.isBlank_eq_false_iff.2 hcomponent
          rw [Path.isBlank] at hblank
          rw [move, if_neg (by simp [hblank]), if_neg (Ne.symm hpiece),
            List.filter_cons_of_pos hcomponent, List.append_assoc, List.singleton_append]

/-- A way that is stopped where something is missing has not passed the places below its end. -/
theorem foldl_move_ne_of_enter_missing (hup : ¬fs.GoesUpFromMissing place pieces)
    (hmissing : fs.enter place pieces = .error .missing) {up : List String} (hshort : up <+: pieces)
    (name : String) :
    up.foldl move place ≠ pieces.foldl move place ++ [name] := by
  intro hsame
  have hlast := (at?_of_enter_missing hup hmissing).2
  obtain ⟨rest, rfl⟩ := hshort
  cases henter : fs.enter place up with
  | ok names =>
      obtain ⟨entries, hentries⟩ := (enter_eq_ok_iff.1 henter).1.last
      rw [hsame, FileTree.at?_append, hlast] at hentries
      cases hentries
  | error fault =>
      have hfault : fault = .missing := by
        rw [enter_append, henter] at hmissing
        exact Except.error.inj hmissing
      subst hfault
      have hdots : ".." ∉ rest := by
        intro hmem
        obtain ⟨before, after, rfl⟩ := List.append_of_mem hmem
        refine hup ⟨up ++ before, after, by simp, ?_⟩
        rw [enter_append, henter]
        rfl
      rw [List.foldl_append, foldl_move_of_not_dots hdots] at hsame
      simpa using congrArg List.length hsame

end FileSystem

end TrackingPlan
