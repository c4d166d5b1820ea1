import Mathlib.Data.List.DropRight
import TrackingPlan.Proofs.Ways

/-!
# Changes of file systems

What is put into a directory changes nothing at other places (`FileTree.at?_put_append`). A
directory is made at the `goal` of its path if it can be entered up to there, nothing stands there
and it is not refused (`createDirectory_eq`), and a file is written there unless a directory is in
the way or it is refused (`write_eq_ok_iff`). To make the directories above a path keeps all files
and directories, also where a fault stops it: `AddsAlong` is what such a run leaves
(`AddsAlong.of_createEach`), and `createEach_of_clear` says that it is not stopped when no file
stands on the way and no place there that is missing is refused.
-/

namespace TrackingPlan

namespace FileTree

variable {t new : FileTree} {entries : List (String × FileTree)} {up other : List String}
  {name : String}

/-! ## Places beside a change -/

/-- What is put into a directory is found under its name, with everything below it. -/
theorem at?_put_self (t : FileTree) (names rest : List String) (new : FileTree) :
    at? (put t names new) (names ++ rest) = at? new rest := by
  rw [at?_append, at?_put, Option.bind_some]

/-- What is put into a directory changes nothing beside it, and keeps the directories above it. -/
theorem at?_put_append (hup : t.at? up = some (.directory entries))
    (hother : ¬up ++ [name] <+: other) :
    at? (put t (up ++ [name]) new) other = at? t other ∨
      ∃ before after, at? t other = some (.directory before) ∧
        at? (put t (up ++ [name]) new) other = some (.directory after) := by
  induction up generalizing t other with
  | nil =>
      obtain rfl : t = .directory entries := Option.some.inj hup
      cases other with
      | nil => exact .inr ⟨_, _, rfl, rfl⟩
      | cons first rest =>
          have hfirst : name ≠ first := by simpa using hother
          refine .inl ?_
          rw [List.nil_append, put, at?, at?]
          simp only [FileTree.entries, Named.find?_insert, if_neg hfirst]
  | cons above up ih =>
      obtain ⟨next, hnext, hbelow⟩ := Option.bind_eq_some_iff.1 hup
      cases t with
      | file bytes => cases hnext
      | directory entries =>
          rw [List.cons_append, put, hnext, Option.getD_some]
          cases other with
          | nil => exact .inr ⟨_, _, rfl, rfl⟩
          | cons first rest =>
              simp only [at?, FileTree.entries, Named.find?_insert]
              by_cases hfirst : above = first
              · subst hfirst
                have hnext : Named.find? entries above = some next := hnext
                rw [if_pos rfl, hnext, Option.bind_some, Option.bind_some]
                exact ih hbelow fun h => hother ((List.prefix_cons_inj above).2 h)
              · rw [if_neg hfirst]
                exact .inl rfl

/-- The entries of a place are what stands behind it. -/
theorem find?_entries (t : FileTree) (names : List String) (name : String) :
    Named.find? (((t.at? names).map FileTree.entries).getD []) name = t.at? (names ++ [name]) := by
  rw [at?_append]
  cases t.at? names with
  | none => rfl
  | some below => cases hfound : Named.find? below.entries name <;> simp [at?, hfound]

end FileTree

namespace Path

variable {p : Path} {front : List String} {last : String}

/-- `unslashed p` lists the pieces of `p` without the empty ones that slashes at the end give. -/
def unslashed (p : Path) : List String := p.pieces.rdropWhile (· = "")

/-- Nothing is cut off a path that ends without a slash. -/
theorem unslashed_eq (hpieces : p.pieces = front ++ [last]) (hlast : last ≠ "") :
    p.unslashed = front ++ [last] := by
  rw [unslashed, hpieces, List.rdropWhile_concat_neg _ _ _ (by simpa using hlast)]

/-- A path ends with a slash when its last piece is empty. -/
theorem endsWith_slash_iff_pieces (htext : p.text ≠ "") :
    p.text.endsWith "/" = true ↔ ∃ front, p.pieces = front ++ [""] := by
  rw [endsWith_slash_iff]
  constructor
  · rintro ⟨start, hstart⟩
    refine ⟨(start.splitOn '/').map String.ofList, ?_⟩
    rw [pieces_eq, hstart, List.splitOn_append_cons_self, List.splitOn_nil]
    simp
  · rintro ⟨front, hpieces⟩
    have hfront : front ≠ [] := by
      rintro rfl
      exact htext (text_eq_empty_of_pieces hpieces)
    refine ⟨("/".intercalate front).toList, ?_⟩
    rw [← p.intercalate_pieces, hpieces, String.intercalate_append_of_ne_nil hfront
      (List.cons_ne_nil _ _), String.intercalate_singleton]
    simp

/-- The last piece of the path is a name. -/
def EndsWithName (p : Path) : Prop := ∃ front name, p.pieces = front ++ [name] ∧ IsName name

/-- A component is not empty and not a single dot. -/
theorem ne_of_isComponent {piece : String} (h : isComponent piece = true) :
    piece ≠ "" ∧ piece ≠ "." := by
  constructor <;> rintro rfl <;> exact absurd h (by decide)

/-- A path that ends in a piece with letters is not empty. -/
theorem text_ne_empty_of_pieces (hpieces : p.pieces = front ++ [last]) (hlast : last ≠ "") :
    p.text ≠ "" := by
  intro htext
  obtain rfl : p = ⟨""⟩ := congrArg Path.mk htext
  have hempty := congrArg List.getLast? (hpieces.symm.trans pieces_of_empty)
  exact hlast (by simpa using hempty)

/-- Without the slashes at its end, a path consists of its steps up to the last one and of this one;
a dot counts as the last one if there is none. -/
theorem IsTrimmed.unslashed_cases (h : p.IsTrimmed) :
    p.unslashed.dropLast.filter isComponent = p.steps.dropLast ∧
      p.unslashed.getLastD "." = p.steps.getLastD "." := by
  cases h with
  | goes hpieces hlast =>
      rw [unslashed_eq hpieces (ne_of_isComponent hlast).1, steps_of_pieces hpieces hlast]
      simp
  | stays hsteps =>
      have hblank : ∀ piece ∈ p.unslashed, isBlank piece = true := by
        intro piece hpiece
        have hnone :=
          List.filter_eq_nil_iff.1 hsteps piece ((List.rdropWhile_prefix _ _).subset hpiece)
        rwa [← isBlank_eq_false_iff, Bool.not_eq_false] at hnone
      rw [hsteps]
      constructor
      · refine List.filter_eq_nil_iff.2 fun piece hpiece => ?_
        rw [← isBlank_eq_false_iff, hblank piece (List.mem_of_mem_dropLast hpiece)]
        simp
      · by_cases hne : p.unslashed = []
        · rw [hne]
        · have hlast : p.unslashed.getLast hne ≠ "" :=
            fun h => List.rdropWhile_last_not _ _ hne (decide_eq_true h)
          have hdot := hblank _ (List.getLast_mem hne)
          rw [List.getLastD_eq_getLast?, List.getLast?_eq_some_getLast hne]
          simpa [isBlank, hlast] using hdot

end Path

namespace FileSystem

variable {fs made after : FileSystem} {refused : Refusals} {p : Path}
  {place names other front before pieces more : List String}
  {name last : String} {new : FileTree} {bytes : ByteArray}

/-! ## What is done at a place -/

/-- The place of a path is entered by all pieces but the last. -/
theorem placeOf_eq (fs : FileSystem) (p : Path) :
    fs.placeOf p = (fs.enter (fs.start p) p.unslashed.dropLast).map fun names =>
      (names, ((fs.top.at? names).map FileTree.entries).getD [], p.unslashed.getLastD ".") := by
  have hunslashed : (p.pieces.reverse.dropWhile (· = "")).reverse = p.unslashed := rfl
  rw [enter, List.foldlM_append]
  simp only [placeOf, hunslashed]
  cases p.unslashed.dropLast.foldlM fs.step (fs.start p) with
  | error fault => rfl
  | ok names =>
      show _ = (fs.enter names []).map _
      rw [enter_nil]
      cases hplace : fs.top.at? names with
      | none => simp [hplace, Except.map]
      | some t => cases t <;> simp [hplace, Except.map, FileTree.entries]

/-- `goal fs p` is the place to which the steps of `p` move. -/
def goal (fs : FileSystem) (p : Path) : List String := p.steps.foldl move (fs.start p)

/-- The goal of a path is where its last step leads. -/
theorem goal_of_steps (h : p.steps = before ++ [last]) :
    fs.goal p = move (before.foldl move (fs.start p)) last := by
  rw [goal, h, List.foldl_append, List.foldl_cons, List.foldl_nil]

/-- What is above the goal of a path is a directory if the way there can be gone. -/
theorem holdsDirectory_dropLast_goal (h : Along fs.HoldsDirectory (fs.start p) p.steps.dropLast) :
    fs.HoldsDirectory (fs.goal p).dropLast := by
  rcases List.eq_nil_or_concat' p.steps with hsteps | ⟨before, last, hsteps⟩
  · rw [goal, hsteps]
    exact h.first.dropLast
  · rw [hsteps, List.dropLast_concat] at h
    rw [goal_of_steps hsteps, move]
    split
    · exact h.last.dropLast
    · split
      · exact h.last.dropLast.dropLast
      · rw [List.dropLast_concat]
        exact h.last

/-- The goal of a path that ends in a name stands under that name. -/
theorem goal_of_pieces (hpieces : p.pieces = front ++ [name]) (hname : Path.IsName name) :
    fs.goal p = front.foldl move (fs.start p) ++ [name] := by
  rw [goal_of_steps (Path.steps_of_pieces hpieces hname.isComponent_eq), foldl_move_filter, move,
    if_neg (by simp [hname.ne_empty, hname.ne_dot]), if_neg hname.ne_dots]

/-- The goal of a path that ends with a name stands under the last of its steps. -/
theorem exists_goal_eq (fs : FileSystem) (h : p.EndsWithName) :
    ∃ name, p.steps = p.steps.dropLast ++ [name] ∧
    fs.goal p = p.steps.dropLast.foldl move (fs.start p) ++ [name] := by
  obtain ⟨front, name, hpieces, hname⟩ := h
  have hsteps := Path.steps_of_pieces hpieces hname.isComponent_eq
  refine ⟨name, by rw [hsteps, List.dropLast_concat], ?_⟩
  rw [hsteps, List.dropLast_concat, goal_of_pieces hpieces hname, foldl_move_filter]

/-- A path that ends with a name leads to what stands at its goal. -/
theorem locate_of_along (h : p.EndsWithName)
    (halong : Along fs.HoldsDirectory (fs.start p) p.steps.dropLast)
    (hgoal : (fs.top.at? (fs.goal p)).isSome = true) : fs.locate p = .ok (fs.goal p) := by
  obtain ⟨front, name, hpieces, hname⟩ := h
  have hsteps := Path.steps_of_pieces hpieces hname.isComponent_eq
  rw [hsteps, List.dropLast_concat, along_filter_iff] at halong
  have hmove : fs.goal p = move (front.foldl move (fs.start p)) name := by
    rw [goal_of_steps hsteps, foldl_move_filter]
  have hlast := step_of_holdsDirectory halong.last (hmove ▸ hgoal)
  rw [locate, if_neg (Path.text_ne_empty_of_pieces hpieces hname.ne_empty), hpieces,
    List.foldlM_append, foldlM_of_enter (enter_eq_ok_iff.2 ⟨halong, rfl⟩), hmove]
  exact congrArg (· >>= pure) hlast

/-- A directory is made at the goal of its path if nothing stands there and it is not refused. -/
theorem createDirectory_eq (h : p.IsTrimmed) (htext : p.text ≠ "") :
    fs.createDirectory refused p = fs.enter (fs.start p) p.steps.dropLast >>= fun _ =>
      if (fs.top.at? (fs.goal p)).isSome then .error .exists
      else if refused (fs.goal p) then .error .denied
      else .ok { fs with top := fs.top.put (fs.goal p) (.directory []) } := by
  obtain ⟨hfront, hlast⟩ := h.unslashed_cases
  rw [createDirectory, if_neg htext, placeOf_eq, hlast, ← hfront, enter_filter]
  cases henter : fs.enter (fs.start p) p.unslashed.dropLast with
  | error fault => rfl
  | ok names =>
      obtain ⟨halong, rfl⟩ := enter_eq_ok_iff.1 (hfront ▸ enter_filter.trans henter)
      simp only [Except.map, bind, Except.bind, FileTree.find?_entries]
      rcases List.eq_nil_or_concat' p.steps with hsteps | ⟨before, last, hsteps⟩
      · have hgoal : fs.goal p = fs.start p := by rw [goal, hsteps, List.foldl_nil]
        rw [hsteps] at halong ⊢
        rw [hgoal, if_pos halong.first.isSome]
        rfl
      · have hcomponent : Path.isComponent last = true :=
          (List.mem_filter.1 (hsteps ▸ List.mem_concat_self : last ∈ p.steps)).2
        obtain ⟨hempty, hdot⟩ := Path.ne_of_isComponent hcomponent
        rw [hsteps, List.dropLast_concat] at halong ⊢
        rw [goal_of_steps hsteps, move]
        by_cases hdots : last = ".."
        · have hsome := halong.last.dropLast.isSome
          simp [hdots, hsome]
        · simp [hempty, hdot, hdots]

/-- A directory is made where the way to it is one of directories, nothing stands and nothing is
refused, and then it stands there. -/
theorem createDirectory_eq_ok_iff (h : p.IsTrimmed) (htext : p.text ≠ "") :
    fs.createDirectory refused p = .ok made ↔
      Along fs.HoldsDirectory (fs.start p) p.steps.dropLast ∧ fs.top.at? (fs.goal p) = none ∧
        refused (fs.goal p) = false ∧
          made = { fs with top := fs.top.put (fs.goal p) (.directory []) } := by
  rw [createDirectory_eq h htext, bind_eq_ok_iff]
  constructor
  · rintro ⟨names, henter, hmade⟩
    split at hmade
    · cases hmade
    next hfree =>
      split at hmade
      · cases hmade
      next hgranted =>
        exact ⟨(enter_eq_ok_iff.1 henter).1, by simpa using hfree, by simpa using hgranted,
          (Except.ok.inj hmade).symm⟩
  · rintro ⟨halong, hfree, hgranted, rfl⟩
    exact ⟨_, enter_eq_ok_iff.2 ⟨halong, rfl⟩, by simp [hfree, hgranted]⟩

/-- What is missing when a directory is made is missing on the way there. -/
theorem enter_of_createDirectory (h : p.IsTrimmed) (htext : p.text ≠ "")
    (hmissing : fs.createDirectory refused p = .error .missing) :
    fs.enter (fs.start p) p.steps.dropLast = .error .missing := by
  rw [createDirectory_eq h htext] at hmissing
  cases henter : fs.enter (fs.start p) p.steps.dropLast with
  | error fault =>
      rw [henter] at hmissing
      exact congrArg _ (Except.error.inj hmissing)
  | ok names =>
      simp only [henter, bind, Except.bind] at hmissing
      split at hmissing
      · cases hmissing
      · split at hmissing <;> cases hmissing

/-- Only a path that ends with a name can be written to. -/
theorem endsWithName_of_write (h : fs.write refused p bytes = .ok made) : p.EndsWithName := by
  unfold write at h
  split at h
  · cases h
  next htext =>
    rw [placeOf_eq] at h
    obtain ⟨front, last, hpieces⟩ : ∃ front last, p.pieces = front ++ [last] :=
      (List.eq_nil_or_concat' p.pieces).resolve_left p.pieces_ne_nil
    cases hplace : fs.enter (fs.start p) p.unslashed.dropLast with
    | error fault =>
        rw [hplace] at h
        cases h
    | ok names =>
        simp only [hplace, Except.map] at h
        split at h
        · cases h
        next hnone =>
          simp only [Bool.or_eq_true, decide_eq_true_eq, not_or] at hnone
          obtain ⟨⟨⟨hslash, hdot⟩, hdots⟩, -⟩ := hnone
          have hempty : last ≠ "" := by
            rintro rfl
            exact hslash ((Path.endsWith_slash_iff_pieces htext).2 ⟨front, hpieces⟩)
          rw [Path.unslashed_eq hpieces hempty, List.getLastD_concat] at hdot hdots
          exact ⟨front, last, hpieces, hempty, hdot, hdots,
            Path.no_slash_of_mem_pieces (p := p) (by simp [hpieces])⟩

/-- A file is written where the way to it can be entered, no directory stands and nothing is
refused. -/
theorem write_eq (h : p.EndsWithName) : fs.write refused p bytes =
    fs.enter (fs.start p) p.steps.dropLast >>= fun _ =>
    if (fs.top.at? (fs.goal p)).any FileTree.isDirectory then .error .isDirectory
    else if refused (fs.goal p) then .error .denied
    else .ok { fs with top := fs.top.put (fs.goal p) (.file bytes) } := by
  obtain ⟨front, last, hpieces, hname⟩ := h
  have htext := Path.text_ne_empty_of_pieces hpieces hname.ne_empty
  have hslash : p.text.endsWith "/" = false := by
    refine Bool.eq_false_iff.2 fun hslash => ?_
    obtain ⟨start, hstart⟩ := (Path.endsWith_slash_iff_pieces htext).1 hslash
    exact hname.ne_empty (List.singleton_inj.1 (List.append_inj' (hpieces.symm.trans hstart) rfl).2)
  rw [write, if_neg htext, placeOf_eq, Path.unslashed_eq hpieces hname.ne_empty,
    List.dropLast_concat, Path.steps_of_pieces hpieces hname.isComponent_eq, List.dropLast_concat,
    enter_filter]
  cases henter : fs.enter (fs.start p) front with
  | error fault => rfl
  | ok names =>
      have hgoal : fs.goal p = names ++ [last] := by
        rw [goal_of_pieces hpieces hname, (enter_eq_ok_iff.1 henter).2]
      simp [Except.map, bind, Except.bind, FileTree.find?_entries, hgoal, hslash, hname.ne_dot,
        hname.ne_dots]

/-- A file is written at the goal of a path that ends with its name, unless a directory stands there
or it is refused. -/
theorem write_eq_ok_iff : fs.write refused p bytes = .ok made ↔ p.EndsWithName ∧
    Along fs.HoldsDirectory (fs.start p) p.steps.dropLast ∧ ¬fs.HoldsDirectory (fs.goal p) ∧
      refused (fs.goal p) = false ∧
      made = { fs with top := fs.top.put (fs.goal p) (.file bytes) } := by
  constructor
  · intro hmade
    have hnamed := endsWithName_of_write hmade
    rw [write_eq hnamed, bind_eq_ok_iff] at hmade
    obtain ⟨names, henter, hmade⟩ := hmade
    split at hmade
    · cases hmade
    next hfree =>
      split at hmade
      · cases hmade
      next hgranted =>
        exact ⟨hnamed, (enter_eq_ok_iff.1 henter).1, any_isDirectory_iff.not.1 hfree,
          by simpa using hgranted, (Except.ok.inj hmade).symm⟩
  · rintro ⟨hnamed, halong, hfree, hgranted, rfl⟩
    rw [write_eq hnamed, bind_eq_ok_iff]
    refine ⟨_, enter_eq_ok_iff.2 ⟨halong, rfl⟩, (if_neg (any_isDirectory_iff.not.2 hfree)).trans ?_⟩
    exact if_neg (by simp [hgranted])

/-! ## What stays as it is -/

/-- A leaf that is put into a directory changes nothing at another place. -/
theorem holds_put_iff (hup : fs.HoldsDirectory names.dropLast) (hold : ¬fs.HoldsDirectory names)
    (hnew : new.entries = []) (hother : other ≠ names) : (∀ bytes,
      FileTree.at? (fs.top.put names new) other = some (.file bytes) ↔
        fs.top.at? other = some (.file bytes)) ∧
      (HoldsDirectory { fs with top := fs.top.put names new } other ↔ fs.HoldsDirectory other) := by
  rcases List.eq_nil_or_concat' names with rfl | ⟨up, name, rfl⟩
  · exact absurd hup hold
  rw [List.dropLast_concat] at hup
  obtain ⟨entries, hup⟩ := hup
  have hcases : FileTree.at? (fs.top.put (up ++ [name]) new) other = fs.top.at? other ∨
      ∃ before after, fs.top.at? other = some (.directory before) ∧
        FileTree.at? (fs.top.put (up ++ [name]) new) other = some (.directory after) := by
    by_cases hbelow : up ++ [name] <+: other
    · -- behind a leaf there is nothing, before and after
      obtain ⟨rest, rfl⟩ := hbelow
      obtain ⟨first, rest, rfl⟩ : ∃ first more, rest = first :: more :=
        List.exists_cons_of_ne_nil (by simpa using hother)
      refine .inl ?_
      rw [FileTree.at?_put_self, FileTree.at?_append, FileTree.at?, hnew]
      cases hplace : fs.top.at? (up ++ [name]) with
      | none => rfl
      | some t =>
          cases t with
          | file bytes => rfl
          | directory entries => exact absurd ⟨entries, hplace⟩ hold
    · exact FileTree.at?_put_append hup hbelow
  rw [HoldsDirectory, HoldsDirectory]
  rcases hcases with h | ⟨before, after, hbefore, hafter⟩
  · simp [h]
  · simp [hbefore, hafter]

/-- What is written is found under its path, and what stands elsewhere stays. -/
theorem holds_of_write (h : fs.write refused p bytes = .ok made) : made.locate p = .ok (fs.goal p) ∧
    made.top.at? (fs.goal p) = some (.file bytes) ∧ ∀ names, names ≠ fs.goal p →
      (∀ other, made.top.at? names = some (.file other) ↔ fs.top.at? names = some (.file other)) ∧
      (made.HoldsDirectory names ↔ fs.HoldsDirectory names) := by
  obtain ⟨hnamed, halong, hfree, -, rfl⟩ := write_eq_ok_iff.1 h
  have hnew : FileTree.entries (.file bytes) = [] := rfl
  have helsewhere {names : List String} (hne : names ≠ fs.goal p) :=
    holds_put_iff (holdsDirectory_dropLast_goal halong) hfree hnew hne
  have hself := FileTree.at?_put fs.top (fs.goal p) (.file bytes)
  have hway := halong.mono fun names hnames =>
    (helsewhere fun hne => hfree (hne ▸ hnames)).2.2 hnames
  exact ⟨locate_of_along hnamed hway (Option.isSome_of_eq_some hself), hself,
    fun names hne => helsewhere hne⟩

/-- `fs.AddsAlong refused made place pieces` holds when `made` has the same files as `fs`, and its
directories with further ones that are not refused, on the way from the directory `place` along
`pieces`. -/
structure AddsAlong (fs : FileSystem) (refused : Refusals) (made : FileSystem)
    (place pieces : List String) : Prop where
  workingDirectory_eq : made.workingDirectory = fs.workingDirectory
  file_iff (names : List String) (bytes : ByteArray) :
    made.top.at? names = some (.file bytes) ↔ fs.top.at? names = some (.file bytes)
  directory {names : List String} (h : fs.HoldsDirectory names) : made.HoldsDirectory names
  on_way {names : List String} (h : made.HoldsDirectory names) :
    fs.HoldsDirectory names ∨
      (∃ up, up <+: pieces ∧ names = up.foldl move place) ∧ refused names = false
  started : made = fs ∨ fs.HoldsDirectory place

namespace AddsAlong

/-- Nothing is added to files that stay as they are. -/
theorem refl (fs : FileSystem) (refused : Refusals) (place pieces : List String) :
    fs.AddsAlong refused fs place pieces where
  workingDirectory_eq := rfl
  file_iff _ _ := Iff.rfl
  directory := id
  on_way := .inl
  started := .inl rfl

/-- What is added along the start of a way is added along the way. -/
theorem mono (h : fs.AddsAlong refused made place pieces) (hmore : pieces <+: more) :
    fs.AddsAlong refused made place more where
  workingDirectory_eq := h.workingDirectory_eq
  file_iff := h.file_iff
  directory := h.directory
  on_way hnames := (h.on_way hnames).imp_right fun ⟨⟨up, hup, hplace⟩, hgranted⟩ =>
    ⟨⟨up, hup.trans hmore, hplace⟩, hgranted⟩
  started := h.started

/-- What is added in two goes is added. -/
theorem trans (h : fs.AddsAlong refused made place pieces)
    (hnext : made.AddsAlong refused after place pieces) :
    fs.AddsAlong refused after place pieces where
  workingDirectory_eq := hnext.workingDirectory_eq.trans h.workingDirectory_eq
  file_iff names bytes := (hnext.file_iff names bytes).trans (h.file_iff names bytes)
  directory hnames := hnext.directory (h.directory hnames)
  on_way hnames := (hnext.on_way hnames).elim h.on_way .inr
  started := by
    rcases h.started with rfl | hplace
    · exact hnext.started
    · exact .inr hplace

/-- Paths start where they started when directories are added. -/
theorem start_eq (h : fs.AddsAlong refused made place pieces) (p : Path) :
    made.start p = fs.start p := by
  rw [start, start, h.workingDirectory_eq]

/-- Paths have the goal that they had when directories are added. -/
theorem goal_eq (h : fs.AddsAlong refused made place pieces) (p : Path) :
    made.goal p = fs.goal p := by
  rw [goal, goal, h.start_eq]

/-- No file is made or lost when directories are added. -/
theorem holdsFile_iff (h : fs.AddsAlong refused made place pieces) :
    made.HoldsFile names ↔ fs.HoldsFile names :=
  exists_congr fun bytes => h.file_iff names bytes

/-- What is missing afterwards was missing before. -/
theorem at?_eq_none (h : fs.AddsAlong refused made place pieces)
    (hnone : made.top.at? names = none) :
    fs.top.at? names = none := by
  obtain ⟨hfile, hdirectory⟩ := not_holds_of_at? hnone
  cases hbefore : fs.top.at? names with
  | none => rfl
  | some t =>
      cases t with
      | file bytes => exact absurd (h.holdsFile_iff.2 ⟨bytes, hbefore⟩) hfile
      | directory entries => exact absurd (h.directory ⟨entries, hbefore⟩) hdirectory

/-- To make a directory changes nothing else. -/
theorem of_createDirectory (h : p.IsTrimmed) (htext : p.text ≠ "")
    (hmade : fs.createDirectory refused p = .ok made) :
    fs.AddsAlong refused made (fs.start p) p.steps := by
  obtain ⟨halong, hfree, hgranted, rfl⟩ := (createDirectory_eq_ok_iff h htext).1 hmade
  have hup := holdsDirectory_dropLast_goal halong
  have hold := (not_holds_of_at? hfree).2
  have hself := FileTree.at?_put fs.top (fs.goal p) (.directory [])
  refine ⟨rfl, fun names bytes => ?_, fun {names} hnames => ?_, fun {names} hnames => ?_,
    .inr halong.first⟩
  · by_cases hgoal : names = fs.goal p
    · simp [hgoal, hself, hfree]
    · exact (holds_put_iff hup hold rfl hgoal).1 bytes
  · have hgoal : names ≠ fs.goal p := fun hgoal => hold (hgoal ▸ hnames)
    exact (holds_put_iff hup hold rfl hgoal).2.2 hnames
  · by_cases hgoal : names = fs.goal p
    · exact .inr ⟨⟨p.steps, List.prefix_rfl, hgoal⟩, hgoal ▸ hgranted⟩
    · exact .inl ((holds_put_iff hup hold rfl hgoal).2.1 hnames)

/-- Whatever stops the making of directories, what was made until then stands on the way. -/
theorem of_createEach (fs : FileSystem) (refused : Refusals) (levels : Nat) (h : p.IsTrimmed) :
    fs.AddsAlong refused (fs.createEach refused levels p).1 (fs.start p) p.steps := by
  induction levels generalizing p with
  | zero => exact refl ..
  | succ levels ih =>
      unfold createEach
      by_cases htext : p.text = ""
      · rw [if_pos htext]
        exact refl ..
      · rw [if_neg htext]
        split
        next made hmade => exact of_createDirectory h htext hmade
        next hmissing =>
          cases hparent : p.parent? with
          | none => exact refl ..
          | some parent =>
              obtain ⟨habsolute, hsteps⟩ := Path.steps_prefix_of_parent? hparent
              have habove := ih (Path.isTrimmed_of_parent? hparent)
              rw [show fs.start parent = fs.start p by rw [start, start, habsolute]] at habove
              simp only
              split
              next made fault hmade =>
                rw [hmade] at habove
                exact habove.mono hsteps
              next made hmade =>
                rw [hmade] at habove
                split
                next last hlast =>
                  have hlast := of_createDirectory h htext hlast
                  rw [habove.start_eq] at hlast
                  exact (habove.mono hsteps).trans hlast
                next fault hfault => exact habove.mono hsteps
        next fault hfault => exact refl ..

end AddsAlong

/-! ## Directories are made -/

/-- Once a directory is made, the way to it is one of directories. -/
theorem along_of_createDirectory (h : p.IsTrimmed) (htext : p.text ≠ "")
    (hmade : fs.createDirectory refused p = .ok made) :
    Along made.HoldsDirectory (fs.start p) p.steps := by
  have hadds := AddsAlong.of_createDirectory h htext hmade
  obtain ⟨halong, -, -, rfl⟩ := (createDirectory_eq_ok_iff h htext).1 hmade
  exact along_iff_dropLast.2 ⟨halong.mono fun _ => hadds.directory, [], FileTree.at?_put ..⟩

/-- In a directory that is entered, a directory is made or stands there already, if it is not a file
and it is not refused where nothing stands. -/
theorem createDirectory_of_along (h : p.IsTrimmed) (htext : p.text ≠ "")
    (halong : Along fs.HoldsDirectory (fs.start p) p.steps.dropLast)
    (hfile : ¬fs.HoldsFile (fs.goal p))
    (hgranted : fs.top.at? (fs.goal p) = none → refused (fs.goal p) = false) :
    (∃ made, fs.createDirectory refused p = .ok made) ∨
      fs.createDirectory refused p = .error .exists ∧ fs.isDirectory p = true := by
  rw [createDirectory_eq h htext, enter_eq_ok_iff.2 ⟨halong, rfl⟩]
  cases hgoal : fs.top.at? (fs.goal p) with
  | none => exact .inl ⟨_, if_neg (by simp [hgranted hgoal])⟩
  | some t =>
      cases t with
      | file bytes => exact absurd ⟨bytes, hgoal⟩ hfile
      | directory entries =>
          have hthere := along_iff_dropLast.2 ⟨halong, entries, hgoal⟩
          exact .inr ⟨rfl, isDirectory_iff.2 ⟨htext, hthere⟩⟩

/-- When all directories are made, the way can be gone. -/
theorem along_of_createEach {levels : Nat} (h : p.IsTrimmed) (htext : p.text ≠ "")
    (hmade : fs.createEach refused levels p = (made, none)) :
    Along made.HoldsDirectory (fs.start p) p.steps := by
  have hstands {made : FileSystem} {fault : FileFault}
      (hnone : (if made.isDirectory p = true then none else some fault) = none) :
      made.isDirectory p = true := by
    by_contra hnot
    simp [hnot] at hnone
  cases levels with
  | zero => cases hmade
  | succ levels =>
      rw [createEach, if_neg htext] at hmade
      split at hmade
      next last hlast =>
        cases hmade
        exact along_of_createDirectory h htext hlast
      next hmissing =>
        split at hmade
        · cases hmade
        next parent hparent =>
          split at hmade
          · cases hmade
          next above habove =>
            have hstart : above.start p = fs.start p := by
              have hparents :=
                AddsAlong.of_createEach fs refused levels (Path.isTrimmed_of_parent? hparent)
              rw [habove] at hparents
              exact hparents.start_eq p
            split at hmade
            next last hlast =>
              cases hmade
              exact hstart ▸ along_of_createDirectory h htext hlast
            next fault hfault =>
              obtain ⟨rfl, hnone⟩ := Prod.mk.inj hmade
              exact hstart ▸ (isDirectory_iff.1 (hstands hnone)).2
      next fault hne hfault =>
        obtain ⟨rfl, hnone⟩ := Prod.mk.inj hmade
        exact (isDirectory_iff.1 (hstands hnone)).2

/-- Where nothing is missing on the way, no directory is made. -/
theorem createEach_of_enter {levels : Nat} (h : p.IsTrimmed) (htext : p.text ≠ "")
    (hne : fs.enter (fs.start p) p.steps ≠ .error .missing) :
    (fs.createEach refused levels p).1 = fs := by
  cases levels with
  | zero => rfl
  | succ levels =>
      rw [createEach, if_neg htext]
      split
      next made hmade =>
        -- nothing stands at the end of the way
        obtain ⟨halong, hgoal, -, -⟩ := (createDirectory_eq_ok_iff h htext).1 hmade
        exact absurd (enter_of_at? halong hgoal) hne
      next hmissing =>
        have hbefore := enter_of_createDirectory h htext hmissing
        exact absurd (enter_of_dropLast hbefore) hne
      next => rfl

/-- Where no file stands on the way, and no place there that is missing is refused, all directories
are made. -/
theorem createEach_of_clear {levels : Nat} (h : p.IsTrimmed) (hlevels : p.steps.length < levels)
    (hstart : fs.HoldsDirectory (fs.start p))
    (hclear : Along (¬fs.HoldsFile ·) (fs.start p) p.steps)
    (hgranted : Along (fun names => fs.top.at? names = none → refused names = false) (fs.start p)
      p.steps) :
    ∃ made, fs.createEach refused levels p = (made, none) := by
  induction levels generalizing p with
  | zero => omega
  | succ levels ih =>
      rw [createEach]
      by_cases htext : p.text = ""
      · exact ⟨fs, if_pos htext⟩
      obtain ⟨hbefore, hgoal⟩ := along_iff_dropLast.1 hclear
      obtain ⟨hway, hend⟩ := along_iff_dropLast.1 hgranted
      rw [if_neg htext]
      cases henter : fs.enter (fs.start p) p.steps.dropLast with
      | ok names =>
          have hmade := createDirectory_of_along h htext (enter_eq_ok_iff.1 henter).1 hgoal hend
          rcases hmade with ⟨made, hmade⟩ | ⟨hfault, hthere⟩
          · exact ⟨made, by rw [hmade]⟩
          · exact ⟨fs, by simp [hfault, hthere]⟩
      | error fault =>
          -- the parent has one step less, and it is made first
          obtain rfl := eq_missing_of_enter hbefore henter
          have hmissing : fs.createDirectory refused p = .error .missing := by
            rw [createDirectory_eq h htext, henter]
            rfl
          have hsteps : p.steps ≠ [] := by
            intro hnil
            rw [hnil, List.dropLast_nil, enter_nil_eq_ok_iff.2 ⟨hstart, rfl⟩] at henter
            cases henter
          obtain ⟨parent, last, hparent, habsolute, hlast⟩ := Path.exists_parent?_of_steps hsteps
          have hplace : fs.start parent = fs.start p := by rw [start, start, habsolute]
          rw [hlast, List.dropLast_concat] at hbefore hway
          have htrimmed := Path.isTrimmed_of_parent? hparent
          obtain ⟨above, habove⟩ := ih htrimmed (by simp [hlast] at hlevels; omega)
            (hplace ▸ hstart) (hplace ▸ hbefore) (hplace ▸ hway)
          have hadds := AddsAlong.of_createEach fs refused levels htrimmed
          rw [habove] at hadds
          have halong : Along above.HoldsDirectory (above.start p) p.steps.dropLast := by
            rw [hlast, List.dropLast_concat, hadds.start_eq, ← hplace]
            by_cases hempty : parent.text = ""
            · obtain rfl : parent = ⟨""⟩ := congrArg Path.mk hempty
              rw [Path.steps_of_empty, along_nil_iff]
              exact hadds.directory (hplace ▸ hstart)
            · exact along_of_createEach htrimmed hempty habove
          have hgoal : ¬above.HoldsFile (above.goal p) := by
            rw [hadds.goal_eq, hadds.holdsFile_iff]
            exact hgoal
          have hend : above.top.at? (above.goal p) = none → refused (above.goal p) = false := by
            rw [hadds.goal_eq]
            exact fun hnone => hend (hadds.at?_eq_none hnone)
          simp only [hmissing, hparent, habove]
          rcases createDirectory_of_along h htext halong hgoal hend with ⟨made, hmade⟩ |
            ⟨hfault, hthere⟩
          · exact ⟨made, by rw [hmade]⟩
          · exact ⟨above, by simp [hfault, hthere]⟩

end FileSystem

end TrackingPlan
