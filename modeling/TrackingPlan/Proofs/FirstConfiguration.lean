import TrackingPlan.Command.Run
import TrackingPlan.Proofs.FileChanges

/-!
# The first configuration

A command that writes a first configuration checks that nothing is there, makes the directories
above the path and writes the file. `start_cases` goes through the faults that can stop it.
`status_eq_zero_iff` says when it writes, `files_of_status_eq_zero` what stands there afterwards,
and `addsAlong_of_status_eq_two` what is left when it does not, which can be new directories
(`directories_left_behind`). `first_configuration` puts them together, whatever places the system
refuses. The check does not see behind a missing directory: a path that goes up from one can lead to
a file, which is overwritten (`configuration_overwritten`).
-/

namespace TrackingPlan

namespace FileSystem

/-- Where the path starts is a directory, and its way passes no file and not the place where it ends
in a name. There a file can be made once the directories on the way are, unless a directory stands
there. The system refuses neither this place nor those on the way where something is missing. -/
structure CanCreate (fs : FileSystem) (refused : Refusals) (p : Path) : Prop where
  named : p.EndsWithName
  started : fs.HoldsDirectory (fs.start p)
  free : Along (fun names => ¬fs.HoldsFile names ∧ names ≠ fs.goal p) (fs.start p) p.steps.dropLast
  no_directory : ¬fs.HoldsDirectory (fs.goal p)
  way_granted : Along (fun names => fs.top.at? names = none → refused names = false) (fs.start p)
    p.steps.dropLast
  granted : refused (fs.goal p) = false

end FileSystem

namespace Command

open FileSystem

variable {fs ready : FileSystem} {refused : Refusals} {output directory : Path}

/-- `prepared fs refused output` is `fs` with the directory for `output`, as far as it can be
made. -/
def prepared (fs : FileSystem) (refused : Refusals) (output : Path) :
    FileSystem × Option FileFault :=
  match directoryFor? output with
  | none => (fs, none)
  | some directory => fs.createDirectories refused directory

/-- The directory for a path has the steps of the path but the last one; none is needed for a path
without others. -/
theorem directoryFor?_cases (output : Path) :
    (directoryFor? output = none ∧ output.steps.dropLast = []) ∨
      ∃ directory, directoryFor? output = some directory ∧ directory.IsTrimmed ∧
        directory.text ≠ "" ∧
        directory.isAbsolute = output.isAbsolute ∧ directory.steps = output.steps.dropLast := by
  by_cases hsteps : output.steps = []
  · refine .inl ⟨?_, by rw [hsteps, List.dropLast_nil]⟩
    rw [directoryFor?]
    cases hparent : output.parent? with
    | none => rfl
    | some parent =>
        obtain ⟨rfl, -⟩ := Path.eq_of_parent?_of_steps_eq_nil hsteps hparent
        rfl
  · obtain ⟨parent, last, hparent, habsolute, hlast⟩ := Path.exists_parent?_of_steps hsteps
    have hbefore : output.steps.dropLast = parent.steps := by rw [hlast, List.dropLast_concat]
    rw [directoryFor?, hparent, hbefore, Option.filter_some]
    by_cases hempty : parent.text = ""
    · obtain rfl : parent = ⟨""⟩ := congrArg Path.mk hempty
      exact .inl ⟨rfl, Path.steps_of_empty⟩
    · by_cases hdot : parent.same ⟨"."⟩ = true
      · refine .inl ⟨by simp [hdot], ?_⟩
        rw [(Path.steps_congr (Path.same_iff.1 hdot)).2]
        simp only [Path.steps, Path.pieces_eq]
        decide +kernel
      · exact .inr ⟨parent, by simp [hempty, hdot], Path.isTrimmed_of_parent? hparent, hempty,
          habsolute, rfl⟩

/-- What is prepared for a path are directories on the way to it. -/
theorem addsAlong_prepared (fs : FileSystem) (refused : Refusals) (output : Path) :
    fs.AddsAlong refused (prepared fs refused output).1 (fs.start output)
      output.steps.dropLast := by
  rcases directoryFor?_cases output with ⟨hnone, -⟩ |
    ⟨directory, hsome, htrimmed, -, habsolute, hsteps⟩
  · rw [prepared, hnone]
    exact .refl ..
  · have hadds := AddsAlong.of_createEach fs refused (directory.components.length + 1) htrimmed
    rw [FileSystem.start, habsolute, hsteps] at hadds
    rw [prepared, hsome]
    exact hadds

/-- Where nothing is missing, nothing is made. -/
theorem prepared_of_enter (h : fs.enter (fs.start output) output.steps.dropLast ≠ .error .missing) :
    (prepared fs refused output).1 = fs := by
  rcases directoryFor?_cases output with ⟨hnone, -⟩ |
    ⟨directory, hsome, htrimmed, htext, habsolute, hsteps⟩
  · rw [prepared, hnone]
  · have hplace : fs.start output = fs.start directory := by
      rw [FileSystem.start, FileSystem.start, habsolute]
    rw [hplace, ← hsteps] at h
    rw [prepared, hsome]
    exact createEach_of_enter htrimmed htext h

/-- Where the way passes no file, and nothing is refused there, the directory is made. -/
theorem prepared_of_clear (hstart : fs.HoldsDirectory (fs.start output))
    (hclear : Along (¬fs.HoldsFile ·) (fs.start output) output.steps.dropLast)
    (hgranted : Along (fun names => fs.top.at? names = none → refused names = false)
      (fs.start output) output.steps.dropLast) :
    ∃ ready, prepared fs refused output = (ready, none) ∧
      Along ready.HoldsDirectory (fs.start output) output.steps.dropLast := by
  rcases directoryFor?_cases output with ⟨hnone, hsteps⟩ |
    ⟨directory, hsome, htrimmed, htext, habsolute, hsteps⟩
  · rw [prepared, hnone, hsteps]
    exact ⟨fs, rfl, along_nil_iff.2 hstart⟩
  · have hplace : fs.start output = fs.start directory := by
      rw [FileSystem.start, FileSystem.start, habsolute]
    rw [hplace, ← hsteps] at hclear hgranted ⊢
    rw [hplace] at hstart
    rw [prepared, hsome]
    obtain ⟨ready, hready⟩ := createEach_of_clear htrimmed
      (Nat.lt_succ_of_le directory.length_steps_le) hstart hclear hgranted
    exact ⟨ready, hready, along_of_createEach htrimmed htext hready⟩

/-- A configuration is written after the check, where the directory for it could be made. -/
theorem start_eq (fs : FileSystem) (refused : Refusals) (output : Path) : start fs refused output =
    if fs.isThere output then
      .refuse fs ("file already exists: " ++ output.shown ++
        "\nRemove it or use --output to specify a different path")
    else match (prepared fs refused output).2 with
      | some fault =>
        .refuse (prepared fs refused output).1 ("failed to create directory: " ++ fault.message)
      | none =>
        match (prepared fs refused output).1.write refused output Config.starter.toUTF8 with
        | .error fault =>
          .refuse (prepared fs refused output).1 ("failed to write config: " ++ fault.message)
        | .ok written => .print written (created output) := by
  unfold start prepared
  cases directoryFor? output <;> rfl

/-- A configuration is written where nothing stands and the directory was made; else no file is. -/
theorem start_cases (fs : FileSystem) (refused : Refusals) (output : Path) :
    ((start fs refused output).status = 0 ∧ fs.isThere output = false ∧
      (prepared fs refused output).2 = none ∧
      (prepared fs refused output).1.write refused output Config.starter.toUTF8 =
        .ok (start fs refused output).files) ∨
    (start fs refused output).status = 2 ∧
      (fs.isThere output = true ∧ (start fs refused output).files = fs ∨ fs.isThere output = false ∧
        (start fs refused output).files = (prepared fs refused output).1 ∧
        ((prepared fs refused output).2 ≠ none ∨
          ∃ fault, (prepared fs refused output).1.write refused output Config.starter.toUTF8 =
            .error fault)) := by
  rw [start_eq]
  by_cases hthere : fs.isThere output = true
  · rw [if_pos hthere]
    exact .inr ⟨rfl, .inl ⟨hthere, rfl⟩⟩
  · rw [if_neg hthere]
    have hfree : fs.isThere output = false := by simpa using hthere
    cases hproblem : (prepared fs refused output).2 with
    | some fault => exact .inr ⟨rfl, .inr ⟨hfree, rfl, .inl (by simp)⟩⟩
    | none =>
        simp only
        cases hwritten :
          (prepared fs refused output).1.write refused output Config.starter.toUTF8 with
        | error fault => exact .inr ⟨rfl, .inr ⟨hfree, rfl, .inr ⟨fault, rfl⟩⟩⟩
        | ok written => exact .inl ⟨rfl, hfree, trivial, rfl⟩

/-- A configuration is written when nothing stands at the path and a file can be made there. -/
theorem status_eq_zero_iff :
    (start fs refused output).status = 0 ↔ fs.isThere output = false ∧
    fs.CanCreate refused output := by
  have hadds := addsAlong_prepared fs refused output
  constructor
  · intro hstatus
    rcases start_cases fs refused output with ⟨-, hthere, -, hwritten⟩ | ⟨hfailed, -⟩
    · obtain ⟨hnamed, halong, hfree, hgranted, -⟩ := write_eq_ok_iff.1 hwritten
      rw [hadds.start_eq] at halong
      rw [hadds.goal_eq] at hfree hgranted
      refine ⟨hthere, hnamed, ?_, halong.mono fun names hnames => ⟨?_, ?_⟩,
        fun hgoal => hfree (hadds.directory hgoal),
        halong.mono fun names hnames hnone => ?_, hgranted⟩
      · rcases hadds.started with hsame | hstart
        · rw [hsame] at halong
          exact halong.first
        · exact hstart
      · exact fun hfile => hnames.not_holdsFile (hadds.holdsFile_iff.2 hfile)
      · rintro rfl
        exact hfree hnames
      · rcases hadds.on_way hnames with hold | ⟨-, hnew⟩
        · exact absurd hold (not_holds_of_at? hnone).2
        · exact hnew
    · omega
  · rintro ⟨hthere, hcreate⟩
    rcases start_cases fs refused output with ⟨hstatus, -⟩ | ⟨-, ⟨hexists, -⟩ | ⟨-, -, hfailed⟩⟩
    · exact hstatus
    · simp [hthere] at hexists
    · obtain ⟨ready, hready, halong⟩ := prepared_of_clear hcreate.started
        (hcreate.free.mono fun _ => And.left) hcreate.way_granted
      rw [hready] at hadds hfailed
      have hfree : ¬ready.HoldsDirectory (ready.goal output) := by
        rw [hadds.goal_eq]
        intro hgoal
        rcases hadds.on_way hgoal with hold | ⟨⟨up, hup, hplace⟩, -⟩
        · exact hcreate.no_directory hold
        · exact (hcreate.free up hup).2 hplace.symm
      have hwritten : ready.write refused output Config.starter.toUTF8 = .ok _ :=
        write_eq_ok_iff.2 ⟨hcreate.named, hadds.start_eq output ▸ halong, hfree,
          (hadds.goal_eq output).symm ▸ hcreate.granted, rfl⟩
      rcases hfailed with hproblem | ⟨fault, hfault⟩
      · exact absurd rfl hproblem
      · rw [hwritten] at hfault
        cases hfault

/-- What is written is found under the path, and no other file is made or changed. -/
theorem files_of_status_eq_zero (hstatus : (start fs refused output).status = 0) :
    (start fs refused output).files.locate output = .ok (fs.goal output) ∧
      (start fs refused output).files.top.at? (fs.goal output) =
        some (.file Config.starter.toUTF8) ∧
      ∀ names, names ≠ fs.goal output → ∀ bytes,
        (start fs refused output).files.top.at? names = some (.file bytes) ↔
          fs.top.at? names = some (.file bytes) := by
  have hadds := addsAlong_prepared fs refused output
  rcases start_cases fs refused output with ⟨-, -, -, hwrite⟩ | ⟨hfailed, -⟩
  · obtain ⟨hlocate, hself, helsewhere⟩ := holds_of_write hwrite
    rw [hadds.goal_eq] at hlocate hself helsewhere
    exact ⟨hlocate, hself, fun names hne bytes =>
      ((helsewhere names hne).1 bytes).trans (hadds.file_iff names bytes)⟩
  · omega

/-- When nothing is written, only directories are made. -/
theorem addsAlong_of_status_eq_two (hstatus : (start fs refused output).status = 2) :
    fs.AddsAlong refused (start fs refused output).files (fs.start output)
      output.steps.dropLast := by
  rcases start_cases fs refused output with ⟨hzero, -⟩ | ⟨-, ⟨-, hfiles⟩ | ⟨-, hfiles, -⟩⟩
  · omega
  · rw [hfiles]
    exact .refl ..
  · rw [hfiles]
    exact addsAlong_prepared fs refused output

/-- The path ends with a name, and the system refuses no place where something is missing on the
way, the last one included. -/
def IsGranted (fs : FileSystem) (refused : Refusals) (output : Path) : Prop :=
  output.EndsWithName ∧ Along (fun names => fs.top.at? names = none → refused names = false)
    (fs.start output) output.steps

/-- Unless the path goes up from where something is missing, a command that fails leaves everything
as it is, if nothing on the way is refused or all directories on the way are there. -/
theorem files_eq_of_status_eq_two (hstatus : (start fs refused output).status = 2)
    (hup : ¬fs.GoesUpFromMissing (fs.start output) output.steps)
    (h : IsGranted fs refused output ∨
      fs.enter (fs.start output) output.steps.dropLast ≠ .error .missing) :
    (start fs refused output).files = fs := by
  rcases start_cases fs refused output with ⟨hzero, -⟩ | ⟨-, ⟨-, hfiles⟩ | ⟨hfree, hfiles, -⟩⟩
  · omega
  · exact hfiles
  · rw [hfiles]
    by_cases hmissing : fs.enter (fs.start output) output.steps.dropLast = .error .missing
    · rcases (addsAlong_prepared fs refused output).started with hsame | hstart
      · exact hsame
      · -- nothing stands on the way from the first place that is missing, so the file can be made
        obtain ⟨hnamed, hgranted⟩ := h.resolve_right (not_not_intro hmissing)
        obtain ⟨hway, hend⟩ := along_iff_dropLast.1 hgranted
        obtain ⟨name, hsteps, hgoal⟩ := fs.exists_goal_eq hnamed
        have hbefore : ¬fs.GoesUpFromMissing (fs.start output) output.steps.dropLast :=
          fun hgoes => hup (hsteps ▸ hgoes.append [name])
        obtain ⟨hclear, hnone⟩ := at?_of_enter_missing hbefore hmissing
        have hgoalNone : fs.top.at? (fs.goal output) = none := by
          rw [hgoal, FileTree.at?_append, hnone, Option.bind_none]
        have hcreate : fs.CanCreate refused output := by
          refine ⟨hnamed, hstart, fun up hshort => ⟨hclear up hshort, ?_⟩,
            (not_holds_of_at? hgoalNone).2, hway, hend hgoalNone⟩
          rw [hgoal]
          exact foldl_move_ne_of_enter_missing hbefore hmissing hshort name
        have hzero := status_eq_zero_iff.2 ⟨hfree, hcreate⟩
        omega
    · exact prepared_of_enter hmissing

/-- Where the path does not end with a name, nothing is written, but the directories on its way are
made all the same and stay there. -/
theorem directories_left_behind (hfree : fs.isThere output = false) (hnamed : ¬output.EndsWithName)
    (hstart : fs.HoldsDirectory (fs.start output))
    (hclear : Along (¬fs.HoldsFile ·) (fs.start output) output.steps.dropLast)
    (hgranted : Along (fun names => fs.top.at? names = none → refused names = false)
      (fs.start output) output.steps.dropLast) :
    (start fs refused output).status = 2 ∧
      Along (start fs refused output).files.HoldsDirectory (fs.start output)
        output.steps.dropLast := by
  obtain ⟨ready, hready, hway⟩ := prepared_of_clear hstart hclear hgranted
  rcases start_cases fs refused output with ⟨hzero, -⟩ | ⟨htwo, ⟨hthere, -⟩ | ⟨-, hfiles, -⟩⟩
  · exact absurd (status_eq_zero_iff.1 hzero).2.named hnamed
  · exact absurd (hfree.symm.trans hthere) Bool.false_ne_true
  · rw [hready] at hfiles
    exact ⟨htwo, hfiles ▸ hway⟩

/-- Unless the path goes up from where something is missing, a configuration is written where
nothing stood. -/
theorem at?_of_status_eq_zero (hstatus : (start fs refused output).status = 0)
    (hup : ¬fs.GoesUpFromMissing (fs.start output) output.steps) :
    fs.top.at? (fs.goal output) = none := by
  obtain ⟨hfree, hcreate⟩ := status_eq_zero_iff.1 hstatus
  by_contra hsome
  have hgoal : (fs.top.at? (fs.goal output)).isSome = true := Option.isSome_iff_ne_none.2 hsome
  cases henter : fs.enter (fs.start output) output.steps.dropLast with
  | ok names =>
      obtain ⟨t, ht⟩ := Option.isSome_iff_exists.1 hgoal
      have hlocate := locate_of_along hcreate.named (enter_eq_ok_iff.1 henter).1 hgoal
      simp [isThere, tree, hlocate, ht, Except.toOption] at hfree
  | error fault =>
      obtain rfl := eq_missing_of_enter (hcreate.free.mono fun _ => And.left) henter
      obtain ⟨name, hsteps, hplace⟩ := fs.exists_goal_eq hcreate.named
      have hbefore : ¬fs.GoesUpFromMissing (fs.start output) output.steps.dropLast :=
        fun hgoes => hup (hsteps ▸ hgoes.append [name])
      rw [hplace, FileTree.at?_append, (at?_of_enter_missing hbefore henter).2] at hsome
      exact hsome rfl

end Command

open FileSystem in
/-- A first configuration is written exactly when nothing is found under the path and a file can be
made there. What is written is the starter's text, and the only file that is not as before. When it
is not written, no file changes, and directories are only added, on the way to the path. No file is
overwritten unless the path goes up from where something is missing and leads to that file. Unless
the path goes up from where something is missing, a command that fails leaves everything as it is,
if nothing on the way is refused and the path ends with a name, or no directory on its way is
missing. -/
theorem first_configuration (fs : FileSystem) (refused : Refusals) (coloured : Bool)
    (output : Path) :
    let reply := Command.run fs refused coloured (.init output)
    (reply.status = 0 ∨ reply.status = 2) ∧
    (reply.status = 0 ↔ fs.isThere output = false ∧ fs.CanCreate refused output) ∧
    (reply.status = 0 → reply.files.locate output = .ok (fs.goal output) ∧
      reply.files.top.at? (fs.goal output) = some (.file Config.starter.toUTF8) ∧
      ∀ names, names ≠ fs.goal output → ∀ bytes, reply.files.top.at? names = some (.file bytes) ↔
        fs.top.at? names = some (.file bytes)) ∧
    (reply.status = 2 →
      fs.AddsAlong refused reply.files (fs.start output) output.steps.dropLast) ∧
    ((fs.GoesUpFromMissing (fs.start output) output.steps → ¬fs.HoldsFile (fs.goal output)) →
      ∀ names bytes, fs.top.at? names = some (.file bytes) →
        reply.files.top.at? names = some (.file bytes)) ∧
    (¬fs.GoesUpFromMissing (fs.start output) output.steps → reply.status = 2 →
      Command.IsGranted fs refused output ∨
        fs.enter (fs.start output) output.steps.dropLast ≠ .error .missing →
      reply.files = fs) := by
  intro reply
  have hstatus : reply.status = 0 ∨ reply.status = 2 :=
    (Command.start_cases fs refused output).imp And.left And.left
  refine ⟨hstatus, Command.status_eq_zero_iff, Command.files_of_status_eq_zero,
    Command.addsAlong_of_status_eq_two, fun hgoal names bytes hbytes => ?_,
    fun hup htwo => Command.files_eq_of_status_eq_two htwo hup⟩
  rcases hstatus with hzero | htwo
  · have hne : names ≠ fs.goal output := by
      rintro rfl
      by_cases hup : fs.GoesUpFromMissing (fs.start output) output.steps
      · exact hgoal hup ⟨bytes, hbytes⟩
      · rw [Command.at?_of_status_eq_zero hzero hup] at hbytes
        cases hbytes
    exact ((Command.files_of_status_eq_zero hzero).2.2 names hne bytes).2 hbytes
  · exact ((Command.addsAlong_of_status_eq_two htwo).file_iff names bytes).2 hbytes

/-- Files with a single configuration at the top. -/
def configuredTop : FileSystem :=
  ⟨.directory [("trackscan.yaml", .file "concurrency: 8\n".toUTF8)], []⟩

/-- All paths start at the top. -/
theorem start_configuredTop (p : Path) : configuredTop.start p = [] := by
  rw [FileSystem.start]
  exact ite_self _

/-- Something is there if the pieces of the path lead to it. -/
theorem isThere_configuredTop {p : Path} (htext : p.text ≠ "") :
    configuredTop.isThere p = (p.pieces.foldlM configuredTop.step []).toOption.any
      fun names => (configuredTop.top.at? names).isSome := by
  rw [FileSystem.isThere, FileSystem.tree, FileSystem.locate, if_neg htext, start_configuredTop]
  cases p.pieces.foldlM configuredTop.step [] with
  | error fault => rfl
  | ok names =>
      simp only [Except.toOption, Option.any_some]
      cases configuredTop.top.at? names <;> rfl

/-- The top is no file. -/
theorem not_holdsFile_top : ¬configuredTop.HoldsFile [] := by
  rintro ⟨bytes, hbytes⟩
  cases hbytes

/-- A configuration is written below a new directory, and not over the one that is there. -/
theorem first_configuration_of_configuredTop :
    ((Command.run configuredTop (fun _ => false) false (.init ⟨"new/plan.yaml"⟩)).status = 0 ∧
      (Command.run configuredTop (fun _ => false) false (.init ⟨"new/plan.yaml"⟩)).files.top.at?
        ["new", "plan.yaml"] = some (.file Config.starter.toUTF8)) ∧
    (Command.run configuredTop (fun _ => false) false (.init ⟨"trackscan.yaml"⟩)).status = 2 ∧
      (Command.run configuredTop (fun _ => false) false (.init ⟨"trackscan.yaml"⟩)).files =
        configuredTop := by
  constructor
  · have hpieces : (Path.mk "new/plan.yaml").pieces = ["new", "plan.yaml"] := by
      rw [Path.pieces_eq]
      decide +kernel
    have hsteps : (Path.mk "new/plan.yaml").steps = ["new", "plan.yaml"] := by
      rw [Path.steps, hpieces]
      decide +kernel
    have hgoal : configuredTop.goal ⟨"new/plan.yaml"⟩ = ["new", "plan.yaml"] := by
      rw [FileSystem.goal, hsteps, start_configuredTop]
      rfl
    have hcreate : configuredTop.CanCreate (fun _ => false) ⟨"new/plan.yaml"⟩ := by
      refine ⟨⟨["new"], "plan.yaml", hpieces, by constructor <;> decide⟩, ?_, ?_, ?_,
        fun _ _ _ => rfl, rfl⟩
      · exact start_configuredTop _ ▸ ⟨_, rfl⟩
      · rw [hgoal, hsteps, start_configuredTop]
        exact FileSystem.along_cons_iff.2 ⟨⟨not_holdsFile_top, by decide⟩,
          FileSystem.along_nil_iff.2 ⟨(FileSystem.not_holds_of_at? rfl).1, by decide⟩⟩
      · exact hgoal ▸ (FileSystem.not_holds_of_at? rfl).2
    have hfree : configuredTop.isThere ⟨"new/plan.yaml"⟩ = false := by
      rw [isThere_configuredTop (by decide), hpieces]
      rfl
    obtain ⟨-, hcreated, hwritten, -⟩ := first_configuration configuredTop (fun _ => false) false
      ⟨"new/plan.yaml"⟩
    have hstatus := hcreated.2 ⟨hfree, hcreate⟩
    exact ⟨hstatus, hgoal ▸ (hwritten hstatus).2.1⟩
  · have hpieces : (Path.mk "trackscan.yaml").pieces = ["trackscan.yaml"] := by
      rw [Path.pieces_eq]
      decide +kernel
    have hthere : configuredTop.isThere ⟨"trackscan.yaml"⟩ = true := by
      rw [isThere_configuredTop (by decide), hpieces]
      rfl
    have hup : ¬configuredTop.GoesUpFromMissing (configuredTop.start ⟨"trackscan.yaml"⟩)
        (Path.mk "trackscan.yaml").steps := by
      rintro ⟨before, after, hdots, -⟩
      have hmem : ".." ∈ (Path.mk "trackscan.yaml").steps := by simp [hdots]
      rw [Path.steps, hpieces] at hmem
      exact absurd hmem (by decide)
    obtain ⟨hcases, hzero, -, -, -, hunchanged⟩ :=
      first_configuration configuredTop (fun _ => false) false ⟨"trackscan.yaml"⟩
    have hrefused := hcases.resolve_left fun h =>
      Bool.false_ne_true ((hzero.1 h).1.symm.trans hthere)
    have hnamed : (Path.mk "trackscan.yaml").EndsWithName :=
      ⟨[], "trackscan.yaml", hpieces, by constructor <;> decide⟩
    exact ⟨hrefused, hunchanged hup hrefused (.inl ⟨hnamed, fun _ _ _ => rfl⟩)⟩

/-- A path that goes up from a missing directory leads to a file that is there, and that is
overwritten: the check finds nothing there, since the directory is made after it. -/
theorem configuration_overwritten :
    let reply := Command.run configuredTop (fun _ => false) false
      (.init ⟨"missing/../trackscan.yaml"⟩)
    reply.status = 0 ∧
      configuredTop.top.at? ["trackscan.yaml"] = some (.file "concurrency: 8\n".toUTF8) ∧
      reply.files.top.at? ["trackscan.yaml"] = some (.file Config.starter.toUTF8) ∧
      Config.starter.toUTF8 ≠ "concurrency: 8\n".toUTF8 := by
  have hpieces :
      (Path.mk "missing/../trackscan.yaml").pieces = ["missing", "..", "trackscan.yaml"] := by
    rw [Path.pieces_eq]
    decide +kernel
  have hsteps :
      (Path.mk "missing/../trackscan.yaml").steps = ["missing", "..", "trackscan.yaml"] := by
    rw [Path.steps, hpieces]
    decide +kernel
  have hgoal : configuredTop.goal ⟨"missing/../trackscan.yaml"⟩ = ["trackscan.yaml"] := by
    rw [FileSystem.goal, hsteps, start_configuredTop]
    rfl
  have hcreate : configuredTop.CanCreate (fun _ => false) ⟨"missing/../trackscan.yaml"⟩ := by
    refine ⟨⟨["missing", ".."], "trackscan.yaml", hpieces, by constructor <;> decide⟩, ?_, ?_, ?_,
      fun _ _ _ => rfl, rfl⟩
    · exact start_configuredTop _ ▸ ⟨_, rfl⟩
    · rw [hgoal, hsteps, start_configuredTop]
      exact FileSystem.along_cons_iff.2 ⟨⟨not_holdsFile_top, by decide⟩, FileSystem.along_cons_iff.2
        ⟨⟨(FileSystem.not_holds_of_at? rfl).1, by decide⟩,
          FileSystem.along_nil_iff.2 ⟨not_holdsFile_top, by decide⟩⟩⟩
    · rw [hgoal]
      rintro ⟨entries, hentries⟩
      cases hentries
  have hfree : configuredTop.isThere ⟨"missing/../trackscan.yaml"⟩ = false := by
    rw [isThere_configuredTop (by decide), hpieces]
    rfl
  have hstatus := Command.status_eq_zero_iff.2 ⟨hfree, hcreate⟩
  have htext : Config.starter ≠ "concurrency: 8\n" := by simp [Config.starter]
  exact ⟨hstatus, rfl, hgoal ▸ (Command.files_of_status_eq_zero hstatus).2.1,
    fun hsame => htext (String.toByteArray_inj.1 hsame)⟩

end TrackingPlan
