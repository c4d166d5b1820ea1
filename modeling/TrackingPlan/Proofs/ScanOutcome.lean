import TrackingPlan.Proofs.Pool
import TrackingPlan.Proofs.Related
import TrackingPlan.Proofs.Workspace
import TrackingPlan.Scan

/-!
# The outcome of a scan

The files of a scan are analyzed in two parts, a pool and a batch sorted by project, and their
results arrive in any order. `results_perm` says that there is exactly one result for every file,
that of an analysis within its own project, and `assemble_perm` that sorting the results undoes the
order in which they came. `outcome_of_any_completion` is the main statement: a scan always ends with
the fold of the events of its files in the order of their paths.
-/

namespace TrackingPlan.Scan

variable {fs : FileSystem} {around : Surroundings} {root : Path} {system : System} {limit : Nat}

/-- `ownProject? fs around file` is the project that `file` belongs to, if it is a script of one. -/
def ownProject? (fs : FileSystem) (around : Surroundings) (file : Path) : Option Project :=
  if isIn .typeScript file then some (around.workspace.projectOf fs file) else none

/-- `analysis fs around file` is what an analysis of `file` within its own project gives. -/
def analysis (fs : FileSystem) (around : Surroundings) (file : Path) :
    Except FileFault (List Event) :=
  analyze fs around (ownProject? fs around file) file

/-- Files of other languages than TypeScript are analyzed without a project. -/
theorem analysis_eq {file : Path} {bytes : ByteArray} {language : Language}
    (hread : fs.read file = .ok bytes) (hlanguage : Language.ofPath? file = some language)
    (hother : language ≠ .typeScript) :
    analysis fs around file = .ok (events fs around none language file ⟨bytes⟩) := by
  have hproject : ownProject? fs around file = none := by
    simp [ownProject?, isIn, hlanguage, hother]
  rw [analysis, hproject, analyze, hread, hlanguage]

/-- Without a project the events of a file are those it has alone, except in Ruby. -/
theorem events_eq_eventsAlone {file : Path} {language : Language} {source : Source}
    (h : language ≠ .ruby) :
    events fs around none language file source = Analysis.eventsAlone language around.signatures
      file source := by
  cases language with
  | ruby => exact absurd rfl h
  | _ => rfl

/-- `ownResult fs around file` is the result of a numbered file within its own project. -/
def ownResult (fs : FileSystem) (around : Surroundings) (file : Path × Nat) : FileResult :=
  result fs around (ownProject? fs around file.1) file

/-- `outcomeOf root analyses` is the outcome of a scan whose files have these analyses, in this
order: the events of one file after the other, each without repetitions. -/
def outcomeOf (root : Path) (analyses : List (Except FileFault (List Event))) : Outcome where
  events := (analyses.filterMap Except.toOption).foldl
    (fun catalog found => Catalog.extend root catalog (Event.dedupe found)) []
  filesScanned := analyses.countP Except.isOk
  filesFailed := analyses.countP (!·.isOk)

/-! ## One result for every file -/

/-- A pool has the result of each of its files once. -/
theorem pooled_perm (hlimit : 1 ≤ limit) (files : List (Path × Nat)) :
    (pooled system limit fs around files).Perm (files.map (result fs around none)) :=
  (Pool.drain_perm hlimit system.choose 0 (.ofTasks files)).map (result fs around none)

/-- A batch has the result of each of its scripts once, analyzed within its own project. -/
theorem batched_perm {files : List (Path × Nat)}
    (hloaded : ∀ file ∈ files, ∃ p, around.workspace.loaded? fs file.1 = some p) :
    (batched fs around files).Perm
      (files.map fun file =>
        result fs around (some (around.workspace.projectOf fs file.1)) file) := by
  have hproject := Project.Workspace.project_eq_of_mem_groups hloaded
  have hgroups : batched fs around files =
      ((around.workspace.groups fs files).flatMap (·.members)).map
        fun file => result fs around (some (around.workspace.projectOf fs file.1)) file := by
    rw [batched, List.map_flatMap]
    refine List.flatMap_congr fun group hgroup => List.map_congr_left fun file hfile => ?_
    rw [hproject group hgroup file hfile]
  rw [hgroups]
  exact (Project.Workspace.members_groups_perm files).map _

/-- Every file has exactly one result: neither part of a scan loses or repeats one. -/
theorem results_perm (hlimit : 1 ≤ limit) {files : List Path}
    (hloaded : ∀ file ∈ files, isIn .typeScript file = true →
      ∃ p, around.workspace.loaded? fs file = some p) :
    (results system limit fs around files).Perm (files.zipIdx.map (ownResult fs around)) := by
  have hscripts : ∀ file ∈ files.zipIdx.filter (fun file => isIn .typeScript file.1),
      ∃ p, around.workspace.loaded? fs file.1 = some p := by
    intro file hfile
    obtain ⟨hmem, hscript⟩ := List.mem_filter.1 hfile
    exact hloaded file.1 (List.fst_mem_of_mem_zipIdx hmem) hscript
  have hown : ∀ file ∈ files.zipIdx.filter (fun file => isIn .typeScript file.1),
      result fs around (some (around.workspace.projectOf fs file.1)) file =
        ownResult fs around file := by
    intro file hfile
    rw [ownResult, ownProject?, if_pos (List.mem_filter.1 hfile).2]
  have hother : ∀ file ∈ files.zipIdx.filter (fun file => !isIn .typeScript file.1),
      result fs around none file = ownResult fs around file := by
    intro file hfile
    have hnot : isIn .typeScript file.1 = false := by simpa using (List.mem_filter.1 hfile).2
    rw [ownResult, ownProject?, hnot]
    rfl
  have hpooled : (pooled system limit fs around
      (files.zipIdx.filter fun file => !isIn .typeScript file.1)).Perm _ := pooled_perm hlimit _
  have hbatched := batched_perm hscripts
  rw [List.map_congr_left hother] at hpooled
  rw [List.map_congr_left hown] at hbatched
  rw [results, List.partition_eq_filter_filter]
  -- the two parts are a list and its complement, which together are all files
  refine (hpooled.append hbatched).trans ?_
  rw [← List.map_append]
  exact ((List.perm_append_comm).trans (List.filter_append_perm _ _)).map _

/-- The scripts of a scan have their projects loaded. -/
theorem loaded_surroundings (signatures : List Signature) {files : List Path} :
    ∀ file ∈ files, isIn .typeScript file = true →
      ∃ p, (surroundings fs root signatures files).workspace.loaded? fs file = some p := by
  intro file hfile hscript
  exact Project.Workspace.loaded?_visitAll (List.mem_filter.2 ⟨hfile, hscript⟩)

/-! ## The order of the results -/

/-- The results of files in order have strictly increasing numbers. -/
theorem pairwise_index_lt (files : List Path) :
    (files.zipIdx.map (ownResult fs around)).Pairwise fun a b => a.index < b.index :=
  List.pairwise_map.2 (List.pairwise_lt_zipIdx files)

/-- Folding in results one after the other gives the outcome of their analyses. -/
theorem foldl_fold (results : List FileResult) :
    results.foldl (fold root) {} = outcomeOf root (results.map (·.events)) := by
  induction results using List.reverseRecOn with
  | nil => rfl
  | append_singleton results last ih =>
      rw [List.foldl_append, ih]
      cases hlast : last.events with
      | ok events => simp [fold, outcomeOf, hlast, Except.toOption, Except.isOk, Except.toBool]
      | error fault =>
          simp [fold, outcomeOf, hlast, List.filterMap_cons, Except.toOption, Except.isOk,
            Except.toBool]

/-- Every file of an outcome was read, or could not be read. -/
theorem filesScanned_add_filesFailed (analyses : List (Except FileFault (List Event))) :
    (outcomeOf root analyses).filesScanned + (outcomeOf root analyses).filesFailed =
      analyses.length := by
  have hcount := List.length_eq_countP_add_countP Except.isOk (l := analyses)
  simpa [outcomeOf] using hcount.symm

/-- Results that arrive in any order give the outcome of the analyses in the order of the files. -/
theorem assemble_perm {files : List Path} {arrived : List FileResult}
    (h : arrived.Perm (files.zipIdx.map (ownResult fs around))) :
    assemble root arrived = outcomeOf root (files.map (analysis fs around)) := by
  have hevents : (files.zipIdx.map (ownResult fs around)).map (·.events) =
      files.map (analysis fs around) := by
    conv_rhs => rw [← List.zipIdx_map_fst 0 files]
    rw [List.map_map, List.map_map]
    rfl
  -- sorting by the numbers puts the results into the order of the files, whatever order they came
  -- in
  rw [assemble, List.mergeSort_eq_of_perm h (pairwise_index_lt files), foldl_fold, hevents]

/-! ## The scan -/

/-- A scan that can start ends with the outcome of the analyses in the order of the files. -/
theorem runOn_eq_outcomeOf {options : Options} {signatures : List Signature} {tree : FileTree}
    (hsignatures : Signature.readAll options.signatures = .ok signatures)
    (htree : fs.tree root = .ok tree) :
    let files := collect fs (.lenient options.ignore) root
    let around := surroundings fs root signatures files
    runOn system fs root options = .ok (outcomeOf root (files.map (analysis fs around))) := by
  intro files around
  simp only [runOn, hsignatures, htree]
  refine congrArg Except.ok (assemble_perm (results_perm (Nat.le_max_left 1 _) ?_))
  exact loaded_surroundings signatures

/-- A scan whose signatures can be read and whose root is there has exactly one result for every
file it collects, and whatever order these arrive in, its outcome is the fold of the analyses in the
order of the files. -/
theorem outcome_of_any_completion (system : System) (fs : FileSystem) (root : Path)
    (options : Options) :
    match Signature.readAll options.signatures, fs.tree root with
    | .error e, _ => runOn system fs root options = .error (.signature e)
    | .ok _, .error fault => runOn system fs root options = .error (.root root fault)
    | .ok signatures, .ok _ =>
      let files := collect fs (.lenient options.ignore) root
      let around := surroundings fs root signatures files
      let ready := results system (poolSize system options) fs around files
      let outcome := outcomeOf root (files.map (analysis fs around))
      ready.Perm (files.zipIdx.map (ownResult fs around)) ∧
        (∀ arrived, arrived.Perm ready → assemble root arrived = outcome) ∧
        runOn system fs root options = .ok outcome ∧
        outcome.filesScanned + outcome.filesFailed = files.length := by
  cases hsignatures : Signature.readAll options.signatures with
  | error e => simp only [runOn, hsignatures]
  | ok signatures =>
      cases htree : fs.tree root with
      | error fault => simp only [runOn, hsignatures, htree]
      | ok tree =>
          dsimp -zeta only
          intro files around ready outcome
          have hready : ready.Perm (files.zipIdx.map (ownResult fs around)) :=
            results_perm (Nat.le_max_left 1 _) (loaded_surroundings signatures)
          refine ⟨hready, fun arrived harrived => assemble_perm (harrived.trans hready), ?_, ?_⟩
          · simp only [runOn, hsignatures, htree]
            exact congrArg Except.ok (assemble_perm hready)
          · rw [filesScanned_add_filesFailed, List.length_map]

end TrackingPlan.Scan
