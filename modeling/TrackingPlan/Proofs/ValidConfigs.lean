import TrackingPlan.Command.Run
import TrackingPlan.Proofs.CollectedFiles
import TrackingPlan.Proofs.Directories

/-!
# Valid configurations

A configuration is checked before a scan and read again, less strictly, in it.
`valid_configurations` says that both agree: what is valid is read in full, and a scan is carried
out exactly when its path and its configuration are in order.
-/

namespace TrackingPlan

/-! ## The first refusal -/

section Readers

variable {α β ε : Type} {read : α → Except ε β} {x : α} {xs : List α} {e : ε}

/-- `read` accepts each of `xs`. -/
def AllRead (read : α → Except ε β) (xs : List α) : Prop := ∀ x ∈ xs, ∃ value, read x = .ok value

/-- `read` refuses one of `xs` with `e`, and accepts all before it. -/
def FirstRefusal (read : α → Except ε β) (xs : List α) (e : ε) : Prop :=
  ∃ before x after, xs = before ++ x :: after ∧ AllRead read before ∧ read x = .error e

/-- All are read if the first is, and all others. -/
theorem allRead_cons_iff :
    AllRead read (x :: xs) ↔ (∃ value, read x = .ok value) ∧ AllRead read xs :=
  List.forall_mem_cons

/-- The first refusal is at the head, or behind an accepted head. -/
theorem firstRefusal_cons_iff : FirstRefusal read (x :: xs) e ↔
    read x = .error e ∨ (∃ value, read x = .ok value) ∧ FirstRefusal read xs e := by
  constructor
  · rintro ⟨before, bad, after, heq, hbefore, hbad⟩
    cases before with
    | nil =>
        obtain ⟨rfl, rfl⟩ := List.cons.inj heq
        exact .inl hbad
    | cons first before =>
        obtain ⟨rfl, rfl⟩ := List.cons.inj heq
        obtain ⟨hfirst, hrest⟩ := allRead_cons_iff.1 hbefore
        exact .inr ⟨hfirst, before, bad, after, rfl, hrest, hbad⟩
  · rintro (hbad | ⟨hfirst, before, bad, after, rfl, hbefore, hbad⟩)
    · exact ⟨[], x, xs, rfl, by simp [AllRead], hbad⟩
    · exact ⟨x :: before, bad, after, rfl, allRead_cons_iff.2 ⟨hfirst, hbefore⟩, hbad⟩

/-- A list is read if all its members are. -/
theorem exists_mapM_eq_ok_iff : (∃ values, xs.mapM read = .ok values) ↔ AllRead read xs := by
  induction xs with
  | nil => exact ⟨fun _ => by simp [AllRead], fun _ => ⟨[], rfl⟩⟩
  | cons x xs ih =>
      rw [allRead_cons_iff, ← ih, List.mapM_cons]
      cases read x with
      | error e => simp [bind, Except.bind]
      | ok value => cases xs.mapM read <;> simp [bind, Except.bind, pure, Except.pure]

/-- The values of a list are those of its entries, in their order. -/
theorem mapM_eq_ok_iff {values : List β} :
    xs.mapM read = .ok values ↔ List.Forall₂ (fun x value => read x = .ok value) xs values := by
  induction xs generalizing values with
  | nil =>
      rw [List.forall₂_nil_left_iff]
      exact ⟨fun h => (Except.ok.inj h).symm, fun h => h ▸ rfl⟩
  | cons x xs ih =>
      rw [List.mapM_cons, List.forall₂_cons_left_iff]
      simp only [← ih]
      cases read x with
      | error e => simp [bind, Except.bind]
      | ok value => cases xs.mapM read <;> simp [bind, Except.bind, pure, Except.pure, eq_comm]

/-- Reading a list stops at the first refusal. -/
theorem mapM_eq_error_iff : xs.mapM read = .error e ↔ FirstRefusal read xs e := by
  induction xs with
  | nil =>
      constructor
      · intro h
        cases h
      · rintro ⟨before, x, after, h, -⟩
        simp at h
  | cons x xs ih =>
      rw [firstRefusal_cons_iff, ← ih, List.mapM_cons]
      cases read x with
      | error e => simp [bind, Except.bind]
      | ok value => cases xs.mapM read <;> simp [bind, Except.bind, pure, Except.pure]

end Readers

/-! ## Globs -/

namespace IgnoreRules

variable {patterns : List String}

/-- A pattern is read as a glob if it is one. -/
theorem readGlob_eq_ok_iff {pattern : String} {g : Glob} :
    readGlob pattern = .ok g ↔ Glob.read pattern = .ok g := by
  unfold readGlob
  cases Glob.read pattern <;> simp

/-- Lenient rules start with the glob of the first pattern that is one. -/
theorem globs_lenient_cons {pattern : String} {g : Glob} (h : Glob.read pattern = .ok g) :
    (lenient (pattern :: patterns)).globs = g :: (lenient patterns).globs := by
  simp [lenient, h, Except.toOption]

/-- Patterns that are all globs are read with none left out. -/
theorem read_eq_lenient (h : AllRead readGlob patterns) :
    read patterns = .ok (lenient patterns) := by
  have hglobs : patterns.mapM readGlob = .ok (lenient patterns).globs := by
    induction patterns with
    | nil => rfl
    | cons pattern patterns ih =>
        obtain ⟨⟨g, hg⟩, hrest⟩ := allRead_cons_iff.1 h
        rw [List.mapM_cons, hg, ih hrest, globs_lenient_cons (readGlob_eq_ok_iff.1 hg)]
        rfl
  rw [read, hglobs]
  rfl

/-- Rules are read if all their patterns are globs. -/
theorem exists_read_iff : (∃ rules, read patterns = .ok rules) ↔ AllRead readGlob patterns := by
  constructor
  · rintro ⟨rules, hrules⟩
    refine exists_mapM_eq_ok_iff.1 ?_
    unfold read at hrules
    cases hglobs : patterns.mapM readGlob with
    | error e =>
        rw [hglobs] at hrules
        cases hrules
    | ok globs => exact ⟨globs, rfl⟩
  · exact fun h => ⟨lenient patterns, read_eq_lenient h⟩

/-- Rules are refused for the first pattern that is no glob. -/
theorem read_eq_error_iff {e : IgnoreError} :
    read patterns = .error e ↔ FirstRefusal readGlob patterns e := by
  rw [← mapM_eq_error_iff, read]
  cases patterns.mapM readGlob <;> simp [Except.map]

/-- A glob has the pattern that it is read from. -/
theorem pattern_of_read {pattern : String} {g : Glob} (h : Glob.read pattern = .ok g) :
    g.pattern = pattern := by
  unfold Glob.read at h
  cases htokens : Glob.readFrom {} pattern.toList with
  | error fault =>
      rw [htokens] at h
      cases h
  | ok tokens =>
      rw [htokens] at h
      cases h
      rfl

/-- No pattern is left out where all are globs. -/
theorem map_pattern_lenient (h : AllRead readGlob patterns) :
    (lenient patterns).globs.map (·.pattern) = patterns := by
  induction patterns with
  | nil => rfl
  | cons pattern patterns ih =>
      obtain ⟨⟨g, hg⟩, hrest⟩ := allRead_cons_iff.1 h
      have hread : Glob.read pattern = .ok g := readGlob_eq_ok_iff.1 hg
      rw [globs_lenient_cons hread, List.map_cons, pattern_of_read hread, ih hrest]

end IgnoreRules

/-! ## Configurations -/

namespace Config

variable {config : Config}

/-- The mistake that a check of `config` reports: the first bad signature, else the first bad glob,
else the number. -/
inductive Faulty (config : Config) : ConfigError → Prop where
  | signature {e : SignatureError} (bad : FirstRefusal Signature.read config.customFunctions e) :
      Faulty config (.signature e)
  | ignore {e : IgnoreError} (signatures : AllRead Signature.read config.customFunctions)
      (bad : FirstRefusal IgnoreRules.readGlob config.ignore e) : Faulty config (.ignore e)
  | zeroConcurrency (signatures : AllRead Signature.read config.customFunctions)
      (globs : AllRead IgnoreRules.readGlob config.ignore) (zero : config.concurrency = some 0) :
      Faulty config .zeroConcurrency

/-- Every signature and every glob of `config` can be read, and files are read at all. -/
structure Valid (config : Config) : Prop where
  signatures : AllRead Signature.read config.customFunctions
  globs : AllRead IgnoreRules.readGlob config.ignore
  concurrency : config.concurrency ≠ some 0

/-- Signatures that are good one by one are read together. -/
theorem readAll_eq_ok (h : AllRead Signature.read config.customFunctions) :
    ∃ signatures, Signature.readAll config.customFunctions = .ok signatures :=
  exists_mapM_eq_ok_iff.2 h

/-- A check reports exactly the mistake that a configuration has. -/
theorem validate_eq_error_iff {e : ConfigError} : config.validate = .error e ↔ config.Faulty e := by
  unfold validate
  constructor
  · intro h
    cases hsignatures : Signature.readAll config.customFunctions with
    | error bad =>
        simp only [hsignatures, Except.error.injEq] at h
        rw [← h]
        exact .signature (mapM_eq_error_iff.1 hsignatures)
    | ok signatures =>
        have hread := exists_mapM_eq_ok_iff.1 ⟨signatures, hsignatures⟩
        cases hrules : IgnoreRules.read config.ignore with
        | error bad =>
            simp only [hsignatures, hrules, Except.error.injEq] at h
            rw [← h]
            exact .ignore hread (IgnoreRules.read_eq_error_iff.1 hrules)
        | ok rules =>
            have hglobs := IgnoreRules.exists_read_iff.1 ⟨rules, hrules⟩
            by_cases hzero : config.concurrency = some 0
            · simp only [hsignatures, hrules, hzero, if_true, Except.error.injEq] at h
              rw [← h]
              exact .zeroConcurrency hread hglobs hzero
            · simp [hsignatures, hrules, hzero] at h
  · intro h
    cases h with
    | signature bad =>
        have hsignatures : Signature.readAll config.customFunctions = _ := mapM_eq_error_iff.2 bad
        simp only [hsignatures]
    | ignore signatures bad =>
        obtain ⟨read, hread⟩ := readAll_eq_ok signatures
        have hrules := IgnoreRules.read_eq_error_iff.2 bad
        simp only [hread, hrules]
    | zeroConcurrency signatures globs zero =>
        obtain ⟨read, hread⟩ := readAll_eq_ok signatures
        have hrules := IgnoreRules.read_eq_lenient globs
        simp only [hread, hrules, zero, if_true]

/-- A configuration passes its check exactly when it is valid. -/
theorem validate_eq_ok_iff : config.validate = .ok () ↔ config.Valid := by
  constructor
  · intro h
    -- each way to be invalid would be reported
    have hfaultless : ∀ e, ¬config.Faulty e := by
      intro e hfaulty
      rw [validate_eq_error_iff.2 hfaulty] at h
      cases h
    have hsignatures : AllRead Signature.read config.customFunctions := by
      cases hread : config.customFunctions.mapM Signature.read with
      | error e => exact absurd (.signature (mapM_eq_error_iff.1 hread)) (hfaultless _)
      | ok signatures => exact exists_mapM_eq_ok_iff.1 ⟨signatures, hread⟩
    have hglobs : AllRead IgnoreRules.readGlob config.ignore := by
      cases hread : IgnoreRules.read config.ignore with
      | error e =>
          have hbad := IgnoreRules.read_eq_error_iff.1 hread
          exact absurd (.ignore hsignatures hbad) (hfaultless _)
      | ok rules => exact IgnoreRules.exists_read_iff.1 ⟨rules, hread⟩
    exact ⟨hsignatures, hglobs, fun hzero =>
      hfaultless _ (.zeroConcurrency hsignatures hglobs hzero)⟩
  · rintro ⟨hsignatures, hglobs, hpositive⟩
    obtain ⟨signatures, hread⟩ := readAll_eq_ok hsignatures
    simp only [validate, hread, IgnoreRules.read_eq_lenient hglobs, hpositive, if_false]

/-- A scan with a valid configuration has no fault in a signature. -/
theorem Valid.runOn_ne_signature (h : config.Valid) (system : Scan.System) (fs : FileSystem)
    (root : Path) (e : SignatureError) :
    Scan.runOn system fs root ⟨config.customFunctions, config.ignore, config.concurrency⟩ ≠
      .error (.signature e) := by
  obtain ⟨signatures, hread⟩ := readAll_eq_ok h.signatures
  intro hrun
  simp only [Scan.runOn, hread] at hrun
  split at hrun <;> simp at hrun

end Config

/-! ## Places -/

namespace FileSystem

variable {fs : FileSystem} {path root : Path} {place names : List String} {t : FileTree}

/-- A step leads to where something stands. -/
theorem exists_at?_of_step {piece : String} (h : fs.step place piece = .ok names) :
    ∃ t, fs.top.at? names = some t := by
  obtain ⟨entries, hplace⟩ := directory_of_step h
  simp only [step, hplace] at h
  split at h
  · cases h
    exact ⟨_, hplace⟩
  · split at h
    · cases h
      -- what is above a place is there
      rcases List.eq_nil_or_concat place with rfl | ⟨above, last, rfl⟩
      · exact ⟨_, hplace⟩
      · rw [List.concat_eq_append, FileTree.at?_append] at hplace
        obtain ⟨t, ht, -⟩ := Option.bind_eq_some_iff.1 hplace
        exact ⟨t, by simpa using ht⟩
    · split at h
      next hfound =>
        cases h
        obtain ⟨t, ht⟩ := Option.isSome_iff_exists.1 hfound
        refine ⟨t, ?_⟩
        rw [FileTree.at?_append, hplace, Option.bind_some, FileTree.at?, FileTree.entries, ht]
        rfl
      · cases h

/-- Where pieces lead stands something. -/
theorem exists_at?_of_foldlM {pieces : List String} (hne : pieces ≠ [])
    (h : pieces.foldlM fs.step place = .ok names) : ∃ t, fs.top.at? names = some t := by
  induction pieces generalizing place with
  | nil => exact absurd rfl hne
  | cons piece rest ih =>
      rw [List.foldlM_cons] at h
      cases hstep : fs.step place piece with
      | error fault =>
          rw [hstep] at h
          cases h
      | ok next =>
          rw [hstep] at h
          cases rest with
          | nil =>
              cases h
              exact exists_at?_of_step hstep
          | cons other rest => exact ih (by simp) h

/-- A path that can be followed leads to where something stands. -/
theorem exists_at?_of_locate (h : fs.locate path = .ok names) : ∃ t, fs.top.at? names = some t := by
  unfold locate at h
  split at h
  · cases h
  · exact exists_at?_of_foldlM path.pieces_ne_nil h

/-- The names of a place lead to it. -/
theorem foldlM_step_names {t : FileTree} (hnames : ∀ name ∈ names, Path.IsName name)
    (h : fs.top.at? (place ++ names) = some t) :
    names.foldlM fs.step place = .ok (place ++ names) := by
  induction names generalizing place with
  | nil =>
      rw [List.append_nil]
      rfl
  | cons name rest ih =>
      have hname : Path.IsName name := hnames name List.mem_cons_self
      have hnext : fs.top.at? (place ++ [name] ++ rest) = some t := by simpa using h
      rw [FileTree.at?_append] at h
      obtain ⟨above, habove, hbelow⟩ := Option.bind_eq_some_iff.1 h
      cases above with
      | file bytes => simp [FileTree.at?, FileTree.entries, Named.find?] at hbelow
      | directory entries =>
          obtain ⟨found, hfound, -⟩ := Option.bind_eq_some_iff.1 hbelow
          have hfound : Named.find? entries name = some found := hfound
          have hstep : fs.step place name = .ok (place ++ [name]) := by
            simp [step, habove, hname.ne_empty, hname.ne_dot, hname.ne_dots, hfound]
          have hrest :=
            ih (fun other hother => hnames other (List.mem_cons_of_mem name hother)) hnext
          rw [List.foldlM_cons, hstep, List.append_cons place name rest]
          exact hrest

/-- Paths can only be followed from a directory. -/
theorem exists_directory_of_locate (h : fs.locate path = .ok names) :
    ∃ entries, fs.top = .directory entries := by
  unfold locate at h
  split at h
  · cases h
  · obtain ⟨piece, rest, hpieces⟩ : ∃ piece rest, path.pieces = piece :: rest :=
      List.exists_cons_of_ne_nil path.pieces_ne_nil
    rw [hpieces, List.foldlM_cons] at h
    cases hstep : fs.step (fs.start path) piece with
    | error fault =>
        rw [hstep] at h
        cases h
    | ok next =>
        obtain ⟨entries, hplace⟩ := directory_of_step hstep
        cases htop : fs.top with
        | directory entries => exact ⟨entries, rfl⟩
        | file bytes =>
            -- nothing stands below a file
            rw [htop] at hplace
            cases hstart : fs.start path with
            | nil => simp [hstart, FileTree.at?] at hplace
            | cons name above =>
                simp [hstart, FileTree.at?, FileTree.entries, Named.find?] at hplace

/-- The canonical path of a place leads there. -/
theorem exists_tree_of_canonical (htop : fs.top.Proper) (h : fs.canonical path = .ok root) :
    ∃ t, fs.tree root = .ok t := by
  cases hlocate : fs.locate path with
  | error fault => simp [canonical, hlocate, Except.map] at h
  | ok names =>
      have hroot : (⟨"/" ++ "/".intercalate names⟩ : Path) = root := by
        simpa [canonical, hlocate, Except.map] using h
      obtain ⟨t, ht⟩ := exists_at?_of_locate hlocate
      obtain ⟨entries, hentries⟩ := exists_directory_of_locate hlocate
      have hfirst : fs.step [] "" = .ok [] :=
        step_of_not_isComponent (by rw [hentries]; rfl) (by decide)
      have hnames := htop.isName_of_at? ht
      cases names with
      | nil =>
          refine ⟨.directory entries, ?_⟩
          rw [← hroot]
          exact tree_slash hentries
      | cons name rest =>
          have htext :
              "/" ++ "/".intercalate (name :: rest) = "/".intercalate ("" :: name :: rest) := by
            rw [String.intercalate_cons_cons]
            simp
          have hpieces : root.pieces = "" :: name :: rest := by
            rw [← hroot, htext]
            refine Path.pieces_intercalate_of_no_slash (by simp) fun piece hpiece => ?_
            rcases List.mem_cons.1 hpiece with rfl | hmem
            · decide
            · exact (hnames piece hmem).no_slash
          have habsolute : root.isAbsolute = true := by
            rw [← hroot, Path.isAbsolute_iff]
            exact ⟨_, String.toList_append⟩
          refine ⟨t, tree_eq_ok_iff.2 ⟨fun hempty => ?_, name :: rest, ?_, ht⟩⟩
          · obtain ⟨_, hslash⟩ := Path.isAbsolute_iff.1 habsolute
            simp [hempty] at hslash
          · rw [hpieces, start, habsolute, if_pos rfl, List.foldlM_cons, hfirst]
            exact foldlM_step_names hnames ht

end FileSystem

/-! ## Requests -/

namespace ScanRequest

variable {fs : FileSystem} {root directory : Path} {request : ScanRequest} {config merged : Config}

/-- A scan in `directory` starts from `config`, before the command adds to it. -/
inductive Chooses (fs : FileSystem) (directory : Path) (request : ScanRequest) : Config → Prop where
  | file {path : Path} {text : String} {config : Config}
      (chosen : request.config.or (Config.discover? fs directory) = some path)
      (reads : fs.readText path = .ok text) (parses : Config.parse text = .ok config) :
      Chooses fs directory request config
  | default (none_chosen : request.config.or (Config.discover? fs directory) = none) :
      Chooses fs directory request {}

/-- The directory that a scan of `root` looks for a configuration in. -/
def directoryOf (fs : FileSystem) (root : Path) : Path :=
  if fs.isFile root then root.parent?.getD root else root

/-- `loaded fs directory request` is the configuration that a scan in `directory` starts from. -/
def loaded (fs : FileSystem) (directory : Path) (request : ScanRequest) :
    Except ConfigError Config :=
  match request.config.or (Config.discover? fs directory) with
  | none => .ok {}
  | some file => Config.load fs file

/-- The configuration that is loaded is the one that the request chooses. -/
theorem loaded_eq_ok_iff :
    request.loaded fs directory = .ok config ↔ request.Chooses fs directory config := by
  unfold loaded
  cases hchosen : request.config.or (Config.discover? fs directory) with
  | none =>
      constructor
      · intro h
        cases h
        exact .default hchosen
      · intro h
        cases h with
        | file chosen => simp [hchosen] at chosen
        | default => rfl
  | some path =>
      constructor
      · intro h
        simp only [Config.load] at h
        split at h
        · cases h
        next text hreads => exact .file hchosen hreads h
      · intro h
        cases h with
        | default none_chosen => simp [hchosen] at none_chosen
        | file chosen reads parses =>
            obtain rfl := Option.some.inj (hchosen.symm.trans chosen)
            simp only [Config.load, reads, parses]

/-- A configuration is chosen, merged with what the command says, and checked. -/
theorem configIn_eq : request.configIn fs directory = do
    let config ← request.loaded fs directory
    (config.merge request.additions).validate
    return config.merge request.additions := by
  unfold configIn loaded
  cases request.config.or (Config.discover? fs directory) with
  | none =>
      simp only [bind, Except.bind]
      cases (Config.merge {} request.additions).validate <;> rfl
  | some file =>
      simp only
      cases Config.load fs file with
      | error e => rfl
      | ok config =>
          simp only [bind, Except.bind]
          cases (config.merge request.additions).validate <;> rfl

/-- A request is configured by what it chooses, with its additions, if that is valid. -/
theorem configIn_eq_ok_iff : request.configIn fs directory = .ok merged ↔
    ∃ config, request.Chooses fs directory config ∧
      (config.merge request.additions).validate = .ok () ∧
      merged = config.merge request.additions := by
  simp only [configIn_eq, ← loaded_eq_ok_iff]
  cases request.loaded fs directory with
  | error e => simp [bind, Except.bind]
  | ok config =>
      simp only [bind, Except.bind, Except.ok.injEq, exists_eq_left']
      cases (config.merge request.additions).validate with
      | error e => simp
      | ok checked => simp [pure, Except.pure, eq_comm]

/-- A scan whose path and configuration are in order is carried out. -/
theorem run_of_chooses (htop : fs.top.Proper) (coloured : Bool)
    (hroot : fs.canonical request.path = .ok root)
    (hchooses : request.Chooses fs (directoryOf fs root) config)
    (hvalid : (config.merge request.additions).validate = .ok ()) :
    (request.run fs coloured).status = 0 := by
  obtain ⟨t, ht⟩ := FileSystem.exists_tree_of_canonical htop hroot
  obtain ⟨signatures, hsignatures⟩ :=
    Config.readAll_eq_ok (Config.validate_eq_ok_iff.1 hvalid).signatures
  have hconfig : request.configIn fs (directoryOf fs root) = .ok (config.merge request.additions) :=
    configIn_eq_ok_iff.2 ⟨config, hchooses, hvalid, rfl⟩
  rw [directoryOf] at hconfig
  simp only [run, hroot, hconfig, Scan.run, Scan.runOn, hsignatures, ht]
  rfl

/-- A scan that is not carried out prints nothing. -/
theorem run_cases (fs : FileSystem) (coloured : Bool) (request : ScanRequest) :
    (request.run fs coloured).status = 2 ∧ (request.run fs coloured).output = "" ∨
      (request.run fs coloured).status = 0 ∧ ∃ root config, fs.canonical request.path = .ok root ∧
        request.Chooses fs (directoryOf fs root) config ∧
        (config.merge request.additions).validate = .ok () := by
  unfold run
  cases hroot : fs.canonical request.path with
  | error fault => exact .inl ⟨rfl, rfl⟩
  | ok root =>
      simp only
      cases hconfig : request.configIn fs (directoryOf fs root) with
      | error e =>
          rw [directoryOf] at hconfig
          simp only [hconfig]
          exact .inl ⟨rfl, rfl⟩
      | ok merged =>
          obtain ⟨config, hchooses, hvalid, -⟩ := configIn_eq_ok_iff.1 hconfig
          rw [directoryOf] at hconfig
          simp only [hconfig]
          cases Scan.run fs root ⟨merged.customFunctions, merged.ignore, merged.concurrency⟩ with
          | error e => exact .inl ⟨rfl, rfl⟩
          | ok found => exact .inr ⟨rfl, root, config, rfl, hchooses, hvalid⟩

end ScanRequest

/-- What is valid when it is checked is read in full by a scan: no signature fails there, and no
glob is left out. So a scan is carried out exactly when its path and its configuration are in order,
and prints nothing otherwise. -/
theorem valid_configurations {fs : FileSystem} (htop : fs.top.Proper) (coloured : Bool)
    (request : ScanRequest) :
    (∀ config more : Config,
      ((config.merge more).validate = .ok () ↔
        AllRead Signature.read (config.customFunctions ++ more.customFunctions) ∧
        AllRead Glob.read (config.ignore ++ more.ignore) ∧
        more.concurrency.or config.concurrency ≠ some 0) ∧
      (∀ e, (config.merge more).validate = .error e ↔ (config.merge more).Faulty e) ∧
      ((config.merge more).validate = .ok () →
        (∀ system fs root e, Scan.runOn system fs root ⟨(config.merge more).customFunctions,
          (config.merge more).ignore, (config.merge more).concurrency⟩ ≠ .error (.signature e)) ∧
        ∃ rules, IgnoreRules.read (config.merge more).ignore = .ok rules ∧
          rules.globs.map (·.pattern) = config.ignore ++ more.ignore ∧
          ∀ root path, (IgnoreRules.lenient (config.merge more).ignore).ignores root path =
            rules.ignores root path)) ∧
    ((request.run fs coloured).status = 0 ↔ ∃ root config, fs.canonical request.path = .ok root ∧
      request.Chooses fs (ScanRequest.directoryOf fs root) config ∧
      (config.merge request.additions).validate = .ok ()) ∧
    ((request.run fs coloured).status = 0 ∨
      (request.run fs coloured).status = 2 ∧ (request.run fs coloured).output = "") := by
  refine ⟨fun config more => ⟨?_, fun e => Config.validate_eq_error_iff, fun hok => ?_⟩, ?_, ?_⟩
  · rw [Config.validate_eq_ok_iff]
    have hglobs : AllRead IgnoreRules.readGlob (config.ignore ++ more.ignore) ↔
        AllRead Glob.read (config.ignore ++ more.ignore) := by
      simp only [AllRead, IgnoreRules.readGlob_eq_ok_iff]
    constructor
    · exact fun h => ⟨h.signatures, hglobs.1 h.globs, h.concurrency⟩
    · exact fun ⟨signatures, globs, concurrency⟩ => ⟨signatures, hglobs.2 globs, concurrency⟩
  · have hvalid := Config.validate_eq_ok_iff.1 hok
    refine ⟨hvalid.runOn_ne_signature, IgnoreRules.lenient (config.merge more).ignore, ?_, ?_, ?_⟩
    · exact IgnoreRules.read_eq_lenient hvalid.globs
    · exact IgnoreRules.map_pattern_lenient hvalid.globs
    · exact fun _ _ => rfl
  · constructor
    · intro hstatus
      rcases request.run_cases fs coloured with ⟨hrefused, -⟩ | ⟨-, hready⟩
      · omega
      · exact hready
    · rintro ⟨root, config, hroot, hchooses, hvalid⟩
      exact ScanRequest.run_of_chooses htop coloured hroot hchooses hvalid
  · rcases request.run_cases fs coloured with hrefused | ⟨hstatus, -⟩
    · exact .inr hrefused
    · exact .inl hstatus

/-- The entries of a directory with a source and with a configuration that sets nothing. -/
def configuredEntries : List (String × FileTree) :=
  [("main.js", .file ByteArray.empty), ("trackscan.yaml", .file "\n".toUTF8)]

/-- The files of a directory with a configuration. -/
def configuredFiles : FileSystem := ⟨.directory configuredEntries, []⟩

/-- A scan of these files, with one signature and one glob of its own. -/
def configuredScan : ScanRequest where
  path := ⟨"/"⟩
  additions := ⟨["track"], ["**/dist/**"], some 2⟩

/-- The files with the configuration are a proper tree. -/
theorem proper_configuredFiles : configuredFiles.top.Proper := by
  have hname : ∀ name ∈ ["main.js", "trackscan.yaml"], Path.IsName name := by
    intro name hmem
    constructor <;> revert name <;> decide
  exact .directory (by decide) (by simp [configuredEntries, hname])
    (by simp [configuredEntries, FileTree.Proper.file])

/-- The scan starts from the configuration in the directory. -/
theorem chooses_configuredScan : configuredScan.Chooses configuredFiles ⟨"/"⟩ {} := by
  have hname : Path.IsName "trackscan.yaml" := by constructor <;> decide
  have hslash : configuredFiles.tree ⟨"/"⟩ = .ok (.directory configuredEntries) :=
    FileSystem.tree_slash rfl
  have htree :
      configuredFiles.tree ((Path.mk "/").join ⟨"trackscan.yaml"⟩) = .ok (.file "\n".toUTF8) :=
    FileSystem.tree_join hname hslash rfl
  have hfile : configuredFiles.isFile ((Path.mk "/").join ⟨"trackscan.yaml"⟩) = true := by
    rw [FileSystem.isFile, htree]
    rfl
  have htext : configuredFiles.readText ((Path.mk "/").join ⟨"trackscan.yaml"⟩) = .ok "\n" := by
    have hutf8 : String.fromUTF8? "\n".toUTF8 = some "\n" := by decide +kernel
    simp only [FileSystem.readText, FileSystem.read, htree, hutf8]
  refine .file ?_ htext (by decide +kernel)
  show Option.or none (List.find? configuredFiles.isFile _) = _
  rw [Config.fileNames, List.map_cons, List.find?_cons_of_pos hfile, Option.none_or]

/-- The scan of the directory is carried out, and from a configuration with a signature that is none
it would not be. -/
theorem valid_configurations_of_configuredScan :
    configuredFiles.top.Proper ∧ (configuredScan.run configuredFiles false).status = 0 ∧
      (Config.merge ⟨["f(PROPERTIES)"], [], none⟩ configuredScan.additions).validate =
        .error (.signature (.missingEventName "f(PROPERTIES)")) := by
  have habsolute : (Path.mk "/").isAbsolute = true := by cbv
  have hroot : configuredFiles.canonical configuredScan.path = .ok ⟨"/"⟩ := by
    show configuredFiles.canonical ⟨"/"⟩ = _
    simp only [FileSystem.canonical, FileSystem.locate, FileSystem.start,
      Path.pieces_root, habsolute]
    decide
  have hdirectory : ScanRequest.directoryOf configuredFiles ⟨"/"⟩ = ⟨"/"⟩ := by
    have hslash : configuredFiles.tree ⟨"/"⟩ = .ok (.directory configuredEntries) :=
      FileSystem.tree_slash rfl
    rw [ScanRequest.directoryOf, FileSystem.isFile, hslash]
    rfl
  have hchooses : configuredScan.Chooses configuredFiles
      (ScanRequest.directoryOf configuredFiles ⟨"/"⟩) {} := by
    rw [hdirectory]
    exact chooses_configuredScan
  have hvalid : (Config.merge {} configuredScan.additions).validate = .ok () := by decide +kernel
  have hall := valid_configurations proper_configuredFiles false configuredScan
  refine ⟨proper_configuredFiles, hall.2.1.2 ⟨⟨"/"⟩, {}, hroot, hchooses, hvalid⟩, ?_⟩
  refine ((hall.1 ⟨["f(PROPERTIES)"], [], none⟩ configuredScan.additions).2.1 _).2 (.signature ?_)
  exact ⟨[], "f(PROPERTIES)", ["track"], rfl, by simp [AllRead], by decide +kernel⟩

end TrackingPlan
