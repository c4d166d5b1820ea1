import TrackingPlan.Proofs.CollectedFiles

/-!
# Directories and the paths of their entries

The parent of a path has all components but the last (`exists_parent?`), though it may be spelled
otherwise than the path before it: slashes and dots at the end are gone. `tree_congr` says that
directories do not depend on the spelling of their paths, `tree_join_congr` that what is taken from
them does not either, and `tree_join` finds an entry under its name.
-/

namespace TrackingPlan

namespace Path

variable {p q base : Path} {name : String}

/-! ## Pieces and components -/

/-- `steps p` lists the pieces of `p` that go on to another place. -/
def steps (p : Path) : List String := p.pieces.filter isComponent

/-- A component has the text of the piece that it is read from. -/
theorem text_of_component? {piece : String} {c : Component} (h : component? piece = some c) :
    c.text = piece := by
  unfold component? at h
  split at h
  · cases h
  split at h
  next hdots =>
    cases h
    exact hdots.symm
  next =>
    cases h
    rfl

/-- The components of pieces have the texts of those that are components. -/
theorem map_text_filterMap (pieces : List String) :
    (pieces.filterMap component?).map Component.text = pieces.filter isComponent := by
  induction pieces with
  | nil => rfl
  | cons piece rest ih =>
      cases hpiece : component? piece with
      | none => simp [isComponent, hpiece, ih]
      | some c => simp [isComponent, hpiece, ih, text_of_component? hpiece]

/-- A path is absolute when nothing stands before its first slash. -/
theorem isAbsolute_iff_pieces :
    p.isAbsolute = true ↔ ∃ second rest, p.pieces = "" :: second :: rest := by
  rw [isAbsolute_iff, pieces_eq]
  constructor
  · rintro ⟨rest, hrest⟩
    obtain ⟨second, others, hsplit⟩ := List.exists_cons_of_ne_nil (List.splitOn_ne_nil '/' rest)
    refine ⟨String.ofList second, others.map String.ofList, ?_⟩
    have hfirst := List.splitOn_append_cons_self (a := '/') [] rest
    rw [List.splitOn_nil, List.nil_append] at hfirst
    rw [hrest, hfirst, hsplit]
    rfl
  · rintro ⟨second, rest, hpieces⟩
    cases htext : p.text.toList with
    | nil => simp [htext] at hpieces
    | cons c cs =>
        rw [htext, List.splitOn_cons_eq_if_modifyHead] at hpieces
        by_cases hc : c = '/'
        · exact ⟨cs, by rw [hc]⟩
        · -- another character belongs to the first piece, which is then not empty
          obtain ⟨first, others, hsplit⟩ := List.exists_cons_of_ne_nil (List.splitOn_ne_nil '/' cs)
          simp [hc, hsplit] at hpieces

/-- No piece of a split list holds a slash. -/
theorem no_slash_of_mem_splitOn {cs piece : List Char} (h : piece ∈ cs.splitOn '/') :
    '/' ∉ piece := by
  induction cs generalizing piece with
  | nil =>
      rw [List.splitOn_nil, List.mem_singleton] at h
      simp [h]
  | cons c cs ih =>
      rw [List.splitOn_cons_eq_if_modifyHead] at h
      obtain ⟨first, others, hsplit⟩ := List.exists_cons_of_ne_nil (List.splitOn_ne_nil '/' cs)
      rw [hsplit] at h ih
      by_cases hc : c = '/'
      · simp only [hc, beq_self_eq_true, if_true, List.mem_cons] at h
        rcases h with rfl | h
        · simp
        · exact ih (List.mem_cons.2 h)
      · simp only [beq_iff_eq, hc, if_false, List.modifyHead_cons, List.mem_cons] at h
        rcases h with rfl | h
        · have hfirst := ih List.mem_cons_self
          simp [Ne.symm hc, hfirst]
        · exact ih (List.mem_cons_of_mem _ h)

/-- No piece of a path holds a slash. -/
theorem no_slash_of_mem_pieces {piece : String} (h : piece ∈ p.pieces) : '/' ∉ piece.toList := by
  rw [pieces_eq] at h
  obtain ⟨cs, hcs, rfl⟩ := List.mem_map.1 h
  simpa using no_slash_of_mem_splitOn hcs

/-- Texts without slashes that were put together with slashes are the pieces of the result. -/
theorem pieces_intercalate_of_no_slash {pieces : List String} (hne : pieces ≠ [])
    (h : ∀ piece ∈ pieces, '/' ∉ piece.toList) :
    (Path.mk ("/".intercalate pieces)).pieces = pieces := by
  have hslash : ∀ piece ∈ pieces.map String.toList, '/' ∉ piece := by simpa using h
  have hsplit := List.splitOn_intercalate '/' hslash (by simpa using hne)
  rw [pieces_eq]
  show (("/".intercalate pieces).toList.splitOn '/').map String.ofList = pieces
  rw [String.toList_intercalate]
  have hmark : "/".toList = ['/'] := by decide
  rw [hmark, hsplit, List.map_map]
  simp

/-- Pieces that were put together with slashes are the pieces of the result. -/
theorem pieces_intercalate {pieces : List String} (hne : pieces ≠ []) (h : pieces ⊆ p.pieces) :
    (Path.mk ("/".intercalate pieces)).pieces = pieces :=
  pieces_intercalate_of_no_slash hne fun _ hpiece => no_slash_of_mem_pieces (h hpiece)

/-- A piece is not read as the root or as a single dot. -/
theorem component?_ne {piece : String} {c : Component} (h : component? piece = some c) :
    c ≠ .root ∧ c ≠ .current := by
  unfold component? at h
  split at h
  · cases h
  split at h
  · cases h
    decide
  · cases h
    exact ⟨Component.noConfusion, Component.noConfusion⟩

/-- Pieces spell neither the root nor a single dot. -/
theorem ne_of_mem_moves {pieces : List String} {c : Component}
    (h : c ∈ pieces.filterMap component?) :
    c ≠ .root ∧ c ≠ .current := by
  obtain ⟨piece, -, hpiece⟩ := List.mem_filterMap.1 h
  exact component?_ne hpiece

/-- No piece is read as the root. -/
theorem root_not_mem_moves (pieces : List String) : .root ∉ pieces.filterMap component? :=
  fun h => (ne_of_mem_moves h).1 rfl

/-- What stands before the components that the pieces spell: the root, a dot, or nothing. -/
theorem components_eq_append (p : Path) :
    ∃ start, p.components = start ++ p.pieces.filterMap component? ∧
    (p.isAbsolute = true ∧ start = [.root] ∨
      p.isAbsolute = false ∧ (start = [.current] ∨ start = [])) := by
  by_cases habsolute : p.isAbsolute = true
  · exact ⟨[.root], by rw [components, if_pos habsolute]; rfl, .inl ⟨habsolute, rfl⟩⟩
  · have hrelative : p.isAbsolute = false := by simpa using habsolute
    cases hpieces : p.pieces with
    | nil => exact ⟨[], by simp [components, hrelative, hpieces], .inr ⟨hrelative, .inr rfl⟩⟩
    | cons first rest =>
        rw [components_of_relative habsolute hpieces]
        by_cases hdot : first = "."
        · exact ⟨[.current], by simp [hdot, component?], .inr ⟨hrelative, .inl rfl⟩⟩
        · refine ⟨[], ?_, .inr ⟨hrelative, .inr rfl⟩⟩
          cases hfirst : component? first <;> simp [hdot, hfirst]

/-- Absolute paths are those with the root among their components. -/
theorem isAbsolute_iff_root_mem : p.isAbsolute = true ↔ .root ∈ p.components := by
  obtain ⟨start, hcomponents, hstart⟩ := components_eq_append p
  have hrest := root_not_mem_moves p.pieces
  rw [hcomponents, List.mem_append]
  rcases hstart with ⟨habsolute, rfl⟩ | ⟨habsolute, rfl | rfl⟩ <;> simp [habsolute, hrest]

/-- Paths with the same components start at the same place and go the same steps. -/
theorem steps_congr (h : p.components = q.components) :
    p.isAbsolute = q.isAbsolute ∧ p.steps = q.steps := by
  have hp : ∀ c ∈ p.pieces.filterMap component?, c ≠ .root ∧ c ≠ .current :=
    fun c => ne_of_mem_moves
  have hq : ∀ c ∈ q.pieces.filterMap component?, c ≠ .root ∧ c ≠ .current :=
    fun c => ne_of_mem_moves
  obtain ⟨start, hcomponents, hstart⟩ := components_eq_append p
  obtain ⟨start', hcomponents', hstart'⟩ := components_eq_append q
  rw [hcomponents, hcomponents'] at h
  have hsteps : p.pieces.filterMap component? = q.pieces.filterMap component? ∧
      p.isAbsolute = q.isAbsolute := by
    rcases hstart with ⟨ha, rfl⟩ | ⟨ha, rfl | rfl⟩ <;>
      rcases hstart' with ⟨ha', rfl⟩ | ⟨ha', rfl | rfl⟩ <;> grind
  refine ⟨hsteps.2, ?_⟩
  rw [steps, steps, ← map_text_filterMap, ← map_text_filterMap, hsteps.1]

/-! ## Parents -/

/-- `isBlank piece` holds of the pieces that spell no component at the end of a path. -/
def isBlank (piece : String) : Bool := piece = "" || piece = "."

/-- Trimming stops at the first piece. -/
theorem trimPieces_append (pieces : List String) (first : String) :
    trimPieces (pieces ++ [first]) = pieces.dropWhile isBlank ++ [first] := by
  induction pieces with
  | nil => rfl
  | cons piece rest ih =>
      obtain ⟨second, others, hrest⟩ : ∃ second others, rest ++ [first] = second :: others :=
        List.exists_cons_of_ne_nil (by simp)
      rw [List.cons_append, hrest, trimPieces, ← hrest, ih, List.dropWhile_cons]
      · by_cases hpiece : piece = "" ∨ piece = "." <;> simp [isBlank, hpiece]
      · simp

/-- Pieces that are trimmed from the end are no components. -/
theorem filterMap_dropWhile_isBlank (pieces : List String) :
    (pieces.reverse.dropWhile isBlank).reverse.filterMap component? =
      pieces.filterMap component? := by
  have hblank : ∀ piece ∈ pieces.reverse.takeWhile isBlank, component? piece = none := by
    intro piece hpiece
    have hends : isBlank piece = true := List.all_eq_true.1 List.all_takeWhile piece hpiece
    simp only [isBlank] at hends
    rw [component?, if_pos hends]
  conv_rhs => rw [← pieces.reverse_reverse, ← List.takeWhile_append_dropWhile (p := isBlank)
    (l := pieces.reverse), List.reverse_append, List.filterMap_append]
  have hnone : (pieces.reverse.takeWhile isBlank).reverse.filterMap component? = [] := by
    refine List.filterMap_eq_nil_iff.2 fun piece hpiece => hblank piece (List.mem_reverse.1 hpiece)
  rw [hnone, List.append_nil]

/-- What the first piece of a path spells, which may be absolute. -/
def opening (isAbsolute : Bool) (first : String) : List Component :=
  if isAbsolute then [.root] else if first = "." then [.current] else (component? first).toList

/-- The components of a path are its opening and those of the pieces behind. -/
theorem components_of_pieces {first : String} {rest : List String} (h : p.pieces = first :: rest) :
    p.components = opening p.isAbsolute first ++ rest.filterMap component? := by
  cases habsolute : p.isAbsolute with
  | false =>
      rw [components_of_relative (by simp [habsolute]) h]
      rfl
  | true =>
      obtain ⟨second, more, hpieces⟩ := isAbsolute_iff_pieces.1 habsolute
      obtain ⟨rfl, -⟩ := List.cons.inj (h.symm.trans hpieces)
      rw [components, if_pos habsolute, h]
      rfl

/-- The pieces of a path, put together with slashes, are its text. -/
theorem intercalate_pieces (p : Path) : "/".intercalate p.pieces = p.text := by
  have hmark : "/".toList = ['/'] := by decide
  have hsplit : ['/'].intercalate (p.text.toList.splitOn '/') = p.text.toList :=
    List.intercalate_splitOn '/'
  rw [← String.toList_inj, String.toList_intercalate, hmark, pieces_eq, ← hsplit]
  simp

/-- A path of one empty piece is empty. -/
theorem text_eq_empty_of_pieces (h : p.pieces = [""]) : p.text = "" := by
  rw [← intercalate_pieces, h, String.intercalate_singleton]

/-- The root has two empty pieces. -/
theorem pieces_root : (Path.mk "/").pieces = ["", ""] := by
  rw [pieces_eq]
  decide

/-- The parent of a path is what stands before its last piece, trimmed, or the root. -/
theorem parent?_of_trimPieces {last : String} {others : List String}
    (h : trimPieces p.pieces.reverse = last :: others) (hne : others ≠ []) :
    p.parent? = some (if trimPieces others = [""] then ⟨"/"⟩
      else ⟨"/".intercalate (trimPieces others).reverse⟩) := by
  obtain ⟨second, rest, rfl⟩ := List.exists_cons_of_ne_nil hne
  rw [parent?, h]
  split
  next heq => simp at heq
  next heq => simp at heq
  next heq => simp at heq
  next heq =>
    rw [(List.cons.inj heq).2]
    split
    next hroot => rw [if_pos hroot]
    next hroot => rw [if_neg hroot]

/-- A piece is blank if it is no component. -/
theorem isBlank_iff {piece : String} : isBlank piece = true ↔ component? piece = none := by
  by_cases hblank : piece = "" ∨ piece = "."
  · rcases hblank with rfl | rfl <;> simp [isBlank, component?]
  · obtain ⟨hempty, hdot⟩ := not_or.1 hblank
    by_cases hdots : piece = ".." <;> simp [isBlank, component?, hempty, hdot, hdots]

/-- What is left of a path with several pieces starts where the path does. -/
theorem components_of_kept {first : String} {rest kept : List String}
    (hpieces : p.pieces = first :: rest) (hrest : rest ≠ []) (hkept : kept ⊆ rest) :
    (if kept.dropWhile isBlank ++ [first] = [""] then Path.mk "/"
      else ⟨"/".intercalate (kept.dropWhile isBlank ++ [first]).reverse⟩).components =
      opening p.isAbsolute first ++ kept.reverse.filterMap component? := by
  have hblank := filterMap_dropWhile_isBlank kept.reverse
  rw [List.reverse_reverse] at hblank
  obtain ⟨second, more, hmore⟩ := List.exists_cons_of_ne_nil hrest
  split
  next hroot =>
    -- nothing but the root is left
    obtain ⟨hnone, rfl⟩ : kept.dropWhile isBlank = [] ∧ first = "" := by
      simpa [List.append_eq_cons_iff] using hroot
    have habsolute : p.isAbsolute = true := isAbsolute_iff_pieces.2 ⟨second, more, hmore ▸ hpieces⟩
    have hslash : (Path.mk "/").components = [.root] := by cbv
    rw [hslash, ← hblank, hnone, habsolute]
    rfl
  next hroot =>
    rw [List.reverse_append, List.reverse_singleton, List.singleton_append]
    have hsubset : first :: (kept.dropWhile isBlank).reverse ⊆ p.pieces := by
      rw [hpieces]
      refine List.cons_subset_cons _ fun piece hpiece => hkept ?_
      exact (List.dropWhile_sublist _).subset (List.mem_reverse.1 hpiece)
    have hleft := pieces_intercalate (List.cons_ne_nil _ _) hsubset
    rw [components_of_pieces hleft, hblank]
    congr 2
    rw [Bool.eq_iff_iff, isAbsolute_iff_pieces, isAbsolute_iff_pieces, hleft, hpieces, hmore]
    by_cases hfirst : first = ""
    · have hkeeps : kept.dropWhile isBlank ≠ [] := by
        intro hnone
        exact hroot (by rw [hnone, hfirst]; rfl)
      obtain ⟨last, others, hlast⟩ := List.exists_cons_of_ne_nil (List.reverse_ne_nil_iff.2 hkeeps)
      simp [hfirst, hlast]
    · simp [hfirst]

/-- A path with a component after its root has a parent, which has all components but the last. -/
theorem exists_parent? {before : List Component} {last : Component}
    (h : p.components = before ++ [last]) (hroot : last ≠ .root) :
    ∃ parent, p.parent? = some parent ∧ parent.components = before := by
  obtain ⟨first, rest, hpieces⟩ : ∃ first rest, p.pieces = first :: rest :=
    List.exists_cons_of_ne_nil p.pieces_ne_nil
  have hcomponents := components_of_pieces hpieces
  rw [h, ← filterMap_dropWhile_isBlank rest] at hcomponents
  have htrim := trimPieces_append rest.reverse first
  rw [← List.reverse_cons, ← hpieces] at htrim
  cases hkept : rest.reverse.dropWhile isBlank with
  | nil =>
      -- the last component is the only one
      rw [hkept, List.reverse_nil, List.filterMap_nil, List.append_nil] at hcomponents
      rw [hkept] at htrim
      have hempty : (Path.mk "").components = [] := by cbv
      unfold opening at hcomponents
      split at hcomponents
      · have hlast : before = [] ∧ last = .root := by
          simpa [List.append_eq_cons_iff] using hcomponents
        exact absurd hlast.2 hroot
      · have hbefore : before = [] := by
          cases hfirst : component? first <;> split at hcomponents <;>
            simp_all [List.append_eq_cons_iff]
        have hfirst : first ≠ "" := by
          rintro rfl
          simp [component?] at hcomponents
        refine ⟨⟨""⟩, ?_, by rw [hbefore, hempty]⟩
        rw [parent?, htrim]
        simp
  | cons piece kept =>
      rw [hkept, List.reverse_cons, List.filterMap_append, ← List.append_assoc] at hcomponents
      rw [hkept, List.cons_append] at htrim
      obtain ⟨c, hc⟩ : ∃ c, component? piece = some c := by
        have hnot : isBlank piece ≠ true := by
          have hhead := List.head_dropWhile_not isBlank (l := rest.reverse) (by simp [hkept])
          simpa [hkept] using hhead
        exact Option.ne_none_iff_exists'.1 fun hnone => hnot (isBlank_iff.2 hnone)
      have hbefore : before = opening p.isAbsolute first ++ kept.reverse.filterMap component? :=
        (List.append_inj' (by simpa [hc] using hcomponents) rfl : _ ∧ [last] = [c]).1
      have hsubset : kept ⊆ rest := by
        intro other hother
        have hmem : other ∈ rest.reverse.dropWhile isBlank := hkept ▸ List.mem_cons_of_mem _ hother
        exact List.mem_reverse.1 ((List.dropWhile_sublist _).subset hmem)
      have hrest : rest ≠ [] := by
        rintro rfl
        cases hkept
      have hparent := parent?_of_trimPieces htrim (by simp)
      rw [trimPieces_append] at hparent
      exact ⟨_, hparent, (components_of_kept hpieces hrest hsubset).trans hbefore.symm⟩

/-- The parent of a path that was taken from another one has the components of that. -/
theorem parent?_join (hbase : base.text ≠ "") (hname : IsName name) :
    ∃ parent, (base.join ⟨name⟩).parent? = some parent ∧ parent.components = base.components :=
  exists_parent? (components_join hbase hname) Component.noConfusion

/-- A path that is joined with a name has it for its file name. -/
theorem fileName?_join (hbase : base.text ≠ "") (hname : IsName name) :
    (base.join ⟨name⟩).fileName? = some name := by
  rw [fileName?, components_join hbase hname, List.getLast?_append]
  rfl

/-- A path that is not empty has components. -/
theorem components_ne_nil (h : p.text ≠ "") : p.components ≠ [] := by
  by_cases habsolute : p.isAbsolute = true
  · simp [components, habsolute]
  · cases hpieces : p.pieces with
    | nil =>
        rw [pieces_eq, List.map_eq_nil_iff] at hpieces
        exact absurd hpieces (List.splitOn_ne_nil '/' _)
    | cons first rest =>
        rw [components_of_relative habsolute hpieces]
        by_cases hfirst : first = ""
        · -- nothing stands before the first slash of an absolute path only
          subst hfirst
          cases rest with
          | nil => exact absurd (text_eq_empty_of_pieces hpieces) h
          | cons second rest =>
              exact absurd (isAbsolute_iff_pieces.2 ⟨second, rest, hpieces⟩) habsolute
        · by_cases hdot : first = "."
          · simp [hdot]
          · by_cases hdots : first = ".." <;> simp [component?, hfirst, hdot, hdots]

/-- Only the empty text spells a path without components. -/
theorem text_ne_empty_congr (h : p.components = q.components) (hp : p.text ≠ "") : q.text ≠ "" := by
  intro hempty
  have hnone : (Path.mk "").components = [] := by cbv
  obtain rfl : q = ⟨""⟩ := Path.mk.injEq _ _ ▸ hempty
  exact components_ne_nil hp (h.trans hnone)

/-- The empty path has no other spelling. -/
theorem eq_of_text_eq_empty (h : p.components = q.components) (hp : p.text = "") : p = q := by
  have hq : q.text = "" := by
    by_contra hne
    exact text_ne_empty_congr h.symm hne hp
  exact Path.mk.injEq _ _ ▸ hp.trans hq.symm

/-- What is taken from a path has the same components for every spelling of that path. -/
theorem components_join_congr (h : base.components = q.components) (p : Path) :
    (base.join p).components = (q.join p).components := by
  cases hp : p.isAbsolute with
  | true =>
      rw [join, join, hp]
      rfl
  | false =>
      by_cases hbase : base.text = ""
      · rw [eq_of_text_eq_empty h hbase]
      · rw [components_join_of_relative hbase hp,
          components_join_of_relative (text_ne_empty_congr h hbase) hp, h]

end Path

/-- The language of an entry of a directory is told by what follows the last full stop of its
name. -/
theorem Language.ofPath?_join {base : Path} {name : String} {stem extension : List Char}
    (hbase : base.text ≠ "") (hname : Path.IsName name) (htext : Text.isPlain name = true)
    (hplain : name.endsWith ".d.ts" = false) (hspelled : name.toList = stem ++ '.' :: extension)
    (hstem : stem ≠ []) (hextension : '.' ∉ extension) :
    ofPath? (base.join ⟨name⟩) = ofExtension? (String.ofList extension) := by
  have hpast : ∀ c ∈ extension.reverse, (c ≠ '.' : Bool) = true := by
    intro c hc
    have hne : c ≠ '.' := fun heq => hextension (heq ▸ List.mem_reverse.1 hc)
    simpa using hne
  have hspan : name.toList.reverse.span (· ≠ '.') = (extension.reverse, '.' :: stem.reverse) := by
    rw [hspelled, List.reverse_append, List.reverse_cons, List.append_assoc,
      List.span_eq_takeWhile_dropWhile, List.takeWhile_append_of_pos hpast,
      List.dropWhile_append_of_pos hpast]
    simp
  obtain ⟨last, others, hlast⟩ := List.exists_cons_of_ne_nil (List.reverse_ne_nil_iff.2 hstem)
  rw [hlast] at hspan
  have hfound : (base.join ⟨name⟩).extension? = some (String.ofList extension) := by
    simp only [Path.extension?, Path.fileName?_join hbase hname, hspan, List.reverse_reverse]
  simp [ofPath?, Path.fileName?_join hbase hname, htext, hplain, hfound]

namespace FileSystem

variable {fs : FileSystem} {p q base : Path} {place names : List String} {piece name : String}
  {entries : List (String × FileTree)} {t : FileTree}

/-! ## Going along paths -/

/-- A tree stands at a path if its pieces lead there, step by step. -/
theorem tree_eq_ok_iff : fs.tree p = .ok t ↔
    p.text ≠ "" ∧ ∃ names, p.pieces.foldlM fs.step (fs.start p) = .ok names ∧
    fs.top.at? names = some t := by
  unfold tree locate
  by_cases hempty : p.text = ""
  · simp [hempty]
  · rw [if_neg hempty]
    cases hplace : p.pieces.foldlM fs.step (fs.start p) with
    | error fault => simp
    | ok names => cases hfound : fs.top.at? names <;> simp [hempty, hfound]

/-- Pieces that spell no component stay in a directory. -/
theorem step_of_not_isComponent (hplace : fs.top.at? place = some (.directory entries))
    (h : Path.isComponent piece = false) : fs.step place piece = .ok place := by
  have hblank : piece = "" ∨ piece = "." := by
    by_contra hne
    rw [not_or] at hne
    by_cases hdots : piece = ".." <;> simp_all [Path.isComponent, Path.component?]
  rcases hblank with rfl | rfl <;> simp [step, hplace]

/-- A step is made from a directory only. -/
theorem directory_of_step (h : fs.step place piece = .ok names) :
    ∃ entries, fs.top.at? place = some (.directory entries) := by
  unfold step at h
  split at h
  · cases h
  · cases h
  next entries hentries => exact ⟨entries, hentries⟩

/-- The way to a directory starts in a directory. -/
theorem directory_of_foldlM {pieces : List String} (h : pieces.foldlM fs.step place = .ok names)
    (hnames : fs.top.at? names = some (.directory entries)) :
    ∃ entries, fs.top.at? place = some (.directory entries) := by
  cases pieces with
  | nil =>
      cases h
      exact ⟨entries, hnames⟩
  | cons piece rest =>
      rw [List.foldlM_cons] at h
      cases hstep : fs.step place piece with
      | error fault =>
          rw [hstep] at h
          cases h
      | ok next => exact directory_of_step hstep

/-- A way to a directory may leave out the pieces that spell no component. -/
theorem foldlM_step_filter {pieces : List String}
    (hnames : fs.top.at? names = some (.directory entries)) :
    pieces.foldlM fs.step place = .ok names ↔
      (pieces.filter Path.isComponent).foldlM fs.step place = .ok names := by
  induction pieces generalizing place with
  | nil => rfl
  | cons piece rest ih =>
      cases hpiece : Path.isComponent piece with
      | true =>
          rw [List.filter_cons_of_pos hpiece, List.foldlM_cons, List.foldlM_cons]
          cases hstep : fs.step place piece with
          | error fault => rfl
          | ok next => exact ih
      | false =>
          rw [List.filter_cons_of_neg (by simp [hpiece]), List.foldlM_cons, ← ih]
          constructor
          · intro h
            cases hstep : fs.step place piece with
            | error fault =>
                rw [hstep] at h
                cases h
            | ok next =>
                obtain ⟨entries, hentries⟩ := directory_of_step hstep
                rw [step_of_not_isComponent hentries hpiece] at h
                exact h
          · intro h
            obtain ⟨entries, hentries⟩ := directory_of_foldlM h hnames
            rw [step_of_not_isComponent hentries hpiece]
            exact h

/-- Paths with the same components lead to the same directory. -/
theorem tree_congr (hsame : p.components = q.components) (hq : q.text ≠ "")
    (h : fs.tree p = .ok (.directory entries)) : fs.tree q = .ok (.directory entries) := by
  obtain ⟨-, names, hplace, hnames⟩ := tree_eq_ok_iff.1 h
  obtain ⟨habsolute, hsteps⟩ := Path.steps_congr hsame
  refine tree_eq_ok_iff.2 ⟨hq, names, ?_, hnames⟩
  rw [foldlM_step_filter hnames] at hplace ⊢
  rw [start, ← habsolute]
  rw [Path.steps, Path.steps] at hsteps
  rw [← hsteps]
  exact hplace

/-- On the way to a further piece, pieces that spell no component do not count, whether the way can
be gone or not. -/
theorem foldlM_step_append {pieces more : List String} (hmore : more ≠ []) :
    (pieces ++ more).foldlM fs.step place =
      (pieces.filter Path.isComponent ++ more).foldlM fs.step place := by
  induction pieces generalizing place with
  | nil => rfl
  | cons piece rest ih =>
      cases hpiece : Path.isComponent piece with
      | true =>
          rw [List.filter_cons_of_pos hpiece, List.cons_append, List.cons_append, List.foldlM_cons,
            List.foldlM_cons]
          exact congrArg _ (funext fun _ => ih)
      | false =>
          rw [List.filter_cons_of_neg (by simp [hpiece]), ← ih, List.cons_append, List.foldlM_cons]
          -- the next piece fails where this one does
          obtain ⟨next, others, hnext⟩ : ∃ next others, rest ++ more = next :: others :=
            List.exists_cons_of_ne_nil (List.append_ne_nil_of_right_ne_nil rest hmore)
          rw [hnext]
          cases hplace : fs.top.at? place with
          | none =>
              simp only [List.foldlM_cons, step, hplace]
              rfl
          | some t =>
              cases t with
              | file bytes =>
                  simp only [List.foldlM_cons, step, hplace]
                  rfl
              | directory entries =>
                  rw [step_of_not_isComponent hplace hpiece]
                  rfl

/-- The way to what is taken from a path goes the steps of that path first. -/
theorem locate_join (hbase : base.text ≠ "") (hp : p.isAbsolute = false) :
    fs.locate (base.join p) = (base.steps ++ p.pieces).foldlM fs.step (fs.start base) := by
  obtain ⟨first, rest, hjoin, hpieces⟩ := Path.pieces_join hbase hp
  have hmore : p.pieces ≠ [] := p.pieces_ne_nil
  have hsteps : (first :: rest).filter Path.isComponent = base.steps := by
    have hblank : Path.isComponent "" = false := by decide
    rcases hpieces with h | h
    · rw [Path.steps, h]
    · rw [Path.steps, h, ← List.cons_append, List.filter_append]
      simp [hblank]
  rw [locate, if_neg (Path.text_join_ne_empty hbase), hjoin, start, start,
    Path.isAbsolute_join hbase hp, ← List.cons_append, foldlM_step_append hmore, hsteps]

/-- Only from a directory something can be taken. -/
theorem exists_directory_of_tree_join (hbase : base.text ≠ "") (hp : p.isAbsolute = false)
    (h : fs.tree (base.join p) = .ok t) : ∃ entries, fs.tree base = .ok (.directory entries) := by
  obtain ⟨piece, rest, hpieces⟩ : ∃ piece rest, p.pieces = piece :: rest :=
    List.exists_cons_of_ne_nil p.pieces_ne_nil
  have hlocate : fs.locate (base.join p) = _ := locate_join hbase hp
  rw [hpieces, List.foldlM_append] at hlocate
  rw [tree, hlocate] at h
  cases hplace : base.steps.foldlM fs.step (fs.start base) with
  | error fault =>
      rw [hplace] at h
      cases h
  | ok place =>
      rw [hplace] at h
      cases hstep : fs.step place piece with
      | error fault =>
          simp only [bind, Except.bind, List.foldlM_cons, hstep] at h
          cases h
      | ok next =>
          obtain ⟨entries, hentries⟩ := directory_of_step hstep
          exact ⟨entries, tree_eq_ok_iff.2
            ⟨hbase, place, (foldlM_step_filter hentries).2 hplace, hentries⟩⟩

/-- What is taken from a path stands where it stands for every spelling of that path. -/
theorem tree_join_congr (hsame : base.components = q.components) (p : Path) :
    fs.tree (base.join p) = fs.tree (q.join p) := by
  cases hp : p.isAbsolute with
  | true =>
      rw [Path.join, Path.join, hp]
      rfl
  | false =>
      by_cases hbase : base.text = ""
      · rw [Path.eq_of_text_eq_empty hsame hbase]
      · obtain ⟨habsolute, hsteps⟩ := Path.steps_congr hsame
        rw [tree, tree, locate_join hbase hp, locate_join (Path.text_ne_empty_congr hsame hbase) hp,
          hsteps, start, start, habsolute]

/-- An entry of a directory stands at its name. -/
theorem tree_join (hname : Path.IsName name) (hbase : fs.tree base = .ok (.directory entries))
    (ht : Named.find? entries name = some t) : fs.tree (base.join ⟨name⟩) = .ok t := by
  obtain ⟨htext, names, hplace, hnames⟩ := tree_eq_ok_iff.1 hbase
  have hlast : fs.step names name = .ok (names ++ [name]) := by
    simp [step, hnames, hname.ne_empty, hname.ne_dot, hname.ne_dots, ht]
  have hfound : fs.top.at? (names ++ [name]) = some t := by
    rw [FileTree.at?_append, hnames, Option.bind_some, FileTree.at?, FileTree.entries, ht]
    rfl
  rw [foldlM_step_filter hnames] at hplace
  have hlocate : fs.locate (base.join ⟨name⟩) = .ok (names ++ [name]) := by
    rw [locate_join htext hname.isAbsolute_eq, hname.pieces_eq, Path.steps,
      List.foldlM_append, hplace]
    simp only [List.foldlM_cons, List.foldlM_nil, bind_pure]
    exact hlast
  rw [tree, hlocate]
  simp only [hfound]

/-- The path of a single slash leads to the directory at the top. -/
theorem tree_slash (h : fs.top = .directory entries) :
    fs.tree ⟨"/"⟩ = .ok (.directory entries) := by
  have habsolute : (Path.mk "/").isAbsolute = true := by cbv
  have htop : fs.top.at? [] = some (.directory entries) := by
    rw [h]
    rfl
  have hstep : fs.step [] "" = .ok [] := step_of_not_isComponent htop (by decide)
  refine tree_eq_ok_iff.2 ⟨by decide, [], ?_, by rw [h]; rfl⟩
  rw [Path.pieces_root, start, habsolute, if_pos rfl, List.foldlM_cons, hstep]
  exact congrArg (· >>= pure) hstep

/-- An entry of a directory that is a file is read under its name. -/
theorem read_join {bytes : ByteArray} (hname : Path.IsName name)
    (hbase : fs.tree base = .ok (.directory entries))
    (ht : Named.find? entries name = some (.file bytes)) :
    fs.read (base.join ⟨name⟩) = .ok bytes := by
  rw [read, tree_join hname hbase ht]

end FileSystem

/-! ## Directories of sources -/

/-- A scan of a directory that holds nothing but visible sources looks at each of them. -/
theorem collect_sources {fs : FileSystem} {root : Path} {entries : List (String × FileTree)}
    (htree : fs.tree root = .ok (.directory entries))
    (hentries : ∀ entry ∈ entries, isHidden entry.1 = false ∧ entry.2.isFile = true ∧
      (Language.ofPath? (root.join ⟨entry.1⟩)).isSome = true) :
    collect fs ⟨[]⟩ root = Path.ordered (entries.map fun entry => root.join ⟨entry.1⟩) := by
  have hwalk : ∀ entry ∈ entries, FileTree.walkEntry (isEntered ⟨[]⟩ root) root entry =
      [root.join ⟨entry.1⟩] := by
    rintro ⟨name, t⟩ hentry
    obtain ⟨hvisible, hfile, -⟩ := hentries _ hentry
    cases t with
    | directory below => cases hfile
    | file bytes =>
        have hentered : isEntered ⟨[]⟩ root name (root.join ⟨name⟩) (.file bytes) = true :=
          isEntered_iff.2 ⟨hvisible, ⟨fun hdirectory => Bool.noConfusion hdirectory, rfl⟩⟩
        rw [FileTree.walkEntry, if_pos hentered]
        rfl
  have hfiles : FileTree.walk (isEntered ⟨[]⟩ root) root (.directory entries) =
      entries.map fun entry => root.join ⟨entry.1⟩ := by
    rw [FileTree.walk_directory, List.flatMap_congr hwalk]
    exact List.flatMap_pure_eq_map _ entries
  rw [collect_eq rfl htree, hfiles, List.filter_eq_self.2]
  intro p hp
  obtain ⟨entry, hentry, rfl⟩ := List.mem_map.1 hp
  exact (hentries entry hentry).2.2

end TrackingPlan
