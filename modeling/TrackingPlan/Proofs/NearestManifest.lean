import TrackingPlan.Proofs.Directories
import TrackingPlan.Project.Owner

/-!
# The nearest manifest

A search for a manifest goes up from the directory of a file to the root of a workspace. Directories
are compared by their components, so that `nearest_manifestFrom`, the induction over the search,
does not depend on how they are spelled. `nearest_manifest?` is the main statement: of the
directories between the root and the file, the deepest with a manifest is found, and nothing where
none has one.
-/

namespace TrackingPlan

namespace Path

variable {p root : Path} {rest : List Component}

/-- `p` stands below `root`: it starts at the same place and has further components. -/
structure IsBelow (root p : Path) : Prop where
  isAbsolute_eq : root.isAbsolute = p.isAbsolute
  exists_rest : ∃ up last, p.components = root.components ++ up ++ [last]

/-- Only the first component can be the root, and only that of an absolute path. -/
theorem root_not_mem (p : Path) : ∃ first rest, p.components = first ++ rest ∧ .root ∉ rest ∧
    first = if p.isAbsolute then [.root] else [] := by
  obtain ⟨start, hcomponents, hstart⟩ := components_eq_append p
  have hmoves := root_not_mem_moves p.pieces
  rcases hstart with ⟨habsolute, rfl⟩ | ⟨hrelative, rfl | rfl⟩
  · exact ⟨_, _, hcomponents, hmoves, by simp [habsolute]⟩
  · exact ⟨[], _, hcomponents, by simpa using hmoves, by simp [hrelative]⟩
  · exact ⟨[], _, hcomponents, hmoves, by simp [hrelative]⟩

/-- What leads on from one directory to another does not start at the top again. -/
theorem IsBelow.root_not_mem (h : root.IsBelow p) (hrest : p.components = root.components ++ rest) :
    .root ∉ rest := by
  obtain ⟨first, more, hroot, -, hfirst⟩ := Path.root_not_mem root
  obtain ⟨first', others, hp, hothers, hfirst'⟩ := Path.root_not_mem p
  obtain rfl : first = first' := by rw [hfirst, hfirst', h.isAbsolute_eq]
  rw [hp, hroot, List.append_assoc] at hrest
  rw [List.append_cancel_left hrest] at hothers
  exact fun hmem => hothers (List.mem_append_right _ hmem)

/-- A path below the root has a parent at or below the root. -/
theorem IsBelow.exists_parent? (h : root.IsBelow p) : ∃ directory last, p.parent? = some directory ∧
    p.components = directory.components ++ [last] ∧ root.components <+: directory.components := by
  obtain ⟨up, last, hp⟩ := h.exists_rest
  have hlast : last ≠ .root := by
    rintro rfl
    exact h.root_not_mem (hp.trans (List.append_assoc _ _ _)) (by simp)
  obtain ⟨directory, hparent, hcomponents⟩ := Path.exists_parent? hp hlast
  exact ⟨directory, last, hparent, by rw [hp, hcomponents], hcomponents ▸ List.prefix_append _ _⟩

end Path

namespace Project

variable {fs : FileSystem} {root directory other file : Path} {among wider : Path → Prop}
  {found : Option Path}

/-! ## Directories with manifests -/

/-- `directory` has a manifest. -/
def HasManifest (fs : FileSystem) (directory : Path) : Prop :=
  fs.isFile (directory.join ⟨manifestName⟩) = true

instance : Decidable (HasManifest fs directory) := inferInstanceAs (Decidable (_ = true))

/-- `other` is `root` or below it, and `directory` or above it. -/
structure IsBetween (root directory other : Path) : Prop where
  below : root.components <+: other.components
  above : other.components <+: directory.components

/-- `found` is the manifest of the deepest directory with one of those that `among` holds of, or
nothing if none of them has one. -/
def IsNearest (fs : FileSystem) (among : Path → Prop) (found : Option Path) : Prop :=
  match found with
  | none => ∀ directory, among directory → ¬HasManifest fs directory
  | some manifest => ∃ directory, among directory ∧ HasManifest fs directory ∧
      manifest = directory.join ⟨manifestName⟩ ∧
      ∀ other, among other → HasManifest fs other → other.components <+: directory.components

/-- The manifest has the name of a file. -/
theorem isName_manifestName : Path.IsName manifestName := by constructor <;> decide

/-- The path of a manifest leads to its directory, and then to its name. -/
theorem components_manifest (directory : Path) :
    (directory.join ⟨manifestName⟩).components = directory.components ++
      [.normal manifestName] := by
  have hname := isName_manifestName
  by_cases hempty : directory.text = ""
  · -- names taken from the empty path stand alone
    obtain rfl : directory = ⟨""⟩ := Path.mk.injEq _ _ ▸ hempty
    have hnone : (Path.mk "").components = [] := by cbv
    have hrelative : ¬(Path.mk manifestName).isAbsolute = true := by simp [hname.isAbsolute_eq]
    have halone : (Path.mk "").join ⟨manifestName⟩ = ⟨manifestName⟩ := by
      simp [Path.join, hname.isAbsolute_eq]
    rw [halone, hnone, Path.components_of_relative hrelative hname.pieces_eq, if_neg hname.ne_dot,
      hname.component?_eq]
    rfl
  · exact Path.components_join hempty hname

/-- Whether a directory has a manifest does not depend on how it is spelled. -/
theorem hasManifest_congr (h : directory.components = other.components) :
    HasManifest fs directory ↔ HasManifest fs other := by
  rw [HasManifest, HasManifest, FileSystem.isFile, FileSystem.isFile, FileSystem.tree_join_congr h]

/-- Further directories without manifests do not count. -/
theorem IsNearest.of_wider (h : IsNearest fs among found)
    (hwider : ∀ other, among other → wider other)
    (hnone : ∀ other, wider other → HasManifest fs other → among other) :
    IsNearest fs wider found := by
  cases found with
  | none => exact fun other hother hhas => h other (hnone other hother hhas) hhas
  | some manifest =>
      obtain ⟨directory, hamong, hhas, hmanifest, hdeepest⟩ := h
      refine ⟨directory, hwider directory hamong, hhas, hmanifest, fun other hother hhas' => ?_⟩
      exact hdeepest other (hnone other hother hhas') hhas'

/-! ## The search -/

/-- A search with enough levels finds the nearest manifest. The induction is on the levels; each of
them takes away the last component below the root. -/
theorem nearest_manifestFrom {levels : Nat} {up : List Component}
    (hdirectory : directory.components = root.components ++ up) (hup : .root ∉ up)
    (hlevels : up.length < levels) :
    IsNearest fs (IsBetween root directory) (manifestFrom fs root levels directory) := by
  induction levels generalizing directory up with
  | zero => cases hlevels
  | succ levels ih =>
      have hbelow : root.components <+: directory.components := hdirectory ▸ List.prefix_append _ _
      show IsNearest fs (IsBetween root directory)
        (if HasManifest fs directory then some (directory.join ⟨manifestName⟩)
          else if directory.same root then none
            else directory.parent?.bind (manifestFrom fs root levels))
      by_cases hhas : HasManifest fs directory
      · rw [if_pos hhas]
        exact ⟨directory, ⟨hbelow, List.prefix_rfl⟩, hhas, rfl, fun other hother _ => hother.above⟩
      rw [if_neg hhas]
      by_cases hsame : directory.components = root.components
      · rw [if_pos (Path.same_iff.2 hsame)]
        intro other hother hhas'
        have heq : other.components = directory.components :=
          hother.above.eq_of_length_le (hsame ▸ hother.below.length_le)
        exact hhas ((hasManifest_congr heq).1 hhas')
      rw [if_neg (hsame ∘ Path.same_iff.1)]
      obtain ⟨before, last, rfl⟩ : ∃ before last, up = before ++ [last] := by
        rcases List.eq_nil_or_concat up with rfl | ⟨before, last, rfl⟩
        · exact absurd (by simpa using hdirectory) hsame
        · exact ⟨before, last, by simp⟩
      rw [← List.append_assoc] at hdirectory
      have hlast : last ≠ .root := fun heq => hup (by simp [heq])
      obtain ⟨parent, hparent, hcomponents⟩ := Path.exists_parent? hdirectory hlast
      rw [hparent, Option.bind_some]
      have hnearest := ih hcomponents (fun hmem => hup (List.mem_append_left _ hmem))
        (by simpa using hlevels)
      have habove : parent.components <+: directory.components := by
        rw [hcomponents, hdirectory]
        exact List.prefix_append _ _
      refine hnearest.of_wider (fun other hother => ⟨hother.below, hother.above.trans habove⟩)
        fun other hother hhas' => ⟨hother.below, ?_⟩
      -- a directory between them that is not above the parent is the directory itself
      have habove' := hother.above
      rw [hdirectory, List.prefix_concat_iff, ← hdirectory, ← hcomponents] at habove'
      exact habove'.resolve_left fun heq => hhas ((hasManifest_congr heq).1 hhas')

/-- A file below the root has the manifest of the deepest directory between the root and the
directory of the file that has one, and no manifest if none of them has one. -/
theorem nearest_manifest? (fs : FileSystem) {w : Workspace} (h : w.root.IsBelow file)
    (hparent : file.parent? = some directory) :
    IsNearest fs (IsBetween w.root directory) (w.manifest? fs file) := by
  obtain ⟨parent, last, hfound, hfile, up, hup⟩ := h.exists_parent?
  obtain rfl := Option.some.inj (hparent.symm.trans hfound)
  rw [← hup, List.append_assoc] at hfile
  rw [Workspace.manifest?, manifestOf?, hparent, Option.bind_some]
  refine nearest_manifestFrom hup.symm (fun hmem => h.root_not_mem hfile ?_) ?_
  · exact List.mem_append_left _ hmem
  · rw [hfile]
    simp only [List.length_append]
    omega

end Project

end TrackingPlan
