import Mathlib.Data.List.Induction
import Mathlib.Data.List.Perm.Basic
import TrackingPlan.Project.Owner

/-!
# Scripts sorted by project

A workspace never forgets a project: what is loaded under a key stays loaded, and scripts with the
same key share their project. `members_groups_perm` says that sorting scripts by project loses and
repeats none of them, and `project_eq_of_mem_groups` that each of them stands in the group of its
own project.
-/

namespace TrackingPlan

/-- A path is the same as itself. -/
@[simp] theorem Path.same_self (a : Path) : a.same a = true := by
  simp [same]

/-- Paths that agree in their components agree with the same paths. -/
theorem Path.same_congr {a b : Path} (h : a.same b = true) (c : Path) : c.same a = c.same b := by
  have heq : a.components = b.components := by simpa [same] using h
  simp [same, heq]

namespace Project.Workspace

variable {fs : FileSystem} {w : Workspace}

/-! ## Loaded projects -/

/-- What is loaded under a key is loaded under every spelling of it. -/
theorem loadedAt?_congr {a b : Path} (h : a.same b = true) : w.loadedAt? a = w.loadedAt? b := by
  simp only [loadedAt?, Path.same_congr h]

/-- Visiting a script does not move the workspace. -/
@[simp] theorem key_visit (file other : Path) :
    (w.visit fs file).2.key fs other = w.key fs other := by
  unfold visit
  split <;> rfl

/-- A project that is loaded stays loaded. -/
theorem loadedAt?_visit {key : Path} {p : Project} (h : w.loadedAt? key = some p) (file : Path) :
    (w.visit fs file).2.loadedAt? key = some p := by
  unfold visit
  split
  · exact h
  · obtain ⟨entry, hfound, rfl⟩ := Option.map_eq_some_iff.1 h
    simp [loadedAt?, hfound]

/-- After a visit of a script its project is loaded. -/
theorem loaded?_visit (file : Path) :
    (w.visit fs file).2.loaded? fs file = some (w.visit fs file).1 := by
  rw [loaded?, key_visit]
  unfold visit
  split
  next p hp => exact hp
  next hp =>
    -- the new entry counts, because no entry before it has the key
    have hnone : w.loaded.find? (fun entry => entry.1.same (w.key fs file)) = none :=
      Option.map_eq_none_iff.1 hp
    simp [loadedAt?, hnone]

/-- Visiting scripts keeps what is loaded, and the keys of all scripts. -/
theorem visitAll_keeps (files : List Path) :
    (∀ other, (w.visitAll fs files).key fs other = w.key fs other) ∧
      ∀ key p, w.loadedAt? key = some p → (w.visitAll fs files).loadedAt? key = some p := by
  induction files generalizing w with
  | nil => exact ⟨fun _ => rfl, fun _ _ h => h⟩
  | cons file rest ih =>
      obtain ⟨hkey, hloaded⟩ := ih (w := (w.visit fs file).2)
      refine ⟨fun other => ?_, fun key p h => hloaded key p (loadedAt?_visit h file)⟩
      exact (hkey other).trans (key_visit file other)

/-- After a visit of several scripts the projects of all of them are loaded. -/
theorem loaded?_visitAll {files : List Path} {file : Path} (h : file ∈ files) :
    ∃ p, (w.visitAll fs files).loaded? fs file = some p := by
  induction files generalizing w with
  | nil => simp at h
  | cons first rest ih =>
      rcases List.mem_cons.1 h with rfl | hrest
      · obtain ⟨hkey, hloaded⟩ := @visitAll_keeps fs (w.visit fs file).2 rest
        refine ⟨(w.visit fs file).1, ?_⟩
        have hvisited : (w.visit fs file).2.loaded? fs file = some (w.visit fs file).1 :=
          loaded?_visit file
        rw [loaded?] at hvisited
        show ((w.visit fs file).2.visitAll fs rest).loaded? fs file = _
        rw [loaded?, hkey]
        exact hloaded _ _ hvisited
      · exact ih (w := (w.visit fs first).2) hrest

/-- The project of a script is the one that is loaded for it. -/
theorem projectOf_of_loaded {file : Path} {p : Project} (h : w.loaded? fs file = some p) :
    w.projectOf fs file = p := by
  simp only [projectOf, visit, h]

/-! ## Groups -/

/-- A new member joins the members of all groups. -/
theorem members_addMember_perm (key : Path) (p : Project) (member : Path × Nat)
    (found : List Group) :
    ((addMember key p member found).flatMap (·.members)).Perm
      (found.flatMap (·.members) ++ [member]) := by
  induction found with
  | nil => simp [addMember]
  | cons g rest ih =>
      unfold addMember
      split
      · simp only [List.flatMap_cons, List.append_assoc]
        exact (List.perm_append_comm).append_left g.members
      · simp only [List.flatMap_cons, List.append_assoc]
        exact ih.append_left g.members

/-- The members of all groups are the sorted scripts, each as often as it is there. -/
theorem members_groups_perm (files : List (Path × Nat)) :
    ((w.groups fs files).flatMap (·.members)).Perm files := by
  induction files using List.reverseRecOn with
  | nil => exact .nil
  | append_singleton files member ih =>
      have hstep : w.groups fs (files ++ [member]) =
          addMember (w.key fs member.1) (w.projectOf fs member.1) member (w.groups fs files) := by
        simp [groups]
      rw [hstep]
      exact (members_addMember_perm _ _ _ _).trans (ih.append_right [member])

/-- A group under its key: the project that is loaded there, with scripts of that project only. -/
structure Group.Sorted (fs : FileSystem) (w : Workspace) (g : Group) : Prop where
  loaded : w.loadedAt? g.key = some g.project
  members : ∀ member ∈ g.members, w.projectOf fs member.1 = g.project

/-- A new member keeps groups sorted. -/
theorem sorted_addMember {member : Path × Nat} {p : Project}
    (hloaded : w.loaded? fs member.1 = some p) {found : List Group}
    (hfound : ∀ g ∈ found, g.Sorted fs w) :
    ∀ g ∈ addMember (w.key fs member.1) p member found, g.Sorted fs w := by
  induction found with
  | nil =>
      intro g hg
      obtain rfl : g = ⟨w.key fs member.1, p, [member]⟩ := by simpa [addMember] using hg
      exact ⟨hloaded, by simpa using projectOf_of_loaded hloaded⟩
  | cons first rest ih =>
      have hfirst := hfound first (by simp)
      have hrest := ih fun g hg => hfound g (List.mem_cons_of_mem _ hg)
      intro g hg
      unfold addMember at hg
      split at hg
      next hsame =>
        rcases List.mem_cons.1 hg with rfl | hg
        · have hproject : first.project = p := by
            have := hfirst.loaded
            rw [loadedAt?_congr hsame] at this
            exact Option.some.inj (this.symm.trans hloaded)
          refine ⟨hfirst.loaded, fun other hother => ?_⟩
          rcases List.mem_append.1 hother with hother | hother
          · exact hfirst.members other hother
          · obtain rfl : other = member := by simpa using hother
            exact (projectOf_of_loaded hloaded).trans hproject.symm
        · exact hfound g (List.mem_cons_of_mem _ hg)
      next =>
        rcases List.mem_cons.1 hg with rfl | hg
        · exact hfirst
        · exact hrest g hg

/-- Where the projects of all scripts are loaded, each script is in a group of its own project. -/
theorem project_eq_of_mem_groups {files : List (Path × Nat)}
    (hloaded : ∀ member ∈ files, ∃ p, w.loaded? fs member.1 = some p) :
    ∀ g ∈ w.groups fs files, ∀ member ∈ g.members, w.projectOf fs member.1 = g.project := by
  suffices h : ∀ g ∈ w.groups fs files, g.Sorted fs w from fun g hg => (h g hg).members
  induction files using List.reverseRecOn with
  | nil => simp [groups]
  | append_singleton files member ih =>
      have hstep : w.groups fs (files ++ [member]) =
          addMember (w.key fs member.1) (w.projectOf fs member.1) member (w.groups fs files) := by
        simp [groups]
      obtain ⟨p, hp⟩ := hloaded member (by simp)
      rw [hstep, projectOf_of_loaded hp]
      exact sorted_addMember hp (ih fun other hother => hloaded other (by simp [hother]))

end Project.Workspace

end TrackingPlan
