import Mathlib.Data.List.Perm.Basic
import TrackingPlan.Pool

/-!
# Every task of a pool finishes once

A step of a pool takes one task out of it and leaves the others, and a pool with a place for a task
stops only when it is empty. `drain_perm` puts the steps together: whatever finishes first, the
tasks that finish are those of the pool, each as often as it is there.
-/

namespace TrackingPlan.Pool

variable {α : Type u}

/-- The task that finishes and those that are left are the tasks of the pool. -/
theorem step_perm {limit choice : Nat} {p rest : Pool α} {task : α}
    (h : p.step? limit choice = some (task, rest)) : (task :: rest.tasks).Perm p.tasks := by
  unfold step? finish? at h
  obtain ⟨found, hfound, heq⟩ := Option.map_eq_some_iff.1 h
  obtain ⟨hplace, rfl⟩ := List.getElem?_eq_some_iff.1 hfound
  obtain ⟨rfl, rfl⟩ := Prod.mk.inj heq
  rw [← tasks_fill limit p]
  exact (List.getElem_cons_eraseIdx_perm hplace).append_right (p.fill limit).waiting

/-- A pool that can run a task takes a step unless it is empty. -/
theorem tasks_eq_nil_of_step_eq_none {limit choice : Nat} {p : Pool α} (hlimit : 1 ≤ limit)
    (h : p.step? limit choice = none) : p.tasks = [] := by
  unfold step? finish? at h
  have hplace := List.getElem?_eq_none_iff.1 (Option.map_eq_none_iff.1 h)
  have hidle : (p.fill limit).running = [] := by
    by_contra hne
    have hpos := List.length_pos_of_ne_nil hne
    exact absurd (Nat.mod_lt choice hpos) (by omega)
  simp only [fill, List.append_eq_nil_iff] at hidle
  obtain ⟨hrunning, htake⟩ := hidle
  have hwaiting : p.waiting = [] := by
    rcases List.take_eq_nil_iff.1 htake with hfree | hwaiting
    · rw [hrunning] at hfree
      exact absurd hfree (by simp; omega)
    · exact hwaiting
  simp [tasks, hrunning, hwaiting]

/-- Whichever tasks finish first, those that finish are the tasks of the pool. -/
theorem drain_perm {limit : Nat} (hlimit : 1 ≤ limit) (choose : Nat → Nat) (time : Nat)
    (p : Pool α) : (p.drain limit choose time).Perm p.tasks := by
  induction time, p using drain.induct limit choose with
  | case1 time p hstop =>
      rw [drain, hstop, tasks_eq_nil_of_step_eq_none hlimit hstop]
  | case2 time p task rest hstep ih =>
      rw [drain, hstep]
      exact (ih.cons task).trans (step_perm hstep)

end TrackingPlan.Pool
