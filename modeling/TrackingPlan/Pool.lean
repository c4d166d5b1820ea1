/-!
# Pools of tasks

A pool runs a limited number of tasks at once. Waiting tasks start in order, as soon as there is a
place for them; which of the running ones finishes next is not for the pool to say. `Pool.drain`
lists the tasks in the order in which they finish.
-/

namespace TrackingPlan

universe u

/-- Tasks that are running, and tasks that wait for a place. -/
structure Pool (α : Type u) where
  running : List α
  waiting : List α

namespace Pool

variable {α : Type u}

/-- `ofTasks tasks` is the pool in which all `tasks` wait. -/
def ofTasks (tasks : List α) : Pool α := ⟨[], tasks⟩

/-- `tasks p` lists the tasks of `p`, the running ones first. -/
def tasks (p : Pool α) : List α := p.running ++ p.waiting

/-- `fill limit p` starts waiting tasks until `limit` of them are running. -/
def fill (limit : Nat) (p : Pool α) : Pool α :=
  let free := limit - p.running.length
  ⟨p.running ++ p.waiting.take free, p.waiting.drop free⟩

/-- `finish? choice p` ends the running task at the place `choice`, counted round: that task, and
the pool without it. -/
def finish? (choice : Nat) (p : Pool α) : Option (α × Pool α) :=
  let place := choice % p.running.length
  p.running[place]?.map fun task => (task, { p with running := p.running.eraseIdx place })

/-- `step? limit choice p` fills the places of `p` and ends one of the running tasks. -/
def step? (limit choice : Nat) (p : Pool α) : Option (α × Pool α) :=
  (p.fill limit).finish? choice

/-- Starting tasks neither adds nor drops one. -/
@[simp] theorem tasks_fill (limit : Nat) (p : Pool α) : (p.fill limit).tasks = p.tasks := by
  simp [fill, tasks]

/-- A step ends one task. -/
theorem length_tasks_step? {limit choice : Nat} {p rest : Pool α} {task : α}
    (h : p.step? limit choice = some (task, rest)) : rest.tasks.length + 1 = p.tasks.length := by
  unfold step? finish? at h
  obtain ⟨found, hfound, heq⟩ := Option.map_eq_some_iff.1 h
  obtain ⟨hplace, _⟩ := List.getElem?_eq_some_iff.1 hfound
  obtain ⟨_, rfl⟩ := Prod.mk.inj heq
  rw [← tasks_fill limit p]
  simp only [tasks, List.length_append, List.length_eraseIdx_of_lt hplace]
  omega

/-- `drain limit choose time p` lists the tasks of `p` in the order in which they finish: from
`time` on, `choose` tells which one it is. -/
def drain (limit : Nat) (choose : Nat → Nat) (time : Nat) (p : Pool α) : List α :=
  match _h : p.step? limit (choose time) with
  | none => []
  | some (task, rest) => task :: drain limit choose (time + 1) rest
termination_by p.tasks.length
decreasing_by
  have := length_tasks_step? _h
  omega

end Pool

end TrackingPlan
