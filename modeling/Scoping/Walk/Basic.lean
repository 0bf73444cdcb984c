import Scoping.Walk.Inside

namespace Scoping

/-- A bound on the work that a task can bring. -/
noncomputable def Task.size : Task → Nat
  | .emit _ => 0
  | .visit _ node => sizeOf node.entries + 1

theorem Task.size_lt {settings : Settings} {inMethod : Bool} {node : Node} {task : Task}
    (h : task ∈ Walker.tasks { settings, inMethod } node) :
    task.size < Task.size (.visit inMethod node) := by
  cases task with
  | emit event => exact Nat.zero_lt_succ _
  | visit inner child => exact Nat.succ_lt_succ (Walker.contained_tasks.contains h).sizeOf_lt

/-- The events of a task, those of a visit with all that the visit meets. -/
def Task.events (settings : Settings) : Task → List Event
  | .emit event => [event]
  | .visit inMethod node =>
      (Walker.tasks { settings, inMethod } node).attach.flatMap fun ⟨task, _⟩ => task.events settings
termination_by task => task.size
decreasing_by exact Task.size_lt ‹_›

theorem Task.events_emit (settings : Settings) (event : Event) :
    Task.events settings (.emit event) = [event] := by
  rw [Task.events]

theorem Task.events_visit (settings : Settings) (inMethod : Bool) (node : Node) :
    Task.events settings (.visit inMethod node) =
      (Walker.tasks { settings, inMethod } node).flatMap (Task.events settings) := by
  rw [Task.events]
  simp [List.flatMap_subtype]

/-- The events of a whole program. Its root counts as a program whatever kind
of node it is. -/
def programEvents (settings : Settings) (root : Node) : List Event :=
  (Walker.program { settings } root).flatMap (Task.events settings)

end Scoping
