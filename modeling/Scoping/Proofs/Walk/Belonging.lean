import Scoping.Analyze

namespace Scoping

/-- An event that a visit of a node brings: the scope that it opens is of the
node or of one inside it, and is a global one only for a program. -/
def Event.Belongs (node : Node) : Event → Prop
  | .enter kind block _ =>
      (block = node ∨ node.Contains block) ∧ (kind = .global → block.kind = "Program")
  | .fail failure => failure.IsMissingField
  | _ => True

variable {settings : Settings} {node inner : Node} {event : Event}

theorem Event.Belongs.of_contains (h : event.Belongs inner) (hInner : node.Contains inner) :
    event.Belongs node := by
  cases event with
  | enter kind block inMethod =>
      obtain ⟨hBlock, hGlobal⟩ := h
      rcases hBlock with rfl | hBlock
      · exact ⟨.inr hInner, hGlobal⟩
      · exact ⟨.inr (hInner.trans hBlock), hGlobal⟩
  | fail failure => exact h
  | _ => trivial

theorem Event.IsPlain.belongs (h : event.IsPlain) : event.Belongs node := by
  cases event with
  | enter => exact h.elim
  | fail failure => exact h
  | _ => trivial

theorem Contained.belongs {own : Bool} {tasks : List Task} (h : Contained node own tasks)
    (hVisits : ∀ (inMethod : Bool) (inner : Node), node.Contains inner →
      ∀ event ∈ Task.events settings (.visit inMethod inner), event.Belongs inner) :
    ∀ event ∈ tasks.flatMap (Task.events settings), event.Belongs node := by
  induction h with
  | nil => exact fun _ hEvent => nomatch hEvent
  | @neutral own task tasks hTask _ ih =>
      intro event hEvent
      rw [List.flatMap_cons] at hEvent
      rcases List.mem_append.1 hEvent with hFirst | hRest
      · cases task with
        | emit found =>
            rw [Task.events_emit, List.mem_singleton] at hFirst
            exact hFirst ▸ Event.IsPlain.belongs hTask
        | visit inMethod inner => exact (hVisits inMethod inner hTask event hFirst).of_contains hTask
      · exact ih event hRest
  | @mark found tasks hMarks _ ih =>
      intro event hEvent
      rw [List.flatMap_cons, Task.events_emit, List.singleton_append] at hEvent
      rcases List.mem_cons.1 hEvent with rfl | hRest
      · cases event with
        | enter | fail => exact hMarks.elim
        | _ => trivial
      · exact ih event hRest
  | @enter own kind inMethod tasks hGlobal _ ih =>
      intro event hEvent
      rw [List.flatMap_cons, Task.events_emit, List.singleton_append] at hEvent
      rcases List.mem_cons.1 hEvent with rfl | hRest
      · exact ⟨.inl rfl, hGlobal⟩
      · exact ih event hRest
  | @leave own tasks _ ih =>
      intro event hEvent
      rw [List.flatMap_cons, Task.events_emit, List.singleton_append] at hEvent
      rcases List.mem_cons.1 hEvent with rfl | hRest
      · trivial
      · exact ih event hRest
  | @field own inMethod value tasks hValue _ ih =>
      intro event hEvent
      rw [List.flatMap_cons, List.flatMap_cons, List.flatMap_cons, Task.events_emit,
        Task.events_emit, List.singleton_append, List.singleton_append] at hEvent
      rcases List.mem_cons.1 hEvent with rfl | hEvent
      · exact ⟨.inr hValue, nofun⟩
      · rcases List.mem_append.1 hEvent with hInside | hEvent
        · exact (hVisits inMethod value hValue event hInside).of_contains hValue
        · rcases List.mem_cons.1 hEvent with rfl | hRest
          · trivial
          · exact ih event hRest

/-- All that a visit brings belongs to the node. -/
theorem belongs_of_mem_events {inMethod : Bool}
    (h : event ∈ Task.events settings (.visit inMethod node)) : event.Belongs node := by
  induction hSize : sizeOf node.entries using Nat.strongRecOn generalizing inMethod node event with
  | ind size ih =>
      rw [Task.events_visit] at h
      refine Walker.contained_tasks.belongs (fun inMethod inner hInner event hEvent => ?_) event h
      exact ih _ (hSize ▸ hInner.sizeOf_lt) hEvent rfl

end Scoping
