import Scoping.Proofs.Nesting.Work
import Scoping.Proofs.Placement.Visited

/-! The order of the events of a walk: no event is inside a scope that has been
closed before it, and no use inside a scope that opens after it. Nor is another
scope, unless both are of one node. -/

namespace Scoping

/-- An event may come before another. What has been closed is not around the
place of the other, and what opens there is not around the use of this one, nor
around a scope that this one opens for another node. -/
def Event.Before : Event → Event → Prop
  | .leave block, later => ∀ place ∈ later.place?, ¬ block.location <:+ place
  | .use usage, .enter kind block _ => ¬ Surrounds kind block usage.identifier.location
  | .enter _ inner _, .enter kind block _ =>
      Surrounds kind block inner.location → block.location = inner.location
  | _, _ => True

/-- Events inside a place, in an order that their scopes follow. -/
structure Event.Orderly (place : Location) (events : List Event) : Prop where
  within : ∀ event ∈ events, Task.IsWithin place (.emit event)
  order : events.Pairwise Event.Before

variable {settings : Settings} {root node : Node} {inMethod : Bool} {place other : Location}
  {event later : Event} {tasks : List Task} {task first second : Task}

theorem Task.IsWithin.below (h : Task.IsWithin place (.emit event)) (hOther : other ∈ event.place?) :
    place <:+ other := by
  cases event with
  | use | enter =>
      cases hOther
      exact h
  | _ => cases hOther

theorem Task.IsWithin.mono (h : task.IsWithin other) (hBelow : place <:+ other) :
    task.IsWithin place := by
  cases task with
  | visit inMethod inner => exact hBelow.trans h
  | emit event =>
      cases event with
      | use | enter | leave => exact hBelow.trans h
      | _ => trivial

namespace Event

theorem before_of_place (h : later.place? = none) (event : Event) : event.Before later := by
  cases event with
  | leave block =>
      intro place hPlace
      rw [h] at hPlace
      cases hPlace
  | use | enter =>
      cases later with
      | enter => cases h
      | _ => trivial
  | _ => trivial

theorem before_of_apart (h : Location.Apart place other) (hEvent : Task.IsWithin place (.emit event))
    (hLater : Task.IsWithin other (.emit later)) : event.Before later := by
  cases event with
  | leave block =>
      intro inner hInner hBelow
      exact h.not_below (List.IsSuffix.trans hEvent hBelow) (hLater.below hInner)
  | use usage =>
      cases later with
      | enter kind block inMethod =>
          exact fun hSurrounds => h.not_below hEvent (List.IsSuffix.trans hLater hSurrounds.below)
      | _ => trivial
  | enter _ inner _ =>
      cases later with
      | enter kind block inMethod =>
          exact fun hSurrounds =>
            absurd (List.IsSuffix.trans hLater hSurrounds.below) (h.not_below hEvent)
      | _ => trivial
  | _ => trivial

theorem before_of_visit (h : Task.Before (.visit inMethod node) (.emit later))
    (hEvent : Task.IsWithin node.location (.emit event)) : event.Before later := by
  cases later with
  | use usage =>
      cases event with
      | leave block =>
          intro place hPlace hBelow
          cases hPlace
          exact h (List.IsSuffix.trans hEvent hBelow)
      | _ => trivial
  | enter kind block inMethod =>
      cases event with
      | leave other =>
          intro place hPlace hBelow
          cases hPlace
          exact h _ (List.IsSuffix.trans hEvent hBelow) (surrounds_self kind block)
      | use usage => exact h _ hEvent
      | enter => exact fun hSurrounds => absurd hSurrounds (h _ hEvent)
      | _ => trivial
  | _ => exact before_of_place rfl event

theorem before_visit (h : Task.Before (.emit event) (.visit inMethod node))
    (hLater : Task.IsWithin node.location (.emit later)) : event.Before later := by
  cases event with
  | leave block => exact h.elim
  | use usage =>
      cases later with
      | enter kind block inMethod =>
          exact fun hSurrounds => h (List.IsSuffix.trans hLater hSurrounds.below)
      | _ => trivial
  | enter kind block inMethod =>
      cases later with
      | enter => exact fun hSurrounds =>
          hSurrounds.below.eq_of_length_le (h.below.trans hLater).length_le
      | _ => trivial
  | _ => trivial

theorem before_of_emits (h : Task.Before (.emit event) (.emit later)) : event.Before later := by
  cases event with
  | leave block => exact before_of_place h _
  | use usage =>
      cases later with
      | enter kind block inMethod => exact h
      | _ => trivial
  | enter kind block inMethod =>
      cases later with
      | enter => exact fun hSurrounds => hSurrounds.below.eq_of_length_le (h _ rfl).below.length_le
      | _ => trivial
  | _ => trivial

end Event

/-- The events of two tasks come in the order of the tasks. -/
theorem Task.before_events (h : first.Before second)
    (hFirst : ∀ inMethod node, first = .visit inMethod node →
      Event.Orderly node.location (first.events settings))
    (hSecond : ∀ inMethod node, second = .visit inMethod node →
      Event.Orderly node.location (second.events settings)) :
    ∀ event ∈ first.events settings, ∀ later ∈ second.events settings, event.Before later := by
  intro event hEvent later hLater
  cases first with
  | visit inMethod inner =>
      have hHere := (hFirst _ _ rfl).within event hEvent
      cases second with
      | visit inMethod other => exact Event.before_of_apart h hHere ((hSecond _ _ rfl).within later hLater)
      | emit found =>
          rw [Task.events_emit, List.mem_singleton] at hLater
          exact Event.before_of_visit (hLater ▸ h) hHere
  | emit found =>
      rw [Task.events_emit, List.mem_singleton] at hEvent
      subst hEvent
      cases second with
      | visit inMethod other => exact Event.before_visit h ((hSecond _ _ rfl).within later hLater)
      | emit found =>
          rw [Task.events_emit, List.mem_singleton] at hLater
          exact Event.before_of_emits (hLater ▸ h)

/-- Orderly work has orderly events, if its visits do. -/
theorem Walker.Orderly.events (h : Walker.Orderly place tasks)
    (hVisits : ∀ inMethod inner, .visit inMethod inner ∈ tasks →
      Event.Orderly inner.location (Task.events settings (.visit inMethod inner))) :
    Event.Orderly place (tasks.flatMap (Task.events settings)) := by
  have hEach : ∀ task ∈ tasks, ∀ inMethod inner, task = .visit inMethod inner →
      Event.Orderly inner.location (task.events settings) := by
    rintro task hTask inMethod inner rfl
    exact hVisits inMethod inner hTask
  refine ⟨fun event hEvent => ?_, List.pairwise_flatMap.2 ⟨fun task hTask => ?_, ?_⟩⟩
  · obtain ⟨task, hTask, hMem⟩ := List.mem_flatMap.1 hEvent
    have hWithin := h.within task hTask
    cases task with
    | visit inMethod inner => exact ((hVisits inMethod inner hTask).within event hMem).mono hWithin
    | emit found =>
        rw [Task.events_emit, List.mem_singleton] at hMem
        exact hMem ▸ hWithin
  · cases task with
    | visit inMethod inner => exact (hVisits inMethod inner hTask).order
    | emit found =>
        rw [Task.events_emit]
        exact List.pairwise_singleton _ _
  · exact h.order.imp_of_mem fun hFirst hSecond hBefore =>
      Task.before_events hBefore (hEach _ hFirst) (hEach _ hSecond)

/-- The events of a visit are in the order of their scopes, by induction on the
size of the node. -/
theorem orderly_visit (hCustom : settings.keys.custom = []) (inMethod : Bool)
    (hNames : node.NamesOnce) :
    Event.Orderly node.location (Task.events settings (.visit inMethod node)) := by
  induction hSize : sizeOf node.entries using Nat.strongRecOn generalizing inMethod node with
  | ind size ih =>
      rw [Task.events_visit]
      refine (Walker.orderly_tasks hCustom hNames).events fun inMethod inner hInner => ?_
      have hContains := Walker.contained_tasks.contains hInner
      exact ih _ (hSize ▸ hContains.sizeOf_lt) inMethod (hNames.of_holds (.inr hContains)) rfl

theorem orderly_programEvents (hCustom : settings.keys.custom = []) (hNames : root.NamesOnce) :
    Event.Orderly root.location (programEvents settings root) := by
  refine (Walker.orderly_program hCustom hNames).events fun inMethod inner hInner => ?_
  obtain ⟨before, after, hSplit⟩ := List.append_of_mem hInner
  have hArrives : Arrives settings root _ (.visit inMethod inner) _ := .program hSplit
  exact orderly_visit hCustom inMethod (hNames.of_holds (.inr hArrives.contains))

end Scoping
