import Scoping.Proofs.Nesting.Occurrences
import Scoping.Proofs.Placement.Identifiers

/-! The uses of the identifier at one place. Once the work at a node names that identifier, all
the uses of it in the program are part of that work. -/

namespace Scoping

/-- The use that an event is, if it is of the identifier at this place. -/
def Event.useAt? (place : Location) : Event → Option Use
  | .use usage => if usage.identifier.location = place then some usage else none
  | _ => none

/-- The uses of the identifier at a place, in order. -/
def usesAt (place : Location) (events : List Event) : List Use :=
  events.filterMap (Event.useAt? place)

/-- What a task uses by itself at a place. -/
def Task.useAt? (place : Location) : Task → Option Use
  | .emit event => event.useAt? place
  | .visit _ _ => none

/-- What some work uses by itself at a place, in order. -/
def Task.usesAt (place : Location) (tasks : List Task) : List Use :=
  tasks.filterMap (Task.useAt? place)

variable {place : Location} {event : Event} {events others : List Event} {usage : Use}
  {tasks rest : List Task} {node inner : Node} {inMethod : Bool}

theorem Event.useAt?_eq_some_iff :
    event.useAt? place = some usage ↔ event = .use usage ∧ usage.identifier.location = place := by
  cases event with
  | use other =>
      rw [useAt?, Option.ite_none_right_eq_some, Option.some.injEq, Event.use.injEq]
      constructor
      · rintro ⟨hPlace, rfl⟩
        exact ⟨rfl, hPlace⟩
      · rintro ⟨rfl, hPlace⟩
        exact ⟨hPlace, rfl⟩
  | _ => simp [useAt?]

theorem mem_usesAt : usage ∈ usesAt place events ↔
    .use usage ∈ events ∧ usage.identifier.location = place := by
  simp [usesAt, List.mem_filterMap, Event.useAt?_eq_some_iff]

/-- A place where nothing is used has no uses. -/
theorem usesAt_eq_nil (h : ∀ usage, .use usage ∈ events → usage.identifier.location ≠ place) :
    usesAt place events = [] :=
  List.eq_nil_iff_forall_not_mem.2 fun usage hUse =>
    h usage (mem_usesAt.1 hUse).1 (mem_usesAt.1 hUse).2

@[simp] theorem usesAt_append :
    usesAt place (events ++ others) = usesAt place events ++ usesAt place others :=
  List.filterMap_append

@[simp] theorem usesAt_nil : usesAt place [] = [] :=
  rfl

namespace Task

theorem mem_usesAt : usage ∈ usesAt place tasks ↔
    .emit (.use usage) ∈ tasks ∧ usage.identifier.location = place := by
  rw [usesAt, List.mem_filterMap]
  constructor
  · rintro ⟨task, hTask, hUse⟩
    cases task with
    | emit event =>
        obtain ⟨rfl, hPlace⟩ := Event.useAt?_eq_some_iff.1 hUse
        exact ⟨hTask, hPlace⟩
    | visit => cases hUse
  · rintro ⟨hTask, hPlace⟩
    exact ⟨_, hTask, Event.useAt?_eq_some_iff.2 ⟨rfl, hPlace⟩⟩

@[simp] theorem usesAt_nil : usesAt place [] = [] :=
  rfl

@[simp] theorem usesAt_append :
    usesAt place (tasks ++ rest) = usesAt place tasks ++ usesAt place rest :=
  List.filterMap_append

@[simp] theorem usesAt_visit : usesAt place (.visit inMethod node :: tasks) = usesAt place tasks :=
  rfl

theorem usesAt_emit (h : event.useAt? place = none) :
    usesAt place (.emit event :: tasks) = usesAt place tasks :=
  List.filterMap_cons_none h

theorem usesAt_map_emit : usesAt place (events.map .emit) = Scoping.usesAt place events :=
  List.filterMap_map

/-- Work for several items uses what is used for each, in their order. -/
theorem usesAt_flatMap {α : Type} (items : List α) (f : α → List Task) :
    usesAt place (items.flatMap f) = items.flatMap fun item => usesAt place (f item) :=
  List.filterMap_flatMap

/-- Work that visits and fails uses nothing. -/
theorem usesAt_of_isSimple (h : ∀ task ∈ tasks, task.IsSimple) : usesAt place tasks = [] :=
  List.eq_nil_iff_forall_not_mem.2 fun _ hUse => h _ (mem_usesAt.1 hUse).1

/-- What is used in a node stands at no place outside of it. -/
theorem usesAt_of_usesIn (h : Walker.UsesIn node tasks) (hPlace : ¬ node.location <:+ place) :
    usesAt place tasks = [] := by
  refine List.eq_nil_iff_forall_not_mem.2 fun usage hUse => ?_
  obtain ⟨hTask, rfl⟩ := mem_usesAt.1 hUse
  exact hPlace (h usage hTask).below

end Task

variable {settings : Settings} {root : Node} {past begun : List Event} {before after : List Task}
  {name : Node}

/-- All that some work uses at a place that is in none of its visits it uses by itself. -/
theorem usesAt_flatMap_events
    (h : ∀ flag inner, .visit flag inner ∈ tasks → ¬ inner.location <:+ place) :
    usesAt place (tasks.flatMap (Task.events settings)) = Task.usesAt place tasks := by
  induction tasks with
  | nil => rfl
  | cons task tasks ih =>
      rw [List.flatMap_cons, usesAt_append,
        ih fun flag inner hInner => h flag inner (List.mem_cons_of_mem _ hInner)]
      cases task with
      | emit event =>
          rw [Task.events_emit]
          cases hUse : event.useAt? place <;> simp [usesAt, Task.usesAt, Task.useAt?, hUse]
      | visit flag inner =>
          have hNone : usesAt place (Task.events settings (.visit flag inner)) = [] :=
            usesAt_eq_nil fun usage hUse hPlace =>
              h flag inner List.mem_cons_self (hPlace ▸ (holds_of_use_mem_events hUse).below)
          rw [hNone, List.nil_append, Task.usesAt_visit]

/-- All that a program uses at the place of an identifier is used by the work at the node that
names the identifier. -/
theorem Occurs.usesAt_eq (hCustom : settings.keys.custom = []) (hNames : root.NamesOnce)
    (h : Occurs settings root past event begun inMethod node before after)
    (hName : event.identifier? = some name) :
    usesAt name.location (programEvents settings root) =
      Task.usesAt name.location (Walker.tasks { settings, inMethod } node) := by
  obtain ⟨rest, hVisit⟩ := h.visit
  -- Another use at the place would be part of the same work, but comes before or after it.
  have hOther : ∀ {first last : List Event} {usage : Use},
      programEvents settings root = first ++ .use usage :: last →
        usage.identifier.location = name.location →
          begun.length ≤ first.length ∧
            first.length < (begun ++ Task.events settings (.visit inMethod node)).length := by
    intro first last usage hEvents hPlace
    obtain ⟨started, flag, other, ahead, behind, hOccurs⟩ := (arrives_of_events hEvents).exists_occurs rfl
    obtain ⟨rfl, rfl, rfl⟩ := h.same hCustom hNames hOccurs hName rfl hPlace.symm
    rw [Task.events_visit, hOccurs.split, hOccurs.past]
    simp [Task.events_emit]
  have hBegun : usesAt name.location begun = [] := by
    refine usesAt_eq_nil fun usage hUse hPlace => ?_
    obtain ⟨first, last, rfl⟩ := List.append_of_mem hUse
    have hEvents := hVisit.events
    rw [List.append_assoc, List.cons_append] at hEvents
    have hLe := (hOther hEvents hPlace).1
    rw [List.length_append, List.length_cons] at hLe
    omega
  have hRest : usesAt name.location rest = [] := by
    refine usesAt_eq_nil fun usage hUse hPlace => ?_
    obtain ⟨first, last, rfl⟩ := List.append_of_mem hUse
    have hEvents := hVisit.events
    rw [← List.append_assoc, ← List.append_assoc] at hEvents
    have hLt := (hOther hEvents hPlace).2
    simp only [List.length_append] at hLt
    omega
  rw [hVisit.events, usesAt_append, usesAt_append, hBegun, hRest, List.nil_append, List.append_nil,
    Task.events_visit]
  refine usesAt_flatMap_events fun flag inner hInner => ?_
  obtain ⟨ahead, behind, hSplit⟩ := List.append_of_mem hInner
  exact (h.place hCustom hNames hName).2 inner (hVisit.goes hSplit)

end Scoping
