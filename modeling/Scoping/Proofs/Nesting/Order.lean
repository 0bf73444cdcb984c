import Scoping.Tree.Apart
import Scoping.Walk.Task

/-! The order of the work at a node. What comes after a scope has opened is inside
it, what comes before is outside of it, nothing comes after it has closed, and
what is visited in turn stands apart. -/

namespace Scoping

/-- The field of a node that is outside of the scope which the node opens: it is
looked at before. -/
def ScopeKind.outside? : ScopeKind → Option String
  | .classBody => some "superClass"
  | .withBody => some "object"
  | .switchBody => some "discriminant"
  | _ => none

/-- A scope of a node is around a place: the place is the node itself or inside it,
but not inside the field that is outside of the scope. -/
structure Surrounds (kind : ScopeKind) (block : Node) (place : Location) : Prop where
  below : block.location <:+ place
  inside : ∀ field ∈ kind.outside?, ¬ .field field :: block.location <:+ place

/-- A scope of a node is around a place and all that is inside that. -/
structure Encloses (kind : ScopeKind) (block : Node) (place : Location) : Prop
    extends Surrounds kind block place where
  whole : block.location = place → kind.outside? = none

/-- The place of an event that has to do with the nesting of scopes. -/
def Event.place? : Event → Option Location
  | .use usage => some usage.identifier.location
  | .enter _ block _ => some block.location
  | _ => none

/-- A task may come before another in the work at a node. -/
def Task.Before : Task → Task → Prop
  | .visit _ inner, .visit _ other => Location.Apart inner.location other.location
  | .visit _ inner, .emit (.use usage) => ¬ inner.location <:+ usage.identifier.location
  | .visit _ inner, .emit (.enter kind block _) =>
      ∀ place, inner.location <:+ place → ¬ Surrounds kind block place
  | .emit (.use usage), .visit _ other => ¬ other.location <:+ usage.identifier.location
  | .emit (.enter kind block _), .visit _ other => Encloses kind block other.location
  | .emit (.leave _), .visit _ _ => False
  | .emit (.use usage), .emit (.enter kind block _) => ¬ Surrounds kind block usage.identifier.location
  | .emit (.enter kind block _), .emit event => ∀ place ∈ event.place?, Surrounds kind block place
  | .emit (.leave _), .emit event => event.place? = none
  | _, _ => True

/-- A task that neither opens nor closes a scope, and whose visit or use is at a
place of this kind. -/
def Task.Stays (Here : Location → Prop) : Task → Prop
  | .visit _ inner => Here inner.location
  | .emit (.use usage) => Here usage.identifier.location
  | .emit (.enter _ _ _) | .emit (.leave _) => False
  | .emit _ => True

/-- All that a task has to do with the nesting of scopes is at a place or inside it. -/
def Task.IsWithin (place : Location) : Task → Prop
  | .visit _ inner => place <:+ inner.location
  | .emit (.use usage) => place <:+ usage.identifier.location
  | .emit (.enter _ block _) | .emit (.leave block) => place <:+ block.location
  | .emit _ => True

variable {Here There : Location → Prop} {kind : ScopeKind} {block node : Node} {inMethod : Bool}
  {place inner : Location} {first second task : Task} {tasks : List Task}

/-- A scope is around the node that it is of, even if part of the node is outside of it. -/
theorem surrounds_self (kind : ScopeKind) (block : Node) : Surrounds kind block block.location where
  below := List.suffix_refl _
  inside := fun _ _ hBelow => absurd hBelow.length_le (by simp)

/-- If no field is outside of the scope, it is around everything in the node. -/
theorem surrounds_of_outside (hKind : kind.outside? = none) (h : block.location <:+ place) :
    Surrounds kind block place :=
  ⟨h, fun field hField => by rw [hKind] at hField; cases hField⟩

theorem encloses_of_outside (hKind : kind.outside? = none) (h : block.location <:+ place) :
    Encloses kind block place :=
  ⟨surrounds_of_outside hKind h, fun _ => hKind⟩

/-- A scope that is around a place is around all that is inside it. -/
theorem Encloses.surrounds (h : Encloses kind block place) (hInner : place <:+ inner) :
    Surrounds kind block inner := by
  refine ⟨h.below.trans hInner, fun field hField hBelow => ?_⟩
  by_cases hWhole : block.location = place
  · rw [h.whole hWhole] at hField
    cases hField
  · have hLt : block.location.length < place.length :=
      Nat.lt_of_le_of_ne h.below.length_le fun hEq => hWhole (h.below.eq_of_length hEq)
    exact h.inside field hField (List.suffix_of_suffix_length_le hBelow hInner hLt)

/-- What is inside a place that a scope encloses is enclosed as well. -/
theorem Encloses.mono (h : Encloses kind block place) (hInner : place <:+ inner) :
    Encloses kind block inner :=
  ⟨h.surrounds hInner, fun hEq => h.whole (h.below.eq_of_length_le (hEq ▸ hInner.length_le))⟩

/-- A scope of a node is around the fields that come after it has opened. -/
theorem encloses_field {name : String} (hField : ∀ field ∈ kind.outside?, field ≠ name) :
    Encloses kind block (.field name :: block.location) where
  below := List.suffix_cons _ _
  inside := fun field hOutside =>
    (Location.apart_fields (hField field hOutside) block.location).1
  whole := fun hEq => absurd (congrArg List.length hEq) (by simp)

namespace Task

/-- A task that stays in some places stays in any that include them. -/
theorem Stays.mono (h : task.Stays Here) (hPlaces : ∀ place, Here place → There place) :
    task.Stays There := by
  cases task with
  | visit inMethod inner => exact hPlaces _ h
  | emit event =>
      cases event with
      | use usage => exact hPlaces _ h
      | enter | leave => exact h
      | _ => trivial

theorem Stays.isWithin (h : task.Stays (place <:+ ·)) : task.IsWithin place := by
  cases task with
  | visit inMethod inner => exact h
  | emit event =>
      cases event with
      | use usage => exact h
      | enter | leave => exact h.elim
      | _ => trivial

/-- Two tasks in places that stand apart may come in either order. -/
theorem before_of_stays (hFirst : first.Stays Here) (hSecond : second.Stays There)
    (hApart : ∀ place other, Here place → There other → Location.Apart place other) :
    first.Before second := by
  cases first with
  | visit inMethod inner =>
      cases second with
      | visit inMethod other => exact hApart _ _ hFirst hSecond
      | emit event =>
          cases event with
          | use usage => exact (hApart _ _ hFirst hSecond).1
          | enter | leave => exact hSecond.elim
          | _ => trivial
  | emit event =>
      cases event with
      | use usage =>
          cases second with
          | visit inMethod other => exact (hApart _ _ hFirst hSecond).2
          | emit event =>
              cases event with
              | enter | leave => exact hSecond.elim
              | _ => trivial
      | enter | leave => exact hFirst.elim
      | _ => trivial

theorem emit_before_emit {event other : Event} (hFirst : Task.Stays Here (.emit event))
    (hSecond : Task.Stays There (.emit other)) : Task.Before (.emit event) (.emit other) := by
  cases event with
  | enter | leave => exact hFirst.elim
  | use usage =>
      cases other with
      | enter => exact hSecond.elim
      | _ => trivial
  | _ => trivial

/-- What has nothing to do with the nesting of scopes may stand anywhere. -/
theorem before_of_mute (hFirst : first.Stays Here) (hSecond : second.Stays fun _ => False) :
    first.Before second :=
  before_of_stays hFirst hSecond fun _ _ _ hFalse => hFalse.elim

/-- What is done at no place may come before anything. -/
theorem mute_before (hFirst : first.Stays fun _ => False) (second : Task) : first.Before second := by
  cases first with
  | visit inMethod inner => exact hFirst.elim
  | emit event =>
      cases event with
      | use | enter | leave => exact hFirst.elim
      | _ => cases second <;> trivial

/-- Anything but the end of a scope may come before the end of one. -/
theorem before_leave (hFirst : first.Stays Here) (block : Node) :
    first.Before (.emit (.leave block)) := by
  cases first with
  | visit inMethod inner => trivial
  | emit event =>
      cases event with
      | enter | leave => exact hFirst.elim
      | _ => trivial

/-- What comes before a scope opens has to stand where the scope is not around it. -/
theorem before_enter (hFirst : first.Stays Here)
    (hOutside : ∀ place inner, Here place → place <:+ inner → ¬ Surrounds kind block inner) :
    first.Before (.emit (.enter kind block inMethod)) := by
  cases first with
  | visit inMethod inner => exact fun place hInner => hOutside _ _ hFirst hInner
  | emit event =>
      cases event with
      | use usage => exact hOutside _ _ hFirst (List.suffix_refl _)
      | enter | leave => exact hFirst.elim
      | _ => trivial

/-- What comes after a scope has opened has to stand inside of it. -/
theorem enter_before (hSecond : second.Stays Here)
    (hInside : ∀ place, Here place → Encloses kind block place) :
    Task.Before (.emit (.enter kind block inMethod)) second := by
  cases second with
  | visit inMethod other => exact hInside _ hSecond
  | emit event =>
      cases event with
      | use usage =>
          rintro place hPlace
          cases hPlace
          exact (hInside _ hSecond).toSurrounds
      | enter | leave => exact hSecond.elim
      | _ => exact fun _ hPlace => by cases hPlace

/-- A scope whose node has nothing outside of it is around all that follows. -/
theorem enter_before_of_outside (hKind : kind.outside? = none)
    (hSecond : second.IsWithin block.location) :
    Task.Before (.emit (.enter kind block inMethod)) second := by
  cases second with
  | visit inMethod other => exact encloses_of_outside hKind hSecond
  | emit event =>
      cases event with
      | use | enter =>
          rintro place hPlace
          cases hPlace
          exact surrounds_of_outside hKind hSecond
      | _ => exact fun _ hPlace => by cases hPlace

/-- What comes after a scope has closed has no place that the scope could be compared with.
-/
theorem leave_before (hSecond : second.Stays fun _ => False) (block : Node) :
    Task.Before (.emit (.leave block)) second := by
  cases second with
  | visit inMethod other => exact hSecond
  | emit event =>
      cases event with
      | use | enter | leave => exact hSecond.elim
      | _ => rfl

end Task

namespace Walker

/-- Work in some places that neither opens nor closes a scope. -/
structure Calm (Here : Location → Prop) (tasks : List Task) : Prop where
  stays : ∀ task ∈ tasks, task.Stays Here
  order : tasks.Pairwise Task.Before

/-- Work inside a place, in an order that its scopes follow. -/
structure Orderly (place : Location) (tasks : List Task) : Prop where
  within : ∀ task ∈ tasks, task.IsWithin place
  order : tasks.Pairwise Task.Before

variable {before after inside : List Task}

@[simp] theorem calm_nil : Calm Here [] :=
  ⟨fun _ hTask => (nomatch hTask), .nil⟩

theorem Calm.mono (h : Calm Here tasks) (hPlaces : ∀ place, Here place → There place) :
    Calm There tasks :=
  ⟨fun task hTask => (h.stays task hTask).mono hPlaces, h.order⟩

/-- What work begins with. -/
theorem Calm.of_append (h : Calm Here (before ++ after)) : Calm Here before :=
  ⟨fun task hTask => h.stays task (List.mem_append_left _ hTask), (List.pairwise_append.1 h.order).1⟩

/-- Events at places of one kind. Events, unlike visits, need not stand apart from one
another. -/
theorem calm_emits (h : ∀ task ∈ tasks, ∃ event, task = .emit event ∧ Task.Stays Here (.emit event)) :
    Calm Here tasks where
  stays := fun task hTask => by
    obtain ⟨event, rfl, hStays⟩ := h task hTask
    exact hStays
  order := List.pairwise_of_forall_mem_list fun first hFirst second hSecond => by
    obtain ⟨event, rfl, hStays⟩ := h first hFirst
    obtain ⟨other, rfl, hOther⟩ := h second hSecond
    exact Task.emit_before_emit hStays hOther

/-- Work in the midst of other work that stands apart from it. -/
theorem Calm.insert (h : Calm Here (before ++ after)) (hInside : Calm There inside)
    (hApart : ∀ place other, Here place → There other → Location.Apart place other) :
    Calm (fun place => Here place ∨ There place) (before ++ inside ++ after) where
  stays := fun task hTask => by
    rcases List.mem_append.1 hTask with hTask | hTask
    · rcases List.mem_append.1 hTask with hTask | hTask
      · exact (h.stays task (List.mem_append_left _ hTask)).mono fun _ => .inl
      · exact (hInside.stays task hTask).mono fun _ => .inr
    · exact (h.stays task (List.mem_append_right _ hTask)).mono fun _ => .inl
  order := by
    obtain ⟨hBefore, hAfter, hCross⟩ := List.pairwise_append.1 h.order
    rw [List.append_assoc]
    refine List.pairwise_append.2 ⟨hBefore, List.pairwise_append.2 ⟨hInside.order, hAfter, ?_⟩, ?_⟩
    · intro first hFirst second hSecond
      exact Task.before_of_stays (hInside.stays first hFirst)
        (h.stays second (List.mem_append_right _ hSecond)) fun place other hPlace hOther =>
          (hApart other place hOther hPlace).symm
    · intro first hFirst second hSecond
      rcases List.mem_append.1 hSecond with hSecond | hSecond
      · exact Task.before_of_stays (h.stays first (List.mem_append_left _ hFirst))
          (hInside.stays second hSecond) hApart
      · exact hCross first hFirst second hSecond

/-- Work in two sets of places of which each is apart from the other. -/
theorem Calm.append (hBefore : Calm Here before) (hAfter : Calm There after)
    (hApart : ∀ place other, Here place → There other → Location.Apart place other) :
    Calm (fun place => Here place ∨ There place) (before ++ after) := by
  rw [← List.append_nil before] at hBefore
  have hBoth := hBefore.insert hAfter hApart
  rwa [List.append_nil] at hBoth

/-- What is done in the midst of other work at a node, in other fields. -/
theorem Calm.insert_fields {names others : List String} (h : Calm (place.InFields names) (before ++ after))
    (hInside : Calm (place.InFields others) inside) (hDisjoint : ∀ name ∈ names, name ∉ others) :
    Calm (place.InFields (names ++ others)) (before ++ inside ++ after) :=
  (h.insert hInside fun _ _ hFirst hSecond => hFirst.apart hSecond hDisjoint).mono fun _ hPlace =>
    Location.inFields_append.2 hPlace

/-- What is done in some fields of a node, and then in others. -/
theorem Calm.fields {names others : List String} (hBefore : Calm (place.InFields names) before)
    (hAfter : Calm (place.InFields others) after) (hDisjoint : ∀ name ∈ names, name ∉ others) :
    Calm (place.InFields (names ++ others)) (before ++ after) :=
  (hBefore.append hAfter fun _ _ hFirst hSecond => hFirst.apart hSecond hDisjoint).mono
    fun _ hPlace => Location.inFields_append.2 hPlace

theorem Calm.below {names : List String} (h : Calm (place.InFields names) tasks) :
    Calm (place <:+ ·) tasks :=
  h.mono fun _ => Location.InFields.below

/-- Work at no place is calm wherever it is said to be. -/
theorem calm_of_mute (h : ∀ task ∈ tasks, task.Stays fun _ => False) : Calm Here tasks where
  stays := fun task hTask => (h task hTask).mono fun _ => False.elim
  order := List.pairwise_of_forall_mem_list fun first hFirst second hSecond =>
    Task.before_of_mute (h first hFirst) (h second hSecond)

/-- Work that has nothing to do with scopes changes nothing in other work. -/
theorem Calm.append_mute (h : Calm Here before) (hMute : ∀ task ∈ after, task.Stays fun _ => False) :
    Calm Here (before ++ after) :=
  have hAfter : Calm (fun _ => False) after := calm_of_mute hMute
  (h.append hAfter fun _ _ _ => False.elim).mono fun _ hPlace => hPlace.elim id False.elim

theorem Calm.mute_append (hMute : ∀ task ∈ before, task.Stays fun _ => False) (h : Calm Here after) :
    Calm Here (before ++ after) :=
  have hBefore : Calm (fun _ => False) before := calm_of_mute hMute
  (hBefore.append h fun _ _ hFalse => hFalse.elim).mono fun _ hPlace => hPlace.elim False.elim id

theorem Calm.mute_cons (hMute : first.Stays fun _ => False) (h : Calm Here tasks) :
    Calm Here (first :: tasks) :=
  have hFirst : ∀ task ∈ [first], task.Stays fun _ => False := List.forall_mem_singleton.2 hMute
  h.mute_append hFirst

/-- Work for each of several things, in places that stand apart. -/
theorem calm_flatMap {α : Type} {items : List α} {work : α → List Task} {At : α → Location → Prop}
    (hEach : ∀ item ∈ items, Calm (At item) (work item))
    (hApart : items.Pairwise fun first second =>
      ∀ place other, At first place → At second other → Location.Apart place other) :
    Calm (fun place => ∃ item ∈ items, At item place) (items.flatMap work) where
  stays := fun task hTask => by
    obtain ⟨item, hItem, hMem⟩ := List.mem_flatMap.1 hTask
    exact ((hEach item hItem).stays task hMem).mono fun place hPlace => ⟨item, hItem, hPlace⟩
  order := by
    refine List.pairwise_flatMap.2 ⟨fun item hItem => (hEach item hItem).order, ?_⟩
    refine hApart.imp_of_mem fun {first second} hFirst hSecond hPlaces task hTask other hOther => ?_
    exact Task.before_of_stays ((hEach first hFirst).stays task hTask)
      ((hEach second hSecond).stays other hOther) hPlaces

/-- Work that neither opens nor closes a scope is in order with respect to all scopes. -/
theorem Calm.orderly (h : Calm (place <:+ ·) tasks) : Orderly place tasks :=
  ⟨fun task hTask => (h.stays task hTask).isWithin, h.order⟩

/-- A scope of a node that is around some of the work at it, and what comes before. -/
theorem orderly_scope {ending : List Task} (hBefore : Calm Here before) (hInside : Calm There inside)
    (hMute : ∀ task ∈ ending, task.Stays fun _ => False)
    (hApart : ∀ place other, Here place → There other → Location.Apart place other)
    (hOutside : ∀ place inner, Here place → place <:+ inner → ¬ Surrounds kind block inner)
    (hEncloses : ∀ place, There place → Encloses kind block place)
    (hPlaces : ∀ inner, Here inner → place <:+ inner) (hBlock : place <:+ block.location) :
    Orderly place (before ++ .emit (.enter kind block inMethod) ::
      (inside ++ .emit (.leave block) :: ending)) := by
  have hQuiet : Calm There ending := calm_of_mute hMute
  -- The work is in the order: before the scope, its opening, inside of it, its end, and
  -- what ends.
  refine ⟨fun task hTask => ?_, ?_⟩
  · rcases List.mem_append.1 hTask with hTask | hTask
    · exact ((hBefore.stays task hTask).mono hPlaces).isWithin
    rcases List.mem_cons.1 hTask with rfl | hTask
    · exact hBlock
    rcases List.mem_append.1 hTask with hTask | hTask
    · exact ((hInside.stays task hTask).mono fun inner hInner =>
        hBlock.trans (hEncloses inner hInner).below).isWithin
    rcases List.mem_cons.1 hTask with rfl | hTask
    · exact hBlock
    · exact ((hMute task hTask).mono fun _ => False.elim).isWithin
  · have hClosed : (.emit (.leave block) :: ending).Pairwise Task.Before :=
      List.pairwise_cons.2 ⟨fun task hTask => Task.leave_before (hMute task hTask) block,
        hQuiet.order⟩
    have hOpen : (inside ++ .emit (.leave block) :: ending).Pairwise Task.Before := by
      refine List.pairwise_append.2 ⟨hInside.order, hClosed, fun first hFirst second hSecond => ?_⟩
      rcases List.mem_cons.1 hSecond with rfl | hSecond
      · exact Task.before_leave (hInside.stays first hFirst) block
      · exact Task.before_of_mute (hInside.stays first hFirst) (hMute second hSecond)
    refine List.pairwise_append.2 ⟨hBefore.order, List.pairwise_cons.2 ⟨?_, hOpen⟩, ?_⟩
    · intro second hSecond
      rcases List.mem_append.1 hSecond with hSecond | hSecond
      · exact Task.enter_before (hInside.stays second hSecond) hEncloses
      rcases List.mem_cons.1 hSecond with rfl | hSecond
      · exact fun _ hPlace => by cases hPlace
      · exact Task.enter_before (hQuiet.stays second hSecond) hEncloses
    · intro first hFirst second hSecond
      have hStays := hBefore.stays first hFirst
      rcases List.mem_cons.1 hSecond with rfl | hSecond
      · exact Task.before_enter hStays hOutside
      rcases List.mem_append.1 hSecond with hSecond | hSecond
      · exact Task.before_of_stays hStays (hInside.stays second hSecond) hApart
      rcases List.mem_cons.1 hSecond with rfl | hSecond
      · exact Task.before_leave hStays block
      · exact Task.before_of_mute hStays (hMute second hSecond)

/-- A scope that some fields of its node are outside of, and others inside. -/
theorem orderly_scope_of_fields {ending : List Task} {names others : List String}
    (hBefore : Calm (node.location.InFields names) before)
    (hInside : Calm (node.location.InFields others) inside)
    (hMute : ∀ task ∈ ending, task.Stays fun _ => False) (hDisjoint : ∀ name ∈ names, name ∉ others)
    (hOutside : ∀ name ∈ names, kind.outside? = some name)
    (hAround : ∀ name ∈ others, kind.outside? ≠ some name) :
    Orderly node.location (before ++ .emit (.enter kind node inMethod) ::
      (inside ++ .emit (.leave node) :: ending)) := by
  refine orderly_scope hBefore hInside hMute (fun _ _ hFirst hSecond => hFirst.apart hSecond hDisjoint)
    ?_ ?_ (fun _ => Location.InFields.below) (List.suffix_refl _)
  · rintro place inner ⟨name, hName, hPlace⟩ hInner hSurrounds
    exact hSurrounds.inside name (hOutside name hName) (hPlace.trans hInner)
  · rintro place ⟨name, hName, hPlace⟩
    refine (encloses_field fun field hField hEq => ?_).mono hPlace
    exact hAround name hName (hEq ▸ hField)

/-- Work that opens no scope, and closes none but the one around it. -/
theorem Calm.orderly_leave (h : Calm (node.location <:+ ·) inside) :
    Orderly node.location (inside ++ [.emit (.leave node)]) where
  within := fun task hTask => by
    rcases List.mem_append.1 hTask with hTask | hTask
    · exact (h.stays task hTask).isWithin
    · rw [List.mem_singleton.1 hTask]
      exact List.suffix_refl _
  order := List.pairwise_append.2 ⟨h.order, List.pairwise_singleton _ _,
    fun first hFirst second hSecond => by
      rw [List.mem_singleton.1 hSecond]
      exact Task.before_leave (h.stays first hFirst) node⟩

theorem Orderly.mute_append (hMute : ∀ task ∈ before, task.Stays fun _ => False)
    (h : Orderly place tasks) : Orderly place (before ++ tasks) where
  within := fun task hTask => by
    rcases List.mem_append.1 hTask with hTask | hTask
    · exact ((hMute task hTask).mono fun _ => False.elim).isWithin
    · exact h.within task hTask
  order := by
    have hBefore : Calm (place <:+ ·) before := calm_of_mute hMute
    exact List.pairwise_append.2 ⟨hBefore.order, h.order, fun first hFirst second _ =>
      Task.mute_before (hMute first hFirst) second⟩

theorem Orderly.mute_cons (hMute : first.Stays fun _ => False) (h : Orderly place tasks) :
    Orderly place (first :: tasks) :=
  have hFirst : ∀ task ∈ [first], task.Stays fun _ => False := List.forall_mem_singleton.2 hMute
  h.mute_append hFirst

/-- A scope may be opened before any work that is in order, if it is around the whole of the
node. -/
theorem Orderly.enter (h : Orderly node.location tasks) (hKind : kind.outside? = none) :
    Orderly node.location (.emit (.enter kind node inMethod) :: tasks) where
  within := fun task hTask => by
    rcases List.mem_cons.1 hTask with rfl | hTask
    · exact List.suffix_refl _
    · exact h.within task hTask
  order := List.pairwise_cons.2
    ⟨fun task hTask => Task.enter_before_of_outside hKind (h.within task hTask), h.order⟩

end Walker

end Scoping
