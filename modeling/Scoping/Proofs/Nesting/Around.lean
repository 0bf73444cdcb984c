import Scoping.Proofs.Nesting.Events

/-! The scopes that are open as an event comes: those that have opened before it
and are around its place. -/

namespace Scoping

/-- A scope is around the place of a task, and around all that is inside the node
that it visits. -/
def Frame.Fits (frame : Frame) : Task → Prop
  | .visit _ inner => Encloses frame.kind frame.block inner.location
  | .emit event => ∀ place ∈ event.place?, Surrounds frame.kind frame.block place

/-- All open scopes are around a task. -/
def Trail.Fits (trail : Trail) (task : Task) : Prop :=
  ∀ frame ∈ trail, frame.Fits task

variable {settings : Settings} {root : Node} {kind : ScopeKind} {block : Node} {inMethod : Bool}
  {place : Location} {event : Event} {tasks : List Task} {task : Task} {trail : Trail}
  {past before middle future : List Event} {frame : Frame} {signal : Numbered}
  {signals : List Numbered} {number : Nat}

namespace Trail

/-- A scope that is open after an event was open before, or opens at it. -/
theorem mem_step (h : frame ∈ trail.step settings signal) :
    (∃ before ∈ trail, before.kind = frame.kind ∧ before.block = frame.block) ∨
      ∃ inMethod, signal.event = .enter frame.kind frame.block inMethod := by
  obtain ⟨number, event⟩ := signal
  cases event with
  | enter kind block inMethod =>
      rcases List.mem_cons.1 h with rfl | hRest
      · exact .inr ⟨inMethod, rfl⟩
      · exact .inl ⟨frame, hRest, rfl, rfl⟩
  | leave block => exact .inl ⟨frame, without_suffix.subset h, rfl, rfl⟩
  | setStrict | bodyStart =>
      cases trail with
      | nil => cases h
      | cons head rest =>
          rcases List.mem_cons.1 h with rfl | hRest
          · exact .inl ⟨head, List.mem_cons_self, rfl, rfl⟩
          · exact .inl ⟨frame, List.mem_cons_of_mem _ hRest, rfl, rfl⟩
  | _ => exact .inl ⟨frame, h, rfl, rfl⟩

/-- A scope stays open up to the end of its node. -/
theorem exists_mem_step (settings : Settings) (h : frame ∈ trail)
    (hOpen : ∀ block, signal.event = .leave block → frame.block.location ≠ block.location) :
    ∃ later ∈ trail.step settings signal, later.scope = frame.scope ∧ later.block = frame.block := by
  obtain ⟨number, event⟩ := signal
  cases event with
  | enter kind block inMethod => exact ⟨frame, List.mem_cons_of_mem _ h, rfl, rfl⟩
  | leave block =>
      rw [← List.takeWhile_append_dropWhile (p := fun frame : Frame => frame.block == block)
        (l := trail), List.mem_append] at h
      rcases h with hCloses | hStays
      · have hSame : (frame.block == block) = true :=
          List.mem_takeWhile_imp (p := fun frame : Frame => frame.block == block) hCloses
        exact absurd (Node.beq_iff.1 hSame) (hOpen block rfl)
      · exact ⟨frame, hStays, rfl, rfl⟩
  | setStrict | bodyStart =>
      cases trail with
      | nil => cases h
      | cons head rest =>
          rcases List.mem_cons.1 h with rfl | hRest
          · exact ⟨_, List.mem_cons_self, rfl, rfl⟩
          · exact ⟨frame, List.mem_cons_of_mem _ hRest, rfl, rfl⟩
  | _ => exact ⟨frame, h, rfl, rfl⟩

theorem exists_mem_steps (settings : Settings) (h : frame ∈ trail)
    (hOpen : ∀ signal ∈ signals, ∀ block, signal.event = .leave block →
      frame.block.location ≠ block.location) :
    ∃ later ∈ trail.steps settings signals, later.scope = frame.scope := by
  induction signals generalizing trail frame with
  | nil => exact ⟨frame, h, rfl⟩
  | cons signal signals ih =>
      obtain ⟨next, hNext, hScope, hBlock⟩ := exists_mem_step settings h (hOpen signal List.mem_cons_self)
      obtain ⟨later, hLater, hSame⟩ := ih hNext fun other hOther => by
        rw [hBlock]
        exact hOpen other (List.mem_cons_of_mem _ hOther)
      exact ⟨later, hLater, hSame.trans hScope⟩

theorem fits_nil : Trail.Fits [] task :=
  fun _ hFrame => nomatch hFrame

/-- Scopes that are around all of some work fit each task of it. -/
theorem fits_of_within (h : ∀ frame ∈ trail, Encloses frame.kind frame.block place)
    (hTask : task.IsWithin place) : trail.Fits task := by
  intro frame hFrame
  cases task with
  | visit inMethod inner => exact (h frame hFrame).mono hTask
  | emit event => exact fun inner hInner => (h frame hFrame).surrounds (hTask.below hInner)

/-- After an event the scopes fit the tasks that it may come before. -/
theorem Fits.step (h : trail.Fits task) (hBefore : Task.Before (.emit event) task) :
    (trail.step settings ⟨number, event⟩).Fits task := by
  intro frame hFrame
  rcases mem_step hFrame with ⟨earlier, hEarlier, hKind, hBlock⟩ | ⟨inMethod, hEvent⟩
  · have hFits := h earlier hEarlier
    unfold Frame.Fits at hFits ⊢
    rwa [hKind, hBlock] at hFits
  · obtain rfl : event = .enter frame.kind frame.block inMethod := hEvent
    cases task with
    | visit inMethod inner => exact hBefore
    | emit later => exact hBefore

/-- Work in the order of its scopes fits them all along. -/
theorem along_fits (settings : Settings) (hOrder : tasks.Pairwise Task.Before)
    (h : ∀ task ∈ tasks, trail.Fits task) : Along settings Trail.Fits trail tasks := by
  induction tasks generalizing trail with
  | nil => trivial
  | cons task tasks ih =>
      obtain ⟨hBefore, hRest⟩ := List.pairwise_cons.1 hOrder
      have hHead := h task List.mem_cons_self
      have hLater : ∀ other ∈ tasks, trail.Fits other := fun other hOther =>
        h other (List.mem_cons_of_mem _ hOther)
      cases task with
      | visit inMethod inner => exact ⟨hHead, ih hRest hLater⟩
      | emit event =>
          exact ⟨hHead, fun number => ih hRest fun other hOther =>
            (hLater other hOther).step (hBefore other hOther)⟩

end Trail

/-- Where a walk comes to a task, the open scopes are around it. -/
theorem Arrives.finds (hCustom : settings.keys.custom = []) (hNames : root.NamesOnce)
    (h : Arrives settings root past task future) (hTask : ∀ block, task ≠ .emit (.leave block)) :
    Trail.Finds Trail.Fits (Trail.after settings past) task := by
  induction h with
  | program split =>
      have hOrderly : Walker.Orderly root.location (Walker.program { settings } root) :=
        Walker.orderly_program hCustom hNames
      have hAlong := Trail.along_fits settings hOrderly.order fun _ _ => Trail.fits_nil
      exact Trail.allFind_of_program hAlong _ _ _ split hTask _ (map_event_numbered 0 0 _)
  | @inside past future inMethod node before after task visit split ih =>
      obtain ⟨hAround, hClear⟩ := ih nofun
      have hOrderly : Walker.Orderly node.location (Walker.tasks { settings, inMethod } node) :=
        Walker.orderly_tasks hCustom (hNames.of_holds (.inr visit.contains))
      have hAlong := Trail.along_fits settings hOrderly.order fun task hMem =>
        Trail.fits_of_within hAround (hOrderly.within task hMem)
      rw [Trail.after_append]
      exact Trail.allFind_of_along Walker.contained_tasks (hClear _ _ rfl).ready hAlong _ _ _ split
        hTask _ (map_event_numbered _ _ _)

/-- Each open scope is around the place of an event. -/
theorem Arrives.surrounds (hCustom : settings.keys.custom = []) (hNames : root.NamesOnce)
    (h : Arrives settings root past (.emit event) future) (hPlace : place ∈ event.place?)
    (hFrame : frame ∈ Trail.after settings past) : Surrounds frame.kind frame.block place := by
  have hEvent : ∀ block, Task.emit event ≠ .emit (.leave block) := by
    rintro block hEq
    cases hEq
    cases hPlace
  exact (h.finds hCustom hNames hEvent).1 frame hFrame place hPlace

/-- A scope around the place of an event is open there, if it has opened before. -/
theorem exists_mem_after (hCustom : settings.keys.custom = []) (hNames : root.NamesOnce)
    (hEvents : programEvents settings root =
      before ++ .enter kind block inMethod :: (middle ++ event :: future))
    (hPlace : place ∈ event.place?) (hSurrounds : Surrounds kind block place) :
    ∃ frame ∈ Trail.after settings (before ++ .enter kind block inMethod :: middle),
      frame.scope = before.countP Event.opens := by
  have hOrder := (orderly_programEvents hCustom hNames).order
  rw [hEvents] at hOrder
  have hInside := (List.pairwise_cons.1 (List.pairwise_append.1 hOrder).2.1).2
  have hSpared : ∀ other ∈ middle, ∀ closed, other = .leave closed →
      block.location ≠ closed.location := by
    rintro other hOther closed rfl hEq
    have hBefore := (List.pairwise_append.1 hInside).2.2 _ hOther event List.mem_cons_self
    exact hBefore place hPlace (hEq ▸ hSurrounds.below)
  rw [Trail.after_append, numbered, Nat.zero_add]
  refine Trail.exists_mem_steps settings (List.mem_cons_self : Trail.opening settings
    (Trail.after settings before) _ kind block inMethod ∈ _ :: _) fun signal hSignal => ?_
  refine hSpared signal.event ?_
  rw [← map_event_numbered _ _ middle]
  exact List.mem_map_of_mem hSignal

end Scoping
