import Scoping.Proofs.Walk.Numbering

/-! Where the walk of a program is. It comes to each event at a task of the
program itself, or of a node that it visits, and what is open there follows from
what was open as it came to the node. -/

namespace Scoping

/-- The walk of a program comes to a task, with these events before it and these
after it. -/
inductive Arrives (settings : Settings) (root : Node) : List Event → Task → List Event → Prop where
  | program {before after : List Task} {task : Task}
      (split : Walker.program { settings } root = before ++ task :: after) :
      Arrives settings root (before.flatMap (Task.events settings)) task
        (after.flatMap (Task.events settings))
  | inside {past future : List Event} {inMethod : Bool} {node : Node} {before after : List Task}
      {task : Task} (visit : Arrives settings root past (.visit inMethod node) future)
      (split : Walker.tasks { settings, inMethod } node = before ++ task :: after) :
      Arrives settings root (past ++ before.flatMap (Task.events settings)) task
        (after.flatMap (Task.events settings) ++ future)

variable {settings : Settings} {root node inner : Node} {past future : List Event} {task : Task}
  {event : Event} {inMethod : Bool}

/-- Where the walk comes to a task, its events are split in three. -/
theorem Arrives.events (h : Arrives settings root past task future) :
    programEvents settings root = past ++ (task.events settings ++ future) := by
  induction h with
  | program split =>
      rw [programEvents, split, List.flatMap_append, List.flatMap_cons]
  | inside visit split ih =>
      rw [ih, Task.events_visit, split, List.flatMap_append, List.flatMap_cons]
      simp only [List.append_assoc]

/-- Where it comes to an event, the event stands between what was and what is to come. -/
theorem Arrives.events_eq (h : Arrives settings root past (.emit event) future) :
    programEvents settings root = past ++ event :: future := by
  rw [h.events, Task.events_emit, List.singleton_append]

/-- The visit of a program opens a global scope. -/
theorem enterGlobal_mem_events (hRole : Role.ofKind node.kind = .program) :
    .enter .global node false ∈ Task.events settings (.visit inMethod node) := by
  rw [Task.events_visit, List.mem_flatMap]
  refine ⟨.emit (.enter .global node false), ?_, ?_⟩
  · unfold Walker.tasks
    rw [hRole]
    exact List.mem_append_left _ (List.mem_append_left _ List.mem_cons_self)
  · rw [Task.events_emit]
    exact List.mem_singleton_self _

/-- An element of joined lists is one of a list that is joined. -/
theorem exists_of_flatMap_eq {α β : Type} {f : α → List β} {items : List α} {found : β}
    {first rest : List β} (h : items.flatMap f = first ++ found :: rest) :
    ∃ before item after inside beyond, items = before ++ item :: after ∧
      f item = inside ++ found :: beyond ∧ first = before.flatMap f ++ inside ∧
      rest = beyond ++ after.flatMap f := by
  induction items generalizing first with
  | nil => simp at h
  | cons item items ih =>
      rw [List.flatMap_cons, List.append_eq_append_iff] at h
      rcases h with ⟨inside, rfl, hItems⟩ | ⟨inside, hItem, hRest⟩
      · obtain ⟨before, other, after, within, beyond, rfl, hOther, rfl, rfl⟩ := ih hItems
        exact ⟨item :: before, other, after, within, beyond, rfl, hOther, by simp, rfl⟩
      · cases inside with
        | nil =>
            obtain ⟨before, other, after, within, beyond, rfl, hOther, hFirst, rfl⟩ :=
              ih (show _ = [] ++ _ from hRest.symm)
            exact ⟨item :: before, other, after, within, beyond, rfl, hOther, by simp [hItem, ← hFirst],
              rfl⟩
        | cons same beyond =>
            obtain ⟨rfl, rfl⟩ := List.cons.inj hRest
            exact ⟨[], item, items, first, beyond, rfl, hItem, rfl, rfl⟩

/-- An element of joined lists that is in neither the first nor the last. -/
theorem exists_of_append_eq {α : Type} {first inside last before after : List α} {found : α}
    (h : first ++ (inside ++ last) = before ++ found :: after) (hFirst : found ∉ first)
    (hLast : found ∉ last) :
    ∃ ahead behind, before = first ++ ahead ∧ inside = ahead ++ found :: behind := by
  have hInside : ∀ ahead, inside ++ last = ahead ++ found :: after →
      ∃ behind, inside = ahead ++ found :: behind := by
    intro ahead hEq
    rcases List.append_eq_append_iff.1 hEq with ⟨more, -, hMore⟩ | ⟨more, hMore, hRest⟩
    · exact absurd (hMore ▸ List.mem_append_right _ List.mem_cons_self) hLast
    · cases more with
      | nil =>
          obtain rfl : found :: after = last := hRest
          exact absurd List.mem_cons_self hLast
      | cons same behind =>
          obtain ⟨rfl, -⟩ := List.cons.inj hRest
          exact ⟨behind, hMore⟩
  rcases List.append_eq_append_iff.1 h with ⟨ahead, hBefore, hRest⟩ | ⟨more, hMore, hRest⟩
  · obtain ⟨behind, hBehind⟩ := hInside ahead hRest
    exact ⟨ahead, behind, hBefore, hBehind⟩
  · cases more with
    | nil =>
        obtain ⟨behind, hBehind⟩ := hInside [] hRest.symm
        rw [List.append_nil] at hMore
        exact ⟨[], behind, by rw [hMore, List.append_nil], hBehind⟩
    | cons same more =>
        obtain ⟨rfl, -⟩ := List.cons.inj hRest
        exact absurd (hMore ▸ List.mem_append_right _ List.mem_cons_self) hFirst

/-- What ends a list is after an element that is before it. -/
theorem mem_after_of_mem {α : Type} {front tail before after : List α} {found other : α}
    (h : front ++ tail = before ++ found :: after) (hTail : found ∉ tail) (hOther : other ∈ tail) :
    other ∈ after := by
  obtain ⟨ahead, behind, rfl, rfl⟩ := exists_of_append_eq (List.nil_append _ ▸ h) List.not_mem_nil hTail
  rw [List.append_assoc, List.cons_append] at h
  obtain ⟨-, rfl⟩ := List.cons.inj (List.append_cancel_left h)
  exact List.mem_append_right _ hOther

/-- An element that is nowhere else in a list is at one place. -/
theorem eq_of_append_cons_eq {α : Type} {first last before after : List α} {found : α}
    (h : first ++ found :: last = before ++ found :: after) (hFirst : found ∉ first)
    (hLast : found ∉ last) : before = first ∧ after = last := by
  obtain ⟨ahead, behind, rfl, hFound⟩ :=
    exists_of_append_eq (show first ++ ([found] ++ last) = _ from h) hFirst hLast
  cases ahead with
  | nil =>
      rw [List.append_nil] at h ⊢
      exact ⟨rfl, (List.cons.inj (List.append_cancel_left h)).2.symm⟩
  | cons other ahead => simp at hFound

/-- The walk comes to each of its events. -/
theorem arrives_of_events (h : programEvents settings root = past ++ event :: future) :
    Arrives settings root past (.emit event) future := by
  have hTask : ∀ {before after first rest : List Event} {task : Task},
      Arrives settings root before task after → task.events settings = first ++ event :: rest →
        Arrives settings root (before ++ first) (.emit event) (rest ++ after) := by
    intro before after first rest task hArrives hEvents
    induction hSize : task.size using Nat.strongRecOn generalizing before after first rest task with
    | ind size ih =>
        cases task with
        | emit found =>
            rw [Task.events_emit, eq_comm, List.append_eq_singleton_iff] at hEvents
            obtain ⟨rfl, hEvent⟩ | ⟨-, hEvent⟩ := hEvents
            · obtain ⟨rfl, rfl⟩ := List.cons.inj hEvent
              rw [List.append_nil]
              exact hArrives
            · cases hEvent
        | visit inMethod node =>
            rw [Task.events_visit] at hEvents
            obtain ⟨ahead, inner, behind, within, beyond, hSplit, hInner, rfl, rfl⟩ :=
              exists_of_flatMap_eq hEvents
            have hSmaller : inner.size < size := by
              rw [← hSize]
              exact Task.size_lt (hSplit ▸ List.mem_append_right _ List.mem_cons_self)
            have hDeeper := ih _ hSmaller (.inside hArrives hSplit) hInner rfl
            rw [← List.append_assoc, List.append_assoc beyond]
            exact hDeeper
  obtain ⟨before, task, after, within, beyond, hSplit, hEvents, rfl, rfl⟩ :=
    exists_of_flatMap_eq h
  exact hTask (.program hSplit) hEvents

/-- The scopes that are open after these events. -/
def Trail.after (settings : Settings) (past : List Event) : Trail :=
  Trail.steps settings [] (numbered 0 0 past)

/-- The scopes that are open after more events are found by going on from those that were
open. -/
theorem Trail.after_append (settings : Settings) (past rest : List Event) :
    Trail.after settings (past ++ rest) = (Trail.after settings past).steps settings
      (numbered (0 + past.countP Event.opens) (0 + past.countP Event.records) rest) := by
  rw [Trail.after, numbered_append, Trail.steps_append]
  rfl

/-- Neutral work at a node leaves the scopes as they were when it began. -/
theorem Trail.after_append_of_neutral {tasks : List Task} (h : Walker.Neutral node tasks)
    (hClear : (Trail.after settings past).Clear node) :
    Trail.after settings (past ++ tasks.flatMap (Task.events settings)) =
      Trail.after settings past := by
  rw [Trail.after_append]
  exact (Trail.steps_of_neutral h hClear (map_event_numbered _ _ _)).1

/-- An event with the number that it has after these. -/
def Numbered.after (past : List Event) (event : Event) : Numbered where
  number :=
    if event.opens then past.countP Event.opens
    else if event.records then past.countP Event.records
    else 0
  event

/-- An entry of a log is a split of the events, with the scopes that are open at it. -/
theorem Trail.mem_log {trail : Trail} {signals : List Numbered} {entry : Trail × Numbered} :
    entry ∈ trail.log settings signals ↔ ∃ before after, signals = before ++ entry.2 :: after ∧
      entry.1 = trail.steps settings before := by
  constructor
  · intro h
    induction signals generalizing trail with
    | nil => cases h
    | cons signal rest ih =>
        rcases List.mem_cons.1 h with rfl | hRest
        · exact ⟨[], rest, rfl, rfl⟩
        · obtain ⟨before, after, rfl, hTrail⟩ := ih hRest
          exact ⟨signal :: before, after, rfl, hTrail⟩
  · rintro ⟨before, after, rfl, hTrail⟩
    rw [log_append]
    refine List.mem_append_right _ ?_
    rw [← hTrail, log]
    exact List.mem_cons_self

/-- Numbers count what came before, so a later event does not change them. -/
theorem numbered_append_cons (past : List Event) (event : Event) (future : List Event) :
    ∃ later, numbered 0 0 (past ++ event :: future) =
      numbered 0 0 past ++ .after past event :: later := by
  rw [numbered_append, numbered]
  simp only [Nat.zero_add]
  exact ⟨_, rfl⟩

/-- Each entry of the log of a program stands where the walk comes to its event. -/
theorem mem_programLog {entry : Trail × Numbered} : entry ∈ programLog settings root ↔
    ∃ past future event, Arrives settings root past (.emit event) future ∧
      entry = (Trail.after settings past, .after past event) := by
  rw [programLog, Trail.mem_log]
  constructor
  · rintro ⟨before, after, hSignals, hTrail⟩
    have hEvents := congrArg (List.map Numbered.event) hSignals
    rw [map_event_numbered, List.map_append, List.map_cons] at hEvents
    obtain ⟨later, hNumbered⟩ :=
      numbered_append_cons (before.map Numbered.event) entry.2.event (after.map Numbered.event)
    rw [← hEvents, hSignals] at hNumbered
    have hLength := congrArg List.length
      (map_event_numbered 0 0 (before.map Numbered.event))
    rw [List.length_map, List.length_map] at hLength
    obtain ⟨hBefore, hRest⟩ := List.append_inj hNumbered hLength.symm
    refine ⟨_, _, _, arrives_of_events hEvents, Prod.ext ?_ (List.cons.inj hRest).1⟩
    rw [hTrail, Trail.after, ← hBefore]
  · rintro ⟨past, future, event, hArrives, rfl⟩
    obtain ⟨later, hNumbered⟩ := numbered_append_cons past event future
    exact ⟨_, later, by rw [hArrives.events_eq, hNumbered], rfl⟩

/-- The scopes that are open once an event has come. -/
theorem Trail.after_concat (settings : Settings) (past : List Event) (event : Event) :
    Trail.after settings (past ++ [event]) =
      (Trail.after settings past).step settings (.after past event) := by
  rw [Trail.after_append]
  simp only [Nat.zero_add]
  rfl

/-- The log goes on from the scopes that are open as an event comes. -/
theorem Trail.log_after (settings : Settings) (past : List Event) (event : Event)
    (rest : List Event) :
    (Trail.after settings past).log settings
        (numbered (past.countP Event.opens) (past.countP Event.records) (event :: rest)) =
      (Trail.after settings past, .after past event) ::
        (Trail.after settings (past ++ [event])).log settings
          (numbered ((past ++ [event]).countP Event.opens) ((past ++ [event]).countP Event.records)
            rest) := by
  have hCount : ∀ p : Event → Bool, (past ++ [event]).countP p = past.countP p + (p event).toNat := by
    intro p
    rw [List.countP_append]
    cases hEvent : p event <;> simp [hEvent]
  rw [Trail.after_concat, hCount, hCount]
  rfl

/-- What holds of any two events of a program, as the walk comes to the one before the
other, holds of the log. -/
theorem pairwise_programLog {R : Trail × Numbered → Trail × Numbered → Prop}
    (h : ∀ past event middle next future,
      programEvents settings root = past ++ event :: (middle ++ next :: future) →
        R (Trail.after settings past, .after past event)
          (Trail.after settings (past ++ event :: middle), .after (past ++ event :: middle) next)) :
    (programLog settings root).Pairwise R := by
  have hAll : ∀ rest past, programEvents settings root = past ++ rest →
      ((Trail.after settings past).log settings
        (numbered (past.countP Event.opens) (past.countP Event.records) rest)).Pairwise R ∧
      ∀ entry ∈ (Trail.after settings past).log settings
          (numbered (past.countP Event.opens) (past.countP Event.records) rest),
        ∃ before event after, rest = before ++ event :: after ∧
          entry = (Trail.after settings (past ++ before), .after (past ++ before) event) := by
    intro rest
    induction rest with
    | nil => exact fun _ _ => ⟨.nil, fun _ hEntry => nomatch hEntry⟩
    | cons event rest ih =>
        intro past hEvents
        obtain ⟨hRest, hEach⟩ := ih (past ++ [event]) (by simp [hEvents])
        rw [Trail.log_after]
        refine ⟨List.pairwise_cons.2 ⟨fun entry hEntry => ?_, hRest⟩, fun entry hEntry => ?_⟩
        · obtain ⟨middle, next, future, rfl, rfl⟩ := hEach entry hEntry
          rw [List.append_assoc, List.singleton_append]
          exact h past event middle next future hEvents
        · rcases List.mem_cons.1 hEntry with rfl | hLater
          · exact ⟨[], event, rest, rfl, by rw [List.append_nil]⟩
          · obtain ⟨before, next, after, rfl, rfl⟩ := hEach entry hLater
            exact ⟨event :: before, next, after, rfl, by simp⟩
  exact (hAll _ [] rfl).1

/-- Each task of some work is as `P` says of the scopes that are open as it
comes. A visit leaves the scopes as they are. -/
def Along (settings : Settings) (P : Trail → Task → Prop) : Trail → List Task → Prop
  | _, [] => True
  | trail, .visit inMethod inner :: tasks =>
      P trail (.visit inMethod inner) ∧ Along settings P trail tasks
  | trail, .emit event :: tasks =>
      P trail (.emit event) ∧
        ∀ number, Along settings P (trail.step settings ⟨number, event⟩) tasks

theorem Along.mono {P Q : Trail → Task → Prop} {trail : Trail} {tasks : List Task}
    (h : Along settings P trail tasks)
    (hImp : ∀ trail task, P trail task → Q trail task) : Along settings Q trail tasks := by
  induction tasks generalizing trail with
  | nil => trivial
  | cons task tasks ih =>
      cases task with
      | visit inMethod inner => exact ⟨hImp _ _ h.1, ih h.2⟩
      | emit event => exact ⟨hImp _ _ h.1, fun number => ih (h.2 number)⟩

namespace Trail

variable {P : Trail → Task → Prop} {trail : Trail} {tasks : List Task}
  {own : Bool}

/-- What is so of each neutral task by itself need not be followed, as these leave the
scopes alone. -/
theorem along_append_of_neutral {first : List Task} (h : Walker.Neutral node first)
    (hFirst : ∀ task ∈ first, P trail task) (hTasks : Along settings P trail tasks) :
    Along settings P trail (first ++ tasks) := by
  induction first with
  | nil => exact hTasks
  | cons task first ih =>
      have hRest := ih (fun inner hInner => h inner (List.mem_cons_of_mem _ hInner))
        fun inner hInner => hFirst inner (List.mem_cons_of_mem _ hInner)
      have hHead := hFirst task List.mem_cons_self
      cases task with
      | visit inMethod inner => exact ⟨hHead, hRest⟩
      | emit event =>
          refine ⟨hHead, fun number => ?_⟩
          have hPlain : (Numbered.mk number event).event.IsPlain := h _ List.mem_cons_self
          rw [step_of_isPlain hPlain]
          exact hRest

/-- For work that is all neutral, it is enough to look at each task by itself. -/
theorem along_of_neutral (h : Walker.Neutral node tasks) (hTasks : ∀ task ∈ tasks, P trail task) :
    Along settings P trail tasks := by
  rw [← List.append_nil tasks]
  exact along_append_of_neutral h hTasks trivial

theorem along_head (h : Along settings P trail (task :: tasks)) : P trail task := by
  cases task <;> exact h.1

/-- A task finds the scopes as `P` says of it, and none that belongs to a node
inside the one that it visits. -/
def Finds (P : Trail → Task → Prop) (trail : Trail) (task : Task) : Prop :=
  P trail task ∧ ∀ inMethod inner, task = .visit inMethod inner → trail.Clear inner

/-- Each task of some work finds the scopes as `P` says, however the events before it
are numbered. Only the end of a scope may find that the scope is closed already. -/
def AllFind (settings : Settings) (P : Trail → Task → Prop) (trail : Trail) (tasks : List Task) :
    Prop :=
  ∀ before task after, tasks = before ++ task :: after → (∀ block, task ≠ .emit (.leave block)) →
    ∀ signals : List Numbered, signals.map Numbered.event = before.flatMap (Task.events settings) →
      Finds P (trail.steps settings signals) task

theorem allFind_nil : AllFind settings P trail [] := by
  intro before task after hSplit
  simp at hSplit

/-- A task finds what it finds, and the rest goes on from wherever it leaves the scopes. The
end of a scope is excepted. -/
theorem allFind_cons
    (hHead : (∀ block, task ≠ .emit (.leave block)) → Finds P trail task)
    (hRest : ∀ first : List Numbered, first.map Numbered.event = task.events settings →
      AllFind settings P (trail.steps settings first) tasks) :
    AllFind settings P trail (task :: tasks) := by
  intro before found after hSplit hTask signals hSignals
  rcases List.cons_eq_append_iff.1 hSplit with ⟨rfl, hSame⟩ | ⟨before, rfl, hLater⟩
  · obtain ⟨rfl, rfl⟩ := List.cons.inj hSame
    rw [List.map_eq_nil_iff.1 hSignals]
    exact hHead hTask
  · rw [List.flatMap_cons] at hSignals
    obtain ⟨first, rest, rfl, hFirst, hInside⟩ := List.map_eq_append_iff.1 hSignals
    rw [steps_append]
    exact hRest first hFirst before found after hLater hTask rest hInside

/-- One event at the front, however it is numbered. -/
theorem allFind_emit {event : Event}
    (hHead : (∀ block, event ≠ .leave block) → P trail (.emit event))
    (hRest : ∀ number, AllFind settings P (trail.step settings ⟨number, event⟩) tasks) :
    AllFind settings P trail (.emit event :: tasks) := by
  refine allFind_cons (fun hTask => ⟨hHead (by simpa using hTask), nofun⟩) fun first hFirst => ?_
  rw [Task.events_emit] at hFirst
  obtain ⟨signal, rfl, rfl⟩ := List.map_eq_singleton_iff.1 hFirst
  exact hRest signal.number

/-- After a neutral task the same scopes are open, so the rest is as it was said to be. -/
theorem along_tail_of_isNeutral (hNeutral : task.IsNeutral node)
    (h : Along settings P trail (task :: tasks)) : Along settings P trail tasks := by
  cases task with
  | emit event =>
      have hPlain : (Numbered.mk 0 event).event.IsPlain := hNeutral
      have hStep : trail.step settings ⟨0, event⟩ = trail := step_of_isPlain hPlain
      exact hStep ▸ h.2 0
  | visit inMethod inner => exact h.2

/-- Work at a node that is as `P` says all along is so at each task, however
much the visits before have opened and closed. Inside the scope of a field's value
the scopes are not known until it ends, and then they are as they were before it. -/
theorem allFind_of_along (h : Contained node own tasks) (hReady : trail.Ready node own)
    (hAlong : Along settings P trail tasks) : AllFind settings P trail tasks := by
  -- By induction on how the work is contained, with `Ready` from one task to the next.
  induction h generalizing trail with
  | nil => exact allFind_nil
  | @neutral own task tasks hNeutral _ ih =>
      have hClear : ∀ inMethod inner, task = .visit inMethod inner → trail.Clear inner := by
        rintro inMethod inner rfl
        exact (hReady.clear.of_contains hNeutral).1
      refine allFind_cons (fun _ => ⟨along_head hAlong, hClear⟩) fun first hFirst => ?_
      rw [(hReady.clear.steps_of_isNeutral hNeutral hFirst).1]
      exact ih hReady (along_tail_of_isNeutral hNeutral hAlong)
  | mark hMarks _ ih =>
      exact allFind_emit (fun _ => along_head hAlong) fun number =>
        ih (hReady.mark settings hMarks number).1 (hAlong.2 number)
  | enter _ _ ih =>
      exact allFind_emit (fun _ => along_head hAlong) fun number =>
        ih (hReady.enter number _ _) (hAlong.2 number)
  | leave _ ih =>
      exact allFind_emit (fun _ => along_head hAlong) fun number =>
        ih (hReady.leave number) (hAlong.2 number)
  | @field own inMethod value tasks hValue _ ih =>
      refine allFind_emit (fun _ => along_head hAlong) fun number => ?_
      have hBlock : (trail.opening settings number .fieldInitializer value true).block = value := rfl
      obtain ⟨hInside, hWithout⟩ := hReady.clear.of_contains hValue
      have hVisit : Finds P (trail.step settings ⟨number, .enter .fieldInitializer value true⟩)
          (.visit inMethod value) := by
        refine ⟨along_head (hAlong.2 number), ?_⟩
        rintro _ _ ⟨⟩
        exact hInside.cons hBlock
      refine allFind_cons (fun _ => hVisit) fun visited hVisited => ?_
      refine allFind_emit (fun hLeave => absurd rfl (hLeave value)) fun last => ?_
      rw [hReady.clear.steps_of_field hValue number last hVisited]
      have hAlongRest := (hAlong.2 number).2.2 last
      -- Whether or not the visit has closed the scope of the value, its end leaves what was
      -- open before.
      have hLeft : (trail.step settings ⟨number, .enter .fieldInitializer value true⟩).step settings
          ⟨last, .leave value⟩ = trail := (without_of_block hBlock).trans hWithout
      rw [hLeft] at hAlongRest
      exact ih hReady hAlongRest

/-- The work of a program that is as `P` says all along is so at each task. -/
theorem allFind_of_program {root : Node}
    (hAlong : Along settings P [] (Walker.program { settings } root)) :
    AllFind settings P [] (Walker.program { settings } root) := by
  obtain ⟨rest, hProgram, hContained⟩ := Walker.exists_contained_program { settings } root
  rw [hProgram] at hAlong ⊢
  have hNone : Trail.Clear [] root := fun _ hFrame => nomatch hFrame
  exact allFind_emit (fun _ => along_head hAlong) fun number =>
    allFind_of_along hContained (hNone.ready_cons rfl) (hAlong.2 number)

end Trail

/-- What a walk keeps of the open scopes: something at each node that it visits,
and something at each event that the visit of a node brings by itself. The
latter may compare with the scopes that the visit has begun with. -/
structure Tracks (settings : Settings) (root : Node) (Visit : Trail → Bool → Node → Prop)
    (Emit : Bool → Node → Trail → Trail → Event → Prop) : Prop where
  root : Along settings
    (fun trail task => ∀ inMethod inner, task = .visit inMethod inner → Visit trail inMethod inner)
    [] (Walker.program { settings } root)
  node : ∀ (inMethod : Bool) (node : Node) (trail : Trail), trail.Clear node →
    Visit trail inMethod node →
      Along settings
        (fun later task =>
          match task with
          | .visit inMethod inner => Visit later inMethod inner
          | .emit event => Emit inMethod node trail later event)
        trail (Walker.tasks { settings, inMethod } node)

namespace Tracks

variable {Visit : Trail → Bool → Node → Prop} {Emit : Bool → Node → Trail → Trail → Event → Prop}

/-- At each visit that the walk comes to, what is tracked holds of the scopes that are open
there. -/
theorem visit (h : Tracks settings root Visit Emit)
    (hArrives : Arrives settings root past (.visit inMethod node) future) :
    (Trail.after settings past).Clear node ∧ Visit (Trail.after settings past) inMethod node := by
  generalize hTask : Task.visit inMethod node = task at hArrives
  induction hArrives generalizing inMethod node with
  | program split =>
      subst hTask
      obtain ⟨hVisit, hClear⟩ :=
        Trail.allFind_of_program h.root _ _ _ split nofun _ (map_event_numbered 0 0 _)
      exact ⟨hClear _ _ rfl, hVisit _ _ rfl⟩
  | inside _ split ih =>
      subst hTask
      obtain ⟨hAround, hOuter⟩ := ih rfl
      obtain ⟨hVisit, hClear⟩ := Trail.allFind_of_along Walker.contained_tasks hAround.ready
        (h.node _ _ _ hAround hOuter) _ _ _ split nofun _ (map_event_numbered _ _ _)
      rw [← Trail.after_append] at hVisit hClear
      exact ⟨hClear _ _ rfl, hVisit⟩

/-- Each event is of the program itself, or is brought by the visit of a node. -/
theorem emit (h : Tracks settings root Visit Emit)
    (hArrives : Arrives settings root past (.emit event) future)
    (hEvent : ∀ block, event ≠ .leave block) :
    .emit event ∈ Walker.program { settings } root ∨
      ∃ begun inMethod node rest before after, Arrives settings root begun (.visit inMethod node) rest ∧
        Walker.tasks { settings, inMethod } node = before ++ .emit event :: after ∧
        past = begun ++ before.flatMap (Task.events settings) ∧
        Visit (Trail.after settings begun) inMethod node ∧
        Emit inMethod node (Trail.after settings begun) (Trail.after settings past) event := by
  cases hArrives with
  | program split => exact .inl (split ▸ List.mem_append_right _ List.mem_cons_self)
  | inside hVisits split =>
      obtain ⟨hAround, hOuter⟩ := h.visit hVisits
      obtain ⟨hEmit, -⟩ := Trail.allFind_of_along Walker.contained_tasks hAround.ready
        (h.node _ _ _ hAround hOuter) _ _ _ split (by simpa using hEvent) _ (map_event_numbered _ _ _)
      rw [← Trail.after_append] at hEmit
      exact .inr ⟨_, _, _, _, _, _, hVisits, split, rfl, hOuter, hEmit⟩

end Tracks

/-- Items that each show what is kept of the event at their place are all that is kept of the
events. -/
theorem map_toList_eq_filterMap {α β : Type} {items : Array α} {events : List Event} {view : α → β}
    {kept : Event → Option β} (hSize : items.size = (events.filterMap kept).length)
    (hEach : ∀ (position : Nat) (item : α), items[position]? = some item → ∃ past event future,
      events = past ++ event :: future ∧ position = (past.filterMap kept).length ∧
        kept event = some (view item)) : items.toList.map view = events.filterMap kept := by
  refine List.ext_getElem? fun position => ?_
  rw [List.getElem?_map, Array.getElem?_toList]
  cases hItem : items[position]? with
  | none => exact (List.getElem?_eq_none (hSize ▸ Array.getElem?_eq_none_iff.1 hItem)).symm
  | some item =>
      obtain ⟨past, event, future, rfl, rfl, hKept⟩ := hEach position item hItem
      rw [List.filterMap_append, List.filterMap_cons_some hKept,
        List.getElem?_append_right (Nat.le_refl _), Nat.sub_self]
      rfl

namespace SymbolTable

variable {table next : SymbolTable}

/-- A walk that ends well has gone well up to each of its events. -/
theorem exists_run_of_append {first rest : List Event}
    (hOk : table.run settings (first ++ rest) = .ok next) :
    ∃ middle, table.run settings first = .ok middle ∧ middle.run settings rest = .ok next := by
  rw [run, List.foldlM_append] at hOk
  exact exists_of_bind_ok hOk

/-- A run can be prolonged by one event. -/
theorem run_concat {event : Event} {third : SymbolTable} (hFirst : table.run settings past = .ok next)
    (hLast : next.apply settings event = .ok third) :
    table.run settings (past ++ [event]) = .ok third := by
  rw [run, List.foldlM_append, show List.foldlM (apply settings) table past = .ok next from hFirst]
  exact congrArg (· >>= pure) hLast

/-- A walk that goes well meets no failure. -/
theorem fail_not_mem_of_run {failure : Failure} (hOk : table.run settings past = .ok next) :
    .fail failure ∉ past := by
  intro hMem
  obtain ⟨before, after, rfl⟩ := List.append_of_mem hMem
  obtain ⟨middle, -, hRest⟩ := exists_run_of_append hOk
  obtain ⟨found, hFail, -⟩ := exists_of_bind_ok hRest
  cases hFail

/-- The table of a run agrees with the trail of its events. -/
theorem follows_after (hOk : ({} : SymbolTable).run settings past = .ok table) :
    Follows table (Trail.after settings past) :=
  follows_run follows_empty hOk

/-- A scope is the current one after these events of a walk. -/
def CurrentAfter (settings : Settings) (past : List Event) (scope : ScopeId) : Prop :=
  ∃ table, ({} : SymbolTable).run settings past = .ok table ∧ table.current = .ok scope

/-- The scope in front of the trail is the current one of the table. -/
theorem currentAfter_of_cons (hOk : ({} : SymbolTable).run settings past = .ok table)
    {head : Frame} {rest : Trail} (hTrail : Trail.after settings past = head :: rest) :
    CurrentAfter settings past head.scope := by
  have hStack := (follows_after hOk).stack
  rw [hTrail, List.map_cons] at hStack
  exact ⟨table, hOk, by rw [current, hStack]⟩

/-- A scope is open where the walk comes to a definition. -/
theorem exists_head_of_define {destination : Destination} {identifier : Node}
    {definition : Definition} {rest : List Event}
    (hOk : ({} : SymbolTable).run settings (past ++ .define destination identifier definition :: rest) =
      .ok table) :
    ∃ head around, Trail.after settings past = head :: around := by
  obtain ⟨middle, hMiddle, hRest⟩ := exists_run_of_append hOk
  obtain ⟨next, hNext, -⟩ := exists_of_bind_ok hRest
  obtain ⟨scope, hCurrent, -⟩ := exists_of_bind_ok hNext
  obtain ⟨head, around, hTrail, -⟩ := (follows_after hMiddle).head hCurrent
  exact ⟨head, around, hTrail⟩

/-- A walk adds the scopes that it opens and the references that it records. -/
theorem sizes_run {events : List Event} (h : Nested table table.stack)
    (hOk : table.run settings events = .ok next) :
    next.scopes.size = table.scopes.size + events.countP Event.opens ∧
      next.references.size = table.references.size + events.countP Event.records := by
  induction events generalizing table with
  | nil =>
      cases hOk
      exact ⟨rfl, rfl⟩
  | cons event events ih =>
      obtain ⟨middle, hMiddle, hRest⟩ := exists_of_bind_ok hOk
      obtain ⟨hScopes, hReferences⟩ := sizes_apply h hMiddle
      obtain ⟨hLater, hLast⟩ := ih (nested_apply h hMiddle) hRest
      have hCount : ∀ p : Event → Bool,
          (event :: events).countP p = (p event).toNat + events.countP p := fun p => by
        rw [List.countP_cons, Nat.add_comm]
        cases p event <;> rfl
      rw [hLater, hLast, hScopes, hReferences, hCount, hCount, Nat.add_assoc, Nat.add_assoc]
      exact ⟨rfl, rfl⟩

/-- A run numbers scopes and references by how many its events open and record. -/
theorem sizes_after (hOk : ({} : SymbolTable).run settings past = .ok table) :
    table.scopes.size = past.countP Event.opens ∧
      table.references.size = past.countP Event.records := by
  obtain ⟨hScopes, hReferences⟩ := sizes_run (nested_empty : Nested {} (SymbolTable.stack {})) hOk
  simpa using And.intro hScopes hReferences

end SymbolTable

end Scoping
