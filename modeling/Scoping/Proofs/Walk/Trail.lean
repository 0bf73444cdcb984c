import Mathlib.Data.List.DropRight
import Scoping.Analyze

/-! The scopes that a walk has open, followed through its events alone. No table
is needed to know them, nor what the events before have told it. -/

namespace Scoping

/-- An open scope, as the events of a walk give it. -/
structure Frame where
  scope : ScopeId
  kind : ScopeKind
  block : Node
  upper : Option ScopeId
  /-- The scope that a `var` goes to. -/
  holder : ScopeId
  strict : Bool
  /-- How often the body of a function has begun in the scope. -/
  bodies : Nat := 0

/-- The open scopes, the current one first. -/
abbrev Trail := List Frame

/-- An event with the number of the scope that it opens, or of the reference
that it records. -/
structure Numbered where
  number : Nat
  event : Event

namespace Trail

/-- Whether a scope that opens now is strict, as `SymbolTable.opensStrict`. -/
def opensStrict (settings : Settings) (trail : Trail) (kind : ScopeKind) (block : Node)
    (inMethod : Bool) : Except Failure Bool :=
  if !settings.knowsStrict then .ok false
  else if trail.head?.any Frame.strict then .ok true
  else if inMethod || kind = .classBody || kind = .esModule then .ok true
  else SymbolTable.strictByDirective kind block

/-- The scope that opens at an event. Where its directives cannot be read, the
walk ends, and what is said of the scope here has no meaning. -/
def opening (settings : Settings) (trail : Trail) (number : Nat) (kind : ScopeKind) (block : Node)
    (inMethod : Bool) : Frame where
  scope := number
  kind
  block
  upper := trail.head?.map Frame.scope
  holder := if kind.holdsVars then number else (trail.head?.map Frame.holder).getD number
  strict :=
    match trail.opensStrict settings kind block inMethod with
    | .ok strict => strict
    | .error _ => false

def modifyHead (trail : Trail) (change : Frame → Frame) : Trail :=
  match trail with
  | frame :: rest => change frame :: rest
  | [] => []

/-- The scopes that are left once a node has ended. -/
def without (trail : Trail) (node : Node) : Trail :=
  trail.dropWhile fun frame => frame.block == node

def step (settings : Settings) (trail : Trail) (signal : Numbered) : Trail :=
  match signal.event with
  | .enter kind block inMethod => trail.opening settings signal.number kind block inMethod :: trail
  | .leave block => trail.without block
  | .setStrict strict => trail.modifyHead fun frame => { frame with strict := strict }
  | .bodyStart => trail.modifyHead fun frame => { frame with bodies := frame.bodies + 1 }
  | .define .. | .use _ | .directEval | .thisExpression | .endDeclaration _ | .fail _ => trail

def steps (settings : Settings) (trail : Trail) (signals : List Numbered) : Trail :=
  signals.foldl (step settings) trail

/-- Each event with the scopes that are open as it comes. -/
def log (settings : Settings) (trail : Trail) : List Numbered → List (Trail × Numbered)
  | [] => []
  | signal :: rest => (trail, signal) :: log settings (trail.step settings signal) rest

variable {settings : Settings} {trail : Trail} {node : Node}

/-- Events are followed one after another. -/
theorem steps_append (first rest : List Numbered) :
    trail.steps settings (first ++ rest) = (trail.steps settings first).steps settings rest :=
  List.foldl_append

/-- The log of some events begins anew from the scopes that are open then. -/
theorem log_append (first rest : List Numbered) :
    trail.log settings (first ++ rest) =
      trail.log settings first ++ (trail.steps settings first).log settings rest := by
  induction first generalizing trail with
  | nil => rfl
  | cons signal first ih =>
      rw [List.cons_append, log, log, List.cons_append, ih]
      rfl

/-- A plain event neither opens nor closes a scope, and marks none. -/
theorem step_of_isPlain {signal : Numbered} (h : signal.event.IsPlain) :
    trail.step settings signal = trail := by
  unfold step
  split <;> simp_all [Event.IsPlain]

/-- Leaving the scopes of a node takes them from the front. -/
theorem without_suffix : trail.without node <:+ trail :=
  List.dropWhile_suffix _

theorem without_without : (trail.without node).without node = trail.without node :=
  List.dropWhile_idempotent _ _

/-- None of the scopes belongs to a node inside this one. -/
def Clear (trail : Trail) (node : Node) : Prop :=
  ∀ frame ∈ trail, ∀ steps, steps ≠ [] → frame.block.location ≠ steps ++ node.location

/-- Fewer open scopes are still clear of what is inside the node. -/
theorem Clear.of_suffix {later : Trail} (h : trail.Clear node) (hSuffix : later <:+ trail) :
    later.Clear node :=
  fun frame hFrame => h frame (hSuffix.subset hFrame)

/-- A scope of the node itself is not one of a node inside it. -/
theorem Clear.cons {frame : Frame} (h : trail.Clear node) (hBlock : frame.block = node) :
    Trail.Clear (frame :: trail) node := by
  intro other hOther steps hSteps
  rcases List.mem_cons.1 hOther with rfl | hRest
  · rw [hBlock]
    exact fun hEq => hSteps (List.self_eq_append_left.1 hEq)
  · exact h other hRest steps hSteps

/-- No scope belongs to a node inside this one, nor to one further inside. -/
theorem Clear.of_contains {inner : Node} (h : trail.Clear node) (hInner : node.Contains inner) :
    trail.Clear inner ∧ trail.without inner = trail := by
  obtain ⟨path, hPath, hLocation⟩ := hInner.location
  constructor
  · intro frame hFrame steps hSteps hEq
    refine h frame hFrame (steps ++ path) (by simp [hSteps]) ?_
    rw [hEq, hLocation, List.append_assoc]
  · cases trail with
    | nil => rfl
    | cons frame rest =>
        refine List.dropWhile_cons_of_neg fun hBlock => ?_
        exact h frame List.mem_cons_self path hPath ((Node.beq_iff.1 hBlock).trans hLocation)

/-- Where work at a node may go on. No scope of a node inside it is open, and, if
the flag of `Contained` says so, the current scope is one of the node. -/
structure Ready (trail : Trail) (node : Node) (own : Bool) : Prop where
  clear : trail.Clear node
  current : own = true → ∃ frame around, trail = frame :: around ∧ frame.block = node

theorem Clear.ready (h : trail.Clear node) : trail.Ready node false :=
  ⟨h, nofun⟩

/-- Once a scope of the node has opened, that is the current one. -/
theorem Clear.ready_cons {frame : Frame} (h : trail.Clear node) (hBlock : frame.block = node) :
    Trail.Ready (frame :: trail) node true :=
  ⟨h.cons hBlock, fun _ => ⟨frame, trail, rfl, hBlock⟩⟩

/-- What work at a node does to the scopes that were open before. None of the
scopes around the node is closed on the way, and in the end just the scopes of
the node itself have been, or nothing at all if none of them was the current
one. -/
structure Returns (settings : Settings) (node : Node) (own : Bool) (trail : Trail)
    (signals : List Numbered) : Prop where
  steps_eq : trail.steps settings signals = trail.without node ∨
    (own = false ∧ trail.steps settings signals = trail)
  log_suffix : ∀ entry ∈ trail.log settings signals, trail.without node <:+ entry.1

variable {own : Bool} {signals : List Numbered}

/-- No work leaves the open scopes as they are, for a node that has no scope open. -/
theorem returns_nil : Returns settings node false trail [] :=
  ⟨.inr ⟨rfl, rfl⟩, fun _ h => nomatch h⟩

/-- One event, and the work that follows it. -/
theorem Returns.cons {signal : Numbered} {next : Trail} {later : Bool}
    (h : Returns settings node later next signals) (hNext : trail.step settings signal = next)
    (hSame : next.without node = trail.without node)
    (hLater : later = false → (own = false ∧ next = trail) ∨ next = trail.without node) :
    Returns settings node own trail (signal :: signals) := by
  have hSteps : trail.steps settings (signal :: signals) = next.steps settings signals := by
    rw [← hNext]
    rfl
  refine ⟨?_, ?_⟩
  · rw [hSteps]
    rcases h.steps_eq with hEnd | ⟨hFalse, hEnd⟩
    · exact .inl (hEnd.trans hSame)
    · rcases hLater hFalse with ⟨hOwn, hStay⟩ | hWithout
      · exact .inr ⟨hOwn, hEnd.trans hStay⟩
      · exact .inl (hEnd.trans hWithout)
  · intro entry hEntry
    rw [log, hNext] at hEntry
    rcases List.mem_cons.1 hEntry with rfl | hRest
    · exact without_suffix
    · exact hSame ▸ h.log_suffix entry hRest

/-- A part of the work that ends where it began, and what follows it. -/
theorem Returns.append {first : List Numbered} (h : Returns settings node own trail signals)
    (hSteps : trail.steps settings first = trail)
    (hLog : ∀ entry ∈ trail.log settings first, trail <:+ entry.1) :
    Returns settings node own trail (first ++ signals) := by
  refine ⟨?_, ?_⟩
  · rw [steps_append, hSteps]
    exact h.steps_eq
  · intro entry hEntry
    rw [log_append, hSteps] at hEntry
    rcases List.mem_append.1 hEntry with hFirst | hRest
    · exact without_suffix.trans (hLog entry hFirst)
    · exact h.log_suffix entry hRest

/-- The visit of a node inside another leaves the open scopes as they were. -/
theorem Returns.of_contains {inner : Node} (h : Returns settings inner false trail signals)
    (hWithout : trail.without inner = trail) :
    trail.steps settings signals = trail ∧
      ∀ entry ∈ trail.log settings signals, trail <:+ entry.1 := by
  refine ⟨?_, fun entry hEntry => ?_⟩
  · rcases h.steps_eq with hEnd | ⟨-, hEnd⟩
    · exact hEnd.trans hWithout
    · exact hEnd
  · have hSuffix := h.log_suffix entry hEntry
    rwa [hWithout] at hSuffix

/-- Signals of work that begins with an event begin with one signal. -/
theorem exists_of_map_emit {event : Event} {tasks : List Task}
    (h : signals.map Numbered.event = (.emit event :: tasks).flatMap (Task.events settings)) :
    ∃ number rest, signals = ⟨number, event⟩ :: rest ∧
      rest.map Numbered.event = tasks.flatMap (Task.events settings) := by
  rw [List.flatMap_cons, Task.events_emit, List.singleton_append] at h
  obtain ⟨signal, rest, rfl, rfl, hRest⟩ := List.map_eq_cons_iff.1 h
  exact ⟨signal.number, rest, rfl, hRest⟩

/-- Signals of work that begins with a visit begin with all signals of that. -/
theorem exists_of_map_visit {inMethod : Bool} {inner : Node} {tasks : List Task}
    (h : signals.map Numbered.event =
      (.visit inMethod inner :: tasks).flatMap (Task.events settings)) :
    ∃ first rest, signals = first ++ rest ∧
      first.map Numbered.event = Task.events settings (.visit inMethod inner) ∧
      rest.map Numbered.event = tasks.flatMap (Task.events settings) := by
  rw [List.flatMap_cons] at h
  exact List.map_eq_append_iff.1 h

/-- Leaving a node takes along a scope of it at the front. -/
theorem without_of_block {frame : Frame} (hBlock : frame.block = node) :
    Trail.without (frame :: trail) node = trail.without node :=
  List.dropWhile_cons_of_pos (by rw [hBlock]; exact Node.beq_iff.2 rfl)

/-- A mark may change what is known of the current scope, but not the node that it is of. -/
theorem step_mark (settings : Settings) {event : Event} (h : event.Marks) (number : Nat) (frame : Frame) :
    ∃ changed : Frame, changed.block = frame.block ∧
      Trail.step settings (frame :: trail) ⟨number, event⟩ = changed :: trail := by
  cases event with
  | setStrict strict => exact ⟨{ frame with strict }, rfl, rfl⟩
  | bodyStart => exact ⟨{ frame with bodies := frame.bodies + 1 }, rfl, rfl⟩
  | _ => exact h.elim

/-- A mark changes the current scope, which stays one of the node. -/
theorem Ready.mark (h : trail.Ready node true) (settings : Settings) {event : Event}
    (hMarks : event.Marks) (number : Nat) :
    (trail.step settings ⟨number, event⟩).Ready node true ∧
      (trail.step settings ⟨number, event⟩).without node = trail.without node := by
  obtain ⟨frame, around, rfl, hBlock⟩ := h.current rfl
  obtain ⟨changed, hSame, hStep⟩ := step_mark settings hMarks number frame
  have hChanged : changed.block = node := hSame.trans hBlock
  have hAround := h.clear.of_suffix (List.suffix_cons frame around)
  rw [hStep, without_of_block hChanged, without_of_block hBlock]
  exact ⟨hAround.ready_cons hChanged, rfl⟩

/-- A scope of the node that opens becomes the current one. -/
theorem Ready.enter (h : trail.Ready node own) (number : Nat) (kind : ScopeKind)
    (inMethod : Bool) :
    (trail.step settings ⟨number, .enter kind node inMethod⟩).Ready node true :=
  h.clear.ready_cons rfl

/-- Once the scopes of a node have closed, work may go on that needs none of them. -/
theorem Ready.leave (h : trail.Ready node own) (number : Nat) :
    (trail.step settings ⟨number, .leave node⟩).Ready node false :=
  (h.clear.of_suffix without_suffix).ready

/-- The value of a field is visited in a scope of its own, which the visit may
have closed before the end of the value does. -/
theorem returns_of_field {frame : Frame} {value : Node} {visited : List Numbered}
    {first : Nat} (last : Nat) {kind : ScopeKind} {inMethod : Bool}
    (hFrame : frame = trail.opening settings first kind value inMethod)
    (hWithout : trail.without value = trail)
    (hVisited : Returns settings value false (frame :: trail) visited) :
    trail.steps settings (⟨first, .enter kind value inMethod⟩ :: visited ++ [⟨last, .leave value⟩]) =
      trail ∧
    ∀ entry ∈ trail.log settings
      (⟨first, .enter kind value inMethod⟩ :: visited ++ [⟨last, .leave value⟩]),
      trail <:+ entry.1 := by
  subst hFrame
  have hCons : Trail.without (trail.opening settings first kind value inMethod :: trail) value =
      trail := (without_of_block rfl).trans hWithout
  -- The visit may have closed the scope already, if the value is a node with scopes of its
  -- own.
  have hEnd : trail.steps settings (⟨first, .enter kind value inMethod⟩ :: visited) = trail ∨
      trail.steps settings (⟨first, .enter kind value inMethod⟩ :: visited) =
        trail.opening settings first kind value inMethod :: trail := by
    rcases hVisited.steps_eq with hEq | ⟨-, hEq⟩
    · exact .inl (hEq.trans hCons)
    · exact .inr hEq
  constructor
  · rw [steps_append]
    rcases hEnd with hEq | hEq
    · rw [hEq]
      exact hWithout
    · rw [hEq]
      exact hCons
  · intro entry hEntry
    rw [log_append] at hEntry
    rcases List.mem_append.1 hEntry with hFirst | hLast
    · rcases List.mem_cons.1 hFirst with rfl | hInside
      · exact List.suffix_refl trail
      · have hSuffix := hVisited.log_suffix entry hInside
        rwa [hCons] at hSuffix
    · rw [List.mem_singleton.1 hLast]
      rcases hEnd with hEq | hEq
      · simp [hEq]
      · simp [hEq]

/-- Contained work closes just what it opens, if the visits in it do. -/
theorem returns_of_contained {tasks : List Task}
    (hVisits : ∀ (inMethod : Bool) (inner : Node), node.Contains inner →
      ∀ (trail : Trail) (signals : List Numbered), trail.Clear inner →
        signals.map Numbered.event = Task.events settings (.visit inMethod inner) →
          Returns settings inner false trail signals)
    (h : Contained node own tasks) (hReady : trail.Ready node own)
    (hSignals : signals.map Numbered.event = tasks.flatMap (Task.events settings)) :
    Returns settings node own trail signals := by
  -- By induction on how the work is contained. `Ready` is what each task leaves to the
  -- next.
  induction h generalizing trail signals with
  | nil =>
      rw [List.flatMap_nil, List.map_eq_nil_iff] at hSignals
      exact hSignals ▸ returns_nil
  | @neutral own task tasks hNeutral _ ih =>
      cases task with
      | emit event =>
          obtain ⟨number, rest, rfl, hRest⟩ := exists_of_map_emit hSignals
          exact (ih hReady hRest).cons (step_of_isPlain hNeutral) rfl fun hFalse => .inl ⟨hFalse, rfl⟩
      | visit inMethod inner =>
          obtain ⟨first, rest, rfl, hFirst, hRest⟩ := exists_of_map_visit hSignals
          obtain ⟨hInner, hWithout⟩ := hReady.clear.of_contains hNeutral
          obtain ⟨hSteps, hLog⟩ :=
            (hVisits inMethod inner hNeutral trail first hInner hFirst).of_contains hWithout
          exact (ih hReady hRest).append hSteps hLog
  | @mark event tasks hMarks _ ih =>
      obtain ⟨number, rest, rfl, hRest⟩ := exists_of_map_emit hSignals
      obtain ⟨hNext, hSame⟩ := hReady.mark settings hMarks number
      exact (ih hNext hRest).cons rfl hSame nofun
  | @enter own kind inMethod tasks _ _ ih =>
      obtain ⟨number, rest, rfl, hRest⟩ := exists_of_map_emit hSignals
      exact (ih (hReady.enter number kind inMethod) hRest).cons rfl (without_of_block rfl) nofun
  | @leave own tasks _ ih =>
      obtain ⟨number, rest, rfl, hRest⟩ := exists_of_map_emit hSignals
      exact (ih (hReady.leave number) hRest).cons rfl without_without fun _ => .inr rfl
  -- The scope of the value is of another node, so its opening, the visit and its end are
  -- taken as one.
  | @field own inMethod value tasks hValue _ ih =>
      obtain ⟨number, inside, rfl, hInside⟩ := exists_of_map_emit hSignals
      obtain ⟨visited, ending, rfl, hVisited, hEnding⟩ := exists_of_map_visit hInside
      obtain ⟨last, rest, rfl, hRest⟩ := exists_of_map_emit hEnding
      obtain ⟨hInner, hWithout⟩ := hReady.clear.of_contains hValue
      have hBlock : (trail.opening settings number .fieldInitializer value true).block = value :=
        rfl
      have hReturns := hVisits inMethod value hValue _ visited (hInner.cons hBlock) hVisited
      have hField : ∀ first : List Numbered, first = ⟨number, .enter .fieldInitializer value true⟩ ::
          visited ++ [⟨last, .leave value⟩] →
          Returns settings node own trail (first ++ rest) := by
        rintro _ rfl
        obtain ⟨hSteps, hLog⟩ := returns_of_field last rfl hWithout hReturns
        exact (ih hReady hRest).append hSteps hLog
      have hAppend := hField _ rfl
      rw [List.append_assoc] at hAppend
      exact hAppend

/-- The visit of a node closes none of the scopes around it, and leaves none
open that was not open before. -/
theorem returns_of_visit (settings : Settings) (inMethod : Bool) (node : Node)
    (hClear : trail.Clear node)
    (hSignals : signals.map Numbered.event = Task.events settings (.visit inMethod node)) :
    Returns settings node false trail signals := by
  induction hSize : sizeOf node.entries using Nat.strongRecOn generalizing inMethod node trail
    signals with
  | ind size ih =>
      rw [Task.events_visit] at hSignals
      refine returns_of_contained (fun inMethod inner hInner trail signals hClear hSignals => ?_)
        Walker.contained_tasks hClear.ready hSignals
      exact ih _ (hSize ▸ hInner.sizeOf_lt) inMethod inner hClear hSignals rfl

/-- The visit of a node inside another leaves the open scopes as they were. -/
theorem Clear.steps_of_visit {inMethod : Bool} {inner : Node} (h : trail.Clear node)
    (hInner : node.Contains inner)
    (hSignals : signals.map Numbered.event = Task.events settings (.visit inMethod inner)) :
    trail.steps settings signals = trail ∧
      ∀ entry ∈ trail.log settings signals, trail <:+ entry.1 := by
  obtain ⟨hInside, hWithout⟩ := h.of_contains hInner
  exact (returns_of_visit settings inMethod inner hInside hSignals).of_contains hWithout

/-- So does the value of a field, with the scope that it is visited in. -/
theorem Clear.steps_of_field {inMethod : Bool} {value : Node} {visited : List Numbered}
    (h : trail.Clear node) (hValue : node.Contains value) (first last : Nat)
    (hVisited : visited.map Numbered.event = Task.events settings (.visit inMethod value)) :
    ((trail.step settings ⟨first, .enter .fieldInitializer value true⟩).steps settings
      visited).step settings ⟨last, .leave value⟩ = trail := by
  obtain ⟨hInside, hWithout⟩ := h.of_contains hValue
  have hBlock : (trail.opening settings first .fieldInitializer value true).block = value := rfl
  have hReturns := returns_of_visit settings inMethod value (hInside.cons hBlock) hVisited
  obtain ⟨hSteps, -⟩ := returns_of_field last rfl hWithout hReturns
  rw [steps_append] at hSteps
  exact hSteps

/-- One piece of neutral work returns to the scopes that were open, and never leaves them. -/
theorem Clear.steps_of_isNeutral {task : Task} (h : trail.Clear node)
    (hNeutral : task.IsNeutral node)
    (hSignals : signals.map Numbered.event = task.events settings) :
    trail.steps settings signals = trail ∧
      ∀ entry ∈ trail.log settings signals, trail <:+ entry.1 := by
  cases task with
  | emit event =>
      rw [Task.events_emit] at hSignals
      obtain ⟨signal, rfl, rfl⟩ := List.map_eq_singleton_iff.1 hSignals
      refine ⟨step_of_isPlain hNeutral, fun entry hEntry => ?_⟩
      obtain rfl := List.mem_singleton.1 hEntry
      exact List.suffix_refl _
  | visit inMethod inner => exact h.steps_of_visit hNeutral hSignals

/-- Neutral work leaves the open scopes as they were. -/
theorem steps_of_neutral {tasks : List Task} (h : Walker.Neutral node tasks)
    (hClear : trail.Clear node)
    (hSignals : signals.map Numbered.event = tasks.flatMap (Task.events settings)) :
    trail.steps settings signals = trail ∧
      ∀ entry ∈ trail.log settings signals, trail <:+ entry.1 := by
  induction tasks generalizing signals with
  | nil =>
      rw [List.flatMap_nil, List.map_eq_nil_iff] at hSignals
      subst hSignals
      exact ⟨rfl, fun _ hEntry => nomatch hEntry⟩
  | cons task tasks ih =>
      rw [List.flatMap_cons] at hSignals
      obtain ⟨first, rest, rfl, hHead, hRest⟩ := List.map_eq_append_iff.1 hSignals
      obtain ⟨hSteps, hLog⟩ := hClear.steps_of_isNeutral (h task List.mem_cons_self) hHead
      obtain ⟨hStepsRest, hLogRest⟩ :=
        ih (fun inner hInner => h inner (List.mem_cons_of_mem _ hInner)) hRest
      refine ⟨by rw [steps_append, hSteps, hStepsRest], fun entry hEntry => ?_⟩
      rw [log_append, hSteps] at hEntry
      exact (List.mem_append.1 hEntry).elim (hLog entry) (hLogRest entry)

/-- Work that only opens scopes of a node, and marks them. -/
def Opens (node : Node) (tasks : List Task) : Prop :=
  ∀ task ∈ tasks, ∃ event, task = .emit event ∧
    (event.Marks ∨ ∃ kind inMethod, kind ≠ .global ∧ event = .enter kind node inMethod)

/-- A scope is open, and no scope of another node is. -/
def Owned (node : Node) (trail : Trail) : Prop :=
  trail ≠ [] ∧ ∀ frame ∈ trail, frame.block = node

theorem Owned.clear (h : trail.Owned node) : trail.Clear node := by
  intro frame hFrame steps hSteps hEq
  rw [h.2 frame hFrame] at hEq
  exact hSteps (List.self_eq_append_left.1 hEq)

/-- If only scopes of one node are open, none is left once the node has ended. -/
theorem Owned.without_eq (h : trail.Owned node) : trail.without node = [] :=
  List.dropWhile_eq_nil_iff.2 fun frame hFrame => by
    rw [h.2 frame hFrame]
    exact Node.beq_iff.2 rfl

/-- Work that only opens and marks scopes of a node leaves one open, at every step of it. -/
theorem owned_of_opens {tasks : List Task} (h : Opens node tasks) (hOwned : trail.Owned node)
    (hSignals : signals.map Numbered.event = tasks.flatMap (Task.events settings)) :
    (trail.steps settings signals).Owned node ∧
      ∀ entry ∈ trail.log settings signals, entry.1 ≠ [] := by
  induction tasks generalizing trail signals with
  | nil =>
      rw [List.flatMap_nil, List.map_eq_nil_iff] at hSignals
      subst hSignals
      exact ⟨hOwned, fun _ hEntry => nomatch hEntry⟩
  | cons task tasks ih =>
      obtain ⟨event, rfl, hEvent⟩ := h task List.mem_cons_self
      obtain ⟨number, rest, rfl, hRest⟩ := exists_of_map_emit hSignals
      have hStep : (trail.step settings ⟨number, event⟩).Owned node := by
        rcases hEvent with hMarks | ⟨kind, inMethod, -, rfl⟩
        · obtain ⟨hNonempty, hBlocks⟩ := hOwned
          obtain ⟨frame, around, rfl⟩ := List.exists_cons_of_ne_nil hNonempty
          obtain ⟨changed, hSame, hEq⟩ := step_mark settings hMarks number frame
          rw [Owned, hEq]
          refine ⟨List.cons_ne_nil _ _, fun other hOther => ?_⟩
          rcases List.mem_cons.1 hOther with rfl | hAround
          · exact hSame.trans (hBlocks frame List.mem_cons_self)
          · exact hBlocks other (List.mem_cons_of_mem _ hAround)
        · refine ⟨List.cons_ne_nil _ _, fun other hOther => ?_⟩
          rcases List.mem_cons.1 hOther with rfl | hAround
          · rfl
          · exact hOwned.2 other hAround
      obtain ⟨hEnd, hLog⟩ := ih (fun inner hInner => h inner (List.mem_cons_of_mem _ hInner)) hStep
        hRest
      refine ⟨hEnd, fun entry hEntry => ?_⟩
      rcases List.mem_cons.1 hEntry with rfl | hLater
      · exact hOwned.1
      · exact hLog entry hLater

/-- What a program opens after its global scope. -/
theorem exists_openings (settings : Settings) (root : Node) :
    ∃ openings, Opens root openings ∧ Walker.program { settings } root =
      .emit (.enter .global root false) ::
        (openings ++ (Walker.descend { settings } root ++ [.emit (.leave root)])) := by
  refine ⟨(if settings.globalReturn then
      [.emit (.setStrict false), .emit (.enter .function root false)]
    else []) ++
    ((if settings.hasBlockScopes && settings.isModule then
      [.emit (.enter .esModule root false)]
    else []) ++
    (if settings.knowsStrict && settings.options.impliedStrict then
      [.emit (.setStrict true)]
    else [])), ?_, by simp only [Walker.program, List.cons_append, List.append_assoc]⟩
  intro task hTask
  rcases List.mem_append.1 hTask with hFunction | hTask
  · split at hFunction
    · rcases List.mem_cons.1 hFunction with rfl | hEnter
      · exact ⟨_, rfl, .inl trivial⟩
      · exact ⟨_, List.mem_singleton.1 hEnter, .inr ⟨.function, false, nofun, rfl⟩⟩
    · cases hFunction
  · rcases List.mem_append.1 hTask with hModule | hStrict
    · split at hModule
      · exact ⟨_, List.mem_singleton.1 hModule, .inr ⟨.esModule, false, nofun, rfl⟩⟩
      · cases hModule
    · split at hStrict
      · exact ⟨_, List.mem_singleton.1 hStrict, .inl trivial⟩
      · cases hStrict

/-- The walk of a program begins by opening its global scope, always has a
scope open after that, and ends with none. -/
theorem program_spec {root : Node}
    (hSignals : signals.map Numbered.event = programEvents settings root) :
    ∃ number rest, signals = ⟨number, .enter .global root false⟩ :: rest ∧
      Trail.steps settings [] signals = [] ∧
      ∀ entry ∈ Trail.log settings [Trail.opening settings [] number .global root false] rest,
        entry.1 ≠ [] := by
  obtain ⟨openings, hOpens, hProgram⟩ := exists_openings settings root
  rw [programEvents, hProgram] at hSignals
  obtain ⟨number, rest, rfl, hRest⟩ := exists_of_map_emit hSignals
  refine ⟨number, rest, rfl, ?_⟩
  rw [List.flatMap_append] at hRest
  obtain ⟨opened, inside, rfl, hOpened, hInside⟩ := List.map_eq_append_iff.1 hRest
  rw [List.flatMap_append] at hInside
  obtain ⟨visited, ending, rfl, hVisited, hEnding⟩ := List.map_eq_append_iff.1 hInside
  obtain ⟨last, rest, rfl, hNone⟩ := exists_of_map_emit hEnding
  rw [List.flatMap_nil, List.map_eq_nil_iff] at hNone
  subst hNone
  have hFirst : Trail.Owned root [Trail.opening settings [] number .global root false] :=
    ⟨List.cons_ne_nil _ _, fun frame hFrame => by rw [List.mem_singleton.1 hFrame]; rfl⟩
  obtain ⟨hOwned, hLogOpened⟩ := owned_of_opens hOpens hFirst hOpened
  obtain ⟨hSteps, hLogVisited⟩ := steps_of_neutral Walker.neutral_descend hOwned.clear hVisited
  constructor
  · change Trail.steps settings [Trail.opening settings [] number .global root false] _ = []
    rw [steps_append, steps_append, hSteps]
    exact hOwned.without_eq
  · intro entry hEntry
    rw [log_append, log_append, hSteps] at hEntry
    rcases List.mem_append.1 hEntry with hOpening | hEntry
    · exact hLogOpened entry hOpening
    · rcases List.mem_append.1 hEntry with hInner | hLast
      · exact fun hNil => hOwned.1 (List.suffix_nil.1 (hNil ▸ hLogVisited entry hInner))
      · rw [List.mem_singleton.1 hLast]
        exact hOwned.1

end Trail

end Scoping
