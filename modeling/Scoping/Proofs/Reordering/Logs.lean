import Scoping.Proofs.Reordering.Shuffling
import Scoping.Proofs.Walk.Trail

/-! The log of a walk of a rearranged document. It has the same entries, with
the same scopes open at each, but for their order. -/

namespace Scoping.Rearrangement

def frame (r : Rearrangement) (frame : Frame) : Frame :=
  { frame with block := r.node frame.block }

def trail (r : Rearrangement) (trail : Trail) : Trail :=
  trail.map r.frame

def signal (r : Rearrangement) (signal : Numbered) : Numbered :=
  ⟨signal.number, r.event signal.event⟩

def entry (r : Rearrangement) (entry : Trail × Numbered) : Trail × Numbered :=
  (r.trail entry.1, r.signal entry.2)

variable {r : Rearrangement} {settings : Settings} {trail : Trail} {node inner : Node}

theorem hasExpressionBody_node :
    SymbolTable.hasExpressionBody (r.node node) = SymbolTable.hasExpressionBody node := by
  unfold SymbolTable.hasExpressionBody Node.child
  rw [kind_node, child?_node]
  cases node.child? "body" <;> rfl

theorem strictByDirective_node (hSuits : r.SuitsAll node) (kind : ScopeKind) :
    SymbolTable.strictByDirective kind (r.node node) = SymbolTable.strictByDirective kind node := by
  unfold SymbolTable.strictByDirective
  rw [hasExpressionBody_node, kind_node, child?_node, saysStrict_node hSuits.self]
  cases hBody : node.child? "body" with
  | none => rfl
  | some body =>
      rw [Option.map_some]
      dsimp only
      rw [saysStrict_node (hSuits.of_contains (Node.contains_of_child? hBody)).self]

theorem opensStrict_trail (hSuits : r.SuitsAll node) (kind : ScopeKind) (inMethod : Bool) :
    (r.trail trail).opensStrict settings kind (r.node node) inMethod =
      trail.opensStrict settings kind node inMethod := by
  have hHead : (r.trail trail).head?.any Frame.strict = trail.head?.any Frame.strict := by
    cases trail <;> rfl
  rw [Trail.opensStrict, Trail.opensStrict, hHead, strictByDirective_node hSuits]

theorem opening_trail (hSuits : r.SuitsAll node) (number : Nat) (kind : ScopeKind)
    (inMethod : Bool) :
    (r.trail trail).opening settings number kind (r.node node) inMethod =
      r.frame (trail.opening settings number kind node inMethod) := by
  unfold Trail.opening frame
  rw [opensStrict_trail hSuits]
  cases trail <;> rfl

theorem without_trail : (r.trail trail).without (r.node node) = r.trail (trail.without node) := by
  unfold Rearrangement.trail Trail.without
  rw [List.dropWhile_map]
  congr 2
  funext frame
  exact beq_node

/-- What is done at an event is done at what the event has become. -/
theorem step_signal {signal : Numbered}
    (h : ∀ kind block inMethod, signal.event = .enter kind block inMethod → r.SuitsAll block) :
    (r.trail trail).step settings (r.signal signal) = r.trail (trail.step settings signal) := by
  obtain ⟨number, event⟩ := signal
  cases event with
  | enter kind block inMethod =>
      exact congrArg (· :: r.trail trail) (opening_trail (h kind block inMethod rfl) _ _ _)
  | leave block => exact without_trail
  | setStrict | bodyStart => cases trail <;> rfl
  | define | use | directEval | thisExpression | endDeclaration | fail => rfl

/-- Two walks that go through the same entries, but for their order. -/
structure Matches (r : Rearrangement) (settings : Settings) (trail : Trail)
    (signals moved : List Numbered) : Prop where
  steps : (r.trail trail).steps settings moved = r.trail (trail.steps settings signals)
  log : ((trail.log settings signals).map r.entry).Perm ((r.trail trail).log settings moved)

variable {signals moved first second : List Numbered}

theorem matches_nil : r.Matches settings trail [] [] :=
  ⟨rfl, .refl _⟩

theorem Matches.cons {signal : Numbered}
    (h : r.Matches settings (trail.step settings signal) signals moved)
    (hSuits : ∀ kind block inMethod, signal.event = .enter kind block inMethod →
      r.SuitsAll block) :
    r.Matches settings trail (signal :: signals) (r.signal signal :: moved) := by
  obtain ⟨hSteps, hLog⟩ := h
  rw [← step_signal hSuits] at hSteps hLog
  exact ⟨hSteps, hLog.cons _⟩

theorem Matches.append (hFirst : r.Matches settings trail first second)
    (hRest : r.Matches settings (trail.steps settings first) signals moved) :
    r.Matches settings trail (first ++ signals) (second ++ moved) where
  steps := by rw [Trail.steps_append, Trail.steps_append, hFirst.steps, hRest.steps]
  log := by
    rw [Trail.log_append, Trail.log_append, List.map_append, hFirst.steps]
    exact hFirst.log.append hRest.log

theorem drop_location (location : Location) (depth : Nat) :
    (r.location location).drop depth = r.location (location.drop depth) := by
  induction location generalizing depth with
  | nil => simp [Rearrangement.location]
  | cons step around ih =>
      cases depth with
      | zero => rfl
      | succ depth => cases step <;> exact ih depth

/-- What stands below a node stands below what the node has become. -/
theorem clear_trail (h : trail.Clear node) : (r.trail trail).Clear (r.node node) := by
  intro frame hFrame steps hSteps hEq
  obtain ⟨before, hBefore, rfl⟩ := List.mem_map.1 hFrame
  have hDrop := congrArg (List.drop steps.length) hEq
  rw [List.drop_left] at hDrop
  have hBelow : before.block.location.drop steps.length = node.location :=
    r.location_injective ((drop_location _ _).symm.trans hDrop)
  have hSplit := List.take_append_drop steps.length before.block.location
  rw [hBelow] at hSplit
  refine h before hBefore _ (fun hNil => ?_) hSplit.symm
  rw [hNil, List.nil_append] at hSplit
  have hLength := congrArg List.length hEq
  have hSame : (r.frame before).block.location = (r.node node).location :=
    congrArg r.location hSplit.symm
  rw [hSame, List.length_append] at hLength
  exact hSteps (List.length_eq_zero_iff.1 (by omega))

theorem contains_node (hSuits : r.SuitsAll node) (h : node.Contains inner) :
    (r.node node).Contains (r.node inner) := by
  have hChild : ∀ {parent child : Node}, r.Suits parent → parent.HasChild child →
      (r.node parent).HasChild (r.node child) := by
    rintro parent child hParent ⟨name, hMem⟩
    exact ⟨name, (children_node hParent).subset (List.mem_map_of_mem hMem)⟩
  induction h with
  | single hParent => exact .single (hChild hSuits.self hParent)
  | tail hAbove hParent ih => exact .tail ih (hChild (hSuits.of_contains hAbove).self hParent)

theorem isNeutral_task (hSuits : r.SuitsAll node) {task : Task} (h : task.IsNeutral node) :
    (r.task task).IsNeutral (r.node node) := by
  cases task with
  | visit inMethod inner => exact contains_node hSuits h
  | emit event => cases event <;> exact h

/-- Neutral work in another order has the same entries. -/
theorem exists_of_perm {tasks others : List Task} (hPerm : tasks.Perm others)
    (hNeutral : Walker.Neutral node tasks)
    (hSignals : signals.map Numbered.event = tasks.flatMap (Task.events settings)) :
    ∃ moved : List Numbered, moved.map Numbered.event = others.flatMap (Task.events settings) ∧
      ∀ trail : Trail, trail.Clear node →
        (trail.log settings signals).Perm (trail.log settings moved) := by
  -- Neutral work leaves the scopes alone, so each piece has the same log wherever it comes.
  induction hPerm generalizing signals with
  | nil => exact ⟨signals, hSignals, fun _ _ => .refl _⟩
  | @cons task tasks others _ ih =>
      rw [List.flatMap_cons] at hSignals
      obtain ⟨first, rest, rfl, hFirst, hRest⟩ := List.map_eq_append_iff.1 hSignals
      obtain ⟨moved, hMoved, hLog⟩ := ih (fun inner hInner =>
        hNeutral inner (List.mem_cons_of_mem _ hInner)) hRest
      refine ⟨first ++ moved, by rw [List.map_append, hFirst, hMoved, List.flatMap_cons],
        fun trail hClear => ?_⟩
      obtain ⟨hSteps, -⟩ := hClear.steps_of_isNeutral (hNeutral task List.mem_cons_self) hFirst
      rw [Trail.log_append, Trail.log_append, hSteps]
      exact (hLog trail hClear).append_left _
  | swap task other tasks =>
      simp only [List.flatMap_cons] at hSignals
      obtain ⟨first, later, rfl, hFirst, hLater⟩ := List.map_eq_append_iff.1 hSignals
      obtain ⟨second, rest, rfl, hSecond, hRest⟩ := List.map_eq_append_iff.1 hLater
      refine ⟨second ++ (first ++ rest), by
        simp only [List.map_append, hFirst, hSecond, hRest, List.flatMap_cons],
        fun trail hClear => ?_⟩
      obtain ⟨hOther, -⟩ := hClear.steps_of_isNeutral (hNeutral other List.mem_cons_self) hFirst
      obtain ⟨hTask, -⟩ := hClear.steps_of_isNeutral
        (hNeutral task (List.mem_cons_of_mem _ List.mem_cons_self)) hSecond
      simp only [Trail.log_append, hOther, hTask]
      rw [← List.append_assoc, ← List.append_assoc]
      exact List.perm_append_comm.append_right _
  | trans hFirst hSecond ihFirst ihSecond =>
      obtain ⟨middle, hMiddle, hLog⟩ := ihFirst hNeutral hSignals
      obtain ⟨moved, hMoved, hNext⟩ :=
        ihSecond (fun inner hInner => hNeutral inner (hFirst.mem_iff.2 hInner)) hMiddle
      exact ⟨moved, hMoved, fun trail hClear => (hLog trail hClear).trans (hNext trail hClear)⟩

/-- Events of a walk that goes through. -/
def Unfailing (events : List Event) : Prop :=
  ∀ failure, .fail failure ∉ events

/-- Walks at a node and at what it has become. However the events of the one are
numbered, those of the other can be so that the entries are the same. -/
def Follows (r : Rearrangement) (settings : Settings) (node : Node)
    (before after : List Event) : Prop :=
  ∀ signals : List Numbered, signals.map Numbered.event = before →
    ∃ moved : List Numbered, moved.map Numbered.event = after ∧
      ∀ trail : Trail, trail.Clear node → r.Matches settings trail signals moved

theorem unfailing_append {before after : List Event} :
    Unfailing (before ++ after) ↔ Unfailing before ∧ Unfailing after := by
  simp only [Unfailing, List.mem_append, not_or, forall_and]

theorem sound_of_unfailing {tasks : List Task}
    (h : Unfailing (tasks.flatMap (Task.events settings))) : Sound tasks := by
  intro failure hMem
  refine h failure (List.mem_flatMap.2 ⟨_, hMem, ?_⟩)
  rw [Task.events_emit]
  exact List.mem_singleton_self _

/-- The visits inside a node follow those inside what it has become. -/
def InnerFollow (r : Rearrangement) (settings : Settings) (node : Node) : Prop :=
  ∀ inMethod inner, node.Contains inner →
    Unfailing (Task.events settings (.visit inMethod inner)) →
      r.Follows settings inner (Task.events settings (.visit inMethod inner))
        (Task.events settings (.visit inMethod (r.node inner)))

theorem exists_of_task {task : Task} (hInner : r.InnerFollow settings node)
    (hNeutral : task.IsNeutral node) (hUnfailing : Unfailing (task.events settings))
    (hSignals : signals.map Numbered.event = task.events settings) :
    ∃ moved : List Numbered, moved.map Numbered.event = (r.task task).events settings ∧
      ∀ trail : Trail, trail.Clear node → r.Matches settings trail signals moved := by
  cases task with
  | emit event =>
      rw [Task.events_emit] at hSignals
      obtain ⟨signal, rfl, rfl⟩ := List.map_eq_singleton_iff.1 hSignals
      refine ⟨[r.signal signal], (Task.events_emit _ _).symm, fun trail _ =>
        matches_nil.cons fun kind block inMethod hEnter => ?_⟩
      have hPlain : signal.event.IsPlain := hNeutral
      rw [hEnter] at hPlain
      exact hPlain.elim
  | visit inMethod inner =>
      obtain ⟨moved, hMoved, hMatches⟩ := hInner inMethod inner hNeutral hUnfailing signals hSignals
      exact ⟨moved, hMoved, fun trail hClear => hMatches trail (hClear.of_contains hNeutral).1⟩

/-- Neutral work at what a node has become, in the order that it had. -/
theorem exists_of_neutral_map {tasks : List Task} (hInner : r.InnerFollow settings node)
    (hNeutral : Walker.Neutral node tasks)
    (hUnfailing : Unfailing (tasks.flatMap (Task.events settings)))
    (hSignals : signals.map Numbered.event = tasks.flatMap (Task.events settings)) :
    ∃ moved : List Numbered,
      moved.map Numbered.event = (tasks.map r.task).flatMap (Task.events settings) ∧
        ∀ trail : Trail, trail.Clear node →
          r.Matches settings trail signals moved ∧ trail.steps settings signals = trail := by
  induction tasks generalizing signals with
  | nil =>
      rw [List.flatMap_nil, List.map_eq_nil_iff] at hSignals
      subst hSignals
      exact ⟨[], rfl, fun _ _ => ⟨matches_nil, rfl⟩⟩
  | cons task tasks ih =>
      rw [List.flatMap_cons] at hSignals hUnfailing
      obtain ⟨first, rest, rfl, hFirst, hRest⟩ := List.map_eq_append_iff.1 hSignals
      obtain ⟨hTask, hTasks⟩ := unfailing_append.1 hUnfailing
      have hHere := hNeutral task List.mem_cons_self
      obtain ⟨one, hEvents, hOne⟩ := exists_of_task hInner hHere hTask hFirst
      obtain ⟨moved, hMoved, hMatches⟩ := ih (fun other hOther =>
        hNeutral other (List.mem_cons_of_mem _ hOther)) hTasks hRest
      refine ⟨one ++ moved, by rw [List.map_append, hEvents, hMoved, List.map_cons,
        List.flatMap_cons], fun trail hClear => ?_⟩
      obtain ⟨hSteps, -⟩ := hClear.steps_of_isNeutral hHere hFirst
      obtain ⟨hNext, hEnd⟩ := hMatches trail hClear
      refine ⟨(hOne trail hClear).append (by rw [hSteps]; exact hNext), ?_⟩
      rw [Trail.steps_append, hSteps, hEnd]

/-- Neutral work at what a node has become, first as it was, then as it comes. -/
theorem exists_of_neutral {tasks others : List Task} (hSuits : r.SuitsAll node)
    (hInner : r.InnerFollow settings node)
    (hNeutral : Walker.Neutral node tasks) (hPerm : (tasks.map r.task).Perm others)
    (hUnfailing : Unfailing (tasks.flatMap (Task.events settings)))
    (hSignals : signals.map Numbered.event = tasks.flatMap (Task.events settings)) :
    ∃ moved : List Numbered, moved.map Numbered.event = others.flatMap (Task.events settings) ∧
      ∀ trail : Trail, trail.Clear node →
        r.Matches settings trail signals moved ∧ trail.steps settings signals = trail := by
  obtain ⟨same, hEvents, hMatches⟩ := exists_of_neutral_map hInner hNeutral hUnfailing hSignals
  have hMoves : Walker.Neutral (r.node node) (tasks.map r.task) := fun task hTask => by
    obtain ⟨before, hBefore, rfl⟩ := List.mem_map.1 hTask
    exact isNeutral_task hSuits (hNeutral before hBefore)
  obtain ⟨moved, hMoved, hLog⟩ := exists_of_perm hPerm hMoves hEvents
  refine ⟨moved, hMoved, fun trail hClear => ?_⟩
  obtain ⟨⟨-, hEntries⟩, hEnd⟩ := hMatches trail hClear
  refine ⟨⟨?_, hEntries.trans (hLog _ (clear_trail hClear))⟩, hEnd⟩
  have hOthers : Walker.Neutral (r.node node) others := fun task hTask =>
    hMoves task (hPerm.mem_iff.2 hTask)
  rw [hEnd]
  exact (Trail.steps_of_neutral hOthers (clear_trail hClear) hMoved).1

/-- Work at a node and work at what it has become, with the same entries. As in `Follows`,
the numbers of the one are free; the flag is that of `Contained`. -/
def Tallies (r : Rearrangement) (settings : Settings) (node : Node) (own : Bool)
    (before after : List Task) : Prop :=
  Unfailing (before.flatMap (Task.events settings)) →
    ∀ signals : List Numbered, signals.map Numbered.event = before.flatMap (Task.events settings) →
      ∃ moved : List Numbered, moved.map Numbered.event = after.flatMap (Task.events settings) ∧
        ∀ trail : Trail, trail.Ready node own → r.Matches settings trail signals moved

section Tallies

variable {own : Bool} {before after : List Task}

theorem tallies_nil : r.Tallies settings node own [] [] := by
  intro _ signals hSignals
  rw [List.flatMap_nil, List.map_eq_nil_iff] at hSignals
  subst hSignals
  exact ⟨[], rfl, fun _ _ => matches_nil⟩

theorem Tallies.preceded {tasks others : List Task} (h : r.Tallies settings node own before after)
    (hSuits : r.SuitsAll node) (hInner : r.InnerFollow settings node)
    (hNeutral : Walker.Neutral node tasks) (hPerm : (tasks.map r.task).Perm others) :
    r.Tallies settings node own (tasks ++ before) (others ++ after) := by
  intro hUnfailing signals hSignals
  rw [List.flatMap_append] at hSignals hUnfailing
  obtain ⟨first, rest, rfl, hFirst, hRest⟩ := List.map_eq_append_iff.1 hSignals
  obtain ⟨hHere, hLater⟩ := unfailing_append.1 hUnfailing
  obtain ⟨one, hOne, hMatches⟩ := exists_of_neutral hSuits hInner hNeutral hPerm hHere hFirst
  obtain ⟨moved, hMoved, hNext⟩ := h hLater rest hRest
  refine ⟨one ++ moved, by rw [List.map_append, hOne, hMoved, List.flatMap_append],
    fun trail hReady => ?_⟩
  obtain ⟨hFirst, hEnd⟩ := hMatches trail hReady.clear
  exact hFirst.append (by rw [hEnd]; exact hNext trail hReady)

/-- One event, and the work that follows it in the scopes that the event leaves. -/
theorem Tallies.emit {event : Event} {later : Bool} (h : r.Tallies settings node later before after)
    (hReady : ∀ (trail : Trail) (number : Nat), trail.Ready node own →
      (trail.step settings ⟨number, event⟩).Ready node later)
    (hSuits : ∀ kind block inMethod, event = .enter kind block inMethod → r.SuitsAll block) :
    r.Tallies settings node own (.emit event :: before) (.emit (r.event event) :: after) := by
  intro hUnfailing signals hSignals
  obtain ⟨number, rest, rfl, hRest⟩ := Trail.exists_of_map_emit hSignals
  rw [List.flatMap_cons, unfailing_append] at hUnfailing
  obtain ⟨moved, hMoved, hNext⟩ := h hUnfailing.2 rest hRest
  refine ⟨r.signal ⟨number, event⟩ :: moved, ?_, fun trail hHere =>
    (hNext _ (hReady trail number hHere)).cons hSuits⟩
  rw [List.map_cons, hMoved, List.flatMap_cons, Task.events_emit]
  rfl

/-- The value of a field, in a scope of its own. Its visit may close that scope before the end of
the field does, so that only the three tasks together are known to go back. -/
theorem Tallies.field {value : Node} {inMethod : Bool} (h : r.Tallies settings node own before after)
    (hSuits : r.SuitsAll value) (hInner : r.InnerFollow settings node) (hValue : node.Contains value) :
    r.Tallies settings node own
      (.emit (.enter .fieldInitializer value true) :: .visit inMethod value ::
        .emit (.leave value) :: before)
      (.emit (.enter .fieldInitializer (r.node value) true) :: .visit inMethod (r.node value) ::
        .emit (.leave (r.node value)) :: after) := by
  intro hUnfailing signals hSignals
  obtain ⟨number, inside, rfl, hInside⟩ := Trail.exists_of_map_emit hSignals
  obtain ⟨visited, ending, rfl, hVisited, hEnding⟩ := Trail.exists_of_map_visit hInside
  obtain ⟨last, rest, rfl, hRest⟩ := Trail.exists_of_map_emit hEnding
  simp only [List.flatMap_cons, unfailing_append] at hUnfailing
  obtain ⟨-, hHere, -, hLater⟩ := hUnfailing
  obtain ⟨one, hOne, hMatches⟩ := hInner inMethod value hValue hHere visited hVisited
  obtain ⟨moved, hMoved, hNext⟩ := h hLater rest hRest
  refine ⟨r.signal ⟨number, .enter .fieldInitializer value true⟩ ::
    (one ++ r.signal ⟨last, .leave value⟩ :: moved), ?_, fun trail hReady => ?_⟩
  · simp only [List.map_cons, List.map_append, hOne, hMoved, List.flatMap_cons, Task.events_emit]
    rfl
  · have hClear : (trail.step settings ⟨number, .enter .fieldInitializer value true⟩).Clear value :=
      (hReady.clear.of_contains hValue).1.cons rfl
    have hAfter := hNext trail hReady
    rw [← hReady.clear.steps_of_field hValue number last hVisited] at hAfter
    refine Matches.cons ((hMatches _ hClear).append (hAfter.cons nofun)) ?_
    rintro _ _ _ ⟨⟩
    exact hSuits

end Tallies

/-- Shuffled work has the same entries, if the visits in it do. -/
theorem tallies_of_shuffled {own : Bool} {before after : List Task} (hSuits : r.SuitsAll node)
    (hInner : r.InnerFollow settings node) (hShuffled : Shuffled r node own before after) :
    r.Tallies settings node own before after := by
  induction hShuffled with
  | nil => exact tallies_nil
  | neutral hNeutral hPerm _ ih => exact ih.preceded hSuits hInner hNeutral hPerm
  | @mark event before after hMarks _ ih =>
      have hSame : r.event event = event := by
        cases event <;> first | rfl | exact hMarks.elim
      have hEmit := ih.emit (fun trail number hReady => (hReady.mark settings hMarks number).1) ?_
      · rwa [hSame] at hEmit
      · rintro kind block inMethod rfl
        exact hMarks.elim
  | enter _ ih =>
      refine ih.emit (fun trail number hReady => hReady.enter number _ _) ?_
      rintro _ _ _ ⟨⟩
      exact hSuits
  | leave _ ih => exact ih.emit (fun trail number hReady => hReady.leave number) nofun
  | field hValue _ ih => exact ih.field (hSuits.of_contains hValue) hInner hValue

/-- A visit of a node and one of what it has become go through the same entries. -/
theorem follows_visit (inMethod : Bool) (hSuits : r.SuitsAll node)
    (hUnfailing : Unfailing (Task.events settings (.visit inMethod node))) :
    r.Follows settings node (Task.events settings (.visit inMethod node))
      (Task.events settings (.visit inMethod (r.node node))) := by
  induction hSize : sizeOf node.entries using Nat.strongRecOn generalizing inMethod node with
  | ind size ih =>
      intro signals hSignals
      rw [Task.events_visit] at hSignals hUnfailing
      have hTallies := tallies_of_shuffled hSuits
        (fun inMethod inner hInner hHere => ih _ (hSize ▸ hInner.sizeOf_lt) inMethod
          (hSuits.of_contains hInner) hHere rfl)
        (shuffles_tasks hSuits (sound_of_unfailing hUnfailing))
      obtain ⟨moved, hMoved, hMatches⟩ := hTallies hUnfailing signals hSignals
      exact ⟨moved, by rw [hMoved, Task.events_visit], fun trail hClear =>
        hMatches trail hClear.ready⟩

/-- The walk of a rearranged program goes through the entries of that before. -/
theorem follows_program {root : Node} (hSuits : r.SuitsAll root)
    (hUnfailing : Unfailing (programEvents settings root)) :
    r.Follows settings root (programEvents settings root)
      (programEvents settings (r.node root)) := by
  intro signals hSignals
  have hInner : r.InnerFollow settings root := fun inMethod inner hInside hHere =>
    follows_visit inMethod (hSuits.of_contains hInside) hHere
  obtain ⟨moved, hMoved, hMatches⟩ := tallies_of_shuffled hSuits hInner
    (shuffles_program hSuits (sound_of_unfailing hUnfailing)) hUnfailing signals hSignals
  exact ⟨moved, hMoved, fun trail hClear => hMatches trail hClear.ready⟩

end Scoping.Rearrangement
