import Scoping.Proofs.Placement.Definitions
import Scoping.Proofs.Walk.Bindings
import Scoping.Proofs.Walk.Openings

/-! The stretch of the work at a node in which its names take their values. The node
has opened its scopes before, and they stay open: all that gives a value to a name, and
all that binds such a name, finds the same scopes. -/

namespace Scoping

/-- An event that uses a name, or binds one that takes a value. -/
def Event.Values : Event → Prop
  | .define _ _ definition => definition.kind.takesValue = true
  | .use _ => True
  | _ => False

/-- An event that opens a scope of a node, or leaves the scopes as they are. It gives
no value to a name. -/
def Event.Begins (node : Node) (event : Event) : Prop :=
  (event.IsPlain ∧ ¬ event.Values) ∨ ∃ kind inMethod, event = .enter kind node inMethod

/-- Work at a node that first opens scopes of the node, and leaves them as they are in
a stretch to which all belongs that gives values to names. -/
structure Stretch (node : Node) (tasks : List Task) (openings : List Event) (inside rest : List Task) :
    Prop where
  split : tasks = openings.map .emit ++ (inside ++ rest)
  opens : ∀ event ∈ openings, event.Begins node
  neutral : Walker.Neutral node inside
  rest : ∀ event, .emit event ∈ rest → ¬ event.Values

variable {settings : Settings} {root node : Node} {past begun : List Event} {event : Event}
  {inMethod : Bool} {tasks before after inside rest : List Task} {openings : List Event}

theorem Task.IsSimple.not_values (h : (Task.emit event).IsSimple) : ¬ event.Values := by
  cases event with
  | use | define => exact h.elim
  | _ => exact id

/-- Neutral work is a stretch by itself. -/
theorem stretch_of_neutral (h : Walker.Neutral node tasks) : Stretch node tasks [] tasks [] where
  split := (List.append_nil tasks).symm
  opens := fun _ hEvent => nomatch hEvent
  neutral := h
  rest := fun _ hEvent => nomatch hEvent

namespace Walker

variable (walker : Walker)

/-- A loop over values opens a scope for what a declaration in its head binds, unless that
is by a `var`. -/
theorem exists_stretch_loop {left right : Node} (hRole : Role.ofKind node.kind = .forEach)
    (hLeft : node.child? "left" = some left) (hRight : node.child? "right" = some right) :
    ∃ inside rest, Stretch node (walker.tasks node)
      (if isLexicalDeclaration left then [.enter .forHead node false] else []) inside rest := by
  obtain ⟨inside, hInside, hEq⟩ := exists_loopOver_eq walker
    (Node.contains_of_child? hLeft) (Node.contains_of_child? hRight)
  refine ⟨inside ++ walker.visitRequired node "body", [.emit (.leave node)], ?_, ?_,
    neutral_append.2 ⟨hInside, neutral_visitRequired⟩, ?_⟩
  · rw [tasks_forEach hRole hLeft hRight, hEq, apply_ite (List.map Task.emit)]
    simp only [List.append_assoc]
    rfl
  · intro event hEvent
    split at hEvent
    · exact .inr ⟨_, _, List.mem_singleton.1 hEvent⟩
    · cases hEvent
  · intro event hEvent
    cases List.mem_singleton.1 hEvent
    exact id

theorem exists_stretch_forEach (hRole : Role.ofKind node.kind = .forEach) :
    ∃ openings inside rest, Stretch node (walker.tasks node) openings inside rest := by
  have hFails : ∀ name, Neutral node [.emit (.fail (.missingField node.kind name))] := fun name =>
    neutral_emit.2 ⟨⟨_, _, rfl⟩, neutral_nil⟩
  cases hLeft : node.child? "left" with
  | none =>
      unfold tasks required
      rw [hRole, hLeft]
      exact ⟨_, _, _, stretch_of_neutral (hFails _)⟩
  | some left =>
      cases hRight : node.child? "right" with
      | none =>
          rw [tasks_forEach_of_none hRole hLeft hRight]
          exact ⟨_, _, _, stretch_of_neutral (hFails _)⟩
      | some right => exact ⟨_, exists_stretch_loop walker hRole hLeft hRight⟩

/-- A function opens its own scope last, and its parameters are defined there. -/
theorem exists_stretch_function (hRole : Role.ofKind node.kind = .function) :
    ∃ first rest, Stretch node (walker.tasks node) (first ++ [.enter .function node walker.inMethod])
      (walker.defineParameters node) rest := by
  refine ⟨(if node.kind = "FunctionDeclaration" then
      (node.child? "id").toList.map fun name =>
        .define .functionDeclaration name { kind := .functionName, name, node }
    else []) ++
      (if node.kind = "FunctionExpression" && (node.child? "id").isSome then
        [.enter .functionName node false]
      else []),
    .emit .bodyStart :: walker.visitRequired node "body" ++ [.emit (.leave node)], ?_, ?_,
    neutral_defineParameters, ?_⟩
  · unfold tasks defineFunction optional
    rw [hRole]
    simp only [List.map_append, List.append_assoc, apply_ite (List.map Task.emit), List.map_nil,
      List.cons_append]
    cases node.child? "id" <;> rfl
  · intro event hEvent
    simp only [List.mem_append, List.mem_singleton] at hEvent
    rcases hEvent with (hName | hName) | rfl
    · split at hName
      · obtain ⟨name, -, rfl⟩ := List.mem_map.1 hName
        exact .inl ⟨trivial, nofun⟩
      · cases hName
    · split at hName
      · exact .inr ⟨_, _, List.mem_singleton.1 hName⟩
      · cases hName
    · exact .inr ⟨_, _, rfl⟩
  · intro event hEvent
    simp only [List.mem_append, List.mem_cons, List.not_mem_nil, or_false, Task.emit.injEq] at hEvent
    rcases hEvent with (rfl | hBody) | rfl
    · exact id
    · exact (isSimple_of_mem_visitRequired hBody).not_values
    · exact id

theorem exists_stretch_catchClause (hRole : Role.ofKind node.kind = .catchClause) :
    ∃ inside rest, Stretch node (walker.tasks node) [.enter .catchClause node false] inside rest := by
  refine ⟨_, walker.visitRequired node "body" ++ [.emit (.leave node)],
    ?_, ?_, @neutral_catchParameter walker node, ?_⟩
  · unfold tasks catchError
    rw [hRole]
    simp only [List.append_assoc, List.cons_append, List.map_cons, List.map_nil, List.nil_append]
  · intro event hEvent
    exact .inr ⟨_, _, List.mem_singleton.1 hEvent⟩
  · intro event hEvent
    simp only [List.mem_append, List.mem_singleton, Task.emit.injEq] at hEvent
    rcases hEvent with hBody | rfl
    · exact (isSimple_of_mem_visitRequired hBody).not_values
    · exact id

/-- The nodes that give values to names, by their roles. -/
theorem exists_stretch (hRole : Role.ofKind node.kind ∈
      [Role.assignment, .forEach, .variableDeclaration, .function, .catchClause]) :
    ∃ openings inside rest, Stretch node (walker.tasks node) openings inside rest := by
  simp only [List.mem_cons, List.not_mem_nil, or_false] at hRole
  rcases hRole with hRole | hRole | hRole | hRole | hRole
  · exact ⟨_, _, _, stretch_of_neutral (neutral_tasks (hRole ▸ rfl))⟩
  · exact exists_stretch_forEach walker hRole
  · exact ⟨_, _, _, stretch_of_neutral (neutral_tasks (hRole ▸ rfl))⟩
  · obtain ⟨_, _, hStretch⟩ := exists_stretch_function walker hRole
    exact ⟨_, _, _, hStretch⟩
  · exact ⟨_, exists_stretch_catchClause walker hRole⟩

end Walker

/-- As a node opens its scopes, none of a node inside it is open. -/
theorem Trail.clear_steps {trail : Trail} (h : trail.Clear node) {signals : List Numbered}
    (hOpens : ∀ event ∈ signals.map Numbered.event, event.Begins node) :
    (trail.steps settings signals).Clear node := by
  induction signals generalizing trail with
  | nil => exact h
  | cons signal signals ih =>
      rw [List.map_cons, List.forall_mem_cons] at hOpens
      refine ih ?_ hOpens.2
      rcases hOpens.1 with ⟨hPlain, -⟩ | ⟨kind, inMethod, hEnter⟩
      · rwa [Trail.step_of_isPlain hPlain]
      · unfold Trail.step
        rw [hEnter]
        exact h.cons rfl

/-- The scopes that are open in the stretch. -/
theorem Occurs.after_eq (h : Occurs settings root past event begun inMethod node before after)
    (hStretch : Stretch node (Walker.tasks { settings, inMethod } node) openings inside rest)
    (hValues : event.Values) :
    Trail.after settings past = Trail.after settings (begun ++ openings) := by
  obtain ⟨future, hVisit⟩ := h.visit
  have hClear : (Trail.after settings (begun ++ openings)).Clear node := by
    rw [Trail.after_append]
    refine Trail.clear_steps ((tracks_stands settings root).visit hVisit).1 ?_
    rw [map_event_numbered]
    exact hStretch.opens
  have hBefore : .emit event ∉ openings.map Task.emit := fun hMem => by
    obtain ⟨same, hSame, hEq⟩ := List.mem_map.1 hMem
    cases hEq
    rcases hStretch.opens event hSame with ⟨-, hNot⟩ | ⟨kind, flag, rfl⟩
    · exact hNot hValues
    · exact hValues
  obtain ⟨ahead, behind, rfl, rfl⟩ := exists_of_append_eq (hStretch.split.symm.trans h.split) hBefore
    fun hMem => hStretch.rest event hMem hValues
  rw [h.past, List.flatMap_append, flatMap_events_emit, ← List.append_assoc]
  exact Trail.after_append_of_neutral (fun task hTask => hStretch.neutral task
    (List.mem_append_left _ hTask)) hClear

/-- All that gives values to names in the work at a node finds the same scopes. -/
theorem Occurs.after_eq_after {later : List Event} {found : Event} {first last : List Task}
    (h : Occurs settings root past event begun inMethod node before after)
    (hOther : Occurs settings root later found begun inMethod node first last)
    (hRole : Role.ofKind node.kind ∈
      [Role.assignment, .forEach, .variableDeclaration, .function, .catchClause])
    (hValues : event.Values) (hAlso : found.Values) :
    Trail.after settings past = Trail.after settings later := by
  obtain ⟨openings, inside, rest, hStretch⟩ := Walker.exists_stretch { settings, inMethod } hRole
  exact (h.after_eq hStretch hValues).trans (hOther.after_eq hStretch hAlso).symm

end Scoping
