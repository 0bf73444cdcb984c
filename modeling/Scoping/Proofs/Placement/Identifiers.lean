import Scoping.Proofs.Chronicle.Program
import Scoping.Proofs.Placement.Visited
import Scoping.Proofs.Walk.UseSites

/-! Where the identifiers of uses stand: at the node whose work records the use, or
inside it. -/

namespace Scoping

namespace Pattern

/-- Each target of these is a node, or inside it. -/
def TargetsIn (node : Node) (targets : List Target) : Prop :=
  ∀ target ∈ targets, node.Holds target.identifier

/-- What is found inside a child is inside the node. -/
theorem TargetsIn.of_contains {node child : Node} {targets : List Target}
    (h : TargetsIn child targets) (hChild : node.Contains child) : TargetsIn node targets :=
  fun target hTarget => Node.Holds.trans (.inr hChild) (h target hTarget)

theorem targetsIn_concat {node : Node} {patterns : List (Except Failure Pattern)} {all : Pattern}
    (h : concat patterns = .ok all)
    (hEach : ∀ pattern, .ok pattern ∈ patterns → TargetsIn node pattern.targets) :
    TargetsIn node all.targets := by
  fun_induction concat patterns generalizing all with
  | case1 =>
      cases h
      exact fun _ hTarget => absurd hTarget List.not_mem_nil
  | case2 => cases h
  | case3 => cases h
  | case4 pattern rest others hRest ih =>
      cases h
      intro target hTarget
      rcases List.mem_append.1 hTarget with hFirst | hOther
      · exact hEach pattern List.mem_cons_self target hFirst
      · exact ih hRest (fun p hp => hEach p (List.mem_cons_of_mem _ hp)) target hOther

/-- A pattern finds its targets inside itself, by recursion over its parts. -/
theorem targetsIn_collect {keys : ChildKeys} {place : Place} {node : Node} {found : Pattern}
    (h : collect keys place node = .ok found) : TargetsIn node found.targets := by
  fun_induction collect keys place node generalizing found with
  | case1 place node =>
      cases h
      intro target hTarget
      rw [List.mem_singleton.1 hTarget]
      exact node.holds_self
  | case3 =>
      cases h
      exact fun _ hTarget => absurd hTarget List.not_mem_nil
  | case5 place node _ key value hValue hKey inner hInner ih =>
      cases h
      exact (ih hInner).of_contains (Node.contains_of_child? hValue)
  | case9 place node _ left hLeft inner right hRight hInner ih =>
      cases h
      change TargetsIn node (inner.targets ++ [])
      rw [List.append_nil]
      exact (ih hInner).of_contains (Node.contains_of_child? hLeft)
  | case11 place node _ argument hArgument ih =>
      exact (ih h).of_contains (Node.contains_of_child? hArgument)
  | case14 =>
      cases h
      exact fun _ hTarget => absurd hTarget List.not_mem_nil
  | case17 place node _ callee hCallee inner hInner ih =>
      cases h
      exact (ih hInner).of_contains (Node.contains_of_child? hCallee)
  | case18 place node _ ih =>
      refine targetsIn_concat h fun pattern hPattern => ?_
      obtain ⟨⟨child, hChild⟩, _, hCollect⟩ := List.mem_map.1 hPattern
      exact (ih child hChild hCollect).of_contains (ChildKeys.contains_of_mem_children hChild)
  | case2 | case4 | case6 | case7 | case8 | case10 | case12 | case13 | case15 | case16 => cases h

end Pattern

namespace Walker

variable {walker : Walker} {node child : Node} {name : String} {tasks : List Task}

/-- The uses among these tasks are of identifiers at a node, or inside it. -/
def UsesIn (node : Node) (tasks : List Task) : Prop :=
  ∀ use, .emit (.use use) ∈ tasks → node.Holds use.identifier

/-- What is used inside a child is used inside the node. -/
theorem UsesIn.of_contains (h : UsesIn child tasks) (hChild : node.Contains child) :
    UsesIn node tasks :=
  fun use hUse => Node.Holds.trans (.inr hChild) (h use hUse)

@[simp] theorem usesIn_nil : UsesIn node [] := by
  simp [UsesIn]

@[simp] theorem usesIn_append {first rest : List Task} :
    UsesIn node (first ++ rest) ↔ UsesIn node first ∧ UsesIn node rest := by
  simp only [UsesIn, List.mem_append, or_imp, forall_and]

@[simp] theorem usesIn_emit {event : Event} :
    UsesIn node (.emit event :: tasks) ↔
      (∀ use, event = .use use → node.Holds use.identifier) ∧ UsesIn node tasks := by
  simp only [UsesIn, List.mem_cons, Task.emit.injEq, or_imp, forall_and, eq_comm]

@[simp] theorem usesIn_visit {inner : Node} :
    UsesIn node (walker.visit inner :: tasks) ↔ UsesIn node tasks := by
  simp [UsesIn, visit]

theorem usesIn_flatMap {α : Type} {items : List α} {f : α → List Task}
    (h : ∀ item ∈ items, UsesIn node (f item)) : UsesIn node (items.flatMap f) := by
  intro use hUse
  obtain ⟨item, hItem, hMem⟩ := List.mem_flatMap.1 hUse
  exact h item hItem use hMem

/-- Work that visits and fails, but uses nothing. -/
theorem usesIn_of_isSimple (h : ∀ task ∈ tasks, task.IsSimple) : UsesIn node tasks :=
  fun _ hUse => (h _ hUse).elim

@[simp] theorem usesIn_map_visit {nodes : List Node} : UsesIn node (nodes.map walker.visit) := by
  simp [UsesIn]

theorem usesIn_required {next : Node → List Task}
    (h : ∀ inner, child.child? name = some inner → UsesIn node (next inner)) :
    UsesIn node (required child name next) := by
  intro use hUse
  rcases mem_required hUse with hSimple | ⟨inner, hInner, hMem⟩
  · exact hSimple.elim
  · exact h inner hInner use hMem

theorem usesIn_optional {next : Node → List Task}
    (h : ∀ inner, child.child? name = some inner → UsesIn node (next inner)) :
    UsesIn node (optional child name next) := by
  intro use hUse
  obtain ⟨inner, hInner, hMem⟩ := mem_optional hUse
  exact h inner hInner use hMem

@[simp] theorem usesIn_visitRequired : UsesIn node (walker.visitRequired child name) :=
  usesIn_of_isSimple fun _ => isSimple_of_mem_visitRequired

@[simp] theorem usesIn_visitOptional : UsesIn node (walker.visitOptional child name) :=
  usesIn_of_isSimple fun _ => isSimple_of_mem_visitOptional

/-- What is recorded for the targets of a pattern is recorded in the pattern. -/
theorem usesIn_targets {found : Pattern} {each : Target → List Event}
    (hFound : Pattern.TargetsIn node found.targets)
    (h : ∀ target use, .use use ∈ each target → use.identifier = target.identifier) :
    UsesIn node ((found.targets.flatMap each).map .emit) := by
  intro use hUse
  obtain ⟨event, hEvent, hEq⟩ := List.mem_map.1 hUse
  cases hEq
  obtain ⟨target, hTarget, hMem⟩ := List.mem_flatMap.1 hEvent
  rw [h target use hMem]
  exact hFound target hTarget

/-- The events for a target use its identifier, if anything, so they use what is in the
pattern. -/
theorem usesIn_bind {each : Target → List Event}
    (h : ∀ target use, .use use ∈ each target → use.identifier = target.identifier) :
    UsesIn node (walker.bind node each) := by
  unfold bind
  split
  · simp
  · next found hFound => exact usesIn_targets (Pattern.targetsIn_collect hFound) h

theorem usesIn_bindAndVisit {each : Target → List Event}
    (h : ∀ target use, .use use ∈ each target → use.identifier = target.identifier) :
    UsesIn node (walker.bindAndVisit node each) := by
  unfold bindAndVisit
  split
  · simp
  · next found hFound =>
      exact usesIn_append.2 ⟨usesIn_targets (Pattern.targetsIn_collect hFound) h, usesIn_map_visit⟩

/-- Each default value is written to the target that it is for. -/
theorem identifier_of_mem_writeDefaults {target : Target} {source : Option Node} {init : Bool}
    {use : Use} (h : .use use ∈ writeDefaults target source init) :
    use.identifier = target.identifier := by
  obtain ⟨assignment, -, hEq⟩ := List.mem_map.1 h
  cases hEq
  rfl

/-- A definition of a target, and its defaults. -/
theorem identifier_of_mem_define {target : Target} {define : Event} {source : Option Node}
    {init : Bool} {use : Use} (hDefine : define ≠ .use use)
    (h : .use use ∈ define :: writeDefaults target source init) :
    use.identifier = target.identifier :=
  identifier_of_mem_writeDefaults ((List.mem_cons.1 h).resolve_left hDefine.symm)

/-- The defaults of a target, and the write of the value. -/
theorem identifier_of_mem_write {target : Target} {source : Option Node} {init : Bool}
    {write use : Use} (hWrite : write.identifier = target.identifier)
    (h : .use use ∈ writeDefaults target source init ++ [.use write]) :
    use.identifier = target.identifier := by
  rcases List.mem_append.1 h with hDefault | hLast
  · exact identifier_of_mem_writeDefaults hDefault
  · cases List.mem_singleton.1 hLast
    exact hWrite

/-- What an assignment writes to stands on its left side. -/
theorem usesIn_assign {left : Node} : UsesIn left (walker.assign node left) := by
  unfold assign
  split
  · simp
  · split
    · exact usesIn_bindAndVisit fun target use => identifier_of_mem_write rfl
    · simp [left.holds_self]

/-- What a declarator brings is used in it, whether or not its declaration ends there. -/
theorem usesIn_declarator {declaration declarator : Node} {position : Nat} {ends : List Task}
    (hEnds : UsesIn declarator ends) :
    UsesIn declarator (walker.declareTargets declaration declarator position ++
      walker.visitOptional declarator "init" ++ ends) := by
  rw [usesIn_append, usesIn_append]
  refine ⟨⟨usesIn_required fun id hId => ?_, usesIn_visitOptional⟩, hEnds⟩
  refine (usesIn_bindAndVisit fun target use hUse => ?_).of_contains (Node.contains_of_child? hId)
  rcases List.mem_append.1 hUse with hDefine | hWrite
  · exact identifier_of_mem_define (by simp) hDefine
  · split at hWrite
    · cases hWrite
    · cases List.mem_singleton.1 hWrite
      rfl

/-- What a declaration writes to stands in its declarators. -/
theorem usesIn_declareVariables {declaration : Node} {inLoopHead : Bool} :
    UsesIn declaration (walker.declareVariables declaration inLoopHead) := by
  refine usesIn_flatMap fun (declarator, position) hMem => ?_
  refine (usesIn_declarator ?_).of_contains
    (Node.contains_of_mem_children (List.fst_mem_of_mem_zipIdx hMem))
  split <;> simp

/-- What a loop writes to stands in its head, on the left. -/
theorem usesIn_loopOver {left right : Node} : UsesIn left (walker.loopOver node left right) := by
  unfold loopOver
  split
  · have hEnds : UsesIn left
        ((left.children "declarations").map fun declarator => .emit (.endDeclaration declarator)) := by
      simp [UsesIn]
    simp only [usesIn_append, usesIn_visit, usesIn_declareVariables, hEnds, and_true]
    refine ⟨?_, ?_⟩
    · split <;> simp
    · split
      · exact usesIn_nil
      · next declarator hDeclarator =>
          refine usesIn_required fun id hId => ?_
          refine (usesIn_bind fun target use hUse => ?_).of_contains
            ((Node.contains_of_mem_children (List.mem_of_mem_head? hDeclarator)).trans
              (Node.contains_of_child? hId))
          cases List.mem_singleton.1 hUse
          rfl
  · rw [usesIn_append]
    exact ⟨usesIn_bindAndVisit fun target use => identifier_of_mem_write rfl, by simp⟩

theorem usesIn_defineParameters : UsesIn node (walker.defineParameters node) := by
  refine usesIn_flatMap fun (parameter, position) hMem => ?_
  refine (usesIn_bindAndVisit fun target use hUse => ?_).of_contains
    (Node.contains_of_mem_children (List.fst_mem_of_mem_zipIdx hMem))
  exact identifier_of_mem_define (by simp) hUse

theorem usesIn_catchError : UsesIn node (walker.catchError node) := by
  have hParameter : UsesIn node (optional node "param" fun parameter =>
      walker.bindAndVisit parameter fun target =>
        .define .current target.identifier { kind := .catchClause, name := parameter, node } ::
          writeDefaults target none true) := by
    refine usesIn_optional fun parameter hParameter => ?_
    refine (usesIn_bindAndVisit fun target use hUse => ?_).of_contains
      (Node.contains_of_child? hParameter)
    exact identifier_of_mem_define (by simp) hUse
  simp [catchError, hParameter]

/-- The work at a node records uses of the node itself, or of what is inside it. -/
theorem usesIn_tasks : UsesIn node (walker.tasks node) := by
  intro use hUse
  cases usedBy_of_mem_tasks hUse with
  | identifier _ eq => exact eq ▸ node.holds_self
  | update _ argument child _ eq => exact eq ▸ .inr (Node.contains_of_child? child)
  | assignment _ left child mem => exact usesIn_assign.of_contains (Node.contains_of_child? child) use mem
  | forEach _ left _ child _ mem =>
      exact usesIn_loopOver.of_contains (Node.contains_of_child? child) use mem
  | variableDeclaration _ mem => exact usesIn_declareVariables use mem
  | function _ mem => exact usesIn_defineParameters use mem
  | catchClause _ mem => exact usesIn_catchError use mem

end Walker

variable {settings : Settings} {node : Node} {use : Use}

/-- What the visit of a node uses is somewhere in it, however deep. -/
theorem holds_of_use_mem_events {inMethod : Bool}
    (h : .use use ∈ Task.events settings (.visit inMethod node)) : node.Holds use.identifier := by
  induction hSize : sizeOf node.entries using Nat.strongRecOn generalizing inMethod node with
  | ind size ih =>
      rw [Task.events_visit] at h
      obtain ⟨task, hTask, hMem⟩ := List.mem_flatMap.1 h
      cases task with
      | emit event =>
          rw [Task.events_emit, List.mem_singleton] at hMem
          exact Walker.usesIn_tasks use (hMem ▸ hTask)
      | visit inner child =>
          have hInside := Walker.contained_tasks.contains hTask
          exact Node.Holds.trans (.inr hInside) (ih _ (hSize ▸ hInside.sizeOf_lt) hMem rfl)

/-- What a program uses stands in it. -/
theorem holds_of_use_mem_programEvents (h : .use use ∈ programEvents settings node) :
    node.Holds use.identifier := by
  obtain ⟨task, hTask, hMem⟩ := List.mem_flatMap.1 h
  cases task with
  | emit event =>
      rw [Task.events_emit, List.mem_singleton] at hMem
      exact absurd (hMem ▸ hTask) Walker.use_not_mem_program
  | visit inner child =>
      obtain ⟨name, hChild⟩ := exists_of_visit_mem_program hTask
      exact Node.Holds.trans (.inr (Node.contains_of_mem_children hChild))
        (holds_of_use_mem_events hMem)

/-- The identifier of a reference stands in the program. -/
theorem SymbolTable.holds_identifier {tree : Tree} {table : SymbolTable} {id : ReferenceId}
    {reference : Reference} (hOk : analyze settings tree = .ok table)
    (hReference : table.references[id]? = some reference) :
    tree.root.Holds reference.identifier := by
  have hChronicle := chronicle_of_analyze_eq_ok hOk
  obtain ⟨entry, hEntry, rfl, frame, use, hRecords⟩ := hChronicle.recordings.known id reference hReference
  obtain ⟨found, hFound, hUse, -⟩ := hChronicle.recordings.recorded entry hEntry frame use hRecords
  cases hFound.symm.trans hReference
  have hMem : .use use ∈ programEvents settings tree.root := by
    rw [← map_event_numbered 0 0 (programEvents settings tree.root), ← hRecords.event]
    exact List.mem_map_of_mem (mem_of_mem_log hEntry)
  rw [hUse, Use.identifier_under]
  exact holds_of_use_mem_programEvents hMem

end Scoping
