import Mathlib.Data.List.Basic
import Scoping.Walk.Basic

/-! What a walk reads of the settings. Two settings that agree on it bring the
same events for every program. -/

namespace Scoping

/-- Two settings that a walk reads alike. They may differ in what only the symbol
table asks for. -/
structure Settings.ReadAlike (first second : Settings) : Prop where
  keys : first.keys = second.keys
  isModule : first.isModule = second.isModule
  globalReturn : first.globalReturn = second.globalReturn
  knowsStrict : first.knowsStrict = second.knowsStrict
  hasBlockScopes : first.hasBlockScopes = second.hasBlockScopes
  impliedStrict : first.options.impliedStrict = second.options.impliedStrict
  ignoreEval : first.options.ignoreEval = second.options.ignoreEval

variable {first second : Settings} {inMethod : Bool}

namespace Walker

/-- The fields to go into are read from the settings that both share. -/
theorem descend_congr (h : first.ReadAlike second) (node : Node) :
    descend ⟨first, inMethod⟩ node = descend ⟨second, inMethod⟩ node := by
  simp only [descend, h.keys]
  rfl

/-- Patterns are read by the same fields. -/
theorem bind_congr (h : first.ReadAlike second) (pattern : Node) (each : Target → List Event) :
    bind ⟨first, inMethod⟩ pattern each = bind ⟨second, inMethod⟩ pattern each := by
  simp only [bind, h.keys]

theorem bindAndVisit_congr (h : first.ReadAlike second) (pattern : Node)
    (each : Target → List Event) :
    bindAndVisit ⟨first, inMethod⟩ pattern each =
      bindAndVisit ⟨second, inMethod⟩ pattern each := by
  simp only [bindAndVisit, h.keys]
  rfl

theorem assign_congr (h : first.ReadAlike second) (node left : Node) :
    assign ⟨first, inMethod⟩ node left = assign ⟨second, inMethod⟩ node left := by
  simp only [assign, bindAndVisit_congr h]
  rfl

theorem declareVariables_congr (h : first.ReadAlike second) (declaration : Node)
    (inLoopHead : Bool) :
    declareVariables ⟨first, inMethod⟩ declaration inLoopHead =
      declareVariables ⟨second, inMethod⟩ declaration inLoopHead := by
  simp only [declareVariables, declareTargets, bindAndVisit_congr h]
  rfl

theorem loopOver_congr (h : first.ReadAlike second) (node left right : Node) :
    loopOver ⟨first, inMethod⟩ node left right = loopOver ⟨second, inMethod⟩ node left right := by
  simp only [loopOver, declareVariables_congr h, bind_congr h, bindAndVisit_congr h]
  rfl

theorem defineFunction_congr (h : first.ReadAlike second) (node : Node) :
    defineFunction ⟨first, inMethod⟩ node = defineFunction ⟨second, inMethod⟩ node := by
  simp only [defineFunction, defineParameters, bindAndVisit_congr h]
  rfl

theorem catchError_congr (h : first.ReadAlike second) (node : Node) :
    catchError ⟨first, inMethod⟩ node = catchError ⟨second, inMethod⟩ node := by
  simp only [catchError, bindAndVisit_congr h]
  rfl

theorem importNames_congr (h : first.ReadAlike second) (node : Node) :
    importNames ⟨first, inMethod⟩ node = importNames ⟨second, inMethod⟩ node := by
  simp only [importNames, h.keys, bind_congr h]

theorem program_congr (h : first.ReadAlike second) (node : Node) :
    program ⟨first, inMethod⟩ node = program ⟨second, inMethod⟩ node := by
  simp only [program, descend_congr h, h.globalReturn, h.isModule, h.knowsStrict,
    h.hasBlockScopes, h.impliedStrict]

/-- The work at a node is told by what a walk reads. -/
theorem tasks_congr (h : first.ReadAlike second) (node : Node) :
    tasks ⟨first, inMethod⟩ node = tasks ⟨second, inMethod⟩ node := by
  unfold tasks
  cases Role.ofKind node.kind with
  | program => exact program_congr h node
  | assignment =>
      have hAssign : assign ⟨first, inMethod⟩ node = assign ⟨second, inMethod⟩ node :=
        funext (assign_congr h node)
      simp only [hAssign]
      rfl
  | forEach =>
      simp only [loopOver_congr h]
      rfl
  | variableDeclaration => exact declareVariables_congr h node false
  | function => exact defineFunction_congr h node
  | catchClause => exact catchError_congr h node
  | call => simp only [h.ignoreEval, descend_congr h]
  | block => simp only [h.hasBlockScopes, descend_congr h]
  | switchStatement =>
      simp only [h.hasBlockScopes]
      rfl
  | importDeclaration => simp only [h.hasBlockScopes, h.isModule, importNames_congr h]
  | exportDeclaration =>
      simp only [descend_congr h]
      rfl
  | update | staticBlock | forLoop | plain => simp only [descend_congr h]
  | _ => rfl

end Walker

/-- Settings that are read alike bring the same events, whatever is visited. -/
theorem Task.events_congr (h : first.ReadAlike second) (task : Task) :
    task.events first = task.events second := by
  induction hSize : task.size using Nat.strongRecOn generalizing task with
  | ind size ih =>
      cases task with
      | emit event => rw [Task.events_emit, Task.events_emit]
      | visit inMethod node =>
          rw [Task.events_visit, Task.events_visit, Walker.tasks_congr h]
          exact List.flatMap_congr fun task hTask => ih _ (hSize ▸ Task.size_lt hTask) task rfl

/-- Settings that are read alike bring the same events for every program. -/
theorem programEvents_congr (h : first.ReadAlike second) (root : Node) :
    programEvents first root = programEvents second root := by
  rw [programEvents, programEvents, Walker.program_congr h]
  exact List.flatMap_congr fun task _ => task.events_congr h

end Scoping
