import Scoping.Proofs.Chronicle.Flags
import Scoping.Proofs.Walk.Arriving
import Scoping.Proofs.Walk.Work

/-! The remarks of a walk: a use of `this`, and a call of eval. They say something of the scope
that a `var` would go to. A node that brings one does so before all its other work. -/

namespace Scoping

/-- An event that adds nothing to a table, and only marks scopes that are there. -/
def Event.IsRemark : Event → Prop
  | .directEval | .thisExpression => True
  | _ => False

def Task.IsRemark : Task → Prop
  | .emit event => event.IsRemark
  | .visit _ _ => False

/-- A call of a plain name `eval`, which can declare variables where it stands. -/
structure Node.CallsEval (settings : Settings) (node : Node) : Prop where
  kind : node.kind = "CallExpression"
  regarded : settings.options.ignoreEval = false
  callee : ∃ callee, node.child? "callee" = some callee ∧ callee.isIdentifier = true ∧
    callee.name = "eval"

variable {settings : Settings} {root node : Node} {event : Event} {task : Task} {tasks : List Task}
  {position : ScopeId} {past future : List Event} {inMethod : Bool}

@[simp] theorem Task.isRemark_emit : Task.IsRemark (.emit event) ↔ event.IsRemark :=
  Iff.rfl

/-- A use is recorded as a reference. It is no remark on a scope. -/
theorem Task.IsUse.not_isRemark (h : task.IsUse) : ¬ task.IsRemark := by
  rcases h with hSimple | ⟨use, rfl⟩
  · cases task with
    | visit => exact id
    | emit event =>
        cases event with
        | fail => exact id
        | _ => exact hSimple.elim
  · exact id

theorem Task.IsSimple.not_isRemark (h : task.IsSimple) : ¬ task.IsRemark :=
  Task.IsUse.not_isRemark (.inl h)

namespace Walker

variable {walker : Walker} {name : String}

/-- Work that brings no remark. -/
def Unremarked (tasks : List Task) : Prop :=
  ∀ task ∈ tasks, ¬ task.IsRemark

@[simp] theorem unremarked_nil : Unremarked [] :=
  fun _ hTask => nomatch hTask

@[simp] theorem unremarked_cons : Unremarked (task :: tasks) ↔ ¬ task.IsRemark ∧ Unremarked tasks :=
  List.forall_mem_cons

@[simp] theorem unremarked_append {rest : List Task} :
    Unremarked (tasks ++ rest) ↔ Unremarked tasks ∧ Unremarked rest :=
  List.forall_mem_append

@[simp] theorem not_isRemark_visit {child : Node} : ¬ (walker.visit child).IsRemark :=
  id

/-- Uses and visits of what is inside make no remark at the node itself. -/
theorem unremarked_of_isUse (h : ∀ task ∈ tasks, task.IsUse) : Unremarked tasks :=
  fun task hTask => (h task hTask).not_isRemark

theorem unremarked_of_isSimple (h : ∀ task ∈ tasks, task.IsSimple) : Unremarked tasks :=
  fun task hTask => (h task hTask).not_isRemark

@[simp] theorem unremarked_descend : Unremarked (walker.descend node) :=
  unremarked_of_isSimple fun _ => isSimple_of_mem_descend

@[simp] theorem unremarked_visitRequired : Unremarked (walker.visitRequired node name) :=
  unremarked_of_isSimple fun _ => isSimple_of_mem_visitRequired

@[simp] theorem unremarked_visitOptional : Unremarked (walker.visitOptional node name) :=
  unremarked_of_isSimple fun _ => isSimple_of_mem_visitOptional

@[simp] theorem unremarked_visitComputed : Unremarked (walker.visitComputed node name) :=
  unremarked_of_isSimple fun _ => isSimple_of_mem_visitComputed

theorem unremarked_required {next : Node → List Task} (h : ∀ child, Unremarked (next child)) :
    Unremarked (required node name next) :=
  fun _ hTask => (mem_required hTask).elim Task.IsSimple.not_isRemark
    fun ⟨child, _, hMem⟩ => h child _ hMem

theorem unremarked_optional {next : Node → List Task} (h : ∀ child, Unremarked (next child)) :
    Unremarked (optional node name next) :=
  fun _ hTask => (mem_optional hTask).elim fun child hMem => h child _ hMem.2

@[simp] theorem unremarked_assign {left : Node} : Unremarked (walker.assign node left) :=
  unremarked_of_isUse fun _ => isUse_of_mem_assign

@[simp] theorem unremarked_declareVariables {inLoopHead : Bool} :
    Unremarked (walker.declareVariables node inLoopHead) := by
  intro task hTask
  rcases mem_declareVariables hTask with hUse | ⟨_, -, ⟨_, _, rfl⟩ | ⟨-, rfl⟩⟩
  · exact hUse.not_isRemark
  all_goals exact id

@[simp] theorem unremarked_loopOver {left right : Node} :
    Unremarked (walker.loopOver node left right) := by
  intro task hTask
  rcases mem_loopOver hTask with hUse | ⟨-, rfl | ⟨_, -, ⟨_, _, rfl⟩ | rfl⟩⟩
  · exact hUse.not_isRemark
  all_goals exact id

/-- What a node does to own its scopes makes no remark. -/
theorem Owns.not_isRemark {kind : DefinitionKind} (h : Owns node kind task) : ¬ task.IsRemark := by
  obtain ⟨_, _, rfl, -⟩ := h.define
  exact id

@[simp] theorem unremarked_defineParameters : Unremarked (walker.defineParameters node) :=
  fun _ hTask => (mem_defineParameters hTask).elim Task.IsUse.not_isRemark Owns.not_isRemark

@[simp] theorem unremarked_defineClassName : Unremarked (defineClassName node) :=
  fun _ hTask => (mem_defineClassName hTask).not_isRemark

@[simp] theorem unremarked_defineFunction : Unremarked (walker.defineFunction node) := by
  unfold defineFunction
  simp only [unremarked_append, unremarked_cons, unremarked_defineParameters,
    unremarked_visitRequired, unremarked_nil, Task.isRemark_emit, Event.IsRemark, not_false_eq_true,
    and_true]
  constructor
  · split
    · exact unremarked_optional fun _ => by simp [Event.IsRemark]
    · exact unremarked_nil
  · split <;> simp [Event.IsRemark]

@[simp] theorem unremarked_catchError : Unremarked (walker.catchError node) := by
  unfold catchError
  simp only [unremarked_append, unremarked_cons, unremarked_visitRequired, unremarked_nil,
    Task.isRemark_emit, Event.IsRemark, not_false_eq_true, and_true, true_and]
  exact fun _ hTask => (mem_catchParameter hTask).elim Task.IsUse.not_isRemark Owns.not_isRemark

@[simp] theorem unremarked_importNames : Unremarked (walker.importNames node) := by
  intro task hTask
  rcases mem_importNames hTask with hSimple | ⟨_, _, rfl, -⟩
  · exact hSimple.not_isRemark
  · exact id

/-- A program makes no remark by itself, only nodes inside of it do. -/
theorem unremarked_program : Unremarked (walker.program node) := by
  intro task hTask
  rcases mem_program hTask with hSimple | ⟨_, rfl⟩ | rfl | ⟨_, -, rfl⟩
  · exact hSimple.not_isRemark
  all_goals exact id

/-- A use of `this` has no children, so the remark is all its work. -/
theorem tasks_of_this (h : node.kind = "ThisExpression") :
    walker.tasks node = [.emit .thisExpression] := by
  rw [tasks, h]
  rfl

/-- A call of eval first marks the scopes around, and then it is visited as any call. -/
theorem tasks_of_callsEval (h : node.CallsEval walker.settings) :
    walker.tasks node = .emit .directEval :: walker.descend node := by
  obtain ⟨callee, hChild, hIdentifier, hName⟩ := h.callee
  have hRole : Role.ofKind node.kind = .call := by rw [h.kind]; rfl
  rw [tasks, hRole]
  simp [required, hChild, h.regarded, hIdentifier, hName]

/-- The work at a node, as to its remarks: none, or one at its beginning. -/
inductive Remarking (walker : Walker) (node : Node) : Prop where
  | unremarked (none : Unremarked (walker.tasks node))
  | this (kind : node.kind = "ThisExpression")
  | eval (calls : node.CallsEval walker.settings)

/-- Every node makes at most one remark, and it does so before all its other work. -/
theorem remarking (walker : Walker) (node : Node) : Remarking walker node := by
  cases hRole : Role.ofKind node.kind
  case thisExpression => exact .this (Role.kind_eq hRole rfl)
  case call =>
    by_cases hCalls : node.CallsEval walker.settings
    · exact .eval hCalls
    · refine .unremarked ?_
      rw [tasks, hRole]
      refine unremarked_append.2 ⟨fun task hTask => ?_, unremarked_descend⟩
      rcases mem_required hTask with hSimple | ⟨callee, hCallee, hMem⟩
      · exact hSimple.not_isRemark
      · split at hMem
        · next hEval =>
            simp only [Bool.and_eq_true, Bool.not_eq_true', decide_eq_true_eq] at hEval
            exact absurd
              ⟨Role.kind_eq hRole rfl, hEval.1.1, callee, hCallee, hEval.1.2, hEval.2⟩ hCalls
        · cases hMem
  all_goals
    refine .unremarked ?_
    rw [tasks, hRole]
    dsimp only
  case program => exact unremarked_program
  case assignment =>
    exact unremarked_append.2 ⟨unremarked_required fun _ => unremarked_assign, unremarked_visitRequired⟩
  case update =>
    refine unremarked_required fun _ => ?_
    split <;> simp [Event.IsRemark]
  case field =>
    refine unremarked_append.2 ⟨unremarked_visitComputed, unremarked_optional fun _ => ?_⟩
    simp [within, Event.IsRemark]
  case forLoop => split <;> simp [Event.IsRemark]
  case forEach =>
    refine unremarked_required fun _ => unremarked_required fun _ => ?_
    simp [Event.IsRemark]
  case block => split <;> simp [within, Event.IsRemark]
  case classDefinition =>
    unfold defineClass
    split <;> simp [Event.IsRemark]
  case switchStatement =>
    have hCases : Unremarked ((node.children "cases").map walker.visit) :=
      List.forall_mem_map.2 fun _ _ => not_isRemark_visit
    refine unremarked_append.2 ⟨unremarked_visitRequired, ?_⟩
    split <;> simp [within, hCases, Event.IsRemark]
  case importDeclaration => split <;> simp
  case exportDeclaration =>
    split
    · exact unremarked_nil
    · split <;> simp
  all_goals simp [within, Event.IsRemark]

/-- A node makes its remark before all its other work, and makes no second one. -/
theorem eq_nil_of_remark {before after : List Task} (hRemark : event.IsRemark)
    (h : walker.tasks node = before ++ .emit event :: after) : before = [] := by
  have hOnly : ∀ {other : Task} {rest : List Task}, walker.tasks node = other :: rest →
      Unremarked rest → before = [] := by
    intro other rest hTasks hNone
    rw [hTasks] at h
    cases before with
    | nil => rfl
    | cons first before =>
        rw [List.cons_append, List.cons.injEq] at h
        exact absurd hRemark
          (hNone (.emit event) (h.2 ▸ List.mem_append_right _ List.mem_cons_self))
  rcases remarking walker node with hNone | hThis | hCalls
  · exact absurd hRemark (hNone (.emit event) (h ▸ List.mem_append_right _ List.mem_cons_self))
  · exact hOnly (tasks_of_this hThis) unremarked_nil
  · exact hOnly (tasks_of_callsEval hCalls) unremarked_descend

/-- Only a use of `this` is remarked as one. -/
theorem mem_this_iff : .emit .thisExpression ∈ walker.tasks node ↔ node.kind = "ThisExpression" := by
  refine ⟨fun hMem => ?_, fun hKind => by rw [tasks_of_this hKind]; exact List.mem_singleton_self _⟩
  rcases remarking walker node with hNone | hThis | hCalls
  · exact absurd trivial (hNone _ hMem)
  · exact hThis
  · rw [tasks_of_callsEval hCalls, List.mem_cons] at hMem
    exact absurd trivial (unremarked_descend _ (hMem.resolve_left nofun))

/-- Only a call of eval is remarked as one. -/
theorem mem_directEval_iff :
    .emit .directEval ∈ walker.tasks node ↔ node.CallsEval walker.settings := by
  refine ⟨fun hMem => ?_, fun hCalls => by rw [tasks_of_callsEval hCalls]; exact List.mem_cons_self⟩
  rcases remarking walker node with hNone | hThis | hCalls
  · exact absurd trivial (hNone _ hMem)
  · rw [tasks_of_this hThis] at hMem
    cases List.mem_singleton.1 hMem
  · exact hCalls

end Walker

/-- The walk comes to a node and to its remark at once. -/
theorem Arrives.remark (h : Arrives settings root past (.visit inMethod node) future)
    (hRemark : event.IsRemark) (hMem : .emit event ∈ Walker.tasks { settings, inMethod } node) :
    ∃ later, Arrives settings root past (.emit event) later := by
  obtain ⟨before, after, hSplit⟩ := List.append_of_mem hMem
  obtain rfl := Walker.eq_nil_of_remark hRemark hSplit
  have hArrives := h.inside hSplit
  rw [List.flatMap_nil, List.append_nil] at hArrives
  exact ⟨_, hArrives⟩

/-- The remarks of a program on a scope are those of the nodes that the walk visits where a `var`
goes to the scope. -/
theorem exists_holdsAt_iff (hRemark : event.IsRemark) :
    (∃ entry ∈ programLog settings root, Entry.HoldsAt entry event position) ↔
      ∃ past inMethod node future, Arrives settings root past (.visit inMethod node) future ∧
        .emit event ∈ Walker.tasks { settings, inMethod } node ∧
        (Trail.after settings past).holder? = some position := by
  constructor
  · rintro ⟨entry, hEntry, hEvent, hHolder⟩
    obtain ⟨past, future, found, hArrives, rfl⟩ := mem_programLog.1 hEntry
    obtain rfl : found = event := hEvent
    cases hArrives with
    | program split =>
        exact absurd hRemark
          (Walker.unremarked_program (.emit found) (split ▸ List.mem_append_right _ List.mem_cons_self))
    | @inside past future inMethod node before after _ visit split =>
        obtain rfl := Walker.eq_nil_of_remark hRemark split
        rw [List.flatMap_nil, List.append_nil] at hHolder
        exact ⟨past, inMethod, node, future, visit, split ▸ List.mem_cons_self, hHolder⟩
  · rintro ⟨past, inMethod, node, future, hVisit, hMem, hHolder⟩
    obtain ⟨later, hArrives⟩ := hVisit.remark hRemark hMem
    exact ⟨_, mem_programLog.2 ⟨past, later, event, hArrives, rfl⟩, rfl, hHolder⟩

end Scoping
