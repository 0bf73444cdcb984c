import Scoping.Proofs.Walk.Work

/-! What the work at a node emits, and how it visits. Scopes are told of the methods
around by their kind, only a program says what is strict, and only an assignment, or
the head of a loop, can make a global. -/

namespace Scoping

/-- What a scope that opens is told of the methods around it. A function is told
what its node is. Fields and static blocks are always told that they are in one. -/
def ScopeKind.isTold (kind : ScopeKind) (inMethod : Bool) : Bool :=
  match kind with
  | .function => inMethod
  | .fieldInitializer | .staticBlock => true
  | _ => false

/-- What the work at a node can emit, where the node is told this of the methods
around it, and where it can make globals. -/
def Event.IsRegular (inMethod : Bool) (assigns : Prop) : Event → Prop
  | .enter kind _ flag => flag = kind.isTold inMethod
  | .use made => made.implicitGlobal = none ∨ assigns
  | .setStrict _ => False
  | _ => True

def Task.IsRegular (inMethod : Bool) (assigns : Prop) : Task → Prop
  | .visit flag _ => flag = inMethod
  | .emit event => event.IsRegular inMethod assigns

namespace Walker

variable {walker : Walker} {node : Node} {task : Task} {tasks : List Task} {name : String}
  {inMethod : Bool} {assigns : Prop}

def Regular (inMethod : Bool) (assigns : Prop) (tasks : List Task) : Prop :=
  ∀ task ∈ tasks, task.IsRegular inMethod assigns

@[simp] theorem regular_nil : Regular inMethod assigns [] := by
  simp [Regular]

@[simp] theorem regular_emit {event : Event} :
    Regular inMethod assigns (.emit event :: tasks) ↔
      event.IsRegular inMethod assigns ∧ Regular inMethod assigns tasks := by
  simp [Regular, Task.IsRegular]

@[simp] theorem regular_visit {inner : Node} :
    Regular walker.inMethod assigns (walker.visit inner :: tasks) ↔
      Regular walker.inMethod assigns tasks := by
  simp [Regular, visit, Task.IsRegular]

@[simp] theorem regular_append {first rest : List Task} :
    Regular inMethod assigns (first ++ rest) ↔
      Regular inMethod assigns first ∧ Regular inMethod assigns rest := by
  simp only [Regular, List.mem_append, or_imp, forall_and]

theorem regular_flatMap {α : Type} {items : List α} {f : α → List Task}
    (h : ∀ item ∈ items, Regular inMethod assigns (f item)) :
    Regular inMethod assigns (items.flatMap f) := by
  intro task hTask
  obtain ⟨item, hItem, hMem⟩ := List.mem_flatMap.1 hTask
  exact h item hItem task hMem

@[simp] theorem regular_map_visit {nodes : List Node} :
    Regular walker.inMethod assigns (nodes.map walker.visit) := by
  intro task hTask
  obtain ⟨inner, -, rfl⟩ := List.mem_map.1 hTask
  rfl

theorem regular_map_emit {events : List Event}
    (h : ∀ event ∈ events, event.IsRegular inMethod assigns) :
    Regular inMethod assigns (events.map .emit) := by
  intro task hTask
  obtain ⟨event, hEvent, rfl⟩ := List.mem_map.1 hTask
  exact h event hEvent

@[simp] theorem regular_descend : Regular walker.inMethod assigns (walker.descend node) :=
  regular_map_visit

theorem regular_required {next : Node → List Task}
    (h : ∀ child, Regular inMethod assigns (next child)) :
    Regular inMethod assigns (required node name next) := by
  unfold required
  split
  · exact h _
  · simp [Event.IsRegular]

theorem regular_optional {next : Node → List Task}
    (h : ∀ child, Regular inMethod assigns (next child)) :
    Regular inMethod assigns (optional node name next) := by
  unfold optional
  split
  · exact h _
  · exact regular_nil

@[simp] theorem regular_visitRequired :
    Regular walker.inMethod assigns (walker.visitRequired node name) :=
  regular_required fun _ => by simp

@[simp] theorem regular_visitOptional :
    Regular walker.inMethod assigns (walker.visitOptional node name) :=
  regular_optional fun _ => by simp

@[simp] theorem regular_visitComputed :
    Regular walker.inMethod assigns (walker.visitComputed node name) := by
  unfold visitComputed
  split <;> simp

/-- A pattern fails or brings the events for its targets, so no more is asked than that
these are regular. -/
theorem regular_bind {pattern : Node} {each : Target → List Event}
    (h : ∀ target, ∀ event ∈ each target, event.IsRegular inMethod assigns) :
    Regular inMethod assigns (walker.bind pattern each) := by
  unfold bind
  split
  · simp [Event.IsRegular]
  · refine regular_map_emit fun event hEvent => ?_
    obtain ⟨target, -, hMem⟩ := List.mem_flatMap.1 hEvent
    exact h target event hMem

theorem regular_bindAndVisit {pattern : Node} {each : Target → List Event}
    (h : ∀ target, ∀ event ∈ each target, event.IsRegular walker.inMethod assigns) :
    Regular walker.inMethod assigns (walker.bindAndVisit pattern each) := by
  unfold bindAndVisit
  split
  · simp [Event.IsRegular]
  · refine regular_append.2 ⟨regular_map_emit fun event hEvent => ?_, regular_map_visit⟩
    obtain ⟨target, -, hMem⟩ := List.mem_flatMap.1 hEvent
    exact h target event hMem

/-- The writes of default values make a global only if the assignment around them may. -/
theorem isRegular_of_mem_writeDefaults {target : Target} {source : Option Node} {init : Bool}
    {event : Event} (hSource : source = none ∨ assigns)
    (h : event ∈ writeDefaults target source init) : event.IsRegular inMethod assigns := by
  obtain ⟨assignment, -, rfl⟩ := List.mem_map.1 h
  exact hSource

/-- A definition of a target, and its defaults. -/
theorem isRegular_of_mem_cons_writeDefaults {target : Target} {define event : Event} {init : Bool}
    (hDefine : define.IsRegular inMethod assigns)
    (h : event ∈ define :: writeDefaults target none init) : event.IsRegular inMethod assigns := by
  rcases List.mem_cons.1 h with rfl | hDefault
  · exact hDefine
  · exact isRegular_of_mem_writeDefaults (.inl rfl) hDefault

/-- The defaults of a target that is assigned to, and the write of the value. -/
theorem isRegular_of_mem_writeDefaults_append {target : Target} {source : Option Node} {init : Bool}
    {event : Event} {use : Use} (hAssigns : assigns)
    (h : event ∈ writeDefaults target source init ++ [.use use]) :
    event.IsRegular inMethod assigns := by
  rcases List.mem_append.1 h with hDefault | hWrite
  · exact isRegular_of_mem_writeDefaults (.inr hAssigns) hDefault
  · rw [List.mem_singleton.1 hWrite]
    exact .inr hAssigns

/-- An assignment may make a global of what it writes to, so the node has to be one that
may. -/
theorem regular_assign {left : Node} (hAssigns : assigns) :
    Regular walker.inMethod assigns (walker.assign node left) := by
  unfold assign
  split
  · simp
  · split
    · exact regular_bindAndVisit fun target event =>
        isRegular_of_mem_writeDefaults_append hAssigns
    · simp [Event.IsRegular]

/-- The values of declared variables are written without making a global of any name. -/
theorem regular_declareVariables {declaration : Node} {inLoopHead : Bool} :
    Regular walker.inMethod assigns (walker.declareVariables declaration inLoopHead) := by
  refine regular_flatMap fun (declarator, position) _ => ?_
  rw [regular_append, regular_append]
  refine ⟨⟨regular_required fun id => regular_bindAndVisit fun target event hEvent => ?_,
    regular_visitOptional⟩, ?_⟩
  · rcases List.mem_cons.1 hEvent with rfl | hEvent
    · trivial
    · rcases List.mem_append.1 hEvent with hDefault | hWrite
      · exact isRegular_of_mem_writeDefaults (.inl rfl) hDefault
      · split at hWrite
        · cases hWrite
        · rw [List.mem_singleton.1 hWrite]
          exact .inl rfl
  · split <;> simp [Event.IsRegular]

/-- The head of a loop makes no global, if it declares what the loop is over. -/
theorem regular_loopOver {left right : Node} (hAssigns : left.kind ≠ "VariableDeclaration" → assigns) :
    Regular walker.inMethod assigns (walker.loopOver node left right) := by
  unfold loopOver
  split
  · have hEnds : Regular walker.inMethod assigns
        ((left.children "declarations").map fun declarator => .emit (.endDeclaration declarator)) := by
      intro task hTask
      obtain ⟨declarator, -, rfl⟩ := List.mem_map.1 hTask
      trivial
    simp only [regular_append, regular_visit, regular_declareVariables, hEnds, and_true]
    refine ⟨?_, ?_⟩
    · split <;> simp [Event.IsRegular, ScopeKind.isTold]
    · split
      · exact regular_nil
      · refine regular_required fun id => regular_bind fun target event hEvent => ?_
        rw [List.mem_singleton.1 hEvent]
        exact .inl rfl
  · next hKind =>
      rw [regular_append]
      exact ⟨regular_bindAndVisit fun target event =>
        isRegular_of_mem_writeDefaults_append (hAssigns hKind), by simp⟩

/-- A scope that is opened with the flag of its kind, whatever is done inside. -/
theorem regular_within {kind : ScopeKind} {flag : Bool} {block : Node}
    (hFlag : flag = kind.isTold inMethod) (h : Regular inMethod assigns tasks) :
    Regular inMethod assigns (within kind flag block tasks) := by
  simp [within, h, hFlag, Event.IsRegular]

theorem regular_defineFunction : Regular walker.inMethod assigns (walker.defineFunction node) := by
  have hParameters : Regular walker.inMethod assigns (walker.defineParameters node) := by
    refine regular_flatMap fun (parameter, position) _ => regular_bindAndVisit fun target event =>
      isRegular_of_mem_cons_writeDefaults ?_
    trivial
  have hName : Regular walker.inMethod assigns (if node.kind = "FunctionDeclaration" then
      optional node "id" fun name =>
        [.emit (.define .functionDeclaration name { kind := .functionName, name, node })]
      else []) := by
    split
    · exact regular_optional fun name => by simp [Event.IsRegular]
    · exact regular_nil
  unfold defineFunction
  simp only [regular_append, regular_emit, hName, hParameters, regular_visitRequired, regular_nil,
    Event.IsRegular, ScopeKind.isTold, and_true, true_and]
  split <;> simp [Event.IsRegular, ScopeKind.isTold]

theorem regular_defineClass : Regular walker.inMethod assigns (walker.defineClass node) := by
  have hName : Regular walker.inMethod assigns (defineClassName node) :=
    regular_optional fun name => by simp [Event.IsRegular]
  unfold defineClass
  simp only [regular_append, regular_emit, hName, regular_visitRequired, regular_visitOptional,
    regular_nil, Event.IsRegular, ScopeKind.isTold, and_true]
  split
  · exact hName
  · exact regular_nil

theorem regular_catchError : Regular walker.inMethod assigns (walker.catchError node) := by
  have hParameter : Regular walker.inMethod assigns (optional node "param" fun parameter =>
      walker.bindAndVisit parameter fun target =>
        .define .current target.identifier { kind := .catchClause, name := parameter, node } ::
          writeDefaults target none true) := by
    refine regular_optional fun parameter => regular_bindAndVisit fun target event =>
      isRegular_of_mem_cons_writeDefaults ?_
    trivial
  simp [catchError, hParameter, Event.IsRegular, ScopeKind.isTold]

theorem regular_importNames : Regular inMethod assigns (walker.importNames node) := by
  refine regular_flatMap fun specifier _ => ?_
  split
  · exact regular_nil
  · refine regular_bind fun target event hEvent => ?_
    rw [List.mem_singleton.1 hEvent]
    trivial

/-- All work is regular but that of a program, and that of a method, which visits its
value in another way. -/
theorem regular_tasks (hProgram : Role.ofKind node.kind ≠ .program)
    (hMethod : Role.ofKind node.kind ≠ .method) :
    Regular walker.inMethod
      (Role.ofKind node.kind = .assignment ∨ Role.ofKind node.kind = .forEach)
      (walker.tasks node) := by
  generalize hRole : Role.ofKind node.kind = role at hProgram hMethod ⊢
  unfold tasks
  rw [hRole]
  cases role with
  | program => exact absurd rfl hProgram
  | method => exact absurd rfl hMethod
  | identifier | silent | thisExpression | member | property | labelled | exportSpecifier | plain =>
      simp [Event.IsRegular]
  | assignment =>
      exact regular_append.2 ⟨regular_required fun _ => regular_assign (.inl rfl), regular_visitRequired⟩
  | update =>
      refine regular_required fun argument => ?_
      split <;> simp [Event.IsRegular]
  | field =>
      exact regular_append.2 ⟨regular_visitComputed,
        regular_optional fun value => regular_within rfl (by simp)⟩
  | staticBlock => exact regular_within rfl regular_descend
  | forLoop =>
      simp only [regular_append, regular_descend, regular_emit, regular_nil, Event.IsRegular, and_true]
      split <;> simp [Event.IsRegular, ScopeKind.isTold]
  | forEach =>
      refine regular_required fun left => regular_required fun right => ?_
      refine regular_append.2 ⟨regular_append.2 ⟨regular_loopOver fun _ => .inr rfl,
        regular_visitRequired⟩, by simp [Event.IsRegular]⟩
  | classDefinition => exact regular_defineClass
  | call =>
      refine regular_append.2 ⟨regular_required fun callee => ?_, regular_descend⟩
      split <;> simp [Event.IsRegular]
  | block =>
      dsimp only
      split
      · exact regular_within rfl regular_descend
      · simp [Event.IsRegular]
  | withStatement =>
      exact regular_append.2 ⟨regular_visitRequired, regular_within rfl regular_visitRequired⟩
  | variableDeclaration => exact regular_declareVariables
  | switchStatement =>
      refine regular_append.2 ⟨regular_visitRequired, ?_⟩
      split
      · exact regular_within rfl regular_map_visit
      · simp [Event.IsRegular]
  | function => exact regular_defineFunction
  | catchClause => exact regular_catchError
  | importDeclaration =>
      dsimp only
      split
      · exact regular_importNames
      · exact regular_nil
  | exportDeclaration =>
      dsimp only
      split
      · exact regular_nil
      · split <;> simp

/-- A method only visits. It is the visit of its value that is told of the method. -/
theorem isSimple_of_role_method (h : task ∈ walker.tasks node)
    (hMethod : Role.ofKind node.kind = .method) : task.IsSimple := by
  unfold tasks at h
  rw [hMethod] at h
  rcases List.mem_append.1 h with hKey | hValue
  · exact isSimple_of_mem_visitComputed hKey
  · exact isSimple_of_mem_visitRequired hValue

/-- What the work at a node emits is regular, unless the node is a program. -/
theorem isRegular_of_emit_mem_tasks {event : Event} (hProgram : Role.ofKind node.kind ≠ .program)
    (h : .emit event ∈ walker.tasks node) :
    event.IsRegular walker.inMethod
      (Role.ofKind node.kind = .assignment ∨ Role.ofKind node.kind = .forEach) := by
  by_cases hMethod : Role.ofKind node.kind = .method
  · have hSimple := isSimple_of_role_method h hMethod
    cases event with
    | fail failure => trivial
    | _ => exact hSimple.elim
  · exact regular_tasks hProgram hMethod _ h

/-- Only a program says whether its scope is strict. -/
theorem role_of_mem_setStrict {strict : Bool} (h : .emit (.setStrict strict) ∈ walker.tasks node) :
    Role.ofKind node.kind = .program := by
  by_cases hProgram : Role.ofKind node.kind = .program
  · exact hProgram
  · exact (isRegular_of_emit_mem_tasks hProgram h).elim

end Walker

end Scoping
