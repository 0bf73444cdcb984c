import Scoping.Proofs.Walk.Visiting
import Scoping.Proofs.Walk.Work

/-! What each node binds: the identifiers that the work at it defines, with the
definitions that it makes of them. -/

namespace Scoping

/-- An identifier with a definition of what it names. -/
structure Binding where
  identifier : Node
  definition : Definition

/-- The targets of the pattern that a node is, if it is one. -/
def Pattern.targetsIn (keys : ChildKeys) (pattern : Node) : List Target :=
  match ofNode keys pattern with
  | .error _ => []
  | .ok found => found.targets

namespace Node

/-- The name of a function or class. -/
def named (kind : DefinitionKind) (node : Node) : List Binding :=
  (node.child? "id").toList.map fun name => ⟨name, { kind, name, node }⟩

/-- The parameters of a function. -/
def parameters (keys : ChildKeys) (node : Node) : List Binding :=
  (node.children "params").zipIdx.flatMap fun (parameter, position) =>
    (Pattern.targetsIn keys parameter).map fun target =>
      ⟨target.identifier, {
        kind := .parameter
        name := target.identifier
        node
        index := position
        rest := target.rest }⟩

/-- The names of a clause that catches an error. Each definition gives the whole
parameter as its name. -/
def caught (keys : ChildKeys) (node : Node) : List Binding :=
  (node.child? "param").toList.flatMap fun parameter =>
    (Pattern.targetsIn keys parameter).map fun target =>
      ⟨target.identifier, { kind := .catchClause, name := parameter, node }⟩

/-- The names that the declarators of a declaration bind. -/
def declarations (keys : ChildKeys) (declaration : Node) : List Binding :=
  (declaration.children "declarations").zipIdx.flatMap fun (declarator, position) =>
    (declarator.child? "id").toList.flatMap fun id =>
      (Pattern.targetsIn keys id).map fun target =>
        ⟨target.identifier, {
          kind := .variable
          name := target.identifier
          node := declarator
          parent := declaration
          index := position
          keyword := declaration.text? "kind" }⟩

/-- The names under which an import declaration imports. -/
def imports (keys : ChildKeys) (node : Node) : List Binding :=
  (Walker.importSpecifiers keys node).flatMap fun specifier =>
    (Walker.importedName? specifier).toList.flatMap fun name =>
      (Pattern.targetsIn keys name).map fun target =>
        ⟨target.identifier, {
          kind := .importBinding
          name := target.identifier
          node := specifier
          parent := node }⟩

end Node

/-- A definition of a name that takes a value as its node is evaluated. -/
def DefinitionKind.takesValue : DefinitionKind → Bool
  | .variable | .parameter | .catchClause => true
  | .functionName | .className | .importBinding | .implicitGlobal => false

/-- What a node binds, in order. A class declaration binds its name twice. -/
def bindings (settings : Settings) (node : Node) : List Binding :=
  match Role.ofKind node.kind with
  | .function =>
      (if node.kind = "FunctionDeclaration" ∨ node.kind = "FunctionExpression" then
        node.named .functionName
      else []) ++ node.parameters settings.keys
  | .classDefinition =>
      (if node.kind = "ClassDeclaration" then node.named .className else []) ++
        node.named .className
  | .catchClause => node.caught settings.keys
  | .variableDeclaration => node.declarations settings.keys
  | .forEach =>
      if (node.child? "right").isSome then
        (node.child? "left").toList.flatMap fun left =>
          if left.kind = "VariableDeclaration" then left.declarations settings.keys else []
      else []
  | .importDeclaration =>
      if settings.hasBlockScopes && settings.isModule then node.imports settings.keys else []
  | _ => []

/-- What an event binds. A named function expression binds its name in a scope of
that alone. -/
def Event.binding? : Event → Option Binding
  | .define _ identifier definition => some ⟨identifier, definition⟩
  | .enter .functionName block _ =>
      (block.child? "id").map fun name => ⟨name, { kind := .functionName, name, node := block }⟩
  | _ => none

/-- What a task binds by itself. -/
def Task.binding? : Task → Option Binding
  | .emit event => event.binding?
  | .visit _ _ => none

/-- What some work binds by itself, in order. -/
def Task.bindings (tasks : List Task) : List Binding :=
  tasks.filterMap Task.binding?

namespace Task

variable {tasks others : List Task} {node : Node} {inMethod : Bool} {event : Event}
  {binding : Binding}

/-- Work binds something by the events in it. What the visited nodes bind is not counted. -/
theorem mem_bindings :
    binding ∈ bindings tasks ↔ ∃ event, .emit event ∈ tasks ∧ event.binding? = some binding := by
  rw [bindings, List.mem_filterMap]
  constructor
  · rintro ⟨task, hTask, hBinding⟩
    cases task with
    | emit event => exact ⟨event, hTask, hBinding⟩
    | visit inMethod inner => cases hBinding
  · rintro ⟨event, hTask, hBinding⟩
    exact ⟨_, hTask, hBinding⟩

@[simp] theorem bindings_nil : bindings [] = [] :=
  rfl

@[simp] theorem bindings_append : bindings (tasks ++ others) = bindings tasks ++ bindings others :=
  List.filterMap_append

@[simp] theorem bindings_visit : bindings (.visit inMethod node :: tasks) = bindings tasks :=
  rfl

@[simp] theorem bindings_emit :
    bindings (.emit event :: tasks) = event.binding?.toList ++ bindings tasks := by
  unfold bindings
  cases hBinding : event.binding? <;> simp [binding?, hBinding]

theorem bindings_flatMap {α : Type} (items : List α) (f : α → List Task) :
    bindings (items.flatMap f) = items.flatMap fun item => bindings (f item) :=
  List.filterMap_flatMap

theorem bindings_map_emit (events : List Event) :
    bindings (events.map .emit) = events.filterMap Event.binding? :=
  List.filterMap_map

end Task

namespace Walker

open Scoping.Task (bindings_append bindings_flatMap bindings_map_emit)

variable (walker : Walker) (node : Node) (name : String)

@[simp] theorem bindings_map_visit (nodes : List Node) :
    Task.bindings (nodes.map walker.visit) = [] := by
  rw [Task.bindings, List.filterMap_map]
  exact List.filterMap_eq_nil_iff.2 fun _ _ => rfl

@[simp] theorem bindings_visit (tasks : List Task) :
    Task.bindings (walker.visit node :: tasks) = Task.bindings tasks :=
  rfl

@[simp] theorem bindings_descend : Task.bindings (walker.descend node) = [] :=
  bindings_map_visit walker _

theorem bindings_required (next : Node → List Task) : Task.bindings (required node name next) =
    (node.child? name).toList.flatMap fun child => Task.bindings (next child) := by
  unfold required
  split <;> simp [*, Event.binding?]

theorem bindings_optional (next : Node → List Task) : Task.bindings (optional node name next) =
    (node.child? name).toList.flatMap fun child => Task.bindings (next child) := by
  unfold optional
  split <;> simp [*]

@[simp] theorem bindings_visitRequired : Task.bindings (walker.visitRequired node name) = [] := by
  rw [visitRequired, bindings_required]
  exact List.flatMap_eq_nil_iff.2 fun _ _ => rfl

@[simp] theorem bindings_visitOptional : Task.bindings (walker.visitOptional node name) = [] := by
  rw [visitOptional, bindings_optional]
  exact List.flatMap_eq_nil_iff.2 fun _ _ => rfl

@[simp] theorem bindings_visitComputed : Task.bindings (walker.visitComputed node name) = [] := by
  unfold visitComputed
  split <;> simp

/-- What is bound for the targets of a pattern. -/
theorem bindings_bindAndVisit (each : Target → List Event) :
    Task.bindings (walker.bindAndVisit node each) =
      (Pattern.targetsIn walker.settings.keys node).flatMap fun target =>
        (each target).filterMap Event.binding? := by
  unfold bindAndVisit Pattern.targetsIn
  split
  · simp [*, Event.binding?]
  · simp [*, bindings_map_emit, List.filterMap_flatMap]

/-- Going through a pattern binds what the events for its targets bind. -/
theorem bindings_bind (each : Target → List Event) :
    Task.bindings (walker.bind node each) =
      (Pattern.targetsIn walker.settings.keys node).flatMap fun target =>
        (each target).filterMap Event.binding? := by
  unfold bind Pattern.targetsIn
  split
  · simp [*, Event.binding?]
  · simp [*, bindings_map_emit, List.filterMap_flatMap]

@[simp] theorem filterMap_writeDefaults (target : Target) (implicitGlobal : Option Node) (init : Bool) :
    (writeDefaults target implicitGlobal init).filterMap Event.binding? = [] := by
  rw [List.filterMap_eq_nil_iff]
  intro event hEvent
  obtain ⟨assignment, -, rfl⟩ := List.mem_map.1 hEvent
  rfl

@[simp] theorem bindings_assign (left : Node) : Task.bindings (walker.assign node left) = [] := by
  unfold assign
  split
  · rfl
  · split <;> simp [bindings_bindAndVisit, Event.binding?]

@[simp] theorem bindings_declareVariables (inLoopHead : Bool) :
    Task.bindings (walker.declareVariables node inLoopHead) =
      node.declarations walker.settings.keys := by
  rw [declareVariables, bindings_flatMap, Node.declarations]
  refine List.flatMap_congr ?_
  rintro ⟨declarator, position⟩ -
  dsimp only
  rw [bindings_append, bindings_append, declareTargets, bindings_required]
  cases declarator.child? "init" <;> cases inLoopHead <;>
    simp [bindings_bindAndVisit, List.filterMap_cons, Event.binding?, List.map_eq_flatMap]

@[simp] theorem bindings_loopOver (left right : Node) :
    Task.bindings (walker.loopOver node left right) =
      if left.kind = "VariableDeclaration" then left.declarations walker.settings.keys else [] := by
  have hEnds : Task.bindings ((left.children "declarations").map fun declarator =>
      .emit (.endDeclaration declarator)) = [] := by
    rw [Task.bindings, List.filterMap_map]
    exact List.filterMap_eq_nil_iff.2 fun _ _ => rfl
  unfold loopOver
  split
  · simp only [bindings_append, bindings_declareVariables, bindings_visit, hEnds]
    split <;> split <;> simp [bindings_required, bindings_bind, Event.binding?]
  · simp [bindings_bindAndVisit, Event.binding?]

@[simp] theorem bindings_defineParameters :
    Task.bindings (walker.defineParameters node) = node.parameters walker.settings.keys := by
  rw [defineParameters, bindings_flatMap, Node.parameters]
  refine List.flatMap_congr ?_
  rintro ⟨parameter, position⟩ -
  simp [bindings_bindAndVisit, Event.binding?, List.map_eq_flatMap]

@[simp] theorem bindings_defineClassName :
    Task.bindings (defineClassName node) = node.named .className := by
  simp [defineClassName, bindings_optional, Event.binding?, Node.named, List.map_eq_flatMap]

/-- A function declaration binds its name around the function, a named function
expression in a scope of the name. -/
theorem bindings_defineFunction : Task.bindings (walker.defineFunction node) =
    (if node.kind = "FunctionDeclaration" ∨ node.kind = "FunctionExpression" then
      node.named .functionName
    else []) ++ node.parameters walker.settings.keys := by
  by_cases hDeclaration : node.kind = "FunctionDeclaration"
  · simp [defineFunction, hDeclaration, bindings_optional, Event.binding?, Node.named,
      List.map_eq_flatMap]
  · by_cases hExpression : node.kind = "FunctionExpression" <;>
      cases hName : node.child? "id" <;>
        simp [defineFunction, hDeclaration, hExpression, hName, Event.binding?, Node.named]

@[simp] theorem bindings_program : Task.bindings (walker.program node) = [] := by
  simp [program, apply_ite Task.bindings, Event.binding?]

@[simp] theorem bindings_importNames :
    Task.bindings (walker.importNames node) = node.imports walker.settings.keys := by
  rw [importNames, bindings_flatMap, Node.imports]
  refine List.flatMap_congr fun specifier _ => ?_
  cases importedName? specifier <;>
    simp [bindings_bind, Event.binding?, List.map_eq_flatMap]

/-- The work at a node binds the same in a method as outside of one. -/
theorem bindings_tasks : Task.bindings (walker.tasks node) = bindings walker.settings node := by
  unfold tasks bindings
  cases Role.ofKind node.kind <;> dsimp only
  case update =>
    rw [bindings_required]
    cases node.child? "argument" with
    | none => rfl
    | some argument => by_cases hPattern : Pattern.isPattern argument <;> simp [hPattern, Event.binding?]
  case forEach =>
    rw [bindings_required]
    cases node.child? "left" <;> cases hRight : node.child? "right" <;>
      simp [bindings_required, hRight, Event.binding?]
  case call => simp [bindings_required, apply_ite Task.bindings, Event.binding?]
  case exportDeclaration =>
    split
    · rfl
    · cases node.child? "declaration" <;> simp
  case function => exact bindings_defineFunction walker node
  case catchClause =>
    simp [catchError, bindings_optional, bindings_bindAndVisit, Event.binding?, Node.caught,
      List.map_eq_flatMap]
  all_goals simp [within, bindings_required, bindings_optional, defineClass,
    apply_ite Task.bindings, Event.binding?]

end Walker

/-- The identifier that an event binds or uses. -/
def Event.identifier? : Event → Option Node
  | .use usage => some usage.identifier
  | event => event.binding?.map Binding.identifier

variable {settings : Settings} {root node : Node} {past future begun : List Event} {event : Event}
  {binding : Binding} {inMethod : Bool} {before after : List Task}

/-- What binds an identifier names it. -/
theorem Event.identifier?_of_binding? (h : event.binding? = some binding) :
    event.identifier? = some binding.identifier := by
  cases event with
  | use usage => cases h
  | _ => exact congrArg (Option.map Binding.identifier) h

/-- An event is part of the work at a node that the walk visits. -/
structure Occurs (settings : Settings) (root : Node) (past : List Event) (event : Event)
    (begun : List Event) (inMethod : Bool) (node : Node) (before after : List Task) : Prop where
  visit : ∃ rest, Arrives settings root begun (.visit inMethod node) rest
  split : Walker.tasks { settings, inMethod } node = before ++ .emit event :: after
  past : past = begun ++ before.flatMap (Task.events settings)

/-- What a program does before and after its visits names nothing. -/
theorem Walker.identifier?_of_mem_program {walker : Walker}
    (h : .emit event ∈ walker.program root) : event.identifier? = none := by
  rcases mem_program h with hSimple | ⟨strict, hEvent⟩ | hEvent | ⟨kind, hKind, hEvent⟩
  · cases event with
    | fail => rfl
    | _ => exact hSimple.elim
  · cases hEvent
    rfl
  · cases hEvent
    rfl
  · cases hEvent
    cases kind <;> first | rfl | simp at hKind

/-- What binds or uses an identifier is part of the work at some node. -/
theorem Arrives.exists_occurs (h : Arrives settings root past (.emit event) future) {name : Node}
    (hName : event.identifier? = some name) :
    ∃ begun inMethod node before after,
      Occurs settings root past event begun inMethod node before after := by
  cases h with
  | program split =>
      have hNone := Walker.identifier?_of_mem_program
        (split ▸ List.mem_append_right _ List.mem_cons_self)
      cases hName.symm.trans hNone
  | inside visit split => exact ⟨_, _, _, _, _, ⟨_, visit⟩, split, rfl⟩

/-- The walk comes to an event that occurs. -/
theorem Occurs.arrives (h : Occurs settings root past event begun inMethod node before after) :
    ∃ future, Arrives settings root past (.emit event) future := by
  obtain ⟨rest, hVisit⟩ := h.visit
  exact ⟨_, h.past ▸ hVisit.inside h.split⟩

/-- An event that occurs at a node is one of the tasks there. -/
theorem Occurs.mem_tasks (h : Occurs settings root past event begun inMethod node before after) :
    .emit event ∈ Walker.tasks { settings, inMethod } node :=
  h.split ▸ List.mem_append_right _ List.mem_cons_self

/-- What is bound as an event occurs is among what the node binds. -/
theorem Occurs.mem_bindings (h : Occurs settings root past event begun inMethod node before after)
    (hBinding : event.binding? = some binding) : binding ∈ bindings settings node := by
  rw [← Walker.bindings_tasks { settings, inMethod }]
  exact Task.mem_bindings.2 ⟨event, h.mem_tasks, hBinding⟩

end Scoping
