import Scoping.Tree.PatternLemmas
import Scoping.Walk.Task

namespace Scoping

namespace Event

/-- An event that leaves the open scopes as they are. That a child is missing is
the only failure that a walk finds by itself. -/
def IsPlain : Event → Prop
  | .define .. | .use _ | .directEval | .thisExpression | .endDeclaration _ => True
  | .fail failure => failure.IsMissingField
  | .enter .. | .leave _ | .setStrict _ | .bodyStart => False

/-- An event that says something of the current scope, which has to be one of
the node at hand. -/
def Marks : Event → Prop
  | .setStrict _ | .bodyStart => True
  | _ => False

end Event

/-- A plain event, or a visit of a node that is inside the one at hand. -/
def Task.IsNeutral (node : Node) : Task → Prop
  | .emit event => event.IsPlain
  | .visit _ inner => node.Contains inner

/-- The work at a node: it visits only what is inside the node, and opens and
closes only scopes of the node. The flag says that one of those is the current
scope, and in the end none of them is left open. The one scope of another node
is that of the value of a field, which is opened and closed around its visit. -/
inductive Contained (node : Node) : Bool → List Task → Prop where
  | nil : Contained node false []
  | neutral {own : Bool} {task : Task} {tasks : List Task} (h : task.IsNeutral node)
      (rest : Contained node own tasks) : Contained node own (task :: tasks)
  | mark {event : Event} {tasks : List Task} (h : event.Marks) (rest : Contained node true tasks) :
      Contained node true (.emit event :: tasks)
  | enter {own : Bool} {kind : ScopeKind} {inMethod : Bool} {tasks : List Task}
      (h : kind = .global → node.kind = "Program") (rest : Contained node true tasks) :
      Contained node own (.emit (.enter kind node inMethod) :: tasks)
  | leave {own : Bool} {tasks : List Task} (rest : Contained node false tasks) :
      Contained node own (.emit (.leave node) :: tasks)
  | field {own inMethod : Bool} {value : Node} {tasks : List Task} (h : node.Contains value)
      (rest : Contained node own tasks) :
      Contained node own (.emit (.enter .fieldInitializer value true) :: .visit inMethod value ::
        .emit (.leave value) :: tasks)

/-- The roles for which the work at a node leaves the open scopes as they are. -/
def Role.isNeutral : Role → Bool
  | .program | .field | .staticBlock | .forLoop | .forEach | .classDefinition | .block
  | .withStatement | .switchStatement | .function | .catchClause => false
  | _ => true

namespace Walker

def Neutral (node : Node) (tasks : List Task) : Prop :=
  ∀ task ∈ tasks, task.IsNeutral node

variable {walker : Walker} {node : Node} {own : Bool}

/-- Neutral work first does not matter to whether what follows is contained. -/
theorem Neutral.contained_append {first rest : List Task} (h : Neutral node first)
    (hRest : Contained node own rest) : Contained node own (first ++ rest) := by
  induction first with
  | nil => exact hRest
  | cons task first ih =>
      exact .neutral (h task List.mem_cons_self)
        (ih fun inner hInner => h inner (List.mem_cons_of_mem _ hInner))

/-- Neutral work opens nothing, so it needs no scope of the node to be open. -/
theorem Neutral.contained {tasks : List Task} (h : Neutral node tasks) :
    Contained node false tasks := by
  have hAppend := h.contained_append .nil
  rwa [List.append_nil] at hAppend

@[simp] theorem neutral_nil : Neutral node [] :=
  fun _ h => nomatch h

@[simp] theorem neutral_emit {event : Event} {tasks : List Task} :
    Neutral node (.emit event :: tasks) ↔ event.IsPlain ∧ Neutral node tasks := by
  simp [Neutral, Task.IsNeutral]

@[simp] theorem neutral_visit {inner : Node} {tasks : List Task} :
    Neutral node (walker.visit inner :: tasks) ↔ node.Contains inner ∧ Neutral node tasks := by
  simp [Neutral, visit, Task.IsNeutral]

@[simp] theorem neutral_append {a b : List Task} :
    Neutral node (a ++ b) ↔ Neutral node a ∧ Neutral node b := by
  simp only [Neutral, List.mem_append, or_imp, forall_and]

/-- Plain events are neutral at any node. -/
theorem neutral_map_emit {events : List Event} (h : ∀ event ∈ events, event.IsPlain) :
    Neutral node (events.map .emit) := by
  intro task hTask
  obtain ⟨event, hEvent, rfl⟩ := List.mem_map.1 hTask
  exact h event hEvent

theorem neutral_flatMap {α : Type} {items : List α} {f : α → List Task}
    (h : ∀ item ∈ items, Neutral node (f item)) : Neutral node (items.flatMap f) := by
  intro task hTask
  obtain ⟨item, hItem, hMem⟩ := List.mem_flatMap.1 hTask
  exact h item hItem task hMem

/-- Work that is neutral at a child is so at the node, as all that is inside the child is
inside the node. -/
theorem Neutral.trans {child : Node} {tasks : List Task} (h : Neutral child tasks)
    (hChild : node.Contains child) : Neutral node tasks := by
  intro task hTask
  have hInner := h task hTask
  cases task with
  | emit event => exact hInner
  | visit inMethod inner => exact hChild.trans hInner

/-- Visits are neutral just if what they visit is inside the node. -/
theorem neutral_map_visit {nodes : List Node} :
    Neutral node (nodes.map walker.visit) ↔ Pattern.Inside node nodes := by
  simp [Neutral, Pattern.Inside, visit, Task.IsNeutral]

@[simp] theorem neutral_descend : Neutral node (walker.descend node) :=
  neutral_map_visit.2 fun _ h => ChildKeys.contains_of_mem_children h

/-- A child that has to be there fails the walk if it is missing, and failing opens no
scope. -/
theorem neutral_required {name : String} {next : Node → List Task}
    (h : ∀ child, node.child? name = some child → Neutral node (next child)) :
    Neutral node (required node name next) := by
  unfold required
  split
  · next child hChild => exact h child hChild
  · exact neutral_emit.2 ⟨⟨_, _, rfl⟩, neutral_nil⟩

theorem neutral_optional {name : String} {next : Node → List Task}
    (h : ∀ child, node.child? name = some child → Neutral node (next child)) :
    Neutral node (optional node name next) := by
  unfold optional
  split
  · next child hChild => exact h child hChild
  · simp

@[simp] theorem neutral_visitRequired {name : String} :
    Neutral node (walker.visitRequired node name) :=
  neutral_required fun _ h => by simp [Node.contains_of_child? h]

@[simp] theorem neutral_visitOptional {name : String} :
    Neutral node (walker.visitOptional node name) :=
  neutral_optional fun _ h => by simp [Node.contains_of_child? h]

@[simp] theorem neutral_visitComputed {name : String} :
    Neutral node (walker.visitComputed node name) := by
  unfold visitComputed
  split <;> simp

/-- Events for each target of a pattern, all of them plain. -/
def PlainFor (each : Target → List Event) : Prop :=
  ∀ target, ∀ event ∈ each target, event.IsPlain

theorem PlainFor.flatMap {each : Target → List Event} (h : PlainFor each) (targets : List Target) :
    ∀ event ∈ targets.flatMap each, event.IsPlain := by
  intro event hEvent
  obtain ⟨target, _, hMem⟩ := List.mem_flatMap.1 hEvent
  exact h target event hMem

/-- The writes of default values are uses, so no scope opens for them. -/
theorem plain_writeDefaults (target : Target) (implicitGlobal : Option Node) (init : Bool) :
    ∀ event ∈ writeDefaults target implicitGlobal init, event.IsPlain := by
  intro event hEvent
  obtain ⟨assignment, _, rfl⟩ := List.mem_map.1 hEvent
  trivial

/-- Binding a pattern is as plain as the events for its targets are. -/
theorem neutral_bind {pattern : Node} {each : Target → List Event} (h : PlainFor each) :
    Neutral node (walker.bind pattern each) := by
  unfold bind
  split
  · next failure hFailure =>
      exact neutral_emit.2 ⟨Pattern.isMissingField_of_ofNode hFailure, neutral_nil⟩
  · exact neutral_map_emit (h.flatMap _)

/-- Binding a pattern and visiting its code stays inside the node, if the pattern does. -/
theorem neutral_bindAndVisit {pattern : Node} {each : Target → List Event} (h : PlainFor each)
    (hPattern : node.Contains pattern) : Neutral node (walker.bindAndVisit pattern each) := by
  unfold bindAndVisit
  split
  · next failure hFailure =>
      exact neutral_emit.2 ⟨Pattern.isMissingField_of_ofNode hFailure, neutral_nil⟩
  · next found hFound =>
      rw [neutral_append]
      exact ⟨neutral_map_emit (h.flatMap _),
        neutral_map_visit.2 ((Pattern.inside_ofNode hFound).trans hPattern)⟩

/-- Both sides of an assignment are inside of it, whatever its left side is. -/
theorem neutral_assign {left : Node} (h : node.Contains left) :
    Neutral node (walker.assign node left) := by
  unfold assign
  split
  · simp [h]
  · split
    · refine neutral_bindAndVisit (fun target event hEvent => ?_) h
      rcases List.mem_append.1 hEvent with hDefault | hWrite
      · exact plain_writeDefaults _ _ _ event hDefault
      · rw [List.mem_singleton.1 hWrite]
        trivial
    · simp [Event.IsPlain]

theorem neutral_declareTargets {declaration declarator : Node} {position : Nat}
    (h : node.Contains declarator) :
    Neutral node (walker.declareTargets declaration declarator position) := by
  refine Neutral.trans (neutral_required fun _ hId =>
    neutral_bindAndVisit (fun target event hEvent => ?_) (Node.contains_of_child? hId)) h
  rcases List.mem_cons.1 hEvent with rfl | hEvent
  · trivial
  · rcases List.mem_append.1 hEvent with hDefault | hWrite
    · exact plain_writeDefaults _ _ _ event hDefault
    · split at hWrite
      · cases hWrite
      · rw [List.mem_singleton.1 hWrite]
        trivial

/-- A declaration binds its declarators and visits their initial values. It never opens a
scope. -/
theorem neutral_declareVariables {declaration : Node} {inLoopHead : Bool}
    (h : ∀ declarator ∈ declaration.children "declarations", node.Contains declarator) :
    Neutral node (walker.declareVariables declaration inLoopHead) := by
  refine neutral_flatMap fun (declarator, position) hMem => ?_
  have hDeclarator := h declarator (List.fst_mem_of_mem_zipIdx hMem)
  rw [neutral_append, neutral_append]
  refine ⟨⟨neutral_declareTargets hDeclarator,
    Neutral.trans neutral_visitOptional hDeclarator⟩, ?_⟩
  split <;> simp [Event.IsPlain]

theorem neutral_ends {declarators : List Node} :
    Neutral node (declarators.map fun declarator => .emit (.endDeclaration declarator)) := by
  intro task h
  obtain ⟨declarator, _, rfl⟩ := List.mem_map.1 h
  trivial

/-- The first declarator of a loop takes the values that the loop is over. -/
theorem neutral_firstTargets {left right : Node}
    (h : ∀ declarator ∈ left.children "declarations", node.Contains declarator) :
    Neutral node
      (match (left.children "declarations").head? with
        | none => []
        | some declarator =>
            required declarator "id" fun id => walker.bind id fun target =>
              [.use {
                identifier := target.identifier
                access := .write
                writeExpr := right
                isPartial := true
                init := true }]) := by
  split
  · simp
  · next declarator hHead =>
      have hMem := List.mem_of_mem_head? (Option.mem_def.2 hHead)
      refine Neutral.trans (neutral_required fun _ _ => neutral_bind fun target event hEvent => ?_)
        (h declarator hMem)
      rw [List.mem_singleton.1 hEvent]
      trivial

/-- The head of a loop opens a scope just if it is a lexical declaration. -/
theorem exists_loopOver_eq (walker : Walker) {left right : Node} (hLeft : node.Contains left)
    (hRight : node.Contains right) :
    ∃ tasks, Neutral node tasks ∧ walker.loopOver node left right =
      (if isLexicalDeclaration left then [.emit (.enter .forHead node false)] else []) ++ tasks := by
  have hDeclarators : ∀ declarator ∈ left.children "declarations", node.Contains declarator :=
    fun _ hMem => hLeft.trans (Node.contains_of_mem_children hMem)
  unfold loopOver
  split
  · simp only [List.append_assoc]
    refine ⟨_, ?_, rfl⟩
    rw [neutral_append, neutral_append]
    exact ⟨neutral_declareVariables hDeclarators, neutral_firstTargets hDeclarators,
      neutral_visit.2 ⟨hRight, neutral_ends⟩⟩
  · next hKind =>
      have hPlain : isLexicalDeclaration left = false := by simp [isLexicalDeclaration, hKind]
      rw [hPlain]
      refine ⟨_, neutral_append.2 ⟨neutral_bindAndVisit (fun target event hEvent => ?_) hLeft,
        neutral_visit.2 ⟨hRight, neutral_nil⟩⟩, rfl⟩
      rcases List.mem_append.1 hEvent with hDefault | hWrite
      · exact plain_writeDefaults _ _ _ event hDefault
      · rw [List.mem_singleton.1 hWrite]
        trivial

/-- The end of a loop closes the scope that its head may have opened. -/
theorem contained_loopOver {left right : Node} {rest : List Task} (hLeft : node.Contains left)
    (hRight : node.Contains right) (hRest : ∀ own, Contained node own rest) :
    Contained node false (walker.loopOver node left right ++ rest) := by
  obtain ⟨tasks, hTasks, hEq⟩ := exists_loopOver_eq walker hLeft hRight
  rw [hEq, List.append_assoc]
  split
  · exact .enter nofun (hTasks.contained_append (hRest true))
  · exact hTasks.contained_append (hRest false)

@[simp] theorem neutral_defineParameters : Neutral node (walker.defineParameters node) := by
  refine neutral_flatMap fun (parameter, position) hMem => ?_
  refine neutral_bindAndVisit (fun target event hEvent => ?_)
    (Node.contains_of_mem_children (List.fst_mem_of_mem_zipIdx hMem))
  rcases List.mem_cons.1 hEvent with rfl | hDefault
  · trivial
  · exact plain_writeDefaults _ _ _ event hDefault

/-- The declaration of a function gives it its name. -/
theorem neutral_functionName : Neutral node (if node.kind = "FunctionDeclaration" then
    optional node "id" fun name =>
      [.emit (.define .functionDeclaration name { kind := .functionName, name, node })]
    else []) := by
  split
  · exact neutral_optional fun _ _ => by simp [Event.IsPlain]
  · exact neutral_nil

/-- A function may open two scopes, one for its own name, and it closes both of them at its
end. -/
theorem contained_defineFunction : Contained node false (walker.defineFunction node) := by
  have hBody : ∀ own, Contained node own (.emit (.enter .function node walker.inMethod) ::
      walker.defineParameters node ++ .emit .bodyStart :: walker.visitRequired node "body" ++
      [.emit (.leave node)]) := by
    intro own
    simp only [List.cons_append, List.append_assoc]
    exact .enter nofun (neutral_defineParameters.contained_append (.mark trivial
      (neutral_visitRequired.contained_append (.leave .nil))))
  unfold defineFunction
  simp only [List.append_assoc] at hBody ⊢
  refine neutral_functionName.contained_append ?_
  split
  · exact .enter nofun (hBody true)
  · exact hBody false

@[simp] theorem neutral_defineClassName : Neutral node (defineClassName node) :=
  neutral_optional fun _ _ => by simp [Event.IsPlain]

/-- A class closes the scope of its name and members at its end. The name outside is defined
before. -/
theorem contained_defineClass : Contained node false (walker.defineClass node) := by
  unfold defineClass
  simp only [List.append_assoc, List.cons_append]
  refine Neutral.contained_append ?_ (neutral_visitOptional.contained_append (.enter nofun
    (neutral_defineClassName.contained_append (neutral_visitRequired.contained_append
      (.leave (.neutral trivial .nil))))))
  split <;> simp

/-- The parameter of a clause that catches is bound in the scope that is open by then. -/
theorem neutral_catchParameter : Neutral node (optional node "param" fun parameter =>
    walker.bindAndVisit parameter fun target =>
      .define .current target.identifier { kind := .catchClause, name := parameter, node } ::
        writeDefaults target none true) := by
  refine neutral_optional fun _ h =>
    neutral_bindAndVisit (fun target event hEvent => ?_) (Node.contains_of_child? h)
  rcases List.mem_cons.1 hEvent with rfl | hDefault
  · trivial
  · exact plain_writeDefaults _ _ _ event hDefault

/-- The scope of a clause that catches is open around its parameter and its body. -/
theorem contained_catchError : Contained node false (walker.catchError node) := by
  unfold catchError
  simp only [List.append_assoc, List.cons_append]
  exact .enter nofun (neutral_catchParameter.contained_append
    (neutral_visitRequired.contained_append (.leave .nil)))

/-- One step of the search for specifiers, which stops at each that it finds. -/
theorem importSpecifiers_eq {keys : ChildKeys} {node : Node} :
    importSpecifiers keys node =
      if isImportSpecifier node then [node]
      else (keys.children node).flatMap (importSpecifiers keys) := by
  rw [importSpecifiers]
  split
  · rfl
  · simp [List.flatMap_subtype]

/-- The local name of an import is a child of its specifier. -/
theorem contains_importedName? {node name : Node} (h : importedName? node = some name) :
    node.Contains name := by
  unfold importedName? at h
  split at h
  · exact Node.contains_of_child? h
  · exact Node.contains_of_child? h
  · rcases Option.or_eq_some_iff.1 h with hLocal | ⟨-, hImported⟩
    · exact Node.contains_of_child? hLocal
    · exact Node.contains_of_child? hImported
  · cases h

/-- Imports define names where the declaration stands, and visit nothing. -/
theorem neutral_importNames : Neutral node (walker.importNames node) := by
  refine neutral_flatMap fun specifier _ => ?_
  split
  · simp
  · refine neutral_bind fun target event hEvent => ?_
    rw [List.mem_singleton.1 hEvent]
    trivial

/-- After its first scope a program opens no other global one. -/
theorem exists_contained_program (walker : Walker) (node : Node) :
    ∃ rest, walker.program node = .emit (.enter .global node false) :: rest ∧
      Contained node true rest := by
  have hEnd : Contained node true (walker.descend node ++ [.emit (.leave node)]) :=
    neutral_descend.contained_append (.leave .nil)
  have hStrict : Contained node true
      ((if walker.settings.knowsStrict && walker.settings.options.impliedStrict then
        [.emit (.setStrict true)]
      else []) ++ (walker.descend node ++ [.emit (.leave node)])) := by
    split
    · exact .mark trivial hEnd
    · exact hEnd
  have hModule : Contained node true
      ((if walker.settings.hasBlockScopes && walker.settings.isModule then
        [.emit (.enter .esModule node false)]
      else []) ++ ((if walker.settings.knowsStrict && walker.settings.options.impliedStrict then
        [.emit (.setStrict true)]
      else []) ++ (walker.descend node ++ [.emit (.leave node)]))) := by
    split
    · exact .enter nofun hStrict
    · exact hStrict
  unfold program
  simp only [List.append_assoc, List.cons_append]
  refine ⟨_, rfl, ?_⟩
  split
  · exact .mark trivial (.enter nofun hModule)
  · exact hModule

/-- A program opens and closes its own scopes around all that it visits. -/
theorem contained_program (h : node.kind = "Program") :
    Contained node false (walker.program node) := by
  obtain ⟨rest, hProgram, hRest⟩ := exists_contained_program walker node
  rw [hProgram]
  exact .enter (fun _ => h) hRest

/-- Neutral work in a scope of the node, which is opened before and closed after. -/
theorem contained_within {kind : ScopeKind} {inMethod : Bool} {inside : List Task}
    (hKind : kind ≠ .global) (h : Neutral node inside) :
    Contained node false (within kind inMethod node inside) :=
  .enter (fun hGlobal => absurd hGlobal hKind) (h.contained_append (.leave .nil))

/-- For these roles the work at a node neither opens nor closes a scope. -/
theorem neutral_tasks (h : (Role.ofKind node.kind).isNeutral) : Neutral node (walker.tasks node) := by
  unfold tasks
  cases hRole : Role.ofKind node.kind <;> dsimp only
  case program | field | staticBlock | forLoop | forEach | classDefinition | block | withStatement |
      switchStatement | function | catchClause => exact absurd (hRole ▸ h) nofun
  case assignment =>
    exact neutral_append.2 ⟨neutral_required fun _ hLeft =>
      neutral_assign (Node.contains_of_child? hLeft), neutral_visitRequired⟩
  case update =>
    refine neutral_required fun _ _ => ?_
    split <;> simp [Event.IsPlain]
  case call =>
    refine neutral_append.2 ⟨neutral_required fun _ _ => ?_, neutral_descend⟩
    split <;> simp [Event.IsPlain]
  case variableDeclaration =>
    exact neutral_declareVariables fun _ hMem => Node.contains_of_mem_children hMem
  case importDeclaration =>
    split
    · exact neutral_importNames
    · exact neutral_nil
  case exportDeclaration =>
    split
    · exact neutral_nil
    · split
      · next declaration hDeclaration => simp [Node.contains_of_child? hDeclaration]
      · exact neutral_descend
  all_goals simp [Event.IsPlain]

theorem neutral_cases : Neutral node ((node.children "cases").map walker.visit) :=
  neutral_map_visit.2 (Pattern.inside_children node "cases")

/-- The tasks at a node are contained in the node. This is why a walk ends, and
why it leaves no scope open. -/
theorem contained_tasks : Contained node false (walker.tasks node) := by
  by_cases hNeutral : (Role.ofKind node.kind).isNeutral
  · exact (neutral_tasks hNeutral).contained
  unfold tasks
  cases hRole : Role.ofKind node.kind <;> dsimp only
  case program => exact contained_program (Role.kind_eq hRole rfl)
  case field =>
    refine neutral_visitComputed.contained_append ?_
    unfold optional
    split
    · next value hValue => exact .field (Node.contains_of_child? hValue) .nil
    · exact .nil
  case staticBlock => exact contained_within nofun neutral_descend
  case forLoop =>
    have hEnd : ∀ own, Contained node own (walker.descend node ++ [.emit (.leave node)]) :=
      fun own => neutral_descend.contained_append (.leave .nil)
    rw [List.append_assoc]
    split
    · exact .enter nofun (hEnd true)
    · exact hEnd false
  case forEach =>
    have hEnd : ∀ own, Contained node own (walker.visitRequired node "body" ++
        [.emit (.leave node)]) := fun own => neutral_visitRequired.contained_append (.leave .nil)
    unfold required
    split
    · next left hLeft =>
        split
        · next right hRight =>
            dsimp only
            rw [List.append_assoc]
            exact contained_loopOver (Node.contains_of_child? hLeft)
              (Node.contains_of_child? hRight) hEnd
        · exact .neutral ⟨_, _, rfl⟩ .nil
    · exact .neutral ⟨_, _, rfl⟩ .nil
  case classDefinition => exact contained_defineClass
  case block =>
    split
    · exact contained_within nofun neutral_descend
    · exact neutral_descend.contained_append (.leave .nil)
  case withStatement =>
    exact neutral_visitRequired.contained_append (contained_within nofun neutral_visitRequired)
  case switchStatement =>
    refine neutral_visitRequired.contained_append ?_
    split
    · exact contained_within nofun neutral_cases
    · exact neutral_cases.contained_append (.leave .nil)
  case function => exact contained_defineFunction
  case catchClause => exact contained_catchError
  all_goals exact absurd (hRole ▸ rfl) hNeutral

end Walker

/-- Contained work visits only nodes inside the node, in whatever scope it does so. -/
theorem Contained.contains {node inner : Node} {own inMethod : Bool} {tasks : List Task}
    (h : Contained node own tasks) (hVisit : .visit inMethod inner ∈ tasks) :
    node.Contains inner := by
  induction h with
  | nil => cases hVisit
  | neutral hNeutral _ ih =>
      rcases List.mem_cons.1 hVisit with rfl | hRest
      · exact hNeutral
      · exact ih hRest
  | mark _ _ ih | enter _ _ ih | leave _ ih =>
      rcases List.mem_cons.1 hVisit with hEq | hRest
      · cases hEq
      · exact ih hRest
  | field hValue _ ih =>
      simp only [List.mem_cons, reduceCtorEq, Task.visit.injEq, false_or] at hVisit
      rcases hVisit with ⟨-, rfl⟩ | hRest
      · exact hValue
      · exact ih hRest

end Scoping
