import Scoping.Proofs.Walk.Arriving
import Scoping.Proofs.Walk.Work

/-! Where the definitions of a program stand: with which scopes open the walk
comes to each, by the node that brings it. -/

namespace Scoping

/-- The current scope is none that has just the name of a function in it. Nothing
but the function itself stands right in such a scope. -/
def Trail.InBody (trail : Trail) : Prop :=
  ∀ frame ∈ trail.head?, frame.kind ≠ .functionName

/-- The kind of the scope in which a definition of one of these kinds stands,
which is a scope of the node that defines. -/
def DefinitionKind.owner? : DefinitionKind → Option ScopeKind
  | .parameter => some .function
  | .catchClause => some .catchClause
  | .className => some .classBody
  | _ => none

/-- Where a definition stands that the visit of a node brings: the visit has
begun with the scopes of `trail` open, and those of `later` are open as the
definition comes. -/
inductive Stands (node : Node) (trail later : Trail) (destination : Destination)
    (definition : Definition) : Prop where
  | declared (role : Role.ofKind node.kind = .variableDeclaration) (kind : definition.kind = .variable)
      (parent : definition.parent = some node)
      (goes : destination = if definition.keyword = some "var" then .variableScope else .current)
      (here : later = trail)
  | looped (left : Node) (role : Role.ofKind node.kind = .forEach)
      (child : node.child? "left" = some left) (left_kind : left.kind = "VariableDeclaration")
      (kind : definition.kind = .variable) (parent : definition.parent = some left)
      (goes : destination = if definition.keyword = some "var" then .variableScope else .current)
  | imported (role : Role.ofKind node.kind = .importDeclaration)
      (kind : definition.kind = .importBinding) (parent : definition.parent = some node)
      (goes : destination = .current) (here : later = trail)
  | owned (scope : ScopeKind) (owner : definition.kind.owner? = some scope)
      (role : scope = .classBody → Role.ofKind node.kind = .classDefinition)
      (parent : definition.parent = none) (node_eq : definition.node = node)
      (goes : destination = .current)
      (inside : ∃ frame ∈ later.head?, frame.kind = scope ∧ frame.block = node)
  | outside (role : Role.ofKind node.kind = .classDefinition) (kind : definition.kind = .className)
      (parent : definition.parent = none) (node_eq : definition.node = node)
      (goes : destination = .current) (here : later = trail)
  | function (kind : definition.kind = .functionName) (parent : definition.parent = none)
      (node_kind : node.kind = "FunctionDeclaration") (node_eq : definition.node = node)
      (goes : destination = .functionDeclaration) (here : later = trail)

/-- What ends at a node: the declarators of a declaration, or of one in the head of
a loop, and a class. -/
inductive Ends (node ended : Node) : Prop where
  | declarator (role : Role.ofKind node.kind = .variableDeclaration)
      (mem : ended ∈ node.children "declarations")
  | head (left : Node) (role : Role.ofKind node.kind = .forEach)
      (child : node.child? "left" = some left) (left_kind : left.kind = "VariableDeclaration")
      (mem : ended ∈ left.children "declarations")
  | definition (role : Role.ofKind node.kind = .classDefinition) (eq : ended = node)

/-- What holds of the open scopes at a task of the visit of a node, and what the
node has to be. -/
def Task.Stands (node : Node) (trail later : Trail) : Task → Prop
  | .visit _ _ => later.InBody
  | .emit (.define destination _ definition) =>
      later.InBody ∧ Scoping.Stands node trail later destination definition
  | .emit (.enter .classBody block _) => Role.ofKind node.kind = .classDefinition ∧ block = node
  | .emit (.enter .functionName block _) => node.kind = "FunctionExpression" ∧ block = node
  | .emit (.endDeclaration ended) => Ends node ended
  | .emit .bodyStart => Role.ofKind node.kind = .function
  | .emit _ => True

variable {settings : Settings} {node : Node} {trail later : Trail} {task : Task}
  {tasks : List Task} {walker : Walker}

/-- A use defines nothing, so it may come anywhere in a body. -/
theorem Task.stands_of_isUse (hBody : later.InBody) (h : task.IsUse) :
    task.Stands node trail later := by
  rcases h with hSimple | ⟨use, rfl⟩
  · cases task with
    | visit inMethod inner => exact hBody
    | emit event =>
        cases event with
        | fail failure => trivial
        | _ => exact hSimple.elim
  · trivial

theorem Task.stands_of_isSimple (hBody : later.InBody) (h : task.IsSimple) :
    task.Stands node trail later :=
  stands_of_isUse hBody (.inl h)

namespace Trail

/-- Any scope but that of a function's name counts as a body. -/
theorem inBody_cons {frame : Frame} {rest : Trail} (h : frame.kind ≠ .functionName) :
    InBody (frame :: rest) := by
  intro other hOther
  rw [List.head?_cons, Option.mem_some_iff] at hOther
  exact hOther ▸ h

/-- Whether a scope is strict does not matter to what may stand in it. -/
theorem InBody.setStrict (h : trail.InBody) (number : Nat) (strict : Bool) :
    (trail.step settings ⟨number, .setStrict strict⟩).InBody := by
  cases trail with
  | nil => exact h
  | cons frame rest => exact inBody_cons (h frame rfl)

/-- Visits find the scopes as they are, and so does what comes after them. -/
theorem along_visits {rest : List Task} (h : Walker.Visiting node tasks) (hBody : later.InBody)
    (hRest : Along settings (Task.Stands node trail) later rest) :
    Along settings (Task.Stands node trail) later (tasks ++ rest) :=
  along_append_of_neutral h.neutral
    (fun task hTask => Task.stands_of_isSimple hBody (h.isSimple task hTask)) hRest

/-- The end of a node is the last thing that the work at it brings, but for the
end of a declaration. -/
theorem along_leave (block : Node) :
    Along settings (Task.Stands node trail) later [.emit (.leave block)] :=
  ⟨trivial, fun _ => trivial⟩

/-- What is inside a scope of a node that defines nothing there. -/
theorem along_within {kind : ScopeKind} (hKind : kind ≠ .functionName ∧ kind ≠ .classBody)
    {inMethod : Bool} {block : Node} {inside : List Task} (h : Walker.Visiting node inside) :
    Along settings (Task.Stands node trail) later (Walker.within kind inMethod block inside) := by
  refine ⟨?_, fun _ => along_visits h (inBody_cons hKind.1) (along_leave block)⟩
  cases kind with
  | functionName => exact absurd rfl hKind.1
  | classBody => exact absurd rfl hKind.2
  | _ => trivial

/-- A program defines nothing by itself. -/
theorem along_program (walker : Walker) :
    Along settings (Task.Stands node trail) later (walker.program node) := by
  have hEnd : ∀ {later : Trail}, later.InBody → Along settings (Task.Stands node trail) later
      (walker.descend node ++ [.emit (.leave node)]) := fun hBody =>
    along_visits Walker.visiting_descend hBody (along_leave node)
  have hStrict : ∀ {later : Trail}, later.InBody → Along settings (Task.Stands node trail) later
      ((if walker.settings.knowsStrict && walker.settings.options.impliedStrict then
        [.emit (.setStrict true)]
      else []) ++ (walker.descend node ++ [.emit (.leave node)])) := fun hBody => by
    split
    · exact ⟨trivial, fun number => hEnd (hBody.setStrict number true)⟩
    · exact hEnd hBody
  have hModule : ∀ {later : Trail}, later.InBody → Along settings (Task.Stands node trail) later
      ((if walker.settings.hasBlockScopes && walker.settings.isModule then
        [.emit (.enter .esModule node false)]
      else []) ++ ((if walker.settings.knowsStrict && walker.settings.options.impliedStrict then
        [.emit (.setStrict true)]
      else []) ++ (walker.descend node ++ [.emit (.leave node)]))) := fun hBody => by
    split
    · exact ⟨trivial, fun _ => hStrict (inBody_cons nofun)⟩
    · exact hStrict hBody
  unfold Walker.program
  simp only [List.append_assoc, List.cons_append]
  refine ⟨trivial, fun _ => ?_⟩
  split
  · exact ⟨trivial, fun _ => ⟨trivial, fun _ => hModule (inBody_cons nofun)⟩⟩
  · exact hModule (inBody_cons nofun)

/-- A variable stands where its declaration has it go, seen from the scopes at the
declaration. -/
theorem stands_of_declares {declaration declarator : Node} (hBody : later.InBody)
    (h : Walker.Declares declaration declarator task)
    (hStands : ∀ destination definition, definition.kind = .variable →
      definition.parent = some declaration →
      destination = (if definition.keyword = some "var" then .variableScope else .current) →
        Stands node trail later destination definition) :
    task.Stands node trail later := by
  obtain ⟨target, position, rfl⟩ := h.define
  exact ⟨hBody, hStands _ _ rfl rfl rfl⟩

/-- A definition by the owner of a scope stands in that scope. -/
theorem stands_of_owns {kind : DefinitionKind} {scope : ScopeKind} (hOwner : kind.owner? = some scope)
    (hRole : scope = .classBody → Role.ofKind node.kind = .classDefinition) (hBody : later.InBody) (h : Walker.Owns node kind task)
    (hInside : ∃ frame ∈ later.head?, frame.kind = scope ∧ frame.block = node) :
    task.Stands node trail later := by
  obtain ⟨identifier, definition, rfl, rfl, hNode, hParent⟩ := h.define
  exact ⟨hBody, .owned scope hOwner hRole hParent hNode rfl hInside⟩

/-- Each variable of a declaration stands as its kind has it. -/
theorem stands_of_mem_declareVariables (hRole : Role.ofKind node.kind = .variableDeclaration)
    (hBody : trail.InBody) {inLoopHead : Bool}
    (hTask : task ∈ walker.declareVariables node inLoopHead) : task.Stands node trail trail := by
  rcases Walker.mem_declareVariables hTask with hUse | ⟨declarator, hMem, hDeclares | ⟨-, rfl⟩⟩
  · exact Task.stands_of_isUse hBody hUse
  · exact stands_of_declares hBody hDeclares fun destination definition hKind hParent hGoes =>
      .declared hRole hKind hParent hGoes rfl
  · exact .declarator hRole hMem

/-- The head of a loop, and its body. -/
theorem along_loopOver (hRole : Role.ofKind node.kind = .forEach) (hBody : trail.InBody)
    {left right : Node} (hLeft : node.child? "left" = some left)
    (hRight : node.child? "right" = some right) :
    Along settings (Task.Stands node trail) trail (walker.loopOver node left right ++
      (walker.visitRequired node "body" ++ [.emit (.leave node)])) := by
  have hTask : ∀ {later : Trail}, later.InBody → ∀ task ∈ walker.loopOver node left right,
      task.Stands node trail later := fun hBody task hMem => by
    rcases Walker.mem_loopOver hMem with hUse | ⟨hKind, rfl | ⟨declarator, hEnds, hDeclares | rfl⟩⟩
    · exact Task.stands_of_isUse hBody hUse
    · trivial
    · exact stands_of_declares hBody hDeclares fun destination definition hDefines hParent hGoes =>
        .looped left hRole hLeft hKind hDefines hParent hGoes
    · exact .head left hRole hLeft hKind hEnds
  have hEnd : ∀ {later : Trail}, later.InBody → Along settings (Task.Stands node trail) later
      (walker.visitRequired node "body" ++ [.emit (.leave node)]) := fun hBody =>
    along_visits Walker.visiting_visitRequired hBody (along_leave node)
  obtain ⟨tasks, hNeutral, hEq⟩ := Walker.exists_loopOver_eq walker
    (Node.contains_of_child? hLeft) (Node.contains_of_child? hRight)
  rw [hEq] at hTask ⊢
  have hRest : ∀ {later : Trail}, later.InBody → Along settings (Task.Stands node trail) later
      (tasks ++ (walker.visitRequired node "body" ++ [.emit (.leave node)])) := fun hBody =>
    along_append_of_neutral hNeutral
      (fun task hMem => hTask hBody task (List.mem_append_right _ hMem)) (hEnd hBody)
  rw [List.append_assoc]
  split
  · exact ⟨trivial, fun _ => hRest (inBody_cons nofun)⟩
  · exact hRest hBody

/-- A scope of a node is the current one. -/
theorem exists_head_opening (settings : Settings) (number : Nat) (kind : ScopeKind)
    (inMethod : Bool) (rest : Trail) :
    ∃ frame ∈ (rest.opening settings number kind node inMethod :: rest).head?,
      frame.kind = kind ∧ frame.block = node :=
  ⟨_, rfl, rfl, rfl⟩

/-- The name of a function and its parameters stand in three scopes: around it, of its name,
and its own. -/
theorem along_defineFunction (hRole : Role.ofKind node.kind = .function) (hBody : trail.InBody)
    (walker : Walker) :
    Along settings (Task.Stands node trail) trail (walker.defineFunction node) := by
  have hInside : ∀ later : Trail, Along settings (Task.Stands node trail) later
      (.emit (.enter .function node walker.inMethod) :: (walker.defineParameters node ++
        (.emit .bodyStart :: (walker.visitRequired node "body" ++ [.emit (.leave node)])))) := by
    refine fun later => ⟨trivial, fun number => ?_⟩
    refine along_append_of_neutral Walker.neutral_defineParameters (fun task hTask => ?_)
      ⟨hRole, fun _ => along_visits Walker.visiting_visitRequired (inBody_cons nofun)
        (along_leave node)⟩
    rcases Walker.mem_defineParameters hTask with hUse | hOwns
    · exact Task.stands_of_isUse (inBody_cons nofun) hUse
    · exact stands_of_owns rfl (fun hEq => by cases hEq) (inBody_cons nofun) hOwns (exists_head_opening _ _ _ _ _)
  unfold Walker.defineFunction
  simp only [List.append_assoc, List.cons_append]
  have hNamed : Along settings (Task.Stands node trail) trail
      ((if node.kind = "FunctionExpression" && (node.child? "id").isSome then
        [.emit (.enter .functionName node false)]
      else []) ++ (.emit (.enter .function node walker.inMethod) ::
        (walker.defineParameters node ++ (.emit .bodyStart ::
          (walker.visitRequired node "body" ++ [.emit (.leave node)]))))) := by
    split
    · next hNamed => exact ⟨⟨by simp_all, rfl⟩, fun _ => hInside _⟩
    · exact hInside trail
  split
  · next hKind =>
      unfold Walker.optional
      split
      · exact ⟨⟨hBody, .function rfl rfl hKind rfl rfl rfl⟩, fun _ => hNamed⟩
      · exact hNamed
  · exact hNamed

/-- The name of a class stands around it and in it. -/
theorem along_defineClass (hRole : Role.ofKind node.kind = .classDefinition) (hBody : trail.InBody)
    (walker : Walker) :
    Along settings (Task.Stands node trail) trail (walker.defineClass node) := by
  have hInside : ∀ later : Trail, Along settings (Task.Stands node trail) later
      (.emit (.enter .classBody node false) :: (Walker.defineClassName node ++
        (walker.visitRequired node "body" ++
          [.emit (.leave node), .emit (.endDeclaration node)]))) := by
    refine fun later => ⟨⟨hRole, rfl⟩, fun number => ?_⟩
    refine along_append_of_neutral Walker.neutral_defineClassName (fun task hTask => ?_)
      (along_visits Walker.visiting_visitRequired (inBody_cons nofun)
        ⟨trivial, fun _ => ⟨.definition hRole rfl, fun _ => trivial⟩⟩)
    exact stands_of_owns rfl (fun _ => hRole) (inBody_cons nofun) (Walker.mem_defineClassName hTask)
      (exists_head_opening _ _ _ _ _)
  unfold Walker.defineClass
  simp only [List.append_assoc, List.cons_append]
  have hSuper : Along settings (Task.Stands node trail) trail
      (walker.visitOptional node "superClass" ++ (.emit (.enter .classBody node false) ::
        (Walker.defineClassName node ++ (walker.visitRequired node "body" ++
          [.emit (.leave node), .emit (.endDeclaration node)])))) :=
    along_visits Walker.visiting_visitOptional hBody (hInside trail)
  split
  · refine along_append_of_neutral Walker.neutral_defineClassName (fun task hTask => ?_) hSuper
    obtain ⟨identifier, definition, rfl, hKind, hNode, hParent⟩ :=
      (Walker.mem_defineClassName hTask).define
    exact ⟨hBody, .outside hRole hKind hParent hNode rfl rfl⟩
  · exact hSuper

/-- The parameter of a clause that catches stands in the scope of the clause. -/
theorem along_catchError (walker : Walker) :
    Along settings (Task.Stands node trail) trail (walker.catchError node) := by
  unfold Walker.catchError
  simp only [List.append_assoc, List.cons_append]
  refine ⟨trivial, fun number => along_append_of_neutral Walker.neutral_catchParameter
    (fun task hTask => ?_) (along_visits Walker.visiting_visitRequired (inBody_cons nofun)
      (along_leave node))⟩
  rcases Walker.mem_catchParameter hTask with hUse | hOwns
  · exact Task.stands_of_isUse (inBody_cons nofun) hUse
  · exact stands_of_owns rfl (fun hEq => by cases hEq) (inBody_cons nofun) hOwns (exists_head_opening _ _ _ _ _)

/-- Imported names stand in the scope of the import. -/
theorem stands_of_mem_importNames (hRole : Role.ofKind node.kind = .importDeclaration)
    (hBody : trail.InBody) (hTask : task ∈ walker.importNames node) : task.Stands node trail trail := by
  rcases Walker.mem_importNames hTask with hSimple | ⟨identifier, definition, rfl, hKind, hParent⟩
  · exact Task.stands_of_isSimple hBody hSimple
  · exact ⟨hBody, .imported hRole hKind hParent rfl rfl⟩

/-- What a node does that leaves the open scopes as they are stands right, wherever in its
work it comes. -/
theorem stands_of_mem_tasks (hNeutral : (Role.ofKind node.kind).isNeutral) (hBody : trail.InBody)
    (hTask : task ∈ walker.tasks node) : task.Stands node trail trail := by
  have hSimple : task.IsSimple → task.Stands node trail trail := Task.stands_of_isSimple hBody
  unfold Walker.tasks at hTask
  cases hRole : Role.ofKind node.kind <;> simp only [hRole] at hTask
  case identifier | thisExpression =>
    rw [List.mem_singleton.1 hTask]
    trivial
  case silent => cases hTask
  case assignment =>
    rcases List.mem_append.1 hTask with hLeft | hRight
    · rcases Walker.mem_required hLeft with hFails | ⟨left, -, hMem⟩
      · exact hSimple hFails
      · exact Task.stands_of_isUse hBody (Walker.isUse_of_mem_assign hMem)
    · exact hSimple (Walker.isSimple_of_mem_visitRequired hRight)
  case update =>
    rcases Walker.mem_required hTask with hFails | ⟨argument, -, hMem⟩
    · exact hSimple hFails
    · split at hMem
      · rw [List.mem_singleton.1 hMem]
        trivial
      · exact hSimple (Walker.isSimple_of_mem_descend hMem)
  case member =>
    exact hSimple ((List.mem_append.1 hTask).elim Walker.isSimple_of_mem_visitRequired
      Walker.isSimple_of_mem_visitComputed)
  case property =>
    exact hSimple ((List.mem_append.1 hTask).elim Walker.isSimple_of_mem_visitComputed
      Walker.isSimple_of_mem_visitOptional)
  case method =>
    exact hSimple ((List.mem_append.1 hTask).elim Walker.isSimple_of_mem_visitComputed
      Walker.isSimple_of_mem_visitRequired)
  case labelled => exact hSimple (Walker.isSimple_of_mem_visitRequired hTask)
  case call =>
    rcases List.mem_append.1 hTask with hCallee | hMem
    · rcases Walker.mem_required hCallee with hFails | ⟨callee, -, hMem⟩
      · exact hSimple hFails
      · split at hMem
        · rw [List.mem_singleton.1 hMem]
          trivial
        · cases hMem
    · exact hSimple (Walker.isSimple_of_mem_descend hMem)
  case variableDeclaration => exact stands_of_mem_declareVariables hRole hBody hTask
  case importDeclaration =>
    split at hTask
    · exact stands_of_mem_importNames hRole hBody hTask
    · cases hTask
  case exportDeclaration =>
    split at hTask
    · cases hTask
    · split at hTask
      · rw [List.mem_singleton.1 hTask]
        exact hBody
      · exact hSimple (Walker.isSimple_of_mem_descend hTask)
  case exportSpecifier => exact hSimple (Walker.isSimple_of_mem_visitOptional hTask)
  case plain => exact hSimple (Walker.isSimple_of_mem_descend hTask)
  all_goals exact absurd (hRole ▸ hNeutral) nofun

/-- Whatever a node is, the work at it stands right. -/
theorem along_tasks (hBody : trail.InBody) (walker : Walker) :
    Along settings (Task.Stands node trail) trail (walker.tasks node) := by
  by_cases hNeutral : (Role.ofKind node.kind).isNeutral
  · exact along_of_neutral (Walker.neutral_tasks hNeutral) fun _ => stands_of_mem_tasks hNeutral hBody
  have hDescend : ∀ {later : Trail}, later.InBody → Along settings (Task.Stands node trail) later
      (walker.descend node ++ [.emit (.leave node)]) := fun hBody =>
    along_visits Walker.visiting_descend hBody (along_leave node)
  unfold Walker.tasks
  cases hRole : Role.ofKind node.kind <;> dsimp only
  case program => exact along_program walker
  case field =>
    refine along_visits Walker.visiting_visitComputed hBody ?_
    unfold Walker.optional
    split
    · exact ⟨trivial, fun _ => ⟨inBody_cons nofun, trivial, fun _ => trivial⟩⟩
    · trivial
  case staticBlock => exact along_within (by decide) Walker.visiting_descend
  case forLoop =>
    rw [List.append_assoc]
    split
    · exact ⟨trivial, fun _ => hDescend (inBody_cons nofun)⟩
    · exact hDescend hBody
  case forEach =>
    unfold Walker.required
    split
    · next left hLeft =>
        split
        · next right hRight =>
            dsimp only
            rw [List.append_assoc]
            exact along_loopOver hRole hBody hLeft hRight
        · exact ⟨trivial, fun _ => trivial⟩
    · exact ⟨trivial, fun _ => trivial⟩
  case classDefinition => exact along_defineClass hRole hBody walker
  case block =>
    split
    · exact along_within (by decide) Walker.visiting_descend
    · exact hDescend hBody
  case withStatement =>
    exact along_visits Walker.visiting_visitRequired hBody
      (along_within (by decide) Walker.visiting_visitRequired)
  case switchStatement =>
    refine along_visits Walker.visiting_visitRequired hBody ?_
    split
    · exact along_within (by decide) Walker.visiting_cases
    · exact along_visits Walker.visiting_cases hBody (along_leave node)
  case function => exact along_defineFunction hRole hBody walker
  case catchClause => exact along_catchError walker
  all_goals exact absurd (hRole ▸ rfl) hNeutral

end Trail

end Scoping
