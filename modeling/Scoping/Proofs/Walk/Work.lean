import Scoping.Walk.Inside

/-! What the work at a node is made of, however the node fills its fields. -/

namespace Scoping

/-- The visit of a node, or the failure to find one. -/
def Task.IsSimple : Task → Prop
  | .visit _ _ | .emit (.fail _) => True
  | .emit _ => False

/-- A task of work that defines nothing: besides visits it records uses. -/
def Task.IsUse (task : Task) : Prop :=
  task.IsSimple ∨ ∃ use, task = .emit (.use use)

namespace Walker

variable {walker : Walker} {node : Node} {task : Task} {name : String}

/-- A child that has to be there: the work for it, or a failure. -/
theorem mem_required {next : Node → List Task} (h : task ∈ required node name next) :
    task.IsSimple ∨ ∃ child, node.child? name = some child ∧ task ∈ next child := by
  unfold required at h
  split at h
  · next child hChild => exact .inr ⟨child, hChild, h⟩
  · rw [List.mem_singleton.1 h]
    exact .inl trivial

theorem mem_optional {next : Node → List Task} (h : task ∈ optional node name next) :
    ∃ child, node.child? name = some child ∧ task ∈ next child := by
  unfold optional at h
  split at h
  · next child hChild => exact ⟨child, hChild, h⟩
  · cases h

theorem isSimple_of_mem_descend (h : task ∈ walker.descend node) : task.IsSimple := by
  obtain ⟨child, -, rfl⟩ := List.mem_map.1 h
  trivial

theorem isSimple_of_mem_visitRequired (h : task ∈ walker.visitRequired node name) :
    task.IsSimple := by
  rcases mem_required h with hSimple | ⟨child, -, hMem⟩
  · exact hSimple
  · rw [List.mem_singleton.1 hMem]
    trivial

theorem isSimple_of_mem_visitOptional (h : task ∈ walker.visitOptional node name) :
    task.IsSimple := by
  obtain ⟨child, -, hMem⟩ := mem_optional h
  rw [List.mem_singleton.1 hMem]
  trivial

theorem isSimple_of_mem_visitComputed (h : task ∈ walker.visitComputed node name) :
    task.IsSimple := by
  unfold visitComputed at h
  split at h
  · exact isSimple_of_mem_visitRequired h
  · cases h

/-- Work that only visits what is inside the node, or fails. -/
structure Visiting (node : Node) (tasks : List Task) : Prop where
  neutral : Neutral node tasks
  isSimple : ∀ task ∈ tasks, task.IsSimple

/-- A node without a rule of its own has its fields visited. -/
theorem visiting_descend : Visiting node (walker.descend node) :=
  ⟨neutral_descend, fun _ => isSimple_of_mem_descend⟩

theorem visiting_visitRequired : Visiting node (walker.visitRequired node name) :=
  ⟨neutral_visitRequired, fun _ => isSimple_of_mem_visitRequired⟩

theorem visiting_visitOptional : Visiting node (walker.visitOptional node name) :=
  ⟨neutral_visitOptional, fun _ => isSimple_of_mem_visitOptional⟩

theorem visiting_visitComputed : Visiting node (walker.visitComputed node name) :=
  ⟨neutral_visitComputed, fun _ => isSimple_of_mem_visitComputed⟩

theorem visiting_cases : Visiting node ((node.children "cases").map walker.visit) :=
  ⟨neutral_cases, List.forall_mem_map.2 fun _ _ => trivial⟩

/-- The work at a pattern: visits, and what there is for each target. -/
theorem mem_bindAndVisit {pattern : Node} {each : Target → List Event}
    (h : task ∈ walker.bindAndVisit pattern each) :
    task.IsSimple ∨ ∃ target, ∃ event ∈ each target, task = .emit event := by
  unfold bindAndVisit at h
  split at h
  · rw [List.mem_singleton.1 h]
    exact .inl trivial
  · rcases List.mem_append.1 h with hEmit | hVisit
    · obtain ⟨event, hEvent, rfl⟩ := List.mem_map.1 hEmit
      obtain ⟨target, -, hMem⟩ := List.mem_flatMap.1 hEvent
      exact .inr ⟨target, event, hMem, rfl⟩
    · obtain ⟨inner, -, rfl⟩ := List.mem_map.1 hVisit
      exact .inl trivial

/-- What is done for a pattern is a failure to read it, or something for one of its targets.
-/
theorem mem_bind {pattern : Node} {each : Target → List Event}
    (h : task ∈ walker.bind pattern each) :
    task.IsSimple ∨ ∃ target, ∃ event ∈ each target, task = .emit event := by
  unfold bind at h
  split at h
  · rw [List.mem_singleton.1 h]
    exact .inl trivial
  · obtain ⟨event, hEvent, rfl⟩ := List.mem_map.1 h
    obtain ⟨target, -, hMem⟩ := List.mem_flatMap.1 hEvent
    exact .inr ⟨target, event, hMem, rfl⟩

/-- A default value is a write, and defines nothing. -/
theorem isUse_of_mem_writeDefaults {target : Target} {implicitGlobal : Option Node} {init : Bool}
    {event : Event} (h : event ∈ writeDefaults target implicitGlobal init) :
    Task.IsUse (.emit event) := by
  obtain ⟨assignment, -, rfl⟩ := List.mem_map.1 h
  exact .inr ⟨_, rfl⟩

/-- An assignment defines nothing, even where it makes a global later. -/
theorem isUse_of_mem_assign {left : Node} (h : task ∈ walker.assign node left) : task.IsUse := by
  unfold assign at h
  split at h
  · rw [List.mem_singleton.1 h]
    exact .inl trivial
  · split at h
    · rcases mem_bindAndVisit h with hSimple | ⟨target, event, hEvent, rfl⟩
      · exact .inl hSimple
      · rcases List.mem_append.1 hEvent with hDefault | hWrite
        · exact isUse_of_mem_writeDefaults hDefault
        · rw [List.mem_singleton.1 hWrite]
          exact .inr ⟨_, rfl⟩
    · rw [List.mem_singleton.1 h]
      exact .inr ⟨_, rfl⟩

/-- A definition of a variable, by one of the declarators of a declaration. -/
structure Declares (declaration declarator : Node) (task : Task) : Prop where
  define : ∃ (target : Target) (position : Nat), task = .emit
    (.define (if declaration.text? "kind" = some "var" then .variableScope else .current)
      target.identifier {
        kind := .variable
        name := target.identifier
        node := declarator
        parent := declaration
        index := position
        keyword := declaration.text? "kind" })

/-- A declarator writes to its targets, and defines each of them. -/
theorem mem_declareTargets {declaration declarator : Node} {position : Nat}
    (h : task ∈ walker.declareTargets declaration declarator position) :
    task.IsUse ∨ Declares declaration declarator task := by
  rcases mem_required h with hSimple | ⟨id, -, hMem⟩
  · exact .inl (.inl hSimple)
  rcases mem_bindAndVisit hMem with hSimple | ⟨target, event, hEvent, rfl⟩
  · exact .inl (.inl hSimple)
  rcases List.mem_cons.1 hEvent with rfl | hEvent
  · exact .inr ⟨target, position, rfl⟩
  rcases List.mem_append.1 hEvent with hDefault | hWrite
  · exact .inl (isUse_of_mem_writeDefaults hDefault)
  · split at hWrite
    · cases hWrite
    · rw [List.mem_singleton.1 hWrite]
      exact .inl (.inr ⟨_, rfl⟩)

/-- The work at a declaration: uses, and what its declarators define. Each of
these ends there, unless the declaration is in the head of a loop. -/
theorem mem_declareVariables {declaration : Node} {inLoopHead : Bool}
    (h : task ∈ walker.declareVariables declaration inLoopHead) :
    task.IsUse ∨ ∃ declarator ∈ declaration.children "declarations",
      Declares declaration declarator task ∨
        (inLoopHead = false ∧ task = .emit (.endDeclaration declarator)) := by
  obtain ⟨⟨declarator, position⟩, hItem, hTask⟩ := List.mem_flatMap.1 h
  have hDeclarator := List.fst_mem_of_mem_zipIdx hItem
  rcases List.mem_append.1 hTask with hTask | hEnd
  · rcases List.mem_append.1 hTask with hTargets | hInit
    · rcases mem_declareTargets hTargets with hUse | hDeclares
      · exact .inl hUse
      · exact .inr ⟨declarator, hDeclarator, .inl hDeclares⟩
    · exact .inl (.inl (isSimple_of_mem_visitOptional hInit))
  · cases inLoopHead with
    | true => cases hEnd
    | false => exact .inr ⟨declarator, hDeclarator, .inr ⟨rfl, List.mem_singleton.1 hEnd⟩⟩

/-- The first declarator of a loop only takes the values that the loop is over. -/
theorem isUse_of_mem_firstTargets {left right : Node}
    (h : task ∈ (match (left.children "declarations").head? with
      | none => []
      | some declarator =>
          required declarator "id" fun id => walker.bind id fun target =>
            [.use {
              identifier := target.identifier
              access := .write
              writeExpr := right
              isPartial := true
              init := true }])) : task.IsUse := by
  split at h
  · cases h
  · rcases mem_required h with hSimple | ⟨id, -, hMem⟩
    · exact .inl hSimple
    · rcases mem_bind hMem with hSimple | ⟨target, event, hEvent, rfl⟩
      · exact .inl hSimple
      · rw [List.mem_singleton.1 hEvent]
        exact .inr ⟨_, rfl⟩

/-- The work at the head of a loop, besides the scope that it may open. -/
theorem mem_loopOver {left right : Node} (h : task ∈ walker.loopOver node left right) :
    task.IsUse ∨ (left.kind = "VariableDeclaration" ∧
      (task = .emit (.enter .forHead node false) ∨
        ∃ declarator ∈ left.children "declarations",
          Declares left declarator task ∨ task = .emit (.endDeclaration declarator))) := by
  unfold loopOver at h
  split at h
  · next hKind =>
      simp only [List.append_assoc, List.mem_append, List.mem_cons] at h
      rcases h with hEnter | hDeclare | hFirst | rfl | hEnd
      · split at hEnter
        · exact .inr ⟨hKind, .inl (List.mem_singleton.1 hEnter)⟩
        · cases hEnter
      · rcases mem_declareVariables hDeclare with hUse | ⟨declarator, hDeclarator, hTask⟩
        · exact .inl hUse
        · rcases hTask with hDeclares | ⟨hFalse, -⟩
          · exact .inr ⟨hKind, .inr ⟨declarator, hDeclarator, .inl hDeclares⟩⟩
          · cases hFalse
      · exact .inl (isUse_of_mem_firstTargets hFirst)
      · exact .inl (.inl trivial)
      · obtain ⟨declarator, hDeclarator, rfl⟩ := List.mem_map.1 hEnd
        exact .inr ⟨hKind, .inr ⟨declarator, hDeclarator, .inr rfl⟩⟩
  · rcases List.mem_append.1 h with hLeft | hRight
    · rcases mem_bindAndVisit hLeft with hSimple | ⟨target, event, hEvent, rfl⟩
      · exact .inl (.inl hSimple)
      · rcases List.mem_append.1 hEvent with hDefault | hWrite
        · exact .inl (isUse_of_mem_writeDefaults hDefault)
        · rw [List.mem_singleton.1 hWrite]
          exact .inl (.inr ⟨_, rfl⟩)
    · rw [List.mem_singleton.1 hRight]
      exact .inl (.inl trivial)

/-- A definition that the work at a node makes in a scope of the node. -/
structure Owns (node : Node) (kind : DefinitionKind) (task : Task) : Prop where
  define : ∃ identifier definition, task = .emit (.define .current identifier definition) ∧
    definition.kind = kind ∧ definition.node = node ∧ definition.parent = none

/-- A function defines its parameters in its own scope. -/
theorem mem_defineParameters (h : task ∈ walker.defineParameters node) :
    task.IsUse ∨ Owns node .parameter task := by
  obtain ⟨⟨parameter, position⟩, -, hTask⟩ := List.mem_flatMap.1 h
  rcases mem_bindAndVisit hTask with hSimple | ⟨target, event, hEvent, rfl⟩
  · exact .inl (.inl hSimple)
  · rcases List.mem_cons.1 hEvent with rfl | hDefault
    · exact .inr ⟨_, _, rfl, rfl, rfl, rfl⟩
    · exact .inl (isUse_of_mem_writeDefaults hDefault)

theorem mem_defineClassName (h : task ∈ defineClassName node) : Owns node .className task := by
  obtain ⟨name, -, hMem⟩ := mem_optional h
  rw [List.mem_singleton.1 hMem]
  exact ⟨_, _, rfl, rfl, rfl, rfl⟩

/-- What a clause that catches an error does with its parameter. -/
theorem mem_catchParameter (h : task ∈ optional node "param" fun parameter =>
      walker.bindAndVisit parameter fun target =>
        .define .current target.identifier { kind := .catchClause, name := parameter, node } ::
          writeDefaults target none true) :
    task.IsUse ∨ Owns node .catchClause task := by
  obtain ⟨parameter, -, hMem⟩ := mem_optional h
  rcases mem_bindAndVisit hMem with hSimple | ⟨target, event, hEvent, rfl⟩
  · exact .inl (.inl hSimple)
  · rcases List.mem_cons.1 hEvent with rfl | hDefault
    · exact .inr ⟨_, _, rfl, rfl, rfl, rfl⟩
    · exact .inl (isUse_of_mem_writeDefaults hDefault)

/-- What an import does besides failing is to define names, each with the import as its
parent. -/
theorem mem_importNames (h : task ∈ walker.importNames node) :
    task.IsSimple ∨ ∃ identifier definition,
      task = .emit (.define .current identifier definition) ∧ definition.kind = .importBinding ∧
        definition.parent = some node := by
  obtain ⟨specifier, -, hTask⟩ := List.mem_flatMap.1 h
  split at hTask
  · cases hTask
  · rcases mem_bind hTask with hSimple | ⟨target, event, hEvent, rfl⟩
    · exact .inl hSimple
    · rw [List.mem_singleton.1 hEvent]
      exact .inr ⟨_, _, rfl, rfl, rfl⟩

/-- What a program brings besides visits opens and closes its own scopes. -/
theorem mem_program (h : task ∈ walker.program node) :
    task.IsSimple ∨ (∃ strict, task = .emit (.setStrict strict)) ∨ task = .emit (.leave node) ∨
      ∃ kind ∈ [ScopeKind.global, .function, .esModule], task = .emit (.enter kind node false) := by
  simp only [program, List.mem_append, List.mem_cons, or_assoc] at h
  rcases h with rfl | hFunction | hModule | hStrict | hVisit | rfl | hNone
  · exact .inr (.inr (.inr ⟨.global, by simp, rfl⟩))
  · split at hFunction
    · rcases List.mem_cons.1 hFunction with rfl | hEnter
      · exact .inr (.inl ⟨_, rfl⟩)
      · exact .inr (.inr (.inr ⟨.function, by simp, List.mem_singleton.1 hEnter⟩))
    · cases hFunction
  · split at hModule
    · exact .inr (.inr (.inr ⟨.esModule, by simp, List.mem_singleton.1 hModule⟩))
    · cases hModule
  · split at hStrict
    · exact .inr (.inl ⟨_, List.mem_singleton.1 hStrict⟩)
    · cases hStrict
  · exact .inl (isSimple_of_mem_descend hVisit)
  · exact .inr (.inr (.inl rfl))
  · cases hNone

/-- A loop that does anything but fail has something to be over. -/
theorem exists_right_of_mem {left : Node} (hRole : Role.ofKind node.kind = .forEach)
    (hLeft : node.child? "left" = some left) (hMem : task ∈ walker.tasks node)
    (hTask : ¬ task.IsSimple) : ∃ right, node.child? "right" = some right := by
  cases hRight : node.child? "right" with
  | some right => exact ⟨right, rfl⟩
  | none =>
      rw [tasks_forEach_of_none hRole hLeft hRight, List.mem_singleton] at hMem
      subst hMem
      exact absurd trivial hTask

end Walker

end Scoping
