import Scoping.Proofs.Placement.Identifiers
import Scoping.Proofs.Placement.Stretches
import Scoping.Proofs.Walk.Uses

/-! The uses that give a name its first value. Each is for a name that the same node
binds, and finds the scopes open that the definition of the name finds. -/

namespace Scoping

/-- A node binds the identifier of a use, and the definition takes a value. -/
def Use.Initializes (settings : Settings) (use : Use) (node : Node) : Prop :=
  ∃ binding ∈ bindings settings node, binding.identifier = use.identifier ∧
    binding.definition.kind.takesValue = true

/-- A declaration binds the names of its declarators, which take values. -/
theorem Node.exists_declared {keys : ChildKeys} {declaration declarator pattern : Node} {position : Nat}
    {target : Target} (hMem : (declarator, position) ∈ (declaration.children "declarations").zipIdx)
    (hId : declarator.child? "id" = some pattern) (hTarget : target ∈ Pattern.targetsIn keys pattern) :
    ∃ binding ∈ declaration.declarations keys, binding.identifier = target.identifier ∧
      binding.definition.kind.takesValue = true :=
  ⟨_, List.mem_flatMap.2 ⟨_, hMem, List.mem_flatMap.2
    ⟨_, Option.mem_toList.2 hId, List.mem_map_of_mem hTarget⟩⟩, rfl, rfl⟩

namespace Walker

variable {walker : Walker} {node : Node} {name : String} {use : Use}

/-- What is emitted at a pattern is for one of its targets. -/
theorem exists_target_of_mem {pattern : Node} {each : Target → List Event}
    (h : .emit (.use use) ∈ walker.bindAndVisit pattern each) :
    ∃ target ∈ Pattern.targetsIn walker.settings.keys pattern, .use use ∈ each target := by
  obtain ⟨found, hFound, target, hTarget, hMem⟩ := exists_target_of_mem_bindAndVisit h
  refine ⟨target, ?_, hMem⟩
  rw [Pattern.targetsIn, hFound]
  exact hTarget

theorem exists_target_of_mem_bind {pattern : Node} {each : Target → List Event}
    (h : .emit (.use use) ∈ walker.bind pattern each) :
    ∃ target ∈ Pattern.targetsIn walker.settings.keys pattern, .use use ∈ each target := by
  unfold bind at h
  split at h
  · simp at h
  · next found hFound =>
      obtain ⟨event, hEvent, hEq⟩ := List.mem_map.1 h
      cases hEq
      obtain ⟨target, hTarget, hMem⟩ := List.mem_flatMap.1 hEvent
      refine ⟨target, ?_, hMem⟩
      rw [Pattern.targetsIn, hFound]
      exact hTarget

/-- What a default gives a parameter. -/
theorem mem_parameters (h : .emit (.use use) ∈ walker.defineParameters node) :
    ∃ binding ∈ node.parameters walker.settings.keys, binding.identifier = use.identifier ∧
      binding.definition.kind.takesValue = true := by
  obtain ⟨⟨parameter, position⟩, hParameter, hMem⟩ := List.mem_flatMap.1 h
  obtain ⟨target, hTarget, hUse⟩ := exists_target_of_mem hMem
  exact ⟨_, List.mem_flatMap.2 ⟨_, hParameter, List.mem_map_of_mem hTarget⟩,
    (identifier_of_mem_define (by simp) hUse).symm, rfl⟩

/-- What a declarator gives one of its names. -/
theorem mem_declarations {declaration : Node} {inLoopHead : Bool}
    (h : .emit (.use use) ∈ walker.declareVariables declaration inLoopHead) :
    ∃ binding ∈ declaration.declarations walker.settings.keys, binding.identifier = use.identifier ∧
      binding.definition.kind.takesValue = true := by
  obtain ⟨⟨declarator, position⟩, hDeclarator, hMem⟩ := List.mem_flatMap.1 h
  have hTargets : .emit (.use use) ∈ walker.declareTargets declaration declarator position := by
    cases inLoopHead <;> simpa using hMem
  rcases mem_required hTargets with hSimple | ⟨id, hId, hBinds⟩
  · exact hSimple.elim
  · obtain ⟨target, hTarget, hUse⟩ := exists_target_of_mem hBinds
    obtain ⟨binding, hBinding, hIdentifier, hTakes⟩ := Node.exists_declared hDeclarator hId hTarget
    refine ⟨binding, hBinding, hIdentifier.trans ?_, hTakes⟩
    rcases List.mem_append.1 hUse with hDefine | hWrite
    · exact (identifier_of_mem_define (by simp) hDefine).symm
    · split at hWrite
      · cases hWrite
      · cases List.mem_singleton.1 hWrite
        rfl

/-- What the loop itself gives the names of its head. -/
theorem mem_firstTargets {left right : Node} (h : .emit (.use use) ∈
      (match (left.children "declarations").head? with
        | none => []
        | some declarator =>
            required declarator "id" fun id => walker.bind id fun target =>
              [.use {
                identifier := target.identifier
                access := .write
                writeExpr := right
                isPartial := true
                init := true }])) :
    ∃ binding ∈ left.declarations walker.settings.keys, binding.identifier = use.identifier ∧
      binding.definition.kind.takesValue = true := by
  cases hHead : (left.children "declarations").head? with
  | none => simp [hHead] at h
  | some declarator =>
      rw [hHead] at h
      rcases mem_required h with hSimple | ⟨id, hId, hMem⟩
      · exact hSimple.elim
      · obtain ⟨rest, hDeclarators⟩ := List.head?_eq_some_iff.1 hHead
        have hFirst : (declarator, 0) ∈ (left.children "declarations").zipIdx := by
          simp [hDeclarators]
        obtain ⟨target, hTarget, hUse⟩ := exists_target_of_mem_bind hMem
        cases List.mem_singleton.1 hUse
        exact Node.exists_declared hFirst hId hTarget

/-- What an assignment writes is no first value. -/
theorem init_of_mem_writes {target : Target} {source : Option Node} {write : Use}
    (h : .use use ∈ writeDefaults target source false ++ [.use write]) (hWrite : write.init = false) :
    use.init = false := by
  rcases List.mem_append.1 h with hDefault | hLast
  · obtain ⟨assignment, -, hEq⟩ := List.mem_map.1 hDefault
    cases hEq
    rfl
  · cases List.mem_singleton.1 hLast
    exact hWrite

/-- What a loop gives the names of its head. -/
theorem mem_loopOver_of_init {left right : Node} (hInit : use.init = true)
    (h : .emit (.use use) ∈ walker.loopOver node left right) :
    left.kind = "VariableDeclaration" ∧ ∃ binding ∈ left.declarations walker.settings.keys,
      binding.identifier = use.identifier ∧ binding.definition.kind.takesValue = true := by
  unfold loopOver at h
  split at h
  · next hKind =>
      refine ⟨hKind, ?_⟩
      simp only [List.append_assoc, List.mem_append, List.mem_cons] at h
      rcases h with hEnter | hDeclared | hFirst | hRight | hEnds
      · split at hEnter
        · cases List.mem_singleton.1 hEnter
        · cases hEnter
      · exact mem_declarations hDeclared
      · exact mem_firstTargets hFirst
      · cases hRight
      · obtain ⟨declarator, -, hEq⟩ := List.mem_map.1 hEnds
        cases hEq
  · exfalso
    rcases List.mem_append.1 h with hTargets | hRight
    · obtain ⟨target, -, hUse⟩ := exists_target_of_mem hTargets
      rw [init_of_mem_writes hUse rfl] at hInit
      cases hInit
    · cases List.mem_singleton.1 hRight

theorem init_of_mem_assign {left : Node} (h : .emit (.use use) ∈ walker.assign node left) :
    use.init = false := by
  unfold assign at h
  split at h
  · cases List.mem_singleton.1 h
  · split at h
    · obtain ⟨target, -, hUse⟩ := exists_target_of_mem h
      exact init_of_mem_writes hUse rfl
    · cases List.mem_singleton.1 h
      rfl

/-- What a default gives a caught name. -/
theorem mem_caught (h : .emit (.use use) ∈ walker.catchError node) :
    ∃ binding ∈ node.caught walker.settings.keys, binding.identifier = use.identifier ∧
      binding.definition.kind.takesValue = true := by
  simp only [catchError, List.cons_append, List.append_assoc, List.mem_cons, List.mem_append,
    use_not_mem_visitRequired, Task.emit.injEq, reduceCtorEq, List.not_mem_nil, or_false,
    false_or] at h
  rcases mem_optional h with ⟨parameter, hParameter, hBinds⟩
  obtain ⟨target, hTarget, hUse⟩ := exists_target_of_mem hBinds
  exact ⟨_, List.mem_flatMap.2 ⟨parameter, Option.mem_toList.2 hParameter, List.mem_map_of_mem hTarget⟩,
    (identifier_of_mem_define (by simp) hUse).symm, rfl⟩

/-- What gives a name its first value is part of the work at the node that binds the
name. -/
theorem initializes_of_mem_tasks (hInit : use.init = true) (h : .emit (.use use) ∈ walker.tasks node) :
    use.Initializes walker.settings node := by
  unfold Use.Initializes bindings
  cases usedBy_of_mem_tasks h with
  | identifier _ eq | update _ _ _ _ eq =>
      rw [eq] at hInit
      cases hInit
  | assignment _ left _ mem =>
      rw [init_of_mem_assign mem] at hInit
      cases hInit
  | forEach role left right child values mem =>
      obtain ⟨hKind, binding, hBinding, hTakes⟩ := mem_loopOver_of_init hInit mem
      refine ⟨binding, ?_, hTakes⟩
      simpa [role, child, values, hKind] using hBinding
  | variableDeclaration role mem => simpa only [role] using mem_declarations mem
  | function role mem =>
      obtain ⟨binding, hBinding, hTakes⟩ := mem_parameters mem
      simp only [role]
      exact ⟨binding, List.mem_append_right _ hBinding, hTakes⟩
  | catchClause role mem => simpa only [role] using mem_caught mem

end Walker

variable {settings : Settings} {root node : Node} {past begun rest : List Event} {event : Event}
  {inMethod : Bool} {before after : List Task} {binding : Binding} {use : Use}

/-- All that a node binds is bound in the work at it. -/
theorem Arrives.exists_binds (h : Arrives settings root begun (.visit inMethod node) rest)
    (hBinding : binding ∈ bindings settings node) :
    ∃ past event before after, event.binding? = some binding ∧
      Occurs settings root past event begun inMethod node before after := by
  rw [← Walker.bindings_tasks { settings, inMethod }] at hBinding
  obtain ⟨event, hEvent, hBinds⟩ := Task.mem_bindings.1 hBinding
  obtain ⟨before, after, hSplit⟩ := List.append_of_mem hEvent
  exact ⟨_, event, before, after, hBinds, ⟨rest, h⟩, hSplit, rfl⟩

/-- A node that binds a name which takes a value does so in the scopes that it has
opened by then. -/
theorem role_of_takesValue (h : binding ∈ bindings settings node)
    (hTakes : binding.definition.kind.takesValue = true) : Role.ofKind node.kind ∈
      [Role.assignment, .forEach, .variableDeclaration, .function, .catchClause] := by
  have hNamed : ∀ kind : DefinitionKind, kind.takesValue = false → binding ∉ node.named kind := by
    intro kind hKind hMem
    obtain ⟨name, -, rfl⟩ := List.mem_map.1 hMem
    rw [hKind] at hTakes
    cases hTakes
  cases hRole : Role.ofKind node.kind <;> simp only [bindings, hRole] at h
  case function | catchClause | variableDeclaration | forEach => simp
  case classDefinition =>
    rcases List.mem_append.1 h with hOuter | hInner
    · split at hOuter
      · exact absurd hOuter (hNamed .className rfl)
      · cases hOuter
    · exact absurd hInner (hNamed .className rfl)
  case importDeclaration =>
    split at h
    · obtain ⟨specifier, -, hName⟩ := List.mem_flatMap.1 h
      obtain ⟨name, -, hTarget⟩ := List.mem_flatMap.1 hName
      obtain ⟨target, -, rfl⟩ := List.mem_map.1 hTarget
      cases hTakes
    · cases h
  all_goals cases h

/-- What is bound, and takes a value, is defined. -/
theorem Event.exists_define_of_binding? (h : event.binding? = some binding)
    (hTakes : binding.definition.kind.takesValue = true) :
    ∃ destination, event = .define destination binding.identifier binding.definition := by
  unfold Event.binding? at h
  split at h
  · next destination identifier definition =>
      cases h
      exact ⟨destination, rfl⟩
  · obtain ⟨name, -, rfl⟩ := Option.map_eq_some_iff.1 h
    cases hTakes
  · cases h

/-- A use that gives a first value comes where a name is defined by its identifier. -/
theorem Occurs.exists_define (h : Occurs settings root past (.use use) begun inMethod node before after)
    (hInit : use.init = true) :
    ∃ later destination definition first last,
      Occurs settings root later (.define destination use.identifier definition) begun inMethod node
        first last ∧ definition.kind.takesValue = true ∧
      Trail.after settings past = Trail.after settings later := by
  obtain ⟨rest, hVisit⟩ := h.visit
  obtain ⟨binding, hBinding, hIdentifier, hTakes⟩ := Walker.initializes_of_mem_tasks hInit h.mem_tasks
  obtain ⟨later, event, first, last, hBinds, hOccurs⟩ := hVisit.exists_binds hBinding
  obtain ⟨destination, rfl⟩ := Event.exists_define_of_binding? hBinds hTakes
  rw [hIdentifier] at hOccurs
  exact ⟨later, destination, binding.definition, first, last, hOccurs, hTakes,
    h.after_eq_after hOccurs (role_of_takesValue hBinding hTakes) trivial hTakes⟩

end Scoping
