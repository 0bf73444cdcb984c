import Scoping.Proofs.Walk.FirstValues
import Scoping.Proofs.Walk.PatternUses

/-! The patterns to which a node gives values. The work at the node writes those to each
name of the pattern, after the values by default, and from one scope. -/

namespace Scoping

/-- The scope from which a node gives values to a pattern: the current one as the node is
visited, or one that the node opens. -/
inductive Home where
  | current
  | own (kind : ScopeKind)

/-- What a node opens before it gives values to a pattern. -/
def Home.Opened (home : Home) (node : Node) (openings : List Event) : Prop :=
  match home with
  | .current => openings = []
  | .own kind => ∃ first inMethod, openings = first ++ [.enter kind node inMethod]

/-- A node gives values to a pattern: from which scope, whether they are first values, and
what a name in the pattern takes besides its values by default. -/
inductive Node.GivesTo (node : Node) : Node → Home → Bool → (Node → List Taken) → Prop
  | declaration (role : Role.ofKind node.kind = .variableDeclaration) {declarator pattern : Node}
      (declared : declarator ∈ node.children "declarations")
      (id : declarator.child? "id" = some pattern) :
      node.GivesTo pattern .current true fun name => Taken.ofDeclarator name declarator
  /-- The values of a loop go to the first declarator in its head only. -/
  | loopHead (role : Role.ofKind node.kind = .forEach) {left right declarator pattern : Node}
      (left_eq : node.child? "left" = some left) (right_eq : node.child? "right" = some right)
      (kind : left.kind = "VariableDeclaration") {position : Nat}
      (declared : (left.children "declarations")[position]? = some declarator)
      (id : declarator.child? "id" = some pattern) :
      node.GivesTo pattern (if Walker.isLexicalDeclaration left then .own .forHead else .current) true
        fun name => Taken.ofDeclarator name declarator ++ if position = 0 then [⟨some right, true⟩] else []
  | loop (role : Role.ofKind node.kind = .forEach) {left right : Node}
      (left_eq : node.child? "left" = some left) (right_eq : node.child? "right" = some right)
      (kind : left.kind ≠ "VariableDeclaration") :
      node.GivesTo left .current false fun _ => [⟨some right, true⟩]
  | assignment (role : Role.ofKind node.kind = .assignment) {left : Node}
      (left_eq : node.child? "left" = some left) (pattern : Pattern.isPattern left = true)
      (plain : node.text? "operator" = some "=") :
      node.GivesTo left .current false fun name => [.ofAssignment name node]
  | parameter (role : Role.ofKind node.kind = .function) {pattern : Node}
      (declared : pattern ∈ node.children "params") :
      node.GivesTo pattern (.own .function) true fun _ => []
  | caught (role : Role.ofKind node.kind = .catchClause) {pattern : Node}
      (declared : node.child? "param" = some pattern) :
      node.GivesTo pattern (.own .catchClause) true fun _ => []

/-- All that a stretch of some work uses is used within it. -/
theorem Stretch.usesAt_eq {node : Node} {tasks inside rest : List Task} {openings : List Event}
    {place : Location} (h : Stretch node tasks openings inside rest) :
    Task.usesAt place tasks = Task.usesAt place inside := by
  have hOpenings : usesAt place openings = [] := usesAt_eq_nil fun usage hUse => by
    rcases h.opens _ hUse with ⟨-, hNot⟩ | ⟨_, _, hEnter⟩
    · exact absurd trivial hNot
    · cases hEnter
  have hRest : Task.usesAt place rest = [] := List.eq_nil_iff_forall_not_mem.2 fun usage hUse =>
    h.rest _ (Task.mem_usesAt.1 hUse).1 trivial
  rw [h.split, Task.usesAt_append, Task.usesAt_append, Task.usesAt_map_emit, hOpenings, hRest,
    List.nil_append, List.append_nil]

/-- What a loop over values uses is used in its head. -/
theorem Walker.usesAt_forEach (walker : Walker) {node left right : Node} {place : Location}
    (hRole : Role.ofKind node.kind = .forEach) (hLeft : node.child? "left" = some left)
    (hRight : node.child? "right" = some right) :
    Task.usesAt place (walker.tasks node) = Task.usesAt place (walker.loopOver node left right) := by
  have hBody : Task.usesAt place (walker.visitRequired node "body") = [] :=
    Task.usesAt_of_isSimple fun _ => isSimple_of_mem_visitRequired
  rw [tasks_forEach hRole hLeft hRight, Task.usesAt_append, Task.usesAt_append, hBody,
    Task.usesAt_emit rfl, Task.usesAt_nil, List.append_nil, List.append_nil]

theorem exists_mem_zipIdx {α : Type} {item : α} {items : List α} (h : item ∈ items) :
    ∃ position, (item, position) ∈ items.zipIdx := by
  obtain ⟨position, hItem⟩ := List.mem_iff_getElem?.1 h
  exact ⟨position, List.mk_mem_zipIdx_iff_getElem?.2 hItem⟩

namespace Node.GivesTo

variable {node pattern : Node} {home : Home} {init : Bool} {values : Node → List Taken} {target : Target}

/-- The work at a node writes to a name of a pattern the values by default, and then those
that the node gives. -/
theorem usesAt_tasks (walker : Walker) (h : node.GivesTo pattern home init values)
    (hCustom : walker.settings.keys.custom = []) (hNames : node.NamesOnce)
    (hTarget : target ∈ Pattern.targetsIn walker.settings.keys pattern) :
    ∃ source, Task.usesAt target.identifier.location (walker.tasks node) =
      target.uses source init (target.byDefault ++ values target.identifier) := by
  cases h with
  | declaration role declared id =>
      obtain ⟨position, hMem⟩ := exists_mem_zipIdx declared
      refine ⟨none, ?_⟩
      unfold Walker.tasks
      rw [role]
      exact Walker.usesAt_declareVariables hCustom hNames hMem id hTarget
  | loopHead role left_eq right_eq kind declared id =>
      refine ⟨none, (Walker.usesAt_forEach walker role left_eq right_eq).trans ?_⟩
      rw [← List.append_assoc]
      exact Walker.usesAt_loopOver hCustom (hNames.of_holds (.inr (Node.contains_of_child? left_eq))) kind
        (List.mk_mem_zipIdx_iff_getElem?.2 declared) id hTarget
  | loop role left_eq right_eq kind =>
      refine ⟨some node, (Walker.usesAt_forEach walker role left_eq right_eq).trans ?_⟩
      exact Walker.usesAt_loopOver_of_ne hCustom
        (hNames.of_holds (.inr (Node.contains_of_child? left_eq))) kind hTarget
  | assignment role left_eq isPattern plain =>
      have hRight : Task.usesAt target.identifier.location (walker.visitRequired node "right") = [] :=
        Task.usesAt_of_isSimple fun _ => Walker.isSimple_of_mem_visitRequired
      refine ⟨some node, ?_⟩
      rw [Walker.tasks_assignment role left_eq, Task.usesAt_append, hRight, List.append_nil]
      exact Walker.usesAt_assign hCustom (hNames.of_holds (.inr (Node.contains_of_child? left_eq)))
        left_eq isPattern plain hTarget
  | parameter role declared =>
      obtain ⟨position, hMem⟩ := exists_mem_zipIdx declared
      obtain ⟨_, _, hStretch⟩ := Walker.exists_stretch_function walker role
      refine ⟨none, hStretch.usesAt_eq.trans ?_⟩
      rw [List.append_nil]
      exact Walker.usesAt_defineParameters hCustom hNames hMem hTarget
  | caught role declared =>
      refine ⟨none, ?_⟩
      unfold Walker.tasks
      rw [role, List.append_nil]
      exact Walker.usesAt_catchError hCustom hNames declared hTarget

/-- The work at a node gives values to a pattern in a stretch that follows the opening of
their scope. -/
theorem exists_stretch (walker : Walker) (h : node.GivesTo pattern home init values) :
    ∃ openings inside rest, Stretch node (walker.tasks node) openings inside rest ∧
      home.Opened node openings := by
  cases h with
  | declaration role =>
      exact ⟨_, _, _, stretch_of_neutral (Walker.neutral_tasks (role ▸ rfl)), rfl⟩
  | loopHead role left_eq right_eq =>
      obtain ⟨inside, rest, hStretch⟩ := Walker.exists_stretch_loop walker role left_eq right_eq
      refine ⟨_, inside, rest, hStretch, ?_⟩
      split
      · exact ⟨[], false, rfl⟩
      · rfl
  | @loop role left right left_eq right_eq kind =>
      obtain ⟨inside, rest, hStretch⟩ := Walker.exists_stretch_loop walker role left_eq right_eq
      refine ⟨_, inside, rest, hStretch, if_neg ?_⟩
      simp [Walker.isLexicalDeclaration, kind]
  | assignment role =>
      exact ⟨_, _, _, stretch_of_neutral (Walker.neutral_tasks (role ▸ rfl)), rfl⟩
  | parameter role =>
      obtain ⟨first, rest, hStretch⟩ := Walker.exists_stretch_function walker role
      exact ⟨_, _, rest, hStretch, first, _, rfl⟩
  | caught role =>
      obtain ⟨inside, rest, hStretch⟩ := Walker.exists_stretch_catchClause walker role
      exact ⟨_, inside, rest, hStretch, [], false, rfl⟩

/-- A node binds the names of a pattern to which it gives first values. -/
theorem exists_binding (settings : Settings) (h : node.GivesTo pattern home true values)
    (hTarget : target ∈ Pattern.targetsIn settings.keys pattern) :
    ∃ binding ∈ bindings settings node, binding.identifier = target.identifier ∧
      binding.definition.kind.takesValue = true := by
  unfold bindings
  cases h with
  | declaration role declared id =>
      obtain ⟨position, hMem⟩ := exists_mem_zipIdx declared
      rw [role]
      exact Node.exists_declared hMem id hTarget
  | @loopHead role left right declarator _ left_eq right_eq kind position declared id =>
      have hBindings : (if (some right).isSome = true then (some left).toList.flatMap fun left =>
          if left.kind = "VariableDeclaration" then left.declarations settings.keys else []
          else []) = left.declarations settings.keys := by
        simp [kind]
      rw [role, left_eq, right_eq]
      dsimp only
      rw [hBindings]
      exact Node.exists_declared (List.mk_mem_zipIdx_iff_getElem?.2 declared) id hTarget
  | parameter role declared =>
      obtain ⟨position, hMem⟩ := exists_mem_zipIdx declared
      rw [role]
      exact ⟨_, List.mem_append_right _ (List.mem_flatMap.2 ⟨_, hMem, List.mem_map_of_mem hTarget⟩),
        rfl, rfl⟩
  | caught role declared =>
      rw [role]
      exact ⟨_, List.mem_flatMap.2 ⟨_, Option.mem_toList.2 declared, List.mem_map_of_mem hTarget⟩,
        rfl, rfl⟩

/-- A node that gives no first values gives one to each name, whatever its defaults. -/
theorem values_ne_nil (h : node.GivesTo pattern home false values) (name : Node) : values name ≠ [] := by
  cases h <;> exact List.cons_ne_nil _ _

/-- The work at a node defines or uses each name of a pattern to which it gives values. -/
theorem exists_event (walker : Walker) (h : node.GivesTo pattern home init values)
    (hCustom : walker.settings.keys.custom = []) (hNames : node.NamesOnce)
    (hTarget : target ∈ Pattern.targetsIn walker.settings.keys pattern) :
    ∃ event, .emit event ∈ walker.tasks node ∧ event.identifier? = some target.identifier ∧
      event.Values := by
  cases init with
  | true =>
      obtain ⟨binding, hBinding, hIdentifier, hTakes⟩ := h.exists_binding walker.settings hTarget
      rw [← Walker.bindings_tasks walker] at hBinding
      obtain ⟨event, hEvent, hBinds⟩ := Task.mem_bindings.1 hBinding
      obtain ⟨destination, rfl⟩ := Event.exists_define_of_binding? hBinds hTakes
      exact ⟨_, hEvent, congrArg some hIdentifier, hTakes⟩
  | false =>
      obtain ⟨source, hUses⟩ := h.usesAt_tasks walker hCustom hNames hTarget
      have hSome : target.uses source false (target.byDefault ++ values target.identifier) ≠ [] :=
        mt List.map_eq_nil_iff.1 (List.append_ne_nil_of_right_ne_nil _ (h.values_ne_nil _))
      obtain ⟨usage, hUse⟩ := List.exists_mem_of_ne_nil _ hSome
      have hTask := (Task.mem_usesAt.1 (hUses.symm ▸ hUse)).1
      exact ⟨_, hTask, congrArg some (Target.mem_uses hUse), trivial⟩

end Node.GivesTo

end Scoping
