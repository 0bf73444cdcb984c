import Scoping.Proofs.Placement.Visited
import Scoping.Proofs.Revision.Tasks

/-! The walk of a revised document, event by event the one of the document before. -/

namespace Scoping.Revision

variable {keys : ChildKeys} {node child : Node}

/-- All that an import holds at and inside a node is kept. A descent finds the specifiers
of an import, and plain names do not stop it. -/
def KeepsImports (r : Revision keys) (node : Node) : Prop :=
  ∀ inner, node.Holds inner → inner.kind = "ImportDeclaration" →
    ∀ deeper, inner.Holds deeper → r.KeepsAll deeper

theorem KeepsImports.of_contains {r : Revision keys} (h : r.KeepsImports node)
    (hChild : node.Contains child) : r.KeepsImports child :=
  fun inner hInner => h inner (Node.Holds.trans (.inr hChild) hInner)

theorem importSpecifiers_node {r : Revision keys} (hTyped : node.IsTyped)
    (hKeeps : ∀ inner, node.Holds inner → r.KeepsAll inner) :
    Walker.importSpecifiers keys (r.node node) =
      (Walker.importSpecifiers keys node).map r.node := by
  induction hSize : sizeOf node.entries using Nat.strongRecOn generalizing node with
  | ind size ih =>
      have hSame : Walker.isImportSpecifier (r.node node) = Walker.isImportSpecifier node := rfl
      rw [Walker.importSpecifiers_eq, Walker.importSpecifiers_eq, hSame]
      split
      · rfl
      · rw [keyed_node hTyped (hKeeps node node.holds_self), List.flatMap_map, List.map_flatMap]
        refine List.flatMap_congr fun child hChild => ?_
        have hInside := ChildKeys.contains_of_mem_children hChild
        exact ih _ (hSize ▸ ChildKeys.sizeOf_mem_children hChild) hInside.isTyped
          (fun inner hInner => hKeeps inner (Node.Holds.trans (.inr hInside) hInner)) rfl

variable {walker : Walker} {r : Revision walker.settings.keys}

theorem turns_importNames (hTyped : node.IsTyped)
    (hKeeps : ∀ inner, node.Holds inner → r.KeepsAll inner) :
    r.Turns (walker.importNames node) (walker.importNames (r.node node)) := by
  unfold Walker.importNames
  rw [importSpecifiers_node hTyped hKeeps]
  refine turns_flatMap fun specifier _ => ?_
  rw [importedName?_node]
  cases hName : Walker.importedName? specifier with
  | none => rfl
  | some name =>
      exact turns_bind (Walker.contains_importedName? hName).isTyped fun target => rfl

/-- A program brings the same scopes, and visits the same nodes. -/
theorem turns_program (hTyped : node.IsTyped) (hKeeps : r.KeepsAll node) :
    r.Turns (walker.program node) (walker.program (r.node node)) := by
  unfold Walker.program
  dsimp only
  refine Turns.append (Turns.append (Turns.append (Turns.append (Turns.cons rfl (turns_ite rfl rfl))
    (turns_ite rfl rfl)) (turns_ite rfl rfl)) (turns_descend hTyped hKeeps)) rfl

/-- All is kept at a node that is no member access and no property. -/
theorem keepsAll_of_role {role : Role} (hTyped : node.IsTyped) (hRole : Role.ofKind node.kind = role)
    (hMember : role ≠ .member) (hProperty : role ≠ .property) : r.KeepsAll node :=
  keepsAll_of_kind hTyped (fun hKind => hMember (by rw [← hRole, hKind]; rfl))
    fun hKind => hProperty (by rw [← hRole, hKind]; rfl)

theorem turns_descend_of_role {role : Role} (hTyped : node.IsTyped)
    (hRole : Role.ofKind node.kind = role) (hMember : role ≠ .member) (hProperty : role ≠ .property) :
    r.Turns (walker.descend node) (walker.descend (r.node node)) :=
  turns_descend hTyped (keepsAll_of_role hTyped hRole hMember hProperty)

/-- The work at a node that opens no scope and closes none. -/
theorem turns_tasks_of_isNeutral (hNeutral : (Role.ofKind node.kind).isNeutral)
    (hTyped : node.IsTyped) (hImports : r.KeepsImports node) :
    r.Turns (walker.tasks node) (walker.tasks (r.node node)) := by
  unfold Walker.tasks
  rw [kind_node]
  cases hRole : Role.ofKind node.kind <;> dsimp only
  case identifier | silent | thisExpression => rfl
  case assignment =>
    refine (turns_required (keeps node (by decide)) fun left hLeft => ?_).append
      (turns_visitRequired (keeps node (by decide)))
    exact turns_assign (Node.contains_of_child? hLeft).isTyped
  case update =>
    refine turns_required (keeps node (by decide)) fun argument _ => ?_
    exact turns_ite rfl (turns_descend_of_role hTyped hRole nofun nofun)
  case member => exact (turns_visitRequired (keeps node (by decide))).append turns_visitComputed
  case property => exact turns_visitComputed.append (turns_visitOptional (keeps node (by decide)))
  case method => exact turns_visitComputed.append (turns_visitRequired (keeps node (by decide)))
  case labelled => exact turns_visitRequired (keeps node (by decide))
  case call =>
    refine (turns_required (keeps node (by decide)) fun callee _ => ?_).append
      (turns_descend_of_role hTyped hRole nofun nofun)
    rw [isIdentifier_node, name_node]
    exact turns_ite rfl rfl
  case variableDeclaration => exact turns_declareVariables
  case importDeclaration =>
    refine turns_ite (turns_importNames hTyped fun inner hInner => ?_) rfl
    exact hImports node node.holds_self (Role.kind_eq hRole rfl) inner hInner
  case exportDeclaration =>
    rw [child?_node (keeps node (by decide)), Option.isSome_map]
    refine turns_ite rfl ?_
    rw [child?_node (keeps node (by decide))]
    cases node.child? "declaration" with
    | none => exact turns_descend_of_role hTyped hRole nofun nofun
    | some declaration => rfl
  case exportSpecifier => exact turns_visitOptional (keeps node (by decide))
  case plain => exact turns_descend_of_role hTyped hRole nofun nofun
  all_goals exact absurd (hRole ▸ hNeutral) nofun

/-- The work at a node is the same, whatever the node is. -/
theorem turns_tasks (hTyped : node.IsTyped) (hImports : r.KeepsImports node) :
    r.Turns (walker.tasks node) (walker.tasks (r.node node)) := by
  by_cases hNeutral : (Role.ofKind node.kind).isNeutral
  · exact turns_tasks_of_isNeutral hNeutral hTyped hImports
  unfold Walker.tasks
  rw [kind_node]
  cases hRole : Role.ofKind node.kind <;> dsimp only
  case program => exact turns_program hTyped (keepsAll_of_role hTyped hRole nofun nofun)
  case field =>
    refine turns_visitComputed.append (turns_optional (keeps node (by decide)) fun value _ => ?_)
    exact turns_within rfl
  case staticBlock => exact turns_within (turns_descend_of_role hTyped hRole nofun nofun)
  case forLoop =>
    have hLexical : ((r.node node).child? "init").any Walker.isLexicalDeclaration =
        (node.child? "init").any Walker.isLexicalDeclaration := by
      rw [child?_node (keeps node (by decide)), Option.any_map]
      exact congrArg (Option.any · _) (funext fun _ => isLexicalDeclaration_node)
    rw [hLexical]
    exact ((turns_ite rfl rfl).append (turns_descend_of_role hTyped hRole nofun nofun)).append rfl
  case forEach =>
    refine turns_required (keeps node (by decide)) fun left hLeft =>
      turns_required (keeps node (by decide)) fun right _ => ?_
    exact ((turns_loopOver (Node.contains_of_child? hLeft).isTyped).append
      (turns_visitRequired (keeps node (by decide)))).append rfl
  case classDefinition => exact turns_defineClass
  case block =>
    have hInside : r.Turns (walker.descend node) (walker.descend (r.node node)) :=
      turns_descend_of_role hTyped hRole nofun nofun
    exact turns_ite (turns_within hInside) (hInside.append rfl)
  case withStatement =>
    exact (turns_visitRequired (keeps node (by decide))).append
      (turns_within (turns_visitRequired (keeps node (by decide))))
  case switchStatement =>
    rw [children_node (keeps node (by decide))]
    refine (turns_visitRequired (keeps node (by decide))).append ?_
    exact turns_ite (turns_within (turns_map_visit _)) ((turns_map_visit _).append rfl)
  case function => exact turns_defineFunction
  case catchClause => exact turns_catchError
  all_goals exact absurd (hRole ▸ rfl) hNeutral

variable {settings : Settings}

/-- The events of a task that visits a node, revised one by one. -/
theorem events_visit {r : Revision settings.keys} {inMethod : Bool} (hTyped : node.IsTyped)
    (hImports : r.KeepsImports node) :
    Task.events settings (.visit inMethod (r.node node)) =
      (Task.events settings (.visit inMethod node)).map r.event := by
  induction hSize : Task.size (.visit inMethod node) using Nat.strongRecOn
    generalizing node inMethod with
  | ind size ih =>
      have hTasks : Walker.tasks { settings, inMethod } (r.node node) =
          (Walker.tasks { settings, inMethod } node).map r.task := turns_tasks hTyped hImports
      rw [Task.events_visit, Task.events_visit, hTasks, List.flatMap_map, List.map_flatMap]
      refine List.flatMap_congr fun task hMem => ?_
      cases task with
      | emit event =>
          rw [task, Task.events_emit, Task.events_emit]
          rfl
      | visit inner child =>
          have hInside := Walker.contained_tasks.contains hMem
          exact ih _ (hSize ▸ Task.size_lt hMem) hInside.isTyped (hImports.of_contains hInside) rfl

theorem programEvents_node {r : Revision settings.keys} (hTyped : node.IsTyped)
    (hKeeps : r.KeepsAll node) (hImports : r.KeepsImports node) :
    programEvents settings (r.node node) = (programEvents settings node).map r.event := by
  have hProgram : Walker.program { settings } (r.node node) =
      (Walker.program { settings } node).map r.task := turns_program hTyped hKeeps
  rw [programEvents, programEvents, hProgram, List.flatMap_map, List.map_flatMap]
  refine List.flatMap_congr fun task hMem => ?_
  cases task with
  | emit event =>
      rw [task, Task.events_emit, Task.events_emit]
      rfl
  | visit inner child =>
      obtain ⟨name, hChild⟩ := exists_of_visit_mem_program hMem
      have hInside := Node.contains_of_mem_children hChild
      exact events_visit hInside.isTyped (hImports.of_contains hInside)

end Scoping.Revision
