import Scoping.Proofs.Reordering.Tasks
import Scoping.Proofs.Revision.Patterns

/-! The work at a node of a revised document. It is the same as before, with the
revised nodes. -/

namespace Scoping.Revision

variable {keys : ChildKeys}

def definition (r : Revision keys) (definition : Definition) : Definition :=
  { definition with
    name := r.node definition.name
    node := r.node definition.node
    parent := definition.parent.map r.node }

def use (r : Revision keys) (use : Use) : Use :=
  { use with
    identifier := r.node use.identifier
    writeExpr := use.writeExpr.map r.node
    implicitGlobal := use.implicitGlobal.map r.node }

def event (r : Revision keys) : Event → Event
  | .enter kind block inMethod => .enter kind (r.node block) inMethod
  | .leave block => .leave (r.node block)
  | .setStrict strict => .setStrict strict
  | .define destination identifier definition =>
      .define destination (r.node identifier) (r.definition definition)
  | .use use => .use (r.use use)
  | .directEval => .directEval
  | .thisExpression => .thisExpression
  | .bodyStart => .bodyStart
  | .endDeclaration node => .endDeclaration (r.node node)
  | .fail failure => .fail failure

def task (r : Revision keys) : Task → Task
  | .emit event => .emit (r.event event)
  | .visit inMethod node => .visit inMethod (r.node node)

/-- Work that becomes other work, task by task. -/
def Turns (r : Revision keys) (before after : List Task) : Prop :=
  after = before.map r.task

section Combining

variable {r : Revision keys} {walker : Walker} {node child : Node} {name : String}
  {a b a' b' : List Task}

theorem turns_nil : r.Turns [] [] :=
  rfl

theorem Turns.append (hFirst : r.Turns a a') (hSecond : r.Turns b b') :
    r.Turns (a ++ b) (a' ++ b') := by
  rw [Turns, List.map_append, hFirst, hSecond]

theorem Turns.cons {task after : Task} (hTask : after = r.task task) (h : r.Turns a a') :
    r.Turns (task :: a) (after :: a') := by
  rw [Turns, List.map_cons, hTask, h]

theorem turns_ite {condition : Prop} [Decidable condition] (hThen : r.Turns a a')
    (hElse : r.Turns b b') :
    r.Turns (if condition then a else b) (if condition then a' else b') := by
  split
  · exact hThen
  · exact hElse

theorem turns_flatMap {α β : Type} {items : List α} {f : α → List Task} {g : β → List Task}
    {change : α → β} (h : ∀ item ∈ items, r.Turns (f item) (g (change item))) :
    r.Turns (items.flatMap f) ((items.map change).flatMap g) := by
  rw [Turns, List.flatMap_map, List.map_flatMap]
  exact List.flatMap_congr h

theorem turns_map_visit (nodes : List Node) :
    r.Turns (nodes.map walker.visit) ((nodes.map r.node).map walker.visit) := by
  rw [Turns, List.map_map, List.map_map]
  rfl

/-- A required child that is missing is missing after the revision, and the same failure is
found. -/
theorem turns_required {next other : Node → List Task} (hKeeps : r.Keeps node name)
    (h : ∀ child, node.child? name = some child → r.Turns (next child) (other (r.node child))) :
    r.Turns (Walker.required node name next) (Walker.required (r.node node) name other) := by
  unfold Walker.required
  rw [child?_node hKeeps]
  cases hChild : node.child? name with
  | none => rfl
  | some child => exact h child hChild

/-- What is done for a child that may be missing, if the revision keeps the field. -/
theorem turns_optional {next other : Node → List Task} (hKeeps : r.Keeps node name)
    (h : ∀ child, node.child? name = some child → r.Turns (next child) (other (r.node child))) :
    r.Turns (Walker.optional node name next) (Walker.optional (r.node node) name other) := by
  unfold Walker.optional
  rw [child?_node hKeeps]
  cases hChild : node.child? name with
  | none => rfl
  | some child => exact h child hChild

theorem turns_visitRequired (hKeeps : r.Keeps node name) :
    r.Turns (walker.visitRequired node name) (walker.visitRequired (r.node node) name) :=
  turns_required hKeeps fun _ _ => rfl

theorem turns_visitOptional (hKeeps : r.Keeps node name) :
    r.Turns (walker.visitOptional node name) (walker.visitOptional (r.node node) name) :=
  turns_optional hKeeps fun _ _ => rfl

/-- The name of a member is visited only if it is computed, and then it is kept. -/
theorem turns_visitComputed :
    r.Turns (walker.visitComputed node name) (walker.visitComputed (r.node node) name) := by
  unfold Walker.visitComputed
  rw [flag_node (keeps node (by decide))]
  split
  · next hComputed => exact turns_visitRequired (keeps_of_computed name hComputed)
  · exact turns_nil

/-- A scope is opened for the revised node, and is closed for it. -/
theorem turns_within {kind : ScopeKind} {inMethod : Bool} (h : r.Turns a a') :
    r.Turns (Walker.within kind inMethod node a) (Walker.within kind inMethod (r.node node) a') :=
  (h.cons rfl).append rfl

/-- Events for a target that become those for what the target becomes. -/
def Agree (r : Revision keys) (each other : Target → List Event) : Prop :=
  ∀ target, other (r.target target) = (each target).map r.event

/-- The events for all targets of a pattern, in the order of the targets. -/
theorem Agree.map_emit {each other : Target → List Event} (h : r.Agree each other)
    (targets : List Target) :
    r.Turns ((targets.flatMap each).map .emit) (((targets.map r.target).flatMap other).map .emit) := by
  rw [Turns, List.flatMap_map, List.map_flatMap, List.map_flatMap, List.map_flatMap]
  refine List.flatMap_congr fun target _ => ?_
  rw [h, List.map_map, List.map_map]
  rfl

/-- The writes of default values are those of the revised target. -/
theorem map_event_writeDefaults (target : Target) (implicitGlobal : Option Node) (init : Bool) :
    Walker.writeDefaults (r.target target) (implicitGlobal.map r.node) init =
      (Walker.writeDefaults target implicitGlobal init).map r.event := by
  simp only [Walker.writeDefaults, Revision.target, List.map_map]
  refine List.map_congr_left fun assignment _ => ?_
  have hRight : r.Keeps assignment "right" := keeps assignment (by decide)
  have hLeft : r.Keeps assignment "left" := keeps assignment (by decide)
  simp only [Function.comp_apply, event, use, child?_node hRight, bne, beq_child?_node hLeft]

theorem turns_defineClassName :
    r.Turns (Walker.defineClassName node) (Walker.defineClassName (r.node node)) :=
  turns_optional (keeps node (by decide)) fun _ _ => rfl

@[simp] theorem isLexicalDeclaration_node :
    Walker.isLexicalDeclaration (r.node node) = Walker.isLexicalDeclaration node := by
  unfold Walker.isLexicalDeclaration
  rw [kind_node, text?_node (keeps node (by decide))]

theorem map_zipIdx_node (nodes : List Node) :
    (nodes.map r.node).zipIdx =
      nodes.zipIdx.map fun (node, position) => (r.node node, position) := by
  rw [List.zipIdx_map]
  rfl

theorem importedName?_node :
    Walker.importedName? (r.node node) = (Walker.importedName? node).map r.node := by
  unfold Walker.importedName?
  rw [kind_node, child?_node (keeps node (by decide)), child?_node (keeps node (by decide))]
  split
  · rfl
  · rfl
  · cases node.child? "local" <;> rfl
  · rfl

end Combining

variable {walker : Walker} {r : Revision walker.settings.keys} {node : Node} {name : String}

/-- The other fields of a node are revised one by one, if the revision keeps every field. -/
theorem turns_descend (hTyped : node.IsTyped) (hKeeps : r.KeepsAll node) :
    r.Turns (walker.descend node) (walker.descend (r.node node)) := by
  rw [Walker.descend, Walker.descend, keyed_node hTyped hKeeps]
  exact turns_map_visit _

/-- A pattern has the revised targets in the same order, as revising keeps its parts. -/
theorem turns_bind {pattern : Node} {each other : Target → List Event} (hTyped : pattern.IsTyped)
    (h : r.Agree each other) :
    r.Turns (walker.bind pattern each) (walker.bind (r.node pattern) other) := by
  unfold Walker.bind
  rw [ofNode_node hTyped]
  cases Pattern.ofNode walker.settings.keys pattern with
  | error failure => rfl
  | ok found => exact h.map_emit found.targets

/-- The code in a pattern is visited after the same targets as before. -/
theorem turns_bindAndVisit {pattern : Node} {each other : Target → List Event}
    (hTyped : pattern.IsTyped) (h : r.Agree each other) :
    r.Turns (walker.bindAndVisit pattern each) (walker.bindAndVisit (r.node pattern) other) := by
  unfold Walker.bindAndVisit
  rw [ofNode_node hTyped]
  cases Pattern.ofNode walker.settings.keys pattern with
  | error failure => rfl
  | ok found => exact (h.map_emit found.targets).append (turns_map_visit _)

theorem turns_assign {left : Node} (hTyped : left.IsTyped) :
    r.Turns (walker.assign node left) (walker.assign (r.node node) (r.node left)) := by
  unfold Walker.assign
  have hPattern : Pattern.isPattern (r.node left) = Pattern.isPattern left := rfl
  have hRight : r.Keeps node "right" := keeps node (by decide)
  rw [hPattern, text?_node (keeps node (by decide)), child?_node hRight]
  refine turns_ite rfl (turns_ite (turns_bindAndVisit hTyped fun target => ?_) rfl)
  rw [List.map_append, ← map_event_writeDefaults]
  rfl

/-- The kind of a declaration and the position of a declarator are the same after the
revision. -/
theorem turns_declareTargets {declaration declarator : Node} {position : Nat} :
    r.Turns (walker.declareTargets declaration declarator position)
      (walker.declareTargets (r.node declaration) (r.node declarator) position) := by
  unfold Walker.declareTargets
  dsimp only
  refine turns_required (keeps declarator (by decide)) fun id hId => ?_
  refine turns_bindAndVisit (Node.contains_of_child? hId).isTyped fun target => ?_
  rw [List.map_append, List.map_cons, ← map_event_writeDefaults,
    text?_node (keeps declaration (by decide)), child?_node (keeps declarator (by decide))]
  cases declarator.child? "init" <;> rfl

/-- Declarators come in the same order, each with its revised initial value. -/
theorem turns_declareVariables {declaration : Node} {inLoopHead : Bool} :
    r.Turns (walker.declareVariables declaration inLoopHead)
      (walker.declareVariables (r.node declaration) inLoopHead) := by
  unfold Walker.declareVariables
  rw [children_node (keeps declaration (by decide)), map_zipIdx_node]
  refine turns_flatMap fun (declarator, position) _ => ?_
  refine (turns_declareTargets.append (turns_visitOptional (keeps declarator (by decide)))).append ?_
  exact turns_ite rfl rfl

/-- Whether a loop opens a scope is told by the kind of its left side, which is kept. -/
theorem turns_loopOver {left right : Node} (hTyped : left.IsTyped) :
    r.Turns (walker.loopOver node left right)
      (walker.loopOver (r.node node) (r.node left) (r.node right)) := by
  unfold Walker.loopOver
  dsimp only
  rw [kind_node, isLexicalDeclaration_node, children_node (keeps left (by decide)), List.head?_map]
  refine turns_ite ((((turns_ite rfl rfl).append turns_declareVariables).append ?_).append ?_)
    (Turns.append (turns_bindAndVisit hTyped fun target => ?_) rfl)
  · cases (left.children "declarations").head? with
    | none => rfl
    | some declarator =>
        exact turns_required (keeps declarator (by decide)) fun id hId =>
          turns_bind (Node.contains_of_child? hId).isTyped fun target => rfl
  · rw [Turns, List.map_cons, List.map_map, List.map_map]
    rfl
  · rw [List.map_append, ← map_event_writeDefaults]
    rfl

theorem turns_defineParameters :
    r.Turns (walker.defineParameters node) (walker.defineParameters (r.node node)) := by
  unfold Walker.defineParameters
  rw [children_node (keeps node (by decide)), map_zipIdx_node]
  refine turns_flatMap fun (parameter, position) hMem => ?_
  have hTyped : parameter.IsTyped :=
    Node.isTyped_of_mem_children (List.fst_mem_of_mem_zipIdx hMem)
  refine turns_bindAndVisit hTyped fun target => ?_
  rw [List.map_cons, ← map_event_writeDefaults]
  rfl

/-- Whether the name of a function is bound inside or around it is told by its kind. -/
theorem turns_defineFunction :
    r.Turns (walker.defineFunction node) (walker.defineFunction (r.node node)) := by
  have hName : ((r.node node).child? "id").isSome = (node.child? "id").isSome := by
    rw [child?_node (keeps node (by decide)), Option.isSome_map]
  unfold Walker.defineFunction
  rw [kind_node, hName]
  refine Turns.append (Turns.append (Turns.append (Turns.append (turns_ite ?_ rfl)
    (turns_ite rfl rfl)) ?_) ?_) rfl
  · exact turns_optional (keeps node (by decide)) fun _ _ => rfl
  · exact turns_defineParameters.cons rfl
  · exact (turns_visitRequired (keeps node (by decide))).cons rfl

theorem turns_defineClass :
    r.Turns (walker.defineClass node) (walker.defineClass (r.node node)) := by
  unfold Walker.defineClass
  rw [kind_node]
  refine Turns.append (Turns.append (Turns.append (Turns.append (turns_ite turns_defineClassName rfl)
    (turns_visitOptional (keeps node (by decide)))) (turns_defineClassName.cons rfl)) ?_) rfl
  exact turns_visitRequired (keeps node (by decide))

theorem turns_catchError :
    r.Turns (walker.catchError node) (walker.catchError (r.node node)) := by
  unfold Walker.catchError
  refine Turns.append (Turns.append (Turns.cons rfl ?_)
    (turns_visitRequired (keeps node (by decide)))) rfl
  refine turns_optional (keeps node (by decide)) fun parameter hParameter => ?_
  refine turns_bindAndVisit (Node.contains_of_child? hParameter).isTyped fun target => ?_
  rw [List.map_cons, ← map_event_writeDefaults]
  rfl

end Scoping.Revision
