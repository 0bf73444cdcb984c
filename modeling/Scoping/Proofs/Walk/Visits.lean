import Scoping.Walk.Inside

/-! What a walk visits at a node, in order. It is told by the role of the node and what its
fields hold. -/

namespace Scoping

/-- The ordinary code in the pattern that a node is, if it is one. -/
def Pattern.evaluatedIn (keys : ChildKeys) (pattern : Node) : List Node :=
  match ofNode keys pattern with
  | .error _ => []
  | .ok found => found.evaluated

namespace Node

/-- The name of a member, if it is code. -/
def computed (node : Node) (name : String) : List Node :=
  if node.flag "computed" then (node.child? name).toList else []

/-- The code left of an assignment. -/
def assigned (keys : ChildKeys) (node left : Node) : List Node :=
  if !Pattern.isPattern left then [left]
  else if node.text? "operator" = some "=" then Pattern.evaluatedIn keys left
  else []

/-- The code in a declarator. -/
def inDeclarator (keys : ChildKeys) (declarator : Node) : List Node :=
  (declarator.child? "id").toList.flatMap (Pattern.evaluatedIn keys) ++
    (declarator.child? "init").toList

/-- The code in the declarators of a declaration. -/
def declared (keys : ChildKeys) (declaration : Node) : List Node :=
  (declaration.children "declarations").flatMap (inDeclarator keys)

/-- The code in the head of a loop over values. -/
def looped (keys : ChildKeys) (left : Node) : List Node :=
  if left.kind = "VariableDeclaration" then left.declared keys else Pattern.evaluatedIn keys left

end Node

/-- The nodes that a walk visits at a node, in order. -/
def visited (settings : Settings) (node : Node) : List Node :=
  match Role.ofKind node.kind with
  | .identifier | .silent | .thisExpression | .importDeclaration => []
  | .program | .staticBlock | .forLoop | .call | .block | .plain => settings.keys.children node
  | .assignment =>
      (node.child? "left").toList.flatMap (node.assigned settings.keys) ++
        (node.child? "right").toList
  | .update =>
      if (node.child? "argument").all Pattern.isPattern then [] else settings.keys.children node
  | .member => (node.child? "object").toList ++ node.computed "property"
  | .property | .field | .method => node.computed "key" ++ (node.child? "value").toList
  | .labelled => (node.child? "body").toList
  | .forEach =>
      if (node.child? "left").isSome ∧ (node.child? "right").isSome then
        (node.child? "left").toList.flatMap (Node.looped settings.keys) ++
          (node.child? "right").toList ++ (node.child? "body").toList
      else []
  | .classDefinition => (node.child? "superClass").toList ++ (node.child? "body").toList
  | .withStatement => (node.child? "object").toList ++ (node.child? "body").toList
  | .variableDeclaration => node.declared settings.keys
  | .switchStatement => (node.child? "discriminant").toList ++ node.children "cases"
  | .function =>
      (node.children "params").flatMap (Pattern.evaluatedIn settings.keys) ++
        (node.child? "body").toList
  | .catchClause =>
      (node.child? "param").toList.flatMap (Pattern.evaluatedIn settings.keys) ++
        (node.child? "body").toList
  | .exportDeclaration =>
      if (node.child? "source").isSome then []
      else
        match node.child? "declaration" with
        | some declaration => [declaration]
        | none => settings.keys.children node
  | .exportSpecifier => (node.child? "local").toList

/-- The node that a task visits. -/
def Task.visits? : Task → Option Node
  | .emit _ => none
  | .visit _ node => some node

/-- The nodes that some work visits, in order. -/
def Task.visits (tasks : List Task) : List Node :=
  tasks.filterMap Task.visits?

namespace Task

variable {tasks others : List Task} {node : Node} {inMethod : Bool} {event : Event}

/-- A node is visited either as in a method or not. The list does not tell them apart. -/
theorem mem_visits : node ∈ visits tasks ↔ ∃ inMethod, .visit inMethod node ∈ tasks := by
  rw [visits, List.mem_filterMap]
  constructor
  · rintro ⟨task, hTask, hNode⟩
    cases task with
    | emit event => cases hNode
    | visit inMethod inner =>
        cases hNode
        exact ⟨inMethod, hTask⟩
  · rintro ⟨inMethod, hTask⟩
    exact ⟨_, hTask, rfl⟩

@[simp] theorem visits_nil : visits [] = [] :=
  rfl

@[simp] theorem visits_emit : visits (.emit event :: tasks) = visits tasks :=
  rfl

@[simp] theorem visits_append : visits (tasks ++ others) = visits tasks ++ visits others :=
  List.filterMap_append

@[simp] theorem visits_map_emit (events : List Event) : visits (events.map .emit) = [] :=
  List.filterMap_eq_nil_iff.2 fun task hTask => by
    obtain ⟨event, -, rfl⟩ := List.mem_map.1 hTask
    rfl

theorem visits_flatMap {α : Type} (items : List α) (f : α → List Task) :
    visits (items.flatMap f) = items.flatMap fun item => visits (f item) :=
  List.filterMap_flatMap

end Task

theorem flatMap_fst_zipIdx {α β : Type} (f : α → List β) (items : List α) (start : Nat) :
    ((items.zipIdx start).flatMap fun item => f item.1) = items.flatMap f := by
  rw [← List.flatMap_map Prod.fst f, List.zipIdx_map_fst]

namespace Walker

open Scoping.Task (visits visits_append visits_flatMap)

variable (walker : Walker) (node : Node) (name : String)

@[simp] theorem visits_visit (tasks : List Task) :
    visits (walker.visit node :: tasks) = node :: visits tasks :=
  rfl

@[simp] theorem visits_map_visit (nodes : List Node) : visits (nodes.map walker.visit) = nodes := by
  rw [visits, List.filterMap_map]
  exact List.filterMap_some

@[simp] theorem visits_descend : visits (walker.descend node) = walker.settings.keys.children node :=
  visits_map_visit walker _

/-- A required child brings visits only if it is there. -/
theorem visits_required (next : Node → List Task) :
    visits (required node name next) = (node.child? name).toList.flatMap fun child => visits (next child) := by
  unfold required
  split <;> simp [*]

theorem visits_optional (next : Node → List Task) :
    visits (optional node name next) = (node.child? name).toList.flatMap fun child => visits (next child) := by
  unfold optional
  split <;> simp [*]

@[simp] theorem visits_visitRequired : visits (walker.visitRequired node name) = (node.child? name).toList := by
  rw [visitRequired, visits_required]
  exact List.flatMap_singleton' _

@[simp] theorem visits_visitOptional : visits (walker.visitOptional node name) = (node.child? name).toList := by
  rw [visitOptional, visits_optional]
  exact List.flatMap_singleton' _

@[simp] theorem visits_visitComputed : visits (walker.visitComputed node name) = node.computed name := by
  unfold visitComputed Node.computed
  split <;> simp

@[simp] theorem visits_bind (each : Target → List Event) : visits (walker.bind node each) = [] := by
  unfold bind
  split <;> simp

@[simp] theorem visits_bindAndVisit (each : Target → List Event) :
    visits (walker.bindAndVisit node each) = Pattern.evaluatedIn walker.settings.keys node := by
  unfold bindAndVisit Pattern.evaluatedIn
  split <;> simp [*]

@[simp] theorem visits_assign (left : Node) :
    visits (walker.assign node left) = node.assigned walker.settings.keys left := by
  unfold assign Node.assigned
  split
  · rfl
  · split <;> simp

/-- A declarator visits the same code in the head of a loop as outside of one. -/
theorem visits_declarator (declaration : Node) (item : Node × Nat) (inLoopHead : Bool) :
    visits (walker.declareTargets declaration item.1 item.2 ++ walker.visitOptional item.1 "init" ++
        if inLoopHead then [] else [.emit (.endDeclaration item.1)]) =
      item.1.inDeclarator walker.settings.keys := by
  simp only [Node.inDeclarator, visits_append, visits_visitOptional, declareTargets, visits_required, visits_bindAndVisit]
  split <;> simp

@[simp] theorem visits_declareVariables (inLoopHead : Bool) :
    visits (walker.declareVariables node inLoopHead) = node.declared walker.settings.keys := by
  rw [declareVariables, visits_flatMap, Node.declared]
  simp only [visits_declarator]
  exact flatMap_fst_zipIdx _ (node.children "declarations") 0

@[simp] theorem visits_loopOver (left right : Node) :
    visits (walker.loopOver node left right) = left.looped walker.settings.keys ++ [right] := by
  have hEnds : visits ((left.children "declarations").map fun declarator =>
      .emit (.endDeclaration declarator)) = [] :=
    List.filterMap_eq_nil_iff.2 fun task hTask => by
      obtain ⟨declarator, -, rfl⟩ := List.mem_map.1 hTask
      rfl
  unfold loopOver Node.looped
  split
  · simp only [visits_append, visits_declareVariables, visits_visit, hEnds]
    split <;> split <;> simp [visits_required]
  · simp

@[simp] theorem visits_defineParameters : visits (walker.defineParameters node) =
    (node.children "params").flatMap (Pattern.evaluatedIn walker.settings.keys) := by
  rw [defineParameters, visits_flatMap]
  simp only [visits_bindAndVisit]
  exact flatMap_fst_zipIdx _ (node.children "params") 0

@[simp] theorem visits_defineClassName : visits (defineClassName node) = [] := by
  simp [defineClassName, visits_optional]

@[simp] theorem visits_defineFunction : visits (walker.defineFunction node) =
    (node.children "params").flatMap (Pattern.evaluatedIn walker.settings.keys) ++
      (node.child? "body").toList := by
  simp [defineFunction, apply_ite visits, visits_optional]

@[simp] theorem visits_program : visits (walker.program node) = walker.settings.keys.children node := by
  simp [program, apply_ite visits]

@[simp] theorem visits_importNames : visits (walker.importNames node) = [] := by
  rw [importNames, visits_flatMap, List.flatMap_eq_nil_iff]
  intro specifier _
  split <;> simp

/-- The work at a node visits the same nodes in a method as outside of one. -/
theorem visits_tasks : visits (walker.tasks node) = visited walker.settings node := by
  unfold tasks visited
  cases Role.ofKind node.kind <;> dsimp only
  case update =>
    rw [visits_required]
    cases node.child? "argument" with
    | none => rfl
    | some argument => by_cases hPattern : Pattern.isPattern argument <;> simp [hPattern]
  case forEach =>
    rw [visits_required]
    cases node.child? "left" <;> cases hRight : node.child? "right" <;>
      simp [visits_required, hRight]
  case call => simp [visits_required, apply_ite visits]
  case exportDeclaration =>
    split
    · rfl
    · cases node.child? "declaration" <;> simp
  all_goals simp [within, visits_required, visits_optional, defineClass, catchError, apply_ite visits]

end Walker

end Scoping
