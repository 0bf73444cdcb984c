import Scoping.Proofs.Reordering.Patterns
import Scoping.Walk.Inside

/-! The work at a node of a rearranged document. It is the same as before, but
for the order of what goes on between two changes of scope. -/

namespace Scoping.Rearrangement

def definition (r : Rearrangement) (definition : Definition) : Definition :=
  { definition with
    name := r.node definition.name
    node := r.node definition.node
    parent := definition.parent.map r.node }

def use (r : Rearrangement) (use : Use) : Use :=
  { use with
    identifier := r.node use.identifier
    writeExpr := use.writeExpr.map r.node
    implicitGlobal := use.implicitGlobal.map r.node }

def event (r : Rearrangement) : Event → Event
  | .enter kind block inMethod => .enter kind (r.node block) inMethod
  | .leave block => .leave (r.node block)
  | .setStrict strict => .setStrict strict
  | .define destination identifier definition =>
      .define destination (r.node identifier) (r.definition definition)
  | .use use => .use (r.use use)
  | .directEval => .directEval
  | .thisExpression => .thisExpression
  | .bodyStart => .bodyStart
  | .endDeclaration node => .endDeclaration (r.node node)
  | .fail failure => .fail failure

def task (r : Rearrangement) : Task → Task
  | .emit event => .emit (r.event event)
  | .visit inMethod node => .visit inMethod (r.node node)

/-- Work in which no child is found to be missing. -/
def Sound (tasks : List Task) : Prop :=
  ∀ failure, .emit (.fail failure) ∉ tasks

/-- Work that becomes other work, up to its order, unless it fails. What fails
first depends on the order. -/
def Yields (r : Rearrangement) (before after : List Task) : Prop :=
  Sound before → (before.map r.task).Perm after

variable {r : Rearrangement} {walker : Walker} {node child : Node} {name : String}
  {a b a' b' : List Task}

theorem sound_append : Sound (a ++ b) ↔ Sound a ∧ Sound b := by
  simp only [Sound, List.mem_append, not_or, forall_and]

theorem sound_cons {task : Task} (h : Sound (task :: a)) : Sound a :=
  fun failure hMem => h failure (List.mem_cons_of_mem _ hMem)

/-- Work that is the same, task by task, is so in any order. -/
theorem yields_of_eq (h : a.map r.task = a') : r.Yields a a' :=
  fun _ => .of_eq h

theorem Yields.append (hFirst : r.Yields a a') (hSecond : r.Yields b b') :
    r.Yields (a ++ b) (a' ++ b') := fun hSound => by
  obtain ⟨hA, hB⟩ := sound_append.1 hSound
  rw [List.map_append]
  exact (hFirst hA).append (hSecond hB)

theorem Yields.cons (task : Task) (h : r.Yields a a') : r.Yields (task :: a) (r.task task :: a') :=
  fun hSound => (h (sound_cons hSound)).cons _

theorem yields_ite {condition : Prop} [Decidable condition] (hThen : r.Yields a a')
    (hElse : r.Yields b b') :
    r.Yields (if condition then a else b) (if condition then a' else b') := by
  split
  · exact hThen
  · exact hElse

theorem yields_flatMap {α β : Type} {items : List α} {f : α → List Task} {g : β → List Task}
    {change : α → β} (h : ∀ item ∈ items, r.Yields (f item) (g (change item))) :
    r.Yields (items.flatMap f) ((items.map change).flatMap g) := by
  induction items with
  | nil => exact yields_of_eq rfl
  | cons item rest ih =>
      rw [List.flatMap_cons, List.map_cons, List.flatMap_cons]
      exact (h item List.mem_cons_self).append
        (ih fun other hOther => h other (List.mem_cons_of_mem _ hOther))

/-- What work becomes may be put in another order again. -/
theorem Yields.trans_perm (h : r.Yields a a') (hPerm : a'.Perm b') : r.Yields a b' :=
  fun hSound => (h hSound).trans hPerm

/-- Visits of the same nodes in another order. -/
theorem yields_map_visit {nodes moved : List Node} (h : (nodes.map r.node).Perm moved) :
    r.Yields (nodes.map walker.visit) (moved.map walker.visit) := fun _ => by
  have hVisits := h.map walker.visit
  rw [List.map_map] at hVisits ⊢
  exact hVisits

/-- Plain events in another order. -/
theorem yields_map_emit {events moved : List Event} (h : (events.map r.event).Perm moved) :
    r.Yields (events.map .emit) (moved.map .emit) := fun _ => by
  have hEmits := h.map Task.emit
  rw [List.map_map] at hEmits ⊢
  exact hEmits

theorem yields_descend (h : r.SuitsAll node) :
    r.Yields (walker.descend node) (walker.descend (r.node node)) :=
  yields_map_visit (keyed_node h.self)

/-- A required child that is missing makes the work fail, of which nothing is said. -/
theorem yields_required {next other : Node → List Task}
    (h : ∀ child, node.child? name = some child → r.Yields (next child) (other (r.node child))) :
    r.Yields (Walker.required node name next) (Walker.required (r.node node) name other) := by
  unfold Walker.required
  rw [child?_node]
  cases hChild : node.child? name with
  | none => exact fun hSound => absurd List.mem_cons_self (hSound _)
  | some child => exact h child hChild

theorem yields_optional {next other : Node → List Task}
    (h : ∀ child, node.child? name = some child → r.Yields (next child) (other (r.node child))) :
    r.Yields (Walker.optional node name next) (Walker.optional (r.node node) name other) := by
  unfold Walker.optional
  rw [child?_node]
  cases hChild : node.child? name with
  | none => exact yields_of_eq rfl
  | some child => exact h child hChild

theorem yields_visitRequired :
    r.Yields (walker.visitRequired node name) (walker.visitRequired (r.node node) name) :=
  yields_required fun _ _ => yields_of_eq rfl

theorem yields_visitOptional :
    r.Yields (walker.visitOptional node name) (walker.visitOptional (r.node node) name) :=
  yields_optional fun _ _ => yields_of_eq rfl

theorem yields_visitComputed :
    r.Yields (walker.visitComputed node name) (walker.visitComputed (r.node node) name) := by
  unfold Walker.visitComputed
  rw [flag_node]
  exact yields_ite yields_visitRequired (yields_of_eq rfl)

/-- Events for a target that become those for what the target becomes. -/
def Agree (r : Rearrangement) (each other : Target → List Event) : Prop :=
  ∀ target, (each target).map r.event = other (r.target target)

/-- The targets of a pattern may come in another order, each with all its events. -/
theorem Agree.flatMap_perm {each other : Target → List Event} (h : r.Agree each other)
    {targets moved : List Target} (hTargets : (targets.map r.target).Perm moved) :
    ((targets.flatMap each).map r.event).Perm (moved.flatMap other) := by
  refine List.Perm.trans (.of_eq ?_) (hTargets.flatMap_right other)
  rw [List.map_flatMap, List.flatMap_map]
  exact List.flatMap_congr fun target _ => h target

/-- The targets of a pattern stay the same up to their order, each with the events that it
had. -/
theorem yields_bind {pattern : Node} {each other : Target → List Event}
    (hSuits : r.SuitsAll pattern) (h : r.Agree each other) :
    r.Yields (walker.bind pattern each) (walker.bind (r.node pattern) other) := by
  unfold Walker.bind
  cases hFound : Pattern.ofNode walker.settings.keys pattern with
  | error failure => exact fun hSound => absurd List.mem_cons_self (hSound _)
  | ok found =>
      obtain ⟨after, hAfter, hBecomes⟩ := ofNode_node hSuits hFound
      rw [hAfter]
      exact yields_map_emit (h.flatMap_perm hBecomes.targets)

theorem yields_bindAndVisit {pattern : Node} {each other : Target → List Event}
    (hSuits : r.SuitsAll pattern) (h : r.Agree each other) :
    r.Yields (walker.bindAndVisit pattern each) (walker.bindAndVisit (r.node pattern) other) := by
  unfold Walker.bindAndVisit
  cases hFound : Pattern.ofNode walker.settings.keys pattern with
  | error failure => exact fun hSound => absurd List.mem_cons_self (hSound _)
  | ok found =>
      obtain ⟨after, hAfter, hBecomes⟩ := ofNode_node hSuits hFound
      rw [hAfter]
      exact (yields_map_emit (h.flatMap_perm hBecomes.targets)).append
        (yields_map_visit hBecomes.evaluated)

theorem beq_child?_node {first : Option Node} :
    (first.map r.node != some (r.node node)) = (first != some node) := by
  cases first with
  | none => rfl
  | some found => exact congrArg not beq_node

theorem writeDefaults_target (target : Target) (implicitGlobal : Option Node) (init : Bool) :
    (Walker.writeDefaults target implicitGlobal init).map r.event =
      Walker.writeDefaults (r.target target) (implicitGlobal.map r.node) init := by
  simp only [Walker.writeDefaults, Rearrangement.target, List.map_map]
  refine List.map_congr_left fun assignment _ => ?_
  simp only [Function.comp_apply, event, use, child?_node, beq_child?_node]

/-- An assignment to a pattern writes to the same targets, up to their order. -/
theorem yields_assign {left : Node} (hLeft : r.SuitsAll left) :
    r.Yields (walker.assign node left) (walker.assign (r.node node) (r.node left)) := by
  unfold Walker.assign
  have hPattern : Pattern.isPattern (r.node left) = Pattern.isPattern left := rfl
  rw [hPattern, text?_node]
  refine yields_ite (yields_of_eq rfl) (yields_ite ?_ ?_)
  · refine yields_bindAndVisit hLeft fun target => ?_
    rw [List.map_append, writeDefaults_target, child?_node]
    rfl
  · rw [child?_node]
    exact yields_of_eq rfl

/-- A declarator keeps its position, as only items of the body at hand change places. -/
theorem yields_declareTargets {declaration declarator : Node} {position : Nat}
    (hSuits : r.SuitsAll declarator) :
    r.Yields (walker.declareTargets declaration declarator position)
      (walker.declareTargets (r.node declaration) (r.node declarator) position) := by
  unfold Walker.declareTargets
  dsimp only
  refine yields_required fun id hId => ?_
  refine yields_bindAndVisit (hSuits.of_contains (Node.contains_of_child? hId)) fun target => ?_
  rw [List.map_append, List.map_cons, writeDefaults_target, text?_node, child?_node]
  cases declarator.child? "init" <;> rfl

theorem map_zipIdx_node (nodes : List Node) :
    (nodes.map r.node).zipIdx =
      nodes.zipIdx.map fun (node, position) => (r.node node, position) := by
  rw [List.zipIdx_map]
  rfl

/-- Declarators stay in order, as they are the items of no body. -/
theorem yields_declareVariables {declaration : Node} {inLoopHead : Bool}
    (hSuits : r.SuitsAll declaration) :
    r.Yields (walker.declareVariables declaration inLoopHead)
      (walker.declareVariables (r.node declaration) inLoopHead) := by
  unfold Walker.declareVariables
  rw [children_node_of_ne hSuits.self (by decide), map_zipIdx_node]
  refine yields_flatMap fun (declarator, position) hMem => ?_
  have hDeclarator := hSuits.of_contains
    (Node.contains_of_mem_children (List.fst_mem_of_mem_zipIdx hMem))
  refine ((yields_declareTargets hDeclarator).append yields_visitOptional).append ?_
  split
  · exact yields_of_eq rfl
  · exact yields_of_eq rfl

/-- So do parameters, each of which keeps its position. -/
theorem yields_defineParameters (hSuits : r.SuitsAll node) :
    r.Yields (walker.defineParameters node) (walker.defineParameters (r.node node)) := by
  unfold Walker.defineParameters
  rw [children_node_of_ne hSuits.self (by decide), map_zipIdx_node]
  refine yields_flatMap fun (parameter, position) hMem => ?_
  refine yields_bindAndVisit (hSuits.of_contains
    (Node.contains_of_mem_children (List.fst_mem_of_mem_zipIdx hMem))) fun target => ?_
  rw [List.map_cons, writeDefaults_target]
  rfl

theorem yields_defineClassName :
    r.Yields (Walker.defineClassName node) (Walker.defineClassName (r.node node)) :=
  yields_optional fun _ _ => yields_of_eq rfl

/-- The specifiers of an import are found in some order. Those that are found suit the
rearrangement. -/
theorem importSpecifiers_node (keys : ChildKeys) (hSuits : r.SuitsAll node) :
    ((Walker.importSpecifiers keys node).map r.node).Perm
        (Walker.importSpecifiers keys (r.node node)) ∧
      ∀ specifier ∈ Walker.importSpecifiers keys node, r.SuitsAll specifier := by
  induction hSize : sizeOf node.entries using Nat.strongRecOn generalizing node with
  | ind size ih =>
      have hEach : ∀ child ∈ keys.children node, _ := fun child hChild =>
        ih _ (hSize ▸ ChildKeys.sizeOf_mem_children hChild)
          (hSuits.of_contains (ChildKeys.contains_of_mem_children hChild)) rfl
      have hSame : Walker.isImportSpecifier (r.node node) = Walker.isImportSpecifier node := rfl
      rw [Walker.importSpecifiers_eq, Walker.importSpecifiers_eq, hSame]
      split
      · refine ⟨.refl _, fun specifier hMem => ?_⟩
        rw [List.mem_singleton.1 hMem]
        exact hSuits
      · constructor
        · rw [List.map_flatMap]
          refine List.Perm.trans (List.Perm.flatMap_left _ fun child hChild => (hEach child hChild).1) ?_
          rw [← List.flatMap_map r.node]
          exact (keyed_node hSuits.self).flatMap_right _
        · intro specifier hMem
          obtain ⟨child, hChild, hInner⟩ := List.mem_flatMap.1 hMem
          exact (hEach child hChild).2 specifier hInner

theorem importedName?_node :
    Walker.importedName? (r.node node) = (Walker.importedName? node).map r.node := by
  unfold Walker.importedName?
  rw [kind_node, child?_node, child?_node]
  split
  · rfl
  · rfl
  · cases node.child? "local" <;> rfl
  · rfl

/-- An import defines the same names, whatever the order of its specifiers. -/
theorem yields_importNames (hSuits : r.SuitsAll node) :
    r.Yields (walker.importNames node) (walker.importNames (r.node node)) := by
  obtain ⟨hPerm, hSpecifiers⟩ :=
    importSpecifiers_node walker.settings.keys hSuits
  unfold Walker.importNames
  refine Yields.trans_perm ?_ (hPerm.flatMap_right _)
  refine yields_flatMap fun specifier hMem => ?_
  rw [importedName?_node]
  cases hName : Walker.importedName? specifier with
  | none => exact yields_of_eq rfl
  | some name =>
      exact yields_bind ((hSpecifiers specifier hMem).of_contains (Walker.contains_importedName? hName))
        fun target => rfl

end Scoping.Rearrangement
