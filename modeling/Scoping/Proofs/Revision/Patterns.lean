import Scoping.Proofs.Reordering.Patterns
import Scoping.Proofs.Revision.Documents

/-! Patterns of a revised document. The name of a property or of a member is part of
a pattern only if it is computed, and so is the same as before. -/

namespace Scoping.Revision

variable {keys : ChildKeys}

def target (r : Revision keys) (target : Target) : Target where
  identifier := r.node target.identifier
  whole := target.whole
  rest := target.rest
  defaults := target.defaults.map r.node

def placed (r : Revision keys) (place : Pattern.Place) : Pattern.Place where
  root := r.node place.root
  defaults := place.defaults.map r.node
  innermostRest := place.innermostRest.map r.node

def pattern (r : Revision keys) (pattern : Pattern) : Pattern where
  targets := pattern.targets.map r.target
  evaluated := pattern.evaluated.map r.node

variable {r : Revision keys} {node : Node} {name : String} {place : Pattern.Place}

theorem beq_child?_node {other : Node} (h : r.Keeps node name) :
    ((r.node node).child? name == some (r.node other)) = (node.child? name == some other) := by
  rw [child?_node h]
  cases node.child? name <;> rfl

@[simp] theorem target_placed :
    (r.placed place).target (r.node node) = r.target (place.target node) := by
  have hRest : (r.placed place).innermostRest.any
      (fun rest => rest.child? "argument" == some (r.node node)) =
      place.innermostRest.any fun rest => rest.child? "argument" == some node := by
    rw [placed, Option.any_map]
    exact congrArg (Option.any · _) (funext fun rest => beq_child?_node (keeps rest (by decide)))
  rw [Pattern.Place.target, hRest]
  rfl

@[simp] theorem pattern_append (first second : Pattern) :
    r.pattern (first ++ second) = r.pattern first ++ r.pattern second :=
  congrArg₂ Pattern.mk List.map_append List.map_append

@[simp] theorem pattern_evaluating (nodes : List Node) :
    r.pattern (.evaluating nodes) = .evaluating (nodes.map r.node) :=
  rfl

theorem computedName_node :
    Pattern.computedName (r.node node) name =
      (Pattern.computedName node name).map (List.map r.node) := by
  unfold Pattern.computedName
  rw [flag_node (keeps node (by decide))]
  split
  · next hComputed =>
      rw [child_node (keeps_of_computed name hComputed)]
      cases node.child name <;> rfl
  · rfl

theorem concat_map (patterns : List (Except Failure Pattern)) :
    Pattern.concat (patterns.map (Except.map r.pattern)) =
      (Pattern.concat patterns).map r.pattern := by
  induction patterns with
  | nil => rfl
  | cons first rest ih =>
      cases first with
      | error failure => rfl
      | ok pattern =>
          change Pattern.concat (.ok (r.pattern pattern) :: rest.map (Except.map r.pattern)) = _
          rw [Pattern.concat, Pattern.concat, ih]
          cases Pattern.concat rest with
          | error failure => rfl
          | ok others => exact congrArg Except.ok (pattern_append pattern others).symm

/-- The patterns inside a node are the revised patterns that they were before. -/
def InnerCollects (r : Revision keys) (node : Node) : Prop :=
  ∀ (place : Pattern.Place) (child : Node), node.Contains child →
    Pattern.collect keys (r.placed place) (r.node child) =
      (Pattern.collect keys place child).map r.pattern

theorem collect_property (hInner : r.InnerCollects node)
    (hPart : Pattern.Part.ofKind node.kind = .property) :
    Pattern.collect keys (r.placed place) (r.node node) =
      (Pattern.collect keys place node).map r.pattern := by
  rw [Pattern.collect_eq, Pattern.collect_eq, kind_node, hPart]
  dsimp only
  rw [computedName_node, child?_node (keeps node (by decide))]
  cases Pattern.computedName node "key" with
  | error failure => rfl
  | ok key =>
      cases hValue : node.child? "value" with
      | none => rfl
      | some value =>
          have hHere := hInner place value (Node.contains_of_child? hValue)
          simp only [Except.map, Option.map_some, hHere]
          cases Pattern.collect keys place value <;> simp

theorem collect_default (hInner : r.InnerCollects node)
    (hPart : Pattern.Part.ofKind node.kind = .default) :
    Pattern.collect keys (r.placed place) (r.node node) =
      (Pattern.collect keys place node).map r.pattern := by
  rw [Pattern.collect_eq, Pattern.collect_eq, kind_node, hPart]
  dsimp only
  rw [child?_node (keeps node (by decide)), child_node (keeps node (by decide))]
  cases hLeft : node.child? "left" with
  | none => rfl
  | some left =>
      have hHere := hInner { place with defaults := place.defaults ++ [node] } left
        (Node.contains_of_child? hLeft)
      simp only [placed, List.map_append, List.map_cons, List.map_nil] at hHere
      simp only [Option.map_some, placed, hHere]
      cases Pattern.collect keys { place with defaults := place.defaults ++ [node] } left with
      | error failure => rfl
      | ok inner => cases node.child "right" <;> simp [Except.map]

theorem collect_call (hInner : r.InnerCollects node)
    (hPart : Pattern.Part.ofKind node.kind = .call) :
    Pattern.collect keys (r.placed place) (r.node node) =
      (Pattern.collect keys place node).map r.pattern := by
  rw [Pattern.collect_eq, Pattern.collect_eq, kind_node, hPart]
  dsimp only
  rw [child?_node (keeps node (by decide)), children_node (keeps node (by decide))]
  cases hCallee : node.child? "callee" with
  | none => rfl
  | some callee =>
      have hHere := hInner place callee (Node.contains_of_child? hCallee)
      simp only [Option.map_some, hHere]
      cases Pattern.collect keys place callee <;> simp [Except.map]

/-- Any other node is descended into, and keeps all that it holds. -/
theorem collect_other (hInner : r.InnerCollects node) (hTyped : node.IsTyped)
    (hPart : Pattern.Part.ofKind node.kind = .other) :
    Pattern.collect keys (r.placed place) (r.node node) =
      (Pattern.collect keys place node).map r.pattern := by
  have hKeeps : r.KeepsAll node := keepsAll_of_kind hTyped
    (fun hKind => by rw [hKind] at hPart; cases hPart)
    fun hKind => by rw [hKind] at hPart; cases hPart
  rw [Pattern.collect_eq, Pattern.collect_eq, kind_node, hPart]
  dsimp only
  rw [keyed_node hTyped hKeeps, ← concat_map, List.map_map, List.map_map]
  refine congrArg Pattern.concat (List.map_congr_left fun child hMem => ?_)
  exact hInner place child (ChildKeys.contains_of_mem_children hMem)

/-- The pattern of a node is the revised pattern that it was before. -/
theorem collect_node (place : Pattern.Place) (hTyped : node.IsTyped) :
    Pattern.collect keys (r.placed place) (r.node node) =
      (Pattern.collect keys place node).map r.pattern := by
  induction hSize : sizeOf node.entries using Nat.strongRecOn generalizing node place with
  | ind size ih =>
      have hInner : r.InnerCollects node := fun place child hContains =>
        ih _ (hSize ▸ hContains.sizeOf_lt) place hContains.isTyped rfl
      cases hPart : Pattern.Part.ofKind node.kind with
      | identifier =>
          rw [Pattern.collect_eq, Pattern.collect_eq, kind_node, hPart]
          dsimp only
          rw [target_placed]
          rfl
      | property => exact collect_property hInner hPart
      | default => exact collect_default hInner hPart
      | rest =>
          rw [Pattern.collect_eq, Pattern.collect_eq, kind_node, hPart]
          dsimp only
          rw [child?_node (keeps node (by decide))]
          cases hArgument : node.child? "argument" with
          | none => rfl
          | some argument =>
              exact hInner { place with innermostRest := some node } argument
                (Node.contains_of_child? hArgument)
      | member =>
          rw [Pattern.collect_eq, Pattern.collect_eq, kind_node, hPart]
          dsimp only
          rw [computedName_node, child_node (keeps node (by decide))]
          cases Pattern.computedName node "property" with
          | error failure => rfl
          | ok key => cases node.child "object" <;> simp [Except.map]
      | call => exact collect_call hInner hPart
      | other => exact collect_other hInner hTyped hPart

theorem ofNode_node (hTyped : node.IsTyped) :
    Pattern.ofNode keys (r.node node) = (Pattern.ofNode keys node).map r.pattern :=
  collect_node { root := node } hTyped

end Scoping.Revision
