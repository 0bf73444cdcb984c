import Scoping.Tree.KnownFields
import Scoping.Tree.Node

namespace Scoping

/-- How to descend into a node of a kind that has no list of fields. -/
inductive Fallback where
  | iteration
  | leaf
  deriving DecidableEq, Repr, Inhabited

def Fallback.ofWord? : String → Option Fallback
  | "iteration" => some .iteration
  | "none" => some .leaf
  | _ => none

/-- Which fields of a node are descended into. A list given for a kind replaces
the known one. -/
structure ChildKeys where
  custom : List (String × List String) := []
  fallback : Fallback := .iteration
  deriving Repr, Inhabited

namespace ChildKeys

/-- These fields point back up or hold comments. -/
def isSkipped (name : String) : Bool :=
  ["parent", "leadingComments", "trailingComments"].contains name

/-- The fields to descend into, in order. A field may be listed twice, and may
be one that the node lacks. -/
def fields (keys : ChildKeys) (node : Node) : List String :=
  match (keys.custom.lookup node.kind).or (knownFields.lookup node.kind), keys.fallback with
  | some names, _ => names
  | none, .iteration => node.fieldNames.filter fun name => !isSkipped name
  | none, .leaf => []

def children (keys : ChildKeys) (node : Node) : List Node :=
  (keys.fields node).flatMap node.children

theorem sizeOf_mem_children {keys : ChildKeys} {node child : Node}
    (h : child ∈ keys.children node) : sizeOf child.entries < sizeOf node.entries := by
  obtain ⟨name, _, hChild⟩ := List.mem_flatMap.1 h
  exact Node.sizeOf_mem_children hChild

theorem hasChild_of_mem_children {keys : ChildKeys} {node child : Node}
    (h : child ∈ keys.children node) : node.HasChild child := by
  obtain ⟨name, _, hChild⟩ := List.mem_flatMap.1 h
  exact ⟨name, hChild⟩

theorem contains_of_mem_children {keys : ChildKeys} {node child : Node}
    (h : child ∈ keys.children node) : node.Contains child :=
  .single (hasChild_of_mem_children h)

/-- The nodes that a descent meets, each before what is inside it. This is the descent
of a visitor that keeps every one of its hooks as it is. All of them do the same: they go
on to the children of the node, whatever its kind. -/
def walk (keys : ChildKeys) (node : Node) : List Node :=
  node :: (keys.children node).attach.flatMap fun ⟨child, _⟩ => keys.walk child
termination_by sizeOf node.entries
decreasing_by exact sizeOf_mem_children ‹_›

theorem walk_eq (keys : ChildKeys) (node : Node) :
    keys.walk node = node :: (keys.children node).flatMap keys.walk := by
  rw [walk]
  simp [List.flatMap_subtype]

end ChildKeys

end Scoping
