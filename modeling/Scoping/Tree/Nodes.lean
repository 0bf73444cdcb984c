import Scoping.Tree.Basic
import Scoping.Tree.Holding
import Scoping.Tree.NamesOnce

/-! The nodes of a document are those that its root holds. -/

namespace Scoping

/-- The kind of an object that is a node. -/
def Json.kind? (fields : List (String × Json)) : Option String :=
  (fields.lookup "type").bind Json.string?

/-- The kind of a node is the one that its entries give. -/
def Node.IsTyped (node : Node) : Prop :=
  Json.kind? node.entries = some node.kind

theorem Node.isTyped_of_ofJson? {location : Location} {value : Json} {node : Node}
    (h : ofJson? location value = some node) : node.IsTyped := by
  unfold ofJson? at h
  split at h
  · split at h
    · next hKind =>
        cases h
        rw [IsTyped, Json.kind?, hKind]
        rfl
    · cases h
  · cases h

theorem Tree.ofJson?_eq_ok {value : Json} {tree : Tree} (h : Tree.ofJson? value = .ok tree) :
    Node.ofJson? [] value = some tree.root := by
  unfold Tree.ofJson? at h
  split at h
  · next root hRoot =>
      cases h
      exact hRoot
  · cases h

theorem Node.isTyped_of_mem_children {node child : Node} {name : String}
    (h : child ∈ node.children name) : child.IsTyped := by
  rcases mem_children h with ⟨_, -, hNode⟩ | ⟨_, _, _, -, -, hNode⟩ <;>
    exact isTyped_of_ofJson? hNode

theorem Node.Contains.isTyped {node inner : Node} (h : node.Contains inner) : inner.IsTyped := by
  cases h with
  | single hChild | tail _ hChild => exact isTyped_of_mem_children hChild.choose_spec

namespace Tree

variable {location : Location} {entries : List (String × Json)} {node child : Node}

theorem mem_nodesOfEntries {name : String} {value : Json} (h : (name, value) ∈ entries)
    (hNode : node ∈ nodesAt (.field name :: location) value) :
    node ∈ nodesOfEntries location entries := by
  induction entries with
  | nil => cases h
  | cons entry rest ih =>
      rw [nodesOfEntries, List.mem_append]
      rcases List.mem_cons.1 h with rfl | hRest
      · exact .inl hNode
      · exact .inr (ih hRest)

theorem mem_nodesOfItems {items : List Json} {start position : Nat} {item : Json}
    (h : items[position]? = some item)
    (hNode : node ∈ nodesAt (.index (start + position) :: location) item) :
    node ∈ nodesOfItems location start items := by
  induction items generalizing start position with
  | nil => cases h
  | cons first rest ih =>
      rw [nodesOfItems, List.mem_append]
      cases position with
      | zero =>
          cases h
          exact .inl hNode
      | succ position =>
          refine .inr (ih h ?_)
          rwa [Nat.add_right_comm, Nat.add_assoc]

theorem mem_nodesAt_of_isTyped (h : node.IsTyped) :
    node ∈ nodesAt node.location (.object node.entries) := by
  obtain ⟨value, hValue, hKind⟩ := Option.bind_eq_some_iff.1 h
  cases value <;> cases hKind
  rw [nodesAt, List.mem_append, Node.ofJson?, hValue]
  exact .inl List.mem_cons_self

theorem nodesAt_subset_of_mem_children {name : String} (h : child ∈ node.children name) :
    nodesAt child.location (.object child.entries) ⊆ nodesAt node.location (.object node.entries) := by
  intro inner hInner
  rw [nodesAt, List.mem_append]
  rcases Node.mem_children h with ⟨value, hValue, hChild⟩ | ⟨items, position, item, hItems, hItem, hChild⟩ <;>
    obtain ⟨hLocation, rfl⟩ := Node.ofJson?_eq_some hChild <;>
    rw [hLocation] at hInner
  · exact .inr (mem_nodesOfEntries (Json.mem_of_lookup hValue) hInner)
  · refine .inr (mem_nodesOfEntries (Json.mem_of_lookup hItems) ?_)
    rw [nodesAt]
    exact mem_nodesOfItems hItem (by rwa [Nat.zero_add])

/-- All that the root of a document holds is among the nodes of the document. -/
theorem mem_nodes_of_holds {tree : Tree} (hTyped : tree.root.IsTyped) (hRoot : tree.root.location = [])
    (h : tree.root.Holds node) : node ∈ tree.nodes := by
  have hInside : nodesAt node.location (.object node.entries) ⊆ tree.nodes := by
    rw [nodes, ← hRoot]
    rcases h with rfl | hContains
    · exact List.Subset.refl _
    · induction hContains with
      | single hChild => exact nodesAt_subset_of_mem_children hChild.choose_spec
      | tail _ hChild ih => exact List.Subset.trans (nodesAt_subset_of_mem_children hChild.choose_spec) ih
  rcases h with rfl | hContains
  · exact hInside (mem_nodesAt_of_isTyped hTyped)
  · exact hInside (mem_nodesAt_of_isTyped hContains.isTyped)

end Tree

end Scoping
