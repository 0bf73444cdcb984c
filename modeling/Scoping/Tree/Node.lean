import Scoping.Failure
import Scoping.Json.Basic
import Scoping.Tree.Location

namespace Scoping

/-- An object of a document whose field `type` is a string. Two nodes of one
document are the same when they stand at one place, whatever they hold. -/
structure Node where
  location : Location
  kind : String
  entries : List (String × Json)
  deriving Inhabited

instance : BEq Node :=
  ⟨fun a b => a.location == b.location⟩

namespace Node

/-- Two nodes are the same if they stand at one place. -/
theorem beq_iff {a b : Node} : (a == b) = true ↔ a.location = b.location :=
  beq_iff_eq (α := Location)

def ofJson? (location : Location) : Json → Option Node
  | .object entries =>
      match entries.lookup "type" with
      | some (.string kind) => some ⟨location, kind, entries⟩
      | _ => none
  | _ => none

def value? (node : Node) (name : String) : Option Json :=
  node.entries.lookup name

/-- The node that a field holds. An array is no node, even one of a node. -/
def child? (node : Node) (name : String) : Option Node :=
  (node.value? name).bind (ofJson? (.field name :: node.location))

/-- As `child?`, for a field that a well-formed tree has. -/
def child (node : Node) (name : String) : Except Failure Node :=
  match node.child? name with
  | some child => .ok child
  | none => .error (.missingField node.kind name)

/-- The nodes that a field holds, whether one or an array. What an array holds
besides nodes is left out, nested arrays included. -/
def children (node : Node) (name : String) : List Node :=
  match node.value? name with
  | some (.array items) =>
      items.zipIdx.filterMap fun (item, position) =>
        ofJson? (.index position :: .field name :: node.location) item
  | _ => (node.child? name).toList

def text? (node : Node) (name : String) : Option String :=
  (node.value? name).bind Json.string?

/-- A field that holds `true`, and no other value that could count as true. -/
def flag (node : Node) (name : String) : Bool :=
  match node.value? name with
  | some (.bool value) => value
  | _ => false

def fieldNames (node : Node) : List String :=
  node.entries.map Prod.fst

def isIdentifier (node : Node) : Bool :=
  node.kind = "Identifier"

/-- The name of an identifier; empty for a node without one. -/
def name (node : Node) : String :=
  (node.text? "name").getD ""

theorem ofJson?_eq_some {location : Location} {value : Json} {node : Node}
    (h : ofJson? location value = some node) :
    node.location = location ∧ value = .object node.entries := by
  unfold ofJson? at h
  grind

/-- A node is smaller than the value that it is read from, which is why a walk ends. -/
theorem sizeOf_ofJson? {location : Location} {value : Json} {node : Node}
    (h : ofJson? location value = some node) : sizeOf node.entries < sizeOf value := by
  rw [(ofJson?_eq_some h).2]
  simp only [Json.object.sizeOf_spec]
  omega

/-- A child stands in its field. -/
theorem child?_location {node child : Node} {name : String} (h : node.child? name = some child) :
    child.location = .field name :: node.location := by
  obtain ⟨_, _, hNode⟩ := Option.bind_eq_some_iff.1 h
  exact (ofJson?_eq_some hNode).1

theorem sizeOf_child? {node child : Node} {name : String} (h : node.child? name = some child) :
    sizeOf child.entries < sizeOf node.entries := by
  obtain ⟨value, hValue, hNode⟩ := Option.bind_eq_some_iff.1 h
  exact Nat.lt_trans (sizeOf_ofJson? hNode) (Json.sizeOf_lookup_lt hValue)

theorem sizeOf_mem_children {node child : Node} {name : String} (h : child ∈ node.children name) :
    sizeOf child.entries < sizeOf node.entries := by
  unfold children at h
  split at h
  · next items hItems =>
      obtain ⟨⟨item, position⟩, hMem, hNode⟩ := List.mem_filterMap.1 h
      have hItem : item ∈ items := List.fst_mem_of_mem_zipIdx hMem
      have hArray := Json.sizeOf_lookup_lt hItems
      have := List.sizeOf_lt_of_mem hItem
      have := sizeOf_ofJson? hNode
      simp only [Json.array.sizeOf_spec] at hArray
      omega
  · exact sizeOf_child? (Option.mem_toList.1 h)

theorem mem_children_of_child? {node child : Node} {name : String}
    (h : node.child? name = some child) : child ∈ node.children name := by
  obtain ⟨value, hValue, hNode⟩ := Option.bind_eq_some_iff.1 h
  obtain ⟨-, rfl⟩ := ofJson?_eq_some hNode
  simp only [children, hValue]
  exact Option.mem_toList.2 h

theorem child_eq_ok {node child : Node} {name : String} :
    node.child name = .ok child ↔ node.child? name = some child := by
  unfold Node.child
  cases node.child? name <;> simp

/-- What a field holds stands further in than the node. -/
theorem location_of_mem_children {node child : Node} {name : String}
    (h : child ∈ node.children name) :
    ∃ steps, steps ≠ [] ∧ child.location = steps ++ node.location := by
  unfold children at h
  split at h
  · obtain ⟨⟨item, position⟩, -, hNode⟩ := List.mem_filterMap.1 h
    exact ⟨[.index position, .field name], by simp, (ofJson?_eq_some hNode).1⟩
  · exact ⟨[.field name], by simp, child?_location (Option.mem_toList.1 h)⟩

/-- A node that a field of another holds. -/
def HasChild (node child : Node) : Prop :=
  ∃ name, child ∈ node.children name

/-- A node that is somewhere inside another. -/
def Contains : Node → Node → Prop :=
  Relation.TransGen HasChild

theorem Contains.trans {a b c : Node} (hFirst : a.Contains b) (hSecond : b.Contains c) :
    a.Contains c :=
  Relation.TransGen.trans hFirst hSecond

theorem contains_of_mem_children {node child : Node} {name : String}
    (h : child ∈ node.children name) : node.Contains child :=
  .single ⟨name, h⟩

theorem contains_of_child? {node child : Node} {name : String}
    (h : node.child? name = some child) : node.Contains child :=
  contains_of_mem_children (mem_children_of_child? h)

/-- What a node contains is smaller. Recursion over nodes rests on this. -/
theorem Contains.sizeOf_lt {node inner : Node} (h : node.Contains inner) :
    sizeOf inner.entries < sizeOf node.entries := by
  induction h with
  | single hChild =>
      obtain ⟨name, hMem⟩ := hChild
      exact sizeOf_mem_children hMem
  | tail _ hChild ih =>
      obtain ⟨name, hMem⟩ := hChild
      exact Nat.lt_trans (sizeOf_mem_children hMem) ih

/-- What is inside a node stands below it. -/
theorem Contains.location {node inner : Node} (h : node.Contains inner) :
    ∃ steps, steps ≠ [] ∧ inner.location = steps ++ node.location := by
  induction h with
  | single hChild =>
      obtain ⟨name, hMem⟩ := hChild
      exact location_of_mem_children hMem
  | tail _ hChild ih =>
      obtain ⟨name, hMem⟩ := hChild
      obtain ⟨lower, -, hLower⟩ := location_of_mem_children hMem
      obtain ⟨upper, hNonempty, hUpper⟩ := ih
      exact ⟨lower ++ upper, by simp [hNonempty], by rw [hLower, hUpper, List.append_assoc]⟩

end Node

end Scoping
