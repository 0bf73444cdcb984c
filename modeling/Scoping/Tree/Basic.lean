import Scoping.Json.Reader
import Scoping.Tree.Node

namespace Scoping

/-- A document whose root is a node. -/
structure Tree where
  root : Node
  deriving Inhabited

namespace Tree

/-- The containers that a text may hold inside one another. -/
def depthLimit : Nat := 127

def ofJson? (value : Json) : Except Rejection Tree :=
  match Node.ofJson? [] value with
  | some root => .ok ⟨root⟩
  | none => .error .rootNotANode

def ofText? (text : String) : Except Rejection Tree :=
  match Json.read? depthLimit text with
  | some value => ofJson? value
  | none => .error .notJson

mutual

/-- The nodes of a value in document order. Nodes are also found inside
objects that are none, and inside nested arrays. -/
def nodesAt (location : Location) : Json → List Node
  | .array items => nodesOfItems location 0 items
  | .object entries =>
      (Node.ofJson? location (.object entries)).toList ++ nodesOfEntries location entries
  | _ => []

def nodesOfItems (location : Location) (position : Nat) : List Json → List Node
  | [] => []
  | item :: rest =>
      nodesAt (.index position :: location) item ++ nodesOfItems location (position + 1) rest

def nodesOfEntries (location : Location) : List (String × Json) → List Node
  | [] => []
  | (name, value) :: rest =>
      nodesAt (.field name :: location) value ++ nodesOfEntries location rest

end

def nodes (tree : Tree) : List Node :=
  nodesAt [] (.object tree.root.entries)

/-- The first node whose location is written like this. -/
def find? (tree : Tree) (path : String) : Option Node :=
  tree.nodes.find? fun node => node.location.path = path

end Tree

end Scoping
