import Scoping.Tree.ChildKeys

namespace Scoping

/-- An identifier that a pattern binds or assigns. -/
structure Target where
  identifier : Node
  /-- The identifier is the whole pattern. -/
  whole : Bool
  /-- The identifier collects what the pattern leaves over. -/
  rest : Bool
  /-- The assignments that give the identifier a value by default, outermost
  first. -/
  defaults : List Node
  deriving Inhabited

/-- What a pattern writes to, and the nodes inside it that are ordinary code:
defaults, computed keys, and what a member target is a member of. -/
structure Pattern where
  targets : List Target := []
  evaluated : List Node := []
  deriving Inhabited

namespace Pattern

/-- The kinds of node that an assignment writes through. The left side of any
other kind is ordinary code. -/
def isPattern (node : Node) : Bool :=
  ["Identifier", "ObjectPattern", "ArrayPattern", "SpreadElement", "RestElement",
    "AssignmentPattern"].contains node.kind

def append (a b : Pattern) : Pattern :=
  ⟨a.targets ++ b.targets, a.evaluated ++ b.evaluated⟩

instance : Append Pattern := ⟨append⟩

def evaluating (nodes : List Node) : Pattern :=
  ⟨[], nodes⟩

/-- The patterns of several nodes, up to the first that has none. -/
def concat : List (Except Failure Pattern) → Except Failure Pattern
  | [] => .ok {}
  | .error failure :: _ => .error failure
  | .ok pattern :: rest =>
      match concat rest with
      | .error failure => .error failure
      | .ok others => .ok (pattern ++ others)

/-- How a node takes part in a pattern. -/
inductive Part where
  | identifier
  | property
  | default
  | rest
  | member
  | call
  | other
  deriving DecidableEq, Repr, Inhabited

def Part.ofKind : String → Part
  | "Identifier" => .identifier
  | "Property" => .property
  | "AssignmentPattern" | "AssignmentExpression" => .default
  | "RestElement" => .rest
  | "MemberExpression" => .member
  | "CallExpression" => .call
  | _ => .other

/-- Where in a pattern a node stands. -/
structure Place where
  root : Node
  defaults : List Node := []
  innermostRest : Option Node := none
  deriving Inhabited

def Place.target (place : Place) (identifier : Node) : Target where
  identifier := identifier
  whole := identifier == place.root
  rest := place.innermostRest.any fun rest => rest.child? "argument" == some identifier
  defaults := place.defaults

/-- The name of a property or member, where it is computed. -/
def computedName (node : Node) (name : String) : Except Failure (List Node) :=
  if node.flag "computed" then
    match node.child name with
    | .error failure => .error failure
    | .ok key => .ok [key]
  else .ok []

/-- The pattern at `node` inside a larger one. The argument of a rest element
and the left side of a default are again patterns, and a node that is not
mentioned here is descended into. -/
def collect (keys : ChildKeys) (place : Place) (node : Node) : Except Failure Pattern :=
  match Part.ofKind node.kind with
  | .identifier => .ok ⟨[place.target node], []⟩
  | .property =>
      match computedName node "key", _h : node.child? "value" with
      | .error failure, _ => .error failure
      | .ok key, none => .ok (evaluating key)
      | .ok key, some value =>
          match collect keys place value with
          | .error failure => .error failure
          | .ok inner => .ok (evaluating key ++ inner)
  | .default =>
      match _h : node.child? "left" with
      | none => .error (.missingField node.kind "left")
      | some left =>
          match collect keys { place with defaults := place.defaults ++ [node] } left,
              node.child "right" with
          | .error failure, _ => .error failure
          | .ok _, .error failure => .error failure
          | .ok inner, .ok right => .ok (inner ++ evaluating [right])
  | .rest =>
      match _h : node.child? "argument" with
      | none => .error (.missingField node.kind "argument")
      | some argument => collect keys { place with innermostRest := some node } argument
  | .member =>
      match computedName node "property", node.child "object" with
      | .error failure, _ => .error failure
      | .ok _, .error failure => .error failure
      | .ok key, .ok object => .ok (evaluating (key ++ [object]))
  | .call =>
      match _h : node.child? "callee" with
      | none => .error (.missingField node.kind "callee")
      | some callee =>
          match collect keys place callee with
          | .error failure => .error failure
          | .ok inner => .ok (evaluating (node.children "arguments") ++ inner)
  | .other =>
      concat ((keys.children node).attach.map fun ⟨child, _⟩ => collect keys place child)
termination_by sizeOf node.entries
decreasing_by
  all_goals first
    | exact Node.sizeOf_child? ‹_›
    | exact ChildKeys.sizeOf_mem_children ‹_›

/-- The pattern that a whole node is. -/
def ofNode (keys : ChildKeys) (node : Node) : Except Failure Pattern :=
  collect keys { root := node } node

end Pattern

end Scoping
