namespace Scoping

/-- What a walk does at a node, by its kind. -/
inductive Role where
  | program
  | identifier
  /-- Nothing inside the node is looked at. -/
  | silent
  | assignment
  | update
  | member
  | property
  | field
  | staticBlock
  | method
  | labelled
  | forLoop
  | forEach
  | classDefinition
  | call
  | block
  | thisExpression
  | withStatement
  | variableDeclaration
  | switchStatement
  | function
  | catchClause
  | importDeclaration
  | exportDeclaration
  | exportSpecifier
  /-- The node stands for what is inside it. -/
  | plain
  deriving DecidableEq, Repr, Inhabited

def Role.ofKind : String → Role
  | "Program" => .program
  | "Identifier" => .identifier
  | "PrivateIdentifier" | "BreakStatement" | "ContinueStatement" | "ExportAllDeclaration"
  | "MetaProperty" => .silent
  | "AssignmentExpression" => .assignment
  | "UpdateExpression" => .update
  | "MemberExpression" => .member
  | "Property" => .property
  | "PropertyDefinition" => .field
  | "StaticBlock" => .staticBlock
  | "MethodDefinition" => .method
  | "LabeledStatement" => .labelled
  | "ForStatement" => .forLoop
  | "ForInStatement" | "ForOfStatement" => .forEach
  | "ClassExpression" | "ClassDeclaration" => .classDefinition
  | "CallExpression" => .call
  | "BlockStatement" => .block
  | "ThisExpression" => .thisExpression
  | "WithStatement" => .withStatement
  | "VariableDeclaration" => .variableDeclaration
  | "SwitchStatement" => .switchStatement
  | "FunctionDeclaration" | "FunctionExpression" | "ArrowFunctionExpression" => .function
  | "CatchClause" => .catchClause
  | "ImportDeclaration" => .importDeclaration
  | "ExportDefaultDeclaration" | "ExportNamedDeclaration" => .exportDeclaration
  | "ExportSpecifier" => .exportSpecifier
  | _ => .plain

/-- The kinds of node that have a role. A kind that is in none of these lists is plain. -/
def Role.kinds : Role → List String
  | .program => ["Program"]
  | .identifier => ["Identifier"]
  | .silent =>
      ["PrivateIdentifier", "BreakStatement", "ContinueStatement", "ExportAllDeclaration",
        "MetaProperty"]
  | .assignment => ["AssignmentExpression"]
  | .update => ["UpdateExpression"]
  | .member => ["MemberExpression"]
  | .property => ["Property"]
  | .field => ["PropertyDefinition"]
  | .staticBlock => ["StaticBlock"]
  | .method => ["MethodDefinition"]
  | .labelled => ["LabeledStatement"]
  | .forLoop => ["ForStatement"]
  | .forEach => ["ForInStatement", "ForOfStatement"]
  | .classDefinition => ["ClassExpression", "ClassDeclaration"]
  | .call => ["CallExpression"]
  | .block => ["BlockStatement"]
  | .thisExpression => ["ThisExpression"]
  | .withStatement => ["WithStatement"]
  | .variableDeclaration => ["VariableDeclaration"]
  | .switchStatement => ["SwitchStatement"]
  | .function => ["FunctionDeclaration", "FunctionExpression", "ArrowFunctionExpression"]
  | .catchClause => ["CatchClause"]
  | .importDeclaration => ["ImportDeclaration"]
  | .exportDeclaration => ["ExportDefaultDeclaration", "ExportNamedDeclaration"]
  | .exportSpecifier => ["ExportSpecifier"]
  | .plain => []

theorem Role.mem_kinds {kind : String} {role : Role} (h : Role.ofKind kind = role)
    (hNamed : role ≠ .plain) : kind ∈ role.kinds := by
  unfold Role.ofKind at h
  split at h <;> subst h <;> first | contradiction | simp [kinds]

theorem Role.ofKind_of_mem {kind : String} {role : Role} (h : kind ∈ role.kinds) :
    Role.ofKind kind = role := by
  have hAll : ∀ kind ∈ role.kinds, Role.ofKind kind = role := by
    cases role <;> decide
  exact hAll kind h

/-- The only kind that has a role. -/
theorem Role.kind_eq {kind only : String} {role : Role} (h : Role.ofKind kind = role)
    (hOnly : role.kinds = [only]) : kind = only := by
  have hNamed : role ≠ .plain := by
    rintro rfl
    cases hOnly
  exact List.mem_singleton.1 (hOnly ▸ mem_kinds h hNamed)

end Scoping
