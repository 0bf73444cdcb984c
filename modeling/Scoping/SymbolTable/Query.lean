import Scoping.SymbolTable.Basic

namespace Scoping.SymbolTable

/-- The scopes that a node opens, outermost first. -/
def scopesOf (table : SymbolTable) (node : Node) : List ScopeId :=
  ((table.openedBy.lookup node.location).getD #[]).toList

/-- A function that is there only for a name is not asked for, should there be
one. -/
def isAsked (table : SymbolTable) (scope : ScopeId) : Bool :=
  table.scopes[scope]?.any fun entry => !(entry.kind = .function && entry.ofFunctionName)

/-- The outermost scope that a node opens, or the innermost. One that is the only
one is not asked any more. -/
def acquire (table : SymbolTable) (node : Node) (inner : Bool) : Option ScopeId :=
  match table.scopesOf node with
  | [scope] => some scope
  | scopes => (if inner then scopes.reverse else scopes).find? table.isAsked

/-- The scope around those that a node opens, taken from the node that opens it. -/
def release (table : SymbolTable) (node : Node) (inner : Bool) : Option ScopeId := do
  let outermost ← (table.scopesOf node).head?
  let upper ← table.scopes[← table.upper? outermost]?
  table.acquire upper.block inner

def global (table : SymbolTable) : Except Failure ScopeId :=
  match table.globalScope with
  | some scope => .ok scope
  | none => .error .noGlobalScope

/-- The first reference that a closed scope has recorded for an identifier. -/
def referenceAt (table : SymbolTable) (scope : ScopeId) (identifier : Node) :
    Except Failure (Option ReferenceId) :=
  match table.scopes[scope]? with
  | none => .ok none
  | some entry =>
      if !entry.isClosed then .error .openScope
      else if !identifier.isIdentifier then .error .notIdentifier
      else .ok <| entry.references.find? fun id =>
        table.references[id]?.any fun reference => reference.identifier == identifier

/-- The variable of a name in the nearest scope outward that declares it. -/
def findVariable (table : SymbolTable) (scope : ScopeId) (name : String) : Option VariableId :=
  (table.enclosing scope).findSome? fun scope => table.lookup? scope name

/-- A name that a scope declares, or that passes through it unresolved. -/
def usesName (table : SymbolTable) (scope : ScopeId) (name : String) : Bool :=
  (table.lookup? scope name).isSome ||
    table.scopes[scope]?.any fun entry => entry.through.any fun id =>
      table.references[id]?.any fun reference => reference.identifier.name = name

/-- A function needs an `arguments` object only if something can see it. Other
scopes are not asked. -/
def needsArguments (table : SymbolTable) (scope : ScopeId) : Bool :=
  table.scopes[scope]?.any fun entry =>
    if entry.kind ≠ .function then true
    else if entry.block.kind = "ArrowFunctionExpression" then false
    else
      entry.dynamic ||
        ((table.lookup? scope "arguments").bind fun var => table.variables[var]?).any fun var =>
          var.tainted || !var.references.isEmpty

def needsThis (table : SymbolTable) (scope : ScopeId) : Bool :=
  table.scopes[scope]?.any fun entry =>
    entry.kind ≠ .function || entry.dynamic || entry.usesThis

/-- A reference that means the same variable in every run of the program. -/
def isStatic (table : SymbolTable) (reference : Reference) : Bool :=
  !reference.tainted &&
    ((reference.resolved.bind fun var => table.variables[var]?).bind fun var =>
      table.scopes[var.scope]?).any fun scope => !scope.dynamic

end Scoping.SymbolTable
