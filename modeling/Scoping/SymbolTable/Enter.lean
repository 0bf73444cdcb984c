import Scoping.Options.Basic
import Scoping.SymbolTable.Declare
import Scoping.Tree.Directive

namespace Scoping.SymbolTable

/-- An arrow function whose body is an expression has no directives. -/
def hasExpressionBody (node : Node) : Except Failure Bool :=
  if node.kind = "ArrowFunctionExpression" then do
    return (← node.child "body").kind ≠ "BlockStatement"
  else .ok false

/-- Whether a scope of this kind is strict by the directives of its block. The
body of a function is a field of it, but a program is its own body. -/
def strictByDirective (kind : ScopeKind) (block : Node) : Except Failure Bool :=
  match kind with
  | .global => block.saysStrict
  | .function => do
      if ← hasExpressionBody block then return false
      else if block.kind = "Program" then block.saysStrict
      else
        match block.child? "body" with
        | some body => body.saysStrict
        | none => return false
  | _ => .ok false

/-- Whether a scope that opens now is strict. Directives are read only if
nothing else decides. -/
def opensStrict (settings : Settings) (table : SymbolTable) (kind : ScopeKind) (block : Node)
    (inMethod : Bool) : Except Failure Bool :=
  if !settings.knowsStrict then .ok false
  else if table.stack.head?.any fun upper => table.scopes[upper]?.any Scope.strict then .ok true
  else if inMethod || kind = .classBody || kind = .esModule then .ok true
  else strictByDirective kind block

/-- The scope that opens for a node, before it declares anything. -/
def freshScope (table : SymbolTable) (kind : ScopeKind) (block : Node) (strict : Bool) : Scope where
  kind
  block
  upper := table.stack.head?
  variableScope :=
    if kind.holdsVars then table.scopes.size
    else (table.stack.head?.map table.variableScope).getD table.scopes.size
  strict
  dynamic := kind = .withBody
  ofFunctionName := kind = .functionName

/-- One more scope, at the end of the list and among those of its node. -/
def pushScope (table : SymbolTable) (fresh : Scope) : SymbolTable :=
  let scope := table.scopes.size
  { table with
    scopes := table.scopes.push fresh
    opened := table.opened.push scope
    openedBy := changeAt fresh.block.location (fun scopes => scopes.push scope) table.openedBy }

/-- One more scope, inside the current one, and its position. -/
def addScope (table : SymbolTable) (kind : ScopeKind) (block : Node) (strict : Bool) :
    ScopeId × SymbolTable :=
  let scope := table.scopes.size
  let added := table.pushScope (table.freshScope kind block strict)
  match table.stack.head? with
  | some upper =>
      (scope, added.modifyScope upper fun entry =>
        { entry with children := entry.children.push scope })
  | none => (scope, added)

/-- The names that a scope has from the start: `arguments` for a function of
its own, and its own name for a named function expression. -/
def declareOwn (table : SymbolTable) (scope : ScopeId) (kind : ScopeKind) (block : Node) :
    Except Failure SymbolTable :=
  match kind with
  | .function =>
      if block.kind = "ArrowFunctionExpression" then .ok table
      else .ok (table.declare scope "arguments").2
  | .functionName => do
      let name ← block.child "id"
      return table.define scope name { kind := .functionName, name, node := block }
  | _ => .ok table

/-- Open a scope for a node. A global scope is the outermost one. -/
def enter (settings : Settings) (table : SymbolTable) (kind : ScopeKind) (block : Node)
    (inMethod : Bool) : Except Failure SymbolTable := do
  let strict ← table.opensStrict settings kind block inMethod
  let outermost := table.stack.isEmpty
  let (scope, table) := table.addScope kind block strict
  let table ← table.declareOwn scope kind block
  if kind = .global then
    if outermost then return { table with globalScope := some scope, stack := scope :: table.stack }
    else throw .nestedGlobal
  else return { table with stack := scope :: table.stack }

end Scoping.SymbolTable
