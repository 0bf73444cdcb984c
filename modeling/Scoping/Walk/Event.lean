import Scoping.SymbolTable.Enter
import Scoping.SymbolTable.Leave

namespace Scoping

/-- Which scope a definition goes to, seen from the current one. -/
inductive Destination where
  | current
  | variableScope
  /-- Where the name of a function declaration goes. -/
  | functionDeclaration
  deriving DecidableEq, Repr, Inhabited

/-- What a walk of a program tells the symbol table. -/
inductive Event where
  | enter (kind : ScopeKind) (block : Node) (inMethod : Bool)
  /-- The end of a node, which closes the scopes that belong to it. -/
  | leave (block : Node)
  | setStrict (strict : Bool)
  | define (destination : Destination) (identifier : Node) (definition : Definition)
  | use (use : Use)
  | directEval
  | thisExpression
  | bodyStart
  | endDeclaration (node : Node)
  | fail (failure : Failure)
  deriving Inhabited

namespace SymbolTable

/-- The block that is the body of the function whose scope is around it. -/
def isFunctionBody (table : SymbolTable) (scope : Scope) : Bool :=
  (scope.upper.bind fun upper => table.scopes[upper]?).any fun upper =>
    upper.kind = .function && upper.block.child? "body" == some scope.block

/-- Whether a function declaration binds its name in the scope it stands in.
A block and a switch do so by policy, and the body of a function never does. -/
def bindsFunctions (settings : Settings) (table : SymbolTable) (scope : Scope) : Bool :=
  let byPolicy := settings.options.blockFunctions.bindsInBlock settings.edition scope.strict
  match scope.kind with
  | .block => !table.isFunctionBody scope && byPolicy
  | .switchBody => byPolicy
  | _ => true

def destination (settings : Settings) (table : SymbolTable) (current : ScopeId) :
    Destination → ScopeId
  | .current => current
  | .variableScope => table.variableScope current
  | .functionDeclaration =>
      if table.scopes[current]?.all (table.bindsFunctions settings) then current
      else table.variableScope current

/-- In strict code an assignment makes no global. -/
def useIn (table : SymbolTable) (scope : ScopeId) (use : Use) : Use :=
  if table.scopes[scope]?.any Scope.strict then { use with implicitGlobal := none } else use

def apply (settings : Settings) (table : SymbolTable) : Event → Except Failure SymbolTable
  | .enter kind block inMethod => table.enter settings kind block inMethod
  | .leave block => table.leaveAll settings block
  | .setStrict strict => do return table.setStrict (← table.current) strict
  | .define destination identifier definition => do
      let scope := table.destination settings (← table.current) destination
      return table.define scope identifier definition
  | .use use => do
      let scope ← table.current
      table.record scope (table.useIn scope use)
  | .directEval => do return table.detectEval (table.variableScope (← table.current))
  | .thisExpression => do return table.detectThis (table.variableScope (← table.current))
  | .bodyStart => do return table.markBodyStart (← table.current)
  | .endDeclaration node => .ok (table.endDeclaration node)
  | .fail failure => .error failure

end SymbolTable

end Scoping
