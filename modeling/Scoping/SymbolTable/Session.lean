import Scoping.SymbolTable.Enter
import Scoping.SymbolTable.Leave

namespace Scoping

/-- What a caller can do with a table by hand, without a program to walk. -/
inductive Command where
  | enter (kind : ScopeKind) (block : Node) (inMethod : Bool)
  /-- The end of the current scope, if there is one. -/
  | leave
  | setStrict (strict : Bool)
  /-- Unlike in a walk, the current scope itself is the one that uses `this`. -/
  | thisExpression
  deriving Inhabited

namespace SymbolTable

def obey (settings : Settings) (table : SymbolTable) : Command → Except Failure SymbolTable
  | .enter kind block inMethod => table.enter settings kind block inMethod
  | .leave => do return (← table.leave settings).2
  | .setStrict strict => do return table.setStrict (← table.current) strict
  | .thisExpression => do return table.detectThis (← table.current)

/-- One command after another, up to the first that fails. -/
def session (settings : Settings) (table : SymbolTable) (commands : List Command) :
    Except Failure SymbolTable :=
  commands.foldlM (obey settings) table

end SymbolTable

end Scoping
