import Scoping.SymbolTable.Query
import Scoping.Tree.Basic
import Scoping.Walk.Basic

namespace Scoping

namespace SymbolTable

/-- Tell the table one event after another, up to the first that fails. -/
def run (settings : Settings) (table : SymbolTable) (events : List Event) :
    Except Failure SymbolTable :=
  events.foldlM (apply settings) table

end SymbolTable

/-- The symbol table of a program, with every scope closed. -/
def analyze (settings : Settings) (tree : Tree) : Except Failure SymbolTable := do
  let table ← ({} : SymbolTable).run settings (programEvents settings tree.root)
  if table.stack.isEmpty then return table else throw .unclosedScope

end Scoping
