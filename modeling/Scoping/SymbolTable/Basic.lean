import Scoping.Scope.Basic

namespace Scoping

/-- The scopes of a program with their variables and references. Each has the
position at which it was added as its name, and none is ever taken away. -/
structure SymbolTable where
  scopes : Array Scope := #[]
  /-- The scopes in order of opening. -/
  opened : Array ScopeId := #[]
  /-- For each node the scopes that it opens, outermost first. -/
  openedBy : List (Location × Array ScopeId) := []
  «variables» : Array Variable := #[]
  references : Array Reference := #[]
  definitionCount : Nat := 0
  /-- For each declaring node the variables that it declares, and likewise for
  each statement around one. -/
  declared : List (Location × Array VariableId) := []
  /-- The open scopes, the current one first. -/
  stack : List ScopeId := []
  globalScope : Option ScopeId := none
  deriving Inhabited

namespace SymbolTable

def modifyScope (table : SymbolTable) (scope : ScopeId) (change : Scope → Scope) : SymbolTable :=
  { table with scopes := table.scopes.modify scope change }

def modifyVariable (table : SymbolTable) (var : VariableId) (change : Variable → Variable) :
    SymbolTable :=
  { table with «variables» := table.variables.modify var change }

def modifyReference (table : SymbolTable) (reference : ReferenceId)
    (change : Reference → Reference) : SymbolTable :=
  { table with references := table.references.modify reference change }

/-- The current scope, without which nothing can be declared or used. -/
def current (table : SymbolTable) : Except Failure ScopeId :=
  match table.stack with
  | scope :: _ => .ok scope
  | [] => .error .noCurrentScope

def upper? (table : SymbolTable) (scope : ScopeId) : Option ScopeId :=
  table.scopes[scope]?.bind Scope.upper

def variableScope (table : SymbolTable) (scope : ScopeId) : ScopeId :=
  (table.scopes[scope]?.map Scope.variableScope).getD scope

/-- A scope and the scopes around it, outward. A scope is opened after the one
around it, so that the positions fall. -/
def enclosing (table : SymbolTable) (scope : ScopeId) : List ScopeId :=
  scope ::
    match table.upper? scope with
    | some upper => if upper < scope then table.enclosing upper else []
    | none => []

/-- The variable that a scope itself declares. Implicit globals are kept apart
and resolve nothing. -/
def lookup? (table : SymbolTable) (scope : ScopeId) (name : String) : Option VariableId :=
  table.scopes[scope]?.bind fun entry => entry.names.lookup name

def lookupImplicit? (table : SymbolTable) (scope : ScopeId) (name : String) :
    Option VariableId :=
  table.scopes[scope]?.bind fun entry => entry.implicitNames.lookup name

/-- Change what an index has for a location. What it has not is empty. -/
def changeAt {α : Type} (location : Location) (change : Array α → Array α) :
    List (Location × Array α) → List (Location × Array α)
  | [] => [(location, change #[])]
  | (place, items) :: rest =>
      if place = location then (place, change items) :: rest
      else (place, items) :: changeAt location change rest

/-- The variables that a node declares, in order of first declaration. -/
def declaredBy (table : SymbolTable) (node : Node) : Array VariableId :=
  (table.declared.lookup node.location).getD #[]

end SymbolTable

end Scoping
