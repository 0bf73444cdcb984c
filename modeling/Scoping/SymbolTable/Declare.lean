import Scoping.SymbolTable.Basic

namespace Scoping.SymbolTable

/-- A new variable without definitions, and its position. -/
def addVariable (table : SymbolTable) (scope : ScopeId) (name : String) :
    VariableId × SymbolTable :=
  (table.variables.size, { table with «variables» := table.variables.push { name, scope } })

/-- The variable of a name in a scope, which is added if there is none. -/
def declare (table : SymbolTable) (scope : ScopeId) (name : String) : VariableId × SymbolTable :=
  match table.lookup? scope name with
  | some var => (var, table)
  | none =>
      let (var, table) := table.addVariable scope name
      (var, table.modifyScope scope (Scope.enlist name var))

/-- As `declare`, among the implicit globals. -/
def declareImplicit (table : SymbolTable) (scope : ScopeId) (name : String) :
    VariableId × SymbolTable :=
  match table.lookupImplicit? scope name with
  | some var => (var, table)
  | none =>
      let (var, table) := table.addVariable scope name
      (var, table.modifyScope scope (Scope.enlistImplicit name var))

/-- Note that something at `location` declares a variable, once for each. -/
def noteDeclared (var : VariableId) (location : Location) :
    List (Location × Array VariableId) → List (Location × Array VariableId) :=
  changeAt location fun vars => if vars.contains var then vars else vars.push var

/-- One more definition of a variable, by an identifier. -/
def addDefinition (table : SymbolTable) (var : VariableId) (identifier : Node)
    (definition : Definition) : SymbolTable :=
  let definition := { definition with serial := table.definitionCount }
  let table := table.modifyVariable var fun entry =>
    { entry with
      definitions := entry.definitions.push definition
      identifiers := entry.identifiers.push identifier }
  let declared := noteDeclared var definition.node.location table.declared
  { table with
    definitionCount := table.definitionCount + 1
    declared :=
      match definition.parent with
      | some parent => noteDeclared var parent.location declared
      | none => declared }

/-- Declare what an identifier names. Any other node declares nothing. -/
def define (table : SymbolTable) (scope : ScopeId) (identifier : Node) (definition : Definition) :
    SymbolTable :=
  if identifier.isIdentifier then
    let (var, table) := table.declare scope identifier.name
    table.addDefinition var identifier definition
  else table

/-- Record a use in a scope. Any node but an identifier is no use. -/
def record (table : SymbolTable) (scope : ScopeId) (use : Use) : Except Failure SymbolTable :=
  if use.identifier.isIdentifier then
    match table.scopes[scope]?.bind Scope.pending with
    | none => .error .closedScope
    | some _ =>
        let reference := table.references.size
        let table := { table with references := table.references.push { use with scope } }
        .ok (table.modifyScope scope fun entry =>
          { entry with
            references := entry.references.push reference
            pending := entry.pending.map fun pending => pending.push reference })
  else .ok table

/-- The declaration at a node ends here. Only the first end of a variable
counts. -/
def endDeclaration (table : SymbolTable) (node : Node) : SymbolTable :=
  (table.declaredBy node).foldl (fun table var =>
    table.modifyVariable var fun entry =>
      { entry with initializedAt := entry.initializedAt.or (some table.references.size) }) table

/-- A direct eval can declare variables in a scope, which no scope around it
can rule out. -/
def detectEval (table : SymbolTable) (scope : ScopeId) : SymbolTable :=
  let table := table.modifyScope scope fun entry => { entry with directEval := true }
  (table.enclosing scope).foldl (fun table scope =>
    table.modifyScope scope fun entry => { entry with dynamic := true }) table

def detectThis (table : SymbolTable) (scope : ScopeId) : SymbolTable :=
  table.modifyScope scope fun entry => { entry with usesThis := true }

def setStrict (table : SymbolTable) (scope : ScopeId) (strict : Bool) : SymbolTable :=
  table.modifyScope scope fun entry => { entry with strict := strict }

/-- The parameters of a function end here. Other scopes have none. -/
def markBodyStart (table : SymbolTable) (scope : ScopeId) : SymbolTable :=
  table.modifyScope scope fun entry =>
    if entry.kind = .function then
      { entry with bodyStart := some ⟨table.references.size, table.definitionCount⟩ }
    else entry

end Scoping.SymbolTable
