import Scoping.Options.Basic
import Scoping.SymbolTable.Declare

namespace Scoping

/-- What happens to the references that wait in a scope when it closes. -/
inductive Closing where
  /-- Each resolves here if it can, and else waits in the scope around. -/
  | resolving
  /-- Each waits in the scope around, and is marked as having left. -/
  | tainting
  /-- None is resolved at all. -/
  | abandoning
  /-- As `resolving` for the names that stay as they are declared here, and as
  `abandoning` for the others. -/
  | byName
  deriving DecidableEq, Repr, Inhabited

def Scope.closing (settings : Settings) (scope : Scope) : Closing :=
  if !scope.dynamic || settings.options.optimistic then .resolving
  else
    match scope.kind with
    | .withBody => .tainting
    | .global => .byName
    | _ => .abandoning

namespace SymbolTable

/-- A name that a dynamic global scope still resolves: in a module every one,
in a script only what is declared there and by no `var`. -/
def staysGlobal (settings : Settings) (table : SymbolTable) (scope : ScopeId) (name : String) :
    Bool :=
  settings.isModule ||
    ((table.lookup? scope name).bind fun var => table.variables[var]?).any fun entry =>
      !entry.definitions.isEmpty && !entry.definitions.any Definition.isVar

/-- The variable that a scope gives a reference: the one of its name, unless it is
the scope's own and the body of a function declares it too late. -/
def resolution? (table : SymbolTable) (scope : ScopeId) (reference : ReferenceId) :
    Option VariableId := do
  let use ← table.references[reference]?
  let var ← table.lookup? scope use.identifier.name
  let entry ← table.variables[var]?
  let owner ← table.scopes[scope]?
  if entry.scope = scope && owner.declaresTooLate reference entry then none else some var

def sameFunction (table : SymbolTable) (a b : ScopeId) : Bool :=
  table.variableScope a = table.variableScope b

/-- A use before its declaration has ended. That another function runs only
after the end cannot be ruled out, so its uses do not count. -/
def isInDeadZone (table : SymbolTable) (scope : ScopeId) (id : ReferenceId)
    (reference : Reference) (var : Variable) : Bool :=
  !reference.init && var.hasDeadZone && table.sameFunction reference.scope scope &&
    var.initializedAt.all fun count => id < count

/-- Give a reference the variable that it means. -/
def resolve (table : SymbolTable) (scope : ScopeId) (id : ReferenceId) (var : VariableId) :
    SymbolTable :=
  match table.references[id]?, table.variables[var]? with
  | some reference, some entry =>
      let inDeadZone := table.isInDeadZone scope id reference entry
      let same := table.sameFunction reference.scope scope
      let table := table.modifyVariable var fun entry =>
        { entry with
          references := entry.references.push id
          stack := entry.stack && same
          tainted := entry.tainted || reference.tainted }
      table.modifyReference id fun reference => { reference with resolved := some var, inDeadZone }
  | _, _ => table

/-- Let a reference wait in the scope around, which is open. -/
def delegate (table : SymbolTable) (scope : ScopeId) (id : ReferenceId) :
    Except Failure SymbolTable :=
  let passed := table.modifyScope scope fun entry =>
    { entry with through := entry.through.push id }
  match table.upper? scope with
  | none => .ok passed
  | some upper =>
      match table.scopes[upper]?.bind Scope.pending with
      | none => .error .closedScope
      | some _ =>
          .ok (passed.modifyScope upper fun entry =>
            { entry with pending := entry.pending.map fun pending => pending.push id })

/-- Let a reference pass through all the scopes around without resolution. -/
def abandon (table : SymbolTable) (scope : ScopeId) (id : ReferenceId) : SymbolTable :=
  (table.enclosing scope).foldl (fun table scope =>
    table.modifyScope scope fun entry => { entry with through := entry.through.push id }) table

def resolveOrDelegate (table : SymbolTable) (scope : ScopeId) (id : ReferenceId) :
    Except Failure SymbolTable :=
  match table.resolution? scope id with
  | some var => .ok (table.resolve scope id var)
  | none => table.delegate scope id

/-- What closing a scope does to one of its waiting references. -/
def closeReference (settings : Settings) (scope : ScopeId) (closing : Closing)
    (table : SymbolTable) (id : ReferenceId) : Except Failure SymbolTable :=
  match closing with
  | .resolving => table.resolveOrDelegate scope id
  | .tainting =>
      (table.modifyReference id fun reference => { reference with tainted := true }).delegate
        scope id
  | .abandoning => .ok (table.abandon scope id)
  | .byName =>
      let name := (table.references[id]?.map fun reference => reference.identifier.name).getD ""
      if table.staysGlobal settings scope name then table.resolveOrDelegate scope id
      else .ok (table.abandon scope id)

/-- The uses that make a global of their name: those that wait here for an
assignment in sloppy code, of a name that the scope does not declare. -/
def implicitGlobals (table : SymbolTable) (scope : ScopeId) : Array (Node × Node) :=
  ((table.scopes[scope]?.bind Scope.pending).getD #[]).filterMap fun id => do
    let reference ← table.references[id]?
    let node ← reference.implicitGlobal
    if (table.lookup? scope reference.identifier.name).isSome then none
    else some (reference.identifier, node)

/-- Declare the implicit globals of the global scope, and keep what waits in it. As
everywhere, any node but an identifier declares nothing. -/
def defineImplicit (table : SymbolTable) (scope : ScopeId) : SymbolTable :=
  let table := (table.implicitGlobals scope).foldl (fun table (identifier, node) =>
    if identifier.isIdentifier then
      let (var, table) := table.declareImplicit scope identifier.name
      table.addDefinition var identifier { kind := .implicitGlobal, name := identifier, node }
    else table) table
  table.modifyScope scope fun entry => { entry with implicitPending := entry.pending.getD #[] }

/-- Close a scope: nothing waits in it any more, and nothing can be added. -/
def close (settings : Settings) (table : SymbolTable) (scope : ScopeId) :
    Except Failure SymbolTable :=
  match table.scopes[scope]? with
  | none => .ok table
  | some entry =>
      let table := if entry.kind = .global then table.defineImplicit scope else table
      let table := table.modifyScope scope fun entry => { entry with pending := none }
      (entry.pending.getD #[]).foldlM (closeReference settings scope (entry.closing settings)) table

/-- Close the current scope, if there is one, and go back to the one around it. -/
def leave (settings : Settings) (table : SymbolTable) :
    Except Failure (Option ScopeId × SymbolTable) :=
  match table.stack with
  | [] => .ok (none, table)
  | scope :: stack => do
      let table ← { table with stack }.close settings scope
      if table.upper? scope = stack.head? then return (some scope, table)
      else throw .crossedScopes

/-- Close the current scopes as far as they belong to a node. -/
def leaveAll (settings : Settings) (table : SymbolTable) (node : Node) :
    Except Failure SymbolTable :=
  (table.stack.takeWhile fun scope => table.scopes[scope]?.any fun entry => entry.block == node).foldlM
    (fun table _ => do return (← table.leave settings).2) table

end SymbolTable

end Scoping
