import Scoping.SymbolTable.Query

namespace Scoping.Report

def joined (texts : List String) : String :=
  ", ".intercalate texts

def accessText : Access → String
  | .read => "R"
  | .write => "W"
  | .readWrite => "RW"

/-- How deep a scope stands, as blanks. -/
def indent (table : SymbolTable) (scope : ScopeId) : String :=
  "".pushn ' ' (2 * ((table.enclosing scope).length - 1))

def variableLine (entry : Variable) : String :=
  let kinds := joined (entry.definitions.toList.map fun definition => definition.kind.name)
  s!"var {entry.name} [{kinds}] refs={entry.references.size}"

/-- The kind of the scope that a reference resolves to. -/
def targetText (table : SymbolTable) (reference : Reference) : String :=
  let scope := reference.resolved.bind fun var =>
    table.variables[var]?.bind fun entry => table.scopes[entry.scope]?
  match scope with
  | some scope => s!"-> {scope.kind.name}"
  | none => "unresolved"

def referenceLine (table : SymbolTable) (reference : Reference) : String :=
  let zone := if reference.inDeadZone then " tdz" else ""
  s!"ref {reference.identifier.name} {accessText reference.access} {targetText table reference}{zone}"

def scopeLine (scope : Scope) : String :=
  let strict := if scope.strict then " strict" else ""
  let dynamic := if scope.dynamic then " dynamic" else ""
  s!"{scope.kind.name} scope ({scope.block.kind}){strict}{dynamic}"

/-- What a scope declares, uses and lets through. The last line is left out if
it would name nothing. -/
def scopeLines (table : SymbolTable) (id : ScopeId) (scope : Scope) : List String :=
  let indent := indent table id
  let entries := scope.variables.toList.filterMap fun var => table.variables[var]?
  let references := scope.references.toList.filterMap fun id => table.references[id]?
  let through := joined <| scope.through.toList.filterMap fun id =>
    table.references[id]?.map fun reference => reference.identifier.name
  (indent ++ scopeLine scope) ::
    entries.map (fun entry => indent ++ "  " ++ variableLine entry) ++
    references.map (fun reference => indent ++ "  " ++ referenceLine table reference) ++
    if through.isEmpty then [] else [indent ++ "  through: " ++ through]

/-- The scopes of a program in order of opening, each with its lines. A name
that holds a line break takes more than one. -/
def lines (table : SymbolTable) : List String :=
  table.opened.toList.flatMap fun id =>
    (table.scopes[id]?.map (scopeLines table id)).getD []

end Scoping.Report
