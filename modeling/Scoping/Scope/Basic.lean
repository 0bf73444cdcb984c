import Scoping.Scope.Kind
import Scoping.Tree.Node

namespace Scoping

/-- The position of a scope in the order of opening. -/
abbrev ScopeId := Nat

/-- The position of a variable in the order of its first declaration. -/
abbrev VariableId := Nat

/-- The position of a reference in the order of recording. -/
abbrev ReferenceId := Nat

inductive DefinitionKind where
  | catchClause
  | parameter
  | functionName
  | className
  | variable
  | importBinding
  | implicitGlobal
  deriving DecidableEq, Repr, Inhabited

def DefinitionKind.name : DefinitionKind → String
  | .catchClause => "CatchClause"
  | .parameter => "Parameter"
  | .functionName => "FunctionName"
  | .className => "ClassName"
  | .variable => "Variable"
  | .importBinding => "ImportBinding"
  | .implicitGlobal => "ImplicitGlobalVariable"

/-- One place that declares a variable. -/
structure Definition where
  kind : DefinitionKind
  /-- What the declaring node gives as its name. -/
  name : Node
  /-- The declaring node: a declarator, function, class, catch clause or import
  specifier, or the assignment that makes a global. -/
  node : Node
  /-- The statement around the declaring node, for variables and imports. -/
  parent : Option Node := none
  /-- The position among the parameters or declarators. -/
  index : Option Nat := none
  /-- The word that a declaration of variables begins with. -/
  keyword : Option String := none
  rest : Bool := false
  /-- The number of definitions before this one in the whole program. -/
  serial : Nat := 0
  deriving Inhabited

namespace Definition

def isVar (definition : Definition) : Bool :=
  definition.kind = .variable && definition.keyword = some "var"

/-- Definitions before which a name may not be used. -/
def isLexical (definition : Definition) : Bool :=
  definition.kind = .className ||
    (definition.kind = .variable && definition.keyword ≠ some "var")

end Definition

/-- A name in a scope, with all that declares it and all that resolves to it. -/
structure Variable where
  name : String
  scope : ScopeId
  definitions : Array Definition := #[]
  identifiers : Array Node := #[]
  references : Array ReferenceId := #[]
  /-- A reference that resolves here has left a `with` statement. -/
  tainted : Bool := false
  /-- Every reference that resolves here stands in the same function. -/
  stack : Bool := true
  /-- The number of references before the end of the declaration. -/
  initializedAt : Option Nat := none
  deriving Inhabited

/-- Uses before the end of the declaration are errors. -/
def Variable.hasDeadZone (var : Variable) : Bool :=
  !var.definitions.isEmpty && var.definitions.all Definition.isLexical

inductive Access where
  | read
  | write
  | readWrite
  deriving DecidableEq, Repr, Inhabited

namespace Access

def reads : Access → Bool
  | .read | .readWrite => true
  | .write => false

def writes : Access → Bool
  | .write | .readWrite => true
  | .read => false

end Access

/-- One use of a name, as it stands in the program. -/
structure Use where
  identifier : Node
  access : Access
  /-- The node that gives the value that is written. -/
  writeExpr : Option Node := none
  /-- Only a part of that value is written. -/
  isPartial : Bool := false
  /-- The write gives a declared name its first value. -/
  init : Bool := false
  /-- The assignment or loop that makes a global of a name that nothing
  declares. -/
  implicitGlobal : Option Node := none
  deriving Inhabited

/-- A use with the scope it stands in and what it resolves to. -/
structure Reference extends Use where
  scope : ScopeId
  resolved : Option VariableId := none
  /-- The reference has left a `with` statement. -/
  tainted : Bool := false
  /-- The use comes before the end of the declaration, in the same function. -/
  inDeadZone : Bool := false
  deriving Inhabited

/-- The numbers of references and definitions before the body of a function. -/
structure BodyStart where
  references : Nat
  definitions : Nat
  deriving Repr, Inhabited

structure Scope where
  kind : ScopeKind
  block : Node
  upper : Option ScopeId
  /-- The scope that a `var` in this one goes to. -/
  variableScope : ScopeId
  strict : Bool
  /-- What a name means here is known only when the program runs. -/
  dynamic : Bool
  /-- The scope is there only for the own name of a function expression. -/
  ofFunctionName : Bool := false
  directEval : Bool := false
  usesThis : Bool := false
  children : Array ScopeId := #[]
  /-- The names that the scope declares, in order of first declaration. -/
  «variables» : Array VariableId := #[]
  /-- The variable under each of these names. -/
  names : List (String × VariableId) := []
  references : Array ReferenceId := #[]
  /-- The references that this scope does not resolve, its own and those that
  come from below. -/
  through : Array ReferenceId := #[]
  /-- The references that wait for the scope to close; none once it is closed. -/
  pending : Option (Array ReferenceId) := some #[]
  bodyStart : Option BodyStart := none
  /-- Names that the program makes global by assigning to them. -/
  implicitVariables : Array VariableId := #[]
  /-- The variable under each of the implicit names. -/
  implicitNames : List (String × VariableId) := []
  /-- The references that waited when the global scope was closed. -/
  implicitPending : Array ReferenceId := #[]
  deriving Inhabited

namespace Scope

def isClosed (scope : Scope) : Bool :=
  scope.pending.isNone

/-- One more variable, under its name and at the end of the list. -/
def enlist (name : String) (var : VariableId) (scope : Scope) : Scope :=
  { scope with
    «variables» := scope.variables.push var
    names := scope.names ++ [(name, var)] }

/-- As `enlist`, among the implicit globals. -/
def enlistImplicit (name : String) (var : VariableId) (scope : Scope) : Scope :=
  { scope with
    implicitVariables := scope.implicitVariables.push var
    implicitNames := scope.implicitNames ++ [(name, var)] }

/-- The body of a function cannot declare what the defaults of its parameters
use: whether a variable has all its definitions after a reference that comes
before the body. A program that is a function has no parameters. -/
def declaresTooLate (scope : Scope) (reference : ReferenceId) (var : Variable) : Bool :=
  scope.kind = .function && scope.block.kind ≠ "Program" &&
    scope.bodyStart.any fun start =>
      reference < start.references && !var.definitions.isEmpty &&
        var.definitions.all fun definition => start.definitions ≤ definition.serial

end Scope

end Scoping
