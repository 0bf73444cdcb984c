namespace Scoping

/-- What part of a program a scope is for. -/
inductive ScopeKind where
  | global
  | esModule
  | function
  | functionName
  | block
  | switchBody
  | catchClause
  | withBody
  | forHead
  | classBody
  | fieldInitializer
  | staticBlock
  deriving DecidableEq, Repr, Inhabited

namespace ScopeKind

def name : ScopeKind → String
  | .global => "Global"
  | .esModule => "Module"
  | .function => "Function"
  | .functionName => "FunctionExpressionName"
  | .block => "Block"
  | .switchBody => "Switch"
  | .catchClause => "Catch"
  | .withBody => "With"
  | .forHead => "For"
  | .classBody => "Class"
  | .fieldInitializer => "ClassFieldInitializer"
  | .staticBlock => "ClassStaticBlock"

def all : List ScopeKind :=
  [.global, .esModule, .function, .functionName, .block, .switchBody, .catchClause, .withBody,
    .forHead, .classBody, .fieldInitializer, .staticBlock]

theorem mem_all (kind : ScopeKind) : kind ∈ all := by
  cases kind <;> decide

def ofName? (name : String) : Option ScopeKind :=
  all.find? fun kind => kind.name = name

/-- The scopes that a `var` goes up to and no further. -/
def holdsVars : ScopeKind → Bool
  | .global | .esModule | .function | .fieldInitializer | .staticBlock => true
  | _ => false

end ScopeKind

end Scoping
