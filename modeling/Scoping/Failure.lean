import Scoping.Text.Quoted

namespace Scoping

/-- Why an analysis stops without a result. The first three come from the
document, the next two from a question, the others from scopes that are opened
and closed by hand. -/
inductive Failure where
  | missingField (kind field : String)
  | nestedGlobal
  | splitDirective
  | openScope
  | notIdentifier
  | noGlobalScope
  | noCurrentScope
  | closedScope
  | crossedScopes
  | unclosedScope
  deriving DecidableEq, Repr, Inhabited

/-- The wording of a failure, for those that have one. -/
def Failure.message? : Failure → Option String
  | .missingField kind field => some s!"expected {kind} node to have field {Text.quoted field}"
  | .openScope => some "Scope should be closed."
  | .notIdentifier => some "Target should be identifier."
  | .noGlobalScope => some "a finished analysis always has a global scope"
  | .noCurrentScope => some "the scope stack is non-empty while walking"
  | .closedScope => some "references can't be added to a closed scope"
  | .unclosedScope => some "current_scope should be null."
  | .nestedGlobal | .splitDirective | .crossedScopes => none

/-- A child that the document lacks. -/
def Failure.IsMissingField (failure : Failure) : Prop :=
  ∃ kind field, failure = .missingField kind field

/-- Why an input is refused before any of the tree is visited. -/
inductive Rejection where
  | notJson
  | rootNotANode
  | unsupportedVersion (version : Nat)
  | moduleTooEarly
  | globalReturnInModule
  deriving DecidableEq, Repr, Inhabited

def Rejection.message : Rejection → String
  | .notJson => "invalid ESTree JSON:"
  | .rootNotANode => "root of the tree is not an ESTree node"
  | .unsupportedVersion version => s!"unsupported ecmaVersion: {version}"
  | .moduleTooEarly => "sourceType \"module\" is not supported when ecmaVersion < 2015"
  | .globalReturnInModule => "globalReturn cannot be combined with sourceType \"module\""

end Scoping
