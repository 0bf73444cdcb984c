namespace Scoping

/-- One step down a document. -/
inductive Step where
  | field (name : String)
  | index (position : Nat)
  deriving DecidableEq, Repr, Inhabited

def Step.text : Step → String
  | .field name => name
  | .index position => toString position

/-- A place in a document, as the steps from the root with the last one first.
The tail of a location is the place around it. -/
abbrev Location := List Step

namespace Location

/-- A location in writing. Names are not escaped, so that two locations may be
written alike. -/
def path (location : Location) : String :=
  location.foldr (fun step text => text ++ "/" ++ step.text) ""

end Location

end Scoping
