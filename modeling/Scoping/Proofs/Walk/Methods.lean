import Scoping.Proofs.Walk.Arriving
import Scoping.Proofs.Walk.Regular

/-! What a walk says of the methods around a node. A visit passes it on to all that
it visits, but for the value of a method, which is told that a method is around. -/

namespace Scoping

namespace Walker

variable {walker : Walker} {node : Node}

end Walker

variable {settings : Settings} {root node value : Node} {past future : List Event} {inMethod : Bool}

end Scoping
