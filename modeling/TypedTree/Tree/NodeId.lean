/-!
Identities of nodes. Every node gets its own when it is built, larger than all before, and keeps it; metadata is
kept by identity, so two nodes of equal content stay apart.
-/

namespace TypedTree

/-- The identity of a node: how many nodes were built before it. -/
abbrev NodeId := Nat

/-- The identity as messages show it: `#5`. -/
def NodeId.toLabel (id : NodeId) : String := "#" ++ toString (id : Nat)

end TypedTree
