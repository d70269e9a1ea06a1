import TypedTree.Tree.Basic

/-!
Equality of trees by content. Identity is a shortcut: a node has the same content as itself, also when it holds a
double that does not equal itself.
-/

namespace TypedTree

mutual

/-- Whether two nodes are one, or have variants of one name and values of the same content. -/
def Node.sameContent : Node → Node → Bool
  | .mk i v xs, .mk j w ys => i == j || v.sameAs w && sameContentPairwise xs ys

/-- Whether two values have the same content; where no nodes are held this is equality. -/
def Value.sameContent : Value → Value → Bool
  | .node a, .node b => a.sameContent b
  | .list xs, .list ys => xs.length == ys.length && sameContentPairwise xs ys
  | .set xs, .set ys => xs.length == ys.length && sameContentPairwise xs ys
  | v, w => v == w

/-- Whether values at the same position have the same content, as far as both lists go. -/
def sameContentPairwise : List Value → List Value → Bool
  | x :: xs, y :: ys => x.sameContent y && sameContentPairwise xs ys
  | _, _ => true

end

end TypedTree
