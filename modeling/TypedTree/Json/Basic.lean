import TypedTree.Number.Binary64

/-!
JSON documents. The members of an object are a list, since their order is part of what is printed.
-/

namespace TypedTree

/-- A JSON document. Whole numbers and doubles are told apart because they are written differently. -/
inductive Json where
  | null
  | bool (b : Bool)
  | int (i : Int)
  | float (x : Binary64)
  | str (s : String)
  | arr (items : List Json)
  | obj (members : List (String × Json))
deriving Inhabited, Repr

end TypedTree
