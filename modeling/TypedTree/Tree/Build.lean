import TypedTree.Tree.Admission
import TypedTree.Workspace

/-!
Building nodes: from named arguments, or from a node and updates of some of its fields. The values are settled
first, without touching the workspace; only then does the new node get its identity, so a refused node takes none.
-/

namespace TypedTree

/-- A field by name, with the value meant for it. -/
abbrev Argument := String × Value

/-- A new node with the given values, which are not checked. -/
def Node.allocate (v : Variant) (values : List Value) : StateM Workspace Node := do
  let id ← Workspace.freshId
  pure (.mk id v values)

namespace Variant

/-- The position of the first field of that name, within the list of fields. -/
def position? (v : Variant) (name : String) : Option (Fin v.fields.length) :=
  v.fields.findFinIdx? fun f => f.name == name

/-! ### From arguments -/

/-- Puts one argument into the slot of its field; the slot has to be free. -/
def place (v : Variant) (slots : List (Option Value)) (arg : Argument) :
    Except Error (List (Option Value)) :=
  match v.position? arg.1 with
  | none => throw (.schema (.unknownField v.name arg.1))
  | some i =>
    match slots[i.1]? with
    | some (some _) => throw (.schema (.duplicateArgument v.name arg.1))
    | _ => pure (slots.set i.1 (some arg.2))

/-- One slot for each field, those with an argument filled. -/
def slots (v : Variant) (args : List Argument) : Except Error (List (Option Value)) :=
  args.foldlM v.place (List.replicate v.fields.length none)

/-- The value of a field from its slot: an optional field may stay empty, and a given value is checked. -/
def settle (v : Variant) (f : Field) : Option Value → Except Error Value
  | some value => f.checked v.name value
  | none => if f.isOptional then pure .absent else throw (.schema (.missingField v.name f.name))

/-- The values of the fields in order, from arguments in any order. Arguments are looked at first, in their
    order, then the fields in theirs; the first fault counts. -/
def arrange (v : Variant) (args : List Argument) : Except Error (List Value) := do
  let slots ← v.slots args
  (v.fields.zip slots).mapM fun p => v.settle p.1 p.2

def build (v : Variant) (args : List Argument) : BuildM Node := do
  let values ← v.arrange args
  Node.allocate v values

end Variant

namespace Node

/-! ### From updates -/

/-- Applies updates to values one after the other. `seen` holds the positions updated before. -/
def overlayFrom (n : Node) : List Argument → List Value → List Nat → Except Error (List Value)
  | [], values, _ => pure values
  | (name, value) :: rest, values, seen =>
    match n.variant.position? name with
    | none => throw (.schema (.unknownField n.kind name))
    | some i => do
      if i.1 ∈ seen then throw (.schema (.duplicateArgument n.kind name))
      let value ← n.variant.fields[i].checked n.kind value
      n.overlayFrom rest (values.set i.1 value) (i.1 :: seen)

/-- The values of the node with the updates applied; only updated values are checked. -/
def overlay (n : Node) (updates : List Argument) : Except Error (List Value) :=
  n.overlayFrom updates n.values []

/-- A new node with some fields changed. Without updates it is the node itself. -/
def update (n : Node) (updates : List Argument) : BuildM Node :=
  if updates.isEmpty then pure n
  else do
    let values ← n.overlay updates
    allocate n.variant values

end Node

end TypedTree
