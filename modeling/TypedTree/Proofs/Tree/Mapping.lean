import TypedTree.Proofs.Tree.Reading
import TypedTree.Tree.Rewrite

/-! Rebuilding a node by a transform of the nodes it holds, when the transform does not use that they are smaller:
    each value is mapped by itself, without the proofs of membership that the recursion down a tree needs. -/

namespace TypedTree
variable {m : Type → Type} [Monad m]

def Value.mapNode (g : Node → m Node) : Value → m Value
  | .node c => Value.node <$> g c
  | v => pure v

def Value.mapHeld (g : Node → m Node) : Value → m Value
  | .list items => Value.list <$> items.mapM (Value.mapNode g)
  | .set items => Value.set <$> items.mapM (Value.mapNode g)
  | v => v.mapNode g

variable [LawfulMonad m]

theorem Value.mapItems_eq (g : Node → m Node) (items : List Value) :
    Value.mapItems items (fun c => g c.1) = items.mapM (Value.mapNode g) := by
  unfold Value.mapItems
  rw [List.mapM_subtype (g := Value.mapNode g), List.unattach_attach]
  intro v _
  cases v <;> rfl

theorem Value.mapNodes_eq (g : Node → m Node) (v : Value) : v.mapNodes (fun c => g c.1) = v.mapHeld g := by
  cases v with
  | list items => exact congrArg (Value.list <$> ·) (Value.mapItems_eq g items)
  | set items => exact congrArg (Value.set <$> ·) (Value.mapItems_eq g items)
  | _ => rfl

theorem Value.mapHeld_nodeList (g : Node → m Node) (cs : List Node) :
    (Value.nodeList cs).mapHeld g = Value.nodeList <$> cs.mapM g := by
  have items : ∀ cs : List Node, (cs.map Value.node).mapM (Value.mapNode g) =
      (List.map Value.node) <$> cs.mapM g := by
    intro cs
    induction cs with
    | nil => simp
    | cons c cs ih => simp [ih, Value.mapNode]
  rw [Value.nodeList, Value.mapHeld, items, Functor.map_map]
  rfl

variable [MonadLiftT BuildM m]

namespace Node

/-- One field of a rebuilt node. -/
def mapField (kind : String) (sel : Selector) (g : Node → m Node) (p : Field × Value) : m Value :=
  if sel.selects p.1 then do
    let value ← p.2.mapHeld g
    liftM (m := BuildM) (p.1.checked kind value)
  else pure p.2

theorem mapSmaller_eq (n : Node) (sel : Selector) (g : Node → m Node) :
    n.mapSmaller sel (fun c => g c.1) =
      n.fields.mapM (mapField n.kind sel g) >>= fun values => liftM (m := BuildM) (allocate n.variant values) := by
  unfold mapSmaller
  rw [List.mapM_subtype (g := mapField n.kind sel g), List.unattach_attach]
  rintro ⟨f, v⟩ _
  simp only [mapField, ← Value.mapNodes_eq]

/-- A node is copied by copying the nodes that it holds. -/
theorem copy_eq_map (n : Node) : n.copy = n.map .children copy := by
  rw [copy, rewriteWith]
  exact bind_pure _

end Node
end TypedTree
