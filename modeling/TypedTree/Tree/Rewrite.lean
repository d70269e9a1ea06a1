import TypedTree.Tree.Build

/-!
Going through trees. `mapSmaller` rebuilds one node with the nodes it holds replaced, `rewriteWith` does so at
every depth as a rule says, and `walkWith` only looks. The nodes a node holds are met in the order of
`Node.children`.
-/

namespace TypedTree

variable {m : Type → Type} [Monad m]

namespace Value

def mapItems (items : List Value) (f : { c : Node // c ∈ items.filterMap asNode? } → m Node) : m (List Value) :=
  items.attach.mapM fun v =>
    match v with
    | ⟨.node c, h⟩ => Value.node <$> f ⟨c, List.mem_filterMap.mpr ⟨.node c, h, rfl⟩⟩
    | ⟨v, _⟩ => pure v

def mapNodes (v : Value) (f : { c : Node // c ∈ v.nodes } → m Node) : m Value :=
  match v, f with
  | .node c, f => Value.node <$> f ⟨c, List.mem_singleton.mpr rfl⟩
  | .list items, f => Value.list <$> mapItems items f
  | .set items, f => Value.set <$> mapItems items f
  | v, _ => pure v

end Value

variable [MonadLiftT BuildM m]

namespace Node

/-- A new node of the same variant in which the nodes held by the selected fields are replaced. Each selected
    field is checked again before the next one is looked at. -/
def mapSmaller (n : Node) (sel : Selector) (f : n.Smaller → m Node) : m Node := do
  let values ← n.fields.attach.mapM fun p =>
    if sel.selects p.1.1 then do
      let value ← p.1.2.mapNodes fun c => f ⟨c.1, Nat.lt_trans (Value.sizeOf_lt_of_mem_nodes c.2)
        (sizeOf_lt_of_mem_values (mem_values_of_mem_fields p.2))⟩
      liftM (m := BuildM) (p.1.1.checked n.kind value)
    else pure p.1.2
  liftM (m := BuildM) (allocate n.variant values)

/-- A new node of the same variant in which the nodes held by the selected fields are replaced. -/
def map (n : Node) (sel : Selector) (f : Node → m Node) : m Node := n.mapSmaller sel fun c => f c.1

end Node

/-- What to do with a node on the way down a tree. -/
inductive RewriteRule (m : Type → Type) where
  /-- Put another node in its place, without looking at what it holds. -/
  | replace (f : Node → m Node)
  /-- Rewrite what the selected fields hold, then put another node in the place of the rebuilt one. -/
  | rebuild (sel : Selector) (finish : Node → m Node)

namespace Node

/-- The tree rewritten from the leaves up, by the rule for each node. -/
def rewriteWith (rule : Node → RewriteRule m) (n : Node) : m Node :=
  match rule n with
  | .replace f => f n
  | .rebuild sel finish => do
    let rebuilt ← n.mapSmaller sel fun c => c.1.rewriteWith rule
    finish rebuilt
termination_by sizeOf n
decreasing_by exact c.2

/-- The tree rebuilt node by node, with identities of its own. -/
def copy (n : Node) : BuildM Node := n.rewriteWith fun _ => .rebuild .children pure

omit [MonadLiftT BuildM m] in
/-- Meets the nodes of a tree from the root down; where `enter` says no, what the node holds is left out. -/
def walkWith (enter : Node → m Bool) (n : Node) : m Unit := do
  if ← enter n then
    n.smallerChildren.forM fun c => c.1.walkWith enter
termination_by sizeOf n
decreasing_by exact c.2

end Node

end TypedTree
