import TypedTree.Number.Binary64
import TypedTree.Schema.Variant
import TypedTree.Tree.NodeId

/-!
Trees of typed nodes. A node has an identity, a variant, and one value for each field of the variant; a value may
hold further nodes, directly or as items of a list or a set. Nodes never change. Nodes are compared by identity
and everything else by content (`==`), so a set can hold two nodes of equal content. What a node holds is smaller
than the node, which is why every walk down a tree ends.
-/

namespace TypedTree

mutual

inductive Node where
  | mk (id : NodeId) (variant : Variant) (values : List Value)

inductive Value where
  /-- An optional field without a value. -/
  | absent
  | int (i : Int)
  | float (x : Binary64)
  | bool (b : Bool)
  | str (s : String)
  | enum (m : EnumMember)
  | node (n : Node)
  | list (items : List Value)
  | set (items : List Value)

end

instance : Inhabited Value := ⟨.absent⟩

namespace Node

/-- The identity given when the node was built. -/
def id : Node → NodeId
  | .mk id _ _ => id

def variant : Node → Variant
  | .mk _ variant _ => variant

def values : Node → List Value
  | .mk _ _ values => values

def kind (n : Node) : String := n.variant.name

def isA (n : Node) (cls : String) : Bool := n.variant.isA cls

def fields (n : Node) : List (Field × Value) := n.variant.fields.zip n.values

/-- Nodes are compared by identity. -/
protected def beq (a b : Node) : Bool := a.id == b.id

instance : BEq Node := ⟨Node.beq⟩

end Node

namespace Value

def ofMember {α : Type} [Enumerated α] (a : α) : Value := .enum (.of a)

def ofOption : Option Node → Value
  | none => .absent
  | some n => .node n

def nodeList (ns : List Node) : Value := .list (ns.map .node)

def isAbsent : Value → Bool
  | .absent => true
  | _ => false

def asNode? : Value → Option Node
  | .node n => some n
  | _ => none

def items? : Value → Option (List Value)
  | .list items | .set items => some items
  | _ => none

def asMember? (α : Type) [Enumerated α] : Value → Option α
  | .enum m => m.get? α
  | _ => none

/-- The nodes a value holds: itself, or the items of a list or a set that are nodes. -/
def nodes : Value → List Node
  | .node n => [n]
  | .list items | .set items => items.filterMap asNode?
  | _ => []

/-- What a value is, in a word, for messages: the variant of a node, the enumeration of a member. -/
def typeName : Value → String
  | .absent => "None"
  | .int _ => "Int"
  | .float _ => "Float"
  | .bool _ => "Bool"
  | .str _ => "Str"
  | .enum m => m.enum.name
  | .node n => n.kind
  | .list _ => "List"
  | .set _ => "Set"

/-! ### Equality -/

mutual

/-- Equality of values: nodes by identity, doubles numerically, lists and sets item by item in order. -/
protected def beq : Value → Value → Bool
  | .absent, .absent => true
  | .int i, .int j => i == j
  | .float x, .float y => x.numericEq y
  | .bool a, .bool b => a == b
  | .str s, .str t => s == t
  | .enum m, .enum k => m == k
  | .node a, .node b => a == b
  | .list xs, .list ys => beqItems xs ys
  | .set xs, .set ys => beqItems xs ys
  | _, _ => false

def beqItems : List Value → List Value → Bool
  | [], [] => true
  | x :: xs, y :: ys => Value.beq x y && beqItems xs ys
  | _, _ => false

end

instance : BEq Value := ⟨Value.beq⟩

/-- No value equals an earlier one. -/
def Distinct (vs : List Value) : Prop := vs.Pairwise fun a b => (a == b) = false

instance (vs : List Value) : Decidable (Distinct vs) := inferInstanceAs (Decidable (List.Pairwise _ vs))

/-- The values without those that equal an earlier one. -/
def firstOccurrences (vs : List Value) : List Value :=
  vs.foldl (fun kept v => if kept.any (· == v) then kept else kept ++ [v]) []

/-- The set of the given values, in the order of their first occurrence. -/
def setOf (vs : List Value) : Value := .set (firstOccurrences vs)

end Value

/-! ### What a node holds -/

/-- The nodes a node holds, field by field. -/
def Node.children (n : Node) : List Node := n.values.flatMap Value.nodes

/-- The nodes smaller than `n`: every node that `n` holds, at any depth, is one. -/
abbrev Node.Smaller (n : Node) : Type := { c : Node // sizeOf c < sizeOf n }

theorem Value.sizeOf_lt_of_mem_nodes {v : Value} {c : Node} (h : c ∈ v.nodes) : sizeOf c < sizeOf v := by
  have inItems : ∀ {items : List Value}, c ∈ items.filterMap asNode? → sizeOf c < sizeOf items := by
    intro items h
    obtain ⟨v, hv, hc⟩ := List.mem_filterMap.mp h
    have hlt := List.sizeOf_lt_of_mem hv
    cases v <;> simp only [asNode?, Option.some.injEq, reduceCtorEq] at hc
    subst hc
    simp only [node.sizeOf_spec] at hlt
    omega
  cases v with
  | node n =>
    rw [nodes, List.mem_singleton] at h
    subst h
    simp only [node.sizeOf_spec]
    omega
  | list items =>
    have := inItems h
    simp only [list.sizeOf_spec]
    omega
  | set items =>
    have := inItems h
    simp only [set.sizeOf_spec]
    omega
  | _ => exact absurd h List.not_mem_nil

theorem Node.sizeOf_values_lt (n : Node) : sizeOf n.values < sizeOf n := by
  cases n
  simp only [values, mk.sizeOf_spec]
  omega

theorem Node.sizeOf_lt_of_mem_values {n : Node} {v : Value} (h : v ∈ n.values) : sizeOf v < sizeOf n :=
  Nat.lt_trans (List.sizeOf_lt_of_mem h) n.sizeOf_values_lt

theorem Node.sizeOf_lt_of_mem_children {n c : Node} (h : c ∈ n.children) : sizeOf c < sizeOf n := by
  obtain ⟨v, hv, hc⟩ := List.mem_flatMap.mp h
  exact Nat.lt_trans (Value.sizeOf_lt_of_mem_nodes hc) (sizeOf_lt_of_mem_values hv)

theorem Node.mem_values_of_mem_fields {n : Node} {f : Field} {v : Value} (h : (f, v) ∈ n.fields) :
    v ∈ n.values := (List.of_mem_zip h).2

namespace Node

/-- The children, each with the proof that it is smaller. -/
def smallerChildren (n : Node) : List n.Smaller :=
  n.children.attach.map fun c => ⟨c.1, sizeOf_lt_of_mem_children c.2⟩

@[simp] theorem map_val_smallerChildren (n : Node) : n.smallerChildren.map (·.1) = n.children := by
  simp only [smallerChildren, List.map_map]
  exact List.attach_map_subtype_val n.children

end Node

end TypedTree
