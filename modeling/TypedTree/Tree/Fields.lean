import TypedTree.Error
import TypedTree.Tree.Basic

/-!
Reading the fields of a node by name and shape. The readers that start with `descend` give nodes together with
the proof that they are smaller than the node read, for recursion down the tree; `map_val_descend` and its
companions say that they read the same nodes.
-/

namespace TypedTree.Node

def get (n : Node) (name : String) : Except Error Value :=
  match n.fields.find? fun p => p.1.name == name with
  | some p => pure p.2
  | none => throw (.schema (.unknownField n.kind name))

/-- The error of a field whose value has another shape than the one it is read with. -/
def shapeError (n : Node) (name expected : String) (v : Value) : Error :=
  .schema (.fieldType n.kind name expected v.typeName)

/-! ### Nodes -/

def getNode (n : Node) (name : String) : Except Error Node := do
  match ← n.get name with
  | .node c => pure c
  | v => throw (n.shapeError name "node" v)

def getNode? (n : Node) (name : String) : Except Error (Option Node) := do
  match ← n.get name with
  | .absent => pure none
  | .node c => pure (some c)
  | v => throw (n.shapeError name "node" v)

/-- The items of a list or set field that are nodes. -/
def getNodes (n : Node) (name : String) : Except Error (List Node) := do
  match ← n.get name with
  | .list items | .set items => pure (items.filterMap Value.asNode?)
  | v => throw (n.shapeError name "List" v)

/-! ### Scalars -/

def getInt (n : Node) (name : String) : Except Error Int := do
  match ← n.get name with
  | .int i => pure i
  | v => throw (n.shapeError name "Int" v)

def getBool (n : Node) (name : String) : Except Error Bool := do
  match ← n.get name with
  | .bool b => pure b
  | v => throw (n.shapeError name "Bool" v)

def getStr (n : Node) (name : String) : Except Error String := do
  match ← n.get name with
  | .str s => pure s
  | v => throw (n.shapeError name "Str" v)

def getMember (α : Type) [Enumerated α] (n : Node) (name : String) : Except Error α := do
  let v ← n.get name
  match v.asMember? α with
  | some a => pure a
  | none => throw (n.shapeError name (Enumerated.label α) v)

def getMember? (α : Type) [Enumerated α] (n : Node) (name : String) : Except Error (Option α) := do
  match ← n.get name with
  | .absent => pure none
  | v =>
    match v.asMember? α with
    | some a => pure (some a)
    | none => throw (n.shapeError name (Enumerated.label α) v)

/-! ### What is read is a child -/

theorem mem_values_of_get {n : Node} {name : String} {v : Value} (h : n.get name = .ok v) : v ∈ n.values := by
  unfold get at h
  split at h
  · next p hp =>
    cases h
    exact mem_values_of_mem_fields (List.mem_of_find?_eq_some hp)
  · cases h

theorem mem_children_of_get {n c : Node} {name : String} {v : Value} (h : n.get name = .ok v)
    (hc : c ∈ v.nodes) : c ∈ n.children :=
  List.mem_flatMap.mpr ⟨v, mem_values_of_get h, hc⟩

theorem get_of_getNode {n c : Node} {name : String} (h : n.getNode name = .ok c) :
    n.get name = .ok (.node c) := by
  unfold getNode at h
  cases hg : n.get name with
  | error e => rw [hg] at h; cases h
  | ok v =>
    rw [hg] at h
    cases v <;> cases h
    rfl

theorem get_of_getNode? {n c : Node} {name : String} (h : n.getNode? name = .ok (some c)) :
    n.get name = .ok (.node c) := by
  unfold getNode? at h
  cases hg : n.get name with
  | error e => rw [hg] at h; cases h
  | ok v =>
    rw [hg] at h
    cases v <;> cases h
    rfl

theorem get_of_getNodes {n : Node} {name : String} {cs : List Node} (h : n.getNodes name = .ok cs) :
    ∃ v, n.get name = .ok v ∧ v.nodes = cs := by
  unfold getNodes at h
  cases hg : n.get name with
  | error e => rw [hg] at h; cases h
  | ok v => cases v <;> (rw [hg] at h; cases h) <;> exact ⟨_, rfl, rfl⟩

theorem mem_children_of_getNode {n c : Node} {name : String} (h : n.getNode name = .ok c) :
    c ∈ n.children :=
  mem_children_of_get (get_of_getNode h) (by simp [Value.nodes])

theorem mem_children_of_getNode? {n c : Node} {name : String} (h : n.getNode? name = .ok (some c)) :
    c ∈ n.children :=
  mem_children_of_get (get_of_getNode? h) (by simp [Value.nodes])

theorem mem_children_of_getNodes {n c : Node} {name : String} {cs : List Node}
    (h : n.getNodes name = .ok cs) (hc : c ∈ cs) : c ∈ n.children := by
  obtain ⟨v, hv, rfl⟩ := get_of_getNodes h
  exact mem_children_of_get hv hc

/-! ### Descending -/

/-- The node a field holds, with the proof that it is smaller. -/
def descend (n : Node) (name : String) : Except Error n.Smaller :=
  match h : n.getNode name with
  | .ok c => pure ⟨c, sizeOf_lt_of_mem_children (mem_children_of_getNode h)⟩
  | .error e => throw e

/-- The node a field holds, if it holds a value, with the proof that it is smaller. -/
def descend? (n : Node) (name : String) : Except Error (Option n.Smaller) :=
  match h : n.getNode? name with
  | .ok (some c) => pure (some ⟨c, sizeOf_lt_of_mem_children (mem_children_of_getNode? h)⟩)
  | .ok none => pure none
  | .error e => throw e

/-- The nodes a list or set field holds, with the proof that they are smaller. -/
def descendAll (n : Node) (name : String) : Except Error (List n.Smaller) :=
  match h : n.getNodes name with
  | .ok cs => pure (cs.attach.map fun c => ⟨c.1, sizeOf_lt_of_mem_children (mem_children_of_getNodes h c.2)⟩)
  | .error e => throw e

theorem map_val_descend (n : Node) (name : String) : (n.descend name).map (·.1) = n.getNode name := by
  unfold descend
  split <;> (next h => exact h.symm)

theorem map_val_descend? (n : Node) (name : String) :
    (n.descend? name).map (·.map (·.1)) = n.getNode? name := by
  unfold descend?
  split <;> (next h => exact h.symm)

theorem map_val_descendAll (n : Node) (name : String) :
    (n.descendAll name).map (·.map (·.1)) = n.getNodes name := by
  unfold descendAll
  split
  · next cs h =>
    refine Eq.trans ?_ h.symm
    simp only [pure, Except.pure, Except.map, List.map_map]
    exact congrArg Except.ok (List.attach_map_subtype_val cs)
  · next h => exact h.symm

end TypedTree.Node
