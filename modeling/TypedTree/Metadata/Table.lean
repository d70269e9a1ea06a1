import TypedTree.Data.OrderedMap
import TypedTree.Tree.Admission
import TypedTree.Workspace

/-!
Side tables: facts about nodes that are kept apart from the tree. A table belongs to one class of nodes and one
type of values, and its entries are kept by identity, so a node of equal content has no share in them. Once a
table is locked it is a snapshot. A write that is wrong in several ways reports the owner first, then the type,
and the lock last.
-/

namespace TypedTree.Metadata

structure Table where
  name : String
  /-- The class of the nodes that can have an entry. -/
  owner : String
  type : FieldType
  locked : Bool
  entries : OrderedMap NodeId Value

namespace Table

def create (name owner : String) (type : FieldType) : Table := ⟨name, owner, type, false, .empty⟩

def size (t : Table) : Nat := t.entries.size

def isEmpty (t : Table) : Bool := t.entries.isEmpty

/-! ### Checks -/

/-- Only nodes of the owning class have a place in the table. -/
def checkOwner (t : Table) (n : Node) : Except Error Unit :=
  if n.isA t.owner then pure () else throw (.metadata (.nodeType t.name n.kind))

/-- Only values of the expected type are written. -/
def checkValue (t : Table) (expected : FieldType) (v : Value) : Except Error Unit :=
  if expected.admits v then pure () else throw (.metadata (.valueType t.name (toString expected) v.typeName))

/-- A locked table is only read. -/
def checkWritable (t : Table) : Except Error Unit :=
  if t.locked then throw (.metadata (.readonly t.name)) else pure ()

/-! ### Writing -/

/-- Stores a value for a node, in the place of what was stored before. -/
def set (t : Table) (n : Node) (v : Value) : Except Error Table := do
  t.checkOwner n
  t.checkValue t.type v
  t.checkWritable
  pure { t with entries := t.entries.insert n.id v }

/-- What is stored for a node after `v` is put at the end of its list. -/
def appended (v : Value) : Option Value → Value
  | some (.list items) => .list (items ++ [v])
  | _ => .list [v]

/-- Puts a value at the end of the list stored for a node, in tables of lists. -/
def add (t : Table) (n : Node) (v : Value) : Except Error Table := do
  t.checkOwner n
  let item ← match t.type.listItem? with
    | some item => pure item
    | none => throw (.metadata (.notList t.name (toString t.type)))
  t.checkValue item v
  t.checkWritable
  pure { t with entries := t.entries.insert n.id (appended v (t.entries.get? n.id)) }

/-- The table as a snapshot. There is no way back. -/
def lock (t : Table) : Table := { t with locked := true }

def lockNotice (t : Table) : LogLine :=
  ⟨.trace, s!"metadata `{t.name}` locked with {t.size} entries"⟩

/-! ### Reading -/

/-- The entry of a node. In a table of lists a node without entry has the empty list. -/
def get (t : Table) (n : Node) : Except Error Value := do
  t.checkOwner n
  match t.entries.get? n.id with
  | some v => pure v
  | none =>
    match t.type.listItem? with
    | some _ => pure (.list [])
    | none => throw (.metadata (.notSet t.name n.id))

def getNode (t : Table) (n : Node) : Except Error Node := do
  match ← t.get n with
  | .node c => pure c
  | v => throw (.metadata (.valueType t.name "node" v.typeName))

def getNodes (t : Table) (n : Node) : Except Error (List Node) := do
  match ← t.get n with
  | .list items | .set items => pure (items.filterMap Value.asNode?)
  | v => throw (.metadata (.valueType t.name "List" v.typeName))

end Table

end TypedTree.Metadata
