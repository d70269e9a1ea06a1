import TypedTree.Metadata.Repository

/-!
Operations in place. Here a table is changed where it stands, step after step, and what was done before a failure
stays done. That a failed operation leaves everything as it was is then up to the order of its steps: checks come
before changes.
-/

namespace TypedTree.Metadata

namespace InPlace

/-! ### Tables -/

/-- Stores a value for a node. -/
def store (n : Node) (v : Value) : EditM Error Table Unit := do
  let t ← get
  t.checkOwner n
  t.checkValue t.type v
  t.checkWritable
  modify fun t => { t with entries := t.entries.insert n.id v }

/-- The type of the items, in tables of lists. -/
def itemType (t : Table) : Except Error FieldType :=
  match t.type.listItem? with
  | some item => pure item
  | none => throw (.metadata (.notList t.name (toString t.type)))

/-- A stored list with one more item. -/
def pushed (v : Value) : Value → Value
  | .list items => .list (items ++ [v])
  | _ => .list [v]

/-- Puts a value at the end of the list of a node, which starts out empty. -/
def push (n : Node) (v : Value) : EditM Error Table Unit := do
  let t ← get
  t.checkOwner n
  t.checkValue (← itemType t) v
  t.checkWritable
  modify fun t => { t with entries := t.entries.insertNew n.id (.list []) }
  modify fun t => { t with entries := t.entries.modify n.id (pushed v) }

def lock : EditM Error Table Unit := do
  let t ← get
  Workspace.note t.lockNotice
  modify Table.lock

/-! ### Repositories -/

/-- Only names that are new are registered. -/
def checkNew (r : Repository) (name : String) : Except Error Unit :=
  if r.tables.contains name then throw (.metadata (.duplicate name)) else pure ()

def register (t : Table) : EditM Error Repository Unit := do
  let r ← get
  checkNew r t.name
  modify fun r => ⟨r.tables.insertNew t.name t⟩

/-- Works on the table of that name. What the work leaves of the table is what is there afterwards, even if it
    fails. -/
def within (name : String) (work : EditM Error Table Unit) : EditM Error Repository Unit := do
  let t ← (← get).table name
  let (outcome, t) ← (work.run.run t : StateM Workspace (Except Error Unit × Table))
  modify fun r => ⟨r.tables.modify name fun _ => t⟩
  outcome

end InPlace

/-- What a repository is asked to do. -/
inductive Operation where
  | register (t : Table)
  | set (name : String) (n : Node) (v : Value)
  | add (name : String) (n : Node) (v : Value)
  | lock (name : String)
  | lockAll
  | read (name : String) (n : Node)

namespace Operation

/-- The repository after the operation, unless it fails. -/
def perform : Operation → Repository → BuildM Repository
  | .register t, r => r.register t
  | .set name n v, r => r.set name n v
  | .add name n v, r => r.add name n v
  | .lock name, r => r.lock name
  | .lockAll, r => r.lockAll
  | .read name n, r => do
    let _ ← r.get name n
    pure r

/-- The same operation where the repository stands. -/
def inPlace : Operation → EditM Error Repository Unit
  | .register t => InPlace.register t
  | .set name n v => InPlace.within name (InPlace.store n v)
  | .add name n v => InPlace.within name (InPlace.push n v)
  | .lock name => InPlace.within name InPlace.lock
  | .lockAll => do
    let r ← (← get).lockAll
    MonadState.set r
  | .read name n => do
    let _ ← (← get).get name n

end Operation

end TypedTree.Metadata
