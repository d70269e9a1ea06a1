import TypedTree.Metadata.Table

/-!
Repositories: side tables under their names, in order of registration. An operation that fails leaves the
repository as it was.
-/

namespace TypedTree.Metadata

/-- Tables by name, in order of registration. -/
structure Repository where
  tables : OrderedMap String Table

namespace Repository

def empty : Repository := ⟨.empty⟩

instance : Inhabited Repository := ⟨empty⟩

def size (r : Repository) : Nat := r.tables.size

def isEmpty (r : Repository) : Bool := r.tables.isEmpty

/-- Adds a table under its name, which has to be new. -/
def register (r : Repository) (t : Table) : Except Error Repository :=
  if r.tables.contains t.name then throw (.metadata (.duplicate t.name))
  else pure ⟨r.tables.insertNew t.name t⟩

def table (r : Repository) (name : String) : Except Error Table :=
  match r.tables.get? name with
  | some t => pure t
  | none => throw (.metadata (.undefined name))

/-- Puts the outcome of an operation in the place of a table. -/
def update (r : Repository) (name : String) (f : Table → Except Error Table) : Except Error Repository := do
  let t ← f (← r.table name)
  pure ⟨r.tables.modify name fun _ => t⟩

def set (r : Repository) (name : String) (n : Node) (v : Value) : Except Error Repository :=
  r.update name (·.set n v)

def add (r : Repository) (name : String) (n : Node) (v : Value) : Except Error Repository :=
  r.update name (·.add n v)

def get (r : Repository) (name : String) (n : Node) : Except Error Value := do
  (← r.table name).get n

def locked (r : Repository) : Repository := ⟨r.tables.mapValues Table.lock⟩

/-- Locks the table of that name and says so in the log. -/
def lock (r : Repository) (name : String) : BuildM Repository := do
  let t ← r.table name
  Workspace.note t.lockNotice
  pure ⟨r.tables.modify name fun _ => t.lock⟩

/-- Locks every table and says so in the log, table by table. -/
def lockAll (r : Repository) : StateM Workspace Repository := do
  Workspace.noteAll (r.tables.values.map Table.lockNotice)
  pure r.locked

end Repository

end TypedTree.Metadata
