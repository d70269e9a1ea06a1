import TypedTree.Schema.Enumeration

/-!
The types a field can be declared with: scalars, nodes of a class, and lists, sets and optional values of another
field type.
-/

namespace TypedTree

/-- A type without nodes in it. -/
inductive ScalarType where
  | int
  | float
  | bool
  | str
  | enum (d : EnumDef)
deriving DecidableEq, Repr

inductive FieldType where
  | scalar (s : ScalarType)
  /-- A node whose variant is the class of that name or belongs to it. -/
  | node (cls : String)
  | list (item : FieldType)
  | set (item : FieldType)
  | optional (inner : FieldType)
deriving DecidableEq, Repr

namespace ScalarType

protected def toString : ScalarType → String
  | .int => "Int"
  | .float => "Float"
  | .bool => "Bool"
  | .str => "Str"
  | .enum d => d.name

instance : ToString ScalarType := ⟨ScalarType.toString⟩

end ScalarType

namespace FieldType

abbrev int : FieldType := .scalar .int
abbrev float : FieldType := .scalar .float
abbrev bool : FieldType := .scalar .bool
abbrev str : FieldType := .scalar .str

abbrev enum (α : Type) [Enumerated α] : FieldType := .scalar (.enum (Enumerated.enumDef α))

/-- The type as diagnostics show it: `List[Int]`, `Optional[Expr]`. -/
protected def toString : FieldType → String
  | .scalar s => toString s
  | .node cls => cls
  | .list item => "List[" ++ item.toString ++ "]"
  | .set item => "Set[" ++ item.toString ++ "]"
  | .optional inner => "Optional[" ++ inner.toString ++ "]"

instance : ToString FieldType := ⟨FieldType.toString⟩

def isOptional : FieldType → Bool
  | .optional _ => true
  | _ => false

/-- The type of the items, for lists alone. -/
def listItem? : FieldType → Option FieldType
  | .list item => some item
  | _ => none

/-- The class of the nodes a value of the type holds, at any depth. -/
def nodeClass? : FieldType → Option String
  | .scalar _ => none
  | .node cls => some cls
  | .list item => item.nodeClass?
  | .set item => item.nodeClass?
  | .optional inner => inner.nodeClass?

end FieldType

end TypedTree
