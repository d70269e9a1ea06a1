import TypedTree.Error
import TypedTree.Tree.Basic

/-!
Which values a field type admits, and the check that stands before every value stored in a node.
-/

namespace TypedTree

/-- Whether a scalar type admits a value. A member has to come from an enumeration of the same name and be one of
    the members the type lists. -/
def ScalarType.admits : ScalarType → Value → Bool
  | .int, .int _ => true
  | .float, .float _ => true
  | .bool, .bool _ => true
  | .str, .str _ => true
  | .enum d, .enum m => m.enum.name == d.name && d.members.contains m.member
  | _, _ => false

/-- Whether a field type admits a value, at every depth. The items of a set have to be distinct. -/
def FieldType.admits : FieldType → Value → Bool
  | .optional inner, v => v.isAbsent || inner.admits v
  | .scalar s, v => s.admits v
  | .node cls, .node n => n.isA cls
  | .list item, .list vs => vs.all item.admits
  | .set item, .set vs => vs.all item.admits && decide (Value.Distinct vs)
  | _, _ => false

namespace Field

/-- The error of a value that the field of the variant does not admit. -/
def typeError (f : Field) (variant : String) (v : Value) : Error :=
  .schema (.fieldType variant f.name (toString f.type) v.typeName)

/-- The value itself, if the field admits it. -/
def checked (f : Field) (variant : String) (v : Value) : Except Error Value :=
  if f.type.admits v then pure v else throw (f.typeError variant v)

end Field

end TypedTree
