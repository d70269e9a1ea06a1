import TypedTree.Schema.FieldType

/-!
Variants, the kinds of node: a name, the classes the variant belongs to, and the complete list of its fields in
order. A selector picks some fields of a variant, for rewriting the nodes they hold.
-/

namespace TypedTree

structure Field where
  name : String
  type : FieldType
deriving DecidableEq, Repr

namespace Field

def isOptional (f : Field) : Bool := f.type.isOptional

/-- Whether the field holds nodes, directly or inside lists, sets and optional values. -/
def isChild (f : Field) : Bool := f.type.nodeClass?.isSome

end Field

/-- A kind of node. -/
structure Variant where
  name : String
  /-- Every class the variant belongs to, besides the one of its own name. -/
  classes : List String
  fields : List Field
deriving DecidableEq, Repr

namespace Variant

/-- Whether the variant is, or belongs to, the class. -/
def isA (v : Variant) (cls : String) : Bool := v.name == cls || v.classes.contains cls

def fieldIndex? (v : Variant) (name : String) : Option Nat := v.fields.findIdx? fun f => f.name == name

def field? (v : Variant) (name : String) : Option Field := v.fields.find? fun f => f.name == name

def childFields (v : Variant) : List Field := v.fields.filter Field.isChild

/-- Variants of one name count as the same. -/
def sameAs (v w : Variant) : Bool := v.name == w.name

end Variant

inductive Selector where
  /-- Every field that holds nodes. -/
  | children
  /-- The fields declared with one of these node classes; subclasses do not count. -/
  | classes (names : List String)
  /-- The fields with one of these names. -/
  | fields (names : List String)
deriving DecidableEq, Repr

def Selector.selects : Selector → Field → Bool
  | .children, f => f.isChild
  | .classes names, f => f.type.nodeClass?.any names.contains
  | .fields names, f => names.contains f.name

end TypedTree
