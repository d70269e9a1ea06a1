import TypedTree.Schema.Enumeration

/-!
The types and operators of the expression language.
-/

namespace TypedTree

/-- The static type of an expression or a name. -/
inductive Ty where
  | int
  | intArray
  | float
  | floatArray
  | bool
  | boolArray
  | void
deriving DecidableEq, Repr

inductive UnaryOp where
  | neg
  | not
deriving DecidableEq, Repr

/-- Operators with two operands of one type and a result of that type. -/
inductive BinaryOp where
  | add
  | sub
  | mul
  | div
  | mod
  | and
  | or
deriving DecidableEq, Repr

inductive Comparison where
  | eq
  | ne
  | lt
  | gt
  | le
  | ge
deriving DecidableEq, Repr

instance : Enumerated Ty where
  label := "Type"
  all := [.int, .intArray, .float, .floatArray, .bool, .boolArray, .void]
  name
    | .int => "Int"
    | .intArray => "IntArray"
    | .float => "Float"
    | .floatArray => "FloatArray"
    | .bool => "Bool"
    | .boolArray => "BoolArray"
    | .void => "Void"
  mem_all a := by cases a <;> decide
  nodup_names := by decide

instance : Enumerated UnaryOp where
  label := "Uop"
  all := [.neg, .not]
  name
    | .neg => "Neg"
    | .not => "Not"
  mem_all a := by cases a <;> decide
  nodup_names := by decide

instance : Enumerated BinaryOp where
  label := "Bop"
  all := [.add, .sub, .mul, .div, .mod, .and, .or]
  name
    | .add => "Add"
    | .sub => "Sub"
    | .mul => "Mul"
    | .div => "Div"
    | .mod => "Mod"
    | .and => "And"
    | .or => "Or"
  mem_all a := by cases a <;> decide
  nodup_names := by decide

instance : Enumerated Comparison where
  label := "Cop"
  all := [.eq, .ne, .lt, .gt, .le, .ge]
  name
    | .eq => "Eq"
    | .ne => "Ne"
    | .lt => "Lt"
    | .gt => "Gt"
    | .le => "Le"
    | .ge => "Ge"
  mem_all a := by cases a <;> decide
  nodup_names := by decide

instance : ToString Ty := ⟨Enumerated.name⟩

namespace Ty

def isArray : Ty → Bool
  | .intArray | .floatArray | .boolArray => true
  | _ => false

/-- The array type with these elements; arrays map to themselves, and there are no arrays of `void`. -/
def toArray? : Ty → Option Ty
  | .int | .intArray => some .intArray
  | .float | .floatArray => some .floatArray
  | .bool | .boolArray => some .boolArray
  | .void => none

/-- The type of the elements of an array; other types map to themselves. -/
def toScalar : Ty → Ty
  | .intArray => .int
  | .floatArray => .float
  | .boolArray => .bool
  | t => t

end Ty

/-- Whether the operator computes a number, so that two truth values are counted as whole numbers. -/
def BinaryOp.isArithmetic : BinaryOp → Bool
  | .add | .sub | .mul | .div | .mod => true
  | .and | .or => false

end TypedTree
