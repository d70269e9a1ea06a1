import TypedTree.Expr.Typing
import TypedTree.Proofs.Expr.Term

/-! Typing of terms: the rules of the checker without trees, identities and log. A rule that converts an operand does
    so whenever the operand has another type, so operands that need no conversion take the same path. -/

namespace TypedTree

/-- The type to which the operands of an operator are converted. -/
def BinaryOp.operandType (op : BinaryOp) (left right : Ty) : Except Error Ty :=
  if left = right then pure (if left = .bool ∧ op.isArithmetic then .int else left)
  else Expr.Typing.promote (Enumerated.name op) left right

/-- The type to which the operands of a comparison are converted. -/
def Comparison.operandType (op : Comparison) (left right : Ty) : Except Error Ty :=
  if left = right then pure left else Expr.Typing.promote (Enumerated.name op) left right

/-- The type to which the operand of an operator is converted. -/
def UnaryOp.operandType : UnaryOp → Ty → Ty
  | .neg, found => if found = .bool then .int else found
  | .not, _ => .bool

end TypedTree

namespace TypedTree.Expr

/-- Typing while declaring names. -/
abbrev InferM := StateT SymbolTable (Except Error)

def lookup (name : String) : InferM Ty := do
  match (← get).get? name with
  | some t => pure t
  | none => throw (.typing (.undefined name))

def declare (name : String) (ty : Ty) : InferM Unit := do
  set (← (← get).declare name ty)

def declareAll : List (String × Ty) → InferM Unit
  | [] => pure ()
  | (name, ty) :: rest => do
    declare name ty
    declareAll rest

namespace Term

/-- The type written at an expression, which has to be there. -/
def carried (t : Term) : Except Error Ty :=
  match t.type? with
  | some ty => pure ty
  | none => throw (.typing (.untyped t.kind.name))

/-- The term as one of the target type: itself if it has that type, converted otherwise. -/
def ensure (t : Term) (target : Ty) : Except Error Term := do
  let found ← t.carried
  if found = target then pure t
  else
    match Conversion.of? target with
    | some via => pure (.cast via t (some target))
    | none => throw (.typing (.operandMismatch "cast" found target))

/-- The operand of an operator, converted as the operator wants it. -/
def asOperand (op : UnaryOp) (t : Term) : Except Error Term := do
  let found ← t.carried
  t.ensure (op.operandType found)

/-- The term, which has to be a whole number; the error says what it was wanted for. -/
def asInt (error : Ty → TypingError) (t : Term) : Except Error Term := do
  let found ← t.carried
  if found = .int then pure t else throw (.typing (error found))

/-- The type of a value to assign, which is not an array. -/
def assignedType (t : Term) : Except Error Ty := do
  let found ← t.carried
  if found.isArray then throw (.typing (.arrayAssign found)) else pure found

mutual

/-- The typed form of a term, in a function with the given return type if in any. -/
def check (returnType : Option Ty) : Term → InferM Term
  | .binOp op left right _ => do
    let left ← left.check returnType
    let right ← right.check returnType
    let target ← op.operandType (← left.carried) (← right.carried)
    let left ← left.ensure target
    let right ← right.ensure target
    pure (.binOp op left right (some target))
  | .cmpOp op left right _ => do
    let left ← left.check returnType
    let right ← right.check returnType
    let target ← op.operandType (← left.carried) (← right.carried)
    let left ← left.ensure target
    let right ← right.ensure target
    pure (.cmpOp op left right (some .bool))
  | .unOp op e _ => do
    let e ← (← e.check returnType).asOperand op
    let result ← e.carried
    pure (.unOp op e (some result))
  | .var name _ => do
    let declared ← lookup name
    pure (.var name (some declared))
  | .element name index _ => do
    let declared ← lookup name
    let index ← (← index.check returnType).asInt .nonIntIndex
    let result ← Typing.referenceType declared true
    pure (.element name index (some result))
  | .const c _ => pure (.const c (some c.type))
  | .cast via e _ => do
    let e ← e.check returnType
    e.ensure via.target
  | .assign name _ val => do
    let val ← val.check returnType
    let valueType ← val.assignedType
    declare name valueType
    pure (.assign name (some valueType) val)
  | .store name index _ val => do
    let val ← val.check returnType
    let valueType ← val.assignedType
    let index ← (← index.check returnType).asInt .nonIntIndex
    let declared ← Typing.targetType valueType true
    declare name declared
    pure (.store name index (some declared) val)
  | .block body => do
    let body ← checkAll returnType body
    pure (.block body)
  | .branch cond body => do
    let cond ← cond.check returnType
    let body ← body.check returnType
    pure (.branch cond body)
  | .branchElse cond body elseBody => do
    let cond ← cond.check returnType
    let body ← body.check returnType
    let elseBody ← elseBody.check returnType
    pure (.branchElse cond body elseBody)
  | .loop counter min max body => do
    let min ← (← min.check returnType).asInt (.nonIntBound "Lower")
    let max ← (← max.check returnType).asInt (.nonIntBound "Upper")
    declare counter .int
    let body ← body.check returnType
    pure (.loop counter min max body)
  | .ret val _ => do
    let val ← val.check returnType
    let found ← val.carried
    if returnType = some found then pure (.ret val (some found))
    else throw (.typing (.returnMismatch returnType found))
  | .funcDef name args types resultType body => do
    if args.length ≠ types.length then throw (.typing (.arityMismatch name args.length types.length))
    declareAll (args.zip types)
    let body ← body.check (some resultType)
    pure (.funcDef name args types resultType body)

def checkAll (returnType : Option Ty) : List Term → InferM (List Term)
  | [] => pure []
  | t :: ts => do
    let t ← t.check returnType
    let ts ← checkAll returnType ts
    pure (t :: ts)

end

end Term
end TypedTree.Expr
