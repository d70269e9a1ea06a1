import TypedTree.Expr.Builders
import TypedTree.Expr.SymbolTable
import TypedTree.Tree.Rewrite

/-!
Typing of programs, from the leaves up. Every expression gets its type, names are declared where they are first
assigned, and conversions that the program leaves implicit become nodes of their own: a float operand makes the
other one a float, else a whole number makes the other one whole, and two truth values are whole numbers under an
arithmetic operator. Types found in the program before are not looked at.
-/

namespace TypedTree.Expr.Typing

/-- The name under which failures and the log mention the pass. -/
def passName : String := "type_check"

/-- Building while declaring names. -/
abbrev CheckM := StateT SymbolTable BuildM

/-- The type an expression carries; it has to carry one. -/
def carriedType (e : Node) : Except Error Ty := do
  match ← Expr.typeOf e with
  | some t => pure t
  | none => throw (.typing (.untyped e.kind))

/-! ### Conversions -/

/-- The kind of node that converts to a type. -/
def castKind? : Ty → Option Kind
  | .int => some .castToInt
  | .float => some .castToFloat
  | .bool => some .castToBool
  | _ => none

/-- The expression as one of the target type: itself if it has that type, converted otherwise. -/
def ensure (e : Node) (target : Ty) : BuildM Node := do
  let found ← carriedType e
  if found = target then pure e
  else
    match castKind? target with
    | some k => k.variant.build [("expr", .node e), ("type", .ofMember target)]
    | none => throw (.typing (.operandMismatch "cast" found target))

/-- The type to which operands of two different types are converted. -/
def promote (op : String) (left right : Ty) : Except Error Ty :=
  if left = .float ∨ right = .float then pure .float
  else if left = .int ∨ right = .int then pure .int
  else throw (.typing (.operandMismatch op left right))

/-! The rules work in any monad that builds, may fail and holds the table of symbols. Those for functions and their
    returns are the exception: there a return type is handed down. -/

section Rules
variable {m : Type → Type} [Monad m] [MonadStateOf SymbolTable m] [MonadExceptOf Error m] [MonadLiftT (Except Error) m]
  [MonadLiftT BuildM m]

/-! ### Names -/

def lookup (name : String) : m Ty := do
  match (← get).get? name with
  | some t => pure t
  | none => throw (.typing (.undefined name))

def declare (name : String) (ty : Ty) : m Unit := do
  set (← (← get).declare name ty)

def declareArguments : List Value → List Value → m Unit
  | .str name :: args, ty :: types => do
    match ty.asMember? Ty with
    | some t => declare name t
    | none => pure ()
    declareArguments args types
  | _ :: args, _ :: types => declareArguments args types
  | _, _ => pure ()

/-! ### Rules for the kinds of node

Each rule takes what checks the nodes below. -/

/-- The operands of a node, checked from left to right. -/
def operands (n : Node) (recurse : n.Smaller → m Node) : m (Node × Node) := do
  let left ← recurse (← n.descend "left")
  let right ← recurse (← n.descend "right")
  pure (left, right)

/-- The common type of the operands is the type of the operation, whole numbers in the place of truth values
    under an arithmetic operator. -/
def binOp (n : Node) (recurse : n.Smaller → m Node) : m Node := do
  let op ← n.getMember BinaryOp "op"
  let (left, right) ← operands n recurse
  let leftType ← carriedType left
  let rightType ← carriedType right
  let target ←
    if leftType = rightType then pure (if leftType = .bool ∧ op.isArithmetic then .int else leftType)
    else promote (Enumerated.name op) leftType rightType
  if leftType = rightType ∧ target = leftType then
    n.update [("left", .node left), ("right", .node right), ("type", .ofMember target)]
  else
    let left ← ensure left target
    let right ← ensure right target
    n.update [("left", .node left), ("right", .node right), ("type", .ofMember target)]

/-- Operands of one type are compared as they are; the outcome is a truth value. -/
def cmpOp (n : Node) (recurse : n.Smaller → m Node) : m Node := do
  let op ← n.getMember Comparison "op"
  let (left, right) ← operands n recurse
  let leftType ← carriedType left
  let rightType ← carriedType right
  if leftType = rightType then
    n.update [("left", .node left), ("right", .node right), ("type", .ofMember Ty.bool)]
  else
    let target ← promote (Enumerated.name op) leftType rightType
    let left ← ensure left target
    let right ← ensure right target
    n.update [("left", .node left), ("right", .node right), ("type", .ofMember Ty.bool)]

/-- The operand of an operator: a negated truth value counts as a whole number, and what is complemented counts as
    a truth value. -/
def unaryOperand (op : UnaryOp) (e : Node) : BuildM Node := do
  match op with
  | .neg =>
    let found ← carriedType e
    if found = .bool then ensure e .int else pure e
  | .not => ensure e .bool

/-- An operator applied to one operand has the type of the operand. -/
def unOp (n : Node) (recurse : n.Smaller → m Node) : m Node := do
  let op ← n.getMember UnaryOp "op"
  let e ← recurse (← n.descend "e")
  let e ← unaryOperand op e
  let result ← carriedType e
  n.update [("e", .node e), ("type", .ofMember result)]

/-- The checked index of a reference, if it has one. -/
def checkedIndex (n : Node) (recurse : n.Smaller → m Node) : m (Option Node) := do
  match ← n.descend? "index" with
  | none => pure none
  | some index =>
    let index ← recurse index
    let found ← carriedType index
    if found = .int then pure (some index) else throw (.typing (.nonIntIndex found))

/-- The type of what a reference to a name of the declared type reads. -/
def referenceType (declared : Ty) (indexed : Bool) : Except Error Ty :=
  if indexed then
    if declared.isArray then pure declared.toScalar else throw (.typing (.notSubscriptable declared))
  else pure declared

/-- A name has its declared type, an element of an array the type of the elements. -/
def ref (n : Node) (recurse : n.Smaller → m Node) : m Node := do
  let name ← n.getStr "name"
  let declared ← lookup name
  let index ← checkedIndex n recurse
  let result ← referenceType declared index.isSome
  n.update [("type", .ofMember result), ("index", .ofOption index)]

/-- A conversion disappears where its operand has the type already. -/
def cast (target : Ty) (n : Node) (recurse : n.Smaller → m Node) : m Node := do
  let e ← recurse (← n.descend "expr")
  ensure e target

/-- The type that an assignment of a value gives to its target: to assign an element is to assign an array. -/
def targetType (valueType : Ty) (indexed : Bool) : Except Error Ty :=
  if indexed then
    match valueType.toArray? with
    | some t => pure t
    | none => throw (.typing (.noArrayType valueType))
  else pure valueType

/-- The value is checked before the target, which it declares; arrays are not assigned as a whole. -/
def assign (n : Node) (recurse : n.Smaller → m Node) : m Node := do
  let val ← recurse (← n.descend "val")
  let valueType ← carriedType val
  if valueType.isArray then throw (.typing (.arrayAssign valueType))
  let target ← n.descend "ref"
  let index ← checkedIndex target.1 fun c => recurse ⟨c.1, Nat.lt_trans c.2 target.2⟩
  let declared ← targetType valueType index.isSome
  declare (← target.1.getStr "name") declared
  let target ← target.1.update [("type", .ofMember declared), ("index", .ofOption index)]
  n.update [("ref", .node target), ("val", .node val)]

/-- A bound of a loop, which has to be a whole number. -/
def loopBound (n : Node) (recurse : n.Smaller → m Node) (field label : String) : m Node := do
  let bound ← recurse (← n.descend field)
  let found ← carriedType bound
  if found = .int then pure bound else throw (.typing (.nonIntBound label found))

/-- The variable of a loop is declared between its bounds and its body. -/
def loop (n : Node) (recurse : n.Smaller → m Node) : m Node := do
  let min ← loopBound n recurse "min" "Lower"
  let max ← loopBound n recurse "max" "Upper"
  declare (← n.getStr "var") .int
  let body ← recurse (← n.descend "body")
  n.update [("min", .node min), ("max", .node max), ("body", .node body)]

end Rules

/-- A return has the type of its value, which has to be the one that the function declares. -/
def ret (returnType : Option Ty) (n : Node) (recurse : n.Smaller → CheckM Node) : CheckM Node := do
  let val ← recurse (← n.descend "val")
  let found ← carriedType val
  if returnType = some found then n.update [("val", .node val), ("type", .ofMember found)]
  else throw (.typing (.returnMismatch returnType found))

/-- The arguments of a function are declared before its body, in which returns have its return type. -/
def funcDef (n : Node) (recurse : Option Ty → n.Smaller → CheckM Node) : CheckM Node := do
  let args := (← n.get "args").items?.getD []
  let types := (← n.get "arg_types").items?.getD []
  if args.length ≠ types.length then
    throw (.typing (.arityMismatch (← n.getStr "name") args.length types.length))
  declareArguments args types
  let returnType ← n.getMember Ty "return_type"
  n.mapSmaller (.classes ["Stmt"]) (recurse (some returnType))

/-! ### Programs -/

/-- The typed form of a statement or an expression, in a function with the given return type if in any. -/
def check (returnType : Option Ty) (n : Node) : CheckM Node :=
  match Kind.of? n with
  | some .binOp => binOp n fun c => check returnType c.1
  | some .cmpOp => cmpOp n fun c => check returnType c.1
  | some .unOp => unOp n fun c => check returnType c.1
  | some .ref => ref n fun c => check returnType c.1
  | some .intConst => n.update [("type", .ofMember Ty.int)]
  | some .floatConst => n.update [("type", .ofMember Ty.float)]
  | some .boolConst => n.update [("type", .ofMember Ty.bool)]
  | some .voidConst => n.update [("type", .ofMember Ty.void)]
  | some .castToInt => cast .int n fun c => check returnType c.1
  | some .castToFloat => cast .float n fun c => check returnType c.1
  | some .castToBool => cast .bool n fun c => check returnType c.1
  | some .assign => assign n fun c => check returnType c.1
  | some .loop => loop n fun c => check returnType c.1
  | some .ret => ret returnType n fun c => check returnType c.1
  | some .funcDef => funcDef n fun returnType c => check returnType c.1
  | some .block | some .branch | none =>
    if n.isA "Stmt" || n.isA "Expr" then
      n.mapSmaller (.classes ["Stmt", "Expr"]) fun c => check returnType c.1
    else throw (.pass (.unknownNode passName n.kind))
termination_by sizeOf n
decreasing_by all_goals exact c.2

structure Typed where
  tree : Node
  symbols : SymbolTable

def analyze (program : Node) : BuildM Typed := do
  let (tree, symbols) ← (check none program).run .empty
  Workspace.note ⟨.debug, s!"{passName}: {symbols.size} symbols declared"⟩
  pure ⟨tree, symbols⟩

end TypedTree.Expr.Typing
