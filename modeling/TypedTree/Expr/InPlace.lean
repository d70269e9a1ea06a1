import TypedTree.Expr.Typing

/-!
Typing in place. Here one checker goes through the program with the table of symbols and the return type of the
function it is in, and changes both where they stand. That a return is held against its own function, and that what
follows a function is not taken to be inside of it, is then up to the steps: a function puts its return type in the
place of the one around it, and that one back in the end, even if its body fails.
-/

namespace TypedTree.Expr.Typing

/-- What typing changes on its way. -/
structure Checker where
  symbols : SymbolTable := .empty
  /-- The return type that the function around declares, if there is one. -/
  returnType : Option Ty := none

/-- Actions on a checker. -/
abbrev CheckerM := EditM Error Checker

namespace InPlace

instance : MonadStateOf SymbolTable CheckerM where
  get := Checker.symbols <$> getThe Checker
  set symbols := modifyThe Checker fun c => { c with symbols := symbols }
  modifyGet f := modifyGetThe Checker fun c => ((f c.symbols).1, { c with symbols := (f c.symbols).2 })

instance : MonadLift BuildM CheckerM where
  monadLift x := ExceptT.mk (liftM (m := StateM Workspace) x.run)

/-! ### Functions and returns -/

/-- Puts a return type in the place of the one that stands, and gives that one back. -/
def replaceReturnType (returnType : Option Ty) : CheckerM (Option Ty) :=
  modifyGetThe Checker fun c => (c.returnType, { c with returnType := returnType })

/-- Works in a function that declares the return type. A failure of the work is kept as a value until the return type
    of the function around is back in its place. -/
def inFunction {α : Type} (returnType : Ty) (work : CheckerM α) : CheckerM α := do
  let enclosing ← replaceReturnType (some returnType)
  let outcome ← observing work
  let _ ← replaceReturnType enclosing
  outcome

/-- The value is checked before the return type is looked at. -/
def ret (n : Node) (recurse : n.Smaller → CheckerM Node) : CheckerM Node := do
  let val ← recurse (← n.descend "val")
  let found ← carriedType val
  let returnType := (← getThe Checker).returnType
  if returnType = some found then n.update [("val", .node val), ("type", .ofMember found)]
  else throw (.typing (.returnMismatch returnType found))

/-- The arguments of a function are declared before its body, in which returns have its return type. -/
def funcDef (n : Node) (recurse : n.Smaller → CheckerM Node) : CheckerM Node := do
  let args := (← n.get "args").items?.getD []
  let types := (← n.get "arg_types").items?.getD []
  if args.length ≠ types.length then
    throw (.typing (.arityMismatch (← n.getStr "name") args.length types.length))
  declareArguments args types
  let returnType ← n.getMember Ty "return_type"
  inFunction returnType (n.mapSmaller (.classes ["Stmt"]) recurse)

/-! ### Programs -/

/-- The typed form of a statement or an expression. -/
def check (n : Node) : CheckerM Node :=
  match Kind.of? n with
  | some .binOp => binOp n fun c => check c.1
  | some .cmpOp => cmpOp n fun c => check c.1
  | some .unOp => unOp n fun c => check c.1
  | some .ref => ref n fun c => check c.1
  | some .intConst => n.update [("type", .ofMember Ty.int)]
  | some .floatConst => n.update [("type", .ofMember Ty.float)]
  | some .boolConst => n.update [("type", .ofMember Ty.bool)]
  | some .voidConst => n.update [("type", .ofMember Ty.void)]
  | some .castToInt => cast .int n fun c => check c.1
  | some .castToFloat => cast .float n fun c => check c.1
  | some .castToBool => cast .bool n fun c => check c.1
  | some .assign => assign n fun c => check c.1
  | some .loop => loop n fun c => check c.1
  | some .ret => ret n fun c => check c.1
  | some .funcDef => funcDef n fun c => check c.1
  | some .block | some .branch | none =>
    if n.isA "Stmt" || n.isA "Expr" then
      n.mapSmaller (.classes ["Stmt", "Expr"]) fun c => check c.1
    else throw (.pass (.unknownNode passName n.kind))
termination_by sizeOf n
decreasing_by all_goals exact c.2

/-- A new checker goes through the program, and its symbols are handed over with the tree. -/
def analyze (program : Node) : BuildM Typed := do
  let (tree, checker) ← ((check program).run.run {} : StateM Workspace (Except Error Node × Checker))
  let tree ← tree
  Workspace.note ⟨.debug, s!"{passName}: {checker.symbols.size} symbols declared"⟩
  pure ⟨tree, checker.symbols⟩

end InPlace

end TypedTree.Expr.Typing
