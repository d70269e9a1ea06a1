import TypedTree.Expr.Language
import TypedTree.Tree.Fields

/-!
Builders for the kinds of node of the expression language. They leave the type of an expression empty. A builder
fails only if a node is passed where its class does not belong.
-/

namespace TypedTree.Expr

/-- The type an expression carries, if it carries one. -/
def typeOf (e : Node) : Except Error (Option Ty) := e.getMember? Ty "type"

/-! ### Constants -/

def int (val : Int) : BuildM Node := Kind.intConst.variant.build [("val", .int val)]

def float (val : Binary64) : BuildM Node := Kind.floatConst.variant.build [("val", .float val)]

def bool (val : Bool) : BuildM Node := Kind.boolConst.variant.build [("val", .bool val)]

def void : BuildM Node := Kind.voidConst.variant.build []

/-! ### Operators -/

def binOp (op : BinaryOp) (left right : Node) : BuildM Node :=
  Kind.binOp.variant.build [("op", .ofMember op), ("left", .node left), ("right", .node right)]

def cmpOp (op : Comparison) (left right : Node) : BuildM Node :=
  Kind.cmpOp.variant.build [("op", .ofMember op), ("left", .node left), ("right", .node right)]

def unOp (op : UnaryOp) (e : Node) : BuildM Node :=
  Kind.unOp.variant.build [("op", .ofMember op), ("e", .node e)]

def var (name : String) : BuildM Node := Kind.ref.variant.build [("name", .str name)]

def index (name : String) (index : Node) : BuildM Node :=
  Kind.ref.variant.build [("name", .str name), ("index", .node index)]

def castToInt (e : Node) : BuildM Node := Kind.castToInt.variant.build [("expr", .node e)]

def castToFloat (e : Node) : BuildM Node := Kind.castToFloat.variant.build [("expr", .node e)]

def castToBool (e : Node) : BuildM Node := Kind.castToBool.variant.build [("expr", .node e)]

/-! ### Statements -/

def assign (target val : Node) : BuildM Node :=
  Kind.assign.variant.build [("ref", .node target), ("val", .node val)]

def block (body : List Node) : BuildM Node := Kind.block.variant.build [("body", .nodeList body)]

def branch (cond body : Node) (elseBody : Option Node) : BuildM Node :=
  Kind.branch.variant.build [("cond", .node cond), ("body", .node body), ("else_body", .ofOption elseBody)]

def loop (var : String) (min max body : Node) : BuildM Node :=
  Kind.loop.variant.build [("var", .str var), ("min", .node min), ("max", .node max), ("body", .node body)]

def ret (val : Node) : BuildM Node := Kind.ret.variant.build [("val", .node val)]

def funcDef (name : String) (args : List (String × Ty)) (returnType : Ty) (body : Node) : BuildM Node :=
  Kind.funcDef.variant.build [("name", .str name), ("args", .list (args.map fun a => .str a.1)),
    ("body", .node body), ("arg_types", .list (args.map fun a => .ofMember a.2)),
    ("return_type", .ofMember returnType)]

end TypedTree.Expr
