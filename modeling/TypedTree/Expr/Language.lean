import TypedTree.Schema.Definition

/-!
The language of expressions and statements: constants, operators, references to names and to elements of arrays,
conversions, assignments, blocks, branches, counted loops, returns and functions. Every expression has room for
its type, which stays empty until the program is typed. A return is an expression as well as a statement.
-/

namespace TypedTree.Expr

inductive Kind where
  | binOp
  | cmpOp
  | unOp
  | ref
  | intConst
  | floatConst
  | boolConst
  | voidConst
  | castToFloat
  | castToInt
  | castToBool
  | assign
  | block
  | branch
  | loop
  | ret
  | funcDef
deriving DecidableEq, Repr

namespace Kind

/-- The kinds in order of declaration. -/
def list : List Kind := [
  .binOp, .cmpOp, .unOp, .ref, .intConst, .floatConst, .boolConst, .voidConst, .castToFloat, .castToInt,
  .castToBool, .assign, .block, .branch, .loop, .ret, .funcDef]

def name : Kind → String
  | .binOp => "BinOp"
  | .cmpOp => "CmpOp"
  | .unOp => "UnOp"
  | .ref => "Ref"
  | .intConst => "IntConst"
  | .floatConst => "FloatConst"
  | .boolConst => "BoolConst"
  | .voidConst => "VoidConst"
  | .castToFloat => "CastToFloat"
  | .castToInt => "CastToInt"
  | .castToBool => "CastToBool"
  | .assign => "Assign"
  | .block => "Block"
  | .branch => "If"
  | .loop => "For"
  | .ret => "Return"
  | .funcDef => "FuncDef"

end Kind

instance : Enumerated Kind where
  label := "expr"
  all := Kind.list
  name := Kind.name
  mem_all k := by cases k <;> decide
  nodup_names := by decide

namespace Kind

/-- Expressions and statements; a return is both. -/
def classes : Kind → List String
  | .assign | .block | .branch | .loop | .funcDef => ["Stmt"]
  | .ret => ["Stmt", "Expr"]
  | .binOp | .cmpOp | .unOp | .ref | .intConst | .floatConst | .boolConst | .voidConst | .castToFloat
  | .castToInt | .castToBool => ["Expr"]

/-- The field for the type of an expression. -/
def typeField : Field := ⟨"type", .optional (.enum Ty)⟩

/-- The fields of the kind; on expressions the last one is for the type. -/
def fields : Kind → List Field
  | .binOp => [⟨"op", .enum BinaryOp⟩, ⟨"left", .node "Expr"⟩, ⟨"right", .node "Expr"⟩, typeField]
  | .cmpOp => [⟨"op", .enum Comparison⟩, ⟨"left", .node "Expr"⟩, ⟨"right", .node "Expr"⟩, typeField]
  | .unOp => [⟨"op", .enum UnaryOp⟩, ⟨"e", .node "Expr"⟩, typeField]
  | .ref => [⟨"name", .str⟩, ⟨"index", .optional (.node "Expr")⟩, typeField]
  | .intConst => [⟨"val", .int⟩, typeField]
  | .floatConst => [⟨"val", .float⟩, typeField]
  | .boolConst => [⟨"val", .bool⟩, typeField]
  | .voidConst => [typeField]
  | .castToFloat | .castToInt | .castToBool => [⟨"expr", .node "Expr"⟩, typeField]
  | .assign => [⟨"ref", .node "Ref"⟩, ⟨"val", .node "Expr"⟩]
  | .block => [⟨"body", .list (.node "Stmt")⟩]
  | .branch => [⟨"cond", .node "Expr"⟩, ⟨"body", .node "Stmt"⟩, ⟨"else_body", .optional (.node "Stmt")⟩]
  | .loop => [⟨"var", .str⟩, ⟨"min", .node "Expr"⟩, ⟨"max", .node "Expr"⟩, ⟨"body", .node "Stmt"⟩]
  | .ret => [⟨"val", .node "Expr"⟩, typeField]
  | .funcDef => [⟨"name", .str⟩, ⟨"args", .list .str⟩, ⟨"body", .node "Stmt"⟩,
      ⟨"arg_types", .list (.enum Ty)⟩, ⟨"return_type", .enum Ty⟩]

def variant (k : Kind) : Variant := ⟨k.name, k.classes, k.fields⟩

/-- The kind whose variant has the name of the node's variant. -/
def of? (n : Node) : Option Kind := Enumerated.ofName? Kind n.kind

@[simp] theorem name_variant (k : Kind) : k.variant.name = k.name := rfl

theorem of?_mk_variant (id : NodeId) (k : Kind) (values : List Value) : of? (.mk id k.variant values) = some k :=
  Enumerated.ofName?_name k

end Kind

def variants : List Variant := Kind.list.map Kind.variant

def schema : Schema where
  name := "expr"
  variants := variants
  consistent :=
    have hn : Schema.nameFault? [] variants = none := by decide +kernel
    have hc : Schema.classesFault? variants = none := by decide +kernel
    ⟨(Schema.nameFault?_eq_none hn).1, (Schema.nameFault?_eq_none hn).2.2, Schema.classesFault?_eq_none hc⟩

end TypedTree.Expr
