import TypedTree.Expr.Builders
import TypedTree.Proofs.Tree.Reading

/-! Programs by what they say: terms, without identities and with room for types where nodes have it. `Spells n t`
    says that the tree `n` is written out as the term `t`, field by field. Every tree built from the variants of the
    language spells a term, and what can be asked of such a tree can be asked of its term. -/

namespace TypedTree.Expr

/-- The constants of the language. -/
inductive Constant where
  | int (i : Int)
  | float (x : Binary64)
  | bool (b : Bool)
  | void

/-- The types that a conversion leads to. -/
inductive Conversion where
  | toInt
  | toFloat
  | toBool
deriving DecidableEq

/-- The programs of the language. A target of an assignment is a name, or an element of a named array. -/
inductive Term where
  | binOp (op : BinaryOp) (left right : Term) (type : Option Ty)
  | cmpOp (op : Comparison) (left right : Term) (type : Option Ty)
  | unOp (op : UnaryOp) (e : Term) (type : Option Ty)
  | var (name : String) (type : Option Ty)
  | element (name : String) (index : Term) (type : Option Ty)
  | const (value : Constant) (type : Option Ty)
  | cast (via : Conversion) (e : Term) (type : Option Ty)
  | assign (name : String) (targetType : Option Ty) (val : Term)
  | store (name : String) (index : Term) (targetType : Option Ty) (val : Term)
  | block (body : List Term)
  | branch (cond body : Term)
  | branchElse (cond body elseBody : Term)
  | loop (var : String) (min max body : Term)
  | ret (val : Term) (type : Option Ty)
  | funcDef (name : String) (args : List String) (types : List Ty) (returnType : Ty) (body : Term)

namespace Constant

def kind : Constant → Kind
  | .int _ => .intConst
  | .float _ => .floatConst
  | .bool _ => .boolConst
  | .void => .voidConst

def type : Constant → Ty
  | .int _ => .int
  | .float _ => .float
  | .bool _ => .bool
  | .void => .void

def HeldBy (n : Node) : Constant → Prop
  | .int i => n.get "val" = .ok (.int i)
  | .float x => n.get "val" = .ok (.float x)
  | .bool b => n.get "val" = .ok (.bool b)
  | .void => True

end Constant

namespace Conversion

def kind : Conversion → Kind
  | .toInt => .castToInt
  | .toFloat => .castToFloat
  | .toBool => .castToBool

def target : Conversion → Ty
  | .toInt => .int
  | .toFloat => .float
  | .toBool => .bool

def of? : Ty → Option Conversion
  | .int => some .toInt
  | .float => some .toFloat
  | .bool => some .toBool
  | _ => none

theorem target_of_of? {target : Ty} {via : Conversion} (h : of? target = some via) : via.target = target := by
  cases target <;> cases h <;> rfl

end Conversion

namespace Term

def kind : Term → Kind
  | .binOp .. => .binOp
  | .cmpOp .. => .cmpOp
  | .unOp .. => .unOp
  | .var .. | .element .. => .ref
  | .const c _ => c.kind
  | .cast c _ _ => c.kind
  | .assign .. | .store .. => .assign
  | .block _ => .block
  | .branch .. | .branchElse .. => .branch
  | .loop .. => .loop
  | .ret .. => .ret
  | .funcDef .. => .funcDef

/-- The type written at an expression. -/
def type? : Term → Option Ty
  | .binOp _ _ _ t | .cmpOp _ _ _ t | .unOp _ _ t | .var _ t | .element _ _ t | .const _ t | .cast _ _ t
  | .ret _ t => t
  | .assign .. | .store .. | .block _ | .branch .. | .branchElse .. | .loop .. | .funcDef .. => none

/-- Terms by induction; what a block holds satisfies the statement entry by entry. -/
@[elab_as_elim, induction_eliminator]
theorem induct {P : Term → Prop}
    (binOp : ∀ op left right type, P left → P right → P (.binOp op left right type))
    (cmpOp : ∀ op left right type, P left → P right → P (.cmpOp op left right type))
    (unOp : ∀ op e type, P e → P (.unOp op e type))
    (var : ∀ name type, P (.var name type))
    (element : ∀ name index type, P index → P (.element name index type))
    (const : ∀ value type, P (.const value type))
    (cast : ∀ via e type, P e → P (.cast via e type))
    (assign : ∀ name targetType val, P val → P (.assign name targetType val))
    (store : ∀ name index targetType val, P index → P val → P (.store name index targetType val))
    (block : ∀ body, (∀ t ∈ body, P t) → P (.block body))
    (branch : ∀ cond body, P cond → P body → P (.branch cond body))
    (branchElse : ∀ cond body elseBody, P cond → P body → P elseBody → P (.branchElse cond body elseBody))
    (loop : ∀ var min max body, P min → P max → P body → P (.loop var min max body))
    (ret : ∀ val type, P val → P (.ret val type))
    (funcDef : ∀ name args types returnType body, P body → P (.funcDef name args types returnType body)) :
    ∀ t, P t :=
  go
where
  go : ∀ t, P t
    | .binOp op left right type => binOp op left right type (go left) (go right)
    | .cmpOp op left right type => cmpOp op left right type (go left) (go right)
    | .unOp op e type => unOp op e type (go e)
    | .var name type => var name type
    | .element name index type => element name index type (go index)
    | .const value type => const value type
    | .cast via e type => cast via e type (go e)
    | .assign name targetType val => assign name targetType val (go val)
    | .store name index targetType val => store name index targetType val (go index) (go val)
    | .block body => block body fun t _ => go t
    | .branch cond body => branch cond body (go cond) (go body)
    | .branchElse cond body elseBody => branchElse cond body elseBody (go cond) (go body) (go elseBody)
    | .loop var min max body => loop var min max body (go min) (go max) (go body)
    | .ret val type => ret val type (go val)
    | .funcDef name args types returnType body => funcDef name args types returnType body (go body)

end Term

/-! ### Trees and terms -/

/-- The tree is written out as the term. -/
inductive Spells : Node → Term → Prop
  | binOp {n l r op left right ty} (kind : n.variant = Kind.binOp.variant)
      (readsOp : n.getMember BinaryOp "op" = .ok op) (readsLeft : n.getNode "left" = .ok l)
      (readsRight : n.getNode "right" = .ok r) (readsType : typeOf n = .ok ty)
      (spellsLeft : Spells l left) (spellsRight : Spells r right) : Spells n (.binOp op left right ty)
  | cmpOp {n l r op left right ty} (kind : n.variant = Kind.cmpOp.variant)
      (readsOp : n.getMember Comparison "op" = .ok op) (readsLeft : n.getNode "left" = .ok l)
      (readsRight : n.getNode "right" = .ok r) (readsType : typeOf n = .ok ty)
      (spellsLeft : Spells l left) (spellsRight : Spells r right) : Spells n (.cmpOp op left right ty)
  | unOp {n c op e ty} (kind : n.variant = Kind.unOp.variant) (readsOp : n.getMember UnaryOp "op" = .ok op)
      (readsOperand : n.getNode "e" = .ok c) (readsType : typeOf n = .ok ty)
      (spellsOperand : Spells c e) : Spells n (.unOp op e ty)
  | var {n name ty} (kind : n.variant = Kind.ref.variant) (readsName : n.getStr "name" = .ok name)
      (readsIndex : n.getNode? "index" = .ok none) (readsType : typeOf n = .ok ty) : Spells n (.var name ty)
  | element {n i name index ty} (kind : n.variant = Kind.ref.variant) (readsName : n.getStr "name" = .ok name)
      (readsIndex : n.getNode? "index" = .ok (some i)) (readsType : typeOf n = .ok ty)
      (spellsIndex : Spells i index) : Spells n (.element name index ty)
  | const {n c ty} (kind : n.variant = c.kind.variant) (holds : c.HeldBy n) (readsType : typeOf n = .ok ty) :
      Spells n (.const c ty)
  | cast {n c via e ty} (kind : n.variant = via.kind.variant) (readsOperand : n.getNode "expr" = .ok c)
      (readsType : typeOf n = .ok ty) (spellsOperand : Spells c e) : Spells n (.cast via e ty)
  | assign {n r v name ty val} (kind : n.variant = Kind.assign.variant) (readsTarget : n.getNode "ref" = .ok r)
      (readsValue : n.getNode "val" = .ok v) (targetKind : r.variant = Kind.ref.variant)
      (readsName : r.getStr "name" = .ok name) (readsIndex : r.getNode? "index" = .ok none)
      (readsType : typeOf r = .ok ty) (spellsValue : Spells v val) : Spells n (.assign name ty val)
  | store {n r v i name index ty val} (kind : n.variant = Kind.assign.variant)
      (readsTarget : n.getNode "ref" = .ok r) (readsValue : n.getNode "val" = .ok v)
      (targetKind : r.variant = Kind.ref.variant) (readsName : r.getStr "name" = .ok name)
      (readsIndex : r.getNode? "index" = .ok (some i)) (readsType : typeOf r = .ok ty)
      (spellsIndex : Spells i index) (spellsValue : Spells v val) : Spells n (.store name index ty val)
  | block {n ns body} (kind : n.variant = Kind.block.variant) (readsBody : n.get "body" = .ok (.nodeList ns))
      (sameLength : ns.length = body.length) (spellsBody : ∀ p ∈ ns.zip body, Spells p.1 p.2) :
      Spells n (.block body)
  | branch {n c b cond body} (kind : n.variant = Kind.branch.variant) (readsCond : n.getNode "cond" = .ok c)
      (readsBody : n.getNode "body" = .ok b) (readsElse : n.getNode? "else_body" = .ok none)
      (spellsCond : Spells c cond) (spellsBody : Spells b body) : Spells n (.branch cond body)
  | branchElse {n c b e cond body elseBody} (kind : n.variant = Kind.branch.variant)
      (readsCond : n.getNode "cond" = .ok c) (readsBody : n.getNode "body" = .ok b)
      (readsElse : n.getNode? "else_body" = .ok (some e)) (spellsCond : Spells c cond) (spellsBody : Spells b body)
      (spellsElse : Spells e elseBody) : Spells n (.branchElse cond body elseBody)
  | loop {n l u b var min max body} (kind : n.variant = Kind.loop.variant) (readsVar : n.getStr "var" = .ok var)
      (readsMin : n.getNode "min" = .ok l) (readsMax : n.getNode "max" = .ok u) (readsBody : n.getNode "body" = .ok b)
      (spellsMin : Spells l min) (spellsMax : Spells u max) (spellsBody : Spells b body) :
      Spells n (.loop var min max body)
  | ret {n v val ty} (kind : n.variant = Kind.ret.variant) (readsValue : n.getNode "val" = .ok v)
      (readsType : typeOf n = .ok ty) (spellsValue : Spells v val) : Spells n (.ret val ty)
  | funcDef {n b name args ms types returnType body} (kind : n.variant = Kind.funcDef.variant)
      (readsName : n.getStr "name" = .ok name) (readsArgs : n.get "args" = .ok (.list (args.map .str)))
      (readsTypes : n.get "arg_types" = .ok (.list ms)) (typesOf : ms.map (Value.asMember? Ty) = types.map some)
      (readsReturn : n.getMember Ty "return_type" = .ok returnType) (readsBody : n.getNode "body" = .ok b)
      (spellsBody : Spells b body) : Spells n (.funcDef name args types returnType body)

end TypedTree.Expr
