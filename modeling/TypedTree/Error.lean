import TypedTree.Expr.Ty
import TypedTree.Tree.NodeId

/-!
What can go wrong, by the layer that notices it: building nodes and schemas, using metadata, typing expressions,
and running passes. An error is its cause; the message, the stable code and the hint are functions of it.
-/

namespace TypedTree

/-- A node or a schema breaks its own description. -/
inductive SchemaError where
  | missingField (variant field : String)
  | unknownField (variant field : String)
  | duplicateArgument (variant field : String)
  | fieldType (variant field expected found : String)
  | duplicateVariant (variant : String)
  | duplicateFieldDecl (variant field : String)
  | unknownClass (variant field cls : String)
  | unknownVariant (name : String)
deriving DecidableEq, Repr

/-- Metadata is read or written against its declaration. -/
inductive MetadataError where
  | nodeType (field variant : String)
  | valueType (field expected found : String)
  | notList (field entry : String)
  | readonly (field : String)
  | notSet (field : String) (node : NodeId)
  | duplicate (field : String)
  | undefined (field : String)
deriving DecidableEq, Repr

/-- A program of the expression language has no types. -/
inductive TypingError where
  | redeclared (name : String) (declared found : Ty)
  | undefined (name : String)
  | notSubscriptable (found : Ty)
  | nonIntIndex (found : Ty)
  | nonIntBound (bound : String) (found : Ty)
  | returnMismatch (expected : Option Ty) (found : Ty)
  | operandMismatch (op : String) (left right : Ty)
  | arrayAssign (found : Ty)
  | noArrayType (item : Ty)
  | arityMismatch (name : String) (args types : Nat)
  | untyped (variant : String)
deriving DecidableEq, Repr

/-- A pass meets a tree it has no rule for. -/
inductive PassError where
  | unknownNode (pass variant : String)
  | unexpectedNode (pass expected found : String)
  | startNotInStates (dfa : NodeId)
deriving DecidableEq, Repr

inductive Error where
  | schema (cause : SchemaError)
  | metadata (cause : MetadataError)
  | typing (cause : TypingError)
  | pass (cause : PassError)
deriving DecidableEq, Repr

/-! ### Messages -/

def SchemaError.message : SchemaError → String
  | .missingField variant field => s!"missing value for field `{field}` of `{variant}`"
  | .unknownField variant field => s!"`{variant}` has no field `{field}`"
  | .duplicateArgument variant field => s!"field `{field}` of `{variant}` given more than once"
  | .fieldType variant field expected found =>
    s!"field `{field}` of `{variant}` requires values of type `{expected}` not `{found}`"
  | .duplicateVariant variant => s!"node variant `{variant}` declared more than once"
  | .duplicateFieldDecl variant field => s!"`{variant}` declares field `{field}` more than once"
  | .unknownClass variant field cls => s!"field `{field}` of `{variant}` refers to unknown node class `{cls}`"
  | .unknownVariant name => s!"unknown node variant `{name}`"

def MetadataError.message : MetadataError → String
  | .nodeType field variant => s!"metadata `{field}` not defined on nodes of type `{variant}`"
  | .valueType field expected found => s!"metadata `{field}` needs values of type `{expected}` not `{found}`"
  | .notList field entry => s!"entry type `{entry}` of metadata `{field}` is not a list"
  | .readonly field => s!"trying to write readonly metadata `{field}`"
  | .notSet field node => s!"metadata `{field}` not set on node {node.toLabel}"
  | .duplicate field => s!"metadata field `{field}` already defined"
  | .undefined field => s!"undefined metadata field `{field}`"

def TypingError.message : TypingError → String
  | .redeclared name declared found =>
    s!"cannot redeclare `{name}` ({declared}) with different type `{found}`"
  | .undefined name => s!"name `{name}` is not defined"
  | .notSubscriptable found => s!"`{found}` object is not subscriptable"
  | .nonIntIndex found => s!"array indices must be `Int`, not `{found}`"
  | .nonIntBound bound found => s!"{bound} loop bound needs to be of type `Int`, not `{found}`"
  | .returnMismatch (some expected) found => s!"cannot return `{found}` as `{expected}`"
  | .returnMismatch none found => s!"cannot return `{found}` as `<none>`"
  | .operandMismatch op left right => s!"cannot combine `{left}` and `{right}` in `{op}`"
  | .arrayAssign found => s!"cannot assign arrays (`{found}`)"
  | .noArrayType item => s!"there are no arrays of `{item}`"
  | .arityMismatch name args types => s!"function `{name}` has {args} arguments but {types} argument types"
  | .untyped variant => s!"`{variant}` node carries no type"

def PassError.message : PassError → String
  | .unknownNode pass variant => s!"{pass}: unhandled node `{variant}`"
  | .unexpectedNode pass expected found => s!"{pass}: expected `{expected}`, found `{found}`"
  | .startNotInStates dfa => s!"start state of DFA {dfa.toLabel} is not one of its states"

def Error.message : Error → String
  | .schema cause => cause.message
  | .metadata cause => cause.message
  | .typing cause => cause.message
  | .pass cause => cause.message

/-! ### Codes -/

/-- The stable code of a cause: a group of one hundred for each layer. -/
def Error.code : Error → String
  | .schema (.missingField ..) => "E0101"
  | .schema (.unknownField ..) => "E0102"
  | .schema (.duplicateArgument ..) => "E0103"
  | .schema (.fieldType ..) => "E0104"
  | .schema (.duplicateVariant ..) => "E0105"
  | .schema (.duplicateFieldDecl ..) => "E0106"
  | .schema (.unknownClass ..) => "E0107"
  | .schema (.unknownVariant ..) => "E0108"
  | .metadata (.nodeType ..) => "E0201"
  | .metadata (.valueType ..) => "E0202"
  | .metadata (.notList ..) => "E0203"
  | .metadata (.readonly ..) => "E0204"
  | .metadata (.notSet ..) => "E0205"
  | .metadata (.duplicate ..) => "E0206"
  | .metadata (.undefined ..) => "E0207"
  | .typing (.redeclared ..) => "E0301"
  | .typing (.undefined ..) => "E0302"
  | .typing (.notSubscriptable ..) => "E0303"
  | .typing (.nonIntIndex ..) => "E0304"
  | .typing (.nonIntBound ..) => "E0305"
  | .typing (.returnMismatch ..) => "E0306"
  | .typing (.operandMismatch ..) => "E0307"
  | .typing (.arrayAssign ..) => "E0308"
  | .typing (.noArrayType ..) => "E0309"
  | .typing (.arityMismatch ..) => "E0310"
  | .typing (.untyped ..) => "E0311"
  | .pass (.unknownNode ..) => "E0401"
  | .pass (.unexpectedNode ..) => "E0402"
  | .pass (.startNotInStates ..) => "E0403"

/-! ### Hints -/

/-- What to do about the error, where there is one obvious thing. -/
def Error.hint? : Error → Option String
  | .typing (.redeclared ..) => some "the first assignment fixes a name's type for the whole program"
  | .typing (.notSubscriptable ..) => some "only array-typed names can be indexed"
  | .typing (.nonIntIndex ..) | .typing (.nonIntBound ..) => some "insert an explicit integer cast"
  | .metadata (.readonly ..) => some "metadata is frozen once the pass that computed it has finished"
  | .pass (.unknownNode ..) => some "add an explicit rule for this node variant"
  | _ => none

end TypedTree
