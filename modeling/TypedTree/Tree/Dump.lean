import TypedTree.Digest.Sha256
import TypedTree.Json.Printer
import TypedTree.Tree.Basic

/-!
Trees as JSON, by content alone: an object with the variant under `kind`, then every field that has a value.
Members of enumerations are written as their names. The fingerprint of a tree is the digest of its JSON.
-/

namespace TypedTree

mutual

def Node.toJson : Node → Json
  | .mk _ v values => .obj (("kind", .str v.name) :: jsonFields v.fields values)

/-- The value as JSON; a missing item of a list is `null`. -/
def Value.toJson : Value → Json
  | .absent => .null
  | .int i => .int i
  | .float x => .float x
  | .bool b => .bool b
  | .str s => .str s
  | .enum m => .str m.member
  | .node n => n.toJson
  | .list items => .arr (jsonItems items)
  | .set items => .arr (jsonItems items)

def jsonItems : List Value → List Json
  | [] => []
  | v :: vs => v.toJson :: jsonItems vs

def jsonFields : List Field → List Value → List (String × Json)
  | f :: fs, v :: vs =>
    if v.isAbsent then jsonFields fs vs else (f.name, v.toJson) :: jsonFields fs vs
  | _, _ => []

end

namespace Node

/-- The tree in one line of JSON. Trees of the same content differ in it only by the signs of zeros. -/
def canonicalJson (n : Node) : String := n.toJson.toText

def indentedJson (n : Node) : String := n.toJson.toIndentedText

def fingerprint (n : Node) : String := Sha256.hexDigest n.canonicalJson

end Node

end TypedTree
