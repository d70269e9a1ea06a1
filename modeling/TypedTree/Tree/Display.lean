import TypedTree.Number.Layout
import TypedTree.Text.Quoted
import TypedTree.Tree.Basic

/-!
Trees as text for readers: `Kind(field=value, …)`, without the fields that have no value.
-/

namespace TypedTree

/-- Doubles are positional from `1e-4` up to below `1e16`, and a half goes up. -/
def displayedNumbers : Layout where
  tie := .up
  leastPositional := -4
  firstScientific := 16
  plus := []
  nan := ['N', 'a', 'N']
  infinity := ['i', 'n', 'f']
  negativeInfinity := ['-', 'i', 'n', 'f']

mutual

def Node.display : Node → String
  | .mk _ v values => v.name ++ "(" ++ ", ".intercalate (displayFields v.fields values) ++ ")"

def Value.display : Value → String
  | .absent => "None"
  | .int i => toString i
  | .float x => String.ofList (displayedNumbers.write x)
  | .bool true => "true"
  | .bool false => "false"
  | .str s => quoted s
  | .enum m => m.member
  | .node n => n.display
  | .list items => "[" ++ ", ".intercalate (displayItems items) ++ "]"
  | .set items => "\x7b" ++ ", ".intercalate (displayItems items) ++ "\x7d"

def displayItems : List Value → List String
  | [] => []
  | v :: vs => v.display :: displayItems vs

def displayFields : List Field → List Value → List String
  | f :: fs, v :: vs =>
    if v.isAbsent then displayFields fs vs else (f.name ++ "=" ++ v.display) :: displayFields fs vs
  | _, _ => []

end

def Node.displayWithId (n : Node) : String := n.display ++ n.id.toLabel

end TypedTree
