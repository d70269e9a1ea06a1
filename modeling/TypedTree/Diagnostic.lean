import TypedTree.Error
import TypedTree.Json.Printer

/-!
Diagnostics: errors and warnings as they are shown to the user of a pass, in words and as JSON.
-/

namespace TypedTree

inductive Severity where
  | error
  | warning
deriving DecidableEq, Repr

def Severity.word : Severity → String
  | .error => "error"
  | .warning => "warning"

/-- A message with what is known of its circumstances. -/
structure Diagnostic where
  severity : Severity
  message : String
  code : Option String := none
  hint : Option String := none
  /-- The pass that raised it. -/
  pass : Option String := none
  /-- Nodes that give context, each with a label. -/
  related : List (NodeId × String) := []
deriving DecidableEq, Repr

namespace Diagnostic

/-- Adds a node that gives context, after those already there. -/
def relate (d : Diagnostic) (node : NodeId) (label : String) : Diagnostic :=
  { d with related := d.related ++ [(node, label)] }

/-- Says which pass raised the diagnostic. -/
def inPass (d : Diagnostic) (name : String) : Diagnostic := { d with pass := some name }

/-- An error as a diagnostic; the node it is about, if it names one, is related. -/
def ofError (e : Error) : Diagnostic where
  severity := .error
  message := e.message
  code := some e.code
  hint := e.hint?
  related := match e with
    | .metadata (.notSet _ node) => [(node, "queried node")]
    | .pass (.startNotInStates dfa) => [(dfa, "automaton")]
    | _ => []

/-- The diagnostic in words, its hint on a line of its own. -/
def toText (d : Diagnostic) : String :=
  let code := match d.code with
    | some c => "[" ++ c ++ "]"
    | none => ""
  let hint := match d.hint with
    | some h => "\n  hint: " ++ h
    | none => ""
  d.severity.word ++ code ++ ": " ++ d.message ++ hint

/-- The diagnostic as a JSON object; what is not known is `null`. -/
def toJson (d : Diagnostic) : Json :=
  let opt (s : Option String) : Json := s.elim .null .str
  .obj [("code", opt d.code), ("level", .str d.severity.word), ("message", .str d.message), ("hint", opt d.hint),
    ("pass", opt d.pass),
    ("related_nodes", .arr (d.related.map fun (node, label) => .arr [.int (node : Nat), .str label]))]

end Diagnostic

end TypedTree
