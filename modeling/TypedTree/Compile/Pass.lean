import TypedTree.Decoder.Liveness
import TypedTree.Expr.Typing

/-!
The passes and what they need of each other. A plan for a pass lists the passes it depends on before the pass
itself, each once.
-/

namespace TypedTree.Compile

inductive Pass where
  /-- State tables of a decoder or an automaton. -/
  | stateTables
  /-- Removal of the dead code of a decoder. -/
  | deadCode
  /-- Typing of a program. -/
  | typing
deriving DecidableEq, Repr

/-- What passes produce. -/
inductive Artifact where
  | stateTables
  | optimized
  | typed
  | symbols
deriving DecidableEq, Repr

namespace Artifact

def all : List Artifact := [.stateTables, .optimized, .typed, .symbols]

end Artifact

namespace Pass

def all : List Pass := [.stateTables, .deadCode, .typing]

/-- The name under which diagnostics and the log mention the pass. -/
def name : Pass → String
  | .stateTables => Decoder.StateTables.passName
  | .deadCode => Decoder.Liveness.passName
  | .typing => Expr.Typing.passName

/-- The passes whose artifacts the pass uses. -/
def inputs : Pass → List Pass
  | .stateTables => []
  | .deadCode => [.stateTables]
  | .typing => []

/-- The artifacts the pass produces. -/
def outputs : Pass → List Artifact
  | .stateTables => [.stateTables]
  | .deadCode => [.optimized]
  | .typing => [.typed, .symbols]

/-- The classes a root may belong to; one is enough. -/
def roots : Pass → List String
  | .stateTables => ["Decoder", "DFA"]
  | .deadCode => ["Decoder"]
  | .typing => ["Stmt", "Expr"]

/-- The roots in words. -/
def rootLabel : Pass → String
  | .stateTables => "Decoder or DFA"
  | .deadCode => "Decoder"
  | .typing => "Stmt or Expr"

/-- What holds after the pass, in words. -/
def invariants : Pass → String
  | .stateTables => "outgoing/incoming/dfa tables filled and locked"
  | .deadCode => "every action feeds an output, every input is read"
  | .typing => "every expression typed, implicit conversions explicit"

/-- Whether the pass takes a tree with this root. -/
def accepts (p : Pass) (root : Node) : Bool := p.roots.any root.isA

/-- The length of the longest chain of dependencies below a pass. -/
def depth : Pass → Nat
  | .stateTables => 0
  | .deadCode => 1
  | .typing => 0

theorem depth_lt_of_mem_inputs {p q : Pass} (h : q ∈ p.inputs) : q.depth < p.depth := by
  revert h
  cases p <;> cases q <;> decide

/-- Adds a pass to a plan, the passes it depends on before it, unless it is there. -/
def schedule (plan : List Pass) (p : Pass) : List Pass :=
  if p ∈ plan then plan
  else p.inputs.attach.foldl (fun plan q => schedule plan q.1) plan ++ [p]
termination_by p.depth
decreasing_by exact depth_lt_of_mem_inputs q.2

/-- The passes to run for a pass, in the order in which to run them. -/
def required (p : Pass) : List Pass := schedule [] p

end Pass

end TypedTree.Compile
