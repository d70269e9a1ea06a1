import TypedTree.Compile.Pass
import TypedTree.Diagnostic

/-!
A session holds a tree and what passes have made of it. A run takes the passes its goal requires one after the
other. A failure does not end the session: it becomes a diagnostic, marked with the pass that raised it, and ends
the run. Artifacts of earlier runs stay until a later run replaces them.
-/

namespace TypedTree.Compile

/-- A tree, its artifacts, and the diagnostics of all runs so far. -/
structure Session where
  root : Node
  tables : Option Decoder.StateTables := none
  /-- The decoder without dead code. -/
  optimized : Option Node := none
  /-- The typed program with its symbol table. -/
  typed : Option Expr.Typing.Typed := none
  diagnostics : List Diagnostic := []

namespace Session

def symbols (s : Session) : Option Expr.SymbolTable := s.typed.map (·.symbols)

def hasError (s : Session) : Bool := s.diagnostics.any (·.severity == .error)

def hasArtifact (s : Session) : Artifact → Bool
  | .stateTables => s.tables.isSome
  | .optimized => s.optimized.isSome
  | .typed => s.typed.isSome
  | .symbols => s.symbols.isSome

/-! ### Single passes -/

/-- The diagnostic of a root that the pass does not take. -/
def refusal (p : Pass) (root : Node) : Diagnostic :=
  ((Diagnostic.ofError (.pass (.unexpectedNode p.name p.rootLabel root.kind))).inPass p.name).relate root.id "root"

def failure (p : Pass) (e : Error) : Diagnostic := (Diagnostic.ofError e).inPass p.name

/-- Computes the state tables. If that fails there are none, not even from before. -/
def runStateTables (s : Session) : StateM Workspace (Session × List Diagnostic) := do
  match ← (Decoder.StateTables.build s.root).run with
  | .ok tables => pure ({ s with tables := some tables }, [])
  | .error e => pure ({ s with tables := none }, [failure .stateTables e])

/-- Removes dead code, with the state tables there are, which come back only if it succeeds. -/
def runDeadCode (s : Session) : StateM Workspace (Session × List Diagnostic) := do
  match ← (Decoder.Liveness.eliminate s.root s.tables).run with
  | .ok result => pure ({ s with optimized := some result.decoder, tables := some result.tables }, [])
  | .error e => pure ({ s with tables := none }, [failure .deadCode e])

def runTyping (s : Session) : StateM Workspace (Session × List Diagnostic) := do
  match ← (Expr.Typing.analyze s.root).run with
  | .ok typed => pure ({ s with typed := some typed }, [])
  | .error e => pure (s, [failure .typing e])

/-- One pass, if it takes the root; the diagnostics are not yet those of the session. -/
def runPass (s : Session) (p : Pass) : StateM Workspace (Session × List Diagnostic) :=
  if p.accepts s.root then
    match p with
    | .stateTables => s.runStateTables
    | .deadCode => s.runDeadCode
    | .typing => s.runTyping
  else pure (s, [refusal p s.root])

/-! ### Runs -/

structure Report where
  session : Session
  /-- The passes that were run, each with its diagnostics. -/
  completed : List (Pass × List Diagnostic)
  /-- The pass that ended the run. -/
  failing : Option Pass

/-- Runs passes until one raises an error. The log notes every pass that was run when `timed` is set. -/
def runPasses (s : Session) (timed : Bool) : List Pass → StateM Workspace Report
  | [] => pure ⟨s, [], none⟩
  | p :: rest => do
    let (s, raised) ← s.runPass p
    let s := { s with diagnostics := s.diagnostics ++ raised }
    if timed then Workspace.note ⟨.info, s!"{p.name} complete"⟩
    if raised.any (·.severity == .error) then pure ⟨s, [(p, raised)], some p⟩
    else do
      let report ← s.runPasses timed rest
      pure { report with completed := (p, raised) :: report.completed }

def run (s : Session) (goal : Pass) (timed : Bool) : StateM Workspace Report :=
  s.runPasses timed goal.required

end Session

end TypedTree.Compile
