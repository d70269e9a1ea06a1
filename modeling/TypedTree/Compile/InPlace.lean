import TypedTree.Compile.Session

/-!
Compilations in place. Here a run changes the artifacts one after the other where they stand, keeps a mark of any
failure beside the diagnostics, and tells its caller of every pass that is over. That a tree comes with its symbols,
or that the mark agrees with the diagnostics, is then up to the steps of the run.
-/

namespace TypedTree.Compile

/-- A tree, what passes have made of it, and what went wrong. -/
structure Compilation where
  root : Node
  tables : Option Decoder.StateTables := none
  optimized : Option Node := none
  typed : Option Node := none
  symbols : Option Expr.SymbolTable := none
  diagnostics : List Diagnostic := []
  hasError : Bool := false
  /-- What the caller of the latest run was told: the passes in order, each with its diagnostics. -/
  told : List (Pass × List Diagnostic) := []

namespace Compilation

def hasArtifact (c : Compilation) : Artifact → Bool
  | .stateTables => c.tables.isSome
  | .optimized => c.optimized.isSome
  | .typed => c.typed.isSome
  | .symbols => c.symbols.isSome

end Compilation

/-- Actions on a compilation. They fail with the pass that raised an error. -/
abbrev CompileM := EditM Pass Compilation

namespace InPlace

/-- The diagnostics of a pass that ended so. -/
def raised {α : Type} (p : Pass) : Except Error α → List Diagnostic
  | .ok _ => []
  | .error e => [Session.failure p e]

/-! ### Single passes -/

def runStateTables : CompileM (List Diagnostic) := do
  let c ← get
  let result ← ((Decoder.StateTables.build c.root).run : StateM Workspace (Except Error Decoder.StateTables))
  modify fun c => { c with tables := result.toOption }
  pure (raised .stateTables result)

/-- The tables are taken out, and put back with the decoder. -/
def runDeadCode : CompileM (List Diagnostic) := do
  let c ← get
  modify fun c => { c with tables := none }
  let result ← ((Decoder.Liveness.eliminate c.root c.tables).run :
    StateM Workspace (Except Error Decoder.Liveness.Optimized))
  if let .ok r := result then
    modify fun c => { c with optimized := some r.decoder }
    modify fun c => { c with tables := some r.tables }
  pure (raised .deadCode result)

def runTyping : CompileM (List Diagnostic) := do
  let c ← get
  let result ← ((Expr.Typing.analyze c.root).run : StateM Workspace (Except Error Expr.Typing.Typed))
  if let .ok r := result then
    modify fun c => { c with typed := some r.tree }
    modify fun c => { c with symbols := some r.symbols }
  pure (raised .typing result)

def runPass : Pass → CompileM (List Diagnostic)
  | .stateTables => runStateTables
  | .deadCode => runDeadCode
  | .typing => runTyping

/-! ### Runs -/

/-- Tells the caller that a pass is over, and ends the run if it raised an error. -/
def finish (p : Pass) (raised : List Diagnostic) (timed : Bool) : CompileM Unit := do
  modify fun c => { c with told := c.told ++ [(p, raised)] }
  modify fun c => { c with diagnostics := c.diagnostics ++ raised }
  if timed then Workspace.note ⟨.info, s!"{p.name} complete"⟩
  if raised.any (·.severity == .error) then
    modify fun c => { c with hasError := true }
    throw p

/-- The passes one after the other. After a refused root the run would go on, if the refusal did not end it. -/
def runPasses (timed : Bool) : List Pass → CompileM Unit
  | [] => pure ()
  | p :: rest => do
    let c ← get
    if p.accepts c.root then
      let raised ← runPass p
      finish p raised timed
      runPasses timed rest
    else
      finish p [Session.refusal p c.root] timed
      runPasses timed rest

def run (goal : Pass) (timed : Bool) : CompileM Unit := do
  modify fun c => { c with told := [] }
  runPasses timed goal.required

end InPlace

end TypedTree.Compile
