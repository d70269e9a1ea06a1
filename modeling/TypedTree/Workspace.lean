import TypedTree.Error

/-!
What building trees and running passes changes outside its result: the supply of identities and the log. Both
survive a failure, so an identity that was given out is never given out again. The log is on at every level, so what
a line says is read whenever it is written.
-/

namespace TypedTree

inductive LogLevel where
  | trace
  | debug
  | info
deriving DecidableEq, Repr

def LogLevel.word : LogLevel → String
  | .trace => "trace"
  | .debug => "debug"
  | .info => "info"

structure LogLine where
  level : LogLevel
  text : String
deriving DecidableEq, Repr

/-- The state that building shares. -/
structure Workspace where
  /-- The identity of the next node. -/
  nextId : NodeId := 0
  /-- The log so far, oldest line first. -/
  log : List LogLine := []
deriving DecidableEq, Repr, Inhabited

/-- Actions on the workspace that may fail; what was done before the failure stays done. -/
abbrev BuildM := ExceptT Error (StateM Workspace)

/-- Actions that change a state where it stands, so that it too survives a failure. -/
abbrev EditM (ε σ : Type) := ExceptT ε (StateT σ (StateM Workspace))

namespace Workspace

def freshId : StateM Workspace NodeId :=
  modifyGet fun w => (w.nextId, { w with nextId := w.nextId + 1 })

def note (line : LogLine) : StateM Workspace Unit :=
  modify fun w => { w with log := w.log ++ [line] }

/-- Adds lines to the log, first line first. -/
def noteAll (lines : List LogLine) : StateM Workspace Unit :=
  modify fun w => { w with log := w.log ++ lines }

@[simp] theorem run_freshId (w : Workspace) :
    freshId.run w = (w.nextId, { w with nextId := w.nextId + 1 }) := rfl

@[simp] theorem run_note (line : LogLine) (w : Workspace) :
    (note line).run w = ((), { w with log := w.log ++ [line] }) := rfl

@[simp] theorem run_noteAll (lines : List LogLine) (w : Workspace) :
    (noteAll lines).run w = ((), { w with log := w.log ++ lines }) := rfl

end Workspace

end TypedTree
