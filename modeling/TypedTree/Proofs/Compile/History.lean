import TypedTree.Compile.Session
import TypedTree.Proofs.Decoder.Elimination

/-! What a session keeps when a run fails. A pass that fails leaves what it would have produced as it was, but for the
    elimination of dead code: it takes the state tables and gives them back only if it succeeds. -/

namespace TypedTree.Compile
open Decoder (StateTables)
open Decoder.Liveness (Optimized eliminate data step loop)

/-! ### The tables of a tree -/

/-- The tables that are computed for the tree, in whatever workspace. -/
def IsTablesOf (root : Node) (t : StateTables) : Prop := ∀ w, (built (StateTables.build root) w).1 = .ok t

theorem isTablesOf_of_built {root : Node} {t : StateTables} {w w' : Workspace}
    (h : built (StateTables.build root) w = (.ok t, w')) : IsTablesOf root t := fun v => by
  rw [StateTables.fst_built_build, ← StateTables.fst_built_build root w, h]

/-- Elimination that succeeds gives back the tables it was given, and computes them if it was given none. -/
theorem isTablesOf_of_eliminate {root : Node} {tables : Option StateTables} {r : Optimized} {w w' : Workspace}
    (hall : ∀ t, tables = some t → IsTablesOf root t) (h : built (eliminate root tables) w = (.ok r, w')) :
    IsTablesOf root r.tables := by
  obtain ⟨w₁, -, ⟨rfl, -⟩ | ⟨-, hbuild⟩⟩ := Decoder.Liveness.eliminate_inv h
  · exact hall r.tables rfl
  · exact isTablesOf_of_built hbuild

/-! ### Passes -/

namespace Session

/-- What a pass may do to a session, by the state of the workspace before and after. -/
inductive Step (s : Session) (w : Workspace) : Pass → Session → List Diagnostic → Workspace → Prop
  | refused {p : Pass} (h : p.accepts s.root = false) : Step s w p s [refusal p s.root] w
  | tabled {t : StateTables} {w' : Workspace} (h : Pass.stateTables.accepts s.root = true)
      (hb : built (StateTables.build s.root) w = (.ok t, w')) : Step s w .stateTables { s with tables := some t } [] w'
  | untabled {e : Error} {w' : Workspace} (h : Pass.stateTables.accepts s.root = true)
      (hb : built (StateTables.build s.root) w = (.error e, w')) :
      Step s w .stateTables { s with tables := none } [failure .stateTables e] w'
  | optimized {r : Optimized} {w' : Workspace} (h : Pass.deadCode.accepts s.root = true)
      (hb : built (eliminate s.root s.tables) w = (.ok r, w')) :
      Step s w .deadCode { s with optimized := some r.decoder, tables := some r.tables } [] w'
  | unoptimized {e : Error} {w' : Workspace} (h : Pass.deadCode.accepts s.root = true)
      (hb : built (eliminate s.root s.tables) w = (.error e, w')) :
      Step s w .deadCode { s with tables := none } [failure .deadCode e] w'
  | typed {t : Expr.Typing.Typed} {w' : Workspace} (h : Pass.typing.accepts s.root = true)
      (hb : built (Expr.Typing.analyze s.root) w = (.ok t, w')) : Step s w .typing { s with typed := some t } [] w'
  | untyped {e : Error} {w' : Workspace} (h : Pass.typing.accepts s.root = true)
      (hb : built (Expr.Typing.analyze s.root) w = (.error e, w')) : Step s w .typing s [failure .typing e] w'

variable {s s' : Session} {w w' : Workspace} {p : Pass} {raised : List Diagnostic}

theorem run_bind {α β : Type} (x : StateM Workspace α) (f : α → StateM Workspace β) (w : Workspace) :
    (x >>= f).run w = (f (x.run w).1).run (x.run w).2 := rfl

theorem run_bind_run {α β : Type} (x : BuildM α) (f : Except Error α → StateM Workspace β) (w : Workspace) :
    (x.run >>= f).run w = (f (built x w).1).run (built x w).2 := rfl

/-- A pass is refused, or it succeeds or fails in its own way. -/
theorem step_of_runPass (h : (s.runPass p).run w = ((s', raised), w')) : Step s w p s' raised w' := by
  unfold runPass at h
  split at h
  case isFalse hno =>
    cases h
    exact .refused (Bool.eq_false_iff.mpr hno)
  case isTrue hyes =>
    cases p with
    | stateTables =>
      rw [runStateTables, run_bind_run] at h
      rcases hb : built (StateTables.build s.root) w with ⟨_ | t, w₁⟩ <;> rw [hb] at h <;> cases h
      · exact .untabled hyes hb
      · exact .tabled hyes hb
    | deadCode =>
      rw [runDeadCode, run_bind_run] at h
      rcases hb : built (eliminate s.root s.tables) w with ⟨_ | r, w₁⟩ <;> rw [hb] at h <;> cases h
      · exact .unoptimized hyes hb
      · exact .optimized hyes hb
    | typing =>
      rw [runTyping, run_bind_run] at h
      rcases hb : built (Expr.Typing.analyze s.root) w with ⟨_ | t, w₁⟩ <;> rw [hb] at h <;> cases h
      · exact .untyped hyes hb
      · exact .typed hyes hb

/-- The state tables, if there are any, are those of the root. -/
def Tabled (s : Session) : Prop := ∀ t, s.tables = some t → IsTablesOf s.root t

/-- Every artifact is as before, apart from the state tables, which a failing elimination of dead code does not give
    back. -/
structure KeptBy (p : Pass) (s s' : Session) : Prop where
  optimized : s'.optimized = s.optimized
  typed : s'.typed = s.typed
  tables : s'.tables = if p = .deadCode ∧ p.accepts s.root = true then none else s.tables

namespace Step

theorem root (h : Step s w p s' raised w') : s'.root = s.root := by
  cases h <;> rfl

theorem tabled_of_tabled (h : Step s w p s' raised w') (hs : s.Tabled) : s'.Tabled := by
  cases h with
  | refused | typed | untyped => exact hs
  | tabled _ hb =>
    rintro _ ⟨⟩
    exact isTablesOf_of_built hb
  | optimized _ hb =>
    rintro _ ⟨⟩
    exact isTablesOf_of_eliminate hs hb
  | untabled | unoptimized => rintro _ ⟨⟩

/-- Computing the tables fails only if there were none before, for they are computed from the same root. -/
theorem keptBy (h : Step s w p s' raised w') (hs : s.Tabled) (hraised : raised.any (·.severity == .error) = true) :
    KeptBy p s s' := by
  cases h with
  | refused hno => exact ⟨rfl, rfl, by simp [hno]⟩
  | untyped => exact ⟨rfl, rfl, rfl⟩
  | unoptimized hyes => exact ⟨rfl, rfl, by simp [hyes]⟩
  | untabled _ hb =>
    refine ⟨rfl, rfl, ?_⟩
    cases ht : s.tables with
    | none => rfl
    | some t =>
      have hok := hs t ht w
      rw [hb] at hok
      cases hok
  | tabled | optimized | typed => exact absurd hraised Bool.false_ne_true

end Step

/-! ### Runs -/

/-- The session with the diagnostics of a pass. -/
def record (s : Session) (raised : List Diagnostic) : Session := { s with diagnostics := s.diagnostics ++ raised }

/-- The workspace with the note that a pass was run, if runs are timed. -/
def noted (timed : Bool) (p : Pass) (w : Workspace) : Workspace :=
  if timed then { w with log := w.log ++ [⟨.info, s!"{p.name} complete"⟩] } else w

section Runs
variable {timed : Bool} {ps : List Pass} {s₁ : Session} {w₁ : Workspace}

theorem run_runPasses_cons (h : (s.runPass p).run w = ((s₁, raised), w₁)) :
    (s.runPasses timed (p :: ps)).run w =
      if raised.any (·.severity == .error) then (⟨s₁.record raised, [(p, raised)], some p⟩, noted timed p w₁)
      else
        match ((s₁.record raised).runPasses timed ps).run (noted timed p w₁) with
        | (report, w') => ({ report with completed := (p, raised) :: report.completed }, w') := by
  have hrest : (s.runPasses timed (p :: ps)).run w = StateT.run
      (if raised.any (·.severity == .error) then pure ⟨s₁.record raised, [(p, raised)], some p⟩
      else do
        let report ← (s₁.record raised).runPasses timed ps
        pure { report with completed := (p, raised) :: report.completed }) (noted timed p w₁) := by
    rw [runPasses, run_bind, h]
    cases timed <;> rfl
  rw [hrest]
  split <;> rfl

/-- A property of sessions that no pass breaks holds after a run if it holds before. -/
theorem runPasses_keeps {P : Session → Prop}
    (hstep : ∀ {s p s' raised w w'}, Step s w p s' raised w' → P s → P (s'.record raised)) {r : Report}
    (h : (s.runPasses timed ps).run w = (r, w')) (hs : P s) : P r.session := by
  induction ps generalizing s w r with
  | nil =>
    cases h
    exact hs
  | cons p ps ih =>
    rcases hp : (s.runPass p).run w with ⟨⟨s₁, raised⟩, w₁⟩
    have hs₁ := hstep (step_of_runPass hp) hs
    rw [run_runPasses_cons hp] at h
    split at h
    · cases h
      exact hs₁
    · rcases hrest : ((s₁.record raised).runPasses timed ps).run (noted timed p w₁) with ⟨r', w₂⟩
      rw [hrest] at h
      cases h
      exact (ih hrest hs₁ : P r'.session)

/-- A run that fails has run some passes to their end, then the one that failed. -/
theorem runPasses_failing {r : Report} (h : (s.runPasses timed ps).run w = (r, w')) (hp : r.failing = some p) :
    ∃ before after s₁ done w₁, ps = before ++ p :: after ∧
      (s.runPasses timed before).run w = (⟨s₁, done, none⟩, w₁) ∧
      ∃ s₂ raised w₂, Step s₁ w₁ p s₂ raised w₂ ∧ raised.any (·.severity == .error) = true ∧
        r.session = s₂.record raised := by
  induction ps generalizing s w r with
  | nil =>
    cases h
    cases hp
  | cons q ps ih =>
    rcases hq : (s.runPass q).run w with ⟨⟨s₁, raised⟩, w₁⟩
    rw [run_runPasses_cons hq] at h
    split at h
    case isTrue hraised =>
      cases h
      cases hp
      exact ⟨[], ps, s, [], w, rfl, rfl, s₁, raised, w₁, step_of_runPass hq, hraised, rfl⟩
    case isFalse hraised =>
      rcases hrest : ((s₁.record raised).runPasses timed ps).run (noted timed q w₁) with ⟨r', w₂⟩
      rw [hrest] at h
      cases h
      obtain ⟨before, after, s₂, done, w₃, rfl, hrun, hfail⟩ := ih hrest hp
      refine ⟨q :: before, after, s₂, (q, raised) :: done, w₃, rfl, ?_, hfail⟩
      rw [run_runPasses_cons hq, if_neg hraised, hrun]

end Runs

/-! ### Histories -/

/-- The sessions that come from a tree by runs, whether they fail or not. -/
inductive Reached (root : Node) : Session → Prop
  | start : Reached root { root }
  | run {s : Session} {goal : Pass} {timed : Bool} {w w' : Workspace} {r : Report} (hs : Reached root s)
      (h : (s.run goal timed).run w = (r, w')) : Reached root r.session

theorem runPasses_root_tabled {root : Node} {timed : Bool} {ps : List Pass} {r : Report} (hs : s.root = root ∧ s.Tabled)
    (h : (s.runPasses timed ps).run w = (r, w')) : r.session.root = root ∧ r.session.Tabled :=
  runPasses_keeps (P := fun s => s.root = root ∧ s.Tabled)
    (fun hstep hs => ⟨hstep.root.trans hs.1, hstep.tabled_of_tabled hs.2⟩) h hs

theorem Reached.root_tabled {root : Node} (hs : Reached root s) : s.root = root ∧ s.Tabled := by
  induction hs with
  | start => exact ⟨rfl, by rintro _ ⟨⟩⟩
  | run _ h ih => exact runPasses_root_tabled ih h

theorem accepts_stateTables_of_deadCode {root : Node} (h : Pass.deadCode.accepts root = true) :
    Pass.stateTables.accepts root = true := by
  have hroot : root.isA "Decoder" = true := by simpa [Pass.accepts, Pass.roots] using h
  simp [Pass.accepts, Pass.roots, hroot]

/-- A plan needs no more than the inputs of its goal, which have no inputs themselves. -/
theorem required_eq (p : Pass) : p.required = p.inputs ++ [p] := by
  cases p <;> decide +kernel

/-- The tables are computed before dead code is eliminated. -/
theorem before_deadCode {goal : Pass} {before after : List Pass} (h : goal.required = before ++ .deadCode :: after) :
    before = [.stateTables] := by
  rw [required_eq] at h
  have hgoal : goal = .deadCode := by
    have hmem : Pass.deadCode ∈ goal.inputs ++ [goal] := h ▸ by simp
    revert hmem
    cases goal <;> decide
  subst hgoal
  match before, h with
  | [_], h =>
    cases h
    rfl
  | _ :: _ :: _, h => simp [Pass.inputs] at h

theorem isSome_tables_of_runPasses {timed : Bool} {s₁ : Session} {done : List (Pass × List Diagnostic)} {w₁ : Workspace}
    (h : (s.runPasses timed [.stateTables]).run w = (⟨s₁, done, none⟩, w₁))
    (haccepts : Pass.stateTables.accepts s.root = true) : s₁.tables.isSome = true := by
  rcases hp : (s.runPass .stateTables).run w with ⟨⟨s₂, raised⟩, w₂⟩
  rw [run_runPasses_cons hp] at h
  cases step_of_runPass hp with
  | refused hno => exact absurd haccepts (by simp [hno])
  | tabled => cases h; rfl
  | untabled => cases h

/-- A run that fails leaves every artifact that was there when the failing pass started, with one exception: when the
    elimination of dead code fails on a decoder, the state tables, which are always there by then, are gone. -/
theorem run_failing {root : Node} (hs : Reached root s) {goal : Pass} {timed : Bool} {r : Report}
    (h : (s.run goal timed).run w = (r, w')) (hp : r.failing = some p) :
    ∃ before after s₁ done w₁, goal.required = before ++ p :: after ∧
      (s.runPasses timed before).run w = (⟨s₁, done, none⟩, w₁) ∧
      r.session.optimized = s₁.optimized ∧ r.session.typed = s₁.typed ∧ r.session.symbols = s₁.symbols ∧
      if p = .deadCode ∧ p.accepts root = true then s₁.tables.isSome = true ∧ r.session.tables = none
      else r.session.tables = s₁.tables := by
  obtain ⟨before, after, s₁, done, w₁, hplan, hrun, s₂, raised, w₂, hstep, hraised, hsession⟩ := runPasses_failing h hp
  obtain ⟨hroot₁, htabled₁⟩ := runPasses_root_tabled hs.root_tabled hrun
  have hkept := hstep.keptBy htabled₁ hraised
  refine ⟨before, after, s₁, done, w₁, hplan, hrun, ?_, ?_, ?_, ?_⟩
  · rw [hsession]
    exact hkept.optimized
  · rw [hsession]
    exact hkept.typed
  · rw [hsession]
    exact congrArg (Option.map _) hkept.typed
  · have htables : r.session.tables = if p = .deadCode ∧ p.accepts root = true then none else s₁.tables := by
      rw [hsession, ← hroot₁]
      exact hkept.tables
    split
    case isTrue hc =>
      obtain ⟨rfl, haccepts⟩ := hc
      cases before_deadCode hplan
      rw [if_pos ⟨rfl, haccepts⟩] at htables
      exact ⟨isSome_tables_of_runPasses hrun (accepts_stateTables_of_deadCode (hs.root_tabled.1 ▸ haccepts)), htables⟩
    case isFalse hc => rwa [if_neg hc] at htables

/-- The elimination of dead code refuses a lone automaton. The tables that were computed for it are still there. -/
theorem run_failing_clock :
    let run := (Session.mk Decoder.StateTables.clock none none none []).run .deadCode false
    (run {}).1.failing = some .deadCode ∧ (run {}).1.session.tables.isSome = true := by
  intro run
  have hp : (run {}).1.failing = some .deadCode := by decide +kernel
  obtain ⟨before, after, s₁, done, w₁, hplan, hrun, -, -, -, htables⟩ := run_failing .start (w := {}) rfl hp
  cases before_deadCode hplan
  rw [if_neg (by decide)] at htables
  exact ⟨hp, htables ▸ isSome_tables_of_runPasses hrun (by decide)⟩

/-- An action of a kind that the language of decoders does not have. -/
def latch : Node := .mk 14 ⟨"Latch", ["Action"], [⟨"token", .node "Token"⟩]⟩ [.node data]

def latched : Node :=
  .mk 17 Decoder.Kind.decoder.variant [.nodeList [], .nodeList [data], .nodeList [loop 16 (step 15 [latch])], .absent,
    .absent]

/-- The elimination of dead code fails on the unknown action, and the tables that were there when it started are gone. -/
theorem run_failing_latched :
    let start : Session := { root := latched }
    Reached latched start ∧ Pass.deadCode.required = [.stateTables] ++ [.deadCode] ∧
      (start.runPasses false [.stateTables] {}).1.failing = none ∧
      (start.runPasses false [.stateTables] {}).1.session.hasArtifact .stateTables = true ∧
      (start.run .deadCode false {}).1.failing = some .deadCode ∧
      (start.run .deadCode false {}).1.session.hasArtifact .stateTables = false := by
  refine ⟨.start, required_eq _, ?_, ?_, ?_, ?_⟩ <;> decide +kernel

end Session

end TypedTree.Compile
