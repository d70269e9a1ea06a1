import TypedTree.Compile.InPlace
import TypedTree.Proofs.Compile.History

/-! Compilations in place against sessions. A session stands for the compilation with its tree, its artifacts and its
    diagnostics, a typed program with its symbols as two artifacts and the mark of a failure read off the diagnostics.
    Run in place, from there, a plan ends as the run of the session does, and the caller is told what the run reports. -/

namespace TypedTree.Compile

namespace Session

/-- The compilation that the session stands for, when the caller was told so much. -/
def inPlace (s : Session) (told : List (Pass × List Diagnostic)) : Compilation where
  root := s.root
  tables := s.tables
  optimized := s.optimized
  typed := s.typed.map (·.tree)
  symbols := s.symbols
  diagnostics := s.diagnostics
  hasError := s.hasError
  told := told

theorem hasArtifact_inPlace (s : Session) (told : List (Pass × List Diagnostic)) (a : Artifact) :
    (s.inPlace told).hasArtifact a = s.hasArtifact a := by
  cases a with
  | typed => exact Option.isSome_map
  | _ => rfl

theorem hasError_record (s : Session) (raised : List Diagnostic) :
    (s.record raised).hasError = (s.hasError || raised.any (·.severity == .error)) := List.any_append

end Session

namespace Session.Report

/-- How the run ended for its caller. -/
def outcome (r : Session.Report) : Except Pass Unit :=
  match r.failing with
  | none => .ok ()
  | some p => .error p

end Session.Report

namespace InPlace
open Session
variable {s s' : Session} {told : List (Pass × List Diagnostic)} {p : Pass} {raised : List Diagnostic} {w w' : Workspace}

/-- A pass that takes the root does in place what it does to the session. -/
theorem edited_runPass (haccepts : p.accepts s.root = true) (h : (s.runPass p).run w = ((s', raised), w')) :
    edited (runPass p) (s.inPlace told) w = ((.ok raised, s'.inPlace told), w') := by
  cases step_of_runPass h with
  | refused hno => exact absurd haccepts (by simp [hno])
  | tabled _ hb | untabled _ hb =>
    rw [runPass, runStateTables]
    simp only [edited_bind, edited_get, edited_liftM_run, edited_modify, edited_pure, inPlace, hb]
    rfl
  | optimized _ hb | unoptimized _ hb =>
    rw [runPass, runDeadCode]
    simp only [edited_bind, edited_get, edited_liftM_run, edited_modify, edited_pure, inPlace, hb]
    rfl
  | typed _ hb | untyped _ hb =>
    rw [runPass, runTyping]
    simp only [edited_bind, edited_get, edited_liftM_run, edited_modify, edited_pure, inPlace, hb]
    rfl

theorem edited_finish (s : Session) (told : List (Pass × List Diagnostic)) (p : Pass) (raised : List Diagnostic)
    (timed : Bool) (w : Workspace) :
    edited (finish p raised timed) (s.inPlace told) w =
      ((if raised.any (·.severity == .error) then .error p else .ok (), (s.record raised).inPlace (told ++ [(p, raised)])),
        noted timed p w) := by
  have hmark := hasError_record s raised
  have hend : edited (finish p raised timed) (s.inPlace told) w = edited
      (if raised.any (·.severity == .error) then do
        modify fun c => { c with hasError := true }
        throw p
      else pure ())
      { s.inPlace told with told := told ++ [(p, raised)], diagnostics := s.diagnostics ++ raised }
      (noted timed p w) := by
    cases timed <;> rfl
  rw [hend]
  cases hraised : raised.any (·.severity == .error) with
  | true =>
    rw [hraised, Bool.or_true] at hmark
    simp only [if_true, edited_bind, edited_modify, edited_throw, inPlace, hmark]
    rfl
  | false =>
    rw [hraised, Bool.or_false] at hmark
    simp only [Bool.false_eq_true, if_false, edited_pure, inPlace, hmark]
    rfl

/-- A plan ends in place as the session's run does, and its caller is told what that run reports. -/
theorem edited_runPasses (timed : Bool) (ps : List Pass) (s : Session) (told : List (Pass × List Diagnostic))
    (w : Workspace) {r : Report} (h : (s.runPasses timed ps).run w = (r, w')) :
    edited (runPasses timed ps) (s.inPlace told) w = ((r.outcome, r.session.inPlace (told ++ r.completed)), w') := by
  induction ps generalizing s told w r with
  | nil =>
    cases h
    rw [List.append_nil]
    rfl
  | cons p ps ih =>
    rcases hp : (s.runPass p).run w with ⟨⟨s₁, raised⟩, w₁⟩
    rw [run_runPasses_cons hp] at h
    have hfirst : edited (runPasses timed (p :: ps)) (s.inPlace told) w =
        edited (finish p raised timed >>= fun _ => runPasses timed ps) (s₁.inPlace told) w₁ := by
      rw [runPasses, edited_bind, edited_get]
      show edited (if p.accepts s.root then _ else _) (s.inPlace told) w = _
      split
      case isTrue haccepts => rw [edited_bind, edited_runPass haccepts hp]
      case isFalse hno =>
        unfold Session.runPass at hp
        rw [if_neg hno] at hp
        cases hp
        rfl
    rw [hfirst, edited_bind, edited_finish]
    split at h
    case isTrue hraised =>
      cases h
      rw [if_pos hraised]
      rfl
    case isFalse hraised =>
      rcases hrest : ((s₁.record raised).runPasses timed ps).run (noted timed p w₁) with ⟨r', w₂⟩
      rw [hrest] at h
      cases h
      rw [if_neg hraised]
      refine (ih _ _ _ hrest).trans ?_
      rw [List.append_assoc]
      rfl

/-- A run in place ends as the run of the session, with the caller told what that run reports. -/
theorem edited_run (goal : Pass) (timed : Bool) (s : Session) (told : List (Pass × List Diagnostic)) (w : Workspace)
    {r : Report} (h : (s.run goal timed).run w = (r, w')) :
    edited (run goal timed) (s.inPlace told) w = ((r.outcome, r.session.inPlace r.completed), w') :=
  edited_runPasses timed goal.required s [] w h

end InPlace
end TypedTree.Compile
