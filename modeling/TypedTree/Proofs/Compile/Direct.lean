import TypedTree.Proofs.Compile.History
import TypedTree.Proofs.Decoder.Writing
import TypedTree.Proofs.Expr.StaleTypes

/-! Runs and direct calls. What a run from a tree gives and what the functions behind its passes give, called one at a
    time on the same tree, differ in nothing but the identities of new nodes. Main statement: a run from a tree that
    its goal takes ends as the direct call does, with the same artifacts, or with the error of the call as its only
    diagnostic. -/

namespace TypedTree

/-! ### Calls in two workspaces -/

/-- Two typings of one program are written the same and declare the same names, or fail in the same way. -/
theorem Expr.analyze_sameText {n : Node} (hn : n.BuiltFrom Expr.variants) (w v : Workspace) :
    Agrees (fun a b => a.tree.SameText b.tree ∧ a.symbols = b.symbols) (built (Expr.Typing.analyze n) w).1
      (built (Expr.Typing.analyze n) v).1 := by
  obtain ⟨t, ht⟩ := exists_spells n hn
  exact analyze_agree hn hn ht ht rfl w v

namespace Compile
open Decoder (StateTables)
open Decoder.Liveness (eliminate exists_eliminate_none_iff receiver receiver_builtFrom)
open Expr.Typing (analyze)

/-! ### Roots -/

/-- The variants of the language that the pass is for. -/
def Pass.variants : Pass → List Variant
  | .stateTables | .deadCode => Decoder.variants
  | .typing => Expr.variants

/-- A pass takes no root of the other language. -/
theorem Pass.builtFrom_of_accepts {p : Pass} {root : Node}
    (hroot : root.BuiltFrom Decoder.variants ∨ root.BuiltFrom Expr.variants) (h : p.accepts root = true) :
    root.BuiltFrom p.variants := by
  have foreign : (∀ v ∈ Decoder.variants, Pass.typing.roots.any v.isA = false) ∧
      ∀ v ∈ Expr.variants, Pass.stateTables.roots.any v.isA = false ∧ Pass.deadCode.roots.any v.isA = false := by
    decide
  have hany : p.roots.any root.variant.isA = true := h
  rcases hroot with hroot | hroot
  · have := foreign.1 root.variant hroot.variant_mem
    cases p with
    | stateTables | deadCode => exact hroot
    | typing => rw [this] at hany; cases hany
  · obtain ⟨h₁, h₂⟩ := foreign.2 root.variant hroot.variant_mem
    cases p with
    | stateTables => rw [h₁] at hany; cases hany
    | deadCode => rw [h₂] at hany; cases hany
    | typing => exact hroot

/-! ### Runs from a tree -/

/-- The run ended as the call: with what the call gave, or in the pass with the error of the call, which is the only
    diagnostic. -/
def Session.Report.EndsAs {α : Type} (r : Session.Report) (p : Pass) (given : α → Prop) : Except Error α → Prop
  | .ok a => r.failing = none ∧ r.session.diagnostics = [] ∧ given a
  | .error e => r.failing = some p ∧ r.session.diagnostics = [Session.failure p e]

namespace Session
variable {root : Node} {timed : Bool} {w w' : Workspace} {r : Report}

/-- A run for a goal that needs no other pass is one step. -/
theorem step_of_run {s : Session} {goal : Pass} (hinputs : goal.inputs = [])
    (h : (s.run goal timed).run w = (r, w')) : ∃ s' raised w₁, Step s w goal s' raised w₁ ∧
      r.session = s'.record raised ∧ r.failing = if raised.any (·.severity == .error) then some goal else none := by
  rw [run, required_eq, hinputs, List.nil_append] at h
  rcases hp : (s.runPass goal).run w with ⟨⟨s', raised⟩, w₁⟩
  refine ⟨s', raised, w₁, step_of_runPass hp, ?_⟩
  rw [run_runPasses_cons hp] at h
  split at h
  case isTrue hraised =>
    cases h
    exact ⟨rfl, (if_pos hraised).symm⟩
  case isFalse hraised =>
    cases h
    exact ⟨rfl, (if_neg hraised).symm⟩

theorem run_stateTables_endsAs (haccepts : Pass.stateTables.accepts root = true)
    (h : (({ root } : Session).run .stateTables timed).run w = (r, w')) (v : Workspace) :
    r.EndsAs .stateTables (fun t => r.session.tables = some t) (built (StateTables.build root) v).1 := by
  rw [StateTables.fst_built_build, ← StateTables.fst_built_build root w]
  obtain ⟨s', raised, w₁, hstep, hsession, hfailing⟩ := step_of_run rfl h
  cases hstep with
  | refused hno => exact absurd haccepts (by simp [hno])
  | tabled _ hb =>
    rw [hb, Report.EndsAs, hsession]
    exact ⟨hfailing, rfl, rfl⟩
  | untabled _ hb =>
    rw [hb, Report.EndsAs, hsession]
    exact ⟨hfailing, rfl⟩

theorem run_typing_endsAs (hroot : root.BuiltFrom Expr.variants) (haccepts : Pass.typing.accepts root = true)
    (h : (({ root } : Session).run .typing timed).run w = (r, w')) (v : Workspace) :
    r.EndsAs .typing (fun t => (∃ u, r.session.typed = some u ∧ u.tree.canonicalJson = t.tree.canonicalJson) ∧
      r.session.symbols = some t.symbols) (built (analyze root) v).1 := by
  have hsame := Expr.analyze_sameText hroot v w
  obtain ⟨s', raised, w₁, hstep, hsession, hfailing⟩ := step_of_run rfl h
  cases hstep with
  | refused hno => exact absurd haccepts (by simp [hno])
  | typed _ hb =>
    rw [hb] at hsame
    obtain ⟨t, ht, htext, hsymbols⟩ := hsame.ok_inv
    rw [ht, Report.EndsAs, hsession]
    exact ⟨hfailing, rfl, ⟨_, rfl, htext.canonicalJson.symm⟩, congrArg some hsymbols.symm⟩
  | untyped _ hb =>
    rw [hb] at hsame
    rw [hsame.error_inv, Report.EndsAs, hsession]
    exact ⟨hfailing, rfl⟩

theorem variant_of_accepts (hroot : root.BuiltFrom Decoder.variants) (haccepts : Pass.deadCode.accepts root = true) :
    root.variant = Decoder.Kind.decoder.variant := by
  have hdecoder : root.isA "Decoder" = true := by simpa [Pass.accepts, Pass.roots] using haccepts
  exact Decoder.variant_of_isA hroot .decoder hdecoder

/-- With the tables at hand dead code is eliminated, and the tables stay. -/
theorem runPass_deadCode {s : Session} {t : StateTables} (hroot : s.root.BuiltFrom Decoder.variants)
    (haccepts : Pass.deadCode.accepts s.root = true) (ht : s.tables = some t) (w : Workspace) :
    ∃ d w', built (eliminate s.root (some t)) w = (.ok ⟨d, t⟩, w') ∧
      (s.runPass .deadCode).run w = (({ s with optimized := some d, tables := some t }, []), w') := by
  obtain ⟨d, -, w', hrun, -⟩ := Decoder.Liveness.eliminate_some hroot (variant_of_accepts hroot haccepts) t w
  refine ⟨d, w', hrun, ?_⟩
  rw [runPass, if_pos haccepts]
  show (s.runDeadCode).run w = _
  rw [runDeadCode, run_bind_run, ht, hrun]
  rfl

/-- The elimination itself does not fail: it is the tables that cannot be computed for every decoder. -/
theorem run_deadCode_endsAs (hroot : root.BuiltFrom Decoder.variants) (haccepts : Pass.deadCode.accepts root = true)
    (h : (({ root } : Session).run .deadCode timed).run w = (r, w')) (v : Workspace) :
    r.EndsAs .stateTables (fun o => (∃ d, r.session.optimized = some d ∧ d.canonicalJson = o.decoder.canonicalJson) ∧
      ∃ t, r.session.tables = some t ∧ (built (StateTables.build root) v).1 = .ok t) (built (eliminate root none) v).1 := by
  have hkind := Decoder.Kind.of?_of_variant (variant_of_accepts hroot haccepts)
  have htables : (built (StateTables.build root) v).1 = (built (StateTables.build root) w).1 := by
    rw [StateTables.fst_built_build, ← StateTables.fst_built_build root w]
  rw [run, required_eq] at h
  rcases hp : (({ root } : Session).runPass .stateTables).run w with ⟨⟨s₁, raised⟩, w₁⟩
  rcases hv : built (StateTables.build root) v with ⟨direct, v₁⟩
  rw [hv] at htables
  rw [Pass.inputs, List.singleton_append, run_runPasses_cons hp] at h
  rw [Decoder.Liveness.eliminate_none hkind, built_bind, hv]
  cases step_of_runPass hp with
  | refused hno => exact absurd (accepts_stateTables_of_deadCode haccepts) (by simp [hno])
  | untabled _ hb =>
    cases h
    rw [hb] at htables
    cases htables
    exact ⟨rfl, rfl⟩
  | @tabled t _ _ hb =>
    rw [hb] at htables
    cases htables
    obtain ⟨d, _, hgiven, hpass⟩ := runPass_deadCode (s := ({ root, tables := some t } : Session).record []) hroot haccepts
      rfl (noted timed .stateTables w₁)
    obtain ⟨d', v₂, hdirect, -⟩ := runPass_deadCode (s := { root, tables := some t }) hroot haccepts rfl v₁
    rw [if_neg (by simp), run_runPasses_cons hpass] at h
    cases h
    show Report.EndsAs _ _ _ (built (eliminate root (some t)) v₁).1
    rw [hdirect]
    exact ⟨rfl, rfl, ⟨d, rfl, (Decoder.Liveness.eliminate_sameText hroot hgiven hdirect).canonicalJson⟩, t, rfl, rfl⟩

/-- The run ended as the call that gives what the goal is for. State tables are those that are computed for the root,
    and new nodes are written as those of the call. -/
def Report.MatchesCall (root : Node) (v : Workspace) (r : Report) : Pass → Prop
  | .stateTables => r.EndsAs .stateTables (fun t => r.session.tables = some t) (built (StateTables.build root) v).1
  | .deadCode => r.EndsAs .stateTables (fun o =>
      (∃ d, r.session.optimized = some d ∧ d.canonicalJson = o.decoder.canonicalJson) ∧
      ∃ t, r.session.tables = some t ∧ (built (StateTables.build root) v).1 = .ok t) (built (eliminate root none) v).1
  | .typing => r.EndsAs .typing (fun t =>
      (∃ u, r.session.typed = some u ∧ u.tree.canonicalJson = t.tree.canonicalJson) ∧
      r.session.symbols = some t.symbols) (built (analyze root) v).1

/-- A run from a tree that its goal takes ends as the direct call, wherever the two take their identities from. When
    dead code was to be eliminated, a failure is one of the state tables and is marked so. -/
theorem run_matchesCall (hroot : root.BuiltFrom Decoder.variants ∨ root.BuiltFrom Expr.variants) {goal : Pass}
    (haccepts : goal.accepts root = true) (h : (({ root } : Session).run goal timed).run w = (r, w')) (v : Workspace) :
    r.MatchesCall root v goal := by
  have hbuilt := Pass.builtFrom_of_accepts hroot haccepts
  cases goal with
  | stateTables => exact run_stateTables_endsAs haccepts h v
  | deadCode => exact run_deadCode_endsAs hbuilt haccepts h v
  | typing => exact run_typing_endsAs hbuilt haccepts h v

/-- The receiver without dead code, from a run and from a call that takes other identities. -/
theorem run_matchesCall_receiver :
    let run := (({ root := receiver } : Session).run .deadCode false).run
    receiver.BuiltFrom Decoder.variants ∧ Pass.deadCode.accepts receiver = true ∧ (run {}).1.failing = none ∧
      ∃ d o v', (run {}).1.session.optimized = some d ∧ built (eliminate receiver none) { nextId := 40 } = (.ok o, v') ∧
        d.canonicalJson = o.decoder.canonicalJson := by
  intro run
  have haccepts : Pass.deadCode.accepts receiver = true := by decide
  have hends := run_matchesCall (.inl receiver_builtFrom) haccepts (show run {} = _ from rfl) { nextId := 40 }
  obtain ⟨o, v', hcall⟩ := (exists_eliminate_none_iff receiver_builtFrom rfl { nextId := 40 }).mpr (by decide +kernel)
  rw [Report.MatchesCall, hcall] at hends
  obtain ⟨hdone, -, ⟨d, hd, htext⟩, -⟩ := hends
  exact ⟨receiver_builtFrom, haccepts, hdone, d, o, v', hd, hcall, htext⟩

end Session
end Compile
end TypedTree
