import TypedTree.Proofs.Compile.InPlace

/-! Sequences of calls. What one pass does is followed through a run and from there through every sequence of runs on
    one compilation. Main statement: the diagnostics are those of the calls that failed, one for each, and every call
    told its caller the passes that were run; no result is lost, and a call that succeeds leaves all that it is for. -/

namespace TypedTree.Compile

namespace Session
variable {s s' : Session} {w w' : Workspace} {p : Pass} {raised : List Diagnostic}

/-! ### Passes -/

/-- The diagnostic is the error with which a call ended in the pass. -/
structure IsFailureOf (p : Pass) (d : Diagnostic) : Prop where
  severity : d.severity = .error
  pass : d.pass = some p.name

namespace Step

/-- A pass raises nothing, or the one error with which it fails. -/
theorem raised_eq (h : Step s w p s' raised w') : raised = [] ∨ ∃ d, raised = [d] ∧ IsFailureOf p d := by
  cases h with
  | tabled | optimized | typed => exact .inl rfl
  | refused | untabled | unoptimized | untyped => exact .inr ⟨_, rfl, rfl, rfl⟩

theorem diagnostics (h : Step s w p s' raised w') : s'.diagnostics = s.diagnostics := by
  cases h <;> rfl

/-- What a pass has made once may be replaced, but it is not lost. -/
theorem keeps_results (h : Step s w p s' raised w') :
    (s.optimized.isSome → s'.optimized.isSome) ∧ (s.typed.isSome → s'.typed.isSome) := by
  cases h with
  | optimized => exact ⟨fun _ => rfl, id⟩
  | typed => exact ⟨id, fun _ => rfl⟩
  | refused | tabled | untabled | unoptimized | untyped => exact ⟨id, id⟩

/-- A pass that raises nothing leaves its artifacts, beside all that were there. -/
theorem hasArtifact (h : Step s w p s' raised w') (hraised : raised = []) {a : Artifact}
    (ha : s.hasArtifact a = true ∨ a ∈ p.outputs) : s'.hasArtifact a = true := by
  cases h with
  | tabled | optimized | typed =>
    cases a <;> simp_all [Session.hasArtifact, Pass.outputs, Session.symbols]
  | refused | untabled | unoptimized | untyped => cases hraised

end Step

/-! ### Runs -/

/-- What a run over the passes reports: all of them without diagnostics, or those before one that failed, and that one
    with its failure, which becomes the last diagnostic. -/
inductive Reports (s : Session) (ps : List Pass) : Report → Prop
  | done {s' : Session} (h : s'.diagnostics = s.diagnostics) : Reports s ps ⟨s', ps.map fun p => (p, []), none⟩
  | failed {s' : Session} {before after : List Pass} {p : Pass} {d : Diagnostic} (hplan : ps = before ++ p :: after)
      (hd : IsFailureOf p d) (h : s'.diagnostics = s.diagnostics ++ [d]) :
      Reports s ps ⟨s', (before.map fun p => (p, [])) ++ [(p, [d])], some p⟩

/-- What a run over passes can do: end after the last one, go on after one that raises nothing, or end in one that
    fails. -/
inductive Course (timed : Bool) : Session → Workspace → List Pass → Report → Prop
  | nil (s : Session) (w : Workspace) : Course timed s w [] ⟨s, [], none⟩
  | passed {s s₁ : Session} {w w₁ : Workspace} {p : Pass} {ps : List Pass} {r : Report} (hstep : Step s w p s₁ [] w₁)
      (rest : Course timed (s₁.record []) (noted timed p w₁) ps r) :
      Course timed s w (p :: ps) { r with completed := (p, []) :: r.completed }
  | failed {s s₁ : Session} {w w₁ : Workspace} {p : Pass} {d : Diagnostic} (ps : List Pass)
      (hstep : Step s w p s₁ [d] w₁) (hd : IsFailureOf p d) :
      Course timed s w (p :: ps) ⟨s₁.record [d], [(p, [d])], some p⟩

section Runs
variable {timed : Bool} {ps : List Pass} {r : Report}

theorem course_of_runPasses (h : (s.runPasses timed ps).run w = (r, w')) : Course timed s w ps r := by
  induction ps generalizing s w r with
  | nil =>
    cases h
    exact .nil s _
  | cons p ps ih =>
    rcases hp : (s.runPass p).run w with ⟨⟨s₁, raised⟩, w₁⟩
    have hstep := step_of_runPass hp
    rw [run_runPasses_cons hp] at h
    rcases hstep.raised_eq with rfl | ⟨d, rfl, hd⟩
    · rcases hrest : ((s₁.record []).runPasses timed ps).run (noted timed p w₁) with ⟨r', w₂⟩
      rw [if_neg (by simp), hrest] at h
      cases h
      exact .passed hstep (ih hrest)
    · rw [if_pos (by simp [hd.severity])] at h
      cases h
      exact .failed ps hstep hd

theorem Course.reports (h : Course timed s w ps r) : Reports s ps r := by
  induction h with
  | nil => exact .done rfl
  | @passed s s₁ w w₁ p ps r hstep _ ih =>
    have hsame : (s₁.record []).diagnostics = s.diagnostics := (List.append_nil _).trans hstep.diagnostics
    cases ih with
    | done h => exact .done (h.trans hsame)
    | @failed s' before after q d hplan hd h =>
      have hplan' : p :: ps = (p :: before) ++ q :: after := congrArg (p :: ·) hplan
      exact .failed hplan' hd (h.trans (congrArg (· ++ [d]) hsame))
  | @failed s s₁ w w₁ p d ps hstep hd =>
    have hplan : p :: ps = [] ++ p :: ps := rfl
    exact .failed hplan hd (congrArg (· ++ [d]) hstep.diagnostics)

/-- A run that succeeds leaves the artifacts of all its passes, beside all that were there. -/
theorem Course.hasArtifact (h : Course timed s w ps r) (hdone : r.failing = none) {a : Artifact}
    (ha : s.hasArtifact a = true ∨ ∃ p ∈ ps, a ∈ p.outputs) : r.session.hasArtifact a = true := by
  induction h with
  | nil => simpa using ha
  | passed hstep _ ih =>
    refine ih hdone ?_
    rcases ha with ha | ⟨q, hq, ha⟩
    · exact .inl (hstep.hasArtifact rfl (.inl ha))
    · rcases List.mem_cons.mp hq with rfl | hq
      · exact .inl (hstep.hasArtifact rfl (.inr ha))
      · exact .inr ⟨q, hq, ha⟩
  | failed => cases hdone

theorem keeps_results_of_runPasses (h : (s.runPasses timed ps).run w = (r, w')) :
    (s.optimized.isSome → r.session.optimized.isSome) ∧ (s.typed.isSome → r.session.typed.isSome) :=
  runPasses_keeps
    (P := fun s' => (s.optimized.isSome → s'.optimized.isSome) ∧ (s.typed.isSome → s'.typed.isSome))
    (fun hstep hs => ⟨fun h => hstep.keeps_results.1 (hs.1 h), fun h => hstep.keeps_results.2 (hs.2 h)⟩) h ⟨id, id⟩

end Runs
end Session

/-! ### Calls -/

/-- A run of a compilation as its caller saw it. -/
structure Call where
  goal : Pass
  outcome : Except Pass Unit
  /-- The passes the caller was told of, in order, each with its diagnostics. -/
  told : List (Pass × List Diagnostic)

namespace Call

def failed (call : Call) : Bool :=
  match call.outcome with
  | .ok () => false
  | .error _ => true

/-- The caller was told, once each, of all passes that the goal requires, or of those up to the one that failed. -/
def TellsPlan (call : Call) : Prop :=
  (call.told.map Prod.fst).Nodup ∧ match call.outcome with
  | .ok () => call.told.map Prod.fst = call.goal.required
  | .error p => ∃ before after, call.goal.required = before ++ p :: after ∧ call.told.map Prod.fst = before ++ [p]

end Call

/-- The calls lead from one compilation to another, whether they fail or not. -/
inductive Calls (c₀ : Compilation) : List Call → Compilation → Prop
  | nil : Calls c₀ [] c₀
  | next {c c' : Compilation} {calls : List Call} {goal : Pass} {timed : Bool} {w w' : Workspace}
      {outcome : Except Pass Unit} (h : Calls c₀ calls c)
      (hrun : edited (InPlace.run goal timed) c w = ((outcome, c'), w')) : Calls c₀ (calls ++ [⟨goal, outcome, c'.told⟩]) c'

/-- What runs of a session keep is kept by the calls on the compilation that the session stands for. -/
theorem Calls.of_runs (P : Session → List Call → Prop) {s₀ : Session} {told₀ : List (Pass × List Diagnostic)}
    {calls : List Call} {c : Compilation} (h : Calls (s₀.inPlace told₀) calls c) (hstart : P s₀ [])
    (hstep : ∀ (s : Session) calls goal timed w r w', P s calls → (s.run goal timed).run w = (r, w') →
      P r.session (calls ++ [⟨goal, r.outcome, r.completed⟩])) : ∃ s told, c = s.inPlace told ∧ P s calls := by
  induction h with
  | nil => exact ⟨s₀, told₀, rfl, hstart⟩
  | @next c c' calls goal timed w w' outcome _ hrun ih =>
    obtain ⟨s, told, rfl, hs⟩ := ih
    rcases hr : (s.run goal timed).run w with ⟨r, w₁⟩
    rw [InPlace.edited_run goal timed s told w hr] at hrun
    cases hrun
    exact ⟨r.session, r.completed, rfl, hstep s calls goal timed w r _ hs hr⟩

theorem Pass.nodup_required (p : Pass) : p.required.Nodup := by
  rw [Session.required_eq]
  cases p <;> decide

namespace Session
variable {s : Session} {goal : Pass} {timed : Bool} {w w' : Workspace} {r : Report}

theorem tellsPlan_of_run (h : (s.run goal timed).run w = (r, w')) :
    Call.TellsPlan ⟨goal, r.outcome, r.completed⟩ := by
  have hnd := goal.nodup_required
  cases (course_of_runPasses h).reports with
  | done =>
    have htold : ((goal.required.map fun p => (p, ([] : List Diagnostic))).map Prod.fst) = goal.required := by
      simp [Function.comp_def]
    exact ⟨htold.symm ▸ hnd, htold⟩
  | @failed s' before after p d hplan hd h =>
    have htold : ((before.map fun p => (p, ([] : List Diagnostic))) ++ [(p, [d])]).map Prod.fst = before ++ [p] := by
      simp [Function.comp_def]
    have hprefix : List.Sublist (before ++ [p]) goal.required := by
      rw [hplan]
      exact (List.singleton_sublist.mpr List.mem_cons_self).append_left before
    exact ⟨htold.symm ▸ hnd.sublist hprefix, before, after, hplan, htold⟩

end Session

/-- The compilation is the one of the tree after the calls: with the failures of those that failed, and the callers of
    all told of their plans. -/
structure Bookkept (root : Node) (calls : List Call) (c : Compilation) : Prop where
  diagnostics : List.Forall₂ (fun d call => ∃ p, call.outcome = .error p ∧ Session.IsFailureOf p d) c.diagnostics
    (calls.filter Call.failed)
  hasError : c.hasError = calls.any Call.failed
  told : ∀ call ∈ calls, call.TellsPlan
  root : c.root = root
  symbols : c.typed.isSome = c.symbols.isSome

/-- A run keeps the books: its failure, if it fails, is the next diagnostic. -/
theorem Session.bookkept_of_run {root : Node} {s : Session} {calls : List Call} {goal : Pass} {timed : Bool}
    {w w' : Workspace} {r : Report} (h : Bookkept root calls (s.inPlace [])) (hrun : (s.run goal timed).run w = (r, w')) :
    Bookkept root (calls ++ [⟨goal, r.outcome, r.completed⟩]) (r.session.inPlace []) := by
  have htold : ∀ call ∈ calls ++ [⟨goal, r.outcome, r.completed⟩], call.TellsPlan := by
    rw [List.forall_mem_append]
    exact ⟨h.told, by simpa using tellsPlan_of_run hrun⟩
  have hroot : r.session.root = root :=
    runPasses_keeps (P := fun s => s.root = root) (fun hstep hs => hstep.root.trans hs) hrun h.root
  have hsymbols : (r.session.inPlace []).typed.isSome = (r.session.inPlace []).symbols.isSome := by
    simp [inPlace, symbols]
  cases (course_of_runPasses hrun).reports with
  | @done s' hsame =>
    refine ⟨?_, ?_, htold, hroot, hsymbols⟩
    · show List.Forall₂ _ s'.diagnostics _
      rw [hsame, List.filter_append, List.filter_cons_of_neg (by simp [Call.failed, Report.outcome]),
        List.filter_nil, List.append_nil]
      exact h.diagnostics
    · show s'.diagnostics.any _ = _
      rw [hsame, List.any_append]
      exact h.hasError.trans (Bool.or_false _).symm
  | @failed s' before after p d _ hd hsame =>
    refine ⟨?_, ?_, htold, hroot, hsymbols⟩
    · show List.Forall₂ _ s'.diagnostics _
      rw [hsame, List.filter_append]
      exact List.rel_append h.diagnostics (.cons ⟨p, rfl, hd⟩ .nil)
    · show s'.diagnostics.any _ = _
      rw [hsame, List.any_append, List.any_append]
      simp [hd.severity, Call.failed, Report.outcome]

namespace Calls
variable {root : Node} {calls : List Call} {c : Compilation}

theorem exists_session (h : Calls { root } calls c) : ∃ (s : Session) (told : List (Pass × List Diagnostic)),
    c = s.inPlace told ∧ Bookkept root calls (s.inPlace []) :=
  have hstart : Calls (Session.inPlace { root } []) calls c := h
  hstart.of_runs (fun s calls => Bookkept root calls (s.inPlace [])) ⟨.nil, rfl, by simp, rfl, rfl⟩
    fun _ _ _ _ _ _ _ hs hrun => Session.bookkept_of_run hs hrun

/-- The books of a compilation are right after all calls, whichever of them fail. A result that is there once is there
    after every further call, and a call that succeeds leaves every artifact of every pass that it requires. -/
theorem bookkept (h : Calls { root } calls c) : Bookkept root calls c ∧
    (∀ more c', Calls c more c' → (c.optimized.isSome → c'.optimized.isSome) ∧ (c.typed.isSome → c'.typed.isSome) ∧
      (c.symbols.isSome → c'.symbols.isSome)) ∧
    ∀ (goal : Pass) (timed : Bool) w c' w', edited (InPlace.run goal timed) c w = ((.ok (), c'), w') →
      ∀ p ∈ goal.required, ∀ a ∈ p.outputs, c'.hasArtifact a = true := by
  obtain ⟨s, told, rfl, hbooks⟩ := h.exists_session
  refine ⟨⟨hbooks.diagnostics, hbooks.hasError, hbooks.told, hbooks.root, hbooks.symbols⟩, fun more c' hmore => ?_,
    fun goal timed w c' w' hrun p hp a ha => ?_⟩
  · obtain ⟨s', told', rfl, hoptimized, htyped⟩ := hmore.of_runs
      (fun s' _ => (s.optimized.isSome → s'.optimized.isSome) ∧ (s.typed.isSome → s'.typed.isSome)) ⟨id, id⟩
      fun s₁ _ _ _ _ _ _ hs hrun => by
        obtain ⟨hoptimized, htyped⟩ := Session.keeps_results_of_runPasses hrun
        exact ⟨hoptimized ∘ hs.1, htyped ∘ hs.2⟩
    simpa [Session.inPlace, Session.symbols] using ⟨hoptimized, htyped⟩
  · rcases hr : (s.run goal timed).run w with ⟨r, w₁⟩
    rw [InPlace.edited_run goal timed s told w hr, Prod.mk.injEq, Prod.mk.injEq] at hrun
    obtain ⟨⟨hok, rfl⟩, -⟩ := hrun
    have hdone : r.failing = none := by
      cases hf : r.failing with
      | none => rfl
      | some q => rw [Session.Report.outcome, hf] at hok; cases hok
    rw [Session.hasArtifact_inPlace]
    exact (Session.course_of_runPasses hr).hasArtifact hdone (.inr ⟨p, hp, ha⟩)

/-- State tables, dead code that cannot be eliminated for an unknown action, and a typing that the root is not for. -/
theorem bookkept_latched :
    let first := edited (InPlace.run .stateTables false) { root := Session.latched } {}
    let second := edited (InPlace.run .deadCode false) first.1.2 first.2
    let third := edited (InPlace.run .typing false) second.1.2 second.2
    Calls { root := Session.latched } [⟨.stateTables, first.1.1, first.1.2.told⟩, ⟨.deadCode, second.1.1, second.1.2.told⟩,
        ⟨.typing, third.1.1, third.1.2.told⟩] third.1.2 ∧
      [first.1.1, second.1.1, third.1.1] = [.ok (), .error .deadCode, .error .typing] ∧
      third.1.2.hasError = true ∧ third.1.2.diagnostics.length = 2 := by
  intro first second third
  have hcalls : Calls { root := Session.latched } [⟨.stateTables, first.1.1, first.1.2.told⟩,
      ⟨.deadCode, second.1.1, second.1.2.told⟩, ⟨.typing, third.1.1, third.1.2.told⟩] third.1.2 :=
    .next (.next (.next .nil rfl) rfl) rfl
  have houtcomes : [first.1.1, second.1.1, third.1.1] = [.ok (), .error .deadCode, .error .typing] := by decide +kernel
  obtain ⟨hbooks, -⟩ := hcalls.bookkept
  obtain ⟨h₁, h₂, h₃⟩ : first.1.1 = .ok () ∧ second.1.1 = .error .deadCode ∧ third.1.1 = .error .typing := by
    simpa using houtcomes
  refine ⟨hcalls, houtcomes, ?_, ?_⟩
  · rw [hbooks.hasError]
    simp [Call.failed, h₂]
  · rw [hbooks.diagnostics.length_eq]
    simp [List.filter_cons, Call.failed, h₁, h₂, h₃]

end Calls

end TypedTree.Compile
