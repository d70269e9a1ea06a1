import TypedTree.Proofs.Compile.History
import TypedTree.Proofs.Decoder.Construction
import TypedTree.Proofs.Expr.Construction

/-! What compilations construct: a pass constructs from the root of its session, and a run is pass after pass, up to the
    one that fails. -/

namespace TypedTree.Compile.Session
open Decoder.Liveness (eliminate_adds)

/-- The nodes that a session holds. -/
def nodes (s : Session) : List Node :=
  s.root :: ((s.tables.toList.flatMap Decoder.StateTables.nodes) ++ (s.optimized.toList ++ (s.typed.map (·.tree)).toList))

variable {s s' : Session} {made : List Node} {w w' : Workspace}

/-- The artifacts of the session hold only nodes of `made`. -/
structure MadeOf (made : List Node) (s : Session) : Prop where
  root : s.root ∈ made
  tables : ∀ t ∈ s.tables, t.nodes ⊆ made
  optimized : ∀ c ∈ s.optimized, c ∈ made
  typed : ∀ t ∈ s.typed, t.tree ∈ made

theorem madeOf_iff : MadeOf made s ↔ s.nodes ⊆ made := by
  rw [nodes, List.cons_subset, List.append_subset, List.append_subset]
  refine ⟨fun h => ⟨h.root, ?_, ?_, ?_⟩, fun ⟨hroot, htables, hoptimized, htyped⟩ => ⟨hroot, ?_, ?_, ?_⟩⟩
  · intro c hc
    obtain ⟨t, ht, hc⟩ := List.mem_flatMap.mp hc
    exact h.tables t (Option.mem_toList.mp ht) hc
  · exact fun c hc => h.optimized c (Option.mem_toList.mp hc)
  · intro c hc
    obtain ⟨t, ht, rfl⟩ := Option.map_eq_some_iff.mp (Option.mem_toList.mp hc)
    exact h.typed t ht
  · exact fun t ht c hc => htables (List.mem_flatMap.mpr ⟨t, Option.mem_toList.mpr ht, hc⟩)
  · exact fun c hc => hoptimized (Option.mem_toList.mpr hc)
  · exact fun t ht => htyped (Option.mem_toList.mpr (Option.map_eq_some_iff.mpr ⟨t, ht, rfl⟩))

theorem MadeOf.mono {made' : List Node} (h : MadeOf made s) (hmade : made ⊆ made') : MadeOf made' s where
  root := hmade h.root
  tables t ht := fun _ hc => hmade (h.tables t ht hc)
  optimized c hc := hmade (h.optimized c hc)
  typed t ht := hmade (h.typed t ht)

/-- The step: what a pass leaves in a session is constructed. -/
theorem Step.constructs {p : Pass} {raised : List Diagnostic} (h : Step s w p s' raised w') (hw : History made w)
    (hs : s.MadeOf made) : ∃ made', Constructs made w made' w' ∧ s'.MadeOf made' := by
  have root : Within { n | n ∈ made } s.root := within_of_mem hs.root
  have tables : ∀ t ∈ s.tables, ∀ c ∈ t.nodes, Within { n | n ∈ made } c := fun t ht c hc =>
    within_of_mem (hs.tables t ht hc)
  cases h with
  | refused => exact ⟨made, .done, hs⟩
  | tabled _ hb =>
    obtain ⟨made', hgrown, hnew⟩ := Decoder.StateTables.build_adds root made w _ w' hw (fun _ h => h) hb
    refine ⟨made', hgrown, { hs.mono hgrown.subset with tables := ?_ }⟩
    rintro t ⟨⟩ c hc
    exact hnew _ rfl c hc
  | untabled _ hb =>
    obtain ⟨made', hgrown, -⟩ := Decoder.StateTables.build_adds root made w _ w' hw (fun _ h => h) hb
    refine ⟨made', hgrown, { hs.mono hgrown.subset with tables := ?_ }⟩
    rintro t ⟨⟩
  | optimized _ hb =>
    obtain ⟨made', hgrown, hnew⟩ := eliminate_adds root tables made w _ w' hw (fun _ h => h) hb
    refine ⟨made', hgrown, { hs.mono hgrown.subset with tables := ?_, optimized := ?_ }⟩
    · rintro t ⟨⟩ c hc
      exact hnew _ rfl c (.inr hc)
    · rintro c ⟨⟩
      exact hnew _ rfl _ (.inl rfl)
  | unoptimized _ hb =>
    obtain ⟨made', hgrown, -⟩ := eliminate_adds root tables made w _ w' hw (fun _ h => h) hb
    refine ⟨made', hgrown, { hs.mono hgrown.subset with tables := ?_ }⟩
    rintro t ⟨⟩
  | typed _ hb =>
    obtain ⟨made', hgrown, hnew⟩ := Expr.Typing.analyze_adds root made w _ w' hw (fun _ h => h) hb
    refine ⟨made', hgrown, { hs.mono hgrown.subset with typed := ?_ }⟩
    rintro t ⟨⟩
    exact hnew _ rfl _ rfl
  | untyped _ hb =>
    obtain ⟨made', hgrown, -⟩ := Expr.Typing.analyze_adds root made w _ w' hw (fun _ h => h) hb
    exact ⟨made', hgrown, hs.mono hgrown.subset⟩

theorem noted_constructs (timed : Bool) (p : Pass) : Constructs made w made (noted timed p w) := by
  cases timed with
  | false => exact .done
  | true => exact Constructs.done.noted [⟨.info, s!"{p.name} complete"⟩]

theorem MadeOf.record (h : MadeOf made s) (raised : List Diagnostic) : MadeOf made (s.record raised) :=
  ⟨h.root, h.tables, h.optimized, h.typed⟩

/-- The run: so is what a session is left with. -/
theorem runPasses_constructs {timed : Bool} {ps : List Pass} {r : Report} (h : (s.runPasses timed ps).run w = (r, w'))
    (hw : History made w) (hs : s.MadeOf made) : ∃ made', Constructs made w made' w' ∧ r.session.MadeOf made' := by
  induction ps generalizing s w r made with
  | nil =>
    cases h
    exact ⟨made, .done, hs⟩
  | cons p ps ih =>
    rcases hp : (s.runPass p).run w with ⟨⟨s₁, raised⟩, w₁⟩
    obtain ⟨made₁, hgrown, hs₁⟩ := (step_of_runPass hp).constructs hw hs
    have hnoted := hgrown.trans (noted_constructs timed p)
    rw [run_runPasses_cons hp] at h
    split at h
    · cases h
      exact ⟨made₁, hnoted, hs₁.record raised⟩
    · rcases hrest : ((s₁.record raised).runPasses timed ps).run (noted timed p w₁) with ⟨r', w₂⟩
      rw [hrest] at h
      cases h
      obtain ⟨made₂, hgrown', hs₂⟩ := ih hrest (hnoted.history hw) (hs₁.record raised)
      exact ⟨made₂, hnoted.trans hgrown', hs₂⟩

theorem run_adds {K : Set Node} (hs : ∀ c ∈ s.nodes, Within K c) (goal : Pass) (timed : Bool) :
    Adds K (liftM (s.run goal timed)) fun r => { c | c ∈ r.session.nodes } := by
  intro made w r w' hw hK hrun
  have hmade : s.MadeOf made := madeOf_iff.mpr fun c hc => hs c hc made w hw hK
  rcases hreport : (s.run goal timed).run w with ⟨report, w₁⟩
  obtain ⟨made', hgrown, hs'⟩ := runPasses_constructs hreport hw hmade
  have hlift : built (liftM (s.run goal timed)) w =
    (.ok ((s.run goal timed).run w).1, ((s.run goal timed).run w).2) := rfl
  rw [hlift, hreport] at hrun
  cases hrun
  refine ⟨made', hgrown, fun a ha n hn => ?_⟩
  cases ha
  exact madeOf_iff.mp hs' hn

end TypedTree.Compile.Session
