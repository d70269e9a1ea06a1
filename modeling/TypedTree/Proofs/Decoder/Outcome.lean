import TypedTree.Proofs.Decoder.Elimination

/-! When dead code elimination fails. Its rules cover every action, event and condition of the language, and what it
    rebuilds always fits, so the sweep itself cannot fail. What is left is the state tables: if elimination has to
    compute them, it fails with the first automaton that does not list its start state, whether that automaton would
    stay or not. -/

namespace TypedTree.Decoder.Liveness

/-! ### Stages -/

/-- The sweep ends with a value, whatever has been collected and built before. -/
def Total {α : Type} (x : SweepM α) : Prop := ∀ m w, ∃ a m' w', outcome x m w = (.ok (a, m'), w')

theorem Collects.total {α : Type} {x : SweepM α} {cs : List Node} {P : α → Prop} (h : Collects x cs P) : Total x := by
  intro m w
  obtain ⟨a, w', hrun, -⟩ := h.run m w
  exact ⟨a, _, w', hrun⟩

/-- The transitions of any automaton can be scanned, not only those that the sweep over it has left. -/
theorem scanAutomaton_total {decoder a : Node} (ha : a.BuiltFrom variants) (hk : a.isA "DFA" = true) :
    Total (scanAutomaton (outputIds decoder) a) := by
  obtain ⟨hreads, hts⟩ := reads_nodes ha (variant_of_isA ha .dfa hk) "transitions" rfl
  rw [scanAutomaton, hreads]
  have hscan : Collects ((a.held "transitions").forM fun t => do scanTrigger (outputIds decoder) (← t.getNode "trigger"))
      (automatonTriggerReads decoder a) fun _ => True := by
    refine Collects.forM (R := (· = ·)) (List.forall₂_same.mpr fun _ _ => rfl) ?_
    rintro t ht _ rfl
    obtain ⟨htk, htb⟩ := hts t ht
    obtain ⟨trigger, hread, hheld, hc, hb⟩ := reads_node htb (variant_of_isA htb .transition htk) "trigger" rfl
    rw [hread, hheld, List.flatMap_singleton]
    exact scanTrigger_collects trigger hb (.inl hc)
  exact hscan.total

/-- What elimination does with a node cannot fail, wherever the class of the node makes it do that. -/
structure Handles (outputs : List NodeId) (n : Node) : Prop where
  action : n.isA "Action" = true → Total (keepAction outputs n)
  trigger : n.isA "Event" = true ∨ n.isA "Condition" = true → Total (scanTrigger outputs n)
  transition : n.isA "Transition" = true → Total (sweepTransition outputs n)
  automaton : n.isA "DFA" = true → Total (sweepAutomaton outputs n)
  triggers : n.isA "DFA" = true → Total (scanAutomaton outputs n)

theorem handles (decoder : Node) {n : Node} (hn : n.BuiltFrom variants) : Handles (outputIds decoder) n where
  action hk := (keepAction_collects hn hk).total
  trigger hk := (scanTrigger_collects n hn hk).total
  transition hk := (sweepTransition_collects hn hk).total
  automaton hk := (sweepAutomaton_collects hn hk).total
  triggers hk := scanAutomaton_total hn hk

/-! ### Elimination -/

section Decoder
variable {d : Node} (hd : d.BuiltFrom variants) (kind : d.variant = Kind.decoder.variant)
include hd kind

/-- An automaton without its start state stops elimination before the sweep. -/
theorem eliminate_none_error {a : Node} (ha : (d.held "dfas").find? (fun a => !listsStart a) = some a) (w : Workspace) :
    (built (eliminate d none) w).1 = .error (.pass (.startNotInStates a.id)) := by
  have hfails := StateTables.fst_built_build_eq_error hd (.inl (isA_name kind)) (automata_of_decoder kind ▸ ha) w
  rw [eliminate_none (Kind.of?_of_variant kind), built_bind]
  rcases hbuild : built (StateTables.build d) w with ⟨r, w'⟩
  rw [hbuild] at hfails
  obtain rfl : r = .error (.pass (.startNotInStates a.id)) := hfails
  rfl

/-- Elimination without given tables succeeds just if every automaton of the decoder lists its start state, and fails
    with the first automaton that does not. With given tables, whatever they hold, it succeeds and returns them. No part
    of the decoder makes it fail. -/
theorem eliminate_outcome :
    (∀ w, ((∃ r w', built (eliminate d none) w = (.ok r, w')) ↔ ∀ a ∈ d.held "dfas", listsStart a = true) ∧
      ∀ a, (d.held "dfas").find? (fun a => !listsStart a) = some a →
        (built (eliminate d none) w).1 = .error (.pass (.startNotInStates a.id))) ∧
    (∀ tables w, ∃ d' w', built (eliminate d (some tables)) w = (.ok ⟨d', tables⟩, w')) ∧
    ∀ n : Node, n.BuiltFrom variants → Handles (outputIds d) n := by
  refine ⟨fun w => ⟨exists_eliminate_none_iff hd kind w, fun a ha => eliminate_none_error hd kind ha w⟩,
    fun tables w => ?_, fun n hn => handles d hn⟩
  obtain ⟨d', -, w', hrun, -⟩ := eliminate_some hd kind tables w
  exact ⟨d', w', hrun⟩

end Decoder

/-! ### A dead automaton without its start state -/

def off : Node := .mk 14 Kind.state.variant [.absent, .absent]

/-- The second automaton has no live action, but it has to list its start state all the same. -/
def lost : Node :=
  .mk 16 Kind.decoder.variant [.nodeList [clock, line], .nodeList [data], .nodeList [loop 11 (step 9 [shift]),
    .mk 15 Kind.dfa.variant [.node off, .nodeList [idle], .nodeList [step 10 [report]], .absent, .absent]],
    .absent, .absent]

theorem eliminate_outcome_lost : lost.BuiltFrom variants ∧ lost.variant = Kind.decoder.variant ∧
    (built (eliminate lost none) {}).1 = .error (.pass (.startNotInStates 15)) ∧
    (∃ d' w', built (eliminate lost (some ⟨StateTables.blank⟩)) {} = (.ok ⟨d', ⟨StateTables.blank⟩⟩, w')) ∧
    Total (scanTrigger (outputIds lost) edge) := by
  have hlost : lost.BuiltFrom variants := by decide
  obtain ⟨hnone, hsome, hparts⟩ := eliminate_outcome hlost rfl
  exact ⟨hlost, rfl, (hnone {}).2 _ rfl, hsome _ {}, (hparts edge (by decide)).trigger (.inl rfl)⟩

end TypedTree.Decoder.Liveness
