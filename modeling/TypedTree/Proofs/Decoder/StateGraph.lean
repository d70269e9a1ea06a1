import TypedTree.Proofs.Decoder.Elimination

/-! The state graph under elimination. The rebuilt automata hold the states of the automata they are made from, not
    copies of these, and every transition stays at its place. So the tables of the decoder that elimination leaves show,
    for every state, what the automata that stay show, transition by transition, and the tables given out with it are
    those of the decoder before. -/

namespace TypedTree.Decoder.Liveness

/-- The transitions of the automata that have the state in the field. -/
def joining (field : String) (dfas : List Node) (state : Node) : List Node :=
  (dfas.flatMap (·.held "transitions")).filter (·.holds field state)

/-! ### Lists side by side -/

section Lists
variable {α β : Type} {R : α → β → Prop} {p : α → Bool} {q : β → Bool}

/-- The entry that is found in one list stands where an entry is found in the other one. -/
theorem find?_eq_of_forall₂ {xs : List α} {ys : List β} (h : List.Forall₂ R xs ys) (hpq : ∀ x y, R x y → q y = p x) :
    ys.find? q = ((xs.zip ys).find? fun e => p e.1).map Prod.snd := by
  induction h with
  | nil => rfl
  | cons hxy _ ih =>
    rw [List.zip_cons_cons, List.find?_cons, List.find?_cons, hpq _ _ hxy]
    cases p _ with
    | true => rfl
    | false => exact ih

/-- The last such entry. -/
theorem find?_reverse_eq_of_forall₂ {xs : List α} {ys : List β} (h : List.Forall₂ R xs ys)
    (hpq : ∀ x y, R x y → q y = p x) :
    ys.reverse.find? q = ((xs.zip ys).reverse.find? fun e => p e.1).map Prod.snd := by
  rw [List.zip_eq_zipWith, List.reverse_zipWith h.length_eq, ← List.zip_eq_zipWith]
  exact find?_eq_of_forall₂ (List.forall₂_reverse_iff.mpr h) hpq

end Lists

/-! ### Rebuilt automata -/

section Rebuilt
variable {d : Node}

theorem Rebuilt.listsStart {a a' : Node} (h : Rebuilt d a a') : listsStart a' = listsStart a := by
  rw [Decoder.listsStart, Decoder.listsStart, Node.held_congr (h.others "start" (by decide)),
    Node.holds_eq_of_get (h.others "states" (by decide))]

theorem transitions_forall₂ {as ks : List Node} (h : List.Forall₂ (Rebuilt d) as ks) :
    List.Forall₂ (Trimmed d) (as.flatMap (·.held "transitions")) (ks.flatMap (·.held "transitions")) := by
  induction h with
  | nil => exact .nil
  | cons ha _ ih =>
    obtain ⟨ts, hget, hts⟩ := ha.transitions
    rw [List.flatMap_cons, List.flatMap_cons, Node.held_of_nodeList hget]
    exact List.rel_append hts ih

/-- Trimming keeps what the transitions hold besides their actions, so the same ones join a state. -/
theorem joining_forall₂ {as ks : List Node} (h : List.Forall₂ (Rebuilt d) as ks) {field : String}
    (hfield : field ≠ "actions") (s : Node) : List.Forall₂ (Trimmed d) (joining field as s) (joining field ks s) := by
  refine List.rel_filter (fun t t' ht => ?_) (transitions_forall₂ h)
  show t.holds field s = true ↔ t'.holds field s = true
  rw [Node.holds_eq_of_get (ht.others field hfield)]

theorem automaton_of_forall₂ {as ks : List Node} (h : List.Forall₂ (Rebuilt d) as ks) (s : Node) :
    ks.reverse.find? (·.holds "states" s) = ((as.zip ks).reverse.find? fun e => e.1.holds "states" s).map Prod.snd :=
  find?_reverse_eq_of_forall₂ (p := (·.holds "states" s)) h fun _ _ ha =>
    congrFun (Node.holds_eq_of_get (ha.others "states" (by decide))) s

end Rebuilt

/-! ### The tables of the result -/

/-- After elimination without given tables the state graph is that of the automata that stay. The tables of the result
    can be computed. For every state the lists of its transitions follow, one by one, those of the automata that stay;
    its automaton is the one rebuilt from the last of them that lists the state. The tables that elimination gives are
    those of the decoder it started with. -/
theorem eliminate_stateGraph {d : Node} (hd : d.BuiltFrom variants) {w w' : Workspace} {r : Optimized}
    (h : built (eliminate d none) w = (.ok r, w')) :
    (∃ kept, r.decoder.get "dfas" = .ok (.nodeList kept) ∧ List.Forall₂ (Rebuilt d) (survivors d) kept ∧
      ∀ v, ∃ tables v', built (StateTables.build r.decoder) v = (.ok tables, v') ∧
        ∀ s : Node, s.isA Kind.state.name = true →
          (∃ outs, tables.outgoing s = .ok outs ∧ List.Forall₂ (Trimmed d) (joining "source" (survivors d) s) outs) ∧
          (∃ ins, tables.incoming s = .ok ins ∧ List.Forall₂ (Trimmed d) (joining "destination" (survivors d) s) ins) ∧
          tables.automaton s =
            match ((survivors d).zip kept).reverse.find? (fun e => e.1.holds "states" s) with
            | some (_, a') => .ok a'
            | none => .error (.metadata (.notSet StateTables.automatonName s.id))) ∧
      ∀ v, (built (StateTables.build d) v).1 = .ok r.tables := by
  have kind := variant_of_eliminate hd h
  obtain ⟨kept, he, hb, -⟩ := eliminate_spec hd h
  have hkind := he.update.variant.trans kind
  have hautomata : automata r.decoder = kept := by
    rw [automata_of_decoder hkind, Node.held_of_nodeList he.get_dfas]
  -- The automata that stay list their start states, since all automata did.
  have hstarts : (automata r.decoder).find? (fun a => !listsStart a) = none := by
    have hall := (exists_eliminate_none_iff hd kind w).mp ⟨r, w', h⟩
    rw [hautomata, List.find?_eq_none]
    intro a' ha'
    obtain ⟨a, ha, hr⟩ := exists_of_forall₂ he.rebuilt ha'
    simp [hr.listsStart, hall a (List.mem_filter.mp ha).1]
  have hwalk := StateTables.ofTree_records hb (.inl (isA_name hkind))
  rw [hstarts, transitions, hautomata] at hwalk
  obtain ⟨t, htree, hrec⟩ := hwalk
  refine ⟨⟨kept, he.get_dfas, he.rebuilt, fun v => ?_⟩, fun v => ?_⟩
  · refine ⟨⟨t.repository.locked⟩, (built (StateTables.build r.decoder) v).2, ?_, fun s hs => ⟨?_, ?_, ?_⟩⟩
    · refine Prod.ext ?_ rfl
      rw [StateTables.fst_built_build, htree]
      rfl
    · exact ⟨_, hrec.outgoing.getNodes hs, joining_forall₂ he.rebuilt (by decide) s⟩
    · exact ⟨_, hrec.incoming.getNodes hs, joining_forall₂ he.rebuilt (by decide) s⟩
    · refine (hrec.automaton.getNode hs).trans ?_
      rw [automaton_of_forall₂ he.rebuilt]
      cases ((survivors d).zip kept).reverse.find? fun e => e.1.holds "states" s <;> rfl
  · obtain ⟨w₁, -, ⟨⟨⟩, -⟩ | ⟨-, hbuild⟩⟩ := eliminate_inv h
    rw [StateTables.fst_built_build, ← StateTables.fst_built_build d w, hbuild]

theorem eliminate_stateGraph_receiver : receiver.BuiltFrom variants ∧ ∃ r w',
    built (eliminate receiver none) {} = (.ok r, w') ∧
      ∃ a' tables v', r.decoder.get "dfas" = .ok (.nodeList [a']) ∧
        built (StateTables.build r.decoder) {} = (.ok tables, v') ∧ tables.automaton idle = .ok a' ∧
        (∃ t', tables.outgoing idle = .ok [t'] ∧ Trimmed receiver (step 9 [report, shift]) t') ∧
        (built (StateTables.build receiver) {}).1 = .ok r.tables := by
  obtain ⟨r, w', hrun⟩ := (exists_eliminate_none_iff receiver_builtFrom rfl {}).mpr (by decide)
  obtain ⟨⟨kept, hget, hkept, htables⟩, hbefore⟩ := eliminate_stateGraph receiver_builtFrom hrun
  obtain _ | ⟨ha, _ | _⟩ := (hkept : List.Forall₂ (Rebuilt receiver) [loop 11 (step 9 [report, shift])] kept)
  obtain ⟨tables, v', hbuild, hstates⟩ := htables {}
  obtain ⟨⟨outs, houts, hjoin⟩, -, hautomaton⟩ := hstates idle rfl
  obtain _ | ⟨ht, _ | _⟩ := (hjoin : List.Forall₂ (Trimmed receiver) [step 9 [report, shift]] outs)
  exact ⟨receiver_builtFrom, r, w', hrun, _, tables, v', hget, hbuild, hautomaton, ⟨_, houts, ht⟩, hbefore {}⟩

end TypedTree.Decoder.Liveness
