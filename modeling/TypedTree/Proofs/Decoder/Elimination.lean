import TypedTree.Proofs.Decoder.Liveness
import TypedTree.Proofs.Decoder.StateTables

/-! Dead code elimination rewrites a decoder exactly. The automata with a live action stay, in order, with their
    transitions trimmed, and the inputs become the channels that are read: by the live appends of all automata, then by
    the triggers of the automata that stay, each channel once. Nothing else in the decoder changes. -/

namespace TypedTree.Decoder.Liveness

section Scan
variable {decoder : Node}

/-- Trimming keeps triggers, so a rebuilt automaton reads what the original one reads. -/
theorem scanAutomaton_collects {a a' : Node} (ha : a.BuiltFrom variants) (hk : a.isA "DFA" = true)
    (h : Rebuilt decoder a a') :
    Collects (scanAutomaton (outputIds decoder) a') (automatonTriggerReads decoder a) fun _ => True := by
  obtain ⟨-, hts⟩ := reads_nodes ha (variant_of_isA ha .dfa hk) "transitions" rfl
  obtain ⟨ts, hreads, htrim⟩ := h.transitions
  rw [scanAutomaton, Node.getNodes_of_get hreads]
  refine Collects.forM htrim fun t ht t' htt' => ?_
  obtain ⟨htk, htb⟩ := hts t ht
  obtain ⟨c, hread, hheld, hc, hb⟩ := reads_node htb (variant_of_isA htb .transition htk) "trigger" rfl
  have hread' : t'.getNode "trigger" = .ok c :=
    Node.getNode_of_get ((htt'.others "trigger" (by decide)).trans (Node.get_of_getNode hread))
  rw [hheld, List.flatMap_singleton, hread']
  exact scanTrigger_collects c hb (.inl hc)

/-- The sweep over a decoder keeps the automata with a live action and collects the channels that are read. -/
theorem sweep_collects (hd : ∀ a ∈ decoder.held "dfas", a.isA "DFA" = true ∧ a.BuiltFrom variants) :
    Collects (sweep (outputIds decoder) (decoder.held "dfas")) (appendChannels decoder ++ triggerChannels decoder)
      fun kept => List.Forall₂ (Rebuilt decoder) (survivors decoder) kept ∧
        ∀ a ∈ kept, a.isA "DFA" = true ∧ a.BuiltFrom variants := by
  rw [sweep]
  refine (Collects.mapM fun a ha => sweepAutomaton_collects (hd a ha).2 (hd a ha).1).bind fun swept hswept => ?_
  obtain ⟨hkept, hkept'⟩ := forall₂_and_right (survivors_forall₂ hswept)
  refine (Collects.forM hkept fun a ha a' hr => ?_).bind_pure fun _ _ => ⟨hkept, hkept'⟩
  obtain ⟨hk, hb⟩ := hd a (List.mem_filter.mp ha).1
  exact scanAutomaton_collects hb hk hr

end Scan
/-! ### Elimination -/

/-- `d'` is the decoder `d` with other inputs and automata, those that elimination leaves. -/
structure Eliminated (d d' : Node) (kept : List Node) : Prop where
  rebuilt : List.Forall₂ (Rebuilt d) (survivors d) kept
  update : d.IsUpdate [("inputs", .nodeList (appendChannels d ++ triggerChannels d).eraseDups),
    ("dfas", .nodeList kept)] d'

namespace Eliminated
variable {d d' : Node} {kept : List Node} (h : Eliminated d d' kept)
include h

theorem get_inputs : d'.get "inputs" = .ok (.nodeList (appendChannels d ++ triggerChannels d).eraseDups) :=
  h.update.get "inputs"

theorem get_dfas : d'.get "dfas" = .ok (.nodeList kept) := h.update.get "dfas"

theorem get_other {name : String} (hi : name ≠ "inputs") (ha : name ≠ "dfas") : d'.get name = d.get name :=
  h.update.get_other (by simpa [List.lookup_eq_none_iff] using ⟨hi, ha⟩)

end Eliminated

section Decoder
variable {d : Node} (hd : d.BuiltFrom variants) (kind : d.variant = Kind.decoder.variant)
include hd kind

theorem rewrite_decoder {inputs dfas : List Node} (hinputs : ∀ c ∈ inputs, c.isA "Channel" = true ∧ c.BuiltFrom variants)
    (hdfas : ∀ a ∈ dfas, a.isA "DFA" = true ∧ a.BuiltFrom variants) (line : LogLine) (tables : StateTables)
    (w : Workspace) :
    ∃ d' w', built (do
        liftM (Workspace.note line)
        let decoder ← d.update [("inputs", .nodeList inputs), ("dfas", .nodeList dfas)]
        pure (⟨decoder, tables⟩ : Optimized)) w = (.ok ⟨d', tables⟩, w') ∧
      d.IsUpdate [("inputs", .nodeList inputs), ("dfas", .nodeList dfas)] d' ∧ d'.BuiltFrom variants := by
  have hfi : d.variant.field? "inputs" = some ⟨"inputs", .list (.node "Channel")⟩ := by rw [kind]; rfl
  have hfd : d.variant.field? "dfas" = some ⟨"dfas", .list (.node "DFA")⟩ := by rw [kind]; rfl
  have hadm : d.Admits [("inputs", .nodeList inputs), ("dfas", .nodeList dfas)] := by
    refine .cons (.cons .nil hfd ?_ (by simp)) hfi ?_ (by simp)
    · exact FieldType.admits_nodes_iff.mpr ⟨dfas, rfl, fun a ha => (hdfas a ha).1⟩
    · exact FieldType.admits_nodes_iff.mpr ⟨inputs, rfl, fun c hc => (hinputs c hc).1⟩
  have hvals : ∀ v ∈ [("inputs", Value.nodeList inputs), ("dfas", Value.nodeList dfas)].map Prod.snd,
      v.BuiltFrom variants := by
    simpa using ⟨fun c hc => (hinputs c hc).2, fun a ha => (hdfas a ha).2⟩
  obtain ⟨d', hrun, hupd, hb⟩ := hd.built_update hadm hvals (by simp) { w with log := w.log ++ [line] }
  refine ⟨d', { w with nextId := w.nextId + 1, log := w.log ++ [line] }, ?_, hupd, hb⟩
  show built (do
    let decoder ← d.update [("inputs", .nodeList inputs), ("dfas", .nodeList dfas)]
    pure (⟨decoder, tables⟩ : Optimized)) { w with log := w.log ++ [line] } = _
  rw [built_bind, hrun]
  rfl

/-- With given tables elimination succeeds, and leaves the tables as they are. The automata of the result are those that
    the sweep over the decoder keeps. -/
theorem eliminate_some (tables : StateTables) (w : Workspace) :
    ∃ d' kept w', built (eliminate d (some tables)) w = (.ok ⟨d', tables⟩, w') ∧ Eliminated d d' kept ∧
      d'.BuiltFrom variants ∧
      ∃ m w₁, outcome (sweep (outputIds d) (d.held "dfas")) .empty w = (.ok (kept, m), w₁) := by
  obtain ⟨hinputs, -⟩ := reads_nodes hd kind "inputs" rfl
  obtain ⟨houtputs, -⟩ := reads_nodes hd kind "outputs" rfl
  obtain ⟨hdfas, hds⟩ := reads_nodes hd kind "dfas" rfl
  obtain ⟨hchannels, hrun⟩ := sweep_collects hds
  obtain ⟨kept, w₁, hsweep, hrebuilt, hkept⟩ := hrun .empty w
  have hkind : ¬Kind.of? d ≠ some .decoder := not_not.mpr (Kind.of?_of_variant kind)
  rw [eliminate, if_neg hkind]
  simp only [houtputs, hdfas, hinputs, liftM_ok, pure_bind]
  rw [show (d.held "outputs").map Node.id = outputIds d from rfl, built_bind, ← outcome, hsweep]
  simp only [values_collect_empty]
  obtain ⟨d', w', hrun', hupd, hb⟩ := rewrite_decoder hd kind (fun c hc => hchannels c (mem_of_mem_eraseDups hc)) hkept _
    tables w₁
  exact ⟨d', kept, w', hrun', ⟨hrebuilt, hupd⟩, hb, _, w₁, rfl⟩

end Decoder

theorem eliminate_none {d : Node} (h : Kind.of? d = some .decoder) :
    eliminate d none = StateTables.build d >>= fun tables => eliminate d (some tables) := by
  simp only [eliminate, if_neg (not_not.mpr h), pure_bind]

section Inversion
variable {d : Node} {w w' : Workspace} {r : Optimized}

theorem kind_of_eliminate {tables : Option StateTables} (h : built (eliminate d tables) w = (.ok r, w')) :
    Kind.of? d = some .decoder := by
  by_contra hkind
  rw [eliminate, if_pos hkind] at h
  cases h

theorem tables_of_eliminate_some {t : StateTables} (h : built (eliminate d (some t)) w = (.ok r, w')) : r.tables = t := by
  have hkind := kind_of_eliminate h
  rw [eliminate, if_neg (not_not.mpr hkind)] at h
  simp only [pure_bind, built_bind_eq_ok] at h
  obtain ⟨_, _, -, _, _, -, _, _, -, _, _, -, _, _, -, _, _, -, h⟩ := h
  cases h
  rfl

/-- Elimination that succeeds works with the tables it is given, or else with those of the decoder. -/
theorem eliminate_inv {tables : Option StateTables} (h : built (eliminate d tables) w = (.ok r, w')) :
    ∃ w₁, built (eliminate d (some r.tables)) w₁ = (.ok r, w') ∧
      (tables = some r.tables ∧ w₁ = w ∨ tables = none ∧ built (StateTables.build d) w = (.ok r.tables, w₁)) := by
  cases tables with
  | some t =>
    cases tables_of_eliminate_some h
    exact ⟨w, h, .inl ⟨rfl, rfl⟩⟩
  | none =>
    rw [eliminate_none (kind_of_eliminate h), built_bind_eq_ok] at h
    obtain ⟨t, w₁, hbuild, h⟩ := h
    cases tables_of_eliminate_some h
    exact ⟨w₁, h, .inr ⟨rfl, hbuild⟩⟩

theorem variant_of_eliminate (hd : d.BuiltFrom variants) {tables : Option StateTables}
    (h : built (eliminate d tables) w = (.ok r, w')) : d.variant = Kind.decoder.variant := by
  obtain ⟨k, hk⟩ := exists_kind hd
  rw [hk, Option.some.inj ((Kind.of?_of_variant hk).symm.trans (kind_of_eliminate h))]

/-- What elimination that succeeds has done. The sweep takes no identities but new ones, for computing the tables takes
    none. -/
theorem eliminate_spec (hd : d.BuiltFrom variants) {tables : Option StateTables}
    (h : built (eliminate d tables) w = (.ok r, w')) :
    ∃ kept, Eliminated d r.decoder kept ∧ r.decoder.BuiltFrom variants ∧
      ∃ m w₁ w₂, w₁.nextId = w.nextId ∧ outcome (sweep (outputIds d) (d.held "dfas")) .empty w₁ = (.ok (kept, m), w₂) := by
  obtain ⟨w₁, hgiven, htables⟩ := eliminate_inv h
  have hnext : w₁.nextId = w.nextId := by
    rcases htables with ⟨-, rfl⟩ | ⟨-, hbuild⟩
    · rfl
    · rw [← StateTables.nextId_built_build d w, hbuild]
  obtain ⟨d', kept, w₂, hrun, he, hb, m, w₃, hsweep⟩ := eliminate_some hd (variant_of_eliminate hd h) r.tables w₁
  rw [hrun, Prod.mk.injEq, Except.ok.injEq] at hgiven
  exact ⟨kept, hgiven.1 ▸ he, hgiven.1 ▸ hb, m, w₁, w₃, hnext, hsweep⟩

theorem eliminated_of_eliminate (hd : d.BuiltFrom variants) {tables : Option StateTables}
    (h : built (eliminate d tables) w = (.ok r, w')) : ∃ kept, Eliminated d r.decoder kept := by
  obtain ⟨kept, he, -⟩ := eliminate_spec hd h
  exact ⟨kept, he⟩

end Inversion

/-- Without given tables elimination succeeds just if all automata list their start states. -/
theorem exists_eliminate_none_iff {d : Node} (hd : d.BuiltFrom variants) (kind : d.variant = Kind.decoder.variant)
    (w : Workspace) :
    (∃ r w', built (eliminate d none) w = (.ok r, w')) ↔ ∀ a ∈ d.held "dfas", listsStart a = true := by
  rw [← automata_of_decoder kind, ← StateTables.exists_built_build_iff hd (.inl (isA_name kind)) w,
    eliminate_none (Kind.of?_of_variant kind)]
  constructor
  · rintro ⟨r, w', h⟩
    obtain ⟨t, w₁, hbuild, -⟩ := built_bind_eq_ok.mp h
    exact ⟨t, w₁, hbuild⟩
  · rintro ⟨t, w₁, hbuild⟩
    obtain ⟨d', kept, w', hrun, -⟩ := eliminate_some hd kind t w₁
    exact ⟨_, w', built_bind_eq_ok.mpr ⟨t, w₁, hbuild, hrun⟩⟩

/-- Elimination rewrites the automata exactly: one automaton for each one with a live action, in order, with its
    transitions trimmed to their live actions. Of the other fields only the inputs may change. -/
theorem eliminate_automata {d : Node} (hd : d.BuiltFrom variants) {tables : Option StateTables} {w w' : Workspace}
    {r : Optimized} (h : built (eliminate d tables) w = (.ok r, w')) :
    r.decoder.variant = d.variant ∧
      (∃ kept, r.decoder.get "dfas" = .ok (.nodeList kept) ∧ List.Forall₂ (Rebuilt d) (survivors d) kept) ∧
      ∀ name, name ≠ "inputs" → name ≠ "dfas" → r.decoder.get name = d.get name := by
  obtain ⟨kept, hrebuilt, hupd⟩ := eliminated_of_eliminate hd h
  refine ⟨hupd.variant, ⟨kept, hupd.get "dfas", hrebuilt⟩, fun name hi ha => hupd.get_other ?_⟩
  simpa [List.lookup_eq_none_iff] using ⟨hi, ha⟩

/-! ### A decoder with a dead automaton -/

def line : Node := .mk 0 Kind.channel.variant [.int 1, .absent, .absent]

def clock : Node := .mk 1 Kind.channel.variant [.int 1, .absent, .absent]

def spare : Node := .mk 2 Kind.channel.variant [.int 1, .absent, .absent]

def data : Node := .mk 3 Kind.token.variant [.int 8, .bool false, .absent, .absent]

def mark : Node := .mk 4 Kind.token.variant [.int 0, .bool false, .absent, .absent]

def idle : Node := .mk 5 Kind.state.variant [.absent, .absent]

def edge : Node := .mk 6 Kind.externalEvent.variant [.ofMember Edge.rising, .node clock, .absent, .absent]

def shift : Node := .mk 7 Kind.append.variant [.node data, .node line, .absent, .absent]

def report : Node := .mk 8 Kind.emit.variant [.node mark, .absent, .absent]

def step (id : NodeId) (actions : List Node) : Node :=
  .mk id Kind.transition.variant [.node idle, .node idle, .node edge, .nodeList actions, .absent, .absent]

def loop (id : NodeId) (transition : Node) : Node :=
  .mk id Kind.dfa.variant [.node idle, .nodeList [idle], .nodeList [transition], .absent, .absent]

/-- The first automaton shifts data in at every edge of the clock, the second one reports a mark that is no output. -/
def receiver : Node :=
  .mk 13 Kind.decoder.variant [.nodeList [spare, clock, line], .nodeList [data],
    .nodeList [loop 11 (step 9 [report, shift]), loop 12 (step 10 [report])], .absent, .absent]

theorem receiver_builtFrom : receiver.BuiltFrom variants := by decide

theorem eliminate_automata_receiver : receiver.BuiltFrom variants ∧ ∃ r w',
    built (eliminate receiver (some ⟨StateTables.blank⟩)) {} = (.ok r, w') ∧
      (∃ kept, r.decoder.get "dfas" = .ok (.nodeList kept) ∧
        List.Forall₂ (Rebuilt receiver) [loop 11 (step 9 [report, shift])] kept) ∧
      r.decoder.get "outputs" = .ok (.nodeList [data]) := by
  obtain ⟨d', _, w', hrun, -⟩ := eliminate_some receiver_builtFrom rfl ⟨StateTables.blank⟩ {}
  obtain ⟨-, hkept, hothers⟩ := eliminate_automata receiver_builtFrom hrun
  exact ⟨receiver_builtFrom, _, w', hrun, hkept, hothers "outputs" (by decide) (by decide)⟩

/-- Elimination computes the inputs exactly: the first occurrences of the channels of all live appends, then of those
    that the triggers of the automata that stay read. A channel is an input if it is read. -/
theorem eliminate_inputs {d : Node} (hd : d.BuiltFrom variants) {tables : Option StateTables} {w w' : Workspace}
    {r : Optimized} (h : built (eliminate d tables) w = (.ok r, w')) :
    r.decoder.get "inputs" = .ok (.nodeList (appendChannels d ++ triggerChannels d).eraseDups) ∧
      ∀ c : Node, r.decoder.holds "inputs" c = ((appendChannels d).contains c || (triggerChannels d).contains c) := by
  obtain ⟨kept, -, hupd⟩ := eliminated_of_eliminate hd h
  have hget : r.decoder.get "inputs" = .ok (.nodeList (appendChannels d ++ triggerChannels d).eraseDups) :=
    hupd.get "inputs"
  refine ⟨hget, fun c => ?_⟩
  rw [Node.holds, Node.held_of_nodeList hget, contains_eraseDups, List.contains_append]

theorem eliminate_inputs_receiver : receiver.BuiltFrom variants ∧ ∃ r w',
    built (eliminate receiver (some ⟨StateTables.blank⟩)) {} = (.ok r, w') ∧
      r.decoder.get "inputs" = .ok (.nodeList [line, clock]) ∧ r.decoder.holds "inputs" spare = false := by
  obtain ⟨d', _, w', hrun, -⟩ := eliminate_some receiver_builtFrom rfl ⟨StateTables.blank⟩ {}
  obtain ⟨hinputs, hread⟩ := eliminate_inputs receiver_builtFrom hrun
  have htriggers : triggerChannels receiver = [clock] := by
    show triggerReads receiver edge ++ [] ++ [] ++ [] = _
    rw [triggerReads_eq]
    rfl
  refine ⟨receiver_builtFrom, _, w', hrun, ?_, ?_⟩
  · rw [hinputs, htriggers]
    rfl
  · rw [hread, htriggers]
    rfl

end TypedTree.Decoder.Liveness
