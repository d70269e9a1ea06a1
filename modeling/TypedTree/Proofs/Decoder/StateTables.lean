import TypedTree.Decoder.StateTables
import TypedTree.Proofs.Decoder.Program
import TypedTree.Proofs.Metadata.Tables
import TypedTree.Proofs.Run

/-! The state tables of a decoder or an automaton are exact. While the tables are filled they hold, for every state,
    the transitions recorded so far that leave it, those that enter it, and the last recorded automaton that lists it.
    One transition and one automaton each extend what is recorded; a walk records automaton after automaton, and stops
    at the first one that does not list its start state. -/

namespace TypedTree.Decoder

/-! ### Automata and transitions of a tree -/

/-- The automata of a decoder, or the automaton itself. -/
def automata (root : Node) : List Node := if root.isA Kind.decoder.name then root.held "dfas" else [root]

theorem automata_of_decoder {d : Node} (kind : d.variant = Kind.decoder.variant) : automata d = d.held "dfas" :=
  if_pos (isA_name kind)

def transitions (root : Node) : List Node := (automata root).flatMap (·.held "transitions")

/-- Whether the automaton lists its start state among its states. -/
def listsStart (d : Node) : Bool := (d.held "start").all (d.holds "states")

namespace StateTables
open Metadata

/-! ### What the tables record -/

/-- The stored entry is the list of these nodes; nothing is stored for the empty list. -/
def ListedAt (entry : Option Value) (ns : List Node) : Prop := entry = some (.nodeList ns) ∨ (entry = none ∧ ns = [])

/-- The table lists, for every state, the transitions that have the state in the field. -/
def Lists (r : Repository) (name field : String) (ts : List Node) : Prop :=
  ∃ entries, r.table name = .ok { transitionsTable name with entries } ∧
    ∀ s : Node, ListedAt (entries.get? s.id) (ts.filter (·.holds field s))

/-- The table has, for every state, the last automaton that lists the state. -/
def Assigns (r : Repository) (ds : List Node) : Prop :=
  ∃ entries, r.table automatonName = .ok { automataTable with entries } ∧
    ∀ s : Node, entries.get? s.id = (ds.reverse.find? (·.holds "states" s)).map .node

/-- The tables record the transitions and the automata. -/
structure Records (r : Repository) (ts ds : List Node) : Prop where
  outgoing : Lists r outgoingName "source" ts
  incoming : Lists r incomingName "destination" ts
  automaton : Assigns r ds

theorem Lists.of_table {r r' : Repository} {name field : String} {ts : List Node} (h : Lists r name field ts)
    (ht : r'.table name = r.table name) : Lists r' name field ts := by
  obtain ⟨entries, hr, he⟩ := h
  exact ⟨entries, ht.trans hr, he⟩

theorem Assigns.of_table {r r' : Repository} {ds : List Node} (h : Assigns r ds)
    (ht : r'.table automatonName = r.table automatonName) : Assigns r' ds := by
  obtain ⟨entries, hr, he⟩ := h
  exact ⟨entries, ht.trans hr, he⟩

theorem ListedAt.appended {entry : Option Value} {ns : List Node} (h : ListedAt entry ns) (n : Node) :
    Table.appended (.node n) entry = .nodeList (ns ++ [n]) := by
  rcases h with rfl | ⟨rfl, rfl⟩
  · simp [Table.appended, Value.nodeList]
  · rfl

theorem Lists.add {r : Repository} {name field : String} {ts : List Node} (h : Lists r name field ts) {n s : Node}
    (hn : n.isA "Transition" = true) (hs : n.getNode field = .ok s) (hstate : s.isA "State" = true) :
    ∃ r', r.add name s (.node n) = .ok r' ∧ Lists r' name field (ts ++ [n]) ∧
      ∀ other ≠ name, r'.table other = r.table other := by
  obtain ⟨entries, hr, he⟩ := h
  have hadd := Table.add_eq_ok (t := { transitionsTable name with entries }) (v := .node n) hstate
    (show _ = some (FieldType.node "Transition") from rfl) hn rfl
  obtain ⟨r', hrun, ht, hframe⟩ := Repository.table_update (f := (·.add s (.node n))) hr hadd
  refine ⟨r', hrun, ⟨_, ht, fun other => ?_⟩, hframe⟩
  rw [OrderedMap.get?_insert, List.filter_append, List.filter_singleton, Node.holds_of_getNode hs, Node.beq_eq]
  -- The state may be another copy of `s`: entries and fields know states by identity.
  by_cases hid : other.id = s.id
  · rw [if_pos hid, decide_eq_true hid, cond_true]
    simp only [Node.holds_congr hid]
    exact Or.inl (congrArg some ((he s).appended n))
  · rw [if_neg hid, decide_eq_false hid, cond_false, List.append_nil]
    exact he other

/-- States are assigned to one automaton, one after the other. -/
theorem setAll {r : Repository} {entries : OrderedMap NodeId Value}
    (hr : r.table automatonName = .ok { automataTable with entries }) {d : Node} (hd : d.isA "DFA" = true)
    {ss : List Node} (hss : ∀ s ∈ ss, s.isA "State" = true) :
    ∃ r' entries', ss.foldlM (fun r s => r.set automatonName s (.node d)) r = .ok r' ∧
      r'.table automatonName = .ok { automataTable with entries := entries' } ∧
      (∀ s : Node, entries'.get? s.id = if ss.contains s then some (.node d) else entries.get? s.id) ∧
      ∀ other ≠ automatonName, r'.table other = r.table other := by
  induction ss generalizing r entries with
  | nil => exact ⟨r, entries, rfl, hr, fun _ => rfl, fun _ _ => rfl⟩
  | cons c ss ih =>
    have hset := Table.set_eq_ok (t := { automataTable with entries }) (n := c) (v := .node d)
      (hss c List.mem_cons_self) hd rfl
    obtain ⟨r₁, hrun, ht, hframe⟩ := Repository.table_update (f := (·.set c (.node d))) hr hset
    obtain ⟨r', entries', hrest, ht', hget, hframe'⟩ := ih ht fun s hs => hss s (List.mem_cons_of_mem _ hs)
    refine ⟨r', entries', ?_, ht', fun s => ?_, fun other hne => (hframe' other hne).trans (hframe other hne)⟩
    · rw [List.foldlM_cons, Repository.set, hrun]
      exact hrest
    · rw [hget, OrderedMap.get?_insert, List.contains_cons, Node.beq_eq]
      by_cases hs : ss.contains s = true
      · simp [hs]
      · by_cases hid : s.id = c.id <;> simp [hs, hid]

theorem Assigns.add {r : Repository} {ds : List Node} (h : Assigns r ds) {d : Node} (hd : d.isA "DFA" = true)
    (hss : ∀ s ∈ d.held "states", s.isA "State" = true) :
    ∃ r', (d.held "states").foldlM (fun r s => r.set automatonName s (.node d)) r = .ok r' ∧ Assigns r' (ds ++ [d]) ∧
      ∀ other ≠ automatonName, r'.table other = r.table other := by
  obtain ⟨entries, hr, he⟩ := h
  obtain ⟨r', entries', hrun, ht, hget, hframe⟩ := setAll hr hd hss
  refine ⟨r', hrun, ⟨entries', ht, fun s => ?_⟩, hframe⟩
  rw [hget, List.reverse_append, List.reverse_singleton, List.singleton_append, List.find?_cons, Node.holds]
  cases (d.held "states").contains s with
  | true => rfl
  | false => exact he s

/-! ### Steps -/

namespace Tally
variable {t : Tally} {ts ds : List Node}

theorem addTransition_records (h : Records t.repository ts ds) {n : Node} (hn : n.BuiltFrom variants)
    (hk : n.isA "Transition" = true) :
    ∃ t', t.addTransition n = .ok t' ∧ Records t'.repository (ts ++ [n]) ds := by
  have kind := variant_of_isA hn .transition hk
  obtain ⟨source, hsource, -, hsourceState, -⟩ := reads_node hn kind "source" rfl
  obtain ⟨destination, hdestination, -, hdestinationState, -⟩ := reads_node hn kind "destination" rfl
  obtain ⟨r₁, hrun₁, hout, hframe₁⟩ := h.outgoing.add hk hsource hsourceState
  have hin := h.incoming.of_table (hframe₁ incomingName (by decide))
  obtain ⟨r₂, hrun₂, hin, hframe₂⟩ := hin.add hk hdestination hdestinationState
  refine ⟨{ t with repository := r₂, transitions := t.transitions + 1 }, ?_, ?_⟩
  · simp only [addTransition, hsource, hdestination, hrun₁, hrun₂, ok_bind]
    rfl
  · exact ⟨hout.of_table (hframe₂ outgoingName (by decide)), hin,
      h.automaton.of_table ((hframe₂ automatonName (by decide)).trans (hframe₁ automatonName (by decide)))⟩

theorem addTransitions_records (h : Records t.repository ts ds) {ns : List Node}
    (hns : ∀ n ∈ ns, n.isA "Transition" = true ∧ n.BuiltFrom variants) :
    ∃ t', ns.foldlM addTransition t = .ok t' ∧ Records t'.repository (ts ++ ns) ds := by
  induction ns generalizing t ts with
  | nil => exact ⟨t, rfl, by rwa [List.append_nil]⟩
  | cons n ns ih =>
    obtain ⟨hn, hb⟩ := hns n List.mem_cons_self
    obtain ⟨t₁, hrun, h₁⟩ := addTransition_records h hb hn
    obtain ⟨t', hrest, h'⟩ := ih h₁ fun m hm => hns m (List.mem_cons_of_mem _ hm)
    refine ⟨t', ?_, by rwa [List.append_cons]⟩
    rw [List.foldlM_cons, hrun]
    exact hrest

/-- An automaton that lists its start state is recorded for its states; another one stops the walk. -/
theorem addAutomaton_records (h : Records t.repository ts ds) {d : Node} (hd : d.BuiltFrom variants)
    (hk : d.isA "DFA" = true) :
    if listsStart d then ∃ t', t.addAutomaton d = .ok t' ∧ Records t'.repository ts (ds ++ [d])
    else t.addAutomaton d = .error (.pass (.startNotInStates d.id)) := by
  have kind := variant_of_isA hd .dfa hk
  obtain ⟨start, hstart, hheld, -, -⟩ := reads_node hd kind "start" rfl
  obtain ⟨hstates, hss⟩ := reads_nodes hd kind "states" rfl
  have hlists : listsStart d = (d.held "states").contains start := by
    simp [listsStart, hheld, Node.holds]
  simp only [addAutomaton, hstart, hstates, hlists, ok_bind]
  by_cases hmem : (d.held "states").contains start = true
  · rw [if_pos hmem, if_pos hmem]
    obtain ⟨r', hrun, hassigns, hframe⟩ := h.automaton.add hk fun s hs => (hss s hs).1
    refine ⟨{ t with repository := r', states := t.states + (d.held "states").length }, ?_, ?_⟩
    · rw [hrun]
      rfl
    · exact ⟨h.outgoing.of_table (hframe outgoingName (by decide)), h.incoming.of_table (hframe incomingName (by decide)),
        hassigns⟩
  · rw [if_neg hmem, if_neg hmem]
    rfl

/-! ### Walks -/

theorem visit_transition {n : Node} (hn : n.BuiltFrom variants) (hk : n.isA "Transition" = true) (t : Tally) :
    t.visit n = t.addTransition n := by
  rw [visit, Kind.of?_of_variant (variant_of_isA hn .transition hk)]

/-- Going down a field does to the nodes of the field what is done to each of them. -/
theorem foldlM_descend {n : Node} {ns : List n.Smaller} {f g : Tally → Node → Except Error Tally}
    (h : ∀ c ∈ ns.map (·.1), ∀ t, f t c = g t c) (t : Tally) :
    ns.foldlM (fun t c => f t c.1) t = (ns.map (·.1)).foldlM g t := by
  induction ns generalizing t with
  | nil => rfl
  | cons c ns ih =>
    rw [List.map_cons, List.foldlM_cons, List.foldlM_cons, h c.1 List.mem_cons_self]
    exact congrArg _ (funext fun t => ih (fun c hc => h c (List.mem_cons_of_mem _ hc)) t)

theorem visit_automaton {d : Node} (hd : d.BuiltFrom variants) (hk : d.isA "DFA" = true) (t : Tally) :
    t.visit d = (d.held "transitions").foldlM addTransition t >>= fun t => t.addAutomaton d := by
  have kind := variant_of_isA hd .dfa hk
  obtain ⟨hreads, hts⟩ := reads_nodes hd kind "transitions" rfl
  obtain ⟨ns, hdescend, hmap⟩ := Node.descendAll_of_getNodes hreads
  have hvisit : ∀ n ∈ ns.map (·.1), ∀ t, visit t n = addTransition t n := fun n hn t => by
    obtain ⟨hk, hb⟩ := hts n (hmap ▸ hn)
    exact visit_transition hb hk t
  rw [visit, Kind.of?_of_variant kind]
  simp only [hdescend, ok_bind]
  rw [foldlM_descend hvisit, hmap]

theorem visit_automaton_records {t : Tally} {ts ds : List Node} (h : Records t.repository ts ds) {d : Node}
    (hd : d.BuiltFrom variants) (hk : d.isA "DFA" = true) :
    if listsStart d then ∃ t', t.visit d = .ok t' ∧ Records t'.repository (ts ++ d.held "transitions") (ds ++ [d])
    else t.visit d = .error (.pass (.startNotInStates d.id)) := by
  obtain ⟨-, hns⟩ := reads_nodes hd (variant_of_isA hd .dfa hk) "transitions" rfl
  obtain ⟨t₁, hrun, h₁⟩ := addTransitions_records h hns
  rw [visit_automaton hd hk, hrun]
  exact addAutomaton_records h₁ hd hk

/-- A walk over automata records them up to the first one that does not list its start state. -/
theorem visit_automata_records {t : Tally} {ts ds : List Node} (h : Records t.repository ts ds) {rest : List Node}
    (hrest : ∀ d ∈ rest, d.isA "DFA" = true ∧ d.BuiltFrom variants) :
    match rest.find? (fun d => !listsStart d) with
    | some d => rest.foldlM visit t = .error (.pass (.startNotInStates d.id))
    | none => ∃ t', rest.foldlM visit t = .ok t' ∧
        Records t'.repository (ts ++ rest.flatMap (·.held "transitions")) (ds ++ rest) := by
  -- What is recorded grows with each automaton, so it is not fixed in the induction.
  induction rest generalizing t ts ds with
  | nil => exact ⟨t, rfl, by simpa using h⟩
  | cons d rest ih =>
    obtain ⟨hk, hd⟩ := hrest d List.mem_cons_self
    have hstep := visit_automaton_records h hd hk
    rw [List.find?_cons, List.foldlM_cons, List.flatMap_cons]
    cases hstart : listsStart d with
    | false =>
      rw [hstart] at hstep
      rw [show t.visit d = _ from hstep]
      rfl
    | true =>
      rw [hstart] at hstep
      obtain ⟨t₁, hrun, h₁⟩ := hstep
      have hih := ih h₁ fun d hd => hrest d (List.mem_cons_of_mem _ hd)
      simp only [hrun, Bool.not_true, ok_bind]
      rwa [List.append_assoc, List.append_assoc] at hih

theorem ofTree_eq {root : Node} (hroot : root.BuiltFrom variants)
    (hk : root.isA Kind.decoder.name = true ∨ root.isA Kind.dfa.name = true) :
    (∀ d ∈ automata root, d.isA "DFA" = true ∧ d.BuiltFrom variants) ∧
      ofTree root = (automata root).foldlM visit {} := by
  rcases hk with hk | hk
  · have kind := variant_of_isA hroot .decoder hk
    obtain ⟨hreads, hds⟩ := reads_nodes hroot kind "dfas" rfl
    obtain ⟨ns, hdescend, hmap⟩ := Node.descendAll_of_getNodes hreads
    rw [automata, if_pos hk]
    refine ⟨hds, ?_⟩
    rw [ofTree, Kind.of?_of_variant kind]
    show visit {} root = _
    rw [visit, Kind.of?_of_variant kind]
    simp only [hdescend, ok_bind]
    rw [foldlM_descend fun _ _ _ => rfl, hmap]
  · have kind := variant_of_isA hroot .dfa hk
    have hnot : ¬root.isA Kind.decoder.name = true := by
      rw [isA_of_variant kind]
      decide
    rw [automata, if_neg hnot]
    refine ⟨by simp [hroot, show root.isA "DFA" = true from hk], ?_⟩
    rw [ofTree, Kind.of?_of_variant kind, List.foldlM_cons]
    exact (bind_pure _).symm

end Tally

/-! ### Tables -/

theorem blank_records : Records blank [] [] where
  outgoing := ⟨.empty, rfl, fun _ => .inr ⟨rfl, rfl⟩⟩
  incoming := ⟨.empty, rfl, fun _ => .inr ⟨rfl, rfl⟩⟩
  automaton := ⟨.empty, rfl, fun _ => rfl⟩

/-- The tables of a tree are filled unless an automaton does not list its start state; the first such one stops it. -/
theorem ofTree_records {root : Node} (hroot : root.BuiltFrom variants)
    (hk : root.isA Kind.decoder.name = true ∨ root.isA Kind.dfa.name = true) :
    match (automata root).find? (fun d => !listsStart d) with
    | some d => Tally.ofTree root = .error (.pass (.startNotInStates d.id))
    | none => ∃ t, Tally.ofTree root = .ok t ∧ Records t.repository (transitions root) (automata root) := by
  obtain ⟨hds, htree⟩ := Tally.ofTree_eq hroot hk
  rw [htree]
  exact Tally.visit_automata_records (t := {}) blank_records hds

section Locked
variable {r : Repository} {s : Node} (hs : s.isA "State" = true)
include hs

theorem Lists.getNodes {name field : String} {ts : List Node} (h : Lists r name field ts) :
    (do (← r.locked.table name).getNodes s) = Except.ok (ts.filter (·.holds field s)) := by
  obtain ⟨entries, hr, he⟩ := h
  rw [Repository.table_locked, hr]
  have hget : Table.get (Table.lock { transitionsTable name with entries }) s =
      .ok (.nodeList (ts.filter (·.holds field s))) := by
    rcases he s with hentry | ⟨hentry, hnil⟩
    · exact Table.get_of_entry hs hentry
    · rw [Table.get_of_no_entry hs hentry, hnil]
      rfl
  show (Table.lock { transitionsTable name with entries }).getNodes s = _
  rw [Table.getNodes, hget]
  exact congrArg Except.ok (Node.nodes_nodeList _)

theorem Assigns.getNode {ds : List Node} (h : Assigns r ds) :
    (do (← r.locked.table automatonName).getNode s) = match ds.reverse.find? (·.holds "states" s) with
      | some d => Except.ok d
      | none => .error (.metadata (.notSet automatonName s.id)) := by
  obtain ⟨entries, hr, he⟩ := h
  rw [Repository.table_locked, hr]
  show (Table.lock { automataTable with entries }).getNode s = _
  have hentry := he s
  cases hfind : ds.reverse.find? (·.holds "states" s) with
  | some d =>
    rw [hfind] at hentry
    rw [Table.getNode, Table.get_of_entry (t := Table.lock { automataTable with entries }) hs hentry]
    rfl
  | none =>
    rw [hfind] at hentry
    rw [Table.getNode, Table.get_of_no_entry (t := Table.lock { automataTable with entries }) hs hentry]
    rfl

end Locked

theorem Records.locked {r : Repository} {ts ds : List Node} (h : Records r ts ds) :
    ∀ name ∈ [outgoingName, incomingName, automatonName], ∃ table,
      r.locked.table name = .ok table ∧ table.locked = true := by
  obtain ⟨⟨out, hout, -⟩, ⟨inc, hinc, -⟩, ⟨aut, haut, -⟩⟩ := h
  simp only [Repository.table_locked, List.forall_mem_cons, hout, hinc, haut]
  exact ⟨⟨_, rfl, rfl⟩, ⟨_, rfl, rfl⟩, ⟨_, rfl, rfl⟩, by simp⟩

/-- What is in the tables, and whether there are any, does not depend on the workspace. -/
theorem fst_built_build (root : Node) (w : Workspace) :
    (built (build root) w).1 = (Tally.ofTree root).map fun t => ⟨t.repository.locked⟩ := by
  rw [build]
  cases Tally.ofTree root <;> rfl

/-- Building stops at the first automaton that does not list its start state. -/
theorem fst_built_build_eq_error {root d : Node} (hroot : root.BuiltFrom variants)
    (hk : root.isA Kind.decoder.name = true ∨ root.isA Kind.dfa.name = true)
    (hd : (automata root).find? (fun d => !listsStart d) = some d) (w : Workspace) :
    (built (build root) w).1 = .error (.pass (.startNotInStates d.id)) := by
  have hwalk := ofTree_records hroot hk
  rw [hd] at hwalk
  rw [fst_built_build, show Tally.ofTree root = _ from hwalk]
  rfl

theorem nextId_built_build (root : Node) (w : Workspace) : (built (build root) w).2.nextId = w.nextId := by
  rw [build]
  cases Tally.ofTree root <;> rfl

/-- The tables are built just if all automata list their start states. -/
theorem exists_built_build_iff {root : Node} (hroot : root.BuiltFrom variants)
    (hk : root.isA Kind.decoder.name = true ∨ root.isA Kind.dfa.name = true) (w : Workspace) :
    (∃ tables w', built (build root) w = (.ok tables, w')) ↔ ∀ d ∈ automata root, listsStart d = true := by
  have hresult : (∃ tables w', built (build root) w = (.ok tables, w')) ↔ ∃ t, Tally.ofTree root = .ok t := by
    have hfst := fst_built_build root w
    constructor
    · rintro ⟨tables, w', h⟩
      rw [h] at hfst
      cases ht : Tally.ofTree root with
      | error e => rw [ht] at hfst; cases hfst
      | ok t => exact ⟨t, rfl⟩
    · rintro ⟨t, ht⟩
      rw [ht] at hfst
      exact ⟨⟨t.repository.locked⟩, (built (build root) w).2, Prod.ext hfst rfl⟩
  have hwalk := ofTree_records hroot hk
  rw [hresult]
  cases hfind : (automata root).find? (fun d => !listsStart d) with
  | some d =>
    rw [hfind] at hwalk
    refine iff_of_false (fun ⟨t, ht⟩ => ?_) fun hall => ?_
    · rw [show Tally.ofTree root = _ from hwalk] at ht
      cases ht
    · have hstart := List.find?_some hfind
      rw [hall d (List.mem_of_find?_eq_some hfind)] at hstart
      cases hstart
  | none =>
    rw [hfind] at hwalk
    obtain ⟨t, ht, -⟩ := hwalk
    exact iff_of_true ⟨t, ht⟩ fun d hd => by simpa using List.find?_eq_none.mp hfind d hd

/-- The state tables are exact. Building them fails with the first automaton that does not list its start state, and
    succeeds if there is none. Then every state, in the tree or not, has as its lists the transitions that leave it and
    that enter it, and as its automaton the last one that lists it; the tables are locked. -/
theorem build_exact {root : Node} (hroot : root.BuiltFrom variants)
    (hk : root.isA Kind.decoder.name = true ∨ root.isA Kind.dfa.name = true) (w : Workspace) :
    match (automata root).find? (fun d => !listsStart d) with
    | some d => (built (build root) w).1 = .error (.pass (.startNotInStates d.id))
    | none => ∃ tables w', built (build root) w = (.ok tables, w') ∧
        (∀ s : Node, s.isA Kind.state.name = true →
          tables.outgoing s = .ok ((transitions root).filter (·.holds "source" s)) ∧
          tables.incoming s = .ok ((transitions root).filter (·.holds "destination" s)) ∧
          tables.automaton s = match (automata root).reverse.find? (·.holds "states" s) with
            | some d => .ok d
            | none => .error (.metadata (.notSet automatonName s.id))) ∧
        ∀ name ∈ [outgoingName, incomingName, automatonName], ∃ table,
          tables.repository.table name = .ok table ∧ table.locked = true := by
  have hwalk := ofTree_records hroot hk
  cases hfind : (automata root).find? (fun d => !listsStart d) with
  | some d =>
    rw [hfind] at hwalk
    show (built (build root) w).1 = _
    rw [build, show Tally.ofTree root = _ from hwalk]
    rfl
  | none =>
    rw [hfind] at hwalk
    obtain ⟨t, hrun, hrec⟩ := hwalk
    refine ⟨⟨t.repository.locked⟩, (built (build root) w).2, ?_, fun s hs => ⟨?_, ?_, ?_⟩, ?_⟩
    · rw [build, hrun]
      rfl
    · exact hrec.outgoing.getNodes hs
    · exact hrec.incoming.getNodes hs
    · exact hrec.automaton.getNode hs
    · exact hrec.locked

/-! ### A loop -/

def idle : Node := .mk 0 Kind.state.variant [.absent, .absent]

def tick : Node :=
  .mk 2 Kind.transition.variant [.node idle, .node idle,
    .node (.mk 1 Kind.delayedEvent.variant [.int 1, .absent, .absent]), .nodeList [], .absent, .absent]

/-- An automaton of one state with a transition back to itself, listed twice. -/
def clock : Node :=
  .mk 3 Kind.dfa.variant [.node idle, .nodeList [idle], .nodeList [tick, tick], .absent, .absent]

theorem clock_builtFrom : clock.BuiltFrom variants := by decide

theorem build_exact_clock : clock.BuiltFrom variants ∧ clock.isA Kind.dfa.name = true ∧ ∃ tables w',
    built (build clock) {} = (.ok tables, w') ∧ tables.outgoing idle = .ok [tick, tick] ∧
      tables.incoming idle = .ok [tick, tick] ∧ tables.automaton idle = .ok clock := by
  have hexact := build_exact clock_builtFrom (Or.inr rfl) {}
  obtain ⟨tables, w', hrun, hstates, -⟩ := hexact
  exact ⟨clock_builtFrom, rfl, tables, w', hrun, hstates idle rfl⟩

end StateTables
end TypedTree.Decoder
