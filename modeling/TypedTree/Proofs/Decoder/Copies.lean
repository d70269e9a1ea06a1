import TypedTree.Proofs.Decoder.StateGraph
import TypedTree.Proofs.Tree.Copying

/-! Copies of decoders. A decoder says by sharing which states its automata start in and where its transitions lead: one
    node stands for a state at all these places. A copy has a node of its own at each place, so it has the automata and
    the transitions of the decoder, one by one, but none of its automata lists its start state, and none of its
    transitions joins a state that is listed. -/

namespace TypedTree.Decoder.StateTables
open Liveness Node

/-! ### Decoders that share nothing -/

section Unshared
variable {d a s : Node}

/-- Where nothing is shared, the start state is none of the states listed. -/
theorem not_listsStart (ha : a.BuiltFrom variants) (kind : a.variant = Kind.dfa.variant) (h : a.Unshared) :
    listsStart a = false := by
  obtain ⟨start, -, hstart, -, -⟩ := reads_node ha kind "start" rfl
  have hchildren : a.children = start :: (a.held "states" ++ (a.held "transitions" ++ (a.held "dbg" ++ []))) := by
    rw [ha.fits.children_eq (by rw [kind]; decide), kind]
    show a.held "start" ++ _ = _
    rw [hstart]
    rfl
  have hnodup := h.children
  rw [hchildren, List.map_cons, List.nodup_cons, List.map_append] at hnodup
  have hnot : start.id ∉ (a.held "states").map Node.id := fun hmem => hnodup.1 (List.mem_append_left _ hmem)
  rw [listsStart, hstart, List.all_cons, List.all_nil, Bool.and_true, Node.holds, contains_eq_id_mem]
  exact decide_eq_false hnot

variable (hd : d.BuiltFrom variants) (kind : d.variant = Kind.decoder.variant) (h : d.Unshared)
include hd kind h

/-- The first automaton of a decoder that shares nothing stops the walk over it. -/
theorem build_of_unshared (w : Workspace) :
    match d.held "dfas" with
    | [] => ∃ tables, (built (build d) w).1 = .ok tables
    | a :: _ => (built (build d) w).1 = .error (.pass (.startNotInStates a.id)) := by
  have hwalk := ofTree_records hd (.inl (isA_name kind))
  rw [automata_of_decoder kind] at hwalk
  obtain ⟨-, hdfas⟩ := reads_nodes hd kind "dfas" rfl
  have hchild : ∀ a ∈ d.held "dfas", a.Unshared := fun a ha => h.child (mem_children_of_mem_held ha)
  rw [fst_built_build]
  cases hlist : d.held "dfas" with
  | nil =>
    rw [hlist] at hwalk
    obtain ⟨t, htree, -⟩ := hwalk
    exact ⟨_, congrArg (Except.map _) htree⟩
  | cons a rest =>
    have ha : a ∈ d.held "dfas" := hlist ▸ List.mem_cons_self
    have hstart := not_listsStart (hdfas a ha).2 (variant_of_isA (hdfas a ha).2 .dfa (hdfas a ha).1) (hchild a ha)
    rw [hlist, List.find?_cons_of_pos (by rw [hstart]; rfl)] at hwalk
    exact congrArg (Except.map _) hwalk

/-- Where nothing is shared, no transition joins a state that an automaton lists. -/
theorem joining_of_unshared (ha : a ∈ d.held "dfas") (hs : s ∈ a.held "states") (field : String) :
    joining field (d.held "dfas") s = [] := by
  obtain ⟨-, hdfas⟩ := reads_nodes hd kind "dfas" rfl
  refine List.filter_eq_nil_iff.mpr fun t ht hjoins => ?_
  obtain ⟨b, hb, ht⟩ := List.mem_flatMap.mp ht
  rw [Node.holds, List.contains_eq_any_beq, List.any_eq_true] at hjoins
  obtain ⟨c, hc, hid⟩ := hjoins
  -- The state would be held by a transition and by an automaton.
  have haIn : a ∈ d.occurrences := mem_occurrences_of_holder d.self_mem_occurrences (mem_children_of_mem_held ha)
  have hbIn : b ∈ d.occurrences := mem_occurrences_of_holder d.self_mem_occurrences (mem_children_of_mem_held hb)
  have htIn : t ∈ d.occurrences := mem_occurrences_of_holder hbIn (mem_children_of_mem_held ht)
  have heq := h.holder_eq d haIn htIn (mem_children_of_mem_held hs) (mem_children_of_mem_held hc) (beq_iff.mp hid)
  obtain ⟨hbk, hbb⟩ := hdfas b hb
  obtain ⟨-, hts⟩ := reads_nodes hbb (variant_of_isA hbb .dfa hbk) "transitions" rfl
  have hak := variant_of_isA (hdfas a ha).2 .dfa (hdfas a ha).1
  have htk := variant_of_isA (hts t ht).2 .transition (hts t ht).1
  rw [← heq, hak] at htk
  exact absurd (congrArg Variant.name htk) (by decide)

end Unshared

/-! ### Copies -/

/-- Copying a decoder always succeeds, and never keeps the state graph of its automata. The copy is a decoder again, with
    a new node at every place, numbered in order. It has a copy of every automaton at its position, with a copy of every
    transition at its position. No transition of the copy leaves or enters a state that is listed, and its tables can be
    computed only if it has no automata: otherwise its first automaton does not list its start state. -/
theorem build_copy {d : Node} (hd : d.BuiltFrom variants) (kind : d.variant = Kind.decoder.variant) (w : Workspace) :
    ∃ d', built d.copy w = (.ok d', { w with nextId := w.nextId + d.occurrences.length }) ∧
      d'.BuiltFrom variants ∧ d'.variant = Kind.decoder.variant ∧
      d'.occurrences.map Node.id = List.range' w.nextId d.occurrences.length ∧
      List.Forall₂ (fun a a' => a.CopyOf a' ∧ List.Forall₂ CopyOf (a.held "transitions") (a'.held "transitions"))
        (d.held "dfas") (d'.held "dfas") ∧
      (∀ a' ∈ d'.held "dfas", ∀ s ∈ a'.held "states",
        joining "source" (d'.held "dfas") s = [] ∧ joining "destination" (d'.held "dfas") s = []) ∧
      ∀ v, match d'.held "dfas" with
        | [] => ∃ tables, (built (build d') v).1 = .ok tables
        | a' :: _ => (built (build d') v).1 = .error (.pass (.startNotInStates a'.id)) := by
  have hfits : d.Everywhere Fits := hd.fits_everywhere
  obtain ⟨d', hrun, hids, hcopied⟩ := copy_numbers d hfits w
  rw [show d.ids.length = d.occurrences.length from List.length_map _] at hrun hids
  have hcopy : d.CopyOf d' := ⟨w, _, hrun⟩
  have hb := builtFrom_of_copyOf d d' hd hcopy
  have hkind := hcopied.variant.trans kind
  have hunshared := unshared_of_copyOf hcopy hfits
  refine ⟨d', hrun, hb, hkind, hids, ?_, fun a' ha' s hs => ⟨?_, ?_⟩, build_of_unshared hb hkind hunshared⟩
  · refine forall₂_imp_of_mem (hcopy.held hfits "dfas") fun a ha a' _ hc => ⟨hc, ?_⟩
    exact hc.held (hfits.held ha) "transitions"
  · exact joining_of_unshared hb hkind hunshared ha' hs "source"
  · exact joining_of_unshared hb hkind hunshared ha' hs "destination"

/-- A decoder with the clock as its only automaton. -/
def clockwork : Node := .mk 4 Kind.decoder.variant [.nodeList [], .nodeList [], .nodeList [clock], .absent, .absent]

theorem clockwork_builtFrom : clockwork.BuiltFrom variants := by decide

theorem built_build_clockwork : ∃ tables w', built (build clockwork) { nextId := 5 } = (.ok tables, w') :=
  (exists_built_build_iff clockwork_builtFrom (.inl rfl) _).mpr (by decide)

/-- A copy of the clockwork has one automaton, too. -/
theorem held_copy_clockwork {R : Node → Node → Prop} {d' : Node}
    (h : List.Forall₂ R (clockwork.held "dfas") (d'.held "dfas")) : ∃ a', d'.held "dfas" = [a'] := by
  obtain ⟨a', rest, -, hrest, hlist⟩ := List.forall₂_cons_left_iff.mp h
  rw [List.forall₂_nil_left_iff.mp hrest] at hlist
  exact ⟨a', hlist⟩

/-- The tables of the clockwork can be computed, those of a copy of it cannot. -/
theorem build_copy_clockwork_fails : clockwork.BuiltFrom variants ∧
    (∃ tables w', built (build clockwork) { nextId := 5 } = (.ok tables, w')) ∧
    ∃ d' w', built clockwork.copy { nextId := 5 } = (.ok d', w') ∧
      ∃ a', d'.held "dfas" = [a'] ∧ (built (build d') w').1 = .error (.pass (.startNotInStates a'.id)) := by
  have hfits : clockwork.Everywhere Fits := clockwork_builtFrom.fits_everywhere
  obtain ⟨d', hrun, -, hcopied⟩ := copy_numbers clockwork hfits { nextId := 5 }
  have hcopy : clockwork.CopyOf d' := ⟨_, _, hrun⟩
  obtain ⟨a', hlist⟩ := held_copy_clockwork (hcopy.held hfits "dfas")
  have hfails := build_of_unshared (builtFrom_of_copyOf _ _ clockwork_builtFrom hcopy) hcopied.variant
    (unshared_of_copyOf hcopy hfits)
  rw [hlist] at hfails
  exact ⟨clockwork_builtFrom, built_build_clockwork, d', _, hrun, a', hlist, hfails _⟩

/-- A walk over the copy stops at its only automaton. -/
theorem build_copy_clockwork : clockwork.BuiltFrom variants ∧ clockwork.variant = Kind.decoder.variant ∧
    ∃ d' a', built clockwork.copy { nextId := 5 } = (.ok d', { nextId := 5 + clockwork.occurrences.length }) ∧
      d'.held "dfas" = [a'] ∧ (∀ s ∈ a'.held "states", joining "source" [a'] s = []) ∧
      (built (build d') {}).1 = .error (.pass (.startNotInStates a'.id)) := by
  obtain ⟨d', hrun, -, -, -, hdfas, hjoining, hfails⟩ := build_copy clockwork_builtFrom rfl { nextId := 5 }
  obtain ⟨a', hlist⟩ := held_copy_clockwork hdfas
  rw [hlist] at hjoining hfails
  refine ⟨clockwork_builtFrom, rfl, d', a', hrun, hlist, fun s hs => ?_, hfails {}⟩
  exact (hjoining a' (List.mem_singleton.mpr rfl) s hs).1

end TypedTree.Decoder.StateTables
