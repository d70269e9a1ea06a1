import Mathlib.Data.List.Flatten
import TypedTree.Proofs.Decoder.Elimination

/-! Elimination with more outputs. More outputs make more actions live, so automata that stayed still stay, transitions
    keep at least the actions they kept, and every channel that was read is still read. A trigger reads more channels
    only through the live appends of the transitions in it. -/

namespace TypedTree.Decoder.Liveness

/-- `d'` is the decoder `d` with other inputs and other outputs, the outputs of `d` by identity among them. -/
structure MoreOutputs (d d' : Node) : Prop where
  variant : d'.variant = d.variant
  others : ∀ name, name ≠ "inputs" → name ≠ "outputs" → d'.get name = d.get name
  outputs : ∀ t ∈ d.held "outputs", d'.holds "outputs" t = true

/-! ### What is live and what is read -/

namespace MoreOutputs
variable {d d' : Node} (h : MoreOutputs d d')
include h

theorem dfas : d'.held "dfas" = d.held "dfas" := Node.held_congr (h.others "dfas" (by decide) (by decide))

theorem live {action : Node} (hl : live d action = true) : live d' action = true := by
  rw [Liveness.live, List.any_eq_true] at hl ⊢
  obtain ⟨token, htoken, hout⟩ := hl
  refine ⟨token, htoken, ?_⟩
  -- The token is an output under the identity that it shares with one of the nodes listed.
  rw [Node.holds, List.contains_eq_any_beq, List.any_eq_true] at hout
  obtain ⟨output, hmem, hid⟩ := hout
  rw [Node.holds_congr (Node.beq_iff.mp hid)]
  exact h.outputs output hmem

theorem liveActions_sublist (t : Node) : (liveActions d t).Sublist (liveActions d' t) :=
  List.monotone_filter_right _ fun _ => h.live

theorem hasLive {a : Node} (ha : hasLive d a = true) : hasLive d' a = true := by
  rw [Liveness.hasLive, List.any_eq_true] at ha ⊢
  obtain ⟨t, ht, hlive⟩ := ha
  rw [List.any_eq_true] at hlive
  obtain ⟨action, haction, hlive⟩ := hlive
  exact ⟨t, ht, List.any_eq_true.mpr ⟨action, haction, h.live hlive⟩⟩

theorem survivors_sublist : (survivors d).Sublist (survivors d') := by
  rw [survivors, survivors, h.dfas]
  exact List.monotone_filter_right _ fun _ => h.hasLive

theorem appendReads_sublist (t : Node) : (appendReads d t).Sublist (appendReads d' t) :=
  ((h.liveActions_sublist t).filter _).flatMap _

theorem triggerReads_sublist (n : Node) : (triggerReads d n).Sublist (triggerReads d' n) := by
  have inner : ∀ name, ((n.held name).flatMap (triggerReads d)).Sublist ((n.held name).flatMap (triggerReads d')) :=
    fun name => List.Sublist.flatMap_right _ fun c hc => by
      have := Node.sizeOf_lt_of_mem_held hc
      exact triggerReads_sublist c
  rw [triggerReads_eq, triggerReads_eq]
  split
  · exact .refl _
  · exact .refl _
  · exact .refl _
  · exact (inner "trigger").append (.refl _)
  · exact (inner "guard").append (inner "trigger")
  · exact (inner "left").append (inner "right")
  · exact h.appendReads_sublist n
  · exact .refl _
termination_by sizeOf n

theorem appendChannels_sublist : (appendChannels d).Sublist (appendChannels d') := by
  rw [appendChannels, appendChannels, h.dfas]
  exact List.Sublist.flatMap_right _ fun a _ => List.Sublist.flatMap_right _ fun t _ => h.appendReads_sublist t

theorem triggerChannels_sublist : (triggerChannels d).Sublist (triggerChannels d') := by
  refine .trans (List.Sublist.flatMap_right _ fun a _ => ?_) (h.survivors_sublist.flatMap _)
  exact List.Sublist.flatMap_right _ fun t _ => List.Sublist.flatMap_right _ fun n _ => h.triggerReads_sublist n

end MoreOutputs

/-! ### Results, position by position -/

/-- What elimination makes of the automata of a decoder, at their positions: nothing of those without a live action. -/
def Swept (d : Node) (swept : List (Option Node)) : Prop :=
  List.Forall₂ (fun a o => if hasLive d a then ∃ a', o = some a' ∧ Rebuilt d a a' else o = none) (d.held "dfas") swept

/-- The automata that stay, at their positions among all. -/
theorem exists_swept {d : Node} {dfas kept : List Node}
    (h : List.Forall₂ (Rebuilt d) (dfas.filter (hasLive d)) kept) : ∃ swept : List (Option Node),
      List.Forall₂ (fun a o => if hasLive d a then ∃ a', o = some a' ∧ Rebuilt d a a' else o = none) dfas swept ∧
        swept.filterMap id = kept := by
  induction dfas generalizing kept with
  | nil =>
    cases h
    exact ⟨[], .nil, rfl⟩
  | cons a dfas ih =>
    rw [List.filter_cons] at h
    by_cases ha : hasLive d a = true
    · rw [if_pos ha] at h
      obtain _ | ⟨ha', h⟩ := h
      obtain ⟨swept, hswept, rfl⟩ := ih h
      exact ⟨some _ :: swept, .cons (by rw [if_pos ha]; exact ⟨_, rfl, ha'⟩) hswept, rfl⟩
    · rw [if_neg ha] at h
      obtain ⟨swept, hswept, rfl⟩ := ih h
      exact ⟨none :: swept, .cons (by rw [if_neg ha]) hswept, rfl⟩

theorem Eliminated.exists_swept {d d' : Node} {kept : List Node} (h : Eliminated d d' kept) :
    ∃ swept, Swept d swept ∧ d'.get "dfas" = .ok (.nodeList (swept.filterMap id)) := by
  obtain ⟨swept, hswept, rfl⟩ := Liveness.exists_swept h.rebuilt
  exact ⟨swept, hswept, h.get_dfas⟩

/-- An automaton that stays in one result stays in the other one, where each transition has the same actions and maybe
    more in between. -/
def Grows (o o' : Option Node) : Prop :=
  ∀ k, o = some k → ∃ k', o' = some k' ∧
    List.Forall₂ (fun t t' => (t.held "actions").Sublist (t'.held "actions")) (k.held "transitions") (k'.held "transitions")

theorem MoreOutputs.grows {d d' : Node} (h : MoreOutputs d d') {swept swept' : List (Option Node)}
    (hs : Swept d swept) (hs' : Swept d' swept') : List.Forall₂ Grows swept swept' := by
  rw [Swept, h.dfas] at hs'
  refine (forall₂_both (List.forall₂_same.mpr fun _ _ => rfl) hs hs').imp ?_
  rintro o o' ⟨a, _, rfl, ho, ho'⟩ k rfl
  -- The automaton stays for the live action that made it stay before.
  have ha : Liveness.hasLive d a = true := by
    by_contra hdead
    rw [if_neg hdead] at ho
    cases ho
  rw [if_pos ha] at ho
  rw [if_pos (h.hasLive ha)] at ho'
  obtain ⟨k, ⟨⟩, hk⟩ := ho
  obtain ⟨k', rfl, hk'⟩ := ho'
  obtain ⟨ts, hget, hts⟩ := hk.transitions
  obtain ⟨ts', hget', hts'⟩ := hk'.transitions
  refine ⟨k', rfl, ?_⟩
  rw [Node.held_of_nodeList hget, Node.held_of_nodeList hget']
  refine (forall₂_both (List.forall₂_same.mpr fun _ _ => rfl) hts hts').imp ?_
  rintro u u' ⟨t, _, rfl, ht, ht'⟩
  rw [Node.held_of_nodeList ht.actions, Node.held_of_nodeList ht'.actions]
  exact h.liveActions_sublist t

/-- Elimination is monotone in the outputs: with more outputs, automata stay where they stayed, transitions keep the
    actions they kept, and what was an input of the result still is one. -/
theorem eliminate_monotone {d d' : Node} (hd : d.BuiltFrom variants) (hd' : d'.BuiltFrom variants)
    (hmore : MoreOutputs d d') {tables tables' : Option StateTables} {w w₁ w' w₁' : Workspace} {r r' : Optimized}
    (h : built (eliminate d tables) w = (.ok r, w₁)) (h' : built (eliminate d' tables') w' = (.ok r', w₁')) :
    (∃ swept swept', Swept d swept ∧ r.decoder.get "dfas" = .ok (.nodeList (swept.filterMap id)) ∧
      Swept d' swept' ∧ r'.decoder.get "dfas" = .ok (.nodeList (swept'.filterMap id)) ∧
      List.Forall₂ Grows swept swept') ∧
      ∀ c, r.decoder.holds "inputs" c = true → r'.decoder.holds "inputs" c = true := by
  obtain ⟨kept, he⟩ := eliminated_of_eliminate hd h
  obtain ⟨kept', he'⟩ := eliminated_of_eliminate hd' h'
  refine ⟨?_, fun c hc => ?_⟩
  · obtain ⟨swept, hswept, hdfas⟩ := he.exists_swept
    obtain ⟨swept', hswept', hdfas'⟩ := he'.exists_swept
    exact ⟨swept, swept', hswept, hdfas, hswept', hdfas', hmore.grows hswept hswept'⟩
  · rw [Node.holds, Node.held_of_nodeList he.get_inputs, contains_eraseDups] at hc
    rw [Node.holds, Node.held_of_nodeList he'.get_inputs, contains_eraseDups]
    have hreads := hmore.appendChannels_sublist.append hmore.triggerChannels_sublist
    rw [List.contains_eq_any_beq, List.any_eq_true] at hc ⊢
    obtain ⟨x, hx, hid⟩ := hc
    exact ⟨x, hreads.subset hx, hid⟩

/-- The receiver with the mark as another output. -/
def loudReceiver : Node :=
  .mk 14 Kind.decoder.variant [.nodeList [], .nodeList [mark, data],
    .nodeList [loop 11 (step 9 [report, shift]), loop 12 (step 10 [report])], .absent, .absent]

theorem loudReceiver_builtFrom : loudReceiver.BuiltFrom variants := by decide

theorem moreOutputs_loudReceiver : MoreOutputs receiver loudReceiver where
  variant := rfl
  others name hi ho := by
    have hi : ("inputs" == name) = false := beq_eq_false_iff_ne.mpr hi.symm
    have ho : ("outputs" == name) = false := beq_eq_false_iff_ne.mpr ho.symm
    simp only [Node.get, Node.fields, receiver, loudReceiver, Node.variant, Node.values, Kind.variant, Kind.fields,
      Kind.ownFields, reduceCtorEq, if_false, List.cons_append, List.zip_cons_cons, List.find?_cons, hi, ho]
    rfl
  outputs := by decide

/-- The mark keeps the second automaton and the report in the first one. -/
theorem eliminate_monotone_receiver : receiver.BuiltFrom variants ∧ loudReceiver.BuiltFrom variants ∧
    MoreOutputs receiver loudReceiver ∧ ∃ r r' w₁ w₁',
      built (eliminate receiver (some ⟨StateTables.blank⟩)) {} = (.ok r, w₁) ∧
      built (eliminate loudReceiver (some ⟨StateTables.blank⟩)) {} = (.ok r', w₁') ∧
      hasLive receiver (loop 12 (step 10 [report])) = false ∧ hasLive loudReceiver (loop 12 (step 10 [report])) = true ∧
      (∃ swept swept', Swept receiver swept ∧ r.decoder.get "dfas" = .ok (.nodeList (swept.filterMap id)) ∧
        Swept loudReceiver swept' ∧ r'.decoder.get "dfas" = .ok (.nodeList (swept'.filterMap id)) ∧
        List.Forall₂ Grows swept swept') ∧
      ∀ c, r.decoder.holds "inputs" c = true → r'.decoder.holds "inputs" c = true := by
  obtain ⟨d₁, _, w₁, hrun, -⟩ := eliminate_some receiver_builtFrom rfl ⟨StateTables.blank⟩ {}
  obtain ⟨d₂, _, w₂, hrun', -⟩ := eliminate_some loudReceiver_builtFrom rfl ⟨StateTables.blank⟩ {}
  exact ⟨receiver_builtFrom, loudReceiver_builtFrom, moreOutputs_loudReceiver, _, _, _, _, hrun, hrun', rfl, rfl,
    eliminate_monotone receiver_builtFrom loudReceiver_builtFrom moreOutputs_loudReceiver hrun hrun'⟩

end TypedTree.Decoder.Liveness
