import TypedTree.Proofs.Decoder.Channels
import TypedTree.Proofs.Tree.Update

/-! What dead code elimination keeps, and which channels are read. An action is live when its token is an output of the
    decoder. The sweep over an automaton keeps the live actions of every transition in place and collects the channels
    of the live appends; the scan of a trigger collects what the events and conditions in it read. -/

namespace TypedTree.Decoder.Liveness

/-! ### Live actions -/

/-- An action is live when its token is, by identity, an output of the decoder. -/
def live (decoder action : Node) : Bool := (action.held "token").any (decoder.holds "outputs")

def liveActions (decoder transition : Node) : List Node := (transition.held "actions").filter (live decoder)

/-- Whether some transition of the automaton has a live action. -/
def hasLive (decoder dfa : Node) : Bool :=
  (dfa.held "transitions").any fun t => (t.held "actions").any (live decoder)

def survivors (decoder : Node) : List Node := (decoder.held "dfas").filter (hasLive decoder)

/-- `t'` is `t` with its live actions alone. -/
structure Trimmed (decoder t t' : Node) : Prop where
  variant : t'.variant = t.variant
  actions : t'.get "actions" = .ok (.nodeList (liveActions decoder t))
  others : ∀ name ≠ "actions", t'.get name = t.get name

/-- `a'` is the automaton `a` with its transitions trimmed, one after the other. -/
structure Rebuilt (decoder a a' : Node) : Prop where
  variant : a'.variant = a.variant
  transitions : ∃ ts, a'.get "transitions" = .ok (.nodeList ts) ∧
    List.Forall₂ (Trimmed decoder) (a.held "transitions") ts
  others : ∀ name ≠ "transitions", a'.get name = a.get name

/-! ### Channels that are read -/

def appendReads (decoder transition : Node) : List Node :=
  ((liveActions decoder transition).filter (·.isA Kind.append.name)).flatMap (·.held "channel")

/-- The channels that an event or a condition reads. -/
def triggerReads (decoder n : Node) : List Node :=
  match Kind.of? n with
  | some .externalEvent | some .high | some .low => n.held "channel"
  | some .sample => (n.held "trigger").attach.flatMap (fun c => triggerReads decoder c.1) ++ n.held "channel"
  | some .internalEvent => (n.held "guard").attach.flatMap (fun c => triggerReads decoder c.1) ++
      (n.held "trigger").attach.flatMap (fun c => triggerReads decoder c.1)
  | some .conditionBinOp => (n.held "left").attach.flatMap (fun c => triggerReads decoder c.1) ++
      (n.held "right").attach.flatMap (fun c => triggerReads decoder c.1)
  | some .transition => appendReads decoder n
  | _ => []
termination_by sizeOf n
decreasing_by all_goals exact Node.sizeOf_lt_of_mem_held c.2

/-- The channels of the live appends of a decoder. -/
def appendChannels (decoder : Node) : List Node :=
  (decoder.held "dfas").flatMap fun a => (a.held "transitions").flatMap (appendReads decoder)

/-- The channels that the triggers of an automaton's transitions read. -/
def automatonTriggerReads (decoder dfa : Node) : List Node :=
  (dfa.held "transitions").flatMap fun t => (t.held "trigger").flatMap (triggerReads decoder)

/-- The channels that the triggers of the automata that stay read. -/
def triggerChannels (decoder : Node) : List Node := (survivors decoder).flatMap (automatonTriggerReads decoder)

/-! ### Sweeping actions -/

section Sweep
variable {decoder : Node}

def outputIds (decoder : Node) : List NodeId := (decoder.held "outputs").map Node.id

theorem feeds_eq {action : Node} (ha : action.BuiltFrom variants) {k : Kind} (kind : action.variant = k.variant)
    (hf : k.variant.field? "token" = some ⟨"token", .node "Token"⟩) :
    feeds (outputIds decoder) action = .ok (live decoder action) := by
  obtain ⟨token, htoken, hheld, -, -⟩ := reads_node ha kind "token" hf
  rw [feeds, htoken, live, hheld]
  show Except.ok ((outputIds decoder).contains token.id) = _
  rw [List.any_cons, List.any_nil, Bool.or_false, Node.holds, contains_eq_id_mem, List.contains_eq_mem]
  rfl

theorem readChannel_collects {n : Node} (hn : n.BuiltFrom variants) {k : Kind} (kind : n.variant = k.variant)
    (hf : k.variant.field? "channel" = some ⟨"channel", .node "Channel"⟩) :
    Collects (readChannel n) (n.held "channel") fun _ => True := by
  obtain ⟨channel, hchannel, hheld, hc, hb⟩ := reads_node hn kind "channel" hf
  rw [readChannel, hchannel, hheld]
  exact ⟨List.forall_mem_singleton.mpr ⟨hc, hb⟩, fun m w => ⟨(), w, rfl, trivial⟩⟩

/-- An action is kept if it is live; the channel of a live append is read. -/
theorem keepAction_collects {action : Node} (ha : action.BuiltFrom variants) (hk : action.isA "Action" = true) :
    Collects (keepAction (outputIds decoder) action)
      (if live decoder action && action.isA Kind.append.name then action.held "channel" else [])
      (· = live decoder action) := by
  obtain ⟨k, hmem, kind⟩ := exists_kind_of_isA ha hk
  have hkinds : Kind.list.filter (·.variant.isA "Action") = [.start, .append, .emit, .reset] := by decide
  rw [hkinds] at hmem
  rw [keepAction, Kind.of?_of_variant kind, isA_of_variant kind]
  -- Only appends read a channel; to keep any other action is to look at its token.
  have quiet : ∀ {k : Kind}, action.variant = k.variant → k.variant.isA Kind.append.name = false →
      k.variant.field? "token" = some ⟨"token", .node "Token"⟩ →
      Collects (liftM (feeds (outputIds decoder) action))
        (if live decoder action && k.variant.isA Kind.append.name then action.held "channel" else [])
        (· = live decoder action) := by
    intro k kind hnot hf
    rw [hnot, Bool.and_false, if_neg Bool.false_ne_true, feeds_eq ha kind hf]
    exact Collects.pure rfl
  simp only [List.mem_cons, List.not_mem_nil, or_false] at hmem
  rcases hmem with rfl | rfl | rfl | rfl
  · exact quiet kind rfl rfl
  · have happend : Kind.append.variant.isA Kind.append.name = true := rfl
    simp only [feeds_eq ha kind rfl, liftM_state_ok, pure_bind, happend, Bool.and_true]
    cases live decoder action with
    | true => exact (readChannel_collects ha kind rfl).bind_pure fun _ _ => rfl
    | false => exact Collects.pure rfl
  · exact quiet kind rfl rfl
  · exact quiet kind rfl rfl

theorem keepActions_collects {actions : List Node}
    (h : ∀ a ∈ actions, a.isA "Action" = true ∧ a.BuiltFrom variants) :
    Collects (keepActions (outputIds decoder) actions)
      (((actions.filter (live decoder)).filter (·.isA Kind.append.name)).flatMap (·.held "channel"))
      (· = actions.filter (live decoder)) := by
  induction actions with
  | nil => exact Collects.pure rfl
  | cons a rest ih =>
    obtain ⟨hk, hb⟩ := h a List.mem_cons_self
    have hrest := ih fun b hb => h b (List.mem_cons_of_mem _ hb)
    have hreads : (((a :: rest).filter (live decoder)).filter (·.isA Kind.append.name)).flatMap (·.held "channel") =
        (if live decoder a && a.isA Kind.append.name then a.held "channel" else []) ++
          ((rest.filter (live decoder)).filter (·.isA Kind.append.name)).flatMap (·.held "channel") := by
      cases hl : live decoder a <;> cases hp : a.isA Kind.append.name <;> simp [hl, hp]
    rw [hreads, keepActions]
    refine (keepAction_collects hb hk).bind fun l hl => hrest.bind_pure fun kept hkept => ?_
    rw [hl, hkept, List.filter_cons]

theorem sweepTransition_collects {t : Node} (ht : t.BuiltFrom variants) (hk : t.isA "Transition" = true) :
    Collects (sweepTransition (outputIds decoder) t) (appendReads decoder t)
      fun t' => Trimmed decoder t t' ∧ t'.isA "Transition" = true ∧ t'.BuiltFrom variants := by
  have kind := variant_of_isA ht .transition hk
  have hf : t.variant.field? "actions" = some ⟨"actions", .list (.node "Action")⟩ := by rw [kind]; rfl
  obtain ⟨hreads, hactions⟩ := reads_nodes ht kind "actions" rfl
  simp only [sweepTransition, hreads, liftM_state_ok, pure_bind]
  rw [← List.append_nil (appendReads decoder t)]
  refine (keepActions_collects hactions).bind ?_
  rintro _ rfl
  refine Collects.lift fun w => ?_
  have hlive : ∀ a ∈ liveActions decoder t, a.isA "Action" = true ∧ a.BuiltFrom variants := fun a ha =>
    hactions a (List.mem_filter.mp ha).1
  obtain ⟨t', w', hrun, hget, hothers, hvariant, hb⟩ := ht.built_update_nodes hf hlive w
  exact ⟨t', w', hrun, ⟨hvariant, hget, hothers⟩, by rwa [Node.isA, hvariant], hb⟩

theorem mapM_actions {ts ts' : List Node} (h : List.Forall₂ (Trimmed decoder) ts ts') :
    (ts'.mapM fun t => liftM (t.getNodes "actions") : SweepM (List (List Node))) =
      pure (ts.map (liveActions decoder)) := by
  induction h with
  | nil => rfl
  | @cons t t' ts ts' ht _ ih =>
    rw [List.mapM_cons, Node.getNodes_of_get ht.actions, ih]
    rfl

theorem hasLive_eq (decoder a : Node) :
    hasLive decoder a = !((a.held "transitions").map (liveActions decoder)).all (·.isEmpty) := by
  rw [hasLive, List.all_map, List.not_all_eq_any_not]
  congr 1
  funext t
  rw [Function.comp, Bool.eq_iff_iff, Bool.not_eq_true', ← Bool.not_eq_true, List.isEmpty_iff, liveActions,
    List.filter_eq_nil_iff, List.any_eq_true]
  simp

/-- An automaton stays if it has a live action, with its transitions trimmed. -/
theorem sweepAutomaton_collects {a : Node} (ha : a.BuiltFrom variants) (hk : a.isA "DFA" = true) :
    Collects (sweepAutomaton (outputIds decoder) a) ((a.held "transitions").flatMap (appendReads decoder)) fun o =>
      if hasLive decoder a then ∃ a', o = some a' ∧ Rebuilt decoder a a' ∧ a'.isA "DFA" = true ∧ a'.BuiltFrom variants
      else o = none := by
  have kind := variant_of_isA ha .dfa hk
  have hf : a.variant.field? "transitions" = some ⟨"transitions", .list (.node "Transition")⟩ := by rw [kind]; rfl
  obtain ⟨hreads, hts⟩ := reads_nodes ha kind "transitions" rfl
  simp only [sweepAutomaton, hreads, liftM_state_ok, pure_bind]
  rw [← List.append_nil (List.flatMap _ _)]
  refine (Collects.mapM fun t ht => sweepTransition_collects (hts t ht).2 (hts t ht).1).bind fun ts h => ?_
  obtain ⟨htrim, hts'⟩ := forall₂_and_right h
  rw [mapM_actions htrim, pure_bind, hasLive_eq]
  cases hall : ((a.held "transitions").map (liveActions decoder)).all (·.isEmpty) with
  | true => exact Collects.pure rfl
  | false =>
    simp only [Bool.false_eq_true, if_false, map_eq_pure_bind]
    refine Collects.bind_pure (P := fun a' => Rebuilt decoder a a' ∧ a'.isA "DFA" = true ∧ a'.BuiltFrom variants)
      (Collects.lift fun w => ?_) fun a' h => ⟨a', rfl, h⟩
    obtain ⟨a', w', hrun, hget, hothers, hvariant, hb⟩ := ha.built_update_nodes hf hts' w
    exact ⟨a', w', hrun, ⟨hvariant, ⟨ts, hget, htrim⟩, hothers⟩, by rwa [Node.isA, hvariant], hb⟩

/-- The automata that stay, rebuilt, out of what the sweeps over all automata give. -/
theorem survivors_forall₂ {dfas : List Node} {swept : List (Option Node)} {P : Node → Prop}
    (h : List.Forall₂ (fun a o =>
      if hasLive decoder a then ∃ a', o = some a' ∧ Rebuilt decoder a a' ∧ P a' else o = none) dfas swept) :
    List.Forall₂ (fun a a' => Rebuilt decoder a a' ∧ P a') (dfas.filter (hasLive decoder)) (swept.filterMap id) := by
  induction h with
  | nil => exact .nil
  | @cons a o dfas swept ho _ ih =>
    rw [List.filter_cons]
    by_cases hl : hasLive decoder a = true
    · rw [if_pos hl] at ho ⊢
      obtain ⟨a', rfl, hr⟩ := ho
      exact .cons hr ih
    · rw [if_neg hl] at ho ⊢
      subst ho
      exact ih

/-! ### Scanning triggers -/

theorem flatMap_attach (cs : List Node) (f : Node → List Node) : (cs.attach.flatMap fun c => f c.1) = cs.flatMap f := by
  rw [List.flatMap_subtype (g := f) fun _ _ => rfl, List.unattach_attach]

theorem triggerReads_eq (decoder n : Node) : triggerReads decoder n = match Kind.of? n with
    | some .externalEvent | some .high | some .low => n.held "channel"
    | some .sample => (n.held "trigger").flatMap (triggerReads decoder) ++ n.held "channel"
    | some .internalEvent =>
      (n.held "guard").flatMap (triggerReads decoder) ++ (n.held "trigger").flatMap (triggerReads decoder)
    | some .conditionBinOp =>
      (n.held "left").flatMap (triggerReads decoder) ++ (n.held "right").flatMap (triggerReads decoder)
    | some .transition => appendReads decoder n
    | _ => [] := by
  rw [triggerReads]
  simp only [flatMap_attach]

theorem scanTrigger_collects (n : Node) (hn : n.BuiltFrom variants)
    (hk : n.isA "Event" = true ∨ n.isA "Condition" = true) :
    Collects (scanTrigger (outputIds decoder) n) (triggerReads decoder n) fun _ => True := by
  -- The recursion goes down every field for an event or a condition.
  have child : ∀ {k : Kind} {label cls : String}, n.variant = k.variant → cls = "Event" ∨ cls = "Condition" →
      ∀ name, k.variant.field? name = some ⟨label, .node cls⟩ → ∃ c : n.Smaller, n.descend name = .ok c ∧
        Collects (scanTrigger (outputIds decoder) c.1) ((n.held name).flatMap (triggerReads decoder)) fun _ => True := by
    intro k label cls kind hcls name hf
    obtain ⟨c, hread, hheld, hc, hb⟩ := reads_node hn kind name hf
    obtain ⟨hlt, hdescend⟩ := Node.descend_of_getNode hread
    refine ⟨⟨c, hlt⟩, hdescend, ?_⟩
    rw [hheld, List.flatMap_singleton]
    refine scanTrigger_collects c hb ?_
    rcases hcls with rfl | rfl
    · exact .inl hc
    · exact .inr hc
  have hkinds : ∃ k ∈ [Kind.high, .low, .constantCondition, .conditionBinOp, .externalEvent, .delayedEvent,
      .internalEvent, .sample, .transition], n.variant = k.variant := by
    obtain ⟨k, kind⟩ := exists_kind hn
    rw [isA_of_variant kind, isA_of_variant kind] at hk
    refine ⟨k, ?_, kind⟩
    revert hk
    cases k <;> decide
  obtain ⟨k, hmem, kind⟩ := hkinds
  rw [scanTrigger, triggerReads_eq, Kind.of?_of_variant kind]
  simp only [List.mem_cons, List.not_mem_nil, or_false] at hmem
  rcases hmem with rfl | rfl | rfl | rfl | rfl | rfl | rfl | rfl | rfl
  · exact readChannel_collects hn kind rfl
  · exact readChannel_collects hn kind rfl
  · exact Collects.pure trivial
  · obtain ⟨l, hl, hleft⟩ := child kind (.inr rfl) "left" rfl
    obtain ⟨r, hr, hright⟩ := child kind (.inr rfl) "right" rfl
    simp only [hl, hr, liftM_state_ok, pure_bind]
    exact hleft.bind fun _ _ => hright
  · exact readChannel_collects hn kind rfl
  · exact Collects.pure trivial
  · obtain ⟨t, ht, htrigger⟩ := child kind (.inl rfl) "trigger" rfl
    have hf : n.variant.field? "guard" = some ⟨"guard", .optional (.node "Condition")⟩ := by rw [kind]; rfl
    rcases hn.get_optionalNode "guard" hf with hg | ⟨c, hg, hc, hb⟩
    · rw [Node.held_of_get hg]
      simp only [Node.descend?_of_getNode?_none (Node.getNode?_of_get_absent hg), ht, liftM_state_ok, pure_bind]
      exact htrigger
    · obtain ⟨hlt, hguard⟩ := Node.descend?_of_getNode? (Node.getNode?_of_get hg)
      rw [Node.held_of_getNode (Node.getNode_of_get hg), List.flatMap_singleton]
      simp only [hguard, ht, liftM_state_ok, pure_bind]
      exact (scanTrigger_collects c hb (.inr hc)).bind fun _ _ => htrigger
  · obtain ⟨t, ht, htrigger⟩ := child kind (.inl rfl) "trigger" rfl
    simp only [ht, liftM_state_ok, pure_bind]
    exact htrigger.bind fun _ _ => readChannel_collects hn kind rfl
  · obtain ⟨hreads, hactions⟩ := reads_nodes hn kind "actions" rfl
    simp only [hreads, liftM_state_ok, pure_bind]
    exact (keepActions_collects hactions).bind_pure fun _ _ => trivial
termination_by sizeOf n
decreasing_by all_goals exact hlt

end Sweep
end TypedTree.Decoder.Liveness
