import TypedTree.Proofs.Decoder.Elimination

/-! Links between automata. A transition that is triggered by another one holds that transition itself, whatever
    automaton lists it. Elimination walks triggers but does not rewrite them, while the transitions that automata list
    are rebuilt: so links lead to transitions of the decoder from before, never to their trimmed copies. -/

namespace TypedTree.Decoder.Liveness

/-! ### Links -/

/-- The transitions that an event stands for: itself, or those that what triggers it stands for. -/
def triggerLinks (n : Node) : List Node :=
  match Kind.of? n with
  | some .transition => [n]
  | some .internalEvent | some .sample => (n.held "trigger").attach.flatMap fun c => triggerLinks c.1
  | _ => []
termination_by sizeOf n
decreasing_by all_goals exact Node.sizeOf_lt_of_mem_held c.2

theorem triggerLinks_eq (n : Node) : triggerLinks n = match Kind.of? n with
    | some .transition => [n]
    | some .internalEvent | some .sample => (n.held "trigger").flatMap triggerLinks
    | _ => [] := by
  rw [triggerLinks]
  simp only [flatMap_attach]

/-- The transitions that trigger the transitions of an automaton. -/
def automatonLinks (dfa : Node) : List Node :=
  (dfa.held "transitions").flatMap fun t => (t.held "trigger").flatMap triggerLinks

/-- The transitions that trigger the transitions of a decoder. -/
def links (decoder : Node) : List Node := (decoder.held "dfas").flatMap automatonLinks

/-- Every transition that triggers another one is, by identity, listed by an automaton of the decoder. -/
def TriggerClosed (decoder : Node) : Prop :=
  ∀ t ∈ links decoder, ∃ a ∈ decoder.held "dfas", ∃ u ∈ a.held "transitions", u.id = t.id

instance (decoder : Node) : Decidable (TriggerClosed decoder) :=
  inferInstanceAs (Decidable (∀ t ∈ links decoder, ∃ a ∈ decoder.held "dfas", ∃ u ∈ a.held "transitions", u.id = t.id))

section Inside
variable {p : Node → Prop} {t : Node}

/-- The transitions that an event stands for are inside the event. -/
theorem everywhere_of_mem_triggerLinks (n : Node) (hn : n.Everywhere p) (ht : t ∈ triggerLinks n) : t.Everywhere p := by
  have inner : t ∈ (n.held "trigger").flatMap triggerLinks → t.Everywhere p := fun h => by
    obtain ⟨c, hc, htc⟩ := List.mem_flatMap.mp h
    have := Node.sizeOf_lt_of_mem_held hc
    exact everywhere_of_mem_triggerLinks c (hn.held hc) htc
  rw [triggerLinks_eq] at ht
  split at ht
  · cases List.mem_singleton.mp ht
    exact hn
  · exact inner ht
  · exact inner ht
  · cases ht
termination_by sizeOf n

theorem everywhere_of_mem_automatonLinks {a : Node} (ha : a.Everywhere p) (ht : t ∈ automatonLinks a) :
    t.Everywhere p := by
  obtain ⟨u, hu, ht⟩ := List.mem_flatMap.mp ht
  obtain ⟨c, hc, ht⟩ := List.mem_flatMap.mp ht
  exact everywhere_of_mem_triggerLinks c ((ha.held hu).held hc) ht

theorem everywhere_of_mem_links {d : Node} (hd : d.Everywhere p) (ht : t ∈ links d) : t.Everywhere p := by
  obtain ⟨a, ha, ht⟩ := List.mem_flatMap.mp ht
  exact everywhere_of_mem_automatonLinks (hd.held ha) ht

end Inside

/-! ### What elimination does to links -/

section Elimination
variable {d : Node}

/-- Rebuilding an automaton keeps the triggers of its transitions. -/
theorem Rebuilt.automatonLinks {a a' : Node} (h : Rebuilt d a a') : automatonLinks a' = automatonLinks a := by
  obtain ⟨ts, hreads, htrim⟩ := h.transitions
  rw [Liveness.automatonLinks, Liveness.automatonLinks, Node.held_of_nodeList hreads]
  exact flatMap_eq_of_forall₂ htrim fun t t' ht => by rw [Node.held_congr (ht.others "trigger" (by decide))]

theorem Eliminated.held_dfas {d' : Node} {kept : List Node} (h : Eliminated d d' kept) : d'.held "dfas" = kept :=
  Node.held_of_nodeList (h.update.get "dfas")

namespace Eliminated
variable {d' : Node} {kept : List Node} (h : Eliminated d d' kept)
include h

theorem links : links d' = (survivors d).flatMap automatonLinks := by
  rw [Liveness.links, h.held_dfas]
  exact flatMap_eq_of_forall₂ h.rebuilt fun _ _ => Rebuilt.automatonLinks

theorem mem_links {t : Node} (ht : t ∈ Liveness.links d') : t ∈ Liveness.links d := by
  rw [h.links] at ht
  obtain ⟨a, ha, ht⟩ := List.mem_flatMap.mp ht
  exact List.mem_flatMap.mpr ⟨a, (List.mem_filter.mp ha).1, ht⟩

/-- The transitions of the automata that stay are listed by their trimmed copies. -/
theorem exists_trimmed {a u : Node} (ha : a ∈ d.held "dfas") (hlive : hasLive d a = true)
    (hu : u ∈ a.held "transitions") : ∃ a' ∈ d'.held "dfas", ∃ u' ∈ a'.held "transitions", Trimmed d u u' := by
  obtain ⟨a', ha', hr⟩ := exists_of_forall₂_left h.rebuilt (List.mem_filter.mpr ⟨ha, hlive⟩)
  obtain ⟨ts, hreads, htrim⟩ := hr.transitions
  obtain ⟨u', hu', htrim⟩ := exists_of_forall₂_left htrim hu
  exact ⟨a', h.held_dfas ▸ ha', u', Node.held_of_nodeList hreads ▸ hu', htrim⟩

end Eliminated

/-! ### New identities -/

section Takes
variable {b : NodeId} {outputs : List NodeId}

theorem keepAction_takes (action : Node) : Takes b (keepAction outputs action) fun _ => True := by
  have quiet : Takes b (liftM (feeds outputs action) : SweepM Bool) fun _ => True := .read fun _ _ => trivial
  rw [keepAction]
  split
  · refine quiet.bind fun live _ => ?_
    split
    · refine Takes.bind (P := fun _ => True) ?_ fun _ _ => .pure trivial
      refine Takes.bind (P := fun _ => True) (.read fun _ _ => trivial) fun channel _ => ?_
      intro s w a s' w' hb hrun
      cases hrun
      exact ⟨hb, trivial⟩
    · exact .pure trivial
  · exact quiet
  · exact quiet
  · exact quiet
  · exact .throw _

theorem keepActions_takes (actions : List Node) : Takes b (keepActions outputs actions) fun _ => True := by
  induction actions with
  | nil => exact .pure trivial
  | cons a rest ih =>
    rw [keepActions]
    exact (keepAction_takes a).bind fun _ _ => ih.bind fun _ _ => .pure trivial

theorem sweepTransition_takes (t : Node) : Takes b (sweepTransition outputs t) fun t' => b ≤ t'.id := by
  rw [sweepTransition]
  refine Takes.bind (P := fun _ => True) (.read fun _ _ => trivial) fun actions _ => ?_
  refine (keepActions_takes actions).bind fun kept _ => .lift fun w t' w' hb hrun => ?_
  obtain ⟨hid, hnext⟩ := Node.id_of_built_update (by simp) hrun
  rw [hid, hnext]
  exact ⟨Nat.le_succ_of_le hb, hb⟩

/-- The transitions of the automata that stay are new. -/
theorem sweepAutomaton_takes {a : Node} (ha : a.Fits) :
    Takes b (sweepAutomaton outputs a) fun o => ∀ a' ∈ o, ∀ t ∈ a'.held "transitions", b ≤ t.id := by
  rw [sweepAutomaton]
  refine Takes.bind (P := fun _ => True) (.read fun _ _ => trivial) fun ts _ => ?_
  refine (Takes.mapM fun t _ => sweepTransition_takes t).bind fun ts' hts' => ?_
  refine (Takes.mapM (Q := fun _ => True) fun t _ => .read fun _ _ => trivial).bind fun actions _ => ?_
  split
  · exact .pure (by simp)
  · refine Takes.map (P := fun a' => ∀ t ∈ a'.held "transitions", b ≤ t.id) (.lift fun w a' w' hb hrun => ?_) fun a' h => by
      simpa using h
    have hget : a'.get "transitions" = .ok (.nodeList ts') :=
      (Node.isUpdate_of_built_update (by simp) hrun ha).get "transitions"
    rw [Node.held_of_nodeList hget, (Node.id_of_built_update (by simp) hrun).2]
    exact ⟨Nat.le_succ_of_le hb, hts'⟩

theorem new_of_sweep {dfas kept : List Node} (hdfas : ∀ a ∈ dfas, a.Fits) {m m' : Channels} {w w' : Workspace}
    (h : outcome (sweep outputs dfas) m w = (.ok (kept, m'), w')) :
    ∀ a ∈ kept, ∀ t ∈ a.held "transitions", w.nextId ≤ t.id := by
  rw [sweep] at h
  obtain ⟨swept, m₁, w₁, hswept, h⟩ := outcome_bind_eq_ok.mp h
  obtain ⟨_, m₂, w₂, -, h⟩ := outcome_bind_eq_ok.mp h
  cases h
  intro a ha
  obtain ⟨o, ho, rfl⟩ := List.mem_filterMap.mp ha
  have hnew := Takes.mapM (fun a ha => sweepAutomaton_takes (hdfas a ha)) m w swept m₁ w₁ (Nat.le_refl _) hswept
  exact hnew.2 _ ho a rfl

end Takes

/-! ### Links of the result -/

/-- Elimination keeps links as they are. Those of the transitions that stay lead, by identity, to transitions that the
    automata of the decoder list, as they did before; the result lists trimmed copies of these if their automata stay. The
    copies are new, so the result has a link that leads to none of its own transitions unless it has no links. -/
theorem links_of_eliminate (hd : d.BuiltFrom variants) (hclosed : TriggerClosed d) {tables : Option StateTables}
    {w w' : Workspace} {r : Optimized} (h : built (eliminate d tables) w = (.ok r, w')) :
    links r.decoder = (survivors d).flatMap automatonLinks ∧
      (∀ t ∈ links r.decoder, ∃ a ∈ d.held "dfas", ∃ u ∈ a.held "transitions", u.id = t.id ∧
        (hasLive d a = true → ∃ a' ∈ r.decoder.held "dfas", ∃ u' ∈ a'.held "transitions", Trimmed d u u')) ∧
      ((d.Everywhere fun n => n.id < w.nextId) → (TriggerClosed r.decoder ↔ links r.decoder = [])) := by
  obtain ⟨kept, he, -, m, w₁, w₂, hnext, hsweep⟩ := eliminate_spec hd h
  obtain ⟨-, hdfas⟩ := reads_nodes hd (variant_of_eliminate hd h) "dfas" rfl
  refine ⟨he.links, fun t ht => ?_, fun hids => ⟨fun hclosed' => ?_, fun hnone => ?_⟩⟩
  · obtain ⟨a, ha, u, hu, hid⟩ := hclosed t (he.mem_links ht)
    exact ⟨a, ha, u, hu, hid, fun hlive => he.exists_trimmed ha hlive hu⟩
  · -- What a link leads to was there before; what the result lists was not.
    refine List.eq_nil_iff_forall_not_mem.mpr fun t ht => ?_
    obtain ⟨a', ha', u', hu', hid⟩ := hclosed' t ht
    rw [he.held_dfas] at ha'
    have hnew : w.nextId ≤ t.id :=
      hid ▸ hnext ▸ new_of_sweep (fun a ha => (hdfas a ha).2.fits) hsweep a' ha' u' hu'
    have hold : t.id < w.nextId := (everywhere_of_mem_links hids (he.mem_links ht)).here
    exact Nat.not_le.mpr hold hnew
  · rw [TriggerClosed, hnone]
    simp

end Elimination

/-- A transition of the second automaton of `relay`, triggered by the transition of the first one. -/
def follow : Node :=
  .mk 10 Kind.transition.variant [.node idle, .node idle, .node (step 9 [shift]), .nodeList [shift], .absent, .absent]

def relay : Node :=
  .mk 13 Kind.decoder.variant [.nodeList [clock, line], .nodeList [data],
    .nodeList [loop 11 (step 9 [shift]), loop 12 follow], .absent, .absent]

theorem relay_builtFrom : relay.BuiltFrom variants := by decide

theorem relay_closed : TriggerClosed relay := by decide +kernel

theorem links_of_eliminate_relay : TriggerClosed relay ∧ ∃ r w',
    built (eliminate relay (some ⟨StateTables.blank⟩)) { nextId := 14 } = (.ok r, w') ∧
      links r.decoder = [step 9 [shift]] ∧
      (∃ a' ∈ r.decoder.held "dfas", ∃ u' ∈ a'.held "transitions", Trimmed relay (step 9 [shift]) u') ∧
      ¬TriggerClosed r.decoder := by
  obtain ⟨d', _, w', hrun, -⟩ := eliminate_some relay_builtFrom rfl ⟨StateTables.blank⟩ { nextId := 14 }
  obtain ⟨hlinks, hlisted, hclosed⟩ := links_of_eliminate relay_builtFrom relay_closed hrun
  replace hlinks : links d' = [step 9 [shift]] := by
    rw [hlinks]
    show (triggerLinks edge ++ [] ++ []) ++ ((triggerLinks (step 9 [shift]) ++ [] ++ []) ++ []) = _
    rw [triggerLinks_eq, triggerLinks_eq]
    rfl
  have hnot : ¬TriggerClosed d' := fun h => by
    rw [(hclosed (by decide +kernel)).mp h] at hlinks
    cases hlinks
  refine ⟨relay_closed, _, w', hrun, hlinks, ?_, hnot⟩
  obtain ⟨a, ha, u, hu, hid, hcopy⟩ := hlisted (step 9 [shift]) (hlinks ▸ List.mem_singleton.mpr rfl)
  replace ha : a ∈ [loop 11 (step 9 [shift]), loop 12 follow] := ha
  rw [List.mem_pair] at ha
  rcases ha with rfl | rfl
  · cases (List.mem_singleton.mp hu : u = step 9 [shift])
    exact hcopy rfl
  · cases (List.mem_singleton.mp hu : u = follow)
    cases hid

/-- Both automata of `relay` stay, but the trigger of the second one is no transition of the result. -/
theorem eliminate_relay_not_closed :
    relay.BuiltFrom variants ∧ TriggerClosed relay ∧ ∃ r w',
      built (eliminate relay none) { nextId := 14 } = (.ok r, w') ∧ ¬TriggerClosed r.decoder := by
  have hresult : ((built (eliminate relay none) { nextId := 14 }).1.toOption.map fun r =>
      decide (TriggerClosed r.decoder)) = some false := by decide +kernel
  rcases hrun : built (eliminate relay none) { nextId := 14 } with ⟨_ | r, w'⟩ <;> rw [hrun] at hresult
  · cases hresult
  · exact ⟨relay_builtFrom, relay_closed, r, w', rfl, by simpa [Except.toOption] using hresult⟩

end TypedTree.Decoder.Liveness
