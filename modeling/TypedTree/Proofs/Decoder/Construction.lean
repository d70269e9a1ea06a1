import TypedTree.Proofs.Decoder.Elimination
import TypedTree.Proofs.Decoder.TableNodes
import TypedTree.Proofs.Tree.Construction

/-! What the passes over decoders construct. State tables take no identities. Elimination rewrites transitions, then
    automata, then the decoder, from nodes of the decoder and nodes that it made before; the channels that it collects
    on the way are nodes of the decoder. This is so of any node that it is given, and up to the failure where it fails. -/

namespace TypedTree.Decoder
variable {K : Set Node}

theorem StateTables.build_adds {root : Node} (hroot : Within K root) :
    Adds K (StateTables.build root) fun tables => { c | c ∈ tables.nodes } := by
  have quiet : Adds K (StateTables.build root) fun _ => ∅ := by
    unfold StateTables.build
    refine Adds.readBind fun t _ => ?_
    refine Tracking.ofBuild.after (Adds.logs (e := .ok t.repository.locked) fun _ => rfl) fun repository => ?_
    exact Tracking.ofBuild.after (Adds.logs (e := .ok ()) fun _ => rfl) fun _ => Tracking.ofBuild.value _
  intro made w r w' hw hK hrun
  obtain ⟨made', hgrown, -⟩ := quiet made w r w' hw hK hrun
  refine ⟨made', hgrown, fun tables htables c hc => ?_⟩
  cases htables
  have known : Within K c := StateTables.nodes_build (fun n hn c hc => hn.child hc) hroot hrun c hc
  exact known made' w' (hgrown.history hw) fun k hk => hgrown.subset (hK k hk)

namespace Liveness
variable {outputs : List NodeId} {n : Node}

/-- Elimination is followed with the channels it has collected. -/
abbrev tracking : Tracking SweepM := .ofState fun channels => { c | c ∈ channels.values }

theorem readChannel_adds (hn : Within K n) : tracking.Adds K (readChannel n) fun _ => ∅ := by
  refine Tracking.readBind fun channel hchannel => Tracking.change fun channels c hc => ?_
  have hc : c ∈ (channels.insertNew channel.id channel).values := hc
  rw [values_insertNew] at hc
  split at hc
  · exact within_of_mem (.inr hc)
  · rcases List.mem_append.mp hc with hc | hc
    · exact within_of_mem (.inr hc)
    · obtain rfl := List.mem_singleton.mp hc
      exact (hn.child (Node.mem_children_of_getNode hchannel)).left

/-! ### Actions -/

theorem keepAction_adds (hn : Within K n) : tracking.Adds K (keepAction outputs n) fun _ => ∅ := by
  have quiet : tracking.Adds K (liftM (feeds outputs n)) fun _ => ∅ := tracking.read _
  rw [keepAction]
  split
  · refine tracking.after quiet fun live => ?_
    split
    · exact tracking.after (readChannel_adds hn) fun _ => tracking.value _
    · exact tracking.value _
  · exact quiet
  · exact quiet
  · exact quiet
  · exact Tracking.throw

theorem keepActions_adds {actions : List Node} (h : ∀ a ∈ actions, Within K a) :
    tracking.Adds K (keepActions outputs actions) fun kept => { c | c ∈ kept } := by
  induction actions with
  | nil => exact tracking.pure (by simp)
  | cons a rest ih =>
    rw [List.forall_mem_cons] at h
    rw [keepActions]
    refine tracking.after (keepAction_adds h.1) fun live => tracking.bind (ih h.2) fun kept => tracking.pure ?_
    intro c hc
    have hc : c ∈ a :: kept := by
      cases live
      · exact List.mem_cons_of_mem _ hc
      · exact hc
    rcases List.mem_cons.mp hc with rfl | hc
    · exact h.1.left
    · exact within_of_mem (.inr hc)

/-! ### Automata -/

theorem sweepTransition_adds (hn : Within K n) : tracking.Adds K (sweepTransition outputs n) fun t => {t} := by
  rw [sweepTransition]
  refine Tracking.readBind fun actions hactions => ?_
  refine tracking.bind (keepActions_adds fun a ha => hn.child (Node.mem_children_of_getNodes hactions ha)) fun kept => ?_
  have hkept : ∀ a ∈ kept, Within (K ∪ { a | a ∈ kept }) a := fun a ha => within_of_mem (.inr ha)
  exact tracking.lift (update_adds hn.left (by simpa using hkept))

theorem sweepAutomaton_adds (hn : Within K n) : tracking.Adds K (sweepAutomaton outputs n) fun o => { a | a ∈ o } := by
  rw [sweepAutomaton]
  refine Tracking.readBind fun transitions htransitions => ?_
  refine tracking.bind (tracking.mapM_nodes fun t ht =>
    sweepTransition_adds (hn.child (Node.mem_children_of_getNodes htransitions ht))) fun swept => ?_
  refine tracking.after (tracking.mapM_values fun t _ => tracking.read _) fun actions => ?_
  split
  · exact tracking.pure (by simp)
  · have hswept : ∀ t ∈ swept, Within (K ∪ { t | t ∈ swept }) t := fun t ht => within_of_mem (.inr ht)
    refine tracking.map (tracking.lift (update_adds hn.left (by simpa using hswept))) fun a b hb => ?_
    cases hb
    exact within_of_mem (.inr rfl)

/-! ### Triggers -/

theorem scanTrigger_adds (n : Node) (hn : Within K n) : tracking.Adds K (scanTrigger outputs n) fun _ => ∅ := by
  have scan {c : n.Smaller} (hc : c.1 ∈ n.children) : tracking.Adds K (scanTrigger outputs c.1) fun _ => ∅ :=
    scanTrigger_adds c.1 (hn.child hc)
  have last {name : String} : tracking.Adds K (do let c ← n.descend name; scanTrigger outputs c.1) fun _ => ∅ :=
    Tracking.readBind fun c hc => scan (Node.mem_children_of_descend hc)
  have before {name : String} {x : SweepM Unit} (hx : tracking.Adds K x fun _ => ∅) :
      tracking.Adds K (do let c ← n.descend name; scanTrigger outputs c.1; x) fun _ => ∅ :=
    Tracking.readBind fun c hc => tracking.after (scan (Node.mem_children_of_descend hc)) fun _ => hx
  rw [scanTrigger]
  split
  · exact readChannel_adds hn
  · exact readChannel_adds hn
  · exact readChannel_adds hn
  · exact before (readChannel_adds hn)
  · refine Tracking.readBind fun guard hguard => ?_
    cases guard with
    | none => exact last
    | some guard => exact tracking.after (scan (Node.mem_children_of_descend? hguard)) fun _ => last
  · exact before last
  · refine Tracking.readBind fun actions hactions => ?_
    refine tracking.bind (keepActions_adds fun a ha => hn.child (Node.mem_children_of_getNodes hactions ha)) fun _ => ?_
    exact tracking.value _
  · exact tracking.value _
  · exact tracking.value _
  · exact Tracking.throw
termination_by sizeOf n
decreasing_by exact c.2

theorem scanAutomaton_adds (hn : Within K n) : tracking.Adds K (scanAutomaton outputs n) fun _ => ∅ := by
  rw [scanAutomaton]
  refine Tracking.readBind fun transitions htransitions => tracking.forM fun t ht => ?_
  refine Tracking.readBind fun trigger htrigger => scanTrigger_adds trigger ?_
  exact (hn.child (Node.mem_children_of_getNodes htransitions ht)).child (Node.mem_children_of_getNode htrigger)

/-! ### Decoders -/

theorem sweep_adds {dfas : List Node} (h : ∀ a ∈ dfas, Within K a) :
    tracking.Adds K (sweep outputs dfas) fun kept => { a | a ∈ kept } := by
  rw [sweep]
  refine tracking.bind (tracking.mapM fun a ha => sweepAutomaton_adds (h a ha)) fun swept => ?_
  have kept : ∀ a ∈ swept.filterMap id, Within (K ∪ { c | ∃ o ∈ swept, c ∈ { a | a ∈ o } }) a := by
    intro a ha
    obtain ⟨o, ho, rfl⟩ := List.mem_filterMap.mp ha
    exact within_of_mem (.inr ⟨_, ho, rfl⟩)
  exact tracking.after (tracking.forM fun a ha => scanAutomaton_adds (kept a ha)) fun _ => tracking.pure kept

theorem eliminate_adds (hn : Within K n) {tables : Option StateTables} (htables : ∀ t ∈ tables, ∀ c ∈ t.nodes, Within K c) :
    Adds K (eliminate n tables) fun r => { c | c = r.decoder ∨ c ∈ r.tables.nodes } := by
  by_cases hkind : Kind.of? n = some .decoder
  · have given {L : Set Node} (hn : Within L n) (t : StateTables) (ht : ∀ c ∈ t.nodes, Within L c) :
        Adds L (eliminate n (some t)) fun r => { c | c = r.decoder ∨ c ∈ r.tables.nodes } := by
      rw [eliminate, if_neg (not_not.mpr hkind)]
      simp only [pure_bind]
      refine Adds.readBind fun outs _ => Adds.readBind fun dfas hdfas => ?_
      have hautomata : ∀ a ∈ dfas, Within L a := fun a ha => hn.child (Node.mem_children_of_getNodes hdfas ha)
      refine Adds.bind (Tracking.run (sweep_adds hautomata) (by simp [OrderedMap.empty, OrderedMap.values])) fun p => ?_
      refine Adds.readBind fun inputs _ => Tracking.ofBuild.after (Adds.logs (e := .ok ()) fun _ => rfl) fun _ => ?_
      have hchannels : ∀ c ∈ p.2.values, Within (L ∪ ({ a | a ∈ p.1 } ∪ { c | c ∈ p.2.values })) c :=
        fun c hc => within_of_mem (.inr (.inr hc))
      have hkept : ∀ a ∈ p.1, Within (L ∪ ({ a | a ∈ p.1 } ∪ { c | c ∈ p.2.values })) a :=
        fun a ha => within_of_mem (.inr (.inl ha))
      refine Adds.bind (update_adds hn.left (by simpa using ⟨hchannels, hkept⟩)) fun d => Adds.pure ?_
      rintro c (rfl | hc)
      · exact within_of_mem (.inr rfl)
      · exact (ht c hc).left.left
    cases tables with
    | some t => exact given hn t (htables t rfl)
    | none =>
      rw [eliminate_none hkind]
      exact Adds.bind (StateTables.build_adds hn) fun t => given hn.left t fun c hc => within_of_mem (.inr hc)
  · rw [eliminate, if_pos hkind]
    exact Adds.throw _

end Liveness
end TypedTree.Decoder
