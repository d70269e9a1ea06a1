import TypedTree.Proofs.Decoder.Elimination
import TypedTree.Proofs.Tree.Content

/-! Dead code has no part in elimination. Whatever dead actions and automata are taken out of a decoder beforehand,
    elimination succeeds as before, finds the same channels in the same order, and ends with a decoder of the same
    content. Its own result is such a decoder, so to eliminate once more changes nothing. -/

namespace TypedTree.Decoder.Liveness

/-! ### Thinning -/

/-- The second list is the first one without some entries that may be dropped, the others replaced by related ones. -/
inductive Thinned {α β : Type} (drop : α → Prop) (keep : α → β → Prop) : List α → List β → Prop
  | nil : Thinned drop keep [] []
  | keep {x : α} {y : β} {xs : List α} {ys : List β} (h : keep x y) (rest : Thinned drop keep xs ys) :
      Thinned drop keep (x :: xs) (y :: ys)
  | drop {x : α} {xs : List α} {ys : List β} (h : drop x) (rest : Thinned drop keep xs ys) :
      Thinned drop keep (x :: xs) ys

namespace Thinned
variable {α β γ : Type} {drop : α → Prop} {keep : α → β → Prop} {xs : List α} {ys : List β}

theorem of_filter {p : α → Bool} (h : List.Forall₂ keep (xs.filter p) ys) :
    Thinned (fun x => p x = false) keep xs ys := by
  induction xs generalizing ys with
  | nil =>
    cases h
    exact .nil
  | cons x xs ih =>
    rw [List.filter_cons] at h
    by_cases hx : p x = true
    · rw [if_pos hx] at h
      obtain _ | ⟨hxy, h⟩ := h
      exact .keep hxy (ih h)
    · rw [if_neg hx] at h
      exact .drop (Bool.eq_false_iff.mpr hx) (ih h)

/-- What is dropped is not missed where it would have been left out anyway. -/
theorem filter {p : α → Bool} {q : β → Bool} (h : Thinned drop keep xs ys) (hdrop : ∀ x, drop x → p x = false)
    (hkeep : ∀ x y, keep x y → q y = p x) : List.Forall₂ keep (xs.filter p) (ys.filter q) := by
  induction h with
  | nil => exact .nil
  | @keep x y _ _ hxy _ ih =>
    rw [List.filter_cons, List.filter_cons, hkeep x y hxy]
    split
    · exact .cons hxy ih
    · exact ih
  | @drop x _ _ hx _ ih =>
    rw [List.filter_cons, hdrop x hx]
    exact ih

theorem flatMap {f : α → List γ} {g : β → List γ} (h : Thinned drop keep xs ys) (hdrop : ∀ x, drop x → f x = [])
    (hkeep : ∀ x y, keep x y → g y = f x) : ys.flatMap g = xs.flatMap f := by
  induction h with
  | nil => rfl
  | @keep x y _ _ hxy _ ih => rw [List.flatMap_cons, List.flatMap_cons, hkeep x y hxy, ih]
  | @drop x _ _ hx _ ih => rw [List.flatMap_cons, hdrop x hx, ih, List.nil_append]

theorem exists_of_mem (h : Thinned drop keep xs ys) {y : β} (hy : y ∈ ys) : ∃ x ∈ xs, keep x y := by
  induction h with
  | nil => cases hy
  | @keep x _ _ _ hxy _ ih =>
    rcases List.mem_cons.mp hy with rfl | hy
    · exact ⟨x, List.mem_cons_self, hxy⟩
    · obtain ⟨x, hx, hxy⟩ := ih hy
      exact ⟨x, List.mem_cons_of_mem _ hx, hxy⟩
  | drop _ _ ih =>
    obtain ⟨x, hx, hxy⟩ := ih hy
    exact ⟨x, List.mem_cons_of_mem _ hx, hxy⟩

end Thinned

/-! ### Pruned decoders -/

/-- `t'` is the transition `t`, perhaps without some actions that are not live in the decoder. -/
structure PrunedTransition (decoder t t' : Node) : Prop where
  variant : t'.variant = t.variant
  actions : ∃ actions, t'.get "actions" = .ok (.nodeList actions) ∧
    Thinned (fun a => live decoder a = false) Eq (t.held "actions") actions
  others : ∀ name ≠ "actions", t'.get name = t.get name

structure PrunedAutomaton (decoder a a' : Node) : Prop where
  variant : a'.variant = a.variant
  transitions : ∃ ts, a'.get "transitions" = .ok (.nodeList ts) ∧
    List.Forall₂ (PrunedTransition decoder) (a.held "transitions") ts
  others : ∀ name ≠ "transitions", a'.get name = a.get name

/-- `d'` is the decoder `d`, perhaps with other inputs and without some actions that are not live and some automata
    without live actions. -/
structure Pruned (d d' : Node) : Prop where
  variant : d'.variant = d.variant
  dfas : ∃ dfas, d'.get "dfas" = .ok (.nodeList dfas) ∧
    Thinned (fun a => hasLive d a = false) (PrunedAutomaton d) (d.held "dfas") dfas
  others : ∀ name, name ≠ "inputs" → name ≠ "dfas" → d'.get name = d.get name

/-! ### What does not change -/

section Congr
variable {d d' : Node}

theorem live_congr (h : d'.get "outputs" = d.get "outputs") : live d' = live d := by
  funext a
  rw [live, live, Node.holds_eq_of_get h]

variable (h : live d' = live d)
include h

theorem liveActions_congr : liveActions d' = liveActions d := by
  funext t
  rw [liveActions, liveActions, h]

theorem hasLive_congr : hasLive d' = hasLive d := by
  funext a
  rw [hasLive, hasLive, h]

theorem appendReads_congr : appendReads d' = appendReads d := by
  funext t
  rw [appendReads, appendReads, liveActions_congr h]

theorem triggerReads_congr (n : Node) : triggerReads d' n = triggerReads d n := by
  have inner : ∀ name, (n.held name).flatMap (triggerReads d') = (n.held name).flatMap (triggerReads d) := fun name =>
    List.flatMap_congr fun c hc => by
      have := Node.sizeOf_lt_of_mem_held hc
      exact triggerReads_congr c
  rw [triggerReads_eq, triggerReads_eq]
  simp only [inner, appendReads_congr h]
termination_by sizeOf n

end Congr

section Pruned
variable {d : Node}

theorem PrunedTransition.liveActions {t t' : Node} (h : PrunedTransition d t t') :
    liveActions d t' = liveActions d t := by
  obtain ⟨actions, hget, hthin⟩ := h.actions
  rw [Liveness.liveActions, Liveness.liveActions, Node.held_of_nodeList hget]
  have hfilter := hthin.filter (p := live d) (q := live d) (fun _ ha => ha) (by rintro a _ rfl; rfl)
  rw [List.forall₂_eq_eq_eq] at hfilter
  exact hfilter.symm

theorem PrunedTransition.appendReads {t t' : Node} (h : PrunedTransition d t t') :
    appendReads d t' = appendReads d t := by
  rw [Liveness.appendReads, Liveness.appendReads, h.liveActions]

namespace PrunedAutomaton
variable {a a' : Node}

theorem hasLive (h : PrunedAutomaton d a a') : hasLive d a' = hasLive d a := by
  obtain ⟨ts, hget, hts⟩ := h.transitions
  have hactions : ts.map (Liveness.liveActions d) = (a.held "transitions").map (Liveness.liveActions d) := by
    rw [← List.forall₂_eq_eq_eq, List.forall₂_map_left_iff, List.forall₂_map_right_iff]
    exact hts.flip.imp fun _ _ ht => PrunedTransition.liveActions ht
  rw [hasLive_eq, hasLive_eq, Node.held_of_nodeList hget, hactions]

theorem appendReads (h : PrunedAutomaton d a a') :
    (a'.held "transitions").flatMap (appendReads d) = (a.held "transitions").flatMap (appendReads d) := by
  obtain ⟨ts, hget, hts⟩ := h.transitions
  rw [Node.held_of_nodeList hget]
  exact flatMap_eq_of_forall₂ hts fun _ _ => PrunedTransition.appendReads

theorem triggerReads (h : PrunedAutomaton d a a') : automatonTriggerReads d a' = automatonTriggerReads d a := by
  obtain ⟨ts, hget, hts⟩ := h.transitions
  rw [automatonTriggerReads, automatonTriggerReads, Node.held_of_nodeList hget]
  exact flatMap_eq_of_forall₂ hts fun t t' ht => by rw [Node.held_congr (ht.others "trigger" (by decide))]

theorem listsStart (h : PrunedAutomaton d a a') : listsStart a' = listsStart a := by
  rw [Decoder.listsStart, Decoder.listsStart, Node.held_congr (h.others "start" (by decide)),
    Node.holds_eq_of_get (h.others "states" (by decide))]

end PrunedAutomaton

/-- An automaton without a live action reads nothing by its appends. -/
theorem appendReads_of_not_hasLive {a : Node} (h : hasLive d a = false) :
    (a.held "transitions").flatMap (appendReads d) = [] := by
  rw [hasLive, List.any_eq_false] at h
  refine List.flatMap_eq_nil_iff.mpr fun t ht => ?_
  have hnone : liveActions d t = [] := List.filter_eq_nil_iff.mpr fun x hx hlive =>
    h t ht (List.any_eq_true.mpr ⟨x, hx, hlive⟩)
  rw [appendReads, hnone]
  rfl

namespace Pruned
variable {d' : Node} (h : Pruned d d')
include h

theorem live : live d' = live d := live_congr (h.others "outputs" (by decide) (by decide))

theorem survivors : List.Forall₂ (PrunedAutomaton d) (survivors d) (survivors d') := by
  obtain ⟨dfas, hget, hthin⟩ := h.dfas
  rw [Liveness.survivors, Liveness.survivors, Node.held_of_nodeList hget, hasLive_congr h.live]
  exact hthin.filter (fun _ ha => ha) fun _ _ => PrunedAutomaton.hasLive

/-- The live appends of both decoders read the same channels in the same order. -/
theorem appendChannels : appendChannels d' = appendChannels d := by
  obtain ⟨dfas, hget, hthin⟩ := h.dfas
  rw [Liveness.appendChannels, Liveness.appendChannels, Node.held_of_nodeList hget, appendReads_congr h.live]
  exact hthin.flatMap (fun _ => appendReads_of_not_hasLive) fun _ _ => PrunedAutomaton.appendReads

theorem triggerChannels : triggerChannels d' = triggerChannels d := by
  have hreads : ∀ a, automatonTriggerReads d' a = automatonTriggerReads d a := fun a => by
    rw [automatonTriggerReads, automatonTriggerReads, funext (triggerReads_congr h.live)]
  rw [Liveness.triggerChannels, Liveness.triggerChannels, funext hreads]
  exact flatMap_eq_of_forall₂ h.survivors fun _ _ => PrunedAutomaton.triggerReads

theorem listsStart (hall : ∀ a ∈ d.held "dfas", listsStart a = true) : ∀ a' ∈ d'.held "dfas", listsStart a' = true := by
  obtain ⟨dfas, hget, hthin⟩ := h.dfas
  rw [Node.held_of_nodeList hget]
  intro a' ha'
  obtain ⟨a, ha, hpruned⟩ := hthin.exists_of_mem ha'
  rw [hpruned.listsStart, hall a ha]

end Pruned

/-! ### Elimination prunes -/

theorem Trimmed.pruned {t t' : Node} (h : Trimmed d t t') : PrunedTransition d t t' where
  variant := h.variant
  actions := ⟨liveActions d t, h.actions, .of_filter (List.forall₂_refl _)⟩
  others := h.others

theorem Rebuilt.pruned {a a' : Node} (h : Rebuilt d a a') : PrunedAutomaton d a a' where
  variant := h.variant
  transitions := by
    obtain ⟨ts, hget, htrim⟩ := h.transitions
    exact ⟨ts, hget, htrim.imp fun _ _ => Trimmed.pruned⟩
  others := h.others

theorem Eliminated.pruned {d' : Node} {kept : List Node} (h : Eliminated d d' kept) : Pruned d d' where
  variant := h.update.variant
  dfas := ⟨kept, h.update.get "dfas", .of_filter (h.rebuilt.imp fun _ _ => Rebuilt.pruned)⟩
  others name hi ha := h.update.get_other (by simpa [List.lookup_eq_none_iff] using ⟨hi, ha⟩)

end Pruned

/-! ### Results of the same content -/

theorem doubleFree_fields : ∀ v ∈ variants, ∀ f ∈ v.fields, f.type.doubleFree = true := by decide

/-- Nodes that differ in one field have the same content if the field has. -/
theorem sameContent_of_others {n m : Node} (hn : n.BuiltFrom variants) (hm : m.BuiltFrom variants)
    (hv : m.variant = n.variant) {name : String} (hothers : ∀ other ≠ name, m.get other = n.get other)
    (h : ∀ v w, n.get name = .ok v → m.get name = .ok w → v.sameContent w = true) : n.sameContent m = true := by
  have hnd := schema.consistent.nodup_fields n.variant hn.variant_mem
  refine Node.sameContent_of_fields hn.fits hm.fits hv hnd fun f hf v w hadm hget hget' => ?_
  by_cases hname : f.name = name
  · exact h v w (hname ▸ hget) (hname ▸ hget')
  · rw [hothers _ hname, hget] at hget'
    cases hget'
    exact FieldType.sameContent_self (doubleFree_fields _ hn.variant_mem f hf) hadm

section Results
variable {d d' : Node} (hlive : live d' = live d)
include hlive

theorem PrunedTransition.sameContent {t t' u u' : Node} (h : PrunedTransition d t t') (hu : Trimmed d t u)
    (hu' : Trimmed d' t' u') (hb : u.BuiltFrom variants) (hb' : u'.BuiltFrom variants) : u.sameContent u' = true := by
  have hv : u'.variant = u.variant := hu'.variant.trans (h.variant.trans hu.variant.symm)
  have hothers : ∀ name ≠ "actions", u'.get name = u.get name := fun name hne =>
    (hu'.others name hne).trans ((h.others name hne).trans (hu.others name hne).symm)
  refine sameContent_of_others hb hb' hv hothers fun v v' hget hget' => ?_
  rw [hu.actions] at hget
  rw [hu'.actions, liveActions_congr hlive, h.liveActions] at hget'
  cases hget
  cases hget'
  exact Value.sameContent_nodeList (List.forall₂_same.mpr fun a _ => a.sameContent_self)

theorem PrunedAutomaton.sameContent {a a' k k' : Node} (h : PrunedAutomaton d a a') (hk : Rebuilt d a k)
    (hk' : Rebuilt d' a' k') (hb : k.BuiltFrom variants) (hb' : k'.BuiltFrom variants) : k.sameContent k' = true := by
  obtain ⟨ts, hts, hpruned⟩ := h.transitions
  obtain ⟨us, hus, htrim⟩ := hk.transitions
  obtain ⟨us', hus', htrim'⟩ := hk'.transitions
  rw [Node.held_of_nodeList hts] at htrim'
  have hv : k'.variant = k.variant := hk'.variant.trans (h.variant.trans hk.variant.symm)
  have hothers : ∀ name ≠ "transitions", k'.get name = k.get name := fun name hne =>
    (hk'.others name hne).trans ((h.others name hne).trans (hk.others name hne).symm)
  refine sameContent_of_others hb hb' hv hothers fun v v' hget hget' => ?_
  rw [hus] at hget
  rw [hus'] at hget'
  cases hget
  cases hget'
  refine Value.sameContent_nodeList (forall₂_imp_of_mem (forall₂_both hpruned htrim htrim') ?_)
  rintro u hu u' hu' ⟨t, t', ht, htu, htu'⟩
  have hbu : u.BuiltFrom variants := Node.Everywhere.held hb (Node.held_of_nodeList hus ▸ hu)
  have hbu' : u'.BuiltFrom variants := Node.Everywhere.held hb' (Node.held_of_nodeList hus' ▸ hu')
  exact ht.sameContent hlive htu htu' hbu hbu'

end Results

/-- The results for a decoder and a pruned one: the same inputs, and the same content. -/
theorem Pruned.sameResult {d d' e e' : Node} {kept kept' : List Node} (h : Pruned d d') (he : Eliminated d e kept)
    (he' : Eliminated d' e' kept') (hb : e.BuiltFrom variants) (hb' : e'.BuiltFrom variants) :
    e'.get "inputs" = e.get "inputs" ∧ e.sameContent e' = true := by
  have hinputs : e'.get "inputs" = e.get "inputs" := by
    rw [he.get_inputs, he'.get_inputs, h.appendChannels, h.triggerChannels]
  have hv : e'.variant = e.variant := he'.update.variant.trans (h.variant.trans he.update.variant.symm)
  have hothers : ∀ name ≠ "dfas", e'.get name = e.get name := fun name hne => by
    by_cases hi : name = "inputs"
    · rw [hi, hinputs]
    · rw [he.get_other hi hne, he'.get_other hi hne, h.others name hi hne]
  refine ⟨hinputs, sameContent_of_others hb hb' hv hothers fun v v' hget hget' => ?_⟩
  rw [he.get_dfas] at hget
  rw [he'.get_dfas] at hget'
  cases hget
  cases hget'
  refine Value.sameContent_nodeList (forall₂_imp_of_mem (forall₂_both h.survivors he.rebuilt he'.rebuilt) ?_)
  rintro k hk k' hk' ⟨a, a', ha, hak, hak'⟩
  have hbk : k.BuiltFrom variants := Node.Everywhere.held hb (Node.held_of_nodeList he.get_dfas ▸ hk)
  have hbk' : k'.BuiltFrom variants := Node.Everywhere.held hb' (Node.held_of_nodeList he'.get_dfas ▸ hk')
  exact ha.sameContent h.live hak hak' hbk hbk'

/-! ### Eliminating what is left -/

/-- Elimination from the decoder succeeds and ends as in `r`: with the same inputs and with a decoder of the same
    content. -/
def EndsAs (r : Optimized) (decoder : Node) : Prop :=
  ∀ w, ∃ r' w', built (eliminate decoder none) w = (.ok r', w') ∧ r'.decoder.get "inputs" = r.decoder.get "inputs" ∧
    r.decoder.sameContent r'.decoder = true

theorem Pruned.endsAs {d d' : Node} (hd : d.BuiltFrom variants) (hd' : d'.BuiltFrom variants) (hp : Pruned d d')
    {w w' : Workspace} {r : Optimized} (h : built (eliminate d none) w = (.ok r, w')) : EndsAs r d' := by
  intro w₂
  have kind := variant_of_eliminate hd h
  have kind' : d'.variant = Kind.decoder.variant := hp.variant.trans kind
  have hstart := hp.listsStart ((exists_eliminate_none_iff hd kind w).mp ⟨r, w', h⟩)
  obtain ⟨r', w₃, h'⟩ := (exists_eliminate_none_iff hd' kind' w₂).mpr hstart
  obtain ⟨kept, he, hb, -⟩ := eliminate_spec hd h
  obtain ⟨kept', he', hb', -⟩ := eliminate_spec hd' h'
  exact ⟨r', w₃, h', hp.sameResult he he' hb hb'⟩

/-- Dead code is irrelevant to elimination. If it succeeds on a decoder, it ends the same on every decoder that is left
    when some dead actions and some automata without live actions are taken out; its own result is one of these. -/
theorem eliminate_pruned {d d' : Node} (hd : d.BuiltFrom variants) (hd' : d'.BuiltFrom variants) (hp : Pruned d d')
    {w w' : Workspace} {r : Optimized} (h : built (eliminate d none) w = (.ok r, w')) :
    EndsAs r d' ∧ EndsAs r r.decoder := by
  obtain ⟨kept, he, hb, -⟩ := eliminate_spec hd h
  exact ⟨hp.endsAs hd hd' h, he.pruned.endsAs hd hb h⟩

/-- The receiver without inputs, without its second automaton, and with the data alone shifted in. -/
def slimReceiver : Node :=
  .mk 16 Kind.decoder.variant [.nodeList [], .nodeList [data], .nodeList [loop 15 (step 14 [shift])], .absent, .absent]

theorem slimReceiver_builtFrom : slimReceiver.BuiltFrom variants := by decide

theorem step_pruned : PrunedTransition receiver (step 9 [report, shift]) (step 14 [shift]) where
  variant := rfl
  actions := ⟨[shift], rfl, .drop (by decide) (.keep rfl .nil)⟩
  others _ hne := by
    have hfits : (step 9 [report, shift]).Fits := by decide +kernel
    exact hfits.get_other (step 14 [shift]) rfl rfl (i := ⟨3, by decide⟩) rfl (x := .nodeList [shift]) rfl rfl hne

theorem loop_pruned : PrunedAutomaton receiver (loop 11 (step 9 [report, shift])) (loop 15 (step 14 [shift])) where
  variant := rfl
  transitions := ⟨[step 14 [shift]], rfl, .cons step_pruned .nil⟩
  others _ hne := by
    have hfits : (loop 11 (step 9 [report, shift])).Fits := by decide +kernel
    exact hfits.get_other (loop 15 (step 14 [shift])) rfl rfl (i := ⟨2, by decide⟩) rfl
      (x := .nodeList [step 14 [shift]]) rfl rfl hne

theorem receiver_pruned : Pruned receiver slimReceiver where
  variant := rfl
  dfas := ⟨[loop 15 (step 14 [shift])], rfl, .keep loop_pruned (.drop (by decide) .nil)⟩
  others name hi ha := by
    let deaf : Node := .mk 13 Kind.decoder.variant (receiver.values.set 0 (.nodeList []))
    have hfits : deaf.Fits := by decide +kernel
    have hdfas : slimReceiver.get name = deaf.get name :=
      hfits.get_other slimReceiver rfl rfl (i := ⟨2, by decide⟩) rfl (x := .nodeList [loop 15 (step 14 [shift])]) rfl
        rfl ha
    exact hdfas.trans
      (receiver_builtFrom.fits.get_other deaf rfl rfl (i := ⟨0, by decide⟩) rfl (x := .nodeList []) rfl rfl hi)

theorem eliminate_pruned_receiver : receiver.BuiltFrom variants ∧ slimReceiver.BuiltFrom variants ∧
    Pruned receiver slimReceiver ∧ ∃ r w', built (eliminate receiver none) {} = (.ok r, w') ∧
      EndsAs r slimReceiver ∧ EndsAs r r.decoder := by
  obtain ⟨r, w', h⟩ := (exists_eliminate_none_iff receiver_builtFrom rfl {}).mpr (by decide)
  exact ⟨receiver_builtFrom, slimReceiver_builtFrom, receiver_pruned, r, w', h,
    eliminate_pruned receiver_builtFrom slimReceiver_builtFrom receiver_pruned h⟩

end TypedTree.Decoder.Liveness
