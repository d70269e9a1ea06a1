import TypedTree.Decoder.Liveness
import TypedTree.Proofs.Decoder.Program
import TypedTree.Proofs.Run

/-! Collecting channels. A sweep ends with the channels it started with and, behind them, those it read, each once and
    in the order of its first occurrence. What sweeps read is put together as the sweeps are. -/

namespace TypedTree.Decoder.Liveness

/-- The channels with further ones collected. -/
def collect (m : Channels) (cs : List Node) : Channels := cs.foldl (fun m c => m.insertNew c.id c) m

theorem collect_append (m : Channels) (cs ds : List Node) : collect m (cs ++ ds) = collect (collect m cs) ds :=
  List.foldl_append

/-! ### First occurrences -/

/-- Every channel is stored under its identity. -/
def ByIdentity (m : Channels) : Prop := m.keys = m.values.map Node.id

theorem values_insertNew (m : Channels) (c : Node) :
    (m.insertNew c.id c).values = if c.id ∈ m.keys then m.values else m.values ++ [c] := by
  by_cases h : c.id ∈ m.keys
  · rw [OrderedMap.insertNew, dif_pos h, if_pos h]
  · rw [OrderedMap.insertNew, dif_neg h, if_neg h]
    simp [OrderedMap.values]

theorem ByIdentity.insertNew {m : Channels} (h : ByIdentity m) (c : Node) : ByIdentity (m.insertNew c.id c) := by
  rw [ByIdentity, OrderedMap.keys_insertNew, values_insertNew]
  by_cases hc : c.id ∈ m.keys
  · rw [if_pos hc, if_pos hc]
    exact h
  · rw [if_neg hc, if_neg hc, List.map_append, ← h]
    rfl

theorem contains_eq_id_mem (cs : List Node) (c : Node) : cs.contains c = decide (c.id ∈ cs.map Node.id) := by
  rw [Bool.eq_iff_iff, decide_eq_true_iff, List.contains_eq_any_beq, List.any_eq_true, List.mem_map]
  exact exists_congr fun x => and_congr_right fun _ => Node.beq_iff.trans eq_comm

theorem contains_values {m : Channels} (h : ByIdentity m) (c : Node) :
    m.values.contains c = decide (c.id ∈ m.keys) := by
  rw [contains_eq_id_mem, h]

/-- Of the channels that are collected, those are new that were not there and did not occur before. -/
theorem values_collect {m : Channels} (h : ByIdentity m) (cs : List Node) :
    (collect m cs).values = m.values ++ (cs.filter fun c => !m.values.contains c).eraseDups := by
  induction cs generalizing m with
  | nil => simp [collect]
  | cons c cs ih =>
    show (collect (m.insertNew c.id c) cs).values = _
    rw [ih (h.insertNew c), values_insertNew, List.filter_cons, contains_values h c]
    by_cases hc : c.id ∈ m.keys
    · simp only [if_pos hc, decide_eq_true hc, Bool.not_true, Bool.false_eq_true, if_false]
    · simp only [if_neg hc, decide_eq_false hc, Bool.not_false, if_true, List.eraseDups_cons, List.append_assoc,
        List.singleton_append, List.filter_filter]
      -- In the rest, what was there before and what repeats the head are left out alike.
      refine congrArg (fun ds => m.values ++ c :: List.eraseDups ds) (List.filter_congr fun d _ => ?_)
      rw [List.contains_append, List.contains_cons, List.contains_nil, Bool.or_false, Bool.not_or, Bool.and_comm]

theorem values_collect_empty (cs : List Node) : (collect .empty cs).values = cs.eraseDups := by
  rw [values_collect (show ByIdentity .empty from rfl)]
  simp [OrderedMap.values, OrderedMap.empty]

theorem byIdentity_collect {m : Channels} (h : ByIdentity m) (cs : List Node) : ByIdentity (collect m cs) := by
  induction cs generalizing m with
  | nil => exact h
  | cons c cs ih => exact ih (h.insertNew c)

theorem mem_keys_collect {m : Channels} {cs : List Node} {k : NodeId} :
    k ∈ (collect m cs).keys ↔ k ∈ m.keys ∨ k ∈ cs.map Node.id := by
  induction cs generalizing m with
  | nil => simp [collect]
  | cons c cs ih =>
    refine Iff.trans (ih (m := m.insertNew c.id c)) ?_
    rw [OrderedMap.keys_insertNew, List.map_cons, List.mem_cons]
    by_cases hc : c.id ∈ m.keys
    · rw [if_pos hc]
      exact ⟨fun h => h.imp_right Or.inr, fun h => h.elim Or.inl fun h => h.elim (fun h => .inl (h ▸ hc)) Or.inr⟩
    · rw [if_neg hc, List.mem_append, List.mem_singleton, or_assoc]

theorem mem_of_mem_values_collect {m : Channels} {cs : List Node} {c : Node} (h : c ∈ (collect m cs).values) :
    c ∈ m.values ∨ c ∈ cs := by
  induction cs generalizing m with
  | nil => exact .inl h
  | cons d cs ih =>
    rcases ih (m := m.insertNew d.id d) h with h | h
    · rw [values_insertNew] at h
      by_cases hd : d.id ∈ m.keys
      · rw [if_pos hd] at h
        exact .inl h
      · rw [if_neg hd, List.mem_append, List.mem_singleton] at h
        rcases h with h | rfl
        · exact .inl h
        · exact .inr List.mem_cons_self
    · exact .inr (List.mem_cons_of_mem _ h)

theorem mem_of_mem_eraseDups {cs : List Node} {c : Node} (h : c ∈ cs.eraseDups) : c ∈ cs := by
  rw [← values_collect_empty] at h
  exact (mem_of_mem_values_collect h).resolve_left List.not_mem_nil

/-- Nothing that is collected gets lost. -/
theorem contains_eraseDups (cs : List Node) (c : Node) : cs.eraseDups.contains c = cs.contains c := by
  rw [← values_collect_empty, contains_values (byIdentity_collect (show ByIdentity .empty from rfl) cs),
    contains_eq_id_mem cs c, Bool.eq_iff_iff, decide_eq_true_iff, decide_eq_true_iff, mem_keys_collect]
  exact or_iff_right List.not_mem_nil

/-! ### Sweeps -/

/-- From every state the sweep succeeds, with a value that satisfies `P`, and collects the channels `cs`. -/
structure Collects {α : Type} (x : SweepM α) (cs : List Node) (P : α → Prop) : Prop where
  channels : ∀ c ∈ cs, c.isA "Channel" = true ∧ c.BuiltFrom variants
  run : ∀ m w, ∃ a w', outcome x m w = (.ok (a, collect m cs), w') ∧ P a

namespace Collects
variable {α β : Type} {x : SweepM α} {cs ds : List Node} {P : α → Prop} {Q : β → Prop}

theorem pure {a : α} (h : P a) : Collects (Pure.pure a) [] P := ⟨by simp, fun _ w => ⟨a, w, rfl, h⟩⟩

theorem bind {f : α → SweepM β} (hx : Collects x cs P) (hf : ∀ a, P a → Collects (f a) ds Q) :
    Collects (x >>= f) (cs ++ ds) Q where
  channels := by
    obtain ⟨a, -, -, ha⟩ := hx.run .empty {}
    exact List.forall_mem_append.mpr ⟨hx.channels, (hf a ha).channels⟩
  run m w := by
    obtain ⟨a, w₁, hrun, ha⟩ := hx.run m w
    obtain ⟨b, w', hrest, hb⟩ := (hf a ha).run (collect m cs) w₁
    refine ⟨b, w', ?_, hb⟩
    rw [outcome_bind, hrun, collect_append]
    exact hrest

theorem bind_pure {f : α → β} (hx : Collects x cs P) (hf : ∀ a, P a → Q (f a)) :
    Collects (x >>= fun a => Pure.pure (f a)) cs Q := by
  rw [← List.append_nil cs]
  exact hx.bind fun a ha => pure (hf a ha)

theorem lift {y : BuildM α} (h : ∀ w, ∃ a w', built y w = (.ok a, w') ∧ P a) : Collects (liftM y) [] P where
  channels := by simp
  run m w := by
    obtain ⟨a, w', hrun, ha⟩ := h w
    exact ⟨a, w', by rw [outcome_lift, hrun]; rfl, ha⟩

theorem mapM {γ : Type} {f : γ → SweepM α} {reads : γ → List Node} {R : γ → α → Prop} {xs : List γ}
    (h : ∀ x ∈ xs, Collects (f x) (reads x) (R x)) : Collects (xs.mapM f) (xs.flatMap reads) (List.Forall₂ R xs) := by
  induction xs with
  | nil => exact pure .nil
  | cons x xs ih =>
    rw [List.mapM_cons, List.flatMap_cons]
    refine (h x List.mem_cons_self).bind fun a ha => ?_
    exact (ih fun y hy => h y (List.mem_cons_of_mem _ hy)).bind_pure fun as has => .cons ha has

/-- One step for each entry of a list; what it collects is known from the entry that this one comes from. -/
theorem forM {γ δ : Type} {f : δ → SweepM PUnit} {reads : γ → List Node} {R : γ → δ → Prop} {xs : List γ} {ys : List δ}
    (hxy : List.Forall₂ R xs ys) (h : ∀ x ∈ xs, ∀ y, R x y → Collects (f y) (reads x) fun _ => True) :
    Collects (ys.forM f) (xs.flatMap reads) fun _ => True := by
  induction hxy with
  | nil => exact pure trivial
  | @cons x y xs ys hR _ ih =>
    rw [List.flatMap_cons]
    refine (h x List.mem_cons_self y hR).bind fun _ _ => ?_
    exact ih fun z hz => h z (List.mem_cons_of_mem _ hz)

end Collects
end TypedTree.Decoder.Liveness
