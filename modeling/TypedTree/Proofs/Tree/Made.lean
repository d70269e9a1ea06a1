import TypedTree.Proofs.Tree.Mapping
import TypedTree.Proofs.Tree.Simulation
import TypedTree.Proofs.Tree.Update

/-! Nodes that are made in a workspace: built, updated, or rebuilt by a transform of the nodes they hold. Main statement:
    such a node has an identity that was not given out before, whatever the transform does, as long as it takes
    identities from the supply only. -/

namespace TypedTree

/-! ### Transforms of what a node holds -/

section Transform
variable {σ : Type} {b : NodeId}

theorem Value.mapItems_takes {items : List Value} {f : { c : Node // c ∈ items.filterMap asNode? } → StateT σ BuildM Node}
    (hf : ∀ c, Takes b (f c) fun _ => True) : Takes b (mapItems items f) fun _ => True := by
  refine (Takes.mapM (Q := fun _ => True) ?_).imp fun _ _ => trivial
  rintro ⟨v, hv⟩ -
  cases v with
  | node c => exact (hf _).map fun _ _ => trivial
  | _ => exact .pure trivial

theorem Value.mapNodes_takes {v : Value} {f : { c : Node // c ∈ v.nodes } → StateT σ BuildM Node}
    (hf : ∀ c, Takes b (f c) fun _ => True) : Takes b (v.mapNodes f) fun _ => True := by
  cases v with
  | node c => exact (hf _).map fun _ _ => trivial
  | list items | set items => exact (mapItems_takes hf).map fun _ _ => trivial
  | _ => exact .pure trivial

/-- If the transform takes identities from the supply only, the one of the rebuilt node comes from there as well. -/
theorem Node.mapSmaller_takes {n : Node} {sel : Selector} {f : n.Smaller → StateT σ BuildM Node}
    (hf : ∀ c : n.Smaller, c.1 ∈ n.children → Takes b (f c) fun _ => True) :
    Takes b (n.mapSmaller sel f) fun n' => b ≤ n'.id := by
  unfold mapSmaller
  refine (Takes.mapM (Q := fun _ => True) ?_).bind fun values _ => .lift fun w n' w' hb hrun => ?_
  · rintro ⟨⟨field, v⟩, hp⟩ -
    by_cases hsel : sel.selects field = true
    · rw [if_pos hsel]
      refine (Value.mapNodes_takes fun c => hf _ ?_).bind fun value _ => .lift fun w v' w' hb hrun => ?_
      · exact List.mem_flatMap.mpr ⟨v, mem_values_of_mem_fields hp, c.2⟩
      · rw [built_liftM] at hrun
        obtain ⟨-, rfl⟩ := Prod.mk.inj hrun
        exact ⟨hb, trivial⟩
    · rw [if_neg hsel]
      exact .pure trivial
  · cases hrun
    exact ⟨Nat.le_succ_of_le hb, hb⟩

end Transform

/-! ### What is made -/

/-- The node was made in a run that started in the workspace `w`: from arguments, from another node and updates, or from
    another node by a transform of the nodes it holds, as it is when a tree is mapped, rewritten or copied. The transform
    may do what it likes and have a state, but it gives no identities back to the supply. -/
inductive Node.MadeIn (n : Node) (w : Workspace) : Prop
  | build {v : Variant} {args : List Argument} {w' : Workspace} (run : built (v.build args) w = (.ok n, w')) : MadeIn n w
  | update {m : Node} {updates : List Argument} {w' : Workspace} (changed : updates ≠ [])
      (run : built (m.update updates) w = (.ok n, w')) : MadeIn n w
  | map {σ : Type} {m : Node} {sel : Selector} {f : m.Smaller → StateT σ BuildM Node} {s s' : σ} {w' : Workspace}
      (supply : ∀ c : m.Smaller, c.1 ∈ m.children → ∀ s w c' s' w', outcome (f c) s w = (.ok (c', s'), w') →
        w.nextId ≤ w'.nextId)
      (run : outcome (m.mapSmaller sel f) s w = (.ok (n, s'), w')) : MadeIn n w

namespace Node
variable {n n' : Node} {w w' : Workspace}

theorem MadeIn.le_id (h : n.MadeIn w) : w.nextId ≤ n.id := by
  cases h with
  | build run =>
    obtain ⟨values, -, run⟩ := built_liftM_bind_eq_ok.mp run
    cases run
    exact Nat.le_refl _
  | update changed run => exact Nat.le_of_eq (id_of_built_update changed run).1.symm
  | @map _ m _ f s s' w' supply run =>
    have taken (c : m.Smaller) (hc : c.1 ∈ m.children) : Takes w.nextId (f c) fun _ => True :=
      fun s₁ w₁ c' s₂ w₂ hb hrun => ⟨Nat.le_trans hb (supply c hc s₁ w₁ c' s₂ w₂ hrun), trivial⟩
    exact (mapSmaller_takes taken s w n s' w' (Nat.le_refl _) run).2

/-- A transform without a state is one that leaves its state as it is. -/
theorem MadeIn.of_map {sel : Selector} {f : Node → BuildM Node}
    (supply : ∀ c ∈ n.children, ∀ w c' w', built (f c) w = (.ok c', w') → w.nextId ≤ w'.nextId)
    (run : built (n.map sel f) w = (.ok n', w')) : n'.MadeIn w := by
  have hrun : outcome (n.mapSmaller sel fun c => liftM (f c.1)) () w = (.ok (n', ()), w') := by
    rw [← liftM_mapSmaller, outcome_lift, ← Node.map, run]
  refine .map (fun c hc s w c' s' w' h => ?_) hrun
  rw [outcome_lift] at h
  rcases hx : built (f c.1) w with ⟨_ | _, _⟩ <;> rw [hx] at h <;> cases h
  exact supply c.1 hc w _ _ hx

theorem copy_takes {b : NodeId} (n : Node) : Takes b (liftM n.copy : StateT Unit BuildM Node) fun n' => b ≤ n'.id := by
  rw [copy_eq_map, map, liftM_mapSmaller]
  exact mapSmaller_takes fun c _ => (copy_takes c.1).imp fun _ _ => trivial
termination_by sizeOf n
decreasing_by exact c.2

/-- A copy is made by copying what the node holds. -/
theorem madeIn_of_copy (run : built n.copy w = (.ok n', w')) : n'.MadeIn w := by
  rw [copy_eq_map] at run
  refine .of_map (fun c _ w c' w' h => ?_) run
  have hrun : outcome (liftM c.copy) () w = (.ok (c', ()), w') := by rw [outcome_lift, h]
  exact (copy_takes c () w c' () w' (Nat.le_refl _) hrun).1

end Node
end TypedTree
