import TypedTree.Proofs.Decoder.StateTables

/-! The nodes in state tables. Whatever tree they are computed for, the tables hold only transitions and automata inside
    it, so all that is looked up in them is found in the tree as well. -/

namespace TypedTree

/-! ### Stored values -/

namespace OrderedMap
variable {κ ν : Type} [DecidableEq κ] {m : OrderedMap κ ν} {k : κ} {v u : ν}

theorem mem_values_modify {f : ν → ν} (h : u ∈ (m.modify k f).values) : u ∈ m.values ∨ ∃ v ∈ m.values, u = f v := by
  rw [values, modify, List.map_map] at h
  obtain ⟨e, he, rfl⟩ := List.mem_map.mp h
  have hv : e.2 ∈ m.values := List.mem_map_of_mem he
  by_cases hk : e.1 = k
  · exact .inr ⟨e.2, hv, by simp [hk]⟩
  · exact .inl (by simpa [hk] using hv)

theorem mem_values_insert (h : u ∈ (m.insert k v).values) : u ∈ m.values ∨ u = v := by
  rw [insert] at h
  split at h
  · rcases mem_values_modify h with h | ⟨_, -, rfl⟩
    · exact .inl h
    · exact .inr rfl
  · next hk =>
    rw [insertNew, dif_neg hk, values, List.map_append] at h
    simpa [values] using h

theorem mem_values_of_get? (h : m.get? k = some v) : v ∈ m.values := by
  obtain ⟨e, he, rfl⟩ := Option.map_eq_some_iff.mp h
  exact List.mem_map_of_mem (List.mem_of_find?_eq_some he)

end OrderedMap

namespace Metadata

/-- The nodes that the entries of the table hold. -/
def Table.nodes (t : Table) : List Node := t.entries.values.flatMap Value.nodes

/-- The nodes that the tables hold. -/
def Repository.nodes (r : Repository) : List Node := r.tables.values.flatMap Table.nodes

section Nodes
variable {t t' : Table} {r r' : Repository} {n a : Node} {v : Value} {name : String} {p : Node → Prop}

theorem Table.nodes_insert {id : NodeId} (ht : ∀ c ∈ t.nodes, p c) (hv : ∀ c ∈ v.nodes, p c) :
    ∀ c ∈ nodes { t with entries := t.entries.insert id v }, p c := by
  intro c hc
  obtain ⟨u, hu, hcu⟩ := List.mem_flatMap.mp hc
  rcases OrderedMap.mem_values_insert hu with hu | rfl
  · exact ht c (List.mem_flatMap.mpr ⟨u, hu, hcu⟩)
  · exact hv c hcu

theorem Table.nodes_set (h : t.set n v = .ok t') (ht : ∀ c ∈ t.nodes, p c) (hv : ∀ c ∈ v.nodes, p c) :
    ∀ c ∈ t'.nodes, p c := by
  obtain ⟨-, -, -, rfl⟩ := set_inv h
  exact nodes_insert ht hv

theorem Table.nodes_add (h : t.add n (.node a) = .ok t') (ht : ∀ c ∈ t.nodes, p c) (ha : p a) : ∀ c ∈ t'.nodes, p c := by
  obtain ⟨-, -, -, rfl⟩ := add_inv h
  refine nodes_insert ht fun c hc => ?_
  have old {u : Value} (hu : t.entries.get? n.id = some u) (hcu : c ∈ u.nodes) : p c :=
    ht c (List.mem_flatMap.mpr ⟨u, OrderedMap.mem_values_of_get? hu, hcu⟩)
  cases hentry : t.entries.get? n.id with
  | none =>
    rw [hentry] at hc
    obtain rfl : c = a := by simpa [appended, Value.nodes, Value.asNode?] using hc
    exact ha
  | some u =>
    rw [hentry] at hc
    cases u with
    | list items =>
      have hc : c ∈ items.filterMap Value.asNode? ∨ c = a := by
        simpa [appended, Value.nodes, Value.asNode?, eq_comm] using hc
      rcases hc with hc | rfl
      · exact old hentry hc
      · exact ha
    | _ =>
      obtain rfl : c = a := by simpa [appended, Value.nodes, Value.asNode?] using hc
      exact ha

theorem Repository.nodes_update {f : Table → Except Error Table} (h : r.update name f = .ok r')
    (hr : ∀ c ∈ r.nodes, p c) (hf : ∀ t t', f t = .ok t' → (∀ c ∈ t.nodes, p c) → ∀ c ∈ t'.nodes, p c) :
    ∀ c ∈ r'.nodes, p c := by
  obtain ⟨t, ht, h⟩ := bind_eq_ok.mp h
  obtain ⟨t', hft, h⟩ := bind_eq_ok.mp h
  cases h
  have stored : t ∈ r.tables.values := by
    unfold table at ht
    split at ht
    · next hget =>
      cases ht
      exact OrderedMap.mem_values_of_get? hget
    · cases ht
  intro c hc
  obtain ⟨u, hu, hcu⟩ := List.mem_flatMap.mp hc
  rcases OrderedMap.mem_values_modify hu with hu | ⟨_, -, rfl⟩
  · exact hr c (List.mem_flatMap.mpr ⟨u, hu, hcu⟩)
  · exact hf t u hft (fun c hc => hr c (List.mem_flatMap.mpr ⟨t, stored, hc⟩)) c hcu

theorem Repository.nodes_locked : ∀ c ∈ r.locked.nodes, c ∈ r.nodes := by
  intro c hc
  obtain ⟨u, hu, hcu⟩ := List.mem_flatMap.mp hc
  rw [locked, OrderedMap.values, OrderedMap.mapValues, List.map_map] at hu
  obtain ⟨e, he, rfl⟩ := List.mem_map.mp hu
  exact List.mem_flatMap.mpr ⟨e.2, List.mem_map_of_mem he, hcu⟩

end Nodes
end Metadata

/-! ### Filling the tables -/

theorem foldlM_keeps {α β : Type} {p : β → Prop} {f : β → α → Except Error β} {xs : List α} {b b' : β}
    (h : xs.foldlM f b = .ok b') (hb : p b) (hf : ∀ x ∈ xs, ∀ b b', f b x = .ok b' → p b → p b') : p b' := by
  induction xs generalizing b with
  | nil =>
    cases h
    exact hb
  | cons x xs ih =>
    rw [List.foldlM_cons] at h
    obtain ⟨b₁, hfirst, h⟩ := bind_eq_ok.mp h
    rw [List.forall_mem_cons] at hf
    exact ih h (hf.1 b b₁ hfirst hb) hf.2

namespace Decoder.StateTables
open Metadata (Table Repository)

/-- The nodes that state tables hold. -/
def nodes (t : StateTables) : List Node := t.repository.nodes

namespace Tally
variable {p : Node → Prop} {t t' : Tally} {n : Node}

theorem nodes_addTransition (h : t.addTransition n = .ok t') (ht : ∀ c ∈ t.repository.nodes, p c) (hn : p n) :
    ∀ c ∈ t'.repository.nodes, p c := by
  obtain ⟨source, -, h⟩ := bind_eq_ok.mp h
  obtain ⟨r₁, hout, h⟩ := bind_eq_ok.mp h
  obtain ⟨destination, -, h⟩ := bind_eq_ok.mp h
  obtain ⟨r₂, hin, h⟩ := bind_eq_ok.mp h
  cases h
  have h₁ := Repository.nodes_update hout ht fun t t' hadd ht => Table.nodes_add hadd ht hn
  exact Repository.nodes_update hin h₁ fun t t' hadd ht => Table.nodes_add hadd ht hn

theorem nodes_addAutomaton (h : t.addAutomaton n = .ok t') (ht : ∀ c ∈ t.repository.nodes, p c) (hn : p n) :
    ∀ c ∈ t'.repository.nodes, p c := by
  obtain ⟨start, -, h⟩ := bind_eq_ok.mp h
  obtain ⟨states, -, h⟩ := bind_eq_ok.mp h
  split at h
  · obtain ⟨r, hset, h⟩ := bind_eq_ok.mp h
    cases h
    refine foldlM_keeps (p := fun r : Repository => ∀ c ∈ r.nodes, p c) hset ht fun s _ r r' hset hr => ?_
    refine Repository.nodes_update hset hr fun t t' hset ht => Table.nodes_set hset ht fun c hc => ?_
    obtain rfl := List.mem_singleton.mp hc
    exact hn
  · cases h

/-- A walk puts only nodes of the tree into the tables. -/
theorem nodes_visit (hp : ∀ n, p n → ∀ c ∈ n.children, p c) (n : Node) {t t' : Tally} (h : t.visit n = .ok t')
    (ht : ∀ c ∈ t.repository.nodes, p c) (hn : p n) : ∀ c ∈ t'.repository.nodes, p c := by
  have below {cs : List n.Smaller} {t t' : Tally} (h : cs.foldlM (fun t c => t.visit c.1) t = .ok t')
      (hcs : ∀ c ∈ cs, c.1 ∈ n.children) (ht : ∀ c ∈ t.repository.nodes, p c) : ∀ c ∈ t'.repository.nodes, p c :=
    foldlM_keeps (p := fun t : Tally => ∀ c ∈ t.repository.nodes, p c) h ht fun c hc t t' h ht =>
      nodes_visit hp c.1 h ht (hp n hn c.1 (hcs c hc))
  rw [visit] at h
  split at h
  · obtain ⟨dfas, hdfas, h⟩ := bind_eq_ok.mp h
    exact below h (fun c hc => Node.mem_children_of_descendAll hdfas hc) ht
  · obtain ⟨transitions, htransitions, h⟩ := bind_eq_ok.mp h
    obtain ⟨t₁, hwalk, h⟩ := bind_eq_ok.mp h
    exact nodes_addAutomaton h (below hwalk (fun c hc => Node.mem_children_of_descendAll htransitions hc) ht) hn
  · exact nodes_addTransition h ht hn
  · refine below h (fun c hc => ?_) ht
    rw [← n.map_val_smallerChildren]
    exact List.mem_map_of_mem hc
termination_by sizeOf n
decreasing_by exact c.2

end Tally

theorem nodes_build {p : Node → Prop} (hp : ∀ n, p n → ∀ c ∈ n.children, p c) {root : Node} (hroot : p root)
    {w w' : Workspace} {tables : StateTables} (h : built (build root) w = (.ok tables, w')) : ∀ c ∈ tables.nodes, p c := by
  have hfst := fst_built_build root w
  rw [h] at hfst
  cases htally : Tally.ofTree root with
  | error e =>
    rw [htally] at hfst
    cases hfst
  | ok t =>
    rw [htally] at hfst
    cases hfst
    have hroot : ∀ c ∈ t.repository.nodes, p c := by
      have hblank : ∀ c ∈ blank.nodes, p c := by
        intro c hc
        cases hc
      unfold Tally.ofTree at htally
      split at htally
      · exact Tally.nodes_visit hp root htally hblank hroot
      · exact Tally.nodes_visit hp root htally hblank hroot
      · cases htally
    exact fun c hc => hroot c (Repository.nodes_locked c hc)

end Decoder.StateTables
end TypedTree
