import TypedTree.Decoder.Builders
import TypedTree.Proofs.Tree.Holding

/-! Trees built from the variants of the decoder language: the kinds that the classes stand for, and the automata and
    transitions of a decoder or an automaton. -/

namespace TypedTree.Decoder

/-! ### Kinds -/

section Kinds
variable {n : Node} {k : Kind}

theorem Kind.of?_of_variant (h : n.variant = k.variant) : Kind.of? n = some k := by
  obtain ⟨id, v, values⟩ := n
  cases h
  exact Kind.of?_mk_variant id k values

theorem exists_kind (h : n.BuiltFrom variants) : ∃ k : Kind, n.variant = k.variant := by
  obtain ⟨k, -, hk⟩ := List.mem_map.mp h.variant_mem
  exact ⟨k, hk.symm⟩

theorem isA_of_variant (h : n.variant = k.variant) (cls : String) : n.isA cls = k.variant.isA cls :=
  congrArg (·.isA cls) h

theorem isA_name (h : n.variant = k.variant) : n.isA k.name = true := by
  simp [isA_of_variant h, Variant.isA]

/-- A node of a class is of one of the kinds that belong to it. -/
theorem exists_kind_of_isA (h : n.BuiltFrom variants) {cls : String} (hk : n.isA cls = true) :
    ∃ k ∈ Kind.list.filter (·.variant.isA cls), n.variant = k.variant := by
  obtain ⟨k, hvar⟩ := exists_kind h
  rw [isA_of_variant hvar] at hk
  exact ⟨k, List.mem_filter.mpr ⟨Enumerated.mem_all k, hk⟩, hvar⟩

/-- The class of the name of a kind holds nodes of the kind alone. -/
theorem variant_of_isA (h : n.BuiltFrom variants) (k : Kind) (hk : n.isA k.name = true) : n.variant = k.variant := by
  obtain ⟨found, hfound⟩ := exists_kind h
  have hall : ∀ k ∈ Kind.list, ∀ found ∈ Kind.list, found.variant.isA k.name = true → found = k := by decide
  rw [isA_of_variant hfound] at hk
  rw [hfound, hall k (Enumerated.mem_all k) found (Enumerated.mem_all found) hk]

end Kinds

/-! ### Fields -/

section Fields
variable {n : Node} {k : Kind} {label cls : String}

theorem reads_node (hn : n.BuiltFrom variants) (kind : n.variant = k.variant) (name : String)
    (hf : k.variant.field? name = some ⟨label, .node cls⟩) :
    ∃ c, n.getNode name = .ok c ∧ n.held name = [c] ∧ c.isA cls = true ∧ c.BuiltFrom variants :=
  hn.held_node name (by rw [kind]; exact hf)

theorem reads_nodes (hn : n.BuiltFrom variants) (kind : n.variant = k.variant) (name : String)
    (hf : k.variant.field? name = some ⟨label, .list (.node cls)⟩) :
    n.getNodes name = .ok (n.held name) ∧ ∀ c ∈ n.held name, c.isA cls = true ∧ c.BuiltFrom variants :=
  hn.held_nodes name (by rw [kind]; exact hf)

end Fields

end TypedTree.Decoder
