import TypedTree.Proofs.Tree.Reading

/-! What nodes hold, by the names of their fields. The children of a node are what its fields hold, field after field.
    Where no type nests lists in lists, every node inside a tree is its root or inside a child. -/

namespace TypedTree

/-! ### Types that nest no lists -/

namespace FieldType

/-- Whether the values of the type are neither lists nor sets. -/
def single : FieldType → Bool
  | .scalar _ | .node _ => true
  | .optional inner => inner.single
  | .list _ | .set _ => false

/-- Whether the values of the type hold no lists inside lists. -/
def flat : FieldType → Bool
  | .scalar _ | .node _ => true
  | .optional inner => inner.flat
  | .list item | .set item => item.single

variable {p : Node → Prop} {type : FieldType} {v : Value}

theorem items?_of_single (hs : type.single = true) (hadm : type.admits v = true) : v.items? = none := by
  induction type with
  | scalar s => cases s <;> cases v <;> first | rfl | exact absurd hadm Bool.false_ne_true
  | node cls => cases v <;> first | rfl | exact absurd hadm Bool.false_ne_true
  | optional inner ih =>
    rcases admits_optional_iff.mp hadm with rfl | hadm
    · rfl
    · exact ih hs hadm
  | list => exact absurd hs Bool.false_ne_true
  | set => exact absurd hs Bool.false_ne_true

theorem items?_of_flat (hf : type.flat = true) (hadm : type.admits v = true) {items : List Value}
    (hv : v.items? = some items) : ∀ w ∈ items, w.items? = none := by
  induction type with
  | scalar s => rw [items?_of_single (show (FieldType.scalar s).single = true from rfl) hadm] at hv; cases hv
  | node cls => rw [items?_of_single (show (FieldType.node cls).single = true from rfl) hadm] at hv; cases hv
  | optional inner ih =>
    rcases admits_optional_iff.mp hadm with rfl | hadm
    · cases hv
    · exact ih hf hadm
  | list item =>
    cases v with
    | list ws =>
      obtain rfl : ws = items := Option.some.inj hv
      have hall : ∀ w ∈ ws, item.admits w = true := by simpa [admits] using hadm
      exact fun w hw => items?_of_single hf (hall w hw)
    | _ => exact absurd hadm Bool.false_ne_true
  | set item =>
    cases v with
    | set ws =>
      obtain rfl : ws = items := Option.some.inj hv
      rw [admits, Bool.and_eq_true] at hadm
      exact fun w hw => items?_of_single hf (List.all_eq_true.mp hadm.1 w hw)
    | _ => exact absurd hadm Bool.false_ne_true

/-- What holds of the nodes that a value holds, at any depth, holds everywhere in the value. -/
theorem everywhere_of_flat (hf : type.flat = true) (hadm : type.admits v = true)
    (h : ∀ c ∈ v.nodes, c.Everywhere p) : v.Everywhere p := by
  have inItems : ∀ {items : List Value}, v.items? = some items → (∀ c ∈ items.filterMap Value.asNode?, c.Everywhere p) →
      ∀ w ∈ items, w.Everywhere p := by
    intro items hv h w hw
    have hsingle := items?_of_flat hf hadm hv w hw
    cases w with
    | node c => exact Value.everywhere_node.mpr (h c (List.mem_filterMap.mpr ⟨_, hw, rfl⟩))
    | list => cases hsingle
    | set => cases hsingle
    | _ => trivial
  cases v with
  | node c => exact Value.everywhere_node.mpr (h c (List.mem_singleton.mpr rfl))
  | list items => exact Value.everywhere_list.mpr (inItems rfl h)
  | set items => exact Value.everywhere_set.mpr (inItems rfl h)
  | _ => trivial

/-- A type without a class of nodes admits no value that holds nodes. -/
theorem nodes_eq_nil (hadm : type.admits v = true) (hnone : type.nodeClass? = none) : v.nodes = [] := by
  have notNode : ∀ {type : FieldType} {c : Node}, type.nodeClass? = none → type.admits (.node c) = true → False := by
    intro type c hnone hadm
    induction type with
    | scalar s => cases s <;> exact Bool.false_ne_true hadm
    | node cls => cases hnone
    | optional inner ih =>
      rcases admits_optional_iff.mp hadm with h | h
      · cases h
      · exact ih hnone h
    | _ => exact Bool.false_ne_true hadm
  have inItems : ∀ {item : FieldType} {items : List Value}, item.nodeClass? = none →
      (∀ w ∈ items, item.admits w = true) → items.filterMap Value.asNode? = [] := by
    intro item items hnone hall
    refine List.filterMap_eq_nil_iff.mpr fun w hw => ?_
    cases w with
    | node c => exact (notNode hnone (hall _ hw)).elim
    | _ => rfl
  induction type with
  | optional inner ih =>
    rcases admits_optional_iff.mp hadm with rfl | hadm
    · rfl
    · exact ih hadm hnone
  | list item =>
    cases v with
    | list ws => exact inItems (show item.nodeClass? = none from hnone) (by simpa [admits] using hadm)
    | _ => exact absurd hadm Bool.false_ne_true
  | set item =>
    cases v with
    | set ws =>
      rw [admits, Bool.and_eq_true] at hadm
      exact inItems (show item.nodeClass? = none from hnone) (List.all_eq_true.mp hadm.1)
    | _ => exact absurd hadm Bool.false_ne_true
  | scalar s => cases s <;> cases v <;> first | rfl | exact absurd hadm Bool.false_ne_true
  | node cls => cases hnone

end FieldType

theorem Field.nodes_eq_nil {f : Field} {v : Value} (hadm : f.type.admits v = true) (hplain : ¬f.isChild = true) :
    v.nodes = [] :=
  FieldType.nodes_eq_nil hadm (by simpa [isChild] using hplain)

/-! ### Children -/

namespace Node
variable {n c : Node} {name : String}

/-- The nodes a field holds; none if there is no such field. -/
def held (n : Node) (name : String) : List Node :=
  match n.get name with
  | .ok v => v.nodes
  | .error _ => []

theorem held_of_get {v : Value} (h : n.get name = .ok v) : n.held name = v.nodes := by
  rw [held, h]

theorem held_congr {m : Node} (h : n.get name = m.get name) : n.held name = m.held name := by
  rw [held, held, h]

theorem mem_children_of_mem_held (h : c ∈ n.held name) : c ∈ n.children := by
  unfold held at h
  cases hg : n.get name with
  | error e => rw [hg] at h; exact absurd h List.not_mem_nil
  | ok v => rw [hg] at h; exact mem_children_of_get hg h

theorem sizeOf_lt_of_mem_held (h : c ∈ n.held name) : sizeOf c < sizeOf n :=
  sizeOf_lt_of_mem_children (mem_children_of_mem_held h)

theorem Everywhere.held {p : Node → Prop} (h : n.Everywhere p) (hc : c ∈ n.held name) : c.Everywhere p :=
  h.child (mem_children_of_mem_held hc)

theorem held_of_getNode (h : n.getNode name = .ok c) : n.held name = [c] := held_of_get (get_of_getNode h)

theorem held_of_getNode? (h : n.getNode? name = .ok (some c)) : n.held name = [c] := held_of_get (get_of_getNode? h)

theorem held_of_getNode?_none (h : n.getNode? name = .ok none) : n.held name = [] :=
  held_of_get (get_absent_of_getNode? h)

theorem held_of_nodeList {cs : List Node} (h : n.get name = .ok (.nodeList cs)) : n.held name = cs := by
  rw [held_of_get h, nodes_nodeList]

theorem descendAll_of_getNodes {cs : List Node} (h : n.getNodes name = .ok cs) :
    ∃ ds, n.descendAll name = .ok ds ∧ ds.map (·.1) = cs := by
  have hmap := n.map_val_descendAll name
  rw [h] at hmap
  cases hd : n.descendAll name with
  | error e => rw [hd] at hmap; cases hmap
  | ok ds =>
    rw [hd] at hmap
    exact ⟨ds, rfl, Except.ok.inj hmap⟩

theorem BuiltFrom.held_node {vs : List Variant} {label cls : String} (h : n.BuiltFrom vs) (name : String)
    (hf : n.variant.field? name = some ⟨label, .node cls⟩) :
    ∃ c, n.getNode name = .ok c ∧ n.held name = [c] ∧ c.isA cls = true ∧ c.BuiltFrom vs := by
  obtain ⟨c, hg, hc, hb⟩ := h.get_node name hf
  exact ⟨c, getNode_of_get hg, held_of_getNode (getNode_of_get hg), hc, hb⟩

theorem BuiltFrom.held_nodes {vs : List Variant} {label cls : String} (h : n.BuiltFrom vs) (name : String)
    (hf : n.variant.field? name = some ⟨label, .list (.node cls)⟩) :
    n.getNodes name = .ok (n.held name) ∧ ∀ c ∈ n.held name, c.isA cls = true ∧ c.BuiltFrom vs := by
  obtain ⟨cs, hg, hcs⟩ := h.get_nodeList name hf
  rw [held_of_nodeList hg]
  exact ⟨getNodes_of_get hg, hcs⟩

/-- Whether a field holds the node, by identity. -/
def holds (n : Node) (name : String) (c : Node) : Bool := (n.held name).contains c

theorem holds_eq_of_get {m : Node} (h : n.get name = m.get name) : n.holds name = m.holds name := by
  funext c
  rw [holds, holds, held_congr h]

theorem beq_iff {a b : Node} : (a == b) = true ↔ a.id = b.id := by
  show (a.id == b.id) = true ↔ _
  exact beq_iff_eq

theorem beq_eq (a b : Node) : (a == b) = decide (a.id = b.id) := by
  rw [Bool.eq_iff_iff, beq_iff, decide_eq_true_iff]

theorem holds_congr {a b : Node} (h : a.id = b.id) (n : Node) (name : String) : n.holds name a = n.holds name b := by
  rw [holds, holds, List.contains_eq_any_beq, List.contains_eq_any_beq]
  congr 1
  funext c
  rw [beq_eq, beq_eq, h]

theorem holds_of_getNode (h : n.getNode name = .ok c) (d : Node) : n.holds name d = (d == c) := by
  simp [holds, held_of_getNode h]

/-- The children are what the fields for nodes hold, in order. -/
theorem Fits.children_eq (h : n.Fits) (hnd : (n.variant.fields.map Field.name).Nodup) :
    n.children = n.variant.childFields.flatMap fun f => n.held f.name := by
  have collect : ∀ {fs : List Field} {values : List Value},
      List.Forall₂ (fun (f : Field) v => f.type.admits v = true) fs values →
      List.Forall₂ (fun (f : Field) v => n.get f.name = .ok v) fs values →
      values.flatMap Value.nodes = (fs.filter Field.isChild).flatMap fun f => n.held f.name := by
    intro fs values hfit hget
    -- Fields and values are taken off together; where no node may stand, no node is held.
    induction hfit with
    | nil => rfl
    | @cons f v fs values hadm _ ih =>
      obtain _ | ⟨hv, hget⟩ := hget
      rw [List.flatMap_cons, List.filter_cons, ih hget]
      by_cases hf : f.isChild = true
      · rw [if_pos hf, List.flatMap_cons, held_of_get hv]
      · rw [if_neg hf, FieldType.nodes_eq_nil hadm (by simpa [Field.isChild] using hf), List.nil_append]
  exact collect h (h.get_values hnd)

/-- What holds of a node and everywhere in its children holds everywhere in its tree. -/
theorem Fits.everywhere (h : n.Fits) (hflat : ∀ f ∈ n.variant.fields, f.type.flat = true) {p : Node → Prop} (hp : p n)
    (hc : ∀ c ∈ n.children, c.Everywhere p) : n.Everywhere p := by
  refine everywhere_iff.mpr ⟨hp, fun v hv => ?_⟩
  obtain ⟨i, hi, rfl⟩ := List.getElem_of_mem hv
  have hi' : i < n.variant.fields.length := (List.Forall₂.length_eq h).symm ▸ hi
  refine FieldType.everywhere_of_flat (hflat _ (List.getElem_mem hi')) (List.Forall₂.get h hi' hi) fun c hcv => hc c ?_
  exact List.mem_flatMap.mpr ⟨_, hv, hcv⟩

end Node
end TypedTree
