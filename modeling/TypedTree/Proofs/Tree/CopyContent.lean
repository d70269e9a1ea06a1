import TypedTree.Proofs.Tree.Content
import TypedTree.Proofs.Tree.Copying
import TypedTree.Proofs.Tree.Obtainable
import TypedTree.Proofs.Tree.Text

/-! A copy has the content of the tree it is made from. Both are written the same, for only identities differ, and they
    have the same content unless a number that does not equal itself stands in one of the nodes that are copied. Every
    place of the tree takes one identity, also where one node stands at several. -/

namespace TypedTree

/-! ### Numbers -/

/-- The number stands in the value, on its own or in lists and sets of any depth, but not in a node. -/
inductive Value.HoldsFloat (x : Binary64) : Value → Prop
  | float : HoldsFloat x (.float x)
  | list {v : Value} {items : List Value} (hv : v ∈ items) (h : HoldsFloat x v) : HoldsFloat x (.list items)
  | set {v : Value} {items : List Value} (hv : v ∈ items) (h : HoldsFloat x v) : HoldsFloat x (.set items)

/-- No number in the fields of the node is NaN; nodes that it holds do not count. -/
def Node.NaNFree (n : Node) : Prop := ∀ v ∈ n.values, ∀ x, v.HoldsFloat x → x.isNaN = false

/-- A value has its own content if all numbers in it equal themselves. -/
theorem Value.sameContent_self (v : Value) (h : ∀ x, v.HoldsFloat x → x.isNaN = false) : v.sameContent v = true := by
  match v with
  | .float x =>
    show x.numericEq x = true
    rw [Binary64.numericEq_self, h x .float]
    rfl
  | .node n => exact sameContent_node_iff.mpr ⟨n, rfl, n.sameContent_self⟩
  | .list items =>
    refine sameContent_list_iff.mpr ⟨items, rfl, List.forall₂_same.mpr fun v hv => ?_⟩
    have := List.sizeOf_lt_of_mem hv
    exact sameContent_self v fun x hx => h x (.list hv hx)
  | .set items =>
    refine sameContent_set_iff.mpr ⟨items, rfl, List.forall₂_same.mpr fun v hv => ?_⟩
    have := List.sizeOf_lt_of_mem hv
    exact sameContent_self v fun x hx => h x (.set hv hx)
  | .absent => rfl
  | .int i => exact beq_self_eq_true i
  | .bool b => exact beq_self_eq_true b
  | .str s => exact beq_self_eq_true s
  | .enum m =>
    show (m.enum.name == m.enum.name && m.member == m.member) = true
    rw [beq_self_eq_true, beq_self_eq_true, Bool.and_self]

/-! ### Values with copies -/

section Mapped
variable {R : Node → Node → Prop} {v v' : Value}

/-- A relation of values that goes from the items of lists and sets to the whole holds between a value and the value
    with other nodes, if it holds of the nodes and of what stays. -/
theorem Value.HeldMapped.related {S : Value → Value → Prop} (h : v.HeldMapped R v')
    (list : ∀ {xs ys}, List.Forall₂ S xs ys → S (.list xs) (.list ys))
    (set : ∀ {xs ys}, List.Forall₂ S xs ys → S (.set xs) (.set ys))
    (node : ∀ c ∈ v.nodes, ∀ c', R c c' → S (.node c) (.node c'))
    (other : ∀ x ∈ v :: v.items?.getD [], x.asNode? = none → S x x) : S v v' := by
  have items : ∀ {xs ys : List Value}, List.Forall₂ (NodeMapped R) xs ys →
      (∀ c ∈ xs.filterMap asNode?, ∀ c', R c c' → S (.node c) (.node c')) →
      (∀ x ∈ xs, x.asNode? = none → S x x) → List.Forall₂ S xs ys := by
    intro xs ys h node other
    refine forall₂_imp_of_mem h fun x hx y _ hxy => ?_
    cases hxy with
    | node hc => exact node _ (List.mem_filterMap.mpr ⟨_, hx, rfl⟩) _ hc
    | other hn => exact other x hx hn
  cases h with
  | single _ hm =>
    cases hm with
    | node hc => exact node _ (List.mem_singleton.mpr rfl) _ hc
    | other hn => exact other _ List.mem_cons_self hn
  | list hm => exact list (items hm node fun x hx => other x (List.mem_cons_of_mem _ hx))
  | set hm => exact set (items hm node fun x hx => other x (List.mem_cons_of_mem _ hx))

theorem Value.HeldMapped.sameText (h : v.HeldMapped R v') (hnodes : ∀ c ∈ v.nodes, ∀ c', R c c' → c.SameText c') :
    v.SameText v' :=
  h.related SameText.list SameText.set (fun c hc c' hR => .node (hnodes c hc c' hR)) fun x _ _ => .refl x

theorem Value.HeldMapped.sameContent (h : v.HeldMapped R v') (hnan : ∀ x, v.HoldsFloat x → x.isNaN = false)
    (hnodes : ∀ c ∈ v.nodes, ∀ c', R c c' → c.sameContent c' = true) : v.sameContent v' = true := by
  refine h.related (S := fun x y => x.sameContent y = true) (fun hxy => ?_) (fun hxy => ?_) (fun c hc c' hR => ?_)
    fun x hx _ => ?_
  · exact sameContent_list_iff.mpr ⟨_, rfl, hxy⟩
  · exact sameContent_set_iff.mpr ⟨_, rfl, hxy⟩
  · exact sameContent_node_iff.mpr ⟨c', rfl, hnodes c hc c' hR⟩
  · refine x.sameContent_self fun y hy => hnan y ?_
    rcases List.mem_cons.mp hx with rfl | hx
    · exact hy
    · cases v with
      | list items => exact .list hx hy
      | set items => exact .set hx hy
      | _ => cases hx

end Mapped

/-! ### Copies -/

namespace Node

theorem mem_children_of_mem_nodes {n c : Node} {v : Value} (hv : v ∈ n.values) (hc : c ∈ v.nodes) : c ∈ n.children :=
  List.mem_flatMap.mpr ⟨v, hv, hc⟩

theorem sameText_of_copyOf (n n' : Node) (h : n.Everywhere Fits) (hc : n.CopyOf n') : n.SameText n' := by
  have hcopied := hc.copied h
  have hvalues : List.Forall₂ Value.SameText n.values n'.values := by
    refine forall₂_imp_of_mem hcopied.values fun v hv v' _ hm => hm.sameText fun c hcv c' hcc' => ?_
    have hchild := mem_children_of_mem_nodes hv hcv
    have := sizeOf_lt_of_mem_children hchild
    exact sameText_of_copyOf c c' (h.child hchild) hcc'
  obtain ⟨i, v, xs⟩ := n
  obtain ⟨j, v', ys⟩ := n'
  obtain rfl : v' = v := hcopied.variant
  exact sameText_of_values hvalues
termination_by sizeOf n

theorem sameContent_of_copyOf (n n' : Node) (h : n.Everywhere Fits) (hnan : ∀ m ∈ n.occurrences, m.NaNFree)
    (hc : n.CopyOf n') : n.sameContent n' = true := by
  have hcopied := hc.copied h
  have hvalues : List.Forall₂ (fun x y => x.sameContent y = true) n.values n'.values := by
    refine forall₂_imp_of_mem hcopied.values fun v hv v' _ hm => ?_
    refine hm.sameContent (hnan n n.self_mem_occurrences v hv) fun c hcv c' hcc' => ?_
    have hchild := mem_children_of_mem_nodes hv hcv
    have := sizeOf_lt_of_mem_children hchild
    exact sameContent_of_copyOf c c' (h.child hchild) (fun m hm => hnan m (mem_occurrences_of_child hchild hm)) hcc'
  exact sameContent_of_values hcopied.variant.symm hvalues
termination_by sizeOf n

/-- The nodes of a copy are, place for place, copies of the nodes of the tree. -/
theorem occurrences_of_copyOf (n n' : Node) (h : n.Everywhere Fits) (hc : n.CopyOf n') :
    List.Forall₂ CopyOf n.occurrences n'.occurrences := by
  have hchildren : List.Forall₂ CopyOf n.children n'.children :=
    List.rel_flatMap (hc.copied h).values fun _ _ hm => hm.nodes
  have hbelow : List.Forall₂ CopyOf (n.children.flatMap occurrences) (n'.children.flatMap occurrences) := by
    have hplaces : List.Forall₂ (fun c c' => List.Forall₂ CopyOf c.occurrences c'.occurrences) n.children n'.children := by
      refine forall₂_imp_of_mem hchildren fun c hchild c' _ hcc' => ?_
      have := sizeOf_lt_of_mem_children hchild
      exact occurrences_of_copyOf c c' (h.child hchild) hcc'
    exact List.rel_flatMap hplaces fun _ _ hcc' => hcc'
  rw [occurrences_eq, occurrences_eq]
  exact List.rel_append hbelow (.cons hc .nil)
termination_by sizeOf n

/-- Copying succeeds on every node that can be obtained. The copy is written as the node is, in both forms, and has its
    content unless a number in a copied node is NaN. It takes one identity for each place of the tree, what a node holds
    before the node, so the copy has no node that was there before. -/
theorem copy_content {n : Node} (h : n.Obtainable) (w : Workspace) : ∃ n',
    built n.copy w = (.ok n', { w with nextId := w.nextId + n.occurrences.length }) ∧
      n'.display = n.display ∧ n'.canonicalJson = n.canonicalJson ∧
      ((∀ m ∈ n.occurrences, m.NaNFree) → n.sameContent n' = true) ∧
      List.Forall₂ CopyOf n.occurrences n'.occurrences ∧
      n'.occurrences.map id = List.range' w.nextId n.occurrences.length ∧
      ∀ m ∈ n'.occurrences, w.nextId ≤ m.id := by
  have hfits := h.everywhere_fits
  have hlength : n.ids.length = n.occurrences.length := List.length_map ..
  obtain ⟨n', hrun, hids, -⟩ := copy_numbers n hfits w
  rw [hlength] at hrun hids
  have hcopy : n.CopyOf n' := ⟨w, _, hrun⟩
  have htext := sameText_of_copyOf n n' hfits hcopy
  refine ⟨n', hrun, htext.display.symm, htext.canonicalJson.symm,
    fun hnan => sameContent_of_copyOf n n' hfits hnan hcopy, occurrences_of_copyOf n n' hfits hcopy, hids,
    fun m hm => ?_⟩
  have hmem : m.id ∈ List.range' w.nextId n.occurrences.length := hids ▸ List.mem_map_of_mem hm
  exact (List.mem_range'_1.mp hmem).1

/-! ### A node with a leaf at three places -/

def shelfVariant : Variant :=
  ⟨"Shelf", [], [⟨"best", .optional (.node "Leaf")⟩, ⟨"worst", .optional (.node "Leaf")⟩,
    ⟨"leaves", .set (.node "Leaf")⟩, ⟨"order", .list (.node "Leaf")⟩, ⟨"weight", .float⟩]⟩

def shelf : Node :=
  .mk 2 shelfVariant [.node (leafNode 0 .absent), .absent,
    .set [.node (leafNode 0 .absent), .node (leafNode 1 (.str "old"))],
    .list [.node (leafNode 1 (.str "old")), .node (leafNode 0 .absent)], .float ⟨0⟩]

theorem shelf_occurrences : shelf.occurrences = [leafNode 0 .absent, leafNode 0 .absent, leafNode 1 (.str "old"),
    leafNode 1 (.str "old"), leafNode 0 .absent, shelf] := by
  have leaf : ∀ id mark, mark.nodes = [] → (leafNode id mark).occurrences = [leafNode id mark] := by
    intro id mark h
    rw [occurrences_eq, leafNode, children, values, List.flatMap_singleton, h]
    rfl
  rw [occurrences_eq]
  show [leafNode 0 .absent, leafNode 0 .absent, leafNode 1 (.str "old"), leafNode 1 (.str "old"),
    leafNode 0 .absent].flatMap occurrences ++ [shelf] = _
  simp [leaf 0 .absent rfl, leaf 1 (.str "old") rfl]

theorem shelf_obtainable : shelf.Obtainable := by
  have plain : (leafNode 0 .absent).Obtainable := by
    have built : built (leafVariant.build []) {} = (.ok (leafNode 0 .absent), { nextId := 1 }) := rfl
    exact .build (by simp) built
  have old : (leafNode 1 (.str "old")).Obtainable := by
    have built : built (leafVariant.build [("mark", .str "old")]) { nextId := 1 } =
      (.ok (leafNode 1 (.str "old")), { nextId := 2 }) := rfl
    exact .build (List.forall_mem_singleton.mpr fun c hc => by cases hc) built
  have leaves : ∀ {c : Node} {v : Value}, v = .node (leafNode 0 .absent) ∨ v = .node (leafNode 1 (.str "old")) →
      v.Holds c → c.Obtainable := by
    rintro c _ (rfl | rfl) hc
    · cases hc
      exact plain
    · cases hc
      exact old
  have built : built (shelfVariant.build [("best", .node (leafNode 0 .absent)),
      ("leaves", .set [.node (leafNode 0 .absent), .node (leafNode 1 (.str "old"))]),
      ("order", .list [.node (leafNode 1 (.str "old")), .node (leafNode 0 .absent)]), ("weight", .float ⟨0⟩)])
    { nextId := 2 } = (.ok shelf, { nextId := 3 }) := rfl
  refine .build ?_ built
  simp only [List.forall_mem_cons]
  refine ⟨fun c hc => leaves (.inl rfl) hc, fun c hc => ?_, fun c hc => ?_, fun c hc => (by cases hc), by simp⟩
  · cases hc with
    | set hv hc => exact leaves (by simpa using hv) hc
  · cases hc with
    | list hv hc => exact leaves (by simpa [or_comm] using hv) hc

/-- The weight of the shelf is the only number. -/
theorem shelf_nanFree : ∀ m ∈ shelf.occurrences, m.NaNFree := by
  have leaf : ∀ {id : NodeId} {mark : Value}, (∀ x, ¬mark.HoldsFloat x) → (leafNode id mark).NaNFree := by
    intro id mark h v hv x hx
    obtain rfl := List.mem_singleton.mp hv
    exact (h x hx).elim
  have plain : (leafNode 0 .absent).NaNFree := leaf fun x hx => by cases hx
  have old : (leafNode 1 (.str "old")).NaNFree := leaf fun x hx => by cases hx
  have nodes : ∀ {x : Binary64} {items : List Value}, (∀ v ∈ items, ∃ c, v = .node c) →
      ∀ {v : Value}, v ∈ items → ¬v.HoldsFloat x := by
    rintro x items h v hv hx
    obtain ⟨c, rfl⟩ := h v hv
    cases hx
  have root : shelf.NaNFree := by
    simp only [NaNFree, shelf, values, List.forall_mem_cons]
    refine ⟨fun x hx => (by cases hx), fun x hx => (by cases hx), fun x hx => ?_, fun x hx => ?_, fun x hx => ?_, by simp⟩
    · cases hx with
      | set hv hx => exact (nodes (by simp) hv hx).elim
    · cases hx with
      | list hv hx => exact (nodes (by simp) hv hx).elim
    · cases hx
      rfl
  rw [shelf_occurrences]
  simp only [List.forall_mem_cons]
  exact ⟨plain, plain, old, old, plain, root, by simp⟩

theorem copy_content_shelf : shelf.Obtainable ∧ ∃ n', built shelf.copy { nextId := 3 } = (.ok n', { nextId := 9 }) ∧
    n'.display = shelf.display ∧ shelf.sameContent n' = true ∧ n'.occurrences.map id = [3, 4, 5, 6, 7, 8] := by
  obtain ⟨n', hrun, hdisplay, -, hcontent, -, hids, -⟩ := copy_content shelf_obtainable { nextId := 3 }
  have hsame := hcontent shelf_nanFree
  rw [shelf_occurrences] at hrun hids
  exact ⟨shelf_obtainable, n', hrun, hdisplay, hsame, hids⟩

end Node
end TypedTree
